import Mathlib.Algebra.Group.Nat.Defs
import Mathlib.Logic.Function.Basic
import Mathlib.Data.List.Nodup

/-!
# `Lib.LinkedList` — circular doubly linked lists in a heap of links

An intrusive list is a ring of nodes threaded through `next` and `prev` pointers, with a head node that
belongs to the ring but is not a member. This module gives the pointer operations over an arbitrary type
of node addresses (`none` is the null pointer; an operation is `none` when it would dereference it), and
relates them to operations on sequences:

* `Links m l` — consecutive nodes of `l` point at each other. It splits at any node (`links_append`) and
  reads only the links between its nodes (`Links.congr`), so an edit is local.
* `Lists m H L` — from every head `h ∈ H` runs a ring with members `L h`, and no node is on two of them.
  `Lists.add`, `Lists.addTail` and `Lists.del` say what the operations do to the whole family;
  `Lists.congr` that a node off every list may change freely.
* `traverse m h n` — the nodes that the first `n` steps of a walk from `h` visit.
* `forEachSafe m body h k` — a loop over the members that may unlink the one it is at: the next one is read ahead.
  `Lists.forEachSafe` is its rule.

A ring is not an inductive object, so nothing here is proved by induction over pointers. The members of a list are
given as a sequence, the ring is that sequence between its head and its head, and every operation is an exchange of a
stretch of it (`Links.splice`, `Lists.splice`): to add is to exchange nothing for one node, to delete is to exchange
one node for nothing. The family of all rings is kept together because the operations of the source are given a node
and not a list: `list_del e` is correct whichever list `e` is on, and says nothing of a node that is on none.

What is not claimed is as important: `del` on a node whose links are null is `none`, which is the page fault of the
code, and `add` of a node that is already on a list makes no promise.
-/

namespace MyUnix.Lib

variable {α : Type} [DecidableEq α]

/-- The links of all nodes. -/
structure ListMem (α : Type) where
  next : α → Option α
  prev : α → Option α

namespace ListMem

variable (m : ListMem α)

/-- `a->next = v`. -/
def setNext (a : α) (v : Option α) : ListMem α := { m with next := Function.update m.next a v }

/-- `a->prev = v`. -/
def setPrev (a : α) (v : Option α) : ListMem α := { m with prev := Function.update m.prev a v }

/-- Make `a` a ring of its own. -/
def init (a : α) : ListMem α := (m.setNext a (some a)).setPrev a (some a)

/-- Whether the ring of `h` has no member. -/
def isEmpty (h : α) : Bool := m.next h = some h

/-- Link `n` in between `p` and `q`. -/
def addBetween (n p q : α) : ListMem α :=
  (((m.setPrev q (some n)).setNext n (some q)).setPrev n (some p)).setNext p (some n)

/-- Link `n` in right behind `h`. -/
def add (n h : α) : Option (ListMem α) := (m.next h).map fun q => m.addBetween n h q

/-- Link `n` in right before `h`. -/
def addTail (n h : α) : Option (ListMem α) := (m.prev h).map fun p => m.addBetween n p h

/-- Unlink `e` and clear its links. -/
def del (e : α) : Option (ListMem α) := do
  let p ← m.prev e
  let m := m.setNext p (m.next e)
  let q ← m.next e
  let m := m.setPrev q (m.prev e)
  pure ((m.setNext e none).setPrev e none)

/-- The nodes visited by at most `n` steps of a walk along `next` from `a`, up to the head `h`. -/
def walk (h : α) : Nat → α → List α
  | 0,     _ => []
  | n + 1, a => match m.next a with
    | none   => []
    | some b => if b = h then [] else b :: walk h n b

/-- The walk from the head itself. -/
def traverse (h : α) (n : Nat) : List α := m.walk h n h

/-- The turns of a loop at the node `pos`, which has read the node `n` behind it ahead, with the nodes it visits; it ends
    at the head `h`. -/
def safeTurns (body : α → ListMem α → Option (ListMem α)) (h : α) :
    Nat → α → Option α → ListMem α → Option (List α × ListMem α)
  | 0,     _,   _, _ => none
  | k + 1, pos, n, m =>
    if pos = h then some ([], m)
    else do
      let m ← body pos m
      let pos' ← n
      let (visited, m) ← safeTurns body h k pos' (m.next pos') m
      some (pos :: visited, m)

/-- The loop over the ring of `h`, in at most `k` turns. -/
def forEachSafe (body : α → ListMem α → Option (ListMem α)) (h : α) (k : Nat) : Option (List α × ListMem α) := do
  let pos ← m.next h
  safeTurns body h k pos (m.next pos) m

@[simp] theorem setNext_next (a b : α) (v : Option α) :
    (m.setNext a v).next b = if b = a then v else m.next b := by
  simp [setNext, Function.update_apply]

@[simp] theorem setNext_prev (a b : α) (v : Option α) : (m.setNext a v).prev b = m.prev b := rfl

@[simp] theorem setPrev_prev (a b : α) (v : Option α) :
    (m.setPrev a v).prev b = if b = a then v else m.prev b := by
  simp [setPrev, Function.update_apply]

@[simp] theorem setPrev_next (a b : α) (v : Option α) : (m.setPrev a v).next b = m.next b := rfl

@[simp] theorem init_next (a b : α) : (m.init a).next b = if b = a then some a else m.next b := by
  simp [init]

@[simp] theorem init_prev (a b : α) : (m.init a).prev b = if b = a then some a else m.prev b := by
  simp [init]

theorem addBetween_next (n p q b : α) :
    (m.addBetween n p q).next b = if b = p then some n else if b = n then some q else m.next b := by
  simp [addBetween]

theorem addBetween_prev (n p q b : α) :
    (m.addBetween n p q).prev b = if b = n then some p else if b = q then some n else m.prev b := by
  simp [addBetween]

end ListMem

/-! ## Linked sequences

`Links m l` speaks of consecutive nodes only, so it says nothing of what lies before the first and behind the last
one. That makes it stable under edits elsewhere, and lets a ring be opened at any node.
-/

/-- Consecutive nodes point at each other. -/
def Links (m : ListMem α) : List α → Prop
  | x :: y :: l => m.next x = some y ∧ m.prev y = some x ∧ Links m (y :: l)
  | _ => True

omit [DecidableEq α] in
@[simp] theorem links_cons_cons {m : ListMem α} {x y : α} {l : List α} :
    Links m (x :: y :: l) ↔ m.next x = some y ∧ m.prev y = some x ∧ Links m (y :: l) := Iff.rfl

omit [DecidableEq α] in
@[simp] theorem links_singleton (m : ListMem α) (x : α) : Links m [x] := trivial

omit [DecidableEq α] in
/-- A linked sequence splits at any of its nodes. -/
theorem links_append {m : ListMem α} {x : α} {r : List α} :
    ∀ {l : List α}, Links m (l ++ x :: r) ↔ Links m (l ++ [x]) ∧ Links m (x :: r)
  | []          => by simp
  | [a]         => by simp [and_assoc]
  | a :: b :: l => by
    have ih := links_append (m := m) (x := x) (r := r) (l := b :: l)
    simp only [List.cons_append, links_cons_cons] at ih ⊢
    rw [ih, and_assoc, and_assoc]

omit [DecidableEq α] in
/-- The links of a sequence live in `next` of all nodes but the last and `prev` of all but the first. -/
theorem Links.congr {m m' : ListMem α} :
    ∀ {l : List α}, Links m l → (∀ x ∈ l.dropLast, m'.next x = m.next x) →
      (∀ x ∈ l.tail, m'.prev x = m.prev x) → Links m' l
  | [],          _, _,  _  => trivial
  | [_],         _, _,  _  => trivial
  | x :: y :: l, h, hn, hp => by
    obtain ⟨h1, h2, h3⟩ := h
    refine ⟨?_, ?_, h3.congr (fun z hz => hn z ?_) (fun z hz => hp z ?_)⟩
    · rw [hn x (by simp), h1]
    · rw [hp y (by simp), h2]
    · simp only [List.dropLast_cons_cons, List.mem_cons]
      exact Or.inr hz
    · exact List.mem_cons_of_mem _ hz

omit [DecidableEq α] in
/-- The first link of a ring. -/
theorem Links.next_head {m : ListMem α} {h : α} {l : List α} (hl : Links m (h :: l ++ [h])) :
    m.next h = some ((l ++ [h]).head (by simp)) := by
  cases l with
  | nil => exact hl.1
  | cons x l => exact hl.1

/-- On a ring the walk from the head visits the members in order. -/
theorem walk_of_links {m : ListMem α} {h : α} :
    ∀ (n : Nat) {a : α} {l : List α}, Links m (a :: l ++ [h]) → h ∉ l → m.walk h n a = l.take n
  | 0,     _, _,      _,  _  => by simp [ListMem.walk]
  | n + 1, a, [],     hl, _  => by
    have h1 : m.next a = some h := hl.1
    simp [ListMem.walk, h1]
  | n + 1, a, x :: l, hl, hh => by
    have h1 : m.next a = some x := hl.1
    have hx : x ≠ h := fun he => hh (he ▸ List.mem_cons_self)
    simp only [ListMem.walk, h1, if_neg hx, List.take_succ_cons]
    rw [walk_of_links n hl.2.2 fun hm => hh (List.mem_cons_of_mem _ hm)]

omit [DecidableEq α] in
/-- Exchanging the stretch `mid` between `p` and `q` for fresh nodes `mid'`, on a sequence whose only
    repetition is that its last node may be its first. -/
theorem Links.splice {m m' : ListMem α} {ini mid mid' fin : List α} {p q : α}
    (hl : Links m (ini ++ p :: (mid ++ q :: fin)))
    (hndl : (ini ++ p :: (mid ++ q :: fin)).dropLast.Nodup)
    (hndt : (ini ++ p :: (mid ++ q :: fin)).tail.Nodup)
    (hfresh : ∀ x ∈ ini ++ p :: (mid ++ q :: fin), x ∉ mid')
    (hmid : Links m' (p :: mid' ++ [q]))
    (hnext : ∀ x, x ≠ p → x ∉ mid → x ∉ mid' → m'.next x = m.next x)
    (hprev : ∀ x, x ≠ q → x ∉ mid → x ∉ mid' → m'.prev x = m.prev x) :
    Links m' (ini ++ p :: (mid' ++ q :: fin)) := by
  have hsplit : ini ++ p :: (mid ++ q :: fin) = (ini ++ p :: mid) ++ q :: fin := by simp
  have hini : Links m (ini ++ [p]) := (links_append.mp hl).1
  have hfin : Links m (q :: fin) := by
    rw [hsplit] at hl
    exact (links_append.mp hl).2
  -- a node in front of the stretch, or behind it, is neither the end whose link changes nor a member of it
  have hnini : ∀ x ∈ ini, x ≠ p ∧ x ∉ mid := by
    intro x hx
    rw [List.dropLast_append_of_ne_nil (by simp), List.dropLast_cons_of_ne_nil (by simp),
      List.dropLast_append_of_ne_nil (by simp)] at hndl
    have hd := List.disjoint_of_nodup_append hndl hx
    simp only [List.mem_cons, List.mem_append] at hd
    exact ⟨fun he => hd (Or.inl he), fun hm => hd (Or.inr (Or.inl hm))⟩
  have hnfin : ∀ x ∈ (q :: fin).dropLast, x ≠ p ∧ x ∉ mid := by
    intro x hx
    rw [List.dropLast_append_of_ne_nil (by simp), List.dropLast_cons_of_ne_nil (by simp),
      List.dropLast_append_of_ne_nil (by simp)] at hndl
    have hpm := (List.nodup_append.mp hndl).2.1
    rw [List.nodup_cons] at hpm
    refine ⟨?_, fun hm => List.disjoint_of_nodup_append hpm.2 hm hx⟩
    rintro rfl
    exact hpm.1 (List.mem_append_right _ hx)
  have hpini : ∀ x ∈ (ini ++ [p]).tail, x ≠ q ∧ x ∉ mid := by
    intro x hx
    have htail : (ini ++ p :: (mid ++ q :: fin)).tail = (ini ++ [p]).tail ++ (mid ++ q :: fin) := by
      cases ini <;> simp
    rw [htail] at hndt
    have hd := List.disjoint_of_nodup_append hndt hx
    simp only [List.mem_cons, List.mem_append] at hd
    exact ⟨fun he => hd (Or.inr (Or.inl he)), fun hm => hd (Or.inl hm)⟩
  have hpfin : ∀ x ∈ fin, x ≠ q ∧ x ∉ mid := by
    intro x hx
    have htail : (ini ++ p :: (mid ++ q :: fin)).tail = (ini ++ [p]).tail ++ (mid ++ q :: fin) := by
      cases ini <;> simp
    rw [htail] at hndt
    have hmq := (List.nodup_append.mp hndt).2.1
    have hqf := (List.nodup_append.mp hmq).2.1
    refine ⟨?_, fun hm => List.disjoint_of_nodup_append hmq hm (List.mem_cons_of_mem _ hx)⟩
    rintro rfl
    exact (List.nodup_cons.mp hqf).1 hx
  have hsplit' : p :: (mid' ++ q :: fin) = (p :: mid') ++ q :: fin := by simp
  -- the two outer parts keep their links, the stretch has those that were given
  rw [links_append]
  constructor
  · refine hini.congr (fun x hx => ?_) (fun x hx => ?_)
    · rw [List.dropLast_concat] at hx
      obtain ⟨h1, h2⟩ := hnini x hx
      exact hnext x h1 h2 (hfresh x (List.mem_append_left _ hx))
    · obtain ⟨h1, h2⟩ := hpini x hx
      have hx' : x ∈ ini ++ [p] := List.mem_of_mem_tail hx
      refine hprev x h1 h2 (hfresh x ?_)
      simp only [List.mem_append, List.mem_singleton] at hx'
      rcases hx' with hx' | rfl
      · exact List.mem_append_left _ hx'
      · simp
  · rw [hsplit', links_append]
    refine ⟨hmid, hfin.congr (fun x hx => ?_) (fun x hx => ?_)⟩
    · obtain ⟨h1, h2⟩ := hnfin x hx
      have hx' : x ∈ q :: fin := List.dropLast_subset _ hx
      exact hnext x h1 h2 (hfresh x (by rw [hsplit]; exact List.mem_append_right _ hx'))
    · obtain ⟨h1, h2⟩ := hpfin x hx
      exact hprev x h1 h2 (hfresh x (by rw [hsplit]; exact List.mem_append_right _ (List.mem_cons_of_mem _ hx)))

/-! ## A family of rings

The clauses of `Lists` are what a kernel with many lists relies on without saying so: each head carries a ring, heads
are not members, and no node is on two lists or twice on one. From these follows all that a walk can see: where it
ends, when it is empty, and what a node's neighbour is.
-/

/-- **Several lists in one heap.** Every head `h ∈ H` carries the ring with members `L h`; members are
    no heads, occur once in their list and in no other. -/
structure Lists (m : ListMem α) (H : α → Prop) (L : α → List α) : Prop where
  ring : ∀ h, H h → Links m (h :: L h ++ [h])
  nodup : ∀ h, H h → (L h).Nodup
  not_head : ∀ h, H h → ∀ x ∈ L h, ¬ H x
  disjoint : ∀ h, H h → ∀ h', H h' → h ≠ h' → ∀ x ∈ L h, x ∉ L h'

namespace Lists

variable {m m' : ListMem α} {H : α → Prop} {L : α → List α} {h n x : α}

omit [DecidableEq α] in
theorem head_not_mem (hl : Lists m H L) (hh : H h) : h ∉ L h :=
  fun hm => hl.not_head h hh h hm hh

omit [DecidableEq α] in
/-- A change to nodes that are neither heads nor members keeps the family. -/
theorem congr (hl : Lists m H L)
    (hag : ∀ a, H a ∨ (∃ h, H h ∧ a ∈ L h) → m'.next a = m.next a ∧ m'.prev a = m.prev a) :
    Lists m' H L where
  ring h hh := by
    have hin : ∀ a ∈ h :: L h ++ [h], H a ∨ ∃ h, H h ∧ a ∈ L h := by
      intro a ha
      simp only [List.cons_append, List.mem_cons, List.mem_append, List.not_mem_nil, or_false] at ha
      rcases ha with rfl | ha | rfl
      · exact Or.inl hh
      · exact Or.inr ⟨h, hh, ha⟩
      · exact Or.inl hh
    exact (hl.ring h hh).congr (fun a ha => (hag a (hin a (List.dropLast_subset _ ha))).1)
      (fun a ha => (hag a (hin a (List.mem_of_mem_tail ha))).2)
  nodup := hl.nodup
  not_head := hl.not_head
  disjoint := hl.disjoint

/-- The walk from a head visits exactly the members of its list. -/
theorem traverse_eq (hl : Lists m H L) (hh : H h) (k : Nat) : m.traverse h k = (L h).take k :=
  walk_of_links k (hl.ring h hh) (hl.head_not_mem hh)

omit [DecidableEq α] in
/-- A list is empty exactly when its head points at itself. -/
theorem next_eq_self_iff (hl : Lists m H L) (hh : H h) : m.next h = some h ↔ L h = [] := by
  have hring := hl.ring h hh
  cases hL : L h with
  | nil =>
      rw [hL] at hring
      simp [hring.1]
  | cons y l =>
      rw [hL] at hring
      have hy : m.next h = some y := hring.1
      have hne : y ≠ h := fun he => hl.head_not_mem hh (by rw [hL, he]; exact List.mem_cons_self)
      simp [hy, hne]

omit [DecidableEq α] in
/-- A member points at the one after it, the last one at the head. -/
theorem next_eq (hl : Lists m H L) (hh : H h) {y : α} {xs ys : List α} (hL : L h = xs ++ y :: ys) :
    m.next y = (ys ++ [h]).head? := by
  have hring := hl.ring h hh
  have hcut : h :: L h ++ [h] = (h :: xs) ++ y :: (ys ++ [h]) := by
    rw [hL]
    simp
  rw [hcut, links_append] at hring
  cases ys with
  | nil => exact hring.2.1
  | cons z ys => exact hring.2.1

omit [DecidableEq α] in
theorem next_head (hl : Lists m H L) (hh : H h) : m.next h = (L h ++ [h]).head? := by
  have hring := hl.ring h hh
  cases hL : L h with
  | nil =>
    rw [hL] at hring
    exact hring.1
  | cons y l =>
    rw [hL] at hring
    exact hring.1

omit [DecidableEq α] in
/-- The first member is what the head points at. -/
theorem next_eq_head (hl : Lists m H L) (hh : H h) {y : α} {l : List α} (hL : L h = y :: l) :
    m.next h = some y := by
  have hring := hl.ring h hh
  rw [hL] at hring
  exact hring.1

omit [DecidableEq α] in
/-- A member never points at itself: only the head of an empty list, or a node of no list, does. -/
theorem next_ne_self (hl : Lists m H L) (hh : H h) (hx : x ∈ L h) : m.next x ≠ some x := by
  obtain ⟨xs, ys, hL⟩ := List.append_of_mem hx
  have hring := hl.ring h hh
  have hnd := hl.nodup h hh
  have hsplit : h :: L h ++ [h] = (h :: xs) ++ x :: (ys ++ [h]) := by rw [hL]; simp
  rw [hsplit] at hring
  have hlinks := (links_append.mp hring).2
  intro hself
  cases ys with
  | nil =>
      have hnext : m.next x = some h := hlinks.1
      rw [hself, Option.some.injEq] at hnext
      exact hl.not_head h hh x hx (hnext ▸ hh)
  | cons y ys =>
      have hnext : m.next x = some y := hlinks.1
      rw [hself, Option.some.injEq] at hnext
      rw [hL, List.nodup_middle, List.nodup_cons] at hnd
      exact hnd.1 (by rw [hnext]; simp)

/-! ### The two edits of a ring

Both edits are one lemma, `Lists.splice`, applied at a seam of the ring (`Lists.exists_seam`). The other rings are not
touched because a node of another ring is not one of the three nodes that are written (`Lists.ne_of_other`).
-/

omit [DecidableEq α] in
/-- The nodes around a position `xs | ys` of the ring of `h`: the last of `h :: xs` and the first of
    `ys ++ [h]`. -/
theorem exists_seam (h : α) (xs ys : List α) :
    ∃ ini p q fin, h :: xs = ini ++ [p] ∧ ys ++ [h] = q :: fin := by
  refine ⟨(h :: xs).dropLast, (h :: xs).getLast (by simp), (ys ++ [h]).head (by simp),
    (ys ++ [h]).tail, ?_, ?_⟩
  · exact (List.dropLast_append_getLast _).symm
  · exact (List.cons_head_tail _).symm

omit [DecidableEq α] in
/-- Replacing the list of `h` by `l`, where the new members are old ones of `h` or off every list. -/
theorem of_ring (hl : Lists m H L) (hh : H h) {L' : α → List α}
    (hother : ∀ h', H h' → h' ≠ h → L' h' = L h')
    (hring : Links m' (h :: L' h ++ [h])) (hnd : (L' h).Nodup)
    (hmem : ∀ x ∈ L' h, x ∈ L h ∨ (¬ H x ∧ ∀ h', H h' → x ∉ L h'))
    (hag : ∀ h', H h' → h' ≠ h → ∀ a ∈ h' :: L h', m'.next a = m.next a ∧ m'.prev a = m.prev a) :
    Lists m' H L' where
  ring h' hh' := by
    by_cases he : h' = h
    · subst he; exact hring
    · rw [hother h' hh' he]
      have hin : ∀ a ∈ h' :: L h' ++ [h'], a ∈ h' :: L h' := by
        intro a ha
        rcases List.mem_append.mp ha with ha | ha
        · exact ha
        · rw [List.mem_singleton.mp ha]; exact List.mem_cons_self
      exact (hl.ring h' hh').congr
        (fun a ha => (hag h' hh' he a (hin a (List.dropLast_subset _ ha))).1)
        (fun a ha => (hag h' hh' he a (hin a (List.mem_of_mem_tail ha))).2)
  nodup h' hh' := by
    by_cases he : h' = h
    · subst he; exact hnd
    · rw [hother h' hh' he]; exact hl.nodup h' hh'
  not_head h' hh' x hx := by
    by_cases he : h' = h
    · subst he
      rcases hmem x hx with hold | hnew
      · exact hl.not_head h' hh' x hold
      · exact hnew.1
    · rw [hother h' hh' he] at hx; exact hl.not_head h' hh' x hx
  -- a member of `h` is an old one, or it was on no list
  disjoint h₁ hh₁ h₂ hh₂ hne x hx hx₂ := by
    have hold : ∀ h', H h' → h' ≠ h → x ∈ L' h' → x ∈ L h' := by
      intro h' hh' he hm
      rwa [hother h' hh' he] at hm
    by_cases he₁ : h₁ = h
    · subst he₁
      have h2 := hold h₂ hh₂ (Ne.symm hne) hx₂
      rcases hmem x hx with h1 | h1
      · exact hl.disjoint h₁ hh₁ h₂ hh₂ hne x h1 h2
      · exact h1.2 h₂ hh₂ h2
    · have h1 := hold h₁ hh₁ he₁ hx
      by_cases he₂ : h₂ = h
      · subst he₂
        rcases hmem x hx₂ with h2 | h2
        · exact hl.disjoint h₁ hh₁ h₂ hh₂ hne x h1 h2
        · exact h2.2 h₁ hh₁ h1
      · exact hl.disjoint h₁ hh₁ h₂ hh₂ hne x h1 (hold h₂ hh₂ he₂ hx₂)

omit [DecidableEq α] in
/-- A node on another ring is not on the ring of `h`. -/
theorem ne_of_other (hl : Lists m H L) (hh : H h) {h' a b : α} (hh' : H h') (hne : h' ≠ h)
    (ha : a ∈ h' :: L h') (hb : b ∈ h :: L h) : a ≠ b := by
  rintro rfl
  rcases List.mem_cons.mp ha with rfl | ha
  · rcases List.mem_cons.mp hb with rfl | hb
    · exact hne rfl
    · exact hl.not_head h hh a hb hh'
  · rcases List.mem_cons.mp hb with rfl | hb
    · exact hl.not_head h' hh' a ha hh
    · exact hl.disjoint h' hh' h hh hne a ha hb

/-- **Exchanging a stretch of a ring.** The members `mid` of the list of `h` give way to the nodes `mid'`,
    which were on no list, when `m'` links `mid'` in between its neighbours `p` and `q` and is otherwise `m`. -/
theorem splice (hl : Lists m H L) (hh : H h) (m' : ListMem α) {xs ys ini fin : List α} (mid mid' : List α)
    {p q : α}
    (hL : L h = xs ++ mid ++ ys) (hp : h :: xs = ini ++ [p]) (hq : ys ++ [h] = q :: fin)
    (hfresh : ∀ x ∈ mid', ¬ H x ∧ ∀ h', H h' → x ∉ L h') (hnd' : mid'.Nodup)
    (hmid : Links m' (p :: mid' ++ [q]))
    (hnext : ∀ x, x ≠ p → x ∉ mid → x ∉ mid' → m'.next x = m.next x)
    (hprev : ∀ x, x ≠ q → x ∉ mid → x ∉ mid' → m'.prev x = m.prev x) :
    Lists m' H (Function.update L h (xs ++ mid' ++ ys)) := by
  have hcut : h :: L h ++ [h] = ini ++ p :: (mid ++ q :: fin) := by
    have h1 : h :: L h ++ [h] = (h :: xs) ++ (mid ++ (ys ++ [h])) := by rw [hL]; simp
    rw [h1, hp, hq]; simp
  have hcut' : h :: (xs ++ mid' ++ ys) ++ [h] = ini ++ p :: (mid' ++ q :: fin) := by
    have h1 : h :: (xs ++ mid' ++ ys) ++ [h] = (h :: xs) ++ (mid' ++ (ys ++ [h])) := by simp
    rw [h1, hp, hq]; simp
  -- no node but the head occurs twice on the closed ring
  have hnd : (h :: L h).Nodup := List.nodup_cons.mpr ⟨hl.head_not_mem hh, hl.nodup h hh⟩
  have hndl : (ini ++ p :: (mid ++ q :: fin)).dropLast.Nodup := by
    rw [← hcut, List.dropLast_concat]; exact hnd
  have hndt : (ini ++ p :: (mid ++ q :: fin)).tail.Nodup := by
    rw [← hcut]
    show (L h ++ [h]).Nodup
    exact (List.perm_append_singleton h (L h)).nodup_iff.mpr hnd
  have hon : ∀ x ∈ ini ++ p :: (mid ++ q :: fin), x ∈ h :: L h := by
    intro x hx
    rw [← hcut, List.mem_append, List.mem_singleton] at hx
    rcases hx with hx | rfl
    · exact hx
    · exact List.mem_cons_self
  have hnew : ∀ x ∈ h :: L h, x ∉ mid' := by
    intro x hx hm
    rcases List.mem_cons.mp hx with rfl | hx
    · exact (hfresh x hm).1 hh
    · exact (hfresh x hm).2 h hh hx
  have hring := hl.ring h hh
  rw [hcut] at hring
  refine hl.of_ring hh (fun h' _ hne => Function.update_of_ne hne _ _) ?_ ?_ ?_ ?_
  · rw [Function.update_self, hcut']
    exact hring.splice hndl hndt (fun x hx => hnew x (hon x hx)) hmid hnext hprev
  · rw [Function.update_self]
    have hsub : (xs ++ ys).Nodup := by
      refine List.Sublist.nodup ?_ (hl.nodup h hh)
      rw [hL, List.append_assoc]
      exact (List.Sublist.refl xs).append (List.sublist_append_right mid ys)
    have hperm : (xs ++ mid' ++ ys).Perm (mid' ++ (xs ++ ys)) := by
      rw [← List.append_assoc]
      exact List.perm_append_comm.append_right ys
    rw [hperm.nodup_iff, List.nodup_append]
    refine ⟨hnd', hsub, fun a ha b hb hab => (hfresh a ha).2 h hh ?_⟩
    subst hab
    rw [hL]
    rcases List.mem_append.mp hb with hb | hb
    · exact List.mem_append_left _ (List.mem_append_left _ hb)
    · exact List.mem_append_right _ hb
  · intro x hx
    rw [Function.update_self] at hx
    simp only [List.mem_append] at hx
    rcases hx with (hx | hx) | hx
    · exact Or.inl (by rw [hL]; simp [hx])
    · exact Or.inr (hfresh x hx)
    · exact Or.inl (by rw [hL]; simp [hx])
  · intro h' hh' hne a ha
    have hoff : ∀ b ∈ h :: L h, a ≠ b := fun b hb => hl.ne_of_other hh hh' hne ha hb
    have hamid : a ∉ mid := fun hm => hoff a (List.mem_cons_of_mem _ (by rw [hL]; simp [hm])) rfl
    have hamid' : a ∉ mid' := by
      intro hm
      rcases List.mem_cons.mp ha with rfl | ha
      · exact (hfresh a hm).1 hh'
      · exact (hfresh a hm).2 h' hh' ha
    exact ⟨hnext a (hoff p (hon p (by simp))) hamid hamid', hprev a (hoff q (hon q (by simp))) hamid hamid'⟩

/-- **Prepending** a node that is on no list. -/
theorem add (hl : Lists m H L) (hh : H h) (hn : ¬ H n) (hfree : ∀ h', H h' → n ∉ L h') :
    ∃ m', m.add n h = some m' ∧ Lists m' H (Function.update L h (n :: L h)) := by
  obtain ⟨ini, p, q, fin, hp, hq⟩ := exists_seam h [] (L h)
  obtain ⟨rfl, rfl⟩ : ini = [] ∧ h = p := by simpa [eq_comm] using List.append_eq_singleton_iff.mp hp.symm
  have hring := hl.ring h hh
  rw [List.cons_append, hq] at hring
  have hqm : q = h ∨ q ∈ L h := by
    have hm : q ∈ L h ++ [h] := by rw [hq]; exact List.mem_cons_self
    rw [List.mem_append, List.mem_singleton] at hm
    exact hm.symm
  have hqn : q ≠ n := by
    rintro rfl
    rcases hqm with rfl | hm
    · exact hn hh
    · exact hfree h hh hm
  have hhn : h ≠ n := fun he => hn (he ▸ hh)
  refine ⟨m.addBetween n h q, ?_, ?_⟩
  · rw [ListMem.add, hring.1]
    rfl
  · have hsplice := hl.splice hh (m.addBetween n h q) [] [n] (by simp) hp hq (by simpa using ⟨hn, hfree⟩) (by simp)
    simp only [List.nil_append, List.singleton_append] at hsplice
    refine hsplice ?_ (fun x hx _ hxn => ?_) (fun x hx _ hxn => ?_)
    · simp [ListMem.addBetween_next, ListMem.addBetween_prev, hhn.symm, hqn]
    · simp [ListMem.addBetween_next, hx, List.mem_singleton.not.mp hxn]
    · simp [ListMem.addBetween_prev, hx, List.mem_singleton.not.mp hxn]

/-- **Appending** a node that is on no list. -/
theorem addTail (hl : Lists m H L) (hh : H h) (hn : ¬ H n) (hfree : ∀ h', H h' → n ∉ L h') :
    ∃ m', m.addTail n h = some m' ∧ Lists m' H (Function.update L h (L h ++ [n])) ∧
      ∀ a, ¬ H a → (∀ h', H h' → a ∉ L h') → a ≠ n → m'.next a = m.next a ∧ m'.prev a = m.prev a := by
  obtain ⟨ini, p, q, fin, hp, hq⟩ := exists_seam h (L h) []
  obtain ⟨rfl, rfl⟩ : h = q ∧ [] = fin := by simpa using hq
  have hring := hl.ring h hh
  rw [hp, List.append_assoc, List.singleton_append, links_append] at hring
  have hprev : m.prev h = some p := hring.2.2.1
  have hpm : p ∈ h :: L h := by rw [hp]; simp
  have hpn : p ≠ n := by
    rintro rfl
    rcases List.mem_cons.mp hpm with rfl | hm
    · exact hn hh
    · exact hfree h hh hm
  have hhn : h ≠ n := fun he => hn (he ▸ hh)
  refine ⟨m.addBetween n p h, by simp [ListMem.addTail, hprev], ?_, ?_⟩
  · have hsplice := hl.splice hh (m.addBetween n p h) [] [n] (by simp) hp hq
      (by simpa using ⟨hn, hfree⟩) (by simp)
    simp only [List.append_nil] at hsplice
    refine hsplice ?_ (fun x hx _ hxn => ?_) (fun x hx _ hxn => ?_)
    · simp [ListMem.addBetween_next, ListMem.addBetween_prev, hpn.symm, hhn]
    · simp [ListMem.addBetween_next, hx, List.mem_singleton.not.mp hxn]
    · simp [ListMem.addBetween_prev, hx, List.mem_singleton.not.mp hxn]
  · intro a ha hal han
    have hap : a ≠ p := by
      rintro rfl
      rcases List.mem_cons.mp hpm with rfl | hm
      · exact ha hh
      · exact hal h hh hm
    have hah : a ≠ h := fun he => ha (he ▸ hh)
    simp [ListMem.addBetween_next, ListMem.addBetween_prev, hap, han, hah]

/-- **Unlinking** a member: it leaves its list and ends with both links null. -/
theorem del (hl : Lists m H L) (hh : H h) {e : α} {xs ys : List α} (hL : L h = xs ++ e :: ys) :
    ∃ m', m.del e = some m' ∧ Lists m' H (Function.update L h (xs ++ ys)) ∧
      m'.next e = none ∧ m'.prev e = none ∧
      ∀ a, ¬ H a → (∀ h', H h' → a ∉ L h') → m'.next a = m.next a ∧ m'.prev a = m.prev a := by
  -- the neighbours of the member in its ring, which may be the head on either side
  obtain ⟨ini, p, q, fin, hp, hq⟩ := exists_seam h xs ys
  have hcut : h :: L h ++ [h] = ini ++ p :: e :: q :: fin := by
    have h1 : h :: L h ++ [h] = (h :: xs) ++ e :: (ys ++ [h]) := by rw [hL]; simp
    rw [h1, hp, hq]; simp
  have hring := hl.ring h hh
  rw [hcut, links_append] at hring
  obtain ⟨-, -, hpe, hne, -, -⟩ := hring
  have heh : ¬ H e := hl.not_head h hh e (by rw [hL]; simp)
  have hnd := hl.nodup h hh
  rw [hL, List.nodup_middle, List.nodup_cons, List.mem_append, not_or] at hnd
  have hpe' : p ≠ e := by
    rintro rfl
    have hm : p ∈ h :: xs := by rw [hp]; simp
    rcases List.mem_cons.mp hm with rfl | hm
    · exact heh hh
    · exact hnd.1.1 hm
  have hqe : q ≠ e := by
    rintro rfl
    have hm : q ∈ ys ++ [h] := by rw [hq]; simp
    rcases List.mem_append.mp hm with hm | hm
    · exact hnd.1.2 hm
    · rw [List.mem_singleton] at hm
      exact heh (hm ▸ hh)
  have hpm : p ∈ h :: L h := by
    have hm : p ∈ h :: xs := by rw [hp]; simp
    rw [hL]
    rcases List.mem_cons.mp hm with rfl | hm
    · exact List.mem_cons_self
    · exact List.mem_cons_of_mem _ (List.mem_append_left _ hm)
  have hqm : q ∈ h :: L h := by
    have hm : q ∈ ys ++ [h] := by rw [hq]; simp
    rw [hL]
    rcases List.mem_append.mp hm with hm | hm
    · exact List.mem_cons_of_mem _ (by simp [hm])
    · rw [List.mem_singleton.mp hm]; exact List.mem_cons_self
  refine ⟨(((m.setNext p (some q)).setPrev q (some p)).setNext e none).setPrev e none, ?_, ?_, ?_, ?_, ?_⟩
  · -- both links lead to a node, so the code does not fault
    simp [ListMem.del, hpe, hne]
  · have hL' : L h = xs ++ [e] ++ ys := by rw [hL]; simp
    -- the stretch of the one member is exchanged for nothing
    have hsplice := hl.splice hh ((((m.setNext p (some q)).setPrev q (some p)).setNext e none).setPrev e none)
      [e] [] hL' hp hq (by simp) (by simp)
    simp only [List.append_nil] at hsplice
    refine hsplice ?_ (fun x hx hxe _ => ?_) (fun x hx hxe _ => ?_)
    · simp [hpe', hqe]
    · simp [hx, List.mem_singleton.not.mp hxe]
    · simp [hx, List.mem_singleton.not.mp hxe]
  · simp
  · simp
  · intro a ha hal
    have hoff : ∀ b ∈ h :: L h, a ≠ b := by
      rintro b hb rfl
      rcases List.mem_cons.mp hb with rfl | hm
      · exact ha hh
      · exact hal h hh hm
    have hae : a ≠ e := hoff e (List.mem_cons_of_mem _ (by rw [hL]; simp))
    simp [hae, hoff p hpm, hoff q hqm]

/-! ### Loops that unlink what they visit

The invariant of the loop is that the node that was read ahead is the first member that is left. It is kept by every
body that takes the node it is at off the list and leaves the rest of that list alone; what the body does with the
node, and to all other lists, is a parameter of the rule.
-/

/-- The loop from its first turn on: the body takes the first member off the list of `h`, and what it does to the family
    is `eff`. The node read ahead is still the first of the list when the body is done. -/
theorem safeTurns {body : α → ListMem α → Option (ListMem α)} {eff : α → (α → List α) → α → List α} (hh : H h)
    (hbody : ∀ x l m L, Lists m H L → L h = x :: l → ∃ m', body x m = some m' ∧ Lists m' H (eff x L) ∧ eff x L h = l)
    (l : List α) : ∀ {m : ListMem α} {L : α → List α} {k : Nat}, Lists m H L → L h = l → l.length < k →
      ∃ pos m', m.next h = some pos ∧ ListMem.safeTurns body h k pos (m.next pos) m = some (l, m') ∧
        Lists m' H (l.foldl (fun L x => eff x L) L) := by
  induction l with
  | nil =>
      intro m L k hl hL hk
      obtain ⟨k, rfl⟩ := Nat.exists_eq_add_one_of_ne_zero (Nat.ne_of_gt hk)
      refine ⟨h, m, (hl.next_eq_self_iff hh).mpr hL, ?_, hl⟩
      rw [ListMem.safeTurns, if_pos rfl]
  | cons x l ih =>
      intro m L k hl hL hk
      obtain ⟨k, rfl⟩ := Nat.exists_eq_add_one_of_ne_zero (Nat.ne_of_gt (Nat.zero_lt_of_lt hk))
      obtain ⟨m₁, hrun, hl₁, hL₁⟩ := hbody x l m L hl hL
      obtain ⟨pos, m', hpos, hturns, hl'⟩ := ih hl₁ hL₁ (Nat.lt_of_succ_lt_succ hk)
      have hahead : m.next x = some pos := by
        rw [@next_eq _ m H L h hl hh x [] l hL, ← hpos, hl₁.next_head hh, hL₁]
      have hne : x ≠ h := by
        rintro rfl
        exact hl.head_not_mem hh (hL ▸ List.mem_cons_self)
      refine ⟨x, m', hl.next_eq_head hh hL, ?_, hl'⟩
      rw [ListMem.safeTurns, if_neg hne, hrun, hahead]
      simp only [Option.bind_eq_bind, Option.bind_some]
      rw [hturns]
      rfl

/-- **The rule of the loop.** It ends and visits every member once, in order. -/
theorem forEachSafe {body : α → ListMem α → Option (ListMem α)} {eff : α → (α → List α) → α → List α}
    (hl : Lists m H L) (hh : H h)
    (hbody : ∀ x l m L, Lists m H L → L h = x :: l → ∃ m', body x m = some m' ∧ Lists m' H (eff x L) ∧ eff x L h = l) :
    ∃ m', m.forEachSafe body h ((L h).length + 1) = some (L h, m') ∧ Lists m' H ((L h).foldl (fun L x => eff x L) L) := by
  obtain ⟨pos, m', hpos, hturns, hl'⟩ := safeTurns hh hbody (L h) hl rfl (Nat.lt_succ_self _)
  refine ⟨m', ?_, hl'⟩
  rw [ListMem.forEachSafe, hpos]
  exact hturns

end Lists

end MyUnix.Lib
