import MyUnix.Lib.LinkedList

/-!
# `Kernel.ListHead` — the `list_head` of `kernel.h` refines sequences

The inline functions of `kernel.h` under their own names, over the links of any type of nodes. What they do to all lists
of a heap at once is said on the sequences `L h` of members: `list_add` and `list_add_tail` put a node in front or at the
end, `list_del` takes one out, the moves are one after the other, and everything else is as it was.

`list_for_each_safe` may run a body that takes the node it is at off the list and puts it on another one, as `proc_exit`
hands the children of a process to the first process.

Each function is an operation of `Lib.LinkedList` under the name it has in the source, with the arguments in the order
of the source. The functions of the header have no other effect than on links, so their whole meaning is what they do
to the family of lists.
-/

namespace MyUnix.Kernel

open Lib

variable {α : Type} [DecidableEq α]

/-! ## The operations

An operation is `none` where the code would follow a null link. That is what a second `list_del` of the same node
does, since the first one clears both links.
-/

/-- `__list_add(new, head, head->next)`. -/
def listAdd (m : ListMem α) (new head : α) : Option (ListMem α) := m.add new head

/-- `__list_add(new, head->prev, head)`. -/
def listAddTail (m : ListMem α) (new head : α) : Option (ListMem α) := m.addTail new head

/-- `list_del`. -/
def listDel (m : ListMem α) (entry : α) : Option (ListMem α) := m.del entry

/-- `list_move`. -/
def listMove (m : ListMem α) (list head : α) : Option (ListMem α) := do
  let m ← listDel m list
  listAdd m list head

/-- `list_move_tail`. -/
def listMoveTail (m : ListMem α) (list head : α) : Option (ListMem α) := do
  let m ← listDel m list
  listAddTail m list head

/-- `list_for_each_safe` with its body, in at most `turns` turns; also the nodes that have been visited. -/
def listForEachSafe (m : ListMem α) (head : α) (body : α → ListMem α → Option (ListMem α)) (turns : Nat) :
    Option (List α × ListMem α) :=
  m.forEachSafe body head turns

/-- A body that unlinks the node it is at and appends it to the list that `dest` names, if any. -/
def unlinkAndAppend (dest : α → Option α) (pos : α) (m : ListMem α) : Option (ListMem α) := do
  let m ← listDel m pos
  match dest pos with
  | none   => some m
  | some d => listAddTail m pos d

/-! ## What they do to the lists

The effect of each operation as a function on the family of sequences. A node has to be off every list before it is
put on one; that a node that was removed is, is `offLists_remove`.
-/

/-- `e` is out of the list of `h`. -/
def remove (L : α → List α) (h e : α) : α → List α := Function.update L h ((L h).erase e)

/-- `n` comes first in the list of `h`. -/
def prepend (L : α → List α) (h n : α) : α → List α := Function.update L h (n :: L h)

/-- `n` comes last in the list of `h`. -/
def append (L : α → List α) (h n : α) : α → List α := Function.update L h (L h ++ [n])

/-- A node on no list: neither a head nor a member. -/
def OffLists (H : α → Prop) (L : α → List α) (n : α) : Prop := ¬ H n ∧ ∀ h, H h → n ∉ L h

variable {m : ListMem α} {H : α → Prop} {L : α → List α} {h e n : α}

theorem listAdd_spec (hl : Lists m H L) (hh : H h) (hn : OffLists H L n) :
    ∃ m', listAdd m n h = some m' ∧ Lists m' H (prepend L h n) :=
  hl.add hh hn.1 hn.2

theorem listAddTail_spec (hl : Lists m H L) (hh : H h) (hn : OffLists H L n) :
    ∃ m', listAddTail m n h = some m' ∧ Lists m' H (append L h n) := by
  obtain ⟨m', hrun, hl', -⟩ := hl.addTail hh hn.1 hn.2
  exact ⟨m', hrun, hl'⟩

/-- A removed member is on no list. -/
theorem offLists_remove (hl : Lists m H L) (hh : H h) (he : e ∈ L h) : OffLists H (remove L h e) e := by
  refine ⟨hl.not_head h hh e he, fun h' hh' hm => ?_⟩
  by_cases hsame : h' = h
  · subst hsame
    rw [remove, Function.update_self] at hm
    exact (hl.nodup h' hh').not_mem_erase hm
  · rw [remove, Function.update_of_ne hsame] at hm
    exact hl.disjoint h hh h' hh' (Ne.symm hsame) e he hm

theorem listDel_spec (hl : Lists m H L) (hh : H h) (he : e ∈ L h) :
    ∃ m', listDel m e = some m' ∧ Lists m' H (remove L h e) := by
  obtain ⟨xs, ys, hL⟩ := List.append_of_mem he
  obtain ⟨m', hrun, hl', -⟩ := hl.del hh hL
  have hnot : e ∉ xs := by
    have hnd := hl.nodup h hh
    rw [hL, List.nodup_middle, List.nodup_cons] at hnd
    exact fun hm => hnd.1 (List.mem_append_left _ hm)
  have herase : (L h).erase e = xs ++ ys := by
    rw [hL, List.erase_append_right _ hnot, List.erase_cons_head]
  refine ⟨m', hrun, ?_⟩
  rw [remove, herase]
  exact hl'

/-- A move is a removal and an insertion, also within one list. -/
theorem listMove_spec (hl : Lists m H L) (hh : H h) (he : e ∈ L h) {h' : α} (hh' : H h') :
    (∃ m', listMove m e h' = some m' ∧ Lists m' H (prepend (remove L h e) h' e)) ∧
      ∃ m', listMoveTail m e h' = some m' ∧ Lists m' H (append (remove L h e) h' e) := by
  obtain ⟨m₁, hdel, hl₁⟩ := listDel_spec hl hh he
  have hoff := offLists_remove hl hh he
  obtain ⟨m₂, hadd, hl₂⟩ := listAdd_spec hl₁ hh' hoff
  obtain ⟨m₃, htail, hl₃⟩ := listAddTail_spec hl₁ hh' hoff
  refine ⟨⟨m₂, ?_, hl₂⟩, m₃, ?_, hl₃⟩
  · rw [listMove, hdel]
    exact hadd
  · rw [listMoveTail, hdel]
    exact htail

/-! ## The loop that unlinks

One turn hands the first member over to another list. The turns are a fold of that effect (`handedOver`), and the loop
makes exactly as many of them as the list had members, also where source and destination are the same list.
-/

/-- What one turn of the loop does to the lists. -/
def handOver (dest : α → Option α) (h x : α) (L : α → List α) : α → List α :=
  match dest x with
  | none   => remove L h x
  | some d => append (remove L h x) d x

/-- The lists when the members of `h` have been handed over: `h` has none left. -/
def handedOver (dest : α → Option α) (h : α) (l : List α) (L : α → List α) (h' : α) : List α :=
  if h' = h then [] else L h' ++ l.filter fun x => dest x = some h'

variable {dest : α → Option α}

theorem handOver_self {x : α} {l : List α} (hdest : ∀ d, dest x = some d → d ≠ h) (hL : L h = x :: l) :
    handOver dest h x L h = l := by
  have hremove : remove L h x h = l := by
    rw [remove, Function.update_self, hL, List.erase_cons_head]
  rw [handOver]
  cases hd : dest x with
  | none => exact hremove
  | some d =>
      simp only
      rw [append, Function.update_of_ne (Ne.symm (hdest d hd))]
      exact hremove

theorem handOver_other {x h' : α} (hne : h' ≠ h) (L : α → List α) :
    handOver dest h x L h' = L h' ++ if dest x = some h' then [x] else [] := by
  have hremove : remove L h x h' = L h' := Function.update_of_ne hne _ _
  rw [handOver]
  cases dest x with
  | none =>
      simp only
      rw [hremove, if_neg (Option.some_ne_none h').symm, List.append_nil]
  | some d =>
      simp only
      rw [append]
      by_cases hd : d = h'
      · subst hd
        rw [Function.update_self, hremove, if_pos rfl]
      · rw [Function.update_of_ne (Ne.symm hd), hremove, if_neg (fun he => hd (Option.some.inj he)), List.append_nil]

/-- All turns. -/
theorem foldl_handOver (hdest : ∀ x d, dest x = some d → d ≠ h) (l : List α) : ∀ {L : α → List α}, L h = l →
    l.foldl (fun L x => handOver dest h x L) L = handedOver dest h l L := by
  induction l with
  | nil =>
      intro L hL
      funext h'
      rw [List.foldl_nil, handedOver]
      by_cases he : h' = h
      · rw [if_pos he, he, hL]
      · rw [if_neg he, List.filter_nil, List.append_nil]
  | cons x l ih =>
      intro L hL
      rw [List.foldl_cons, ih (handOver_self (hdest x) hL)]
      funext h'
      rw [handedOver, handedOver]
      by_cases he : h' = h
      · rw [if_pos he, if_pos he]
      · rw [if_neg he, if_neg he, handOver_other he, List.append_assoc, List.filter_cons]
        by_cases hx : dest x = some h'
        · rw [if_pos hx, if_pos (decide_eq_true hx)]
          rfl
        · rw [if_neg hx, if_neg (by simpa using hx)]
          rfl

theorem unlinkAndAppend_spec (hdest : ∀ x d, dest x = some d → H d ∧ d ≠ h) (hh : H h) {x : α} {l : List α}
    (hl : Lists m H L) (hL : L h = x :: l) :
    ∃ m', unlinkAndAppend dest x m = some m' ∧ Lists m' H (handOver dest h x L) ∧ handOver dest h x L h = l := by
  have hx : x ∈ L h := hL ▸ List.mem_cons_self
  obtain ⟨m₁, hdel, hl₁⟩ := listDel_spec hl hh hx
  have hself := handOver_self (fun d hd => (hdest x d hd).2) hL
  rw [unlinkAndAppend, hdel]
  rw [handOver] at hself ⊢
  cases hd : dest x with
  | none =>
      rw [hd] at hself
      exact ⟨m₁, rfl, hl₁, hself⟩
  | some d =>
      rw [hd] at hself
      obtain ⟨m₂, htail, hl₂⟩ := listAddTail_spec hl₁ (hdest x d hd).1 (offLists_remove hl hh hx)
      exact ⟨m₂, htail, hl₂, hself⟩

/-- **The circular lists refine sequences.** -/
theorem list_head_refines (m : ListMem α) (H : α → Prop) (L : α → List α) (hl : Lists m H L) :
    (∀ h n, H h → OffLists H L n →
      (∃ m', listAdd m n h = some m' ∧ Lists m' H (Function.update L h (n :: L h))) ∧
      ∃ m', listAddTail m n h = some m' ∧ Lists m' H (Function.update L h (L h ++ [n]))) ∧
    (∀ h e, H h → e ∈ L h →
      (∃ m', listDel m e = some m' ∧ Lists m' H (remove L h e)) ∧
      ∀ h', H h' →
        (∃ m', listMove m e h' = some m' ∧ Lists m' H (prepend (remove L h e) h' e)) ∧
        ∃ m', listMoveTail m e h' = some m' ∧ Lists m' H (append (remove L h e) h' e)) ∧
    ∀ (h : α) (dest : α → Option α), H h → (∀ x d, dest x = some d → H d ∧ d ≠ h) →
      ∃ m', listForEachSafe m h (unlinkAndAppend dest) ((L h).length + 1) = some (L h, m') ∧
        Lists m' H fun h' => if h' = h then [] else L h' ++ (L h).filter fun x => dest x = some h' := by
  refine ⟨?_, ?_, ?_⟩
  · intro h n hh hn
    exact ⟨listAdd_spec hl hh hn, listAddTail_spec hl hh hn⟩
  · intro h e hh he
    exact ⟨listDel_spec hl hh he, fun h' hh' => listMove_spec hl hh he hh'⟩
  · intro h dest hh hdest
    have hbody : ∀ x l m L, Lists m H L → L h = x :: l →
        ∃ m', unlinkAndAppend dest x m = some m' ∧ Lists m' H (handOver dest h x L) ∧ handOver dest h x L h = l := by
      intro x l m L hl hL
      exact unlinkAndAppend_spec hdest hh hl hL
    obtain ⟨m', hrun, hl'⟩ := hl.forEachSafe hh hbody
    rw [foldl_handOver (fun x d hd => (hdest x d hd).2) (L h) rfl] at hl'
    exact ⟨m', hrun, hl'⟩

/-- The ring of head 0 with the members 1 and 2, and the empty one of head 9. -/
def twoRings : ListMem Nat where
  next a := if a = 0 then some 1 else if a = 1 then some 2 else if a = 2 then some 0 else if a = 9 then some 9 else none
  prev a := if a = 0 then some 2 else if a = 1 then some 0 else if a = 2 then some 1 else if a = 9 then some 9 else none

/-- The second member of 0 goes over to 9. -/
theorem list_head_refines_two :
    ∃ m' : ListMem Nat, listForEachSafe twoRings 0 (unlinkAndAppend fun x => if x = 2 then some 9 else none) 3 = some ([1, 2], m') ∧
      m'.traverse 0 3 = [] ∧ m'.traverse 9 3 = [2] := by
  let H : Nat → Prop := fun a => a = 0 ∨ a = 9
  let L : Nat → List Nat := fun h => if h = 0 then [1, 2] else []
  have hl : Lists twoRings H L := by
    refine ⟨?_, ?_, ?_, ?_⟩
    · rintro h (rfl | rfl)
      · exact ⟨rfl, rfl, rfl, rfl, rfl, rfl, trivial⟩
      · exact ⟨rfl, rfl, trivial⟩
    · rintro h (rfl | rfl)
      · exact (by decide : [1, 2].Nodup)
      · exact List.nodup_nil
    · rintro h (rfl | rfl) x hx
      · exact (by decide : ∀ x ∈ [1, 2], ¬ (x = 0 ∨ x = 9)) x hx
      · exact absurd hx List.not_mem_nil
    · rintro h (rfl | rfl) h' (rfl | rfl) hne x hx
      · exact absurd rfl hne
      · exact List.not_mem_nil
      · exact absurd hx List.not_mem_nil
      · exact absurd rfl hne
  obtain ⟨m', hrun, hl'⟩ := (list_head_refines twoRings H L hl).2.2 0 (fun x => if x = 2 then some 9 else none) (.inl rfl) <| by
    intro x d hd
    by_cases hx : x = 2
    · rw [if_pos hx] at hd
      obtain rfl := Option.some.inj hd
      exact ⟨.inr rfl, by decide⟩
    · rw [if_neg hx] at hd
      cases hd
  exact ⟨m', hrun, hl'.traverse_eq (.inl rfl) 3, hl'.traverse_eq (.inr rfl) 3⟩

end MyUnix.Kernel
