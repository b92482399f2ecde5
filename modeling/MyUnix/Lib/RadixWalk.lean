import Mathlib.Algebra.Group.Nat.Defs
import Mathlib.Data.List.Nodup

/-!
# `Lib.RadixWalk` — walks through a tree of tables

A table is found from the root by a path of indices: the entry of the table at each index leads to the next table, or
to none. `mem t i` is entry `i` of table `t`; which table an entry leads to may depend on how deep it is met. Nothing
is assumed about sharing: that a table is met on one path only is a hypothesis (`MetOnce`) of the lemmas that need it,
which say what a change of one entry does to all walks.

Page tables of any depth are of this kind, and so is any trie that is laid out in tables. A table is written through
its address and not through its path, so a store that is meant for one path changes all paths that lead to the same
table; this is why `MetOnce` is a hypothesis and not a definition of the structure. A client has to keep it as an
invariant: a fresh table that is hung into one entry is met on one path, and an entry that is cleared loses paths
only.
-/

namespace MyUnix.Lib

variable {T I E : Type}

/-- The table a path leads to, from table `t` at depth `d`. -/
def walk (next : Nat → E → Option T) (mem : T → I → E) : Nat → T → List I → Option T
  | _, t, [] => some t
  | d, t, i :: p => (next d (mem t i)).bind fun t' => walk next mem (d + 1) t' p

section

variable {next : Nat → E → Option T} {mem mem' : T → I → E}

@[simp] theorem walk_nil (d : Nat) (t : T) : walk next mem d t [] = some t := rfl

theorem walk_cons (d : Nat) (t : T) (i : I) (p : List I) :
    walk next mem d t (i :: p) = (next d (mem t i)).bind fun t' => walk next mem (d + 1) t' p := rfl

theorem walk_append (p q : List I) : ∀ (d : Nat) (t : T),
    walk next mem d t (p ++ q) = (walk next mem d t p).bind fun t' => walk next mem (d + p.length) t' q := by
  induction p with
  | nil => intro d t; rfl
  | cons i p ih =>
    intro d t
    rw [List.cons_append, walk_cons, walk_cons, Option.bind_assoc]
    congr 1
    funext t'
    rw [ih (d + 1) t', List.length_cons, Nat.add_assoc, Nat.add_comm 1]

/-- One entry further. -/
theorem walk_snoc {d : Nat} {t t' : T} {p : List I} {i : I} (h : walk next mem d t p = some t') :
    walk next mem d t (p ++ [i]) = next (d + p.length) (mem t' i) := by
  rw [walk_append, h, Option.bind_some, walk_cons]
  simp

/-- The beginning of a path that leads somewhere leads somewhere. -/
theorem walk_prefix {d : Nat} {t t' : T} {p q : List I} (h : walk next mem d t (p ++ q) = some t') :
    ∃ t₁, walk next mem d t p = some t₁ := by
  rw [walk_append] at h
  cases hp : walk next mem d t p with
  | none => rw [hp] at h; cases h
  | some t₁ => exact ⟨t₁, rfl⟩

/-- A walk depends on the entries it meets only. -/
theorem walk_congr (p : List I) : ∀ (d : Nat) (t : T),
    (∀ q i r t', p = q ++ i :: r → walk next mem d t q = some t' → mem' t' i = mem t' i) →
    walk next mem' d t p = walk next mem d t p := by
  induction p with
  | nil => intro d t _; rfl
  | cons i p ih =>
    intro d t h
    rw [walk_cons, walk_cons, h [] i p t rfl rfl]
    cases hn : next d (mem t i) with
    | none => rfl
    | some t₁ =>
      simp only [Option.bind_some]
      apply ih
      intro q j r t' hp ht'
      apply h (i :: q) j r t' (by rw [hp]; rfl)
      rw [walk_cons, hn]
      exact ht'

/-- The paths of a class `P` lead to `t` from the root only along `p`. -/
def MetOnce (next : Nat → E → Option T) (mem : T → I → E) (P : List I → Prop) (root : T) (p : List I) (t : T) : Prop :=
  ∀ q, P q → walk next mem 0 root q = some t → q = p

variable {P : List I → Prop} {root t₀ : T} {p₀ : List I} {i₀ : I}

/-- Every entry but `i₀` of `t₀` is as before: a walk that does not go through that entry is as before. -/
theorem walk_of_slot (hP : ∀ q r, P (q ++ r) → P q) (h₀ : MetOnce next mem P root p₀ t₀)
    (hmem : ∀ q i r t, P (q ++ i :: r) → walk next mem 0 root q = some t → (t, i) ≠ (t₀, i₀) → mem' t i = mem t i)
    {p : List I} (hp : P p) (hthrough : ∀ r, p ≠ p₀ ++ i₀ :: r) :
    walk next mem' 0 root p = walk next mem 0 root p := by
  apply walk_congr
  rintro q i r t rfl ht
  apply hmem q i r t hp ht
  rintro ⟨⟩
  obtain rfl := h₀ q (hP q _ hp) ht
  exact hthrough r rfl

end

/-! ## All tables below one

A walk over a whole tree in postorder, as a destructor makes it. Where each table is met on one path only, the list
has no repetition, so each of them is freed once.
-/

/-- Each index of the path is one of those of its depth. -/
def Along (idx : Nat → List I) : Nat → List I → Prop
  | _, []     => True
  | d, i :: p => i ∈ idx d ∧ Along idx (d + 1) p

/-- The tables up to `n` levels below `t`, each after the tables behind its entries. -/
def postorder (next : Nat → E → Option T) (mem : T → I → E) (idx : Nat → List I) : Nat → Nat → T → List T
  | 0,     _, t => [t]
  | n + 1, d, t => (idx d).flatMap (fun i => (next d (mem t i)).elim [] (postorder next mem idx n (d + 1))) ++ [t]

section

variable {next : Nat → E → Option T} {mem : T → I → E} {idx : Nat → List I}

/-- They are the tables that paths of at most that length lead to. -/
theorem mem_postorder {t' : T} (n : Nat) : ∀ (d : Nat) (t : T), t' ∈ postorder next mem idx n d t ↔
    ∃ p, p.length ≤ n ∧ Along idx d p ∧ walk next mem d t p = some t' := by
  induction n with
  | zero =>
    intro d t
    rw [postorder, List.mem_singleton]
    constructor
    · rintro rfl
      exact ⟨[], Nat.le_refl 0, trivial, rfl⟩
    · rintro ⟨p, hlen, -, hp⟩
      obtain rfl := List.eq_nil_of_length_eq_zero (Nat.le_zero.1 hlen)
      exact (Option.some.inj hp).symm
  | succ n ih =>
    intro d t
    rw [postorder, List.mem_append, List.mem_flatMap, List.mem_singleton]
    constructor
    · rintro (⟨i, hi, hmem⟩ | rfl)
      · cases hn : next d (mem t i) with
        | none =>
          rw [hn] at hmem
          cases hmem
        | some t₁ =>
          rw [hn] at hmem
          obtain ⟨p, hlen, halong, hp⟩ := (ih (d + 1) t₁).1 hmem
          refine ⟨i :: p, Nat.succ_le_succ hlen, ⟨hi, halong⟩, ?_⟩
          rw [walk_cons, hn]
          exact hp
      · exact ⟨[], Nat.zero_le _, trivial, rfl⟩
    · rintro ⟨p, hlen, halong, hp⟩
      cases p with
      | nil => exact .inr (Option.some.inj hp).symm
      | cons i p =>
        rw [walk_cons] at hp
        obtain ⟨t₁, hn, hp⟩ := Option.bind_eq_some_iff.1 hp
        refine .inl ⟨i, halong.1, ?_⟩
        rw [hn]
        exact (ih (d + 1) t₁).2 ⟨p, Nat.le_of_succ_le_succ hlen, halong.2, hp⟩

/-- Where each table is met on one path only, each comes once. -/
theorem nodup_postorder (hidx : ∀ d, (idx d).Nodup) (n : Nat) : ∀ (d : Nat) (t : T),
    (∀ {p q t'}, p.length ≤ n → q.length ≤ n → Along idx d p → Along idx d q → walk next mem d t p = some t' →
      walk next mem d t q = some t' → p = q) → (postorder next mem idx n d t).Nodup := by
  induction n with
  | zero => exact fun d t _ => List.nodup_singleton t
  | succ n ih =>
    intro d t hunique
    -- a table below entry `i` is met on a path that begins with `i`
    have hbelow : ∀ {i t'}, i ∈ idx d → t' ∈ (next d (mem t i)).elim [] (postorder next mem idx n (d + 1)) →
        ∃ p, (i :: p).length ≤ n + 1 ∧ Along idx d (i :: p) ∧ walk next mem d t (i :: p) = some t' := by
      intro i t' hi hmem
      cases hn : next d (mem t i) with
      | none =>
        rw [hn] at hmem
        cases hmem
      | some t₁ =>
        rw [hn] at hmem
        obtain ⟨p, hlen, halong, hp⟩ := (mem_postorder n (d + 1) t₁).1 hmem
        refine ⟨p, Nat.succ_le_succ hlen, ⟨hi, halong⟩, ?_⟩
        rw [walk_cons, hn]
        exact hp
    rw [postorder, List.nodup_append]
    refine ⟨List.nodup_flatMap.2 ⟨fun i hi => ?_, ?_⟩, List.nodup_singleton t, ?_⟩
    · cases hn : next d (mem t i) with
      | none => exact List.nodup_nil
      | some t₁ =>
        refine ih (d + 1) t₁ fun {p q t'} hp hq hap haq hwp hwq => ?_
        have hcons : i :: p = i :: q := by
          refine @hunique _ _ t' (Nat.succ_le_succ hp) (Nat.succ_le_succ hq) ⟨hi, hap⟩ ⟨hi, haq⟩ ?_ ?_ <;>
            rw [walk_cons, hn] <;> assumption
        exact (List.cons.inj hcons).2
    · refine (hidx d).imp_of_mem fun {i j} hi hj hne t' hmem hmem' => hne ?_
      obtain ⟨p, hlen, hap, hp⟩ := hbelow hi hmem
      obtain ⟨q, hlen', haq, hq⟩ := hbelow hj hmem'
      exact (List.cons.inj (hunique hlen hlen' hap haq hp hq)).1
    · rintro t' hmem t'' hlast rfl
      obtain rfl := List.mem_singleton.1 hlast
      obtain ⟨i, hi, hmem⟩ := List.mem_flatMap.1 hmem
      obtain ⟨p, hlen, hap, hp⟩ := hbelow hi hmem
      cases @hunique (i :: p) [] _ hlen (Nat.zero_le _) hap trivial hp rfl

end

end MyUnix.Lib
