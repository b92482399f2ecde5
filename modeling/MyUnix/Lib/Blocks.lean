import Mathlib.Algebra.Group.Nat.Defs
import Mathlib.Logic.Function.Basic
import Mathlib.Data.List.Pairwise
import Mathlib.Data.List.Perm.Basic
import Mathlib.Data.List.Nodup
import Mathlib.Data.List.Perm.Subperm

/-!
# `Lib.Blocks` — blocks that do not overlap, and chains threaded through them

Two views of the memory of a free-list allocator, neither of which names one:

* `Packed len L` — the blocks at the addresses `L`, block `a` taking `[a, a + len a)`, do not overlap. It does
  not depend on the order of `L` (`Packed.perm`), so moving a block between two lists is a permutation; a block
  may change its length where it has room (`Packed.resize`) and may be cut in two (`Packed.cut`).
* `Chain next a l` — from `a`, following `next`, one meets exactly the addresses `l` and then the null address
  `0` (so these are the addresses `Visits` speaks of). An edit of one link replaces the rest of the chain
  (`Chain.replace`).

The two are kept apart on purpose. That blocks do not overlap is a fact about a set of addresses and their lengths,
and every operation of an allocator keeps it by one of four lemmas, whatever it does to its links. That a list can be
walked is a fact about links alone, and holds or fails whatever the lengths are. An invariant of a heap is the
conjunction, over the blocks that are free, those that are in use and those the allocator does not speak of.

`Packed.length_le` bounds how many blocks there can be between two addresses: it is what makes a walk along a free
list end, since a list of blocks that do not overlap cannot be longer than the room they take.
-/

namespace MyUnix.Lib

/-! ## Blocks

The length of a block is a function of its address, so a block that changes its size is a change of this function at
one address. `Packed.congr` says that only the lengths of the members count, `Packed.perm` that their order does not.
-/

/-- The blocks at `a` and at `b` do not overlap. -/
def Apart (len : Nat → Nat) (a b : Nat) : Prop := a + len a ≤ b ∨ b + len b ≤ a

theorem Apart.symm {len : Nat → Nat} {a b : Nat} (h : Apart len a b) : Apart len b a := Or.symm h

instance (len : Nat → Nat) : Std.Symm (Apart len) := ⟨fun _ _ => Apart.symm⟩

/-- No two blocks of `L` overlap. -/
def Packed (len : Nat → Nat) (L : List Nat) : Prop := L.Pairwise (Apart len)

namespace Packed

variable {len len' : Nat → Nat} {L L' : List Nat} {a b : Nat}

theorem perm (h : Packed len L) (hp : L.Perm L') : Packed len L' :=
  (hp.pairwise_iff (@Apart.symm len)).mp h

theorem cons_iff : Packed len (a :: L) ↔ (∀ b ∈ L, Apart len a b) ∧ Packed len L := List.pairwise_cons

theorem apart (h : Packed len L) (ha : a ∈ L) (hb : b ∈ L) (hne : a ≠ b) : Apart len a b :=
  List.Pairwise.forall h ha hb hne

theorem congr (h : Packed len L) (he : ∀ a ∈ L, len' a = len a) : Packed len' L := by
  refine List.Pairwise.imp_of_mem (fun ha hb hab => ?_) h
  unfold Apart at hab ⊢
  rw [he _ ha, he _ hb]
  exact hab

/-- Blocks that are not empty are at different addresses. -/
theorem nodup (h : Packed len L) (hpos : ∀ a ∈ L, 0 < len a) : L.Nodup := by
  refine List.Pairwise.imp_of_mem (fun {a b} ha _ hab hne => ?_) h
  subst hne
  have := hpos a ha
  unfold Apart at hab
  omega

/-- A block gets another length, where no other block begins within it. -/
theorem resize (h : Packed len (a :: L)) (hnot : a ∉ L) {n : Nat} (hroom : ∀ b ∈ L, b < a ∨ a + n ≤ b) :
    Packed (Function.update len a n) (a :: L) := by
  rw [cons_iff] at h ⊢
  have hother : ∀ b ∈ L, Function.update len a n b = len b := by
    intro b hb
    have hne : b ≠ a := fun e => hnot (e ▸ hb)
    rw [Function.update_of_ne hne]
  refine ⟨fun b hb => ?_, h.2.congr hother⟩
  have hab := h.1 b hb
  have hb' := hroom b hb
  unfold Apart at hab ⊢
  rw [Function.update_self, hother b hb]
  omega

/-- A block is cut in two: `b` takes the end of `a`. -/
theorem cut (h : Packed len (a :: L)) (hnota : a ∉ L) {n n' : Nat} (hn : 0 < n) (hn' : 0 < n')
    (hb : b = a + n) (hlen : n + n' ≤ len a) :
    b ∉ a :: L ∧ Packed (Function.update (Function.update len a n) b n') (b :: a :: L) := by
  have hp := cons_iff.mp h
  have hbL : b ∉ L := by
    intro hm
    have := hp.1 b hm
    unfold Apart at this
    omega
  have hba : b ≠ a := by omega
  have hother : ∀ c ∈ L, Function.update (Function.update len a n) b n' c = len c := by
    intro c hc
    have hcb : c ≠ b := fun e => hbL (e ▸ hc)
    have hca : c ≠ a := fun e => hnota (e ▸ hc)
    rw [Function.update_of_ne hcb, Function.update_of_ne hca]
  have hata : Function.update (Function.update len a n) b n' a = n := by
    rw [Function.update_of_ne (Ne.symm hba), Function.update_self]
  refine ⟨by simp [hba, hbL], cons_iff.mpr ⟨fun c hc => ?_, cons_iff.mpr ⟨fun c hc => ?_, hp.2.congr hother⟩⟩⟩
  · unfold Apart
    rw [Function.update_self]
    rcases List.mem_cons.mp hc with rfl | hc
    · rw [hata]
      omega
    · have := hp.1 c hc
      unfold Apart at this
      rw [hother c hc]
      omega
  · have := hp.1 c hc
    unfold Apart at this ⊢
    rw [hata, hother c hc]
    omega

/-- A block on the list is exchanged for one within it. -/
theorem exchange {l rest : List Nat} (h : Packed len (l ++ a :: rest)) (hge : a ≤ b) (hend : b + len' b ≤ a + len a)
    (hother : ∀ c ∈ l ++ rest, len' c = len c) : Packed len' (l ++ b :: rest) := by
  obtain ⟨hnew, hrest⟩ := cons_iff.mp (h.perm List.perm_middle)
  refine Packed.perm ?_ List.perm_middle.symm
  refine cons_iff.mpr ⟨fun c hc => ?_, hrest.congr hother⟩
  have hac := hnew c hc
  unfold Apart at hac ⊢
  rw [hother c hc]
  omega

/-- **Blocks of at least `k` bytes** between `lo` and `hi` are no more than fit there. -/
theorem length_le {k lo hi : Nat} (h : Packed len L) (hk : 0 < k)
    (hin : ∀ a ∈ L, lo ≤ a ∧ k ≤ len a ∧ a + len a ≤ hi) : L.length ≤ (hi - lo) / k := by
  -- blocks that do not overlap begin in different slots of `k` bytes
  have hslots : (L.map fun a => (a - lo) / k).Nodup := by
    rw [List.Nodup, List.pairwise_map]
    refine List.Pairwise.imp_of_mem (fun {a b} ha hb hab hslot => ?_) h
    obtain ⟨hloa, hka, -⟩ := hin a ha
    obtain ⟨hlob, hkb, -⟩ := hin b hb
    have hmoda := Nat.div_add_mod (a - lo) k
    have hmodb := Nat.div_add_mod (b - lo) k
    have hlta := Nat.mod_lt (a - lo) hk
    have hltb := Nat.mod_lt (b - lo) hk
    rw [hslot] at hmoda
    unfold Apart at hab
    omega
  have hrange : ∀ x ∈ L.map fun a => (a - lo) / k, x ∈ List.range ((hi - lo) / k) := by
    intro x hx
    obtain ⟨a, ha, rfl⟩ := List.mem_map.mp hx
    obtain ⟨hlo, hlen, hend⟩ := hin a ha
    rw [List.mem_range, Nat.lt_iff_add_one_le, ← Nat.add_div_right _ hk]
    exact Nat.div_le_div_right (by omega)
  have hle := (hslots.subperm hrange).length_le
  rwa [List.length_map, List.length_range] at hle

end Packed

theorem mem_middle {α : Type} {l t : List α} {a b : α} (h : a ∈ l ++ t) : a ∈ l ++ b :: t :=
  ((List.sublist_cons_self b t).append_left l).subset h

/-! ## Chains

A chain is the walk as a list. The list is determined by the links, so a chain may be used as the definition of what
is on a list, and `Chain.replace` is the only edit that is needed: to unlink, to insert and to exchange a member is to
let one link lead elsewhere.
-/

/-- Following `next` from `a` visits `l` and ends at the null address. -/
def Chain (next : Nat → Nat) : Nat → List Nat → Prop
  | a, []     => a = 0
  | a, b :: l => a = b ∧ b ≠ 0 ∧ Chain next (next b) l

instance Chain.decidable (next : Nat → Nat) : ∀ a l, Decidable (Chain next a l)
  | a, []     => inferInstanceAs (Decidable (a = 0))
  | a, b :: l =>
    have := Chain.decidable next (next b) l
    inferInstanceAs (Decidable (a = b ∧ b ≠ 0 ∧ Chain next (next b) l))

/-- Following `next` from `a` meets `b` before the null address. -/
inductive Visits (next : Nat → Nat) : Nat → Nat → Prop where
  | here {a} : a ≠ 0 → Visits next a a
  | next {a b} : a ≠ 0 → Visits next (next a) b → Visits next a b

namespace Chain

variable {next next' : Nat → Nat} {a b : Nat} {l l' t : List Nat}

@[simp] theorem nil_iff : Chain next a [] ↔ a = 0 := Iff.rfl

@[simp] theorem cons_iff : Chain next a (b :: l) ↔ a = b ∧ b ≠ 0 ∧ Chain next (next b) l := Iff.rfl

theorem eq_zero_iff (h : Chain next a l) : a = 0 ↔ l = [] := by
  cases l with
  | nil => simpa using h
  | cons b l =>
      obtain ⟨rfl, hne, -⟩ := h
      simp [hne]

theorem ne_zero (h : Chain next a l) (hb : b ∈ l) : b ≠ 0 := by
  induction l generalizing a with
  | nil => cases hb
  | cons c l ih =>
      obtain ⟨rfl, hc, hl⟩ := h
      rcases List.mem_cons.mp hb with rfl | hb
      · exact hc
      · exact ih hl hb

theorem visits_iff (h : Chain next a l) : Visits next a b ↔ b ∈ l := by
  induction l generalizing a with
  | nil =>
      have h0 : a = 0 := h
      subst h0
      refine ⟨fun hv => ?_, by simp⟩
      cases hv with
      | here hne => exact absurd rfl hne
      | next hne _ => exact absurd rfl hne
  | cons c l ih =>
      obtain ⟨rfl, hc, hl⟩ := h
      rw [List.mem_cons, ← ih hl]
      constructor
      · intro hv
        cases hv with
        | here _ => exact Or.inl rfl
        | next _ hv => exact Or.inr hv
      · rintro (rfl | hv)
        · exact .here hc
        · exact .next hc hv

/-- Only the links of the members matter. -/
theorem congr (h : Chain next a l) (he : ∀ b ∈ l, next' b = next b) : Chain next' a l := by
  induction l generalizing a with
  | nil => exact h
  | cons c l ih =>
      obtain ⟨rfl, hc, hl⟩ := h
      refine ⟨rfl, hc, ?_⟩
      rw [he a List.mem_cons_self]
      exact ih hl fun b hb => he b (List.mem_cons_of_mem a hb)

/-- The rest of a chain. -/
theorem drop (h : Chain next a (l ++ b :: t)) : Chain next b (b :: t) := by
  induction l generalizing a with
  | nil =>
      obtain ⟨rfl, hc, hl⟩ := h
      exact ⟨rfl, hc, hl⟩
  | cons c l ih => exact ih h.2.2

/-- **One link edited.** The link of `r` now leads to `b`, from where the chain is `t`. -/
theorem replace {r : Nat} {rest : List Nat} (h : Chain next a (l ++ r :: rest))
    (hother : ∀ c ∈ l, next' c = next c) (hr : next' r = b) (ht : Chain next' b t) :
    Chain next' a (l ++ r :: t) := by
  induction l generalizing a with
  | nil =>
      obtain ⟨rfl, hc, -⟩ := h
      exact ⟨rfl, hc, hr ▸ ht⟩
  | cons c l ih =>
      obtain ⟨rfl, hc, hl⟩ := h
      refine ⟨rfl, hc, ?_⟩
      rw [hother a List.mem_cons_self]
      exact ih hl fun d hd => hother d (List.mem_cons_of_mem a hd)

end Chain

end MyUnix.Lib
