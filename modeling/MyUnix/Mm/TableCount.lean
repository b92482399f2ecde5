import MyUnix.Mm.DirectMap
import MyUnix.Mm.SpacePages

/-!
# `Mm.TableCount` — how many frames a mapping takes

`vmm_map` takes a frame for every table that is missing on the way to a page. A path is vacant when `vmm_get_pte` would
make a table there. `Spent` relates the machine before some calls of `pmm_alloc` and `vmm_map` to the machine after
them, for any addresses, also such that run into the kernel half: every frame that was free is still free, was handed
out, or is a table at a path that was vacant. So it can be counted for how many pages the frames suffice.

Running out of frames is where most failure paths of the kernel begin, and what a caller may promise depends on how
many are left. A page costs one frame and at most three tables; tables are shared by neighbouring pages, so the cost
of a range is the number of different vacant paths on the way to its pages (`newTables`). The relation is additive, so
a loop of calls is followed by one induction whatever else the loop does.
-/

namespace MyUnix.Mm

open Lib PageAlloc

/-- There is no table at the end of the path, and no entry that keeps `vmm_get_pte` from making one. -/
def vacant (m : ByteMem) (pml4 : Nat) (q : List Nat) : Bool :=
  (tableAt m pml4 q).isNone &&
    match tableAt m pml4 q.dropLast with
    | none   => true
    | some t => !isPresent (entry m t (q.getLastD 0))

/-- The tables that a walk to `va` needs. -/
def wayTo (va : Nat) : List (List Nat) :=
  [[pml4Idx va], [pml4Idx va, pdptIdx va], [pml4Idx va, pdptIdx va, pdIdx va]]

/-- The tables that are missing for `n` pages from `virt` on. -/
def newTables (m : ByteMem) (pml4 virt n : Nat) : List (List Nat) :=
  ((List.range n).flatMap fun i => wayTo (virt + i * pageSize)).dedup.filter (vacant m pml4)

section

variable {m : ByteMem} {pml4 : Nat}

theorem vacant_nil : vacant m pml4 [] = false := rfl

/-- The entry at the end is not there, or not even its table is. -/
theorem vacant_snoc {p : List Nat} {i : Nat} :
    vacant m pml4 (p ++ [i]) = true ↔ ∀ t, tableAt m pml4 p = some t → isPresent (entry m t i) = false := by
  have hlast : (p ++ [i]).getLastD 0 = i := by simp
  rw [vacant, List.dropLast_concat, hlast]
  rcases Option.eq_none_or_eq_some (tableAt m pml4 p) with hnone | ⟨t, ht⟩
  · rw [tableAt_append_none hnone, hnone]
    exact iff_of_true rfl nofun
  · rw [tableAt_snoc ht, ht]
    cases hpres : isPresent (entry m t i) with
    | true =>
      refine iff_of_false (by simp [hpres]) fun h => ?_
      rw [h t rfl] at hpres
      cases hpres
    | false =>
      rw [nextOf_absent hpres]
      refine iff_of_true (by simp [hpres]) ?_
      rintro t' ⟨⟩
      exact hpres

/-- A vacant path has a last index. -/
theorem vacant_cases {q : List Nat} (h : vacant m pml4 q = true) : ∃ p i, q = p ++ [i] := by
  rcases List.eq_nil_or_concat q with rfl | ⟨p, i, rfl⟩
  · cases h
  · exact ⟨p, i, List.concat_eq_append⟩

theorem vacant_none {q : List Nat} (h : vacant m pml4 q = true) : tableAt m pml4 q = none := by
  rw [vacant, Bool.and_eq_true, Option.isNone_iff_eq_none] at h
  exact h.1

theorem isPath_way {va : Nat} {q : List Nat} (h : q ∈ wayTo va) : IsPath q := by
  have h4 : pml4Idx va < 512 := Nat.mod_lt _ (by decide)
  have h3 : pdptIdx va < 512 := Nat.mod_lt _ (by decide)
  have h2 : pdIdx va < 512 := Nat.mod_lt _ (by decide)
  simp only [wayTo, List.mem_cons, List.not_mem_nil, or_false] at h
  rcases h with rfl | rfl | rfl <;> simp [IsPath, h4, h3, h2]

theorem mem_newTables {virt n : Nat} {q : List Nat} :
    q ∈ newTables m pml4 virt n ↔ (∃ i < n, q ∈ wayTo (virt + i * pageSize)) ∧ vacant m pml4 q = true := by
  simp only [newTables, List.mem_filter, List.mem_dedup, List.mem_flatMap, List.mem_range]

theorem newTables_nodup (virt n : Nat) : (newTables m pml4 virt n).Nodup := (List.nodup_dedup _).filter _

/-- More pages need no fewer tables. -/
theorem newTables_mono {virt k n : Nat} (h : k ≤ n) :
    (newTables m pml4 virt k).length ≤ (newTables m pml4 virt n).length := by
  apply List.Subperm.length_le
  apply List.subperm_of_subset (newTables_nodup virt k)
  intro q hq
  obtain ⟨⟨i, hi, hway⟩, hvac⟩ := mem_newTables.1 hq
  exact mem_newTables.2 ⟨⟨i, Nat.lt_of_lt_of_le hi h, hway⟩, hvac⟩

end

variable {σ : Type} [PageAlloc σ]

/-- All tables of a space, those of the kernel half too, make a tree, with huge pages of 2 MB only; none is free. -/
structure SpaceTree (vm : Vm σ) (pml4 : Nat) : Prop where
  aligned : pml4 % pageSize = 0
  unique {p q t} : IsPath p → IsPath q → tableAt vm.mem pml4 p = some t → tableAt vm.mem pml4 q = some t → p = q
  flat {i j t} : i < 512 → j < 512 → tableAt vm.mem pml4 [i] = some t → isPresent (entry vm.mem t j) = true →
    isHuge (entry vm.mem t j) = false
  apart {p t} : IsPath p → tableAt vm.mem pml4 p = some t → ¬Free vm.pmm t

/-- Frames were taken: for tables at vacant paths of `W`, and those in `taken`, which hold none. -/
structure Spent (vm₀ vm : Vm σ) (pml4 : Nat) (W : List Nat → Prop) (taken : List Nat) : Prop where
  tree : SpaceTree vm pml4
  tables {q t} : IsPath q → tableAt vm₀.mem pml4 q = some t → tableAt vm.mem pml4 q = some t
  new {q t} : IsPath q → tableAt vm.mem pml4 q = some t →
    tableAt vm₀.mem pml4 q = some t ∨ (Free vm₀.pmm t ∧ vacant vm₀.mem pml4 q = true ∧ W q)
  back {q} : IsPath q → vacant vm.mem pml4 q = true → vacant vm₀.mem pml4 q = true
  filled {q} : IsPath q → vacant vm₀.mem pml4 q = true →
    vacant vm.mem pml4 q = true ∨ ∃ t, tableAt vm.mem pml4 q = some t
  free {f} : Free vm.pmm f → Free vm₀.pmm f
  kept {f} : Free vm₀.pmm f → Free vm.pmm f ∨ (∃ q, IsPath q ∧ tableAt vm.mem pml4 q = some f) ∨ f ∈ taken
  held {f} : f ∈ taken → Free vm₀.pmm f ∧ ¬Free vm.pmm f ∧ Unused IsPath vm.mem pml4 f
  nodup : taken.Nodup

/-! ## One table more

A table that is made takes one frame and fills one vacant path; it comes cleared, so the paths below it stay vacant.
-/

/-- One level of `vmm_get_pte` with `create` finds the table, or makes it, or there is no free frame. -/
theorem nextTable_cases {vm : Vm σ} {t i : Nat} (ht : t % pageSize = 0) (hi : i < 512) (hfree : ¬Free vm.pmm t) (flags : Pte) :
    (isPresent (entry vm.mem t i) = true ∧ vm.nextTable (slot t i) true flags = (some (pteAddr (entry vm.mem t i)), vm)) ∨
    (isPresent (entry vm.mem t i) = false ∧ ∃ vm', vm.nextTable (slot t i) true flags = (none, vm') ∧
      vm'.mem = vm.mem ∧ ∀ f, ¬Free vm.pmm f ∧ ¬Free vm'.pmm f) ∨
    (isPresent (entry vm.mem t i) = false ∧ ∃ f vm', vm.nextTable (slot t i) true flags = (some f, vm') ∧
      Made vm vm' t i f) := by
  have hword : vm.mem.word (slot t i) = entry vm.mem t i := rfl
  cases hp : isPresent (entry vm.mem t i) with
  | true =>
    refine .inl ⟨rfl, ?_⟩
    rw [Vm.nextTable, hword, hp]
    rfl
  | false =>
    by_cases h0 : vm.alloc.1 = 0
    · refine .inr (.inl ⟨rfl, vm.alloc.2, ?_, alloc_none h0⟩)
      rw [Vm.nextTable, hword, hp]
      simp only [Bool.not_false, Bool.not_true, Bool.false_eq_true, if_true, if_false, h0]
    · refine .inr (.inr ⟨rfl, vm.alloc.1, vm.alloc.2.store (slot t i)
        (BitVec.ofNat 64 vm.alloc.1 ||| ptePresent ||| pteWritable ||| (flags &&& pteUser)), ?_,
        Made.of_store ht hi hfree h0 ?_⟩)
      · rw [Vm.nextTable, hword, hp]
        simp only [Bool.not_false, Bool.not_true, Bool.false_eq_true, if_true, if_false, h0]
      · obtain ⟨hal, hlt⟩ := alloc_page h0
        exact table_entry flags hal hlt

section

variable {vm vm' : Vm σ} {pml4 t₀ i₀ f : Nat} {p₀ : List Nat}

namespace Made

variable (a : Made vm vm' t₀ i₀ f) (h : SpaceTree vm pml4)
include a h

/-- No entry of a table changes but the one. -/
theorem entries {q : List Nat} {t i : Nat} (hq : IsPath q) (hi : i < 512) (ht : tableAt vm.mem pml4 q = some t)
    (hne : (t, i) ≠ (t₀, i₀)) : entry vm'.mem t i = entry vm.mem t i := by
  apply a.others t i (tableAt_mod h.aligned ht) hi _ hne
  rintro rfl
  exact h.apart hq ht a.fresh

variable (hp : IsPath (p₀ ++ [i₀])) (h₀ : tableAt vm.mem pml4 p₀ = some t₀)
  (habs : isPresent (entry vm.mem t₀ i₀) = false)
include hp h₀

/-- A path that does not go through the entry leads where it led. -/
theorem tableAt_eq {q : List Nat} (hq : IsPath q) (hthrough : ∀ r, q ≠ p₀ ++ i₀ :: r) :
    tableAt vm'.mem pml4 q = tableAt vm.mem pml4 q := by
  have hp₀ : IsPath p₀ := hp.of_append
  apply walk_of_slot (fun q r => IsPath.of_append) (fun q hq ht => h.unique hq hp₀ ht h₀) _ hq hthrough
  intro q i r t hqr ht hne
  exact a.entries h hqr.of_append (hqr.2 i (by simp)) ht hne

include habs

/-- The tables are the old ones, and the new one. -/
theorem tableAt_iff {q : List Nat} {t : Nat} (hq : IsPath q) :
    tableAt vm'.mem pml4 q = some t ↔ tableAt vm.mem pml4 q = some t ∨ (q = p₀ ++ [i₀] ∧ t = f) := by
  have hself : tableAt vm'.mem pml4 p₀ = some t₀ := by
    rw [a.tableAt_eq h hp h₀ hp.of_append, h₀]
    intro r hr
    have := congrArg List.length hr
    rw [List.length_append, List.length_cons] at this
    omega
  obtain ⟨hpres, hsmall, haddr⟩ := a.link
  have hnew : tableAt vm'.mem pml4 (p₀ ++ [i₀]) = some f := by
    rw [tableAt_snoc hself, nextOf, hpres, hsmall, haddr]
    simp
  by_cases hthrough : ∃ r, q = p₀ ++ i₀ :: r
  · obtain ⟨r, rfl⟩ := hthrough
    have hassoc : p₀ ++ i₀ :: r = (p₀ ++ [i₀]) ++ r := by simp
    have hnone : tableAt vm.mem pml4 (p₀ ++ i₀ :: r) = none := by
      rw [hassoc]
      apply tableAt_append_none
      rw [tableAt_snoc h₀, nextOf_absent habs]
    rw [hnone]
    cases r with
    | nil =>
      rw [hnew]
      simp [eq_comm]
    | cons j r =>
      -- behind the new table there is nothing
      have hj : j < 512 := hq.2 j (by simp)
      have hbeyond : tableAt vm'.mem pml4 (p₀ ++ i₀ :: j :: r) = none := by
        have hsplit : p₀ ++ i₀ :: j :: r = ((p₀ ++ [i₀]) ++ [j]) ++ r := by simp
        rw [hsplit]
        apply tableAt_append_none
        rw [tableAt_snoc hnew, a.empty j hj, nextOf_absent isPresent_zero]
      rw [hbeyond]
      simp
  · rw [a.tableAt_eq h hp h₀ hq fun r hr => hthrough ⟨r, hr⟩]
    refine ⟨.inl, fun hor => hor.resolve_right fun hnew => hthrough ⟨[], hnew.1⟩⟩

theorem tree : SpaceTree vm' pml4 where
  aligned := h.aligned
  unique {p q t} hpp hq hpt hqt := by
    rcases (a.tableAt_iff h hp h₀ habs hpp).1 hpt with hpt | ⟨rfl, rfl⟩
    · rcases (a.tableAt_iff h hp h₀ habs hq).1 hqt with hqt | ⟨-, rfl⟩
      · exact h.unique hpp hq hpt hqt
      · exact absurd a.fresh (h.apart hpp hpt)
    · rcases (a.tableAt_iff h hp h₀ habs hq).1 hqt with hqt | ⟨rfl, -⟩
      · exact absurd a.fresh (h.apart hq hqt)
      · rfl
  flat {i j t} hi hj ht hpres := by
    have hpath : IsPath [i] := ⟨by simp, by simpa using hi⟩
    rcases (a.tableAt_iff h hp h₀ habs hpath).1 ht with ht | ⟨-, rfl⟩
    · by_cases hslot : (t, j) = (t₀, i₀)
      · obtain ⟨rfl, rfl⟩ := Prod.mk.inj hslot
        exact a.link.2.1
      · rw [a.entries h hpath hj ht hslot] at hpres ⊢
        exact h.flat hi hj ht hpres
    · rw [a.empty j hj, isPresent_zero] at hpres
      cases hpres
  apart {q t} hq ht hfree := by
    rcases (a.tableAt_iff h hp h₀ habs hq).1 ht with ht | ⟨-, rfl⟩
    · exact h.apart hq ht ((a.free t).1 hfree).1
    · exact ((a.free _).1 hfree).2 rfl

/-- A table that is made takes one frame and fills one vacant path. -/
theorem spent : Spent vm vm' pml4 (fun q => q = p₀ ++ [i₀]) [] where
  tree := a.tree h hp h₀ habs
  tables hq ht := (a.tableAt_iff h hp h₀ habs hq).2 (.inl ht)
  new {q t} hq ht := by
    rcases (a.tableAt_iff h hp h₀ habs hq).1 ht with ht | ⟨rfl, rfl⟩
    · exact .inl ht
    · refine .inr ⟨a.fresh, vacant_snoc.2 fun t ht => ?_, rfl⟩
      obtain rfl : t₀ = t := Option.some.inj (h₀.symm.trans ht)
      exact habs
  back {q} hq hvac := by
    obtain ⟨p, i, rfl⟩ := vacant_cases hvac
    refine vacant_snoc.2 fun t ht => ?_
    have habs' := vacant_snoc.1 hvac t ((a.tableAt_iff h hp h₀ habs hq.of_append).2 (.inl ht))
    by_cases hslot : (t, i) = (t₀, i₀)
    · obtain ⟨rfl, rfl⟩ := Prod.mk.inj hslot
      exact habs
    · rwa [a.entries h hq.of_append (hq.2 i (by simp)) ht hslot] at habs'
  filled {q} hq hvac := by
    obtain ⟨p, i, rfl⟩ := vacant_cases hvac
    have hi : i < 512 := hq.2 i (by simp)
    by_cases hslot : p = p₀ ∧ i = i₀
    · obtain ⟨rfl, rfl⟩ := hslot
      exact .inr ⟨f, (a.tableAt_iff h hp h₀ habs hq).2 (.inr ⟨rfl, rfl⟩)⟩
    · refine .inl (vacant_snoc.2 fun t ht => ?_)
      rcases (a.tableAt_iff h hp h₀ habs hq.of_append).1 ht with ht | ⟨-, rfl⟩
      · rw [a.entries h hq.of_append hi ht]
        · exact vacant_snoc.1 hvac t ht
        · rintro ⟨⟩
          exact hslot ⟨h.unique hq.of_append hp.of_append ht h₀, rfl⟩
      · rw [a.empty i hi, isPresent_zero]
  free {g} hg := ((a.free g).1 hg).1
  kept {g} hg := by
    by_cases hgf : g = f
    · exact .inr (.inl ⟨p₀ ++ [i₀], hp, (a.tableAt_iff h hp h₀ habs hp).2 (.inr ⟨rfl, hgf⟩)⟩)
    · exact .inl ((a.free g).2 ⟨hg, hgf⟩)
  held := nofun
  nodup := List.nodup_nil

end Made

/-! ## Other steps

Frames that are taken for other things, and stores to the last level, fill no vacant path.
-/

/-- The entries above the last level are the same, so the tables are. -/
def SameTables (m m' : ByteMem) (pml4 : Nat) : Prop :=
  ∀ {q t i}, IsPath q → q.length ≤ 2 → i < 512 → tableAt m pml4 q = some t → entry m' t i = entry m t i

namespace SameTables

variable {m m' : ByteMem} (hs : SameTables m m' pml4)
include hs

theorem tableAt_eq {q : List Nat} (hq : IsPath q) : tableAt m' pml4 q = tableAt m pml4 q := by
  apply walk_congr
  rintro q' i r t rfl ht
  have hle := hq.1
  rw [List.length_append, List.length_cons] at hle
  exact hs hq.of_append (by omega) (hq.2 i (by simp)) ht

theorem vacant_iff {q : List Nat} (hq : IsPath q) : vacant m' pml4 q = true ↔ vacant m pml4 q = true := by
  rcases List.eq_nil_or_concat q with rfl | ⟨p, i, rfl⟩
  · rw [vacant_nil, vacant_nil]
  · rw [List.concat_eq_append] at hq ⊢
    have hle := hq.1
    rw [List.length_append, List.length_singleton] at hle
    rw [vacant_snoc, vacant_snoc, hs.tableAt_eq hq.of_append]
    refine forall_congr' fun t => forall_congr' fun ht => ?_
    rw [hs hq.of_append (by omega) (hq.2 i (by simp)) ht]

end SameTables

theorem SameTables.tree (hs : SameTables vm.mem vm'.mem pml4) (h : SpaceTree vm pml4)
    (hfree : ∀ {f}, Free vm'.pmm f → Free vm.pmm f) : SpaceTree vm' pml4 where
  aligned := h.aligned
  unique hp hq hpt hqt := h.unique hp hq ((hs.tableAt_eq hp).symm.trans hpt) ((hs.tableAt_eq hq).symm.trans hqt)
  flat {i j t} hi hj ht hpres := by
    have hpath : IsPath [i] := ⟨by simp, by simpa using hi⟩
    rw [hs.tableAt_eq hpath] at ht
    rw [hs hpath (by simp) hj ht] at hpres ⊢
    exact h.flat hi hj ht hpres
  apart hq ht hf := h.apart hq ((hs.tableAt_eq hq).symm.trans ht) (hfree hf)

namespace Spent

variable {vm₀ vm₁ : Vm σ} {W W' : List Nat → Prop} {taken taken' : List Nat}

theorem refl (h : SpaceTree vm pml4) (W : List Nat → Prop) : Spent vm vm pml4 W [] where
  tree := h
  tables _ ht := ht
  new _ ht := .inl ht
  back _ hv := hv
  filled _ hv := .inl hv
  free hf := hf
  kept hf := .inl hf
  held := nofun
  nodup := List.nodup_nil

theorem mono (s : Spent vm₀ vm pml4 W taken) (hW : ∀ q, W q → W' q) : Spent vm₀ vm pml4 W' taken :=
  { s with new := fun hq ht => (s.new hq ht).imp_right fun ⟨hfree, hvac, hw⟩ => ⟨hfree, hvac, hW _ hw⟩ }

theorem trans (s : Spent vm₀ vm pml4 W taken) (s' : Spent vm vm₁ pml4 W' taken') :
    Spent vm₀ vm₁ pml4 (fun q => W q ∨ W' q) (taken' ++ taken) where
  tree := s'.tree
  tables hq ht := s'.tables hq (s.tables hq ht)
  new hq ht := by
    rcases s'.new hq ht with ht | ⟨hfree, hvac, hw⟩
    · exact (s.new hq ht).imp_right fun ⟨hfree, hvac, hw⟩ => ⟨hfree, hvac, .inl hw⟩
    · exact .inr ⟨s.free hfree, s.back hq hvac, .inr hw⟩
  back hq hvac := s.back hq (s'.back hq hvac)
  filled hq hvac := by
    rcases s.filled hq hvac with hvac | ⟨t, ht⟩
    · exact s'.filled hq hvac
    · exact .inr ⟨t, s'.tables hq ht⟩
  free hf := s.free (s'.free hf)
  kept hf := by
    rcases s.kept hf with hfree | ⟨q, hq, ht⟩ | hmem
    · rcases s'.kept hfree with hfree | htab | hmem
      · exact .inl hfree
      · exact .inr (.inl htab)
      · exact .inr (.inr (List.mem_append_left _ hmem))
    · exact .inr (.inl ⟨q, hq, s'.tables hq ht⟩)
    · exact .inr (.inr (List.mem_append_right _ hmem))
  held hf := by
    rcases List.mem_append.1 hf with hmem | hmem
    · obtain ⟨hwas, hnot, hun⟩ := s'.held hmem
      exact ⟨s.free hwas, hnot, hun⟩
    · obtain ⟨hwas, hnot, hun⟩ := s.held hmem
      refine ⟨hwas, fun hfree => hnot (s'.free hfree), fun q hq ht => ?_⟩
      rcases s'.new hq ht with ht | ⟨hfree, -, -⟩
      · exact hun q hq ht
      · exact hnot hfree
  nodup := by
    refine List.nodup_append.2 ⟨s'.nodup, s.nodup, ?_⟩
    rintro f hf g hg rfl
    exact (s.held hg).2.1 (s'.held hf).1

/-- `pmm_alloc`. -/
theorem alloc (h : SpaceTree vm pml4) (h0 : vm.alloc.1 ≠ 0) :
    Spent vm vm.alloc.2 pml4 (fun _ => False) [vm.alloc.1] := by
  obtain ⟨hmem, hfresh, hfree, -⟩ := alloc_frame vm h0
  obtain ⟨-, hal, -⟩ := managed_spec (managed_of_free hfresh)
  have hs : SameTables vm.mem vm.alloc.2.mem pml4 := by
    intro q t i hq _ hi ht
    rw [hmem]
    apply agreeOff_clear.entry_eq (tableAt_mod h.aligned ht) hal hi
    rintro rfl
    exact h.apart hq ht hfresh
  exact {
    tree := hs.tree h fun hf => ((hfree _).1 hf).1
    tables := fun hq ht => (hs.tableAt_eq hq).trans ht
    new := fun hq ht => .inl ((hs.tableAt_eq hq).symm.trans ht)
    back := fun hq => (hs.vacant_iff hq).1
    filled := fun hq hv => .inl ((hs.vacant_iff hq).2 hv)
    free := fun hf => ((hfree _).1 hf).1
    kept := fun {f} hf => by
      by_cases hne : f = vm.alloc.1
      · exact .inr (.inr (List.mem_singleton.2 hne))
      · exact .inl ((hfree f).2 ⟨hf, hne⟩)
    held := fun {f} hf => by
      obtain rfl := List.mem_singleton.1 hf
      refine ⟨hfresh, fun hf => ((hfree _).1 hf).2 rfl, fun q hq ht => ?_⟩
      exact h.apart hq ((hs.tableAt_eq hq).symm.trans ht) hfresh
    nodup := List.nodup_singleton _ }

/-- A change that is none to the tables, and none to what is free. -/
theorem of_same {vm' : Vm σ} (h : SpaceTree vm pml4) (hs : SameTables vm.mem vm'.mem pml4)
    (hfree : ∀ f, Free vm'.pmm f ↔ Free vm.pmm f) : Spent vm vm' pml4 (fun _ => False) [] where
  tree := hs.tree h fun hf => (hfree _).1 hf
  tables hq ht := (hs.tableAt_eq hq).trans ht
  new hq ht := .inl ((hs.tableAt_eq hq).symm.trans ht)
  back hq := (hs.vacant_iff hq).1
  filled hq hv := .inl ((hs.vacant_iff hq).2 hv)
  free hf := (hfree _).1 hf
  kept hf := .inl ((hfree _).2 hf)
  held := nofun
  nodup := List.nodup_nil

/-- A store to a last-level table. -/
theorem leaf (h : SpaceTree vm pml4) {p : List Nat} {t i : Nat} (hp : IsPath p) (hlen : p.length = 3) (hi : i < 512)
    (ht : tableAt vm.mem pml4 p = some t) (e : Pte) :
    Spent vm (vm.store (slot t i) e) pml4 (fun _ => False) [] := by
  refine of_same h ?_ fun _ => Iff.rfl
  intro q t' j hq hle hj ht'
  apply entry_store e (tableAt_mod h.aligned ht') (tableAt_mod h.aligned ht) hj hi
  rintro ⟨⟩
  obtain rfl := h.unique hp hq ht ht'
  omega

end Spent

/-! ## `vmm_map`

A call that succeeds leaves no vacant path on the way to its page; one that fails has met the end of the frames.
-/

/-- One level of the walk with `create`, where no entry is huge. -/
theorem nextTable_spent (h : SpaceTree vm pml4) (hp : IsPath (p₀ ++ [i₀])) (h₀ : tableAt vm.mem pml4 p₀ = some t₀)
    (hsmall : p₀ = [] ∨ (isPresent (entry vm.mem t₀ i₀) = true → isHuge (entry vm.mem t₀ i₀) = false)) (flags : Pte) :
    Spent vm (vm.nextTable (slot t₀ i₀) true flags).2 pml4 (fun q => q = p₀ ++ [i₀]) [] ∧
    ∀ t, (vm.nextTable (slot t₀ i₀) true flags).1 = some t →
      tableAt (vm.nextTable (slot t₀ i₀) true flags).2.mem pml4 (p₀ ++ [i₀]) = some t := by
  have hi : i₀ < 512 := hp.2 i₀ (by simp)
  rcases nextTable_cases (tableAt_mod h.aligned h₀) hi (h.apart hp.of_append h₀) flags with
    ⟨hpres, hout⟩ | ⟨-, vm', hout, hmem, hfull⟩ | ⟨habs, f, vm', hout, a⟩
  · rw [hout]
    refine ⟨Spent.refl h _, ?_⟩
    rintro t ⟨⟩
    rw [tableAt_snoc h₀]
    rcases hsmall with rfl | hsmall
    · exact nextOf_root hpres
    · exact nextOf_table hpres (hsmall hpres)
  · rw [hout]
    refine ⟨?_, nofun⟩
    have hs : SameTables vm.mem vm'.mem pml4 := fun _ _ _ _ => by rw [hmem]
    exact (Spent.of_same h hs fun f => iff_of_false (hfull f).2 (hfull f).1).mono fun _ => False.elim
  · rw [hout]
    refine ⟨a.spent h hp h₀ habs, ?_⟩
    rintro t ⟨⟩
    exact (a.tableAt_iff h hp h₀ habs hp).2 (.inr ⟨rfl, rfl⟩)

/-- A path that a table lies behind is not vacant. -/
theorem vacant_false {m : ByteMem} {q : List Nat} {t : Nat} (ht : tableAt m pml4 q = some t) : vacant m pml4 q = false := by
  rw [vacant, ht]
  rfl

/-- **`vmm_get_pte` with `create`**, at any address: it makes tables on the way, and unless no frame is left then, no
    table it could make is missing. -/
theorem vmmGetPte_spent (h : SpaceTree vm pml4) (virt : Nat) (flags : Pte) :
    Spent vm (vm.vmmGetPte pml4 virt true flags).2 pml4 (· ∈ wayTo virt) [] ∧
    ((∀ f, ¬Free (vm.vmmGetPte pml4 virt true flags).2.pmm f) ∨
      ∀ q ∈ wayTo virt, vacant (vm.vmmGetPte pml4 virt true flags).2.mem pml4 q = false) ∧
    ∀ a, (vm.vmmGetPte pml4 virt true flags).1 = some a →
      ∃ t, tableAt (vm.vmmGetPte pml4 virt true flags).2.mem pml4 (ptPath virt) = some t ∧ a = slot t (ptIdx virt) := by
  have h4 : pml4Idx virt < 512 := Nat.mod_lt _ (by decide)
  have h3 : pdptIdx virt < 512 := Nat.mod_lt _ (by decide)
  have h2 : pdIdx virt < 512 := Nat.mod_lt _ (by decide)
  have hway : ∀ {q}, q ∈ wayTo virt ↔ q = [pml4Idx virt] ∨ q = [pml4Idx virt, pdptIdx virt] ∨
      q = [pml4Idx virt, pdptIdx virt, pdIdx virt] := by
    intro q
    simp only [wayTo, List.mem_cons, List.not_mem_nil, or_false]
  rw [Vm.vmmGetPte]
  have hpath1 : IsPath ([] ++ [pml4Idx virt]) := @isPath_way virt _ (hway.2 (.inl rfl))
  obtain ⟨s1, t1⟩ := nextTable_spent h hpath1 tableAt_nil (.inl rfl) flags
  have full1 := nextTable_full vm (slot pml4 (pml4Idx virt)) flags
  generalize vm.nextTable (slot pml4 (pml4Idx virt)) true flags = r1 at *
  obtain ⟨_ | pdpt, vm1⟩ := r1
  · exact ⟨s1.mono fun q hq => hway.2 (.inl hq), .inl (full1 rfl), fun _ hsome => by cases hsome⟩
  have hpdpt : tableAt vm1.mem pml4 [pml4Idx virt] = some pdpt := t1 pdpt rfl
  have hpath2 : IsPath ([pml4Idx virt] ++ [pdptIdx virt]) := @isPath_way virt _ (hway.2 (.inr (.inl rfl)))
  obtain ⟨s2, t2⟩ := nextTable_spent s1.tree hpath2 hpdpt (.inr (s1.tree.flat h4 h3 hpdpt)) flags
  have full2 := nextTable_full vm1 (slot pdpt (pdptIdx virt)) flags
  simp only
  generalize vm1.nextTable (slot pdpt (pdptIdx virt)) true flags = r2 at *
  have hway2 : ∀ q, q = [] ++ [pml4Idx virt] ∨ q = [pml4Idx virt] ++ [pdptIdx virt] → q ∈ wayTo virt :=
    fun q hq => hway.2 (hq.imp id .inl)
  obtain ⟨_ | pd, vm2⟩ := r2
  · exact ⟨(s1.trans s2).mono hway2, .inl (full2 rfl), fun _ hsome => by cases hsome⟩
  have hpd : tableAt vm2.mem pml4 [pml4Idx virt, pdptIdx virt] = some pd := t2 pd rfl
  have hpdpt2 := s2.tables (q := [pml4Idx virt]) hpath2.of_append hpdpt
  have hpath3 : IsPath ([pml4Idx virt, pdptIdx virt] ++ [pdIdx virt]) :=
    @isPath_way virt _ (hway.2 (.inr (.inr rfl)))
  simp only
  split
  next hhuge =>
    -- a page of 2 MB is in the way
    rw [Bool.and_eq_true] at hhuge
    refine ⟨(s1.trans s2).mono hway2, .inr fun q hq => ?_, fun _ hsome => by cases hsome⟩
    rcases hway.1 hq with rfl | rfl | rfl
    · exact vacant_false hpdpt2
    · exact vacant_false hpd
    · rw [← Bool.not_eq_true]
      intro hvac
      have habs := (vacant_snoc (p := [pml4Idx virt, pdptIdx virt])).1 hvac pd hpd
      rw [entry, hhuge.1] at habs
      cases habs
  next hhuge =>
    have hsmall : isPresent (entry vm2.mem pd (pdIdx virt)) = true → isHuge (entry vm2.mem pd (pdIdx virt)) = false := by
      intro hpres
      by_contra hh
      rw [Bool.not_eq_false] at hh
      apply hhuge
      rw [entry] at hpres hh
      rw [hpres, hh]
      rfl
    obtain ⟨s3, t3⟩ := nextTable_spent s2.tree hpath3 hpd (.inr hsmall) flags
    have full3 := nextTable_full vm2 (slot pd (pdIdx virt)) flags
    generalize vm2.nextTable (slot pd (pdIdx virt)) true flags = r3 at *
    have hway3 : ∀ q, (q = [] ++ [pml4Idx virt] ∨ q = [pml4Idx virt] ++ [pdptIdx virt]) ∨
        q = [pml4Idx virt, pdptIdx virt] ++ [pdIdx virt] → q ∈ wayTo virt :=
      fun q hq => hq.elim (hway2 q) fun hq => hway.2 (.inr (.inr hq))
    obtain ⟨_ | pt, vm3⟩ := r3
    · exact ⟨((s1.trans s2).trans s3).mono hway3, .inl (full3 rfl), fun _ hsome => by cases hsome⟩
    · have hpt : tableAt vm3.mem pml4 [pml4Idx virt, pdptIdx virt, pdIdx virt] = some pt := t3 pt rfl
      refine ⟨((s1.trans s2).trans s3).mono hway3, .inr fun q hq => ?_, ?_⟩
      · rcases hway.1 hq with rfl | rfl | rfl
        · exact vacant_false (s3.tables hpath2.of_append hpdpt2)
        · exact vacant_false (s3.tables hpath2 hpd)
        · exact vacant_false hpt
      · rintro a ⟨⟩
        exact ⟨pt, hpt, rfl⟩

/-- **`vmm_map`**, at any page. -/
theorem vmmMap_spent (h : SpaceTree vm pml4) {virt phys : Nat} (hv : virt % pageSize = 0) (hphys : phys % pageSize = 0)
    (flags : Pte) : Spent vm (vm.vmmMap pml4 virt phys flags).2 pml4 (· ∈ wayTo virt) [] ∧
    ((∀ f, ¬Free (vm.vmmMap pml4 virt phys flags).2.pmm f) ∨
      ∀ q ∈ wayTo virt, vacant (vm.vmmMap pml4 virt phys flags).2.mem pml4 q = false) := by
  rw [Vm.vmmMap, if_neg (by omega)]
  obtain ⟨s, hdone, hpte⟩ := vmmGetPte_spent h virt flags
  generalize vm.vmmGetPte pml4 virt true flags = r at *
  obtain ⟨_ | a, vm₁⟩ := r
  · exact ⟨s, hdone⟩
  · obtain ⟨t, ht, rfl⟩ := hpte a rfl
    have hpath : IsPath (ptPath virt) := @isPath_way virt _ (by simp [wayTo, ptPath])
    have hidx : ptIdx virt < 512 := Nat.mod_lt _ (by decide)
    have s' := Spent.leaf s.tree hpath rfl hidx ht (BitVec.ofNat 64 phys ||| flags)
    refine ⟨(s.trans s').mono fun q hq => hq.elim id False.elim, hdone.imp id fun hall q hq => ?_⟩
    rw [← Bool.not_eq_true]
    intro hvac
    have hvac' := s'.back (isPath_way hq) hvac
    simp only [hall q hq] at hvac'
    cases hvac'

/-! ## Counting

The two directions: if the frames are used up, there were no more than were needed, and if the paths are filled, there
were enough.
-/

namespace Spent

variable {vm₀ : Vm σ} {W : List Nat → Prop} {taken : List Nat} {V : List (List Nat)}

/-- When nothing is left, there was no more than what was handed out and what the tables took. -/
theorem full (s : Spent vm₀ vm pml4 W taken) (h₀ : SpaceTree vm₀ pml4) (hfull : ∀ f, ¬Free vm.pmm f)
    (hV : ∀ q, W q → vacant vm₀.mem pml4 q = true → q ∈ V) : ¬Room (taken.length + V.length + 1) vm₀.pmm := by
  rintro ⟨fs, hnodup, hlen, hfree⟩
  have hsub : fs ⊆ taken ++ V.map fun q => (tableAt vm.mem pml4 q).getD 0 := by
    intro f hf
    rcases s.kept (hfree f hf) with hfr | ⟨q, hq, ht⟩ | hmem
    · exact absurd hfr (hfull f)
    · rcases s.new hq ht with hold | ⟨-, hvac, hw⟩
      · exact absurd (hfree f hf) (h₀.apart hq hold)
      · refine List.mem_append_right _ (List.mem_map.2 ⟨q, hV q hw hvac, ?_⟩)
        rw [ht]
        rfl
    · exact List.mem_append_left _ hmem
  have hle := (List.subperm_of_subset hnodup hsub).length_le
  rw [List.length_append, List.length_map] at hle
  omega

/-- Where the vacant paths were filled, there were as many frames. -/
theorem room (s : Spent vm₀ vm pml4 W taken) (hV : V.Nodup)
    (hfilled : ∀ q ∈ V, IsPath q ∧ vacant vm₀.mem pml4 q = true ∧ vacant vm.mem pml4 q = false) :
    Room (taken.length + V.length) vm₀.pmm := by
  have htab : ∀ q ∈ V, ∃ t, tableAt vm.mem pml4 q = some t ∧ Free vm₀.pmm t := by
    intro q hq
    obtain ⟨hpath, hvac, hdone⟩ := hfilled q hq
    rcases s.filled hpath hvac with hvac' | ⟨t, ht⟩
    · rw [hdone] at hvac'
      cases hvac'
    · refine ⟨t, ht, ?_⟩
      rcases s.new hpath ht with hold | ⟨hfree, -, -⟩
      · rw [vacant_none hvac] at hold
        cases hold
      · exact hfree
  refine ⟨taken ++ V.map fun q => (tableAt vm.mem pml4 q).getD 0, ?_, ?_, ?_⟩
  · refine List.nodup_append.2 ⟨s.nodup, ?_, ?_⟩
    · refine List.Nodup.map_on (fun q hq q' hq' heq => ?_) hV
      obtain ⟨t, ht, -⟩ := htab q hq
      obtain ⟨t', ht', -⟩ := htab q' hq'
      rw [ht, ht', Option.getD_some, Option.getD_some] at heq
      exact s.tree.unique (hfilled q hq).1 (hfilled q' hq').1 ht (heq ▸ ht')
    · rintro f hf g hg rfl
      obtain ⟨q, hq, heq⟩ := List.mem_map.1 hg
      obtain ⟨t, ht, -⟩ := htab q hq
      rw [ht, Option.getD_some] at heq
      exact (s.held hf).2.2 q (hfilled q hq).1 (heq ▸ ht)
  · rw [List.length_append, List.length_map]
  · intro f hf
    rcases List.mem_append.1 hf with hmem | hmem
    · exact (s.held hmem).1
    · obtain ⟨q, hq, rfl⟩ := List.mem_map.1 hmem
      obtain ⟨t, ht, hfree⟩ := htab q hq
      rwa [ht]

end Spent

end

end MyUnix.Mm
