import Mathlib.Data.Set.Card
import MyUnix.Mm.TableCount

/-!
# `Mm.FrameCost` — the frames that a mapping takes, exactly

`Mm.TableCount` bounds what a row of calls takes. Here one call of `vmm_map` in the user half is followed frame by
frame: it takes one for every table that is missing on the way to the page, and it fails exactly when the frames that
are free are fewer. `Draws` says which state the page allocator is in after so many calls of `pmm_alloc` that all
succeeded.

The difference to a bound is that the state of the allocator is known: two runs that take the same number of frames
leave the same frames free. This is what a copy of a space needs, where the frames of the copy are those that come
next.
-/

namespace MyUnix.Mm

open Lib PageAlloc PathClass

variable {σ : Type} [PageAlloc σ]

/-- How many frames are free. -/
noncomputable def freeCount (s : σ) : Nat := {f | Free s f}.ncard

/-- The page allocator after `n` calls of `pmm_alloc`. -/
def takeFrames : Nat → σ → σ
  | 0,     s => s
  | n + 1, s => takeFrames n (pmmAlloc s).2

/-- From `s` to `s'` just `n` frames were taken. -/
structure Draws (s s' : σ) (n : Nat) : Prop where
  state : s' = takeFrames n s
  left : freeCount s' + n = freeCount s

/-- A table that is missing costs a frame. -/
def missing (m : ByteMem) (pml4 : Nat) (q : List Nat) : Nat := if (tableAt m pml4 q).isSome then 0 else 1

/-- The frames for the tables that are missing on the way to `va`. -/
def tableCost (m : ByteMem) (pml4 va : Nat) : Nat := ((wayTo va).map (missing m pml4)).sum

/-! ## Counting

The free frames as a finite set, and what a call takes out of it.
-/

section

variable {s s' s'' : σ} {n k : Nat}

theorem freeCount_zero : freeCount s = 0 ↔ ∀ f, ¬Free s f := by
  rw [freeCount, Set.ncard_eq_zero (free_finite s), Set.eq_empty_iff_forall_notMem]
  rfl

theorem freeCount_congr (h : ∀ f, Free s' f ↔ Free s f) : freeCount s' = freeCount s := by
  rw [freeCount, freeCount]
  exact congrArg Set.ncard (Set.ext h)

theorem freeCount_remove {f : Nat} (hf : Free s f) (h : ∀ g, Free s' g ↔ Free s g ∧ g ≠ f) :
    freeCount s' + 1 = freeCount s :=
  ncard_free_remove hf h

theorem Room.le_freeCount (h : Room n s) : n ≤ freeCount s := by
  obtain ⟨fs, hnodup, hlen, hfree⟩ := h
  refine Nat.le_trans hlen ?_
  rw [← List.toFinset_card_of_nodup hnodup, ← Set.ncard_coe_finset]
  refine Set.ncard_le_ncard (fun f hf => hfree f ?_) (free_finite s)
  simpa using hf

theorem takeFrames_add : ∀ (n k : Nat) (s : σ), takeFrames (n + k) s = takeFrames k (takeFrames n s)
  | 0,     k, s => by rw [Nat.zero_add, takeFrames]
  | n + 1, k, s => by rw [Nat.add_right_comm, takeFrames, takeFrames_add n k, takeFrames]

/-- `pmm_alloc` fails when nothing is free. -/
theorem pmmAlloc_zero_iff : (pmmAlloc s).1 = 0 ↔ freeCount s = 0 := by
  constructor
  · intro h0
    exact freeCount_zero.2 (alloc_full h0)
  · intro hnone
    by_contra h0
    exact freeCount_zero.1 hnone _ (alloc_some h0).1

theorem Draws.refl (s : σ) : Draws s s 0 := ⟨rfl, rfl⟩

theorem Draws.trans (h : Draws s s' n) (h' : Draws s' s'' k) : Draws s s'' (n + k) where
  state := by rw [h'.state, h.state, takeFrames_add]
  left := by
    have := h.left
    have := h'.left
    omega

/-- A call that succeeds. -/
theorem Draws.alloc (h : (pmmAlloc s).1 ≠ 0) : Draws s (pmmAlloc s).2 1 where
  state := rfl
  left := freeCount_remove (alloc_some h).1 (alloc_some h).2

end

/-! ## `vmm_get_pte` and `vmm_map`

A level costs one frame or none; which of them is a question about the tables before the call.
-/

section

variable {vm : Vm σ} {pml4 : Nat}

theorem missing_eq {m : ByteMem} {q : List Nat} {t : Nat} (h : tableAt m pml4 q = some t) : missing m pml4 q = 0 := by
  rw [missing, h]
  rfl

theorem missing_none {m : ByteMem} {q : List Nat} (h : tableAt m pml4 q = none) : missing m pml4 q = 1 := by
  rw [missing, h]
  rfl

theorem missing_congr {m m' : ByteMem} {q : List Nat} (h : (tableAt m' pml4 q).isSome ↔ (tableAt m pml4 q).isSome) :
    missing m' pml4 q = missing m pml4 q := by
  rw [missing, missing]
  simp only [h]

/-- The tables of `m'` are those of `m` and tables at the paths of `W`. -/
def AddsTables (m m' : ByteMem) (pml4 : Nat) (W : List Nat → Prop) : Prop :=
  ∀ q, IsPath q → ((tableAt m' pml4 q).isSome ↔ (tableAt m pml4 q).isSome ∨ W q)

/-- **One level** of the walk with `create` takes a frame if the table is missing, and fails if there is none. -/
theorem nextTable_draws (h : TreeInv IsPath vm pml4) {p₀ : List Nat} {t₀ i₀ : Nat} (hp : IsUser (p₀ ++ [i₀]))
    (hlen : p₀.length ≤ 2) (h₀ : tableAt vm.mem pml4 p₀ = some t₀) (flags : Pte) :
    (freeCount vm.pmm < missing vm.mem pml4 (p₀ ++ [i₀]) ∧ (vm.nextTable (slot t₀ i₀) true flags).1 = none) ∨
    (missing vm.mem pml4 (p₀ ++ [i₀]) ≤ freeCount vm.pmm ∧ (vm.nextTable (slot t₀ i₀) true flags).1 ≠ none ∧
      Draws vm.pmm (vm.nextTable (slot t₀ i₀) true flags).2.pmm (missing vm.mem pml4 (p₀ ++ [i₀])) ∧
      AddsTables vm.mem (vm.nextTable (slot t₀ i₀) true flags).2.mem pml4 fun q => q = p₀ ++ [i₀]) := by
  have hnext := h.tree.tableAt_next hp hlen h₀
  rw [entry] at hnext
  rw [Vm.nextTable]
  cases hpres : isPresent (vm.mem.word (slot t₀ i₀)) with
  | true =>
    rw [hpres, if_pos rfl] at hnext
    rw [missing_eq hnext]
    refine .inr ⟨Nat.zero_le _, Option.some_ne_none _, Draws.refl _, fun q _ => ⟨.inl, ?_⟩⟩
    rintro (hsome | rfl)
    · exact hsome
    · rw [Bool.not_true, if_neg (by decide), hnext]
      rfl
  | false =>
    rw [hpres, if_neg (by decide)] at hnext
    rw [missing_none hnext]
    simp only [Bool.not_false, Bool.not_true, Bool.false_eq_true, if_true, if_false]
    by_cases hf : vm.alloc.1 = 0
    · rw [if_pos hf]
      have hnone : freeCount vm.pmm = 0 := pmmAlloc_zero_iff.1 hf
      exact .inl ⟨by omega, rfl⟩
    · rw [if_neg hf]
      have hpos : freeCount vm.pmm ≠ 0 := fun hz => hf (pmmAlloc_zero_iff.2 hz)
      obtain ⟨hmem, hfree, -, -⟩ := alloc_frame vm hf
      obtain ⟨htree, l⟩ := link_of_alloc h hp hlen h₀ hpres hf flags
      have hun : Unused IsPath vm.mem pml4 vm.alloc.1 := fun p hp ht => h.apart hp ht hfree
      refine .inr ⟨by omega, Option.some_ne_none _, Draws.alloc (s := vm.pmm) hf, fun q hq => ?_⟩
      have hold : tableAt vm.alloc.2.mem pml4 q = tableAt vm.mem pml4 q := by
        rw [hmem, agreeOff_clear.tableAt_eq h.tree l.mod hun hq]
      simp only [Option.isSome_iff_exists, l.tableAt_iff htree hq, hold, exists_or, exists_and_left, exists_eq, and_true]

/-- What is missing after another table was made. -/
theorem AddsTables.missing_eq {m m' : ByteMem} {q q' : List Nat} (h : AddsTables m m' pml4 fun r => r = q) (hq' : IsPath q')
    (hne : q' ≠ q) : missing m' pml4 q' = missing m pml4 q' :=
  missing_congr ((h q' hq').trans (or_iff_left hne))

/-- **`vmm_get_pte` with `create`** takes the frames for the tables that are missing, or fails for want of one. -/
theorem vmmGetPte_draws (h : TreeInv IsPath vm pml4) {virt : Nat} (hv : virt < 2 ^ 47) (flags : Pte) :
    (freeCount vm.pmm < tableCost vm.mem pml4 virt ∧ (vm.vmmGetPte pml4 virt true flags).1 = none) ∨
    (tableCost vm.mem pml4 virt ≤ freeCount vm.pmm ∧ (vm.vmmGetPte pml4 virt true flags).1 ≠ none ∧
      Draws vm.pmm (vm.vmmGetPte pml4 virt true flags).2.pmm (tableCost vm.mem pml4 virt) ∧
      AddsTables vm.mem (vm.vmmGetPte pml4 virt true flags).2.mem pml4 (· ∈ wayTo virt)) := by
  have hcost : tableCost vm.mem pml4 virt = missing vm.mem pml4 [pml4Idx virt] +
      (missing vm.mem pml4 [pml4Idx virt, pdptIdx virt] +
        missing vm.mem pml4 [pml4Idx virt, pdptIdx virt, pdIdx virt]) := by
    simp only [tableCost, wayTo, List.map_cons, List.map_nil, List.sum_cons, List.sum_nil, Nat.add_zero]
  have hpath2 : IsPath [pml4Idx virt, pdptIdx virt] := (isUser_pdpt hv).1
  have hpath3 : IsPath [pml4Idx virt, pdptIdx virt, pdIdx virt] := (isUser_pd hv).1
  rw [Vm.vmmGetPte]
  -- the three levels, each of which fails for want of a frame or leaves as many as it has not taken
  obtain ⟨g1, h1⟩ := nextTable_grew h (isUser_pml4 hv) (by simp) tableAt_nil flags
  have d1 := nextTable_draws h (isUser_pml4 hv) (by simp) tableAt_nil flags
  rw [List.nil_append] at h1 d1
  generalize vm.nextTable (slot pml4 (pml4Idx virt)) true flags = r1 at *
  obtain ⟨_ | pdpt, vm1⟩ := r1
  · rcases d1 with ⟨hfew, -⟩ | ⟨-, hne, -⟩
    · exact .inl ⟨by omega, rfl⟩
    · exact absurd rfl hne
  rcases d1 with ⟨-, hnone⟩ | ⟨hle1, -, d1, a1⟩
  · cases hnone
  have hpdpt := h1 pdpt rfl
  obtain ⟨g2, h2⟩ := nextTable_grew g1.inv (isUser_pdpt hv) (by simp) hpdpt flags
  have d2 := nextTable_draws g1.inv (isUser_pdpt hv) (by simp) hpdpt flags
  have m2 := a1.missing_eq hpath2 (by simp)
  rw [List.singleton_append] at h2 d2
  simp only at d1 d2 h2 m2
  rw [m2] at d2
  simp only
  generalize vm1.nextTable (slot pdpt (pdptIdx virt)) true flags = r2 at *
  have hleft1 := d1.left
  obtain ⟨_ | pd, vm2⟩ := r2
  · rcases d2 with ⟨hfew, -⟩ | ⟨-, hne, -⟩
    · exact .inl ⟨by omega, rfl⟩
    · exact absurd rfl hne
  rcases d2 with ⟨-, hnone⟩ | ⟨hle2, -, d2, a2⟩
  · cases hnone
  have hpd := h2 pd rfl
  simp only [pde_not_huge g2.inv.tree hv hpd, Bool.false_eq_true, if_false]
  have d3 := nextTable_draws g2.inv (isUser_pd hv) (by simp) hpd flags
  have m3 := (a2.missing_eq hpath3 (by simp)).trans (a1.missing_eq hpath3 (by simp))
  rw [List.cons_append, List.singleton_append] at d3
  simp only at d2 d3 m3
  rw [m3] at d3
  generalize vm2.nextTable (slot pd (pdIdx virt)) true flags = r3 at *
  have hleft2 := d2.left
  obtain ⟨_ | pt, vm3⟩ := r3
  · rcases d3 with ⟨hfew, -⟩ | ⟨-, hne, -⟩
    · exact .inl ⟨by omega, rfl⟩
    · exact absurd rfl hne
  rcases d3 with ⟨-, hnone⟩ | ⟨hle3, -, d3, a3⟩
  · cases hnone
  refine .inr ⟨by omega, Option.some_ne_none _, ?_, fun q hq => ?_⟩
  · rw [hcost, ← Nat.add_assoc]
    exact (d1.trans d2).trans d3
  · rw [a3 q hq, a2 q hq, a1 q hq]
    simp only [wayTo, List.mem_cons, List.not_mem_nil, or_false, or_assoc]

/-- **`vmm_map`** fails when the frames do not suffice for the tables; else it takes what they cost, and stores the
    entry. -/
theorem vmmMap_draws (h : TreeInv IsPath vm pml4) {virt phys : Nat} (hv : virt < 2 ^ 47) (hal : virt % pageSize = 0)
    (hphys : phys % pageSize = 0) (flags : Pte) :
    (freeCount vm.pmm < tableCost vm.mem pml4 virt ∧ Grew IsPath vm (vm.vmmMap pml4 virt phys flags).2 pml4 ∧
      ∀ f, ¬Free (vm.vmmMap pml4 virt phys flags).2.pmm f) ∨
    (tableCost vm.mem pml4 virt ≤ freeCount vm.pmm ∧ ∃ vm₁ t, Grew IsPath vm vm₁ pml4 ∧
      tableAt vm₁.mem pml4 (ptPath virt) = some t ∧
      (vm.vmmMap pml4 virt phys flags).2 = vm₁.store (slot t (ptIdx virt)) (BitVec.ofNat 64 phys ||| flags) ∧
      Draws vm.pmm vm₁.pmm (tableCost vm.mem pml4 virt) ∧ AddsTables vm.mem vm₁.mem pml4 (· ∈ wayTo virt)) := by
  rw [Vm.vmmMap, if_neg (by omega)]
  obtain ⟨g, hfull, hpte⟩ := vmmGetPte_create h hv flags
  have hdraws := vmmGetPte_draws h hv flags
  generalize vm.vmmGetPte pml4 virt true flags = r at *
  obtain ⟨_ | a, vm₁⟩ := r
  · rcases hdraws with ⟨hfew, -⟩ | ⟨-, hne, -⟩
    · exact .inl ⟨hfew, g, hfull rfl⟩
    · exact absurd rfl hne
  · rcases hdraws with ⟨-, hnone⟩ | ⟨hle, -, hd, hadds⟩
    · cases hnone
    · obtain ⟨t, ht, rfl⟩ := hpte a rfl
      exact .inr ⟨hle, vm₁, t, g, ht, rfl, hd, hadds⟩

end

end MyUnix.Mm
