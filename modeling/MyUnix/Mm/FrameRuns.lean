import MyUnix.Mm.Clone

/-!
# `Mm.FrameRuns` — `pmm_alloc_n` and `pmm_free_n`

A kernel stack is a run of frames. `RunAlloc` says what is relied on where one is taken: the frames were free, and just
these are not any more. While it is there no space changes, and `pmm_free_n` gives it back whole.

`PageAlloc` of `Mm.Vmm` speaks of single frames, which is all that page tables need. The lemmas here are the
counterpart for runs: a run that was free is disjoint from every table of every space, clearing it changes no
translation, and after it was given back the same frames are free as if it had never been taken, less those that
others took meanwhile (`run_returned`).
-/

namespace MyUnix.Mm

open Lib PageAlloc

/-- A page allocator that also gives out runs of frames. -/
class RunAlloc (σ : Type) extends PageAlloc σ where
  pmmAllocN : σ → Nat → Nat × σ
  allocN_managed {s n f} : Managed (pmmAllocN s n).2 f ↔ Managed s f
  allocN_none {s n} : (pmmAllocN s n).1 = 0 → ∀ f, Free (pmmAllocN s n).2 f ↔ Free s f
  allocN_some {s n} : (pmmAllocN s n).1 ≠ 0 → (∀ i < n, Free s ((pmmAllocN s n).1 + i * pageSize)) ∧
    ∀ f, Free (pmmAllocN s n).2 f ↔ Free s f ∧ ∀ i < n, f ≠ (pmmAllocN s n).1 + i * pageSize

open RunAlloc

namespace SoundPmm

/-- What `pmm_alloc_n` leaves is in order. -/
theorem allocN_sound (s : SoundPmm) (n : Nat) : ZeroUsed (s.1.pmmAllocN n).2 ∧ (s.1.pmmAllocN n).2.totalPages ≤ 2 ^ 40 ∧
    Counted (s.1.pmmAllocN n).2 := by
  rcases s.1.pmmAllocN_spec s.2.1 n with h | ⟨f, s', h, hf, ht⟩
  · rw [h]
    exact s.2
  · have hcount := s.2.2.2.pmmAllocN n
    rw [h] at hcount ⊢
    refine ⟨fun hpos => ?_, ht.total ▸ s.2.2.1, hcount⟩
    rw [ht.total] at hpos
    rw [ht.test, s.2.1 hpos, Bool.or_true]

end SoundPmm

instance : RunAlloc SoundPmm where
  pmmAllocN s n := ((s.1.pmmAllocN n).1, ⟨(s.1.pmmAllocN n).2, s.allocN_sound n⟩)
  allocN_managed {s n f} := by
    show (_ ∧ _ ∧ _ < (s.1.pmmAllocN n).2.totalPages) ↔ _
    rcases s.1.pmmAllocN_spec s.2.1 n with h | ⟨g, s', h, -, ht⟩
    · rw [h]
      exact Iff.rfl
    · rw [h]
      simp only [ht.total]
      exact Iff.rfl
  allocN_none {s n} h0 f := by
    rcases s.1.pmmAllocN_spec s.2.1 n with h | ⟨g, s', h, hg, -⟩
    · show (_ ∧ _ < (s.1.pmmAllocN n).2.totalPages ∧ (s.1.pmmAllocN n).2.bitmapTest _ = false) ↔ _
      rw [h]
      exact Iff.rfl
    · have hzero : g * pageSize = 0 := by
        rw [← h0]
        exact (congrArg Prod.fst h).symm
      exact absurd hzero (Nat.mul_ne_zero hg (by decide))
  allocN_some {s n} h0 := by
    rcases s.1.pmmAllocN_spec s.2.1 n with h | ⟨g, s', h, hg, ht⟩
    · exact absurd (congrArg Prod.fst h) h0
    · show (∀ i < n, Free s ((s.1.pmmAllocN n).1 + i * pageSize)) ∧
        ∀ f, (_ ∧ _ < (s.1.pmmAllocN n).2.totalPages ∧ (s.1.pmmAllocN n).2.bitmapTest _ = false) ↔
          _ ∧ ∀ i < n, f ≠ (s.1.pmmAllocN n).1 + i * pageSize
      rw [h]
      simp only [← Nat.add_mul]
      refine ⟨fun i hi => ⟨Nat.mul_mod_left _ _, ?_, ?_⟩, fun f => ?_⟩
      · rw [Nat.mul_div_cancel _ (by decide)]
        exact ht.lt _ (List.mem_range'_1.2 (by omega))
      · rw [Nat.mul_div_cancel _ (by decide)]
        exact ht.free _ (List.mem_range'_1.2 (by omega))
      · show (f % pageSize = 0 ∧ f / pageSize < s'.totalPages ∧ s'.bitmapTest (f / pageSize) = false) ↔
          (f % pageSize = 0 ∧ f / pageSize < s.1.totalPages ∧ s.1.bitmapTest (f / pageSize) = false) ∧ _
        rw [ht.total, ht.test, Bool.or_eq_false_iff, decide_eq_false_iff_not, List.mem_range'_1]
        constructor
        · rintro ⟨hal, hlt, hout, hb⟩
          refine ⟨⟨hal, hlt, hb⟩, ?_⟩
          rintro i hi rfl
          rw [Nat.mul_div_cancel _ (by decide)] at hout
          exact hout ⟨Nat.le_add_right _ _, by omega⟩
        · rintro ⟨⟨hal, hlt, hb⟩, hne⟩
          refine ⟨hal, hlt, fun ⟨hle, hend⟩ => hne (f / pageSize - g) (by omega) ?_, hb⟩
          rw [Nat.add_sub_cancel' hle, Nat.div_mul_cancel (Nat.dvd_of_mod_eq_zero hal)]

variable {σ : Type} [RunAlloc σ]

namespace Vm

variable (vm : Vm σ)

/-- `pmm_alloc_n`, which also clears the frames. -/
def allocN (n : Nat) : Nat × Vm σ :=
  let (phys, pmm) := pmmAllocN vm.pmm n
  (phys, { mem := if phys = 0 then vm.mem else vm.mem.write phys (List.replicate (n * pageSize) 0), pmm })

/-- `pmm_free_n`; `none` is the double-free panic. -/
def freeN (phys n : Nat) : Option (Vm σ) :=
  (((List.range n).map fun i => (phys + i * pageSize) % 2 ^ 64).foldlM freeFrame (vm, [])).map Prod.fst

end Vm

section

variable {vm vm' : Vm σ} {kernelPml4 n : Nat} {L : Nat → Prop}

/-- No run of frames, and nothing happened. -/
theorem allocN_zero (h0 : (vm.allocN n).1 = 0) : Undisturbed vm (vm.allocN n).2 kernelPml4 L ∧
    GivesBack vm.pmm (vm.allocN n).2.pmm True := by
  have hmem : (vm.allocN n).2.mem = vm.mem := if_pos h0
  have hsame : ∀ p, TablesKept vm.mem (vm.allocN n).2.mem p := by
    intro p q t _ _ o _
    rw [hmem]
  exact ⟨⟨hsame _, fun _ => hsame _, fun {f} => (allocN_none h0 f).1, allocN_managed⟩, .same (allocN_none h0)⟩

/-- A run of frames: none of them is a table. -/
theorem allocN_undisturbed (a : Apart vm kernelPml4 L) (h0 : (vm.allocN n).1 ≠ 0) :
    Undisturbed vm (vm.allocN n).2 kernelPml4 L := by
  obtain ⟨hfree, hfree'⟩ := @allocN_some σ _ vm.pmm n h0
  have hmem : (vm.allocN n).2.mem = vm.mem.write (vm.allocN n).1 (List.replicate (n * pageSize) 0) := if_neg h0
  have hphys : (pmmAllocN vm.pmm n).1 = (vm.allocN n).1 := rfl
  rw [hphys] at hfree
  have hkept : ∀ {p}, p % pageSize = 0 → (∀ {q t}, IsPath q → tableAt vm.mem p q = some t → ¬Free vm.pmm t) →
      TablesKept vm.mem (vm.allocN n).2.mem p := by
    intro p hal hused q t hq ht o ho
    have hmod := tableAt_mod hal ht
    rw [hmem]
    apply ByteMem.write_out
    rw [List.length_replicate]
    by_contra hin
    -- the byte would be in a frame of the run
    have hpos : 0 < n := by
      rcases Nat.eq_zero_or_pos n with rfl | hpos
      · omega
      · exact hpos
    have hbase := (managed_spec (managed_of_free (hfree 0 hpos))).2.1
    refine hused hq ht ?_
    have hidx : t = (vm.allocN n).1 + (t - (vm.allocN n).1) / pageSize * pageSize ∧
        (t - (vm.allocN n).1) / pageSize < n := by
      generalize (vm.allocN n).1 = base at *
      rw [pageSize] at *
      omega
    rw [hidx.1]
    exact hfree _ hidx.2
  exact {
    kernel := hkept a.kernel.aligned fun hq ht => a.kernel.used hq ht
    kept := fun {p} hp => hkept (a.space hp).tree.tree.aligned fun hq ht => (a.space hp).tree.apart hq ht
    free := fun {f} hf => ((hfree' f).1 hf).1
    managed := allocN_managed }

/-- **`pmm_free_n`** gives back a run of frames that are in use. -/
theorem freeN_spec {phys : Nat} (hrun : ∀ i < n, Managed vm.pmm (phys + i * pageSize) ∧ ¬Free vm.pmm (phys + i * pageSize)) :
    ∃ pmm, vm.freeN phys n = some { vm with pmm } ∧ (∀ f, Managed pmm f ↔ Managed vm.pmm f) ∧
      ∀ f, Free pmm f ↔ Free vm.pmm f ∨ ∃ i < n, f = phys + i * pageSize := by
  have hwrap : ((List.range n).map fun i => (phys + i * pageSize) % 2 ^ 64) =
      (List.range n).map fun i => phys + i * pageSize := by
    refine List.map_congr_left fun i hi => Nat.mod_eq_of_lt ?_
    exact Nat.lt_trans (managed_spec (hrun i (List.mem_range.1 hi)).1).2.2 (by decide)
  have hnodup : ((List.range n).map fun i => phys + i * pageSize).Nodup := by
    refine List.nodup_range.map fun i j hij => ?_
    simp only [pageSize] at hij
    omega
  obtain ⟨pmm, hout, hman, hfree⟩ := @freeFrames σ _ ((List.range n).map fun i => phys + i * pageSize) vm [] hnodup (by
    intro f hf
    obtain ⟨i, hi, rfl⟩ := List.mem_map.1 hf
    exact (hrun i (List.mem_range.1 hi)).2)
  refine ⟨pmm, ?_, hman, fun f => ?_⟩
  · rw [Vm.freeN, hwrap, hout]
    rfl
  · rw [hfree]
    refine or_congr_right ⟨?_, ?_⟩
    · rintro ⟨hmem, -⟩
      obtain ⟨i, hi, rfl⟩ := List.mem_map.1 hmem
      exact ⟨i, List.mem_range.1 hi, rfl⟩
    · rintro ⟨i, hi, rfl⟩
      exact ⟨List.mem_map.2 ⟨i, List.mem_range.2 hi, rfl⟩, (hrun i hi).1⟩

/-- A run is taken, the heap takes frames, and the run is given back: what is missing then is what the heap took. -/
theorem run_returned (a : Apart vm kernelPml4 L) (h0 : (vm.allocN n).1 ≠ 0) (k : Nat) :
    ∃ vm', ((vm.allocN n).2.heapTake k).freeN (vm.allocN n).1 n = some vm' ∧ Undisturbed vm vm' kernelPml4 L ∧
      GivesBack vm.pmm vm'.pmm (Spares k (vm.allocN n).2.pmm) := by
  obtain ⟨hfree, hfree'⟩ := @allocN_some σ _ vm.pmm n h0
  have hu := allocN_undisturbed a h0
  have hheap := heapTake_undisturbed k (hu.apart a)
  have hspares := (heapTake_givesBack (hu.apart a) k).2
  have hall := hu.trans hheap
  have hpmm : (vm.allocN n).2.pmm = (pmmAllocN vm.pmm n).2 := rfl
  have hphys : (pmmAllocN vm.pmm n).1 = (vm.allocN n).1 := rfl
  rw [← hpmm, hphys] at hfree'
  rw [hphys] at hfree
  generalize (vm.allocN n).1 = phys at *
  generalize (vm.allocN n).2 = vm₁ at *
  generalize vm₁.heapTake k = vm₂ at *
  obtain ⟨pmm, hout, hman, hback⟩ := @freeN_spec σ _ vm₂ n phys fun i hi =>
    ⟨hall.managed.2 (managed_of_free (hfree i hi)), fun hf => ((hfree' _).1 (hheap.free hf)).2 i hi rfl⟩
  have hsub : ∀ f, Free pmm f → Free vm.pmm f := by
    intro f hf
    rcases (hback f).1 hf with hf | ⟨i, hi, rfl⟩
    · exact hall.free hf
    · exact hfree i hi
  refine ⟨_, hout, ?_, hsub, ?_⟩
  · exact {
      kernel := hall.kernel
      kept := hall.kept
      free := fun {f} => hsub f
      managed := fun {f} => (hman f).trans hall.managed }
  · rw [← hspares]
    constructor
    · intro hall' f hf
      obtain ⟨hwas, hne⟩ := (hfree' f).1 hf
      rcases (hback f).1 (hall' f hwas) with hf | ⟨i, hi, rfl⟩
      · exact hf
      · exact absurd rfl (hne i hi)
    · intro hkeep f hf
      apply (hback f).2
      by_cases hin : ∃ i < n, f = phys + i * pageSize
      · exact .inr hin
      · exact .inl (hkeep f ((hfree' f).2 ⟨hf, fun i hi heq => hin ⟨i, hi, heq⟩⟩))

end

end MyUnix.Mm
