import MyUnix.Mm.PmmRun
import Mathlib.Data.Finset.Card

/-!
# `Mm.PmmCount` — the counters of the frame allocator

`g_free_pages`, `g_used_pages` and `g_alloc_hint` are kept beside the bitmap, by seven operations with any
arguments: regions that overlap, are not aligned or lie beyond the last frame, frees of frames nobody asked for.
Each of them changes the bitmap one frame at a time and only a frame that is not already in the target state, so
it is enough that `take` of a free frame and `release` of a used one keep the counts (`Counted.take`,
`Counted.release`); every loop is then an induction over the frames it visits.

The counters are `uint64_t` and are changed by plain `++` and `--`. They cannot wrap as long as they are right,
because the number of frames is below `2 ^ 64` (`Counted.bound`), and they stay right because every `++` and `--`
stands behind a test of the bit that it is about. The free of a frame that is free already panics before it comes to
the counter, so it is a run that ends.

Initialisation needs one thing more: it counts up from 0 over bits that `memset` has set, so the part of the bitmap
that was filled must hold a bit for every frame.
-/

namespace MyUnix.Mm

open Lib

namespace Pmm

/-- The free frames: the clear bits below `g_total_pages`. -/
def freeFrames (s : Pmm) : Finset Nat := (Finset.range s.totalPages).filter fun x => s.bitmapTest x = false

theorem mem_freeFrames {s : Pmm} {x : Nat} : x ∈ s.freeFrames ↔ x < s.totalPages ∧ s.bitmapTest x = false := by
  simp [freeFrames]

theorem freeFrames_card_le (s : Pmm) : s.freeFrames.card ≤ s.totalPages := by
  have h := Finset.card_filter_le (Finset.range s.totalPages) fun x => s.bitmapTest x = false
  rwa [Finset.card_range] at h

theorem freeFrames_take {s : Pmm} {f : Nat} : (s.take f).freeFrames = s.freeFrames.erase f := by
  ext x
  rw [Finset.mem_erase, mem_freeFrames, mem_freeFrames, bitmapTest_take, totalPages_take]
  by_cases hx : x = f
  · simp [hx]
  · simp [hx]

theorem freeFrames_release {s : Pmm} {f : Nat} (hlt : f < s.totalPages) :
    (s.release f).freeFrames = insert f s.freeFrames := by
  ext x
  rw [Finset.mem_insert, mem_freeFrames, mem_freeFrames, bitmapTest_release, totalPages_release]
  by_cases hx : x = f
  · simp [hx, hlt]
  · simp [hx]

end Pmm

/-- **The counters tell the truth.** `bound` is what keeps them from wrapping. -/
structure Counted (s : Pmm) : Prop where
  bound : s.totalPages ≤ 2 ^ 52
  free  : s.freePages.toNat = s.freeFrames.card
  sum   : s.freePages.toNat + s.usedPages.toNat = s.totalPages
  hint  : s.allocHint < s.totalPages ∨ s.allocHint = 0

namespace Counted

variable {s s' : Pmm} {f : Nat}

/-- Only the hint differs. -/
theorem withHint (h : Counted s) {hint : Nat} (hh : hint < s.totalPages ∨ hint = 0) :
    Counted { s with allocHint := hint } := ⟨h.bound, h.free, h.sum, hh⟩

/-- A free frame is taken. -/
theorem take (h : Counted s) (hlt : f < s.totalPages) (hfree : s.bitmapTest f = false) : Counted (s.take f) := by
  have hmem : f ∈ s.freeFrames := Pmm.mem_freeFrames.mpr ⟨hlt, hfree⟩
  have hcard := Finset.card_erase_of_mem hmem
  have hpos := Finset.card_pos.mpr ⟨f, hmem⟩
  have hle := s.freeFrames_card_le
  obtain ⟨hb, hf, hs, hh⟩ := h
  have hfree' : (s.freePages - 1#64).toNat = s.freePages.toNat - 1 := by
    rw [BitVec.toNat_sub]
    have := s.freePages.isLt
    simp only [BitVec.toNat_ofNat]
    omega
  have hused' : (s.usedPages + 1#64).toNat = s.usedPages.toNat + 1 := by
    rw [BitVec.toNat_add]
    simp only [BitVec.toNat_ofNat]
    omega
  refine ⟨hb, ?_, ?_, hh⟩
  · rw [Pmm.freeFrames_take, hcard]
    show (s.freePages - 1#64).toNat = s.freeFrames.card - 1
    omega
  · show (s.freePages - 1#64).toNat + (s.usedPages + 1#64).toNat = s.totalPages
    omega

/-- A used frame is released. -/
theorem release (h : Counted s) (hlt : f < s.totalPages) (hused : s.bitmapTest f = true) : Counted (s.release f) := by
  have hmem : f ∉ s.freeFrames := by
    rw [Pmm.mem_freeFrames, hused]
    simp
  have hcard := Finset.card_insert_of_notMem hmem
  -- with `f` the free frames are still frames, so before it there was a used one to count down
  have hle := (s.release f).freeFrames_card_le
  rw [Pmm.freeFrames_release hlt, hcard, Pmm.totalPages_release] at hle
  obtain ⟨hb, hf, hs, hh⟩ := h
  have hfree' : (s.freePages + 1#64).toNat = s.freePages.toNat + 1 := by
    rw [BitVec.toNat_add]
    simp only [BitVec.toNat_ofNat]
    omega
  have hused' : (s.usedPages - 1#64).toNat = s.usedPages.toNat - 1 := by
    rw [BitVec.toNat_sub]
    have := s.usedPages.isLt
    simp only [BitVec.toNat_ofNat]
    omega
  refine ⟨hb, ?_, ?_, hh⟩
  · rw [Pmm.freeFrames_release hlt, hcard]
    show (s.freePages + 1#64).toNat = s.freeFrames.card + 1
    omega
  · show (s.freePages + 1#64).toNat + (s.usedPages - 1#64).toNat = s.totalPages
    omega

/-! ## The operations

One lemma for each of the seven, with any arguments.
-/

theorem pmmReserveRegion (h : Counted s) (base size : Nat) : Counted (s.pmmReserveRegion base size) := by
  unfold Pmm.pmmReserveRegion
  induction Pmm.pagesBetween (alignDown base) (alignUp ((base + size) % 2 ^ 64)) generalizing s with
  | nil => exact h
  | cons pfn pfns ih =>
      rw [List.foldl_cons]
      apply ih
      split
      · rename_i hc
        exact h.take hc.1 hc.2
      · exact h

theorem pmmAddRegion (h : Counted s) (base size : Nat) : Counted (s.pmmAddRegion base size) := by
  unfold Pmm.pmmAddRegion
  induction Pmm.pagesBetween (alignUp base) (alignDown ((base + size) % 2 ^ 64)) generalizing s with
  | nil => exact h
  | cons pfn pfns ih =>
      rw [List.foldl_cons]
      apply ih
      split
      · rename_i hc
        exact h.release hc.1 hc.2
      · exact h

theorem pmmAlloc (h : Counted s) : Counted s.pmmAlloc.2 := by
  unfold Pmm.pmmAlloc
  split
  · exact h
  · simp only []
    split
    · exact h
    · rename_i pfn hscan
      have hpfn : s.bitmapTest pfn = false ∧ pfn < s.totalPages := by
        rcases Option.or_eq_some_iff.mp hscan with hs | ⟨-, hs⟩
        · exact Pmm.scanWords_spec hs
        · exact Pmm.scanWords_spec hs
      refine (h.take hpfn.2 hpfn.1).withHint ?_
      show (if s.totalPages ≤ pfn + 1 then 0 else pfn + 1) < s.totalPages ∨ _
      split
      · exact Or.inr rfl
      · left
        omega

/-- **`pmm_alloc` fails only when nothing is free.** -/
theorem pmmAlloc_full (h : Counted s) (hz : ZeroUsed s) (h0 : s.pmmAlloc.1 = 0) {x : Nat} (hx : x < s.totalPages) :
    s.bitmapTest x = true := by
  rw [← Bool.not_eq_false]
  intro hfree
  have hmem : x ∈ s.freeFrames := Pmm.mem_freeFrames.mpr ⟨hx, hfree⟩
  have hcount : s.freePages ≠ 0#64 := by
    intro hz
    have hcard := h.free
    rw [hz] at hcard
    exact Finset.notMem_empty x (Finset.card_eq_zero.mp hcard.symm ▸ hmem)
  -- one of the two passes looks at the word of `x`
  have hscan : (s.scanWords (s.allocHint / 64) ((s.totalPages + 63) / 64)).or (s.scanWords 0 (s.allocHint / 64)) ≠
      none := by
    intro hnone
    obtain ⟨h1, h2⟩ := Option.or_eq_none_iff.mp hnone
    have hused : s.bitmapTest x = true := by
      by_cases hw : x / 64 < s.allocHint / 64
      · exact Pmm.scanWords_none h2 (Nat.zero_le _) hw hx
      · exact Pmm.scanWords_none h1 (Nat.not_lt.mp hw) (by omega) hx
    rw [hfree] at hused
    cases hused
  obtain ⟨pfn, hpfn⟩ := Option.ne_none_iff_exists'.mp hscan
  have hspec : s.bitmapTest pfn = false := by
    rcases Option.or_eq_some_iff.mp hpfn with hs | ⟨-, hs⟩
    · exact (Pmm.scanWords_spec hs).1
    · exact (Pmm.scanWords_spec hs).1
  rw [Pmm.pmmAlloc, if_neg hcount] at h0
  simp only [hpfn] at h0
  obtain rfl : pfn = 0 := by
    rw [pageSize] at h0
    omega
  rw [hz (by omega)] at hspec
  cases hspec

theorem pmmAllocZone (h : Counted s) (zone : Zone) : Counted (s.pmmAllocZone zone).2 := by
  unfold Pmm.pmmAllocZone
  split
  · exact h.pmmAlloc
  · split
    · exact h
    · rename_i pfn hfind
      have hmem := List.mem_of_find?_eq_some hfind
      have hfree := List.find?_some hfind
      rw [List.mem_range'_1] at hmem
      exact h.take (by omega) (by simpa using hfree)

/-- Taking different free frames one after the other. -/
theorem foldl_take (h : Counted s) {fs : List Nat} (hnd : fs.Nodup)
    (hfree : ∀ f ∈ fs, f < s.totalPages ∧ s.bitmapTest f = false) : Counted (fs.foldl Pmm.take s) := by
  induction fs generalizing s with
  | nil => exact h
  | cons f fs ih =>
      obtain ⟨hnot, hnd⟩ := List.nodup_cons.mp hnd
      obtain ⟨hlt, hbit⟩ := hfree f List.mem_cons_self
      rw [List.foldl_cons]
      refine ih (h.take hlt hbit) hnd fun g hg => ?_
      obtain ⟨hglt, hgbit⟩ := hfree g (List.mem_cons_of_mem f hg)
      have hne : g ≠ f := fun e => hnot (e ▸ hg)
      refine ⟨hglt, ?_⟩
      rw [Pmm.bitmapTest_take, hgbit]
      simp [hne]

theorem pmmAllocN (h : Counted s) (n : Nat) : Counted (s.pmmAllocN n).2 := by
  unfold Pmm.pmmAllocN
  split
  · exact h
  split
  · exact h.pmmAlloc
  split
  · exact h
  split
  · exact h
  · rename_i hn0 _ _ start hfind
    obtain ⟨h1, h2, h3⟩ := Pmm.findRun_spec hfind (by omega) (Nat.le_refl 1) (fun h0 => absurd h0 (by simp))
      (fun i hi => absurd hi (by simp))
    refine h.foldl_take List.nodup_range' fun f hf => ?_
    rw [List.mem_range'_1] at hf
    have := h3 (f - start) (by omega)
    rw [Nat.add_sub_cancel' hf.1] at this
    exact ⟨by omega, this⟩

theorem pmmFree (h : Counted s) {phys : Nat} (hf : s.pmmFree phys = some s') : Counted s' := by
  unfold Pmm.pmmFree at hf
  split at hf
  · cases hf
    exact h
  simp only [] at hf
  split at hf
  · cases hf
    exact h
  split at hf
  · cases hf
  · rename_i hpfn hbit
    cases hf
    rw [not_or, Nat.not_le] at hpfn
    refine (h.release hpfn.2 (by simpa using hbit)).withHint ?_
    show (if phys / pageSize < s.allocHint then phys / pageSize else s.allocHint) < s.totalPages ∨
      (if phys / pageSize < s.allocHint then phys / pageSize else s.allocHint) = 0
    split
    · exact Or.inl hpfn.2
    · exact h.hint

theorem pmmFreeN (h : Counted s) {phys n : Nat} (hf : s.pmmFreeN phys n = some s') : Counted s' := by
  unfold Pmm.pmmFreeN at hf
  generalize List.range n = is at hf
  induction is generalizing s with
  | nil =>
      cases hf
      exact h
  | cons i is ih =>
      rw [List.foldlM_cons] at hf
      obtain ⟨t, ht, hrest⟩ := Option.bind_eq_some_iff.mp hf
      exact ih (h.pmmFree ht) hrest

/-- **Initialisation** counts right, where the part of the bitmap it fills has a bit for every frame. -/
theorem pmmInit {info : BootInfo} {garbage : Nat → BitVec 64} (hi : pmmInitFromMultiboot info garbage = some s)
    (hcover : s.totalPages ≤ 8 * bitmapBytes s.totalPages) : Counted s := by
  have hbound := (pmmInit_spec hi).1
  unfold pmmInitFromMultiboot at hi
  split at hi
  · cases hi
  · rename_i entries hentries
    simp only [Option.some.injEq] at hi
    have hadd : ∀ (rs : List (Nat × Nat)) {s : Pmm}, Counted s →
        Counted (rs.foldl (fun s r => s.pmmAddRegion r.1 r.2) s) := by
      intro rs
      induction rs with
      | nil => exact fun h => h
      | cons r rs ih => exact fun h => ih (h.pmmAddRegion r.1 r.2)
    have hreserve : ∀ (rs : List (Nat × Nat)) {s : Pmm}, Counted s →
        Counted (rs.foldl (fun s r => s.pmmReserveRegion r.1 r.2) s) := by
      intro rs
      induction rs with
      | nil => exact fun h => h
      | cons r rs ih => exact fun h => ih (h.pmmReserveRegion r.1 r.2)
    have htotal : s.totalPages = maxPhys entries / pageSize := by
      rw [← hi, (Pmm.foldl_reserveRegion_spec _ _).1, Pmm.foldl_addRegion_total]
    rw [htotal] at hcover hbound
    rw [← hi]
    apply hreserve
    apply hadd
    generalize maxPhys entries / pageSize = total at hcover hbound
    refine ⟨hbound, ?_, ?_, Or.inr rfl⟩
    · rw [eq_comm, BitVec.toNat_ofNat, Nat.zero_mod, Finset.card_eq_zero, Finset.eq_empty_iff_forall_notMem]
      intro x hx
      obtain ⟨hlt, hbit⟩ := Pmm.mem_freeFrames.mp hx
      have hword : x / 64 < bitmapBytes total / 8 := by
        have hlt' : x < total := hlt
        unfold bitmapBytes alignUp alignDown pageSize at *
        omega
      rw [Pmm.bitmapTest_eq] at hbit
      simp only [if_pos hword] at hbit
      have hm : x % 64 < 64 := Nat.mod_lt _ (by decide)
      rw [BitVec.getLsbD_allOnes, decide_eq_true hm] at hbit
      cases hbit
    · show (0#64).toNat + (BitVec.ofNat 64 total).toNat = total
      rw [BitVec.toNat_ofNat, BitVec.toNat_ofNat]
      omega

end Counted

/-! ## Runs

The calls of a run are any calls, also such as no caller would make: regions are added and reserved again after boot,
frames are freed that were never handed out.
-/

/-- A call of the allocator. -/
inductive PmmCall where
  | alloc
  | allocZone (zone : Zone)
  | allocN (n : Nat)
  | free (phys : Nat)
  | freeN (phys n : Nat)
  | reserveRegion (base size : Nat)
  | addRegion (base size : Nat)

/-- One call with any arguments; `none` is the double-free panic. -/
def pmmCall (s : Pmm) : PmmCall → Option Pmm
  | .alloc => some s.pmmAlloc.2
  | .allocZone zone => some (s.pmmAllocZone zone).2
  | .allocN n => some (s.pmmAllocN n).2
  | .free phys => s.pmmFree phys
  | .freeN phys n => s.pmmFreeN phys n
  | .reserveRegion base size => some (s.pmmReserveRegion base size)
  | .addRegion base size => some (s.pmmAddRegion base size)

/-- **One call** keeps the counters true. -/
theorem Counted.call {s s' : Pmm} (h : Counted s) {c : PmmCall} (hs : pmmCall s c = some s') : Counted s' := by
  cases c with
  | alloc =>
      cases hs
      exact h.pmmAlloc
  | allocZone zone =>
      cases hs
      exact h.pmmAllocZone zone
  | allocN n =>
      cases hs
      exact h.pmmAllocN n
  | free phys => exact h.pmmFree hs
  | freeN phys n => exact h.pmmFreeN hs
  | reserveRegion base size =>
      cases hs
      exact h.pmmReserveRegion base size
  | addRegion base size =>
      cases hs
      exact h.pmmAddRegion base size

/-- **The counters after any run**: `g_free_pages` is the number of clear bits below `g_total_pages`, the two
    counters add up to `g_total_pages`, and the hint is a frame number or 0. -/
theorem pmm_counters_exact (info : BootInfo) (garbage : Nat → BitVec 64) (s₀ s : Pmm) (calls : List PmmCall)
    (hinit : pmmInitFromMultiboot info garbage = some s₀)
    (hcover : s₀.totalPages ≤ 8 * bitmapBytes s₀.totalPages) (hrun : Run (Graph pmmCall) s₀ calls s) :
    s.freePages.toNat = ((Finset.range s.totalPages).filter fun x => s.bitmapTest x = false).card ∧
    s.freePages.toNat + s.usedPages.toNat = s.totalPages ∧
    (s.allocHint < s.totalPages ∨ s.allocHint = 0) := by
  have hinv : Counted s := by
    refine hrun.invariant Counted (Counted.pmmInit hinit hcover) ?_
    intro s c t hs hstep
    exact hs.call hstep
  exact ⟨hinv.free, hinv.sum, hinv.hint⟩

/-- On the small machine, with a region given back that overlaps frames in use and the end of memory. -/
theorem pmm_counters_exact_small :
    ∃ s₀ s, pmmInitFromMultiboot smallMachine (fun _ => 0#64) = some s₀ ∧
      Run (Graph pmmCall) s₀ [.alloc, .allocN 3, .addRegion 0x102800 0x100000, .reserveRegion 0x104001 1] s ∧
      s.freePages.toNat = ((Finset.range s.totalPages).filter fun x => s.bitmapTest x = false).card := by
  obtain ⟨s₀, hs₀⟩ := Option.isSome_iff_exists.mp
    (show (pmmInitFromMultiboot smallMachine (fun _ => 0#64)).isSome by decide +kernel)
  have hget : s₀ = (pmmInitFromMultiboot smallMachine (fun _ => 0#64)).get (by decide +kernel) := by simp [hs₀]
  have hcover : s₀.totalPages ≤ 8 * bitmapBytes s₀.totalPages := by
    rw [hget]; decide +kernel
  have hsome : ([PmmCall.alloc, .allocN 3, .addRegion 0x102800 0x100000, .reserveRegion 0x104001 1].foldlM
      pmmCall s₀).isSome := by
    rw [hget]; decide +kernel
  have hrun := Run.of_after hsome
  exact ⟨s₀, _, hs₀, hrun, (pmm_counters_exact _ _ _ _ _ hs₀ hcover hrun).1⟩

end MyUnix.Mm
