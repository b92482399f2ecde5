import MyUnix.Mm.PmmCount
import Mathlib.Order.Bounds.Basic
import Mathlib.Order.Interval.Finset.Nat

/-!
# `Mm.PmmSearch` — what the three searches find

`pmm_alloc` looks at whole words from a hint on, `pmm_alloc_zone` at single frames below a limit, and `pmm_alloc_n`
counts free frames in a row and starts over at every used one. None of them misses anything: the first fails only when
nothing is free, and the other two find the lowest frame and the lowest run.

The scan of `pmm_alloc_n` is read with one fact about the frames behind it: no run begins before those that are being
counted (`findRun_least`, `findRun_none`).

Completeness is a statement about states that calls lead to. It uses that frame 0 is in use, since the scans leave it
out, and that the hint is within the bitmap or at its end; both hold from boot on. The hint decides where `pmm_alloc`
looks first and so which frame it finds, but not whether it finds one, so it may be any number here.

`pmm_free_n` of what `pmm_alloc_n` gave leads back to the same bits and the same counters. The hint may differ, which
is why the statement compares what can be allocated and not states.
-/

namespace MyUnix.Mm

open Lib

namespace Pmm

variable {s t : Pmm} {n : Nat}

/-- The bits determine the words. -/
theorem bitmap_ext (h : ∀ x, t.bitmapTest x = s.bitmapTest x) : t.bitmap = s.bitmap := by
  funext w
  apply BitVec.eq_of_getLsbD_eq
  intro i hi
  have hx := h (w * 64 + i)
  rw [bitmapTest_eq, bitmapTest_eq] at hx
  have hdiv : (w * 64 + i) / 64 = w := by omega
  have hmod : (w * 64 + i) % 64 = i := by omega
  rwa [hdiv, hmod] at hx

/-- `n` free frames from `f` on, frame 0 not among them. -/
structure FreeRun (s : Pmm) (n f : Nat) : Prop where
  pos   : 1 ≤ f
  below : f + n ≤ s.totalPages
  free  : ∀ i < n, s.bitmapTest (f + i) = false

/-- The free frames that a zone with the bound `bound` has to offer. -/
def zoneFrames (s : Pmm) (bound : Nat) : Set Nat := {f | 1 ≤ f ∧ f * pageSize < bound ∧ f ∈ s.freeFrames}

/-! ## The scan of `pmm_alloc_n`

The scan goes up from frame 1 with a count. A run is reported by its first frame, `count` frames before the place
where the scan is; that no run begins in between is what the two lemmas carry along.
-/

/-- No run begins before the one found. -/
theorem findRun_least : ∀ {k a count start r : Nat}, s.findRun n (List.range' a k) count start = some r → count < n →
    (0 < count → start + count = a) → (∀ f, 1 ≤ f → f + count < a → ∃ i < n, s.bitmapTest (f + i) = true) →
    ∀ f, 1 ≤ f → f < r → ∃ i < n, s.bitmapTest (f + i) = true
  | 0,     a, count, start, r, h, _,  _,  _ => by simp [findRun] at h
  | k + 1, a, count, start, r, h, hc, hs, hmin => by
    rw [List.range'_succ] at h
    unfold findRun at h
    by_cases hbit : s.bitmapTest a = false
    · rw [if_pos hbit] at h
      obtain ⟨start', hstart'⟩ : ∃ x, x = if count = 0 then a else start := ⟨_, rfl⟩
      simp only [] at h
      rw [← hstart'] at h
      have hend : start' + count = a := by
        by_cases h0 : count = 0
        · rw [if_pos h0] at hstart'
          omega
        · rw [if_neg h0] at hstart'
          have := hs (Nat.pos_of_ne_zero h0)
          omega
      by_cases hn : count + 1 = n
      · rw [if_pos hn] at h
        cases h
        intro f hf hlt
        exact hmin f hf (by omega)
      · rw [if_neg hn] at h
        refine findRun_least h (by omega) (fun _ => by omega) fun f hf hlt => ?_
        exact hmin f hf (by omega)
    · -- the count starts over: what began before reaches over the used frame
      rw [if_neg hbit] at h
      refine findRun_least h (by omega) (fun h0 => absurd h0 (Nat.lt_irrefl 0)) fun f hf hlt => ?_
      by_cases hbefore : f + count < a
      · exact hmin f hf hbefore
      · refine ⟨a - f, by omega, ?_⟩
        rw [Nat.add_sub_cancel' (by omega)]
        exact Bool.not_eq_false _ ▸ hbit

/-- A scan that finds nothing has seen no run. -/
theorem findRun_none : ∀ {k a count start : Nat}, s.findRun n (List.range' a k) count start = none → count < n →
    (∀ f, 1 ≤ f → f + count < a → ∃ i < n, s.bitmapTest (f + i) = true) →
    ∀ f, 1 ≤ f → f + n ≤ a + k → ∃ i < n, s.bitmapTest (f + i) = true
  | 0,     a, count, start, _, hc, hmin => fun f hf hle => hmin f hf (by omega)
  | k + 1, a, count, start, h, hc, hmin => by
    rw [List.range'_succ] at h
    unfold findRun at h
    have hlen : a + (k + 1) = a + 1 + k := by omega
    rw [hlen]
    by_cases hbit : s.bitmapTest a = false
    · rw [if_pos hbit] at h
      simp only [] at h
      by_cases hn : count + 1 = n
      · rw [if_pos hn] at h
        cases h
      · rw [if_neg hn] at h
        refine findRun_none h (by omega) fun f hf hlt => ?_
        exact hmin f hf (by omega)
    · rw [if_neg hbit] at h
      refine findRun_none h (by omega) fun f hf hlt => ?_
      by_cases hbefore : f + count < a
      · exact hmin f hf hbefore
      · refine ⟨a - f, by omega, ?_⟩
        rw [Nat.add_sub_cancel' (by omega)]
        exact Bool.not_eq_false _ ▸ hbit

/-- The whole scan, from frame 1 on. -/
theorem findRun_isLeast {r : Nat} (hn : 0 < n) (h : s.findRun n (List.range' 1 (s.totalPages - 1)) 0 0 = some r) :
    IsLeast {f | s.FreeRun n f} r := by
  obtain ⟨h1, h2, h3⟩ := findRun_spec h hn (Nat.le_refl 1) (fun h0 => absurd h0 (Nat.lt_irrefl 0))
    (fun i hi => absurd hi (Nat.not_lt_zero i))
  refine ⟨⟨h1, by omega, h3⟩, fun f hf => ?_⟩
  by_contra hlt
  obtain ⟨i, hi, hused⟩ := findRun_least h hn (fun h0 => absurd h0 (Nat.lt_irrefl 0))
    (fun g hg hlt => absurd hlt (by omega)) f hf.pos (Nat.not_le.mp hlt)
  rw [hf.free i hi] at hused
  cases hused

theorem findRun_complete (hn : 0 < n) (h : s.findRun n (List.range' 1 (s.totalPages - 1)) 0 0 = none) (f : Nat) :
    ¬ s.FreeRun n f := by
  intro hf
  have hlow := hf.pos
  have hhigh := hf.below
  obtain ⟨i, hi, hused⟩ := findRun_none h hn (fun g hg hlt => absurd hlt (by omega)) f hlow (by omega)
  rw [hf.free i hi] at hused
  cases hused

end Pmm

namespace Counted

variable {s t : Pmm} {n f : Nat}

/-- A run of free frames is counted. -/
theorem le_freePages (h : Counted s) (hf : s.FreeRun n f) : n ≤ s.freePages.toNat := by
  have hsub : Finset.Ico f (f + n) ⊆ s.freeFrames := by
    intro x hx
    obtain ⟨hge, hlt⟩ := Finset.mem_Ico.mp hx
    have hbelow := hf.below
    have hfree := hf.free (x - f) (by omega)
    rw [Nat.add_sub_cancel' hge] at hfree
    exact Pmm.mem_freeFrames.mpr ⟨by omega, hfree⟩
  have hcard := Finset.card_le_card hsub
  rw [Nat.card_Ico, ← h.free] at hcard
  omega

/-- With the same bits the counters are the same. -/
theorem counters_eq (h : Counted s) (ht : Counted t) (htotal : t.totalPages = s.totalPages)
    (htest : ∀ x, t.bitmapTest x = s.bitmapTest x) : t.freePages = s.freePages ∧ t.usedPages = s.usedPages := by
  have hframes : t.freeFrames = s.freeFrames := by
    ext x
    rw [Pmm.mem_freeFrames, Pmm.mem_freeFrames, htotal, htest]
  have hfree : t.freePages.toNat = s.freePages.toNat := by
    rw [h.free, ht.free, hframes]
  refine ⟨BitVec.eq_of_toNat_eq hfree, BitVec.eq_of_toNat_eq ?_⟩
  have hs := h.sum
  have hts := ht.sum
  omega

/-! ## Each of the three

When it fails, and what it finds.
-/

/-- **`pmm_alloc`** finds a free frame if there is one. -/
theorem pmmAlloc_iff (h : Counted s) (hz : ZeroUsed s) :
    s.pmmAlloc.1 = 0 ↔ ∀ f < s.totalPages, s.bitmapTest f = true := by
  constructor
  · intro h0 f hf
    exact h.pmmAlloc_full hz h0 hf
  · intro hused
    rcases Pmm.pmmAlloc_spec hz with h0 | ⟨f, s', -, -, htake⟩
    · rw [h0]
    · have hfree := htake.free f (List.mem_singleton_self f)
      rw [hused f (htake.lt f (List.mem_singleton_self f))] at hfree
      cases hfree

/-- **`pmm_alloc_n`** for more than one frame. -/
theorem pmmAllocN_cases (h : Counted s) (hn : 2 ≤ n) :
    (s.pmmAllocN n = (0, s) ∧ ∀ f, ¬ s.FreeRun n f) ∨
      ∃ f, s.pmmAllocN n = (f * pageSize, (List.range' f n).foldl Pmm.take s) ∧ IsLeast {f | s.FreeRun n f} f := by
  unfold Pmm.pmmAllocN
  rw [if_neg (by omega), if_neg (by omega)]
  split
  next hfew => exact .inl ⟨rfl, fun f hf => Nat.not_le.mpr hfew (h.le_freePages hf)⟩
  next =>
    split
    next hfind => exact .inl ⟨rfl, Pmm.findRun_complete (by omega) hfind⟩
    next f hfind => exact .inr ⟨f, rfl, Pmm.findRun_isLeast (by omega) hfind⟩

end Counted

/-- **`pmm_alloc_zone`** in a zone with a scan of its own. -/
theorem Pmm.pmmAllocZone_cases {s : Pmm} {zone : Zone} {bound : Nat} (hb : zone.maxPhys = some bound) :
    (s.pmmAllocZone zone = (0, s) ∧ ∀ f, f ∉ s.zoneFrames bound) ∨
      ∃ f, s.pmmAllocZone zone = (f * pageSize, s.take f) ∧ IsLeast (s.zoneFrames bound) f := by
  have hlimit : bound = bound / pageSize * pageSize := by
    cases zone <;> cases hb <;> decide
  unfold Pmm.pmmAllocZone
  rw [hb]
  simp only []
  -- the frames that the loop visits
  have hvisit : ∀ f, f ∈ List.range' 1 (min (bound / pageSize) s.totalPages - 1) ↔
      1 ≤ f ∧ f * pageSize < bound ∧ f < s.totalPages := by
    intro f
    rw [List.mem_range'_1, hlimit]
    unfold pageSize
    omega
  split
  next hfind =>
    refine .inl ⟨rfl, fun f hf => ?_⟩
    obtain ⟨hpos, hbelow, hfree⟩ := hf
    obtain ⟨hlt, hbit⟩ := Pmm.mem_freeFrames.mp hfree
    have hused := List.find?_eq_none.mp hfind f ((hvisit f).mpr ⟨hpos, hbelow, hlt⟩)
    rw [hbit] at hused
    exact hused rfl
  next f hfind =>
    have hbit : s.bitmapTest f = false := by
      have := List.find?_some hfind
      simpa using this
    obtain ⟨hpos, hbelow, hlt⟩ := (hvisit f).mp (List.mem_of_find?_eq_some hfind)
    refine .inr ⟨f, rfl, ⟨hpos, hbelow, Pmm.mem_freeFrames.mpr ⟨hlt, hbit⟩⟩, fun g hg => ?_⟩
    obtain ⟨hgpos, hgbelow, hgfree⟩ := hg
    obtain ⟨hglt, hgbit⟩ := Pmm.mem_freeFrames.mp hgfree
    by_contra hless
    -- a frame before the one found was looked at and is used
    have hused : s.bitmapTest g = true := by
      rw [List.find?_range'_eq_some] at hfind
      have := hfind.2.2 g hgpos (Nat.not_le.mp hless)
      simpa using this
    rw [hgbit] at hused
    cases hused

/-! ## Runs

The states are those that any calls of the allocator lead to from boot, and the zones those that have a bound.
-/

section

variable {info : BootInfo} {garbage : Nat → BitVec 64} {s₀ s : Pmm} {calls : List PmmCall}

/-- The counters are right in every state that calls lead to. -/
theorem counted_of_run (hinit : pmmInitFromMultiboot info garbage = some s₀)
    (hcover : s₀.totalPages ≤ 8 * bitmapBytes s₀.totalPages) (hrun : Run (Graph pmmCall) s₀ calls s) : Counted s := by
  refine hrun.invariant Counted (Counted.pmmInit hinit hcover) ?_
  intro s c t hs hstep
  exact hs.call hstep

/-- **The searches miss nothing.** In every state that calls lead to in which frame 0 is in use, and with any hint:
    `pmm_alloc` returns 0 exactly if no frame is free, and else a free frame that is not frame 0; in the zones with a
    scan of their own `pmm_alloc_zone` returns the lowest free frame from 1 on below the bound, and 0 exactly if there
    is none. -/
theorem pmm_searches_complete (info : BootInfo) (garbage : Nat → BitVec 64) (s₀ s : Pmm) (calls : List PmmCall)
    (hint : Nat) (hinit : pmmInitFromMultiboot info garbage = some s₀)
    (hcover : s₀.totalPages ≤ 8 * bitmapBytes s₀.totalPages) (hrun : Run (Graph pmmCall) s₀ calls s)
    (hzero : s.bitmapTest 0 = true) (hhint : hint < s.totalPages) :
    (({ s with allocHint := hint } : Pmm).pmmAlloc.1 = 0 ↔ ∀ f < s.totalPages, s.bitmapTest f = true) ∧
    (({ s with allocHint := hint } : Pmm).pmmAlloc.1 ≠ 0 →
      ∃ f ∈ s.freeFrames, f ≠ 0 ∧ ({ s with allocHint := hint } : Pmm).pmmAlloc.1 = f * pageSize) ∧
    ∀ zone bound, zone.maxPhys = some bound →
      ((({ s with allocHint := hint } : Pmm).pmmAllocZone zone).1 = 0 ↔ s.zoneFrames bound = ∅) ∧
      ((({ s with allocHint := hint } : Pmm).pmmAllocZone zone).1 ≠ 0 →
        ∃ f, IsLeast (s.zoneFrames bound) f ∧ (({ s with allocHint := hint } : Pmm).pmmAllocZone zone).1 = f * pageSize) := by
  obtain ⟨t, ht⟩ : ∃ t : Pmm, t = { s with allocHint := hint } := ⟨_, rfl⟩
  have htest : ∀ x, t.bitmapTest x = s.bitmapTest x := Pmm.bitmapTest_congr (by rw [ht])
  have htotal : t.totalPages = s.totalPages := by rw [ht]
  have hcount : Counted t := by
    rw [ht]
    exact (counted_of_run hinit hcover hrun).withHint (.inl hhint)
  have hz : ZeroUsed t := fun _ => (htest 0).trans hzero
  have hframes : ∀ x, x ∈ t.freeFrames ↔ x ∈ s.freeFrames := by
    intro x
    rw [Pmm.mem_freeFrames, Pmm.mem_freeFrames, htotal, htest]
  have hzone : ∀ bound, t.zoneFrames bound = s.zoneFrames bound := by
    intro bound
    ext x
    simp only [Pmm.zoneFrames, Set.mem_ofPred_eq, hframes]
  rw [← ht]
  refine ⟨?_, fun hne => ?_, fun zone bound hb => ?_⟩
  · rw [hcount.pmmAlloc_iff hz, htotal]
    simp only [htest]
  · rcases Pmm.pmmAlloc_spec hz with h0 | ⟨f, s', hres, hf0, htake⟩
    · rw [h0] at hne
      exact absurd rfl hne
    · have hmem := List.mem_singleton_self f
      refine ⟨f, (hframes f).mp (Pmm.mem_freeFrames.mpr ⟨htake.lt f hmem, htake.free f hmem⟩), hf0, ?_⟩
      rw [hres]
  · rcases Pmm.pmmAllocZone_cases (s := t) hb with ⟨hres, hnone⟩ | ⟨f, hres, hleast⟩
    · rw [hres, ← hzone]
      exact ⟨iff_of_true rfl (Set.eq_empty_of_forall_notMem hnone), fun hne => absurd rfl hne⟩
    · have hpos := hleast.1.1
      have hne : f * pageSize ≠ 0 := Nat.mul_ne_zero (by omega) (by decide)
      rw [hres, ← hzone]
      refine ⟨iff_of_false hne fun hempty => ?_, fun _ => ⟨f, hleast, rfl⟩⟩
      exact Set.notMem_empty f (hempty ▸ hleast.1)

/-- **`pmm_alloc_n`** takes the lowest run of free frames, and `pmm_free_n` undoes it. In every state that calls lead
    to, for every `n` from 2 on. -/
theorem pmm_alloc_n_lowest (info : BootInfo) (garbage : Nat → BitVec 64) (s₀ s : Pmm) (calls : List PmmCall) (n : Nat)
    (hinit : pmmInitFromMultiboot info garbage = some s₀)
    (hcover : s₀.totalPages ≤ 8 * bitmapBytes s₀.totalPages) (hrun : Run (Graph pmmCall) s₀ calls s) (hn : 2 ≤ n) :
    ((∀ f, ¬ s.FreeRun n f) ↔ (s.pmmAllocN n).1 = 0) ∧
    ((s.pmmAllocN n).1 = 0 → (s.pmmAllocN n).2 = s) ∧
    ∀ f, IsLeast {f | s.FreeRun n f} f →
      (s.pmmAllocN n).1 = f * pageSize ∧
      (∀ x, (s.pmmAllocN n).2.bitmapTest x = (decide (f ≤ x ∧ x < f + n) || s.bitmapTest x)) ∧
      ∃ t, (s.pmmAllocN n).2.pmmFreeN (f * pageSize) n = some t ∧ t.bitmap = s.bitmap ∧ t.freePages = s.freePages ∧
        t.usedPages = s.usedPages := by
  have hcount := counted_of_run hinit hcover hrun
  rcases hcount.pmmAllocN_cases hn with ⟨hres, hnone⟩ | ⟨g, hres, hleast⟩
  · rw [hres]
    exact ⟨iff_of_true hnone rfl, fun _ => rfl, fun f hf => absurd hf.1 (hnone f)⟩
  · have hpos := hleast.1.pos
    have hbelow := hleast.1.below
    have hne : g * pageSize ≠ 0 := Nat.mul_ne_zero (by omega) (by decide)
    refine ⟨iff_of_false (fun hnone => hnone g hleast.1) (by rw [hres]; exact hne), fun h0 => ?_, fun f hf => ?_⟩
    · rw [hres] at h0
      exact absurd h0 hne
    obtain rfl : f = g := hf.unique hleast
    obtain ⟨htotal, -⟩ := Pmm.foldl_take_test (List.range' f n) s 0
    have htest : ∀ x, ((List.range' f n).foldl Pmm.take s).bitmapTest x =
        (decide (f ≤ x ∧ x < f + n) || s.bitmapTest x) := by
      intro x
      rw [(Pmm.foldl_take_test _ s x).2, decide_eq_decide.mpr List.mem_range'_1]
    have hcount' : Counted ((List.range' f n).foldl Pmm.take s) := by
      have hcalls := hcount.pmmAllocN n
      rwa [hres] at hcalls
    rw [hres]
    refine ⟨rfl, htest, ?_⟩
    obtain ⟨t, ht, httotal, httest⟩ := pmmFreeN_spec (f := f) (n := n) (by omega) hcount'.bound fun x hx => by
      rw [List.mem_range'_1] at hx
      rw [htotal, htest, decide_eq_true hx]
      exact ⟨by omega, rfl⟩
    -- frame by frame the bits are as they were
    have hback : ∀ x, t.bitmapTest x = s.bitmapTest x := by
      intro x
      rw [httest, htest, decide_eq_decide.mpr (not_congr List.mem_range'_1)]
      by_cases hx : f ≤ x ∧ x < f + n
      · have hfree := hleast.1.free (x - f) (by omega)
        rw [Nat.add_sub_cancel' hx.1] at hfree
        rw [decide_eq_false (not_not.mpr hx), hfree]
        rfl
      · rw [decide_eq_true hx, decide_eq_false hx]
        rfl
    exact ⟨t, ht, Pmm.bitmap_ext hback,
      hcount.counters_eq (hcount'.pmmFreeN ht) (httotal.trans htotal) hback⟩

end

/-- The small machine after boot. -/
theorem smallMachine_boot : ∃ s₀, pmmInitFromMultiboot smallMachine (fun _ => 0#64) = some s₀ ∧
    s₀.totalPages ≤ 8 * bitmapBytes s₀.totalPages ∧ s₀.totalPages = 264 ∧ s₀.bitmapTest 0 = true ∧
    (s₀.pmmAllocN 3).1 = 0x103000 := by
  obtain ⟨s₀, hs₀⟩ := Option.isSome_iff_exists.mp
    (show (pmmInitFromMultiboot smallMachine (fun _ => 0#64)).isSome by decide +kernel)
  have hget : s₀ = (pmmInitFromMultiboot smallMachine (fun _ => 0#64)).get (by decide +kernel) := by simp [hs₀]
  refine ⟨s₀, hs₀, ?_⟩
  rw [hget]
  decide +kernel

/-- On the small machine, with a hint beyond all free frames. -/
theorem pmm_searches_complete_small : ∃ s₀, pmmInitFromMultiboot smallMachine (fun _ => 0#64) = some s₀ ∧
    (({ s₀ with allocHint := 263 } : Pmm).pmmAlloc.1 = 0 ↔ ∀ f < s₀.totalPages, s₀.bitmapTest f = true) := by
  obtain ⟨s₀, hs₀, hcover, htotal, hzero, -⟩ := smallMachine_boot
  have hhint : 263 < s₀.totalPages := by rw [htotal]; decide
  exact ⟨s₀, hs₀, (pmm_searches_complete _ _ s₀ s₀ [] 263 hs₀ hcover .refl hzero hhint).1⟩

/-- Three frames there. -/
theorem pmm_alloc_n_lowest_small : ∃ s₀, pmmInitFromMultiboot smallMachine (fun _ => 0#64) = some s₀ ∧
    ((∀ f, ¬ s₀.FreeRun 3 f) ↔ (s₀.pmmAllocN 3).1 = 0) ∧ (s₀.pmmAllocN 3).1 = 0x103000 := by
  obtain ⟨s₀, hs₀, hcover, -, -, h3⟩ := smallMachine_boot
  exact ⟨s₀, hs₀, (pmm_alloc_n_lowest _ _ s₀ s₀ [] 3 hs₀ hcover .refl (by decide)).1, h3⟩

end MyUnix.Mm
