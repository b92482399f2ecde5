import MyUnix.Lib.Run
import MyUnix.Mm.Pmm

/-!
# `Mm.PmmRun` — frames handed out over whole runs

The allocator together with what its callers hold: `owned` are the frames handed out and not freed since,
`handed` all frames ever handed out. A step is one call of the allocator; a free is a step only for frames
that are owned. The frames that initialisation leaves marked used stay used, so the three allocators, which
take only free frames, never hand one of them out, nor one that is owned.

The invariant (`PmmInv`) has the bits and the two books together: an owned frame is in use, was free when the system
started and is not frame 0, and nothing is owned twice. It says nothing about which frames are free, so it is kept by
every way to search. The system starts with any state that initialisation leaves, for any boot information at all; in
particular it does not matter whether the memory map makes sense.

A frame may be handed out again after it was freed. `handed` remembers all of them, which is what makes it possible to
say that those reserved at boot are never among them.
-/

namespace MyUnix.Mm

open Lib

/-! ## What initialisation leaves behind

The two loops of initialisation are one loop with the roles of the bits exchanged (`foldl_flip_spec`). Reserving comes
last and covers frame 0 through the first megabyte, so frame 0 is in use whatever the memory map says.
-/

namespace Pmm

/-- **The loop over the frames of a region** visits those with the bit `b` and turns it, if `op` does so for one. -/
theorem foldl_flip_spec {b : Bool} {op : Pmm → Nat → Pmm} (htotal : ∀ s pfn, (op s pfn).totalPages = s.totalPages)
    (htest : ∀ s pfn x, (op s pfn).bitmapTest x = if x = pfn then !b else s.bitmapTest x) (pfns : List Nat) (s : Pmm) :
    (pfns.foldl (fun s pfn => if pfn < s.totalPages ∧ s.bitmapTest pfn = b then op s pfn else s) s).totalPages
      = s.totalPages ∧
    ∀ x, (pfns.foldl (fun s pfn => if pfn < s.totalPages ∧ s.bitmapTest pfn = b then op s pfn else s) s).bitmapTest x
      = if x ∈ pfns ∧ x < s.totalPages then !b else s.bitmapTest x := by
  induction pfns generalizing s with
  | nil => simp
  | cons pfn pfns ih =>
    rw [List.foldl_cons]
    by_cases hc : pfn < s.totalPages ∧ s.bitmapTest pfn = b
    · rw [if_pos hc]
      obtain ⟨ihtotal, ihtest⟩ := ih (op s pfn)
      refine ⟨ihtotal.trans (htotal s pfn), fun x => ?_⟩
      rw [ihtest, htest, htotal]
      by_cases hx : x = pfn
      · subst hx
        simp [hc.1]
      · simp [hx]
    · rw [if_neg hc]
      obtain ⟨ihtotal, ihtest⟩ := ih s
      refine ⟨ihtotal, fun x => ?_⟩
      rw [ihtest]
      by_cases hx : x = pfn
      · subst hx
        by_cases hlt : x < s.totalPages
        · have hbit : s.bitmapTest x = !b := Bool.eq_not_of_ne fun heq => hc ⟨hlt, heq⟩
          simp [hbit]
        · simp [hlt]
      · simp [hx]

/-- Reserving marks frames used and never frees one. -/
theorem pmmReserveRegion_spec (s : Pmm) (base size : Nat) :
    (s.pmmReserveRegion base size).totalPages = s.totalPages ∧
    ∀ x, (s.pmmReserveRegion base size).bitmapTest x =
      (decide (x ∈ pagesBetween (alignDown base) (alignUp ((base + size) % 2 ^ 64)) ∧ x < s.totalPages)
        || s.bitmapTest x) := by
  have htake : ∀ (s : Pmm) (pfn x : Nat), (s.take pfn).bitmapTest x = if x = pfn then true else s.bitmapTest x := by
    intro s pfn x
    rw [bitmapTest_take]
    split <;> simp [*]
  obtain ⟨htotal, htest⟩ := @foldl_flip_spec false take (fun _ _ => rfl) htake
    (pagesBetween (alignDown base) (alignUp ((base + size) % 2 ^ 64))) s
  refine ⟨htotal, fun x => (htest x).trans ?_⟩
  split
  next hin => rw [decide_eq_true hin, Bool.true_or, Bool.not_false]
  next hout => rw [decide_eq_false hout, Bool.false_or]

/-- Adding a region frees frames and marks none used. -/
theorem pmmAddRegion_spec (s : Pmm) (base size : Nat) :
    (s.pmmAddRegion base size).totalPages = s.totalPages ∧
    ∀ x, (s.pmmAddRegion base size).bitmapTest x =
      (!decide (x ∈ pagesBetween (alignUp base) (alignDown ((base + size) % 2 ^ 64)) ∧ x < s.totalPages)
        && s.bitmapTest x) := by
  have hrelease : ∀ (s : Pmm) (pfn x : Nat),
      (s.release pfn).bitmapTest x = if x = pfn then false else s.bitmapTest x := by
    intro s pfn x
    rw [bitmapTest_release]
    split <;> simp [*]
  obtain ⟨htotal, htest⟩ := @foldl_flip_spec true release (fun _ _ => rfl) hrelease
    (pagesBetween (alignUp base) (alignDown ((base + size) % 2 ^ 64))) s
  refine ⟨htotal, fun x => (htest x).trans ?_⟩
  split
  next hin => rw [decide_eq_true hin, Bool.not_true, Bool.false_and]
  next hout => rw [decide_eq_false hout, Bool.not_false, Bool.true_and]

/-- Reserving a list of ranges. -/
theorem foldl_reserveRegion_spec : ∀ (rs : List (Nat × Nat)) (s : Pmm),
    (rs.foldl (fun s r => s.pmmReserveRegion r.1 r.2) s).totalPages = s.totalPages ∧
    ∀ x, (∃ r ∈ rs, x ∈ pagesBetween (alignDown r.1) (alignUp ((r.1 + r.2) % 2 ^ 64)) ∧ x < s.totalPages) ∨
        s.bitmapTest x = true →
      (rs.foldl (fun s r => s.pmmReserveRegion r.1 r.2) s).bitmapTest x = true
  | [],      s => by simp
  | r :: rs, s => by
    obtain ⟨ht, hx⟩ := s.pmmReserveRegion_spec r.1 r.2
    obtain ⟨h1, h2⟩ := foldl_reserveRegion_spec rs (s.pmmReserveRegion r.1 r.2)
    rw [List.foldl_cons]
    refine ⟨h1.trans ht, fun x h => h2 x ?_⟩
    rw [ht, hx]
    rcases h with ⟨r', hr', hm, hlt⟩ | h
    · rcases List.mem_cons.mp hr' with rfl | hr'
      · exact Or.inr (by rw [decide_eq_true ⟨hm, hlt⟩, Bool.true_or])
      · exact Or.inl ⟨r', hr', hm, hlt⟩
    · exact Or.inr (by simp [h])

theorem foldl_addRegion_total (rs : List (Nat × Nat)) (s : Pmm) :
    (rs.foldl (fun s r => s.pmmAddRegion r.1 r.2) s).totalPages = s.totalPages := by
  induction rs generalizing s with
  | nil => rfl
  | cons r rs ih => rw [List.foldl_cons, ih, (s.pmmAddRegion_spec r.1 r.2).1]

end Pmm

/-! ## Where the ranges lie

Bounds on the numbers of the boot information, which keep the loops from wrapping.
-/

theorem maxPhys_lt (entries : List MmapEntry) : maxPhys entries < 2 ^ 64 := by
  have hfold : ∀ (es : List MmapEntry) (m : Nat), m < 2 ^ 64 →
      es.foldl (fun m e => if m < (e.addr + e.len) % 2 ^ 64 then (e.addr + e.len) % 2 ^ 64 else m) m < 2 ^ 64 := by
    intro es
    induction es with
    | nil => intro m hm; exact hm
    | cons e es ih =>
        intro m hm
        rw [List.foldl_cons]
        refine ih _ ?_
        split
        · exact Nat.mod_lt _ (by decide)
        · exact hm
  exact hfold entries 0 (by decide)

/-- The frame `f` has a byte in the range `r`. -/
def Meets (f : Nat) (r : Nat × Nat) : Prop := f * pageSize < r.1 + r.2 ∧ r.1 < (f + 1) * pageSize

theorem mem_pagesBetween {f : Nat} {r : Nat × Nat} (hr : r.1 + r.2 < 2 ^ 63) (h : Meets f r) :
    f ∈ Pmm.pagesBetween (alignDown r.1) (alignUp ((r.1 + r.2) % 2 ^ 64)) := by
  obtain ⟨h1, h2⟩ := h
  unfold Pmm.pagesBetween alignUp alignDown
  simp only [pageSize] at *
  rw [List.mem_range'_1]
  have hmod : (r.1 + r.2) % 2 ^ 64 = r.1 + r.2 := Nat.mod_eq_of_lt (by omega)
  rw [hmod, Nat.mod_eq_of_lt (show r.1 + r.2 + (4096 - 1) < 2 ^ 64 by omega)]
  omega

theorem reservedRanges_lt (info : BootInfo) {totalPages : Nat} (ht : totalPages ≤ 2 ^ 52) :
    ∀ r ∈ reservedRanges info totalPages, r.1 + r.2 < 2 ^ 63 := by
  have h1 := info.kernel_le
  have h2 := info.kernel_lt
  have h3 := info.mbi_lt
  have h4 := info.total_lt
  have hkern : alignUp info.kernelEnd < 2 ^ 62 + 4096 ∧ info.kernelEnd ≤ alignUp info.kernelEnd := by
    unfold alignUp alignDown pageSize
    rw [Nat.mod_eq_of_lt (by omega)]
    omega
  have hbytes : bitmapBytes totalPages < 2 ^ 50 := by
    unfold bitmapBytes alignUp alignDown pageSize
    rw [Nat.mod_eq_of_lt (by omega)]
    omega
  intro r hr
  unfold reservedRanges at hr
  rcases List.mem_append.mp hr with hr | hr
  · simp only [List.mem_cons, List.not_mem_nil, or_false] at hr
    rcases hr with rfl | rfl | rfl | rfl | rfl
    · decide
    · decide
    · show info.kernelStart + (alignUp info.kernelEnd + 2 ^ 64 - info.kernelStart) % 2 ^ 64 < 2 ^ 63
      omega
    · show alignUp info.kernelEnd + bitmapBytes totalPages < 2 ^ 63
      omega
    · show info.mbiPhys + info.totalSize < 2 ^ 63
      omega
  · split at hr
    · rename_i modStart modEnd hmod
      rw [List.mem_singleton] at hr
      subst hr
      have hmem : Mb2Tag.module modStart modEnd ∈ info.tags := by
        obtain ⟨t, ht, heq⟩ := List.exists_of_findSome?_eq_some hmod
        cases t <;> simp_all
      have := info.module_lt _ _ hmem
      show modStart + (modEnd + 2 ^ 32 - modStart) % 2 ^ 32 < 2 ^ 63
      omega
    · simp at hr

/-- **Initialisation** leaves the frames of every reserved range used, among them frame 0. -/
theorem pmmInit_spec {info : BootInfo} {garbage : Nat → BitVec 64} {s : Pmm}
    (h : pmmInitFromMultiboot info garbage = some s) :
    s.totalPages ≤ 2 ^ 52 ∧ ZeroUsed s ∧
    ∀ r ∈ reservedRanges info s.totalPages, ∀ f < s.totalPages, Meets f r → s.bitmapTest f = true := by
  unfold pmmInitFromMultiboot at h
  split at h
  · cases h
  · rename_i entries hentries
    simp only [Option.some.injEq] at h
    have hmax := maxPhys_lt entries
    have htotal : maxPhys entries / pageSize ≤ 2 ^ 52 := by unfold pageSize; omega
    generalize maxPhys entries / pageSize = total at *
    generalize hs₁ : (availableRanges entries).foldl (fun s r => Pmm.pmmAddRegion s r.1 r.2) _ = s₁ at h
    have ht₁ : s₁.totalPages = total := by rw [← hs₁, Pmm.foldl_addRegion_total]
    obtain ⟨ht, hbits⟩ := Pmm.foldl_reserveRegion_spec (reservedRanges info total) s₁
    rw [h, ht₁] at ht
    have hres : ∀ r ∈ reservedRanges info total, ∀ f < total, Meets f r → s.bitmapTest f = true := by
      intro r hr f hf hm
      rw [← h]
      exact hbits f (Or.inl ⟨r, hr, mem_pagesBetween (reservedRanges_lt info htotal r hr) hm, by rw [ht₁]; exact hf⟩)
    rw [ht]
    refine ⟨htotal, fun hpos => ?_, hres⟩
    rw [ht] at hpos
    exact hres (0, pageSize) (by simp [reservedRanges]) 0 hpos ⟨by decide, by decide⟩

/-! ## Callers and frames

A step is a whole call. That calls of several processors do not meet inside is the subject of `Mm.PmmLocked`.
-/

/-- The allocator, with the frames that callers hold and those handed out so far. -/
structure PmmSys where
  pmm    : Pmm
  owned  : List Nat
  handed : List Nat

/-- A call of the run. -/
inductive PmmOp where
  | alloc
  | allocZone (zone : Zone)
  | allocN (n : Nat)
  | free (phys : Nat)
  | freeN (phys n : Nat)
deriving DecidableEq

/-- The frames a caller gets with the address `phys`; 0 is failure. -/
def framesAt (phys n : Nat) : List Nat := if phys = 0 then [] else List.range' (phys / pageSize) n

/-- The caller takes what an allocation of `n` frames returns. -/
def PmmSys.grant (sys : PmmSys) (r : Nat × Pmm) (n : Nat) : PmmSys :=
  { pmm := r.2, owned := framesAt r.1 n ++ sys.owned, handed := framesAt r.1 n ++ sys.handed }

/-- One call. A free is only made of frames that were handed out and not freed since. -/
def pmmStep (sys : PmmSys) : PmmOp → Option PmmSys
  | .alloc => some (sys.grant sys.pmm.pmmAlloc 1)
  | .allocZone zone => some (sys.grant (sys.pmm.pmmAllocZone zone) 1)
  | .allocN n => some (sys.grant (sys.pmm.pmmAllocN n) n)
  | .free phys =>
      if phys % pageSize = 0 ∧ phys / pageSize ∈ sys.owned then
        (sys.pmm.pmmFree phys).map fun p =>
          { sys with pmm := p, owned := sys.owned.filter fun f => f ≠ phys / pageSize }
      else none
  | .freeN phys n =>
      if phys % pageSize = 0 ∧ ∀ f ∈ List.range' (phys / pageSize) n, f ∈ sys.owned then
        (sys.pmm.pmmFreeN phys n).map fun p =>
          { sys with pmm := p, owned := sys.owned.filter fun f => f ∉ List.range' (phys / pageSize) n }
      else none

/-- What holds of a system that started with the allocator state `s₀`. -/
structure PmmInv (s₀ : Pmm) (sys : PmmSys) : Prop where
  total : sys.pmm.totalPages = s₀.totalPages
  used : ∀ f, s₀.bitmapTest f = true → sys.pmm.bitmapTest f = true
  nodup : sys.owned.Nodup
  owned : ∀ f ∈ sys.owned, sys.pmm.bitmapTest f = true ∧ f ∈ sys.handed
  handed : ∀ f ∈ sys.handed, f ≠ 0 ∧ f < s₀.totalPages ∧ s₀.bitmapTest f = false

namespace PmmInv

variable {s₀ : Pmm} {sys : PmmSys}

theorem zeroUsed (h : PmmInv s₀ sys) (hz : ZeroUsed s₀) : ZeroUsed sys.pmm := by
  intro hpos
  rw [h.total] at hpos
  exact h.used 0 (hz hpos)

/-- Handing out frames that were free. -/
theorem grant (h : PmmInv s₀ sys) (hz : ZeroUsed s₀) {r : Nat × Pmm} {n : Nat}
    (hr : r = (0, sys.pmm) ∨ ∃ f s', r = (f * pageSize, s') ∧ f ≠ 0 ∧ Takes sys.pmm s' (List.range' f n)) :
    PmmInv s₀ (sys.grant r n) := by
  rcases hr with rfl | ⟨f, s', rfl, hf0, htake⟩
  · exact ⟨h.total, h.used, h.nodup, h.owned, h.handed⟩
  · have hframes : framesAt (f * pageSize) n = List.range' f n := by
      unfold framesAt
      rw [if_neg (Nat.mul_ne_zero hf0 (by decide)), Nat.mul_div_cancel f (by decide)]
    have hnew : ∀ x ∈ List.range' f n, x ∉ sys.owned := by
      intro x hx hm
      have hused := (h.owned x hm).1
      rw [htake.free x hx] at hused
      cases hused
    unfold PmmSys.grant
    rw [hframes]
    refine ⟨htake.total.trans h.total, fun x hx => ?_, ?_, fun x hx => ?_, fun x hx => ?_⟩
    · show s'.bitmapTest x = true
      rw [htake.test, h.used x hx, Bool.or_true]
    · refine List.nodup_append.mpr ⟨List.nodup_range', h.nodup, fun a ha b hb hab => ?_⟩
      subst hab
      exact hnew a ha hb
    · show s'.bitmapTest x = true ∧ x ∈ List.range' f n ++ sys.handed
      rw [htake.test]
      rcases List.mem_append.mp hx with hx | hx
      · exact ⟨by simp [hx], List.mem_append_left _ hx⟩
      · obtain ⟨h1, h2⟩ := h.owned x hx
        exact ⟨by simp [h1], List.mem_append_right _ h2⟩
    · rcases List.mem_append.mp hx with hx | hx
      · refine ⟨htake.ne_zero (h.zeroUsed hz) hx, by rw [← h.total]; exact htake.lt x hx, ?_⟩
        by_contra hused
        have := h.used x (by simpa using hused)
        rw [htake.free x hx] at this
        cases this
      · exact h.handed x hx

/-- Taking back a set of owned frames. -/
theorem drop (h : PmmInv s₀ sys) {p : Pmm} (fs : List Nat) (hfs : ∀ f ∈ fs, f ∈ sys.owned)
    (ht : p.totalPages = sys.pmm.totalPages) (hp : ∀ x, p.bitmapTest x = (decide (x ∉ fs) && sys.pmm.bitmapTest x)) :
    PmmInv s₀ { sys with pmm := p, owned := sys.owned.filter fun f => f ∉ fs } := by
  refine ⟨ht.trans h.total, fun x hx => ?_, h.nodup.filter _, fun x hx => ?_, h.handed⟩
  · show p.bitmapTest x = true
    rw [hp, h.used x hx]
    have hnot : x ∉ fs := by
      intro hm
      have := (h.handed x (h.owned x (hfs x hm)).2).2.2
      rw [hx] at this
      cases this
    simp [hnot]
  · rw [List.mem_filter, decide_eq_true_eq] at hx
    obtain ⟨h1, h2⟩ := h.owned x hx.1
    refine ⟨?_, h2⟩
    show p.bitmapTest x = true
    rw [hp, h1]
    simp [hx.2]

end PmmInv

/-- **`pmm_free_n`** of consecutive frames that are all in use. -/
theorem pmmFreeN_spec {s : Pmm} {f : Nat} (hf : f ≠ 0) (ht : s.totalPages ≤ 2 ^ 52) :
    ∀ {n : Nat}, (∀ x ∈ List.range' f n, x < s.totalPages ∧ s.bitmapTest x = true) →
      ∃ p, s.pmmFreeN (f * pageSize) n = some p ∧ p.totalPages = s.totalPages ∧
        ∀ x, p.bitmapTest x = (decide (x ∉ List.range' f n) && s.bitmapTest x)
  | 0,     _ => ⟨s, rfl, rfl, fun x => by simp⟩
  | n + 1, h => by
    have hpre : ∀ x ∈ List.range' f n, x < s.totalPages ∧ s.bitmapTest x = true := by
      intro x hx
      refine h x ?_
      rw [List.mem_range'_1] at hx ⊢
      omega
    obtain ⟨p, hp, htp, htest⟩ := pmmFreeN_spec hf ht hpre
    obtain ⟨hlt, hused⟩ := h (f + n) (by rw [List.mem_range'_1]; omega)
    obtain ⟨q, hq, htq, hqtest⟩ := p.pmmFree_spec (f := f + n) (by omega) (by rw [htp]; exact hlt) (by
      rw [htest, hused]
      simp)
    refine ⟨q, ?_, htq.trans htp, fun x => ?_⟩
    · have haddr : (f * pageSize + n * pageSize) % 2 ^ 64 = (f + n) * pageSize := by
        rw [← Nat.add_mul]
        exact Nat.mod_eq_of_lt (by unfold pageSize; omega)
      unfold Pmm.pmmFreeN at hp ⊢
      rw [List.range_succ, List.foldlM_append, hp]
      simp only [List.foldlM_cons, List.foldlM_nil, Option.bind_eq_bind, Option.bind_some, haddr, hq]
      rfl
    · rw [hqtest, htest]
      have hmem : x ∈ List.range' f (n + 1) ↔ x = f + n ∨ x ∈ List.range' f n := by
        rw [List.mem_range'_1, List.mem_range'_1]
        omega
      by_cases hx : x = f + n
      · simp [hx]
      · simp [hx, hmem]

/-- **One call** keeps the invariant. -/
theorem PmmInv.step {s₀ : Pmm} {sys sys' : PmmSys} (h : PmmInv s₀ sys) (hz : ZeroUsed s₀)
    (ht : s₀.totalPages ≤ 2 ^ 52) {op : PmmOp} (hs : pmmStep sys op = some sys') : PmmInv s₀ sys' := by
  have hz' := h.zeroUsed hz
  have howned : ∀ f ∈ sys.owned, f ≠ 0 ∧ f < sys.pmm.totalPages ∧ sys.pmm.bitmapTest f = true := by
    intro f hf
    obtain ⟨h1, h2⟩ := h.owned f hf
    obtain ⟨h3, h4, -⟩ := h.handed f h2
    exact ⟨h3, by rw [h.total]; exact h4, h1⟩
  cases op with
  | alloc =>
      cases hs
      exact h.grant hz (Pmm.pmmAlloc_spec hz')
  | allocZone zone =>
      cases hs
      exact h.grant hz (Pmm.pmmAllocZone_spec hz' zone)
  | allocN n =>
      cases hs
      exact h.grant hz (Pmm.pmmAllocN_spec hz' n)
  | free phys =>
      simp only [pmmStep, Option.ite_none_right_eq_some, Option.map_eq_some_iff] at hs
      obtain ⟨⟨halign, hmem⟩, p, hp, rfl⟩ := hs
      obtain ⟨h0, hlt, hused⟩ := howned _ hmem
      obtain ⟨p', hp', htp, htest⟩ := sys.pmm.pmmFree_spec h0 hlt hused
      have hphys : phys / pageSize * pageSize = phys := Nat.div_mul_cancel (Nat.dvd_of_mod_eq_zero halign)
      rw [hphys, hp] at hp'
      cases hp'
      have hdrop := h.drop [phys / pageSize] (by simpa using hmem) htp (by simpa using htest)
      simpa using hdrop
  | freeN phys n =>
      simp only [pmmStep, Option.ite_none_right_eq_some, Option.map_eq_some_iff] at hs
      obtain ⟨⟨halign, hmem⟩, p, hp, rfl⟩ := hs
      have hphys : phys / pageSize * pageSize = phys := Nat.div_mul_cancel (Nat.dvd_of_mod_eq_zero halign)
      cases n with
      | zero =>
          cases hp
          refine h.drop _ hmem rfl fun x => ?_
          simp
      | succ n =>
          have hfirst := howned (phys / pageSize) (hmem _ (by rw [List.mem_range'_1]; omega))
          obtain ⟨p', hp', htp, htest⟩ := pmmFreeN_spec (n := n + 1) hfirst.1 (by rw [h.total]; exact ht)
            fun x hx => (howned x (hmem x hx)).2
          rw [hphys, hp] at hp'
          cases hp'
          exact h.drop _ hmem htp htest

/-- **Frames handed out.** In every run of the allocator after initialisation in which only owned frames are
    freed: the owned frames are pairwise distinct; `pmm_alloc_n` takes `n` consecutive frames that were free,
    and no other; and no frame ever handed out is frame 0, lies beyond the last frame, was left used by
    initialisation, or has a byte in a reserved range. -/
theorem pmm_frames_exclusive (info : BootInfo) (garbage : Nat → BitVec 64) (s₀ : Pmm) (ops : List PmmOp)
    (sys : PmmSys) (hinit : pmmInitFromMultiboot info garbage = some s₀)
    (hrun : Run (Graph pmmStep) ⟨s₀, [], []⟩ ops sys) :
    sys.owned.Nodup ∧
    (∀ n phys p, sys.pmm.pmmAllocN n = (phys, p) → phys ≠ 0 →
      phys % pageSize = 0 ∧ ∀ x, if phys / pageSize ≤ x ∧ x < phys / pageSize + n
        then sys.pmm.bitmapTest x = false ∧ p.bitmapTest x = true
        else p.bitmapTest x = sys.pmm.bitmapTest x) ∧
    ∀ f ∈ sys.handed, f ≠ 0 ∧ f < s₀.totalPages ∧ s₀.bitmapTest f = false ∧
      ∀ r ∈ reservedRanges info s₀.totalPages, ¬ Meets f r := by
  obtain ⟨ht, hz, hres⟩ := pmmInit_spec hinit
  have hinv : PmmInv s₀ sys := by
    refine hrun.invariant (PmmInv s₀) ⟨rfl, fun _ => id, List.nodup_nil, by simp, by simp⟩ ?_
    intro s op t hs hstep
    exact hs.step hz ht hstep
  refine ⟨hinv.nodup, fun n phys p hn hphys => ?_, fun f hf => ?_⟩
  · rcases sys.pmm.pmmAllocN_spec (hinv.zeroUsed hz) n with h0 | ⟨f, s', hres', hf0, htake⟩
    · rw [hn] at h0
      cases h0
      exact absurd rfl hphys
    · rw [hn] at hres'
      cases hres'
      refine ⟨Nat.mul_mod_left f pageSize, fun x => ?_⟩
      rw [Nat.mul_div_cancel f (by decide), htake.test]
      by_cases hx : f ≤ x ∧ x < f + n
      · have hmem : x ∈ List.range' f n := by rw [List.mem_range'_1]; exact hx
        rw [if_pos hx]
        exact ⟨htake.free x hmem, by simp [hmem]⟩
      · have hmem : x ∉ List.range' f n := by rw [List.mem_range'_1]; exact hx
        rw [if_neg hx]
        simp [hmem]
  · obtain ⟨h1, h2, h3⟩ := hinv.handed f hf
    refine ⟨h1, h2, h3, fun r hr hm => ?_⟩
    have := hres r hr f h2 hm
    rw [h3] at this
    cases this

/-- A machine with 32 KB of memory above 1 MB, the kernel in its first page. -/
def smallMachine : BootInfo where
  tags := [.other 4, .mmap [⟨0, 0x9f000, 1⟩, ⟨0x100000, 0x8000, 1⟩]]
  kernelStart := 0x100000
  kernelEnd := 0x100800
  mbiPhys := 0x102000
  totalSize := 0x400
  kernel_le := by decide
  kernel_lt := by decide
  mbi_lt := by decide
  total_lt := by decide
  module_lt := by simp

/-- On the small machine: one frame, a run of three, the first frame again after a free. -/
theorem pmm_frames_exclusive_small :
    ∃ s₀ sys, pmmInitFromMultiboot smallMachine (fun _ => 0#64) = some s₀ ∧
      Run (Graph pmmStep) ⟨s₀, [], []⟩ [.alloc, .allocN 3, .free 0x103000, .allocZone .normal] sys ∧
      sys.owned = [0x103, 0x104, 0x105, 0x106] ∧ sys.owned.Nodup := by
  obtain ⟨s₀, hs₀⟩ := Option.isSome_iff_exists.mp
    (show (pmmInitFromMultiboot smallMachine (fun _ => 0#64)).isSome by decide +kernel)
  have hget : s₀ = (pmmInitFromMultiboot smallMachine (fun _ => 0#64)).get (by decide +kernel) := by simp [hs₀]
  have hops : ([PmmOp.alloc, .allocN 3, .free 0x103000, .allocZone .normal].foldlM pmmStep ⟨s₀, [], []⟩).map
      PmmSys.owned = some [0x103, 0x104, 0x105, 0x106] := by
    rw [hget]; decide +kernel
  obtain ⟨sys, hfold, howned⟩ := Option.map_eq_some_iff.mp hops
  have hrun := Run.of_foldlM hfold
  exact ⟨s₀, sys, hs₀, hrun, howned, (pmm_frames_exclusive _ _ _ _ _ hs₀ hrun).1⟩

end MyUnix.Mm
