import MyUnix.Mm.PmmSearch
import Mathlib.Data.Set.Card

/-!
# `Mm.PmmBoot` — the frames that are free after boot

`pmm_init_from_multiboot` clears the bits of the AVAILABLE entries, rounded inwards, and then sets those of the
reserved ranges, rounded outwards. Each loop passes over a bit that is already as it should be, so in terms of bits an
entry more is a union and a range more a difference (`foldl_addRegion_test`, `foldl_reserveRegion_test`). The frames
that are free at the end are those of the entries less those of the ranges (`pmmInit_free`), whatever the ranges are;
`Mm.BootMemory` says what they are when the boot information is read again from under the bitmap.

The bitmap has `g_total_pages / 8` bytes, rounded up to whole pages. The division drops what does not fill a byte, and
where nothing is left to round up the last few pages have no bit.

What is available is taken from the entries of the memory map with whole frames only, so a frame that an entry covers
in part is not; what is in use is every frame with a byte in it. An entry that is reserved in the memory map has no
say: where it overlaps an available one, the frames of both are free. That is the reading of the source, which looks
at available entries only.

`bitmap_holds_iff` is about the storage. The number of bytes is `g_total_pages / 8` rounded up to pages, and the
number of pages that the memory has need not be a multiple of 8.
-/

namespace MyUnix.Mm

open Lib

/-- The frame `f` and the range `r` have a byte in common. -/
def Overlaps (f : Nat) (r : Nat × Nat) : Prop := ∃ b, b / pageSize = f ∧ r.1 ≤ b ∧ b < r.1 + r.2

/-- The frame lies wholly inside an AVAILABLE entry. -/
def Available (entries : List MmapEntry) (f : Nat) : Prop :=
  ∃ e ∈ entries, e.type = mmapAvailable ∧ e.addr ≤ f * pageSize ∧ (f + 1) * pageSize ≤ e.addr + e.len

/-- What is in use at boot: the first megabyte, the kernel image, the bitmap behind it, the boot information and the
    first module. -/
def usedRanges (info : BootInfo) (totalPages : Nat) : List (Nat × Nat) :=
  [(0, 0x100000), (info.kernelStart, info.kernelEnd - info.kernelStart),
    (alignUp info.kernelEnd, bitmapBytes totalPages), (info.mbiPhys, info.totalSize)] ++
  match info.firstModule with
  | some (modStart, modEnd) => [(modStart, modEnd - modStart)]
  | none => []

/-- The word `w` of the bitmap lies inside the storage that is sized, filled and reserved for it. -/
def InBitmap (totalPages w : Nat) : Prop := (w + 1) * 8 ≤ bitmapBytes totalPages

/-- **The storage holds the bitmap**: the word of every page, and all words that `pmm_alloc` scans. -/
structure BitmapHolds (totalPages : Nat) : Prop where
  pages : ∀ page < totalPages, InBitmap totalPages (page / 64)
  words : ∀ w < (totalPages + 63) / 64, InBitmap totalPages w

theorem bitmapBytes_eq {totalPages : Nat} (h : totalPages ≤ 2 ^ 52) :
    bitmapBytes totalPages = (totalPages / 8 + 4095) / 4096 * 4096 := by
  unfold bitmapBytes alignUp alignDown pageSize
  rw [Nat.mod_eq_of_lt (by omega)]

/-! ## Ranges of frames

From bytes to frames. A range may wrap around the top of the address space, and may be empty; the lemmas say what the
loops of `pmm.c` visit in terms of the numbers of the range.
-/

/-- A range that is not empty, or begins at a page, overlaps the frames that it meets. -/
theorem meets_iff_overlaps {f : Nat} {r : Nat × Nat} (hr : 0 < r.2 ∨ r.1 % pageSize = 0) :
    Meets f r ↔ Overlaps f r := by
  unfold Meets Overlaps
  rw [pageSize] at *
  constructor
  · rintro ⟨h1, h2⟩
    refine ⟨max (f * 4096) r.1, ?_, Nat.le_max_right _ _, ?_⟩
    · omega
    · omega
  · rintro ⟨b, rfl, h1, h2⟩
    omega

/-- The loop of `pmm_reserve_region` visits the frames that the range meets. -/
theorem mem_pagesBetween_iff {f : Nat} {r : Nat × Nat} (hr : r.1 + r.2 < 2 ^ 63) :
    f ∈ Pmm.pagesBetween (alignDown r.1) (alignUp ((r.1 + r.2) % 2 ^ 64)) ↔ Meets f r := by
  refine ⟨fun h => ?_, mem_pagesBetween hr⟩
  unfold Pmm.pagesBetween alignUp alignDown pageSize at h
  rw [Nat.mod_eq_of_lt (show r.1 + r.2 < 2 ^ 64 by omega),
    Nat.mod_eq_of_lt (show r.1 + r.2 + (4096 - 1) < 2 ^ 64 by omega), List.mem_range'_1] at h
  unfold Meets pageSize
  omega

/-- The loop that frees an entry visits the frames inside it. -/
theorem mem_pagesBetween_inside {f addr len : Nat} (h : addr + len ≤ 2 ^ 64 - 4096) :
    f ∈ Pmm.pagesBetween (alignUp addr) (alignDown ((addr + len) % 2 ^ 64)) ↔
      addr ≤ f * pageSize ∧ (f + 1) * pageSize ≤ addr + len := by
  unfold Pmm.pagesBetween alignUp alignDown pageSize
  rw [Nat.mod_eq_of_lt (show addr + len < 2 ^ 64 by omega),
    Nat.mod_eq_of_lt (show addr + (4096 - 1) < 2 ^ 64 by omega), List.mem_range'_1]
  omega

/-- No entry ends beyond `g_max_phys`. -/
theorem le_maxPhys {entries : List MmapEntry} {e : MmapEntry} (he : e ∈ entries) (hend : e.addr + e.len < 2 ^ 64) :
    e.addr + e.len ≤ maxPhys entries := by
  have hfold : ∀ (es : List MmapEntry) (m : Nat),
      m ≤ es.foldl (fun m e => if m < (e.addr + e.len) % 2 ^ 64 then (e.addr + e.len) % 2 ^ 64 else m) m ∧
      (e ∈ es → e.addr + e.len ≤
        es.foldl (fun m e => if m < (e.addr + e.len) % 2 ^ 64 then (e.addr + e.len) % 2 ^ 64 else m) m) := by
    intro es
    induction es with
    | nil => exact fun m => ⟨Nat.le_refl m, fun h => absurd h List.not_mem_nil⟩
    | cons d es ih =>
        intro m
        rw [List.foldl_cons]
        obtain ⟨hm, hmem⟩ := ih (if m < (d.addr + d.len) % 2 ^ 64 then (d.addr + d.len) % 2 ^ 64 else m)
        refine ⟨Nat.le_trans ?_ hm, fun h => ?_⟩
        · split <;> omega
        · rcases List.mem_cons.mp h with rfl | h
          · refine Nat.le_trans ?_ hm
            rw [Nat.mod_eq_of_lt hend]
            split <;> omega
          · exact hmem h
  exact (hfold entries 0).2 he

namespace Pmm

/-! ## Entries and ranges, bit by bit

The folds over all entries and over all ranges, with the bits beyond the last page left alone.
-/

theorem foldl_addRegion_test : ∀ (rs : List (Nat × Nat)) (s : Pmm) (x : Nat), x < s.totalPages →
    ((rs.foldl (fun s r => s.pmmAddRegion r.1 r.2) s).bitmapTest x = false ↔
      (∃ r ∈ rs, x ∈ pagesBetween (alignUp r.1) (alignDown ((r.1 + r.2) % 2 ^ 64))) ∨ s.bitmapTest x = false)
  | [],      s, x, _  => by simp
  | r :: rs, s, x, hx => by
    obtain ⟨htotal, htest⟩ := s.pmmAddRegion_spec r.1 r.2
    rw [List.foldl_cons, foldl_addRegion_test rs _ x (by rw [htotal]; exact hx), htest]
    simp only [List.mem_cons, exists_eq_or_imp, hx, and_true]
    generalize pagesBetween (alignUp r.1) (alignDown ((r.1 + r.2) % 2 ^ 64)) = pfns
    have hbit : (!decide (x ∈ pfns) && s.bitmapTest x) = false ↔ x ∈ pfns ∨ s.bitmapTest x = false := by
      by_cases hmem : x ∈ pfns
      · simp [hmem]
      · simp [hmem]
    rw [hbit, or_assoc, or_left_comm]

theorem foldl_reserveRegion_test : ∀ (rs : List (Nat × Nat)) (s : Pmm) (x : Nat), x < s.totalPages →
    ((rs.foldl (fun s r => s.pmmReserveRegion r.1 r.2) s).bitmapTest x = false ↔
      (∀ r ∈ rs, x ∉ pagesBetween (alignDown r.1) (alignUp ((r.1 + r.2) % 2 ^ 64))) ∧ s.bitmapTest x = false)
  | [],      s, x, _  => by simp
  | r :: rs, s, x, hx => by
    obtain ⟨htotal, htest⟩ := s.pmmReserveRegion_spec r.1 r.2
    rw [List.foldl_cons, foldl_reserveRegion_test rs _ x (by rw [htotal]; exact hx), htest]
    simp only [List.forall_mem_cons, hx, and_true]
    generalize pagesBetween (alignDown r.1) (alignUp ((r.1 + r.2) % 2 ^ 64)) = pfns
    have hbit : (decide (x ∈ pfns) || s.bitmapTest x) = false ↔ x ∉ pfns ∧ s.bitmapTest x = false := by
      by_cases hmem : x ∈ pfns
      · simp [hmem]
      · simp [hmem]
    rw [hbit, and_assoc, and_left_comm]

/-- Bits behind that of the last page are left alone. -/
theorem foldl_reserveRegion_out {x : Nat} : ∀ (rs : List (Nat × Nat)) (s : Pmm), s.totalPages ≤ x →
    (rs.foldl (fun s r => s.pmmReserveRegion r.1 r.2) s).bitmapTest x = s.bitmapTest x
  | [],      _, _  => rfl
  | r :: rs, s, hx => by
    obtain ⟨htotal, htest⟩ := s.pmmReserveRegion_spec r.1 r.2
    rw [List.foldl_cons, foldl_reserveRegion_out rs _ (by rw [htotal]; exact hx), htest,
      decide_eq_false fun h => Nat.not_lt.mpr hx h.2, Bool.false_or]

theorem foldl_addRegion_out {x : Nat} : ∀ (rs : List (Nat × Nat)) (s : Pmm), s.totalPages ≤ x →
    (rs.foldl (fun s r => s.pmmAddRegion r.1 r.2) s).bitmapTest x = s.bitmapTest x
  | [],      _, _  => rfl
  | r :: rs, s, hx => by
    obtain ⟨htotal, htest⟩ := s.pmmAddRegion_spec r.1 r.2
    rw [List.foldl_cons, foldl_addRegion_out rs _ (by rw [htotal]; exact hx), htest,
      decide_eq_false fun h => Nat.not_lt.mpr hx h.2, Bool.not_false, Bool.true_and]

end Pmm

/-! ## Boot

First the allocator with an arbitrary list of ranges that are reserved last (`Pmm.reserved`), so that the result can
be used with the ranges as they should be and with those that are read in their place.
-/

section

variable {info : BootInfo} {garbage : Nat → BitVec 64} {entries : List MmapEntry}

/-- The allocator after the bitmap was filled. -/
def Pmm.filled (entries : List MmapEntry) (garbage : Nat → BitVec 64) : Pmm where
  bitmap w := if w < bitmapBytes (maxPhys entries / pageSize) / 8 then BitVec.allOnes 64 else garbage w
  totalPages := maxPhys entries / pageSize
  freePages := 0#64
  usedPages := BitVec.ofNat 64 (maxPhys entries / pageSize)
  allocHint := 0

/-- The allocator after the available entries were freed and then `ranges` reserved. -/
def Pmm.reserved (entries : List MmapEntry) (garbage : Nat → BitVec 64) (ranges : List (Nat × Nat)) : Pmm :=
  ranges.foldl (fun s r => s.pmmReserveRegion r.1 r.2)
    ((availableRanges entries).foldl (fun s r => s.pmmAddRegion r.1 r.2) (Pmm.filled entries garbage))

@[simp] theorem Pmm.reserved_total (ranges : List (Nat × Nat)) :
    (Pmm.reserved entries garbage ranges).totalPages = maxPhys entries / pageSize := by
  rw [Pmm.reserved, (Pmm.foldl_reserveRegion_spec _ _).1, Pmm.foldl_addRegion_total]
  rfl

/-- What boot computes, unfolded once. -/
theorem pmmInit_eq (hmap : info.mmapEntries = some entries) : pmmInitFromMultiboot info garbage =
    some (Pmm.reserved entries garbage (reservedRanges info (maxPhys entries / pageSize))) := by
  rw [pmmInitFromMultiboot, hmap]
  rfl

theorem Pmm.reserved_test_out {ranges : List (Nat × Nat)} {f : Nat} (hf : maxPhys entries / pageSize ≤ f) :
    (Pmm.reserved entries garbage ranges).bitmapTest f = (Pmm.filled entries garbage).bitmapTest f := by
  rw [Pmm.reserved, Pmm.foldl_reserveRegion_out _ _ (by rw [Pmm.foldl_addRegion_total]; exact hf),
    Pmm.foldl_addRegion_out _ _ hf]

/-- An available frame that no reserved range meets. -/
def Unreserved (entries : List MmapEntry) (ranges : List (Nat × Nat)) (f : Nat) : Prop :=
  Available entries f ∧ ∀ r ∈ ranges, ¬ Meets f r

/-- Available frames lie below the last page. -/
theorem Available.lt {f : Nat} (h : Available entries f) (hends : ∀ e ∈ entries, e.addr + e.len ≤ 2 ^ 64 - 4096) :
    f < maxPhys entries / pageSize := by
  obtain ⟨e, he, -, -, hend⟩ := h
  have hmax := le_maxPhys he (Nat.lt_of_le_of_lt (hends e he) (by decide))
  rw [pageSize] at *
  omega

/-- **The bits of the storage.** They are clear for the frames that are available and not reserved, and for no others. -/
theorem Pmm.reserved_test {ranges : List (Nat × Nat)} {f : Nat} (hlen : entries.length ≤ 32)
    (hends : ∀ e ∈ entries, e.addr + e.len ≤ 2 ^ 64 - 4096) (hranges : ∀ r ∈ ranges, r.1 + r.2 < 2 ^ 63)
    (hword : f / 64 < bitmapBytes (maxPhys entries / pageSize) / 8) :
    (Pmm.reserved entries garbage ranges).bitmapTest f = false ↔ Unreserved entries ranges f := by
  have hfull : (Pmm.filled entries garbage).bitmapTest f = true := by
    have hbit : f % 64 < 64 := Nat.mod_lt _ (by decide)
    rw [Pmm.bitmapTest_eq]
    simp only [Pmm.filled, if_pos hword, BitVec.getLsbD_allOnes, decide_eq_true hbit]
  have havail : (∃ r ∈ availableRanges entries,
      f ∈ Pmm.pagesBetween (alignUp r.1) (alignDown ((r.1 + r.2) % 2 ^ 64))) ↔ Available entries f := by
    unfold availableRanges Available
    rw [List.take_of_length_le (by exact hlen)]
    constructor
    · rintro ⟨r, hr, hf⟩
      obtain ⟨e, he, rfl⟩ := List.mem_map.mp hr
      obtain ⟨he, htype⟩ := List.mem_filter.mp he
      exact ⟨e, he, of_decide_eq_true htype, (mem_pagesBetween_inside (hends e he)).mp hf⟩
    · rintro ⟨e, he, htype, hin⟩
      refine ⟨(e.addr, e.len), List.mem_map.mpr ⟨e, List.mem_filter.mpr ⟨he, decide_eq_true htype⟩, rfl⟩, ?_⟩
      exact (mem_pagesBetween_inside (hends e he)).mpr hin
  have hreserved : (∀ r ∈ ranges, f ∉ Pmm.pagesBetween (alignDown r.1) (alignUp ((r.1 + r.2) % 2 ^ 64))) ↔
      ∀ r ∈ ranges, ¬ Meets f r := by
    refine forall_congr' fun r => forall_congr' fun hr => not_congr ?_
    exact mem_pagesBetween_iff (hranges r hr)
  by_cases hf : f < maxPhys entries / pageSize
  · rw [Pmm.reserved, Pmm.foldl_reserveRegion_test _ _ _ (by rw [Pmm.foldl_addRegion_total]; exact hf),
      Pmm.foldl_addRegion_test _ _ _ hf, hfull, hreserved, havail, and_comm, Unreserved]
    simp
  · refine iff_of_false ?_ fun h => hf (h.1.lt hends)
    rw [Pmm.reserved_test_out (Nat.le_of_not_lt hf), hfull]
    exact Bool.noConfusion

/-- The reserved ranges keep the frames that are in use from being free, and no others. -/
theorem reserved_iff_used (hkernel : info.kernelStart < info.kernelEnd) (hmbi : 0 < info.totalSize)
    (hmod : ∀ a b, info.firstModule = some (a, b) → a < b) (total f : Nat) :
    (∀ r ∈ reservedRanges info total, ¬ Meets f r) ↔ ∀ r ∈ usedRanges info total, ¬ Overlaps f r := by
  have hkern := info.kernel_lt
  have halign : alignUp info.kernelEnd = (info.kernelEnd + 4095) / 4096 * 4096 := by
    unfold alignUp alignDown pageSize
    rw [Nat.mod_eq_of_lt (by omega)]
  have himage : Meets f (info.kernelStart, (alignUp info.kernelEnd + 2 ^ 64 - info.kernelStart) % 2 ^ 64) ↔
      Meets f (info.kernelStart, info.kernelEnd - info.kernelStart) := by
    rw [halign]
    unfold Meets pageSize
    simp only
    omega
  have hmodule : (∀ r ∈ (match info.firstModule with
        | some (modStart, modEnd) => [(modStart, (modEnd + 2 ^ 32 - modStart) % 2 ^ 32)]
        | none => ([] : List (Nat × Nat))), ¬ Meets f r) ↔
      ∀ r ∈ (match info.firstModule with
        | some (modStart, modEnd) => [(modStart, modEnd - modStart)]
        | none => ([] : List (Nat × Nat))), ¬ Overlaps f r := by
    cases hfirst : info.firstModule with
    | none => simp
    | some m =>
        obtain ⟨a, b⟩ := m
        have hab := hmod a b hfirst
        have hmem : Mb2Tag.module a b ∈ info.tags := by
          obtain ⟨t, ht, heq⟩ := List.exists_of_findSome?_eq_some hfirst
          cases t <;> simp_all
        have hlt := info.module_lt a b hmem
        have hsize : (b + 2 ^ 32 - a) % 2 ^ 32 = b - a := by omega
        simp only [List.mem_singleton, forall_eq, hsize]
        rw [meets_iff_overlaps (.inl (by simp only; omega))]
  have hzero : Meets f (0, pageSize) → Meets f (0, 0x100000) := by
    unfold Meets pageSize
    simp only
    omega
  unfold reservedRanges usedRanges
  simp only [List.forall_mem_append, List.forall_mem_cons]
  rw [himage, ← meets_iff_overlaps (f := f) (r := (0, 0x100000)) (.inr rfl),
    ← meets_iff_overlaps (f := f) (r := (info.kernelStart, info.kernelEnd - info.kernelStart)) (.inl (by simp only; omega)),
    ← meets_iff_overlaps (f := f) (r := (alignUp info.kernelEnd, bitmapBytes total)) (.inr (Nat.mul_mod_left _ _)),
    ← meets_iff_overlaps (f := f) (r := (info.mbiPhys, info.totalSize)) (.inl hmbi)]
  simp only [List.not_mem_nil, false_implies, implies_true, and_true]
  refine and_congr ⟨fun h => h.2, fun h => ⟨fun h0 => h.1 (hzero h0), h⟩⟩ hmodule

/-- **The frames that are free after boot**, if the boot information is read as `info` says. -/
theorem pmmInit_free {s : Pmm} (hmap : info.mmapEntries = some entries) (hlen : entries.length ≤ 32)
    (hends : ∀ e ∈ entries, e.addr + e.len ≤ 2 ^ 64 - 4096) (hinit : pmmInitFromMultiboot info garbage = some s)
    (hcover : s.totalPages ≤ 8 * bitmapBytes s.totalPages) (f : Nat) :
    f ∈ s.freeFrames ↔ Unreserved entries (reservedRanges info s.totalPages) f := by
  have hbound := (pmmInit_spec hinit).1
  obtain rfl := Option.some.inj ((pmmInit_eq hmap).symm.trans hinit)
  rw [Pmm.reserved_total] at hbound hcover
  rw [Pmm.mem_freeFrames, Pmm.reserved_total]
  have hword : f < maxPhys entries / pageSize → f / 64 < bitmapBytes (maxPhys entries / pageSize) / 8 := by
    intro hf
    rw [bitmapBytes_eq hbound] at *
    omega
  constructor
  · rintro ⟨hf, hbit⟩
    exact (Pmm.reserved_test hlen hends (reservedRanges_lt info hbound) (hword hf)).mp hbit
  · intro hfree
    have hf := hfree.1.lt hends
    exact ⟨hf, (Pmm.reserved_test hlen hends (reservedRanges_lt info hbound) (hword hf)).mpr hfree⟩

/-! ## The storage

Whether there is a bit for every page.
-/

/-- **The storage holds the bitmap** exactly if the number of pages over the last whole page of the bitmap is 0 or fills
    a byte. -/
theorem bitmap_holds_iff (info : BootInfo) (garbage : Nat → BitVec 64) (s : Pmm)
    (hinit : pmmInitFromMultiboot info garbage = some s) :
    BitmapHolds s.totalPages ↔ s.totalPages % 32768 = 0 ∨ 8 ≤ s.totalPages % 32768 := by
  have hbytes := bitmapBytes_eq (pmmInit_spec hinit).1
  generalize s.totalPages = total at *
  constructor
  · intro hholds
    by_contra hbad
    -- the last page has no bit
    have hlast := hholds.pages (total - 1) (by omega)
    rw [InBitmap, hbytes] at hlast
    omega
  · intro hgood
    have hin : ∀ w, w * 64 < total → InBitmap total w := by
      intro w hw
      rw [InBitmap, hbytes]
      omega
    exact ⟨fun page hpage => hin _ (by omega), fun w hw => hin _ (by omega)⟩

/-- The small machine has 264 pages. -/
theorem bitmap_holds_small : ∃ s, pmmInitFromMultiboot smallMachine (fun _ => 0#64) = some s ∧
    BitmapHolds s.totalPages := by
  obtain ⟨s, hs, -, htotal, -⟩ := smallMachine_boot
  refine ⟨s, hs, (bitmap_holds_iff smallMachine _ s hs).mpr ?_⟩
  rw [htotal]
  decide

/-- 128 MB of memory and a page. -/
def oddMachine : BootInfo where
  tags := [.mmap [⟨0x100000, 0x7f01000, 1⟩]]
  kernelStart := 0x100000
  kernelEnd := 0x100800
  mbiPhys := 0x102000
  totalSize := 0x400
  kernel_le := smallMachine.kernel_le
  kernel_lt := smallMachine.kernel_lt
  mbi_lt := smallMachine.mbi_lt
  total_lt := smallMachine.total_lt
  module_lt := by simp

/-- **The bit of the last page** lies behind the storage. -/
theorem bitmap_holds_odd : ∃ s, pmmInitFromMultiboot oddMachine (fun _ => 0#64) = some s ∧ s.totalPages = 32769 ∧
    bitmapBytes s.totalPages = 4096 ∧ ¬ BitmapHolds s.totalPages := by
  obtain ⟨s, hs⟩ : ∃ s, pmmInitFromMultiboot oddMachine (fun _ => 0#64) = some s := ⟨_, rfl⟩
  have htotal : s.totalPages = 32769 := by
    rw [← Option.some.inj ((@pmmInit_eq oddMachine _ _ rfl).symm.trans hs), Pmm.reserved_total]
    rfl
  refine ⟨s, hs, htotal, by rw [htotal]; decide, fun hholds => ?_⟩
  have hlast := hholds.pages 32768 (by rw [htotal]; decide)
  rw [htotal] at hlast
  exact absurd hlast (by unfold InBitmap; decide)

end

end MyUnix.Mm
