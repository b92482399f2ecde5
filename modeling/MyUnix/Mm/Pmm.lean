import Mathlib.Data.List.Nodup
import Mathlib.Logic.Function.Basic
import MyUnix.Lib.Bytes

/-!
# `Mm.Pmm` — the physical page allocator

`pmm.c`: one bitmap with a bit per frame (set = in use), built from the boot loader's memory map, and three
allocators that search it in different ways: `pmm_alloc` by words from a hint, in two passes,
`pmm_alloc_zone` by frames below a bound, `pmm_alloc_n` for a run of consecutive frames.

The bitmap is a function of the word index, so its storage covers every frame; a word that initialisation does
not fill holds whatever the memory held before. Physical addresses are numbers below `2 ^ 64` with the wrap-around of `uint64_t` written
out. Every operation has one lemma in terms of `bitmapTest`.

What the three allocators have in common is said once, by `Takes s s' fs`: the frames `fs` were free and below the
last frame, they are in use now, and no other bit changed. Each allocator either leaves everything as it is and
returns 0 or takes such a list. Which frames it takes is a second question, and it is answered in `Mm.PmmSearch`; that
the counters agree with the bits is a third one, in `Mm.PmmCount`.

The operations are total on any state. A free of a frame that is not below the last one or is not aligned is ignored,
as in the source, and the double free is the one panic that the file has. The functions that search do not stop at the
storage of the bitmap but at `g_total_pages`: whether the two are the same is asked in `Mm.PmmBoot`.
-/

namespace MyUnix.Mm

/-- `PAGE_SIZE`. -/
def pageSize : Nat := 4096

/-- `ALIGN_DOWN(x, PAGE_SIZE)`. -/
def alignDown (x : Nat) : Nat := x / pageSize * pageSize

/-- `ALIGN_UP(x, PAGE_SIZE)` in 64 bits. -/
def alignUp (x : Nat) : Nat := alignDown ((x + (pageSize - 1)) % 2 ^ 64)

/-- `g_pmm`, with the bitmap behind `g_bitmap`; bit 1 is a frame that is used or reserved. -/
structure Pmm where
  bitmap     : Nat → BitVec 64
  totalPages : Nat
  freePages  : BitVec 64
  usedPages  : BitVec 64
  allocHint  : Nat

namespace Pmm

variable (s : Pmm)

/-- `bitmap_set`. -/
def bitmapSet (page : Nat) : Pmm :=
  { s with bitmap :=
      Function.update s.bitmap (page / 64) (s.bitmap (page / 64) ||| BitVec.twoPow 64 (page % 64)) }

/-- `bitmap_clear`. -/
def bitmapClear (page : Nat) : Pmm :=
  { s with bitmap :=
      Function.update s.bitmap (page / 64) (s.bitmap (page / 64) &&& ~~~(BitVec.twoPow 64 (page % 64))) }

/-- `bitmap_test`. -/
def bitmapTest (page : Nat) : Bool := (s.bitmap (page / 64) &&& BitVec.twoPow 64 (page % 64)) != 0#64

/-- Mark a frame used, with the counters. -/
def take (pfn : Nat) : Pmm :=
  let s := s.bitmapSet pfn
  { s with freePages := s.freePages - 1#64, usedPages := s.usedPages + 1#64 }

/-- Mark a frame free, with the counters. -/
def release (pfn : Nat) : Pmm :=
  let s := s.bitmapClear pfn
  { s with freePages := s.freePages + 1#64, usedPages := s.usedPages - 1#64 }

/-- The frames of the loop `for (p = start; p < end; p += PAGE_SIZE)` over page-aligned bounds. -/
def pagesBetween (start stop : Nat) : List Nat :=
  List.range' (start / pageSize) (stop / pageSize - start / pageSize)

/-- `pmm_reserve_region`: the frames that the region touches. -/
def pmmReserveRegion (base size : Nat) : Pmm :=
  (pagesBetween (alignDown base) (alignUp ((base + size) % 2 ^ 64))).foldl
    (fun s pfn => if pfn < s.totalPages ∧ s.bitmapTest pfn = false then s.take pfn else s) s

/-- `pmm_add_region`: the frames that lie in the region. -/
def pmmAddRegion (base size : Nat) : Pmm :=
  (pagesBetween (alignUp base) (alignDown ((base + size) % 2 ^ 64))).foldl
    (fun s pfn => if pfn < s.totalPages ∧ s.bitmapTest pfn = true then s.release pfn else s) s

/-! ## Initialisation

The boot information is a record here: the tags, and where the image and the block lie. Two things are said elsewhere,
how the tags are found in memory (`Mm.Multiboot`) and what becomes of the block when the bitmap is written over it
(`Mm.BootMemory`). Entries are kept up to `PMM_MAX_REGIONS` and silently dropped from there on; `g_max_phys` is taken
over all of them.
-/

end Pmm

/-- An entry of the memory map: `addr`, `len` and `type` (1 is AVAILABLE). -/
structure MmapEntry where
  addr : Nat
  len  : Nat
  type : Nat

/-- The tags `mb2_find_tag` can find. -/
inductive Mb2Tag where
  | mmap (entries : List MmapEntry)
  | module (modStart modEnd : Nat)
  | other (type : Nat)

/-- What `pmm_init_from_multiboot` reads: the tags, and where the kernel image and the boot information lie in
    physical memory. -/
structure BootInfo where
  tags        : List Mb2Tag
  kernelStart : Nat
  kernelEnd   : Nat
  mbiPhys     : Nat
  totalSize   : Nat
  kernel_le   : kernelStart ≤ kernelEnd
  kernel_lt   : kernelEnd < 2 ^ 62
  mbi_lt      : mbiPhys < 2 ^ 62
  total_lt    : totalSize < 2 ^ 32
  module_lt   : ∀ modStart modEnd, Mb2Tag.module modStart modEnd ∈ tags → modStart < 2 ^ 32 ∧ modEnd < 2 ^ 32

namespace BootInfo

variable (info : BootInfo)

/-- The entries of the first memory-map tag. -/
def mmapEntries : Option (List MmapEntry) :=
  info.tags.findSome? fun
    | .mmap entries => some entries
    | _ => none

/-- The first module tag. -/
def firstModule : Option (Nat × Nat) :=
  info.tags.findSome? fun
    | .module modStart modEnd => some (modStart, modEnd)
    | _ => none

end BootInfo

/-- `PMM_MAX_REGIONS`. -/
def pmmMaxRegions : Nat := 32

/-- `MB2_MMAP_AVAILABLE`. -/
def mmapAvailable : Nat := 1

/-- `g_max_phys`: the largest end of an entry. -/
def maxPhys (entries : List MmapEntry) : Nat :=
  entries.foldl (fun m e => if m < (e.addr + e.len) % 2 ^ 64 then (e.addr + e.len) % 2 ^ 64 else m) 0

/-- `bitmap_bytes`. -/
def bitmapBytes (totalPages : Nat) : Nat := alignUp (totalPages / 8)

/-- The ranges that initialisation reserves, as (base, size), in its order. -/
def reservedRanges (info : BootInfo) (totalPages : Nat) : List (Nat × Nat) :=
  let kernEndPhys := alignUp info.kernelEnd
  [(0, pageSize), (0, 0x100000),
    (info.kernelStart, (kernEndPhys + 2 ^ 64 - info.kernelStart) % 2 ^ 64),
    (kernEndPhys, bitmapBytes totalPages),
    (info.mbiPhys, info.totalSize)] ++
  match info.firstModule with
  | some (modStart, modEnd) => [(modStart, (modEnd + 2 ^ 32 - modStart) % 2 ^ 32)]
  | none => []

/-- Only the first `PMM_MAX_REGIONS` entries are kept, and of these the AVAILABLE ones are freed. -/
def availableRanges (entries : List MmapEntry) : List (Nat × Nat) :=
  ((entries.take pmmMaxRegions).filter fun e => e.type = mmapAvailable).map fun e => (e.addr, e.len)

/-- `pmm_init_from_multiboot` over the previous contents `garbage` of the bitmap storage; `none` is the panic
    without a memory map. -/
def pmmInitFromMultiboot (info : BootInfo) (garbage : Nat → BitVec 64) : Option Pmm :=
  match info.mmapEntries with
  | none => none
  | some entries =>
      let totalPages := maxPhys entries / pageSize
      let s : Pmm :=
        { bitmap := fun w => if w < bitmapBytes totalPages / 8 then BitVec.allOnes 64 else garbage w
          totalPages, freePages := 0#64, usedPages := BitVec.ofNat 64 totalPages, allocHint := 0 }
      let s := (availableRanges entries).foldl (fun s r => s.pmmAddRegion r.1 r.2) s
      some ((reservedRanges info totalPages).foldl (fun s r => s.pmmReserveRegion r.1 r.2) s)

/-! ## Allocation

The loops as the source has them. `pmm_alloc` looks at whole words and starts at the hint, wraps around once and looks
at the words before it; the zones are scanned frame by frame from frame 1 on; `pmm_alloc_n` counts consecutive free
frames and begins again at each frame in use. None of them considers frame 0, which is also the value for failure.
-/

/-- `zone_id_t`. -/
inductive Zone where
  | low
  | dma
  | normal
  | high
deriving DecidableEq

/-- The bound of a zone with a scan of its own. -/
def Zone.maxPhys : Zone → Option Nat
  | .low => some 0x100000
  | .dma => some 0x1000000
  | .normal => some 0x100000000
  | .high => none

namespace Pmm

variable (s : Pmm)

/-- The lowest clear bit of a word, unless it lies beyond the last frame. -/
def scanWord (w : Nat) : Option Nat :=
  if s.bitmap w = BitVec.allOnes 64 then none
  else
    let pfn := w * 64 + (BitVec.ctz (~~~(s.bitmap w))).toNat
    if s.totalPages ≤ pfn then none else some pfn

/-- One pass of `pmm_alloc` over the words `start ≤ w < stop`. -/
def scanWords (start stop : Nat) : Option Nat := (List.range' start (stop - start)).findSome? s.scanWord

/-- `pmm_alloc`: from the hint to the end, then from the beginning. -/
def pmmAlloc : Nat × Pmm :=
  if s.freePages = 0#64 then (0, s)
  else
    let words := (s.totalPages + 63) / 64
    let startWord := s.allocHint / 64
    match (s.scanWords startWord words).or (s.scanWords 0 startWord) with
    | none => (0, s)
    | some pfn =>
        (pfn * pageSize, { s.take pfn with allocHint := if s.totalPages ≤ pfn + 1 then 0 else pfn + 1 })

/-- `pmm_alloc_zone`. -/
def pmmAllocZone (zone : Zone) : Nat × Pmm :=
  match zone.maxPhys with
  | none => s.pmmAlloc
  | some bound =>
      match (List.range' 1 (min (bound / pageSize) s.totalPages - 1)).find? fun pfn => !s.bitmapTest pfn with
      | none => (0, s)
      | some pfn => (pfn * pageSize, s.take pfn)

/-- The loop of `pmm_alloc_n` over the frames still to come: `count` free frames in a row from `start` so far. -/
def findRun (n : Nat) : List Nat → Nat → Nat → Option Nat
  | [],          _,     _     => none
  | pfn :: pfns, count, start =>
      if s.bitmapTest pfn = false then
        let start := if count = 0 then pfn else start
        if count + 1 = n then some start else findRun n pfns (count + 1) start
      else findRun n pfns 0 start

/-- `pmm_alloc_n`: the first run that is long enough. -/
def pmmAllocN (n : Nat) : Nat × Pmm :=
  if n = 0 then (0, s)
  else if n = 1 then s.pmmAlloc
  else if s.freePages.toNat < n then (0, s)
  else match s.findRun n (List.range' 1 (s.totalPages - 1)) 0 0 with
    | none => (0, s)
    | some start => (start * pageSize, (List.range' start n).foldl take s)

/-- `pmm_free`; `none` is the double-free panic. -/
def pmmFree (phys : Nat) : Option Pmm :=
  if phys = 0 ∨ phys % pageSize ≠ 0 then some s
  else
    let pfn := phys / pageSize
    if pfn = 0 ∨ s.totalPages ≤ pfn then some s
    else if s.bitmapTest pfn = false then none
    else
      let s := s.release pfn
      some { s with allocHint := if pfn < s.allocHint then pfn else s.allocHint }

/-- `pmm_free_n`; none is the panic of `pmm_free`. -/
def pmmFreeN (phys n : Nat) : Option Pmm :=
  (List.range n).foldlM (fun s i => s.pmmFree ((phys + i * pageSize) % 2 ^ 64)) s

end Pmm

/-! ## The bitmap, bit by bit

`bitmap_set` and `bitmap_clear` change one bit and no other; what is below says it once, with the arithmetic of word
and bit number, and nothing later opens a word again.
-/

namespace Pmm

variable (s : Pmm) (p x : Nat)

theorem bitmapTest_eq : s.bitmapTest p = (s.bitmap (p / 64)).getLsbD (p % 64) := by
  exact Lib.and_twoPow_bne_zero _ (Nat.mod_lt _ (by decide))

theorem eq_of_div_mod {p x : Nat} (hd : x / 64 = p / 64) (hm : x % 64 = p % 64) : x = p := by omega

@[simp] theorem bitmapTest_bitmapSet : (s.bitmapSet p).bitmapTest x = (decide (x = p) || s.bitmapTest x) := by
  have hlt : x % 64 < 64 := Nat.mod_lt _ (by decide)
  rw [bitmapTest_eq, bitmapTest_eq]
  unfold bitmapSet
  by_cases hw : x / 64 = p / 64
  · simp only [hw, Function.update_self]
    by_cases hb : x % 64 = p % 64
    · have hxp := eq_of_div_mod hw hb
      subst hxp
      simp [hlt]
    · have hne : x ≠ p := fun he => hb (he ▸ rfl)
      simp [hne, Ne.symm hb]
  · have hne : x ≠ p := fun he => hw (he ▸ rfl)
    simp [Function.update_of_ne hw, hne]

@[simp] theorem bitmapTest_bitmapClear : (s.bitmapClear p).bitmapTest x = (decide (x ≠ p) && s.bitmapTest x) := by
  have hlt : x % 64 < 64 := Nat.mod_lt _ (by decide)
  rw [bitmapTest_eq, bitmapTest_eq]
  unfold bitmapClear
  by_cases hw : x / 64 = p / 64
  · simp only [hw, Function.update_self]
    by_cases hb : x % 64 = p % 64
    · have hxp := eq_of_div_mod hw hb
      subst hxp
      simp [hlt]
    · have hne : x ≠ p := fun he => hb (he ▸ rfl)
      have hbit : (BitVec.twoPow 64 (p % 64)).getLsbD (x % 64) = false := by
        simp [BitVec.getLsbD_twoPow, Ne.symm hb]
      simp only [BitVec.getLsbD_and, BitVec.getLsbD_not, hlt, hbit, decide_true, Bool.not_false, Bool.and_true,
        decide_eq_true hne, Bool.true_and]
  · have hne : x ≠ p := fun he => hw (he ▸ rfl)
    simp [Function.update_of_ne hw, hne]

/-- The test reads nothing but the bitmap. -/
theorem bitmapTest_congr {s s' : Pmm} (h : s'.bitmap = s.bitmap) (x : Nat) : s'.bitmapTest x = s.bitmapTest x := by
  unfold bitmapTest
  rw [h]

@[simp] theorem bitmapTest_take : (s.take p).bitmapTest x = (decide (x = p) || s.bitmapTest x) :=
  s.bitmapTest_bitmapSet p x

@[simp] theorem bitmapTest_release : (s.release p).bitmapTest x = (decide (x ≠ p) && s.bitmapTest x) :=
  s.bitmapTest_bitmapClear p x

@[simp] theorem totalPages_take : (s.take p).totalPages = s.totalPages := rfl
@[simp] theorem totalPages_release : (s.release p).totalPages = s.totalPages := rfl

/-! ## What the allocators do

Each search is an induction over what is still to be looked at. `scanWord` and `scanWords` are told apart because the
last word may have bits beyond the last frame, which are skipped.
-/

end Pmm

/-- `s'` is `s` with the frames `fs` taken, which were free and below the last frame. -/
structure Takes (s s' : Pmm) (fs : List Nat) : Prop where
  total : s'.totalPages = s.totalPages
  test : ∀ x, s'.bitmapTest x = (decide (x ∈ fs) || s.bitmapTest x)
  free : ∀ f ∈ fs, s.bitmapTest f = false
  lt : ∀ f ∈ fs, f < s.totalPages

/-- Frame 0 is never free. -/
def ZeroUsed (s : Pmm) : Prop := 0 < s.totalPages → s.bitmapTest 0 = true

theorem Takes.ne_zero {s s' : Pmm} {fs : List Nat} (h : Takes s s' fs) (hz : ZeroUsed s) {f : Nat} (hf : f ∈ fs) :
    f ≠ 0 := by
  rintro rfl
  have hused := hz (h.lt 0 hf)
  rw [h.free 0 hf] at hused
  cases hused

namespace Pmm

variable {s : Pmm}

theorem takes_take {f : Nat} (hfree : s.bitmapTest f = false) (hlt : f < s.totalPages) : Takes s (s.take f) [f] where
  total := rfl
  test x := by simp
  free x hx := by rw [List.mem_singleton.mp hx]; exact hfree
  lt x hx := by rw [List.mem_singleton.mp hx]; exact hlt

/-- Taking a list of frames one after the other. -/
theorem foldl_take_test : ∀ (fs : List Nat) (s : Pmm) (x : Nat),
    (fs.foldl take s).totalPages = s.totalPages ∧
    (fs.foldl take s).bitmapTest x = (decide (x ∈ fs) || s.bitmapTest x)
  | [],      s, x => by simp
  | f :: fs, s, x => by
    obtain ⟨h1, h2⟩ := foldl_take_test fs (s.take f) x
    rw [List.foldl_cons]
    refine ⟨h1, ?_⟩
    rw [h2, bitmapTest_take]
    by_cases hx : x = f
    · simp [hx]
    · simp [hx]

/-- A word scan finds a free frame below the last one. -/
theorem scanWord_spec {w pfn : Nat} (h : s.scanWord w = some pfn) : s.bitmapTest pfn = false ∧ pfn < s.totalPages := by
  unfold scanWord at h
  split at h
  · cases h
  · rename_i hne
    simp only [] at h
    split at h
    · cases h
    · rename_i hlt
      cases h
      have hne0 : ~~~(s.bitmap w) ≠ 0#64 := by
        intro h0
        apply hne
        have hnot := congrArg (fun b => ~~~b) h0
        simpa using hnot
      have hctz : (BitVec.ctz (~~~(s.bitmap w))).toNat < 64 := by
        have hlt := BitVec.ctz_lt_iff_ne_zero.mpr hne0
        simpa [BitVec.lt_def] using hlt
      have hbit := BitVec.getLsbD_true_ctz_of_ne_zero hne0
      rw [BitVec.getLsbD_not] at hbit
      refine ⟨?_, Nat.not_le.mp hlt⟩
      rw [bitmapTest_eq]
      have hdiv : (w * 64 + (BitVec.ctz (~~~(s.bitmap w))).toNat) / 64 = w := by omega
      have hmod : (w * 64 + (BitVec.ctz (~~~(s.bitmap w))).toNat) % 64 = (BitVec.ctz (~~~(s.bitmap w))).toNat := by
        omega
      rw [hdiv, hmod]
      simpa [hctz] using hbit

theorem scanWords_spec {start stop pfn : Nat} (h : s.scanWords start stop = some pfn) :
    s.bitmapTest pfn = false ∧ pfn < s.totalPages := by
  obtain ⟨w, -, hw⟩ := List.exists_of_findSome?_eq_some h
  exact scanWord_spec hw

/-- A word scan that finds nothing has seen no free frame. -/
theorem scanWord_none {x : Nat} (h : s.scanWord (x / 64) = none) (hx : x < s.totalPages) : s.bitmapTest x = true := by
  rw [bitmapTest_eq]
  have hmod : x % 64 < 64 := Nat.mod_lt _ (by decide)
  unfold scanWord at h
  split at h
  · rename_i hones
    rw [hones, BitVec.getLsbD_allOnes, decide_eq_true hmod]
  · simp only [] at h
    split at h
    · rename_i hle
      have hlow : x % 64 < (BitVec.ctz (~~~(s.bitmap (x / 64)))).toNat := by omega
      have hbit := BitVec.getLsbD_false_of_lt_ctz hlow
      rw [BitVec.getLsbD_not, decide_eq_true hmod, Bool.true_and, Bool.not_eq_false'] at hbit
      exact hbit
    · cases h

theorem scanWords_none {start stop x : Nat} (h : s.scanWords start stop = none) (hstart : start ≤ x / 64)
    (hstop : x / 64 < stop) (hx : x < s.totalPages) : s.bitmapTest x = true := by
  apply scanWord_none _ hx
  apply List.findSome?_eq_none_iff.mp h
  rw [List.mem_range'_1]
  omega

/-! ## The three allocators and `pmm_free`

Each call as a whole, in terms of `Takes`.
-/

/-- **`pmm_alloc`** leaves everything as it is and returns 0, or takes one free frame and returns it. -/
theorem pmmAlloc_spec (hz : ZeroUsed s) :
    s.pmmAlloc = (0, s) ∨ ∃ f s', s.pmmAlloc = (f * pageSize, s') ∧ f ≠ 0 ∧ Takes s s' [f] := by
  unfold pmmAlloc
  split
  · exact Or.inl rfl
  · simp only []
    split
    · exact Or.inl rfl
    · rename_i pfn hscan
      have hpfn : s.bitmapTest pfn = false ∧ pfn < s.totalPages := by
        rcases Option.or_eq_some_iff.mp hscan with h | ⟨-, h⟩
        · exact scanWords_spec h
        · exact scanWords_spec h
      have htake := takes_take hpfn.1 hpfn.2
      exact Or.inr ⟨pfn, _, rfl, htake.ne_zero hz (by simp), htake.total, htake.test, htake.free, htake.lt⟩

/-- **`pmm_alloc_zone`** likewise. -/
theorem pmmAllocZone_spec (hz : ZeroUsed s) (zone : Zone) :
    s.pmmAllocZone zone = (0, s) ∨ ∃ f s', s.pmmAllocZone zone = (f * pageSize, s') ∧ f ≠ 0 ∧ Takes s s' [f] := by
  unfold pmmAllocZone
  split
  · exact pmmAlloc_spec hz
  · split
    · exact Or.inl rfl
    · rename_i pfn hfind
      have hmem := List.mem_of_find?_eq_some hfind
      have hfree := List.find?_some hfind
      rw [List.mem_range'_1] at hmem
      have hlt : pfn < s.totalPages := by omega
      have htake := takes_take (s := s) (by simpa using hfree) hlt
      exact Or.inr ⟨pfn, _, rfl, htake.ne_zero hz (by simp), htake⟩

/-- The loop of `pmm_alloc_n`: with `count` free frames behind it, ending right before `a`, it finds `n` free
    frames in a row. -/
theorem findRun_spec {n : Nat} :
    ∀ {k a count start r : Nat}, s.findRun n (List.range' a k) count start = some r → count < n → 1 ≤ a →
      (0 < count → start + count = a ∧ 1 ≤ start) → (∀ i < count, s.bitmapTest (start + i) = false) →
      1 ≤ r ∧ r + n ≤ a + k ∧ ∀ i < n, s.bitmapTest (r + i) = false
  | 0,     a, count, start, r, h, _,  _,  _,  _  => by simp [findRun] at h
  | k + 1, a, count, start, r, h, hc, ha, hs, hf => by
    rw [List.range'_succ] at h
    unfold findRun at h
    by_cases hbit : s.bitmapTest a = false
    · rw [if_pos hbit] at h
      -- the run now begins at `start'` and ends with `a`
      obtain ⟨start', hstart'⟩ : ∃ x, x = if count = 0 then a else start := ⟨_, rfl⟩
      simp only [] at h
      rw [← hstart'] at h
      have hend : start' + (count + 1) = a + 1 ∧ 1 ≤ start' := by
        by_cases h0 : count = 0
        · simp [h0] at hstart'; omega
        · simp [h0] at hstart'
          have := hs (Nat.pos_of_ne_zero h0)
          omega
      have hrun : ∀ i < count + 1, s.bitmapTest (start' + i) = false := by
        intro i hi
        by_cases hlast : i = count
        · have : start' + i = a := by omega
          rw [this]; exact hbit
        · have h0 : count ≠ 0 := by omega
          simp only [h0, if_false] at hstart'
          rw [hstart']
          exact hf i (by omega)
      by_cases hn : count + 1 = n
      · rw [if_pos hn] at h
        cases h
        refine ⟨hend.2, by omega, ?_⟩
        rw [← hn]; exact hrun
      · rw [if_neg hn] at h
        have ih := findRun_spec h (by omega) (by omega) (fun _ => hend) hrun
        refine ⟨ih.1, by omega, ih.2.2⟩
    · rw [if_neg hbit] at h
      have ih := findRun_spec h (by omega) (by omega) (fun h0 => absurd h0 (by simp)) (fun i hi => absurd hi (by simp))
      exact ⟨ih.1, by omega, ih.2.2⟩

/-- **`pmm_alloc_n`** leaves everything as it is and returns 0, or takes `n` consecutive free frames. -/
theorem pmmAllocN_spec (hz : ZeroUsed s) (n : Nat) :
    s.pmmAllocN n = (0, s) ∨ ∃ f s', s.pmmAllocN n = (f * pageSize, s') ∧ f ≠ 0 ∧ Takes s s' (List.range' f n) := by
  unfold pmmAllocN
  split
  · exact Or.inl rfl
  · rename_i hn0
    split
    · rename_i hn1
      subst hn1
      exact pmmAlloc_spec hz
    · split
      · exact Or.inl rfl
      · split
        · exact Or.inl rfl
        · rename_i start hfind
          obtain ⟨h1, h2, h3⟩ := findRun_spec hfind (by omega) (Nat.le_refl 1) (fun h0 => absurd h0 (by simp))
            (fun i hi => absurd hi (by simp))
          refine Or.inr ⟨start, _, rfl, by omega, ⟨?_, fun x => ?_, fun x hx => ?_, fun x hx => ?_⟩⟩
          · exact (foldl_take_test _ s 0).1
          · exact (foldl_take_test _ s x).2
          · rw [List.mem_range'_1] at hx
            have := h3 (x - start) (by omega)
            rwa [Nat.add_sub_cancel' hx.1] at this
          · rw [List.mem_range'_1] at hx
            omega

/-- **`pmm_free`** of a frame that is in use and is not frame 0. -/
theorem pmmFree_spec {f : Nat} (h0 : f ≠ 0) (hlt : f < s.totalPages) (hused : s.bitmapTest f = true) :
    ∃ s', s.pmmFree (f * pageSize) = some s' ∧ s'.totalPages = s.totalPages ∧
      ∀ x, s'.bitmapTest x = (decide (x ≠ f) && s.bitmapTest x) := by
  have hmul : f * pageSize ≠ 0 := Nat.mul_ne_zero h0 (by decide)
  have hdiv : f * pageSize / pageSize = f := Nat.mul_div_cancel f (by decide)
  refine ⟨{ s.release f with allocHint := if f < s.allocHint then f else s.allocHint }, ?_, rfl, fun x => ?_⟩
  · unfold pmmFree
    rw [if_neg (by simp [hmul]), hdiv]
    simp only [h0, Nat.not_le.mpr hlt, or_self, if_false, hused, Bool.true_eq_false]
    rfl
  · exact s.bitmapTest_release f x

end Pmm

end MyUnix.Mm
