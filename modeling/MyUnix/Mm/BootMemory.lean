import MyUnix.Mm.Multiboot
import MyUnix.Mm.PmmBoot

/-!
# `Mm.BootMemory` — the boot information under the bitmap

`pmm_init_from_multiboot` reads the memory map first. Then it puts the bitmap right behind the kernel image, fills it, and
clears and sets its bits; and only after that it reads the size of the boot information and looks for the module. Where
the boot loader has left its block behind the kernel, too, these are no longer there: what is read is the bitmap.

The bits of the bitmap at that time are known (`Pmm.reserved_bitmap`), so it is known what is read. The frames that are
free at the end are the right ones exactly when what is read back reserves the same of them (`ReadsBack`), as it does
when no byte of the block lies in the storage of the bitmap.

The order of the code is what matters, so the code is modelled here over a memory: `Pmm.reserveBoot` reads through the
memory with the bitmap in it, once for the size of the block, and once more for the module, after the frames of the
block were marked. Where the bits fall on the words of the block, they are read as tags.

The condition `ReadsBack` is written with what was there before the call: the block, the memory map, and the memory.
It asks for the same frames to be reserved and not for the same numbers to be read, since a size that is wrong by a
few bytes reserves the same pages. `BootBlock.readsBack` says that a block off the storage of the bitmap is always
read back, so the condition is a fact about places.
-/

namespace MyUnix.Mm

open Lib

/-! ## The code

`pmm_init_from_multiboot` with its reads from memory. Up to `memset` the memory is the boot loader's, from there on it
has the bitmap in it.
-/

/-- The memory with the words of the bitmap from `base` on. -/
def withBitmap (m : ByteMem) (base : Nat) (bitmap : Nat → BitVec 64) : ByteMem :=
  fun a => if a < base then m a else UInt8.ofNat ((bitmap ((a - base) / 8)).toNat / 256 ^ ((a - base) % 8))

/-- What the words of the bitmap were before. -/
def oldWords (m : ByteMem) (base w : Nat) : BitVec 64 := m.word (base + 8 * w)

/-- The ranges that are reserved before the boot information is read again. -/
def earlyRanges (kernelStart kernelEnd totalPages : Nat) : List (Nat × Nat) :=
  let kernEndPhys := alignUp kernelEnd
  [(0, pageSize), (0, 0x100000),
    (kernelStart, (kernEndPhys + 2 ^ 64 - kernelStart) % 2 ^ 64),
    (kernEndPhys, bitmapBytes totalPages)]

/-- `pmm_reserve_region(mod->mod_start, mod->mod_end - mod->mod_start)`. -/
def moduleRange (module : Nat × Nat) : Nat × Nat := (module.1, (module.2 + 2 ^ 32 - module.1) % 2 ^ 32)

/-- `pmm_init_from_multiboot` from `mbi->total_size` on. The block is read from a memory that the bitmap has been written
    to, and again after the bits of the block were set. -/
def Pmm.reserveBoot (s : Pmm) (m : ByteMem) (fuel bitmapPhys mbi : Nat) : Option Pmm :=
  let s := s.pmmReserveRegion mbi (field32 (withBitmap m bitmapPhys s.bitmap) mbi)
  (bootModule (withBitmap m bitmapPhys s.bitmap) fuel mbi).map fun module =>
    (module.toList.map moduleRange).foldl (fun s r => s.pmmReserveRegion r.1 r.2) s

/-- `pmm_init_from_multiboot`, of a boot block at `mbi`. `none` is the panic without a memory map, a division by an entry
    size of 0, or a walk along the tags that does not end within the fuel. -/
def pmmInitFromMemory (m : ByteMem) (fuel kernelStart kernelEnd mbi : Nat) : Option Pmm := do
  let entries ← (← bootMmap m fuel mbi)
  let s := Pmm.filled entries (oldWords m (alignUp kernelEnd))
  let s := (availableRanges entries).foldl (fun s r => s.pmmAddRegion r.1 r.2) s
  let s := (earlyRanges kernelStart kernelEnd (maxPhys entries / pageSize)).foldl (fun s r => s.pmmReserveRegion r.1 r.2) s
  s.reserveBoot m fuel (alignUp kernelEnd) mbi

/-! ## The bitmap at that time

What the code has written to the storage is a function of the entries and of the ranges that were reserved so far
(`bitmapOf`), and of the memory where the fill does not reach. It is proved of the code's own bitmap, so that the
condition below need not mention the code.
-/

instance (entries : List MmapEntry) (ranges : List (Nat × Nat)) (f : Nat) : Decidable (Unreserved entries ranges f) := by
  unfold Unreserved Available Meets
  infer_instance

/-- The words of a bitmap in which the frames that are available and in none of the ranges are free. -/
def bitmapOf (entries : List MmapEntry) (old : Nat → BitVec 64) (ranges : List (Nat × Nat)) (w : Nat) : BitVec 64 :=
  if w < bitmapBytes (maxPhys entries / pageSize) / 8 then bitsBelow (fun k => !decide (Unreserved entries ranges (64 * w + k))) 64
  else old w

/-- The ranges that are reserved at the end. -/
def lateRanges (mbi totalSize : Nat) (module : Option (Nat × Nat)) : List (Nat × Nat) :=
  (mbi, totalSize) :: module.toList.map moduleRange

section

variable {m : ByteMem} {base : Nat} {info : BootInfo} {entries : List MmapEntry} {ranges : List (Nat × Nat)}

theorem withBitmap_below {b : Nat → BitVec 64} {a : Nat} (ha : a < base) : withBitmap m base b a = m a := if_pos ha

/-- A word that is as before leaves its bytes as before. -/
theorem withBitmap_old {b : Nat → BitVec 64} {a : Nat} (ha : base ≤ a) (hw : b ((a - base) / 8) = oldWords m base ((a - base) / 8)) :
    withBitmap m base b a = m a := by
  rw [withBitmap, if_neg (Nat.not_lt.mpr ha), hw, oldWords, ByteMem.byte_word m (Nat.mod_lt _ (by decide))]
  congr 1
  omega

theorem maxPhys_bound : maxPhys entries / pageSize ≤ 2 ^ 52 := by
  have := maxPhys_lt entries
  unfold pageSize
  omega

/-- **The bitmap after the ranges were reserved**, word by word. -/
theorem Pmm.reserved_bitmap {old : Nat → BitVec 64} (hlen : entries.length ≤ 32)
    (hends : ∀ e ∈ entries, e.addr + e.len ≤ 2 ^ 64 - 4096) (hranges : ∀ r ∈ ranges, r.1 + r.2 < 2 ^ 63)
    (hcover : maxPhys entries / pageSize ≤ 8 * bitmapBytes (maxPhys entries / pageSize)) :
    (Pmm.reserved entries old ranges).bitmap = bitmapOf entries old ranges := by
  funext w
  have hbytes := bitmapBytes_eq (@maxPhys_bound entries)
  have hbit : ∀ k < 64, ((Pmm.reserved entries old ranges).bitmap w).getLsbD k =
      (Pmm.reserved entries old ranges).bitmapTest (64 * w + k) := by
    intro k hk
    rw [Pmm.bitmapTest_eq, show (64 * w + k) / 64 = w by omega, show (64 * w + k) % 64 = k by omega]
  apply BitVec.eq_of_getLsbD_eq
  intro k hk
  rw [hbit k hk, bitmapOf]
  by_cases hw : w < bitmapBytes (maxPhys entries / pageSize) / 8
  · rw [if_pos hw, getLsbD_bitsBelow _ _ hk, decide_eq_true hk, Bool.true_and]
    have htest := @Pmm.reserved_test old entries ranges (64 * w + k) hlen hends hranges
      (by rwa [show (64 * w + k) / 64 = w by omega])
    cases hat : (Pmm.reserved entries old ranges).bitmapTest (64 * w + k) with
    | false => rw [decide_eq_true (htest.mp hat)]; rfl
    | true => rw [decide_eq_false fun h => by rw [htest.mpr h] at hat; cases hat]; rfl
  · have hgarbage : (Pmm.filled entries old).bitmap w = old w := if_neg hw
    rw [if_neg hw, Pmm.reserved_test_out (by omega), Pmm.bitmapTest_eq, show (64 * w + k) / 64 = w by omega,
      show (64 * w + k) % 64 = k by omega, hgarbage]

/-- Outside its storage the bitmap has changed nothing. -/
theorem withBitmap_bitmapOf {a : Nat}
    (ha : a < base ∨ base + bitmapBytes (maxPhys entries / pageSize) ≤ a) :
    withBitmap m base (bitmapOf entries (oldWords m base) ranges) a = m a := by
  rcases ha with ha | ha
  · exact withBitmap_below ha
  · refine withBitmap_old (by omega) (if_neg ?_)
    omega

end

/-! ## What is read back

The size first, then the module. Each may be right, wrong without consequence, or wrong; the walk to the module may
not end.
-/

/-- The boot loader has left the tags `ts` in memory, as `info` says. -/
structure BootBlock (m : ByteMem) (ts : List BootTag) (info : BootInfo) : Prop where
  holds : m.Holds info.mbiPhys (encodeBlock (ts.map BootTag.raw))
  ok    : ∀ t ∈ ts, t.Ok
  tags  : info.tags = ts.map BootTag.told
  total : info.totalSize = (encodeBlock (ts.map BootTag.raw)).length

section

variable (m : ByteMem) (info : BootInfo) (entries : List MmapEntry)

/-- The memory when `mbi->total_size` is read. -/
def sizeMemory : ByteMem :=
  withBitmap m (alignUp info.kernelEnd) (bitmapOf entries (oldWords m (alignUp info.kernelEnd))
    (earlyRanges info.kernelStart info.kernelEnd (maxPhys entries / pageSize)))

/-- The size that is read. -/
def sizeRead : Nat := field32 (sizeMemory m info entries) info.mbiPhys

/-- The memory when the module is looked for: so much has been reserved in between. -/
def moduleMemory : ByteMem :=
  withBitmap m (alignUp info.kernelEnd) (bitmapOf entries (oldWords m (alignUp info.kernelEnd))
    (earlyRanges info.kernelStart info.kernelEnd (maxPhys entries / pageSize) ++ [(info.mbiPhys, sizeRead m info entries)]))

/-- **What is read back reserves the same**: the walk ends, and of the frames that are still free then the size and the
    module that are read reserve those that the ones in the block would. -/
def ReadsBack : Prop :=
  ∃ fuel module, bootModule (moduleMemory m info entries) fuel info.mbiPhys = some module ∧
    ∀ f, Unreserved entries (earlyRanges info.kernelStart info.kernelEnd (maxPhys entries / pageSize)) f →
      ((∀ r ∈ lateRanges info.mbiPhys (sizeRead m info entries) module, ¬ Meets f r) ↔
        ∀ r ∈ lateRanges info.mbiPhys info.totalSize info.firstModule, ¬ Meets f r)

/-- `pmm_init_from_multiboot` returns; the frames that are free then are those that are available and not in use, and
    `g_free_pages` is their number. -/
def BootExact : Prop :=
  ∃ fuel s, pmmInitFromMemory m fuel info.kernelStart info.kernelEnd info.mbiPhys = some s ∧
    (∀ f, f ∈ s.freeFrames ↔ Available entries f ∧ ∀ r ∈ usedRanges info s.totalPages, ¬ Overlaps f r) ∧
    s.freePages.toNat = {f | Available entries f ∧ ∀ r ∈ usedRanges info s.totalPages, ¬ Overlaps f r}.ncard

end

section

variable {m : ByteMem} {ts : List BootTag} {info : BootInfo} {entries : List MmapEntry}

theorem field32_lt (m : ByteMem) (a : Nat) : field32 m a < 2 ^ 32 := by
  have := ofLe_lt (m.read a 4)
  rwa [ByteMem.length_read] at this

theorem sizeRead_lt : sizeRead m info entries < 2 ^ 32 := field32_lt _ _

theorem bootModule_lt {fuel mbi a b : Nat} (h : bootModule m fuel mbi = some (some (a, b))) : a < 2 ^ 32 ∧ b < 2 ^ 32 := by
  obtain ⟨tag, -, hread⟩ := Option.bind_eq_some_iff.mp h
  obtain ⟨t, -, heq⟩ := Option.map_eq_some_iff.mp (Option.some.inj hread)
  obtain ⟨rfl, rfl⟩ := Prod.mk.inj heq
  exact ⟨field32_lt m _, field32_lt m _⟩

/-- The boot information as it was read: the memory map in time, the size and the module from under the bitmap. -/
def BootInfo.reread (info : BootInfo) (entries : List MmapEntry) {totalSize : Nat} (module : Option (Nat × Nat))
    (hsize : totalSize < 2 ^ 32) (hmodule : ∀ a b, module = some (a, b) → a < 2 ^ 32 ∧ b < 2 ^ 32) : BootInfo :=
  { info with
    tags := .mmap entries :: module.toList.map fun p => .module p.1 p.2
    totalSize := totalSize
    total_lt := hsize
    module_lt := by
      intro a b h
      cases module with
      | none => simp at h
      | some p =>
        simp only [Option.toList_some, List.map_cons, List.map_nil, List.mem_cons, reduceCtorEq, Mb2Tag.module.injEq,
          List.not_mem_nil, or_false, false_or] at h
        exact hmodule a b (by rw [h.1, h.2]) }

/-- The ranges of a record are those that are reserved before, and those that are read. -/
theorem reservedRanges_split (info : BootInfo) (total : Nat) : reservedRanges info total =
    earlyRanges info.kernelStart info.kernelEnd total ++ lateRanges info.mbiPhys info.totalSize info.firstModule := by
  rw [reservedRanges, earlyRanges, lateRanges]
  cases info.firstModule <;> rfl

theorem reservedRanges_reread (info : BootInfo) {totalSize : Nat} (module : Option (Nat × Nat)) (hsize : totalSize < 2 ^ 32)
    (hmodule : ∀ a b, module = some (a, b) → a < 2 ^ 32 ∧ b < 2 ^ 32) (total : Nat) :
    reservedRanges (info.reread entries module hsize hmodule) total =
      earlyRanges info.kernelStart info.kernelEnd total ++ lateRanges info.mbiPhys totalSize module := by
  rw [reservedRanges_split]
  cases module <;> rfl

theorem Pmm.reserved_append (old : Nat → BitVec 64) (rs rs' : List (Nat × Nat)) :
    rs'.foldl (fun s r => s.pmmReserveRegion r.1 r.2) (Pmm.reserved entries old rs) = Pmm.reserved entries old (rs ++ rs') := by
  rw [Pmm.reserved, Pmm.reserved, List.foldl_append]

/-- What is reserved in the end, for what is read through the bitmap. -/
theorem Pmm.reserveBoot_eq {old : Nat → BitVec 64} {rs : List (Nat × Nat)} {fuel base mbi size : Nat}
    (hsize : field32 (withBitmap m base (Pmm.reserved entries old rs).bitmap) mbi = size) :
    (Pmm.reserved entries old rs).reserveBoot m fuel base mbi =
      (bootModule (withBitmap m base (Pmm.reserved entries old (rs ++ [(mbi, size)])).bitmap) fuel mbi).map fun module =>
        Pmm.reserved entries old (rs ++ lateRanges mbi size module) := by
  have hblock : (Pmm.reserved entries old rs).pmmReserveRegion mbi size = Pmm.reserved entries old (rs ++ [(mbi, size)]) :=
    Pmm.reserved_append old rs [(mbi, size)]
  rw [Pmm.reserveBoot, hsize, hblock]
  refine congrArg (Option.map · _) (funext fun module => ?_)
  rw [Pmm.reserved_append, List.append_assoc]
  rfl

namespace BootBlock

variable (h : BootBlock m ts info)
include h

theorem total_lt : (encodeBlock (ts.map BootTag.raw)).length < 2 ^ 32 := h.total ▸ info.total_lt

theorem end_le : info.mbiPhys + (encodeBlock (ts.map BootTag.raw)).length ≤ 2 ^ 64 := by
  have h₁ := info.mbi_lt
  have h₂ := h.total_lt
  omega

theorem total_pos : 0 < info.totalSize := by
  rw [h.total, length_encodeBlock]
  omega

/-- A memory with the same bytes there has the block, too. -/
theorem congr {m' : ByteMem} (hsame : ∀ a, info.mbiPhys ≤ a → a < info.mbiPhys + info.totalSize → m' a = m a) :
    BootBlock m' ts info where
  holds := by
    refine (ByteMem.read_congr fun i hi => hsame _ (Nat.le_add_right _ _) ?_).trans h.holds
    rw [h.total]
    omega
  ok := h.ok
  tags := h.tags
  total := h.total

theorem mmap_read {fuel : Nat} (hfuel : ts.length < fuel) : bootMmap m fuel info.mbiPhys = some info.mmapEntries :=
  bootMmap_read h.holds h.ok h.end_le hfuel h.tags

theorem module_read {fuel : Nat} (hfuel : ts.length < fuel) : bootModule m fuel info.mbiPhys = some info.firstModule :=
  bootModule_read h.holds h.ok h.end_le hfuel h.tags

theorem size_read : field32 m info.mbiPhys = info.totalSize :=
  (totalSize_read h.holds h.total_lt).trans h.total.symm

variable (hmap : info.mmapEntries = some entries) (hlen : entries.length ≤ 32)
  (hends : ∀ e ∈ entries, e.addr + e.len ≤ 2 ^ 64 - 4096)
  (hcover : maxPhys entries / pageSize ≤ 8 * bitmapBytes (maxPhys entries / pageSize))

omit h in
include hlen hends hcover in
/-- What the code computes, from the memories that are known. -/
theorem init_eq {fuel : Nat} (hread : bootMmap m fuel info.mbiPhys = some (some entries)) :
    pmmInitFromMemory m fuel info.kernelStart info.kernelEnd info.mbiPhys =
      (bootModule (moduleMemory m info entries) fuel info.mbiPhys).map fun module =>
        Pmm.reserved entries (oldWords m (alignUp info.kernelEnd))
          (earlyRanges info.kernelStart info.kernelEnd (maxPhys entries / pageSize) ++
            lateRanges info.mbiPhys (sizeRead m info entries) module) := by
  have hbound := reservedRanges_lt (info.reread entries none (@sizeRead_lt m info entries) nofun) (@maxPhys_bound entries)
  rw [reservedRanges_reread] at hbound
  have hearly := @Pmm.reserved_bitmap entries _ (oldWords m (alignUp info.kernelEnd)) hlen hends
    (fun r hr => hbound r (List.mem_append_left _ hr)) hcover
  have hsize : field32 (withBitmap m (alignUp info.kernelEnd) (Pmm.reserved entries (oldWords m (alignUp info.kernelEnd))
      (earlyRanges info.kernelStart info.kernelEnd (maxPhys entries / pageSize))).bitmap) info.mbiPhys =
      sizeRead m info entries := by
    rw [hearly]
    rfl
  have hlate := @Pmm.reserved_bitmap entries (earlyRanges info.kernelStart info.kernelEnd (maxPhys entries / pageSize) ++
    [(info.mbiPhys, sizeRead m info entries)]) (oldWords m (alignUp info.kernelEnd)) hlen hends hbound hcover
  rw [pmmInitFromMemory, hread]
  simp only [Option.bind_eq_bind, Option.bind_some]
  rw [moduleMemory, ← hlate]
  exact Pmm.reserveBoot_eq hsize

include hmap hlen hends hcover in
/-- **The code returns** when the walk to the module ends, and has then reserved what it has read. -/
theorem init_iff {s : Pmm} : (∃ fuel, pmmInitFromMemory m fuel info.kernelStart info.kernelEnd info.mbiPhys = some s) ↔
    ∃ fuel module, bootModule (moduleMemory m info entries) fuel info.mbiPhys = some module ∧
      Pmm.reserved entries (oldWords m (alignUp info.kernelEnd))
        (earlyRanges info.kernelStart info.kernelEnd (maxPhys entries / pageSize) ++
          lateRanges info.mbiPhys (sizeRead m info entries) module) = s := by
  have henough : ∀ fuel, ts.length < fuel → bootMmap m fuel info.mbiPhys = some (some entries) := fun fuel hfuel => by
    rw [h.mmap_read hfuel, hmap]
  constructor
  · rintro ⟨fuel, hs⟩
    obtain ⟨read, hread, -⟩ := Option.bind_eq_some_iff.mp hs
    have hsame := (bootMmap_mono hread (Nat.le_max_left fuel (ts.length + 1))).symm.trans
      (henough _ (Nat.lt_of_lt_of_le (Nat.lt_succ_self _) (Nat.le_max_right fuel (ts.length + 1))))
    rw [init_eq hlen hends hcover (hread.trans hsame)] at hs
    obtain ⟨module, hmodule, heq⟩ := Option.map_eq_some_iff.mp hs
    exact ⟨fuel, module, hmodule, heq⟩
  · rintro ⟨fuel, module, hmodule, heq⟩
    refine ⟨max fuel (ts.length + 1), ?_⟩
    rw [init_eq hlen hends hcover (henough _ (Nat.lt_of_lt_of_le (Nat.lt_succ_self _) (Nat.le_max_right _ _))),
      bootModule_mono hmodule (Nat.le_max_left _ _), Option.map_some, heq]

include hmap hlen hends hcover in
/-- **What is free after boot** is what should be, exactly when what is read back reserves the same. -/
theorem exact_iff (hkernel : info.kernelStart < info.kernelEnd) (hmod : ∀ a b, info.firstModule = some (a, b) → a < b) :
    BootExact m info entries ↔ ReadsBack m info entries := by
  have hused : ∀ f, (∀ r ∈ usedRanges info (maxPhys entries / pageSize), ¬ Overlaps f r) ↔
      (∀ r ∈ earlyRanges info.kernelStart info.kernelEnd (maxPhys entries / pageSize), ¬ Meets f r) ∧
        ∀ r ∈ lateRanges info.mbiPhys info.totalSize info.firstModule, ¬ Meets f r := by
    intro f
    rw [← reserved_iff_used hkernel h.total_pos hmod, reservedRanges_split, List.forall_mem_append]
  -- the frames that are free at the end, for the size and the module that were read
  have hfree : ∀ (fuel : Nat) (module : Option (Nat × Nat)),
      bootModule (moduleMemory m info entries) fuel info.mbiPhys = some module → ∀ s : Pmm,
      Pmm.reserved entries (oldWords m (alignUp info.kernelEnd))
        (earlyRanges info.kernelStart info.kernelEnd (maxPhys entries / pageSize) ++
          lateRanges info.mbiPhys (sizeRead m info entries) module) = s →
      s.totalPages = maxPhys entries / pageSize ∧ s.freePages.toNat = s.freeFrames.card ∧
      ∀ f, f ∈ s.freeFrames ↔ Unreserved entries (earlyRanges info.kernelStart info.kernelEnd (maxPhys entries / pageSize) ++
        lateRanges info.mbiPhys (sizeRead m info entries) module) f := by
    intro fuel module hmodule s hs
    have hlt : ∀ a b, module = some (a, b) → a < 2 ^ 32 ∧ b < 2 ^ 32 := by
      rintro a b rfl
      exact bootModule_lt hmodule
    have hranges := @reservedRanges_reread entries info _ module (@sizeRead_lt m info entries) hlt (maxPhys entries / pageSize)
    have hinit := @pmmInit_eq (info.reread entries module (@sizeRead_lt m info entries) hlt)
      (oldWords m (alignUp info.kernelEnd)) entries rfl
    have htotal : s.totalPages = maxPhys entries / pageSize := by rw [← hs, Pmm.reserved_total]
    rw [hranges, hs] at hinit
    have hcover' : s.totalPages ≤ 8 * bitmapBytes s.totalPages := by rw [htotal]; exact hcover
    refine ⟨htotal, (Counted.pmmInit hinit hcover').free, fun f => ?_⟩
    rw [pmmInit_free rfl hlen hends hinit hcover', htotal, hranges]
  constructor
  · rintro ⟨fuel, s, hs, hexact, -⟩
    obtain ⟨fuel, module, hmodule, heq⟩ := (h.init_iff hmap hlen hends hcover).mp ⟨fuel, hs⟩
    obtain ⟨htotal, -, hfrees⟩ := hfree fuel module hmodule s heq
    refine ⟨fuel, module, hmodule, fun f hf => ?_⟩
    have hboth := (hfrees f).symm.trans (hexact f)
    rw [htotal, hused, Unreserved, List.forall_mem_append, and_iff_right hf.1, and_iff_right hf.1, and_iff_right hf.2,
      and_iff_right hf.2] at hboth
    exact hboth
  · rintro ⟨fuel, module, hmodule, hsame⟩
    obtain ⟨s, hreserved⟩ : ∃ s, Pmm.reserved entries (oldWords m (alignUp info.kernelEnd))
        (earlyRanges info.kernelStart info.kernelEnd (maxPhys entries / pageSize) ++
          lateRanges info.mbiPhys (sizeRead m info entries) module) = s := ⟨_, rfl⟩
    obtain ⟨fuel', hs⟩ := (h.init_iff hmap hlen hends hcover).mpr ⟨fuel, module, hmodule, hreserved⟩
    obtain ⟨htotal, hcount, hfrees⟩ := hfree fuel module hmodule s hreserved
    have hexact : ∀ f, f ∈ s.freeFrames ↔ Available entries f ∧
        ∀ r ∈ usedRanges info s.totalPages, ¬ Overlaps f r := by
      intro f
      rw [hfrees f, htotal, hused, Unreserved, List.forall_mem_append]
      refine and_congr_right fun havail => and_congr_right fun hearly => ?_
      exact hsame f ⟨havail, hearly⟩
    refine ⟨fuel', s, hs, hexact, ?_⟩
    rw [hcount, ← Set.ncard_coe_finset]
    congr 1
    ext f
    exact hexact f

/-- **A block off the bitmap** is read back as it was written. -/
theorem readsBack (hoff : info.mbiPhys + info.totalSize ≤ alignUp info.kernelEnd ∨
    alignUp info.kernelEnd + bitmapBytes (maxPhys entries / pageSize) ≤ info.mbiPhys) : ReadsBack m info entries := by
  have hkept : ∀ ranges, BootBlock (withBitmap m (alignUp info.kernelEnd)
      (bitmapOf entries (oldWords m (alignUp info.kernelEnd)) ranges)) ts info :=
    fun ranges => h.congr fun a hle hlt => withBitmap_bitmapOf (by omega)
  have hsize : sizeRead m info entries = info.totalSize := (hkept _).size_read
  refine ⟨ts.length + 1, info.firstModule, (hkept _).module_read (Nat.lt_succ_self _), fun f _ => ?_⟩
  rw [hsize]

end BootBlock

end

/-- 127 MB of memory. -/
def behindTags : List BootTag := [.mmap 24 0 [⟨⟨0x100000, 0x7f00000, 1⟩, List.replicate 4 0⟩]]

/-- The boot loader has put its block right behind the kernel image. -/
def behindBoot : BootInfo where
  tags := behindTags.map BootTag.told
  kernelStart := 0x100000
  kernelEnd := 0x200000
  mbiPhys := 0x200000
  totalSize := (encodeBlock (behindTags.map BootTag.raw)).length
  kernel_le := by decide
  kernel_lt := by decide
  mbi_lt := by decide
  total_lt := by decide +kernel
  module_lt := by simp [behindTags, BootTag.told]

/-- The memory with the boot information right behind the kernel. -/
def behindMem : ByteMem := ByteMem.write (fun _ => 0) 0x200000 (encodeBlock (behindTags.map BootTag.raw))

theorem behindBoot_block : BootBlock behindMem behindTags behindBoot where
  holds := ByteMem.read_write _
  ok t ht := by
    obtain rfl := List.mem_singleton.mp ht
    refine ⟨⟨by decide, by decide, by decide⟩, by decide, by decide, fun r hr => ?_⟩
    obtain rfl := List.mem_singleton.mp hr
    exact ⟨by decide, by decide, by decide, by decide⟩
  tags := rfl
  total := rfl

/-- Behind the kernel's first page of the bitmap stand the bits of low memory, which are all set. -/
theorem behind_word (old : Nat → BitVec 64) (ranges : List (Nat × Nat)) :
    bitmapOf [⟨0x100000, 0x7f00000, 1⟩] old ranges 1 = BitVec.allOnes 64 := by
  apply BitVec.eq_of_getLsbD_eq
  intro k hk
  have hused : ¬ Unreserved [⟨0x100000, 0x7f00000, 1⟩] ranges (64 * 1 + k) := by
    rintro ⟨⟨e, he, -, haddr, -⟩, -⟩
    obtain rfl := List.mem_singleton.mp he
    rw [pageSize] at haddr
    simp only at haddr
    omega
  rw [bitmapOf, if_pos (by decide), getLsbD_bitsBelow _ _ hk, decide_eq_true hk, decide_eq_false hused,
    BitVec.getLsbD_allOnes, decide_eq_true hk]
  rfl

/-- **The walk to the module does not end**: the first tag has the type and the size 0xffffffff, and the next one is
    itself. -/
theorem behind_stuck (fuel : Nat) :
    bootModule (moduleMemory behindMem behindBoot [⟨0x100000, 0x7f00000, 1⟩]) fuel 0x200000 = none := by
  have hbytes : ∀ i < 8, moduleMemory behindMem behindBoot [⟨0x100000, 0x7f00000, 1⟩] (0x200008 + i) = 255 := by
    intro i hi
    have hbase : alignUp behindBoot.kernelEnd = 0x200000 := by decide
    have hfull : ∀ i < 8, UInt8.ofNat ((BitVec.allOnes 64).toNat / 256 ^ i) = 255 := by decide
    rw [moduleMemory, withBitmap, hbase, if_neg (by omega), show (0x200008 + i - 0x200000) / 8 = 1 by omega,
      show (0x200008 + i - 0x200000) % 8 = i by omega, behind_word]
    exact hfull i hi
  have hfield : ∀ k ≤ 4, field32 (moduleMemory behindMem behindBoot [⟨0x100000, 0x7f00000, 1⟩]) (0x200008 + k) =
      0xffffffff := by
    intro k hk
    have hread := @ByteMem.read_congr (0x200008 + k) 4 (fun _ => 255)
      (moduleMemory behindMem behindBoot [⟨0x100000, 0x7f00000, 1⟩]) fun i hi => by
        rw [Nat.add_assoc]
        exact hbytes (k + i) (by omega)
    rw [field32, hread]
    show ofLe [255, 255, 255, 255] = 0xffffffff
    decide
  have hstuck := @mb2FindFrom_stuck (moduleMemory behindMem behindBoot [⟨0x100000, 0x7f00000, 1⟩]) mb2TagModule
    0x200008 (by decide) (by rw [hfield 0 (by decide)]; decide)
    (by rw [hfield 0 (by decide)]; decide) (by rw [hfield 4 (by decide)]; decide) fuel
  rw [bootModule]
  exact congrArg (Option.bind · _) hstuck

end MyUnix.Mm
