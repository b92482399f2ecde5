import MyUnix.Arch.Machine
import MyUnix.Lib.Run
import Mathlib.Tactic.IntervalCases

/-!
# `Arch.Segments` — descriptor tables and changes of privilege

`gdt_init` and `idt_init` write descriptors as bytes; the processor takes them apart again when it loads a selector or
takes an interrupt. Both sides are here: the tables of `gdt.c` and `idt.c` field by field, and of the processor what
`iretq`, `syscall`, `sysretq` and an interrupt do with selectors.

A process changes its privilege by five events: `proc_exec` enters user mode with `iretq`, `syscall` leaves it and
`sysretq` enters it again, an interrupt comes at any time, also within the kernel, and `iretq` ends it. The selectors that
`sysretq` loads are computed from the STAR register that `syscall_setup` writes, and are not looked up in the table.

The fields of a descriptor are scattered over its bytes, so writing and reading are functions of their own and not
inverses by definition. The first result says that the processor gets back what the two functions were given, base,
limit, type and flags, for the segments, the TSS and the gates.

The second half is about runs. The invariant tells, for the kernel, which selectors are saved by the interrupts that
are not over, and for user mode how it was entered: by `iretq` with the selectors of `proc_exec`, or by `sysretq` with
those that the processor computes from STAR. These two differ, and an `iretq` accepts only the first.
-/

namespace MyUnix.Arch

open Lib

/-! ## The tables

As the C code fills them in.
-/

/-- `gdt_entry_t`. -/
@[ext]
structure GdtEntry where
  limitLow    : BitVec 16
  baseLow     : BitVec 16
  baseMid     : BitVec 8
  access      : BitVec 8
  granularity : BitVec 8
  baseHigh    : BitVec 8
deriving DecidableEq

/-- `gdt_set_entry`. -/
def gdtSetEntry (base limit : BitVec 32) (access gran : BitVec 8) : GdtEntry where
  baseLow     := (base &&& 0xFFFF).setWidth 16
  baseMid     := ((base >>> 16) &&& 0xFF).setWidth 8
  baseHigh    := ((base >>> 24) &&& 0xFF).setWidth 8
  limitLow    := (limit &&& 0xFFFF).setWidth 16
  access      := access
  granularity := (((limit >>> 16) &&& 0x0F) ||| (gran &&& 0xF0).setWidth 32).setWidth 8

/-- `tss_desc_t`. -/
structure TssDesc where
  length   : BitVec 16
  baseLow  : BitVec 16
  baseMid1 : BitVec 8
  flags1   : BitVec 8
  flags2   : BitVec 8
  baseMid2 : BitVec 8
  baseHigh : BitVec 32
  reserved : BitVec 32

/-- `GDT_ACC_PRESENT`. -/
def gdtAccPresent : BitVec 8 := 0x80

/-- `GDT_ACC_PRIV_RING0`. -/
def gdtAccPrivRing0 : BitVec 8 := 0x00

/-- `GDT_ACC_PRIV_RING3`. -/
def gdtAccPrivRing3 : BitVec 8 := 0x60

/-- `GDT_ACC_TYPE_CODE`. -/
def gdtAccTypeCode : BitVec 8 := 0x18

/-- `GDT_ACC_TYPE_DATA`. -/
def gdtAccTypeData : BitVec 8 := 0x10

/-- `GDT_ACC_RW`. -/
def gdtAccRw : BitVec 8 := 0x02

/-- `GDT_GRAN_4K`. -/
def gdtGran4k : BitVec 8 := 0x80

/-- `GDT_GRAN_32BIT`. -/
def gdtGran32bit : BitVec 8 := 0x40

/-- `GDT_GRAN_64BIT`. -/
def gdtGran64bit : BitVec 8 := 0x20

/-- `GDT_SYS_TSS`: a TSS of 64 bits that is not in use. -/
def gdtSysTss : BitVec 8 := 0x09

/-- `gdt_set_tss_desc`. -/
def gdtSetTssDesc (base : Word) (limit : BitVec 32) : TssDesc where
  length   := (limit &&& 0xFFFF).setWidth 16
  baseLow  := (base &&& 0xFFFF).setWidth 16
  baseMid1 := ((base >>> 16) &&& 0xFF).setWidth 8
  flags1   := gdtAccPresent ||| gdtSysTss
  flags2   := ((limit >>> 16) &&& 0x0F).setWidth 8
  baseMid2 := ((base >>> 24) &&& 0xFF).setWidth 8
  baseHigh := (base >>> 32).setWidth 32
  reserved := 0

/-- The sixteen bytes of a TSS descriptor, as two entries. -/
def TssDesc.first (d : TssDesc) : GdtEntry := ⟨d.length, d.baseLow, d.baseMid1, d.flags1, d.flags2, d.baseMid2⟩

/-- The upper half of the descriptor: the rest of the base. -/
def TssDesc.second (d : TssDesc) : GdtEntry :=
  ⟨d.baseHigh.setWidth 16, (d.baseHigh >>> 16).setWidth 16, d.reserved.setWidth 8, (d.reserved >>> 8).setWidth 8,
    (d.reserved >>> 16).setWidth 8, (d.reserved >>> 24).setWidth 8⟩

/-- `GDT_ENTRIES`. -/
def gdtEntries : Nat := 10

/-- `sizeof(tss_t)`. -/
def tssSize : Nat := 104 + 8192

/-- `gdt_init`: what `g_gdt` holds, for a TSS at `tss`. `beyond` is the memory behind the table. -/
def gdtInit (tss : Word) (beyond : Nat → GdtEntry) : Nat → GdtEntry
  | 0 => gdtSetEntry 0 0 0 0
  -- the kernel
  | 1 => gdtSetEntry 0 0xFFFFF (gdtAccPresent ||| gdtAccPrivRing0 ||| gdtAccTypeCode ||| gdtAccRw) (gdtGran4k ||| gdtGran64bit)
  | 2 => gdtSetEntry 0 0xFFFFF (gdtAccPresent ||| gdtAccPrivRing0 ||| gdtAccTypeData ||| gdtAccRw) (gdtGran4k ||| gdtGran32bit)
  -- user mode: 32-bit code, data, 64-bit code
  | 3 => gdtSetEntry 0 0xFFFFF (gdtAccPresent ||| gdtAccPrivRing3 ||| gdtAccTypeCode ||| gdtAccRw) (gdtGran4k ||| gdtGran32bit)
  | 4 => gdtSetEntry 0 0xFFFFF (gdtAccPresent ||| gdtAccPrivRing3 ||| gdtAccTypeData ||| gdtAccRw) (gdtGran4k ||| gdtGran32bit)
  | 5 => gdtSetEntry 0 0xFFFFF (gdtAccPresent ||| gdtAccPrivRing3 ||| gdtAccTypeCode ||| gdtAccRw) (gdtGran4k ||| gdtGran64bit)
  -- the TSS takes two entries
  | 6 => (gdtSetTssDesc tss (BitVec.ofNat 32 (tssSize - 1))).first
  | 7 => (gdtSetTssDesc tss (BitVec.ofNat 32 (tssSize - 1))).second
  | 8 => gdtSetEntry 0 0xFFFFF (gdtAccPresent ||| gdtAccPrivRing3 ||| gdtAccTypeData ||| gdtAccRw) (gdtGran4k ||| gdtGran32bit)
  | 9 => gdtSetEntry 0 0 0 0
  | i => beyond (i - gdtEntries)

/-- `g_gdt_ptr.limit`: the TSS descriptor is counted once more. -/
def gdtLimit : Nat := gdtEntries * 8 + 16 - 1

/-- `idt_entry_t`. -/
@[ext]
structure IdtEntry where
  offsetLow  : BitVec 16
  selector   : BitVec 16
  ist        : BitVec 8
  typeAttr   : BitVec 8
  offsetMid  : BitVec 16
  offsetHigh : BitVec 32
  reserved   : BitVec 32

/-- `IDT_INTERRUPT_GATE`: present, level 0, interrupts off. -/
def idtInterruptGate : BitVec 8 := 0x8E

/-- `IDT_USER_TRAP`: present, level 3, a trap gate. -/
def idtUserTrap : BitVec 8 := 0xEF

/-- `idt_set_gate`. -/
def idtSetGate (handler : Word) (type ist : BitVec 8) : IdtEntry where
  offsetLow  := (handler &&& 0xFFFF).setWidth 16
  offsetMid  := ((handler >>> 16) &&& 0xFFFF).setWidth 16
  offsetHigh := (handler >>> 32).setWidth 32
  selector   := 0x08
  ist        := ist &&& 0x7
  typeAttr   := type
  reserved   := 0

/-- `idt_init`: what `g_idt` holds. The two gates for user mode are written last. -/
def idtInit (isrStubTable : Nat → Word) (i : Nat) : IdtEntry :=
  if i = 3 ∨ i = 4 then idtSetGate (isrStubTable i) idtUserTrap 0
  else
    let ist : BitVec 8 := if i = 8 then 1 else if i = 2 then 2 else 0
    idtSetGate (isrStubTable i) idtInterruptGate ist

/-- What `syscall_setup` writes to STAR. -/
def starValue : Word := (0x08 <<< 32) ||| (0x13 <<< 48)

/-- The selectors `proc_exec` enters user mode with. -/
def execCs : BitVec 16 := 0x2B

/-- The selector of its stack. -/
def execSs : BitVec 16 := 0x23

/-! ## The processor

What it reads from a descriptor, and what it checks when a selector is loaded.
-/

namespace GdtEntry

variable (e : GdtEntry)

/-- The base of the segment, put together from its three fields. -/
def base : BitVec 32 := e.baseHigh ++ (e.baseMid ++ e.baseLow)

/-- The limit of the segment, in pages where bit G is set. -/
def limit : BitVec 20 := e.granularity.extractLsb' 0 4 ++ e.limitLow

/-- G, D, L and the bit left to the system. -/
def flags : BitVec 4 := e.granularity.extractLsb' 4 4

/-- The segment is present. -/
def present : Bool := e.access.getLsbD 7

/-- The level that may use the segment. -/
def dpl : BitVec 2 := e.access.extractLsb' 5 2

/-- A code or data segment, not one of the system. -/
def segment : Bool := e.access.getLsbD 4

/-- A code segment. -/
def code : Bool := e.segment && e.access.getLsbD 3

/-- A data segment that can be written to, as a stack must be. -/
def writableData : Bool := e.segment && !e.access.getLsbD 3 && e.access.getLsbD 1

/-- A code segment that lower levels may enter as they are. -/
def conforming : Bool := e.access.getLsbD 2

/-- The type of a system descriptor. -/
def sysType : BitVec 4 := e.access.extractLsb' 0 4

/-- L and D: a segment of 64-bit code. -/
def longMode : Bool := e.flags.getLsbD 1 && !e.flags.getLsbD 2

end GdtEntry

/-- The base of a TSS, from both entries. -/
def tssBase (first second : GdtEntry) : Word := second.baseLow ++ (second.limitLow ++ first.base)

namespace IdtEntry

variable (e : IdtEntry)

/-- The address of the handler, put together from its three fields. -/
def offset : Word := e.offsetHigh ++ (e.offsetMid ++ e.offsetLow)

/-- The gate is present. -/
def present : Bool := e.typeAttr.getLsbD 7

/-- The level from which `int n` may use the gate. -/
def dpl : BitVec 2 := e.typeAttr.extractLsb' 5 2

/-- Whether it is an interrupt gate, which turns interrupts off, or a trap gate. -/
def gateType : BitVec 4 := e.typeAttr.extractLsb' 0 4

/-- The stack of the TSS the processor changes to; none if it is 0. -/
def istIndex : BitVec 3 := e.ist.extractLsb' 0 3

/-- Whether `int n` at privilege level `cpl` goes through this gate. -/
def Raises (cpl : BitVec 2) : Prop := e.present = true ∧ cpl.toNat ≤ e.dpl.toNat

end IdtEntry

/-- The requested privilege level of a selector. -/
def rpl (sel : BitVec 16) : BitVec 2 := sel.setWidth 2

/-- The entry a selector names: not the null selector, not one of a local table, and below the limit. -/
def selected (gdt : Nat → GdtEntry) (sel : BitVec 16) : Option GdtEntry :=
  if sel >>> 2 = 0 ∨ sel.getLsbD 2 = true then none
  else if (sel >>> 3).toNat * 8 + 7 ≤ gdtLimit then some (gdt (sel >>> 3).toNat)
  else none

/-- `iretq` loads CS. -/
def CsLoads (gdt : Nat → GdtEntry) (cpl : BitVec 2) (sel : BitVec 16) : Prop :=
  cpl.toNat ≤ (rpl sel).toNat ∧ ∃ e, selected gdt sel = some e ∧ e.code = true ∧ e.present = true ∧
    if e.conforming then e.dpl.toNat ≤ (rpl sel).toNat else e.dpl = rpl sel

/-- `iretq` loads SS, for code at level `cpl`. The null selector is fine below level 3. -/
def SsLoads (gdt : Nat → GdtEntry) (cpl : BitVec 2) (sel : BitVec 16) : Prop :=
  (sel >>> 2 = 0 ∧ cpl ≠ 3 ∧ rpl sel = cpl) ∨
    rpl sel = cpl ∧ ∃ e, selected gdt sel = some e ∧ e.writableData = true ∧ e.present = true ∧ e.dpl = cpl

/-- The two selectors. -/
structure Sels where
  cs : BitVec 16
  ss : BitVec 16
deriving DecidableEq

/-- **`iretq`** in the kernel, to these selectors, does not fault. -/
def IretOk (gdt : Nat → GdtEntry) (dest : Sels) : Prop := CsLoads gdt 0 dest.cs ∧ SsLoads gdt (rpl dest.cs) dest.ss

instance (gdt : Nat → GdtEntry) (cpl : BitVec 2) (sel : BitVec 16) : Decidable (CsLoads gdt cpl sel) := by
  unfold CsLoads
  cases h : selected gdt sel with
  | none => exact isFalse (by simp)
  | some e => exact decidable_of_iff (cpl.toNat ≤ (rpl sel).toNat ∧ e.code = true ∧ e.present = true ∧
      if e.conforming then e.dpl.toNat ≤ (rpl sel).toNat else e.dpl = rpl sel) (by simp)

instance (gdt : Nat → GdtEntry) (cpl : BitVec 2) (sel : BitVec 16) : Decidable (SsLoads gdt cpl sel) := by
  unfold SsLoads
  cases h : selected gdt sel with
  | none => exact decidable_of_iff (sel >>> 2 = 0 ∧ cpl ≠ 3 ∧ rpl sel = cpl) (by simp)
  | some e => exact decidable_of_iff ((sel >>> 2 = 0 ∧ cpl ≠ 3 ∧ rpl sel = cpl) ∨
      rpl sel = cpl ∧ e.writableData = true ∧ e.present = true ∧ e.dpl = cpl) (by simp)

instance (gdt : Nat → GdtEntry) (dest : Sels) : Decidable (IretOk gdt dest) := inferInstanceAs (Decidable (_ ∧ _))

/-! ## A process

The events that change the level of privilege, with the frames of interrupts as a stack.
-/

/-- The selectors in use, and those the interrupts that are not over have saved, the latest first. -/
structure Priv where
  now    : Sels
  frames : List Sels
deriving DecidableEq

/-- What changes the level of the processor: an entry into the kernel, and the ways out of it. -/
inductive PrivEvent where
  | enter
  | syscall
  | sysret
  | interrupt (v : Nat)
  | iret
deriving DecidableEq

namespace Priv

/-- The processor is in user mode. -/
def user (p : Priv) : Bool := rpl p.now.cs = 3

/-- **One event**; `none` is an event that cannot come, or a fault. The frames below a `proc_exec` are abandoned. -/
def step (gdt : Nat → GdtEntry) (idt : Nat → IdtEntry) (star : Word) (p : Priv) : PrivEvent → Option Priv
  | .enter => if !p.user ∧ IretOk gdt ⟨execCs, execSs⟩ then some ⟨⟨execCs, execSs⟩, []⟩ else none
  | .syscall =>
    if p.user then
      let cs := star.extractLsb' 32 16
      some { p with now := ⟨cs &&& 0xFFFC, cs + 8⟩ }
    else none
  | .sysret =>
    if !p.user ∧ p.frames = [] then
      -- `sysretq` to 64-bit code: CS is the selector of STAR and 16, SS the selector and 8
      let cs := star.extractLsb' 48 16
      some { p with now := ⟨(cs + 16) ||| 3, (cs + 8) ||| 3⟩ }
    else none
  | .interrupt v => some ⟨⟨(idt v).selector, if p.user then 0 else p.now.ss⟩, p.now :: p.frames⟩
  | .iret =>
    match p.frames with
    | []             => none
    | dest :: frames => if !p.user ∧ IretOk gdt dest then some ⟨dest, frames⟩ else none

end Priv

/-- The kernel as `gdt_flush` leaves it. -/
def bootPriv : Priv := ⟨⟨0x08, 0x10⟩, []⟩

/-- How user mode was entered last, if it was. -/
def lastUserEntry (es : List PrivEvent) : Option PrivEvent := (es.filter fun e => e = .enter ∨ e = .sysret).getLast?

/-! ## The tables are read back

Slices of bit vectors that were put together, one field at a time.
-/

/-- A mask that keeps what is taken anyway. -/
theorem setWidth_mask {w : Nat} (x : BitVec w) (n : Nat) : (x &&& BitVec.ofNat w (2 ^ n - 1)).setWidth n = x.setWidth n := by
  refine BitVec.eq_of_getLsbD_eq fun i hi => ?_
  rw [BitVec.getLsbD_setWidth, BitVec.getLsbD_setWidth, BitVec.getLsbD_and, BitVec.getLsbD_ofNat,
    Nat.testBit_two_pow_sub_one]
  by_cases hw : i < w
  · simp [hi, hw]
  · simp [BitVec.getLsbD_of_ge x i (by omega)]

/-- Two slices that lie next to each other. -/
theorem slice_append {w : Nat} (x : BitVec w) (a b : Nat) :
    (x >>> a).setWidth b ++ x.setWidth a = x.setWidth (b + a) := by
  refine BitVec.eq_of_getLsbD_eq fun i hi => ?_
  rw [BitVec.getLsbD_append]
  by_cases ha : i < a
  · simp [ha, hi]
  · have hb : i - a < b := by omega
    have hsum : a + (i - a) = i := by omega
    simp [ha, hi, hb, hsum]

theorem gdtSetEntry_base (base limit : BitVec 32) (access gran : BitVec 8) :
    (gdtSetEntry base limit access gran).base = base := by
  have h24 := slice_append base 24 8
  rw [← slice_append base 16 8] at h24
  rw [GdtEntry.base, gdtSetEntry]
  simp only [show (0xFFFF : BitVec 32) = BitVec.ofNat 32 (2 ^ 16 - 1) from rfl,
    show (0xFF : BitVec 32) = BitVec.ofNat 32 (2 ^ 8 - 1) from rfl, setWidth_mask]
  exact h24.trans (BitVec.setWidth_eq base)

/-- The nibble of the limit and the nibble of the flags share a byte. -/
theorem gdtSetEntry_granularity (base limit : BitVec 32) (access gran : BitVec 8) :
    (gdtSetEntry base limit access gran).granularity.extractLsb' 0 4 = (limit >>> 16).setWidth 4 ∧
    (gdtSetEntry base limit access gran).flags = gran.extractLsb' 4 4 := by
  constructor
  · refine BitVec.eq_of_getLsbD_eq fun i hi => ?_
    interval_cases i <;> simp [gdtSetEntry]
  · refine BitVec.eq_of_getLsbD_eq fun i hi => ?_
    interval_cases i <;> simp [GdtEntry.flags, gdtSetEntry]

theorem gdtSetEntry_limit (base limit : BitVec 32) (access gran : BitVec 8) :
    (gdtSetEntry base limit access gran).limit = limit.setWidth 20 := by
  rw [GdtEntry.limit, (gdtSetEntry_granularity base limit access gran).1, gdtSetEntry]
  simp only [show (0xFFFF : BitVec 32) = BitVec.ofNat 32 (2 ^ 16 - 1) from rfl, setWidth_mask]
  exact slice_append limit 16 4

/-- A TSS anywhere in the 64-bit address space. -/
theorem gdtSetTssDesc_base (base : Word) (limit : BitVec 32) :
    tssBase (gdtSetTssDesc base limit).first (gdtSetTssDesc base limit).second = base := by
  have h48 := slice_append base 48 16
  rw [← slice_append base 32 16, ← slice_append base 24 8, ← slice_append base 16 8] at h48
  have hhigh : ((base >>> 32).setWidth 32 >>> 16).setWidth 16 = (base >>> 48).setWidth 16 := by
    refine BitVec.eq_of_getLsbD_eq fun i hi => ?_
    have hlt : 16 + i < 32 := by omega
    have hsum : 32 + (16 + i) = 48 + i := by omega
    simp [hi, hlt, hsum]
  have hlow : ((base >>> 32).setWidth 32).setWidth 16 = (base >>> 32).setWidth 16 := BitVec.setWidth_setWidth_of_le _ (by decide)
  rw [tssBase, GdtEntry.base, TssDesc.second, TssDesc.first, gdtSetTssDesc]
  simp only [show (0xFFFF : Word) = BitVec.ofNat 64 (2 ^ 16 - 1) from rfl,
    show (0xFF : Word) = BitVec.ofNat 64 (2 ^ 8 - 1) from rfl, setWidth_mask, hhigh, hlow]
  exact h48.trans (BitVec.setWidth_eq base)

/-- A handler anywhere in the 64-bit address space. -/
theorem idtSetGate_offset (handler : Word) (type ist : BitVec 8) : (idtSetGate handler type ist).offset = handler := by
  have h32 := slice_append handler 32 32
  rw [← slice_append handler 16 16] at h32
  rw [IdtEntry.offset, idtSetGate]
  simp only [show (0xFFFF : Word) = BitVec.ofNat 64 (2 ^ 16 - 1) from rfl, setWidth_mask]
  exact h32.trans (BitVec.setWidth_eq handler)

/-- The nibble of the limit shares its byte with flags that `gdt_set_tss_desc` leaves 0. -/
theorem gdtSetTssDesc_flags2 (base : Word) (limit : BitVec 32) :
    (gdtSetTssDesc base limit).first.granularity.extractLsb' 0 4 = (limit >>> 16).setWidth 4 ∧
    (gdtSetTssDesc base limit).first.flags = 0 := by
  constructor
  · refine BitVec.eq_of_getLsbD_eq fun i hi => ?_
    interval_cases i <;> simp [TssDesc.first, gdtSetTssDesc]
  · refine BitVec.eq_of_getLsbD_eq fun i hi => ?_
    interval_cases i <;> simp [GdtEntry.flags, TssDesc.first, gdtSetTssDesc]

theorem gdtSetTssDesc_limit (base : Word) (limit : BitVec 32) :
    (gdtSetTssDesc base limit).first.limit = limit.setWidth 20 := by
  rw [GdtEntry.limit, (gdtSetTssDesc_flags2 base limit).1, TssDesc.first, gdtSetTssDesc]
  simp only [show (0xFFFF : BitVec 32) = BitVec.ofNat 32 (2 ^ 16 - 1) from rfl, setWidth_mask]
  exact slice_append limit 16 4

/-! ## What the processor takes from a descriptor

All fields together, for the TSS and for a gate.
-/

/-- What the processor takes from the two entries of a TSS: one that is present and not in use, of kernel privilege,
    with its limit in bytes, and nothing in the reserved half of the second entry. -/
structure TssReads (first second : GdtEntry) (base : Word) (limit : BitVec 20) : Prop where
  base     : tssBase first second = base
  limit    : first.limit = limit
  flags    : first.flags = 0
  present  : first.present = true
  system   : first.segment = false
  sysType  : first.sysType = 9
  dpl      : first.dpl = 0
  reserved : second.baseMid = 0 ∧ second.access = 0 ∧ second.granularity = 0 ∧ second.baseHigh = 0

theorem gdtSetTssDesc_reads (base : Word) (limit : BitVec 32) :
    TssReads (gdtSetTssDesc base limit).first (gdtSetTssDesc base limit).second base (limit.setWidth 20) where
  base     := gdtSetTssDesc_base base limit
  limit    := gdtSetTssDesc_limit base limit
  flags    := (gdtSetTssDesc_flags2 base limit).2
  present  := by simp [GdtEntry.present, TssDesc.first, gdtSetTssDesc, gdtAccPresent, gdtSysTss]
  system   := by simp [GdtEntry.segment, TssDesc.first, gdtSetTssDesc, gdtAccPresent, gdtSysTss]
  sysType  := by simp [GdtEntry.sysType, TssDesc.first, gdtSetTssDesc, gdtAccPresent, gdtSysTss]
  dpl      := by simp [GdtEntry.dpl, TssDesc.first, gdtSetTssDesc, gdtAccPresent, gdtSysTss]
  reserved := by simp [TssDesc.second, gdtSetTssDesc]

/-- What the processor takes from a gate. -/
structure GateReads (e : IdtEntry) (handler : Word) (type : BitVec 8) (ist : BitVec 3) : Prop where
  selector : e.selector = 0x08
  offset   : e.offset = handler
  istIndex : e.istIndex = ist
  present  : e.present = type.getLsbD 7
  dpl      : e.dpl = type.extractLsb' 5 2
  gateType : e.gateType = type.extractLsb' 0 4
  reserved : e.reserved = 0

theorem idtSetGate_reads (handler : Word) (type ist : BitVec 8) :
    GateReads (idtSetGate handler type ist) handler type (ist.setWidth 3) where
  selector := rfl
  offset   := idtSetGate_offset handler type ist
  istIndex := by
    refine BitVec.eq_of_getLsbD_eq fun i hi => ?_
    interval_cases i <;> simp [IdtEntry.istIndex, idtSetGate]
  present  := rfl
  dpl      := rfl
  gateType := rfl
  reserved := rfl

/-- The type byte that `idt_init` gives the gate `i`. -/
def gateAttr (i : Nat) : BitVec 8 := if i = 3 ∨ i = 4 then idtUserTrap else idtInterruptGate

/-- The stack that `idt_init` gives the gate `i`: of its own for a double fault and for an NMI. -/
def gateIst (i : Nat) : BitVec 3 := if i = 8 then 1 else if i = 2 then 2 else 0

theorem idtInit_reads (stubs : Nat → Word) (i : Nat) : GateReads (idtInit stubs i) (stubs i) (gateAttr i) (gateIst i) := by
  unfold idtInit gateAttr gateIst
  split
  next h =>
    have h8 : i ≠ 8 := by omega
    have h2 : i ≠ 2 := by omega
    rw [if_neg h8, if_neg h2]
    exact idtSetGate_reads (stubs i) idtUserTrap 0
  next h =>
    have hist := idtSetGate_reads (stubs i) idtInterruptGate (if i = 8 then 1 else if i = 2 then 2 else 0)
    have hw : (if i = 8 then 1 else if i = 2 then 2 else 0 : BitVec 8).setWidth 3 =
        if i = 8 then 1 else if i = 2 then 2 else 0 := by
      by_cases h8 : i = 8
      · rw [if_pos h8, if_pos h8]
        rfl
      · rw [if_neg h8, if_neg h8]
        by_cases h2 : i = 2
        · rw [if_pos h2, if_pos h2]
          rfl
        · rw [if_neg h2, if_neg h2]
          rfl
    rwa [hw] at hist

theorem idtInit_raises (stubs : Nat → Word) (i : Nat) :
    (idtInit stubs i).present = true ∧ ((idtInit stubs i).Raises 3 ↔ i = 3 ∨ i = 4) := by
  have hreads := idtInit_reads stubs i
  rw [IdtEntry.Raises, hreads.present, hreads.dpl, gateAttr]
  split
  next h => exact ⟨by decide, iff_of_true (by decide) h⟩
  next h => exact ⟨by decide, iff_of_false (by decide) h⟩

/-- **What `gdt_init` and `idt_init` write is what the processor reads**: any base, limit, access byte and flags of a
    segment; any base and limit of a TSS, and the limit and address of the one there is; any handler, type and stack of a
    gate, and for every vector its stub, in 64-bit code of the kernel, its type and its stack. Of all gates user mode may
    call those of `int3` and `into` only. -/
theorem descriptor_tables_read (tss : Word) (beyond : Nat → GdtEntry) (stubs : Nat → Word) :
    (∀ (base limit : BitVec 32) (access gran : BitVec 8), (gdtSetEntry base limit access gran).base = base ∧
      (gdtSetEntry base limit access gran).limit = limit.setWidth 20 ∧
      (gdtSetEntry base limit access gran).access = access ∧
      (gdtSetEntry base limit access gran).flags = gran.extractLsb' 4 4) ∧
    (∀ (base : Word) (limit : BitVec 32),
      TssReads (gdtSetTssDesc base limit).first (gdtSetTssDesc base limit).second base (limit.setWidth 20)) ∧
    TssReads (gdtInit tss beyond 6) (gdtInit tss beyond 7) tss (BitVec.ofNat 20 (tssSize - 1)) ∧
    (∀ (handler : Word) (type ist : BitVec 8), GateReads (idtSetGate handler type ist) handler type (ist.setWidth 3)) ∧
    ∀ i, GateReads (idtInit stubs i) (stubs i) (gateAttr i) (gateIst i) ∧ (idtInit stubs i).present = true ∧
      (∃ e, selected (gdtInit tss beyond) (idtInit stubs i).selector = some e ∧ e.code = true ∧ e.longMode = true ∧ e.dpl = 0) ∧
      ((idtInit stubs i).Raises 3 ↔ i = 3 ∨ i = 4) := by
  refine ⟨fun base limit access gran => ⟨gdtSetEntry_base .., gdtSetEntry_limit .., rfl, (gdtSetEntry_granularity ..).2⟩,
    gdtSetTssDesc_reads, gdtSetTssDesc_reads tss _, idtSetGate_reads, fun i => ?_⟩
  have hreads := idtInit_reads stubs i
  obtain ⟨hpresent, hraises⟩ := idtInit_raises stubs i
  have hcode : selected (gdtInit tss beyond) 0x08 = some ⟨0xFFFF, 0, 0, 0x9A, 0xAF, 0⟩ := rfl
  refine ⟨hreads, hpresent, ⟨_, hreads.selector ▸ hcode, ?_, ?_, ?_⟩, hraises⟩
  · decide
  · decide
  · decide

/-! ## Every run

An interrupt returns if and only if the selectors that it has saved can be loaded again; the frame of the last entry
decides.
-/

/-- The selectors of the kernel: those of `gdt_flush` or of a system call, or those of an interrupt from user mode. -/
def KernelSels (x : Sels) : Prop := x = ⟨0x08, 0x10⟩ ∨ x = ⟨0x08, 0⟩

/-- The selectors user mode runs with. -/
def userSels : Option PrivEvent → Option Sels
  | some .enter  => some ⟨0x2B, 0x23⟩
  | some .sysret => some ⟨0x23, 0x1B⟩
  | _            => none

variable {tss : Word} {beyond : Nat → GdtEntry} {stubs : Nat → Word}

theorem selected_user :
    selected (gdtInit tss beyond) 0x2B = some ⟨0xFFFF, 0, 0, 0xFA, 0xAF, 0⟩ ∧
    selected (gdtInit tss beyond) 0x23 = some ⟨0xFFFF, 0, 0, 0xF2, 0xCF, 0⟩ := ⟨rfl, rfl⟩

theorem selected_kernel :
    selected (gdtInit tss beyond) 0x08 = some ⟨0xFFFF, 0, 0, 0x9A, 0xAF, 0⟩ ∧
    selected (gdtInit tss beyond) 0x10 = some ⟨0xFFFF, 0, 0, 0x92, 0xCF, 0⟩ := ⟨rfl, rfl⟩

theorem KernelSels.iretOk {x : Sels} (h : KernelSels x) : IretOk (gdtInit tss beyond) x := by
  have hcs : CsLoads (gdtInit tss beyond) 0 0x08 := ⟨by decide, _, selected_kernel.1, by decide, by decide, by decide⟩
  rcases h with rfl | rfl
  · exact ⟨hcs, .inr ⟨by decide, _, selected_kernel.2, by decide, by decide, by decide⟩⟩
  · exact ⟨hcs, .inl (by decide)⟩

theorem KernelSels.rpl {x : Sels} (h : KernelSels x) : rpl x.cs ≠ 3 := by
  rcases h with rfl | rfl
  · decide
  · decide

/-- The segments `proc_exec` asks for are code and data of user mode. -/
theorem exec_iretOk : IretOk (gdtInit tss beyond) ⟨0x2B, 0x23⟩ :=
  ⟨⟨by decide, _, selected_user.1, by decide, by decide, by decide⟩,
    .inr ⟨by decide, _, selected_user.2, by decide, by decide, by decide⟩⟩

/-- The selector `sysretq` computes for CS names a data segment. -/
theorem sysret_not_iretOk : ¬IretOk (gdtInit tss beyond) ⟨0x23, 0x1B⟩ := by
  rintro ⟨⟨-, e, he, hcode, -⟩, -⟩
  rw [selected_user.2] at he
  obtain rfl := Option.some.inj he
  exact absurd hcode (by decide)

theorem userSels_rpl {o : Option PrivEvent} {x : Sels} (h : userSels o = some x) : rpl x.cs = 3 := by
  unfold userSels at h
  split at h
  · obtain rfl := Option.some.inj h
    decide
  · obtain rfl := Option.some.inj h
    decide
  · cases h

theorem userSels_iretOk_iff {o : Option PrivEvent} {x : Sels} (h : userSels o = some x) :
    IretOk (gdtInit tss beyond) x ↔ o = some .enter := by
  unfold userSels at h
  split at h
  · obtain rfl := Option.some.inj h
    exact iff_of_true exec_iretOk rfl
  · obtain rfl := Option.some.inj h
    exact iff_of_false sysret_not_iretOk (by simp)
  · cases h

theorem lastUserEntry_snoc (es : List PrivEvent) (e : PrivEvent) :
    lastUserEntry (es ++ [e]) = if e = .enter ∨ e = .sysret then some e else lastUserEntry es := by
  unfold lastUserEntry
  rw [List.filter_append]
  by_cases h : e = .enter ∨ e = .sysret
  · rw [if_pos h, List.filter_cons_of_pos (by simpa using h), List.filter_nil, List.getLast?_concat]
  · rw [if_neg h, List.filter_cons_of_neg (by simpa using h), List.filter_nil, List.append_nil]

/-- In user mode nothing is pending, and the selectors tell the last entry. In the kernel the frames are those of
    interrupts of the kernel, with at most one of user mode below them. -/
inductive PrivInv (es : List PrivEvent) : Priv → Prop where
  | user {x} : userSels (lastUserEntry es) = some x → PrivInv es ⟨x, []⟩
  | kernel {x fs} : KernelSels x → (∀ f ∈ fs, KernelSels f) → PrivInv es ⟨x, fs⟩
  | interrupted {x fs u} : KernelSels x → (∀ f ∈ fs, KernelSels f) → userSels (lastUserEntry es) = some u →
      PrivInv es ⟨x, fs ++ [u]⟩

namespace PrivInv

variable {es : List PrivEvent} {p q : Priv} {e : PrivEvent}

/-- Events that do not enter user mode anew. -/
theorem congr {es' : List PrivEvent} (h : PrivInv es p) (hlast : lastUserEntry es' = lastUserEntry es) : PrivInv es' p := by
  cases h with
  | user h => exact .user (hlast ▸ h)
  | kernel h hfs => exact .kernel h hfs
  | interrupted h hfs hu => exact .interrupted h hfs (hlast ▸ hu)

theorem user_now (h : PrivInv es p) : p.user = true → p.frames = [] ∧ userSels (lastUserEntry es) = some p.now := by
  intro huser
  have hrpl : rpl p.now.cs = 3 := by simpa [Priv.user] using huser
  cases h with
  | user h => exact ⟨rfl, h⟩
  | kernel h => exact absurd hrpl h.rpl
  | interrupted h => exact absurd hrpl h.rpl

theorem kernel_now (h : PrivInv es p) (huser : p.user = false) : KernelSels p.now := by
  cases h with
  | user h => simp [Priv.user, userSels_rpl h] at huser
  | kernel h => exact h
  | interrupted h => exact h

/-- An interrupt goes on top of the frames, from user mode and from the kernel. -/
theorem interrupt (h : PrivInv es p) : PrivInv es ⟨⟨0x08, if p.user then 0 else p.now.ss⟩, p.now :: p.frames⟩ := by
  have hsels : KernelSels ⟨0x08, if p.user then 0 else p.now.ss⟩ := by
    cases huser : p.user with
    | true => exact .inr rfl
    | false =>
      rcases h.kernel_now huser with hnow | hnow
      · exact .inl (by simp [hnow])
      · exact .inr (by simp [hnow])
  cases h with
  | user hu => exact @interrupted _ _ [] _ hsels (by simp) hu
  | kernel h hfs => exact kernel hsels (by simpa using ⟨h, hfs⟩)
  | interrupted h hfs hu => exact @interrupted _ _ (_ :: _) _ hsels (by simpa using ⟨h, hfs⟩) hu

/-- The end of an interrupt takes the top frame. -/
theorem iret {dest : Sels} {frames : List Sels} (h : PrivInv es p) (hframes : p.frames = dest :: frames) :
    PrivInv es ⟨dest, frames⟩ := by
  cases h with
  | user => cases hframes
  | kernel h hfs =>
    subst hframes
    exact kernel (hfs dest List.mem_cons_self) fun f hf => hfs f (List.mem_cons_of_mem _ hf)
  | @interrupted _ fs u h hfs hu =>
    cases fs with
    | nil =>
      obtain ⟨rfl, rfl⟩ := List.cons.inj hframes
      exact user hu
    | cons f fs =>
      obtain ⟨rfl, rfl⟩ := List.cons.inj hframes
      exact interrupted (hfs f List.mem_cons_self) (fun g hg => hfs g (List.mem_cons_of_mem _ hg)) hu

theorem step (h : PrivInv es p) (hstep : p.step (gdtInit tss beyond) (idtInit stubs) starValue e = some q) :
    PrivInv (es ++ [e]) q := by
  cases e with
  | enter =>
    obtain ⟨-, hq⟩ := Option.ite_none_right_eq_some.mp hstep
    obtain rfl := Option.some.inj hq
    exact user (by rw [lastUserEntry_snoc]; rfl)
  | syscall =>
    obtain ⟨huser, hq⟩ := Option.ite_none_right_eq_some.mp hstep
    obtain rfl := Option.some.inj hq
    exact kernel (.inl (by decide)) (by simp [(h.user_now huser).1])
  | sysret =>
    obtain ⟨⟨-, hframes⟩, hq⟩ := Option.ite_none_right_eq_some.mp hstep
    obtain rfl := Option.some.inj hq
    rw [hframes]
    exact user (by rw [lastUserEntry_snoc]; rfl)
  | interrupt v =>
    obtain rfl := Option.some.inj hstep
    rw [(idtInit_reads stubs v).selector]
    exact h.interrupt.congr (by rw [lastUserEntry_snoc]; simp)
  | iret =>
    rw [Priv.step] at hstep
    split at hstep
    · cases hstep
    next dest frames hframes =>
      obtain ⟨-, hq⟩ := Option.ite_none_right_eq_some.mp hstep
      obtain rfl := Option.some.inj hq
      exact (h.iret hframes).congr (by rw [lastUserEntry_snoc]; simp)

theorem run (h : Run (Lib.Graph (Priv.step (gdtInit tss beyond) (idtInit stubs) starValue)) bootPriv es p) : PrivInv es p := by
  induction h with
  | refl => exact kernel (.inl rfl) (by simp)
  | tail _ hs ih => exact ih.step hs

end PrivInv

/-- **Which interrupts return.** In every run of `proc_exec`, system calls and interrupts, the interrupt taken last can
    end with `iretq` if it came in the kernel, and if it came in user mode exactly when `proc_exec` was the way there:
    to user mode that `sysretq` returned to, the segment in CS is one of data. -/
theorem interrupts_return_iff (tss : Word) (beyond : Nat → GdtEntry) (stubs : Nat → Word) (es : List PrivEvent) (p : Priv)
    (dest : Sels) (frames : List Sels)
    (hrun : Run (Lib.Graph (Priv.step (gdtInit tss beyond) (idtInit stubs) starValue)) bootPriv es p)
    (hframes : p.frames = dest :: frames) :
    (p.step (gdtInit tss beyond) (idtInit stubs) starValue .iret).isSome = true ↔
      (rpl dest.cs = 3 → lastUserEntry es = some .enter) := by
  have hinv := PrivInv.run hrun
  have huser : p.user = false := by
    refine Bool.eq_false_iff.mpr fun h => ?_
    rw [(hinv.user_now h).1] at hframes
    cases hframes
  have hstep : (p.step (gdtInit tss beyond) (idtInit stubs) starValue .iret).isSome = true ↔
      IretOk (gdtInit tss beyond) dest := by
    rw [Priv.step, hframes]
    by_cases h : IretOk (gdtInit tss beyond) dest
    · simp [huser, h]
    · simp [huser, h]
  rw [hstep]
  have hback := hinv.iret hframes
  by_cases hdest : rpl dest.cs = 3
  · have hsels := (hback.user_now (by simpa [Priv.user] using hdest)).2
    rw [userSels_iretOk_iff hsels]
    exact ⟨fun h _ => h, fun h => h hdest⟩
  · have hsels : KernelSels dest := hback.kernel_now (by simpa [Priv.user] using hdest)
    exact iff_of_true hsels.iretOk fun h => absurd h hdest

/-- A program calls the system and goes on. The clock interrupts it once more. -/
theorem interrupts_return_iff_sysret :
    ∃ p, Run (Lib.Graph (Priv.step (gdtInit 0 fun _ => gdtSetEntry 0 0 0 0) (idtInit fun _ => 0) starValue)) bootPriv
        [.enter, .syscall, .sysret, .interrupt 32] p ∧
      (p.step (gdtInit 0 fun _ => gdtSetEntry 0 0 0 0) (idtInit fun _ => 0) starValue .iret).isSome = false := by
  have hrun : Run (Lib.Graph (Priv.step (gdtInit 0 fun _ => gdtSetEntry 0 0 0 0) (idtInit fun _ => 0) starValue)) bootPriv
      [.enter, .syscall, .sysret, .interrupt 32] _ := Run.of_foldlM rfl
  refine ⟨_, hrun, Bool.eq_false_iff.mpr fun h => ?_⟩
  exact absurd ((interrupts_return_iff 0 _ _ _ _ ⟨0x23, 0x1B⟩ [] hrun rfl).mp h (by decide)) (by decide)

/-! ## After a system call

A program that `sysretq` has returned to has selectors that no `iretq` takes back.
-/

/-- An interrupt of the program that `sysretq` returned to is not over. -/
def Stranded (p : Priv) : Prop :=
  ∃ x fs, KernelSels x ∧ (∀ f ∈ fs, KernelSels f) ∧ p = ⟨x, fs ++ [⟨0x23, 0x1B⟩]⟩

namespace Stranded

variable {p q : Priv} {e : PrivEvent}

theorem not_user (h : Stranded p) : p.user = false := by
  obtain ⟨x, fs, hx, -, rfl⟩ := h
  simpa [Priv.user] using hx.rpl

/-- Only `proc_exec` gets rid of it: `iretq` to the frame at the bottom faults, and above that frame there is no way back
    to user mode. -/
theorem step (h : Stranded p) (he : e ≠ .enter)
    (hstep : p.step (gdtInit tss beyond) (idtInit stubs) starValue e = some q) : Stranded q := by
  have huser := h.not_user
  obtain ⟨x, fs, hx, hfs, rfl⟩ := h
  cases e with
  | enter => exact absurd rfl he
  | syscall =>
    obtain ⟨htrue, -⟩ := Option.ite_none_right_eq_some.mp hstep
    rw [huser] at htrue
    cases htrue
  | sysret => simp [Priv.step] at hstep
  | interrupt v =>
    obtain rfl := Option.some.inj hstep
    refine ⟨_, x :: fs, ?_, by simpa using ⟨hx, hfs⟩, rfl⟩
    rw [(idtInit_reads stubs v).selector, huser]
    rcases hx with rfl | rfl
    · exact .inl rfl
    · exact .inr rfl
  | iret =>
    cases fs with
    | nil =>
      obtain ⟨⟨-, hok⟩, -⟩ := Option.ite_none_right_eq_some.mp hstep
      exact absurd hok sysret_not_iretOk
    | cons f fs =>
      obtain ⟨-, hq⟩ := Option.ite_none_right_eq_some.mp hstep
      exact ⟨f, fs, hfs f List.mem_cons_self, fun g hg => hfs g (List.mem_cons_of_mem _ hg), (Option.some.inj hq).symm⟩

end Stranded

/-- **A program that has made a system call runs until the next interrupt.** Whatever comes after that interrupt, user mode
    is not entered again and the selectors of the program stay at the bottom of the frames, until a `proc_exec` puts
    another program in its place. -/
theorem interrupted_after_sysret (tss : Word) (beyond : Nat → GdtEntry) (stubs : Nat → Word) (es fs : List PrivEvent)
    (v : Nat) (p r q : Priv)
    (hrun : Run (Lib.Graph (Priv.step (gdtInit tss beyond) (idtInit stubs) starValue)) bootPriv es p)
    (huser : p.user = true) (hlast : lastUserEntry es = some .sysret)
    (hint : p.step (gdtInit tss beyond) (idtInit stubs) starValue (.interrupt v) = some r)
    (hrest : Run (Lib.Graph (Priv.step (gdtInit tss beyond) (idtInit stubs) starValue)) r fs q)
    (henter : .enter ∉ fs) : q.user = false ∧ q.frames.getLast? = some p.now := by
  obtain ⟨hframes, hnow⟩ := (PrivInv.run hrun).user_now huser
  have hsels : p.now = ⟨0x23, 0x1B⟩ := by
    rw [hlast] at hnow
    exact (Option.some.inj hnow).symm
  have hfirst : Stranded r := by
    refine ⟨_, [], .inr rfl, by simp, ?_⟩
    rw [← Option.some.inj hint, hframes, hsels, huser, (idtInit_reads stubs v).selector]
    rfl
  have hstranded : Stranded q := by
    induction hrest with
    | refl => exact hfirst
    | tail _ hs ih =>
      exact (ih fun h => henter (List.mem_append_left _ h)).step (fun h => henter (by simp [h])) hs
  refine ⟨hstranded.not_user, ?_⟩
  obtain ⟨x, gs, -, -, rfl⟩ := hstranded
  rw [List.getLast?_concat, hsels]

/-- The clock interrupts a program after its first call, and twice more. -/
theorem interrupted_after_sysret_clock :
    ∃ q, Run (Lib.Graph (Priv.step (gdtInit 0 fun _ => gdtSetEntry 0 0 0 0) (idtInit fun _ => 0) starValue)) bootPriv
        [.enter, .syscall, .sysret, .interrupt 32, .interrupt 32, .iret, .interrupt 32] q ∧
      q.user = false ∧ q.frames.getLast? = some ⟨0x23, 0x1B⟩ := by
  have hrun : Run (Lib.Graph (Priv.step (gdtInit 0 fun _ => gdtSetEntry 0 0 0 0) (idtInit fun _ => 0) starValue)) bootPriv
      [.enter, .syscall, .sysret] ⟨⟨0x23, 0x1B⟩, []⟩ := Run.of_foldlM rfl
  have hrest : Run (Lib.Graph (Priv.step (gdtInit 0 fun _ => gdtSetEntry 0 0 0 0) (idtInit fun _ => 0) starValue))
      ⟨⟨0x08, 0⟩, [⟨0x23, 0x1B⟩]⟩ [.interrupt 32, .iret, .interrupt 32] _ := Run.of_foldlM rfl
  have hint : Priv.step (gdtInit 0 fun _ => gdtSetEntry 0 0 0 0) (idtInit fun _ => 0) starValue ⟨⟨0x23, 0x1B⟩, []⟩
      (.interrupt 32) = some ⟨⟨0x08, 0⟩, [⟨0x23, 0x1B⟩]⟩ := rfl
  exact ⟨_, (hrun.trans (.single hint)).trans hrest,
    interrupted_after_sysret 0 _ _ _ _ 32 _ _ _ hrun rfl rfl hint hrest (by decide)⟩

end MyUnix.Arch
