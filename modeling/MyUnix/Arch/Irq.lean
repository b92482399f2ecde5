import MyUnix.Arch.Interrupt
import MyUnix.Lib.Run

/-!
# `Arch.Irq` — interrupt lines: the table of `idt.c` and the two 8259A controllers

`irq_register` and the other calls change a table of sixteen descriptors and the mask registers of two interrupt
controllers, the second of which hangs on line 2 of the first. A controller that has delivered an interrupt holds back all
lines of the same or a lower priority until it is told that the interrupt has been handled, which `pic_send_eoi` does at
the end of `isr_common_handler` for the line it has read from the context.

The events are the calls, interrupts with the machine they interrupt, and processor exceptions.

The bits of the controllers are modelled as the 8259A defines them for the writes that the code makes. A line gets
through if it is not masked and nothing of the same or a higher priority is in service; the second controller also
needs line 2 of the first.

There are two results. While the handler reads the right vector, the lines behave like what their users want: a line
that is open interrupts, calls what was registered and counts. And since the vector is read one slot too low, from
RAX, it is asked for which values of RAX an interrupt is ended at all; one timer interrupt that is not is the last
one.
-/

namespace MyUnix.Arch

open Lib

/-! ## The controllers

Masks, the lines in service, and the initialisation words, with the port writes that the kernel makes.
-/

/-- A controller: mask and in-service register, vector of line 0, and which initialisation word it waits for (2, 3 or 4;
    0 when it is set up). -/
structure Pic where
  imr  : BitVec 8
  isr  : BitVec 8
  base : BitVec 8
  icw  : Nat
deriving DecidableEq

namespace Pic

variable (p : Pic)

/-- The highest priority in service is taken out: line 0 comes first. -/
def endOfInterrupt : Pic := { p with isr := p.isr &&& (p.isr - 1) }

/-- A write to the command port: ICW1, or the unspecific end of interrupt. -/
def outCmd (v : BitVec 8) : Pic :=
  if v.getLsbD 4 then { p with imr := 0, isr := 0, icw := 2 }
  else if v = 0x20 then p.endOfInterrupt
  else p

/-- A write to the data port: the initialisation word that is due, or the mask. -/
def outData (v : BitVec 8) : Pic :=
  match p.icw with
  | 2 => { p with base := v &&& 0xF8, icw := 3 }
  | 3 => { p with icw := 4 }
  | 4 => { p with icw := 0 }
  | _ => { p with imr := v }

/-- Line `i` can get through: it is not masked, and nothing of the same or a higher priority is in service. -/
def Passes (i : Nat) : Prop := p.imr.getLsbD i = false ∧ ∀ j < i + 1, p.isr.getLsbD j = false

instance (i : Nat) : Decidable (p.Passes i) := inferInstanceAs (Decidable (_ ∧ _))

/-- The controller after the processor has taken line `i`: it is in service. -/
def accept (i : Nat) : Pic := { p with isr := p.isr ||| (1#8 <<< i) }

end Pic

/-- `PIC1_CMD`. -/
def pic1Cmd : Nat := 0x20

/-- `PIC1_DATA`. -/
def pic1Data : Nat := 0x21

/-- `PIC2_CMD`. -/
def pic2Cmd : Nat := 0xA0

/-- `PIC2_DATA`. -/
def pic2Data : Nat := 0xA1

/-- `PIC_EOI`. -/
def picEoi : BitVec 8 := 0x20

/-- The two controllers: the second hangs on line 2 of the first. -/
structure Pics where
  pic1 : Pic
  pic2 : Pic
deriving DecidableEq

namespace Pics

variable (p : Pics)

/-- `outb` to a port of the controllers; other ports are not modelled. -/
def outb (port : Nat) (v : BitVec 8) : Pics :=
  if port = pic1Cmd then { p with pic1 := p.pic1.outCmd v }
  else if port = pic1Data then { p with pic1 := p.pic1.outData v }
  else if port = pic2Cmd then { p with pic2 := p.pic2.outCmd v }
  else if port = pic2Data then { p with pic2 := p.pic2.outData v }
  else p

/-- The data ports read back the masks. -/
def inb (port : Nat) : BitVec 8 := if port = pic1Data then p.pic1.imr else p.pic2.imr

/-- `pic_remap`, which leaves every line masked. -/
def picRemap (offset1 offset2 : BitVec 8) : Pics :=
  ((((((((((p.outb pic1Cmd 0x11).outb pic2Cmd 0x11).outb pic1Data offset1).outb pic2Data offset2).outb pic1Data
    0x04).outb pic2Data 0x02).outb pic1Data 0x01).outb pic2Data 0x01).outb pic1Data 0xFF).outb pic2Data 0xFF)

/-- `pic_send_eoi`. -/
def picSendEoi (irq : Nat) : Pics :=
  let p := if 8 ≤ irq then p.outb pic2Cmd picEoi else p
  p.outb pic1Cmd picEoi

/-- `pic_set_mask`, which reads the mask back and writes it with one bit changed. -/
def picSetMask (irq : Nat) (masked : Bool) : Pics :=
  let port := if irq < 8 then pic1Data else pic2Data
  let irq := if 8 ≤ irq then irq - 8 else irq
  let val := p.inb port
  p.outb port (if masked then val ||| (1#8 <<< irq) else val &&& ~~~(1#8 <<< irq))

/-- The line of the first controller through which an interrupt comes. -/
def masterLine (irq : Nat) : Nat := if irq < 8 then irq else 2

/-- An interrupt of the line reaches the processor. -/
def Delivers (irq : Nat) : Prop :=
  p.pic1.Passes (masterLine irq) ∧ (8 ≤ irq → p.pic2.Passes (irq - 8))

instance (irq : Nat) : Decidable (p.Delivers irq) := inferInstanceAs (Decidable (_ ∧ _))

/-- The processor takes the interrupt. -/
def accept (irq : Nat) : Pics :=
  { pic1 := p.pic1.accept (masterLine irq)
    pic2 := if 8 ≤ irq then p.pic2.accept (irq - 8) else p.pic2 }

/-- The vector the processor is given. -/
def vector (irq : Nat) : Nat := if irq < 8 then p.pic1.base.toNat + irq else p.pic2.base.toNat + (irq - 8)

end Pics

/-! ## The table

Sixteen descriptors. The calls change one of them and one mask bit.
-/

/-- The vector of line 0 after `pic_remap`. -/
def irqBase : Nat := 32

/-- The number of lines. -/
def irqCount : Nat := 16

/-- `irq_desc_t`, with handlers of any type. -/
structure IrqDesc (H : Type) where
  handler : Option H
  data    : Nat
  name    : String
  count   : Nat

/-- The controllers and `g_irq_table`. -/
structure IrqState (H : Type) where
  pics  : Pics
  table : Nat → IrqDesc H

namespace IrqState

variable {H : Type} (s : IrqState H)

/-- `irq_register`, which unmasks the line. -/
def irqRegister (irq : Int) (handler : Option H) (data : Nat) (name : String) : IrqState H :=
  if irq < 0 ∨ (irqCount : Int) ≤ irq then s
  else
    { pics := s.pics.picSetMask irq.toNat false
      table := Function.update s.table irq.toNat ⟨handler, data, name, 0⟩ }

/-- `irq_unregister`, which masks the line and drops the handler. -/
def irqUnregister (irq : Int) : IrqState H :=
  if irq < 0 ∨ (irqCount : Int) ≤ irq then s
  else
    { pics := s.pics.picSetMask irq.toNat true
      table := Function.update s.table irq.toNat { s.table irq.toNat with handler := none } }

/-- `irq_enable` and `irq_disable`; no shift by less than nothing, or by 31 and more. -/
def irqMask (irq : Int) (masked : Bool) : Option (IrqState H) :=
  if irq < 0 ∨ 39 ≤ irq then none else some { s with pics := s.pics.picSetMask irq.toNat masked }

/-- What `isr_common_handler` does to the table and the controllers when it reads `vec` as the vector. -/
def isrCommonHandler (vec : Nat) : IrqState H :=
  if irqBase ≤ vec ∧ vec < irqBase + irqCount then
    let irq := vec - irqBase
    { pics := s.pics.picSendEoi irq
      table := Function.update s.table irq { s.table irq with count := ((s.table irq).count + 1) % 2 ^ 32 } }
  -- an exception, or a vector that no line has: the controllers are not told
  else s

/-- The part of `idt_init` about interrupt lines. -/
def idtInit : IrqState H where
  pics := s.pics.picRemap (BitVec.ofNat 8 irqBase) (BitVec.ofNat 8 (irqBase + 8))
  table _ := ⟨none, 0, "", 0⟩

end IrqState

/-- The vector that `isr_common_handler` reads. -/
def handlerVector (v : Nat) (err kstack : Word) (c : Cpu) : Nat :=
  (readCpuContext (isrAtHandler v err kstack c).mem ((isrAtHandler v err kstack c).regs .rdi)).intNo.toNat

/-- An event: a call, an interrupt of a line while the processor is in state `c`, or an exception `v` there. -/
inductive IrqEvent (H : Type) where
  | register (irq : Int) (handler : Option H) (data : Nat) (name : String)
  | unregister (irq : Int)
  | mask (irq : Int) (masked : Bool)
  | interrupt (irq : Nat) (kstack : Word) (c : Cpu)
  | trap (v : Nat) (err kstack : Word) (c : Cpu)

/-- **One step.** Line 2 of the first controller has no device, the second controller hangs on it. -/
def irqStep {H : Type} (s : IrqState H) : IrqEvent H → Option (IrqState H)
  | .register irq handler data name => some (s.irqRegister irq handler data name)
  | .unregister irq => some (s.irqUnregister irq)
  | .mask irq masked => s.irqMask irq masked
  | .interrupt irq kstack c =>
    if irq < irqCount ∧ irq ≠ 2 ∧ s.pics.Delivers irq then
      let v := s.pics.vector irq
      some ({ s with pics := s.pics.accept irq }.isrCommonHandler (handlerVector v 0 kstack c))
    else none
  | .trap v err kstack c => if v < irqBase then some (s.isrCommonHandler (handlerVector v err kstack c)) else none

/-! ## What each access does

The read-back of the mask, the end of an interrupt, and what is left in service afterwards.
-/

namespace Pics

variable {p : Pics}

/-- Both controllers are set up, with the vectors from 32 on. -/
def Ready (p : Pics) : Prop :=
  (p.pic1.icw = 0 ∧ p.pic1.base = 32) ∧ p.pic2.icw = 0 ∧ p.pic2.base = 40

/-- Nothing is in service. -/
def Idle (p : Pics) : Prop := p.pic1.isr = 0 ∧ p.pic2.isr = 0

/-- The mask bit of a line. -/
def masked (p : Pics) (irq : Nat) : Bool :=
  if irq < 8 then p.pic1.imr.getLsbD irq else p.pic2.imr.getLsbD (irq - 8)

theorem picRemap_eq (p : Pics) : p.picRemap 32 40 = ⟨⟨0xFF, 0, 32, 0⟩, ⟨0xFF, 0, 40, 0⟩⟩ := rfl

theorem getLsbD_bit {i j : Nat} (hj : j < 8) : (1#8 <<< i).getLsbD j = decide (j = i) := by
  rw [BitVec.getLsbD_shiftLeft, BitVec.getLsbD_one]
  simp only [hj, decide_true, Bool.true_and]
  by_cases h : j = i
  · subst h
    simp
  · by_cases hlt : j < i
    · simp [hlt, h]
    · simp [hlt, h]
      omega

/-- The mask that `pic_set_mask` writes. -/
def newMask (v : BitVec 8) (i : Nat) (m : Bool) : BitVec 8 := if m then v ||| (1#8 <<< i) else v &&& ~~~(1#8 <<< i)

theorem getLsbD_newMask (v : BitVec 8) (i : Nat) (m : Bool) {j : Nat} (hj : j < 8) :
    (newMask v i m).getLsbD j = if j = i then m else v.getLsbD j := by
  unfold newMask
  cases m with
  | true =>
    rw [if_pos rfl, BitVec.getLsbD_or, getLsbD_bit hj]
    by_cases h : j = i <;> simp [h]
  | false =>
    rw [if_neg (by decide), BitVec.getLsbD_and, BitVec.getLsbD_not, getLsbD_bit hj]
    by_cases h : j = i <;> simp [h, hj]

theorem outData_mask {q : Pic} (h : q.icw = 0) (v : BitVec 8) : q.outData v = { q with imr := v } := by
  obtain ⟨imr, isr, base, icw⟩ := q
  obtain rfl : icw = 0 := h
  rfl

theorem picSetMask_eq (r : p.Ready) (irq : Nat) (m : Bool) :
    p.picSetMask irq m =
      if irq < 8 then { p with pic1 := { p.pic1 with imr := newMask p.pic1.imr irq m } }
      else { p with pic2 := { p.pic2 with imr := newMask p.pic2.imr (irq - 8) m } } := by
  by_cases hirq : irq < 8
  · simp only [picSetMask, if_pos hirq, if_neg (Nat.not_le.mpr hirq)]
    show ({ p with pic1 := p.pic1.outData (newMask p.pic1.imr irq m) } : Pics) = _
    rw [outData_mask r.1.1]
  · simp only [picSetMask, if_neg hirq, if_pos (Nat.not_lt.mp hirq)]
    show ({ p with pic2 := p.pic2.outData (newMask p.pic2.imr (irq - 8) m) } : Pics) = _
    rw [outData_mask r.2.1]

/-- **`pic_set_mask`** changes one mask bit, and none for a line that does not exist. -/
theorem picSetMask_spec (r : p.Ready) (irq : Nat) (m : Bool) :
    (p.picSetMask irq m).Ready ∧ (p.picSetMask irq m).pic1.isr = p.pic1.isr ∧
      (p.picSetMask irq m).pic2.isr = p.pic2.isr ∧
      ∀ j < irqCount, (p.picSetMask irq m).masked j = if j = irq then m else p.masked j := by
  rw [picSetMask_eq r]
  by_cases hirq : irq < 8
  · rw [if_pos hirq]
    refine ⟨r, rfl, rfl, fun j _ => ?_⟩
    unfold masked
    by_cases hj8 : j < 8
    · rw [if_pos hj8, if_pos hj8]
      exact getLsbD_newMask _ _ _ hj8
    · rw [if_neg hj8, if_neg hj8, if_neg (by omega)]
  · rw [if_neg hirq]
    refine ⟨r, rfl, rfl, fun j hj => ?_⟩
    unfold irqCount at hj
    unfold masked
    by_cases hj8 : j < 8
    · rw [if_pos hj8, if_pos hj8, if_neg (by omega)]
    · rw [if_neg hj8, if_neg hj8]
      refine (getLsbD_newMask _ _ _ (by omega)).trans ?_
      by_cases h : j = irq
      · rw [if_pos h, if_pos (by omega)]
      · rw [if_neg h, if_neg (by omega)]

/-- **`pic_send_eoi`** ends the most urgent interrupt of the first controller, and of the second one for its lines. -/
theorem picSendEoi_eq (p : Pics) (irq : Nat) :
    p.picSendEoi irq =
      { pic1 := p.pic1.endOfInterrupt, pic2 := if 8 ≤ irq then p.pic2.endOfInterrupt else p.pic2 } := by
  unfold picSendEoi
  split
  · rfl
  · rfl

/-- The one interrupt in service is ended. -/
theorem eoi_accept {q : Pic} (h : q.isr = 0) {i : Nat} (hi : i < 8) : ((q.accept i).endOfInterrupt).isr = 0 := by
  have hall : ∀ i < 8, (0#8 ||| 1#8 <<< i) &&& ((0#8 ||| 1#8 <<< i) - 1) = 0#8 := by decide
  show (q.isr ||| 1#8 <<< i) &&& ((q.isr ||| 1#8 <<< i) - 1) = 0
  rw [h]
  exact hall i hi

theorem accept_isr_ne {q : Pic} {i : Nat} (hi : i < 8) : (q.accept i).isr ≠ 0 := by
  intro h0
  have hbit : (q.accept i).isr.getLsbD i = true := by
    show (q.isr ||| 1#8 <<< i).getLsbD i = true
    rw [BitVec.getLsbD_or, getLsbD_bit hi]
    simp
  rw [h0] at hbit
  simp at hbit

theorem eoi_idle {q : Pic} (h : q.isr = 0) : q.endOfInterrupt.isr = 0 := by
  show q.isr &&& (q.isr - 1) = 0
  rw [h]
  rfl

theorem Idle.passes_iff {q : Pic} (h : q.isr = 0) (i : Nat) : q.Passes i ↔ q.imr.getLsbD i = false := by
  unfold Pic.Passes
  rw [h]
  simp

/-- With nothing in service the masks decide. -/
theorem Idle.delivers_iff (h : p.Idle) (irq : Nat) :
    p.Delivers irq ↔ p.masked irq = false ∧ (8 ≤ irq → p.masked 2 = false) := by
  unfold Delivers masked masterLine
  rw [Idle.passes_iff h.1, Idle.passes_iff h.2]
  by_cases h8 : irq < 8
  · rw [if_pos h8, if_pos h8]
    simp [Nat.not_le.mpr h8]
  · rw [if_neg h8, if_neg h8, if_pos (by decide)]
    simp only [Nat.not_lt.mp h8, forall_const]
    exact And.comm

theorem Ready.vector_eq (r : p.Ready) (irq : Nat) : p.vector irq = irqBase + irq := by
  obtain ⟨⟨-, h1⟩, -, h2⟩ := r
  unfold vector
  rw [h1, h2]
  split
  · rfl
  · show 40 + (irq - 8) = 32 + irq
    omega

theorem Ready.sendEoi (r : p.Ready) (irq : Nat) : (p.picSendEoi irq).Ready := by
  rw [picSendEoi_eq]
  refine ⟨r.1, ?_⟩
  simp only
  split
  · exact r.2
  · exact r.2

theorem Ready.accept (r : p.Ready) (irq : Nat) : (p.accept irq).Ready := by
  refine ⟨r.1, ?_⟩
  unfold Pics.accept
  simp only
  split
  · exact r.2
  · exact r.2

theorem masked_sendEoi (p : Pics) (irq j : Nat) : (p.picSendEoi irq).masked j = p.masked j := by
  rw [picSendEoi_eq]
  unfold masked
  split
  · rfl
  · split
    · rfl
    · rfl

theorem masked_accept (p : Pics) (irq j : Nat) : (p.accept irq).masked j = p.masked j := by
  unfold masked Pics.accept
  split
  · rfl
  · split
    · rfl
    · rfl

/-! ## When an interrupt is over

What the handler reads for the vector decides whether and to whom the end of interrupt is sent.
-/

/-- **An interrupt is over** exactly if the end is sent to every controller through which it came. -/
theorem idle_after_eoi_iff (h : p.Idle) {irq n : Nat} (hirq : irq < irqCount) :
    ((p.accept irq).picSendEoi n).Idle ↔ (8 ≤ irq → 8 ≤ n) := by
  unfold irqCount at hirq
  have hm : masterLine irq < 8 := by
    unfold masterLine
    split <;> omega
  rw [picSendEoi_eq]
  unfold Idle Pics.accept
  simp only
  rw [eoi_accept h.1 hm]
  by_cases h8 : 8 ≤ irq
  · rw [if_pos h8]
    by_cases hn : 8 ≤ n
    · rw [if_pos hn, eoi_accept h.2 (by omega)]
      simp [hn]
    · rw [if_neg hn]
      have hne : (p.pic2.accept (irq - 8)).isr ≠ 0 := accept_isr_ne (by omega)
      exact iff_of_false (fun h' => hne h'.2) fun h' => hn (h' h8)
  · rw [if_neg h8]
    have h2 : (if 8 ≤ n then p.pic2.endOfInterrupt else p.pic2).isr = 0 := by
      split
      · exact eoi_idle h.2
      · exact h.2
    rw [h2]
    simp [h8]

end Pics

/-- The stubs pass the context one slot off, so what the handler reads as the vector is RAX. -/
theorem handlerVector_eq (v : Nat) (err kstack : Word) (c : Cpu) :
    handlerVector v err kstack c = (c.regs .rax).toNat := by
  unfold handlerVector
  by_cases hv : ErrCodeMissed v
  · rw [readCpuContext_missed hv]
  · rw [readCpuContext_of_not_missed hv]

/-! ## The lines

The users' view of a line and the relation to table and controllers, step by step.
-/

/-- A line as its users see it: open or not, what was registered on it, and how often it has interrupted since. -/
structure Line (H : Type) where
  opened : Bool
  desc   : IrqDesc H

/-- All lines. -/
abbrev Lines (H : Type) := Nat → Line H

namespace Lines

variable {H : Type} (L : Lines H)

/-- Before the first event every line is masked and has no handler. -/
def start : Lines H := fun _ => ⟨false, ⟨none, 0, "", 0⟩⟩

/-- A line interrupts if it is open, and so is line 2 for those behind it. -/
def Reaches (irq : Nat) : Prop := (L irq).opened = true ∧ (8 ≤ irq → (L 2).opened = true)

/-- What each event means for the lines. -/
def step : IrqEvent H → Lines H
  | .register irq handler data name =>
    if irq < 0 ∨ (irqCount : Int) ≤ irq then L
    else Function.update L irq.toNat ⟨true, ⟨handler, data, name, 0⟩⟩
  | .unregister irq =>
    if irq < 0 ∨ (irqCount : Int) ≤ irq then L
    else Function.update L irq.toNat ⟨false, { (L irq.toNat).desc with handler := none }⟩
  | .mask irq masked => Function.update L irq.toNat { L irq.toNat with opened := !masked }
  | .interrupt irq _ _ =>
    Function.update L irq { L irq with desc := { (L irq).desc with count := (L irq).desc.count + 1 } }
  | .trap .. => L

/-- The lines after a list of events. -/
def run (L : Lines H) (es : List (IrqEvent H)) : Lines H := es.foldl step L

end Lines

/-- The counters of `irq_desc_t` have 32 bits. -/
def IrqDesc.wrapped {H : Type} (d : IrqDesc H) : IrqDesc H := { d with count := d.count % 2 ^ 32 }

/-- The handler reads the vector of the interrupt, and no exception as an interrupt. -/
def ReadsVector {H : Type} (_ : IrqState H) : IrqEvent H → Prop
  | .interrupt irq kstack c => handlerVector (irqBase + irq) 0 kstack c = irqBase + irq
  | .trap v err kstack c => ¬(irqBase ≤ handlerVector v err kstack c ∧ handlerVector v err kstack c < irqBase + irqCount)
  | _ => True

/-- The controllers and the table show the lines. -/
structure LinesRep {H : Type} (s : IrqState H) (L : Lines H) : Prop where
  ready : s.pics.Ready
  idle  : s.pics.Idle
  mask  : ∀ irq < irqCount, s.pics.masked irq = !(L irq).opened
  table : ∀ irq < irqCount, s.table irq = (L irq).desc.wrapped

namespace LinesRep

variable {H : Type} {s t : IrqState H} {L : Lines H}

theorem delivers_iff (r : LinesRep s L) {irq : Nat} (hirq : irq < irqCount) :
    s.pics.Delivers irq ↔ L.Reaches irq := by
  rw [r.idle.delivers_iff, r.mask irq hirq, r.mask 2 (by decide)]
  unfold Lines.Reaches
  cases (L irq).opened <;> cases (L 2).opened <;> simp

/-- A mask bit is changed, and the descriptor of the line with it. -/
theorem setMask (r : LinesRep s L) (irq : Nat) (m : Bool) {table : Nat → IrqDesc H} {d : IrqDesc H}
    (htable : ∀ j < irqCount, table j = if j = irq then d.wrapped else s.table j) :
    LinesRep ⟨s.pics.picSetMask irq m, table⟩ (Function.update L irq ⟨!m, d⟩) := by
  obtain ⟨hready, h1, h2, hmask⟩ := Pics.picSetMask_spec r.ready irq m
  refine ⟨hready, ⟨h1.trans r.idle.1, h2.trans r.idle.2⟩, fun j hj => ?_, fun j hj => ?_⟩
  · show (s.pics.picSetMask irq m).masked j = _
    rw [hmask j hj]
    by_cases h : j = irq
    · rw [if_pos h, h, Function.update_self, Bool.not_not]
    · rw [if_neg h, Function.update_of_ne h, r.mask j hj]
  · show table j = _
    rw [htable j hj]
    by_cases h : j = irq
    · rw [if_pos h, h, Function.update_self]
    · rw [if_neg h, Function.update_of_ne h, r.table j hj]

/-- An interrupt is taken, counted and ended. -/
theorem interrupt (r : LinesRep s L) {irq : Nat} (hirq : irq < irqCount) :
    LinesRep (({ s with pics := s.pics.accept irq } : IrqState H).isrCommonHandler (irqBase + irq))
      (Function.update L irq { L irq with desc := { (L irq).desc with count := (L irq).desc.count + 1 } }) := by
  unfold IrqState.isrCommonHandler
  rw [if_pos ⟨Nat.le_add_right _ _, Nat.add_lt_add_left hirq _⟩]
  simp only [Nat.add_sub_cancel_left]
  refine ⟨(r.ready.accept irq).sendEoi irq, (Pics.idle_after_eoi_iff r.idle hirq).mpr id, fun j hj => ?_, fun j hj => ?_⟩
  · show ((s.pics.accept irq).picSendEoi irq).masked j = _
    rw [Pics.masked_sendEoi, Pics.masked_accept, r.mask j hj]
    by_cases h : j = irq
    · rw [h, Function.update_self]
    · rw [Function.update_of_ne h]
  · show Function.update s.table irq _ j = _
    by_cases h : j = irq
    · rw [h, Function.update_self, Function.update_self, r.table irq hirq]
      unfold IrqDesc.wrapped
      simp only [Nat.mod_add_mod]
    · rw [Function.update_of_ne h, Function.update_of_ne h]
      exact r.table j hj

/-- **One step** does to the lines what it means. -/
theorem step (r : LinesRep s L) {e : IrqEvent H} (hok : ReadsVector s e) (hs : irqStep s e = some t) :
    LinesRep t (L.step e) := by
  cases e with
  | register irq handler data name =>
    cases hs
    rw [IrqState.irqRegister, Lines.step]
    by_cases hout : irq < 0 ∨ (irqCount : Int) ≤ irq
    · rw [if_pos hout, if_pos hout]
      exact r
    · rw [if_neg hout, if_neg hout]
      refine r.setMask irq.toNat false fun j _ => ?_
      by_cases h : j = irq.toNat
      · rw [if_pos h, h, Function.update_self]
        rfl
      · rw [if_neg h, Function.update_of_ne h]
  | unregister irq =>
    cases hs
    rw [IrqState.irqUnregister, Lines.step]
    by_cases hout : irq < 0 ∨ (irqCount : Int) ≤ irq
    · rw [if_pos hout, if_pos hout]
      exact r
    · rw [if_neg hout, if_neg hout]
      refine r.setMask irq.toNat true fun j hj => ?_
      by_cases h : j = irq.toNat
      · rw [if_pos h, h, Function.update_self, r.table _ (h ▸ hj)]
        rfl
      · rw [if_neg h, Function.update_of_ne h]
  | mask irq m =>
    obtain ⟨-, rfl⟩ := Option.ite_none_left_eq_some.mp hs |>.imp_right Option.some.inj
    refine r.setMask irq.toNat m fun j hj => ?_
    by_cases h : j = irq.toNat
    · rw [if_pos h, ← h, r.table j hj]
    · rw [if_neg h]
  | interrupt irq kstack c =>
    obtain ⟨⟨hirq, -, -⟩, hs⟩ := Option.ite_none_right_eq_some.mp hs
    obtain rfl := Option.some.inj hs
    -- the handler reads the vector of this line, so it is this line that it counts and ends
    have hvec : handlerVector (s.pics.vector irq) 0 kstack c = irqBase + irq := by
      rw [r.ready.vector_eq]
      exact hok
    rw [hvec]
    exact r.interrupt hirq
  | trap v err kstack c =>
    obtain ⟨-, hs⟩ := Option.ite_none_right_eq_some.mp hs
    obtain rfl := Option.some.inj hs
    unfold IrqState.isrCommonHandler
    rw [if_neg hok]
    exact r

end LinesRep

theorem idtInit_rep {H : Type} (s : IrqState H) : LinesRep s.idtInit Lines.start := by
  have hpics : s.idtInit.pics = ⟨⟨0xFF, 0, 32, 0⟩, ⟨0xFF, 0, 40, 0⟩⟩ := s.pics.picRemap_eq
  refine ⟨?_, ?_, fun irq hirq => ?_, fun _ _ => rfl⟩
  · rw [hpics]
    exact ⟨⟨rfl, rfl⟩, rfl, rfl⟩
  · rw [hpics]
    exact ⟨rfl, rfl⟩
  · rw [hpics]
    show (if irq < 8 then _ else _) = true
    have hall : ∀ i < 8, (0xFF : BitVec 8).getLsbD i = true := by decide
    unfold irqCount at hirq
    split
    · exact hall irq (by assumption)
    · exact hall (irq - 8) (by omega)

/-- **The interrupt lines.** In every run from `idt_init` in which the handler reads the vectors as they are, a line
    interrupts exactly if it was opened last and not closed (and line 2 too, for the lines behind it), the table has what
    was registered on it last, and its counter the number of interrupts since then. -/
theorem irq_lines_refine {H : Type} (s₀ : IrqState H) (es : List (IrqEvent H)) (s : IrqState H)
    (hrun : Run (Guarded ReadsVector (Graph irqStep)) s₀.idtInit es s) :
    (∀ irq < irqCount, s.pics.Delivers irq ↔ (Lines.start.run es).Reaches irq) ∧
      ∀ irq < irqCount, s.table irq = (Lines.start.run es irq).desc.wrapped := by
  have hrep : LinesRep s (Lines.start.run es) := by
    induction hrun with
    | refl => exact idtInit_rep s₀
    | tail _ hstep ih =>
      rw [Lines.run, List.foldl_append]
      exact ih.step hstep.1 hstep.2
  exact ⟨fun irq hirq => hrep.delivers_iff hirq, hrep.table⟩

/-- A machine in the idle loop, with RAX as given. -/
def idleCpu (rax : Word) : Cpu where
  regs r := if r = .rax then rax else 0
  ds := 0x10
  es := 0x10
  rip := 0
  cs := 8
  rflags := 0x202
  ss := 0x10
  mem _ := 0

/-- A line behind the second controller stays silent until line 2 is opened; then its interrupt is counted. -/
theorem irq_lines_refine_cascade :
    ∃ s : IrqState Unit, Run (Guarded ReadsVector (Graph irqStep)) (IrqState.idtInit ⟨⟨⟨0, 0, 0, 0⟩, ⟨0, 0, 0, 0⟩⟩,
        fun _ => ⟨none, 0, "", 0⟩⟩)
        [.register 12 (some ()) 0 "mouse", .mask 2 false, .interrupt 12 0x1000 (idleCpu 44)] s ∧
      s.pics.Delivers 12 ∧ (s.table 12).count = 1 := by
  obtain ⟨s₀, hs₀⟩ : ∃ s₀ : IrqState Unit, s₀ = ⟨⟨⟨0, 0, 0, 0⟩, ⟨0, 0, 0, 0⟩⟩, fun _ => ⟨none, 0, "", 0⟩⟩ :=
    ⟨_, rfl⟩
  have hread : ReadsVector (after irqStep s₀.idtInit [.register 12 (some ()) 0 "mouse", .mask 2 false])
      (.interrupt 12 0x1000 (idleCpu 44)) := handlerVector_eq _ _ _ _
  have hrun₀ : Run (Guarded ReadsVector (Graph irqStep)) s₀.idtInit [] (after irqStep s₀.idtInit []) := .refl
  have hrun₁ := hrun₀.tail_after (.register 12 (some ()) 0 "mouse") trivial (by rw [hs₀]; decide)
  have hrun₂ := hrun₁.tail_after (.mask 2 false) trivial (by rw [hs₀]; decide)
  have hrun₃ := hrun₂.tail_after (.interrupt 12 0x1000 (idleCpu 44)) hread (by rw [hs₀]; decide)
  obtain ⟨hdel, htable⟩ := irq_lines_refine s₀ _ _ hrun₃
  rw [hs₀] at hrun₃
  refine ⟨_, hrun₃, ?_, ?_⟩
  · exact hs₀ ▸ (hdel 12 (by decide)).mpr ⟨by decide, fun _ => by decide⟩
  · have h12 := htable 12 (by decide)
    rw [hs₀] at h12
    rw [h12]
    decide

/-! ## What RAX does to the controllers

An interrupt is acknowledged if what is read for its vector makes the handler send the end to every controller that
waits for it.
-/

/-- RAX, which the handler takes for the vector, names a line, and one behind the second controller if the interrupt came
    through that. -/
def Acknowledged {H : Type} : IrqEvent H → Prop
  | .interrupt irq _ c =>
    (irqBase ≤ (c.regs .rax).toNat ∧ (c.regs .rax).toNat < irqBase + irqCount) ∧
      (8 ≤ irq → irqBase + 8 ≤ (c.regs .rax).toNat)
  | _ => True

namespace IrqState

variable {H : Type} {s t : IrqState H}

theorem ready_isrCommonHandler (r : s.pics.Ready) (vec : Nat) : (s.isrCommonHandler vec).pics.Ready := by
  unfold isrCommonHandler
  split
  · exact r.sendEoi _
  · exact r

theorem idle_isrCommonHandler (h : s.pics.Idle) (vec : Nat) : (s.isrCommonHandler vec).pics.Idle := by
  unfold isrCommonHandler
  split
  · show (s.pics.picSendEoi _).Idle
    rw [Pics.picSendEoi_eq]
    refine ⟨Pics.eoi_idle h.1, ?_⟩
    simp only
    split
    · exact Pics.eoi_idle h.2
    · exact h.2
  · exact h

/-- The controllers after a call or an exception. -/
theorem register_pics (r : s.pics.Ready) (irq : Int) (handler : Option H) (data : Nat) (name : String) :
    (s.irqRegister irq handler data name).pics.Ready ∧
      (s.irqRegister irq handler data name).pics.pic1.isr = s.pics.pic1.isr ∧
      (s.irqRegister irq handler data name).pics.pic2.isr = s.pics.pic2.isr := by
  unfold irqRegister
  split
  · exact ⟨r, rfl, rfl⟩
  · obtain ⟨hready, h1, h2, -⟩ := Pics.picSetMask_spec r irq.toNat false
    exact ⟨hready, h1, h2⟩

theorem unregister_pics (r : s.pics.Ready) (irq : Int) :
    (s.irqUnregister irq).pics.Ready ∧ (s.irqUnregister irq).pics.pic1.isr = s.pics.pic1.isr ∧
      (s.irqUnregister irq).pics.pic2.isr = s.pics.pic2.isr := by
  unfold irqUnregister
  split
  · exact ⟨r, rfl, rfl⟩
  · obtain ⟨hready, h1, h2, -⟩ := Pics.picSetMask_spec r irq.toNat true
    exact ⟨hready, h1, h2⟩

theorem mask_pics (r : s.pics.Ready) {irq : Int} {m : Bool} (h : s.irqMask irq m = some t) :
    t.pics.Ready ∧ t.pics.pic1.isr = s.pics.pic1.isr ∧ t.pics.pic2.isr = s.pics.pic2.isr := by
  obtain ⟨-, rfl⟩ := Option.ite_none_left_eq_some.mp h |>.imp_right Option.some.inj
  obtain ⟨hready, h1, h2, -⟩ := Pics.picSetMask_spec r irq.toNat m
  exact ⟨hready, h1, h2⟩

/-- **One step** from controllers at rest leaves them at rest exactly if it is acknowledged. -/
theorem step_idle {e : IrqEvent H} (r : s.pics.Ready) (h : s.pics.Idle) (hs : irqStep s e = some t) :
    t.pics.Ready ∧ (t.pics.Idle ↔ Acknowledged e) := by
  -- the calls write masks only
  have keep : ∀ {u : IrqState H}, u.pics.Ready ∧ u.pics.pic1.isr = s.pics.pic1.isr ∧ u.pics.pic2.isr = s.pics.pic2.isr →
      u.pics.Ready ∧ (u.pics.Idle ↔ True) := by
    rintro u ⟨hready, h1, h2⟩
    exact ⟨hready, iff_of_true ⟨h1.trans h.1, h2.trans h.2⟩ trivial⟩
  cases e with
  | register irq handler data name =>
    cases hs
    exact keep (register_pics r irq handler data name)
  | unregister irq =>
    cases hs
    exact keep (unregister_pics r irq)
  | mask irq m => exact keep (mask_pics r hs)
  | interrupt irq kstack c =>
    obtain ⟨⟨hirq, -, -⟩, hs⟩ := Option.ite_none_right_eq_some.mp hs
    obtain rfl := Option.some.inj hs
    refine ⟨ready_isrCommonHandler (r.accept irq) _, ?_⟩
    rw [handlerVector_eq, isrCommonHandler]
    unfold Acknowledged
    -- RAX decides whether there is an EOI at all, and whether the second controller gets one
    by_cases hin : irqBase ≤ (c.regs .rax).toNat ∧ (c.regs .rax).toNat < irqBase + irqCount
    · rw [if_pos hin]
      refine (Pics.idle_after_eoi_iff h hirq).trans ?_
      constructor
      · intro hle
        exact ⟨hin, fun h8 => by have := hle h8; omega⟩
      · rintro ⟨-, hle⟩ h8
        have := hle h8
        omega
    · rw [if_neg hin]
      have hm : Pics.masterLine irq < 8 := by
        unfold irqCount at hirq
        unfold Pics.masterLine
        split <;> omega
      exact iff_of_false (fun hidle => Pics.accept_isr_ne hm hidle.1) fun hack => hin hack.1
  | trap v err kstack c =>
    obtain ⟨-, hs⟩ := Option.ite_none_right_eq_some.mp hs
    obtain rfl := Option.some.inj hs
    exact ⟨ready_isrCommonHandler r _, iff_of_true (idle_isrCommonHandler h _) trivial⟩

end IrqState

/-- **When interrupts are acknowledged.** Along a run from `idt_init` no controller is left waiting for the end of an
    interrupt exactly if each interrupt finds in RAX the number of a vector between 32 and 47, and one from 40 on if its
    line is behind the second controller. -/
theorem interrupts_acknowledged_iff {H : Type} (s₀ : IrqState H) (es : List (IrqEvent H)) :
    Throughout (Graph irqStep) (fun s => s.pics.Idle) s₀.idtInit es ↔
      EveryStep (Graph irqStep) (fun _ e => Acknowledged e) s₀.idtInit es := by
  have hstep : ∀ (s : IrqState H) (e : IrqEvent H) (t : IrqState H), s.pics.Ready → s.pics.Idle → Graph irqStep s e t →
      t.pics.Ready ∧ (t.pics.Idle ↔ Acknowledged e) := fun _ _ _ r h hs => IrqState.step_idle r h hs
  have hrep := idtInit_rep s₀
  generalize s₀.idtInit = s at hrep
  have hready : s.pics.Ready := hrep.ready
  have hidle : s.pics.Idle := hrep.idle
  exact throughout_iff_everyStep hstep hready hidle es

/-- No exception is taken for an interrupt. -/
def NoStray {H : Type} (_ : IrqState H) : IrqEvent H → Prop
  | .trap _ _ _ c => ¬(irqBase ≤ (c.regs .rax).toNat ∧ (c.regs .rax).toNat < irqBase + irqCount)
  | _ => True

/-- The events that are interrupts. -/
def IrqEvent.isInterrupt {H : Type} : IrqEvent H → Bool
  | .interrupt .. => true
  | _ => false

/-- The first controller waits for the end of the timer interrupt. -/
def Silenced {H : Type} (s : IrqState H) : Prop := s.pics.Ready ∧ s.pics.pic1.isr.getLsbD 0 = true

namespace Silenced

variable {H : Type} {s t : IrqState H}

theorem not_delivers (h : Silenced s) (irq : Nat) : ¬s.pics.Delivers irq := by
  rintro ⟨⟨-, hclear⟩, -⟩
  have h0 := hclear 0 (Nat.succ_pos _)
  rw [h.2] at h0
  cases h0

theorem step {e : IrqEvent H} (h : Silenced s) (hok : NoStray s e) (hs : irqStep s e = some t) :
    Silenced t ∧ e.isInterrupt = false := by
  cases e with
  | register irq handler data name =>
    cases hs
    obtain ⟨hready, h1, -⟩ := IrqState.register_pics h.1 irq handler data name
    exact ⟨⟨hready, h1 ▸ h.2⟩, rfl⟩
  | unregister irq =>
    cases hs
    obtain ⟨hready, h1, -⟩ := IrqState.unregister_pics h.1 irq
    exact ⟨⟨hready, h1 ▸ h.2⟩, rfl⟩
  | mask irq m =>
    obtain ⟨hready, h1, -⟩ := IrqState.mask_pics h.1 hs
    exact ⟨⟨hready, h1 ▸ h.2⟩, rfl⟩
  | interrupt irq kstack c =>
    obtain ⟨⟨-, -, hdel⟩, -⟩ := Option.ite_none_right_eq_some.mp hs
    exact absurd hdel (h.not_delivers irq)
  | trap v err kstack c =>
    obtain ⟨-, hs⟩ := Option.ite_none_right_eq_some.mp hs
    obtain rfl := Option.some.inj hs
    rw [handlerVector_eq, IrqState.isrCommonHandler, if_neg hok]
    exact ⟨h, rfl⟩

end Silenced

theorem ready_run {H : Type} {s t : IrqState H} {es : List (IrqEvent H)} (r : s.pics.Ready)
    (hrun : Run (Graph irqStep) s es t) : t.pics.Ready := by
  refine hrun.invariant (fun s => s.pics.Ready) r fun s e t r hs => ?_
  cases e with
  | register irq handler data name =>
    cases hs
    exact (IrqState.register_pics r irq handler data name).1
  | unregister irq =>
    cases hs
    exact (IrqState.unregister_pics r irq).1
  | mask irq m => exact (IrqState.mask_pics r hs).1
  | interrupt irq kstack c =>
    obtain ⟨-, hs⟩ := Option.ite_none_right_eq_some.mp hs
    obtain rfl := Option.some.inj hs
    exact IrqState.ready_isrCommonHandler (r.accept irq) _
  | trap v err kstack c =>
    obtain ⟨-, hs⟩ := Option.ite_none_right_eq_some.mp hs
    obtain rfl := Option.some.inj hs
    exact IrqState.ready_isrCommonHandler r _

/-- **One timer interrupt that is not acknowledged is the last interrupt.** If the timer interrupts code whose RAX is no
    vector between 32 and 47, then no line interrupts any more, whatever is registered or opened afterwards, until an
    exception is taken for an interrupt. -/
theorem unacknowledged_timer_silences {H : Type} (s₀ s t u : IrqState H) (es fs : List (IrqEvent H)) (kstack : Word)
    (c : Cpu) (hrun : Run (Graph irqStep) s₀.idtInit es s) (htimer : irqStep s (.interrupt 0 kstack c) = some t)
    (hrax : ¬(irqBase ≤ (c.regs .rax).toNat ∧ (c.regs .rax).toNat < irqBase + irqCount))
    (hrest : Run (Guarded NoStray (Graph irqStep)) t fs u) :
    (∀ e ∈ fs, e.isInterrupt = false) ∧ ∀ irq, ¬u.pics.Delivers irq := by
  have hready := ready_run (idtInit_rep s₀).ready hrun
  obtain ⟨-, hs⟩ := Option.ite_none_right_eq_some.mp htimer
  obtain rfl := Option.some.inj hs
  have hsil : Silenced (({ s with pics := s.pics.accept 0 } : IrqState H).isrCommonHandler
      (handlerVector (s.pics.vector 0) 0 kstack c)) := by
    rw [handlerVector_eq, IrqState.isrCommonHandler, if_neg hrax]
    refine ⟨hready.accept 0, ?_⟩
    show (s.pics.pic1.isr ||| 1#8 <<< 0).getLsbD 0 = true
    rw [BitVec.getLsbD_or, Pics.getLsbD_bit (by decide)]
    simp
  have hall : Silenced u ∧ ∀ e ∈ fs, e.isInterrupt = false := by
    induction hrest with
    | refl => exact ⟨hsil, fun _ he => absurd he List.not_mem_nil⟩
    | tail _ hstep ih =>
      obtain ⟨hsil', hno⟩ := ih.1.step hstep.1 hstep.2
      refine ⟨hsil', fun e he => ?_⟩
      rcases List.mem_append.mp he with he | he
      · exact ih.2 e he
      · rw [List.mem_singleton.mp he]
        exact hno
  exact ⟨hall.2, hall.1.not_delivers⟩

/-- The timer interrupts the idle loop with RAX = 0, and opening another line does not help. -/
theorem unacknowledged_timer_silences_idle :
    ∃ u : IrqState Unit, Run (Graph irqStep) (IrqState.idtInit ⟨⟨⟨0, 0, 0, 0⟩, ⟨0, 0, 0, 0⟩⟩,
        fun _ => ⟨none, 0, "", 0⟩⟩)
        [.register 0 (some ()) 0 "timer", .interrupt 0 0x1000 (idleCpu 0), .register 1 (some ()) 0 "keyboard"] u ∧
      ∀ irq, ¬u.pics.Delivers irq := by
  obtain ⟨s₀, hs₀⟩ : ∃ s₀ : IrqState Unit, s₀ = ⟨⟨⟨0, 0, 0, 0⟩, ⟨0, 0, 0, 0⟩⟩, fun _ => ⟨none, 0, "", 0⟩⟩ :=
    ⟨_, rfl⟩
  rw [← hs₀]
  have hrun : Run (Graph irqStep) s₀.idtInit [.register 0 (some ()) 0 "timer"]
      (s₀.idtInit.irqRegister 0 (some ()) 0 "timer") := .single rfl
  obtain ⟨t, ht⟩ : ∃ t, irqStep (s₀.idtInit.irqRegister 0 (some ()) 0 "timer") (.interrupt 0 0x1000 (idleCpu 0)) =
      some t := by
    refine Option.isSome_iff_exists.mp ?_
    rw [hs₀]
    decide
  have hlast : Run (Guarded NoStray (Graph irqStep)) t [.register 1 (some ()) 0 "keyboard"]
      (t.irqRegister 1 (some ()) 0 "keyboard") := .single ⟨trivial, rfl⟩
  have hrax : ¬(irqBase ≤ ((idleCpu 0).regs .rax).toNat ∧ ((idleCpu 0).regs .rax).toNat < irqBase + irqCount) := by
    decide
  obtain ⟨-, hsilent⟩ := unacknowledged_timer_silences s₀ _ t _ _ _ 0x1000 (idleCpu 0) hrun ht hrax hlast
  have hrest : Run (Graph irqStep) t [.register 1 (some ()) 0 "keyboard"] (t.irqRegister 1 (some ()) 0 "keyboard") :=
    .single rfl
  have hwhole := (hrun.trans (.single ht)).trans hrest
  exact ⟨_, hwhole, hsilent⟩

end MyUnix.Arch
