import MyUnix.Arch.Machine

/-!
# `Arch.Interrupt` — the interrupt stubs of `boot.asm` against `cpu_context_t`

An interrupt builds its stack image in three parts: the processor's own frame, the per-vector stub
(`ISR_NOERR`/`ISR_ERR`) and `isr_common_stub`. The handler then reads the image through the pointer in
RDI as a `cpu_context_t`. Encoder and decoder are written in two languages; this module puts both in one
and compares them slot by slot.

`isr_common_stub` pushes DS *after* the general registers and passes RSP as it is then, so slot 0 of the
image is DS while field 0 of the structure is `r15`: every field is read from the slot below its own.
`isr_context_eq_iff` says exactly which interrupted states hide that shift.

Words are looked at and not bytes, since every access of the entry path is eight bytes wide and aligned. The image is
a list of words from the lowest address upwards, so what the pushes of the assembly text have built and what the
fields of the structure take are two lists, compared place by place.

For a vector whose error code the stub misses, the list is longer by one word than the structure and the way back
takes the wrong one; there the contract is never met, whatever the registers hold.
-/

namespace MyUnix.Arch

/-- `cpu_context_t`, field by field in memory order. -/
structure CpuContext where
  r15 : Word
  r14 : Word
  r13 : Word
  r12 : Word
  r11 : Word
  r10 : Word
  r9  : Word
  r8  : Word
  rbp : Word
  rdi : Word
  rsi : Word
  rdx : Word
  rcx : Word
  rbx : Word
  rax : Word
  intNo   : Word
  errCode : Word
  rip    : Word
  cs     : Word
  rflags : Word
  rsp    : Word
  ss     : Word
deriving DecidableEq, Repr

/-- Read a packed `cpu_context_t` at `p`: the 22 fields lie eight bytes apart. -/
def readCpuContext (mem : Word → Word) (p : Word) : CpuContext where
  r15 := mem p
  r14 := mem (p + 8#64)
  r13 := mem (p + 16#64)
  r12 := mem (p + 24#64)
  r11 := mem (p + 32#64)
  r10 := mem (p + 40#64)
  r9  := mem (p + 48#64)
  r8  := mem (p + 56#64)
  rbp := mem (p + 64#64)
  rdi := mem (p + 72#64)
  rsi := mem (p + 80#64)
  rdx := mem (p + 88#64)
  rcx := mem (p + 96#64)
  rbx := mem (p + 104#64)
  rax := mem (p + 112#64)
  intNo   := mem (p + 120#64)
  errCode := mem (p + 128#64)
  rip    := mem (p + 136#64)
  cs     := mem (p + 144#64)
  rflags := mem (p + 152#64)
  rsp    := mem (p + 160#64)
  ss     := mem (p + 168#64)

/-! ## The three parts of the image

The processor, the stub of the vector, and the common part, in the order in which they push.
-/

/-- The vectors for which the processor pushes an error code of its own; the last two only exist on AMD's, as `#VC` and
    `#SX`. -/
def cpuPushesErrCode (v : Nat) : Bool := v ∈ [8, 10, 11, 12, 13, 14, 17, 21, 29, 30]

/-- The vectors that `boot.asm` instantiates with `ISR_ERR`; all others up to 255 use `ISR_NOERR`. -/
def isrErr (v : Nat) : Bool := v ∈ [8, 10, 11, 12, 13, 14, 17]

/-- Delivery of vector `v` by the processor on the kernel stack `kstack`: SS, RSP, RFLAGS, CS, RIP, and
    for some vectors an error code. -/
def cpuFrame (v : Nat) (err kstack : Word) (c : Cpu) : Cpu :=
  let f := ((((({ c with regs := Function.update c.regs .rsp kstack } : Cpu).push c.ss).push
    (c.regs .rsp)).push c.rflags).push c.cs).push c.rip
  if cpuPushesErrCode v then f.push err else f

/-- `isr_stub_v`. -/
def isrStub (v : Nat) : List Instr :=
  if isrErr v then [.pushImm (BitVec.ofNat 64 v)] else [.pushImm 0, .pushImm (BitVec.ofNat 64 v)]

/-- `isr_common_stub` up to the call. -/
def isrProlog : List Instr :=
  [.push .rax, .push .rbx, .push .rcx, .push .rdx, .push .rsi, .push .rdi, .push .rbp,
   .push .r8, .push .r9, .push .r10, .push .r11, .push .r12, .push .r13, .push .r14, .push .r15,
   .xorEaxEax, .movAxDs, .push .rax, .movAxImm 0x10, .movDsAx, .movEsAx,
   .movReg .rdi .rsp]

/-- `isr_common_stub` after the call. -/
def isrEpilog : List Instr :=
  [.pop .rax, .movDsAx, .movEsAx,
   .pop .r15, .pop .r14, .pop .r13, .pop .r12, .pop .r11, .pop .r10, .pop .r9, .pop .r8,
   .pop .rbp, .pop .rdi, .pop .rsi, .pop .rdx, .pop .rcx, .pop .rbx, .pop .rax,
   .addRsp 16, .iretq]

/-- The machine at the call of `isr_common_handler`. -/
def isrAtHandler (v : Nat) (err kstack : Word) (c : Cpu) : Cpu :=
  exec isrProlog (exec (isrStub v) (cpuFrame v err kstack c))

/-- The machine after `iretq`, for a handler `h`. -/
def isrReturn (h : Cpu → Cpu) (v : Nat) (err kstack : Word) (c : Cpu) : Cpu :=
  exec (.call h :: isrEpilog) (isrAtHandler v err kstack c)

/-! ## What the image is meant to be

The contract is written with the interrupted machine: every field is the register of its name.
-/

/-- The error code the handler should see: the processor's, or the dummy zero. -/
def errItem (v : Nat) (err : Word) : Word := if cpuPushesErrCode v then err else 0

/-- The context of the interrupted machine `c`: every field the register or item it is named after. -/
def interruptedContext (v : Nat) (err : Word) (c : Cpu) : CpuContext where
  r15 := c.regs .r15
  r14 := c.regs .r14
  r13 := c.regs .r13
  r12 := c.regs .r12
  r11 := c.regs .r11
  r10 := c.regs .r10
  r9  := c.regs .r9
  r8  := c.regs .r8
  rbp := c.regs .rbp
  rdi := c.regs .rdi
  rsi := c.regs .rsi
  rdx := c.regs .rdx
  rcx := c.regs .rcx
  rbx := c.regs .rbx
  rax := c.regs .rax
  intNo   := BitVec.ofNat 64 v
  errCode := errItem v err
  rip    := c.rip
  cs     := c.cs
  rflags := c.rflags
  rsp    := c.regs .rsp
  ss     := c.ss

/-- The number of words the entry path leaves on the stack: 23, and one more where the stub pushes a
    dummy on top of the processor's error code. -/
def imageWords (v : Nat) : Nat := if cpuPushesErrCode v && !isrErr v then 24 else 23

/-- A handler that returns with the stack pointer it was called with and the image as it was. -/
def LeavesImage (h : Cpu → Cpu) (v : Nat) (a : Cpu) : Prop :=
  (h a).regs .rsp = a.regs .rsp ∧
  ∀ k < imageWords v, (h a).mem (a.regs .rsp + BitVec.ofNat 64 (8 * k))
    = a.mem (a.regs .rsp + BitVec.ofNat 64 (8 * k))

/-- **The contract between the stubs and the handler**: the handler reads the interrupted context, and
    if it leaves the image alone every general register comes back. -/
def IsrContract (v : Nat) (err kstack : Word) (c : Cpu) : Prop :=
  readCpuContext (isrAtHandler v err kstack c).mem ((isrAtHandler v err kstack c).regs .rdi)
      = interruptedContext v err c
  ∧ ∀ h, LeavesImage h v (isrAtHandler v err kstack c) →
      ∀ r, (isrReturn h v err kstack c).regs r = c.regs r

/-- Every saved item has the value of the DS selector. -/
def AllItemsEqual (v : Nat) (err : Word) (c : Cpu) : Prop :=
  (∀ r, c.regs r = c.ds.zeroExtend 64)
  ∧ BitVec.ofNat 64 v = c.ds.zeroExtend 64 ∧ errItem v err = c.ds.zeroExtend 64
  ∧ c.rip = c.ds.zeroExtend 64 ∧ c.cs = c.ds.zeroExtend 64
  ∧ c.rflags = c.ds.zeroExtend 64 ∧ c.ss = c.ds.zeroExtend 64

/-! ## The image, word by word

What stands in memory at the call of the handler.
-/

/-- The general registers in the order of the pushes. -/
def savedRegs : List Reg :=
  [.rax, .rbx, .rcx, .rdx, .rsi, .rdi, .rbp,
   .r8, .r9, .r10, .r11, .r12, .r13, .r14, .r15]

/-- The processor's frame, lowest word first. -/
def frameImage (v : Nat) (err : Word) (c : Cpu) : List Word :=
  (if cpuPushesErrCode v then [err] else []) ++ [c.rip, c.cs, c.rflags, c.regs .rsp, c.ss]

/-- The frame with what the per-vector stub adds. -/
def stubImage (v : Nat) (err : Word) (c : Cpu) : List Word :=
  (if isrErr v then [BitVec.ofNat 64 v] else [BitVec.ofNat 64 v, 0]) ++ frameImage v err c

/-- The whole image at the call of the handler: DS lowest, then the registers. -/
def isrImage (v : Nat) (err : Word) (c : Cpu) : List Word :=
  c.ds.zeroExtend 64 :: (savedRegs.reverse.map c.regs ++ stubImage v err c)

theorem isrImage_length (v : Nat) (err : Word) (c : Cpu) :
    (isrImage v err c).length = imageWords v := by
  have hsub : isrErr v = true → cpuPushesErrCode v = true := by
    simp only [isrErr, cpuPushesErrCode, decide_eq_true_eq, List.mem_cons, List.not_mem_nil, or_false]
    omega
  unfold isrImage stubImage frameImage imageWords savedRegs
  cases he : isrErr v with
  | true => simp [hsub he]
  | false => cases cpuPushesErrCode v <;> simp

theorem cpuFrame_holds (v : Nat) (err kstack : Word) (c : Cpu) :
    StackHolds (cpuFrame v err kstack c).mem ((cpuFrame v err kstack c).regs .rsp)
        (frameImage v err c)
      ∧ (∀ r, r ≠ .rsp → (cpuFrame v err kstack c).regs r = c.regs r)
      ∧ (cpuFrame v err kstack c).ds = c.ds := by
  let c0 : Cpu := { c with regs := Function.update c.regs .rsp kstack }
  have h0 : StackHolds c0.mem (c0.regs .rsp) [] := trivial
  have h5 := ((((h0.push c.ss (by simp)).push (c.regs .rsp) (by simp)).push c.rflags
    (by simp)).push c.cs (by simp)).push c.rip (by simp)
  unfold cpuFrame frameImage
  cases cpuPushesErrCode v with
  | true =>
      refine ⟨h5.push err (by simp), fun r hr => ?_, rfl⟩
      simp [Cpu.push, hr]
  | false =>
      refine ⟨h5, fun r hr => ?_, rfl⟩
      simp [Cpu.push, hr]

theorem isrStub_holds (v : Nat) (err kstack : Word) (c : Cpu) :
    let s := exec (isrStub v) (cpuFrame v err kstack c)
    StackHolds s.mem (s.regs .rsp) (stubImage v err c)
      ∧ (∀ r, r ≠ .rsp → s.regs r = c.regs r) ∧ s.ds = c.ds := by
  obtain ⟨hst, hregs, hds⟩ := cpuFrame_holds v err kstack c
  have hlen : (frameImage v err c).length < 98 := by
    unfold frameImage
    cases cpuPushesErrCode v <;> simp
  unfold isrStub stubImage
  cases isrErr v with
  | true =>
      refine ⟨hst.push (BitVec.ofNat 64 v) (by omega), fun r hr => ?_, hds⟩
      simpa [Instr.exec, Cpu.push, hr] using hregs r hr
  | false =>
      refine ⟨(hst.push 0 (by omega)).push (BitVec.ofNat 64 v) (by simp; omega), fun r hr => ?_, hds⟩
      simpa [Instr.exec, Cpu.push, hr] using hregs r hr

theorem stubImage_length_lt (v : Nat) (err : Word) (c : Cpu) : (stubImage v err c).length < 10 := by
  unfold stubImage frameImage
  cases isrErr v <;> cases cpuPushesErrCode v <;> simp

/-- **The image the handler gets.** From the address in RDI upwards lie DS, the general registers from
    R15 to RAX, and what the per-vector stub and the processor left. -/
theorem isrAtHandler_holds (v : Nat) (err kstack : Word) (c : Cpu) :
    let a := isrAtHandler v err kstack c
    StackHolds a.mem (a.regs .rsp) (isrImage v err c) ∧ a.regs .rdi = a.regs .rsp := by
  obtain ⟨hst, hregs, hds⟩ := isrStub_holds v err kstack c
  have hlen := stubImage_length_lt v err c
  obtain ⟨hpush, hkeep⟩ := exec_pushes savedRegs _ _ (by decide) hst
    (by rw [show savedRegs.length = 15 from rfl]; omega)
  have hsaved : savedRegs.map (exec (isrStub v) (cpuFrame v err kstack c)).regs
      = savedRegs.map c.regs := by
    apply List.map_congr_left
    intro r hr
    exact hregs r (by rintro rfl; exact absurd hr (by decide))
  rw [hsaved, ← List.map_reverse] at hpush
  have hdsp : (exec (savedRegs.map .push) (exec (isrStub v) (cpuFrame v err kstack c))).ds = c.ds := by
    rw [← hds]
    rfl
  -- what is left of the prologue: build the DS slot, load the kernel selector, pass RSP
  let s := exec (savedRegs.map .push) (exec (isrStub v) (cpuFrame v err kstack c))
  let d := exec [.xorEaxEax, .movAxDs] s
  have hd : StackHolds d.mem (d.regs .rsp) (savedRegs.reverse.map c.regs ++ stubImage v err c) := by
    have hsp : d.regs .rsp = s.regs .rsp := by
      simp [d, Instr.exec, Cpu.set, Cpu.setAx]
    rw [hsp]
    exact hpush
  have hax : d.regs .rax = c.ds.zeroExtend 64 := by
    rw [← hdsp]
    simp [d, s, Instr.exec, Cpu.set, Cpu.setAx]
  have hds' := hd.push (d.regs .rax)
    (by simp only [List.length_append, List.length_map, List.length_reverse]
        rw [show savedRegs.length = 15 from rfl]; omega)
  rw [hax] at hds'
  have hrun : isrAtHandler v err kstack c
      = exec [.movAxImm 0x10, .movDsAx, .movEsAx, .movReg .rdi .rsp] (d.push (c.ds.zeroExtend 64)) := by
    rw [← hax]
    rfl
  rw [hrun]
  refine ⟨?_, ?_⟩
  · have hsp : (exec [.movAxImm 0x10, .movDsAx, .movEsAx, .movReg .rdi .rsp]
        (d.push (c.ds.zeroExtend 64))).regs .rsp = (d.push (c.ds.zeroExtend 64)).regs .rsp := by
      simp [Instr.exec, Cpu.set, Cpu.setAx]
    rw [hsp]
    exact hds'
  · simp [Instr.exec, Cpu.set, Cpu.setAx]

/-! ## The way back

A handler that leaves the image alone gets every register back, since the epilogue pops in the order in which the
prologue pushed.
-/

/-- `addRsp` and `iretq` change RSP only: it gets the sixth word from the top. -/
theorem exec_leave (e : Cpu) {vs : List Word} (h : StackHolds e.mem (e.regs .rsp) vs)
    (hlen : 5 < vs.length) :
    (∀ r, r ≠ .rsp → (exec [.addRsp 16, .iretq] e).regs r = e.regs r)
      ∧ (exec [.addRsp 16, .iretq] e).regs .rsp = vs.getD 5 0 := by
  refine ⟨fun r hr => by simp [Instr.exec, Cpu.set, hr], ?_⟩
  have h5 : e.mem (e.regs .rsp + BitVec.ofNat 64 (8 * 5)) = vs.getD 5 0 := by
    rw [h.getElem 5 hlen, List.getD_eq_getElem?_getD, List.getElem?_eq_getElem hlen]
    rfl
  rw [← h5]
  simp [Instr.exec, Cpu.set, BitVec.add_assoc]

/-- **The epilogue undoes the prologue.** From an image `seg, f r15, …, f rax, vs` every pushed register
    `r` comes back as `f r`; the segment word goes through RAX, whose own value is popped last. -/
theorem isrEpilog_regs (b : Cpu) (f : Reg → Word) (seg : Word) {vs : List Word}
    (h : StackHolds b.mem (b.regs .rsp) (seg :: (savedRegs.reverse.map f ++ vs)))
    (hlen : 5 < vs.length) :
    (∀ r, r ≠ .rsp → (exec isrEpilog b).regs r = f r)
      ∧ (exec isrEpilog b).regs .rsp = vs.getD 5 0 := by
  have hsplit : isrEpilog = [.pop .rax, .movDsAx, .movEsAx]
      ++ (savedRegs.reverse.map .pop ++ [.addRsp 16, .iretq]) := rfl
  rw [hsplit, exec_append, exec_append]
  have hd : StackHolds (exec [.pop .rax, .movDsAx, .movEsAx] b).mem
      ((exec [.pop .rax, .movDsAx, .movEsAx] b).regs .rsp) (savedRegs.reverse.map f ++ vs) :=
    (exec_pops (fun _ => seg) [.rax] b _ (by simp) (by simp) h).1
  generalize exec [.pop .rax, .movDsAx, .movEsAx] b = d at hd
  obtain ⟨hrest, hin, -⟩ := exec_pops f savedRegs.reverse d vs (by decide) (by decide) hd
  generalize exec (savedRegs.reverse.map .pop) d = e at hrest hin
  obtain ⟨hkeep, hrsp⟩ := exec_leave e hrest hlen
  refine ⟨fun r hr => ?_, hrsp⟩
  have hmem : r ∈ savedRegs.reverse := by
    cases r <;> first | exact absurd rfl hr | decide
  rw [hkeep r hr]
  exact hin r hmem

/-- A handler that leaves the image alone gives back the registers of the interrupted machine, and RSP
    as the sixth word above them. -/
theorem isrReturn_regs {h : Cpu → Cpu} {v : Nat} {err kstack : Word} {c : Cpu}
    (hh : LeavesImage h v (isrAtHandler v err kstack c)) :
    (∀ r, r ≠ .rsp → (isrReturn h v err kstack c).regs r = c.regs r)
      ∧ (isrReturn h v err kstack c).regs .rsp = (stubImage v err c).getD 5 0 := by
  obtain ⟨hst, -⟩ := isrAtHandler_holds v err kstack c
  have hb : StackHolds (h (isrAtHandler v err kstack c)).mem
      ((h (isrAtHandler v err kstack c)).regs .rsp) (isrImage v err c) := by
    rw [hh.1]
    exact hst.congr fun k hk => hh.2 k (by rw [← isrImage_length v err c]; exact hk)
  have hlen : 5 < (stubImage v err c).length := by
    unfold stubImage frameImage
    cases isrErr v <;> cases cpuPushesErrCode v <;> simp
  unfold isrReturn
  rw [exec_cons]
  exact isrEpilog_regs (h (isrAtHandler v err kstack c)) c.regs _ hb hlen

/-- A `cpu_context_t` read at an address is made of the 22 words found there. -/
theorem readCpuContext_of_holds {mem : Word → Word} {p : Word}
    {w0 w1 w2 w3 w4 w5 w6 w7 w8 w9 w10 w11 w12 w13 w14 w15 w16 w17 w18 w19 w20 w21 : Word}
    {vs : List Word}
    (h : StackHolds mem p (w0 :: w1 :: w2 :: w3 :: w4 :: w5 :: w6 :: w7 :: w8 :: w9 :: w10 :: w11
      :: w12 :: w13 :: w14 :: w15 :: w16 :: w17 :: w18 :: w19 :: w20 :: w21 :: vs)) :
    readCpuContext mem p = ⟨w0, w1, w2, w3, w4, w5, w6, w7, w8, w9, w10, w11, w12, w13, w14, w15, w16,
      w17, w18, w19, w20, w21⟩ := by
  simp only [StackHolds, BitVec.add_assoc] at h
  obtain ⟨h0, h1, h2, h3, h4, h5, h6, h7, h8, h9, h10, h11, h12, h13, h14, h15, h16, h17, h18, h19,
    h20, h21, -⟩ := h
  simp only [readCpuContext, CpuContext.mk.injEq]
  exact ⟨h0, h1, h2, h3, h4, h5, h6, h7, h8, h9, h10, h11, h12, h13, h14, h15, h16, h17, h18, h19,
    h20, h21⟩

/-! ## When encoder and decoder agree

A field that is read one slot below its own is right only if the two slots hold the same value; for all of them
together, only if all values are one.
-/

/-- The processor pushes an error code, and the stub is one of `ISR_NOERR`: `#CP`, and `#VC` and `#SX` of AMD's
    processors. -/
def ErrCodeMissed (v : Nat) : Prop := v = 21 ∨ v = 29 ∨ v = 30

theorem errCodeMissed_iff {v : Nat} : ErrCodeMissed v ↔ cpuPushesErrCode v = true ∧ isrErr v = false := by
  simp only [ErrCodeMissed, cpuPushesErrCode, isrErr, decide_eq_true_eq, decide_eq_false_iff_not, List.mem_cons,
    List.not_mem_nil, or_false]
  omega

/-- For all other vectors the stub and the processor agree on the error code: above the registers lie the
    vector, the error item and the frame. -/
theorem stubImage_of_not_missed {v : Nat} (hv : ¬ErrCodeMissed v) (err : Word) (c : Cpu) :
    stubImage v err c
      = [BitVec.ofNat 64 v, errItem v err, c.rip, c.cs, c.rflags, c.regs .rsp, c.ss] := by
  unfold stubImage frameImage errItem
  have hagree : isrErr v = cpuPushesErrCode v := by
    simp only [ErrCodeMissed, not_or] at hv
    simp [isrErr, cpuPushesErrCode, hv]
  rw [hagree]
  cases cpuPushesErrCode v <;> rfl

/-- Otherwise the processor's error code lies under a dummy that `ISR_NOERR` pushes. -/
theorem stubImage_missed {v : Nat} (hv : ErrCodeMissed v) (err : Word) (c : Cpu) :
    stubImage v err c = [BitVec.ofNat 64 v, 0, err, c.rip, c.cs, c.rflags, c.regs .rsp, c.ss] := by
  obtain ⟨hcpu, hstub⟩ := errCodeMissed_iff.mp hv
  rw [stubImage, frameImage, hcpu, hstub]
  rfl

/-- What the handler reads then: each field holds the item named before it. -/
theorem readCpuContext_of_not_missed {v : Nat} (hv : ¬ErrCodeMissed v) (err kstack : Word) (c : Cpu) :
    readCpuContext (isrAtHandler v err kstack c).mem ((isrAtHandler v err kstack c).regs .rdi)
      = ⟨c.ds.zeroExtend 64, c.regs .r15, c.regs .r14, c.regs .r13, c.regs .r12, c.regs .r11,
         c.regs .r10, c.regs .r9, c.regs .r8, c.regs .rbp, c.regs .rdi, c.regs .rsi, c.regs .rdx,
         c.regs .rcx, c.regs .rbx, c.regs .rax, BitVec.ofNat 64 v, errItem v err, c.rip, c.cs,
         c.rflags, c.regs .rsp⟩ := by
  obtain ⟨hst, hrdi⟩ := isrAtHandler_holds v err kstack c
  rw [hrdi]
  unfold isrImage at hst
  rw [stubImage_of_not_missed hv] at hst
  exact readCpuContext_of_holds hst

/-- What the handler reads where the error code was missed: from `rip` on, the fields are one slot further off. -/
theorem readCpuContext_missed {v : Nat} (hv : ErrCodeMissed v) (err kstack : Word) (c : Cpu) :
    readCpuContext (isrAtHandler v err kstack c).mem ((isrAtHandler v err kstack c).regs .rdi)
      = ⟨c.ds.zeroExtend 64, c.regs .r15, c.regs .r14, c.regs .r13, c.regs .r12, c.regs .r11,
         c.regs .r10, c.regs .r9, c.regs .r8, c.regs .rbp, c.regs .rdi, c.regs .rsi, c.regs .rdx,
         c.regs .rcx, c.regs .rbx, c.regs .rax, BitVec.ofNat 64 v, 0, err, c.rip, c.cs, c.rflags⟩ := by
  obtain ⟨hst, hrdi⟩ := isrAtHandler_holds v err kstack c
  rw [hrdi]
  unfold isrImage at hst
  rw [stubImage_missed hv] at hst
  exact readCpuContext_of_holds hst

/-- The identity handler leaves every image alone. -/
theorem leavesImage_id (v : Nat) (a : Cpu) : LeavesImage id v a := ⟨rfl, fun _ _ => rfl⟩

/-- There the contract is never met: `int_no` reads RAX, `err_code` the vector, `rip` the dummy, and
    RSP comes back as RFLAGS; together these force the vector to be 0. -/
theorem not_isrContract_missed {v : Nat} (hv : ErrCodeMissed v) (err kstack : Word) (c : Cpu) :
    ¬ IsrContract v err kstack c := by
  rintro ⟨hctx, hret⟩
  rw [readCpuContext_missed hv] at hctx
  simp only [interruptedContext, CpuContext.mk.injEq] at hctx
  obtain ⟨-, -, -, -, -, -, -, -, -, -, -, -, -, -, -, -, herr, hrip, hcs, hfl, hsp, -⟩ := hctx
  have hrsp : c.rflags = c.regs .rsp := by
    rw [← hret id (leavesImage_id v _) .rsp, (isrReturn_regs (leavesImage_id v _)).2, stubImage_missed hv]
    rfl
  have herr' : BitVec.ofNat 64 v = err := by
    rw [herr, errItem, (errCodeMissed_iff.mp hv).1, if_pos rfl]
  have hzero : BitVec.ofNat 64 v = 0 :=
    calc BitVec.ofNat 64 v = err := herr'
      _ = c.cs := hcs
      _ = c.regs .rsp := hsp
      _ = c.rflags := hrsp.symm
      _ = c.rip := hfl.symm
      _ = 0 := hrip.symm
  rcases hv with rfl | rfl | rfl <;> exact absurd hzero (by decide)

/-- **The stubs meet the contract exactly when the one-slot shift is invisible.** The handler reads the
    interrupted context, and an undisturbed image gives every general register back, if and only if the
    vector is not one whose error code the stubs miss, and DS, all general registers, the vector, the error code and the
    five items of the processor's frame have one and the same value. -/
theorem isr_contract_iff (v : Fin 256) (err kstack : Word) (c : Cpu) :
    IsrContract v err kstack c ↔ ¬ErrCodeMissed v ∧ AllItemsEqual v err c := by
  constructor
  · intro hcon
    have hv : ¬ErrCodeMissed v := fun hmissed => not_isrContract_missed hmissed err kstack c hcon
    refine ⟨hv, ?_⟩
    obtain ⟨hctx, -⟩ := hcon
    rw [readCpuContext_of_not_missed hv] at hctx
    simp only [interruptedContext, CpuContext.mk.injEq] at hctx
    obtain ⟨h15, h14, h13, h12, h11, h10, h9, h8, hbp, hdi, hsi, hdx, hcx, hbx, hax, hint, herr, hrip,
      hcs, hfl, hsp, hss⟩ := hctx
    refine ⟨fun r => ?_, ?_, ?_, ?_, ?_, ?_, ?_⟩
    · cases r <;> simp_all
    all_goals simp_all
  · rintro ⟨hv, hregs, hint, herr, hrip, hcs, hfl, hss⟩
    refine ⟨?_, fun h hh r => ?_⟩
    · rw [readCpuContext_of_not_missed hv]
      simp [interruptedContext, hregs, hint, herr, hrip, hcs, hfl, hss]
    · obtain ⟨hin, hrsp⟩ := isrReturn_regs hh
      by_cases hr : r = .rsp
      · subst hr
        rw [hrsp, stubImage_of_not_missed hv]
        rfl
      · exact hin r hr

/-- A timer interrupt (vector 32) of user code with `r15 = 1` and DS = `0x23`: the handler finds DS in
    `r15`, so the contract fails. -/
theorem isr_contract_fails_timer :
    ¬ IsrContract 32 0 0x1000
        { regs := fun r => if r = .r15 then 1 else 0, ds := 0x23, es := 0x23, rip := 0x400000,
          cs := 0x2B, rflags := 0x202, ss := 0x23, mem := fun _ => 0 } := by
  rintro ⟨hctx, -⟩
  rw [readCpuContext_of_not_missed (by simp [ErrCodeMissed])] at hctx
  simp only [interruptedContext, CpuContext.mk.injEq] at hctx
  exact absurd hctx.1 (by decide)

end MyUnix.Arch
