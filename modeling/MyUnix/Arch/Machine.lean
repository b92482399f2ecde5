import Mathlib.Algebra.Group.Nat.Defs
import Mathlib.Logic.Function.Basic

/-!
# `Arch.Machine` — the slice of x86_64 that the entry stubs of `boot.asm` use

Sixteen general registers, the two data segment selectors the stubs touch, the five items of an
interrupt frame, and memory as a function from addresses to 64-bit words (every access of the stubs is
an aligned 8-byte access). The stubs themselves are *data*: lists of `Instr`, in the order of the
assembly text, so that they can be compared with `boot.asm` line by line; `exec` gives them meaning.

`StackHolds` is the one notion the layout proofs use: the words from an address upwards. Pushing a word
extends it at the front (`StackHolds.push`), popping reads its head (`StackHolds.head`/`.tail`).

The machine is as small as the text of the stubs allows. Selectors are values without descriptors here; what loading
them means is in `Arch.Segments`. Addresses wrap as 64-bit words do, and no access faults: the stack of the kernel is
there.
-/

namespace MyUnix.Arch

/-- A 64-bit machine word. -/
abbrev Word := BitVec 64

/-- The general registers. -/
inductive Reg where
  | rax | rbx | rcx | rdx | rsi | rdi | rbp | rsp
  | r8 | r9 | r10 | r11 | r12 | r13 | r14 | r15
deriving DecidableEq, Repr

/-- The processor state the stubs read and write. -/
structure Cpu where
  regs   : Reg → Word
  ds     : BitVec 16
  es     : BitVec 16
  rip    : Word
  cs     : Word
  rflags : Word
  ss     : Word
  mem    : Word → Word

namespace Cpu

/-- Write a general register. -/
def set (c : Cpu) (r : Reg) (v : Word) : Cpu := { c with regs := Function.update c.regs r v }

/-- `push v`: move RSP down by eight and store there. -/
def push (c : Cpu) (v : Word) : Cpu :=
  { c with
    regs := Function.update c.regs .rsp (c.regs .rsp - 8#64)
    mem  := Function.update c.mem (c.regs .rsp - 8#64) v }

/-- The word RSP points at. -/
def top (c : Cpu) : Word := c.mem (c.regs .rsp)

/-- Drop the word RSP points at. -/
def drop (c : Cpu) : Cpu := c.set .rsp (c.regs .rsp + 8#64)

/-- The selector `ds` as `mov ax, ds` leaves it in the low half of RAX. -/
def setAx (c : Cpu) (v : BitVec 16) : Cpu :=
  c.set .rax ((c.regs .rax &&& ~~~(0xFFFF : Word)) ||| v.zeroExtend 64)

end Cpu

/-- The instructions that occur in the interrupt stubs. `call` stands for a call that has returned: its
    argument is what the callee did to the machine. -/
inductive Instr where
  | pushImm (v : Word)
  | push (r : Reg)
  | pop (r : Reg)
  | xorEaxEax
  | movAxDs
  | movAxImm (v : BitVec 16)
  | movDsAx
  | movEsAx
  | movReg (dst src : Reg)
  | addRsp (n : Word)
  | call (f : Cpu → Cpu)
  | iretq

/-- One instruction. -/
def Instr.exec : Instr → Cpu → Cpu
  | .pushImm v,      c => c.push v
  | .push r,         c => c.push (c.regs r)
  | .pop r,          c => c.drop.set r c.top
  | .xorEaxEax,      c => c.set .rax 0
  | .movAxDs,        c => c.setAx c.ds
  | .movAxImm v,     c => c.setAx v
  | .movDsAx,        c => { c with ds := (c.regs .rax).truncate 16 }
  | .movEsAx,        c => { c with es := (c.regs .rax).truncate 16 }
  | .movReg dst src, c => c.set dst (c.regs src)
  | .addRsp n,       c => c.set .rsp (c.regs .rsp + n)
  | .call f,         c => f c
  | .iretq,          c =>
    { c with
      rip    := c.mem (c.regs .rsp)
      cs     := c.mem (c.regs .rsp + 8#64)
      rflags := c.mem (c.regs .rsp + 16#64)
      regs   := Function.update c.regs .rsp (c.mem (c.regs .rsp + 24#64))
      ss     := c.mem (c.regs .rsp + 32#64) }

/-- A straight-line piece of assembly. -/
def exec (is : List Instr) (c : Cpu) : Cpu := is.foldl (fun c i => i.exec c) c

@[simp] theorem exec_nil (c : Cpu) : exec [] c = c := rfl

@[simp] theorem exec_cons (i : Instr) (is : List Instr) (c : Cpu) :
    exec (i :: is) c = exec is (i.exec c) := rfl

theorem exec_append (is js : List Instr) (c : Cpu) : exec (is ++ js) c = exec js (exec is c) :=
  List.foldl_append

/-! ## Words on the stack

A list of words from an address upwards, with the lowest one first, which is the one pushed last.
-/

/-- The words from address `p` upwards are `vs`. -/
def StackHolds (mem : Word → Word) : Word → List Word → Prop
  | _, []      => True
  | p, v :: vs => mem p = v ∧ StackHolds mem (p + 8#64) vs

theorem StackHolds.head {mem : Word → Word} {p v : Word} {vs : List Word}
    (h : StackHolds mem p (v :: vs)) : mem p = v := h.1

theorem StackHolds.tail {mem : Word → Word} {p v : Word} {vs : List Word}
    (h : StackHolds mem p (v :: vs)) : StackHolds mem (p + 8#64) vs := h.2

/-- The `k`-th word lies `8 * k` bytes up. -/
theorem StackHolds.getElem {mem : Word → Word} :
    ∀ {vs : List Word} {p : Word}, StackHolds mem p vs →
      ∀ (k : Nat) (hk : k < vs.length), mem (p + BitVec.ofNat 64 (8 * k)) = vs[k]
  | v :: vs, p, h, 0,     _  => by simpa using h.1
  | v :: vs, p, h, k + 1, hk => by
    have haddr : p + BitVec.ofNat 64 (8 * (k + 1)) = p + 8#64 + BitVec.ofNat 64 (8 * k) := by
      bv_omega
    rw [haddr]
    exact h.2.getElem k (by simpa using hk)

/-- Whether `vs` sits at `p` depends only on the `vs.length` words from `p` on. -/
theorem StackHolds.congr {mem mem' : Word → Word} :
    ∀ {vs : List Word} {p : Word}, StackHolds mem p vs →
      (∀ k < vs.length, mem' (p + BitVec.ofNat 64 (8 * k)) = mem (p + BitVec.ofNat 64 (8 * k))) →
      StackHolds mem' p vs
  | [],      _, _, _   => trivial
  | v :: vs, p, h, heq => by
    have h0 := heq 0 (by simp)
    simp only [Nat.mul_zero, BitVec.add_zero] at h0
    refine ⟨h0.trans h.1, h.2.congr fun k hk => ?_⟩
    have hk' := heq (k + 1) (by simpa using hk)
    have haddr : p + 8#64 + BitVec.ofNat 64 (8 * k) = p + BitVec.ofNat 64 (8 * (k + 1)) := by
      bv_omega
    rw [haddr]
    exact hk'

/-- **Push extends the image.** The word just stored lies below the words already there, so these are
    untouched as long as the whole image fits the address space. -/
theorem StackHolds.push {c : Cpu} {vs : List Word} (v : Word)
    (h : StackHolds c.mem (c.regs .rsp) vs) (hlen : vs.length < 100) :
    StackHolds (c.push v).mem ((c.push v).regs .rsp) (v :: vs) := by
  have hrsp : (c.push v).regs .rsp = c.regs .rsp - 8#64 := by simp [Cpu.push]
  rw [hrsp]
  refine ⟨by simp [Cpu.push], ?_⟩
  rw [BitVec.sub_add_cancel]
  refine h.congr fun k hk => ?_
  have hne : c.regs .rsp + BitVec.ofNat 64 (8 * k) ≠ c.regs .rsp - 8#64 := by
    have hk' : k < 100 := by omega
    bv_omega
  exact Function.update_of_ne hne v c.mem

/-! ## Runs of pushes and pops

The stubs push and pop fifteen registers in a row. Both are inductions over the list of registers.
-/

/-- Pushing registers one after the other lays them out in reverse, the last one lowest; no register
    but RSP changes. -/
theorem exec_pushes : ∀ (rs : List Reg) (c : Cpu) (vs : List Word), .rsp ∉ rs →
    StackHolds c.mem (c.regs .rsp) vs → vs.length + rs.length < 100 →
    StackHolds (exec (rs.map .push) c).mem ((exec (rs.map .push) c).regs .rsp)
        ((rs.map c.regs).reverse ++ vs)
      ∧ ∀ r, r ≠ .rsp → (exec (rs.map .push) c).regs r = c.regs r
  | [],      _, _,  _,   h, _    => ⟨h, fun _ _ => rfl⟩
  | r :: rs, c, vs, hrs, h, hlen => by
    simp only [List.mem_cons, not_or] at hrs
    simp only [List.length_cons] at hlen
    have hregs : ∀ r', r' ≠ .rsp → (c.push (c.regs r)).regs r' = c.regs r' := by
      intro r' hr'
      simp [Cpu.push, hr']
    have hmap : rs.map (c.push (c.regs r)).regs = rs.map c.regs :=
      List.map_congr_left fun r' hr' => hregs r' fun he => hrs.2 (he ▸ hr')
    obtain ⟨hst, hkeep⟩ := exec_pushes rs (c.push (c.regs r)) (c.regs r :: vs) hrs.2
      (h.push (c.regs r) (by omega)) (by simp only [List.length_cons]; omega)
    rw [hmap] at hst
    refine ⟨?_, fun r' hr' => (hkeep r' hr').trans (hregs r' hr')⟩
    simpa [Instr.exec] using hst

/-- Popping registers one after the other hands each the word that lies in its turn; no other register
    but RSP changes, and memory is as it was. -/
theorem exec_pops (f : Reg → Word) : ∀ (rs : List Reg) (c : Cpu) (vs : List Word), rs.Nodup →
    .rsp ∉ rs → StackHolds c.mem (c.regs .rsp) (rs.map f ++ vs) →
    StackHolds (exec (rs.map .pop) c).mem ((exec (rs.map .pop) c).regs .rsp) vs
      ∧ (∀ r ∈ rs, (exec (rs.map .pop) c).regs r = f r)
      ∧ ∀ r, r ∉ rs → r ≠ .rsp → (exec (rs.map .pop) c).regs r = c.regs r
  | [],      _, _,  _,   _,   h => ⟨h, by simp, fun _ _ _ => rfl⟩
  | r :: rs, c, vs, hnd, hrs, h => by
    simp only [List.mem_cons, not_or] at hrs
    rw [List.nodup_cons] at hnd
    have hrsp : ((Instr.pop r).exec c).regs .rsp = c.regs .rsp + 8#64 := by
      simp [Instr.exec, Cpu.set, Cpu.drop, hrs.1]
    have hreg : ((Instr.pop r).exec c).regs r = f r := by
      simpa [Instr.exec, Cpu.set, Cpu.top] using h.head
    have hkeep : ∀ r', r' ≠ r → r' ≠ .rsp → ((Instr.pop r).exec c).regs r' = c.regs r' := by
      intro r' hr hsp
      simp [Instr.exec, Cpu.set, Cpu.drop, hr, hsp]
    obtain ⟨hst, hin, hout⟩ := exec_pops f rs ((Instr.pop r).exec c) vs hnd.2 hrs.2
      (by rw [hrsp]; exact h.tail)
    refine ⟨hst, ?_, ?_⟩
    · intro r' hr'
      rcases List.mem_cons.mp hr' with he | hm
      · subst he
        exact (hout r' hnd.1 fun he => hrs.1 he.symm).trans hreg
      · exact hin r' hm
    · intro r' hr' hsp
      simp only [List.mem_cons, not_or] at hr'
      exact (hout r' hr'.2 hsp).trans (hkeep r' hr'.1 hsp)

end MyUnix.Arch
