import Mathlib.Logic.Function.Basic
import MyUnix.Lib.Run
import MyUnix.Arch.Machine

/-!
# `Arch.SyscallEntry` — the user stack pointer across `syscall_entry`

`syscall_entry` keeps the caller's RSP in `[gs:8]`, the second word of the one `per_cpu_t` of the CPU,
and reads it back from there before `sysretq`; everything else it saves lies on the kernel stack of the
calling process. A call that blocks in `schedule()` leaves its pointer in that slot while other processes
enter and leave calls of their own.

The model is the CPU as these paths see it: the two GS bases that `swapgs` exchanges, the memory behind
them, RSP and the running process. An event is what some process does next, so a list of events is an
interleaving. `entered` records, for the statement only, the pointer each process entered its call with.

The slot belongs to the CPU and not to the process, so it holds the pointer of whoever came last. The result is an
equivalence for each return: the pointer is the right one if and only if the latest entry was by the process that
returns.
-/

namespace MyUnix.Arch

open Lib

/-- The CPU as the system-call path sees it. -/
structure SysCpu where
  gsBase       : Word
  kernelGsBase : Word
  mem          : Word → Word
  rsp          : Word
  current      : Nat
  /-- The user RSP a process entered its pending call with. -/
  entered      : Nat → Option Word

/-- What can happen between two instructions of interest. -/
inductive SysEvent where
  /-- The running process executes SYSCALL with this stack pointer. -/
  | enter (userRsp : Word)
  /-- The running process is in `arch_prctl(ARCH_SET_GS, base)`. -/
  | setGs (base : Word)
  /-- `schedule()` switches to a process whose `tss_rsp0` is `rsp0`, out of a blocked call or from an
      interrupt. -/
  | switch (next : Nat) (rsp0 : Word)
  /-- `proc_exec` leaves the call for good through `context_switch_to_user` (no `swapgs` there). -/
  | exec (userRsp : Word)
  /-- Any other store. -/
  | store (addr val : Word)
  /-- The end of `syscall_entry`: reload RSP, `swapgs`, `sysretq`. -/
  | ret
deriving DecidableEq

section

variable (bootCpu : Word)

/-- The state `syscall_setup` leaves: both GS bases are `&g_boot_cpu`. -/
def syscallSetup (mem : Word → Word) (rsp : Word) (current : Nat) : SysCpu :=
  { gsBase := bootCpu, kernelGsBase := bootCpu, mem, rsp, current, entered := fun _ => none }

/-- `swapgs`. -/
def SysCpu.swapgs (s : SysCpu) : SysCpu :=
  { s with gsBase := s.kernelGsBase, kernelGsBase := s.gsBase }

/-- The head of `syscall_entry`: save the user RSP in `[gs:8]`, load the kernel stack from `[gs:0]`. -/
def SysCpu.syscallEnter (s : SysCpu) (userRsp : Word) : SysCpu :=
  let s := s.swapgs
  let mem := Function.update s.mem (s.gsBase + 8#64) userRsp
  { s with mem, rsp := mem s.gsBase, entered := Function.update s.entered s.current (some userRsp) }

/-- The stack pointer that the tail of `syscall_entry` loads. -/
def SysCpu.restoredRsp (s : SysCpu) : Word := s.mem (s.gsBase + 8#64)

/-- The tail of `syscall_entry`. -/
def SysCpu.syscallReturn (s : SysCpu) : SysCpu :=
  { s with rsp := s.restoredRsp, entered := Function.update s.entered s.current none }.swapgs

/-- One event. SYSCALL needs user mode, a return, an `exec` and an `arch_prctl` a pending call; a store
    that is not `syscall_entry`'s own never hits the saved-RSP slot. -/
def sysStep (s : SysCpu) : SysEvent → Option SysCpu
  | .enter userRsp => if s.entered s.current = none then some (s.syscallEnter userRsp) else none
  | .setGs base => if s.entered s.current = none then none else some { s with gsBase := base }
  | .switch next rsp0 => some { s with current := next, mem := Function.update s.mem bootCpu rsp0 }
  | .exec userRsp =>
      if s.entered s.current = none then none
      else some { s with rsp := userRsp, entered := Function.update s.entered s.current none }
  | .store addr val =>
      if addr = bootCpu + 8#64 then none else some { s with mem := Function.update s.mem addr val }
  | .ret => if s.entered s.current = none then none else some s.syscallReturn

/-- The stack pointer of the latest SYSCALL of an interleaving, by whichever process. -/
def lastEntry (es : List SysEvent) : Option Word :=
  es.foldl (fun acc e => match e with
    | .enter userRsp => some userRsp
    | _ => acc) none

/-- An event other than `arch_prctl(ARCH_SET_GS, …)`. -/
def NoSetGs : SysEvent → Prop
  | .setGs _ => False
  | _ => True

/-! ## The slot holds the latest entry

The invariant of all interleavings in which nobody moves the GS base.
-/

/-- What every interleaving without ARCH_SET_GS keeps: both bases are the per-CPU block and the slot holds
    the pointer of the latest entry. -/
def SlotInv (es : List SysEvent) (s : SysCpu) : Prop :=
  s.gsBase = bootCpu ∧ s.kernelGsBase = bootCpu ∧
  ∀ r, lastEntry es = some r → s.mem (bootCpu + 8#64) = r

theorem slot_ne_head : bootCpu + 8#64 ≠ bootCpu := by bv_omega

theorem lastEntry_snoc (es : List SysEvent) (e : SysEvent) :
    lastEntry (es ++ [e]) = match e with
      | .enter userRsp => some userRsp
      | _ => lastEntry es := by
  unfold lastEntry
  rw [List.foldl_append]
  rfl

/-- One step keeps the slot in line with the trace. -/
theorem slotInv_step {es : List SysEvent} {s t : SysCpu} {e : SysEvent}
    (h : SlotInv bootCpu es s) (hno : NoSetGs e) (hs : sysStep bootCpu s e = some t) :
    SlotInv bootCpu (es ++ [e]) t := by
  obtain ⟨hgs, hkgs, hslot⟩ := h
  unfold SlotInv
  rw [lastEntry_snoc]
  cases e with
  | enter userRsp =>
      simp only [sysStep, Option.ite_none_right_eq_some, Option.some.injEq] at hs
      obtain ⟨-, rfl⟩ := hs
      refine ⟨hkgs, hgs, fun r hr => ?_⟩
      simp only [Option.some.injEq] at hr
      simp [SysCpu.syscallEnter, SysCpu.swapgs, hkgs, hr]
  | setGs base => exact hno.elim
  | «switch» next rsp0 =>
      simp only [sysStep, Option.some.injEq] at hs
      subst hs
      refine ⟨hgs, hkgs, fun r hr => ?_⟩
      simp only [Function.update_of_ne (slot_ne_head bootCpu)]
      exact hslot r hr
  | exec userRsp =>
      simp only [sysStep, Option.ite_none_left_eq_some, Option.some.injEq] at hs
      obtain ⟨-, rfl⟩ := hs
      exact ⟨hgs, hkgs, hslot⟩
  | store addr val =>
      simp only [sysStep, Option.ite_none_left_eq_some, Option.some.injEq] at hs
      obtain ⟨hne, rfl⟩ := hs
      refine ⟨hgs, hkgs, fun r hr => ?_⟩
      simp only [Function.update_of_ne (Ne.symm hne)]
      exact hslot r hr
  | ret =>
      simp only [sysStep, Option.ite_none_left_eq_some, Option.some.injEq] at hs
      obtain ⟨-, rfl⟩ := hs
      exact ⟨hkgs, hgs, hslot⟩

/-- A whole interleaving keeps it. -/
theorem slotInv_run {s t : SysCpu} {es : List SysEvent} (h0 : SlotInv bootCpu [] s)
    (h : Run (Graph (sysStep bootCpu)) s es t) (hno : ∀ e ∈ es, NoSetGs e) :
    SlotInv bootCpu es t := by
  induction h with
  | refl => exact h0
  | tail _ hs ih =>
      refine slotInv_step bootCpu (ih fun e he => hno e (List.mem_append_left _ he)) ?_ hs
      exact hno _ (List.mem_append_right _ (by simp))

/-- A process inside a call has entered it, so the interleaving has a latest entry. -/
theorem lastEntry_isSome {s t : SysCpu} {es : List SysEvent} (h0 : ∀ p, s.entered p = none)
    (h : Run (Graph (sysStep bootCpu)) s es t) {p : Nat} {r : Word} (hp : t.entered p = some r) :
    ∃ r', lastEntry es = some r' := by
  induction h generalizing r with
  | refl => rw [h0] at hp; cases hp
  | @tail t u es e _ hs ih =>
      rw [lastEntry_snoc]
      cases e with
      | enter userRsp => exact ⟨userRsp, rfl⟩
      | setGs base =>
          simp only [Lib.Graph, sysStep, Option.ite_none_left_eq_some, Option.some.injEq] at hs
          obtain ⟨-, rfl⟩ := hs
          exact ih hp
      | «switch» next rsp0 =>
          simp only [Lib.Graph, sysStep, Option.some.injEq] at hs
          subst hs
          exact ih hp
      | exec userRsp =>
          simp only [Lib.Graph, sysStep, Option.ite_none_left_eq_some, Option.some.injEq] at hs
          obtain ⟨-, rfl⟩ := hs
          by_cases hpc : p = t.current
          · subst hpc; simp at hp
          · simp only [Function.update_of_ne hpc] at hp
            exact ih hp
      | store addr val =>
          simp only [Lib.Graph, sysStep, Option.ite_none_left_eq_some, Option.some.injEq] at hs
          obtain ⟨-, rfl⟩ := hs
          exact ih hp
      | ret =>
          simp only [Lib.Graph, sysStep, Option.ite_none_left_eq_some, Option.some.injEq] at hs
          obtain ⟨-, rfl⟩ := hs
          by_cases hpc : p = t.current
          · subst hpc; simp [SysCpu.syscallReturn, SysCpu.swapgs] at hp
          · simp only [SysCpu.syscallReturn, SysCpu.swapgs, Function.update_of_ne hpc] at hp
            exact ih hp

/-! ## Which returns find their own pointer

The comparison of the latest entry with that of the process.
-/

/-- **The restored pointer is the latest entry's.** In every interleaving without ARCH_SET_GS, a process
    about to return from the call it entered with stack pointer `r` gets `r` back if and only if the
    latest SYSCALL on the CPU, its own or another process's, was made with `r`. -/
theorem restoredRsp_eq_iff (mem : Word → Word) (rsp : Word) (p : Nat) {es : List SysEvent} {s : SysCpu}
    (h : Run (Graph (sysStep bootCpu)) (syscallSetup bootCpu mem rsp p) es s)
    (hno : ∀ e ∈ es, NoSetGs e) {r : Word} (hr : s.entered s.current = some r) :
    s.restoredRsp = r ↔ lastEntry es = some r := by
  have h0 : SlotInv bootCpu [] (syscallSetup bootCpu mem rsp p) :=
    ⟨rfl, rfl, fun r hr => by simp [lastEntry] at hr⟩
  obtain ⟨hgs, -, hslot⟩ := slotInv_run bootCpu h0 h hno
  obtain ⟨r', hr'⟩ := lastEntry_isSome bootCpu (fun _ => rfl) h hr
  have hval : s.restoredRsp = r' := by
    unfold SysCpu.restoredRsp
    rw [hgs]
    exact hslot r' hr'
  rw [hval, hr']
  simp

/-- A call that nothing interrupts: the process that entered with `0x7000` and blocked once gets `0x7000`
    back. -/
theorem restoredRsp_eq_alone :
    ∃ s, Run (Graph (sysStep 0x100)) (syscallSetup 0x100 (fun _ => 0) 0 1)
        [.enter 0x7000, .switch 2 0x9000, .switch 1 0x8000] s
      ∧ s.entered s.current = some 0x7000 ∧ s.restoredRsp = 0x7000 := by
  have hrun : Run (Graph (sysStep 0x100)) (syscallSetup 0x100 (fun _ => 0) 0 1)
      [.enter 0x7000, .switch 2 0x9000, .switch 1 0x8000] _ := Run.of_foldlM rfl
  refine ⟨_, hrun, by decide, ?_⟩
  exact (restoredRsp_eq_iff 0x100 _ _ _ hrun (by simp [NoSetGs]) (by decide)).mpr (by decide)

/-- Process 1 enters with `0x7000` and blocks, process 2 enters with `0x6000` and blocks, process 1
    resumes: it is about to return on process 2's stack. -/
theorem restoredRsp_other_process :
    ¬ ∀ (bootCpu : Word) (mem : Word → Word) (rsp : Word) (p : Nat) (es : List SysEvent) (s : SysCpu),
        Run (Graph (sysStep bootCpu)) (syscallSetup bootCpu mem rsp p) es s →
        ∀ r, s.entered s.current = some r → s.restoredRsp = r := by
  intro hall
  have hbad := hall 0x100 (fun _ => 0) 0 1
    [.enter 0x7000, .switch 2 0x9000, .enter 0x6000, .switch 1 0x8000] _ (Run.of_foldlM rfl) 0x7000
    (by decide)
  exact absurd hbad (by decide)

end

end MyUnix.Arch
