import MyUnix.Lib.Run
import MyUnix.Proc.SchedFrame

/-!
# `Proc.SwitchStack` — contexts and kernel stacks

The scheduler of `Proc.Sched` with what `schedule()` does after it has chosen: `context_switch` of `boot.asm` saves the
registers of the process that leaves, and takes those of the next from where they were saved. `proc_create` leaves the
saved registers zero, `proc_fork` copies those of the parent, and only `context_switch` itself ever saves any.

`g_current` is never null here: `kernel_main_thread` sets it before anything calls `schedule()`. Both `tss_set_rsp0` and
`per_cpu_set_kernel_stack` set the stack that is taken on entry from user mode. Init runs on the stack of boot until it
is switched to. `saved` is for the statements only.

Registers are modelled as far as a stack pointer goes. A switch is right when the process that comes next is taken up
on its own kernel stack at the place where it was left; this is so if and only if it was switched away from before,
because only then has `context_switch` written its stack pointer. A new process has a stack that nobody has prepared.

Stacks are apart since the page allocator hands each of them out once, which is an assumption on the event that makes
a process here and a result in `Mm.PmmRun`.
-/

namespace MyUnix.Proc

open Lib

/-- `thread_context_t`, as far as `context_switch` reads and writes it. -/
structure ThreadContext where
  rbx : Nat
  rbp : Nat
  r12 : Nat
  r13 : Nat
  r14 : Nat
  r15 : Nat
  rsp : Nat
  rip : Nat
deriving DecidableEq

/-- As `kzalloc` leaves it. -/
def ThreadContext.zero : ThreadContext := ⟨0, 0, 0, 0, 0, 0, 0, 0⟩

/-- `KERNEL_STACK_SIZE`. -/
def kernelStackSize : Nat := 16 * 1024

/-- The part of `process_t` that switching reads. -/
structure Thread where
  ctx            : ThreadContext
  kernelStack    : Nat
  kernelStackTop : Nat
  tssRsp0        : Nat
  vmSpace        : Nat

/-- A stack pointer that is inside the kernel stack of the process. -/
def Thread.OnStack (t : Thread) (x : Nat) : Prop := t.kernelStack < x ∧ x ≤ t.kernelStackTop

instance (t : Thread) (x : Nat) : Decidable (t.OnStack x) := inferInstanceAs (Decidable (_ ∧ _))

/-- `saved`: the process was switched away from since it was made, the last time on its own stack. -/
structure SwitchSys where
  sched   : Sched
  threads : Pid → Thread
  cpu     : ThreadContext
  cr3     : Nat
  entry   : Nat
  saved   : Pid → Bool

/-- A process that does not exist. -/
def noThread : Thread := ⟨.zero, 0, 0, 0, 0⟩

/-- `proc_create` and `proc_fork` on these fields. -/
def newThread (ctx : ThreadContext) (stack space : Nat) : Thread where
  ctx            := ctx
  kernelStack    := stack
  kernelStackTop := stack + kernelStackSize
  tssRsp0        := stack + kernelStackSize
  vmSpace        := space

/-- A process more, on no run queue. -/
def Sched.addProc (s : Sched) (p : Process) : Sched :=
  { s with
    mem    := s.mem.init (.runNode s.nprocs)
    nprocs := s.nprocs + 1
    procs  := Function.update s.procs s.nprocs p }

/-- `fork` is `proc_fork`, and what `sys_fork` does with the child. -/
theorem Sched.fork_eq (s : Sched) : s.fork = ((s.addProc s.forkedProc).setState s.nprocs .ready).schedAdd s.nprocs := rfl

namespace SwitchSys

variable (s : SwitchSys) (returnLabel : Nat)

/-- A new process, with its thread. -/
def addThread (p : Process) (t : Thread) : SwitchSys :=
  { s with
    sched   := s.sched.addProc p
    threads := Function.update s.threads s.sched.nprocs t
    saved   := Function.update s.saved s.sched.nprocs false }

/-- The saved context of `p` becomes `ctx`. -/
def setCtx (p : Pid) (ctx : ThreadContext) : SwitchSys :=
  { s with threads := Function.update s.threads p { s.threads p with ctx } }

/-- `context_switch`. -/
def contextSwitch (prev next : Pid) : SwitchSys :=
  let s := s.setCtx prev { s.cpu with rip := returnLabel }
  { s with cpu := (s.threads next).ctx }

/-- The process that `schedule()` goes over to: none if it returns at once. -/
def switchTo : Option Pid :=
  match s.sched.schedule with
  | .ok t => if t.current = s.sched.current then none else some t.current
  | .error _ => none

/-- `schedule`; `none` is a page fault on the way. -/
def schedule : Option SwitchSys :=
  match s.sched.schedule with
  | .error _ => none
  | .ok t =>
    let prev := s.sched.current
    let next := t.current
    if next = prev then some { s with sched := t }
    else
      let s : SwitchSys :=
        { s with
          sched := t
          -- the kernel stack for the next entry from user mode, and the address space
          entry := (s.threads next).tssRsp0
          cr3   := if (s.threads prev).vmSpace = (s.threads next).vmSpace then s.cr3 else (s.threads next).vmSpace
          saved := Function.update s.saved prev (decide ((s.threads prev).OnStack s.cpu.rsp)) }
      some (s.contextSwitch returnLabel prev next)

/-! ## Events

A process is made, or the scheduler takes a step and may switch.
-/

/-- The stack pointer is in the stack of boot or in that of some process. -/
def InUse (boot x : Nat) : Prop := boot < x ∧ x ≤ boot + kernelStackSize ∨ ∃ p, (s.threads p).OnStack x

end SwitchSys

/-- The memory for a new process: its kernel stack and its address space, if they could be had. -/
inductive SwitchEvent where
  | create (mem : Option (Nat × Nat))
  | fork (mem : Option (Nat × Nat))
  | add (p : Pid)
  | schedule
  | run (cpu : ThreadContext)

/-- The page allocator gives out memory that is no stack yet, and the running process keeps its stack pointer in stacks
    that there are. -/
def SwitchEvent.Enabled (boot : Nat) (s : SwitchSys) : SwitchEvent → Prop
  | .create mem => ∀ r ∈ mem, ∀ x, r.1 < x → x ≤ r.1 + kernelStackSize → ¬ s.InUse boot x
  | .fork mem   => ∀ r ∈ mem, ∀ x, r.1 < x → x ≤ r.1 + kernelStackSize → ¬ s.InUse boot x
  | .add p      => p < s.sched.nprocs
  | .schedule   => True
  | .run cpu    => s.InUse boot cpu.rsp

/-- Whoever calls `sched_add` has set the state to READY. -/
def SwitchEvent.path (returnLabel : Nat) (s : SwitchSys) : SwitchEvent → Option SwitchSys
  | .create none                => some s
  | .create (some (stack, space)) => some (s.addThread createdProc (newThread .zero stack space))
  | .fork none                  => some s
  | .fork (some (stack, space)) =>
      some (s.addThread s.sched.forkedProc (newThread (s.threads s.sched.current).ctx stack space))
  | .add p                      =>
      match (s.sched.setState p .ready).schedAdd p with
      | .ok t => some { s with sched := t }
      | .error _ => none
  | .schedule                   => s.schedule returnLabel
  | .run cpu                    => some { s with cpu }

/-- **`sys_fork`** is its two events one after the other: `proc_fork`, and `sched_add` of the child. -/
theorem SwitchEvent.fork_add (returnLabel : Nat) (s : SwitchSys) {stack space : Nat} {t : Sched}
    (h : s.sched.fork = .ok t) :
    ∃ u, (SwitchEvent.fork (some (stack, space))).path returnLabel s = some u ∧
      (SwitchEvent.add s.sched.nprocs).path returnLabel u = some { u with sched := t } := by
  refine ⟨s.addThread s.sched.forkedProc (newThread (s.threads s.sched.current).ctx stack space), rfl, ?_⟩
  rw [Sched.fork_eq] at h
  simp only [SwitchEvent.path, SwitchSys.addThread, h]

/-- The event can happen in `s`, and `t` is what it leaves. -/
def SwitchStep (boot returnLabel : Nat) (s : SwitchSys) (e : SwitchEvent) (t : SwitchSys) : Prop :=
  e.Enabled boot s ∧ e.path returnLabel s = some t

/-- After `sched_init` and the start of init, with the stacks of the two processes and their address spaces. -/
def switchBoot (idleStack initStack idleSpace initSpace : Nat) (cpu : ThreadContext) : SwitchSys where
  sched     := schedInit
  threads p :=
    if p = gIdleProc then newThread .zero idleStack idleSpace
    else if p = gInitProc then newThread .zero initStack initSpace
    else noThread
  cpu       := cpu
  cr3       := initSpace
  entry     := 0
  saved _   := false

/-- The process that an event goes over to. -/
def SwitchEvent.switchTo (s : SwitchSys) : SwitchEvent → Option Pid
  | .schedule => s.switchTo
  | _ => none

/-- The next process goes on at a place where `context_switch` left it, on its own stack and on nobody else's. -/
def SwitchEvent.Resumes (returnLabel : Nat) (s : SwitchSys) (e : SwitchEvent) : Prop :=
  ∀ next, e.switchTo s = some next → (s.threads next).OnStack (s.threads next).ctx.rsp ∧
    (s.threads next).ctx.rip = returnLabel ∧ ∀ q, q ≠ next → ¬ (s.threads q).OnStack (s.threads next).ctx.rsp

/-- The next process was switched away from before, the last time on its own stack. -/
def SwitchEvent.ToSaved (s : SwitchSys) (e : SwitchEvent) : Prop :=
  ∀ next, e.switchTo s = some next → s.saved next = true

/-! ## Processes are only added

The scheduler makes no process and destroys none; the number of processes is what the events say.
-/

/-- The number of processes along a kernel path. -/
def SameCount (s : Sched) (k : Kernel Sched) : Prop := (Sched.final k).nprocs = s.nprocs

namespace SameCount

variable {s : Sched} {p : Pid}

theorem bind {k : Kernel Sched} {f : Sched → Kernel Sched} (h : SameCount s k) (hf : ∀ t, SameCount t (f t)) :
    SameCount s (k >>= f) := by
  cases k with
  | error t => exact h
  | ok t => exact (hf t).trans h

theorem withMem {m : Option (ListMem Addr)} : SameCount s (s.withMem m) := by
  cases m <;> rfl

theorem runqPush : SameCount s (s.runqPush p) := withMem.bind fun _ => rfl

theorem schedAdd : SameCount s (s.schedAdd p) := by
  unfold Sched.schedAdd
  split
  · exact runqPush
  · rfl

theorem clearIfEmpty {i : Nat} : (s.clearIfEmpty i).nprocs = s.nprocs := by
  unfold Sched.clearIfEmpty
  split <;> rfl

theorem runqPopBest : SameCount s (s.runqPopBest.map Prod.snd) := by
  unfold Sched.runqPopBest
  split
  · rfl
  · simp only []
    split
    · rfl
    · split
      · exact clearIfEmpty
      · split
        · cases s.mem.del (.runNode _) with
          | none => rfl
          | some m => exact clearIfEmpty
        · rfl

theorem schedule : SameCount s s.schedule := by
  have hpop : SameCount s (s.runqPopBest.map Prod.snd) := runqPopBest
  unfold Sched.schedule
  cases hk : s.runqPopBest with
  | error t =>
    rw [hk] at hpop
    exact hpop
  | ok r =>
    obtain ⟨next, t⟩ := r
    rw [hk] at hpop
    refine Eq.trans ?_ (show t.nprocs = s.nprocs from hpop)
    show SameCount t (if next.getD gIdleProc = s.current then _ else _)
    split
    · rfl
    · show SameCount (t.setState (next.getD gIdleProc) .running) _
      split
      · show SameCount ((t.setState (next.getD gIdleProc) .running).setState s.current .ready) _
        exact runqPush.bind fun _ => rfl
      · rfl

end SameCount

/-! ## The invariant

Where every saved stack pointer lies, and that `saved` is the record of those that `context_switch` has written.
-/

/-- Stacks are apart, every stack pointer that is saved is in one of them or zero, and `saved` tells the truth. -/
structure SwitchInv (boot returnLabel : Nat) (s : SwitchSys) : Prop where
  empty   : ∀ p, s.sched.nprocs ≤ p → ∀ x, ¬ (s.threads p).OnStack x
  apart   : ∀ p q x, p ≠ q → (s.threads p).OnStack x → ¬ (s.threads q).OnStack x
  ctx     : ∀ p, (s.threads p).ctx.rsp = 0 ∨ s.InUse boot (s.threads p).ctx.rsp
  cpu     : s.cpu.rsp = 0 ∨ s.InUse boot s.cpu.rsp
  saved   : ∀ p, s.saved p = true → (s.threads p).OnStack (s.threads p).ctx.rsp ∧ (s.threads p).ctx.rip = returnLabel
  unsaved : ∀ p, s.saved p = false → ¬ (s.threads p).OnStack (s.threads p).ctx.rsp

/-- The stacks of two states are the same. -/
def SameStacks (s t : SwitchSys) : Prop :=
  ∀ p, (t.threads p).kernelStack = (s.threads p).kernelStack ∧ (t.threads p).kernelStackTop = (s.threads p).kernelStackTop

section

variable {boot returnLabel : Nat} {s t : SwitchSys} {p : Pid} {x : Nat}

theorem SameStacks.onStack_iff (h : SameStacks s t) : (t.threads p).OnStack x ↔ (s.threads p).OnStack x := by
  rw [Thread.OnStack, Thread.OnStack, (h p).1, (h p).2]

theorem SameStacks.inUse_iff (h : SameStacks s t) : t.InUse boot x ↔ s.InUse boot x := by
  simp only [SwitchSys.InUse, h.onStack_iff]

/-- A stack pointer is never zero. -/
theorem SwitchSys.not_onStack_zero (s : SwitchSys) (p : Pid) : ¬ (s.threads p).OnStack 0 := fun h => Nat.not_lt_zero _ h.1

namespace SwitchInv

/-- A process more: its stack is new, and its saved registers are of an old one, if they are of any. -/
theorem addThread (h : SwitchInv boot returnLabel s) {stack space : Nat} {ctx : ThreadContext} (rec : Process)
    (hfresh : ∀ x, stack < x → x ≤ stack + kernelStackSize → ¬ s.InUse boot x)
    (hctx : ctx.rsp = 0 ∨ s.InUse boot ctx.rsp) : SwitchInv boot returnLabel (s.addThread rec (newThread ctx stack space)) := by
  have hself : (s.addThread rec (newThread ctx stack space)).threads s.sched.nprocs = newThread ctx stack space :=
    Function.update_self _ _ _
  have hother : ∀ q, q ≠ s.sched.nprocs → (s.addThread rec (newThread ctx stack space)).threads q = s.threads q :=
    fun q hq => Function.update_of_ne hq _ _
  have hsavedSelf : (s.addThread rec (newThread ctx stack space)).saved s.sched.nprocs = false := Function.update_self _ _ _
  have hsavedOther : ∀ q, q ≠ s.sched.nprocs → (s.addThread rec (newThread ctx stack space)).saved q = s.saved q :=
    fun q hq => Function.update_of_ne hq _ _
  -- what was in use is in use
  have huse : ∀ x, s.InUse boot x → (s.addThread rec (newThread ctx stack space)).InUse boot x := by
    rintro x (hx | ⟨q, hq⟩)
    · exact .inl hx
    · refine .inr ⟨q, ?_⟩
      have hne : q ≠ s.sched.nprocs := by
        rintro rfl
        exact h.empty _ (Nat.le_refl _) x hq
      rw [hother q hne]
      exact hq
  have hnew : ∀ x, (newThread ctx stack space).OnStack x → ¬ s.InUse boot x := fun x hx => hfresh x hx.1 hx.2
  refine ⟨fun q hq x => ?_, fun q r x hne hx => ?_, fun q => ?_, h.cpu.imp id (huse _), fun q hq => ?_, fun q hq => ?_⟩
  · have hlt : s.sched.nprocs + 1 ≤ q := hq
    rw [hother q (by omega)]
    exact h.empty q (by omega) x
  · by_cases hqn : q = s.sched.nprocs
    · rw [hqn, hself] at hx
      rw [hother r (by rw [← hqn]; exact Ne.symm hne)]
      exact fun hr => hnew x hx (.inr ⟨r, hr⟩)
    · rw [hother q hqn] at hx
      by_cases hrn : r = s.sched.nprocs
      · rw [hrn, hself]
        exact fun hr => hnew x hr (.inr ⟨q, hx⟩)
      · rw [hother r hrn]
        exact h.apart q r x hne hx
  · by_cases hqn : q = s.sched.nprocs
    · rw [hqn, hself]
      exact hctx.imp id (huse _)
    · rw [hother q hqn]
      exact (h.ctx q).imp id (huse _)
  · have hqn : q ≠ s.sched.nprocs := by
      rintro rfl
      rw [hsavedSelf] at hq
      cases hq
    rw [hsavedOther q hqn] at hq
    rw [hother q hqn]
    exact h.saved q hq
  · by_cases hqn : q = s.sched.nprocs
    · rw [hqn, hself]
      intro hx
      rcases hctx with h0 | hold
      · exact absurd (h0 ▸ hx.1 : stack < 0) (Nat.not_lt_zero _)
      · exact hnew _ hx hold
    · rw [hsavedOther q hqn] at hq
      rw [hother q hqn]
      exact h.unsaved q hq

/-- Only the scheduler's part changes. -/
theorem withSched (h : SwitchInv boot returnLabel s) {u : Sched} (hn : u.nprocs = s.sched.nprocs) :
    SwitchInv boot returnLabel { s with sched := u } :=
  ⟨fun p hp => h.empty p (hn ▸ hp), h.apart, h.ctx, h.cpu, h.saved, h.unsaved⟩

/-- **A context switch.** What is saved of the process that leaves is on its own stack exactly if it runs there. -/
theorem contextSwitch (h : SwitchInv boot returnLabel s) {prev next : Pid} (hne : next ≠ prev) {entry cr3 : Nat} :
    SwitchInv boot returnLabel (SwitchSys.contextSwitch
      { s with entry, cr3, saved := Function.update s.saved prev (decide ((s.threads prev).OnStack s.cpu.rsp)) }
      returnLabel prev next) := by
  generalize ht : SwitchSys.contextSwitch
      { s with entry, cr3, saved := Function.update s.saved prev (decide ((s.threads prev).OnStack s.cpu.rsp)) }
      returnLabel prev next = t
  -- the context of the process that leaves is written, the CPU gets that of the next one
  have hself : t.threads prev = { s.threads prev with ctx := { s.cpu with rip := returnLabel } } := by
    rw [← ht]
    exact Function.update_self _ _ _
  have hother : ∀ q, q ≠ prev → t.threads q = s.threads q := by
    intro q hq
    rw [← ht]
    exact Function.update_of_ne hq _ _
  have hcpu : t.cpu = (s.threads next).ctx := by
    rw [← hother next hne, ← ht]
    rfl
  have hsavedSelf : t.saved prev = decide ((s.threads prev).OnStack s.cpu.rsp) := by
    rw [← ht]
    exact Function.update_self _ _ _
  have hsavedOther : ∀ q, q ≠ prev → t.saved q = s.saved q := by
    intro q hq
    rw [← ht]
    exact Function.update_of_ne hq _ _
  have hsame : SameStacks s t := by
    intro q
    by_cases hq : q = prev
    · rw [hq, hself]
      exact ⟨rfl, rfl⟩
    · rw [hother q hq]
      exact ⟨rfl, rfl⟩
  have hcount : t.sched.nprocs = s.sched.nprocs := by
    rw [← ht]
    rfl
  refine ⟨fun q hq x => ?_, fun q r x hqr hx => ?_, fun q => ?_, ?_, fun q hq => ?_, fun q hq => ?_⟩
  · rw [hsame.onStack_iff]
    exact h.empty q (hcount ▸ hq) x
  · rw [hsame.onStack_iff] at hx ⊢
    exact h.apart q r x hqr hx
  · rw [hsame.inUse_iff]
    by_cases hqp : q = prev
    · rw [hqp, hself]
      exact h.cpu
    · rw [hother q hqp]
      exact h.ctx q
  · -- the stack pointer of the CPU is the one that was saved last for the next process
    rw [hcpu, hsame.inUse_iff]
    exact h.ctx next
  · rw [hsame.onStack_iff]
    by_cases hqp : q = prev
    · subst hqp
      rw [hsavedSelf, decide_eq_true_eq] at hq
      rw [hself]
      exact ⟨hq, rfl⟩
    · rw [hsavedOther q hqp] at hq
      rw [hother q hqp]
      exact h.saved q hq
  · rw [hsame.onStack_iff]
    by_cases hqp : q = prev
    · subst hqp
      rw [hsavedSelf, decide_eq_false_iff_not] at hq
      rw [hself]
      exact hq
    · rw [hsavedOther q hqp] at hq
      rw [hother q hqp]
      exact h.unsaved q hq

theorem schedule (h : SwitchInv boot returnLabel s) (hcode : s.schedule returnLabel = some t) :
    SwitchInv boot returnLabel t := by
  unfold SwitchSys.schedule at hcode
  cases hk : s.sched.schedule with
  | error u =>
      rw [hk] at hcode
      cases hcode
  | ok u =>
      rw [hk] at hcode
      have hcount : u.nprocs = s.sched.nprocs := by
        have hs := SameCount.schedule (s := s.sched)
        rw [hk] at hs
        exact hs
      simp only at hcode
      split at hcode
      next =>
        cases hcode
        exact h.withSched hcount
      next hne =>
        cases hcode
        exact (h.withSched hcount).contextSwitch hne

/-- **One step.** -/
theorem step (h : SwitchInv boot returnLabel s) {e : SwitchEvent} (hs : SwitchStep boot returnLabel s e t) :
    SwitchInv boot returnLabel t := by
  obtain ⟨hok, hcode⟩ := hs
  cases e with
  | create mem =>
      cases mem with
      | none =>
          cases hcode
          exact h
      | some r =>
          cases hcode
          exact h.addThread _ (hok r rfl) (.inl rfl)
  | fork mem =>
      cases mem with
      | none =>
          cases hcode
          exact h
      | some r =>
          cases hcode
          exact h.addThread _ (hok r rfl) (h.ctx s.sched.current)
  | add p =>
      simp only [SwitchEvent.path] at hcode
      have hcount : SameCount (s.sched.setState p .ready) ((s.sched.setState p .ready).schedAdd p) := SameCount.schedAdd
      split at hcode
      next u hk =>
        cases hcode
        rw [hk] at hcount
        exact h.withSched hcount
      next => cases hcode
  | schedule => exact h.schedule hcode
  | run cpu =>
      cases hcode
      exact ⟨h.empty, h.apart, h.ctx, .inr hok, h.saved, h.unsaved⟩

/-- **A switch is right exactly if it goes to a process that was switched away from.** -/
theorem resumes_iff (h : SwitchInv boot returnLabel s) (e : SwitchEvent) : e.Resumes returnLabel s ↔ e.ToSaved s := by
  constructor
  · intro hres next hnext
    cases hsaved : s.saved next with
    | true => rfl
    | false => exact absurd (hres next hnext).1 (h.unsaved next hsaved)
  · intro hsaved next hnext
    obtain ⟨hon, hrip⟩ := h.saved next (hsaved next hnext)
    exact ⟨hon, hrip, fun q hq => h.apart next q _ (Ne.symm hq) hon⟩

end SwitchInv

/-! ## Runs

The equivalence for each switch, and the runs in which no process is switched to for the first time.
-/

/-- The stacks of the two first processes, of each other and of boot, and the stack pointer of boot. -/
structure BootStacks (boot idleStack initStack : Nat) (cpu : ThreadContext) : Prop where
  idleInit : ∀ x, idleStack < x → x ≤ idleStack + kernelStackSize → ¬ (initStack < x ∧ x ≤ initStack + kernelStackSize)
  cpu      : boot < cpu.rsp ∧ cpu.rsp ≤ boot + kernelStackSize

variable {idleStack initStack idleSpace initSpace : Nat} {cpu : ThreadContext}

theorem switchInv_boot (h : BootStacks boot idleStack initStack cpu) :
    SwitchInv boot returnLabel (switchBoot idleStack initStack idleSpace initSpace cpu) := by
  have hctx : ∀ p, ((switchBoot idleStack initStack idleSpace initSpace cpu).threads p).ctx.rsp = 0 := by
    intro p
    simp only [switchBoot]
    split
    · rfl
    · split <;> rfl
  have hnone : ∀ p, p ≠ gIdleProc → p ≠ gInitProc →
      (switchBoot idleStack initStack idleSpace initSpace cpu).threads p = noThread := by
    intro p h0 h1
    simp only [switchBoot, if_neg h0, if_neg h1]
  have hno : ∀ x, ¬ noThread.OnStack x := fun x hx => Nat.not_lt.mpr hx.2 hx.1
  refine ⟨fun p hp x => ?_, fun p q x hpq hx => ?_, fun p => .inl (hctx p), .inr (.inl h.cpu), fun p hp => ?_, fun p _ => ?_⟩
  · have h2 : 2 ≤ p := hp
    have h0 : p ≠ gIdleProc := by
      rintro rfl
      exact absurd h2 (by decide)
    have h1 : p ≠ gInitProc := by
      rintro rfl
      exact absurd h2 (by decide)
    rw [hnone p h0 h1]
    exact hno x
  · by_cases hp0 : p = gIdleProc
    · subst hp0
      by_cases hq1 : q = gInitProc
      · subst hq1
        exact h.idleInit x hx.1 hx.2
      · rw [hnone q (Ne.symm hpq) hq1]
        exact hno x
    · by_cases hp1 : p = gInitProc
      · subst hp1
        by_cases hq0 : q = gIdleProc
        · subst hq0
          exact fun hq => h.idleInit x hq.1 hq.2 hx
        · rw [hnone q hq0 (Ne.symm hpq)]
          exact hno x
      · rw [hnone p hp0 hp1] at hx
        exact absurd hx (hno x)
  · cases hp
  · rw [hctx p]
    exact SwitchSys.not_onStack_zero _ p

/-- **Every switch of every run** is right exactly if it goes to a process that was switched away from, the last time on
    its own stack. -/
theorem run_resumes_iff (h : BootStacks boot idleStack initStack cpu) {es : List SwitchEvent}
    (hrun : Run (SwitchStep boot returnLabel) (switchBoot idleStack initStack idleSpace initSpace cpu) es s)
    (e : SwitchEvent) : e.Resumes returnLabel s ↔ e.ToSaved s := by
  have hinv : SwitchInv boot returnLabel s :=
    hrun.invariant (SwitchInv boot returnLabel) (switchInv_boot h) fun _ _ _ hs hstep => hs.step hstep
  exact hinv.resumes_iff e

/-! ## The first switch

As long as nobody was switched away from, no switch can be right.
-/

/-- Nobody was switched away from yet. -/
def NoneSaved (s : SwitchSys) : Prop := ∀ p, s.saved p = false

/-- Only a switch saves anybody. -/
theorem NoneSaved.step (h : NoneSaved s) {e : SwitchEvent} (hstay : e.switchTo s = none)
    (hs : SwitchStep boot returnLabel s e t) : NoneSaved t := by
  have hadd : ∀ (rec : Process) (u : Thread), NoneSaved (s.addThread rec u) := by
    intro rec u p
    show Function.update s.saved s.sched.nprocs false p = false
    by_cases hp : p = s.sched.nprocs
    · rw [hp, Function.update_self]
    · rw [Function.update_of_ne hp]
      exact h p
  obtain ⟨-, hcode⟩ := hs
  cases e with
  | create mem =>
      cases mem <;> cases hcode
      · exact h
      · exact hadd _ _
  | fork mem =>
      cases mem <;> cases hcode
      · exact h
      · exact hadd _ _
  | add p =>
      simp only [SwitchEvent.path] at hcode
      split at hcode <;> cases hcode
      exact h
  | schedule =>
      simp only [SwitchEvent.path, SwitchSys.schedule] at hcode
      simp only [SwitchEvent.switchTo, SwitchSys.switchTo] at hstay
      cases hk : s.sched.schedule with
      | error u =>
          rw [hk] at hcode
          cases hcode
      | ok u =>
          rw [hk] at hcode hstay
          simp only at hcode hstay
          split at hcode
          next =>
            cases hcode
            exact h
          next hne =>
            rw [if_neg hne] at hstay
            cases hstay
  | run cpu =>
      cases hcode
      exact h

/-- **No switch is the first.** From boot, every context switch goes on where `context_switch` left a process, on its own
    stack, exactly if there is none: the first would have to go to a process that was switched away from before. -/
theorem switches_resume_iff (boot returnLabel idleStack initStack idleSpace initSpace : Nat) (cpu : ThreadContext)
    (h : BootStacks boot idleStack initStack cpu) (es : List SwitchEvent) :
    EveryStep (SwitchStep boot returnLabel) (fun s e => e.Resumes returnLabel s)
        (switchBoot idleStack initStack idleSpace initSpace cpu) es ↔
      EveryStep (SwitchStep boot returnLabel) (fun s e => e.switchTo s = none)
        (switchBoot idleStack initStack idleSpace initSpace cpu) es := by
  have hstep : ∀ s e t, SwitchInv boot returnLabel s ∧ NoneSaved s → SwitchStep boot returnLabel s e t →
      (e.Resumes returnLabel s ↔ e.switchTo s = none) ∧
        (e.Resumes returnLabel s → SwitchInv boot returnLabel t ∧ NoneSaved t) := by
    rintro s e t ⟨hinv, hnone⟩ hs
    have hiff : e.Resumes returnLabel s ↔ e.switchTo s = none := by
      rw [hinv.resumes_iff e]
      constructor
      · intro hsaved
        cases hto : e.switchTo s with
        | none => rfl
        | some next =>
            have htrue := hsaved next hto
            rw [hnone next] at htrue
            cases htrue
      · intro hto next hnext
        rw [hto] at hnext
        cases hnext
    exact ⟨hiff, fun hres => ⟨hinv.step hs, hnone.step (hiff.mp hres) hs⟩⟩
  exact everyStep_iff hstep ⟨switchInv_boot h, fun _ => rfl⟩ es

/-- Boot, with its stack and the two first stacks a megabyte apart. -/
def switchBootAt : SwitchSys := switchBoot 0x200000 0x300000 0 0 ⟨0, 0, 0, 0, 0, 0, 0x103000, 0⟩

/-- Init puts itself on the run queue and calls `schedule()`, which takes it off again. -/
theorem switches_resume_self : EveryStep (SwitchStep 0x100000 0x1000) (fun s e => e.Resumes 0x1000 s) switchBootAt
    [.add gInitProc, .schedule] := by
  have hstacks : BootStacks 0x100000 0x200000 0x300000 ⟨0, 0, 0, 0, 0, 0, 0x103000, 0⟩ := by
    refine ⟨fun x h1 h2 h3 => ?_, by decide⟩
    simp only [kernelStackSize] at h2 h3
    omega
  refine (switches_resume_iff 0x100000 0x1000 0x200000 0x300000 0 0 ⟨0, 0, 0, 0, 0, 0, 0x103000, 0⟩ hstacks _).mpr ?_
  intro t ht
  refine ⟨rfl, fun u hu => ⟨?_, trivial⟩⟩
  have hself : (SwitchEvent.path 0x1000 switchBootAt (.add gInitProc)).map (fun t => SwitchEvent.schedule.switchTo t) =
      some none := by
    decide +kernel
  rw [show SwitchEvent.path 0x1000 switchBootAt (.add gInitProc) = some t from ht.2] at hself
  exact Option.some.inj hself

/-- A switch is no page fault. -/
theorem SwitchSys.schedule_isSome (s : SwitchSys) {next : Pid} (h : s.switchTo = some next) :
    (s.schedule returnLabel).isSome := by
  unfold SwitchSys.switchTo at h
  unfold SwitchSys.schedule
  cases hk : s.sched.schedule with
  | error u =>
      rw [hk] at h
      cases h
  | ok u =>
      simp only
      split <;> rfl

/-- Init forks, and goes over to the child. -/
def forkEvents : List SwitchEvent := [.fork (some (0x400000, 1)), .add 2, .schedule]

/-- **The child's first switch** goes to a stack pointer that is zero. -/
theorem switches_resume_child : ¬ EveryStep (SwitchStep 0x100000 0x1000) (fun s e => e.Resumes 0x1000 s) switchBootAt
    forkEvents := by
  intro hall
  have hfresh : (SwitchEvent.fork (some (0x400000, 1))).Enabled 0x100000 switchBootAt := by
    intro r hr x h1 h2 hx
    obtain rfl := Option.some.inj hr
    rcases hx with hx | ⟨p, hx⟩
    · simp only [kernelStackSize] at hx
      omega
    · simp only [Thread.OnStack, switchBootAt, switchBoot] at hx
      split at hx
      · simp only [newThread, kernelStackSize] at hx
        omega
      · split at hx
        · simp only [newThread, kernelStackSize] at hx
          omega
        · simp only [noThread] at hx
          omega
  obtain ⟨-, hall⟩ := hall _ ⟨hfresh, rfl⟩
  generalize hs : switchBootAt.addThread switchBootAt.sched.forkedProc
    (newThread (switchBootAt.threads switchBootAt.sched.current).ctx 0x400000 1) = s at hall
  obtain ⟨t, ht⟩ : ∃ t, (SwitchEvent.add 2).path 0x1000 s = some t := by
    rw [← Option.isSome_iff_exists, ← hs]
    decide +kernel
  have hrsp : (((SwitchEvent.add 2).path 0x1000 s).bind fun t => (SwitchEvent.schedule.switchTo t).map fun p =>
      (t.threads p).ctx.rsp) = some 0 := by
    rw [← hs]
    decide +kernel
  rw [ht] at hrsp
  obtain ⟨next, hnext, h0⟩ := Option.map_eq_some_iff.mp hrsp
  have hlive : (SwitchEvent.add 2).Enabled 0x100000 s := by
    rw [← hs]
    exact show 2 < 3 by decide
  obtain ⟨-, hall⟩ := hall t ⟨hlive, ht⟩
  obtain ⟨u, hu⟩ : ∃ u, SwitchEvent.schedule.path 0x1000 t = some u := by
    exact Option.isSome_iff_exists.mp (t.schedule_isSome hnext)
  obtain ⟨hres, -⟩ := hall u ⟨trivial, hu⟩
  have hon := (hres next hnext).1
  rw [h0] at hon
  exact SwitchSys.not_onStack_zero t next hon

end

end MyUnix.Proc
