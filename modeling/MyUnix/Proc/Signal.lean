import MyUnix.Arch.Interrupt
import MyUnix.Lib.Run
import MyUnix.Proc.UserAccess

/-!
# `Proc.Signal` — signal masks and the delivery of signals

The signal half of `process.c`: `signal_send`, `signal_handle`, `signal_restore_mask`, with `sys_rt_sigaction` and
`sys_rt_sigprocmask` (`Proc.UserAccess`), the copies `proc_fork` makes and the handler reset of `proc_exec`.

`signal_handle` clears the pending bit of the signal it selects before it looks at anything else. What follows may
return without having called the handler: the interrupted context is in kernel mode, or the frame does not fit the
user stack. And when it does call the handler, it blocks whatever the user has put in `sa_mask`, SIGKILL and SIGSTOP
included, which `sys_rt_sigprocmask` takes care to filter out.

The masks are sets of bits of 64, with bit `signo - 1` for each signal. The saved mask is one word for each process,
not one for each frame, so a second handler that is called before the first one has returned overwrites it.

What is proved of a single delivery is an equivalence on the interrupted context: the pending bit is cleared in any
case, and the handler is called only if the context is that of user mode and the frame lies in user memory. What is
proved of runs is about the mask: SIGKILL and SIGSTOP are never blocked as long as no handler is called whose
`sa_mask` has one of them.
-/

namespace MyUnix.Proc

open Arch Lib

/-- `SIGSEGV`. -/
def sigsegv : Nat := 11

/-- `SIGCONT`. -/
@[match_pattern] def sigcont : Nat := 18

/-- `SIG_DFL`. -/
def sigDfl : Word := 0#64

/-- `SIG_IGN`. -/
def sigIgn : Word := 1#64

/-- `SA_RESETHAND`. -/
def saResethand : BitVec 32 := 0x80000000#32

/-- The part of `process_t` that signals read and write. -/
structure SigProc where
  state        : ProcState
  sigHandlers  : Nat → SigAction
  sigPending   : Word
  sigBlocked   : Word
  sigSavedMask : Word

/-- `BIT(signo - 1)`. -/
def sigBit (signo : Nat) : Word := BitVec.twoPow 64 (signo - 1)

/-- What `signal_handle` does with the signal it has selected. `stop` ends in `schedule()`, `exit` in `proc_exit`. -/
inductive SigAct where
  | nothing
  | stop
  | cont
  | exit (signo : Nat)
  | call
deriving DecidableEq

/-- The `switch` over the signals without a handler. -/
def defaultAct (signo : Nat) : SigAct :=
  match signo with
  | 17 | 23 | 28 => .nothing            -- SIGCHLD, SIGURG, SIGWINCH
  | 19 | 20 | 21 | 22 => .stop          -- SIGSTOP, SIGTSTP, SIGTTIN, SIGTTOU
  | sigcont => .cont
  | _ => .exit signo

/-- `sizeof(sigframe_t)`: a return address, a `cpu_context_t` and a `siginfo_t`. -/
def sigframeSize : Word := 224#64

/-- Where the frame goes: below the red zone of the interrupted stack. -/
def sigframeAt (ctx : CpuContext) : Word := (ctx.rsp - sigframeSize - 128#64) &&& ~~~15#64

/-- The context in which the handler runs. -/
def enterHandler (ctx : CpuContext) (handler : Word) (signo : Nat) : CpuContext :=
  { ctx with rip := handler, rsp := sigframeAt ctx, rdi := BitVec.ofNat 64 signo, rsi := 0#64, rdx := 0#64 }

namespace SigProc

variable (p : SigProc)

/-- `signal_init_proc`. -/
def init : SigProc where
  state := .created
  sigHandlers _ := ⟨sigDfl, 0#64, 0#32⟩
  sigPending := 0#64
  sigBlocked := 0#64
  sigSavedMask := 0#64

/-- `signal_send`, with what `proc_wake` does to the state of a sleeper. -/
def signalSend (signo : Nat) : SigProc :=
  if signo = 0 ∨ nsig < signo then p
  else if p.state = .zombie ∨ p.state = .dead then p
  else { p with
    sigPending := p.sigPending ||| sigBit signo
    state := if p.state = .sleeping then .ready else p.state }

/-- The signals that can be delivered. -/
def deliverable : Word := p.sigPending &&& ~~~p.sigBlocked

/-- The signal `signal_handle` selects: the lowest one. -/
def selected : Nat := (BitVec.ctz p.deliverable).toNat + 1

/-- The rest of `signal_handle` for a handler of the user, with the pending bit already cleared. -/
def callHandler (signo : Nat) (ctx : CpuContext) : SigProc × CpuContext × SigAct :=
  let sa := p.sigHandlers signo
  -- no frame for an interrupted kernel: the signal is dropped
  if ctx.cs &&& 3#64 ≠ 3#64 then (p, ctx, .nothing)
  -- no room for the frame: SIGSEGV in its place
  else if !accessOk (sigframeAt ctx) sigframeSize then (p.signalSend sigsegv, ctx, .nothing)
  else
    let handlers := if sa.flags &&& saResethand ≠ 0#32
      then Function.update p.sigHandlers signo { sa with handler := sigDfl, flags := 0#32 } else p.sigHandlers
    ({ p with
        sigHandlers := handlers
        sigSavedMask := p.sigBlocked
        -- the whole `sa_mask`, also the bits of SIGKILL and SIGSTOP
        sigBlocked := p.sigBlocked ||| (sa.mask ||| sigBit signo) },
      enterHandler ctx sa.handler signo, .call)

/-- `signal_handle`: the signal with the lowest number, and what becomes of it. -/
def signalHandle (ctx : CpuContext) : SigProc × CpuContext × SigAct :=
  if p.deliverable = 0#64 then (p, ctx, .nothing)
  else
    let signo := p.selected
    -- the bit is cleared before it is known whether the signal can be delivered
    let p := { p with sigPending := p.sigPending &&& ~~~(sigBit signo) }
    let sa := p.sigHandlers signo
    if sa.handler = sigIgn then (p, ctx, .nothing)
    else if sa.handler = sigDfl then
      match defaultAct signo with
      | .stop => ({ p with state := .stopped }, ctx, .stop)
      | .cont => ({ p with state := .running }, ctx, .cont)
      | .exit signo => ({ p with state := .zombie }, ctx, .exit signo)
      | act => (p, ctx, act)
    else p.callHandler signo ctx

/-- The mask before the handler is back. -/
def signalRestoreMask : SigProc := { p with sigBlocked := p.sigSavedMask }

/-- What `proc_fork` gives the child. -/
def forked : SigProc :=
  { state := .created, sigHandlers := p.sigHandlers, sigPending := 0#64, sigBlocked := p.sigBlocked,
    sigSavedMask := 0#64 }

/-- The handler reset of `proc_exec`. -/
def execReset : SigProc :=
  { p with sigHandlers := fun i =>
      if 1 ≤ i ∧ i ≤ nsig ∧ (p.sigHandlers i).handler ≠ sigIgn then ⟨sigDfl, 0#64, 0#32⟩ else p.sigHandlers i }

/-- The process in a system call of its own, with its memory. -/
def task (user : User) : Task := ⟨user, p.sigHandlers, p.sigBlocked⟩

/-- The process after a system call that changed its handlers or its mask. -/
def ofTask (t : Task) : SigProc := { p with sigHandlers := t.sigHandlers, sigBlocked := t.sigBlocked }

/-- A handler of the user is called: a signal can be delivered and is caught, the interrupted context is in user mode,
    and the frame fits below `VMM_USER_END`. -/
def CallsHandler (ctx : CpuContext) : Prop :=
  p.deliverable ≠ 0#64 ∧ (p.sigHandlers p.selected).handler ≠ sigIgn ∧ (p.sigHandlers p.selected).handler ≠ sigDfl ∧
    ctx.cs &&& 3#64 = 3#64 ∧ accessOk (sigframeAt ctx) sigframeSize = true

/-! ## Pending bits

Which bits are pending and not blocked, which of them is the lowest, and that sending adds one.
-/

/-- The signal was sent and not handled since. -/
def Pending (signo : Nat) : Prop := p.sigPending.getLsbD (signo - 1) = true

variable {p}

theorem selected_spec (h : p.deliverable ≠ 0#64) :
    1 ≤ p.selected ∧ p.selected ≤ nsig ∧ p.deliverable.getLsbD (p.selected - 1) = true := by
  have hlt : (BitVec.ctz p.deliverable).toNat < 64 := by
    have := BitVec.ctz_lt_iff_ne_zero.mpr h
    simpa [BitVec.lt_def] using this
  refine ⟨by rw [selected]; omega, by rw [selected, nsig]; omega, ?_⟩
  rw [selected, Nat.add_sub_cancel]
  exact BitVec.getLsbD_true_ctz_of_ne_zero h

/-- No signal below the selected one can be delivered. -/
theorem deliverable_lt {k : Nat} (h : k + 1 < p.selected) : p.deliverable.getLsbD k = false := by
  apply BitVec.getLsbD_false_of_lt_ctz
  rw [selected] at h
  omega

theorem getLsbD_sigBit {signo : Nat} (hlo : 1 ≤ signo) (hhi : signo ≤ nsig) (k : Nat) :
    (sigBit signo).getLsbD k = decide (k = signo - 1) := by
  rw [nsig] at hhi
  rw [sigBit, BitVec.getLsbD_twoPow, decide_eq_true (show signo - 1 < 64 by omega), Bool.true_and]
  exact decide_eq_decide.mpr eq_comm

theorem pending_clear {signo : Nat} (hlo : 1 ≤ signo) (hhi : signo ≤ nsig) (x : Word) {k : Nat} (hk : k < 64) :
    (x &&& ~~~(sigBit signo)).getLsbD k = (x.getLsbD k && decide (k ≠ signo - 1)) := by
  rw [BitVec.getLsbD_and, BitVec.getLsbD_not, getLsbD_sigBit hlo hhi, decide_eq_true hk, Bool.true_and,
    decide_not]

/-- `signal_send` adds the signal it sends, unless the process is gone, and takes none away. -/
theorem signalSend_pending {signo : Nat} (hlo : 1 ≤ signo) (hhi : signo ≤ nsig) (k : Nat) :
    (p.signalSend signo).sigPending.getLsbD k =
      (p.sigPending.getLsbD k || (decide (k = signo - 1) && decide (p.state ≠ .zombie ∧ p.state ≠ .dead))) := by
  rw [signalSend, if_neg (by omega)]
  split
  next hgone =>
    have hnot : ¬(p.state ≠ .zombie ∧ p.state ≠ .dead) := fun hc => hgone.elim hc.1 hc.2
    rw [decide_eq_false hnot, Bool.and_false, Bool.or_false]
  next hlive =>
    rw [decide_eq_true (not_or.mp hlive), Bool.and_true, BitVec.getLsbD_or, getLsbD_sigBit hlo hhi]

/-- **When `signal_handle` calls a handler.** -/
theorem signalHandle_call_iff (ctx : CpuContext) : (p.signalHandle ctx).2.2 = .call ↔ p.CallsHandler ctx := by
  unfold signalHandle CallsHandler
  by_cases hsel : p.deliverable = 0#64
  · simp [hsel]
  rw [if_neg hsel]
  simp only [hsel, ne_eq, not_false_eq_true, true_and]
  by_cases hign : (p.sigHandlers p.selected).handler = sigIgn
  · simp [hign]
  rw [if_neg hign]
  by_cases hdfl : (p.sigHandlers p.selected).handler = sigDfl
  · -- none of the default actions is a call
    have hact : defaultAct p.selected ≠ .call := by
      unfold defaultAct
      split <;> nofun
    rw [if_pos hdfl]
    simp only [hdfl, not_true_eq_false, false_and, and_false, iff_false]
    split
    · nofun
    · nofun
    · nofun
    · exact hact
  rw [if_neg hdfl]
  simp only [hign, hdfl, not_false_eq_true, true_and, callHandler]
  by_cases hmode : ctx.cs &&& 3#64 = 3#64
  · cases hok : accessOk (sigframeAt ctx) sigframeSize <;> simp [hmode]
  · simp [hmode]

/-! ## No caught signal is lost

What becomes of a signal that was selected and has a handler: the handler is called with the number, or the signal is
gone without it.
-/

/-- The call has redirected the context to the handler of the selected signal, or the signal is still pending; and no
    other signal is lost. -/
def SignalKept (p : SigProc) (ctx : CpuContext) : Prop :=
  ((p.signalHandle ctx).2.1 = enterHandler ctx (p.sigHandlers p.selected).handler p.selected ∨
    (p.signalHandle ctx).1.Pending p.selected) ∧
  ∀ signo, 1 ≤ signo → signo ≤ nsig → signo ≠ p.selected → p.Pending signo → (p.signalHandle ctx).1.Pending signo

theorem alignDown16_toNat (x : Word) : (x &&& ~~~15#64).toNat = x.toNat / 16 * 16 := by
  have hmask : ∀ i < 64, (~~~15#64 : Word).getLsbD i = decide (4 ≤ i) := by decide
  have hshift : x &&& ~~~15#64 = (x >>> 4) <<< 4 := by
    apply BitVec.eq_of_getLsbD_eq
    intro i hi
    rw [BitVec.getLsbD_and, hmask i hi, BitVec.getLsbD_shiftLeft, BitVec.getLsbD_ushiftRight,
      decide_eq_true hi, Bool.true_and]
    by_cases h4 : i < 4
    · simp [h4, Nat.not_le.mpr h4]
    · simp [h4, Nat.not_lt.mp h4]
  rw [hshift, BitVec.toNat_shiftLeft, BitVec.toNat_ushiftRight, Nat.shiftLeft_eq, Nat.shiftRight_eq_div_pow]
  have := x.isLt
  exact Nat.mod_eq_of_lt (by omega)

/-- The handler runs on a lower stack, so its context is never the one that was interrupted. -/
theorem enterHandler_ne (ctx : CpuContext) (handler : Word) (signo : Nat) : ctx ≠ enterHandler ctx handler signo := by
  intro h
  have hrsp : ctx.rsp = sigframeAt ctx := congrArg CpuContext.rsp h
  have hnat := congrArg BitVec.toNat hrsp
  rw [sigframeAt, alignDown16_toNat, BitVec.toNat_sub, BitVec.toNat_sub, sigframeSize] at hnat
  have := ctx.rsp.isLt
  simp only [BitVec.toNat_ofNat] at hnat
  omega

/-- **Which caught signals are lost.** A signal with a handler is kept exactly when the interrupted context is in user
    mode and the frame fits below `VMM_USER_END`; where the frame does not fit, only SIGSEGV itself, which is sent
    again, survives. -/
theorem signal_kept_iff (p : SigProc) (ctx : CpuContext) (hsel : p.deliverable ≠ 0#64)
    (hdfl : (p.sigHandlers p.selected).handler ≠ sigDfl) (hign : (p.sigHandlers p.selected).handler ≠ sigIgn) :
    SignalKept p ctx ↔ ctx.cs &&& 3#64 = 3#64 ∧ (accessOk (sigframeAt ctx) sigframeSize = true ∨
      (p.selected = sigsegv ∧ p.state ≠ .zombie ∧ p.state ≠ .dead)) := by
  obtain ⟨hlo, hhi, -⟩ := selected_spec hsel
  have hlt : p.selected - 1 < 64 := by
    rw [nsig] at hhi
    omega
  have hsegv : 1 ≤ sigsegv ∧ sigsegv ≤ nsig := by decide
  -- the bits left when the selected one has been cleared
  have hclear : ∀ {k}, k < 64 → (p.sigPending &&& ~~~(sigBit p.selected)).getLsbD k =
      (p.sigPending.getLsbD k && decide (k ≠ p.selected - 1)) := fun hk => pending_clear hlo hhi _ hk
  have hothers : ∀ signo, 1 ≤ signo → signo ≤ nsig → signo ≠ p.selected → p.Pending signo →
      (p.sigPending &&& ~~~(sigBit p.selected)).getLsbD (signo - 1) = true := by
    intro signo hs1 hs2 hne hpend
    rw [nsig] at hs2
    rw [hclear (by omega), show p.sigPending.getLsbD (signo - 1) = true from hpend, Bool.true_and,
      decide_eq_true (by omega)]
  have hgone : (p.sigPending &&& ~~~(sigBit p.selected)).getLsbD (p.selected - 1) = false := by
    rw [hclear hlt, decide_eq_false (by simp), Bool.and_false]
  have hcall : p.signalHandle ctx =
      ({ p with sigPending := p.sigPending &&& ~~~(sigBit p.selected) } : SigProc).callHandler p.selected ctx := by
    rw [signalHandle, if_neg hsel]
    simp only [if_neg hign, if_neg hdfl]
  rw [SignalKept, hcall, callHandler]
  by_cases hmode : ctx.cs &&& 3#64 = 3#64
  · cases hok : accessOk (sigframeAt ctx) sigframeSize with
    | true =>
      -- the handler is called
      simp only [hmode, ne_eq, not_true_eq_false, if_false, Bool.not_true, Bool.false_eq_true, true_or, and_true,
        true_and, iff_true]
      exact hothers
    | false =>
      -- SIGSEGV is sent instead
      simp only [hmode, ne_eq, not_true_eq_false, if_false, Bool.not_false, if_true, Bool.false_eq_true, false_or,
        true_and, Pending]
      rw [or_iff_right (enterHandler_ne ctx _ _), signalSend_pending hsegv.1 hsegv.2, hgone, Bool.false_or]
      constructor
      · rintro ⟨hsame, -⟩
        rw [Bool.and_eq_true, decide_eq_true_eq, decide_eq_true_eq] at hsame
        exact ⟨by rw [sigsegv] at hsame ⊢; omega, hsame.2⟩
      · rintro ⟨hsegv', hlive⟩
        refine ⟨?_, fun signo hs1 hs2 hne hpend => ?_⟩
        · rw [hsegv', decide_eq_true rfl, decide_eq_true hlive]
          rfl
        · rw [signalSend_pending hsegv.1 hsegv.2, hothers signo hs1 hs2 hne hpend, Bool.true_or]
  · -- the bit is cleared and nothing else happens
    simp only [ne_eq, hmode, not_false_eq_true, if_true, false_and, iff_false, Pending, hgone]
    rintro ⟨hctx | hbit, -⟩
    · exact enterHandler_ne ctx _ _ hctx
    · cases hbit

/-- A process with a handler for SIGUSR1, which is pending. -/
def caughtUsr1 : SigProc :=
  { init with
    state := .running
    sigHandlers := Function.update init.sigHandlers 10 ⟨0x400000#64, 0#64, 0#32⟩
    sigPending := sigBit 10 }

/-- An interrupted context with this code segment and stack pointer. -/
def ctxAt (cs rsp : Word) : CpuContext :=
  { r15 := 0, r14 := 0, r13 := 0, r12 := 0, r11 := 0, r10 := 0, r9 := 0, r8 := 0, rbp := 0, rdi := 0, rsi := 0, rdx := 0,
    rcx := 0, rbx := 0, rax := 0, intNo := 32, errCode := 0, rip := 0x401000, cs, rflags := 0x202, rsp, ss := 0x23 }

theorem signal_kept_in_user_mode : SignalKept caughtUsr1 (ctxAt 0x2B 0x7FFFFFFF0000) :=
  (signal_kept_iff caughtUsr1 (ctxAt 0x2B 0x7FFFFFFF0000) (by decide +kernel) (by decide +kernel)
    (by decide +kernel)).mpr ⟨by decide +kernel, .inl (by decide +kernel)⟩

/-- A timer interrupt in kernel mode finds SIGUSR1 pending: the signal is gone and its handler was not called. -/
theorem signal_lost_in_kernel_mode :
    caughtUsr1.deliverable ≠ 0#64 ∧ (caughtUsr1.sigHandlers caughtUsr1.selected).handler ≠ sigDfl ∧
    (caughtUsr1.sigHandlers caughtUsr1.selected).handler ≠ sigIgn ∧
    ¬SignalKept caughtUsr1 (ctxAt 0x08 0xFFFFFFFF80010000) := by
  refine ⟨by decide +kernel, by decide +kernel, by decide +kernel, ?_⟩
  rintro ⟨hctx | hpending, -⟩
  · revert hctx
    decide +kernel
  · revert hpending
    rw [Pending]
    decide +kernel

end SigProc

/-! ## SIGKILL and SIGSTOP

The mask over runs of all calls that write to it. `sys_rt_sigprocmask` filters the two out, and what a handler adds is
not filtered.
-/

/-- What happens to the signal state of the processes. `user` is the memory of the caller. -/
inductive SigEvent where
  | rtSigaction (p : Pid) (user : User) (signo actPtr oldactPtr : Word)
  | rtSigprocmask (p : Pid) (user : User) (how setPtr oldsetPtr : Word)
  | send (p : Pid) (signo : Nat)
  | handle (p : Pid) (ctx : CpuContext)
  | restoreMask (p : Pid)
  | fork (p child : Pid)
  | exec (p : Pid)

/-- The processes; one that does not exist yet is as `signal_init_proc` would leave it. -/
abbrev SigSys := Pid → SigProc

/-- A step on the signals of the processes. -/
def sigStep (s : SigSys) : SigEvent → SigSys
  | .rtSigaction p user signo actPtr oldactPtr =>
      Function.update s p ((s p).ofTask (sysRtSigaction ((s p).task user) signo actPtr oldactPtr).1)
  | .rtSigprocmask p user how setPtr oldsetPtr =>
      Function.update s p ((s p).ofTask (sysRtSigprocmask ((s p).task user) how setPtr oldsetPtr).1)
  | .send p signo => Function.update s p ((s p).signalSend signo)
  | .handle p ctx => Function.update s p ((s p).signalHandle ctx).1
  | .restoreMask p => Function.update s p (s p).signalRestoreMask
  | .fork p child => Function.update s child (s p).forked
  | .exec p => Function.update s p (s p).execReset

/-- Neither of the two signals is in the mask. -/
def Maskable (mask : Word) : Prop := mask.getLsbD (sigkill - 1) = false ∧ mask.getLsbD (sigstop - 1) = false

/-- The default action of both signals stands, and neither is blocked. -/
def Unstoppable (p : SigProc) : Prop :=
  (p.sigHandlers sigkill).handler = sigDfl ∧ (p.sigHandlers sigstop).handler = sigDfl ∧ Maskable p.sigBlocked

/-- The condition on a step: a handler that is called blocks neither signal. -/
def HandlerMaskable (s : SigSys) : SigEvent → Prop
  | .handle p ctx => (s p).CallsHandler ctx → Maskable ((s p).sigHandlers (s p).selected).mask
  | _ => True

/-- What is kept besides: the mask to restore. -/
structure MaskInv (p : SigProc) : Prop where
  unstoppable : Unstoppable p
  saved : Maskable p.sigSavedMask

theorem Maskable.or {a b : Word} (ha : Maskable a) (hb : Maskable b) : Maskable (a ||| b) := by
  refine ⟨?_, ?_⟩
  · rw [BitVec.getLsbD_or, ha.1, hb.1, Bool.or_self]
  · rw [BitVec.getLsbD_or, ha.2, hb.2, Bool.or_self]

theorem Maskable.and {a : Word} (ha : Maskable a) (b : Word) : Maskable (a &&& b) := by
  refine ⟨?_, ?_⟩
  · rw [BitVec.getLsbD_and, ha.1, Bool.false_and]
  · rw [BitVec.getLsbD_and, ha.2, Bool.false_and]

/-! ## What each call leaves in the mask

Every store to a mask is of something filtered, of something that was in a mask already, or of the `sa_mask` of a
handler.
-/

/-- What `sys_rt_sigprocmask` keeps of a mask. -/
theorem maskable_filter (a : Word) : Maskable (a &&& maskable) := by
  have hk : maskable.getLsbD (sigkill - 1) = false ∧ maskable.getLsbD (sigstop - 1) = false := by decide
  refine ⟨?_, ?_⟩
  · rw [BitVec.getLsbD_and, hk.1, Bool.and_false]
  · rw [BitVec.getLsbD_and, hk.2, Bool.and_false]

theorem maskable_sigBit {signo : Nat} (hlo : 1 ≤ signo) (hhi : signo ≤ nsig) (hk : signo ≠ sigkill)
    (hs : signo ≠ sigstop) : Maskable (sigBit signo) := by
  refine ⟨?_, ?_⟩
  · rw [SigProc.getLsbD_sigBit hlo hhi, decide_eq_false_iff_not]
    rw [sigkill] at *
    omega
  · rw [SigProc.getLsbD_sigBit hlo hhi, decide_eq_false_iff_not]
    rw [sigstop] at *
    omega

namespace MaskInv

variable {p : SigProc}

theorem init : MaskInv SigProc.init := ⟨⟨rfl, rfl, by decide, by decide⟩, by decide, by decide⟩

/-- Only the pending bits or the state differ. -/
theorem congr {p' : SigProc} (h : MaskInv p) (hh : p'.sigHandlers = p.sigHandlers) (hb : p'.sigBlocked = p.sigBlocked)
    (hs : p'.sigSavedMask = p.sigSavedMask) : MaskInv p' := by
  refine ⟨?_, by rw [hs]; exact h.saved⟩
  rw [Unstoppable, hh, hb]
  exact h.unstoppable

theorem signalSend (h : MaskInv p) (signo : Nat) : MaskInv (p.signalSend signo) := by
  rw [SigProc.signalSend]
  split
  · exact h
  split
  · exact h
  · exact h.congr rfl rfl rfl

/-- `sys_rt_sigaction` refuses both signals. -/
theorem rtSigaction (h : MaskInv p) (user : User) (signo actPtr oldactPtr : Word) :
    MaskInv (p.ofTask (sysRtSigaction (p.task user) signo actPtr oldactPtr).1) := by
  unfold sysRtSigaction
  split
  · exact h.congr rfl rfl rfl
  split
  · exact h.congr rfl rfl rfl
  next hother =>
    simp only []
    generalize (if oldactPtr = 0 then _ else _) = u
    split
    · exact h.congr rfl rfl rfl
    split
    · exact h.congr rfl rfl rfl
    · refine ⟨⟨?_, ?_, h.unstoppable.2.2⟩, h.saved⟩
      · have hne : sigkill ≠ signo.toNat := fun he => hother (.inl he.symm)
        simp only [SigProc.ofTask, Function.update_of_ne hne]
        exact h.unstoppable.1
      · have hne : sigstop ≠ signo.toNat := fun he => hother (.inr he.symm)
        simp only [SigProc.ofTask, Function.update_of_ne hne]
        exact h.unstoppable.2.1

theorem rtSigprocmask (h : MaskInv p) (user : User) (how setPtr oldsetPtr : Word) :
    MaskInv (p.ofTask (sysRtSigprocmask (p.task user) how setPtr oldsetPtr).1) := by
  obtain ⟨⟨hk, hs, hb⟩, hsaved⟩ := h
  unfold sysRtSigprocmask
  simp only []
  generalize (if oldsetPtr = 0 then _ else _) = u
  split
  · exact ⟨⟨hk, hs, hb⟩, hsaved⟩
  split
  · exact ⟨⟨hk, hs, hb⟩, hsaved⟩
  split
  · exact ⟨⟨hk, hs, hb.or (maskable_filter _)⟩, hsaved⟩
  · exact ⟨⟨hk, hs, hb.and _⟩, hsaved⟩
  · exact ⟨⟨hk, hs, maskable_filter _⟩, hsaved⟩
  · exact ⟨⟨hk, hs, hb⟩, hsaved⟩

theorem callHandler (h : MaskInv p) {signo : Nat} (hlo : 1 ≤ signo) (hhi : signo ≤ nsig) (ctx : CpuContext)
    (hdfl : (p.sigHandlers signo).handler ≠ sigDfl)
    (hmask : (p.callHandler signo ctx).2.2 = .call → Maskable (p.sigHandlers signo).mask) :
    MaskInv (p.callHandler signo ctx).1 := by
  -- both signals have the default action, so neither is the one whose handler is called
  have hk : signo ≠ sigkill := fun he => hdfl (he ▸ h.unstoppable.1)
  have hs : signo ≠ sigstop := fun he => hdfl (he ▸ h.unstoppable.2.1)
  rw [SigProc.callHandler] at hmask ⊢
  simp only at hmask ⊢
  split
  · exact h
  next huser =>
    rw [if_neg huser] at hmask
    split
    · exact h.signalSend sigsegv
    next hok =>
      rw [if_neg hok] at hmask
      refine ⟨⟨?_, ?_, h.unstoppable.2.2.or ((hmask rfl).or (maskable_sigBit hlo hhi hk hs))⟩, h.unstoppable.2.2⟩
      · simp only
        split
        · rw [Function.update_of_ne hk.symm]
          exact h.unstoppable.1
        · exact h.unstoppable.1
      · simp only
        split
        · rw [Function.update_of_ne hs.symm]
          exact h.unstoppable.2.1
        · exact h.unstoppable.2.1

theorem signalHandle (h : MaskInv p) (ctx : CpuContext)
    (hmask : (p.signalHandle ctx).2.2 = .call → Maskable (p.sigHandlers p.selected).mask) :
    MaskInv (p.signalHandle ctx).1 := by
  rw [SigProc.signalHandle] at hmask ⊢
  split
  · exact h
  next hsel =>
    obtain ⟨hlo, hhi, -⟩ := SigProc.selected_spec hsel
    rw [if_neg hsel] at hmask
    simp only at hmask ⊢
    have hcleared : MaskInv { p with sigPending := p.sigPending &&& ~~~(sigBit p.selected) } := h.congr rfl rfl rfl
    split
    · exact hcleared
    next hign =>
      rw [if_neg hign] at hmask
      split
      · split <;> exact h.congr rfl rfl rfl
      next hdfl =>
        rw [if_neg hdfl] at hmask
        exact hcleared.callHandler hlo hhi ctx hdfl hmask

theorem execReset (h : MaskInv p) : MaskInv p.execReset := by
  refine ⟨⟨?_, ?_, h.unstoppable.2.2⟩, h.saved⟩
  · rw [SigProc.execReset]
    simp only
    split
    · rfl
    · exact h.unstoppable.1
  · rw [SigProc.execReset]
    simp only
    split
    · rfl
    · exact h.unstoppable.2.1

/-- One step, whichever process it is about. -/
theorem step {s : SigSys} (h : ∀ p, MaskInv (s p)) {e : SigEvent} (hok : HandlerMaskable s e) :
    ∀ p, MaskInv (sigStep s e p) := by
  have hupdate : ∀ {q : Pid} {x : SigProc}, MaskInv x → ∀ p, MaskInv (Function.update s q x p) := by
    intro q x hx p
    by_cases hp : p = q
    · rw [hp, Function.update_self]
      exact hx
    · rw [Function.update_of_ne hp]
      exact h p
  cases e with
  | rtSigaction p user signo actPtr oldactPtr => exact hupdate ((h p).rtSigaction user signo actPtr oldactPtr)
  | rtSigprocmask p user how setPtr oldsetPtr => exact hupdate ((h p).rtSigprocmask user how setPtr oldsetPtr)
  | send p signo => exact hupdate ((h p).signalSend signo)
  | handle p ctx =>
    exact hupdate ((h p).signalHandle ctx fun hcall => hok ((SigProc.signalHandle_call_iff ctx).mp hcall))
  | restoreMask p =>
    apply hupdate
    exact ⟨⟨(h p).unstoppable.1, (h p).unstoppable.2.1, (h p).saved⟩, (h p).saved⟩
  | fork p child =>
    apply hupdate
    have hnone : Maskable 0#64 := ⟨by decide, by decide⟩
    exact ⟨(h p).unstoppable, hnone⟩
  | exec p => exact hupdate (h p).execReset

end MaskInv

/-- **SIGKILL and SIGSTOP.** In every run in which no handler that is called has one of them in its `sa_mask`, both
    keep their default action and are never blocked. -/
theorem unstoppable_of_handlerMaskable (es : List SigEvent) (s : SigSys)
    (hrun : Run (Guarded HandlerMaskable fun s e t => sigStep s e = t) (fun _ => SigProc.init) es s) (p : Pid) :
    Unstoppable (s p) := by
  have hinv : ∀ p, MaskInv (s p) := by
    refine hrun.invariant (fun s => ∀ p, MaskInv (s p)) (fun _ => MaskInv.init) ?_
    rintro s e t h ⟨hok, rfl⟩
    exact MaskInv.step h hok
  exact (hinv p).unstoppable

/-- User memory with a `struct sigaction` at `0x1000`: handler `0x400000`, and `mask` in the second byte of `sa_mask`,
    where bit 0 is SIGKILL. -/
def userWithAction (mask : UInt8) : User :=
  ⟨fun a => if a = 0x1002#64 then 0x40 else if a = 0x1009#64 then mask else 0, []⟩

/-- Process 1 installs a handler for SIGUSR1 and receives the signal. -/
def handlerRun (mask : UInt8) : List SigEvent :=
  [.rtSigaction 1 (userWithAction mask) 10#64 0x1000#64 0#64, .send 1 10, .handle 1 (SigProc.ctxAt 0x2B 0x7FFFFFFF0000)]

theorem unstoppable_after_handler : Unstoppable ((handlerRun 0).foldl sigStep (fun _ => SigProc.init) 1) := by
  let s₁ := sigStep (fun _ => SigProc.init) (.rtSigaction 1 (userWithAction 0) 10#64 0x1000#64 0#64)
  let s₂ := sigStep s₁ (.send 1 10)
  have h₁ : Guarded HandlerMaskable (fun s e t => sigStep s e = t) (fun _ => SigProc.init)
      (.rtSigaction 1 (userWithAction 0) 10#64 0x1000#64 0#64) s₁ := ⟨trivial, rfl⟩
  have h₂ : Guarded HandlerMaskable (fun s e t => sigStep s e = t) s₁ (.send 1 10) s₂ := ⟨trivial, rfl⟩
  have h₃ : Guarded HandlerMaskable (fun s e t => sigStep s e = t) s₂ (.handle 1 (SigProc.ctxAt 0x2B 0x7FFFFFFF0000))
      (sigStep s₂ (.handle 1 (SigProc.ctxAt 0x2B 0x7FFFFFFF0000))) :=
    ⟨fun _ => ⟨by decide +kernel, by decide +kernel⟩, rfl⟩
  exact unstoppable_of_handlerMaskable (handlerRun 0) _ (((Run.refl.tail h₁).tail h₂).tail h₃) 1

/-- **A handler can block SIGKILL.** Its `sa_mask` goes into `sig_blocked` as it is. -/
theorem sigkill_blocked_by_handler :
    ∃ s, Run (fun s e t => sigStep s e = t) (fun _ => SigProc.init) (handlerRun 1) s ∧ ¬Unstoppable (s 1) := by
  refine ⟨(handlerRun 1).foldl sigStep fun _ => SigProc.init, ?_, ?_⟩
  · exact ((Run.refl.tail rfl).tail rfl).tail rfl
  · rintro ⟨-, -, hkill, -⟩
    revert hkill
    decide +kernel

end MyUnix.Proc
