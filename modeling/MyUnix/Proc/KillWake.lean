import MyUnix.Proc.SchedFrame
import MyUnix.Proc.Signal

/-!
# `Proc.KillWake` — SIGKILL against sleeping and stopped processes

The scheduler of `Proc.Sched` with the signal masks of `Proc.Signal`. `signal_handle` runs when an interrupt returns,
so a process that is SLEEPING or STOPPED never gets to see a SIGKILL: somebody has to make it READY first.
`signal_send` does this for a process that sleeps when the signal comes. It does not for one that is STOPPED, and no
blocking loop looks at the pending signals before it sleeps: `pipe_read_fn`, `pipe_write_fn` and `proc_wait` ask for
`g_current->killed`, which nothing sets.

The waits here are those of any caller on any queue, so those of the pipe functions and of `proc_wait` among them.

The two machines have disjoint parts of a process: the scheduler its state and queues, the signal side the masks and
handlers. A step of one is followed by what the other has to know. `signal_handle` of the running process may stop it,
end it, or let it go on in a handler, and the scheduler acts accordingly.

The invariant speaks of one process at a time, so a step is looked at for the one that it makes sleep, the one that it
sends a signal, and all others, for which `Proc.SchedFrame` says that nothing has changed.
-/

namespace MyUnix.Proc

open Arch Lib

/-- The scheduler with the signal state of each process. -/
structure SigSched where
  sched        : Sched
  sigHandlers  : Pid → Nat → SigAction
  sigBlocked   : Pid → Word
  sigSavedMask : Pid → Word

namespace SigSched

variable (s : SigSched)

/-- The process as `signal_handle` sees it. -/
def sigProc (p : Pid) : SigProc where
  state := (s.sched.procs p).state
  sigHandlers := s.sigHandlers p
  sigPending := (s.sched.procs p).sigPending
  sigBlocked := s.sigBlocked p
  sigSavedMask := s.sigSavedMask p

/-- Write the signal state of a process back. -/
def store (p : Pid) (x : SigProc) : SigSched where
  sched := s.sched.setProc p fun y => { y with state := x.state, sigPending := x.sigPending }
  sigHandlers := Function.update s.sigHandlers p x.sigHandlers
  sigBlocked := Function.update s.sigBlocked p x.sigBlocked
  sigSavedMask := Function.update s.sigSavedMask p x.sigSavedMask

/-- What follows in the scheduler once `signal_handle` has acted. -/
def handlePath (cur : Pid) (asleep : Bool) : SigAct → Kernel Sched
  | .stop => s.sched.schedule
  | .exit _ => .ok (s.sched.setPc cur .exitFiles)
  -- a SIGSEGV that finds its own sender asleep goes through `proc_wake`
  | _ => if asleep ∧ (s.sched.procs cur).state = .ready then (s.sched.setState cur .sleeping).procWake cur else .ok s.sched

/-- `signal_handle` of the current process, with what its default action does to the scheduler. -/
def signalHandle (ctx : CpuContext) : SigSched :=
  let cur := s.sched.current
  let (p, _, act) := (s.sigProc cur).signalHandle ctx
  let t := s.store cur p
  { t with sched := Sched.final (t.handlePath cur ((s.sched.procs cur).state = .sleeping) act) }

/-- The masks after a step of the scheduler: `proc_fork` copies those of the caller. -/
def inherit (e : Event) (t : Sched) : SigSched :=
  match e with
  | .fork =>
    { sched := t
      sigHandlers := Function.update s.sigHandlers s.sched.nprocs (s.sigHandlers s.sched.current)
      sigBlocked := Function.update s.sigBlocked s.sched.nprocs (s.sigBlocked s.sched.current)
      sigSavedMask := Function.update s.sigSavedMask s.sched.nprocs 0#64 }
  | _ => { s with sched := t }

end SigSched

/-- A step of the scheduler, or of signals. -/
inductive KillEvent where
  /-- Anything but the default action of a stop signal, which is part of `signal_handle`. -/
  | sched (e : Event)
  | signalHandle (ctx : CpuContext)
  | rtSigaction (user : User) (signo actPtr oldactPtr : Word)
  | rtSigprocmask (user : User) (how setPtr oldsetPtr : Word)

/-- One step of the system. -/
def killStep (s : SigSched) : KillEvent → Option SigSched
  | .sched e => if e = .sigStop then none else (schedStep s.sched e).map (s.inherit e)
  | .signalHandle ctx =>
    if s.sched.panicked ∨ (s.sched.procs s.sched.current).pc ≠ .user then none else some (s.signalHandle ctx)
  | .rtSigaction user signo actPtr oldactPtr =>
    if s.sched.panicked ∨ (s.sched.procs s.sched.current).pc ≠ .user then none
    else
      let p := s.sigProc s.sched.current
      some (s.store s.sched.current (p.ofTask (sysRtSigaction (p.task user) signo actPtr oldactPtr).1))
  | .rtSigprocmask user how setPtr oldsetPtr =>
    if s.sched.panicked ∨ (s.sched.procs s.sched.current).pc ≠ .user then none
    else
      let p := s.sigProc s.sched.current
      some (s.store s.sched.current (p.ofTask (sysRtSigprocmask (p.task user) how setPtr oldsetPtr).1))

/-- After boot. -/
def sigSchedInit : SigSched where
  sched := schedInit
  sigHandlers _ := SigProc.init.sigHandlers
  sigBlocked _ := SigProc.init.sigBlocked
  sigSavedMask _ := SigProc.init.sigSavedMask

namespace SigProc

variable {p : SigProc}

/-! ## Sleeping through SIGKILL

The property of one process, and what `signal_send` and `signal_handle` do to it.
-/

/-- SIGKILL is pending and not blocked. -/
def Doomed (p : SigProc) : Prop := p.deliverable.getLsbD (sigkill - 1) = true

/-- The process is out of the running until somebody wakes it. -/
def Asleep (p : SigProc) : Prop := p.state = .sleeping ∨ p.state = .stopped

/-- **No SIGKILL is slept through.** -/
def KillSeen (p : SigProc) : Prop := p.Asleep → ¬ p.Doomed

theorem doomed_iff : p.Doomed ↔ p.sigPending.getLsbD (sigkill - 1) = true ∧ p.sigBlocked.getLsbD (sigkill - 1) = false := by
  have h64 : sigkill - 1 < 64 := by decide
  rw [Doomed, deliverable, BitVec.getLsbD_and, BitVec.getLsbD_not, decide_eq_true h64, Bool.true_and,
    Bool.and_eq_true, Bool.not_eq_true']

/-- Fewer are pending, more are blocked, and nobody has gone to sleep. -/
theorem KillSeen.mono {p' : SigProc} (h : p.KillSeen) (hst : p'.Asleep → p.Asleep)
    (hpend : p'.sigPending.getLsbD (sigkill - 1) = true → p.sigPending.getLsbD (sigkill - 1) = true)
    (hblock : p.sigBlocked.getLsbD (sigkill - 1) = true → p'.sigBlocked.getLsbD (sigkill - 1) = true) : p'.KillSeen := by
  intro hs hd
  rw [doomed_iff] at hd
  apply h (hst hs)
  rw [doomed_iff]
  refine ⟨hpend hd.1, ?_⟩
  by_contra hb
  rw [hblock (Bool.not_eq_false _ ▸ hb)] at hd
  cases hd.2

/-- A signal wakes a sleeper. A stopped process stays as it is, so SIGKILL has to be blocked there. -/
theorem KillSeen.signalSend (h : p.KillSeen) {signo : Nat}
    (hkill : signo = sigkill → p.state = .stopped → p.sigBlocked.getLsbD (sigkill - 1) = true) :
    (p.signalSend signo).KillSeen := by
  rw [SigProc.signalSend]
  split
  · exact h
  next hgood =>
    split
    · exact h
    · intro hs hd
      have hstop : p.state = .stopped := by
        unfold Asleep at hs
        simp only at hs
        split at hs
        · simp at hs
        next hne => exact hs.resolve_left hne
      rw [doomed_iff] at hd
      simp only [BitVec.getLsbD_or, Bool.or_eq_true] at hd
      obtain ⟨hp | hbit, hb⟩ := hd
      · exact h (.inr hstop) (doomed_iff.mpr ⟨hp, hb⟩)
      · rw [getLsbD_sigBit (by omega) (by omega), decide_eq_true_iff] at hbit
        rw [hkill (by rw [sigkill] at hbit ⊢; omega) hstop] at hb
        cases hb

/-- A stop signal is selected only when SIGKILL cannot be delivered. -/
theorem not_doomed_of_stop (hstop : defaultAct p.selected = .stop) : ¬ p.Doomed := by
  have hlt : sigkill - 1 + 1 < p.selected := by
    unfold defaultAct at hstop
    split at hstop <;> simp_all [sigkill]
  rw [Doomed, deliverable_lt hlt]
  simp

theorem KillSeen.signalHandle (h : p.KillSeen) (ctx : CpuContext) : (p.signalHandle ctx).1.KillSeen := by
  rw [SigProc.signalHandle]
  split
  · exact h
  next hsel =>
    have hclear : ∀ {x : Word}, (x &&& ~~~(sigBit p.selected)).getLsbD (sigkill - 1) = true →
        x.getLsbD (sigkill - 1) = true := by
      intro x hx
      rw [BitVec.getLsbD_and, Bool.and_eq_true] at hx
      exact hx.1
    have hcleared : KillSeen { p with sigPending := p.sigPending &&& ~~~(sigBit p.selected) } :=
      h.mono id hclear id
    simp only
    split
    · exact hcleared
    split
    · split
      next hstop =>
        intro _ hd
        rw [doomed_iff] at hd
        exact not_doomed_of_stop hstop (doomed_iff.mpr ⟨hclear hd.1, hd.2⟩)
      next => exact fun hs => by simp [Asleep] at hs
      next => exact fun hs => by simp [Asleep] at hs
      next => exact hcleared
    · rw [callHandler]
      simp only
      split
      · exact hcleared
      split
      · exact hcleared.signalSend fun he => absurd he (by decide)
      · refine hcleared.mono id id fun hb => ?_
        rw [BitVec.getLsbD_or, hb, Bool.true_or]

end SigProc

/-! ## Steps

`KillSafe` names the two ways into the bad state: a SIGKILL that is sent to a stopped process, and a process that
falls asleep with one pending. The second is what the loops of the pipe functions and of `proc_wait` allow.
-/

/-- **The condition on a step**: no SIGKILL is sent to a STOPPED process that does not block it, and nobody goes to
    sleep with a SIGKILL pending. A mask is opened by a process that runs. -/
def KillSafe (s : SigSched) : KillEvent → Prop
  | .sched (.signalSend target signo) =>
    signo = sigkill → (s.sched.procs target).state = .stopped → (s.sigBlocked target).getLsbD (sigkill - 1) = true
  | .sched (.wqWait _ _) => ¬ (s.sigProc s.sched.current).Doomed
  | .sched (.wqWaitTimeout _ _ _) => ¬ (s.sigProc s.sched.current).Doomed
  | .rtSigprocmask _ _ _ _ => (s.sched.procs s.sched.current).state = .running
  | _ => True

theorem sysRtSigaction_sigBlocked (t : Task) (signo actPtr oldactPtr : Word) :
    (sysRtSigaction t signo actPtr oldactPtr).1.sigBlocked = t.sigBlocked := by
  unfold sysRtSigaction
  split
  · rfl
  split
  · rfl
  simp only []
  generalize (if oldactPtr = 0 then _ else _) = u
  split
  · rfl
  · split <;> rfl

theorem handlePath_quiet (s : SigSched) (cur : Pid) (asleep : Bool) (act : SigAct) :
    QuietPath s.sched (s.handlePath cur asleep act) := by
  unfold SigSched.handlePath
  split
  · exact .schedule
  · exact .setPc
  split
  next hwake =>
    -- it is READY, and `proc_wake` leaves it so
    have hready : Quiet (s.sched.procs cur) { s.sched.procs cur with state := .ready } := ⟨rfl, rfl, by simp⟩
    refine QuietPath.after (fun p => ?_) (procWake_quiet (by simp [Sched.setState]))
    by_cases hp : p = cur
    · subst hp
      simpa [Sched.final, Sched.setState] using hready
    · rw [Sched.final, Sched.setState, Sched.setProc_of_ne _ _ hp, Sched.setState, Sched.setProc_of_ne _ _ hp]
      exact .refl _
  next => exact .of_procs rfl

/-- All processes. -/
def KillsSeen (s : SigSched) : Prop := ∀ p, (s.sigProc p).KillSeen

namespace KillsSeen

variable {s : SigSched}

/-- A quiet change of one record, with the same mask. -/
theorem quiet_proc {t : SigSched} {p : Pid} (h : (s.sigProc p).KillSeen) (hq : Quiet (s.sched.procs p) (t.sched.procs p))
    (hb : t.sigBlocked p = s.sigBlocked p) : (t.sigProc p).KillSeen := by
  refine h.mono (fun hs => ?_) (fun hp => ?_) (fun hm => ?_)
  · have hs' : (t.sched.procs p).state = .sleeping ∨ (t.sched.procs p).state = .stopped := hs
    rwa [hq.state hs'] at hs'
  · have hp' : (t.sched.procs p).sigPending.getLsbD (sigkill - 1) = true := hp
    rwa [hq.sigPending] at hp'
  · show (t.sigBlocked p).getLsbD (sigkill - 1) = true
    rw [hb]
    exact hm

theorem quiet {t : Sched} (h : KillsSeen s) (hq : ∀ p, Quiet (s.sched.procs p) (t.procs p)) :
    KillsSeen { s with sched := t } := fun p => quiet_proc (h p) (hq p) rfl

theorem setProc (h : KillsSeen s) {p : Pid} {f : Process → Process}
    (hf : (SigSched.sigProc { s with sched := s.sched.setProc p f } p).KillSeen) :
    KillsSeen { s with sched := s.sched.setProc p f } := by
  intro x
  by_cases hx : x = p
  · rw [hx]
    exact hf
  · have hsame : SigSched.sigProc { s with sched := s.sched.setProc p f } x = s.sigProc x := by
      simp only [SigSched.sigProc, Sched.setProc_of_ne _ _ hx]
    rw [hsame]
    exact h x

/-- The record after `signal_send` is that of the signal model. -/
theorem sigProc_signalled (s : SigSched) (p : Pid) (signo : Nat) :
    SigSched.sigProc { s with sched := s.sched.setProc p fun x => x.signalled signo } p =
      (s.sigProc p).signalSend signo := by
  by_cases hbad : signo = 0 ∨ nsig < signo
  · rw [SigProc.signalSend, if_pos hbad]
    simp only [SigSched.sigProc, Sched.setProc_self, Process.signalled, if_pos hbad]
  · by_cases hgone : (s.sched.procs p).state = .zombie ∨ (s.sched.procs p).state = .dead
    · have hgone' : (s.sigProc p).state = .zombie ∨ (s.sigProc p).state = .dead := hgone
      rw [SigProc.signalSend, if_neg hbad, if_pos hgone']
      simp only [SigSched.sigProc, Sched.setProc_self, Process.signalled, if_neg hbad, if_pos hgone]
    · have hlive' : ¬ ((s.sigProc p).state = .zombie ∨ (s.sigProc p).state = .dead) := hgone
      rw [SigProc.signalSend, if_neg hbad, if_neg hlive']
      simp only [SigSched.sigProc, Sched.setProc_self, Process.signalled, if_neg hbad, if_neg hgone]
      rfl

theorem signalled (h : KillsSeen s) {p : Pid} {signo : Nat}
    (hkill : signo = sigkill → (s.sched.procs p).state = .stopped → (s.sigBlocked p).getLsbD (sigkill - 1) = true) :
    KillsSeen { s with sched := s.sched.setProc p fun x => x.signalled signo } := by
  apply h.setProc
  rw [sigProc_signalled]
  exact (h p).signalSend hkill

/-! ## Each kind of step

Going to sleep, writing masks back, a step of the scheduler, a fork, and a signal that is handled.
-/

/-- The running process goes to sleep. -/
theorem sleep (h : KillsSeen s) (hd : ¬ (s.sigProc s.sched.current).Doomed) :
    KillsSeen { s with sched := s.sched.setState s.sched.current .sleeping } := by
  apply h.setProc
  intro _ hdoom
  apply hd
  rw [SigProc.doomed_iff] at hdoom ⊢
  simp only [SigSched.sigProc, Sched.setProc_self] at hdoom
  exact hdoom

/-- The masks of a process are written back with its state. -/
theorem store (h : KillsSeen s) {p : Pid} {x : SigProc} (hx : x.KillSeen) : KillsSeen (s.store p x) := by
  intro q
  by_cases hq : q = p
  · have hself : (s.store p x).sigProc q = x := by
      rw [hq]
      simp only [SigSched.sigProc, SigSched.store, Sched.setProc_self, Function.update_self]
    rw [hself]
    exact hx
  · have hother : (s.store p x).sigProc q = s.sigProc q := by
      simp only [SigSched.sigProc, SigSched.store, Sched.setProc_of_ne _ _ hq, Function.update_of_ne hq]
    rw [hother]
    exact h q

/-- A step of the scheduler with the masks kept. -/
theorem sched {e : Event} {t : Sched} (h : KillsSeen s) (hs : schedStep s.sched e = some t) (hok : KillSafe s (.sched e))
    (hfork : e ≠ .fork) (hstop : e ≠ .sigStop) : KillsSeen { s with sched := t } := by
  obtain ⟨s₁, hloud, hquiet⟩ := schedStep_loud hs
  suffices h₁ : KillsSeen { s with sched := s₁ } from h₁.quiet hquiet
  cases hloud with
  | none _ => exact h
  | wait => exact h.sleep hok
  | waitTimeout => exact h.sleep hok
  | signal => exact h.signalled hok
  | stop => exact absurd rfl hstop
  | fork => exact absurd rfl hfork
  | childExit hq =>
    have hchld : sigchld ≠ sigkill := by decide
    exact (h.quiet hq).signalled fun he => absurd he hchld

/-- A child starts with nothing pending. -/
theorem fork {t : Sched} (h : KillsSeen s) (hs : schedStep s.sched .fork = some t) : KillsSeen (s.inherit .fork t) := by
  obtain ⟨s₁, hloud, hquiet⟩ := schedStep_loud hs
  cases hloud with
  | none hne => exact absurd rfl hne
  | fork =>
    intro p
    by_cases hp : p = s.sched.nprocs
    · subst hp
      have hq := hquiet s.sched.nprocs
      rw [Sched.setProc_self] at hq
      intro hs
      have hs' : (t.procs s.sched.nprocs).state = .sleeping ∨ (t.procs s.sched.nprocs).state = .stopped := hs
      rw [hq.state hs'] at hs'
      simp [Sched.forkedProc] at hs'
    · have hq : Quiet (s.sched.procs p) (t.procs p) := by
        have hq := hquiet p
        rwa [Sched.setProc_of_ne _ _ hp] at hq
      exact quiet_proc (h p) hq (Function.update_of_ne hp _ _)

theorem signalHandle (h : KillsSeen s) (ctx : CpuContext) : KillsSeen (s.signalHandle ctx) := by
  have hstored := h.store (p := s.sched.current) ((h s.sched.current).signalHandle ctx)
  exact hstored.quiet (handlePath_quiet _ _ _ _)

/-- **One step.** -/
theorem step {e : KillEvent} {t : SigSched} (h : KillsSeen s) (hs : killStep s e = some t) (hok : KillSafe s e) :
    KillsSeen t := by
  cases e with
  | sched e =>
    simp only [killStep] at hs
    split at hs
    · cases hs
    next hstop =>
      obtain ⟨u, hu, rfl⟩ := Option.map_eq_some_iff.mp hs
      -- a fork makes a process with a mask of its own; any other event leaves the masks
      by_cases hfork : e = .fork
      · rw [hfork] at hu ⊢
        exact h.fork hu
      · have hkeep : s.inherit e u = { s with sched := u } := by
          unfold SigSched.inherit
          split
          · exact absurd rfl hfork
          · rfl
        rw [hkeep]
        exact h.sched hu hok hfork hstop
  | signalHandle ctx =>
    simp only [killStep] at hs
    split at hs
    · cases hs
    · cases hs
      exact h.signalHandle ctx
  | rtSigaction user signo actPtr oldactPtr =>
    simp only [killStep] at hs
    split at hs
    · cases hs
    · cases hs
      apply h.store
      -- the call writes a handler and no mask
      refine (h s.sched.current).mono id id ?_
      rw [SigProc.ofTask, sysRtSigaction_sigBlocked]
      exact id
  | rtSigprocmask user how setPtr oldsetPtr =>
    simp only [killStep] at hs
    split at hs
    · cases hs
    · cases hs
      apply h.store
      -- whoever makes a call is running, so it is neither asleep nor stopped
      intro hasleep
      have hrun : (s.sched.procs s.sched.current).state = .running := hok
      have hs' : (s.sched.procs s.sched.current).state = .sleeping ∨
        (s.sched.procs s.sched.current).state = .stopped := hasleep
      rw [hrun] at hs'
      simp at hs'

end KillsSeen

/-- **SIGKILL is never slept through** in a run whose steps are safe: in every state reached no process is SLEEPING or
    STOPPED with a SIGKILL that is pending and not blocked. -/
theorem killsSeen_of_killSafe (es : List KillEvent) (s : SigSched)
    (hrun : Run (Guarded KillSafe (Graph killStep)) sigSchedInit es s) (p : Pid) :
    ¬ (((s.sched.procs p).state = .sleeping ∨ (s.sched.procs p).state = .stopped) ∧ (s.sigProc p).Doomed) := by
  have hinit : KillsSeen sigSchedInit := by
    intro p hs
    have hs' : (schedInit.procs p).state = .sleeping ∨ (schedInit.procs p).state = .stopped := hs
    simp only [schedInit] at hs'
    split at hs'
    · simp at hs'
    · split at hs' <;> simp [createdProc] at hs'
  have hinv : KillsSeen s := by
    refine hrun.invariant KillsSeen hinit ?_
    rintro s e t h ⟨hok, hstep⟩
    exact h.step hstep hok
  exact fun ⟨hs, hd⟩ => hinv p hs hd

/-- A child that waits on a pipe is killed: it is woken. -/
def killSleeper : List KillEvent :=
  [.sched .fork, .sched .schedule, .sched (.wqWait (.other 0) .direct), .sched (.signalSend 2 sigkill)]

theorem killsSeen_sleeper :
    ∃ s, Run (Guarded KillSafe (Graph killStep)) sigSchedInit killSleeper s ∧ (s.sigProc 2).Doomed ∧
      ¬ ((s.sched.procs 2).state = .sleeping ∨ (s.sched.procs 2).state = .stopped) := by
  have h₀ : Run (Guarded KillSafe (Graph killStep)) sigSchedInit [] (after killStep sigSchedInit []) := .refl
  have h₁ := h₀.tail_after (.sched .fork) trivial (by decide +kernel)
  have h₂ := h₁.tail_after (.sched .schedule) trivial (by decide +kernel)
  have h₃ := h₂.tail_after (.sched (.wqWait (.other 0) .direct))
    (by unfold KillSafe SigProc.Doomed; decide +kernel) (by decide +kernel)
  have h₄ := h₃.tail_after (.sched (.signalSend 2 sigkill))
    (by intro _ hstop; revert hstop; decide +kernel) (by decide +kernel)
  have hdoomed : ((after killStep sigSchedInit killSleeper).sigProc 2).Doomed := by
    unfold SigProc.Doomed
    decide +kernel
  exact ⟨_, h₄, hdoomed, fun hs => killsSeen_of_killSafe _ _ h₄ 2 ⟨hs, hdoomed⟩⟩

/-- **A stopped process sleeps through SIGKILL.** Init stops its child and kills it. -/
theorem killsSeen_fails_stopped :
    ∃ s, Run (Graph killStep) sigSchedInit
        [.sched .fork, .sched (.signalSend 2 sigstop), .sched .schedule, .signalHandle (SigProc.ctxAt 0x2B 0x7FFFFFFF0000),
          .sched (.signalSend 2 sigkill)] s ∧
      (s.sched.procs 2).state = .stopped ∧ (s.sigProc 2).Doomed := by
  refine ⟨_, Run.of_after (by decide +kernel), by decide +kernel, ?_⟩
  unfold SigProc.Doomed
  decide +kernel

end MyUnix.Proc
