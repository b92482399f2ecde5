import MyUnix.Proc.SchedQueues

/-!
# `Proc.SchedFrame` — what the scheduler leaves alone

No path of the scheduler sets a priority, only `signal_send` sets a pending bit, and only the waits and the default
action of a stop signal take a process out of the running: everything else can at most make a process READY, RUNNING
or ZOMBIE. `Quiet` says this of one process record; the lemmas say it of the paths, whether they get through or stop
the machine, and ask nothing of the lists.

These lemmas are used where only one process matters. They hold in every state, so they need no invariant and survive
any change to the lists.
-/

namespace MyUnix.Proc

open Lib

/-- The process is neither SLEEPING nor STOPPED where it was not before, and priority and pending signals are what
    they were. -/
structure Quiet (x y : Process) : Prop where
  priority   : y.priority = x.priority
  sigPending : y.sigPending = x.sigPending
  state      : y.state = .sleeping ∨ y.state = .stopped → y.state = x.state

theorem Quiet.refl (x : Process) : Quiet x x := ⟨rfl, rfl, fun _ => rfl⟩

theorem Quiet.trans {x y z : Process} (h : Quiet x y) (h' : Quiet y z) : Quiet x z where
  priority := h'.priority.trans h.priority
  sigPending := h'.sigPending.trans h.sigPending
  state hz := by
    have hzy := h'.state hz
    rw [hzy] at hz ⊢
    exact h.state hz

/-- All processes along a kernel path. -/
def QuietPath (s : Sched) (k : Kernel Sched) : Prop := ∀ p, Quiet (s.procs p) ((Sched.final k).procs p)

namespace QuietPath

variable {s : Sched} {p : Pid}

theorem of_procs {k : Kernel Sched} (h : (Sched.final k).procs = s.procs) : QuietPath s k := by
  intro p
  rw [h]
  exact .refl _

theorem bind {k : Kernel Sched} {f : Sched → Kernel Sched} (h : QuietPath s k) (hf : ∀ t, QuietPath t (f t)) :
    QuietPath s (k >>= f) := by
  cases k with
  | error t => exact h
  | ok t =>
    intro p
    exact (h p).trans (hf t p)

theorem after {t : Sched} {k : Kernel Sched} (h : QuietPath s (.ok t)) (hk : QuietPath t k) : QuietPath s k :=
  fun p => (h p).trans (hk p)

/-- What a path reads of the state it starts from is its processes. -/
theorem of_same {t : Sched} {k : Kernel Sched} (hk : QuietPath t k) (ht : t.procs = s.procs) : QuietPath s k := by
  intro p
  rw [← ht]
  exact hk p

theorem of_final {k k' : Kernel Sched} (hk : QuietPath s k) (h : (Sched.final k').procs = (Sched.final k).procs) :
    QuietPath s k' := by
  intro p
  rw [h]
  exact hk p

/-- One record is changed. -/
theorem setProc {f : Process → Process} (hf : Quiet (s.procs p) (f (s.procs p))) : QuietPath s (.ok (s.setProc p f)) := by
  intro x
  rw [Sched.final]
  by_cases hx : x = p
  · subst hx
    rw [Sched.setProc_self]
    exact hf
  · rw [Sched.setProc_of_ne _ _ hx]
    exact .refl _

theorem setState (p : Pid) (st : ProcState) (h1 : st ≠ .sleeping) (h2 : st ≠ .stopped) : QuietPath s (.ok (s.setState p st)) :=
  setProc ⟨rfl, rfl, fun h => (h.elim h1 h2).elim⟩

theorem setPc {pc : Pc} : QuietPath s (.ok (s.setPc p pc)) := setProc ⟨rfl, rfl, fun _ => rfl⟩

theorem setWaitChannel {q : Option Wq} : QuietPath s (.ok (s.setWaitChannel p q)) := setProc ⟨rfl, rfl, fun _ => rfl⟩

theorem withMem {m : Option (ListMem Addr)} : QuietPath s (s.withMem m) := by
  cases m with
  | none => exact of_procs rfl
  | some m => exact of_procs rfl

/-! ## Run queues

Pushing, popping and removing change links and counters.
-/

theorem runqPush : QuietPath s (s.runqPush p) := withMem.bind fun _ => of_procs rfl

theorem clearIfEmpty {i : Nat} : QuietPath s (.ok (s.clearIfEmpty i)) := by
  apply of_procs
  rw [Sched.final, Sched.clearIfEmpty]
  split <;> rfl

theorem runqRemove : QuietPath s (s.runqRemove p) := by
  unfold Sched.runqRemove
  split
  · exact of_procs rfl
  · refine withMem.bind fun t => ?_
    simp only []
    split
    · exact clearIfEmpty.of_same rfl
    · exact of_procs rfl

theorem schedAdd : QuietPath s (s.schedAdd p) := by
  unfold Sched.schedAdd
  split
  · exact runqPush
  · exact of_procs rfl

/-- `runq_pop_best` touches no process. -/
theorem runqPopBest_procs : QuietPath s (s.runqPopBest.map Prod.snd) := by
  unfold Sched.runqPopBest
  split
  · exact of_procs rfl
  · simp only []
    split
    · exact of_procs rfl
    · split
      · exact clearIfEmpty
      · split
        · cases s.mem.del (.runNode _) with
          | none => exact of_procs rfl
          | some m =>
            exact of_same (clearIfEmpty.after (of_procs rfl)) rfl
        · exact of_procs rfl

theorem schedule : QuietPath s s.schedule := by
  unfold Sched.schedule
  have hpop : QuietPath s (s.runqPopBest.map Prod.snd) := runqPopBest_procs
  cases hk : s.runqPopBest with
  | error t =>
    rw [hk] at hpop
    exact hpop
  | ok r =>
    obtain ⟨next, t⟩ := r
    rw [hk] at hpop
    refine after (t := t) hpop ?_
    show QuietPath t (if next.getD gIdleProc = s.current then _ else _)
    split
    · exact of_procs rfl
    · refine (setState (next.getD gIdleProc) .running (by simp) (by simp)).after ?_
      split
      · exact ((setState _ .ready (by simp) (by simp)).after runqPush).bind fun _ => of_procs rfl
      · exact of_procs rfl

/-! ## Wait queues

A waker makes processes READY; only the waiter itself becomes SLEEPING.
-/

theorem delNode {q : Wq} {k : Nat} : QuietPath s (s.delNode p q k) :=
  withMem.of_same rfl

theorem wakeNode {q : Wq} : QuietPath s (s.wakeNode p q) :=
  delNode.bind fun _ => (setState _ .ready (by simp) (by simp)).after schedAdd

theorem fault : QuietPath s s.fault := of_procs rfl

theorem wqWakeOne {q : Wq} : QuietPath s (s.wqWakeOne q) := by
  unfold Sched.wqWakeOne
  split
  · exact of_procs rfl
  · split
    · exact wakeNode
    · exact fault

theorem wqWakeAllFrom {q : Wq} : ∀ (fuel : Nat) (s : Sched) (pos n : Option Addr),
    QuietPath s (Sched.wqWakeAllFrom q fuel s pos n) := by
  intro fuel
  induction fuel with
  | zero => exact fun s _ _ => fault
  | succ fuel ih =>
    intro s pos n
    unfold Sched.wqWakeAllFrom
    split
    · exact of_procs rfl
    · split
      · exact wakeNode.bind fun t => ih t _ _
      · exact fault

theorem wqWakeAll {q : Wq} : QuietPath s (s.wqWakeAll q) := wqWakeAllFrom _ s _ _

theorem endSleep {c : Caller} : QuietPath s (.ok (s.endSleep c)) := by
  cases c with
  | direct => exact of_procs rfl
  | procSleep => exact setWaitChannel.after (setState _ .running (by simp) (by simp))

theorem wqWaitEnd {q : Wq} {k : Nat} {c : Caller} : QuietPath s (s.wqWaitEnd q k c) :=
  delNode.bind fun _ => endSleep.after setPc

theorem wqWaitTimeoutLoop {q : Wq} {k d : Nat} {c : Caller} : QuietPath s (s.wqWaitTimeoutLoop q k d c) := by
  unfold Sched.wqWaitTimeoutLoop
  split
  · split
    · exact delNode.bind fun _ => (setState _ .running (by simp) (by simp)).after (endSleep.after setPc)
    · exact schedule
  · exact wqWaitEnd

/-! ## Exit

Reparenting and the wake of the parent, and the process becomes a zombie.
-/

theorem reparent : QuietPath s (.ok s.reparent) := by
  intro p
  rw [Sched.final, Sched.reparent]
  split
  · exact .refl _
  · simp only []
    split
    · exact ⟨rfl, rfl, fun _ => rfl⟩
    · exact .refl _

theorem exitWake {parent : Pid} : QuietPath s (s.exitWake parent) := setPc.after wqWakeAll

theorem exitRemove : QuietPath s s.exitRemove := (setPc.after runqRemove).bind fun _ => schedule

end QuietPath

/-! ## Steps

At most one record is changed in a way that is not quiet, and `Loud` says how.
-/

/-- What `signal_send` does to the record of its target: a pending bit, and a sleeper wakes up. -/
def Process.signalled (x : Process) (signo : Nat) : Process :=
  if signo = 0 ∨ nsig < signo then x
  else if x.state = .zombie ∨ x.state = .dead then x
  else { x with
    sigPending := x.sigPending ||| BitVec.twoPow 64 (signo - 1)
    state := if x.state = .sleeping then .ready else x.state }

/-- The one thing a step does that is not quiet. -/
inductive Loud (s : Sched) : Event → Sched → Prop where
  | none {e : Event} (h : e ≠ .fork) : Loud s e s
  | wait {q : Wq} {caller : Caller} : Loud s (.wqWait q caller) (s.setState s.current .sleeping)
  | waitTimeout {q : Wq} {ms : Nat} {caller : Caller} :
      Loud s (.wqWaitTimeout q ms caller) (s.setState s.current .sleeping)
  | signal {target : Pid} {signo : Nat} :
      Loud s (.signalSend target signo) (s.setProc target fun x => x.signalled signo)
  | stop : Loud s .sigStop (s.setState s.current .stopped)
  | fork : Loud s .fork (s.setProc s.nprocs fun _ => s.forkedProc)
  | childExit {s₁ : Sched} {parent : Pid} (h : QuietPath s (.ok s₁)) :
      Loud s .resume (s₁.setProc parent fun x => x.signalled sigchld)

section

variable {s : Sched}

/-- `proc_wake` makes a sleeper READY before anything else. -/
theorem procWake_quiet {p : Pid} (h : (s.procs p).state = .sleeping) :
    QuietPath (s.setState p .ready) (s.procWake p) := by
  unfold Sched.procWake
  rw [if_pos h]
  simp only []
  split
  · exact QuietPath.wqWakeOne.bind fun _ => .schedAdd
  · exact .schedAdd

theorem signalSend_quiet (target : Pid) (signo : Nat) :
    QuietPath (s.setProc target fun x => x.signalled signo) (s.signalSend target signo) := by
  have hsame : ∀ {t : Sched}, t.procs target = (s.procs target).signalled signo →
      (∀ p, p ≠ target → t.procs p = s.procs p) → QuietPath (s.setProc target fun x => x.signalled signo) (.ok t) := by
    intro t hself hother p
    by_cases hp : p = target
    · subst hp
      rw [Sched.setProc_self, Sched.final, hself]
      exact .refl _
    · rw [Sched.setProc_of_ne _ _ hp, Sched.final, hother p hp]
      exact .refl _
  unfold Sched.signalSend
  split
  next hbad => exact hsame (by rw [Process.signalled, if_pos hbad]) fun _ _ => rfl
  next hgood =>
    split
    next hgone => exact hsame (by rw [Process.signalled, if_neg hgood, if_pos hgone]) fun _ _ => rfl
    next hlive =>
      simp only [Sched.setProc_self]
      split
      next hsleep =>
        refine QuietPath.after ?_ (procWake_quiet (by rw [Sched.setProc_self]; exact hsleep))
        apply hsame
        · rw [Sched.setState, Sched.setProc_self, Sched.setProc_self, Process.signalled, if_neg hgood, if_neg hlive,
            if_pos hsleep]
        · intro p hp
          rw [Sched.setState, Sched.setProc_of_ne _ _ hp, Sched.setProc_of_ne _ _ hp]
      next hawake =>
        apply hsame
        · rw [Sched.setProc_self, Process.signalled, if_neg hgood, if_neg hlive, if_neg hawake]
        · exact fun p hp => Sched.setProc_of_ne _ _ hp

theorem enqueue_final (u : Sched) (q : Wq) (pc : Pc) :
    (Sched.final (u.enqueue q pc)).procs = u.procs ∨
    (Sched.final (u.enqueue q pc)).procs = ((u.setState u.current .sleeping).setPc u.current pc).procs := by
  unfold Sched.enqueue
  simp only []
  cases (u.mem.init (.wqNode u.current)).addTail (.wqNode u.current) (.wqHead q) with
  | none => exact .inl rfl
  | some m => exact .inr rfl

/-- Going to sleep: the process is SLEEPING, or the machine has stopped on the way. -/
theorem enqueue_quiet (q : Wq) (pc : Pc) (c : Caller) :
    ∃ s₁, (s₁ = s ∨ s₁ = s.setState s.current .sleeping) ∧ QuietPath s₁ ((s.beginSleep q c).enqueue q pc) := by
  cases c with
  | direct =>
    rcases enqueue_final s q pc with h | h
    · exact ⟨s, .inl rfl, .of_procs h⟩
    · exact ⟨_, .inr rfl, QuietPath.setPc.of_final h⟩
  | procSleep =>
    have hbegin : QuietPath (s.setState s.current .sleeping) (.ok (s.beginSleep q .procSleep)) := .setWaitChannel
    refine ⟨_, .inr rfl, ?_⟩
    rcases enqueue_final (s.beginSleep q .procSleep) q pc with h | h
    · exact hbegin.after (.of_procs h)
    · -- it is asleep already
      have hasleep : ((s.beginSleep q .procSleep).procs s.current).state = .sleeping := by
        simp [Sched.beginSleep, Sched.setWaitChannel, Sched.setState]
      have hagain : QuietPath (s.beginSleep q .procSleep)
          (.ok ((s.beginSleep q .procSleep).setState s.current .sleeping)) :=
        .setProc ⟨rfl, rfl, fun _ => hasleep.symm⟩
      exact hbegin.after (hagain.after (QuietPath.setPc.of_final h))

theorem fork_quiet : QuietPath (s.setProc s.nprocs fun _ => s.forkedProc) s.fork := by
  unfold Sched.fork
  exact ((QuietPath.setState _ .ready (by simp) (by simp)).after .schedAdd).of_same rfl

/-- The kernel path a process in user mode enters. -/
theorem entry_loud {e : Event} {k : Kernel Sched} (h : s.entry e = some k) :
    ∃ s₁, Loud s e s₁ ∧ QuietPath s₁ k := by
  cases e with
  | schedule => cases h; exact ⟨s, .none nofun, .schedule⟩
  | tick => cases h; exact ⟨s, .none nofun, .of_procs rfl⟩
  | fork => cases h; exact ⟨_, .fork, fork_quiet⟩
  | wqWait q c =>
    simp only [Sched.entry] at h
    split at h
    · cases h
    · cases h
      obtain ⟨s₁, hs₁ | hs₁, hk⟩ := enqueue_quiet (s := s) q (.wait q s.nnodes c) c
      · exact ⟨s, .none nofun, QuietPath.bind (hs₁ ▸ hk) fun _ => .schedule⟩
      · exact ⟨_, .wait, QuietPath.bind (hs₁ ▸ hk) fun _ => .schedule⟩
  | wqWaitTimeout q ms c =>
    simp only [Sched.entry] at h
    split at h
    · cases h
    · cases h
      obtain ⟨s₁, hs₁ | hs₁, hk⟩ := enqueue_quiet (s := s) q (.waitTimeout q s.nnodes ((s.getTimeMs + ms) % 2 ^ 64) c) c
      · exact ⟨s, .none nofun, hs₁ ▸ hk⟩
      · exact ⟨_, .waitTimeout, hs₁ ▸ hk⟩
  | wqWakeOne q => cases h; exact ⟨s, .none nofun, .wqWakeOne⟩
  | wqWakeAll q => cases h; exact ⟨s, .none nofun, .wqWakeAll⟩
  | signalSend t n =>
    simp only [Sched.entry] at h
    split at h
    · cases h
      exact ⟨_, .signal, signalSend_quiet t n⟩
    · cases h
  | sigStop => cases h; exact ⟨_, .stop, .schedule⟩
  | exit => cases h; exact ⟨s, .none nofun, (QuietPath.setState _ .zombie (by simp) (by simp)).after .setPc⟩
  | resume => cases h

theorem resume_loud {k : Kernel Sched} (h : s.resume = some k) : ∃ s₁, Loud s .resume s₁ ∧ QuietPath s₁ k := by
  unfold Sched.resume at h
  split at h
  · cases h
  · cases h; exact ⟨s, .none nofun, .wqWaitEnd⟩
  · cases h; exact ⟨s, .none nofun, .wqWaitTimeoutLoop⟩
  · cases h
    unfold Sched.exitSignal
    simp only []
    split
    · exact ⟨s, .none nofun, QuietPath.reparent.after .setPc⟩
    · exact ⟨_, .childExit (QuietPath.reparent.after .setPc), signalSend_quiet _ _⟩
  · cases h; exact ⟨s, .none nofun, .exitWake⟩
  · cases h; exact ⟨s, .none nofun, .exitRemove⟩
  · cases h

/-- **One step** is one loud change, and quiet otherwise. -/
theorem schedStep_loud {e : Event} {t : Sched} (h : schedStep s e = some t) :
    ∃ s₁, Loud s e s₁ ∧ ∀ p, Quiet (s₁.procs p) (t.procs p) := by
  unfold schedStep at h
  split at h
  · cases h
  · obtain ⟨k, hk, rfl⟩ := Option.map_eq_some_iff.mp h
    unfold Sched.path at hk
    split at hk
    · exact entry_loud hk
    · cases hk
      exact ⟨s, .none nofun, QuietPath.wqWakeAll⟩
    · exact resume_loud hk
    · cases hk

end

end MyUnix.Proc
