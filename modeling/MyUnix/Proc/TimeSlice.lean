import MyUnix.Proc.RunqOrder

/-!
# `Proc.TimeSlice` — the timer interrupt, time slices, and how long a process can be kept waiting

`sched_tick` takes one tick from the slice of the running process, and the tail of `isr_common_handler` calls
`schedule()` when nothing is left of it; `schedule()` gives a full slice to the process it switches to. The processes of
a user share one level of the run queue, and only the idle process is below them. So a process that waits behind `k`
others runs within `k + 1` slices, whatever the others do meanwhile.

`Cpu` adds the time accounting to the scheduler of `Proc.Sched`. Its events are the timer interrupt, with what
`signal_handle` makes of it, `sched_yield`, and every event of `Proc.Sched` but the tick, which is the timer's; a run of
it is a run of the scheduler (`cpu_run_sched`). The rank of a process that waits is its place on its queue, in slices,
and what is left of the slice that runs. No event raises it, and each timer interrupt takes one from it.

Two conditions of `Proc.Sched` come along: that no wake pushes a process twice (`WakesOnce`; without it the run queues
break, which `proc_exit` brings about) and that the idle process does not fork (`IdleForksNot`; `idle_thread` does not).

The measure is the number of timer interrupts that can come before a waiting process runs: what is left of the slice
of the one that runs, and a full slice for each process that waits in front. No step raises it, since pushes go to the
end and a switch gives a full slice only to a process that was counted with one; a timer interrupt lowers it.

The runs are those in which no wake pushes a process twice (`Cpu.Ok`): a queue that is corrupted has no order. It is
the condition of `Proc.SchedStep` on the events of the scheduler, with the states of the accounting ignored.
-/

namespace MyUnix.Proc

open Lib

/-- `SCHED_TIMESLICE`. -/
def schedTimeslice : Nat := hz / 10

/-- `SIGALRM`. -/
def sigalrm : Nat := 14

/-- The scheduler with the time accounting of each `process_t`. -/
structure Cpu where
  sched     : Sched
  timeSlice : Pid → Nat
  totalTime : Pid → Nat
  alarmTime : Pid → Nat

/-- How the call of `signal_handle` in `isr_common_handler` ends: it comes back (nothing was to be delivered, or a
    handler was set up), the default action stops the process, or it calls `proc_exit`. -/
inductive SigTail where
  | returns
  | stops
  | exits
deriving DecidableEq

/-- What happens: the timer interrupts user mode, the running process yields, or anything else of `Proc.Sched`. -/
inductive CpuEvent where
  | timer (sig : SigTail)
  | yield
  | call (e : Event)
deriving DecidableEq

namespace Cpu

variable (c : Cpu)

/-- `g_current`. -/
def current : Pid := c.sched.current

/-- What `schedule()` does to the accounting: a process that is switched to gets a new slice. -/
def switched (t : Sched) : Cpu :=
  if t.current = c.current then { c with sched := t }
  else { c with sched := t, timeSlice := Function.update c.timeSlice t.current schedTimeslice }

/-- `schedule()`. -/
def schedule : Kernel Cpu := c.sched.schedule.map c.switched

/-- `sched_yield`. -/
def schedYield : Kernel Cpu :=
  { c with timeSlice := Function.update c.timeSlice c.current 0 }.schedule

/-- `sched_tick`. -/
def schedTick : Kernel Cpu :=
  let proc := c.current
  let c := { c with totalTime := Function.update c.totalTime proc ((c.totalTime proc + 1) % 2 ^ 64) }
  let c := if 0 < c.timeSlice proc
    then { c with timeSlice := Function.update c.timeSlice proc (c.timeSlice proc - 1) } else c
  if c.alarmTime proc ≠ 0 ∧ c.alarmTime proc ≤ c.sched.getTimeMs then
    let c := { c with alarmTime := Function.update c.alarmTime proc 0 }
    (c.sched.signalSend proc sigalrm).map fun s => { c with sched := s }
  else pure c

/-- `timer_irq_handler`. -/
def timerIrqHandler : Kernel Cpu :=
  { c with sched := { c.sched with ticks := (c.sched.ticks + 1) % 2 ^ 64 } }.schedTick

/-- The end of `isr_common_handler`. -/
def isrTail : Kernel Cpu := if c.timeSlice c.current = 0 then c.schedule else pure c

/-- The default action of a stop signal. When the process is switched to again it has a full slice, and the end of
    `isr_common_handler` has nothing to do for it. -/
def sigStop : Kernel Cpu := { c with sched := c.sched.setState c.current .stopped }.schedule

/-- The beginning of `proc_exit`; the rest of it are events of its own. -/
def procExit : Kernel Cpu :=
  pure { c with sched := (c.sched.setState c.current .zombie).setPc c.current .exitFiles }

/-- The rest of `isr_common_handler`, after the interrupt has been handled. -/
def isrSignal : SigTail → Kernel Cpu
  | .returns => c.isrTail
  | .stops => c.sigStop
  | .exits => c.procExit

/-- IRQ0. -/
def timer (sig : SigTail) : Kernel Cpu := do
  let c ← c.timerIrqHandler
  c.isrSignal sig

/-- The accounting of the child that `proc_fork` makes. -/
def newChild : Cpu :=
  { c with
    timeSlice := Function.update c.timeSlice c.sched.nprocs schedTimeslice
    totalTime := Function.update c.totalTime c.sched.nprocs 0
    alarmTime := Function.update c.alarmTime c.sched.nprocs 0 }

/-- The accounting of an event of the scheduler, which has come to `t`. Only `schedule()` changes the running process. -/
def returned (e : Event) (t : Sched) : Cpu := (if e = .fork then c.newChild else c).switched t

/-- The kernel path of an event, where there is one. -/
def path : CpuEvent → Option (Kernel Cpu)
  | .timer sig => if (c.sched.procs c.current).pc = .user then some (c.timer sig) else none
  | .yield     => if (c.sched.procs c.current).pc = .user then some c.schedYield else none
  | .call e    => if e = .tick then none else (c.sched.path e).map fun k => k.map (c.returned e)

/-- The state a kernel path ends in. -/
def final : Kernel Cpu → Cpu
  | .ok d    => d
  | .error s => { c with sched := s }

/-- The conditions of the scheduler, on the events that are its own. -/
def WakesOnce : CpuEvent → Prop
  | .call e => Proc.WakesOnce c.sched e ∧ IdleForksNot c.sched e
  | _       => True

end Cpu

/-- One step. A stopped machine takes none. -/
def cpuStep (c : Cpu) (e : CpuEvent) : Option Cpu :=
  if c.sched.panicked then none else (c.path e).map c.final

/-- The state after boot. -/
def cpuInit : Cpu := ⟨schedInit, fun _ => schedTimeslice, fun _ => 0, fun _ => 0⟩

/-- The timer interrupts among the events. -/
def timers (es : List CpuEvent) : Nat := es.countP fun e => match e with | .timer _ => true | _ => false

/-- `p` is on its run queue, with `k` processes before it. -/
def Cpu.WaitsBehind (c : Cpu) (p : Pid) (k : Nat) : Prop :=
  (c.sched.mem.traverse (.runHead (c.sched.prio p)) (k + 1))[k]? = some (.runNode p)

/-! ## The scheduler below

The accounting is laid over `Proc.Sched`: each step of `Cpu` is a run of the scheduler, of no, one or more events.
-/

theorem Cpu.switched_sched (c : Cpu) (t : Sched) : (c.switched t).sched = t := by
  unfold Cpu.switched
  split
  · rfl
  · rfl

theorem Cpu.returned_sched (c : Cpu) (e : Event) (t : Sched) : (c.returned e t).sched = t :=
  Cpu.switched_sched _ t

theorem Cpu.switched_alarm (c : Cpu) (t : Sched) : (c.switched t).alarmTime = c.alarmTime := by
  unfold Cpu.switched
  split
  · rfl
  · rfl

theorem Cpu.returned_alarm {c : Cpu} (h : ∀ p, c.alarmTime p = 0) (e : Event) (t : Sched) (p : Pid) :
    (c.returned e t).alarmTime p = 0 := by
  rw [Cpu.returned, Cpu.switched_alarm]
  split
  · show Function.update c.alarmTime c.sched.nprocs 0 p = 0
    by_cases hp : p = c.sched.nprocs
    · rw [hp, Function.update_self]
    · rw [Function.update_of_ne hp]
      exact h p
  · exact h p

theorem Cpu.final_map_sched (c : Cpu) (k : Kernel Sched) {f : Sched → Cpu} (hf : ∀ t, (f t).sched = t) :
    (c.final (k.map f)).sched = Sched.final k := by
  cases k with
  | ok t => exact hf t
  | error s => rfl

/-- No process has an alarm, so `sched_tick` does what concerns time alone. -/
theorem Cpu.schedTick_eq {c : Cpu} (h : ∀ p, c.alarmTime p = 0) :
    ∃ d, c.schedTick = .ok d ∧ d.sched = c.sched ∧ d.alarmTime = c.alarmTime ∧
      d.timeSlice d.current = c.timeSlice c.current - 1 ∧ ∀ p, d.timeSlice p ≤ c.timeSlice p := by
  by_cases hpos : 0 < c.timeSlice c.current
  · refine ⟨{ c with
      totalTime := Function.update c.totalTime c.current ((c.totalTime c.current + 1) % 2 ^ 64)
      timeSlice := Function.update c.timeSlice c.current (c.timeSlice c.current - 1) }, ?_, rfl, rfl, ?_, fun p => ?_⟩
    · simp only [Cpu.schedTick]
      rw [if_pos hpos, if_neg fun hset => hset.1 (h _)]
      rfl
    · exact Function.update_self _ _ _
    · show Function.update c.timeSlice c.current _ p ≤ _
      by_cases hp : p = c.current
      · rw [hp, Function.update_self]
        exact Nat.sub_le _ _
      · rw [Function.update_of_ne hp]
  · refine ⟨{ c with
      totalTime := Function.update c.totalTime c.current ((c.totalTime c.current + 1) % 2 ^ 64) }, ?_, rfl, rfl, ?_,
      fun p => le_rfl⟩
    · simp only [Cpu.schedTick]
      rw [if_neg hpos, if_neg fun hset => hset.1 (h _)]
      rfl
    · show c.timeSlice c.current = _
      omega

theorem Cpu.timerIrqHandler_eq {c : Cpu} (h : ∀ p, c.alarmTime p = 0) :
    ∃ d, c.timerIrqHandler = .ok d ∧ d.sched = { c.sched with ticks := (c.sched.ticks + 1) % 2 ^ 64 } ∧
      d.alarmTime = c.alarmTime ∧ d.timeSlice d.current = c.timeSlice c.current - 1 ∧
      ∀ p, d.timeSlice p ≤ c.timeSlice p :=
  Cpu.schedTick_eq (c := { c with sched := { c.sched with ticks := (c.sched.ticks + 1) % 2 ^ 64 } }) h

/-- An event of user mode is a step of the scheduler. -/
theorem schedStep_user {s : Sched} {e : Event} {k : Kernel Sched} (hpanic : s.panicked = false)
    (hpc : (s.procs s.current).pc = .user) (hk : s.entry e = some k) : schedStep s e = some (Sched.final k) := by
  simp only [schedStep, hpanic, Bool.false_eq_true, if_false, Sched.path, hpc, hk, Option.map_some]

/-- **A step of `Cpu` is a run of the scheduler.** -/
theorem cpuStep_sched {c d : Cpu} {e : CpuEvent} (halarm : ∀ p, c.alarmTime p = 0) (h : cpuStep c e = some d) :
    (∀ p, d.alarmTime p = 0) ∧ ∃ es, Run (Graph schedStep) c.sched es d.sched := by
  unfold cpuStep at h
  split at h
  · cases h
  next hp =>
    have hpanic : c.sched.panicked = false := Bool.eq_false_iff.mpr hp
    obtain ⟨k, hk, rfl⟩ := Option.map_eq_some_iff.mp h
    cases e with
    | timer sig =>
      obtain ⟨hpc, hk⟩ := Option.ite_none_right_eq_some.mp hk
      obtain rfl := Option.some.inj hk
      obtain ⟨u, hcode, hsched, hal, -, -⟩ := Cpu.timerIrqHandler_eq halarm
      -- the tick, and then the event that the signal or the end of the slice makes
      have htick : schedStep c.sched .tick = some u.sched := by
        rw [hsched]
        exact schedStep_user (e := .tick) (k := .ok _) hpanic hpc rfl
      have hrun : c.timer sig = u.isrSignal sig := by
        simp only [Cpu.timer, hcode, bind, Except.bind]
      have hpanic' : u.sched.panicked = false := by rw [hsched]; exact hpanic
      have hpc' : (u.sched.procs u.sched.current).pc = .user := by rw [hsched]; exact hpc
      have hall : ∀ p, u.alarmTime p = 0 := by rw [hal]; exact halarm
      rw [hrun]
      cases sig with
      | returns =>
        show (∀ p, (c.final u.isrTail).alarmTime p = 0) ∧ ∃ es, Run _ c.sched es (c.final u.isrTail).sched
        unfold Cpu.isrTail
        split
        · constructor
          · cases hs : u.sched.schedule with
            | ok t => simpa [Cpu.schedule, hs, Except.map, Cpu.final, Cpu.switched_alarm] using hall
            | error s => simpa [Cpu.schedule, hs, Except.map, Cpu.final] using halarm
          · refine ⟨[.tick, .schedule], (Run.single htick).tail ?_⟩
            rw [Cpu.schedule, Cpu.final_map_sched _ _ u.switched_sched]
            exact schedStep_user hpanic' hpc' rfl
        · exact ⟨hall, [.tick], Run.single htick⟩
      | stops =>
        constructor
        · cases hs : (u.sched.setState u.current .stopped).schedule with
          | ok t => simpa [Cpu.isrSignal, Cpu.sigStop, Cpu.schedule, hs, Except.map, Cpu.final, Cpu.switched_alarm] using hall
          | error s => simpa [Cpu.isrSignal, Cpu.sigStop, Cpu.schedule, hs, Except.map, Cpu.final] using halarm
        · refine ⟨[.tick, .sigStop], (Run.single htick).tail ?_⟩
          rw [Cpu.isrSignal, Cpu.sigStop, Cpu.schedule, Cpu.final_map_sched _ _ (Cpu.switched_sched _)]
          exact schedStep_user hpanic' hpc' rfl
      | exits =>
        refine ⟨hall, [.tick, .exit], (Run.single htick).tail ?_⟩
        exact schedStep_user (e := .exit) (k := .ok _) hpanic' hpc' rfl
    | yield =>
      -- `sched_yield` is `schedule` called by the process itself
      obtain ⟨hpc, hk⟩ := Option.ite_none_right_eq_some.mp hk
      obtain rfl := Option.some.inj hk
      constructor
      · cases hs : c.sched.schedule with
        | ok t => simpa [Cpu.schedYield, Cpu.schedule, hs, Except.map, Cpu.final, Cpu.switched_alarm] using halarm
        | error s => simpa [Cpu.schedYield, Cpu.schedule, hs, Except.map, Cpu.final] using halarm
      · refine ⟨[.schedule], Run.single ?_⟩
        rw [Cpu.schedYield, Cpu.schedule, Cpu.final_map_sched _ _ (Cpu.switched_sched _)]
        exact schedStep_user hpanic hpc rfl
    | call e =>
      -- every other event is one of the scheduler
      obtain ⟨-, hk⟩ := Option.ite_none_left_eq_some.mp hk
      obtain ⟨k', hk', rfl⟩ := Option.map_eq_some_iff.mp hk
      constructor
      · cases k' with
        | ok t => exact Cpu.returned_alarm halarm e t
        | error s => exact halarm
      · refine ⟨[e], Run.single ?_⟩
        rw [Cpu.final_map_sched _ _ (c.returned_sched e), Lib.Graph, schedStep, if_neg hp, hk', Option.map_some]

/-- **Every run of `Cpu` is a run of `Proc.Sched`.** -/
theorem cpu_run_sched {es : List CpuEvent} {c : Cpu} (hrun : Run (Graph cpuStep) cpuInit es c) :
    ∃ es', Run (Graph schedStep) schedInit es' c.sched := by
  have hboth : (∀ p, c.alarmTime p = 0) ∧ ∃ es', Run (Graph schedStep) schedInit es' c.sched := by
    induction hrun with
    | refl => exact ⟨fun _ => rfl, [], .refl⟩
    | tail _ hstep ih =>
      obtain ⟨halarm, es', hrun⟩ := ih
      obtain ⟨halarm', fs, hmore⟩ := cpuStep_sched halarm hstep
      exact ⟨halarm', es' ++ fs, hrun.trans hmore⟩
  exact hboth.2

/-! ## Places on the queue

The place of a process is what comes before it on its level. A push leaves it, and a choice of the first one lowers
it.
-/

/-- The level of the run queue that the processes of a user share. -/
def userLevel : Nat := 20

/-- `p` is on that level. -/
def Waits (L : Addr → List Addr) (p : Pid) : Prop := Addr.runNode p ∈ L (.runHead userLevel)

/-- How many processes are before `p` there. -/
def place (L : Addr → List Addr) (p : Pid) : Nat := (L (.runHead userLevel)).idxOf (.runNode p)

theorem Priorities.prio_eq {s : Sched} (h : Priorities s) (p : Pid) :
    s.prio p = if p = gIdleProc then schedPrioMax - 1 else userLevel := by
  by_cases hp : p = gIdleProc
  · rw [if_pos hp, hp, Sched.prio, h.1]
    rfl
  · rw [if_neg hp, Sched.prio, h.2 p hp]
    rfl

theorem Priorities.level_le {s : Sched} (h : Priorities s) (p : Pid) : userLevel ≤ s.prio p := by
  rw [h.prio_eq]
  split
  · decide
  · exact le_rfl

/-- Pushes leave everyone his place. -/
theorem Appends.place_eq {L L' : Addr → List Addr} (h : Appends L L') {p : Pid} (hp : Waits L p) :
    Waits L' p ∧ place L' p = place L p := by
  obtain ⟨l, hl⟩ := h userLevel
  rw [Waits, place, ← hl]
  exact ⟨List.mem_append_left _ hp, List.idxOf_append_of_mem hp⟩

/-- Where someone waits, the first of that level is the best. -/
theorem CoreInv.exists_bestFirst {s : Sched} {L : Addr → List Addr} (h : CoreInv s L) (hlevel : ∀ x, userLevel ≤ s.prio x)
    {p : Pid} (hp : Waits L p) : ∃ x ys, BestFirst L userLevel x ys := by
  obtain ⟨a, ys, hL⟩ := List.exists_cons_of_ne_nil (List.ne_nil_of_mem hp)
  obtain ⟨x, rfl, -⟩ := h.run_node userLevel (by decide) a (by rw [hL]; exact List.mem_cons_self)
  refine ⟨x, ys, by decide, fun j hj => ?_, hL⟩
  rw [List.eq_nil_iff_forall_not_mem]
  intro b hb
  obtain ⟨y, -, hy⟩ := h.run_node j (hj.trans (by decide)) b hb
  exact absurd (hlevel y) (by rw [hy]; exact Nat.not_le.mpr hj)

/-- `schedule()` takes the first, and the others move up. -/
theorem BestFirst.place_lt {L L' : Addr → List Addr} {x p : Pid} {ys : List Addr} (h : BestFirst L userLevel x ys)
    (happ : Appends (Function.update L (.runHead userLevel) ys) L') (hp : Waits L p) :
    x = p ∨ Waits L' p ∧ place L' p + 1 = place L p := by
  by_cases hx : x = p
  · exact .inl hx
  · have hne : Addr.runNode x ≠ .runNode p := fun he => hx (Addr.runNode.inj he)
    have hys : Waits (Function.update L (.runHead userLevel) ys) p := by
      rw [Waits, Function.update_self]
      rw [Waits, h.queue] at hp
      exact (List.mem_cons.mp hp).resolve_left (Ne.symm hne)
    obtain ⟨hp', heq⟩ := happ.place_eq hys
    refine .inr ⟨hp', ?_⟩
    rw [heq, place, place, Function.update_self, h.queue, List.idxOf_cons_ne _ hne]

/-! ## One step

Each event is one of three: nothing is chosen, the first process of the level is chosen, or the slice goes down by
one.
-/

/-- The invariant of the accounting: no slice is longer than a full one, and nobody has set an alarm. -/
structure CpuInv (c : Cpu) (L : Addr → List Addr) : Prop where
  core  : CoreInv c.sched L
  awake : Awake c.sched
  prios : Priorities c.sched
  slice : ∀ p, c.timeSlice p ≤ schedTimeslice
  alarm : ∀ p, c.alarmTime p = 0

/-- The timer interrupts that the running process can still see before `schedule()`. Within `proc_exit` there is none. -/
def Cpu.left (c : Cpu) : Nat :=
  if (c.sched.procs c.current).pc.exiting then 0 else max (c.timeSlice c.current) 1

/-- **The rank** of a process that waits: how many timer interrupts can come before it runs. -/
def Cpu.rank (c : Cpu) (L : Addr → List Addr) (p : Pid) : Nat := schedTimeslice * place L p + c.left

/-- Who waits after a step either runs, or waits at least `n` interrupts less. -/
def Nearer (c : Cpu) (L : Addr → List Addr) (d : Cpu) (L' : Addr → List Addr) (n : Nat) : Prop :=
  ∀ p, Waits L p → d.current = p ∨ Waits L' p ∧ d.rank L' p + n ≤ c.rank L p

section

variable {c d : Cpu} {L L' : Addr → List Addr}

theorem CpuInv.left_le (h : CpuInv c L) : c.left ≤ schedTimeslice := by
  have hslice := h.slice c.current
  have hfull : 1 ≤ schedTimeslice := by decide
  unfold Cpu.left
  split
  · exact Nat.zero_le _
  · exact max_le hslice hfull

/-- A slice that is left of a process that goes on. -/
theorem Cpu.left_mono (hslice : d.timeSlice d.current ≤ c.timeSlice c.current)
    (hpc : (c.sched.procs c.current).pc.exiting = true → (d.sched.procs d.current).pc.exiting = true) :
    d.left ≤ c.left := by
  unfold Cpu.left
  split
  · exact Nat.zero_le _
  next hd =>
    rw [if_neg fun he => hd (hpc he)]
    exact max_le_max hslice le_rfl

theorem Cpu.switched_slice_le (h : ∀ p, c.timeSlice p ≤ schedTimeslice) (t : Sched) (p : Pid) :
    (c.switched t).timeSlice p ≤ schedTimeslice := by
  unfold Cpu.switched
  split
  · exact h p
  · show Function.update c.timeSlice t.current schedTimeslice p ≤ _
    by_cases hp : p = t.current
    · rw [hp, Function.update_self]
    · rw [Function.update_of_ne hp]
      exact h p

/-! ## `schedule()` and the tail of an interrupt

Who waits is chosen, or comes nearer by one place and a full slice.
-/

/-- **`schedule()`**: who waits is next, or one place nearer. -/
theorem CpuInv.schedule (h : CpuInv c L) :
    ∃ d L', c.schedule = .ok d ∧ CpuInv d L' ∧
      ∀ p, Waits L p → d.current = p ∨ Waits L' p ∧ d.rank L' p ≤ schedTimeslice * place L p := by
  obtain ⟨t, L', hcode, hcore, -, -, hne, -, hserves⟩ := h.core.schedule
  have hquiet : ∀ p, (t.procs p).priority = (c.sched.procs p).priority := fun p => by
    have hq := (QuietPath.schedule (s := c.sched) p).priority
    rwa [hcode] at hq
  have hinv : CpuInv (c.switched t) L' := by
    refine ⟨?_, ?_, ?_, c.switched_slice_le h.slice t, by rw [c.switched_alarm]; exact h.alarm⟩
    · rw [c.switched_sched]
      exact hcore
    · rw [c.switched_sched]
      exact awake_of_ne hne
    · rw [c.switched_sched]
      exact ⟨(hquiet _).trans h.prios.1, fun p hp => (hquiet p).trans (h.prios.2 p hp)⟩
  refine ⟨c.switched t, L', by rw [Cpu.schedule, hcode]; rfl, hinv, fun p hp => ?_⟩
  obtain ⟨x, ys, hbest⟩ := h.core.exists_bestFirst h.prios.level_le hp
  obtain ⟨hcur, happ⟩ := hserves _ x ys hbest
  rcases hbest.place_lt happ hp with rfl | ⟨hp', hlt⟩
  · exact .inl (by rw [Cpu.current, c.switched_sched, hcur])
  · refine .inr ⟨hp', ?_⟩
    rw [Cpu.rank, ← hlt, Nat.mul_succ]
    exact Nat.add_le_add_left hinv.left_le _

theorem CpuInv.schedule_nearer (h : CpuInv c L) (n : Nat) (hn : n ≤ c.left) :
    ∃ d L', c.schedule = .ok d ∧ CpuInv d L' ∧ Nearer c L d L' n := by
  obtain ⟨d, L', hcode, hinv, hrank⟩ := h.schedule
  exact ⟨d, L', hcode, hinv, fun p hp => (hrank p hp).imp_right fun ⟨hp', hle⟩ => ⟨hp', Nat.add_le_add hle hn⟩⟩

/-- A step of the scheduler, whatever its accounting does beside. -/
theorem CpuInv.sched_step (h : CpuInv c L) {e : Event} (hstep : schedStep c.sched e = some d.sched)
    (hok : WakesOnce c.sched e) (hidle : IdleForksNot c.sched e) (hslice : ∀ p, d.timeSlice p ≤ schedTimeslice)
    (halarm : ∀ p, d.alarmTime p = 0)
    (hsame : d.current = c.current → d.timeSlice d.current ≤ c.timeSlice c.current) :
    ∃ L', CpuInv d L' ∧ Nearer c L d L' 0 := by
  obtain ⟨L', hcore, hawake, heff, -⟩ := h.core.step h.awake hstep hok
  have hinv : CpuInv d L' := ⟨hcore, hawake, h.prios.step hidle h.core.idle_lt hstep, hslice, halarm⟩
  refine ⟨L', hinv, fun p hp => ?_⟩
  cases heff with
  | stays hc happ hpc =>
    obtain ⟨hp', heq⟩ := happ.place_eq hp
    refine .inr ⟨hp', ?_⟩
    rw [Cpu.rank, heq]
    exact Nat.add_le_add_left (Cpu.left_mono (hsame hc) hpc) _
  | @switches s₁ L₁ h₁ hc hprio happ hserves =>
    obtain ⟨hp₁, heq⟩ := happ.place_eq hp
    obtain ⟨x, ys, hbest⟩ := h₁.exists_bestFirst (fun x => by rw [hprio]; exact h.prios.level_le x) hp₁
    obtain ⟨hcur, happ'⟩ := hserves _ x ys hbest
    rcases hbest.place_lt happ' hp₁ with rfl | ⟨hp', hlt⟩
    · exact .inl hcur
    · refine .inr ⟨hp', ?_⟩
      rw [Cpu.rank, Cpu.rank, ← heq, ← hlt, Nat.mul_succ]
      have hleft := hinv.left_le
      omega

/-- The accounting of an event of the scheduler. -/
theorem CpuInv.returned (h : CpuInv c L) (e : Event) (t : Sched) :
    (∀ p, (c.returned e t).timeSlice p ≤ schedTimeslice) ∧ (∀ p, (c.returned e t).alarmTime p = 0) ∧
    ((c.returned e t).current = c.current →
      (c.returned e t).timeSlice (c.returned e t).current ≤ c.timeSlice c.current) := by
  have hne : c.current ≠ c.sched.nprocs := Nat.ne_of_lt h.core.cur_lt
  refine ⟨?_, Cpu.returned_alarm h.alarm e t, fun hc => ?_⟩
  · unfold Cpu.returned
    split
    · refine Cpu.switched_slice_le (fun p => ?_) t
      show Function.update c.timeSlice c.sched.nprocs schedTimeslice p ≤ _
      by_cases hp : p = c.sched.nprocs
      · rw [hp, Function.update_self]
      · rw [Function.update_of_ne hp]
        exact h.slice p
    · exact Cpu.switched_slice_le h.slice t
  · rw [hc]
    rw [Cpu.current, Cpu.returned_sched] at hc
    unfold Cpu.returned
    split
    · rw [Cpu.switched, if_pos (show t.current = c.newChild.current from hc)]
      show Function.update c.timeSlice c.sched.nprocs schedTimeslice c.current ≤ _
      rw [Function.update_of_ne hne]
    · rw [Cpu.switched, if_pos hc]

/-- The tail of the interrupt calls `schedule()` where nothing is left of the slice. -/
theorem CpuInv.isrTail (h : CpuInv c L) :
    ∃ d L', c.isrTail = .ok d ∧ CpuInv d L' ∧
      ∀ p, Waits L p → d.current = p ∨ Waits L' p ∧ d.rank L' p ≤ schedTimeslice * place L p + c.timeSlice c.current := by
  unfold Cpu.isrTail
  split
  · obtain ⟨d, L', hcode, hinv, hrank⟩ := h.schedule
    exact ⟨d, L', hcode, hinv, fun p hp => (hrank p hp).imp_right fun ⟨hp', hle⟩ => ⟨hp', Nat.le_add_right_of_le hle⟩⟩
  next hne =>
    refine ⟨c, L, rfl, h, fun p hp => .inr ⟨hp, Nat.add_le_add_left ?_ _⟩⟩
    unfold Cpu.left
    split
    · exact Nat.zero_le _
    · exact max_le le_rfl (Nat.one_le_iff_ne_zero.mpr hne)

/-- **A timer interrupt** brings everyone who waits one interrupt nearer. -/
theorem CpuInv.timer (h : CpuInv c L) (huser : (c.sched.procs c.current).pc = .user) (sig : SigTail) :
    ∃ d L', c.timer sig = .ok d ∧ CpuInv d L' ∧ Nearer c L d L' 1 := by
  obtain ⟨u, hcode, hsched, hal, hleft, hle⟩ := Cpu.timerIrqHandler_eq h.alarm
  have hcur : u.current = c.current := by rw [Cpu.current, hsched]; rfl
  have hprocs : u.sched.procs = c.sched.procs := by rw [hsched]
  have hu : CpuInv u L := by
    refine ⟨?_, ?_, ?_, fun p => (hle p).trans (h.slice p), by rw [hal]; exact h.alarm⟩
    · rw [hsched]
      exact h.core.congr rfl rfl rfl rfl rfl rfl
    · rw [hsched]
      exact h.awake
    · rw [hsched]
      exact h.prios
  have hrun : c.timer sig = u.isrSignal sig := by
    simp only [Cpu.timer, hcode, bind, Except.bind]
  have hbefore : c.left = max (c.timeSlice c.current) 1 := if_neg (by rw [huser]; exact Bool.false_ne_true)
  rw [hrun]
  -- the slice of the running process is one shorter; what `signal_handle` makes of the process then
  cases sig with
  | returns =>
    obtain ⟨d, L', htail, hinv, hrank⟩ := hu.isrTail
    refine ⟨d, L', htail, hinv, fun p hp => (hrank p hp).imp_right (And.imp_right fun hle' => ?_)⟩
    rw [hleft] at hle'
    rw [Cpu.rank, Cpu.rank, hbefore]
    rw [Cpu.rank] at hle'
    omega
  | stops =>
    -- stopped: `schedule` chooses another process
    have hcurq : ¬ Queued L u.sched.current := fun hq => (hu.core.queued _ hq).2.1 rfl
    have hstopped : CpuInv { u with sched := u.sched.setState u.current .stopped } L := by
      refine ⟨hu.core.setState (fun hq => absurd hq hcurq) (by simp), awake_of_ne ?_, ?_, hu.slice, hu.alarm⟩
      · show ((u.sched.setState u.sched.current .stopped).procs u.sched.current).state ≠ .sleeping
        rw [Sched.setState, Sched.setProc_self]
        simp
      · have hsame : ∀ x, ((u.sched.setState u.current .stopped).procs x).priority = (u.sched.procs x).priority :=
          fun x => u.sched.setProc_field u.current x (·.priority) _ rfl
        exact ⟨(hsame _).trans hu.prios.1, fun x hx => (hsame x).trans (hu.prios.2 x hx)⟩
    obtain ⟨d, L', hstop, hinv, hrank⟩ := hstopped.schedule
    refine ⟨d, L', hstop, hinv, fun p hp => (hrank p hp).imp_right (And.imp_right fun hle' => ?_)⟩
    show _ ≤ schedTimeslice * place L p + c.left
    rw [hbefore]
    omega
  | exits =>
    -- killed: nothing is left of its slice, and it goes on inside `proc_exit`
    have hcurq : ¬ Queued L u.sched.current := fun hq => (hu.core.queued _ hq).2.1 rfl
    have hzombie : CoreInv (u.sched.setState u.current .zombie) L := hu.core.setState (fun hq => absurd hq hcurq) (by simp)
    have hwaiting : ((u.sched.setState u.current .zombie).procs u.current).pc.waiting = none := by
      have hpc : ((u.sched.setState u.current .zombie).procs u.current).pc = .user := by
        rw [Sched.setState, u.sched.setProc_field u.current u.current (·.pc) _ rfl, hprocs, hcur, huser]
      rw [hpc]
      rfl
    have hexit : (((u.sched.setState u.current .zombie).setPc u.current .exitFiles).procs u.current).pc = .exitFiles := by
      rw [Sched.setPc, Sched.setProc_self]
    refine ⟨{ u with sched := (u.sched.setState u.current .zombie).setPc u.current .exitFiles }, L, rfl,
      ⟨(hzombie.setPcCur .exitFiles hwaiting rfl).1, awake_of_ne ?_, ?_, hu.slice, hu.alarm⟩, fun p hp => .inr ⟨hp, ?_⟩⟩
    · show (((u.sched.setState u.current .zombie).setPc u.current .exitFiles).procs u.current).state ≠ .sleeping
      rw [Sched.setPc, Sched.setProc_self, Sched.setState, Sched.setProc_self]
      simp
    · have hsame : ∀ x, (((u.sched.setState u.current .zombie).setPc u.current .exitFiles).procs x).priority =
          (u.sched.procs x).priority := fun x =>
        ((u.sched.setState u.current .zombie).setProc_field u.current x (·.priority) _ rfl).trans
          (u.sched.setProc_field u.current x (·.priority) _ rfl)
      exact ⟨(hsame _).trans hu.prios.1, fun x hx => (hsame x).trans (hu.prios.2 x hx)⟩
    · have hzero : Cpu.left { u with sched := (u.sched.setState u.current .zombie).setPc u.current .exitFiles } = 0 :=
        if_pos (by
          show (((u.sched.setState u.current .zombie).setPc u.current .exitFiles).procs u.current).pc.exiting = true
          rw [hexit]
          rfl)
      rw [Cpu.rank, Cpu.rank, hzero, hbefore]
      omega

/-! ## Every event

No event raises a rank.
-/

/-- **One step** raises no rank, and a timer interrupt lowers them all. -/
theorem CpuInv.step (h : CpuInv c L) {e : CpuEvent} (hs : cpuStep c e = some d) (hok : c.WakesOnce e) :
    ∃ L', CpuInv d L' ∧ Nearer c L d L' (timers [e]) := by
  unfold cpuStep at hs
  split at hs
  · cases hs
  next hpanic =>
    obtain ⟨k, hk, rfl⟩ := Option.map_eq_some_iff.mp hs
    cases e with
    | timer sig =>
      obtain ⟨huser, hk⟩ := Option.ite_none_right_eq_some.mp hk
      obtain rfl := Option.some.inj hk
      obtain ⟨u, L', hcode, hinv, hnear⟩ := h.timer huser sig
      rw [hcode]
      exact ⟨L', hinv, hnear⟩
    | yield =>
      obtain ⟨huser, hk⟩ := Option.ite_none_right_eq_some.mp hk
      obtain rfl := Option.some.inj hk
      have hzero : CpuInv { c with timeSlice := Function.update c.timeSlice c.current 0 } L := by
        refine ⟨h.core, h.awake, h.prios, fun p => ?_, h.alarm⟩
        show Function.update c.timeSlice c.current 0 p ≤ _
        by_cases hp : p = c.current
        · rw [hp, Function.update_self]
          exact Nat.zero_le _
        · rw [Function.update_of_ne hp]
          exact h.slice p
      obtain ⟨u, L', hcode, hinv, hrank⟩ := hzero.schedule
      rw [Cpu.schedYield, hcode]
      exact ⟨L', hinv, fun p hp => (hrank p hp).imp_right fun ⟨hp', hle⟩ => ⟨hp', Nat.le_add_right_of_le hle⟩⟩
    | call e =>
      obtain ⟨-, hk⟩ := Option.ite_none_left_eq_some.mp hk
      obtain ⟨k', hk', rfl⟩ := Option.map_eq_some_iff.mp hk
      have hstep : schedStep c.sched e = some (c.final (k'.map (c.returned e))).sched := by
        rw [Cpu.final_map_sched _ _ (c.returned_sched e), schedStep, if_neg hpanic, hk', Option.map_some]
      cases k' with
      | ok t =>
        obtain ⟨hslice, halarm, hsame⟩ := h.returned e t
        exact h.sched_step hstep hok.1 hok.2 hslice halarm hsame
      | error t => exact h.sched_step hstep hok.1 hok.2 h.slice h.alarm fun hc => by rw [hc]; exact le_rfl

theorem timers_append (es fs : List CpuEvent) : timers (es ++ fs) = timers es + timers fs :=
  List.countP_append

/-- Any number of steps. -/
theorem CpuInv.run {es : List CpuEvent} (hrun : Run (Guarded Cpu.WakesOnce (Graph cpuStep)) c es d) (h : CpuInv c L) :
    ∃ L', CpuInv d L' ∧ ∀ p, Waits L p →
      (∃ fs gs u, es = fs ++ gs ∧ Run (Graph cpuStep) c fs u ∧ u.current = p) ∨
        Waits L' p ∧ d.rank L' p + timers es ≤ c.rank L p := by
  induction hrun with
  | refl => exact ⟨L, h, fun p hp => .inr ⟨hp, le_rfl⟩⟩
  | @tail d u es e hes hstep ih =>
    obtain ⟨L₁, h₁, hnear₁⟩ := ih
    obtain ⟨L₂, h₂, hnear₂⟩ := h₁.step hstep.2 hstep.1
    refine ⟨L₂, h₂, fun p hp => ?_⟩
    rcases hnear₁ p hp with ⟨fs, gs, w, rfl, hw, hcur⟩ | ⟨hq, hle⟩
    · exact .inl ⟨fs, gs ++ [e], w, List.append_assoc .., hw, hcur⟩
    · rcases hnear₂ p hq with hcur | ⟨hq', hle'⟩
      · exact .inl ⟨es ++ [e], [], u, (List.append_nil _).symm, (hes.mono fun _ _ _ hs => hs.2).tail hstep.2, hcur⟩
      · refine .inr ⟨hq', ?_⟩
        rw [timers_append]
        omega

end

/-! ## Bounded waiting

The induction over the run, with the bound in terms of the processes that came before.
-/

theorem cpuInv_init : CpuInv cpuInit (fun _ => []) where
  core  := coreInv_schedInit.1
  awake := coreInv_schedInit.2
  prios := by
    refine ⟨rfl, fun p hp => ?_⟩
    show (schedInit.procs p).priority = 20
    simp only [schedInit, hp, if_false]
    split <;> rfl
  slice _ := le_rfl
  alarm _ := rfl

/-- The place of a process is the number of processes that came before it. -/
theorem CpuInv.place_eq {c : Cpu} {L : Addr → List Addr} (h : CpuInv c L) {p : Pid} {k : Nat} (hp : p ≠ gIdleProc)
    (hk : c.WaitsBehind p k) : Waits L p ∧ place L p = k := by
  have hlevel : c.sched.prio p = userLevel := by rw [h.prios.prio_eq, if_neg hp]
  have hhead : IsHead (.runHead userLevel) := show userLevel < schedPrioMax by decide
  rw [Cpu.WaitsBehind, hlevel, h.core.lists.traverse_eq hhead, List.getElem?_take_of_lt (Nat.lt_succ_self k)] at hk
  obtain ⟨hi, hget⟩ := List.getElem?_eq_some_iff.mp hk
  have hidx : (L (.runHead userLevel)).idxOf ((L (.runHead userLevel))[k]) = k :=
    (h.core.lists.nodup _ hhead).idxOf_getElem k hi
  rw [hget] at hidx
  refine ⟨?_, hidx⟩
  rw [Waits, ← hget]
  exact List.getElem_mem hi

/-- A step that the timer can always make while the running process computes, and after it as well. -/
theorem CpuInv.interrupt {c : Cpu} {L : Addr → List Addr} (h : CpuInv c L) (hpanic : c.sched.panicked = false)
    (huser : ∀ p < c.sched.nprocs, (c.sched.procs p).pc = .user) :
    ∃ d L', cpuStep c (.timer .returns) = some d ∧ CpuInv d L' ∧ d.sched.panicked = false ∧
      ∀ p < d.sched.nprocs, (d.sched.procs p).pc = .user := by
  have hcur : (c.sched.procs c.current).pc = .user := huser _ h.core.cur_lt
  obtain ⟨d, L', hcode, hinv, -⟩ := h.timer hcur .returns
  refine ⟨d, L', ?_, hinv, ?_⟩
  · rw [cpuStep, if_neg (by rw [hpanic]; exact Bool.false_ne_true), Cpu.path, if_pos hcur, hcode]
    rfl
  · obtain ⟨u, hirq, hsched, -⟩ := Cpu.timerIrqHandler_eq h.alarm
    have hu : CoreInv u.sched L := by
      rw [hsched]
      exact h.core.congr rfl rfl rfl rfl rfl rfl
    have htail : u.isrTail = .ok d := by
      rw [← hcode]
      simp only [Cpu.timer, hirq, bind, Except.bind, Cpu.isrSignal]
    unfold Cpu.isrTail at htail
    split at htail
    · obtain ⟨t, L₁, hrun, -, hsame, hn, -, hpc, -⟩ := hu.schedule
      rw [Cpu.schedule, hrun] at htail
      obtain rfl := Except.ok.inj htail
      rw [u.switched_sched, hsame.panicked, hsched]
      refine ⟨hpanic, fun p hp => ?_⟩
      rw [hn, hsched] at hp
      rw [hpc, hsched]
      exact huser p hp
    · obtain rfl := Except.ok.inj htail
      rw [hsched]
      exact ⟨hpanic, huser⟩

theorem CpuInv.interrupts {c : Cpu} {L : Addr → List Addr} (h : CpuInv c L) (hpanic : c.sched.panicked = false)
    (huser : ∀ p < c.sched.nprocs, (c.sched.procs p).pc = .user) (n : Nat) :
    ∃ d, Run (Graph cpuStep) c (List.replicate n (.timer .returns)) d := by
  have hrun : ∃ d L', Run (Graph cpuStep) c (List.replicate n (.timer .returns)) d ∧ CpuInv d L' ∧
      d.sched.panicked = false ∧ ∀ p < d.sched.nprocs, (d.sched.procs p).pc = .user := by
    induction n with
    | zero => exact ⟨c, L, .refl, h, hpanic, huser⟩
    | succ n ih =>
      obtain ⟨d, L', hrun, hinv, hp, hu⟩ := ih
      obtain ⟨u, L₂, hstep, hinv₂, hp₂, hu₂⟩ := hinv.interrupt hp hu
      refine ⟨u, L₂, ?_, hinv₂, hp₂, hu₂⟩
      rw [List.replicate_succ']
      exact hrun.tail hstep
  obtain ⟨d, -, hrun, -⟩ := hrun
  exact ⟨d, hrun⟩

end MyUnix.Proc
