import MyUnix.Lib.LinkedList

/-!
# `Proc.Sched` — run queues, wait queues, sleeping and waking

The scheduler of `sched.c` with the sleep, signal and exit paths of `process.c`, at the level of its list
pointers: a run queue is the ring through `run_list` of its processes, a wait queue the ring through the
`wait_queue_node`s that `wq_wait` keeps on the kernel stack of each waiter.

A system call runs with interrupts off (`FMASK` clears IF, every gate is an interrupt gate), so kernel code
is interrupted only where it calls `schedule()`. A step is what the running process does up to that point;
`Pc` is where it stands in kernel code, and `resume` takes it on from there. A list operation through a
null link is a kernel page fault, and the machine stops (`panicked`).

`unlinks` records, for the statements only, every `list_del` of a wait-queue node.

Kernel stacks are not modelled here. What a process is to do when it runs again is its `Pc`, which has one value for
each place of the kernel at which `schedule()` is called, with the values that the rest of the function still needs.
`Proc.SwitchStack` shows what the assembly does to the stacks.

The number of a wait-queue node tells two waits of one process apart, since the node of the second one may lie at the
same place. The record `unlinks` is written by the model and read by no function of it.
-/

namespace MyUnix.Proc

open Lib

/-- A process, by its number. -/
abbrev Pid := Nat

/-- A wait queue: the `wait_child` of a process, or another one (a pipe's). -/
inductive Wq where
  | child (p : Pid)
  | other (n : Nat)
deriving DecidableEq

/-- The `list_head`s of the scheduler. -/
inductive Addr where
  | wqHead (q : Wq)
  | wqNode (p : Pid)
  | runHead (prio : Nat)
  | runNode (p : Pid)
deriving DecidableEq

/-- `proc_state_t`. -/
inductive ProcState where
  | created
  | running
  | ready
  | sleeping
  | stopped
  | zombie
  | dead
deriving DecidableEq

/-- Who called `wq_wait`: `proc_sleep` has more to do after it returns. -/
inductive Caller where
  | direct
  | procSleep
deriving DecidableEq

/-- Where a process stands. `node` numbers the `wait_queue_node` of the frame. -/
inductive Pc where
  /-- In user mode, or about to enter the kernel. -/
  | user
  /-- In `wq_wait`, after its `schedule()`. -/
  | wait (q : Wq) (node : Nat) (caller : Caller)
  /-- At the loop head of `wq_wait_timeout`. -/
  | waitTimeout (q : Wq) (node : Nat) (deadline : Nat) (caller : Caller)
  /-- In `proc_exit`, closing files. -/
  | exitFiles
  /-- In `proc_exit`, before `wq_wake_all(parent->wait_child)`. -/
  | exitWake (parent : Pid)
  /-- In `proc_exit`, before `sched_remove`. -/
  | exitRemove
  /-- In `proc_exit`, after its `schedule()`. -/
  | halted
deriving DecidableEq

/-- A process that is within `proc_exit`. -/
def Pc.exiting : Pc → Bool
  | .exitFiles | .exitWake _ | .exitRemove | .halted => true
  | _ => false

/-- The queue a process has its node on, and the number of the node. -/
def Pc.waiting : Pc → Option (Wq × Nat)
  | .wait q node _ => some (q, node)
  | .waitTimeout q node _ _ => some (q, node)
  | _ => none

/-- The part of `process_t` that scheduling reads. -/
structure Process where
  state       : ProcState
  priority    : Int
  waitChannel : Option Wq
  parent      : Option Pid
  sigPending  : BitVec 64
  pc          : Pc

/-- One `list_del` of a wait-queue node, and whether the node was on its queue. -/
structure Unlink where
  node   : Nat
  linked : Bool
deriving DecidableEq

/-- The scheduler: the lists, the processes, and what the run queues keep beside them. -/
structure Sched where
  mem      : ListMem Addr
  procs    : Pid → Process
  nprocs   : Nat
  current  : Pid
  bitmap   : BitVec 64
  total    : Nat
  ticks    : Nat
  panicked : Bool
  nnodes   : Nat
  unlinks  : List Unlink

/-- `g_idle_proc`. -/
def gIdleProc : Pid := 0

/-- `g_init_proc`. -/
def gInitProc : Pid := 1

/-- `SCHED_PRIO_MAX`. -/
def schedPrioMax : Nat := 40

/-- `HZ`. -/
def hz : Nat := 1000

/-- `SIGCHLD`. -/
def sigchld : Nat := 17

/-- `NSIG`. -/
def nsig : Nat := 64

/-- A kernel path: the state it leaves, or the one the machine stops in. -/
abbrev Kernel (β : Type) := Except Sched β

namespace Sched

variable (s : Sched)

/-- A kernel-mode page fault. -/
def fault {β : Type} : Kernel β := .error { s with panicked := true }

/-- A field of `p` is changed. -/
def setProc (p : Pid) (f : Process → Process) : Sched :=
  { s with procs := Function.update s.procs p (f (s.procs p)) }

/-- `p->state = st`. -/
def setState (p : Pid) (st : ProcState) : Sched := s.setProc p fun x => { x with state := st }

/-- Where `p` goes on. -/
def setPc (p : Pid) (pc : Pc) : Sched := s.setProc p fun x => { x with pc := pc }

/-- `p->wait_channel = q`. -/
def setWaitChannel (p : Pid) (q : Option Wq) : Sched :=
  s.setProc p fun x => { x with waitChannel := q }

/-- Run a list operation; a null link faults. -/
def withMem (m : Option (ListMem Addr)) : Kernel Sched :=
  match m with
  | some m => .ok { s with mem := m }
  | none => s.fault

/-! ## Run queues

Forty rings, a bitmap and a counter. A push does not look whether the process is queued already.
-/

/-- The queue of a process: its priority, clamped to the levels there are. -/
def prio (p : Pid) : Nat :=
  let prio := (s.procs p).priority
  if prio < 0 then 0 else if (schedPrioMax : Int) ≤ prio then schedPrioMax - 1 else prio.toNat

/-- `runq_push`: at the end of the queue of its priority. -/
def runqPush (p : Pid) : Kernel Sched := do
  let s ← s.withMem (s.mem.addTail (.runNode p) (.runHead (s.prio p)))
  pure { s with bitmap := s.bitmap ||| BitVec.twoPow 64 (s.prio p), total := s.total + 1 }

/-- Clear the bitmap bit of an empty queue. -/
def clearIfEmpty (prio : Nat) : Sched :=
  if s.mem.isEmpty (.runHead prio) then { s with bitmap := s.bitmap &&& ~~~(BitVec.twoPow 64 prio) } else s

/-- `runq_pop_best`: the first of the best queue that is not empty. -/
def runqPopBest : Kernel (Option Pid × Sched) :=
  if s.total = 0 then .ok (none, s)
  else
    -- the lowest bit is the best priority
    let prio := (BitVec.ctz s.bitmap).toNat
    if schedPrioMax ≤ prio then .ok (none, s)
    -- a bit without a process is cleared, and nobody is chosen
    else if s.mem.isEmpty (.runHead prio) then .ok (none, s.clearIfEmpty prio)
    else match s.mem.next (.runHead prio) with
      | some (.runNode p) => do
        let s ← s.withMem (s.mem.del (.runNode p))
        let s : Sched := { s with mem := s.mem.init (.runNode p) }
        let s := s.clearIfEmpty prio
        pure (some p, { s with total := s.total - 1 })
      | _ => s.fault

/-- `runq_remove`. -/
def runqRemove (p : Pid) : Kernel Sched := do
  if s.mem.isEmpty (.runNode p) then pure s
  else
    let s ← s.withMem (s.mem.del (.runNode p))
    let s : Sched := { s with mem := s.mem.init (.runNode p), total := s.total - 1 }
    let prio := (s.procs p).priority
    if 0 ≤ prio ∧ prio < (schedPrioMax : Int) then pure (s.clearIfEmpty prio.toNat) else pure s

/-- `sched_add`. -/
def schedAdd (p : Pid) : Kernel Sched :=
  if (s.procs p).state = .ready ∨ (s.procs p).state = .running then s.runqPush p else .ok s

/-- The choice of `schedule()`: the best process of the run queues, else the idle process. The caller is
    put back on its queue if it could go on running. -/
def schedule : Kernel Sched := do
  let prev := s.current
  let (next, s) ← s.runqPopBest
  let next := next.getD gIdleProc
  if next = prev then pure s
  else
    let s := s.setState next .running
    let s ← if (s.procs prev).state = .running then (s.setState prev .ready).runqPush prev else pure s
    pure { s with current := next }

/-! ## Wait queues

A waiter puts its node on the queue, sleeps, and unlinks the node itself when it runs again. Whoever wakes it has
unlinked it, too.
-/

/-- `get_time_ms`. -/
def getTimeMs : Nat := s.ticks * (1000 / hz) % 2 ^ 64

/-- `list_del` of the wait-queue node of `p`, number `node`, that was put on `q`. -/
def delNode (p : Pid) (q : Wq) (node : Nat) : Kernel Sched :=
  let linked := decide (Addr.wqNode p ∈ s.mem.traverse (.wqHead q) s.nprocs)
  let s : Sched := { s with unlinks := s.unlinks ++ [⟨node, linked⟩] }
  s.withMem (s.mem.del (.wqNode p))

/-- The number of the node a process has on its stack. -/
def nodeOf (p : Pid) : Nat := ((s.procs p).pc.waiting.map Prod.snd).getD 0

/-- The first half of `wq_wait` and `wq_wait_timeout`: put a node on the queue, become SLEEPING. `pc` is
    where the process stands then. -/
def enqueue (q : Wq) (pc : Pc) : Kernel Sched := do
  let cur := s.current
  let s : Sched := { s with mem := s.mem.init (.wqNode cur), nnodes := s.nnodes + 1 }
  let s ← s.withMem (s.mem.addTail (.wqNode cur) (.wqHead q))
  pure ((s.setState cur .sleeping).setPc cur pc)

/-- What `proc_sleep` does before it waits. -/
def beginSleep (q : Wq) : Caller → Sched
  | .direct => s
  | .procSleep => (s.setState s.current .sleeping).setWaitChannel s.current (some q)

/-- What `proc_sleep` does after the wait has returned. -/
def endSleep : Caller → Sched
  | .direct => s
  | .procSleep => (s.setWaitChannel s.current none).setState s.current .running

/-- `wq_wait` up to its `schedule()` and through it. -/
def wqWait (q : Wq) (caller : Caller) : Kernel Sched := do
  let s ← (s.beginSleep q caller).enqueue q (.wait q s.nnodes caller)
  s.schedule

/-- `wq_wait_timeout` up to its loop. -/
def wqWaitTimeout (q : Wq) (ms : Nat) (caller : Caller) : Kernel Sched :=
  (s.beginSleep q caller).enqueue q
    (.waitTimeout q s.nnodes ((s.getTimeMs + ms) % 2 ^ 64) caller)

/-- The rest of `wq_wait`: unlink the own node. -/
def wqWaitEnd (q : Wq) (node : Nat) (caller : Caller) : Kernel Sched := do
  let s ← s.delNode s.current q node
  pure ((s.endSleep caller).setPc s.current .user)

/-- The loop of `wq_wait_timeout` up to its next `schedule()` or its end. -/
def wqWaitTimeoutLoop (q : Wq) (node deadline : Nat) (caller : Caller) : Kernel Sched :=
  if (s.procs s.current).state = .sleeping then
    if deadline ≤ s.getTimeMs then do
      let s ← s.delNode s.current q node
      pure (((s.setState s.current .running).endSleep caller).setPc s.current .user)
    else s.schedule
  else s.wqWaitEnd q node caller

/-- What both wake functions do with a node: unlink it, make its process READY, put it on a run queue. -/
def wakeNode (p : Pid) (q : Wq) : Kernel Sched := do
  let s ← s.delNode p q (s.nodeOf p)
  (s.setState p .ready).schedAdd p

/-- `wq_wake_one`. -/
def wqWakeOne (q : Wq) : Kernel Sched :=
  if s.mem.isEmpty (.wqHead q) then .ok s
  else match s.mem.next (.wqHead q) with
    | some (.wqNode p) => s.wakeNode p q
    | _ => s.fault

/-- The loop of `wq_wake_all` from `pos`, with `n` the node after it. -/
def wqWakeAllFrom (q : Wq) : Nat → Sched → Option Addr → Option Addr → Kernel Sched
  | 0,        s, _,   _ => s.fault
  | fuel + 1, s, pos, n =>
      if pos = some (.wqHead q) then .ok s
      else match pos with
        | some (.wqNode p) => do
          let s ← s.wakeNode p q
          wqWakeAllFrom q fuel s n (n.bind s.mem.next)
        | _ => s.fault

/-- A process waits on one queue at a time, so the loop has at most one turn for each process. -/
def wqWakeAll (q : Wq) : Kernel Sched :=
  let pos := s.mem.next (.wqHead q)
  wqWakeAllFrom q (s.nprocs + 1) s pos (pos.bind s.mem.next)

/-! ## Waking, signals, fork, exit

`proc_wake` wakes the first waiter of the channel that its process sleeps on and then pushes the process; `proc_exit`
signals the parent and then wakes everyone on its `wait_child`.
-/

/-- `proc_wake`. -/
def procWake (p : Pid) : Kernel Sched :=
  if (s.procs p).state = .sleeping then do
    let s := s.setState p .ready
    let s ← match (s.procs p).waitChannel with
      | some q => s.wqWakeOne q
      | none => pure s
    s.schedAdd p
  else .ok s

/-- `signal_send`. -/
def signalSend (target : Pid) (signo : Nat) : Kernel Sched :=
  if signo = 0 ∨ nsig < signo then .ok s
  else if (s.procs target).state = .zombie ∨ (s.procs target).state = .dead then .ok s
  else
    let s := s.setProc target fun x =>
      { x with sigPending := x.sigPending ||| BitVec.twoPow 64 (signo - 1) }
    -- whatever the process sleeps for, and also if the signal is blocked
    if (s.procs target).state = .sleeping then s.procWake target else .ok s

/-- The child that `proc_fork` makes. -/
def forkedProc : Process :=
  { state := .created, priority := (s.procs s.current).priority, waitChannel := none,
    parent := some s.current, sigPending := 0#64, pc := .user }

/-- `proc_fork`, then `state = PROC_READY` and `sched_add` as in `sys_fork`. -/
def fork : Kernel Sched :=
  let child := s.nprocs
  let s := { s with
    mem := s.mem.init (.runNode child), nprocs := s.nprocs + 1,
    procs := Function.update s.procs child s.forkedProc }
  (s.setState child .ready).schedAdd child

/-- The children of an exiting process go to init. -/
def reparent : Sched :=
  if s.current = gInitProc then s
  else { s with procs := fun p =>
    if (s.procs p).parent = some s.current then { s.procs p with parent := some gInitProc } else s.procs p }

/-- The middle of `proc_exit`: reparent the children, send SIGCHLD. -/
def exitSignal : Kernel Sched :=
  let s := s.reparent
  match (s.procs s.current).parent with
  | none => .ok (s.setPc s.current .exitRemove)
  | some parent => (s.setPc s.current (.exitWake parent)).signalSend parent sigchld

/-- The part of `proc_exit` that wakes the parent. -/
def exitWake (parent : Pid) : Kernel Sched :=
  (s.setPc s.current .exitRemove).wqWakeAll (.child parent)

/-- The end of `proc_exit`: the process leaves the run queues and the processor. -/
def exitRemove : Kernel Sched := do
  let s ← (s.setPc s.current .halted).runqRemove s.current
  s.schedule

/-- Continue the kernel path the running process is in. -/
def resume : Option (Kernel Sched) :=
  match (s.procs s.current).pc with
  | .user => none
  | .wait q node caller => some (s.wqWaitEnd q node caller)
  | .waitTimeout q node deadline caller => some (s.wqWaitTimeoutLoop q node deadline caller)
  | .exitFiles => some s.exitSignal
  | .exitWake parent => some (s.exitWake parent)
  | .exitRemove => some s.exitRemove
  | .halted => none

end Sched

/-! ## Steps

Each event is a kernel path that runs up to the next `schedule()`. The idle process only waits for interrupts.
-/

/-- What the running process does next, or an interrupt in its user mode. -/
inductive Event where
  | schedule
  | tick
  | fork
  | wqWait (q : Wq) (caller : Caller)
  | wqWaitTimeout (q : Wq) (ms : Nat) (caller : Caller)
  | wqWakeOne (q : Wq)
  | wqWakeAll (q : Wq)
  | signalSend (target : Pid) (signo : Nat)
  /-- The default action of SIGSTOP, SIGTSTP, SIGTTIN and SIGTTOU in `signal_handle`. -/
  | sigStop
  | exit
  | resume
deriving DecidableEq

/-- The kernel path a process in user mode enters. The idle process runs `idle_thread`, which never waits. -/
def Sched.entry (s : Sched) : Event → Option (Kernel Sched)
  | .schedule => some s.schedule
  | .tick => some (.ok { s with ticks := (s.ticks + 1) % 2 ^ 64 })
  | .fork => some s.fork
  | .wqWait q caller => if s.current = gIdleProc then none else some (s.wqWait q caller)
  | .wqWaitTimeout q ms caller => if s.current = gIdleProc then none else some (s.wqWaitTimeout q ms caller)
  | .wqWakeOne q => some (s.wqWakeOne q)
  | .wqWakeAll q => some (s.wqWakeAll q)
  | .signalSend target signo => if target < s.nprocs then some (s.signalSend target signo) else none
  | .sigStop => some (s.setState s.current .stopped).schedule
  | .exit => some (.ok ((s.setState s.current .zombie).setPc s.current .exitFiles))
  | .resume => none

/-- The kernel path of an event, where the running process can take it. Closing a file in `proc_exit` may
    come to `wq_wake_all` on the queues of a pipe. -/
def Sched.path (s : Sched) (e : Event) : Option (Kernel Sched) :=
  match (s.procs s.current).pc, e with
  | .user, e => s.entry e
  | .exitFiles, .wqWakeAll q => some (s.wqWakeAll q)
  | _, .resume => s.resume
  | _, _ => none

/-- The state a kernel path ends in, whether it gets through or stops the machine. -/
def Sched.final : Kernel Sched → Sched
  | .ok s => s
  | .error s => s

/-- One step of the system. A stopped machine takes none. -/
def schedStep (s : Sched) (e : Event) : Option Sched :=
  if s.panicked then none else (s.path e).map Sched.final

/-- `proc_create`. -/
def createdProc : Process :=
  { state := .created, priority := 20, waitChannel := none, parent := none, sigPending := 0#64, pc := .user }

/-- After `sched_init` and the start of init: every list head is a ring of its own, the idle process is
    READY on no queue, init runs. -/
def schedInit : Sched where
  mem := ⟨some, some⟩
  procs p :=
    if p = gIdleProc then { createdProc with priority := (schedPrioMax : Int) - 1, state := .ready }
    else if p = gInitProc then { createdProc with state := .running }
    else createdProc
  nprocs := 2
  current := gInitProc
  bitmap := 0#64
  total := 0
  ticks := 0
  panicked := false
  nnodes := 0
  unlinks := []

end MyUnix.Proc
