import MyUnix.Kernel.Errno
import MyUnix.Lib.LinkedList
import MyUnix.Lib.Run
import MyUnix.Proc.Sched

/-!
# `Proc.ProcTable` — processes, their pids and their children

`proc_create`, `proc_fork`, `proc_exit`, `proc_wait` and `proc_destroy` of `process.c` on what ties processes to each
other: the `children` list of each process, threaded through the `sibling` nodes of its children, the list of all
processes, and the table from pids to processes. A process is the address of its `process_t`; an address is free again
after `kfree`, and `kzalloc` may hand it out for the next child.

`serial`, `forked`, `births` and `reaped` are for the statements only: they number the processes ever made and say
which of them were reaped.

Lists are lists of `list_head`s, so a process is on the list of its parent through its own `sibling` node, and a call
that unlinks a node twice or walks through a null link is a fault (`none`). An address that was freed may be given out
again, which is why the state keeps the set of processes in use and why `kzalloc` is part of the event: a fork gets
some free address, or none.

A call is one step here; the files that `proc_exit` closes are left out. What the allocators answer is in `MakeEnv`,
one answer for each thing that can be missing, so each failure path of `proc_create` is a step.
-/

namespace MyUnix.Proc

open Lib

/-- The address of a `process_t`. -/
abbrev ProcPtr := Nat

/-- The `list_head`s of the process tree. -/
inductive TreeAddr where
  | allProcs
  | allList (p : ProcPtr)
  | children (p : ProcPtr)
  | sibling (p : ProcPtr)
deriving DecidableEq

/-- The part of `process_t` that the process tree reads. -/
structure ProcRec where
  pid      : Nat
  ppid     : Nat
  pgid     : Nat
  parent   : Option ProcPtr
  state    : ProcState
  exitCode : Nat
  serial   : Nat
  forked   : Bool

/-- The processes and the lists they are in, the table of pids, and the processes in use. -/
structure ProcSys where
  mem       : ListMem TreeAddr
  procs     : ProcPtr → ProcRec
  live      : ProcPtr → Bool
  pidTable  : Nat → Option ProcPtr
  nextPid   : Nat
  initProc  : Option ProcPtr
  idleProc  : Option ProcPtr
  births    : Nat
  reaped    : List Nat

/-- What the allocators answer while a process is made: `kzalloc` of the record, and whether the address space, the
    kernel stack and the descriptor table could be had. -/
structure MakeEnv where
  addr  : Option ProcPtr
  space : Bool
  stack : Bool
  fds   : Bool

namespace ProcSys

variable (s : ProcSys)

/-- A field of `p` is changed. -/
def setProc (p : ProcPtr) (f : ProcRec → ProcRec) : ProcSys :=
  { s with procs := Function.update s.procs p (f (s.procs p)) }

/-- Run a list operation; a null link is a page fault. -/
def withMem (m : Option (ListMem TreeAddr)) : Option ProcSys := m.map fun m => { s with mem := m }

/-! ## Pids

The table is a function from pids to processes and `g_next_pid` a number. `pid_alloc` searches from it once around the
table.
-/

/-- The loop of `pid_alloc` from `g_next_pid = next`: the pid, if there is one, and the new `g_next_pid`. -/
def pidSearch (table : Nat → Option ProcPtr) (start : Nat) : Nat → Nat → Option (Option Nat × Nat)
  | 0,        _    => none
  | fuel + 1, next =>
    let next := if pidMax ≤ next then 2 else next
    if table next = none then some (some next, next + 1)
    else if next + 1 = start then some (none, next + 1)
    else pidSearch table start fuel (next + 1)

/-- `pid_alloc`: the next free pid, searched for from the last one on. -/
def pidAlloc : Option (Option Nat × ProcSys) := do
  let (pid, next) ← pidSearch s.pidTable s.nextPid pidMax s.nextPid
  pure (pid, { s with nextPid := next })

/-- `pid_free`. -/
def pidFree (pid : Nat) : ProcSys :=
  if pid = 0 ∨ pidMax ≤ pid then s else { s with pidTable := Function.update s.pidTable pid none }

/-- `pid_to_proc`. -/
def pidToProc (pid : Nat) : Option ProcPtr := if pid = 0 ∨ pidMax ≤ pid then none else s.pidTable pid

/-! ## Making processes

A record with its list heads initialised is entered in the table and in the list of all processes; a fork also puts it
last on the children list of its parent.
-/

/-- The record of a new process at `c`, with its list heads initialised. -/
def newProc (c : ProcPtr) (r : ProcRec) : ProcSys :=
  { s with
    mem := ((s.mem.init (.sibling c)).init (.children c)).init (.allList c)
    procs := Function.update s.procs c { r with serial := s.births }
    live := Function.update s.live c true
    births := s.births + 1 }

/-- Enter a process in the pid table and in the list of all processes. -/
def install (c : ProcPtr) : Option ProcSys :=
  let s : ProcSys := { s with pidTable := Function.update s.pidTable (s.procs c).pid (some c) }
  s.withMem (s.mem.addTail (.allList c) .allProcs)

/-- `proc_create`. -/
def procCreate (env : MakeEnv) : Option (Option ProcPtr × ProcSys) :=
  match env.addr with
  | none => some (none, s)
  | some c => do
    let (pid, s) ← s.pidAlloc
    match pid with
    | none => pure (none, s)
    | some pid =>
      if !env.space || !env.stack || !env.fds then pure (none, s.pidFree pid)
      else
        let s ← (s.newProc c
          { pid, ppid := 0, pgid := pid, parent := none, state := .created, exitCode := 0, serial := 0,
            forked := false }).install c
        pure (some c, s)

/-- `proc_fork`. -/
def procFork (parent : ProcPtr) (env : MakeEnv) : Option (Option ProcPtr × ProcSys) :=
  match env.addr with
  | none => some (none, s)
  | some c => do
    let (pid, s) ← s.pidAlloc
    match pid with
    | none => pure (none, s)
    | some pid =>
      -- whatever is missing, the pid goes back; the memory does not belong to this model
      if !env.space || !env.stack || !env.fds then pure (none, s.pidFree pid)
      else
        let s := s.newProc c
          { pid, ppid := (s.procs parent).pid, pgid := (s.procs parent).pgid, parent := some parent, state := .created,
            exitCode := 0, serial := 0, forked := true }
        let s ← s.withMem (s.mem.addTail (.sibling c) (.children parent))
        let s ← s.install c
        pure (some c, s)

/-! ## Exit

The loop hands the children over to init, one by one. Init keeps its own.
-/

/-- What the loop of `proc_exit` does with one child. -/
def adopt (proc child : ProcPtr) : Option ProcSys := do
  let s ← s.withMem (s.mem.del (.sibling child))
  match s.initProc with
  | none => pure s
  | some init =>
    if proc = init then pure s
    else
      let s := s.setProc child fun r => { r with parent := some init, ppid := (s.procs init).pid }
      s.withMem (s.mem.addTail (.sibling child) (.children init))

/-- The loop over the children, at `pos` with `n` the node after it. -/
def adoptFrom (proc : ProcPtr) : Nat → ProcSys → Option TreeAddr → Option TreeAddr → Option ProcSys
  | 0,        _, _,   _ => none
  | fuel + 1, s, pos, n =>
    if pos = some (.children proc) then some s
    else match pos with
      | some (.sibling child) => do
        let s ← s.adopt proc child
        adoptFrom proc fuel s n (n.bind s.mem.next)
      | _ => none

/-- `proc_exit` up to the signal to the parent. A list has no more members than processes were made. -/
def procExit (proc : ProcPtr) (code : Int) : Option ProcSys :=
  let s := s.setProc proc fun r => { r with exitCode := (code % 256).toNat * 256, state := .zombie }
  let pos := s.mem.next (.children proc)
  adoptFrom proc (s.births + 1) s pos (pos.bind s.mem.next)

/-! ## Wait

One pass over the children. The flag that there are children is set before a child is matched with what is asked for.
-/

/-- `proc_destroy`. -/
def procDestroy (p : ProcPtr) : Option ProcSys := do
  let s ← s.withMem (s.mem.del (.allList p))
  let s := s.pidFree (s.procs p).pid
  pure { s with live := Function.update s.live p false, reaped := s.reaped ++ [(s.procs p).serial] }

/-- The tests of `proc_wait` on a child, before its state. -/
def waitSkips (proc child : ProcPtr) (target : Int) : Bool :=
  (0 < target && ((s.procs child).pid : Int) ≠ target) ||
  (target = 0 && (s.procs child).pgid ≠ (s.procs proc).pgid) ||
  (target < -1 && ((s.procs child).pgid : Int) ≠ -target)

/-- The scan of the children: the zombie found, if any, and whether there are children. -/
def waitScan (proc : ProcPtr) (target : Int) : Nat → Option TreeAddr → Bool → Option (Option ProcPtr × Bool)
  | 0,        _,   _   => none
  | fuel + 1, pos, has =>
    if pos = some (.children proc) then some (none, has)
    else match pos with
      | some (.sibling child) =>
        if s.waitSkips proc child target then waitScan proc target fuel (s.mem.next (.sibling child)) true
        else if (s.procs child).state = .zombie then some (some child, true)
        else waitScan proc target fuel (s.mem.next (.sibling child)) true
      | _ => none

/-- What a pass of the loop of `proc_wait` comes to. -/
inductive Waited where
  | echild
  | reaped (pid status : Nat)
  | nohang
  | sleeps
deriving DecidableEq

/-- A pass of the loop of `proc_wait`. -/
def procWait (proc : ProcPtr) (target : Int) (wnohang : Bool) : Option (Waited × ProcSys) := do
  let (found, has) ← s.waitScan proc target (s.births + 1) (s.mem.next (.children proc)) false
  if !has then pure (.echild, s)
  else match found with
    | some child =>
      let result := Waited.reaped (s.procs child).pid (s.procs child).exitCode
      let s ← s.withMem (s.mem.del (.sibling child))
      let s ← s.procDestroy child
      pure (result, s)
    | none => pure (if wnohang then .nohang else .sleeps, s)

end ProcSys

/-! ## Boot and steps

Boot makes the idle process and then init, and puts 1 into init's `pid` afterwards. A system call is made by a process
that exists and has not exited.
-/

/-- After `proc_init`. -/
def procInit : ProcSys where
  mem := ⟨some, some⟩
  procs _ := ⟨0, 0, 0, none, .dead, 0, 0, false⟩
  live _ := false
  pidTable _ := none
  nextPid := 1
  initProc := none
  idleProc := none
  births := 0
  reaped := []

/-- `sched_init` makes the idle process, `kernel_main_thread` init; both stop the machine when they get none. -/
def procBoot (idle init : ProcPtr) : Option ProcSys := do
  let (p, s) ← procInit.procCreate ⟨some idle, true, true, true⟩
  let idle ← p
  let s : ProcSys := { s.setProc idle fun r => { r with state := .ready } with idleProc := some idle }
  let (p, s) ← s.procCreate ⟨some init, true, true, true⟩
  let init ← p
  pure { s.setProc init fun r => { r with state := .running, pid := 1 } with initProc := some init }

/-- What a process does. -/
inductive ProcEvent where
  | fork (p : ProcPtr) (env : MakeEnv)
  | exit (p : ProcPtr) (code : Int)
  | wait (p : ProcPtr) (target : Int) (wnohang : Bool)

/-- The process whose system call it is. -/
def ProcEvent.proc : ProcEvent → ProcPtr
  | .fork p _ => p
  | .exit p _ => p
  | .wait p _ _ => p

/-- A system call is made by a process that exists and has not exited, and `kzalloc` gives out free memory. -/
def ProcEvent.Enabled (s : ProcSys) (e : ProcEvent) : Prop :=
  s.live e.proc = true ∧ (s.procs e.proc).state ≠ .zombie ∧
  match e with
  | .fork _ env => ∀ c ∈ env.addr, s.live c = false
  | _ => True

instance (s : ProcSys) : (e : ProcEvent) → Decidable (e.Enabled s)
  | .fork p env => inferInstanceAs
      (Decidable (s.live p = true ∧ (s.procs p).state ≠ .zombie ∧ ∀ c ∈ env.addr, s.live c = false))
  | .exit p _ => inferInstanceAs (Decidable (s.live p = true ∧ (s.procs p).state ≠ .zombie ∧ True))
  | .wait p _ _ => inferInstanceAs (Decidable (s.live p = true ∧ (s.procs p).state ≠ .zombie ∧ True))

/-- The kernel path of an event: `none` if it faults. -/
def ProcEvent.path (s : ProcSys) : ProcEvent → Option ProcSys
  | .fork p env => (s.procFork p env).map Prod.snd
  | .exit p code => s.procExit p code
  | .wait p target wnohang => (s.procWait p target wnohang).map Prod.snd

/-- One step of the system. -/
def ProcStep (s : ProcSys) (e : ProcEvent) (t : ProcSys) : Prop := e.Enabled s ∧ e.path s = some t

end MyUnix.Proc
