import MyUnix.Lib.Ring
import MyUnix.Lib.Run
import MyUnix.Kernel.Errno

/-!
# `Ipc.Pipe` — a pipe and the processes at its ends

`pipe_read_fn`, `pipe_write_fn` and the two close callbacks, run by any number of processes at once. A locked
section is one step; between two of them, between a buffer update or a close and the wake call after it, and
between the test for an empty or full buffer and the sleep that follows it, other processes may run. The place a
process has reached in its call is its `Pc`.

* A sleeping process takes no step until a wake on its queue or a signal. A waker takes the node of the sleeper off
  the queue; a signal (`signal_send`, which calls `proc_wake`) leaves it there, and the sleeper takes it off itself
  when it runs again. Until then a waker may find it and be wasted on a process that was awake already.
* Whoever wakes up tests `killed` and goes round its loop again; that it was woken says nothing about the buffer.
* `written` and `delivered` record the bytes of all chunks put into the buffer and of all chunks copied out, in the
  order of the locked sections.

`Ipc.PipeStream` is about the bytes, `Ipc.PipeSleep` about who sleeps, and `Ipc.PipeQueue` about the two queues as the
lists of the scheduler.
-/

namespace MyUnix.Ipc

open Lib

/-- `PIPE_BUF_SIZE`. -/
def pipeBufSize : Nat := 65536

/-- The two ends, with their wait queues `rq` and `wq`. -/
inductive End where
  | read
  | write
deriving DecidableEq

/-- The other end of a pipe. -/
def End.other : End → End
  | .read => .write
  | .write => .read

/-- `pipe_t`: `ring` is `buf` with `read_pos` and `write_pos`. -/
structure Pipe where
  ring     : Lib.Ring UInt8
  avail    : Nat
  closed   : End → Bool
  refcount : Nat

/-- Where a process is. `woken` marks a call that was woken and has neither slept again nor returned. -/
inductive Pc where
  | idle
  | readLoop (len : Nat) (woken : Bool)
  /-- `n` bytes are copied out, `wq_wake_one(p->wq)` is next. -/
  | readWake (len n : Nat) (woken : Bool)
  /-- The buffer was empty and the write end open, `wq_wait(p->rq)` is next. -/
  | readSleep (len : Nat) (woken : Bool)
  | readAsleep (len : Nat)
  | readWoken (len : Nat)
  /-- `rest` is what is left of the request after `done` bytes. -/
  | writeLoop (rest : List UInt8) (done : Nat) (woken : Bool)
  | writeWake (rest : List UInt8) (done : Nat) (woken : Bool)
  | writeSleep (rest : List UInt8) (done : Nat) (woken : Bool)
  | writeAsleep (rest : List UInt8) (done : Nat)
  | writeWoken (rest : List UInt8) (done : Nat)
  /-- The end is marked closed, `wq_wake_all` is next. -/
  | closing (e : End)
  | returned (r : Int)
deriving DecidableEq

namespace Pc

/-- A process that is in no call. -/
def free : Pc → Bool
  | idle | returned _ => true
  | _ => false

/-- What a wake does to the process it takes off a queue. -/
def wake : Pc → Pc
  | readAsleep len => readWoken len
  | writeAsleep rest done => writeWoken rest done
  | c => c

/-- The length asked for, of a process inside `pipe_read_fn`. -/
def readLen : Pc → Option Nat
  | readLoop len _ | readWake len _ _ | readSleep len _ | readAsleep len | readWoken len => some len
  | _ => none

end Pc

/-- A pipe, with the processes that call it and the sleepers of its two queues. -/
structure PipeSys where
  pipe      : Pipe
  pc        : Nat → Pc
  queue     : End → List Nat
  killed    : Nat → Bool
  written   : List UInt8
  delivered : List UInt8

namespace PipeSys

variable (s : PipeSys) (p : Nat)

/-- The program counter of process `p` becomes `c`. -/
def setPc (c : Pc) : PipeSys := { s with pc := Function.update s.pc p c }

/-- `wq_wake_one` of the queue of an end: the process that has slept longest. -/
def wqWakeOne (e : End) : PipeSys :=
  match s.queue e with
  | [] => s
  | q :: qs => { s with queue := Function.update s.queue e qs, pc := Function.update s.pc q (s.pc q).wake }

/-- `wq_wake_all` of the queue of an end. -/
def wqWakeAll (e : End) : PipeSys :=
  { s with queue := Function.update s.queue e []
           pc := fun q => if q ∈ s.queue e then (s.pc q).wake else s.pc q }

/-- `wq_wait` up to the point where the process is suspended. -/
def wqWait (e : End) (asleep : Pc) : PipeSys :=
  { s with queue := Function.update s.queue e (s.queue e ++ [p]), pc := Function.update s.pc p asleep }

/-- The end of `wq_wait`: `list_del(&node.list)`. A waker has taken the node off before, a signal has not. -/
def unlink (e : End) : PipeSys := { s with queue := Function.update s.queue e ((s.queue e).filter fun q => q ≠ p) }

/-! ## The calls

The sections of the two functions between a lock and its unlock, and the steps around them.
-/

/-- The locked section of `pipe_read_fn`. -/
def readSection (len : Nat) (woken : Bool) : PipeSys :=
  if 0 < s.pipe.avail then
    let n := min len s.pipe.avail
    let (bs, ring) := Ring.read pipeBufSize (2 ^ 64) n s.pipe.ring
    { s with pipe := { s.pipe with ring := ring, avail := s.pipe.avail - n }
             delivered := s.delivered ++ bs
             pc := Function.update s.pc p (.readWake len n woken) }
  else if s.pipe.closed .write then s.setPc p (.returned 0)
  else s.setPc p (.readSleep len woken)

/-- One round of the loop of `pipe_write_fn`, up to the unlock. -/
def writeSection (rest : List UInt8) (done : Nat) (woken : Bool) : PipeSys :=
  if rest = [] then s.setPc p (.returned done)
  else
    let space := (pipeBufSize + 2 ^ 64 - s.pipe.avail) % 2 ^ 64
    if 0 < space then
      let n := min rest.length space
      { s with pipe := { s.pipe with ring := Ring.write pipeBufSize (2 ^ 64) (rest.take n) s.pipe.ring
                                     avail := s.pipe.avail + n }
               written := s.written ++ rest.take n
               pc := Function.update s.pc p (.writeWake (rest.drop n) (done + n) woken) }
    else s.setPc p (.writeSleep rest done woken)

/-- The next step of a process inside a call. -/
def advance : Option PipeSys :=
  match s.pc p with
  | .idle | .returned _ | .readAsleep _ | .writeAsleep _ _ => none
  | .readLoop len woken => some (s.readSection p len woken)
  | .readWake _ n _ => some ((s.wqWakeOne .write).setPc p (.returned n))
  | .readSleep len _ => some (s.wqWait p .read (.readAsleep len))
  -- back in the loop with the lock: the node is unlinked, and only `killed` ends the call
  | .readWoken len =>
      some ((s.unlink p .read).setPc p (if s.killed p then .returned (-eintr) else .readLoop len true))
  | .writeLoop rest done woken => some (s.writeSection p rest done woken)
  | .writeWake rest done woken => some ((s.wqWakeOne .read).setPc p (.writeLoop rest done woken))
  | .writeSleep rest done _ => some (s.wqWait p .write (.writeAsleep rest done))
  | .writeWoken rest done =>
      some ((s.unlink p .write).setPc p (if s.killed p then .returned (if done ≠ 0 then (done : Int) else -eintr)
        else .writeLoop rest done true))
  | .closing e =>
      let s := s.wqWakeAll e.other
      some (PipeSys.setPc { s with pipe := { s.pipe with refcount := s.pipe.refcount - 1 } } p (.returned 0))

end PipeSys

/-- A process calls, closes an end, is marked as killed, is sent a signal, or takes the next step of its call. -/
inductive PipeEv where
  | read (p len : Nat)
  | write (p : Nat) (bytes : List UInt8)
  | close (p : Nat) (e : End)
  | kill (p : Nat)
  | signal (p : Nat)
  | run (p : Nat)

/-- **One step**: a process enters a call, or takes the next step of the call it is in, or is killed or woken by a signal. Once both
    ends have let go of the pipe it is freed and nothing can be done with it. -/
def pipeStep (s : PipeSys) (ev : PipeEv) : Option PipeSys :=
  if s.pipe.refcount = 0 then none
  else match ev with
    | .read p len => if (s.pc p).free then some (s.setPc p (.readLoop len false)) else none
    | .write p bytes =>
        if (s.pc p).free then
          some (s.setPc p (if s.pipe.closed .read then .returned (-epipe) else .writeLoop bytes 0 false))
        else none
    | .close p e =>
        if (s.pc p).free ∧ s.pipe.closed e = false then
          some (PipeSys.setPc { s with pipe := { s.pipe with closed := Function.update s.pipe.closed e true } } p
            (.closing e))
        else none
    | .kill p => some { s with killed := Function.update s.killed p true }
    | .signal p => some (s.setPc p (s.pc p).wake)
    | .run p => s.advance p

/-- `pipe_create`. -/
def pipeInit : PipeSys :=
  { pipe := { ring := ⟨fun _ => 0, 0, 0⟩, avail := 0, closed := fun _ => false, refcount := 2 }
    pc := fun _ => .idle, queue := fun _ => [], killed := fun _ => false, written := [], delivered := [] }

end MyUnix.Ipc
