import MyUnix.Proc.Fcntl
import MyUnix.Proc.SysPipe

/-!
# `Proc.Descriptors` — the descriptors of all processes

The calls that work on descriptors, whole: `sys_open` once `vfs_open` has its file, `sys_pipe`, `sys_dup`, `sys_dup2`,
`sys_close`, `sys_fcntl`, and what `proc_create`, `proc_fork`, `proc_exec`, `proc_exit` and `proc_destroy` do to the
tables. A process has one table for itself and is named by it. A call that works on a file for longer, such as a read
that sleeps, takes its reference at `begin` and gives it back at `finish`, with anything in between.

What a process sees of this is a map from numbers to files (`Descs`), without tables, counters or loops. The calls are
given a second time over these maps; `Proc.DescRefine` relates the two.

The two halves of the module are read against each other. The first is the code, with tables, slots and counters. The
second is what a process may know: a number leads to a file, `dup` makes another number lead there, `fork` copies the
map, and a file is gone when nobody has it. Both return the result of the call, so a refinement compares what is
returned and what is left.

`kfree` may panic, for a block that a slab cache has served. So an event comes in two parts: what it does up to its
calls of `kfree` (`descRun`), and whether these return (`descStep`), for which the blocks with a header in front are
given. An event whose blocks have no header ends the run.
-/

namespace MyUnix.Proc

open Arch Ipc Lib

/-! ## The code

The functions of the file layer that work on one table are in `Proc.FdTable`, those of `pipe` in `Proc.SysPipe`; here
they are put together for all processes. Which blocks an event gives back is read off the states before and after it.
-/

namespace PipeFds

variable (s : PipeFds) (t : Nat)

/-- `get_file`, for a process with table `t`. -/
def getFile (fd : Int) : Option Nat × PipeFds := ((s.fds.fdGet t fd).1, { s with fds := (s.fds.fdGet t fd).2 })

/-- `fd_alloc_at`. -/
def fdAllocAt (fd : Int) (f : Nat) : Option (Int × PipeFds) :=
  if fd < 0 ∨ fdMax ≤ fd then some (-ebadf, s)
  else do
    let s ← match (s.fds.tables t).fds fd.toNat with
      | some g => s.filePut g
      | none   => some s
    return (fd, { s with fds := (s.fds.setSlot t fd.toNat (some f) 0).fileGet f })

/-- The loop body of `fd_close_on_exec`. -/
def execSlot (s : PipeFds) (i : Nat) : Option PipeFds :=
  match (s.fds.tables t).fds i with
  | some f =>
    if (s.fds.tables t).flags i &&& fdFlagCloexec ≠ 0 then
      (s.filePut f).map fun s => { s with fds := s.fds.setSlot t i none 0 }
    else some s
  | none => some s

/-- `fd_close_on_exec`. -/
def fdCloseOnExec : Option PipeFds := (List.range fdMax).foldlM (execSlot t) s

/-- The loop body of `fd_table_destroy`. -/
def destroySlot (s : PipeFds) (i : Nat) : Option PipeFds :=
  match (s.fds.tables t).fds i with
  | some f => (s.filePut f).map fun s => { s with fds := s.fds.setSlot t i none ((s.fds.tables t).flags i) }
  | none   => some s

/-- `fd_table_destroy`: the last holder closes all descriptors. -/
def fdTableDestroy : Option PipeFds :=
  let s := { s with fds := s.fds.setTable t { s.fds.tables t with refcount := (s.fds.tables t).refcount - 1 } }
  if (s.fds.tables t).refcount ≠ 0 then some s
  else ((List.range fdMax).foldlM (destroySlot t) s).map fun s =>
    { s with fds := { s.fds with live := Function.update s.fds.live t false } }

/-- The loop of `proc_exit` over the descriptors. -/
def closeAll : Option PipeFds := (List.range fdMax).foldlM (fun s (i : Nat) => (s.fdClose t i).map Prod.snd) s

end PipeFds

/-- The files of the system, with `f->flags`. -/
structure DescSys where
  files  : PipeFds
  fflags : Nat → BitVec 32

/-- `O_RDONLY`. -/
def oRdonly : BitVec 32 := 0

/-- `O_WRONLY`. -/
def oWronly : BitVec 32 := 1

/-- The low 32 bits of an argument, as an `int`. -/
def argInt (w : Word) : Int := (w.setWidth 32).toInt

namespace DescSys

variable (s : DescSys) (t : Nat)

/-- `sys_open` with the file that `vfs_open` made: `cb` is its close callback. -/
def sysOpen (cb : CloseCb) (flags : BitVec 32) : Option (Word × DescSys) :=
  let f := s.files.fds.nfiles
  let files := { s.files with fds := s.files.fds.fileAlloc cb }
  let fflags := Function.update s.fflags f flags
  let (fd, files) := files.fdAlloc t f
  (files.callerPut f).map fun files => (BitVec.ofInt 64 fd, ⟨files, fflags⟩)

/-- `sys_pipe`, with the flags that `pipe_create` gives its two files. -/
def sysPipe (u : User) (pipefdPtr : Word) (mem : PipeBlock → Bool) : Option (Word × DescSys) :=
  let f := s.files.fds.nfiles
  let fflags := if mem .pipe ∧ mem (.file .read) ∧ mem (.file .write) then
    Function.update (Function.update s.fflags f oRdonly) (f + 1) oWronly else s.fflags
  (s.files.sysPipe t u pipefdPtr mem).map fun x => (BitVec.ofInt 64 x.1, ⟨x.2.1, fflags⟩)

/-- `sys_dup`. -/
def sysDup (fd : Word) : Option (Word × DescSys) :=
  match s.files.getFile t (argInt fd) with
  | (none, files)   => some (BitVec.ofInt 64 (-ebadf), { s with files })
  | (some f, files) =>
    let (newFd, files) := files.fdAlloc t f
    (files.callerPut f).map fun files => (BitVec.ofInt 64 newFd, { s with files })

/-- `sys_dup2`: what `fd_alloc_at` returns is not looked at. -/
def sysDup2 (oldfd newfd : Word) : Option (Word × DescSys) :=
  if argInt oldfd = argInt newfd then some (newfd, s)
  else match s.files.getFile t (argInt oldfd) with
    | (none, files)   => some (BitVec.ofInt 64 (-ebadf), { s with files })
    | (some f, files) => do
      let (_, files) ← files.fdAllocAt t (argInt newfd) f
      let files ← files.callerPut f
      return (newfd, { s with files })

/-- `sys_close`. -/
def sysClose (fd : Word) : Option (Word × DescSys) :=
  (s.files.fdClose t (argInt fd)).map fun x => (BitVec.ofInt 64 x.1, { s with files := x.2 })

/-- `sys_fcntl`, with the commands of `Proc.Fcntl`. -/
def sysFcntl (fd cmd arg : Word) : Option (Word × DescSys) :=
  match s.files.getFile t (argInt fd) with
  | (none, files)   => some (BitVec.ofInt 64 (-ebadf), { s with files })
  | (some f, files) =>
    let (r, _, fs) := FileSys.fcntlCmd ⟨files.fds, s.fflags⟩ t f fd cmd arg
    (({ files with fds := fs.fds } : PipeFds).callerPut f).map fun files => (r, ⟨files, fs.fflags⟩)

end DescSys

/-! ## Events

A call, and what it gives back to the heap. Which blocks these are is not written down call by call: a block is given
back if it was in use before the call and is not in use afterwards.
-/

/-- What happens to descriptors. -/
inductive FdEvent where
  | spawn
  | fork (t : Nat) (mem : Bool)
  | exec (t : Nat)
  | exit (t : Nat)
  | reap (t : Nat)
  | openFile (t : Nat) (cb : CloseCb) (flags : BitVec 32)
  | pipe (t : Nat) (u : User) (pipefdPtr : Word) (mem : PipeBlock → Bool)
  | dup (t : Nat) (fd : Word)
  | dup2 (t : Nat) (oldfd newfd : Word)
  | close (t : Nat) (fd : Word)
  | fcntl (t : Nat) (fd cmd arg : Word)
  | begin (t : Nat) (fd : Word)
  | finish (f : Nat)

namespace FdEvent

/-- The process that makes the call. -/
def caller : FdEvent → Option Nat
  | spawn | finish _ => none
  | fork t _ | exec t | exit t | reap t | openFile t .. | pipe t .. | dup t _ | dup2 t .. | close t _ | fcntl t ..
  | begin t _ => some t

/-- A pipe gets its queues, and the number given to `fcntl` fits an `int`: it then indexes the flags with the number
    that `get_file` has checked. -/
def Ok : FdEvent → Prop
  | pipe _ _ _ mem => ∀ e, mem (.queue e) = true
  | fcntl _ fd _ _ => fd.toNat < 2 ^ 31
  | _              => True

end FdEvent

/-- **One event** up to `kfree`, with the result of the call where it is one of the table's. Only a live process calls,
    and only a reference that was taken is given back. `none` is this, or a fault of the kernel. -/
def descRun (s : DescSys) (e : FdEvent) : Option (Option Word × DescSys) :=
  if e.caller.all s.files.fds.live then
    match e with
    | .spawn => some (none, { s with files := { s.files with fds := s.files.fds.fdTableCreate } })
    | .fork t mem => some (none, { s with files := { s.files with fds := s.files.fds.fdTableClone t mem } })
    | .exec t => (s.files.fdCloseOnExec t).map fun files => (none, { s with files })
    | .exit t => (s.files.closeAll t).map fun files => (none, { s with files })
    | .reap t => (s.files.fdTableDestroy t).map fun files => (none, { s with files })
    | .openFile t cb flags => (s.sysOpen t cb flags).map fun x => (some x.1, x.2)
    | .pipe t u ptr mem => (s.sysPipe t u ptr mem).map fun x => (some x.1, x.2)
    | .dup t fd => (s.sysDup t fd).map fun x => (some x.1, x.2)
    | .dup2 t oldfd newfd => (s.sysDup2 t oldfd newfd).map fun x => (some x.1, x.2)
    | .close t fd => (s.sysClose t fd).map fun x => (some x.1, x.2)
    | .fcntl t fd cmd arg => (s.sysFcntl t fd cmd arg).map fun x => (some x.1, x.2)
    | .begin t fd => some (none, { s with files := (s.files.getFile t (argInt fd)).2 })
    | .finish f =>
      if 0 < s.files.fds.held f then (s.files.callerPut f).map fun files => (none, { s with files }) else none
  else none

/-- The blocks of the heap that these calls give back to `kfree`. A file that is an end of a pipe is a block of the pipe. -/
inductive HeapBlock where
  | file (f : Nat)
  | table (t : Nat)
  | pipe (p : Nat) (b : PipeBlock)
deriving DecidableEq

namespace DescSys

variable (s : DescSys)

/-- The blocks made so far. -/
def blocks : List HeapBlock :=
  ((List.range s.files.fds.nfiles).filter fun f => s.files.endOf f = none).map .file ++
  (List.range s.files.fds.ntables).map .table ++
  (List.range s.files.npipes).flatMap fun p =>
    [.pipe p .pipe, .pipe p (.queue .read), .pipe p (.queue .write), .pipe p (.file .read), .pipe p (.file .write)]

/-- The blocks in use after a call. -/
def inUse : HeapBlock → Bool
  | .file f   => !s.files.fds.freed f
  | .table t  => s.files.fds.live t
  | .pipe p b => (s.files.pipes p).live b

/-- The blocks in use before a call, and those of the pipe that it makes. -/
def inUseBy (e : FdEvent) : HeapBlock → Bool
  | .pipe p b =>
    if p < s.files.npipes then (s.files.pipes p).live b
    else match e with
      | .pipe _ _ _ mem => mem b
      | _               => false
  | b => s.inUse b

/-- The blocks that a call which leads from `s` to `s'` has given back. -/
def givenBack (e : FdEvent) (s' : DescSys) : List HeapBlock :=
  s'.blocks.filter fun b => s.inUseBy e b && !s'.inUse b

end DescSys

/-- **One event.** `headed` are the blocks in front of which `kfree` finds its header, for a file also that of a vnode which
    goes with it; in front of any other block `kfree` panics, and the call does not return. No call looks at what it has
    given back, so it is enough to ask at its end. -/
def descStep (headed : HeapBlock → Bool) (s : DescSys) (e : FdEvent) : Option (Option Word × DescSys) :=
  (descRun s e).filter fun x => (s.givenBack e x.2).all headed

/-- The state alone. -/
def descNext (headed : HeapBlock → Bool) (s : DescSys) (e : FdEvent) : Option DescSys := (descStep headed s e).map Prod.snd

/-- No process and no file. -/
def descInit : DescSys :=
  { files := { fds := fdInit, npipes := 0, pipes := fun _ => ⟨fun _ => false, fun _ => false, 0⟩, endOf := fun _ => none }
    fflags := fun _ => 0 }

/-! ## What the processes see

Every call as a function on maps. `inUse` counts the calls that are at work on a file, since such a call keeps the
file although its descriptor may be closed by another thread of control.
-/

/-- A descriptor: its file, and whether it is closed on exec. -/
structure Desc where
  file    : Nat
  cloexec : Bool
deriving DecidableEq

/-- The descriptors of all processes. Files and processes are numbered in the order they are made; `inUse` counts the
    calls that are at work on a file. -/
@[ext]
structure Descs where
  nfiles : Nat
  nprocs : Nat
  live   : Nat → Bool
  slot   : Nat → Nat → Option Desc
  inUse  : Nat → Nat
  status : Nat → BitVec 32

namespace Descs

variable (d : Descs) (t : Nat)

/-- The descriptor `i` of the table becomes `v`. -/
def set (i : Nat) (v : Option Desc) : Descs :=
  { d with slot := Function.update d.slot t (Function.update (d.slot t) i v) }

theorem set_self {i : Nat} {v : Option Desc} (h : d.slot t i = v) : d.set t i v = d := by
  subst h
  simp [set]

theorem set_set (i : Nat) (v w : Option Desc) : (d.set t i v).set t i w = d.set t i w := by
  simp [set]

/-- All the descriptors of a process at once. -/
def setAll (slots : Nat → Option Desc) : Descs := { d with slot := Function.update d.slot t slots }

/-- The file is used once more. -/
def use (f : Nat) : Descs := { d with inUse := Function.update d.inUse f (d.inUse f + 1) }

/-- The file is used once less. -/
def unuse (f : Nat) : Descs := { d with inUse := Function.update d.inUse f (d.inUse f - 1) }

@[simp] theorem unuse_use (f : Nat) : (d.use f).unuse f = d := by
  simp [use, unuse]

theorem use_comm (f g : Nat) : (d.use f).use g = (d.use g).use f := by
  refine Descs.ext rfl rfl rfl rfl ?_ rfl
  by_cases h : f = g
  · subst h
    rfl
  · simp only [use, Function.update_of_ne h, Function.update_of_ne (Ne.symm h)]
    exact Function.update_comm h _ _ _

/-- The descriptor with a number. -/
def find (fd : Int) : Option Desc := if fd < 0 ∨ fdMax ≤ fd then none else d.slot t fd.toNat

/-- The least number that is free. -/
def lowest : Option Nat := (List.range fdMax).find? fun i => d.slot t i = none

/-- A file gets the least number that is free. -/
def give (f : Nat) (cloexec : Bool) : Word × Descs :=
  match d.lowest t with
  | some i => (BitVec.ofInt 64 i, d.set t i (some ⟨f, cloexec⟩))
  | none   => (BitVec.ofInt 64 (-emfile), d)

theorem give_some {f i : Nat} {cloexec : Bool} (h : d.lowest t = some i) :
    d.give t f cloexec = (BitVec.ofInt 64 i, d.set t i (some ⟨f, cloexec⟩)) := by
  unfold give
  rw [h]

theorem give_none {f : Nat} {cloexec : Bool} (h : d.lowest t = none) :
    d.give t f cloexec = (BitVec.ofInt 64 (-emfile), d) := by
  unfold give
  rw [h]

/-! ## The calls on maps

Each of them returns the result of the call and the maps afterwards.
-/

/-- `open`: the next file. -/
def openFile (flags : BitVec 32) : Word × Descs :=
  { d with nfiles := d.nfiles + 1, status := Function.update d.status d.nfiles flags }.give t d.nfiles false

/-- `pipe`: two files and the two least numbers, or no number at all. -/
def pipe (u : User) (pipefdPtr : Word) (mem : PipeBlock → Bool) : Word × Descs :=
  if mem .pipe ∧ mem (.file .read) ∧ mem (.file .write) then
    let status := Function.update (Function.update d.status d.nfiles oRdonly) (d.nfiles + 1) oWronly
    let made := { d with nfiles := d.nfiles + 2, status }
    match made.lowest t with
    | none   => (BitVec.ofInt 64 (-emfile), made)
    | some i =>
      let one := made.set t i (some ⟨d.nfiles, false⟩)
      match one.lowest t with
      | none   => (BitVec.ofInt 64 (-emfile), made)
      | some j =>
        let r := (copyToUser u (.arg 0) pipefdPtr (leBytes 4 i ++ leBytes 4 j)).2
        (BitVec.ofInt 64 (if r < 0 then -efault else 0), one.set t j (some ⟨d.nfiles + 1, false⟩))
  else (BitVec.ofInt 64 (-enomem), d)

/-- `dup`, on descriptors: the lowest free one names the same file. -/
def dup (fd : Word) : Word × Descs :=
  match d.find t (argInt fd) with
  | none   => (BitVec.ofInt 64 (-ebadf), d)
  | some x => d.give t x.file false

/-- `dup2`: a new number out of range is taken back without an error. -/
def dup2 (oldfd newfd : Word) : Word × Descs :=
  if argInt oldfd = argInt newfd then (newfd, d)
  else match d.find t (argInt oldfd) with
    | none   => (BitVec.ofInt 64 (-ebadf), d)
    | some x =>
      if argInt newfd < 0 ∨ fdMax ≤ argInt newfd then (newfd, d)
      else (newfd, d.set t (argInt newfd).toNat (some ⟨x.file, false⟩))

/-- `close`, on descriptors. -/
def close (fd : Word) : Word × Descs :=
  match d.find t (argInt fd) with
  | none   => (BitVec.ofInt 64 (-ebadf), d)
  | some _ => (0, d.set t (argInt fd).toNat none)

/-- `fcntl`, on descriptors. -/
def fcntl (fd cmd arg : Word) : Word × Descs :=
  match d.find t (argInt fd) with
  | none   => (BitVec.ofInt 64 (-ebadf), d)
  | some x =>
    if argInt cmd = fGetfd then (if x.cloexec then 1 else 0, d)
    else if argInt cmd = fSetfd then (0, d.set t (argInt fd).toNat (some ⟨x.file, arg &&& 1 ≠ 0⟩))
    else if argInt cmd = fGetfl then ((d.status x.file).signExtend 64, d)
    else if argInt cmd = fSetfl then (0, { d with status := Function.update d.status x.file (arg.setWidth 32) })
    else if argInt cmd = fDupfd ∨ argInt cmd = fDupfdCloexec then
      d.give t x.file (cmd = BitVec.ofInt 64 fDupfdCloexec)
    else (BitVec.ofInt 64 (-einval), d)

/-- A process is made, with these descriptors. -/
def addProc (slots : Nat → Option Desc) : Descs :=
  { d with nprocs := d.nprocs + 1
           live := Function.update d.live d.nprocs true
           slot := Function.update d.slot d.nprocs slots }

/-- **One event**, over the maps. -/
def step (e : FdEvent) : Option (Option Word × Descs) :=
  if e.caller.all d.live then
    match e with
    | .spawn => some (none, d.addProc fun _ => none)
    | .fork t mem => some (none, if mem then d.addProc (d.slot t) else d)
    | .exec t => some (none, d.setAll t fun i => (d.slot t i).filter fun x => !x.cloexec)
    | .exit t => some (none, d.setAll t fun _ => none)
    | .reap t => some (none, { d.setAll t fun _ => none with live := Function.update d.live t false })
    | .openFile t _ flags => some (some (d.openFile t flags).1, (d.openFile t flags).2)
    | .pipe t u ptr mem => some (some (d.pipe t u ptr mem).1, (d.pipe t u ptr mem).2)
    | .dup t fd => some (some (d.dup t fd).1, (d.dup t fd).2)
    | .dup2 t oldfd newfd => some (some (d.dup2 t oldfd newfd).1, (d.dup2 t oldfd newfd).2)
    | .close t fd => some (some (d.close t fd).1, (d.close t fd).2)
    | .fcntl t fd cmd arg => some (some (d.fcntl t fd cmd arg).1, (d.fcntl t fd cmd arg).2)
    | .begin t fd => some (none, match d.find t (argInt fd) with
        | some x => d.use x.file
        | none   => d)
    | .finish f => if 0 < d.inUse f then some (none, d.unuse f) else none
  else none

/-- The maps alone. -/
def next (e : FdEvent) : Option Descs := (d.step e).map Prod.snd

/-- Nobody has the file: no descriptor of any process, and no call at work on it. -/
def Unused (f : Nat) : Prop := (∀ t i x, d.slot t i = some x → x.file ≠ f) ∧ d.inUse f = 0

end Descs

/-- The maps behind the tables. -/
def PipeFds.descs (s : PipeFds) (status : Nat → BitVec 32) : Descs :=
  { nfiles := s.fds.nfiles
    nprocs := s.fds.ntables
    live   := s.fds.live
    slot   := fun t i => ((s.fds.tables t).fds i).map fun f => ⟨f, (s.fds.tables t).flags i &&& fdFlagCloexec ≠ 0⟩
    inUse  := s.fds.held
    status := status }

/-- The descriptors that the tables of the kernel stand for. -/
def DescSys.descs (s : DescSys) : Descs := s.files.descs s.fflags

end MyUnix.Proc
