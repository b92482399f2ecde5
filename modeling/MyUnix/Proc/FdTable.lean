import Mathlib.Algebra.Group.Nat.Defs
import Mathlib.Logic.Function.Basic
import MyUnix.Kernel.Errno

/-!
# `Proc.FdTable` — descriptor tables and the files they share

`fd_alloc`, `fd_get`, `fd_close` and the rest of the descriptor operations of `process.c`, with `file_get` and
`file_put` of `vfs.c`. Files and tables are numbered in the order they are made, so a number stands for one life of
one object. A table is a row of `FD_MAX` slots; tables of different processes may hold the same file, and callers
in the kernel hold references of their own while they work on a file: `held` counts these.

The counter of a file is a 32-bit integer in the source. `PID_MAX` tables of `FD_MAX` slots hold at most `2 ^ 26`
references (`fd_refs_fit`), so it is modelled without a bound.

The operations are the text of `process.c`, on records in place of pointers; a slot that a call reads is read where
the code reads it. The state also remembers what was freed and which callbacks have run, in order. These logs are what
a statement about "once" is about.

`fd_close` and `fd_table_destroy` run the callback of the file when its last reference goes. What the callback does to
a pipe is in `Proc.SysPipe`; here it is an entry in the log.
-/

namespace MyUnix.Proc

/-- `FD_MAX`. -/
def fdMax : Nat := 1024

/-- `FD_FLAG_CLOEXEC`. -/
def fdFlagCloexec : Nat := 1

/-- Which callback `file_put` runs on the last reference: that of `f->ops`, else that of `f->vnode->ops`, else
    none. -/
inductive CloseCb where
  | ops
  | vnode
  | none
deriving DecidableEq

/-- `fd_table_t`. -/
structure FdTable where
  fds      : Nat → Option Nat
  flags    : Nat → Nat
  refcount : Int

/-- The files and the tables, with what was freed and closed so far. -/
structure FdSys where
  nfiles   : Nat
  refs     : Nat → Int
  closeCb  : Nat → CloseCb
  freed    : Nat → Bool
  /-- The files whose close callback was run, the latest first. -/
  closeLog : List Nat
  ntables  : Nat
  tables   : Nat → FdTable
  live     : Nat → Bool
  held     : Nat → Nat

namespace FdSys

variable (s : FdSys)

/-- `file_alloc`: the reference belongs to the caller. -/
def fileAlloc (cb : CloseCb) : FdSys :=
  { s with nfiles := s.nfiles + 1
           refs := Function.update s.refs s.nfiles 1
           closeCb := Function.update s.closeCb s.nfiles cb
           held := Function.update s.held s.nfiles 1 }

/-- `file_get`. -/
def fileGet (f : Nat) : FdSys := { s with refs := Function.update s.refs f (s.refs f + 1) }

/-- `file_put`: the last holder closes and frees the file. -/
def filePut (f : Nat) : FdSys :=
  { s with refs := Function.update s.refs f (s.refs f - 1)
           closeLog := if s.refs f - 1 = 0 ∧ s.closeCb f ≠ .none then f :: s.closeLog else s.closeLog
           freed := if s.refs f - 1 = 0 then Function.update s.freed f true else s.freed }

/-- Write to a table. -/
def setTable (t : Nat) (table : FdTable) : FdSys := { s with tables := Function.update s.tables t table }

/-- `fdt->fds[i] = v; fdt->flags[i] = flags`. -/
def setSlot (t i : Nat) (v : Option Nat) (flags : Nat) : FdSys :=
  s.setTable t { s.tables t with fds := Function.update (s.tables t).fds i v
                                 flags := Function.update (s.tables t).flags i flags }

/-- The flags of descriptor `i` of table `t` are set. -/
def setFlags (t i flags : Nat) : FdSys :=
  s.setTable t { s.tables t with flags := Function.update (s.tables t).flags i flags }

/-- `fd_table_create`. -/
def fdTableCreate : FdSys :=
  { s with ntables := s.ntables + 1
           tables := Function.update s.tables s.ntables ⟨fun _ => none, fun _ => 0, 1⟩
           live := Function.update s.live s.ntables true }

/-- The loop body of `fd_table_clone` for slot `i`. -/
def cloneSlot (src dst : Nat) (s : FdSys) (i : Nat) : FdSys :=
  match (s.tables src).fds i with
  | some f => (s.setSlot dst i (some f) ((s.tables src).flags i)).fileGet f
  | none => s

/-- `fd_table_clone`; `mem` is whether `kzalloc` has memory. -/
def fdTableClone (src : Nat) (mem : Bool) : FdSys :=
  if mem then (List.range fdMax).foldl (cloneSlot src s.ntables) s.fdTableCreate else s

/-- The loop body of `fd_table_destroy`. -/
def destroySlot (t : Nat) (s : FdSys) (i : Nat) : FdSys :=
  match (s.tables t).fds i with
  | some f => (s.filePut f).setSlot t i none ((s.tables t).flags i)
  | none => s

/-- `fd_table_destroy`: the last holder puts the files of all descriptors. -/
def fdTableDestroy (t : Nat) : FdSys :=
  let s := s.setTable t { s.tables t with refcount := (s.tables t).refcount - 1 }
  if (s.tables t).refcount ≠ 0 then s
  else
    let s := (List.range fdMax).foldl (destroySlot t) s
    { s with live := Function.update s.live t false }

/-- `fd_alloc`: the lowest empty slot. -/
def fdAlloc (t f : Nat) : Int × FdSys :=
  match (List.range fdMax).find? fun i => (s.tables t).fds i = none with
  | some i => (i, (s.setSlot t i (some f) 0).fileGet f)
  | none => (-emfile, s)

/-- `fd_alloc_at`, which puts the file that was there. -/
def fdAllocAt (t : Nat) (fd : Int) (f : Nat) : Int × FdSys :=
  if fd < 0 ∨ fdMax ≤ fd then (-ebadf, s)
  else
    let s := match (s.tables t).fds fd.toNat with
      | some g => s.filePut g
      | none => s
    (fd, (s.setSlot t fd.toNat (some f) 0).fileGet f)

/-- `fd_get`: the reference goes to the caller. -/
def fdGet (t : Nat) (fd : Int) : Option Nat × FdSys :=
  if fd < 0 ∨ fdMax ≤ fd then (none, s)
  else match (s.tables t).fds fd.toNat with
    | some f => (some f, { s.fileGet f with held := Function.update s.held f (s.held f + 1) })
    | none => (none, s)

/-- `fd_close`. -/
def fdClose (t : Nat) (fd : Int) : Int × FdSys :=
  if fd < 0 ∨ fdMax ≤ fd then (-ebadf, s)
  else match (s.tables t).fds fd.toNat with
    | some f => (0, (s.setSlot t fd.toNat none 0).filePut f)
    | none => (-ebadf, s)

/-- The loop body of `fd_close_on_exec`. -/
def execSlot (t : Nat) (s : FdSys) (i : Nat) : FdSys :=
  match (s.tables t).fds i with
  | some f => if (s.tables t).flags i &&& fdFlagCloexec ≠ 0 then (s.filePut f).setSlot t i none 0 else s
  | none => s

/-- `fd_close_on_exec`. -/
def fdCloseOnExec (t : Nat) : FdSys := (List.range fdMax).foldl (execSlot t) s

end FdSys

/-- A call on files or tables. -/
inductive FdOp where
  | fileAlloc (cb : CloseCb)
  | filePut (f : Nat)
  | tableCreate
  | tableClone (src : Nat) (mem : Bool)
  | tableDestroy (t : Nat)
  | alloc (t f : Nat)
  | allocAt (t : Nat) (fd : Int) (f : Nat)
  | get (t : Nat) (fd : Int)
  | close (t : Nat) (fd : Int)
  | closeOnExec (t : Nat)
  /-- `fcntl(F_SETFD)` and `fcntl(F_DUPFD_CLOEXEC)` set the flags of a slot. -/
  | setFlags (t i flags : Nat)

/-- **One call**, on tables that are not destroyed. The caller of `fd_alloc` and `fd_alloc_at` holds a reference to
    the file, and gives back with `file_put` only references it holds. -/
def fdStep (s : FdSys) : FdOp → Option FdSys
  | .fileAlloc cb => some (s.fileAlloc cb)
  | .filePut f =>
      if 0 < s.held f then some { s.filePut f with held := Function.update s.held f (s.held f - 1) } else none
  | .tableCreate => some s.fdTableCreate
  | .tableClone src mem => if s.live src then some (s.fdTableClone src mem) else none
  | .tableDestroy t => if s.live t then some (s.fdTableDestroy t) else none
  | .alloc t f => if s.live t ∧ 0 < s.held f then some (s.fdAlloc t f).2 else none
  | .allocAt t fd f => if s.live t ∧ 0 < s.held f then some (s.fdAllocAt t fd f).2 else none
  | .get t fd => if s.live t then some (s.fdGet t fd).2 else none
  | .close t fd => if s.live t then some (s.fdClose t fd).2 else none
  | .closeOnExec t => if s.live t then some (s.fdCloseOnExec t) else none
  | .setFlags t i flags => if s.live t ∧ i < fdMax then some (s.setFlags t i flags) else none

/-- No file and no table. -/
def fdInit : FdSys :=
  { nfiles := 0, refs := fun _ => 0, closeCb := fun _ => .none, freed := fun _ => false, closeLog := []
    ntables := 0, tables := fun _ => ⟨fun _ => none, fun _ => 0, 0⟩, live := fun _ => false, held := fun _ => 0 }

end MyUnix.Proc
