import Mathlib.Data.List.Basic
import MyUnix.Arch.Machine
import MyUnix.Lib.Bytes
import MyUnix.Proc.FdTable
import MyUnix.Proc.Sched
import MyUnix.Ipc.Pipe
import MyUnix.Kernel.Errno

/-!
# `Proc.UserAccess` — what the kernel touches through the pointers of a call

`access_ok`, `copy_from_user`, `copy_to_user` and `strncpy_from_user` of `vmm.c`, and the system calls that take
pointers: `read`, `write`, `open`, `stat`, `fstat`, `ioctl`, `getdents64`, `rt_sigaction`, `rt_sigprocmask` and
`execve` of `syscall_impl.c`, with the drivers `read`, `write` and `ioctl` end in.

Memory is the byte at every virtual address of the calling process. Every access through a pointer of the caller is
entered in a log: the bytes loaded, the bytes stored, or a range that a check refused. What the kernel finds on its
own side (files, directories, the serial line, the outcome of `vfs_open` and `proc_exec`) is an environment that may
be anything, and what the call does there is not followed; a call that still waits when the environment has nothing
more to offer has no result yet.

The log is what the result is about. A checked copy enters a load or a store, or a refusal; an unchecked access enters
what it does. Nothing in the model stops an access outside user memory: the byte is read or written at that address,
as the processor in kernel mode would do it.

The loops have a bound on their turns where the source has none, because they wait for something. The result of a call
is an `Option`, and a call without a result is still waiting; what it has touched so far is in its log.
-/

namespace MyUnix.Proc

open Arch Ipc Lib

/-- `VMM_USER_END`. -/
def userEnd : Word := 0x7FFFFFFFF000#64

/-- How many characters of an argument `sys_execve` takes. -/
def argMax : Nat := 255

/-- How many arguments `sys_execve` takes. -/
def maxArgs : Nat := 256

/-- The pointers a caller hands in: an argument of the call, or an entry of one of the arrays of `execve`. -/
inductive Ptr where
  | arg (i : Nat)
  | argv (i : Nat)
  | envp (i : Nat)
deriving DecidableEq

/-- An access through a pointer of the user, or one that was refused. -/
inductive Access where
  | load (p : Ptr) (addr : Word) (len : Nat)
  | store (p : Ptr) (addr : Word) (data : List UInt8)
  | refused (p : Ptr) (addr : Word) (len : Nat)

namespace Access

/-- The pointer that is followed. -/
def ptr : Access → Ptr
  | load p _ _ | store p _ _ | refused p _ _ => p

/-- The address. -/
def addr : Access → Word
  | load _ a _ | store _ a _ | refused _ a _ => a

/-- The number of bytes. -/
def len : Access → Nat
  | load _ _ n | refused _ _ n => n
  | store _ _ data => data.length

/-- Memory was touched. -/
def Done : Access → Prop
  | load _ _ _ | store _ _ _ => True
  | refused _ _ _ => False

/-- Every address of the range lies in `[0, VMM_USER_END)`. -/
def Inside (a : Access) : Prop := ∀ i < a.len, (a.addr + BitVec.ofNat 64 i).toNat < userEnd.toNat

end Access

/-- The memory as the running process addresses it, and what the call did to it so far. -/
structure User where
  mem : Word → UInt8
  log : List Access

namespace User

variable (u : User)

/-- `n` bytes from `a` on. -/
def bytes (a : Word) (n : Nat) : List UInt8 := (List.range n).map fun i => u.mem (a + BitVec.ofNat 64 i)

/-- The little-endian word at `a`. -/
def word (a : Word) : Word := BitVec.ofNat 64 (ofLe (u.bytes a 8))

/-- A read of user memory is recorded. -/
def load (p : Ptr) (a : Word) (n : Nat) : User := { u with log := u.log ++ [.load p a n] }

/-- A write to user memory is made and recorded. -/
def store (p : Ptr) (a : Word) (data : List UInt8) : User :=
  { mem := fun x => (data[(x - a).toNat]?).getD (u.mem x), log := u.log ++ [.store p a data] }

/-- A refusal is recorded. -/
def refuse (p : Ptr) (a : Word) (n : Nat) : User := { u with log := u.log ++ [.refused p a n] }

end User

/-! ## User access

The four functions of `vmm.c`. The string copy checks the first byte only.
-/

/-- Irreducible, so that no proof evaluates it on a symbolic address. -/
@[irreducible] def accessOk (addr size : Word) : Bool :=
  if addr + size < addr then false else decide (addr + size ≤ userEnd)

section

variable (u : User) (p : Ptr)

/-- The bytes are those `memcpy` leaves in the kernel's object. -/
def copyFromUser (src : Word) (len : Nat) : User × Int × List UInt8 :=
  if accessOk src (BitVec.ofNat 64 len) then (u.load p src len, 0, u.bytes src len)
  else (u.refuse p src len, -efault, [])

/-- `copy_to_user`. -/
def copyToUser (dst : Word) (data : List UInt8) : User × Int :=
  if accessOk dst (BitVec.ofNat 64 data.length) then (u.store p dst data, 0)
  else (u.refuse p dst data.length, -efault)

/-- The loop of `strncpy_from_user` with `n` bytes to go; `dst` is what it has copied. -/
def strncpyLoop (u : User) : Nat → Word → List UInt8 → User × Int × List UInt8
  | 0, _, dst => (u, -e2big, dst)
  | n + 1, src, dst =>
    if u.mem src = 0 then (u.load p src 1, dst.length, dst)
    else strncpyLoop (u.load p src 1) n (src + 1#64) (dst ++ [u.mem src])

/-- `strncpy_from_user`: the result, and what was copied. -/
def strncpyFromUser (src : Word) (maxlen : Nat) : User × Int × List UInt8 :=
  if accessOk src 1#64 then strncpyLoop p u maxlen src [] else (u.refuse p src 1, -efault, [])

end

/-! ## Files

What an open file can be, with the environment of each driver: what a pipe will hold, what a node of a file system is.
-/

/-- What one turn of the loop of `pipe_read_fn` finds. -/
structure ReadTurn where
  avail       : List UInt8
  writeClosed : Bool
  killed      : Bool

/-- What one turn of the loop of `pipe_write_fn` finds. -/
structure WriteTurn where
  space  : Nat
  killed : Bool

/-- `file->ops`, with what other processes do to a pipe meanwhile. -/
inductive FileOps where
  | none
  | pipeRead (turns : List ReadTurn)
  | pipeWrite (readClosed : Bool) (turns : List WriteTurn)

/-- `initrd_entry_t`, as far as reads go. -/
structure InitrdEntry where
  isDir : Bool
  data  : List UInt8

/-- A node of a tmpfs: the first `vn->size` bytes of `data`, `data_cap`, and whether `krealloc` finds memory. -/
structure TmpfsNode where
  isDir   : Bool
  data    : List UInt8
  dataCap : Nat
  room    : Bool

/-- `vnode->ops`, with the node behind it. -/
inductive VnodeOps where
  | none
  | initrd (ent : Option InitrdEntry)
  | tmpfs (node : Option TmpfsNode)
  | devnull
  | devzero
  | devrand (state : Word)
  | tty

/-- A vnode, with the `struct stat` and the `struct dirent`s its callbacks fill in. -/
structure Vnode where
  isDir   : Bool
  ops     : VnodeOps
  stat    : Except Int (Vector UInt8 120)
  listing : List (Vector UInt8 280)

/-- `file_t`. -/
structure File where
  ops    : FileOps
  vnode  : Option Vnode
  offset : Int

/-- The kernel's side of a call. -/
structure Env where
  /-- `get_file`. -/
  files     : BitVec 32 → Option File
  /-- `vfs_open` and the `fd_alloc` after it. -/
  vfsOpen   : List UInt8 → BitVec 32 → BitVec 32 → Int
  vfsLookup : List UInt8 → Except Int Vnode
  procExec  : List UInt8 → List (List UInt8) → List (List UInt8) → Int
  /-- The bytes that come in on COM1; `none` where the waiting process finds itself killed. -/
  serial    : List (Option UInt8)
  pgid      : BitVec 32

/-! ## Drivers

Each gets the buffer as the system call got it, and returns its result (`none`: still waiting). -/

section

variable (u : User) (p : Ptr) (buf len : Word)

/-- `pipe_read_fn`, for so many turns. -/
def pipeReadFn : List ReadTurn → User × Option Int
  | [] => (u, none)
  | t :: turns =>
    if 0 < t.avail.length then
      let n := min len.toNat t.avail.length
      (u.store p buf (t.avail.take n), some n)
    else if t.writeClosed then (u, some 0)
    else if t.killed then (u, some (-eintr))
    else pipeReadFn turns

/-- The loop of `pipe_write_fn`. -/
def pipeWriteLoop (u : User) (written : Nat) : List WriteTurn → User × Option Int
  | [] => (u, if written < len.toNat then none else some written)
  | t :: turns =>
    if written < len.toNat then
      if 0 < t.space then
        let n := min (len.toNat - written) t.space
        pipeWriteLoop (u.load p (buf + BitVec.ofNat 64 written) n) (written + n) turns
      else if t.killed then (u, some (if written = 0 then -eintr else written))
      else pipeWriteLoop u written turns
    else (u, some written)

/-- `pipe_write_fn`. -/
def pipeWriteFn (readClosed : Bool) (turns : List WriteTurn) : User × Option Int :=
  if readClosed then (u, some (-epipe)) else pipeWriteLoop p buf len u 0 turns

/-- `memcpy(buf, data + off, n)` with the bytes there are, as `initrd_vn_read` and `tmpfs_read` end. -/
def readAt (data : List UInt8) (off : Int) : User × Option Int :=
  let n := min len.toNat (data.length - off.toNat)
  (u.store p buf ((data.drop off.toNat).take n), some n)

/-- `initrd_vn_read`. -/
def initrdVnRead (ent : Option InitrdEntry) (off : Int) : User × Option Int :=
  match ent with
  | none => (u, some (-eisdir))
  | some ent =>
    if ent.isDir then (u, some (-eisdir))
    else if off < 0 then (u, some (-einval))
    else if off ≥ ent.data.length then (u, some 0)
    else readAt u p buf len ent.data off

/-- `tmpfs_read`. -/
def tmpfsRead (node : Option TmpfsNode) (off : Int) : User × Option Int :=
  match node with
  | none => (u, some (-eisdir))
  | some node =>
    if node.isDir then (u, some (-eisdir))
    else if off < 0 ∨ off ≥ node.data.length then (u, some 0)
    else readAt u p buf len node.data off

/-- The bytes go to `node->data`, which is not tracked. -/
def tmpfsWrite (node : Option TmpfsNode) (off : Int) : User × Option Int :=
  match node with
  | none => (u, some (-eisdir))
  | some node =>
    let newEnd := BitVec.ofInt 64 off + len
    if node.isDir then (u, some (-eisdir))
    else if newEnd.toNat > node.dataCap ∧ !node.room then (u, some (-enospc))
    else (u.load p buf len.toNat, some len.toInt)

/-- The xorshift of `devrand_read`, and the bytes it gives. -/
def xorshift (x : Word) : Word :=
  let x := x ^^^ (x <<< 13)
  let x := x ^^^ (x >>> 7)
  x ^^^ (x <<< 17)

/-- The bytes that the generator of `/dev/random` gives from `x` on. -/
def randBytes : Nat → Word → List UInt8
  | 0, _ => []
  | n + 1, x => UInt8.ofNat (xorshift x).toNat :: randBytes n (xorshift x)

/-- The loop of `tty_read` with `n` bytes to go, the next one for offset `i`. -/
def ttyReadLoop (u : User) : Nat → Nat → List (Option UInt8) → User × Option Int
  | 0, i, _ => (u, some i)
  | _ + 1, _, [] => (u, none)
  | _ + 1, i, none :: _ => (u, some (if i = 0 then -eintr else i))
  | n + 1, i, some c :: line =>
    let c := if c = 13 then 10 else c
    let u := u.store p (buf + BitVec.ofNat 64 i) [c]
    if c = 10 then (u, some (i + 1)) else ttyReadLoop u n (i + 1) line

/-- `f->vnode->ops->read`, where there is one. -/
def vnodeRead (serial : List (Option UInt8)) (off : Int) : VnodeOps → User × Option Int
  | .none => (u, some (-einval))
  | .initrd ent => initrdVnRead u p buf len ent off
  | .tmpfs node => tmpfsRead u p buf len node off
  | .devnull => (u, some 0)
  | .devzero => (u.store p buf (List.replicate len.toNat 0), some len.toInt)
  | .devrand x => (u.store p buf (randBytes len.toNat x), some len.toInt)
  | .tty => ttyReadLoop p buf u len.toNat 0 serial

/-- `f->vnode->ops->write`, where there is one. -/
def vnodeWrite (off : Int) : VnodeOps → User × Option Int
  | .none | .initrd _ => (u, some (-einval))
  | .tmpfs node => tmpfsWrite u p buf len node off
  | .devnull | .devzero | .devrand _ => (u, some len.toInt)
  | .tty => (u.load p buf len.toNat, some len.toInt)

end

/-! ## The console

The requests of `tty_ioctl` and the structures that it writes.
-/

/-- `struct winsize` of a screen of 25 rows and 80 columns. -/
def winsize : List UInt8 := leBytes 2 25 ++ leBytes 2 80 ++ leBytes 2 0 ++ leBytes 2 0

/-- `struct termios`: the four flag words, then `c_cc` with `VINTR`, `VQUIT`, `VERASE`, `VKILL`, `VEOF` and `VMIN`
    set. -/
def termios : List UInt8 :=
  leBytes 4 0o400 ++ leBytes 4 0o5 ++ leBytes 4 0xBF ++ leBytes 4 0o73 ++ [3, 28, 127, 21, 4, 0, 1] ++ List.replicate 25 0

/-- What a request writes to `*arg`, and whether it is one the console knows. -/
def ttyReply (pgid : BitVec 32) (req : Nat) : Option (List UInt8) :=
  match req with
  | 0x5413 => some winsize                                       -- TIOCGWINSZ
  | 0x5401 => some termios                                       -- TCGETS
  | 0x540F => some (leBytes 4 pgid.toNat)                             -- TIOCGPGRP
  | 0x5402 | 0x5403 | 0x5404 | 0x5410 => some []                 -- TCSETS, TCSETSW, TCSETSF, TIOCSPGRP
  | _ => none

/-- No check stands before the store. -/
def ttyIoctl (pgid : BitVec 32) (u : User) (p : Ptr) (req arg : Word) : User × Int :=
  match ttyReply pgid req.toNat with
  | some [] => (u, 0)
  | some reply => (if arg = 0 then u else u.store p arg reply, 0)
  | none => (u, -enotty)

/-! ## System calls

Each call with the order of its checks, its copies and its effects.
-/

/-! ### Signals

The structure that `rt_sigaction` copies, and the signals that cannot be blocked.
-/

/-- `sigaction_t`. -/
structure SigAction where
  handler : Word
  mask    : Word
  flags   : BitVec 32

namespace SigAction

/-- The structure in memory, with its padding. -/
def encode (sa : SigAction) : List UInt8 :=
  leBytes 8 sa.handler.toNat ++ leBytes 8 sa.mask.toNat ++ leBytes 4 sa.flags.toNat ++ leBytes 4 0

/-- The structure from memory. -/
def decode (bs : List UInt8) : SigAction :=
  { handler := BitVec.ofNat 64 (ofLe (bs.take 8))
    mask := BitVec.ofNat 64 (ofLe ((bs.drop 8).take 8))
    flags := BitVec.ofNat 32 (ofLe ((bs.drop 16).take 4)) }

end SigAction

/-- `SIGKILL`. -/
def sigkill : Nat := 9

/-- `SIGSTOP`. -/
def sigstop : Nat := 19

/-- The calling process: its memory and its signal state. -/
structure Task where
  user        : User
  sigHandlers : Nat → SigAction
  sigBlocked  : Word

section

variable (env : Env) (t : Task)

/-- `(int)fd`. -/
def getFile (fd : Word) : Option File := env.files (fd.setWidth 32)

/-- `sys_read`. -/
def sysRead (fd buf len : Word) : Task × Option Int :=
  if !accessOk buf len then ({ t with user := t.user.refuse (.arg 1) buf len.toNat }, some (-efault))
  else match getFile env fd with
    | none => (t, some (-ebadf))
    | some f =>
      let r := match f.ops, f.vnode with
        | .pipeRead turns, _ => pipeReadFn t.user (.arg 1) buf len turns
        | _, some vn => vnodeRead t.user (.arg 1) buf len env.serial f.offset vn.ops
        | _, none => (t.user, some (-einval))
      ({ t with user := r.1 }, r.2)

/-- `sys_write`. -/
def sysWrite (fd buf len : Word) : Task × Option Int :=
  if !accessOk buf len then ({ t with user := t.user.refuse (.arg 1) buf len.toNat }, some (-efault))
  else match getFile env fd with
    | none => (t, some (-ebadf))
    | some f =>
      let r := match f.ops, f.vnode with
        | .pipeWrite readClosed turns, _ => pipeWriteFn t.user (.arg 1) buf len readClosed turns
        | _, some vn => vnodeWrite t.user (.arg 1) buf len f.offset vn.ops
        | _, none => (t.user, some (-einval))
      ({ t with user := r.1 }, r.2)

/-- `sys_open`. -/
def sysOpen (path flags mode : Word) : Task × Option Int :=
  let (u, r, name) := strncpyFromUser t.user (.arg 0) path pathMax
  if r < 0 then ({ t with user := u }, some r)
  else ({ t with user := u }, some (env.vfsOpen name (flags.setWidth 32) (mode.setWidth 32)))

/-- `do_stat`. -/
def doStat (u : User) (vn : Vnode) (statPtr : Word) : User × Int :=
  match vn.stat with
  | .error r => (u, r)
  | .ok st => copyToUser u (.arg 1) statPtr st.toList

/-- `sys_stat`. -/
def sysStat (path statPtr : Word) : Task × Option Int :=
  let (u, r, name) := strncpyFromUser t.user (.arg 0) path pathMax
  if r < 0 then ({ t with user := u }, some r)
  else match env.vfsLookup name with
    | .error err => ({ t with user := u }, some err)
    | .ok vn =>
      let (u, err) := doStat u vn statPtr
      ({ t with user := u }, some err)

/-- A file without a vnode (an end of a pipe) makes `do_stat` follow a null pointer: the call never returns. -/
def sysFstat (fd statPtr : Word) : Task × Option Int :=
  match getFile env fd with
  | none => (t, some (-ebadf))
  | some f => match f.vnode with
    | none => (t, none)
    | some vn =>
      let (u, r) := doStat t.user vn statPtr
      ({ t with user := u }, some r)

/-- Only the console has an `ioctl` callback. -/
def sysIoctl (fd req arg : Word) : Task × Option Int :=
  match getFile env fd with
  | none => (t, some (-ebadf))
  | some f => match f.vnode with
    | some ⟨_, .tty, _, _⟩ =>
      let (u, r) := ttyIoctl env.pgid t.user (.arg 2) req arg
      ({ t with user := u }, some r)
    | _ => (t, some (-enotty))

/-- `vn->ops->readdir`. -/
def Vnode.readdir (vn : Vnode) (off : Int) : Option (Vector UInt8 280) :=
  if 0 ≤ off then vn.listing[off.toNat]? else none

/-- The loop of `sys_getdents64`: `n` records of room are left. -/
def getdentsLoop (vn : Vnode) (buf : Word) (u : User) : Nat → Nat → Int → User × Nat
  | 0, written, _ => (u, written)
  | n + 1, written, off =>
    match vn.readdir off with
    | none => (u, written)
    | some kdirent =>
      let (u, r) := copyToUser u (.arg 1) (buf + BitVec.ofNat 64 written) kdirent.toList
      if r < 0 then (u, written) else getdentsLoop vn buf u n (written + 280) (off + 1)

/-- `sys_getdents64`. -/
def sysGetdents64 (fd direntPtr count : Word) : Task × Option Int :=
  match getFile env fd with
  | none => (t, some (-ebadf))
  | some f => match f.vnode with
    | none => (t, some (-enotdir))
    | some vn =>
      if !vn.isDir then (t, some (-enotdir))
      else
        let (u, written) := getdentsLoop vn direntPtr t.user (count.toNat / 280) 0 f.offset
        ({ t with user := u }, some written)

/-- `sys_rt_sigaction`. -/
def sysRtSigaction (signo actPtr oldactPtr : Word) : Task × Option Int :=
  if signo.toNat < 1 ∨ signo.toNat > nsig then (t, some (-einval))
  else if signo.toNat = sigkill ∨ signo.toNat = sigstop then (t, some (-einval))
  else
    -- the old action is stored before the new one is read; whether that worked is not asked
    let u := if oldactPtr = 0 then t.user
      else (copyToUser t.user (.arg 2) oldactPtr (t.sigHandlers signo.toNat).encode).1
    if actPtr = 0 then ({ t with user := u }, some 0)
    else
      let (u, r, sa) := copyFromUser u (.arg 1) actPtr 24
      if r < 0 then ({ t with user := u }, some r)
      else ({ t with user := u, sigHandlers := Function.update t.sigHandlers signo.toNat (.decode sa) }, some 0)

/-- SIGKILL and SIGSTOP cannot be blocked. -/
def maskable : Word := ~~~(BitVec.twoPow 64 (sigkill - 1) ||| BitVec.twoPow 64 (sigstop - 1))

/-- `sys_rt_sigprocmask`. -/
def sysRtSigprocmask (how setPtr oldsetPtr : Word) : Task × Option Int :=
  let u := if oldsetPtr = 0 then t.user
    else (copyToUser t.user (.arg 2) oldsetPtr (leBytes 8 t.sigBlocked.toNat)).1
  if setPtr = 0 then ({ t with user := u }, some 0)
  else
    let (u, r, bs) := copyFromUser u (.arg 1) setPtr 8
    if r < 0 then ({ t with user := u }, some r)
    else
      let newMask := BitVec.ofNat 64 (ofLe bs) &&& maskable
      match (how.setWidth 32).toNat with
      | 0 => ({ t with user := u, sigBlocked := t.sigBlocked ||| newMask }, some 0)        -- SIG_BLOCK
      | 1 => ({ t with user := u, sigBlocked := t.sigBlocked &&& ~~~newMask }, some 0)     -- SIG_UNBLOCK
      | 2 => ({ t with user := u, sigBlocked := newMask }, some 0)                         -- SIG_SETMASK
      | _ => ({ t with user := u }, some (-einval))

/-- The loop of `sys_execve` over one array, with `n` entries of room left and entry `i` next. The result of
    `strncpy_from_user` is not looked at. -/
def argLoop (arr : Ptr) (str : Nat → Ptr) (base : Word) (u : User) :
    Nat → Nat → List (List UInt8) → User × List (List UInt8)
  | 0, _, args => (u, args)
  | n + 1, i, args =>
    let (u, r, bs) := copyFromUser u arr (base + BitVec.ofNat 64 (8 * i)) 8
    if r < 0 then (u, args)
    else if BitVec.ofNat 64 (ofLe bs) = 0#64 then (u, args)
    else
      let (u, _, s) := strncpyFromUser u (str i) (BitVec.ofNat 64 (ofLe bs)) argMax
      argLoop arr str base u n (i + 1) (args ++ [s])

/-- One of the two arrays of `sys_execve`, or none. -/
def copyArgs (arr : Ptr) (str : Nat → Ptr) (base : Word) (u : User) : User × List (List UInt8) :=
  if base = 0 then (u, []) else argLoop arr str base u maxArgs 0 []

/-- `sys_execve`, up to `proc_exec`. -/
def sysExecve (path argvPtr envpPtr : Word) : Task × Option Int :=
  let (u, r, name) := strncpyFromUser t.user (.arg 0) path pathMax
  if r < 0 then ({ t with user := u }, some r)
  else
    let (u, argv) := copyArgs (.arg 1) .argv argvPtr u
    let (u, envp) := copyArgs (.arg 2) .envp envpPtr u
    ({ t with user := u }, some (env.procExec name argv envp))

end

/-- The calls that take a pointer, with their arguments. -/
inductive Call where
  | read (fd buf len : Word)
  | write (fd buf len : Word)
  | open (path flags mode : Word)
  | stat (path statPtr : Word)
  | fstat (fd statPtr : Word)
  | ioctl (fd req arg : Word)
  | getdents64 (fd direntPtr count : Word)
  | rtSigaction (signo actPtr oldactPtr : Word)
  | rtSigprocmask (how setPtr oldsetPtr : Word)
  | execve (path argvPtr envpPtr : Word)

/-- `syscall_dispatch`. -/
def dispatch (env : Env) (t : Task) : Call → Task × Option Int
  | .read fd buf len => sysRead env t fd buf len
  | .write fd buf len => sysWrite env t fd buf len
  | .open path flags mode => sysOpen env t path flags mode
  | .stat path statPtr => sysStat env t path statPtr
  | .fstat fd statPtr => sysFstat env t fd statPtr
  | .ioctl fd req arg => sysIoctl env t fd req arg
  | .getdents64 fd direntPtr count => sysGetdents64 env t fd direntPtr count
  | .rtSigaction signo actPtr oldactPtr => sysRtSigaction t signo actPtr oldactPtr
  | .rtSigprocmask how setPtr oldsetPtr => sysRtSigprocmask t how setPtr oldsetPtr
  | .execve path argvPtr envpPtr => sysExecve env t path argvPtr envpPtr

end MyUnix.Proc
