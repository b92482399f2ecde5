import MyUnix.Fs.InitrdBounds
import MyUnix.Lib.Cursor
import MyUnix.Proc.UserCopies

/-!
# `Fs.InitrdRead` — reading a file of the archive

`sys_read` and `sys_lseek` on an open file of `initrd`. The offset lives in the open file, so every descriptor that names
the file moves it; the contents are a range of the archive and never change. Whatever the sizes of the reads and
wherever `lseek` has gone, the file is thus the list of its bytes read with a cursor (`Lib.Cursor`).

The calls may come through any descriptor that names the file, also after `dup`, since they share the open file. What
a sequence of them gives is a function of the positions, and the positions are what the calls say. Reads never fail
half way: the driver copies at most what is left of the file.
-/

namespace MyUnix.Fs

open MyUnix.Lib
open Arch (Word)
open Proc (User Task Env userEnd)

/-! ## The calls

What is left of a call when the descriptor and the buffer have been checked.
-/

/-- The open files behind the descriptors of a process. `vnSize` is `f->vnode->size`. -/
structure OpenFiles where
  fdTable : BitVec 32 → Option Nat
  file    : Nat → Proc.File
  vnSize  : Nat → Int

namespace OpenFiles

variable (o : OpenFiles)

/-- `f->offset = off`. -/
def setOffset (i : Nat) (off : Int) : OpenFiles :=
  { o with file := Function.update o.file i { o.file i with offset := off } }

/-- `sys_read`: the call as the process sees it, and `f->offset += n`, where `f` is no pipe. -/
def sysRead (env : Env) (t : Task) (fd buf len : Word) : OpenFiles × Task × Option Int :=
  let (t, r) := Proc.sysRead { env with files := fun fd => (o.fdTable fd).map o.file } t fd buf len
  match r, o.fdTable (fd.setWidth 32) with
  | some n, some i =>
      match (o.file i).ops, (o.file i).vnode with
      | .pipeRead _, _ => (o, t, r)
      | _, none        => (o, t, r)
      | _, some _      => (if 0 < n then o.setOffset i ((o.file i).offset + n) else o, t, r)
  | _, _ => (o, t, r)

/-- `sys_lseek`. Sums are those of 64-bit words. -/
def sysLseek (fd offset whence : Word) : OpenFiles × Int :=
  match o.fdTable (fd.setWidth 32) with
  | none   => (o, -ebadf)
  | some i =>
      let moveTo (newOff : Word) : OpenFiles × Int :=
        if newOff.toInt < 0 then (o, -einval) else (o.setOffset i newOff.toInt, newOff.toInt)
      match (whence.setWidth 32).toNat with
      | 0 => moveTo offset
      | 1 => moveTo (BitVec.ofInt 64 (o.file i).offset + offset)
      | 2 => moveTo (BitVec.ofInt 64 (if (o.file i).vnode.isSome then o.vnSize i else 0) + offset)
      | _ => (o, -einval)

/-- The file number `i` is open on this entry of `initrd`, at this position. -/
structure At (i : Nat) (ent : Proc.InitrdEntry) (pos : Nat) : Prop where
  ops    : (o.file i).ops = .none
  vnode  : ∃ vn, (o.file i).vnode = some vn ∧ vn.ops = .initrd (some ent)
  vnSize : o.vnSize i = ent.data.length
  offset : (o.file i).offset = pos

end OpenFiles

/-- The entry as `initrd_vn_read` finds it, with its bytes. -/
def InitrdEntry.opened (m : ByteMem) (d : InitrdEntry) : Proc.InitrdEntry := ⟨d.isDir, m.read d.data d.attr.size⟩

/-- A call of `read`, with the kernel and the memory it finds. -/
structure ReadCall where
  env : Env
  t   : Task
  fd  : Word
  buf : Word
  len : Word

/-- The descriptor names the file, and the buffer lies in user space. -/
structure ReadCall.Valid (o : OpenFiles) (i : Nat) (c : ReadCall) : Prop where
  fd  : o.fdTable (c.fd.setWidth 32) = some i
  buf : c.buf.toNat + c.len.toNat ≤ userEnd.toNat

/-- A call of `lseek`. -/
structure SeekCall where
  fd     : Word
  offset : Word
  whence : Word

/-- Where `lseek` is to go, as a number. -/
def SeekCall.target (c : SeekCall) (data : List UInt8) (pos : Nat) : Option Int :=
  match (c.whence.setWidth 32).toNat with
  | 0 => some c.offset.toInt
  | 1 => some (pos + c.offset.toInt)
  | 2 => some (data.length + c.offset.toInt)
  | _ => none

/-- The descriptor names the file, and the position is not negative and fits an `off_t`. -/
structure SeekCall.Valid (o : OpenFiles) (i : Nat) (data : List UInt8) (pos : Nat) (c : SeekCall) : Prop where
  fd     : o.fdTable (c.fd.setWidth 32) = some i
  target : ∃ p : Nat, c.target data pos = some p ∧ p < 2 ^ 63

/-- A call of `sys_read` or `sys_lseek`. -/
inductive FileCall where
  | read (c : ReadCall)
  | lseek (c : SeekCall)

namespace OpenFiles

variable (o : OpenFiles)

/-- The call of `sys_read`. -/
def read (c : ReadCall) : OpenFiles × Task × Option Int := o.sysRead c.env c.t c.fd c.buf c.len

/-- The call of `sys_lseek`. -/
def lseek (c : SeekCall) : OpenFiles × Int := o.sysLseek c.fd c.offset c.whence

end OpenFiles

namespace FileCall

/-- What a call leaves of the open files. -/
def step (o : OpenFiles) : FileCall → OpenFiles
  | read c  => (o.read c).1
  | lseek c => (o.lseek c).1

/-- The call is on the open file of the number `i`, with the data `data` at position `pos`. -/
def Valid (o : OpenFiles) (i : Nat) (data : List UInt8) (pos : Nat) : FileCall → Prop
  | read c  => c.Valid o i
  | lseek c => c.Valid o i data pos

/-- Where the reader is after a call. -/
def posAfter (data : List UInt8) (pos : Nat) : FileCall → Nat
  | read c  => pos + (readFrom data pos c.len.toNat).length
  | lseek c => ((c.target data pos).getD 0).toNat

end FileCall

/-- A read returns these bytes, in the buffer of the caller, and leaves the file at `pos`. -/
structure Returns (o : OpenFiles) (i : Nat) (ent : Proc.InitrdEntry) (c : ReadCall) (bytes : List UInt8) (pos : Nat) :
    Prop where
  ret   : (o.read c).2.2 = some (bytes.length : Int)
  bytes : (o.read c).2.1.user.bytes c.buf bytes.length = bytes
  file  : (o.read c).1.At i ent pos

/-- What the calls on the file `i` give while it is at `pos`. -/
structure ReadsFrom (o : OpenFiles) (i : Nat) (ent : Proc.InitrdEntry) (pos : Nat) : Prop where
  /-- A read returns the bytes from the position on, as many as were asked for or are left, and moves by their number. -/
  read  : ∀ c, ReadCall.Valid o i c →
    Returns o i ent c ((ent.data.drop pos).take c.len.toNat) (pos + min c.len.toNat (ent.data.length - pos))
  /-- At the end or behind it a read returns 0 and leaves the file as it is. -/
  stop  : ent.data.length ≤ pos → ∀ c, ReadCall.Valid o i c → (o.read c).1 = o ∧ (o.read c).2.2 = some 0
  /-- Two reads give what one read of both lengths gives. -/
  split : ∀ c₁ c₂ c, ReadCall.Valid o i c₁ → ReadCall.Valid (o.read c₁).1 i c₂ → ReadCall.Valid o i c →
    c.len.toNat = c₁.len.toNat + c₂.len.toNat →
    ∃ bs₁ bs₂ mid fin, Returns o i ent c₁ bs₁ mid ∧ Returns (o.read c₁).1 i ent c₂ bs₂ fin ∧
      Returns o i ent c (bs₁ ++ bs₂) fin
  /-- `lseek` goes where it is told. -/
  lseek : ∀ c, SeekCall.Valid o i ent.data pos c →
    ∃ p : Nat, c.target ent.data pos = some (p : Int) ∧ (o.lseek c).2 = p ∧ (o.lseek c).1.At i ent p

/-- The calls are valid, each where the ones before it have left the file. -/
def CallsValid (o : OpenFiles) (i : Nat) (data : List UInt8) (pos : Nat) : List FileCall → Prop
  | []      => True
  | c :: cs => c.Valid o i data pos ∧ CallsValid (c.step o) i data (c.posAfter data pos) cs

/-- At every moment of the sequence the file reads from where the calls so far have gone. -/
def ReadsThroughout (o : OpenFiles) (i : Nat) (ent : Proc.InitrdEntry) (pos : Nat) : List FileCall → Prop
  | []      => ReadsFrom o i ent pos
  | c :: cs => ReadsFrom o i ent pos ∧ ReadsThroughout (c.step o) i ent (c.posAfter ent.data pos) cs

/-! ## One call

A read before the end, at the end and behind it, and a seek.
-/

section
variable {o : OpenFiles} {i pos : Nat} {ent : Proc.InitrdEntry}

theorem OpenFiles.At.setOffset (h : o.At i ent pos) (p : Nat) : (o.setOffset i p).At i ent p := by
  have hfile : (o.setOffset i p).file i = { o.file i with offset := p } := Function.update_self _ _ _
  refine ⟨?_, ?_, h.vnSize, ?_⟩
  · rw [hfile]
    exact h.ops
  · rw [hfile]
    exact h.vnode
  · rw [hfile]

/-- A read asks the driver, and a result above 0 moves the offset. -/
theorem OpenFiles.At.read_eq (h : o.At i ent pos) {c : ReadCall} (hc : c.Valid o i) {u : User} {n : Int}
    (hdriver : Proc.initrdVnRead c.t.user (.arg 1) c.buf c.len (some ent) pos = (u, some n)) :
    o.read c = (if 0 < n then o.setOffset i (pos + n) else o, { c.t with user := u }, some n) := by
  obtain ⟨vn, hvn, hops⟩ := h.vnode
  have hok : Proc.accessOk c.buf c.len = true := Proc.accessOk_iff.mpr hc.buf
  simp only [OpenFiles.read, OpenFiles.sysRead, Proc.sysRead, hok, Bool.not_true, Bool.false_eq_true, if_false,
    Proc.getFile, hc.fd, Option.map_some, h.ops, hvn, Proc.vnodeRead, hops, h.offset, hdriver]

/-- `initrd_vn_read` before the end of the file. -/
theorem initrdVnRead_before (hreg : ent.isDir = false) (hpos : pos < ent.data.length) (u : User) (buf len : Word) :
    Proc.initrdVnRead u (.arg 1) buf len (some ent) pos =
      (u.store (.arg 1) buf (readFrom ent.data pos len.toNat), some ((readFrom ent.data pos len.toNat).length : Int)) := by
  have hneg : ¬(pos : Int) < 0 := by omega
  have hin : ¬(pos : Int) ≥ ent.data.length := by omega
  have hlen : min len.toNat (ent.data.length - pos) = (readFrom ent.data pos len.toNat).length := length_readFrom.symm
  have htake : (ent.data.drop pos).take (readFrom ent.data pos len.toNat).length = readFrom ent.data pos len.toNat := by
    rw [length_readFrom, readFrom, ← List.length_drop, ← List.take_eq_take_min]
  simp only [Proc.initrdVnRead, hreg, Bool.false_eq_true, if_false, hneg, hin, Proc.readAt, Int.toNat_natCast, hlen,
    htake]

/-- And behind it. -/
theorem initrdVnRead_end (hreg : ent.isDir = false) (hpos : ent.data.length ≤ pos) (u : User) (buf len : Word) :
    Proc.initrdVnRead u (.arg 1) buf len (some ent) pos = (u, some 0) := by
  have hneg : ¬(pos : Int) < 0 := by omega
  have hend : (pos : Int) ≥ ent.data.length := by omega
  simp only [Proc.initrdVnRead, hreg, Bool.false_eq_true, if_false, hneg, hend, if_true]

/-- At the end of the file nothing is read and nothing moves. -/
theorem OpenFiles.At.read_end (h : o.At i ent pos) (hreg : ent.isDir = false) {c : ReadCall} (hc : c.Valid o i)
    (hpos : ent.data.length ≤ pos) : o.read c = (o, c.t, some 0) := by
  rw [h.read_eq hc (initrdVnRead_end hreg hpos _ _ _), if_neg (lt_irrefl 0)]

/-- **One read** is a read of the bytes with a cursor. -/
theorem OpenFiles.At.returns (h : o.At i ent pos) (hreg : ent.isDir = false) {c : ReadCall} (hc : c.Valid o i) :
    Returns o i ent c (readFrom ent.data pos c.len.toNat) (pos + (readFrom ent.data pos c.len.toNat).length) := by
  by_cases hpos : pos < ent.data.length
  · have hread := h.read_eq hc (initrdVnRead_before hreg hpos _ _ _)
    have hlt : (readFrom ent.data pos c.len.toNat).length < 2 ^ 64 := by
      have hbuf := c.len.isLt
      rw [length_readFrom]
      omega
    refine ⟨by rw [hread], ?_, ?_⟩
    · rw [hread]
      exact User.bytes_store_self hlt
    · rw [hread]
      split
      next => exact_mod_cast h.setOffset _
      next hzero =>
        have hnone : (readFrom ent.data pos c.len.toNat).length = 0 := by omega
        rw [hnone]
        exact h
  · have hend : readFrom ent.data pos c.len.toNat = [] := by
      rw [readFrom, List.drop_eq_nil_of_le (Nat.not_lt.mp hpos), List.take_nil]
    have hread := h.read_end hreg hc (Nat.not_lt.mp hpos)
    rw [hend]
    refine ⟨by rw [hread]; rfl, rfl, ?_⟩
    rw [hread]
    exact h

/-- **`lseek`** to a position that an `off_t` holds. -/
theorem OpenFiles.At.seeks (h : o.At i ent pos) {c : SeekCall} (hlen : ent.data.length < 2 ^ 63) (hpos : pos < 2 ^ 63)
    (hc : c.Valid o i ent.data pos) :
    ∃ p : Nat, p < 2 ^ 63 ∧ c.target ent.data pos = some (p : Int) ∧ (o.lseek c).2 = p ∧ (o.lseek c).1.At i ent p := by
  obtain ⟨p, htarget, hp⟩ := hc.target
  refine ⟨p, hp, htarget, ?_⟩
  obtain ⟨vn, hvn, hops⟩ := h.vnode
  -- the sum of words is the sum of the numbers, since that is a position
  have hword : ∀ base : Nat, base < 2 ^ 63 → (base : Int) + c.offset.toInt = p →
      (BitVec.ofInt 64 base + c.offset).toInt = p := by
    intro base hbase hsum
    rw [BitVec.toInt_add, BitVec.toInt_ofInt, Int.bmod_add_bmod, hsum]
    exact Int.bmod_eq_of_le (by omega) (by omega)
  -- all three ways end in the same two lines
  have hmove : ∀ w : Word, w.toInt = p →
      ((if w.toInt < 0 then (o, -einval) else (o.setOffset i w.toInt, w.toInt)) : OpenFiles × Int) =
        (o.setOffset i (p : Int), (p : Int)) := by
    intro w hw
    rw [hw, if_neg (by omega)]
  have hall : o.lseek c = (o.setOffset i (p : Int), (p : Int)) := by
    simp only [OpenFiles.lseek, OpenFiles.sysLseek, hc.fd]
    rw [SeekCall.target] at htarget
    generalize (c.whence.setWidth 32).toNat = whence at htarget ⊢
    match whence, htarget with
    | 0, hset => exact hmove _ (Option.some.inj hset)
    | 1, hcur =>
      show ite _ _ _ = _
      rw [h.offset]
      exact hmove _ (hword pos hpos (Option.some.inj hcur))
    | 2, hend =>
      show ite _ _ _ = _
      rw [hvn, Option.isSome_some, if_pos rfl, h.vnSize]
      exact hmove _ (hword _ hlen (Option.some.inj hend))
  rw [hall]
  exact ⟨rfl, h.setOffset p⟩

/-- **All calls at one position.** -/
theorem OpenFiles.At.readsFrom (h : o.At i ent pos) (hreg : ent.isDir = false) (hlen : ent.data.length < 2 ^ 63)
    (hpos : pos < 2 ^ 63) : ReadsFrom o i ent pos where
  read c hc := by
    have hret := h.returns hreg hc
    rwa [length_readFrom] at hret
  stop hend c hc := by
    rw [h.read_end hreg hc hend]
    exact ⟨rfl, rfl⟩
  split c₁ c₂ c hc₁ hc₂ hc hsum := by
    have h₁ := h.returns hreg hc₁
    have h₂ := h₁.file.returns hreg hc₂
    have hret := h.returns hreg hc
    rw [hsum, readFrom_add, List.length_append, ← Nat.add_assoc] at hret
    exact ⟨_, _, _, _, h₁, h₂, hret⟩
  lseek c hc := by
    obtain ⟨p, -, htarget, hret, hat⟩ := h.seeks hlen hpos hc
    exact ⟨p, htarget, hret, hat⟩

/-- **A call leaves the file at the next position.** -/
theorem OpenFiles.At.step (h : o.At i ent pos) (hreg : ent.isDir = false) (hlen : ent.data.length < 2 ^ 63)
    (hpos : pos < 2 ^ 63) {c : FileCall} (hc : c.Valid o i ent.data pos) :
    (c.step o).At i ent (c.posAfter ent.data pos) ∧ c.posAfter ent.data pos < 2 ^ 63 := by
  cases c with
  | read c =>
    refine ⟨(h.returns hreg hc).file, ?_⟩
    show pos + (readFrom ent.data pos c.len.toNat).length < 2 ^ 63
    rw [length_readFrom]
    omega
  | lseek c =>
    obtain ⟨p, hp, htarget, -, hat⟩ := h.seeks hlen hpos hc
    have hafter : (FileCall.lseek c).posAfter ent.data pos = p := by
      rw [FileCall.posAfter, htarget]
      rfl
    rw [hafter]
    exact ⟨hat, hp⟩

end

/-! ## Sequences of calls

By induction over the calls, with the position carried along.
-/

theorem readsThroughout {i : Nat} {ent : Proc.InitrdEntry} (hreg : ent.isDir = false) (hlen : ent.data.length < 2 ^ 63)
    (calls : List FileCall) : ∀ {o : OpenFiles} {pos : Nat}, o.At i ent pos → pos < 2 ^ 63 →
    CallsValid o i ent.data pos calls → ReadsThroughout o i ent pos calls := by
  induction calls with
  | nil =>
    intro o pos h hpos _
    exact h.readsFrom hreg hlen hpos
  | cons c calls ih =>
    intro o pos h hpos hcalls
    obtain ⟨hat, hlt⟩ := h.step hreg hlen hpos hcalls.1
    exact ⟨h.readsFrom hreg hlen hpos, ih hat hlt hcalls.2⟩

theorem cpioParseHex_lt (m : ByteMem) (n : Nat) : ∀ {s val : Nat}, val < 2 ^ 32 → cpioParseHex m s n val < 2 ^ 32 := by
  induction n with
  | zero =>
    intro s val hval
    exact hval
  | succ n ih =>
    intro s val _
    exact ih (Nat.mod_lt _ (by decide))

/-- A file is shorter than `2 ^ 32` bytes. -/
theorem length_opened_lt {m : ByteMem} {size : Nat} {alloc : Nat → Bool} {d : InitrdEntry}
    (hd : d ∈ initrdInit m size alloc) : (d.opened m).data.length < 2 ^ 32 := by
  obtain ⟨t, -, -, ino, rfl⟩ := exists_turn_of_mem hd
  rw [InitrdEntry.opened, ByteMem.length_read]
  exact cpioParseHex_lt m 8 (by decide)

/-- **A file of the archive reads the same however it is read**: in every sequence of reads and seeks on the open file. -/
theorem initrd_reads (m : ByteMem) (size : Nat) (alloc : Nat → Bool) (d : InitrdEntry) (hd : d ∈ initrdInit m size alloc)
    (hreg : d.isDir = false) (o : OpenFiles) (i pos : Nat) (hpos : pos < 2 ^ 63) (h : o.At i (d.opened m) pos)
    (calls : List FileCall) (hcalls : CallsValid o i (d.opened m).data pos calls) :
    ReadsThroughout o i (d.opened m) pos calls := by
  have hlen := length_opened_lt hd
  exact readsThroughout hreg (by omega) calls h hpos hcalls

/-- No call changes which file a descriptor names. -/
theorem FileCall.step_fdTable (o : OpenFiles) (c : FileCall) : (c.step o).fdTable = o.fdTable := by
  cases c with
  | read c =>
    show (o.sysRead c.env c.t c.fd c.buf c.len).1.fdTable = _
    rw [OpenFiles.sysRead]
    repeat' split
    all_goals rfl
  | lseek c =>
    show (o.sysLseek c.fd c.offset c.whence).1.fdTable = _
    have hmove : ∀ (i : Nat) (w : Word),
        ((if w.toInt < 0 then (o, -einval) else (o.setOffset i w.toInt, w.toInt)) : OpenFiles × Int).1.fdTable =
          o.fdTable := by
      intro i w
      split
      · rfl
      · rfl
    rw [OpenFiles.sysLseek]
    cases hfile : o.fdTable (c.fd.setWidth 32) with
    | none => rfl
    | some i =>
      generalize (c.whence.setWidth 32).toNat = whence
      match whence with
      | 0 => exact hmove i _
      | 1 => exact hmove i _
      | 2 => exact hmove i _
      | _ + 3 => rfl

/-- A process with descriptor 3 open on the file of three bytes that `cutArchive` begins with. -/
def hiFiles : OpenFiles where
  fdTable fd := if fd = 3 then some 0 else none
  file _ := ⟨.none, some ⟨false, .initrd (some ⟨false, [104, 105, 10]⟩), .error 0, []⟩, 0⟩
  vnSize _ := 3

/-- A kernel in which every other call fails. -/
def idleEnv : Env := ⟨fun _ => none, fun _ _ _ => 0, fun _ => .error 0, fun _ _ _ => 0, [], 0⟩

/-- A process whose memory is empty. -/
def idleTask : Task := ⟨⟨fun _ => 0, []⟩, fun _ => ⟨0, 0, 0⟩, 0⟩

/-- Two bytes, back to one byte before the end, and more than are left. -/
def hiCalls : List FileCall :=
  [.read ⟨idleEnv, idleTask, 3, 0x1000, 2⟩, .lseek ⟨3, -1, 2⟩, .read ⟨idleEnv, idleTask, 3, 0x1000, 5⟩]

theorem initrd_reads_hi : ReadsThroughout hiFiles 0 ⟨false, [104, 105, 10]⟩ 0 hiCalls := by
  have hparse : initrdInit cutArchive 1024 (fun _ => true) = [cpioEntryAt cutArchive 0 116 1] := by
    obtain ⟨hname, hfile⟩ := cutArchive_header
    rw [initrdInit, parseFrom, dif_pos (by decide), if_neg (by decide +kernel), if_neg (by decide +kernel), hname, hfile,
      if_pos rfl, parseFrom, dif_pos (by decide), if_pos (by decide +kernel)]
    rfl
  have hopened : (cpioEntryAt cutArchive 0 116 1).opened cutArchive = ⟨false, [104, 105, 10]⟩ := by
    have hdir : (cpioEntryAt cutArchive 0 116 1).isDir = false := by decide +kernel
    have hdata : cutArchive.read 116 (cpioField cutArchive 0 6) = [104, 105, 10] := by decide +kernel
    show Proc.InitrdEntry.mk _ (cutArchive.read 116 (cpioField cutArchive 0 6)) = _
    rw [hdir, hdata]
  have hreads := initrd_reads cutArchive 1024 (fun _ => true) (cpioEntryAt cutArchive 0 116 1)
    (by rw [hparse]; exact List.mem_singleton_self _) (by decide +kernel) hiFiles 0 0 (by decide)
    (by rw [hopened]; exact ⟨rfl, ⟨_, rfl, rfl⟩, rfl, rfl⟩) hiCalls
  rw [hopened] at hreads
  refine hreads ⟨⟨rfl, by decide⟩, ⟨?_, 2, by decide, by decide⟩, ⟨?_, by decide⟩, trivial⟩
  · rw [FileCall.step_fdTable]
    rfl
  · rw [FileCall.step_fdTable, FileCall.step_fdTable]
    rfl

end MyUnix.Fs
