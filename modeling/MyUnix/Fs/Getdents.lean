import MyUnix.Fs.InitrdReaddir
import MyUnix.Fs.TmpfsTree
import MyUnix.Lib.Cursor
import MyUnix.Proc.UserCopies

/-!
# `Fs.Getdents` — reading a directory in pieces

`sys_getdents64` asks `readdir` for one record after the other, copies each to the caller and counts `f->offset` up, as
long as another record fits. The offset stays with the open file, and `readdir` counts its way to the offset from the
start of the directory each time. As long as the directory stays as it is, a directory of `n` records is thus the list of
the offsets below `n` read with a cursor (`Lib.Cursor`), and what the calls return does not depend on the buffers.

`kdirent` is a local variable that nothing sets: `readdir` writes the fields and the name, and what the stack held before
stays behind the name.

Whatever a file system's `readdir` does, the system call is a cursor over it. So the result has two halves: for any
`readdir` that answers at `0 … n - 1` and fails from `n` on, the calls list what it answers; and the directories of
the archive, of a tmpfs and of the devices have such a `readdir`.

A record is compared as it stands in the caller's buffer, with the name up to its zero and any bytes behind it.
-/

namespace MyUnix.Fs

open MyUnix.Lib Vfs
open Arch (Word)
open Proc (User copyToUser accessOk accessOk_ofNat_iff userEnd userEnd_toNat)

/-! ## `readdir`

The counting loops of the file systems.
-/

namespace Vfs

variable (s : Vfs)

/-- The loop of `tmpfs_readdir`, at the child number `idx`. -/
def tmpfsReaddirLoop (off : Int) (ent : Dirent) : Int → List Nat → Option (Except Errno Dirent)
  | _,   []      => some (.error .noEnt)
  | idx, c :: cs => do
    let child ← s.nodes c
    if idx = off then do
      let vn ← s.vnodes child.vn
      pure (.ok ⟨vn.data.attr.ino, idx + 1, direntSize, if vn.data.type = .dir then dtDir else dtReg,
        strncpyTo child.name 0 nameMax ent.dName⟩)
    else tmpfsReaddirLoop off ent (idx + 1) cs

/-- `tmpfs_readdir`. -/
def tmpfsReaddir (dir : Nat) (priv : Option Nat) (off : Int) (ent : Dirent) : Option (Except Errno Dirent) :=
  match priv with
  | none   => some (.error .inval)
  | some n => do
      let parent ← s.nodes n
      if off = 0 then do
        let vn ← s.vnodes dir
        pure (.ok ⟨vn.data.attr.ino, 1, direntSize, dtDir, strcpyTo dot 0 ent.dName⟩)
      else if off = 1 then do
        let pv ← s.tmpfsParentVn dir parent
        let vn ← s.vnodes pv
        pure (.ok ⟨vn.data.attr.ino, 2, direntSize, dtDir, strcpyTo dotDot 0 ent.dName⟩)
      else s.tmpfsReaddirLoop off ent 2 parent.children

/-- `ops->readdir`. The devices have none. -/
def opsReaddir (dir : Nat) (off : Int) (ent : Dirent) : Option (Except Errno Dirent) := do
  let v ← s.vnodes dir
  match v.data.ops with
  | .initrd => pure (s.initrdReaddir v.data.priv off ent)
  | .tmpfs  => s.tmpfsReaddir dir v.data.priv off ent
  | .device => none

end Vfs

/-! ## `sys_getdents64`

The call with its buffer, its offset and the record on the kernel stack.
-/

/-- The bytes of a record: the fields, the name, and the padding behind it. -/
def Dirent.encode (d : Dirent) (tail : Vector UInt8 5) : List UInt8 :=
  leBytes 8 d.dIno ++ leBytes 8 (BitVec.ofInt 64 d.dOff).toNat ++ leBytes 2 d.dReclen ++ leBytes 1 d.dType ++
    (List.range (nameMax + 1)).map (fun i => UInt8.ofNat (d.dName i).toNat) ++ tail.toList

/-- A call: its arguments, the memory of the caller, and what the kernel stack holds where `kdirent` and its padding
    are. -/
structure GetdentsCall where
  direntPtr : Word
  count     : Word
  user      : User
  kdirent   : Dirent
  tail      : Vector UInt8 5

namespace Vfs

variable (s : Vfs)

/-- The loop of `sys_getdents64`: `n` more records fit. -/
def getdentsLoop (dir : Nat) (buf : Word) (tail : Vector UInt8 5) : Nat → Nat → Nat → Dirent → User →
    Option (User × Nat × Nat)
  | 0,     written, off, _,       u => some (u, written, off)
  | n + 1, written, off, kdirent, u => do
    match ← s.opsReaddir dir off kdirent with
    | .error _    => pure (u, written, off)
    | .ok kdirent =>
        let (u, r) := copyToUser u (.arg 1) (buf + BitVec.ofNat 64 written) (kdirent.encode tail)
        if r < 0 then pure (u, written, off)
        else getdentsLoop dir buf tail n (written + direntSize) (off + 1) kdirent u

/-- `sys_getdents64` on the file that `get_file` found. -/
def sysGetdents64 (f : Option File) (c : GetdentsCall) : Option (Int × User × Option File) :=
  match f with
  | none   => some (-ebadf, c.user, none)
  | some f => do
      let v ← s.vnodes f.vnode
      if v.data.type ≠ .dir then pure (-enotdir, c.user, some f)
      else do
        let (u, written, off) ←
          s.getdentsLoop f.vnode c.direntPtr c.tail (c.count.toNat / direntSize) 0 f.offset c.kdirent c.user
        pure (written, u, some { f with offset := off })

/-- Calls one after the other on an open file: what each returns, and the memory it leaves. -/
def getdentsCalls : Option File → List GetdentsCall → Option (List (Int × User))
  | _, []      => some []
  | f, c :: cs => do
    let (r, u, f) ← s.sysGetdents64 f c
    let outs ← getdentsCalls f cs
    pure ((r, u) :: outs)

end Vfs

/-! ## What the calls return

The records of one call, of all calls, and up to the first call that returns nothing.
-/

/-- The records that a call has returned, as they stand in the buffer then. -/
def returned (c : GetdentsCall) (out : Int × User) : List (List UInt8) :=
  (List.range (out.1.toNat / direntSize)).map fun i => out.2.bytes (c.direntPtr + BitVec.ofNat 64 (direntSize * i)) direntSize

/-- The records returned before the first call that returns 0, put together. -/
def recordsUntilZero (calls : List GetdentsCall) (outs : List (Int × User)) : List (List UInt8) :=
  ((calls.zip outs).takeWhile fun p => p.2.1 ≠ 0).flatMap fun p => returned p.1 p.2

/-- The buffer lies in user space and has room for a record. -/
structure GetdentsCall.Valid (c : GetdentsCall) : Prop where
  inside : c.direntPtr.toNat + c.count.toNat ≤ userEnd.toNat
  room   : direntSize ≤ c.count.toNat

/-- `readdir` gives a record at each offset below `n`, and fails at `n`. -/
structure Listing (s : Vfs) (dir n : Nat) : Prop where
  given : ∀ k < n, ∀ ent, ∃ d, s.opsReaddir dir k ent = some (.ok d)
  stop  : ∀ ent, ∃ err, s.opsReaddir dir n ent = some (.error err)

/-- The bytes are a record that `readdir(k)` gives, over whatever was in `kdirent`. -/
def IsRecord (s : Vfs) (dir k : Nat) (bs : List UInt8) : Prop :=
  ∃ ent d tail, s.opsReaddir dir k ent = some (.ok d) ∧ bs = d.encode tail

/-- The first `NAME_MAX` bytes are the name and zeros. -/
def NameIn (buf : Buf) (name : Path) : Prop := ∀ i < nameMax, buf i = (name[i]?).getD '\x00'

/-- What the record `k` of a tmpfs directory is to show: the directory, its parent, then the children in order. -/
inductive TmpfsShows (s : Vfs) (dir : Nat) (p : TmpfsNode) : Nat → Dirent → Prop
  | self {v : Vnode} {d : Dirent} (vnode : s.vnodes dir = some v) (ino : d.dIno = v.data.attr.ino)
      (name : CStr d.dName dot) : TmpfsShows s dir p 0 d
  | parent {pv : Nat} {v : Vnode} {d : Dirent} (up : s.tmpfsParentVn dir p = some pv) (vnode : s.vnodes pv = some v)
      (ino : d.dIno = v.data.attr.ino) (name : CStr d.dName dotDot) : TmpfsShows s dir p 1 d
  | child {k c : Nat} {q : TmpfsNode} {v : Vnode} {d : Dirent} (child : p.children[k]? = some c)
      (node : s.nodes c = some q) (vnode : s.vnodes q.vn = some v) (ino : d.dIno = v.data.attr.ino)
      (name : NameIn d.dName q.name) : TmpfsShows s dir p (k + 2) d

/-- A directory of the archive, or of a tmpfs. -/
def ListedDir (sys : TmpfsSys) (dir : Nat) : Prop :=
  ∃ v, sys.vfs.vnodes dir = some v ∧ v.data.type = .dir ∧
    (v.data.ops = .initrd ∨ (v.data.ops = .tmpfs ∧ TreeInv sys ∧ ∃ m, sys.vfs.DirOf dir m))

/-! ## The bytes in the buffer

Records have one size, so the buffer is cut at multiples of it.
-/

theorem Dirent.length_encode (d : Dirent) (tail : Vector UInt8 5) : (d.encode tail).length = direntSize := by
  simp only [Dirent.encode, List.length_append, length_leBytes, List.length_map, List.length_range,
    Vector.length_toList]
  rfl

theorem copyToUser_valid {u : User} {ptr : Proc.Ptr} {a : Word} {data : List UInt8}
    (h : a.toNat + data.length ≤ userEnd.toNat) : copyToUser u ptr a data = (u.store ptr a data, 0) := by
  have hlen : data.length < 2 ^ 64 := by
    rw [userEnd_toNat] at h
    omega
  rw [copyToUser, if_pos ((accessOk_ofNat_iff hlen).mpr h)]

/-! ## One call

As many records as fit or are left, and the offset moves by as many.
-/

section
variable {s : Vfs} {dir n : Nat} {buf : Word} {tail : Vector UInt8 5}

/-- **The loop is a read with a cursor**: as many records as fit or are left, one behind the other, and the offset moves
    by their number. -/
theorem getdentsLoop_read (h : Listing s dir n) (room : Nat) : ∀ (i off : Nat) (ent : Dirent) (u : User), off ≤ n →
    buf.toNat + direntSize * (i + room) ≤ userEnd.toNat →
    ∃ u', s.getdentsLoop dir buf tail room (direntSize * i) off ent u =
        some (u', direntSize * (i + min room (n - off)), off + min room (n - off)) ∧
      (∀ j < i, u'.bytes (buf + BitVec.ofNat 64 (direntSize * j)) direntSize =
        u.bytes (buf + BitVec.ofNat 64 (direntSize * j)) direntSize) ∧
      ∀ j < min room (n - off), IsRecord s dir (off + j)
        (u'.bytes (buf + BitVec.ofNat 64 (direntSize * (i + j))) direntSize) := by
  induction room with
  | zero =>
    intro i off ent u _ _
    rw [Nat.zero_min, getdentsLoop]
    exact ⟨u, rfl, fun j _ => rfl, fun j hj => absurd hj (Nat.not_lt_zero j)⟩
  | succ room ih =>
    intro i off ent u hoff hfits
    simp only [direntSize] at ih hfits ⊢
    rcases Nat.lt_or_eq_of_le hoff with hlt | heq
    · obtain ⟨d, hd⟩ := h.given off hlt ent
      have hend := userEnd_toNat
      -- where the records stand; the addresses do not wrap
      have haddr : ∀ j ≤ i, (buf + BitVec.ofNat 64 (280 * j)).toNat = buf.toNat + 280 * j := by
        intro j hj
        rw [BitVec.toNat_add, BitVec.toNat_ofNat, Nat.mod_eq_of_lt (by omega), Nat.mod_eq_of_lt (by omega)]
      have hroom : 280 + (buf.toNat + 280 * i) ≤ userEnd.toNat := by omega
      have hwrap : 280 + (buf.toNat + 280 * i) ≤ 2 ^ 64 := by omega
      have hlen : (d.encode tail).length = 280 := d.length_encode tail
      have hcopy : copyToUser u (.arg 1) (buf + BitVec.ofNat 64 (280 * i)) (d.encode tail) =
          (u.store (.arg 1) (buf + BitVec.ofNat 64 (280 * i)) (d.encode tail), 0) := by
        apply copyToUser_valid
        rw [haddr i (Nat.le_refl i), hlen, Nat.add_comm]
        exact hroom
      obtain ⟨u', hout, hbefore, hrecs⟩ := ih (i + 1) (off + 1) d
        (u.store (.arg 1) (buf + BitVec.ofNat 64 (280 * i)) (d.encode tail)) hlt (by omega)
      -- the turns after this one store behind its record
      have hnext : 280 * i + 280 = 280 * (i + 1) := by omega
      have hmin : min (room + 1) (n - off) = min room (n - (off + 1)) + 1 := by omega
      refine ⟨u', ?_, ?_, ?_⟩
      · rw [getdentsLoop, hd]
        simp only [Option.bind_eq_bind, Option.bind_some, hcopy, direntSize]
        rw [if_neg (by decide), hnext, hout, hmin]
        congr 3
        · omega
        · omega
      · intro j hj
        rw [hbefore j (by omega)]
        apply User.bytes_store_before
        · rw [haddr j (Nat.le_of_lt hj), haddr i (Nat.le_refl i), Nat.add_assoc, ← Nat.mul_succ]
          exact Nat.add_le_add_left (Nat.mul_le_mul_left 280 hj) _
        · rw [haddr i (Nat.le_refl i), hlen, Nat.add_comm]
          exact hwrap
      · intro j hj
        cases j with
        | zero =>
          refine ⟨ent, d, tail, hd, ?_⟩
          rw [Nat.add_zero, hbefore i (Nat.lt_succ_self i), ← hlen]
          exact User.bytes_store_self (by omega)
        | succ j =>
          have hrec := hrecs j (by omega)
          rwa [Nat.add_right_comm off 1 j, Nat.add_right_comm i 1 j] at hrec
    · subst heq
      obtain ⟨err, hstop⟩ := h.stop ent
      have hzero : min (room + 1) (off - off) = 0 := by omega
      rw [hzero, getdentsLoop, hstop]
      exact ⟨u, rfl, fun j _ => rfl, fun j hj => absurd hj (Nat.not_lt_zero j)⟩

end

/-- The call returned the records of these offsets. -/
structure Gives (s : Vfs) (dir : Nat) (chunk : List Nat) (call : GetdentsCall × Int × User) : Prop where
  ret     : call.2.1 = direntSize * chunk.length
  records : List.Forall₂ (IsRecord s dir) chunk (returned call.1 call.2)

section
variable {s : Vfs} {n : Nat} {f : File} {v : Vnode}

/-- How many records the buffer of a call has room for. -/
def GetdentsCall.roomFor (c : GetdentsCall) : Nat := c.count.toNat / direntSize

theorem GetdentsCall.Valid.roomFor_pos {c : GetdentsCall} (h : c.Valid) : 0 < c.roomFor :=
  Nat.div_pos h.room (by decide)

/-- **One call** reads on from the offset of the file. -/
theorem sysGetdents64_read (h : Listing s f.vnode n) (hv : s.vnodes f.vnode = some v) (hdir : v.data.type = .dir)
    (hoff : f.offset ≤ n) {c : GetdentsCall} (hc : c.Valid) :
    ∃ r u, s.sysGetdents64 (some f) c =
        some (r, u, some { f with offset := f.offset + (readFrom (List.range n) f.offset c.roomFor).length }) ∧
      Gives s f.vnode (readFrom (List.range n) f.offset c.roomFor) (c, r, u) := by
  have hroom : c.direntPtr.toNat + direntSize * (0 + c.roomFor) ≤ userEnd.toNat := by
    have hdiv : direntSize * (c.count.toNat / direntSize) ≤ c.count.toNat := Nat.mul_div_le _ _
    have hinside := hc.inside
    rw [GetdentsCall.roomFor, Nat.zero_add]
    omega
  obtain ⟨u, hout, -, hrecs⟩ := @getdentsLoop_read s f.vnode n c.direntPtr c.tail h c.roomFor 0 f.offset c.kdirent c.user hoff hroom
  have hlen : (readFrom (List.range n) f.offset c.roomFor).length = min c.roomFor (n - f.offset) := by
    rw [length_readFrom, List.length_range]
  rw [Nat.mul_zero, Nat.zero_add] at hout
  refine ⟨(direntSize * min c.roomFor (n - f.offset) : Nat), u, ?_, ?_, ?_⟩
  · rw [sysGetdents64]
    simp only [hv, hdir, Option.bind_eq_bind, Option.bind_some, ne_eq, not_true_eq_false, if_false]
    rw [← GetdentsCall.roomFor, hout, hlen]
    rfl
  · rw [hlen]
    exact Int.natCast_mul _ _
  · have hcount : (direntSize * min c.roomFor (n - f.offset) : Nat) / direntSize = min c.roomFor (n - f.offset) :=
      Nat.mul_div_cancel_left _ (by decide)
    rw [List.forall₂_iff_get]
    simp only [returned, Int.toNat_natCast, hcount, List.length_map, List.length_range, hlen, true_and]
    intro j hj hj'
    have hrec := hrecs j (by omega)
    rw [Nat.zero_add] at hrec
    simpa [readFrom] using hrec

/-! ## Many calls

The cursor is the offset of the file, so the calls go on where the one before has stopped.
-/

/-- **All calls**: reads with one cursor, one for each call. -/
theorem getdentsCalls_read (h : Listing s f.vnode n) (hv : s.vnodes f.vnode = some v) (hdir : v.data.type = .dir)
    (calls : List GetdentsCall) : ∀ off ≤ n, (∀ c ∈ calls, c.Valid) →
    ∃ outs, s.getdentsCalls (some { f with offset := off }) calls = some outs ∧ outs.length = calls.length ∧
      List.Forall₂ (Gives s f.vnode) (readAll (List.range n) off (calls.map GetdentsCall.roomFor)) (calls.zip outs) := by
  induction calls with
  | nil =>
    intro off _ _
    exact ⟨[], rfl, rfl, List.Forall₂.nil⟩
  | cons c calls ih =>
    intro off hoff hcalls
    obtain ⟨r, u, hcall, hgives⟩ :=
      @sysGetdents64_read s n { f with offset := off } v h hv hdir hoff c (hcalls c List.mem_cons_self)
    have hnext : off + (readFrom (List.range n) off c.roomFor).length ≤ n := by
      rw [length_readFrom, List.length_range]
      omega
    obtain ⟨outs, hrest, hlen, hall⟩ := ih _ hnext fun x hx => hcalls x (List.mem_cons_of_mem _ hx)
    refine ⟨(r, u) :: outs, ?_, by rw [List.length_cons, List.length_cons, hlen], ?_⟩
    · rw [getdentsCalls, hcall]
      simp only [Option.bind_eq_bind, Option.bind_some, hrest]
      rfl
    · rw [List.map_cons, readAll, List.zip_cons_cons]
      exact List.Forall₂.cons hgives hall

end

/-- A call that returned 0 gave nothing, and only such a call. -/
theorem Gives.ret_eq_zero_iff {s : Vfs} {dir : Nat} {chunk : List Nat} {call : GetdentsCall × Int × User}
    (h : Gives s dir chunk call) : call.2.1 = 0 ↔ chunk = [] := by
  have hpos : (direntSize : Int) ≠ 0 := by decide
  rw [h.ret, ← List.length_eq_zero_iff]
  constructor
  · intro hzero
    rcases Int.mul_eq_zero.mp hzero with h0 | h0
    · exact absurd h0 hpos
    · exact Int.natCast_eq_zero.mp h0
  · intro hnil
    rw [hnil]
    rfl

theorem exists_ret_zero_iff {s : Vfs} {dir : Nat} {chunks : List (List Nat)} {calls : List (GetdentsCall × Int × User)}
    (h : List.Forall₂ (Gives s dir) chunks calls) : (∃ p ∈ calls, p.2.1 = 0) ↔ [] ∈ chunks := by
  induction h with
  | nil => simp
  | cons hgives _ ih =>
    rw [List.exists_mem_cons_iff, List.mem_cons, ih, hgives.ret_eq_zero_iff]
    exact or_congr_left eq_comm

/-- The records before the first 0 are those of the reads before the first empty one. -/
theorem forall₂_untilZero {s : Vfs} {dir : Nat} {chunks : List (List Nat)} {calls : List (GetdentsCall × Int × User)}
    (h : List.Forall₂ (Gives s dir) chunks calls) :
    List.Forall₂ (IsRecord s dir) (untilEmpty chunks)
      ((calls.takeWhile fun p => p.2.1 ≠ 0).flatMap fun p => returned p.1 p.2) := by
  induction h with
  | nil => exact List.Forall₂.nil
  | @cons chunk call chunks calls hgives _ ih =>
    by_cases hnil : chunk = []
    · -- both stop here
      have hzero := hgives.ret_eq_zero_iff.mpr hnil
      rw [untilEmpty, List.takeWhile_cons, if_neg (by simpa using hnil), List.takeWhile_cons, if_neg (by simpa using hzero)]
      exact List.Forall₂.nil
    · have hzero : call.2.1 ≠ 0 := fun h0 => hnil (hgives.ret_eq_zero_iff.mp h0)
      rw [untilEmpty, List.takeWhile_cons, if_pos (by simpa using hnil), List.takeWhile_cons, if_pos (by simpa using hzero),
        List.flatten_cons, List.flatMap_cons]
      exact List.rel_append hgives.records ih

/-- **The records up to the first 0 are the directory**, for anything that lists itself. -/
theorem getdentsCalls_listing {s : Vfs} {n : Nat} {f : File} {v : Vnode} {calls : List GetdentsCall}
    (h : Listing s f.vnode n) (hv : s.vnodes f.vnode = some v) (hdir : v.data.type = .dir) (hoff : f.offset = 0)
    (hcalls : ∀ c ∈ calls, c.Valid) :
    ∃ outs, s.getdentsCalls (some f) calls = some outs ∧
      ((∃ out ∈ outs, out.1 = 0) →
        List.Forall₂ (IsRecord s f.vnode) (List.range n) (recordsUntilZero calls outs)) ∧
      (n < calls.length → ∃ out ∈ outs, out.1 = 0) := by
  obtain ⟨outs, hout, hlen, hall⟩ := getdentsCalls_read h hv hdir calls 0 (Nat.zero_le n) hcalls
  have hf : ({ f with offset := 0 } : File) = f := by rw [← hoff]
  rw [hf] at hout
  have hrooms : ∀ room ∈ calls.map GetdentsCall.roomFor, 0 < room := by
    intro room hroom
    obtain ⟨c, hc, rfl⟩ := List.mem_map.mp hroom
    exact (hcalls c hc).roomFor_pos
  -- a call returned 0 exactly when a read was empty
  have hzero : (∃ out ∈ outs, out.1 = 0) ↔ [] ∈ readAll (List.range n) 0 (calls.map GetdentsCall.roomFor) := by
    have hmem : (∃ out ∈ outs, out.1 = 0) ↔ ∃ p ∈ calls.zip outs, p.2.1 = 0 := by
      have houts : outs = (calls.zip outs).map Prod.snd := (List.map_snd_zip (Nat.le_of_eq hlen)).symm
      constructor
      · rintro ⟨out, hmem, h0⟩
        rw [houts] at hmem
        obtain ⟨p, hp, rfl⟩ := List.mem_map.mp hmem
        exact ⟨p, hp, h0⟩
      · rintro ⟨p, hp, h0⟩
        exact ⟨p.2, (List.of_mem_zip hp).2, h0⟩
    rw [hmem]
    exact exists_ret_zero_iff hall
  refine ⟨outs, hout, ?_, ?_⟩
  · intro h0
    obtain ⟨rest, happ, hend⟩ := @untilEmpty_readAll _ (List.range n) _ 0 hrooms
    rw [hend (hzero.mp h0), List.append_nil, List.drop_zero] at happ
    rw [← happ]
    exact forall₂_untilZero hall
  · intro hmany
    apply hzero.mpr
    apply nil_mem_readAll _ 0 hrooms
    · rw [List.length_range, List.length_map, Nat.zero_add]
      exact hmany
    · rintro hnil
      rw [List.map_eq_nil_iff] at hnil
      rw [hnil] at hmany
      exact absurd hmany (Nat.not_lt_zero n)

/-! ## The directories

What each of the file systems lists.
-/

/-- A directory of the archive lists its children. -/
theorem listing_initrd {s : Vfs} {dir : Nat} {v : Vnode} (hv : s.vnodes dir = some v) (hops : v.data.ops = .initrd) :
    Listing s dir (initrdChildren (s.initrdPrefix v.data.priv) s.entries).length := by
  have hread : ∀ (k : Nat) ent, s.opsReaddir dir k ent = some (s.initrdReaddir v.data.priv k ent) := by
    intro k ent
    simp only [opsReaddir, hv, hops, Option.bind_eq_bind, Option.bind_some, Option.pure_def]
  constructor
  · intro k hk ent
    rw [hread, Vfs.initrdReaddir_eq, List.getElem?_eq_getElem hk]
    exact ⟨_, rfl⟩
  · intro ent
    rw [hread, Vfs.initrdReaddir_eq, List.getElem?_eq_none (Nat.le_refl _)]
    exact ⟨.noEnt, rfl⟩

theorem nameIn_strncpyTo (name : Path) (buf : Buf) : NameIn (strncpyTo name 0 nameMax buf) name := by
  intro i hi
  exact strncpyTo_zero_apply name hi buf

section
variable {s : Vfs} {ent : Dirent}

/-- **The scan of the children** comes to the one of the number, whatever number it begins with. -/
theorem tmpfsReaddirLoop_spec (cs : List Nat) : ∀ (idx : Int) (k : Nat),
    (∀ c ∈ cs, ∃ q v, s.nodes c = some q ∧ s.vnodes q.vn = some v) →
    (∀ c, cs[k]? = some c → ∃ q v d, s.nodes c = some q ∧ s.vnodes q.vn = some v ∧
      s.tmpfsReaddirLoop (idx + k) ent idx cs = some (.ok d) ∧ d.dIno = v.data.attr.ino ∧ NameIn d.dName q.name) ∧
    (cs.length ≤ k → s.tmpfsReaddirLoop (idx + k) ent idx cs = some (.error .noEnt)) := by
  induction cs with
  | nil =>
    intro idx k _
    exact ⟨fun c hc => (by cases hc), fun _ => rfl⟩
  | cons b cs ih =>
    intro idx k hall
    obtain ⟨q, v, hq, hv⟩ := hall b List.mem_cons_self
    cases k with
    | zero =>
      constructor
      · intro c hc
        cases hc
        refine ⟨q, v, ⟨v.data.attr.ino, idx + 1, direntSize, if v.data.type = .dir then dtDir else dtReg,
          strncpyTo q.name 0 nameMax ent.dName⟩, hq, hv, ?_, rfl, nameIn_strncpyTo q.name ent.dName⟩
        have hzero : idx = idx + ((0 : Nat) : Int) := (Int.add_zero idx).symm
        rw [tmpfsReaddirLoop, hq]
        simp only [Option.bind_eq_bind, Option.bind_some, if_pos hzero, hv]
        rfl
      · intro hlen
        exact absurd hlen (Nat.not_succ_le_zero _)
    | succ k =>
      have hne : idx ≠ idx + ((k + 1 : Nat) : Int) := by omega
      have hnext : idx + ((k + 1 : Nat) : Int) = idx + 1 + (k : Int) := by omega
      have hstep : s.tmpfsReaddirLoop (idx + ((k + 1 : Nat) : Int)) ent idx (b :: cs) =
          s.tmpfsReaddirLoop (idx + 1 + k) ent (idx + 1) cs := by
        rw [tmpfsReaddirLoop, hq]
        simp only [Option.bind_eq_bind, Option.bind_some, if_neg hne]
        rw [hnext]
      obtain ⟨hat, hend⟩ := ih (idx + 1) k fun c hc => hall c (List.mem_cons_of_mem _ hc)
      rw [hstep]
      exact ⟨fun c hc => hat c hc, fun hlen => hend (Nat.le_of_succ_le_succ hlen)⟩

end

section
variable {sys : TmpfsSys} {dir m : Nat} {p : TmpfsNode} {v : Vnode}

theorem TreeInv.vnode (h : TreeInv sys) {n : Nat} {q : TmpfsNode} (hq : sys.vfs.nodes n = some q) :
    ∃ v, sys.vfs.vnodes q.vn = some v := by
  obtain ⟨t, ht⟩ := h.vn n q hq
  obtain ⟨v, hv, -⟩ := Option.map_eq_some_iff.mp ht
  exact ⟨v, hv⟩

/-- **What a tmpfs directory gives at each offset.** -/
theorem tmpfsReaddir_spec (h : TreeInv sys) (hv : sys.vfs.vnodes dir = some v) (hpriv : v.data.priv = some m)
    (hops : v.data.ops = .tmpfs) (hp : sys.vfs.nodes m = some p) (k : Nat) (ent : Dirent) :
    (k < p.children.length + 2 → ∃ d, sys.vfs.opsReaddir dir k ent = some (.ok d) ∧ TmpfsShows sys.vfs dir p k d) ∧
    (p.children.length + 2 ≤ k → sys.vfs.opsReaddir dir k ent = some (.error .noEnt)) := by
  have hread : sys.vfs.opsReaddir dir k ent = sys.vfs.tmpfsReaddir dir (some m) k ent := by
    simp only [opsReaddir, hv, hops, hpriv, Option.bind_eq_bind, Option.bind_some]
  rw [hread, tmpfsReaddir]
  simp only [hp, hv, Option.bind_eq_bind, Option.bind_some]
  match k with
  | 0 =>
    exact ⟨fun _ => ⟨_, rfl, .self hv rfl (strcpyTo_cstr dot ent.dName)⟩, fun hk => absurd hk (by omega)⟩
  | 1 =>
    refine ⟨fun _ => ?_, fun hk => absurd hk (by omega)⟩
    obtain ⟨pv, w, hpv, hw⟩ : ∃ pv w, sys.vfs.tmpfsParentVn dir p = some pv ∧ sys.vfs.vnodes pv = some w := by
      rw [tmpfsParentVn]
      cases hpar : p.parent with
      -- the root of the tree is its own parent
      | none => exact ⟨dir, v, rfl, hv⟩
      | some r =>
        obtain ⟨q, hq, -⟩ := h.parent m p r hp hpar
        obtain ⟨w, hw⟩ := h.vnode hq
        exact ⟨q.vn, w, by simp only [hq, Option.map_some], hw⟩
    rw [if_neg (by decide), if_pos (by decide)]
    simp only [hpv, hw, Option.bind_some]
    exact ⟨_, rfl, .parent hpv hw rfl (strcpyTo_cstr dotDot ent.dName)⟩
  | k + 2 =>
    have hoff : ((k + 2 : Nat) : Int) = 2 + (k : Int) := by omega
    have hall : ∀ c ∈ p.children, ∃ q v, sys.vfs.nodes c = some q ∧ sys.vfs.vnodes q.vn = some v := by
      intro c hc
      obtain ⟨q, hq, -⟩ := h.child m p c hp hc
      obtain ⟨w, hw⟩ := h.vnode hq
      exact ⟨q, w, hq, hw⟩
    obtain ⟨hat, hend⟩ := @tmpfsReaddirLoop_spec sys.vfs ent p.children 2 k hall
    rw [if_neg (by omega), if_neg (by omega), hoff]
    constructor
    · intro hk
      have hlt : k < p.children.length := by omega
      obtain ⟨q, w, d, hq, hw, hd, hino, hname⟩ := hat _ (List.getElem?_eq_getElem hlt)
      exact ⟨d, hd, .child (List.getElem?_eq_getElem hlt) hq hw hino hname⟩
    · intro hk
      exact hend (by omega)

theorem listing_tmpfs (h : TreeInv sys) (hv : sys.vfs.vnodes dir = some v) (hpriv : v.data.priv = some m)
    (hops : v.data.ops = .tmpfs) (hp : sys.vfs.nodes m = some p) : Listing sys.vfs dir (p.children.length + 2) := by
  constructor
  · intro k hk ent
    obtain ⟨d, hd, -⟩ := (tmpfsReaddir_spec h hv hpriv hops hp k ent).1 hk
    exact ⟨d, hd⟩
  · intro ent
    exact ⟨.noEnt, (tmpfsReaddir_spec h hv hpriv hops hp _ ent).2 (Nat.le_refl _)⟩

end

/-- **A directory read in pieces.** Whatever the sizes of the buffers, the records returned up to the first 0 are those
    of `readdir` at 0, 1, 2, … until it fails, and there is a 0 once there are more calls than records. In a tmpfs they
    are `.`, `..` and each child once. -/
theorem getdents_listing {sys : TmpfsSys} {f : File} {calls : List GetdentsCall} (hdir : ListedDir sys f.vnode)
    (hoff : f.offset = 0) (hcalls : ∀ c ∈ calls, c.Valid) :
    ∃ n outs, Listing sys.vfs f.vnode n ∧ sys.vfs.getdentsCalls (some f) calls = some outs ∧
      ((∃ out ∈ outs, out.1 = 0) →
        List.Forall₂ (IsRecord sys.vfs f.vnode) (List.range n) (recordsUntilZero calls outs)) ∧
      (n < calls.length → ∃ out ∈ outs, out.1 = 0) ∧
      ∀ v, sys.vfs.vnodes f.vnode = some v → v.data.ops = .tmpfs →
        ∃ m p, v.data.priv = some m ∧ sys.vfs.nodes m = some p ∧ n = p.children.length + 2 ∧ p.children.Nodup ∧
          ∀ (k : Nat) ent d, sys.vfs.opsReaddir f.vnode k ent = some (.ok d) → TmpfsShows sys.vfs f.vnode p k d := by
  obtain ⟨v, hv, htype, hinitrd | ⟨htmpfs, htree, m, hkind, p, hp, hpvn⟩⟩ := hdir
  · obtain ⟨outs, hout, hrecs, hmany⟩ := getdentsCalls_listing (listing_initrd hv hinitrd) hv htype hoff hcalls
    refine ⟨_, outs, listing_initrd hv hinitrd, hout, hrecs, hmany, ?_⟩
    intro w hw htmpfs
    rw [hv] at hw
    cases hw
    rw [hinitrd] at htmpfs
    cases htmpfs
  · have hpriv : v.data.priv = some m := by
      simp only [kind, hv, Option.map_some, Option.some.injEq, Prod.mk.injEq] at hkind
      exact hkind.2
    have hlist := listing_tmpfs htree hv hpriv htmpfs hp
    obtain ⟨outs, hout, hrecs, hmany⟩ := getdentsCalls_listing hlist hv htype hoff hcalls
    refine ⟨_, outs, hlist, hout, hrecs, hmany, ?_⟩
    intro w hw _
    rw [hv] at hw
    cases hw
    refine ⟨m, p, hpriv, hp, rfl, htree.nodup m p hp, ?_⟩
    intro k ent d hd
    obtain ⟨hgiven, hstop⟩ := tmpfsReaddir_spec htree hv hpriv htmpfs hp k ent
    by_cases hk : k < p.children.length + 2
    · obtain ⟨d', hd', hshows⟩ := hgiven hk
      rw [hd] at hd'
      cases hd'
      exact hshows
    · rw [hstop (Nat.le_of_not_lt hk)] at hd
      cases hd

/-! ### The devices

The directory of boot, in eight calls.
-/

/-- A call with room for two records. -/
def twoRecords : GetdentsCall where
  direntPtr := 0x400000
  count := 600
  user := ⟨fun _ => 0, []⟩
  kdirent := zeroDirent
  tail := Vector.replicate 5 0

theorem twoRecords_valid : twoRecords.Valid := ⟨by rw [userEnd_toNat]; decide, by decide⟩

/-- `/dev` of boot has five devices, so eight calls with room for two give seven records and then nothing. -/
theorem getdents_listing_dev : ∃ outs,
    (tmpfsBoot 2).vfs.getdentsCalls (some ⟨0, 0, 0, 1⟩) (List.replicate 8 twoRecords) = some outs ∧
      List.Forall₂ (IsRecord (tmpfsBoot 2).vfs 0) (List.range 7)
        (recordsUntilZero (List.replicate 8 twoRecords) outs) := by
  obtain ⟨v, hv, htype, hops, hpriv⟩ : ∃ v, (tmpfsBoot 2).vfs.vnodes 0 = some v ∧ v.data.type = .dir ∧
      v.data.ops = .tmpfs ∧ v.data.priv = some 0 := ⟨_, rfl, rfl, rfl, rfl⟩
  have hnode : (tmpfsBoot 2).vfs.nodes 0 = some ⟨['d', 'e', 'v'], none, [1, 2, 3, 4, 5], 0⟩ := rfl
  have hlisted : ListedDir (tmpfsBoot 2) 0 :=
    ⟨v, hv, htype, .inr ⟨hops, treeInv_boot 2, 0, rfl, _, hnode, rfl⟩⟩
  have hvalid : ∀ c ∈ List.replicate 8 twoRecords, c.Valid :=
    fun c hc => List.eq_of_mem_replicate hc ▸ twoRecords_valid
  obtain ⟨n, outs, -, hout, hrecs, hmany, htmpfs⟩ := @getdents_listing _ ⟨0, 0, 0, 1⟩ _ hlisted rfl hvalid
  obtain ⟨m, p, hm, hp, hn, -⟩ := htmpfs v hv hops
  obtain rfl : 0 = m := Option.some.inj (hpriv.symm.trans hm)
  obtain rfl := Option.some.inj (hnode.symm.trans hp)
  obtain rfl : n = 7 := hn
  exact ⟨outs, hout, hrecs (hmany (by decide))⟩

end MyUnix.Fs
