import Mathlib.Algebra.Group.Int.Defs
import MyUnix.Fs.Vfs
import MyUnix.Lib.Run
import MyUnix.Lib.ZeroFill
import MyUnix.Mm.Pmm

/-!
# `Fs.TmpfsFile` — the bytes of a `tmpfs` file

`tmpfs_read`, `tmpfs_write` and `tmpfs_truncate` on one file, over the size in its vnode and the buffer of its node.
The reference is a sequence of bytes that grows with zeros (`Lib.ZeroFill`).

The buffer is cleared only where it becomes longer. A truncation to a smaller size leaves the bytes behind the new end
in it, and they are in the file again as soon as a truncation or a write moves the end past them. A step is `Clean`
when the part of the buffer that it brings into the file without writing it holds only zeros, and a run shows what the
reference shows exactly as long as its steps are.

The file is the first `size` bytes of the buffer, so an operation that leaves the size alone refines its counterpart
without a condition. One that moves the end up shows bytes of the buffer that the file did not have; whether these are
zeros is the condition on the step. It is seen to be exact, since a read of them shows the difference.

A sequence in which every write starts inside the file or at its end can still be unclean. A file that is cut and then
extended by a write from its end on is clean; one that is cut and made longer again by `truncate` is not, unless the
bytes behind the cut were zeros.
-/

namespace MyUnix.Fs

open Lib Mm

/-- What the file operations use of a vnode and its node: the type and the size, and behind the private pointer the
    buffer, `data_cap` bytes of it. -/
structure TmpfsFile where
  type : VnodeType
  size : Nat
  priv : Option (List UInt8)
  deriving DecidableEq, Repr

/-- `krealloc`, by the bytes of the old block and the new size; `none` is `NULL`. -/
abbrev Krealloc := List UInt8 → Nat → Option (List UInt8)

/-- It succeeds and keeps the old bytes. What a larger block holds behind them is left open. -/
def Krealloc.Keeps (krealloc : Krealloc) : Prop :=
  ∀ data n, data.length < n → ∃ new, krealloc data n = some new ∧ new.take data.length = data ∧ new.length = n

/-- An `off_t` as a `size_t`. -/
def sizeT (off : Int) : Nat := (off % 2 ^ 64).toNat

/-- The larger buffer, its new part cleared. -/
def growBuffer (krealloc : Krealloc) (data : List UInt8) (n : Nat) : Option (List UInt8) := do
  let new ← krealloc data (alignUp n)
  pure (new.take data.length ++ List.replicate (alignUp n - data.length) 0)

/-- The buffer, grown where `n` bytes do not fit. -/
def fitBuffer (krealloc : Krealloc) (data : List UInt8) (n : Nat) : Option (List UInt8) :=
  if data.length < n then growBuffer krealloc data n else some data

/-- `memcpy(data + off, buf, len)`, inside the buffer. -/
def copyIn (data : List UInt8) (off : Int) (buf : List UInt8) : Option (List UInt8) :=
  if 0 ≤ off ∧ off.toNat + buf.length ≤ data.length then some (splice data off.toNat buf) else none

/-- `memcpy(buf, data + off, n)`, inside the buffer. -/
def copyOut (data : List UInt8) (off n : Nat) : Option (List UInt8) :=
  if off + n ≤ data.length then some ((data.drop off).take n) else none

namespace TmpfsFile

variable (krealloc : Krealloc) (f : TmpfsFile)

/-- `tmpfs_read`. -/
def tmpfsRead (len : Nat) (off : Int) : Option (Except Errno (List UInt8)) :=
  match f.priv with
  | none      => some (.error .isDir)
  | some data =>
      if f.type = .dir then some (.error .isDir)
      else if off < 0 ∨ f.size ≤ sizeT off then some (.ok [])
      else (copyOut data off.toNat (min len (f.size - off.toNat))).map .ok

/-- `tmpfs_write`. The end of the range is a `size_t`. -/
def tmpfsWrite (buf : List UInt8) (off : Int) : Option (Except Errno Nat × TmpfsFile) :=
  match f.priv with
  | none      => some (.error .isDir, f)
  | some data =>
      if f.type = .dir then some (.error .isDir, f)
      else
        -- a sum of `size_t`s, which may wrap around
        let newEnd := (sizeT off + buf.length) % 2 ^ 64
        match fitBuffer krealloc data newEnd with
        | none      => some (.error .noSpc, f)
        | some data => do
            let data ← copyIn data off buf
            pure (.ok buf.length, { f with size := max f.size newEnd, priv := some data })

/-- `tmpfs_truncate`. -/
def tmpfsTruncate (size : Int) : Except Errno Unit × TmpfsFile :=
  match f.priv with
  | none      => (.error .inval, f)
  | some data =>
      match fitBuffer krealloc data (sizeT size) with
      | none      => (.error .noMem, f)
      | some data => (.ok (), { f with size := sizeT size, priv := some data })

/-- The file of a new node: no bytes and no buffer. -/
def new : TmpfsFile := ⟨.reg, 0, some []⟩

end TmpfsFile

/-! ## Sequences of operations

Calls on one file, and the same calls on the reference.
-/

/-- A call on a file of tmpfs. -/
inductive FileOp where
  | read (len : Nat) (off : Int)
  | write (buf : List UInt8) (off : Int)
  | truncate (size : Int)
  deriving DecidableEq, Repr

namespace FileOp

/-- Offsets and sizes are not negative, and what is asked for fits into a `size_t`, rounded up to whole pages. -/
def Fits : FileOp → Prop
  | read len off  => 0 ≤ off ∧ off < 2 ^ 63 ∧ len < 2 ^ 64
  | write buf off => 0 ≤ off ∧ off < 2 ^ 63 ∧ off.toNat + buf.length ≤ 2 ^ 64 - pageSize
  | truncate size => 0 ≤ size ∧ size < 2 ^ 63

/-- What an operation leaves of the file; `none` where it fails or leaves the buffer. -/
def step (krealloc : Krealloc) (f : TmpfsFile) : FileOp → Option TmpfsFile
  | read len off  => do
      let r ← f.tmpfsRead len off
      if r.isOk then pure f else none
  | write buf off => do
      let (r, f) ← f.tmpfsWrite krealloc buf off
      if r = .ok buf.length then pure f else none
  | truncate size =>
      let (r, f) := f.tmpfsTruncate krealloc size
      if r.isOk then pure f else none

/-- What it leaves of the reference. -/
def refStep (r : List UInt8) : FileOp → List UInt8
  | read _ _      => r
  | write buf off => writeFill r off.toNat buf
  | truncate size => truncateFill r size.toNat

/-- The part of the buffer that the operation brings into the file without writing it holds zeros. -/
def Clean (f : TmpfsFile) : FileOp → Prop
  | read _ _      => True
  | write _ off   => ZeroBetween (f.priv.getD []) f.size off.toNat
  | truncate size => ZeroBetween (f.priv.getD []) f.size size.toNat

instance (f : TmpfsFile) : ∀ op, Decidable (Clean f op)
  | read _ _      => inferInstanceAs (Decidable True)
  | write _ off   => inferInstanceAs (Decidable (ZeroBetween (f.priv.getD []) f.size off.toNat))
  | truncate size => inferInstanceAs (Decidable (ZeroBetween (f.priv.getD []) f.size size.toNat))

end FileOp

/-- Every read of the file returns what the same read of the reference does. -/
def ReadsAs (f : TmpfsFile) (r : List UInt8) : Prop :=
  ∀ len off, (FileOp.read len off).Fits → f.tmpfsRead len off = some (.ok ((r.drop off.toNat).take len))

/-- The operations succeed one after the other, and every read at any time returns what it does of the reference. -/
def RunReadsAs (krealloc : Krealloc) (f : TmpfsFile) (r : List UInt8) : List FileOp → Prop
  | []        => ReadsAs f r
  | op :: ops => ReadsAs f r ∧ ∃ f', op.step krealloc f = some f' ∧ RunReadsAs krealloc f' (op.refStep r) ops

/-- Every operation finds zeros where it has to. -/
def RunClean (krealloc : Krealloc) (f : TmpfsFile) : List FileOp → Prop
  | []        => True
  | op :: ops => op.Clean f ∧ ∀ f', op.step krealloc f = some f' → RunClean krealloc f' ops

/-! ## One operation

For each call: it succeeds, and the file then shows the reference exactly when the step was clean.
-/

theorem le_alignUp {n : Nat} (h : n ≤ 2 ^ 64 - pageSize) : n ≤ alignUp n := by
  unfold alignUp alignDown pageSize at *
  omega

theorem sizeT_of_fits {off : Int} (h : 0 ≤ off) (h63 : off < 2 ^ 63) : sizeT off = off.toNat := by
  unfold sizeT
  omega

/-- A buffer that is made to fit is the old one with zeros behind it, and long enough. -/
theorem fitBuffer_eq {krealloc : Krealloc} (hk : krealloc.Keeps) (data : List UInt8) {n : Nat}
    (h : n ≤ 2 ^ 64 - pageSize) :
    ∃ c, fitBuffer krealloc data n = some (padTo data c) ∧ n ≤ max data.length c := by
  have hup := le_alignUp h
  rw [fitBuffer]
  split
  next hlt =>
    obtain ⟨new, hnew, hkeep, _⟩ := hk data (alignUp n) (by omega)
    refine ⟨alignUp n, ?_, by omega⟩
    rw [growBuffer, hnew]
    exact congrArg (fun l => some (l ++ List.replicate (alignUp n - data.length) 0)) hkeep
  next hge => exact ⟨0, by simp [padTo], by omega⟩

namespace TmpfsFile

variable {krealloc : Krealloc} {f : TmpfsFile} {data r : List UInt8}

/-- A file that is not a directory has a buffer, and its bytes lie in it. -/
structure Holds (f : TmpfsFile) (data : List UInt8) : Prop where
  file : f.type ≠ .dir
  priv : f.priv = some data
  size : f.size ≤ data.length

theorem holds_new : new.Holds [] := ⟨by decide, rfl, Nat.le_refl 0⟩

theorem Holds.tmpfsRead (h : f.Holds data) {len : Nat} {off : Int} (h0 : 0 ≤ off) (h63 : off < 2 ^ 63) :
    f.tmpfsRead len off = some (.ok (((data.take f.size).drop off.toNat).take len)) := by
  obtain ⟨hfile, hpriv, hsize⟩ := h
  simp only [TmpfsFile.tmpfsRead, hpriv, if_neg hfile, sizeT_of_fits h0 h63]
  split
  next hend => rw [List.drop_eq_nil_of_le (by rw [List.length_take]; omega), List.take_nil]
  next hin =>
    rw [copyOut, if_pos (by omega), Option.map_some, List.drop_take, List.take_take]

theorem Holds.length_take (h : f.Holds data) : (data.take f.size).length = f.size := by
  rw [List.length_take]
  exact Nat.min_eq_left h.size

/-- A file reads as a sequence of its length exactly when it is the prefix of the buffer. -/
theorem Holds.readsAs_iff (h : f.Holds data) (hlen : r.length = f.size) (h64 : f.size < 2 ^ 64) :
    ReadsAs f r ↔ data.take f.size = r := by
  constructor
  · intro hreads
    have hall := hreads (2 ^ 64 - 1) 0 ⟨by decide, by decide, by decide⟩
    rw [h.tmpfsRead (by decide) (by decide)] at hall
    simp only [Int.toNat_zero, List.drop_zero, Option.some.injEq, Except.ok.injEq] at hall
    have hcode : (data.take f.size).take (2 ^ 64 - 1) = data.take f.size := by
      apply List.take_of_length_le
      rw [List.length_take]
      omega
    have href : r.take (2 ^ 64 - 1) = r := List.take_of_length_le (by omega)
    rwa [hcode, href] at hall
  · rintro rfl len off ⟨h0, h63, _⟩
    exact h.tmpfsRead h0 h63

/-- `tmpfs_write` succeeds, and the file then holds the right bytes exactly when it found zeros before the range. -/
theorem Holds.tmpfsWrite (hk : krealloc.Keeps) (h : f.Holds data) {buf : List UInt8} {off : Int}
    (hfit : (FileOp.write buf off).Fits) :
    ∃ f' data', f.tmpfsWrite krealloc buf off = some (.ok buf.length, f') ∧ f'.Holds data' ∧
      f'.size = max f.size (off.toNat + buf.length) ∧
      (data'.take f'.size = writeFill (data.take f.size) off.toNat buf ↔ ZeroBetween data f.size off.toNat) := by
  obtain ⟨hfile, hpriv, hsize⟩ := h
  obtain ⟨h0, h63, hend⟩ := hfit
  obtain ⟨c, hbuffer, hroom⟩ := fitBuffer_eq hk data hend
  have hnewEnd : (sizeT off + buf.length) % 2 ^ 64 = off.toNat + buf.length := by
    have hpage : pageSize = 4096 := rfl
    rw [sizeT_of_fits h0 h63]
    omega
  have hin : off.toNat + buf.length ≤ (padTo data c).length := by
    rwa [length_padTo]
  refine ⟨⟨f.type, max f.size (off.toNat + buf.length), some (splice (padTo data c) off.toNat buf)⟩, _, ?_,
    ⟨hfile, rfl, ?_⟩, rfl, take_splice_padTo_iff hsize hroom⟩
  · simp only [TmpfsFile.tmpfsWrite, hpriv, if_neg hfile, hnewEnd, hbuffer]
    rw [copyIn, if_pos ⟨h0, hin⟩]
    rfl
  · rw [length_splice hin, length_padTo]
    simp only
    omega

/-- `tmpfs_truncate` succeeds, and the file then holds the right bytes exactly when it found zeros up to the new
    size. -/
theorem Holds.tmpfsTruncate (hk : krealloc.Keeps) (h : f.Holds data) {size : Int}
    (hfit : (FileOp.truncate size).Fits) :
    ∃ f' data', f.tmpfsTruncate krealloc size = (.ok (), f') ∧ f'.Holds data' ∧ f'.size = size.toNat ∧
      (data'.take f'.size = truncateFill (data.take f.size) size.toNat ↔ ZeroBetween data f.size size.toNat) := by
  obtain ⟨hfile, hpriv, hsize⟩ := h
  obtain ⟨h0, h63⟩ := hfit
  obtain ⟨c, hbuffer, hroom⟩ := fitBuffer_eq hk data (n := size.toNat) (by unfold pageSize; omega)
  refine ⟨⟨f.type, size.toNat, some (padTo data c)⟩, _, ?_, ⟨hfile, rfl, ?_⟩, rfl, take_padTo_iff hroom⟩
  · simp only [TmpfsFile.tmpfsTruncate, hpriv, sizeT_of_fits h0 h63, hbuffer]
  · rwa [length_padTo]

end TmpfsFile

namespace FileOp

variable {krealloc : Krealloc} {f : TmpfsFile} {data : List UInt8} {op : FileOp}

theorem length_writeFill (r : List UInt8) (off : Nat) (buf : List UInt8) :
    (writeFill r off buf).length = max r.length (off + buf.length) := by
  have hpad := length_padTo r (off + buf.length)
  rw [writeFill, length_splice (by omega), hpad]

theorem length_truncateFill (r : List UInt8) (n : Nat) : (truncateFill r n).length = n := by
  rw [truncateFill, List.length_take, length_padTo]
  omega

/-- **One operation.** It succeeds, the size is the length of the reference, and when the file held the bytes of the
    reference before, it does so after it exactly when the operation is clean. -/
theorem step_holds (hk : krealloc.Keeps) (h : f.Holds data) (h64 : f.size < 2 ^ 64) (hfit : op.Fits) :
    ∃ f' data', op.step krealloc f = some f' ∧ f'.Holds data' ∧ f'.size < 2 ^ 64 ∧
      f'.size = (op.refStep (data.take f.size)).length ∧
      (data'.take f'.size = op.refStep (data.take f.size) ↔ op.Clean f) := by
  have hlen := h.length_take
  have hpage : pageSize = 4096 := rfl
  cases op with
  | read len off =>
      refine ⟨f, data, ?_, h, h64, hlen.symm, iff_of_true rfl trivial⟩
      rw [step, h.tmpfsRead hfit.1 hfit.2.1]
      rfl
  | write buf off =>
      obtain ⟨f', data', hwrite, hholds, hsize, hiff⟩ := h.tmpfsWrite hk hfit
      have hbound := hfit.2.2
      refine ⟨f', data', ?_, hholds, by omega, ?_, ?_⟩
      · rw [step, hwrite]
        exact if_pos rfl
      · rw [refStep, length_writeFill, hlen, hsize]
      · rw [refStep, Clean, h.priv]
        exact hiff
  | truncate size =>
      obtain ⟨f', data', htrunc, hholds, hsize, hiff⟩ := h.tmpfsTruncate hk hfit
      have hbound := hfit.2
      refine ⟨f', data', ?_, hholds, by omega, ?_, ?_⟩
      · rw [step, htrunc]
        rfl
      · rw [refStep, length_truncateFill, hsize]
      · rw [refStep, Clean, h.priv]
        exact hiff

end FileOp

/-! ## Runs

The equivalence for sequences, and a condition that is easier to see: no operation starts beyond the end.
-/

section

variable {krealloc : Krealloc} {f : TmpfsFile} {data : List UInt8}

theorem runReadsAs_iff (hk : krealloc.Keeps) (ops : List FileOp) (hfit : ∀ op ∈ ops, op.Fits) (h : f.Holds data)
    (h64 : f.size < 2 ^ 64) : RunReadsAs krealloc f (data.take f.size) ops ↔ RunClean krealloc f ops := by
  induction ops generalizing f data with
  | nil => exact iff_of_true (h.readsAs_iff (h.length_take) h64 |>.mpr rfl) trivial
  | cons op ops ih =>
      obtain ⟨hop, hops⟩ := List.forall_mem_cons.mp hfit
      obtain ⟨f', data', hstep, hholds, h64', hlen, hiff⟩ := op.step_holds hk h h64 hop
      have hnow : ReadsAs f (data.take f.size) := (h.readsAs_iff h.length_take h64).mpr rfl
      have hrest := ih hops hholds h64'
      simp only [RunReadsAs, RunClean, hstep, hnow, true_and, Option.some.injEq, exists_eq_left', forall_eq']
      constructor
      · intro hreads
        -- the reads after the step already tell whether it was clean
        have hbytes : data'.take f'.size = op.refStep (data.take f.size) := by
          refine (hholds.readsAs_iff hlen.symm h64').mp ?_
          cases ops with
          | nil => exact hreads
          | cons _ _ => exact hreads.1
        exact ⟨hiff.mp hbytes, hrest.mp (hbytes ▸ hreads)⟩
      · rintro ⟨hclean, hall⟩
        rw [← hiff.mpr hclean]
        exact hrest.mpr hall

/-- **A `tmpfs` file refines a byte sequence that grows with zeros exactly on the runs whose operations are clean.** -/
theorem tmpfs_reads_iff_clean (hk : krealloc.Keeps) (ops : List FileOp) (hfit : ∀ op ∈ ops, op.Fits) :
    RunReadsAs krealloc .new [] ops ↔ RunClean krealloc .new ops :=
  runReadsAs_iff hk ops hfit TmpfsFile.holds_new (by decide)

/-- Where an operation starts to bring bytes into the file. -/
def FileOp.start : FileOp → Nat
  | read _ _      => 0
  | write _ off   => off.toNat
  | truncate size => size.toNat

/-- No operation starts beyond the end of the reference. -/
def RunDense (r : List UInt8) : List FileOp → Prop
  | []        => True
  | op :: ops => op.start ≤ r.length ∧ RunDense (op.refStep r) ops

theorem FileOp.clean_of_start {op : FileOp} (h : op.start ≤ f.size) : op.Clean f := by
  cases op with
  | read _ _ => trivial
  | write _ off =>
      intro i hi hoff
      have hstart : off.toNat ≤ f.size := h
      omega
  | truncate size =>
      intro i hi hsize
      have hstart : size.toNat ≤ f.size := h
      omega

/-- A file that is only overwritten, extended from its end and cut is read right. -/
theorem runClean_of_dense (hk : krealloc.Keeps) (ops : List FileOp) (hfit : ∀ op ∈ ops, op.Fits) (h : f.Holds data)
    (h64 : f.size < 2 ^ 64) (hdense : RunDense (data.take f.size) ops) : RunClean krealloc f ops := by
  induction ops generalizing f data with
  | nil => trivial
  | cons op ops ih =>
      obtain ⟨hop, hops⟩ := List.forall_mem_cons.mp hfit
      obtain ⟨f', data', hstep, hholds, h64', _, hiff⟩ := op.step_holds hk h h64 hop
      have hclean : op.Clean f := FileOp.clean_of_start (h.length_take ▸ hdense.1)
      refine ⟨hclean, fun g hg => ?_⟩
      obtain rfl : f' = g := Option.some.inj (hstep.symm.trans hg)
      exact ih hops hholds h64' (hiff.mpr hclean ▸ hdense.2)

/-- A truncation inside the buffer leaves every byte of it. -/
theorem TmpfsFile.Holds.tmpfsTruncate_keeps (h : f.Holds data) {size : Int} (hin : sizeT size ≤ data.length) :
    f.tmpfsTruncate krealloc size = (.ok (), { f with size := sizeT size, priv := some data }) := by
  simp only [TmpfsFile.tmpfsTruncate, h.priv, fitBuffer, if_neg (Nat.not_lt.mpr hin)]

/-- A `krealloc` whose new bytes are not zero. -/
def kreallocDirty : Krealloc := fun data n => some (data.take n ++ List.replicate (n - data.length) 0xAA)

theorem kreallocDirty_keeps : kreallocDirty.Keeps := by
  intro data n hn
  have htake : data.take n = data := List.take_of_length_le (by omega)
  refine ⟨_, rfl, ?_, ?_⟩
  · rw [htake, List.take_left]
  · rw [htake, List.length_append, List.length_replicate]
    omega

/-- Two bytes, cut to one, with another one appended. -/
def appendOps : List FileOp := [.write [1, 2] 0, .truncate 1, .write [3] 1, .read 2 0]

theorem tmpfs_reads_append :
    RunReadsAs kreallocDirty .new [] appendOps := by
  have hfit : ∀ op ∈ appendOps, op.Fits := by
    simp [appendOps, FileOp.Fits, pageSize]
  have hdense : RunDense [] appendOps := by
    simp [appendOps, RunDense, FileOp.start, FileOp.refStep, writeFill, truncateFill, splice, padTo]
  exact (tmpfs_reads_iff_clean kreallocDirty_keeps appendOps hfit).mpr
    (runClean_of_dense kreallocDirty_keeps appendOps hfit TmpfsFile.holds_new (by decide) hdense)

/-- Two bytes, cut to none, and made two bytes long again. -/
def regrowOps : List FileOp := [.write [1, 2] 0, .truncate 0, .truncate 2]

theorem tmpfs_reads_regrow :
    ¬ ∀ krealloc : Krealloc, krealloc.Keeps → ∀ ops : List FileOp, (∀ op ∈ ops, op.Fits) →
      RunReadsAs krealloc .new [] ops := by
  intro hall
  have hfit : ∀ op ∈ regrowOps, op.Fits := by
    simp [regrowOps, FileOp.Fits, pageSize]
  have hreads := hall kreallocDirty kreallocDirty_keeps regrowOps hfit
  obtain ⟨_, hrest⟩ := (runReadsAs_iff kreallocDirty_keeps regrowOps hfit TmpfsFile.holds_new (by decide)).mp hreads
  obtain ⟨f, data, hwrite, hholds, hsize, hbytes⟩ :=
    TmpfsFile.holds_new.tmpfsWrite kreallocDirty_keeps (hfit (.write [1, 2] 0) (by simp [regrowOps]))
  have htwo : f.size = 2 := hsize
  -- the buffer holds the two bytes, and it still does so after the first truncation
  have hshown : data.take f.size = [1, 2] := hbytes.mpr fun i _ hi => absurd hi (Nat.not_lt_zero i)
  have hcut : f.tmpfsTruncate kreallocDirty 0 = (.ok (), { f with size := 0, priv := some data }) :=
    hholds.tmpfsTruncate_keeps (Nat.zero_le _)
  have hstep : FileOp.step kreallocDirty .new (.write [1, 2] 0) = some f := by
    rw [FileOp.step, hwrite]
    rfl
  obtain ⟨_, hrest⟩ := hrest f hstep
  obtain ⟨hclean, _⟩ := hrest { f with size := 0, priv := some data } (by rw [FileOp.step, hcut]; rfl)
  have hzero : data.getD 0 0 = 0 := hclean 0 (Nat.le_refl 0) (by decide)
  have hone : data.getD 0 0 = 1 := by
    have hat := getD_take data f.size 0
    rw [hshown, if_pos (by omega)] at hat
    exact hat.symm
  rw [hone] at hzero
  exact absurd hzero (by decide)

end

end MyUnix.Fs
