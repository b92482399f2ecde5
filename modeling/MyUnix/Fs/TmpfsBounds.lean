import MyUnix.Fs.TmpfsFile

/-!
# `Fs.TmpfsBounds` — the buffer of a `tmpfs` file, and what is touched of it

The operations of `Fs.TmpfsFile` with a `krealloc` that may answer each call as it likes, as long as a block it gives has
the size it was asked for. `touches` lists the ranges of the buffer that an operation reads or writes, in order, each
with the `data_cap` at that moment: the part that is cleared when the buffer grows, and what `memcpy` copies.

That the size never exceeds the capacity is the invariant (`TmpfsFile.Holds`); reads rest on it, and writes and
truncations keep it whether the buffer grows, stays or could not grow.

A `krealloc` that fails leaves the old block, and the operation returns an error before it has touched anything behind
the old capacity. So no answer of the heap can make an access leave the buffer; what the bytes are is the other
question, in `Fs.TmpfsFile`.
-/

namespace MyUnix.Fs

open Lib Mm

/-- A block that `krealloc` gives has the size asked for. -/
def Krealloc.Sized (krealloc : Krealloc) : Prop := ∀ data n new, krealloc data n = some new → new.length = n

/-- `node->data_cap`. -/
def TmpfsFile.dataCap (f : TmpfsFile) : Nat := (f.priv.getD []).length

/-- `len` bytes of the buffer from `start` on, while its capacity is `cap`. -/
structure Touch where
  start : Nat
  len   : Nat
  cap   : Nat
  deriving DecidableEq, Repr

/-- Every index is below the capacity. -/
def Touch.Inside (t : Touch) : Prop := ∀ i, t.start ≤ i → i < t.start + t.len → i < t.cap

/-- The `memset` behind the old capacity. -/
def growTouches (krealloc : Krealloc) (data : List UInt8) (n : Nat) : List Touch :=
  if data.length < n then
    match krealloc data (alignUp n) with
    | none     => []
    | some new => [⟨data.length, alignUp n - data.length, new.length⟩]
  else []

namespace FileOp

/-- Offsets and sizes are not negative, and the end of the range is below `2 ^ 63`. -/
def InRange : FileOp → Prop
  | read len off  => 0 ≤ off ∧ off + len < 2 ^ 63
  | write buf off => 0 ≤ off ∧ off + buf.length < 2 ^ 63
  | truncate size => 0 ≤ size ∧ size < 2 ^ 63

/-- What an operation reads and writes of the buffer. -/
def touches (krealloc : Krealloc) (f : TmpfsFile) : FileOp → List Touch
  | read len off  =>
      match f.priv with
      | none      => []
      | some data =>
          if f.type = .dir ∨ off < 0 ∨ f.size ≤ sizeT off then []
          else [⟨off.toNat, min len (f.size - off.toNat), data.length⟩]
  | write buf off =>
      match f.priv with
      | none      => []
      | some data =>
          if f.type = .dir then []
          else
            let newEnd := (sizeT off + buf.length) % 2 ^ 64
            match fitBuffer krealloc data newEnd with
            | none     => growTouches krealloc data newEnd
            | some fit => growTouches krealloc data newEnd ++ [⟨off.toNat, buf.length, fit.length⟩]
  | truncate size =>
      match f.priv with
      | none      => []
      | some data => growTouches krealloc data (sizeT size)

/-- Whether an operation succeeds, and the file it leaves; `none` where it leaves the buffer. -/
def exec (krealloc : Krealloc) (f : TmpfsFile) : FileOp → Option (Bool × TmpfsFile)
  | read len off  => (f.tmpfsRead len off).map fun r => (r.isOk, f)
  | write buf off => (f.tmpfsWrite krealloc buf off).map fun (r, f) => (r.isOk, f)
  | truncate size =>
      let (r, f) := f.tmpfsTruncate krealloc size
      some (r.isOk, f)

end FileOp

/-- **The bounds hold all along.** At any time the size is at most the capacity, and the next operation touches only
    indices below the capacity and leaves the file as it is when it fails. -/
def RunInBounds (f : TmpfsFile) : List (Krealloc × FileOp) → Prop
  | []                    => f.size ≤ f.dataCap
  | (krealloc, op) :: ops =>
      f.size ≤ f.dataCap ∧ (∀ t ∈ op.touches krealloc f, t.Inside) ∧
        ∃ ok f', op.exec krealloc f = some (ok, f') ∧ (ok = false → f' = f) ∧ RunInBounds f' ops

/-! ## The buffer

Growing to a capacity that fits, and what is cleared by it.
-/

section
variable {krealloc : Krealloc} {f : TmpfsFile} {data : List UInt8} {n : Nat}

theorem le_alignUp_of_lt (h : n < 2 ^ 63) : n ≤ alignUp n := by
  apply le_alignUp
  unfold pageSize
  omega

/-- A buffer that was made to fit has room for `n` bytes and is no shorter than the old one. -/
theorem length_fitBuffer (hk : krealloc.Sized) {fit : List UInt8} (hn : n < 2 ^ 63)
    (hfit : fitBuffer krealloc data n = some fit) : n ≤ fit.length ∧ data.length ≤ fit.length := by
  have hup := le_alignUp_of_lt hn
  rw [fitBuffer] at hfit
  split at hfit
  next hlt =>
    obtain ⟨new, hnew, hgrown⟩ := Option.bind_eq_some_iff.mp hfit
    rw [← Option.some.inj hgrown, List.length_append, List.length_take, List.length_replicate, hk _ _ _ hnew]
    omega
  next hge =>
    obtain rfl := Option.some.inj hfit
    exact ⟨Nat.not_lt.mp hge, Nat.le_refl _⟩

/-- What is cleared lies in the new buffer. -/
theorem growTouches_inside (hk : krealloc.Sized) (hn : n < 2 ^ 63) : ∀ t ∈ growTouches krealloc data n, t.Inside := by
  have hup := le_alignUp_of_lt hn
  intro t ht
  rw [growTouches] at ht
  split at ht
  next hlt =>
    split at ht
    next => exact absurd ht List.not_mem_nil
    next new hnew =>
      obtain rfl := List.mem_singleton.mp ht
      intro i hge hi
      have hcap := hk _ _ _ hnew
      simp only at hge hi ⊢
      omega
  next => exact absurd ht List.not_mem_nil

theorem TmpfsFile.Holds.size_le_cap (h : f.Holds data) : f.size ≤ f.dataCap := by
  rw [TmpfsFile.dataCap, h.priv]
  exact h.size

end

/-! ## One operation

For each call: the bounds after it, and every range that it has touched.
-/

namespace FileOp

variable {krealloc : Krealloc} {f : TmpfsFile} {data : List UInt8}

/-- What one operation has to do. -/
def StepInBounds (krealloc : Krealloc) (f : TmpfsFile) (op : FileOp) : Prop :=
  (∀ t ∈ op.touches krealloc f, t.Inside) ∧
    ∃ ok f' data', op.exec krealloc f = some (ok, f') ∧ f'.Holds data' ∧ (ok = false → f' = f)

theorem read_inBounds (h : f.Holds data) {len : Nat} {off : Int} (hin : (read len off).InRange) :
    StepInBounds krealloc f (read len off) := by
  obtain ⟨h0, hend⟩ := hin
  have h63 : off < 2 ^ 63 := by omega
  refine ⟨fun t ht => ?_, true, f, data, ?_, h, fun hfail => Bool.noConfusion hfail⟩
  · simp only [touches, h.priv] at ht
    split at ht
    next => exact absurd ht List.not_mem_nil
    next =>
      obtain rfl := List.mem_singleton.mp ht
      have hsize := h.size
      intro i hge hi
      simp only at hge hi ⊢
      omega
  · rw [exec, h.tmpfsRead h0 h63]
    rfl

theorem write_inBounds (hk : krealloc.Sized) (h : f.Holds data) {buf : List UInt8} {off : Int}
    (hin : (write buf off).InRange) : StepInBounds krealloc f (write buf off) := by
  obtain ⟨h0, hend⟩ := hin
  have hoff : sizeT off = off.toNat := sizeT_of_fits h0 (by omega)
  have hnewEnd : (sizeT off + buf.length) % 2 ^ 64 = off.toNat + buf.length := by
    rw [hoff]
    omega
  have hlt : off.toNat + buf.length < 2 ^ 63 := by omega
  have hgrow := @growTouches_inside krealloc data _ hk hlt
  cases hfit : fitBuffer krealloc data (off.toNat + buf.length) with
  | none =>
    refine ⟨fun t ht => ?_, false, f, data, ?_, h, fun _ => rfl⟩
    · simp only [touches, h.priv, if_neg h.file, hnewEnd, hfit] at ht
      exact hgrow t ht
    · simp only [exec, TmpfsFile.tmpfsWrite, h.priv, if_neg h.file, hnewEnd, hfit]
      rfl
  | some fit =>
    obtain ⟨hroom, hlonger⟩ := length_fitBuffer hk hlt hfit
    refine ⟨fun t ht => ?_, true, ⟨f.type, max f.size (off.toNat + buf.length), some (splice fit off.toNat buf)⟩, _, ?_,
      ⟨h.file, rfl, ?_⟩, fun hfail => Bool.noConfusion hfail⟩
    · simp only [touches, h.priv, if_neg h.file, hnewEnd, hfit, List.mem_append, List.mem_singleton] at ht
      rcases ht with ht | rfl
      · exact hgrow t ht
      · intro i _ hi
        simp only at hi ⊢
        omega
    · simp only [exec, TmpfsFile.tmpfsWrite, h.priv, if_neg h.file, hnewEnd, hfit]
      rw [copyIn, if_pos ⟨h0, hroom⟩]
      rfl
    · have hsize := h.size
      rw [length_splice hroom]
      simp only
      omega

theorem truncate_inBounds (hk : krealloc.Sized) (h : f.Holds data) {size : Int} (hin : (truncate size).InRange) :
    StepInBounds krealloc f (truncate size) := by
  obtain ⟨h0, h63⟩ := hin
  have hsize : sizeT size = size.toNat := sizeT_of_fits h0 h63
  have hlt : size.toNat < 2 ^ 63 := by omega
  have hgrow := @growTouches_inside krealloc data _ hk hlt
  refine ⟨fun t ht => ?_, ?_⟩
  · simp only [touches, h.priv, hsize] at ht
    exact hgrow t ht
  · cases hfit : fitBuffer krealloc data size.toNat with
    | none =>
      refine ⟨false, f, data, ?_, h, fun _ => rfl⟩
      simp only [exec, TmpfsFile.tmpfsTruncate, h.priv, hsize, hfit]
      rfl
    | some fit =>
      refine ⟨true, ⟨f.type, size.toNat, some fit⟩, fit, ?_, ⟨h.file, rfl, ?_⟩, fun hfail => Bool.noConfusion hfail⟩
      · simp only [exec, TmpfsFile.tmpfsTruncate, h.priv, hsize, hfit]
        rfl
      · exact (length_fitBuffer hk hlt hfit).1

/-- **One operation**, whatever `krealloc` answers. -/
theorem stepInBounds (hk : krealloc.Sized) (h : f.Holds data) {op : FileOp} (hin : op.InRange) :
    StepInBounds krealloc f op := by
  cases op with
  | read len off => exact read_inBounds h hin
  | write buf off => exact write_inBounds hk h hin
  | truncate size => exact truncate_inBounds hk h hin

end FileOp

/-! ## Runs

In any sequence, with calls that fail among them.
-/

theorem runInBounds_of_holds (ops : List (Krealloc × FileOp)) :
    ∀ {f : TmpfsFile} {data : List UInt8}, f.Holds data → (∀ p ∈ ops, p.1.Sized ∧ p.2.InRange) → RunInBounds f ops := by
  induction ops with
  | nil =>
    intro f data h _
    exact h.size_le_cap
  | cons p ops ih =>
    intro f data h hops
    obtain ⟨hk, hin⟩ := hops p List.mem_cons_self
    obtain ⟨htouch, ok, f', data', hexec, h', hfail⟩ := p.2.stepInBounds hk h hin
    exact ⟨h.size_le_cap, htouch, ok, f', hexec, hfail, ih h' fun q hq => hops q (List.mem_cons_of_mem _ hq)⟩

/-- **A `tmpfs` file stays within its buffer**: in every sequence of writes, truncations and reads of a new file, with
    `krealloc` failing or succeeding at each call. -/
theorem tmpfs_in_bounds (ops : List (Krealloc × FileOp)) (hops : ∀ p ∈ ops, p.1.Sized ∧ p.2.InRange) :
    RunInBounds .new ops :=
  runInBounds_of_holds ops TmpfsFile.holds_new hops

/-- A `krealloc` that finds no memory. -/
def kreallocNone : Krealloc := fun _ _ => none

/-- A write that grows the buffer, a truncation for which there is no memory, and a read. -/
def failingOps : List (Krealloc × FileOp) :=
  [(kreallocDirty, .write [1, 2] 4095), (kreallocNone, .truncate 10000), (kreallocNone, .read 8 4090)]

theorem tmpfs_in_bounds_failing : RunInBounds .new failingOps := by
  have hnone : kreallocNone.Sized := fun _ _ _ hnew => nomatch hnew
  have hdirty : kreallocDirty.Sized := by
    intro data n new hnew
    rw [← Option.some.inj hnew, List.length_append, List.length_take, List.length_replicate]
    omega
  apply tmpfs_in_bounds
  simp only [failingOps, List.forall_mem_cons, FileOp.InRange]
  exact ⟨⟨hdirty, by decide⟩, ⟨hnone, by decide⟩, ⟨hnone, by decide⟩, by simp⟩

end MyUnix.Fs
