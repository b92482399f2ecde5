import MyUnix.Fs.Mounts

/-!
# `Fs.VfsOpen` — opening a file, and the references path resolution leaves behind

`vfs_lookup_parent`, `file_alloc` and `vfs_open` over the vnodes of `Fs.Vfs`. The operations that a file system
provides are a parameter here: the ones of `initrd`, `tmpfs` and the devices are `srcOps`, and what a caller may rely
on is `HandOver`: a lookup or a creation that succeeds hands over exactly one reference.

`Owes s s' held` compares two states: every vnode of `s` has the references it had and those that `held` lists, and
of the vnodes that are new in `s'` only those that `held` lists are left. This is the account that `vfs_lookup`,
`vfs_lookup_parent` and `vfs_open` keep, with their result as all that is held at the end.

The account is compositional. Each function hands over what it says and nothing else, so the account of a sequence is
the sum of those of its parts (`Owes.trans`), and a reference that was taken and given back cancels out. This is used
for the walk itself, with the parametrised account of `Fs.VfsRefs`, and for the branches of `vfs_open`, each of which
must give back the directory it has looked up.

The statement is about calls that return. A call that ends in a panic of `kfree` has no account.
-/

namespace MyUnix.Fs

open Vfs

/-- `O_CREAT`. -/
def oCreat : Nat := 0x40

/-- `O_EXCL`. -/
def oExcl : Nat := 0x80

/-- `O_TRUNC`. -/
def oTrunc : Nat := 0x200

/-- `O_DIRECTORY`. -/
def oDirectory : Nat := 0x10000

/-- A flag of `open` is set. -/
def hasFlag (flags f : Nat) : Prop := flags &&& f ≠ 0

instance (flags f : Nat) : Decidable (hasFlag flags f) := inferInstanceAs (Decidable (flags &&& f ≠ 0))

/-- `file_t`. -/
structure File where
  vnode    : Nat
  flags    : Nat
  offset   : Nat
  refcount : Nat
  deriving DecidableEq, Repr

/-- The operations of the file systems, by the table a vnode has; `none` where the table has no such operation. -/
structure FsOps where
  lookup   : LookupOp
  create   : VnodeOps → Option (Vfs → Nat → Path → Nat → Option (Except Errno Nat × Vfs))
  openVn   : VnodeOps → Option (Vfs → Nat → Nat → Nat → Option (Except Errno Unit × Vfs))
  truncate : VnodeOps → Option (Vfs → Nat → Nat → Option Vfs)

/-- `strrchr(path, '/')`: what lies before the last slash and what lies after it. -/
def splitLast (path : Path) : Option (Path × Path) :=
  if '/' ∈ path then
    some ((path.reverse.dropWhile (· ≠ '/')).tail.reverse, (path.reverse.takeWhile (· ≠ '/')).reverse)
  else none

namespace Vfs

variable (s : Vfs)

/-- `vfs_lookup_parent`. A start that is `NULL` stands for the working directory; without either the parent found is
    `NULL` too. The path of the parent must fit into a buffer of `PATH_MAX` bytes. -/
def vfsLookupParent (start cwd : Option Nat) (path : Path) (lookup : LookupOp) :
    Option (Except Errno (Option Nat × Path) × Vfs) :=
  match splitLast path with
  | none =>
      match start <|> cwd with
      | none   => some (.ok (none, path.take nameMax), s)
      | some a => do
          let s ← s.get a
          pure (.ok (some a, path.take nameMax), s)
  | some (parent, name) =>
      if pathMax ≤ parent.length then none
      else do
        let (r, s) ← s.vfsLookup (start <|> cwd) (if parent = [] then ['/'] else parent) lookup
        pure (r.map fun a => (some a, name.take nameMax), s)

/-- `file_alloc`. -/
def fileAlloc (vn flags : Nat) : Option (Option File × Vfs) :=
  match s.kzalloc with
  | none        => some (none, s)
  | some (_, s) => do
      let s ← s.get vn
      pure (some ⟨vn, flags, 0, 1⟩, s)

/-- The branch of `vfs_open` that makes a new file. -/
def createNode (ops : FsOps) (cwd : Option Nat) (path : Path) (mode : Nat) : Option (Except Errno Nat × Vfs) := do
  match ← s.vfsLookupParent s.rootVn cwd path ops.lookup with
  | (.error e, s)           => pure (.error e, s)
  | (.ok (parent, name), s) => do
      -- without a root and a working directory the parent is `NULL`, which is a fault here
      let parent ← parent
      let v ← s.vnodes parent
      match ops.create v.data.ops with
      | none        => do
          let s ← s.put parent
          pure (.error .access, s)
      | some create => do
          let (r, s) ← create s parent name mode
          let s ← s.put parent
          pure (r, s)

/-- The vnode that `vfs_open` opens, found or made. -/
def openNode (ops : FsOps) (cwd : Option Nat) (path : Path) (flags mode : Nat) :
    Option (Except Errno Nat × Vfs) := do
  match ← s.vfsLookup (s.rootVn <|> cwd) path ops.lookup with
  | (.error e, s) =>
      if e = .noEnt ∧ hasFlag flags oCreat then s.createNode ops cwd path mode else pure (.error e, s)
  | (.ok vn, s)   =>
      if hasFlag flags oExcl ∧ hasFlag flags oCreat then do
        let s ← s.put vn
        pure (.error .exist, s)
      else pure (.ok vn, s)

/-- The `open` callback, where the vnode has one. -/
def callOpen (ops : FsOps) (vn flags mode : Nat) : Option (Except Errno Unit × Vfs) := do
  let v ← s.vnodes vn
  match ops.openVn v.data.ops with
  | none   => pure (.ok (), s)
  | some f => f s vn flags mode

/-- `O_TRUNC`, for a regular file whose table has a `truncate`. -/
def callTruncate (ops : FsOps) (vn flags : Nat) : Option Vfs := do
  let v ← s.vnodes vn
  if hasFlag flags oTrunc ∧ v.data.type = .reg then
    match ops.truncate v.data.ops with
    | none   => pure s
    | some f => f s vn 0
  else pure s

/-- The second half of `vfs_open`: from the vnode to a file. -/
def openFile (ops : FsOps) (vn flags mode : Nat) : Option (Except Errno File × Vfs) := do
  let v ← s.vnodes vn
  if hasFlag flags oDirectory ∧ v.data.type ≠ .dir then do
    let s ← s.put vn
    pure (.error .notDir, s)
  else do
    match ← s.callOpen ops vn flags mode with
    | (.error e, s) => do
        let s ← s.put vn
        pure (.error e, s)
    | (.ok (), s)   => do
        let s ← s.callTruncate ops vn flags
        let (f, s) ← s.fileAlloc vn flags
        let s ← s.put vn
        pure (f.elim (.error .noMem) .ok, s)

/-- `vfs_open`. -/
def vfsOpen (ops : FsOps) (cwd : Option Nat) (path : Path) (flags mode : Nat) : Option (Except Errno File × Vfs) := do
  match ← s.openNode ops cwd path flags mode with
  | (.error e, s) => pure (.error e, s)
  | (.ok vn, s)   => s.openFile ops vn flags mode

/-- `tmpfs_create`. The file system it would make the node in is never set, so it makes none. -/
def tmpfsCreate (dir : Nat) (name : Path) : Option (Except Errno Nat × Vfs) := do
  let v ← s.vnodes dir
  match v.data.priv with
  | none   => pure (.error .inval, s)
  | some n => do
      let parent ← s.nodes n
      match s.tmpfsFindChild parent name with
      | some _ => pure (.error .exist, s)
      | none   => pure (.error .io, s)

/-- `tmpfs_truncate` to a length that needs no larger buffer. -/
def tmpfsTruncate (vn size : Nat) : Option Vfs := do
  let v ← s.vnodes vn
  match v.data.priv with
  | none   => pure s
  | some _ => pure (s.setVnode vn (some ⟨{ v.data with attr := { v.data.attr with size } }, v.refcount⟩))

end Vfs

/-! ## The tables of the file systems

What stands in them; an operation that is `NULL` in the source is missing here.
-/

/-- The operations of `initrd`, `tmpfs` and the devices. No table has an `open`. -/
def srcOps : FsOps where
  lookup := opsLookup
  create
    | .tmpfs => some fun s dir name _ => s.tmpfsCreate dir name
    | _      => none
  openVn _ := none
  truncate
    | .tmpfs => some fun s vn size => s.tmpfsTruncate vn size
    | _      => none

/-! ## The account

References before and after, with what the caller holds now.
-/

namespace Vfs

/-- The references of a vnode, if it exists. -/
def refs (s : Vfs) (a : Nat) : Option Int := (s.vnodes a).map Vnode.refcount

/-- A vnode lives as long as it has references, and the numbers from `next` on are not in use. -/
structure WellCounted (s : Vfs) : Prop where
  pos   : ∀ a n, s.refs a = some n → 1 ≤ n
  fresh : ∀ a, s.next ≤ a → s.refs a = none

end Vfs

/-- The references of a vnode after `k` more were taken: one that did not exist has only these. -/
def owed : Option Int → Nat → Option Int
  | some n, k => some (n + k)
  | none,   k => if k = 0 then none else some k

/-- `held` lists the references that were added between the two states, and no vnode is left over. -/
structure Owes (s s' : Vfs) (held : List Nat) : Prop where
  refs  : ∀ a, s'.refs a = owed (s.refs a) (held.count a)
  fresh : ∀ a, s'.next ≤ a → s'.refs a = none

/-- **What the file systems do with references.** A lookup or a creation that succeeds hands its caller exactly one,
    and the directory keeps one of its own on what it has just created; nothing else changes a count. -/
structure FsOps.HandOver (ops : FsOps) : Prop where
  lookup   : ∀ {s s' : Vfs} {dir : Nat} {name : Path} {res : Except Errno Nat}, s.WellCounted →
    ops.lookup s dir name = some (res, s') → Owes s s' (Refs.outcome [] res)
  made     : ∀ {k f} {s s' : Vfs} {dir : Nat} {name : Path} {mode a : Nat}, ops.create k = some f → s.WellCounted →
    f s dir name mode = some (.ok a, s') → s.refs a = none ∧ Owes s s' [a, a]
  notMade  : ∀ {k f} {s s' : Vfs} {dir : Nat} {name : Path} {mode : Nat} {e : Errno}, ops.create k = some f →
    s.WellCounted → f s dir name mode = some (.error e, s') → Owes s s' []
  openVn   : ∀ {k f} {s s' : Vfs} {vn flags mode : Nat} {res : Except Errno Unit}, ops.openVn k = some f →
    s.WellCounted → f s vn flags mode = some (res, s') → Owes s s' []
  truncate : ∀ {k f} {s s' : Vfs} {vn size : Nat}, ops.truncate k = some f →
    s.WellCounted → f s vn size = some s' → Owes s s' []

@[simp] theorem owed_zero (n : Option Int) : owed n 0 = n := by
  cases n with
  | none => rfl
  | some n => simp [owed]

theorem owed_owed (n : Option Int) (j k : Nat) : owed (owed n j) k = owed n (j + k) := by
  cases n with
  | none =>
      by_cases hj : j = 0
      · subst hj
        simp
      · simp [owed, hj]
  | some n =>
      simp only [owed, Option.some.injEq]
      push_cast
      omega

namespace Vfs

variable {s s' : Vfs} {a : Nat}

theorem refs_setVnode (b : Nat) (v : Option Vnode) :
    (s.setVnode b v).refs = Function.update s.refs b (v.map Vnode.refcount) := by
  funext c
  by_cases hc : c = b
  · subst hc
    simp [refs, setVnode]
  · simp [refs, setVnode, hc]

theorem refs_get (h : s.get a = some s') :
    s'.next = s.next ∧ ∃ n, s.refs a = some n ∧ s'.refs = Function.update s.refs a (some (n + 1)) := by
  obtain ⟨v, hv, h⟩ := Option.bind_eq_some_iff.mp h
  cases h
  exact ⟨rfl, v.refcount, by simp [refs, hv], refs_setVnode a _⟩

theorem refs_put (h : s.put a = some s') :
    s'.next = s.next ∧ ∃ n, s.refs a = some n ∧
      s'.refs = Function.update s.refs a (if n = 1 then none else some (n - 1)) := by
  obtain ⟨v, hv, h⟩ := Option.bind_eq_some_iff.mp (drop_of_put h)
  cases h
  refine ⟨rfl, v.refcount, by simp [refs, hv], ?_⟩
  rw [refs_setVnode]
  split
  · rfl
  · rfl

end Vfs

namespace Owes

variable {s s₁ s₂ : Vfs} {held held' : List Nat} {a b : Nat}

theorem refl (hs : s.WellCounted) : Owes s s [] := ⟨fun a => by simp, hs.fresh⟩

theorem wellCounted (h : Owes s s₁ held) (hs : s.WellCounted) : s₁.WellCounted := by
  refine ⟨fun a n hn => ?_, h.fresh⟩
  rw [h.refs a] at hn
  cases hr : s.refs a with
  | none =>
      rw [hr] at hn
      simp only [owed] at hn
      split at hn
      · cases hn
      · cases hn
        omega
  | some m =>
      rw [hr] at hn
      have := hs.pos a m hr
      simp only [owed, Option.some.injEq] at hn
      omega

/-- The accounts of two stretches add up. -/
theorem trans (h : Owes s s₁ held) (h' : Owes s₁ s₂ held') : Owes s s₂ (held' ++ held) := by
  refine ⟨fun a => ?_, h'.fresh⟩
  rw [h'.refs, h.refs, owed_owed, List.count_append, Nat.add_comm]

theorem perm (h : Owes s s₁ held) (hp : held.Perm held') : Owes s s₁ held' :=
  ⟨fun a => by rw [h.refs a, hp.count_eq a], h.fresh⟩

theorem get (h : Owes s s₁ held) (hget : s₁.get a = some s₂) : Owes s s₂ (a :: held) := by
  obtain ⟨hnext, n, hn, hrefs⟩ := refs_get hget
  have hstep : Owes s₁ s₂ [a] := by
    refine ⟨fun b => ?_, fun b hb => ?_⟩
    · rw [hrefs]
      by_cases hba : b = a
      · subst hba
        simp [hn, owed]
      · simp [Function.update_of_ne hba, List.count_cons_of_ne (Ne.symm hba)]
    · have hnone := h.fresh b (hnext ▸ hb)
      have hba : b ≠ a := by
        rintro rfl
        rw [hn] at hnone
        cases hnone
      rw [hrefs, Function.update_of_ne hba]
      exact hnone
  exact h.trans hstep

/-- Giving back a reference that was taken since: an older vnode has one of before left, so it is not freed. -/
theorem put (h : Owes s s₁ (a :: held)) (hs : s.WellCounted) (hput : s₁.put a = some s₂) : Owes s s₂ held := by
  obtain ⟨hnext, n, hn, hrefs⟩ := refs_put hput
  refine ⟨fun b => ?_, fun b hb => ?_⟩
  · rw [hrefs]
    by_cases hba : b = a
    · subst hba
      have hat := h.refs b
      rw [hn, List.count_cons_self] at hat
      rw [Function.update_self]
      cases hr : s.refs b with
      | none =>
          rw [hr] at hat
          simp only [owed, Nat.add_one_ne_zero, if_false, Option.some.injEq] at hat
          subst hat
          by_cases hz : held.count b = 0
          · simp [owed, hz]
          · have hne : ((held.count b + 1 : Nat) : Int) ≠ 1 := by omega
            rw [if_neg hne]
            simp [owed, hz]
      | some m =>
          rw [hr] at hat
          have hm := hs.pos b m hr
          simp only [owed, Option.some.injEq] at hat ⊢
          subst hat
          push_cast
          rw [if_neg (by omega)]
          simp only [Option.some.injEq]
          omega
    · rw [Function.update_of_ne hba, h.refs b, List.count_cons_of_ne (Ne.symm hba)]
  · have hnone := h.fresh b (hnext ▸ hb)
    have hba : b ≠ a := by
      rintro rfl
      rw [hn] at hnone
      cases hnone
    rw [hrefs, Function.update_of_ne hba]
    exact hnone

/-- **The account is kept** by path resolution over such file systems. -/
theorem balanced {ops : FsOps} (hops : ops.HandOver) (hs : s.WellCounted) : Balanced (Owes s) ops.lookup where
  get h hget := h.get hget
  put h hput := h.put hs hput
  swap h := h.perm (List.Perm.swap _ _ _)
  lookup := by
    intro s₁ s₂ held dir name res h hl
    have hstep := h.trans (hops.lookup (h.wellCounted hs) hl)
    cases res with
    | ok a => exact hstep
    | error e => exact hstep

/-! ## From a path to a file

The parts of `vfs_open`: the parent, the new node, the callbacks, the file.
-/

variable {ops : FsOps} {cwd start : Option Nat} {path : Path} {flags mode vn : Nat}

/-- What the caller of `vfs_lookup_parent` holds. -/
def parentHeld : Except Errno (Option Nat × Path) → List Nat
  | .ok (parent, _) => parent.toList
  | .error _        => []

/-- What the caller of `vfs_open` holds, through the file. -/
def opened : Except Errno File → List Nat
  | .ok f    => [f.vnode]
  | .error _ => []

/-- The vnode that `vfs_open` makes in a directory, if it makes one. -/
def created (s : Vfs) (ops : FsOps) (cwd : Option Nat) (path : Path) (flags mode : Nat) : List Nat :=
  match s.vfsLookup (s.rootVn <|> cwd) path ops.lookup with
  | some (.error .noEnt, s) =>
      if hasFlag flags oCreat then
        match s.createNode ops cwd path mode with
        | some (.ok a, _) => [a]
        | _               => []
      else []
  | _ => []

end Owes

namespace Vfs.WellCounted

variable {s s' : Vfs} {a : Nat}

theorem get (hs : s.WellCounted) (h : s.get a = some s') : s'.WellCounted := ((Owes.refl hs).get h).wellCounted hs

/-- A count that is not the last reference stays positive, and the vnode with the last one is gone. -/
theorem put (hs : s.WellCounted) (h : s.put a = some s') : s'.WellCounted := by
  obtain ⟨hnext, n, hn, hrefs⟩ := refs_put h
  constructor
  · intro b m hm
    rw [hrefs] at hm
    by_cases hb : b = a
    · subst hb
      have hpos := hs.pos b n hn
      rw [Function.update_self] at hm
      split at hm
      next => cases hm
      next hone =>
        cases hm
        omega
    · rw [Function.update_of_ne hb] at hm
      exact hs.pos b m hm
  · intro b hb
    have hnone := hs.fresh b (hnext ▸ hb)
    have hba : b ≠ a := by
      rintro rfl
      rw [hn] at hnone
      cases hnone
    rw [hrefs, Function.update_of_ne hba]
    exact hnone

end Vfs.WellCounted

/-- An account that path resolution and the parts of opening a vnode keep. -/
structure Accounted (P : Vfs → List Nat → Prop) (ops : FsOps) : Prop where
  balanced : Balanced P ops.lookup
  kzalloc  : ∀ {s s' : Vfs} {held : List Nat} {a : Nat}, P s held → s.kzalloc = some (a, s') → P s' held
  openVn   : ∀ {k f} {s s' : Vfs} {held : List Nat} {vn flags mode : Nat} {res : Except Errno Unit},
    ops.openVn k = some f → P s held → f s vn flags mode = some (res, s') → P s' held
  truncate : ∀ {k f} {s s' : Vfs} {held : List Nat} {vn size : Nat}, ops.truncate k = some f → P s held →
    f s vn size = some s' → P s' held

namespace Accounted

variable {P : Vfs → List Nat → Prop} {ops : FsOps} {s s' : Vfs} {held : List Nat} {cwd start : Option Nat} {path : Path}
  {flags mode vn : Nat}

theorem vfsLookupParent {res : Except Errno (Option Nat × Path)} (hP : Accounted P ops) (h : P s held)
    (hl : s.vfsLookupParent start cwd path ops.lookup = some (res, s')) : P s' (Owes.parentHeld res ++ held) := by
  unfold Vfs.vfsLookupParent at hl
  split at hl
  · split at hl
    · cases hl
      exact h
    · obtain ⟨t, hget, hl⟩ := Option.bind_eq_some_iff.mp hl
      cases hl
      exact hP.balanced.get h hget
  · split at hl
    · cases hl
    · obtain ⟨⟨r, t⟩, hlookup, hl⟩ := Option.bind_eq_some_iff.mp hl
      cases hl
      have hstep := hP.balanced.vfsLookup h hlookup
      cases r with
      | ok a => exact hstep
      | error e => exact hstep

theorem fileAlloc {f : Option File} (hP : Accounted P ops) (h : P s held) (hf : s.fileAlloc vn flags = some (f, s')) :
    P s' (Owes.opened (f.elim (.error .noMem) .ok) ++ held) := by
  unfold Vfs.fileAlloc at hf
  split at hf
  · cases hf
    exact h
  next hk =>
    obtain ⟨t, hget, hf⟩ := Option.bind_eq_some_iff.mp hf
    cases hf
    exact hP.balanced.get (hP.kzalloc h hk) hget

theorem openFile {res : Except Errno File} (hP : Accounted P ops) (h : P s (vn :: held))
    (ho : s.openFile ops vn flags mode = some (res, s')) : P s' (Owes.opened res ++ held) := by
  obtain ⟨v, -, ho⟩ := Option.bind_eq_some_iff.mp ho
  split at ho
  · -- no directory although one was asked for: the vnode is given back
    obtain ⟨t, hput, ho⟩ := Option.bind_eq_some_iff.mp ho
    cases ho
    exact hP.balanced.put h hput
  · obtain ⟨⟨r, t⟩, hcall, ho⟩ := Option.bind_eq_some_iff.mp ho
    -- the callback `open`, which a file system may have
    have hopen : P t (vn :: held) := by
      obtain ⟨w, -, hcall⟩ := Option.bind_eq_some_iff.mp hcall
      cases hop : ops.openVn w.data.ops with
      | none =>
          rw [hop] at hcall
          cases hcall
          exact h
      | some f =>
          rw [hop] at hcall
          exact hP.openVn hop h hcall
    cases r with
    | error e =>
        obtain ⟨t', hput, ho⟩ := Option.bind_eq_some_iff.mp ho
        cases ho
        exact hP.balanced.put hopen hput
    | ok u =>
        obtain ⟨t₁, htrunc, ho⟩ := Option.bind_eq_some_iff.mp ho
        obtain ⟨⟨f, t₂⟩, halloc, ho⟩ := Option.bind_eq_some_iff.mp ho
        obtain ⟨t₃, hput, ho⟩ := Option.bind_eq_some_iff.mp ho
        cases ho
        -- a truncation, where it was asked for
        have hcut : P t₁ (vn :: held) := by
          obtain ⟨w, -, htrunc⟩ := Option.bind_eq_some_iff.mp htrunc
          split at htrunc
          · cases hop : ops.truncate w.data.ops with
            | none =>
                rw [hop] at htrunc
                cases htrunc
                exact hopen
            | some g =>
                rw [hop] at htrunc
                exact hP.truncate hop hopen htrunc
          · cases htrunc
            exact hopen
        -- the file has a reference of its own, so that of the call is given back either way
        have hfile := hP.fileAlloc hcut halloc
        cases f with
        | none => exact hP.balanced.put hfile hput
        | some f => exact hP.balanced.put (hP.balanced.swap hfile) hput

end Accounted

namespace Owes

variable {s s₁ s₂ : Vfs} {held : List Nat} {ops : FsOps} {cwd start : Option Nat} {path : Path} {flags mode vn : Nat}

theorem accounted (hops : ops.HandOver) (hs : s.WellCounted) : Accounted (Owes s) ops where
  balanced := balanced hops hs
  kzalloc h hk := by
    unfold Vfs.kzalloc at hk
    split at hk
    · cases hk
    · cases hk
      exact ⟨h.refs, fun a ha => h.fresh a (Nat.le_of_succ_le ha)⟩
  openVn hop h hcall := h.trans (hops.openVn hop (h.wellCounted hs) hcall)
  truncate hop h hcall := h.trans (hops.truncate hop (h.wellCounted hs) hcall)

theorem vfsLookup {res : Except Errno Nat} (h : Owes s s₁ held) (hops : ops.HandOver) (hs : s.WellCounted)
    (hl : s₁.vfsLookup start path ops.lookup = some (res, s₂)) : Owes s s₂ (Refs.outcome held res) :=
  (balanced hops hs).vfsLookup h hl

theorem vfsLookupParent {res : Except Errno (Option Nat × Path)} (h : Owes s s₁ held) (hops : ops.HandOver)
    (hs : s.WellCounted) (hl : s₁.vfsLookupParent start cwd path ops.lookup = some (res, s₂)) :
    Owes s s₂ (parentHeld res ++ held) :=
  (accounted hops hs).vfsLookupParent h hl

/-- What there is after a creation: the reference of the caller and that of the directory. -/
def madeHeld : Except Errno Nat → List Nat
  | .ok a    => [a, a]
  | .error _ => []

theorem createNode {res : Except Errno Nat} (h : Owes s s₁ []) (hops : ops.HandOver) (hs : s.WellCounted)
    (hc : s₁.createNode ops cwd path mode = some (res, s₂)) :
    Owes s s₂ (madeHeld res) ∧ ∀ a, res = .ok a → s.refs a = none := by
  obtain ⟨⟨r, t⟩, hparent, hc⟩ := Option.bind_eq_some_iff.mp hc
  have hstep := h.vfsLookupParent hops hs hparent
  cases r with
  | error e =>
      cases hc
      exact ⟨hstep, fun a ha => by cases ha⟩
  | ok found =>
      obtain ⟨p, hp, hc⟩ := Option.bind_eq_some_iff.mp hc
      obtain ⟨v, -, hc⟩ := Option.bind_eq_some_iff.mp hc
      rw [parentHeld, hp] at hstep
      cases hop : ops.create v.data.ops with
      | none =>
          rw [hop] at hc
          obtain ⟨t', hput, hc⟩ := Option.bind_eq_some_iff.mp hc
          cases hc
          exact ⟨hstep.put hs hput, fun a ha => by cases ha⟩
      | some f =>
          rw [hop] at hc
          obtain ⟨⟨r', t'⟩, hcreate, hc⟩ := Option.bind_eq_some_iff.mp hc
          obtain ⟨t'', hput, hc⟩ := Option.bind_eq_some_iff.mp hc
          cases hc
          cases res with
          | error e =>
              have hall := hstep.trans (hops.notMade hop (hstep.wellCounted hs) hcreate)
              exact ⟨hall.put hs hput, fun a ha => by cases ha⟩
          | ok a =>
              obtain ⟨hnew, howes⟩ := hops.made hop (hstep.wellCounted hs) hcreate
              have hall : Owes s t' (p :: [a, a]) := (hstep.trans howes).perm (List.perm_append_singleton p [a, a])
              refine ⟨hall.put hs hput, fun b hb => ?_⟩
              cases hb
              -- what does not exist beside the parent did not exist before
              rw [hstep.refs a] at hnew
              cases hr : s.refs a with
              | none => rfl
              | some n =>
                  rw [hr] at hnew
                  cases hnew

/-- The vnode to open comes with one reference, and a new one also with that of its directory. -/
theorem openNode {res : Except Errno Nat} (hops : ops.HandOver) (hs : s.WellCounted)
    (ho : s.openNode ops cwd path flags mode = some (res, s₁)) :
    Owes s s₁ (Refs.outcome (created s ops cwd path flags mode) res) ∧
      ∀ a ∈ created s ops cwd path flags mode, s.refs a = none := by
  obtain ⟨⟨r, t⟩, hlookup, ho⟩ := Option.bind_eq_some_iff.mp ho
  have hstep := (Owes.refl hs).vfsLookup hops hs hlookup
  unfold created
  rw [hlookup]
  cases r with
  | ok a =>
      refine ⟨?_, by simp⟩
      simp only at ho
      split at ho
      · obtain ⟨t', hput, ho⟩ := Option.bind_eq_some_iff.mp ho
        cases ho
        exact hstep.put hs hput
      · cases ho
        exact hstep
  | error e =>
      simp only at ho
      split at ho
      · rename_i hflag
        obtain ⟨rfl, hcreat⟩ := hflag
        simp only [if_pos hcreat, ho]
        obtain ⟨howes, hnew⟩ := hstep.createNode hops hs ho
        cases res with
        | ok a =>
            refine ⟨howes, fun b hb => ?_⟩
            obtain rfl := List.mem_singleton.mp hb
            exact hnew b rfl
        | error e' => exact ⟨howes, by simp⟩
      · rename_i hflag
        cases ho
        cases e with
        | noEnt =>
            have hcreat : ¬hasFlag flags oCreat := fun hc => hflag ⟨rfl, hc⟩
            simp only [if_neg hcreat]
            exact ⟨hstep, by simp⟩
        | _ => exact ⟨hstep, by simp⟩

theorem openFile {res : Except Errno File} (h : Owes s s₁ (vn :: held)) (hops : ops.HandOver) (hs : s.WellCounted)
    (ho : s₁.openFile ops vn flags mode = some (res, s₂)) : Owes s s₂ (opened res ++ held) :=
  (accounted hops hs).openFile h ho

end Owes

/-! ## The file systems here

That the operations of the kernel's file systems hand over what `HandOver` says.
-/

theorem Owes.alloc {s s' : Vfs} {a : Nat} {d : VnodeData} (hs : s.WellCounted)
    (h : s.vnodeAlloc d = some (a, s')) : Owes s s' [a] := by
  unfold vnodeAlloc kzalloc at h
  split at h
  · cases h
  · rename_i x t hk
    split at hk
    · cases hk
    · cases hk
      cases h
      have hnew := hs.fresh s.next (Nat.le_refl _)
      refine ⟨fun b => ?_, fun b hb => ?_⟩
      · rw [refs_setVnode]
        by_cases hb : b = s.next
        · subst hb
          have hrefs : Vfs.refs { s with next := s.next + 1, room := s.room - 1 } s.next = none := hnew
          simp [hnew, owed]
        · rw [Function.update_of_ne hb, List.count_cons_of_ne (Ne.symm hb), List.count_nil, owed_zero]
          rfl
      · have hb' : s.next + 1 ≤ b := hb
        rw [refs_setVnode, Function.update_of_ne (by omega)]
        exact hs.fresh b (by omega)

theorem Owes.opsLookup {s s' : Vfs} {dir : Nat} {name : Path} {res : Except Errno Nat} (hs : s.WellCounted)
    (h : s.opsLookup dir name = some (res, s')) : Owes s s' (Refs.outcome [] res) := by
  rcases opsLookup_cases h with ⟨e, rfl, rfl⟩ | ⟨a, rfl, hget⟩ | ⟨a, d, rfl, halloc⟩
  · exact Owes.refl hs
  · exact (Owes.refl hs).get hget
  · exact Owes.alloc hs halloc

theorem tmpfsCreate_error {s s' : Vfs} {dir : Nat} {name : Path} {res : Except Errno Nat}
    (h : s.tmpfsCreate dir name = some (res, s')) : (∃ e, res = .error e) ∧ s' = s := by
  obtain ⟨v, -, h⟩ := Option.bind_eq_some_iff.mp h
  split at h
  · cases h
    exact ⟨⟨_, rfl⟩, rfl⟩
  · obtain ⟨parent, -, h⟩ := Option.bind_eq_some_iff.mp h
    split at h
    · cases h
      exact ⟨⟨_, rfl⟩, rfl⟩
    · cases h
      exact ⟨⟨_, rfl⟩, rfl⟩

theorem Owes.tmpfsTruncate {s s' : Vfs} {vn size : Nat} (hs : s.WellCounted)
    (h : s.tmpfsTruncate vn size = some s') : Owes s s' [] := by
  obtain ⟨v, hv, h⟩ := Option.bind_eq_some_iff.mp h
  split at h
  · cases h
    exact Owes.refl hs
  · cases h
    have hsame : ∀ d, (s.setVnode vn (some ⟨d, v.refcount⟩)).refs = s.refs := by
      intro d
      rw [refs_setVnode]
      exact Function.update_eq_self_iff.mpr (by simp [Vfs.refs, hv])
    exact ⟨fun a => by simp [hsame], fun a ha => by rw [hsame]; exact hs.fresh a ha⟩

theorem srcOps_handOver : srcOps.HandOver where
  lookup hs h := Owes.opsLookup hs h
  made := by
    intro k f s s' dir name mode a hk hs h
    cases k with
    | tmpfs =>
        cases hk
        obtain ⟨⟨e, he⟩, -⟩ := tmpfsCreate_error h
        cases he
    | _ => cases hk
  notMade := by
    intro k f s s' dir name mode e hk hs h
    cases k with
    | tmpfs =>
        cases hk
        obtain ⟨-, rfl⟩ := tmpfsCreate_error h
        exact Owes.refl hs
    | _ => cases hk
  openVn hk := by cases hk
  truncate := by
    intro k f s s' vn size hk hs h
    cases k with
    | tmpfs =>
        cases hk
        exact Owes.tmpfsTruncate hs h
    | _ => cases hk

/-- The state after `initrd` was mounted on `/` at boot. -/
def initrdBoot (entries : List InitrdEntry) (room : Nat) : Vfs :=
  { vfsBoot entries room with
    vnodes := Function.update (vfsBoot entries room).vnodes 6
      (some ⟨⟨.dir, .initrd, none, none, none, ⟨dirMode, 0, 0, 0, 2, 0⟩⟩, 2⟩)
    rootVn := some 6
    mounts := [⟨.initrd, 6, none, ['/']⟩]
    next := 8 }

example (entries : List InitrdEntry) (room : Nat) :
    (vfsBoot entries (room + 1)).vfsMount ['/'] .initrd = some (.ok (), initrdBoot entries room) := rfl

theorem initrdBoot_wellCounted (entries : List InitrdEntry) (room : Nat) : (initrdBoot entries room).WellCounted := by
  have hrefs : (initrdBoot entries room).refs = Function.update (vfsBoot entries room).refs 6 (some 2) :=
    refs_setVnode 6 _
  refine ⟨fun a n hn => ?_, fun a ha => ?_⟩
  · rw [hrefs] at hn
    by_cases ha : a = 6
    · subst ha
      rw [Function.update_self] at hn
      cases hn
      decide
    · rw [Function.update_of_ne ha] at hn
      obtain ⟨v, hv, rfl⟩ := Option.map_eq_some_iff.mp hn
      rw [(vfsBoot_refcount hv).1]
  · have hge : 8 ≤ a := ha
    rw [hrefs, Function.update_of_ne (by omega)]
    cases hv : (vfsBoot entries room).vnodes a with
    | none => simp [Vfs.refs, hv]
    | some v =>
        have := (vfsBoot_refcount hv).2
        omega

/-! ## Every run balances

For any path, any flags and any state in which references are right.
-/

open Owes in
/-- **Path resolution balances references.** What `vfs_lookup` and `vfs_lookup_parent` return has one reference more
    than before, and no other vnode has; after an error none has. `vfs_open` leaves one on the vnode of the file, and
    the directory keeps one on what was created; vnodes that were made on the way are gone. -/
theorem path_references_balanced (ops : FsOps) (hops : ops.HandOver) (s : Vfs) (hs : s.WellCounted) :
    (∀ start path res s', s.vfsLookup start path ops.lookup = some (res, s') → Owes s s' (Refs.outcome [] res)) ∧
    (∀ start cwd path res s', s.vfsLookupParent start cwd path ops.lookup = some (res, s') →
      Owes s s' (parentHeld res)) ∧
    (∀ cwd path flags mode res s', s.vfsOpen ops cwd path flags mode = some (res, s') →
      Owes s s' (opened res ++ created s ops cwd path flags mode) ∧
        ∀ a ∈ created s ops cwd path flags mode, s.refs a = none) := by
  refine ⟨fun start path res s' hl => ?_, fun start cwd path res s' hl => ?_, fun cwd path flags mode res s' ho => ?_⟩
  · exact (Owes.refl hs).vfsLookup hops hs hl
  · have hstep := (Owes.refl hs).vfsLookupParent hops hs hl
    rwa [List.append_nil] at hstep
  · obtain ⟨⟨r, t⟩, hnode, ho⟩ := Option.bind_eq_some_iff.mp ho
    obtain ⟨hstep, hnew⟩ := Owes.openNode hops hs hnode
    cases r with
    | error e =>
        cases ho
        exact ⟨hstep, hnew⟩
    | ok vn => exact ⟨hstep.openFile hops hs ho, hnew⟩

/-- An archive with a directory and a file in it. -/
def binSh : List InitrdEntry :=
  [⟨['b', 'i', 'n'], true, ⟨dirMode, 0, 0, 0, 2, 1⟩, 0, 112⟩,
    ⟨['b', 'i', 'n', '/', 's', 'h'], false, ⟨0o100755, 0, 0, 512, 1, 2⟩, 0, 232⟩]

/-- Opening `/bin/sh` makes two vnodes; the one of the directory is gone afterwards. -/
theorem path_references_balanced_open :
    ∃ f s', (initrdBoot binSh 5).vfsOpen srcOps none ['/', 'b', 'i', 'n', '/', 's', 'h'] 0 0 = some (.ok f, s') ∧
      f.vnode = 9 ∧ Owes (initrdBoot binSh 5) s' [9] := by
  obtain ⟨f, s', ho, hf⟩ : ∃ f s', (initrdBoot binSh 5).vfsOpen srcOps none ['/', 'b', 'i', 'n', '/', 's', 'h'] 0 0 =
      some (.ok f, s') ∧ f.vnode = 9 := ⟨_, _, rfl, rfl⟩
  obtain ⟨-, -, hopen⟩ :=
    path_references_balanced srcOps srcOps_handOver (initrdBoot binSh 5) (initrdBoot_wellCounted binSh 5)
  obtain ⟨howes, -⟩ := hopen _ _ _ _ _ _ ho
  refine ⟨f, s', ho, hf, ?_⟩
  have hnone : Owes.created (initrdBoot binSh 5) srcOps none ['/', 'b', 'i', 'n', '/', 's', 'h'] 0 0 = [] := rfl
  rwa [hnone, Owes.opened, hf] at howes

/-! ## What opening a file keeps

A property that references, allocations and the file systems keep is kept by `vfs_open` as a whole.
-/

/-- A property of the state that references, allocations and the operations of the file systems keep. -/
structure Kept (P : Vfs → Prop) (ops : FsOps) : Prop where
  get      : ∀ {s s' : Vfs} {a : Nat}, P s → s.get a = some s' → P s'
  put      : ∀ {s s' : Vfs} {a : Nat}, P s → s.put a = some s' → P s'
  kzalloc  : ∀ {s s' : Vfs} {a : Nat}, P s → s.kzalloc = some (a, s') → P s'
  lookup   : ∀ {s s' : Vfs} {dir : Nat} {name : Path} {res : Except Errno Nat}, P s →
    ops.lookup s dir name = some (res, s') → P s'
  create   : ∀ {k f} {s s' : Vfs} {dir : Nat} {name : Path} {mode : Nat} {res : Except Errno Nat},
    ops.create k = some f → P s → f s dir name mode = some (res, s') → P s'
  openVn   : ∀ {k f} {s s' : Vfs} {vn flags mode : Nat} {res : Except Errno Unit}, ops.openVn k = some f → P s →
    f s vn flags mode = some (res, s') → P s'
  truncate : ∀ {k f} {s s' : Vfs} {vn size : Nat}, ops.truncate k = some f → P s → f s vn size = some s' → P s'

namespace Kept

variable {P : Vfs → Prop} {ops : FsOps} {s s' : Vfs} {cwd start : Option Nat} {path : Path} {flags mode vn : Nat}

theorem accounted (hP : Kept P ops) : Accounted (fun s _ => P s) ops where
  balanced := ⟨hP.get, hP.put, id, hP.lookup⟩
  kzalloc  := hP.kzalloc
  openVn   := hP.openVn
  truncate := hP.truncate

theorem vfsLookup {res : Except Errno Nat} (hP : Kept P ops) (h : P s)
    (hl : s.vfsLookup start path ops.lookup = some (res, s')) : P s' :=
  @Balanced.vfsLookup _ _ _ _ [] _ _ _ hP.accounted.balanced h hl

theorem vfsLookupParent {res : Except Errno (Option Nat × Path)} (hP : Kept P ops) (h : P s)
    (hl : s.vfsLookupParent start cwd path ops.lookup = some (res, s')) : P s' :=
  @Accounted.vfsLookupParent _ _ _ _ [] _ _ _ _ hP.accounted h hl

theorem createNode {res : Except Errno Nat} (hP : Kept P ops) (h : P s)
    (hc : s.createNode ops cwd path mode = some (res, s')) : P s' := by
  obtain ⟨⟨r, t⟩, hparent, hc⟩ := Option.bind_eq_some_iff.mp hc
  have ht := hP.vfsLookupParent h hparent
  cases r with
  | error e =>
      cases hc
      exact ht
  | ok found =>
      obtain ⟨p, -, hc⟩ := Option.bind_eq_some_iff.mp hc
      obtain ⟨v, -, hc⟩ := Option.bind_eq_some_iff.mp hc
      cases hop : ops.create v.data.ops with
      | none =>
          rw [hop] at hc
          obtain ⟨t', hput, hc⟩ := Option.bind_eq_some_iff.mp hc
          cases hc
          exact hP.put ht hput
      | some f =>
          rw [hop] at hc
          obtain ⟨⟨r', t'⟩, hcreate, hc⟩ := Option.bind_eq_some_iff.mp hc
          obtain ⟨t'', hput, hc⟩ := Option.bind_eq_some_iff.mp hc
          cases hc
          exact hP.put (hP.create hop ht hcreate) hput

theorem openNode {res : Except Errno Nat} (hP : Kept P ops) (h : P s)
    (ho : s.openNode ops cwd path flags mode = some (res, s')) : P s' := by
  obtain ⟨⟨r, t⟩, hlookup, ho⟩ := Option.bind_eq_some_iff.mp ho
  have ht := hP.vfsLookup h hlookup
  cases r with
  | ok a =>
      simp only at ho
      split at ho
      · obtain ⟨t', hput, ho⟩ := Option.bind_eq_some_iff.mp ho
        cases ho
        exact hP.put ht hput
      · cases ho
        exact ht
  | error e =>
      simp only at ho
      split at ho
      · exact hP.createNode ht ho
      · cases ho
        exact ht

theorem openFile {res : Except Errno File} (hP : Kept P ops) (h : P s)
    (ho : s.openFile ops vn flags mode = some (res, s')) : P s' :=
  @Accounted.openFile _ _ _ _ [] _ _ _ _ hP.accounted h ho

/-- `vfs_open` keeps what its parts keep. -/
theorem vfsOpen {res : Except Errno File} (hP : Kept P ops) (h : P s)
    (ho : s.vfsOpen ops cwd path flags mode = some (res, s')) : P s' := by
  obtain ⟨⟨r, t⟩, hnode, ho⟩ := Option.bind_eq_some_iff.mp ho
  have ht := hP.openNode h hnode
  cases r with
  | error e =>
      cases ho
      exact ht
  | ok vn => exact hP.openFile ht ho

end Kept

end MyUnix.Fs
