import Mathlib.Algebra.Group.Nat.Defs
import Mathlib.Logic.Function.Basic
import MyUnix.Kernel.Errno

/-!
# `Fs.Vfs` — vnodes, path resolution and mounts

`vfs.c` with the directory operations of its three file systems: `initrd`, a list of archive entries, and `tmpfs`
and `devfs`, trees of nodes (`tmpfs_devfs.c`).

A vnode is an object with a number of its own. Numbers are not used again: memory that was freed and allocated
again is a new object. `room` is how many more objects `kzalloc` can provide, and `headed` the ones in front of which
`kfree` finds its header: a block from a slab cache has none, and `kfree` panics on it (`Heap.kfree_returns`). A panic,
an access to a vnode that was freed, or to a node that does not exist, is `none`.

The walk is written once, over what `ops->lookup` of the three file systems does, and takes and gives back references
as the source does: the directory is let go of after its child was found. A mount point is crossed once for each
component, so of two mounts on top of each other only the first is passed.

Whether `vnode_put` returns depends on the block of its vnode, which is why `put` is a partial function here. The
modules above use `drop` where it does.
-/

namespace MyUnix.Fs

/-- A path, as the characters before its NUL. -/
abbrev Path := List Char

/-- The component `.`. -/
def dot : Path := ['.']

/-- The component `..`. -/
def dotDot : Path := ['.', '.']

/-- The error numbers of path resolution, mounting and opening. -/
inductive Errno where
  | noEnt
  | noMem
  | noDev
  | notDir
  | inval
  | nameTooLong
  | access
  | exist
  | io
  | isDir
  | noSpc
  | notEmpty
  deriving DecidableEq, Repr

/-- The registered file systems, by name. -/
inductive FsType where
  | initrd
  | devfs
  | tmpfs
  deriving DecidableEq, Repr

/-- A table of vnode operations: `g_initrd_vnode_ops`, `g_tmpfs_vnode_ops`, or one of the device tables, which have
    no `lookup`. -/
inductive VnodeOps where
  | initrd
  | tmpfs
  | device
  deriving DecidableEq, Repr

/-- Whether the vnode has a `lookup`. -/
def VnodeOps.hasLookup : VnodeOps → Bool
  | .device => false
  | _       => true

/-- `vnode_type_t`, as far as it is looked at. -/
inductive VnodeType where
  | dir
  | reg
  | chr
  deriving DecidableEq, Repr

/-- `mount_t`. -/
structure Mount where
  fs      : FsType
  root    : Nat
  mountPt : Option Nat
  path    : Path
  deriving DecidableEq, Repr

/-- What `stat` shows of a vnode. -/
structure VnodeAttr where
  mode  : Nat
  uid   : Nat
  gid   : Nat
  size  : Nat
  nlink : Nat
  ino   : Nat
  deriving DecidableEq, Repr

/-- `S_IFDIR | 0755`. -/
def dirMode : Nat := 0o40755

/-- A vnode, except for its reference count. `priv` is the `private` pointer, to an archive entry or a tree node. -/
structure VnodeData where
  type    : VnodeType
  ops     : VnodeOps
  priv    : Option Nat
  mount   : Option Mount
  covered : Option Nat
  attr    : VnodeAttr
  deriving DecidableEq, Repr

/-- `vnode_t`. -/
structure Vnode where
  data     : VnodeData
  refcount : Int
  deriving DecidableEq, Repr

/-- An entry of the archive. `data` is where its bytes begin, from the base of the archive. -/
structure InitrdEntry where
  name  : Path
  isDir : Bool
  attr  : VnodeAttr
  mtime : Nat
  data  : Nat
  deriving DecidableEq, Repr

/-- `tmpfs_node_t`. -/
structure TmpfsNode where
  name     : Path
  parent   : Option Nat
  children : List Nat
  vn       : Nat
  deriving DecidableEq, Repr

/-- The vnodes, the nodes of tmpfs, the mounts and the heap. -/
structure Vfs where
  vnodes     : Nat → Option Vnode
  nodes      : Nat → Option TmpfsNode
  entries    : List InitrdEntry
  initrdRoot : Nat
  devfsRoot  : Nat
  rootVn     : Option Nat
  mounts     : List Mount
  registered : List FsType
  next       : Nat
  room       : Nat
  headed     : Nat → Bool

namespace Vfs

variable (s : Vfs)

/-! ## Vnodes and their references

The table of vnodes, and what allocating and releasing does to it.
-/

/-- The vnode at `a` is set, or freed. -/
def setVnode (a : Nat) (v : Option Vnode) : Vfs := { s with vnodes := Function.update s.vnodes a v }

/-- `vnode_get`. -/
def get (a : Nat) : Option Vfs := do
  let v ← s.vnodes a
  pure (s.setVnode a (some ⟨v.data, v.refcount + 1⟩))

/-- `vnode_put` where `kfree` is taken to return: the last reference frees the vnode. -/
def drop (a : Nat) : Option Vfs := do
  let v ← s.vnodes a
  pure (s.setVnode a (if v.refcount = 1 then none else some ⟨v.data, v.refcount - 1⟩))

/-- `vnode_put`. -/
def put (a : Nat) : Option Vfs := do
  let v ← s.vnodes a
  if v.refcount = 1 ∧ s.headed a = false then none else s.drop a

/-- `kzalloc` of a vnode or a node: a new address, as long as there is room. -/
def kzalloc : Option (Nat × Vfs) :=
  if s.room = 0 then none else some (s.next, { s with next := s.next + 1, room := s.room - 1 })

/-- `vnode_alloc`, with the fields its callers fill in. -/
def vnodeAlloc (d : VnodeData) : Option (Nat × Vfs) :=
  match s.kzalloc with
  | none        => none
  | some (a, s) => some (a, s.setVnode a (some ⟨d, 1⟩))

/-! ## The `lookup` operations

A new vnode for each lookup in the archive; the vnode of the node in a tree.
-/

/-- Whether an archive entry is `name`, or lies below it, in the directory with the given prefix. -/
def initrdMatches (pre name : Path) (ep : Path) : Bool :=
  if pre = [] ∨ pre = dot then
    ('/' ∉ ep ∧ ep = name) ∨ ('/' ∈ ep ∧ ep.takeWhile (· ≠ '/') = name)
  else
    (pre ++ ['/']).isPrefixOf ep ∧
      (ep.drop (pre.length + 1) = name ∨
        ('/' ∈ ep.drop (pre.length + 1) ∧ (ep.drop (pre.length + 1)).takeWhile (· ≠ '/') = name))

/-- The prefix of the entries in a directory: empty for the root, which has no entry. -/
def initrdPrefix (priv : Option Nat) : Path :=
  match priv with
  | none   => []
  | some i => ((s.entries[i]?).map InitrdEntry.name).getD []

/-- The vnode of the entry `i`. -/
def initrdVnode (entries : List InitrdEntry) (i : Nat) : VnodeData :=
  { type := if ((entries[i]?).map InitrdEntry.isDir).getD false then .dir else .reg
    ops := .initrd
    priv := some i
    mount := none
    covered := none
    attr := ((entries[i]?).map InitrdEntry.attr).getD ⟨0, 0, 0, 0, 0, 0⟩ }

/-- `initrd_vn_lookup`: a new vnode for the first entry that matches. -/
def initrdLookup (priv : Option Nat) (name : Path) : Except Errno Nat × Vfs :=
  match s.entries.findIdx? fun e => initrdMatches (s.initrdPrefix priv) name e.name with
  | none   => (.error .noEnt, s)
  | some i =>
      match s.vnodeAlloc (initrdVnode s.entries i) with
      | none        => (.error .noMem, s)
      | some (a, s) => (.ok a, s)

/-- `tmpfs_find_child`: the first child of that name. -/
def tmpfsFindChild (parent : TmpfsNode) (name : Path) : Option Nat :=
  parent.children.find? fun c => (s.nodes c).any fun n => n.name = name

/-- The vnode of the parent directory; the root is its own. -/
def tmpfsParentVn (dir : Nat) (node : TmpfsNode) : Option Nat :=
  match node.parent with
  | none   => some dir
  | some m => (s.nodes m).map TmpfsNode.vn

/-- `tmpfs_lookup`: the vnode that the node of the child has. -/
def tmpfsLookup (dir : Nat) (priv : Option Nat) (name : Path) : Option (Except Errno Nat × Vfs) :=
  match priv with
  | none   => some (.error .inval, s)
  | some n => do
      let parent ← s.nodes n
      if name = dotDot then do
        let pv ← s.tmpfsParentVn dir parent
        let s ← s.get pv
        pure (.ok pv, s)
      else if name = dot then do
        let s ← s.get dir
        pure (.ok dir, s)
      else
        match s.tmpfsFindChild parent name with
        | none   => pure (.error .noEnt, s)
        | some c => do
            let child ← s.nodes c
            let s ← s.get child.vn
            pure (.ok child.vn, s)

/-- What `ops->lookup` does with a directory and a name. -/
abbrev LookupOp := Vfs → Nat → Path → Option (Except Errno Nat × Vfs)

/-- `ops->lookup` of the file systems here, where the vnode has one. -/
def opsLookup (dir : Nat) (name : Path) : Option (Except Errno Nat × Vfs) := do
  let v ← s.vnodes dir
  match v.data.ops with
  | .initrd => pure (s.initrdLookup v.data.priv name)
  | .tmpfs  => s.tmpfsLookup dir v.data.priv name
  | .device => none

/-! ## Path resolution

One round for each component, with a reference held by the walk.
-/

/-- The components of a path: what lies between slashes, without the empty ones. `acc` is the beginning of the
    component that is being read. -/
def componentsFrom : Path → Path → List Path
  | acc, []      => if acc = [] then [] else [acc]
  | acc, c :: cs =>
    if c = '/' then
      if acc = [] then componentsFrom [] cs else acc :: componentsFrom [] cs
    else componentsFrom (acc ++ [c]) cs

/-- The components of a path, without empty ones. -/
def components (path : Path) : List Path := componentsFrom [] path

/-- On a mount point, go on to the root of what is mounted there. -/
def cross (cur : Nat) : Option (Nat × Vfs) := do
  let v ← s.vnodes cur
  match v.data.mount with
  | none    => pure (cur, s)
  | some mp => do
      let s ← s.put cur
      let s ← s.get mp.root
      pure (mp.root, s)

/-- Call `ops->lookup` and let go of the directory. -/
def enter (cur : Nat) (name : Path) (lookup : LookupOp := opsLookup) : Option (Except Errno Nat × Vfs) := do
  let (r, s) ← lookup s cur name
  let s ← s.put cur
  pure (r, s)

/-- One round of the loop of `vfs_lookup`. -/
def component (cur : Nat) (c : Path) (lookup : LookupOp := opsLookup) : Option (Except Errno Nat × Vfs) :=
  if nameMax < c.length then do
    let s ← s.put cur
    pure (.error .nameTooLong, s)
  else do
    -- one mount on top of the vnode is crossed, for any component
    let (cur, s) ← s.cross cur
    let v ← s.vnodes cur
    if c = dot then pure (.ok cur, s)
    else if c = dotDot then
      match v.data.covered with
      -- out of the root of a mount: to the vnode that it covers, not to the parent of that
      | some parent => do
          let s ← s.put cur
          let s ← s.get parent
          pure (.ok parent, s)
      | none => if v.data.ops.hasLookup then s.enter cur c lookup else pure (.ok cur, s)
    else if v.data.ops.hasLookup then s.enter cur c lookup
    else do
      let s ← s.put cur
      pure (.error .notDir, s)

/-- The loop over the components, from the vnode `cur` on. -/
def walk (cs : List Path) (cur : Nat) (s : Vfs) (lookup : LookupOp := opsLookup) : Option (Except Errno Nat × Vfs) :=
  match cs with
  | []      => do
      let (cur, s) ← s.cross cur
      pure (.ok cur, s)
  | c :: cs => do
      match ← s.component cur c lookup with
      | (.ok cur, s)  => walk cs cur s lookup
      | (.error e, s) => pure (.error e, s)

/-- `vfs_lookup`. An absolute path starts at `g_root_vnode`. -/
def vfsLookup (start : Option Nat) (path : Path) (lookup : LookupOp := opsLookup) : Option (Except Errno Nat × Vfs) :=
  match (if path.head? = some '/' then s.rootVn else start) with
  | none     => some (.error .noEnt, s)
  | some cur => do
      let s ← s.get cur
      walk (components path) cur s lookup

/-! ## Mounting

The root of the new file system, and the two ways to put it in place.
-/

/-- `fs->get_root`. The roots of `initrd` and `devfs` exist from the start; every mount of a `tmpfs` makes one. -/
def getRoot : FsType → Option (Except Errno Nat × Vfs)
  | .initrd => do
      let s ← s.get s.initrdRoot
      pure (.ok s.initrdRoot, s)
  | .devfs  => do
      let s ← s.get s.devfsRoot
      pure (.ok s.devfsRoot, s)
  | .tmpfs  =>
      match s.kzalloc with
      | none        => some (.error .noMem, s)
      | some (n, s) =>
          match s.vnodeAlloc ⟨.dir, .tmpfs, some n, none, none, ⟨dirMode, 0, 0, 0, 2, 1⟩⟩ with
          | none        => some (.error .noMem, s)
          | some (a, s) => some (.ok a, { s with nodes := Function.update s.nodes n (some ⟨['/'], none, [], a⟩) })

/-- The mount point of the vnode at `a` becomes `mp`. -/
def setMount (a : Nat) (mp : Mount) : Option Vfs := do
  let v ← s.vnodes a
  pure (s.setVnode a (some ⟨{ v.data with mount := some mp }, v.refcount⟩))

/-- The vnode at `a` covers the vnode `vn`. -/
def setCovered (a vn : Nat) : Option Vfs := do
  let v ← s.vnodes a
  pure (s.setVnode a (some ⟨{ v.data with covered := some vn }, v.refcount⟩))

/-- `vfs_mount`. -/
def vfsMount (path : Path) (fstype : FsType) : Option (Except Errno Unit × Vfs) :=
  if fstype ∉ s.registered then some (.error .noDev, s)
  else
    match s.kzalloc with
    | none        => some (.error .noMem, s)
    -- the `mount_t` is had; which block it is, and that a failure gives it back, does not matter here
    | some (_, s) => do
        match ← s.getRoot fstype with
        | (.error e, s) => pure (.error e, s)
        | (.ok root, s) =>
            if path = ['/'] then
              -- the root of all is replaced, and nothing is covered
              let mp : Mount := ⟨fstype, root, none, path.take (pathMax - 1)⟩
              pure (.ok (), { s with rootVn := some root, mounts := s.mounts ++ [mp] })
            else do
              match ← s.vfsLookup s.rootVn path with
              | (.error e, s) => do
                  let s ← s.put root
                  pure (.error e, s)
              | (.ok vn, s) => do
                  -- the reference of the lookup stays with the mount
                  let mp : Mount := ⟨fstype, root, some vn, path.take (pathMax - 1)⟩
                  let s ← s.setMount vn mp
                  let s ← s.setCovered root vn
                  pure (.ok (), { s with mounts := s.mounts ++ [mp] })

end Vfs

end MyUnix.Fs
