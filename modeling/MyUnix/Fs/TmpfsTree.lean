import MyUnix.Fs.VfsOpen

/-!
# `Fs.TmpfsTree` — the directories of `tmpfs` as finite maps

`tmpfs_create`, `tmpfs_mkdir`, `tmpfs_unlink`, `tmpfs_lookup` and the two steps of a mount, over the nodes and vnodes
of `Fs.Vfs`. What a directory is for is `entry`: a map from names to nodes.

Two things stand between the code and that. `tmpfs_create` and `tmpfs_mkdir` look for the file system in a static
pointer that nothing sets, so they refuse every name that is not there. And all mounts share `g_tmpfs_inst`, whose
root, still the one of the mount before, `tmpfs_mount_fn` empties. `Fine` is the condition that keeps clear of both;
`TreeInv` is what every step that is fine keeps.

The abstract side knows directories as maps from names to nodes, and says of each call what it does to them and what
it answers. The code agrees on lookups and removals always, on creations if the name exists already, and on mounts if
the root of the mount before has no names.

The invariant says that the nodes make up trees: a child has its parent, no two children of a node have one name, and
the list of the children is finite. That is what makes a node a map.
-/

namespace MyUnix.Fs

/-- `nlink--` on an `nlink_t`. -/
def VnodeAttr.dropNlink (attr : VnodeAttr) : VnodeAttr :=
  { attr with nlink := if attr.nlink = 0 then 2 ^ 64 - 1 else attr.nlink - 1 }

/-- `list_del(&child->sibling)`: the parent without the child. -/
def TmpfsNode.listDel (p : TmpfsNode) (c : Nat) : TmpfsNode := { p with children := p.children.erase c }

namespace Vfs

variable (s : Vfs)

/-- The node of the number `n` is set, or freed. -/
def setNode (n : Nat) (p : Option TmpfsNode) : Vfs := { s with nodes := Function.update s.nodes n p }

/-- `tmpfs_mkdir`. It has a static pointer of its own, which is not set either. -/
def tmpfsMkdir (dir : Nat) (name : Path) : Option (Except Errno Unit × Vfs) := do
  let v ← s.vnodes dir
  match v.data.priv with
  | none   => pure (.error .inval, s)
  | some n => do
      let parent ← s.nodes n
      match s.tmpfsFindChild parent name with
      | some _ => pure (.error .exist, s)
      | none   => pure (.error .io, s)

/-- `dir->nlink--`. -/
def dropNlink (dir : Nat) : Option Vfs := do
  let v ← s.vnodes dir
  pure (s.setVnode dir (some ⟨{ v.data with attr := v.data.attr.dropNlink }, v.refcount⟩))

/-- `tmpfs_unlink`. The node is freed whatever references its vnode still has. The two calls of `kfree`, behind all
    changes of the directory, are taken to return. -/
def tmpfsUnlink (dir : Nat) (name : Path) : Option (Except Errno Unit × Vfs) := do
  let v ← s.vnodes dir
  match v.data.priv with
  | none   => pure (.error .inval, s)
  | some n => do
      let parent ← s.nodes n
      match s.tmpfsFindChild parent name with
      | none   => pure (.error .noEnt, s)
      | some c => do
          let child ← s.nodes c
          let w ← s.vnodes child.vn
          if w.data.type = .dir ∧ child.children ≠ [] then pure (.error .notEmpty, s)
          else do
            -- `list_del`, `nlink--`, the reference of the tree, and then the node itself
            let s := s.setNode n (some (parent.listDel c))
            let s ← s.dropNlink dir
            let s ← s.drop child.vn
            pure (.ok (), s.setNode c none)

/-! ## What a directory shows

The map is read off the nodes, and an operation is described by how the maps change.
-/

/-- The type of a vnode and the node it belongs to. -/
def kind (a : Nat) : Option (VnodeType × Option Nat) := (s.vnodes a).map fun v => (v.data.type, v.data.priv)

/-- The map from names to nodes that a node stands for. -/
def entry (n : Nat) (name : Path) : Option Nat := (s.nodes n).bind fun p => s.tmpfsFindChild p name

/-- `dir` is the vnode of the directory with node `n`. -/
def DirOf (dir n : Nat) : Prop := s.kind dir = some (.dir, some n) ∧ ∃ p, s.nodes n = some p ∧ p.vn = dir

/-- A directory with a name in it. -/
def FullDir (c : Nat) : Prop := ∃ a name, s.DirOf a c ∧ s.entry c name ≠ none

/-- The directory maps are `d` now, and every directory but `gone` is still one. -/
structure Becomes (s' : Vfs) (d : Nat → Path → Option Nat) (gone : Option Nat) : Prop where
  entry : s'.entry = d
  dirs  : ∀ a n, s.DirOf a n → some n ≠ gone → s'.DirOf a n

end Vfs

/-- A name of one directory bound, or unbound. -/
def bindName (d : Nat → Path → Option Nat) (n : Nat) (name : Path) (c : Option Nat) : Nat → Path → Option Nat :=
  Function.update d n (Function.update (d n) name c)

/-- The vnodes and nodes, and `g_tmpfs_inst.root`. -/
structure TmpfsSys where
  vfs  : Vfs
  root : Option Nat

namespace TmpfsSys

variable (sys : TmpfsSys)

/-- `tmpfs_mount_fn`. Before the first mount the root is `NULL`, and what is written is low memory. -/
def tmpfsMountFn : Option TmpfsSys :=
  match sys.root with
  | none   => some sys
  | some r => do
      let p ← sys.vfs.nodes r
      pure { sys with vfs := sys.vfs.setNode r (some { p with children := [] }) }

/-- `tmpfs_get_root`. The new node is the root from its allocation on. -/
def tmpfsGetRoot : Option (Except Errno Nat × TmpfsSys) := do
  let (r, vfs) ← sys.vfs.getRoot .tmpfs
  pure (r, ⟨vfs, if sys.vfs.room = 0 then sys.root else some sys.vfs.next⟩)

end TmpfsSys

/-! ## Sequences of operations

The code, the maps, and when the two agree.
-/

/-- A call on the tree of tmpfs. -/
inductive TreeOp where
  | mount
  | create (dir : Nat) (name : Path)
  | mkdir (dir : Nat) (name : Path)
  | unlink (dir : Nat) (name : Path)
  | lookup (dir : Nat) (name : Path)
  deriving DecidableEq, Repr

/-- An error, or success and the vnode that is handed out. -/
abbrev Outcome := Except Errno (Option Nat)

namespace TreeOp

/-- What the code does. -/
def step (sys : TmpfsSys) : TreeOp → Option (Outcome × TmpfsSys)
  | mount           => do
      let sys ← sys.tmpfsMountFn
      let (r, sys) ← sys.tmpfsGetRoot
      pure (r.map some, sys)
  | create dir name => do
      let (r, vfs) ← sys.vfs.tmpfsCreate dir name
      pure (r.map some, { sys with vfs })
  | mkdir dir name  => do
      let (r, vfs) ← sys.vfs.tmpfsMkdir dir name
      pure (r.map fun _ => none, { sys with vfs })
  | unlink dir name => do
      let (r, vfs) ← sys.vfs.tmpfsUnlink dir name
      pure (r.map fun _ => none, { sys with vfs })
  | lookup dir name => do
      let v ← sys.vfs.vnodes dir
      let (r, vfs) ← sys.vfs.tmpfsLookup dir v.data.priv name
      pure (r.map some, { sys with vfs })

/-- The operation is on a directory with a name of `1` to `NAME_MAX` bytes; a mount finds memory for its root. -/
def Allowed (sys : TmpfsSys) : TreeOp → Prop
  | mount                                                                  => 2 ≤ sys.vfs.room
  | create dir name | mkdir dir name | unlink dir name | lookup dir name =>
      (∃ n, sys.vfs.DirOf dir n) ∧ name ≠ [] ∧ name.length ≤ nameMax

/-- What a lookup finds: the bound node's vnode, or the directory or its parent. -/
def found (s : Vfs) (dir n : Nat) (name : Path) : Outcome :=
  if name = dotDot then .ok ((s.nodes n).bind (s.tmpfsParentVn dir))
  else if name = dot then .ok (some dir)
  else
    match s.entry n name with
    | none   => .error .noEnt
    | some c => .ok ((s.nodes c).map TmpfsNode.vn)

/-- What the operation does to the maps, and what it answers. -/
def AsMap (sys : TmpfsSys) (op : TreeOp) (out : Outcome × TmpfsSys) : Prop :=
  let s := sys.vfs
  let s' := out.2.vfs
  match op with
  | mount           =>
      (∃ n a, out.1 = .ok (some a) ∧ s.nodes n = none ∧ s'.DirOf a n) ∧ s.Becomes s' s.entry none
  | create dir name =>
      ∀ n, s.DirOf dir n →
        match s.entry n name with
        | some _ => out.1 = .error .exist ∧ s.Becomes s' s.entry none
        | none   =>
            ∃ c a, out.1 = .ok (some a) ∧ s.nodes c = none ∧ s'.kind a = some (.reg, some c) ∧
              s.Becomes s' (bindName s.entry n name (some c)) none
  | mkdir dir name  =>
      ∀ n, s.DirOf dir n →
        match s.entry n name with
        | some _ => out.1 = .error .exist ∧ s.Becomes s' s.entry none
        | none   =>
            ∃ c a, out.1 = .ok none ∧ s.nodes c = none ∧ s'.DirOf a c ∧
              s.Becomes s' (bindName s.entry n name (some c)) none
  | unlink dir name =>
      ∀ n, s.DirOf dir n →
        match s.entry n name with
        | none   => out.1 = .error .noEnt ∧ s.Becomes s' s.entry none
        | some c =>
            (s.FullDir c → out.1 = .error .notEmpty ∧ s.Becomes s' s.entry none) ∧
              (¬ s.FullDir c → out.1 = .ok none ∧ s.Becomes s' (bindName s.entry n name none) (some c))
  | lookup dir name =>
      ∀ n, s.DirOf dir n → out.1 = found s dir n name ∧ s.Becomes s' s.entry none

/-- A new file or directory takes the name of one that exists, and a mount finds the root before it empty. -/
def Fine (sys : TmpfsSys) : TreeOp → Prop
  | mount                           => ∀ r, sys.root = some r → ∀ name, sys.vfs.entry r name = none
  | create dir name | mkdir dir name => ∀ n, sys.vfs.DirOf dir n → sys.vfs.entry n name ≠ none
  | unlink _ _ | lookup _ _          => True

end TreeOp

/-- Every operation of a sequence does to the maps what it is for. -/
def RunAsMap (sys : TmpfsSys) : List TreeOp → Prop
  | []        => True
  | op :: ops => op.Allowed sys → ∃ out, op.step sys = some out ∧ op.AsMap sys out ∧ RunAsMap out.2 ops

/-- Every step of the run is fine in the state in which it is made. -/
def RunFine (sys : TmpfsSys) : List TreeOp → Prop
  | []        => True
  | op :: ops => op.Allowed sys → op.Fine sys ∧ ∀ out, op.step sys = some out → RunFine out.2 ops

/-! ## The invariant

What keeps the children of a node a map.
-/

/-- The nodes make up trees: the children of a node have it as their parent and no two of them one name, and every
    node has a vnode that leads back to it. -/
structure TreeInv (sys : TmpfsSys) : Prop where
  vn     : ∀ n p, sys.vfs.nodes n = some p → ∃ t, sys.vfs.kind p.vn = some (t, some n)
  child  : ∀ n p c, sys.vfs.nodes n = some p → c ∈ p.children → ∃ q, sys.vfs.nodes c = some q ∧ q.parent = some n
  parent : ∀ c q n, sys.vfs.nodes c = some q → q.parent = some n → ∃ p, sys.vfs.nodes n = some p ∧ c ∈ p.children
  older  : ∀ c q n, sys.vfs.nodes c = some q → q.parent = some n → n < c
  names  : ∀ n p c c' q q', sys.vfs.nodes n = some p → c ∈ p.children → c' ∈ p.children →
    sys.vfs.nodes c = some q → sys.vfs.nodes c' = some q' → q.name = q'.name → c = c'
  nodup  : ∀ n p, sys.vfs.nodes n = some p → p.children.Nodup
  leaf   : ∀ n p t, sys.vfs.nodes n = some p → sys.vfs.kind p.vn = some (t, some n) → t ≠ .dir → p.children = []
  fresh  : ∀ n, sys.vfs.next ≤ n → sys.vfs.nodes n = none ∧ sys.vfs.vnodes n = none
  root   : ∀ r, sys.root = some r → ∃ p, sys.vfs.nodes r = some p ∧ p.parent = none

namespace Vfs

variable {s s' : Vfs} {a b c dir n : Nat} {name : Path}

theorem kind_setVnode (v : Option Vnode) :
    (s.setVnode a v).kind = Function.update s.kind a (v.map fun v => (v.data.type, v.data.priv)) := by
  funext b
  by_cases hb : b = a
  · subst hb
    simp [kind, setVnode]
  · simp [kind, setVnode, hb]

theorem get_kind (h : s.get a = some s') : s'.kind = s.kind ∧ s'.nodes = s.nodes ∧ s'.next = s.next := by
  obtain ⟨v, hv, h⟩ := Option.bind_eq_some_iff.mp h
  cases h
  refine ⟨?_, rfl, rfl⟩
  rw [kind_setVnode]
  exact Function.update_eq_self_iff.mpr (by simp [kind, hv])

theorem drop_kind (h : s.drop a = some s') :
    (∀ b, b ≠ a → s'.kind b = s.kind b) ∧ s'.nodes = s.nodes ∧ s'.next = s.next := by
  obtain ⟨v, _, h⟩ := Option.bind_eq_some_iff.mp h
  cases h
  refine ⟨fun b hb => ?_, rfl, rfl⟩
  rw [kind_setVnode]
  exact Function.update_of_ne hb _ _

theorem dropNlink_kind (h : s.dropNlink a = some s') :
    s'.kind = s.kind ∧ s'.nodes = s.nodes ∧ s'.next = s.next := by
  obtain ⟨v, hv, h⟩ := Option.bind_eq_some_iff.mp h
  obtain rfl := Option.some.inj h
  refine ⟨?_, rfl, rfl⟩
  rw [kind_setVnode, Option.map_some]
  exact Function.update_eq_self_iff.mpr (by rw [kind, hv, Option.map_some])

/-- The maps are made up from the nodes alone. -/
theorem entry_congr (h : s'.nodes = s.nodes) : s'.entry = s.entry := by
  funext n name
  simp only [entry, tmpfsFindChild, h]

theorem Becomes.of_same (hk : s'.kind = s.kind) (hn : s'.nodes = s.nodes) : s.Becomes s' s.entry none := by
  refine ⟨entry_congr hn, ?_⟩
  rintro a n ⟨hdir, p, hp, hvn⟩ _
  exact ⟨hk ▸ hdir, p, hn ▸ hp, hvn⟩

theorem DirOf.unique {m : Nat} (h : s.DirOf dir n) (h' : s.DirOf dir m) : m = n := by
  have heq := h'.1.symm.trans h.1
  simpa using heq

end Vfs

namespace TreeInv

variable {sys : TmpfsSys} {s' : Vfs} {c dir n : Nat} {name : Path}

/-- The invariant is about the nodes and about what kind the vnodes are. -/
theorem of_same (h : TreeInv sys) (hk : s'.kind = sys.vfs.kind) (hn : s'.nodes = sys.vfs.nodes)
    (hnext : s'.next = sys.vfs.next) : TreeInv { sys with vfs := s' } where
  vn     := by simpa only [hk, hn] using h.vn
  child  := by simpa only [hn] using h.child
  parent := by simpa only [hn] using h.parent
  older  := by simpa only [hn] using h.older
  names  := by simpa only [hn] using h.names
  nodup  := by simpa only [hn] using h.nodup
  leaf   := by simpa only [hk, hn] using h.leaf
  root   := by simpa only [hn] using h.root
  fresh n hle := by
    obtain ⟨hnode, hvnode⟩ := h.fresh n (hnext ▸ hle)
    have hkind := congrFun hk n
    rw [Vfs.kind, Vfs.kind, hvnode, Option.map_none, Option.map_eq_none_iff] at hkind
    exact ⟨hn ▸ hnode, hkind⟩

/-- What a directory binds is its child of that name. -/
theorem entry_iff (h : TreeInv sys) :
    sys.vfs.entry n name = some c ↔
      ∃ p q, sys.vfs.nodes n = some p ∧ c ∈ p.children ∧ sys.vfs.nodes c = some q ∧ q.name = name := by
  constructor
  · intro he
    obtain ⟨p, hp, hfind⟩ := Option.bind_eq_some_iff.mp he
    have hmem := List.mem_of_find?_eq_some hfind
    have hname := List.find?_some hfind
    obtain ⟨q, hq, _⟩ := h.child n p c hp hmem
    rw [hq, Option.any_some, decide_eq_true_iff] at hname
    exact ⟨p, q, hp, hmem, hq, hname⟩
  · rintro ⟨p, q, hp, hmem, hq, hname⟩
    rw [Vfs.entry, hp, Option.bind_some, Vfs.tmpfsFindChild]
    have hpred : ((sys.vfs.nodes c).any fun m => m.name = name) = true := by
      rw [hq, Option.any_some, decide_eq_true_iff]
      exact hname
    have hsome : (p.children.find? fun c => (sys.vfs.nodes c).any fun m => m.name = name).isSome :=
      List.find?_isSome.mpr ⟨c, hmem, hpred⟩
    obtain ⟨c', hfind⟩ := Option.isSome_iff_exists.mp hsome
    have hmem' := List.mem_of_find?_eq_some hfind
    have hname' := List.find?_some hfind
    obtain ⟨q', hq', _⟩ := h.child n p c' hp hmem'
    rw [hq', Option.any_some, decide_eq_true_iff] at hname'
    -- two children with this name are one
    rw [hfind, h.names n p c c' q q' hp hmem hmem' hq hq' (hname.trans hname'.symm)]

theorem entry_none_iff {p : TmpfsNode} (h : TreeInv sys) (hp : sys.vfs.nodes n = some p) :
    (∀ name, sys.vfs.entry n name = none) ↔ p.children = [] := by
  constructor
  · intro hnone
    by_contra hne
    obtain ⟨c, hc⟩ := List.exists_mem_of_ne_nil _ hne
    obtain ⟨q, hq, _⟩ := h.child n p c hp hc
    have hsome := h.entry_iff.mpr ⟨p, q, hp, hc, hq, rfl⟩
    rw [hnone q.name] at hsome
    exact absurd hsome nofun
  · intro hnil name
    rw [Vfs.entry, hp, Option.bind_some, Vfs.tmpfsFindChild, hnil, List.find?_nil]

theorem fullDir_iff {q : TmpfsNode} (h : TreeInv sys) (hq : sys.vfs.nodes c = some q) :
    sys.vfs.FullDir c ↔ sys.vfs.kind q.vn = some (.dir, some c) ∧ q.children ≠ [] := by
  constructor
  · rintro ⟨a, name, ⟨hdir, q', hq', rfl⟩, hne⟩
    obtain rfl : q = q' := Option.some.inj (hq.symm.trans hq')
    exact ⟨hdir, fun hnil => hne ((h.entry_none_iff hq).mpr hnil name)⟩
  · rintro ⟨hdir, hne⟩
    have hsome := mt (h.entry_none_iff hq).mp hne
    obtain ⟨name, hname⟩ := not_forall.mp hsome
    exact ⟨q.vn, name, ⟨hdir, q, hq, rfl⟩, hname⟩

end TreeInv

/-! ## One operation

Lookups and refusals change nothing; a removal takes one name away.
-/

namespace Vfs

variable {s s' : Vfs} {a dir n : Nat} {name : Path} {p : TmpfsNode} {k : VnodeType × Option Nat}

theorem exists_get (h : s.kind a = some k) : ∃ s', s.get a = some s' := by
  obtain ⟨v, hv, _⟩ := Option.map_eq_some_iff.mp h
  exact ⟨_, by rw [get, hv]; rfl⟩

theorem exists_drop (h : s.kind a = some k) : ∃ s', s.drop a = some s' := by
  obtain ⟨v, hv, _⟩ := Option.map_eq_some_iff.mp h
  exact ⟨_, by rw [drop, hv]; rfl⟩

theorem exists_dropNlink (h : s.kind a = some k) : ∃ s', s.dropNlink a = some s' := by
  obtain ⟨v, hv, _⟩ := Option.map_eq_some_iff.mp h
  exact ⟨_, by rw [dropNlink, hv]; rfl⟩

theorem DirOf.vnode (h : s.DirOf dir n) : ∃ v, s.vnodes dir = some v ∧ v.data.type = .dir ∧ v.data.priv = some n := by
  obtain ⟨v, hv, hkind⟩ := Option.map_eq_some_iff.mp h.1
  obtain ⟨htype, hpriv⟩ := Prod.mk.inj hkind
  exact ⟨v, hv, htype, hpriv⟩

theorem entry_eq (hp : s.nodes n = some p) : s.entry n name = s.tmpfsFindChild p name := by
  rw [entry, hp, Option.bind_some]

/-- The two ways to make a node refuse every name. -/
theorem tmpfsCreate_eq (name : Path) (hd : s.DirOf dir n) :
    s.tmpfsCreate dir name = some (match s.entry n name with | some _ => .error .exist | none => .error .io, s) := by
  obtain ⟨v, hv, _, hpriv⟩ := hd.vnode
  obtain ⟨p, hp, _⟩ := hd.2
  rw [tmpfsCreate, hv, entry_eq hp]
  simp only [Option.bind_eq_bind, Option.bind_some, hpriv, hp]
  cases s.tmpfsFindChild p name <;> rfl

theorem tmpfsMkdir_eq (name : Path) (hd : s.DirOf dir n) :
    s.tmpfsMkdir dir name = some (match s.entry n name with | some _ => .error .exist | none => .error .io, s) := by
  obtain ⟨v, hv, _, hpriv⟩ := hd.vnode
  obtain ⟨p, hp, _⟩ := hd.2
  rw [tmpfsMkdir, hv, entry_eq hp]
  simp only [Option.bind_eq_bind, Option.bind_some, hpriv, hp]
  cases s.tmpfsFindChild p name <;> rfl

/-- A new root: a node and a vnode, the next two blocks. -/
theorem getRoot_tmpfs (hroom : 2 ≤ s.room) :
    ∃ s', s.getRoot .tmpfs = some (.ok (s.next + 1), s') ∧
      s'.nodes = Function.update s.nodes s.next (some ⟨['/'], none, [], s.next + 1⟩) ∧
      s'.kind = Function.update s.kind (s.next + 1) (some (.dir, some s.next)) ∧ s'.next = s.next + 2 := by
  have hone : s.room ≠ 0 := by
    omega
  have htwo : s.room - 1 ≠ 0 := by
    omega
  simp only [getRoot, vnodeAlloc, kzalloc, if_neg hone, if_neg htwo]
  exact ⟨_, rfl, rfl, kind_setVnode _, rfl⟩

end Vfs

namespace TreeInv

variable {sys : TmpfsSys} {s' : Vfs} {c dir n : Nat} {name : Path} {p q : TmpfsNode}

/-- `tmpfs_lookup` finds what the map says and changes no directory. -/
theorem tmpfsLookup (h : TreeInv sys) (name : Path) (hd : sys.vfs.DirOf dir n) :
    ∃ r s', sys.vfs.tmpfsLookup dir (some n) name = some (r, s') ∧ r.map some = TreeOp.found sys.vfs dir n name ∧
      s'.kind = sys.vfs.kind ∧ s'.nodes = sys.vfs.nodes ∧ s'.next = sys.vfs.next := by
  obtain ⟨hkind, p, hp, hvn⟩ := hd
  simp only [Vfs.tmpfsLookup, TreeOp.found, hp, Option.bind_eq_bind, Option.bind_some]
  split
  · -- the parent of a node has a node, and that has a vnode
    obtain ⟨pv, k, hpv, hk⟩ : ∃ pv k, sys.vfs.tmpfsParentVn dir p = some pv ∧ sys.vfs.kind pv = some k := by
      rw [Vfs.tmpfsParentVn]
      cases hparent : p.parent with
      | none   => exact ⟨dir, _, rfl, hkind⟩
      | some m =>
          obtain ⟨pm, hpm, _⟩ := h.parent n p m hp hparent
          obtain ⟨t, ht⟩ := h.vn m pm hpm
          exact ⟨pm.vn, _, by simp only [hpm, Option.map_some], ht⟩
    obtain ⟨s', hs'⟩ := Vfs.exists_get hk
    rw [hpv, Option.bind_some, hs']
    exact ⟨_, s', rfl, rfl, Vfs.get_kind hs'⟩
  · split
    · obtain ⟨s', hs'⟩ := Vfs.exists_get hkind
      rw [hs']
      exact ⟨_, s', rfl, rfl, Vfs.get_kind hs'⟩
    · rw [← Vfs.entry_eq hp]
      cases hentry : sys.vfs.entry n name with
      | none   => exact ⟨_, sys.vfs, rfl, rfl, rfl, rfl, rfl⟩
      | some c =>
          obtain ⟨p', q, _, _, hq, _⟩ := h.entry_iff.mp hentry
          obtain ⟨t, ht⟩ := h.vn c q hq
          obtain ⟨s', hs'⟩ := Vfs.exists_get ht
          simp only [hq, Option.bind_some, hs']
          exact ⟨_, s', rfl, rfl, Vfs.get_kind hs'⟩

end TreeInv

/-! ## A removal

The child is gone from the list of its parent, the node and the name with it, and every other directory is as it was.
-/

/-- What `tmpfs_unlink` leaves when it takes the child `c` of `n` away. -/
structure Removed (s s' : Vfs) (n c : Nat) (q : TmpfsNode) : Prop where
  nodes : s'.nodes = fun m => if m = c then none else (s.nodes m).map fun p => p.listDel c
  kind  : ∀ b, b ≠ q.vn → s'.kind b = s.kind b
  next  : s'.next = s.next

namespace TreeInv

variable {sys : TmpfsSys} {c dir n : Nat} {name : Path} {q : TmpfsNode}

/-- `tmpfs_unlink` of a bound name takes the node away, unless it is a directory with names in it. -/
theorem tmpfsUnlink_bound (h : TreeInv sys) (hd : sys.vfs.DirOf dir n) (hentry : sys.vfs.entry n name = some c)
    (hq : sys.vfs.nodes c = some q) :
    (sys.vfs.FullDir c ∧ sys.vfs.tmpfsUnlink dir name = some (.error .notEmpty, sys.vfs)) ∨
      (¬ sys.vfs.FullDir c ∧
        ∃ s', sys.vfs.tmpfsUnlink dir name = some (.ok (), s') ∧ Removed sys.vfs s' n c q) := by
  obtain ⟨v, hv, _, hpriv⟩ := hd.vnode
  obtain ⟨p, q', hp, hmem, hq', _⟩ := h.entry_iff.mp hentry
  obtain rfl : q = q' := Option.some.inj (hq.symm.trans hq')
  obtain ⟨t, ht⟩ := h.vn c q hq
  obtain ⟨w, hw, hwkind⟩ := Option.map_eq_some_iff.mp ht
  obtain ⟨q', hq', hparent⟩ := h.child n p c hp hmem
  obtain rfl : q = q' := Option.some.inj (hq.symm.trans hq')
  have hfind : sys.vfs.tmpfsFindChild p name = some c := Vfs.entry_eq hp ▸ hentry
  have hfull : sys.vfs.FullDir c ↔ w.data.type = .dir ∧ q.children ≠ [] := by
    rw [h.fullDir_iff hq, Vfs.kind, hw, Option.map_some, Option.some.injEq, hwkind]
    obtain ⟨rfl, _⟩ := Prod.mk.inj hwkind
    simp
  rw [Vfs.tmpfsUnlink, hv]
  simp only [Option.bind_eq_bind, Option.bind_some, hpriv, hp, hfind, hq, hw, hfull]
  split
  next hdir => exact .inl ⟨hdir, rfl⟩
  next hdir =>
    refine .inr ⟨hdir, ?_⟩
    obtain ⟨s₁, hs₁⟩ : ∃ s₁, (sys.vfs.setNode n (some (p.listDel c))).dropNlink dir = some s₁ :=
      Vfs.exists_dropNlink hd.1
    obtain ⟨hkind₁, hnodes₁, hnext₁⟩ := Vfs.dropNlink_kind hs₁
    obtain ⟨s₂, hs₂⟩ : ∃ s₂, s₁.drop q.vn = some s₂ := Vfs.exists_drop (hkind₁ ▸ ht)
    obtain ⟨hkind₂, hnodes₂, hnext₂⟩ := Vfs.drop_kind hs₂
    refine ⟨s₂.setNode c none, ?_, ?_, fun b hb => (hkind₂ b hb).trans (congrFun hkind₁ b), hnext₂.trans hnext₁⟩
    · rw [hs₁, Option.bind_some, hs₂]
      rfl
    · funext m
      rw [Vfs.setNode, hnodes₂, hnodes₁]
      by_cases hmc : m = c
      · subst hmc
        simp
      · simp only [Function.update_of_ne hmc, if_neg hmc, Vfs.setNode]
        by_cases hmn : m = n
        · subst hmn
          simp [hp]
        · -- no other node has this child
          rw [Function.update_of_ne hmn]
          cases hm : sys.vfs.nodes m with
          | none   => rfl
          | some r =>
              have hnot : c ∉ r.children := by
                intro hc
                obtain ⟨q', hq', hparent'⟩ := h.child m r c hm hc
                obtain rfl : q = q' := Option.some.inj (hq.symm.trans hq')
                exact hmn (Option.some.inj (hparent'.symm.trans hparent))
              rw [Option.map_some, TmpfsNode.listDel, List.erase_of_not_mem hnot]

end TreeInv

namespace Removed

variable {sys : TmpfsSys} {s' : Vfs} {c n m : Nat} {name : Path} {q r : TmpfsNode}

/-- The nodes that are left. -/
theorem node_iff (rm : Removed sys.vfs s' n c q) :
    s'.nodes m = some r ↔ m ≠ c ∧ ∃ r₀, sys.vfs.nodes m = some r₀ ∧ r₀.listDel c = r := by
  rw [rm.nodes]
  by_cases hm : m = c
  · simp [hm]
  · simp [hm, Option.map_eq_some_iff]

theorem mem_listDel (h : TreeInv sys) (hm : sys.vfs.nodes m = some r) {d : Nat} :
    d ∈ (r.listDel c).children ↔ d ≠ c ∧ d ∈ r.children :=
  (h.nodup m r hm).mem_erase_iff

theorem kind_node (rm : Removed sys.vfs s' n c q) (h : TreeInv sys) (hq : sys.vfs.nodes c = some q) (hm : m ≠ c)
    {a : Nat} {t : VnodeType} (hk : sys.vfs.kind a = some (t, some m)) : s'.kind a = sys.vfs.kind a := by
  apply rm.kind
  rintro rfl
  obtain ⟨t', ht'⟩ := h.vn c q hq
  have heq := hk.symm.trans ht'
  simp only [Option.some.injEq, Prod.mk.injEq] at heq
  exact hm heq.2

theorem treeInv (rm : Removed sys.vfs s' n c q) (h : TreeInv sys) (hq : sys.vfs.nodes c = some q)
    (hparent : q.parent = some n) (hleaf : q.children = []) : TreeInv { sys with vfs := s' } where
  vn m r hm := by
    obtain ⟨hmc, r₀, hr₀, rfl⟩ := rm.node_iff.mp hm
    obtain ⟨t, ht⟩ := h.vn m r₀ hr₀
    exact ⟨t, (rm.kind_node h hq hmc ht).trans ht⟩
  child m r d hm hd := by
    obtain ⟨hmc, r₀, hr₀, rfl⟩ := rm.node_iff.mp hm
    obtain ⟨hdc, hd₀⟩ := (mem_listDel h hr₀).mp hd
    obtain ⟨q', hq', hpar⟩ := h.child m r₀ d hr₀ hd₀
    exact ⟨_, rm.node_iff.mpr ⟨hdc, q', hq', rfl⟩, hpar⟩
  -- the node that is gone had no children, so nobody has lost its parent
  parent d r m hd hpar := by
    obtain ⟨hdc, r₀, hr₀, rfl⟩ := rm.node_iff.mp hd
    obtain ⟨p, hp, hmem⟩ := h.parent d r₀ m hr₀ hpar
    have hmc : m ≠ c := by
      rintro rfl
      obtain rfl : q = p := Option.some.inj (hq.symm.trans hp)
      rw [hleaf] at hmem
      exact absurd hmem List.not_mem_nil
    exact ⟨_, rm.node_iff.mpr ⟨hmc, p, hp, rfl⟩, (mem_listDel h hp).mpr ⟨hdc, hmem⟩⟩
  older d r m hd hpar := by
    obtain ⟨_, r₀, hr₀, rfl⟩ := rm.node_iff.mp hd
    exact h.older d r₀ m hr₀ hpar
  names m r d d' e e' hm hd hd' he he' hname := by
    obtain ⟨_, r₀, hr₀, rfl⟩ := rm.node_iff.mp hm
    obtain ⟨_, e₀, he₀, rfl⟩ := rm.node_iff.mp he
    obtain ⟨_, e₀', he₀', rfl⟩ := rm.node_iff.mp he'
    exact h.names m r₀ d d' e₀ e₀' hr₀ ((mem_listDel h hr₀).mp hd).2 ((mem_listDel h hr₀).mp hd').2 he₀ he₀' hname
  nodup m r hm := by
    obtain ⟨_, r₀, hr₀, rfl⟩ := rm.node_iff.mp hm
    exact (h.nodup m r₀ hr₀).erase c
  leaf m r t hm hk ht := by
    obtain ⟨hmc, r₀, hr₀, rfl⟩ := rm.node_iff.mp hm
    obtain ⟨t', ht'⟩ := h.vn m r₀ hr₀
    have hsame := rm.kind_node h hq hmc ht'
    have hnil := h.leaf m r₀ t hr₀ (hsame ▸ hk) ht
    rw [TmpfsNode.listDel, hnil]
    rfl
  fresh m hle := by
    rw [rm.next] at hle
    obtain ⟨hnode, hvnode⟩ := h.fresh m hle
    have hkm : sys.vfs.kind m = none := by
      rw [Vfs.kind, hvnode, Option.map_none]
    have hne : m ≠ q.vn := by
      rintro rfl
      obtain ⟨t, ht⟩ := h.vn c q hq
      rw [hkm] at ht
      exact absurd ht nofun
    constructor
    · rw [rm.nodes]
      simp [hnode]
    · exact Option.map_eq_none_iff.mp ((rm.kind m hne).trans hkm)
  -- it had a parent, so it was no root
  root r hr := by
    obtain ⟨p, hp, hpar⟩ := h.root r hr
    have hrc : r ≠ c := by
      rintro rfl
      obtain rfl : q = p := Option.some.inj (hq.symm.trans hp)
      rw [hpar] at hparent
      exact absurd hparent nofun
    exact ⟨_, rm.node_iff.mpr ⟨hrc, p, hp, rfl⟩, hpar⟩

/-- Exactly the one name is gone. -/
theorem becomes (rm : Removed sys.vfs s' n c q) (h : TreeInv sys) (hentry : sys.vfs.entry n name = some c)
    (hq : sys.vfs.nodes c = some q) (hparent : q.parent = some n) (hleaf : q.children = []) :
    sys.vfs.Becomes s' (bindName sys.vfs.entry n name none) (some c) := by
  have h' := rm.treeInv h hq hparent hleaf
  obtain ⟨_, q', _, _, hq', hname⟩ := h.entry_iff.mp hentry
  obtain rfl : q = q' := Option.some.inj (hq.symm.trans hq')
  have hbind : ∀ m nm, bindName sys.vfs.entry n name none m nm =
      if m = n ∧ nm = name then none else sys.vfs.entry m nm := by
    intro m nm
    by_cases hm : m = n
    · subst hm
      by_cases hnm : nm = name
      · simp [bindName, hnm]
      · simp [bindName, hnm]
    · simp [bindName, hm]
  constructor
  · funext m nm
    apply Option.ext
    intro d
    rw [hbind, h'.entry_iff]
    constructor
    · -- a name that is left was there before, and is not the one that was removed
      rintro ⟨r, e, hr, hd, he, hnm⟩
      obtain ⟨hmc, r₀, hr₀, rfl⟩ := rm.node_iff.mp hr
      obtain ⟨hdc, e₀, he₀, rfl⟩ := rm.node_iff.mp he
      have hsome := h.entry_iff.mpr ⟨r₀, e₀, hr₀, ((mem_listDel h hr₀).mp hd).2, he₀, hnm⟩
      split
      next hboth =>
        rw [hboth.1, hboth.2, hentry] at hsome
        exact absurd (Option.some.inj hsome).symm hdc
      next => exact hsome
    · intro hsome
      split at hsome
      next => exact absurd hsome nofun
      next hboth =>
        obtain ⟨r₀, e₀, hr₀, hd₀, he₀, hnm⟩ := h.entry_iff.mp hsome
        -- another name leads to another node, and the node that is gone had no names of its own
        have hdc : d ≠ c := by
          rintro rfl
          obtain rfl : q = e₀ := Option.some.inj (hq.symm.trans he₀)
          obtain ⟨q', hq', hpar⟩ := h.child m r₀ d hr₀ hd₀
          obtain rfl : q = q' := Option.some.inj (hq.symm.trans hq')
          exact hboth ⟨Option.some.inj (hpar.symm.trans hparent), hnm.symm.trans hname⟩
        have hmc : m ≠ c := by
          rintro rfl
          obtain rfl : q = r₀ := Option.some.inj (hq.symm.trans hr₀)
          rw [hleaf] at hd₀
          exact absurd hd₀ List.not_mem_nil
        exact ⟨_, _, rm.node_iff.mpr ⟨hmc, r₀, hr₀, rfl⟩, (mem_listDel h hr₀).mpr ⟨hdc, hd₀⟩,
          rm.node_iff.mpr ⟨hdc, e₀, he₀, rfl⟩, hnm⟩
  · rintro a m ⟨hk, r, hr, hvn⟩ hm
    have hmc : m ≠ c := fun heq => hm (congrArg some heq)
    exact ⟨(rm.kind_node h hq hmc hk).trans hk, _, rm.node_iff.mpr ⟨hmc, r, hr, rfl⟩, hvn⟩

end Removed

/-! ## Mounting

The two steps of a mount: the root of the mount before is emptied, and a new root is made.
-/

/-- What a mount leaves: a new node and its vnode, in a state with the nodes `nodes`. -/
structure Mounted (s s' : Vfs) (nodes : Nat → Option TmpfsNode) : Prop where
  nodes : s'.nodes = Function.update nodes s.next (some ⟨['/'], none, [], s.next + 1⟩)
  kind  : s'.kind = Function.update s.kind (s.next + 1) (some (.dir, some s.next))
  next  : s'.next = s.next + 2

/-- The nodes after `tmpfs_mount_fn`. -/
def TmpfsSys.emptied (sys : TmpfsSys) (m : Nat) : Option TmpfsNode :=
  if sys.root = some m then (sys.vfs.nodes m).map fun p => { p with children := [] } else sys.vfs.nodes m

namespace TreeInv

variable {sys : TmpfsSys} {s' : Vfs} {m : Nat} {r : TmpfsNode}

theorem mount_step (h : TreeInv sys) (hroom : 2 ≤ sys.vfs.room) :
    ∃ s', TreeOp.mount.step sys = some (.ok (some (sys.vfs.next + 1)), ⟨s', some sys.vfs.next⟩) ∧
      Mounted sys.vfs s' sys.emptied := by
  obtain ⟨sys₁, hmount, hnodes, hvnodes, hnext, hroom₁⟩ : ∃ sys₁, sys.tmpfsMountFn = some sys₁ ∧
      sys₁.vfs.nodes = sys.emptied ∧ sys₁.vfs.kind = sys.vfs.kind ∧ sys₁.vfs.next = sys.vfs.next ∧
      sys₁.vfs.room = sys.vfs.room := by
    rw [TmpfsSys.tmpfsMountFn]
    cases hroot : sys.root with
    | none   =>
        refine ⟨sys, rfl, ?_, rfl, rfl, rfl⟩
        funext m
        simp [TmpfsSys.emptied, hroot]
    | some r =>
        obtain ⟨p, hp, _⟩ := h.root r hroot
        simp only [hp, Option.bind_eq_bind, Option.bind_some]
        refine ⟨_, rfl, ?_, rfl, rfl, rfl⟩
        funext m
        simp only [TmpfsSys.emptied, hroot, Vfs.setNode]
        by_cases hm : r = m
        · subst hm
          simp [hp]
        · rw [Function.update_of_ne (Ne.symm hm), if_neg (by simpa using hm)]
  obtain ⟨s', hget, hnodes', hkind', hnext'⟩ := Vfs.getRoot_tmpfs (s := sys₁.vfs) (hroom₁ ▸ hroom)
  rw [hnext] at hget hnodes' hkind' hnext'
  have hnonzero : sys₁.vfs.room ≠ 0 := by
    omega
  refine ⟨s', ?_, hnodes ▸ hnodes', hvnodes ▸ hkind', hnext'⟩
  simp only [TreeOp.step, hmount, TmpfsSys.tmpfsGetRoot, hget, Option.bind_eq_bind, Option.bind_some, if_neg hnonzero,
    hnext]
  rfl

/-- An empty root is emptied without a change. -/
theorem emptied_eq (h : TreeInv sys) (hfine : TreeOp.mount.Fine sys) : sys.emptied = sys.vfs.nodes := by
  funext m
  rw [TmpfsSys.emptied]
  split
  next hroot =>
    obtain ⟨p, hp, _⟩ := h.root m hroot
    have hnil := (h.entry_none_iff hp).mp (hfine m hroot)
    rw [hp, Option.map_some, ← hnil]
  next => rfl

end TreeInv

namespace Mounted

variable {sys : TmpfsSys} {s' : Vfs} {m : Nat} {r : TmpfsNode}

theorem node_iff (mt : Mounted sys.vfs s' sys.vfs.nodes) :
    s'.nodes m = some r ↔
      (m = sys.vfs.next ∧ r = ⟨['/'], none, [], sys.vfs.next + 1⟩) ∨ (m ≠ sys.vfs.next ∧ sys.vfs.nodes m = some r) := by
  rw [mt.nodes]
  by_cases hm : m = sys.vfs.next
  · subst hm
    simp [eq_comm]
  · simp [hm]

theorem old (mt : Mounted sys.vfs s' sys.vfs.nodes) (h : TreeInv sys) (hm : sys.vfs.nodes m = some r) :
    s'.nodes m = some r := by
  refine mt.node_iff.mpr (.inr ⟨?_, hm⟩)
  rintro rfl
  rw [(h.fresh _ (Nat.le_refl _)).1] at hm
  exact absurd hm nofun

theorem kind_old (mt : Mounted sys.vfs s' sys.vfs.nodes) (h : TreeInv sys) {a : Nat} {k : VnodeType × Option Nat}
    (hk : sys.vfs.kind a = some k) : s'.kind a = some k := by
  rw [mt.kind, Function.update_of_ne, hk]
  rintro rfl
  rw [Vfs.kind, (h.fresh _ (by omega)).2] at hk
  exact absurd hk nofun

theorem treeInv (mt : Mounted sys.vfs s' sys.vfs.nodes) (h : TreeInv sys) :
    TreeInv ⟨s', some sys.vfs.next⟩ where
  vn m r hm := by
    rcases mt.node_iff.mp hm with ⟨rfl, rfl⟩ | ⟨_, hm⟩
    · exact ⟨.dir, by rw [mt.kind, Function.update_self]⟩
    · obtain ⟨t, ht⟩ := h.vn m r hm
      exact ⟨t, mt.kind_old h ht⟩
  child m r c hm hc := by
    rcases mt.node_iff.mp hm with ⟨rfl, rfl⟩ | ⟨_, hm⟩
    · exact absurd hc List.not_mem_nil
    · obtain ⟨q, hq, hpar⟩ := h.child m r c hm hc
      exact ⟨q, mt.old h hq, hpar⟩
  parent c q m hc hpar := by
    rcases mt.node_iff.mp hc with ⟨rfl, rfl⟩ | ⟨_, hc⟩
    · exact absurd hpar nofun
    · obtain ⟨p, hp, hmem⟩ := h.parent c q m hc hpar
      exact ⟨p, mt.old h hp, hmem⟩
  older c q m hc hpar := by
    rcases mt.node_iff.mp hc with ⟨rfl, rfl⟩ | ⟨_, hc⟩
    · exact absurd hpar nofun
    · exact h.older c q m hc hpar
  -- the new root has no children; the nodes that were there are as before
  names m r c c' q q' hm hc hc' hq hq' hname := by
    rcases mt.node_iff.mp hm with ⟨rfl, rfl⟩ | ⟨_, hm⟩
    · exact absurd hc List.not_mem_nil
    · obtain ⟨e, he, _⟩ := h.child m r c hm hc
      obtain ⟨e', he', _⟩ := h.child m r c' hm hc'
      obtain rfl : e = q := Option.some.inj ((mt.old h he).symm.trans hq)
      obtain rfl : e' = q' := Option.some.inj ((mt.old h he').symm.trans hq')
      exact h.names m r c c' e e' hm hc hc' he he' hname
  nodup m r hm := by
    rcases mt.node_iff.mp hm with ⟨rfl, rfl⟩ | ⟨_, hm⟩
    · exact List.nodup_nil
    · exact h.nodup m r hm
  leaf m r t hm hk ht := by
    rcases mt.node_iff.mp hm with ⟨rfl, rfl⟩ | ⟨_, hm⟩
    · rfl
    · obtain ⟨t', ht'⟩ := h.vn m r hm
      have heq := (mt.kind_old h ht').symm.trans hk
      simp only [Option.some.injEq, Prod.mk.injEq, and_true] at heq
      exact h.leaf m r t hm (heq ▸ ht') ht
  fresh m hle := by
    have hle' : sys.vfs.next + 2 ≤ m := mt.next ▸ hle
    obtain ⟨hnode, hvnode⟩ := h.fresh m (by omega)
    constructor
    · rw [mt.nodes, Function.update_of_ne (by omega)]
      exact hnode
    · have hk : s'.kind m = none := by
        rw [mt.kind, Function.update_of_ne (by omega), Vfs.kind, hvnode, Option.map_none]
      exact Option.map_eq_none_iff.mp hk
  root m hm := by
    obtain rfl : sys.vfs.next = m := Option.some.inj hm
    exact ⟨_, mt.node_iff.mpr (.inl ⟨rfl, rfl⟩), rfl⟩

theorem becomes (mt : Mounted sys.vfs s' sys.vfs.nodes) (h : TreeInv sys) :
    (∃ n a, (.ok (some (sys.vfs.next + 1)) : Outcome) = .ok (some a) ∧ sys.vfs.nodes n = none ∧ s'.DirOf a n) ∧
      sys.vfs.Becomes s' sys.vfs.entry none := by
  have h' := mt.treeInv h
  have hfresh := (h.fresh _ (Nat.le_refl sys.vfs.next)).1
  refine ⟨⟨sys.vfs.next, _, rfl, hfresh, ?_⟩, ?_, ?_⟩
  · exact ⟨by rw [mt.kind, Function.update_self], _, mt.node_iff.mpr (.inl ⟨rfl, rfl⟩), rfl⟩
  · funext m name
    apply Option.ext
    intro c
    rw [h'.entry_iff, h.entry_iff]
    constructor
    · rintro ⟨r, q, hr, hc, hq, hname⟩
      rcases mt.node_iff.mp hr with ⟨rfl, rfl⟩ | ⟨_, hr⟩
      · exact absurd hc List.not_mem_nil
      · obtain ⟨e, he, _⟩ := h.child m r c hr hc
        obtain rfl : e = q := Option.some.inj ((mt.old h he).symm.trans hq)
        exact ⟨r, e, hr, hc, he, hname⟩
    · rintro ⟨r, q, hr, hc, hq, hname⟩
      exact ⟨r, q, mt.old h hr, hc, mt.old h hq, hname⟩
  · rintro a m ⟨hk, r, hr, hvn⟩ _
    exact ⟨mt.kind_old h hk, r, mt.old h hr, hvn⟩

end Mounted

namespace TreeInv

variable {sys : TmpfsSys} {s' : Vfs} {m : Nat}

/-- A root that is not empty has none of its names after the next mount. -/
theorem mount_loses (h : TreeInv sys) (mt : Mounted sys.vfs s' sys.emptied) (hroot : sys.root = some m) (name : Path) :
    s'.entry m name = none := by
  obtain ⟨p, hp, _⟩ := h.root m hroot
  have hne : m ≠ sys.vfs.next := by
    rintro rfl
    rw [(h.fresh _ (Nat.le_refl _)).1] at hp
    exact absurd hp nofun
  rw [Vfs.entry, mt.nodes, Function.update_of_ne hne, TmpfsSys.emptied, if_pos hroot, hp]
  rfl

end TreeInv

/-! ## Runs

The equivalence for sequences.
-/

namespace TreeOp

variable {sys : TmpfsSys} {dir : Nat} {name : Path}

theorem mount_spec (h : TreeInv sys) (hroom : 2 ≤ sys.vfs.room) :
    ∃ out, mount.step sys = some out ∧ (mount.AsMap sys out ↔ mount.Fine sys) ∧ (mount.Fine sys → TreeInv out.2) := by
  obtain ⟨s', hstep, mt⟩ := h.mount_step hroom
  refine ⟨_, hstep, ⟨fun hmap r hroot name => ?_, fun hfine => ?_⟩, fun hfine => ?_⟩
  · -- an entry that the root had would have had to be there still
    have hentry : s'.entry = sys.vfs.entry := hmap.2.entry
    rw [← hentry]
    exact h.mount_loses mt hroot name
  · rw [h.emptied_eq hfine] at mt
    exact mt.becomes h
  · rw [h.emptied_eq hfine] at mt
    exact mt.treeInv h

theorem create_spec (h : TreeInv sys) (hd : ∃ n, sys.vfs.DirOf dir n) :
    ∃ out, (create dir name).step sys = some out ∧
      ((create dir name).AsMap sys out ↔ (create dir name).Fine sys) ∧ TreeInv out.2 := by
  obtain ⟨n, hd⟩ := hd
  have hstep := Vfs.tmpfsCreate_eq name hd
  refine ⟨_, by rw [step, hstep]; rfl, ⟨fun hmap m hm hnone => ?_, fun hfine m hm => ?_⟩, h⟩
  · have hasked := hmap m hm
    obtain rfl := hd.unique hm
    simp only [hnone] at hasked
    obtain ⟨c, a, hok, _⟩ := hasked
    exact absurd hok nofun
  · obtain rfl := hd.unique hm
    cases hentry : sys.vfs.entry m name with
    | none   => exact absurd hentry (hfine m hd)
    | some c => exact ⟨rfl, .of_same rfl rfl⟩

theorem mkdir_spec (h : TreeInv sys) (hd : ∃ n, sys.vfs.DirOf dir n) :
    ∃ out, (mkdir dir name).step sys = some out ∧
      ((mkdir dir name).AsMap sys out ↔ (mkdir dir name).Fine sys) ∧ TreeInv out.2 := by
  obtain ⟨n, hd⟩ := hd
  have hstep := Vfs.tmpfsMkdir_eq name hd
  refine ⟨_, by rw [step, hstep]; rfl, ⟨fun hmap m hm hnone => ?_, fun hfine m hm => ?_⟩, h⟩
  · have hasked := hmap m hm
    obtain rfl := hd.unique hm
    simp only [hnone] at hasked
    obtain ⟨c, a, hok, _⟩ := hasked
    exact absurd hok nofun
  · obtain rfl := hd.unique hm
    cases hentry : sys.vfs.entry m name with
    | none   => exact absurd hentry (hfine m hd)
    | some c => exact ⟨rfl, .of_same rfl rfl⟩

theorem unlink_spec (h : TreeInv sys) (hd : ∃ n, sys.vfs.DirOf dir n) :
    ∃ out, (unlink dir name).step sys = some out ∧ (unlink dir name).AsMap sys out ∧ TreeInv out.2 := by
  obtain ⟨n, hd⟩ := hd
  cases hentry : sys.vfs.entry n name with
  | none =>
      obtain ⟨v, hv, _, hpriv⟩ := hd.vnode
      obtain ⟨p, hp, _⟩ := hd.2
      have hstep : sys.vfs.tmpfsUnlink dir name = some (.error .noEnt, sys.vfs) := by
        rw [Vfs.tmpfsUnlink, hv]
        simp only [Option.bind_eq_bind, Option.bind_some, hpriv, hp, ← Vfs.entry_eq hp, hentry]
        rfl
      refine ⟨_, by rw [step, hstep]; rfl, fun m hm => ?_, h⟩
      obtain rfl := hd.unique hm
      simp only [hentry]
      exact ⟨rfl, .of_same rfl rfl⟩
  | some c =>
      obtain ⟨p, q, hp, hmem, hq, _⟩ := h.entry_iff.mp hentry
      rcases h.tmpfsUnlink_bound hd hentry hq with ⟨hfull, hstep⟩ | ⟨hfull, s', hstep, rm⟩
      · refine ⟨_, by rw [step, hstep]; rfl, fun m hm => ?_, h⟩
        obtain rfl := hd.unique hm
        simp only [hentry]
        exact ⟨fun _ => ⟨rfl, .of_same rfl rfl⟩, fun hnot => absurd hfull hnot⟩
      · obtain ⟨q', hq', hparent⟩ := h.child n p c hp hmem
        obtain rfl : q = q' := Option.some.inj (hq.symm.trans hq')
        have hleaf : q.children = [] := by
          obtain ⟨t, ht⟩ := h.vn c q hq
          by_contra hne
          by_cases hdir : t = .dir
          · exact hfull ((h.fullDir_iff hq).mpr ⟨hdir ▸ ht, hne⟩)
          · exact hne (h.leaf c q t hq ht hdir)
        refine ⟨_, by rw [step, hstep]; rfl, fun m hm => ?_, rm.treeInv h hq hparent hleaf⟩
        obtain rfl := hd.unique hm
        simp only [hentry]
        exact ⟨fun hyes => absurd hyes hfull, fun _ => ⟨rfl, rm.becomes h hentry hq hparent hleaf⟩⟩

theorem lookup_spec (h : TreeInv sys) (hd : ∃ n, sys.vfs.DirOf dir n) :
    ∃ out, (lookup dir name).step sys = some out ∧ (lookup dir name).AsMap sys out ∧ TreeInv out.2 := by
  obtain ⟨n, hd⟩ := hd
  obtain ⟨v, hv, _, hpriv⟩ := hd.vnode
  obtain ⟨r, s', hstep, hr, hkind, hnodes, hnext⟩ := h.tmpfsLookup name hd
  refine ⟨(r.map some, { sys with vfs := s' }), ?_, fun m hm => ?_, h.of_same hkind hnodes hnext⟩
  · simp only [step, hv, Option.bind_eq_bind, Option.bind_some, hpriv, hstep]
    rfl
  · obtain rfl := hd.unique hm
    exact ⟨hr, .of_same hkind hnodes⟩

/-- **One operation.** It does to the maps what it is for exactly when it is fine, and then the trees are trees still. -/
theorem step_spec (h : TreeInv sys) (op : TreeOp) (ha : op.Allowed sys) :
    ∃ out, op.step sys = some out ∧ (op.AsMap sys out ↔ op.Fine sys) ∧ (op.Fine sys → TreeInv out.2) := by
  cases op with
  | mount           => exact mount_spec h ha
  | create dir name =>
      obtain ⟨out, hstep, hiff, hinv⟩ := create_spec h ha.1
      exact ⟨out, hstep, hiff, fun _ => hinv⟩
  | mkdir dir name  =>
      obtain ⟨out, hstep, hiff, hinv⟩ := mkdir_spec h ha.1
      exact ⟨out, hstep, hiff, fun _ => hinv⟩
  | unlink dir name =>
      obtain ⟨out, hstep, hmap, hinv⟩ := unlink_spec h ha.1
      exact ⟨out, hstep, iff_of_true hmap trivial, fun _ => hinv⟩
  | lookup dir name =>
      obtain ⟨out, hstep, hmap, hinv⟩ := lookup_spec h ha.1
      exact ⟨out, hstep, iff_of_true hmap trivial, fun _ => hinv⟩

end TreeOp

/-- **The directories of `tmpfs` are independent finite maps exactly on the runs whose operations are fine.** -/
theorem tmpfs_maps_iff_fine (sys : TmpfsSys) (h : TreeInv sys) (ops : List TreeOp) :
    RunAsMap sys ops ↔ RunFine sys ops := by
  induction ops generalizing sys with
  | nil => exact Iff.rfl
  | cons op ops ih =>
      simp only [RunAsMap, RunFine]
      refine forall_congr' fun ha => ?_
      obtain ⟨out, hstep, hiff, hinv⟩ := op.step_spec h ha
      simp only [hstep, Option.some.injEq, exists_eq_left', forall_eq', hiff]
      exact and_congr_right fun hfine => ih out.2 (hinv hfine)

/-! ## From the boot state

Two sequences from there, one that is fine and one that is not.
-/

/-- After `devfs_init` the only tree is that of the devices, and `g_tmpfs_inst` has no root. -/
def tmpfsBoot (room : Nat) : TmpfsSys := ⟨vfsBoot [] room, none⟩

theorem vfsBoot_node {entries : List InitrdEntry} {room n : Nat} {p : TmpfsNode}
    (h : (vfsBoot entries room).nodes n = some p) :
    (n = 0 ∧ p = ⟨['d', 'e', 'v'], none, [1, 2, 3, 4, 5], 0⟩) ∨
      (n ∈ [1, 2, 3, 4, 5] ∧ p = ⟨deviceNames.getD (n - 1) [], some 0, [], n⟩) := by
  simp only [vfsBoot] at h
  split at h
  next hn =>
    cases h
    exact .inl ⟨hn, rfl⟩
  next hn =>
    split at h
    next hle =>
      cases h
      refine .inr ⟨?_, rfl⟩
      simp only [List.mem_cons, List.not_mem_nil, or_false]
      omega
    next => cases h

theorem vfsBoot_device (entries : List InitrdEntry) (room : Nat) {n : Nat} (h : n ∈ [1, 2, 3, 4, 5]) :
    (vfsBoot entries room).nodes n = some ⟨deviceNames.getD (n - 1) [], some 0, [], n⟩ ∧
      (vfsBoot entries room).kind n = some (.chr, some n) := by
  simp only [List.mem_cons, List.not_mem_nil, or_false] at h
  rcases h with rfl | rfl | rfl | rfl | rfl
  all_goals exact ⟨rfl, rfl⟩

theorem treeInv_boot (room : Nat) : TreeInv (tmpfsBoot room) where
  vn n p hn := by
    rcases vfsBoot_node hn with ⟨rfl, rfl⟩ | ⟨hdev, rfl⟩
    · exact ⟨.dir, rfl⟩
    · exact ⟨.chr, (vfsBoot_device [] room hdev).2⟩
  child n p c hn hc := by
    rcases vfsBoot_node hn with ⟨rfl, rfl⟩ | ⟨_, rfl⟩
    · exact ⟨_, (vfsBoot_device [] room hc).1, rfl⟩
    · exact absurd hc List.not_mem_nil
  parent c q n hc hpar := by
    rcases vfsBoot_node hc with ⟨rfl, rfl⟩ | ⟨hdev, rfl⟩
    · exact absurd hpar nofun
    · obtain rfl : 0 = n := Option.some.inj hpar
      exact ⟨_, rfl, hdev⟩
  older c q n hc hpar := by
    rcases vfsBoot_node hc with ⟨rfl, rfl⟩ | ⟨hdev, rfl⟩
    · exact absurd hpar nofun
    · obtain rfl : 0 = n := Option.some.inj hpar
      simp only [List.mem_cons, List.not_mem_nil, or_false] at hdev
      omega
  -- the five devices have five names
  names n p c c' q q' hn hc hc' hq hq' hname := by
    rcases vfsBoot_node hn with ⟨rfl, rfl⟩ | ⟨_, rfl⟩
    · rw [(Option.some.inj (hq.symm.trans (vfsBoot_device [] room hc).1)),
        (Option.some.inj (hq'.symm.trans (vfsBoot_device [] room hc').1))] at hname
      have hdistinct : ∀ a ∈ [1, 2, 3, 4, 5], ∀ b ∈ [1, 2, 3, 4, 5],
          deviceNames.getD (a - 1) [] = deviceNames.getD (b - 1) [] → a = b := by
        decide
      exact hdistinct c hc c' hc' hname
    · exact absurd hc List.not_mem_nil
  nodup n p hn := by
    rcases vfsBoot_node hn with ⟨rfl, rfl⟩ | ⟨_, rfl⟩
    · decide
    · exact List.nodup_nil
  leaf n p t hn hk ht := by
    rcases vfsBoot_node hn with ⟨rfl, rfl⟩ | ⟨_, rfl⟩
    · have heq : (VnodeType.dir, some 0) = (t, some 0) := Option.some.inj hk
      exact absurd (Prod.mk.inj heq).1.symm ht
    · rfl
  fresh n hle := by
    have hge : 7 ≤ n := hle
    constructor
    · show (if n = 0 then _ else if n ≤ 5 then _ else none) = none
      rw [if_neg (by omega), if_neg (by omega)]
    · cases hv : (vfsBoot [] room).vnodes n with
      | none   => exact hv
      | some v =>
          have hlt := (vfsBoot_refcount hv).2
          omega
  root r hr := absurd hr nofun

/-- The name of a file. -/
def nullName : Path := ['n', 'u', 'l', 'l']

/-- The name of another. -/
def zeroName : Path := ['z', 'e', 'r', 'o']

/-- A mount, a device that is unlinked and looked up, and a name that is there already. -/
def unlinkOps : List TreeOp := [.mount, .unlink 0 nullName, .lookup 0 nullName, .create 0 zeroName]

theorem tmpfs_maps_unlink : RunAsMap (tmpfsBoot 2) unlinkOps := by
  refine (tmpfs_maps_iff_fine (tmpfsBoot 2) (treeInv_boot 2) unlinkOps).mpr ?_
  refine fun _ => ⟨fun r hr => absurd hr nofun, fun out hout => ?_⟩
  obtain rfl := Option.some.inj hout
  refine fun _ => ⟨trivial, fun out hout => ?_⟩
  obtain rfl := Option.some.inj hout
  refine fun _ => ⟨trivial, fun out hout => ?_⟩
  obtain rfl := Option.some.inj hout
  refine fun _ => ⟨fun n hd => ?_, fun _ _ => trivial⟩
  obtain ⟨v, hv, hn⟩ := Option.map_eq_some_iff.mp hd.1
  cases hv
  cases hn
  decide

/-- A new root and a name in it that is not there. -/
def createOps : List TreeOp := [.mount, .create 8 nullName]

theorem tmpfs_maps_create : ¬ RunAsMap (tmpfsBoot 2) createOps := by
  intro hmaps
  obtain ⟨out, hout, _, hrest⟩ := hmaps (Nat.le_refl 2)
  obtain rfl := Option.some.inj hout
  obtain ⟨out, hout, hmap, _⟩ := hrest ⟨⟨7, rfl, _, rfl, rfl⟩, by decide, by decide⟩
  obtain rfl := Option.some.inj hout
  obtain ⟨c, a, hok, _⟩ := hmap 7 ⟨rfl, _, rfl, rfl⟩
  exact absurd hok nofun

end MyUnix.Fs
