import MyUnix.Fs.InitrdTree
import MyUnix.Fs.NameBuf

/-!
# `Fs.LookupParent` — the parent of a path against the path itself

`vfs_lookup_parent` splits a path at its last slash, looks up what is before it and copies what is behind it into the
caller's buffer. Looking that name up in the directory found should be the same as looking up the whole path.

The two lookups do the same up to the directory. There one of them has given its reference back and the other still
holds it, so the second state has all that the first has (`Above`), and what the last lookup finds is the same. The
buffer is a matter of `strncpy`, which writes no zero behind a name that is as long as it may copy.

The comparison is made for any state in which the references are right, also where the lookup of the whole path frees
vnodes on its way. `Above` is the relation that makes it possible: more references never change what a lookup finds,
only when a vnode is freed.

A mount on the parent itself is the case in which the two lookups differ, because the walk goes through one mount for
each component, and the parent was a component of its own in one of them only.
-/

namespace MyUnix.Fs

open Vfs

/-! ## `vfs_lookup_parent` with its buffer

What the caller finds in `name_out`, for any contents before.
-/

namespace Vfs

variable (s : Vfs)

/-- `vfs_lookup_parent`, with what it leaves in `name_out`. -/
def lookupParentInto (start cwd : Option Nat) (path : Path) (buf : Buf) :
    Option (Except Errno (Option Nat) × Buf × Vfs) :=
  match splitLast path with
  | none =>
      match start <|> cwd with
      | none   => some (.ok none, strncpyTo path 0 nameMax buf, s)
      | some a => do
          let s ← s.get a
          pure (.ok (some a), strncpyTo path 0 nameMax buf, s)
  | some (parent, name) =>
      if pathMax ≤ parent.length then none
      else do
        let (r, s) ← s.vfsLookup (start <|> cwd) (if parent = [] then ['/'] else parent)
        pure (r.map some, strncpyTo name 0 nameMax buf, s)

/-- It finds what `vfsLookupParent` finds. -/
theorem lookupParentInto_eq (start cwd : Option Nat) (path : Path) (buf : Buf) :
    (s.lookupParentInto start cwd path buf).map (fun out => (out.1, out.2.2)) =
      (s.vfsLookupParent start cwd path opsLookup).map fun out => (out.1.map Prod.fst, out.2) := by
  unfold lookupParentInto vfsLookupParent
  cases splitLast path with
  | none =>
    simp only
    cases start <|> cwd with
    | none => rfl
    | some a => cases hget : s.get a <;> simp [hget, Except.map]
  | some split =>
    obtain ⟨parent, name⟩ := split
    simp only
    split
    next => rfl
    next =>
      cases hl : s.vfsLookup (start <|> cwd) (if parent = [] then ['/'] else parent) with
      | none => simp
      | some out =>
        obtain ⟨r, t⟩ := out
        cases r <;> simp [Except.map]

/-- So the caller holds one reference to the parent, and none after an error. -/
theorem lookupParentInto_owes {start cwd : Option Nat} {path : Path} {buf buf' : Buf} {s' : Vfs}
    {r : Except Errno (Option Nat)} (hwc : s.WellCounted)
    (h : s.lookupParentInto start cwd path buf = some (r, buf', s')) :
    Owes s s' (Owes.parentHeld (r.map fun a => (a, path))) := by
  have heq := s.lookupParentInto_eq start cwd path buf
  rw [h] at heq
  obtain ⟨⟨res, t⟩, hl, hout⟩ := Option.map_eq_some_iff.mp heq.symm
  obtain ⟨rfl, rfl⟩ := Prod.mk.inj hout
  have hstep := (Owes.refl hwc).vfsLookupParent srcOps_handOver hwc hl
  rw [List.append_nil] at hstep
  cases res <;> exact hstep

end Vfs

/-- The last component of a path: a name between the last slash, if any, and the end. -/
structure LastComponent (path name : Path) : Prop where
  ends   : path = name ∨ ∃ pre, path = pre ++ '/' :: name
  plain  : '/' ∉ name
  some   : name ≠ []
  len    : name.length ≤ nameMax
  notDot : name ≠ dot ∧ name ≠ dotDot

/-- What a call that returned `r`, with the file systems then in `s₁`, is to have found. -/
structure ParentFound (s : Vfs) (start : Option Nat) (path name : Path) (r : Except Errno (Option Nat)) (s₁ : Vfs) :
    Prop where
  noSlash : '/' ∉ path → ∃ a, r = .ok a
  slash   : ∀ pre, path = pre ++ '/' :: name →
    ((∃ a, r = .ok a) ↔ ∃ a s₂, s.vfsLookup start (pre ++ ['/']) = some (.ok a, s₂))
  found   : ∀ a, r = .ok a →
    ∃ res s₂ s₃, s.vfsLookup start path = some (res, s₂) ∧ s₁.vfsLookup (a <|> start) name = some (res, s₃)

/-- And `name_out`, which is `buf` then, is to hold the last component. -/
structure ParentRight (s : Vfs) (start : Option Nat) (path name : Path) (r : Except Errno (Option Nat)) (buf : Buf)
    (s₁ : Vfs) : Prop extends ParentFound s start path name r s₁ where
  copy : CStr buf name

/-- Nothing is mounted on the directory that the path up to its last slash leads to. -/
def BareParent (s : Vfs) (start : Option Nat) (path : Path) : Prop :=
  ∀ pre name, path = pre ++ '/' :: name → ∀ a s₁ v, s.vfsLookup start (pre ++ ['/']) = some (.ok a, s₁) →
    s₁.vnodes a = some v → v.data.mount = none

/-- No file system is mounted on the root of another mount. -/
def NoStack (s : Vfs) : Prop :=
  ∀ a v mp w, s.vnodes a = some v → v.data.mount = some mp → s.vnodes mp.root = some w → w.data.mount = none

/-! ## Splitting

At the last slash; a path without one is looked up from where the process is.
-/

theorem splitLast_none {path : Path} (h : '/' ∉ path) : splitLast path = none := if_neg h

theorem splitLast_some {pre name : Path} (h : '/' ∉ name) : splitLast (pre ++ '/' :: name) = some (pre, name) := by
  have hmem : '/' ∈ pre ++ '/' :: name := List.mem_append_right _ List.mem_cons_self
  have hrev : (pre ++ '/' :: name).reverse = name.reverse ++ '/' :: pre.reverse := by simp
  have hall : ∀ c ∈ name.reverse, decide (c ≠ '/') = true := by
    intro c hc
    rw [decide_eq_true_eq]
    rintro rfl
    exact h (List.mem_reverse.mp hc)
  rw [splitLast, if_pos hmem, hrev, List.dropWhile_append_of_pos hall, List.takeWhile_append_of_pos hall]
  simp

/-! ## The last round of the loop

A walk along a path that ends with a name is the walk to the directory and one more round.
-/

namespace Vfs

variable (s : Vfs)

/-- The last component of a path, a name, in the directory `cur`, and the mount on what is found. -/
def lastName (cur : Nat) (c : Path) : Option (Except Errno Nat × Vfs) := do
  let v ← s.vnodes cur
  match ← (if v.data.ops.hasLookup then s.enter cur c else (s.put cur).map fun s => (.error .notDir, s)) with
  | (.ok a, s)    => do
      let (a, s) ← s.cross a
      pure (.ok a, s)
  | (.error e, s) => pure (.error e, s)

/-- `lastName`, unless there was an error before. -/
def thenName (c : Path) : Except Errno Nat × Vfs → Option (Except Errno Nat × Vfs)
  | (.ok cur, s)  => s.lastName cur c
  | (.error e, s) => some (.error e, s)

end Vfs

section

variable {s t s' t' : Vfs} {cur a : Nat} {c name : Path} {cs : List Path} {res : Except Errno Nat}

theorem walk_name_eq (hlen : c.length ≤ nameMax) (hdot : c ≠ dot ∧ c ≠ dotDot) :
    Vfs.walk [c] cur s = (s.cross cur).bind fun out => out.2.lastName out.1 c := by
  rw [Vfs.walk, Vfs.component, if_neg (Nat.not_lt.mpr hlen)]
  simp only [Option.bind_eq_bind, Option.bind_assoc]
  congr 1
  funext out
  obtain ⟨cur', s₁⟩ := out
  simp only [Vfs.lastName, Option.bind_eq_bind]
  congr 1
  funext v
  simp only [if_neg hdot.1, if_neg hdot.2]
  cases v.data.ops.hasLookup with
  | true => rfl
  | false => cases s₁.put cur' <;> rfl

/-- **A walk that ends with a name** goes to the directory first. -/
theorem walk_snoc (hlen : c.length ≤ nameMax) (hdot : c ≠ dot ∧ c ≠ dotDot) (cs : List Path) : ∀ (cur : Nat) (s : Vfs),
    Vfs.walk (cs ++ [c]) cur s = (Vfs.walk cs cur s).bind (Vfs.thenName c) := by
  induction cs with
  | nil =>
    intro cur s
    rw [List.nil_append, walk_name_eq hlen hdot, Vfs.walk]
    simp only [Option.bind_eq_bind, Option.bind_assoc]
    rfl
  | cons d cs ih =>
    intro cur s
    rw [List.cons_append, Vfs.walk, Vfs.walk]
    simp only [Option.bind_eq_bind, Option.bind_assoc]
    congr 1
    funext out
    obtain ⟨r, s₁⟩ := out
    cases r with
    | ok cur' => exact ih cur' s₁
    | error e => rfl

/-! ## A state with more references

Every function of the walk, run in two states of which one has more.
-/

/-- `s` has all that `t` has, and perhaps more references. -/
structure Above (s t : Vfs) : Prop where
  vnodes  : ∀ a v, t.vnodes a = some v → ∃ w, s.vnodes a = some w ∧ w.data = v.data ∧ v.refcount ≤ w.refcount
  nodes   : s.nodes = t.nodes
  entries : s.entries = t.entries
  next    : s.next = t.next
  room    : s.room = t.room
  headed  : s.headed = t.headed

namespace Above

theorem set (h : Above s t) {v w : Option Vnode} (hset : ∀ x, v = some x →
    ∃ y, w = some y ∧ y.data = x.data ∧ x.refcount ≤ y.refcount) : Above (s.setVnode a w) (t.setVnode a v) where
  vnodes b x hx := by
    by_cases hb : b = a
    · subst hb
      simp only [setVnode, Function.update_self] at hx ⊢
      exact hset x hx
    · simp only [setVnode, Function.update_of_ne hb] at hx ⊢
      exact h.vnodes b x hx
  nodes := h.nodes
  entries := h.entries
  next := h.next
  room := h.room
  headed := h.headed

theorem get (h : Above s t) (hget : t.get a = some t') : ∃ s', s.get a = some s' ∧ Above s' t' := by
  obtain ⟨v, hv, hout⟩ := Option.bind_eq_some_iff.mp hget
  cases hout
  obtain ⟨w, hw, hdata, hle⟩ := h.vnodes a v hv
  refine ⟨_, by rw [Vfs.get, hw]; rfl, h.set fun x hx => ?_⟩
  cases hx
  exact ⟨_, rfl, hdata, by simpa using hle⟩

/-- A reference taken on top. -/
theorem of_get (hget : t.get a = some s) : Above s t := by
  obtain ⟨v, hv, hout⟩ := Option.bind_eq_some_iff.mp hget
  cases hout
  refine ⟨fun b x hx => ?_, rfl, rfl, rfl, rfl, rfl⟩
  by_cases hb : b = a
  · subst hb
    obtain rfl := Option.some.inj (hv.symm.trans hx)
    refine ⟨_, Function.update_self .., rfl, ?_⟩
    simp
  · exact ⟨x, (Function.update_of_ne hb _ _).trans hx, rfl, le_refl _⟩

/-- Where `s` frees the vnode, `t` does. -/
theorem put (h : Above s t) (hwc : t.WellCounted) (hput : t.put a = some t') : ∃ s', s.put a = some s' ∧ Above s' t' := by
  obtain ⟨v, hv, hout⟩ := Option.bind_eq_some_iff.mp (drop_of_put hput)
  cases hout
  obtain ⟨w, hw, hdata, hle⟩ := h.vnodes a v hv
  have hpos : 1 ≤ v.refcount := hwc.pos a _ (by rw [Vfs.refs, hv]; rfl)
  have hlast : w.refcount = 1 → s.headed a = true := by
    intro hone
    have hone' : v.refcount = 1 := by omega
    rw [h.headed]
    by_contra hbare
    rw [Vfs.put, hv] at hput
    simp only [Option.bind_eq_bind, Option.bind_some] at hput
    rw [if_pos ⟨hone', Bool.not_eq_true _ ▸ hbare⟩] at hput
    cases hput
  refine ⟨_, by rw [put_eq_drop hw hlast, Vfs.drop, hw]; rfl, h.set fun x hx => ?_⟩
  split at hx
  next => cases hx
  next hone =>
    cases hx
    refine ⟨_, if_neg (by omega), hdata, ?_⟩
    simpa using hle

theorem alloc (h : Above s t) {d : VnodeData} (halloc : t.vnodeAlloc d = some (a, t')) :
    ∃ s', s.vnodeAlloc d = some (a, s') ∧ Above s' t' := by
  unfold vnodeAlloc kzalloc at halloc ⊢
  rw [h.room, h.next]
  split at halloc
  next => cases halloc
  next hk =>
    split at hk
    next => cases hk
    next hroom =>
      cases hk
      cases halloc
      rw [if_neg hroom]
      have hbase : Above { s with next := t.next + 1, room := t.room - 1 } { t with next := t.next + 1, room := t.room - 1 } :=
        ⟨h.vnodes, h.nodes, h.entries, rfl, rfl, h.headed⟩
      exact ⟨_, rfl, hbase.set fun x hx => ⟨x, hx, rfl, le_refl _⟩⟩

theorem noAlloc (h : Above s t) {d : VnodeData} (halloc : t.vnodeAlloc d = none) : s.vnodeAlloc d = none := by
  unfold vnodeAlloc kzalloc at halloc ⊢
  rw [h.room]
  split at halloc
  next hk =>
    split at hk
    next hroom => rw [if_pos hroom]
    next => cases hk
  next => cases halloc

/-- **The lookups of the file systems** do not look at references. -/
theorem opsLookup (h : Above s t) (hl : t.opsLookup a name = some (res, t')) :
    ∃ s', s.opsLookup a name = some (res, s') ∧ Above s' t' := by
  obtain ⟨v, hv, hout⟩ := Option.bind_eq_some_iff.mp hl
  obtain ⟨w, hw, hdata, -⟩ := h.vnodes a v hv
  rw [Vfs.opsLookup, hw]
  simp only [Option.bind_eq_bind, Option.bind_some, hdata]
  split at hout
  next =>
    -- a directory of the archive: the entries are the same on both sides
    have hout := Option.some.inj hout
    have hpre : s.initrdPrefix v.data.priv = t.initrdPrefix v.data.priv := by
      unfold initrdPrefix
      rw [h.entries]
    unfold initrdLookup at hout ⊢
    rw [h.entries, hpre]
    split at hout
    next =>
      cases hout
      exact ⟨s, rfl, h⟩
    next i _ =>
      cases halloc : t.vnodeAlloc (initrdVnode t.entries i) with
      | none =>
        rw [halloc] at hout
        cases hout
        rw [h.noAlloc halloc]
        exact ⟨s, rfl, h⟩
      | some out =>
        obtain ⟨b, t₁⟩ := out
        rw [halloc] at hout
        cases hout
        obtain ⟨s₁, hs, h'⟩ := h.alloc halloc
        rw [hs]
        exact ⟨s₁, rfl, h'⟩
  next =>
    -- a node of a tree: the nodes are the same, and a vnode that is found is taken a reference on in both
    unfold tmpfsLookup at hout ⊢
    cases hpriv : v.data.priv with
    | none =>
      rw [hpriv] at hout
      cases hout
      exact ⟨s, rfl, h⟩
    | some n =>
      rw [hpriv] at hout
      simp only [Option.bind_eq_bind] at hout ⊢
      obtain ⟨parent, hparent, hout⟩ := Option.bind_eq_some_iff.mp hout
      rw [h.nodes, hparent, Option.bind_some]
      have hvn : s.tmpfsParentVn a parent = t.tmpfsParentVn a parent := by
        unfold tmpfsParentVn
        rw [h.nodes]
      have hchild : s.tmpfsFindChild parent name = t.tmpfsFindChild parent name := by
        rw [tmpfsFindChild, tmpfsFindChild, h.nodes]
      rw [hvn, hchild]
      split at hout
      -- `..` and `.`, and then the names of the children
      next hdd =>
        rw [if_pos hdd]
        obtain ⟨pv, hpv, hout⟩ := Option.bind_eq_some_iff.mp hout
        obtain ⟨t₁, hget, hout⟩ := Option.bind_eq_some_iff.mp hout
        cases hout
        obtain ⟨s₁, hs, h'⟩ := h.get hget
        exact ⟨s₁, by rw [hpv, Option.bind_some, hs]; rfl, h'⟩
      next hdd =>
        rw [if_neg hdd]
        split at hout
        next hd =>
          rw [if_pos hd]
          obtain ⟨t₁, hget, hout⟩ := Option.bind_eq_some_iff.mp hout
          cases hout
          obtain ⟨s₁, hs, h'⟩ := h.get hget
          exact ⟨s₁, by rw [hs]; rfl, h'⟩
        next hd =>
          rw [if_neg hd]
          split at hout
          next =>
            cases hout
            exact ⟨s, rfl, h⟩
          next c _ =>
            obtain ⟨child, hc, hout⟩ := Option.bind_eq_some_iff.mp hout
            obtain ⟨t₁, hget, hout⟩ := Option.bind_eq_some_iff.mp hout
            cases hout
            obtain ⟨s₁, hs, h'⟩ := h.get hget
            exact ⟨s₁, by simp only [hc, Option.bind_some, hs]; rfl, h'⟩
  next => cases hout

end Above

/-! ### Counts along the way

The counts that the statements ask for are there at each point.
-/

theorem wellCounted_balanced : Balanced (fun s _ => s.WellCounted) Vfs.opsLookup where
  get := WellCounted.get
  put := WellCounted.put
  swap := id
  lookup hwc h := (Owes.opsLookup hwc h).wellCounted hwc

namespace Above

theorem cross (h : Above s t) (hwc : t.WellCounted) {b : Nat} (hc : t.cross a = some (b, t')) :
    ∃ s', s.cross a = some (b, s') ∧ Above s' t' := by
  obtain ⟨v, hv, hout⟩ := Option.bind_eq_some_iff.mp hc
  obtain ⟨w, hw, hdata, -⟩ := h.vnodes a v hv
  rw [Vfs.cross, hw]
  simp only [Option.bind_eq_bind, Option.bind_some, hdata]
  cases hm : v.data.mount with
  | none =>
    rw [hm] at hout
    cases hout
    exact ⟨s, rfl, h⟩
  | some mp =>
    rw [hm] at hout
    obtain ⟨t₁, hput, hout⟩ := Option.bind_eq_some_iff.mp hout
    obtain ⟨t₂, hget, hout⟩ := Option.bind_eq_some_iff.mp hout
    cases hout
    obtain ⟨s₁, hs₁, h₁⟩ := h.put hwc hput
    obtain ⟨s₂, hs₂, h₂⟩ := h₁.get hget
    exact ⟨s₂, by simp only [hs₁, Option.bind_some, hs₂]; rfl, h₂⟩

theorem enter (h : Above s t) (hwc : t.WellCounted) (he : t.enter cur c = some (res, t')) :
    ∃ s', s.enter cur c = some (res, s') ∧ Above s' t' := by
  obtain ⟨⟨r, t₁⟩, hl, hout⟩ := Option.bind_eq_some_iff.mp he
  obtain ⟨t₂, hput, hout⟩ := Option.bind_eq_some_iff.mp hout
  cases hout
  obtain ⟨s₁, hs₁, h₁⟩ := h.opsLookup hl
  obtain ⟨s₂, hs₂, h₂⟩ := h₁.put (@Balanced.lookup _ _ wellCounted_balanced _ _ [] _ _ _ hwc hl) hput
  exact ⟨s₂, by simp only [Vfs.enter, hs₁, Option.bind_eq_bind, Option.bind_some, hs₂]; rfl, h₂⟩

/-- **The last round** comes to the same. -/
theorem lastName (h : Above s t) (hwc : t.WellCounted) (hl : t.lastName cur c = some (res, t')) :
    ∃ s', s.lastName cur c = some (res, s') := by
  obtain ⟨v, hv, hout⟩ := Option.bind_eq_some_iff.mp hl
  obtain ⟨⟨r, t₁⟩, hround, hout⟩ := Option.bind_eq_some_iff.mp hout
  obtain ⟨w, hw, hdata, -⟩ := h.vnodes cur v hv
  -- the same result, and counts that are right
  have hstep : t₁.WellCounted ∧ ∃ s₁, (if v.data.ops.hasLookup then s.enter cur c
      else (s.put cur).map fun s => (.error .notDir, s)) = some (r, s₁) ∧ Above s₁ t₁ := by
    split at hround
    next hlook =>
      rw [if_pos hlook]
      exact ⟨@Balanced.enter _ _ _ _ [] _ _ _ wellCounted_balanced hwc hround, h.enter hwc hround⟩
    next hlook =>
      rw [if_neg hlook]
      obtain ⟨t₂, hput, hpair⟩ := Option.map_eq_some_iff.mp hround
      cases hpair
      obtain ⟨s₂, hs₂, h₂⟩ := h.put hwc hput
      exact ⟨hwc.put hput, s₂, by rw [hs₂]; rfl, h₂⟩
  obtain ⟨hwc₁, s₁, hs₁, h₁⟩ := hstep
  rw [Vfs.lastName, hw]
  simp only [Option.bind_eq_bind, Option.bind_some, hdata, hs₁]
  cases r with
  | error e =>
    cases hout
    exact ⟨s₁, rfl⟩
  | ok b =>
    obtain ⟨⟨d, t₂⟩, hcross, hout⟩ := Option.bind_eq_some_iff.mp hout
    cases hout
    obtain ⟨s₂, hs₂, -⟩ := h₁.cross hwc₁ hcross
    exact ⟨s₂, by simp only [hs₂, Option.bind_some]; rfl⟩

end Above

/-! ## Mounts

What a walk has crossed to, and where no mount can be.
-/

/-- A vnode of `s'` is as it was in `s`, or nothing is mounted on it. -/
def Stays (s s' : Vfs) : Prop :=
  ∀ a v, s'.vnodes a = some v → (∃ w, s.vnodes a = some w ∧ w.data = v.data) ∨ v.data.mount = none

theorem Stays.refl (s : Vfs) : Stays s s := fun _ v hv => .inl ⟨v, hv, rfl⟩

theorem Stays.noStack (h : Stays s s') (hns : NoStack s) : NoStack s' := by
  intro a v mp x hv hm hx
  rcases h a v hv with ⟨w, hw, hdata⟩ | hnone
  · rcases h mp.root x hx with ⟨y, hy, hdata'⟩ | hnone
    · rw [← hdata']
      exact hns a w mp y hw (hdata ▸ hm) hy
    · exact hnone
  · rw [hnone] at hm
    cases hm

/-- One vnode is set to something of that kind. -/
theorem Stays.set (h : Stays s t) {v : Option Vnode}
    (hset : ∀ x, v = some x → (∃ w, t.vnodes a = some w ∧ w.data = x.data) ∨ x.data.mount = none) :
    Stays s (t.setVnode a v) := by
  intro b x hx
  by_cases hb : b = a
  · subst hb
    simp only [setVnode, Function.update_self] at hx
    rcases hset x hx with ⟨w, hw, hdata⟩ | hnone
    · rw [← hdata]
      exact h b w hw
    · exact .inr hnone
  · simp only [setVnode, Function.update_of_ne hb] at hx
    exact h b x hx

theorem Stays.get (h : Stays s t) (hget : t.get a = some t') : Stays s t' := by
  obtain ⟨v, hv, hout⟩ := Option.bind_eq_some_iff.mp hget
  cases hout
  refine h.set fun x hx => .inl ?_
  cases hx
  exact ⟨v, hv, rfl⟩

theorem Stays.put (h : Stays s t) (hput : t.put a = some t') : Stays s t' := by
  obtain ⟨v, hv, hout⟩ := Option.bind_eq_some_iff.mp (drop_of_put hput)
  cases hout
  refine h.set fun x hx => .inl ?_
  split at hx
  next => cases hx
  next =>
    cases hx
    exact ⟨v, hv, rfl⟩

theorem Stays.lookup (h : Stays s t) (hl : t.opsLookup cur c = some (res, t')) : Stays s t' := by
  obtain ⟨v, hv, hout⟩ := Option.bind_eq_some_iff.mp hl
  split at hout
  next =>
    have hout := Option.some.inj hout
    unfold initrdLookup at hout
    split at hout
    next =>
      cases hout
      exact h
    next i _ =>
      unfold vnodeAlloc kzalloc at hout
      split at hout
      next =>
        cases hout
        exact h
      next hk =>
        split at hk
        next => cases hk
        next b t₁ hk₁ =>
          split at hk₁
          next => cases hk₁
          next =>
            cases hk₁
            cases hk
            cases hout
            have hbase : Stays s { t with next := t.next + 1, room := t.room - 1 } := h
            refine hbase.set fun x hx => .inr ?_
            cases hx
            rfl
  next =>
    rcases tmpfsLookup_cases hout with ⟨e, -, rfl⟩ | ⟨b, -, hget⟩
    · exact h
    · exact h.get hget
  next => cases hout

theorem stays_balanced (s : Vfs) : Balanced (fun s' _ => Stays s s') Vfs.opsLookup where
  get := Stays.get
  put := Stays.put
  swap := id
  lookup := Stays.lookup

/-- What was crossed to is no mount point. -/
theorem cross_noMount (hns : NoStack s) {b : Nat} (h : s.cross a = some (b, s')) {v : Vnode}
    (hv : s'.vnodes b = some v) : v.data.mount = none := by
  obtain ⟨w, hw, hout⟩ := Option.bind_eq_some_iff.mp h
  cases hm : w.data.mount with
  | none =>
    rw [hm] at hout
    cases hout
    obtain rfl := Option.some.inj (hw.symm.trans hv)
    exact hm
  | some mp =>
    rw [hm] at hout
    obtain ⟨s₁, hput, hout⟩ := Option.bind_eq_some_iff.mp hout
    obtain ⟨s₂, hget, hout⟩ := Option.bind_eq_some_iff.mp hout
    cases hout
    rcases ((Stays.refl s).put hput).get hget mp.root v hv with ⟨y, hy, hdata⟩ | hnone
    · rw [← hdata]
      exact hns a w mp y hw hm hy
    · exact hnone

theorem walk_noMount (cs : List Path) : ∀ {cur : Nat} {s : Vfs}, NoStack s → ∀ {b s'},
    Vfs.walk cs cur s = some (.ok b, s') → ∀ {v}, s'.vnodes b = some v → v.data.mount = none := by
  induction cs with
  | nil =>
    intro cur s hns b s' h v hv
    obtain ⟨⟨d, s₁⟩, hcross, hout⟩ := Option.bind_eq_some_iff.mp h
    cases hout
    exact cross_noMount hns hcross hv
  | cons c cs ih =>
    intro cur s hns b s' h v hv
    obtain ⟨⟨r, s₁⟩, hround, hout⟩ := Option.bind_eq_some_iff.mp h
    have hstays : Stays s s₁ := @Balanced.component _ _ _ _ [] _ _ _ (stays_balanced s) (Stays.refl s) hround
    cases r with
    | error e => cases hout
    | ok cur' => exact ih (hstays.noStack hns) hout hv

/-! ## The two lookups

Put together, and the run with two mounts at `/.`.
-/

variable {start cwd : Option Nat} {path pre : Path} {buf : Buf}

/-- `vfs_lookup` crosses one mount, so it stops at a mount point only where mounts are stacked. -/
theorem NoStack.bareParent (hns : NoStack s) : BareParent s start path := by
  intro pre name _ a s₁ v hparent hv
  unfold Vfs.vfsLookup at hparent
  split at hparent
  next => cases hparent
  next cur _ =>
    obtain ⟨s₀, hget, hwalk⟩ := Option.bind_eq_some_iff.mp hparent
    exact walk_noMount _ (((Stays.refl s).get hget).noStack hns) hwalk hv

/-- Only the components and a slash in front matter. -/
theorem vfsLookup_congr {q : Path} (hhead : path.head? = some '/' ↔ q.head? = some '/')
    (hcomp : components path = components q) : s.vfsLookup start path = s.vfsLookup start q := by
  unfold Vfs.vfsLookup
  rw [hcomp]
  simp only [hhead]

/-- **The whole path** is its last component after what is before the last slash. -/
theorem vfsLookup_snoc (hplain : '/' ∉ name) (hne : name ≠ []) (hlen : name.length ≤ nameMax)
    (hdot : name ≠ dot ∧ name ≠ dotDot) :
    s.vfsLookup start (pre ++ '/' :: name) = (s.vfsLookup start (pre ++ ['/'])).bind (Vfs.thenName name) := by
  have hhead : (pre ++ '/' :: name).head? = some '/' ↔ (pre ++ ['/']).head? = some '/' := by
    cases pre with
    | nil => exact iff_of_true rfl rfl
    | cons c pre => rfl
  unfold Vfs.vfsLookup
  rw [components_append, components_append, components_name hplain hne]
  simp only [hhead]
  cases (if (pre ++ ['/']).head? = some '/' then s.rootVn else start) with
  | none => rfl
  | some cur =>
    simp only [Option.bind_eq_bind, Option.bind_assoc]
    congr 1
    funext t
    rw [walk_snoc hlen hdot]
    simp [components, componentsFrom]

theorem get_of_vnode {v : Vnode} (hv : s.vnodes a = some v) : ∃ s', s.get a = some s' := ⟨_, by rw [Vfs.get, hv]; rfl⟩

/-- A name in a directory that is held a second time. -/
theorem lookup_held (hget : s.get a = some s') (hplain : '/' ∉ name) (hne : name ≠ []) :
    s.vfsLookup (some a) name = Vfs.walk [name] a s' := by
  have hrel : name.head? ≠ some '/' := by
    intro hhead
    exact hplain (List.mem_of_mem_head? hhead)
  rw [Vfs.vfsLookup, if_neg hrel]
  simp only [hget, Option.bind_eq_bind, Option.bind_some, components_name hplain hne]

/-- **A path without a slash**: the directory is the one the lookup starts at. -/
theorem parent_of_plain (hwc : s.WellCounted) (hplain : '/' ∉ name) (hne : name ≠ []) (hlen : name.length ≤ nameMax)
    (hdot : name ≠ dot ∧ name ≠ dotDot) (hwhole : s.vfsLookup (start <|> cwd) name = some (res, s')) (buf : Buf) :
    ∃ r s₁, s.lookupParentInto start cwd name buf = some (r, strncpyTo name 0 nameMax buf, s₁) ∧
      ParentFound s (start <|> cwd) name name r s₁ := by
  have hnever : ∀ pre, name ≠ pre ++ '/' :: name := by
    intro pre hpre
    apply hplain
    rw [hpre]
    exact List.mem_append_right _ List.mem_cons_self
  unfold Vfs.lookupParentInto
  rw [splitLast_none hplain]
  cases hstart : start <|> cwd with
  | none =>
    rw [hstart] at hwhole
    refine ⟨.ok none, s, rfl, fun _ => ⟨none, rfl⟩, fun pre hpre => absurd hpre (hnever pre), fun a ha => ?_⟩
    cases ha
    exact ⟨res, s', s', hwhole, hwhole⟩
  | some b =>
    rw [hstart] at hwhole
    have hrel : name.head? ≠ some '/' := fun hhead => hplain (List.mem_of_mem_head? hhead)
    rw [Vfs.vfsLookup, if_neg hrel] at hwhole
    obtain ⟨s₁, hget, hwalk⟩ := Option.bind_eq_some_iff.mp hwhole
    have hwhole' := lookup_held hget hplain hne
    rw [components_name hplain hne] at hwalk
    refine ⟨.ok (some b), s₁, by simp [hget], fun _ => ⟨some b, rfl⟩, fun pre hpre => absurd hpre (hnever pre),
      fun a ha => ?_⟩
    cases ha
    -- the directory is held twice now
    obtain ⟨v, hv, -⟩ := Option.bind_eq_some_iff.mp hget
    obtain ⟨w, hw, -⟩ := (Above.of_get hget).vnodes b v hv
    obtain ⟨s₂, hget'⟩ := get_of_vnode hw
    have hwc₁ := hwc.get hget
    have hwalk' := hwalk
    rw [walk_name_eq hlen hdot] at hwalk'
    obtain ⟨⟨d, t⟩, hcross, hlast⟩ := Option.bind_eq_some_iff.mp hwalk'
    obtain ⟨u, hu, habove⟩ := (Above.of_get hget').cross hwc₁ hcross
    obtain ⟨s₃, hs₃⟩ := habove.lastName (@Balanced.cross _ _ _ _ [] _ _ wellCounted_balanced hwc₁ hcross) hlast
    refine ⟨res, s', s₃, hwhole'.trans hwalk, ?_⟩
    have hor : (some b <|> some b : Option Nat) = some b := rfl
    rw [hor, lookup_held hget' hplain hne, walk_name_eq hlen hdot, hu]
    exact hs₃

/-- **A path with a slash**: what is before the last one leads to a directory that is no mount point. -/
theorem parent_of_slash (hwc : s.WellCounted) (hbare : BareParent s (start <|> cwd) (pre ++ '/' :: name))
    (hplain : '/' ∉ name) (hne : name ≠ [])
    (hlen : name.length ≤ nameMax) (hdot : name ≠ dot ∧ name ≠ dotDot) (hpath : (pre ++ '/' :: name).length < pathMax)
    (hwhole : s.vfsLookup (start <|> cwd) (pre ++ '/' :: name) = some (res, s')) (buf : Buf) :
    ∃ r s₁, s.lookupParentInto start cwd (pre ++ '/' :: name) buf = some (r, strncpyTo name 0 nameMax buf, s₁) ∧
      ParentFound s (start <|> cwd) (pre ++ '/' :: name) name r s₁ := by
  rw [vfsLookup_snoc hplain hne hlen hdot] at hwhole
  have hwhole' := hwhole
  obtain ⟨⟨r, s₁⟩, hparent, hlast⟩ := Option.bind_eq_some_iff.mp hwhole'
  -- the path as it is handed to `vfs_lookup`
  have hsame : s.vfsLookup (start <|> cwd) (if pre = [] then ['/'] else pre) = some (r, s₁) := by
    rw [← hparent]
    apply vfsLookup_congr
    · cases pre with
      | nil => exact iff_of_true rfl rfl
      | cons c pre => rfl
    · rw [components_append]
      split
      next hnil => rw [hnil]; rfl
      next => simp [components, componentsFrom]
  have hroom : ¬pathMax ≤ pre.length := by
    rw [List.length_append, List.length_cons] at hpath
    omega
  refine ⟨r.map some, s₁, ?_, ?_, ?_, ?_⟩
  · unfold Vfs.lookupParentInto
    rw [splitLast_some hplain]
    simp only [if_neg hroom, hsame, Option.bind_eq_bind, Option.bind_some]
    rfl
  · intro hno
    exact absurd (List.mem_append_right _ List.mem_cons_self) hno
  · intro pre' hpre
    obtain rfl := List.append_cancel_right hpre
    rw [hparent]
    cases r with
    | ok b => exact iff_of_true ⟨_, rfl⟩ ⟨b, s₁, rfl⟩
    | error e => exact iff_of_false (by rintro ⟨_, h⟩; cases h) (by rintro ⟨_, _, h⟩; cases h)
  · intro a' ha
    cases r with
    | error e => cases ha
    | ok b =>
      cases ha
      have hwc₁ : s₁.WellCounted := @Balanced.vfsLookup _ _ _ _ [] _ _ _ wellCounted_balanced hwc hparent
      obtain ⟨v, hv, -⟩ := Option.bind_eq_some_iff.mp (show s₁.lastName b name = some (res, s') from hlast)
      obtain ⟨s₂, hget⟩ := get_of_vnode hv
      have habove := Above.of_get hget
      obtain ⟨w, hw, hdata, -⟩ := habove.vnodes b v hv
      have hm : v.data.mount = none := hbare pre name rfl b s₁ v hparent hv
      obtain ⟨s₃, hs₃⟩ := habove.lastName hwc₁ hlast
      refine ⟨res, s', s₃, ?_, ?_⟩
      · rw [vfsLookup_snoc hplain hne hlen hdot]
        exact hwhole
      have hor : (some b <|> start <|> cwd : Option Nat) = some b := rfl
      rw [hor, lookup_held hget hplain hne, walk_name_eq hlen hdot, cross_none hw (by rw [hdata]; exact hm)]
      exact hs₃

/-- What a call leaves, whatever the path. -/
theorem lookup_parent_found (hwc : s.WellCounted) (hbare : BareParent s (start <|> cwd) path)
    (hlast : LastComponent path name) (hpath : path.length < pathMax) (hwhole : s.vfsLookup (start <|> cwd) path = some (res, s')) (buf : Buf) :
    ∃ r s₁, s.lookupParentInto start cwd path buf = some (r, strncpyTo name 0 nameMax buf, s₁) ∧
      ParentFound s (start <|> cwd) path name r s₁ := by
  obtain ⟨hends, hplain, hne, hlen, hdot⟩ := hlast
  rcases hends with rfl | ⟨pre, rfl⟩
  · exact parent_of_plain hwc hplain hne hlen hdot hwhole buf
  · exact parent_of_slash hwc hbare hplain hne hlen hdot hpath hwhole buf

/-- **When `vfs_lookup_parent` does its work**: the name is shorter than `NAME_MAX`, or the byte of the buffer behind
    it was zero. -/
theorem lookup_parent_iff (hwc : s.WellCounted) (hbare : BareParent s (start <|> cwd) path)
    (hlast : LastComponent path name) (hpath : path.length < pathMax) (hwhole : s.vfsLookup (start <|> cwd) path = some (res, s')) :
    (∃ r buf' s₁, s.lookupParentInto start cwd path buf = some (r, buf', s₁) ∧
      ParentRight s (start <|> cwd) path name r buf' s₁) ↔ name.length < nameMax ∨ buf nameMax = '\x00' := by
  obtain ⟨r, s₁, hout, hfound⟩ := lookup_parent_found hwc hbare hlast hpath hwhole buf
  rw [← strncpyTo_cstr hlast.len]
  constructor
  · rintro ⟨r', buf', s₁', hout', hright⟩
    rw [hout] at hout'
    obtain ⟨-, rfl, -⟩ := by simpa using hout'
    exact hright.copy
  · intro hcopy
    exact ⟨r, _, s₁, hout, hfound, hcopy⟩

end

/-! ### At boot -/

/-- After boot nothing is mounted on any vnode. -/
theorem initrdBoot_noStack (entries : List InitrdEntry) (room : Nat) : NoStack (initrdBoot entries room) := by
  intro a v mp w hv hm _
  have hnone : v.data.mount = none := by
    by_cases h6 : a = 6
    · subst h6
      simp only [initrdBoot, Function.update_self, Option.some.injEq] at hv
      rw [← hv]
    · simp only [initrdBoot, vfsBoot, Function.update_of_ne h6, if_neg h6] at hv
      split at hv
      next => rw [← Option.some.inj hv]
      next =>
        split at hv
        next => rw [← Option.some.inj hv]
        next => cases hv
  rw [hnone] at hm
  cases hm

theorem lookup_parent_sh : ∃ r buf' s₁,
    (initrdBoot binSh 8).lookupParentInto (some 6) none ['b', 'i', 'n', '/', 's', 'h'] (fun _ => 'x') =
      some (r, buf', s₁) ∧
    ParentRight (initrdBoot binSh 8) (some 6) ['b', 'i', 'n', '/', 's', 'h'] ['s', 'h'] r buf' s₁ := by
  obtain ⟨res, s', hwhole⟩ : ∃ res s', (initrdBoot binSh 8).vfsLookup (some 6 <|> none) ['b', 'i', 'n', '/', 's', 'h'] =
      some (res, s') := ⟨_, _, rfl⟩
  have hlast : LastComponent ['b', 'i', 'n', '/', 's', 'h'] ['s', 'h'] :=
    ⟨.inr ⟨['b', 'i', 'n'], rfl⟩, by decide, by decide, by decide, by decide, by decide⟩
  have hbare : BareParent (initrdBoot binSh 8) (some 6 <|> none) ['b', 'i', 'n', '/', 's', 'h'] :=
    (initrdBoot_noStack binSh 8).bareParent
  exact (lookup_parent_iff (initrdBoot_wellCounted binSh 8) hbare hlast (by decide) hwhole).mpr (.inl (by decide))

/-- A name as long as a name may be. -/
def longName : Path := List.replicate 255 'a'

theorem longName_last : LastComponent longName longName where
  ends := .inl rfl
  plain := by
    intro hmem
    exact absurd (List.eq_of_mem_replicate hmem) (by decide)
  some := by decide
  len := by
    rw [longName, List.length_replicate]
    decide
  notDot := by decide

/-- The root of the initrd has no such entry. -/
theorem longName_whole : ∃ s', (initrdBoot [] 8).vfsLookup (some 6) longName = some (.error .noEnt, s') := by
  have hres : ((initrdBoot [] 8).vfsLookup (some 6) longName).map Prod.fst = some (.error .noEnt) := by
    decide +kernel
  obtain ⟨⟨res, s'⟩, hout, hfst⟩ := Option.map_eq_some_iff.mp hres
  exact ⟨s', by rw [hout]; exact congrArg some (Prod.ext hfst rfl)⟩

/-- **It is copied without its zero.** -/
theorem lookup_parent_unterminated : LastComponent longName longName ∧ (initrdBoot [] 8).WellCounted ∧
    (∃ s', (initrdBoot [] 8).vfsLookup (some 6) longName = some (.error .noEnt, s')) ∧
    ¬∃ r buf' s₁, (initrdBoot [] 8).lookupParentInto (some 6) none longName (fun _ => 'x') = some (r, buf', s₁) ∧
      ParentRight (initrdBoot [] 8) (some 6) longName longName r buf' s₁ := by
  refine ⟨longName_last, initrdBoot_wellCounted [] 8, longName_whole, ?_⟩
  rintro ⟨r, buf', s₁, hout, hright⟩
  obtain ⟨s', hwhole⟩ := longName_whole
  have hlen : longName.length = nameMax := List.length_replicate
  have hshort : longName.length < pathMax := by
    rw [hlen]
    decide
  have hstart : (some 6 : Option Nat) = (some 6 <|> none) := rfl
  rw [hstart] at hwhole
  obtain ⟨r', s₁', hout', -⟩ :=
    lookup_parent_found (initrdBoot_wellCounted [] 8) (initrdBoot_noStack [] 8).bareParent longName_last hshort hwhole
      (fun _ => 'x')
  rw [hout] at hout'
  obtain ⟨-, rfl, -⟩ := by simpa using hout'
  rcases (strncpyTo_cstr (Nat.le_of_eq hlen) _).mp hright.copy with hlt | hzero
  · omega
  · exact absurd hzero (by decide)

/-- **With a mount on the root of a mount** the name is looked up one level too far: `/null` is a device, but the
    directory found for it shows the file system on top of it. -/
theorem lookup_parent_stacked : ∃ s₁ s₂, (initrdBoot [] 8).vfsMount ['/', '.'] .devfs = some (.ok (), s₁) ∧
    s₁.vfsMount ['/', '.'] .tmpfs = some (.ok (), s₂) ∧
    (s₂.vfsLookup none ['/', 'n', 'u', 'l', 'l']).map Prod.fst = some (.ok 1) ∧
    ∃ buf s₃, s₂.lookupParentInto none none ['/', 'n', 'u', 'l', 'l'] (fun _ => '\x00') = some (.ok (some 0), buf, s₃) ∧
      (s₃.vfsLookup (some 0) ['n', 'u', 'l', 'l']).map Prod.fst = some (.error .noEnt) :=
  ⟨_, _, rfl, rfl, rfl, _, _, rfl, rfl⟩

end MyUnix.Fs
