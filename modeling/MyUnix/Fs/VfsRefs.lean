import MyUnix.Fs.Vfs
import Mathlib.Data.List.Perm.Basic
import Mathlib.Tactic.Linarith

/-!
# `Fs.VfsRefs` — reference counts during path resolution

`held` lists the references in use outside the file systems: those that `vfs_lookup` handed to its callers, and its
own while it runs. The vnodes in the domain of `D` are *pinned*: a tree node, a mount or a file system itself holds
a reference to them for good, and `D` records what they are. Path resolution keeps the invariant `Refs` with the
same `D`, so no pinned vnode is ever freed or changed by it.

The same lemmas serve two purposes, so the account is a parameter (`Balanced`): with `Refs` it says that nothing
pinned is lost, with `Owes` of `Fs.VfsOpen` how many references there are. What an account has to provide is one lemma
each for `vnode_get`, `vnode_put`, and a lookup.
-/

namespace MyUnix.Fs

open Vfs

/-! ## The last reference

When `vnode_put` returns, and what it leaves then.
-/

/-- What `vnode_put` does when it returns. -/
theorem drop_of_put {s s' : Vfs} {a : Nat} (h : s.put a = some s') : s.drop a = some s' := by
  obtain ⟨v, -, h⟩ := Option.bind_eq_some_iff.mp h
  split at h
  · cases h
  · exact h

/-- It does so when it is not the last reference, or `kfree` finds its header. -/
theorem put_eq_drop {s : Vfs} {v : Vnode} {a : Nat} (hv : s.vnodes a = some v)
    (hlast : v.refcount = 1 → s.headed a = true) : s.put a = s.drop a := by
  have hno : ¬(v.refcount = 1 ∧ s.headed a = false) := by
    rintro ⟨hone, hbare⟩
    rw [hlast hone] at hbare
    cases hbare
  rw [Vfs.put, hv]
  exact if_neg hno

/-! ## The lookups of the file systems

Their results by cases, which is all that the proofs about paths use.
-/

section
variable {s s' : Vfs} {dir : Nat} {priv : Option Nat} {name : Path} {res : Except Errno Nat}

/-- An entry of the archive gets a new vnode. -/
theorem initrdLookup_cases (h : s.initrdLookup priv name = (res, s')) :
    (∃ e, res = .error e ∧ s' = s) ∨ ∃ a d, res = .ok a ∧ s.vnodeAlloc d = some (a, s') := by
  unfold Vfs.initrdLookup at h
  split at h
  · cases h
    exact Or.inl ⟨_, rfl, rfl⟩
  · split at h
    · cases h
      exact Or.inl ⟨_, rfl, rfl⟩
    · rename_i halloc
      cases h
      exact Or.inr ⟨_, _, rfl, halloc⟩

/-- A node of a tree has its vnode already. -/
theorem tmpfsLookup_cases (h : s.tmpfsLookup dir priv name = some (res, s')) :
    (∃ e, res = .error e ∧ s' = s) ∨ ∃ a, res = .ok a ∧ s.get a = some s' := by
  unfold Vfs.tmpfsLookup at h
  cases priv with
  | none =>
      cases h
      exact Or.inl ⟨_, rfl, rfl⟩
  | some n =>
      obtain ⟨parent, -, h⟩ := Option.bind_eq_some_iff.mp h
      by_cases h1 : name = dotDot
      · rw [if_pos h1] at h
        obtain ⟨pv, -, h⟩ := Option.bind_eq_some_iff.mp h
        obtain ⟨s₁, h₁, h⟩ := Option.bind_eq_some_iff.mp h
        cases h
        exact Or.inr ⟨_, rfl, h₁⟩
      · rw [if_neg h1] at h
        by_cases h2 : name = dot
        · rw [if_pos h2] at h
          obtain ⟨s₁, h₁, h⟩ := Option.bind_eq_some_iff.mp h
          cases h
          exact Or.inr ⟨_, rfl, h₁⟩
        · rw [if_neg h2] at h
          split at h
          · cases h
            exact Or.inl ⟨_, rfl, rfl⟩
          · obtain ⟨child, -, h⟩ := Option.bind_eq_some_iff.mp h
            obtain ⟨s₁, h₁, h⟩ := Option.bind_eq_some_iff.mp h
            cases h
            exact Or.inr ⟨_, rfl, h₁⟩

/-- **What a lookup can do**: fail, reference a vnode that is there, or make one. -/
theorem opsLookup_cases (h : s.opsLookup dir name = some (res, s')) :
    (∃ e, res = .error e ∧ s' = s) ∨ (∃ a, res = .ok a ∧ s.get a = some s') ∨
      ∃ a d, res = .ok a ∧ s.vnodeAlloc d = some (a, s') := by
  obtain ⟨v, -, h⟩ := Option.bind_eq_some_iff.mp h
  split at h
  · rcases initrdLookup_cases (Option.some.inj h) with herr | hnew
    · exact Or.inl herr
    · exact Or.inr (Or.inr hnew)
  · rcases tmpfsLookup_cases h with herr | hold
    · exact Or.inl herr
    · exact Or.inr (Or.inl hold)
  · cases h

end

/-- The pinned vnodes. -/
abbrev Pins := Nat → Option VnodeData

/-- Every vnode that callers hold, as `held` counts them, is there and has at least as many references; a pinned one has
    one more. -/
structure Refs (s : Vfs) (held : List Nat) (D : Pins) : Prop where
  pinned : ∀ a d, D a = some d → ∃ v, s.vnodes a = some v ∧ v.data = d ∧ (held.count a : Int) + 1 ≤ v.refcount
  count  : ∀ a v, s.vnodes a = some v → (held.count a : Int) ≤ v.refcount
  live   : ∀ a ∈ held, (s.vnodes a).isSome
  fresh  : ∀ a, s.next ≤ a → s.vnodes a = none

/-- What path resolution leaves alone: all but the vnodes and the memory in use. -/
structure Steady (s' s : Vfs) : Prop where
  nodes      : s'.nodes = s.nodes
  entries    : s'.entries = s.entries
  initrdRoot : s'.initrdRoot = s.initrdRoot
  devfsRoot  : s'.devfsRoot = s.devfsRoot
  rootVn     : s'.rootVn = s.rootVn
  mounts     : s'.mounts = s.mounts
  registered : s'.registered = s.registered
  next       : s.next ≤ s'.next

namespace Steady

theorem refl (s : Vfs) : Steady s s := ⟨rfl, rfl, rfl, rfl, rfl, rfl, rfl, Nat.le_refl _⟩

theorem setVnode (s : Vfs) (a : Nat) (v : Option Vnode) : Steady (s.setVnode a v) s :=
  ⟨rfl, rfl, rfl, rfl, rfl, rfl, rfl, Nat.le_refl _⟩

theorem trans {s s₁ s₂ : Vfs} (h₂ : Steady s₂ s₁) (h₁ : Steady s₁ s) : Steady s₂ s :=
  ⟨h₂.nodes.trans h₁.nodes, h₂.entries.trans h₁.entries, h₂.initrdRoot.trans h₁.initrdRoot,
    h₂.devfsRoot.trans h₁.devfsRoot, h₂.rootVn.trans h₁.rootVn, h₂.mounts.trans h₁.mounts,
    h₂.registered.trans h₁.registered, Nat.le_trans h₁.next h₂.next⟩

end Steady

namespace Refs

variable {s s' : Vfs} {held held' : List Nat} {D : Pins} {a b : Nat} {d : VnodeData} {v : Vnode}

theorem perm (r : Refs s held D) (hp : held.Perm held') : Refs s held' D := by
  refine { r with pinned := fun a d hd => ?_, count := fun a v hv => ?_, live := fun a ha => ?_ }
  · rw [← hp.count_eq a]
    exact r.pinned a d hd
  · rw [← hp.count_eq a]
    exact r.count a v hv
  · exact r.live a (hp.mem_iff.mpr ha)

theorem lt_next (r : Refs s held D) (hv : s.vnodes a = some v) : a < s.next := by
  by_contra hge
  have := r.fresh a (Nat.le_of_not_lt hge)
  rw [hv] at this
  cases this

/-- One vnode gets another count, and one reference to it is taken or given back. -/
theorem setCount (r : Refs s held D) (hv : s.vnodes a = some v) {n : Int}
    (hother : ∀ b, b ≠ a → held'.count b = held.count b) (hcount : (held'.count a : Int) ≤ n)
    (hpin : (D a).isSome → (held'.count a : Int) + 1 ≤ n) :
    Refs (s.setVnode a (some ⟨v.data, n⟩)) held' D := by
  have hat : ∀ b w, (s.setVnode a (some ⟨v.data, n⟩)).vnodes b = some w →
      (b = a ∧ w = ⟨v.data, n⟩) ∨ (b ≠ a ∧ s.vnodes b = some w) := by
    intro b w hw
    by_cases hb : b = a
    · subst hb
      simp only [setVnode, Function.update_self, Option.some.injEq] at hw
      exact Or.inl ⟨rfl, hw.symm⟩
    · simp only [setVnode, Function.update_of_ne hb] at hw
      exact Or.inr ⟨hb, hw⟩
  refine ⟨fun b d hd => ?_, fun b w hw => ?_, fun b hb => ?_, fun b hb => ?_⟩
  · obtain ⟨w, hw, rfl, hc⟩ := r.pinned b d hd
    by_cases hb : b = a
    · subst hb
      rw [hv] at hw
      cases hw
      exact ⟨_, Function.update_self _ _ _, rfl, hpin (by simp [hd])⟩
    · exact ⟨w, (Function.update_of_ne hb _ _).trans hw, rfl, by rw [hother b hb]; exact hc⟩
  · rcases hat b w hw with ⟨rfl, rfl⟩ | ⟨hb, hw⟩
    · exact hcount
    · rw [hother b hb]
      exact r.count b w hw
  · by_cases hba : b = a
    · subst hba
      simp [setVnode]
    · have hmem : b ∈ held := by
        rw [← List.count_pos_iff, ← hother b hba]
        exact List.count_pos_iff.mpr hb
      simpa [setVnode, Function.update_of_ne hba] using r.live b hmem
  · by_cases hba : b = a
    · subst hba
      have hnone := r.fresh b hb
      rw [hv] at hnone
      cases hnone
    · exact (Function.update_of_ne hba _ _).trans (r.fresh b hb)

/-! ## One reference

Taken, given back, made with a new vnode, or kept for good.
-/

/-- **`vnode_get`.** -/
theorem get (r : Refs s held D) (h : s.get a = some s') : Refs s' (a :: held) D ∧ Steady s' s := by
  obtain ⟨v, hv, h⟩ := Option.bind_eq_some_iff.mp h
  cases h
  have hc := r.count a v hv
  refine ⟨r.setCount hv (fun b hb => List.count_cons_of_ne (Ne.symm hb)) ?_ fun hpin => ?_, Steady.setVnode _ _ _⟩
  · rw [List.count_cons_self]
    push_cast
    omega
  · obtain ⟨d, hd⟩ := Option.isSome_iff_exists.mp hpin
    obtain ⟨w, hw, -, hcw⟩ := r.pinned a d hd
    rw [hv] at hw
    cases hw
    rw [List.count_cons_self]
    push_cast
    omega

/-- **`vnode_put`.** -/
theorem put (r : Refs s (a :: held) D) (h : s.put a = some s') : Refs s' held D ∧ Steady s' s := by
  obtain ⟨v, hv, h⟩ := Option.bind_eq_some_iff.mp (drop_of_put h)
  cases h
  refine ⟨?_, Steady.setVnode _ _ _⟩
  have hc := r.count a v hv
  rw [List.count_cons_self] at hc
  push_cast at hc
  have hother : ∀ b, b ≠ a → held.count b = (a :: held).count b :=
    fun b hb => (List.count_cons_of_ne (Ne.symm hb)).symm
  have hpin : ∀ d, D a = some d → (held.count a : Int) + 2 ≤ v.refcount := by
    intro d hd
    obtain ⟨w, hw, -, hcw⟩ := r.pinned a d hd
    rw [hv] at hw
    cases hw
    rw [List.count_cons_self] at hcw
    push_cast at hcw
    omega
  by_cases hone : v.refcount = 1
  · -- the last reference: the vnode is not pinned and nobody else holds it
    rw [if_pos hone]
    have hD : D a = none := by
      cases hd : D a with
      | none => rfl
      | some d =>
          have := hpin d hd
          omega
    have hzero : held.count a = 0 := by omega
    have hstay : ∀ b w, (s.setVnode a none).vnodes b = some w → b ≠ a ∧ s.vnodes b = some w := by
      intro b w hw
      by_cases hb : b = a
      · subst hb
        simp [setVnode] at hw
      · exact ⟨hb, by simpa [setVnode, Function.update_of_ne hb] using hw⟩
    refine ⟨fun b d hd => ?_, fun b w hw => ?_, fun b hb => ?_, fun b hb => ?_⟩
    · have hb : b ≠ a := by
        rintro rfl
        rw [hD] at hd
        cases hd
      obtain ⟨w, hw, hwd, hcw⟩ := r.pinned b d hd
      refine ⟨w, (Function.update_of_ne hb _ _).trans hw, hwd, ?_⟩
      rw [hother b hb]
      exact hcw
    · obtain ⟨hb, hw⟩ := hstay b w hw
      rw [hother b hb]
      exact r.count b w hw
    · have hba : b ≠ a := by
        rintro rfl
        exact absurd hb (List.count_eq_zero.mp hzero)
      simpa [setVnode, Function.update_of_ne hba] using r.live b (List.mem_cons_of_mem _ hb)
    · by_cases hba : b = a
      · subst hba
        simp [setVnode]
      · exact (Function.update_of_ne hba _ _).trans (r.fresh b hb)
  · rw [if_neg hone]
    refine r.setCount hv hother (by omega) fun hsome => ?_
    obtain ⟨d, hd⟩ := Option.isSome_iff_exists.mp hsome
    have := hpin d hd
    omega

/-- **`vnode_alloc`**: the new vnode comes with one reference. -/
theorem alloc (r : Refs s held D) (h : s.vnodeAlloc d = some (a, s')) :
    Refs s' (a :: held) D ∧ Steady s' s ∧ a = s.next ∧ s'.vnodes a = some ⟨d, 1⟩ ∧ s'.next = s.next + 1 ∧
      ∀ b, b ≠ a → s'.vnodes b = s.vnodes b := by
  unfold vnodeAlloc kzalloc at h
  split at h
  · cases h
  · rename_i x t hk
    split at hk
    · cases hk
    · cases hk
      cases h
      have hnew := r.fresh s.next (Nat.le_refl _)
      have hother : ∀ b, b ≠ s.next → Function.update s.vnodes s.next (some ⟨d, 1⟩) b = s.vnodes b :=
        fun b hb => Function.update_of_ne hb _ _
      -- at the new address there was no vnode, so nothing pinned and nothing that a caller holds
      have hD : ∀ d', D s.next ≠ some d' := by
        intro d' hd'
        obtain ⟨w, hw, -⟩ := r.pinned _ _ hd'
        rw [hnew] at hw
        cases hw
      have hheld : s.next ∉ held := by
        intro hmem
        have := r.live _ hmem
        rw [hnew] at this
        cases this
      have hold : ∀ b w, Function.update s.vnodes s.next (some ⟨d, 1⟩) b = some w →
          (b = s.next ∧ w = ⟨d, 1⟩) ∨ (b ≠ s.next ∧ s.vnodes b = some w) := by
        intro b w hw
        by_cases hb : b = s.next
        · subst hb
          rw [Function.update_self] at hw
          exact Or.inl ⟨rfl, (Option.some.inj hw).symm⟩
        · exact Or.inr ⟨hb, hother b hb ▸ hw⟩
      refine ⟨⟨fun b d' hd' => ?_, fun b w hw => ?_, fun b hb => ?_, fun b hb => ?_⟩,
        ⟨rfl, rfl, rfl, rfl, rfl, rfl, rfl, Nat.le_succ _⟩, rfl, Function.update_self _ _ _, rfl, hother⟩
      · have hb : b ≠ s.next := fun e => hD d' (e ▸ hd')
        obtain ⟨w, hw, hwd, hcw⟩ := r.pinned b d' hd'
        refine ⟨w, (hother b hb).trans hw, hwd, ?_⟩
        rw [List.count_cons_of_ne (Ne.symm hb)]
        exact hcw
      · -- the new vnode has the one reference of the caller
        rcases hold b w hw with ⟨rfl, rfl⟩ | ⟨hb, hw⟩
        · rw [List.count_cons_self, List.count_eq_zero.mpr hheld]
          simp
        · rw [List.count_cons_of_ne (Ne.symm hb)]
          exact r.count b w hw
      · show (Function.update s.vnodes s.next (some ⟨d, 1⟩) b).isSome
        by_cases hbn : b = s.next
        · rw [hbn, Function.update_self]
          rfl
        · rw [hother b hbn]
          exact r.live b ((List.mem_cons.mp hb).resolve_left hbn)
      · have hb' : s.next + 1 ≤ b := hb
        exact (hother b (by omega)).trans (r.fresh b (by omega))

/-- A pinned vnode can be referenced, and letting go of it again undoes that. -/
theorem get_pinned (r : Refs s held D) (hd : D a = some d) :
    ∃ s', s.get a = some s' ∧ s'.put a = some s := by
  obtain ⟨v, hv, -, hc⟩ := r.pinned a d hd
  refine ⟨s.setVnode a (some ⟨v.data, v.refcount + 1⟩), by simp [Vfs.get, hv], ?_⟩
  have hne : v.refcount + 1 ≠ 1 := by omega
  have hback : Function.update s.vnodes a (some v) = s.vnodes := by
    rw [← hv]
    exact Function.update_eq_self a s.vnodes
  rw [put_eq_drop (Function.update_self ..) fun hone => absurd hone hne]
  simp [Vfs.drop, setVnode, hne, hback]

/-- A reference that is kept for good. -/
theorem pin (r : Refs s (a :: held) D) (hv : s.vnodes a = some v) :
    Refs s held (Function.update D a (some v.data)) := by
  refine ⟨fun b d hd => ?_, fun b w hw => ?_, fun b hb => r.live b (List.mem_cons_of_mem _ hb), r.fresh⟩
  · by_cases hb : b = a
    · subst hb
      rw [Function.update_self, Option.some.injEq] at hd
      have hc := r.count b v hv
      rw [List.count_cons_self] at hc
      push_cast at hc
      exact ⟨v, hv, hd, hc⟩
    · rw [Function.update_of_ne hb] at hd
      have hp := r.pinned b d hd
      rw [List.count_cons_of_ne (Ne.symm hb)] at hp
      exact hp
  · have hc := r.count b w hw
    have hle : held.count b ≤ (a :: held).count b := (List.sublist_cons_self a held).count_le b
    omega

/-- A pinned vnode becomes a mount point, or the root of a mount. -/
theorem setData (r : Refs s held D) (d' : VnodeData) (hd : D a = some d) (hv : s.vnodes a = some v) :
    Refs (s.setVnode a (some ⟨d', v.refcount⟩)) held (Function.update D a (some d')) := by
  obtain ⟨v', hv', -, hpin⟩ := r.pinned a d hd
  obtain rfl : v = v' := Option.some.inj (hv.symm.trans hv')
  refine ⟨fun b e he => ?_, fun b w hw => ?_, fun b hb => ?_, fun b hb => ?_⟩
  · by_cases hb : b = a
    · subst hb
      rw [Function.update_self, Option.some.injEq] at he
      exact ⟨_, Function.update_self _ _ _, he, hpin⟩
    · rw [Function.update_of_ne hb] at he
      obtain ⟨w, hw, hwd, hcw⟩ := r.pinned b e he
      exact ⟨w, (Function.update_of_ne hb _ _).trans hw, hwd, hcw⟩
  · by_cases hb : b = a
    · subst hb
      simp only [setVnode, Function.update_self, Option.some.injEq] at hw
      subst hw
      exact r.count b v hv
    · simp only [setVnode, Function.update_of_ne hb] at hw
      exact r.count b w hw
  · by_cases hba : b = a
    · subst hba
      simp [setVnode]
    · simpa [setVnode, Function.update_of_ne hba] using r.live b hb
  · have hba : b ≠ a := by
      rintro rfl
      exact absurd (r.lt_next hv) (Nat.not_lt.mpr hb)
    exact (Function.update_of_ne hba _ _).trans (r.fresh b hb)

/-! ## Path resolution

One component, then a walk, then `vfs_lookup`.
-/

/-- What the caller holds after an outcome: the vnode found, if any. -/
def outcome (held : List Nat) : Except Errno Nat → List Nat
  | .ok a    => a :: held
  | .error _ => held

theorem swap (r : Refs s (a :: b :: held) D) : Refs s (b :: a :: held) D := r.perm (List.Perm.swap b a held)

theorem opsLookup {dir : Nat} {name : Path} {res : Except Errno Nat} (r : Refs s held D)
    (h : s.opsLookup dir name = some (res, s')) : Refs s' (outcome held res) D ∧ Steady s' s := by
  rcases opsLookup_cases h with ⟨e, rfl, rfl⟩ | ⟨a, rfl, hget⟩ | ⟨a, d, rfl, halloc⟩
  · exact ⟨r, Steady.refl _⟩
  · exact r.get hget
  · obtain ⟨r', f, -⟩ := r.alloc halloc
    exact ⟨r', f⟩

end Refs

/-- An account of the references held that `vnode_get`, `vnode_put` and `ops->lookup` keep. -/
structure Balanced (P : Vfs → List Nat → Prop) (lookup : LookupOp) : Prop where
  get    : ∀ {s s' : Vfs} {held : List Nat} {a : Nat}, P s held → s.get a = some s' → P s' (a :: held)
  put    : ∀ {s s' : Vfs} {held : List Nat} {a : Nat}, P s (a :: held) → s.put a = some s' → P s' held
  swap   : ∀ {s : Vfs} {held : List Nat} {a b : Nat}, P s (a :: b :: held) → P s (b :: a :: held)
  lookup : ∀ {s s' : Vfs} {held : List Nat} {dir : Nat} {name : Path} {res : Except Errno Nat}, P s held →
    lookup s dir name = some (res, s') → P s' (Refs.outcome held res)

namespace Balanced

variable {P : Vfs → List Nat → Prop} {lookup : LookupOp} {s s' : Vfs} {held : List Nat} {cur b : Nat}

theorem cross (hP : Balanced P lookup) (r : P s (cur :: held)) (h : s.cross cur = some (b, s')) :
    P s' (b :: held) := by
  obtain ⟨v, hv, h⟩ := Option.bind_eq_some_iff.mp h
  cases hm : v.data.mount with
  | none =>
      rw [hm] at h
      cases h
      exact r
  | some mp =>
      rw [hm] at h
      obtain ⟨s₁, h₁, h⟩ := Option.bind_eq_some_iff.mp h
      obtain ⟨s₂, h₂, h⟩ := Option.bind_eq_some_iff.mp h
      cases h
      exact hP.get (hP.put r h₁) h₂

theorem enter {name : Path} {res : Except Errno Nat} (hP : Balanced P lookup) (r : P s (cur :: held))
    (h : s.enter cur name lookup = some (res, s')) : P s' (Refs.outcome held res) := by
  obtain ⟨⟨res', s₁⟩, h₁, h⟩ := Option.bind_eq_some_iff.mp h
  obtain ⟨s₂, h₂, h⟩ := Option.bind_eq_some_iff.mp h
  cases h
  have r₁ := hP.lookup r h₁
  cases res with
  | ok child => exact hP.put (hP.swap r₁) h₂
  | error e => exact hP.put r₁ h₂

/-- **One component** of a path: the reference moves on, or is given back with an error. -/
theorem component {c : Path} {res : Except Errno Nat} (hP : Balanced P lookup) (r : P s (cur :: held))
    (h : s.component cur c lookup = some (res, s')) : P s' (Refs.outcome held res) := by
  unfold Vfs.component at h
  split at h
  · obtain ⟨s₁, h₁, h⟩ := Option.bind_eq_some_iff.mp h
    cases h
    exact hP.put r h₁
  · obtain ⟨⟨cur', s₁⟩, h₁, h⟩ := Option.bind_eq_some_iff.mp h
    have r₁ := hP.cross r h₁
    obtain ⟨v, -, h⟩ := Option.bind_eq_some_iff.mp h
    split at h
    · cases h
      exact r₁
    · split at h
      · split at h
        · obtain ⟨s₂, h₂, h⟩ := Option.bind_eq_some_iff.mp h
          obtain ⟨s₃, h₃, h⟩ := Option.bind_eq_some_iff.mp h
          cases h
          exact hP.get (hP.put r₁ h₂) h₃
        · split at h
          · exact hP.enter r₁ h
          · cases h
            exact r₁
      · split at h
        · exact hP.enter r₁ h
        · obtain ⟨s₂, h₂, h⟩ := Option.bind_eq_some_iff.mp h
          cases h
          exact hP.put r₁ h₂

theorem walk {cs : List Path} {res : Except Errno Nat} (hP : Balanced P lookup) (r : P s (cur :: held))
    (h : Vfs.walk cs cur s lookup = some (res, s')) : P s' (Refs.outcome held res) := by
  induction cs generalizing cur s with
  | nil =>
      obtain ⟨⟨cur', s₁⟩, h₁, h⟩ := Option.bind_eq_some_iff.mp h
      cases h
      exact hP.cross r h₁
  | cons c cs ih =>
      obtain ⟨⟨res₁, s₁⟩, h₁, h⟩ := Option.bind_eq_some_iff.mp h
      have r₁ := hP.component r h₁
      cases res₁ with
      | ok cur' => exact ih r₁ h
      | error e =>
          cases h
          exact r₁

theorem vfsLookup {start : Option Nat} {path : Path} {res : Except Errno Nat} (hP : Balanced P lookup) (r : P s held)
    (h : s.vfsLookup start path lookup = some (res, s')) : P s' (Refs.outcome held res) := by
  unfold Vfs.vfsLookup at h
  split at h
  · cases h
    exact r
  · obtain ⟨s₁, h₁, h⟩ := Option.bind_eq_some_iff.mp h
    exact hP.walk (hP.get r h₁) h

end Balanced

namespace Refs

variable {s s' : Vfs} {held : List Nat} {D : Pins} {cur : Nat}

theorem balanced (s : Vfs) (D : Pins) : Balanced (fun s' held => Refs s' held D ∧ Steady s' s) Vfs.opsLookup where
  get r h := by
    obtain ⟨r₁, f₁⟩ := r.1.get h
    exact ⟨r₁, f₁.trans r.2⟩
  put r h := by
    obtain ⟨r₁, f₁⟩ := r.1.put h
    exact ⟨r₁, f₁.trans r.2⟩
  swap r := ⟨r.1.swap, r.2⟩
  lookup r h := by
    obtain ⟨r₁, f₁⟩ := r.1.opsLookup h
    exact ⟨r₁, f₁.trans r.2⟩

theorem component {c : Path} {res : Except Errno Nat} (r : Refs s (cur :: held) D)
    (h : s.component cur c = some (res, s')) : Refs s' (outcome held res) D ∧ Steady s' s :=
  (balanced s D).component ⟨r, Steady.refl s⟩ h

theorem walk {cs : List Path} {res : Except Errno Nat} (r : Refs s (cur :: held) D)
    (h : Vfs.walk cs cur s = some (res, s')) : Refs s' (outcome held res) D ∧ Steady s' s :=
  (balanced s D).walk ⟨r, Steady.refl s⟩ h

/-- **`vfs_lookup`** hands out one reference, or none with an error, and changes nothing that is pinned. -/
theorem vfsLookup {start : Option Nat} {path : Path} {res : Except Errno Nat} (r : Refs s held D)
    (h : s.vfsLookup start path = some (res, s')) : Refs s' (outcome held res) D ∧ Steady s' s :=
  (balanced s D).vfsLookup ⟨r, Steady.refl s⟩ h

end Refs

end MyUnix.Fs
