import MyUnix.Fs.VfsOpen
import Mathlib.Data.List.Nodup

/-!
# `Fs.InitrdTree` — the archive as a tree

`initrd_vn_lookup` compares strings: in the directory `pre`, a name matches every entry that is `pre/name` or starts
with `pre/name/`, and the first match in the archive is taken. Read as lists of components, an entry matches when the
components so far and the name are a *prefix* of its own (`initrdMatches_iff`), so the first match is the entry itself
as soon as each directory is listed before what it holds. This is the order of `find .` (`FindOrder`), and under it
the walk of `vfs_lookup` resolves a path to the entry of that name and to nothing else.

Each component gets a vnode of its own, which the walk gives back when it goes on; where `kfree` finds no header in front
of it, the lookup ends in a panic (`WayHeaded`).

The walk makes a vnode for each component and gives the one before it back. So what is needed of a lookup that
succeeds is more than the right names: memory for the vnodes on the way, and a `kfree` that returns for those that are
left behind. The statement has both, the second as an exact condition; the lookups that return do so with the right
answer in any case.
-/

namespace MyUnix.Fs

open Vfs

/-- A name that is neither `.` nor `..` and that a path can hold as a component. -/
structure Plain (c : Path) : Prop where
  ne_nil    : c ≠ []
  no_slash  : '/' ∉ c
  length_le : c.length ≤ nameMax
  ne_dot    : c ≠ dot
  ne_dotDot : c ≠ dotDot

/-- The components with slashes between them. -/
def joinPath (cs : List Path) : Path := ['/'].intercalate cs

/-- **The order of `find .`**: names without repetition, made of plain components, and each directory is listed
    before what it holds. -/
structure FindOrder (entries : List InitrdEntry) : Prop where
  unique    : (entries.map InitrdEntry.name).Nodup
  names     : ∀ e ∈ entries, e.name = joinPath (components e.name) ∧ ∀ c ∈ components e.name, Plain c
  ancestors : ∀ (i : Nat) (e : InitrdEntry), entries[i]? = some e → ∀ ps, ps <+: components e.name → ps ≠ [] →
    ps ≠ components e.name →
    ∃ (j : Nat) (d : InitrdEntry), j < i ∧ entries[j]? = some d ∧ components d.name = ps ∧ d.isDir = true

/-- The root directory is that of the archive, and nothing is mounted on it. -/
structure InitrdRoot (s : Vfs) (root : Nat) : Prop where
  rootVn : s.rootVn = some root
  vnode  : ∃ v, s.vnodes root = some v ∧ v.data.ops = .initrd ∧ v.data.priv = none ∧ v.data.mount = none ∧
    1 ≤ v.refcount
  fresh  : ∀ a, s.next ≤ a → s.vnodes a = none

/-! ## Paths and components

Splitting a path at its slashes, dropping `.`, and putting components together again.
-/

section
variable {c : Path} {cs ps qs : List Path}

@[simp] theorem joinPath_nil : joinPath [] = [] := rfl

@[simp] theorem joinPath_singleton (c : Path) : joinPath [c] = c := by
  simp [joinPath, List.intercalate]

theorem joinPath_cons (c : Path) (hcs : cs ≠ []) : joinPath (c :: cs) = c ++ '/' :: joinPath cs := by
  cases cs with
  | nil => exact absurd rfl hcs
  | cons d ds => simp [joinPath, List.intercalate]

theorem joinPath_append (hps : ps ≠ []) (hqs : qs ≠ []) : joinPath (ps ++ qs) = joinPath ps ++ '/' :: joinPath qs := by
  induction ps with
  | nil => exact absurd rfl hps
  | cons p ps ih =>
      by_cases hnil : ps = []
      · subst hnil
        rw [List.singleton_append, joinPath_cons p hqs, joinPath_singleton]
      · rw [List.cons_append, joinPath_cons p (by simp [hnil]), joinPath_cons p hnil, ih hnil]
        simp

theorem componentsFrom_plain (hc : '/' ∉ c) (acc : Path) : componentsFrom acc c = if acc ++ c = [] then [] else [acc ++ c] := by
  induction c generalizing acc with
  | nil => simp [componentsFrom]
  | cons x c ih =>
      have hx : x ≠ '/' := fun e => hc (by simp [e])
      have hrest : '/' ∉ c := fun hm => hc (List.mem_cons_of_mem _ hm)
      rw [componentsFrom, if_neg hx, ih hrest]
      simp

theorem components_name (hc : '/' ∉ c) (hne : c ≠ []) : components c = [c] := by
  rw [components, componentsFrom_plain hc, List.nil_append, if_neg hne]

theorem components_plain (hc : Plain c) : components c = [c] := components_name hc.no_slash hc.ne_nil

/-- **Joining and splitting.** -/
theorem components_joinPath (hcs : ∀ c ∈ cs, Plain c) : components (joinPath cs) = cs := by
  induction cs with
  | nil => rfl
  | cons c cs ih =>
      have hc := hcs c (by simp)
      have htail := ih fun d hd => hcs d (List.mem_cons_of_mem _ hd)
      by_cases hnil : cs = []
      · subst hnil
        rw [joinPath_singleton, components_plain hc]
      · rw [joinPath_cons c hnil, components_append, components_plain hc, htail]
        rfl

/-- Whether a name is the first component of a path, as `initrd_vn_lookup` finds out. -/
theorem head_joinPath_iff (hc : '/' ∉ c) (hqs : ∀ q ∈ qs, Plain q) (hne : qs ≠ []) :
    (joinPath qs = c ∨ ('/' ∈ joinPath qs ∧ (joinPath qs).takeWhile (· ≠ '/') = c)) ↔ [c] <+: qs := by
  obtain ⟨q, qs, rfl⟩ := List.exists_cons_of_ne_nil hne
  have hq := hqs q (by simp)
  have htake : ∀ rest : Path, (q ++ '/' :: rest).takeWhile (· ≠ '/') = q := by
    intro rest
    rw [List.takeWhile_append_of_pos (fun x hx => by
      simp only [ne_eq, decide_eq_true_eq]
      rintro rfl
      exact hq.no_slash hx)]
    simp
  by_cases hnil : qs = []
  · subst hnil
    rw [joinPath_singleton]
    constructor
    · rintro (rfl | ⟨hs, -⟩)
      · exact List.prefix_rfl
      · exact absurd hs hq.no_slash
    · intro hpre
      obtain ⟨rest, hrest⟩ := hpre
      simp only [List.singleton_append, List.cons.injEq] at hrest
      exact Or.inl hrest.1.symm
  · rw [joinPath_cons q hnil, htake]
    constructor
    · rintro (rfl | ⟨-, rfl⟩)
      · exact absurd (by simp) hc
      · exact ⟨qs, rfl⟩
    · rintro ⟨rest, hrest⟩
      simp only [List.singleton_append, List.cons.injEq] at hrest
      exact Or.inr ⟨by simp, hrest.1.symm⟩

/-- What matches in the root directory. -/
theorem initrdMatches_root (hne : c ≠ []) (hc : '/' ∉ c) (hqs : ∀ q ∈ qs, Plain q) :
    initrdMatches [] c (joinPath qs) = true ↔ [c] <+: qs := by
  by_cases hnil : qs = []
  · subst hnil
    simp [initrdMatches, Ne.symm hne]
  · rw [← head_joinPath_iff hc hqs hnil]
    simp only [initrdMatches, true_or, if_true, decide_eq_true_eq]
    refine or_congr_left' fun hno => ?_
    constructor
    · exact And.right
    · intro he
      exact ⟨he ▸ hc, he⟩

theorem joinPath_ne_root (hps : ∀ p ∈ ps, Plain p) (hnil : ps ≠ []) : ¬(joinPath ps = [] ∨ joinPath ps = dot) := by
  have hback := components_joinPath hps
  rintro (he | he)
  · rw [he] at hback
    exact hnil hback.symm
  · rw [he] at hback
    have hps' : ps = [dot] := hback.symm
    exact (hps dot (by simp [hps'])).ne_dot rfl

/-- A path that begins with another one and a slash has the components of the first and those of the rest. -/
theorem joinPath_split (hps : ∀ p ∈ ps, Plain p) (hnil : ps ≠ []) (hqs : ∀ q ∈ qs, Plain q) (rest : Path)
    (hq : joinPath qs = joinPath ps ++ '/' :: rest) :
    qs = ps ++ components rest ∧ components rest ≠ [] ∧ rest = joinPath (components rest) := by
  have hcomp : qs = ps ++ components rest := by
    have := components_joinPath hqs
    rw [hq, components_append, components_joinPath hps] at this
    exact this.symm
  have hne : components rest ≠ [] := by
    intro he
    rw [he, List.append_nil] at hcomp
    rw [hcomp] at hq
    have := congrArg List.length hq
    simp at this
  refine ⟨hcomp, hne, ?_⟩
  rw [hcomp, joinPath_append hnil hne] at hq
  simpa using hq.symm

/-- **What matches in a directory**, by components. -/
theorem initrdMatches_iff (hps : ∀ p ∈ ps, Plain p) (hnec : c ≠ []) (hc : '/' ∉ c) (hqs : ∀ q ∈ qs, Plain q) :
    initrdMatches (joinPath ps) c (joinPath qs) = true ↔ ps ++ [c] <+: qs := by
  by_cases hnil : ps = []
  · subst hnil
    exact initrdMatches_root hnec hc hqs
  · have hskip : (joinPath ps).length + 1 = (joinPath ps ++ ['/']).length := by simp
    simp only [initrdMatches, if_neg (joinPath_ne_root hps hnil), decide_eq_true_eq, List.isPrefixOf_iff_prefix, hskip]
    constructor
    · rintro ⟨⟨rest, hrest⟩, hhead⟩
      obtain ⟨hcomp, hne, hjoin⟩ := joinPath_split hps hnil hqs rest (by rw [← hrest]; simp)
      have hplain : ∀ q ∈ components rest, Plain q := fun q hq => hqs q (by rw [hcomp]; simp [hq])
      rw [← hrest, List.drop_left, hjoin, head_joinPath_iff hc hplain hne] at hhead
      rw [hcomp]
      exact (List.prefix_append_right_inj ps).mpr hhead
    · rintro ⟨rs, rfl⟩
      have hrs : ∀ q ∈ c :: rs, Plain q := by
        intro q hq
        apply hqs
        rw [List.append_assoc]
        exact List.mem_append_right _ hq
      have hq : joinPath (ps ++ [c] ++ rs) = joinPath ps ++ ['/'] ++ joinPath (c :: rs) := by
        rw [List.append_assoc, List.singleton_append, joinPath_append hnil (by simp)]
        simp
      rw [hq, List.drop_left]
      exact ⟨List.prefix_append _ _, (head_joinPath_iff hc hrs (by simp)).mpr ⟨rs, rfl⟩⟩

end

/-! ## The first match

A directory is listed before what it holds, so an entry comes before all that begin with its name.
-/

namespace FindOrder

variable {entries : List InitrdEntry} {e : InitrdEntry} {c : Path} {cs ps : List Path} {i j : Nat}

theorem matches_iff (h : FindOrder entries) (hps : ∀ p ∈ ps, Plain p) (hc : Plain c) (he : e ∈ entries) :
    initrdMatches (joinPath ps) c e.name = true ↔ ps ++ [c] <+: components e.name := by
  obtain ⟨hname, hplain⟩ := h.names e he
  rw [hname, initrdMatches_iff hps hc.ne_nil hc.no_slash hplain, components_joinPath hplain]

/-- **The first match is the entry itself**: an entry below it would come after it. -/
theorem findIdx_some (h : FindOrder entries) (hps : ∀ p ∈ ps, Plain p) (hc : Plain c)
    (hf : entries.findIdx? (fun e => initrdMatches (joinPath ps) c e.name) = some i) :
    ∃ e, entries[i]? = some e ∧ components e.name = ps ++ [c] := by
  obtain ⟨hi, hmatch, hfirst⟩ := List.findIdx?_eq_some_iff_getElem.mp hf
  have hpre := (h.matches_iff hps hc (List.getElem_mem hi)).mp hmatch
  refine ⟨entries[i], List.getElem?_eq_getElem hi, ?_⟩
  by_contra hne
  obtain ⟨j, d, hj, hd, hcomp, -⟩ :=
    h.ancestors i entries[i] (List.getElem?_eq_getElem hi) (ps ++ [c]) hpre (by simp) (Ne.symm hne)
  obtain ⟨hjlt, hjd⟩ := List.getElem?_eq_some_iff.mp hd
  have hjcomp : components entries[j].name = ps ++ [c] := by
    rw [hjd]
    exact hcomp
  exact hfirst j hj ((h.matches_iff hps hc (List.getElem_mem hjlt)).mpr ⟨[], by rw [hjcomp, List.append_nil]⟩)

/-- Without a match nothing has the name, nor lies below it. -/
theorem findIdx_none (h : FindOrder entries) (hps : ∀ p ∈ ps, Plain p) (hc : Plain c)
    (hf : entries.findIdx? (fun e => initrdMatches (joinPath ps) c e.name) = none) (he : e ∈ entries) :
    ¬ps ++ [c] <+: components e.name := by
  intro hpre
  have hno := List.findIdx?_eq_none_iff.mp hf e he
  rw [(h.matches_iff hps hc he).mpr hpre] at hno
  cases hno

/-- An entry has a name exactly when it has its components. -/
theorem name_iff (h : FindOrder entries) (he : e ∈ entries) (hcs : ∀ c ∈ cs, Plain c) :
    e.name = joinPath cs ↔ components e.name = cs := by
  constructor
  · intro heq
    rw [heq, components_joinPath hcs]
  · intro heq
    rw [← heq]
    exact (h.names e he).1

theorem index_unique (h : FindOrder entries) {d : InitrdEntry} (hi : entries[i]? = some e) (hj : entries[j]? = some d)
    (hname : e.name = d.name) : i = j := by
  obtain ⟨hil, hie⟩ := List.getElem?_eq_some_iff.mp hi
  obtain ⟨hjl, hjd⟩ := List.getElem?_eq_some_iff.mp hj
  have hi' : i < (entries.map InitrdEntry.name).length := by rwa [List.length_map]
  have hj' : j < (entries.map InitrdEntry.name).length := by rwa [List.length_map]
  have hat : (entries.map InitrdEntry.name)[i] = (entries.map InitrdEntry.name)[j] := by
    rw [List.getElem_map, List.getElem_map, hie, hjd, hname]
  exact h.unique.getElem_inj_iff.mp hat

end FindOrder

/-! ## The walk

The invariant is where the walk stands: at the root, or at a new vnode for the entry of the components so far, with
one reference.
-/

/-- An entry has the components `ps` for its name. -/
def Names (entries : List InitrdEntry) (ps : List Path) : Prop := ∃ e ∈ entries, e.name = joinPath ps

/-- `kfree` finds the headers of the vnodes that a walk along `ps` makes and leaves behind again, from the component `n`
    on. The vnode of the component `j` is the `j`-th that the walk makes. -/
def WayHeaded (s : Vfs) (n : Nat) (ps : List Path) : Prop :=
  ∀ j, n ≤ j + 1 → j + 1 < ps.length → Names s.entries (ps.take (j + 1)) → s.headed (s.next + j) = true

/-- A walk from `s` has come to `cur` by the components `ps`: to the root, or to a new vnode for the entry of that name. -/
structure Reached (s : Vfs) (root : Nat) (t : Vfs) (ps : List Path) (cur : Nat) : Prop where
  same   : t.entries = s.entries
  headed : t.headed = s.headed
  next   : t.next = s.next + ps.length
  fresh  : ∀ a, t.next ≤ a → t.vnodes a = none
  plain  : ∀ p ∈ ps, Plain p
  here   : (ps = [] ∧ cur = root ∧ ∃ v, t.vnodes cur = some v ∧ v.data.ops = .initrd ∧ v.data.priv = none ∧
      v.data.mount = none ∧ 2 ≤ v.refcount) ∨
    ∃ (i : Nat) (e : InitrdEntry), ps ≠ [] ∧ s.entries[i]? = some e ∧ components e.name = ps ∧
      cur + 1 = s.next + ps.length ∧ t.vnodes cur = some ⟨initrdVnode s.entries i, 1⟩

namespace Reached

variable {root cur : Nat} {s t : Vfs} {ps qs cs : List Path} {c : Path}

/-- Where the walk stands there is a directory of the archive, and its prefix is the path so far. -/
theorem vnode (r : Reached s root t ps cur) (h : FindOrder s.entries) :
    ∃ v, t.vnodes cur = some v ∧ v.data.ops = .initrd ∧ v.data.mount = none ∧
      t.initrdPrefix v.data.priv = joinPath ps := by
  rcases r.here with ⟨rfl, -, v, hv, hops, hpriv, hmount, -⟩ | ⟨i, e, -, hi, hcomp, -, hv⟩
  · exact ⟨v, hv, hops, hmount, by rw [hpriv]; rfl⟩
  · refine ⟨_, hv, rfl, rfl, ?_⟩
    have hname := (h.names e (List.mem_of_getElem? hi)).1
    simp only [initrdVnode, initrdPrefix, r.same, hi, Option.map_some, Option.getD_some]
    rw [hname, hcomp]

/-- The root keeps its other references; the vnode of an entry goes to `kfree` when the walk leaves it. -/
theorem leave (r : Reached s root t ps cur) {u : Vfs} (hcur : u.vnodes cur = t.vnodes cur) (hhead : u.headed = t.headed) :
    ((ps ≠ [] → s.headed cur = true) ∧ ∃ w, u.put cur = some (u.setVnode cur w)) ∨
      (ps ≠ [] ∧ s.headed cur = false ∧ u.put cur = none) := by
  have hput : ∀ v, u.vnodes cur = some v → (v.refcount = 1 → u.headed cur = true) →
      ∃ w, u.put cur = some (u.setVnode cur w) := by
    intro v hv hlast
    exact ⟨_, by rw [put_eq_drop hv hlast, Vfs.drop, hv]; rfl⟩
  rcases r.here with ⟨hnil, -, v, hv, -, -, -, hrefs⟩ | ⟨i, e, hne, -, -, -, hv⟩
  · exact .inl ⟨fun hne => absurd hnil hne, hput v (hcur.trans hv) fun hone => absurd hone (by omega)⟩
  · have hu : u.headed cur = s.headed cur := by rw [hhead, r.headed]
    cases hbare : s.headed cur with
    | true => exact .inl ⟨fun _ => rfl, hput _ (hcur.trans hv) fun _ => hu.trans hbare⟩
    | false =>
      refine .inr ⟨hne, rfl, ?_⟩
      rw [Vfs.put, hcur.trans hv]
      exact if_pos ⟨rfl, hu.trans hbare⟩

/-- What is asked of the way from here on, step by step. -/
theorem wayHeaded_succ (r : Reached s root t ps cur) (h : FindOrder s.entries) (hlt : ps.length < qs.length)
    (hpre : qs.take ps.length = ps) :
    WayHeaded s ps.length qs ↔ (ps ≠ [] → s.headed cur = true) ∧ WayHeaded s (ps.length + 1) qs := by
  constructor
  · intro hway
    refine ⟨fun hne => ?_, fun j hj => hway j (Nat.le_of_succ_le hj)⟩
    obtain ⟨i, e, -, hi, hcomp, hcur, -⟩ := r.here.resolve_left fun hroot => hne hroot.1
    obtain ⟨k, hk⟩ := Nat.exists_eq_succ_of_ne_zero (Nat.ne_of_gt (List.length_pos_iff.2 hne))
    have hnames : Names s.entries (qs.take (k + 1)) := by
      have he := List.mem_of_getElem? hi
      refine ⟨e, he, (h.names e he).1.trans ?_⟩
      rw [hcomp, show k + 1 = ps.length from hk.symm, hpre]
    have hat := hway k (by omega) (by omega) hnames
    rwa [show s.next + k = cur by omega] at hat
  · rintro ⟨hhere, hway⟩ j hj hjlt hnames
    rcases Nat.lt_or_eq_of_le hj with hj | hj
    · exact hway j hj hjlt hnames
    · have hne : ps ≠ [] := List.length_pos_iff.1 (by omega)
      obtain ⟨i, e, -, -, -, hcur, -⟩ := r.here.resolve_left fun hroot => hne hroot.1
      rw [show s.next + j = cur by omega]
      exact hhere hne

/-! ## One component, and the whole walk

The vnode that the walk leaves goes to `kfree`; whether this returns is asked of each of them in turn.
-/

/-- **One component**: on to the entry of that name if there is one, else nothing below lies in the archive. Either way
    the vnode before is left, where `kfree` may panic. -/
theorem component (r : Reached s root t ps cur) (h : FindOrder s.entries) (hc : Plain c) (hroom : 0 < t.room) :
    ((ps ≠ [] → s.headed cur = true) ∧
      ((∃ a t', t.component cur c = some (.ok a, t') ∧ Reached s root t' (ps ++ [c]) a ∧ t'.room + 1 = t.room) ∨
        ∃ t', t.component cur c = some (.error .noEnt, t') ∧ ∀ e ∈ s.entries, ¬ps ++ [c] <+: components e.name)) ∨
      (ps ≠ [] ∧ s.headed cur = false ∧ t.component cur c = none) := by
  obtain ⟨v, hv, hops, hmount, hprefix⟩ := r.vnode h
  have hstep : t.component cur c = t.enter cur c := by
    rw [component_enter hv hmount (by rw [hops]; rfl) hc.ne_dot (Or.inl hc.ne_dotDot),
      if_neg (Nat.not_lt.mpr hc.length_le)]
  rw [hstep]
  simp only [Vfs.enter, Vfs.opsLookup, hv, hops, Option.bind_eq_bind, Option.bind_some, Option.pure_def,
    Vfs.initrdLookup, hprefix, r.same]
  cases hf : s.entries.findIdx? fun e => initrdMatches (joinPath ps) c e.name with
  -- no entry has this name: the vnode is left, and the walk fails
  | none =>
      rcases r.leave (u := t) rfl rfl with ⟨hway, w, hw⟩ | ⟨hne, hbare, hpanic⟩
      · exact .inl ⟨hway, .inr ⟨t.setVnode cur w, by simp [hw], fun e he => h.findIdx_none r.plain hc hf he⟩⟩
      · exact .inr ⟨hne, hbare, by simp [hpanic]⟩
  | some i =>
      -- the first match is the entry itself; its vnode is made before the old one is left
      obtain ⟨e, hi, hcomp⟩ := h.findIdx_some r.plain hc hf
      have hcur : cur < t.next := by
        by_contra hge
        rw [r.fresh cur (Nat.le_of_not_lt hge)] at hv
        cases hv
      have hne : cur ≠ t.next := Nat.ne_of_lt hcur
      obtain ⟨u, hu⟩ : ∃ u, u = Vfs.setVnode { t with next := t.next + 1, room := t.room - 1 } t.next
        (some ⟨initrdVnode s.entries i, 1⟩) := ⟨_, rfl⟩
      have halloc : t.vnodeAlloc (initrdVnode s.entries i) = some (t.next, u) := by
        rw [hu]
        simp [Vfs.vnodeAlloc, Vfs.kzalloc, Nat.ne_of_gt hroom]
      have hold : ∀ a, a ≠ t.next → u.vnodes a = t.vnodes a := by
        intro a ha
        rw [hu]
        exact Function.update_of_ne ha _ _
      have hhead : u.headed = t.headed := by rw [hu]; rfl
      rcases r.leave (hold cur hne) hhead with ⟨hway, w, hw⟩ | ⟨hnil, hbare, hpanic⟩
      · -- the walk stands at the new vnode, and everything above it is unused still
        refine .inl ⟨hway, .inl ⟨t.next, u.setVnode cur w, by simp [halloc, hw],
          ⟨?_, hhead.trans r.headed, ?_, fun a ha => ?_, ?_, Or.inr ⟨i, e, by simp, hi, hcomp, ?_, ?_⟩⟩, ?_⟩⟩
        · rw [hu]
          exact r.same
        · have hnext := r.next
          rw [hu, List.length_append, List.length_singleton]
          show t.next + 1 = _
          omega
        · have ha' : t.next + 1 ≤ a := by
            rw [hu] at ha
            exact ha
          show Function.update u.vnodes cur w a = none
          rw [Function.update_of_ne (by omega), hold a (by omega)]
          exact r.fresh a (by omega)
        · intro p hp
          rcases List.mem_append.mp hp with hp | hp
          · exact r.plain p hp
          · rw [List.mem_singleton.mp hp]
            exact hc
        · rw [List.length_append, List.length_singleton, r.next, Nat.add_assoc]
        · show Function.update u.vnodes cur w t.next = _
          rw [Function.update_of_ne hne.symm, hu]
          exact Function.update_self _ _ _
        · show u.room + 1 = t.room
          rw [hu]
          exact Nat.sub_add_cancel hroom
      · exact .inr ⟨hnil, hbare, by simp [halloc, hpanic]⟩

/-- Behind a component that leads nowhere no vnode is made. -/
theorem wayHeaded_noEnt (hplain : ∀ q ∈ ps ++ [c] ++ qs, Plain q)
    (hno : ∀ e ∈ s.entries, ¬ps ++ [c] <+: components e.name) : WayHeaded s (ps.length + 1) (ps ++ [c] ++ qs) := by
  rintro j hj - ⟨e, he, hname⟩
  have htake : components e.name = (ps ++ [c] ++ qs).take (j + 1) := by
    rw [hname, components_joinPath fun q hq => hplain q (List.mem_of_mem_take hq)]
  refine absurd ?_ (hno e he)
  rw [htake, List.prefix_take_iff]
  exact ⟨List.prefix_append _ _, by rw [List.length_append, List.length_singleton]; exact hj⟩

/-- **The whole walk.** It comes to its end, or to a component that leads nowhere, unless `kfree` panics on the way. -/
theorem walk (r : Reached s root t ps cur) (h : FindOrder s.entries) (hcs : ∀ c ∈ cs, c = dot ∨ Plain c)
    (hroom : cs.length ≤ t.room) (hqs : ps ++ cs.filter (· ≠ dot) = qs) :
    (WayHeaded s ps.length qs ∧
      ((∃ a t', Vfs.walk cs cur t = some (.ok a, t') ∧ Reached s root t' qs a) ∨
        ∃ t', Vfs.walk cs cur t = some (.error .noEnt, t') ∧ qs ≠ [] ∧ ∀ e ∈ s.entries, components e.name ≠ qs)) ∨
      (¬WayHeaded s ps.length qs ∧ Vfs.walk cs cur t = none) := by
  -- by induction on the components that are left, from the place where the walk stands
  induction cs generalizing cur t ps with
  | nil =>
      obtain ⟨v, hv, -, hmount, -⟩ := r.vnode h
      obtain rfl : ps = qs := by simpa using hqs
      refine .inl ⟨fun j hj hlt => absurd hj (by omega), .inl ⟨cur, t, ?_, r⟩⟩
      simp [Vfs.walk, cross_none hv hmount]
  | cons c cs ih =>
      have hrest : ∀ d ∈ cs, d = dot ∨ Plain d := fun d hd => hcs d (List.mem_cons_of_mem _ hd)
      simp only [List.length_cons] at hroom
      rcases hcs c List.mem_cons_self with rfl | hc
      · -- `.` stays where it is and makes no vnode
        obtain ⟨v, hv, -, hmount, -⟩ := r.vnode h
        have hstay : Vfs.walk (dot :: cs) cur t = Vfs.walk cs cur t := by
          show (t.component cur dot).bind _ = _
          rw [component_dot hv hmount]
          rfl
        rw [hstay]
        exact ih r hrest (by omega) (by simpa using hqs)
      · have hcomps : ps ++ [c] ++ cs.filter (· ≠ dot) = qs := by
          rw [← hqs]
          simp [hc.ne_dot]
        have hlt : ps.length < qs.length := by
          rw [← hcomps]
          simp
        have hpre : qs.take ps.length = ps := by
          rw [← hcomps, List.append_assoc, List.take_left]
        rw [r.wayHeaded_succ h hlt hpre]
        rcases r.component h hc (by omega) with ⟨hway, ⟨a, t', hstep, r', hleft⟩ | ⟨t', hstep, hno⟩⟩ | ⟨hne, hbare, hstep⟩
        · -- an entry: the walk goes on at its vnode
          have hon : Vfs.walk (c :: cs) cur t = Vfs.walk cs a t' := by
            show (t.component cur c).bind _ = _
            rw [hstep]
            rfl
          rw [hon, and_iff_right hway]
          have hnext := ih r' hrest (by omega) hcomps
          rwa [List.length_append, List.length_singleton] at hnext
        · -- no entry, and so none below it either
          have hplain : ∀ q ∈ ps ++ [c] ++ cs.filter (· ≠ dot), Plain q := by
            intro q hq
            rcases List.mem_append.mp hq with hq | hq
            · rcases List.mem_append.mp hq with hq | hq
              · exact r.plain q hq
              · rw [List.mem_singleton.mp hq]
                exact hc
            · obtain ⟨hmem, hnedot⟩ := List.mem_filter.mp hq
              exact (hrest q hmem).resolve_left (by simpa using hnedot)
          have hbehind := wayHeaded_noEnt hplain hno
          rw [hcomps] at hbehind
          refine .inl ⟨⟨hway, hbehind⟩, .inr ⟨t', ?_, ?_, fun e he heq => hno e he ?_⟩⟩
          · show (t.component cur c).bind _ = _
            rw [hstep]
            rfl
          · rw [← hcomps]
            simp
          · rw [heq, ← hcomps]
            exact List.prefix_append _ _
        · -- the vnode that is left has no header in front of it
          refine .inr ⟨fun hway => ?_, ?_⟩
          · rw [hway.1 hne] at hbare
            cases hbare
          · show (t.component cur c).bind _ = _
            rw [hstep]
            rfl

end Reached

/-- The walk starts at the root, with a reference of its own. -/
theorem InitrdRoot.reached {s : Vfs} {root : Nat} (h : InitrdRoot s root) :
    ∃ u, s.get root = some u ∧ u.room = s.room ∧ Reached s root u [] root := by
  obtain ⟨v, hv, hops, hpriv, hmount, hpos⟩ := h.vnode
  refine ⟨s.setVnode root (some ⟨v.data, v.refcount + 1⟩), by simp [Vfs.get, hv], rfl, rfl, rfl, rfl, fun a ha => ?_, by simp,
    Or.inl ⟨rfl, rfl, ⟨v.data, v.refcount + 1⟩, Function.update_self _ _ _, hops, hpriv, hmount, ?_⟩⟩
  · have hfree : s.vnodes a = none := h.fresh a ha
    have hne : a ≠ root := by
      rintro rfl
      rw [hv] at hfree
      cases hfree
    exact (Function.update_of_ne hne _ _).trans hfree
  · show (2 : Int) ≤ v.refcount + 1
    omega

/-! ## The lookup of a path

From the root, for any way of writing the path.
-/

/-- The lookup succeeded exactly if `ps` leads to the root or is the name of an entry, and then with a vnode that shows it. -/
def LooksUp (s : Vfs) (root : Nat) (ps : List Path) (res : Except Errno Nat) (s' : Vfs) : Prop :=
  ((∃ a, res = .ok a) ↔ ps = [] ∨ Names s.entries ps) ∧
  ∀ a, res = .ok a → (ps = [] → a = root) ∧
    ∀ (i : Nat) (e : InitrdEntry), s.entries[i]? = some e → ps ≠ [] → e.name = joinPath ps →
      s'.vnodes a = some ⟨⟨if e.isDir then .dir else .reg, .initrd, some i, none, none, e.attr⟩, 1⟩

/-- **A path leads to the entry of its name.** With the archive as root and memory for the vnodes on the way, a lookup of
    an absolute path of plain components and `.` that returns succeeds exactly when the path leads to the root or is the
    name of an entry, and the vnode found shows that entry. It returns exactly when `kfree` finds the headers of the
    vnodes that it leaves on the way. -/
theorem initrd_lookup_iff (s : Vfs) (root : Nat) (start : Option Nat) (path : Path) (h : FindOrder s.entries)
    (hroot : InitrdRoot s root) (habs : path.head? = some '/') (hcs : ∀ c ∈ components path, c = dot ∨ Plain c)
    (hroom : (components path).length ≤ s.room) :
    ((∃ res s', s.vfsLookup start path = some (res, s') ∧ LooksUp s root ((components path).filter (· ≠ dot)) res s') ↔
      WayHeaded s 0 ((components path).filter (· ≠ dot))) ∧
    ∀ res s', s.vfsLookup start path = some (res, s') → LooksUp s root ((components path).filter (· ≠ dot)) res s' := by
  obtain ⟨u, hget, hroom', hreached⟩ := hroot.reached
  have hwalk : s.vfsLookup start path = Vfs.walk (components path) root u := by
    unfold Vfs.vfsLookup
    rw [if_pos habs, hroot.rootVn]
    simp [hget]
  have hplain : ∀ c ∈ (components path).filter (· ≠ dot), Plain c := by
    intro c hc
    obtain ⟨hmem, hne⟩ := List.mem_filter.mp hc
    exact (hcs c hmem).resolve_left (by simpa using hne)
  rw [hwalk]
  -- the three ends of the walk: at a vnode, nowhere, and in the panic of `kfree`
  have hend := hreached.walk h hcs (by rw [hroom']; exact hroom) (List.nil_append _)
  generalize (components path).filter (· ≠ dot) = qs at hplain hend ⊢
  rcases hend with ⟨hway, ⟨a, t', hres, r'⟩ | ⟨t', hres, hne, hno⟩⟩ | ⟨hway, hnone⟩
  · have hlook : LooksUp s root qs (.ok a) t' := by
      refine ⟨iff_of_true ⟨a, rfl⟩ ?_, ?_⟩
      · rcases r'.here with ⟨hnil, -⟩ | ⟨i, e, -, hi, hcomp, -⟩
        · exact Or.inl hnil
        · have he := List.mem_of_getElem? hi
          exact Or.inr ⟨e, he, (h.name_iff he hplain).mpr hcomp⟩
      · intro b hb
        cases hb
        rcases r'.here with ⟨hnil, hcur, -⟩ | ⟨i, e, hne, hi, hcomp, -, hvn⟩
        · exact ⟨fun _ => hcur, fun i e _ hne => absurd hnil hne⟩
        · refine ⟨fun hnil => absurd hnil hne, fun j d hj _ hd => ?_⟩
          -- names are not repeated, so the vnode is that of this very entry
          have hij : i = j := by
            refine h.index_unique hi hj ?_
            rw [hd, (h.name_iff (List.mem_of_getElem? hi) hplain).mpr hcomp]
          subst hij
          rw [hvn]
          simp [initrdVnode, hj]
    refine ⟨iff_of_true ⟨_, _, hres, hlook⟩ hway, fun res s' hout => ?_⟩
    obtain ⟨rfl, rfl⟩ := Prod.mk.inj (Option.some.inj (hres.symm.trans hout))
    exact hlook
  · have hlook : LooksUp s root qs (.error .noEnt) t' := by
      refine ⟨iff_of_false (fun ⟨a, ha⟩ => by cases ha) ?_, fun a ha => by cases ha⟩
      rintro (hnil | ⟨e, he, heq⟩)
      · exact hne hnil
      · exact hno e he ((h.name_iff he hplain).mp heq)
    refine ⟨iff_of_true ⟨_, _, hres, hlook⟩ hway, fun res s' hout => ?_⟩
    obtain ⟨rfl, rfl⟩ := Prod.mk.inj (Option.some.inj (hres.symm.trans hout))
    exact hlook
  · rw [hnone]
    exact ⟨iff_of_false (fun ⟨_, _, hout, _⟩ => absurd hout nofun) hway, fun _ _ hout => absurd hout nofun⟩

theorem findOrder_binSh : FindOrder binSh := by
  have hbin : Plain ['b', 'i', 'n'] := by constructor <;> decide
  have hsh : Plain ['s', 'h'] := by constructor <;> decide
  refine ⟨by decide, fun e he => ?_, fun i e hi ps hpre hne hproper => ?_⟩
  · have hcases : e.name = joinPath [['b', 'i', 'n']] ∨ e.name = joinPath [['b', 'i', 'n'], ['s', 'h']] := by
      rcases List.mem_cons.mp he with rfl | he
      · exact Or.inl rfl
      · rw [List.mem_singleton.mp he]
        exact Or.inr rfl
    rcases hcases with hname | hname
    · rw [hname, components_joinPath (by simpa using hbin)]
      exact ⟨rfl, by simpa using hbin⟩
    · rw [hname, components_joinPath (by simpa using ⟨hbin, hsh⟩)]
      exact ⟨rfl, by simpa using ⟨hbin, hsh⟩⟩
  · match i with
    | 0 =>
        cases hi
        have hcomps : components ['b', 'i', 'n'] = [['b', 'i', 'n']] := rfl
        rw [hcomps] at hpre hproper
        rcases List.prefix_cons_iff.mp hpre with rfl | ⟨t, rfl, ht⟩
        · exact absurd rfl hne
        · rw [List.prefix_nil.mp ht] at hproper
          exact absurd rfl hproper
    | 1 =>
        cases hi
        have hcomps : components ['b', 'i', 'n', '/', 's', 'h'] = [['b', 'i', 'n'], ['s', 'h']] := rfl
        rw [hcomps] at hpre hproper
        rcases List.prefix_cons_iff.mp hpre with rfl | ⟨t, rfl, ht⟩
        · exact absurd rfl hne
        · rcases List.prefix_cons_iff.mp ht with rfl | ⟨t', rfl, ht'⟩
          · exact ⟨0, _, by decide, rfl, rfl, rfl⟩
          · rw [List.prefix_nil.mp ht'] at hproper
            exact absurd rfl hproper
    | i + 2 => cases hi

theorem initrdRoot_boot (entries : List InitrdEntry) (room : Nat) : InitrdRoot (initrdBoot entries room) 6 where
  rootVn := rfl
  vnode := ⟨_, rfl, rfl, rfl, rfl, by decide⟩
  fresh a ha := Option.map_eq_none_iff.mp ((initrdBoot_wellCounted entries room).fresh a ha)

/-- `//bin/./sh/` leads to the second entry of the archive, if the vnode of `bin` has a header. -/
theorem initrd_lookup_iff_sh :
    ∃ a s', (initrdBoot binSh 5).vfsLookup none ['/', '/', 'b', 'i', 'n', '/', '.', '/', 's', 'h', '/'] =
        some (.ok a, s') ∧
      s'.vnodes a = some ⟨⟨.reg, .initrd, some 1, none, none, ⟨0o100755, 0, 0, 512, 1, 2⟩⟩, 1⟩ := by
  have hbin : Plain ['b', 'i', 'n'] := by constructor <;> decide
  have hsh : Plain ['s', 'h'] := by constructor <;> decide
  have hcomps : components ['/', '/', 'b', 'i', 'n', '/', '.', '/', 's', 'h', '/'] =
      [['b', 'i', 'n'], dot, ['s', 'h']] := rfl
  have hfilter : [['b', 'i', 'n'], dot, ['s', 'h']].filter (· ≠ dot) = [['b', 'i', 'n'], ['s', 'h']] := rfl
  have hlook := (initrd_lookup_iff (initrdBoot binSh 5) 6 none
    ['/', '/', 'b', 'i', 'n', '/', '.', '/', 's', 'h', '/'] findOrder_binSh (initrdRoot_boot binSh 5) rfl
    (by rw [hcomps]; simp [hbin, hsh]) (by decide)).1
  rw [hcomps, hfilter] at hlook
  obtain ⟨res, s', hl, hiff, hvn⟩ := hlook.mpr fun _ _ _ _ => rfl
  obtain ⟨a, rfl⟩ := hiff.mpr (Or.inr ⟨_, List.mem_cons_of_mem _ List.mem_cons_self, rfl⟩)
  exact ⟨a, s', hl, (hvn a rfl).2 1 _ rfl (by simp) rfl⟩

/-- All vnodes are from their slab cache, as `kmalloc` serves them. -/
def slabBoot : Vfs := { initrdBoot binSh 5 with headed := fun _ => false }

/-- `/bin/sh` is the name of an entry, but `kfree` panics when the walk leaves the vnode of `bin`. -/
theorem initrd_lookup_slab_panics :
    FindOrder slabBoot.entries ∧ InitrdRoot slabBoot 6 ∧ Names slabBoot.entries [['b', 'i', 'n'], ['s', 'h']] ∧
      slabBoot.vfsLookup none ['/', 'b', 'i', 'n', '/', 's', 'h'] = none ∧
      ¬∃ res s', slabBoot.vfsLookup none ['/', 'b', 'i', 'n', '/', 's', 'h'] = some (res, s') ∧
        LooksUp slabBoot 6 [['b', 'i', 'n'], ['s', 'h']] res s' := by
  have hroot := initrdRoot_boot binSh 5
  have hnone : slabBoot.vfsLookup none ['/', 'b', 'i', 'n', '/', 's', 'h'] = none := rfl
  refine ⟨findOrder_binSh, ⟨hroot.rootVn, hroot.vnode, hroot.fresh⟩, ⟨_, List.mem_cons_of_mem _ List.mem_cons_self, rfl⟩,
    hnone, ?_⟩
  rintro ⟨res, s', hout, -⟩
  rw [hnone] at hout
  cases hout

end MyUnix.Fs
