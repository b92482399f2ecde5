import MyUnix.Fs.Cpio
import MyUnix.Fs.InitrdTree
import MyUnix.Fs.NameBuf

/-!
# `Fs.InitrdReaddir` — what a directory of the archive lists against what it finds

`initrd_vn_readdir` and `initrd_vn_lookup` each scan the archive with a prefix rule of their own. A listing takes the
entries that are *exactly* one component below the directory, a lookup the first entry that *begins* with that component.
For an archive in the order of `find` the two describe the same children, but for three things: the root lists the entry
of `.` under an empty name, a directory whose own entry found no memory is still there for the lookup, and a name as long
as names may be is copied without its zero.

The comparison needs an archive in which a directory stands before what it holds. `find . | cpio -H newc` makes such
archives, and the second half of the module proves it of the names that `find` prints, so that the condition is met by
what the build of the repository puts there.
-/

namespace MyUnix.Fs

open MyUnix.Lib Vfs

/-! ## `initrd_vn_readdir`

The scan with its own prefix rule, which counts matches up to the index asked for.
-/

/-- `struct dirent`. -/
structure Dirent where
  dIno    : Nat
  dOff    : Int
  dReclen : Nat
  dType   : Nat
  dName   : Buf

/-- `DT_DIR`, `DT_REG` and `sizeof(struct dirent)`. -/
def dtDir : Nat := 4

/-- `DT_REG`. -/
def dtReg : Nat := 8

/-- `sizeof(dirent_t)`. -/
def direntSize : Nat := 280

/-- `child_name` where the entry `ep` matches in the directory with the given prefix. -/
def initrdChildName (pre ep : Path) : Option Path :=
  if pre = [] ∨ pre = dot then
    if '/' ∈ ep then none else some ep
  else if (pre ++ ['/']).isPrefixOf ep then
    if '/' ∈ ep.drop (pre.length + 1) then none else some (ep.drop (pre.length + 1))
  else none

/-- What is written into `*ent_out` for the entry `e`, as the child number `idx`. -/
def initrdDirent (e : InitrdEntry) (child : Path) (idx : Int) (ent : Dirent) : Dirent where
  dIno := e.attr.ino
  dOff := idx + 1
  dReclen := direntSize
  dType := if e.isDir then dtDir else dtReg
  dName := strncpyTo child 0 nameMax ent.dName

/-- The loop of `initrd_vn_readdir`, with `idx` children behind it. -/
def initrdReaddirLoop (pre : Path) (off : Int) (ent : Dirent) : Int → List InitrdEntry → Except Errno Dirent
  | _,   []      => .error .noEnt
  | idx, e :: es =>
    match initrdChildName pre e.name with
    | none       => initrdReaddirLoop pre off ent idx es
    | some child =>
        if idx = off then .ok (initrdDirent e child idx ent) else initrdReaddirLoop pre off ent (idx + 1) es

namespace Vfs

variable (s : Vfs)

/-- `initrd_vn_readdir`, for the entry `dir->private`. -/
def initrdReaddir (priv : Option Nat) (off : Int) (ent : Dirent) : Except Errno Dirent :=
  initrdReaddirLoop (s.initrdPrefix priv) off ent 0 s.entries

end Vfs

/-! ## What the two should agree on

Names and inode numbers, in both directions.
-/

/-- The calls at 0, 1, 2, … until one fails, with the buffer `ent` each time: the names given and their inodes. -/
structure Lists (s : Vfs) (priv : Option Nat) (ent : Dirent) (ls : List (Path × Nat)) : Prop where
  given : ∀ (k : Nat) (name : Path) (ino : Nat), ls[k]? = some (name, ino) →
    '\x00' ∉ name ∧ ∃ d, s.initrdReaddir priv k ent = .ok d ∧ CStr d.dName name ∧ d.dIno = ino
  stop  : ∃ err, s.initrdReaddir priv ls.length ent = .error err

/-- `initrd_vn_lookup` finds the name, as a vnode with this inode. -/
def Finds (s : Vfs) (priv : Option Nat) (name : Path) (ino : Nat) : Prop :=
  ∃ a s' v, s.initrdLookup priv name = (.ok a, s') ∧ s'.vnodes a = some v ∧ v.data.attr.ino = ino

/-- **Listing and lookup agree**: the names listed are the components found, each once and with its inode. -/
def ListingAgrees (s : Vfs) (priv : Option Nat) (ent : Dirent) : Prop :=
  ∃ ls, Lists s priv ent ls ∧ (ls.map Prod.fst).Nodup ∧
    ∀ name ino, (name, ino) ∈ ls ↔ name ≠ [] ∧ '/' ∉ name ∧ Finds s priv name ino

/-- **When they do**: no entry is listed under the empty name, whatever lies below a child has the child's own entry with
    it, and the names fit into the buffer with a zero. -/
structure Listable (s : Vfs) (priv : Option Nat) (ent : Dirent) : Prop where
  named  : s.initrdPrefix priv = [] → ∀ e ∈ s.entries, e.name ≠ []
  closed : ∀ e ∈ s.entries, ∀ c, components (s.initrdPrefix priv) ++ [c] <+: components e.name →
    ∃ d ∈ s.entries, components d.name = components (s.initrdPrefix priv) ++ [c]
  short  : ∀ e ∈ s.entries, ∀ c, components e.name = components (s.initrdPrefix priv) ++ [c] →
    c.length < nameMax ∨ ent.dName nameMax = '\x00'

/-- What `initrd_init` makes of the list that `find` prints, with some entries perhaps left out: names of plain
    components, and none before the directory it lies in, nor twice. -/
structure FindList (entries : List InitrdEntry) : Prop where
  names : ∀ e ∈ entries, e.name = joinPath (components e.name) ∧ ∀ c ∈ components e.name, Plain c ∧ '\x00' ∉ c
  order : entries.Pairwise fun d e => ¬components e.name <+: components d.name

/-- The children of a directory in the order of the archive. -/
def initrdChildren (pre : Path) (entries : List InitrdEntry) : List (Path × InitrdEntry) :=
  entries.filterMap fun e => (initrdChildName pre e.name).map fun child => (child, e)

/-! ## The two prefix rules

As statements about components.
-/

section
variable {c : Path} {ps qs : List Path}

/-- Only one component has no slash. -/
theorem no_slash_joinPath_iff (hqs : ∀ q ∈ qs, Plain q) : '/' ∉ joinPath qs ↔ qs = [] ∨ ∃ q, qs = [q] := by
  constructor
  · intro hno
    match qs with
    | [] => exact .inl rfl
    | [q] => exact .inr ⟨q, rfl⟩
    | q :: r :: rs =>
      rw [joinPath_cons q (List.cons_ne_nil r rs)] at hno
      exact absurd (List.mem_append_right _ List.mem_cons_self) hno
  · rintro (rfl | ⟨q, rfl⟩)
    · exact List.not_mem_nil
    · rw [joinPath_singleton]
      exact (hqs q List.mem_cons_self).no_slash

/-- **What is listed**: the entries one component below, and in the root also the root itself. -/
theorem initrdChildName_iff (hps : ∀ p ∈ ps, Plain p) (hqs : ∀ q ∈ qs, Plain q) :
    initrdChildName (joinPath ps) (joinPath qs) = some c ↔ qs = ps ++ [c] ∨ (ps = [] ∧ qs = [] ∧ c = []) := by
  by_cases hnil : ps = []
  · subst hnil
    rw [joinPath_nil, initrdChildName, if_pos (.inl rfl)]
    -- in the root a name without a slash is listed as it is, also the empty one
    constructor
    · intro h
      split at h
      next => cases h
      next hno =>
        obtain rfl := Option.some.inj h
        rcases (no_slash_joinPath_iff hqs).mp hno with rfl | ⟨q, rfl⟩
        · exact .inr ⟨rfl, rfl, rfl⟩
        · exact .inl (by rw [joinPath_singleton, List.nil_append])
    · rintro (rfl | ⟨-, rfl, rfl⟩)
      · have hno := (hqs c (by simp)).no_slash
        rw [List.nil_append, joinPath_singleton, if_neg hno]
      · rfl
  · have hskip : (joinPath ps).length + 1 = (joinPath ps ++ ['/']).length := by simp
    rw [initrdChildName, if_neg (joinPath_ne_root hps hnil), hskip]
    -- elsewhere what is left behind the prefix has to be one component
    constructor
    · intro h
      split at h
      next hpre =>
        obtain ⟨rest, hrest⟩ := List.isPrefixOf_iff_prefix.mp hpre
        rw [← hrest, List.drop_left] at h
        split at h
        next => cases h
        next hno =>
          obtain rfl := Option.some.inj h
          obtain ⟨hcomp, hne, hjoin⟩ := joinPath_split hps hnil hqs rest (by rw [← hrest]; simp)
          have hplain : ∀ q ∈ components rest, Plain q := fun q hq => hqs q (by rw [hcomp]; simp [hq])
          rw [hjoin] at hno
          obtain ⟨q, hq⟩ := ((no_slash_joinPath_iff hplain).mp hno).resolve_left hne
          left
          rw [hcomp, hq, hjoin, hq, joinPath_singleton]
      next => cases h
    · rintro (rfl | ⟨hps', -⟩)
      · have hno := (hqs c (by simp)).no_slash
        have hq : joinPath (ps ++ [c]) = joinPath ps ++ ['/'] ++ c := by
          rw [joinPath_append hnil (List.cons_ne_nil c []), joinPath_singleton]
          simp
        rw [hq, if_pos (List.isPrefixOf_iff_prefix.mpr (List.prefix_append _ _)), List.drop_left, if_neg hno]
      · exact absurd hps' hnil

end

/-! ## The scan of `initrd_vn_readdir`

The call at index `k` gives the child of this number, and the copy of its name ends if there is a zero.
-/

/-- **A call gives the child of its number**, whatever number the scan begins with. -/
theorem initrdReaddirLoop_eq (pre : Path) (ent : Dirent) (entries : List InitrdEntry) : ∀ (idx : Int) (k : Nat),
    initrdReaddirLoop pre (idx + k) ent idx entries =
      match (initrdChildren pre entries)[k]? with
      | none            => .error .noEnt
      | some (child, e) => .ok (initrdDirent e child (idx + k) ent) := by
  induction entries with
  | nil =>
    intro idx k
    rfl
  | cons e entries ih =>
    intro idx k
    rw [initrdReaddirLoop, initrdChildren, List.filterMap_cons]
    cases hchild : initrdChildName pre e.name with
    | none => exact ih idx k
    | some child =>
      cases k with
      | zero =>
        have hzero : idx + ((0 : Nat) : Int) = idx := Int.add_zero idx
        simp only [hzero, if_pos, Option.map_some, List.getElem?_cons_zero]
      | succ k =>
        -- a child that was not asked for moves both numbers on
        have hne : idx ≠ idx + ((k + 1 : Nat) : Int) := by omega
        have hnext : idx + ((k + 1 : Nat) : Int) = idx + 1 + (k : Int) := by omega
        simp only [if_neg hne, Option.map_some, List.getElem?_cons_succ]
        rw [hnext]
        exact ih (idx + 1) k

theorem Vfs.initrdReaddir_eq (s : Vfs) (priv : Option Nat) (k : Nat) (ent : Dirent) :
    s.initrdReaddir priv k ent =
      match (initrdChildren (s.initrdPrefix priv) s.entries)[k]? with
      | none            => .error .noEnt
      | some (child, e) => .ok (initrdDirent e child k ent) := by
  have h := initrdReaddirLoop_eq (s.initrdPrefix priv) ent s.entries 0 k
  rw [Int.zero_add] at h
  exact h

theorem mem_initrdChildren {pre child : Path} {entries : List InitrdEntry} {e : InitrdEntry} :
    (child, e) ∈ initrdChildren pre entries ↔ e ∈ entries ∧ initrdChildName pre e.name = some child := by
  rw [initrdChildren, List.mem_filterMap]
  constructor
  · rintro ⟨d, hd, hmap⟩
    obtain ⟨c, hc, heq⟩ := Option.map_eq_some_iff.mp hmap
    cases heq
    exact ⟨hd, hc⟩
  · rintro ⟨he, hc⟩
    exact ⟨e, he, by rw [hc]; rfl⟩

/-- The copy holds no other string than the child's name, or one that is longer than names may be. -/
theorem cstr_strncpyTo {child name : Path} {buf : Buf} (hlen : child.length ≤ nameMax) (hchild : '\x00' ∉ child)
    (hname : '\x00' ∉ name) (h : CStr (strncpyTo child 0 nameMax buf) name) :
    (name = child ∧ (child.length < nameMax ∨ buf nameMax = '\x00')) ∨ nameMax < name.length := by
  by_cases hlong : nameMax < name.length
  · exact .inr hlong
  · have hle : name.length ≤ nameMax := Nat.le_of_not_lt hlong
    -- below the end of the shorter one both agree, and there it ends in both
    have hcopy : ∀ i < nameMax, strncpyTo child 0 nameMax buf i = (child[i]?).getD '\x00' :=
      fun i hi => strncpyTo_zero_apply child hi buf
    have hbytes : ∀ i c, i < nameMax → name[i]? = some c → child[i]? = some c := by
      intro i c hi hc
      have hat := h.bytes i c hc
      rw [hcopy i hi] at hat
      cases hget : child[i]? with
      | none =>
        rw [hget] at hat
        obtain rfl : '\x00' = c := hat
        exact absurd (List.mem_of_getElem? hc) hname
      | some b =>
        rw [hget] at hat
        exact congrArg some hat
    have hlen' : name.length = child.length := by
      have hup : name.length ≤ child.length := by
        by_contra hlt
        have hi : child.length < name.length := Nat.lt_of_not_le hlt
        have hget := hbytes child.length _ (by omega) (List.getElem?_eq_getElem hi)
        rw [List.getElem?_eq_none (Nat.le_refl _)] at hget
        cases hget
      have hdown : child.length ≤ name.length := by
        by_contra hlt
        have hi : name.length < child.length := Nat.lt_of_not_le hlt
        have hzero := h.zero
        rw [hcopy name.length (by omega), List.getElem?_eq_getElem hi] at hzero
        exact hchild (hzero ▸ List.getElem_mem hi)
      omega
    left
    constructor
    · apply List.ext_getElem?
      intro i
      cases hget : name[i]? with
      | none =>
        rw [List.getElem?_eq_none_iff] at hget
        exact (List.getElem?_eq_none (by omega)).symm
      | some c =>
        have hi := (List.getElem?_eq_some_iff.mp hget).1
        exact (hbytes i c (by omega) hget).symm
    · have hzero := h.zero
      rw [hlen', strncpyTo_apply] at hzero
      by_cases hfull : child.length < nameMax
      · exact .inl hfull
      · rw [if_neg (by omega)] at hzero
        have hmax : child.length = nameMax := by omega
        rw [hmax] at hzero
        exact .inr hzero

/-! ## The two in the order of `find`

Nothing below an entry stands before it, so the first match of a lookup is the entry.
-/

namespace FindList

variable {entries : List InitrdEntry} {c : Path} {ps : List Path} {d e : InitrdEntry} {i j : Nat}

theorem matches_iff (h : FindList entries) (hps : ∀ p ∈ ps, Plain p) (hne : c ≠ []) (hc : '/' ∉ c) (he : e ∈ entries) :
    initrdMatches (joinPath ps) c e.name = true ↔ ps ++ [c] <+: components e.name := by
  obtain ⟨hname, hplain⟩ := h.names e he
  have hplain' : ∀ q ∈ components e.name, Plain q := fun q hq => (hplain q hq).1
  rw [hname, initrdMatches_iff hps hne hc hplain', components_joinPath hplain']

theorem child_iff (h : FindList entries) (hps : ∀ p ∈ ps, Plain p) (he : e ∈ entries) :
    initrdChildName (joinPath ps) e.name = some c ↔
      components e.name = ps ++ [c] ∨ (ps = [] ∧ components e.name = [] ∧ c = []) := by
  obtain ⟨hname, hplain⟩ := h.names e he
  have hplain' : ∀ q ∈ components e.name, Plain q := fun q hq => (hplain q hq).1
  have hiff := initrdChildName_iff (c := c) hps hplain'
  rw [← hname] at hiff
  exact hiff

/-- **The lookup finds the entry itself**, since nothing below it comes before. -/
theorem findIdx_eq (h : FindList entries) (hps : ∀ p ∈ ps, Plain p) (hj : entries[j]? = some d)
    (hd : components d.name = ps ++ [c]) :
    entries.findIdx? (fun e => initrdMatches (joinPath ps) c e.name) = some j := by
  obtain ⟨hlt, hget⟩ := List.getElem?_eq_some_iff.mp hj
  have hmem : d ∈ entries := List.mem_of_getElem? hj
  have hplain : Plain c := ((h.names d hmem).2 c (by rw [hd]; simp)).1
  apply List.findIdx?_eq_some_iff_getElem.mpr
  refine ⟨hlt, ?_, ?_⟩
  · rw [hget, h.matches_iff hps hplain.ne_nil hplain.no_slash hmem]
    exact ⟨[], by rw [hd, List.append_nil]⟩
  · intro i hi hmatch
    -- an earlier match would be an entry below this one
    have hbefore := (h.matches_iff hps hplain.ne_nil hplain.no_slash (List.getElem_mem _)).mp hmatch
    apply List.pairwise_iff_getElem.mp h.order i j (by omega) hlt hi
    rw [hget, hd]
    exact hbefore

/-- What a lookup finds begins with the path. -/
theorem findIdx_prefix (h : FindList entries) (hps : ∀ p ∈ ps, Plain p) (hne : c ≠ []) (hc : '/' ∉ c)
    (hi : entries.findIdx? (fun e => initrdMatches (joinPath ps) c e.name) = some i) :
    ∃ e, entries[i]? = some e ∧ ps ++ [c] <+: components e.name := by
  obtain ⟨hlt, hmatch, -⟩ := List.findIdx?_eq_some_iff_getElem.mp hi
  exact ⟨entries[i], List.getElem?_eq_getElem hlt, (h.matches_iff hps hne hc (List.getElem_mem hlt)).mp hmatch⟩

/-- No name is found that is not a component. -/
theorem plain_of_prefix (h : FindList entries) (he : e ∈ entries) (hpre : ps ++ [c] <+: components e.name) :
    Plain c ∧ '\x00' ∉ c := by
  obtain ⟨rest, hrest⟩ := hpre
  apply (h.names e he).2
  rw [← hrest]
  simp

/-- A name that is listed fits, but for its zero. -/
theorem child_fits (h : FindList entries) (hps : ∀ p ∈ ps, Plain p) (hm : (c, e) ∈ initrdChildren (joinPath ps) entries) :
    c.length ≤ nameMax ∧ '\x00' ∉ c := by
  obtain ⟨he, hchild⟩ := mem_initrdChildren.mp hm
  rcases (h.child_iff hps he).mp hchild with hcomp | ⟨-, -, rfl⟩
  · have hpre : ps ++ [c] <+: components e.name := ⟨[], by rw [hcomp, List.append_nil]⟩
    have hplain := h.plain_of_prefix he hpre
    exact ⟨hplain.1.length_le, hplain.2⟩
  · exact ⟨Nat.zero_le _, List.not_mem_nil⟩

/-- No two entries are listed under one name. -/
theorem children_nodup (h : FindList entries) (hps : ∀ p ∈ ps, Plain p)
    (hnamed : ∀ c e, (c, e) ∈ initrdChildren (joinPath ps) entries → c ≠ []) :
    ((initrdChildren (joinPath ps) entries).map Prod.fst).Nodup := by
  have hcomp : ∀ e ∈ entries, ∀ c, initrdChildName (joinPath ps) e.name = some c → components e.name = ps ++ [c] := by
    intro e he c hc
    rcases (h.child_iff hps he).mp hc with hcomp | ⟨-, -, rfl⟩
    · exact hcomp
    · exact absurd rfl (hnamed [] e (mem_initrdChildren.mpr ⟨he, hc⟩))
  rw [List.Nodup, List.pairwise_map, initrdChildren, List.pairwise_filterMap]
  apply h.order.imp_of_mem
  intro d e hd he hno x hx y hy heq
  obtain ⟨c, hc, rfl⟩ := Option.map_eq_some_iff.mp hx
  obtain ⟨b, hb, rfl⟩ := Option.map_eq_some_iff.mp hy
  obtain rfl : c = b := heq
  -- one name would be the same path twice
  apply hno
  exact ⟨[], by rw [hcomp e he c hb, hcomp d hd c hc, List.append_nil]⟩

end FindList

/-! ## A lookup with memory for its vnode

The vnode that is made has the inode number of the entry.
-/

section
variable {s : Vfs} {priv : Option Nat} {name : Path} {ino : Nat}

theorem finds_iff (hroom : 0 < s.room) :
    Finds s priv name ino ↔
      ∃ i e, s.entries.findIdx? (fun e => initrdMatches (s.initrdPrefix priv) name e.name) = some i ∧
        s.entries[i]? = some e ∧ e.attr.ino = ino := by
  have hget : ∀ i e, s.entries[i]? = some e → (initrdVnode s.entries i).attr.ino = e.attr.ino := by
    intro i e he
    simp only [initrdVnode, he, Option.map_some, Option.getD_some]
  have halloc : ∀ data, s.vnodeAlloc data =
      some (s.next, ({ s with next := s.next + 1, room := s.room - 1 } : Vfs).setVnode s.next (some ⟨data, 1⟩)) := by
    intro data
    rw [vnodeAlloc, kzalloc, if_neg (by omega)]
  constructor
  · rintro ⟨a, s', v, hout, hv, hino⟩
    unfold initrdLookup at hout
    split at hout
    next => cases hout
    next i hi =>
      obtain ⟨hlt, -, -⟩ := List.findIdx?_eq_some_iff_getElem.mp hi
      rw [halloc] at hout
      cases hout
      simp only [setVnode, Function.update_self, Option.some.injEq] at hv
      subst hv
      exact ⟨i, s.entries[i], hi, List.getElem?_eq_getElem hlt, (hget i _ (List.getElem?_eq_getElem hlt)).symm.trans hino⟩
  · rintro ⟨i, e, hi, he, hino⟩
    refine ⟨s.next, ({ s with next := s.next + 1, room := s.room - 1 } : Vfs).setVnode s.next
      (some ⟨initrdVnode s.entries i, 1⟩), ⟨initrdVnode s.entries i, 1⟩, ?_, ?_, (hget i e he).trans hino⟩
    · unfold initrdLookup
      rw [hi]
      simp only [halloc]
    · simp only [setVnode, Function.update_self]

end

/-! ## Agreement

Enough and needed, by the three exceptions.
-/

/-- The root, or a directory of the archive. -/
def DirectoryOf (s : Vfs) (priv : Option Nat) : Prop :=
  priv = none ∨ ∃ i e, priv = some i ∧ s.entries[i]? = some e ∧ e.isDir = true

section
variable {s : Vfs} {priv : Option Nat} {ent : Dirent} {ls : List (Path × Nat)} {ps : List Path} {child : Path}
  {e : InitrdEntry}

/-- The prefix of a directory is a path of plain components. -/
theorem DirectoryOf.path (hdir : DirectoryOf s priv) (h : FindList s.entries) :
    ∃ ps, s.initrdPrefix priv = joinPath ps ∧ (∀ p ∈ ps, Plain p) ∧ components (s.initrdPrefix priv) = ps := by
  rcases hdir with rfl | ⟨i, e, rfl, he, -⟩
  · exact ⟨[], rfl, fun p hp => absurd hp List.not_mem_nil, rfl⟩
  · obtain ⟨hname, hplain⟩ := h.names e (List.mem_of_getElem? he)
    have hroot : s.initrdPrefix (some i) = e.name := by
      simp only [initrdPrefix, he, Option.map_some, Option.getD_some]
    rw [hroot]
    exact ⟨components e.name, hname, fun p hp => (hplain p hp).1, rfl⟩

/-- The listing has a name for each child, and no more. -/
theorem Lists.length_eq (hl : Lists s priv ent ls) :
    ls.length = (initrdChildren (s.initrdPrefix priv) s.entries).length := by
  have hle : (initrdChildren (s.initrdPrefix priv) s.entries).length ≤ ls.length := by
    obtain ⟨err, hstop⟩ := hl.stop
    rw [Vfs.initrdReaddir_eq] at hstop
    cases hget : (initrdChildren (s.initrdPrefix priv) s.entries)[ls.length]? with
    | none => exact List.getElem?_eq_none_iff.mp hget
    | some p =>
      rw [hget] at hstop
      cases hstop
  have hge : ls.length ≤ (initrdChildren (s.initrdPrefix priv) s.entries).length := by
    by_contra hlt
    have hk : (initrdChildren (s.initrdPrefix priv) s.entries).length < ls.length := Nat.lt_of_not_le hlt
    obtain ⟨-, d, hd, -⟩ := hl.given _ _ _ (List.getElem?_eq_getElem hk)
    rw [Vfs.initrdReaddir_eq, List.getElem?_eq_none (Nat.le_refl _)] at hd
    cases hd
  exact Nat.le_antisymm hge hle

/-- The name listed for a child is what the buffer holds after the copy. -/
theorem Lists.at_child (hl : Lists s priv ent ls) {k : Nat}
    (hk : (initrdChildren (s.initrdPrefix priv) s.entries)[k]? = some (child, e)) :
    ∃ name, ls[k]? = some (name, e.attr.ino) ∧ '\x00' ∉ name ∧ CStr (strncpyTo child 0 nameMax ent.dName) name := by
  have hlt : k < ls.length := by
    rw [hl.length_eq]
    exact (List.getElem?_eq_some_iff.mp hk).1
  obtain ⟨hnul, d, hd, hcstr, hino⟩ := hl.given k ls[k].1 ls[k].2 (List.getElem?_eq_getElem hlt)
  rw [Vfs.initrdReaddir_eq, hk] at hd
  cases hd
  refine ⟨ls[k].1, ?_, hnul, hcstr⟩
  rw [List.getElem?_eq_getElem hlt]
  exact congrArg some (Prod.ext rfl hino.symm)

/-- Where the names fit the children are the listing. -/
theorem lists_children (h : FindList s.entries) (hps : ∀ p ∈ ps, Plain p) (hpre : s.initrdPrefix priv = joinPath ps)
    (hshort : ∀ c e, (c, e) ∈ initrdChildren (joinPath ps) s.entries → c.length < nameMax ∨ ent.dName nameMax = '\x00') :
    Lists s priv ent ((initrdChildren (joinPath ps) s.entries).map fun p => (p.1, p.2.attr.ino)) := by
  constructor
  · intro k name ino hk
    rw [List.getElem?_map] at hk
    obtain ⟨⟨c, e⟩, hget, heq⟩ := Option.map_eq_some_iff.mp hk
    cases heq
    have hmem := List.mem_of_getElem? hget
    obtain ⟨hlen, hnul⟩ := h.child_fits hps hmem
    refine ⟨hnul, initrdDirent e c k ent, ?_, (strncpyTo_cstr hlen _).mpr (hshort c e hmem), rfl⟩
    rw [Vfs.initrdReaddir_eq, hpre, hget]
  · refine ⟨.noEnt, ?_⟩
    rw [Vfs.initrdReaddir_eq, hpre, List.length_map, List.getElem?_eq_none (Nat.le_refl _)]

/-- **Enough for the two to agree.** -/
theorem Listable.agrees (hl : Listable s priv ent) (h : FindList s.entries) (hdir : DirectoryOf s priv)
    (hroom : 0 < s.room) : ListingAgrees s priv ent := by
  obtain ⟨ps, hpre, hps, hcomps⟩ := hdir.path h
  obtain ⟨hnamed, hclosed, hshort⟩ := hl
  rw [hcomps] at hclosed hshort
  have hchild : ∀ e ∈ s.entries, ∀ c, initrdChildName (joinPath ps) e.name = some c ↔ components e.name = ps ++ [c] := by
    intro e he c
    rw [h.child_iff hps he]
    refine or_iff_left ?_
    rintro ⟨rfl, hnil, -⟩
    apply hnamed hpre e he
    rw [(h.names e he).1, hnil, joinPath_nil]
  have hne : ∀ c e, (c, e) ∈ initrdChildren (joinPath ps) s.entries → c ≠ [] := by
    intro c e hm
    obtain ⟨he, hc⟩ := mem_initrdChildren.mp hm
    have hpref : ps ++ [c] <+: components e.name := ⟨[], by rw [(hchild e he c).mp hc, List.append_nil]⟩
    exact (h.plain_of_prefix he hpref).1.ne_nil
  have hfits : ∀ c e, (c, e) ∈ initrdChildren (joinPath ps) s.entries →
      c.length < nameMax ∨ ent.dName nameMax = '\x00' := by
    intro c e hm
    obtain ⟨he, hc⟩ := mem_initrdChildren.mp hm
    exact hshort e he c ((hchild e he c).mp hc)
  refine ⟨_, lists_children h hps hpre hfits, ?_, ?_⟩
  · rw [List.map_map]
    exact h.children_nodup hps hne
  · intro name ino
    rw [finds_iff hroom, hpre]
    constructor
    · intro hm
      obtain ⟨⟨c, e⟩, hin, heq⟩ := List.mem_map.mp hm
      cases heq
      obtain ⟨he, hc⟩ := mem_initrdChildren.mp hin
      have hcomp := (hchild e he c).mp hc
      have hpref : ps ++ [c] <+: components e.name := ⟨[], by rw [hcomp, List.append_nil]⟩
      obtain ⟨hplain, -⟩ := h.plain_of_prefix he hpref
      obtain ⟨j, hj⟩ := List.getElem?_of_mem he
      exact ⟨hplain.ne_nil, hplain.no_slash, j, e, h.findIdx_eq hps hj hcomp, hj, rfl⟩
    · rintro ⟨hnil, hslash, i, e, hi, he, rfl⟩
      obtain ⟨x, hx, hpref⟩ := h.findIdx_prefix hps hnil hslash hi
      obtain rfl : e = x := Option.some.inj (he.symm.trans hx)
      -- the child has an entry of its own, and that is the one found
      obtain ⟨d, hd, hcomp⟩ := hclosed e (List.mem_of_getElem? he) name hpref
      obtain ⟨j, hj⟩ := List.getElem?_of_mem hd
      obtain rfl : i = j := Option.some.inj (hi.symm.trans (h.findIdx_eq hps hj hcomp))
      obtain rfl : e = d := Option.some.inj (he.symm.trans hj)
      exact List.mem_map.mpr ⟨(name, e), mem_initrdChildren.mpr ⟨hd, (hchild e hd name).mpr hcomp⟩, rfl⟩

/-- Where the two agree the buffer holds each child's own name. -/
theorem Lists.name_eq (hl : Lists s priv ent ls) (h : FindList s.entries) (hps : ∀ p ∈ ps, Plain p)
    (hpre : s.initrdPrefix priv = joinPath ps) (hroom : 0 < s.room)
    (hiff : ∀ name ino, (name, ino) ∈ ls ↔ name ≠ [] ∧ '/' ∉ name ∧ Finds s priv name ino)
    (hm : (child, e) ∈ initrdChildren (joinPath ps) s.entries) :
    (child, e.attr.ino) ∈ ls ∧ (child.length < nameMax ∨ ent.dName nameMax = '\x00') := by
  obtain ⟨hlen, hnul⟩ := h.child_fits hps hm
  obtain ⟨k, hk⟩ := List.getElem?_of_mem hm
  rw [← hpre] at hk
  obtain ⟨name, hat, hnul', hcstr⟩ := hl.at_child hk
  have hmem : (name, e.attr.ino) ∈ ls := List.mem_of_getElem? hat
  obtain ⟨hnil, hslash, hfind⟩ := (hiff _ _).mp hmem
  obtain ⟨i, x, hi, hx, -⟩ := (finds_iff hroom).mp hfind
  rw [hpre] at hi
  obtain ⟨y, hy, hpref⟩ := h.findIdx_prefix hps hnil hslash hi
  have hle := (h.plain_of_prefix (List.mem_of_getElem? hy) hpref).1.length_le
  rcases cstr_strncpyTo hlen hnul hnul' hcstr with ⟨rfl, hfits⟩ | hlong
  · exact ⟨hmem, hfits⟩
  · omega

/-- **And needed.** -/
theorem ListingAgrees.listable (ha : ListingAgrees s priv ent) (h : FindList s.entries) (hdir : DirectoryOf s priv)
    (hroom : 0 < s.room) : Listable s priv ent := by
  obtain ⟨ps, hpre, hps, hcomps⟩ := hdir.path h
  obtain ⟨ls, hl, -, hiff⟩ := ha
  have hchild : ∀ c e, (c, e) ∈ initrdChildren (joinPath ps) s.entries →
      (c, e.attr.ino) ∈ ls ∧ (c.length < nameMax ∨ ent.dName nameMax = '\x00') :=
    fun c e hm => hl.name_eq h hps hpre hroom hiff hm
  constructor
  · intro hroot e he hname
    -- the root's own entry would be listed under the empty name
    have hm : ([], e) ∈ initrdChildren (joinPath ps) s.entries := by
      rw [← hpre, hroot]
      apply mem_initrdChildren.mpr
      rw [hname]
      exact ⟨he, rfl⟩
    exact ((hiff _ _).mp (hchild [] e hm).1).1 rfl
  · rw [hcomps]
    intro e he c hpref
    obtain ⟨hplain, hnul⟩ := h.plain_of_prefix he hpref
    obtain ⟨i, hi⟩ : ∃ i, s.entries.findIdx? (fun e => initrdMatches (joinPath ps) c e.name) = some i := by
      cases hf : s.entries.findIdx? (fun e => initrdMatches (joinPath ps) c e.name) with
      | some i => exact ⟨i, rfl⟩
      | none =>
        have hno := List.findIdx?_eq_none_iff.mp hf e he
        rw [(h.matches_iff hps hplain.ne_nil hplain.no_slash he).mpr hpref] at hno
        cases hno
    obtain ⟨x, hx, -⟩ := h.findIdx_prefix hps hplain.ne_nil hplain.no_slash hi
    have hfind : Finds s priv c x.attr.ino := by
      apply (finds_iff hroom).mpr
      rw [hpre]
      exact ⟨i, x, hi, hx, rfl⟩
    obtain ⟨k, hk⟩ := List.getElem?_of_mem ((hiff c _).mpr ⟨hplain.ne_nil, hplain.no_slash, hfind⟩)
    have hlt : k < (initrdChildren (joinPath ps) s.entries).length := by
      rw [← hpre, ← hl.length_eq]
      exact (List.getElem?_eq_some_iff.mp hk).1
    obtain ⟨⟨b, d⟩, hat⟩ : ∃ p, (initrdChildren (joinPath ps) s.entries)[k]? = some p :=
      ⟨_, List.getElem?_eq_getElem hlt⟩
    obtain ⟨name, hname, hnul', hcstr⟩ := hl.at_child (hpre ▸ hat)
    obtain ⟨rfl, -⟩ := Prod.mk.inj (Option.some.inj (hk.symm.trans hname))
    obtain ⟨hlen, hb⟩ := h.child_fits hps (List.mem_of_getElem? hat)
    have hle := hplain.length_le
    rcases cstr_strncpyTo hlen hb hnul' hcstr with ⟨rfl, -⟩ | hlong
    · obtain ⟨hd, hdname⟩ := mem_initrdChildren.mp (List.mem_of_getElem? hat)
      refine ⟨d, hd, ((h.child_iff hps hd).mp hdname).resolve_right ?_⟩
      rintro ⟨-, -, rfl⟩
      exact hplain.ne_nil rfl
    · omega
  · rw [hcomps]
    intro e he c hcomp
    exact (hchild c e (mem_initrdChildren.mpr ⟨he, (h.child_iff hps he).mpr (.inl hcomp)⟩)).2

end

/-! ## The archive of `find . | cpio -H newc`

The names in the order in which they are printed, and what becomes of the list when some entries find no memory.
-/

/-- What `find .` prints for the directory itself, and for a path below it. -/
def findName (cs : List Path) : Path := if cs = [] then dot else '.' :: '/' :: joinPath cs

/-- The entries of the archive that `cpio` makes of the names `find .` prints for `tree`: each once, and each directory
    before what it holds, with `.` first. -/
structure FindArchive (es : List CpioEntry) (tree : List (List Path)) : Prop where
  names   : es.map (fun e => e.name.map toChar) = tree.map findName
  valid   : ∀ e ∈ es, e.Valid
  root    : tree.head? = some []
  plain   : ∀ cs ∈ tree, ∀ c ∈ cs, Plain c
  unique  : tree.Nodup
  parents : ∀ (i : Nat) (cs : List Path), tree[i]? = some cs → ∀ ps, ps <+: cs → ps ≠ cs →
    ∃ j < i, tree[j]? = some ps ∧ ∃ e, es[j]? = some e ∧ isDirMode e.mode = true

theorem toNat_toChar (b : UInt8) : (toChar b).toNat = b.toNat := by
  have hlt : b.toNat < 256 := b.toNat_lt
  have hvalid : b.toNat.isValidChar := .inl (by omega)
  rw [toChar, Char.ofNat, dif_pos hvalid]
  rfl

theorem toChar_injective : Function.Injective toChar := by
  intro a b h
  have hnat := congrArg Char.toNat h
  rw [toNat_toChar, toNat_toChar] at hnat
  exact UInt8.toNat_inj.mp hnat

theorem mem_joinPath {c : Path} {cs : List Path} {x : Char} (hc : c ∈ cs) (hx : x ∈ c) : x ∈ joinPath cs := by
  induction cs with
  | nil => cases hc
  | cons d cs ih =>
    by_cases hnil : cs = []
    · subst hnil
      obtain rfl := List.mem_singleton.mp hc
      rwa [joinPath_singleton]
    · rw [joinPath_cons d hnil, List.mem_append, List.mem_cons]
      rcases List.mem_cons.mp hc with rfl | hc
      · exact .inl hx
      · exact .inr (.inr (ih hc))

/-- **The cleaned name is the path.** -/
theorem cleanName_find {bs : List UInt8} {cs : List Path} (hcs : ∀ c ∈ cs, Plain c) (h : bs.map toChar = findName cs) :
    (cleanName bs).map toChar = joinPath cs := by
  unfold findName at h
  split at h
  next hnil =>
    subst hnil
    have hbs : bs = [46] := toChar_injective.list_map h
    rw [hbs]
    rfl
  next hnil =>
    have hbs : bs = [46, 47] ++ bs.drop 2 := by
      apply toChar_injective.list_map
      rw [List.map_append, List.map_drop, h]
      rfl
    have hrest : (bs.drop 2).map toChar = joinPath cs := by
      rw [List.map_drop, h]
      rfl
    have hdot : bs.drop 2 ≠ [46] := by
      intro heq
      rw [heq] at hrest
      exact joinPath_ne_root hcs hnil (.inr hrest.symm)
    unfold cleanName
    simp only [if_pos (show [46, 47] <+: bs from ⟨bs.drop 2, hbs.symm⟩), if_neg hdot]
    exact hrest

theorem mem_of_mem_cleanName {bs : List UInt8} {b : UInt8} (h : b ∈ cleanName bs) : b ∈ bs := by
  simp only [cleanName] at h
  split at h
  next =>
    split at h
    next => cases h
    next => exact List.mem_of_mem_drop h
  next =>
    split at h
    next => cases h
    next => exact h

/-! ## What is read back of such an archive

Entries without memory are left out, and the others keep their order.
-/

/-- **What is on the list after the archive was read**: the entries there was memory for. -/
theorem parseFrom_kept {m : ByteMem} {size : Nat} {alloc : Nat → Bool} {trailer : CpioEntry}
    (htrailer : trailer.name = cpioTrailer) (es : List CpioEntry) : ∀ (off k ino : Nat),
    (∀ e ∈ es, e.Valid ∧ e.name ≠ cpioTrailer) → m.Holds off (encodeFrom off (es ++ [trailer])) →
    off + (encodeFrom off (es ++ [trailer])).length ≤ size →
    ∃ kept, kept.Sublist es ∧ ((∀ k, alloc k = true) → kept = es) ∧
      (parseFrom m size alloc off k ino).map (fun d => (d.name, d.isDir)) =
        kept.map fun e => ((cleanName e.name).map toChar, isDirMode e.mode) := by
  induction es with
  | nil =>
    intro off k ino _ h _
    have hend : parseFrom m size alloc off k ino = [] :=
      CpioEntry.parse_trailer htrailer (ByteMem.holds_append.mp h).1
    rw [hend]
    exact ⟨[], List.Sublist.refl [], fun _ => rfl, rfl⟩
  | cons e es ih =>
    intro off k ino hes h hfits
    rw [List.cons_append, encodeFrom] at h hfits
    obtain ⟨hfirst, hrest⟩ := ByteMem.holds_append.mp h
    rw [List.length_append] at hfits
    obtain ⟨hvalid, hname⟩ := hes e List.mem_cons_self
    obtain ⟨d, hparse, hd⟩ := CpioEntry.parse_encode hvalid hname hfirst (Nat.le_trans (by omega) hfits) alloc k ino
    have hes' : ∀ x ∈ es, x.Valid ∧ x.name ≠ cpioTrailer := fun x hx => hes x (List.mem_cons_of_mem _ hx)
    rw [hparse]
    cases hk : alloc k with
    | false =>
      -- `kzalloc` failed: the loop goes on without the entry and its inode number
      obtain ⟨kept, hsub, -, hmap⟩ := ih (off + (e.encode off).length) (k + 1) ino hes' hrest (by omega)
      refine ⟨kept, hsub.cons e, fun hall => ?_, hmap⟩
      rw [hall k] at hk
      cases hk
    | true =>
      obtain ⟨kept, hsub, hall, hmap⟩ :=
        ih (off + (e.encode off).length) (k + 1) ((ino + 1) % 2 ^ 32) hes' hrest (by omega)
      refine ⟨e :: kept, hsub.cons_cons e, fun hmem => by rw [hall hmem], ?_⟩
      rw [if_pos rfl, List.map_cons, List.map_cons, hmap, hd.name, hd.isDir]

namespace FindArchive

variable {es : List CpioEntry} {tree : List (List Path)} {trailer : CpioEntry} {m : ByteMem} {size : Nat}
  {alloc : Nat → Bool}

/-- No path comes after one that lies below it, and none comes twice. -/
theorem order (h : FindArchive es tree) : tree.Pairwise fun ps cs => ¬cs <+: ps := by
  apply List.pairwise_iff_getElem.mpr
  intro i j hi hj hlt hpre
  have hne : tree[j] ≠ tree[i] := by
    intro heq
    have hij := h.unique.getElem_inj_iff.mp heq
    omega
  -- so it is a directory above, and stands before `i` as well as at `j`
  obtain ⟨k, hk, hget, -⟩ := h.parents i tree[i] (List.getElem?_eq_getElem hi) tree[j] hpre hne
  obtain ⟨hk', hget⟩ := List.getElem?_eq_some_iff.mp hget
  have hkj := h.unique.getElem_inj_iff.mp hget
  omega

/-- The cleaned names. -/
theorem clean (h : FindArchive es tree) : es.map (fun e => (cleanName e.name).map toChar) = tree.map joinPath := by
  have hlen : es.length = tree.length := by
    have hlen := congrArg List.length h.names
    rwa [List.length_map, List.length_map] at hlen
  apply List.ext_getElem
  · rw [List.length_map, List.length_map, hlen]
  · intro i hi hi'
    rw [List.getElem_map, List.getElem_map]
    rw [List.length_map] at hi hi'
    have hat : (es.map (fun e => e.name.map toChar))[i]? = (tree.map findName)[i]? := by rw [h.names]
    rw [List.getElem?_map, List.getElem?_map, List.getElem?_eq_getElem hi, List.getElem?_eq_getElem hi'] at hat
    exact cleanName_find (h.plain _ (List.getElem_mem hi')) (Option.some.inj hat)

/-- Nothing in it is taken for its end. -/
theorem not_trailer (h : FindArchive es tree) {e : CpioEntry} (he : e ∈ es) : e.name ≠ cpioTrailer := by
  intro heq
  have hmem : e.name.map toChar ∈ es.map fun e => e.name.map toChar := List.mem_map.mpr ⟨e, he, rfl⟩
  rw [h.names] at hmem
  obtain ⟨cs, -, hcs⟩ := List.mem_map.mp hmem
  have hhead : (e.name.map toChar).head? = some '.' := by
    rw [← hcs, findName]
    split <;> rfl
  rw [heq] at hhead
  exact absurd hhead (by decide)

/-- **What `initrd_init` makes of it.** -/
theorem findList (h : FindArchive es tree) (htrailer : trailer.name = cpioTrailer) (hholds : m.Holds 0 (archive es trailer))
    (hsize : (archive es trailer).length ≤ size) : FindList (initrdInit m size alloc) := by
  have hes : ∀ e ∈ es, e.Valid ∧ e.name ≠ cpioTrailer := fun e he => ⟨h.valid e he, h.not_trailer he⟩
  have hfits : 0 + (encodeFrom 0 (es ++ [trailer])).length ≤ size := by
    rw [Nat.zero_add]
    exact hsize
  obtain ⟨kept, hsub, hmap⟩ : ∃ kept : List CpioEntry, kept.Sublist es ∧ (initrdInit m size alloc).map (fun d => (d.name, d.isDir)) =
      kept.map fun e => ((cleanName e.name).map toChar, isDirMode e.mode) := by
    obtain ⟨kept, hsub, -, hmap⟩ := parseFrom_kept htrailer es 0 0 1 hes hholds hfits
    exact ⟨kept, hsub, hmap⟩
  have hkept : (initrdInit m size alloc).map InitrdEntry.name = kept.map fun e => (cleanName e.name).map toChar := by
    have hfst := congrArg (List.map Prod.fst) hmap
    rw [List.map_map, List.map_map] at hfst
    exact hfst
  obtain ⟨sub, hsub', hnames⟩ : ∃ sub : List (List Path), sub.Sublist tree ∧
      (initrdInit m size alloc).map InitrdEntry.name = sub.map joinPath := by
    apply List.sublist_map_iff.mp
    rw [hkept, ← h.clean]
    exact hsub.map _
  have hplain : ∀ cs ∈ sub, ∀ c ∈ cs, Plain c := fun cs hcs => h.plain cs (hsub'.subset hcs)
  constructor
  · intro e he
    have hmem : e.name ∈ (initrdInit m size alloc).map InitrdEntry.name := List.mem_map.mpr ⟨e, he, rfl⟩
    have hnul : '\x00' ∉ e.name := by
      rw [hkept] at hmem
      obtain ⟨x, hx, heq⟩ := List.mem_map.mp hmem
      rw [← heq]
      intro hzero
      obtain ⟨b, hb, hb'⟩ := List.mem_map.mp hzero
      obtain rfl : b = 0 := toChar_injective hb'
      exact (h.valid x (hsub.subset hx)).name_ne 0 (mem_of_mem_cleanName hb) rfl
    rw [hnames] at hmem
    obtain ⟨cs, hcs, heq⟩ := List.mem_map.mp hmem
    rw [← heq, components_joinPath (hplain cs hcs)]
    exact ⟨rfl, fun c hc => ⟨hplain cs hcs c hc, fun hz => hnul (heq ▸ mem_joinPath hc hz)⟩⟩
  · have hpair : ((initrdInit m size alloc).map InitrdEntry.name).Pairwise fun x y => ¬components y <+: components x := by
      rw [hnames, List.pairwise_map]
      apply (h.order.sublist hsub').imp_of_mem
      intro ps cs hps hcs hno
      rwa [components_joinPath (hplain ps hps), components_joinPath (hplain cs hcs)]
    exact List.pairwise_map.mp hpair

end FindArchive

/-- **Listing and lookup agree exactly when** the directory is not the root with the entry of `.`, no child is there only
    by what lies below it, and no name is cut off its zero. -/
theorem listing_agrees_iff {es : List CpioEntry} {tree : List (List Path)} {trailer : CpioEntry} {m : ByteMem} {size : Nat}
    {alloc : Nat → Bool} {s : Vfs} {priv : Option Nat} (hfind : FindArchive es tree) (htrailer : trailer.name = cpioTrailer)
    (hholds : m.Holds 0 (archive es trailer)) (hsize : (archive es trailer).length ≤ size)
    (hs : s.entries = initrdInit m size alloc) (hdir : DirectoryOf s priv) (hroom : 0 < s.room) (ent : Dirent) :
    ListingAgrees s priv ent ↔ Listable s priv ent := by
  have h : FindList s.entries := by
    rw [hs]
    exact hfind.findList htrailer hholds hsize
  constructor
  · intro ha
    exact ha.listable h hdir hroom
  · intro hl
    exact hl.agrees h hdir hroom

/-! ### An archive of three

The root, a directory and a file in it.
-/

/-- The entries of `.` and of `./bin/sh`, and the archive with both. -/
def dotEntry : CpioEntry := { binEntry with name := [46] }

/-- A file `bin/sh`. -/
def shEntry : CpioEntry := { fileEntry with name := [46, 47, 98, 105, 110, 47, 115, 104] }

/-- An archive of the root, `bin` and `bin/sh`. -/
def shArchive : List CpioEntry := [dotEntry, binEntry, shEntry]

/-- The paths of that tree. -/
def shTree : List (List Path) := [[], [['b', 'i', 'n']], [['b', 'i', 'n'], ['s', 'h']]]

/-- The archive in memory. -/
def shMem : ByteMem := ByteMem.write (fun _ => 0) 0 (archive shArchive trailerEntry)

/-- The file systems with this archive at the root. -/
def shBoot : Vfs := initrdBoot (initrdInit shMem 1024 fun _ => true) 8

/-- A buffer of zeros. -/
def zeroDirent : Dirent := ⟨0, 0, 0, 0, fun _ => '\x00'⟩

theorem shArchive_find : FindArchive shArchive shTree where
  names := by decide
  valid := by
    intro e he
    simp only [shArchive, List.mem_cons, List.not_mem_nil, or_false] at he
    rcases he with rfl | rfl | rfl
    · exact ⟨by decide, by simp [dotEntry], by decide⟩
    · exact ⟨by decide, by simp [binEntry], by decide⟩
    · exact ⟨by decide, by simp [shEntry], by decide⟩
  root := rfl
  plain := by
    have hbin : Plain ['b', 'i', 'n'] := by constructor <;> decide
    have hsh : Plain ['s', 'h'] := by constructor <;> decide
    intro cs hcs
    simp only [shTree, List.mem_cons, List.not_mem_nil, or_false] at hcs
    rcases hcs with rfl | rfl | rfl
    · exact fun c hc => absurd hc List.not_mem_nil
    · simpa using hbin
    · simpa using ⟨hbin, hsh⟩
  unique := by decide
  parents := by
    intro i cs hi ps hpre hne
    rcases i with _ | _ | _ | i
    · cases hi
      exact absurd (List.prefix_nil.mp hpre) hne
    · cases hi
      rcases List.prefix_cons_iff.mp hpre with rfl | ⟨t, rfl, ht⟩
      · exact ⟨0, by decide, rfl, dotEntry, rfl, by decide⟩
      · rw [List.prefix_nil.mp ht] at hne
        exact absurd rfl hne
    · cases hi
      rcases List.prefix_cons_iff.mp hpre with rfl | ⟨t, rfl, ht⟩
      · exact ⟨0, by decide, rfl, dotEntry, rfl, by decide⟩
      · rcases List.prefix_cons_iff.mp ht with rfl | ⟨t', rfl, ht'⟩
        · exact ⟨1, by decide, rfl, binEntry, rfl, by decide⟩
        · rw [List.prefix_nil.mp ht'] at hne
          exact absurd rfl hne
    · cases hi

theorem shArchive_fits : (archive shArchive trailerEntry).length ≤ 1024 := by decide +kernel

/-- What is on the list then. -/
theorem shBoot_entries : ∃ d₀ d₁ d₂, shBoot.entries = [d₀, d₁, d₂] ∧ d₀.name = [] ∧ d₁.name = ['b', 'i', 'n'] ∧
    d₁.isDir = true ∧ d₂.name = ['b', 'i', 'n', '/', 's', 'h'] := by
  have hes : ∀ e ∈ shArchive, e.Valid ∧ e.name ≠ cpioTrailer :=
    fun e he => ⟨shArchive_find.valid e he, shArchive_find.not_trailer he⟩
  have hfits : 0 + (encodeFrom 0 (shArchive ++ [trailerEntry])).length ≤ 1024 := by
    rw [Nat.zero_add]
    exact shArchive_fits
  obtain ⟨kept, -, hall, hmap⟩ : ∃ kept : List CpioEntry, kept.Sublist shArchive ∧ ((∀ k : Nat, true = true) → kept = shArchive) ∧
      shBoot.entries.map (fun d => (d.name, d.isDir)) =
        kept.map fun e => ((cleanName e.name).map toChar, isDirMode e.mode) :=
    parseFrom_kept rfl shArchive 0 0 1 hes (ByteMem.read_write _) hfits
  obtain rfl := hall fun _ => rfl
  obtain ⟨d₀, d₁, d₂, heq⟩ : ∃ d₀ d₁ d₂, shBoot.entries = [d₀, d₁, d₂] := by
    apply List.length_eq_three.mp
    have hlen := congrArg List.length hmap
    rw [List.length_map, List.length_map] at hlen
    exact hlen
  rw [heq] at hmap
  simp only [shArchive, List.map_cons, List.map_nil, List.cons.injEq, Prod.mk.injEq] at hmap
  obtain ⟨⟨h₀, -⟩, ⟨h₁, hdir⟩, ⟨h₂, -⟩, -⟩ := hmap
  exact ⟨d₀, d₁, d₂, heq, h₀, h₁, hdir, h₂⟩

/-- In `/bin` the two agree. -/
theorem listing_agrees_bin : ListingAgrees shBoot (some 1) zeroDirent := by
  obtain ⟨d₀, d₁, d₂, heq, h₀, h₁, hdir, h₂⟩ := shBoot_entries
  have hpre : shBoot.initrdPrefix (some 1) = ['b', 'i', 'n'] := by
    simp [initrdPrefix, heq, h₁]
  refine (listing_agrees_iff shArchive_find rfl (ByteMem.read_write _) shArchive_fits rfl
    (.inr ⟨1, d₁, rfl, by rw [heq]; rfl, hdir⟩) (by decide) zeroDirent).mpr ?_
  constructor
  · intro hnil
    rw [hpre] at hnil
    cases hnil
  · rw [hpre, heq]
    have hbin : components ['b', 'i', 'n'] = [['b', 'i', 'n']] := rfl
    have hsh : components ['b', 'i', 'n', '/', 's', 'h'] = [['b', 'i', 'n'], ['s', 'h']] := rfl
    intro e he c hpref
    refine ⟨d₂, by simp, ?_⟩
    have hlen := hpref.length_le
    simp only [List.mem_cons, List.not_mem_nil, or_false] at he
    rcases he with rfl | rfl | rfl
    · rw [h₀] at hlen
      simp [components, componentsFrom] at hlen
    · rw [h₁] at hlen
      simp [hbin] at hlen
    · rw [h₂, hsh, hbin] at hpref ⊢
      obtain ⟨rest, hrest⟩ := hpref
      simp only [List.cons_append, List.nil_append, List.cons.injEq, true_and] at hrest
      rw [hrest.1]
      rfl
  · intro e _ c _
    exact .inr rfl

/-- **The root lists a child without a name.** -/
theorem listing_disagrees_root : FindArchive shArchive shTree ∧ shMem.Holds 0 (archive shArchive trailerEntry) ∧
    DirectoryOf shBoot none ∧ ¬ListingAgrees shBoot none zeroDirent := by
  have hlist : FindList shBoot.entries := shArchive_find.findList rfl (ByteMem.read_write _) shArchive_fits
  refine ⟨shArchive_find, ByteMem.read_write _, .inl rfl, ?_⟩
  intro ha
  obtain ⟨d₀, d₁, d₂, heq, h₀, -⟩ := shBoot_entries
  refine (ha.listable hlist (.inl rfl) (by decide)).named rfl d₀ ?_ h₀
  rw [heq]
  exact List.mem_cons_self

end MyUnix.Fs
