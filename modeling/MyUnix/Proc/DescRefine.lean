import MyUnix.Proc.Descriptors

/-!
# `Proc.DescRefine` — tables and counters behave as maps

The state of the tables keeps an invariant (`DescInv`): the counts of `Proc.FdRefs`, no descriptor outside the tables of
the processes, one user of every table, and pipes whose ends are closed as their files go (`PipesOk`). The moves the
calls are made of (a file is taken, given back, put into a slot, taken out of one) keep it, never fault, and do to the
maps what their names say; the calls are put together from the moves.

The proof is bottom up. A move is one of the things that a call does to one file and one slot; each has a lemma that
says that it keeps the invariant, that it does not fault, and which map it leaves. The loops over a table are the same
move again and again, by induction over the numbers below the one that is reached. A call is a few moves in a row, so
its lemma is the moves' lemmas in a row, one for each outcome.

The file numbers of both sides are the same: files are numbered in the order in which they are made, and a number is
not used again.
-/

namespace MyUnix.Proc

open Arch Ipc Lib

/-! ## The life of a pipe

A pipe has two files from the start. Each of them closes its end when it is released, and the second one frees the
pipe.
-/

/-- A pipe two files were made for, of which those of the ends in `gone` are released. -/
structure PipeLife (o : PipeObj) (gone : End → Bool) : Prop where
  closed : o.closed = gone
  count  : o.refcount = (if gone .read then 0 else 1) + if gone .write then 0 else 1
  file   : ∀ e, o.live (.file e) = !gone e
  queue  : ∀ e, o.live (.queue e) = !(gone .read && gone .write)
  pipe   : o.live .pipe = !(gone .read && gone .write)

/-- **An end is closed** as its file goes, and the second one takes the pipe along. -/
theorem PipeLife.close {o : PipeObj} {gone : End → Bool} {e : End} (h : PipeLife o gone) (he : gone e = false) :
    ∃ o', o.close e = some o' ∧ PipeLife (o'.giveBack (.file e)) (Function.update gone e true) := by
  have hqueue : o.live (.queue e.other) = true := by
    rw [h.queue]
    cases e <;> simp [he]
  have hcount := h.count
  refine ⟨_, by rw [PipeObj.close, if_pos hqueue], ?_⟩
  have hclosed := h.closed
  cases e with
  | read =>
    cases hw : gone .write
    all_goals
      rw [he, hw] at hcount
      refine ⟨?_, ?_, fun d => ?_, fun d => ?_, ?_⟩ <;> try cases d
      all_goals simp [PipeObj.giveBack, hcount, hclosed, hw, he, h.file, h.queue, h.pipe, Function.update]
  | write =>
    cases hr : gone .read
    all_goals
      rw [he, hr] at hcount
      refine ⟨?_, ?_, fun d => ?_, fun d => ?_, ?_⟩ <;> try cases d
      all_goals simp [PipeObj.giveBack, hcount, hclosed, hr, he, h.file, h.queue, h.pipe, Function.update]

/-- The pipe behind a file has two of them, and lives as these do. -/
structure PipesOk (s : PipeFds) : Prop where
  fresh : ∀ f, s.fds.nfiles ≤ f → s.endOf f = none
  pipe  : ∀ f p e, s.endOf f = some (p, e) → p < s.npipes ∧
    ∃ file : End → Nat, (∀ d g, s.endOf g = some (p, d) ↔ g = file d) ∧ PipeLife (s.pipes p) fun d => s.fds.freed (file d)

namespace PipesOk

variable {s : PipeFds} {f : Nat}

theorem init : PipesOk descInit.files := ⟨fun _ _ => rfl, fun f p e h => by cases h⟩

/-- What does not release a file. -/
theorem congr (h : PipesOk s) {fds : FdSys} (hn : s.fds.nfiles ≤ fds.nfiles) (hfreed : fds.freed = s.fds.freed) :
    PipesOk { s with fds } := by
  refine ⟨fun f hf => h.fresh f (hn.trans hf), fun f p e he => ?_⟩
  show p < s.npipes ∧ ∃ file : End → Nat, _ ∧ PipeLife (s.pipes p) fun d => fds.freed (file d)
  rw [hfreed]
  exact h.pipe f p e he

/-- A `pipe_t` without files. -/
theorem unmade (h : PipesOk s) {pipes : Nat → PipeObj} (hp : ∀ p < s.npipes, pipes p = s.pipes p) :
    PipesOk { s with npipes := s.npipes + 1, pipes } := by
  refine ⟨h.fresh, fun f p e hf => ?_⟩
  obtain ⟨hlt, file, hfile, hlife⟩ := h.pipe f p e hf
  refine ⟨Nat.lt_succ_of_lt hlt, file, hfile, ?_⟩
  show PipeLife (pipes p) _
  rw [hp p hlt]
  exact hlife

/-- **`file_put` does not fault**, and closes the end whose file it releases. -/
theorem filePut (h : PipesOk s) (hf : s.fds.freed f = false) :
    ∃ s', s.filePut f = some s' ∧ s'.fds = s.fds.filePut f ∧ PipesOk s' := by
  by_cases hlast : s.fds.refs f - 1 = 0
  · have hfreed : (s.fds.filePut f).freed = Function.update s.fds.freed f true := if_pos hlast
    cases hend : s.endOf f with
    | none =>
      refine ⟨{ s with fds := s.fds.filePut f }, by rw [PipeFds.filePut, if_pos hlast, hend], rfl, h.fresh,
        fun g p e hg => ?_⟩
      obtain ⟨hp, file, hfile, hlife⟩ := h.pipe g p e hg
      refine ⟨hp, file, hfile, ?_⟩
      have hkept : (fun d => (s.fds.filePut f).freed (file d)) = fun d => s.fds.freed (file d) := by
        funext d
        have hne : file d ≠ f := by
          rintro rfl
          rw [(hfile d _).mpr rfl] at hend
          cases hend
        rw [hfreed, Function.update_of_ne hne]
      show PipeLife (s.pipes p) fun d => (s.fds.filePut f).freed (file d)
      rw [hkept]
      exact hlife
    | some pe =>
      obtain ⟨p, e⟩ := pe
      obtain ⟨hp, file, hfile, hlife⟩ := h.pipe f p e hend
      have hfe : f = file e := (hfile e f).mp hend
      obtain ⟨o, ho, hlife'⟩ := hlife.close (e := e) (by rw [← hfe, hf])
      refine ⟨{ s with fds := s.fds.filePut f, pipes := Function.update s.pipes p (o.giveBack (.file e)) }, ?_, rfl, h.fresh,
        fun g q d hg => ?_⟩
      · rw [PipeFds.filePut, if_pos hlast, hend]
        simp only [ho, Option.map_some, PipeFds.setPipe]
      · by_cases hqp : q = p
        · -- the pipe of `f`
          subst hqp
          refine ⟨hp, file, hfile, ?_⟩
          have hgone : (fun d => (s.fds.filePut f).freed (file d)) = Function.update (fun d => s.fds.freed (file d)) e true := by
            funext d
            by_cases hd : d = e
            · subst hd
              rw [Function.update_self, hfreed, hfe, Function.update_self]
            · have hne : file d ≠ f := by
                intro heq
                have h1 := (hfile d _).mpr rfl
                rw [heq, hend] at h1
                cases h1
                exact hd rfl
              rw [Function.update_of_ne hd, hfreed, Function.update_of_ne hne]
          show PipeLife (Function.update s.pipes q _ q) fun d => (s.fds.filePut f).freed (file d)
          rw [hgone, Function.update_self]
          exact hlife'
        · obtain ⟨hq, file', hfile', hlife₂⟩ := h.pipe g q d hg
          refine ⟨hq, file', hfile', ?_⟩
          have hkept : (fun d => (s.fds.filePut f).freed (file' d)) = fun d => s.fds.freed (file' d) := by
            funext d
            have hne : file' d ≠ f := by
              intro heq
              have h1 := (hfile' d _).mpr rfl
              rw [heq, hend] at h1
              cases h1
              exact hqp rfl
            rw [hfreed, Function.update_of_ne hne]
          show PipeLife (Function.update s.pipes p _ q) fun d => (s.fds.filePut f).freed (file' d)
          rw [hkept, Function.update_of_ne hqp]
          exact hlife₂
  · have hfreed : (s.fds.filePut f).freed = s.fds.freed := if_neg hlast
    exact ⟨{ s with fds := s.fds.filePut f }, by rw [PipeFds.filePut, if_neg hlast], rfl, h.congr le_rfl hfreed⟩

end PipesOk

/-! ## The invariant

The counter of a file is the number of slots that hold it and of calls that are at work on it (`Proc.FdRefs`). While a
table is destroyed, its process has left and its slots are still counted; `leaving` names it.
-/

/-- `leaving` is the process whose table is being destroyed, if one is. -/
structure DescInv (leaving : Option Nat) (s : PipeFds) : Prop where
  files : FdInv s.fds
  range : ∀ t i f, (s.fds.tables t).fds i = some f → t < s.fds.ntables ∧ i < fdMax
  once  : ∀ t, s.fds.live t = true → leaving ≠ some t → (s.fds.tables t).refcount = 1
  pipes : PipesOk s

/-- What a slot holds, as a descriptor. -/
def descOf (table : FdTable) (i : Nat) : Option Desc := (table.fds i).map fun f => ⟨f, table.flags i &&& fdFlagCloexec ≠ 0⟩

namespace PipeFds

variable {s : PipeFds} {st : Nat → BitVec 32} {t i f : Nat}

theorem descs_slot (s : PipeFds) (st : Nat → BitVec 32) (t i : Nat) : (s.descs st).slot t i = descOf (s.fds.tables t) i := rfl

theorem descs_lowest (s : PipeFds) (st : Nat → BitVec 32) (t : Nat) :
    (s.descs st).lowest t = (freeSlots (s.fds.tables t)).head? := by
  rw [Descs.lowest, freeSlots, List.head?_filter]
  refine congrArg (List.find? · _) (funext fun i => ?_)
  rw [descs_slot, descOf]
  simp only [Option.map_eq_none_iff]

/-- A slot written. -/
theorem descs_setSlot (s : PipeFds) (st : Nat → BitVec 32) (t i : Nat) (v : Option Nat) (flags : Nat) :
    ({ s with fds := s.fds.setSlot t i v flags } : PipeFds).descs st =
      (s.descs st).set t i (v.map fun f => ⟨f, flags &&& fdFlagCloexec ≠ 0⟩) := by
  refine Descs.ext rfl rfl rfl (funext fun u => funext fun j => ?_) rfl rfl
  by_cases hu : u = t
  · subst hu
    by_cases hj : j = i
    · subst hj
      simp [descs, Descs.set, FdSys.setSlot, FdSys.setTable]
    · simp [descs, Descs.set, FdSys.setSlot, FdSys.setTable, hj]
  · simp [descs, Descs.set, FdSys.setSlot, FdSys.setTable, hu]

/-- Slots and counters are apart. -/
theorem filePut_setSlot (s : PipeFds) (t i : Nat) (v : Option Nat) (flags f : Nat) :
    ({ s with fds := s.fds.setSlot t i v flags } : PipeFds).filePut f =
      (s.filePut f).map fun s => { s with fds := s.fds.setSlot t i v flags } := by
  unfold filePut
  by_cases hlast : s.fds.refs f - 1 = 0
  · rw [if_pos hlast, if_pos (show (s.fds.setSlot t i v flags).refs f - 1 = 0 from hlast)]
    cases s.endOf f with
    | none => rfl
    | some pe =>
      obtain ⟨p, e⟩ := pe
      cases h : (s.pipes p).close e with
      | none => simp only [h, Option.map_none]
      | some o => simp only [h, Option.map_some]; rfl
  · rw [if_neg hlast, if_neg (show ¬(s.fds.setSlot t i v flags).refs f - 1 = 0 from hlast)]
    rfl

end PipeFds

namespace DescInv

variable {x : Option Nat} {s : PipeFds} {t i f : Nat}

theorem init : DescInv none descInit.files :=
  ⟨FdInv.init, fun t i f (h : none = some f) => (by cases h), fun t (h : false = true) _ => (by cases h), PipesOk.init⟩

theorem lt_ntables (h : DescInv x s) (ht : s.fds.live t = true) : t < s.fds.ntables := h.files.live t ht

/-- A file somebody has is not released. -/
theorem not_freed (h : DescInv x s) (hf : 0 < s.fds.refs f) : s.fds.freed f = false := by
  by_contra hfr
  have := ((h.files.freed f).mp (by simpa using hfr)).2
  omega

/-! ## The moves

Fill an empty slot, clear one, take a reference, give one back.
-/

/-- **A slot lets its file go.** -/
theorem clear (h : DescInv x s) (ht : s.fds.live t = true) (hslot : (s.fds.tables t).fds i = some f) (flags : Nat) :
    ∃ s', s.filePut f = some s' ∧ s'.fds = s.fds.filePut f ∧
      DescInv x { s' with fds := s'.fds.setSlot t i none flags } ∧
      ∀ st, ({ s' with fds := s'.fds.setSlot t i none flags } : PipeFds).descs st = (s.descs st).set t i none := by
  have hlt := h.lt_ntables ht
  have hi := (h.range t i f hslot).2
  obtain ⟨s', hput, hfds, hpipes⟩ := h.pipes.filePut (h.not_freed (h.files.refs_pos_of_slot hlt hi hslot))
  refine ⟨s', hput, hfds, ⟨?_, fun u j g hg => ?_, fun u hu hx => ?_, hpipes.congr le_rfl rfl⟩, fun st => ?_⟩
  · have hclear := h.files.clear hlt hi hslot flags
    rw [← hfds] at hclear
    exact hclear
  · rw [hfds] at hg ⊢
    by_cases hut : u = t
    · subst hut
      by_cases hji : j = i
      · subst hji
        simp [FdSys.setSlot, FdSys.setTable] at hg
      · simp only [FdSys.setSlot, FdSys.setTable, Function.update_self, Function.update_of_ne hji] at hg
        exact h.range u j g hg
    · simp only [FdSys.setSlot, FdSys.setTable, Function.update_of_ne hut] at hg
      exact h.range u j g hg
  · rw [hfds] at hu ⊢
    by_cases hut : u = t
    · subst hut
      simp only [FdSys.setSlot, FdSys.setTable, Function.update_self]
      exact h.once u hu hx
    · simp only [FdSys.setSlot, FdSys.setTable, Function.update_of_ne hut]
      exact h.once u hu hx
  · rw [PipeFds.descs_setSlot]
    unfold PipeFds.descs
    rw [hfds]
    rfl

/-- **An empty slot takes a file** that is held. -/
theorem fill (h : DescInv x s) (ht : s.fds.live t = true) (hi : i < fdMax) (hempty : (s.fds.tables t).fds i = none)
    (hf : 0 < s.fds.held f) (flags : Nat) :
    DescInv x { s with fds := (s.fds.setSlot t i (some f) flags).fileGet f } := by
  have hlt := h.lt_ntables ht
  refine ⟨h.files.fill hlt hi hempty (h.files.refs_pos_of_held hf) flags, fun u j g hg => ?_, fun u hu hx => ?_,
    h.pipes.congr le_rfl rfl⟩
  · by_cases hut : u = t
    · subst hut
      by_cases hji : j = i
      · subst hji
        exact ⟨hlt, hi⟩
      · simp only [FdSys.fileGet, FdSys.setSlot, FdSys.setTable, Function.update_self, Function.update_of_ne hji] at hg
        exact h.range u j g hg
    · simp only [FdSys.fileGet, FdSys.setSlot, FdSys.setTable, Function.update_of_ne hut] at hg
      exact h.range u j g hg
  · by_cases hut : u = t
    · subst hut
      simp only [FdSys.fileGet, FdSys.setSlot, FdSys.setTable, Function.update_self]
      exact h.once u hu hx
    · simp only [FdSys.fileGet, FdSys.setSlot, FdSys.setTable, Function.update_of_ne hut]
      exact h.once u hu hx

theorem descs_fill (s : PipeFds) (st : Nat → BitVec 32) (t i f flags : Nat) :
    ({ s with fds := (s.fds.setSlot t i (some f) flags).fileGet f } : PipeFds).descs st =
      (s.descs st).set t i (some ⟨f, flags &&& fdFlagCloexec ≠ 0⟩) := PipeFds.descs_setSlot s st t i (some f) flags

/-- `fd_alloc` takes the least free number, or none. -/
theorem fdAlloc (h : DescInv x s) (ht : s.fds.live t = true) (hf : 0 < s.fds.held f) :
    (∃ i s', (∀ st, (s.descs st).lowest t = some i) ∧ i < fdMax ∧ s.fdAlloc t f = ((i : Int), s') ∧ DescInv x s' ∧
      (s'.fds.tables t).flags i = 0 ∧ (s'.fds.tables t).fds i = some f ∧
      ∀ st, s'.descs st = (s.descs st).set t i (some ⟨f, false⟩)) ∨
    ((∀ st, (s.descs st).lowest t = none) ∧ s.fdAlloc t f = (-emfile, s)) := by
  cases hfree : freeSlots (s.fds.tables t) with
  | cons i free =>
    obtain ⟨hi, hempty⟩ := mem_freeSlots.mp (hfree ▸ List.mem_cons_self : i ∈ freeSlots (s.fds.tables t))
    refine .inl ⟨i, { s with fds := (s.fds.setSlot t i (some f) 0).fileGet f }, fun st => ?_, hi, ?_,
      h.fill ht hi hempty hf 0, ?_, ?_, fun st => descs_fill s st t i f 0⟩
    · rw [PipeFds.descs_lowest, hfree]
      rfl
    · rw [PipeFds.fdAlloc, fdAlloc_of_cons f hfree]
    · simp [FdSys.fileGet, FdSys.setSlot, FdSys.setTable]
    · simp [FdSys.fileGet, FdSys.setSlot, FdSys.setTable]
  | nil =>
    refine .inr ⟨fun st => ?_, PipeFds.fdAlloc_full f hfree⟩
    rw [PipeFds.descs_lowest, hfree]
    rfl

/-- `get_file` finds the descriptor and takes a reference. -/
theorem getFile (h : DescInv x s) (ht : s.fds.live t = true) (fd : Int) :
    (∃ y s', (∀ st, (s.descs st).find t fd = some y) ∧ 0 ≤ fd ∧ fd < fdMax ∧ s.getFile t fd = (some y.file, s') ∧
      DescInv x s' ∧ 0 < s'.fds.held y.file ∧ s'.fds.tables = s.fds.tables ∧ ∀ st, s'.descs st = (s.descs st).use y.file) ∨
    ((∀ st, (s.descs st).find t fd = none) ∧ s.getFile t fd = (none, s)) := by
  by_cases hout : fd < 0 ∨ (fdMax : Int) ≤ fd
  · refine .inr ⟨fun st => if_pos hout, ?_⟩
    rw [PipeFds.getFile, FdSys.fdGet, if_pos hout]
  · rw [not_or, not_lt, not_le] at hout
    have hin : ¬(fd < 0 ∨ (fdMax : Int) ≤ fd) := by omega
    cases hslot : (s.fds.tables t).fds fd.toNat with
    | none =>
      refine .inr ⟨fun st => ?_, ?_⟩
      · rw [Descs.find, if_neg hin, PipeFds.descs_slot, descOf, hslot]
        rfl
      · rw [PipeFds.getFile, FdSys.fdGet, if_neg hin, hslot]
    | some f =>
      have hfiles := h.files.fdGet ht fd
      have hget : s.fds.fdGet t fd = (some f, { s.fds.fileGet f with held := Function.update s.fds.held f (s.fds.held f + 1) }) := by
        rw [FdSys.fdGet, if_neg hin, hslot]
      rw [hget] at hfiles
      refine .inl ⟨⟨f, (s.fds.tables t).flags fd.toNat &&& fdFlagCloexec ≠ 0⟩,
        { s with fds := { s.fds.fileGet f with held := Function.update s.fds.held f (s.fds.held f + 1) } }, fun st => ?_,
        hout.1, hout.2, ?_, ⟨hfiles, h.range, h.once, h.pipes.congr le_rfl rfl⟩, ?_, rfl, fun st => rfl⟩
      · rw [Descs.find, if_neg hin, PipeFds.descs_slot, descOf, hslot]
        rfl
      · rw [PipeFds.getFile, hget]
      · show 0 < Function.update s.fds.held f _ f
        rw [Function.update_self]
        omega

/-- A caller gives its reference back. -/
theorem callerPut (h : DescInv x s) (hf : 0 < s.fds.held f) :
    ∃ s', s.callerPut f = some s' ∧ DescInv x s' ∧ s'.fds.tables = s.fds.tables ∧ ∀ st, s'.descs st = (s.descs st).unuse f := by
  obtain ⟨s₁, hput, hfds, hpipes⟩ := h.pipes.filePut (h.not_freed (h.files.refs_pos_of_held hf))
  refine ⟨{ s₁ with fds := { s₁.fds with held := Function.update s.fds.held f (s.fds.held f - 1) } }, ?_,
    ⟨?_, ?_, ?_, hpipes.congr le_rfl rfl⟩, ?_, fun st => ?_⟩
  · rw [PipeFds.callerPut, hput]
    rfl
  · rw [hfds]
    exact h.files.callerPut hf
  · rw [hfds]
    exact h.range
  · rw [hfds]
    exact h.once
  · rw [hfds]
    rfl
  · unfold PipeFds.descs
    rw [hfds]
    rfl

theorem fdClose (h : DescInv x s) (ht : s.fds.live t = true) (fd : Int) :
    (∃ y s', (∀ st, (s.descs st).find t fd = some y) ∧ s.fdClose t fd = some (0, s') ∧ DescInv x s' ∧
      ∀ st, s'.descs st = (s.descs st).set t fd.toNat none) ∨
    ((∀ st, (s.descs st).find t fd = none) ∧ s.fdClose t fd = some (-ebadf, s)) := by
  by_cases hout : fd < 0 ∨ (fdMax : Int) ≤ fd
  · exact .inr ⟨fun st => if_pos hout, by rw [PipeFds.fdClose, if_pos hout]⟩
  · cases hslot : (s.fds.tables t).fds fd.toNat with
    | none =>
      refine .inr ⟨fun st => ?_, ?_⟩
      · rw [Descs.find, if_neg hout, PipeFds.descs_slot, descOf, hslot]
        rfl
      · rw [PipeFds.fdClose, if_neg hout, hslot]
    | some f =>
      obtain ⟨s', hput, -, hinv, hdescs⟩ := h.clear ht hslot 0
      refine .inl ⟨⟨f, (s.fds.tables t).flags fd.toNat &&& fdFlagCloexec ≠ 0⟩, _, fun st => ?_, ?_, hinv, hdescs⟩
      · rw [Descs.find, if_neg hout, PipeFds.descs_slot, descOf, hslot]
        rfl
      · rw [PipeFds.fdClose, if_neg hout, hslot]
        simp only [PipeFds.filePut_setSlot, hput, Option.map_some]

/-- `fd_alloc_at`: what the slot held goes first. -/
theorem fdAllocAt (h : DescInv x s) (ht : s.fds.live t = true) (fd : Int) (hf : 0 < s.fds.held f) :
    ∃ r s', s.fdAllocAt t fd f = some (r, s') ∧ DescInv x s' ∧ s'.fds.held = s.fds.held ∧ ∀ st, s'.descs st =
      if fd < 0 ∨ (fdMax : Int) ≤ fd then s.descs st else (s.descs st).set t fd.toNat (some ⟨f, false⟩) := by
  by_cases hout : fd < 0 ∨ (fdMax : Int) ≤ fd
  · exact ⟨-ebadf, s, by rw [PipeFds.fdAllocAt, if_pos hout], h, rfl, fun st => (if_pos hout).symm⟩
  · have hi : fd.toNat < fdMax := by
      unfold fdMax at hout ⊢
      omega
    simp only [if_neg hout]
    cases hslot : (s.fds.tables t).fds fd.toNat with
    | none =>
      refine ⟨fd, _, ?_, h.fill ht hi hslot hf 0, rfl, fun st => descs_fill s st t fd.toNat f 0⟩
      rw [PipeFds.fdAllocAt, if_neg hout, hslot]
      rfl
    | some g =>
      obtain ⟨s', hput, hfds, hinv, hdescs⟩ := h.clear ht hslot 0
      have hlive : (s'.fds.setSlot t fd.toNat none 0).live t = true := by
        rw [hfds]
        exact ht
      have hheld : 0 < (s'.fds.setSlot t fd.toNat none 0).held f := by
        rw [hfds]
        exact hf
      have hfill := hinv.fill hlive hi (by simp [FdSys.setSlot, FdSys.setTable]) hheld 0
      have hset := fun st => descs_fill { s' with fds := s'.fds.setSlot t fd.toNat none 0 } st t fd.toNat f 0
      simp only [FdSys.setSlot_setSlot] at hfill hset
      refine ⟨fd, { s' with fds := (s'.fds.setSlot t fd.toNat (some f) 0).fileGet f }, ?_, hfill, ?_, fun st => ?_⟩
      · rw [PipeFds.fdAllocAt, if_neg hout, hslot]
        simp only [hput]
        rfl
      · show s'.fds.held = _
        rw [hfds]
        rfl
      · rw [hset, hdescs]
        simp [Descs.set, Function.update_idem]

/-! ## Loops over the slots

Which descriptors a loop drops is a predicate on descriptors: all of them, or those that are to be closed on exec.
-/

/-- A loop that goes through the slots of one process and drops the descriptors in `drop`. -/
theorem dropLoop {body : PipeFds → Nat → Option PipeFds} {drop : Desc → Bool}
    (hbody : ∀ s i, DescInv x s → s.fds.live t = true → i < fdMax → ∃ s', body s i = some s' ∧ DescInv x s' ∧
      ∀ st, s'.descs st = (s.descs st).set t i (((s.descs st).slot t i).filter fun y => !drop y)) :
    ∀ {n : Nat} {s : PipeFds}, n ≤ fdMax → DescInv x s → s.fds.live t = true →
      ∃ s', (List.range n).foldlM body s = some s' ∧ DescInv x s' ∧ ∀ st, s'.descs st = (s.descs st).setAll t fun i =>
        if i < n then ((s.descs st).slot t i).filter fun y => !drop y else (s.descs st).slot t i
  | 0, s, _, h, _ => by
    refine ⟨s, rfl, h, fun st => ?_⟩
    simp [Descs.setAll]
  | n + 1, s, hn, h, ht => by
    obtain ⟨s₁, hs₁, h₁, hd₁⟩ := dropLoop hbody (Nat.le_of_succ_le hn) h ht
    have hlive : s₁.fds.live t = true := (congrFun (congrArg Descs.live (hd₁ fun _ => 0)) t).trans ht
    obtain ⟨s₂, hs₂, h₂, hd₂⟩ := hbody s₁ n h₁ hlive hn
    refine ⟨s₂, ?_, h₂, fun st => ?_⟩
    · rw [List.range_succ, List.foldlM_append, hs₁]
      simpa using hs₂
    · rw [hd₂, hd₁]
      refine Descs.ext rfl rfl rfl (funext fun u => funext fun j => ?_) rfl rfl
      by_cases hu : u = t
      · subst hu
        by_cases hj : j = n
        · subst hj
          simp [Descs.set, Descs.setAll]
        · have hiff : j < n + 1 ↔ j < n := by omega
          simp only [Descs.set, Descs.setAll, Function.update_self, Function.update_of_ne hj, hiff]
      · simp [Descs.set, Descs.setAll, hu]

/-- The whole table. -/
theorem dropAll {body : PipeFds → Nat → Option PipeFds} {drop : Desc → Bool}
    (hbody : ∀ s i, DescInv x s → s.fds.live t = true → i < fdMax → ∃ s', body s i = some s' ∧ DescInv x s' ∧
      ∀ st, s'.descs st = (s.descs st).set t i (((s.descs st).slot t i).filter fun y => !drop y))
    (h : DescInv x s) (ht : s.fds.live t = true) :
    ∃ s', (List.range fdMax).foldlM body s = some s' ∧ DescInv x s' ∧
      ∀ st, s'.descs st = (s.descs st).setAll t fun i => ((s.descs st).slot t i).filter fun y => !drop y := by
  obtain ⟨s', hs', h', hd⟩ := dropLoop hbody (Nat.le_refl fdMax) h ht
  refine ⟨s', hs', h', fun st => ?_⟩
  rw [hd]
  refine congrArg _ (funext fun i => ?_)
  split
  · rfl
  next hi =>
    -- no descriptor lies beyond the table
    have hnone : (s.fds.tables t).fds i = none := by
      cases hslot : (s.fds.tables t).fds i with
      | none => rfl
      | some f => exact absurd (h.range t i f hslot).2 hi
    rw [PipeFds.descs_slot, descOf, hnone]
    rfl

/-- `fd_close_on_exec`. -/
theorem fdCloseOnExec (h : DescInv x s) (ht : s.fds.live t = true) :
    ∃ s', s.fdCloseOnExec t = some s' ∧ DescInv x s' ∧
      ∀ st, s'.descs st = (s.descs st).setAll t fun i => ((s.descs st).slot t i).filter fun y => !y.cloexec := by
  refine dropAll (fun s i h ht hi => ?_) h ht
  cases hslot : (s.fds.tables t).fds i with
  | none =>
    refine ⟨s, by rw [PipeFds.execSlot, hslot], h, fun st => ?_⟩
    rw [Descs.set_self]
    rw [PipeFds.descs_slot, descOf, hslot]
    rfl
  | some f =>
    by_cases hflag : (s.fds.tables t).flags i &&& fdFlagCloexec ≠ 0
    · obtain ⟨s', hput, -, hinv, hdescs⟩ := h.clear ht hslot 0
      refine ⟨_, ?_, hinv, fun st => ?_⟩
      · simp only [PipeFds.execSlot, hslot, if_pos hflag, hput, Option.map_some]
      · rw [hdescs, PipeFds.descs_slot, descOf, hslot, Option.map_some, Option.filter_some_neg (by simpa using hflag)]
    · refine ⟨s, by simp only [PipeFds.execSlot, hslot, if_neg hflag], h, fun st => ?_⟩
      rw [Descs.set_self]
      rw [PipeFds.descs_slot, descOf, hslot]
      simp only [Option.map_some]
      rw [Option.filter_some_pos (by simpa using hflag)]

/-- The loop of `proc_exit`. -/
theorem closeAll (h : DescInv x s) (ht : s.fds.live t = true) :
    ∃ s', s.closeAll t = some s' ∧ DescInv x s' ∧ ∀ st, s'.descs st = (s.descs st).setAll t fun _ => none := by
  have hbody : ∀ s i, DescInv x s → s.fds.live t = true → i < fdMax →
      ∃ s', (s.fdClose t (i : Nat)).map Prod.snd = some s' ∧ DescInv x s' ∧
        ∀ st, s'.descs st = (s.descs st).set t i (((s.descs st).slot t i).filter fun _ => !true) := by
    intro s i h ht hi
    have hin : ¬((i : Int) < 0 ∨ (fdMax : Int) ≤ i) := by omega
    rcases h.fdClose ht i with ⟨y, s', -, hclose, hinv, hdescs⟩ | ⟨hnone, hclose⟩
    · refine ⟨s', by rw [hclose, Option.map_some], hinv, fun st => ?_⟩
      rw [hdescs, Int.toNat_natCast]
      simp
    · refine ⟨s, by rw [hclose, Option.map_some], h, fun st => ?_⟩
      have hslot := hnone st
      rw [Descs.find, if_neg hin, Int.toNat_natCast] at hslot
      rw [hslot, Option.filter_none, Descs.set_self _ _ hslot]
  obtain ⟨s', hs', h', hd⟩ := dropAll hbody h ht
  refine ⟨s', hs', h', fun st => ?_⟩
  rw [hd]
  simp

/-- The body of the loop of `fd_table_destroy` drops one descriptor. -/
theorem destroySlot {i : Nat} (h : DescInv (some t) s) (ht : s.fds.live t = true) :
    ∃ s', PipeFds.destroySlot t s i = some s' ∧ DescInv (some t) s' ∧
      ∀ st, s'.descs st = (s.descs st).set t i (((s.descs st).slot t i).filter fun _ => !true) := by
  cases hslot : (s.fds.tables t).fds i with
  | none =>
    refine ⟨s, by rw [PipeFds.destroySlot, hslot], h, fun st => ?_⟩
    rw [PipeFds.descs_slot, descOf, hslot, Option.map_none, Option.filter_none, Descs.set_self]
    rw [PipeFds.descs_slot, descOf, hslot, Option.map_none]
  | some f =>
    obtain ⟨s', hput, hs', hinv, hdescs⟩ := h.clear ht hslot ((s.fds.tables t).flags i)
    have hflags : (s'.fds.tables t).flags i = (s.fds.tables t).flags i := by
      rw [hs']
      rfl
    refine ⟨_, ?_, hinv, fun st => ?_⟩
    · simp only [PipeFds.destroySlot, hslot, hput, Option.map_some, hflags]
    · rw [hdescs]
      simp

/-- **`fd_table_destroy`**, for the only user of the table. -/
theorem fdTableDestroy (h : DescInv none s) (ht : s.fds.live t = true) :
    ∃ s', s.fdTableDestroy t = some s' ∧ DescInv none s' ∧
      ∀ st, s'.descs st = { (s.descs st).setAll t fun _ => none with live := Function.update s.fds.live t false } := by
  obtain ⟨s₁, hs₁⟩ : ∃ s₁ : PipeFds, s₁ = { s with
      fds := s.fds.setTable t { s.fds.tables t with refcount := (s.fds.tables t).refcount - 1 } } := ⟨_, rfl⟩
  have hfds : ∀ u, (s₁.fds.tables u).fds = (s.fds.tables u).fds ∧ (s₁.fds.tables u).flags = (s.fds.tables u).flags := by
    intro u
    rw [hs₁]
    by_cases hu : u = t
    · subst hu
      simp [FdSys.setTable]
    · simp [FdSys.setTable, Function.update_of_ne hu]
  -- with its count at 0 the table is the one that the invariant leaves out
  have h₁ : DescInv (some t) s₁ := by
    refine ⟨?_, fun u j g hg => ?_, fun u hu hx => ?_, ?_⟩
    · rw [hs₁]
      exact h.files.tablePut _
    · rw [(hfds u).1] at hg
      have := h.range u j g hg
      rw [hs₁]
      exact this
    · have hne : u ≠ t := fun heq => hx (congrArg some heq.symm)
      rw [hs₁] at hu ⊢
      simp only [FdSys.setTable, Function.update_of_ne hne]
      exact h.once u hu (by simp)
    · rw [hs₁]
      exact h.pipes.congr le_rfl rfl
  have hd₁ : ∀ st, s₁.descs st = s.descs st := by
    intro st
    refine Descs.ext (by rw [hs₁]; rfl) (by rw [hs₁]; rfl) (by rw [hs₁]; rfl) (funext fun u => funext fun j => ?_)
      (by rw [hs₁]; rfl) rfl
    rw [PipeFds.descs_slot, PipeFds.descs_slot, descOf, descOf, (hfds u).1, (hfds u).2]
  have ht₁ : s₁.fds.live t = true := by
    rw [hs₁]
    exact ht
  obtain ⟨s₂, hloop, h₂, hd₂⟩ := dropAll (fun _ _ h ht _ => h.destroySlot ht) h₁ ht₁
  have hcount : ¬(s₁.fds.tables t).refcount ≠ 0 := by
    have := h.once t ht (by simp)
    rw [hs₁]
    simp [FdSys.setTable, this]
  refine ⟨{ s₂ with fds := { s₂.fds with live := Function.update s₂.fds.live t false } }, ?_,
    ⟨?_, h₂.range, fun u hu _ => ?_, h₂.pipes.congr le_rfl rfl⟩, fun st => ?_⟩
  · rw [PipeFds.fdTableDestroy, ← hs₁]
    simp only [if_neg hcount, hloop, Option.map_some]
  · refine h₂.files.congr rfl (fun _ => rfl) fun u hu => ?_
    by_cases hut : u = t
    · subst hut
      simp at hu
    · simpa [Function.update_of_ne hut] using hu
  · by_cases hut : u = t
    · subst hut
      simp at hu
    · refine h₂.once u (by simpa [Function.update_of_ne hut] using hu) fun heq => hut (Option.some.inj heq).symm
  · have hslots := hd₂ st
    rw [hd₁] at hslots
    have hlive : s₂.fds.live = s.fds.live := congrArg Descs.live hslots
    refine Eq.trans (b := { s₂.descs st with live := Function.update s₂.fds.live t false }) rfl ?_
    rw [hslots, hlive]
    simp

/-! ## Files and tables are made

A new file has a number that was not used, and a new table a process that had none.
-/

/-- A number that no file has yet. -/
theorem unheld (h : DescInv x s) (hf : s.fds.nfiles ≤ f) : s.fds.held f = 0 ∧ s.fds.freed f = false := by
  have hrefs := h.files.fresh f hf
  have hbal := h.files.balance f
  refine ⟨by omega, ?_⟩
  by_contra hfr
  have := ((h.files.freed f).mp (by simpa using hfr)).1
  omega

/-- `proc_create`. -/
theorem spawn (h : DescInv x s) : DescInv x { s with fds := s.fds.fdTableCreate } ∧
    ∀ st, ({ s with fds := s.fds.fdTableCreate } : PipeFds).descs st = (s.descs st).addProc fun _ => none := by
  refine ⟨⟨h.files.fdTableCreate, fun u j g hg => ?_, fun u hu hx => ?_, h.pipes.congr le_rfl rfl⟩, fun st => ?_⟩
  · by_cases hun : u = s.fds.ntables
    · subst hun
      simp [FdSys.fdTableCreate] at hg
    · simp only [FdSys.fdTableCreate, Function.update_of_ne hun] at hg
      have := h.range u j g hg
      exact ⟨Nat.lt_succ_of_lt this.1, this.2⟩
  · by_cases hun : u = s.fds.ntables
    · subst hun
      simp [FdSys.fdTableCreate]
    · simp only [FdSys.fdTableCreate, Function.update_of_ne hun] at hu ⊢
      exact h.once u hu hx
  · refine Descs.ext rfl rfl rfl (funext fun u => funext fun j => ?_) rfl rfl
    by_cases hun : u = s.fds.ntables
    · subst hun
      simp [PipeFds.descs, Descs.addProc, FdSys.fdTableCreate]
    · simp [PipeFds.descs, Descs.addProc, FdSys.fdTableCreate, hun]

end DescInv

/-- The loop of `fd_table_clone` over the first `n` slots. -/
theorem clone_tables {s : FdSys} {src dst : Nat} (hne : src ≠ dst) (h : s.tables dst = ⟨fun _ => none, fun _ => 0, 1⟩) :
    ∀ n, ∃ refs, (List.range n).foldl (FdSys.cloneSlot src dst) s = { s with
      refs, tables := Function.update s.tables dst
        ⟨fun j => if j < n then (s.tables src).fds j else none,
         fun j => if j < n ∧ (s.tables src).fds j ≠ none then (s.tables src).flags j else 0, 1⟩ }
  | 0 => by
    refine ⟨s.refs, ?_⟩
    simp [← h]
  | n + 1 => by
    obtain ⟨refs, hn⟩ := clone_tables hne h n
    rw [List.range_succ, List.foldl_append, hn, List.foldl_cons, List.foldl_nil, FdSys.cloneSlot]
    simp only [Function.update_of_ne hne]
    cases hslot : (s.tables src).fds n with
    | none =>
      refine ⟨refs, ?_⟩
      dsimp only
      congr 2
      refine congrArg₂ (fun a b => FdTable.mk a b 1) (funext fun j => ?_) (funext fun j => ?_)
      · by_cases hj : j = n
        · subst hj
          simp [hslot]
        · have hiff : j < n + 1 ↔ j < n := by omega
          simp [hiff]
      · by_cases hj : j = n
        · subst hj
          simp [hslot]
        · have hiff : j < n + 1 ↔ j < n := by omega
          simp [hiff]
    | some f =>
      refine ⟨Function.update refs f (refs f + 1), ?_⟩
      simp only [FdSys.fileGet, FdSys.setSlot, FdSys.setTable, Function.update_self, Function.update_idem]
      congr 2
      refine congrArg₂ (fun a b => FdTable.mk a b 1) (funext fun j => ?_) (funext fun j => ?_)
      · by_cases hj : j = n
        · subst hj
          simp [hslot]
        · have hiff : j < n + 1 ↔ j < n := by omega
          simp [hiff, hj]
      · by_cases hj : j = n
        · subst hj
          simp [hslot]
        · have hiff : j < n + 1 ↔ j < n := by omega
          simp [hiff, hj]

namespace DescInv

variable {x : Option Nat} {s : PipeFds} {t i f : Nat}

/-- **`fd_table_clone`**: the child has the descriptors of its parent. -/
theorem fork (h : DescInv x s) (ht : s.fds.live t = true) (mem : Bool) :
    DescInv x { s with fds := s.fds.fdTableClone t mem } ∧
    ∀ st, ({ s with fds := s.fds.fdTableClone t mem } : PipeFds).descs st =
      if mem then (s.descs st).addProc ((s.descs st).slot t) else s.descs st := by
  have hfiles := h.files.fdTableClone ht mem
  cases mem with
  | false => exact ⟨h, fun st => rfl⟩
  | true =>
    have hlt := h.lt_ntables ht
    have hne : t ≠ s.fds.ntables := by omega
    have hfresh : s.fds.fdTableCreate.tables s.fds.ntables = ⟨fun _ => none, fun _ => 0, 1⟩ := by
      simp [FdSys.fdTableCreate]
    obtain ⟨refs, hclone⟩ := clone_tables hne hfresh fdMax
    have hsrc : s.fds.fdTableCreate.tables t = s.fds.tables t := by
      simp only [FdSys.fdTableCreate, Function.update_of_ne hne]
    rw [hsrc] at hclone
    have heq : s.fds.fdTableClone t true = _ := (if_pos rfl).trans hclone
    rw [heq] at hfiles ⊢
    refine ⟨⟨hfiles, fun u j g hg => ?_, fun u hu hx => ?_, h.pipes.congr le_rfl rfl⟩, fun st => ?_⟩
    · -- a slot of the new table is in range because only those below `FD_MAX` are copied
      by_cases hun : u = s.fds.ntables
      · subst hun
        simp only [Function.update_self] at hg
        split at hg
        next hj => exact ⟨Nat.lt_succ_self _, hj⟩
        next => cases hg
      · simp only [FdSys.fdTableCreate, Function.update_of_ne hun] at hg
        have := h.range u j g hg
        exact ⟨Nat.lt_succ_of_lt this.1, this.2⟩
    · by_cases hun : u = s.fds.ntables
      · subst hun
        simp only [Function.update_self]
      · simp only [FdSys.fdTableCreate, Function.update_of_ne hun] at hu ⊢
        exact h.once u hu hx
    · -- the new map is that of the parent
      refine Descs.ext rfl rfl rfl (funext fun u => funext fun j => ?_) rfl rfl
      rw [PipeFds.descs_slot]
      by_cases hun : u = s.fds.ntables
      · subst hun
        simp only [Function.update_self, descOf]
        show _ = Function.update (fun u i => descOf (s.fds.tables u) i) s.fds.ntables (descOf (s.fds.tables t)) s.fds.ntables j
        rw [Function.update_self, descOf]
        cases hslot : (s.fds.tables t).fds j with
        | none => simp
        | some f =>
          have hj := (h.range t j f hslot).2
          simp [hj]
      · show _ = Function.update (fun u i => descOf (s.fds.tables u) i) s.fds.ntables _ u j
        rw [Function.update_of_ne hun]
        simp only [FdSys.fdTableCreate, Function.update_of_ne hun]

/-- `file_alloc`. -/
theorem fileAlloc (h : DescInv x s) (cb : CloseCb) : DescInv x { s with fds := s.fds.fileAlloc cb } ∧
    ∀ st st', ({ s with fds := s.fds.fileAlloc cb } : PipeFds).descs st =
      { s.descs st' with nfiles := s.fds.nfiles + 1, status := st }.use s.fds.nfiles := by
  refine ⟨⟨h.files.fileAlloc cb, h.range, h.once, h.pipes.congr (Nat.le_succ _) rfl⟩, fun st st' => ?_⟩
  refine Descs.ext rfl rfl rfl rfl ?_ rfl
  show Function.update s.fds.held s.fds.nfiles 1 = Function.update s.fds.held s.fds.nfiles (s.fds.held s.fds.nfiles + 1)
  rw [(h.unheld le_rfl).1]

theorem created_ends (s : PipeFds) (mem : PipeBlock → Bool) : (s.created mem).endOf =
    Function.update (Function.update s.endOf s.fds.nfiles (some (s.npipes, .read))) (s.fds.nfiles + 1)
      (some (s.npipes, .write)) := rfl

theorem created_table (s : PipeFds) (mem : PipeBlock → Bool) : (s.created mem).pipes =
    Function.update s.pipes s.npipes ⟨mem, fun _ => false, 2⟩ := rfl

/-- **`pipe_create`**: two files, and a pipe with both ends open. -/
theorem pipeCreate (h : DescInv x s) {mem : PipeBlock → Bool} (hmem : ∀ b, mem b = true) :
    DescInv x (s.created mem) ∧ ∀ st st', (s.created mem).descs st =
      ({ s.descs st' with nfiles := s.fds.nfiles + 2, status := st }.use s.fds.nfiles).use (s.fds.nfiles + 1) := by
  refine ⟨⟨(h.files.fileAlloc .ops).fileAlloc .ops, h.range, h.once, ⟨fun f hf => ?_, fun f p e hf => ?_⟩⟩, fun st st' => ?_⟩
  · have hle : s.fds.nfiles + 2 ≤ f := hf
    rw [created_ends, Function.update_of_ne (by omega), Function.update_of_ne (by omega)]
    exact h.pipes.fresh f (by omega)
  · rw [created_ends] at hf
    rw [created_ends, created_table]
    -- ends that were known before belong to older pipes and older files
    have hold : ∀ g q d, s.endOf g = some (q, d) → q < s.npipes ∧ g < s.fds.nfiles := by
      intro g q d hg
      refine ⟨(h.pipes.pipe g q d hg).1, ?_⟩
      by_contra hge
      rw [h.pipes.fresh g (by omega)] at hg
      cases hg
    by_cases hp : p = s.npipes
    · -- the new pipe
      subst hp
      refine ⟨Nat.lt_succ_self _, fun d => if d = .read then s.fds.nfiles else s.fds.nfiles + 1, fun d g => ?_, ?_⟩
      · by_cases hg1 : g = s.fds.nfiles + 1
        · subst hg1
          rw [Function.update_self]
          cases d <;> simp
        · by_cases hg0 : g = s.fds.nfiles
          · subst hg0
            rw [Function.update_of_ne (by omega), Function.update_self]
            cases d <;> simp
          · rw [Function.update_of_ne hg1, Function.update_of_ne hg0]
            refine iff_of_false (fun hg => ?_) ?_
            · exact absurd (hold g _ d hg).1 (Nat.lt_irrefl _)
            · cases d
              · exact hg0
              · exact hg1
      · rw [Function.update_self]
        have hfreed : ∀ d : End, (s.created mem).fds.freed (if d = .read then s.fds.nfiles else s.fds.nfiles + 1) =
            false := by
          intro d
          cases d
          · exact (h.unheld (f := s.fds.nfiles) le_rfl).2
          · exact (h.unheld (f := s.fds.nfiles + 1) (Nat.le_succ _)).2
        have hnew : PipeLife ⟨mem, fun _ => false, 2⟩ fun _ => false := ⟨rfl, rfl, fun _ => hmem _, fun _ => hmem _, hmem _⟩
        exact (congrArg (PipeLife _) (funext hfreed)).mpr hnew
    · -- an older pipe: neither of the new files is an end of it
      obtain ⟨hlt, hf'⟩ : p < s.npipes ∧ s.endOf f = some (p, e) := by
        by_cases hf1 : f = s.fds.nfiles + 1
        · subst hf1
          rw [Function.update_self] at hf
          cases hf
          exact absurd rfl hp
        · by_cases hf0 : f = s.fds.nfiles
          · subst hf0
            rw [Function.update_of_ne (by omega), Function.update_self] at hf
            cases hf
            exact absurd rfl hp
          · rw [Function.update_of_ne hf1, Function.update_of_ne hf0] at hf
            exact ⟨(hold f p e hf).1, hf⟩
      obtain ⟨-, file, hfile, hlife⟩ := h.pipes.pipe f p e hf'
      refine ⟨Nat.lt_succ_of_lt hlt, file, fun d g => ?_, ?_⟩
      · by_cases hg : s.fds.nfiles ≤ g
        · have hnot : g ≠ file d := by
            rintro rfl
            exact absurd (hold _ _ _ ((hfile d _).mpr rfl)).2 (by omega)
          refine iff_of_false (fun hend => ?_) hnot
          by_cases hg1 : g = s.fds.nfiles + 1
          · subst hg1
            rw [Function.update_self] at hend
            cases hend
            exact hp rfl
          · by_cases hg0 : g = s.fds.nfiles
            · subst hg0
              rw [Function.update_of_ne (by omega), Function.update_self] at hend
              cases hend
              exact hp rfl
            · rw [Function.update_of_ne hg1, Function.update_of_ne hg0, h.pipes.fresh g hg] at hend
              cases hend
        · rw [Function.update_of_ne (by omega), Function.update_of_ne (by omega)]
          exact hfile d g
      · rw [Function.update_of_ne hp]
        exact hlife
  · -- the maps: both files come with one call that is at work on them
    refine Descs.ext rfl rfl rfl rfl ?_ rfl
    have h0 := (h.unheld (f := s.fds.nfiles) le_rfl).1
    have h1 := (h.unheld (f := s.fds.nfiles + 1) (Nat.le_succ _)).1
    show Function.update (Function.update s.fds.held s.fds.nfiles 1) (s.fds.nfiles + 1) 1 =
      Function.update (Function.update s.fds.held s.fds.nfiles (s.fds.held s.fds.nfiles + 1)) (s.fds.nfiles + 1)
        (Function.update s.fds.held s.fds.nfiles (s.fds.held s.fds.nfiles + 1) (s.fds.nfiles + 1) + 1)
    rw [Function.update_of_ne (by omega), h0, h1]

/-! ## A file goes to the least free number

What `open`, `dup` and each half of `pipe` end with.
-/

/-- A file that is held gets the least free number, and the reference goes back. -/
theorem give (h : DescInv x s) (ht : s.fds.live t = true) (hf : 0 < s.fds.held f) :
    ∃ fd s₁ s', s.fdAlloc t f = (fd, s₁) ∧ s₁.callerPut f = some s' ∧ DescInv x s' ∧
      ∀ st, (BitVec.ofInt 64 fd, s'.descs st) = ((s.descs st).unuse f).give t f false := by
  rcases h.fdAlloc ht hf with ⟨i, s₁, hlow, hi, halloc, h₁, -, -, hd₁⟩ | ⟨hlow, halloc⟩
  · have hheld : s₁.fds.held f = s.fds.held f := congrFun (congrArg Descs.inUse (hd₁ fun _ => 0)) f
    obtain ⟨s', hput, h', -, hd'⟩ := h₁.callerPut (hheld ▸ hf)
    refine ⟨i, s₁, s', halloc, hput, h', fun st => ?_⟩
    have hlow' : ((s.descs st).unuse f).lowest t = some i := hlow st
    rw [Descs.give_some _ _ hlow', hd', hd₁]
    rfl
  · obtain ⟨s', hput, h', -, hd'⟩ := h.callerPut hf
    refine ⟨-emfile, s, s', halloc, hput, h', fun st => ?_⟩
    have hlow' : ((s.descs st).unuse f).lowest t = none := hlow st
    rw [Descs.give_none _ _ hlow', hd']

/-- The flags of a slot are written. -/
theorem setFlags (h : DescInv x s) (flags : Nat) : DescInv x { s with fds := s.fds.setFlags t i flags } ∧
    ∀ st, ({ s with fds := s.fds.setFlags t i flags } : PipeFds).descs st =
      (s.descs st).set t i (((s.fds.tables t).fds i).map fun f => ⟨f, flags &&& fdFlagCloexec ≠ 0⟩) := by
  have hfds : ∀ u, ((s.fds.setFlags t i flags).tables u).fds = (s.fds.tables u).fds ∧
      ((s.fds.setFlags t i flags).tables u).refcount = (s.fds.tables u).refcount := by
    intro u
    by_cases hu : u = t
    · subst hu
      simp [FdSys.setFlags, FdSys.setTable]
    · simp [FdSys.setFlags, FdSys.setTable, hu]
  refine ⟨⟨h.files.setFlags flags, fun u j g hg => ?_, fun u hu hx => ?_, h.pipes.congr le_rfl rfl⟩, fun st => ?_⟩
  · rw [(hfds u).1] at hg
    exact h.range u j g hg
  · rw [(hfds u).2]
    exact h.once u hu hx
  · refine Descs.ext rfl rfl rfl (funext fun u => funext fun j => ?_) rfl rfl
    by_cases hu : u = t
    · subst hu
      by_cases hj : j = i
      · subst hj
        simp [PipeFds.descs, Descs.set, FdSys.setFlags, FdSys.setTable]
      · simp [PipeFds.descs, Descs.set, FdSys.setFlags, FdSys.setTable, hj]
    · simp [PipeFds.descs, Descs.set, FdSys.setFlags, FdSys.setTable, hu]

end DescInv

/-! ## The calls

`Meets` is what is to be shown of each call: it comes back, with the result that the maps give, in a state that stands
for the maps afterwards.
-/

namespace DescSys

variable {s : DescSys} {t : Nat}

/-- A call comes back, as it does over the maps. -/
def Meets (r : Option (Word × DescSys)) (a : Word × Descs) : Prop :=
  ∃ s', r = some (a.1, s') ∧ DescInv none s'.files ∧ s'.descs = a.2

theorem sysOpen_meets (h : DescInv none s.files) (ht : s.files.fds.live t = true) (cb : CloseCb) (flags : BitVec 32) :
    Meets (s.sysOpen t cb flags) (s.descs.openFile t flags) := by
  obtain ⟨h₁, hd₁⟩ := h.fileAlloc cb
  obtain ⟨fd, s₁, s', halloc, hput, h', hd'⟩ := h₁.give (t := t) (f := s.files.fds.nfiles) ht (by simp [FdSys.fileAlloc])
  have hres := hd' (Function.update s.fflags s.files.fds.nfiles flags)
  rw [hd₁ _ s.fflags, Descs.unuse_use] at hres
  have hopen : s.descs.openFile t flags = { s.files.descs s.fflags with
      nfiles := s.files.fds.nfiles + 1, status := Function.update s.fflags s.files.fds.nfiles flags }.give t
        s.files.fds.nfiles false := rfl
  rw [hopen, ← hres]
  refine ⟨⟨s', Function.update s.fflags s.files.fds.nfiles flags⟩, ?_, h', rfl⟩
  rw [sysOpen]
  simp only [halloc, hput, Option.map_some]

theorem sysDup_meets (h : DescInv none s.files) (ht : s.files.fds.live t = true) (fd : Word) :
    Meets (s.sysDup t fd) (s.descs.dup t fd) := by
  unfold sysDup Descs.dup
  rcases h.getFile ht (argInt fd) with ⟨y, s₁, hfind, -, -, hget, h₁, hheld, -, hd₁⟩ | ⟨hfind, hget⟩
  · have hlive : s₁.fds.live t = true := (congrFun (congrArg Descs.live (hd₁ s.fflags)) t).trans ht
    obtain ⟨newFd, s₂, s', halloc, hput, h', hd'⟩ := h₁.give hlive hheld
    have hres := hd' s.fflags
    rw [hd₁, Descs.unuse_use] at hres
    rw [show s.descs.find t (argInt fd) = some y from hfind s.fflags]
    dsimp only
    rw [show s.descs.give t y.file false = _ from hres.symm]
    refine ⟨⟨s', s.fflags⟩, ?_, h', rfl⟩
    simp only [hget, halloc, hput, Option.map_some]
  · rw [show s.descs.find t (argInt fd) = none from hfind s.fflags]
    exact ⟨s, by simp only [hget], h, rfl⟩

theorem sysDup2_meets (h : DescInv none s.files) (ht : s.files.fds.live t = true) (oldfd newfd : Word) :
    Meets (s.sysDup2 t oldfd newfd) (s.descs.dup2 t oldfd newfd) := by
  unfold sysDup2 Descs.dup2
  by_cases hsame : argInt oldfd = argInt newfd
  · rw [if_pos hsame, if_pos hsame]
    exact ⟨s, rfl, h, rfl⟩
  rw [if_neg hsame, if_neg hsame]
  rcases h.getFile ht (argInt oldfd) with ⟨y, s₁, hfind, -, -, hget, h₁, hheld, -, hd₁⟩ | ⟨hfind, hget⟩
  · have hlive : s₁.fds.live t = true := (congrFun (congrArg Descs.live (hd₁ s.fflags)) t).trans ht
    obtain ⟨r, s₂, hat, h₂, hheld₂, hd₂⟩ := h₁.fdAllocAt hlive (argInt newfd) hheld
    obtain ⟨s', hput, h', -, hd'⟩ := h₂.callerPut (f := y.file) (hheld₂ ▸ hheld)
    rw [show s.descs.find t (argInt oldfd) = some y from hfind s.fflags]
    have hdescs : s'.descs s.fflags = if argInt newfd < 0 ∨ (fdMax : Int) ≤ argInt newfd then s.descs
        else s.descs.set t (argInt newfd).toNat (some ⟨y.file, false⟩) := by
      rw [hd', hd₂, hd₁]
      split
      · exact Descs.unuse_use ..
      · exact Descs.unuse_use (s.descs.set t (argInt newfd).toNat (some ⟨y.file, false⟩)) y.file
    refine ⟨⟨s', s.fflags⟩, ?_, h', ?_⟩
    · simp only [hget, hat, Option.bind_eq_bind, Option.bind_some, hput]
      split
      · rfl
      · rfl
    · rw [show DescSys.descs ⟨s', s.fflags⟩ = _ from hdescs]
      dsimp only
      split
      · rfl
      · rfl
  · rw [show s.descs.find t (argInt oldfd) = none from hfind s.fflags]
    exact ⟨s, by simp only [hget], h, rfl⟩

theorem sysClose_meets (h : DescInv none s.files) (ht : s.files.fds.live t = true) (fd : Word) :
    Meets (s.sysClose t fd) (s.descs.close t fd) := by
  unfold sysClose Descs.close
  rcases h.fdClose ht (argInt fd) with ⟨y, s', hfind, hclose, h', hd'⟩ | ⟨hfind, hclose⟩
  · rw [show s.descs.find t (argInt fd) = some y from hfind s.fflags]
    exact ⟨⟨s', s.fflags⟩, by rw [hclose]; rfl, h', hd' s.fflags⟩
  · rw [show s.descs.find t (argInt fd) = none from hfind s.fflags]
    exact ⟨s, by rw [hclose]; rfl, h, rfl⟩

/-- The flag that `F_SETFD` leaves. -/
theorem setfd_flag (flags : Nat) (arg : Word) :
    decide ((if arg &&& 1 ≠ 0 then flags ||| fdFlagCloexec else flags &&& 0xFE) &&& fdFlagCloexec ≠ 0) =
      decide (arg &&& 1 ≠ 0) := by
  by_cases harg : arg &&& 1 ≠ 0
  · rw [if_pos harg, decide_eq_true harg, fdFlagCloexec, Nat.and_one_is_mod,
      Nat.or_mod_two_eq_one.mpr (.inr rfl)]
    rfl
  · rw [if_neg harg, decide_eq_false harg, fdFlagCloexec, Nat.and_assoc]
    simp

/-- `fd_alloc` is one of the tables. -/
theorem fdAlloc_fds {s s' : PipeFds} {t f : Nat} {r : Int} (h : s.fdAlloc t f = (r, s')) :
    s.fds.fdAlloc t f = (r, s'.fds) ∧ { s with fds := s'.fds } = s' := by
  unfold PipeFds.fdAlloc at h
  generalize s.fds.fdAlloc t f = x at h ⊢
  obtain ⟨h1, h2⟩ := Prod.mk.inj h
  rw [← h1, ← h2]
  exact ⟨rfl, rfl⟩

/-- What `get_file` found, as the slot has it. -/
theorem find_slot {s : PipeFds} {st : Nat → BitVec 32} {t : Nat} {fd : Int} {y : Desc} (h : (s.descs st).find t fd = some y) :
    (s.fds.tables t).fds fd.toNat = some y.file ∧
      y.cloexec = decide ((s.fds.tables t).flags fd.toNat &&& fdFlagCloexec ≠ 0) := by
  rw [Descs.find] at h
  split at h
  · cases h
  · rw [PipeFds.descs_slot, descOf] at h
    obtain ⟨f, hf, rfl⟩ := Option.map_eq_some_iff.mp h
    exact ⟨hf, rfl⟩

theorem sysFcntl_meets (h : DescInv none s.files) (ht : s.files.fds.live t = true) {fd : Word} (hfd : fd.toNat < 2 ^ 31)
    (cmd arg : Word) : Meets (s.sysFcntl t fd cmd arg) (s.descs.fcntl t fd cmd arg) := by
  have hint : (argInt fd).toNat = fd.toNat := by
    rw [argInt, BitVec.toInt_eq_toNat_cond, BitVec.toNat_setWidth, Nat.mod_eq_of_lt (by omega), if_pos (by omega)]
    rfl
  unfold sysFcntl Descs.fcntl
  rcases h.getFile ht (argInt fd) with ⟨y, s₁, hfind, -, -, hget, h₁, hheld, htables, hd₁⟩ | ⟨hfind, hget⟩
  · have hlive : s₁.fds.live t = true := (congrFun (congrArg Descs.live (hd₁ s.fflags)) t).trans ht
    obtain ⟨hslot, hflag⟩ := find_slot (hfind s.fflags)
    rw [hint, ← htables] at hslot hflag
    rw [show s.descs.find t (argInt fd) = some y from hfind s.fflags]
    simp only [hget]
    -- the reference goes back, whatever the command was
    have back : ∀ {files : PipeFds} {st : Nat → BitVec 32} {d : Descs} (r : Word), DescInv none files →
        0 < files.fds.held y.file → files.descs st = d.use y.file →
        Meets ((files.callerPut y.file).map fun files => (r, ⟨files, st⟩)) (r, d) := by
      intro files st d r hinv hpos hd
      obtain ⟨s', hput, h', -, hd'⟩ := hinv.callerPut hpos
      refine ⟨⟨s', st⟩, by rw [hput, Option.map_some], h', ?_⟩
      rw [show DescSys.descs ⟨s', st⟩ = _ from hd' st, hd, Descs.unuse_use]
    unfold FileSys.fcntlCmd
    simp only [show (cmd.setWidth 32).toInt = argInt cmd from rfl]
    by_cases hc : argInt cmd = fGetfd
    · have hres : (if (s₁.fds.tables t).flags fd.toNat &&& fdFlagCloexec ≠ 0 then (1 : Word) else 0) =
          if y.cloexec then 1 else 0 := by
        rw [hflag]
        simp
      simp only [if_pos hc, hres]
      exact back _ h₁ hheld (hd₁ s.fflags)
    simp only [if_neg hc]
    by_cases hc : argInt cmd = fSetfd
    · simp only [if_pos hc]
      obtain ⟨h₂, hd₂⟩ := h₁.setFlags (t := t) (i := fd.toNat)
        (if arg &&& 1 ≠ 0 then (s₁.fds.tables t).flags fd.toNat ||| fdFlagCloexec else (s₁.fds.tables t).flags fd.toNat &&& 0xFE)
      refine back 0 h₂ hheld ?_
      rw [hd₂, hslot, Option.map_some, setfd_flag, hd₁, hint]
      rfl
    simp only [if_neg hc]
    by_cases hc : argInt cmd = fGetfl
    · simp only [if_pos hc]
      exact back _ h₁ hheld (hd₁ s.fflags)
    simp only [if_neg hc]
    by_cases hc : argInt cmd = fSetfl
    · simp only [if_pos hc]
      refine back _ h₁ hheld (Eq.trans (hd₁ _) ?_)
      rfl
    simp only [if_neg hc]
    by_cases hc : argInt cmd = fDupfd ∨ argInt cmd = fDupfdCloexec
    · simp only [if_pos hc]
      rcases h₁.fdAlloc hlive hheld with ⟨i, s₂, hlow, hi, halloc, h₂, hflags₂, hslot₂, hd₂⟩ | ⟨hlow, halloc⟩
      · obtain ⟨hfds, hs₂⟩ := fdAlloc_fds halloc
        have hkept : s₂.fds.held y.file = s₁.fds.held y.file := congrFun (congrArg Descs.inUse (hd₂ s.fflags)) y.file
        have hheld₂ : 0 < s₂.fds.held y.file := hkept ▸ hheld
        have hlow' : s.descs.lowest t = some i := by
          have := hlow s.fflags
          rw [hd₁] at this
          exact this
        rw [Descs.give_some _ _ hlow', hfds]
        by_cases hcloexec : cmd = BitVec.ofInt 64 fDupfdCloexec
        · simp only [if_pos (show (0 : Int) ≤ i ∧ _ from ⟨Int.natCast_nonneg i, hcloexec⟩), decide_eq_true hcloexec,
            Int.toNat_natCast, hflags₂]
          obtain ⟨h₃, hd₃⟩ := h₂.setFlags (t := t) (i := i) (0 ||| fdFlagCloexec)
          have hfiles : ({ s₁ with fds := s₂.fds.setFlags t i (0 ||| fdFlagCloexec) } : PipeFds) =
              { s₂ with fds := s₂.fds.setFlags t i (0 ||| fdFlagCloexec) } := by rw [← hs₂]
          rw [hfiles]
          refine back _ h₃ hheld₂ ?_
          rw [hd₃, hslot₂, hd₂, hd₁, Descs.set_set, Option.map_some]
          rfl
        · simp only [if_neg (show ¬((0 : Int) ≤ i ∧ _) from fun h => hcloexec h.2), decide_eq_false hcloexec]
          rw [hs₂]
          refine back _ h₂ hheld₂ ?_
          rw [hd₂, hd₁]
          rfl
      · obtain ⟨hfds, -⟩ := fdAlloc_fds halloc
        have hlow' : s.descs.lowest t = none := by
          have := hlow s.fflags
          rw [hd₁] at this
          exact this
        rw [Descs.give_none _ _ hlow', hfds]
        simp only [if_neg (show ¬((0 : Int) ≤ -emfile ∧ _) from fun h => absurd h.1 (by decide))]
        exact back _ h₁ hheld (hd₁ s.fflags)
    · simp only [if_neg hc]
      exact back _ h₁ hheld (hd₁ s.fflags)
  · rw [show s.descs.find t (argInt fd) = none from hfind s.fflags]
    exact ⟨s, by simp only [hget], h, rfl⟩

/-! ## `pipe`

The call is taken apart by its outcome. The two files are made with a reference each, installed one after the other,
and their references given back; where there is no room for both, the first descriptor is closed again.
-/

/-- The two references of `sys_pipe` go back. -/
theorem putBoth {s : PipeFds} {f g : Nat} {st : Nat → BitVec 32} {d : Descs} (hne : f ≠ g) (h : DescInv none s)
    (hd : s.descs st = (d.use f).use g) :
    ∃ s₁ s₂, s.callerPut f = some s₁ ∧ s₁.callerPut g = some s₂ ∧ DescInv none s₂ ∧ s₂.descs st = d := by
  have hheld : s.fds.held = ((d.use f).use g).inUse := congrArg Descs.inUse hd
  obtain ⟨s₁, hput₁, h₁, -, hd₁⟩ := h.callerPut (f := f) (by
    rw [hheld]
    simp [Descs.use, hne])
  have hdescs₁ : s₁.descs st = d.use g := by
    rw [hd₁, hd, Descs.use_comm, Descs.unuse_use]
  have hheld₁ : s₁.fds.held = (d.use g).inUse := congrArg Descs.inUse hdescs₁
  obtain ⟨s₂, hput₂, h₂, -, hd₂⟩ := h₁.callerPut (f := g) (by
    rw [hheld₁]
    simp [Descs.use])
  exact ⟨s₁, s₂, hput₁, hput₂, h₂, by rw [hd₂, hdescs₁, Descs.unuse_use]⟩

/-- `fd_alloc` where a number is free. -/
theorem alloc_lowest {c : PipeFds} {f i : Nat} {st : Nat → BitVec 32} {d : Descs} (h : DescInv none c)
    (ht : c.fds.live t = true) (hheld : 0 < d.inUse f) (hd : c.descs st = d) (hlow : d.lowest t = some i) :
    i < fdMax ∧ ∃ s', c.fdAlloc t f = ((i : Int), s') ∧ DescInv none s' ∧ s'.fds.live t = true ∧
      s'.descs st = d.set t i (some ⟨f, false⟩) := by
  subst hd
  rcases h.fdAlloc ht hheld with ⟨j, s', hlow', hj, halloc, h', -, -, hd'⟩ | ⟨hlow', -⟩
  · obtain rfl : j = i := Option.some.inj ((hlow' st).symm.trans hlow)
    refine ⟨hj, s', halloc, h', ?_, hd' st⟩
    have hlive : s'.fds.live = c.fds.live := congrArg Descs.live (hd' st)
    rw [hlive]
    exact ht
  · exact absurd ((hlow' st).symm.trans hlow) (by simp)

/-- `fd_alloc` where none is. -/
theorem alloc_full {c : PipeFds} {f : Nat} {st : Nat → BitVec 32} {d : Descs} (h : DescInv none c)
    (ht : c.fds.live t = true) (hheld : 0 < d.inUse f) (hd : c.descs st = d) (hlow : d.lowest t = none) :
    c.fdAlloc t f = (-emfile, c) := by
  subst hd
  rcases h.fdAlloc ht hheld with ⟨j, s', hlow', -⟩ | ⟨-, halloc⟩
  · exact absurd ((hlow' st).symm.trans hlow) (by simp)
  · exact halloc

/-- What `sys_pipe` does with its two files. -/
def install (c : PipeFds) (t f g : Nat) (u : User) (ptr : Word) : Option (Int × PipeFds × User) :=
  let (fd0, c) := c.fdAlloc t f
  let (fd1, c) := c.fdAlloc t g
  do
    let c ← c.callerPut f
    let c ← c.callerPut g
    if fd0 < 0 ∨ fd1 < 0 then
      let c ← c.closeIf t fd0
      let c ← c.closeIf t fd1
      return (-emfile, c, u)
    else
      let (u, r) := copyToUser u (.arg 0) ptr (leBytes 4 fd0.toNat ++ leBytes 4 fd1.toNat)
      return (if r < 0 then -efault else 0, c, u)

section

variable {c : PipeFds} {f g i j : Nat} {st : Nat → BitVec 32} {d : Descs}

/-- Room for both. -/
theorem install_both (h : DescInv none c) (ht : c.fds.live t = true) (hne : f ≠ g)
    (hd : c.descs st = (d.use f).use g) (hi : d.lowest t = some i) (hj : (d.set t i (some ⟨f, false⟩)).lowest t = some j)
    (u : User) (ptr : Word) :
    ∃ s', (install c t f g u ptr).map (fun x => (x.1, x.2.1)) =
        some (if (copyToUser u (.arg 0) ptr (leBytes 4 i ++ leBytes 4 j)).2 < 0 then -efault else 0, s') ∧
      DescInv none s' ∧ s'.descs st = (d.set t i (some ⟨f, false⟩)).set t j (some ⟨g, false⟩) := by
  obtain ⟨-, s₁, halloc₁, h₁, ht₁, hd₁⟩ := alloc_lowest h ht (f := f) (by simp [Descs.use, hne]) hd hi
  obtain ⟨-, s₂, halloc₂, h₂, -, hd₂⟩ := alloc_lowest h₁ ht₁ (f := g) (by simp [Descs.use, Descs.set]) hd₁ hj
  obtain ⟨s₃, s₄, hput₃, hput₄, h₄, hd₄⟩ := putBoth hne h₂
    (d := (d.set t i (some ⟨f, false⟩)).set t j (some ⟨g, false⟩)) (by rw [hd₂]; rfl)
  refine ⟨s₄, ?_, h₄, hd₄⟩
  simp only [install, halloc₁, halloc₂, hput₃, hput₄, Option.bind_eq_bind, Option.bind_some]
  rw [if_neg (by omega)]
  rfl

/-- Room for one: it goes back. -/
theorem install_one (h : DescInv none c) (ht : c.fds.live t = true) (hne : f ≠ g)
    (hd : c.descs st = (d.use f).use g) (hi : d.lowest t = some i) (hj : (d.set t i (some ⟨f, false⟩)).lowest t = none)
    (u : User) (ptr : Word) :
    ∃ s', (install c t f g u ptr).map (fun x => (x.1, x.2.1)) = some (-emfile, s') ∧ DescInv none s' ∧ s'.descs st = d := by
  obtain ⟨hlt, s₁, halloc₁, h₁, ht₁, hd₁⟩ := alloc_lowest h ht (f := f) (by simp [Descs.use, hne]) hd hi
  have halloc₂ := alloc_full h₁ ht₁ (f := g) (by simp [Descs.use, Descs.set]) hd₁ hj
  obtain ⟨s₃, s₄, hput₃, hput₄, h₄, hd₄⟩ := putBoth hne h₁ (d := d.set t i (some ⟨f, false⟩)) (by rw [hd₁]; rfl)
  have hlive : c.fds.live = d.live := congrArg Descs.live hd
  have ht₄ : s₄.fds.live t = true := by
    have hlive₄ : s₄.fds.live = d.live := congrArg Descs.live hd₄
    rw [hlive₄, ← hlive]
    exact ht
  rcases h₄.fdClose ht₄ i with ⟨y, s₅, -, hclose, h₅, hd₅⟩ | ⟨hnone, -⟩
  · refine ⟨s₅, ?_, h₅, ?_⟩
    · simp only [install, halloc₁, halloc₂, hput₃, hput₄, Option.bind_eq_bind, Option.bind_some]
      rw [if_pos (.inr (by decide))]
      simp only [PipeFds.closeIf, if_pos (Int.natCast_nonneg i), hclose, Option.map_some, Option.bind_some,
        if_neg (show ¬(0 : Int) ≤ -emfile by decide)]
      rfl
    · have hempty : d.slot t i = none := by
        rw [Descs.lowest] at hi
        simpa using List.find?_some hi
      rw [hd₅, hd₄, Int.toNat_natCast, Descs.set_set, Descs.set_self _ _ hempty]
  · have hfound := hnone st
    rw [hd₄, Descs.find, if_neg (by omega), Int.toNat_natCast] at hfound
    simp [Descs.set] at hfound

/-- No room. -/
theorem install_none (h : DescInv none c) (ht : c.fds.live t = true) (hne : f ≠ g)
    (hd : c.descs st = (d.use f).use g) (hi : d.lowest t = none) (u : User) (ptr : Word) :
    ∃ s', (install c t f g u ptr).map (fun x => (x.1, x.2.1)) = some (-emfile, s') ∧ DescInv none s' ∧ s'.descs st = d := by
  have halloc₁ := alloc_full h ht (f := f) (by simp [Descs.use, hne]) hd hi
  have halloc₂ := alloc_full h ht (f := g) (by simp [Descs.use]) hd hi
  obtain ⟨s₃, s₄, hput₃, hput₄, h₄, hd₄⟩ := putBoth hne h hd
  refine ⟨s₄, ?_, h₄, hd₄⟩
  simp only [install, halloc₁, halloc₂, hput₃, hput₄, Option.bind_eq_bind, Option.bind_some]
  rw [if_pos (.inl (by decide))]
  simp only [PipeFds.closeIf, if_neg (show ¬(0 : Int) ≤ -emfile by decide), Option.bind_some]
  rfl

end

/-- `pipe_create` fails: nothing of what it has made is seen. -/
theorem sysPipe_unmade (h : DescInv none s.files) (u : User) (ptr : Word) {mem : PipeBlock → Bool}
    (hmade : ¬(mem .pipe = true ∧ mem (.file .read) = true ∧ mem (.file .write) = true)) :
    Meets (s.sysPipe t u ptr mem) (BitVec.ofInt 64 (-enomem), s.descs) := by
  unfold sysPipe
  simp only [if_neg hmade]
  by_cases hp : mem .pipe = true
  · have hfiles : ¬(mem (.file .read) = true ∧ mem (.file .write) = true) := fun hf => hmade ⟨hp, hf⟩
    have hkept : ∀ o o' : PipeObj, ∀ p < s.files.npipes,
        Function.update (Function.update s.files.pipes s.files.npipes o) s.files.npipes o' p = s.files.pipes p := by
      intro o o' p hlt
      rw [Function.update_of_ne (Nat.ne_of_lt hlt), Function.update_of_ne (Nat.ne_of_lt hlt)]
    obtain ⟨o, ho⟩ : ∃ o : PipeObj, o = ⟨mem, fun _ => false, 2⟩ := ⟨_, rfl⟩
    have hsys : s.files.sysPipe t u ptr mem = some (-enomem, { s.files with
        npipes := s.files.npipes + 1
        pipes := Function.update (Function.update s.files.pipes s.files.npipes o) s.files.npipes
          (((o.giveBack (.file .read)).giveBack (.file .write)).giveBack .pipe) }, u) := by
      rw [PipeFds.sysPipe, PipeFds.pipeCreate, if_pos hp, ho]
      simp only [if_neg hfiles]
      rfl
    rw [hsys]
    exact ⟨_, rfl, ⟨h.files, h.range, h.once, h.pipes.unmade (hkept _ _)⟩, rfl⟩
  · exact ⟨s, by rw [PipeFds.sysPipe, PipeFds.pipeCreate, if_neg hp]; rfl, h, rfl⟩

/-- What is left of `sys_pipe` to show once its two files are installed. -/
theorem sysPipe_installed {u : User} {ptr : Word} {mem : PipeBlock → Bool} {r : Int} {s' : PipeFds}
    {st : Nat → BitVec 32} {d : Descs} (hmade : mem .pipe = true ∧ mem (.file .read) = true ∧ mem (.file .write) = true)
    (hst : st = Function.update (Function.update s.fflags s.files.fds.nfiles oRdonly) (s.files.fds.nfiles + 1) oWronly)
    (hrun : (install (s.files.created mem) t s.files.fds.nfiles (s.files.fds.nfiles + 1) u ptr).map
      (fun x => (x.1, x.2.1)) = some (r, s'))
    (h : DescInv none s') (hd : s'.descs st = d) : Meets (s.sysPipe t u ptr mem) (BitVec.ofInt 64 r, d) := by
  refine ⟨⟨s', st⟩, ?_, h, hd⟩
  obtain ⟨x, hx, hrx⟩ := Option.map_eq_some_iff.mp hrun
  obtain ⟨rfl, rfl⟩ := Prod.mk.inj hrx
  have hsys : s.files.sysPipe t u ptr mem = some x := (PipeFds.sysPipe_made hmade.1 hmade.2.1 hmade.2.2).trans hx
  rw [sysPipe, hsys]
  simp only [if_pos hmade, ← hst, Option.map_some]

/-- **`sys_pipe`**, by how much room there is. -/
theorem sysPipe_meets (h : DescInv none s.files) (ht : s.files.fds.live t = true) (u : User) (ptr : Word)
    {mem : PipeBlock → Bool} (hqueue : ∀ e, mem (.queue e) = true) :
    Meets (s.sysPipe t u ptr mem) (s.descs.pipe t u ptr mem) := by
  unfold Descs.pipe
  by_cases hmade : mem .pipe = true ∧ mem (.file .read) = true ∧ mem (.file .write) = true
  · have hmem : ∀ b, mem b = true := by
      rintro (_ | e | e)
      · exact hmade.1
      · exact hqueue e
      · cases e
        · exact hmade.2.1
        · exact hmade.2.2
    simp only [if_pos hmade]
    obtain ⟨n, hn⟩ : ∃ n, n = s.files.fds.nfiles := ⟨_, rfl⟩
    obtain ⟨st, hst⟩ : ∃ st, st = Function.update (Function.update s.fflags n oRdonly) (n + 1) oWronly := ⟨_, rfl⟩
    obtain ⟨d, hd⟩ : ∃ d : Descs, d = { s.files.descs s.fflags with nfiles := n + 2, status := st } := ⟨_, rfl⟩
    rw [show ({ s.descs with nfiles := s.descs.nfiles + 2, status := Function.update (Function.update s.descs.status
      s.descs.nfiles oRdonly) (s.descs.nfiles + 1) oWronly } : Descs) = d by rw [hd, hst, hn]; rfl]
    rw [show s.descs.nfiles = n from hn.symm]
    obtain ⟨h₀, hd₀⟩ := h.pipeCreate hmem
    have hd₀ : (s.files.created mem).descs st = (d.use n).use (n + 1) := by
      rw [hd₀ st s.fflags, hd, ← hn]
    have hne : n ≠ n + 1 := by omega
    rw [hn] at hst hne hd₀ ⊢
    cases hi : d.lowest t with
    | none =>
      obtain ⟨s', hrun, h', hd'⟩ := install_none h₀ ht hne hd₀ hi u ptr
      exact sysPipe_installed hmade hst hrun h' hd'
    | some i =>
      cases hj : (d.set t i (some ⟨s.files.fds.nfiles, false⟩)).lowest t with
      | none =>
        obtain ⟨s', hrun, h', hd'⟩ := install_one h₀ ht hne hd₀ hi hj u ptr
        simp only [hj]
        exact sysPipe_installed hmade hst hrun h' hd'
      | some j =>
        obtain ⟨s', hrun, h', hd'⟩ := install_both h₀ ht hne hd₀ hi hj u ptr
        simp only [hj]
        exact sysPipe_installed hmade hst hrun h' hd'
  · simp only [if_neg hmade]
    exact sysPipe_unmade h u ptr hmade

end DescSys

/-! ## Whole runs

The simulation of a run. The two results about files and pipes are then read off the maps, where nothing is counted.
-/

namespace DescSys

variable {s : DescSys}

/-- Two results, of a step and of the step over the maps. -/
def StepMeets (r : Option (Option Word × DescSys)) (a : Option (Option Word × Descs)) : Prop :=
  (r = none ∧ a = none) ∨ ∃ v s', r = some (v, s') ∧ a = some (v, s'.descs) ∧ DescInv none s'.files

theorem Meets.step {r : Option (Word × DescSys)} {a : Word × Descs} (h : Meets r a) :
    StepMeets (r.map fun x => (some x.1, x.2)) (some (some a.1, a.2)) := by
  obtain ⟨s', rfl, h', hd⟩ := h
  exact .inr ⟨some a.1, s', rfl, by rw [hd], h'⟩

/-- **One event** does to the maps what it says, and comes back. -/
theorem step_meets (h : DescInv none s.files) {e : FdEvent} (hok : e.Ok) : StepMeets (descRun s e) (s.descs.step e) := by
  unfold descRun Descs.step
  by_cases hlive : e.caller.all s.files.fds.live = true
  · rw [if_pos hlive, if_pos (show e.caller.all s.descs.live = true from hlive)]
    cases e with
    | spawn =>
      obtain ⟨h', hd'⟩ := h.spawn
      exact .inr ⟨none, _, rfl, congrArg (fun d => some (none, d)) (hd' s.fflags).symm, h'⟩
    | fork t mem =>
      obtain ⟨h', hd'⟩ := h.fork hlive mem
      exact .inr ⟨none, _, rfl, congrArg (fun d => some (none, d)) (hd' s.fflags).symm, h'⟩
    | exec t =>
      obtain ⟨s', hs', h', hd'⟩ := h.fdCloseOnExec hlive
      exact .inr ⟨none, ⟨s', s.fflags⟩, by simp only [hs', Option.map_some], congrArg (fun d => some (none, d)) (hd' s.fflags).symm, h'⟩
    | exit t =>
      obtain ⟨s', hs', h', hd'⟩ := h.closeAll hlive
      exact .inr ⟨none, ⟨s', s.fflags⟩, by simp only [hs', Option.map_some], congrArg (fun d => some (none, d)) (hd' s.fflags).symm, h'⟩
    | reap t =>
      obtain ⟨s', hs', h', hd'⟩ := h.fdTableDestroy hlive
      exact .inr ⟨none, ⟨s', s.fflags⟩, by simp only [hs', Option.map_some], congrArg (fun d => some (none, d)) (hd' s.fflags).symm, h'⟩
    | openFile t cb flags => exact (sysOpen_meets h hlive cb flags).step
    | pipe t u ptr mem => exact (sysPipe_meets h hlive u ptr hok).step
    | dup t fd => exact (sysDup_meets h hlive fd).step
    | dup2 t oldfd newfd => exact (sysDup2_meets h hlive oldfd newfd).step
    | close t fd => exact (sysClose_meets h hlive fd).step
    | fcntl t fd cmd arg => exact (sysFcntl_meets h hlive hok cmd arg).step
    | begin t fd =>
      rcases h.getFile hlive (argInt fd) with ⟨y, s', hfind, -, -, hget, h', -, -, hd'⟩ | ⟨hfind, hget⟩
      · refine .inr ⟨none, ⟨s', s.fflags⟩, by simp only [hget], ?_, h'⟩
        simp only [show s.descs.find t (argInt fd) = some y from hfind s.fflags]
        exact congrArg (fun d => some (none, d)) (hd' s.fflags).symm
      · refine .inr ⟨none, s, by simp only [hget], ?_, h⟩
        simp only [show s.descs.find t (argInt fd) = none from hfind s.fflags]
    | finish f =>
      by_cases hf : 0 < s.files.fds.held f
      · obtain ⟨s', hs', h', -, hd'⟩ := h.callerPut hf
        refine .inr ⟨none, ⟨s', s.fflags⟩, by simp only [if_pos hf, hs', Option.map_some], ?_, h'⟩
        simp only [if_pos (show 0 < s.descs.inUse f from hf)]
        exact congrArg (fun d => some (none, d)) (hd' s.fflags).symm
      · exact .inl ⟨if_neg hf, if_neg hf⟩
  · rw [if_neg hlive, if_neg (show ¬e.caller.all s.descs.live = true from hlive)]
    exact .inl ⟨rfl, rfl⟩

/-- **A run** keeps the invariant, and is a run of the maps. -/
theorem run_meets {headed : HeapBlock → Bool} {es : List FdEvent}
    (hrun : Run (Guarded (fun _ e => e.Ok) (Graph (descNext headed))) descInit es s) :
    DescInv none s.files ∧ Run (Graph Descs.next) descInit.descs es s.descs := by
  induction hrun with
  | refl => exact ⟨DescInv.init, .refl⟩
  | tail _ hs ih =>
    obtain ⟨hinv, hmaps⟩ := ih
    obtain ⟨hok, hnext⟩ := hs
    obtain ⟨⟨v, s'⟩, hpanic, rfl⟩ := Option.map_eq_some_iff.mp hnext
    have hstep := (Option.filter_eq_some_iff.mp hpanic).1
    rcases step_meets hinv hok with ⟨hnone, -⟩ | ⟨v', s'', hsome, hspec, h'⟩
    · rw [hnone] at hstep
      cases hstep
    · rw [hsome] at hstep
      cases hstep
      exact ⟨h', .tail hmaps (by rw [Lib.Graph, Descs.next, hspec]; rfl)⟩

end DescSys

/-- No slot holds a file exactly if the slots that hold it are counted to nothing. -/
theorem slots_eq_zero {s : PipeFds} {x : Option Nat} (h : DescInv x s) (f : Nat) :
    s.fds.slots f = 0 ↔ ∀ t i, (s.fds.tables t).fds i ≠ some f := by
  unfold FdSys.slots slotCount
  constructor
  · intro hzero t i hslot
    obtain ⟨ht, hi⟩ := h.range t i f hslot
    have hrow := Finset.sum_eq_zero_iff.mp hzero t (Finset.mem_range.mpr ht)
    have hone := Finset.sum_eq_zero_iff.mp hrow i (Finset.mem_range.mpr hi)
    rw [if_pos hslot] at hone
    exact absurd hone (by decide)
  · intro hno
    refine Finset.sum_eq_zero fun t _ => Finset.sum_eq_zero fun i _ => ?_
    rw [if_neg (hno t i)]

/-! ## What is read off the maps

A counter that is 0 and a file that nobody has are the same thing, so the release of files and tables can be told
without counting.
-/

/-- **A file is released exactly when nobody has it.** -/
theorem freed_iff_unused {s : DescSys} (h : DescInv none s.files) {f : Nat} (hf : f < s.files.fds.nfiles) :
    s.files.fds.freed f = true ↔ s.descs.Unused f := by
  have hbal := h.files.balance f
  have hslots := slots_eq_zero h f
  rw [h.files.freed f]
  constructor
  · rintro ⟨-, hrefs⟩
    refine ⟨fun t i y hy hfile => ?_, show s.files.fds.held f = 0 by omega⟩
    obtain ⟨g, hg, rfl⟩ := Option.map_eq_some_iff.mp
      (show ((s.files.fds.tables t).fds i).map (fun f => (⟨f, _⟩ : Desc)) = some y from hy)
    exact hslots.mp (by omega) t i (hfile ▸ hg)
  · rintro ⟨hno, huse⟩
    have hheld : s.files.fds.held f = 0 := huse
    have hzero : s.files.fds.slots f = 0 := by
      refine hslots.mpr fun t i hslot => ?_
      exact hno t i ⟨f, (s.files.fds.tables t).flags i &&& fdFlagCloexec ≠ 0⟩
        (show ((s.files.fds.tables t).fds i).map _ = _ by rw [hslot]; rfl) rfl
    exact ⟨hf, by omega⟩

/-- A file that is no end of a pipe is given back in the step after which nobody has it any more. -/
theorem file_givenBack {s s' : DescSys} (h : DescInv none s.files) (h' : DescInv none s'.files) (e : FdEvent) (f : Nat) :
    .file f ∈ s.givenBack e s' ↔ f < s'.descs.nfiles ∧ s'.files.endOf f = none ∧ s'.descs.Unused f ∧
      ¬(f < s.descs.nfiles ∧ s.descs.Unused f) := by
  have hmem : .file f ∈ s'.blocks ↔ f < s'.descs.nfiles ∧ s'.files.endOf f = none := by
    simp [DescSys.blocks, DescSys.descs, PipeFds.descs]
  have hbefore : s.files.fds.freed f = false ↔ ¬(f < s.descs.nfiles ∧ s.descs.Unused f) := by
    by_cases hf : f < s.descs.nfiles
    · rw [← freed_iff_unused h hf, and_iff_right hf, Bool.not_eq_true]
    · exact iff_of_true (h.unheld (Nat.not_lt.mp hf)).2 fun hno => hf hno.1
  rw [DescSys.givenBack, List.mem_filter, hmem, and_assoc]
  refine and_congr_right fun hf => and_congr_right fun _ => ?_
  rw [← freed_iff_unused h' hf, ← hbefore, DescSys.inUseBy, DescSys.inUse, DescSys.inUse, Bool.not_not, Bool.and_eq_true,
    Bool.not_eq_true']
  · exact and_comm
  · intro p b hno
    cases hno

/-- A table is given back when its process is reaped. -/
theorem table_givenBack {s s' : DescSys} (e : FdEvent) (t : Nat) :
    .table t ∈ s.givenBack e s' ↔ t < s'.files.fds.ntables ∧ s.descs.live t = true ∧ s'.descs.live t = false := by
  have hmem : .table t ∈ s'.blocks ↔ t < s'.files.fds.ntables := by
    simp [DescSys.blocks]
  rw [DescSys.givenBack, List.mem_filter, hmem, DescSys.inUseBy, DescSys.inUse, DescSys.inUse, Bool.and_eq_true,
    Bool.not_eq_true']
  · rfl
  · intro p b hno
    cases hno

/-- A file is opened and closed again, with a second descriptor taken before. -/
def openDupClose : List FdEvent := [.spawn, .openFile 0 .ops 0, .dup 0 0, .close 0 0]

/-- The second close gives the file back: it returns if and only if the `file_t` has a header. -/
example : ((openDupClose ++ [FdEvent.close 0 1]).foldlM (descNext fun _ => true) descInit).isSome = true ∧
    ((openDupClose ++ [FdEvent.close 0 1]).foldlM (descNext fun b => b ≠ .file 0) descInit).isSome = false := by decide +kernel

/-- **A pipe lives as long as its ends.** In every run, an end of a pipe is closed, so that the other side sees the end of
    the data or a broken pipe, exactly when nobody has its file; and the `pipe_t` and its queues are released exactly when
    nobody has either. -/
theorem pipes_live_with_ends (headed : HeapBlock → Bool) (es : List FdEvent) (s : DescSys)
    (hrun : Run (Guarded (fun _ e => e.Ok) (Graph (descNext headed))) descInit es s) (f p : Nat) (e : End)
    (hend : s.files.endOf f = some (p, e)) :
    ∃ g, s.files.endOf g = some (p, e.other) ∧
      ((s.files.pipes p).closed e = true ↔ s.descs.Unused f) ∧
      ((s.files.pipes p).live (.file e) = true ↔ ¬s.descs.Unused f) ∧
      ((s.files.pipes p).live .pipe = true ↔ ¬(s.descs.Unused f ∧ s.descs.Unused g)) ∧
      ∀ d, (s.files.pipes p).live (.queue d) = true ↔ ¬(s.descs.Unused f ∧ s.descs.Unused g) := by
  obtain ⟨hinv, -⟩ := DescSys.run_meets hrun
  obtain ⟨-, file, hfile, hlife⟩ := hinv.pipes.pipe f p e hend
  have hlt : ∀ d, file d < s.files.fds.nfiles := by
    intro d
    by_contra hge
    have hnone := hinv.pipes.fresh (file d) (by omega)
    rw [(hfile d _).mpr rfl] at hnone
    cases hnone
  have hfreed : ∀ d, s.files.fds.freed (file d) = true ↔ s.descs.Unused (file d) := fun d => freed_iff_unused hinv (hlt d)
  obtain rfl : f = file e := (hfile e f).mp hend
  have hboth : (s.files.fds.freed (file .read) && s.files.fds.freed (file .write)) = true ↔
      s.descs.Unused (file e) ∧ s.descs.Unused (file e.other) := by
    rw [Bool.and_eq_true, hfreed, hfreed]
    cases e with
    | read => rfl
    | write => exact and_comm
  refine ⟨file e.other, (hfile _ _).mpr rfl, ?_, ?_, ?_, fun d => ?_⟩
  · rw [hlife.closed]
    exact hfreed e
  · rw [hlife.file, Bool.not_eq_true', ← hfreed, Bool.not_eq_true]
  · rw [hlife.pipe, Bool.not_eq_true', ← hboth, Bool.not_eq_true]
  · rw [hlife.queue, Bool.not_eq_true', ← hboth, Bool.not_eq_true]

/-- A pipe whose write end is closed, and its read end under one of its two numbers: of its blocks only the file of the
    write end is given back. -/
def pipeDupClose : List FdEvent :=
  [.spawn, .pipe 0 ⟨fun _ => 0, []⟩ 0xFFFFFFFFFFFFFFF0#64 (fun _ => true), .dup 0 0, .close 0 0, .close 0 1]

theorem pipes_live_with_ends_dup :
    ∃ s, Run (Guarded (fun _ e => FdEvent.Ok e) (Graph (descNext fun b => b = .pipe 0 (.file .write)))) descInit pipeDupClose s ∧
      s.files.endOf 0 = some (0, .read) ∧ ((s.files.pipes 0).closed .read = true ↔ s.descs.Unused 0) := by
  have hsome : (pipeDupClose.foldlM (descNext fun b => b = .pipe 0 (.file .write)) descInit).isSome := by decide +kernel
  have hend : (after (descNext fun b => b = .pipe 0 (.file .write)) descInit pipeDupClose).files.endOf 0 = some (0, .read) := by decide +kernel
  have hrun : Run (Guarded (fun _ e => FdEvent.Ok e) (Graph (descNext fun b => b = .pipe 0 (.file .write)))) descInit
      pipeDupClose _ := (Run.of_after hsome).guard (by
    intro _ e he
    simp only [pipeDupClose, List.mem_cons, List.not_mem_nil, or_false] at he
    rcases he with rfl | rfl | rfl | rfl | rfl
    · trivial
    · exact fun _ => rfl
    · trivial
    · trivial
    · trivial)
  obtain ⟨g, -, hclosed, -⟩ := pipes_live_with_ends _ _ _ hrun 0 0 .read hend
  exact ⟨_, hrun, hend, hclosed⟩

end MyUnix.Proc
