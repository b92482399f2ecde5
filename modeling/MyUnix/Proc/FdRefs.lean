import MyUnix.Proc.FdTable
import MyUnix.Lib.Run
import Mathlib.Algebra.BigOperators.Group.Finset.Basic
import Mathlib.Algebra.Order.BigOperators.Group.Finset
import Mathlib.Tactic.Ring

/-!
# `Proc.FdRefs` — reference counts of files

The counter of a file is the number of slots that hold it plus the references of callers (`FdInv.balance`). All
descriptor operations are made of three moves that keep this: a slot that was empty takes a file and counts it
(`FdInv.fill`), a reference goes away and `file_put` counts it down (`FdInv.drop`), or nothing but flags changes. The
last reference to go runs the release, once.

The balance is an equation for each file: counter = slots + holders. Each operation is a sequence of moves, and each
move changes both sides by the same amount. So there is no need to know which table a file is in, and tables that
share a file are no special case.

A table that is destroyed keeps its place among the tables with all slots empty (`DeadEmpty`), so the sum over all
tables is the sum over the live ones. That is what bounds the counter: a live table belongs to a process.
-/

namespace MyUnix.Proc

open Lib

/-- How many slots of a table hold `f`. -/
def slotCount (table : FdTable) (f : Nat) : Nat := ∑ i ∈ Finset.range fdMax, if table.fds i = some f then 1 else 0

/-- How many slots hold `f`, over all tables. -/
def FdSys.slots (s : FdSys) (f : Nat) : Nat := ∑ t ∈ Finset.range s.ntables, slotCount (s.tables t) f

/-! ## Counting slots

A sum over the slots of a table and over all tables, and what it becomes when one slot is rewritten.
-/

/-- A sum after one of its arguments is replaced. -/
theorem sum_replace {β : Type} {r : Finset Nat} {k : Nat} (hk : k ∈ r) (g : β → Nat) (h : Nat → β) (v : β) :
    (∑ x ∈ r, g (Function.update h k v x)) + g (h k) = (∑ x ∈ r, g (h x)) + g v := by
  have hrest : ∑ x ∈ r.erase k, g (Function.update h k v x) = ∑ x ∈ r.erase k, g (h x) := by
    refine Finset.sum_congr rfl fun x hx => ?_
    rw [Function.update_of_ne (Finset.ne_of_mem_erase hx)]
  rw [← Finset.add_sum_erase r _ hk, ← Finset.add_sum_erase r (fun x => g (h x)) hk, hrest, Function.update_self]
  ring

/-- One slot rewritten. -/
theorem slotCount_update (table : FdTable) {i : Nat} (hi : i < fdMax) (v : Option Nat) (flags : Nat → Nat)
    (refcount : Int) (f : Nat) :
    slotCount ⟨Function.update table.fds i v, flags, refcount⟩ f + (if table.fds i = some f then 1 else 0) =
      slotCount table f + (if v = some f then 1 else 0) :=
  sum_replace (Finset.mem_range.mpr hi) (fun w => if w = some f then 1 else 0) table.fds v

namespace FdSys

variable {s : FdSys} {t i : Nat}

/-- One table rewritten. -/
theorem slots_setTable (ht : t < s.ntables) (table : FdTable) (f : Nat) :
    (s.setTable t table).slots f + slotCount (s.tables t) f = s.slots f + slotCount table f :=
  sum_replace (Finset.mem_range.mpr ht) (fun u => slotCount u f) s.tables table

theorem slots_setSlot (ht : t < s.ntables) (hi : i < fdMax) (v : Option Nat) (flags f : Nat) :
    (s.setSlot t i v flags).slots f + (if (s.tables t).fds i = some f then 1 else 0) =
      s.slots f + (if v = some f then 1 else 0) := by
  obtain ⟨flags', hflags'⟩ : ∃ w, w = Function.update (s.tables t).flags i flags := ⟨_, rfl⟩
  have h1 := slots_setTable ht ⟨Function.update (s.tables t).fds i v, flags', (s.tables t).refcount⟩ f
  have h2 := slotCount_update (s.tables t) hi v flags' (s.tables t).refcount f
  show (s.setTable t ⟨_, Function.update (s.tables t).flags i flags, _⟩).slots f + _ = _
  rw [← hflags']
  omega

theorem slots_congr {s' : FdSys} (hn : s'.ntables = s.ntables) (ht : ∀ t, (s'.tables t).fds = (s.tables t).fds)
    (f : Nat) : s'.slots f = s.slots f := by
  unfold slots slotCount
  rw [hn]
  refine Finset.sum_congr rfl fun t _ => ?_
  rw [ht t]

/-- A slot written twice. -/
theorem setSlot_setSlot {v v' : Option Nat} {flags flags' : Nat} :
    (s.setSlot t i v flags).setSlot t i v' flags' = s.setSlot t i v' flags' := by
  simp [setSlot, setTable, Function.update_idem]

end FdSys

/-! ## The invariant

Besides the balance: the counter of a freed file is 0 for ever, and each release ran one callback.
-/

/-- The references of a file are its slots and its holders, and it is freed when there are none. -/
structure FdInv (s : FdSys) : Prop where
  balance : ∀ f, s.refs f = s.slots f + s.held f
  freed   : ∀ f, s.freed f = true ↔ f < s.nfiles ∧ s.refs f = 0
  closed  : ∀ f, s.closeLog.count f = if s.freed f = true ∧ s.closeCb f ≠ .none then 1 else 0
  fresh   : ∀ f, s.nfiles ≤ f → s.refs f = 0
  live    : ∀ t, s.live t = true → t < s.ntables

namespace FdInv

variable {s : FdSys} {t i f : Nat}

theorem init : FdInv fdInit := by
  refine ⟨fun f => ?_, fun f => ?_, fun f => ?_, fun _ _ => rfl, fun t h => by cases h⟩
  · simp [fdInit, FdSys.slots]
  · simp [fdInit]
  · simp [fdInit]

theorem lt_nfiles (h : FdInv s) (hf : 0 < s.refs f) : f < s.nfiles := by
  by_contra hge
  have := h.fresh f (by omega)
  omega

theorem refs_pos_of_held (h : FdInv s) (hf : 0 < s.held f) : 0 < s.refs f := by
  have := h.balance f
  omega

theorem refs_pos_of_slot (h : FdInv s) (ht : t < s.ntables) (hi : i < fdMax)
    (hslot : (s.tables t).fds i = some f) : 0 < s.refs f := by
  have hbal := h.balance f
  have hcount := FdSys.slots_setSlot ht hi none 0 f
  rw [if_pos hslot] at hcount
  simp only [reduceCtorEq, if_false] at hcount
  omega

/-- **One reference more**, in a slot or with a caller. -/
theorem get (h : FdInv s) (hf : 0 < s.refs f) {s' : FdSys} (htables : s'.ntables = s.ntables)
    (hs' : s' = { s.fileGet f with tables := s'.tables, held := s'.held })
    (hcount : ∀ g, s'.slots g + s'.held g = s.slots g + s.held g + if g = f then 1 else 0) : FdInv s' := by
  have hlt := h.lt_nfiles hf
  have hrefs : s'.refs = Function.update s.refs f (s.refs f + 1) := by rw [hs']; rfl
  have hfreed : s'.freed = s.freed := by rw [hs']; rfl
  have hlog : s'.closeLog = s.closeLog := by rw [hs']; rfl
  have hcb : s'.closeCb = s.closeCb := by rw [hs']; rfl
  have hn : s'.nfiles = s.nfiles := by rw [hs']; rfl
  have hlive : s'.live = s.live := by rw [hs']; rfl
  refine ⟨fun g => ?_, fun g => ?_, fun g => ?_, fun g hg => ?_, fun t ht => ?_⟩
  · have hbal := h.balance g
    have hg := hcount g
    rw [hrefs]
    by_cases hgf : g = f
    · subst hgf
      rw [Function.update_self]
      rw [if_pos rfl] at hg
      omega
    · rw [Function.update_of_ne hgf]
      rw [if_neg hgf] at hg
      omega
  · rw [hfreed, hn, h.freed, hrefs]
    by_cases hgf : g = f
    · subst hgf
      rw [Function.update_self]
      omega
    · rw [Function.update_of_ne hgf]
  · rw [hlog, hfreed, hcb]
    exact h.closed g
  · rw [hn] at hg
    rw [hrefs, Function.update_of_ne (by omega)]
    exact h.fresh g hg
  · rw [htables]
    rw [hlive] at ht
    exact h.live t ht

/-- **One reference less**, with `file_put`. -/
theorem put (h : FdInv s) {s' : FdSys} (htables : s'.ntables = s.ntables)
    (hs' : s' = { s.filePut f with tables := s'.tables, held := s'.held })
    (hcount : ∀ g, s'.slots g + s'.held g + (if g = f then 1 else 0) = s.slots g + s.held g) : FdInv s' := by
  have hf : 0 < s.refs f := by
    have hbal := h.balance f
    have hg := hcount f
    rw [if_pos rfl] at hg
    omega
  have hlt := h.lt_nfiles hf
  have hrefs : s'.refs = Function.update s.refs f (s.refs f - 1) := by rw [hs']; rfl
  have hfreed : s'.freed = if s.refs f - 1 = 0 then Function.update s.freed f true else s.freed := by rw [hs']; rfl
  have hlog : s'.closeLog =
      if s.refs f - 1 = 0 ∧ s.closeCb f ≠ .none then f :: s.closeLog else s.closeLog := by rw [hs']; rfl
  have hcb : s'.closeCb = s.closeCb := by rw [hs']; rfl
  have hn : s'.nfiles = s.nfiles := by rw [hs']; rfl
  have hlive : s'.live = s.live := by rw [hs']; rfl
  -- a file with a reference has not been freed
  have hnot : s.freed f = false := by
    by_contra hfr
    have := (h.freed f).mp (by simpa using hfr)
    omega
  refine ⟨fun g => ?_, fun g => ?_, fun g => ?_, fun g hg => ?_, fun t ht => ?_⟩
  · -- the balance: both sides of the file go down by one
    have hbal := h.balance g
    have hg := hcount g
    rw [hrefs]
    -- freed is what has no reference any more
    by_cases hgf : g = f
    · subst hgf
      rw [Function.update_self]
      rw [if_pos rfl] at hg
      omega
    · rw [Function.update_of_ne hgf]
      rw [if_neg hgf] at hg
      omega
  · rw [hfreed, hn, hrefs]
    by_cases hgf : g = f
    · subst hgf
      rw [Function.update_self]
      by_cases hlast : s.refs g - 1 = 0
      · rw [if_pos hlast, Function.update_self]
        simp [hlt, hlast]
      · rw [if_neg hlast, hnot]
        simp [hlast]
    · rw [Function.update_of_ne hgf]
      by_cases hlast : s.refs f - 1 = 0
      · rw [if_pos hlast, Function.update_of_ne hgf]
        exact h.freed g
      · rw [if_neg hlast]
        exact h.freed g
  · rw [hlog, hfreed, hcb]
    have hold := h.closed g
    by_cases hlast : s.refs f - 1 = 0
    · rw [if_pos hlast]
      by_cases hgf : g = f
      · -- the release: nothing was logged for `f` so far
        subst hgf
        rw [Function.update_self]
        simp only [hnot, Bool.false_eq_true, false_and, if_false] at hold
        by_cases hc : s.closeCb g = .none
        · simp [hlast, hc, hold]
        · simp [hlast, hc, hold]
      · rw [Function.update_of_ne hgf, ← hold]
        split
        · exact List.count_cons_of_ne (Ne.symm hgf)
        · rfl
    · rw [if_neg hlast, if_neg (by simp [hlast])]
      exact hold
  · -- files that were not made yet
    rw [hn] at hg
    rw [hrefs, Function.update_of_ne (by omega)]
    exact h.fresh g hg
  · rw [htables]
    rw [hlive] at ht
    exact h.live t ht

/-- **An empty slot takes a file.** -/
theorem fill (h : FdInv s) (ht : t < s.ntables) (hi : i < fdMax) (hempty : (s.tables t).fds i = none)
    (hf : 0 < s.refs f) (flags : Nat) : FdInv ((s.setSlot t i (some f) flags).fileGet f) := by
  refine h.get hf rfl rfl fun g => ?_
  have hcount := FdSys.slots_setSlot ht hi (some f) flags g
  rw [if_neg (by simp [hempty])] at hcount
  show (s.setSlot t i (some f) flags).slots g + s.held g = _
  by_cases hgf : g = f
  · subst hgf
    simp only [if_true] at hcount ⊢
    omega
  · rw [if_neg (by simpa using Ne.symm hgf)] at hcount
    rw [if_neg hgf]
    omega

/-- **A slot lets its file go.** -/
theorem clear (h : FdInv s) (ht : t < s.ntables) (hi : i < fdMax) (hslot : (s.tables t).fds i = some f)
    (flags : Nat) : FdInv ((s.filePut f).setSlot t i none flags) := by
  refine h.put rfl rfl fun g => ?_
  have hcount := FdSys.slots_setSlot ht hi none flags g
  rw [hslot] at hcount
  simp only [reduceCtorEq, if_false, Option.some.injEq] at hcount
  show (s.setSlot t i none flags).slots g + s.held g + _ = _
  by_cases hgf : g = f
  · subst hgf
    simp only [if_true] at hcount ⊢
    omega
  · rw [if_neg (Ne.symm hgf)] at hcount
    rw [if_neg hgf]
    omega

/-- Nothing that is counted changes. -/
theorem congr (h : FdInv s) {s' : FdSys} (hs' : s' = { s with tables := s'.tables, live := s'.live })
    (hfds : ∀ t, (s'.tables t).fds = (s.tables t).fds) (hlive : ∀ t, s'.live t = true → s.live t = true) :
    FdInv s' := by
  have hslots : ∀ f, s'.slots f = s.slots f := FdSys.slots_congr (by rw [hs']) hfds
  refine ⟨fun f => ?_, fun f => ?_, fun f => ?_, fun f hf => ?_, fun t ht => ?_⟩
  · rw [hslots, hs']
    exact h.balance f
  · rw [hs']
    exact h.freed f
  · rw [hs']
    exact h.closed f
  · rw [hs'] at hf ⊢
    exact h.fresh f hf
  · have := h.live t (hlive t ht)
    rw [hs']
    exact this

/-! ## The operations

The moves, and the calls as sequences of them.
-/

theorem fileAlloc (h : FdInv s) (cb : CloseCb) : FdInv (s.fileAlloc cb) := by
  have hzero := h.fresh s.nfiles (Nat.le_refl _)
  have hbal := h.balance s.nfiles
  have hnot : s.freed s.nfiles = false := by
    by_contra hfr
    have := (h.freed s.nfiles).mp (by simpa using hfr)
    omega
  refine ⟨fun f => ?_, fun f => ?_, fun f => ?_, fun f hf => ?_, h.live⟩
  · show Function.update s.refs s.nfiles 1 f = s.slots f + (Function.update s.held s.nfiles 1 f : Nat)
    by_cases hf : f = s.nfiles
    · subst hf
      rw [Function.update_self, Function.update_self]
      omega
    · rw [Function.update_of_ne hf, Function.update_of_ne hf]
      exact h.balance f
  · show s.freed f = true ↔ f < s.nfiles + 1 ∧ Function.update s.refs s.nfiles 1 f = 0
    by_cases hf : f = s.nfiles
    · subst hf
      rw [Function.update_self, hnot]
      simp
    · rw [Function.update_of_ne hf, h.freed]
      omega
  · show s.closeLog.count f = if s.freed f = true ∧ Function.update s.closeCb s.nfiles cb f ≠ .none then 1 else 0
    rw [h.closed f]
    by_cases hf : f = s.nfiles
    · subst hf
      simp [hnot]
    · rw [Function.update_of_ne hf]
  · show Function.update s.refs s.nfiles 1 f = 0
    have hle : s.nfiles + 1 ≤ f := hf
    rw [Function.update_of_ne (by omega)]
    exact h.fresh f (by omega)

/-- A caller gives its reference back. -/
theorem callerPut (h : FdInv s) (hf : 0 < s.held f) :
    FdInv { s.filePut f with held := Function.update s.held f (s.held f - 1) } := by
  refine h.put rfl rfl fun g => ?_
  show s.slots g + Function.update s.held f (s.held f - 1) g + _ = _
  by_cases hgf : g = f
  · subst hgf
    rw [Function.update_self, if_pos rfl]
    omega
  · rw [Function.update_of_ne hgf, if_neg hgf]
    omega

theorem fdTableCreate (h : FdInv s) : FdInv s.fdTableCreate := by
  have hslots : ∀ f, s.fdTableCreate.slots f = s.slots f := by
    intro f
    unfold FdSys.slots
    show ∑ t ∈ Finset.range (s.ntables + 1), slotCount (Function.update s.tables s.ntables _ t) f = _
    rw [Finset.sum_range_succ, Function.update_self]
    have hempty : slotCount ⟨fun _ => none, fun _ => 0, 1⟩ f = 0 := by simp [slotCount]
    rw [hempty, Nat.add_zero]
    refine Finset.sum_congr rfl fun t ht => ?_
    have hne : t ≠ s.ntables := by
      have := Finset.mem_range.mp ht
      omega
    rw [Function.update_of_ne hne]
  refine ⟨fun f => ?_, h.freed, h.closed, h.fresh, fun t ht => ?_⟩
  · rw [hslots]
    exact h.balance f
  · show t < s.ntables + 1
    change Function.update s.live s.ntables true t = true at ht
    by_cases htn : t = s.ntables
    · omega
    · rw [Function.update_of_ne htn] at ht
      have := h.live t ht
      omega

theorem fdAlloc (h : FdInv s) (ht : s.live t = true) (hf : 0 < s.held f) : FdInv (s.fdAlloc t f).2 := by
  unfold FdSys.fdAlloc
  split
  · rename_i i hfind
    have hi := List.mem_range.mp (List.mem_of_find?_eq_some hfind)
    have hempty := List.find?_some hfind
    exact h.fill (h.live t ht) hi (by simpa using hempty) (h.refs_pos_of_held hf) 0
  · exact h

theorem fdAllocAt (h : FdInv s) (ht : s.live t = true) (fd : Int) (hf : 0 < s.held f) :
    FdInv (s.fdAllocAt t fd f).2 := by
  unfold FdSys.fdAllocAt
  split
  · exact h
  · rename_i hfd
    have hi : fd.toNat < fdMax := by
      unfold fdMax at hfd ⊢
      omega
    simp only []
    split
    · -- the slot is emptied first; the caller's own reference keeps `f` alive
      rename_i g hslot
      have hcleared := h.clear (h.live t ht) hi hslot 0
      have hpos := hcleared.refs_pos_of_held hf
      have hfill := hcleared.fill (h.live t ht) hi (by simp [FdSys.setSlot, FdSys.setTable]) hpos 0
      rw [FdSys.setSlot_setSlot] at hfill
      exact hfill
    · rename_i hslot
      exact h.fill (h.live t ht) hi hslot (h.refs_pos_of_held hf) 0

theorem fdGet (h : FdInv s) (ht : s.live t = true) (fd : Int) : FdInv (s.fdGet t fd).2 := by
  unfold FdSys.fdGet
  split
  · exact h
  · rename_i hfd
    have hi : fd.toNat < fdMax := by
      unfold fdMax at hfd ⊢
      omega
    split
    · rename_i g hslot
      refine h.get (h.refs_pos_of_slot (h.live t ht) hi hslot) rfl rfl fun k => ?_
      show s.slots k + Function.update s.held g (s.held g + 1) k = _
      by_cases hk : k = g
      · subst hk
        rw [Function.update_self, if_pos rfl]
        omega
      · rw [Function.update_of_ne hk, if_neg hk]
        omega
    · exact h

theorem fdClose (h : FdInv s) (ht : s.live t = true) (fd : Int) : FdInv (s.fdClose t fd).2 := by
  unfold FdSys.fdClose
  split
  · exact h
  · rename_i hfd
    have hi : fd.toNat < fdMax := by
      unfold fdMax at hfd ⊢
      omega
    split
    · rename_i g hslot
      exact h.clear (h.live t ht) hi hslot 0
    · exact h

/-! ## Loops over the slots

Closing on exec, destroying and cloning a table visit every slot once. A loop whose body keeps the invariant keeps it.
-/

/-- A loop over slots whose body keeps the invariant and the number of tables. -/
theorem foldl_slots {body : FdSys → Nat → FdSys} {is : List Nat} (h : FdInv s) (hn : t < s.ntables)
    (his : ∀ i ∈ is, i < fdMax)
    (hbody : ∀ s i, FdInv s → t < s.ntables → i < fdMax → FdInv (body s i) ∧ t < (body s i).ntables) :
    FdInv (is.foldl body s) := by
  induction is generalizing s with
  | nil => exact h
  | cons i is ih =>
      obtain ⟨h1, h2⟩ := hbody s i h hn (his i List.mem_cons_self)
      exact ih h1 h2 fun j hj => his j (List.mem_cons_of_mem i hj)

theorem fdCloseOnExec (h : FdInv s) (ht : s.live t = true) : FdInv (s.fdCloseOnExec t) := by
  refine h.foldl_slots (h.live t ht) (fun i hi => List.mem_range.mp hi) fun s i h hn hi => ?_
  unfold FdSys.execSlot
  split
  · rename_i f hslot
    split
    · exact ⟨h.clear hn hi hslot 0, hn⟩
    · exact ⟨h, hn⟩
  · exact ⟨h, hn⟩

theorem destroySlot (h : FdInv s) (hn : t < s.ntables) (hi : i < fdMax) :
    FdInv (FdSys.destroySlot t s i) ∧ t < (FdSys.destroySlot t s i).ntables := by
  unfold FdSys.destroySlot
  split
  · rename_i f hslot
    exact ⟨h.clear hn hi hslot _, hn⟩
  · exact ⟨h, hn⟩

/-- Counting the table itself down. -/
theorem tablePut (h : FdInv s) (refcount : Int) : FdInv (s.setTable t { s.tables t with refcount := refcount }) := by
  refine h.congr rfl (fun u => ?_) fun u hu => hu
  by_cases hu : u = t
  · subst hu
    simp [FdSys.setTable]
  · simp [FdSys.setTable, Function.update_of_ne hu]

theorem destroyLoop (h : FdInv s) (hn : t < s.ntables) {is : List Nat} (his : ∀ i ∈ is, i < fdMax) :
    FdInv { is.foldl (FdSys.destroySlot t) s with
      live := Function.update (is.foldl (FdSys.destroySlot t) s).live t false } := by
  have hloop := h.foldl_slots hn his fun s i h hn hi => h.destroySlot hn hi
  generalize is.foldl (FdSys.destroySlot t) s = s₂ at hloop ⊢
  refine hloop.congr rfl (fun _ => rfl) fun u hu => ?_
  by_cases hut : u = t
  · subst hut
    simp at hu
  · simpa [Function.update_of_ne hut] using hu

theorem fdTableDestroy (h : FdInv s) (ht : s.live t = true) : FdInv (s.fdTableDestroy t) := by
  have hput := h.tablePut (t := t) ((s.tables t).refcount - 1)
  unfold FdSys.fdTableDestroy
  simp only []
  split
  · exact hput
  · exact hput.destroyLoop (h.live t ht) fun i hi => List.mem_range.mp hi

/-- The slots of the copy from `k` on are still empty while slot `k` is copied. -/
theorem cloneSlots (src dst : Nat) (hne : src ≠ dst) (hsrc : src < s.ntables) (hdst : dst < s.ntables) (h : FdInv s)
    (hempty : ∀ j, (s.tables dst).fds j = none) :
    ∀ k, k ≤ fdMax → ∃ s', s' = (List.range k).foldl (FdSys.cloneSlot src dst) s ∧ FdInv s' ∧
      s'.ntables = s.ntables ∧ ∀ j, k ≤ j → (s'.tables dst).fds j = none
  | 0,     _  => ⟨s, rfl, h, rfl, fun j _ => hempty j⟩
  | k + 1, hk => by
    obtain ⟨s', hs', h', hn', hrest⟩ := cloneSlots src dst hne hsrc hdst h hempty k (by omega)
    refine ⟨_, rfl, ?_⟩
    rw [List.range_succ, List.foldl_append, List.foldl_cons, List.foldl_nil, ← hs']
    unfold FdSys.cloneSlot
    split
    · rename_i f hslot
      have hpos := h'.refs_pos_of_slot (hn' ▸ hsrc) hk hslot
      refine ⟨h'.fill (hn' ▸ hdst) hk (hrest k (Nat.le_refl k)) hpos _, hn', fun j hj => ?_⟩
      have hjk : j ≠ k := by omega
      have := hrest j (by omega)
      simpa [FdSys.fileGet, FdSys.setSlot, FdSys.setTable, Function.update_of_ne hjk] using this
    · exact ⟨h', hn', fun j hj => hrest j (by omega)⟩

theorem fdTableClone (h : FdInv s) (ht : s.live t = true) (mem : Bool) : FdInv (s.fdTableClone t mem) := by
  unfold FdSys.fdTableClone
  split
  · have hlt := h.live t ht
    obtain ⟨s', hs', h', -, -⟩ := h.fdTableCreate.cloneSlots t s.ntables (by omega) (Nat.lt_succ_of_lt hlt)
      (Nat.lt_succ_self _) (fun j => by simp [FdSys.fdTableCreate]) fdMax (Nat.le_refl _)
    rw [← hs']
    exact h'
  · exact h

theorem setFlags (h : FdInv s) (flags : Nat) : FdInv (s.setFlags t i flags) := by
  refine h.congr rfl (fun u => ?_) fun u hu => hu
  by_cases hu : u = t
  · subst hu
    simp [FdSys.setFlags, FdSys.setTable]
  · simp [FdSys.setFlags, FdSys.setTable, Function.update_of_ne hu]

/-- **One call** keeps the invariant. -/
theorem step (h : FdInv s) {op : FdOp} {s' : FdSys} (hs : fdStep s op = some s') : FdInv s' := by
  cases op with
  | fileAlloc cb =>
      cases hs
      exact h.fileAlloc cb
  | filePut f =>
      simp only [fdStep, Option.ite_none_right_eq_some, Option.some.injEq] at hs
      obtain ⟨hf, rfl⟩ := hs
      exact h.callerPut hf
  | tableCreate =>
      cases hs
      exact h.fdTableCreate
  | tableClone src mem =>
      simp only [fdStep, Option.ite_none_right_eq_some, Option.some.injEq] at hs
      obtain ⟨ht, rfl⟩ := hs
      exact h.fdTableClone ht mem
  | tableDestroy t =>
      simp only [fdStep, Option.ite_none_right_eq_some, Option.some.injEq] at hs
      obtain ⟨ht, rfl⟩ := hs
      exact h.fdTableDestroy ht
  | alloc t f =>
      simp only [fdStep, Option.ite_none_right_eq_some, Option.some.injEq] at hs
      obtain ⟨⟨ht, hf⟩, rfl⟩ := hs
      exact h.fdAlloc ht hf
  | allocAt t fd f =>
      simp only [fdStep, Option.ite_none_right_eq_some, Option.some.injEq] at hs
      obtain ⟨⟨ht, hf⟩, rfl⟩ := hs
      exact h.fdAllocAt ht fd hf
  | get t fd =>
      simp only [fdStep, Option.ite_none_right_eq_some, Option.some.injEq] at hs
      obtain ⟨ht, rfl⟩ := hs
      exact h.fdGet ht fd
  | close t fd =>
      simp only [fdStep, Option.ite_none_right_eq_some, Option.some.injEq] at hs
      obtain ⟨ht, rfl⟩ := hs
      exact h.fdClose ht fd
  | closeOnExec t =>
      simp only [fdStep, Option.ite_none_right_eq_some, Option.some.injEq] at hs
      obtain ⟨ht, rfl⟩ := hs
      exact h.fdCloseOnExec ht
  | setFlags t i flags =>
      simp only [fdStep, Option.ite_none_right_eq_some, Option.some.injEq] at hs
      obtain ⟨-, rfl⟩ := hs
      exact h.setFlags flags

theorem run (ops : List FdOp) (s : FdSys) (hrun : Run (Graph fdStep) fdInit ops s) : FdInv s := by
  refine hrun.invariant FdInv init ?_
  intro s op t hs hstep
  exact hs.step hstep

end FdInv

/-! ## Destroyed tables

A table that is not live any more has no file in any slot, so only the live tables count. Every call works on tables
that are live, one at a time, and `fd_table_destroy` empties the one it takes away. -/

/-- A call has changed the slots of table `t` at most. -/
structure OnTable (t : Nat) (s s' : FdSys) : Prop where
  live   : s'.live = s.live
  tables : s'.ntables = s.ntables
  others : ∀ u, u ≠ t → (s'.tables u).fds = (s.tables u).fds

/-- The tables that are not destroyed. -/
def FdSys.liveTables (s : FdSys) : Finset Nat := (Finset.range s.ntables).filter fun t => s.live t

/-- A table that is not live is empty. -/
def DeadEmpty (s : FdSys) : Prop := ∀ t, s.live t = false → ∀ i < fdMax, (s.tables t).fds i = none

namespace OnTable

variable {s s₁ s₂ : FdSys} {t i f : Nat}

theorem refl : OnTable t s s := ⟨rfl, rfl, fun _ _ => rfl⟩

theorem trans (h : OnTable t s s₁) (h' : OnTable t s₁ s₂) : OnTable t s s₂ :=
  ⟨h'.live.trans h.live, h'.tables.trans h.tables, fun u hu => (h'.others u hu).trans (h.others u hu)⟩

theorem fileGet : OnTable t s (s.fileGet f) := ⟨rfl, rfl, fun _ _ => rfl⟩

theorem filePut : OnTable t s (s.filePut f) := ⟨rfl, rfl, fun _ _ => rfl⟩

theorem setSlot {v : Option Nat} {flags : Nat} : OnTable t s (s.setSlot t i v flags) where
  live := rfl
  tables := rfl
  others u hu := by simp [FdSys.setSlot, FdSys.setTable, Function.update_of_ne hu]

theorem setFlags {flags : Nat} : OnTable t s (s.setFlags t i flags) where
  live := rfl
  tables := rfl
  others u hu := by simp [FdSys.setFlags, FdSys.setTable, Function.update_of_ne hu]

theorem fdAlloc : OnTable t s (s.fdAlloc t f).2 := by
  unfold FdSys.fdAlloc
  split
  · exact setSlot.trans fileGet
  · exact refl

theorem fdAllocAt {fd : Int} : OnTable t s (s.fdAllocAt t fd f).2 := by
  unfold FdSys.fdAllocAt
  split
  · exact refl
  · simp only []
    split
    · exact filePut.trans (setSlot.trans fileGet)
    · exact setSlot.trans fileGet

theorem fdGet {fd : Int} : OnTable t s (s.fdGet t fd).2 := by
  unfold FdSys.fdGet
  split
  · exact refl
  · split
    · exact ⟨rfl, rfl, fun _ _ => rfl⟩
    · exact refl

theorem fdClose {fd : Int} : OnTable t s (s.fdClose t fd).2 := by
  unfold FdSys.fdClose
  split
  · exact refl
  · split
    · exact setSlot.trans filePut
    · exact refl

/-- A loop whose body works on the table. -/
theorem foldl {body : FdSys → Nat → FdSys} (hbody : ∀ s i, OnTable t s (body s i)) (is : List Nat) (s : FdSys) :
    OnTable t s (is.foldl body s) := by
  induction is generalizing s with
  | nil => exact refl
  | cons i is ih => exact (hbody s i).trans (ih (body s i))

theorem execSlot : OnTable t s (FdSys.execSlot t s i) := by
  unfold FdSys.execSlot
  split
  · split
    · exact filePut.trans setSlot
    · exact refl
  · exact refl

theorem destroySlot : OnTable t s (FdSys.destroySlot t s i) := by
  unfold FdSys.destroySlot
  split
  · exact filePut.trans setSlot
  · exact refl

theorem cloneSlot {src : Nat} : OnTable t s (FdSys.cloneSlot src t s i) := by
  unfold FdSys.cloneSlot
  split
  · exact setSlot.trans fileGet
  · exact refl

end OnTable

namespace DeadEmpty

variable {s s' : FdSys} {t : Nat}

theorem init : DeadEmpty fdInit := fun _ _ _ _ => rfl

/-- **A call on a live table** leaves the others alone. -/
theorem onTable (h : DeadEmpty s) (ht : s.live t = true) (hs : OnTable t s s') : DeadEmpty s' := by
  intro u hu i hi
  rw [hs.live] at hu
  have hut : u ≠ t := by
    rintro rfl
    rw [ht] at hu
    cases hu
  rw [hs.others u hut]
  exact h u hu i hi

theorem fdTableCreate (h : DeadEmpty s) : DeadEmpty s.fdTableCreate := by
  intro u hu i hi
  change Function.update s.live s.ntables true u = false at hu
  have hne : u ≠ s.ntables := by
    rintro rfl
    rw [Function.update_self] at hu
    cases hu
  rw [Function.update_of_ne hne] at hu
  simp only [FdSys.fdTableCreate, Function.update_of_ne hne]
  exact h u hu i hi

theorem fdTableClone (h : DeadEmpty s) (src : Nat) (mem : Bool) : DeadEmpty (s.fdTableClone src mem) := by
  unfold FdSys.fdTableClone
  split
  · have hlive : s.fdTableCreate.live s.ntables = true := by simp [FdSys.fdTableCreate]
    exact h.fdTableCreate.onTable hlive (.foldl (fun _ _ => .cloneSlot) _ _)
  · exact h

/-- The loop of `fd_table_destroy` empties slot after slot. -/
theorem destroyLoop (t : Nat) : ∀ (k : Nat) (s : FdSys),
    ∀ i < k, (((List.range k).foldl (FdSys.destroySlot t) s).tables t).fds i = none
  | 0,     _ => fun _ hi => absurd hi (Nat.not_lt_zero _)
  | k + 1, s => by
    intro i hi
    rw [List.range_succ, List.foldl_append, List.foldl_cons, List.foldl_nil]
    generalize hs : (List.range k).foldl (FdSys.destroySlot t) s = s'
    have hbefore : i < k → (s'.tables t).fds i = none := fun hik => by
      rw [← hs]
      exact destroyLoop t k s i hik
    unfold FdSys.destroySlot
    split
    · by_cases hik : i = k
      · subst hik
        simp [FdSys.setSlot, FdSys.setTable]
      · simp only [FdSys.setSlot, FdSys.setTable, FdSys.filePut, Function.update_self, Function.update_of_ne hik]
        exact hbefore (by omega)
    · rename_i hnone
      by_cases hik : i = k
      · subst hik
        exact hnone
      · exact hbefore (by omega)

/-- The table that is taken away is the one whose slots are empty. -/
theorem takeAway (h : DeadEmpty s) (hs : OnTable t s s') (hempty : ∀ i < fdMax, (s'.tables t).fds i = none) :
    DeadEmpty { s' with live := Function.update s'.live t false } := by
  intro u hu i hi
  by_cases hut : u = t
  · subst hut
    exact hempty i hi
  · simp only [Function.update_of_ne hut, hs.live] at hu
    show (s'.tables u).fds i = none
    rw [hs.others u hut]
    exact h u hu i hi

theorem fdTableDestroy (h : DeadEmpty s) (ht : s.live t = true) : DeadEmpty (s.fdTableDestroy t) := by
  have hon : OnTable t s (s.setTable t { s.tables t with refcount := (s.tables t).refcount - 1 }) :=
    ⟨rfl, rfl, fun u hu => by simp [FdSys.setTable, Function.update_of_ne hu]⟩
  unfold FdSys.fdTableDestroy
  simp only []
  split
  · exact h.onTable ht hon
  · exact h.takeAway (hon.trans (.foldl (fun _ _ => .destroySlot) _ _)) (destroyLoop t fdMax _)

/-- **One call.** -/
theorem step (h : DeadEmpty s) {op : FdOp} (hs : fdStep s op = some s') : DeadEmpty s' := by
  cases op with
  | fileAlloc cb =>
      cases hs
      exact h
  | filePut f =>
      simp only [fdStep, Option.ite_none_right_eq_some, Option.some.injEq] at hs
      obtain ⟨-, rfl⟩ := hs
      exact h
  | tableCreate =>
      cases hs
      exact h.fdTableCreate
  | tableClone src mem =>
      simp only [fdStep, Option.ite_none_right_eq_some, Option.some.injEq] at hs
      obtain ⟨-, rfl⟩ := hs
      exact h.fdTableClone src mem
  | tableDestroy t =>
      simp only [fdStep, Option.ite_none_right_eq_some, Option.some.injEq] at hs
      obtain ⟨ht, rfl⟩ := hs
      exact h.fdTableDestroy ht
  | alloc t f =>
      simp only [fdStep, Option.ite_none_right_eq_some, Option.some.injEq] at hs
      obtain ⟨⟨ht, -⟩, rfl⟩ := hs
      exact h.onTable ht .fdAlloc
  | allocAt t fd f =>
      simp only [fdStep, Option.ite_none_right_eq_some, Option.some.injEq] at hs
      obtain ⟨⟨ht, -⟩, rfl⟩ := hs
      exact h.onTable ht .fdAllocAt
  | get t fd =>
      simp only [fdStep, Option.ite_none_right_eq_some, Option.some.injEq] at hs
      obtain ⟨ht, rfl⟩ := hs
      exact h.onTable ht .fdGet
  | close t fd =>
      simp only [fdStep, Option.ite_none_right_eq_some, Option.some.injEq] at hs
      obtain ⟨ht, rfl⟩ := hs
      exact h.onTable ht .fdClose
  | closeOnExec t =>
      simp only [fdStep, Option.ite_none_right_eq_some, Option.some.injEq] at hs
      obtain ⟨ht, rfl⟩ := hs
      exact h.onTable ht (.foldl (fun _ _ => .execSlot) _ _)
  | setFlags t i flags =>
      simp only [fdStep, Option.ite_none_right_eq_some, Option.some.injEq] at hs
      obtain ⟨⟨ht, -⟩, rfl⟩ := hs
      exact h.onTable ht .setFlags

theorem run (ops : List FdOp) (s : FdSys) (hrun : Run (Graph fdStep) fdInit ops s) : DeadEmpty s := by
  refine hrun.invariant DeadEmpty init ?_
  intro s op t hs hstep
  exact hs.step hstep

/-! ## The bound

A live table has `FD_MAX` slots, and there are `PID_MAX` live tables at most.
-/

/-- Each live table has `FD_MAX` slots. -/
theorem slots_le (h : DeadEmpty s) (f : Nat) : s.slots f ≤ s.liveTables.card * fdMax := by
  have hslot : ∀ t ∈ s.liveTables, slotCount (s.tables t) f ≤ fdMax := by
    intro t _
    have hle := Finset.sum_le_card_nsmul (Finset.range fdMax) (fun i => if (s.tables t).fds i = some f then 1 else 0) 1
      fun i _ => by split <;> omega
    rw [Finset.card_range, nsmul_eq_mul, Nat.mul_one] at hle
    exact hle
  have hdead : ∀ t ∈ Finset.range s.ntables, t ∉ s.liveTables → slotCount (s.tables t) f = 0 := by
    intro t ht hnot
    have hlive : s.live t = false := by
      by_contra hlive
      exact hnot (Finset.mem_filter.mpr ⟨ht, by simpa using hlive⟩)
    apply Finset.sum_eq_zero
    intro i hi
    rw [h t hlive i (Finset.mem_range.mp hi)]
    rfl
  have hsum : s.slots f = ∑ t ∈ s.liveTables, slotCount (s.tables t) f :=
    (Finset.sum_subset (Finset.filter_subset _ _) hdead).symm
  rw [hsum]
  have hle := Finset.sum_le_card_nsmul s.liveTables (fun t => slotCount (s.tables t) f) fdMax hslot
  rwa [nsmul_eq_mul] at hle

end DeadEmpty

/-- The counter of a file fits its 32 bits: a process has one table, and there are at most `PID_MAX` processes. -/
theorem fd_refs_fit {s : FdSys} {f : Nat} (h : FdInv s) (hdead : DeadEmpty s) (ht : s.liveTables.card ≤ pidMax)
    (hf : s.held f < 2 ^ 30) : s.refs f < 2 ^ 31 := by
  have hbal := h.balance f
  have hslots := hdead.slots_le f
  have hmul : s.liveTables.card * fdMax ≤ pidMax * fdMax := Nat.mul_le_mul_right _ ht
  have hconst : pidMax * fdMax = 2 ^ 26 := by decide
  omega

/-- **Reference counts are exact**, after any sequence of descriptor operations on any number of tables: the counter
    of every file is the number of slots that hold it plus the references of callers; no slot holds a released file;
    and the close callback of a file has run once if its last reference is gone and not at all before. While there are
    no more tables than processes, the counter stays in its 32 bits. -/
theorem fd_refs_exact (ops : List FdOp) (s : FdSys) (hrun : Run (Graph fdStep) fdInit ops s) (f : Nat)
    (hf : f < s.nfiles) :
    s.refs f = s.slots f + s.held f ∧
    (∀ t < s.ntables, ∀ i < fdMax, (s.tables t).fds i = some f → s.freed f = false) ∧
    (s.freed f = true ↔ s.refs f = 0) ∧
    s.closeLog.count f = (if s.refs f = 0 ∧ s.closeCb f ≠ .none then 1 else 0) ∧
    (s.liveTables.card ≤ pidMax → s.held f < 2 ^ 30 → s.refs f < 2 ^ 31) := by
  have h := FdInv.run ops s hrun
  have hfreed : s.freed f = true ↔ s.refs f = 0 := by
    rw [h.freed]
    simp [hf]
  refine ⟨h.balance f, fun t ht i hi hslot => ?_, hfreed, ?_, fd_refs_fit h (DeadEmpty.run ops s hrun)⟩
  · have hpos := h.refs_pos_of_slot ht hi hslot
    by_contra hfr
    have := hfreed.mp (by simpa using hfr)
    omega
  · rw [h.closed]
    simp only [hfreed]

/-- A file closed while a caller works on it: the callback runs when the caller lets go. -/
theorem fd_refs_exact_late :
    ∃ s, Run (Graph fdStep) fdInit
        [.fileAlloc .ops, .tableCreate, .alloc 0 0, .filePut 0, .get 0 0, .close 0 0, .filePut 0] s ∧
      0 < s.nfiles ∧ s.closeLog = [0] ∧ s.refs 0 = s.slots 0 + s.held 0 := by
  have hsome : ([FdOp.fileAlloc .ops, .tableCreate, .alloc 0 0, .filePut 0, .get 0 0, .close 0 0,
      .filePut 0].foldlM fdStep fdInit).isSome := by decide +kernel
  have hrun := Run.of_after hsome
  have hfiles : 0 < (after fdStep fdInit [.fileAlloc .ops, .tableCreate, .alloc 0 0, .filePut 0, .get 0 0, .close 0 0,
      .filePut 0]).nfiles := by decide +kernel
  have hlog : (after fdStep fdInit [.fileAlloc .ops, .tableCreate, .alloc 0 0, .filePut 0, .get 0 0, .close 0 0,
      .filePut 0]).closeLog = [0] := by decide +kernel
  exact ⟨_, hrun, hfiles, hlog, (fd_refs_exact _ _ hrun 0 hfiles).1⟩

end MyUnix.Proc
