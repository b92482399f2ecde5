import Mathlib.Data.List.Nodup
import MyUnix.Proc.ProcTable

/-!
# `Proc.ProcTree` — the process tree and the pid table over whole runs

`TreeInv` ties the lists to the records: whoever is on a children list is a live process whose `parent` and `ppid` say
so, and every live process is on the list of all processes. `proc_exit` moves the children of a process to init one by
one, and the invariant holds between any two of them, so the loop is an induction on the list that is left.

`PidInv` ties the pid table to the records. It has one exception, which boot makes: init gets pid 2 and slot 2 from
`proc_create` and is then given pid 1, the pid and the slot of the idle process.

The lists are those of `Lib.LinkedList`, so the invariant is a relation between a function from heads to sequences and
the records. A call changes it in one of three ways: a process joins, a process goes from one children list to
another, a process leaves. The pid table has an invariant of its own (`PidInv`), since it is right for every process
but init, whose pid is overwritten after it was entered.

What holds only as long as init has not exited is kept apart (`Rooted`): init hands its own children to itself, so
after its exit there is no root any more.
-/

namespace MyUnix.Proc

open Lib

/-- The address is that of a list head. -/
def TreeAddr.IsHead : TreeAddr → Prop
  | .allProcs => True
  | .children _ => True
  | _ => False

/-- The lists against the records. -/
structure TreeInv (s : ProcSys) (L : TreeAddr → List TreeAddr) : Prop where
  lists : Lists s.mem TreeAddr.IsHead L
  all : ∀ x, x ∈ L .allProcs ↔ ∃ p, x = .allList p ∧ s.live p = true
  child : ∀ p x, x ∈ L (.children p) → ∃ c, x = .sibling c ∧ s.live c = true ∧ s.live p = true ∧
    (s.procs c).forked = true ∧ (s.procs c).parent = some p ∧ (s.procs c).ppid = (s.procs p).pid
  serial_lt : ∀ p, s.live p = true → (s.procs p).serial < s.births
  serial_inj : ∀ p q, s.live p = true → s.live q = true → (s.procs p).serial = (s.procs q).serial → p = q
  reaped_lt : ∀ n ∈ s.reaped, n < s.births
  reaped_gone : ∀ p, s.live p = true → (s.procs p).serial ∉ s.reaped
  reaped_nodup : s.reaped.Nodup
  roots : ∀ p, s.initProc = some p ∨ s.idleProc = some p → s.live p = true ∧ (s.procs p).forked = false

/-- A process that has exited has no children. Init takes in orphans in any state. -/
def Childless (s : ProcSys) (L : TreeAddr → List TreeAddr) : Prop :=
  ∀ p, (s.procs p).state = .zombie → s.initProc ≠ some p → L (.children p) = []

/-- Every process that was forked is a child of somebody. -/
def Owned (s : ProcSys) (L : TreeAddr → List TreeAddr) : Prop :=
  ∀ c, s.live c = true → (s.procs c).forked = true → ∃ p, TreeAddr.sibling c ∈ L (.children p)

/-- A change of the tree: only lists, parents and exit codes differ. -/
structure SameProcs (s s' : ProcSys) : Prop where
  live : s'.live = s.live
  pidTable : s'.pidTable = s.pidTable
  nextPid : s'.nextPid = s.nextPid
  initProc : s'.initProc = s.initProc
  idleProc : s'.idleProc = s.idleProc
  births : s'.births = s.births
  reaped : s'.reaped = s.reaped
  pid : ∀ p, (s'.procs p).pid = (s.procs p).pid
  serial : ∀ p, (s'.procs p).serial = (s.procs p).serial
  forked : ∀ p, (s'.procs p).forked = (s.procs p).forked

theorem SameProcs.refl (s : ProcSys) : SameProcs s s :=
  ⟨rfl, rfl, rfl, rfl, rfl, rfl, rfl, fun _ => rfl, fun _ => rfl, fun _ => rfl⟩

theorem SameProcs.withMem (s : ProcSys) (m : ListMem TreeAddr) : SameProcs s { s with mem := m } :=
  ⟨rfl, rfl, rfl, rfl, rfl, rfl, rfl, fun _ => rfl, fun _ => rfl, fun _ => rfl⟩

theorem SameProcs.trans {s₁ s₂ s₃ : ProcSys} (h : SameProcs s₁ s₂) (h' : SameProcs s₂ s₃) : SameProcs s₁ s₃ where
  live := h'.live.trans h.live
  pidTable := h'.pidTable.trans h.pidTable
  nextPid := h'.nextPid.trans h.nextPid
  initProc := h'.initProc.trans h.initProc
  idleProc := h'.idleProc.trans h.idleProc
  births := h'.births.trans h.births
  reaped := h'.reaped.trans h.reaped
  pid p := (h'.pid p).trans (h.pid p)
  serial p := (h'.serial p).trans (h.serial p)
  forked p := (h'.forked p).trans (h.forked p)

namespace TreeInv

variable {s : ProcSys} {L : TreeAddr → List TreeAddr} {c p : ProcPtr}

theorem sibling_not_mem (h : TreeInv s L) (hc : s.live c = false) {a : TreeAddr} (ha : a.IsHead) :
    TreeAddr.sibling c ∉ L a := by
  intro hm
  cases a with
  | allProcs =>
    obtain ⟨p, hp, -⟩ := (h.all _).mp hm
    cases hp
  | children p =>
    obtain ⟨d, hd, hlive, -⟩ := h.child p _ hm
    cases hd
    rw [hc] at hlive
    cases hlive
  | allList p => exact ha
  | sibling p => exact ha

theorem allList_not_mem (h : TreeInv s L) (hc : s.live c = false) {a : TreeAddr} (ha : a.IsHead) :
    TreeAddr.allList c ∉ L a := by
  intro hm
  cases a with
  | allProcs =>
    obtain ⟨p, hp, hlive⟩ := (h.all _).mp hm
    cases hp
    rw [hc] at hlive
    cases hlive
  | children p =>
    obtain ⟨d, hd, -⟩ := h.child p _ hm
    cases hd
  | allList p => exact ha
  | sibling p => exact ha

theorem children_nil (h : TreeInv s L) (hc : s.live c = false) : L (.children c) = [] := by
  apply List.eq_nil_iff_forall_not_mem.mpr
  intro x hx
  obtain ⟨d, -, -, hlive, -⟩ := h.child c x hx
  rw [hc] at hlive
  cases hlive

/-- `INIT_LIST_HEAD` of the nodes of a new process changes no list. -/
theorem lists_newProc (h : TreeInv s L) (hc : s.live c = false) :
    Lists (((s.mem.init (.sibling c)).init (.children c)).init (.allList c)) TreeAddr.IsHead L := by
  have hring : s.mem.next (.children c) = some (.children c) ∧ s.mem.prev (.children c) = some (.children c) := by
    have hlinks := h.lists.ring (.children c) trivial
    rw [h.children_nil hc] at hlinks
    exact ⟨hlinks.1, hlinks.2.1⟩
  apply h.lists.congr
  intro a ha
  have hs : a ≠ .sibling c := by
    rintro rfl
    rcases ha with ha | ⟨b, hb, hm⟩
    · exact ha
    · exact h.sibling_not_mem hc hb hm
  have hl : a ≠ .allList c := by
    rintro rfl
    rcases ha with ha | ⟨b, hb, hm⟩
    · exact ha
    · exact h.allList_not_mem hc hb hm
  by_cases hch : a = .children c
  · subst hch
    simp [hring.1, hring.2]
  · simp [hs, hl, hch]

theorem not_head_allList (c : ProcPtr) : ¬ TreeAddr.IsHead (.allList c) := fun hh => hh

theorem not_head_sibling (c : ProcPtr) : ¬ TreeAddr.IsHead (.sibling c) := fun hh => hh

/-! ## A process joins

`proc_create` and `proc_fork` link a node that was on no list.
-/

/-- A process that did not exist joins the tree: it is last in the list of all processes, and the only new member of
    any children list. -/
theorem add (h : TreeInv s L) (hc : s.live c = false) (r : ProcRec) {s' : ProcSys} {L' : TreeAddr → List TreeAddr}
    (hmem : Lists s'.mem TreeAddr.IsHead L') (hprocs : s'.procs = Function.update s.procs c { r with serial := s.births })
    (hlive : s'.live = Function.update s.live c true) (hbirths : s'.births = s.births + 1) (hreaped : s'.reaped = s.reaped)
    (hinit : s'.initProc = s.initProc) (hidle : s'.idleProc = s.idleProc)
    (hall : L' .allProcs = L .allProcs ++ [.allList c])
    (hchild : ∀ p x, x ∈ L' (.children p) → x ∈ L (.children p) ∨
      x = .sibling c ∧ s.live p = true ∧ r.forked = true ∧ r.parent = some p ∧ r.ppid = (s.procs p).pid) :
    TreeInv s' L' := by
  -- the others are as they were
  have hold : ∀ p, s.live p = true → s'.procs p = s.procs p ∧ s'.live p = true := by
    intro p hp
    have hpc : p ≠ c := by
      rintro rfl
      rw [hc] at hp
      cases hp
    rw [hprocs, hlive, Function.update_of_ne hpc, Function.update_of_ne hpc]
    exact ⟨rfl, hp⟩
  have hself : s'.procs c = { r with serial := s.births } ∧ s'.live c = true := by
    rw [hprocs, hlive, Function.update_self, Function.update_self]
    exact ⟨rfl, rfl⟩
  have hcases : ∀ p, s'.live p = true → p = c ∨ s.live p = true := by
    intro p hp
    by_cases hpc : p = c
    · exact .inl hpc
    · rw [hlive, Function.update_of_ne hpc] at hp
      exact .inr hp
  refine ⟨hmem, fun x => ?_, fun p x hx => ?_, fun p hp => ?_, fun p q hp hq he => ?_, fun n hn => ?_, fun p hp => ?_, ?_,
    fun p hp => ?_⟩
  · rw [hall, List.mem_append, List.mem_singleton, h.all]
    constructor
    · rintro (⟨p, rfl, hp⟩ | rfl)
      · exact ⟨p, rfl, (hold p hp).2⟩
      · exact ⟨c, rfl, hself.2⟩
    · rintro ⟨p, rfl, hp⟩
      rcases hcases p hp with rfl | hp
      · exact .inr rfl
      · exact .inl ⟨p, rfl, hp⟩
  · rcases hchild p x hx with hx | ⟨rfl, hp, hf, hpar, hpp⟩
    · obtain ⟨d, rfl, hd, hp, hrest⟩ := h.child p x hx
      refine ⟨d, rfl, (hold d hd).2, (hold p hp).2, ?_⟩
      rw [(hold d hd).1, (hold p hp).1]
      exact hrest
    · refine ⟨c, rfl, hself.2, (hold p hp).2, ?_⟩
      rw [hself.1, (hold p hp).1]
      exact ⟨hf, hpar, hpp⟩
  · rw [hbirths]
    rcases hcases p hp with rfl | hp
    · rw [hself.1]
      exact Nat.lt_succ_self _
    · rw [(hold p hp).1]
      exact Nat.lt_succ_of_lt (h.serial_lt p hp)
  · -- the new serial number is above all others
    rcases hcases p hp with rfl | hp <;> rcases hcases q hq with rfl | hq
    · rfl
    · rw [hself.1, (hold q hq).1] at he
      exact absurd he.symm (Nat.ne_of_lt (h.serial_lt q hq))
    · rw [hself.1, (hold p hp).1] at he
      exact absurd he (Nat.ne_of_lt (h.serial_lt p hp))
    · rw [(hold p hp).1, (hold q hq).1] at he
      exact h.serial_inj p q hp hq he
  · rw [hbirths]
    exact Nat.lt_succ_of_lt (h.reaped_lt n (hreaped ▸ hn))
  · rw [hreaped]
    rcases hcases p hp with rfl | hp
    · rw [hself.1]
      exact fun hm => Nat.lt_irrefl _ (h.reaped_lt _ hm)
    · rw [(hold p hp).1]
      exact h.reaped_gone p hp
  · rw [hreaped]
    exact h.reaped_nodup
  · rw [hinit, hidle] at hp
    obtain ⟨hlp, hf⟩ := h.roots p hp
    rw [(hold p hlp).1]
    exact ⟨(hold p hlp).2, hf⟩

/-- **`proc_create`** at a free address, with a pid. -/
theorem procCreate (h : TreeInv s L) (hc : s.live c = false) {pid next : Nat}
    (hpid : s.pidAlloc = some (some pid, { s with nextPid := next })) :
    ∃ s' L', s.procCreate ⟨some c, true, true, true⟩ = some (some c, s') ∧ TreeInv s' L' ∧
      (∀ p, L' (.children p) = L (.children p)) ∧
      s'.procs = Function.update s.procs c ⟨pid, 0, pid, none, .created, 0, s.births, false⟩ ∧
      s'.live = Function.update s.live c true ∧ s'.pidTable = Function.update s.pidTable pid (some c) ∧
      s'.nextPid = next ∧ s'.initProc = s.initProc ∧ s'.idleProc = s.idleProc := by
  have hhead : TreeAddr.IsHead .allProcs := trivial
  obtain ⟨m, hm, hl, -⟩ := (h.lists_newProc hc).addTail hhead (not_head_allList c) fun a ha => h.allList_not_mem hc ha
  let s' : ProcSys :=
    { s with
      mem := m
      procs := Function.update s.procs c ⟨pid, 0, pid, none, .created, 0, s.births, false⟩
      live := Function.update s.live c true
      pidTable := Function.update s.pidTable pid (some c)
      nextPid := next
      births := s.births + 1 }
  refine ⟨s', _, ?_, h.add hc ⟨pid, 0, pid, none, .created, 0, 0, false⟩ hl rfl rfl rfl rfl rfl rfl ?_ ?_, ?_, rfl, rfl, rfl,
    rfl, rfl, rfl⟩
  · simp only [ProcSys.procCreate, hpid, bind, Option.bind, Bool.not_true, Bool.or_self, ProcSys.install,
      ProcSys.newProc, Function.update_self, ProcSys.withMem, hm, Option.map]
    rfl
  · exact Function.update_self _ _ _
  · intro p x hx
    rw [Function.update_of_ne (by simp)] at hx
    exact .inl hx
  · intro p
    exact Function.update_of_ne (by simp) _ _

/-- `g_next_pid` is not part of the tree. -/
theorem withNextPid (h : TreeInv s L) (next : Nat) : TreeInv { s with nextPid := next } L :=
  ⟨h.lists, h.all, h.child, h.serial_lt, h.serial_inj, h.reaped_lt, h.reaped_gone, h.reaped_nodup, h.roots⟩

/-- The lists after a fork. -/
def forkLists (L : TreeAddr → List TreeAddr) (parent c : ProcPtr) : TreeAddr → List TreeAddr :=
  Function.update (Function.update L (.children parent) (L (.children parent) ++ [.sibling c])) .allProcs
    (L .allProcs ++ [.allList c])

theorem mem_forkLists {parent : ProcPtr} {x : TreeAddr} :
    x ∈ forkLists L parent c (.children p) ↔ x ∈ L (.children p) ∨ p = parent ∧ x = .sibling c := by
  rw [forkLists, Function.update_of_ne (by simp)]
  by_cases hp : p = parent
  · subst hp
    rw [Function.update_self, List.mem_append, List.mem_singleton]
    simp
  · rw [Function.update_of_ne (by simpa using hp)]
    simp [hp]

/-- **`proc_fork`** fails and leaves everything but `g_next_pid` as it is, or makes a child of its caller. -/
theorem procFork (h : TreeInv s L) {parent : ProcPtr} (hparent : s.live parent = true) (env : MakeEnv)
    (henv : ∀ c ∈ env.addr, s.live c = false) {r : Option Nat} {next : Nat}
    (hpid : s.pidAlloc = some (r, { s with nextPid := next })) (hfree : ∀ pid, r = some pid → s.pidTable pid = none) :
    (∃ n, (n = s.nextPid ∨ n = next) ∧ s.procFork parent env = some (none, { s with nextPid := n })) ∨
    ∃ c pid s', s.procFork parent env = some (some c, s') ∧ TreeInv s' (forkLists L parent c) ∧ s.live c = false ∧
      r = some pid ∧
      s'.procs = Function.update s.procs c
        ⟨pid, (s.procs parent).pid, (s.procs parent).pgid, some parent, .created, 0, s.births, true⟩ ∧
      s'.live = Function.update s.live c true ∧ s'.pidTable = Function.update s.pidTable pid (some c) ∧
      s'.nextPid = next ∧ s'.initProc = s.initProc ∧ s'.idleProc = s.idleProc := by
  obtain ⟨addr, space, stack, fds⟩ := env
  cases addr with
  -- no `process_t`: nothing was done yet
  | none => exact .inl ⟨s.nextPid, .inl rfl, rfl⟩
  | some c =>
    have hc : s.live c = false := henv c rfl
    cases r with
    | none =>
      -- no pid is free
      refine .inl ⟨next, .inr rfl, ?_⟩
      simp only [ProcSys.procFork, hpid, bind, Option.bind]
      rfl
    | some pid =>
      by_cases hok : (!space || !stack || !fds) = true
      · -- the pid goes back to the table, where it is not
        have hback : ProcSys.pidFree { s with nextPid := next } pid = { s with nextPid := next } := by
          unfold ProcSys.pidFree
          split
          · rfl
          · have hsame : Function.update s.pidTable pid none = s.pidTable := by
              rw [← hfree pid rfl, Function.update_eq_self]
            simp only [hsame]
        refine .inl ⟨next, .inr rfl, ?_⟩
        simp only [ProcSys.procFork, hpid, bind, Option.bind, hok, if_true, hback]
        rfl
      · -- the child is linked twice, as a child of its parent and in the list of all
        have hcp : c ≠ parent := by
          rintro rfl
          rw [hc] at hparent
          cases hparent
        have hhead : TreeAddr.IsHead (.children parent) := trivial
        have hhead' : TreeAddr.IsHead .allProcs := trivial
        obtain ⟨m₁, hm₁, hl₁, -⟩ := (h.lists_newProc hc).addTail hhead (not_head_sibling c)
          fun a ha => h.sibling_not_mem hc ha
        have hoff : ∀ a : TreeAddr, a.IsHead →
            TreeAddr.allList c ∉ Function.update L (.children parent) (L (.children parent) ++ [.sibling c]) a := by
          intro a ha hm
          by_cases hap : a = .children parent
          · subst hap
            rw [Function.update_self, List.mem_append, List.mem_singleton] at hm
            rcases hm with hm | hm
            · exact h.allList_not_mem hc hhead hm
            · cases hm
          · rw [Function.update_of_ne hap] at hm
            exact h.allList_not_mem hc ha hm
        obtain ⟨m₂, hm₂, hl₂, -⟩ := hl₁.addTail hhead' (not_head_allList c) hoff
        rw [Function.update_of_ne (by simp : TreeAddr.allProcs ≠ .children parent)] at hl₂
        let s' : ProcSys :=
          { s with
            mem := m₂
            procs := Function.update s.procs c
              ⟨pid, (s.procs parent).pid, (s.procs parent).pgid, some parent, .created, 0, s.births, true⟩
            live := Function.update s.live c true
            pidTable := Function.update s.pidTable pid (some c)
            nextPid := next
            births := s.births + 1 }
        refine .inr ⟨c, pid, s', ?_, ?_, hc, rfl, rfl, rfl, rfl, rfl, rfl, rfl⟩
        · simp only [ProcSys.procFork, hpid, bind, Option.bind, hok, ProcSys.install, ProcSys.newProc, Function.update_self,
            ProcSys.withMem, hm₁, hm₂, Option.map]
          rfl
        · refine h.add hc ⟨pid, (s.procs parent).pid, (s.procs parent).pgid, some parent, .created, 0, 0, true⟩ hl₂ rfl rfl
            rfl rfl rfl rfl (Function.update_self _ _ _) fun p x hx => ?_
          rcases mem_forkLists.mp hx with hx | ⟨rfl, rfl⟩
          · exact .inl hx
          · exact .inr ⟨rfl, hparent, rfl, rfl, rfl⟩

/-! ## Exit

The loop walks along a list that its body shortens, with the next node read ahead. The induction is on the children
that are left, and `Adopts` is what all turns together have done to the records.
-/

/-- Only lists and parents change. -/
theorem relink (h : TreeInv s L) {s' : ProcSys} {L' : TreeAddr → List TreeAddr} (hsame : SameProcs s s')
    (hmem : Lists s'.mem TreeAddr.IsHead L') (hall : L' .allProcs = L .allProcs)
    (hchild : ∀ p x, x ∈ L' (.children p) → ∃ c, x = .sibling c ∧ s.live c = true ∧ s.live p = true ∧
      (s.procs c).forked = true ∧ (s'.procs c).parent = some p ∧ (s'.procs c).ppid = (s.procs p).pid) :
    TreeInv s' L' where
  lists := hmem
  all x := by rw [hall, hsame.live]; exact h.all x
  child p x hx := by
    obtain ⟨c, hc, hrest⟩ := hchild p x hx
    refine ⟨c, hc, ?_⟩
    rw [hsame.live, hsame.forked, hsame.pid]
    exact hrest
  serial_lt p hp := by
    rw [hsame.serial, hsame.births]
    exact h.serial_lt p (hsame.live ▸ hp)
  serial_inj p q hp hq he := by
    rw [hsame.serial, hsame.serial] at he
    exact h.serial_inj p q (hsame.live ▸ hp) (hsame.live ▸ hq) he
  reaped_lt n hn := by
    rw [hsame.births]
    exact h.reaped_lt n (hsame.reaped ▸ hn)
  reaped_gone p hp := by
    rw [hsame.serial, hsame.reaped]
    exact h.reaped_gone p (hsame.live ▸ hp)
  reaped_nodup := by rw [hsame.reaped]; exact h.reaped_nodup
  roots p hp := by
    rw [hsame.initProc, hsame.idleProc] at hp
    rw [hsame.live, hsame.forked]
    exact h.roots p hp

/-- What the loop of `proc_exit` keeps. -/
structure Adopts (s : ProcSys) (L : TreeAddr → List TreeAddr) (proc init : ProcPtr) (s' : ProcSys)
    (L' : TreeAddr → List TreeAddr) : Prop where
  same : SameProcs s s'
  state : ∀ p, (s'.procs p).state = (s.procs p).state
  others : ∀ p, p ≠ proc → p ≠ init → L' (.children p) = L (.children p)
  owners : proc ≠ init → ∀ x, (∃ p, x ∈ L' (.children p)) ↔ ∃ p, x ∈ L (.children p)

theorem Adopts.trans {s₁ s₂ s₃ : ProcSys} {L₁ L₂ L₃ : TreeAddr → List TreeAddr} {proc init : ProcPtr}
    (h : Adopts s₁ L₁ proc init s₂ L₂) (h' : Adopts s₂ L₂ proc init s₃ L₃) : Adopts s₁ L₁ proc init s₃ L₃ where
  same := h.same.trans h'.same
  state p := (h'.state p).trans (h.state p)
  others p hp hi := (h'.others p hp hi).trans (h.others p hp hi)
  owners hne x := (h'.owners hne x).trans (h.owners hne x)

/-- The first child is taken off the list of its parent, and is on no list then. -/
theorem delFirst (h : TreeInv s L) {proc child : ProcPtr} {l : List TreeAddr} (hL : L (.children proc) = .sibling child :: l) :
    ∃ m, s.mem.del (.sibling child) = some m ∧ Lists m TreeAddr.IsHead (Function.update L (.children proc) l) ∧
      (∀ a : TreeAddr, a.IsHead → TreeAddr.sibling child ∉ Function.update L (.children proc) l a) ∧
      ∀ p x, x ∈ Function.update L (.children proc) l (.children p) → x ∈ L (.children p) := by
  have hhead : TreeAddr.IsHead (.children proc) := trivial
  obtain ⟨m, hm, hl, -⟩ := h.lists.del hhead (show L (.children proc) = [] ++ _ :: l from hL)
  rw [List.nil_append] at hl
  have hmem : TreeAddr.sibling child ∈ L (.children proc) := by
    rw [hL]
    exact List.mem_cons_self
  have hnd := h.lists.nodup _ hhead
  rw [hL, List.nodup_cons] at hnd
  refine ⟨m, hm, hl, fun a ha hin => ?_, fun p x hx => ?_⟩
  · by_cases hap : a = .children proc
    · subst hap
      rw [Function.update_self] at hin
      exact hnd.1 hin
    · rw [Function.update_of_ne hap] at hin
      exact h.lists.disjoint _ hhead a ha (Ne.symm hap) _ hmem hin
  · by_cases hp : p = proc
    · subst hp
      rw [Function.update_self] at hx
      rw [hL]
      exact List.mem_cons_of_mem _ hx
    · rwa [Function.update_of_ne (by simpa using hp)] at hx

/-- The first child goes over to init. -/
theorem adopt (h : TreeInv s L) {proc init child : ProcPtr} {l : List TreeAddr} (hinit : s.initProc = some init)
    (hL : L (.children proc) = .sibling child :: l) :
    ∃ s' L', s.adopt proc child = some s' ∧ TreeInv s' L' ∧ Adopts s L proc init s' L' ∧ L' (.children proc) = l := by
  have hhead : ∀ p, TreeAddr.IsHead (.children p) := fun _ => trivial
  have hmem : TreeAddr.sibling child ∈ L (.children proc) := by
    rw [hL]
    exact List.mem_cons_self
  obtain ⟨m₁, hm₁, hl₁, hoff, hsub⟩ := h.delFirst hL
  by_cases hpi : proc = init
  · -- init itself exits
    refine ⟨{ s with mem := m₁ }, _, ?_, h.relink (.withMem s m₁) hl₁ (Function.update_of_ne (by simp) _ _) ?_, ?_,
      Function.update_self _ _ _⟩
    · simp only [ProcSys.adopt, ProcSys.withMem, hm₁, Option.map, bind, Option.bind, hinit, hpi, if_true]
      rfl
    · exact fun p x hx => h.child p x (hsub p x hx)
    · refine ⟨.withMem s m₁, fun _ => rfl, fun p hp _ => ?_, fun hne => absurd hpi hne⟩
      exact Function.update_of_ne (by simpa using hp) _ _
  · -- its node is taken off the one list and put at the end of the other
    obtain ⟨m₂, hm₂, hl₂, -⟩ := hl₁.addTail (hhead init) (not_head_sibling child) hoff
    have hmem₂ : ∀ {p x}, x ∈ Function.update (Function.update L (.children proc) l) (.children init)
        (Function.update L (.children proc) l (.children init) ++ [.sibling child]) (.children p) ↔
        x ∈ Function.update L (.children proc) l (.children p) ∨ p = init ∧ x = .sibling child := by
      intro p x
      by_cases hp : p = init
      · subst hp
        rw [Function.update_self, List.mem_append, List.mem_singleton]
        simp
      · rw [Function.update_of_ne (by simpa using hp)]
        simp [hp]
    obtain ⟨c, hc, hlc, -, hfc, -⟩ := h.child proc _ hmem
    cases hc
    have hinitLive := (h.roots init (.inl hinit)).1
    -- the record of the child has a new parent, and nothing else
    let r : ProcRec → ProcRec := fun r => { r with parent := some init, ppid := (s.procs init).pid }
    have hfields : ∀ p, ((s.setProc child r).procs p).pid = (s.procs p).pid ∧
        ((s.setProc child r).procs p).serial = (s.procs p).serial ∧
        ((s.setProc child r).procs p).forked = (s.procs p).forked ∧
        ((s.setProc child r).procs p).state = (s.procs p).state := by
      intro p
      by_cases hp : p = child
      · subst hp
        simp [ProcSys.setProc, r]
      · simp [ProcSys.setProc, hp]
    have hsame : SameProcs s { s.setProc child r with mem := m₂ } :=
      ⟨rfl, rfl, rfl, rfl, rfl, rfl, rfl, fun p => (hfields p).1, fun p => (hfields p).2.1, fun p => (hfields p).2.2.1⟩
    refine ⟨{ s.setProc child r with mem := m₂ }, _, ?_, h.relink hsame hl₂ ?_ ?_, ?_, ?_⟩
    · simp only [ProcSys.adopt, ProcSys.withMem, hm₁, Option.map, bind, Option.bind, hinit, hpi, if_false]
      simp only [ProcSys.setProc, hm₂, hinit, r]
    · rw [Function.update_of_ne (by simp), Function.update_of_ne (by simp)]
    · intro p x hx
      -- whoever is on a children list has its head as parent
      rcases hmem₂.mp hx with hx | ⟨rfl, rfl⟩
      · obtain ⟨d, rfl, hd, hp, hf, hpar, hpp⟩ := h.child p x (hsub p x hx)
        have hdc : d ≠ child := fun he => hoff _ (hhead p) (he ▸ hx)
        refine ⟨d, rfl, hd, hp, hf, ?_⟩
        simp only [ProcSys.setProc, Function.update_of_ne hdc]
        exact ⟨hpar, hpp⟩
      · refine ⟨child, rfl, hlc, hinitLive, hfc, ?_⟩
        simp only [ProcSys.setProc, Function.update_self]
        exact ⟨rfl, rfl⟩
    · refine ⟨hsame, fun p => (hfields p).2.2.2, fun p hp hi => ?_, fun _ x => ⟨?_, ?_⟩⟩
      · rw [Function.update_of_ne (by simpa using hi), Function.update_of_ne (by simpa using hp)]
      · rintro ⟨p, hx⟩
        -- nobody has become a child or ceased to be one
        rcases hmem₂.mp hx with hx | ⟨-, rfl⟩
        · exact ⟨p, hsub p x hx⟩
        · exact ⟨proc, hmem⟩
      · rintro ⟨p, hx⟩
        by_cases hp : p = proc
        · subst hp
          rw [hL, List.mem_cons] at hx
          rcases hx with rfl | hx
          · exact ⟨init, hmem₂.mpr (.inr ⟨rfl, rfl⟩)⟩
          · exact ⟨p, hmem₂.mpr (.inl (by rwa [Function.update_self]))⟩
        · exact ⟨p, hmem₂.mpr (.inl (by rwa [Function.update_of_ne (by simpa using hp)]))⟩
    · rw [Function.update_of_ne (by simpa using hpi), Function.update_self]

/-- **The loop of `proc_exit`**, by induction on the children that are left. -/
theorem adoptFrom {proc init : ProcPtr} : ∀ (l : List TreeAddr) {fuel : Nat} {s : ProcSys} {L : TreeAddr → List TreeAddr},
    TreeInv s L → s.initProc = some init → L (.children proc) = l → l.length < fuel →
    ∃ s' L', ProcSys.adoptFrom proc fuel s (s.mem.next (.children proc))
        ((s.mem.next (.children proc)).bind s.mem.next) = some s' ∧
      TreeInv s' L' ∧ Adopts s L proc init s' L' ∧ L' (.children proc) = [] := by
  have hhead : TreeAddr.IsHead (.children proc) := trivial
  intro l
  induction l with
  | nil =>
    intro fuel s L h _ hL hfuel
    obtain ⟨fuel, rfl⟩ := Nat.exists_eq_succ_of_ne_zero (Nat.ne_of_gt hfuel)
    refine ⟨s, L, ?_, h, ⟨.refl s, fun _ => rfl, fun _ _ _ => rfl, fun _ _ => Iff.rfl⟩, hL⟩
    have hfirst : s.mem.next (.children proc) = some (.children proc) := by
      rw [h.lists.next_head hhead, hL]
      rfl
    simp only [ProcSys.adoptFrom, hfirst, if_true]
  | cons x l ih =>
    intro fuel s L h hinit hL hfuel
    obtain ⟨fuel, rfl⟩ := Nat.exists_eq_succ_of_ne_zero (Nat.ne_of_gt (Nat.lt_of_le_of_lt (Nat.zero_le _) hfuel))
    obtain ⟨child, rfl, -⟩ := h.child proc x (by rw [hL]; exact List.mem_cons_self)
    obtain ⟨s₁, L₁, hcode₁, h₁, hadopt₁, hL₁⟩ := h.adopt hinit hL
    obtain ⟨s₂, L₂, hcode₂, h₂, hadopt₂, hL₂⟩ := ih h₁ (hadopt₁.same.initProc.trans hinit) hL₁ (Nat.lt_of_succ_lt_succ hfuel)
    refine ⟨s₂, L₂, ?_, h₂, hadopt₁.trans hadopt₂, hL₂⟩
    -- the node looked up in advance is the one that is first now
    have hfirst : s.mem.next (.children proc) = some (.sibling child) := h.lists.next_eq_head hhead hL
    have hsucc : s.mem.next (.sibling child) = s₁.mem.next (.children proc) := by
      rw [h.lists.next_eq hhead (show L (.children proc) = [] ++ _ :: l from hL), h₁.lists.next_head hhead, hL₁]
    rw [hfirst, ProcSys.adoptFrom, if_neg (by simp), Option.bind_some, hsucc]
    simp only [hcode₁, bind, Option.bind]
    exact hcode₂

/-- The serial number of the process that a sibling link belongs to. -/
def serialOf (s : ProcSys) : TreeAddr → Nat
  | .sibling c => (s.procs c).serial
  | _          => 0

/-- A children list is no longer than the number of processes ever made. -/
theorem length_children_le (h : TreeInv s L) (p : ProcPtr) : (L (.children p)).length ≤ s.births := by
  -- the serial numbers of the members are different
  have hnd : ((L (.children p)).map (serialOf s)).Nodup := by
    refine List.Nodup.map_on ?_ (h.lists.nodup (.children p) trivial)
    intro x hx y hy he
    obtain ⟨c, rfl, hc, -⟩ := h.child p x hx
    obtain ⟨d, rfl, hd, -⟩ := h.child p y hy
    rw [h.serial_inj c d hc hd he]
  have hsub : (L (.children p)).map (serialOf s) ⊆ List.range s.births := by
    intro n hn
    obtain ⟨x, hx, rfl⟩ := List.mem_map.mp hn
    obtain ⟨c, rfl, hc, -⟩ := h.child p x hx
    exact List.mem_range.mpr (h.serial_lt c hc)
  have hlen := hnd.length_le_of_subset hsub
  rwa [List.length_map, List.length_range] at hlen

/-- A change of a record that leaves the tree alone. -/
theorem setProc (h : TreeInv s L) (p : ProcPtr) {f : ProcRec → ProcRec}
    (hf : ∀ r, (f r).pid = r.pid ∧ (f r).serial = r.serial ∧ (f r).forked = r.forked ∧ (f r).parent = r.parent ∧
      (f r).ppid = r.ppid) :
    TreeInv (s.setProc p f) L ∧ SameProcs s (s.setProc p f) := by
  have hfields : ∀ q, ((s.setProc p f).procs q).pid = (s.procs q).pid ∧
      ((s.setProc p f).procs q).serial = (s.procs q).serial ∧
      ((s.setProc p f).procs q).forked = (s.procs q).forked ∧
      ((s.setProc p f).procs q).parent = (s.procs q).parent ∧
      ((s.setProc p f).procs q).ppid = (s.procs q).ppid := by
    intro q
    by_cases hq : q = p
    · subst hq
      simp only [ProcSys.setProc, Function.update_self]
      exact hf _
    · simp [ProcSys.setProc, hq]
  have hsame : SameProcs s (s.setProc p f) :=
    ⟨rfl, rfl, rfl, rfl, rfl, rfl, rfl, fun q => (hfields q).1, fun q => (hfields q).2.1, fun q => (hfields q).2.2.1⟩
  refine ⟨h.relink hsame h.lists rfl fun q x hx => ?_, hsame⟩
  obtain ⟨c, hc, hlc, hlq, hforked, hpar, hpp⟩ := h.child q x hx
  exact ⟨c, hc, hlc, hlq, hforked, (hfields c).2.2.2.1.trans hpar, (hfields c).2.2.2.2.trans hpp⟩

/-- **`proc_exit`**: the children of the process are children of init, if it is not init itself. -/
theorem procExit (h : TreeInv s L) {init : ProcPtr} (hinit : s.initProc = some init) (proc : ProcPtr) (code : Int) :
    ∃ s' L', s.procExit proc code = some s' ∧ TreeInv s' L' ∧ SameProcs s s' ∧ L' (.children proc) = [] ∧
      (∀ p, p ≠ proc → p ≠ init → L' (.children p) = L (.children p)) ∧
      (∀ p, p ≠ proc → (s'.procs p).state = (s.procs p).state) ∧
      (proc ≠ init → ∀ x, (∃ p, x ∈ L' (.children p)) ↔ ∃ p, x ∈ L (.children p)) := by
  obtain ⟨h₁, hsame⟩ := h.setProc proc (f := fun r => { r with exitCode := (code % 256).toNat * 256, state := .zombie })
    fun _ => ⟨rfl, rfl, rfl, rfl, rfl⟩
  obtain ⟨s', L', hcode, h', hadopt, hL'⟩ :=
    adoptFrom (L (.children proc)) h₁ hinit rfl (Nat.lt_succ_of_le (h₁.length_children_le proc))
  refine ⟨s', L', hcode, h', hsame.trans hadopt.same, hL', hadopt.others, fun p hp => ?_, hadopt.owners⟩
  rw [hadopt.state p]
  simp only [ProcSys.setProc, Function.update_of_ne hp]

/-! ## Wait

The scan does not change anything; a child that it returns is a zombie, and it is unlinked and destroyed at once.
-/

/-- The scan of `proc_wait` over what is left of the children list: it comes to an end. What it finds is a zombie on the
    list that is asked for; when it finds nothing there is none. -/
theorem waitScan (h : TreeInv s L) (proc : ProcPtr) (target : Int) :
    ∀ (l xs : List TreeAddr) (fuel : Nat) (has : Bool), L (.children proc) = xs ++ l → l.length < fuel →
    ∃ found has', s.waitScan proc target fuel (l ++ [TreeAddr.children proc]).head? has = some (found, has') ∧
      (has' = true ↔ has = true ∨ l ≠ []) ∧
      (∀ c, found = some c → TreeAddr.sibling c ∈ l ∧ s.waitSkips proc c target = false ∧ (s.procs c).state = .zombie) ∧
      (found = none → ∀ c, TreeAddr.sibling c ∈ l → ¬(s.waitSkips proc c target = false ∧ (s.procs c).state = .zombie)) := by
  have hhead : TreeAddr.IsHead (.children proc) := trivial
  intro l
  induction l with
  | nil =>
    intro xs fuel has _ hfuel
    obtain ⟨fuel, rfl⟩ := Nat.exists_eq_succ_of_ne_zero (Nat.ne_of_gt hfuel)
    refine ⟨none, has, ?_, by simp, nofun, fun _ c hc => nomatch hc⟩
    simp only [ProcSys.waitScan, List.nil_append, List.head?_cons, if_true]
  | cons x l ih =>
    intro xs fuel has hL hfuel
    obtain ⟨fuel, rfl⟩ := Nat.exists_eq_succ_of_ne_zero (Nat.ne_of_gt (Nat.lt_of_le_of_lt (Nat.zero_le _) hfuel))
    obtain ⟨child, rfl, -⟩ := h.child proc x (by rw [hL]; simp)
    have hnext : s.mem.next (.sibling child) = (l ++ [TreeAddr.children proc]).head? := h.lists.next_eq hhead hL
    obtain ⟨found, has', hrest, hhas, hfound, hnone⟩ := ih (xs ++ [.sibling child]) fuel true (by rw [hL]; simp)
      (Nat.lt_of_succ_lt_succ hfuel)
    have hhas' : has' = true ↔ has = true ∨ TreeAddr.sibling child :: l ≠ [] :=
      iff_of_true (hhas.mpr (.inl rfl)) (.inr (List.cons_ne_nil _ _))
    -- a child that is passed over changes nothing
    have hpass : ¬(s.waitSkips proc child target = false ∧ (s.procs child).state = .zombie) →
        (∀ c, found = some c → TreeAddr.sibling c ∈ TreeAddr.sibling child :: l ∧ s.waitSkips proc c target = false ∧
          (s.procs c).state = .zombie) ∧
        (found = none → ∀ c, TreeAddr.sibling c ∈ TreeAddr.sibling child :: l →
          ¬(s.waitSkips proc c target = false ∧ (s.procs c).state = .zombie)) := by
      intro hno
      refine ⟨fun c hc => ⟨List.mem_cons_of_mem _ (hfound c hc).1, (hfound c hc).2⟩, fun hf c hc => ?_⟩
      rcases List.mem_cons.mp hc with hc | hc
      · cases hc
        exact hno
      · exact hnone hf c hc
    rw [List.cons_append, List.head?_cons, ProcSys.waitScan, if_neg (by simp), hnext]
    split
    next hskip => exact ⟨found, has', hrest, hhas', hpass fun hno => by rw [hskip] at hno; exact nomatch hno.1⟩
    next hskip =>
      split
      next hz =>
        refine ⟨some child, true, rfl, iff_of_true rfl (.inr (List.cons_ne_nil _ _)), ?_, nofun⟩
        rintro c hc
        cases hc
        exact ⟨List.mem_cons_self, Bool.eq_false_iff.mpr hskip, hz⟩
      next hz => exact ⟨found, has', hrest, hhas', hpass fun hno => hz hno.2⟩

/-- The lists after a child was reaped. -/
def reapLists (L : TreeAddr → List TreeAddr) (proc c : ProcPtr) : TreeAddr → List TreeAddr :=
  Function.update (Function.update L (.children proc) ((L (.children proc)).erase (.sibling c))) .allProcs
    ((L .allProcs).erase (.allList c))

/-- **Reaping**: a zombie leaves the list of its parent and the list of all processes, and is gone. -/
theorem reap (h : TreeInv s L) (hz : Childless s L) {proc c : ProcPtr} (hc : TreeAddr.sibling c ∈ L (.children proc))
    (hzombie : (s.procs c).state = .zombie) :
    ∃ m₁ m₂, s.mem.del (.sibling c) = some m₁ ∧ m₁.del (.allList c) = some m₂ ∧ ∀ table,
      TreeInv { s with
        mem := m₂
        pidTable := table
        live := Function.update s.live c false
        reaped := s.reaped ++ [(s.procs c).serial] } (reapLists L proc c) := by
  have hhead : ∀ p, TreeAddr.IsHead (.children p) := fun _ => trivial
  have hhead' : TreeAddr.IsHead .allProcs := trivial
  obtain ⟨c', hc', hlive, -, hforked, -⟩ := h.child proc _ hc
  cases hc'
  -- it is no root, so it has no children
  have hroot : ∀ p, s.initProc = some p ∨ s.idleProc = some p → p ≠ c := by
    rintro p hp rfl
    rw [(h.roots p hp).2] at hforked
    cases hforked
  have hnil : L (.children c) = [] := hz c hzombie fun hi => hroot c (.inl hi) rfl
  -- the list operations
  obtain ⟨xs, ys, -, hL, herase⟩ := List.exists_erase_eq hc
  obtain ⟨m₁, hm₁, hl₁, -⟩ := h.lists.del (hhead proc) hL
  rw [← herase] at hl₁
  have hall : Function.update L (.children proc) ((L (.children proc)).erase (.sibling c)) .allProcs = L .allProcs :=
    Function.update_of_ne (by simp) _ _
  obtain ⟨as, bs, -, hA, herase'⟩ := List.exists_erase_eq ((h.all _).mpr ⟨c, rfl, hlive⟩)
  obtain ⟨m₂, hm₂, hl₂, -⟩ := hl₁.del hhead' (hall.trans hA)
  rw [← herase'] at hl₂
  refine ⟨m₁, m₂, hm₁, hm₂, fun table => ?_⟩
  have hold : ∀ {p}, Function.update s.live c false p = true ↔ p ≠ c ∧ s.live p = true := by
    intro p
    by_cases hp : p = c
    · simp [hp]
    · simp [hp]
  refine ⟨hl₂, fun x => ?_, fun p x hx => ?_, fun p hp => ?_, fun p q hp hq he => ?_, fun n hn => ?_, fun p hp => ?_, ?_,
    fun p hp => ?_⟩
  · rw [reapLists, Function.update_self, (h.lists.nodup _ hhead').mem_erase_iff, h.all]
    constructor
    · rintro ⟨hne, p, rfl, hp⟩
      exact ⟨p, rfl, hold.mpr ⟨fun he => hne (by rw [he]), hp⟩⟩
    · rintro ⟨p, rfl, hp⟩
      obtain ⟨hne, hp⟩ := hold.mp hp
      exact ⟨by simpa using hne, p, rfl, hp⟩
  · have hx' : x ∈ L (.children p) ∧ x ≠ .sibling c := by
      rw [reapLists, Function.update_of_ne (by simp)] at hx
      by_cases hp : p = proc
      · subst hp
        rw [Function.update_self, (h.lists.nodup _ (hhead p)).mem_erase_iff] at hx
        exact ⟨hx.2, hx.1⟩
      · have hpa : TreeAddr.children p ≠ .children proc := by simpa using hp
        rw [Function.update_of_ne hpa] at hx
        exact ⟨hx, fun he => h.lists.disjoint _ (hhead p) _ (hhead proc) hpa _ hx (he ▸ hc)⟩
    obtain ⟨d, rfl, hd, hp, hrest⟩ := h.child p x hx'.1
    have hpc : p ≠ c := by
      rintro rfl
      rw [hnil] at hx'
      cases hx'.1
    exact ⟨d, rfl, hold.mpr ⟨fun he => hx'.2 (by rw [he]), hd⟩, hold.mpr ⟨hpc, hp⟩, hrest⟩
  · exact h.serial_lt p (hold.mp hp).2
  · exact h.serial_inj p q (hold.mp hp).2 (hold.mp hq).2 he
  · rcases List.mem_append.mp hn with hn | hn
    · exact h.reaped_lt n hn
    · rw [List.mem_singleton.mp hn]
      exact h.serial_lt c hlive
  · obtain ⟨hpc, hlp⟩ := hold.mp hp
    intro hm
    rcases List.mem_append.mp hm with hm | hm
    · exact h.reaped_gone p hlp hm
    · exact hpc (h.serial_inj p c hlp hlive (List.mem_singleton.mp hm))
  · rw [List.nodup_append]
    refine ⟨h.reaped_nodup, List.nodup_singleton _, fun a ha b hb => ?_⟩
    rw [List.mem_singleton.mp hb]
    rintro rfl
    exact h.reaped_gone c hlive ha
  · obtain ⟨hlp, hf⟩ := h.roots p hp
    exact ⟨hold.mpr ⟨hroot p hp, hlp⟩, hf⟩

/-- **`proc_wait`** leaves everything as it is, or reaps a zombie child of its caller. -/
theorem procWait (h : TreeInv s L) (hz : Childless s L) (proc : ProcPtr) (target : Int) (wnohang : Bool) :
    (∃ w, s.procWait proc target wnohang = some (w, s)) ∨
    ∃ w c s', s.procWait proc target wnohang = some (w, s') ∧ TreeInv s' (reapLists L proc c) ∧
      TreeAddr.sibling c ∈ L (.children proc) ∧ (s.procs c).state = .zombie ∧ s.live c = true ∧
      s'.procs = s.procs ∧ s'.live = Function.update s.live c false ∧
      s'.pidTable = (s.pidFree (s.procs c).pid).pidTable ∧ s'.nextPid = s.nextPid ∧ s'.initProc = s.initProc ∧
      s'.idleProc = s.idleProc := by
  have hhead : TreeAddr.IsHead (.children proc) := trivial
  obtain ⟨found, has, hscan, -, hfound, -⟩ := h.waitScan proc target (L (.children proc)) [] (s.births + 1) false rfl
    (Nat.lt_succ_of_le (h.length_children_le proc))
  rw [← h.lists.next_head hhead] at hscan
  cases has with
  | false =>
    refine .inl ⟨.echild, ?_⟩
    simp only [ProcSys.procWait, hscan, bind, Option.bind, Bool.not_false, if_true]
    rfl
  | true =>
    cases found with
    | none =>
      refine .inl ⟨if wnohang then .nohang else .sleeps, ?_⟩
      simp only [ProcSys.procWait, hscan, bind, Option.bind, Bool.not_true]
      rfl
    | some c =>
      obtain ⟨hc, -, hzombie⟩ := hfound c rfl
      obtain ⟨m₁, m₂, hm₁, hm₂, hinv⟩ := h.reap hz hc hzombie
      obtain ⟨c', hc', hlive, -⟩ := h.child proc _ hc
      cases hc'
      -- `pid_free` only changes the table
      have hpf : ∀ u : ProcSys, u.pidFree (s.procs c).pid =
          { u with pidTable := (u.pidFree (s.procs c).pid).pidTable } := by
        intro u
        unfold ProcSys.pidFree
        split <;> rfl
      have htable : ∀ m, (ProcSys.pidFree { s with mem := m } (s.procs c).pid).pidTable =
          (s.pidFree (s.procs c).pid).pidTable := by
        intro m
        unfold ProcSys.pidFree
        split <;> rfl
      refine .inr ⟨.reaped (s.procs c).pid (s.procs c).exitCode, c, _, ?_, hinv (s.pidFree (s.procs c).pid).pidTable, hc,
        hzombie, hlive, rfl, rfl, rfl, rfl, rfl, rfl⟩
      simp only [ProcSys.procWait, hscan, bind, Option.bind, Bool.not_true, ProcSys.withMem, hm₁, Option.map,
        ProcSys.procDestroy, hm₂]
      rw [hpf, htable]
      rfl

end TreeInv

/-! ## Pids

The search returns an empty slot or nothing. The idle process is found in the slot that it was entered in, and so is
init; only init's record says otherwise.
-/

/-- What `pid_alloc` finds is free; when it finds nothing it is back where it began. -/
theorem pidSearch_spec (table : Nat → Option ProcPtr) (start : Nat) : ∀ (fuel next : Nat) {r : Option Nat} {n : Nat},
    1 ≤ next → ProcSys.pidSearch table start fuel next = some (r, n) →
    (∀ pid, r = some pid → table pid = none ∧ pid < pidMax ∧ (2 ≤ pid ∨ pid = next) ∧ n = pid + 1) ∧ (r = none → n = start) := by
  intro fuel
  induction fuel with
  | zero => exact fun next r n _ h => nomatch h
  | succ fuel ih =>
    intro next r n h1 h
    have hmax : pidMax = 65536 := rfl
    rw [ProcSys.pidSearch] at h
    generalize hk : (if pidMax ≤ next then 2 else next) = k at h
    have hklt : k < pidMax ∧ (2 ≤ k ∨ k = next) := by
      split at hk <;> omega
    split at h
    next hnone =>
      cases h
      refine ⟨fun pid hpid => ?_, fun hr => nomatch hr⟩
      cases hpid
      exact ⟨hnone, hklt.1, hklt.2, rfl⟩
    next =>
      split at h
      next hstart =>
        cases h
        exact ⟨fun pid hpid => (nomatch hpid), fun _ => hstart⟩
      next =>
        obtain ⟨hfound, hend⟩ := ih (k + 1) (by omega) h
        refine ⟨fun pid hpid => ?_, hend⟩
        obtain ⟨hnone, hlt, hge, hn⟩ := hfound pid hpid
        exact ⟨hnone, hlt, by omega, hn⟩

/-- The loop of `pid_alloc` comes to an end: it goes up to `PID_MAX`, on from 2, and stops before `start`. It would not
    for `start = 2`, which is left behind by the pid of init. -/
theorem pidSearch_isSome (table : Nat → Option ProcPtr) {start : Nat} (hlo : 3 ≤ start) (hhi : start ≤ pidMax) :
    ∀ (fuel next : Nat), 2 ≤ next → next ≤ pidMax →
      (start ≤ next ∧ (pidMax - next) + (start - 2) ≤ fuel ∨ next < start ∧ start - next ≤ fuel) →
      (ProcSys.pidSearch table start fuel next).isSome := by
  have hmax : pidMax = 65536 := rfl
  intro fuel
  induction fuel with
  | zero =>
    intro next _ _ hfuel
    omega
  | succ fuel ih =>
    intro next h2 hnext hfuel
    rw [ProcSys.pidSearch]
    generalize hk : (if pidMax ≤ next then 2 else next) = k
    split
    · rfl
    split
    · rfl
    next hend =>
      split at hk
      · apply ih <;> omega
      · apply ih <;> omega

/-! ## The table against the records

Every process is found under its pid, except for init, whose record was changed after it was entered.
-/

/-- The pid table against the records. Init has the pid of the idle process, and another slot. -/
structure PidInv (s : ProcSys) : Prop where
  own : ∀ p, s.live p = true → s.initProc ≠ some p →
    s.pidTable (s.procs p).pid = some p ∧ 0 < (s.procs p).pid ∧ (s.procs p).pid < pidMax
  only : ∀ n p, s.pidTable n = some p → s.live p = true ∧ (s.initProc ≠ some p → n = (s.procs p).pid)
  init : ∀ i, s.initProc = some i → (s.procs i).pid = 1 ∧ s.pidTable 2 = some i ∧ ∀ n, s.pidTable n = some i → n = 2
  idle : ∃ i, s.idleProc = some i ∧ (s.procs i).pid = 1 ∧ s.initProc ≠ some i
  next : 3 ≤ s.nextPid ∧ s.nextPid ≤ pidMax

namespace PidInv

variable {s : ProcSys}

theorem pidAlloc (h : PidInv s) : ∃ r n, s.pidAlloc = some (r, { s with nextPid := n }) ∧ 3 ≤ n ∧ n ≤ pidMax ∧
    ∀ pid, r = some pid → s.pidTable pid = none ∧ 0 < pid ∧ pid < pidMax := by
  obtain ⟨hlo, hhi⟩ := h.next
  obtain ⟨⟨r, n⟩, hrn⟩ := Option.isSome_iff_exists.mp
    (pidSearch_isSome s.pidTable hlo hhi pidMax s.nextPid (by omega) hhi (by omega))
  obtain ⟨hfound, hend⟩ := pidSearch_spec s.pidTable s.nextPid pidMax s.nextPid (by omega) hrn
  refine ⟨r, n, ?_, ?_⟩
  · rw [ProcSys.pidAlloc, hrn]
    rfl
  · cases r with
    | none =>
      rw [hend rfl]
      exact ⟨hlo, hhi, fun pid hpid => nomatch hpid⟩
    | some pid =>
      obtain ⟨hnone, hlt, hge, rfl⟩ := hfound pid rfl
      refine ⟨by omega, by omega, fun pid' hpid' => ?_⟩
      cases hpid'
      exact ⟨hnone, by omega, hlt⟩

/-- `pid_alloc` moved on. -/
theorem withNextPid (h : PidInv s) {n : Nat} (hlo : 3 ≤ n) (hhi : n ≤ pidMax) : PidInv { s with nextPid := n } :=
  ⟨h.own, h.only, h.init, h.idle, hlo, hhi⟩

theorem congr {s' : ProcSys} (h : PidInv s) (hs : SameProcs s s') : PidInv s' := by
  refine ⟨fun p hp hi => ?_, fun n p hn => ?_, fun i hi => ?_, ?_, ?_⟩
  · rw [hs.pidTable, hs.pid]
    exact h.own p (hs.live ▸ hp) (hs.initProc ▸ hi)
  · rw [hs.live, hs.initProc, hs.pid]
    exact h.only n p (hs.pidTable ▸ hn)
  · rw [hs.pidTable, hs.pid]
    exact h.init i (hs.initProc ▸ hi)
  · obtain ⟨i, hi, hpid, hne⟩ := h.idle
    exact ⟨i, hs.idleProc.trans hi, (hs.pid i).trans hpid, hs.initProc ▸ hne⟩
  · rw [hs.nextPid]
    exact h.next

/-- A child gets a slot that was free. -/
theorem fork {s' : ProcSys} {L : TreeAddr → List TreeAddr} (h : PidInv s) (ht : TreeInv s L) {c pid : Nat} {r : ProcRec}
    (hc : s.live c = false) (hpid : r.pid = pid) (hnone : s.pidTable pid = none) (hlo : 0 < pid) (hhi : pid < pidMax)
    (hprocs : s'.procs = Function.update s.procs c r) (hlive : s'.live = Function.update s.live c true)
    (htable : s'.pidTable = Function.update s.pidTable pid (some c)) (hnext : 3 ≤ s'.nextPid ∧ s'.nextPid ≤ pidMax)
    (hinit : s'.initProc = s.initProc) (hidle : s'.idleProc = s.idleProc) : PidInv s' := by
  have hold : ∀ p, s.live p = true → s'.procs p = s.procs p ∧ s'.live p = true ∧ p ≠ c := by
    intro p hp
    have hpc : p ≠ c := by
      rintro rfl
      rw [hc] at hp
      cases hp
    rw [hprocs, hlive, Function.update_of_ne hpc, Function.update_of_ne hpc]
    exact ⟨rfl, hp, hpc⟩
  have hself : s'.procs c = r ∧ s'.live c = true ∧ s'.pidTable pid = some c := by
    rw [hprocs, hlive, htable, Function.update_self, Function.update_self, Function.update_self]
    exact ⟨rfl, rfl, rfl⟩
  -- the slots in use stay
  have hslot : ∀ {n p}, s.pidTable n = some p → s'.pidTable n = some p := by
    intro n p hn
    have hne : n ≠ pid := by
      rintro rfl
      rw [hnone] at hn
      cases hn
    rw [htable, Function.update_of_ne hne]
    exact hn
  have hnew : ∀ {n p}, s'.pidTable n = some p → n = pid ∧ p = c ∨ s.pidTable n = some p := by
    intro n p hn
    by_cases hnp : n = pid
    · subst hnp
      rw [hself.2.2] at hn
      exact .inl ⟨rfl, (Option.some.inj hn).symm⟩
    · rw [htable, Function.update_of_ne hnp] at hn
      exact .inr hn
  refine ⟨fun p hp hi => ?_, fun n p hn => ?_, fun i hi => ?_, ?_, hnext⟩
  · by_cases hpc : p = c
    · subst hpc
      rw [hself.1, hpid]
      exact ⟨hself.2.2, hlo, hhi⟩
    · rw [hlive, Function.update_of_ne hpc] at hp
      rw [hinit] at hi
      obtain ⟨hown, hrange⟩ := h.own p hp hi
      rw [(hold p hp).1]
      exact ⟨hslot hown, hrange⟩
  · rcases hnew hn with ⟨rfl, rfl⟩ | hn
    · rw [hself.1]
      exact ⟨hself.2.1, fun _ => hpid.symm⟩
    · obtain ⟨hp, honly⟩ := h.only n p hn
      rw [(hold p hp).1, hinit]
      exact ⟨(hold p hp).2.1, honly⟩
  · rw [hinit] at hi
    obtain ⟨hlp, -⟩ := ht.roots i (.inl hi)
    obtain ⟨hone, htwo, honly⟩ := h.init i hi
    rw [(hold i hlp).1]
    refine ⟨hone, hslot htwo, fun n hn => ?_⟩
    rcases hnew hn with ⟨-, rfl⟩ | hn
    · exact absurd rfl (hold i hlp).2.2
    · exact honly n hn
  · obtain ⟨i, hi, hone, hne⟩ := h.idle
    obtain ⟨hlp, -⟩ := ht.roots i (.inr hi)
    exact ⟨i, hidle.trans hi, by rw [(hold i hlp).1]; exact hone, by rw [hinit]; exact hne⟩

/-- A process that is reaped gives its slot back. -/
theorem reap {s' : ProcSys} (h : PidInv s) {c : ProcPtr} (hc : s.live c = true)
    (hroot : ∀ p, s.initProc = some p ∨ s.idleProc = some p → p ≠ c)
    (hprocs : s'.procs = s.procs) (hlive : s'.live = Function.update s.live c false)
    (htable : s'.pidTable = (s.pidFree (s.procs c).pid).pidTable) (hnext : s'.nextPid = s.nextPid)
    (hinit : s'.initProc = s.initProc) (hidle : s'.idleProc = s.idleProc) : PidInv s' := by
  obtain ⟨hown, hlo, hhi⟩ := h.own c hc fun hi => hroot c (.inl hi) rfl
  have htable' : s'.pidTable = Function.update s.pidTable (s.procs c).pid none := by
    rw [htable, ProcSys.pidFree, if_neg (by omega)]
  have hslot : ∀ {n p}, s'.pidTable n = some p ↔ p ≠ c ∧ s.pidTable n = some p := by
    intro n p
    rw [htable']
    by_cases hn : n = (s.procs c).pid
    · subst hn
      rw [Function.update_self, hown]
      refine ⟨fun hp => (nomatch hp), fun ⟨hne, hp⟩ => ?_⟩
      exact absurd (Option.some.inj hp).symm hne
    · rw [Function.update_of_ne hn]
      refine ⟨fun hp => ⟨?_, hp⟩, fun hp => hp.2⟩
      rintro rfl
      exact hn ((h.only n p hp).2 fun hi => hroot p (.inl hi) rfl)
  have hlive' : ∀ {p}, s'.live p = true ↔ p ≠ c ∧ s.live p = true := by
    intro p
    rw [hlive]
    by_cases hp : p = c <;> simp [hp]
  refine ⟨fun p hp hi => ?_, fun n p hn => ?_, fun i hi => ?_, ?_, by rw [hnext]; exact h.next⟩
  · rw [hprocs]
    obtain ⟨hpc, hp⟩ := hlive'.mp hp
    obtain ⟨hslot', hrange⟩ := h.own p hp (hinit ▸ hi)
    exact ⟨hslot.mpr ⟨hpc, hslot'⟩, hrange⟩
  · rw [hprocs, hinit]
    obtain ⟨hpc, hn⟩ := hslot.mp hn
    obtain ⟨hp, honly⟩ := h.only n p hn
    exact ⟨hlive'.mpr ⟨hpc, hp⟩, honly⟩
  · rw [hprocs]
    rw [hinit] at hi
    obtain ⟨hone, htwo, honly⟩ := h.init i hi
    exact ⟨hone, hslot.mpr ⟨hroot i (.inl hi), htwo⟩, fun n hn => honly n (hslot.mp hn).2⟩
  · obtain ⟨i, hi, hone, hne⟩ := h.idle
    exact ⟨i, hidle.trans hi, by rw [hprocs]; exact hone, by rw [hinit]; exact hne⟩

end PidInv

/-! ## Steps

All of it together, for each call.
-/

/-- Everything that holds of the processes in every state. -/
structure ProcInv (s : ProcSys) (L : TreeAddr → List TreeAddr) (idle init : ProcPtr) : Prop where
  tree : TreeInv s L
  childless : Childless s L
  pids : PidInv s
  init : s.initProc = some init
  idle : s.idleProc = some idle

/-- What holds besides as long as init has not exited. -/
structure Rooted (s : ProcSys) (L : TreeAddr → List TreeAddr) (init : ProcPtr) : Prop where
  owned : Owned s L
  alive : (s.procs init).state ≠ .zombie

namespace ProcInv

variable {s : ProcSys} {L : TreeAddr → List TreeAddr} {idle init : ProcPtr}

theorem fork (h : ProcInv s L idle init) {p : ProcPtr} {env : MakeEnv} (he : (ProcEvent.fork p env).Enabled s) :
    ∃ t L', (ProcEvent.fork p env).path s = some t ∧ ProcInv t L' idle init ∧ (Rooted s L init → Rooted t L' init) := by
  obtain ⟨hlive, hnz, henv⟩ : s.live p = true ∧ (s.procs p).state ≠ .zombie ∧ ∀ c ∈ env.addr, s.live c = false := he
  obtain ⟨r, n, halloc, hlo, hhi, hfree⟩ := h.pids.pidAlloc
  rcases h.tree.procFork hlive env henv halloc (fun pid hp => (hfree pid hp).1) with
    ⟨m, hm, hcode⟩ | ⟨c, pid, t, hcode, htree, hc, rfl, hprocs, hlive', htable, hnext, hinit, hidle⟩
  · -- no child
    have hm' : 3 ≤ m ∧ m ≤ pidMax := by
      rcases hm with rfl | rfl
      · exact h.pids.next
      · exact ⟨hlo, hhi⟩
    refine ⟨{ s with nextPid := m }, L, by rw [ProcEvent.path, hcode]; rfl,
      ⟨h.tree.withNextPid m, h.childless, h.pids.withNextPid hm'.1 hm'.2, h.init, h.idle⟩, fun hr => ⟨hr.owned, hr.alive⟩⟩
  · obtain ⟨hnone, hpos, hlt⟩ := hfree pid rfl
    have hci : init ≠ c := by
      rintro rfl
      rw [(h.tree.roots init (.inl h.init)).1] at hc
      cases hc
    have hlists : ∀ q, q ≠ p → TreeInv.forkLists L p c (.children q) = L (.children q) := by
      intro q hq
      rw [TreeInv.forkLists, Function.update_of_ne (by simp), Function.update_of_ne (by simpa using hq)]
    refine ⟨t, _, by rw [ProcEvent.path, hcode]; rfl,
      ⟨htree, fun q hq hqi => ?_, ?_, hinit.trans h.init, hidle.trans h.idle⟩, fun hr => ⟨?_, ?_⟩⟩
    · by_cases hqc : q = c
      · rw [hqc, hprocs, Function.update_self] at hq
        cases hq
      · rw [hprocs, Function.update_of_ne hqc] at hq
        rw [hlists q fun he => hnz (he ▸ hq)]
        exact h.childless q hq (hinit ▸ hqi)
    · exact h.pids.fork h.tree hc rfl hnone hpos hlt hprocs hlive' htable (by rw [hnext]; exact ⟨hlo, hhi⟩) hinit hidle
    · intro d hd hf
      by_cases hdc : d = c
      · exact ⟨p, TreeInv.mem_forkLists.mpr (.inr ⟨rfl, by rw [hdc]⟩)⟩
      · rw [hlive', Function.update_of_ne hdc] at hd
        rw [hprocs, Function.update_of_ne hdc] at hf
        obtain ⟨q, hq⟩ := hr.owned d hd hf
        exact ⟨q, TreeInv.mem_forkLists.mpr (.inl hq)⟩
    · rw [hprocs, Function.update_of_ne hci]
      exact hr.alive

theorem exit (h : ProcInv s L idle init) (p : ProcPtr) (code : Int) :
    ∃ t L', (ProcEvent.exit p code).path s = some t ∧ ProcInv t L' idle init ∧
      (p ≠ init → Rooted s L init → Rooted t L' init) := by
  obtain ⟨t, L', hcode, htree, hsame, hnil, hothers, hstate, howners⟩ := h.tree.procExit h.init p code
  refine ⟨t, L', hcode, ⟨htree, fun q hq hqi => ?_, h.pids.congr hsame, hsame.initProc.trans h.init, hsame.idleProc.trans h.idle⟩,
    fun hne hr => ⟨fun d hd hf => ?_, ?_⟩⟩
  · by_cases hqp : q = p
    · rw [hqp]
      exact hnil
    · have hqi' : q ≠ init := by
        rintro rfl
        exact hqi (hsame.initProc.trans h.init)
      rw [hothers q hqp hqi']
      exact h.childless q ((hstate q hqp) ▸ hq) (hsame.initProc ▸ hqi)
  · rw [hsame.live] at hd
    rw [hsame.forked] at hf
    exact (howners hne _).mpr (hr.owned d hd hf)
  · rw [hstate init (Ne.symm hne)]
    exact hr.alive

theorem wait (h : ProcInv s L idle init) (p : ProcPtr) (target : Int) (wnohang : Bool) :
    ∃ t L', (ProcEvent.wait p target wnohang).path s = some t ∧ ProcInv t L' idle init ∧
      (Rooted s L init → Rooted t L' init) := by
  rcases h.tree.procWait h.childless p target wnohang with
    ⟨w, hcode⟩ | ⟨w, c, t, hcode, htree, hc, hz, hlive, hprocs, hlive', htable, hnext, hinit, hidle⟩
  · exact ⟨s, L, by rw [ProcEvent.path, hcode]; rfl, h, id⟩
  · obtain ⟨c', hc', -, -, hforked, -⟩ := h.tree.child p _ hc
    cases hc'
    have hroot : ∀ q, s.initProc = some q ∨ s.idleProc = some q → q ≠ c := by
      rintro q hq rfl
      rw [(h.tree.roots q hq).2] at hforked
      cases hforked
    have hsub : ∀ q x, x ≠ .sibling c → (x ∈ TreeInv.reapLists L p c (.children q) ↔ x ∈ L (.children q)) := by
      intro q x hx
      rw [TreeInv.reapLists, Function.update_of_ne (by simp)]
      by_cases hq : q = p
      · rw [hq, Function.update_self, List.mem_erase_of_ne hx]
      · rw [Function.update_of_ne (by simpa using hq)]
    refine ⟨t, _, by rw [ProcEvent.path, hcode]; rfl,
      ⟨htree, fun q hq hqi => ?_, ?_, hinit.trans h.init, hidle.trans h.idle⟩, fun hr => ⟨?_, ?_⟩⟩
    · rw [hprocs] at hq
      have hnil := h.childless q hq (hinit ▸ hqi)
      have hqp : q ≠ p := by
        rintro rfl
        rw [hnil] at hc
        cases hc
      rw [TreeInv.reapLists, Function.update_of_ne (by simp), Function.update_of_ne (by simpa using hqp)]
      exact hnil
    · exact h.pids.reap hlive hroot hprocs hlive' htable hnext hinit hidle
    · intro d hd hf
      rw [hlive'] at hd
      have hdc : d ≠ c := by
        rintro rfl
        rw [Function.update_self] at hd
        cases hd
      rw [Function.update_of_ne hdc] at hd
      rw [hprocs] at hf
      obtain ⟨q, hq⟩ := hr.owned d hd hf
      exact ⟨q, (hsub q _ (by simpa using hdc)).mpr hq⟩
    · rw [hprocs]
      exact hr.alive

/-- **One step** gets through and keeps the invariant. -/
theorem step (h : ProcInv s L idle init) {e : ProcEvent} (he : e.Enabled s) :
    ∃ t L', e.path s = some t ∧ ProcInv t L' idle init ∧
      ((∀ code, e ≠ .exit init code) → Rooted s L init → Rooted t L' init) := by
  cases e with
  | fork p env =>
    obtain ⟨t, L', hcode, hinv, hrooted⟩ := h.fork he
    exact ⟨t, L', hcode, hinv, fun _ => hrooted⟩
  | exit p code =>
    obtain ⟨t, L', hcode, hinv, hrooted⟩ := h.exit p code
    exact ⟨t, L', hcode, hinv, fun hne => hrooted fun hp => hne code (by rw [hp])⟩
  | wait p target wnohang =>
    obtain ⟨t, L', hcode, hinv, hrooted⟩ := h.wait p target wnohang
    exact ⟨t, L', hcode, hinv, fun _ => hrooted⟩

end ProcInv

/-! ## Boot

The two processes that boot makes, with the lists that it leaves.
-/

theorem pidSearch_free {table : Nat → Option ProcPtr} {start fuel next : Nat} (hlt : next < pidMax) (hfree : table next = none)
    (hfuel : 0 < fuel) : ProcSys.pidSearch table start fuel next = some (some next, next + 1) := by
  obtain ⟨fuel, rfl⟩ := Nat.exists_eq_succ_of_ne_zero (Nat.ne_of_gt hfuel)
  have hk : (if pidMax ≤ next then 2 else next) = next := if_neg (Nat.not_le.mpr hlt)
  rw [ProcSys.pidSearch]
  simp only [hk, hfree, if_true]

theorem treeInv_procInit : TreeInv procInit fun _ => [] := by
  refine ⟨⟨fun _ _ => ⟨rfl, rfl, trivial⟩, by simp, by simp, by simp⟩, ?_, by simp, ?_, ?_, by simp [procInit], ?_,
    by simp [procInit], ?_⟩
  · simp [procInit]
  · simp [procInit]
  · simp [procInit]
  · simp [procInit]
  · simp [procInit]

/-- A process without children becomes a root of the tree. -/
theorem TreeInv.root {s : ProcSys} {L : TreeAddr → List TreeAddr} (h : TreeInv s L) {p : ProcPtr} {f : ProcRec → ProcRec}
    (init idle : Option ProcPtr) (hp : s.live p = true) (hforked : (s.procs p).forked = false) (hnil : L (.children p) = [])
    (hf : (f (s.procs p)).serial = (s.procs p).serial ∧ (f (s.procs p)).forked = (s.procs p).forked)
    (hroots : ∀ q, init = some q ∨ idle = some q → q = p ∨ s.initProc = some q ∨ s.idleProc = some q) :
    TreeInv { s.setProc p f with initProc := init, idleProc := idle } L := by
  have hother : ∀ q, q ≠ p → (s.setProc p f).procs q = s.procs q := fun q hq => Function.update_of_ne hq _ _
  have hfields : ∀ q, ((s.setProc p f).procs q).serial = (s.procs q).serial ∧
      ((s.setProc p f).procs q).forked = (s.procs q).forked := by
    intro q
    by_cases hq : q = p
    · subst hq
      simp [ProcSys.setProc, hf]
    · rw [hother q hq]
      exact ⟨rfl, rfl⟩
  refine ⟨h.lists, h.all, fun q x hx => ?_, fun q hq => ?_, fun q q' hq hq' he => ?_, h.reaped_lt, fun q hq => ?_,
    h.reaped_nodup, fun q hq => ?_⟩
  · obtain ⟨c, rfl, hc, hlq, hfc, hrest⟩ := h.child q x hx
    have hqp : q ≠ p := by
      rintro rfl
      rw [hnil] at hx
      cases hx
    have hcp : c ≠ p := by
      rintro rfl
      rw [hforked] at hfc
      cases hfc
    refine ⟨c, rfl, hc, hlq, ?_⟩
    simp only [hother c hcp, hother q hqp]
    exact ⟨hfc, hrest⟩
  · simp only [(hfields q).1]
    exact h.serial_lt q hq
  · simp only [(hfields q).1, (hfields q').1] at he
    exact h.serial_inj q q' hq hq' he
  · simp only [(hfields q).1]
    exact h.reaped_gone q hq
  · simp only [(hfields q).2]
    rcases hroots q hq with rfl | hq
    · exact ⟨hp, hforked⟩
    · exact h.roots q hq

/-- What boot leaves: idle and init and no other process. -/
structure Booted (s : ProcSys) (idle init : ProcPtr) : Prop where
  idleProc : s.idleProc = some idle
  initProc : s.initProc = some init
  idleRec  : s.procs idle = ⟨1, 0, 1, none, .ready, 0, 0, false⟩
  initRec  : ∃ births, s.procs init = ⟨1, 0, 2, none, .running, 0, births, false⟩
  live     : ∀ p, s.live p = true ↔ p = init ∨ p = idle
  table    : ∀ n p, s.pidTable n = some p ↔ n = 1 ∧ p = idle ∨ n = 2 ∧ p = init
  next     : s.nextPid = 3

theorem Booted.pids {s : ProcSys} {idle init : ProcPtr} (h : Booted s idle init) (hne : idle ≠ init) : PidInv s := by
  obtain ⟨births, hinit⟩ := h.initRec
  refine ⟨fun p hp hi => ?_, fun n p hn => ?_, fun i hi => ?_, ⟨idle, h.idleProc, ?_, ?_⟩, ?_⟩
  · rcases (h.live p).mp hp with rfl | rfl
    · exact absurd h.initProc hi
    · rw [h.idleRec]
      exact ⟨(h.table 1 p).mpr (.inl ⟨rfl, rfl⟩), by decide, by decide⟩
  · rcases (h.table n p).mp hn with ⟨rfl, rfl⟩ | ⟨rfl, rfl⟩
    · exact ⟨(h.live p).mpr (.inr rfl), fun _ => by rw [h.idleRec]⟩
    · exact ⟨(h.live p).mpr (.inl rfl), fun hi => absurd h.initProc hi⟩
  · obtain rfl : init = i := Option.some.inj (h.initProc.symm.trans hi)
    rw [hinit]
    refine ⟨rfl, (h.table 2 init).mpr (.inr ⟨rfl, rfl⟩), fun n hn => ?_⟩
    rcases (h.table n init).mp hn with ⟨-, he⟩ | ⟨he, -⟩
    · exact absurd he.symm hne
    · exact he
  · rw [h.idleRec]
  · intro hi
    exact hne (Option.some.inj (h.initProc.symm.trans hi)).symm
  · rw [h.next]
    exact ⟨by decide, by decide⟩

/-- Neither of the two has a parent, and init runs. -/
theorem Booted.rooted {s : ProcSys} {L : TreeAddr → List TreeAddr} {idle init : ProcPtr} (h : Booted s idle init) :
    Rooted s L init := by
  obtain ⟨births, hinit⟩ := h.initRec
  refine ⟨fun c hc hf => ?_, ?_⟩
  · rcases (h.live c).mp hc with rfl | rfl
    · rw [hinit] at hf
      cases hf
    · rw [h.idleRec] at hf
      cases hf
  · rw [hinit]
    simp

/-- **Boot** leaves two processes, and gives init the pid of the idle process. -/
theorem procInv_procBoot {idle init : ProcPtr} (hne : idle ≠ init) :
    ∃ s L, procBoot idle init = some s ∧ ProcInv s L idle init ∧ Rooted s L init := by
  have halloc₀ : procInit.pidAlloc = some (some 1, { procInit with nextPid := 2 }) := by
    have hsearch : ProcSys.pidSearch procInit.pidTable procInit.nextPid pidMax procInit.nextPid = some (some 1, 2) :=
      pidSearch_free (by decide) rfl (by decide)
    rw [ProcSys.pidAlloc, hsearch]
    rfl
  obtain ⟨s₁, L₁, hcode₁, h₁, hL₁, hprocs₁, hlive₁, htable₁, hnext₁, hinit₁, hidle₁⟩ :=
    treeInv_procInit.procCreate (c := idle) rfl halloc₀
  -- the idle process
  have hself₁ : s₁.procs idle = ⟨1, 0, 1, none, .created, 0, 0, false⟩ := by
    rw [hprocs₁, Function.update_self]
    rfl
  let s₂ : ProcSys := { s₁.setProc idle fun r => { r with state := .ready } with idleProc := some idle }
  have h₂ : TreeInv s₂ L₁ := by
    refine h₁.root s₁.initProc (some idle) ?_ (by rw [hself₁]) (hL₁ idle) ⟨rfl, rfl⟩ ?_
    · rw [hlive₁, Function.update_self]
    · rintro q (hq | hq)
      · exact .inr (.inl hq)
      · exact .inl (Option.some.inj hq).symm
  have halloc₂ : s₂.pidAlloc = some (some 2, { s₂ with nextPid := 3 }) := by
    have hsearch : ProcSys.pidSearch s₂.pidTable s₂.nextPid pidMax s₂.nextPid = some (some 2, 3) := by
      have hn : s₂.nextPid = 2 := hnext₁
      rw [hn]
      refine pidSearch_free (by decide) ?_ (by decide)
      show s₁.pidTable 2 = none
      rw [htable₁]
      rfl
    rw [ProcSys.pidAlloc, hsearch]
    rfl
  have hfree₂ : s₂.live init = false := by
    show s₁.live init = false
    rw [hlive₁, Function.update_of_ne (Ne.symm hne)]
    rfl
  obtain ⟨s₃, L₃, hcode₃, h₃, hL₃, hprocs₃, hlive₃, htable₃, hnext₃, hinit₃, hidle₃⟩ := h₂.procCreate hfree₂ halloc₂
  -- init
  let s₄ : ProcSys := { s₃.setProc init fun r => { r with state := .running, pid := 1 } with initProc := some init }
  have hself₃ : s₃.procs init = ⟨2, 0, 2, none, .created, 0, s₂.births, false⟩ := by
    rw [hprocs₃, Function.update_self]
  have hnil : ∀ p, L₃ (.children p) = [] := fun p => (hL₃ p).trans (hL₁ p)
  have h₄ : TreeInv s₄ L₃ := by
    refine h₃.root (some init) s₃.idleProc ?_ (by rw [hself₃]) (hnil init) ⟨rfl, rfl⟩ ?_
    · rw [hlive₃, Function.update_self]
    · rintro q (hq | hq)
      · exact .inl (Option.some.inj hq).symm
      · exact .inr (.inr hq)
  have hbooted : Booted s₄ idle init := by
    refine ⟨hidle₃, rfl, ?_, ⟨s₂.births, ?_⟩, fun p => ?_, fun n p => ?_, hnext₃⟩
    · show Function.update s₃.procs init _ idle = _
      rw [Function.update_of_ne hne, hprocs₃, Function.update_of_ne hne]
      show Function.update s₁.procs idle _ idle = _
      rw [Function.update_self, hself₁]
    · show Function.update s₃.procs init _ init = _
      rw [Function.update_self, hself₃]
    · show s₃.live p = true ↔ _
      rw [hlive₃]
      by_cases hpi : p = init
      · simp [hpi]
      · rw [Function.update_of_ne hpi]
        show s₁.live p = true ↔ _
        rw [hlive₁]
        by_cases hpd : p = idle
        · simp [hpd]
        · simp [hpi, hpd, procInit]
    · show s₃.pidTable n = some p ↔ _
      rw [htable₃]
      by_cases hn2 : n = 2
      · simp [hn2, eq_comm]
      · rw [Function.update_of_ne hn2]
        show s₁.pidTable n = some p ↔ _
        rw [htable₁]
        by_cases hn1 : n = 1
        · simp [hn1, eq_comm]
        · simp [hn1, hn2, procInit]
  refine ⟨s₄, L₃, ?_, ⟨h₄, fun p _ _ => hnil p, hbooted.pids hne, rfl, hidle₃⟩, hbooted.rooted⟩
  simp only [procBoot, hcode₁, bind, Option.bind]
  exact congrArg (fun r => Option.bind r _) hcode₃

/-! ## Runs

The statements about runs, and the run on which the table is wrong about init.
-/

/-- **A family**: whoever was forked and not reaped is on exactly one children list, once, that of its parent, which
    exists and has the pid that the child knows; a zombie has no children; nobody is reaped twice. -/
structure Family (s : ProcSys) : Prop where
  parent : ∀ c, s.live c = true → (s.procs c).forked = true → ∃ p, (s.procs c).parent = some p ∧ s.live p = true ∧
    (s.procs p).pid = (s.procs c).ppid ∧ (∃ n, TreeAddr.sibling c ∈ s.mem.traverse (.children p) n) ∧
    ∀ q n, TreeAddr.sibling c ∈ s.mem.traverse (.children q) n → q = p
  once : ∀ p n, (s.mem.traverse (.children p) n).Nodup
  zombie : ∀ p, s.live p = true → (s.procs p).state = .zombie → s.mem.isEmpty (.children p) = true
  reaped : s.reaped.Nodup

theorem ProcInv.family {s : ProcSys} {L : TreeAddr → List TreeAddr} {idle init : ProcPtr} (h : ProcInv s L idle init)
    (hr : Rooted s L init) : Family s := by
  have hhead : ∀ p, TreeAddr.IsHead (.children p) := fun _ => trivial
  have hwalk : ∀ p n, s.mem.traverse (.children p) n = (L (.children p)).take n :=
    fun p n => h.tree.lists.traverse_eq (hhead p) n
  refine ⟨fun c hc hf => ?_, fun p n => ?_, fun p hp hz => ?_, h.tree.reaped_nodup⟩
  · obtain ⟨p, hm⟩ := hr.owned c hc hf
    obtain ⟨c', hc', -, hp, -, hpar, hpp⟩ := h.tree.child p _ hm
    cases hc'
    refine ⟨p, hpar, hp, hpp.symm, ⟨(L (.children p)).length, ?_⟩, fun q n hq => ?_⟩
    · rw [hwalk, List.take_length]
      exact hm
    · rw [hwalk] at hq
      by_contra hne
      exact h.tree.lists.disjoint _ (hhead q) _ (hhead p) (by simpa using hne) _ (List.mem_of_mem_take hq) hm
  · rw [hwalk]
    exact (h.tree.lists.nodup _ (hhead p)).sublist (List.take_sublist _ _)
  · have hpi : s.initProc ≠ some p := by
      rw [h.init]
      intro he
      exact hr.alive ((Option.some.inj he) ▸ hz)
    rw [ListMem.isEmpty, decide_eq_true_iff, h.tree.lists.next_eq_self_iff (hhead p)]
    exact h.childless p hz hpi

/-- **The process tree.** However processes fork, exit and wait, as long as init does not exit: the processes are a
    family, and no call faults on a list. -/
theorem family_of_run (idle init : ProcPtr) (hne : idle ≠ init) (s₀ s : ProcSys) (hboot : procBoot idle init = some s₀)
    (es : List ProcEvent) (hrun : Run (Guarded (fun _ e => ∀ code, e ≠ .exit init code) ProcStep) s₀ es s) :
    Family s ∧ ∀ e : ProcEvent, e.Enabled s → (e.path s).isSome := by
  obtain ⟨s₁, L, hboot', hinv, hrooted⟩ := procInv_procBoot hne
  obtain rfl : s₁ = s₀ := Option.some.inj (hboot'.symm.trans hboot)
  have hinv' : ∃ L, ProcInv s L idle init ∧ Rooted s L init := by
    refine hrun.invariant (fun s => ∃ L, ProcInv s L idle init ∧ Rooted s L init) ⟨L, hinv, hrooted⟩ ?_
    rintro s e t ⟨L, h, hr⟩ ⟨hok, he, hpath⟩
    obtain ⟨t', L', hpath', h', hr'⟩ := h.step he
    obtain rfl : t' = t := Option.some.inj (hpath'.symm.trans hpath)
    exact ⟨L', h', hr' hok hr⟩
  obtain ⟨L', h, hr⟩ := hinv'
  refine ⟨h.family hr, fun e he => ?_⟩
  obtain ⟨t, L'', hpath, -⟩ := h.step he
  rw [hpath]
  rfl

/-- Init forks, the child forks and exits, init reaps it and is left with the grandchild. -/
def familyEvents : List ProcEvent :=
  [.fork 20 ⟨some 30, true, true, true⟩, .fork 30 ⟨some 40, true, true, true⟩, .exit 30 0, .wait 20 (-1) false]

/-- The state after a list of events none of which faults. -/
def procAfter (s : ProcSys) (es : List ProcEvent) : ProcSys := es.foldl (fun s e => (e.path s).getD s) s

theorem procStep_after {s : ProcSys} {e : ProcEvent} (he : e.Enabled s) (hs : (e.path s).isSome) :
    ProcStep s e ((e.path s).getD s) := by
  obtain ⟨t, ht⟩ := Option.isSome_iff_exists.mp hs
  rw [ht]
  exact ⟨he, ht⟩

theorem family_after_reap :
    ∃ s₀ s, procBoot 10 20 = some s₀ ∧
      Run (Guarded (fun _ e => ∀ code, e ≠ .exit 20 code) ProcStep) s₀ familyEvents s ∧ Family s ∧ s.reaped = [2] := by
  obtain ⟨s₀, hboot⟩ := Option.isSome_iff_exists.mp (show (procBoot 10 20).isSome by decide +kernel)
  have hs₀ : s₀ = (procBoot 10 20).getD procInit := by rw [hboot]; rfl
  have hrun : Run (Guarded (fun _ e => ∀ code, e ≠ .exit 20 code) ProcStep) s₀ familyEvents (procAfter s₀ familyEvents) := by
    subst hs₀
    refine (((Run.refl.tail ⟨by simp, procStep_after ?_ ?_⟩).tail ⟨by simp, procStep_after ?_ ?_⟩).tail
      ⟨by simp, procStep_after ?_ ?_⟩).tail ⟨by simp, procStep_after ?_ ?_⟩
    all_goals decide +kernel
  refine ⟨s₀, _, hboot, hrun, (family_of_run 10 20 (by decide) s₀ _ hboot familyEvents hrun).1, ?_⟩
  subst hs₀
  decide +kernel

/-! ## The pid table

Who can be found through it, in every state.
-/

/-- **The pid table.** In every state reached from boot, the table leads from the pid of a process to the process,
    except for init; and two processes have different pids, except for init and the idle process. -/
theorem pidTable_agrees (idle init : ProcPtr) (hne : idle ≠ init) (s₀ s : ProcSys) (hboot : procBoot idle init = some s₀)
    (es : List ProcEvent) (hrun : Run ProcStep s₀ es s) :
    (∀ p, s.live p = true → (s.pidToProc (s.procs p).pid = some p ↔ p ≠ init)) ∧
    ∀ p q, s.live p = true → s.live q = true → p ≠ q →
      ((s.procs p).pid = (s.procs q).pid ↔ p = idle ∧ q = init ∨ p = init ∧ q = idle) := by
  obtain ⟨s₁, L, hboot', hinv, -⟩ := procInv_procBoot hne
  obtain rfl : s₁ = s₀ := Option.some.inj (hboot'.symm.trans hboot)
  have hinv' : ∃ L, ProcInv s L idle init := by
    refine hrun.invariant (fun s => ∃ L, ProcInv s L idle init) ⟨L, hinv⟩ ?_
    rintro s e t ⟨L, h⟩ ⟨he, hpath⟩
    obtain ⟨t', L', hpath', h', -⟩ := h.step he
    obtain rfl : t' = t := Option.some.inj (hpath'.symm.trans hpath)
    exact ⟨L', h'⟩
  obtain ⟨L', h⟩ := hinv'
  have hother : ∀ p, p ≠ init → s.initProc ≠ some p := by
    intro p hp hi
    rw [h.init] at hi
    exact hp (Option.some.inj hi).symm
  -- both sit at pid 1, and the slot is the idle process's
  have hidle : (s.procs idle).pid = 1 ∧ s.pidTable 1 = some idle := by
    obtain ⟨i, hi, hone, -⟩ := h.pids.idle
    rw [h.idle] at hi
    obtain rfl : idle = i := Option.some.inj hi
    have hown := (h.pids.own idle (h.tree.roots idle (.inr h.idle)).1 (hother idle hne)).1
    rw [hone] at hown
    exact ⟨hone, hown⟩
  have hinit : (s.procs init).pid = 1 := (h.pids.init init h.init).1
  have hlike : ∀ p, s.live p = true → p ≠ init → ((s.procs p).pid = 1 ↔ p = idle) := by
    intro p hp hpi
    obtain ⟨hown, -⟩ := h.pids.own p hp (hother p hpi)
    constructor
    · intro hone
      rw [hone, hidle.2] at hown
      exact (Option.some.inj hown).symm
    · rintro rfl
      exact hidle.1
  refine ⟨fun p hp => ?_, fun p q hp hq hpq => ?_⟩
  · by_cases hpi : p = init
    · subst hpi
      rw [hinit, ProcSys.pidToProc, if_neg (by decide), hidle.2]
      simp [hne]
    · obtain ⟨hown, hlo, hhi⟩ := h.pids.own p hp (hother p hpi)
      rw [ProcSys.pidToProc, if_neg (by omega), hown]
      simp [hpi]
  · by_cases hpi : p = init
    · subst hpi
      rw [hinit, eq_comm, hlike q hq (Ne.symm hpq)]
      simp [Ne.symm hne]
    · by_cases hqi : q = init
      · subst hqi
        rw [hinit, hlike p hp hpi]
        simp [hpi]
      · simp only [hpi, hqi, and_false, false_and, or_self, iff_false]
        intro he
        have hp' := (h.pids.own p hp (hother p hpi)).1
        rw [he, (h.pids.own q hq (hother q hqi)).1] at hp'
        exact hpq (Option.some.inj hp').symm

/-- A child of init can be found by its pid. -/
theorem pidTable_child :
    ∃ s₀ s, procBoot 10 20 = some s₀ ∧ Run ProcStep s₀ [.fork 20 ⟨some 30, true, true, true⟩] s ∧
      s.pidToProc (s.procs 30).pid = some 30 := by
  obtain ⟨s₀, hboot⟩ := Option.isSome_iff_exists.mp (show (procBoot 10 20).isSome by decide +kernel)
  have hs₀ : s₀ = (procBoot 10 20).getD procInit := by rw [hboot]; rfl
  have hrun : Run ProcStep s₀ [.fork 20 ⟨some 30, true, true, true⟩]
      (procAfter s₀ [.fork 20 ⟨some 30, true, true, true⟩]) := by
    subst hs₀
    refine Run.single (procStep_after ?_ ?_)
    all_goals decide +kernel
  refine ⟨s₀, _, hboot, hrun, ((pidTable_agrees 10 20 (by decide) s₀ _ hboot _ hrun).1 30 ?_).mpr (by decide)⟩
  subst hs₀
  decide +kernel

/-- **A signal to init goes to the idle process.** After boot init has pid 1, and slot 1 is not its own. -/
theorem pidTable_fails_init :
    ∃ s, procBoot 10 20 = some s ∧ Run ProcStep s [] s ∧ s.live 20 = true ∧ s.pidToProc (s.procs 20).pid = some 10 ∧
      s.live 10 = true ∧ (s.procs 10).pid = (s.procs 20).pid := by
  obtain ⟨s₀, hboot⟩ := Option.isSome_iff_exists.mp (show (procBoot 10 20).isSome by decide +kernel)
  have hs₀ : s₀ = (procBoot 10 20).getD procInit := by rw [hboot]; rfl
  refine ⟨s₀, hboot, .refl, ?_⟩
  subst hs₀
  decide +kernel

end MyUnix.Proc
