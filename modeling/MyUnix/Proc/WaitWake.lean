import MyUnix.Proc.ProcTree

/-!
# `Proc.WaitWake` — sleeping in `proc_wait`

The process tree of `Proc.ProcTable` with what `proc_wait` adds to one pass of its loop: a process that finds children
but no zombie among those it asks for sleeps on its `wait_child`, and goes through the loop again when it is woken.
System calls run with interrupts masked, so nothing comes between the scan and the sleep. `proc_exit` wakes the parent
of the process that exits, and a signal wakes whomever it is sent to.

Who is the parent is decided twice: for the process that exits, by its `parent` field, and for its children by the
loop that hands them to init. The first of the two is woken. Init is not woken for the zombies that it is handed.

Whether somebody misses a child is a property of states: a process sleeps in `proc_wait` while a child that it asks
for is a zombie. It is kept by every step but one kind, an exit that hands zombies over to init in its sleep. Who
exits wakes its parent, and init is woken only where it is the parent. The condition (`Heard`) says when that happens,
in terms of the lists before the exit.
-/

namespace MyUnix.Proc

open Lib

/-- Where a process is in the loop of `proc_wait`. -/
inductive InWait where
  | out
  | asleep (target : Int)
  | woken (target : Int)
deriving DecidableEq

/-- The processes, with how far each is in `proc_wait`. -/
structure WaitSys where
  sys    : ProcSys
  inWait : ProcPtr → InWait

namespace WaitSys

variable (w : WaitSys)

/-- Wake a process, if it sleeps in `proc_wait`. -/
def wake (p : ProcPtr) : WaitSys :=
  match w.inWait p with
  | .asleep target => { w with inWait := Function.update w.inWait p (.woken target) }
  | _ => w

/-- One pass of the loop of `proc_wait`. -/
def pass (p : ProcPtr) (target : Int) (wnohang : Bool) : Option WaitSys := do
  let (result, s) ← w.sys.procWait p target wnohang
  pure ⟨s, Function.update w.inWait p (if result = .sleeps then .asleep target else .out)⟩

/-- `proc_exit`, with the signal to the parent and `wq_wake_all` on its `wait_child`. -/
def procExit (p : ProcPtr) (code : Int) : Option WaitSys := do
  let s ← w.sys.procExit p code
  let w : WaitSys := { w with sys := s }
  match (s.procs p).parent with
  | none => pure w
  | some parent => pure (w.wake parent)

end WaitSys

/-- A call, or a process in `proc_wait` that looks again or is interrupted. -/
inductive WaitEvent where
  | call (e : ProcEvent)
  | again (p : ProcPtr)
  | interrupted (p : ProcPtr)
  | signal (p : ProcPtr)

/-- A system call is made by a process that is not in one. A process that was woken goes through the loop once more, or
    leaves it with `EINTR`. -/
def WaitEvent.Enabled (w : WaitSys) : WaitEvent → Prop
  | .call e        => e.Enabled w.sys ∧ w.inWait e.proc = .out
  | .again p       => ∃ target, w.inWait p = .woken target
  | .interrupted p => ∃ target, w.inWait p = .woken target
  | .signal _      => True

/-- What a step leaves. -/
def WaitEvent.path (w : WaitSys) : WaitEvent → Option WaitSys
  | .call (.fork p env)            => (w.sys.procFork p env).map fun r => { w with sys := r.2 }
  | .call (.exit p code)           => w.procExit p code
  | .call (.wait p target wnohang) => w.pass p target wnohang
  | .again p                       =>
      match w.inWait p with
      | .woken target => w.pass p target false
      | _ => none
  | .interrupted p                 => some { w with inWait := Function.update w.inWait p .out }
  | .signal p                      => some (w.wake p)

/-- The step can happen in `w`, and `t` is what it leaves. -/
def WaitStep (w : WaitSys) (e : WaitEvent) (t : WaitSys) : Prop := e.Enabled w ∧ e.path w = some t

/-- The child is one that `proc_wait(target)` of the process would return. -/
def ProcSys.ZombieFor (s : ProcSys) (p : ProcPtr) (target : Int) (child : ProcPtr) : Prop :=
  s.waitSkips p child target = false ∧ (s.procs child).state = .zombie

/-- The children list of the process leads to the child. -/
def ProcSys.HasChild (s : ProcSys) (p child : ProcPtr) : Prop :=
  ∃ n, TreeAddr.sibling child ∈ s.mem.traverse (.children p) n

/-- Nobody sleeps in `proc_wait` while a child it asks for is a zombie. -/
def WaitSys.NoneMissed (w : WaitSys) : Prop :=
  ∀ p target, w.inWait p = .asleep target → ∀ c, w.sys.HasChild p c → ¬ w.sys.ZombieFor p target c

/-- The process that exits has no zombie child for which init sleeps, or init is its parent. -/
def WaitEvent.Heard (w : WaitSys) : WaitEvent → Prop
  | .call (.exit p _) => ∀ init target, w.sys.initProc = some init → w.inWait init = .asleep target →
      (w.sys.procs p).parent ≠ some init → ∀ c, w.sys.HasChild p c → ¬ w.sys.ZombieFor init target c
  | _ => True

/-! ## What the calls do to the tree

From the pointer operations to what the children lists are afterwards, as far as `proc_wait` looks at them.
-/

section Tree

variable {s t : ProcSys} {L L' : TreeAddr → List TreeAddr} {p q c proc init idle : ProcPtr} {target : Int}

theorem TreeInv.hasChild_iff (h : TreeInv s L) : s.HasChild p c ↔ TreeAddr.sibling c ∈ L (.children p) := by
  have hwalk : ∀ n, s.mem.traverse (.children p) n = (L (.children p)).take n :=
    fun n => h.lists.traverse_eq (show TreeAddr.IsHead (.children p) from trivial) n
  constructor
  · rintro ⟨n, hn⟩
    rw [hwalk] at hn
    exact List.mem_of_mem_take hn
  · intro hc
    refine ⟨(L (.children p)).length, ?_⟩
    rw [hwalk, List.take_length]
    exact hc

/-- Whether a child is skipped depends on its pid and on the two process groups. -/
theorem ProcSys.waitSkips_congr (hpid : (t.procs c).pid = (s.procs c).pid) (hc : (t.procs c).pgid = (s.procs c).pgid)
    (hp : (t.procs p).pgid = (s.procs p).pgid) : t.waitSkips p c target = s.waitSkips p c target := by
  rw [ProcSys.waitSkips, ProcSys.waitSkips, hpid, hc, hp]

theorem ProcSys.zombieFor_congr (hpid : (t.procs c).pid = (s.procs c).pid) (hc : (t.procs c).pgid = (s.procs c).pgid)
    (hp : (t.procs p).pgid = (s.procs p).pgid) (hstate : (t.procs c).state = (s.procs c).state) :
    t.ZombieFor p target c ↔ s.ZombieFor p target c := by
  rw [ProcSys.ZombieFor, ProcSys.ZombieFor, ProcSys.waitSkips_congr hpid hc hp, hstate]

/-- A process that goes to sleep in `proc_wait` has no zombie to wait for. -/
theorem TreeInv.procWait_sleeps (h : TreeInv s L) {wnohang : Bool} (hcode : s.procWait p target wnohang = some (.sleeps, t)) :
    t = s ∧ ∀ c, TreeAddr.sibling c ∈ L (.children p) → ¬ s.ZombieFor p target c := by
  obtain ⟨⟨found, has⟩, hscan, hcode⟩ := Option.bind_eq_some_iff.mp hcode
  cases has with
  | false => exact absurd (congrArg Prod.fst (Option.some.inj hcode)) nofun
  | true =>
      cases found with
      | none =>
          obtain ⟨found, has, hscan', -, -, hnone⟩ := h.waitScan p target (L (.children p)) [] (s.births + 1) false rfl
            (Nat.lt_succ_of_le (h.length_children_le p))
          rw [← h.lists.next_head (show TreeAddr.IsHead (.children p) from trivial)] at hscan'
          have hfound : found = none := (congrArg Prod.fst (Option.some.inj (hscan.symm.trans hscan'))).symm
          exact ⟨(congrArg Prod.snd (Option.some.inj hcode)).symm, hnone hfound⟩
      | some child =>
          obtain ⟨s₁, _, hcode⟩ := Option.bind_eq_some_iff.mp hcode
          obtain ⟨s₂, _, hcode⟩ := Option.bind_eq_some_iff.mp hcode
          exact absurd (congrArg Prod.fst (Option.some.inj hcode)) nofun

/-! ### Exit

The children of the process are children of init now; their process groups and states have not changed.
-/

/-- What `proc_exit` does to the records of processes: the groups stay, and only children get another parent. -/
structure Reparents (s : ProcSys) (l : List TreeAddr) (init : ProcPtr) (t : ProcSys) : Prop where
  pgid   : ∀ q, (t.procs q).pgid = (s.procs q).pgid
  parent : ∀ q, (t.procs q).parent = (s.procs q).parent ∨ TreeAddr.sibling q ∈ l ∧ (t.procs q).parent = some init

theorem ProcSys.withMem_procs {m : Option (ListMem TreeAddr)} (h : s.withMem m = some t) :
    t.procs = s.procs ∧ t.initProc = s.initProc := by
  obtain ⟨m', _, rfl⟩ := Option.map_eq_some_iff.mp h
  exact ⟨rfl, rfl⟩

theorem ProcSys.adopt_reparents (hinit : s.initProc = some init) (h : s.adopt proc c = some t) :
    Reparents s [.sibling c] init t := by
  obtain ⟨s₁, hdel, h⟩ := Option.bind_eq_some_iff.mp h
  obtain ⟨hprocs₁, hinit₁⟩ := ProcSys.withMem_procs hdel
  simp only [hinit₁, hinit] at h
  split at h
  · cases h
    exact ⟨fun q => by rw [hprocs₁], fun q => .inl (by rw [hprocs₁])⟩
  · obtain ⟨hprocs, _⟩ := ProcSys.withMem_procs h
    refine ⟨fun q => ?_, fun q => ?_⟩
    · rw [hprocs, ← hprocs₁]
      by_cases hq : q = c
      · subst hq
        simp only [ProcSys.setProc, Function.update_self]
      · simp only [ProcSys.setProc, Function.update_of_ne hq]
    · rw [hprocs, ← hprocs₁]
      by_cases hq : q = c
      · subst hq
        refine .inr ⟨List.mem_singleton_self _, ?_⟩
        simp only [ProcSys.setProc, Function.update_self]
      · refine .inl ?_
        simp only [ProcSys.setProc, Function.update_of_ne hq]

/-- The loop over the children, by induction on those that are left. -/
theorem TreeInv.adoptFrom_reparents : ∀ (l : List TreeAddr) {fuel : Nat} {s : ProcSys} {L : TreeAddr → List TreeAddr},
    TreeInv s L → s.initProc = some init → L (.children proc) = l →
    ProcSys.adoptFrom proc fuel s (s.mem.next (.children proc)) ((s.mem.next (.children proc)).bind s.mem.next) = some t →
    Reparents s l init t := by
  have hhead : TreeAddr.IsHead (.children proc) := trivial
  intro l
  induction l with
  | nil =>
      intro fuel s L h _ hL hcode
      have hfirst : s.mem.next (.children proc) = some (.children proc) := by
        rw [h.lists.next_head hhead, hL]
        rfl
      cases fuel with
      | zero => cases hcode
      | succ fuel =>
          simp only [ProcSys.adoptFrom, hfirst, if_true] at hcode
          cases hcode
          exact ⟨fun _ => rfl, fun _ => .inl rfl⟩
  | cons x l ih =>
      intro fuel s L h hinit hL hcode
      obtain ⟨child, rfl, -⟩ := h.child proc x (by rw [hL]; exact List.mem_cons_self)
      obtain ⟨s₁, L₁, hcode₁, h₁, hadopt₁, hL₁⟩ := h.adopt hinit hL
      have hfirst : s.mem.next (.children proc) = some (.sibling child) := h.lists.next_eq_head hhead hL
      have hsucc : s.mem.next (.sibling child) = s₁.mem.next (.children proc) := by
        rw [h.lists.next_eq hhead (show L (.children proc) = [] ++ _ :: l from hL), h₁.lists.next_head hhead, hL₁]
      cases fuel with
      | zero => cases hcode
      | succ fuel =>
          rw [hfirst, ProcSys.adoptFrom, if_neg (by simp), Option.bind_some, hsucc] at hcode
          simp only [hcode₁, bind, Option.bind] at hcode
          have hone := ProcSys.adopt_reparents hinit hcode₁
          have hrest := ih h₁ (hadopt₁.same.initProc.trans hinit) hL₁ hcode
          refine ⟨fun q => (hrest.pgid q).trans (hone.pgid q), fun q => ?_⟩
          rcases hrest.parent q with hq | ⟨hm, hq⟩
          · rw [hq]
            exact (hone.parent q).imp_right fun hm => ⟨by rw [List.mem_singleton.mp hm.1]; exact List.mem_cons_self, hm.2⟩
          · exact .inr ⟨List.mem_cons_of_mem _ hm, hq⟩

theorem TreeInv.procExit_reparents (h : TreeInv s L) (hinit : s.initProc = some init) {code : Int}
    (hcode : s.procExit proc code = some t) : Reparents s (L (.children proc)) init t := by
  obtain ⟨h₁, -⟩ := h.setProc proc (f := fun r => { r with exitCode := (code % 256).toNat * 256, state := .zombie })
    fun _ => ⟨rfl, rfl, rfl, rfl, rfl⟩
  have hloop := h₁.adoptFrom_reparents (L (.children proc)) hinit rfl hcode
  have hfields : ∀ q, ((s.setProc proc fun r => { r with exitCode := (code % 256).toNat * 256, state := .zombie }).procs
      q).pgid = (s.procs q).pgid ∧ ((s.setProc proc fun r =>
        { r with exitCode := (code % 256).toNat * 256, state := .zombie }).procs q).parent = (s.procs q).parent := by
    intro q
    by_cases hq : q = proc
    · subst hq
      simp [ProcSys.setProc]
    · simp [ProcSys.setProc, hq]
  exact ⟨fun q => (hloop.pgid q).trans (hfields q).1, fun q => (hfields q).2 ▸ hloop.parent q⟩

/-! ### Children after a call

Whose child a process is after an exit, and after a reaping.
-/

theorem TreeInv.notOwn (h : TreeInv s L) (hself : ∀ p, s.live p = true → (s.procs p).parent ≠ some p) (p : ProcPtr) :
    TreeAddr.sibling p ∉ L (.children p) := by
  intro hm
  obtain ⟨c, hc, hlive, -, -, hpar, -⟩ := h.child p _ hm
  cases hc
  exact hself p hlive hpar

/-- After `proc_exit` init has the children it had and those of the process. -/
theorem mem_children_init (h : TreeInv s L) (hne : proc ≠ init) (hnil : L' (.children proc) = [])
    (hothers : ∀ p, p ≠ proc → p ≠ init → L' (.children p) = L (.children p)) (h' : TreeInv t L')
    (howners : ∀ x, (∃ p, x ∈ L' (.children p)) ↔ ∃ p, x ∈ L (.children p)) (x : TreeAddr) :
    x ∈ L' (.children init) ↔ x ∈ L (.children init) ∨ x ∈ L (.children proc) := by
  have hheads : ∀ p, TreeAddr.IsHead (.children p) := fun _ => trivial
  constructor
  · intro hx
    obtain ⟨p, hp⟩ := (howners x).mp ⟨init, hx⟩
    by_cases hpp : p = proc
    · subst hpp
      exact .inr hp
    · by_cases hpi : p = init
      · subst hpi
        exact .inl hp
      · rw [← hothers p hpp hpi] at hp
        exact absurd hx (h'.lists.disjoint _ (hheads p) _ (hheads init) (by simpa using hpi) x hp)
  · intro hx
    obtain ⟨p, hp⟩ := (howners x).mpr (hx.elim (fun hx => ⟨init, hx⟩) fun hx => ⟨proc, hx⟩)
    by_cases hpi : p = init
    · subst hpi
      exact hp
    · have hpp : p ≠ proc := by
        rintro rfl
        rw [hnil] at hp
        cases hp
      rw [hothers p hpp hpi] at hp
      rcases hx with hx | hx
      · exact absurd hx (h.lists.disjoint _ (hheads p) _ (hheads init) (by simpa using hpi) x hp)
      · exact absurd hx (h.lists.disjoint _ (hheads p) _ (hheads proc) (by simpa using hpp) x hp)

end Tree

/-! ## The invariant

The tree, and that only processes which are inside `proc_wait` sleep there. Each call is looked at for the children
that it may make somebody miss.
-/

/-- The tree, with nobody its own parent, and only processes that run in `proc_wait`. -/
structure WaitInv (w : WaitSys) (L : TreeAddr → List TreeAddr) (idle init : ProcPtr) : Prop where
  proc  : ProcInv w.sys L idle init
  self  : ∀ p, w.sys.live p = true → (w.sys.procs p).parent ≠ some p
  alive : ∀ p, w.inWait p ≠ .out → w.sys.live p = true ∧ (w.sys.procs p).state ≠ .zombie

namespace WaitInv

variable {w t : WaitSys} {L : TreeAddr → List TreeAddr} {idle init p q : ProcPtr} {target : Int}

theorem noneMissed_iff (h : WaitInv w L idle init) : w.NoneMissed ↔ ∀ p target, w.inWait p = .asleep target →
    ∀ c, TreeAddr.sibling c ∈ L (.children p) → ¬ w.sys.ZombieFor p target c := by
  simp only [WaitSys.NoneMissed, h.proc.tree.hasChild_iff]

theorem wake_inWait (w : WaitSys) (p q : ProcPtr) : (w.wake p).inWait q = w.inWait q ∨
    q = p ∧ ∃ target, w.inWait p = .asleep target ∧ (w.wake p).inWait q = .woken target := by
  rw [WaitSys.wake]
  split
  next target hp =>
    by_cases hq : q = p
    · subst hq
      exact .inr ⟨rfl, target, hp, Function.update_self _ _ _⟩
    · exact .inl (Function.update_of_ne hq _ _)
  next => exact .inl rfl

theorem wake_sys (w : WaitSys) (p : ProcPtr) : (w.wake p).sys = w.sys := by
  rw [WaitSys.wake]
  split <;> rfl

/-- Whoever sleeps after somebody was woken is somebody else, and slept before. -/
theorem wake_asleep_iff (w : WaitSys) (p q : ProcPtr) (target : Int) :
    (w.wake p).inWait q = .asleep target ↔ w.inWait q = .asleep target ∧ q ≠ p := by
  rw [WaitSys.wake]
  by_cases hq : q = p
  · subst hq
    split
    next hw => simp
    next hw =>
      simp only [ne_eq, not_true, and_false, iff_false]
      exact hw target
  · split
    next hw => simp [hq]
    next hw => simp [hq]

theorem wake (h : WaitInv w L idle init) (p : ProcPtr) : WaitInv (w.wake p) L idle init := by
  have hsys := wake_sys w p
  refine ⟨hsys ▸ h.proc, hsys ▸ h.self, fun q hq => ?_⟩
  rw [hsys]
  rcases wake_inWait w p q with he | ⟨rfl, target, hp, _⟩
  · exact h.alive q (he ▸ hq)
  · exact h.alive q (by rw [hp]; exact nofun)

/-- Waking somebody makes nobody miss a child. -/
theorem wake_noneMissed (hP : w.NoneMissed) (p : ProcPtr) : (w.wake p).NoneMissed := by
  intro q target hq
  rw [wake_sys]
  exact hP q target ((wake_asleep_iff w p q target).mp hq).1

/-- `proc_fork` makes nobody miss a child. -/
theorem fork (h : WaitInv w L idle init) (hP : w.NoneMissed) {env : MakeEnv}
    (he : (ProcEvent.fork p env).Enabled w.sys) (ht : (WaitEvent.call (.fork p env)).path w = some t) :
    (∃ L', WaitInv t L' idle init) ∧ t.NoneMissed := by
  obtain ⟨u, L', hpath, hproc, -⟩ := h.proc.fork he
  obtain ⟨hlive, -, henv⟩ : w.sys.live p = true ∧ (w.sys.procs p).state ≠ .zombie ∧ ∀ c ∈ env.addr, w.sys.live c = false :=
    he
  have heq : t = { w with sys := u } := by
    have hcode : (w.sys.procFork p env).map Prod.snd = some u := hpath
    obtain ⟨r, hr, rfl⟩ := Option.map_eq_some_iff.mp hcode
    rw [WaitEvent.path, hr] at ht
    exact (Option.some.inj ht).symm
  subst heq
  obtain ⟨r, n, halloc, -, -, hfree⟩ := h.proc.pids.pidAlloc
  rcases h.proc.tree.procFork hlive env henv halloc fun pid hp => (hfree pid hp).1 with
    ⟨m, -, hcode⟩ | ⟨c, pid, s', hcode, htree, hc, -, hprocs, hlive', -⟩
  · -- no child
    obtain rfl : u = { w.sys with nextPid := m } := by
      rw [ProcEvent.path, hcode] at hpath
      exact (Option.some.inj hpath).symm
    exact ⟨⟨L', hproc, h.self, h.alive⟩, hP⟩
  · obtain rfl : u = s' := by
      rw [ProcEvent.path, hcode] at hpath
      exact (Option.some.inj hpath).symm
    have hne : ∀ q, w.sys.live q = true → q ≠ c := by
      rintro q hq rfl
      rw [hc] at hq
      cases hq
    have hkeep : ∀ q, w.sys.live q = true → u.procs q = w.sys.procs q := by
      intro q hq
      rw [hprocs, Function.update_of_ne (hne q hq)]
    refine ⟨⟨L', hproc, fun q hq => ?_, fun q hq => ?_⟩, fun q target hq d hd => ?_⟩
    · by_cases hqc : q = c
      · rw [hprocs, hqc, Function.update_self]
        exact fun he => hne p hlive (Option.some.inj he)
      · rw [hlive', Function.update_of_ne hqc] at hq
        rw [hkeep q hq]
        exact h.self q hq
    · obtain ⟨hlq, hzq⟩ := h.alive q hq
      exact ⟨by rw [hlive', Function.update_of_ne (hne q hlq)]; exact hlq, by rw [hkeep q hlq]; exact hzq⟩
    · have hlq := (h.alive q (by rw [hq]; intro hout; cases hout)).1
      rcases TreeInv.mem_forkLists.mp (htree.hasChild_iff.mp hd) with hd | ⟨-, hdc⟩
      · obtain ⟨d', hd', hld, -⟩ := h.proc.tree.child q _ hd
        cases hd'
        have hsame := hkeep d hld
        rw [ProcSys.zombieFor_congr (s := w.sys) (by rw [hsame]) (by rw [hsame]) (by rw [hkeep q hlq]) (by rw [hsame])]
        exact hP q target hq d (h.proc.tree.hasChild_iff.mpr hd)
      · -- the new child is no zombie
        cases hdc
        rintro ⟨-, hz⟩
        rw [hprocs, Function.update_self] at hz
        cases hz

/-- A pass of the loop of `proc_wait` that goes to sleep has seen all children, and one that reaps a child takes it from
    a process that does not sleep. -/
theorem pass (h : WaitInv w L idle init) (hP : w.NoneMissed) {wnohang : Bool} (hlive : w.sys.live p = true)
    (hnz : (w.sys.procs p).state ≠ .zombie) (ht : w.pass p target wnohang = some t) :
    (∃ L', WaitInv t L' idle init) ∧ t.NoneMissed := by
  obtain ⟨u, L', hpath, hproc, -⟩ := h.proc.wait p target wnohang
  obtain ⟨⟨result, u'⟩, hcode, heq⟩ := Option.bind_eq_some_iff.mp ht
  obtain rfl : u' = u := by
    rw [ProcEvent.path, hcode] at hpath
    exact Option.some.inj hpath
  obtain rfl := Option.some.inj heq
  have hother : ∀ q target', q ≠ p → (Function.update w.inWait p (if result = .sleeps then .asleep target else .out) q =
      .asleep target' ↔ w.inWait q = .asleep target') := by
    intro q target' hq
    rw [Function.update_of_ne hq]
  have hin : ∀ q, Function.update w.inWait p (if result = .sleeps then .asleep target else .out) q ≠ .out →
      w.sys.live q = true ∧ (w.sys.procs q).state ≠ .zombie := by
    intro q hq
    by_cases hqp : q = p
    · subst hqp
      exact ⟨hlive, hnz⟩
    · rw [Function.update_of_ne hqp] at hq
      exact h.alive q hq
  -- who sleeps, and what it has seen
  have hown : ∀ target', Function.update w.inWait p (if result = .sleeps then .asleep target else .out) p = .asleep target' →
      u' = w.sys ∧ ∀ c, TreeAddr.sibling c ∈ L (.children p) → ¬ w.sys.ZombieFor p target' c := by
    intro target' he
    rw [Function.update_self] at he
    split at he
    next hs =>
      cases he
      subst hs
      exact h.proc.tree.procWait_sleeps hcode
    next => cases he
  rcases h.proc.tree.procWait h.proc.childless p target wnohang with
    ⟨result', hcode'⟩ | ⟨result', c, s', hcode', htree, hc, hz, hlc, hprocs, hlive', -⟩
  · obtain rfl : w.sys = u' := by
      rw [hcode] at hcode'
      exact (congrArg Prod.snd (Option.some.inj hcode')).symm
    refine ⟨⟨L', hproc, h.self, hin⟩, fun q target' hq d hd => ?_⟩
    by_cases hqp : q = p
    · subst hqp
      exact (hown target' hq).2 d (h.proc.tree.hasChild_iff.mp hd)
    · exact hP q target' ((hother q target' hqp).mp hq) d hd
  · obtain rfl : u' = s' := by
      rw [hcode] at hcode'
      exact congrArg Prod.snd (Option.some.inj hcode')
    have hlive_of : ∀ q, u'.live q = true → w.sys.live q = true := by
      intro q hq
      by_cases hqc : q = c
      · exact hqc ▸ hlc
      · rwa [hlive', Function.update_of_ne hqc] at hq
    have halive : ∀ q, (w.sys.procs q).state ≠ .zombie → w.sys.live q = true → u'.live q = true := by
      intro q hq hlq
      have hqc : q ≠ c := by
        rintro rfl
        exact hq hz
      rwa [hlive', Function.update_of_ne hqc]
    refine ⟨⟨L', hproc, fun q hq => ?_, fun q hq => ?_⟩, fun q target' hq d hd => ?_⟩
    · rw [hprocs]
      exact h.self q (hlive_of q hq)
    · obtain ⟨hlq, hzq⟩ := hin q hq
      rw [hprocs]
      exact ⟨halive q hzq hlq, hzq⟩
    · have hqp : q ≠ p := by
        rintro rfl
        -- it would have slept in the state it started from, but a child is gone
        have hsame := (hown target' hq).1
        rw [hsame] at hlive'
        have hgone := congrFun hlive' c
        rw [hlc, Function.update_self] at hgone
        cases hgone
      have hd' := htree.hasChild_iff.mp hd
      rw [TreeInv.reapLists, Function.update_of_ne (by simp), Function.update_of_ne (by simpa using hqp)] at hd'
      rw [ProcSys.zombieFor_congr (s := w.sys) (by rw [hprocs]) (by rw [hprocs]) (by rw [hprocs]) (by rw [hprocs])]
      exact hP q target' ((hother q target' hqp).mp hq) d (h.proc.tree.hasChild_iff.mpr hd')

/-- **`proc_exit`** keeps the invariant and wakes the parent, which is the one there was before. -/
theorem exit_wakes (h : WaitInv w L idle init) {code : Int} (hout : w.inWait p = .out) {u : ProcSys}
    (hcode : w.sys.procExit p code = some u) (ht : (WaitEvent.call (.exit p code)).path w = some t) :
    (∃ L', WaitInv t L' idle init) ∧ t.sys = u ∧ (u.procs p).parent = (w.sys.procs p).parent ∧
      ∀ q target, t.inWait q = .asleep target ↔ w.inWait q = .asleep target ∧ (w.sys.procs p).parent ≠ some q := by
  obtain ⟨u₁, -, hcode₁, -, hsame, -, -, hstate, -⟩ := h.proc.tree.procExit h.proc.init p code
  obtain rfl : u₁ = u := Option.some.inj (hcode₁.symm.trans hcode)
  obtain ⟨u₂, L', hpath, hproc, -⟩ := h.proc.exit p code
  obtain rfl : u₂ = u₁ := Option.some.inj (hpath.symm.trans hcode)
  have hrep := h.proc.tree.procExit_reparents h.proc.init hcode
  -- nobody becomes its own parent
  have hparent : (u₂.procs p).parent = (w.sys.procs p).parent := by
    rcases hrep.parent p with hp | ⟨hp, -⟩
    · exact hp
    · exact absurd hp (h.proc.tree.notOwn h.self p)
  have hroot : ∀ q, TreeAddr.sibling init ∉ L (.children q) := by
    intro q hq
    obtain ⟨c, hc, -, -, hforked, -⟩ := h.proc.tree.child q _ hq
    cases hc
    rw [(h.proc.tree.roots init (.inl h.proc.init)).2] at hforked
    cases hforked
  have hexit : WaitInv { w with sys := u₂ } L' idle init := by
    refine ⟨hproc, fun q hq => ?_, fun q hq => ?_⟩
    · rcases hrep.parent q with hpar | ⟨hm, hpar⟩
      · rw [hpar]
        exact h.self q (hsame.live ▸ hq)
      · rw [hpar]
        intro hqi
        exact hroot p (Option.some.inj hqi ▸ hm)
    · obtain ⟨hlq, hzq⟩ := h.alive q hq
      have hqp : q ≠ p := by
        rintro rfl
        exact hq hout
      exact ⟨by rw [hsame.live]; exact hlq, by rw [hstate q hqp]; exact hzq⟩
  rw [WaitEvent.path, WaitSys.procExit, hcode] at ht
  simp only [bind, Option.bind, hparent] at ht
  cases hpar : (w.sys.procs p).parent with
  | none =>
      rw [hpar] at ht
      obtain rfl := Option.some.inj ht
      exact ⟨⟨L', hexit⟩, rfl, hparent.trans hpar, fun q target => by simp⟩
  | some parent =>
      rw [hpar] at ht
      obtain rfl := Option.some.inj ht
      refine ⟨⟨L', hexit.wake parent⟩, wake_sys _ _, hparent.trans hpar, fun q target => ?_⟩
      rw [wake_asleep_iff, ne_eq, ne_eq, Option.some_inj, eq_comm (a := parent)]

/-- **`proc_exit`** makes init miss the zombies it is handed if it sleeps and is not woken. -/
theorem exit (h : WaitInv w L idle init) (hP : w.NoneMissed) {code : Int} (hout : w.inWait p = .out)
    (ht : (WaitEvent.call (.exit p code)).path w = some t) :
    (∃ L', WaitInv t L' idle init) ∧ (t.NoneMissed ↔ (WaitEvent.call (.exit p code)).Heard w) := by
  obtain ⟨u', L', hcode, htree, hsame, hnil, hothers, hstate, howners⟩ := h.proc.tree.procExit h.proc.init p code
  have hrep := h.proc.tree.procExit_reparents h.proc.init hcode
  have hself := h.proc.tree.notOwn h.self
  obtain ⟨hinv, hsys, hparent, hasleep⟩ := h.exit_wakes hout hcode ht
  -- a child that does not exit looks the same to every wait
  have hcongr : ∀ q target c, c ≠ p → (u'.ZombieFor q target c ↔ w.sys.ZombieFor q target c) := fun q target c hcp =>
    ProcSys.zombieFor_congr (hsame.pid c) (hrep.pgid c) (hrep.pgid q) (hstate c hcp)
  refine ⟨hinv, fun hmiss => ?_, fun hheard q target hq c hc => ?_⟩
  · intro init' target hinit hq hpar c hc
    obtain rfl : init = init' := Option.some.inj (h.proc.init.symm.trans hinit)
    have hne : p ≠ init := by
      rintro rfl
      rw [hout] at hq
      cases hq
    have hm := h.proc.tree.hasChild_iff.mp hc
    have hcp : c ≠ p := by
      rintro rfl
      exact hself c hm
    have hc' : t.sys.HasChild init c := by
      rw [hsys, htree.hasChild_iff]
      exact (mem_children_init h.proc.tree hne hnil hothers htree (howners hne) _).mpr (.inr hm)
    have hno := hmiss init target ((hasleep init target).mpr ⟨hq, hpar⟩) c hc'
    rwa [hsys, hcongr init target c hcp] at hno
  · obtain ⟨hq', hpar⟩ := (hasleep q target).mp hq
    rw [hsys] at hc ⊢
    have hm := htree.hasChild_iff.mp hc
    have hqp : q ≠ p := by
      rintro rfl
      rw [hout] at hq'
      cases hq'
    have hcp : c ≠ p := by
      rintro rfl
      obtain ⟨d, hd, -, -, -, hpar', -⟩ := htree.child q _ hm
      cases hd
      exact hpar (hparent.symm.trans hpar')
    rw [hcongr q target c hcp]
    by_cases hqi : q = init
    · subst hqi
      rcases (mem_children_init h.proc.tree (Ne.symm hqp) hnil hothers htree (howners (Ne.symm hqp)) _).mp hm with hm | hm
      · exact hP q target hq' c (h.proc.tree.hasChild_iff.mpr hm)
      · exact hheard q target h.proc.init hq' hpar c (h.proc.tree.hasChild_iff.mpr hm)
    · rw [hothers q hqp hqi] at hm
      exact hP q target hq' c (h.proc.tree.hasChild_iff.mpr hm)

/-- **One step** keeps the invariant, and makes somebody miss a child only if it is an exit that init does not hear. -/
theorem step (h : WaitInv w L idle init) (hP : w.NoneMissed) {e : WaitEvent} (hs : WaitStep w e t) :
    (∃ L', WaitInv t L' idle init) ∧ (t.NoneMissed ↔ e.Heard w) := by
  obtain ⟨he, ht⟩ := hs
  have hquiet : (∃ L', WaitInv t L' idle init) ∧ t.NoneMissed → e.Heard w →
      (∃ L', WaitInv t L' idle init) ∧ (t.NoneMissed ↔ e.Heard w) := fun hkeep hok =>
    ⟨hkeep.1, iff_of_true hkeep.2 hok⟩
  cases e with
  | call e =>
      obtain ⟨he, hout⟩ : e.Enabled w.sys ∧ w.inWait e.proc = .out := he
      cases e with
      | fork p env => exact hquiet (h.fork hP he ht) trivial
      | exit p code => exact h.exit hP hout ht
      | wait p target wnohang => exact hquiet (h.pass hP he.1 he.2.1 ht) trivial
  | again p =>
      obtain ⟨target, hp⟩ : ∃ target, w.inWait p = .woken target := he
      obtain ⟨hlive, hnz⟩ := h.alive p (by rw [hp]; exact nofun)
      simp only [WaitEvent.path, hp] at ht
      exact hquiet (h.pass hP hlive hnz ht) trivial
  | interrupted p =>
      obtain rfl := Option.some.inj ht
      refine hquiet ⟨⟨L, h.proc, h.self, fun q hq => ?_⟩, fun q target hq => ?_⟩ trivial
      · by_cases hqp : q = p
        · subst hqp
          exact absurd (Function.update_self _ _ _) hq
        · have hq' : w.inWait q ≠ .out := fun he => hq ((Function.update_of_ne hqp _ _).trans he)
          exact h.alive q hq'
      · have hqp : q ≠ p := by
          rintro rfl
          have hout : Function.update w.inWait q .out q = .asleep target := hq
          rw [Function.update_self] at hout
          cases hout
        exact hP q target ((Function.update_of_ne hqp _ _).symm.trans hq)
  | signal p =>
      obtain rfl := Option.some.inj ht
      exact hquiet ⟨⟨L, h.wake p⟩, wake_noneMissed hP p⟩ trivial

end WaitInv

/-! ## Runs

The equivalence is an instance of `throughout_iff_everyStep`.
-/

theorem procCreate_parent {s t : ProcSys} {env : MakeEnv} {r : Option ProcPtr} (h : ∀ p, (s.procs p).parent = none)
    (hcode : s.procCreate env = some (r, t)) (p : ProcPtr) : (t.procs p).parent = none := by
  cases haddr : env.addr with
  | none =>
      simp only [ProcSys.procCreate, haddr] at hcode
      cases hcode
      exact h p
  | some c =>
      simp only [ProcSys.procCreate, haddr] at hcode
      obtain ⟨⟨pid, s₁⟩, halloc, hcode⟩ := Option.bind_eq_some_iff.mp hcode
      obtain ⟨⟨pid', n⟩, _, halloc⟩ := Option.bind_eq_some_iff.mp halloc
      obtain ⟨rfl, rfl⟩ := Prod.mk.inj (Option.some.inj halloc)
      cases pid' with
      | none =>
          cases hcode
          exact h p
      | some pid =>
          simp only at hcode
          split at hcode
          · cases hcode
            unfold ProcSys.pidFree
            split <;> exact h p
          · obtain ⟨s₂, hins, hcode⟩ := Option.bind_eq_some_iff.mp hcode
            obtain ⟨rfl, rfl⟩ := Prod.mk.inj (Option.some.inj hcode)
            rw [(ProcSys.withMem_procs hins).1]
            by_cases hp : p = c
            · subst hp
              simp only [ProcSys.newProc, Function.update_self]
            · simp only [ProcSys.newProc, Function.update_of_ne hp]
              exact h p

/-- Nobody has a parent after boot. -/
theorem procBoot_parent {idle init : ProcPtr} {s : ProcSys} (hboot : procBoot idle init = some s) (p : ProcPtr) :
    (s.procs p).parent = none := by
  have hset : ∀ (s : ProcSys) (q : ProcPtr) (f : ProcRec → ProcRec), (∀ r, (f r).parent = r.parent) →
      (∀ p, (s.procs p).parent = none) → ∀ p, ((s.setProc q f).procs p).parent = none := by
    intro s q f hf h p
    by_cases hp : p = q
    · subst hp
      simp only [ProcSys.setProc, Function.update_self, hf, h]
    · simp only [ProcSys.setProc, Function.update_of_ne hp, h]
  simp only [procBoot, Option.bind_eq_bind, Option.bind_eq_some_iff] at hboot
  obtain ⟨⟨r₁, s₁⟩, hcode₁, c₁, _, ⟨r₂, s₂⟩, hcode₂, c₂, _, hboot⟩ := hboot
  have h₁ := procCreate_parent (fun _ => rfl) hcode₁
  have h₂ : ∀ p, (s₂.procs p).parent = none := by
    refine procCreate_parent ?_ hcode₂
    exact hset s₁ c₁ (fun r => { r with state := .ready }) (fun _ => rfl) h₁
  cases hboot
  exact hset s₂ c₂ (fun r => { r with state := .running, pid := 1 }) (fun _ => rfl) h₂ p

/-- **Children are heard.** From boot, nobody ever sleeps in `proc_wait` while a child it asks for is a zombie, exactly
    if no process exits that has a zombie child for which init sleeps, unless init is its parent. -/
theorem wait_hears_iff (idle init : ProcPtr) (hne : idle ≠ init) (s₀ : ProcSys) (hboot : procBoot idle init = some s₀)
    (es : List WaitEvent) :
    Throughout WaitStep WaitSys.NoneMissed ⟨s₀, fun _ => .out⟩ es ↔
      EveryStep WaitStep (fun w e => e.Heard w) ⟨s₀, fun _ => .out⟩ es := by
  obtain ⟨s₁, L, hboot', hinv, -⟩ := procInv_procBoot hne
  obtain rfl : s₁ = s₀ := Option.some.inj (hboot'.symm.trans hboot)
  have hstart : WaitInv ⟨s₁, fun _ => .out⟩ L idle init := by
    refine ⟨hinv, fun p _ => ?_, fun p hp => absurd rfl hp⟩
    show (s₁.procs p).parent ≠ some p
    rw [procBoot_parent hboot]
    exact nofun
  have hnone : WaitSys.NoneMissed ⟨s₁, fun _ => .out⟩ := fun p target hp => absurd hp nofun
  have hstep : ∀ w e t, (∃ L, WaitInv w L idle init) → w.NoneMissed → WaitStep w e t →
      (∃ L', WaitInv t L' idle init) ∧ (t.NoneMissed ↔ e.Heard w) := by
    rintro w e t ⟨L, hw⟩ hP hs
    exact hw.step hP hs
  exact throughout_iff_everyStep hstep ⟨L, hstart⟩ hnone es

/-- The state after a list of events none of which faults. -/
def waitAfter (w : WaitSys) (es : List WaitEvent) : WaitSys := es.foldl (fun w e => (e.path w).getD w) w

theorem waitStep_after {w : WaitSys} {e : WaitEvent} (he : e.Enabled w) (hs : (e.path w).isSome) :
    WaitStep w e ((e.path w).getD w) := by
  obtain ⟨t, ht⟩ := Option.isSome_iff_exists.mp hs
  rw [ht]
  exact ⟨he, ht⟩

theorem waitStep_det {w t : WaitSys} {e : WaitEvent} (h : WaitStep w e t) : t = (e.path w).getD w := by
  rw [h.2, Option.getD_some]

/-- A child, as `fork` of the process makes it. -/
def forkAt (p c : ProcPtr) : WaitEvent := .call (.fork p ⟨some c, true, true, true⟩)

/-- The child of init exits, and init, asleep, hears it. -/
theorem wait_hears_child : ∃ s₀, procBoot 10 20 = some s₀ ∧
    Throughout WaitStep WaitSys.NoneMissed ⟨s₀, fun _ => .out⟩
      [forkAt 20 30, .call (.wait 20 (-1) false), .call (.exit 30 0), .again 20] := by
  obtain ⟨s₀, hboot⟩ := Option.isSome_iff_exists.mp (show (procBoot 10 20).isSome by decide +kernel)
  have hs₀ : s₀ = (procBoot 10 20).getD procInit := by rw [hboot]; rfl
  refine ⟨s₀, hboot, (wait_hears_iff 10 20 (by decide) s₀ hboot _).mpr ?_⟩
  refine .cons (fun t h => waitStep_det h) trivial (.cons (fun t h => waitStep_det h) trivial
    (.cons (fun t h => waitStep_det h) ?_ fun t _ => ⟨trivial, trivial⟩))
  -- init is the parent
  intro init target hinit _ hpar
  refine absurd ?_ hpar
  rw [← hinit]
  subst hs₀
  decide +kernel

/-- Init has a child, which has a child, which has a child. The last exits, and nobody waits for it. Init goes to sleep,
    and the parent of the zombie exits. -/
def orphanEvents : List WaitEvent :=
  [forkAt 20 30, forkAt 30 40, forkAt 40 50, .call (.exit 50 0), .call (.wait 20 (-1) false), .call (.exit 40 0)]

/-- **Init sleeps on a zombie** that it was handed in its sleep. -/
theorem wait_hears_orphan : ∃ s₀, procBoot 10 20 = some s₀ ∧
    ¬ Throughout WaitStep WaitSys.NoneMissed ⟨s₀, fun _ => .out⟩ orphanEvents := by
  obtain ⟨s₀, hboot⟩ := Option.isSome_iff_exists.mp (show (procBoot 10 20).isSome by decide +kernel)
  have hs₀ : s₀ = (procBoot 10 20).getD procInit := by rw [hboot]; rfl
  refine ⟨s₀, hboot, fun hall => ?_⟩
  have hrun : Run WaitStep ⟨s₀, fun _ => .out⟩ orphanEvents (waitAfter ⟨s₀, fun _ => .out⟩ orphanEvents) := by
    subst hs₀
    refine (((((Run.refl.tail (waitStep_after ?_ ?_)).tail (waitStep_after ?_ ?_)).tail (waitStep_after ?_ ?_)).tail
      (waitStep_after ?_ ?_)).tail (waitStep_after ?_ ?_)).tail (waitStep_after ?_ ?_)
    all_goals first
      | exact ⟨by decide +kernel, by decide +kernel⟩
      | decide +kernel
  have hnone : (waitAfter ⟨s₀, fun _ => .out⟩ orphanEvents).NoneMissed :=
    hall.at_end hrun
  have hasleep : (waitAfter ⟨s₀, fun _ => .out⟩ orphanEvents).inWait 20 = .asleep (-1) := by
    subst hs₀
    decide +kernel
  refine hnone 20 (-1) hasleep 50 ⟨2, ?_⟩ ⟨?_, ?_⟩
  all_goals
    subst hs₀
    decide +kernel

end MyUnix.Proc
