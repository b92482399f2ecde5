import MyUnix.Proc.WaitWake

/-!
# `Proc.WaitScan` — what `proc_wait` answers

One pass of the loop of `proc_wait` against its purpose: `-ECHILD` when no child is asked for, the pid and the status of
a zombie that is, 0 with `WNOHANG` when those that are asked for still run. The flag that decides on `-ECHILD` is set
before the children are matched, so it says that there are children, not that one is asked for.

The purpose is written with the lists of the invariant, `Lists.children` of the caller, and not with the walk along
the links. Where the caller has children and asks for none of them, the code answers as if it had to wait for one;
that is the only case in which answer and purpose differ, and the condition is read off the state before the call.
-/

namespace MyUnix.Proc

open Lib

namespace ProcSys

variable (s : ProcSys)

/-- The target asks for the child: for any, by pid, by the group of the caller, or by a group. -/
def AskedFor (proc : ProcPtr) (target : Int) (child : ProcPtr) : Prop :=
  target = -1 ∨ (0 < target ∧ ((s.procs child).pid : Int) = target) ∨
    (target = 0 ∧ (s.procs child).pgid = (s.procs proc).pgid) ∨
    (target < -1 ∧ ((s.procs child).pgid : Int) = -target)

/-- The tests of the scan let through those that are asked for. -/
theorem waitSkips_iff (proc : ProcPtr) (target : Int) (child : ProcPtr) :
    s.waitSkips proc child target = false ↔ s.AskedFor proc target child := by
  simp only [waitSkips, AskedFor, Bool.or_eq_false_iff, Bool.and_eq_false_iff, decide_eq_false_iff_not, Int.not_lt, not_not]
  omega

end ProcSys

/-- The children on a list that are asked for. -/
def SomeAsked (s : ProcSys) (proc : ProcPtr) (target : Int) (children : List TreeAddr) : Prop :=
  ∃ c, TreeAddr.sibling c ∈ children ∧ s.AskedFor proc target c

/-- Those of them that are zombies. -/
def SomeZombie (s : ProcSys) (proc : ProcPtr) (target : Int) (children : List TreeAddr) : Prop :=
  ∃ c, TreeAddr.sibling c ∈ children ∧ s.AskedFor proc target c ∧ (s.procs c).state = .zombie

/-- The answer `w` and the state `t` that a pass should come to, in terms of the lists `L` before it. -/
structure WaitExact (s t : ProcSys) (L : TreeAddr → List TreeAddr) (proc : ProcPtr) (target : Int) (wnohang : Bool)
    (w : ProcSys.Waited) : Prop where
  echild : w = .echild ↔ ¬SomeAsked s proc target (L (.children proc))
  reaped : SomeZombie s proc target (L (.children proc)) →
    ∃ c, TreeAddr.sibling c ∈ L (.children proc) ∧ s.AskedFor proc target c ∧ (s.procs c).state = .zombie ∧
      w = .reaped (s.procs c).pid (s.procs c).exitCode ∧ Lists t.mem TreeAddr.IsHead (TreeInv.reapLists L proc c)
  kept : ¬SomeZombie s proc target (L (.children proc)) → t = s
  nohang : wnohang = true →
    (w = .nohang ↔ SomeAsked s proc target (L (.children proc)) ∧ ¬SomeZombie s proc target (L (.children proc)))

namespace TreeInv

variable {s : ProcSys} {L : TreeAddr → List TreeAddr} {proc c : ProcPtr} {target : Int} {wnohang : Bool}

/-- Unlinking a child and destroying it take it off the two lists it is on. -/
theorem unlink (h : TreeInv s L) (hc : TreeAddr.sibling c ∈ L (.children proc)) :
    ∃ m₁ m₂, s.mem.del (.sibling c) = some m₁ ∧ m₁.del (.allList c) = some m₂ ∧
      Lists m₂ TreeAddr.IsHead (reapLists L proc c) := by
  obtain ⟨c', hc', hlive, -⟩ := h.child proc _ hc
  cases hc'
  obtain ⟨xs, ys, -, hL, herase⟩ := List.exists_erase_eq hc
  obtain ⟨m₁, hm₁, hl₁, -⟩ := h.lists.del (show TreeAddr.IsHead (.children proc) from trivial) hL
  rw [← herase] at hl₁
  have hall : Function.update L (.children proc) ((L (.children proc)).erase (.sibling c)) .allProcs = L .allProcs :=
    Function.update_of_ne (by simp) _ _
  obtain ⟨as, bs, -, hA, herase'⟩ := List.exists_erase_eq ((h.all _).mpr ⟨c, rfl, hlive⟩)
  obtain ⟨m₂, hm₂, hl₂, -⟩ := hl₁.del (show TreeAddr.IsHead .allProcs from trivial) (hall.trans hA)
  rw [← herase'] at hl₂
  exact ⟨m₁, m₂, hm₁, hm₂, hl₂⟩

/-- `proc_destroy` on the lists. -/
theorem procDestroy_mem {m : ListMem TreeAddr} (hm : s.mem.del (.allList c) = some m) :
    ∃ t, s.procDestroy c = some t ∧ t.mem = m := by
  refine ⟨_, by rw [ProcSys.procDestroy, ProcSys.withMem, hm]; rfl, ?_⟩
  unfold ProcSys.pidFree
  split <;> rfl

/-- **One pass of `proc_wait`** does not fault, and its answer is `-ECHILD` when there are no children, else the zombie
    that is asked for, if there is one. -/
theorem procWait_cases (h : TreeInv s L) (proc : ProcPtr) (target : Int) (wnohang : Bool) :
    ∃ w t, s.procWait proc target wnohang = some (w, t) ∧
      ((L (.children proc) = [] ∧ w = .echild ∧ t = s) ∨
       (L (.children proc) ≠ [] ∧ ¬SomeZombie s proc target (L (.children proc)) ∧
         w = (if wnohang then .nohang else .sleeps) ∧ t = s) ∨
       ∃ c, TreeAddr.sibling c ∈ L (.children proc) ∧ s.AskedFor proc target c ∧ (s.procs c).state = .zombie ∧
         w = .reaped (s.procs c).pid (s.procs c).exitCode ∧ Lists t.mem TreeAddr.IsHead (reapLists L proc c)) := by
  obtain ⟨found, has, hscan, hhas, hfound, hnone⟩ := h.waitScan proc target (L (.children proc)) [] (s.births + 1) false
    rfl (Nat.lt_succ_of_le (h.length_children_le proc))
  rw [← h.lists.next_head (show TreeAddr.IsHead (.children proc) from trivial)] at hscan
  rw [ProcSys.procWait, hscan]
  simp only [Option.bind_eq_bind, Option.bind_some]
  cases has with
  | false =>
    refine ⟨.echild, s, rfl, .inl ⟨?_, rfl, rfl⟩⟩
    by_contra hne
    have hfalse := hhas.mpr (.inr hne)
    cases hfalse
  | true =>
    have hne : L (.children proc) ≠ [] := (hhas.mp rfl).resolve_left Bool.false_ne_true
    cases found with
    | none =>
      refine ⟨_, s, rfl, .inr (.inl ⟨hne, ?_, rfl, rfl⟩)⟩
      rintro ⟨c, hc, hasked, hz⟩
      exact hnone rfl c hc ⟨(s.waitSkips_iff proc target c).mpr hasked, hz⟩
    | some c =>
      obtain ⟨hc, hskip, hz⟩ := hfound c rfl
      obtain ⟨m₁, m₂, hm₁, hm₂, hlists⟩ := h.unlink hc
      obtain ⟨t, ht, rfl⟩ := procDestroy_mem (s := { s with mem := m₁ }) hm₂
      refine ⟨.reaped (s.procs c).pid (s.procs c).exitCode, t, ?_,
        .inr (.inr ⟨c, hc, (s.waitSkips_iff proc target c).mp hskip, hz, rfl, hlists⟩)⟩
      simp only [Bool.not_true, ProcSys.withMem, hm₁, Option.map_some, Option.bind_some, ht]
      rfl

end TreeInv

/-- **What `proc_wait` answers** is exact if and only if the caller has no children, or one that is asked for. -/
theorem wait_scan_iff (s : ProcSys) (L : TreeAddr → List TreeAddr) (h : TreeInv s L) (proc : ProcPtr) (target : Int)
    (wnohang : Bool) : ∃ w t, s.procWait proc target wnohang = some (w, t) ∧
      (WaitExact s t L proc target wnohang w ↔
        L (.children proc) = [] ∨ SomeAsked s proc target (L (.children proc))) := by
  obtain ⟨w, t, hcode, hcases⟩ := h.procWait_cases proc target wnohang
  refine ⟨w, t, hcode, fun hexact => ?_, fun hcond => ?_⟩
  · by_contra hno
    rw [not_or] at hno
    -- there are children and the answer is not that there are none
    have hech := hexact.echild.mpr hno.2
    rcases hcases with ⟨hnil, -⟩ | ⟨-, -, rfl, -⟩ | ⟨c, hc, hasked, -⟩
    · exact hno.1 hnil
    · split at hech <;> cases hech
    · exact hno.2 ⟨c, hc, hasked⟩
  · rcases hcases with ⟨hnil, rfl, rfl⟩ | ⟨hne, hnone, rfl, rfl⟩ | ⟨c, hc, hasked, hz, rfl, hlists⟩
    · have hno : ¬SomeAsked t proc target (L (.children proc)) := by
        rw [hnil]
        rintro ⟨c, hc, -⟩
        cases hc
      exact {
        echild := iff_of_true rfl hno
        reaped := fun ⟨c, hc, hasked, _⟩ => absurd ⟨c, hc, hasked⟩ hno
        kept := fun _ => rfl
        nohang := fun _ => iff_of_false nofun fun hsome => hno hsome.1 }
    · have hsome := hcond.resolve_left hne
      exact {
        echild := iff_of_false (by split <;> exact nofun) fun hno => hno hsome
        reaped := fun hz => absurd hz hnone
        kept := fun _ => rfl
        nohang := fun hw => by
          rw [hw]
          exact iff_of_true rfl ⟨hsome, hnone⟩ }
    · have hsome : SomeAsked s proc target (L (.children proc)) := ⟨c, hc, hasked⟩
      have hzombie : SomeZombie s proc target (L (.children proc)) := ⟨c, hc, hasked, hz⟩
      exact {
        echild := iff_of_false nofun fun hno => hno hsome
        reaped := fun _ => ⟨c, hc, hasked, hz, rfl, hlists⟩
        kept := fun hno => absurd hzombie hno
        nohang := fun _ => iff_of_false nofun fun hno => hno.2 hzombie }

/-- Init after boot, with the child `30`. -/
def waitParent : ProcSys :=
  ((ProcEvent.fork 20 ⟨some 30, true, true, true⟩).path ((procBoot 10 20).getD procInit)).getD procInit

theorem waitParent_inv : ∃ L, ProcInv waitParent L 10 20 := by
  obtain ⟨s₀, L₀, hboot, hinv, -⟩ := procInv_procBoot (show (10 : ProcPtr) ≠ 20 by decide)
  have hs₀ : s₀ = (procBoot 10 20).getD procInit := by rw [hboot]; rfl
  have he : (ProcEvent.fork 20 ⟨some 30, true, true, true⟩).Enabled s₀ := by
    rw [hs₀]
    decide +kernel
  obtain ⟨t, L, hpath, hinv', -⟩ := hinv.fork he
  refine ⟨L, ?_⟩
  rwa [waitParent, ← hs₀, hpath, Option.getD_some]

/-- The child has exited with the code 7. -/
def waitZombie : ProcSys := ((ProcEvent.exit 30 7).path waitParent).getD procInit

/-- Init waits for any child, and reaps it. -/
theorem wait_scan_any : ∃ L t, waitZombie.procWait 20 (-1) true = some (.reaped 3 (7 * 256), t) ∧
    WaitExact waitZombie t L 20 (-1) true (.reaped 3 (7 * 256)) := by
  obtain ⟨L₀, hinv₀⟩ := waitParent_inv
  obtain ⟨s, L, hexit, hinv, -⟩ := hinv₀.exit 30 7
  have hs : waitZombie = s := by rw [waitZombie, hexit, Option.getD_some]
  rw [← hs] at hinv
  obtain ⟨w, t, hcode, hiff⟩ := wait_scan_iff waitZombie L hinv.tree 20 (-1) true
  have hanswer : (waitZombie.procWait 20 (-1) true).map Prod.fst = some (.reaped 3 (7 * 256)) := by decide +kernel
  rw [hcode, Option.map_some, Option.some.injEq] at hanswer
  dsimp only at hanswer
  subst hanswer
  refine ⟨L, t, hcode, hiff.mpr (.inr ⟨30, ?_, .inl rfl⟩)⟩
  exact hinv.tree.hasChild_iff.mp ⟨2, by decide +kernel⟩

/-- Init waits for pid 7 and has no such child: the answer is 0, or to sleep. -/
theorem wait_scan_other : ∃ L t, TreeInv waitParent L ∧ waitParent.procWait 20 7 true = some (.nohang, t) ∧
    ¬WaitExact waitParent t L 20 7 true .nohang := by
  obtain ⟨L, hinv⟩ := waitParent_inv
  have hanswer : (waitParent.procWait 20 7 true).map Prod.fst = some .nohang := by decide +kernel
  obtain ⟨⟨w, t⟩, hcode, rfl⟩ := Option.map_eq_some_iff.mp hanswer
  refine ⟨L, t, hinv.tree, hcode, fun hexact => ?_⟩
  obtain ⟨⟨c, hc, hasked⟩, -⟩ := (hexact.nohang rfl).mp rfl
  -- a child with pid 7 would be in slot 7 of the table
  have hpid : (waitParent.procs c).pid = 7 := by
    rw [ProcSys.AskedFor] at hasked
    omega
  obtain ⟨c', hc', hlive, -⟩ := hinv.tree.child 20 _ hc
  cases hc'
  have hinit : waitParent.initProc ≠ some c := by
    intro hi
    have hone := (hinv.pids.init c hi).1
    omega
  have hslot := (hinv.pids.own c hlive hinit).1
  rw [hpid] at hslot
  have hempty : waitParent.pidTable 7 = none := by decide +kernel
  rw [hempty] at hslot
  cases hslot

end MyUnix.Proc
