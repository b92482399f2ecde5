import MyUnix.Mm.FrameRuns
import MyUnix.Proc.Cwd
import MyUnix.Proc.FdRefs

/-!
# `Proc.Fork` — `proc_fork` with all that it takes

`proc_fork` takes a pid, an address space, a kernel stack, a descriptor table and a reference to the working directory,
in this order, and gives back what it has when the next thing cannot be had. `Proc.ProcTable` follows the process tree
through it and `Proc.Cwd` the working directories, with the answers of the allocators given. Here they come from the
frames and page tables, and only the heap's answers are given.

The pid, the lists and the references come back whenever `NULL` is returned. The frames do not: what `vmm_clone_space`
could not map, or has in no VMA, is not found by `vmm_destroy_space`, and what the heap took stays with the heap.

What is to be restored is written as one property of the states before and after (`Restored`), and `ForkKeeps` says
for each place at which the call can end what stays behind there, in terms of the plan of the copy (`Mm.Clone`) and of
the heap's answers. So the equivalence is proved stage by stage, from the back to the front: what `fail_stack` gives
back, then `fail_vm`, then `fail`.

The heap is an environment. It may answer any request with memory or without, and may take frames for itself each
time.
-/

namespace MyUnix.Proc

open Lib Mm Fs PageAlloc RunAlloc

/-- `KERNEL_STACK_SIZE / PAGE_SIZE`. -/
def kernelStackPages : Nat := 16 * 1024 / pageSize

/-- The address space and the descriptor table of each process, beside the process tree and the working directories. -/
structure ForkSys (σ : Type) extends CwdSys where
  vm         : Vm σ
  kernelPml4 : Nat
  space      : ProcPtr → Space
  fds        : FdSys
  fdTable    : ProcPtr → Nat

/-- What the heap answers: for the `process_t`, with the frames it takes for itself, the `vmm_space_t`, each `vma_t`,
    the `fd_table_t`, and the frames it takes for the wait queue. -/
structure ForkEnv where
  addr       : Option ProcPtr
  frames     : Nat
  space      : HeapAnswer
  vma        : Nat → HeapAnswer
  fds        : HeapAnswer
  waitFrames : Nat

variable {σ : Type} [RunAlloc σ]

namespace ForkSys

variable (s : ForkSys σ)

/-! ## The ways out

The three labels at the end of `proc_fork`, each of which goes on into the next one.
-/

/-- `fail`. -/
def fail (pid : Nat) : ForkSys σ := { s with procs := s.procs.pidFree pid }

/-- `fail_vm`. That `kfree` finds the headers of the blocks of the space is taken for granted here. -/
def failVm (space : Space) (pid : Nat) : Option (ForkSys σ) := do
  let (vm, _) ← s.vm.vmmDestroySpace space ⟨fun _ => true, true⟩
  pure (({ s with vm } : ForkSys σ).fail pid)

/-- `fail_stack`. -/
def failStack (stack : Nat) (space : Space) (pid : Nat) : Option (ForkSys σ) := do
  let vm ← s.vm.freeN stack kernelStackPages
  ({ s with vm } : ForkSys σ).failVm space pid

/-! ## The way through

The same function cut at the places where something can be missing.
-/

/-- From the working directory on. -/
def forkChild (parent c : ProcPtr) (pid : Nat) (space : Space) (table waitFrames : Nat) :
    Option (Option ProcPtr × ForkSys σ) := do
  let vfs ← CwdSys.getVnode s.vfs (s.cwd parent)
  let procs := s.procs.newProc c
    { pid, ppid := (s.procs.procs parent).pid, pgid := (s.procs.procs parent).pgid, parent := some parent,
      state := .created, exitCode := 0, serial := 0, forked := true }
  let procs ← procs.withMem (procs.mem.addTail (.sibling c) (.children parent))
  let procs ← procs.install c
  pure (some c, { s with
    toCwdSys := ({ s.toCwdSys with vfs, procs } : CwdSys).setCwd c (s.cwd parent) (s.cwdPath parent)
    vm := s.vm.heapTake waitFrames
    space := Function.update s.space c space
    fdTable := Function.update s.fdTable c table })

/-- From `fd_table_clone` on. -/
def forkTable (parent c : ProcPtr) (pid : Nat) (space : Space) (stack : Nat) (env : ForkEnv) :
    Option (Option ProcPtr × ForkSys σ) :=
  let table := s.fds.ntables
  let s := { s with vm := s.vm.heapTake env.fds.frames, fds := s.fds.fdTableClone (s.fdTable parent) env.fds.ok }
  if !env.fds.ok then (s.failStack stack space pid).map (none, ·)
  else s.forkChild parent c pid space table env.waitFrames

/-- From `pmm_alloc_n` on. -/
def forkStack (parent c : ProcPtr) (pid : Nat) (space : Space) (env : ForkEnv) :
    Option (Option ProcPtr × ForkSys σ) :=
  let (stack, vm) := s.vm.allocN kernelStackPages
  let s := { s with vm }
  if stack = 0 then (s.failVm space pid).map (none, ·) else s.forkTable parent c pid space stack env

/-- From `vmm_clone_space` on. -/
def forkSpace (parent c : ProcPtr) (pid : Nat) (env : ForkEnv) : Option (Option ProcPtr × ForkSys σ) :=
  let (space, vm) := s.vm.vmmCloneSpace s.kernelPml4 (s.space parent) env.space env.vma
  let s := { s with vm }
  match space with
  | none       => some (none, s.fail pid)
  | some space => s.forkStack parent c pid space env

/-- `proc_fork`. -/
def procFork (parent : ProcPtr) (env : ForkEnv) : Option (Option ProcPtr × ForkSys σ) :=
  let s := { s with vm := s.vm.heapTake env.frames }
  match env.addr with
  | none => some (none, s)
  | some c => do
    let (pid, procs) ← s.procs.pidAlloc
    let s := { s with procs }
    match pid with
    | none     => pure (none, s)
    | some pid => s.forkSpace parent c pid env

end ForkSys

/-! ## What is as before

Frames, pids, lists and references, as they can be seen by others.
-/

/-- The frames that are free, the pid table, the process list and the lists of children, and the reference counts. -/
structure Restored (s t : ForkSys σ) : Prop where
  frames : ∀ f, Free t.vm.pmm f ↔ Free s.vm.pmm f
  pids : t.procs.pidTable = s.procs.pidTable
  lists : t.procs.mem = s.procs.mem
  files : t.fds.refs = s.fds.refs
  vnodes : t.vfs.refs = s.vfs.refs

/-- All of this but the frames. -/
structure KeepsTree (s t : ForkSys σ) : Prop where
  pids : t.procs.pidTable = s.procs.pidTable
  lists : t.procs.mem = s.procs.mem
  fds : t.fds = s.fds
  vfs : t.vfs = s.vfs

theorem KeepsTree.restored_iff {s t : ForkSys σ} (h : KeepsTree s t) :
    Restored s t ↔ (∀ f, Free t.vm.pmm f → Free s.vm.pmm f) ∧ ∀ f, Free s.vm.pmm f → Free t.vm.pmm f := by
  constructor
  · intro hr
    exact ⟨fun f => (hr.frames f).1, fun f => (hr.frames f).2⟩
  · rintro ⟨hsub, hback⟩
    exact ⟨fun f => ⟨hsub f, hback f⟩, h.pids, h.lists, by rw [h.fds], by rw [h.vfs]⟩

/-! ## Where it ends

The condition, with the state before the call.
-/

/-- The first thing that cannot be had; the loop of `pid_alloc` may also not end. -/
inductive ForkEnd where
  | noProc
  | hangs
  | noSpace
  | noStack
  | noTable
  | child

namespace ForkSys

variable (s : ForkSys σ) (parent : ProcPtr) (env : ForkEnv)

/-- After the heap took its frames for the `process_t` and the `vmm_space_t`. -/
def forkVm : Vm σ := (s.vm.heapTake env.frames).heapTake env.space.frames

/-- What the copy of the address space comes to. -/
noncomputable def forkPlan : CopyPlan := clonePlan (s.forkVm env) (s.space parent) env.vma

/-- What `pmm_alloc_n` answers after it. -/
noncomputable def forkRun : Nat × σ :=
  pmmAllocN (takeFrames (s.forkPlan parent env).used (s.forkVm env).pmm) kernelStackPages

/-- How far `proc_fork` gets. -/
noncomputable def forkEnd : ForkEnd :=
  if env.addr = none ∨ s.procs.pidAlloc.map Prod.fst = some none then .noProc
  else if s.procs.pidAlloc.isNone then .hangs
  else if env.space.ok = false ∨ freeCount (s.forkVm env).pmm = 0 then .noSpace
  else if freeCount (s.forkVm env).pmm ≤ (s.forkPlan parent env).used ∨ (s.forkRun parent env).1 = 0 then .noStack
  else if env.fds.ok = false then .noTable
  else .child

/-- The heap takes no frames for the `process_t` and the `vmm_space_t`. -/
def SparesBoth : Prop := Spares env.frames s.vm.pmm ∧ Spares env.space.frames (s.vm.heapTake env.frames).pmm

/-- Nothing stays behind when `NULL` is returned: the heap takes no frame, and what was copied is found again. -/
def ForkKeeps : Prop :=
  let kept := keptVmas env.vma (s.space parent).vmas
  match s.forkEnd parent env with
  | .noProc  => Spares env.frames s.vm.pmm
  | .noSpace => s.SparesBoth env
  | .noStack => s.SparesBoth env ∧ (s.forkPlan parent env).Covered kept
  | .noTable =>
    s.SparesBoth env ∧ (s.forkPlan parent env).Covered kept ∧ Spares env.fds.frames (s.forkRun parent env).2
  | .hangs   => True
  | .child   => True

end ForkSys

/-! ## The process tree

The tree and the working directories do not see where the frames come from.
-/

namespace ForkSys

variable {s t : ForkSys σ} {parent c : ProcPtr} {pid : Nat} {env : ForkEnv} {r : Option ProcPtr}

theorem failVm_cwd {space : Space} (h : s.failVm space pid = some t) : t.toCwdSys = (s.fail pid).toCwdSys := by
  obtain ⟨out, -, h⟩ := Option.bind_eq_some_iff.1 h
  cases h
  rfl

theorem failStack_cwd {stack : Nat} {space : Space} (h : s.failStack stack space pid = some t) :
    t.toCwdSys = (s.fail pid).toCwdSys := by
  obtain ⟨vm, -, h⟩ := Option.bind_eq_some_iff.1 h
  exact (failVm_cwd h :)

/-- On the way to the child nothing happens to the tree. -/
theorem forkSpace_cwd (h : s.forkSpace parent c pid env = some (r, t)) :
    (r = none ∧ t.toCwdSys = (s.fail pid).toCwdSys) ∨
    ∃ (s' : ForkSys σ) (space : Space) (table : Nat), s'.toCwdSys = s.toCwdSys ∧
      s'.forkChild parent c pid space table env.waitFrames = some (r, t) := by
  rw [forkSpace] at h
  simp only at h
  split at h
  · cases h
    exact .inl ⟨rfl, rfl⟩
  · rw [forkStack] at h
    simp only at h
    split at h
    · obtain ⟨t', hfail, h⟩ := Option.map_eq_some_iff.1 h
      cases h
      exact .inl ⟨rfl, (failVm_cwd hfail :)⟩
    · rw [forkTable] at h
      simp only at h
      split at h
      · obtain ⟨t', hfail, h⟩ := Option.map_eq_some_iff.1 h
        cases h
        exact .inl ⟨rfl, (failStack_cwd hfail :)⟩
      · refine .inr ⟨_, _, _, ?_, h⟩
        rfl

/-- **The tree, and the working directories**, see what they see with the answers of the allocators given. -/
theorem procFork_cwd (h : s.procFork parent env = some (r, t)) : ∃ e : MakeEnv, e.addr = env.addr ∧
    s.procs.procFork parent e = some (r, t.procs) ∧ s.toCwdSys.procFork parent e = some t.toCwdSys := by
  rw [procFork] at h
  -- the answers that `proc_fork` of the tree is given: which of the four requests were met
  cases haddr : env.addr with
  | none =>
    rw [haddr] at h
    cases h
    exact ⟨⟨none, false, false, false⟩, rfl, rfl, rfl⟩
  | some c =>
    rw [haddr] at h
    obtain ⟨⟨pid, procs⟩, hpid, h⟩ := Option.bind_eq_some_iff.1 h
    cases pid with
    | none =>
      cases h
      have hproc : s.procs.procFork parent ⟨some c, false, false, false⟩ = some (none, procs) := by
        simp only [ProcSys.procFork, show s.procs.pidAlloc = some (none, procs) from hpid]
        rfl
      refine ⟨⟨some c, false, false, false⟩, rfl, hproc, ?_⟩
      rw [CwdSys.procFork, hproc]
      rfl
    | some pid =>
      rcases forkSpace_cwd h with ⟨rfl, ht⟩ | ⟨s', space, table, hs', h⟩
      · have hproc : s.procs.procFork parent ⟨some c, false, false, false⟩ = some (none, procs.pidFree pid) := by
          simp only [ProcSys.procFork, show s.procs.pidAlloc = some (some pid, procs) from hpid]
          rfl
        refine ⟨⟨some c, false, false, false⟩, rfl, ?_, ?_⟩
        · rw [hproc, ht]
          rfl
        · rw [CwdSys.procFork, hproc, ht]
          rfl
      · obtain ⟨vfs, hget, h⟩ := Option.bind_eq_some_iff.1 h
        obtain ⟨procs₁, hadd, h⟩ := Option.bind_eq_some_iff.1 h
        obtain ⟨procs₂, hinstall, h⟩ := Option.bind_eq_some_iff.1 h
        cases h
        rw [hs'] at hget hadd
        have hproc : s.procs.procFork parent ⟨some c, true, true, true⟩ = some (some c, procs₂) := by
          simp only [ProcSys.procFork, show s.procs.pidAlloc = some (some pid, procs) from hpid, bind, Option.bind]
          simp only at hadd
          rw [if_neg (by decide), hadd]
          simp only [hinstall]
          rfl
        refine ⟨⟨some c, true, true, true⟩, rfl, hproc, ?_⟩
        rw [CwdSys.procFork, hproc]
        simp only at hget
        simp only [bind, Option.bind, hget, hs']
        rfl

end ForkSys

/-! ## Stage by stage

A stage that fails gives back what was taken up to there, by the lemma of the stage before.
-/

namespace ForkSys

variable {s t : ForkSys σ} {parent c : ProcPtr} {pid : Nat} {env : ForkEnv}

/-- A process that is made is returned. -/
theorem forkChild_ne {space : Space} {table waitFrames : Nat} :
    s.forkChild parent c pid space table waitFrames ≠ some (none, t) := by
  intro h
  rw [forkChild] at h
  obtain ⟨vfs, -, h⟩ := Option.bind_eq_some_iff.1 h
  obtain ⟨procs, -, h⟩ := Option.bind_eq_some_iff.1 h
  obtain ⟨procs, -, h⟩ := Option.bind_eq_some_iff.1 h
  cases h

section

variable {vm₀ vm : Vm σ} {L : Nat → Prop} {src dst : Nat} {plan : CopyPlan} {vmas : List Vma} {P : Prop}

/-- **`fail_vm`**, with the copy in `vm` and what was taken since given back. -/
theorem failVm_spec (h : Copying vm₀ vm s.kernelPml4 L src dst plan)
    (hu : Undisturbed vm s.vm s.kernelPml4 fun p => L p ∨ p = dst) (hback : GivesBack vm.pmm s.vm.pmm P)
    (hvmas : ∀ v ∈ vmas, UserVma v) :
    ∃ vm', s.failVm ⟨dst, 1, vmas⟩ pid = some (({ s with vm := vm' } : ForkSys σ).fail pid) ∧
      GivesBack vm₀.pmm vm'.pmm (plan.Covered vmas ∧ P) := by
  obtain ⟨vm', calls, hrun, hd⟩ :=
    @destroyFrames_spec σ _ s.vm ⟨dst, 1, vmas⟩ (fun _ => true) ((hu.apart h.apart).space (.inr rfl)) hvmas fun _ _ => rfl
  refine ⟨vm', ?_, cloned_destroyed h hu hback hd⟩
  rw [failVm, vmmDestroySpace_last rfl, hrun]
  rfl

/-- Whether there is a run of frames after the copy. -/
theorem allocN_copied (h : Copying vm₀ vm s.kernelPml4 L src dst plan) :
    ((vm.allocN kernelStackPages).1 = 0 ↔
      freeCount vm₀.pmm ≤ plan.used ∨ (pmmAllocN (takeFrames plan.used vm₀.pmm) kernelStackPages).1 = 0) ∧
    ((vm.allocN kernelStackPages).1 ≠ 0 →
      (vm.allocN kernelStackPages).2.pmm = (pmmAllocN (takeFrames plan.used vm₀.pmm) kernelStackPages).2) := by
  have hleft := h.left
  by_cases hlt : plan.used < freeCount vm₀.pmm
  · rw [← h.state hlt]
    exact ⟨(or_iff_right (by omega)).symm, fun _ => rfl⟩
  · have hzero : (vm.allocN kernelStackPages).1 = 0 := by
      by_contra h0
      have hcount : freeCount vm.pmm = 0 := by omega
      exact freeCount_zero.1 hcount _ ((allocN_some h0).1 0 (by decide))
    exact ⟨iff_of_true hzero (.inl (by omega)), fun h0 => absurd hzero h0⟩

/-- **From the kernel stack on**, with the copy made. -/
theorem forkStack_spec (h : Copying vm₀ s.vm s.kernelPml4 L src dst plan) (hvmas : ∀ v ∈ vmas, UserVma v)
    {run : Nat × σ} (hrun : pmmAllocN (takeFrames plan.used vm₀.pmm) kernelStackPages = run) :
    ((freeCount vm₀.pmm ≤ plan.used ∨ run.1 = 0) ∧ ∃ vm', s.forkStack parent c pid ⟨dst, 1, vmas⟩ env =
      some (none, ({ s with vm := vm' } : ForkSys σ).fail pid) ∧ GivesBack vm₀.pmm vm'.pmm (plan.Covered vmas)) ∨
    (¬(freeCount vm₀.pmm ≤ plan.used ∨ run.1 = 0) ∧ env.fds.ok = false ∧ ∃ vm',
      s.forkStack parent c pid ⟨dst, 1, vmas⟩ env = some (none, ({ s with vm := vm' } : ForkSys σ).fail pid) ∧
      GivesBack vm₀.pmm vm'.pmm (plan.Covered vmas ∧ Spares env.fds.frames run.2)) ∨
    (¬(freeCount vm₀.pmm ≤ plan.used ∨ run.1 = 0) ∧ env.fds.ok = true ∧
      ∀ t, s.forkStack parent c pid ⟨dst, 1, vmas⟩ env ≠ some (none, t)) := by
  obtain ⟨hzero, hpmm⟩ := allocN_copied h
  rw [hrun] at hzero hpmm
  rw [forkStack]
  simp only
  by_cases h0 : (s.vm.allocN kernelStackPages).1 = 0
  · rw [if_pos h0]
    obtain ⟨hu, hback⟩ := @allocN_zero σ _ s.vm s.kernelPml4 kernelStackPages (fun p => L p ∨ p = dst) h0
    obtain ⟨vm', hfail, hgives⟩ := @failVm_spec σ _ { s with vm := (s.vm.allocN kernelStackPages).2 } pid _ _ _ _ _ _ _ _ h
      hu hback hvmas
    rw [hfail]
    rw [and_true] at hgives
    exact .inl ⟨hzero.1 h0, vm', rfl, hgives⟩
  · rw [if_neg h0, forkTable]
    simp only
    have hsome := mt hzero.2 h0
    cases hok : env.fds.ok with
    | true =>
      refine .inr (.inr ⟨hsome, rfl, fun t => ?_⟩)
      rw [if_neg (by decide)]
      exact forkChild_ne
    | false =>
      obtain ⟨vm₅, hfree, hu, hback⟩ := run_returned h.apart h0 env.fds.frames
      obtain ⟨vm', hfail, hgives⟩ := @failVm_spec σ _ { s with vm := vm₅ } pid _ _ _ _ _ _ _ _ h hu hback hvmas
      rw [hpmm h0] at hgives
      refine .inr (.inl ⟨hsome, rfl, vm', ?_, hgives⟩)
      rw [if_pos (by decide), failStack]
      simp only [hfree]
      exact congrArg (Option.map (none, ·)) hfail

end

end ForkSys

/-! ## The whole call

From the first `kzalloc` on, in any state in which the address spaces can be.
-/

/-- The slot that `pid_alloc` returns is empty. -/
theorem pidSearch_empty (table : Nat → Option ProcPtr) (start : Nat) : ∀ (fuel next : Nat) {pid n : Nat},
    ProcSys.pidSearch table start fuel next = some (some pid, n) → table pid = none := by
  intro fuel
  induction fuel with
  | zero => exact fun next pid n h => nomatch h
  | succ fuel ih =>
    intro next pid n h
    rw [ProcSys.pidSearch] at h
    generalize (if pidMax ≤ next then 2 else next) = k at h
    split at h
    next hk =>
      cases h
      exact hk
    next =>
      split at h
      · cases h
      · exact ih (k + 1) h

theorem ProcSys.pidAlloc_eq {s t : ProcSys} {r : Option Nat} (h : s.pidAlloc = some (r, t)) :
    (∃ n, t = { s with nextPid := n }) ∧ ∀ pid, r = some pid → s.pidTable pid = none := by
  obtain ⟨⟨r', n⟩, hsearch, h⟩ := Option.bind_eq_some_iff.1 h
  cases h
  refine ⟨⟨n, rfl⟩, ?_⟩
  rintro pid rfl
  exact pidSearch_empty _ _ _ _ hsearch

namespace ForkSys

variable {s : ForkSys σ} {parent : ProcPtr} {env : ForkEnv} {L : Nat → Prop}

omit [RunAlloc σ] in
/-- What `fail` leaves of a pid that was empty. -/
theorem keepsTree_fail {procs : ProcSys} {pid : Nat} (h : s.procs.pidAlloc = some (some pid, procs)) (vm : Vm σ) :
    KeepsTree s (({ s with vm, procs } : ForkSys σ).fail pid) := by
  obtain ⟨⟨n, rfl⟩, hempty⟩ := ProcSys.pidAlloc_eq h
  rw [fail, ProcSys.pidFree]
  split
  · exact ⟨rfl, rfl, rfl, rfl⟩
  · refine ⟨?_, rfl, rfl, rfl⟩
    show Function.update s.procs.pidTable pid none = s.procs.pidTable
    rw [← hempty pid rfl]
    exact Function.update_eq_self pid _

/-- **`proc_fork`** returns `NULL` and gives back what `ForkKeeps` says, or does not return it. -/
theorem procFork_spec (a : Apart s.vm s.kernelPml4 L) (hsrc : L (s.space parent).pml4)
    (hvmas : ∀ v ∈ (s.space parent).vmas, CreatedVma v) :
    (∃ t, s.procFork parent env = some (none, t) ∧ KeepsTree s t ∧
      GivesBack s.vm.pmm t.vm.pmm (s.ForkKeeps parent env)) ∨
    (s.ForkKeeps parent env ∧ ∀ t, s.procFork parent env ≠ some (none, t)) := by
  have hheap := heapTake_givesBack a env.frames
  have a₁ := (heapTake_undisturbed env.frames a).apart a
  rw [procFork, ForkKeeps, forkEnd]
  -- it ends where the first thing is missing: the `process_t`, a pid, the copy, or what comes behind it
  cases haddr : env.addr with
  | none =>
    rw [if_pos (.inl rfl)]
    exact .inl ⟨_, rfl, ⟨rfl, rfl, rfl, rfl⟩, hheap⟩
  | some c =>
    rcases hpid : s.procs.pidAlloc with _ | ⟨_ | pid, procs⟩
    · rw [if_neg (by simp), if_pos (by simp)]
      refine .inr ⟨trivial, fun t h => ?_⟩
      simp only at h
      cases h
    · rw [if_pos (by simp)]
      obtain ⟨⟨n, rfl⟩, -⟩ := ProcSys.pidAlloc_eq hpid
      refine .inl ⟨{ s with vm := s.vm.heapTake env.frames, procs := { s.procs with nextPid := n } }, ?_,
        ⟨rfl, rfl, rfl, rfl⟩, hheap⟩
      simp only
      rfl
    · rw [if_neg (by simp), if_neg (by simp)]
      simp only
      have hspace := heapTake_givesBack a₁ env.space.frames
      have hboth := hheap.trans hspace
      have hkeeps := @keepsTree_fail σ s procs pid hpid
      show (∃ t, ForkSys.forkSpace { s with vm := s.vm.heapTake env.frames, procs } parent c pid env = some (none, t) ∧ _) ∨
        (_ ∧ ∀ t, ForkSys.forkSpace { s with vm := s.vm.heapTake env.frames, procs } parent c pid env ≠ some (none, t))
      rw [forkSpace]
      simp only
      rcases @vmmCloneSpace_spec σ _ _ _ L _ env.space env.vma a₁ hsrc hvmas (s.forkVm env) rfl with
        ⟨hno, vm', hclone, hback⟩ | ⟨hok, hcount, dst, vm', hclone, hcopy⟩
      · rw [if_pos hno]
        simp only [hclone]
        have hall := hboth.trans hback
        rw [and_true] at hall
        exact .inl ⟨_, rfl, hkeeps vm', hall⟩
      · rw [if_neg (by simp [hok, hcount])]
        simp only [hclone]
        have hplan : Copying (s.forkVm env) vm' s.kernelPml4 L (s.space parent).pml4 dst (s.forkPlan parent env) := hcopy
        have hkept : ∀ v ∈ keptVmas env.vma (s.space parent).vmas, UserVma v :=
          fun v hv => (hvmas v (keptVmas_subset hv)).spec.1
        rcases @forkStack_spec σ _ { s with vm := vm', procs } parent c pid env _ _ _ _ _ _ hplan hkept
          (s.forkRun parent env) rfl with ⟨hno, vm'', hfork, hback⟩ | ⟨hrun, hfds, vm'', hfork, hback⟩ | ⟨hrun, hfds, hne⟩
        · rw [if_pos hno]
          exact .inl ⟨_, hfork, hkeeps vm'', hboth.trans hback⟩
        · rw [if_neg hrun, if_pos hfds]
          exact .inl ⟨_, hfork, hkeeps vm'', hboth.trans hback⟩
        · rw [if_neg hrun, if_neg (by simp [hfds])]
          exact .inr ⟨trivial, hne⟩

end ForkSys

/-- **`proc_fork`**, in any state of the address spaces that is reached, leaves all as it was when it returns `NULL`
    exactly when the heap took no frames and the copy is found again. -/
theorem fork_restores_iff (s : ForkSys σ) (parent : ProcPtr) (env : ForkEnv) (spaces : List Space)
    (hreach : SpacesReach s.kernelPml4 ⟨s.vm, spaces⟩) (hparent : s.space parent ∈ spaces) :
    (∀ t, s.procFork parent env = some (none, t) → Restored s t) ↔ s.ForkKeeps parent env := by
  have a : Apart s.vm s.kernelPml4 (Spaces.Live ⟨s.vm, spaces⟩) := (SpacesInv.reach hreach).apart
  rcases @ForkSys.procFork_spec σ _ s parent env _ a ⟨_, hparent, rfl⟩ fun v hv => hreach.created hparent hv with
    ⟨t, hfork, hkeeps, hback⟩ | ⟨hkeeps, hne⟩
  · have hiff : Restored s t ↔ s.ForkKeeps parent env := by
      rw [hkeeps.restored_iff, hback.2]
      exact and_iff_right hback.1
    rw [← hiff]
    constructor
    · exact fun hall => hall t hfork
    · intro hr t' hfork'
      cases hfork.symm.trans hfork'
      exact hr
  · exact iff_of_true (fun t hfork => absurd hfork (hne t)) hkeeps

/-! ## A parent with one page

The descriptor table cannot be had, and neither could the VMA; the frame of the page stays in use.
-/

/-- A space at `0x2000` in which `0x400000` is mapped. -/
def onePageSpaceVm : Vm SoundPmm :=
  ((clearedVm.vmmCreateSpace 0x1000 true).2.alloc.2.vmmMap 0x2000 0x400000
    (clearedVm.vmmCreateSpace 0x1000 true).2.alloc.1 vmmUserRw).2

/-- A space with one VMA of one page. -/
def onePageSpace : Space := ⟨0x2000, 1, [vmmCreateVma 0x400000 0x1000 3 2]⟩

theorem onePageSpace_reach : SpacesReach 0x1000 ⟨onePageSpaceVm, [onePageSpace]⟩ := by
  have hroot : (clearedVm.vmmCreateSpace 0x1000 true).1 = 0x2000 := by decide +kernel
  have hframe : (clearedVm.vmmCreateSpace 0x1000 true).2.alloc.1 ≠ 0 := by decide +kernel
  have r₀ : SpacesReach 0x1000 ⟨clearedVm, []⟩ := .init ⟨by decide, clearedVm_tree.apart⟩
  have r₁ := r₀.step (.create true)
  rw [hroot, if_neg (by decide), List.nil_append] at r₁
  rw [onePageSpaceVm]
  generalize (clearedVm.vmmCreateSpace 0x1000 true).2 = vm at *
  have hva : 0x400000 < vmmUserEnd := by decide
  have r₂ := (r₁.step .alloc).step (@SpaceStep.map _ _ 0x1000 ⟨vm.alloc.2, [⟨0x2000, 1, []⟩]⟩ ⟨0x2000, 1, []⟩ 0x400000
    vm.alloc.1 vmmUserRw List.mem_cons_self hva ((SpacesInv.reach r₁).loose hframe) (by decide) (by decide))
  have hend : 0x400000 + 0x1000 ≤ vmmUserEnd := by decide
  have r₃ := r₂.step (@SpaceStep.createVma _ _ _ _ [] _ [] 0x400000 0x1000 3 2 rfl hend)
  exact r₃

/-- Two frames are free in it. -/
theorem onePageSpaceVm_room : 2 ≤ freeCount onePageSpaceVm.pmm := by
  have hroom : Room 7 clearedVm.pmm := by
    refine ⟨(List.range 7).map fun i => (i + 2) * pageSize, by decide, by decide, fun f hf => ?_⟩
    show f % pageSize = 0 ∧ f / pageSize < 64 ∧ clearedVm.pmm.1.bitmapTest (f / pageSize) = false
    revert f
    decide
  have hne : (clearedVm.vmmCreateSpace 0x1000 true).1 ≠ 0 := by decide +kernel
  have hspace : Room 6 (clearedVm.vmmCreateSpace 0x1000 true).2.pmm := by
    rw [(vmmCreateSpace_eq hne).2]
    exact (Room.alloc hroom).2
  rw [onePageSpaceVm]
  generalize (clearedVm.vmmCreateSpace 0x1000 true).2 = vm at *
  have hframe : Room 5 vm.alloc.2.pmm := hspace.alloc.2
  exact (Room.vmmMap (n := 2) hframe 0x2000 0x400000 vm.alloc.1 vmmUserRw).le_freeCount

/-- Init, in a space with one page. -/
def initForks (vm : Vm SoundPmm) : ForkSys SoundPmm where
  toCwdSys := initInRoot
  vm := vm
  kernelPml4 := 0x1000
  space _ := onePageSpace
  fds := fdInit
  fdTable _ := 0

/-- There is no memory for the `vma_t`, nor for the descriptor table. No frame goes to the heap. -/
def vmaDenied : ForkEnv := ⟨some 30, 0, ⟨true, 0⟩, fun _ => ⟨false, 0⟩, ⟨false, 0⟩, 0⟩

theorem fork_restores_iff_small : (∀ t, (initForks onePageSpaceVm).procFork 20 vmaDenied = some (none, t) →
    Restored (initForks onePageSpaceVm) t) ↔ (initForks onePageSpaceVm).ForkKeeps 20 vmaDenied := by
  have hreach := onePageSpace_reach
  generalize onePageSpaceVm = vm at *
  exact fork_restores_iff (initForks vm) 20 vmaDenied [onePageSpace] hreach List.mem_cons_self

section

variable {vm : Vm SoundPmm}

/-- The page was copied, or its frame was lost; in neither case is there a VMA for it. -/
theorem vmaDenied_uncovered (hroom : 2 ≤ freeCount vm.pmm)
    (hmapped : (vmmCreateVma 0x400000 0x1000 3 2).mapped vm.mem 0x2000 = [0x400]) :
    ¬((initForks vm).forkPlan 20 vmaDenied).Covered (keptVmas vmaDenied.vma onePageSpace.vmas) := by
  have hplan : (initForks vm).forkPlan 20 vmaDenied = CopyPlan.step (freeCount vm.pmm) ⟨1, [], [], false⟩ 0x400 := by
    show List.foldl (CopyPlan.step _) _ ((vmmCreateVma 0x400000 0x1000 3 2).mapped vm.mem 0x2000) = _
    rw [hmapped]
    rfl
  rw [hplan, CopyPlan.step_eq (show 1 < freeCount vm.pmm by omega)]
  rintro ⟨hlost, hcover⟩
  split at hlost
  next => cases hlost
  next hfew =>
    rw [if_neg hfew] at hcover
    obtain ⟨v, hv, -⟩ := hcover 0x400 List.mem_cons_self
    cases hv

/-- Where the table cannot be had, and what was copied is not found again. -/
theorem vmaDenied_keeps (hroom : 2 ≤ freeCount vm.pmm)
    (hmapped : (vmmCreateVma 0x400000 0x1000 3 2).mapped vm.mem 0x2000 = [0x400]) :
    ¬(initForks vm).ForkKeeps 20 vmaDenied := by
  have hlost := vmaDenied_uncovered hroom hmapped
  have hpid : (initForks vm).procs.pidAlloc.map Prod.fst = some (some 3) := by
    show initInRoot.procs.pidAlloc.map Prod.fst = some (some 3)
    decide +kernel
  have hsome : ¬(initForks vm).procs.pidAlloc.isNone = true := by
    intro hnone
    rw [Option.isNone_iff_eq_none.1 hnone] at hpid
    cases hpid
  have hspace : ¬(vmaDenied.space.ok = false ∨ freeCount ((initForks vm).forkVm vmaDenied).pmm = 0) := by
    rintro (hok | hcount)
    · cases hok
    · have hsame : (initForks vm).forkVm vmaDenied = vm := rfl
      rw [hsame] at hcount
      omega
  rw [ForkSys.ForkKeeps, ForkSys.forkEnd, if_neg (by rw [hpid]; decide), if_neg hsome, if_neg hspace]
  by_cases hrun : freeCount ((initForks vm).forkVm vmaDenied).pmm ≤ ((initForks vm).forkPlan 20 vmaDenied).used ∨
      ((initForks vm).forkRun 20 vmaDenied).1 = 0
  · rw [if_pos hrun]
    exact fun h => hlost h.2
  · rw [if_neg hrun, if_pos (show vmaDenied.fds.ok = false from rfl)]
    exact fun h => hlost h.2.1

end

/-- **The frame of a page that was copied is gone** when the descriptor table cannot be had. -/
theorem fork_loses_page : SpacesReach (initForks onePageSpaceVm).kernelPml4 ⟨onePageSpaceVm, [onePageSpace]⟩ ∧
    ∃ t, (initForks onePageSpaceVm).procFork 20 vmaDenied = some (none, t) ∧
      ∃ f, Free onePageSpaceVm.pmm f ∧ ¬Free t.vm.pmm f := by
  have hmapped : (vmmCreateVma 0x400000 0x1000 3 2).mapped onePageSpaceVm.mem 0x2000 = [0x400] := by decide +kernel
  have hroom := onePageSpaceVm_room
  have hreach := onePageSpace_reach
  generalize onePageSpaceVm = vm at *
  have hkeeps := vmaDenied_keeps hroom hmapped
  have a : Apart vm 0x1000 (Spaces.Live ⟨vm, [onePageSpace]⟩) := (SpacesInv.reach hreach).apart
  refine ⟨hreach, ?_⟩
  rcases @ForkSys.procFork_spec SoundPmm _ (initForks vm) 20 vmaDenied _ a ⟨onePageSpace, List.mem_cons_self, rfl⟩
    fun v hv => hreach.created List.mem_cons_self hv with ⟨t, hfork, -, hback⟩ | ⟨hkeeps', -⟩
  · refine ⟨t, hfork, ?_⟩
    by_contra hnone
    refine hkeeps (hback.2.1 fun f hf => ?_)
    by_contra hgone
    exact hnone ⟨f, hf, hgone⟩
  · exact absurd hkeeps' hkeeps

end MyUnix.Proc
