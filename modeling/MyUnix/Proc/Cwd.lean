import Mathlib.Data.Set.Card
import MyUnix.Fs.VfsOpen
import MyUnix.Proc.ProcTable

/-!
# `Proc.Cwd` — working directories and their references

`proc_create`, `proc_fork`, `sys_chdir`, `proc_exit` and `proc_wait` on the working directories of processes: the vnode
`cwd` of each, its `cwd_path`, and the reference counts of the vnodes. What the descriptor tables refer to is left out
here (`Proc.FdRefs`), and with them the references of open files.

A reference is counted for a working directory when its count changes by as much as the number of processes that are
in it. `proc_fork` and `sys_chdir` keep this account. `proc_create` hands the root out without a reference, and
`proc_destroy` drops a process without giving its reference back.

The account is kept for every vnode at the same time: the change of its count since the first state is the change of
the number of processes that are in it. So it does not matter who else holds references, as long as these calls do not
touch them. The two slips have opposite signs: a process that is made in the root directory is one more without a
reference, a process that is destroyed is one less and leaves its reference behind.

`Counts` says when a step keeps the account; a run keeps it all along exactly if each of its steps does.
-/

namespace MyUnix.Proc

open Lib Fs

/-- The processes, the file system, and the working directory of each process. -/
structure CwdSys where
  procs   : ProcSys
  vfs     : Vfs
  cwd     : ProcPtr → Option Nat
  cwdPath : ProcPtr → Path

namespace CwdSys

variable (s : CwdSys)

/-- The working directory of `p` is set, without its references. -/
def setCwd (p : ProcPtr) (vn : Option Nat) (path : Path) : CwdSys :=
  { s with cwd := Function.update s.cwd p vn, cwdPath := Function.update s.cwdPath p path }

/-- `proc_create`: the new process is in the root directory. -/
def procCreate (env : MakeEnv) : Option CwdSys := do
  let (c, procs) ← s.procs.procCreate env
  match c with
  | none   => pure { s with procs }
  | some c => pure (({ s with procs } : CwdSys).setCwd c s.vfs.rootVn ['/'])

/-- `vnode_get`, which passes over `NULL`. -/
def getVnode (vfs : Vfs) : Option Nat → Option Vfs
  | none   => some vfs
  | some a => vfs.get a

/-- `vnode_put`, likewise. -/
def putVnode (vfs : Vfs) : Option Nat → Option Vfs
  | none   => some vfs
  | some a => vfs.put a

/-- `proc_fork`: the child is where its parent is. -/
def procFork (parent : ProcPtr) (env : MakeEnv) : Option CwdSys := do
  let (c, procs) ← s.procs.procFork parent env
  match c with
  | none   => pure { s with procs }
  | some c => do
      let vfs ← getVnode s.vfs (s.cwd parent)
      pure (({ s with procs, vfs } : CwdSys).setCwd c (s.cwd parent) (s.cwdPath parent))

/-- `sys_chdir`, from the path that was copied from the user on. -/
def sysChdir (p : ProcPtr) (path : Path) : Option (Except Errno Unit × CwdSys) := do
  match ← s.vfs.vfsLookup (s.vfs.rootVn <|> s.cwd p) path with
  | (.error e, vfs) => pure (.error e, { s with vfs })
  | (.ok vn, vfs)   => do
      let v ← vfs.vnodes vn
      if v.data.type ≠ .dir then do
        let vfs ← vfs.put vn
        pure (.error .notDir, { s with vfs })
      else do
        -- the reference of the lookup takes the place of the old one
        let vfs ← putVnode vfs (s.cwd p)
        pure (.ok (), ({ s with vfs } : CwdSys).setCwd p (some vn) (path.take (pathMax - 1)))

/-- `proc_exit`, as far as working directories go. -/
def procExit (p : ProcPtr) (code : Int) : Option CwdSys := do
  let procs ← s.procs.procExit p code
  pure { s with procs }

/-- The child that `proc_wait` reaps, if it reaps one. -/
def reaps (procs : ProcSys) (p : ProcPtr) (target : Int) : Option ProcPtr := do
  let (found, has) ← procs.waitScan p target (procs.births + 1) (procs.mem.next (.children p)) false
  if has then found else none

/-- `proc_wait`. A process that is destroyed is nowhere. -/
def procWait (p : ProcPtr) (target : Int) (wnohang : Bool) : Option CwdSys := do
  let (_, procs) ← s.procs.procWait p target wnohang
  match reaps s.procs p target with
  | none   => pure { s with procs }
  | some c => pure (({ s with procs } : CwdSys).setCwd c none [])

end CwdSys

/-! ## Steps

The calls of the process tree with what they do to working directories, and `chdir`, which walks a path.
-/

/-- A call that makes or ends a process, or changes its directory. -/
inductive CwdEvent where
  | create (env : MakeEnv)
  | fork (p : ProcPtr) (env : MakeEnv)
  | chdir (p : ProcPtr) (path : Path)
  | exit (p : ProcPtr) (code : Int)
  | wait (p : ProcPtr) (target : Int) (wnohang : Bool)

namespace CwdEvent

/-- A system call is made by a process that exists and has not exited, and `kzalloc` gives out free memory. -/
def Enabled (s : CwdSys) : CwdEvent → Prop
  | create env => ∀ c ∈ env.addr, s.procs.live c = false
  | fork p env => (ProcEvent.fork p env).Enabled s.procs
  | chdir p _  => s.procs.live p = true ∧ (s.procs.procs p).state ≠ .zombie
  | exit p c   => (ProcEvent.exit p c).Enabled s.procs
  | wait p t w => (ProcEvent.wait p t w).Enabled s.procs

/-- The kernel path of an event: `none` if it faults. -/
def path (s : CwdSys) : CwdEvent → Option CwdSys
  | create env => s.procCreate env
  | fork p env => s.procFork p env
  | chdir p q  => (s.sysChdir p q).map Prod.snd
  | exit p c   => s.procExit p c
  | wait p t w => s.procWait p t w

end CwdEvent

/-- The step can happen in `s`, and `t` is what it leaves. -/
def CwdStep (s : CwdSys) (e : CwdEvent) (t : CwdSys) : Prop := e.Enabled s ∧ e.path s = some t

/-! ## The account

By how much a step moves the references of a vnode, and by how much the processes in it.
-/

/-- The processes in a directory. -/
def CwdSys.holders (s : CwdSys) (v : Nat) : Set ProcPtr := {p | s.procs.live p = true ∧ s.cwd p = some v}

/-- The references of a vnode; one that is freed has none. -/
def refCount (s : Vfs) (v : Nat) : Int := (s.refs v).getD 0

/-- The count of every vnode has changed by as much as the number of processes in it. -/
def Counted (s t : CwdSys) : Prop :=
  ∀ v, refCount t.vfs v - refCount s.vfs v = (t.holders v).ncard - (s.holders v).ncard

/-- `proc_create` gets everything that it asks for. -/
def ProcSys.makes (procs : ProcSys) (env : MakeEnv) : Prop :=
  env.addr.isSome ∧ (procs.pidAlloc.bind Prod.fst).isSome ∧ env.space ∧ env.stack ∧ env.fds

instance (procs : ProcSys) (env : MakeEnv) : Decidable (procs.makes env) := by
  unfold ProcSys.makes
  infer_instance

namespace CwdEvent

/-- By how much the count of a vnode and the processes in it part. -/
def slip (s : CwdSys) (e : CwdEvent) (v : Nat) : Int :=
  match e with
  | create env => if s.procs.makes env ∧ s.vfs.rootVn = some v then -1 else 0
  | wait p t _ => if (CwdSys.reaps s.procs p t).bind s.cwd = some v then 1 else 0
  | fork _ _ | chdir _ _ | exit _ _ => 0

/-- A process is made only where there is no root yet, and none is reaped that is in a directory. -/
def Counts (s : CwdSys) : CwdEvent → Prop
  | create env => s.procs.makes env → s.vfs.rootVn = none
  | wait p t _ => (CwdSys.reaps s.procs p t).bind s.cwd = none
  | _          => True

theorem counts_iff (s : CwdSys) (e : CwdEvent) : e.Counts s ↔ ∀ v, e.slip s v = 0 := by
  cases e with
  | create env =>
      simp only [Counts, slip]
      constructor
      · intro h v
        rw [if_neg]
        rintro ⟨hm, hv⟩
        rw [h hm] at hv
        exact absurd hv nofun
      · intro h hm
        by_contra hne
        obtain ⟨v, hv⟩ := Option.ne_none_iff_exists'.mp hne
        have hslip := h v
        rw [if_pos ⟨hm, hv⟩] at hslip
        exact absurd hslip (by decide)
  | wait p t w =>
      simp only [Counts, slip]
      constructor
      · intro h v
        rw [if_neg]
        rw [h]
        exact nofun
      · intro h
        by_contra hne
        obtain ⟨v, hv⟩ := Option.ne_none_iff_exists'.mp hne
        have hslip := h v
        rw [if_pos hv] at hslip
        exact absurd hslip (by decide)
  | fork _ _  => exact iff_of_true trivial fun _ => rfl
  | chdir _ _ => exact iff_of_true trivial fun _ => rfl
  | exit _ _  => exact iff_of_true trivial fun _ => rfl

end CwdEvent

/-- In every state that the events lead through, references and working directories agree with the first state. -/
def RunCounted (s₀ s : CwdSys) : List CwdEvent → Prop
  | []      => Counted s₀ s
  | e :: es => Counted s₀ s ∧ ∀ t, CwdStep s e t → RunCounted s₀ t es

/-- Every step of the run counts in the state in which it is made. -/
def RunCounts (s : CwdSys) : List CwdEvent → Prop
  | []      => True
  | e :: es => ∀ t, CwdStep s e t → e.Counts s ∧ RunCounts t es

/-- What every step keeps: only processes that exist are in a directory, and only finitely many. -/
structure CwdInv (s : CwdSys) : Prop where
  live   : ∀ p v, s.cwd p = some v → s.procs.live p = true
  finite : {p | s.cwd p ≠ none}.Finite
  vfs    : s.vfs.WellCounted

/-! ## Counting

A partial function that is changed at one place: how many arguments have a given value.
-/

/-- A partial function changed at one place: how many places have the value `b`. -/
theorem ncard_fiber_update {α β : Type} [DecidableEq α] [DecidableEq β] {f : α → Option β}
    (hf : {a | f a ≠ none}.Finite) (a : α) (x : Option β) (b : β) :
    ({p | Function.update f a x p = some b}.ncard : Int) =
      {p | f p = some b}.ncard + (if x = some b then 1 else 0) - if f a = some b then 1 else 0 := by
  have hfin : {p | f p = some b}.Finite := by
    refine hf.subset fun p hp => ?_
    rw [Set.mem_ofPred_eq] at hp ⊢
    rw [hp]
    exact nofun
  by_cases hx : x = some b
  · have hset : {p | Function.update f a x p = some b} = insert a {p | f p = some b} := by
      ext p
      by_cases hp : p = a
      · simp [hp, hx]
      · simp [hp]
    rw [hset, if_pos hx]
    by_cases ha : f a = some b
    · rw [Set.insert_eq_of_mem (show a ∈ {p | f p = some b} from ha), if_pos ha]
      omega
    · rw [Set.ncard_insert_of_notMem (show a ∉ {p | f p = some b} from ha) hfin, if_neg ha]
      omega
  · have hset : {p | Function.update f a x p = some b} = {p | f p = some b} \ {a} := by
      ext p
      by_cases hp : p = a
      · simp [hp, hx]
      · simp [hp]
    rw [hset, if_neg hx]
    by_cases ha : f a = some b
    · have hone := Set.ncard_sdiff_singleton_add_one (show a ∈ {p | f p = some b} from ha) hfin
      rw [if_pos ha]
      omega
    · rw [Set.sdiff_singleton_eq_self (show a ∉ {p | f p = some b} from ha), if_neg ha]
      omega

theorem finite_update {α β : Type} [DecidableEq α] {f : α → Option β} (hf : {a | f a ≠ none}.Finite) (a : α)
    (x : Option β) : {p | Function.update f a x p ≠ none}.Finite := by
  refine (hf.insert a).subset fun p hp => ?_
  by_cases hpa : p = a
  · exact .inl hpa
  · rw [Set.mem_ofPred_eq, Function.update_of_ne hpa] at hp
    exact .inr hp

section

variable {vfs vfs' : Vfs} {a v : Nat}

/-- A reference more. -/
theorem refCount_get (h : vfs.get a = some vfs') :
    refCount vfs' v = refCount vfs v + if some a = some v then 1 else 0 := by
  obtain ⟨_, n, hn, hrefs⟩ := Vfs.refs_get h
  rw [refCount, refCount, hrefs]
  by_cases hv : v = a
  · subst hv
    simp [hn]
  · simp [hv, Ne.symm hv]

/-- A reference less; the last one frees the vnode. -/
theorem refCount_put (h : vfs.put a = some vfs') :
    refCount vfs' v = refCount vfs v - if some a = some v then 1 else 0 := by
  obtain ⟨_, n, hn, hrefs⟩ := Vfs.refs_put h
  rw [refCount, refCount, hrefs]
  by_cases hv : v = a
  · subst hv
    by_cases hone : n = 1
    · simp [hn, hone]
    · simp [hn, hone]
  · simp [hv, Ne.symm hv]

theorem refCount_owes {held : List Nat} (h : Owes vfs vfs' held) : refCount vfs' v = refCount vfs v + held.count v := by
  rw [refCount, refCount, h.refs]
  cases hn : vfs.refs v with
  | some n => rfl
  | none   =>
      rw [owed]
      split
      next hz => simp [hz]
      next => simp

end

/-! ## What the steps do to the processes

Who exists afterwards. These are read off the functions of `Proc.ProcTable`, without the invariant of the lists.
-/

namespace ProcSys

variable {s s' : ProcSys} {p : ProcPtr} {env : MakeEnv} {r : Option ProcPtr}

theorem live_withMem {m : Option (ListMem TreeAddr)} (h : s.withMem m = some s') : s'.live = s.live := by
  obtain ⟨m, _, rfl⟩ := Option.map_eq_some_iff.mp h
  rfl

theorem live_pidFree (pid : Nat) : (s.pidFree pid).live = s.live := by
  rw [pidFree]
  split <;> rfl

theorem live_install {c : ProcPtr} (h : s.install c = some s') : s'.live = s.live := by
  obtain ⟨m, _, rfl⟩ := Option.map_eq_some_iff.mp h
  rfl

theorem live_pidAlloc {pid : Option Nat} (h : s.pidAlloc = some (pid, s')) : s'.live = s.live := by
  obtain ⟨⟨pid', next⟩, _, h⟩ := Option.bind_eq_some_iff.mp h
  cases h
  rfl

/-- `proc_create` makes a process exactly when it gets everything. -/
theorem live_procCreate (h : s.procCreate env = some (r, s')) :
    (¬ s.makes env ∧ r = none ∧ s'.live = s.live) ∨
      ∃ c, s.makes env ∧ env.addr = some c ∧ r = some c ∧ s'.live = Function.update s.live c true := by
  obtain ⟨addr, space, stack, fds⟩ := env
  cases addr with
  | none =>
      cases h
      exact .inl ⟨fun hm => absurd hm.1 nofun, rfl, rfl⟩
  | some c =>
      obtain ⟨⟨pid, t⟩, hpid, h⟩ := Option.bind_eq_some_iff.mp h
      have hlive := live_pidAlloc hpid
      cases pid with
      | none =>
          cases h
          refine .inl ⟨fun hm => ?_, rfl, hlive⟩
          have hsome := hm.2.1
          rw [hpid] at hsome
          exact absurd hsome nofun
      | some pid =>
          simp only at h
          split at h
          next hfail =>
            cases h
            refine .inl ⟨fun hm => ?_, rfl, (live_pidFree pid).trans hlive⟩
            obtain ⟨_, _, hspace, hstack, hfds⟩ := hm
            simp only at hspace hstack hfds
            simp [hspace, hstack, hfds] at hfail
          next hok =>
            obtain ⟨u, hu, h⟩ := Option.bind_eq_some_iff.mp h
            cases h
            simp only [Bool.or_eq_true, Bool.not_eq_true', not_or, Bool.not_eq_false] at hok
            refine .inr ⟨c, ⟨rfl, ?_, hok.1.1, hok.1.2, hok.2⟩, rfl, rfl, ?_⟩
            · rw [hpid]
              rfl
            · rw [live_install hu]
              exact congrArg (fun l => Function.update l c true) hlive

theorem live_procFork (h : s.procFork p env = some (r, s')) :
    (r = none ∧ s'.live = s.live) ∨
      ∃ c, env.addr = some c ∧ r = some c ∧ s'.live = Function.update s.live c true := by
  obtain ⟨addr, space, stack, fds⟩ := env
  cases addr with
  | none =>
      cases h
      exact .inl ⟨rfl, rfl⟩
  | some c =>
      obtain ⟨⟨pid, t⟩, hpid, h⟩ := Option.bind_eq_some_iff.mp h
      have hlive := live_pidAlloc hpid
      cases pid with
      | none =>
          cases h
          exact .inl ⟨rfl, hlive⟩
      | some pid =>
          simp only at h
          split at h
          · cases h
            exact .inl ⟨rfl, (live_pidFree pid).trans hlive⟩
          · obtain ⟨u, hu, h⟩ := Option.bind_eq_some_iff.mp h
            obtain ⟨w, hw, h⟩ := Option.bind_eq_some_iff.mp h
            cases h
            refine .inr ⟨c, rfl, rfl, ?_⟩
            rw [live_install hw, live_withMem hu]
            exact congrArg (fun l => Function.update l c true) hlive

theorem live_adopt {child : ProcPtr} (h : s.adopt p child = some s') : s'.live = s.live := by
  obtain ⟨t, ht, h⟩ := Option.bind_eq_some_iff.mp h
  have hlive := live_withMem ht
  split at h
  · cases h
    exact hlive
  · split at h
    · cases h
      exact hlive
    · exact (live_withMem h).trans hlive

theorem live_adoptFrom (fuel : Nat) {pos n : Option TreeAddr} (h : adoptFrom p fuel s pos n = some s') :
    s'.live = s.live := by
  induction fuel generalizing s pos n with
  | zero => exact absurd h nofun
  | succ fuel ih =>
      rw [adoptFrom.eq_def] at h
      simp only at h
      split at h
      · cases h
        rfl
      · split at h
        · obtain ⟨t, ht, h⟩ := Option.bind_eq_some_iff.mp h
          exact (ih h).trans (live_adopt ht)
        · exact absurd h nofun

theorem live_procExit {code : Int} (h : s.procExit p code = some s') : s'.live = s.live := by
  have hloop := live_adoptFrom _ h
  exact hloop

/-- `proc_wait` destroys the child that it reaps. -/
theorem live_procWait {target : Int} {wnohang : Bool} {w : Waited} (h : s.procWait p target wnohang = some (w, s')) :
    s'.live = match CwdSys.reaps s p target with
      | none   => s.live
      | some c => Function.update s.live c false := by
  obtain ⟨⟨found, has⟩, hscan, h⟩ := Option.bind_eq_some_iff.mp h
  rw [CwdSys.reaps, hscan]
  cases has with
  | false =>
      cases h
      rfl
  | true =>
      cases found with
      | none =>
          cases h
          rfl
      | some c =>
          obtain ⟨t, ht, h⟩ := Option.bind_eq_some_iff.mp h
          obtain ⟨u, hu, h⟩ := Option.bind_eq_some_iff.mp h
          cases h
          obtain ⟨x, hx, hu⟩ := Option.bind_eq_some_iff.mp hu
          cases hu
          have hlive := (live_withMem hx).trans (live_withMem ht)
          show Function.update (x.pidFree (x.procs c).pid).live c false = Function.update s.live c false
          rw [live_pidFree, hlive]

end ProcSys

/-! ## One step

Each step has a slip, which is 0 for most of them.
-/

/-- What a step does to the account. -/
def Slips (s t : CwdSys) (slip : Nat → Int) : Prop :=
  ∀ v, refCount t.vfs v - refCount s.vfs v = (t.holders v).ncard - (s.holders v).ncard + slip v

theorem Counted.slips {s t : CwdSys} (h : Counted s t) : Slips s t fun _ => 0 :=
  fun v => (h v).trans (add_zero _).symm

namespace CwdInv

variable {s t : CwdSys} {c p v : Nat}

theorem holders_eq (h : CwdInv s) (v : Nat) : s.holders v = {p | s.cwd p = some v} :=
  Set.ext fun p => ⟨fun hp => hp.2, fun hp => ⟨h.live p v hp, hp⟩⟩

/-- A change of one working directory, with a change of the references and of who exists. -/
theorem setCwd (h : CwdInv s) {procs : ProcSys} {vfs : Vfs} (c : ProcPtr) (x : Option Nat) (path : Path)
    (hlive : ∀ p v, Function.update s.cwd c x p = some v → procs.live p = true) (hvfs : vfs.WellCounted) :
    CwdInv (({ s with procs, vfs } : CwdSys).setCwd c x path) ∧
      ∀ v, (((({ s with procs, vfs } : CwdSys).setCwd c x path).holders v).ncard : Int) =
        (s.holders v).ncard + (if x = some v then 1 else 0) - if s.cwd c = some v then 1 else 0 := by
  have hinv : CwdInv (({ s with procs, vfs } : CwdSys).setCwd c x path) :=
    ⟨hlive, finite_update h.finite c x, hvfs⟩
  refine ⟨hinv, fun v => ?_⟩
  rw [hinv.holders_eq, h.holders_eq]
  exact ncard_fiber_update h.finite c x v

theorem live_update_true (h : CwdInv s) {procs : ProcSys} {x : Option Nat}
    (hlive : procs.live = Function.update s.procs.live c true) (p v : Nat)
    (hp : Function.update s.cwd c x p = some v) : procs.live p = true := by
  rw [hlive]
  by_cases hpc : p = c
  · rw [hpc, Function.update_self]
  · rw [Function.update_of_ne hpc] at hp ⊢
    exact h.live p v hp

/-- What a step that leaves the working directories alone keeps. -/
theorem of_same (h : CwdInv s) {procs : ProcSys} {vfs : Vfs} (hlive : procs.live = s.procs.live)
    (hvfs : vfs.WellCounted) (hrefs : ∀ v, refCount vfs v = refCount s.vfs v) :
    CwdInv { s with procs, vfs } ∧ Counted s { s with procs, vfs } := by
  have hinv : CwdInv { s with procs, vfs } := ⟨fun p v hp => hlive ▸ h.live p v hp, h.finite, hvfs⟩
  refine ⟨hinv, fun v => ?_⟩
  have hholders : ({ s with procs, vfs } : CwdSys).holders v = s.holders v := by
    rw [hinv.holders_eq, h.holders_eq]
  rw [hholders, hrefs v, sub_self, sub_self]

/-- A process at a free address is in no directory. -/
theorem cwd_free (h : CwdInv s) (hc : s.procs.live c = false) : s.cwd c = none := by
  by_contra hne
  obtain ⟨v, hv⟩ := Option.ne_none_iff_exists'.mp hne
  rw [h.live c v hv] at hc
  exact absurd hc nofun

theorem create {env : MakeEnv} (h : CwdInv s) (he : (CwdEvent.create env).Enabled s) (hs : s.procCreate env = some t) :
    CwdInv t ∧ Slips s t ((CwdEvent.create env).slip s) := by
  obtain ⟨⟨r, procs⟩, hcreate, hs⟩ := Option.bind_eq_some_iff.mp hs
  rcases ProcSys.live_procCreate hcreate with ⟨hfails, rfl, hlive⟩ | ⟨c, hmakes, haddr, rfl, hlive⟩
  · cases hs
    obtain ⟨hinv, hcounted⟩ := h.of_same hlive h.vfs fun _ => rfl
    refine ⟨hinv, fun v => ?_⟩
    rw [hcounted v, CwdEvent.slip, if_neg fun hm => hfails hm.1]
    omega
  · cases hs
    obtain ⟨hinv, hcount⟩ := h.setCwd c s.vfs.rootVn ['/'] (h.live_update_true hlive) h.vfs
    refine ⟨hinv, fun v => ?_⟩
    rw [hcount v, h.cwd_free (he c (by rw [haddr]; rfl)), CwdEvent.slip]
    simp only [hmakes, true_and, reduceCtorEq, if_false]
    split
    · show refCount s.vfs v - refCount s.vfs v = _
      omega
    · show refCount s.vfs v - refCount s.vfs v = _
      omega

theorem fork {env : MakeEnv} (h : CwdInv s) (he : (CwdEvent.fork p env).Enabled s) (hs : s.procFork p env = some t) :
    CwdInv t ∧ Slips s t ((CwdEvent.fork p env).slip s) := by
  have hfree : ∀ c ∈ env.addr, s.procs.live c = false := he.2.2
  obtain ⟨⟨r, procs⟩, hfork, hs⟩ := Option.bind_eq_some_iff.mp hs
  rcases ProcSys.live_procFork hfork with ⟨rfl, hlive⟩ | ⟨c, haddr, rfl, hlive⟩
  · cases hs
    obtain ⟨hinv, hcounted⟩ := h.of_same hlive h.vfs fun _ => rfl
    exact ⟨hinv, hcounted.slips⟩
  · obtain ⟨vfs, hget, hs⟩ := Option.bind_eq_some_iff.mp hs
    cases hs
    have hwell : vfs.WellCounted ∧
        ∀ v, refCount vfs v = refCount s.vfs v + if s.cwd p = some v then 1 else 0 := by
      cases hcwd : s.cwd p with
      | none =>
          rw [hcwd] at hget
          cases hget
          exact ⟨h.vfs, fun v => by simp⟩
      | some a =>
          rw [hcwd] at hget
          exact ⟨h.vfs.get hget, fun v => refCount_get hget⟩
    obtain ⟨hinv, hcount⟩ := h.setCwd c (s.cwd p) (s.cwdPath p) (h.live_update_true hlive) hwell.1
    refine ⟨hinv, fun v => ?_⟩
    have hrefs := hwell.2 v
    rw [hcount v, h.cwd_free (hfree c (by rw [haddr]; rfl))]
    simp only [reduceCtorEq, if_false]
    show refCount vfs v - refCount s.vfs v = _ + 0
    omega

theorem chdir {path : Path} {r : Except Errno Unit} (h : CwdInv s) (he : s.procs.live p = true)
    (hs : s.sysChdir p path = some (r, t)) : CwdInv t ∧ Slips s t ((CwdEvent.chdir p path).slip s) := by
  obtain ⟨⟨res, vfs⟩, hlookup, hs⟩ := Option.bind_eq_some_iff.mp hs
  have howes := (Owes.refl h.vfs).vfsLookup srcOps_handOver h.vfs hlookup
  have hwell := howes.wellCounted h.vfs
  cases res with
  | error e =>
      cases hs
      have hsame : ∀ v, refCount vfs v = refCount s.vfs v := by
        intro v
        rw [refCount_owes howes]
        exact add_zero _
      obtain ⟨hinv, hcounted⟩ := h.of_same rfl hwell hsame
      exact ⟨hinv, hcounted.slips⟩
  | ok vn =>
      -- the lookup hands over one reference
      have hone : ∀ v, refCount vfs v = refCount s.vfs v + if some vn = some v then 1 else 0 := by
        intro v
        have hcount : ([vn].count v : Int) = if some vn = some v then 1 else 0 := by
          by_cases hv : vn = v
          · simp [hv]
          · simp [hv]
        rw [refCount_owes howes, ← hcount]
        rfl
      obtain ⟨w, _, hs⟩ := Option.bind_eq_some_iff.mp hs
      split at hs
      · obtain ⟨vfs', hput, hs⟩ := Option.bind_eq_some_iff.mp hs
        cases hs
        have hsame : ∀ v, refCount vfs' v = refCount s.vfs v := by
          intro v
          rw [refCount_put hput, hone v]
          omega
        obtain ⟨hinv, hcounted⟩ := h.of_same rfl (hwell.put hput) hsame
        exact ⟨hinv, hcounted.slips⟩
      · obtain ⟨vfs', hput, hs⟩ := Option.bind_eq_some_iff.mp hs
        cases hs
        have hback : vfs'.WellCounted ∧
            ∀ v, refCount vfs' v = refCount vfs v - if s.cwd p = some v then 1 else 0 := by
          cases hcwd : s.cwd p with
          | none =>
              rw [hcwd] at hput
              cases hput
              exact ⟨hwell, fun v => by simp⟩
          | some a =>
              rw [hcwd] at hput
              exact ⟨hwell.put hput, fun v => refCount_put hput⟩
        have hlive : ∀ q v, Function.update s.cwd p (some vn) q = some v → s.procs.live q = true := by
          intro q v hq
          by_cases hqp : q = p
          · exact hqp ▸ he
          · rw [Function.update_of_ne hqp] at hq
            exact h.live q v hq
        obtain ⟨hinv, hcount⟩ := h.setCwd p (some vn) (path.take (pathMax - 1)) hlive hback.1
        refine ⟨hinv, fun v => ?_⟩
        have hrefs := hback.2 v
        have hhand := hone v
        rw [hcount v]
        show refCount vfs' v - refCount s.vfs v = _ + 0
        omega

theorem exit {code : Int} (h : CwdInv s) (hs : s.procExit p code = some t) :
    CwdInv t ∧ Slips s t ((CwdEvent.exit p code).slip s) := by
  obtain ⟨procs, hexit, hs⟩ := Option.bind_eq_some_iff.mp hs
  cases hs
  obtain ⟨hinv, hcounted⟩ := h.of_same (ProcSys.live_procExit hexit) h.vfs fun _ => rfl
  exact ⟨hinv, hcounted.slips⟩

theorem wait {target : Int} {wnohang : Bool} (h : CwdInv s) (hs : s.procWait p target wnohang = some t) :
    CwdInv t ∧ Slips s t ((CwdEvent.wait p target wnohang).slip s) := by
  obtain ⟨⟨w, procs⟩, hwait, hs⟩ := Option.bind_eq_some_iff.mp hs
  have hlive := ProcSys.live_procWait hwait
  simp only at hs
  cases hreaps : CwdSys.reaps s.procs p target with
  | none =>
      rw [hreaps] at hs hlive
      cases hs
      obtain ⟨hinv, hcounted⟩ := h.of_same hlive h.vfs fun _ => rfl
      refine ⟨hinv, fun v => ?_⟩
      rw [hcounted v, CwdEvent.slip, hreaps, Option.bind_none, if_neg nofun]
      omega
  | some c =>
      rw [hreaps] at hs hlive
      simp only at hlive
      cases hs
      have hleft : ∀ q v, Function.update s.cwd c none q = some v → procs.live q = true := by
        intro q v hq
        rw [hlive]
        by_cases hqc : q = c
        · rw [hqc, Function.update_self] at hq
          exact absurd hq nofun
        · rw [Function.update_of_ne hqc] at hq ⊢
          exact h.live q v hq
      obtain ⟨hinv, hcount⟩ := h.setCwd c none [] hleft h.vfs
      refine ⟨hinv, fun v => ?_⟩
      rw [hcount v, CwdEvent.slip, hreaps, Option.bind_some]
      show refCount s.vfs v - refCount s.vfs v = _
      simp only [reduceCtorEq, if_false]
      omega

/-- **One step** moves references and processes by the same number, but for its slip. -/
theorem step {e : CwdEvent} (h : CwdInv s) (hs : CwdStep s e t) : CwdInv t ∧ Slips s t (e.slip s) := by
  obtain ⟨he, hpath⟩ := hs
  cases e with
  | create env => exact h.create he hpath
  | fork p env => exact h.fork he hpath
  | chdir p q  =>
      obtain ⟨⟨r, _⟩, hchdir, rfl⟩ := Option.map_eq_some_iff.mp hpath
      exact h.chdir he.1 hchdir
  | exit p c   => exact h.exit hpath
  | wait p t w => exact h.wait hpath

theorem counted_iff {s₀ : CwdSys} {e : CwdEvent} (h : CwdInv s) (h₀ : Counted s₀ s) (hs : CwdStep s e t) :
    Counted s₀ t ↔ e.Counts s := by
  obtain ⟨_, hslips⟩ := h.step hs
  rw [CwdEvent.counts_iff]
  refine forall_congr' fun v => ?_
  have hv := hslips v
  have hv₀ := h₀ v
  omega

end CwdInv

/-! ## Runs

The equivalence, by `throughout_iff_everyStep`, with the two runs that show both sides of it.
-/

theorem RunCounted.counted {s₀ s : CwdSys} : ∀ {es : List CwdEvent}, RunCounted s₀ s es → Counted s₀ s
  | [],     h => h
  | _ :: _, h => h.1

theorem runCounted_iff {s₀ s : CwdSys} (h : CwdInv s) (h₀ : Counted s₀ s) (es : List CwdEvent) :
    RunCounted s₀ s es ↔ RunCounts s es := by
  induction es generalizing s with
  | nil => exact iff_of_true h₀ trivial
  | cons e es ih =>
      constructor
      · rintro ⟨_, hrest⟩ t hs
        have hcounts := (h.counted_iff h₀ hs).mp (hrest t hs).counted
        exact ⟨hcounts, (ih (h.step hs).1 ((h.counted_iff h₀ hs).mpr hcounts)).mp (hrest t hs)⟩
      · intro hrest
        refine ⟨h₀, fun t hs => ?_⟩
        obtain ⟨hcounts, hes⟩ := hrest t hs
        exact (ih (h.step hs).1 ((h.counted_iff h₀ hs).mpr hcounts)).mpr hes

theorem Counted.refl (s : CwdSys) : Counted s s := fun v => by
  rw [sub_self, sub_self]

/-- **The references of working directories are counted exactly on the runs in which no process is made once there is
    a root, and none is reaped that is in a directory.** -/
theorem cwd_counted_iff (s : CwdSys) (h : CwdInv s) (es : List CwdEvent) : RunCounted s s es ↔ RunCounts s es :=
  runCounted_iff h (.refl s) es

/-- Init in the root directory, with a reference of its own. -/
def initInRoot : CwdSys where
  procs     := (procBoot 10 20).getD procInit
  vfs       := ((initrdBoot binSh 8).get 6).getD (initrdBoot binSh 8)
  cwd p     := if p = 20 then some 6 else none
  cwdPath _ := ['/']

theorem cwdInv_initInRoot : CwdInv initInRoot := by
  refine ⟨fun p v hp => ?_, (Set.finite_singleton 20).subset fun p hp => ?_, ?_⟩
  · by_cases hp20 : p = 20
    · subst hp20
      decide +kernel
    · exact absurd ((if_neg hp20).symm.trans hp) nofun
  · by_contra hp20
    exact hp (if_neg hp20)
  · exact (initrdBoot_wellCounted binSh 8).get (show (initrdBoot binSh 8).get 6 = some _ from rfl)

/-- Init forks, and the child goes to another directory. -/
theorem cwd_counted_fork :
    RunCounted initInRoot initInRoot [.fork 20 ⟨some 30, true, true, true⟩, .chdir 30 ['/', 'b', 'i', 'n']] :=
  (cwd_counted_iff initInRoot cwdInv_initInRoot _).mpr fun _ _ => ⟨trivial, fun _ _ => ⟨trivial, trivial⟩⟩

/-- `initrd` is mounted, and there is no process yet. -/
def rootMounted : CwdSys where
  procs     := procInit
  vfs       := initrdBoot binSh 8
  cwd _     := none
  cwdPath _ := []

/-- **The first process** is in the root directory, and nothing counts that. -/
theorem cwd_counted_create : ¬ RunCounted rootMounted rootMounted [.create ⟨some 10, true, true, true⟩] := by
  intro hrun
  have hinv : CwdInv rootMounted :=
    ⟨fun p v hp => absurd hp nofun, Set.finite_empty.subset fun p hp => hp rfl, initrdBoot_wellCounted binSh 8⟩
  obtain ⟨t, ht⟩ : ∃ t, CwdStep rootMounted (.create ⟨some 10, true, true, true⟩) t := by
    refine ⟨_, fun c hc => rfl, rfl⟩
  have hcounts := (hinv.counted_iff (.refl _) ht).mp (hrun.2 t ht).counted
  have hmakes : procInit.makes ⟨some 10, true, true, true⟩ := by
    decide +kernel
  exact absurd (hcounts hmakes) nofun

end MyUnix.Proc
