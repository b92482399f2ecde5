import MyUnix.Proc.Signal
import MyUnix.Proc.WaitScan

/-!
# `Proc.ExitStatus` — the status a parent gets

`proc_exit` puts the low byte of its argument into the second byte of the exit code, `proc_wait` hands the exit code
over, and the macros of `process.h` take it apart. `signal_handle` stores the bare signal number into the exit code of a
process that the signal ends, and then calls `proc_exit` with the same number, which overwrites it. So a process that is
killed looks like one that has exited with the number of the signal.

Between its end and its reaping nobody touches the exit code of a zombie (`Settled`).

The event that ends a process and the call that reaps it are steps of one run, with any others in between. So the exit
code of a zombie must be followed through everything that other processes do, until its parent asks (`Settled.step`).
Both ways to end come down to `proc_exit`; what the signal handling puts into the exit code before is gone by then.
-/

namespace MyUnix.Proc

open Arch Lib

/-! ## The macros

As `process.h` has them.
-/

/-- `WIFEXITED`. -/
def wifexited (status : Nat) : Bool := status &&& 0x7f == 0

/-- `WEXITSTATUS`. -/
def wexitstatus (status : Nat) : Nat := (status >>> 8) &&& 0xff

/-- `WIFSIGNALED`. -/
def wifsignaled (status : Nat) : Bool := status &&& 0x7f != 0 && status &&& 0x7f != 0x7f

/-- `WTERMSIG`. -/
def wtermsig (status : Nat) : Nat := status &&& 0x7f

/-! ## How a process ends

`Ending.Told` is what a status should say of each way to end.
-/

/-- By a system call with this code, or by a signal. -/
inductive Ending where
  | exited (code : Int)
  | signalled (signo : Nat)

/-- The status says so. -/
def Ending.Told (status : Nat) : Ending → Prop
  | .exited code     => wifexited status = true ∧ (wexitstatus status : Int) = code % 256
  | .signalled signo => wifsignaled status = true ∧ wtermsig status = signo ∧ wifexited status = false

/-- What `proc_exit` is called with. -/
def Ending.code : Ending → Int
  | .exited code     => code
  | .signalled signo => signo

/-- The end of `signal_handle` for a signal that ends the process. -/
def ProcSys.signalEnd (s : ProcSys) (proc : ProcPtr) (signo : Nat) : Option ProcSys :=
  (s.setProc proc fun r => { r with exitCode := signo }).procExit proc signo

/-- What happens to processes: a system call, or `signal_handle` on the way back to the user, with the signals as they
    are then. -/
inductive EndEvent where
  | call (e : ProcEvent)
  | handle (p : ProcPtr) (sig : SigProc) (ctx : CpuContext)

namespace EndEvent

/-- The event can happen in `s`. -/
def Enabled (s : ProcSys) : EndEvent → Prop
  | call e       => e.Enabled s
  | handle p _ _ => s.live p = true ∧ (s.procs p).state ≠ .zombie

/-- The kernel path of an event: `none` if it faults. -/
def path (s : ProcSys) : EndEvent → Option ProcSys
  | call e         => e.path s
  | handle p sig ctx =>
    match (sig.signalHandle ctx).2.2 with
    | .stop       => some (s.setProc p fun r => { r with state := .stopped })
    | .cont       => some (s.setProc p fun r => { r with state := .running })
    | .exit signo => s.signalEnd p signo
    | .nothing    => some s
    | .call       => some s

/-- The process that the event ends, and how. -/
def ends : EndEvent → Option (ProcPtr × Ending)
  | call (.exit p code) => some (p, .exited code)
  | call _              => none
  | handle p sig ctx    =>
    match (sig.signalHandle ctx).2.2 with
    | .exit signo => some (p, .signalled signo)
    | _           => none

end EndEvent

/-- The event can happen in `s`, and `t` is what it leaves. -/
def EndStep (s : ProcSys) (e : EndEvent) (t : ProcSys) : Prop := e.Enabled s ∧ e.path s = some t

/-! ## The two ways end the same

The store of `signal_handle` is overwritten by that of `proc_exit`.
-/

namespace ProcSys

variable {s t : ProcSys} {proc c : ProcPtr}

/-- The number of the signal does not stay in the exit code. -/
theorem signalEnd_eq (signo : Nat) : s.signalEnd proc signo = s.procExit proc signo := by
  have htwice : ∀ f g : ProcRec → ProcRec, (s.setProc proc f).setProc proc g = s.setProc proc fun r => g (f r) := by
    intro f g
    simp only [setProc, Function.update_self, Function.update_idem]
  rw [signalEnd, procExit, procExit, htwice]

end ProcSys

theorem EndEvent.path_of_ends {s : ProcSys} {e : EndEvent} {c : ProcPtr} {how : Ending} (h : e.ends = some (c, how)) :
    e.path s = s.procExit c how.code := by
  cases e with
  | call e =>
    cases e with
    | exit p code =>
      cases h
      rfl
    | fork p env => cases h
    | wait p target wnohang => cases h
  | handle p sig ctx =>
    rw [ends] at h
    rw [path]
    split at h
    next signo hact =>
      cases h
      rw [hact]
      exact ProcSys.signalEnd_eq signo
    next => cases h

/-! ## What a call leaves of the other processes

No call but a process's own writes its exit code.
-/

/-- The processes of `P` are as they were, and who was reaped stays so. -/
structure KeepsEnds (P : ProcPtr → Prop) (s t : ProcSys) : Prop where
  live {c} : P c → t.live c = s.live c
  serial {c} : P c → (t.procs c).serial = (s.procs c).serial
  state {c} : P c → (t.procs c).state = (s.procs c).state
  exitCode {c} : P c → (t.procs c).exitCode = (s.procs c).exitCode
  reaped {n} : n ∈ s.reaped → n ∈ t.reaped

namespace KeepsEnds

variable {P : ProcPtr → Prop} {s t u : ProcSys} {p : ProcPtr}

theorem refl (P : ProcPtr → Prop) (s : ProcSys) : KeepsEnds P s s :=
  ⟨fun _ => rfl, fun _ => rfl, fun _ => rfl, fun _ => rfl, id⟩

theorem trans (h : KeepsEnds P s t) (h' : KeepsEnds P t u) : KeepsEnds P s u where
  live hc := (h'.live hc).trans (h.live hc)
  serial hc := (h'.serial hc).trans (h.serial hc)
  state hc := (h'.state hc).trans (h.state hc)
  exitCode hc := (h'.exitCode hc).trans (h.exitCode hc)
  reaped hn := h'.reaped (h.reaped hn)

/-- Only lists, the table and the counters differ. -/
theorem of_same (hlive : t.live = s.live) (hprocs : t.procs = s.procs) (hreaped : t.reaped = s.reaped) : KeepsEnds P s t := by
  refine ⟨fun _ => by rw [hlive], fun _ => by rw [hprocs], fun _ => by rw [hprocs], fun _ => by rw [hprocs], fun hn => ?_⟩
  rw [hreaped]
  exact hn

theorem withMem {m : Option (ListMem TreeAddr)} (h : s.withMem m = some t) : KeepsEnds P s t := by
  obtain ⟨m', -, rfl⟩ := Option.map_eq_some_iff.mp h
  exact of_same rfl rfl rfl

theorem pidFree (pid : Nat) : KeepsEnds P s (s.pidFree pid) := by
  unfold ProcSys.pidFree
  split <;> exact of_same rfl rfl rfl

theorem pidAlloc {r : Option Nat} (h : s.pidAlloc = some (r, t)) : KeepsEnds P s t := by
  obtain ⟨⟨r', n⟩, -, h⟩ := Option.bind_eq_some_iff.mp h
  cases h
  exact of_same rfl rfl rfl

/-- The record of another process is changed. -/
theorem setProc (hp : ¬P p) (f : ProcRec → ProcRec) : KeepsEnds P s (s.setProc p f) := by
  have hsame : ∀ {c}, P c → (s.setProc p f).procs c = s.procs c := by
    intro c hc
    apply Function.update_of_ne
    rintro rfl
    exact hp hc
  exact ⟨fun _ => rfl, fun hc => by rw [hsame hc], fun hc => by rw [hsame hc], fun hc => by rw [hsame hc], id⟩

/-- A process gets another parent. -/
theorem reparent (p : ProcPtr) (parent : Option ProcPtr) (ppid : Nat) :
    KeepsEnds P s (s.setProc p fun r => { r with parent, ppid }) := by
  have hfields : ∀ c, ((s.setProc p fun r => { r with parent, ppid }).procs c).serial = (s.procs c).serial ∧
      ((s.setProc p fun r => { r with parent, ppid }).procs c).state = (s.procs c).state ∧
      ((s.setProc p fun r => { r with parent, ppid }).procs c).exitCode = (s.procs c).exitCode := by
    intro c
    by_cases hcp : c = p
    · subst hcp
      simp only [ProcSys.setProc, Function.update_self, and_self]
    · simp only [ProcSys.setProc, Function.update_of_ne hcp, and_self]
  exact ⟨fun _ => rfl, fun _ => (hfields _).1, fun _ => (hfields _).2.1, fun _ => (hfields _).2.2, id⟩

theorem newProc (hp : ¬P p) (r : ProcRec) : KeepsEnds P s (s.newProc p r) := by
  have hne : ∀ {c}, P c → c ≠ p := by
    rintro c hc rfl
    exact hp hc
  have hsame : ∀ {c}, P c → (s.newProc p r).procs c = s.procs c := fun hc => Function.update_of_ne (hne hc) _ _
  exact ⟨fun hc => Function.update_of_ne (hne hc) _ _, fun hc => by rw [hsame hc], fun hc => by rw [hsame hc],
    fun hc => by rw [hsame hc], id⟩

theorem install (h : s.install p = some t) : KeepsEnds P s t := by
  obtain ⟨m', -, rfl⟩ := Option.map_eq_some_iff.mp h
  exact of_same rfl rfl rfl

/-- **`proc_fork`** does nothing to a process that is there. -/
theorem procFork {env : MakeEnv} {r : Option ProcPtr} (henv : ∀ a ∈ env.addr, ¬P a)
    (h : s.procFork p env = some (r, t)) : KeepsEnds P s t := by
  rw [ProcSys.procFork] at h
  cases haddr : env.addr with
  | none =>
    rw [haddr] at h
    cases h
    exact .refl P s
  | some a =>
    rw [haddr] at h
    obtain ⟨⟨pid, s₁⟩, hpid, h⟩ := Option.bind_eq_some_iff.mp h
    have hkeep : KeepsEnds P s s₁ := pidAlloc hpid
    cases pid with
    | none =>
      cases h
      exact hkeep
    | some pid =>
      simp only at h
      split at h
      · cases h
        exact hkeep.trans (pidFree pid)
      · obtain ⟨s₂, hadd, h⟩ := Option.bind_eq_some_iff.mp h
        obtain ⟨s₃, hinstall, h⟩ := Option.bind_eq_some_iff.mp h
        cases h
        exact ((hkeep.trans (newProc (henv a haddr) _)).trans (withMem hadd)).trans (install hinstall)

theorem adopt {proc child : ProcPtr} (h : s.adopt proc child = some t) : KeepsEnds P s t := by
  obtain ⟨s₁, hdel, h⟩ := Option.bind_eq_some_iff.mp h
  refine (withMem hdel).trans ?_
  split at h
  next =>
    cases h
    exact .refl P _
  next init _ =>
    split at h
    · cases h
      exact .refl P _
    · exact (reparent child (some init) _).trans (withMem h)

/-- The loop of `proc_exit`. -/
theorem adoptFrom {proc : ProcPtr} : ∀ (fuel : Nat) {s : ProcSys} {pos n : Option TreeAddr},
    ProcSys.adoptFrom proc fuel s pos n = some t → KeepsEnds P s t := by
  intro fuel
  induction fuel with
  | zero => exact fun h => nomatch h
  | succ fuel ih =>
    intro s pos n h
    unfold ProcSys.adoptFrom at h
    split at h
    · cases h
      exact .refl P t
    · split at h
      · obtain ⟨s₁, hadopt, h⟩ := Option.bind_eq_some_iff.mp h
        exact (adopt hadopt).trans (ih h)
      · cases h

/-- **`proc_exit`** of another process. -/
theorem procExit {code : Int} (hp : ¬P p) (h : s.procExit p code = some t) : KeepsEnds P s t :=
  (setProc hp _).trans (adoptFrom _ h)

end KeepsEnds

/-- **`proc_exit`**: the process is a zombie with the code in the second byte. -/
theorem ProcSys.procExit_own {s t : ProcSys} {c : ProcPtr} {code : Int} (h : s.procExit c code = some t) :
    t.live c = s.live c ∧ (t.procs c).serial = (s.procs c).serial ∧ (t.procs c).state = .zombie ∧
      (t.procs c).exitCode = (code % 256).toNat * 256 := by
  have hkeep : KeepsEnds (· = c) (s.setProc c fun r => { r with exitCode := (code % 256).toNat * 256, state := .zombie }) t :=
    .adoptFrom _ h
  refine ⟨hkeep.live rfl, (hkeep.serial rfl).trans ?_, (hkeep.state rfl).trans ?_, (hkeep.exitCode rfl).trans ?_⟩
  all_goals simp only [setProc, Function.update_self]

/-- **`proc_wait`** answers without reaping, or destroys the child that its scan has found. -/
theorem ProcSys.procWait_inv {s t : ProcSys} {p : ProcPtr} {target : Int} {wnohang : Bool} {w : Waited}
    (h : s.procWait p target wnohang = some (w, t)) :
    (t = s ∧ ∀ pid status, w ≠ .reaped pid status) ∨
    ∃ d has, s.waitScan p target (s.births + 1) (s.mem.next (.children p)) false = some (some d, has) ∧
      w = .reaped (s.procs d).pid (s.procs d).exitCode ∧ t.procs = s.procs ∧
      t.live = Function.update s.live d false ∧ t.reaped = s.reaped ++ [(s.procs d).serial] := by
  obtain ⟨⟨found, has⟩, hscan, h⟩ := Option.bind_eq_some_iff.mp h
  cases has with
  | false =>
    cases h
    exact .inl ⟨rfl, nofun⟩
  | true =>
    cases found with
    | none =>
      cases h
      refine .inl ⟨rfl, ?_⟩
      intro pid status
      split <;> exact nofun
    | some d =>
      obtain ⟨s₁, hdel, h⟩ := Option.bind_eq_some_iff.mp h
      obtain ⟨s₂, hdestroy, h⟩ := Option.bind_eq_some_iff.mp h
      cases h
      obtain ⟨m₁, -, rfl⟩ := Option.map_eq_some_iff.mp hdel
      obtain ⟨s₃, hdel', hdestroy⟩ := Option.bind_eq_some_iff.mp hdestroy
      obtain ⟨m₂, -, rfl⟩ := Option.map_eq_some_iff.mp hdel'
      cases hdestroy
      refine .inr ⟨d, true, hscan, rfl, ?_⟩
      unfold ProcSys.pidFree
      split <;> exact ⟨rfl, rfl, rfl⟩

/-! ## From the end to the reaping

A zombie keeps its address and its pid until it is reaped, so the two ends of the story are about the same process.
-/

/-- The processes are in order in every state that is reached. -/
theorem ProcInv.endStep {s t : ProcSys} {L : TreeAddr → List TreeAddr} {idle init : ProcPtr} {e : EndEvent}
    (h : ProcInv s L idle init) (hs : EndStep s e t) : ∃ L', ProcInv t L' idle init := by
  obtain ⟨he, hpath⟩ := hs
  cases e with
  | call e =>
    obtain ⟨t', L', hpath', h', -⟩ := h.step (e := e) he
    obtain rfl : t' = t := Option.some.inj (hpath'.symm.trans hpath)
    exact ⟨L', h'⟩
  | handle p sig ctx =>
    obtain ⟨hlive, hnz⟩ : s.live p = true ∧ (s.procs p).state ≠ .zombie := he
    -- a process that is stopped or continued is no zombie after that either
    have hstate : ∀ st : ProcState, st ≠ .zombie → ∃ L', ProcInv (s.setProc p fun r => { r with state := st }) L' idle init := by
      intro st hst
      obtain ⟨htree, hsame⟩ := h.tree.setProc p (f := fun r => { r with state := st }) fun _ => ⟨rfl, rfl, rfl, rfl, rfl⟩
      refine ⟨L, htree, fun q hq hqi => h.childless q ?_ hqi, h.pids.congr hsame, h.init, h.idle⟩
      by_cases hqp : q = p
      · subst hqp
        simp only [ProcSys.setProc, Function.update_self] at hq
        exact absurd hq hst
      · simpa only [ProcSys.setProc, Function.update_of_ne hqp] using hq
    rw [EndEvent.path] at hpath
    split at hpath
    · cases hpath
      exact hstate .stopped (by decide)
    · cases hpath
      exact hstate .running (by decide)
    next signo hact =>
      rw [ProcSys.signalEnd_eq] at hpath
      obtain ⟨t', L', hpath', h', -⟩ := h.exit p signo
      obtain rfl : t' = t := Option.some.inj (hpath'.symm.trans hpath)
      exact ⟨L', h'⟩
    · cases hpath
      exact ⟨L, h⟩
    · cases hpath
      exact ⟨L, h⟩

/-- The process with this number was reaped, or is the zombie at `c` with this exit code. -/
def Settled (c : ProcPtr) (n x : Nat) (s : ProcSys) : Prop :=
  n ∈ s.reaped ∨
    (s.live c = true ∧ (s.procs c).serial = n ∧ (s.procs c).state = .zombie ∧ (s.procs c).exitCode = x)

theorem KeepsEnds.settled {P : ProcPtr → Prop} {c : ProcPtr} {n x : Nat} {s t : ProcSys} (h : KeepsEnds P s t)
    (hs : Settled c n x s) (hc : s.live c = true → (s.procs c).state = .zombie → P c) : Settled c n x t := by
  rcases hs with hn | ⟨hlive, hserial, hstate, hcode⟩
  · exact .inl (h.reaped hn)
  · have hP := hc hlive hstate
    exact .inr ⟨(h.live hP).trans hlive, (h.serial hP).trans hserial, (h.state hP).trans hstate, (h.exitCode hP).trans hcode⟩

/-- **No step** touches the exit code of a zombie. -/
theorem Settled.step {c : ProcPtr} {n x : Nat} {s t : ProcSys} {e : EndEvent} (h : Settled c n x s) (hs : EndStep s e t) :
    Settled c n x t := by
  obtain ⟨he, hpath⟩ := hs
  -- the process that does something is no zombie
  have hother : ∀ {p}, (s.procs p).state ≠ .zombie → s.live c = true → (s.procs c).state = .zombie → c ≠ p := by
    rintro p hnz - hz rfl
    exact hnz hz
  cases e with
  | call e =>
    obtain ⟨-, hnz, he⟩ := he
    cases e with
    | fork p env =>
      obtain ⟨⟨r, t'⟩, hfork, rfl⟩ := Option.map_eq_some_iff.mp hpath
      refine (KeepsEnds.procFork (P := fun c => s.live c = true) (fun a ha => ?_) hfork).settled h fun hlive _ => hlive
      rw [he a ha]
      exact nofun
    | exit p code =>
      have hkeep : KeepsEnds (· ≠ p) s t := .procExit (fun hp => hp rfl) hpath
      exact hkeep.settled h (hother hnz)
    | wait p target wnohang =>
      obtain ⟨⟨w, t'⟩, hwait, rfl⟩ := Option.map_eq_some_iff.mp hpath
      rcases ProcSys.procWait_inv hwait with ⟨rfl, -⟩ | ⟨d, has, -, -, hprocs, hlive, hreaped⟩
      · exact h
      · rcases h with hn | ⟨hc, hserial, hz, hcode⟩
        · exact .inl (by rw [hreaped]; exact List.mem_append_left _ hn)
        · by_cases hcd : c = d
          · subst hcd
            refine .inl ?_
            rw [hreaped, hserial]
            exact List.mem_append_right _ (List.mem_singleton_self n)
          · rw [Settled, hprocs, hlive, Function.update_of_ne hcd]
            exact .inr ⟨hc, hserial, hz, hcode⟩
  | handle p sig ctx =>
    obtain ⟨-, hnz⟩ := he
    rw [EndEvent.path] at hpath
    split at hpath
    · cases hpath
      have hkeep : KeepsEnds (· ≠ p) s (s.setProc p fun r => { r with state := .stopped }) := .setProc (fun hp => hp rfl) _
      exact hkeep.settled h (hother hnz)
    · cases hpath
      have hkeep : KeepsEnds (· ≠ p) s (s.setProc p fun r => { r with state := .running }) := .setProc (fun hp => hp rfl) _
      exact hkeep.settled h (hother hnz)
    next signo hact =>
      rw [ProcSys.signalEnd_eq] at hpath
      have hkeep : KeepsEnds (· ≠ p) s t := .procExit (fun hp => hp rfl) hpath
      exact hkeep.settled h (hother hnz)
    · cases hpath
      exact h
    · cases hpath
      exact h

/-! ## What the status tells

Both the codes and the signals are small numbers in the second byte, which is what the macros take for an exit.
-/

/-- The macros on what `proc_exit` stores. -/
theorem told_iff (how : Ending) : how.Told ((how.code % 256).toNat * 256) ↔ ∃ code, how = .exited code := by
  have hlow : ∀ k : Nat, k * 256 &&& 0x7f = 0 := by
    intro k
    rw [show (0x7f : Nat) = 2 ^ 7 - 1 from rfl, Nat.and_two_pow_sub_one_eq_mod]
    omega
  cases how with
  | exited code =>
    refine iff_of_true ⟨?_, ?_⟩ ⟨code, rfl⟩
    · rw [wifexited, hlow]
      rfl
    · rw [wexitstatus, show (0xff : Nat) = 2 ^ 8 - 1 from rfl, Nat.and_two_pow_sub_one_eq_mod, Nat.shiftRight_eq_div_pow,
        Ending.code]
      omega
  | signalled signo =>
    refine iff_of_false ?_ nofun
    rintro ⟨hsig, -⟩
    rw [wifsignaled, hlow] at hsig
    cases hsig

/-- A process that ends is there. -/
theorem EndEvent.live_of_ends {s : ProcSys} {e : EndEvent} {c : ProcPtr} {how : Ending} (he : e.Enabled s)
    (h : e.ends = some (c, how)) : s.live c = true := by
  cases e with
  | call e =>
    cases e with
    | exit p code =>
      cases h
      exact he.1
    | fork p env => cases h
    | wait p target wnohang => cases h
  | handle p sig ctx =>
    rw [ends] at h
    split at h
    · cases h
      exact he.1
    · cases h

/-- What the scan of `proc_wait` finds is there. -/
theorem TreeInv.live_of_waitScan {s : ProcSys} {L : TreeAddr → List TreeAddr} {p d : ProcPtr} {target : Int} {has : Bool}
    (h : TreeInv s L)
    (hscan : s.waitScan p target (s.births + 1) (s.mem.next (.children p)) false = some (some d, has)) : s.live d = true := by
  obtain ⟨found, has', hscan', -, hfound, -⟩ := h.waitScan p target (L (.children p)) [] (s.births + 1) false
    rfl (Nat.lt_succ_of_le (h.length_children_le p))
  rw [← h.lists.next_head (show TreeAddr.IsHead (.children p) from trivial), hscan] at hscan'
  cases hscan'
  obtain ⟨c, hc, hlive, -⟩ := h.child p _ (hfound d rfl).1
  cases hc
  exact hlive

/-- **The status that `proc_wait` hands over** for a process tells how it ended exactly if the process ended by a system
    call, whatever happens between its end and its reaping. -/
theorem wait_status_iff (idle init : ProcPtr) (hne : idle ≠ init) (s₀ s s₁ s₂ s₃ : ProcSys)
    (hboot : procBoot idle init = some s₀) (es es' : List EndEvent) (e : EndEvent) (c : ProcPtr) (how : Ending)
    (hrun : Run EndStep s₀ es s) (hstep : EndStep s e s₁) (hends : e.ends = some (c, how)) (hrun' : Run EndStep s₁ es' s₂)
    (p : ProcPtr) (target : Int) (wnohang : Bool) (pid status : Nat)
    (hwait : s₂.procWait p target wnohang = some (.reaped pid status, s₃))
    (hreaped : s₃.reaped = s₂.reaped ++ [(s.procs c).serial]) :
    how.Told status ↔ ∃ code, how = .exited code := by
  obtain ⟨s₀', L₀, hboot', hinv₀, -⟩ := procInv_procBoot hne
  obtain rfl : s₀' = s₀ := Option.some.inj (hboot'.symm.trans hboot)
  have hinv : ∀ {u es}, Run EndStep s₀' es u → ∃ L, ProcInv u L idle init := by
    intro u es hu
    refine hu.invariant (fun u => ∃ L, ProcInv u L idle init) ⟨L₀, hinv₀⟩ ?_
    rintro u e v ⟨L, h⟩ hs
    exact h.endStep hs
  have hpath := hstep.2
  rw [EndEvent.path_of_ends hends] at hpath
  obtain ⟨hlive, hserial, hzombie, hcode⟩ := ProcSys.procExit_own hpath
  have hsettled : Settled c (s.procs c).serial ((how.code % 256).toNat * 256) s₂ := by
    refine hrun'.invariant _ (.inr ⟨?_, hserial, hzombie, hcode⟩) fun u e v h hs => h.step hs
    rw [hlive]
    exact EndEvent.live_of_ends hstep.1 hends
  obtain ⟨L, h⟩ := hinv ((hrun.tail hstep).trans hrun')
  rcases ProcSys.procWait_inv hwait with ⟨-, hno⟩ | ⟨d, has, hscan, hw, -, -, hreaped'⟩
  · exact absurd rfl (hno pid status)
  · have hd := h.tree.live_of_waitScan hscan
    -- the zombie that is reaped is the process that has ended
    have hsame : (s₂.procs d).serial = (s.procs c).serial := by
      rw [hreaped'] at hreaped
      exact List.singleton_inj.mp (List.append_cancel_left hreaped)
    rcases hsettled with hgone | ⟨hc, hserial', -, hcode'⟩
    · exact absurd hgone (hsame ▸ h.tree.reaped_gone d hd)
    · obtain rfl : d = c := h.tree.serial_inj d c hd hc (hsame.trans hserial'.symm)
      obtain ⟨-, rfl⟩ := ProcSys.Waited.reaped.inj hw
      rw [hcode']
      exact told_iff how

/-- The child of `waitParent` gets to its end. -/
def endedChild (e : EndEvent) : ProcSys := (e.path waitParent).getD waitParent

theorem waitParent_run : ∃ s₀ es, procBoot 10 20 = some s₀ ∧ Run EndStep s₀ es waitParent := by
  obtain ⟨s₀, hboot⟩ := Option.isSome_iff_exists.mp (show (procBoot 10 20).isSome by decide +kernel)
  have hs₀ : s₀ = (procBoot 10 20).getD procInit := by rw [hboot]; rfl
  have he : (ProcEvent.fork 20 ⟨some 30, true, true, true⟩).Enabled s₀ := by
    rw [hs₀]
    decide +kernel
  have hpath : ((ProcEvent.fork 20 ⟨some 30, true, true, true⟩).path s₀).isSome := by
    rw [hs₀]
    decide +kernel
  obtain ⟨t, ht⟩ := Option.isSome_iff_exists.mp hpath
  have hparent : waitParent = t := by rw [waitParent, ← hs₀, ht, Option.getD_some]
  refine ⟨s₀, [.call (.fork 20 ⟨some 30, true, true, true⟩)], hboot, ?_⟩
  rw [hparent]
  exact .single ⟨he, ht⟩

theorem endedChild_step {e : EndEvent} (he : e.Enabled waitParent) (hs : (e.path waitParent).isSome) :
    EndStep waitParent e (endedChild e) := by
  obtain ⟨t, ht⟩ := Option.isSome_iff_exists.mp hs
  rw [endedChild, ht]
  exact ⟨he, ht⟩

/-- The child exits with 3, and its parent waits. -/
theorem wait_status_exited : ∃ pid status s₃,
    (endedChild (.call (.exit 30 3))).procWait 20 (-1) false = some (.reaped pid status, s₃) ∧
      (Ending.exited 3).Told status := by
  obtain ⟨s₀, es, hboot, hrun⟩ := waitParent_run
  have hstep : EndStep waitParent (.call (.exit 30 3)) (endedChild (.call (.exit 30 3))) := by
    refine endedChild_step ?_ (by decide +kernel)
    show (ProcEvent.exit 30 3).Enabled waitParent
    decide +kernel
  have hanswer : ((endedChild (.call (.exit 30 3))).procWait 20 (-1) false).map (fun r => (r.1, r.2.reaped)) =
      some (.reaped 3 768, (endedChild (.call (.exit 30 3))).reaped ++ [(waitParent.procs 30).serial]) := by
    decide +kernel
  obtain ⟨⟨w, s₃⟩, hwait, hanswer⟩ := Option.map_eq_some_iff.mp hanswer
  obtain ⟨rfl, hreaped⟩ := Prod.mk.inj hanswer
  exact ⟨3, 768, s₃, hwait, (wait_status_iff 10 20 (by decide) s₀ waitParent _ _ s₃ hboot es [] _ 30 (.exited 3) hrun hstep rfl
    .refl 20 (-1) false 3 768 hwait hreaped).mpr ⟨3, rfl⟩⟩

/-- SIGTERM is pending, and not caught. -/
def termPending : SigProc := { SigProc.init with state := .running, sigPending := sigBit 15 }

/-- **A child that SIGTERM ends** looks like one that has exited with 15. -/
theorem wait_status_signalled :
    (∃ s₀ es, procBoot 10 20 = some s₀ ∧ Run EndStep s₀ es waitParent) ∧
    EndStep waitParent (.handle 30 termPending (SigProc.ctxAt 0x2B 0x7FFFFFFF0000))
      (endedChild (.handle 30 termPending (SigProc.ctxAt 0x2B 0x7FFFFFFF0000))) ∧
    (EndEvent.handle 30 termPending (SigProc.ctxAt 0x2B 0x7FFFFFFF0000)).ends = some (30, .signalled 15) ∧
    ∃ status, ((endedChild (.handle 30 termPending (SigProc.ctxAt 0x2B 0x7FFFFFFF0000))).procWait 20 (-1) false).map Prod.fst =
      some (.reaped 3 status) ∧ ¬(Ending.signalled 15).Told status ∧ (Ending.exited 15).Told status := by
  refine ⟨waitParent_run, endedChild_step ⟨?_, ?_⟩ ?_, ?_, 3840, ?_, ?_, ?_⟩
  · decide +kernel
  · decide +kernel
  · decide +kernel
  · have hact : (termPending.signalHandle (SigProc.ctxAt 0x2B 0x7FFFFFFF0000)).2.2 = .exit 15 := by decide +kernel
    rw [EndEvent.ends, hact]
  · decide +kernel
  · rintro ⟨h, -⟩
    exact absurd h (by decide)
  · exact ⟨by decide, by decide⟩

end MyUnix.Proc
