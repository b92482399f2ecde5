import MyUnix.Proc.Signal
import MyUnix.Proc.WaitWake

/-!
# `Proc.SendSignals` — signals to a pid, to a group, to the parent

`sys_kill` sends to one process, which it finds in the pid table, or to a group, for which it walks the list of all
processes; `proc_exit` sends to the parent. Here they work on the process tree of `Proc.ProcTable` while processes fork,
exit and are reaped. What is sent is taken again by `signal_handle`, one signal at a time.

Nothing in the kernel changes the group of a process: `proc_create` makes a group for each process, and children inherit
it. So the groups are those of the two processes that boot creates, and `kill(-1, …)`, which sends to the group 0, sends
to nobody.

Whom a call names is said on the pid table and on the groups before the call (`Named`), and what it does to them is
`Sent`: those and nobody else have the signal pending. The walk over the list of all processes visits each process
once, by the invariant of the tree.

The second result looks back: a pending bit has a cause, the last event that sent the signal, with no event since that
took it. It is `Run.since_iff` for each signal and each process, with `Sends` and `Takes` read off the events.
-/

namespace MyUnix.Proc

open Arch Lib

/-- The processes, and what `signal_send` and `signal_handle` read and write. The state of a process is the one in
    `tree`. -/
structure SendSys where
  tree : ProcSys
  sigs : ProcPtr → SigProc

namespace SendSys

variable (s : SendSys)

/-- The process as the functions on signals see it. -/
def proc (p : ProcPtr) : SigProc := { s.sigs p with state := (s.tree.procs p).state }

/-- What was done to the signals of `p` is kept. -/
def store (p : ProcPtr) (x : SigProc) : SendSys where
  tree := s.tree.setProc p fun r => { r with state := x.state }
  sigs := Function.update s.sigs p x

/-- `signal_send`: what it returns, and what `SigProc.signalSend` does. -/
def signalSend (target : ProcPtr) (signo : Int) : Int × SendSys :=
  if signo ≤ 0 ∨ (nsig : Int) < signo then (-einval, s)
  else if (s.proc target).state = .zombie ∨ (s.proc target).state = .dead then (-esrch, s)
  else (0, s.store target ((s.proc target).signalSend signo.toNat))

/-- `signal_send_pid`. The reference that `pid_to_proc` takes is given back. -/
def signalSendPid (pid signo : Int) : Int × SendSys :=
  match s.tree.pidToProc pid.toNat with
  | none => (-esrch, s)
  | some p => s.signalSend p signo

/-- The loop of `signal_send_group`, at `pos`. -/
def groupFrom (pgid signo : Int) : Nat → SendSys → Option TreeAddr → Option SendSys
  | 0,        _, _   => none
  | fuel + 1, s, pos =>
    if pos = some .allProcs then some s
    else match pos with
      | some (.allList p) =>
        let t := if ((s.tree.procs p).pgid : Int) = pgid then (s.signalSend p signo).2 else s
        groupFrom pgid signo fuel t (t.tree.mem.next (.allList p))
      | _ => none

/-- `signal_send_group`: it always returns 0. -/
def signalSendGroup (pgid signo : Int) : Option (Int × SendSys) :=
  (groupFrom pgid signo (s.tree.births + 1) s (s.tree.mem.next .allProcs)).map fun t => (0, t)

/-- **`sys_kill`** of the process `cur`; both arguments are cut to an `int`. -/
def sysKill (cur : ProcPtr) (pid signo : Word) : Option (Int × SendSys) :=
  let pid := (pid.setWidth 32).toInt
  let signo := (signo.setWidth 32).toInt
  if 0 < pid then some (s.signalSendPid pid signo)
  else if pid = 0 then s.signalSendGroup (s.tree.procs cur).pgid signo
  else if pid = -1 then s.signalSendGroup 0 signo
  else s.signalSendGroup (-pid) signo

/-- `proc_exit`, with the signal to the parent. -/
def procExit (p : ProcPtr) (code : Int) : Option SendSys := do
  let tree ← s.tree.procExit p code
  let s : SendSys := { s with tree }
  match (tree.procs p).parent with
  | none => pure s
  | some parent => pure (s.signalSend parent sigchld).2

/-- `signal_handle`, which leads to `proc_exit` for the signals that end a process. -/
def handle (p : ProcPtr) (ctx : CpuContext) : Option SendSys :=
  let (x, _, act) := (s.proc p).signalHandle ctx
  match act with
  | .exit signo => (s.store p { x with state := (s.proc p).state }).procExit p signo
  | _ => some (s.store p x)

/-- The process exists and has not exited. -/
def Alive (p : ProcPtr) : Prop := s.tree.live p = true ∧ (s.tree.procs p).state ≠ .zombie ∧ (s.tree.procs p).state ≠ .dead

instance (p : ProcPtr) : Decidable (s.Alive p) := inferInstanceAs (Decidable (_ ∧ _))

end SendSys

/-- The calls by which a process changes its own handlers and masks. -/
def SigEvent.OwnCall : SigEvent → Bool
  | .rtSigaction .. | .rtSigprocmask .. | .restoreMask _ | .exec _ => true
  | _ => false

/-- A step on the processes, a `kill`, or signals that are handled. -/
inductive SendEvent where
  | proc (e : ProcEvent)
  | kill (p : ProcPtr) (pid signo : Word)
  | handle (p : ProcPtr) (ctx : CpuContext)
  | own (e : SigEvent)
  | sched (p : ProcPtr) (state : ProcState)

/-- **One step of the system.** The scheduler may give a process any state but the last two. -/
def sendStep (s : SendSys) : SendEvent → Option SendSys
  | .proc (.fork p env) =>
    if (ProcEvent.fork p env).Enabled s.tree then
      (s.tree.procFork p env).map fun (child, tree) =>
        { tree, sigs := child.elim s.sigs fun c => Function.update s.sigs c (s.sigs p).forked }
    else none
  | .proc (.exit p code) => if (ProcEvent.exit p code).Enabled s.tree then s.procExit p code else none
  | .proc (.wait p target wnohang) =>
    if (ProcEvent.wait p target wnohang).Enabled s.tree then
      (s.tree.procWait p target wnohang).map fun (_, tree) => { s with tree }
    else none
  | .kill p pid signo => if s.Alive p then (s.sysKill p pid signo).map Prod.snd else none
  | .handle p ctx => if s.Alive p then s.handle p ctx else none
  | .own e => if e.OwnCall then some { s with sigs := sigStep s.sigs e } else none
  | .sched p state =>
    if s.Alive p ∧ state ≠ .zombie ∧ state ≠ .dead then
      some { s with tree := s.tree.setProc p fun r => { r with state } }
    else none

/-- After boot. -/
def sendBoot (tree : ProcSys) : SendSys := ⟨tree, fun _ => SigProc.init⟩

/-! ## What a signal changes

`signal_send` writes one bit and may wake a sleeper, so the tree and the groups are not touched.
-/

/-- Only signals and states have changed: those that `dest` names have been sent `signo`. -/
structure Sent (s t : SendSys) (signo : Int) (dest : ProcPtr → Prop) : Prop where
  tree : ∃ st : ProcPtr → ProcState, t.tree = { s.tree with procs := fun p => { s.tree.procs p with state := st p } }
  sent : ∀ c, dest c → t.proc c = (s.proc c).signalSend signo.toNat
  keep : ∀ c, ¬dest c → t.proc c = s.proc c

theorem SigProc.signalSend_state (p : SigProc) (signo : Nat) :
    ((p.signalSend signo).state = .zombie ↔ p.state = .zombie) ∧ ((p.signalSend signo).state = .dead ↔ p.state = .dead) := by
  rw [SigProc.signalSend]
  split
  · exact ⟨.rfl, .rfl⟩
  split
  · exact ⟨.rfl, .rfl⟩
  · simp only
    split
    next h => simp [h]
    next => exact ⟨.rfl, .rfl⟩

theorem SendSys.proc_store (s : SendSys) (p : ProcPtr) (x : SigProc) (c : ProcPtr) :
    (s.store p x).proc c = if c = p then x else s.proc c := by
  by_cases hc : c = p
  · subst hc
    simp [SendSys.proc, SendSys.store, ProcSys.setProc]
  · simp [SendSys.proc, SendSys.store, ProcSys.setProc, hc]

namespace Sent

variable {s t u : SendSys} {signo : Int} {d d' : ProcPtr → Prop} {L : TreeAddr → List TreeAddr} {idle init : ProcPtr}

theorem nobody (s : SendSys) (signo : Int) (hd : ∀ c, ¬d c) : Sent s s signo d :=
  ⟨⟨fun p => (s.tree.procs p).state, rfl⟩, fun c hc => absurd hc (hd c), fun _ _ => rfl⟩

theorem congr (h : Sent s t signo d) (hd : ∀ c, d c ↔ d' c) : Sent s t signo d' :=
  ⟨h.tree, fun c hc => h.sent c ((hd c).mpr hc), fun c hc => h.keep c fun hdc => hc ((hd c).mp hdc)⟩

theorem trans (h : Sent s t signo d) (h' : Sent t u signo d') (hdis : ∀ c, d c → ¬d' c) :
    Sent s u signo fun c => d c ∨ d' c where
  tree := by
    obtain ⟨st, ht⟩ := h.tree
    obtain ⟨st', hu⟩ := h'.tree
    refine ⟨st', ?_⟩
    rw [hu, ht]
  sent c hc := by
    rcases hc with hc | hc
    · rw [h'.keep c (hdis c hc), h.sent c hc]
    · rw [h'.sent c hc, h.keep c fun hdc => hdis c hdc hc]
  keep c hc := by
    rw [h'.keep c fun hdc => hc (.inr hdc), h.keep c fun hdc => hc (.inl hdc)]

/-- `signal_send` sends to its target only, or, when it returns an error, to nobody. -/
theorem one (s : SendSys) (p : ProcPtr) (signo : Int) : Sent s (s.signalSend p signo).2 signo (· = p) := by
  have hsame : (s.proc p).signalSend signo.toNat = s.proc p → Sent s s signo (· = p) := by
    intro h
    refine ⟨⟨fun p => (s.tree.procs p).state, rfl⟩, ?_, fun _ _ => rfl⟩
    rintro c rfl
    exact h.symm
  rw [SendSys.signalSend]
  split
  next hbad =>
    rw [nsig] at hbad
    exact hsame (by rw [SigProc.signalSend, if_pos (by rw [nsig]; omega)])
  next hbad =>
    split
    next hgone => exact hsame (by rw [SigProc.signalSend, if_neg (by rw [nsig] at *; omega), if_pos hgone])
    next =>
      refine ⟨⟨fun c => if c = p then ((s.proc p).signalSend signo.toNat).state else (s.tree.procs c).state, ?_⟩, ?_, ?_⟩
      · have hprocs : (s.tree.setProc p fun r => { r with state := ((s.proc p).signalSend signo.toNat).state }).procs =
            fun c => { s.tree.procs c with
              state := if c = p then ((s.proc p).signalSend signo.toNat).state else (s.tree.procs c).state } := by
          funext c
          by_cases hc : c = p
          · subst hc
            simp [ProcSys.setProc]
          · simp [ProcSys.setProc, hc]
        rw [← hprocs]
        rfl
      · rintro c rfl
        rw [SendSys.proc_store, if_pos rfl]
      · intro c hc
        rw [SendSys.proc_store, if_neg hc]

theorem state_iff (h : Sent s t signo d) (c : ProcPtr) : ((t.tree.procs c).state = .zombie ↔ (s.tree.procs c).state = .zombie) ∧
    ((t.tree.procs c).state = .dead ↔ (s.tree.procs c).state = .dead) := by
  by_cases hc : d c
  · have := (s.proc c).signalSend_state signo.toNat
    rwa [← h.sent c hc] at this
  · have hk := congrArg SigProc.state (h.keep c hc)
    change (t.tree.procs c).state = (s.tree.procs c).state at hk
    rw [hk]
    exact ⟨.rfl, .rfl⟩

theorem treeInv (h : Sent s t signo d) (hs : TreeInv s.tree L) : TreeInv t.tree L ∧ SameProcs s.tree t.tree := by
  obtain ⟨st, ht⟩ := h.tree
  have hsame : SameProcs s.tree t.tree := by
    rw [ht]
    exact ⟨rfl, rfl, rfl, rfl, rfl, rfl, rfl, fun _ => rfl, fun _ => rfl, fun _ => rfl⟩
  refine ⟨hs.relink hsame ?_ rfl fun p x hx => ?_, hsame⟩
  · rw [ht]
    exact hs.lists
  · rw [ht]
    exact hs.child p x hx

theorem procInv (h : Sent s t signo d) (hs : ProcInv s.tree L idle init) : ProcInv t.tree L idle init where
  tree := (h.treeInv hs.tree).1
  childless p hz hi := by
    have hsame := (h.treeInv hs.tree).2
    exact hs.childless p ((h.state_iff p).1.mp hz) (hsame.initProc ▸ hi)
  pids := hs.pids.congr (h.treeInv hs.tree).2
  init := (h.treeInv hs.tree).2.initProc.trans hs.init
  idle := (h.treeInv hs.tree).2.idleProc.trans hs.idle

theorem pgid (h : Sent s t signo d) (c : ProcPtr) : (t.tree.procs c).pgid = (s.tree.procs c).pgid := by
  obtain ⟨st, ht⟩ := h.tree
  rw [ht]

theorem mem (h : Sent s t signo d) : t.tree.mem = s.tree.mem := by
  obtain ⟨st, ht⟩ := h.tree
  rw [ht]

end Sent

/-! ## The walk over all processes

The loop of `signal_send_group`, by induction on what is left of the list.
-/

/-- The process that a node is part of. -/
def TreeAddr.owner : TreeAddr → ProcPtr
  | .allProcs => 0
  | .allList p => p
  | .children p => p
  | .sibling p => p

/-- The list of all processes is no longer than the number of processes ever made. -/
theorem TreeInv.length_allProcs_le {s : ProcSys} {L : TreeAddr → List TreeAddr} (h : TreeInv s L) :
    (L .allProcs).length ≤ s.births := by
  have hnd : ((L .allProcs).map fun x => (s.procs x.owner).serial).Nodup := by
    refine List.Nodup.map_on (fun x hx y hy he => ?_) (h.lists.nodup .allProcs trivial)
    obtain ⟨c, rfl, hc⟩ := (h.all x).mp hx
    obtain ⟨c', rfl, hc'⟩ := (h.all y).mp hy
    exact congrArg _ (h.serial_inj c c' hc hc' he)
  have hsub : ((L .allProcs).map fun x => (s.procs x.owner).serial) ⊆ List.range s.births := by
    intro n hn
    obtain ⟨x, hx, rfl⟩ := List.mem_map.mp hn
    obtain ⟨c, rfl, hc⟩ := (h.all x).mp hx
    exact List.mem_range.mpr (h.serial_lt c hc)
  have hlen := hnd.length_le_of_subset hsub
  rwa [List.length_map, List.length_range] at hlen

namespace SendSys

variable {L : TreeAddr → List TreeAddr}

/-- The loop over what is left of the list sends to the members of the group on it. -/
theorem groupFrom_sent {pgid signo : Int} : ∀ (l xs : List TreeAddr) {fuel : Nat} {s : SendSys}, TreeInv s.tree L →
    L .allProcs = xs ++ l → l.length < fuel →
    ∃ t, groupFrom pgid signo fuel s (l ++ [TreeAddr.allProcs]).head? = some t ∧
      Sent s t signo fun c => .allList c ∈ l ∧ ((s.tree.procs c).pgid : Int) = pgid
  | [], _, fuel + 1, s, _, _, _ => by
    refine ⟨s, ?_, Sent.nobody s signo fun c hc => by simp at hc⟩
    rw [List.nil_append, List.head?_cons, groupFrom, if_pos rfl]
    intro p hp
    cases hp
  | x :: l, xs, fuel + 1, s, h, hL, hfuel => by
    obtain ⟨p, rfl, -⟩ := (h.all x).mp (by rw [hL]; simp)
    obtain ⟨t, ht⟩ : ∃ t, t = if ((s.tree.procs p).pgid : Int) = pgid then (s.signalSend p signo).2 else s := ⟨_, rfl⟩
    have hfirst : Sent s t signo fun c => c = p ∧ ((s.tree.procs p).pgid : Int) = pgid := by
      rw [ht]
      split
      next hp => exact (Sent.one s p signo).congr fun c => by simp [hp]
      next hp => exact Sent.nobody s signo fun c hc => hp hc.2
    have hnext : t.tree.mem.next (.allList p) = (l ++ [TreeAddr.allProcs]).head? := by
      rw [hfirst.mem]
      exact h.lists.next_eq (show TreeAddr.IsHead .allProcs from trivial) hL
    -- no process is on the list twice, so none is sent to twice
    have hnotin : TreeAddr.allList p ∉ l := by
      have hnd := h.lists.nodup .allProcs trivial
      rw [hL, List.nodup_append] at hnd
      exact (List.nodup_cons.mp hnd.2.1).1
    obtain ⟨u, hu, hrest⟩ := @groupFrom_sent pgid signo l (xs ++ [.allList p]) fuel t (hfirst.treeInv h).1
      (by rw [hL]; simp) (Nat.lt_of_succ_lt_succ hfuel)
    refine ⟨u, ?_, (hfirst.trans hrest ?_).congr fun c => ?_⟩
    · rw [List.cons_append, List.head?_cons, groupFrom, if_neg (by simp)]
      simp only
      rw [← ht, hnext]
      exact hu
    · rintro c ⟨rfl, -⟩ ⟨hc, -⟩
      exact hnotin hc
    · rw [hfirst.pgid c]
      by_cases hc : c = p
      · subst hc
        simp [hnotin]
      · simp [hc]

/-- **`signal_send_group`** walks to the end and sends to the processes of the group. -/
theorem signalSendGroup_sent (s : SendSys) (h : TreeInv s.tree L) (pgid signo : Int) :
    ∃ t, s.signalSendGroup pgid signo = some (0, t) ∧
      Sent s t signo fun c => s.tree.live c = true ∧ ((s.tree.procs c).pgid : Int) = pgid := by
  obtain ⟨t, ht, hsent⟩ := @groupFrom_sent L pgid signo (L .allProcs) [] (s.tree.births + 1) s h rfl
    (Nat.lt_succ_of_le h.length_allProcs_le)
  refine ⟨t, ?_, hsent.congr fun c => ?_⟩
  · rw [signalSendGroup, h.lists.next_head (show TreeAddr.IsHead .allProcs from trivial), ht]
    rfl
  · refine and_congr_left fun _ => (h.all (.allList c)).trans ?_
    exact ⟨fun ⟨p, hp, hlive⟩ => TreeAddr.allList.inj hp ▸ hlive, fun hlive => ⟨c, rfl, hlive⟩⟩

end SendSys

/-! ## Who is named

A positive number names a process through the table, in which init is not found under its own pid; other numbers name
groups.
-/

namespace SendSys

variable {L : TreeAddr → List TreeAddr} {idle init : ProcPtr}

/-- The process is in a state to be sent signals. -/
def Receives (s : SendSys) (p : ProcPtr) : Prop := (s.tree.procs p).state ≠ .zombie ∧ (s.tree.procs p).state ≠ .dead

instance (s : SendSys) (p : ProcPtr) : Decidable (s.Receives p) := inferInstanceAs (Decidable (_ ∧ _))

/-- **Whom `kill(pid, …)` of `cur` means**: the process with that pid, except that init is found under 2; the group of the
    caller; the group `-pid`. Nobody for -1. -/
def Named (s : SendSys) (init cur : ProcPtr) (pid : Int) (c : ProcPtr) : Prop :=
  s.tree.live c = true ∧
    (0 < pid ∧ (c ≠ init ∧ ((s.tree.procs c).pid : Int) = pid ∨ c = init ∧ pid = 2) ∨
      pid = 0 ∧ (s.tree.procs c).pgid = (s.tree.procs cur).pgid ∨
      pid < -1 ∧ ((s.tree.procs c).pgid : Int) = -pid)

theorem pidToProc_iff (s : SendSys) (h : ProcInv s.tree L idle init) {pid : Int} (hpos : 0 < pid) (cur c : ProcPtr) :
    s.tree.pidToProc pid.toNat = some c ↔ s.Named init cur pid c := by
  have hzero : ¬(pid = 0) ∧ ¬(pid < -1) := by omega
  have hinit : ∀ c, s.tree.initProc ≠ some c ↔ c ≠ init := by
    intro c
    rw [h.init]
    exact ⟨fun hne he => hne (congrArg some he.symm), fun hne he => hne (Option.some.inj he).symm⟩
  simp only [Named, hpos, hzero, true_and, false_and, or_false]
  constructor
  · intro hc
    rw [ProcSys.pidToProc] at hc
    split at hc
    · cases hc
    · obtain ⟨hlive, hpid⟩ := h.pids.only _ _ hc
      refine ⟨hlive, ?_⟩
      by_cases hci : c = init
      · subst hci
        have := (h.pids.init c h.init).2.2 _ hc
        exact .inr ⟨rfl, by omega⟩
      · have := hpid ((hinit c).mpr hci)
        exact .inl ⟨hci, by omega⟩
  · rintro ⟨hlive, ⟨hci, hpid⟩ | ⟨rfl, rfl⟩⟩
    · -- all but init stand in the table under their pid
      obtain ⟨htable, hlo, hhi⟩ := h.pids.own c hlive ((hinit c).mpr hci)
      have hnat : pid.toNat = (s.tree.procs c).pid := by omega
      rw [hnat, ProcSys.pidToProc, if_neg (by omega), htable]
    · exact (h.pids.init c h.init).2.1

/-- What `signal_send` returns. -/
theorem signalSend_fst (s : SendSys) (p : ProcPtr) (signo : Int) : (s.signalSend p signo).1 =
    if signo ≤ 0 ∨ (nsig : Int) < signo then -einval else if s.Receives p then 0 else -esrch := by
  rw [signalSend]
  split
  · rfl
  · by_cases hr : s.Receives p
    · rw [if_pos hr, if_neg (show ¬((s.proc p).state = .zombie ∨ (s.proc p).state = .dead) from not_or.mpr hr)]
    · have hgone : (s.proc p).state = .zombie ∨ (s.proc p).state = .dead := by
        by_contra hno
        exact hr (not_or.mp hno)
      rw [if_neg hr, if_pos hgone]

/-- **`sys_kill`** comes to an end and sends to those it names. Only for a positive number it says whether it did. -/
theorem sysKill_sent (s : SendSys) (h : ProcInv s.tree L idle init)
    (hgroups : ∀ p, s.tree.live p = true → 0 < (s.tree.procs p).pgid) (cur : ProcPtr) (pid signo : Word) :
    ∃ r t, s.sysKill cur pid signo = some (r, t) ∧
      Sent s t (signo.setWidth 32).toInt (s.Named init cur (pid.setWidth 32).toInt) ∧
      ((pid.setWidth 32).toInt ≤ 0 → r = 0) ∧
      (0 < (pid.setWidth 32).toInt → (∀ c, ¬s.Named init cur (pid.setWidth 32).toInt c) → r = -esrch) ∧
      ∀ c, 0 < (pid.setWidth 32).toInt → s.Named init cur (pid.setWidth 32).toInt c →
        r = if (signo.setWidth 32).toInt ≤ 0 ∨ (nsig : Int) < (signo.setWidth 32).toInt then -einval
          else if s.Receives c then 0 else -esrch := by
  rw [sysKill]
  generalize (pid.setWidth 32).toInt = pid
  generalize (signo.setWidth 32).toInt = signo
  by_cases hpos : 0 < pid
  · rw [if_pos hpos, signalSendPid]
    cases hp : s.tree.pidToProc pid.toNat with
    | none =>
      have hnobody : ∀ c, ¬s.Named init cur pid c := by
        intro c hc
        rw [(s.pidToProc_iff h hpos cur c).mpr hc] at hp
        cases hp
      exact ⟨_, _, rfl, .nobody s signo hnobody, fun hle => by omega, fun _ _ => rfl, fun c _ hc => absurd hc (hnobody c)⟩
    | some p =>
      have hp' := (s.pidToProc_iff h hpos cur p).mp hp
      have honly : ∀ c, c = p ↔ s.Named init cur pid c := by
        intro c
        rw [← s.pidToProc_iff h hpos cur c, hp, Option.some.injEq, eq_comm]
      refine ⟨_, _, rfl, (Sent.one s p signo).congr honly, fun hle => by omega, fun _ hno => absurd hp' (hno p), ?_⟩
      intro c _ hc
      obtain rfl := (honly c).mpr hc
      exact s.signalSend_fst c signo
  · -- the groups
    have hgroup : ∀ pgid : Int, (∀ c, s.tree.live c = true → (((s.tree.procs c).pgid : Int) = pgid ↔
        s.Named init cur pid c)) → ∃ r t, s.signalSendGroup pgid signo = some (r, t) ∧
          Sent s t signo (s.Named init cur pid) ∧ r = 0 := by
      intro pgid hpgid
      obtain ⟨t, ht, hsent⟩ := s.signalSendGroup_sent h.tree pgid signo
      refine ⟨0, t, ht, hsent.congr fun c => ⟨fun hc => (hpgid c hc.1).mp hc.2, fun hc => ⟨hc.1, (hpgid c hc.1).mpr hc⟩⟩, rfl⟩
    have hend : ∀ {o : Option (Int × SendSys)}, (∃ r t, o = some (r, t) ∧ Sent s t signo (s.Named init cur pid) ∧ r = 0) →
        ∃ r t, o = some (r, t) ∧ Sent s t signo (s.Named init cur pid) ∧ (pid ≤ 0 → r = 0) ∧
          (0 < pid → (∀ c, ¬s.Named init cur pid c) → r = -esrch) ∧ ∀ c, 0 < pid → s.Named init cur pid c →
            r = if signo ≤ 0 ∨ (nsig : Int) < signo then -einval else if s.Receives c then 0 else -esrch := by
      rintro o ⟨r, t, ho, hsent, hr⟩
      exact ⟨r, t, ho, hsent, fun _ => hr, fun h => absurd h hpos, fun _ h => absurd h hpos⟩
    rw [if_neg hpos]
    apply hend
    by_cases hzero : pid = 0
    · rw [if_pos hzero]
      refine hgroup _ fun c hc => ?_
      simp [Named, hc, hzero, Int.ofNat_inj]
    · rw [if_neg hzero]
      by_cases hone : pid = -1
      · rw [if_pos hone]
        refine hgroup _ fun c hc => ?_
        have := hgroups c hc
        refine iff_of_false (by omega) ?_
        rintro ⟨-, hc | hc | hc⟩
        · exact hpos hc.1
        · exact hzero hc.1
        · exact absurd hc.1 (by omega)
      · rw [if_neg hone]
        refine hgroup _ fun c hc => ?_
        have hneg : pid < -1 := by omega
        simp [Named, hc, hpos, hzero, hneg]

end SendSys

/-! ## Steps

What an event sends, and what it takes: `signal_handle` takes the signal that it selects, and a process that is made
has none.
-/

namespace SigProc

/-- The selected signal has a handler, and its frame does not fit the user stack. -/
def FrameFaults (p : SigProc) (ctx : CpuContext) : Prop :=
  p.deliverable ≠ 0#64 ∧ (p.sigHandlers p.selected).handler ≠ sigIgn ∧ (p.sigHandlers p.selected).handler ≠ sigDfl ∧
    ctx.cs &&& 3#64 = 3#64 ∧ accessOk (sigframeAt ctx) sigframeSize = false

/-- **What `signal_handle` does**: nothing, or it takes the selected signal. Then it sends SIGSEGV where the frame does not
    fit, and otherwise no state it gives the process is that of a zombie, except on the way to `proc_exit`. -/
theorem signalHandle_cases (p : SigProc) (ctx : CpuContext) :
    p.deliverable = 0#64 ∧ p.signalHandle ctx = (p, ctx, .nothing) ∨
    p.FrameFaults ctx ∧ p.signalHandle ctx =
      (({ p with sigPending := p.sigPending &&& ~~~(sigBit p.selected) } : SigProc).signalSend sigsegv, ctx, .nothing) ∨
    p.deliverable ≠ 0#64 ∧ ¬p.FrameFaults ctx ∧
      (p.signalHandle ctx).1.sigPending = p.sigPending &&& ~~~(sigBit p.selected) ∧
      ((∃ signo, (p.signalHandle ctx).2.2 = .exit signo) ∨ (p.signalHandle ctx).1.state = p.state ∨
        (p.signalHandle ctx).1.state = .stopped ∨ (p.signalHandle ctx).1.state = .running) := by
  by_cases hd : p.deliverable = 0#64
  · exact .inl ⟨hd, by rw [signalHandle, if_pos hd]⟩
  by_cases hign : (p.sigHandlers p.selected).handler = sigIgn
  · refine .inr (.inr ⟨hd, fun h => h.2.1 hign, ?_⟩)
    rw [signalHandle, if_neg hd]
    simp only [if_pos hign]
    exact ⟨trivial, .inr (.inl trivial)⟩
  by_cases hdfl : (p.sigHandlers p.selected).handler = sigDfl
  · refine .inr (.inr ⟨hd, fun h => h.2.2.1 hdfl, ?_⟩)
    rw [signalHandle, if_neg hd]
    simp only [if_neg hign, if_pos hdfl]
    split
    · exact ⟨rfl, .inr (.inr (.inl rfl))⟩
    · exact ⟨rfl, .inr (.inr (.inr rfl))⟩
    · exact ⟨rfl, .inl ⟨_, rfl⟩⟩
    · exact ⟨rfl, .inr (.inl rfl)⟩
  -- a handler
  have hcall : p.signalHandle ctx =
      ({ p with sigPending := p.sigPending &&& ~~~(sigBit p.selected) } : SigProc).callHandler p.selected ctx := by
    rw [signalHandle, if_neg hd]
    simp only [if_neg hign, if_neg hdfl]
  rw [hcall, callHandler]
  by_cases hmode : ctx.cs &&& 3#64 = 3#64
  · cases hok : accessOk (sigframeAt ctx) sigframeSize with
    | true =>
      refine .inr (.inr ⟨hd, fun h => ?_, ?_⟩)
      · obtain ⟨-, -, -, -, hbad⟩ := h
        rw [hok] at hbad
        cases hbad
      · simp only [hmode, ne_eq, not_true_eq_false, if_false, Bool.not_true, Bool.false_eq_true]
        exact ⟨trivial, .inr (.inl trivial)⟩
    | false =>
      refine .inr (.inl ⟨⟨hd, hign, hdfl, hmode, hok⟩, ?_⟩)
      simp only [hmode, ne_eq, not_true_eq_false, if_false, Bool.not_false, if_true]
  · refine .inr (.inr ⟨hd, fun h => hmode h.2.2.2.1, ?_⟩)
    simp only [ne_eq, hmode, not_false_eq_true, if_true]
    exact ⟨trivial, .inr (.inl trivial)⟩

theorem signalHandle_pending {p : SigProc} (ctx : CpuContext) (hst : p.state ≠ .zombie ∧ p.state ≠ .dead) {n : Nat}
    (hlo : 1 ≤ n) (hhi : n ≤ nsig) : (p.signalHandle ctx).1.Pending n ↔
      n = sigsegv ∧ p.FrameFaults ctx ∨ p.Pending n ∧ ¬(p.deliverable ≠ 0#64 ∧ p.selected = n) := by
  have hclear : p.deliverable ≠ 0#64 → ((p.sigPending &&& ~~~(sigBit p.selected)).getLsbD (n - 1) = true ↔
      p.Pending n ∧ ¬(p.deliverable ≠ 0#64 ∧ p.selected = n)) := by
    intro hd
    obtain ⟨hselLo, hselHi, -⟩ := selected_spec hd
    rw [pending_clear hselLo hselHi _ (by rw [nsig] at hhi; omega), Bool.and_eq_true, decide_eq_true_eq, Pending]
    exact and_congr_right fun _ => ⟨fun h he => h (by omega), fun h he => h ⟨hd, by omega⟩⟩
  rcases p.signalHandle_cases ctx with ⟨hd, hh⟩ | ⟨hfault, hh⟩ | ⟨hd, hnot, hh, -⟩
  · rw [hh]
    simp [FrameFaults, hd]
  · rw [hh, Pending, signalSend_pending (by decide) (by decide), Bool.or_eq_true, hclear hfault.1, Bool.and_eq_true,
      decide_eq_true_eq, decide_eq_true_eq]
    have hsegv : n - 1 = sigsegv - 1 ↔ n = sigsegv := by
      rw [sigsegv]
      omega
    rw [hsegv]
    exact ⟨fun h => h.elim .inr fun h => .inl ⟨h.1, hfault⟩, fun h => h.elim (fun h => .inr ⟨h.1, hst⟩) .inl⟩
  · rw [Pending, hh, hclear hd]
    exact ⟨.inr, fun h => h.elim (fun h => absurd h.2 hnot) id⟩

end SigProc

/-- The calls of a process on its own handlers and masks leave what is pending. -/
theorem sigStep_own {e : SigEvent} (he : e.OwnCall = true) (s : SigSys) (c : ProcPtr) :
    (sigStep s e c).sigPending = (s c).sigPending := by
  have hupdate : ∀ (p : ProcPtr) (x : SigProc), x.sigPending = (s p).sigPending →
      (Function.update s p x c).sigPending = (s c).sigPending := by
    intro p x hx
    by_cases hc : c = p
    · rw [hc, Function.update_self, hx]
    · rw [Function.update_of_ne hc]
  cases e with
  | rtSigaction p user signo actPtr oldactPtr => exact hupdate p _ rfl
  | rtSigprocmask p user how setPtr oldsetPtr => exact hupdate p _ rfl
  | send p signo => cases he
  | handle p ctx => cases he
  | restoreMask p => exact hupdate p _ rfl
  | fork p child => cases he
  | exec p => exact hupdate p _ rfl

theorem Sent.pending_iff {s t : SendSys} {signo : Int} {d : ProcPtr → Prop} (h : Sent s t signo d) {n : Nat} (hlo : 1 ≤ n)
    (hhi : n ≤ nsig) (c : ProcPtr) :
    (t.proc c).Pending n ↔ (s.proc c).Pending n ∨ d c ∧ signo = n ∧ s.Receives c := by
  by_cases hd : d c
  · rw [h.sent c hd]
    by_cases hbad : signo ≤ 0 ∨ (nsig : Int) < signo
    · have hne : signo ≠ n := by
        rw [nsig] at *
        omega
      rw [SigProc.signalSend, if_pos (by rw [nsig] at *; omega)]
      simp [hne]
    · have hbit : n - 1 = signo.toNat - 1 ↔ signo = n := by
        rw [nsig] at *
        omega
      rw [SigProc.Pending, SigProc.signalSend_pending (by omega) (by rw [nsig] at *; omega), Bool.or_eq_true,
        Bool.and_eq_true, decide_eq_true_eq, decide_eq_true_eq, hbit]
      simp only [hd, true_and]
      exact Iff.rfl
  · rw [h.keep c hd]
    simp [hd]

namespace SendSys

/-- `c` is the parent of `q` and hears of its end by `n`. -/
def ChildEnds (s : SendSys) (q c : ProcPtr) (n : Nat) : Prop :=
  n = sigchld ∧ (s.tree.procs q).parent = some c ∧ s.Receives c

end SendSys

/-- The event sends the signal `n` to `p`. -/
def Sends (init p : ProcPtr) (n : Nat) (s : SendSys) : SendEvent → Prop
  | .kill q pid signo =>
    (signo.setWidth 32).toInt = n ∧ s.Named init q (pid.setWidth 32).toInt p ∧ s.Receives p
  | .proc (.exit q _) => s.ChildEnds q p n
  | .handle q ctx =>
    (∃ signo, ((s.proc q).signalHandle ctx).2.2 = .exit signo) ∧ s.ChildEnds q p n ∨
      q = p ∧ n = sigsegv ∧ (s.proc p).FrameFaults ctx
  | _ => False

/-- The event takes the signal `n` from `p`: `signal_handle` selects it, or `p` is made anew. -/
def Takes (p : ProcPtr) (n : Nat) (s : SendSys) : SendEvent → Prop
  | .handle q _ => q = p ∧ (s.proc p).deliverable ≠ 0#64 ∧ (s.proc p).selected = n
  | .proc (.fork q env) => ∃ tree, s.tree.procFork q env = some (some p, tree)
  | _ => False

/-! ## The invariant

The tree, the groups that boot has made, and nothing pending for a process that does not exist.
-/

/-- What holds in every state. -/
structure SendInv (s : SendSys) (L : TreeAddr → List TreeAddr) (idle init : ProcPtr) : Prop where
  procs  : ProcInv s.tree L idle init
  groups : ∀ p, s.tree.live p = true → (s.tree.procs p).pgid = 1 ∨ (s.tree.procs p).pgid = 2
  self   : ∀ p, s.tree.live p = true → (s.tree.procs p).parent ≠ some p

namespace SendInv

variable {s t : SendSys} {L : TreeAddr → List TreeAddr} {idle init p q : ProcPtr} {e : SendEvent}

theorem sent {signo : Int} {d : ProcPtr → Prop} (h : SendInv s L idle init) (hs : Sent s t signo d) :
    SendInv t L idle init := by
  obtain ⟨st, ht⟩ := hs.tree
  refine ⟨hs.procInv h.procs, ?_, ?_⟩
  · rw [ht]
    exact h.groups
  · rw [ht]
    exact h.self

/-- A process changes its state, and does not become a zombie by it. -/
theorem setState (h : SendInv s L idle init) (p : ProcPtr) (st : ProcState)
    (hst : st = .zombie → (s.tree.procs p).state = .zombie) (sigs : ProcPtr → SigProc) :
    SendInv ⟨s.tree.setProc p fun r => { r with state := st }, sigs⟩ L idle init := by
  obtain ⟨htree, hsame⟩ := h.procs.tree.setProc p (f := fun r => { r with state := st }) fun _ => ⟨rfl, rfl, rfl, rfl, rfl⟩
  have hfields : ∀ q, ((s.tree.setProc p fun r => { r with state := st }).procs q).pgid = (s.tree.procs q).pgid ∧
      ((s.tree.setProc p fun r => { r with state := st }).procs q).parent = (s.tree.procs q).parent := by
    intro q
    by_cases hq : q = p
    · subst hq
      simp [ProcSys.setProc]
    · simp [ProcSys.setProc, hq]
  refine ⟨⟨htree, fun q hz hi => ?_, h.procs.pids.congr hsame, h.procs.init, h.procs.idle⟩, fun q hq => ?_, fun q hq => ?_⟩
  · refine h.procs.childless q ?_ hi
    by_cases hq : q = p
    · subst hq
      simp only [ProcSys.setProc, Function.update_self] at hz
      exact hst hz
    · simpa only [ProcSys.setProc, Function.update_of_ne hq] using hz
  · rw [(hfields q).1]
    exact h.groups q hq
  · rw [(hfields q).2]
    exact h.self q hq

/-! ## The calls, one by one

What each sends and takes, and that the invariant is kept.
-/

/-- `proc_exit` up to the signal to the parent, which is the one there was before. -/
theorem exitTree (h : SendInv s L idle init) (p : ProcPtr) (code : Int) :
    ∃ u L', s.tree.procExit p code = some u ∧ SendInv ⟨u, s.sigs⟩ L' idle init ∧
      (u.procs p).parent = (s.tree.procs p).parent ∧ ∀ c, c ≠ p → (u.procs c).state = (s.tree.procs c).state := by
  obtain ⟨u, L', hpath, hproc, -⟩ := h.procs.exit p code
  have hcode : s.tree.procExit p code = some u := hpath
  obtain ⟨u₁, -, hcode₁, -, hsame, -, -, hstate, -⟩ := h.procs.tree.procExit h.procs.init p code
  obtain rfl : u₁ = u := Option.some.inj (hcode₁.symm.trans hcode)
  have hrep := h.procs.tree.procExit_reparents h.procs.init hcode
  have hroot : ∀ q, TreeAddr.sibling init ∉ L (.children q) := by
    intro q hq
    obtain ⟨c, hc, -, -, hforked, -⟩ := h.procs.tree.child q _ hq
    cases hc
    rw [(h.procs.tree.roots init (.inl h.procs.init)).2] at hforked
    cases hforked
  refine ⟨u₁, L', hcode, ⟨hproc, fun q hq => ?_, fun q hq => ?_⟩, ?_, hstate⟩
  · rw [hrep.pgid q]
    exact h.groups q (hsame.live ▸ hq)
  · rcases hrep.parent q with hpar | ⟨hm, hpar⟩
    · rw [hpar]
      exact h.self q (hsame.live ▸ hq)
    · rw [hpar]
      intro hqi
      exact hroot p (Option.some.inj hqi ▸ hm)
  · rcases hrep.parent p with hp | ⟨hp, -⟩
    · exact hp
    · exact absurd hp (h.procs.tree.notOwn h.self p)

theorem procExit (h : SendInv s L idle init) (hp : s.tree.live p = true) (code : Int) :
    ∃ t L', s.procExit p code = some t ∧ SendInv t L' idle init ∧ ∀ c n, 1 ≤ n → n ≤ nsig →
      ((t.proc c).Pending n ↔ s.ChildEnds p c n ∨ (s.proc c).Pending n) := by
  obtain ⟨u, L', hcode, hinv, hparent, hstate⟩ := h.exitTree p code
  rw [SendSys.procExit, hcode]
  simp only [Option.bind_eq_bind, Option.bind_some, hparent]
  cases hpar : (s.tree.procs p).parent with
  | none =>
    refine ⟨_, L', rfl, hinv, fun c n _ _ => ?_⟩
    simp only [SendSys.ChildEnds, hpar, reduceCtorEq, false_and, and_false, false_or]
    exact Iff.rfl
  | some parent =>
    have hsent := Sent.one ⟨u, s.sigs⟩ parent sigchld
    refine ⟨_, L', rfl, hinv.sent hsent, fun c n hlo hhi => ?_⟩
    -- `p` is a zombie by now, but it is not its own parent
    have hne : parent ≠ p := by
      rintro rfl
      exact h.self parent hp hpar
    rw [hsent.pending_iff hlo hhi c, or_comm]
    refine or_congr ?_ Iff.rfl
    simp only [SendSys.ChildEnds, hpar, Option.some.injEq]
    constructor
    · rintro ⟨rfl, hn, hrec⟩
      refine ⟨by omega, rfl, ?_⟩
      rwa [SendSys.Receives, hstate c hne] at hrec
    · rintro ⟨hn, rfl, hrec⟩
      refine ⟨rfl, by omega, ?_⟩
      rwa [SendSys.Receives, hstate parent hne]

theorem fork {env : MakeEnv} (h : SendInv s L idle init) (hs : sendStep s (.proc (.fork q env)) = some t) :
    (∃ L', SendInv t L' idle init) ∧ ∀ p n, (t.proc p).Pending n ↔
      (s.proc p).Pending n ∧ ¬∃ tree, s.tree.procFork q env = some (some p, tree) := by
  obtain ⟨he, hs⟩ := Option.ite_none_right_eq_some.mp hs
  obtain ⟨⟨child, tree⟩, hfork, rfl⟩ := Option.map_eq_some_iff.mp hs
  obtain ⟨u, L', hpath, hproc, -⟩ := h.procs.fork he
  obtain rfl : tree = u := by
    rw [ProcEvent.path, hfork] at hpath
    exact Option.some.inj hpath
  obtain ⟨hlive, -, henv⟩ : s.tree.live q = true ∧ (s.tree.procs q).state ≠ .zombie ∧ ∀ c ∈ env.addr, s.tree.live c = false := he
  obtain ⟨r, n, halloc, -, -, hfree⟩ := h.procs.pids.pidAlloc
  rcases h.procs.tree.procFork hlive env henv halloc (fun pid hp => (hfree pid hp).1) with
    ⟨m, -, hcode⟩ | ⟨c, pid, t, hcode, -, hc, -, hprocs, hlive', -⟩
  · -- the fork has failed: nobody is new
    obtain ⟨rfl, rfl⟩ := Prod.mk.inj (Option.some.inj (hfork.symm.trans hcode))
    refine ⟨⟨L', hproc, h.groups, h.self⟩, fun p n => ?_⟩
    rw [hcode]
    simp only [Option.elim_none, Option.some.injEq, Prod.mk.injEq, reduceCtorEq, false_and, exists_false, not_false_eq_true,
      and_true]
    exact Iff.rfl
  · obtain ⟨rfl, rfl⟩ := Prod.mk.inj (Option.some.inj (hfork.symm.trans hcode))
    refine ⟨⟨L', hproc, fun p hp => ?_, fun p hp => ?_⟩, fun p n => ?_⟩
    · -- the child is in the group of its parent, and is not its own parent
      by_cases hpc : p = c
      · subst hpc
        simp only [hprocs, Function.update_self]
        exact h.groups q hlive
      · simp only [hlive', Function.update_of_ne hpc] at hp
        simp only [hprocs, Function.update_of_ne hpc]
        exact h.groups p hp
    · by_cases hpc : p = c
      · subst hpc
        simp only [hprocs, Function.update_self]
        intro hself
        rw [Option.some.inj hself, hc] at hlive
        cases hlive
      · simp only [hlive', Function.update_of_ne hpc] at hp
        simp only [hprocs, Function.update_of_ne hpc]
        exact h.self p hp
    · -- it starts with nothing pending, the others keep what they have
      have hchild : (∃ tree', s.tree.procFork q env = some (some p, tree')) ↔ p = c := by
        rw [hcode]
        constructor
        · rintro ⟨tree', htree'⟩
          exact (Option.some.inj (Prod.mk.inj (Option.some.inj htree')).1).symm
        · rintro rfl
          exact ⟨_, rfl⟩
      rw [hchild]
      simp only [SigProc.Pending, SendSys.proc, Option.elim_some]
      by_cases hpc : p = c
      · subst hpc
        simp [SigProc.forked]
      · simp only [Function.update_of_ne hpc, hpc, not_false_eq_true, and_true]

theorem wait {target : Int} {wnohang : Bool} (h : SendInv s L idle init)
    (hs : sendStep s (.proc (.wait q target wnohang)) = some t) : (∃ L', SendInv t L' idle init) ∧ t.sigs = s.sigs := by
  obtain ⟨-, hs⟩ := Option.ite_none_right_eq_some.mp hs
  obtain ⟨⟨w, tree⟩, hwait, rfl⟩ := Option.map_eq_some_iff.mp hs
  obtain ⟨u, L', hpath, hproc, -⟩ := h.procs.wait q target wnohang
  obtain rfl : tree = u := by
    rw [ProcEvent.path, hwait] at hpath
    exact Option.some.inj hpath
  refine ⟨?_, rfl⟩
  rcases h.procs.tree.procWait h.procs.childless q target wnohang with
    ⟨w', hcode⟩ | ⟨w', c, t', hcode, -, -, -, -, hprocs, hlive, -⟩
  · obtain ⟨-, rfl⟩ := Prod.mk.inj (Option.some.inj (hwait.symm.trans hcode))
    exact ⟨L', hproc, h.groups, h.self⟩
  · obtain ⟨-, rfl⟩ := Prod.mk.inj (Option.some.inj (hwait.symm.trans hcode))
    have hsub : ∀ p, tree.live p = true → s.tree.live p = true := by
      intro p hp
      rw [hlive] at hp
      by_cases hpc : p = c
      · subst hpc
        rw [Function.update_self] at hp
        cases hp
      · rwa [Function.update_of_ne hpc] at hp
    refine ⟨L', hproc, fun p hp => ?_, fun p hp => ?_⟩
    · simp only [hprocs]
      exact h.groups p (hsub p hp)
    · simp only [hprocs]
      exact h.self p (hsub p hp)

theorem handle {ctx : CpuContext} (h : SendInv s L idle init) (hs : sendStep s (.handle q ctx) = some t) :
    (∃ L', SendInv t L' idle init) ∧ ∀ p n, 1 ≤ n → n ≤ nsig →
      ((t.proc p).Pending n ↔ Sends init p n s (.handle q ctx) ∨ (s.proc p).Pending n ∧ ¬Takes p n s (.handle q ctx)) := by
  obtain ⟨⟨hlive, halive⟩, hs⟩ := Option.ite_none_right_eq_some.mp hs
  -- what is pending when the signal has been taken
  have hpending : ∀ x : SigProc, x.sigPending = ((s.proc q).signalHandle ctx).1.sigPending → ∀ p n, 1 ≤ n → n ≤ nsig →
      (((s.store q x).proc p).Pending n ↔ q = p ∧ n = sigsegv ∧ (s.proc p).FrameFaults ctx ∨
        (s.proc p).Pending n ∧ ¬Takes p n s (.handle q ctx)) := by
    intro x hx p n hlo hhi
    rw [SendSys.proc_store, Takes]
    by_cases hp : p = q
    · subst hp
      rw [if_pos rfl, SigProc.Pending, hx]
      simp only [true_and]
      exact SigProc.signalHandle_pending ctx halive hlo hhi
    · rw [if_neg hp]
      simp [Ne.symm hp]
  rw [SendSys.handle] at hs
  obtain ⟨x, ctx', act, hx⟩ : ∃ x ctx' act, (s.proc q).signalHandle ctx = (x, ctx', act) := ⟨_, _, _, rfl⟩
  rw [hx] at hs hpending
  by_cases hexit : ∃ signo, act = .exit signo
  · -- the process ends: its parent hears of it
    obtain ⟨signo, rfl⟩ := hexit
    obtain ⟨s₁, hs₁⟩ : ∃ s₁, s₁ = s.store q { x with state := (s.proc q).state } := ⟨_, rfl⟩
    simp only [← hs₁] at hs
    have hinv : SendInv s₁ L idle init := hs₁ ▸ h.setState q _ (fun hz => hz) _
    have hrec : ∀ c, (s₁.tree.procs c).state = (s.tree.procs c).state ∧ (s₁.tree.procs c).parent = (s.tree.procs c).parent := by
      intro c
      rw [hs₁]
      by_cases hc : c = q
      · subst hc
        simp [SendSys.store, SendSys.proc, ProcSys.setProc]
      · simp [SendSys.store, ProcSys.setProc, hc]
    obtain ⟨t', L', hcode, hinv', hp⟩ := hinv.procExit (p := q) (hs₁ ▸ hlive) signo
    obtain rfl : t' = t := Option.some.inj (hcode.symm.trans hs)
    refine ⟨⟨L', hinv'⟩, fun p n hlo hhi => ?_⟩
    have hends : s₁.ChildEnds q p n ↔ s.ChildEnds q p n := by
      simp only [SendSys.ChildEnds, SendSys.Receives, (hrec q).2, (hrec p).1]
    rw [hp p n hlo hhi, hends, hs₁, hpending { x with state := (s.proc q).state } rfl p n hlo hhi, Sends, hx, ← or_assoc]
    simp
  · have ht : t = s.store q x := by
      cases act with
      | exit signo => exact absurd ⟨signo, rfl⟩ hexit
      | _ => exact (Option.some.inj hs).symm
    subst ht
    have hnz : x.state = .zombie → (s.tree.procs q).state = .zombie := by
      intro hz
      have hcases := (s.proc q).signalHandle_cases ctx
      rw [hx] at hcases
      rcases hcases with ⟨-, he⟩ | ⟨-, he⟩ | ⟨-, -, -, ⟨signo, hact⟩ | hst | hst | hst⟩
      · rw [(Prod.mk.inj he).1] at hz
        exact hz
      · rw [(Prod.mk.inj he).1] at hz
        exact (SigProc.signalSend_state _ _).1.mp hz
      · exact absurd ⟨signo, hact⟩ hexit
      · exact hst.symm.trans hz
      · rw [hst] at hz
        cases hz
      · rw [hst] at hz
        cases hz
    refine ⟨⟨L, h.setState q _ hnz _⟩, fun p n hlo hhi => ?_⟩
    rw [hpending x rfl p n hlo hhi, Sends, hx]
    simp [hexit]

/-- **One step.** Signals are pending that the step sends, or that were pending and are not taken. -/
theorem step (h : SendInv s L idle init) (hs : sendStep s e = some t) :
    (∃ L', SendInv t L' idle init) ∧ ∀ p n, 1 ≤ n → n ≤ nsig →
      ((t.proc p).Pending n ↔ Sends init p n s e ∨ (s.proc p).Pending n ∧ ¬Takes p n s e) := by
  have hpos : ∀ p, s.tree.live p = true → 0 < (s.tree.procs p).pgid := by
    intro p hp
    rcases h.groups p hp with hg | hg
    · omega
    · omega
  cases e with
  | proc e =>
    cases e with
    | fork q env =>
      obtain ⟨hinv, hp⟩ := h.fork hs
      exact ⟨hinv, fun p n _ _ => (hp p n).trans (by simp only [Sends, Takes, false_or])⟩
    | exit q code =>
      obtain ⟨⟨hlive, -⟩, hs⟩ := Option.ite_none_right_eq_some.mp hs
      obtain ⟨t', L', hcode, hinv, hp⟩ := h.procExit hlive code
      obtain rfl : t' = t := Option.some.inj (hcode.symm.trans hs)
      refine ⟨⟨L', hinv⟩, fun p n hlo hhi => ?_⟩
      refine (hp p n hlo hhi).trans ?_
      simp only [ProcEvent.proc, Sends, Takes, not_false_eq_true, and_true]
    | wait q target wnohang =>
      obtain ⟨hinv, hsigs⟩ := h.wait hs
      refine ⟨hinv, fun p n _ _ => ?_⟩
      simp only [Sends, Takes, false_or, not_false_eq_true, and_true, SigProc.Pending, SendSys.proc, hsigs]
  | kill q pid signo =>
    obtain ⟨-, hs⟩ := Option.ite_none_right_eq_some.mp hs
    obtain ⟨⟨r, u⟩, hkill, rfl⟩ := Option.map_eq_some_iff.mp hs
    -- exactly those that are named have the signal pending now
    obtain ⟨r', t', hkill', hsent, -⟩ := s.sysKill_sent h.procs hpos q pid signo
    obtain ⟨rfl, rfl⟩ := Prod.mk.inj (Option.some.inj (hkill.symm.trans hkill'))
    refine ⟨⟨L, h.sent hsent⟩, fun p n hlo hhi => ?_⟩
    rw [hsent.pending_iff hlo hhi p, or_comm]
    simp only [Sends, Takes, not_false_eq_true, and_true]
    refine or_congr ?_ Iff.rfl
    tauto
  | handle q ctx => exact h.handle hs
  | own e =>
    obtain ⟨he, hs⟩ := Option.ite_none_right_eq_some.mp hs
    obtain rfl := Option.some.inj hs
    refine ⟨⟨L, h.procs, h.groups, h.self⟩, fun p n _ _ => ?_⟩
    simp only [Sends, Takes, false_or, not_false_eq_true, and_true, SigProc.Pending, SendSys.proc, sigStep_own he]
  | sched q st =>
    obtain ⟨⟨-, hz, -⟩, hs⟩ := Option.ite_none_right_eq_some.mp hs
    obtain rfl := Option.some.inj hs
    refine ⟨⟨L, h.setState q st (fun he => absurd he hz) s.sigs⟩, fun p n _ _ => ?_⟩
    simp only [Sends, Takes, false_or, not_false_eq_true, and_true]
    exact Iff.rfl

end SendInv

/-! ## Boot

Two processes with two groups.
-/

theorem procCreate_group {s t : ProcSys} {c : ProcPtr} {r : Option ProcPtr}
    (hcode : s.procCreate ⟨some c, true, true, true⟩ = some (r, t)) :
    ∃ q n, s.pidAlloc = some (q, { s with nextPid := n }) ∧ t.nextPid = n ∧
      (∀ k, q ≠ some k → t.pidTable k = s.pidTable k) ∧
      ∀ p, t.live p = true → s.live p = true ∧ t.procs p = s.procs p ∨ q = some (t.procs p).pgid := by
  simp only [ProcSys.procCreate] at hcode
  obtain ⟨⟨pid', s₁⟩, halloc, hcode⟩ := Option.bind_eq_some_iff.mp hcode
  obtain ⟨⟨pid, n⟩, -, hn⟩ := Option.bind_eq_some_iff.mp halloc
  obtain ⟨rfl, rfl⟩ := Prod.mk.inj (Option.some.inj hn)
  refine ⟨pid, n, halloc, ?_⟩
  cases pid with
  | none =>
    obtain ⟨-, rfl⟩ := Prod.mk.inj (Option.some.inj hcode)
    exact ⟨rfl, fun _ _ => rfl, fun p hp => .inl ⟨hp, rfl⟩⟩
  | some pid =>
    obtain ⟨s₂, hins, hcode⟩ := Option.bind_eq_some_iff.mp hcode
    obtain ⟨rfl, rfl⟩ := Prod.mk.inj (Option.some.inj hcode)
    obtain ⟨m, -, rfl⟩ := Option.map_eq_some_iff.mp hins
    refine ⟨rfl, fun k hk => ?_, fun p hp => ?_⟩
    · simp only [ProcSys.newProc, Function.update_self]
      rw [Function.update_of_ne fun he => hk (congrArg some he.symm)]
    · by_cases hpc : p = c
      · subst hpc
        simp [ProcSys.newProc]
      · simp only [ProcSys.newProc, Function.update_of_ne hpc] at hp ⊢
        exact .inl ⟨hp, trivial⟩

/-- Boot makes two groups, of which init has the second. -/
theorem procBoot_groups {idle init : ProcPtr} {s : ProcSys} (hboot : procBoot idle init = some s) (p : ProcPtr)
    (hp : s.live p = true) : (s.procs p).pgid = 1 ∨ (s.procs p).pgid = 2 := by
  have hset : ∀ (s : ProcSys) (q : ProcPtr) (f : ProcRec → ProcRec) (p : ProcPtr), (∀ r, (f r).pgid = r.pgid) →
      ((s.setProc q f).procs p).pgid = (s.procs p).pgid := by
    intro s q f p hf
    by_cases hp : p = q
    · subst hp
      simp only [ProcSys.setProc, Function.update_self, hf]
    · simp only [ProcSys.setProc, Function.update_of_ne hp]
  -- where the next pid is free the search ends at once
  have halloc : ∀ {s : ProcSys} {n : Nat} {q : Option Nat}, s.pidAlloc = some (q, { s with nextPid := n }) → ∀ k,
      s.nextPid = k → k < pidMax → s.pidTable k = none → q = some k ∧ n = k + 1 := by
    intro s n q h k hnext hlt hfree
    have hsearch : s.pidAlloc = some (some k, { s with nextPid := k + 1 }) := by
      rw [ProcSys.pidAlloc, hnext, pidSearch_free hlt hfree (by decide)]
      rfl
    obtain ⟨rfl, hn⟩ := Prod.mk.inj (Option.some.inj (h.symm.trans hsearch))
    exact ⟨rfl, congrArg ProcSys.nextPid hn⟩
  simp only [procBoot, Option.bind_eq_bind, Option.bind_eq_some_iff] at hboot
  obtain ⟨⟨r₁, s₁⟩, hcode₁, c₁, -, ⟨r₂, s₂⟩, hcode₂, c₂, -, hboot⟩ := hboot
  simp only at hcode₂ hboot
  obtain ⟨q₁, n₁, halloc₁, hnext₁, htable₁, hlive₁⟩ := procCreate_group hcode₁
  obtain ⟨rfl, rfl⟩ := halloc halloc₁ 1 rfl (by decide) rfl
  obtain ⟨q₂, n₂, halloc₂, -, -, hlive₂⟩ := procCreate_group hcode₂
  obtain ⟨rfl, -⟩ := halloc halloc₂ 2 hnext₁ (by decide) ((htable₁ 2 (by decide)).trans rfl)
  cases hboot
  change ((s₂.setProc c₂ fun r => { r with pid := 1, state := .running }).procs p).pgid = 1 ∨
    ((s₂.setProc c₂ fun r => { r with pid := 1, state := .running }).procs p).pgid = 2
  rw [hset s₂ c₂ (fun r => { r with pid := 1, state := .running }) p fun _ => rfl]
  rcases hlive₂ p hp with ⟨hp₁, hrec⟩ | hgroup
  · rw [hrec]
    refine .inl ((hset s₁ c₁ (fun r => { r with state := .ready }) p fun _ => rfl).trans ?_)
    rcases hlive₁ p hp₁ with ⟨hp₀, -⟩ | hgroup
    · cases hp₀
    · exact (Option.some.inj hgroup).symm
  · exact .inr (Option.some.inj hgroup).symm

section

variable {idle init : ProcPtr} {tree₀ : ProcSys} {es : List SendEvent} {s : SendSys}

theorem SendInv.boot (hne : idle ≠ init) (hboot : procBoot idle init = some tree₀) :
    ∃ L, SendInv (sendBoot tree₀) L idle init := by
  obtain ⟨s₁, L, hboot', hinv, -⟩ := procInv_procBoot hne
  obtain rfl : s₁ = tree₀ := Option.some.inj (hboot'.symm.trans hboot)
  refine ⟨L, hinv, procBoot_groups hboot, fun p _ hp => ?_⟩
  rw [show ((sendBoot s₁).tree.procs p).parent = none from procBoot_parent hboot p] at hp
  cases hp

theorem SendInv.run (hne : idle ≠ init) (hboot : procBoot idle init = some tree₀)
    (hrun : Run (Lib.Graph sendStep) (sendBoot tree₀) es s) : ∃ L, SendInv s L idle init :=
  hrun.invariant (fun s => ∃ L, SendInv s L idle init) (SendInv.boot hne hboot) fun _ _ _ ⟨_, h⟩ hs => (h.step hs).1

end

/-! ## Runs

Both results over all runs from boot.
-/

/-- **Whom `kill` reaches.** However processes fork, exit, are reaped and send signals, the only groups are 1 and 2, and
    `sys_kill` comes to an end having sent to exactly those it names, and to nobody for the pid -1. It returns 0 for every
    group, and for a pid only if the process was sent the signal. -/
theorem kill_reaches (idle init : ProcPtr) (hne : idle ≠ init) (tree₀ : ProcSys) (hboot : procBoot idle init = some tree₀)
    (es : List SendEvent) (s : SendSys) (hrun : Run (Lib.Graph sendStep) (sendBoot tree₀) es s) :
    (∀ c, s.tree.live c = true → (s.tree.procs c).pgid = 1 ∨ (s.tree.procs c).pgid = 2) ∧
    ∀ (cur : ProcPtr) (pid signo : Word), ∃ r t, s.sysKill cur pid signo = some (r, t) ∧
      Sent s t (signo.setWidth 32).toInt (s.Named init cur (pid.setWidth 32).toInt) ∧
      ((pid.setWidth 32).toInt ≤ 0 → r = 0) ∧
      (0 < (pid.setWidth 32).toInt → (∀ c, ¬s.Named init cur (pid.setWidth 32).toInt c) → r = -esrch) ∧
      ∀ c, 0 < (pid.setWidth 32).toInt → s.Named init cur (pid.setWidth 32).toInt c →
        r = if (signo.setWidth 32).toInt ≤ 0 ∨ (nsig : Int) < (signo.setWidth 32).toInt then -einval
          else if s.Receives c then 0 else -esrch := by
  obtain ⟨L, h⟩ := SendInv.run hne hboot hrun
  have hpos : ∀ p, s.tree.live p = true → 0 < (s.tree.procs p).pgid := fun p hp => by have := h.groups p hp; omega
  exact ⟨h.groups, s.sysKill_sent h.procs hpos⟩

/-- SIGKILL to all processes, of which there are three. -/
theorem kill_reaches_nobody :
    ∃ tree₀ s t, procBoot 10 20 = some tree₀ ∧
      Run (Lib.Graph sendStep) (sendBoot tree₀) [.proc (.fork 20 ⟨some 30, true, true, true⟩)] s ∧
      s.sysKill 20 (-1) 9 = some (0, t) ∧ ∀ c, t.proc c = s.proc c := by
  obtain ⟨tree₀, hboot⟩ := Option.isSome_iff_exists.mp (show (procBoot 10 20).isSome by decide +kernel)
  have htree : tree₀ = (procBoot 10 20).getD procInit := by
    rw [hboot]
    rfl
  have hrun : Run (Lib.Graph sendStep) (sendBoot tree₀) [.proc (.fork 20 ⟨some 30, true, true, true⟩)]
      (after sendStep (sendBoot tree₀) [.proc (.fork 20 ⟨some 30, true, true, true⟩)]) :=
    Run.of_after (by rw [htree]; decide +kernel)
  have hpid : (((-1 : Word)).setWidth 32).toInt = -1 := by decide
  obtain ⟨-, hkill⟩ := kill_reaches 10 20 (by decide) tree₀ hboot _ _ hrun
  obtain ⟨r, t, hcode, hsent, hzero, -⟩ := hkill 20 (-1) 9
  rw [hpid] at hsent hzero
  obtain rfl := hzero (by decide)
  refine ⟨tree₀, _, t, hboot, hrun, hcode, fun c => hsent.keep c ?_⟩
  rintro ⟨-, hc | hc | hc⟩
  · exact absurd hc.1 (by decide)
  · exact absurd hc.1 (by decide)
  · exact absurd hc.1 (by decide)

/-- **What is pending was sent and not taken since.** In every run a signal is pending for a process exactly if some
    `kill`, exit of a child or failed delivery sent it, and since then neither `signal_handle` selected it nor was the
    process made anew. -/
theorem pending_since_sent (idle init : ProcPtr) (hne : idle ≠ init) (tree₀ : ProcSys)
    (hboot : procBoot idle init = some tree₀) (es : List SendEvent) (s : SendSys)
    (hrun : Run (Lib.Graph sendStep) (sendBoot tree₀) es s) (p : ProcPtr) (n : Nat) (hlo : 1 ≤ n) (hhi : n ≤ nsig) :
    (s.proc p).Pending n ↔ Since (Lib.Graph sendStep) (Sends init p n) (Takes p n) (sendBoot tree₀) es s := by
  have hstep : ∀ s e t, (∃ L, SendInv s L idle init) → Lib.Graph sendStep s e t → (∃ L, SendInv t L idle init) ∧
      ((t.proc p).Pending n ↔ Sends init p n s e ∨ (s.proc p).Pending n ∧ ¬Takes p n s e) := by
    rintro s e t ⟨L, h⟩ hs
    obtain ⟨hinv, hp⟩ := h.step hs
    exact ⟨hinv, hp p n hlo hhi⟩
  have hoff : ¬((sendBoot tree₀).proc p).Pending n := by simp [sendBoot, SendSys.proc, SigProc.init, SigProc.Pending]
  exact Run.since_iff hstep (SendInv.boot hne hboot) hoff hrun

/-- Init forks a child and sends it SIGUSR1. -/
theorem pending_since_sent_child :
    ∃ tree₀ s, procBoot 10 20 = some tree₀ ∧
      Run (Lib.Graph sendStep) (sendBoot tree₀) [.proc (.fork 20 ⟨some 30, true, true, true⟩), .kill 20 3 10] s ∧
      Since (Lib.Graph sendStep) (Sends 20 30 10) (Takes 30 10) (sendBoot tree₀)
        [.proc (.fork 20 ⟨some 30, true, true, true⟩), .kill 20 3 10] s := by
  obtain ⟨tree₀, hboot⟩ := Option.isSome_iff_exists.mp (show (procBoot 10 20).isSome by decide +kernel)
  have htree : tree₀ = (procBoot 10 20).getD procInit := by
    rw [hboot]
    rfl
  have hrun : Run (Lib.Graph sendStep) (sendBoot tree₀) [.proc (.fork 20 ⟨some 30, true, true, true⟩), .kill 20 3 10]
      (after sendStep (sendBoot tree₀) [.proc (.fork 20 ⟨some 30, true, true, true⟩), .kill 20 3 10]) :=
    Run.of_after (by rw [htree]; decide +kernel)
  refine ⟨tree₀, _, hboot, hrun,
    (pending_since_sent 10 20 (by decide) tree₀ hboot _ _ hrun 30 10 (by decide) (by decide)).mp ?_⟩
  rw [SigProc.Pending, htree]
  decide +kernel

end MyUnix.Proc
