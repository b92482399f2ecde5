import Mathlib.Algebra.BigOperators.Group.Finset.Piecewise
import MyUnix.Lib.StablePq
import MyUnix.Proc.RunQueues
import MyUnix.Proc.SchedFrame

/-!
# `Proc.RunqOrder` — the run queue as a priority queue, and what `schedule` makes of it

Forty linked lists, a bitmap and a counter are a stable priority queue: over any sequence of `runq_push`,
`runq_pop_best` and `runq_remove`, what is popped is the process that came first among those of the smallest priority
number. `schedule()` pops from this queue before it puts the process that was running back, and takes the idle process
when it finds the queue empty.

The first part is a simulation: the abstract queue is the list of processes in the order in which they were pushed,
and the forty lists are its buckets. Any sequence of operations is allowed in which a process is pushed once and its
priority is not changed while it is queued.

The second part is about the choice. `schedule()` pops before it pushes its caller back, so the caller competes with
nobody: where the best queued process has a worse priority than the caller, it is taken all the same. `GivesWay` says
when this does no harm.
-/

namespace MyUnix.Proc

open Lib

/-- The abstract queue: the queued processes in the order they were pushed, and the priority of every process. -/
structure Pq where
  prio  : Pid → Nat
  queue : List Pid

/-- The operations on the run queue. A priority is set while the process is not queued. -/
inductive RunqOp where
  | setPriority (p : Pid) (prio : Nat)
  | push (p : Pid)
  | popBest
  | remove (p : Pid)

namespace Pq

/-- What an operation returns and leaves. -/
def step (a : Pq) : RunqOp → Option Pid × Pq
  | .setPriority p prio => (none, { a with prio := Function.update a.prio p prio })
  | .push p => (none, { a with queue := a.queue ++ [p] })
  | .popBest => (best a.prio a.queue, { a with queue := ((best a.prio a.queue).map a.queue.erase).getD a.queue })
  | .remove p => (none, { a with queue := a.queue.erase p })

/-- When the callers use it. -/
def Ok (a : Pq) : RunqOp → Prop
  | .setPriority p prio => p ∉ a.queue ∧ prio < schedPrioMax
  | .push p => p ∉ a.queue
  | _ => True

/-- What the queue returns for a list of operations, and what it becomes. -/
def run : Pq → List RunqOp → List (Option Pid) × Pq
  | a, [] => ([], a)
  | a, op :: ops => ((a.step op).1 :: ((a.step op).2.run ops).1, ((a.step op).2.run ops).2)

/-- Every operation of the list is allowed where it is made. -/
def Valid : Pq → List RunqOp → Prop
  | _, [] => True
  | a, op :: ops => a.Ok op ∧ (a.step op).2.Valid ops

end Pq

/-- An operation on the run queues. -/
def runqStep (s : Sched) : RunqOp → Kernel (Option Pid × Sched)
  | .setPriority p prio => .ok (none, s.setProc p fun x => { x with priority := prio })
  | .push p => do
    let s ← s.runqPush p
    pure (none, s)
  | .popBest => s.runqPopBest
  | .remove p => do
    let s ← s.runqRemove p
    pure (none, s)

/-- A list of operations on the run queues. -/
def runqRun : Sched → List RunqOp → Kernel (List (Option Pid) × Sched)
  | s, [] => .ok ([], s)
  | s, op :: ops => do
    let (r, s) ← runqStep s op
    let (rs, s) ← runqRun s ops
    pure (r :: rs, s)

/-- What can be seen of the run queue: a bit for each level in use, the number of processes, and each level as one walks
    along it. -/
structure RunqShows (s : Sched) (a : Pq) : Prop where
  bitmap : ∀ i, s.bitmap.getLsbD i = true ↔ i < schedPrioMax ∧ s.mem.isEmpty (.runHead i) = false
  total  : s.total = a.queue.length
  levels : ∀ i < schedPrioMax, ∀ n, s.mem.traverse (.runHead i) n = ((bucket a.prio a.queue i).map .runNode).take n

/-! ## The simulation

Each level is the bucket of its priority. A push appends to a bucket, a pop takes the head of the lowest one, a
removal erases wherever the process is.
-/

/-- The simulation relation. -/
structure RunqRel (s : Sched) (L : Addr → List Addr) (a : Pq) : Prop where
  inv    : QueueInv s L
  levels : ∀ i < schedPrioMax, L (.runHead i) = (bucket a.prio a.queue i).map .runNode
  nodup  : a.queue.Nodup
  prio   : ∀ p, (s.procs p).priority = a.prio p ∧ a.prio p < schedPrioMax

namespace RunqRel

variable {s : Sched} {L : Addr → List Addr} {a : Pq} {p : Pid}

theorem prio_eq (h : RunqRel s L a) (p : Pid) : s.prio p = a.prio p := by
  obtain ⟨hp, hlt⟩ := h.prio p
  rw [Sched.prio, hp, if_neg (by omega), if_neg (by omega), Int.toNat_natCast]

theorem queued_iff (h : RunqRel s L a) : Queued L p ↔ p ∈ a.queue := by
  rw [h.inv.queued_iff, h.prio_eq, h.levels _ (h.prio p).2]
  simp [mem_bucket]

/-- The lists after the level `i` became `l`, when that is how the abstract queue changed. -/
theorem levels_update {a' : Pq} {i : Nat} {l : List Addr} (h : RunqRel s L a)
    (hi : l = (bucket a'.prio a'.queue i).map .runNode)
    (hother : ∀ j, j ≠ i → bucket a'.prio a'.queue j = bucket a.prio a.queue j) :
    ∀ j < schedPrioMax, Function.update L (.runHead i) l (.runHead j) = (bucket a'.prio a'.queue j).map .runNode := by
  intro j hj
  by_cases hji : j = i
  · subst hji
    rw [Function.update_self, hi]
  · rw [Function.update_of_ne (fun he => hji (Addr.runHead.inj he)), h.levels j hj, hother j hji]

theorem erase_levels (xs : List Pid) {ys : List Pid} (hnd : a.queue.Nodup)
    (hb : bucket a.prio a.queue (a.prio p) = xs ++ p :: ys) :
    bucket a.prio (a.queue.erase p) (a.prio p) = xs ++ ys ∧
    ∀ j, j ≠ a.prio p → bucket a.prio (a.queue.erase p) j = bucket a.prio a.queue j := by
  refine ⟨?_, fun j hj => ?_⟩
  · have hbnd : (bucket a.prio a.queue (a.prio p)).Nodup := hnd.filter _
    rw [hb, List.nodup_middle, List.nodup_cons] at hbnd
    have hpx : p ∉ xs := fun hm => hbnd.1 (List.mem_append_left _ hm)
    rw [bucket_erase hnd, hb, List.erase_append_right _ hpx, List.erase_cons_head]
  · rw [bucket_erase hnd, List.erase_of_not_mem]
    intro hm
    exact hj (mem_bucket.mp hm).2.symm

theorem push (h : RunqRel s L a) (hp : p ∉ a.queue) :
    ∃ s' L', s.runqPush p = .ok s' ∧ RunqRel s' L' (a.step (.push p)).2 := by
  obtain ⟨s', hcode, hinv, -, hprocs, -⟩ := h.inv.runqPush_last (fun hq => hp (h.queued_iff.mp hq))
  refine ⟨s', _, hcode, hinv, ?_, ?_, fun q => by rw [hprocs]; exact h.prio q⟩
  · apply h.levels_update
    · rw [h.prio_eq, h.levels _ (h.prio p).2, Pq.step, bucket_append, bucket_singleton, if_pos rfl, List.map_append,
        List.map_singleton]
    · intro j hj
      rw [h.prio_eq] at hj
      rw [Pq.step, bucket_append, bucket_singleton, if_neg (Ne.symm hj), List.append_nil]
  · exact List.nodup_append.mpr ⟨h.nodup, List.nodup_singleton p, by
      rintro x hx y hy rfl
      rw [List.mem_singleton.mp hy] at hx
      exact hp hx⟩

theorem popBest (h : RunqRel s L a) :
    ∃ s' L', s.runqPopBest = .ok ((a.step .popBest).1, s') ∧ RunqRel s' L' (a.step .popBest).2 := by
  rcases h.inv.runqPopBest_first with ⟨hcode, hnil⟩ | ⟨p, i, ys, s', hcode, hi, hlow, hL, hinv, -, hprocs, -⟩
  · -- nothing is queued
    have hq : a.queue = [] := by
      apply List.eq_nil_iff_forall_not_mem.mpr
      intro p hp
      obtain ⟨j, hj, hm⟩ := h.queued_iff.mpr hp
      rw [hnil j hj] at hm
      cases hm
    have hbest : best a.prio a.queue = none := by rw [hq, best_nil]
    refine ⟨s, L, ?_, ?_⟩
    · rw [hcode, Pq.step, hbest]
    · rw [Pq.step, hbest]
      exact h
  · -- the head of the lowest level
    rw [h.levels i hi] at hL
    obtain ⟨p', zs, hb, hp', rfl⟩ := List.map_eq_cons_iff.mp hL
    obtain rfl := Addr.runNode.inj hp'
    have hlow' : ∀ j < i, bucket a.prio a.queue j = [] := by
      intro j hj
      have := hlow j hj
      rwa [h.levels j (lt_trans hj hi), List.map_eq_nil_iff] at this
    have hbest := best_of_bucket hlow' hb
    obtain rfl : a.prio p' = i := (mem_bucket.mp (by rw [hb]; exact List.mem_cons_self)).2
    obtain ⟨hin, hother⟩ := erase_levels [] h.nodup hb
    refine ⟨s', _, ?_, hinv, ?_, ?_, ?_⟩
    · rw [hcode, Pq.step, hbest]
    · rw [Pq.step, hbest]
      exact h.levels_update (congrArg _ hin.symm) hother
    · rw [Pq.step, hbest]
      exact h.nodup.erase p'
    · intro q
      rw [hprocs, Pq.step]
      exact h.prio q

theorem remove (h : RunqRel s L a) (p : Pid) :
    ∃ s' L', s.runqRemove p = .ok s' ∧ RunqRel s' L' (a.step (.remove p)).2 := by
  by_cases hp : p ∈ a.queue
  · have hb : p ∈ bucket a.prio a.queue (a.prio p) := mem_bucket.mpr ⟨hp, rfl⟩
    obtain ⟨xs, ys, hb⟩ := List.append_of_mem hb
    obtain ⟨hin, hother⟩ := erase_levels xs h.nodup hb
    obtain ⟨hprio, hlt⟩ := h.prio p
    have hL : L (.runHead (s.prio p)) = xs.map Addr.runNode ++ .runNode p :: ys.map Addr.runNode := by
      rw [h.prio_eq, h.levels _ hlt, hb, List.map_append, List.map_cons]
    obtain ⟨s', hcode, hinv, hprocs, -⟩ := h.inv.runqRemove (by omega) (by omega) hL
    refine ⟨s', _, hcode, hinv, ?_, h.nodup.erase p, fun q => by rw [hprocs]; exact h.prio q⟩
    rw [h.prio_eq]
    apply h.levels_update _ hother
    rw [Pq.step, hin, List.map_append]
  · refine ⟨s, L, h.inv.runqRemove_off (fun hq => hp (h.queued_iff.mp hq)), ?_⟩
    rw [Pq.step, List.erase_of_not_mem hp]
    exact h

/-- A priority is set. -/
theorem setPriority (h : RunqRel s L a) {n : Nat} (hp : p ∉ a.queue) (hn : n < schedPrioMax) :
    RunqRel (s.setProc p fun x => { x with priority := n }) L (a.step (.setPriority p n)).2 := by
  have hoff : ¬ Queued L p := fun hq => hp (h.queued_iff.mp hq)
  have hne : ∀ q ∈ a.queue, q ≠ p := fun q hq he => hp (he ▸ hq)
  have hbucket : ∀ i, bucket (Function.update a.prio p n) a.queue i = bucket a.prio a.queue i :=
    fun i => bucket_congr fun q hq => Function.update_of_ne (hne q hq) _ _
  have hprio : ∀ q, q ≠ p → (s.setProc p fun x => { x with priority := n }).prio q = s.prio q := by
    intro q hq
    rw [Sched.prio, Sched.prio, Sched.setProc_of_ne _ _ hq]
  refine ⟨⟨h.inv.lists, ?_, h.inv.wait_node, h.inv.run_off, h.inv.bitmap, h.inv.total⟩, ?_, h.nodup, ?_⟩
  · intro i hi x hx
    obtain ⟨q, rfl, hq⟩ := h.inv.run_node i hi x hx
    refine ⟨q, rfl, (hprio q fun he => hoff ⟨i, hi, he ▸ hx⟩).trans hq⟩
  · intro i hi
    rw [h.levels i hi]
    exact congrArg _ (hbucket i).symm
  · intro q
    by_cases hq : q = p
    · subst hq
      simp [Pq.step, Sched.setProc, hn]
    · rw [Sched.setProc_of_ne _ _ hq]
      simp only [Pq.step, Function.update_of_ne hq]
      exact h.prio q

/-- One operation. -/
theorem step (h : RunqRel s L a) {op : RunqOp} (hok : a.Ok op) :
    ∃ s' L', runqStep s op = .ok ((a.step op).1, s') ∧ RunqRel s' L' (a.step op).2 := by
  cases op with
  | setPriority p n => exact ⟨_, L, rfl, h.setPriority hok.1 hok.2⟩
  | push p =>
    obtain ⟨s', L', hcode, hrel⟩ := h.push hok
    exact ⟨s', L', by rw [runqStep, hcode]; rfl, hrel⟩
  | popBest => exact h.popBest
  | remove p =>
    obtain ⟨s', L', hcode, hrel⟩ := h.remove p
    exact ⟨s', L', by rw [runqStep, hcode]; rfl, hrel⟩

theorem run (ops : List RunqOp) : ∀ {s : Sched} {L : Addr → List Addr} {a : Pq}, RunqRel s L a → a.Valid ops →
    ∃ s' L', runqRun s ops = .ok ((a.run ops).1, s') ∧ RunqRel s' L' (a.run ops).2 := by
  induction ops with
  | nil => exact fun h _ => ⟨_, _, rfl, h⟩
  | cons op ops ih =>
    intro s L a h hv
    obtain ⟨s₁, L₁, hcode, h₁⟩ := h.step hv.1
    obtain ⟨s₂, L₂, hrest, h₂⟩ := ih h₁ hv.2
    refine ⟨s₂, L₂, ?_, h₂⟩
    rw [runqRun, hcode]
    simp only [bind, Except.bind, hrest]
    rfl

/-- Every queued process is counted in one bucket. -/
theorem total (h : RunqRel s L a) : s.total = a.queue.length := by
  rw [h.inv.total]
  have hlen : ∀ (l : List Pid), ∑ i ∈ Finset.range schedPrioMax, (bucket a.prio l i).length = l.length := by
    intro l
    induction l with
    | nil => simp [bucket]
    | cons p l ih =>
      have hcons : ∀ i, (bucket a.prio (p :: l) i).length = (if i = a.prio p then 1 else 0) + (bucket a.prio l i).length := by
        intro i
        by_cases hi : a.prio p = i
        · simp [bucket, hi, Nat.add_comm]
        · simp [bucket, hi, Ne.symm hi]
      simp only [hcons]
      rw [Finset.sum_add_distrib, ih, Finset.sum_ite_eq', if_pos (Finset.mem_range.mpr (h.prio p).2), List.length_cons,
        Nat.add_comm]
  rw [← hlen a.queue]
  apply Finset.sum_congr rfl
  intro i hi
  rw [h.levels i (Finset.mem_range.mp hi), List.length_map]

theorem shows (h : RunqRel s L a) : RunqShows s a where
  bitmap i := by
    rw [h.inv.bitmap]
    refine and_congr_right fun hi => ?_
    have hhead : IsHead (.runHead i) := hi
    rw [← Bool.not_eq_true, h.inv.isEmpty_head_iff hhead]
  total := h.total
  levels i hi n := by
    rw [h.inv.lists.traverse_eq (show IsHead (.runHead i) from hi), h.levels i hi]

end RunqRel

/-- **The run queue is a stable priority queue.** From the empty queue, whatever the operations: none of them faults,
    each returns what the abstract queue returns, and the lists, the bitmap and the counter show its contents. -/
theorem runq_refines_priority_queue (s : Sched) (prio : Pid → Nat) (ops : List RunqOp)
    (hmem : s.mem = ⟨some, some⟩) (hbitmap : s.bitmap = 0#64) (htotal : s.total = 0)
    (hprio : ∀ p, (s.procs p).priority = prio p ∧ prio p < schedPrioMax) (hvalid : (Pq.mk prio []).Valid ops) :
    ∃ t, runqRun s ops = .ok (((Pq.mk prio []).run ops).1, t) ∧ RunqShows t ((Pq.mk prio []).run ops).2 := by
  have hrel : RunqRel s (fun _ => []) ⟨prio, []⟩ := by
    refine ⟨⟨?_, by simp, by simp, ?_, ?_, ?_⟩, by simp [bucket], List.nodup_nil, hprio⟩
    · rw [hmem]
      exact ⟨fun _ _ => ⟨rfl, rfl, trivial⟩, by simp, by simp, by simp⟩
    · intro p _
      rw [hmem]
    · simp [hbitmap]
    · simp [htotal]
  obtain ⟨t, L, hcode, h⟩ := RunqRel.run ops hrel hvalid
  exact ⟨t, hcode, h.shows⟩

/-- Two processes of one priority and one above them: the urgent one first, the others in their order. -/
theorem runq_refines_priority_queue_three :
    ∃ t, runqRun schedInit [.push 2, .setPriority 3 5, .push 4, .push 3, .push 5, .remove 2, .popBest, .popBest, .popBest,
        .popBest] =
      .ok ([none, none, none, none, none, none, some 3, some 4, some 5, none], t) := by
  obtain ⟨t, ht, -⟩ := runq_refines_priority_queue schedInit (fun p => if p = gIdleProc then 39 else 20)
    [.push 2, .setPriority 3 5, .push 4, .push 3, .push 5, .remove 2, .popBest, .popBest, .popBest, .popBest]
    rfl rfl rfl
    (by
      intro p
      simp only [schedInit]
      split
      · exact ⟨rfl, by decide⟩
      · split
        · exact ⟨rfl, by decide⟩
        · exact ⟨rfl, by decide⟩)
    ⟨by simp [Pq.Ok], by simp [Pq.Ok, Pq.step, schedPrioMax], by simp [Pq.Ok, Pq.step], by simp [Pq.Ok, Pq.step],
      by simp [Pq.Ok, Pq.step], trivial, trivial, trivial, trivial, trivial, trivial⟩
  exact ⟨t, ht⟩

/-! ## The choice of `schedule()`

What is runnable when `schedule()` is called are the queued processes and the caller, if it can go on.
-/

/-- The processes that could run when `schedule()` is called. -/
def Sched.Runnable (s : Sched) (p : Pid) : Prop :=
  (∃ n, Addr.runNode p ∈ s.runQueue n) ∨ (p = s.current ∧ (s.procs p).state = .running)

/-- **The best process runs**: after `schedule()` a runnable process of the smallest priority number is current, if
    any is runnable, and the idle process only if no other is. -/
def BestRuns (s : Sched) : Prop :=
  ∃ t, s.schedule = .ok t ∧
    (∀ p, s.Runnable p → s.Runnable t.current ∧ (s.procs t.current).priority ≤ (s.procs p).priority) ∧
    (t.current = gIdleProc → ∀ p, s.Runnable p → p = gIdleProc)

/-- The caller of `schedule()` cannot go on, is the idle process, or finds a queued process of its own priority or a
    better one. -/
def GivesWay (s : Sched) : Prop :=
  (s.procs s.current).state ≠ .running ∨ s.current = gIdleProc ∨
    ∃ n p, Addr.runNode p ∈ s.runQueue n ∧ (s.procs p).priority ≤ (s.procs s.current).priority

/-- `proc_create` and `sched_init` set the priorities, `proc_fork` copies them. -/
def Priorities (s : Sched) : Prop :=
  (s.procs gIdleProc).priority = (schedPrioMax : Int) - 1 ∧ ∀ p, p ≠ gIdleProc → (s.procs p).priority = 20

/-- `idle_thread` only waits for interrupts. -/
def IdleForksNot (s : Sched) (e : Event) : Prop := e = .fork → s.current ≠ gIdleProc

theorem Priorities.step {s t : Sched} {e : Event} (h : Priorities s) (hidle : IdleForksNot s e) (hlt : gIdleProc < s.nprocs)
    (hs : schedStep s e = some t) : Priorities t := by
  obtain ⟨s₁, hloud, hquiet⟩ := schedStep_loud hs
  -- a change of one record that keeps its priority
  have hkept : ∀ {u : Sched} {p : Pid} {f : Process → Process}, Priorities u → (∀ x, (f x).priority = x.priority) →
      Priorities (u.setProc p f) := by
    intro u p f hu hf
    have hsame : ∀ x, ((u.setProc p f).procs x).priority = (u.procs x).priority :=
      fun x => u.setProc_field p x (·.priority) f (hf _)
    exact ⟨by rw [hsame]; exact hu.1, fun x hx => by rw [hsame]; exact hu.2 x hx⟩
  have hsig : ∀ (n : Nat) (x : Process), (x.signalled n).priority = x.priority := by
    intro n x
    unfold Process.signalled
    split
    · rfl
    · split <;> rfl
  have h₁ : Priorities s₁ := by
    cases hloud with
    | none _ => exact h
    | wait => exact hkept h fun _ => rfl
    | waitTimeout => exact hkept h fun _ => rfl
    | signal => exact hkept h (hsig _)
    | stop => exact hkept h fun _ => rfl
    | fork =>
      refine ⟨?_, fun p hp => ?_⟩
      · rw [Sched.setProc_of_ne _ _ (Nat.ne_of_lt hlt)]
        exact h.1
      · by_cases hc : p = s.nprocs
        · subst hc
          rw [Sched.setProc_self]
          exact h.2 _ (hidle rfl)
        · rw [Sched.setProc_of_ne _ _ hc]
          exact h.2 p hp
    | childExit hq =>
      refine hkept ⟨?_, fun p hp => ?_⟩ (hsig _)
      · exact (hq gIdleProc).priority.trans h.1
      · exact (hq p).priority.trans (h.2 p hp)
  exact ⟨(hquiet _).priority.trans h₁.1, fun p hp => (hquiet p).priority.trans (h₁.2 p hp)⟩

theorem CoreInv.mem_runQueue {s : Sched} {L : Addr → List Addr} (h : CoreInv s L) {p : Pid} :
    (∃ n, Addr.runNode p ∈ s.runQueue n) ↔ Queued L p := by
  have hwalk : ∀ i < schedPrioMax, ∀ n, s.mem.traverse (.runHead i) n = (L (.runHead i)).take n := by
    intro i hi n
    exact h.lists.traverse_eq (show IsHead (.runHead i) from hi) n
  constructor
  · rintro ⟨n, hm⟩
    obtain ⟨i, hi, hm⟩ := List.mem_flatMap.mp hm
    rw [hwalk i (List.mem_range.mp hi)] at hm
    exact ⟨i, List.mem_range.mp hi, List.mem_of_mem_take hm⟩
  · rintro ⟨i, hi, hm⟩
    refine ⟨(L (.runHead i)).length, List.mem_flatMap.mpr ⟨i, List.mem_range.mpr hi, ?_⟩⟩
    rw [hwalk i hi, List.take_length]
    exact hm

/-- `schedule()` ends in the process that `runq_pop_best` found, or in the idle process. -/
theorem schedule_current {s t s₁ : Sched} {r : Option Pid} (hcode : s.schedule = .ok t)
    (hpop : s.runqPopBest = .ok (r, s₁)) (hc : s₁.current = s.current) : t.current = r.getD gIdleProc := by
  simp only [Sched.schedule, hpop, bind, Except.bind] at hcode
  split at hcode
  next heq =>
    cases hcode
    rw [hc, heq]
  next =>
    split at hcode
    next =>
      split at hcode
      next => cases hcode
      next =>
        cases hcode
        rfl
    next =>
      cases hcode
      rfl

/-- The process that is current after `schedule()`: the idle process when nothing is queued, else a queued process of
    the smallest priority. -/
theorem CoreInv.schedule_best {s : Sched} {L : Addr → List Addr} (h : CoreInv s L) :
    ∃ t, s.schedule = .ok t ∧ (((∀ p, ¬ Queued L p) ∧ t.current = gIdleProc) ∨
      Queued L t.current ∧ ∀ p, Queued L p → s.prio t.current ≤ s.prio p) := by
  obtain ⟨t, L', hcode, -⟩ := h.schedule
  refine ⟨t, hcode, ?_⟩
  rcases h.toQueueInv.runqPopBest_first with ⟨hpop, hnil⟩ | ⟨p, i, ys, s₁, hpop, hi, hlow, hL, -, -, -, -, hc, -⟩
  · left
    refine ⟨?_, schedule_current hcode hpop rfl⟩
    rintro p ⟨i, hi, hm⟩
    rw [hnil i hi] at hm
    cases hm
  · right
    have hcur : t.current = p := schedule_current hcode hpop hc
    have hm : Addr.runNode p ∈ L (.runHead i) := by
      rw [hL]
      exact List.mem_cons_self
    rw [hcur]
    refine ⟨⟨i, hi, hm⟩, fun x hx => ?_⟩
    obtain ⟨p', hp', hprio⟩ := h.run_node i hi _ hm
    rw [Addr.runNode.inj hp', hprio]
    by_contra hlt
    have hmx := h.toQueueInv.queued_iff.mp hx
    rw [hlow _ (Nat.not_le.mp hlt)] at hmx
    cases hmx

theorem Priorities.prio_le_iff {s : Sched} (h : Priorities s) (p q : Pid) :
    s.prio p ≤ s.prio q ↔ (s.procs p).priority ≤ (s.procs q).priority := by
  have hcast : ∀ x, (s.prio x : Int) = (s.procs x).priority ∧ 0 ≤ (s.procs x).priority := by
    intro x
    have hx : (s.procs x).priority = 39 ∨ (s.procs x).priority = 20 := by
      by_cases hi : x = gIdleProc
      · rw [hi, h.1]
        exact .inl rfl
      · exact .inr (h.2 x hi)
    rcases hx with hx | hx <;> simp [Sched.prio, hx, schedPrioMax]
  rw [← (hcast p).1, ← (hcast q).1, Int.ofNat_le]

/-- **The best process runs, exactly when the caller gives way.** In every state of a run in which no wake pushes a
    process twice. -/
theorem bestRuns_iff_givesWay (es : List Event) (s : Sched)
    (hrun : Run (Guarded (fun s e => WakesOnce s e ∧ IdleForksNot s e) (Graph schedStep)) schedInit es s) :
    BestRuns s ↔ GivesWay s := by
  have hinv : (∃ L, CoreInv s L ∧ Awake s) ∧ Priorities s := by
    refine hrun.invariant (fun s => (∃ L, CoreInv s L ∧ Awake s) ∧ Priorities s) ⟨⟨_, coreInv_schedInit⟩, ?_⟩ ?_
    · refine ⟨rfl, fun p hp => ?_⟩
      simp only [schedInit, hp, if_false]
      split <;> rfl
    · rintro s e t ⟨⟨L, h, haw⟩, hp⟩ ⟨⟨hok, hidle⟩, hstep⟩
      obtain ⟨L', h', haw', -⟩ := h.step haw hstep hok
      exact ⟨⟨L', h', haw'⟩, hp.step hidle h.idle_lt hstep⟩
  obtain ⟨⟨L, h, -⟩, hp⟩ := hinv
  obtain ⟨t, hcode, hbest⟩ := h.schedule_best
  have hrunnable : ∀ p, s.Runnable p ↔ Queued L p ∨ (p = s.current ∧ (s.procs p).state = .running) :=
    fun p => or_congr_left h.mem_runQueue
  -- the idle process comes last
  have hlast : ∀ p, (s.procs gIdleProc).priority ≤ (s.procs p).priority → p = gIdleProc := by
    intro p hle
    by_contra hne
    rw [hp.1, hp.2 p hne] at hle
    simp [schedPrioMax] at hle
  constructor
  · rintro ⟨t', hcode', hmin, honly⟩
    obtain rfl : t' = t := Except.ok.inj (hcode'.symm.trans hcode)
    by_cases hst : (s.procs s.current).state = .running
    · have hprev : s.Runnable s.current := .inr ⟨rfl, hst⟩
      rcases hbest with ⟨-, hidle⟩ | ⟨hq, -⟩
      · exact .inr (.inl (honly hidle _ hprev))
      · obtain ⟨n, hm⟩ := h.mem_runQueue.mpr hq
        exact .inr (.inr ⟨n, _, hm, (hmin _ hprev).2⟩)
    · exact .inl hst
  · intro hgives
    rcases hbest with ⟨hnone, hidle⟩ | ⟨hq, hmin⟩
    · -- nothing is queued, so the caller is the only one that could go on
      have honly : ∀ p, s.Runnable p → p = gIdleProc ∧ s.Runnable gIdleProc := by
        intro p hpr
        rcases (hrunnable p).mp hpr with hq | ⟨rfl, hst⟩
        · exact absurd hq (hnone p)
        · rcases hgives with hne | hci | ⟨n, q, hm, -⟩
          · exact absurd hst hne
          · exact ⟨hci, hci ▸ hpr⟩
          · exact absurd (h.mem_runQueue.mp ⟨n, hm⟩) (hnone q)
      refine ⟨t, hcode, fun p hpr => ?_, fun _ p hpr => (honly p hpr).1⟩
      rw [hidle, (honly p hpr).1]
      exact ⟨(honly p hpr).2, le_rfl⟩
    · have hle : ∀ p, s.Runnable p → (s.procs t.current).priority ≤ (s.procs p).priority := by
        intro p hpr
        rcases (hrunnable p).mp hpr with hpq | ⟨rfl, hst⟩
        · exact (hp.prio_le_iff _ _).mp (hmin p hpq)
        · rcases hgives with hne | hci | ⟨n, q, hm, hq'⟩
          · exact absurd hst hne
          · by_cases hti : t.current = gIdleProc
            · rw [hti, hci]
            · rw [hp.2 _ hti, hci, hp.1]
              simp [schedPrioMax]
          · exact ((hp.prio_le_iff _ _).mp (hmin q (h.mem_runQueue.mp ⟨n, hm⟩))).trans hq'
      refine ⟨t, hcode, fun p hpr => ⟨(hrunnable _).mpr (.inl hq), hle p hpr⟩, fun hti p hpr => ?_⟩
      exact hlast p (hti ▸ hle p hpr)

/-- Init has forked: the child waits at the same priority, and comes next. -/
theorem bestRuns_after_fork :
    ∃ s, Run (Guarded (fun s e => WakesOnce s e ∧ IdleForksNot s e) (Graph schedStep)) schedInit [.fork] s ∧
      BestRuns s := by
  have h₀ : Run (Guarded (fun s e => WakesOnce s e ∧ IdleForksNot s e) (Graph schedStep)) schedInit []
      (after schedStep schedInit []) := .refl
  have h₁ := h₀.tail_after .fork ⟨trivial, fun _ => by decide⟩ (by decide +kernel)
  exact ⟨_, h₁, (bestRuns_iff_givesWay _ _ h₁).mpr (.inr (.inr ⟨1, 2, by decide +kernel, by decide +kernel⟩))⟩

/-- **The idle process takes over from a process that could go on.** Init is the only process, and yields. -/
theorem bestRuns_fails_alone : ∃ s, Run (Graph schedStep) schedInit [] s ∧ ¬ BestRuns s := by
  refine ⟨schedInit, .refl, ?_⟩
  rintro ⟨t, hcode, -, honly⟩
  have hpop : schedInit.runqPopBest = .ok (none, schedInit) := rfl
  have hcur : t.current = gIdleProc := schedule_current hcode hpop rfl
  have hinit : schedInit.Runnable gInitProc := .inr ⟨rfl, rfl⟩
  exact absurd (honly hcur _ hinit) (by decide)

end MyUnix.Proc
