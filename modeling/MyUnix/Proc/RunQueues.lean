import MyUnix.Lib.Run
import MyUnix.Proc.SchedStep

/-!
# `Proc.RunQueues` — run queues over whole runs

`runq_push` does not look whether its process is on a queue already, so a process is queued once only as long
as every path that wakes it pushes it once. `proc_wake` does not: it wakes the first waiter of the channel
the process sleeps on, which may be that process, and then pushes the process itself.

The property is read off the links by walking, so it would be false of a ring that is corrupted. It follows from the
invariant of `Proc.SchedInv` in every run that keeps it.
-/

namespace MyUnix.Proc

open Lib

/-- The run nodes found by walking `n` steps along each run queue. -/
def Sched.runQueue (s : Sched) (n : Nat) : List Addr :=
  (List.range schedPrioMax).flatMap fun i => s.mem.traverse (.runHead i) n

/-- **Run queues in order**: however far one walks, every process occurs at most once on all run queues
    together, and none that is SLEEPING, STOPPED or ZOMBIE does. -/
def RunQueuesOk (s : Sched) : Prop :=
  ∀ n, (s.runQueue n).Nodup ∧ ∀ p, Addr.runNode p ∈ s.runQueue n →
    (s.procs p).state ≠ .sleeping ∧ (s.procs p).state ≠ .stopped ∧ (s.procs p).state ≠ .zombie

theorem CoreInv.runQueuesOk {s : Sched} {L : Addr → List Addr} (h : CoreInv s L) : RunQueuesOk s := by
  intro n
  have hwalk : ∀ i < schedPrioMax, s.mem.traverse (.runHead i) n = (L (.runHead i)).take n := by
    intro i hi
    have hhead : IsHead (.runHead i) := hi
    exact h.lists.traverse_eq hhead n
  constructor
  · unfold Sched.runQueue
    rw [List.nodup_flatMap]
    constructor
    · intro i hi
      rw [hwalk i (List.mem_range.mp hi)]
      exact (h.lists.nodup (.runHead i) (List.mem_range.mp hi)).sublist (List.take_sublist _ _)
    · refine List.nodup_range.imp_of_mem fun {i j} hi hj hij => ?_
      intro a ha hb
      simp only [] at ha hb
      rw [hwalk i (List.mem_range.mp hi)] at ha
      rw [hwalk j (List.mem_range.mp hj)] at hb
      exact h.lists.disjoint (.runHead i) (List.mem_range.mp hi) (.runHead j) (List.mem_range.mp hj)
        (fun he => hij (Addr.runHead.inj he)) a (List.mem_of_mem_take ha) (List.mem_of_mem_take hb)
  · intro p hp
    unfold Sched.runQueue at hp
    obtain ⟨i, hi, hm⟩ := List.mem_flatMap.mp hp
    rw [hwalk i (List.mem_range.mp hi)] at hm
    have hready := (h.queued p ⟨i, List.mem_range.mp hi, List.mem_of_mem_take hm⟩).1
    rw [hready]
    simp

/-- **Run queues.** In every run in which no wake pushes a process twice, the run queues are in order in every
    state reached. -/
theorem runQueuesOk_of_wakesOnce (es : List Event) (s : Sched)
    (hrun : Run (Guarded WakesOnce (Graph schedStep)) schedInit es s) : RunQueuesOk s := by
  have hinv : ∃ L, CoreInv s L ∧ Awake s := by
    refine hrun.invariant (fun s => ∃ L, CoreInv s L ∧ Awake s) ⟨_, coreInv_schedInit⟩ ?_
    rintro s e t ⟨L, h, haw⟩ ⟨hok, hstep⟩
    obtain ⟨L', h', haw', -⟩ := h.step haw hstep hok
    exact ⟨L', h', haw'⟩
  obtain ⟨L, h, -⟩ := hinv
  exact h.runQueuesOk

/-- A wake of a waiter that is on no run queue meets the condition: init waits on a pipe, its child writes. -/
theorem runQueuesOk_pipe_wake :
    ∃ s, Run (Guarded WakesOnce (Graph schedStep)) schedInit
      [.fork, .wqWait (.other 0) .direct, .wqWakeOne (.other 0)] s ∧ RunQueuesOk s := by
  have hfirst : (after schedStep schedInit [.fork, .wqWait (.other 0) .direct]).mem.next (.wqHead (.other 0)) =
      some (.wqNode 1) := by decide +kernel
  have hok : WakesOnce (after schedStep schedInit [.fork, .wqWait (.other 0) .direct])
      (.wqWakeOne (.other 0)) := by
    intro x hx
    rw [hfirst] at hx
    cases hx
    decide +kernel
  have h₀ : Run (Guarded WakesOnce (Graph schedStep)) schedInit [] (after schedStep schedInit []) := .refl
  have h₁ := h₀.tail_after .fork trivial (by decide +kernel)
  have h₂ := h₁.tail_after (.wqWait (.other 0) .direct) trivial (by decide +kernel)
  have h₃ := h₂.tail_after (.wqWakeOne (.other 0)) hok (by decide +kernel)
  exact ⟨_, h₃, runQueuesOk_of_wakesOnce _ _ h₃⟩

/-- **A parent that waits for its child is queued twice.** Init forks and sleeps on its `wait_child`; the child
    exits: SIGCHLD finds init asleep, and `proc_wake` pushes it once in `wq_wake_one`, once in `sched_add`. -/
theorem runQueuesOk_fails_exit :
    ∃ s, Run (Graph schedStep) schedInit [.fork, .wqWait (.child 1) .procSleep, .exit, .resume] s ∧
      ¬ RunQueuesOk s := by
  refine ⟨_, Run.of_after (by decide +kernel), fun hok => ?_⟩
  have hnd := (hok 2).1
  revert hnd
  decide +kernel

end MyUnix.Proc
