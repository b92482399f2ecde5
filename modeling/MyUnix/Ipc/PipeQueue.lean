import MyUnix.Ipc.Pipe
import MyUnix.Proc.SchedStep

/-!
# `Ipc.PipeQueue` — the queues of a pipe in the scheduler

`Ipc.Pipe` has the sleepers of an end as a list of processes. In `Proc.Sched` the same queue is a ring of nodes in
memory, which `wq_wait`, the two wake functions and the `list_del` at the end of `wq_wait` relink. Here each of the four
is run on a memory whose ring is the list of the pipe (`QueueIs`), and what it leaves is the list that the pipe has after
the operation of the same name:

* `wq_wait` puts the running process behind the others and goes over to another process;
* `wq_wake_one` and `wq_wake_all` take the first one, or all of them, off, provided none of those is on a run queue
  already;
* the `list_del` at the end of `wq_wait` takes the process off that a signal has woken.

After a waker has taken the node off, that last `list_del` faults in the scheduler (`CoreInv.delOwn_fault`). What a pipe
does behind that point is what its callers could rely on if `wq_wait` returned.
-/

namespace MyUnix.Ipc

open Lib Proc

/-- The nodes on the ring of `q` are those of the processes `ps`, in this order. -/
def QueueIs (L : Addr → List Addr) (q : Wq) (ps : List Nat) : Prop := L (.wqHead q) = ps.map .wqNode

section

variable {s : Sched} {L : Addr → List Addr} {t : PipeSys} {q : Wq} {e : End}

/-- **`wq_wait`**: the running process goes to the end of the queue. -/
theorem wqWait_queue (h : CoreInv s L) (hq : QueueIs L q (t.queue e)) (hcur : (s.procs s.current).pc.waiting = none)
    (hidle : s.current ≠ gIdleProc) (asleep : Pc) :
    ∃ s' L', s.wqWait q .direct = .ok s' ∧ CoreInv s' L' ∧ QueueIs L' q ((t.wqWait s.current e asleep).queue e) := by
  obtain ⟨s₁, L₁, hrun₁, h₁, -, -, -, -, -, hqueue⟩ := h.goToSleep (.wait q s.nnodes .direct) .direct rfl hcur hidle
  obtain ⟨s', L', hrun, h', hsame, -⟩ := h₁.schedule
  refine ⟨s', L', ?_, h', ?_⟩
  · simp only [Sched.wqWait, hrun₁, bind, Except.bind]
    exact hrun
  · show L' (.wqHead q) = (Function.update t.queue e (t.queue e ++ [s.current]) e).map .wqNode
    rw [hsame.waits, hqueue, hq, Function.update_self, List.map_append]
    rfl

/-- **`wq_wake_one`**: the process that has waited longest leaves the queue. -/
theorem wqWakeOne_queue (h : CoreInv s L) (hq : QueueIs L q (t.queue e)) (hcur : (s.procs s.current).pc.waiting = none)
    (hfirst : ∀ p ∈ (t.queue e).head?, ¬ Queued L p) :
    ∃ s' L', s.wqWakeOne q = .ok s' ∧ CoreInv s' L' ∧ QueueIs L' q ((t.wqWakeOne e).queue e) := by
  have hhead : ∀ p, s.mem.next (.wqHead q) = some (.wqNode p) → ¬ Queued L p := by
    intro p hp
    apply hfirst p
    cases hl : t.queue e with
    | nil =>
        have hself := (h.lists.next_eq_self_iff (show IsHead (.wqHead q) from trivial)).mpr (by rw [hq, hl]; rfl)
        rw [hself] at hp
        cases hp
    | cons r rs =>
        have hnext := h.lists.next_eq_head (show IsHead (.wqHead q) from trivial) (hq.trans (congrArg _ hl))
        rw [hnext] at hp
        cases hp
        rfl
  obtain ⟨s', L', hrun, h', -, -, -, -, -, htail, -⟩ := h.wqWakeOne q hcur hhead
  refine ⟨s', L', hrun, h', ?_⟩
  unfold QueueIs PipeSys.wqWakeOne
  rw [htail, hq]
  cases hl : t.queue e with
  | nil => simp [hl]
  | cons r rs => simp

/-- **`wq_wake_all`**: the queue is empty afterwards. -/
theorem wqWakeAll_queue (h : CoreInv s L) (hq : QueueIs L q (t.queue e)) (hcur : (s.procs s.current).pc.waiting = none)
    (hall : ∀ p ∈ t.queue e, ¬ Queued L p) :
    ∃ s' L', s.wqWakeAll q = .ok s' ∧ CoreInv s' L' ∧ QueueIs L' q ((t.wqWakeAll e).queue e) := by
  have hnone : ∀ p, Addr.wqNode p ∈ L (.wqHead q) → ¬ Queued L p := by
    intro p hp
    rw [hq] at hp
    obtain ⟨r, hr, heq⟩ := List.mem_map.mp hp
    cases heq
    exact hall p hr
  obtain ⟨s', L', hrun, h', -, -, -, -, -, hempty, -⟩ := h.wqWakeAll q hcur hnone
  refine ⟨s', L', hrun, h', ?_⟩
  show L' (.wqHead q) = (Function.update t.queue e [] e).map .wqNode
  rw [hempty, Function.update_self]
  rfl

/-- **The end of `wq_wait`** after a signal: the process takes its own node off. -/
theorem wqWaitEnd_queue (h : CoreInv s L) (hq : QueueIs L q (t.queue e)) {k : Nat}
    (hw : (s.procs s.current).pc.waiting = some (q, k)) (hmem : s.current ∈ t.queue e) (c : Caller) :
    ∃ s' L', s.wqWaitEnd q k c = .ok s' ∧ CoreInv s' L' ∧ QueueIs L' q ((t.unlink s.current e).queue e) := by
  have hlinked : Addr.wqNode s.current ∈ L (.wqHead q) := by
    rw [hq]
    exact List.mem_map_of_mem hmem
  obtain ⟨m', L', hdel, h₁, hoff, -, hrest, -⟩ := h.delOwn hw hlinked
  refine ⟨_, L', ?_, (h₁.endWait c hoff).1, ?_⟩
  · simp only [Sched.wqWaitEnd, hdel, bind, Except.bind]
    rfl
  · show L' (.wqHead q) = (Function.update t.queue e ((t.queue e).filter fun p => p ≠ s.current) e).map .wqNode
    rw [hrest, hq, Function.update_self, List.filter_map]
    congr 1
    apply List.filter_congr
    intro p _
    simp

end

end MyUnix.Ipc
