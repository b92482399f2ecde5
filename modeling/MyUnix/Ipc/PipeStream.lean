import MyUnix.Ipc.Pipe

/-!
# `Ipc.PipeStream` — what goes in comes out

Whatever the interleaving, the bytes between the two positions of the buffer are the written bytes that were not
delivered yet (`Stream`). Only two kinds of step touch the buffer (`pipeStep_effect`), and the size of the buffer
divides `2 ^ 64`, so positions may wrap.

`written` and the deliveries to readers are logs that the state keeps for the statements. The result about end of file
is about a call as a whole, so the state of a reader is followed from the step in which it enters: a read that has
moved bytes does not return 0, and one that has moved none returns only when the write end is closed and the buffer
empty, or when it was killed or asked for nothing.
-/

namespace MyUnix.Ipc

open Lib

theorem pipeBufSize_dvd : pipeBufSize ∣ 2 ^ 64 := ⟨2 ^ 48, by decide⟩

/-- The steps that copy no byte. -/
structure SameStream (s t : PipeSys) : Prop where
  ring      : t.pipe.ring = s.pipe.ring
  avail     : t.pipe.avail = s.pipe.avail
  written   : t.written = s.written
  delivered : t.delivered = s.delivered

namespace SameStream

variable {s t u : PipeSys}

theorem refl : SameStream s s := ⟨rfl, rfl, rfl, rfl⟩

theorem wqWakeOne (e : End) : SameStream s (s.wqWakeOne e) := by
  unfold PipeSys.wqWakeOne
  split
  · exact refl
  · exact ⟨rfl, rfl, rfl, rfl⟩

theorem setPc (h : SameStream s t) (p : Nat) (c : Pc) : SameStream s (t.setPc p c) :=
  ⟨h.ring, h.avail, h.written, h.delivered⟩

theorem unlink (p : Nat) (e : End) : SameStream s (s.unlink p e) := ⟨rfl, rfl, rfl, rfl⟩

end SameStream

/-- A process copies bytes out. -/
def ReadStep (s : PipeSys) (p : Nat) (t : PipeSys) : Prop :=
  ∃ len woken, s.pc p = .readLoop len woken ∧ 0 < s.pipe.avail ∧ t = s.readSection p len woken

/-- A process copies bytes in. -/
def WriteStep (s : PipeSys) (p : Nat) (t : PipeSys) : Prop :=
  ∃ rest done woken, s.pc p = .writeLoop rest done woken ∧ rest ≠ [] ∧
    0 < (pipeBufSize + 2 ^ 64 - s.pipe.avail) % 2 ^ 64 ∧ t = s.writeSection p rest done woken

theorem advance_effect {s t : PipeSys} {p : Nat} (h : s.advance p = some t) :
    SameStream s t ∨ ReadStep s p t ∨ WriteStep s p t := by
  unfold PipeSys.advance at h
  split at h
  · cases h
  · cases h
  · cases h
  · cases h
  · rename_i len woken hpc
    cases h
    by_cases havail : 0 < s.pipe.avail
    · exact Or.inr (Or.inl ⟨len, woken, hpc, havail, rfl⟩)
    · unfold PipeSys.readSection
      rw [if_neg havail]
      split
      · exact Or.inl (SameStream.refl.setPc p _)
      · exact Or.inl (SameStream.refl.setPc p _)
  · cases h
    exact Or.inl ((SameStream.wqWakeOne .write).setPc p _)
  · cases h
    exact Or.inl ⟨rfl, rfl, rfl, rfl⟩
  · cases h
    exact Or.inl ((SameStream.unlink p .read).setPc p _)
  · rename_i rest done woken hpc
    cases h
    by_cases hrest : rest = []
    · unfold PipeSys.writeSection
      rw [if_pos hrest]
      exact Or.inl (SameStream.refl.setPc p _)
    · by_cases hspace : 0 < (pipeBufSize + 2 ^ 64 - s.pipe.avail) % 2 ^ 64
      · exact Or.inr (Or.inr ⟨rest, done, woken, hpc, hrest, hspace, rfl⟩)
      · unfold PipeSys.writeSection
        simp only [if_neg hrest, if_neg hspace]
        exact Or.inl (SameStream.refl.setPc p _)
  · cases h
    exact Or.inl ((SameStream.wqWakeOne .read).setPc p _)
  · cases h
    exact Or.inl ⟨rfl, rfl, rfl, rfl⟩
  · cases h
    exact Or.inl ((SameStream.unlink p .write).setPc p _)
  · cases h
    exact Or.inl ⟨rfl, rfl, rfl, rfl⟩

/-- **What a step does to the buffer**: nothing, one chunk out, or one chunk in. -/
theorem pipeStep_effect {s t : PipeSys} {ev : PipeEv} (h : pipeStep s ev = some t) :
    SameStream s t ∨ ∃ p, ReadStep s p t ∨ WriteStep s p t := by
  unfold pipeStep at h
  split at h
  · cases h
  · cases ev with
    | read p len =>
        simp only [Option.ite_none_right_eq_some, Option.some.injEq] at h
        exact Or.inl (h.2 ▸ SameStream.refl.setPc p _)
    | write p bytes =>
        simp only [Option.ite_none_right_eq_some, Option.some.injEq] at h
        exact Or.inl (h.2 ▸ SameStream.refl.setPc p _)
    | close p e =>
        simp only [Option.ite_none_right_eq_some, Option.some.injEq] at h
        exact Or.inl (h.2 ▸ ⟨rfl, rfl, rfl, rfl⟩)
    | kill p =>
        cases h
        exact Or.inl ⟨rfl, rfl, rfl, rfl⟩
    | signal p =>
        cases h
        exact Or.inl (SameStream.refl.setPc p _)
    | run p => exact (advance_effect h).imp_right fun hs => ⟨p, hs⟩

/-- **The stream**: the buffer holds the written bytes that were not delivered. -/
def Stream (s : PipeSys) : Prop :=
  ∃ unread, Ring.Holds pipeBufSize (2 ^ 64) s.pipe.ring s.pipe.avail unread ∧ s.written = s.delivered ++ unread

theorem Stream.init : Stream pipeInit := ⟨[], ⟨by decide, by decide, by decide, rfl⟩, rfl⟩

theorem space_eq {n : Nat} (h : n ≤ pipeBufSize) : (pipeBufSize + 2 ^ 64 - n) % 2 ^ 64 = pipeBufSize - n := by
  unfold pipeBufSize at *
  omega

/-- **One step** keeps the stream, and writes no cell of an unread byte. -/
theorem Stream.step {s t : PipeSys} {ev : PipeEv} (hs : Stream s) (h : pipeStep s ev = some t) :
    Stream t ∧ ∀ i < s.pipe.avail, t.pipe.ring.cells ((s.pipe.ring.readPos + i) % pipeBufSize) =
      s.pipe.ring.cells ((s.pipe.ring.readPos + i) % pipeBufSize) := by
  obtain ⟨unread, hold, hw⟩ := hs
  rcases pipeStep_effect h with hsame | ⟨p, ⟨len, woken, -, havail, rfl⟩ | ⟨rest, done, woken, -, hrest, hspace, rfl⟩⟩
  · refine ⟨⟨unread, ?_, ?_⟩, fun i _ => ?_⟩
    · rw [hsame.ring, hsame.avail]
      exact hold
    · rw [hsame.written, hsame.delivered]
      exact hw
    · rw [hsame.ring]
  · obtain ⟨htake, hdrop⟩ := hold.read pipeBufSize_dvd (Nat.min_le_right len s.pipe.avail)
    unfold PipeSys.readSection
    rw [if_pos havail]
    refine ⟨⟨unread.drop (min len s.pipe.avail), hdrop, ?_⟩, fun i _ => ?_⟩
    · show s.written = s.delivered ++ (Ring.read pipeBufSize (2 ^ 64) _ s.pipe.ring).1 ++ _
      rw [htake, List.append_assoc, List.take_append_drop]
      exact hw
    · exact congrFun (Ring.read_cells _ _) _
  · have hle := hold.le
    rw [space_eq hle] at hspace
    have hfit : s.pipe.avail + (rest.take (min rest.length (pipeBufSize - s.pipe.avail))).length ≤ pipeBufSize := by
      rw [List.length_take]
      omega
    have hlen : (rest.take (min rest.length (pipeBufSize - s.pipe.avail))).length =
        min rest.length (pipeBufSize - s.pipe.avail) := by
      rw [List.length_take]
      omega
    have hwrite := hold.write pipeBufSize_dvd hfit
    rw [hlen] at hwrite
    unfold PipeSys.writeSection
    simp only [if_neg hrest, space_eq hle, if_pos hspace]
    refine ⟨⟨_, hwrite, ?_⟩, fun i hi => hold.write_keeps pipeBufSize_dvd hfit hi⟩
    show s.written ++ _ = _
    rw [hw, List.append_assoc]

/-! ## When a read returns 0

What the others do in between does not matter, except for closing the end.
-/

namespace PipeSys

variable {s t : PipeSys} {p q : Nat} {c : Pc} {e : End}

@[simp] theorem setPc_self : (s.setPc p c).pc p = c := Function.update_self _ _ _

theorem setPc_of_ne (h : q ≠ p) : (s.setPc p c).pc q = s.pc q := Function.update_of_ne h _ _

@[simp] theorem unlink_pc : (s.unlink p e).pc = s.pc := rfl

theorem wqWakeOne_pc : (s.wqWakeOne e).pc q = s.pc q ∨ (s.wqWakeOne e).pc q = (s.pc q).wake := by
  unfold wqWakeOne
  split
  · exact Or.inl rfl
  · rename_i r rs _
    by_cases hqr : q = r
    · subst hqr
      exact Or.inr (Function.update_self _ _ _)
    · exact Or.inl (Function.update_of_ne hqr _ _)

theorem wqWakeAll_pc : (s.wqWakeAll e).pc q = s.pc q ∨ (s.wqWakeAll e).pc q = (s.pc q).wake := by
  show (if q ∈ s.queue e then (s.pc q).wake else s.pc q) = _ ∨ (if q ∈ s.queue e then (s.pc q).wake else s.pc q) = _
  split
  · exact Or.inr rfl
  · exact Or.inl rfl

end PipeSys

/-- The process that takes the step. -/
def PipeEv.actor : PipeEv → Nat
  | .read p _ | .write p _ | .close p _ | .kill p | .signal p | .run p => p

/-- **The others** are left where they are, or woken. -/
theorem pipeStep_pc_other {s t : PipeSys} {ev : PipeEv} {q : Nat} (h : pipeStep s ev = some t)
    (hq : q ≠ ev.actor) : t.pc q = s.pc q ∨ t.pc q = (s.pc q).wake := by
  unfold pipeStep at h
  split at h
  · cases h
  · cases ev with
    | read p len =>
        simp only [Option.ite_none_right_eq_some, Option.some.injEq] at h
        rw [← h.2]
        exact Or.inl (PipeSys.setPc_of_ne hq)
    | write p bytes =>
        simp only [Option.ite_none_right_eq_some, Option.some.injEq] at h
        rw [← h.2]
        exact Or.inl (PipeSys.setPc_of_ne hq)
    | close p e =>
        simp only [Option.ite_none_right_eq_some, Option.some.injEq] at h
        rw [← h.2]
        exact Or.inl (PipeSys.setPc_of_ne hq)
    | kill p =>
        cases h
        exact Or.inl rfl
    | signal p =>
        cases h
        exact Or.inl (PipeSys.setPc_of_ne hq)
    | run p =>
        -- a step of `p` inside its call sets the place of `p`, and a wake those of the sleepers
        change q ≠ p at hq
        simp only [PipeSys.advance] at h
        split at h
        · cases h
        · cases h
        · cases h
        · cases h
        · cases h
          unfold PipeSys.readSection
          split
          · exact Or.inl (Function.update_of_ne hq _ _)
          · split
            · exact Or.inl (PipeSys.setPc_of_ne hq)
            · exact Or.inl (PipeSys.setPc_of_ne hq)
        · cases h
          rw [PipeSys.setPc_of_ne hq]
          exact PipeSys.wqWakeOne_pc
        · cases h
          exact Or.inl (Function.update_of_ne hq _ _)
        · cases h
          exact Or.inl (PipeSys.setPc_of_ne hq)
        · cases h
          simp only [PipeSys.writeSection]
          split
          · exact Or.inl (PipeSys.setPc_of_ne hq)
          · split
            · exact Or.inl (Function.update_of_ne hq _ _)
            · exact Or.inl (PipeSys.setPc_of_ne hq)
        · cases h
          rw [PipeSys.setPc_of_ne hq]
          exact PipeSys.wqWakeOne_pc
        · cases h
          exact Or.inl (Function.update_of_ne hq _ _)
        · cases h
          exact Or.inl (PipeSys.setPc_of_ne hq)
        · cases h
          rw [PipeSys.setPc_of_ne hq]
          exact PipeSys.wqWakeAll_pc

/-! ## One reader

What a process that asked for some bytes can do next, and that it keeps what it has read in mind.
-/

/-- A read that has copied bytes out has copied some, if any were asked for. -/
def ReadsSome (s : PipeSys) : Prop := ∀ p len n woken, s.pc p = .readWake len n woken → 0 < len → 0 < n

theorem Pc.readLen_wake (c : Pc) : c.wake.readLen = c.readLen := by
  cases c <;> rfl

theorem Pc.wake_eq_readWake {c : Pc} {len n : Nat} {woken : Bool} (h : c.wake = .readWake len n woken) :
    c = .readWake len n woken := by
  cases c <;> simp_all [Pc.wake]

theorem Pc.not_free_of_readLen {c : Pc} {len : Nat} (h : c.readLen = some len) : c.free = false := by
  cases c <;> simp_all [Pc.readLen, Pc.free]

/-- **The step of a reader**: what the process that asked for `len` bytes can come to. -/
theorem reader_step {s t : PipeSys} {p len : Nat} (hlen : (s.pc p).readLen = some len) (h : s.advance p = some t) :
    (∃ woken, s.pc p = .readLoop len woken ∧ 0 < s.pipe.avail ∧
      t.pc p = .readWake len (min len s.pipe.avail) woken) ∨
    (s.pipe.avail = 0 ∧ s.pipe.closed .write = true ∧ t.pc p = .returned 0) ∨
    (∃ n woken, s.pc p = .readWake len n woken ∧ t.pc p = .returned n) ∨
    t.pc p = .returned (-eintr) ∨ ∃ woken, t.pc p = .readLoop len woken ∨ t.pc p = .readSleep len woken ∨
      t.pc p = .readAsleep len := by
  unfold PipeSys.advance at h
  split at h
  · cases h
  · cases h
  · cases h
  · cases h
  · rename_i len' woken hpc
    rw [hpc] at hlen ⊢
    cases hlen
    cases h
    -- bytes are there, or the end of the data is, or the reader goes to sleep
    unfold PipeSys.readSection
    split
    · rename_i havail
      exact Or.inl ⟨woken, rfl, havail, Function.update_self _ _ _⟩
    · rename_i havail
      split
      · rename_i hclosed
        exact Or.inr (Or.inl ⟨by omega, hclosed, PipeSys.setPc_self⟩)
      · exact Or.inr (Or.inr (Or.inr (Or.inr ⟨woken, Or.inr (Or.inl PipeSys.setPc_self)⟩)))
  · rename_i len' n woken hpc
    rw [hpc] at hlen ⊢
    cases hlen
    cases h
    exact Or.inr (Or.inr (Or.inl ⟨n, woken, rfl, PipeSys.setPc_self⟩))
  · rename_i len' woken hpc
    rw [hpc] at hlen
    cases hlen
    cases h
    exact Or.inr (Or.inr (Or.inr (Or.inr ⟨woken, Or.inr (Or.inr (Function.update_self _ _ _))⟩)))
  · rename_i len' hpc
    rw [hpc] at hlen
    cases hlen
    cases h
    rw [PipeSys.setPc_self]
    split
    · exact Or.inr (Or.inr (Or.inr (Or.inl rfl)))
    · exact Or.inr (Or.inr (Or.inr (Or.inr ⟨true, Or.inl rfl⟩)))
  -- the places of a writer and of a close are none of a reader
  all_goals
    rename_i hpc
    rw [hpc] at hlen
    cases hlen

/-- A process copies bytes out only where a reader does. -/
theorem advance_readWake {s t : PipeSys} {p len n : Nat} {woken : Bool} (h : s.advance p = some t)
    (ht : t.pc p = .readWake len n woken) : 0 < s.pipe.avail ∧ n = min len s.pipe.avail := by
  unfold PipeSys.advance at h
  split at h
  · cases h
  · cases h
  · cases h
  · cases h
  · cases h
    -- only this section leads there; every other step sets another place
    unfold PipeSys.readSection at ht
    split at ht
    · rename_i havail
      simp only [Function.update_self] at ht
      cases ht
      exact ⟨havail, rfl⟩
    · split at ht <;> (rw [PipeSys.setPc_self] at ht; cases ht)
  · cases h
    rw [PipeSys.setPc_self] at ht
    cases ht
  · cases h
    simp only [PipeSys.wqWait, Function.update_self] at ht
    cases ht
  · cases h
    rw [PipeSys.setPc_self] at ht
    split at ht <;> cases ht
  · cases h
    simp only [PipeSys.writeSection] at ht
    split at ht
    · rw [PipeSys.setPc_self] at ht
      cases ht
    · split at ht
      · simp only [Function.update_self] at ht
        cases ht
      · rw [PipeSys.setPc_self] at ht
        cases ht
  · cases h
    rw [PipeSys.setPc_self] at ht
    cases ht
  · cases h
    simp only [PipeSys.wqWait, Function.update_self] at ht
    cases ht
  · cases h
    rw [PipeSys.setPc_self] at ht
    split at ht <;> cases ht
  · cases h
    rw [PipeSys.setPc_self] at ht
    cases ht

/-- A process that enters `pipe_read_fn` or is in it starts or makes a step of a reader. -/
theorem pipeStep_reader {s t : PipeSys} {ev : PipeEv} {q len : Nat} (h : pipeStep s ev = some t)
    (hlen : (s.pc q).readLen = some len) :
    t.pc q = s.pc q ∨ t.pc q = (s.pc q).wake ∨ s.advance q = some t := by
  by_cases hq : q = ev.actor
  · have hfree := Pc.not_free_of_readLen hlen
    unfold pipeStep at h
    split at h
    · cases h
    · cases ev with
      | read p len =>
          change q = p at hq
          simp [← hq, hfree] at h
      | write p bytes =>
          change q = p at hq
          simp [← hq, hfree] at h
      | close p e =>
          change q = p at hq
          simp [← hq, hfree] at h
      | kill p =>
          cases h
          exact Or.inl rfl
      | signal p =>
          change q = p at hq
          subst hq
          cases h
          exact Or.inr (Or.inl PipeSys.setPc_self)
      | run p =>
          change q = p at hq
          exact Or.inr (Or.inr (hq ▸ h))
  · exact (pipeStep_pc_other h hq).imp_right Or.inl

theorem ReadsSome.step {s t : PipeSys} {ev : PipeEv} (hs : ReadsSome s) (h : pipeStep s ev = some t) :
    ReadsSome t := by
  intro q len n woken hpc hpos
  by_cases hq : q = ev.actor
  · unfold pipeStep at h
    split at h
    · cases h
    · cases ev with
      | read p len' =>
          change q = p at hq
          subst hq
          simp only [Option.ite_none_right_eq_some, Option.some.injEq] at h
          rw [← h.2, PipeSys.setPc_self] at hpc
          cases hpc
      | write p bytes =>
          change q = p at hq
          subst hq
          simp only [Option.ite_none_right_eq_some, Option.some.injEq] at h
          rw [← h.2, PipeSys.setPc_self] at hpc
          split at hpc <;> cases hpc
      | close p e =>
          change q = p at hq
          subst hq
          simp only [Option.ite_none_right_eq_some, Option.some.injEq] at h
          rw [← h.2, PipeSys.setPc_self] at hpc
          cases hpc
      | kill p =>
          cases h
          exact hs q len n woken hpc hpos
      | signal p =>
          change q = p at hq
          subst hq
          cases h
          rw [PipeSys.setPc_self] at hpc
          exact hs q len n woken (Pc.wake_eq_readWake hpc) hpos
      | run p =>
          change q = p at hq
          subst hq
          obtain ⟨havail, rfl⟩ := advance_readWake h hpc
          omega
  · rcases pipeStep_pc_other h hq with hsame | hwake
    · exact hs q len n woken (hsame ▸ hpc) hpos
    · exact hs q len n woken (Pc.wake_eq_readWake (hwake ▸ hpc)) hpos

/-- **End of file.** A call that asked for bytes returns 0 only with the write end closed and nothing left. -/
theorem read_returns_zero {s t : PipeSys} {ev : PipeEv} {q len : Nat} (hs : Stream s) (hr : ReadsSome s)
    (h : pipeStep s ev = some t) (hlen : (s.pc q).readLen = some len) (hpos : 0 < len)
    (ht : t.pc q = .returned 0) : s.pipe.closed .write = true ∧ s.delivered = s.written := by
  rcases pipeStep_reader h hlen with hsame | hwake | hadv
  · rw [← hsame, ht] at hlen
    cases hlen
  · rw [← Pc.readLen_wake, ← hwake, ht] at hlen
    cases hlen
  · rcases reader_step hlen hadv with ⟨w, -, -, hpc⟩ | ⟨havail, hclosed, -⟩ | ⟨n, w, hold, hpc⟩ | hpc |
      ⟨w, hpc | hpc | hpc⟩
    · rw [ht] at hpc
      cases hpc
    · obtain ⟨unread, hold, hw⟩ := hs
      have hnil : unread = [] := by
        rw [← List.length_eq_zero_iff, hold.length, havail]
      rw [hnil, List.append_nil] at hw
      exact ⟨hclosed, hw.symm⟩
    · have := hr q len n w hold hpos
      rw [ht, Pc.returned.injEq] at hpc
      omega
    all_goals
      rw [ht] at hpc
      cases hpc

/-- **The pipe is a stream**, in every interleaving and for any amount of traffic: what was read is a prefix of
    what was written and what is missing lies in the buffer; the positions differ by `avail`, modulo the word size;
    no step writes the cell of an unread byte; and a read returns 0 only at the end of the stream. -/
theorem pipe_stream (evs : List PipeEv) (s : PipeSys) (hrun : Run (Graph pipeStep) pipeInit evs s) :
    s.delivered <+: s.written ∧
    s.written = s.delivered ++ Ring.window pipeBufSize s.pipe.ring s.pipe.avail ∧
    (s.pipe.ring.readPos + s.pipe.avail) % 2 ^ 64 = s.pipe.ring.writePos ∧ s.pipe.avail ≤ pipeBufSize ∧
    ∀ ev t, pipeStep s ev = some t →
      (∀ i < s.pipe.avail, t.pipe.ring.cells ((s.pipe.ring.readPos + i) % pipeBufSize) =
        s.pipe.ring.cells ((s.pipe.ring.readPos + i) % pipeBufSize)) ∧
      ∀ p len, (s.pc p).readLen = some len → 0 < len → t.pc p = .returned 0 →
        s.pipe.closed .write = true ∧ s.delivered = s.written := by
  have hinv : Stream s ∧ ReadsSome s := by
    refine hrun.invariant (fun s => Stream s ∧ ReadsSome s) ⟨Stream.init, fun _ _ _ _ h => by cases h⟩ ?_
    intro s ev t hs hstep
    exact ⟨(hs.1.step hstep).1, hs.2.step hstep⟩
  obtain ⟨unread, hold, hw⟩ := hinv.1
  refine ⟨⟨unread, hw.symm⟩, by rw [hold.elems]; exact hw, hold.pos.symm, hold.le, fun ev t hstep => ⟨?_, ?_⟩⟩
  · exact (hinv.1.step hstep).2
  · intro p len hlen hpos ht
    exact read_returns_zero hinv.1 hinv.2 hstep hlen hpos ht

/-- A short run: three bytes written, two of them read. -/
theorem pipe_stream_short :
    ∃ s, Run (Graph pipeStep) pipeInit [.write 1 [7, 8, 9], .run 1, .read 2 2, .run 2] s ∧
      s.delivered = [7, 8] ∧ s.delivered <+: s.written := by
  have hsome : ([PipeEv.write 1 [7, 8, 9], .run 1, .read 2 2, .run 2].foldlM pipeStep pipeInit).isSome := by
    decide +kernel
  have hrun := Run.of_after hsome
  exact ⟨_, hrun, by decide +kernel, (pipe_stream _ _ hrun).1⟩

end MyUnix.Ipc
