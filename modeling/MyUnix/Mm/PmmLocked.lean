import MyUnix.Lib.SpinLock
import MyUnix.Mm.PmmCount
import MyUnix.Mm.PmmRun

/-!
# `Mm.PmmLocked` — the frame allocator under `g_pmm_lock`

Every function of `pmm.c` that changes the bitmap does it between `spinlock_lock` and `spinlock_unlock`. Here the code in
between is cut into its reads and writes of the shared variables, so that a process can lose the processor at any of them:
`pmmCode`. Run without a break it computes the functions of `Mm.Pmm` (`pmmCode_denotes`), and so every interleaving of any
number of callers is a sequence of whole calls.

An instruction reads or writes shared variables once: a word of the bitmap is loaded and tested in one of them and
stored in a later one, and the counters are changed one at a time. What a call has in its registers is its place
(`PmmPc`). So the data between two instructions of a call may be in a state that no whole call leaves behind; the lock
is what keeps the others from seeing it, and `Lib.SpinLock` turns this into a statement about runs.

`pmmCallers` is the contract that the functions of `pmm.c` have with those who call them: a caller frees only frames
that it was given, no two callers free the same frame at the same time, and `pmm_alloc_n` is asked for two frames or
more, since with fewer it does not take the lock itself. A caller that breaks it reaches the panic of the double free,
or takes a frame away from someone.
-/

namespace MyUnix.Mm

open Lib

/-- What a call comes back with; `panic` is the double free. -/
inductive PmmResult where
  | addr (phys : Nat)
  | freed
  | panic
deriving DecidableEq

/-- What becomes of `g_alloc_hint` when the frames are taken: only `pmm_alloc` moves it. -/
inductive HintUse where
  | moves
  | stays
deriving DecidableEq

/-- Where a call is between its lock and its unlock. -/
inductive PmmPc where
  /-- `pmm_alloc`: the test of `g_free_pages`, then the two passes over the words. -/
  | allocEntry
  | allocWord (w stop : Nat) (again : Option Nat)
  /-- `pmm_alloc_zone`. -/
  | zoneEntry (bound : Nat)
  | zoneFrame (pfn maxPfn : Nat)
  /-- `pmm_alloc_n`. -/
  | runEntry (n : Nat)
  | runFrame (n pfn count start : Nat)
  /-- Frames `p` to `stop` are taken: bit, free pages, used pages of each. -/
  | takeBit (p stop : Nat) (hint : HintUse) (phys : Nat)
  | takeFree (p stop : Nat) (hint : HintUse) (phys : Nat)
  | takeUsed (p stop : Nat) (hint : HintUse) (phys : Nat)
  | takeHint (next phys : Nat)
  | wrapHint (phys : Nat)
  /-- `pmm_free`. -/
  | freeTest (pfn : Nat)
  | freeBit (pfn : Nat)
  | freeFree (pfn : Nat)
  | freeUsed (pfn : Nat)
  | freeHint (pfn : Nat)
deriving DecidableEq

/-- The first instruction of a call. -/
def PmmPc.entry : PmmOp → PmmPc
  | .alloc => .allocEntry
  | .allocZone zone => (zone.maxPhys.map .zoneEntry).getD .allocEntry
  | .allocN n => .runEntry n
  | .free phys | .freeN phys _ => .freeTest (phys / pageSize)

/-- One instruction. -/
def pmmInstr : PmmPc → Pmm → (PmmPc × Pmm) ⊕ (PmmResult × Pmm)
  | .allocEntry, s =>
    if s.freePages = 0#64 then .inr (.addr 0, s)
    else .inl (.allocWord (s.allocHint / 64) ((s.totalPages + 63) / 64) (some (s.allocHint / 64)), s)
  | .allocWord w stop again, s =>
    if w < stop then
      match s.scanWord w with
      | none => .inl (.allocWord (w + 1) stop again, s)
      | some pfn => .inl (.takeBit pfn (pfn + 1) .moves (pfn * pageSize), s)
    else
      match again with
      | none => .inr (.addr 0, s)
      -- from the hint on nothing is free: once more from word 0 up to the hint
      | some startWord => .inl (.allocWord 0 startWord none, s)
  | .zoneEntry bound, s => .inl (.zoneFrame 1 (min (bound / pageSize) s.totalPages), s)
  | .zoneFrame pfn maxPfn, s =>
    if pfn < maxPfn then
      if s.bitmapTest pfn = false then .inl (.takeBit pfn (pfn + 1) .stays (pfn * pageSize), s)
      else .inl (.zoneFrame (pfn + 1) maxPfn, s)
    else .inr (.addr 0, s)
  | .runEntry n, s => if s.freePages.toNat < n then .inr (.addr 0, s) else .inl (.runFrame n 1 0 0, s)
  | .runFrame n pfn count start, s =>
    if pfn < s.totalPages then
      if s.bitmapTest pfn = false then
        let start := if count = 0 then pfn else start
        if count + 1 = n then .inl (.takeBit start (start + n) .stays (start * pageSize), s)
        else .inl (.runFrame n (pfn + 1) (count + 1) start, s)
      -- a frame in use: the count begins again behind it
      else .inl (.runFrame n (pfn + 1) 0 start, s)
    else .inr (.addr 0, s)
  | .takeBit p stop hint phys, s =>
    if p < stop then .inl (.takeFree p stop hint phys, s.bitmapSet p)
    else match hint with
      | .moves => .inl (.takeHint stop phys, s)
      | .stays => .inr (.addr phys, s)
  | .takeFree p stop hint phys, s => .inl (.takeUsed p stop hint phys, { s with freePages := s.freePages - 1#64 })
  | .takeUsed p stop hint phys, s => .inl (.takeBit (p + 1) stop hint phys, { s with usedPages := s.usedPages + 1#64 })
  | .takeHint next phys, s => .inl (.wrapHint phys, { s with allocHint := next })
  | .wrapHint phys, s =>
    .inr (.addr phys, if s.totalPages ≤ s.allocHint then { s with allocHint := 0 } else s)
  | .freeTest pfn, s => if s.bitmapTest pfn = false then .inr (.panic, s) else .inl (.freeBit pfn, s)
  | .freeBit pfn, s => .inl (.freeFree pfn, s.bitmapClear pfn)
  | .freeFree pfn, s => .inl (.freeUsed pfn, { s with freePages := s.freePages + 1#64 })
  | .freeUsed pfn, s => .inl (.freeHint pfn, { s with usedPages := s.usedPages - 1#64 })
  | .freeHint pfn, s => .inr (.freed, if pfn < s.allocHint then { s with allocHint := pfn } else s)

/-- The code of `pmm.c` under its lock. -/
def pmmCode : LockedCode PmmOp PmmPc PmmResult Pmm := ⟨PmmPc.entry, pmmInstr⟩

/-! ## What the code computes

`pmmValue` says for every place inside a call what the rest of it will make of the data: the searches as functions of
the words that are left, the marking of frames as a function of the frames that are left. `pmmInstr_value` has one
case for each kind of place, and is the only proof that looks at instructions.
-/

/-- The frames are taken and their address is the result; `pmm_alloc` also moves the hint behind them. -/
def Pmm.finish (s : Pmm) (p stop : Nat) (hint : HintUse) (phys : Nat) : PmmResult × Pmm :=
  let t := (List.range' p (stop - p)).foldl Pmm.take s
  (.addr phys, match hint with
    | .moves => { t with allocHint := if t.totalPages ≤ stop then 0 else stop }
    | .stays => t)

/-- A search has ended. -/
def Pmm.found (s : Pmm) (n : Nat) (hint : HintUse) : Option Nat → PmmResult × Pmm
  | none => (.addr 0, s)
  | some start => s.finish start (start + n) hint (start * pageSize)

/-- The hint goes back to the beginning when it has reached the end. -/
def Pmm.wrapHint (s : Pmm) : Pmm := { s with allocHint := if s.totalPages ≤ s.allocHint then 0 else s.allocHint }

/-- What is left of a call. -/
def pmmValue : PmmPc → Pmm → PmmResult × Pmm
  | .allocEntry, s =>
    if s.freePages = 0#64 then (.addr 0, s)
    else s.found 1 .moves ((s.scanWords (s.allocHint / 64) ((s.totalPages + 63) / 64)).or
      (s.scanWords 0 (s.allocHint / 64)))
  | .allocWord w stop again, s => s.found 1 .moves ((s.scanWords w stop).or (again.bind (s.scanWords 0)))
  | .zoneEntry bound, s =>
    s.found 1 .stays ((List.range' 1 (min (bound / pageSize) s.totalPages - 1)).find? fun pfn => !s.bitmapTest pfn)
  | .zoneFrame pfn maxPfn, s =>
    s.found 1 .stays ((List.range' pfn (maxPfn - pfn)).find? fun pfn => !s.bitmapTest pfn)
  | .runEntry n, s =>
    if s.freePages.toNat < n then (.addr 0, s)
    else s.found n .stays (s.findRun n (List.range' 1 (s.totalPages - 1)) 0 0)
  | .runFrame n pfn count start, s =>
    s.found n .stays (s.findRun n (List.range' pfn (s.totalPages - pfn)) count start)
  | .takeBit p stop hint phys, s => s.finish p stop hint phys
  | .takeFree p stop hint phys, s =>
    Pmm.finish { s with freePages := s.freePages - 1#64, usedPages := s.usedPages + 1#64 } (p + 1) stop hint phys
  | .takeUsed p stop hint phys, s => Pmm.finish { s with usedPages := s.usedPages + 1#64 } (p + 1) stop hint phys
  | .takeHint next phys, s => (.addr phys, Pmm.wrapHint { s with allocHint := next })
  | .wrapHint phys, s => (.addr phys, s.wrapHint)
  | .freeTest pfn, s =>
    if s.bitmapTest pfn = false then (.panic, s)
    else (.freed, { s.release pfn with allocHint := if pfn < s.allocHint then pfn else s.allocHint })
  | .freeBit pfn, s => (.freed, { s.release pfn with allocHint := if pfn < s.allocHint then pfn else s.allocHint })
  | .freeFree pfn, s =>
    (.freed, { s with
      freePages := s.freePages + 1#64
      usedPages := s.usedPages - 1#64
      allocHint := if pfn < s.allocHint then pfn else s.allocHint })
  | .freeUsed pfn, s =>
    (.freed, { s with
      usedPages := s.usedPages - 1#64
      allocHint := if pfn < s.allocHint then pfn else s.allocHint })
  | .freeHint pfn, s => (.freed, { s with allocHint := if pfn < s.allocHint then pfn else s.allocHint })

/-- A whole call: `pmmCode` from its first instruction. -/
def pmmWhole (op : PmmOp) (s : Pmm) : PmmResult × Pmm := pmmValue (.entry op) s

theorem Pmm.wrapHint_eq (s : Pmm) : (if s.totalPages ≤ s.allocHint then { s with allocHint := 0 } else s) = s.wrapHint := by
  unfold Pmm.wrapHint
  split
  · rfl
  · rfl

/-- The frames from `p` on below `stop`: `p` comes first. -/
theorem frames_step {p stop : Nat} (h : p < stop) :
    List.range' p (stop - p) = p :: List.range' (p + 1) (stop - (p + 1)) := by
  rw [show stop - p = (stop - (p + 1)) + 1 by omega, List.range'_succ]

theorem frames_end {p stop : Nat} (h : ¬p < stop) : List.range' p (stop - p) = [] := by
  rw [show stop - p = 0 by omega]
  rfl

theorem Pmm.scanWords_step (s : Pmm) {w stop : Nat} (h : w < stop) :
    s.scanWords w stop = (s.scanWord w).or (s.scanWords (w + 1) stop) := by
  unfold Pmm.scanWords
  rw [frames_step h, List.findSome?_cons]
  cases s.scanWord w <;> rfl

theorem Pmm.scanWords_end (s : Pmm) {w stop : Nat} (h : ¬w < stop) : s.scanWords w stop = none := by
  unfold Pmm.scanWords
  rw [frames_end h]
  rfl

theorem Pmm.finish_step (s : Pmm) {p stop : Nat} (h : p < stop) (hint : HintUse) (phys : Nat) :
    s.finish p stop hint phys = (s.take p).finish (p + 1) stop hint phys := by
  unfold Pmm.finish
  rw [frames_step h, List.foldl_cons]

theorem Pmm.finish_end (s : Pmm) {p stop : Nat} (h : ¬p < stop) (phys : Nat) :
    s.finish p stop .moves phys = (.addr phys, Pmm.wrapHint { s with allocHint := stop }) ∧
      s.finish p stop .stays phys = (.addr phys, s) := by
  unfold Pmm.finish
  rw [frames_end h]
  exact ⟨rfl, rfl⟩

/-- **One instruction** leaves of a call what was left, or its result. -/
theorem pmmInstr_value (l : PmmPc) (s : Pmm) : (pmmInstr l s).elim (fun x => pmmValue x.1 x.2) id = pmmValue l s := by
  cases l with
  | allocEntry =>
    rw [pmmInstr, pmmValue.eq_1]
    by_cases hfree : s.freePages = 0#64
    · rw [if_pos hfree, if_pos hfree]
      rfl
    · rw [if_neg hfree, if_neg hfree]
      rfl
  | allocWord w stop again =>
    rw [pmmValue.eq_2]
    simp only [pmmInstr]
    by_cases hlt : w < stop
    · rw [if_pos hlt, s.scanWords_step hlt]
      cases s.scanWord w with
      | none => rfl
      | some pfn => rfl
    · -- the words from the hint on are done, those below it may be left
      rw [if_neg hlt, s.scanWords_end hlt]
      cases again with
      | none => rfl
      | some startWord =>
        refine (pmmValue.eq_2 s 0 startWord none).trans ?_
        simp
  | zoneEntry bound => rfl
  | zoneFrame pfn maxPfn =>
    rw [pmmInstr, pmmValue.eq_4]
    by_cases hlt : pfn < maxPfn
    · rw [if_pos hlt, frames_step hlt, List.find?_cons]
      cases s.bitmapTest pfn with
      | false => rfl
      | true => rfl
    · rw [if_neg hlt, frames_end hlt]
      rfl
  | runEntry n =>
    rw [pmmInstr, pmmValue.eq_5]
    by_cases hfew : s.freePages.toNat < n
    · rw [if_pos hfew, if_pos hfew]
      rfl
    · rw [if_neg hfew, if_neg hfew]
      rfl
  | runFrame n pfn count start =>
    rw [pmmInstr, pmmValue.eq_6]
    by_cases hlt : pfn < s.totalPages
    · rw [if_pos hlt, frames_step hlt, Pmm.findRun]
      by_cases htest : s.bitmapTest pfn = false
      · rw [if_pos htest, if_pos htest]
        simp only
        by_cases hlast : count + 1 = n
        · rw [if_pos hlast, if_pos hlast]
          rfl
        · rw [if_neg hlast, if_neg hlast]
          rfl
      · -- a frame in use ends the run
        rw [if_neg htest, if_neg htest]
        rfl
    · rw [if_neg hlt, frames_end hlt]
      rfl
  | takeBit p stop hint phys =>
    rw [pmmValue.eq_7]
    simp only [pmmInstr]
    by_cases hlt : p < stop
    · rw [if_pos hlt, s.finish_step hlt]
      rfl
    · rw [if_neg hlt]
      cases hint with
      | moves => exact (s.finish_end hlt phys).1.symm
      | stays => exact (s.finish_end hlt phys).2.symm
  | takeFree p stop hint phys => rfl
  | takeUsed p stop hint phys => rfl
  | takeHint next phys => rfl
  | wrapHint phys =>
    rw [pmmInstr, s.wrapHint_eq]
    rfl
  | freeTest pfn =>
    rw [pmmInstr, pmmValue.eq_12]
    by_cases htest : s.bitmapTest pfn = false
    · rw [if_pos htest, if_pos htest]
      rfl
    · rw [if_neg htest, if_neg htest]
      rfl
  | freeBit pfn => rfl
  | freeFree pfn => rfl
  | freeUsed pfn => rfl
  | freeHint pfn =>
    rw [pmmInstr, pmmValue]
    split
    · rfl
    · rfl

/-- **The instructions keep what is left of a call.** -/
theorem pmmCode_denotes : Denotes pmmCode pmmWhole pmmValue := .of_value (fun _ _ => rfl) pmmInstr_value

/-! ## Whole calls are the functions of `pmm.c`

The value at the first instruction is the function of `Mm.Pmm`, so nothing about bitmaps has to be proved again.
-/

namespace Pmm

variable (s : Pmm)

theorem found_moves (o : Option Nat) : s.found 1 .moves o =
    match o with
    | none => (.addr 0, s)
    | some pfn =>
      (.addr (pfn * pageSize), { s.take pfn with allocHint := if s.totalPages ≤ pfn + 1 then 0 else pfn + 1 }) := by
  cases o with
  | none => rfl
  | some pfn =>
    show s.finish pfn (pfn + 1) .moves _ = _
    rw [finish, Nat.add_sub_cancel_left]
    rfl

theorem found_stays (o : Option Nat) : s.found 1 .stays o =
    match o with
    | none => (.addr 0, s)
    | some pfn => (.addr (pfn * pageSize), s.take pfn) := by
  cases o with
  | none => rfl
  | some pfn =>
    show s.finish pfn (pfn + 1) .stays _ = _
    rw [finish, Nat.add_sub_cancel_left]
    rfl

theorem whole_alloc : pmmValue .allocEntry s = (.addr s.pmmAlloc.1, s.pmmAlloc.2) := by
  rw [pmmValue, pmmAlloc]
  split
  · rfl
  · rw [found_moves]
    simp only
    generalize (s.scanWords _ _).or _ = o
    cases o <;> rfl

theorem whole_allocZone (zone : Zone) :
    pmmWhole (.allocZone zone) s = (.addr (s.pmmAllocZone zone).1, (s.pmmAllocZone zone).2) := by
  rw [pmmWhole, PmmPc.entry, pmmAllocZone]
  cases hb : zone.maxPhys with
  | none => exact s.whole_alloc
  | some bound =>
    show pmmValue (.zoneEntry bound) s = _
    rw [pmmValue, found_stays]
    simp only
    generalize List.find? _ _ = o
    cases o <;> rfl

theorem whole_allocN {n : Nat} (hn : 2 ≤ n) :
    pmmWhole (.allocN n) s = (.addr (s.pmmAllocN n).1, (s.pmmAllocN n).2) := by
  show pmmValue (.runEntry n) s = _
  have h0 : n ≠ 0 := by omega
  have h1 : n ≠ 1 := by omega
  rw [pmmValue, pmmAllocN, if_neg h0, if_neg h1]
  split
  · rfl
  · generalize s.findRun n _ 0 0 = o
    cases o with
    | none => rfl
    | some start =>
      show s.finish start (start + n) .stays _ = _
      rw [finish, Nat.add_sub_cancel_left]

/-- A frame that the caller may free is freed. -/
theorem whole_free {phys : Nat} {t : Pmm} (halign : phys % pageSize = 0) (h0 : phys / pageSize ≠ 0)
    (hlt : phys / pageSize < s.totalPages) (hf : s.pmmFree phys = some t) : pmmWhole (.free phys) s = (.freed, t) := by
  show pmmValue (.freeTest (phys / pageSize)) s = _
  have hphys : phys ≠ 0 := by
    rintro rfl
    exact h0 rfl
  rw [pmmFree, if_neg (by simp [hphys, halign])] at hf
  simp only at hf
  rw [if_neg (by omega)] at hf
  split at hf
  next => cases hf
  next htest =>
    cases hf
    rw [pmmValue, if_neg htest]
    rfl

end Pmm

/-! ## The callers

Who holds what follows from the finished calls (`heldFrames`). The invariant of a whole call is that of `Mm.PmmRun`
with these books.
-/

section

variable {T : Type}

/-- The frames that callers have, after one more call. -/
def heldAfter (held : List Nat) : PmmOp → PmmResult → List Nat
  | .alloc, .addr phys | .allocZone _, .addr phys => framesAt phys 1 ++ held
  | .allocN n, .addr phys => framesAt phys n ++ held
  | .free phys, .freed => held.filter fun f => f ≠ phys / pageSize
  | _, _ => held

/-- The frames that were handed out and not freed since. -/
def heldFrames (log : List (T × PmmOp × PmmResult)) : List Nat := log.foldl (fun held e => heldAfter held e.2.1 e.2.2) []

theorem heldFrames_append (log : List (T × PmmOp × PmmResult)) (e : T × PmmOp × PmmResult) :
    heldFrames (log ++ [e]) = heldAfter (heldFrames log) e.2.1 e.2.2 := by
  rw [heldFrames, List.foldl_append]
  rfl

/-- The calls that take the lock: `pmm_alloc_n` of fewer than two frames does not come so far, and `pmm_free_n` is so many
    calls of `pmm_free`. Only frames are freed that were handed out, and none by two callers at once. -/
def pmmCallers : Contract T PmmOp PmmResult where
  may log
    | .alloc | .allocZone _ => True
    | .allocN n => 2 ≤ n
    | .free phys => phys % pageSize = 0 ∧ phys / pageSize ∈ heldFrames log
    | .freeN .. => False
  apart
    | .free phys, .free phys' => phys / pageSize ≠ phys' / pageSize
    | _, _ => True
  keeps := by
    intro log q q' t r hq hq' hapart
    cases q with
    | alloc => trivial
    | allocZone zone => trivial
    | allocN n => exact hq
    | freeN phys n => exact hq
    | free phys =>
      refine ⟨hq.1, ?_⟩
      rw [heldFrames_append]
      have hmem := hq.2
      cases q' with
      | alloc | allocZone zone | allocN n =>
        cases r with
        | addr p => exact List.mem_append_right _ hmem
        | freed | panic => exact hmem
      | free phys' =>
        cases r with
        | freed => exact List.mem_filter.mpr ⟨hmem, decide_eq_true hapart⟩
        | addr p => exact hmem
        | panic => exact hmem
      | freeN phys' n => exact hmem

/-- What holds of the finished calls and of what they have made of the allocator. -/
structure CallsInv (s₀ : Pmm) (log : List (T × PmmOp × PmmResult)) (d : Pmm) : Prop where
  frames  : ∃ handed, PmmInv s₀ ⟨d, heldFrames log, handed⟩
  counted : Counted d
  calm    : ∀ e ∈ log, e.2.2 ≠ .panic

/-- **One whole call**. -/
theorem CallsInv.step {s₀ d d' : Pmm} {log log' : List (T × PmmOp × PmmResult)} {e : T × PmmOp × PmmResult}
    (h : CallsInv s₀ log d) (hz : ZeroUsed s₀) (hc : pmmCallers.Atomic pmmWhole (log, d) e (log', d')) :
    CallsInv s₀ log' d' := by
  obtain ⟨t, op, r⟩ := e
  obtain ⟨hmay, hop, hlog⟩ := hc
  obtain ⟨handed, hinv⟩ := h.frames
  simp only at hmay hop hlog
  have hbound : s₀.totalPages ≤ 2 ^ 52 := hinv.total ▸ h.counted.bound
  -- an allocation, with its frames
  have alloc : ∀ {x : Nat × Pmm} {n : Nat}, (.addr x.1, x.2) = (r, d') → heldAfter (heldFrames log) op (.addr x.1) =
      framesAt x.1 n ++ heldFrames log → PmmInv s₀ (PmmSys.grant ⟨d, heldFrames log, handed⟩ x n) → Counted x.2 →
      CallsInv s₀ log' d' := by
    intro x n hx hheld hgrant hcount
    obtain ⟨rfl, rfl⟩ := Prod.mk.inj hx
    refine ⟨⟨framesAt x.1 n ++ handed, ?_⟩, hcount, fun e he => ?_⟩
    · rw [hlog, heldFrames_append, hheld]
      exact hgrant
    · rw [hlog] at he
      rcases List.mem_append.mp he with he | he
      · exact h.calm e he
      · rw [List.mem_singleton.mp he]
        exact PmmResult.noConfusion
  cases op with
  | alloc =>
    have hs {x} (hx : pmmStep ⟨d, heldFrames log, handed⟩ .alloc = some x) := hinv.step hz hbound hx
    exact alloc (d.whole_alloc.symm.trans hop) rfl (hs rfl) h.counted.pmmAlloc
  | allocZone zone =>
    have hs {x} (hx : pmmStep ⟨d, heldFrames log, handed⟩ (.allocZone zone) = some x) := hinv.step hz hbound hx
    exact alloc ((d.whole_allocZone zone).symm.trans hop) rfl (hs rfl) (h.counted.pmmAllocZone zone)
  | allocN n =>
    have hs {x} (hx : pmmStep ⟨d, heldFrames log, handed⟩ (.allocN n) = some x) := hinv.step hz hbound hx
    exact alloc ((d.whole_allocN hmay).symm.trans hop) rfl (hs rfl) (h.counted.pmmAllocN n)
  | free phys =>
    obtain ⟨halign, hmem⟩ := hmay
    have hused := (hinv.owned _ hmem).1
    obtain ⟨h0, hlt, -⟩ := hinv.handed _ (hinv.owned _ hmem).2
    have hlt' : phys / pageSize < d.totalPages := hinv.total ▸ hlt
    obtain ⟨p, hp, -⟩ := d.pmmFree_spec h0 hlt' hused
    rw [Nat.div_mul_cancel (Nat.dvd_of_mod_eq_zero halign)] at hp
    rw [d.whole_free halign h0 hlt' hp] at hop
    obtain ⟨rfl, rfl⟩ := Prod.mk.inj hop
    have hstep : pmmStep ⟨d, heldFrames log, handed⟩ (.free phys) =
        some ⟨p, (heldFrames log).filter fun f => f ≠ phys / pageSize, handed⟩ := by
      rw [pmmStep, if_pos ⟨halign, hmem⟩, hp]
      rfl
    refine ⟨⟨handed, ?_⟩, h.counted.pmmFree hp, fun e he => ?_⟩
    · rw [hlog, heldFrames_append]
      exact hinv.step hz hbound hstep
    · rw [hlog] at he
      rcases List.mem_append.mp he with he | he
      · exact h.calm e he
      · rw [List.mem_singleton.mp he]
        exact PmmResult.noConfusion
  | freeN phys n => exact absurd hmay id

/-- **The frame allocator under its lock.** However the instructions of its callers are interleaved: no two of them are
    between lock and unlock at once; the frames that callers have are pairwise distinct, none of them frame 0 or one that
    was in use at the start; no free panics; and whenever the lock is free these frames are marked, and `g_free_pages`
    counts the frames that are not. -/
theorem pmm_interleaved [DecidableEq T] (info : BootInfo) (garbage : Nat → BitVec 64) (s₀ : Pmm)
    (es : List (LockEvent T PmmOp)) (s : LockSys T PmmOp PmmPc PmmResult Pmm)
    (hinit : pmmInitFromMultiboot info garbage = some s₀) (hcover : s₀.totalPages ≤ 8 * bitmapBytes s₀.totalPages)
    (hrun : Run (Guarded pmmCallers.Admits (Graph (lockStep pmmCode))) (LockSys.init s₀) es s) :
    (∀ t t', (s.pc t).holds = true → (s.pc t').holds = true → t = t') ∧
      (heldFrames s.log).Nodup ∧
      (∀ f ∈ heldFrames s.log, f ≠ 0 ∧ f < s₀.totalPages ∧ s₀.bitmapTest f = false) ∧
      (∀ e ∈ s.log, e.2.2 ≠ .panic) ∧
      (s.locked = false → (∀ f ∈ heldFrames s.log, s.data.bitmapTest f = true) ∧
        s.data.freePages.toNat = s.data.freeFrames.card) := by
  obtain ⟨-, hz, -⟩ := pmmInit_spec hinit
  obtain ⟨⟨d, hcalls, hfree⟩, honly⟩ := LockSys.serializable pmmCode_denotes hrun
  have hinv : CallsInv s₀ s.log d := by
    refine hcalls.invariant (fun x => CallsInv s₀ x.1 x.2) ⟨⟨[], ?_⟩, Counted.pmmInit hinit hcover, ?_⟩ ?_
    · exact ⟨rfl, fun _ => id, List.nodup_nil, by simp [heldFrames], by simp⟩
    · intro e he
      exact absurd he List.not_mem_nil
    · intro x e y hx hstep
      exact hx.step hz hstep
  obtain ⟨handed, hframes⟩ := hinv.frames
  refine ⟨honly, hframes.nodup, fun f hf => hframes.handed f (hframes.owned f hf).2, hinv.calm, fun hl => ?_⟩
  rw [hfree hl]
  exact ⟨fun f hf => (hframes.owned f hf).1, hinv.counted.free⟩

end

/-- Two callers of `pmm_alloc`, the second of which spins while the first is at work. -/
def twoCallers : List (LockEvent Bool PmmOp) :=
  [.call false .alloc, .call true .alloc, .testAndSet false, .testAndSet true] ++ List.replicate 12 (.instr false) ++
    [.testAndSet true, .unlock false, .testAndSet true] ++ List.replicate 8 (.instr true) ++ [.unlock true]

theorem pmm_interleaved_two : ∃ s₀ s, pmmInitFromMultiboot smallMachine (fun _ => 0#64) = some s₀ ∧
    Run (Graph (lockStep pmmCode)) (LockSys.init s₀) twoCallers s ∧ heldFrames s.log = [260, 259] ∧
      s.data.freePages.toNat = s.data.freeFrames.card := by
  obtain ⟨s₀, hs₀⟩ := Option.isSome_iff_exists.mp
    (show (pmmInitFromMultiboot smallMachine (fun _ => 0#64)).isSome by decide +kernel)
  have hget : s₀ = (pmmInitFromMultiboot smallMachine (fun _ => 0#64)).get (by decide +kernel) := by simp [hs₀]
  obtain ⟨hcover, hsome, hheld⟩ : s₀.totalPages ≤ 8 * bitmapBytes s₀.totalPages ∧
      (twoCallers.foldlM (lockStep pmmCode) (LockSys.init s₀)).isSome ∧
      heldFrames (after (lockStep pmmCode) (LockSys.init s₀) twoCallers).log = [260, 259] ∧
      (after (lockStep pmmCode) (LockSys.init s₀) twoCallers).locked = false := by
    rw [hget]; decide +kernel
  have hrun := Run.of_after hsome
  have hok : ∀ s : LockSys Bool PmmOp PmmPc PmmResult Pmm, ∀ e ∈ twoCallers, pmmCallers.Admits s e := by
    intro s e he
    have hall : ∀ e ∈ twoCallers, ∀ t : Bool, (e.requests (fun _ => none) t).getD .alloc = .alloc := by decide
    cases e with
    | call t q =>
      have hq := hall _ he t
      rw [LockEvent.requests, Function.update_self] at hq
      obtain rfl : q = .alloc := hq
      exact ⟨trivial, fun u q' _ => ⟨trivial, by cases q' <;> trivial⟩⟩
    | testAndSet t => trivial
    | instr t => trivial
    | unlock t => trivial
  obtain ⟨-, -, -, -, hfree⟩ := pmm_interleaved _ _ s₀ _ _ hs₀ hcover (hrun.guard hok)
  exact ⟨s₀, _, hs₀, hrun, hheld.1, (hfree hheld.2).2⟩

end MyUnix.Mm
