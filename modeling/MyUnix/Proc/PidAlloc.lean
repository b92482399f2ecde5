import MyUnix.Proc.ProcTree

/-!
# `Proc.PidAlloc` — `pid_alloc` over whole runs

The loop of `pid_alloc` stops when `g_next_pid` is back at its start. It goes from `PID_MAX` back to 2 and moves on in
the same round, so `g_next_pid` is never 1 or 2 where the loop tests it: with a full table it would not stop for these
two starts. `g_next_pid` is 1 before the first call, with an empty table, and 2 after it, when only pid 1 was handed out
(`Handout`).

The run here is only about the table, with any installation and any `pid_free` in between, also such as the kernel
does not make. That the search ends is proved with a measure on the slots around the table; that it does not run past
its own start needs to know that the start is not one of the two pids which the wrap-around skips.
-/

namespace MyUnix.Proc

/-- The pids handed out by `pid_alloc` so far, beside the state. -/
structure PidSys where
  sys   : ProcSys
  given : List Nat

/-- A step on the table of pids. -/
inductive PidEvent where
  | alloc
  | install (pid : Nat) (p : ProcPtr)
  | free (pid : Int)

/-- `g_pid_table[pid] = proc`. -/
def ProcSys.enter (s : ProcSys) (pid : Nat) (p : ProcPtr) : ProcSys :=
  { s with pidTable := Function.update s.pidTable pid (some p) }

/-- One step: a process is installed only under a pid that `pid_alloc` has returned. `pid_free` takes any `pid_t`. -/
inductive PidStep : PidSys → PidEvent → PidSys → Prop
  | allocated {s t given pid} (h : s.pidAlloc = some (some pid, t)) : PidStep ⟨s, given⟩ .alloc ⟨t, pid :: given⟩
  | full {s t given} (h : s.pidAlloc = some (none, t)) : PidStep ⟨s, given⟩ .alloc ⟨t, given⟩
  | install {s given pid p} (h : pid ∈ given) : PidStep ⟨s, given⟩ (.install pid p) ⟨s.enter pid p, given⟩
  | free {s given pid} : PidStep ⟨s, given⟩ (.free pid) ⟨s.pidFree pid.toNat, given⟩

/-- After `proc_init`. -/
def pidBoot : PidSys := ⟨procInit, []⟩

/-- What is known of `g_next_pid` and of the pids handed out. -/
structure Handout (s : PidSys) : Prop where
  next_pos : 1 ≤ s.sys.nextPid
  next_le : s.sys.nextPid ≤ pidMax
  range : ∀ pid ∈ s.given, 1 ≤ pid ∧ pid < pidMax
  occupied : ∀ pid, s.sys.pidTable pid ≠ none → pid ∈ s.given
  first : s.sys.nextPid = 1 → s.given = []
  second : s.sys.nextPid = 2 → ∀ pid ∈ s.given, pid = 1

/-- A search that finds nothing has seen every slot from `next` to `start`, around the end of the table. -/
theorem pidSearch_none (table : Nat → Option ProcPtr) {start : Nat} (hlo : 3 ≤ start) :
    ∀ (fuel next : Nat) {n : Nat}, 2 ≤ next → next ≤ pidMax → ProcSys.pidSearch table start fuel next = some (none, n) →
      ∀ q, 2 ≤ q → q < pidMax → (start ≤ next ∧ (next ≤ q ∨ q < start) ∨ next < start ∧ next ≤ q ∧ q < start) →
        table q ≠ none := by
  have hmax : pidMax = 65536 := rfl
  intro fuel
  induction fuel with
  | zero => exact fun next n _ _ h => nomatch h
  | succ fuel ih =>
    intro next n h2 hnext h q hq hqlt hrange
    rw [ProcSys.pidSearch] at h
    generalize hk : (if pidMax ≤ next then 2 else next) = k at h
    split at h
    next => cases h
    next hocc =>
      split at h
      next hend =>
        -- the slot before `start` was the last one
        have hqk : q = k := by
          split at hk <;> omega
        rwa [hqk]
      next hend =>
        by_cases hqk : q = k
        · rwa [hqk]
        · refine ih (k + 1) ?_ ?_ h q hq hqlt ?_
          · split at hk <;> omega
          · split at hk <;> omega
          · split at hk <;> omega

namespace Handout

variable {s t : PidSys} {e : PidEvent}

theorem init : Handout pidBoot where
  next_pos := by decide
  next_le := by decide
  range := nofun
  occupied _ h := absurd rfl h
  first _ := rfl
  second h := nomatch h

/-- The slot at `g_next_pid` is empty while the loop could not stop. -/
theorem fresh (h : Handout s) (hlt : s.sys.nextPid < 3) : s.sys.pidTable s.sys.nextPid = none := by
  by_contra hocc
  have hmem := h.occupied _ hocc
  have hpos := h.next_pos
  have hcases : s.sys.nextPid = 1 ∨ s.sys.nextPid = 2 := by omega
  rcases hcases with h1 | h2
  · rw [h.first h1] at hmem
    cases hmem
  · have := h.second h2 _ hmem
    omega

/-- **`pid_alloc`** comes to an end. -/
theorem pidAlloc (h : Handout s) : ∃ r n, s.sys.pidAlloc = some (r, { s.sys with nextPid := n }) ∧
    ProcSys.pidSearch s.sys.pidTable s.sys.nextPid pidMax s.sys.nextPid = some (r, n) := by
  have hmax : pidMax = 65536 := rfl
  have hsome : (ProcSys.pidSearch s.sys.pidTable s.sys.nextPid pidMax s.sys.nextPid).isSome := by
    by_cases hlt : s.sys.nextPid < 3
    · rw [pidSearch_free (by omega) (h.fresh hlt) (by omega)]
      rfl
    · have hle := h.next_le
      apply pidSearch_isSome <;> omega
  obtain ⟨⟨r, n⟩, hrn⟩ := Option.isSome_iff_exists.1 hsome
  refine ⟨r, n, ?_, hrn⟩
  rw [ProcSys.pidAlloc, hrn]
  rfl

/-- What it returns is empty; it returns nothing exactly when all slots from 2 on are occupied. -/
theorem pidAlloc_spec (h : Handout s) {r : Option Nat} {n : Nat}
    (hrn : ProcSys.pidSearch s.sys.pidTable s.sys.nextPid pidMax s.sys.nextPid = some (r, n)) :
    (∀ pid, r = some pid → 1 ≤ pid ∧ pid < pidMax ∧ s.sys.pidTable pid = none ∧ n = pid + 1 ∧
      (pid = 1 → s.sys.nextPid = 1)) ∧
    (r = none → n = s.sys.nextPid) ∧
    (r = none ↔ 2 ≤ s.sys.nextPid ∧ ∀ q, 2 ≤ q → q < pidMax → s.sys.pidTable q ≠ none) := by
  have hmax : pidMax = 65536 := rfl
  have hpos := h.next_pos
  have hle := h.next_le
  obtain ⟨hfound, hend⟩ := pidSearch_spec s.sys.pidTable s.sys.nextPid pidMax s.sys.nextPid hpos hrn
  refine ⟨fun pid hpid => ?_, hend, fun hr => ?_, fun ⟨h2, hfull⟩ => ?_⟩
  · obtain ⟨hnone, hlt, hge, hn⟩ := hfound pid hpid
    exact ⟨by omega, hlt, hnone, hn, by omega⟩
  · by_cases hlt : s.sys.nextPid < 3
    · rw [pidSearch_free (by omega) (h.fresh hlt) (by omega)] at hrn
      cases hr
      cases hrn
    · subst hr
      refine ⟨by omega, fun q hq hqlt => ?_⟩
      exact pidSearch_none s.sys.pidTable (by omega) pidMax _ (by omega) hle hrn q hq hqlt (by omega)
  · cases r with
    | none => rfl
    | some pid =>
      obtain ⟨hnone, hlt, hge, -⟩ := hfound pid rfl
      exact absurd hnone (hfull pid (by omega) hlt)

/-! ## Runs

The invariant says where `g_next_pid` can be, and that a pid is handed out again only after it was freed.
-/

theorem step (h : Handout s) (hstep : PidStep s e t) : Handout t := by
  cases hstep with
  | @allocated s t given pid hout =>
    obtain ⟨r, n, hcode, hrn⟩ := h.pidAlloc
    obtain ⟨rfl, rfl⟩ := Prod.mk.inj (Option.some.inj (hout.symm.trans hcode))
    obtain ⟨hpos, hlt, hnone, rfl, hfirst⟩ := (h.pidAlloc_spec hrn).1 pid rfl
    exact {
      next_pos := Nat.succ_le_succ (Nat.zero_le _)
      next_le := hlt
      range := fun q hq => by
        rcases List.mem_cons.1 hq with rfl | hq
        · exact ⟨hpos, hlt⟩
        · exact h.range q hq
      occupied := fun q hq => List.mem_cons_of_mem _ (h.occupied q hq)
      first := fun h1 => absurd (Nat.succ.inj h1) (Nat.ne_of_gt hpos)
      -- `next` is 2 only after pid 1 was given out, the first of all
      second := fun h2 q hq => by
        obtain rfl : pid = 1 := Nat.succ.inj h2
        have hnil : given = [] := h.first (hfirst rfl)
        rw [hnil] at hq
        exact List.mem_singleton.1 hq }
  | @full s t given hout =>
    obtain ⟨r, n, hcode, hrn⟩ := h.pidAlloc
    obtain ⟨rfl, rfl⟩ := Prod.mk.inj (Option.some.inj (hout.symm.trans hcode))
    obtain rfl := (h.pidAlloc_spec hrn).2.1 rfl
    exact ⟨h.next_pos, h.next_le, h.range, h.occupied, h.first, h.second⟩
  | @install s given pid p hmem =>
    refine ⟨h.next_pos, h.next_le, h.range, fun q hq => ?_, h.first, h.second⟩
    -- only a pid that was given out is entered in the table
    by_cases hqp : q = pid
    · rw [hqp]
      exact hmem
    · have hold : (s.enter pid p).pidTable q = s.pidTable q := Function.update_of_ne hqp _ _
      exact h.occupied q (hold ▸ hq)
  | @free s given pid =>
    -- `pid_free` empties a slot and does not touch `next`
    have hnext : (s.pidFree pid.toNat).nextPid = s.nextPid := by
      rw [ProcSys.pidFree]
      split <;> rfl
    have htable : ∀ q, (s.pidFree pid.toNat).pidTable q ≠ none → s.pidTable q ≠ none := by
      intro q hq
      rw [ProcSys.pidFree] at hq
      split at hq
      next => exact hq
      next =>
        intro hnone
        apply hq
        by_cases hqp : q = pid.toNat
        · rw [hqp]
          exact Function.update_self ..
        · exact (Function.update_of_ne hqp _ _).trans hnone
    exact {
      next_pos := hnext ▸ h.next_pos
      next_le := hnext ▸ h.next_le
      range := h.range
      occupied := fun q hq => h.occupied q (htable q hq)
      first := fun h1 => h.first (hnext ▸ h1)
      second := fun h2 => h.second (hnext ▸ h2) }

end Handout

/-- **`pid_alloc` in every reachable state** ends; what it returns is the pid of an empty slot, and it returns -1
    exactly when all slots from 2 on are occupied. -/
theorem pid_alloc_ends (s : PidSys) (es : List PidEvent) (hrun : Lib.Run PidStep pidBoot es s) :
    ∃ r t, s.sys.pidAlloc = some (r, t) ∧
      (∀ pid, r = some pid → 1 ≤ pid ∧ pid ≤ 65535 ∧ s.sys.pidTable pid = none) ∧
      (r = none ↔ 2 ≤ s.sys.nextPid ∧ ∀ q, 2 ≤ q → q ≤ 65535 → s.sys.pidTable q ≠ none) := by
  have h : Handout s := hrun.invariant Handout Handout.init fun _ _ _ h hstep => h.step hstep
  obtain ⟨r, n, hcode, hrn⟩ := h.pidAlloc
  obtain ⟨hfound, -, hfull⟩ := h.pidAlloc_spec hrn
  refine ⟨r, _, hcode, fun pid hpid => ?_, hfull.trans ?_⟩
  · obtain ⟨hpos, hlt, hnone, -, -⟩ := hfound pid hpid
    exact ⟨hpos, Nat.le_of_lt_succ hlt, hnone⟩
  · exact and_congr_right fun _ => forall_congr' fun q => forall_congr' fun _ => imp_congr_left Nat.lt_succ_iff

/-- Pid 1 was handed out, and a process installed under it. -/
def pidOne : PidSys := ⟨{ procInit with nextPid := 2 }.enter 1 7, [1]⟩

theorem pid_alloc_ends_one : ∃ r t, pidOne.sys.pidAlloc = some (r, t) ∧
    (∀ pid, r = some pid → 1 ≤ pid ∧ pid ≤ 65535 ∧ pidOne.sys.pidTable pid = none) ∧
    (r = none ↔ 2 ≤ pidOne.sys.nextPid ∧ ∀ q, 2 ≤ q → q ≤ 65535 → pidOne.sys.pidTable q ≠ none) := by
  have hsearch : ProcSys.pidSearch procInit.pidTable procInit.nextPid pidMax procInit.nextPid = some (some 1, 2) :=
    pidSearch_free (by decide) rfl (by decide)
  have halloc : procInit.pidAlloc = some (some 1, { procInit with nextPid := 2 }) := by
    rw [ProcSys.pidAlloc, hsearch]
    rfl
  exact pid_alloc_ends pidOne [.alloc, .install 1 7]
    (.tail (.tail .refl (.allocated halloc)) (.install (List.mem_singleton_self 1)))

end MyUnix.Proc
