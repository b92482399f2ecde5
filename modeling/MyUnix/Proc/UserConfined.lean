import MyUnix.Proc.UserCopies

/-!
# `Proc.UserConfined` — which calls keep to user memory

`read`, `write` and `fstat` are confined whatever they are given. The others are not: `strncpy_from_user` checks the
first byte of a string and follows the rest wherever it goes, the console writes its replies unchecked, and
`getdents64`, the two signal calls and `execve` go on after a copy was refused. `Guarded` says exactly which arguments
and memory contents stay clear of these.

For each call there is a lemma of the form: confined if and only if guarded. The calls that are always confined have
the guard `True`. The others are put together from the pieces of `Proc.UserCopies`, whose sets of accesses belong to
different pointers, so that each can be judged on its own.
-/

namespace MyUnix.Proc

open Arch Ipc Lib

/-! ## The calls

The guard of each call is about its arguments and the memory as the call finds it.
-/

/-- A call starts with an empty log. -/
def Task.enter (t : Task) : Task := { t with user := ⟨t.user.mem, []⟩ }

/-- The records `getdents64` finds from an offset on. -/
def Vnode.remaining (vn : Vnode) (off : Int) : Nat := if 0 ≤ off then vn.listing.length - off.toNat else 0

/-- The range `[addr, addr + n)` ends below the limit. -/
def Below (addr : Word) (n : Nat) : Prop := addr.toNat + n ≤ userEnd.toNat

/-- The arguments and memory contents on which a call is confined. -/
def Guarded (env : Env) (t : Task) : Call → Prop
  | .read _ _ _ | .write _ _ _ | .fstat _ _ => True
  | .open path _ _ | .stat path _ => StrGuarded t.user.mem path pathMax True
  | .ioctl fd req arg =>
    ∀ f vn reply, getFile env fd = some f → f.vnode = some vn → vn.ops = .tty →
      ttyReply env.pgid req.toNat = some reply → reply ≠ [] → arg ≠ 0 → Below arg reply.length
  | .getdents64 fd direntPtr count =>
    ∀ f vn, getFile env fd = some f → f.vnode = some vn → vn.isDir = true →
      0 < min (count.toNat / 280) (vn.remaining f.offset) →
        Below direntPtr (280 * min (count.toNat / 280) (vn.remaining f.offset))
  | .rtSigaction signo actPtr oldactPtr =>
    (1 ≤ signo.toNat ∧ signo.toNat ≤ nsig ∧ signo.toNat ≠ sigkill ∧ signo.toNat ≠ sigstop) → oldactPtr ≠ 0 →
      ¬Below oldactPtr 24 → actPtr ≠ 0 ∧ ¬Below actPtr 24
  | .rtSigprocmask how setPtr oldsetPtr =>
    oldsetPtr ≠ 0 → ¬Below oldsetPtr 8 → setPtr ≠ 0 ∧ (Below setPtr 8 → 2 < (how.setWidth 32).toNat)
  | .execve path argvPtr envpPtr =>
    let mem := t.user.mem
    let fails := env.procExec (cstring mem path pathMax) (argStrings mem argvPtr) (argStrings mem envpPtr) < 0
    StrGuarded mem path pathMax True ∧
      (accessOk path 1#64 = true → Terminated mem path pathMax →
        ArrayGuarded mem argvPtr fails ∧ ArrayGuarded mem envpPtr fails)

section

variable (env : Env) (t : Task)

@[simp] theorem Task.enter_mem : t.enter.user.mem = t.user.mem := rfl

@[simp] theorem Task.enter_accesses : t.enter.user.accesses = ∅ := by
  simp [User.accesses, Task.enter]

theorem Task.enter_log : t.enter.user.log = [] := rfl

theorem confined_of_keeps {t' : Task} {ret : Option Int} {buf len : Word} (hok : accessOk buf len = true)
    (h : Keeps t.enter.user t'.user buf len) : Confined (t', ret) :=
  ConfinedBy.of_inside (h.inside hok t.enter_log)

/-- A call that fails at once. -/
theorem confined_refused {p : Ptr} {buf : Word} {n : Nat} {e : Int} (he : e < 0) :
    Confined ({ t.enter with user := t.enter.user.refuse p buf n }, some e) := by
  refine ConfinedBy.of_not_done ((fails_some e).2 he) ?_
  intro a ha
  simp only [User.accesses_refuse, Task.enter_accesses, Set.empty_union, Set.mem_singleton_iff] at ha
  rw [ha]
  exact id

theorem confined_untouched {ret : Option Int} : Confined (t.enter, ret) :=
  ConfinedBy.of_inside fun a ha => by simp at ha

/-! ### `read`, `write` and the calls on paths

The first two are confined by their check of the whole buffer. A path is copied as a string, of which only the first
byte is checked.
-/

theorem sysRead_confined (fd buf len : Word) : Confined (sysRead env t.enter fd buf len) := by
  rw [sysRead]
  by_cases hok : accessOk buf len = true
  · simp only [hok, Bool.not_true, Bool.false_eq_true, if_false]
    split
    · exact confined_untouched t
    next f hf =>
      apply confined_of_keeps t hok
      simp only
      split
      · exact pipeReadFn_keeps _
      · exact vnodeRead_keeps _ _ _
      · exact Keeps.refl
  · simp only [hok, Bool.not_false, if_true]
    exact confined_refused t (by decide)

theorem sysWrite_confined (fd buf len : Word) : Confined (sysWrite env t.enter fd buf len) := by
  rw [sysWrite]
  by_cases hok : accessOk buf len = true
  · simp only [hok, Bool.not_true, Bool.false_eq_true, if_false]
    split
    · exact confined_untouched t
    next f hf =>
      apply confined_of_keeps t hok
      simp only
      split
      · rw [pipeWriteFn]
        split
        · exact Keeps.refl
        · exact pipeWriteLoop_keeps _ _ _
      · exact vnodeWrite_keeps _ _
      · exact Keeps.refl
  · simp only [hok, Bool.not_false, if_true]
    exact confined_refused t (by decide)

theorem toUser_confined_iff {p : Ptr} {dst : Word} {data : List UInt8} {fails : Prop} (h0 : 0 < data.length)
    (hn : data.length < 2 ^ 64) :
    ConfinedBy {toUserAccess p dst data} fails ↔ Below dst data.length ∨ fails := by
  have hsingle : ∀ a ∈ ({toUserAccess p dst data} : Set Access), a.ptr = p := by
    rintro a rfl
    exact toUserAccess_ptr p dst data
  obtain ⟨hin, hdone⟩ := @toUserAccess_cases p dst data h0 hn
  rw [ConfinedBy.single_iff hsingle]
  simp only [Set.mem_singleton_iff, forall_eq, hin, hdone, Below]
  tauto

theorem fromUser_confined_iff {p : Ptr} {src : Word} {len : Nat} {fails : Prop} (h0 : 0 < len) (hn : len < 2 ^ 64) :
    ConfinedBy {fromUserAccess p src len} fails ↔ Below src len ∨ fails := by
  have hsingle : ∀ a ∈ ({fromUserAccess p src len} : Set Access), a.ptr = p := by
    rintro a rfl
    exact fromUserAccess_ptr p src len
  obtain ⟨hin, hdone⟩ := @fromUserAccess_cases p src len h0 hn
  rw [ConfinedBy.single_iff hsingle]
  simp only [Set.mem_singleton_iff, forall_eq, hin, hdone, Below]
  tauto

theorem confinedBy_empty {fails : Prop} : ConfinedBy ∅ fails :=
  ConfinedBy.of_inside fun _ ha => ha.elim

theorem sysOpen_confined_iff (path flags mode : Word) :
    Confined (sysOpen env t.enter path flags mode) ↔ StrGuarded t.user.mem path pathMax True := by
  obtain ⟨-, hacc, hr, -⟩ := strncpyFromUser_spec t.enter.user (.arg 0) path pathMax
  rw [sysOpen]
  generalize strncpyFromUser t.enter.user (.arg 0) path pathMax = c at *
  obtain ⟨u, r, name⟩ := c
  have hset : u.accesses = copyStrAccesses (.arg 0) t.user.mem path pathMax := by simpa using hacc
  have hout : ∀ ret, (¬accessOk path 1#64 = true → Fails ret) →
      (Confined ({ t.enter with user := u }, ret) ↔ StrGuarded t.user.mem path pathMax True) := by
    intro ret hfail
    rw [Confined, hset, copyStr_confined_iff (by decide), StrGuarded]
    split
    next h => exact Iff.rfl
    next h => exact ⟨fun _ => trivial, fun _ => hfail h⟩
  simp only at hr ⊢
  split
  next h => exact hout _ fun _ => (fails_some r).2 h
  next h => exact hout _ fun hno => absurd (hr.2 fun h' => hno h'.1) h

/-- `do_stat` after the path was read: its own pointer is always checked. -/
theorem doStat_confined_iff {u : User} (vn : Vnode) (statPtr : Word) (hp : ∀ a ∈ u.accesses, a.ptr ≠ .arg 1) :
    Confined ({ t.enter with user := (doStat u vn statPtr).1 }, some (doStat u vn statPtr).2) ↔
      ConfinedBy u.accesses ((doStat u vn statPtr).2 < 0) := by
  rw [Confined, fails_some, doStat]
  split
  · exact Iff.rfl
  next st hst =>
    have hlen : st.toList.length = 120 := st.length_toList
    obtain ⟨hacc, hr⟩ := copyToUser_spec u (.arg 1) statPtr st.toList
    simp only [hacc]
    rw [ConfinedBy.union_iff, and_iff_left_iff_imp]
    · rw [toUser_confined_iff (by omega) (by omega), hr, accessOk_ofNat_iff (by omega)]
      exact fun _ => Classical.em _
    · rintro a ha b rfl
      rw [toUserAccess_ptr]
      exact hp a ha

theorem sysStat_confined_iff (path statPtr : Word) :
    Confined (sysStat env t.enter path statPtr) ↔ StrGuarded t.user.mem path pathMax True := by
  obtain ⟨-, hacc, hr, -⟩ := strncpyFromUser_spec t.enter.user (.arg 0) path pathMax
  rw [sysStat]
  generalize strncpyFromUser t.enter.user (.arg 0) path pathMax = c at *
  obtain ⟨u, r, name⟩ := c
  have hset : u.accesses = copyStrAccesses (.arg 0) t.user.mem path pathMax := by simpa using hacc
  have hout : ∀ fails, (¬accessOk path 1#64 = true → fails) →
      (ConfinedBy u.accesses fails ↔ StrGuarded t.user.mem path pathMax True) := by
    intro fails hfail
    rw [hset, copyStr_confined_iff (by decide), StrGuarded]
    split
    next h => exact Iff.rfl
    next h => exact ⟨fun _ => trivial, fun _ => hfail h⟩
  simp only at hr ⊢
  split
  next h => exact hout _ fun _ => (fails_some r).2 h
  next h =>
    have hok : ¬¬accessOk path 1#64 = true := fun hno => h (hr.2 fun h' => hno h'.1)
    split
    · exact hout _ fun hno => absurd hno hok
    · rw [doStat_confined_iff t]
      · exact hout _ fun hno => absurd hno hok
      · intro a ha
        rw [hset] at ha
        rw [ptr_of_mem_copyStr ha]
        simp

theorem sysFstat_confined (fd statPtr : Word) : Confined (sysFstat env t.enter fd statPtr) := by
  rw [sysFstat]
  split
  · exact confined_untouched t
  · split
    · exact confined_untouched t
    · rw [doStat_confined_iff t _ _ (by simp)]
      rw [Task.enter_accesses]
      exact confinedBy_empty

theorem sysIoctl_confined_iff (fd req arg : Word) : Confined (sysIoctl env t.enter fd req arg) ↔
    ∀ f vn reply, getFile env fd = some f → f.vnode = some vn → vn.ops = .tty →
      ttyReply env.pgid req.toNat = some reply → reply ≠ [] → arg ≠ 0 → Below arg reply.length := by
  rw [sysIoctl]
  cases hf : getFile env fd with
  | none => simpa using confined_untouched t
  | some f =>
    simp only
    split
    next isDir stat listing hvn =>
      rw [ttyIoctl]
      split
      next hrep =>
        refine iff_of_true (confined_untouched t) fun f' vn reply _ _ _ hreply hne _ => ?_
        exact absurd (Option.some.inj (hreply.symm.trans hrep)) hne
      next reply hne hrep =>
        by_cases harg : arg = 0
        · rw [if_pos harg]
          exact iff_of_true (confined_untouched t) fun f' vn reply _ _ _ _ _ hne => absurd harg hne
        · -- the reply is stored whatever `arg` is, and the call succeeds
          have h0 : 0 < reply.length := List.length_pos_iff.2 hne
          have hstore : ConfinedBy {Access.store (.arg 2) arg reply} False ↔ Below arg reply.length := by
            rw [ConfinedBy.single_iff (p := .arg 2) (by rintro a rfl; rfl)]
            simp only [Set.mem_singleton_iff, forall_eq, false_and, or_false]
            exact Access.inside_iff h0
          simp only [harg, if_false, Confined, User.accesses_store, Task.enter_accesses, Set.empty_union,
            fails_some, lt_irrefl, hstore]
          constructor
          · rintro h f' vn reply' hf' hvn' - hrep' - -
            cases hrep.symm.trans hrep'
            exact h
          · exact fun h => h f _ reply rfl hvn rfl hrep hne harg
      next hrep =>
        refine iff_of_true (confined_untouched t) fun f' vn reply _ _ _ hreply _ _ => ?_
        rw [hrep] at hreply
        cases hreply
    next hno =>
      have : ∀ f' vn reply, some f = some f' → f'.vnode = some vn → vn.ops = .tty →
          ttyReply env.pgid req.toNat = some reply → reply ≠ [] → arg ≠ 0 → Below arg reply.length := by
        rintro f' ⟨isDir, ops, stat, listing⟩ reply hff hvn hops
        cases hff
        cases hops
        exact absurd hvn (hno isDir stat listing)
      exact iff_of_true (confined_untouched t) this

/-! ### `getdents64`

The loop stops at the first record that does not fit or cannot be stored; a store that is refused does not fail the
call.
-/

theorem Vnode.remaining_of_readdir {vn : Vnode} {off : Int} {d : Vector UInt8 280} (h : vn.readdir off = some d) :
    vn.remaining off = vn.remaining (off + 1) + 1 := by
  rw [Vnode.readdir] at h
  split at h
  next h0 =>
    obtain ⟨hlt, -⟩ := List.getElem?_eq_some_iff.1 h
    rw [Vnode.remaining, Vnode.remaining, if_pos h0, if_pos (by omega)]
    omega
  next => cases h

theorem Vnode.remaining_of_readdir_none {vn : Vnode} {off : Int} (h : vn.readdir off = none) :
    vn.remaining off = 0 := by
  rw [Vnode.readdir] at h
  rw [Vnode.remaining]
  split at h
  next h0 =>
    rw [if_pos h0]
    have := List.getElem?_eq_none_iff.1 h
    omega
  next h0 => rw [if_neg h0]

/-- One turn of the loop, for a record that is there. -/
theorem getdentsLoop_succ {vn : Vnode} {buf : Word} {u : User} {n i : Nat} {off : Int} {d : Vector UInt8 280}
    (h : vn.readdir off = some d) :
    (Below (buf + BitVec.ofNat 64 (280 * i)) 280 →
      ∃ u', u'.accesses = u.accesses ∪ {toUserAccess (.arg 1) (buf + BitVec.ofNat 64 (280 * i)) d.toList} ∧
        getdentsLoop vn buf u (n + 1) (280 * i) off = getdentsLoop vn buf u' n (280 * (i + 1)) (off + 1)) ∧
    (¬Below (buf + BitVec.ofNat 64 (280 * i)) 280 →
      (getdentsLoop vn buf u (n + 1) (280 * i) off).1.accesses =
        u.accesses ∪ {toUserAccess (.arg 1) (buf + BitVec.ofNat 64 (280 * i)) d.toList}) := by
  have hlen : d.toList.length = 280 := d.length_toList
  obtain ⟨hacc, hr⟩ := copyToUser_spec u (.arg 1) (buf + BitVec.ofNat 64 (280 * i)) d.toList
  rw [accessOk_ofNat_iff (by omega), hlen] at hr
  rw [getdentsLoop, h]
  simp only
  constructor
  · intro hb
    refine ⟨_, hacc, ?_⟩
    rw [if_neg fun hneg => hr.1 hneg hb, Nat.mul_add, Nat.mul_one]
  · intro hb
    rw [if_pos (hr.2 hb)]
    exact hacc

/-- When every record fits, the loop stays inside; else it asks for one that does not. -/
theorem getdentsLoop_spec {vn : Vnode} {buf : Word} (n : Nat) : ∀ (u : User) (i : Nat) (off : Int),
    ((∀ k < min n (vn.remaining off), Below (buf + BitVec.ofNat 64 (280 * (i + k))) 280) →
      ∀ a ∈ (getdentsLoop vn buf u n (280 * i) off).1.accesses, a ∈ u.accesses ∨ a.Inside) ∧
    (¬(∀ k < min n (vn.remaining off), Below (buf + BitVec.ofNat 64 (280 * (i + k))) 280) →
      ∃ a ∈ (getdentsLoop vn buf u n (280 * i) off).1.accesses, a.ptr = .arg 1 ∧ ¬a.Inside) := by
  induction n with
  | zero =>
    intro u i off
    refine ⟨fun _ a ha => .inl ha, fun h => absurd (fun k hk => ?_) h⟩
    simp at hk
  | succ n ih =>
    intro u i off
    cases hd : vn.readdir off with
    | none =>
      rw [Vnode.remaining_of_readdir_none hd, getdentsLoop, hd]
      refine ⟨fun _ a ha => .inl ha, fun h => absurd (fun k hk => ?_) h⟩
      simp at hk
    | some d =>
      have hlen : d.toList.length = 280 := d.length_toList
      obtain ⟨hok, hno⟩ := @getdentsLoop_succ vn buf u n i off d hd
      obtain ⟨hin, -⟩ := @toUserAccess_cases (.arg 1) (buf + BitVec.ofNat 64 (280 * i)) d.toList (by omega) (by omega)
      rw [hlen] at hin
      -- the records after this one are those of the next turn, moved by one
      have hshift : (∀ k < min (n + 1) (vn.remaining off), Below (buf + BitVec.ofNat 64 (280 * (i + k))) 280) ↔
          Below (buf + BitVec.ofNat 64 (280 * i)) 280 ∧
            ∀ k < min n (vn.remaining (off + 1)), Below (buf + BitVec.ofNat 64 (280 * (i + 1 + k))) 280 := by
        rw [Vnode.remaining_of_readdir hd]
        constructor
        · intro h
          refine ⟨h 0 (by omega), fun k hk => ?_⟩
          have := h (k + 1) (by omega)
          rwa [show i + (k + 1) = i + 1 + k by omega] at this
        · rintro ⟨h0, h⟩ k hk
          cases k with
          | zero => exact h0
          | succ k =>
            rw [show i + (k + 1) = i + 1 + k by omega]
            exact h k (by omega)
      rw [hshift]
      by_cases hb : Below (buf + BitVec.ofNat 64 (280 * i)) 280
      · obtain ⟨u', hu', heq⟩ := hok hb
        obtain ⟨ih1, ih2⟩ := ih u' (i + 1) (off + 1)
        rw [heq]
        refine ⟨fun h a ha => ?_, fun h => ih2 fun h' => h ⟨hb, h'⟩⟩
        rcases ih1 h.2 a ha with ha | ha
        · rw [hu'] at ha
          rcases ha with ha | rfl
          · exact .inl ha
          · exact .inr (hin.2 hb)
        · exact .inr ha
      · refine ⟨fun h => absurd h.1 hb, fun _ => ⟨_, ?_, toUserAccess_ptr _ _ _, fun h => hb (hin.1 h)⟩⟩
        rw [hno hb]
        exact .inr rfl

/-- Consecutive records are below the limit when the last one ends there. -/
theorem below_records {buf : Word} {m : Nat} :
    (∀ k < m, Below (buf + BitVec.ofNat 64 (280 * k)) 280) ↔ (0 < m → Below buf (280 * m)) := by
  have hend := userEnd_toNat
  simp only [Below]
  constructor
  · intro h hm
    -- no record wraps around, since each begins where the one before it ended
    have hall : ∀ k ≤ m, 0 < k → buf.toNat + 280 * k ≤ userEnd.toNat := by
      intro k
      induction k with
      | zero => exact fun _ h => absurd h (by omega)
      | succ k ih =>
        intro hk _
        have hlt := buf.isLt
        have hk' := h k (by omega)
        have hbefore : 0 < k → buf.toNat + 280 * k ≤ userEnd.toNat := ih (by omega)
        rw [toNat_add_ofNat (by omega), Nat.add_assoc, ← Nat.mul_succ] at hk'
        exact hk'
    exact hall m le_rfl hm
  · intro h k hk
    have := h (by omega)
    rw [toNat_add_ofNat (by omega)]
    omega

theorem sysGetdents64_confined_iff (fd direntPtr count : Word) :
    Confined (sysGetdents64 env t.enter fd direntPtr count) ↔
    ∀ f vn, getFile env fd = some f → f.vnode = some vn → vn.isDir = true →
      0 < min (count.toNat / 280) (vn.remaining f.offset) →
        Below direntPtr (280 * min (count.toNat / 280) (vn.remaining f.offset)) := by
  rw [sysGetdents64]
  cases hf : getFile env fd with
  | none => exact iff_of_true (confined_untouched t) (by simp)
  | some f =>
    simp only
    cases hvn : f.vnode with
    | none => exact iff_of_true (confined_untouched t) (by rintro f' vn hff hvn'; cases hff; simp [hvn] at hvn')
    | some vn =>
      simp only
      by_cases hdir : vn.isDir = true
      · rw [hdir]
        simp only [Bool.not_true, Bool.false_eq_true, if_false]
        obtain ⟨hall, hsome⟩ := @getdentsLoop_spec vn direntPtr (count.toNat / 280) t.enter.user 0 f.offset
        simp only [Nat.zero_add, Nat.mul_zero, below_records, Task.enter_accesses] at hall hsome
        have hret : ¬Fails (some ((getdentsLoop vn direntPtr t.enter.user (count.toNat / 280) 0 f.offset).2 : Int)) := by
          rw [fails_some]
          omega
        constructor
        · intro hc f' vn' hff hvn'
          cases hff
          cases hvn.symm.trans hvn'
          intro _
          by_contra hno
          obtain ⟨a, ha, hap, hain⟩ := hsome hno
          rcases hc (.arg 1) with h | ⟨h, -⟩
          · exact hain (h a ha hap)
          · exact hret h
        · intro h
          apply ConfinedBy.of_inside
          intro a ha
          exact (hall (h f vn rfl hvn hdir) a ha).resolve_left (by simp)
      · simp only [hdir, Bool.not_false, if_true]
        refine iff_of_true (confined_untouched t) ?_
        rintro f' vn' hff hvn' hdir'
        cases hff
        cases hvn.symm.trans hvn'
        exact absurd hdir' hdir

/-! ### The signal calls

Both go on after the new value could not be read, and store the old one.
-/

/-- The old value goes out through the third argument, when there is one; the result of the copy is dropped. -/
def oldAccesses (old : Word) (data : List UInt8) : Set Access :=
  if old = 0 then ∅ else {toUserAccess (.arg 2) old data}

theorem old_accesses (old : Word) (data : List UInt8) :
    (if old = 0 then t.enter.user else (copyToUser t.enter.user (.arg 2) old data).1).accesses =
      oldAccesses old data := by
  rw [oldAccesses]
  split
  · exact t.enter_accesses
  · rw [(copyToUser_spec _ _ _ _).1, t.enter_accesses, Set.empty_union]

theorem old_confined_iff {old : Word} {data : List UInt8} {fails : Prop} (h0 : 0 < data.length)
    (hn : data.length < 2 ^ 64) :
    ConfinedBy (oldAccesses old data) fails ↔ (old ≠ 0 → ¬Below old data.length → fails) := by
  rw [oldAccesses]
  by_cases h : old = 0
  · simpa [h] using confinedBy_empty
  · rw [if_neg h, toUser_confined_iff h0 hn]
    tauto

/-- With the new value that comes in through the second argument. -/
theorem old_new_confined_iff {old new : Word} {data : List UInt8} {len : Nat} {fails : Prop} (h0 : 0 < data.length)
    (hn : data.length < 2 ^ 64) (h0' : 0 < len) (hn' : len < 2 ^ 64) :
    ConfinedBy (oldAccesses old data ∪ {fromUserAccess (.arg 1) new len}) fails ↔
      (old ≠ 0 → ¬Below old data.length → fails) ∧ (Below new len ∨ fails) := by
  rw [ConfinedBy.union_iff, old_confined_iff h0 hn, fromUser_confined_iff h0' hn']
  rintro a ha b rfl
  rw [oldAccesses] at ha
  split at ha
  · exact ha.elim
  · rw [ha, toUserAccess_ptr, fromUserAccess_ptr]
    simp

theorem length_encode (sa : SigAction) : sa.encode.length = 24 := by
  simp [SigAction.encode]

theorem sysRtSigaction_confined_iff (signo actPtr oldactPtr : Word) :
    Confined (sysRtSigaction t.enter signo actPtr oldactPtr) ↔
    ((1 ≤ signo.toNat ∧ signo.toNat ≤ nsig ∧ signo.toNat ≠ sigkill ∧ signo.toNat ≠ sigstop) → oldactPtr ≠ 0 →
      ¬Below oldactPtr 24 → actPtr ≠ 0 ∧ ¬Below actPtr 24) := by
  have hlen := length_encode (t.enter.sigHandlers signo.toNat)
  have hold := old_accesses t oldactPtr (t.enter.sigHandlers signo.toNat).encode
  rw [sysRtSigaction]
  split
  next h => exact iff_of_true (confined_untouched t) fun h' => by omega
  next h =>
    split
    next h' => exact iff_of_true (confined_untouched t) fun h'' => by tauto
    next h' =>
      have hsig : 1 ≤ signo.toNat ∧ signo.toNat ≤ nsig ∧ signo.toNat ≠ sigkill ∧ signo.toNat ≠ sigstop := by
        refine ⟨by omega, by omega, fun h => h' (.inl h), fun h => h' (.inr h)⟩
      simp only
      generalize (if oldactPtr = 0 then t.enter.user else _) = u at *
      by_cases hact : actPtr = 0
      · -- no new action: the call succeeds
        rw [if_pos hact, Confined, hold, old_confined_iff (by omega) (by omega), hlen]
        simp [hsig, hact]
      · obtain ⟨-, hacc, hr⟩ := copyFromUser_spec u (.arg 1) actPtr 24
        rw [accessOk_ofNat_iff (by decide)] at hr
        rw [hold] at hacc
        rw [if_neg hact]
        generalize copyFromUser u (.arg 1) actPtr 24 = c at *
        obtain ⟨u', r, sa⟩ := c
        simp only at hacc hr ⊢
        split
        next hneg =>
          rw [Confined, hacc, old_new_confined_iff (by omega) (by omega) (by decide) (by decide), hlen, fails_some]
          have : ¬Below actPtr 24 := hr.1 hneg
          tauto
        next hneg =>
          rw [Confined, hacc, old_new_confined_iff (by omega) (by omega) (by decide) (by decide), hlen, fails_some]
          have : Below actPtr 24 := by
            by_contra hno
            exact hneg (hr.2 hno)
          have hzero : ¬(0 : Int) < 0 := lt_irrefl 0
          tauto

theorem sysRtSigprocmask_confined_iff (how setPtr oldsetPtr : Word) :
    Confined (sysRtSigprocmask t.enter how setPtr oldsetPtr) ↔
    (oldsetPtr ≠ 0 → ¬Below oldsetPtr 8 → setPtr ≠ 0 ∧ (Below setPtr 8 → 2 < (how.setWidth 32).toNat)) := by
  have hlen : (leBytes 8 t.enter.sigBlocked.toNat).length = 8 := length_leBytes _ _
  have hold := old_accesses t oldsetPtr (leBytes 8 t.enter.sigBlocked.toNat)
  rw [sysRtSigprocmask]
  simp only
  generalize (if oldsetPtr = 0 then t.enter.user else _) = u at *
  by_cases hset : setPtr = 0
  · rw [if_pos hset, Confined, hold, old_confined_iff (by omega) (by omega), hlen]
    simp [hset]
  · obtain ⟨-, hacc, hr⟩ := copyFromUser_spec u (.arg 1) setPtr 8
    rw [accessOk_ofNat_iff (by decide)] at hr
    rw [hold] at hacc
    rw [if_neg hset]
    generalize copyFromUser u (.arg 1) setPtr 8 = c at *
    obtain ⟨u', r, bs⟩ := c
    simp only at hacc hr ⊢
    have hconf : ∀ (t' : Task) (ret : Option Int), t'.user = u' → (Confined (t', ret) ↔
        (oldsetPtr ≠ 0 → ¬Below oldsetPtr 8 → Fails ret) ∧ (Below setPtr 8 ∨ Fails ret)) := by
      rintro t' ret rfl
      rw [Confined, hacc, old_new_confined_iff (by omega) (by omega) (by decide) (by decide), hlen]
    by_cases hneg : r < 0
    · have hno : ¬Below setPtr 8 := hr.1 hneg
      rw [if_pos hneg, hconf _ _ rfl, fails_some]
      tauto
    · have hin : Below setPtr 8 := by
        by_contra hno
        exact hneg (hr.2 hno)
      rw [if_neg hneg]
      have hzero : ∀ {n : Nat}, (how.setWidth 32).toNat = n → n ≤ 2 →
          (((oldsetPtr ≠ 0 → ¬Below oldsetPtr 8 → Fails (some 0)) ∧ (Below setPtr 8 ∨ Fails (some 0))) ↔
            (oldsetPtr ≠ 0 → ¬Below oldsetPtr 8 → setPtr ≠ 0 ∧ (Below setPtr 8 → 2 < (how.setWidth 32).toNat))) := by
        intro n hn hle
        have hnot : ¬2 < (how.setWidth 32).toNat := by omega
        have hok : ¬Fails (some 0) := by simp
        tauto
      -- the three known values of `how`, and the rest
      split
      next h => exact (hconf _ _ rfl).trans (hzero h (by omega))
      next h => exact (hconf _ _ rfl).trans (hzero h (by omega))
      next h => exact (hconf _ _ rfl).trans (hzero h (by omega))
      next h0 h1 h2 =>
        have h3 : 2 < (how.setWidth 32).toNat := by
          generalize (how.setWidth 32).toNat = x at h0 h1 h2
          have h0 : x ≠ 0 := h0
          have h1 : x ≠ 1 := h1
          have h2 : x ≠ 2 := h2
          omega
        have hneg : -einval < 0 := by decide
        rw [hconf _ _ rfl, fails_some]
        tauto

/-! ### `execve`

The path and the two arrays, three groups of pointers.
-/

theorem sysExecve_confined_iff (path argvPtr envpPtr : Word) :
    Confined (sysExecve env t.enter path argvPtr envpPtr) ↔
    StrGuarded t.user.mem path pathMax True ∧
      (accessOk path 1#64 = true → Terminated t.user.mem path pathMax →
        ArrayGuarded t.user.mem argvPtr (env.procExec (cstring t.user.mem path pathMax)
          (argStrings t.user.mem argvPtr) (argStrings t.user.mem envpPtr) < 0) ∧
        ArrayGuarded t.user.mem envpPtr (env.procExec (cstring t.user.mem path pathMax)
          (argStrings t.user.mem argvPtr) (argStrings t.user.mem envpPtr) < 0)) := by
  obtain ⟨hmem, hacc, hr, hname⟩ := strncpyFromUser_spec t.enter.user (.arg 0) path pathMax
  rw [sysExecve]
  generalize strncpyFromUser t.enter.user (.arg 0) path pathMax = c at *
  obtain ⟨u, r, name⟩ := c
  simp only [Task.enter_mem, Task.enter_accesses, Set.empty_union] at hmem hacc hr hname ⊢
  by_cases hneg : r < 0
  · -- the path is refused or has no end: the arrays are not looked at
    rw [if_pos hneg, Confined, hacc, copyStr_confined_iff (by decide), StrGuarded, fails_some]
    have hno := hr.1 hneg
    split
    next hok => exact ⟨fun h => ⟨h, fun _ hterm => absurd ⟨hok, hterm⟩ hno⟩, fun h => h.1⟩
    next hok => exact ⟨fun _ => ⟨trivial, fun h => absurd h hok⟩, fun _ => hneg⟩
  · have hyes : accessOk path 1#64 = true ∧ Terminated t.user.mem path pathMax := by
      by_contra hno
      exact hneg (hr.2 hno)
    rw [if_pos hyes.1] at hname
    obtain ⟨hmem1, hacc1, hstr1⟩ := @copyArgs_spec t.user.mem (.arg 1) .argv argvPtr u hmem
    rw [if_neg hneg]
    generalize copyArgs (.arg 1) .argv argvPtr u = c at *
    obtain ⟨u1, argv⟩ := c
    obtain ⟨-, hacc2, hstr2⟩ := @copyArgs_spec t.user.mem (.arg 2) .envp envpPtr u1 hmem1
    generalize copyArgs (.arg 2) .envp envpPtr u1 = c at *
    obtain ⟨u2, envp⟩ := c
    simp only at hacc1 hstr1 hacc2 hstr2 ⊢
    rw [Confined, hacc2, hacc1, hacc, hname, hstr1, hstr2, ConfinedBy.union_iff, ConfinedBy.union_iff,
      copyStr_confined_iff (by decide), fails_some, array_confined_iff, array_confined_iff, StrGuarded]
    · simp only [hyes.1, hyes.2, if_true, forall_const, and_assoc]
    · exact fun i j h => Ptr.envp.inj h
    · exact fun i h => Ptr.noConfusion h
    · exact fun i j h => Ptr.argv.inj h
    · exact fun i h => Ptr.noConfusion h
    · intro a ha b hb
      rw [ptr_of_mem_copyStr ha]
      exact (ptr_of_mem_array hb).elim (fun h => by simp [h]) fun ⟨i, h⟩ => by simp [h]
    · rintro a (ha | ha) b hb
      · rw [ptr_of_mem_copyStr ha]
        exact (ptr_of_mem_array hb).elim (fun h => by simp [h]) fun ⟨i, h⟩ => by simp [h]
      · rcases ptr_of_mem_array ha with h | ⟨i, h⟩ <;> rcases ptr_of_mem_array hb with h' | ⟨j, h'⟩ <;> simp [h, h']

/-! ## The result

All calls together, and the console as the example of an unchecked store.
-/

/-- Whatever the arguments, the memory of the caller and the state of the kernel: a call keeps to user memory, pointer
    by pointer, exactly when it is `Guarded`. -/
theorem call_confined_iff (c : Call) : Confined (dispatch env t.enter c) ↔ Guarded env t c := by
  cases c with
  | read fd buf len => exact iff_of_true (sysRead_confined env t fd buf len) trivial
  | write fd buf len => exact iff_of_true (sysWrite_confined env t fd buf len) trivial
  | «open» path flags mode => exact sysOpen_confined_iff env t path flags mode
  | stat path statPtr => exact sysStat_confined_iff env t path statPtr
  | fstat fd statPtr => exact iff_of_true (sysFstat_confined env t fd statPtr) trivial
  | ioctl fd req arg => exact sysIoctl_confined_iff env t fd req arg
  | getdents64 fd direntPtr count => exact sysGetdents64_confined_iff env t fd direntPtr count
  | rtSigaction signo actPtr oldactPtr => exact sysRtSigaction_confined_iff t signo actPtr oldactPtr
  | rtSigprocmask how setPtr oldsetPtr => exact sysRtSigprocmask_confined_iff t how setPtr oldsetPtr
  | execve path argvPtr envpPtr => exact sysExecve_confined_iff env t path argvPtr envpPtr

end

/-- Every descriptor is the console, as the first three of `init` are. -/
def consoleEnv : Env where
  files _ := some ⟨.none, some ⟨false, .tty, .ok (.replicate 120 0), []⟩, 0⟩
  vfsOpen _ _ _ := 3
  vfsLookup _ := .error (-2)
  procExec _ _ _ := -2
  serial := []
  pgid := 1

/-- A process whose memory reads zero everywhere. -/
def zeroTask : Task := ⟨⟨fun _ => 0, []⟩, fun _ => ⟨0, 0, 0⟩, 0⟩

/-- `ioctl(1, TIOCGWINSZ, 0xFFFFFFFF80100000)` writes the window size over the kernel image and returns 0. -/
theorem ioctl_writes_kernel :
    ¬Confined (dispatch consoleEnv zeroTask.enter (.ioctl 1 0x5413 0xFFFFFFFF80100000)) := by
  intro h
  have hlog : (dispatch consoleEnv zeroTask.enter (.ioctl 1 0x5413 0xFFFFFFFF80100000)).1.user.log =
      [.store (.arg 2) 0xFFFFFFFF80100000 winsize] := rfl
  have hret : (dispatch consoleEnv zeroTask.enter (.ioctl 1 0x5413 0xFFFFFFFF80100000)).2 = some 0 := rfl
  rw [Confined, hret, User.accesses, hlog] at h
  rcases h (.arg 2) with hin | ⟨hf, -⟩
  · have hfirst := hin _ (List.mem_singleton_self _) rfl 0 (by decide)
    revert hfirst
    decide
  · simp at hf

end MyUnix.Proc
