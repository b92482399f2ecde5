import Mathlib.Data.Set.Lattice
import MyUnix.Proc.UserAccess

/-!
# `Proc.UserCopies` — the accesses behind a copy, a driver and an array

A call is confined when each pointer of the caller is either used below `VMM_USER_END` only, or makes the call fail
before anything is touched through it. This module says what the pieces of a call add to its log, and when a piece is
confined by itself: a checked copy, a string, the arrays of `execve`, the drivers behind `read` and `write`.

The log of a call is the union of the logs of its pieces. As long as the pieces follow different pointers, the call is
confined if and only if each piece is (`ConfinedBy.union_iff`, `iUnion_iff`), so no proof has to look at a whole log.
-/

namespace MyUnix.Proc

open Arch Ipc Lib

/-! ## Confined sets of accesses

The property for a set of accesses and an outcome, and how it splits.
-/

/-- Pointer by pointer: every access inside, or a failing call that touched nothing. -/
def ConfinedBy (S : Set Access) (fails : Prop) : Prop :=
  ∀ p, (∀ a ∈ S, a.ptr = p → a.Inside) ∨ (fails ∧ ∀ a ∈ S, a.ptr = p → ¬a.Done)

/-- The call came back with an error. -/
def Fails (ret : Option Int) : Prop := ∃ e, ret = some e ∧ e < 0

/-- What was done or refused so far. -/
def User.accesses (u : User) : Set Access := { a | a ∈ u.log }

/-- The property of one finished (or still waiting) call. -/
def Confined (out : Task × Option Int) : Prop := ConfinedBy out.1.user.accesses (Fails out.2)

@[simp] theorem fails_some (e : Int) : Fails (some e) ↔ e < 0 := by
  simp [Fails]

@[simp] theorem not_fails_none : ¬Fails none := by
  simp [Fails]

namespace ConfinedBy

variable {S T : Set Access} {fails : Prop} {p : Ptr}

theorem of_inside (h : ∀ a ∈ S, a.Inside) : ConfinedBy S fails :=
  fun _ => .inl fun a ha _ => h a ha

theorem of_not_done (hf : fails) (h : ∀ a ∈ S, ¬a.Done) : ConfinedBy S fails :=
  fun _ => .inr ⟨hf, fun a ha _ => h a ha⟩

/-- All accesses go through one pointer. -/
theorem single_iff (hp : ∀ a ∈ S, a.ptr = p) :
    ConfinedBy S fails ↔ (∀ a ∈ S, a.Inside) ∨ (fails ∧ ∀ a ∈ S, ¬a.Done) := by
  constructor
  · intro h
    exact (h p).imp (fun h a ha => h a ha (hp a ha)) (fun h => ⟨h.1, fun a ha => h.2 a ha (hp a ha)⟩)
  · rintro (h | ⟨hf, h⟩)
    · exact of_inside h
    · exact of_not_done hf h

/-- Two groups of accesses that share no pointer are confined one by one. -/
theorem union_iff (hST : ∀ a ∈ S, ∀ b ∈ T, a.ptr ≠ b.ptr) :
    ConfinedBy (S ∪ T) fails ↔ ConfinedBy S fails ∧ ConfinedBy T fails := by
  constructor
  · intro h
    refine ⟨fun p => ?_, fun p => ?_⟩
    · exact (h p).imp (fun h a ha => h a (.inl ha)) (fun h => ⟨h.1, fun a ha => h.2 a (.inl ha)⟩)
    · exact (h p).imp (fun h a ha => h a (.inr ha)) (fun h => ⟨h.1, fun a ha => h.2 a (.inr ha)⟩)
  · rintro ⟨hS, hT⟩ p
    -- at most one of the two groups has accesses through `p`
    by_cases hp : ∃ a ∈ S, a.ptr = p
    · obtain ⟨b, hb, hbp⟩ := hp
      have hno : ∀ a ∈ T, a.ptr ≠ p := fun a ha hap => hST b hb a ha (hbp.trans hap.symm)
      refine (hS p).imp (fun h a ha hap => ?_) (fun h => ⟨h.1, fun a ha hap => ?_⟩)
      · exact ha.elim (fun ha => h a ha hap) (fun ha => absurd hap (hno a ha))
      · exact ha.elim (fun ha => h.2 a ha hap) (fun ha => absurd hap (hno a ha))
    · have hno : ∀ a ∈ S, a.ptr ≠ p := fun a ha hap => hp ⟨a, ha, hap⟩
      refine (hT p).imp (fun h a ha hap => ?_) (fun h => ⟨h.1, fun a ha hap => ?_⟩)
      · exact ha.elim (fun ha => absurd hap (hno a ha)) (fun ha => h a ha hap)
      · exact ha.elim (fun ha => absurd hap (hno a ha)) (fun ha => h.2 a ha hap)

/-- The same for a family, one pointer each. -/
theorem iUnion_iff {S : Nat → Set Access} {ptr : Nat → Ptr} (hptr : ∀ i, ∀ a ∈ S i, a.ptr = ptr i)
    (hinj : Function.Injective ptr) : ConfinedBy (⋃ i, S i) fails ↔ ∀ i, ConfinedBy (S i) fails := by
  simp only [ConfinedBy, Set.mem_iUnion, forall_exists_index]
  constructor
  · intro h i p
    exact (h p).imp (fun h a ha => h a i ha) (fun h => ⟨h.1, fun a ha => h.2 a i ha⟩)
  · intro h p
    by_cases hp : ∃ i, ptr i = p
    · obtain ⟨i, rfl⟩ := hp
      have hi : ∀ {a j}, a ∈ S j → a.ptr = ptr i → a ∈ S i := by
        intro a j ha hap
        rwa [← hinj ((hptr j a ha).symm.trans hap)]
      exact (h i (ptr i)).imp (fun h a j ha hap => h a (hi ha hap) hap)
        (fun h => ⟨h.1, fun a j ha hap => h.2 a (hi ha hap) hap⟩)
    · exact .inl fun a j ha hap => absurd ⟨j, (hptr j a ha).symm.trans hap⟩ hp

end ConfinedBy

/-! ## `access_ok`

A sum that wraps around is refused, so what the check lets through lies inside.
-/

theorem userEnd_toNat : userEnd.toNat = 0x7FFFFFFFF000 := rfl

theorem toNat_add_ofNat {a : Word} {i : Nat} (h : a.toNat + i < 2 ^ 64) :
    (a + BitVec.ofNat 64 i).toNat = a.toNat + i := by
  rw [BitVec.toNat_add, BitVec.toNat_ofNat, Nat.add_mod_mod, Nat.mod_eq_of_lt h]

theorem accessOk_iff {a s : Word} : accessOk a s = true ↔ a.toNat + s.toNat ≤ userEnd.toNat := by
  have ha := a.isLt
  have hs := s.isLt
  simp only [accessOk, BitVec.lt_def, BitVec.le_def, BitVec.toNat_add, userEnd_toNat]
  -- the sum wraps, or it is the plain sum
  by_cases h : a.toNat + s.toNat < 2 ^ 64
  · rw [Nat.mod_eq_of_lt h, if_neg (by omega), decide_eq_true_iff]
  · rw [Nat.mod_eq_sub_mod (by omega), Nat.mod_eq_of_lt (by omega), if_pos (by omega)]
    simp only [Bool.false_eq_true, false_iff]
    omega

theorem accessOk_ofNat_iff {a : Word} {n : Nat} (hn : n < 2 ^ 64) :
    accessOk a (BitVec.ofNat 64 n) = true ↔ a.toNat + n ≤ userEnd.toNat := by
  rw [accessOk_iff, BitVec.toNat_ofNat, Nat.mod_eq_of_lt hn]

/-- A nonempty range has all its addresses below the limit when its end is. -/
theorem Access.inside_iff {a : Access} (h0 : 0 < a.len) :
    a.Inside ↔ a.addr.toNat + a.len ≤ userEnd.toNat := by
  have ha := a.addr.isLt
  constructor
  · intro h
    -- the last address is the end of memory or the end of the range
    by_contra hlt
    by_cases hw : a.addr.toNat + a.len < 2 ^ 64
    · have := h (a.len - 1) (by omega)
      rw [toNat_add_ofNat (by omega)] at this
      omega
    · have := h (2 ^ 64 - 1 - a.addr.toNat) (by omega)
      rw [toNat_add_ofNat (by omega), userEnd_toNat] at this
      omega
  · intro h i hi
    rw [userEnd_toNat] at h
    rw [toNat_add_ofNat (by omega), userEnd_toNat]
    omega

theorem Access.inside_of_le {a : Access} (h : a.addr.toNat + a.len ≤ userEnd.toNat) : a.Inside := by
  by_cases h0 : 0 < a.len
  · exact (Access.inside_iff h0).2 h
  · intro i hi
    omega

/-! ## Copies

A checked copy is one access. A string is many of one byte each, from the first one, which was checked, up to the
zero.
-/

section

variable (u : User) (p : Ptr)

@[simp] theorem User.accesses_load (a : Word) (n : Nat) :
    (u.load p a n).accesses = u.accesses ∪ {.load p a n} := by
  ext x
  simp [User.accesses, User.load, or_comm]

@[simp] theorem User.accesses_store (a : Word) (data : List UInt8) :
    (u.store p a data).accesses = u.accesses ∪ {.store p a data} := by
  ext x
  simp [User.accesses, User.store, or_comm]

@[simp] theorem User.accesses_refuse (a : Word) (n : Nat) :
    (u.refuse p a n).accesses = u.accesses ∪ {.refused p a n} := by
  ext x
  simp [User.accesses, User.refuse, or_comm]

/-- The bytes the loop of `strncpy_from_user` reads: up to the first zero. -/
def strAccesses (mem : Word → UInt8) (src : Word) (n : Nat) : Set Access :=
  { a | ∃ k < n, (∀ j < k, mem (src + BitVec.ofNat 64 j) ≠ 0) ∧ a = .load p (src + BitVec.ofNat 64 k) 1 }

/-- The same with the check of the first byte. -/
def copyStrAccesses (mem : Word → UInt8) (src : Word) (n : Nat) : Set Access :=
  if accessOk src 1#64 then strAccesses p mem src n else {.refused p src 1}

/-- The string at `src`, as far as `n` bytes show it. -/
def cstring (mem : Word → UInt8) (src : Word) (n : Nat) : List UInt8 :=
  ((List.range n).map fun i => mem (src + BitVec.ofNat 64 i)).takeWhile (· ≠ 0)

/-- The string at `src` ends within `n` bytes. -/
def Terminated (mem : Word → UInt8) (src : Word) (n : Nat) : Prop :=
  ∃ k < n, mem (src + BitVec.ofNat 64 k) = 0

theorem add_one_add (a : Word) (i : Nat) : a + 1#64 + BitVec.ofNat 64 i = a + BitVec.ofNat 64 (i + 1) := by
  rw [BitVec.ofNat_add, BitVec.add_comm (BitVec.ofNat 64 i), BitVec.add_assoc]

theorem strAccesses_succ (mem : Word → UInt8) (src : Word) (n : Nat) (h : mem src ≠ 0) :
    strAccesses p mem src (n + 1) = {.load p src 1} ∪ strAccesses p mem (src + 1#64) n := by
  ext a
  constructor
  · rintro ⟨_ | k, hk, hnz, rfl⟩
    · left; simp
    · refine .inr ⟨k, by omega, fun j hj => ?_, by rw [add_one_add]⟩
      rw [add_one_add]
      exact hnz (j + 1) (by omega)
  · rintro (rfl | ⟨k, hk, hnz, rfl⟩)
    · exact ⟨0, by omega, fun j hj => absurd hj (Nat.not_lt_zero j), by simp⟩
    · refine ⟨k + 1, by omega, fun j hj => ?_, by rw [add_one_add]⟩
      cases j with
      | zero => simpa using h
      | succ j =>
        rw [← add_one_add]
        exact hnz j (by omega)

theorem strAccesses_zero (mem : Word → UInt8) (src : Word) (n : Nat) (h : mem src = 0) :
    strAccesses p mem src (n + 1) = {.load p src 1} := by
  ext a
  constructor
  · rintro ⟨_ | k, hk, hnz, rfl⟩
    · simp
    · exact absurd (by simpa using h) (hnz 0 (by omega))
  · rintro rfl
    exact ⟨0, by omega, fun j hj => absurd hj (Nat.not_lt_zero j), by simp⟩

theorem cstring_succ (mem : Word → UInt8) (src : Word) (n : Nat) :
    cstring mem src (n + 1) = if mem src = 0 then [] else mem src :: cstring mem (src + 1#64) n := by
  simp only [cstring, List.range_succ_eq_map, List.map_cons, List.map_map, Function.comp_def, add_one_add]
  by_cases h : mem src = 0
  · simp [h]
  · simp [h]

/-- What the string loop does: the memory stays, the bytes up to the zero are read and collected, and it fails when
    there is no zero. -/
theorem strncpyLoop_spec (n : Nat) : ∀ (u : User) (src : Word) (dst : List UInt8),
    (strncpyLoop p u n src dst).1.mem = u.mem ∧
    (strncpyLoop p u n src dst).1.accesses = u.accesses ∪ strAccesses p u.mem src n ∧
    ((strncpyLoop p u n src dst).2.1 < 0 ↔ ¬Terminated u.mem src n) ∧
    (strncpyLoop p u n src dst).2.2 = dst ++ cstring u.mem src n := by
  induction n with
  | zero =>
    intro u src dst
    simp [strncpyLoop, strAccesses, Terminated, cstring, e2big]
  | succ n ih =>
    intro u src dst
    rw [strncpyLoop]
    by_cases h : u.mem src = 0
    · rw [if_pos h]
      refine ⟨rfl, ?_, ?_, ?_⟩
      · rw [strAccesses_zero p _ _ _ h, User.accesses_load]
      · have ht : Terminated u.mem src (n + 1) := ⟨0, by omega, by simpa using h⟩
        simp [ht]
      · simp [cstring_succ, h]
    · rw [if_neg h]
      obtain ⟨hmem, hacc, hr, hdst⟩ := ih (u.load p src 1) (src + 1#64) (dst ++ [u.mem src])
      refine ⟨hmem, ?_, ?_, ?_⟩
      · rw [hacc, User.accesses_load, strAccesses_succ p _ _ _ h, Set.union_assoc]
        rfl
      · rw [hr, not_iff_not]
        constructor
        · rintro ⟨k, hk, hz⟩
          exact ⟨k + 1, by omega, by rwa [← add_one_add]⟩
        · rintro ⟨_ | k, hk, hz⟩
          · exact absurd (by simpa using hz) h
          · exact ⟨k, by omega, by rwa [add_one_add]⟩
      · rw [hdst, cstring_succ, if_neg h, List.append_assoc]
        rfl

theorem strncpyFromUser_spec (src : Word) (n : Nat) :
    (strncpyFromUser u p src n).1.mem = u.mem ∧
    (strncpyFromUser u p src n).1.accesses = u.accesses ∪ copyStrAccesses p u.mem src n ∧
    ((strncpyFromUser u p src n).2.1 < 0 ↔ ¬(accessOk src 1#64 = true ∧ Terminated u.mem src n)) ∧
    (strncpyFromUser u p src n).2.2 = if accessOk src 1#64 then cstring u.mem src n else [] := by
  rw [strncpyFromUser, copyStrAccesses]
  by_cases h : accessOk src 1#64 = true
  · simpa [h] using strncpyLoop_spec p n u src []
  · simp [h, efault, User.refuse, User.accesses, Set.ext_iff, or_comm]

/-- A string that starts inside stays inside as far as it is read. -/
def StrInside (mem : Word → UInt8) (src : Word) (n : Nat) : Prop :=
  ∀ k < n, (∀ j < k, mem (src + BitVec.ofNat 64 j) ≠ 0) → (src + BitVec.ofNat 64 k).toNat < userEnd.toNat

variable {p}

theorem ptr_of_mem_copyStr {mem : Word → UInt8} {src : Word} {n : Nat} {a : Access}
    (h : a ∈ copyStrAccesses p mem src n) : a.ptr = p := by
  rw [copyStrAccesses] at h
  split at h
  · obtain ⟨k, hk, hnz, rfl⟩ := h
    rfl
  · rw [h]
    rfl

theorem refused_not_inside {src : Word} (h : ¬accessOk src 1#64 = true) : ¬(Access.refused p src 1).Inside := by
  rw [accessOk_iff] at h
  rw [Access.inside_iff (by simp [Access.len])]
  exact h

/-- When the copy of one string is confined, by itself. -/
theorem copyStr_confined_iff {mem : Word → UInt8} {src : Word} {n : Nat} (h0 : 0 < n) {fails : Prop} :
    ConfinedBy (copyStrAccesses p mem src n) fails ↔
      if accessOk src 1#64 then StrInside mem src n else fails := by
  rw [ConfinedBy.single_iff fun a => ptr_of_mem_copyStr]
  rw [copyStrAccesses]
  split
  next h =>
    have hdone : Access.load p (src + BitVec.ofNat 64 0) 1 ∈ strAccesses p mem src n :=
      ⟨0, h0, fun j hj => absurd hj (Nat.not_lt_zero j), rfl⟩
    constructor
    · rintro (hin | ⟨-, hnd⟩)
      · intro k hk hnz
        simpa [Access.addr] using hin _ ⟨k, hk, hnz, rfl⟩ 0 (by simp [Access.len])
      · exact absurd trivial (hnd _ hdone)
    · intro hin
      left
      rintro a ⟨k, hk, hnz, rfl⟩ i hi
      obtain rfl : i = 0 := by simpa [Access.len] using hi
      simpa [Access.addr] using hin k hk hnz
  next h =>
    constructor
    · rintro (hin | ⟨hf, -⟩)
      · exact absurd (hin _ rfl) (refused_not_inside h)
      · exact hf
    · intro hf
      exact .inr ⟨hf, by rintro a rfl; exact id⟩

/-! ### Checked copies of a structure

One access, which is done or refused.
-/

/-- The access a `copy_to_user` makes, or the one it refuses. -/
def toUserAccess (p : Ptr) (dst : Word) (data : List UInt8) : Access :=
  if accessOk dst (BitVec.ofNat 64 data.length) then .store p dst data else .refused p dst data.length

/-- The access that `copy_from_user` makes. -/
def fromUserAccess (p : Ptr) (src : Word) (len : Nat) : Access :=
  if accessOk src (BitVec.ofNat 64 len) then .load p src len else .refused p src len

variable (p)

theorem copyToUser_spec (dst : Word) (data : List UInt8) :
    (copyToUser u p dst data).1.accesses = u.accesses ∪ {toUserAccess p dst data} ∧
    ((copyToUser u p dst data).2 < 0 ↔ ¬accessOk dst (BitVec.ofNat 64 data.length) = true) := by
  rw [copyToUser, toUserAccess]
  split
  next h => exact ⟨User.accesses_store u p dst data, by simp [h]⟩
  next h => exact ⟨User.accesses_refuse u p dst data.length, by simp [h, efault]⟩

theorem copyFromUser_spec (src : Word) (len : Nat) :
    (copyFromUser u p src len).1.mem = u.mem ∧
    (copyFromUser u p src len).1.accesses = u.accesses ∪ {fromUserAccess p src len} ∧
    ((copyFromUser u p src len).2.1 < 0 ↔ ¬accessOk src (BitVec.ofNat 64 len) = true) := by
  rw [copyFromUser, fromUserAccess]
  split
  next h => exact ⟨rfl, User.accesses_load u p src len, by simp [h]⟩
  next h => exact ⟨rfl, User.accesses_refuse u p src len, by simp [h, efault]⟩

@[simp] theorem toUserAccess_ptr (dst : Word) (data : List UInt8) : (toUserAccess p dst data).ptr = p := by
  rw [toUserAccess]
  split <;> rfl

@[simp] theorem fromUserAccess_ptr (src : Word) (len : Nat) : (fromUserAccess p src len).ptr = p := by
  rw [fromUserAccess]
  split <;> rfl

/-- A checked copy is inside when it is done, and otherwise refused. -/
theorem toUserAccess_cases {dst : Word} {data : List UInt8} (h0 : 0 < data.length) (hn : data.length < 2 ^ 64) :
    ((toUserAccess p dst data).Inside ↔ dst.toNat + data.length ≤ userEnd.toNat) ∧
    ((toUserAccess p dst data).Done ↔ dst.toNat + data.length ≤ userEnd.toNat) := by
  have hok := @accessOk_ofNat_iff dst data.length hn
  rw [toUserAccess]
  split
  next h => exact ⟨Access.inside_iff (a := .store p dst data) h0, by simpa [Access.Done] using hok.1 h⟩
  next h =>
    exact ⟨Access.inside_iff (a := .refused p dst data.length) h0,
      by simpa [Access.Done] using mt hok.2 h⟩

theorem fromUserAccess_cases {src : Word} {len : Nat} (h0 : 0 < len) (hn : len < 2 ^ 64) :
    ((fromUserAccess p src len).Inside ↔ src.toNat + len ≤ userEnd.toNat) ∧
    ((fromUserAccess p src len).Done ↔ src.toNat + len ≤ userEnd.toNat) := by
  have hok := @accessOk_ofNat_iff src len hn
  rw [fromUserAccess]
  split
  next h => exact ⟨Access.inside_iff (a := .load p src len) h0, by simpa [Access.Done] using hok.1 h⟩
  next h =>
    exact ⟨Access.inside_iff (a := .refused p src len) h0, by simpa [Access.Done] using mt hok.2 h⟩

end

/-! ## Drivers: nothing beyond the buffer that was checked

The system call has checked the whole buffer before it calls a driver, so it is enough that a driver keeps to it.
-/

/-- An access to a part of `[buf, buf + len)`. -/
def Access.Within (buf len : Word) (a : Access) : Prop :=
  ∃ o, a.addr = buf + BitVec.ofNat 64 o ∧ o + a.len ≤ len.toNat

theorem Access.Within.inside {buf len : Word} {a : Access} (h : a.Within buf len)
    (hok : accessOk buf len = true) : a.Inside := by
  obtain ⟨o, ho, hlen⟩ := h
  rw [accessOk_iff, userEnd_toNat] at hok
  apply Access.inside_of_le
  rw [ho, toNat_add_ofNat (by omega), userEnd_toNat]
  omega

/-- Whatever `f` adds to the log lies in the buffer. -/
def Keeps (u u' : User) (buf len : Word) : Prop := ∀ a ∈ u'.accesses, a ∈ u.accesses ∨ a.Within buf len

namespace Keeps

variable {u u' : User} {p : Ptr} {buf len : Word}

theorem refl : Keeps u u buf len := fun _ ha => .inl ha

theorem trans {u'' : User} (h : Keeps u u' buf len) (h' : Keeps u' u'' buf len) : Keeps u u'' buf len := by
  intro a ha
  rcases h' a ha with h1 | h1
  · exact h a h1
  · exact .inr h1

theorem store {o : Nat} {data : List UInt8} (h : o + data.length ≤ len.toNat) :
    Keeps u (u.store p (buf + BitVec.ofNat 64 o) data) buf len := by
  intro a ha
  rw [User.accesses_store] at ha
  exact ha.imp id (by rintro rfl; exact ⟨o, rfl, h⟩)

theorem load {o n : Nat} (h : o + n ≤ len.toNat) :
    Keeps u (u.load p (buf + BitVec.ofNat 64 o) n) buf len := by
  intro a ha
  rw [User.accesses_load] at ha
  exact ha.imp id (by rintro rfl; exact ⟨o, rfl, h⟩)

theorem store_start {data : List UInt8} (h : data.length ≤ len.toNat) : Keeps u (u.store p buf data) buf len := by
  have := @store u p buf len 0 data (by omega)
  simpa using this

theorem load_start {n : Nat} (h : n ≤ len.toNat) : Keeps u (u.load p buf n) buf len := by
  have := @load u p buf len 0 n (by omega)
  simpa using this

theorem inside (h : Keeps u u' buf len) (hok : accessOk buf len = true) (hu : u.log = []) :
    ∀ a ∈ u'.accesses, a.Inside := by
  intro a ha
  rcases h a ha with h | h
  · simp [User.accesses, hu] at h
  · exact h.inside hok

end Keeps

section

variable {u : User} {p : Ptr} {buf len : Word}

theorem pipeReadFn_keeps (turns : List ReadTurn) : Keeps u (pipeReadFn u p buf len turns).1 buf len := by
  induction turns with
  | nil => exact Keeps.refl
  | cons t turns ih =>
    rw [pipeReadFn]
    split
    · apply Keeps.store_start
      simp only [List.length_take]
      omega
    · split
      · exact Keeps.refl
      · split
        · exact Keeps.refl
        · exact ih

theorem pipeWriteLoop_keeps (turns : List WriteTurn) : ∀ (u : User) (written : Nat),
    Keeps u (pipeWriteLoop p buf len u written turns).1 buf len := by
  induction turns with
  | nil => exact fun u written => Keeps.refl
  | cons t turns ih =>
    intro u written
    rw [pipeWriteLoop]
    split
    · split
      · refine Keeps.trans (Keeps.load ?_) (ih _ _)
        omega
      · split
        · exact Keeps.refl
        · exact ih u written
    · exact Keeps.refl

theorem readAt_keeps (data : List UInt8) (off : Int) : Keeps u (readAt u p buf len data off).1 buf len := by
  apply Keeps.store_start
  simp only [List.length_take, List.length_drop]
  omega

theorem ttyReadLoop_keeps (n : Nat) : ∀ (u : User) (i : Nat) (line : List (Option UInt8)),
    i + n ≤ len.toNat → Keeps u (ttyReadLoop p buf u n i line).1 buf len := by
  induction n with
  | zero => exact fun u i line _ => by rw [ttyReadLoop]; exact Keeps.refl
  | succ n ih =>
    intro u i line hi
    cases line with
    | nil => exact Keeps.refl
    | cons c line =>
      cases c with
      | none => exact Keeps.refl
      | some c =>
        rw [ttyReadLoop]
        have hstore : Keeps u (u.store p (buf + BitVec.ofNat 64 i) [if c = 13 then 10 else c]) buf len :=
          Keeps.store (by simp only [List.length_singleton]; omega)
        by_cases hnl : (if c = 13 then 10 else c) = 10
        · rw [if_pos hnl]
          exact hstore
        · rw [if_neg hnl]
          exact hstore.trans (ih _ _ _ (by omega))

theorem length_randBytes (n : Nat) (x : Word) : (randBytes n x).length = n := by
  induction n generalizing x with
  | zero => rfl
  | succ n ih => simp [randBytes, ih]

theorem vnodeRead_keeps (serial : List (Option UInt8)) (off : Int) (ops : VnodeOps) :
    Keeps u (vnodeRead u p buf len serial off ops).1 buf len := by
  cases ops with
  | none => exact Keeps.refl
  | initrd ent =>
    cases ent with
    | none => exact Keeps.refl
    | some ent =>
      simp only [vnodeRead, initrdVnRead]
      split
      · exact Keeps.refl
      · split
        · exact Keeps.refl
        · split
          · exact Keeps.refl
          · exact readAt_keeps _ _
  | tmpfs node =>
    cases node with
    | none => exact Keeps.refl
    | some node =>
      simp only [vnodeRead, tmpfsRead]
      split
      · exact Keeps.refl
      · split
        · exact Keeps.refl
        · exact readAt_keeps _ _
  | devnull => exact Keeps.refl
  | devzero => exact Keeps.store_start (by simp)
  | devrand x => exact Keeps.store_start (by rw [length_randBytes])
  | tty => exact ttyReadLoop_keeps _ _ _ _ (by omega)

theorem vnodeWrite_keeps (off : Int) (ops : VnodeOps) : Keeps u (vnodeWrite u p buf len off ops).1 buf len := by
  cases ops with
  | none | initrd | devnull | devzero | devrand => exact Keeps.refl
  | tmpfs node =>
    cases node with
    | none => exact Keeps.refl
    | some node =>
      simp only [vnodeWrite, tmpfsWrite]
      split
      · exact Keeps.refl
      · split
        · exact Keeps.refl
        · exact Keeps.load_start le_rfl
  | tty => exact Keeps.load_start le_rfl

end

/-! ## Loops over an array

A loop that goes on as long as its entries say so: which accesses it makes in all.
-/

/-- The accesses of a loop that makes `S i`, `S (i + 1)`, … and goes on as long as `P` holds, `n` turns at most. -/
def loopAccesses (P : Nat → Prop) (S : Nat → Set Access) (n i : Nat) : Set Access :=
  { a | ∃ k, i ≤ k ∧ k < i + n ∧ (∀ j, i ≤ j → j < k → P j) ∧ a ∈ S k }

section

variable {P : Nat → Prop} {S T : Nat → Set Access}

theorem loopAccesses_zero (i : Nat) : loopAccesses P S 0 i = ∅ := by
  ext a
  simp only [loopAccesses, Set.mem_ofPred_eq, Set.mem_empty_iff_false, iff_false]
  rintro ⟨k, hik, hki, -⟩
  omega

theorem loopAccesses_succ [DecidablePred P] (n i : Nat) :
    loopAccesses P S (n + 1) i = S i ∪ if P i then loopAccesses P S n (i + 1) else ∅ := by
  ext a
  constructor
  · rintro ⟨k, hik, hki, hp, ha⟩
    rcases Nat.eq_or_lt_of_le hik with rfl | hlt
    · exact .inl ha
    · right
      rw [if_pos (hp i le_rfl hlt)]
      exact ⟨k, hlt, by omega, fun j hj hjk => hp j (by omega) hjk, ha⟩
  · rintro (ha | ha)
    · exact ⟨i, le_rfl, by omega, fun j hj hjk => by omega, ha⟩
    · split at ha
      next hpi =>
        obtain ⟨k, hik, hki, hp, ha⟩ := ha
        refine ⟨k, by omega, by omega, fun j hj hjk => ?_, ha⟩
        rcases Nat.eq_or_lt_of_le hj with rfl | hlt
        · exact hpi
        · exact hp j hlt hjk
      next => exact ha.elim

theorem mem_loopAccesses {n : Nat} {a : Access} :
    a ∈ loopAccesses P S n 0 ↔ ∃ k < n, (∀ j < k, P j) ∧ a ∈ S k := by
  simp [loopAccesses]

end

/-! ## The arrays of `execve`

Each entry is read by a checked copy and leads to a string. A refused entry ends the loop for the first array with
what is there, and so on to the second one.
-/

section

variable (mem : Word → UInt8) (arr : Ptr) (str : Nat → Ptr) (base : Word)

/-- The address of entry `i` of the array. -/
def entryAddr (i : Nat) : Word := base + BitVec.ofNat 64 (8 * i)

/-- Entry `i` of the array. -/
def entry (i : Nat) : Word := (User.mk mem []).word (entryAddr base i)

/-- The kernel can read entry `i`. -/
def EntryOk (i : Nat) : Prop := (entryAddr base i).toNat + 8 ≤ userEnd.toNat

instance (i : Nat) : Decidable (EntryOk base i) := inferInstanceAs (Decidable (_ ≤ _))

/-- Entry `i` is a pointer, which the loop follows and goes on from. -/
def IsArg (i : Nat) : Prop := EntryOk base i ∧ entry mem base i ≠ 0#64

instance : DecidablePred (IsArg mem base) := fun _ => inferInstanceAs (Decidable (_ ∧ _))

/-- The accesses to the string of entry `i`. -/
def stringAccesses (i : Nat) : Set Access :=
  if IsArg mem base i then copyStrAccesses (str i) mem (entry mem base i) argMax else ∅

/-- One turn of the loop. -/
def turnAccesses (i : Nat) : Set Access :=
  {fromUserAccess arr (entryAddr base i) 8} ∪ stringAccesses mem str base i

/-- The string the loop keeps for a pointer. -/
def argString (w : Word) : List UInt8 := if accessOk w 1#64 then cstring mem w argMax else []

/-- The strings of a whole array. -/
def argStrings : List (List UInt8) :=
  if base = 0 then []
  else ((List.range maxArgs).takeWhile (IsArg mem base ·)).map fun i => argString mem (entry mem base i)

end

section

variable {mem : Word → UInt8} {arr : Ptr} {str : Nat → Ptr} {base : Word}

/-- What the array loop touches and collects. -/
theorem argLoop_spec (n : Nat) : ∀ (u : User) (i : Nat) (args : List (List UInt8)), u.mem = mem →
    (argLoop arr str base u n i args).1.mem = mem ∧
    (argLoop arr str base u n i args).1.accesses =
      u.accesses ∪ loopAccesses (IsArg mem base) (turnAccesses mem arr str base) n i ∧
    (argLoop arr str base u n i args).2 =
      args ++ ((List.range' i n).takeWhile (IsArg mem base ·)).map fun i => argString mem (entry mem base i) := by
  induction n with
  | zero =>
    intro u i args hu
    simp [argLoop, hu, loopAccesses_zero]
  | succ n ih =>
    intro u i args hu
    obtain ⟨hmem, hacc, hr⟩ := copyFromUser_spec u arr (entryAddr base i) 8
    have hbs : EntryOk base i → BitVec.ofNat 64 (ofLe (copyFromUser u arr (entryAddr base i) 8).2.2) =
        entry mem base i := by
      intro hok
      rw [copyFromUser, if_pos ((accessOk_ofNat_iff (by decide)).2 hok), ← hu]
      rfl
    rw [accessOk_ofNat_iff (by decide)] at hr
    rw [argLoop, loopAccesses_succ, List.range'_succ, List.takeWhile_cons, turnAccesses, stringAccesses]
    rw [← entryAddr]
    generalize copyFromUser u arr (entryAddr base i) 8 = c at *
    obtain ⟨u', r, bs⟩ := c
    by_cases hok : EntryOk base i
    · have hr' : ¬r < 0 := fun h => hr.1 h hok
      by_cases hz : entry mem base i = 0#64
      · -- the array ends here
        have hp : ¬IsArg mem base i := fun h => h.2 hz
        simp only [hbs hok, hz, hr', hp, if_false, if_true, decide_false]
        simp_all
      · have hp : IsArg mem base i := ⟨hok, hz⟩
        obtain ⟨hsm, hsacc, -, hs⟩ := strncpyFromUser_spec u' (str i) (entry mem base i) argMax
        simp only [hbs hok, hz, hr', hp, if_false, if_true, decide_true]
        generalize strncpyFromUser u' (str i) (entry mem base i) argMax = c at *
        obtain ⟨u'', r', s⟩ := c
        obtain ⟨h1, h2, h3⟩ := ih u'' (i + 1) (args ++ [s]) (by simp_all)
        refine ⟨h1, ?_, ?_⟩
        · simp only at h2 hsacc hacc hmem
          rw [h2, hsacc, hacc, hmem, hu, Set.union_assoc, Set.union_assoc, Set.union_assoc]
        · simp only at hs hmem
          rw [h3, hs, hmem, hu]
          simp [argString]
    · -- the entry cannot be read
      have hp : ¬IsArg mem base i := fun h => hok h.1
      have hneg : r < 0 := hr.2 hok
      simp only [hneg, hp, if_false, if_true, decide_false]
      simp_all

end

section

variable (mem : Word → UInt8) (arr : Ptr) (str : Nat → Ptr) (base : Word)

/-- The accesses of the copy of an array. -/
def arrayAccesses : Set Access :=
  if base = 0 then ∅ else loopAccesses (IsArg mem base) (turnAccesses mem arr str base) maxArgs 0

/-- A string whose first byte can be read stays inside; one whose first byte cannot is left to the call to refuse. -/
def StrGuarded (src : Word) (n : Nat) (fails : Prop) : Prop :=
  if accessOk src 1#64 then StrInside mem src n else fails

/-- Every entry the kernel asks for can be read (or the first one cannot and the call fails), and so for the strings
    the entries point to. -/
def ArrayGuarded (fails : Prop) : Prop :=
  base ≠ 0 → ∀ i < maxArgs, (∀ j < i, IsArg mem base j) →
    (EntryOk base i ∨ (i = 0 ∧ fails)) ∧ (IsArg mem base i → StrGuarded mem (entry mem base i) argMax fails)

variable {mem arr str base}

theorem copyArgs_spec (u : User) (hu : u.mem = mem) :
    (copyArgs arr str base u).1.mem = mem ∧
    (copyArgs arr str base u).1.accesses = u.accesses ∪ arrayAccesses mem arr str base ∧
    (copyArgs arr str base u).2 = argStrings mem base := by
  rw [copyArgs, arrayAccesses, argStrings]
  split
  · exact ⟨hu, by simp, rfl⟩
  · obtain ⟨h1, h2, h3⟩ := @argLoop_spec mem arr str base maxArgs u 0 [] hu
    refine ⟨h1, h2, ?_⟩
    rw [h3, List.nil_append, List.range_eq_range']

/-- The entries by themselves: a loop over one pointer that stops at the first refusal. -/
theorem entries_confined_iff {fails : Prop} :
    ConfinedBy (loopAccesses (IsArg mem base) (fun i => {fromUserAccess arr (entryAddr base i) 8}) maxArgs 0) fails ↔
      ∀ i < maxArgs, (∀ j < i, IsArg mem base j) → EntryOk base i ∨ (i = 0 ∧ fails) := by
  have hin : ∀ i, (fromUserAccess arr (entryAddr base i) 8).Inside ↔ EntryOk base i :=
    fun i => (fromUserAccess_cases arr (by decide) (by decide)).1
  have hdone : ∀ i, (fromUserAccess arr (entryAddr base i) 8).Done ↔ EntryOk base i :=
    fun i => (fromUserAccess_cases arr (by decide) (by decide)).2
  have hptr : ∀ a ∈ loopAccesses (IsArg mem base) (fun i => {fromUserAccess arr (entryAddr base i) 8}) maxArgs 0,
      a.ptr = arr := by
    intro a ha
    obtain ⟨k, -, -, rfl⟩ := mem_loopAccesses.1 ha
    exact fromUserAccess_ptr arr _ _
  rw [ConfinedBy.single_iff hptr]
  constructor
  · rintro (h | ⟨hf, h⟩) i hi hasked
    · exact .inl ((hin i).1 (h _ (mem_loopAccesses.2 ⟨i, hi, hasked, rfl⟩)))
    · -- nothing was read, so no entry was passed and this is the first
      have h0 : ¬EntryOk base 0 := fun hok =>
        h _ (mem_loopAccesses.2 ⟨0, by decide, fun j hj => by omega, rfl⟩) ((hdone 0).2 hok)
      refine .inr ⟨?_, hf⟩
      by_contra hne
      exact h0 (hasked 0 (by omega)).1
  · intro h
    by_cases h0 : EntryOk base 0
    · left
      intro a ha
      obtain ⟨k, hk, hasked, rfl⟩ := mem_loopAccesses.1 ha
      rcases h k hk hasked with hok | ⟨rfl, -⟩
      · exact (hin k).2 hok
      · exact (hin 0).2 h0
    · right
      rcases h 0 (by decide) (fun j hj => by omega) with hok | ⟨-, hf⟩
      · exact absurd hok h0
      · refine ⟨hf, fun a ha => ?_⟩
        obtain ⟨k, hk, hasked, rfl⟩ := mem_loopAccesses.1 ha
        rw [hdone]
        cases k with
        | zero => exact h0
        | succ k => exact fun _ => h0 (hasked 0 (by omega)).1

theorem ptr_of_mem_stringAccesses {i : Nat} {a : Access} (h : a ∈ stringAccesses mem str base i) : a.ptr = str i := by
  rw [stringAccesses] at h
  split at h
  · exact ptr_of_mem_copyStr h
  · exact h.elim

theorem strings_confined_iff (hinj : Function.Injective str) {fails : Prop} :
    ConfinedBy (loopAccesses (IsArg mem base) (stringAccesses mem str base) maxArgs 0) fails ↔
      ∀ i < maxArgs, (∀ j < i, IsArg mem base j) → IsArg mem base i →
        StrGuarded mem (entry mem base i) argMax fails := by
  have hset : loopAccesses (IsArg mem base) (stringAccesses mem str base) maxArgs 0 =
      ⋃ i, { a | i < maxArgs ∧ (∀ j < i, IsArg mem base j) ∧ a ∈ stringAccesses mem str base i } := by
    ext a
    rw [mem_loopAccesses, Set.mem_iUnion]
    exact Iff.rfl
  have hptr : ∀ i, ∀ a ∈ { a | i < maxArgs ∧ (∀ j < i, IsArg mem base j) ∧ a ∈ stringAccesses mem str base i },
      a.ptr = str i := by
    rintro i a ⟨-, -, ha⟩
    exact ptr_of_mem_stringAccesses ha
  rw [hset, ConfinedBy.iUnion_iff hptr hinj]
  refine forall_congr' fun i => ?_
  by_cases hi : i < maxArgs ∧ (∀ j < i, IsArg mem base j) ∧ IsArg mem base i
  · have heq : { a | i < maxArgs ∧ (∀ j < i, IsArg mem base j) ∧ a ∈ stringAccesses mem str base i } =
        copyStrAccesses (str i) mem (entry mem base i) argMax := by
      ext a
      simp only [Set.mem_ofPred_eq, stringAccesses, if_pos hi.2.2]
      exact ⟨fun h => h.2.2, fun h => ⟨hi.1, hi.2.1, h⟩⟩
    rw [heq, copyStr_confined_iff (by decide)]
    exact ⟨fun h _ _ _ => h, fun h => h hi.1 hi.2.1 hi.2.2⟩
  · -- no access at all
    constructor
    · exact fun _ h1 h2 h3 => absurd ⟨h1, h2, h3⟩ hi
    · intro _
      apply ConfinedBy.of_inside
      rintro a ⟨h1, h2, ha⟩
      rw [stringAccesses] at ha
      split at ha
      next h3 => exact absurd ⟨h1, h2, h3⟩ hi
      next => exact ha.elim

theorem ptr_of_mem_array {a : Access} (h : a ∈ arrayAccesses mem arr str base) : a.ptr = arr ∨ ∃ i, a.ptr = str i := by
  rw [arrayAccesses] at h
  split at h
  · exact h.elim
  · obtain ⟨k, -, -, rfl | ha⟩ := mem_loopAccesses.1 h
    · exact .inl (fromUserAccess_ptr arr _ _)
    · exact .inr ⟨k, ptr_of_mem_stringAccesses ha⟩

theorem array_confined_iff (hinj : Function.Injective str) (hne : ∀ i, str i ≠ arr) {fails : Prop} :
    ConfinedBy (arrayAccesses mem arr str base) fails ↔ ArrayGuarded mem base fails := by
  rw [arrayAccesses, ArrayGuarded]
  by_cases hb : base = 0
  · simp only [hb, if_true, ne_eq, not_true_eq_false, false_implies, iff_true]
    exact ConfinedBy.of_inside fun a ha => ha.elim
  · rw [if_neg hb]
    have hset : loopAccesses (IsArg mem base) (turnAccesses mem arr str base) maxArgs 0 =
        loopAccesses (IsArg mem base) (fun i => {fromUserAccess arr (entryAddr base i) 8}) maxArgs 0 ∪
        loopAccesses (IsArg mem base) (stringAccesses mem str base) maxArgs 0 := by
      ext a
      simp only [Set.mem_union, mem_loopAccesses, turnAccesses]
      constructor
      · rintro ⟨k, hk, hp, ha | ha⟩
        · exact .inl ⟨k, hk, hp, ha⟩
        · exact .inr ⟨k, hk, hp, ha⟩
      · rintro (⟨k, hk, hp, ha⟩ | ⟨k, hk, hp, ha⟩)
        · exact ⟨k, hk, hp, .inl ha⟩
        · exact ⟨k, hk, hp, .inr ha⟩
    have hdisj : ∀ a ∈ loopAccesses (IsArg mem base) (fun i => {fromUserAccess arr (entryAddr base i) 8}) maxArgs 0,
        ∀ b ∈ loopAccesses (IsArg mem base) (stringAccesses mem str base) maxArgs 0, a.ptr ≠ b.ptr := by
      intro a ha b hb'
      obtain ⟨k, -, -, rfl⟩ := mem_loopAccesses.1 ha
      obtain ⟨l, -, -, hl⟩ := mem_loopAccesses.1 hb'
      rw [fromUserAccess_ptr, ptr_of_mem_stringAccesses hl]
      exact (hne l).symm
    rw [hset, ConfinedBy.union_iff hdisj, entries_confined_iff, strings_confined_iff hinj]
    constructor
    · exact fun h _ i hi hp => ⟨h.1 i hi hp, h.2 i hi hp⟩
    · exact fun h => ⟨fun i hi hp => (h hb i hi hp).1, fun i hi hp => (h hb i hi hp).2⟩

end

/-! ## What a store leaves in the buffer

Used where a later access depends on an earlier store.
-/

section
variable {u : User} {ptr : Ptr} {a b : Word} {data : List UInt8} {n : Nat}

/-- The bytes stored are read back. -/
theorem User.bytes_store_self (h : data.length < 2 ^ 64) : (u.store ptr a data).bytes a data.length = data := by
  apply List.ext_getElem
  · rw [User.bytes, List.length_map, List.length_range]
  · intro i hi hi'
    have hat : (a + BitVec.ofNat 64 i - a).toNat = i := by
      rw [BitVec.add_comm, BitVec.add_sub_cancel, BitVec.toNat_ofNat, Nat.mod_eq_of_lt (by omega)]
    simp only [User.bytes, User.store, List.getElem_map, List.getElem_range, hat, List.getElem?_eq_getElem hi',
      Option.getD_some]

/-- A store leaves alone what lies before it. -/
theorem User.bytes_store_before (h : b.toNat + n ≤ a.toNat) (hend : a.toNat + data.length ≤ 2 ^ 64) :
    (u.store ptr a data).bytes b n = u.bytes b n := by
  apply List.map_congr_left
  intro i hi
  have hi' : i < n := List.mem_range.mp hi
  have ha := a.isLt
  have hb : (b + BitVec.ofNat 64 i).toNat = b.toNat + i := toNat_add_ofNat (by omega)
  have hout : data.length ≤ (b + BitVec.ofNat 64 i - a).toNat := by
    rw [BitVec.toNat_sub, hb, Nat.mod_eq_of_lt (by omega)]
    omega
  show (data[(b + BitVec.ofNat 64 i - a).toNat]?).getD _ = _
  rw [List.getElem?_eq_none hout]
  rfl

end

end MyUnix.Proc
