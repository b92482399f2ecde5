import MyUnix.Proc.UserCopies

/-!
# `Proc.ExecArgs` — the arguments of `execve` on their way into the kernel

`sys_execve` of `syscall_impl.c`, with the buffers it copies into. The pointers that `proc_exec` gets are the rows of
two arrays on the kernel stack, which hold whatever was there before until a string is copied in. `strncpy_from_user`
writes up to 255 bytes of a row of 256; it writes no zero of its own, and what it returns is not looked at.

Memory is what the calling process has mapped. An access to anything else faults in the kernel, which panics.

Two descriptions of the same code are related here. In the first one, buffers have contents before and after, and a
row that is not written keeps what it had; this is the one in which the result is stated. In the second one, that of
`Proc.UserAccess`, a copied string is a list, and the question is which addresses are touched. `execveArgs_allMapped`
says that where everything is mapped they take the same steps.

What the user means is a relation between his memory and a list of strings (`UserStrings`). It may hold of no list,
for an array without an end or with a bad pointer; then the call should fail.
-/

namespace MyUnix.Proc

open Arch Lib

/-- The bytes that the process has mapped. -/
abbrev Mapped := Word → Option UInt8

/-! ## The copies

The functions of `vmm.c` over partial memory. A refused pointer is an error, an address without a page a panic.
-/

/-- `n` bytes from `a` on. -/
def fetch (mem : Mapped) : Nat → Word → Option (List UInt8)
  | 0,     _ => some []
  | n + 1, a =>
    match mem a with
    | none   => none
    | some b => (fetch mem n (a + 1#64)).map (b :: ·)

/-- `copy_from_user` of one entry of an array. -/
def copyEntry (mem : Mapped) (a : Word) : Option (Except Int Word) :=
  if accessOk a 8#64 then (fetch mem 8 a).map fun bs => .ok (BitVec.ofNat 64 (ofLe bs)) else some (.error (-efault))

/-- The loop of `strncpy_from_user`, at byte `i` of the buffer and with `n` to go. -/
def strncpyBuf (mem : Mapped) : Nat → Nat → Word → ByteMem → Option (Int × ByteMem)
  | 0,     _, _,   dst => some (-e2big, dst)
  | n + 1, i, src, dst =>
    match mem src with
    | none   => none
    | some b =>
      let dst := dst.write i [b]
      if b = 0 then some ((i : Int), dst) else strncpyBuf mem n (i + 1) (src + 1#64) dst

/-- `strncpy_from_user`. -/
def strncpyUser (mem : Mapped) (dst : ByteMem) (src : Word) (maxlen : Nat) : Option (Int × ByteMem) :=
  if accessOk src 1#64 then strncpyBuf mem maxlen 0 src dst else some (-efault, dst)

/-- The loop of `sys_execve` over one array, at entry `i` and with room for `n` more. -/
def copyRows (mem : Mapped) (base : Word) : Nat → Nat → (Nat → ByteMem) → Option (Nat × (Nat → ByteMem))
  | 0,     i, bufs => some (i, bufs)
  | n + 1, i, bufs =>
    match copyEntry mem (base + BitVec.ofNat 64 (8 * i)) with
    | none            => none
    -- a refused pointer ends the array like a null one
    | some (.error _) => some (i, bufs)
    | some (.ok a)    =>
      if a = 0#64 then some (i, bufs)
      else
        match strncpyUser mem (bufs i) a argMax with
        | none          => none
        | some (_, dst) => copyRows mem base n (i + 1) (Function.update bufs i dst)

/-- One of the two arrays, or none. -/
def copyArray (mem : Mapped) (base : Word) (bufs : Nat → ByteMem) : Option (Nat × (Nat → ByteMem)) :=
  if base = 0#64 then some (0, bufs) else copyRows mem base maxArgs 0 bufs

/-- The buffers on the kernel stack, and, once they are filled, what `proc_exec` is called with. -/
structure ExecBufs where
  path : ByteMem
  argc : Nat
  argv : Nat → ByteMem
  envc : Nat
  envp : Nat → ByteMem

/-- `sys_execve` up to the call of `proc_exec`: `none` is a panic. -/
def execveArgs (mem : Mapped) (stack : ExecBufs) (path argvPtr envpPtr : Word) : Option (Except Int ExecBufs) := do
  let (r, name) ← strncpyUser mem stack.path path pathMax
  if r < 0 then return .error r
  let (argc, argv) ← copyArray mem argvPtr stack.argv
  let (envc, envp) ← copyArray mem envpPtr stack.envp
  return .ok ⟨name, argc, argv, envc, envp⟩

/-! ## What the user means

Strings, arrays of strings, and what `proc_exec` is to get for them.
-/

/-- A string in user memory. -/
def UserString (mem : Mapped) : Word → List UInt8 → Prop
  | a, []     => a.toNat < userEnd.toNat ∧ mem a = some 0
  | a, b :: s => a.toNat < userEnd.toNat ∧ b ≠ 0 ∧ mem a = some b ∧ UserString mem (a + 1#64) s

/-- An entry of an array in user memory. -/
def UserEntry (mem : Mapped) (a w : Word) : Prop :=
  a.toNat + 8 ≤ userEnd.toNat ∧ ∃ bs, fetch mem 8 a = some bs ∧ w = BitVec.ofNat 64 (ofLe bs)

/-- The strings of an array from entry `i` on, up to the null entry. -/
def UserArray (mem : Mapped) (base : Word) : Nat → List (List UInt8) → Prop
  | i, []      => UserEntry mem (base + BitVec.ofNat 64 (8 * i)) 0#64
  | i, s :: ss =>
    (∃ a, a ≠ 0#64 ∧ UserEntry mem (base + BitVec.ofNat 64 (8 * i)) a ∧ UserString mem a s) ∧
      UserArray mem base (i + 1) ss

/-- The strings that a pointer stands for; a null pointer is no array, and no strings. -/
def UserStrings (mem : Mapped) (base : Word) (ss : List (List UInt8)) : Prop :=
  if base = 0#64 then ss = [] else UserArray mem base 0 ss

/-- The first `n` rows are these strings, each with its zero inside its row. -/
def RowsHold (bufs : Nat → ByteMem) (n : Nat) (ss : List (List UInt8)) : Prop :=
  n = ss.length ∧ ∀ k s, ss[k]? = some s → s.length < 256 ∧ (bufs k).Holds 0 (s ++ [0])

/-- `proc_exec` gets the strings that the pointer stands for. -/
def Passed (mem : Mapped) (base : Word) (n : Nat) (bufs : Nat → ByteMem) : Prop :=
  ∃ ss, UserStrings mem base ss ∧ RowsHold bufs n ss

/-- The call reaches `proc_exec` with the strings of the user, or comes back with an error. -/
def ExecRight (mem : Mapped) (stack : ExecBufs) (path argvPtr envpPtr : Word) : Prop :=
  match execveArgs mem stack path argvPtr envpPtr with
  | none             => False
  | some (.error e)  => e < 0
  | some (.ok call)  => Passed mem argvPtr call.argc call.argv ∧ Passed mem envpPtr call.envc call.envp

/-! ## One string

The loop stops at a zero or at the bound, and faults where nothing is mapped. Only at a zero has the buffer a zero
that the loop has put there.
-/

/-- Bytes that the loop runs over. -/
def NonzeroAt (mem : Mapped) : Word → List UInt8 → Prop
  | _, []     => True
  | a, b :: s => b ≠ 0 ∧ mem a = some b ∧ NonzeroAt mem (a + 1#64) s

section

variable {mem : Mapped} {a src base : Word} {s : List UInt8} {dst dst' : ByteMem} {i n : Nat} {r : Int}

theorem UserString.nonzeroAt (h : UserString mem a s) :
    NonzeroAt mem a s ∧ mem (a + BitVec.ofNat 64 s.length) = some 0 := by
  induction s generalizing a with
  | nil => exact ⟨trivial, by simpa using h.2⟩
  | cons b s ih =>
    obtain ⟨-, hb, hmem, hs⟩ := h
    obtain ⟨hrun, hzero⟩ := ih hs
    refine ⟨⟨hb, hmem, hrun⟩, ?_⟩
    rw [List.length_cons, ← add_one_add]
    exact hzero

theorem UserString.accessOk (h : UserString mem a s) : accessOk a 1#64 = true := by
  rw [accessOk_iff]
  cases s with
  | nil => exact h.1
  | cons b s => exact h.1

/-- **The loop passes over nonzero bytes**, and has them in the buffer. -/
theorem strncpyBuf_run (h : NonzeroAt mem src s) : ∀ n i dst,
    strncpyBuf mem (s.length + n) i src dst =
      strncpyBuf mem n (i + s.length) (src + BitVec.ofNat 64 s.length) (dst.write i s) := by
  induction s generalizing src with
  | nil =>
    intro n i dst
    have hwrite : dst.write i [] = dst := by
      funext x
      simp [ByteMem.write]
    simp [hwrite]
  | cons b s ih =>
    intro n i dst
    obtain ⟨hb, hmem, hs⟩ := h
    rw [List.length_cons, Nat.add_right_comm, strncpyBuf, hmem]
    simp only [hb, if_false]
    rw [ih hs, ByteMem.write_cons, ← add_one_add src s.length, Nat.add_assoc i, Nat.add_comm 1]

/-- The bytes of a string that is short enough are copied with their zero. -/
theorem strncpyUser_of_lt (h : UserString mem a s) (hlt : s.length < n) :
    strncpyUser mem dst a n = some ((s.length : Int), dst.write 0 (s ++ [0])) := by
  obtain ⟨hrun, hzero⟩ := h.nonzeroAt
  obtain ⟨k, rfl⟩ := Nat.exists_eq_add_of_lt hlt
  rw [strncpyUser, if_pos h.accessOk, Nat.add_assoc, strncpyBuf_run hrun, strncpyBuf, hzero]
  have happend := ByteMem.write_append dst 0 s [0]
  rw [Nat.zero_add] at happend
  simp only [if_true, Nat.zero_add]
  rw [happend]

/-- Of a string of exactly `n` bytes the zero is left out. -/
theorem strncpyUser_of_eq (h : UserString mem a s) : strncpyUser mem dst a s.length = some (-e2big, dst.write 0 s) := by
  have hrun := strncpyBuf_run h.nonzeroAt.1 0 0 dst
  rw [strncpyUser, if_pos h.accessOk]
  exact hrun

/-- Beyond byte `n` the buffer stays as it was. -/
theorem strncpyBuf_out (n : Nat) : ∀ i src dst, strncpyBuf mem n i src dst = some (r, dst') →
    ∀ x, i + n ≤ x → dst' x = dst x := by
  induction n with
  | zero =>
    intro i src dst h x hx
    cases h
    rfl
  | succ n ih =>
    intro i src dst h x hx
    rw [strncpyBuf] at h
    split at h
    next => cases h
    next b hb =>
      have hkeep : dst.write i [b] x = dst x := ByteMem.write_out _ (.inr (by rw [List.length_singleton]; omega))
      split at h
      next =>
        cases h
        exact hkeep
      next =>
        rw [ih (i + 1) (src + 1#64) _ h x (by omega)]
        exact hkeep

theorem strncpyUser_out (h : strncpyUser mem dst a n = some (r, dst')) {x : Nat} (hx : n ≤ x) : dst' x = dst x := by
  rw [strncpyUser] at h
  split at h
  · exact strncpyBuf_out n 0 a dst h x (by omega)
  · cases h
    rfl

/-- How the loop can end. -/
theorem strncpyBuf_cases (n : Nat) : ∀ i src dst, strncpyBuf mem n i src dst = some (r, dst') →
    (r = -e2big ∧ ∃ s : List UInt8, s.length = n ∧ NonzeroAt mem src s) ∨
    (0 ≤ r ∧ ∃ s : List UInt8, s.length < n ∧ NonzeroAt mem src s ∧ mem (src + BitVec.ofNat 64 s.length) = some 0) := by
  induction n with
  | zero =>
    intro i src dst h
    cases h
    exact .inl ⟨rfl, [], rfl, trivial⟩
  | succ n ih =>
    intro i src dst h
    rw [strncpyBuf] at h
    split at h
    next => cases h
    next b hb =>
      split at h
      next hzero =>
        cases h
        refine .inr ⟨by omega, [], by simp, trivial, ?_⟩
        simpa [hzero] using hb
      next hne =>
        rcases ih (i + 1) (src + 1#64) _ h with ⟨rfl, s, hlen, hs⟩ | ⟨hr, s, hlen, hs, hz⟩
        · exact .inl ⟨rfl, b :: s, by rw [List.length_cons, hlen], hne, hb, hs⟩
        · refine .inr ⟨hr, b :: s, by rw [List.length_cons]; omega, ⟨hne, hb, hs⟩, ?_⟩
          rw [List.length_cons, ← add_one_add]
          exact hz

/-! ## One array

Each entry has its row. The last byte of a row is never written, so whether a string of 255 bytes ends depends on the
stack.
-/

theorem copyEntry_ok (h : UserEntry mem a src) : copyEntry mem a = some (.ok src) := by
  obtain ⟨hle, bs, hbs, rfl⟩ := h
  have hok : accessOk a 8#64 = true := accessOk_iff.mpr hle
  rw [copyEntry, if_pos hok, hbs, Option.map_some]

/-- **An array whose strings fit**, from entry `i` on: every string gets a row, and the rows before stay. -/
theorem copyRows_fits {ss : List (List UInt8)} : ∀ {i n : Nat} {bufs : Nat → ByteMem},
    UserArray mem base i ss → ss.length ≤ n →
    (∀ k s, ss[k]? = some s → s.length < argMax ∨ (s.length = argMax ∧ bufs (i + k) argMax = 0)) →
    ∃ bufs', copyRows mem base n i bufs = some (i + ss.length, bufs') ∧ (∀ k < i, bufs' k = bufs k) ∧
      ∀ k s, ss[k]? = some s → (bufs' (i + k)).Holds 0 (s ++ [0]) := by
  induction ss with
  | nil =>
    intro i n bufs h _ _
    refine ⟨bufs, ?_, fun _ _ => rfl, by simp⟩
    cases n with
    | zero => rfl
    | succ n =>
      rw [copyRows, copyEntry_ok h]
      simp
  | cons s ss ih =>
    intro i n bufs h hn hfit
    obtain ⟨⟨a, hne, hentry, hs⟩, hss⟩ := h
    obtain ⟨n, rfl⟩ : ∃ m, n = m + 1 := ⟨n - 1, by rw [List.length_cons] at hn; omega⟩
    -- the row of this string, with its zero: copied, or there before
    obtain ⟨r, dst, hcopy, hrow⟩ : ∃ r dst, strncpyUser mem (bufs i) a argMax = some (r, dst) ∧
        dst.Holds 0 (s ++ [0]) := by
      rcases hfit 0 s rfl with hlt | ⟨heq, hzero⟩
      · refine ⟨_, _, strncpyUser_of_lt hs hlt, ?_⟩
        exact ByteMem.read_write _
      · refine ⟨_, _, heq ▸ strncpyUser_of_eq hs, ?_⟩
        rw [ByteMem.holds_append, ByteMem.holds_cons]
        refine ⟨ByteMem.read_write _, ?_, rfl⟩
        rw [ByteMem.write_out _ (.inr le_rfl), Nat.zero_add, heq]
        exact hzero
    have hfit' : ∀ k t, ss[k]? = some t →
        t.length < argMax ∨ (t.length = argMax ∧ Function.update bufs i dst (i + 1 + k) argMax = 0) := by
      intro k t ht
      rw [Function.update_of_ne (by omega), Nat.add_assoc, Nat.add_comm 1]
      exact hfit (k + 1) t ht
    obtain ⟨bufs', hcopy', hbefore, hrows⟩ := ih hss (Nat.le_of_succ_le_succ hn) hfit'
    refine ⟨bufs', ?_, fun k hk => ?_, fun k t ht => ?_⟩
    · rw [copyRows, copyEntry_ok hentry]
      simp only [hne, if_false, hcopy]
      rw [hcopy', List.length_cons, Nat.add_assoc, Nat.add_comm 1]
    · rw [hbefore k (by omega), Function.update_of_ne (by omega)]
    · cases k with
      | zero =>
        cases ht
        rw [Nat.add_zero, hbefore i (by omega), Function.update_self]
        exact hrow
      | succ k =>
        have hrow' := hrows k t ht
        rwa [Nat.add_assoc, Nat.add_comm 1] at hrow'

/-- Whatever is copied, the last byte of a row is not touched, and there are at most `n` more rows. -/
theorem copyRows_keeps {count : Nat} (n : Nat) : ∀ {i : Nat} {bufs bufs' : Nat → ByteMem},
    copyRows mem base n i bufs = some (count, bufs') → count ≤ i + n ∧ ∀ k, bufs' k argMax = bufs k argMax := by
  induction n with
  | zero =>
    intro i bufs bufs' h
    cases h
    exact ⟨by omega, fun _ => rfl⟩
  | succ n ih =>
    intro i bufs bufs' h
    rw [copyRows] at h
    split at h
    next => cases h
    next =>
      cases h
      exact ⟨by omega, fun _ => rfl⟩
    next a ha =>
      split at h
      next =>
        cases h
        exact ⟨by omega, fun _ => rfl⟩
      next =>
        split at h
        next => cases h
        next r dst hcopy =>
          obtain ⟨hle, hkeep⟩ := ih h
          refine ⟨by omega, fun k => ?_⟩
          rw [hkeep k]
          by_cases hk : k = i
          · subst hk
            rw [Function.update_self]
            exact strncpyUser_out hcopy le_rfl
          · rw [Function.update_of_ne hk]

/-! ## Where everything is mapped

Row by row, with the results and the order of the accesses the same.
-/

/-- The memory of `Proc.UserAccess` knows no faults. -/
def allMapped (u : User) : Mapped := fun a => some (u.mem a)

theorem fetch_allMapped (u : User) (n : Nat) : ∀ a, fetch (allMapped u) n a = some (u.bytes a n) := by
  induction n with
  | zero =>
    intro a
    rfl
  | succ n ih =>
    intro a
    have hbytes : u.bytes a (n + 1) = u.mem a :: u.bytes (a + 1#64) n := by
      simp only [User.bytes, List.range_succ_eq_map, List.map_cons, List.map_map, Function.comp_def, add_one_add]
      simp
    have hmem : allMapped u a = some (u.mem a) := rfl
    rw [fetch, hmem, hbytes]
    simp only [ih, Option.map_some]

/-- The loop with a buffer and the loop that collects. -/
theorem strncpyBuf_allMapped (p : Ptr) (n : Nat) : ∀ (u : User) (src : Word) (l : List UInt8) (dst : ByteMem),
    ∃ tail, strncpyBuf (allMapped u) n l.length src (dst.write 0 l) =
      some ((strncpyLoop p u n src l).2.1, dst.write 0 ((strncpyLoop p u n src l).2.2 ++ tail)) := by
  induction n with
  | zero =>
    intro u src l dst
    exact ⟨[], by rw [List.append_nil]; rfl⟩
  | succ n ih =>
    intro u src l dst
    have happend := ByteMem.write_append dst 0 l [u.mem src]
    rw [Nat.zero_add] at happend
    rw [strncpyBuf, strncpyLoop, allMapped]
    simp only [happend]
    split
    next hzero => exact ⟨[u.mem src], rfl⟩
    next hne =>
      obtain ⟨tail, h⟩ := ih (u.load p src 1) (src + 1#64) (l ++ [u.mem src]) dst
      rw [List.length_append] at h
      exact ⟨tail, h⟩

theorem strncpyUser_allMapped (p : Ptr) (u : User) (src : Word) (n : Nat) (dst : ByteMem) :
    ∃ dst', strncpyUser (allMapped u) dst src n = some ((strncpyFromUser u p src n).2.1, dst') ∧
      dst'.Holds 0 (strncpyFromUser u p src n).2.2 := by
  rw [strncpyUser, strncpyFromUser]
  split
  next =>
    have hwrite : dst.write 0 [] = dst := by
      funext x
      simp [ByteMem.write]
    obtain ⟨tail, h⟩ := strncpyBuf_allMapped p n u src [] dst
    rw [hwrite] at h
    refine ⟨_, h, ?_⟩
    have hholds : (dst.write 0 ((strncpyLoop p u n src []).2.2 ++ tail)).Holds 0 ((strncpyLoop p u n src []).2.2 ++ tail) :=
      ByteMem.read_write _
    exact (ByteMem.holds_append.mp hholds).1
  next => exact ⟨dst, rfl, rfl⟩

/-- **The rows against the list of `Proc.UserAccess`**: as many, and each begins with what was collected. -/
theorem copyRows_allMapped (arr : Ptr) (str : Nat → Ptr) (n : Nat) :
    ∀ (u : User) (args : List (List UInt8)) (bufs : Nat → ByteMem), (∀ k s, args[k]? = some s → (bufs k).Holds 0 s) →
    ∃ bufs', copyRows (allMapped u) base n args.length bufs =
        some ((argLoop arr str base u n args.length args).2.length, bufs') ∧
      ∀ k s, (argLoop arr str base u n args.length args).2[k]? = some s → (bufs' k).Holds 0 s := by
  induction n with
  | zero =>
    intro u args bufs h
    exact ⟨bufs, rfl, h⟩
  | succ n ih =>
    intro u args bufs h
    rw [copyRows, argLoop, copyEntry, copyFromUser]
    by_cases hok : accessOk (base + BitVec.ofNat 64 (8 * args.length)) 8#64 = true
    · simp only [if_pos hok, fetch_allMapped, Option.map_some, lt_irrefl, if_false]
      split
      next => exact ⟨bufs, rfl, h⟩
      next hne =>
        generalize BitVec.ofNat 64 (ofLe (u.bytes (base + BitVec.ofNat 64 (8 * args.length)) 8)) = a
        have hload : (u.load arr (base + BitVec.ofNat 64 (8 * args.length)) 8).mem = u.mem := rfl
        generalize u.load arr (base + BitVec.ofNat 64 (8 * args.length)) 8 = v at hload ⊢
        obtain ⟨dst, hcopy, hrow⟩ := strncpyUser_allMapped (str args.length) v a argMax (bufs args.length)
        obtain ⟨hmem, -⟩ := strncpyFromUser_spec v (str args.length) a argMax
        have hmapped : allMapped v = allMapped u := by
          unfold allMapped
          rw [hload]
        rw [hmapped] at hcopy
        rw [hcopy]
        simp only
        generalize strncpyFromUser v (str args.length) a argMax = copied at hmem hrow ⊢
        have hsame : allMapped copied.1 = allMapped u := by
          unfold allMapped
          rw [hmem, hload]
        -- the new row comes last
        have hrows : ∀ k s, (args ++ [copied.2.2])[k]? = some s →
            (Function.update bufs args.length dst k).Holds 0 s := by
          intro k s hs
          rcases Nat.lt_trichotomy k args.length with hk | rfl | hk
          · rw [List.getElem?_append_left hk] at hs
            rw [Function.update_of_ne (by omega)]
            exact h k s hs
          · rw [List.getElem?_concat_length] at hs
            cases hs
            rw [Function.update_self]
            exact hrow
          · rw [List.getElem?_eq_none (by rw [List.length_append, List.length_singleton]; omega)] at hs
            cases hs
        have hnext := ih copied.1 (args ++ [copied.2.2]) (Function.update bufs args.length dst) hrows
        rw [hsame, List.length_append, List.length_singleton] at hnext
        exact hnext
    · have hneg : -efault < 0 := by decide
      simp only [if_neg hok, hneg, if_true]
      exact ⟨bufs, rfl, h⟩

theorem copyArray_allMapped (arr : Ptr) (str : Nat → Ptr) (u : User) (bufs : Nat → ByteMem) :
    ∃ bufs', copyArray (allMapped u) base bufs = some ((argStrings u.mem base).length, bufs') ∧
      ∀ k s, (argStrings u.mem base)[k]? = some s → (bufs' k).Holds 0 s := by
  obtain ⟨-, -, hstrings⟩ := @copyArgs_spec u.mem arr str base u rfl
  rw [← hstrings, copyArray, copyArgs]
  by_cases hbase : base = 0#64
  · have hbase' : base = 0 := hbase
    rw [if_pos hbase, if_pos hbase']
    exact ⟨bufs, rfl, by simp⟩
  · have hbase' : ¬base = 0 := hbase
    rw [if_neg hbase, if_neg hbase']
    exact copyRows_allMapped arr str maxArgs u [] bufs (by simp)

/-- **The call as `Proc.UserAccess` has it**: it fails for the same paths, and else the rows begin with the strings it
    finds. -/
theorem execveArgs_allMapped (u : User) (stack : ExecBufs) (path argvPtr envpPtr : Word) :
    (¬(accessOk path 1#64 = true ∧ Terminated u.mem path pathMax) →
      ∃ e < 0, execveArgs (allMapped u) stack path argvPtr envpPtr = some (.error e)) ∧
    (accessOk path 1#64 = true ∧ Terminated u.mem path pathMax →
      ∃ call, execveArgs (allMapped u) stack path argvPtr envpPtr = some (.ok call) ∧
        (call.argc = (argStrings u.mem argvPtr).length ∧
          ∀ k s, (argStrings u.mem argvPtr)[k]? = some s → (call.argv k).Holds 0 s) ∧
        (call.envc = (argStrings u.mem envpPtr).length ∧
          ∀ k s, (argStrings u.mem envpPtr)[k]? = some s → (call.envp k).Holds 0 s)) := by
  obtain ⟨-, -, hneg, -⟩ := strncpyFromUser_spec u (.arg 0) path pathMax
  obtain ⟨name, hpath, -⟩ := strncpyUser_allMapped (.arg 0) u path pathMax stack.path
  obtain ⟨argv, hargv, hrows⟩ := @copyArray_allMapped argvPtr (.arg 1) .argv u stack.argv
  obtain ⟨envp, henvp, hrows'⟩ := @copyArray_allMapped envpPtr (.arg 2) .envp u stack.envp
  rw [execveArgs, hpath, hargv, henvp]
  constructor
  · intro hbad
    have hr := hneg.mpr hbad
    simp only [Option.bind_eq_bind, Option.bind_some, hr, if_true]
    exact ⟨_, hr, rfl⟩
  · intro hgood
    have hr : ¬(strncpyFromUser u (.arg 0) path pathMax).2.1 < 0 := fun hr => hneg.mp hr hgood
    simp only [Option.bind_eq_bind, Option.bind_some, hr, if_false]
    exact ⟨_, rfl, ⟨rfl, hrows⟩, rfl, hrows'⟩

/-- The strings of the array fit into the rows: at most 256 of them, and each of them with its zero into 255 bytes, or
    without it where the zero is there already. -/
def ArgsFit (mem : Mapped) (base : Word) (bufs : Nat → ByteMem) : Prop :=
  ∃ ss, UserStrings mem base ss ∧ ss.length ≤ maxArgs ∧
    ∀ k s, ss[k]? = some s → s.length < argMax ∨ (s.length = argMax ∧ bufs k argMax = 0)

theorem copyArray_fits {bufs : Nat → ByteMem} (h : ArgsFit mem base bufs) :
    ∃ n bufs', copyArray mem base bufs = some (n, bufs') ∧ Passed mem base n bufs' := by
  obtain ⟨ss, hss, hlen, hfit⟩ := h
  have hshort : ∀ (k : Nat) (s : List UInt8), ss[k]? = some s → s.length < 256 := by
    intro k s hs
    rcases hfit k s hs with hlt | ⟨heq, -⟩
    · exact hlt.trans (by decide)
    · rw [heq]
      decide
  rw [copyArray]
  by_cases hbase : base = 0#64
  · have hnil := hss
    rw [UserStrings, if_pos hbase] at hnil
    subst hnil
    rw [if_pos hbase]
    exact ⟨0, bufs, rfl, [], hss, rfl, by simp⟩
  · have harray := hss
    rw [UserStrings, if_neg hbase] at harray
    obtain ⟨bufs', hcopy, -, hrows⟩ := copyRows_fits harray hlen (by simpa using hfit)
    rw [if_neg hbase]
    refine ⟨_, bufs', hcopy, ss, hss, Nat.zero_add _, fun k s hs => ⟨hshort k s hs, ?_⟩⟩
    have hrow := hrows k s hs
    rwa [Nat.zero_add] at hrow

/-- What is passed has fitted. -/
theorem fits_of_passed {bufs bufs' : Nat → ByteMem} (h : copyArray mem base bufs = some (n, bufs'))
    (hpassed : Passed mem base n bufs') : ArgsFit mem base bufs := by
  obtain ⟨ss, hss, hlen, hrows⟩ := hpassed
  have hkeeps : n ≤ maxArgs ∧ ∀ k, bufs' k argMax = bufs k argMax := by
    rw [copyArray] at h
    split at h
    · cases h
      exact ⟨Nat.zero_le _, fun _ => rfl⟩
    · obtain ⟨hle, hkeep⟩ := copyRows_keeps maxArgs h
      exact ⟨by omega, hkeep⟩
  refine ⟨ss, hss, hlen ▸ hkeeps.1, fun k s hs => ?_⟩
  obtain ⟨hshort, hrow⟩ := hrows k s hs
  rcases Nat.lt_or_ge s.length argMax with hlt | hge
  · exact .inl hlt
  · have heq : s.length = argMax := by
      unfold argMax at hge ⊢
      omega
    -- the last byte of the row is the zero, and the copy has not put it there
    rw [ByteMem.holds_append, ByteMem.holds_cons, Nat.zero_add, heq] at hrow
    exact .inr ⟨heq, by rw [← hkeeps.2 k, hrow.2.1]⟩

/-! ## The call

The equivalence: which paths and arrays are passed as they were meant, or refused.
-/

/-- The path is refused: it begins outside user memory, or has no zero in its first `PATH_MAX` bytes. -/
def PathRefused (mem : Mapped) (path : Word) : Prop :=
  ¬accessOk path 1#64 = true ∨ ∃ s : List UInt8, s.length = pathMax ∧ NonzeroAt mem path s

/-- The path is read up to its zero. -/
def PathRead (mem : Mapped) (path : Word) : Prop :=
  accessOk path 1#64 = true ∧
  ∃ s : List UInt8, s.length < pathMax ∧ NonzeroAt mem path s ∧ mem (path + BitVec.ofNat 64 s.length) = some 0

theorem strncpyUser_path (h : strncpyUser mem dst src pathMax = some (r, dst')) :
    (r < 0 ∧ PathRefused mem src) ∨ (0 ≤ r ∧ PathRead mem src) := by
  rw [strncpyUser] at h
  split at h
  next hok =>
    rcases strncpyBuf_cases pathMax 0 src dst h with ⟨rfl, hs⟩ | ⟨hr, hs⟩
    · exact .inl ⟨by decide, .inr hs⟩
    · exact .inr ⟨hr, hok, hs⟩
  next hok =>
    cases h
    exact .inl ⟨by decide, .inl hok⟩

theorem strncpyUser_refused (h : PathRefused mem src) :
    ∃ r dst', strncpyUser mem dst src pathMax = some (r, dst') ∧ r < 0 := by
  rw [strncpyUser]
  split
  next hok =>
    obtain ⟨s, hlen, hs⟩ := h.resolve_left (not_not_intro hok)
    have hrun := strncpyBuf_run hs 0 0 dst
    rw [Nat.add_zero, hlen] at hrun
    exact ⟨_, _, hrun, by decide⟩
  next => exact ⟨_, _, rfl, by decide⟩

theorem strncpyUser_read (h : PathRead mem src) :
    ∃ r dst', strncpyUser mem dst src pathMax = some (r, dst') ∧ 0 ≤ r := by
  obtain ⟨hok, s, hlt, hs, hzero⟩ := h
  obtain ⟨k, hk⟩ := Nat.exists_eq_add_of_lt hlt
  rw [strncpyUser, if_pos hok, hk, Nat.add_assoc, strncpyBuf_run hs, strncpyBuf, hzero]
  exact ⟨_, _, rfl, by omega⟩

end

/-- **When `execve` hands on what the user means, or fails**: the path is refused; or it is read, and the strings of both
    arrays fit into the rows. -/
theorem execve_args_iff (mem : Mapped) (stack : ExecBufs) (path argvPtr envpPtr : Word) :
    ExecRight mem stack path argvPtr envpPtr ↔
      PathRefused mem path ∨
      (PathRead mem path ∧ ArgsFit mem argvPtr stack.argv ∧ ArgsFit mem envpPtr stack.envp) := by
  rw [ExecRight, execveArgs]
  constructor
  · intro h
    rcases hpath : strncpyUser mem stack.path path pathMax with _ | ⟨r, name⟩
    · rw [hpath] at h
      exact absurd h id
    rw [hpath] at h
    rcases strncpyUser_path hpath with ⟨-, hrefused⟩ | ⟨hr, hread⟩
    · exact .inl hrefused
    refine .inr ⟨hread, ?_⟩
    simp only [Option.bind_eq_bind, Option.bind_some, not_lt.mpr hr, if_false] at h
    rcases hargv : copyArray mem argvPtr stack.argv with _ | ⟨argc, argv⟩
    · rw [hargv] at h
      exact absurd h id
    rcases henvp : copyArray mem envpPtr stack.envp with _ | ⟨envc, envp⟩
    · rw [hargv, henvp] at h
      exact absurd h id
    rw [hargv, henvp] at h
    exact ⟨fits_of_passed hargv h.1, fits_of_passed henvp h.2⟩
  · rintro (hrefused | ⟨hread, hargv, henvp⟩)
    · obtain ⟨r, name, hpath, hr⟩ := @strncpyUser_refused mem path stack.path hrefused
      rw [hpath]
      simp only [Option.bind_eq_bind, Option.bind_some, hr, if_true]
      exact hr
    · obtain ⟨r, name, hpath, hr⟩ := @strncpyUser_read mem path stack.path hread
      obtain ⟨argc, argv, hcopy, hpassed⟩ := copyArray_fits hargv
      obtain ⟨envc, envp, hcopy', hpassed'⟩ := copyArray_fits henvp
      rw [hpath]
      simp only [Option.bind_eq_bind, Option.bind_some, not_lt.mpr hr, if_false, hcopy, hcopy']
      exact ⟨hpassed, hpassed'⟩

/-- A path at 0x1000, and at 0x2000 an array whose first entry lies in the kernel's half. -/
def badEntry : Mapped := fun a =>
  if a.toNat < 0x1000 ∨ 0x3000 ≤ a.toNat then none
  else if a.toNat = 0x2000 then some 0xF0
  else if 0x2000 < a.toNat ∧ a.toNat < 0x2008 then some 0xFF
  else some 0

/-- A stack that was used before. -/
def usedStack : ExecBufs := ⟨fun _ => 65, 0, fun _ _ => 65, 0, fun _ _ => 65⟩

theorem badEntry_passed {n : Nat} {bufs : Nat → ByteMem} : ¬Passed badEntry 0x2000#64 n bufs := by
  rintro ⟨ss, hss, -⟩
  rw [UserStrings, if_neg (by decide)] at hss
  have hentry : fetch badEntry 8 (0x2000#64 + BitVec.ofNat 64 (8 * 0)) =
      some [0xF0, 0xFF, 0xFF, 0xFF, 0xFF, 0xFF, 0xFF, 0xFF] := by decide +kernel
  cases ss with
  | nil =>
    obtain ⟨-, bs, hbs, hzero⟩ := hss
    rw [hentry] at hbs
    cases hbs
    exact absurd hzero (by decide)
  | cons s ss =>
    obtain ⟨⟨a, -, ⟨-, bs, hbs, ha⟩, hs⟩, -⟩ := hss
    rw [hentry] at hbs
    cases hbs
    -- the string would have to begin below `VMM_USER_END`
    have hok := hs.accessOk
    rw [accessOk_iff, ha] at hok
    exact absurd hok (by decide)

/-- **A bad pointer in `argv`**: the call goes on, with what was on the stack for a string. -/
theorem execve_passes_stack :
    (∃ call, execveArgs badEntry usedStack 0x1000#64 0x2000#64 0#64 = some (.ok call) ∧ call.argc = 1 ∧
      call.argv 0 0 = 65) ∧
    ¬ExecRight badEntry usedStack 0x1000#64 0x2000#64 0#64 := by
  have hanswer : (execveArgs badEntry usedStack 0x1000#64 0x2000#64 0#64).bind (fun out => out.toOption.map fun call =>
      (call.argc, call.argv 0 0)) = some (1, 65) := by decide +kernel
  obtain ⟨out, hout, hcall⟩ := Option.bind_eq_some_iff.mp hanswer
  obtain ⟨call, hok, hpair⟩ := Option.map_eq_some_iff.mp hcall
  obtain ⟨hargc, hbyte⟩ := Prod.mk.inj hpair
  cases out with
  | error e => cases hok
  | ok c =>
    cases hok
    refine ⟨⟨call, hout, hargc, hbyte⟩, fun h => ?_⟩
    rw [ExecRight, hout] at h
    exact badEntry_passed h.1

end MyUnix.Proc
