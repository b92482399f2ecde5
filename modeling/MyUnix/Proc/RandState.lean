import MyUnix.Lib.XorShift
import MyUnix.Proc.Getrandom

/-!
# `Proc.RandState` — the states of the two generators

`/dev/random` and `sys_getrandom` each have a state of their own, `g_rand_state` and the static `rng`, and advance it by
the same xorshift step once for each byte they give out. The step is three words combined with shifts of themselves
(`Lib.XorShift`), so it is a bijection that takes only 0 to 0: a state that is not 0 stays so, and no two states come
together again, whatever is read.

How many steps an operation makes depends on the memory of the caller and on the heap, not on the state. So a run is a
number of steps for each of the two generators, and two runs from different seeds stay different.
-/

namespace MyUnix.Proc

open Arch Lib Mm

/-- `devrand_read`: the bytes, and `g_rand_state` behind them. -/
def devrandRead : Nat → Word → List UInt8 × Word
  | 0,       state => ([], state)
  | len + 1, state =>
    let state := xorshift state
    let (bytes, state') := devrandRead len state
    (UInt8.ofNat state.toNat :: bytes, state')

/-- `g_rand_state` and the `rng` of `sys_getrandom`. -/
structure RandState where
  dev    : Word
  getrng : Word
  deriving DecidableEq

/-- The values they start with. -/
def RandState.seeds : RandState := ⟨0xDEADBEEFCAFEBABE#64, 0x123456789ABCDEF#64⟩

/-- A read of `/dev/random`, or a call of `sys_getrandom` with the memory and the heap it finds. -/
inductive RandOp where
  | devrand (len : Nat)
  | getrandom (u : User) (h : Heap) (bufPtr : Word) (buflen : Nat)

/-- What an operation leaves of the states; `none` where the kernel panics. -/
def RandOp.step (s : RandState) : RandOp → Option RandState
  | .devrand len                  => some { s with dev := (devrandRead len s.dev).2 }
  | .getrandom u h bufPtr buflen =>
      (sysGetrandom u h s.getrng bufPtr buflen).map fun out => { s with getrng := out.2.2.2 }

/-! ## The step

The composition of three bijections that keep 0.
-/

theorem xorshift_eq (x : Word) : xorshift x = xorLeft 17 (xorRight 7 (xorLeft 13 x)) := rfl

theorem xorshift_bijective : Function.Bijective xorshift := by
  have hfirst : Function.Bijective (@xorLeft 64 13) := xorLeft_bijective (by decide)
  have hsecond : Function.Bijective (@xorRight 64 7) := xorRight_bijective (by decide)
  have hthird : Function.Bijective (@xorLeft 64 17) := xorLeft_bijective (by decide)
  have hstep : xorshift = xorLeft 17 ∘ xorRight 7 ∘ xorLeft 13 := funext xorshift_eq
  rw [hstep]
  exact hthird.comp (hsecond.comp hfirst)

theorem xorshift_zero : xorshift 0 = 0 := by decide

/-! ## One operation

The bytes of the device and those of the system call, each with what it leaves of its own state.
-/

/-- **Each byte is one step.** -/
theorem devrandRead_state (len : Nat) (state : Word) : (devrandRead len state).2 = xorshift^[len] state := by
  induction len generalizing state with
  | zero => rfl
  | succ len ih =>
    show (devrandRead len (xorshift state)).2 = _
    rw [ih, Function.iterate_succ_apply]

/-- The bytes are those of the driver as the system call sees it. -/
theorem devrandRead_bytes (len : Nat) (state : Word) : (devrandRead len state).1 = randBytes len state := by
  induction len generalizing state with
  | zero => rfl
  | succ len ih =>
    show _ :: (devrandRead len (xorshift state)).1 = _
    rw [ih, randBytes]

/-- **The system call** on the device stores these bytes. -/
theorem vnodeRead_devrand (u : User) (p : Ptr) (buf len : Word) (serial : List (Option UInt8)) (off : Int) (x : Word) :
    vnodeRead u p buf len serial off (.devrand x) = (u.store p buf (devrandRead len.toNat x).1, some len.toInt) := by
  rw [vnodeRead, devrandRead_bytes]

theorem fillLoop_state (buf n : Nat) : ∀ (i : Nat) (rng : Word), (fillLoop buf n i rng).2 = xorshift^[n] rng := by
  induction n with
  | zero =>
    intro i rng
    rfl
  | succ n ih =>
    intro i rng
    show (fillLoop buf n (i + 1) (xorshift rng)).2 = _
    rw [ih, Function.iterate_succ_apply]

/-- Whether the loop of `sys_getrandom` runs does not depend on the state: there is a buffer or there is none. -/
theorem sysGetrandom_state {u : User} {h : Heap} {bufPtr : Word} {buflen : Nat} :
    ∃ n, ∀ rng out, sysGetrandom u h rng bufPtr buflen = some out → out.2.2.2 = xorshift^[n] rng := by
  cases hk : h.kmalloc buflen with
  | none =>
    refine ⟨0, fun rng out hout => ?_⟩
    rw [sysGetrandom, getrandomFill, hk] at hout
    cases hout
  | some res =>
    obtain ⟨ptr, h'⟩ := res
    by_cases hptr : ptr = 0
    · subst hptr
      refine ⟨0, fun rng out hout => ?_⟩
      have hret : sysGetrandom u h rng bufPtr buflen = some (-enomem, u, h', rng) := by
        rw [sysGetrandom, getrandomFill, hk]
        rfl
      rw [← Option.some.inj (hret.symm.trans hout)]
      rfl
    · refine ⟨buflen, fun rng out hout => ?_⟩
      simp only [sysGetrandom, getrandomFill, hk, Option.bind_eq_bind, Option.bind_some, if_neg hptr] at hout
      obtain ⟨h'', -, hret⟩ := Option.bind_eq_some_iff.mp hout
      rw [← Option.some.inj hret]
      exact fillLoop_state ptr buflen 0 rng

/-- **An operation advances each state by a number of steps** that depends on the operation alone. -/
theorem RandOp.step_eq (op : RandOp) :
    ∃ m n, ∀ s s', op.step s = some s' → s'.dev = xorshift^[m] s.dev ∧ s'.getrng = xorshift^[n] s.getrng := by
  cases op with
  | devrand len =>
    refine ⟨len, 0, fun s s' hs => ?_⟩
    rw [RandOp.step, Option.some.injEq] at hs
    subst hs
    exact ⟨devrandRead_state len s.dev, rfl⟩
  | getrandom u h bufPtr buflen =>
    obtain ⟨n, hn⟩ := @sysGetrandom_state u h bufPtr buflen
    refine ⟨0, n, fun s s' hs => ?_⟩
    obtain ⟨out, hout, hs'⟩ := Option.map_eq_some_iff.mp hs
    subst hs'
    exact ⟨rfl, hn s.getrng out hout⟩

/-! ## Runs

Any sequence of reads and calls that does not end in a panic.
-/

/-- And so does a run. -/
theorem randRun_eq (ops : List RandOp) :
    ∃ m n, ∀ s s', ops.foldlM RandOp.step s = some s' →
      s'.dev = xorshift^[m] s.dev ∧ s'.getrng = xorshift^[n] s.getrng := by
  induction ops with
  | nil =>
    refine ⟨0, 0, fun s s' hs => ?_⟩
    rw [List.foldlM_nil] at hs
    cases hs
    exact ⟨rfl, rfl⟩
  | cons op ops ih =>
    obtain ⟨m, n, hop⟩ := RandOp.step_eq op
    obtain ⟨m', n', hops⟩ := ih
    refine ⟨m' + m, n' + n, fun s s' hs => ?_⟩
    rw [List.foldlM_cons] at hs
    obtain ⟨t, hfirst, hrest⟩ := Option.bind_eq_some_iff.mp hs
    obtain ⟨hdev, hget⟩ := hop s t hfirst
    obtain ⟨hdev', hget'⟩ := hops t s' hrest
    constructor
    · rw [hdev', hdev, Function.iterate_add_apply]
    · rw [hget', hget, Function.iterate_add_apply]

/-- **The generators never reach 0 and never merge.** The step is a bijection that takes only 0 to 0; so in every run
    from the built-in seeds neither state is 0, and states that differ before a run of the same operations differ after
    it. -/
theorem xorshift_runs :
    Function.Bijective xorshift ∧ (∀ x, xorshift x = 0 ↔ x = 0) ∧
    (∀ (ops : List RandOp) (s : RandState), ops.foldlM RandOp.step .seeds = some s → s.dev ≠ 0 ∧ s.getrng ≠ 0) ∧
    ∀ (ops : List RandOp) (s s' t t' : RandState), ops.foldlM RandOp.step s = some s' → ops.foldlM RandOp.step t = some t' →
      (s.dev ≠ t.dev → s'.dev ≠ t'.dev) ∧ (s.getrng ≠ t.getrng → s'.getrng ≠ t'.getrng) := by
  have hinj : Function.Injective xorshift := xorshift_bijective.1
  refine ⟨xorshift_bijective, eq_zero_iff_of_injective hinj xorshift_zero, ?_, ?_⟩
  · intro ops s hs
    obtain ⟨m, n, hrun⟩ := randRun_eq ops
    obtain ⟨hdev, hget⟩ := hrun _ s hs
    constructor
    · rw [hdev, ne_eq, iterate_eq_zero_iff hinj xorshift_zero]
      decide
    · rw [hget, ne_eq, iterate_eq_zero_iff hinj xorshift_zero]
      decide
  · intro ops s s' t t' hs ht
    obtain ⟨m, n, hrun⟩ := randRun_eq ops
    obtain ⟨hdev, hget⟩ := hrun s s' hs
    obtain ⟨hdev', hget'⟩ := hrun t t' ht
    constructor
    · intro hne
      rw [hdev, hdev']
      exact (hinj.iterate m).ne hne
    · intro hne
      rw [hget, hget']
      exact (hinj.iterate n).ne hne

/-- Two reads of `/dev/random`. -/
def twoReads : List RandOp := [.devrand 3, .devrand 1]

/-- They leave a state that is not 0, and another one from another seed. -/
theorem xorshift_runs_twice :
    ∃ s t, twoReads.foldlM RandOp.step .seeds = some s ∧ twoReads.foldlM RandOp.step ⟨1#64, 1#64⟩ = some t ∧
      s.dev ≠ 0 ∧ s.dev ≠ t.dev := by
  obtain ⟨-, -, hnonzero, hapart⟩ := xorshift_runs
  have hs := hnonzero twoReads _ rfl
  have ht := hapart twoReads .seeds _ ⟨1#64, 1#64⟩ _ rfl rfl
  exact ⟨_, _, rfl, rfl, hs.1, ht.1 (by decide)⟩

end MyUnix.Proc
