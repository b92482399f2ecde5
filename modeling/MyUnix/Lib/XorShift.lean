import Mathlib.Data.BitVec
import Mathlib.Data.Fintype.Card
import Mathlib.Logic.Function.Iterate

/-!
# `Lib.XorShift` — words combined with a shift of themselves

`x ^ (x << k)` and `x ^ (x >> k)` on words of any width. A shift by at least one place leaves one end of the word alone,
and from there every bit can be read off in turn, so each of the two maps is a bijection (`xorLeft_bijective`,
`xorRight_bijective`), and so is every composition of them.

A bijection that keeps 0 takes no other word to 0, and neither do its iterates (`iterate_eq_zero_iff`).

Only injectivity has to be proved: there are finitely many words of one width, so an injective map hits each of them.
-/

namespace MyUnix.Lib

variable {w k : Nat}

/-- `x ^= x << k`. -/
def xorLeft (k : Nat) (x : BitVec w) : BitVec w := x ^^^ (x <<< k)

/-- `x ^= x >> k`. -/
def xorRight (k : Nat) (x : BitVec w) : BitVec w := x ^^^ (x >>> k)

theorem getLsbD_xorLeft (x : BitVec w) {i : Nat} (hi : i < w) :
    (xorLeft k x).getLsbD i = (x.getLsbD i ^^ (!decide (i < k) && x.getLsbD (i - k))) := by
  rw [xorLeft, BitVec.getLsbD_xor, BitVec.getLsbD_shiftLeft, decide_eq_true hi, Bool.true_and]

theorem getLsbD_xorRight (x : BitVec w) (i : Nat) :
    (xorRight k x).getLsbD i = (x.getLsbD i ^^ x.getLsbD (k + i)) := by
  rw [xorRight, BitVec.getLsbD_xor, BitVec.getLsbD_ushiftRight]

/-- The low `k` bits are as they were, and each further bit follows from the one `k` places below it. -/
theorem xorLeft_injective (hk : 0 < k) : Function.Injective (@xorLeft w k) := by
  intro x y hxy
  apply BitVec.eq_of_getLsbD_eq
  intro i
  induction i using Nat.strong_induction_on with
  | _ i ih =>
    intro hi
    have hbit : (xorLeft k x).getLsbD i = (xorLeft k y).getLsbD i := by rw [hxy]
    rw [getLsbD_xorLeft x hi, getLsbD_xorLeft y hi] at hbit
    by_cases hlow : i < k
    · simpa [hlow] using hbit
    · have hbelow : x.getLsbD (i - k) = y.getLsbD (i - k) := by
        apply ih
        · omega
        · omega
      simpa [hlow, hbelow] using hbit

/-- The same from the top: the induction is on the distance of a bit from the width. -/
theorem xorRight_injective (hk : 0 < k) : Function.Injective (@xorRight w k) := by
  intro x y hxy
  have hall : ∀ d i, w ≤ i + d → x.getLsbD i = y.getLsbD i := by
    intro d
    induction d with
    | zero =>
      intro i hi
      rw [BitVec.getLsbD_of_ge x i hi, BitVec.getLsbD_of_ge y i hi]
    | succ d ih =>
      intro i hi
      have hbit : (xorRight k x).getLsbD i = (xorRight k y).getLsbD i := by rw [hxy]
      have habove : x.getLsbD (k + i) = y.getLsbD (k + i) := by
        apply ih
        omega
      rw [getLsbD_xorRight, getLsbD_xorRight, habove] at hbit
      exact Bool.xor_left_inj.mp hbit
  apply BitVec.eq_of_getLsbD_eq
  intro i hi
  exact hall w i (Nat.le_add_left _ _)

/-- There are finitely many words. -/
theorem bitVec_bijective {f : BitVec w → BitVec w} (hf : Function.Injective f) : Function.Bijective f := by
  have hfinite : Finite (BitVec w) := Finite.of_equiv _ BitVec.equivFin.toEquiv.symm
  exact Finite.injective_iff_bijective.mp hf

theorem xorLeft_bijective (hk : 0 < k) : Function.Bijective (@xorLeft w k) := bitVec_bijective (xorLeft_injective hk)

theorem xorRight_bijective (hk : 0 < k) : Function.Bijective (@xorRight w k) :=
  bitVec_bijective (xorRight_injective hk)

theorem eq_zero_iff_of_injective {f : BitVec w → BitVec w} (hf : Function.Injective f) (h0 : f 0 = 0) (x : BitVec w) :
    f x = 0 ↔ x = 0 := by
  constructor
  · intro hx
    apply hf
    rw [hx, h0]
  · rintro rfl
    exact h0

theorem iterate_eq_zero_iff {f : BitVec w → BitVec w} (hf : Function.Injective f) (h0 : f 0 = 0) (n : Nat)
    (x : BitVec w) : f^[n] x = 0 ↔ x = 0 :=
  eq_zero_iff_of_injective (hf.iterate n) (Function.iterate_fixed h0 n) x

end MyUnix.Lib
