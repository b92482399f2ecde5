import Mathlib.Tactic.Ring

/-!
# `Lib.Digits` — reading and replacing one digit of a number

A machine word as a number is its bytes as digits to the base 256. Replacing one digit leaves every other one as it is;
nothing here depends on the base or on the number of digits.
-/

namespace MyUnix.Lib

/-- The digit `k` of `x` to the base `base`. -/
def digit (base x k : Nat) : Nat := x / base ^ k % base

/-- `x` with the digit `d` at the place `j`. -/
def setDigit (base x j d : Nat) : Nat := x - digit base x j * base ^ j + d * base ^ j

variable {base : Nat}

/-- A number around its digit `j`. -/
theorem split_digit (base x j : Nat) :
    x = (x / base ^ j / base * base + digit base x j) * base ^ j + x % base ^ j := by
  have hlow := Nat.div_add_mod x (base ^ j)
  have hhigh := Nat.div_add_mod (x / base ^ j) base
  calc x = base ^ j * (x / base ^ j) + x % base ^ j := hlow.symm
    _ = base ^ j * (base * (x / base ^ j / base) + x / base ^ j % base) + x % base ^ j := by rw [hhigh]
    _ = _ := by rw [digit]; ring

theorem setDigit_eq (x j d : Nat) :
    setDigit base x j d = (x / base ^ j / base * base + d) * base ^ j + x % base ^ j := by
  have h := split_digit base x j
  rw [Nat.add_mul] at h ⊢
  rw [setDigit]
  generalize x % base ^ j = low at h ⊢
  omega

/-- The digits of a number put together from a low and a high part. -/
theorem digit_high {high low j k : Nat} (hlow : low < base ^ j) (hk : j ≤ k) :
    digit base (high * base ^ j + low) k = digit base high (k - j) := by
  have hpow : base ^ k = base ^ j * base ^ (k - j) := by
    rw [← Nat.pow_add, Nat.add_sub_cancel' hk]
  have hpos : 0 < base ^ j := Nat.lt_of_le_of_lt (Nat.zero_le _) hlow
  rw [digit, hpow, ← Nat.div_div_eq_div_mul, Nat.mul_comm high, Nat.mul_add_div hpos, Nat.div_eq_of_lt hlow, Nat.add_zero]
  rfl

theorem digit_low {high low j k : Nat} (hbase : 0 < base) (hk : k < j) :
    digit base (high * base ^ j + low) k = digit base low k := by
  have hpow : base ^ j = base ^ k * (base * base ^ (j - (k + 1))) := by
    rw [← Nat.mul_assoc, ← Nat.pow_succ, ← Nat.pow_add, Nat.add_sub_cancel' hk]
  have hpos : 0 < base ^ k := Nat.pow_pos hbase
  have hsum : high * base ^ j + low = base ^ k * (base * (high * base ^ (j - (k + 1)))) + low := by
    rw [hpow]
    ring
  rw [digit, hsum, Nat.mul_add_div hpos, Nat.mul_add_mod]
  rfl

theorem digit_setDigit_self {x j d : Nat} (hd : d < base) : digit base (setDigit base x j d) j = d := by
  have hbase : 0 < base := Nat.lt_of_le_of_lt (Nat.zero_le d) hd
  rw [setDigit_eq, digit_high (Nat.mod_lt _ (Nat.pow_pos hbase)) le_rfl, Nat.sub_self, digit, Nat.pow_zero, Nat.div_one,
    Nat.mul_comm, Nat.mul_add_mod, Nat.mod_eq_of_lt hd]

theorem digit_setDigit_of_ne {x j k d : Nat} (hd : d < base) (hk : k ≠ j) :
    digit base (setDigit base x j d) k = digit base x k := by
  have hbase : 0 < base := Nat.lt_of_le_of_lt (Nat.zero_le d) hd
  have hlow := Nat.mod_lt x (Nat.pow_pos hbase (n := j))
  conv_rhs => rw [split_digit base x j]
  rw [setDigit_eq]
  rcases Nat.lt_or_gt_of_ne hk with hlt | hgt
  · rw [digit_low hbase hlt, digit_low hbase hlt]
  · -- above the place the quotient is the same
    obtain ⟨i, hi⟩ : ∃ i, k - j = i + 1 := ⟨k - j - 1, by omega⟩
    have hquot : ∀ e < base, digit base (x / base ^ j / base * base + e) (i + 1) = digit base (x / base ^ j / base) i := by
      intro e he
      have hone : digit base (x / base ^ j / base * base ^ 1 + e) (i + 1) = _ :=
        digit_high (by rwa [Nat.pow_one]) (Nat.le_add_left 1 i)
      rwa [Nat.pow_one, Nat.add_sub_cancel] at hone
    rw [digit_high hlow (Nat.le_of_lt hgt), digit_high hlow (Nat.le_of_lt hgt), hi, hquot d hd, hquot]
    exact Nat.mod_lt _ hbase

end MyUnix.Lib
