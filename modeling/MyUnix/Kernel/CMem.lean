import MyUnix.Lib.ByteStore

/-!
# `Kernel.CMem` — the memory functions of the kernel

`memset`, `memcpy`, `memmove` and `memcmp` of `main.c`. `memcpy` always copies upwards; `memmove` copies
upwards where the destination is below the source and downwards elsewhere, so that no byte is read after it was
overwritten.

The loops are written over any memory whose bytes can be read and set, so that the same text is used for a flat memory
and for the heap. Lengths and addresses do not wrap: a range that runs over the end of the address space is no object
of C, and the callers that could make one are modelled with their own check.

`memcpy` and `memmove` are compared with each other as well. The kernel's `memcpy` has no undefined behaviour of its
own: on ranges that overlap in the wrong way it repeats the bytes between the two places, and `memcpy_eq_memmove_iff`
says when this can be noticed.
-/

namespace MyUnix.Kernel

open Lib Lib.ByteStore

variable {M : Type} [ByteStore M]

/-- `while (n--) *p++ = (uint8_t)c;` -/
def memset (m : M) (dst : Nat) (c : UInt8) : Nat → M
  | 0 => m
  | n + 1 => memset (set m dst c) (dst + 1) c n

/-- `while (n--) *d++ = *s++;` -/
def memcpy (m : M) (dst src : Nat) : Nat → M
  | 0 => m
  | n + 1 => memcpy (set m dst (get m src)) (dst + 1) (src + 1) n

/-- `while (n--) *--d = *--s;`, with `n` bytes still before `d` and `s`. -/
def copyDown (m : M) (dst src : Nat) : Nat → M
  | 0 => m
  | n + 1 => copyDown (set m (dst + n) (get m (src + n))) dst src n

/-- `memmove`. -/
def memmove (m : M) (dst src n : Nat) : M := if dst < src then memcpy m dst src n else copyDown m dst src n

/-- `memcmp`. -/
def memcmp (m : M) (a b : Nat) : Nat → Int
  | 0 => 0
  | n + 1 => if get m a ≠ get m b then (get m a).toNat - (get m b).toNat else memcmp m (a + 1) (b + 1) n

/-! ## What the loops write

For each loop one lemma about the bytes inside the destination and one about those outside. Copying upwards is right
where the destination lies below the source or the two are apart, copying downwards in the other case.
-/

theorem get_memset (c : UInt8) : ∀ (n : Nat) (m : M) (dst x : Nat),
    get (memset m dst c n) x = if dst ≤ x ∧ x < dst + n then c else get m x
  | 0, m, dst, x => by rw [memset, if_neg (by omega)]
  | n + 1, m, dst, x => by
    rw [memset, get_memset c n]
    by_cases hx : x = dst
    · rw [hx, if_neg (by omega), if_pos (by omega), get_set_self]
    · rw [get_set_of_ne _ _ _ _ hx]
      by_cases hin : dst + 1 ≤ x ∧ x < dst + 1 + n
      · rw [if_pos hin, if_pos (by omega)]
      · rw [if_neg hin, if_neg (by omega)]

/-- Nothing outside the destination is written. -/
theorem get_memcpy_out : ∀ (n : Nat) (m : M) (dst src x : Nat), x < dst ∨ dst + n ≤ x →
    get (memcpy m dst src n) x = get m x
  | 0, _, _, _, _, _ => rfl
  | n + 1, m, dst, src, x, h => by
    rw [memcpy, get_memcpy_out n _ _ _ _ (by omega), get_set_of_ne _ _ _ _ (by omega)]

theorem get_copyDown_out : ∀ (n : Nat) (m : M) (dst src x : Nat), x < dst ∨ dst + n ≤ x →
    get (copyDown m dst src n) x = get m x
  | 0, _, _, _, _, _ => rfl
  | n + 1, m, dst, src, x, h => by
    rw [copyDown, get_copyDown_out n _ _ _ _ (by omega), get_set_of_ne _ _ _ _ (by omega)]

/-- Copying upwards to a lower place, or to one apart. -/
theorem get_memcpy_in : ∀ (n : Nat) (m : M) (dst src : Nat), dst ≤ src ∨ src + n ≤ dst → ∀ i < n,
    get (memcpy m dst src n) (dst + i) = get m (src + i)
  | n + 1, m, dst, src, h, 0, _ => by
    rw [memcpy, get_memcpy_out _ _ _ _ _ (by omega)]
    exact get_set_self m dst _
  | n + 1, m, dst, src, h, i + 1, hi => by
    have hstep := get_memcpy_in n (set m dst (get m src)) (dst + 1) (src + 1) (by omega) i (by omega)
    rw [show dst + 1 + i = dst + (i + 1) by omega, show src + 1 + i = src + (i + 1) by omega] at hstep
    rw [memcpy, hstep, get_set_of_ne _ _ _ _ (by omega)]

/-- Copying downwards to a higher place, or to the same one. -/
theorem get_copyDown_in : ∀ (n : Nat) (m : M) (dst src : Nat), src ≤ dst → ∀ i < n,
    get (copyDown m dst src n) (dst + i) = get m (src + i)
  | n + 1, m, dst, src, h, i, hi => by
    rw [copyDown]
    by_cases hin : i = n
    · rw [hin, get_copyDown_out _ _ _ _ _ (by omega), get_set_self]
    · rw [get_copyDown_in n _ dst src h i (by omega), get_set_of_ne _ _ _ _ (by omega)]

/-- Copying upwards over the source itself repeats the bytes between the two places. -/
theorem get_memcpy_over {k : Nat} (hk : 0 < k) : ∀ (n : Nat) (m : M) (src : Nat), ∀ i < n,
    get (memcpy m (src + k) src n) (src + k + i) = get m (src + i % k)
  | n + 1, m, src, 0, _ => by
    rw [memcpy, get_memcpy_out _ _ _ _ _ (by omega), Nat.zero_mod]
    exact get_set_self m (src + k) _
  | n + 1, m, src, i + 1, hi => by
    have hstep := get_memcpy_over hk n (set m (src + k) (get m src)) (src + 1) i (by omega)
    rw [show src + 1 + k = src + k + 1 by omega, show src + k + 1 + i = src + k + (i + 1) by omega] at hstep
    rw [memcpy, hstep]
    have hlt := Nat.mod_lt i hk
    have hnext : (i + 1) % k = (i % k + 1) % k := by
      have hsplit : i + 1 = k * (i / k) + (i % k + 1) := by
        have := Nat.div_add_mod i k
        omega
      rw [hsplit, Nat.mul_add_mod]
    rw [hnext]
    by_cases hlast : i % k + 1 = k
    · -- the byte just written is read again
      rw [show src + 1 + i % k = src + k by omega, get_set_self, hlast, Nat.mod_self]
      rfl
    · rw [get_set_of_ne _ _ _ _ (by omega), Nat.mod_eq_of_lt (show i % k + 1 < k by omega), Nat.add_assoc,
        Nat.add_comm 1]

/-- A byte of the source that lies below the destination, or a destination that begins below the source. -/
theorem get_memcpy_before {n i : Nat} (m : M) {dst src : Nat} (h : dst ≤ src ∨ src + i < dst) (hi : i < n) :
    get (memcpy m dst src n) (dst + i) = get m (src + i) := by
  by_cases hover : src < dst ∧ dst < src + n
  · obtain ⟨k, rfl⟩ : ∃ k, dst = src + k := ⟨dst - src, by omega⟩
    rw [get_memcpy_over (by omega) n m src i hi, Nat.mod_eq_of_lt (by omega)]
  · exact get_memcpy_in n m dst src (by omega) i hi

/-! ## Overlap

`memmove` chooses between the two loops by comparing the addresses. The bytes that `memcpy` puts into a destination
that begins inside the source are those of the source up to there, over and over; so it agrees with `memmove` only
where the source repeats with that distance anyhow.
-/

/-- **`memmove` moves the bytes as they were**, however the two places overlap, and touches nothing else. -/
theorem get_memmove (m : M) (dst src n x : Nat) :
    get (memmove m dst src n) x = if dst ≤ x ∧ x < dst + n then get m (src + (x - dst)) else get m x := by
  rw [memmove]
  split
  next hlt =>
    split
    next hin =>
      have hcopy := get_memcpy_in n m dst src (by omega) (x - dst) (by omega)
      rwa [show dst + (x - dst) = x by omega] at hcopy
    next hout => exact get_memcpy_out n m dst src x (by omega)
  next hge =>
    split
    next hin =>
      have hcopy := get_copyDown_in n m dst src (by omega) (x - dst) (by omega)
      rwa [show dst + (x - dst) = x by omega] at hcopy
    next hout => exact get_copyDown_out n m dst src x (by omega)

/-- The bytes of a range repeat after `k`. -/
def Repeats (m : M) (src n k : Nat) : Prop := ∀ i, i + k < n → get m (src + (i + k)) = get m (src + i)

theorem Repeats.mod {m : M} {src n k : Nat} (h : Repeats m src n k) :
    ∀ i < n, get m (src + i) = get m (src + i % k) := by
  intro i
  induction i using Nat.strongRecOn with
  | ind i ih =>
    intro hi
    by_cases hik : i < k
    · rw [Nat.mod_eq_of_lt hik]
    · rcases Nat.eq_zero_or_pos k with rfl | hk
      · rw [Nat.mod_zero]
      · have hback := h (i - k) (by omega)
        rw [show i - k + k = i by omega] at hback
        rw [hback, ih (i - k) (by omega) (by omega), Nat.mod_eq_sub_mod (Nat.not_lt.mp hik)]

/-- **When `memcpy` can stand for `memmove`**: exactly where the destination does not begin inside the source, or the
    source repeats with the distance between the two. -/
theorem memcpy_eq_memmove_iff (m : M) (dst src n : Nat) :
    (∀ x, get (memcpy m dst src n) x = get (memmove m dst src n) x) ↔
      ¬(src < dst ∧ dst < src + n) ∨ Repeats m src n (dst - src) := by
  constructor
  · intro hsame
    by_cases hover : src < dst ∧ dst < src + n
    · right
      obtain ⟨k, rfl⟩ : ∃ k, dst = src + k := ⟨dst - src, by omega⟩
      rw [Nat.add_sub_cancel_left]
      have hmod : ∀ i < n, get m (src + i) = get m (src + i % k) := by
        intro i hi
        have hx := hsame (src + k + i)
        rw [get_memcpy_over (by omega) n m src i hi, get_memmove, if_pos (by omega), Nat.add_sub_cancel_left] at hx
        exact hx.symm
      intro i hi
      rw [hmod (i + k) hi, hmod i (by omega), Nat.add_mod_right]
    · exact .inl hover
  · intro hok x
    rw [get_memmove]
    split
    next hin =>
      obtain ⟨i, rfl⟩ : ∃ i, x = dst + i := ⟨x - dst, by omega⟩
      rw [Nat.add_sub_cancel_left]
      by_cases hover : src < dst ∧ dst < src + n
      · obtain ⟨k, rfl⟩ : ∃ k, dst = src + k := ⟨dst - src, by omega⟩
        have hrep := hok.resolve_left (not_not.mpr hover)
        rw [Nat.add_sub_cancel_left] at hrep
        rw [get_memcpy_over (by omega) n m src i (by omega), hrep.mod i (by omega)]
      · exact get_memcpy_in n m dst src (by omega) i (by omega)
    next hout => exact get_memcpy_out n m dst src x (by omega)

/-- **`memmove` moves under any overlap**, and the plain loop of `memcpy` does the same exactly where the destination does
    not begin inside the source or the source repeats with their distance. -/
theorem memmove_any_overlap (m : M) (dst src n : Nat) :
    (∀ x, get (memmove m dst src n) x = if dst ≤ x ∧ x < dst + n then get m (src + (x - dst)) else get m x) ∧
      ((∀ x, get (memcpy m dst src n) x = get (memmove m dst src n) x) ↔
        ¬(src < dst ∧ dst < src + n) ∨ Repeats m src n (dst - src)) :=
  ⟨get_memmove m dst src n, memcpy_eq_memmove_iff m dst src n⟩

end MyUnix.Kernel
