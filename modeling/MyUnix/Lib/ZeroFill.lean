import Mathlib.Algebra.Group.Nat.Defs
import Mathlib.Data.List.GetD

/-!
# `Lib.ZeroFill` — byte sequences that grow with zeros

The contents of a file as a plain list: a write past the end and a truncation to a larger length fill the gap with
zeros. An implementation keeps a longer buffer and a length in it, and what it shows is a prefix of that buffer. A
buffer that is filled up only behind its own end shows the right bytes after it has grown when what lies between the
old and the new length is zero (`ZeroBetween`), and only then.

The specification and the implementation differ in what a file has behind its end. For the first there is nothing, and
growing makes zeros; for the second there is whatever the buffer still holds, from an earlier, longer file. The lemmas
below say exactly when the difference cannot be seen.
-/

namespace MyUnix.Lib

/-- The bytes of `f`, with zeros behind them up to length `n`. -/
def padTo (f : List UInt8) (n : Nat) : List UInt8 := f ++ List.replicate (n - f.length) 0

/-- The bytes of `f` with those from `off` on replaced. -/
def splice (f : List UInt8) (off : Nat) (bs : List UInt8) : List UInt8 :=
  f.take off ++ (bs ++ f.drop (off + bs.length))

/-- A write to a sequence that grows with zeros. -/
def writeFill (f : List UInt8) (off : Nat) (bs : List UInt8) : List UInt8 :=
  splice (padTo f (off + bs.length)) off bs

/-- A truncation of one. -/
def truncateFill (f : List UInt8) (n : Nat) : List UInt8 := (padTo f n).take n

/-- The buffer `b` holds zeros at `i`, `a ≤ i < c`, as far as it reaches. -/
def ZeroBetween (b : List UInt8) (a c : Nat) : Prop := ∀ i, a ≤ i → i < c → b.getD i 0 = 0

instance (b : List UInt8) (a c : Nat) : Decidable (ZeroBetween b a c) :=
  decidable_of_iff (∀ i < c, a ≤ i → b.getD i 0 = 0) ⟨fun h i ha hc => h i hc ha, fun h i hc ha => h i ha hc⟩

variable {f g b : List UInt8} {bs : List UInt8} {off n c e k : Nat}

@[simp] theorem length_padTo (f : List UInt8) (n : Nat) : (padTo f n).length = max f.length n := by
  simp only [padTo, List.length_append, List.length_replicate]
  omega

@[simp] theorem getD_padTo (f : List UInt8) (n i : Nat) : (padTo f n).getD i 0 = f.getD i 0 := by
  rw [padTo]
  rcases Nat.lt_or_ge i f.length with hi | hi
  · rw [List.getD_append f _ 0 i hi]
  · rw [List.getD_append_right f _ 0 i hi, List.getD_eq_default f 0 hi,
      List.getD_eq_getElem?_getD, List.getElem?_getD_replicate_default_eq]

theorem length_splice (h : off + bs.length ≤ f.length) : (splice f off bs).length = f.length := by
  simp only [splice, List.length_append, List.length_take, List.length_drop]
  omega

/-- Lists of one length are equal when they have the same byte at each place. -/
theorem eq_of_getD (hlen : f.length = g.length) (h : ∀ i < f.length, f.getD i 0 = g.getD i 0) : f = g := by
  apply List.ext_getElem hlen
  intro i hf hg
  have hi := h i hf
  rwa [List.getD_eq_getElem f 0 hf, List.getD_eq_getElem g 0 hg] at hi

theorem getD_take (f : List UInt8) (n i : Nat) : (f.take n).getD i 0 = if i < n then f.getD i 0 else 0 := by
  rw [List.getD_eq_getElem?_getD, List.getElem?_take]
  split
  · rw [List.getD_eq_getElem?_getD]
  · rfl

theorem getD_splice (h : off + bs.length ≤ f.length) (i : Nat) :
    (splice f off bs).getD i 0 =
      if off ≤ i ∧ i < off + bs.length then bs.getD (i - off) 0 else f.getD i 0 := by
  have htake : (f.take off).length = off := by
    rw [List.length_take]
    omega
  rw [splice]
  rcases Nat.lt_or_ge i off with hi | hi
  · rw [List.getD_append _ _ 0 i (by omega), getD_take, if_pos hi, if_neg (by omega)]
  · rw [List.getD_append_right _ _ 0 i (by omega), htake]
    rcases Nat.lt_or_ge i (off + bs.length) with hb | hb
    · rw [List.getD_append _ _ 0 _ (by omega), if_pos ⟨hi, hb⟩]
    · have hat : off + bs.length + (i - off - bs.length) = i := by
        omega
      rw [List.getD_append_right _ _ 0 _ (by omega), if_neg (by omega), List.getD_eq_getElem?_getD,
        List.getElem?_drop, hat, ← List.getD_eq_getElem?_getD]

/-- A prefix of a written buffer that has the written range in it is the prefix, written. -/
theorem take_splice (h : off + bs.length ≤ n) (hn : n ≤ f.length) :
    (splice f off bs).take n = splice (f.take n) off bs := by
  have htake : (f.take n).length = n := by
    rw [List.length_take]
    omega
  apply eq_of_getD
  · rw [length_splice (by omega), List.length_take, length_splice (by omega), htake]
    omega
  · intro i hi
    rw [List.length_take, length_splice (by omega)] at hi
    have hin : i < n := by
      omega
    rw [getD_take, if_pos hin, getD_splice (by omega), getD_splice (by omega), getD_take, if_pos hin]

/-- Two sequences are the same once a range is written when they are the same outside it. -/
theorem splice_inj_iff (hlen : f.length = g.length) (h : off + bs.length ≤ f.length) :
    splice f off bs = splice g off bs ↔
      ∀ i < f.length, i < off ∨ off + bs.length ≤ i → f.getD i 0 = g.getD i 0 := by
  constructor
  · intro heq i _ hout
    have hi : (splice f off bs).getD i 0 = (splice g off bs).getD i 0 := by
      rw [heq]
    rwa [getD_splice h, getD_splice (hlen ▸ h), if_neg (by omega), if_neg (by omega)] at hi
  · intro hout
    apply eq_of_getD
    · rw [length_splice h, length_splice (hlen ▸ h), hlen]
    · intro i hi
      rw [length_splice h] at hi
      rw [getD_splice h, getD_splice (hlen ▸ h)]
      split
      · rfl
      · exact hout i hi (by omega)

/-! ## The prefix a longer buffer shows

Both operations that make a file longer are equivalences: they show the right bytes if and only if the buffer holds
zeros where it was not written. So the condition that a file system has to keep is no stronger than what is needed.
-/

/-- What the buffer shows when it has grown from `k` to `n` bytes is `k` bytes and zeros when it holds only zeros
    between the two, and only then. -/
theorem take_padTo_iff (hn : n ≤ max b.length c) :
    (padTo b c).take n = truncateFill (b.take k) n ↔ ZeroBetween b k n := by
  have hlen : ((padTo b c).take n).length = n := by
    rw [List.length_take, length_padTo]
    omega
  have hlen' : (truncateFill (b.take k) n).length = n := by
    rw [truncateFill, List.length_take, length_padTo]
    omega
  have hat : ∀ i < n, (truncateFill (b.take k) n).getD i 0 = if i < k then b.getD i 0 else 0 := by
    intro i hi
    rw [truncateFill, getD_take, if_pos hi, getD_padTo, getD_take]
  have hat' : ∀ i < n, ((padTo b c).take n).getD i 0 = b.getD i 0 := by
    intro i hi
    rw [getD_take, if_pos hi, getD_padTo]
  constructor
  · intro heq i hki hin
    rw [← hat' i hin, heq, hat i hin, if_neg (by omega)]
  · intro hzero
    apply eq_of_getD (hlen.trans hlen'.symm)
    intro i hi
    rw [hlen] at hi
    rw [hat i hi, hat' i hi]
    split
    next => rfl
    next hge => exact hzero i (by omega) hi

/-- The same of a write: the bytes from `k` to the start of the range written count. -/
theorem take_splice_padTo_iff (hk : k ≤ b.length) (he : off + bs.length ≤ max b.length c) :
    (splice (padTo b c) off bs).take (max k (off + bs.length)) = writeFill (b.take k) off bs ↔
      ZeroBetween b k off := by
  have hpad : (padTo b c).length = max b.length c := length_padTo b c
  have hkeep : (b.take k).length = k := by
    rw [List.length_take]
    omega
  have hgrown : ((padTo b c).take (max k (off + bs.length))).length = max k (off + bs.length) := by
    rw [List.length_take]
    omega
  have hfill : (padTo (b.take k) (off + bs.length)).length = max k (off + bs.length) := by
    rw [length_padTo, hkeep]
  rw [take_splice (by omega) (by omega), writeFill, splice_inj_iff (hgrown.trans hfill.symm) (by omega), hgrown]
  constructor
  · intro hout i hki hio
    have hi := hout i (by omega) (.inl hio)
    rwa [getD_take, if_pos (by omega), getD_padTo, getD_padTo, getD_take, if_neg (by omega)] at hi
  · intro hzero i hi hout
    rw [getD_take, if_pos hi, getD_padTo, getD_padTo, getD_take]
    split
    next => rfl
    next hge => exact hzero i (by omega) (by omega)

end MyUnix.Lib
