import Mathlib.Algebra.Group.Nat.Defs
import Mathlib.Data.List.Basic

/-!
# `Lib.Bytes` — byte memories and little-endian words

A memory is the byte at every address. Ranges are written and read as lists of bytes, machine words through their
little-endian encoding. Every lemma about a write says what is found inside the range it covers or that everything
outside is as before.

Everything above works with one of the two views of the same memory. The walks over page tables and the boot code read
and write words; the copy loops and the parsers read and write lists of bytes. The two meet in `word_setWord`, which
says that a word is read back as it was written, and in `word_write_out` and `word_setWord_out`, which say that a word
outside the range that was written is as it was. A proof about a store needs one of the two for each word it speaks
of, and no other fact about memory.

A memory is total and its addresses are unbounded. That an access may fault, or that an address wraps, is said where
the code that makes the access is modelled.
-/

namespace MyUnix.Lib

/-! ## Little-endian numbers

`leBytes n v` cuts a number into `n` bytes and `ofLe` puts them together again; what `v` has beyond `n` bytes is lost
(`ofLe_leBytes`). The bits of a word are tested with a mask of one bit, and a word is built from its bits
(`bitsBelow`), which is how a bitmap of frames becomes a list of words.
-/

/-- `n` bytes of `v`, the low one first. -/
def leBytes : Nat → Nat → List UInt8
  | 0, _ => []
  | n + 1, v => UInt8.ofNat v :: leBytes n (v / 256)

/-- The number these bytes stand for. -/
def ofLe (bs : List UInt8) : Nat := bs.foldr (fun b n => b.toNat + 256 * n) 0

@[simp] theorem length_leBytes (n v : Nat) : (leBytes n v).length = n := by
  induction n generalizing v with
  | zero => rfl
  | succ n ih => simp [leBytes, ih]

theorem ofLe_leBytes (n v : Nat) : ofLe (leBytes n v) = v % 256 ^ n := by
  induction n generalizing v with
  | zero => simp [leBytes, ofLe, Nat.mod_one]
  | succ n ih =>
    have hcons : ofLe (leBytes (n + 1) v) = v % 256 + 256 * ofLe (leBytes n (v / 256)) := rfl
    rw [hcons, ih, Nat.pow_succ, Nat.mul_comm (256 ^ n), Nat.mod_mul]

theorem leBytes_add (n k v : Nat) : leBytes (n + k) v = leBytes n v ++ leBytes k (v / 256 ^ n) := by
  induction n generalizing v with
  | zero => simp [leBytes]
  | succ n ih =>
    rw [Nat.add_right_comm, leBytes, leBytes, ih, List.cons_append, Nat.div_div_eq_div_mul, Nat.pow_succ,
      Nat.mul_comm (256 ^ n)]

theorem leBytes_zero (n : Nat) : leBytes n 0 = List.replicate n 0 := by
  induction n with
  | zero => rfl
  | succ n ih => rw [leBytes, Nat.zero_div, ih, List.replicate_succ]; rfl

theorem ofLe_lt (bs : List UInt8) : ofLe bs < 256 ^ bs.length := by
  induction bs with
  | nil => decide
  | cons x bs ih =>
    have hcons : ofLe (x :: bs) = x.toNat + 256 * ofLe bs := rfl
    have hx := x.toNat_lt
    rw [hcons, List.length_cons, Nat.pow_succ]
    omega

theorem leBytes_ofLe (bs : List UInt8) : leBytes bs.length (ofLe bs) = bs := by
  induction bs with
  | nil => rfl
  | cons x bs ih =>
    have hcons : ofLe (x :: bs) = x.toNat + 256 * ofLe bs := rfl
    have hx := x.toNat_lt
    have hlow : UInt8.ofNat (x.toNat + 256 * ofLe bs) = x := by
      apply UInt8.toNat.inj
      rw [UInt8.toNat_ofNat']
      omega
    rw [hcons, List.length_cons, leBytes, hlow, show (x.toNat + 256 * ofLe bs) / 256 = ofLe bs by omega, ih]

theorem getElem?_leBytes {n i : Nat} (v : Nat) (hi : i < n) : (leBytes n v)[i]? = some (UInt8.ofNat (v / 256 ^ i)) := by
  induction n generalizing v i with
  | zero => exact absurd hi (Nat.not_lt_zero i)
  | succ n ih =>
    cases i with
    | zero => simp [leBytes]
    | succ i => rw [leBytes, List.getElem?_cons_succ, ih _ (Nat.lt_of_succ_lt_succ hi), Nat.div_div_eq_div_mul, Nat.pow_succ']

theorem ofLe_replicate_zero (n : Nat) : ofLe (List.replicate n 0) = 0 := by
  induction n with
  | zero => rfl
  | succ n ih =>
    have hcons : ofLe (List.replicate (n + 1) 0) = 0 + 256 * ofLe (List.replicate n 0) := rfl
    rw [hcons, ih]

/-- Testing one bit with a mask. -/
theorem and_twoPow_bne_zero {w n : Nat} (x : BitVec w) (hn : n < w) :
    ((x &&& BitVec.twoPow w n) != 0#w) = x.getLsbD n := by
  rw [Bool.eq_iff_iff, bne_iff_ne, ne_eq]
  constructor
  · intro hne
    by_contra hbit
    rw [Bool.not_eq_true] at hbit
    apply hne
    apply BitVec.eq_of_getLsbD_eq
    intro i _
    by_cases hi : n = i
    · subst hi
      simp [hbit]
    · simp [hi]
  · intro hbit h0
    have hzero := congrArg (fun b => b.getLsbD n) h0
    simp only [BitVec.getLsbD_and, hbit, BitVec.getLsbD_twoPow, BitVec.getLsbD_zero] at hzero
    simp [hn] at hzero

/-- The number whose lowest `n` bits are those of `f`. -/
def bitsBelow {w : Nat} (f : Nat → Bool) : Nat → BitVec w
  | 0     => 0#w
  | n + 1 => if f n then bitsBelow f n ||| BitVec.twoPow w n else bitsBelow f n

theorem getLsbD_bitsBelow {w k : Nat} (f : Nat → Bool) (n : Nat) (hk : k < w) :
    (bitsBelow f n : BitVec w).getLsbD k = (decide (k < n) && f k) := by
  induction n with
  | zero => simp [bitsBelow]
  | succ n ih =>
    have hsplit : k < n + 1 ↔ k < n ∨ k = n := by omega
    rw [bitsBelow]
    by_cases hn : k = n
    · subst hn
      split <;> simp_all
    · split <;> simp [ih, hsplit, hn, Ne.symm hn]

/-! ## Memories

Reads and writes of whole lists. A list is written byte by byte or in two parts with the same outcome (`write_cons`,
`write_append`), so an induction over a copy loop may take off the first byte or the first chunk, whichever the source
does. `Holds` is the same said of what stands in a memory, without a write.
-/

/-- A memory: the byte at each address. -/
abbrev ByteMem := Nat → UInt8

namespace ByteMem

variable (m : ByteMem) {a b n : Nat} {bs : List UInt8}

/-- The bytes `bs` are written from `a` on. -/
def write (a : Nat) (bs : List UInt8) : ByteMem :=
  fun x => if a ≤ x then (bs[x - a]?).getD (m x) else m x

/-- The `n` bytes from `a` on. -/
def read (a n : Nat) : List UInt8 := (List.range n).map fun i => m (a + i)

/-- The word of eight bytes at `a`, the lowest byte first. -/
def word (a : Nat) : BitVec 64 := BitVec.ofNat 64 (ofLe (m.read a 8))

/-- The word at `a` becomes `v`. -/
def setWord (a : Nat) (v : BitVec 64) : ByteMem := m.write a (leBytes 8 v.toNat)

@[simp] theorem length_read : (m.read a n).length = n := by
  simp [read]

theorem getElem?_read (i : Nat) : (m.read a n)[i]? = if i < n then some (m (a + i)) else none := by
  simp only [read, List.getElem?_map]
  split
  next h => rw [List.getElem?_range h]; rfl
  next h => rw [List.getElem?_eq_none (by simpa using h)]; rfl

theorem write_in {i : Nat} (h : i < bs.length) : m.write a bs (a + i) = bs[i] := by
  simp [write, h]

theorem write_out {x : Nat} (h : x < a ∨ a + bs.length ≤ x) : m.write a bs x = m x := by
  rw [write]
  split
  next hle => rw [List.getElem?_eq_none (by omega), Option.getD_none]
  next => rfl

theorem read_congr {m m' : ByteMem} (h : ∀ i < n, m' (a + i) = m (a + i)) : m'.read a n = m.read a n := by
  apply List.map_congr_left
  intro i hi
  exact h i (List.mem_range.1 hi)

/-- A range apart from the one written reads as before. -/
theorem read_write_out (h : b + n ≤ a ∨ a + bs.length ≤ b) : (m.write a bs).read b n = m.read b n :=
  read_congr fun i hi => m.write_out (by omega)

theorem read_write : (m.write a bs).read a bs.length = bs := by
  apply List.ext_getElem? fun i => ?_
  rw [getElem?_read]
  split
  next h => rw [m.write_in h, List.getElem?_eq_getElem h]
  next h => rw [List.getElem?_eq_none (by omega)]

theorem read_add (k : Nat) : m.read a (n + k) = m.read a n ++ m.read (a + n) k := by
  simp only [read, List.range_add, List.map_append, List.map_map]
  congr 1
  apply List.map_congr_left
  intro i _
  simp [Nat.add_assoc]

/-- These bytes stand at `a`. -/
def Holds (a : Nat) (bs : List UInt8) : Prop := m.read a bs.length = bs

variable {m}

theorem holds_append {cs : List UInt8} : m.Holds a (bs ++ cs) ↔ m.Holds a bs ∧ m.Holds (a + bs.length) cs := by
  rw [Holds, List.length_append, read_add]
  constructor
  · intro h
    exact List.append_inj h (by simp)
  · rintro ⟨hbs, hcs⟩
    rw [hbs, hcs]

theorem holds_cons {x : UInt8} : m.Holds a (x :: bs) ↔ m a = x ∧ m.Holds (a + 1) bs := by
  rw [← List.singleton_append, holds_append]
  simp [Holds, read]

/-- Byte after byte. -/
theorem write_cons (m : ByteMem) (a : Nat) (x : UInt8) (bs : List UInt8) :
    (m.write a [x]).write (a + 1) bs = m.write a (x :: bs) := by
  funext y
  rcases Nat.lt_trichotomy y a with hy | hy | hy
  · rw [write_out _ (.inl (by omega)), write_out _ (.inl hy), write_out _ (.inl hy)]
  · subst hy
    rw [write_out _ (.inl (by omega))]
    simp [write]
  · obtain ⟨k, rfl⟩ := Nat.exists_eq_add_of_lt hy
    have hle : ¬a + k + 1 ≤ a := by omega
    have hsub : a + k + 1 - a = k + 1 := by omega
    have hsub' : a + k + 1 - (a + 1) = k := by omega
    simp [write, hsub, hsub']
    intro hlt
    omega

theorem write_nil (m : ByteMem) (a : Nat) : m.write a [] = m := by
  funext y
  simp [write]

theorem write_append (m : ByteMem) (a : Nat) (bs : List UInt8) :
    ∀ cs, (m.write a bs).write (a + bs.length) cs = m.write a (bs ++ cs) := by
  induction bs generalizing m a with
  | nil =>
    intro cs
    rw [write_nil, List.nil_append, List.length_nil, Nat.add_zero]
  | cons x bs ih =>
    intro cs
    rw [List.cons_append, ← write_cons m a x bs, ← write_cons m a x (bs ++ cs), List.length_cons, ← ih]
    congr 1
    omega

variable (m)

/-- Equal bytes make equal words, at whatever addresses. -/
theorem word_eq_word {m m' : ByteMem} (h : ∀ i < 8, m' (b + i) = m (a + i)) : m'.word b = m.word a := by
  have hread : m'.read b 8 = m.read a 8 := List.map_congr_left fun i hi => h i (List.mem_range.1 hi)
  rw [word, hread, word]

theorem word_write_out (h : b + 8 ≤ a ∨ a + bs.length ≤ b) : (m.write a bs).word b = m.word b := by
  rw [word, word, m.read_write_out h]

theorem word_setWord (v : BitVec 64) : (m.setWord a v).word a = v := by
  have hread : (m.setWord a v).read a 8 = leBytes 8 v.toNat := by
    have := @read_write m a (leBytes 8 v.toNat)
    rwa [length_leBytes] at this
  rw [word, hread, ofLe_leBytes]
  apply BitVec.eq_of_toNat_eq
  have hlt : v.toNat < 256 ^ 8 := v.isLt
  rw [Nat.mod_eq_of_lt hlt, BitVec.toNat_ofNat, Nat.mod_eq_of_lt v.isLt]

theorem word_setWord_out (v : BitVec 64) (h : b + 8 ≤ a ∨ a + 8 ≤ b) : (m.setWord a v).word b = m.word b :=
  m.word_write_out (by simpa using h)

theorem setWord_out {x : Nat} (v : BitVec 64) (h : x < a ∨ a + 8 ≤ x) : m.setWord a v x = m x :=
  m.write_out (by simpa using h)

/-- A word has the bytes that it was read from. -/
theorem byte_word {i : Nat} (hi : i < 8) : UInt8.ofNat ((m.word a).toNat / 256 ^ i) = m (a + i) := by
  have hlt : ofLe (m.read a 8) < 2 ^ 64 := by
    have := ofLe_lt (m.read a 8)
    rwa [length_read] at this
  have hbytes := leBytes_ofLe (m.read a 8)
  rw [length_read] at hbytes
  have hget := getElem?_leBytes (ofLe (m.read a 8)) hi
  rw [hbytes, getElem?_read, if_pos hi] at hget
  rw [word, BitVec.toNat_ofNat, Nat.mod_eq_of_lt hlt]
  exact (Option.some.inj hget).symm

/-- Zeroes read as the word zero. -/
theorem word_zero (h : ∀ i < 8, m (a + i) = 0) : m.word a = 0#64 := by
  have hread : m.read a 8 = List.replicate 8 0 := by
    apply List.ext_getElem? fun i => ?_
    rw [getElem?_read, List.getElem?_replicate]
    split
    next hi => rw [h i hi]
    next => rfl
  rw [word, hread, ofLe_replicate_zero]

end ByteMem

end MyUnix.Lib
