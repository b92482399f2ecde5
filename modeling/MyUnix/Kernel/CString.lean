import MyUnix.Kernel.CMem

/-!
# `Kernel.CString` — the string functions of the kernel

A C string is the bytes up to the first zero. `strlen`, `strcmp`, `strncmp` and `strstr` of `main.c` walk along it; where
nothing bounds a walk, the fuel is a bound on its steps, and `none` a walk that takes more.

Nothing is assumed about what lies behind a string: the walks read up to the zero and no further, which is why the
lemmas ask for `HasStr` and not for a memory that ends. Characters are unsigned in every comparison, as the casts of
the source make them.
-/

namespace MyUnix.Kernel

open Lib Lib.ByteStore

variable {M : Type} [ByteStore M]

/-- `strlen`, in as many rounds as there is fuel. -/
def strlen (m : M) : Nat → Nat → Option Nat
  | 0, _ => none
  | fuel + 1, s => if get m s ≠ 0 then (strlen m fuel (s + 1)).map (· + 1) else some 0

/-- The difference of the first two characters that differ, as unsigned ones. -/
def charDiff (m : M) (a b : Nat) : Int := (get m a).toNat - (get m b).toNat

/-- `strcmp`. -/
def strcmp (m : M) : Nat → Nat → Nat → Option Int
  | 0, _, _ => none
  | fuel + 1, a, b => if get m a ≠ 0 ∧ get m a = get m b then strcmp m fuel (a + 1) (b + 1) else some (charDiff m a b)

/-- `n` has become `(size_t)-1` exactly when the loop has run out of it. -/
def strncmp (m : M) (a b : Nat) : Nat → Int
  | 0 => 0
  | n + 1 => if get m a ≠ 0 ∧ get m a = get m b then strncmp m (a + 1) (b + 1) n else charDiff m a b

/-- The loop of `strstr` over the haystack. -/
def strstrFrom (m : M) (needle nlen : Nat) : Nat → Nat → Option (Option Nat)
  | 0, _ => none
  | fuel + 1, haystack =>
    if get m haystack ≠ 0 then
      if strncmp m haystack needle nlen = 0 then some (some haystack) else strstrFrom m needle nlen fuel (haystack + 1)
    else some none

/-- `strstr`: none where the text does not occur. -/
def strstr (m : M) (fuel haystack needle : Nat) : Option (Option Nat) := do
  let nlen ← strlen m fuel needle
  if nlen = 0 then some (some haystack) else strstrFrom m needle nlen fuel haystack

/-! ## Strings in memory

`HasStr m s bs` says that the bytes `bs`, none of them zero, stand at `s` with a zero behind them.
-/

/-- The string `bs` stands at `s`. -/
def HasStr (m : M) : Nat → List UInt8 → Prop
  | s, [] => get m s = 0
  | s, b :: bs => get m s = b ∧ b ≠ 0 ∧ HasStr m (s + 1) bs

variable {m : M} {a b s h : Nat} {as bs hs ns : List UInt8} {fuel : Nat}

theorem strlen_eq : ∀ {bs : List UInt8} {s fuel : Nat}, HasStr m s bs → bs.length < fuel →
    strlen m fuel s = some bs.length
  | [], s, fuel + 1, h, _ => by
    rw [strlen, if_neg (not_not.mpr (show get m s = 0 from h))]
    rfl
  | b :: bs, s, fuel + 1, h, hfuel => by
    rw [strlen, if_pos (by rw [h.1]; exact h.2.1), strlen_eq h.2.2 (Nat.lt_of_succ_lt_succ hfuel)]
    rfl

/-! ## Order

The three comparisons stop at the first difference, at the end of a string, or at the bound. `Starts` is what they
look at in each round, the first character or the end, and `Compares` what their sign means. The induction of each is
on the strings and not on addresses.
-/

/-- The sign of a comparison is the lexicographic order of the two. -/
structure Compares (r : Int) (as bs : List UInt8) : Prop where
  zero : r = 0 ↔ as = bs
  neg  : r < 0 ↔ as < bs

theorem Compares.cons {r : Int} {x : UInt8} (h : Compares r as bs) : Compares r (x :: as) (x :: bs) where
  zero := by
    rw [h.zero, List.cons.injEq]
    exact ⟨fun he => ⟨rfl, he⟩, fun he => he.2⟩
  neg := by
    rw [h.neg, List.cons_lt_cons_iff]
    refine ⟨fun hlt => .inr ⟨rfl, hlt⟩, fun hlt => ?_⟩
    rcases hlt with hlt | ⟨-, hlt⟩
    · exact absurd hlt (UInt8.lt_irrefl x)
    · exact hlt

/-- Where the heads differ, they decide. -/
theorem Compares.heads {x y : UInt8} (hne : x ≠ y) : Compares ((x.toNat : Int) - y.toNat) (x :: as) (y :: bs) where
  zero := by
    rw [List.cons.injEq]
    constructor
    · intro h0
      exact absurd (UInt8.toNat_inj.mp (by omega)) hne
    · exact fun he => absurd he.1 hne
  neg := by
    rw [List.cons_lt_cons_iff, UInt8.lt_iff_toNat_lt]
    constructor
    · exact fun h => .inl (by omega)
    · rintro (hlt | ⟨he, -⟩)
      · omega
      · exact absurd he hne

theorem Compares.nil_cons {y : UInt8} (hy : y ≠ 0) : Compares (0 - (y.toNat : Int)) [] (y :: bs) where
  zero := by
    have hpos : y.toNat ≠ 0 := fun h0 => hy (UInt8.toNat_inj.mp h0)
    refine ⟨fun h0 => absurd h0 (by omega), fun he => ?_⟩
    cases he
  neg := by
    have hpos : y.toNat ≠ 0 := fun h0 => hy (UInt8.toNat_inj.mp h0)
    exact ⟨fun _ => List.nil_lt_cons y bs, fun _ => by omega⟩

theorem Compares.cons_nil {x : UInt8} (hx : x ≠ 0) : Compares ((x.toNat : Int) - 0) (x :: as) [] where
  zero := by
    have hpos : x.toNat ≠ 0 := fun h0 => hx (UInt8.toNat_inj.mp h0)
    refine ⟨fun h0 => absurd h0 (by omega), fun he => ?_⟩
    cases he
  neg := by
    refine ⟨fun hlt => absurd hlt (by omega), fun hlt => absurd hlt (List.not_lt_nil _)⟩

/-- The first character, or the end, is at `s`. -/
def Starts (m : M) (s : Nat) : List UInt8 → Prop
  | [] => get m s = 0
  | b :: _ => get m s = b ∧ b ≠ 0

theorem HasStr.starts (h : HasStr m s bs) : Starts m s bs := by
  cases bs with
  | nil => exact h
  | cons b bs => exact ⟨h.1, h.2.1⟩

theorem Starts.take {n : Nat} (h : Starts m s bs) : Starts m s (bs.take (n + 1)) := by
  cases bs with
  | nil => exact h
  | cons b bs => exact h

/-- Where a comparison stops, the characters there decide. -/
theorem charDiff_stop (ha : Starts m a as) (hb : Starts m b bs) (hstop : ¬(get m a ≠ 0 ∧ get m a = get m b)) :
    Compares (charDiff m a b) as bs := by
  rw [charDiff]
  cases as with
  | nil =>
    rw [show get m a = 0 from ha]
    cases bs with
    | nil =>
      rw [show get m b = 0 from hb]
      exact ⟨iff_of_true rfl rfl, iff_of_false (by decide) (List.not_lt_nil _)⟩
    | cons y bs =>
      rw [hb.1]
      exact .nil_cons hb.2
  | cons x as =>
    rw [ha.1] at hstop ⊢
    cases bs with
    | nil =>
      rw [show get m b = 0 from hb]
      exact .cons_nil ha.2
    | cons y bs =>
      rw [hb.1] at hstop ⊢
      exact .heads fun he => hstop ⟨ha.2, he⟩

/-- Where it goes on. -/
theorem heads_go (ha : HasStr m a as) (hb : HasStr m b bs) (hgo : get m a ≠ 0 ∧ get m a = get m b) :
    ∃ x as' bs', as = x :: as' ∧ bs = x :: bs' ∧ HasStr m (a + 1) as' ∧ HasStr m (b + 1) bs' := by
  cases as with
  | nil => exact absurd ha hgo.1
  | cons x as =>
    cases bs with
    | nil => exact absurd (hgo.2.trans hb) hgo.1
    | cons y bs =>
      obtain rfl : x = y := ha.1.symm.trans (hgo.2.trans hb.1)
      exact ⟨x, as, bs, rfl, rfl, ha.2.2, hb.2.2⟩

theorem strcmp_compares : ∀ {fuel a b : Nat} {as bs : List UInt8}, HasStr m a as → HasStr m b bs → as.length < fuel →
    ∃ r, strcmp m fuel a b = some r ∧ Compares r as bs
  | fuel + 1, a, b, as, bs, ha, hb, hfuel => by
    rw [strcmp]
    split
    next hgo =>
      obtain ⟨x, as', bs', rfl, rfl, ha', hb'⟩ := heads_go ha hb hgo
      obtain ⟨r, hr, hcmp⟩ := strcmp_compares ha' hb' (Nat.lt_of_succ_lt_succ hfuel)
      exact ⟨r, hr, hcmp.cons⟩
    next hstop => exact ⟨_, rfl, charDiff_stop ha.starts hb.starts hstop⟩

/-- Characters behind those that are compared do not count. -/
theorem Compares.take {r : Int} {n : Nat} {x : UInt8} (h : Compares r (as.take n) (bs.take n)) :
    Compares r ((x :: as).take (n + 1)) ((x :: bs).take (n + 1)) := h.cons

theorem strncmp_compares : ∀ {n a b : Nat} {as bs : List UInt8}, HasStr m a as → HasStr m b bs →
    Compares (strncmp m a b n) (as.take n) (bs.take n)
  | 0, a, b, as, bs, _, _ => by
    rw [strncmp, List.take_zero, List.take_zero]
    exact ⟨iff_of_true rfl rfl, iff_of_false (by decide) (List.not_lt_nil _)⟩
  | n + 1, a, b, as, bs, ha, hb => by
    rw [strncmp]
    split
    next hgo =>
      obtain ⟨x, as', bs', rfl, rfl, ha', hb'⟩ := heads_go ha hb hgo
      exact (strncmp_compares ha' hb').take
    next hstop => exact charDiff_stop ha.starts.take hb.starts.take hstop

theorem memcmp_compares : ∀ {n a b : Nat}, Compares (memcmp m a b n) (bytes m a n) (bytes m b n)
  | 0, a, b => ⟨iff_of_true rfl rfl, iff_of_false (by rw [memcmp]; decide) (List.not_lt_nil _)⟩
  | n + 1, a, b => by
    rw [memcmp, bytes_succ, bytes_succ]
    split
    next hne => exact .heads hne
    next he =>
      rw [not_not.mp he]
      exact memcmp_compares.cons

/-- **The comparisons are the lexicographic order.** On any two strings in memory, `strcmp`, `strncmp` and `memcmp` have
    the sign of the order of their unsigned characters; `strncmp` compares no more than `n` of them. -/
theorem comparisons_lexicographic (m : M) (a b : Nat) (as bs : List UInt8) (ha : HasStr m a as) (hb : HasStr m b bs)
    (n fuel : Nat) (hfuel : as.length < fuel) :
    (∃ r, strcmp m fuel a b = some r ∧ Compares r as bs) ∧ Compares (strncmp m a b n) (as.take n) (bs.take n) ∧
      Compares (memcmp m a b n) (bytes m a n) (bytes m b n) :=
  ⟨strcmp_compares ha hb hfuel, strncmp_compares ha hb, memcmp_compares⟩

/-- A memory with two strings. -/
def twoNames : ByteMem := fun x => [104, 105, 0, 104, 111, 33, 0].getD x 0

/-- The shorter string of the two comes first. -/
theorem comparisons_lexicographic_names :
    HasStr twoNames 0 [104, 105] ∧ HasStr twoNames 3 [104, 111, 33] ∧
      (∃ r, strcmp twoNames 3 0 3 = some r ∧ Compares r [104, 105] [104, 111, 33]) ∧ strncmp twoNames 0 3 1 = 0 := by
  have ha : HasStr twoNames 0 [104, 105] := ⟨rfl, by decide, rfl, by decide, rfl⟩
  have hb : HasStr twoNames 3 [104, 111, 33] := ⟨rfl, by decide, rfl, by decide, rfl, by decide, rfl⟩
  obtain ⟨hcmp, hncmp, -⟩ := comparisons_lexicographic twoNames 0 3 _ _ ha hb 1 3 (by decide)
  exact ⟨ha, hb, hcmp, hncmp.zero.mpr rfl⟩

/-! ## Search

`strstr` tries a comparison at every place. Since `strncmp` with the length of the needle is zero exactly on a prefix,
the first place that answers is the first occurrence; a partial match does not move the search.
-/

/-- A string compares equal with the first characters of another exactly when it is a prefix of it. -/
theorem strncmp_zero_iff (hh : HasStr m h hs) (hn : HasStr m s ns) : strncmp m h s ns.length = 0 ↔ ns <+: hs := by
  rw [(strncmp_compares hh hn).zero, List.take_length, List.prefix_iff_eq_take]
  exact eq_comm

/-- What a search for `ns` in `hs` is to find: the first place where it stands. -/
def FirstMatch (ns hs : List UInt8) (i : Nat) : Prop := ns <+: hs.drop i ∧ ∀ j < i, ¬ ns <+: hs.drop j

/-- The result of a search from `h`: the first match, or `NULL` where there is none. -/
def Finds (ns hs : List UInt8) (h : Nat) (r : Option Nat) : Prop :=
  (∃ i, r = some (h + i) ∧ i ≤ hs.length ∧ FirstMatch ns hs i) ∨ (r = none ∧ ¬ ns <:+: hs)

theorem strstrFrom_finds (hn : HasStr m s ns) (hne : ns ≠ []) : ∀ {hs : List UInt8} {fuel h : Nat}, HasStr m h hs →
    hs.length < fuel → ∃ r, strstrFrom m s ns.length fuel h = some r ∧ Finds ns hs h r
  | [], fuel + 1, h, hh, _ => by
    rw [strstrFrom, if_neg (not_not.mpr (show get m h = 0 from hh))]
    refine ⟨none, rfl, .inr ⟨rfl, fun hin => hne (List.infix_nil.mp hin)⟩⟩
  | x :: hs, fuel + 1, h, hh, hfuel => by
    rw [strstrFrom, if_pos (by rw [hh.1]; exact hh.2.1)]
    by_cases hpre : ns <+: x :: hs
    · rw [if_pos ((strncmp_zero_iff hh hn).mpr hpre)]
      exact ⟨some h, rfl, .inl ⟨0, rfl, Nat.zero_le _, hpre, fun j hj => absurd hj (Nat.not_lt_zero j)⟩⟩
    · -- no match here: what is found behind is first in the whole string
      rw [if_neg fun h0 => hpre ((strncmp_zero_iff hh hn).mp h0)]
      obtain ⟨r, hr, hfinds⟩ := strstrFrom_finds hn hne hh.2.2 (Nat.lt_of_succ_lt_succ hfuel)
      refine ⟨r, hr, ?_⟩
      rcases hfinds with ⟨i, rfl, hi, hmatch, hfirst⟩ | ⟨rfl, hnone⟩
      · refine .inl ⟨i + 1, congrArg some (by omega), Nat.succ_le_succ hi, hmatch, fun j hj => ?_⟩
        cases j with
        | zero => exact hpre
        | succ j => exact hfirst j (Nat.lt_of_succ_lt_succ hj)
      · refine .inr ⟨rfl, fun hin => ?_⟩
        rcases List.infix_cons_iff.mp hin with hp | hin
        · exact hpre hp
        · exact hnone hin

/-- **`strstr` finds the first occurrence**, and `NULL` exactly where there is none. -/
theorem strstr_finds (m : M) (h s : Nat) (hs ns : List UInt8) (hh : HasStr m h hs) (hn : HasStr m s ns) (fuel : Nat)
    (hfuel : hs.length < fuel ∧ ns.length < fuel) : ∃ r, strstr m fuel h s = some r ∧ Finds ns hs h r := by
  rw [strstr, strlen_eq hn hfuel.2]
  simp only [Option.bind_eq_bind, Option.bind_some]
  -- the empty needle is found at once, before the loop
  by_cases hnil : ns = []
  · subst hnil
    exact ⟨some h, rfl, .inl ⟨0, rfl, Nat.zero_le _, List.nil_prefix, fun j hj => absurd hj (Nat.not_lt_zero j)⟩⟩
  · rw [if_neg fun h0 => hnil (List.length_eq_zero_iff.mp h0)]
    exact strstrFrom_finds hn hnil hh hfuel.1

/-- "aaab", and "aab" behind it. -/
def haystackNeedle : ByteMem := fun x => [97, 97, 97, 98, 0, 97, 97, 98, 0].getD x 0

/-- A search that has to go on behind a partial match. -/
theorem strstr_finds_again :
    ∃ r, strstr haystackNeedle 5 0 5 = some r ∧ Finds [97, 97, 98] [97, 97, 97, 98] 0 r := by
  have hh : HasStr haystackNeedle 0 [97, 97, 97, 98] := ⟨rfl, by decide, rfl, by decide, rfl, by decide, rfl, by decide, rfl⟩
  have hn : HasStr haystackNeedle 5 [97, 97, 98] := ⟨rfl, by decide, rfl, by decide, rfl, by decide, rfl⟩
  exact strstr_finds haystackNeedle 0 5 _ _ hh hn 5 (by decide)

end MyUnix.Kernel
