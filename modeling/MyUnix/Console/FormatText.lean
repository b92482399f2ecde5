import Mathlib.Tactic.SplitIfs
import MyUnix.Console.Vsnprintf

/-!
# `Console.FormatText` — the text a format stands for, and what `vsnprintf` makes of it

A complete format is a list of pieces, literal characters and conversions, and its `text` is theirs one after the other.
`Holds size o t` says that the buffer has the part of `t` that it has room for; every `PUT` keeps it with one more
character of `t`, whether there is room or not, so that no place where the text is cut needs a case of its own.

The loop takes a literal character only when there is room for it. It gets through the format if and only if the format
is complete and no literal character is met behind the last but one place of the buffer.

The text is what `printf` is specified to print for the conversions that the kernel knows, without any buffer. The two
results are about a buffer of any size: what it holds in the end is the beginning of the text, and the loop ends if
and only if it does not get stuck on a literal character or run past the NUL.

The relation between format and pieces (`Parses`) is unique, so it does not matter in which order the parser of the
source looks for flags, widths and lengths.
-/

namespace MyUnix.Console

open Arch

/-! ## The text

Pieces, and the text of each from its argument.
-/

/-- A piece of a format: a character that stands for itself, or a conversion. -/
inductive Piece
  | lit (c : UInt8)
  | conv (cv : Conversion)

/-- The format up to its NUL is these pieces; the conversion behind every `%` has its conversion character. -/
inductive Parses : List UInt8 → List Piece → Prop
  | nil : Parses [0] []
  | lit {c p ps} : c ≠ 0 → c ≠ '%'.toUInt8 → Parses p ps → Parses (c :: p) (.lit c :: ps)
  | conv {cv p q ps} : conversion p = some (cv, q) → cv.spec ≠ 0 → Parses q ps →
      Parses ('%'.toUInt8 :: p) (.conv cv :: ps)

/-- `s` in a field of the conversion's width. -/
def Conversion.field (cv : Conversion) (s : List UInt8) : List UInt8 :=
  let pad := padTurns cv.width s.length
  if cv.flags.leftAlign then s ++ List.replicate pad ' '.toUInt8
  else List.replicate pad (if cv.flags.zeroPad then '0'.toUInt8 else ' '.toUInt8) ++ s

section

variable (a : VaList)

/-- The text of a conversion, before a buffer cuts it off. -/
def Conversion.text (cv : Conversion) (arg : Nat) : List UInt8 :=
  match cv.sVal a (a.slot arg) with
  | some s => (if cv.spec = 'p'.toUInt8 then ['0'.toUInt8, 'x'.toUInt8] else []) ++ cv.field s
  | none   => if cv.spec = '%'.toUInt8 then ['%'.toUInt8] else ['%'.toUInt8, cv.spec]

/-- The argument for what follows the conversion. -/
def Conversion.nextArg (cv : Conversion) (arg : Nat) : Nat := if (cv.sVal a (a.slot arg)).isSome then arg + 1 else arg

/-- The text of the pieces, whose arguments begin with number `arg`. -/
def text : Nat → List Piece → List UInt8
  | _,   []             => []
  | arg, .lit c :: ps   => c :: text arg ps
  | arg, .conv cv :: ps => cv.text a arg ++ text (cv.nextArg a arg) ps

variable (size : Nat)

/-- Every literal character stands at a place of the text that, behind `n` characters, is in the buffer with one more
place behind it. -/
def FitsFrom (n arg : Nat) (ps : List Piece) : Prop :=
  ∀ before c after, ps = before ++ .lit c :: after → n + (text a arg before).length + 1 < size

/-- Every literal character stands at a place of the text that is in the buffer with one more place behind it. -/
def LiteralsFit (ps : List Piece) : Prop :=
  ∀ before c after, ps = before ++ .lit c :: after → (text a 0 before).length + 1 < size

end

variable {a : VaList} {size : Nat}

theorem literalsFit_iff {ps : List Piece} : LiteralsFit a size ps ↔ FitsFrom a size 0 0 ps := by
  constructor
  · intro h before c after hps
    rw [Nat.zero_add]
    exact h before c after hps
  · intro h before c after hps
    have := h before c after hps
    rwa [Nat.zero_add] at this

theorem fitsFrom_nil (n arg : Nat) : FitsFrom a size n arg [] := by
  intro before c after h
  cases before <;> cases h

theorem fitsFrom_lit {n arg : Nat} {c : UInt8} {ps : List Piece} :
    FitsFrom a size n arg (.lit c :: ps) ↔ n + 1 < size ∧ FitsFrom a size (n + 1) arg ps := by
  constructor
  · intro h
    refine ⟨h [] c ps rfl, fun before d after hps => ?_⟩
    have hcons := h (.lit c :: before) d after (by rw [hps, List.cons_append])
    rw [text, List.length_cons] at hcons
    omega
  · rintro ⟨hc, hps⟩ before d after h
    cases before with
    | nil => exact hc
    | cons piece before =>
        obtain ⟨rfl, htail⟩ := List.cons.inj h
        have hrest := hps before d after htail
        rw [text, List.length_cons]
        omega

theorem fitsFrom_conv {n arg : Nat} {cv : Conversion} {ps : List Piece} :
    FitsFrom a size n arg (.conv cv :: ps) ↔ FitsFrom a size (n + (cv.text a arg).length) (cv.nextArg a arg) ps := by
  constructor
  · intro h before d after hps
    have hcons := h (.conv cv :: before) d after (by rw [hps, List.cons_append])
    rw [text, List.length_append] at hcons
    omega
  · intro hps before d after h
    cases before with
    | nil => cases h
    | cons piece before =>
        obtain ⟨rfl, htail⟩ := List.cons.inj h
        have hrest := hps before d after htail
        rw [text, List.length_append]
        omega

/-! ## What the buffer has of the text

The invariant of all loops that put characters.
-/

/-- Behind the text `t`, the buffer of `size` bytes has what fits in it with a NUL behind. -/
structure Holds (size : Nat) (o : Out) (t : List UInt8) : Prop where
  pos    : o.pos = min t.length (size - 1)
  chars  : ∀ i < o.pos, t[i]? = some (o.buf i)
  stored : ∀ i ∈ o.stored, i < size

namespace Holds

variable {o : Out} {t : List UInt8}

/-- There is room for one more character exactly when the whole text has been stored and is short enough. -/
theorem room_iff (h : Holds size o t) : o.pos + 1 < size ↔ t.length + 1 < size := by
  have hpos := h.pos
  omega

theorem append (h : Holds size o t) (hroom : o.pos + 1 < size) (c : UInt8) : Holds size (o.append c) (t ++ [c]) := by
  have hroom' := h.room_iff.mp hroom
  have hpos : o.pos = t.length := by
    rw [h.pos]
    omega
  refine ⟨?_, ?_, ?_⟩
  · show o.pos + 1 = min (t ++ [c]).length (size - 1)
    rw [List.length_append, List.length_singleton, hpos]
    omega
  · intro i hi
    show (t ++ [c])[i]? = some (Function.update o.buf o.pos c i)
    rcases Nat.lt_succ_iff_lt_or_eq.mp hi with hlt | rfl
    · rw [List.getElem?_append_left (hpos ▸ hlt), Function.update_of_ne (Nat.ne_of_lt hlt)]
      exact h.chars i hlt
    · rw [Function.update_self, hpos]
      exact List.getElem?_concat_length
  · intro i hi
    rcases List.mem_cons.mp hi with rfl | hi
    · exact Nat.lt_of_succ_lt hroom
    · exact h.stored i hi

theorem put (h : Holds size o t) (c : UInt8) : Holds size (o.put size c) (t ++ [c]) := by
  rw [Out.put]
  by_cases hroom : o.pos + 1 < size
  · rw [if_pos hroom]
    exact h.append hroom c
  · -- the text is cut here or has been before
    have hpos := h.pos
    rw [if_neg hroom]
    refine ⟨?_, ?_, h.stored⟩
    · rw [List.length_append, List.length_singleton]
      omega
    · intro i hi
      rw [List.getElem?_append_left (by omega)]
      exact h.chars i hi

theorem puts (cs : List UInt8) : ∀ {o t}, Holds size o t → Holds size (o.puts size cs) (t ++ cs) := by
  induction cs with
  | nil =>
      intro o t h
      rw [List.append_nil]
      exact h
  | cons c cs ih =>
      intro o t h
      have htail := ih (h.put c)
      rw [List.append_assoc, List.singleton_append] at htail
      exact htail

theorem justify (h : Holds size o t) (cv : Conversion) (s : List UInt8) :
    Holds size (o.justify size cv s) (t ++ cv.field s) := by
  rw [Out.justify, Conversion.field]
  by_cases hleft : cv.flags.leftAlign = true
  · simp only [hleft, if_true]
    rw [← List.append_assoc]
    exact (h.puts s).puts _
  · simp only [hleft, if_false, Bool.false_eq_true]
    rw [← List.append_assoc]
    exact (h.puts _).puts s

/-- A conversion puts its text. -/
theorem convert (h : Holds size o t) (cv : Conversion) (arg : Nat) :
    Holds size (convert size a cv arg o).2 (t ++ cv.text a arg) := by
  rw [Console.convert, Conversion.text]
  cases cv.sVal a (a.slot arg) with
  | some s =>
      simp only
      rw [← List.append_assoc]
      refine justify ?_ cv s
      by_cases hp : cv.spec = 'p'.toUInt8
      · rw [if_pos hp, if_pos hp]
        exact h.puts ['0'.toUInt8, 'x'.toUInt8]
      · rw [if_neg hp, if_neg hp, List.append_nil]
        exact h
  | none =>
      simp only
      by_cases hpercent : cv.spec = '%'.toUInt8
      · rw [if_pos hpercent, if_pos hpercent]
        exact h.put _
      · rw [if_neg hpercent, if_neg hpercent]
        exact h.puts ['%'.toUInt8, cv.spec]

end Holds

theorem convert_arg (cv : Conversion) (arg : Nat) (o : Out) : (convert size a cv arg o).1 = cv.nextArg a arg := by
  rw [convert, Conversion.nextArg]
  cases cv.sVal a (a.slot arg) with
  | some s => rfl
  | none =>
      show (if cv.spec = '%'.toUInt8 then (arg, _) else (arg, _)).1 = arg
      split_ifs <;> rfl

/-! ## Reading the format

Each part of a conversion is read by a function of what is left of the format; none of them goes beyond the NUL except
the last.
-/

/-- What is left of a string: its characters and one NUL, at the end. -/
def Terminated (p : List UInt8) : Prop := ∃ s, 0 ∉ s ∧ p = s ++ [0]

theorem Terminated.cases {c : UInt8} {p : List UInt8} (h : Terminated (c :: p)) :
    (c = 0 ∧ p = []) ∨ (c ≠ 0 ∧ Terminated p) := by
  obtain ⟨s, hs, hp⟩ := h
  cases s with
  | nil =>
      obtain ⟨rfl, rfl⟩ := List.cons.inj hp
      exact .inl ⟨rfl, rfl⟩
  | cons d s =>
      obtain ⟨rfl, rfl⟩ := List.cons.inj hp
      rw [List.mem_cons, not_or] at hs
      exact .inr ⟨Ne.symm hs.1, s, hs.2, rfl⟩

theorem not_terminated_nil : ¬ Terminated [] := by
  rintro ⟨s, -, hs⟩
  exact List.append_ne_nil_of_right_ne_nil s (List.cons_ne_nil 0 []) hs.symm

/-- A step of the parsing finds what it looks for and does not get beyond the NUL. -/
def Stays {β : Type} (p : List UInt8) (r : Option (β × List UInt8)) : Prop :=
  ∃ x q, r = some (x, q) ∧ Terminated q ∧ q.length ≤ p.length

theorem Stays.cons {β : Type} {c : UInt8} {p : List UInt8} {r : Option (β × List UInt8)} (h : Stays p r) : Stays (c :: p) r := by
  obtain ⟨x, q, hr, hq, hlen⟩ := h
  exact ⟨x, q, hr, hq, Nat.le_succ_of_le hlen⟩

theorem flags_stays (p : List UInt8) : ∀ f, Terminated p → Stays p (flags f p) := by
  induction p with
  | nil => exact fun _ h => absurd h not_terminated_nil
  | cons c p ih =>
      intro f h
      rw [flags]
      by_cases hflag : isFlag c = true
      · rcases h.cases with ⟨rfl, -⟩ | ⟨-, h'⟩
        · exact absurd hflag (by decide)
        · rw [if_pos hflag]
          exact (ih _ h').cons
      · rw [if_neg hflag]
        exact ⟨f, c :: p, rfl, h, Nat.le_refl _⟩

theorem width_stays (p : List UInt8) : ∀ w, Terminated p → Stays p (width w p) := by
  induction p with
  | nil => exact fun _ h => absurd h not_terminated_nil
  | cons c p ih =>
      intro w h
      rw [width]
      by_cases hdigit : '0'.toUInt8 ≤ c ∧ c ≤ '9'.toUInt8
      · rcases h.cases with ⟨rfl, -⟩ | ⟨-, h'⟩
        · exact absurd hdigit (by decide)
        · rw [if_pos hdigit]
          exact (ih _ h').cons
      · rw [if_neg hdigit]
        exact ⟨w, c :: p, rfl, h, Nat.le_refl _⟩

/-- A letter that may be doubled is no NUL, so there is a character behind it. -/
theorem doubled_stays {p : List UInt8} (h : Terminated p) (x : UInt8) (hx : x ≠ 0) (once twice : Length) :
    Stays p (match p with
      | []     => none
      | d :: q => if d = x then some (twice, q) else some (once, d :: q)) := by
  cases p with
  | nil => exact absurd h not_terminated_nil
  | cons d q =>
      simp only
      by_cases hd : d = x
      · rw [if_pos hd]
        rcases h.cases with ⟨rfl, -⟩ | ⟨-, h'⟩
        · exact absurd hd.symm hx
        · exact ⟨twice, q, rfl, h', Nat.le_succ q.length⟩
      · rw [if_neg hd]
        exact ⟨once, d :: q, rfl, h, Nat.le_refl _⟩

theorem lengthOf_stays {p : List UInt8} (h : Terminated p) : Stays p (lengthOf p) := by
  cases p with
  | nil => exact absurd h not_terminated_nil
  | cons c p =>
      have htail : c ≠ 0 → Terminated p := fun hc => (h.cases.resolve_left fun hnul => hc hnul.1).2
      unfold lengthOf
      simp only
      by_cases hl : c = 'l'.toUInt8
      · rw [if_pos hl]
        exact (doubled_stays (htail (by rw [hl]; decide)) 'l'.toUInt8 (by decide) .long .longlong).cons
      rw [if_neg hl]
      by_cases hz : c = 'z'.toUInt8
      · rw [if_pos hz]
        exact ⟨.size, p, rfl, htail (by rw [hz]; decide), Nat.le_succ p.length⟩
      rw [if_neg hz]
      by_cases hh : c = 'h'.toUInt8
      · rw [if_pos hh]
        exact (doubled_stays (htail (by rw [hh]; decide)) 'h'.toUInt8 (by decide) .int .int).cons
      rw [if_neg hh]
      exact ⟨.int, c :: p, rfl, h, Nat.le_refl _⟩

/-- A conversion takes at most the NUL; when it takes it, nothing is left. -/
theorem conversion_spec {p : List UInt8} (h : Terminated p) : ∃ cv q, conversion p = some (cv, q) ∧
    ((cv.spec = 0 ∧ q = []) ∨ (cv.spec ≠ 0 ∧ Terminated q ∧ q.length < p.length)) := by
  obtain ⟨f, q₁, hflags, h₁, hlen₁⟩ := flags_stays p ⟨false, false⟩ h
  obtain ⟨w, q₂, hwidth, h₂, hlen₂⟩ := width_stays q₁ 0 h₁
  obtain ⟨l, q₃, hlength, h₃, hlen₃⟩ := lengthOf_stays h₂
  cases q₃ with
  | nil => exact absurd h₃ not_terminated_nil
  | cons spec q =>
      refine ⟨⟨f, w, l, spec⟩, q, ?_, ?_⟩
      · rw [conversion, hflags]
        simp only [Option.bind_eq_bind, Option.bind_some]
        rw [hwidth]
        simp only [Option.bind_some]
        rw [hlength]
        rfl
      · rw [List.length_cons] at hlen₃
        rcases h₃.cases with ⟨hnul, hq⟩ | ⟨hspec, hq⟩
        · exact .inl ⟨hnul, hq⟩
        · exact .inr ⟨hspec, hq, by omega⟩

/-- A format is read in one way. -/
theorem Parses.unique {p : List UInt8} {ps : List Piece} (h : Parses p ps) : ∀ {ps'}, Parses p ps' → ps = ps' := by
  induction h with
  | nil =>
      intro ps' h'
      cases h' with
      | nil => rfl
      | lit hc => exact absurd rfl hc
  | lit _ hc _ ih =>
      intro ps' h'
      cases h' with
      | nil => contradiction
      | lit _ _ h' => rw [ih h']
      | conv => exact absurd rfl hc
  | conv hconv _ _ ih =>
      intro ps' h'
      cases h' with
      | lit _ hc => exact absurd rfl hc
      | conv hconv' _ h' =>
          obtain ⟨rfl, rfl⟩ := Prod.mk.inj (Option.some.inj (hconv.symm.trans hconv'))
          rw [ih h']

/-- No more pieces than characters. -/
theorem Parses.length_lt {p : List UInt8} {ps : List Piece} (h : Parses p ps) : Terminated p → ps.length < p.length := by
  induction h with
  | nil => exact fun _ => Nat.zero_lt_one
  | lit hc _ _ ih =>
      intro hp
      have htail := (hp.cases.resolve_left fun hnul => hc hnul.1).2
      exact Nat.succ_lt_succ (ih htail)
  | @conv cv p q ps hconv hspec _ ih =>
      intro hp
      have htail := (hp.cases.resolve_left fun hnul => absurd hnul.1 (by decide)).2
      obtain ⟨cv', q', hconv', hcases⟩ := conversion_spec htail
      obtain ⟨rfl, rfl⟩ := Prod.mk.inj (Option.some.inj (hconv'.symm.trans hconv))
      obtain ⟨-, hq, hlen⟩ := hcases.resolve_left fun hnul => hspec hnul.1
      have := ih hq
      rw [List.length_cons, List.length_cons]
      omega

/-! ## The loop

Both directions: a complete format is got through, and what is got through is complete.
-/

theorem turn_lit {c : UInt8} {p : List UInt8} (hc : c ≠ 0) (hc' : c ≠ '%'.toUInt8) (arg : Nat) (o : Out) :
    turn size a ⟨c :: p, arg, o⟩ =
      if o.pos + 1 < size then .next ⟨p, arg, o.append c⟩ else .next ⟨c :: p, arg, o⟩ := by
  rw [turn]
  simp only [if_neg hc, if_pos hc']

theorem turn_conv {cv : Conversion} {p q : List UInt8} (hconv : conversion p = some (cv, q)) (arg : Nat) (o : Out) :
    turn size a ⟨'%'.toUInt8 :: p, arg, o⟩ =
      .next ⟨q, cv.nextArg a arg, (convert size a cv arg o).2⟩ := by
  have hnul : '%'.toUInt8 ≠ 0 := by
    decide
  rw [turn]
  simp only [if_neg hnul, ne_eq, not_true_eq_false, if_false, hconv, convert_arg]

/-- A turn that leads back to where it started is made forever. -/
theorem loop_stuck {s : State} (h : turn size a s = .next s) (n : Nat) : loop size a n s = .running := by
  induction n with
  | zero => rfl
  | succ n ih =>
      rw [loop, h]
      exact ih

/-- **Forward.** A complete format whose literal characters fit is got through, one turn for each piece. -/
theorem loop_of_parses {p : List UInt8} {ps : List Piece} (hp : Parses p ps) : ∀ {n arg : Nat} {o : Out} {t : List UInt8},
    ps.length < n → Holds size o t → FitsFrom a size t.length arg ps →
      ∃ o', loop size a n ⟨p, arg, o⟩ = .returned (o'.terminate size) ∧ Holds size o' (t ++ text a arg ps) := by
  induction hp with
  | nil =>
      intro n arg o t hn ho _
      obtain ⟨m, rfl⟩ := Nat.exists_eq_add_one_of_ne_zero (Nat.ne_of_gt hn)
      refine ⟨o, rfl, ?_⟩
      rw [text, List.append_nil]
      exact ho
  | @lit c p ps hc hc' _ ih =>
      intro n arg o t hn ho hfits
      obtain ⟨m, rfl⟩ := Nat.exists_eq_add_one_of_ne_zero (Nat.ne_of_gt (Nat.zero_lt_of_lt hn))
      obtain ⟨hroom, hfits'⟩ := fitsFrom_lit.mp hfits
      have hroom' := ho.room_iff.mpr hroom
      have hlen : (t ++ [c]).length = t.length + 1 := List.length_append
      obtain ⟨o', hloop, ho'⟩ := ih (Nat.lt_of_succ_lt_succ hn) (ho.append hroom' c) (hlen ▸ hfits')
      refine ⟨o', ?_, ?_⟩
      · rw [loop, turn_lit hc hc', if_pos hroom']
        exact hloop
      · rw [text, ← List.singleton_append, ← List.append_assoc]
        exact ho'
  | @conv cv p q ps hconv _ _ ih =>
      intro n arg o t hn ho hfits
      obtain ⟨m, rfl⟩ := Nat.exists_eq_add_one_of_ne_zero (Nat.ne_of_gt (Nat.zero_lt_of_lt hn))
      have hfits' := fitsFrom_conv.mp hfits
      rw [← List.length_append] at hfits'
      obtain ⟨o', hloop, ho'⟩ := ih (Nat.lt_of_succ_lt_succ hn) (ho.convert cv arg) hfits'
      refine ⟨o', ?_, ?_⟩
      · rw [loop, turn_conv hconv]
        exact hloop
      · rw [text, ← List.append_assoc]
        exact ho'

/-- **Backward.** A format that is got through is complete, and its literal characters fit. -/
theorem parses_of_loop (n : Nat) : ∀ {p : List UInt8} {arg : Nat} {o r : Out} {t : List UInt8},
    Terminated p → Holds size o t → loop size a n ⟨p, arg, o⟩ = .returned r →
      ∃ ps, Parses p ps ∧ FitsFrom a size t.length arg ps := by
  induction n with
  | zero =>
      intro p arg o r t _ _ hloop
      cases hloop
  | succ n ih =>
      intro p arg o r t hp ho hloop
      cases p with
      | nil => exact absurd hp not_terminated_nil
      | cons c p =>
          rcases hp.cases with ⟨rfl, rfl⟩ | ⟨hc, hp'⟩
          · exact ⟨[], .nil, fitsFrom_nil _ _⟩
          by_cases hpercent : c = '%'.toUInt8
          · subst hpercent
            obtain ⟨cv, q, hconv, hcases⟩ := conversion_spec hp'
            rw [loop, turn_conv hconv] at hloop
            rcases hcases with ⟨-, rfl⟩ | ⟨hspec, hq, -⟩
            · -- the NUL was the conversion character: the next turn reads behind it
              cases n <;> cases hloop
            · obtain ⟨ps, hps, hfits⟩ := ih hq (ho.convert cv arg) hloop
              rw [List.length_append] at hfits
              exact ⟨.conv cv :: ps, .conv hconv hspec hps, fitsFrom_conv.mpr hfits⟩
          · rw [loop, turn_lit hc hpercent] at hloop
            by_cases hroom : o.pos + 1 < size
            · rw [if_pos hroom] at hloop
              obtain ⟨ps, hps, hfits⟩ := ih hp' (ho.append hroom c) hloop
              rw [List.length_append] at hfits
              exact ⟨.lit c :: ps, .lit hc hpercent hps, fitsFrom_lit.mpr ⟨ho.room_iff.mp hroom, hfits⟩⟩
            · rw [if_neg hroom] at hloop
              exact ih hp ho hloop

/-! ## `vsnprintf`

The statements about the whole call.
-/

/-- The string that `vsnprintf` leaves: the characters before the returned position. -/
def Out.string (o : Out) : List UInt8 := (List.range o.pos).map o.buf

theorem holds_start (size : Nat) (buf : Nat → UInt8) : Holds size ⟨buf, 0, []⟩ [] :=
  ⟨(Nat.zero_min _).symm, fun _ hi => absurd hi (Nat.not_lt_zero _), fun _ hi => absurd hi List.not_mem_nil⟩

theorem CString.terminated (fmt : CString) : Terminated (fmt.chars ++ [0]) := ⟨fmt.chars, fmt.nonzero, rfl⟩

/-- The string is the text as far as there is room for it. -/
theorem Holds.string_terminate {o : Out} {t : List UInt8} (h : Holds size o t) : (o.terminate size).string = t.take (size - 1) := by
  have hpos := h.pos
  have hbuf : ∀ i < o.pos, (o.terminate size).buf i = o.buf i := by
    intro i hi
    rw [Out.terminate]
    split_ifs
    · exact Function.update_of_ne (Nat.ne_of_lt hi) 0 o.buf
    · rfl
  have hpos' : (o.terminate size).pos = o.pos := by
    rw [Out.terminate]
    split_ifs <;> rfl
  rw [Out.string, hpos']
  refine List.ext_getElem? fun i => ?_
  rw [List.getElem?_map, List.getElem?_take]
  by_cases hi : i < o.pos
  · rw [List.getElem?_range hi, Option.map_some, hbuf i hi, if_pos (by omega), h.chars i hi]
  · rw [List.getElem?_eq_none (by rw [List.length_range]; omega), Option.map_none]
    by_cases hlt : i < size - 1
    · rw [if_pos hlt, List.getElem?_eq_none (by omega)]
    · rw [if_neg hlt]

theorem Holds.terminate {o : Out} {t : List UInt8} (h : Holds size o t) :
    (∀ i ∈ (o.terminate size).stored, i < size) ∧ (o.terminate size).pos = min t.length (size - 1) ∧
      (0 < size → (o.terminate size).buf (o.terminate size).pos = 0) := by
  rw [Out.terminate]
  by_cases hsize : 0 < size
  · rw [if_pos hsize]
    refine ⟨?_, h.pos, fun _ => Function.update_self o.pos 0 o.buf⟩
    intro i hi
    rcases List.mem_cons.mp hi with rfl | hi
    · rw [h.pos]
      omega
    · exact h.stored i hi
  · rw [if_neg hsize]
    exact ⟨h.stored, h.pos, fun hpos => absurd hpos hsize⟩

/-- For a complete format whose literal characters fit, one turn for each character and one for the NUL suffice. -/
theorem vsnprintf_returns {fmt : CString} {ps : List Piece} (hps : Parses (fmt.chars ++ [0]) ps) (hfit : LiteralsFit a size ps)
    (buf : Nat → UInt8) :
    ∃ o, vsnprintf size a (fmt.chars.length + 1) buf fmt = .returned (o.terminate size) ∧ Holds size o (text a 0 ps) := by
  have hlen := hps.length_lt fmt.terminated
  rw [List.length_append, List.length_singleton] at hlen
  exact loop_of_parses hps hlen (holds_start size buf) (literalsFit_iff.mp hfit)

/-- Whatever number of turns leads to the end, the format is complete and its literal characters fit. -/
theorem complete_of_returned {fmt : CString} {n : Nat} {buf : Nat → UInt8} {o : Out}
    (h : vsnprintf size a n buf fmt = .returned o) : ∃ ps, Parses (fmt.chars ++ [0]) ps ∧ LiteralsFit a size ps := by
  obtain ⟨ps, hps, hfits⟩ := parses_of_loop n fmt.terminated (holds_start size buf) h
  exact ⟨ps, hps, literalsFit_iff.mpr hfits⟩

/-- The same value in every slot, and no strings. -/
def sameSlots (w : Word) : VaList := ⟨fun _ => w, fun _ => ⟨[], List.not_mem_nil⟩⟩

/-- `vsnprintf` returns; it has stored to no index from `size` on, and a buffer that is not empty has the text as far as
there is room, with a NUL at the returned position. -/
def PrintsPrefix (size : Nat) (a : VaList) (buf : Nat → UInt8) (fmt : CString) (t : List UInt8) : Prop :=
  ∃ n o, vsnprintf size a n buf fmt = .returned o ∧ (∀ i ∈ o.stored, i < size) ∧ o.ret = o.pos ∧
    o.pos = min t.length (size - 1) ∧ (0 < size → o.string = t.take (size - 1) ∧ o.buf o.pos = 0)

/-- **The text as far as there is room.** For a complete format, `vsnprintf` leaves the first `size - 1` characters of the
text exactly when every literal character has two places left; then it does so for every larger buffer, and the string of
the smaller one is a prefix of that of the larger. -/
theorem vsnprintf_prefix_iff (fmt : CString) (ps : List Piece) (hps : Parses (fmt.chars ++ [0]) ps) (a : VaList) (size : Nat)
    (hsize : size < 2 ^ 31) (buf : Nat → UInt8) :
    (PrintsPrefix size a buf fmt (text a 0 ps) ↔ LiteralsFit a size ps) ∧
      (LiteralsFit a size ps → ∀ size' buf', size ≤ size' → size' < 2 ^ 31 →
        ∃ n o o', vsnprintf size a n buf fmt = .returned o ∧ vsnprintf size' a n buf' fmt = .returned o' ∧
          o.string <+: o'.string) := by
  refine ⟨⟨?_, ?_⟩, ?_⟩
  · rintro ⟨n, o, hrun, -⟩
    obtain ⟨ps', hps', hfit⟩ := complete_of_returned hrun
    rw [hps.unique hps']
    exact hfit
  · intro hfit
    obtain ⟨o, hrun, ho⟩ := vsnprintf_returns hps hfit buf
    obtain ⟨hstored, hpos, hnul⟩ := ho.terminate
    have hret : (o.terminate size).ret = (o.terminate size).pos := by
      have hlt : (o.terminate size).pos < 2 ^ 31 := by
        omega
      have hnat : (BitVec.ofNat 32 (o.terminate size).pos).toNat = (o.terminate size).pos :=
        Nat.mod_eq_of_lt (by omega)
      rw [Out.ret, BitVec.toInt_eq_toNat_of_lt (by omega), hnat]
    exact ⟨_, _, hrun, hstored, hret, hpos, fun h0 => ⟨ho.string_terminate, hnul h0⟩⟩
  · intro hfit size' buf' hle _
    have hfit' : LiteralsFit a size' ps := fun before c after h => Nat.lt_of_lt_of_le (hfit before c after h) hle
    obtain ⟨o, hrun, ho⟩ := vsnprintf_returns hps hfit buf
    obtain ⟨o', hrun', ho'⟩ := vsnprintf_returns hps hfit' buf'
    refine ⟨_, _, _, hrun, hrun', ?_⟩
    rw [ho.string_terminate, ho'.string_terminate]
    exact List.take_prefix_take_left (Nat.sub_le_sub_right hle 1)

/-- `%d` with 42 for a buffer of two bytes. -/
theorem vsnprintf_prefix_iff_cut :
    PrintsPrefix 2 (sameSlots 42#64) (fun _ => 0) ⟨[37, 100], by decide⟩ [52, 50] := by
  have hps : Parses [37, 100, 0] [.conv ⟨⟨false, false⟩, 0, .int, 100⟩] := .conv rfl (by decide) .nil
  have hfit : LiteralsFit (sameSlots 42#64) 2 [.conv ⟨⟨false, false⟩, 0, .int, 100⟩] :=
    literalsFit_iff.mpr (fitsFrom_conv.mpr (fitsFrom_nil _ _))
  exact (vsnprintf_prefix_iff ⟨[37, 100], by decide⟩ _ hps _ 2 (by decide) _).1.mpr hfit

/-- `ab` for a buffer of two bytes: there is no room for the `b`, which is looked at forever. -/
theorem vsnprintf_stuck :
    ¬ ∃ n o, vsnprintf 2 (sameSlots 0#64) n (fun _ => 0) ⟨[97, 98], by decide⟩ = .returned o := by
  rintro ⟨n, o, h⟩
  cases n with
  | zero => cases h
  | succ n =>
      have hstuck := @loop_stuck (sameSlots 0#64) 2 ⟨[98, 0], 0, Out.append ⟨fun _ => 0, 0, []⟩ 97⟩ rfl n
      cases hstuck.symm.trans h

/-- **When the format is read to its NUL and no further.** `vsnprintf` ends, within one turn for each character of the format
and one for the NUL, exactly when the format is complete and its literal characters fit; otherwise no number of turns
leads to the end. -/
theorem vsnprintf_ends_iff (size : Nat) (a : VaList) (buf : Nat → UInt8) (fmt : CString) :
    ((∃ o, vsnprintf size a (fmt.chars.length + 1) buf fmt = .returned o) ↔
      ∃ ps, Parses (fmt.chars ++ [0]) ps ∧ LiteralsFit a size ps) ∧
      ∀ n o, vsnprintf size a n buf fmt = .returned o → ∃ ps, Parses (fmt.chars ++ [0]) ps ∧ LiteralsFit a size ps := by
  refine ⟨⟨?_, ?_⟩, fun n o h => complete_of_returned h⟩
  · rintro ⟨o, h⟩
    exact complete_of_returned h
  · rintro ⟨ps, hps, hfit⟩
    obtain ⟨o, h, -⟩ := vsnprintf_returns hps hfit buf
    exact ⟨_, h⟩

/-- The format `%`: its NUL is taken for the conversion character, and the next turn reads behind it. -/
theorem vsnprintf_overread :
    vsnprintf 8 (sameSlots 0#64) 2 (fun _ => 0) ⟨[37], by decide⟩ = .overread := rfl

end MyUnix.Console
