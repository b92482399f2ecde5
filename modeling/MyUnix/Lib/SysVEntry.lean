import MyUnix.Lib.Bytes

/-!
# `Lib.SysVEntry` — what a program finds on its stack

The System V layout of the stack at process entry: `argc`, the pointers of the arguments up to a null pointer, those of
the environment, and the auxiliary vector up to `AT_NULL`. It is read from a partial memory, the bytes on the pages
that are there, and what is read is determined by it (`Entry.unique`).

The layout is a relation between a memory and what a program reads, not a writer, so that it does not depend on how
the stack was built. A pointer that leads to no string, a missing null or an auxiliary vector without an end makes the
relation false: that a stack has the layout means that a C runtime gets through it without a fault.
-/

namespace MyUnix.Lib.SysV

open Lib

/-- A memory of which a part is there. -/
abbrev PartialMem := Nat → Option UInt8

variable {b : PartialMem} {a : Nat}

/-- These bytes stand at `a`. -/
def Stands (b : PartialMem) (a : Nat) (bs : List UInt8) : Prop := ∀ i (h : i < bs.length), b (a + i) = some bs[i]

theorem stands_append {bs cs : List UInt8} :
    Stands b a (bs ++ cs) ↔ Stands b a bs ∧ Stands b (a + bs.length) cs := by
  constructor
  · refine fun h => ⟨fun i hi => ?_, fun i hi => ?_⟩
    · rw [h i (by rw [List.length_append]; omega), List.getElem_append_left hi]
    · rw [Nat.add_assoc, h (bs.length + i) (by rw [List.length_append]; omega), List.getElem_append_right (by omega)]
      simp
  · rintro ⟨hbs, hcs⟩ i hi
    by_cases hlt : i < bs.length
    · rw [List.getElem_append_left hlt]
      exact hbs i hlt
    · rw [List.getElem_append_right (by omega), ← hcs (i - bs.length) (by rw [List.length_append] at hi; omega)]
      congr 1
      omega

theorem stands_cons {x : UInt8} {bs : List UInt8} : Stands b a (x :: bs) ↔ b a = some x ∧ Stands b (a + 1) bs := by
  rw [← List.singleton_append, stands_append, List.length_singleton]
  refine and_congr_left fun _ => ⟨fun h => h 0 (by simp), fun h i hi => ?_⟩
  obtain rfl : i = 0 := by
    rw [List.length_singleton] at hi
    omega
  exact h

theorem Stands.unique {bs cs : List UInt8} (h : Stands b a bs) (h' : Stands b a cs) (hlen : bs.length = cs.length) :
    bs = cs := by
  refine List.ext_getElem hlen fun i hi hi' => ?_
  exact Option.some.inj ((h i hi).symm.trans (h' i hi'))

/-! ## Words and strings

Each of the relations determines what is read from where it is read, which is all that `Entry.unique` needs.
-/

/-- A word of 64 bits. -/
def Word (b : PartialMem) (a w : Nat) : Prop := w < 2 ^ 64 ∧ Stands b a (leBytes 8 w)

theorem Word.unique {w w' : Nat} (h : Word b a w) (h' : Word b a w') : w = w' := by
  have hbytes := h.2.unique h'.2 (by simp)
  have hval := congrArg ofLe hbytes
  rw [ofLe_leBytes, ofLe_leBytes] at hval
  have hw := h.1
  have hw' := h'.1
  omega

/-- A string, ended by a zero. -/
def CString (b : PartialMem) (a : Nat) (s : List UInt8) : Prop := 0 ∉ s ∧ Stands b a (s ++ [0])

theorem CString.unique {s s' : List UInt8} (h : CString b a s) (h' : CString b a s') : s = s' := by
  induction s generalizing a s' with
  | nil =>
    cases s' with
    | nil => rfl
    | cons c s' =>
      have h0 := (stands_cons.1 h.2).1
      have hc := (stands_cons.1 h'.2).1
      rw [h0] at hc
      exact absurd (Option.some.inj hc ▸ List.mem_cons_self) h'.1
  | cons c s ih =>
    obtain ⟨hc, hs⟩ := stands_cons.1 h.2
    cases s' with
    | nil =>
      have h0 := (stands_cons.1 h'.2).1
      rw [hc] at h0
      exact absurd (Option.some.inj h0 ▸ List.mem_cons_self) h.1
    | cons c' s' =>
      obtain ⟨hc', hs'⟩ := stands_cons.1 h'.2
      rw [hc] at hc'
      rw [Option.some.inj hc', ih ⟨fun hm => h.1 (List.mem_cons_of_mem _ hm), hs⟩
        ⟨fun hm => h'.1 (List.mem_cons_of_mem _ hm), hs'⟩]

/-- The strings behind the pointers from `a` up to a null pointer. -/
inductive Strings (b : PartialMem) : Nat → List (List UInt8) → Prop
  | null {a : Nat} : Word b a 0 → Strings b a []
  | cons {a p : Nat} {s ss} : Word b a p → p ≠ 0 → CString b p s → Strings b (a + 8) ss → Strings b a (s :: ss)

theorem Strings.unique {ss ss' : List (List UInt8)} (h : Strings b a ss) (h' : Strings b a ss') : ss = ss' := by
  induction h generalizing ss' with
  | null hw =>
    cases h' with
    | null _ => rfl
    | cons hw' hp _ _ => exact absurd (hw'.unique hw) hp
  | cons hw hp hs _ ih =>
    cases h' with
    | null hw' => exact absurd (hw.unique hw') hp
    | cons hw' _ hs' hrest' =>
      obtain rfl := hw.unique hw'
      rw [hs.unique hs', ih hrest']

/-- At a null pointer there are no strings. -/
theorem Strings.eq_nil {ss : List (List UInt8)} (h : Strings b a ss) (h0 : Word b a 0) : ss = [] := by
  cases h with
  | null _ => rfl
  | cons hw hp _ _ => exact absurd (hw.unique h0) hp

/-! ## The auxiliary vector

Pairs of words up to the one of type `AT_NULL`; the value of that last one is not looked at.
-/

/-- The entries from `a` up to the one of type `AT_NULL`, which is 0. -/
inductive AuxVec (b : PartialMem) : Nat → List (Nat × Nat) → Prop
  | null {a x : Nat} : Word b a 0 → Word b (a + 8) x → AuxVec b a [(0, x)]
  | cons {a t x : Nat} {aux} : Word b a t → t ≠ 0 → Word b (a + 8) x → AuxVec b (a + 16) aux → AuxVec b a ((t, x) :: aux)

theorem AuxVec.unique {aux aux' : List (Nat × Nat)} (h : AuxVec b a aux) (h' : AuxVec b a aux') : aux = aux' := by
  induction h generalizing aux' with
  | null hw hx =>
    cases h' with
    | null _ hx' => rw [hx.unique hx']
    | cons hw' ht _ _ => exact absurd (hw'.unique hw) ht
  | cons hw ht hx _ ih =>
    cases h' with
    | null hw' _ => exact absurd (hw.unique hw') ht
    | cons hw' _ hx' hrest' => rw [hw.unique hw', hx.unique hx', ih hrest']

/-- The type of the first entry. -/
theorem AuxVec.head {t x : Nat} {aux : List (Nat × Nat)} (h : AuxVec b a ((t, x) :: aux)) : Word b a t := by
  cases h with
  | null hw _ => exact hw
  | cons hw _ _ _ => exact hw

/-! ## Process entry

The five parts of the frame, one behind the other from the stack pointer on.
-/

/-- What is read from the stack pointer `sp` on. -/
structure Entry (b : PartialMem) (sp : Nat) (argv envp : List (List UInt8)) (aux : List (Nat × Nat)) : Prop where
  count : Word b sp argv.length
  args  : Strings b (sp + 8) argv
  env   : Strings b (sp + 8 + 8 * (argv.length + 1)) envp
  auxv  : AuxVec b (sp + 8 + 8 * (argv.length + 1) + 8 * (envp.length + 1)) aux

/-- **The layout determines what is read.** -/
theorem Entry.unique {sp : Nat} {argv argv' envp envp' : List (List UInt8)} {aux aux' : List (Nat × Nat)}
    (h : Entry b sp argv envp aux) (h' : Entry b sp argv' envp' aux') : argv = argv' ∧ envp = envp' ∧ aux = aux' := by
  obtain rfl := h.args.unique h'.args
  obtain rfl := h.env.unique h'.env
  exact ⟨rfl, rfl, h.auxv.unique h'.auxv⟩

end MyUnix.Lib.SysV
