import Mathlib.Order.Interval.Finset.Nat
import MyUnix.Lib.SysVEntry
import MyUnix.Proc.ElfFrame

/-!
# `Proc.ElfEntry` — what the program reads

The frame of `elf_load` against the layout of process entry. `elf_load` aligns the stack pointer after it has placed
everything, so `argc` is found only where the number of pointers leaves the place of `argc` aligned; and of a string
it writes what fits into the page in which the string begins.

The layout is `Lib.SysVEntry`, read from the memory of the program, which is a partial one: what is not mapped cannot
be read. The condition is about two numbers and the strings, and nothing else of the load. The stack pointer is
aligned to 16 at the very end, so it is that of `argc` or 8 below it, depending on how many words the frame has.
-/

namespace MyUnix.Elf

open Lib Mm PageAlloc SysV

/-- A byte of the program's memory, if its page is there. -/
def byteAt (m : ByteMem) (pml4 : Nat) : PartialMem := fun va =>
  if vmmIsMapped m pml4 va then some (view m pml4 va) else none

/-- The characters of each string are on one page; the zero after them may be on the next. -/
def StringsInPage : List (List UInt8) → Nat → Prop
  | [],      _   => True
  | s :: ss, ptr => InPage ptr s.length ∧ StringsInPage ss (ptr + (s.length + 1))

instance StringsInPage.decidable : ∀ ss ptr, Decidable (StringsInPage ss ptr)
  | [],      _   => .isTrue trivial
  | s :: ss, ptr =>
    have := StringsInPage.decidable ss (ptr + (s.length + 1))
    inferInstanceAs (Decidable (_ ∧ _))

/-! ## Strings

The loop writes what fits into the page; the zero behind a string that ends with the page is there, since the next
page reads as zero.
-/

theorem stringsMem_out (ss : List (List UInt8)) : ∀ {v : ByteMem} (ptr : Nat) {x : Nat},
    x < ptr ∨ ptr + stringBytes ss ≤ x → stringsMem ss ptr v x = v x := by
  induction ss with
  | nil => exact fun _ _ _ => rfl
  | cons s ss ih =>
    intro v ptr x hx
    rw [stringBytes_cons] at hx
    rw [stringsMem, ih _ (by omega)]
    apply ByteMem.write_out
    rw [List.length_take, List.length_append, List.length_singleton]
    omega

variable {b : PartialMem} {v : ByteMem}

/-- **One string** can be read back when its characters are on one page. -/
theorem cstring_iff {s : List UInt8} {ptr : Nat} (hs : 0 ∉ s)
    (hb : ∀ x, ptr ≤ x → x < ptr + (s.length + 1) →
      b x = some (v.write ptr ((s ++ [0]).take (pageSize - ptr % pageSize)) x))
    (hz : ∀ x, ptr ≤ x → x < ptr + (s.length + 1) → v x = 0) : CString b ptr s ↔ InPage ptr s.length := by
  have hlen : ((s ++ [0]).take (pageSize - ptr % pageSize)).length = min (pageSize - ptr % pageSize) (s.length + 1) := by
    rw [List.length_take, List.length_append, List.length_singleton]
  have hpos : ptr % pageSize < pageSize := Nat.mod_lt _ (by decide)
  -- behind the end of the page the memory is as empty as before
  have hcut : ∀ i, pageSize - ptr % pageSize ≤ i → i < s.length + 1 → b (ptr + i) = some 0 := by
    intro i hle hlt
    rw [hb _ (by omega) (by omega), ByteMem.write_out _ (by omega), hz _ (by omega) (by omega)]
  constructor
  · intro hc
    by_contra hlong
    rw [InPage] at hlong
    have hlt : pageSize - ptr % pageSize < s.length := by omega
    have h0 := hc.2 (pageSize - ptr % pageSize) (by rw [List.length_append]; omega)
    rw [hcut _ (Nat.le_refl _) (by omega), List.getElem_append_left hlt] at h0
    exact hs (Option.some.inj h0 ▸ List.getElem_mem hlt)
  · intro hpage
    rw [InPage] at hpage
    refine ⟨hs, fun i hi => ?_⟩
    rw [List.length_append, List.length_singleton] at hi
    by_cases hin : i < pageSize - ptr % pageSize
    · have hlt : i < ((s ++ [0]).take (pageSize - ptr % pageSize)).length := by omega
      rw [hb _ (by omega) (by omega), ByteMem.write_in _ hlt, List.getElem_take]
    · obtain rfl : i = s.length := by omega
      rw [hcut _ (by omega) hi, List.getElem_append_right (Nat.le_refl _)]
      simp

theorem word_of_stands {a w : Nat} (hw : w < 2 ^ 64) (h : Stands b a (leBytes 8 w)) : Word b a w := ⟨hw, h⟩

theorem stands_words {a w : Nat} {ws : List Nat} (h : Stands b a (wordsBytes (w :: ws))) :
    Stands b a (leBytes 8 w) ∧ Stands b (a + 8) (wordsBytes ws) := by
  rw [wordsBytes, List.flatMap_cons] at h
  have h' := stands_append.1 h
  rwa [length_leBytes] at h'

/-- **The strings behind an array** of pointers. -/
theorem strings_iff (ss : List (List UInt8)) : ∀ {v : ByteMem} (ptr a : Nat), (∀ s ∈ ss, 0 ∉ s) → 0 < ptr →
    ptr + stringBytes ss < 2 ^ 64 → Stands b a (wordsBytes (stringPtrs ss ptr ++ [0])) →
    (∀ x, ptr ≤ x → x < ptr + stringBytes ss → b x = some (stringsMem ss ptr v x)) →
    (∀ x, ptr ≤ x → x < ptr + stringBytes ss → v x = 0) → (Strings b a ss ↔ StringsInPage ss ptr) := by
  induction ss with
  | nil =>
    intro v ptr a _ _ _ hw _ _
    exact iff_of_true (.null (word_of_stands (by decide) (stands_words hw).1)) trivial
  | cons s ss ih =>
    intro v ptr a hs hptr hhi hw hb hz
    rw [stringBytes_cons] at hhi hb hz
    have hnext : (ptr + (s.length + 1)) % 2 ^ 64 = ptr + (s.length + 1) := Nat.mod_eq_of_lt (by omega)
    rw [stringPtrs, hnext, List.cons_append] at hw
    obtain ⟨hp, hrest⟩ := stands_words hw
    have hword : Word b a ptr := word_of_stands (by omega) hp
    have hhead : CString b ptr s ↔ InPage ptr s.length := by
      refine cstring_iff (hs s List.mem_cons_self) (fun x hlo hlt => ?_) fun x hlo hlt => hz x hlo (by omega)
      rw [hb x hlo (by omega), stringsMem, stringsMem_out ss _ (.inl hlt)]
    have htail : Strings b (a + 8) ss ↔ StringsInPage ss (ptr + (s.length + 1)) := by
      refine @ih (v.write ptr ((s ++ [0]).take (pageSize - ptr % pageSize))) _ (a + 8)
        (fun s' hs' => hs s' (List.mem_cons_of_mem _ hs')) (by omega) (by omega) hrest (fun x hlo hlt => ?_)
        fun x hlo hlt => ?_
      · rw [hb x (by omega) (by omega), stringsMem]
      · rw [ByteMem.write_out, hz x (by omega) (by omega)]
        rw [List.length_take, List.length_append, List.length_singleton]
        omega
    rw [StringsInPage, ← hhead, ← htail]
    constructor
    · intro h
      cases h with
      | cons hw' _ hc hr =>
        obtain rfl := hw'.unique hword
        exact ⟨hc, hr⟩
    · rintro ⟨hc, hr⟩
      exact .cons hword (by omega) hc hr

/-! ## The auxiliary vector

Pairs of words, the last one of type 0.
-/

theorem auxVec_of_stands {x : Nat} (hx : x < 2 ^ 64) (aux : List (Nat × Nat)) : ∀ a,
    (∀ p ∈ aux, p.1 ≠ 0 ∧ p.1 < 2 ^ 64 ∧ p.2 < 2 ^ 64) → Stands b a (auxBytes (aux ++ [(0, x)])) →
    AuxVec b a (aux ++ [(0, x)]) := by
  induction aux with
  | nil =>
    intro a _ h
    obtain ⟨h0, hrest⟩ := stands_words h
    exact .null (word_of_stands (by decide) h0) (word_of_stands hx (stands_words hrest).1)
  | cons p aux ih =>
    intro a hp h
    obtain ⟨h0, ht, hv⟩ := hp p List.mem_cons_self
    obtain ⟨htype, hrest⟩ := stands_words h
    obtain ⟨hval, hrest⟩ := stands_words hrest
    exact .cons (word_of_stands ht htype) h0 (word_of_stands hv hval)
      (ih _ (fun q hq => hp q (List.mem_cons_of_mem _ hq)) hrest)

/-! ## The frame as a whole

What was written where, and how it is read from the place of `argc`. For an even number of pointers the stack pointer
is elsewhere, and what is read from there is not the frame.
-/

theorem stands_of_holds {m : ByteMem} {a : Nat} {bs : List UInt8} (h : m.Holds a bs)
    (hb : ∀ x, a ≤ x → x < a + bs.length → b x = some (m x)) : Stands b a bs := by
  intro i hi
  rw [hb _ (by omega) (by omega), ← List.getElem?_eq_getElem hi]
  have hread := congrArg (fun l => l[i]?) h
  simp only [ByteMem.getElem?_read, if_pos hi] at hread
  exact hread

theorem holds_write_out {m : ByteMem} {a c : Nat} {bs cs : List UInt8} (h : m.Holds c cs)
    (hout : c + cs.length ≤ a ∨ a + bs.length ≤ c) : (m.write a bs).Holds c cs := by
  rw [ByteMem.Holds, ByteMem.read_write_out _ hout]
  exact h

section

variable {ehdr : Ehdr} {argv envp : List (List UInt8)}

theorem length_pointers (ss : List (List UInt8)) (ptr : Nat) :
    (wordsBytes (stringPtrs ss ptr ++ [0])).length = 8 * (ss.length + 1) := by
  rw [length_wordsBytes, List.length_append, length_stringPtrs, List.length_singleton]

/-- Below the frame nothing was written. -/
theorem frameMem_below (pl : Places argv envp) {x : Nat} (hx : x < argcSp argv envp) :
    frameMem ehdr argv envp v x = v x := by
  obtain ⟨-, hargv, henvp, haux, hstr, henv, -, -⟩ := pl
  rw [frameMem, ByteMem.write_out _ (.inl (by omega)), ByteMem.write_out _ (.inl (by omega)), ByteMem.write_out _ (.inl (by omega)),
    ByteMem.write_out _ (.inl hx), stringsMem_out _ _ (.inl (by omega)), stringsMem_out _ _ (.inl (by omega))]

/-- From the strings on only the strings were written. -/
theorem frameMem_strings (ehdr : Ehdr) (pl : Places argv envp) (v : ByteMem) {x : Nat} (hx : strSp argv envp ≤ x) :
    frameMem ehdr argv envp v x =
      stringsMem envp (envStr argv envp) (stringsMem argv (strSp argv envp) v) x := by
  obtain ⟨-, hargv, henvp, haux, hstr, -, -, -⟩ := pl
  rw [frameMem, ByteMem.write_out _ (.inr (by rw [length_auxBytes]; omega)),
    ByteMem.write_out _ (.inr (by rw [length_pointers]; omega)),
    ByteMem.write_out _ (.inr (by rw [length_pointers]; omega)),
    ByteMem.write_out _ (.inr (by rw [length_leBytes]; omega))]

/-- The arrays stand where they were written. -/
theorem frameMem_holds (ehdr : Ehdr) (pl : Places argv envp) (v : ByteMem) :
    (frameMem ehdr argv envp v).Holds (argcSp argv envp) (leBytes 8 argv.length) ∧
    (frameMem ehdr argv envp v).Holds (argvSp argv envp) (wordsBytes (stringPtrs argv (strSp argv envp) ++ [0])) ∧
    (frameMem ehdr argv envp v).Holds (envpSp argv envp) (wordsBytes (stringPtrs envp (envStr argv envp) ++ [0])) ∧
    (frameMem ehdr argv envp v).Holds (auxSp argv envp) (auxBytes (auxv ehdr)) := by
  obtain ⟨-, hargv, henvp, haux, -, -, -, -⟩ := pl
  have hargvLen := length_pointers argv (strSp argv envp)
  have henvpLen := length_pointers envp (envStr argv envp)
  have hargcLen := length_leBytes 8 argv.length
  rw [frameMem]
  refine ⟨?_, ?_, ?_, ByteMem.read_write _⟩
  · refine holds_write_out (holds_write_out (holds_write_out (ByteMem.read_write _) ?_) ?_) ?_ <;> left <;> omega
  · refine holds_write_out (holds_write_out (ByteMem.read_write _) ?_) ?_ <;> left <;> omega
  · refine holds_write_out (ByteMem.read_write _) ?_
    left
    omega

/-- The stack pointer is that of `argc`, or 8 below it. -/
theorem finalSp_eq (pl : Places argv envp) : finalSp argv envp % 16 = 0 ∧ stackTop - stackSize ≤ finalSp argv envp ∧
    finalSp argv envp = if (argv.length + envp.length) % 2 = 1 then argcSp argv envp else argcSp argv envp - 8 := by
  obtain ⟨hbase, hargv, henvp, haux, hstr, -, -, hmod⟩ := pl
  rw [finalSp, alignDown16, stackTop, stackSize] at *
  split <;> omega

theorem headerOf_lt {content : List UInt8} (h : headerOf content = some ehdr) :
    ehdr.phentsize < 2 ^ 64 ∧ ehdr.phnum < 2 ^ 64 := by
  have hfield : ∀ (bs : List UInt8) off, field bs off 2 < 2 ^ 64 := by
    intro bs off
    have hlt := ofLe_lt (readAt bs off 2)
    have hlen : (readAt bs off 2).length ≤ 2 := List.length_take_le _ _
    have hpow : 256 ^ (readAt bs off 2).length ≤ 256 ^ 2 := Nat.pow_le_pow_right (by decide) hlen
    rw [field]
    omega
  rw [headerOf] at h
  split at h
  · cases h
  · obtain rfl := Option.some.inj h
    exact ⟨hfield _ _, hfield _ _⟩

section

variable (hfits : Fits argv envp) (hC : ∀ s ∈ argv ++ envp, 0 ∉ s)
  (hb : ∀ va, stackTop - stackSize ≤ va → va < stackTop - pageSize → b va = some (frameMem ehdr argv envp v va))
  (hz : ∀ va, stackTop - stackSize ≤ va → va < stackTop - pageSize → v va = 0)
include hfits hC hb

/-- The arrays and strings, read from the place of `argc`. -/
theorem frame_reads (hz : ∀ va, stackTop - stackSize ≤ va → va < stackTop - pageSize → v va = 0) :
    Word b (argcSp argv envp) argv.length ∧
    Stands b (argvSp argv envp) (wordsBytes (stringPtrs argv (strSp argv envp) ++ [0])) ∧
    Stands b (envpSp argv envp) (wordsBytes (stringPtrs envp (envStr argv envp) ++ [0])) ∧
    Stands b (auxSp argv envp) (auxBytes (auxv ehdr)) ∧
    (Strings b (argvSp argv envp) argv ↔ StringsInPage argv (strSp argv envp)) ∧
    (Strings b (envpSp argv envp) envp ↔ StringsInPage envp (envStr argv envp)) := by
  have pl := hfits.places
  obtain ⟨hargc, hargvW, henvpW, hauxW⟩ := frameMem_holds ehdr pl v
  have hstrings := fun {x : Nat} => @frameMem_strings argv envp ehdr pl v x
  obtain ⟨hbase, hargv, henvp, haux, hstr, henv, htop, hmod⟩ := pl
  have hargvLen := length_pointers argv (strSp argv envp)
  have henvpLen := length_pointers envp (envStr argv envp)
  have hargcLen := length_leBytes 8 argv.length
  have hauxLen := length_auxBytes ehdr
  have hcount : argv.length < 2 ^ 64 := by
    rw [stackTop, pageSize] at htop
    omega
  have htop' : envStr argv envp + stringBytes envp < 2 ^ 64 := by
    rw [stackTop, pageSize] at htop
    omega
  have hpos : 0 < strSp argv envp := by
    rw [stackTop, stackSize] at hbase
    omega
  have hargvS := stands_of_holds hargvW fun x hlo hhi => hb x (by omega) (by omega)
  have henvpS := stands_of_holds henvpW fun x hlo hhi => hb x (by omega) (by omega)
  refine ⟨word_of_stands hcount (stands_of_holds hargc fun x hlo hhi => hb x (by omega) (by omega)), hargvS, henvpS,
    stands_of_holds hauxW fun x hlo hhi => hb x (by omega) (by omega), ?_, ?_⟩
  · refine strings_iff (v := v) argv _ _ (fun s hs => hC s (List.mem_append_left _ hs)) hpos (by omega) hargvS
      (fun x hlo hhi => ?_) fun x hlo hhi => hz x (by omega) (by omega)
    rw [hb x (by omega) (by omega), hstrings hlo, stringsMem_out envp _ (.inl (by omega))]
  · refine strings_iff (v := stringsMem argv (strSp argv envp) v) envp _ _
      (fun s hs => hC s (List.mem_append_right _ hs)) (by omega) htop' henvpS (fun x hlo hhi => ?_) fun x hlo hhi => ?_
    · rw [hb x (by omega) (by omega), hstrings (by omega)]
    · rw [stringsMem_out argv _ (.inr (by omega)), hz x (by omega) (by omega)]

/-- The null pointers that end the two arrays of a program without arguments and environment. -/
theorem frame_nulls (hz : ∀ va, stackTop - stackSize ≤ va → va < stackTop - pageSize → v va = 0)
    (hargv : argv = []) : Word b (argvSp argv envp) 0 ∧ (envp = [] → Word b (envpSp argv envp) 0) := by
  obtain ⟨-, hargvS, henvpS, -⟩ := frame_reads hfits hC hb hz
  refine ⟨?_, fun henvp => ?_⟩
  · subst hargv
    exact word_of_stands (by decide) (stands_words hargvS).1
  · subst henvp
    exact word_of_stands (by decide) (stands_words henvpS).1

/-- With an even number of pointers the stack pointer is 8 below `argc`: what is read from there is not the frame. -/
theorem frame_even (hz : ∀ va, stackTop - stackSize ≤ va → va < stackTop - pageSize → v va = 0)
    (heven : ¬(argv.length + envp.length) % 2 = 1) :
    ¬SysV.Entry b (finalSp argv envp) argv envp (auxv ehdr) := by
  intro h
  have pl := hfits.places
  obtain ⟨-, hlo, hsp⟩ := finalSp_eq pl
  rw [if_neg heven] at hsp
  obtain ⟨hcount, -⟩ := frame_reads hfits hC hb hz
  have hargvSp := pl.argv_eq
  have henvpSp := pl.envp_eq
  have hbase := pl.base
  have hpos : 8 ≤ argcSp argv envp := by
    rw [stackTop, stackSize] at hbase
    omega
  -- the word below `argc` is empty
  have hzero : Word b (finalSp argv envp) 0 := by
    refine word_of_stands (by decide) fun i hi => ?_
    rw [length_leBytes] at hi
    have htop : argcSp argv envp < stackTop - pageSize := by
      have := pl.aux_eq
      have := pl.str_eq
      have := pl.env_eq
      have := pl.top
      omega
    rw [hb _ (by omega) (by omega), frameMem_below pl (by omega), hz _ (by omega) (by omega)]
    have h0 : ∀ i (h : i < (leBytes 8 0).length), (leBytes 8 0)[i] = 0 := by decide
    rw [h0]
  have hargv : argv = [] := List.eq_nil_of_length_eq_zero (h.count.unique hzero)
  obtain ⟨hnull, hnull'⟩ := frame_nulls hfits hC hb hz hargv
  subst hargv
  have henv := h.env
  have haux := h.auxv
  rw [List.length_nil] at henv haux henvpSp
  have hat : finalSp [] envp + 8 + 8 * (0 + 1) = argvSp [] envp := by omega
  rw [hat] at henv
  obtain rfl := henv.eq_nil hnull
  have hat' : finalSp [] [] + 8 + 8 * (0 + 1) + 8 * (0 + 1) = envpSp [] [] := by omega
  rw [List.length_nil, hat', auxv] at haux
  exact absurd (haux.head.unique (hnull' rfl)) (by decide)

/-- **The frame against the layout.** -/
theorem frame_iff (hehdr : ehdr.phentsize < 2 ^ 64 ∧ ehdr.phnum < 2 ^ 64)
    (hz : ∀ va, stackTop - stackSize ≤ va → va < stackTop - pageSize → v va = 0) :
    SysV.Entry b (finalSp argv envp) argv envp (auxv ehdr) ↔ (argv.length + envp.length) % 2 = 1 ∧
      StringsInPage argv (strSp argv envp) ∧ StringsInPage envp (envStr argv envp) := by
  by_cases hodd : (argv.length + envp.length) % 2 = 1
  · have pl := hfits.places
    obtain ⟨-, -, hsp⟩ := finalSp_eq pl
    rw [if_pos hodd] at hsp
    obtain ⟨hcount, -, -, hauxS, hargs, henvs⟩ := frame_reads hfits hC hb hz
    have hat : finalSp argv envp + 8 = argvSp argv envp := by rw [hsp, pl.argv_eq]
    have hat' : finalSp argv envp + 8 + 8 * (argv.length + 1) = envpSp argv envp := by rw [hat, pl.envp_eq]
    have hat'' : finalSp argv envp + 8 + 8 * (argv.length + 1) + 8 * (envp.length + 1) = auxSp argv envp := by
      rw [hat', pl.aux_eq]
    constructor
    · intro h
      exact ⟨hodd, hargs.1 (hat ▸ h.args), henvs.1 (hat' ▸ h.env)⟩
    · rintro ⟨-, hargvP, henvpP⟩
      refine ⟨hsp ▸ hcount, hat ▸ hargs.2 hargvP, hat' ▸ henvs.2 henvpP, hat'' ▸ ?_⟩
      -- the vector before its `AT_NULL`
      have hlt : ∀ x, x % 2 ^ 64 < 2 ^ 64 := fun x => Nat.mod_lt _ (by decide)
      refine auxVec_of_stands (x := 0) (by decide) [(6, pageSize), (3, (loadBias ehdr + ehdr.phoff) % 2 ^ 64),
        (4, ehdr.phentsize), (5, ehdr.phnum), (9, (ehdr.entry + loadBias ehdr) % 2 ^ 64), (11, 0), (12, 0), (13, 0),
        (14, 0)] _ ?_ hauxS
      simp only [List.mem_cons, List.not_mem_nil, or_false, forall_eq_or_imp, forall_eq]
      exact ⟨by decide, ⟨by decide, by decide, hlt _⟩, ⟨by decide, by decide, hehdr.1⟩, ⟨by decide, by decide, hehdr.2⟩,
        ⟨by decide, by decide, hlt _⟩, by decide, by decide, by decide, by decide⟩
  · exact iff_of_false (frame_even hfits hC hb hz hodd) fun h => hodd h.1

end

/-! ## A load into a new space

The frame of the load is the one of `Proc.ElfFrame`, and the load succeeds when there are frames for the stack.
-/

variable {σ : Type} [PageAlloc σ]

/-- What a successful load leaves, read as the program reads it. -/
theorem entry_of_outcome {vm₀ : Vm σ} {l : Load σ} {pml4 : Nat} {content : List UInt8} {info : ElfInfo}
    (hC : ∀ s ∈ argv ++ envp, 0 ∉ s) (hhead : headerOf content = some ehdr)
    (hout : Outcome vm₀ pml4 (.ok content) argv envp (some (.ok info, l))) :
    (info.stackTop % 16 = 0 ∧ SysV.Entry (byteAt l.vm.mem pml4) info.stackTop argv envp (auxv ehdr)) ↔
      (argv.length + envp.length) % 2 = 1 ∧ StringsInPage argv (strSp argv envp) ∧
        StringsInPage envp (envStr argv envp) := by
  obtain ⟨r, l', frames, heq, hl, hok⟩ := hout
  obtain ⟨hr, rfl⟩ := Prod.mk.inj (Option.some.inj heq)
  obtain ⟨content', ehdr', g, hfile, hhead', hinfo, hfits, hmapped, v, hz, hview⟩ := hok info hr.symm
  obtain rfl := Except.ok.inj hfile
  obtain rfl := Option.some.inj (hhead.symm.trans hhead')
  have hb : ∀ va, stackTop - stackSize ≤ va → va < stackTop - pageSize →
      byteAt l.vm.mem pml4 va = some (frameMem ehdr argv envp v va) := by
    intro va hlo hhi
    rw [byteAt, if_pos (hmapped va hlo hhi), hview]
    rw [stackTop, pageSize] at hhi
    omega
  have hsp : info.stackTop = finalSp argv envp := by rw [hinfo, infoOf]
  rw [hsp, ← frame_iff hfits hC hb (headerOf_lt hhead) hz]
  exact and_iff_right (finalSp_eq hfits.places).1

/-- **What the program reads.** After a successful load into a new space, with a file and arrays that stay in the user
    half and in their pages, the stack pointer is aligned and the layout at it gives back the arguments, the environment
    and the auxiliary vector exactly if the number of pointers is odd and no string is cut off at the end of a page. -/
theorem elf_load_entry {vm : Vm σ} {kernelPml4 : Nat} {kzalloc : Bool} (hk : KernelTables vm kernelPml4)
    (hspace : (vm.vmmCreateSpace kernelPml4 kzalloc).1 ≠ 0) (env : ElfEnv) (content : List UInt8)
    (argv envp : List (List UInt8)) (hhead : headerOf content = some ehdr) (hC : ∀ s ∈ argv ++ envp, 0 ∉ s)
    (hin : StaysInUserHalf (vm.vmmCreateSpace kernelPml4 kzalloc).2.mem (vm.vmmCreateSpace kernelPml4 kzalloc).1
      (.ok content) argv envp) (info : ElfInfo) (l : Load σ)
    (hload : elfLoad env (vm.vmmCreateSpace kernelPml4 kzalloc).1 (.ok content) argv envp
      ⟨(vm.vmmCreateSpace kernelPml4 kzalloc).2, []⟩ = some (.ok info, l)) :
    (info.stackTop % 16 = 0 ∧ SysV.Entry (byteAt l.vm.mem (vm.vmmCreateSpace kernelPml4 kzalloc).1) info.stackTop argv
      envp (auxv ehdr)) ↔
      (argv.length + envp.length) % 2 = 1 ∧ StringsInPage argv (strSp argv envp) ∧
        StringsInPage envp (envStr argv envp) := by
  have hout := elfLoad_outcome env (newSpace_pages hk hspace) hin
  rw [hload] at hout
  exact entry_of_outcome hC hhead hout

/-- With four frames for each page the stack is made. -/
theorem stackPages_ok (pml4 n : Nat) : ∀ (p : Nat) (l : Load σ), Room (4 * n) l.vm.pmm → (stackPages pml4 n p l).1 = 0 := by
  induction n with
  | zero => exact fun _ _ _ => rfl
  | succ n ih =>
    intro p l h
    have h' : Room (4 * n + 3 + 1) l.vm.pmm := h
    obtain ⟨h0, hroom⟩ := h'.alloc
    rw [stackPages]
    simp only
    rw [if_neg h0]
    exact ih _ _ (hroom.vmmMap pml4 p l.vm.alloc.1 vmmUserRw)

/-- A file without segments loads where there is memory for the stack. -/
theorem elfLoad_ok {vm₀ : Vm σ} (pml4 : Nat) {content : List UInt8} {phs : List Phdr} (argv envp : List (List UInt8))
    (hhead : headerOf content = some ehdr) (hphdrs : phdrsOf content ehdr = some phs)
    (hnone : ∀ ph ∈ phs, ph.type ≠ ptLoad) (hroom : Room 8192 vm₀.pmm) :
    ∃ l, elfLoad plenty pml4 (.ok content) argv envp ⟨vm₀, []⟩ =
      some (.ok (infoOf ehdr Ranges.empty argv envp), l) := by
  have hsegs : ∀ (phs : List Phdr) i (l : Load σ), (∀ ph ∈ phs, ph.type ≠ ptLoad) →
      loadSegments pml4 content plenty (loadBias ehdr) phs i l Ranges.empty = some (0, l, Ranges.empty) := by
    intro phs
    induction phs with
    | nil => exact fun _ _ _ => rfl
    | cons ph phs ih =>
      intro i l h
      rw [loadSegments, if_pos (h ph List.mem_cons_self)]
      exact ih _ _ fun q hq => h q (List.mem_cons_of_mem _ hq)
  have hstack := stackPages_ok pml4 (stackSize / pageSize) (stackTop - stackSize) ⟨vm₀, []⟩ hroom
  rw [elfLoad]
  simp only [hhead, hphdrs, hsegs phs 0 _ hnone]
  generalize stackPages pml4 (stackSize / pageSize) (stackTop - stackSize) ⟨vm₀, []⟩ = out at hstack
  obtain ⟨r, l⟩ := out
  obtain rfl : r = 0 := hstack
  exact ⟨_, rfl⟩

end

/-! ### A machine with 16384 frames

Two programs that are loaded there, with an odd and an even number of pointers.
-/

/-- The allocator of a machine of 64 MB, of which the kernel's tables take four frames. -/
def manyFrames : Pmm where
  bitmap w := if w = 0 then 15#64 else 0#64
  totalPages := 16384
  freePages := 16380#64
  usedPages := 4#64
  allocHint := 0

theorem manyFrames_test {x : Nat} : manyFrames.bitmapTest x = false ↔ 4 ≤ x := by
  rw [Pmm.bitmapTest, manyFrames]
  by_cases hw : x / 64 = 0
  · have hlow : ∀ x < 64, ((15#64 &&& BitVec.twoPow 64 (x % 64) != 0#64) = false ↔ 4 ≤ x) := by decide
    simp only [if_pos hw]
    exact hlow x (by omega)
  · simp only [if_neg hw, BitVec.zero_and, bne_self_eq_false, true_iff]
    omega

theorem manyFrames_sound : ZeroUsed manyFrames ∧ manyFrames.totalPages ≤ 2 ^ 40 ∧ Counted manyFrames := by
  have hfree : manyFrames.freeFrames = Finset.Ico 4 16384 := by
    ext x
    rw [Pmm.mem_freeFrames, manyFrames_test, Finset.mem_Ico]
    exact And.comm
  refine ⟨fun _ => by decide, by decide, by decide, ?_, by decide, .inr rfl⟩
  rw [hfree, Nat.card_Ico]
  rfl

/-- The frames from 4 on are free, and one of them becomes the PML4 of the new space. -/
theorem manyFrames_room {n : Nat} (hn : n ≤ 16379) :
    Room n ((directVm ⟨manyFrames, manyFrames_sound⟩).vmmCreateSpace 0x1000 true).2.pmm := by
  have hroom : Room (n + 1) (directVm ⟨manyFrames, manyFrames_sound⟩).pmm := by
    refine ⟨(List.range' 4 (n + 1)).map (· * pageSize), ?_, by simp, fun f hf => ?_⟩
    · refine List.Nodup.map (fun x y h => ?_) List.nodup_range'
      exact Nat.eq_of_mul_eq_mul_right (by decide) h
    · obtain ⟨x, hx, rfl⟩ := List.mem_map.1 hf
      rw [List.mem_range'_1] at hx
      refine ⟨Nat.mul_mod_left _ _, ?_, ?_⟩
      · rw [Nat.mul_div_cancel _ (by decide)]
        change x < 16384
        omega
      · rw [Nat.mul_div_cancel _ (by decide)]
        exact manyFrames_test.2 hx.1
  obtain ⟨h0, hroom⟩ := hroom.alloc
  rw [Vm.vmmCreateSpace, if_neg (by decide)]
  simp only
  rw [if_neg h0]
  exact hroom

/-- The machine, with the kernel's tables. -/
def manyVm : Vm SoundPmm := directVm ⟨manyFrames, manyFrames_sound⟩

theorem manyVm_space : (manyVm.vmmCreateSpace 0x1000 true).1 = 0x4000 := by decide +kernel

theorem manyVm_space_ne : (manyVm.vmmCreateSpace 0x1000 true).1 ≠ 0 := by
  rw [manyVm_space]
  decide

/-- A program without segments. -/
def noteFile : List UInt8 := elfFile 0 [⟨4, 4, 0, 0, 0, 0⟩]

theorem noteFile_header : headerOf noteFile = some ⟨2, 0, 64, 56, 1⟩ ∧
    phdrsOf noteFile ⟨2, 0, 64, 56, 1⟩ = some [⟨4, 4, 0, 0, 0, 0⟩] := by decide +kernel

theorem noteFile_user {m : ByteMem} {pml4 : Nat} {argv envp : List (List UInt8)} (hfits : Fits argv envp)
    (hpages : ArraysInPage argv envp) : StaysInUserHalf m pml4 (.ok noteFile) argv envp := by
  rintro content ehdr phs ⟨⟩ hhead hphdrs
  obtain rfl := Option.some.inj (noteFile_header.1.symm.trans hhead)
  obtain rfl := Option.some.inj (noteFile_header.2.symm.trans hphdrs)
  rw [InUserHalf, if_neg (by decide), InUserHalf]
  exact ⟨hfits, hpages⟩

theorem noteFile_loads (argv envp : List (List UInt8)) :
    ∃ info l, elfLoad plenty 0x4000 (.ok noteFile) argv envp ⟨(manyVm.vmmCreateSpace 0x1000 true).2, []⟩ =
      some (.ok info, l) := by
  obtain ⟨l, h⟩ := elfLoad_ok 0x4000 argv envp noteFile_header.1 noteFile_header.2 (by decide)
    (manyFrames_room (by decide))
  exact ⟨_, l, h⟩

theorem elf_load_entry_one : ∃ info l, elfLoad plenty 0x4000 (.ok noteFile) [[0x61]] []
      ⟨(manyVm.vmmCreateSpace 0x1000 true).2, []⟩ = some (.ok info, l) ∧
    info.stackTop % 16 = 0 ∧
    SysV.Entry (byteAt l.vm.mem 0x4000) info.stackTop [[0x61]] [] (auxv ⟨2, 0, 64, 56, 1⟩) := by
  obtain ⟨info, l, hload⟩ := noteFile_loads [[0x61]] []
  have hk : KernelTables manyVm 0x1000 := directVm_tables rfl
  have h := elf_load_entry hk manyVm_space_ne plenty noteFile [[0x61]] [] noteFile_header.1 (by decide)
    (noteFile_user (by decide) ⟨by decide, by decide, by decide⟩) info l (by rw [manyVm_space]; exact hload)
  rw [manyVm_space] at h
  exact ⟨info, l, hload, h.2 (by decide)⟩

/-- With one argument and one variable the stack pointer is 8 below `argc`. -/
theorem elf_load_entry_even : KernelTables manyVm 0x1000 ∧ (manyVm.vmmCreateSpace 0x1000 true).1 = 0x4000 ∧
    headerOf noteFile = some ⟨2, 0, 64, 56, 1⟩ ∧ Fits [[0x61]] [[0x62]] ∧
    ∃ info l, elfLoad plenty 0x4000 (.ok noteFile) [[0x61]] [[0x62]]
        ⟨(manyVm.vmmCreateSpace 0x1000 true).2, []⟩ = some (.ok info, l) ∧
      ¬(info.stackTop % 16 = 0 ∧
        SysV.Entry (byteAt l.vm.mem 0x4000) info.stackTop [[0x61]] [[0x62]] (auxv ⟨2, 0, 64, 56, 1⟩)) := by
  have hk : KernelTables manyVm 0x1000 := directVm_tables rfl
  have hpages := newSpace_pages hk manyVm_space_ne
  rw [manyVm_space] at hpages
  obtain ⟨info, l, hload⟩ := noteFile_loads [[0x61]] [[0x62]]
  have huser : StaysInUserHalf (manyVm.vmmCreateSpace 0x1000 true).2.mem 0x4000 (.ok noteFile) [[0x61]] [[0x62]] :=
    noteFile_user (by decide) ⟨by decide, by decide, by decide⟩
  have hout := elfLoad_outcome plenty hpages huser
  rw [hload] at hout
  refine ⟨hk, manyVm_space, noteFile_header.1, by decide, info, l, hload, fun h => ?_⟩
  exact absurd ((entry_of_outcome (by decide) noteFile_header.1 hout).1 h).1 (by decide)

end MyUnix.Elf
