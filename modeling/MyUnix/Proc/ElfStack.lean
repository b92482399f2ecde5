import MyUnix.Proc.ElfBytes
import MyUnix.Proc.ElfEntry

/-!
# `Proc.ElfStack` — where the copies to the new stack go

`elf_load` fills the new stack with `memcpy`s: one for each string, then `argc`, the two arrays of pointers and the
auxiliary vector. Each looks up the page of its first byte and goes on from there in physical memory. A string is cut
off at the end of its page, an array is not: it is where the program looks for it only if the frames behind follow each
other like the pages do (`FramesFollow`).

The tables of the space are a tree and the stack's pages have frames of their own (`OwnPages`). A copy whose bytes all
go where their addresses are mapped leaves it so; one that goes astray may hit a table.

A copy goes to physical memory from one address on. That it goes where the program sees it, for all of its bytes, is
the property of each copy (`Copy.Placed`), and it is the same for all of them together as for each on its own, because
copies that are placed well change no translation. So the condition is a fact about the frames of the stack as they
were when its pages had been mapped: those below one array follow each other.
-/

namespace MyUnix.Elf

open Lib Mm PageAlloc PathClass

/-! ## The copies

The rest of `elf_load` as a list of copies, with what each is made of.
-/

/-- A `memcpy` to the new space. `checked`: it is left out where the page is not there. -/
structure Copy where
  va      : Nat
  bytes   : List UInt8
  checked : Bool

/-- The physical address that the copy goes to. -/
def Copy.pa (c : Copy) (m : ByteMem) (pml4 : Nat) : Nat := vmmVirtToPhys m pml4 (alignDown c.va) + c.va % pageSize

/-- The copy is left out, as that of a string is when its page is not there. -/
def Copy.Skipped (c : Copy) (m : ByteMem) (pml4 : Nat) : Prop :=
  c.checked = true ∧ vmmVirtToPhys m pml4 (alignDown c.va) = 0

instance (c : Copy) (m : ByteMem) (pml4 : Nat) : Decidable (c.Skipped m pml4) := inferInstanceAs (Decidable (_ ∧ _))

section

variable {σ : Type}

/-- The copy on the machine. -/
def Copy.run (pml4 : Nat) (l : Load σ) (c : Copy) : Load σ :=
  if c.Skipped l.vm.mem pml4 then l else l.memcpy (c.pa l.vm.mem pml4) c.bytes

/-- Copies in a row. -/
def runCopies (pml4 : Nat) (cs : List Copy) (l : Load σ) : Load σ := cs.foldl (Copy.run pml4) l

end

/-- The copies of the strings from `ptr` on. -/
def stringCopies : List (List UInt8) → Nat → List Copy
  | [],      _   => []
  | s :: ss, ptr =>
    ⟨ptr, (s ++ [0]).take (pageSize - ptr % pageSize), true⟩ :: stringCopies ss ((ptr + (s.length + 1)) % 2 ^ 64)

/-- All copies, in the order in which they are made. -/
def frameCopies (ehdr : Ehdr) (argv envp : List (List UInt8)) : List Copy :=
  stringCopies argv (strSp argv envp) ++ stringCopies envp (envStr argv envp) ++
    [⟨argcSp argv envp, leBytes 8 argv.length, false⟩,
      ⟨argvSp argv envp, wordsBytes (stringPtrs argv (strSp argv envp) ++ [0]), false⟩,
      ⟨envpSp argv envp, wordsBytes (stringPtrs envp (envStr argv envp) ++ [0]), false⟩,
      ⟨auxSp argv envp, auxBytes (auxv ehdr), false⟩]

/-- Those that are made, depending on which arrays the heap has memory for. -/
def copiesMade (env : ElfEnv) (ehdr : Ehdr) (argv envp : List (List UInt8)) : List Copy :=
  if env.argvPtrs = false then []
  else if env.envpPtrs = false then stringCopies argv (strSp argv envp)
  else frameCopies ehdr argv envp

/-- Every byte goes to where its address is mapped. -/
def Copy.Placed (c : Copy) (m : ByteMem) (pml4 : Nat) : Prop :=
  ¬c.Skipped m pml4 → ∀ k < c.bytes.length,
    vmmIsMapped m pml4 (c.va + k) = true ∧ c.pa m pml4 + k = vmmVirtToPhys m pml4 (c.va + k)

/-- Each copy does so, on the memory that the copies before it left. -/
def AllPlaced {σ : Type} (pml4 : Nat) : List Copy → Load σ → Prop
  | [],      _ => True
  | c :: cs, l => c.Placed l.vm.mem pml4 ∧ AllPlaced pml4 cs (c.run pml4 l)

/-- The pages of `n` bytes at `a` are in frames that follow each other. -/
def FramesFollow (m : ByteMem) (pml4 a n : Nat) : Prop :=
  ∀ j, j * pageSize < a % pageSize + n →
    vmmVirtToPhys m pml4 (alignDown a + j * pageSize) = vmmVirtToPhys m pml4 (alignDown a) + j * pageSize

/-- The pages of the two arrays of pointers and of the auxiliary vector are. -/
structure ArraysFollow (m : ByteMem) (pml4 : Nat) (argv envp : List (List UInt8)) : Prop where
  onArgv : FramesFollow m pml4 (argvSp argv envp) (8 * (argv.length + 1))
  onEnvp : FramesFollow m pml4 (envpSp argv envp) (8 * (envp.length + 1))
  onAux  : FramesFollow m pml4 (auxSp argv envp) 160

/-- `elf_load` comes to the point where the stack has its pages: `l₁` is the machine before them, `l₂` with them. -/
def StackReady {σ : Type} [PageAlloc σ] (env : ElfEnv) (pml4 : Nat) (content : List UInt8) (ehdr : Ehdr)
    (l l₁ l₂ : Load σ) : Prop :=
  ∃ phs r g, headerOf content = some ehdr ∧ env.phdrs = true ∧ phdrsOf content ehdr = some phs ∧
    loadSegments pml4 content env (loadBias ehdr) phs 0 l Ranges.empty = some (r, l₁, g) ∧ ¬r < 0 ∧
    stackPages pml4 (stackSize / pageSize) (stackTop - stackSize) l₁ = (0, l₂)

/-! ### They are what `elf_load` does

From the point where the stack has its pages.
-/

section

variable {σ : Type} [PageAlloc σ] {pml4 : Nat}

omit [PageAlloc σ] in
theorem writeStrings_eq (ss : List (List UInt8)) : ∀ (ptr : Nat) (l : Load σ),
    writeStrings pml4 ss ptr l = runCopies pml4 (stringCopies ss ptr) l := by
  induction ss with
  | nil => exact fun _ _ => rfl
  | cons s ss ih =>
    intro ptr l
    rw [writeStrings, stringCopies, runCopies, List.foldl_cons, ← runCopies, ← ih]
    simp only [Copy.run, Copy.Skipped, Copy.pa, true_and]

omit [PageAlloc σ] in
theorem run_unchecked (va : Nat) (bs : List UInt8) (l : Load σ) :
    Copy.run pml4 l ⟨va, bs, false⟩ = writeUser pml4 va bs l := by
  have hmade : ¬Copy.Skipped ⟨va, bs, false⟩ l.vm.mem pml4 := by
    rintro ⟨hchecked, -⟩
    cases hchecked
  rw [Copy.run, if_neg hmade, writeUser, Copy.pa]

omit [PageAlloc σ] in
theorem runCopies_append (cs ds : List Copy) (l : Load σ) :
    runCopies pml4 (cs ++ ds) l = runCopies pml4 ds (runCopies pml4 cs l) := List.foldl_append

omit [PageAlloc σ] in
theorem runCopies_cons (c : Copy) (cs : List Copy) (l : Load σ) :
    runCopies pml4 (c :: cs) l = runCopies pml4 cs (c.run pml4 l) := rfl

omit [PageAlloc σ] in
theorem buildFrame_eq (ehdr : Ehdr) (argv envp : List (List UInt8)) (l : Load σ) :
    buildFrame pml4 ehdr argv envp l = runCopies pml4 (frameCopies ehdr argv envp) l := by
  rw [frameCopies, runCopies_append, runCopies_append, ← writeStrings_eq, ← writeStrings_eq, runCopies_cons,
    runCopies_cons, runCopies_cons, runCopies_cons, run_unchecked, run_unchecked, run_unchecked, run_unchecked, buildFrame]
  rfl

/-- **From there on `elf_load` only copies.** -/
theorem elfLoad_copies {env : ElfEnv} {content : List UInt8} {ehdr : Ehdr} {l l₁ l₂ : Load σ}
    (h : StackReady env pml4 content ehdr l l₁ l₂) (argv envp : List (List UInt8)) :
    ∃ r, elfLoad env pml4 (.ok content) argv envp l = some (r, runCopies pml4 (copiesMade env ehdr argv envp) l₂) := by
  obtain ⟨phs, r, g, hhead, hphdrs, hphs, hsegs, hr, hstack⟩ := h
  rw [elfLoad]
  simp only [hhead, hphdrs, hphs, hsegs, hstack, hr, if_false, Bool.true_eq_false, lt_irrefl]
  rw [copiesMade]
  split
  next => exact ⟨_, rfl⟩
  next =>
    split
    next => exact ⟨_, by rw [writeStrings_eq]⟩
    next => exact ⟨_, by rw [buildFrame_eq]⟩

end

/-! ## Copies that arrive

One copy, and then a list of them by induction.
-/

/-- The tables are a tree, and the pages from `lo` to `hi` have frames in which no table is. -/
structure OwnPages (m : ByteMem) (pml4 lo hi : Nat) : Prop where
  tree : UserTree IsPath m pml4
  page {p} : lo ≤ p → p < hi → ∃ f, f ≠ 0 ∧ f % pageSize = 0 ∧ Unused IsPath m pml4 f ∧
    ∀ o < pageSize, vmmVirtToPhys m pml4 (p * pageSize + o) = f + o

namespace OwnPages

variable {m : ByteMem} {pml4 lo hi : Nat}

/-- A byte goes to where its address is mapped. -/
theorem byte (h : OwnPages m pml4 lo hi) {va : Nat} (hlo : lo ≤ va / pageSize) (hhi : va / pageSize < hi) (x : UInt8) :
    OwnPages (m.write (vmmVirtToPhys m pml4 va) [x]) pml4 lo hi ∧
    ∀ va', vmmVirtToPhys (m.write (vmmVirtToPhys m pml4 va) [x]) pml4 va' = vmmVirtToPhys m pml4 va' := by
  obtain ⟨f, h0, hal, hun, hpage⟩ := h.page hlo hhi
  have ho : va % pageSize < pageSize := Nat.mod_lt _ (by decide)
  have hphys : vmmVirtToPhys m pml4 va = f + va % pageSize := by
    rw [← hpage _ ho, Nat.mul_comm, Nat.div_add_mod]
  have ha : AgreeOff f m (m.write (vmmVirtToPhys m pml4 va) [x]) := by
    apply agreeOff_write
    · omega
    · rw [List.length_singleton]
      omega
  have hsame : ∀ va', vmmVirtToPhys (m.write (vmmVirtToPhys m pml4 va) [x]) pml4 va' = vmmVirtToPhys m pml4 va' :=
    fun va' => ha.virtToPhys_eq h.tree hal hun (reaches_all va')
  refine ⟨⟨ha.tree h.tree hal hun, fun hplo hphi => ?_⟩, hsame⟩
  obtain ⟨g, hg0, hgal, hgun, hgpage⟩ := h.page hplo hphi
  refine ⟨g, hg0, hgal, fun q hq ht => ?_, fun o ho => ?_⟩
  · rw [ha.tableAt_eq h.tree hal hun hq] at ht
    exact hgun q hq ht
  · rw [hsame]
    exact hgpage o ho

/-- **Bytes that all go to where they are mapped** leave every translation as it is. -/
theorem write (bs : List UInt8) : ∀ {m : ByteMem} {va pa : Nat}, OwnPages m pml4 lo hi →
    (∀ k < bs.length, lo ≤ (va + k) / pageSize ∧ (va + k) / pageSize < hi) →
    (∀ k < bs.length, pa + k = vmmVirtToPhys m pml4 (va + k)) →
    OwnPages (m.write pa bs) pml4 lo hi ∧ ∀ va', vmmVirtToPhys (m.write pa bs) pml4 va' = vmmVirtToPhys m pml4 va' := by
  induction bs with
  | nil =>
    intro m va pa h _ _
    rw [ByteMem.write_nil]
    exact ⟨h, fun _ => rfl⟩
  | cons x bs ih =>
    intro m va pa h hin hto
    have hfirst := hto 0 (Nat.succ_pos _)
    rw [Nat.add_zero, Nat.add_zero] at hfirst
    obtain ⟨hlo, hhi⟩ := hin 0 (Nat.succ_pos _)
    obtain ⟨h', hsame⟩ := h.byte hlo hhi x
    rw [Nat.add_zero, ← hfirst] at h' hsame
    have hshift : ∀ b k, b + 1 + k = b + (k + 1) := fun b k => by omega
    obtain ⟨h'', hsame'⟩ := @ih _ (va + 1) (pa + 1) h'
      (fun k hk => by
        rw [hshift]
        exact hin (k + 1) (Nat.succ_lt_succ hk))
      (fun k hk => by
        rw [hshift, hshift, hsame]
        exact hto (k + 1) (Nat.succ_lt_succ hk))
    rw [← ByteMem.write_cons]
    exact ⟨h'', fun va' => (hsame' va').trans (hsame va')⟩

/-- An address is translated with its page, to something that is not 0. -/
theorem translate (h : OwnPages m pml4 lo hi) {va : Nat} (hlo : lo ≤ va / pageSize) (hhi : va / pageSize < hi) :
    vmmVirtToPhys m pml4 (alignDown va) ≠ 0 ∧
    vmmVirtToPhys m pml4 va = vmmVirtToPhys m pml4 (alignDown va) + va % pageSize := by
  obtain ⟨f, h0, -, -, hpage⟩ := h.page hlo hhi
  have hstart := hpage 0 (by decide)
  have hrest := hpage (va % pageSize) (Nat.mod_lt _ (by decide))
  rw [Nat.add_zero, Nat.add_zero] at hstart
  rw [Nat.mul_comm, Nat.div_add_mod] at hrest
  rw [alignDown, hstart]
  exact ⟨h0, hrest⟩

end OwnPages

/-- The bytes of a copy go to these pages. -/
structure Copy.Within (c : Copy) (lo hi : Nat) : Prop where
  first : lo ≤ c.va / pageSize ∧ c.va / pageSize < hi
  last  : c.va + c.bytes.length ≤ hi * pageSize

namespace Copy

variable {m : ByteMem} {pml4 lo hi : Nat} {c : Copy}

theorem Within.byte (hc : c.Within lo hi) {k : Nat} (hk : k < c.bytes.length) :
    lo ≤ (c.va + k) / pageSize ∧ (c.va + k) / pageSize < hi := by
  obtain ⟨⟨hlo, -⟩, hlast⟩ := hc
  refine ⟨Nat.le_trans hlo (Nat.div_le_div_right (Nat.le_add_right _ _)), ?_⟩
  rw [Nat.div_lt_iff_lt_mul (by decide)]
  omega

theorem Within.made (hc : c.Within lo hi) (h : OwnPages m pml4 lo hi) : ¬c.Skipped m pml4 :=
  fun hskip => (h.translate hc.first.1 hc.first.2).1 hskip.2

/-- Byte `k` of an array, counted from the start of its first page. -/
theorem page_split (va j k : Nat) (h : va % pageSize + k = j * pageSize) : va + k = alignDown va + j * pageSize := by
  have := alignDown_add_mod va
  omega

/-- **A copy is placed well** if and only if the frames of its pages follow each other. -/
theorem placed_iff (h : OwnPages m pml4 lo hi) (hc : c.Within lo hi) :
    c.Placed m pml4 ↔ FramesFollow m pml4 c.va c.bytes.length := by
  have hstart := alignDown_add_mod c.va
  constructor
  · intro hplaced j hj
    rcases Nat.eq_zero_or_pos j with rfl | hpos
    · rw [Nat.zero_mul, Nat.add_zero, Nat.add_zero]
    · -- the first byte of page `j`
      have hrest : c.va % pageSize < pageSize := Nat.mod_lt _ (by decide)
      have hle : pageSize ≤ j * pageSize := Nat.le_mul_of_pos_left _ hpos
      obtain ⟨k, hk⟩ := Nat.exists_eq_add_of_le (Nat.le_trans (Nat.le_of_lt hrest) hle)
      obtain ⟨-, hto⟩ := hplaced (hc.made h) k (by omega)
      rw [page_split c.va j k hk.symm] at hto
      rw [← hto, Copy.pa]
      omega
  · intro hfollow _ k hk
    obtain ⟨hlo, hhi⟩ := hc.byte hk
    obtain ⟨hne, htrans⟩ := h.translate hlo hhi
    -- the page of byte `k` is page `j` of the copy
    have hsplit := Nat.div_add_mod (c.va % pageSize + k) pageSize
    rw [Nat.mul_comm] at hsplit
    have hpage : alignDown (c.va + k) = alignDown c.va + (c.va % pageSize + k) / pageSize * pageSize := by
      rw [alignDown, alignDown, pageSize]
      omega
    have hoff : (c.va + k) % pageSize = (c.va % pageSize + k) % pageSize := by rw [Nat.mod_add_mod]
    have hto := hfollow ((c.va % pageSize + k) / pageSize) (by omega)
    rw [hpage] at hne
    rw [hpage, hto, hoff] at htrans
    refine ⟨?_, ?_⟩
    · rw [vmmIsMapped, htrans, bne_iff_ne]
      omega
    · rw [htrans, Copy.pa]
      omega

/-- A copy that is placed well leaves every translation. -/
theorem run_placed {σ : Type} {l : Load σ} (h : OwnPages l.vm.mem pml4 lo hi) (hc : c.Within lo hi)
    (hplaced : c.Placed l.vm.mem pml4) :
    OwnPages (c.run pml4 l).vm.mem pml4 lo hi ∧
    ∀ va, vmmVirtToPhys (c.run pml4 l).vm.mem pml4 va = vmmVirtToPhys l.vm.mem pml4 va := by
  rw [Copy.run, if_neg (hc.made h)]
  exact OwnPages.write c.bytes h (fun k hk => hc.byte hk) fun k hk => (hplaced (hc.made h) k hk).2

end Copy

/-- **All copies are placed well** if and only if each would be on the memory before the first. -/
theorem allPlaced_iff {σ : Type} {pml4 lo hi : Nat} (cs : List Copy) : ∀ {l : Load σ}, OwnPages l.vm.mem pml4 lo hi →
    (∀ c ∈ cs, c.Within lo hi) →
    (AllPlaced pml4 cs l ↔ ∀ c ∈ cs, FramesFollow l.vm.mem pml4 c.va c.bytes.length) := by
  induction cs with
  | nil =>
    intro l _ _
    exact iff_of_true trivial fun c hc => absurd hc List.not_mem_nil
  | cons c cs ih =>
    intro l h hin
    have hc := hin c List.mem_cons_self
    rw [AllPlaced, List.forall_mem_cons, ← Copy.placed_iff h hc]
    refine and_congr_right fun hplaced => ?_
    obtain ⟨h', hsame⟩ := Copy.run_placed h hc hplaced
    rw [ih h' fun d hd => hin d (List.mem_cons_of_mem _ hd)]
    simp only [FramesFollow, hsame]

/-! ## The copies of a frame

Strings are cut off, so they are always placed well; the arrays are what the condition is about.
-/

/-- The first page of the stack, and the last, which the frame never reaches. -/
def stackLo : Nat := (stackTop - stackSize) / pageSize

/-- The page behind those of the stack that are looked at. -/
def stackHi : Nat := (stackTop - pageSize) / pageSize

/-- What is on one page is in one frame. -/
theorem InPage.follow {a n : Nat} (h : InPage a n) (m : ByteMem) (pml4 : Nat) : FramesFollow m pml4 a n := by
  intro j hj
  rw [InPage] at h
  have hlt : j * pageSize < 1 * pageSize := by omega
  obtain rfl : j = 0 := Nat.lt_one_iff.mp (Nat.lt_of_mul_lt_mul_right hlt)
  rw [Nat.zero_mul, Nat.add_zero, Nat.add_zero]

theorem within_stack {c : Copy} (hlo : stackTop - stackSize ≤ c.va) (hpos : 0 < c.bytes.length)
    (hhi : c.va + c.bytes.length ≤ stackTop - pageSize) : c.Within stackLo stackHi := by
  have hend : stackHi * pageSize = stackTop - pageSize := by decide
  refine ⟨⟨Nat.div_le_div_right hlo, ?_⟩, ?_⟩
  · rw [Nat.div_lt_iff_lt_mul (by decide), hend]
    omega
  · rwa [hend]

/-- The strings are cut off at the end of their pages. -/
theorem stringCopies_spec (ss : List (List UInt8)) : ∀ {ptr : Nat}, stackTop - stackSize ≤ ptr →
    ptr + stringBytes ss ≤ stackTop - pageSize →
    ∀ c ∈ stringCopies ss ptr, c.Within stackLo stackHi ∧ InPage c.va c.bytes.length := by
  induction ss with
  | nil =>
    intro ptr _ _ c hc
    cases hc
  | cons s ss ih =>
    intro ptr hlo hhi c hc
    rw [stringBytes_cons] at hhi
    have hrest : ptr % pageSize < pageSize := Nat.mod_lt _ (by decide)
    have hnext : (ptr + (s.length + 1)) % 2 ^ 64 = ptr + (s.length + 1) := by
      apply Nat.mod_eq_of_lt
      rw [stackTop, pageSize] at hhi
      omega
    rw [stringCopies, hnext, List.mem_cons] at hc
    rcases hc with rfl | hc
    · have hlen : ((s ++ [0]).take (pageSize - ptr % pageSize)).length = min (pageSize - ptr % pageSize) (s.length + 1) := by
        rw [List.length_take, List.length_append, List.length_singleton]
      refine ⟨within_stack hlo ?_ ?_, ?_⟩
      · simp only [hlen]
        omega
      · simp only [hlen]
        omega
      · simp only [InPage, hlen]
        omega
    · exact ih (by omega) (by omega) c hc

theorem length_ptrsBytes (ss : List (List UInt8)) (ptr : Nat) :
    (wordsBytes (stringPtrs ss ptr ++ [0])).length = 8 * (ss.length + 1) := by
  rw [length_wordsBytes, List.length_append, length_stringPtrs, List.length_singleton]

theorem forall_frameCopies {ehdr : Ehdr} {argv envp : List (List UInt8)} {P : Copy → Prop} :
    (∀ c ∈ frameCopies ehdr argv envp, P c) ↔
      (∀ c ∈ stringCopies argv (strSp argv envp), P c) ∧ (∀ c ∈ stringCopies envp (envStr argv envp), P c) ∧
      P ⟨argcSp argv envp, leBytes 8 argv.length, false⟩ ∧
      P ⟨argvSp argv envp, wordsBytes (stringPtrs argv (strSp argv envp) ++ [0]), false⟩ ∧
      P ⟨envpSp argv envp, wordsBytes (stringPtrs envp (envStr argv envp) ++ [0]), false⟩ ∧
      P ⟨auxSp argv envp, auxBytes (auxv ehdr), false⟩ := by
  rw [frameCopies, List.forall_mem_append, List.forall_mem_append, and_assoc, List.forall_mem_cons, List.forall_mem_cons,
    List.forall_mem_cons, List.forall_mem_singleton]

/-- **The copies of a frame that fits** are all placed well if and only if the frames under the arrays follow each
    other. -/
theorem frameCopies_placed_iff {σ : Type} {pml4 : Nat} {l : Load σ} {argv envp : List (List UInt8)}
    (h : OwnPages l.vm.mem pml4 stackLo stackHi) (hfits : Fits argv envp) (ehdr : Ehdr) :
    AllPlaced pml4 (frameCopies ehdr argv envp) l ↔ ArraysFollow l.vm.mem pml4 argv envp := by
  obtain ⟨hbase, hargv, henvp, haux, hstr, henv, htop, hmod⟩ := hfits.places
  have hargs := @stringCopies_spec argv (strSp argv envp) (by omega) (by omega)
  have henvs := @stringCopies_spec envp (envStr argv envp) (by omega) htop
  -- `argc` is one word at a multiple of 8
  have hargc : InPage (argcSp argv envp) 8 := by
    rw [InPage, pageSize]
    omega
  have hin : ∀ c ∈ frameCopies ehdr argv envp, c.Within stackLo stackHi := by
    rw [forall_frameCopies]
    refine ⟨fun c hc => (hargs c hc).1, fun c hc => (henvs c hc).1, within_stack ?_ ?_ ?_, within_stack ?_ ?_ ?_,
      within_stack ?_ ?_ ?_, within_stack ?_ ?_ ?_⟩
    all_goals
      simp only [length_leBytes, length_ptrsBytes, length_auxBytes]
      omega
  rw [allPlaced_iff _ h hin, forall_frameCopies]
  simp only [length_leBytes, length_ptrsBytes, length_auxBytes]
  constructor
  · rintro ⟨-, -, -, honArgv, honEnvp, honAux⟩
    exact ⟨honArgv, honEnvp, honAux⟩
  · rintro ⟨honArgv, honEnvp, honAux⟩
    exact ⟨fun c hc => (hargs c hc).2.follow _ _, fun c hc => (henvs c hc).2.follow _ _, hargc.follow _ _, honArgv,
      honEnvp, honAux⟩

/-! ## The pages of the stack

The pages have frames that were free, so they are no tables.
-/

section

variable {σ : Type} [PageAlloc σ] {vm₀ : Vm σ} {pml4 : Nat}

/-- **The stack gets its pages**, each with a frame that was free; only the last may be without one. -/
theorem stackPages_handed (n : Nat) : ∀ {base : Nat} {l l' : Load σ} {frame : Nat → Option Nat} {loose : List Nat},
    (base + n) * pageSize ≤ 2 ^ 47 → Handed vm₀ l.vm pml4 frame loose → (∀ p, base ≤ p → frame p = none) →
    stackPages pml4 n (base * pageSize) l = (0, l') →
    ∃ frame' loose', Handed vm₀ l'.vm pml4 frame' loose' ∧ (∀ p < base, frame' p = frame p) ∧
      ∀ p, base ≤ p → p + 1 < base + n → ∃ f, frame' p = some f := by
  induction n with
  | zero =>
    intro base l l' frame loose _ h _ hout
    obtain ⟨-, rfl⟩ := Prod.mk.inj hout
    exact ⟨frame, loose, h, fun _ _ => rfl, fun p hlo hhi => by omega⟩
  | succ n ih =>
    intro base l l' frame loose hend h hnone hout
    have hpage : base * pageSize < 2 ^ 47 := by
      have hlt : base * pageSize < (base + (n + 1)) * pageSize := Nat.mul_lt_mul_of_pos_right (by omega) (by decide)
      omega
    have hnext : base + 1 + n = base + (n + 1) := by omega
    have hend' : (base + 1 + n) * pageSize ≤ 2 ^ 47 := by
      rw [hnext]
      exact hend
    rw [stackPages] at hout
    simp only at hout
    by_cases h0 : l.vm.alloc.1 = 0
    · rw [if_pos h0] at hout
      exact absurd (Prod.mk.inj hout).1 (by decide)
    · rw [if_neg h0, ← Nat.succ_mul] at hout
      rcases (h.alloc h0).map hpage (hnone base (Nat.le_refl _)) (by decide : isPresent vmmUserRw = true) (by decide)
        with ⟨-, h'⟩ | ⟨-, hfull, h'⟩
      · obtain ⟨frame', loose', hl', hsame, hall⟩ := @ih (base + 1) { l with vm := _ } l' _ _ hend' h'
          (fun p hp => by
            rw [Function.update_of_ne (by omega)]
            exact hnone p (by omega)) hout
        refine ⟨frame', loose', hl', fun p hp => ?_, fun p hlo hhi => ?_⟩
        · rw [hsame p (by omega), Function.update_of_ne (by omega)]
        · rcases Nat.lt_or_eq_of_le hlo with hlt | rfl
          · exact hall p hlt (by omega)
          · exact ⟨_, (hsame base (by omega)).trans (Function.update_self ..)⟩
      · -- no frame is left, so the next round would stop
        cases n with
        | zero =>
          obtain ⟨-, rfl⟩ := Prod.mk.inj hout
          exact ⟨frame, _, h', fun _ _ => rfl, fun p hlo hhi => by omega⟩
        | succ n =>
          rw [stackPages] at hout
          simp only at hout
          rw [if_pos] at hout
          · exact absurd (Prod.mk.inj hout).1 (by decide)
          · by_contra hne
            exact hfull _ (alloc_frame _ hne).2.1

/-- **The stack's pages are its own.** -/
theorem Handed.ownPages {vm : Vm σ} {frame : Nat → Option Nat} {loose : List Nat} (h : Handed vm₀ vm pml4 frame loose)
    {lo hi : Nat} (hall : ∀ p, lo ≤ p → p < hi → ∃ f, frame p = some f) : OwnPages vm.mem pml4 lo hi where
  tree := h.inv.tree
  page {p} hlo hhi := by
    obtain ⟨f, hf⟩ := hall p hlo hhi
    obtain ⟨h0, hal, -⟩ := h.frame_spec (.inr ⟨p, hf⟩)
    exact ⟨f, h0, hal, (h.held (.inr ⟨p, hf⟩)).2.2, fun o ho => h.page hf ho⟩

theorem stack_handed {l l' : Load σ} (hinv : TreeInv IsPath l.vm pml4)
    (hout : stackPages pml4 (stackSize / pageSize) (stackTop - stackSize) l = (0, l')) :
    ∃ frame loose, Handed l.vm l'.vm pml4 frame loose ∧ ∀ p, stackLo ≤ p → p < stackHi → ∃ f, frame p = some f := by
  have hbase : stackTop - stackSize = stackLo * pageSize := by decide
  rw [hbase] at hout
  obtain ⟨frame, loose, h, -, hall⟩ := stackPages_handed (stackSize / pageSize) (by decide) (Handed.refl hinv)
    (fun _ _ => rfl) hout
  have hend : stackLo + stackSize / pageSize = stackHi + 1 := by decide
  exact ⟨frame, loose, h, fun p hlo hhi => hall p hlo (by omega)⟩

/-- **Where the copies of `elf_load` go.** When the stack has its pages, the rest of the load is a sequence of copies;
    all their bytes go to where they are mapped if and only if the frames under the arrays follow each other. -/
theorem stack_copies_iff {env : ElfEnv} {content : List UInt8} {ehdr : Ehdr} {l l₁ l₂ : Load σ}
    {argv envp : List (List UInt8)} (hready : StackReady env pml4 content ehdr l l₁ l₂)
    (hinv : TreeInv IsPath l₁.vm pml4) (hfits : Fits argv envp) :
    (∃ r, elfLoad env pml4 (.ok content) argv envp l = some (r, runCopies pml4 (copiesMade env ehdr argv envp) l₂)) ∧
    (AllPlaced pml4 (copiesMade env ehdr argv envp) l₂ ↔
      (env.argvPtrs = true → env.envpPtrs = true → ArraysFollow l₂.vm.mem pml4 argv envp)) := by
  refine ⟨elfLoad_copies hready argv envp, ?_⟩
  obtain ⟨-, -, -, -, -, -, -, -, hstack⟩ := hready
  obtain ⟨frame, loose, h, hall⟩ := stack_handed hinv hstack
  have hown := Handed.ownPages h hall
  have pl := hfits.places
  rw [copiesMade]
  split
  next hargv =>
    refine iff_of_true trivial fun htrue => ?_
    rw [hargv] at htrue
    cases htrue
  next hargv =>
    split
    next henvp =>
      -- only the strings of the arguments
      have hargs := stringCopies_spec argv pl.base_le_str (by
        rw [← pl.env_eq]
        exact Nat.le_trans (Nat.le_add_right _ _) pl.top)
      refine iff_of_true ?_ fun _ htrue => ?_
      · rw [allPlaced_iff _ hown fun c hc => (hargs c hc).1]
        exact fun c hc => (hargs c hc).2.follow _ _
      · rw [henvp] at htrue
        cases htrue
    next henvp =>
      rw [frameCopies_placed_iff hown hfits]
      simp only [Bool.not_eq_false] at hargv henvp
      simp only [hargv, henvp, forall_const]

end

/-! ### A machine whose free frames are scattered

Two loads there, one with a frame on one page and one with an auxiliary vector across two.
-/

/-- Every other frame is in use, and frame 0. -/
def scattered : Pmm where
  bitmap w := if w = 0 then 0xAAAAAAAAAAAAAAAB#64 else 0xAAAAAAAAAAAAAAAA#64
  totalPages := 32768
  freePages := 16383#64
  usedPages := 16385#64
  allocHint := 0

theorem scattered_test {x : Nat} : scattered.bitmapTest x = false ↔ x ≠ 0 ∧ x % 2 = 0 := by
  rw [Pmm.bitmapTest, scattered]
  by_cases hw : x / 64 = 0
  · have hlow : ∀ x < 64, ((0xAAAAAAAAAAAAAAAB#64 &&& BitVec.twoPow 64 (x % 64) != 0#64) = false ↔ x ≠ 0 ∧ x % 2 = 0) := by
      decide
    simp only [if_pos hw]
    exact hlow x (by omega)
  · have hhigh : ∀ i < 64, ((0xAAAAAAAAAAAAAAAA#64 &&& BitVec.twoPow 64 i != 0#64) = false ↔ i % 2 = 0) := by decide
    simp only [if_neg hw]
    rw [hhigh _ (Nat.mod_lt _ (by decide))]
    omega

theorem scattered_free : scattered.freeFrames = (Finset.Ico 1 16384).image (2 * ·) := by
  ext x
  rw [Pmm.mem_freeFrames, scattered_test, Finset.mem_image]
  constructor
  · rintro ⟨hlt, h0, heven⟩
    have hlt' : x < 32768 := hlt
    refine ⟨x / 2, ?_, by omega⟩
    rw [Finset.mem_Ico]
    omega
  · rintro ⟨y, hy, rfl⟩
    rw [Finset.mem_Ico] at hy
    refine ⟨?_, by omega, by omega⟩
    change 2 * y < 32768
    omega

theorem scattered_sound : ZeroUsed scattered ∧ scattered.totalPages ≤ 2 ^ 40 ∧ Counted scattered := by
  refine ⟨fun _ => by decide, by decide, by decide, ?_, by decide, .inr rfl⟩
  rw [scattered_free, Finset.card_image_of_injective _ (fun x y h => Nat.eq_of_mul_eq_mul_left (by decide) h), Nat.card_Ico]
  rfl

/-- The machine with an empty PML4 at `0x1000`. -/
def scatteredVm : Vm SoundPmm := ⟨fun _ => 0, ⟨scattered, scattered_sound⟩⟩

theorem scatteredVm_free {f : Nat} (h : Free scatteredVm.pmm f) : f % pageSize = 0 ∧ f / pageSize % 2 = 0 :=
  ⟨h.1, (scattered_test.mp h.2.2).2⟩

theorem scatteredVm_tree : TreeInv IsPath scatteredVm 0x1000 :=
  .of_cleared rfl (by decide) fun hfree => absurd (scatteredVm_free hfree).2 (by decide)

theorem scatteredVm_room : Room 8192 scatteredVm.pmm := by
  refine ⟨(List.range' 1 8192).map (2 * · * pageSize), ?_, by simp, fun f hf => ?_⟩
  · refine List.Nodup.map (fun x y h => ?_) List.nodup_range'
    exact Nat.eq_of_mul_eq_mul_left (by decide) (Nat.eq_of_mul_eq_mul_right (by decide) h)
  · obtain ⟨x, hx, rfl⟩ := List.mem_map.1 hf
    rw [List.mem_range'_1] at hx
    refine ⟨Nat.mul_mod_left _ _, ?_, ?_⟩
    · rw [Nat.mul_div_cancel _ (by decide)]
      change 2 * x < 32768
      omega
    · rw [Nat.mul_div_cancel _ (by decide)]
      exact scattered_test.mpr (by omega)

/-- A file without segments comes to the stack's pages at once. -/
theorem noteFile_ready {σ : Type} [PageAlloc σ] {vm : Vm σ} (hroom : Room 8192 vm.pmm) (pml4 : Nat) :
    ∃ l₂, StackReady plenty pml4 noteFile ⟨2, 0, 64, 56, 1⟩ ⟨vm, []⟩ ⟨vm, []⟩ l₂ := by
  have hstack := stackPages_ok pml4 (stackSize / pageSize) (stackTop - stackSize) ⟨vm, []⟩ hroom
  refine ⟨_, _, 0, Ranges.empty, noteFile_header.1, rfl, noteFile_header.2, ?_, by decide, Prod.ext hstack rfl⟩
  rw [loadSegments, if_pos (by decide), loadSegments]

theorem scatteredVm_ready : ∃ l₂,
    StackReady plenty 0x1000 noteFile ⟨2, 0, 64, 56, 1⟩ ⟨scatteredVm, []⟩ ⟨scatteredVm, []⟩ l₂ :=
  noteFile_ready scatteredVm_room 0x1000

/-- One short argument: the frame is on one page. -/
theorem stack_copies_short : ∃ r l₂,
    elfLoad plenty 0x1000 (.ok noteFile) [[0x61]] [] ⟨scatteredVm, []⟩ =
      some (r, runCopies 0x1000 (copiesMade plenty ⟨2, 0, 64, 56, 1⟩ [[0x61]] []) l₂) ∧
    AllPlaced 0x1000 (copiesMade plenty ⟨2, 0, 64, 56, 1⟩ [[0x61]] []) l₂ := by
  obtain ⟨l₂, hready⟩ := scatteredVm_ready
  have hfits : Fits [[0x61]] [] := by decide
  obtain ⟨⟨r, hload⟩, hiff⟩ := stack_copies_iff hready scatteredVm_tree hfits
  have hargv : InPage (argvSp [[0x61]] []) (8 * (1 + 1)) := by decide
  have henvp : InPage (envpSp [[0x61]] []) (8 * (0 + 1)) := by decide
  have haux : InPage (auxSp [[0x61]] []) 160 := by decide
  exact ⟨r, l₂, hload, hiff.mpr fun _ _ => ⟨hargv.follow _ _, henvp.follow _ _, haux.follow _ _⟩⟩

/-- An argument of 4000 bytes, with which the auxiliary vector lies on two pages. -/
def longArg : List UInt8 := List.replicate 4000 0x61

theorem longArg_bytes : stringBytes [longArg] = 4001 := by
  rw [stringBytes_cons, longArg, List.length_replicate]
  rfl

theorem longArg_fits : Fits [longArg] [] := by
  rw [Fits, longArg_bytes]
  decide

theorem longArg_aux : auxSp [longArg] [] = stackTop - 8288 := by
  rw [auxSp, strSp, longArg_bytes]
  decide

/-- **The vector goes on in a frame that is not the stack's.** -/
theorem stack_copy_astray : TreeInv IsPath scatteredVm 0x1000 ∧ Fits [longArg] [] ∧ ∃ r l₂,
    StackReady plenty 0x1000 noteFile ⟨2, 0, 64, 56, 1⟩ ⟨scatteredVm, []⟩ ⟨scatteredVm, []⟩ l₂ ∧
    elfLoad plenty 0x1000 (.ok noteFile) [longArg] [] ⟨scatteredVm, []⟩ =
      some (r, runCopies 0x1000 (copiesMade plenty ⟨2, 0, 64, 56, 1⟩ [longArg] []) l₂) ∧
    ¬AllPlaced 0x1000 (copiesMade plenty ⟨2, 0, 64, 56, 1⟩ [longArg] []) l₂ := by
  obtain ⟨l₂, hready⟩ := scatteredVm_ready
  obtain ⟨r, hload⟩ := elfLoad_copies hready [longArg] []
  refine ⟨scatteredVm_tree, longArg_fits, r, l₂, hready, hload, fun hplaced => ?_⟩
  obtain ⟨-, -, -, -, -, -, -, -, hstack⟩ := hready
  obtain ⟨frame, loose, h, hall⟩ := stack_handed scatteredVm_tree hstack
  have hmade : copiesMade plenty ⟨2, 0, 64, 56, 1⟩ [longArg] [] = frameCopies ⟨2, 0, 64, 56, 1⟩ [longArg] [] := rfl
  rw [hmade, frameCopies_placed_iff (Handed.ownPages h hall) longArg_fits] at hplaced
  -- the two pages of the vector
  obtain ⟨f, hf⟩ := hall (stackHi - 2) (by decide) (by decide)
  obtain ⟨g, hg⟩ := hall (stackHi - 1) (by decide) (by decide)
  have hfollow := hplaced.onAux 1 (by
    rw [longArg_aux]
    decide)
  have hfpage := h.page hf (o := 0) (by decide)
  have hgpage := h.page hg (o := 0) (by decide)
  have hfirst : alignDown (stackTop - 8288) = (stackHi - 2) * pageSize + 0 := by decide
  have hsecond : (stackHi - 2) * pageSize + 0 + 1 * pageSize = (stackHi - 1) * pageSize + 0 := by decide
  rw [longArg_aux, hfirst, hsecond, hfpage, hgpage] at hfollow
  -- of two frames that follow each other one is in use
  obtain ⟨-, hfeven⟩ := scatteredVm_free (h.held (.inr ⟨_, hf⟩)).1
  obtain ⟨-, hgeven⟩ := scatteredVm_free (h.held (.inr ⟨_, hg⟩)).1
  rw [pageSize] at *
  omega

end MyUnix.Elf
