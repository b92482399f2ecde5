import MyUnix.Proc.ElfPages

/-!
# `Proc.ElfFrame` — the frame on the new stack

`elf_load` writes the strings and arrays of the frame through physical addresses, one page each. What such a write does
is said of the memory as the program sees it (`view`): on a stack whose pages are there, each is a write of the same
bytes at the virtual address, cut off at the end of a page in the case of a string.

The view is what turns writes to physical memory into writes to a virtual range, and it is right as long as each write
stays on one page; the hypotheses `Fits` and `ArraysInPage` say that it does. `Proc.ElfStack` asks what happens when
an array crosses a page.
-/

namespace MyUnix.Elf

open Lib Mm PageAlloc PathClass

/-! ## Places

The arithmetic of the frame: each part lies below the one that was placed before it, with the alignments of the
source.
-/

/-- `n` bytes at `a` are on one page. -/
def InPage (a n : Nat) : Prop := a % pageSize + n ≤ pageSize

instance (a n : Nat) : Decidable (InPage a n) := inferInstanceAs (Decidable (_ ≤ _))

section

variable (argv envp : List (List UInt8))

/-- The frame is within the stack. -/
def Fits : Prop :=
  stackTop - stackSize + (8 * (argv.length + envp.length + 3) + 176) ≤
    alignDown16 (stackTop - (stringBytes argv + stringBytes envp + pathMax))

instance : Decidable (Fits argv envp) := inferInstanceAs (Decidable (_ ≤ _))

/-- None of the arrays of the frame leaves its page. -/
structure ArraysInPage : Prop where
  onArgv : InPage (argvSp argv envp) (8 * (argv.length + 1))
  onEnvp : InPage (envpSp argv envp) (8 * (envp.length + 1))
  onAux  : InPage (auxSp argv envp) 160

/-- The places of a frame that fits, from `argc` upwards. -/
structure Places : Prop where
  base    : stackTop - stackSize ≤ argcSp argv envp
  argv_eq : argvSp argv envp = argcSp argv envp + 8
  envp_eq : envpSp argv envp = argvSp argv envp + 8 * (argv.length + 1)
  aux_eq  : auxSp argv envp = envpSp argv envp + 8 * (envp.length + 1)
  str_eq  : strSp argv envp = auxSp argv envp + 176
  env_eq  : envStr argv envp = strSp argv envp + stringBytes argv
  top     : envStr argv envp + stringBytes envp ≤ stackTop - pageSize
  mod     : strSp argv envp % 16 = 0

end

theorem sub64_eq {a b : Nat} (hle : b ≤ a) (hlt : a < 2 ^ 64) : sub64 a b = a - b := by
  rw [sub64]
  omega

theorem Fits.places {argv envp : List (List UInt8)} (h : Fits argv envp) : Places argv envp := by
  rw [Fits] at h
  have hpos : stringBytes argv + stringBytes envp + pathMax ≤ stackTop := by
    by_contra hgt
    have h0 : stackTop - (stringBytes argv + stringBytes envp + pathMax) = 0 := by omega
    rw [h0, alignDown16, stackTop, stackSize] at h
    omega
  have hstr : strSp argv envp = alignDown16 (stackTop - (stringBytes argv + stringBytes envp + pathMax)) := by
    rw [strSp, sub64_eq hpos (by decide)]
  rw [← hstr] at h
  have hmod : strSp argv envp % 16 = 0 := by
    rw [hstr, alignDown16]
    omega
  have htop : strSp argv envp + (stringBytes argv + stringBytes envp + pathMax) ≤ stackTop := by
    rw [hstr, alignDown16]
    omega
  have hlt : strSp argv envp < 2 ^ 64 := by
    rw [stackTop] at htop
    omega
  rw [stackTop, stackSize] at h
  have haux : auxSp argv envp = strSp argv envp - 176 := by
    rw [auxSp, sub64_eq (by omega) hlt, sub64_eq (by rw [alignDown16]; omega) (by rw [alignDown16]; omega), alignDown16]
    omega
  have henvp : envpSp argv envp = strSp argv envp - 176 - 8 * (envp.length + 1) := by
    rw [envpSp, haux, sub64_eq (by omega) (by omega), Nat.mul_comm]
  have hargv : argvSp argv envp = strSp argv envp - 176 - 8 * (envp.length + 1) - 8 * (argv.length + 1) := by
    rw [argvSp, henvp, sub64_eq (by omega) (by omega), Nat.mul_comm (argv.length + 1)]
  have hargc : argcSp argv envp = strSp argv envp - 176 - 8 * (envp.length + 1) - 8 * (argv.length + 1) - 8 := by
    rw [argcSp, hargv, sub64_eq (by omega) (by omega)]
  have henv : envStr argv envp = strSp argv envp + stringBytes argv := by
    rw [stackTop] at htop
    rw [envStr, Nat.mod_eq_of_lt (by omega)]
  rw [pathMax, stackTop] at htop
  exact {
    base := by rw [stackTop, stackSize]; omega
    argv_eq := by omega
    envp_eq := by omega
    aux_eq := by omega
    str_eq := by omega
    env_eq := henv
    top := by rw [stackTop, pageSize]; omega
    mod := hmod }

theorem Places.base_le_str {argv envp : List (List UInt8)} (h : Places argv envp) :
    stackTop - stackSize ≤ strSp argv envp := by
  have hbase := h.base
  rw [h.str_eq, h.aux_eq, h.envp_eq, h.argv_eq]
  omega

/-! ## The memory of the program

One lemma for each kind of write, and then the frame.
-/

/-- The memory as the program sees it. -/
def view (m : ByteMem) (pml4 : Nat) : ByteMem := fun va => m (vmmVirtToPhys m pml4 va)

/-- The strings of a loop, put down from `ptr` on. -/
def stringsMem : List (List UInt8) → Nat → ByteMem → ByteMem
  | [],      _,   v => v
  | s :: ss, ptr, v => stringsMem ss (ptr + (s.length + 1)) (v.write ptr ((s ++ [0]).take (pageSize - ptr % pageSize)))

/-- The whole frame. -/
def frameMem (ehdr : Ehdr) (argv envp : List (List UInt8)) (v : ByteMem) : ByteMem :=
  let v := stringsMem argv (strSp argv envp) v
  let v := stringsMem envp (envStr argv envp) v
  let v := v.write (argcSp argv envp) (leBytes 8 argv.length)
  let v := v.write (argvSp argv envp) (wordsBytes (stringPtrs argv (strSp argv envp) ++ [0]))
  let v := v.write (envpSp argv envp) (wordsBytes (stringPtrs envp (envStr argv envp) ++ [0]))
  v.write (auxSp argv envp) (auxBytes (auxv ehdr))

/-- A write at one byte depends on that byte only. -/
theorem write_at {v v' : ByteMem} {x : Nat} (h : v x = v' x) (a : Nat) (bs : List UInt8) :
    v.write a bs x = v'.write a bs x := by
  rw [ByteMem.write, ByteMem.write, h]

theorem stringsMem_at (ss : List (List UInt8)) : ∀ {v v' : ByteMem} {x : Nat} (ptr : Nat), v x = v' x →
    stringsMem ss ptr v x = stringsMem ss ptr v' x := by
  induction ss with
  | nil => exact fun _ h => h
  | cons s ss ih => exact fun ptr h => ih _ (write_at h _ _)

@[simp] theorem length_wordsBytes (ws : List Nat) : (wordsBytes ws).length = 8 * ws.length := by
  induction ws with
  | nil => rfl
  | cons w ws ih =>
    rw [wordsBytes, List.flatMap_cons, List.length_append, length_leBytes, ← wordsBytes, ih, List.length_cons]
    omega

@[simp] theorem length_stringPtrs (ss : List (List UInt8)) : ∀ ptr, (stringPtrs ss ptr).length = ss.length := by
  induction ss with
  | nil => exact fun _ => rfl
  | cons s ss ih => exact fun ptr => by rw [stringPtrs, List.length_cons, ih, List.length_cons]

theorem stringBytes_cons (s : List UInt8) (ss : List (List UInt8)) :
    stringBytes (s :: ss) = s.length + 1 + stringBytes ss := by
  rw [stringBytes, List.map_cons, List.sum_cons, stringBytes]

theorem length_auxBytes (ehdr : Ehdr) : (auxBytes (auxv ehdr)).length = 160 := by
  rw [auxBytes, length_wordsBytes]
  rfl

section

variable {σ : Type} [PageAlloc σ] {vm₀ : Vm σ} {l l' : Load σ} {pml4 : Nat} {frames : List Nat}

/-- From `l` on the program's memory became `v`, and its pages are the same. -/
structure Shows (l l' : Load σ) (pml4 : Nat) (v : ByteMem) : Prop where
  same va : vmmVirtToPhys l'.vm.mem pml4 va = vmmVirtToPhys l.vm.mem pml4 va
  bytes {va} : va < 2 ^ 47 → view l'.vm.mem pml4 va = v va

/-- **A write within a page** is a write at the virtual address. -/
theorem Loaded.memcpy_shows (h : Loaded vm₀ l pml4 frames) {va : Nat} {bs : List UInt8} (hva : va < 2 ^ 47)
    (hne : vmmVirtToPhys l.vm.mem pml4 (alignDown va) ≠ 0) (hlen : InPage va bs.length) :
    Loaded vm₀ (l.memcpy (vmmVirtToPhys l.vm.mem pml4 (alignDown va) + va % pageSize) bs) pml4 frames ∧
    Shows l (l.memcpy (vmmVirtToPhys l.vm.mem pml4 (alignDown va) + va % pageSize) bs) pml4
      ((view l.vm.mem pml4).write va bs) := by
  obtain ⟨hl, hsame⟩ := h.memcpy (pml4Idx_lt hva) hne hlen
  refine ⟨hl, hsame, fun {x} hx => ?_⟩
  have hpage : pml4Idx (alignDown va) < 256 := by
    rw [pml4Idx_of_path (path_alignDown va)]
    exact pml4Idx_lt hva
  have hf := h.pages.frameOf hpage (alignDown_mod va) hne
  have htree := h.pages.inv.tree
  rw [InPage] at hlen
  rw [view, hsame]
  change (l.vm.mem.write _ bs) _ = _
  by_cases hsame : x / pageSize = va / pageSize
  · -- the same page, and the same place in it
    have hpath : path x = path (alignDown va) := (path_of_page hsame).trans (path_alignDown va).symm
    have htrans := translate_page htree hpage hpath (alignDown_mod va) hne
    have hview : view l.vm.mem pml4 x = l.vm.mem (vmmVirtToPhys l.vm.mem pml4 (alignDown va) + x % pageSize) := by
      rw [view, htrans]
    have hdx := Nat.div_add_mod x pageSize
    have hdva := Nat.div_add_mod va pageSize
    rw [hsame] at hdx
    rw [htrans, ByteMem.write, ByteMem.write, hview]
    by_cases hle : va ≤ x
    · rw [if_pos hle, if_pos (by omega)]
      congr 2
      omega
    · rw [if_neg hle, if_neg (by omega)]
  · -- another page is in another frame, and nothing is mapped at 0
    have hout : x < va ∨ va + bs.length ≤ x := by
      rw [pageSize] at *
      omega
    rw [ByteMem.write_out _ hout, view]
    apply ByteMem.write_out
    obtain ⟨hf0, hfal, -⟩ := h.pages.frame_spec hf
    by_cases hx0 : vmmVirtToPhys l.vm.mem pml4 x = 0
    · rw [hx0]
      rw [pageSize] at *
      omega
    · obtain ⟨g, hg, hmap⟩ := h.pages.mapped hx hx0
      obtain ⟨hg0, hgal, -⟩ := h.pages.frame_spec hg
      have hva' : vmmVirtToPhys l.vm.mem pml4 va = vmmVirtToPhys l.vm.mem pml4 (alignDown va) + va % pageSize :=
        translate_page htree hpage (path_alignDown va).symm (alignDown_mod va) hne
      have hneq : g ≠ vmmVirtToPhys l.vm.mem pml4 (alignDown va) := by
        rintro rfl
        exact hsame (h.pages.inj hx hva hg0 hmap hva')
      rw [hmap]
      rw [pageSize] at *
      omega

/-- The pages of the stack are there, all but the last. -/
def StackMapped (m : ByteMem) (pml4 : Nat) : Prop :=
  ∀ va, stackTop - stackSize ≤ va → va < stackTop - pageSize → vmmVirtToPhys m pml4 (alignDown va) ≠ 0

omit [PageAlloc σ] in
theorem StackMapped.shows {v : ByteMem} (h : StackMapped l.vm.mem pml4) (hs : Shows l l' pml4 v) :
    StackMapped l'.vm.mem pml4 := fun va hlo hhi => by
  rw [hs.same]
  exact h va hlo hhi

/-- **The strings.** -/
theorem writeStrings_shows (ss : List (List UInt8)) : ∀ (ptr : Nat) (l : Load σ), Loaded vm₀ l pml4 frames →
    StackMapped l.vm.mem pml4 → stackTop - stackSize ≤ ptr → ptr + stringBytes ss ≤ stackTop - pageSize →
    Loaded vm₀ (writeStrings pml4 ss ptr l) pml4 frames ∧
    Shows l (writeStrings pml4 ss ptr l) pml4 (stringsMem ss ptr (view l.vm.mem pml4)) := by
  induction ss with
  | nil => exact fun _ _ h _ _ _ => ⟨h, fun _ => rfl, fun _ => rfl⟩
  | cons s ss ih =>
    intro ptr l h hstack hlo hhi
    rw [stringBytes_cons] at hhi
    have hptr : ptr < stackTop - pageSize := by omega
    have hva : ptr < 2 ^ 47 := by
      rw [stackTop, pageSize] at hptr
      omega
    have hne := hstack ptr hlo hptr
    have hlen : InPage ptr ((s ++ [0]).take (pageSize - ptr % pageSize)).length := by
      have := Nat.mod_lt ptr (show 0 < pageSize by decide)
      rw [InPage, List.length_take]
      omega
    obtain ⟨hl, hs⟩ := h.memcpy_shows hva hne hlen
    have hnext : (ptr + (s.length + 1)) % 2 ^ 64 = ptr + (s.length + 1) := by
      apply Nat.mod_eq_of_lt
      rw [stackTop, pageSize] at hhi
      omega
    rw [writeStrings]
    simp only [if_neg hne, hnext]
    obtain ⟨hl', hs'⟩ := ih (ptr + (s.length + 1)) _ hl (hstack.shows hs) (by omega) (by omega)
    exact ⟨hl', fun va => (hs'.same va).trans (hs.same va), fun hx => (hs'.bytes hx).trans (stringsMem_at ss _ (hs.bytes hx))⟩

/-- `WRITE_USER` on the stack. -/
theorem writeUser_shows (addr : Nat) (bs : List UInt8) (h : Loaded vm₀ l pml4 frames) (hstack : StackMapped l.vm.mem pml4)
    (hlo : stackTop - stackSize ≤ addr) (hhi : addr < stackTop - pageSize) (hpage : InPage addr bs.length) :
    Loaded vm₀ (writeUser pml4 addr bs l) pml4 frames ∧
    Shows l (writeUser pml4 addr bs l) pml4 ((view l.vm.mem pml4).write addr bs) := by
  refine h.memcpy_shows ?_ (hstack addr hlo hhi) hpage
  rw [stackTop, pageSize] at hhi
  omega

/-- **The frame.** -/
theorem buildFrame_shows (ehdr : Ehdr) {argv envp : List (List UInt8)} (h : Loaded vm₀ l pml4 frames)
    (hstack : StackMapped l.vm.mem pml4) (hfits : Fits argv envp) (hpages : ArraysInPage argv envp) :
    Loaded vm₀ (buildFrame pml4 ehdr argv envp l) pml4 frames ∧
    Shows l (buildFrame pml4 ehdr argv envp l) pml4 (frameMem ehdr argv envp (view l.vm.mem pml4)) := by
  have pl := hfits.places
  obtain ⟨hbase, hargv, henvp, haux, hstr, henv, htop, hmod⟩ := pl
  have hwords : ∀ ss ptr, (wordsBytes (stringPtrs ss ptr ++ [0])).length = 8 * (ss.length + 1) := by
    intro ss ptr
    rw [length_wordsBytes, List.length_append, length_stringPtrs, List.length_singleton]
  have hargc : InPage (argcSp argv envp) (leBytes 8 argv.length).length := by
    rw [InPage, length_leBytes, pageSize]
    omega
  obtain ⟨h₁, s₁⟩ := writeStrings_shows argv (strSp argv envp) l h hstack (by omega) (by omega)
  have k₁ := hstack.shows s₁
  obtain ⟨h₂, s₂⟩ := writeStrings_shows envp (envStr argv envp) _ h₁ k₁ (by omega) htop
  have k₂ := k₁.shows s₂
  obtain ⟨h₃, s₃⟩ := writeUser_shows _ _ h₂ k₂ hbase (by omega) hargc
  have k₃ := k₂.shows s₃
  obtain ⟨h₄, s₄⟩ := writeUser_shows (argvSp argv envp) (wordsBytes (stringPtrs argv (strSp argv envp) ++ [0])) h₃
    k₃ (by omega) (by omega) (by rw [hwords]; exact hpages.onArgv)
  have k₄ := k₃.shows s₄
  obtain ⟨h₅, s₅⟩ := writeUser_shows (envpSp argv envp) (wordsBytes (stringPtrs envp (envStr argv envp) ++ [0])) h₄
    k₄ (by omega) (by omega) (by rw [hwords]; exact hpages.onEnvp)
  have k₅ := k₄.shows s₅
  obtain ⟨h₆, s₆⟩ := writeUser_shows (auxSp argv envp) (auxBytes (auxv ehdr)) h₅ k₅ (by omega) (by omega)
    (by rw [length_auxBytes]; exact hpages.onAux)
  refine ⟨h₆, fun va => ?_, fun hx => ?_⟩
  · exact (s₆.same va).trans ((s₅.same va).trans ((s₄.same va).trans ((s₃.same va).trans
      ((s₂.same va).trans (s₁.same va)))))
  · -- each write is made on what the writes before it left
    have e₂ := (s₂.bytes hx).trans (stringsMem_at envp _ (s₁.bytes hx))
    have e₃ := (s₃.bytes hx).trans (write_at e₂ _ _)
    have e₄ := (s₄.bytes hx).trans (write_at e₃ _ _)
    have e₅ := (s₅.bytes hx).trans (write_at e₄ _ _)
    exact (s₆.bytes hx).trans (write_at e₅ _ _)

/-! ## The whole load

The headers first, then the pages of the stack, then the frame. What a load may come to is `Outcome`.
-/

/-- The stack after its pages were mapped: they are there, and empty. -/
theorem zero_stack (h : Loaded vm₀ l pml4 frames)
    (hzero : ∀ i, i + 1 < stackSize / pageSize →
      ZeroPage l.vm.mem pml4 frames (stackTop - stackSize + i * pageSize)) :
    StackMapped l.vm.mem pml4 ∧
    ∀ va, stackTop - stackSize ≤ va → va < stackTop - pageSize → view l.vm.mem pml4 va = 0 := by
  have hpage : ∀ va, stackTop - stackSize ≤ va → va < stackTop - pageSize →
      ZeroPage l.vm.mem pml4 frames (alignDown va) := by
    intro va hlo hhi
    have hpos : alignDown va = stackTop - stackSize + (va - (stackTop - stackSize)) / pageSize * pageSize := by
      rw [alignDown, stackTop, stackSize, pageSize] at *
      omega
    rw [hpos]
    apply hzero
    rw [stackTop, stackSize, pageSize] at *
    omega
  have hmapped : StackMapped l.vm.mem pml4 := by
    intro va hlo hhi
    obtain ⟨f, hf, hmap, -⟩ := hpage va hlo hhi
    rw [hmap]
    exact (h.pages.frame_spec hf).1
  refine ⟨hmapped, fun va hlo hhi => ?_⟩
  obtain ⟨f, hf, hmap, hz⟩ := hpage va hlo hhi
  have hu : pml4Idx (alignDown va) < 256 := by
    rw [pml4Idx_of_path (path_alignDown va)]
    apply pml4Idx_lt
    rw [stackTop, pageSize] at hhi
    omega
  rw [view, translate_page h.pages.inv.tree hu (path_alignDown va).symm (alignDown_mod va) (hmapped va hlo hhi), hmap]
  exact hz _ (Nat.mod_lt _ (by decide))

/-- Every address of such a stack is translated. -/
theorem stack_mapped (h : Loaded vm₀ l pml4 frames) (hstack : StackMapped l.vm.mem pml4) {va : Nat}
    (hlo : stackTop - stackSize ≤ va) (hhi : va < stackTop - pageSize) : vmmIsMapped l.vm.mem pml4 va = true := by
  have hu : pml4Idx (alignDown va) < 256 := by
    rw [pml4Idx_of_path (path_alignDown va)]
    apply pml4Idx_lt
    rw [stackTop, pageSize] at hhi
    omega
  have hne := hstack va hlo hhi
  rw [vmmIsMapped, bne_iff_ne, translate_page h.pages.inv.tree hu (path_alignDown va).symm (alignDown_mod va) hne]
  omega

/-- The headers of the file name the user half only; if all segments load, the frame is within the stack and its
    arrays within their pages. -/
def StaysInUserHalf (m : ByteMem) (pml4 : Nat) (file : Except Int (List UInt8)) (argv envp : List (List UInt8)) : Prop :=
  ∀ content ehdr phs, file = .ok content → headerOf content = some ehdr → phdrsOf content ehdr = some phs →
    InUserHalf m pml4 (loadBias ehdr) (Fits argv envp ∧ ArraysInPage argv envp) [] phs

/-- The program's memory after a load: the frame, on a stack that was empty. -/
def HasFrame (m : ByteMem) (pml4 : Nat) (ehdr : Ehdr) (argv envp : List (List UInt8)) : Prop :=
  Fits argv envp ∧
  (∀ va, stackTop - stackSize ≤ va → va < stackTop - pageSize → vmmIsMapped m pml4 va = true) ∧ ∃ v : ByteMem,
    (∀ va, stackTop - stackSize ≤ va → va < stackTop - pageSize → v va = 0) ∧
    ∀ va < 2 ^ 47, view m pml4 va = frameMem ehdr argv envp v va

/-- What a load may come to: it kept to its frames, and if it succeeded the frame is on the stack. -/
def Outcome (vm₀ : Vm σ) (pml4 : Nat) (file : Except Int (List UInt8)) (argv envp : List (List UInt8))
    (out : Option (Except Int ElfInfo × Load σ)) : Prop :=
  ∃ r l' frames, out = some (r, l') ∧ Loaded vm₀ l' pml4 frames ∧
    ∀ info, r = .ok info → ∃ content ehdr g, file = .ok content ∧ headerOf content = some ehdr ∧
      info = infoOf ehdr g argv envp ∧ HasFrame l'.vm.mem pml4 ehdr argv envp

theorem Loaded.error (h : Loaded vm₀ l pml4 frames) {file : Except Int (List UInt8)} {argv envp : List (List UInt8)}
    (e : Int) : Outcome vm₀ pml4 file argv envp (some (.error e, l)) :=
  ⟨.error e, l, frames, rfl, h, fun _ hr => by cases hr⟩

/-- Before the first header. -/
theorem Loaded.new (hnew : Pages vm₀ vm₀ pml4 []) : Loaded vm₀ ⟨vm₀, []⟩ pml4 [] := ⟨hnew, fun _ hw => by cases hw⟩

theorem PagesOf.new (hnew : Pages vm₀ vm₀ pml4 []) (bias : Nat) : PagesOf vm₀.mem pml4 bias [] := by
  intro va hu hne
  rw [← virtToPhys_low] at hne
  obtain ⟨f, hf, -⟩ := hnew.mapped (low_lt hu) hne
  cases hf

/-- **`elf_load`** on a new space. -/
theorem elfLoad_outcome (env : ElfEnv) {file : Except Int (List UInt8)} {argv envp : List (List UInt8)}
    (hnew : Pages vm₀ vm₀ pml4 []) (hin : StaysInUserHalf vm₀.mem pml4 file argv envp) :
    Outcome vm₀ pml4 file argv envp (elfLoad env pml4 file argv envp ⟨vm₀, []⟩) := by
  have h₀ := Loaded.new hnew
  -- in the order of the source: the file, its header, the program headers, the segments, the stack, the frame
  cases file with
  | error e => exact h₀.error e
  | ok content =>
    rw [elfLoad]
    cases hhead : headerOf content with
    | none => exact h₀.error _
    | some ehdr =>
      simp only
      split
      next => exact h₀.error _
      next =>
        cases hphdrs : phdrsOf content ehdr with
        | none => exact h₀.error _
        | some phs =>
          obtain ⟨r, l₁, g, frames₁, heq, h₁, hfin⟩ := loadSegments_loaded content env phs [] 0
            ⟨vm₀, []⟩ Ranges.empty [] h₀ (PagesOf.new hnew _) (hin content ehdr phs rfl hhead hphdrs)
          simp only [heq]
          split
          next => exact h₁.error _
          next hr =>
            obtain ⟨hfits, hpages⟩ := hfin hr
            obtain ⟨r₂, l₂, frames₂, heq₂, h₂, -, -, -, hzero⟩ := stackPages_loaded (stackSize / pageSize)
              (stackTop - stackSize) l₁ frames₁ h₁ (by decide) (by decide)
            simp only [heq₂]
            split
            next => exact h₂.error _
            next hr₂ =>
              obtain ⟨hmapped, hempty⟩ := zero_stack h₂ (hzero hr₂)
              have pl := hfits.places
              split
              next => exact h₂.error _
              next =>
                split
                next =>
                  have hlo : stackTop - stackSize ≤ strSp argv envp := pl.base_le_str
                  have hhi : strSp argv envp + stringBytes argv ≤ stackTop - pageSize := by
                    rw [← pl.env_eq]
                    exact Nat.le_trans (Nat.le_add_right _ _) pl.top
                  exact (writeStrings_shows argv (strSp argv envp) l₂ h₂ hmapped hlo hhi).1.error _
                next =>
                  obtain ⟨h₃, s₃⟩ := buildFrame_shows ehdr h₂ hmapped hfits hpages
                  refine ⟨_, _, frames₂, rfl, h₃, fun info hr => ⟨content, ehdr, g, rfl, hhead, ?_, hfits,
                    fun va => stack_mapped h₃ (hmapped.shows s₃), _, hempty, fun va hva => s₃.bytes hva⟩⟩
                  exact (Except.ok.inj hr).symm

end

/-! ## A machine

A kernel half that begins with the direct map, on which files can be tried.
-/

/-- A file with these program headers, right after the ELF header. -/
def elfFile (entry : Nat) (phs : List Phdr) : List UInt8 :=
  [0x7F, 0x45, 0x4C, 0x46, 2, 1, 1] ++ leBytes 9 0 ++ leBytes 2 2 ++ leBytes 2 62 ++ leBytes 4 1 ++ leBytes 8 entry ++
    leBytes 8 64 ++ leBytes 12 0 ++ leBytes 2 64 ++ leBytes 2 56 ++ leBytes 2 phs.length ++ leBytes 6 0 ++
    phs.flatMap fun ph => leBytes 4 ph.type ++ leBytes 4 ph.flags ++ leBytes 8 ph.offset ++ leBytes 16 ph.vaddr ++
      leBytes 8 ph.filesz ++ leBytes 8 ph.memsz ++ leBytes 8 pageSize

/-- The memory of a machine with a PML4 at `0x1000` whose kernel half begins with the direct map: a PDPT at `0x2000`, a
    PD at `0x3000`, and a huge page of 2 MB. -/
def directMap : ByteMem := fun x =>
  if x = 0x1800 then 0x03 else if x = 0x1801 then 0x20
  else if x = 0x2000 then 0x03 else if x = 0x2001 then 0x30
  else if x = 0x3000 then 0x83 else 0

/-- The machine, with `pmm`. -/
def directVm (pmm : SoundPmm) : Vm SoundPmm := ⟨directMap, pmm⟩

theorem directMap_entry {t i : Nat} (h : (t = 0x1000 ∧ i ≠ 256) ∨ (t = 0x2000 ∧ i ≠ 0) ∨ (t = 0x3000 ∧ i ≠ 0))
    (hi : i < 512) : entry directMap t i = 0#64 := by
  apply ByteMem.word_zero
  intro k hk
  rw [slot, directMap]
  iterate 5 rw [if_neg (by omega)]

/-- The way to a table of this machine, and the table. -/
theorem directMap_walk {p : List Nat} (hp : IsPath p) {t : Nat} (ht : tableAt directMap 0x1000 p = some t) :
    (p = [] ∧ t = 0x1000) ∨ (p = [256] ∧ t = 0x2000) ∨ (p = [256, 0] ∧ t = 0x3000) := by
  cases p with
  | nil => exact .inl ⟨rfl, (Option.some.inj ht).symm⟩
  | cons i p =>
    have hi : i < 512 := hp.2 i (by simp)
    rw [tableAt, walk_cons] at ht
    by_cases h256 : i = 256
    · subst h256
      have hnext : nextOf 0 (entry directMap 0x1000 256) = some 0x2000 := by decide +kernel
      rw [hnext, Option.bind_some] at ht
      cases p with
      | nil => exact .inr (.inl ⟨rfl, (Option.some.inj ht).symm⟩)
      | cons j p =>
        have hj : j < 512 := hp.2 j (by simp)
        rw [walk_cons] at ht
        by_cases h0 : j = 0
        · subst h0
          have hnext : nextOf (0 + 1) (entry directMap 0x2000 0) = some 0x3000 := by decide +kernel
          rw [hnext, Option.bind_some] at ht
          cases p with
          | nil => exact .inr (.inr ⟨rfl, (Option.some.inj ht).symm⟩)
          | cons k p =>
            have hk : k < 512 := hp.2 k (by simp)
            -- the entry of the PD is a huge page
            have hnone : nextOf (0 + 1 + 1) (entry directMap 0x3000 k) = none := by
              by_cases h0 : k = 0
              · subst h0
                decide +kernel
              · rw [directMap_entry (.inr (.inr ⟨rfl, h0⟩)) hk]
                decide
            rw [walk_cons, hnone] at ht
            cases ht
        · rw [directMap_entry (.inr (.inl ⟨rfl, h0⟩)) hj, nextOf_absent isPresent_zero] at ht
          cases ht
    · rw [directMap_entry (.inl ⟨rfl, h256⟩) hi, nextOf_absent isPresent_zero] at ht
      cases ht

theorem directVm_tables {pmm : SoundPmm} (h : pmm.1.bitmap 0 = 15#64) : KernelTables (directVm pmm) 0x1000 where
  aligned := by decide
  used {p t} hp ht := by
    rintro ⟨-, -, hfree⟩
    have hbit : ∀ {x}, x < 4 → (pmm.1.bitmap 0 &&& BitVec.twoPow 64 x != 0#64) = true := by
      rw [h]
      decide
    have hfree' : (pmm.1.bitmap (t / pageSize / 64) &&& BitVec.twoPow 64 (t / pageSize % 64) != 0#64) = false := hfree
    rcases directMap_walk hp.1 ht with ⟨-, rfl⟩ | ⟨-, rfl⟩ | ⟨-, rfl⟩
    · exact absurd (hbit (by decide : 1 < 4)) (ne_true_of_eq_false hfree')
    · exact absurd (hbit (by decide : 2 < 4)) (ne_true_of_eq_false hfree')
    · exact absurd (hbit (by decide : 3 < 4)) (ne_true_of_eq_false hfree')

/-- There is memory for everything. -/
def plenty : ElfEnv := ⟨true, fun _ => some fun _ => 0, true, true⟩

end MyUnix.Elf
