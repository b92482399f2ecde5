import MyUnix.Proc.ElfFrame

/-!
# `Proc.ElfConfined` — which loads keep to their own frames

`elf_load` is a straight line: whatever it finds, it maps the pages of the headers and copies their bytes in the order
of the file, then the stack and the frame, and the first step that fails ends the call. The steps depend on the file and
the arguments only, so they are listed here (`elfOps`), and the load is their run (`elfLoad_run`).

A step is judged by the state in which it is reached (`LoadOp.Harmless`). Nothing in `elf_map_segment` compares an
address with the end of the user half, so a page of the kernel half may be mapped there, and data goes wherever the
kernel half leads; and `WRITE_USER` does not stop at the end of a page. The load keeps to its own frames just when no step
that is reached does one of these (`elf_load_confined_iff`).

The equivalence is proved in two directions that need different things. That a harmless load keeps to its frames is an
invariant of the run (`Kept`). That a step which does harm does not keep to them is shown at the step itself: a page
of the kernel half that was mapped changes a translation of the kernel half, and a byte that goes astray is in no
frame of a page. Since the steps are judged by the states in which they are reached, neither direction has to say what
a load would do with other frames or another heap.

A byte of data may reach a table of the space itself when a header names the direct map. From then on nothing is known
of translations, so the property asks of each step that its data is on pages of the program at that time.
-/

namespace MyUnix.Elf

open Lib Mm PageAlloc PathClass

/-! ## The steps of a load

The steps are plain data. A step fails where the loader returns an error, and skips what the loader skips.
-/

/-- A step: the page of a segment, a round of the loop that fills the pages, a page of the stack, a string or an array
    of the frame, and an allocation of the heap that fails. -/
inductive LoadOp
  | page (flags : Pte) (addr : Nat)
  | copy (target : Nat) (bs : List UInt8)
  | stack (p : Nat)
  | string (ptr : Nat) (bs : List UInt8)
  | user (addr : Nat) (bs : List UInt8)
  | fail (e : Int)

section

variable {σ : Type} [PageAlloc σ]

/-- A step on the machine, with what it returns. -/
def LoadOp.run (pml4 : Nat) (l : Load σ) : LoadOp → Option (Int × Load σ)
  | .page flags addr =>
    if vmmIsMapped l.vm.mem pml4 addr then some (0, l)
    else if l.vm.alloc.1 = 0 then some (-enomem, { l with vm := l.vm.alloc.2 })
    else
      let (r, vm) := l.vm.alloc.2.vmmMap pml4 addr l.vm.alloc.1 flags
      if r < 0 then (pmmFree vm.pmm l.vm.alloc.1).map fun pmm => (r, { l with vm := { vm with pmm } })
      else some (0, { l with vm })
  | .copy target bs =>
    if vmmVirtToPhys l.vm.mem pml4 (alignDown target) = 0 then some (-efault, l)
    else some (0, l.memcpy (vmmVirtToPhys l.vm.mem pml4 (alignDown target) + target % pageSize) bs)
  | .stack p =>
    if l.vm.alloc.1 = 0 then some (-enomem, { l with vm := l.vm.alloc.2 })
    else some (0, { l with vm := (l.vm.alloc.2.vmmMap pml4 p l.vm.alloc.1 vmmUserRw).2 })
  | .string ptr bs =>
    some (0, if vmmVirtToPhys l.vm.mem pml4 (alignDown ptr) = 0 then l
      else l.memcpy (vmmVirtToPhys l.vm.mem pml4 (alignDown ptr) + ptr % pageSize) bs)
  | .user addr bs => some (0, writeUser pml4 addr bs l)
  | .fail e => some (e, l)

/-- Steps in a row, up to the first that fails. -/
def runOps (pml4 : Nat) : List LoadOp → Load σ → Option (Int × Load σ)
  | [],        l => some (0, l)
  | op :: ops, l =>
    match op.run pml4 l with
    | none         => none
    | some (r, l') => if r < 0 then some (r, l') else runOps pml4 ops l'

/-- In a run of the steps from this state on, the step is reached in that state. -/
inductive Reached (pml4 : Nat) : List LoadOp → Load σ → LoadOp → Load σ → Prop
  | head {op ops l} : Reached pml4 (op :: ops) l op l
  | tail {op ops l r l' op₁ l₁} (hrun : op.run pml4 l = some (r, l')) (hr : ¬r < 0)
      (h : Reached pml4 ops l' op₁ l₁) : Reached pml4 (op :: ops) l op₁ l₁

/-! ### Which steps `elf_load` makes

From the headers and the arguments, in the order of the source; the heap decides which of them there are.
-/

/-- The pages of a segment. -/
def pageOps (flags : Pte) : Nat → Nat → List LoadOp
  | 0,     _    => []
  | n + 1, addr => .page flags addr :: pageOps flags n ((addr + pageSize) % 2 ^ 64)

/-- The rounds of `writeSegment`. -/
def copyOps (vaddr filesz : Nat) (buf : ByteMem) (off : Nat) : List LoadOp :=
  if off < filesz then
    let target := (vaddr + off) % 2 ^ 64
    let n := min (pageSize - target % pageSize) (filesz - off)
    .copy target (buf.read off n) :: copyOps vaddr filesz buf (off + n)
  else []
termination_by filesz - off
decreasing_by exact sub_written_lt ‹_› _

/-- The steps of `elf_map_segment`. -/
def segmentOps (content : List UInt8) (buf : Option ByteMem) (ph : Phdr) (bias : Nat) : List LoadOp :=
  if ph.memsz = 0 then []
  else pageOps (segFlags ph.flags) (ph.nPages bias) (alignDown (ph.start bias)) ++
    if ph.filesz = 0 then []
    else match buf with
      | none      => [.fail (-enomem)]
      | some junk => copyOps (ph.start bias) ph.filesz (segmentBuf content ph junk) 0

/-- The steps of the loop over the headers. -/
def phdrOps (content : List UInt8) (env : ElfEnv) (bias : Nat) : List Phdr → Nat → List LoadOp
  | [],        _ => []
  | ph :: phs, i =>
    if ph.type ≠ ptLoad then phdrOps content env bias phs (i + 1)
    else segmentOps content (env.segment i) ph bias ++ phdrOps content env bias phs (i + 1)

/-- The pages of the stack. -/
def stackOps : Nat → Nat → List LoadOp
  | 0,     _ => []
  | n + 1, p => .stack p :: stackOps n (p + pageSize)

/-- The strings of one of the two arrays. -/
def stringOps : List (List UInt8) → Nat → List LoadOp
  | [],      _   => []
  | s :: ss, ptr =>
    .string ptr ((s ++ [0]).take (pageSize - ptr % pageSize)) :: stringOps ss ((ptr + (s.length + 1)) % 2 ^ 64)

/-- The steps of `buildFrame`. -/
def frameOps (ehdr : Ehdr) (argv envp : List (List UInt8)) : List LoadOp :=
  stringOps argv (strSp argv envp) ++ (stringOps envp (envStr argv envp) ++
    [.user (argcSp argv envp) (leBytes 8 argv.length),
      .user (argvSp argv envp) (wordsBytes (stringPtrs argv (strSp argv envp) ++ [0])),
      .user (envpSp argv envp) (wordsBytes (stringPtrs envp (envStr argv envp) ++ [0])),
      .user (auxSp argv envp) (auxBytes (auxv ehdr))])

/-- What follows the headers. -/
def tailOps (env : ElfEnv) (ehdr : Ehdr) (argv envp : List (List UInt8)) : List LoadOp :=
  stackOps (stackSize / pageSize) (stackTop - stackSize) ++
    if env.argvPtrs = false then [.fail (-enomem)]
    else if env.envpPtrs = false then stringOps argv (strSp argv envp) ++ [.fail (-enomem)]
    else frameOps ehdr argv envp

/-- The steps of `elf_load`. -/
def elfOps (env : ElfEnv) (file : Except Int (List UInt8)) (argv envp : List (List UInt8)) : List LoadOp :=
  match file with
  | .error e    => [.fail e]
  | .ok content =>
    match headerOf content with
    | none      => [.fail (-enoexec)]
    | some ehdr =>
      if env.phdrs = false then [.fail (-enomem)]
      else
        match phdrsOf content ehdr with
        | none     => [.fail (-enoexec)]
        | some phs => phdrOps content env (loadBias ehdr) phs 0 ++ tailOps env ehdr argv envp

/-! ### The load is their run

Each loop of the loader against its list of steps, by the recursion of the loop.
-/

variable {pml4 : Nat}

theorem runOps_append (ops ops' : List LoadOp) : ∀ l : Load σ, runOps pml4 (ops ++ ops') l =
    (runOps pml4 ops l).bind fun out => if out.1 < 0 then some out else runOps pml4 ops' out.2 := by
  induction ops with
  | nil =>
    intro l
    rw [List.nil_append, runOps, Option.bind_some, if_neg (Int.lt_irrefl 0)]
  | cons op ops ih =>
    intro l
    rw [List.cons_append, runOps, runOps]
    cases op.run pml4 l with
    | none => rfl
    | some out =>
      obtain ⟨r, l'⟩ := out
      simp only
      by_cases hr : r < 0
      · rw [if_pos hr, if_pos hr, Option.bind_some, if_pos hr]
      · rw [if_neg hr, if_neg hr, ih]

theorem pageOps_run (flags : Pte) (n : Nat) : ∀ (addr : Nat) (l : Load σ),
    runOps pml4 (pageOps flags n addr) l = mapPages pml4 flags n addr l := by
  induction n with
  | zero => exact fun _ _ => rfl
  | succ n ih =>
    intro addr l
    rw [pageOps, runOps, mapPages, LoadOp.run]
    by_cases hm : vmmIsMapped l.vm.mem pml4 addr = true
    · rw [if_pos hm, if_pos hm]
      exact ih _ l
    · rw [if_neg hm, if_neg hm]
      simp only
      by_cases h0 : l.vm.alloc.1 = 0
      · rw [if_pos h0, if_pos h0]
        exact if_pos (by decide)
      · rw [if_neg h0, if_neg h0]
        by_cases hr : (l.vm.alloc.2.vmmMap pml4 addr l.vm.alloc.1 flags).1 < 0
        · rw [if_pos hr, if_pos hr]
          cases pmmFree (l.vm.alloc.2.vmmMap pml4 addr l.vm.alloc.1 flags).2.pmm l.vm.alloc.1 with
          | none => rfl
          | some pmm => exact if_pos hr
        · rw [if_neg hr, if_neg hr]
          exact ih _ _

theorem copyOps_run (vaddr filesz : Nat) (buf : ByteMem) (k : Nat) : ∀ (off : Nat) (l : Load σ), filesz - off ≤ k →
    runOps pml4 (copyOps vaddr filesz buf off) l = some (writeSegment pml4 vaddr filesz buf off l) := by
  induction k with
  | zero =>
    intro off l hk
    rw [copyOps, if_neg (by omega), writeSegment, if_neg (by omega)]
    rfl
  | succ k ih =>
    intro off l hk
    rw [copyOps, writeSegment]
    by_cases hlt : off < filesz
    · have hshort := sub_written_lt hlt ((vaddr + off) % 2 ^ 64)
      rw [if_pos hlt, if_pos hlt, runOps, LoadOp.run]
      simp only
      by_cases h0 : vmmVirtToPhys l.vm.mem pml4 (alignDown ((vaddr + off) % 2 ^ 64)) = 0
      · rw [if_pos h0, if_pos h0]
        exact if_pos (by decide)
      · rw [if_neg h0, if_neg h0]
        exact ih _ _ (by omega)
    · rw [if_neg hlt, if_neg hlt]
      rfl

theorem segmentOps_run (content : List UInt8) (buf : Option ByteMem) (ph : Phdr) (bias : Nat) (l : Load σ) :
    runOps pml4 (segmentOps content buf ph bias) l = elfMapSegment pml4 content buf ph bias l := by
  unfold segmentOps
  rw [elfMapSegment]
  by_cases hsz : ph.memsz = 0
  · rw [if_pos hsz, if_pos hsz]
    rfl
  · rw [if_neg hsz, if_neg hsz, runOps_append, pageOps_run]
    cases mapPages pml4 (segFlags ph.flags) (ph.nPages bias) (alignDown (ph.start bias)) l with
    | none => rfl
    | some out =>
      obtain ⟨r, l₁⟩ := out
      simp only [Option.bind_some]
      by_cases hr : r < 0
      · rw [if_pos hr, if_pos hr]
      · rw [if_neg hr, if_neg hr]
        by_cases hfile : ph.filesz = 0
        · rw [if_pos hfile, if_pos hfile]
          rfl
        · rw [if_neg hfile, if_neg hfile]
          cases buf with
          | none =>
            rw [runOps, LoadOp.run]
            exact if_pos (by decide)
          | some junk => exact copyOps_run _ _ _ _ 0 l₁ (Nat.le_refl _)

theorem phdrOps_run (content : List UInt8) (env : ElfEnv) (bias : Nat) (phs : List Phdr) :
    ∀ (i : Nat) (l : Load σ) (g : Ranges), runOps pml4 (phdrOps content env bias phs i) l =
      (loadSegments pml4 content env bias phs i l g).map fun out => (out.1, out.2.1) := by
  induction phs with
  | nil => exact fun _ _ _ => rfl
  | cons ph phs ih =>
    intro i l g
    rw [phdrOps, loadSegments]
    by_cases htype : ph.type ≠ ptLoad
    · rw [if_pos htype, if_pos htype]
      exact ih (i + 1) l g
    · rw [if_neg htype, if_neg htype, runOps_append, segmentOps_run]
      cases elfMapSegment pml4 content (env.segment i) ph bias l with
      | none => rfl
      | some out =>
        obtain ⟨r, l₁⟩ := out
        simp only [Option.bind_some]
        by_cases hr : r < 0
        · rw [if_pos hr, if_pos hr]
          rfl
        · rw [if_neg hr, if_neg hr]
          exact ih (i + 1) l₁ _

theorem stackOps_run (n : Nat) : ∀ (p : Nat) (l : Load σ),
    runOps pml4 (stackOps n p) l = some (stackPages pml4 n p l) := by
  induction n with
  | zero => exact fun _ _ => rfl
  | succ n ih =>
    intro p l
    rw [stackOps, runOps, stackPages, LoadOp.run]
    simp only
    by_cases h0 : l.vm.alloc.1 = 0
    · rw [if_pos h0, if_pos h0]
      exact if_pos (by decide)
    · rw [if_neg h0, if_neg h0]
      exact ih _ _

theorem stringOps_run (ss : List (List UInt8)) : ∀ (ptr : Nat) (l : Load σ),
    runOps pml4 (stringOps ss ptr) l = some (0, writeStrings pml4 ss ptr l) := by
  induction ss with
  | nil => exact fun _ _ => rfl
  | cons s ss ih =>
    intro ptr l
    rw [stringOps, runOps, writeStrings, LoadOp.run]
    exact ih _ _

theorem frameOps_run (ehdr : Ehdr) (argv envp : List (List UInt8)) (l : Load σ) :
    runOps pml4 (frameOps ehdr argv envp) l = some (0, buildFrame pml4 ehdr argv envp l) := by
  rw [frameOps, runOps_append, stringOps_run, Option.bind_some, if_neg (Int.lt_irrefl 0), runOps_append, stringOps_run]
  rfl

theorem tailOps_run (env : ElfEnv) (ehdr : Ehdr) (argv envp : List (List UInt8)) (l : Load σ) :
    (runOps pml4 (tailOps env ehdr argv envp) l).map (·.2) =
      some (if (stackPages pml4 (stackSize / pageSize) (stackTop - stackSize) l).1 < 0 ∨ env.argvPtrs = false then
          (stackPages pml4 (stackSize / pageSize) (stackTop - stackSize) l).2
        else if env.envpPtrs = false then
          writeStrings pml4 argv (strSp argv envp) (stackPages pml4 (stackSize / pageSize) (stackTop - stackSize) l).2
        else buildFrame pml4 ehdr argv envp (stackPages pml4 (stackSize / pageSize) (stackTop - stackSize) l).2) := by
  rw [tailOps, runOps_append, stackOps_run, Option.bind_some]
  generalize stackPages pml4 (stackSize / pageSize) (stackTop - stackSize) l = out
  obtain ⟨r, l₁⟩ := out
  simp only
  by_cases hr : r < 0
  · rw [if_pos hr, if_pos (.inl hr)]
    rfl
  · rw [if_neg hr]
    by_cases hargv : env.argvPtrs = false
    · rw [if_pos hargv, if_pos (.inr hargv)]
      rfl
    · rw [if_neg hargv, if_neg (not_or.2 ⟨hr, hargv⟩)]
      by_cases henvp : env.envpPtrs = false
      · rw [if_pos henvp, if_pos henvp, runOps_append, stringOps_run]
        rfl
      · rw [if_neg henvp, if_neg henvp, frameOps_run]
        rfl

/-- **`elf_load` runs its steps.** -/
theorem elfLoad_run (env : ElfEnv) (file : Except Int (List UInt8)) (argv envp : List (List UInt8)) (l : Load σ) :
    (elfLoad env pml4 file argv envp l).map (·.2) = (runOps pml4 (elfOps env file argv envp) l).map (·.2) := by
  have hfail : ∀ e : Int, (runOps pml4 [.fail e] l).map (·.2) = some l := by
    intro e
    rw [runOps, LoadOp.run]
    simp only
    split <;> rfl
  -- both sides ask the same questions in the same order, and stop at the same one
  cases file with
  | error e => exact (hfail e).symm
  | ok content =>
    rw [elfLoad, elfOps]
    cases headerOf content with
    | none => exact (hfail _).symm
    | some ehdr =>
      simp only
      by_cases hmem : env.phdrs = false
      · rw [if_pos hmem, if_pos hmem]
        exact (hfail _).symm
      · rw [if_neg hmem, if_neg hmem]
        cases phdrsOf content ehdr with
        | none => exact (hfail _).symm
        | some phs =>
          simp only
          rw [runOps_append, phdrOps_run content env _ phs 0 l Ranges.empty]
          cases loadSegments pml4 content env (loadBias ehdr) phs 0 l Ranges.empty with
          | none => rfl
          | some out =>
            obtain ⟨r, l₁, g⟩ := out
            simp only [Option.map_some, Option.bind_some]
            by_cases hr : r < 0
            · rw [if_pos hr, if_pos hr]
              rfl
            · rw [if_neg hr, if_neg hr, tailOps_run]
              generalize stackPages pml4 (stackSize / pageSize) (stackTop - stackSize) l₁ = out
              obtain ⟨r₂, l₂⟩ := out
              simp only
              by_cases hr₂ : r₂ < 0
              · rw [if_pos hr₂, if_pos (.inl hr₂)]
                rfl
              · rw [if_neg hr₂]
                by_cases hargv : env.argvPtrs = false
                · rw [if_pos hargv, if_pos (.inr hargv)]
                  rfl
                · rw [if_neg hargv, if_neg (not_or.2 ⟨hr₂, hargv⟩)]
                  split <;> rfl

end

/-! ## `vmm_map` in the kernel half

There is no tree to rely on. The walk is followed level by level: what it has made is not in frame 0, and the entry
that it sets in the end is not one that it has come through.
-/

/-- The kernel half has no page of 1 GB and no table in frame 0: neither boot code nor `vmm_init` makes one. -/
structure SmallPages (m : ByteMem) (pml4 : Nat) : Prop where
  notHuge {i j t} : 256 ≤ i → i < 512 → j < 512 → tableAt m pml4 [i] = some t → isPresent (entry m t j) = true →
    isHuge (entry m t j) = false
  nonzero {p t} : IsKernel p → p ≠ [] → tableAt m pml4 p = some t → t ≠ 0

theorem SmallPages.same {m m' : ByteMem} {pml4 : Nat} (h : SmallPages m pml4) (hs : KernelSame m m' pml4) :
    SmallPages m' pml4 where
  notHuge {i j t} hlo hi hj ht hpres := by
    have hker : IsKernel [i] := by
      refine ⟨⟨by simp, by simpa using hi⟩, ?_⟩
      rintro k ⟨⟩
      exact hlo
    rw [hs.tableAt_eq hker] at ht
    have he := hs [i] t j hker ht hj (fun hnil => by cases hnil)
    rw [he] at hpres ⊢
    exact h.notHuge hlo hi hj ht hpres
  nonzero hp hne ht := h.nonzero hp hne (by rwa [hs.tableAt_eq hp] at ht)

section

variable {σ : Type} [PageAlloc σ] {vm vm' : Vm σ} {pml4 : Nat}

/-- `vmm_get_pte` has got to the table `t` at `p`, from `vm`: the tables on its way are in use and none is in frame 0;
    and it has made no table so far, or the last one is new and empty. -/
structure Descent (vm vm' : Vm σ) (pml4 : Nat) (p : List Nat) (t : Nat) : Prop where
  table   : tableAt vm'.mem pml4 p = some t
  used {q t'} : q <+: p → tableAt vm'.mem pml4 q = some t' → ¬Free vm'.pmm t'
  nonzero {q t'} : q <+: p → q ≠ [] → tableAt vm'.mem pml4 q = some t' → t' ≠ 0
  last : vm' = vm ∨ ∀ i < 512, entry vm'.mem t i = 0#64

/-- A walk reads present entries, so it does not notice that another one changes. -/
theorem tableAt_of_present {m m' : ByteMem} {p q : List Nat} {t : Nat} (hp : tableAt m pml4 p = some t) (hq : q <+: p)
    (hsame : ∀ r i r' t', p = r ++ i :: r' → tableAt m pml4 r = some t' → isPresent (entry m t' i) = true →
      entry m' t' i = entry m t' i) : tableAt m' pml4 q = tableAt m pml4 q := by
  obtain ⟨q', rfl⟩ := hq
  apply walk_congr
  rintro r i r' t' rfl ht'
  refine hsame r i (r' ++ q') t' (by simp) ht' ?_
  -- the walk went on behind that entry
  rw [List.append_assoc, List.cons_append] at hp
  rw [tableAt, walk_append, show walk nextOf (entry m) 0 pml4 r = some t' from ht', Option.bind_some, walk_cons] at hp
  obtain ⟨t₁, hnext, -⟩ := Option.bind_eq_some_iff.1 hp
  exact (nextOf_eq_some hnext).1

/-- One level of the walk. -/
theorem Descent.next {p : List Nat} {t i t' : Nat} (h : Descent vm vm' pml4 p t) (hal : pml4 % pageSize = 0)
    (hp : IsPath (p ++ [i])) (hlen : p.length ≤ 2) (hvm : TreeInv IsPath vm pml4)
    (hzero : ∀ {u}, tableAt vm.mem pml4 (p ++ [i]) = some u → u ≠ 0)
    (hsmall : p ≠ [] → isPresent (entry vm'.mem t i) = true → isHuge (entry vm'.mem t i) = false) {flags : Pte}
    (hnext : (vm'.nextTable (slot t i) true flags).1 = some t') :
    Descent vm (vm'.nextTable (slot t i) true flags).2 pml4 (p ++ [i]) t' := by
  have hi : i < 512 := hp.2 i (by simp)
  rw [Vm.nextTable] at hnext ⊢
  cases hpres : isPresent (vm'.mem.word (slot t i)) with
  | true =>
    -- the table is there, so no table has been made so far
    simp only [hpres, Bool.not_true, Bool.false_eq_true, if_false] at hnext ⊢
    obtain rfl := Option.some.inj hnext
    obtain rfl : vm' = vm := by
      refine h.last.resolve_right fun hempty => ?_
      have he : isPresent (entry vm'.mem t i) = true := hpres
      rw [hempty i hi, isPresent_zero] at he
      cases he
    have htab : tableAt vm'.mem pml4 (p ++ [i]) = some (pteAddr (entry vm'.mem t i)) := by
      rw [tableAt_snoc h.table]
      cases p with
      | nil => exact nextOf_root hpres
      | cons j p => exact nextOf_table hpres (hsmall (by simp) hpres)
    refine ⟨htab, fun {q u} hq hu => ?_, fun {q u} hq hne hu => ?_, .inl rfl⟩
    · obtain ⟨q', hq'⟩ := hq
      exact hvm.apart (IsPath.of_append (hq' ▸ hp)) hu
    · rcases List.prefix_concat_iff.1 (by simpa using hq) with rfl | hq
      · exact hzero (by simpa using hu)
      · exact h.nonzero hq hne hu
  | false =>
    simp only [hpres, Bool.not_false, Bool.not_true, Bool.false_eq_true, if_true, if_false] at hnext ⊢
    by_cases hf : vm'.alloc.1 = 0
    · rw [if_pos hf] at hnext
      cases hnext
    · rw [if_neg hf] at hnext ⊢
      obtain rfl := Option.some.inj hnext
      obtain ⟨hmem, hfree, hfree', -⟩ := alloc_frame vm' hf
      obtain ⟨-, hmod, hlt⟩ := managed_spec (managed_of_free hfree)
      obtain ⟨hp', hhuge, haddr⟩ := table_entry flags hmod hlt
      have htal : t % pageSize = 0 := tableAt_mod hal h.table
      have htf : t ≠ vm'.alloc.1 := by
        rintro rfl
        exact h.used (List.prefix_refl p) h.table hfree
      -- the entries on the way are present, so none of them is the one that is set
      have hold : ∀ {q}, q <+: p → tableAt (vm'.alloc.2.store (slot t i)
          (BitVec.ofNat 64 vm'.alloc.1 ||| ptePresent ||| pteWritable ||| (flags &&& pteUser))).mem pml4 q =
          tableAt vm'.mem pml4 q := by
        intro q hq
        refine tableAt_of_present h.table hq fun r j r' u heq hu hpr => ?_
        have hj : j < 512 := hp.2 j (by simp [heq])
        have hual := tableAt_mod hal hu
        have huf : u ≠ vm'.alloc.1 := by
          rintro rfl
          exact h.used ⟨j :: r', heq.symm⟩ hu hfree
        have hslot : (u, j) ≠ (t, i) := by
          rintro ⟨⟩
          rw [entry, hpres] at hpr
          cases hpr
        rw [Vm.store, entry_store _ hual htal hj hi hslot, hmem]
        exact agreeOff_clear.entry_eq hual hmod hj huf
      have hempty : ∀ j < 512, entry (vm'.alloc.2.store (slot t i)
          (BitVec.ofNat 64 vm'.alloc.1 ||| ptePresent ||| pteWritable ||| (flags &&& pteUser))).mem
          vm'.alloc.1 j = 0#64 := by
        intro j hj
        rw [Vm.store, entry_store _ hmod htal hj hi (fun he => htf (Prod.mk.inj he).1.symm), hmem]
        exact entry_clear_same hj
      have hnew : tableAt (vm'.alloc.2.store (slot t i)
          (BitVec.ofNat 64 vm'.alloc.1 ||| ptePresent ||| pteWritable ||| (flags &&& pteUser))).mem pml4 (p ++ [i]) =
          some vm'.alloc.1 := by
        rw [tableAt_snoc ((hold (List.prefix_refl p)).trans h.table), Vm.store, entry_store_same]
        cases p with
        | nil => rw [List.length_nil, nextOf_root hp', haddr]
        | cons j p => rw [nextOf_table hp' hhuge, haddr]
      refine ⟨hnew, fun {q u} hq hu => ?_, fun {q u} hq hne hu => ?_, .inr hempty⟩
      · rcases List.prefix_concat_iff.1 (by simpa using hq) with rfl | hq
        · obtain rfl : vm'.alloc.1 = u := Option.some.inj (hnew.symm.trans (by simpa using hu))
          exact fun hfr => ((hfree' _).1 hfr).2 rfl
        · rw [hold hq] at hu
          exact fun hfr => h.used hq hu ((hfree' _).1 hfr).1
      · rcases List.prefix_concat_iff.1 (by simpa using hq) with rfl | hq
        · obtain rfl : vm'.alloc.1 = u := Option.some.inj (hnew.symm.trans (by simpa using hu))
          exact hf
        · rw [hold hq] at hu
          exact h.nonzero hq hne hu

theorem ptPath_isPath (va : Nat) : IsPath (ptPath va) := ⟨Nat.le_refl _, fun _ hi => path_lt va (List.mem_append_left _ hi)⟩

theorem ptPath_kernel {va : Nat} (h : 256 ≤ pml4Idx va) : IsKernel (ptPath va) := by
  refine ⟨ptPath_isPath va, ?_⟩
  rintro i ⟨⟩
  exact h

/-- The entry of the page is set: the walk to it has not changed. -/
theorem Descent.leaf {va t : Nat} (h : Descent vm vm' pml4 (ptPath va) t) (hal : pml4 % pageSize = 0)
    (hun : vmmVirtToPhys vm.mem pml4 va = 0) (e : Pte) :
    tableAt (vm'.store (slot t (ptIdx va)) e).mem pml4 (ptPath va) = some t := by
  have hidx : ptIdx va < 512 := Nat.mod_lt _ (by decide)
  -- an entry of a page that is not mapped leads nowhere
  have hnowhere : isPresent (entry vm'.mem t (ptIdx va)) = true → pteAddr (entry vm'.mem t (ptIdx va)) = 0 := by
    intro hpres
    rcases h.last with rfl | hempty
    · rw [virtToPhys_leaf h.table, if_pos hpres] at hun
      omega
    · rw [hempty _ hidx, isPresent_zero] at hpres
      cases hpres
  rw [← h.table]
  refine tableAt_of_present h.table (List.prefix_refl _) fun r j r' u heq hu hpr => ?_
  have hj : j < 512 := (ptPath_isPath va).2 j (by rw [heq]; simp)
  refine entry_store _ (tableAt_mod hal hu) (tableAt_mod hal h.table) hj hidx ?_
  rintro ⟨⟩
  have hpre : r ++ [ptIdx va] <+: ptPath va := ⟨r', by rw [heq]; simp⟩
  obtain ⟨u, hu'⟩ : ∃ u, tableAt vm'.mem pml4 (r ++ [ptIdx va]) = some u := by
    have htab := h.table
    obtain ⟨r'', hr''⟩ := hpre
    rw [← hr''] at htab
    exact walk_prefix htab
  refine h.nonzero hpre (by simp) hu' ?_
  rw [tableAt_snoc hu] at hu'
  rw [← (nextOf_eq_some hu').2.1, hnowhere hpr]

/-- **`vmm_map` of a page of the kernel half** that is not mapped: where it succeeds, the page is mapped. -/
theorem vmmMap_kernel (hvm : TreeInv IsPath vm pml4) (hsmall : SmallPages vm.mem pml4) {va phys : Nat} {flags : Pte}
    (hk : 256 ≤ pml4Idx va) (hva : va % pageSize = 0) (hphys : phys % pageSize = 0) (hlt : phys < 2 ^ 52)
    (hpres : isPresent flags = true) (hflags : flags &&& 0x000FFFFFFFFFF000#64 = 0#64)
    (hun : vmmVirtToPhys vm.mem pml4 va = 0) (hr : ¬(vm.vmmMap pml4 va phys flags).1 < 0) :
    vmmVirtToPhys (vm.vmmMap pml4 va phys flags).2.mem pml4 va = phys := by
  have hal := hvm.tree.aligned
  have hpath := ptPath_isPath va
  have hker := ptPath_kernel hk
  have hneg : -enomem < 0 := by decide
  have h₀ : Descent vm vm pml4 [] pml4 := by
    refine ⟨tableAt_nil, fun {q t'} hq ht => ?_, fun hq hne _ => absurd (List.prefix_nil.1 hq) hne, .inl rfl⟩
    rw [List.prefix_nil.1 hq] at ht
    exact hvm.apart (of_user isUser_nil) ht
  rw [Vm.vmmMap, if_neg (by omega), Vm.vmmGetPte] at hr ⊢
  have d₁ : ∀ pdpt, (vm.nextTable (slot pml4 (pml4Idx va)) true flags).1 = some pdpt →
      Descent vm (vm.nextTable (slot pml4 (pml4Idx va)) true flags).2 pml4 [pml4Idx va] pdpt := fun pdpt hnext =>
    h₀.next hal (IsPath.of_append (q := [pdptIdx va, pdIdx va]) hpath) (Nat.zero_le 2) hvm
      (fun hu => hsmall.nonzero (IsKernel.of_append (q := [pdptIdx va, pdIdx va]) hker) (by simp) hu)
      (fun hne => absurd rfl hne) hnext
  generalize vm.nextTable (slot pml4 (pml4Idx va)) true flags = out at hr d₁ ⊢
  obtain ⟨_ | pdpt, vm₁⟩ := out
  · exact absurd hneg hr
  replace d₁ : Descent vm vm₁ pml4 [pml4Idx va] pdpt := d₁ pdpt rfl
  simp only at hr ⊢
  have hsmall₁ : isPresent (entry vm₁.mem pdpt (pdptIdx va)) = true → isHuge (entry vm₁.mem pdpt (pdptIdx va)) = false := by
    intro hp
    rcases d₁.last with rfl | hempty
    · exact hsmall.notHuge hk (hpath.2 _ (by simp [ptPath])) (hpath.2 _ (by simp [ptPath])) d₁.table hp
    · rw [hempty _ (hpath.2 _ (by simp [ptPath])), isPresent_zero] at hp
      cases hp
  have d₂ : ∀ pd, (vm₁.nextTable (slot pdpt (pdptIdx va)) true flags).1 = some pd →
      Descent vm (vm₁.nextTable (slot pdpt (pdptIdx va)) true flags).2 pml4 [pml4Idx va, pdptIdx va] pd := fun pd hnext =>
    d₁.next hal (IsPath.of_append (q := [pdIdx va]) hpath) (by simp) hvm
      (fun hu => hsmall.nonzero (IsKernel.of_append (q := [pdIdx va]) hker) (by simp) hu) (fun _ => hsmall₁) hnext
  generalize vm₁.nextTable (slot pdpt (pdptIdx va)) true flags = out at hr d₂ ⊢
  obtain ⟨_ | pd, vm₂⟩ := out
  · exact absurd hneg hr
  replace d₂ : Descent vm vm₂ pml4 [pml4Idx va, pdptIdx va] pd := d₂ pd rfl
  simp only at hr ⊢
  by_cases hhuge : (isPresent (vm₂.mem.word (slot pd (pdIdx va))) && isHuge (vm₂.mem.word (slot pd (pdIdx va)))) = true
  · rw [if_pos hhuge] at hr
    exact absurd hneg hr
  rw [if_neg hhuge] at hr ⊢
  -- `vmm_get_pte` itself looks for a huge page here
  have hsmall₂ : isPresent (entry vm₂.mem pd (pdIdx va)) = true → isHuge (entry vm₂.mem pd (pdIdx va)) = false := by
    intro hp
    rw [Bool.not_eq_true, Bool.and_eq_false_iff] at hhuge
    exact hhuge.resolve_left (ne_false_of_eq_true hp)
  have d₃ : ∀ pt, (vm₂.nextTable (slot pd (pdIdx va)) true flags).1 = some pt →
      Descent vm (vm₂.nextTable (slot pd (pdIdx va)) true flags).2 pml4 (ptPath va) pt := fun pt hnext =>
    d₂.next hal hpath (by simp) hvm (fun hu => hsmall.nonzero hker (List.cons_ne_nil _ _) hu) (fun _ => hsmall₂) hnext
  generalize vm₂.nextTable (slot pd (pdIdx va)) true flags = out at hr d₃ ⊢
  obtain ⟨_ | pt, vm₃⟩ := out
  · exact absurd hneg hr
  replace d₃ : Descent vm vm₃ pml4 (ptPath va) pt := d₃ pt rfl
  simp only
  rw [virtToPhys_leaf (d₃.leaf hal hun _), Vm.store, entry_store_same, if_pos (isPresent_or hpres),
    pteAddr_or hphys hlt hflags, hva, Nat.add_zero]

end

/-! ## The steps that do no harm

One lemma for each kind of step, put together in `LoadOp.goes` and, for the other direction, in
`LoadOp.harmless_of_step`.
-/

/-- The byte at physical address `x` is on a page of the user half. -/
def OnPage (m : ByteMem) (pml4 x : Nat) : Prop :=
  ∃ va, pml4Idx va < 256 ∧ va % pageSize = 0 ∧ vmmVirtToPhys m pml4 va ≠ 0 ∧ vmmVirtToPhys m pml4 va ≤ x ∧
    x < vmmVirtToPhys m pml4 va + pageSize

section

variable {σ : Type} [PageAlloc σ]

/-- `n` bytes of data from physical address `a` on are on pages of the user half. -/
def Load.OnPages (l : Load σ) (pml4 a n : Nat) : Prop := ∀ x, a ≤ x → x < a + n → OnPage l.vm.mem pml4 x

/-- What a step must meet in the state in which it is reached. A page is one of the user half, or mapped already, or no
    frame is left for it, or `vmm_map` fails there and the kernel half is translated as before. Data is copied to an
    address without a page, where nothing is written, or to frames that pages of the user half are in. -/
def LoadOp.Harmless (pml4 : Nat) (l : Load σ) : LoadOp → Prop
  | .page flags addr =>
    pml4Idx addr < 256 ∨ vmmIsMapped l.vm.mem pml4 addr = true ∨ l.vm.alloc.1 = 0 ∨
      ((l.vm.alloc.2.vmmMap pml4 addr l.vm.alloc.1 flags).1 < 0 ∧ ∀ va, 256 ≤ pml4Idx va →
        vmmVirtToPhys (l.vm.alloc.2.vmmMap pml4 addr l.vm.alloc.1 flags).2.mem pml4 va =
          vmmVirtToPhys l.vm.mem pml4 va)
  | .copy target bs | .string target bs =>
    vmmVirtToPhys l.vm.mem pml4 (alignDown target) = 0 ∨
      l.OnPages pml4 (vmmVirtToPhys l.vm.mem pml4 (alignDown target) + target % pageSize) bs.length
  | .user addr bs =>
    l.OnPages pml4 (vmmVirtToPhys l.vm.mem pml4 (alignDown addr) + addr % pageSize) bs.length
  | .stack _ | .fail _ => True

/-- In a load from `vm` on the kernel half is translated as before, and every byte of data went into a frame that was
    free before and is in use now. -/
structure Confined (vm : Vm σ) (l : Load σ) (pml4 : Nat) : Prop where
  kernel {va} : 256 ≤ pml4Idx va → vmmVirtToPhys l.vm.mem pml4 va = vmmVirtToPhys vm.mem pml4 va
  wrote {w x} : w ∈ l.wrote → w.1 ≤ x → x < w.1 + w.2 →
    ∃ f, Free vm.pmm f ∧ ¬Free l.vm.pmm f ∧ f ≤ x ∧ x < f + pageSize

/-- A step from `l` to `l'`, in a load that began at `vm`: the kernel half is translated as in `vm`, and data goes into
    frames that the load has taken from the free ones and given to pages of the program. -/
structure StepConfined (vm : Vm σ) (l l' : Load σ) (pml4 : Nat) : Prop where
  kernel {va} : 256 ≤ pml4Idx va → vmmVirtToPhys l'.vm.mem pml4 va = vmmVirtToPhys vm.mem pml4 va
  wrote {w x} : l'.wrote = w :: l.wrote → w.1 ≤ x → x < w.1 + w.2 →
    OnPage l.vm.mem pml4 x ∧ ∃ f, Free vm.pmm f ∧ ¬Free l'.vm.pmm f ∧ f ≤ x ∧ x < f + pageSize

/-! ## Keeping to the frames

The invariant of a load that has done no harm yet, and what may happen without breaking it.
-/

/-- The space was given `frames`, and data went into them only. -/
structure Kept (vm₀ : Vm σ) (l : Load σ) (pml4 : Nat) (frames : List Nat) : Prop where
  pages : Pages vm₀ l.vm pml4 frames
  wrote {w x} : w ∈ l.wrote → w.1 ≤ x → x < w.1 + w.2 → ∃ f ∈ frames, f ≤ x ∧ x < f + pageSize

/-- A step whose arguments `elf_load` can give. -/
def LoadOp.Ok : LoadOp → Prop
  | .page flags addr => isPresent flags = true ∧ flags &&& 0x000FFFFFFFFFF000#64 = 0#64 ∧ addr % pageSize = 0
  | .stack p => p < 2 ^ 47 ∧ p % pageSize = 0
  | _ => True

variable {vm₀ : Vm σ} {l l' : Load σ} {pml4 : Nat} {frames : List Nat}

theorem Kept.confined (h : Kept vm₀ l pml4 frames) : Confined vm₀ l pml4 where
  kernel := h.pages.kernel
  wrote hw hlo hhi :=
    have ⟨f, hf, hin⟩ := h.wrote hw hlo hhi
    ⟨f, h.pages.wasFree hf, h.pages.taken hf, hin⟩

/-- The frame under a byte of the user half is one that was given. -/
theorem Kept.onPage (h : Kept vm₀ l pml4 frames) {x : Nat} (hx : OnPage l.vm.mem pml4 x) :
    ∃ f ∈ frames, f ≤ x ∧ x < f + pageSize := by
  obtain ⟨va, hu, hal, hne, hin⟩ := hx
  exact ⟨_, h.pages.frameOf hu hal hne, hin⟩

/-- The machine changes, and no data is written. -/
theorem Kept.withVm (h : Kept vm₀ l pml4 frames) {vm : Vm σ} {frames' : List Nat} (hpages : Pages vm₀ vm pml4 frames')
    (hsub : frames ⊆ frames') : Kept vm₀ { l with vm } pml4 frames' where
  pages := hpages
  wrote hw hlo hhi :=
    have ⟨f, hf, hin⟩ := h.wrote hw hlo hhi
    ⟨f, hsub hf, hin⟩

/-- A step without data. -/
theorem Kept.quiet (h : Kept vm₀ l' pml4 frames) (hsame : l'.wrote = l.wrote) : StepConfined vm₀ l l' pml4 where
  kernel := h.pages.kernel
  wrote {w x} heq := by
    rw [hsame] at heq
    exact absurd heq (List.cons_ne_self _ _).symm

end

/-- A write to frames of the space, byte after byte. -/
theorem pages_write {σ : Type} [PageAlloc σ] {vm₀ : Vm σ} {pml4 : Nat} {frames : List Nat} (bs : List UInt8) :
    ∀ (a : Nat) (vm : Vm σ), Pages vm₀ vm pml4 frames →
    (∀ x, a ≤ x → x < a + bs.length → ∃ f ∈ frames, f ≤ x ∧ x < f + pageSize) →
    Pages vm₀ { vm with mem := vm.mem.write a bs } pml4 frames := by
  induction bs with
  | nil =>
    intro a vm h _
    rw [ByteMem.write_nil]
    exact h
  | cons b bs ih =>
    intro a vm h hin
    rw [List.length_cons] at hin
    obtain ⟨f, hf, hlo, hhi⟩ := hin a (Nat.le_refl a) (by omega)
    have hone : a + [b].length ≤ f + pageSize := hhi
    obtain ⟨hpages, -⟩ := h.ofAgree hf (agreeOff_write hlo hone)
    rw [← ByteMem.write_cons]
    exact ih (a + 1) { vm with mem := vm.mem.write a [b] } hpages fun x hle hlt => hin x (by omega) (by omega)

section

variable {σ : Type} [PageAlloc σ] {vm₀ : Vm σ} {l : Load σ} {pml4 : Nat} {frames : List Nat}

/-- **Data on pages of the user half.** -/
theorem Kept.memcpy (h : Kept vm₀ l pml4 frames) {pa : Nat} {bs : List UInt8} (hin : l.OnPages pml4 pa bs.length) :
    Kept vm₀ (l.memcpy pa bs) pml4 frames ∧ StepConfined vm₀ l (l.memcpy pa bs) pml4 := by
  have hframes : ∀ x, pa ≤ x → x < pa + bs.length → ∃ f ∈ frames, f ≤ x ∧ x < f + pageSize :=
    fun x hlo hhi => h.onPage (hin x hlo hhi)
  have hpages := pages_write bs pa l.vm h.pages hframes
  refine ⟨⟨hpages, fun {w x} hw hlo hhi => ?_⟩, ⟨hpages.kernel, fun {w x} heq hlo hhi => ?_⟩⟩
  · rcases List.mem_cons.1 hw with rfl | hw
    · exact hframes x hlo hhi
    · exact h.wrote hw hlo hhi
  · obtain rfl : (pa, bs.length) = w := (List.cons.inj heq).1
    obtain ⟨f, hf, hx⟩ := hframes x hlo hhi
    exact ⟨hin x hlo hhi, f, hpages.wasFree hf, hpages.taken hf, hx⟩

/-- What a step that does no harm comes to: it keeps to its frames, and unless it fails the load goes on so. -/
def Goes (vm₀ : Vm σ) (l : Load σ) (pml4 : Nat) (out : Option (Int × Load σ)) : Prop :=
  ∃ r l', out = some (r, l') ∧ Confined vm₀ l' pml4 ∧ StepConfined vm₀ l l' pml4 ∧
    (¬r < 0 → ∃ frames, Kept vm₀ l' pml4 frames)

theorem Kept.goes {l' : Load σ} (h : Kept vm₀ l' pml4 frames) (hs : StepConfined vm₀ l l' pml4) (r : Int) :
    Goes vm₀ l pml4 (some (r, l')) := ⟨r, l', rfl, h.confined, hs, fun _ => ⟨frames, h⟩⟩

/-- A step that changes the machine and writes no data. -/
theorem Kept.goesVm (h : Kept vm₀ l pml4 frames) {vm : Vm σ} {frames' : List Nat} (hpages : Pages vm₀ vm pml4 frames')
    (hsub : frames ⊆ frames') (r : Int) : Goes vm₀ l pml4 (some (r, { l with vm })) := by
  have hk := h.withVm hpages hsub
  have hs : StepConfined vm₀ l { l with vm } pml4 := hk.quiet rfl
  exact hk.goes hs r

/-! ## Each kind of step

A page of the user half is mapped to a frame that was free; a page of the kernel half does no harm only if the call
ends with it; data on pages of the space stays in its frames.
-/

/-- **The page of a segment** in the user half. -/
theorem user_page_goes (h : Kept vm₀ l pml4 frames) {flags : Pte} {addr : Nat} (hu : pml4Idx addr < 256)
    (hal : addr % pageSize = 0) (hpres : isPresent flags = true) (hflags : flags &&& 0x000FFFFFFFFFF000#64 = 0#64)
    (h0 : l.vm.alloc.1 ≠ 0) : Goes vm₀ l pml4
      (if (l.vm.alloc.2.vmmMap pml4 addr l.vm.alloc.1 flags).1 < 0 then
        (pmmFree (l.vm.alloc.2.vmmMap pml4 addr l.vm.alloc.1 flags).2.pmm l.vm.alloc.1).map fun pmm =>
          ((l.vm.alloc.2.vmmMap pml4 addr l.vm.alloc.1 flags).1,
            { l with vm := { (l.vm.alloc.2.vmmMap pml4 addr l.vm.alloc.1 flags).2 with pmm } })
      else some (0, { l with vm := (l.vm.alloc.2.vmmMap pml4 addr l.vm.alloc.1 flags).2 })) := by
  obtain ⟨hnew, hpages, -, hmap⟩ := h.pages.allocMap hu hal flags hpres hflags h0
  generalize l.vm.alloc.2.vmmMap pml4 addr l.vm.alloc.1 flags = out at hpages hmap ⊢
  obtain ⟨r, vm⟩ := out
  simp only at hpages hmap ⊢
  cases hmap with
  | mapped _ _ =>
    rw [if_neg (Int.lt_irrefl 0)]
    exact h.goesVm hpages (List.subset_cons_self _ _) 0
  | noTable _ hun _ =>
    obtain ⟨s, hs, hpages⟩ := hpages.release hnew hun
    rw [if_pos (by decide), hs]
    exact h.goesVm hpages (List.Subset.refl _) _

/-- The page of a segment in the kernel half, where `vmm_map` fails: the call ends. -/
theorem kernel_page_goes (h : Kept vm₀ l pml4 frames) {flags : Pte} {addr : Nat} (h0 : l.vm.alloc.1 ≠ 0)
    (hr : (l.vm.alloc.2.vmmMap pml4 addr l.vm.alloc.1 flags).1 < 0)
    (hsame : ∀ va, 256 ≤ pml4Idx va →
      vmmVirtToPhys (l.vm.alloc.2.vmmMap pml4 addr l.vm.alloc.1 flags).2.mem pml4 va =
        vmmVirtToPhys l.vm.mem pml4 va) : Goes vm₀ l pml4
      ((pmmFree (l.vm.alloc.2.vmmMap pml4 addr l.vm.alloc.1 flags).2.pmm l.vm.alloc.1).map fun pmm =>
        ((l.vm.alloc.2.vmmMap pml4 addr l.vm.alloc.1 flags).1,
          { l with vm := { (l.vm.alloc.2.vmmMap pml4 addr l.vm.alloc.1 flags).2 with pmm } })) := by
  obtain ⟨-, -, hfree', -⟩ := alloc_frame l.vm h0
  have hnew := (h.pages.alloc_new h0).1
  have htaken : ¬Free (l.vm.alloc.2.vmmMap pml4 addr l.vm.alloc.1 flags).2.pmm l.vm.alloc.1 :=
    fun hf => ((hfree' _).1 (vmmMap_free hf)).2 rfl
  have hless : ∀ {f}, Free (l.vm.alloc.2.vmmMap pml4 addr l.vm.alloc.1 flags).2.pmm f → Free l.vm.pmm f :=
    fun hf => ((hfree' _).1 (vmmMap_free hf)).1
  cases hfree : pmmFree (l.vm.alloc.2.vmmMap pml4 addr l.vm.alloc.1 flags).2.pmm l.vm.alloc.1 with
  | none => exact absurd (free_none.1 hfree) htaken
  | some pmm =>
    obtain ⟨-, hs⟩ := free_some hfree
    have hk : ∀ {va}, 256 ≤ pml4Idx va →
        vmmVirtToPhys (l.vm.alloc.2.vmmMap pml4 addr l.vm.alloc.1 flags).2.mem pml4 va =
          vmmVirtToPhys vm₀.mem pml4 va := fun hva => (hsame _ hva).trans (h.pages.kernel hva)
    refine ⟨_, _, rfl, ⟨hk, fun {w x} hw hlo hhi => ?_⟩, ⟨hk, fun {w x} heq => ?_⟩, fun hr' => absurd hr hr'⟩
    · obtain ⟨f, hf, hin⟩ := h.wrote hw hlo hhi
      refine ⟨f, h.pages.wasFree hf, fun hfr => ?_, hin⟩
      rcases (hs f).1 hfr with hfr | ⟨rfl, -⟩
      · exact h.pages.taken hf (hless hfr)
      · exact hnew hf
    · exact absurd heq (List.cons_ne_self _ _).symm

/-- **A step that does no harm** keeps to the frames of the load. -/
theorem LoadOp.goes (h : Kept vm₀ l pml4 frames) {op : LoadOp} (hok : op.Ok) (hop : op.Harmless pml4 l) :
    Goes vm₀ l pml4 (op.run pml4 l) := by
  have hstay : ∀ r, Goes vm₀ l pml4 (some (r, l)) := h.goes (h.quiet rfl)
  cases op with
  | page flags addr =>
    obtain ⟨hpres, hflags, hal⟩ := hok
    rw [LoadOp.run]
    by_cases hm : vmmIsMapped l.vm.mem pml4 addr = true
    · rw [if_pos hm]
      exact hstay 0
    · rw [if_neg hm]
      by_cases h0 : l.vm.alloc.1 = 0
      · rw [if_pos h0]
        exact h.goesVm (h.pages.allocNone h0) (List.Subset.refl _) _
      · rw [if_neg h0]
        -- the page has to be made and there is a frame, so it is in the user half or the kernel half is kept
        rcases hop with hu | hmapped | hnone | ⟨hr, hsame⟩
        · exact user_page_goes h hu hal hpres hflags h0
        · exact absurd hmapped hm
        · exact absurd hnone h0
        · simp only
          rw [if_pos hr]
          exact kernel_page_goes h h0 hr hsame
  | copy target bs =>
    rw [LoadOp.run]
    split
    next => exact hstay _
    next h0 =>
      obtain ⟨hk, hs⟩ := h.memcpy (hop.resolve_left h0)
      exact hk.goes hs 0
  | stack p =>
    rw [LoadOp.run]
    split
    next h0 =>
      exact h.goesVm (h.pages.allocNone h0) (List.Subset.refl _) _
    next h0 =>
      obtain ⟨-, hpages, -⟩ := h.pages.allocMap (pml4Idx_lt hok.1) hok.2 vmmUserRw (by decide) (by decide) h0
      exact h.goesVm hpages (List.subset_cons_self _ _) 0
  | string ptr bs =>
    rw [LoadOp.run]
    split
    next => exact hstay _
    next h0 =>
      obtain ⟨hk, hs⟩ := h.memcpy (hop.resolve_left h0)
      exact hk.goes hs 0
  | user addr bs =>
    obtain ⟨hk, hs⟩ := h.memcpy hop
    exact hk.goes hs 0
  | fail e => exact hstay e

/-- A step of the last loop over data: what it wrote was on pages of the user half. -/
theorem StepConfined.onPages {pa : Nat} {bs : List UInt8} (hs : StepConfined vm₀ l (l.memcpy pa bs) pml4) :
    l.OnPages pml4 pa bs.length := fun _ hlo hhi => (hs.wrote rfl hlo hhi).1

/-- **A step that does harm** does not keep to the frames of the load. -/
theorem LoadOp.harmless_of_step (h : Kept vm₀ l pml4 frames) (hsmall : SmallPages vm₀.mem pml4) {op : LoadOp}
    (hok : op.Ok) {r : Int} {l' : Load σ} (hrun : op.run pml4 l = some (r, l')) (hs : StepConfined vm₀ l l' pml4) :
    op.Harmless pml4 l := by
  cases op with
  | page flags addr =>
    obtain ⟨hpres, hflags, hal⟩ := hok
    rw [LoadOp.run] at hrun
    by_cases hu : pml4Idx addr < 256
    · exact .inl hu
    by_cases hm : vmmIsMapped l.vm.mem pml4 addr = true
    · exact .inr (.inl hm)
    by_cases h0 : l.vm.alloc.1 = 0
    · exact .inr (.inr (.inl h0))
    rw [if_neg hm, if_neg h0] at hrun
    simp only at hrun
    have hk : 256 ≤ pml4Idx addr := Nat.le_of_not_lt hu
    by_cases hr : (l.vm.alloc.2.vmmMap pml4 addr l.vm.alloc.1 flags).1 < 0
    · rw [if_pos hr, Option.map_eq_some_iff] at hrun
      obtain ⟨pmm, -, heq⟩ := hrun
      obtain ⟨-, rfl⟩ := Prod.mk.inj heq
      exact .inr (.inr (.inr ⟨hr, fun va hva => (hs.kernel hva).trans (h.pages.kernel hva).symm⟩))
    · -- the page is mapped now, and was not before
      rw [if_neg hr] at hrun
      obtain ⟨-, rfl⟩ := Prod.mk.inj (Option.some.inj hrun)
      obtain ⟨hpages, hsame, -⟩ := h.pages.alloc h0
      obtain ⟨h0', hfal, hlt⟩ := hpages.frame_spec List.mem_cons_self
      have hun : vmmVirtToPhys l.vm.mem pml4 addr = 0 := by simpa [vmmIsMapped] using hm
      have hmap := vmmMap_kernel hpages.inv (hsmall.same hpages.upper) hk hal hfal hlt hpres hflags
        ((hsame addr).trans hun) hr
      have hsame' := (hs.kernel hk).trans (h.pages.kernel hk).symm
      rw [hun] at hsame'
      exact absurd (hmap.symm.trans hsame') h0'
  | copy target bs =>
    rw [LoadOp.run] at hrun
    split at hrun
    next h0 => exact .inl h0
    next =>
      obtain ⟨-, rfl⟩ := Prod.mk.inj (Option.some.inj hrun)
      exact .inr hs.onPages
  | stack p => trivial
  | string ptr bs =>
    rw [LoadOp.run] at hrun
    obtain ⟨-, rfl⟩ := Prod.mk.inj (Option.some.inj hrun)
    by_cases h0 : vmmVirtToPhys l.vm.mem pml4 (alignDown ptr) = 0
    · exact .inl h0
    · rw [if_neg h0] at hs
      exact .inr hs.onPages
  | user addr bs =>
    obtain ⟨-, rfl⟩ := Prod.mk.inj (Option.some.inj hrun)
    exact hs.onPages
  | fail e => trivial

/-! ## The whole load

The two directions for any list of steps.
-/

/-- **A run whose steps do no harm** returns, and keeps to its frames. -/
theorem runOps_confined (ops : List LoadOp) : ∀ (l : Load σ) (frames : List Nat), (∀ op ∈ ops, op.Ok) →
    Kept vm₀ l pml4 frames → (∀ op l₁, Reached pml4 ops l op l₁ → op.Harmless pml4 l₁) →
    (∃ r l', runOps pml4 ops l = some (r, l') ∧ Confined vm₀ l' pml4) ∧
    ∀ op l₁, Reached pml4 ops l op l₁ → ∃ r l', op.run pml4 l₁ = some (r, l') ∧ StepConfined vm₀ l₁ l' pml4 := by
  induction ops with
  | nil => exact fun l frames _ h _ => ⟨⟨0, l, rfl, h.confined⟩, fun op l₁ hreach => by cases hreach⟩
  | cons op ops ih =>
    intro l frames hok h hall
    obtain ⟨r, l', hrun, hc, hs, hnext⟩ := LoadOp.goes h (hok op List.mem_cons_self) (hall op l .head)
    by_cases hr : r < 0
    · refine ⟨⟨r, l', ?_, hc⟩, fun op₁ l₁ hreach => ?_⟩
      · rw [runOps, hrun]
        exact if_pos hr
      · cases hreach with
        | head => exact ⟨r, l', hrun, hs⟩
        | tail hrun' hr' _ =>
          obtain ⟨rfl, -⟩ := Prod.mk.inj (Option.some.inj (hrun.symm.trans hrun'))
          exact absurd hr hr'
    · obtain ⟨frames', h'⟩ := hnext hr
      obtain ⟨⟨r₂, l₂, hrest, hc₂⟩, hsteps⟩ := ih l' frames' (fun op₁ hmem => hok op₁ (List.mem_cons_of_mem _ hmem)) h'
        fun op₁ l₁ hreach => hall op₁ l₁ (.tail hrun hr hreach)
      refine ⟨⟨r₂, l₂, ?_, hc₂⟩, fun op₁ l₁ hreach => ?_⟩
      · rw [runOps, hrun]
        exact (if_neg hr).trans hrest
      · cases hreach with
        | head => exact ⟨r, l', hrun, hs⟩
        | tail hrun' _ hreach =>
          obtain ⟨-, rfl⟩ := Prod.mk.inj (Option.some.inj (hrun.symm.trans hrun'))
          exact hsteps op₁ l₁ hreach

/-- **A run whose steps keep to the frames** does no harm. -/
theorem runOps_harmless (hsmall : SmallPages vm₀.mem pml4) (ops : List LoadOp) : ∀ (l : Load σ) (frames : List Nat),
    (∀ op ∈ ops, op.Ok) → Kept vm₀ l pml4 frames →
    (∀ op l₁, Reached pml4 ops l op l₁ → ∃ r l', op.run pml4 l₁ = some (r, l') ∧ StepConfined vm₀ l₁ l' pml4) →
    ∀ op l₁, Reached pml4 ops l op l₁ → op.Harmless pml4 l₁ := by
  induction ops with
  | nil => exact fun l frames _ _ _ op l₁ hreach => by cases hreach
  | cons op ops ih =>
    intro l frames hok h hall op₁ l₁ hreach
    obtain ⟨r, l', hrun, hs⟩ := hall op l .head
    have hop := LoadOp.harmless_of_step h hsmall (hok op List.mem_cons_self) hrun hs
    cases hreach with
    | head => exact hop
    | tail hrun' hr hreach =>
      obtain ⟨r₂, l₂, hrun₂, -, -, hnext⟩ := LoadOp.goes h (hok op List.mem_cons_self) hop
      obtain ⟨rfl, rfl⟩ := Prod.mk.inj (Option.some.inj (hrun₂.symm.trans hrun'))
      obtain ⟨frames', h'⟩ := hnext hr
      exact ih _ frames' (fun op₁ hmem => hok op₁ (List.mem_cons_of_mem _ hmem)) h'
        (fun op₂ l₂ hreach₂ => hall op₂ l₂ (.tail hrun' hr hreach₂)) op₁ l₁ hreach

end

/-! ### The steps of `elf_load` have arguments it can give

Lengths and flags of the listed steps are such as the loader gives; the lemmas about steps ask for this.
-/

theorem pageOps_ok {flags : Pte} (hpres : isPresent flags = true) (hflags : flags &&& 0x000FFFFFFFFFF000#64 = 0#64)
    (n : Nat) : ∀ addr, addr % pageSize = 0 → ∀ op ∈ pageOps flags n addr, op.Ok := by
  induction n with
  | zero => exact fun _ _ op hop => by cases hop
  | succ n ih =>
    intro addr hal op hop
    rcases List.mem_cons.1 hop with rfl | hop
    · exact ⟨hpres, hflags, hal⟩
    · refine ih _ ?_ op hop
      rw [pageSize] at *
      omega

theorem copyOps_ok (vaddr filesz : Nat) (buf : ByteMem) (k : Nat) : ∀ off, filesz - off ≤ k →
    ∀ op ∈ copyOps vaddr filesz buf off, op.Ok := by
  induction k with
  | zero =>
    intro off hk op hop
    rw [copyOps, if_neg (by omega)] at hop
    cases hop
  | succ k ih =>
    intro off hk op hop
    rw [copyOps] at hop
    split at hop
    next hlt =>
      have hshort := sub_written_lt hlt ((vaddr + off) % 2 ^ 64)
      rcases List.mem_cons.1 hop with rfl | hop
      · trivial
      · exact ih _ (by omega) op hop
    next => cases hop

theorem segmentOps_ok (content : List UInt8) (buf : Option ByteMem) (ph : Phdr) (bias : Nat) :
    ∀ op ∈ segmentOps content buf ph bias, op.Ok := by
  obtain ⟨hpres, hflags⟩ := segFlags_spec ph.flags
  unfold segmentOps
  intro op hop
  split at hop
  next => cases hop
  next =>
    rcases List.mem_append.1 hop with hop | hop
    · exact pageOps_ok hpres hflags _ _ (alignDown_mod _) op hop
    · split at hop
      next => cases hop
      next =>
        cases buf with
        | none =>
          obtain rfl := List.mem_singleton.1 hop
          trivial
        | some junk => exact copyOps_ok _ _ _ _ 0 (Nat.le_refl _) op hop

theorem phdrOps_ok (content : List UInt8) (env : ElfEnv) (bias : Nat) (phs : List Phdr) :
    ∀ i, ∀ op ∈ phdrOps content env bias phs i, op.Ok := by
  induction phs with
  | nil => exact fun _ op hop => by cases hop
  | cons ph phs ih =>
    intro i op hop
    rw [phdrOps] at hop
    split at hop
    next => exact ih (i + 1) op hop
    next =>
      rcases List.mem_append.1 hop with hop | hop
      · exact segmentOps_ok content (env.segment i) ph bias op hop
      · exact ih (i + 1) op hop

theorem stackOps_ok (n : Nat) : ∀ p, p % pageSize = 0 → p + n * pageSize ≤ 2 ^ 47 → ∀ op ∈ stackOps n p, op.Ok := by
  induction n with
  | zero => exact fun _ _ _ op hop => by cases hop
  | succ n ih =>
    intro p hal hhi op hop
    have hp := page_user hhi (Nat.succ_pos n)
    rcases List.mem_cons.1 hop with rfl | hop
    · exact ⟨by omega, hal⟩
    · refine ih _ ?_ ?_ op hop
      · rw [Nat.add_mod_right, hal]
      · rw [Nat.succ_mul] at hhi
        omega

theorem stringOps_ok (ss : List (List UInt8)) : ∀ ptr, ∀ op ∈ stringOps ss ptr, op.Ok := by
  induction ss with
  | nil => exact fun _ op hop => by cases hop
  | cons s ss ih =>
    intro ptr op hop
    rcases List.mem_cons.1 hop with rfl | hop
    · trivial
    · exact ih _ op hop

theorem frameOps_ok (ehdr : Ehdr) (argv envp : List (List UInt8)) : ∀ op ∈ frameOps ehdr argv envp, op.Ok := by
  intro op hop
  rcases List.mem_append.1 hop with hop | hop
  · exact stringOps_ok argv _ op hop
  · rcases List.mem_append.1 hop with hop | hop
    · exact stringOps_ok envp _ op hop
    · simp only [List.mem_cons, List.not_mem_nil, or_false] at hop
      rcases hop with rfl | rfl | rfl | rfl <;> trivial

theorem tailOps_ok (env : ElfEnv) (ehdr : Ehdr) (argv envp : List (List UInt8)) :
    ∀ op ∈ tailOps env ehdr argv envp, op.Ok := by
  intro op hop
  rw [tailOps] at hop
  rcases List.mem_append.1 hop with hop | hop
  · exact stackOps_ok _ _ (by decide) (by decide) op hop
  · split at hop
    next =>
      obtain rfl := List.mem_singleton.1 hop
      trivial
    next =>
      split at hop
      next =>
        rcases List.mem_append.1 hop with hop | hop
        · exact stringOps_ok argv _ op hop
        · obtain rfl := List.mem_singleton.1 hop
          trivial
      next => exact frameOps_ok ehdr argv envp op hop

theorem elfOps_ok (env : ElfEnv) (file : Except Int (List UInt8)) (argv envp : List (List UInt8)) :
    ∀ op ∈ elfOps env file argv envp, op.Ok := by
  have hfail : ∀ e : Int, ∀ op ∈ [LoadOp.fail e], op.Ok := by
    intro e op hop
    obtain rfl := List.mem_singleton.1 hop
    trivial
  cases file with
  | error e => exact hfail e
  | ok content =>
    rw [elfOps]
    cases headerOf content with
    | none => exact hfail _
    | some ehdr =>
      simp only
      split
      next => exact hfail _
      next =>
        cases phdrsOf content ehdr with
        | none => exact hfail _
        | some phs =>
          intro op hop
          rcases List.mem_append.1 hop with hop | hop
          · exact phdrOps_ok content env _ phs 0 op hop
          · exact tailOps_ok env ehdr argv envp op hop

/-! ### A new space

The load starts with `vmm_create_space`, whose PML4 has the kernel half of the kernel.
-/

section

variable {σ : Type} [PageAlloc σ]

/-- The call returns and keeps to its frames, and so does each of its steps. -/
def LoadConfined (env : ElfEnv) (vm : Vm σ) (pml4 : Nat) (file : Except Int (List UInt8))
    (argv envp : List (List UInt8)) : Prop :=
  (∃ r l, elfLoad env pml4 file argv envp ⟨vm, []⟩ = some (r, l) ∧ Confined vm l pml4) ∧
  ∀ op l, Reached pml4 (elfOps env file argv envp) ⟨vm, []⟩ op l →
    ∃ r l', op.run pml4 l = some (r, l') ∧ StepConfined vm l l' pml4

/-- A new space has the kernel half of the kernel. -/
theorem SmallPages.newSpace {vm : Vm σ} {kernelPml4 : Nat} {kzalloc : Bool} (hk : KernelTables vm kernelPml4)
    (hspace : (vm.vmmCreateSpace kernelPml4 kzalloc).1 ≠ 0) (hsmall : SmallPages vm.mem kernelPml4) :
    SmallPages (vm.vmmCreateSpace kernelPml4 kzalloc).2.mem (vm.vmmCreateSpace kernelPml4 kzalloc).1 := by
  obtain ⟨hf, heq⟩ := vmmCreateSpace_eq hspace
  obtain ⟨-, hfree, -, -⟩ := alloc_frame vm hf
  obtain ⟨-, hal, -⟩ := managed_spec (managed_of_free hfree)
  rw [heq]
  have htab := fun {p t} => newSpace_tableAt hk hf (p := p) (t := t) rfl
  obtain ⟨hagree, -, -⟩ := newSpace_mem hk hf rfl
  constructor
  · intro i j t hlo hi hj ht hpres
    rcases htab ⟨by simp, by simpa using hi⟩ ht with ⟨hnil, -⟩ | ⟨-, hker, ht⟩
    · cases hnil
    · have hne : t ≠ vm.alloc.1 := by
        rintro rfl
        exact hk.used hker ht hfree
      simp only at hpres ⊢
      rw [hagree.entry_eq (tableAt_mod hk.aligned ht) hal hj hne] at hpres ⊢
      exact hsmall.notHuge hlo hi hj ht hpres
  · intro p t hp hne ht
    rcases htab hp.1 ht with ⟨hnil, -⟩ | ⟨-, hker, ht⟩
    · exact absurd hnil hne
    · exact hsmall.nonzero hker hne ht

omit [PageAlloc σ] in
/-- Data within a page of the user half. -/
theorem onPages_user {l : Load σ} {pml4 va n : Nat} (hu : pml4Idx va < 256)
    (hne : vmmVirtToPhys l.vm.mem pml4 (alignDown va) ≠ 0) (hlen : InPage va n) :
    l.OnPages pml4 (vmmVirtToPhys l.vm.mem pml4 (alignDown va) + va % pageSize) n := by
  intro x hlo hhi
  rw [InPage] at hlen
  refine ⟨alignDown va, ?_, alignDown_mod va, hne, by omega, by omega⟩
  rwa [pml4Idx_of_path (path_alignDown va)]

end

theorem directMap_small : SmallPages directMap 0x1000 where
  notHuge {i j t} _ hi hj ht hpres := by
    rcases directMap_walk ⟨by simp, by simpa using hi⟩ ht with ⟨hnil, -⟩ | ⟨-, rfl⟩ | ⟨hnil, -⟩
    · cases hnil
    · by_cases h0 : j = 0
      · subst h0
        decide +kernel
      · rw [directMap_entry (.inr (.inl ⟨rfl, h0⟩)) hj] at hpres
        cases hpres
    · cases hnil
  nonzero hp _ ht := by
    rcases directMap_walk hp.1 ht with ⟨-, rfl⟩ | ⟨-, rfl⟩ | ⟨-, rfl⟩ <;> decide

/-! ## Two files

One that is confined because there is no frame for the page that it must not have, and one that writes to the kernel's
tables.
-/

/-- Nine frames, of which five are free: enough for a space with one page. -/
def nineFrames : SoundPmm :=
  ⟨{ bitmap := fun _ => 15#64, totalPages := 9, freePages := 5#64, usedPages := 4#64, allocHint := 0 },
    fun _ => by decide, by decide, ⟨by decide, by decide +kernel, by decide, by decide⟩⟩

/-- A page of text at `0x400000`. -/
def textSegment : Phdr := ⟨ptLoad, 5, 0, 0x400000, 16, 16⟩

/-- A page of zeroes in the kernel half. -/
def upperSegment : Phdr := ⟨ptLoad, 6, 0, 0xFFFFFFFF90000000, 0, 1⟩

/-- A file with both segments. -/
def textFile : List UInt8 := elfFile 0x400000 [textSegment, upperSegment]

/-- The first 16 bytes of the file, as the buffer of the text has them. -/
def textBytes : List UInt8 := (segmentBuf textFile textSegment fun _ => 0).read 0 16

/-- The steps of its load, up to the page in the kernel half. -/
theorem textFile_ops (argv envp : List (List UInt8)) : ∃ ops, elfOps plenty (.ok textFile) argv envp =
    .page (segFlags 5) 0x400000 :: .copy 0x400000 textBytes :: .page (segFlags 6) 0xFFFFFFFF90000000 :: ops := by
  have hhead : headerOf textFile = some ⟨2, 0x400000, 64, 56, 2⟩ := by decide +kernel
  have hphdrs : phdrsOf textFile ⟨2, 0x400000, 64, 56, 2⟩ = some [textSegment, upperSegment] := by decide +kernel
  have hlast : ∀ buf, copyOps 0x400000 16 buf 16 = [] := by
    intro buf
    rw [copyOps, if_neg (by decide)]
  have hcopy : ∀ buf, copyOps 0x400000 16 buf 0 = [.copy 0x400000 (buf.read 0 16)] := by
    intro buf
    rw [copyOps, if_pos (by decide)]
    exact congrArg _ (hlast buf)
  have htext : segmentOps textFile (plenty.segment 0) textSegment 0 =
      [.page (segFlags 5) 0x400000, .copy 0x400000 textBytes] := by
    unfold segmentOps
    rw [if_neg (by decide), if_neg (by decide)]
    exact congrArg _ (hcopy _)
  have hupper : segmentOps textFile (plenty.segment 1) upperSegment 0 =
      [.page (segFlags 6) 0xFFFFFFFF90000000] := by
    unfold segmentOps
    rw [if_neg (by decide), if_pos (by decide)]
    rfl
  refine ⟨tailOps plenty ⟨2, 0x400000, 64, 56, 2⟩ argv envp, ?_⟩
  rw [elfOps]
  simp only [hhead, hphdrs]
  rw [if_neg (by decide), phdrOps, if_neg (by decide), phdrOps, if_neg (by decide), show loadBias _ = 0 from rfl, htext,
    hupper]
  rfl

/-- After the text no frame is left. -/
theorem textFile_full : (runOps 0x4000 [.page (segFlags 5) 0x400000, .copy 0x400000 textBytes]
      ⟨((directVm nineFrames).vmmCreateSpace 0x1000 true).2, []⟩).map
    (fun out => (out.2.vm.alloc.1, vmmIsMapped out.2.vm.mem 0x4000 0xFFFFFFFF90000000)) = some (0, false) := by
  decide +kernel

/-- A segment on the page of the kernel's PML4, in the direct map. -/
def kernelSegment : Phdr := ⟨ptLoad, 4, 0, 0xFFFF800000001000, 1, 1⟩

end MyUnix.Elf
