import MyUnix.Proc.Elf

/-!
# `Proc.ElfPages` — where a load writes

`elf_load` on a new space: as long as the headers name pages of the user half, or pages of the kernel half that are
there already and get no data, every frame it maps is one that was free before, and all its data goes into such frames
(`Loaded`). Each loop keeps this: the one that maps the pages of a segment, the one that fills them, the one that maps
the stack, and the writes of the frame, if the stack is large enough and no array of the frame leaves its page.

`Loaded` is the invariant of a whole load: which frames it took, and that its data is in them. What keeps the data
there is that a byte is written only where a page of the program is mapped, to a frame of its own. A file decides what
its headers name, so the condition is on the headers, one after the other, each with those before it already loaded.
-/

namespace MyUnix.Elf

open Lib Mm PageAlloc PathClass

theorem segFlags_spec (flags : Nat) :
    isPresent (segFlags flags) = true ∧ segFlags flags &&& 0x000FFFFFFFFFF000#64 = 0#64 := by
  rw [segFlags]
  split <;> split <;> decide

/-- The page with the number `i` from `addr` on, in 64 bits. -/
def pageFrom (addr i : Nat) : Nat := (addr + i * pageSize) % 2 ^ 64

theorem pageFrom_succ (addr i : Nat) : pageFrom ((addr + pageSize) % 2 ^ 64) i = pageFrom addr (i + 1) := by
  rw [pageFrom, pageFrom, Nat.mod_add_mod, Nat.succ_mul, Nat.add_assoc, Nat.add_comm pageSize]

theorem pageFrom_zero {addr : Nat} (h : addr < 2 ^ 64) : pageFrom addr 0 = addr := by
  rw [pageFrom, Nat.zero_mul, Nat.add_zero, Nat.mod_eq_of_lt h]

section

variable {σ : Type} [PageAlloc σ]

/-- The load keeps to frames that were free in `vm₀`: those that it took for pages are `frames`, and its data went into
    them only. -/
structure Loaded (vm₀ : Vm σ) (l : Load σ) (pml4 : Nat) (frames : List Nat) : Prop where
  pages : Pages vm₀ l.vm pml4 frames
  wrote : ∀ w ∈ l.wrote, ∃ f ∈ frames, f ≤ w.1 ∧ w.1 + w.2 ≤ f + pageSize

variable {vm₀ : Vm σ} {l : Load σ} {pml4 : Nat} {frames : List Nat}

/-- The machine changes, and the space has more frames. -/
theorem Loaded.withVm (h : Loaded vm₀ l pml4 frames) {vm : Vm σ} {frames' : List Nat}
    (hpages : Pages vm₀ vm pml4 frames') (hsub : frames ⊆ frames') : Loaded vm₀ { l with vm } pml4 frames' where
  pages := hpages
  wrote w hw :=
    have ⟨f, hf, hin⟩ := h.wrote w hw
    ⟨f, hsub hf, hin⟩

/-- **`memcpy` into a page of the user half.** -/
theorem Loaded.memcpy (h : Loaded vm₀ l pml4 frames) {va : Nat} {bs : List UInt8} (hu : pml4Idx va < 256)
    (hne : vmmVirtToPhys l.vm.mem pml4 (alignDown va) ≠ 0) (hlen : va % pageSize + bs.length ≤ pageSize) :
    Loaded vm₀ (l.memcpy (vmmVirtToPhys l.vm.mem pml4 (alignDown va) + va % pageSize) bs) pml4 frames ∧
    ∀ va', vmmVirtToPhys (l.memcpy (vmmVirtToPhys l.vm.mem pml4 (alignDown va) + va % pageSize) bs).vm.mem pml4 va' =
      vmmVirtToPhys l.vm.mem pml4 va' := by
  have hidx : pml4Idx (alignDown va) < 256 := by rwa [pml4Idx_of_path (path_alignDown va)]
  have hf := h.pages.frameOf hidx (alignDown_mod va) hne
  have hin : vmmVirtToPhys l.vm.mem pml4 (alignDown va) + va % pageSize + bs.length ≤
      vmmVirtToPhys l.vm.mem pml4 (alignDown va) + pageSize := by omega
  obtain ⟨hpages, htrans⟩ := h.pages.ofAgree hf (agreeOff_write (Nat.le_add_right _ (va % pageSize)) hin)
  refine ⟨⟨hpages, fun w hw => ?_⟩, htrans⟩
  rcases List.mem_cons.1 hw with rfl | hw
  · exact ⟨_, hf, Nat.le_add_right _ _, by simp only; omega⟩
  · exact h.wrote w hw

/-! ## Segments

The two loops of a segment. Pages that are mapped already are used as they are; a round of the second loop is one
page.
-/

/-- **The pages of a segment.** They are in the user half, or in the kernel half and mapped before. -/
theorem mapPages_loaded {flags : Pte} (hpres : isPresent flags = true)
    (hflags : flags &&& 0x000FFFFFFFFFF000#64 = 0#64) (n : Nat) : ∀ (addr : Nat) (l : Load σ) (frames : List Nat),
    Loaded vm₀ l pml4 frames → addr % pageSize = 0 → addr < 2 ^ 64 →
    (∀ i < n, pml4Idx (pageFrom addr i) < 256 ∨ vmmIsMapped vm₀.mem pml4 (pageFrom addr i) = true) →
    ∃ r l' frames', mapPages pml4 flags n addr l = some (r, l') ∧ Loaded vm₀ l' pml4 frames' ∧
      ∀ va, pml4Idx va < 256 → vmmVirtToPhys l'.vm.mem pml4 va ≠ 0 →
        vmmVirtToPhys l.vm.mem pml4 va ≠ 0 ∨ ∃ i < n, path (pageFrom addr i) = path va := by
  induction n with
  | zero => exact fun addr l frames h _ _ _ => ⟨0, l, frames, rfl, h, fun _ _ hne => .inl hne⟩
  | succ n ih =>
    intro addr l frames h hal hlt huser
    have hnext : (addr + pageSize) % 2 ^ 64 % pageSize = 0 := by
      rw [pageSize] at *
      omega
    have huser' : ∀ i < n, pml4Idx (pageFrom ((addr + pageSize) % 2 ^ 64) i) < 256 ∨
        vmmIsMapped vm₀.mem pml4 (pageFrom ((addr + pageSize) % 2 ^ 64) i) = true := by
      intro i hi
      rw [pageFrom_succ]
      exact huser (i + 1) (by omega)
    -- a page mapped by the rest of the loop
    have hrest : ∀ {va}, (∃ i < n, path (pageFrom ((addr + pageSize) % 2 ^ 64) i) = path va) →
        ∃ i < n + 1, path (pageFrom addr i) = path va := by
      rintro va ⟨i, hi, hpath⟩
      exact ⟨i + 1, by omega, by rwa [← pageFrom_succ]⟩
    rw [mapPages]
    split
    next hm =>
      obtain ⟨r, l', frames', heq, hl', hnew⟩ := ih _ l frames h hnext (Nat.mod_lt _ (by decide)) huser'
      exact ⟨r, l', frames', heq, hl', fun va hu hne => (hnew va hu hne).imp_right hrest⟩
    next hm =>
      have hu : pml4Idx addr < 256 := by
        by_contra hge
        have hpage := huser 0 (by omega)
        rw [pageFrom_zero hlt] at hpage
        have hk := hpage.resolve_left hge
        rw [vmmIsMapped, ← h.pages.kernel (by omega)] at hk
        exact hm hk
      simp only
      by_cases h0 : l.vm.alloc.1 = 0
      · rw [if_pos h0]
        have hpages := h.pages.allocNone h0
        refine ⟨_, _, frames, rfl, h.withVm hpages (List.Subset.refl _), fun va _ hne => .inl ?_⟩
        rwa [← (alloc_zero l.vm h0).1]
      · rw [if_neg h0]
        obtain ⟨hnew, hpages, -, hmap⟩ := h.pages.allocMap hu hal flags hpres hflags h0
        generalize hout : l.vm.alloc.2.vmmMap pml4 addr l.vm.alloc.1 flags = out at hpages hmap
        obtain ⟨r, vm⟩ := out
        simp only at hpages hmap ⊢
        cases hmap with
        | mapped htrans _ =>
          rw [if_neg (by decide)]
          obtain ⟨r, l', frames', heq, hl', hnew⟩ := ih ((addr + pageSize) % 2 ^ 64) { l with vm } _
            (h.withVm hpages (List.subset_cons_self _ _)) hnext (Nat.mod_lt _ (by decide)) huser'
          refine ⟨r, l', frames', heq, hl', fun va hva hne => ?_⟩
          rcases hnew va hva hne with hne | hin
          · rw [htrans] at hne
            split at hne
            next hpath => exact .inr ⟨0, by omega, by rw [pageFrom_zero hlt, hpath]⟩
            next => exact .inl hne
          · exact .inr (hrest hin)
        | noTable htrans hun _ =>
          obtain ⟨s, hs, hpages⟩ := hpages.release hnew hun
          rw [if_pos (by decide), hs]
          refine ⟨_, _, frames, rfl, h.withVm hpages (List.Subset.refl _), fun va _ hne => .inl ?_⟩
          rwa [← htrans]

/-- The page of byte `off` of a segment is there. -/
def ByteMapped (m : ByteMem) (pml4 vaddr off : Nat) : Prop :=
  vmmVirtToPhys m pml4 (alignDown ((vaddr + off) % 2 ^ 64)) ≠ 0

/-- Where the round at `off` ends. -/
def roundEnd (vaddr filesz off : Nat) : Nat :=
  off + min (pageSize - (vaddr + off) % 2 ^ 64 % pageSize) (filesz - off)

/-- The bytes of one round are on one page. -/
theorem same_page {vaddr off o filesz : Nat} (hlo : off ≤ o) (hhi : o < roundEnd vaddr filesz off) :
    alignDown ((vaddr + o) % 2 ^ 64) = alignDown ((vaddr + off) % 2 ^ 64) := by
  rw [alignDown, alignDown]
  congr 1
  rw [roundEnd, pageSize] at *
  omega

/-- One round: it stops at a page that is not there, or fills the page. -/
theorem writeSegment_round {vaddr filesz off : Nat} (buf : ByteMem) (h : Loaded vm₀ l pml4 frames) (hlt : off < filesz)
    (hu : ByteMapped l.vm.mem pml4 vaddr off → pml4Idx ((vaddr + off) % 2 ^ 64) < 256) :
    writeSegment pml4 vaddr filesz buf off l = (-efault, l) ∨
    ByteMapped l.vm.mem pml4 vaddr off ∧ ∃ l', Loaded vm₀ l' pml4 frames ∧
      (∀ va, vmmVirtToPhys l'.vm.mem pml4 va = vmmVirtToPhys l.vm.mem pml4 va) ∧
      writeSegment pml4 vaddr filesz buf off l =
        writeSegment pml4 vaddr filesz buf (roundEnd vaddr filesz off) l' := by
  rw [writeSegment, if_pos hlt]
  simp only
  by_cases hphys : vmmVirtToPhys l.vm.mem pml4 (alignDown ((vaddr + off) % 2 ^ 64)) = 0
  · rw [if_pos hphys]
    exact .inl rfl
  · rw [if_neg hphys]
    have hlen : (vaddr + off) % 2 ^ 64 % pageSize + (buf.read off (min (pageSize - (vaddr + off) % 2 ^ 64 % pageSize)
        (filesz - off))).length ≤ pageSize := by
      have := Nat.mod_lt ((vaddr + off) % 2 ^ 64) (show 0 < pageSize by decide)
      rw [ByteMem.length_read]
      omega
    obtain ⟨hl, htrans⟩ := h.memcpy (hu hphys) hphys hlen
    exact .inr ⟨hphys, _, hl, htrans, rfl⟩

/-- **The bytes of a segment**, from `off` on, in at most `k` rounds. The loop stops at a page that is not there;
    `hbytes`: it meets only pages of the user half before that. -/
theorem writeSegment_loaded {vaddr filesz : Nat} (buf : ByteMem) (k : Nat) : ∀ (off : Nat) (l : Load σ),
    filesz - off ≤ k → Loaded vm₀ l pml4 frames →
    (∀ o < filesz, (∀ o' ≤ o, ByteMapped l.vm.mem pml4 vaddr o') → pml4Idx ((vaddr + o) % 2 ^ 64) < 256) →
    (∀ o < off, ByteMapped l.vm.mem pml4 vaddr o) →
    Loaded vm₀ (writeSegment pml4 vaddr filesz buf off l).2 pml4 frames ∧
    (∀ va, vmmVirtToPhys (writeSegment pml4 vaddr filesz buf off l).2.vm.mem pml4 va =
      vmmVirtToPhys l.vm.mem pml4 va) ∧
    ((writeSegment pml4 vaddr filesz buf off l).1 ≠ -efault → ∀ o < filesz, ByteMapped l.vm.mem pml4 vaddr o) := by
  induction k with
  | zero =>
    intro off l hk h _ hbefore
    rw [writeSegment, if_neg (by omega)]
    exact ⟨h, fun _ => rfl, fun _ o ho => hbefore o (by omega)⟩
  | succ k ih =>
    intro off l hk h hbytes hbefore
    by_cases hlt : off < filesz
    · have hu : ByteMapped l.vm.mem pml4 vaddr off → pml4Idx ((vaddr + off) % 2 ^ 64) < 256 := by
        intro hm
        refine hbytes off hlt fun o ho => ?_
        rcases Nat.lt_or_eq_of_le ho with ho | rfl
        · exact hbefore o ho
        · exact hm
      rcases writeSegment_round buf h hlt hu with heq | ⟨hm, l', hl', htrans, heq⟩
      · rw [heq]
        exact ⟨h, fun _ => rfl, fun hr => absurd rfl hr⟩
      · rw [heq]
        have hmapped : ∀ o, ByteMapped l'.vm.mem pml4 vaddr o ↔ ByteMapped l.vm.mem pml4 vaddr o := by
          intro o
          rw [ByteMapped, htrans, ByteMapped]
        have hshort := sub_written_lt hlt ((vaddr + off) % 2 ^ 64)
        have hbefore' : ∀ o < roundEnd vaddr filesz off, ByteMapped l'.vm.mem pml4 vaddr o := by
          intro o ho
          rw [hmapped]
          by_cases hlo : o < off
          · exact hbefore o hlo
          · rw [ByteMapped, same_page (Nat.le_of_not_lt hlo) ho]
            exact hm
        obtain ⟨hl, htrans', hdone⟩ := ih (roundEnd vaddr filesz off) l' (by rw [roundEnd]; omega) hl'
          (fun o ho hall => hbytes o ho fun o' ho' => (hmapped o').1 (hall o' ho')) hbefore'
        exact ⟨hl, fun va => (htrans' va).trans (htrans va), fun hr o ho => (hmapped o).1 (hdone hr o ho)⟩
    · rw [writeSegment, if_neg hlt]
      exact ⟨h, fun _ => rfl, fun _ o ho => hbefore o (by omega)⟩

/-! ## What the headers may name

A header is harmless when its pages are in the user half, or are mapped already and get none of its bytes.
-/

/-- The page with the number `i` of a segment. -/
def Phdr.page (ph : Phdr) (bias i : Nat) : Nat := pageFrom (alignDown (ph.start bias)) i

/-- The page of `va` is mapped in `m`, or one of the segments `done` maps it. -/
def Backed (m : ByteMem) (pml4 bias : Nat) (done : List Phdr) (va : Nat) : Prop :=
  vmmIsMapped m pml4 (alignDown va) = true ∨ ∃ ph ∈ done, ∃ i < ph.nPages bias, path (ph.page bias i) = path va

/-- A segment, loaded after `done`, takes pages of the user half only, apart from those of the kernel half that are
    mapped, and its bytes go to the user half, at least up to the first that is not backed. -/
structure SegmentInUserHalf (m : ByteMem) (pml4 bias : Nat) (done : List Phdr) (ph : Phdr) : Prop where
  pages : ∀ i < ph.nPages bias, pml4Idx (ph.page bias i) < 256 ∨ vmmIsMapped m pml4 (ph.page bias i) = true
  bytes : ∀ o < ph.filesz, (∀ o' ≤ o, Backed m pml4 bias (ph :: done) ((ph.start bias + o') % 2 ^ 64)) →
    pml4Idx ((ph.start bias + o) % 2 ^ 64) < 256

/-- The segments of the headers are in the user half, up to the first whose bytes are not all backed; after the last
    one `fin` holds. -/
def InUserHalf (m : ByteMem) (pml4 bias : Nat) (fin : Prop) : List Phdr → List Phdr → Prop
  | _,    []        => fin
  | done, ph :: phs =>
    if ph.type = ptLoad ∧ ph.memsz ≠ 0 then
      SegmentInUserHalf m pml4 bias done ph ∧
        ((∀ o < ph.filesz, Backed m pml4 bias (ph :: done) ((ph.start bias + o) % 2 ^ 64)) →
          InUserHalf m pml4 bias fin (ph :: done) phs)
    else InUserHalf m pml4 bias fin done phs

/-- The pages of the user half are those of the segments `done`. -/
def PagesOf (m : ByteMem) (pml4 bias : Nat) (done : List Phdr) : Prop :=
  ∀ va, pml4Idx va < 256 → vmmVirtToPhys m pml4 va ≠ 0 →
    ∃ ph ∈ done, ∃ i < ph.nPages bias, path (ph.page bias i) = path va

/-- A byte with a page is backed by what was loaded so far. -/
theorem PagesOf.backed {bias : Nat} {done : List Phdr} (hof : PagesOf l.vm.mem pml4 bias done)
    (h : Loaded vm₀ l pml4 frames) {vaddr o : Nat} (hm : ByteMapped l.vm.mem pml4 vaddr o) :
    Backed vm₀.mem pml4 bias done ((vaddr + o) % 2 ^ 64) := by
  by_cases hu : pml4Idx (alignDown ((vaddr + o) % 2 ^ 64)) < 256
  · obtain ⟨ph, hmem, i, hi, hpath⟩ := hof _ hu hm
    exact .inr ⟨ph, hmem, i, hi, hpath.trans (path_alignDown _)⟩
  · left
    rw [ByteMapped, h.pages.kernel (by omega)] at hm
    simpa [vmmIsMapped] using hm

/-- **A segment.** -/
theorem elfMapSegment_loaded (content : List UInt8) (buf : Option ByteMem) {ph : Phdr} {bias : Nat} {done : List Phdr}
    (h : Loaded vm₀ l pml4 frames) (hof : PagesOf l.vm.mem pml4 bias done) (hsz : ph.memsz ≠ 0)
    (hseg : SegmentInUserHalf vm₀.mem pml4 bias done ph) :
    ∃ r l' frames', elfMapSegment pml4 content buf ph bias l = some (r, l') ∧ Loaded vm₀ l' pml4 frames' ∧
      PagesOf l'.vm.mem pml4 bias (ph :: done) ∧
      (¬r < 0 → ∀ o < ph.filesz, Backed vm₀.mem pml4 bias (ph :: done) ((ph.start bias + o) % 2 ^ 64)) := by
  have hstart : ph.start bias < 2 ^ 64 := Nat.mod_lt _ (by decide)
  have hle : alignDown (ph.start bias) ≤ ph.start bias := Nat.div_mul_le_self _ _
  obtain ⟨hpres, hflags⟩ := segFlags_spec ph.flags
  obtain ⟨r, l₁, frames₁, heq, hl₁, hnew⟩ := mapPages_loaded hpres hflags (ph.nPages bias) _ l frames h
    (alignDown_mod _) (by omega) hseg.pages
  have hof₁ : PagesOf l₁.vm.mem pml4 bias (ph :: done) := by
    intro va hu hne
    rcases hnew va hu hne with hne | ⟨i, hi, hpath⟩
    · obtain ⟨ph', hmem, hin⟩ := hof va hu hne
      exact ⟨ph', List.mem_cons_of_mem _ hmem, hin⟩
    · exact ⟨ph, List.mem_cons_self, i, hi, hpath⟩
  rw [elfMapSegment, if_neg hsz, heq]
  simp only
  by_cases hr : r < 0
  · rw [if_pos hr]
    exact ⟨r, l₁, frames₁, rfl, hl₁, hof₁, fun hr' => absurd hr hr'⟩
  · rw [if_neg hr]
    by_cases hfile : ph.filesz = 0
    · rw [if_pos hfile]
      exact ⟨0, l₁, frames₁, rfl, hl₁, hof₁, fun _ o ho => by omega⟩
    · rw [if_neg hfile]
      cases buf with
      | none => exact ⟨-enomem, l₁, frames₁, rfl, hl₁, hof₁, fun hr' => absurd (by decide) hr'⟩
      | some junk =>
        obtain ⟨hl₂, htrans, hdone⟩ := writeSegment_loaded (segmentBuf content ph junk) _ 0 l₁ (Nat.le_refl _)
          hl₁ (fun o ho hall => hseg.bytes o ho fun o' ho' => hof₁.backed hl₁ (hall o' ho')) (fun o ho => by omega)
        refine ⟨_, _, frames₁, rfl, hl₂, fun va hu hne => ?_, fun hr' o ho => ?_⟩
        · rw [htrans] at hne
          exact hof₁ va hu hne
        · refine hof₁.backed hl₁ (hdone (fun he => hr' ?_) o ho)
          rw [he]
          decide

/-- **All segments.** -/
theorem loadSegments_loaded (content : List UInt8) (env : ElfEnv) {bias : Nat} {fin : Prop} (phs : List Phdr) :
    ∀ (done : List Phdr) (i : Nat) (l : Load σ) (g : Ranges) (frames : List Nat), Loaded vm₀ l pml4 frames →
    PagesOf l.vm.mem pml4 bias done → InUserHalf vm₀.mem pml4 bias fin done phs →
    ∃ r l' g' frames', loadSegments pml4 content env bias phs i l g = some (r, l', g') ∧
      Loaded vm₀ l' pml4 frames' ∧ (¬r < 0 → fin) := by
  induction phs with
  | nil => exact fun done i l g frames h _ hin => ⟨0, l, g, frames, rfl, h, fun _ => hin⟩
  | cons ph phs ih =>
    intro done i l g frames h hof hin
    rw [loadSegments]
    rw [InUserHalf] at hin
    by_cases htype : ph.type = ptLoad
    · rw [if_neg (not_not_intro htype)]
      by_cases hsz : ph.memsz = 0
      · rw [if_neg fun hc => hc.2 hsz] at hin
        rw [elfMapSegment, if_pos hsz]
        exact ih done (i + 1) l _ frames h hof hin
      · rw [if_pos ⟨htype, hsz⟩] at hin
        obtain ⟨r, l₁, frames₁, heq, hl₁, hof₁, hdone⟩ := elfMapSegment_loaded content (env.segment i) h hof hsz
          hin.1
        rw [heq]
        simp only
        by_cases hr : r < 0
        · rw [if_pos hr]
          exact ⟨r, l₁, g, frames₁, rfl, hl₁, fun hr' => absurd hr hr'⟩
        · rw [if_neg hr]
          exact ih (ph :: done) (i + 1) l₁ _ frames₁ hl₁ hof₁ (hin.2 (hdone hr))
    · rw [if_pos htype]
      rw [if_neg fun hc => htype hc.1] at hin
      exact ih done (i + 1) l g frames h hof hin

/-! ## The stack

Two thousand and forty-eight pages below `VMM_STACK_TOP`. What `vmm_map` returns is not looked at, so the last one may
be missing.
-/

/-- A page of the stack that has its frame, with zeroes in it. -/
def ZeroPage (m : ByteMem) (pml4 : Nat) (frames : List Nat) (va : Nat) : Prop :=
  ∃ f ∈ frames, vmmVirtToPhys m pml4 va = f ∧ ∀ o < pageSize, m (f + o) = 0

theorem page_user {p i n : Nat} (hhi : p + n * pageSize ≤ 2 ^ 47) (hi : i < n) : p + i * pageSize < 2 ^ 47 := by
  rw [pageSize] at *
  omega

/-- **The pages of the stack.** Only the last page may be without a frame, because the next round stops where no frame
    is left. -/
theorem stackPages_loaded (n : Nat) : ∀ (p : Nat) (l : Load σ) (frames : List Nat), Loaded vm₀ l pml4 frames →
    p % pageSize = 0 → p + n * pageSize ≤ 2 ^ 47 →
    ∃ r l' frames', stackPages pml4 n p l = (r, l') ∧ Loaded vm₀ l' pml4 frames' ∧ frames ⊆ frames' ∧
      Keeps frames l.vm.mem l'.vm.mem ∧
      (∀ va < p, vmmVirtToPhys l'.vm.mem pml4 va = vmmVirtToPhys l.vm.mem pml4 va) ∧
      (¬r < 0 → ∀ i, i + 1 < n → ZeroPage l'.vm.mem pml4 frames' (p + i * pageSize)) := by
  induction n with
  | zero =>
    exact fun p l frames h _ _ => ⟨0, l, frames, rfl, h, List.Subset.refl _, Keeps.refl _ _, fun _ _ => rfl,
      fun _ i hi => by omega⟩
  | succ n ih =>
    intro p l frames h hal hhi
    have hp : p < 2 ^ 47 := by
      have := page_user hhi (Nat.succ_pos n)
      omega
    have hnext : (p + pageSize) % pageSize = 0 := by rw [Nat.add_mod_right, hal]
    have hhi' : p + pageSize + n * pageSize ≤ 2 ^ 47 := by
      rw [Nat.succ_mul] at hhi
      omega
    rw [stackPages]
    simp only
    by_cases h0 : l.vm.alloc.1 = 0
    · rw [if_pos h0]
      have hmem := (alloc_zero l.vm h0).1
      refine ⟨_, _, frames, rfl, h.withVm (h.pages.allocNone h0) (List.Subset.refl _), List.Subset.refl _, ?_, ?_, ?_⟩
      · rw [hmem]
        exact Keeps.refl _ _
      · intro va _
        rw [hmem]
      · exact fun hr => absurd (by decide) hr
    · rw [if_neg h0]
      obtain ⟨hnew, hpages, hkeeps, hmap⟩ := h.pages.allocMap (pml4Idx_lt hp) hal vmmUserRw (by decide)
        (by decide) h0
      generalize l.vm.alloc.2.vmmMap pml4 p l.vm.alloc.1 vmmUserRw = out at hpages hkeeps hmap ⊢
      obtain ⟨r₁, vm⟩ := out
      simp only at hpages hkeeps hmap ⊢
      obtain ⟨r, l', frames', heq, hl', hsub, hkeeps', hlow, hzero'⟩ := ih (p + pageSize) { l with vm } _
        (h.withVm hpages (List.subset_cons_self _ _)) hnext hhi'
      simp only at hkeeps' hlow
      have hsub' : frames ⊆ frames' := List.Subset.trans (List.subset_cons_self _ _) hsub
      have hold : Keeps frames vm.mem l'.vm.mem := fun f hf => hkeeps' f (List.mem_cons_of_mem _ hf)
      refine ⟨r, l', frames', heq, hl', hsub', hkeeps.trans hold, fun va hva => ?_, fun hr i hi => ?_⟩
      · rw [hlow va (by omega)]
        cases hmap with
        | mapped htrans _ => rw [htrans, if_neg (path_ne (by omega) hp (by rw [pageSize] at *; omega))]
        | noTable htrans _ _ => rw [htrans]
      · cases i with
        | zero =>
          cases hmap with
          | mapped htrans hzero =>
            refine ⟨l.vm.alloc.1, hsub List.mem_cons_self, ?_, fun o ho => ?_⟩
            · rw [Nat.zero_mul, Nat.add_zero, hlow p (by rw [pageSize]; omega), htrans, if_pos rfl, hal, Nat.add_zero]
            · rw [hkeeps' _ List.mem_cons_self o ho, hzero o ho]
          | noTable _ _ hfull =>
            -- the next page finds no frame
            obtain ⟨n, rfl⟩ : ∃ n', n = n' + 1 := ⟨n - 1, by omega⟩
            have hnone : vm.alloc.1 = 0 := by
              by_contra hne
              exact hfull _ (alloc_frame vm hne).2.1
            rw [stackPages] at heq
            simp only at heq
            rw [if_pos hnone] at heq
            obtain ⟨rfl, -⟩ := Prod.mk.inj heq
            exact absurd (by decide) hr
        | succ i =>
          have hpos : p + (i + 1) * pageSize = p + pageSize + i * pageSize := by
            rw [Nat.succ_mul]
            omega
          rw [hpos]
          exact hzero' hr i (by omega)

end

end MyUnix.Elf
