import MyUnix.Proc.ElfBytes
import MyUnix.Proc.ElfEntry

/-!
# `Proc.ElfPhdr` — the address of the program headers

`elf_load` tells the program where its headers are: the `AT_PHDR` it gives is the base address plus `e_phoff`, an
offset in the file. Where the table really is depends on the segment that it was loaded with.

The memory below the stack is followed through the whole load as the program reads it (`byteAt`): what the segments put
there stays, unless a later segment has data for the same address (`dataAt`).

The equivalence has a condition on the file alone, a segment that covers the headers and is at an address with the
same number as its offset. The rest is about memory: the headers are found at `va` if a segment put them there and
nothing later has replaced them. It needs that the frame of the stack does not get in the way, which is a hypothesis
on the sizes of the arguments.
-/

namespace MyUnix.Elf

open Lib Mm PageAlloc PathClass

/-- The program headers are in the part of the file that the segment loads. -/
structure Covers (ehdr : Ehdr) (ph : Phdr) : Prop where
  load  : ph.type = ptLoad
  first : ph.offset ≤ ehdr.phoff
  last  : ehdr.phoff + ehdr.phnum * 56 ≤ ph.offset + ph.filesz

/-- Where the segment puts them. -/
def tableAddr (ehdr : Ehdr) (ph : Phdr) : Nat := (ph.start (loadBias ehdr) + (ehdr.phoff - ph.offset)) % 2 ^ 64

/-- `AT_PHDR`, as it is in the auxiliary vector. -/
def atPhdr (ehdr : Ehdr) : Option Nat := (auxv ehdr).lookup 3

/-- The program headers of the file are in memory at `va`. -/
def HoldsTable (m : ByteMem) (pml4 : Nat) (content : List UInt8) (ehdr : Ehdr) (va : Nat) : Prop :=
  ∀ k < ehdr.phnum * 56, byteAt m pml4 (va + k) = content[ehdr.phoff + k]?

/-- `AT_PHDR` is where a segment has put the program headers, and they are there. -/
def PhdrRight (m : ByteMem) (pml4 : Nat) (content : List UInt8) (ehdr : Ehdr) (phs : List Phdr) : Prop :=
  ∃ ph ∈ phs, Covers ehdr ph ∧ ph.memsz ≠ 0 ∧ atPhdr ehdr = some (tableAddr ehdr ph) ∧
    HoldsTable m pml4 content ehdr (tableAddr ehdr ph)

/-- What a segment puts at `va`. -/
def segmentDataAt (content : List UInt8) (junk : Option ByteMem) (bias : Nat) (ph : Phdr) (va : Nat) : Option UInt8 :=
  if ph.type = ptLoad ∧ ph.memsz ≠ 0 ∧ ph.start bias ≤ va ∧ va < ph.start bias + ph.filesz then
    some (segmentBuf content ph (junk.getD fun _ => 0) (va - ph.start bias))
  else none

/-- What the last of the segments with data for `va` puts there. -/
def dataAt (content : List UInt8) (env : ElfEnv) (bias : Nat) : List Phdr → Nat → Nat → Option UInt8
  | [],        _, _  => none
  | ph :: phs, i, va =>
    (dataAt content env bias phs (i + 1) va).or (segmentDataAt content (env.segment i) bias ph va)

/-- The segment is loaded below the stack. -/
structure BelowStack (bias : Nat) (ph : Phdr) : Prop where
  memory : ph.start bias + ph.memsz ≤ stackTop - stackSize
  file   : ph.start bias + ph.filesz ≤ stackTop - stackSize

/-- Every segment that is loaded ends below the stack. -/
def SegmentsBelowStack (bias : Nat) (phs : List Phdr) : Prop :=
  ∀ ph ∈ phs, ph.type = ptLoad → ph.memsz ≠ 0 → BelowStack bias ph

/-! ## The address

What is reported against what is true, for one segment.
-/

theorem atPhdr_eq (ehdr : Ehdr) : atPhdr ehdr = some ((loadBias ehdr + ehdr.phoff) % 2 ^ 64) := rfl

theorem field_lt (bs : List UInt8) (off : Nat) : field bs off 8 < 2 ^ 64 := by
  have hlt := ofLe_lt (readAt bs off 8)
  have hlen : (readAt bs off 8).length ≤ 8 := List.length_take_le _ _
  have hpow : 256 ^ (readAt bs off 8).length ≤ 256 ^ 8 := Nat.pow_le_pow_right (by decide) hlen
  rw [field]
  omega

theorem phdrsOf_lt {content : List UInt8} {ehdr : Ehdr} {phs : List Phdr} (h : phdrsOf content ehdr = some phs)
    {ph : Phdr} (hph : ph ∈ phs) : ph.vaddr < 2 ^ 64 ∧ ph.offset < 2 ^ 64 := by
  rw [phdrsOf] at h
  split at h
  next => cases h
  next =>
    obtain rfl := Option.some.inj h
    obtain ⟨i, -, rfl⟩ := List.mem_map.mp hph
    exact ⟨field_lt _ _, field_lt _ _⟩

/-- **`AT_PHDR` is the address in memory** for a segment whose address is its place in the file. -/
theorem atPhdr_iff {ehdr : Ehdr} {ph : Phdr} (hlt : ph.vaddr < 2 ^ 64 ∧ ph.offset < 2 ^ 64) (hcovers : Covers ehdr ph) :
    atPhdr ehdr = some (tableAddr ehdr ph) ↔ ph.vaddr = ph.offset := by
  have hfirst := hcovers.first
  rw [atPhdr_eq, Option.some.injEq, tableAddr, Phdr.start]
  omega

/-! ## What stays in memory

The view of `Proc.ElfFrame` below the stack, followed through the loops of a segment.
-/

section

variable {σ : Type} [PageAlloc σ] {vm₀ vm : Vm σ} {l l' : Load σ} {pml4 : Nat} {frames : List Nat}

/-- With one address of a page all are mapped. -/
theorem page_mapped (h : Pages vm₀ vm pml4 frames) {va va' : Nat} (hva : va < 2 ^ 47) (hpath : path va' = path va)
    (hne : vmmVirtToPhys vm.mem pml4 va ≠ 0) : vmmVirtToPhys vm.mem pml4 va' ≠ 0 := by
  obtain ⟨f, hf, hmap⟩ := h.mapped hva hne
  obtain ⟨h0, -, -⟩ := h.frame_spec hf
  obtain ⟨hpt, hidx⟩ := path_parts hpath
  cases ht : tableAt vm.mem pml4 (ptPath va) with
  | none => exact absurd (h.inv.tree.virtToPhys_none hva ht) hne
  | some t =>
    rw [virtToPhys_leaf ht] at hne hmap
    rw [virtToPhys_leaf (hpt ▸ ht), hidx]
    split at hne
    next hpres =>
      rw [if_pos hpres] at hmap
      rw [if_pos hpres]
      omega
    next => exact absurd rfl hne

/-- A byte that is where it was, in a frame that is kept. -/
theorem byteAt_kept (h : Pages vm₀ vm pml4 frames) {m' : ByteMem} (hkeeps : Keeps frames vm.mem m') {va : Nat}
    {b : UInt8} (hva : va < 2 ^ 47) (hsame : vmmVirtToPhys vm.mem pml4 va ≠ 0 →
      vmmVirtToPhys m' pml4 va = vmmVirtToPhys vm.mem pml4 va) (hb : byteAt vm.mem pml4 va = some b) :
    byteAt m' pml4 va = some b := by
  rw [byteAt] at hb
  split at hb
  next hm =>
    have hne : vmmVirtToPhys vm.mem pml4 va ≠ 0 := by simpa [vmmIsMapped] using hm
    have htrans := hsame hne
    obtain ⟨f, hf, hmap⟩ := h.mapped hva hne
    have hkept : m' (vmmVirtToPhys vm.mem pml4 va) = vm.mem (vmmVirtToPhys vm.mem pml4 va) := by
      rw [hmap]
      exact hkeeps f hf _ (Nat.mod_lt _ (by decide))
    rw [vmmIsMapped] at hm
    rw [byteAt, vmmIsMapped, htrans, if_pos hm, view, htrans, hkept]
    exact hb
  next => cases hb

omit [PageAlloc σ] in
/-- The space is shown as `v` where it was mapped before. -/
theorem Shows.byteAt {v : ByteMem} (hs : Shows l l' pml4 v) {va : Nat} (hva : va < 2 ^ 47)
    (hm : vmmIsMapped l.vm.mem pml4 va = true) : byteAt l'.vm.mem pml4 va = some (v va) := by
  rw [vmmIsMapped] at hm
  rw [Elf.byteAt, vmmIsMapped, hs.same, if_pos hm, hs.bytes hva]

/-! ## The loops of a segment

Pages first, bytes second; each keeps what the view showed before.
-/

/-- **The pages of a segment** leave what was there. -/
theorem mapPages_keeps {flags : Pte} (hpres : isPresent flags = true) (hflags : flags &&& 0x000FFFFFFFFFF000#64 = 0#64)
    (n : Nat) : ∀ {addr : Nat} {l : Load σ} {frames : List Nat}, Loaded vm₀ l pml4 frames → addr % pageSize = 0 →
    addr + n * pageSize ≤ 2 ^ 47 → ∀ {r l'}, mapPages pml4 flags n addr l = some (r, l') → ¬r < 0 →
    ∃ frames', Loaded vm₀ l' pml4 frames' ∧ ∀ va < 2 ^ 47, ∀ b, byteAt l.vm.mem pml4 va = some b →
      byteAt l'.vm.mem pml4 va = some b := by
  induction n with
  | zero =>
    intro addr l frames h _ _ r l' hout _
    cases hout
    exact ⟨frames, h, fun _ _ _ hb => hb⟩
  | succ n ih =>
    intro addr l frames h hal hend r l' hout hr
    rw [Nat.succ_mul] at hend
    have hpos : 0 < pageSize := by decide
    have haddr : addr < 2 ^ 47 := by omega
    have hnext : (addr + pageSize) % 2 ^ 64 = addr + pageSize := Nat.mod_eq_of_lt (by
      have : (2 : Nat) ^ 47 < 2 ^ 64 := by decide
      omega)
    have hal' : (addr + pageSize) % pageSize = 0 := by rw [Nat.add_mod_right, hal]
    rw [mapPages, hnext] at hout
    split at hout
    next => exact ih h hal' (by omega) hout hr
    next hm =>
      simp only at hout
      by_cases h0 : l.vm.alloc.1 = 0
      · rw [if_pos h0] at hout
        cases hout
        exact absurd (by decide) hr
      · rw [if_neg h0] at hout
        obtain ⟨-, hpages, hkeeps, hmap⟩ := h.pages.allocMap (pml4Idx_lt haddr) hal flags hpres hflags h0
        generalize l.vm.alloc.2.vmmMap pml4 addr l.vm.alloc.1 flags = out at hpages hkeeps hmap hout
        obtain ⟨r₁, vm⟩ := out
        simp only at hpages hkeeps hmap hout
        cases hmap with
        | mapped htrans _ =>
          rw [if_neg (by decide)] at hout
          obtain ⟨frames', hl', hrest⟩ := @ih (addr + pageSize) { l with vm } _
            (h.withVm hpages (List.subset_cons_self _ _)) hal' (by omega) r l' hout hr
          refine ⟨frames', hl', fun va hva b hb => hrest va hva b ?_⟩
          refine byteAt_kept h.pages hkeeps hva (fun hne => ?_) hb
          -- the page that is mapped now was not before
          rw [htrans, if_neg]
          intro hpath
          exact page_mapped h.pages hva hpath.symm hne (by simpa [vmmIsMapped] using hm)
        | noTable _ _ _ =>
          rw [if_pos (by decide)] at hout
          obtain ⟨s, -, hpair⟩ := Option.map_eq_some_iff.mp hout
          cases hpair
          exact absurd (by decide) hr

omit [PageAlloc σ] in
theorem Shows.refl (l : Load σ) : Shows l l pml4 (view l.vm.mem pml4) := ⟨fun _ => rfl, fun _ => rfl⟩

/-- **The bytes of a segment**, from `off` on. -/
theorem writeSegment_shows {start filesz : Nat} (buf : ByteMem) (hend : start + filesz ≤ 2 ^ 47) (k : Nat) :
    ∀ {off : Nat} {l : Load σ}, filesz - off ≤ k → Loaded vm₀ l pml4 frames →
    ∀ {r l'}, writeSegment pml4 start filesz buf off l = (r, l') → ¬r < 0 → Loaded vm₀ l' pml4 frames ∧
      Shows l l' pml4 ((view l.vm.mem pml4).write (start + off) (buf.read off (filesz - off))) ∧
      ∀ i, off ≤ i → i < filesz → vmmIsMapped l.vm.mem pml4 (start + i) = true := by
  induction k with
  | zero =>
    intro off l hk h r l' hout _
    rw [writeSegment, if_neg (by omega)] at hout
    obtain ⟨-, rfl⟩ := Prod.mk.inj hout
    have hnone : filesz - off = 0 := by omega
    refine ⟨h, ?_, fun i hlo hhi => by omega⟩
    rw [hnone, ByteMem.read, List.range_zero, List.map_nil, ByteMem.write_nil]
    exact Shows.refl l
  | succ k ih =>
    intro off l hk h r l' hout hr
    rw [writeSegment] at hout
    split at hout
    next hlt =>
      have htarget : (start + off) % 2 ^ 64 = start + off := Nat.mod_eq_of_lt (by
        have : (2 : Nat) ^ 47 < 2 ^ 64 := by decide
        omega)
      have hva : start + off < 2 ^ 47 := by omega
      have hrest : (start + off) % pageSize < pageSize := Nat.mod_lt _ (by decide)
      simp only [htarget] at hout
      split at hout
      next =>
        obtain ⟨rfl, -⟩ := Prod.mk.inj hout
        exact absurd (by decide) hr
      next hne =>
        -- the piece is on one page, and that page is there
        obtain ⟨n, hn⟩ : ∃ n, n = min (pageSize - (start + off) % pageSize) (filesz - off) := ⟨_, rfl⟩
        rw [← hn] at hout
        have hlen : InPage (start + off) (buf.read off n).length := by
          rw [InPage, ByteMem.length_read]
          omega
        obtain ⟨h₁, s₁⟩ := h.memcpy_shows hva hne hlen
        obtain ⟨hl', s₂, hmapped⟩ := ih (by omega) h₁ hout hr
        refine ⟨hl', ⟨fun va => (s₂.same va).trans (s₁.same va), fun {x} hx => ?_⟩, fun i hlo hhi => ?_⟩
        · have hparts : buf.read off (filesz - off) = buf.read off n ++ buf.read (off + n) (filesz - (off + n)) := by
            rw [← ByteMem.read_add]
            congr 1
            omega
          rw [hparts, ← ByteMem.write_append, ByteMem.length_read, s₂.bytes hx, Nat.add_assoc]
          exact write_at (s₁.bytes hx) _ _
        · by_cases hin : i < off + n
          · have hpage : alignDown (start + i) = alignDown (start + off) := by
              rw [alignDown, alignDown]
              rw [pageSize] at *
              omega
            have hu : pml4Idx (alignDown (start + off)) < 256 := by
              rw [pml4Idx_of_path (path_alignDown _)]
              exact pml4Idx_lt hva
            have hpath : path (start + i) = path (alignDown (start + off)) := by rw [← hpage, path_alignDown]
            rw [vmmIsMapped, translate_page h.pages.inv.tree hu hpath (alignDown_mod _) hne, bne_iff_ne]
            omega
          · have hm := hmapped i (by omega) hhi
            rw [vmmIsMapped] at hm ⊢
            rwa [← s₁.same]
    next hlt =>
      obtain ⟨-, rfl⟩ := Prod.mk.inj hout
      have hnone : filesz - off = 0 := by omega
      refine ⟨h, ?_, fun i hlo hhi => by omega⟩
      rw [hnone, ByteMem.read, List.range_zero, List.map_nil, ByteMem.write_nil]
      exact Shows.refl l

variable {content : List UInt8} {junk : Option ByteMem} {ph : Phdr} {bias : Nat}

/-- **A segment**: its data is in memory, and what else was there is as before. -/
theorem elfMapSegment_shows (h : Loaded vm₀ l pml4 frames) (hload : ph.type = ptLoad)
    (hbelow : ph.memsz ≠ 0 → BelowStack bias ph) {r : Int}
    (hout : elfMapSegment pml4 content junk ph bias l = some (r, l')) (hr : ¬r < 0) :
    ∃ frames', Loaded vm₀ l' pml4 frames' ∧ ∀ va < 2 ^ 47, ∀ b,
      (segmentDataAt content junk bias ph va).or (byteAt l.vm.mem pml4 va) = some b → byteAt l'.vm.mem pml4 va = some b := by
  rw [elfMapSegment] at hout
  split at hout
  next hzero =>
    cases hout
    refine ⟨frames, h, fun va _ b hb => ?_⟩
    rw [segmentDataAt, if_neg fun hc => hc.2.1 hzero] at hb
    exact hb
  next hsz =>
    obtain ⟨hmem, hfile⟩ := hbelow hsz
    have hlow : stackTop - stackSize ≤ vmmUserEnd := by decide
    have huser : vmmUserEnd ≤ 2 ^ 47 := by decide
    obtain ⟨hend, -⟩ := nPages_spec (Nat.le_trans hmem hlow) (Nat.pos_of_ne_zero hsz)
    rw [Nat.add_mul] at hend
    obtain ⟨hpres, hflags⟩ := segFlags_spec ph.flags
    split at hout
    next => cases hout
    next r₁ l₁ hmap =>
      split at hout
      next hr₁ =>
        cases hout
        exact absurd hr₁ hr
      next hr₁ =>
        obtain ⟨frames₁, h₁, hkeeps⟩ := mapPages_keeps hpres hflags (ph.nPages bias) h (alignDown_mod _)
          (Nat.le_trans hend huser) hmap hr₁
        split at hout
        next hnofile =>
          cases hout
          refine ⟨frames₁, h₁, fun va hva b hb => hkeeps va hva b ?_⟩
          rw [segmentDataAt, if_neg (by omega)] at hb
          exact hb
        next hdata =>
          split at hout
          next =>
            cases hout
            exact absurd (by decide) hr
          next buf =>
            obtain ⟨h₂, s₂, hmapped⟩ := writeSegment_shows (segmentBuf content ph buf)
              (Nat.le_trans hfile (by decide)) _ (Nat.le_refl _) h₁ (Option.some.inj hout) hr
            rw [Nat.add_zero, Nat.sub_zero] at s₂
            refine ⟨frames₁, h₂, fun va hva b hb => ?_⟩
            by_cases hin : ph.start bias ≤ va ∧ va < ph.start bias + ph.filesz
            · -- the address is in the segment's data
              obtain ⟨i, rfl⟩ := Nat.exists_eq_add_of_le hin.1
              have hi : i < ((segmentBuf content ph buf).read 0 ph.filesz).length := by
                rw [ByteMem.length_read]
                omega
              rw [segmentDataAt, if_pos ⟨hload, hsz, hin⟩, Option.some_or, Nat.add_sub_cancel_left] at hb
              rw [s₂.byteAt hva (hmapped i (Nat.zero_le _) (by omega)), ByteMem.write_in _ hi, ← hb]
              simp [ByteMem.read]
            · rw [segmentDataAt, if_neg fun hc => hin hc.2.2, Option.none_or] at hb
              have hb₁ := hkeeps va hva b hb
              rw [byteAt] at hb₁
              split at hb₁
              next hm =>
                rw [s₂.byteAt hva hm, ByteMem.write_out]
                · exact hb₁
                · rw [ByteMem.length_read]
                  omega
              next => cases hb₁

/-- **All segments.** The data of the last one that has any is what is found. -/
theorem loadSegments_shows (env : ElfEnv) (phs : List Phdr) : ∀ {i : Nat} {l : Load σ} {g : Ranges} {frames : List Nat},
    Loaded vm₀ l pml4 frames → SegmentsBelowStack bias phs →
    ∀ {r l' g'}, loadSegments pml4 content env bias phs i l g = some (r, l', g') → ¬r < 0 →
    ∃ frames', Loaded vm₀ l' pml4 frames' ∧ ∀ va < 2 ^ 47, ∀ b,
      (dataAt content env bias phs i va).or (byteAt l.vm.mem pml4 va) = some b → byteAt l'.vm.mem pml4 va = some b := by
  induction phs with
  | nil =>
    intro i l g frames h _ r l' g' hout _
    cases hout
    exact ⟨frames, h, fun va _ b hb => hb⟩
  | cons ph phs ih =>
    intro i l g frames h hbelow r l' g' hout hr
    have hrest : SegmentsBelowStack bias phs := fun q hq => hbelow q (List.mem_cons_of_mem _ hq)
    rw [loadSegments] at hout
    split at hout
    next htype =>
      obtain ⟨frames', hl', hall⟩ := ih h hrest hout hr
      refine ⟨frames', hl', fun va hva b hb => hall va hva b ?_⟩
      rw [dataAt, segmentDataAt, if_neg fun hc => htype hc.1, Option.or_none] at hb
      exact hb
    next htype =>
      have hload : ph.type = ptLoad := not_not.mp htype
      split at hout
      next => cases hout
      next r₁ l₁ hmap =>
        split at hout
        next hr₁ =>
          cases hout
          exact absurd hr₁ hr
        next hr₁ =>
          obtain ⟨frames₁, h₁, hstep⟩ := elfMapSegment_shows h hload (hbelow ph List.mem_cons_self hload) hmap hr₁
          obtain ⟨frames', hl', hall⟩ := ih h₁ hrest hout hr
          refine ⟨frames', hl', fun va hva b hb => hall va hva b ?_⟩
          rw [dataAt, Option.or_assoc] at hb
          -- what a later segment has goes before what is there
          cases hd : dataAt content env bias phs (i + 1) va with
          | some c =>
            rw [hd] at hb
            exact hb
          | none =>
            rw [hd, Option.none_or] at hb
            rw [Option.none_or]
            exact hstep va hva b hb

/-! ## The whole load

The last segment with data for an address decides what is there.
-/

variable {ehdr : Ehdr} {phs : List Phdr} {argv envp : List (List UInt8)} {env : ElfEnv} {info : ElfInfo}

/-- **After a load** the data of the segments is in memory, below the stack. -/
theorem elfLoad_shows (hnew : Pages vm₀ vm₀ pml4 []) (hhead : headerOf content = some ehdr)
    (hphdrs : phdrsOf content ehdr = some phs) (hbelow : SegmentsBelowStack (loadBias ehdr) phs) (hfits : Fits argv envp)
    (hpages : ArraysInPage argv envp) (hload : elfLoad env pml4 (.ok content) argv envp ⟨vm₀, []⟩ = some (.ok info, l'))
    {va : Nat} (hva : va < stackTop - stackSize) {b : UInt8}
    (hb : dataAt content env (loadBias ehdr) phs 0 va = some b) : byteAt l'.vm.mem pml4 va = some b := by
  have h₀ := Loaded.new hnew
  have hlow : va < 2 ^ 47 := Nat.lt_trans hva (by decide)
  rw [elfLoad] at hload
  simp only [hhead, hphdrs] at hload
  split at hload
  next => cases hload
  next =>
    split at hload
    next => cases hload
    next r l₁ g hsegs =>
      split at hload
      next => cases hload
      next hr =>
        obtain ⟨frames₁, h₁, hshown⟩ := loadSegments_shows env phs h₀ hbelow hsegs hr
        have hb₁ : byteAt l₁.vm.mem pml4 va = some b := by
          apply hshown va hlow
          rw [hb, Option.some_or]
        -- the stack's pages leave what is below them
        obtain ⟨r₂, l₂, frames₂, hstack, h₂, -, hkeeps, hsame, hzero⟩ := stackPages_loaded (stackSize / pageSize)
          (stackTop - stackSize) l₁ frames₁ h₁ (by decide) (by decide)
        simp only [hstack] at hload
        split at hload
        next => cases hload
        next hr₂ =>
          have hb₂ := byteAt_kept h₁.pages hkeeps hlow (fun _ => hsame va hva) hb₁
          obtain ⟨hmapped, -⟩ := zero_stack h₂ (hzero hr₂)
          split at hload
          next => cases hload
          next =>
            split at hload
            next => cases hload
            next =>
              -- the frame is written above
              obtain ⟨-, s₃⟩ := buildFrame_shows ehdr h₂ hmapped hfits hpages
              have pl := hfits.places
              have hl' : buildFrame pml4 ehdr argv envp l₂ = l' := (Prod.mk.inj (Option.some.inj hload)).2
              rw [hl'] at s₃
              rw [byteAt] at hb₂
              split at hb₂
              next hm =>
                rw [s₃.byteAt hlow hm, frameMem_below pl (Nat.lt_of_lt_of_le hva pl.base)]
                exact hb₂
              next => cases hb₂

/-- A segment with data for an address is among those that `dataAt` looks at. -/
theorem dataAt_isSome (hph : ph ∈ phs) {va : Nat} (hload : ph.type = ptLoad) (hsz : ph.memsz ≠ 0)
    (hin : ph.start bias ≤ va ∧ va < ph.start bias + ph.filesz) (i : Nat) :
    ∃ b, dataAt content env bias phs i va = some b := by
  induction phs generalizing i with
  | nil => cases hph
  | cons q phs ih =>
    rw [dataAt]
    rcases List.mem_cons.mp hph with rfl | hph
    · rw [segmentDataAt, if_pos ⟨hload, hsz, hin⟩]
      cases dataAt content env bias phs (i + 1) va with
      | none => exact ⟨_, rfl⟩
      | some b => exact ⟨b, rfl⟩
    · obtain ⟨b, hb⟩ := ih hph (i + 1)
      exact ⟨b, by rw [hb, Option.some_or]⟩

/-- The table of a segment below the stack is below the stack. -/
theorem Covers.table (hcovers : Covers ehdr ph) (hbelow : BelowStack (loadBias ehdr) ph) {k : Nat}
    (hk : k < ehdr.phnum * 56) : tableAddr ehdr ph + k < stackTop - stackSize ∧
    ph.start (loadBias ehdr) ≤ tableAddr ehdr ph + k ∧ tableAddr ehdr ph + k < ph.start (loadBias ehdr) + ph.filesz := by
  obtain ⟨-, hfirst, hlast⟩ := hcovers
  have hfile := hbelow.file
  have haddr : tableAddr ehdr ph = ph.start (loadBias ehdr) + (ehdr.phoff - ph.offset) := by
    apply Nat.mod_eq_of_lt
    rw [stackTop, stackSize] at hfile
    omega
  omega

/-- A page costs at most four frames. -/
theorem mapPages_room (flags : Pte) (n : Nat) : ∀ {addr k : Nat} {l : Load σ}, Room (4 * n + k) l.vm.pmm →
    ∀ {r l'}, mapPages pml4 flags n addr l = some (r, l') → Room k l'.vm.pmm := by
  induction n with
  | zero =>
    intro addr k l h r l' hout
    cases hout
    rwa [Nat.mul_zero, Nat.zero_add] at h
  | succ n ih =>
    intro addr k l h r l' hout
    have hcost : 4 * (n + 1) + k = 4 * n + k + 3 + 1 := by omega
    rw [hcost] at h
    obtain ⟨h0, hroom⟩ := h.alloc
    have hroom' := hroom.vmmMap pml4 addr l.vm.alloc.1 flags
    rw [mapPages] at hout
    split at hout
    next => exact ih (h.mono (by omega)) hout
    next =>
      simp only at hout
      rw [if_neg h0] at hout
      split at hout
      next =>
        obtain ⟨s, hs, hpair⟩ := Option.map_eq_some_iff.mp hout
        cases hpair
        obtain ⟨fs, hnodup, hlen, hfree⟩ := hroom'
        exact ⟨fs, hnodup, by omega, fun f hf => ((free_some hs).2 f).mpr (.inl (hfree f hf))⟩
      next => exact @ih _ k { l with vm := _ } hroom' r l' hout

omit [PageAlloc σ] in
theorem writeSegment_pmm (buf : ByteMem) (start filesz k : Nat) : ∀ {off : Nat} {l : Load σ}, filesz - off ≤ k →
    (writeSegment pml4 start filesz buf off l).2.vm.pmm = l.vm.pmm := by
  induction k with
  | zero =>
    intro off l hk
    rw [writeSegment, if_neg (by omega)]
  | succ k ih =>
    intro off l hk
    rw [writeSegment]
    split
    next hlt =>
      have hshort := sub_written_lt hlt ((start + off) % 2 ^ 64)
      simp only
      split
      · rfl
      · rw [ih (by omega)]
        rfl
    next => rfl

theorem elfMapSegment_room {k : Nat} (h : Room (4 * ph.nPages bias + k) l.vm.pmm) {r : Int}
    (hout : elfMapSegment pml4 content junk ph bias l = some (r, l')) : Room k l'.vm.pmm := by
  rw [elfMapSegment] at hout
  split at hout
  next =>
    cases hout
    exact h.mono (Nat.le_add_left _ _)
  next =>
    split at hout
    next => cases hout
    next r₁ l₁ hmap =>
      have hroom := mapPages_room _ _ h hmap
      split at hout
      next =>
        cases hout
        exact hroom
      next =>
        split at hout
        next =>
          cases hout
          exact hroom
        next =>
          split at hout
          next =>
            cases hout
            exact hroom
          next buf =>
            have hl' := congrArg (fun out => out.2.vm.pmm) (Option.some.inj hout)
            simp only [writeSegment_pmm _ _ _ _ (Nat.le_refl _)] at hl'
            rwa [← hl']

/-- A file with one segment that can be mapped is loaded where there is memory for the stack. -/
theorem elfLoad_segment (argv envp : List (List UInt8)) (hhead : headerOf content = some ehdr)
    (hphdrs : phdrsOf content ehdr = some [ph]) (htype : ph.type = ptLoad)
    (hmap : (elfMapSegment pml4 content (some fun _ => 0) ph (loadBias ehdr) ⟨vm₀, []⟩).map Prod.fst = some 0)
    (hroom : Room (4 * ph.nPages (loadBias ehdr) + 8192) vm₀.pmm) : ∃ l₁ l₂ info,
    elfMapSegment pml4 content (some fun _ => 0) ph (loadBias ehdr) ⟨vm₀, []⟩ = some (0, l₁) ∧
    stackPages pml4 (stackSize / pageSize) (stackTop - stackSize) l₁ = (0, l₂) ∧
    elfLoad plenty pml4 (.ok content) argv envp ⟨vm₀, []⟩ = some (.ok info, buildFrame pml4 ehdr argv envp l₂) := by
  obtain ⟨⟨r, l₁⟩, hseg, hr⟩ := Option.map_eq_some_iff.mp hmap
  obtain rfl : r = 0 := hr
  have hstack := stackPages_ok pml4 (stackSize / pageSize) (stackTop - stackSize) l₁ (elfMapSegment_room hroom hseg)
  generalize hout : stackPages pml4 (stackSize / pageSize) (stackTop - stackSize) l₁ = out at hstack
  obtain ⟨r, l₂⟩ := out
  obtain rfl : r = 0 := hstack
  refine ⟨l₁, l₂, infoOf ehdr (Ranges.empty.add ph (loadBias ehdr)) argv envp, hseg, hout, ?_⟩
  have hsegs : loadSegments pml4 content plenty (loadBias ehdr) [ph] 0 ⟨vm₀, []⟩ Ranges.empty =
      some (0, l₁, Ranges.empty.add ph (loadBias ehdr)) := by
    have henv : plenty.segment 0 = some fun _ => 0 := rfl
    rw [loadSegments, if_neg (not_not_intro htype), henv, hseg]
    rfl
  rw [elfLoad]
  simp only [hhead, hphdrs, hsegs, hout]
  rfl

/-- Nothing else is mapped below the stack. -/
theorem segment_only (hnew : Pages vm₀ vm₀ pml4 []) (hsz : ph.memsz ≠ 0)
    (huser : SegmentInUserHalf vm₀.mem pml4 bias [] ph) {l₁ l₂ : Load σ}
    (hmap : elfMapSegment pml4 content junk ph bias ⟨vm₀, []⟩ = some (0, l₁))
    (hstack : stackPages pml4 (stackSize / pageSize) (stackTop - stackSize) l₁ = (0, l₂)) (hfits : Fits argv envp)
    (hpages : ArraysInPage argv envp) {va : Nat} (hva : va < stackTop - stackSize)
    (hout : ∀ i < ph.nPages bias, path (ph.page bias i) ≠ path va) :
    byteAt (buildFrame pml4 ehdr argv envp l₂).vm.mem pml4 va = none := by
  obtain ⟨r, l₁', frames₁, hmap', h₁, hof, -⟩ := elfMapSegment_loaded content junk (Loaded.new hnew)
    (PagesOf.new hnew bias) hsz huser
  obtain ⟨-, rfl⟩ := Prod.mk.inj (Option.some.inj (hmap.symm.trans hmap'))
  have hnone : vmmVirtToPhys l₁.vm.mem pml4 va = 0 := by
    by_contra hne
    obtain ⟨q, hq, i, hi, hpath⟩ := hof va (pml4Idx_lt (Nat.lt_trans hva (by decide))) hne
    obtain rfl := List.mem_singleton.mp hq
    exact hout i hi hpath
  obtain ⟨r, l₂', frames₂, hstack', h₂, -, -, hsame, hzero⟩ := stackPages_loaded (stackSize / pageSize)
    (stackTop - stackSize) l₁ frames₁ h₁ (by decide) (by decide)
  obtain ⟨rfl, rfl⟩ := Prod.mk.inj (hstack'.symm.trans hstack)
  obtain ⟨hmapped, -⟩ := zero_stack h₂ (hzero (by decide))
  obtain ⟨-, s₃⟩ := buildFrame_shows ehdr h₂ hmapped hfits hpages
  rw [byteAt, vmmIsMapped, s₃.same, hsame va hva, hnone]
  rfl

end

/-! ### Two files

A program linked at `0x400000`, which is told the wrong address, and a position-independent one, which is told the
right one.
-/

/-- The first page of the file, headers and all. -/
def headSegment (vaddr : Nat) : Phdr := ⟨ptLoad, 5, 0, vaddr, 120, 120⟩

/-- A program linked at `0x400000`. -/
def execFile : List UInt8 := elfFile 0x400000 [headSegment 0x400000]

/-- A position-independent program. -/
def pieFile : List UInt8 := (elfFile 0 [headSegment 0]).set 16 3

theorem execFile_header : headerOf execFile = some ⟨2, 0x400000, 64, 56, 1⟩ ∧
    phdrsOf execFile ⟨2, 0x400000, 64, 56, 1⟩ = some [headSegment 0x400000] := by decide +kernel

theorem pieFile_header : headerOf pieFile = some ⟨3, 0, 64, 56, 1⟩ ∧
    phdrsOf pieFile ⟨3, 0, 64, 56, 1⟩ = some [headSegment 0] := by decide +kernel

theorem manyVm_room {ph : Phdr} {bias : Nat} (h : ph.nPages bias = 1) :
    Room (4 * ph.nPages bias + 8192) (manyVm.vmmCreateSpace 0x1000 true).2.pmm := by
  rw [h, manyVm]
  exact manyFrames_room (by decide)

end MyUnix.Elf
