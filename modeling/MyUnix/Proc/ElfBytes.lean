import MyUnix.Mm.AllocUser
import MyUnix.Proc.ElfPages

/-!
# `Proc.ElfBytes` — what a segment looks like in memory

`elf_map_segment` reads `p_filesz` bytes of the file into a buffer from the kernel heap and copies the whole buffer to
the new pages. How many bytes the read gave is not looked at: where the file ends early, the rest of the buffer is what
was in the heap.

The space is any space whose tables are a tree: the pages of the segment are handed out as in `Mm.Handed`, and then
filled piece by piece (`Written`).

The buffer is what stands between the file and the pages: it comes from the heap, which does not clear it, so its tail
is whatever was there. The condition is exact in both directions: if the read was short, the segment shows the file if
and only if the heap happened to hold zeros, and if it was not, always.
-/

namespace MyUnix.Elf

open Lib Mm PageAlloc PathClass

/-- The bytes of the segment are in the user half, and no page of it is mapped. -/
structure SegmentFresh (m : ByteMem) (pml4 bias : Nat) (ph : Phdr) : Prop where
  inUser : ph.start bias + ph.memsz ≤ vmmUserEnd
  unmapped : ∀ p, ph.start bias / pageSize ≤ p → p * pageSize < ph.start bias + ph.memsz →
    vmmIsMapped m pml4 (p * pageSize) = false

/-- Byte `i` of the segment, as the file and its header have it. -/
def segmentByte (content : List UInt8) (ph : Phdr) (i : Nat) : UInt8 :=
  if i < ph.filesz then (content[ph.offset + i]?).getD 0 else 0

/-- The space shows the segment. -/
def ShowsSegment (m : ByteMem) (pml4 bias : Nat) (content : List UInt8) (ph : Phdr) : Prop :=
  ∀ i < ph.memsz, vmmIsMapped m pml4 (ph.start bias + i) = true ∧
    m (vmmVirtToPhys m pml4 (ph.start bias + i)) = segmentByte content ph i

/-! ## The pages

All pages of the segment are new, so each gets a frame that reads as zero.
-/

section

variable {σ : Type} [PageAlloc σ] {vm₀ vm : Vm σ} {l : Load σ} {pml4 base n start : Nat} {frame : Nat → Option Nat}

/-- **The first loop**, over pages that are not mapped: each of them gets a frame, or the loop fails. -/
theorem mapPages_handed {flags : Pte} (hpres : isPresent flags = true) (hflags : flags &&& 0x000FFFFFFFFFF000#64 = 0#64)
    (hend : (base + n) * pageSize ≤ vmmUserEnd)
    (hun : ∀ p, base ≤ p → p < base + n → vmmIsMapped vm₀.mem pml4 (p * pageSize) = false) (k : Nat) :
    ∀ {l : Load σ} {frame : Nat → Option Nat} {i : Nat}, i + k = n → Handed vm₀ l.vm pml4 frame [] →
    Covers frame base (base + i) → ∀ {r l'}, mapPages pml4 flags k ((base + i) * pageSize) l = some (r, l') → ¬r < 0 →
    ∃ frame', Handed vm₀ l'.vm pml4 frame' [] ∧ Covers frame' base (base + n) := by
  induction k with
  | zero =>
    intro l frame i hi h hc r l' hout _
    obtain rfl : i = n := hi
    cases hout
    exact ⟨frame, h, hc⟩
  | succ k ih =>
    intro l frame i hi h hc r l' hout hr
    have hpage : (base + i) * pageSize < 2 ^ 47 := by
      have hlt : (base + i) * pageSize < (base + n) * pageSize := Nat.mul_lt_mul_of_pos_right (by omega) (by decide)
      exact Nat.lt_of_lt_of_le (Nat.lt_of_lt_of_le hlt hend) (by decide)
    have hnext : ((base + i) * pageSize + pageSize) % 2 ^ 64 = (base + (i + 1)) * pageSize := by
      rw [← Nat.add_assoc, Nat.succ_mul]
      apply Nat.mod_eq_of_lt
      have hps : pageSize ≤ 2 ^ 47 := by decide
      have hsum : (2 : Nat) ^ 47 + 2 ^ 47 < 2 ^ 64 := by decide
      omega
    have hnone : frame (base + i) = none := hc.none_of (by omega)
    -- nothing has mapped this page so far
    have hfree : vmmIsMapped l.vm.mem pml4 ((base + i) * pageSize) = false := by
      have hwas := hun (base + i) (Nat.le_add_right _ _) (by omega)
      rw [vmmIsMapped] at hwas ⊢
      rw [h.same (.inl hpage)]
      · exact hwas
      · rwa [Nat.mul_div_cancel _ (by decide)]
    rw [mapPages, hfree] at hout
    simp only [Bool.false_eq_true, if_false] at hout
    by_cases h0 : l.vm.alloc.1 = 0
    · rw [if_pos h0] at hout
      cases hout
      exact absurd (by decide) hr
    · rw [if_neg h0] at hout
      rcases (h.alloc h0).map hpage hnone hpres hflags with ⟨hr', h'⟩ | ⟨hr', -, h'⟩
      · rw [hr', if_neg (by decide), hnext] at hout
        exact @ih { l with vm := _ } _ (i + 1) (by omega) h' (hc.push (Nat.le_add_right _ _) _) _ _ hout hr
      · rw [hr', if_pos (by decide)] at hout
        obtain ⟨s, -, hpair⟩ := Option.map_eq_some_iff.mp hout
        cases hpair
        exact absurd (by decide) hr

/-! ## The bytes

The invariant of the loop is how far it has come. A piece ends at a page, so it lies in one frame.
-/

/-- The pages hold the first `off` bytes of the buffer from `start` on, and zeros elsewhere. -/
structure Written (vm vm' : Vm σ) (pml4 : Nat) (frame : Nat → Option Nat) (start : Nat) (buf : ByteMem) (off : Nat) :
    Prop where
  tree : UserTree IsPath vm'.mem pml4
  tables {q} : IsPath q → tableAt vm'.mem pml4 q = tableAt vm.mem pml4 q
  same (va) : vmmVirtToPhys vm'.mem pml4 va = vmmVirtToPhys vm.mem pml4 va
  bytes {p o f} : o < pageSize → frame p = some f →
    vm'.mem (f + o) =
      if start ≤ p * pageSize + o ∧ p * pageSize + o < start + off then buf (p * pageSize + o - start) else 0

variable {buf : ByteMem} {off : Nat}

theorem written_zero (h : Handed vm₀ vm pml4 frame []) (start : Nat) (buf : ByteMem) :
    Written vm vm pml4 frame start buf 0 where
  tree := h.inv.tree
  tables _ := rfl
  same _ := rfl
  bytes ho hf := by
    rw [if_neg (by omega)]
    exact h.clear (.inr ⟨_, hf⟩) ho

/-- **One piece**, within a page. -/
theorem Written.piece (h : Handed vm₀ vm pml4 frame []) {vm' : Vm σ} (w : Written vm vm' pml4 frame start buf off)
    {f k : Nat} (hf : frame ((start + off) / pageSize) = some f) (hk : (start + off) % pageSize + k ≤ pageSize) :
    Written vm { vm' with mem := vm'.mem.write (f + (start + off) % pageSize) (buf.read off k) } pml4 frame start buf
      (off + k) := by
  obtain ⟨-, hal, -⟩ := h.frame_spec (.inr ⟨_, hf⟩)
  have ha : AgreeOff f vm'.mem (vm'.mem.write (f + (start + off) % pageSize) (buf.read off k)) := by
    apply agreeOff_write (Nat.le_add_right _ _)
    rw [ByteMem.length_read]
    omega
  have hun : Unused IsPath vm'.mem pml4 f := fun q hq ht => (h.held (.inr ⟨_, hf⟩)).2.2 q hq ((w.tables hq).symm.trans ht)
  refine {
    tree := ha.tree w.tree hal hun
    tables := fun hq => (ha.tableAt_eq w.tree hal hun hq).trans (w.tables hq)
    same := fun va => (ha.virtToPhys_eq w.tree hal hun (reaches_all va)).trans (w.same va)
    bytes := fun {p o g} ho hg => ?_ }
  have hold := w.bytes ho hg
  have htarget := Nat.div_add_mod (start + off) pageSize
  rw [Nat.mul_comm] at htarget
  have hrest : (start + off) % pageSize < pageSize := Nat.mod_lt _ (by decide)
  show vm'.mem.write _ _ (g + o) = _
  by_cases hin : start + off ≤ p * pageSize + o ∧ p * pageSize + o < start + off + k
  · -- the byte is in the piece: it is on the page of the piece, so in its frame
    have hp : p = (start + off) / pageSize := by
      rw [pageSize] at *
      omega
    subst hp
    obtain rfl : g = f := Option.some.inj (hg.symm.trans hf)
    obtain ⟨j, hj⟩ := Nat.exists_eq_add_of_le hin.1
    have haddr : g + o = g + (start + off) % pageSize + j := by omega
    have hlen : j < (buf.read off k).length := by
      rw [ByteMem.length_read]
      omega
    rw [if_pos (by omega), haddr, ByteMem.write_in _ hlen, hj, Nat.add_assoc, Nat.add_sub_cancel_left]
    simp [ByteMem.read]
  · -- the byte keeps its value
    have hiff : (start ≤ p * pageSize + o ∧ p * pageSize + o < start + (off + k)) ↔
        (start ≤ p * pageSize + o ∧ p * pageSize + o < start + off) := by omega
    simp only [hiff]
    rw [← hold]
    apply ByteMem.write_out
    rw [ByteMem.length_read]
    by_cases hp : p = (start + off) / pageSize
    · subst hp
      obtain rfl : g = f := Option.some.inj (hg.symm.trans hf)
      omega
    · -- another page has another frame
      have hne : g ≠ f := by
        rintro rfl
        exact hp (h.assigned.inj hg hf)
      have hal' := (h.frame_spec (.inr ⟨_, hg⟩)).2.1
      rw [pageSize] at *
      omega

/-- **The second loop**, where all pages have their frames: it ends well, with the whole buffer in memory. -/
theorem writeSegment_written (h : Handed vm₀ vm pml4 frame []) {filesz : Nat}
    (hpages : ∀ off < filesz, ∃ f, frame ((start + off) / pageSize) = some f) (hlt : start + filesz < 2 ^ 64) (j : Nat) :
    ∀ {off : Nat} {l : Load σ}, filesz - off ≤ j → off ≤ filesz → Written vm l.vm pml4 frame start buf off →
    ∃ l', writeSegment pml4 start filesz buf off l = (0, l') ∧ Written vm l'.vm pml4 frame start buf filesz := by
  induction j with
  | zero =>
    intro off l hj hle w
    obtain rfl : off = filesz := by omega
    rw [writeSegment, if_neg (by omega)]
    exact ⟨l, rfl, w⟩
  | succ j ih =>
    intro off l hj hle w
    rw [writeSegment]
    split
    next hoff =>
      obtain ⟨f, hf⟩ := hpages off hoff
      have htarget : (start + off) % 2 ^ 64 = start + off := Nat.mod_eq_of_lt (by omega)
      have hphys : vmmVirtToPhys l.vm.mem pml4 (alignDown (start + off)) = f := by
        have hpage := h.page hf (o := 0) (by decide)
        rw [Nat.add_zero, Nat.add_zero] at hpage
        rw [w.same, alignDown, hpage]
      have h0 := (h.frame_spec (.inr ⟨_, hf⟩)).1
      simp only [htarget, hphys, h0, if_false]
      have hrest : (start + off) % pageSize < pageSize := Nat.mod_lt _ (by decide)
      exact ih (by omega) (by omega) (w.piece h hf (by omega))
    next hoff =>
      obtain rfl : off = filesz := by omega
      exact ⟨l, rfl, w⟩

/-! ## The segment

Both loops together, and the comparison with the file.
-/

variable {l' : Load σ} {content : List UInt8} {junk : Option ByteMem} {ph : Phdr} {bias : Nat}

/-- The pages of a segment in the user half are those its bytes lie on. -/
theorem nPages_spec (hend : ph.start bias + ph.memsz ≤ vmmUserEnd) (hpos : 0 < ph.memsz) :
    (ph.start bias / pageSize + ph.nPages bias) * pageSize ≤ vmmUserEnd ∧
    ∀ p, p < ph.start bias / pageSize + ph.nPages bias ↔ p * pageSize < ph.start bias + ph.memsz := by
  have hlt : ph.memsz + ph.start bias % pageSize < 2 ^ 64 - pageSize := by
    rw [vmmUserEnd, pageSize] at *
    omega
  have hn : ph.nPages bias = pagesOf (ph.memsz + ph.start bias % pageSize) := by
    rw [Phdr.nPages, Nat.mod_eq_of_lt (by omega), alignUp_eq (by omega), Nat.mul_div_cancel _ (by decide)]
  rw [hn, pagesOf]
  rw [vmmUserEnd, pageSize] at *
  refine ⟨?_, fun p => ?_⟩
  · omega
  · omega

/-- **A call that returns 0** has given the segment its pages, with the buffer in them. -/
theorem elfMapSegment_written (hinv : TreeInv IsPath l.vm pml4) (hseg : SegmentFresh l.vm.mem pml4 bias ph)
    (hle : ph.filesz ≤ ph.memsz) (hpos : 0 < ph.memsz) (hout : elfMapSegment pml4 content junk ph bias l = some (0, l')) :
    ∃ vm₁ frame, Handed l.vm vm₁ pml4 frame [] ∧
      (∀ p, (∃ f, frame p = some f) ↔ ph.start bias / pageSize ≤ p ∧ p * pageSize < ph.start bias + ph.memsz) ∧
      Written vm₁ l'.vm pml4 frame (ph.start bias) (segmentBuf content ph (junk.getD fun _ => 0)) ph.filesz ∧
      (0 < ph.filesz → junk.isSome) := by
  obtain ⟨hend, hmem⟩ := nPages_spec hseg.inUser hpos
  obtain ⟨hpres, hflags⟩ := segFlags_spec ph.flags
  have hun : ∀ p, ph.start bias / pageSize ≤ p → p < ph.start bias / pageSize + ph.nPages bias →
      vmmIsMapped l.vm.mem pml4 (p * pageSize) = false := fun p hlo hhi => hseg.unmapped p hlo ((hmem p).mp hhi)
  rw [elfMapSegment, if_neg (by omega)] at hout
  split at hout
  next => cases hout
  next r l₁ hmap =>
    split at hout
    next hr =>
      cases hout
      exact absurd hr (by decide)
    next hr =>
      rw [alignDown] at hmap
      -- all pages are mapped, each to a frame that reads as zero
      obtain ⟨frame, h, hc⟩ := @mapPages_handed σ _ l.vm pml4 _ _ _ hpres hflags hend hun (ph.nPages bias) l
        (fun _ => none) 0 (Nat.zero_add _) (Handed.refl hinv) (Covers.empty _) r l₁ hmap hr
      have hcovers : ∀ p, (∃ f, frame p = some f) ↔
          ph.start bias / pageSize ≤ p ∧ p * pageSize < ph.start bias + ph.memsz := fun p => by rw [hc p, hmem p]
      split at hout
      next hzero =>
        cases hout
        rw [hzero]
        exact ⟨l'.vm, frame, h, hcovers, written_zero h _ _, fun hlt => absurd hlt (lt_irrefl 0)⟩
      next hfile =>
        split at hout
        next => cases hout
        next buf =>
          -- every byte of the file has a page, so the second loop goes through to its end
          have hpages : ∀ off < ph.filesz, ∃ f, frame ((ph.start bias + off) / pageSize) = some f := by
            intro off hoff
            rw [hcovers]
            refine ⟨Nat.div_le_div_right (Nat.le_add_right _ _), ?_⟩
            have := Nat.div_mul_le_self (ph.start bias + off) pageSize
            omega
          have hlt : ph.start bias + ph.filesz < 2 ^ 64 := by
            have := hseg.inUser
            rw [vmmUserEnd] at this
            omega
          obtain ⟨l₂, hwrite, w⟩ := writeSegment_written h hpages hlt _ (Nat.le_refl _) (Nat.zero_le _)
            (written_zero h _ (segmentBuf content ph buf))
          rw [hwrite] at hout
          cases hout
          exact ⟨l₁.vm, frame, h, hcovers, w, fun _ => rfl⟩

/-- What the read has put into the buffer. -/
theorem segmentBuf_of_lt {buf : ByteMem} {i : Nat} (hi : i < ph.filesz) :
    segmentBuf content ph buf i = (content[ph.offset + i]?).getD (buf i) := by
  rw [segmentBuf, readAt, List.getElem?_take_of_lt hi, List.getElem?_drop]

/-- **When a segment that was mapped shows the file**: where the file ends before `p_filesz` bytes, the buffer from the
    heap held zeros. -/
theorem segment_bytes_iff (hinv : TreeInv IsPath l.vm pml4) (hseg : SegmentFresh l.vm.mem pml4 bias ph)
    (hle : ph.filesz ≤ ph.memsz) (hout : elfMapSegment pml4 content junk ph bias l = some (0, l')) :
    ShowsSegment l'.vm.mem pml4 bias content ph ↔
      ∀ buf, junk = some buf → ∀ i < ph.filesz, content.length ≤ ph.offset + i → buf i = 0 := by
  rcases Nat.eq_zero_or_pos ph.memsz with hzero | hpos
  · refine iff_of_true (fun i hi => ?_) fun buf _ i hi => ?_
    · omega
    · omega
  obtain ⟨vm₁, frame, h, hcovers, w, hsome⟩ := elfMapSegment_written hinv hseg hle hpos hout
  -- byte by byte: what is at the address of byte `i`
  have hbyte : ∀ i < ph.memsz, vmmIsMapped l'.vm.mem pml4 (ph.start bias + i) = true ∧
      l'.vm.mem (vmmVirtToPhys l'.vm.mem pml4 (ph.start bias + i)) =
        if i < ph.filesz then segmentBuf content ph (junk.getD fun _ => 0) i else 0 := by
    intro i hi
    have ho : (ph.start bias + i) % pageSize < pageSize := Nat.mod_lt _ (by decide)
    have hsplit := Nat.div_add_mod (ph.start bias + i) pageSize
    rw [Nat.mul_comm] at hsplit
    obtain ⟨f, hf⟩ : ∃ f, frame ((ph.start bias + i) / pageSize) = some f := by
      rw [hcovers]
      refine ⟨Nat.div_le_div_right (Nat.le_add_right _ _), ?_⟩
      omega
    have hphys : vmmVirtToPhys l'.vm.mem pml4 (ph.start bias + i) = f + (ph.start bias + i) % pageSize := by
      have hpage := h.page hf ho
      rwa [hsplit, ← w.same] at hpage
    have hmem := w.bytes ho hf
    have h0 := (h.frame_spec (.inr ⟨_, hf⟩)).1
    rw [hsplit] at hmem
    refine ⟨?_, ?_⟩
    · rw [vmmIsMapped, hphys, bne_iff_ne]
      omega
    · rw [hphys, hmem, Nat.add_sub_cancel_left]
      have hiff : (ph.start bias ≤ ph.start bias + i ∧ ph.start bias + i < ph.start bias + ph.filesz) ↔ i < ph.filesz := by
        omega
      simp only [hiff]
  constructor
  · intro hshows buf hbuf i hi hend
    have hvalue := (hshows i (by omega)).2
    rw [(hbyte i (by omega)).2, if_pos hi, segmentByte, if_pos hi, segmentBuf_of_lt hi, hbuf,
      List.getElem?_eq_none hend] at hvalue
    exact hvalue
  · intro hzeros i hi
    refine ⟨(hbyte i hi).1, ?_⟩
    rw [(hbyte i hi).2, segmentByte]
    split
    next hlt =>
      rw [segmentBuf_of_lt hlt]
      rcases Nat.lt_or_ge (ph.offset + i) content.length with hin | hend
      · rw [List.getElem?_eq_getElem hin]
        rfl
      · obtain ⟨buf, hbuf⟩ := Option.isSome_iff_exists.mp (hsome (by omega))
        rw [List.getElem?_eq_none hend, hbuf]
        exact hzeros buf hbuf i hlt hend
    next => rfl

end

/-- Two bytes of the file at 0x400ffe, and two more behind them on the next page. -/
def twoPages : Phdr := ⟨ptLoad, 6, 0, 0x400FFE, 2, 4⟩

theorem twoPages_fresh : SegmentFresh clearedVm.mem 0x1000 0 twoPages where
  inUser := by decide
  unmapped p _ hp := by
    have hlt : p * pageSize < 2 ^ 47 := Nat.lt_trans hp (by decide)
    rw [vmmIsMapped, clearedVm_none hlt]
    rfl

/-- A heap that was used before. -/
def usedHeap : ByteMem := fun _ => 7

theorem twoPages_mapped (content : List UInt8) (h : content = [1, 2] ∨ content = [1]) :
    ∃ l', elfMapSegment 0x1000 content (some usedHeap) twoPages 0 ⟨clearedVm, []⟩ = some (0, l') := by
  have hr : (elfMapSegment 0x1000 content (some usedHeap) twoPages 0 ⟨clearedVm, []⟩).map Prod.fst = some 0 := by
    rcases h with rfl | rfl
    · decide +kernel
    · decide +kernel
  obtain ⟨⟨r, l'⟩, hout, hr⟩ := Option.map_eq_some_iff.mp hr
  cases hr
  exact ⟨l', hout⟩

theorem segment_bytes_two : ∃ l', elfMapSegment 0x1000 [1, 2] (some usedHeap) twoPages 0 ⟨clearedVm, []⟩ = some (0, l') ∧
    ShowsSegment l'.vm.mem 0x1000 0 [1, 2] twoPages := by
  obtain ⟨l', hout⟩ := twoPages_mapped [1, 2] (.inl rfl)
  refine ⟨l', hout, (segment_bytes_iff clearedVm_tree twoPages_fresh (by decide) hout).mpr fun buf _ i hi hend => ?_⟩
  have hlt : i < 2 := hi
  have hle : 2 ≤ 0 + i := hend
  omega

/-- **A file with one byte less**: the second byte of the segment is what was in the heap. -/
theorem segment_shows_heap : TreeInv IsPath clearedVm 0x1000 ∧ SegmentFresh clearedVm.mem 0x1000 0 twoPages ∧
    ∃ l', elfMapSegment 0x1000 [1] (some usedHeap) twoPages 0 ⟨clearedVm, []⟩ = some (0, l') ∧
      l'.vm.mem (vmmVirtToPhys l'.vm.mem 0x1000 0x400FFF) = 7 ∧ ¬ShowsSegment l'.vm.mem 0x1000 0 [1] twoPages := by
  have hr : (elfMapSegment 0x1000 [1] (some usedHeap) twoPages 0 ⟨clearedVm, []⟩).map (fun out =>
      (out.1, out.2.vm.mem (vmmVirtToPhys out.2.vm.mem 0x1000 0x400FFF))) = some (0, 7) := by decide +kernel
  obtain ⟨⟨r, l'⟩, hout, hpair⟩ := Option.map_eq_some_iff.mp hr
  obtain ⟨rfl, hbyte⟩ := Prod.mk.inj hpair
  refine ⟨clearedVm_tree, twoPages_fresh, l', hout, hbyte, fun hshows => ?_⟩
  have hvalue := (hshows 1 (by decide)).2
  rw [show twoPages.start 0 + 1 = 0x400FFF from rfl, hbyte] at hvalue
  exact absurd hvalue (by decide)

end MyUnix.Elf
