import MyUnix.Mm.SpacePages
import MyUnix.Proc.Elf

/-!
# `Proc.ElfCopy` — the copy loop of `elf_map_segment` in any space

The loop writes the buffer page by page through the direct map, at whatever physical address `vmm_virt_to_phys` gives for
the page. Nothing is assumed of the tables but what makes that a copy: the mapped pages of the user half have different
frames (`DistinctFrames`), and none of these frames is a table that a translation reads (`TablesApart`). Without the second
condition the loop can write over the entry that it has come through.

`Copied` is what the loop has done after `off` bytes. That the translation is still that of before follows from it.

This is the loop on its own, for any caller and any space, which is why the two hypotheses are about the space and not
about how it was built. They are seen to be needed: the memory at the end is a small space with a table under one of
its own pages, where the copy of one byte unmaps the page that it came through.
-/

namespace MyUnix.Elf

open Lib Mm

variable {m m' m₀ : ByteMem} {pml4 : Nat}

/-! ## One page

A byte and its page have the same frame; different mapped bytes of the user half are at different places.
-/

/-- An address has no translation, nor has its page; or it is as far from that of its page as in the page. -/
theorem virtToPhys_page (m : ByteMem) (pml4 va : Nat) :
    (vmmVirtToPhys m pml4 va = 0 ∧ vmmVirtToPhys m pml4 (alignDown va) = 0) ∨
      (vmmVirtToPhys m pml4 va = vmmVirtToPhys m pml4 (alignDown va) + va % pageSize ∧
        vmmVirtToPhys m pml4 (alignDown va) % pageSize = 0) := by
  have hpath := path_alignDown va
  simp only [path, List.cons.injEq, and_true] at hpath
  obtain ⟨h4, h3, h2, h1⟩ := hpath
  have h30 : va % 2 ^ 30 = alignDown va % 2 ^ 30 + va % pageSize := by
    rw [alignDown, pageSize]
    omega
  have h21 : va % 2 ^ 21 = alignDown va % 2 ^ 21 + va % pageSize := by
    rw [alignDown, pageSize]
    omega
  have hal := alignDown_mod va
  have hal30 : alignDown va % 2 ^ 30 % pageSize = 0 := by
    rw [Nat.mod_mod_of_dvd _ (by decide), hal]
  have hal21 : alignDown va % 2 ^ 21 % pageSize = 0 := by
    rw [Nat.mod_mod_of_dvd _ (by decide), hal]
  have hadd : ∀ (e : Pte) {o : Nat}, o % pageSize = 0 → (pteAddr e + o) % pageSize = 0 := by
    intro e o ho
    rw [Nat.add_mod, pteAddr_mod, ho, Nat.add_zero, Nat.zero_mod]
  simp only [vmmVirtToPhys, h4, h3, h2, h1]
  by_cases p4 : isPresent (entry m pml4 (pml4Idx va)) = true
  · simp only [p4, Bool.not_true, Bool.false_eq_true, if_false]
    by_cases p3 : isPresent (entry m (pteAddr (entry m pml4 (pml4Idx va))) (pdptIdx va)) = true
    · simp only [p3, Bool.not_true, Bool.false_eq_true, if_false]
      split_ifs
      · -- a page of 1 GiB
        exact .inr ⟨by rw [h30, Nat.add_assoc], hadd _ hal30⟩
      · exact .inl ⟨rfl, rfl⟩
      · -- a page of 2 MiB
        exact .inr ⟨by rw [h21, Nat.add_assoc], hadd _ hal21⟩
      · exact .inl ⟨rfl, rfl⟩
      · rw [hal, Nat.add_zero]
        exact .inr ⟨rfl, pteAddr_mod _⟩
    · exact .inl ⟨if_pos (by simp [p3]), if_pos (by simp [p3])⟩
  · exact .inl ⟨if_pos (by simp [p4]), if_pos (by simp [p4])⟩

/-- A mapped address is in the frame of its page. -/
theorem virtToPhys_mapped {va : Nat} (hne : vmmVirtToPhys m pml4 va ≠ 0) :
    vmmVirtToPhys m pml4 va = vmmVirtToPhys m pml4 (alignDown va) + va % pageSize ∧
      vmmVirtToPhys m pml4 (alignDown va) % pageSize = 0 := by
  rcases virtToPhys_page m pml4 va with ⟨h0, -⟩ | hpage
  · exact absurd h0 hne
  · exact hpage

/-- The mapped pages of the user half have frames that are not 0 and differ. -/
structure DistinctFrames (m : ByteMem) (pml4 : Nat) : Prop where
  nonzero {va} : va < 2 ^ 47 → vmmVirtToPhys m pml4 va ≠ 0 → vmmVirtToPhys m pml4 (alignDown va) ≠ 0
  inj {va va'} : va < 2 ^ 47 → va' < 2 ^ 47 → vmmVirtToPhys m pml4 (alignDown va) ≠ 0 →
    vmmVirtToPhys m pml4 (alignDown va) = vmmVirtToPhys m pml4 (alignDown va') → alignDown va = alignDown va'

/-- No table that the translation of a user address reads overlaps the frame of a mapped page. -/
def TablesApart (m : ByteMem) (pml4 : Nat) : Prop :=
  ∀ va < 2 ^ 47, vmmVirtToPhys m pml4 (alignDown va) ≠ 0 → ∀ va' < 2 ^ 47, ∀ q i r t, path va' = q ++ i :: r →
    tableAt m pml4 q = some t →
    t + pageSize ≤ vmmVirtToPhys m pml4 (alignDown va) ∨ vmmVirtToPhys m pml4 (alignDown va) + pageSize ≤ t

namespace DistinctFrames

variable (h : DistinctFrames m pml4) {va va' : Nat}
include h

/-- Different addresses have different bytes. -/
theorem phys_inj (hva : va < 2 ^ 47) (hva' : va' < 2 ^ 47) (hne : vmmVirtToPhys m pml4 va ≠ 0)
    (heq : vmmVirtToPhys m pml4 va = vmmVirtToPhys m pml4 va') : va = va' := by
  obtain ⟨hp, hal⟩ := virtToPhys_mapped hne
  obtain ⟨hp', hal'⟩ := virtToPhys_mapped (heq ▸ hne)
  have hlt : va % pageSize < pageSize := Nat.mod_lt _ (by decide)
  have hlt' : va' % pageSize < pageSize := Nat.mod_lt _ (by decide)
  rw [hp, hp'] at heq
  have hframe : vmmVirtToPhys m pml4 (alignDown va) = vmmVirtToPhys m pml4 (alignDown va') := by
    rw [pageSize] at *
    omega
  have hpage := h.inj hva hva' (h.nonzero hva hne) hframe
  have hoff : va % pageSize = va' % pageSize := by
    rw [hframe] at heq
    exact Nat.add_left_cancel heq
  rw [← alignDown_add_mod va, ← alignDown_add_mod va', hpage, hoff]

/-- What is written to mapped bytes only does not change the translation. -/
theorem translate_kept (ht : TablesApart m pml4)
    (hout : ∀ x, (∀ va < 2 ^ 47, vmmVirtToPhys m pml4 va ≠ 0 → x ≠ vmmVirtToPhys m pml4 va) → m' x = m x)
    (hva : va < 2 ^ 47) : vmmVirtToPhys m' pml4 va = vmmVirtToPhys m pml4 va := by
  apply virtToPhys_congr
  intro q i r t hpath htable
  have hi : i < 512 := path_lt va (by rw [hpath]; simp)
  apply ByteMem.word_eq_word
  intro j hj
  apply hout
  rintro x hx hne heq
  obtain ⟨hp, -⟩ := virtToPhys_mapped hne
  have hlt : x % pageSize < pageSize := Nat.mod_lt _ (by decide)
  have hapart := ht x hx (h.nonzero hx hne) va hva q i r t hpath htable
  rw [slot] at heq
  rw [pageSize] at *
  omega

end DistinctFrames

/-! ## The loop

The invariant says what is at the mapped addresses, and that everything else is as before. A page that is not mapped
ends the loop with an error, and what was copied stays.
-/

/-- The first `off` bytes of the buffer are at the mapped addresses from `vaddr` on, and nothing else has changed since
`m₀`. -/
structure Copied (m₀ m : ByteMem) (pml4 vaddr : Nat) (buf : ByteMem) (off : Nat) : Prop where
  mapped : ∀ i < off, vmmVirtToPhys m₀ pml4 (vaddr + i) ≠ 0
  bytes  : ∀ i < off, m (vmmVirtToPhys m₀ pml4 (vaddr + i)) = buf i
  other  : ∀ x, (∀ i < off, x ≠ vmmVirtToPhys m₀ pml4 (vaddr + i)) → m x = m₀ x

theorem copied_zero (m : ByteMem) (pml4 vaddr : Nat) (buf : ByteMem) : Copied m m pml4 vaddr buf 0 :=
  ⟨fun _ hi => absurd hi (Nat.not_lt_zero _), fun _ hi => absurd hi (Nat.not_lt_zero _), fun _ _ => rfl⟩

namespace Copied

variable {vaddr off filesz n : Nat} {buf : ByteMem}

/-- The translation is that of before. -/
theorem same (w : Copied m₀ m pml4 vaddr buf off) (h : DistinctFrames m₀ pml4) (ht : TablesApart m₀ pml4)
    (hend : vaddr + off ≤ 2 ^ 47) {va : Nat} (hva : va < 2 ^ 47) : vmmVirtToPhys m pml4 va = vmmVirtToPhys m₀ pml4 va := by
  refine h.translate_kept ht (fun x hx => w.other x fun i hi => ?_) hva
  exact hx (vaddr + i) (by omega) (w.mapped i hi)

/-- **One piece**, within a page. -/
theorem piece (w : Copied m₀ m pml4 vaddr buf off) (h : DistinctFrames m₀ pml4) (hend : vaddr + (off + n) ≤ 2 ^ 47)
    (hne : vmmVirtToPhys m₀ pml4 (alignDown (vaddr + off)) ≠ 0) (hn : (vaddr + off) % pageSize + n ≤ pageSize) :
    Copied m₀ (m.write (vmmVirtToPhys m₀ pml4 (alignDown (vaddr + off)) + (vaddr + off) % pageSize) (buf.read off n)) pml4
      vaddr buf (off + n) := by
  -- the bytes of the piece lie one after the other in the frame
  have hphys : ∀ j < n, vmmVirtToPhys m₀ pml4 (vaddr + (off + j)) =
      vmmVirtToPhys m₀ pml4 (alignDown (vaddr + off)) + (vaddr + off) % pageSize + j := by
    intro j hj
    have hpage : alignDown (vaddr + (off + j)) = alignDown (vaddr + off) ∧
        (vaddr + (off + j)) % pageSize = (vaddr + off) % pageSize + j := by
      rw [alignDown, alignDown, pageSize] at *
      omega
    rcases virtToPhys_page m₀ pml4 (vaddr + (off + j)) with ⟨-, h0⟩ | ⟨hp, -⟩
    · rw [hpage.1] at h0
      exact absurd h0 hne
    · rw [hp, hpage.1, hpage.2, Nat.add_assoc]
  have hmapped : ∀ i < off + n, vmmVirtToPhys m₀ pml4 (vaddr + i) ≠ 0 := by
    intro i hi
    by_cases hlt : i < off
    · exact w.mapped i hlt
    · obtain ⟨j, rfl⟩ := Nat.exists_eq_add_of_le (Nat.not_lt.mp hlt)
      rw [hphys j (by omega)]
      omega
  refine ⟨hmapped, ?_, ?_⟩
  · intro i hi
    by_cases hlt : i < off
    · -- an earlier byte is not on one of the piece
      rw [ByteMem.write_out _ (by
        rw [ByteMem.length_read]
        by_contra hin
        rw [not_or, Nat.not_lt, Nat.not_le] at hin
        obtain ⟨j, hj⟩ := Nat.exists_eq_add_of_le hin.1
        have hjn : j < n := by omega
        have heq := h.phys_inj (by omega) (by omega) (w.mapped i hlt) (hj.trans (hphys j hjn).symm)
        omega)]
      exact w.bytes i hlt
    · obtain ⟨j, rfl⟩ := Nat.exists_eq_add_of_le (Nat.not_lt.mp hlt)
      have hj : j < n := by omega
      have hlen : j < (buf.read off n).length := by
        rw [ByteMem.length_read]
        exact hj
      rw [hphys j hj, ByteMem.write_in _ hlen]
      simp [ByteMem.read]
  · intro x hx
    rw [ByteMem.write_out _ (by
      rw [ByteMem.length_read]
      by_contra hin
      rw [not_or, Nat.not_lt, Nat.not_le] at hin
      obtain ⟨j, hj⟩ := Nat.exists_eq_add_of_le hin.1
      have hjn : j < n := by omega
      exact hx (off + j) (by omega) (hj.trans (hphys j hjn).symm))]
    exact w.other x fun i hi => hx i (by omega)

end Copied

variable {σ : Type} {vaddr filesz : Nat} {buf : ByteMem}

/-- The loop ends: it has copied everything, or it has met a page that is not mapped. -/
theorem writeSegment_ends (h : DistinctFrames m₀ pml4) (ht : TablesApart m₀ pml4) (hend : vaddr + filesz < 2 ^ 47) (k : Nat) :
    ∀ {off : Nat} {l : Load σ}, filesz - off ≤ k → off ≤ filesz → Copied m₀ l.vm.mem pml4 vaddr buf off →
      (∃ l', writeSegment pml4 vaddr filesz buf off l = (0, l') ∧ Copied m₀ l'.vm.mem pml4 vaddr buf filesz) ∨
        ∃ l' i, writeSegment pml4 vaddr filesz buf off l = (-efault, l') ∧ i < filesz ∧
          vmmVirtToPhys m₀ pml4 (vaddr + i) = 0 := by
  induction k with
  | zero =>
      intro off l hk hle w
      obtain rfl : off = filesz := by omega
      rw [writeSegment, if_neg (Nat.lt_irrefl off)]
      exact .inl ⟨l, rfl, w⟩
  | succ k ih =>
      intro off l hk hle w
      by_cases hoff : off < filesz
      · have htarget : (vaddr + off) % 2 ^ 64 = vaddr + off := Nat.mod_eq_of_lt (by omega)
        have hrest : (vaddr + off) % pageSize < pageSize := Nat.mod_lt _ (by decide)
        have hpage : alignDown (vaddr + off) < 2 ^ 47 := by
          have := alignDown_add_mod (vaddr + off)
          omega
        rw [writeSegment, if_pos hoff]
        simp only [htarget]
        rw [w.same h ht (by omega) hpage]
        by_cases h0 : vmmVirtToPhys m₀ pml4 (alignDown (vaddr + off)) = 0
        · rw [if_pos h0]
          refine .inr ⟨l, off, rfl, hoff, ?_⟩
          by_contra hne
          exact h.nonzero (by omega) hne h0
        · rw [if_neg h0]
          exact ih (by omega) (by omega) (w.piece h (by omega) h0 (by omega))
      · obtain rfl : off = filesz := by omega
        rw [writeSegment, if_neg hoff]
        exact .inl ⟨l, rfl, w⟩

/-- **The copy loop.** Where the frames of the mapped pages differ and are no tables, the loop ends; with all touched pages
mapped it returns 0, the buffer is read back through the tables and every other byte of memory is as before; with one that
is not mapped it returns `-EFAULT`. -/
theorem writeSegment_copies (pml4 vaddr filesz : Nat) (buf : ByteMem) (l : Load σ) (hend : vaddr + filesz < 2 ^ 47)
    (h : DistinctFrames l.vm.mem pml4) (ht : TablesApart l.vm.mem pml4) :
    ((∀ i < filesz, vmmIsMapped l.vm.mem pml4 (vaddr + i) = true) →
      ∃ l', writeSegment pml4 vaddr filesz buf 0 l = (0, l') ∧
        (∀ i < filesz, l'.vm.mem (vmmVirtToPhys l'.vm.mem pml4 (vaddr + i)) = buf i) ∧
        ∀ x, (∀ i < filesz, x ≠ vmmVirtToPhys l.vm.mem pml4 (vaddr + i)) → l'.vm.mem x = l.vm.mem x) ∧
    ((∃ i < filesz, vmmIsMapped l.vm.mem pml4 (vaddr + i) = false) →
      ∃ l', writeSegment pml4 vaddr filesz buf 0 l = (-efault, l')) := by
  rcases writeSegment_ends h ht hend filesz (Nat.sub_le _ _) (Nat.zero_le _) (copied_zero l.vm.mem pml4 vaddr buf) with
    ⟨l', hrun, w⟩ | ⟨l', i, hrun, hi, h0⟩
  · refine ⟨fun _ => ⟨l', hrun, fun i hi => ?_, w.other⟩, ?_⟩
    · rw [w.same h ht (Nat.le_of_lt hend) (by omega)]
      exact w.bytes i hi
    · rintro ⟨i, hi, hun⟩
      rw [vmmIsMapped, bne_eq_false_iff_eq] at hun
      exact absurd hun (w.mapped i hi)
  · refine ⟨fun hmapped => ?_, fun _ => ⟨l', hrun⟩⟩
    have hne := hmapped i hi
    rw [vmmIsMapped, h0] at hne
    cases hne

/-! ### A space with its lowest pages mapped

The tables are the frames 1 to 4, the first three with their first entry only. The last one has `n` entries, which lead
to frames in a row, the first of them `b / 16`. -/

/-- The memory with these tables. -/
def lowPages (b : UInt8) (n : Nat) : ByteMem := fun x =>
  if x = 0x1000 ∨ x = 0x2000 ∨ x = 0x3000 then 7
  else if x = 0x1001 then 0x20
  else if x = 0x2001 then 0x30
  else if x = 0x3001 then 0x40
  else if 0x4000 ≤ x ∧ x < 0x4000 + 8 * n then
    if x % 8 = 0 then 7 else if x % 8 = 1 then b + 16 * UInt8.ofNat ((x - 0x4000) / 8) else 0
  else 0

/-- The entries of the last table lead to the frames from `f` on. -/
def LeadsTo (b : UInt8) (n f : Nat) : Prop :=
  ∀ i < n, isPresent (entry (lowPages b n) 0x4000 i) = true ∧ pteAddr (entry (lowPages b n) 0x4000 i) = f + i * pageSize

section

variable {b : UInt8} {n f : Nat}

/-- All other entries are 0. -/
theorem lowPages_entry {k i : Nat} (hk : k < 4) (hi : i < 512) (hne : if k = 3 then n ≤ i else i ≠ 0) :
    entry (lowPages b n) ((k + 1) * 0x1000) i = 0#64 := by
  apply ByteMem.word_zero
  intro j hj
  by_cases hlast : k = 3
  · subst hlast
    rw [if_pos rfl] at hne
    have hslot : slot ((3 + 1) * 0x1000) i + j = 0x4000 + (8 * i + j) := by
      rw [slot]
      omega
    rw [hslot, lowPages, if_neg (by omega), if_neg (by omega), if_neg (by omega), if_neg (by omega), if_neg (by omega)]
  · rw [if_neg hlast] at hne
    have hbounds : (k + 1) * 0x1000 + 8 ≤ slot ((k + 1) * 0x1000) i + j ∧ slot ((k + 1) * 0x1000) i + j < (k + 2) * 0x1000 := by
      rw [slot]
      omega
    rw [lowPages, if_neg (by omega), if_neg (by omega), if_neg (by omega), if_neg (by omega), if_neg (by omega)]

/-- The first entries of the three upper tables, at their depth. -/
theorem lowPages_next (b : UInt8) (n : Nat) :
    ∀ d < 3, nextOf d (entry (lowPages b n) ((d + 1) * 0x1000) 0) = some ((d + 2) * 0x1000) := by
  have hword : ∀ d < 3, (lowPages b n).read (slot ((d + 1) * 0x1000) 0) 8 =
      [7, UInt8.ofNat (16 * (d + 2)), 0, 0, 0, 0, 0, 0] := by
    intro d hd
    obtain rfl | rfl | rfl : d = 0 ∨ d = 1 ∨ d = 2 := by omega
    all_goals rfl
  intro d hd
  rw [entry, ByteMem.word, hword d hd]
  obtain rfl | rfl | rfl : d = 0 ∨ d = 1 ∨ d = 2 := by omega
  all_goals decide

/-- Every table is one of the four, at the end of a path of zeros. -/
theorem lowPages_tables {q : List Nat} (hq : q.length < 4) (hlt : ∀ i ∈ q, i < 512) {t : Nat}
    (ht : tableAt (lowPages b n) 0x1000 q = some t) : t = (q.length + 1) * 0x1000 := by
  -- from a table at depth `d` on
  have hwalk : ∀ (q : List Nat) (d : Nat), d + q.length < 4 → (∀ i ∈ q, i < 512) →
      walk nextOf (entry (lowPages b n)) d ((d + 1) * 0x1000) q = some t → t = (d + q.length + 1) * 0x1000 := by
    intro q
    induction q with
    | nil =>
        intro d _ _ h
        exact (Option.some.inj h).symm
    | cons i q ih =>
        intro d hd hlt h
        rw [List.length_cons] at hd ⊢
        rw [walk_cons] at h
        by_cases hi : i = 0
        · rw [hi, lowPages_next b n d (by omega)] at h
          rw [ih (d + 1) (by omega) (fun i hi => hlt i (List.mem_cons_of_mem _ hi)) h]
          omega
        · rw [lowPages_entry (by omega) (hlt i List.mem_cons_self) (by rw [if_neg (by omega)]; exact hi)] at h
          cases h
  have h := hwalk q 0 (by omega) hlt ht
  rwa [Nat.zero_add] at h

theorem lowPages_zeros (d : Nat) (hd : d < 4) :
    tableAt (lowPages b n) 0x1000 (List.replicate d 0) = some ((d + 1) * 0x1000) := by
  induction d with
  | zero => rfl
  | succ d ih =>
      rw [List.replicate_succ', tableAt_snoc (ih (Nat.lt_of_succ_lt hd)), List.length_replicate]
      exact lowPages_next b n d (Nat.lt_of_succ_lt_succ hd)

/-- The pages below `n` have the frames from `f` on, and nothing else of the user half is mapped. -/
theorem lowPages_phys (hn : n ≤ 512) (hlead : LeadsTo b n f) {va : Nat} (hva : va < 2 ^ 47) :
    vmmVirtToPhys (lowPages b n) 0x1000 va = if va < n * pageSize then f + va else 0 := by
  -- an index that is not 0 above the last table, or past its entries, meets an entry that is not present
  have habsent : ∀ d i r, d < 4 → path va = List.replicate d 0 ++ i :: r → (if d = 3 then n ≤ i else i ≠ 0) →
      vmmVirtToPhys (lowPages b n) 0x1000 va = 0 := by
    intro d i r hd hpath hi
    have hlt : i < 512 := path_lt va (by rw [hpath]; simp)
    refine virtToPhys_absent hpath (lowPages_zeros d hd) ?_
    rw [lowPages_entry hd hlt hi]
    decide
  have hpage : n * pageSize ≤ 2 ^ 21 := by
    rw [pageSize]
    omega
  by_cases h4 : pml4Idx va = 0
  · by_cases h3 : pdptIdx va = 0
    · by_cases h2 : pdIdx va = 0
      · have hsum : va = ptIdx va * pageSize + va % pageSize := by
          rw [pml4Idx] at h4
          rw [pdptIdx] at h3
          rw [pdIdx] at h2
          rw [ptIdx, pageSize]
          omega
        have hmod : va % pageSize < pageSize := Nat.mod_lt _ (by decide)
        by_cases h1 : ptIdx va < n
        · have hlow : va < n * pageSize := by
            have hle : (ptIdx va + 1) * pageSize ≤ n * pageSize := Nat.mul_le_mul_right _ h1
            rw [Nat.succ_mul] at hle
            omega
          have htable : tableAt (lowPages b n) 0x1000 (ptPath va) = some 0x4000 := by
            rw [ptPath, h4, h3, h2]
            exact lowPages_zeros 3 (by decide)
          rw [virtToPhys_leaf htable, if_pos (hlead _ h1).1, (hlead _ h1).2, if_pos hlow]
          omega
        · have hhigh : ¬va < n * pageSize := by
            have hle : n * pageSize ≤ ptIdx va * pageSize := Nat.mul_le_mul_right _ (Nat.not_lt.mp h1)
            omega
          rw [if_neg hhigh]
          exact habsent 3 _ [] (by decide) (by rw [path, h4, h3, h2]; rfl) (by rw [if_pos rfl]; exact Nat.not_lt.mp h1)
      · rw [habsent 2 _ [ptIdx va] (by decide) (by rw [path, h4, h3]; rfl) h2, if_neg]
        rw [pml4Idx] at h4
        rw [pdptIdx] at h3
        rw [pdIdx] at h2
        omega
    · rw [habsent 1 _ [pdIdx va, ptIdx va] (by decide) (by rw [path, h4]; rfl) h3, if_neg]
      rw [pdptIdx] at h3
      omega
  · rw [habsent 0 _ [pdptIdx va, pdIdx va, ptIdx va] (by decide) rfl h4, if_neg]
    rw [pml4Idx] at h4
    omega

/-- Where a page is mapped, it is one of the lowest. -/
theorem lowPages_mapped (hn : n ≤ 512) (hlead : LeadsTo b n f) {va : Nat} (hva : va < 2 ^ 47)
    (hne : vmmVirtToPhys (lowPages b n) 0x1000 va ≠ 0) :
    va < n * pageSize ∧ vmmVirtToPhys (lowPages b n) 0x1000 va = f + va := by
  rw [lowPages_phys hn hlead hva] at hne ⊢
  by_cases hlow : va < n * pageSize
  · exact ⟨hlow, if_pos hlow⟩
  · rw [if_neg hlow] at hne
    exact absurd rfl hne

theorem lowPages_distinct (hn : n ≤ 512) (hlead : LeadsTo b n f) (hf : f ≠ 0) : DistinctFrames (lowPages b n) 0x1000 := by
  have hdown : ∀ {va : Nat}, va < 2 ^ 47 → alignDown va < 2 ^ 47 := by
    intro va hva
    have := alignDown_add_mod va
    omega
  refine ⟨fun {va} hva hne => ?_, fun {va va'} hva hva' hne heq => ?_⟩
  · have hlow := (lowPages_mapped hn hlead hva hne).1
    have hle := alignDown_add_mod va
    rw [lowPages_phys hn hlead (hdown hva), if_pos (by omega)]
    omega
  · have h1 := (lowPages_mapped hn hlead (hdown hva) hne).2
    have h2 := (lowPages_mapped hn hlead (hdown hva') (heq ▸ hne)).2
    omega

/-- Frames behind the tables are apart from them. -/
theorem lowPages_apart (hn : n ≤ 512) (hlead : LeadsTo b n f) (hf : 0x5000 ≤ f) : TablesApart (lowPages b n) 0x1000 := by
  intro va hva hne va' _ q i r t hpath htable
  have hlen : q.length < 4 := by
    have := congrArg List.length hpath
    rw [List.length_append, List.length_cons, path] at this
    simp only [List.length_cons, List.length_nil] at this
    omega
  have ht := lowPages_tables hlen (fun j hj => path_lt va' (by rw [hpath]; exact List.mem_append_left _ hj)) htable
  have hdown := alignDown_add_mod va
  rw [(lowPages_mapped hn hlead (by omega) hne).2, pageSize]
  omega

end

/-- The page at 0 is the last of its tables: the byte that is copied takes the present bit from its entry. -/
theorem writeSegment_over_table :
    ∃ (l : Load Unit) (buf : ByteMem), DistinctFrames l.vm.mem 0x1000 ∧ (∀ i < 1, vmmIsMapped l.vm.mem 0x1000 (0 + i) = true) ∧
      (writeSegment 0x1000 0 1 buf 0 l).1 = 0 ∧
      ¬ (∀ i < 1, (writeSegment 0x1000 0 1 buf 0 l).2.vm.mem
        (vmmVirtToPhys (writeSegment 0x1000 0 1 buf 0 l).2.vm.mem 0x1000 (0 + i)) = buf i) := by
  have hlead : LeadsTo 0x40 1 0x4000 := by
    intro i hi
    obtain rfl : i = 0 := by omega
    decide
  refine ⟨⟨⟨lowPages 0x40 1, ()⟩, []⟩, fun _ => 6, lowPages_distinct (by decide) hlead (by decide), by decide, ?_, ?_⟩
  · decide +kernel
  · decide +kernel

/-- Two bytes across the end of a page, neither of them in a table. -/
theorem writeSegment_copies_two :
    ∃ l' : Load Unit, writeSegment 0x1000 0xFFF 2 (fun i => UInt8.ofNat (i + 1)) 0 ⟨⟨lowPages 0x50 2, ()⟩, []⟩ = (0, l') ∧
      l'.vm.mem (vmmVirtToPhys l'.vm.mem 0x1000 0xFFF) = 1 ∧ l'.vm.mem (vmmVirtToPhys l'.vm.mem 0x1000 0x1000) = 2 := by
  have hlead : LeadsTo 0x50 2 0x5000 := by
    intro i hi
    obtain rfl | rfl : i = 0 ∨ i = 1 := by omega
    all_goals decide
  obtain ⟨l', hrun, hbytes, -⟩ := (writeSegment_copies 0x1000 0xFFF 2 (fun i => UInt8.ofNat (i + 1))
    (⟨⟨lowPages 0x50 2, ()⟩, []⟩ : Load Unit) (by decide) (lowPages_distinct (by decide) hlead (by decide))
    (lowPages_apart (by decide) hlead (by decide))).1 (by decide)
  exact ⟨l', hrun, hbytes 0 (by decide), hbytes 1 (by decide)⟩

end MyUnix.Elf
