import Mathlib.Data.List.Induction
import MyUnix.Lib.RadixWalk
import MyUnix.Mm.Vmm

/-!
# `Mm.VmmTree` — the page tables of a user half are a partial map

A table of an address space is found from the PML4 by a path of at most three indices (`tableAt`). The user half is a
tree when each of its tables is met on one path only, among all paths, and none of its entries maps a huge page. On
such a space `vmm_virt_to_phys` is a partial map from pages to frames, `vmm_map` changes it at one page,
`vmm_unmap` removes one page and `vmm_protect` changes nothing; all of them keep the tree. `vmm_map` may create up to
three tables first, and fail after some of them: a new table is empty, so this changes no translation.

The proofs about any change come down to two: one word of a table is written (`SlotWrite`), or an empty table is
linked at an absent entry (`Link`). For each of them it is said which walks are as before and what becomes of the
others, on any class of paths; the results about single functions are then made of these two.

A class of paths (`PathClass`) is either that of the user half or that of all paths. Most functions need only the
first, since the upper half of a space is the kernel's own and is shared by all spaces. That a table is met on one
path among all paths, and not only among those of the class, is what keeps a store to the user half from changing the
kernel's.

The result, `vmm_refines_page_map`, asks for a tree and for an allocator that has none of the tables to give. Both are
kept by everything that the kernel does in the user half, as the modules above show.
-/

namespace MyUnix.Mm

open Lib

/-! ## Entries as words

An entry is an address and flags in one word. What is written is read back where the address is one of a frame and the
flags have no bit of the address.
-/

theorem addrMask_mod : (0x000FFFFFFFFFF000 : Nat) % 2 ^ 12 = 0 := by decide

theorem pteAddr_mod (e : Pte) : pteAddr e % pageSize = 0 := by
  have hmod : (e.toNat &&& 0x000FFFFFFFFFF000) % 2 ^ 12 = 0 := by
    rw [Nat.and_mod_two_pow, addrMask_mod, Nat.and_zero]
  simpa [pteAddr, pageSize] using hmod

/-- The entry that `vmm_map` writes leads back to the frame. -/
theorem pteAddr_or {phys : Nat} {flags : Pte} (hal : phys % pageSize = 0) (hlt : phys < 2 ^ 52)
    (hflags : flags &&& 0x000FFFFFFFFFF000#64 = 0#64) : pteAddr (BitVec.ofNat 64 phys ||| flags) = phys := by
  have hand : phys &&& 0x000FFFFFFFFFF000 = phys := by
    obtain ⟨q, rfl⟩ : ∃ q, phys = q <<< 12 := ⟨phys / 4096, by rw [Nat.shiftLeft_eq, pageSize] at *; omega⟩
    have hmask : (0x000FFFFFFFFFF000 : Nat) = (2 ^ 40 - 1) <<< 12 := by decide
    rw [hmask, ← Nat.shiftLeft_and_distrib, Nat.and_two_pow_sub_one_eq_mod, Nat.mod_eq_of_lt]
    rw [Nat.shiftLeft_eq] at hlt
    omega
  rw [pteAddr, BitVec.and_or_distrib_right, hflags, BitVec.or_zero, BitVec.toNat_and, BitVec.toNat_ofNat,
    Nat.mod_eq_of_lt (by omega)]
  exact hand

theorem isPresent_eq (e : Pte) : isPresent e = e.getLsbD 0 :=
  @and_twoPow_bne_zero 64 0 e (by decide)

theorem isHuge_eq (e : Pte) : isHuge e = e.getLsbD 7 :=
  @and_twoPow_bne_zero 64 7 e (by decide)

theorem isPresent_or {e flags : Pte} (h : isPresent flags = true) : isPresent (e ||| flags) = true := by
  rw [isPresent_eq] at *
  rw [BitVec.getLsbD_or, h, Bool.or_true]

theorem isPresent_zero : isPresent 0#64 = false := by decide

/-- The entry that `vmm_get_pte` writes for a new table: present, not huge, and leading to the table. -/
theorem table_entry {f : Nat} (flags : Pte) (hal : f % pageSize = 0) (hlt : f < 2 ^ 52) :
    isPresent (BitVec.ofNat 64 f ||| ptePresent ||| pteWritable ||| (flags &&& pteUser)) = true ∧
    isHuge (BitVec.ofNat 64 f ||| ptePresent ||| pteWritable ||| (flags &&& pteUser)) = false ∧
    pteAddr (BitVec.ofNat 64 f ||| ptePresent ||| pteWritable ||| (flags &&& pteUser)) = f := by
  refine ⟨?_, ?_, ?_⟩
  · rw [isPresent_eq]
    have h0 : ptePresent.getLsbD 0 = true := by decide
    simp only [BitVec.getLsbD_or, h0, Bool.or_true, Bool.true_or]
  · have h1 : ptePresent.getLsbD 7 = false := by decide
    have h2 : pteWritable.getLsbD 7 = false := by decide
    have h4 : pteUser.getLsbD 7 = false := by decide
    have hf : (BitVec.ofNat 64 f).getLsbD 7 = false := by
      have hbit : f.testBit 7 = false := by
        rw [Nat.testBit_eq_decide_div_mod_eq, decide_eq_false_iff_not]
        rw [pageSize] at hal
        omega
      rw [BitVec.getLsbD_ofNat, hbit, Bool.and_false]
    rw [isHuge_eq]
    simp only [BitVec.getLsbD_or, BitVec.getLsbD_and, h1, h2, h4, hf, Bool.and_false, Bool.or_self]
  · rw [BitVec.or_assoc, BitVec.or_assoc]
    apply pteAddr_or hal hlt
    apply BitVec.eq_of_getLsbD_eq
    intro i hi
    have hmask : ∀ i < 64, (ptePresent ||| pteWritable ||| pteUser).getLsbD i = true →
        (0x000FFFFFFFFFF000#64).getLsbD i = false := by decide
    have hbits : (ptePresent ||| pteWritable ||| pteUser).getLsbD i = false →
        ptePresent.getLsbD i = false ∧ pteWritable.getLsbD i = false ∧ pteUser.getLsbD i = false := by
      simp only [BitVec.getLsbD_or, Bool.or_eq_false_iff, and_assoc]
      exact id
    cases hb : (ptePresent ||| pteWritable ||| pteUser).getLsbD i with
    | true => rw [BitVec.getLsbD_and, hmask i hi hb, Bool.and_false, BitVec.getLsbD_zero]
    | false =>
      obtain ⟨b1, b2, b3⟩ := hbits hb
      simp only [BitVec.getLsbD_and, BitVec.getLsbD_or, b1, b2, b3, Bool.and_false, Bool.or_self, Bool.false_and,
        BitVec.getLsbD_zero]

/-! ## Tables and paths

The path of an address has four indices. The first three lead to its last table and the fourth chooses the entry.
-/

/-- The table an entry of depth `d` leads to; a huge page is no table. -/
def nextOf (d : Nat) (e : Pte) : Option Nat :=
  if isPresent e && (d == 0 || !isHuge e) then some (pteAddr e) else none

/-- The table at a path from the PML4: `[]` the PML4 itself, then a PDPT, a PD, a PT. -/
def tableAt (m : ByteMem) (pml4 : Nat) (p : List Nat) : Option Nat := walk nextOf (entry m) 0 pml4 p

/-- The paths to tables. -/
def IsPath (p : List Nat) : Prop := p.length ≤ 3 ∧ ∀ i ∈ p, i < 512

/-- Those that begin in the lower half of the PML4. -/
def IsUser (p : List Nat) : Prop := IsPath p ∧ ∀ i, p.head? = some i → i < 256

/-- A class of paths that is looked at: that of the user half, or all of them. -/
class PathClass (Q : List Nat → Prop) : Prop where
  of_user {p} : IsUser p → Q p
  isPath {p} : Q p → IsPath p
  of_append {p q} : Q (p ++ q) → Q p

/-- The user half is a tree: each of its tables is met on one path of the class only, and it has no huge entries. -/
structure UserTree (Q : List Nat → Prop) (m : ByteMem) (pml4 : Nat) : Prop where
  aligned : pml4 % pageSize = 0
  unique {p q t} : IsUser p → Q q → tableAt m pml4 p = some t → tableAt m pml4 q = some t → q = p
  noHuge {p t i} : IsUser p → p ≠ [] → p.length ≤ 2 → i < 512 → tableAt m pml4 p = some t →
    isPresent (entry m t i) = true → isHuge (entry m t i) = false

/-- The indices of an address, from the PML4 down. -/
def path (va : Nat) : List Nat := [pml4Idx va, pdptIdx va, pdIdx va, ptIdx va]

/-- The path to the last table for `va`. -/
def ptPath (va : Nat) : List Nat := [pml4Idx va, pdptIdx va, pdIdx va]

/-- The addresses the processor accepts. -/
def Canonical (va : Nat) : Prop := va < 2 ^ 47 ∨ (2 ^ 64 - 2 ^ 47 ≤ va ∧ va < 2 ^ 64)

/-- The tables on the way to `va` are of the class. -/
def Reaches (Q : List Nat → Prop) (va : Nat) : Prop := ∀ q i r, path va = q ++ i :: r → Q q

section

variable {m m' : ByteMem} {pml4 : Nat} {Q : List Nat → Prop} [PathClass Q]

open PathClass

theorem IsPath.of_append {p q : List Nat} (h : IsPath (p ++ q)) : IsPath p := by
  refine ⟨?_, fun i hi => h.2 i (List.mem_append_left q hi)⟩
  have := h.1
  rw [List.length_append] at this
  omega

theorem IsUser.of_append {p q : List Nat} (h : IsUser (p ++ q)) : IsUser p := by
  refine ⟨h.1.of_append, fun i hi => h.2 i ?_⟩
  cases p with
  | nil => cases hi
  | cons j p => exact hi

instance : PathClass IsPath := ⟨fun h => h.1, id, IsPath.of_append⟩

instance : PathClass IsUser := ⟨id, fun h => h.1, IsUser.of_append⟩

theorem pml4Idx_lt {va : Nat} (h : va < 2 ^ 47) : pml4Idx va < 256 := by
  rw [pml4Idx]
  omega

theorem path_lt (va : Nat) {i : Nat} (h : i ∈ path va) : i < 512 := by
  simp only [path, List.mem_cons, List.not_mem_nil, or_false, pml4Idx, pdptIdx, pdIdx, ptIdx] at h
  omega

theorem path_eq (va : Nat) : path va = ptPath va ++ [ptIdx va] := rfl

theorem path_parts {va virt : Nat} (h : path va = path virt) : ptPath va = ptPath virt ∧ ptIdx va = ptIdx virt := by
  rw [path_eq, path_eq] at h
  obtain ⟨hpt, hlast⟩ := List.append_inj' h rfl
  exact ⟨hpt, List.singleton_injective hlast⟩

theorem ptPath_user {va : Nat} (h : va < 2 ^ 47) : IsUser (ptPath va) := by
  refine ⟨⟨(Nat.le_refl _), fun i hi => path_lt va (List.mem_append_left _ hi)⟩, ?_⟩
  rintro i ⟨⟩
  exact pml4Idx_lt h

theorem isUser_nil : IsUser [] := ⟨⟨by simp, by simp⟩, by simp⟩

theorem isUser_pml4 {virt : Nat} (hv : virt < 2 ^ 47) : IsUser ([] ++ [pml4Idx virt]) :=
  (ptPath_user hv).of_append (q := [pdptIdx virt, pdIdx virt])

theorem isUser_pdpt {virt : Nat} (hv : virt < 2 ^ 47) : IsUser ([pml4Idx virt] ++ [pdptIdx virt]) :=
  (ptPath_user hv).of_append (q := [pdIdx virt])

theorem isUser_pd {virt : Nat} (hv : virt < 2 ^ 47) : IsUser ([pml4Idx virt, pdptIdx virt] ++ [pdIdx virt]) :=
  ptPath_user hv

/-- A proper beginning of the path of an address is a path to a table. -/
theorem isPath_of_path {va : Nat} {q r : List Nat} {i : Nat} (h : path va = q ++ i :: r) : IsPath q := by
  refine ⟨?_, fun j hj => path_lt va ?_⟩
  · have := congrArg List.length h
    rw [List.length_append, List.length_cons] at this
    simp only [path, List.length_cons, List.length_nil] at this
    omega
  · rw [h]
    exact List.mem_append_left _ hj

theorem reaches_all (va : Nat) : Reaches IsPath va := fun _ _ _ h => isPath_of_path h

theorem reaches_user {va : Nat} (h : va < 2 ^ 47) : Reaches IsUser va := by
  intro q i r hq
  refine ⟨isPath_of_path hq, fun j hj => ?_⟩
  cases q with
  | nil => cases hj
  | cons k q =>
    obtain rfl := Option.some.inj hj
    obtain rfl : pml4Idx va = k := (List.cons.inj hq).1
    exact pml4Idx_lt h

/-- Addresses with one path lie in one page. -/
theorem page_eq_of_path {va virt : Nat} (hc : Canonical va) (hv : virt < 2 ^ 47) (h : path va = path virt) :
    va / pageSize = virt / pageSize := by
  simp only [path, List.cons.injEq, and_true, pml4Idx, pdptIdx, pdIdx, ptIdx] at h
  rw [pageSize]
  rcases hc with hc | hc
  · omega
  · omega

theorem path_of_page {va virt : Nat} (h : va / pageSize = virt / pageSize) : path va = path virt := by
  rw [pageSize] at h
  simp only [path, List.cons.injEq, and_true, pml4Idx, pdptIdx, pdIdx, ptIdx]
  omega

/-! ## Translation and the entries on the way

`vmm_virt_to_phys` is written as four nested tests in the source. As a recursion on the path (`descend`) it can be
split at any table on the way.
-/

theorem tableAt_nil : tableAt m pml4 [] = some pml4 := rfl

theorem tableAt_snoc {p : List Nat} {t i : Nat} (h : tableAt m pml4 p = some t) :
    tableAt m pml4 (p ++ [i]) = nextOf p.length (entry m t i) := by
  have := walk_snoc (i := i) h
  rwa [Nat.zero_add] at this

theorem nextOf_eq_some {d t : Nat} {e : Pte} (h : nextOf d e = some t) :
    isPresent e = true ∧ pteAddr e = t ∧ (d ≠ 0 → isHuge e = false) := by
  simp only [nextOf, Option.ite_none_right_eq_some, Bool.and_eq_true, Bool.or_eq_true, beq_iff_eq,
    Bool.not_eq_true', Option.some.injEq] at h
  obtain ⟨⟨hp, hd⟩, rfl⟩ := h
  exact ⟨hp, rfl, fun h0 => hd.resolve_left h0⟩

/-- Above a table there is one, with an entry that leads to it. -/
theorem tableAt_prefix {p : List Nat} {t i : Nat} (h : tableAt m pml4 (p ++ [i]) = some t) :
    ∃ t', tableAt m pml4 p = some t' ∧ nextOf p.length (entry m t' i) = some t := by
  obtain ⟨t', ht'⟩ := walk_prefix h
  rw [tableAt_snoc ht'] at h
  exact ⟨t', ht', h⟩

/-- Tables are frames. -/
theorem tableAt_mod (hal : pml4 % pageSize = 0) {p : List Nat} {t : Nat} (h : tableAt m pml4 p = some t) :
    t % pageSize = 0 := by
  rcases List.eq_nil_or_concat p with rfl | ⟨q, i, rfl⟩
  · obtain rfl := Option.some.inj h
    exact hal
  · rw [List.concat_eq_append] at h
    obtain ⟨t', -, hnext⟩ := tableAt_prefix h
    rw [← (nextOf_eq_some hnext).2.1]
    exact pteAddr_mod _

theorem nextOf_absent {d : Nat} {e : Pte} (h : isPresent e = false) : nextOf d e = none := by
  simp [nextOf, h]

theorem nextOf_root {e : Pte} (h : isPresent e = true) : nextOf 0 e = some (pteAddr e) := by
  simp [nextOf, h]

theorem nextOf_table {d : Nat} {e : Pte} (h : isPresent e = true) (hsmall : isHuge e = false) :
    nextOf d e = some (pteAddr e) := by
  simp [nextOf, h, hsmall]

/-- Below a table that is not there, none is. -/
theorem tableAt_append_none {p q : List Nat} (h : tableAt m pml4 p = none) : tableAt m pml4 (p ++ q) = none := by
  rw [tableAt] at h
  rw [tableAt, walk_append, h, Option.bind_none]

/-- `vmm_virt_to_phys` as a recursion on the path: from table `t` at depth `d`. -/
def descend (m : ByteMem) (va : Nat) : Nat → Nat → List Nat → Nat
  | _, _, [] => 0
  | _, t, [i] => if isPresent (entry m t i) then pteAddr (entry m t i) + va % pageSize else 0
  | d, t, i :: j :: p =>
    if isPresent (entry m t i) then
      if d ≠ 0 ∧ isHuge (entry m t i) then pteAddr (entry m t i) + va % 2 ^ (39 - 9 * d)
      else descend m va (d + 1) (pteAddr (entry m t i)) (j :: p)
    else 0

theorem virtToPhys_eq_descend (va : Nat) : vmmVirtToPhys m pml4 va = descend m va 0 pml4 (path va) := by
  have hif : ∀ (b : Bool) (x : Nat), (if !b then 0 else x) = if b then x else 0 := by
    intro b x
    cases b <;> rfl
  simp only [vmmVirtToPhys, path, descend, hif]
  simp

/-- Past an entry that leads to a table. -/
theorem descend_cons {va d t t' i : Nat} {p : List Nat} (hp : p ≠ []) (h : nextOf d (entry m t i) = some t') :
    descend m va d t (i :: p) = descend m va (d + 1) t' p := by
  obtain ⟨hpres, rfl, hhuge⟩ := nextOf_eq_some h
  cases p with
  | nil => exact absurd rfl hp
  | cons j p =>
    rw [descend, if_pos hpres, if_neg]
    rintro ⟨hd, hh⟩
    rw [hhuge hd] at hh
    cases hh

/-- At an entry that leads to no table, only the entry matters. -/
theorem descend_stop {va d t i : Nat} {p : List Nat} (h : p = [] ∨ nextOf d (entry m t i) = none)
    (he : entry m' t i = entry m t i) : descend m' va d t (i :: p) = descend m va d t (i :: p) := by
  cases p with
  | nil => rw [descend, descend, he]
  | cons j p =>
    rcases h with h | h
    · cases h
    · simp only [descend, he]
      split
      next hpres =>
        have hstop : d ≠ 0 ∧ isHuge (entry m t i) = true := by simpa [nextOf, hpres] using h
        rw [if_pos hstop, if_pos hstop]
      next => rfl

theorem descend_congr {va : Nat} (p : List Nat) : ∀ (d t : Nat),
    (∀ q i r t', p = q ++ i :: r → walk nextOf (entry m) d t q = some t' → entry m' t' i = entry m t' i) →
    descend m' va d t p = descend m va d t p := by
  induction p with
  | nil => intro d t _; rfl
  | cons i p ih =>
    intro d t h
    have he := h [] i p t rfl rfl
    by_cases hp : p = []
    · exact descend_stop (.inl hp) he
    · cases hn : nextOf d (entry m t i) with
      | none => exact descend_stop (.inr hn) he
      | some t₁ =>
        rw [descend_cons hp hn, descend_cons hp (by rw [he]; exact hn)]
        apply ih
        intro q j r t' hpq ht'
        apply h (i :: q) j r t' (by rw [hpq]; rfl)
        rw [walk_cons, hn]
        exact ht'

/-- A walk to a table is the beginning of the descent. -/
theorem descend_append {va : Nat} {r : List Nat} (hr : r ≠ []) (q : List Nat) : ∀ (d t t' : Nat),
    walk nextOf (entry m) d t q = some t' → descend m va d t (q ++ r) = descend m va (d + q.length) t' r := by
  induction q with
  | nil =>
    intro d t t' h
    obtain rfl := Option.some.inj h
    rfl
  | cons i q ih =>
    intro d t t' h
    rw [walk_cons] at h
    obtain ⟨t₁, hn, ht₁⟩ := Option.bind_eq_some_iff.1 h
    rw [List.cons_append, descend_cons (by simp [hr]) hn, ih _ _ _ ht₁, List.length_cons, Nat.add_assoc, Nat.add_comm 1]

/-- `vmm_virt_to_phys` depends on the entries it meets only. -/
theorem virtToPhys_congr {va : Nat} (h : ∀ q i r t, path va = q ++ i :: r → tableAt m pml4 q = some t →
    entry m' t i = entry m t i) : vmmVirtToPhys m' pml4 va = vmmVirtToPhys m pml4 va := by
  rw [virtToPhys_eq_descend, virtToPhys_eq_descend]
  exact descend_congr _ _ _ h

/-- Nothing is mapped behind an entry that is not present. -/
theorem virtToPhys_absent {va : Nat} {q r : List Nat} {i t : Nat} (hva : path va = q ++ i :: r)
    (ht : tableAt m pml4 q = some t) (he : isPresent (entry m t i) = false) : vmmVirtToPhys m pml4 va = 0 := by
  rw [virtToPhys_eq_descend, hva, descend_append (by simp) q 0 pml4 t ht]
  cases r with
  | nil => simp [descend, he]
  | cons j r => simp [descend, he]

/-- With the last table at hand, translation is its entry. -/
theorem virtToPhys_leaf {va t : Nat} (ht : tableAt m pml4 (ptPath va) = some t) :
    vmmVirtToPhys m pml4 va =
      if isPresent (entry m t (ptIdx va)) then pteAddr (entry m t (ptIdx va)) + va % pageSize else 0 := by
  rw [virtToPhys_eq_descend, path_eq, descend_append (by simp) _ 0 pml4 t ht]
  rfl

/-! ## One entry is written

A store to a slot of a table that is met on one path changes the walks through that slot, and no others. That two
slots do not overlap is arithmetic of aligned tables.
-/

theorem slot_apart {t t' i j : Nat} (ht : t % pageSize = 0) (ht' : t' % pageSize = 0) (hi : i < 512) (hj : j < 512)
    (h : (t, i) ≠ (t', j)) : slot t i + 8 ≤ slot t' j ∨ slot t' j + 8 ≤ slot t i := by
  rw [pageSize] at ht ht'
  rw [slot, slot]
  rcases Nat.lt_trichotomy t t' with hlt | rfl | hlt
  · omega
  · have : i ≠ j := fun hij => h (by rw [hij])
    omega
  · omega

theorem entry_store {t t' i j : Nat} (e : Pte) (ht : t % pageSize = 0) (ht' : t' % pageSize = 0) (hi : i < 512)
    (hj : j < 512) (h : (t, i) ≠ (t', j)) : entry (m.setWord (slot t' j) e) t i = entry m t i :=
  m.word_setWord_out e (slot_apart ht ht' hi hj h)

theorem entry_store_same {t i : Nat} (e : Pte) : entry (m.setWord (slot t i) e) t i = e :=
  m.word_setWord e

/-- The memories agree outside the frame at `f`. -/
def AgreeOff (f : Nat) (m m' : ByteMem) : Prop := ∀ x, x < f ∨ f + pageSize ≤ x → m' x = m x

theorem agreeOff_write {f a : Nat} {bs : List UInt8} (hlo : f ≤ a) (hhi : a + bs.length ≤ f + pageSize) :
    AgreeOff f m (m.write a bs) := fun _ hx => m.write_out (by omega)

theorem agreeOff_clear {f : Nat} : AgreeOff f m (m.write f (List.replicate pageSize 0)) :=
  agreeOff_write (Nat.le_refl _) (by rw [List.length_replicate])

/-- The tables in other frames are the same. -/
theorem AgreeOff.entry_eq {t f i : Nat} (h : AgreeOff f m m') (ht : t % pageSize = 0) (hf : f % pageSize = 0)
    (hi : i < 512) (hne : t ≠ f) : entry m' t i = entry m t i := by
  apply ByteMem.word_eq_word
  intro k hk
  apply h
  rw [slot, pageSize] at *
  omega

theorem entry_clear_same {f i : Nat} (hi : i < 512) : entry (m.write f (List.replicate pageSize 0)) f i = 0#64 := by
  apply ByteMem.word_zero
  intro k hk
  have hlt : 8 * i + k < (List.replicate pageSize (0 : UInt8)).length := by
    rw [List.length_replicate, pageSize]
    omega
  rw [slot, Nat.add_assoc, m.write_in hlt, List.getElem_replicate]

omit [PathClass Q] in
theorem UserTree.metOnce (h : UserTree Q m pml4) {p : List Nat} {t : Nat} (hp : IsUser p)
    (ht : tableAt m pml4 p = some t) : MetOnce nextOf (entry m) Q pml4 p t :=
  fun _ hq htq => h.unique hp hq ht htq

/-- What one store to entry `i₀` of the user table `t₀` at `p₀` leaves alone. -/
structure SlotWrite (m m' : ByteMem) (pml4 : Nat) (p₀ : List Nat) (t₀ i₀ : Nat) : Prop where
  user : IsUser p₀
  index : i₀ < 512
  table : tableAt m pml4 p₀ = some t₀
  entries {t i} : t % pageSize = 0 → i < 512 → (t, i) ≠ (t₀, i₀) → entry m' t i = entry m t i

namespace SlotWrite

variable {p₀ : List Nat} {t₀ i₀ : Nat}

omit [PathClass Q] in
theorem of_store (ht : UserTree Q m pml4) (hp : IsUser p₀) (hi : i₀ < 512) (h₀ : tableAt m pml4 p₀ = some t₀) (e : Pte) :
    SlotWrite m (m.setWord (slot t₀ i₀) e) pml4 p₀ t₀ i₀ where
  user := hp
  index := hi
  table := h₀
  entries hal hi' hne := entry_store e hal (tableAt_mod ht.aligned h₀) hi' hi hne

variable (w : SlotWrite m m' pml4 p₀ t₀ i₀) (ht : UserTree Q m pml4)
include w ht

theorem tableAt_eq {p : List Nat} (hp : Q p) (h : ∀ r, p ≠ p₀ ++ i₀ :: r) :
    tableAt m' pml4 p = tableAt m pml4 p := by
  apply walk_of_slot (fun q r hq => of_append hq) (ht.metOnce w.user w.table) _ hp h
  intro q i r t hq htq hne
  exact w.entries (tableAt_mod ht.aligned htq) ((isPath hq).2 i (by simp)) hne

omit [PathClass Q] in
theorem virtToPhys_eq {va : Nat} (hQ : Reaches Q va) (h : ∀ r, path va ≠ p₀ ++ i₀ :: r) :
    vmmVirtToPhys m' pml4 va = vmmVirtToPhys m pml4 va := by
  apply virtToPhys_congr
  intro q i r t hva htq
  have hi : i < 512 := path_lt va (by rw [hva]; simp)
  apply w.entries (tableAt_mod ht.aligned htq) hi
  rintro ⟨⟩
  obtain rfl := ht.unique w.user (hQ q _ r hva) w.table htq
  exact h r hva

/-- The table itself stays where it is. -/
theorem table' : tableAt m' pml4 p₀ = some t₀ := by
  rw [w.tableAt_eq ht (of_user w.user), w.table]
  intro r hr
  have := congrArg List.length hr
  rw [List.length_append, List.length_cons] at this
  omega

/-- A store to a last-level table moves no table. -/
theorem tableAt_leaf (hlen : p₀.length = 3) {p : List Nat} (hp : Q p) :
    tableAt m' pml4 p = tableAt m pml4 p := by
  apply w.tableAt_eq ht hp
  rintro r rfl
  have := (isPath hp).1
  rw [List.length_append, List.length_cons] at this
  omega

theorem tree_leaf (hlen : p₀.length = 3) : UserTree Q m' pml4 where
  aligned := ht.aligned
  unique {p q t} hp hq hpt hqt := by
    rw [w.tableAt_leaf ht hlen (of_user hp)] at hpt
    rw [w.tableAt_leaf ht hlen hq] at hqt
    exact ht.unique hp hq hpt hqt
  noHuge {p t i} hp hne hle hi hpt := by
    rw [w.tableAt_leaf ht hlen (of_user hp)] at hpt
    have hslot : (t, i) ≠ (t₀, i₀) := by
      rintro ⟨⟩
      obtain rfl := ht.unique w.user (of_user hp) w.table hpt
      omega
    rw [w.entries (tableAt_mod ht.aligned hpt) hi hslot]
    exact ht.noHuge hp hne hle hi hpt

end SlotWrite

omit [PathClass Q] in
/-- In the user half every present entry above the last level leads to a table. -/
theorem UserTree.tableAt_next (h : UserTree Q m pml4) {p : List Nat} {t i : Nat} (hp : IsUser (p ++ [i]))
    (hlen : p.length ≤ 2) (ht : tableAt m pml4 p = some t) :
    tableAt m pml4 (p ++ [i]) = if isPresent (entry m t i) then some (pteAddr (entry m t i)) else none := by
  rw [tableAt_snoc ht, nextOf]
  cases hpres : isPresent (entry m t i) with
  | false => rfl
  | true =>
    cases p with
    | nil => rfl
    | cons j p =>
      rw [h.noHuge hp.of_append (by simp) hlen (hp.1.2 i (by simp)) ht hpres]
      simp

omit [PathClass Q] in
/-- Nothing is mapped in a user page that has no last table. -/
theorem UserTree.virtToPhys_none (h : UserTree Q m pml4) {va : Nat} (hva : va < 2 ^ 47)
    (hnone : tableAt m pml4 (ptPath va) = none) : vmmVirtToPhys m pml4 va = 0 := by
  cases p1 : isPresent (entry m pml4 (pml4Idx va)) with
  | false => exact virtToPhys_absent (q := []) rfl tableAt_nil p1
  | true =>
    have t1 := h.tableAt_next (isUser_pml4 hva) (by simp) tableAt_nil
    rw [p1, if_pos rfl] at t1
    cases p2 : isPresent (entry m (pteAddr (entry m pml4 (pml4Idx va))) (pdptIdx va)) with
    | false => exact virtToPhys_absent (q := [pml4Idx va]) rfl t1 p2
    | true =>
      have t2 := h.tableAt_next (isUser_pdpt hva) (by simp) t1
      rw [p2, if_pos rfl] at t2
      apply virtToPhys_absent (q := [pml4Idx va, pdptIdx va]) (r := [ptIdx va]) rfl t2
      have t3 := h.tableAt_next (i := pdIdx va) (ptPath_user hva) (by simp) t2
      rw [show [pml4Idx va] ++ [pdptIdx va] ++ [pdIdx va] = ptPath va from rfl, hnone] at t3
      cases p3 : isPresent (entry m (pteAddr (entry m (pteAddr (entry m pml4 (pml4Idx va))) (pdptIdx va))) (pdIdx va))
      · rfl
      · rw [p3] at t3
        cases t3

/-! ## A table is added

The new table was not in use and is empty. So behind it nothing is mapped, no path led to it before, and exactly one
does now.
-/

/-- A frame that no table lies in. -/
def Unused (Q : List Nat → Prop) (m : ByteMem) (pml4 f : Nat) : Prop := ∀ p, Q p → tableAt m pml4 p ≠ some f

section

variable {f : Nat} (h : AgreeOff f m m') (ht : UserTree Q m pml4) (hf : f % pageSize = 0) (hun : Unused Q m pml4 f)
include h ht hf hun

theorem AgreeOff.tableAt_eq {p : List Nat} (hp : Q p) : tableAt m' pml4 p = tableAt m pml4 p := by
  apply walk_congr
  rintro q i r t rfl htq
  apply h.entry_eq (tableAt_mod ht.aligned htq) hf ((isPath hp).2 i (by simp))
  rintro rfl
  exact hun q (of_append hp) htq

omit [PathClass Q] in
theorem AgreeOff.virtToPhys_eq {va : Nat} (hQ : Reaches Q va) : vmmVirtToPhys m' pml4 va = vmmVirtToPhys m pml4 va := by
  apply virtToPhys_congr
  intro q i r t hva htq
  apply h.entry_eq (tableAt_mod ht.aligned htq) hf (path_lt va (by rw [hva]; simp))
  rintro rfl
  exact hun q (hQ q i r hva) htq

theorem AgreeOff.tree : UserTree Q m' pml4 where
  aligned := ht.aligned
  unique {p q t} hp hq hpt hqt := by
    rw [h.tableAt_eq ht hf hun (of_user hp)] at hpt
    rw [h.tableAt_eq ht hf hun hq] at hqt
    exact ht.unique hp hq hpt hqt
  noHuge {p t i} hp hne hle hi hpt := by
    rw [h.tableAt_eq ht hf hun (of_user hp)] at hpt
    have hne' : t ≠ f := by
      rintro rfl
      exact hun p (of_user hp) hpt
    rw [h.entry_eq (tableAt_mod ht.aligned hpt) hf hi hne']
    exact ht.noHuge hp hne hle hi hpt

end

/-- An empty table `f`, which was not used, is linked at the absent entry `i₀` of `t₀`. -/
structure Link (Q : List Nat → Prop) (m m' : ByteMem) (pml4 : Nat) (p₀ : List Nat) (t₀ i₀ f : Nat) : Prop where
  write : SlotWrite m m' pml4 p₀ t₀ i₀
  short : p₀.length ≤ 2
  user : IsUser (p₀ ++ [i₀])
  absent : isPresent (entry m t₀ i₀) = false
  present : isPresent (entry m' t₀ i₀) = true
  notHuge : isHuge (entry m' t₀ i₀) = false
  addr : pteAddr (entry m' t₀ i₀) = f
  unused : Unused Q m pml4 f
  empty {i} : i < 512 → entry m f i = 0#64

namespace Link

variable {p₀ : List Nat} {t₀ i₀ f : Nat} (l : Link Q m m' pml4 p₀ t₀ i₀ f)
include l

omit [PathClass Q] in
theorem mod : f % pageSize = 0 := by
  rw [← l.addr]
  exact pteAddr_mod _

theorem empty' {i : Nat} (hi : i < 512) : entry m' f i = 0#64 := by
  rw [l.write.entries l.mod hi, l.empty hi]
  rintro ⟨⟩
  exact l.unused p₀ (of_user l.write.user) l.write.table

variable (ht : UserTree Q m pml4)
include ht

theorem tableAt_new : tableAt m' pml4 (p₀ ++ [i₀]) = some f := by
  rw [tableAt_snoc (l.write.table' ht), nextOf, l.present, l.notHuge, l.addr]
  simp

/-- Behind the new table there is nothing. -/
theorem tableAt_beyond {j : Nat} {r : List Nat} (hp : IsPath (p₀ ++ i₀ :: j :: r)) :
    tableAt m' pml4 (p₀ ++ i₀ :: j :: r) = none := by
  have hassoc : p₀ ++ i₀ :: j :: r = (p₀ ++ [i₀]) ++ j :: r := by simp
  have hj : j < 512 := hp.2 j (by simp)
  have hnone : nextOf (0 + (p₀ ++ [i₀]).length) (entry m' f j) = none := by
    rw [l.empty' hj, nextOf, isPresent_zero]
    simp
  have hnew := l.tableAt_new ht
  rw [tableAt] at hnew ⊢
  rw [hassoc, walk_append, hnew, Option.bind_some, walk_cons, hnone]
  rfl

/-- The tables after the link: the old ones, and the new one at the end of its path. -/
theorem tableAt_iff {p : List Nat} {t : Nat} (hp : Q p) :
    tableAt m' pml4 p = some t ↔ (tableAt m pml4 p = some t) ∨ (p = p₀ ++ [i₀] ∧ t = f) := by
  by_cases hthrough : ∃ r, p = p₀ ++ i₀ :: r
  · obtain ⟨r, rfl⟩ := hthrough
    -- before, the entry led nowhere
    have hnone : tableAt m pml4 (p₀ ++ i₀ :: r) = none := by
      rw [tableAt, walk_append]
      have := l.write.table
      rw [tableAt] at this
      rw [this, Option.bind_some, walk_cons, nextOf, l.absent]
      rfl
    rw [hnone]
    cases r with
    | nil =>
      rw [l.tableAt_new ht]
      simp [eq_comm]
    | cons j r =>
      rw [l.tableAt_beyond ht (isPath hp)]
      simp
  · rw [l.write.tableAt_eq ht hp fun r hr => hthrough ⟨r, hr⟩]
    refine ⟨.inl, fun h => h.resolve_right fun h => hthrough ⟨[], h.1⟩⟩

theorem virtToPhys_eq {va : Nat} (hQ : Reaches Q va) : vmmVirtToPhys m' pml4 va = vmmVirtToPhys m pml4 va := by
  by_cases hthrough : ∃ r, path va = p₀ ++ i₀ :: r
  · obtain ⟨r, hr⟩ := hthrough
    rw [virtToPhys_absent hr l.write.table l.absent]
    -- now the descent goes on to the new table, and finds it empty
    cases r with
    | nil =>
      have := congrArg List.length hr
      rw [List.length_append] at this
      simp only [path, List.length_cons, List.length_nil] at this
      have := l.short
      omega
    | cons j r =>
      have hr' : path va = (p₀ ++ [i₀]) ++ j :: r := by simp [hr]
      have hj : j < 512 := path_lt va (by rw [hr']; simp)
      apply virtToPhys_absent hr' (l.tableAt_new ht)
      rw [l.empty' hj, isPresent_zero]
  · exact l.write.virtToPhys_eq ht hQ fun r hr => hthrough ⟨r, hr⟩

theorem tree : UserTree Q m' pml4 where
  aligned := ht.aligned
  unique {p q t} hp hq hpt hqt := by
    rcases (l.tableAt_iff ht (of_user hp)).1 hpt with hpt | ⟨rfl, rfl⟩
    · rcases (l.tableAt_iff ht hq).1 hqt with hqt | ⟨rfl, rfl⟩
      · exact ht.unique hp hq hpt hqt
      · exact absurd hpt (l.unused p (of_user hp))
    · rcases (l.tableAt_iff ht hq).1 hqt with hqt | ⟨rfl, -⟩
      · exact absurd hqt (l.unused q hq)
      · rfl
  noHuge {p t i} hp hne hle hi hpt hpres := by
    rcases (l.tableAt_iff ht (of_user hp)).1 hpt with hpt | ⟨rfl, rfl⟩
    · by_cases hslot : (t, i) = (t₀, i₀)
      · obtain ⟨rfl, rfl⟩ := Prod.mk.inj hslot
        exact l.notHuge
      · rw [l.write.entries (tableAt_mod ht.aligned hpt) hi hslot] at hpres ⊢
        exact ht.noHuge hp hne hle hi hpt hpres
    · rw [l.empty' hi, isPresent_zero] at hpres
      cases hpres

end Link

end

/-! ## `vmm_get_pte`

With `create` each level finds a table, makes one, or fails for want of a frame. Three levels one after the other can
therefore only add tables, whether the call succeeds or not.
-/

section

variable {σ : Type} [PageAlloc σ] {Q : List Nat → Prop} [PathClass Q]

open PageAlloc PathClass

/-- A space whose user half is a tree, with an allocator that has none of its tables. -/
structure TreeInv (Q : List Nat → Prop) (vm : Vm σ) (pml4 : Nat) : Prop where
  tree : UserTree Q vm.mem pml4
  apart {p t} : Q p → tableAt vm.mem pml4 p = some t → ¬Free vm.pmm t

/-- Tables were added, or not; nothing else happened to the space. -/
structure Grew (Q : List Nat → Prop) (vm vm' : Vm σ) (pml4 : Nat) : Prop where
  inv : TreeInv Q vm' pml4
  same {va} : Reaches Q va → vmmVirtToPhys vm'.mem pml4 va = vmmVirtToPhys vm.mem pml4 va
  tables {p t} : Q p → tableAt vm.mem pml4 p = some t → tableAt vm'.mem pml4 p = some t
  new {p t} : Q p → tableAt vm'.mem pml4 p = some t → tableAt vm.mem pml4 p = some t ∨ Free vm.pmm t
  outside {x} : (∀ p t, IsUser p → tableAt vm'.mem pml4 p = some t → x < t ∨ t + pageSize ≤ x) →
    vm'.mem x = vm.mem x
  upper {i} : 256 ≤ i → i < 512 → entry vm'.mem pml4 i = entry vm.mem pml4 i
  free {f} : Free vm'.pmm f ↔ Free vm.pmm f ∧ ∀ p, IsUser p → tableAt vm'.mem pml4 p ≠ some f
  managed {f} : Managed vm'.pmm f ↔ Managed vm.pmm f

namespace Grew

variable {vm vm' vm'' : Vm σ} {pml4 : Nat}

theorem refl (h : TreeInv Q vm pml4) : Grew Q vm vm pml4 where
  inv := h
  same _ := rfl
  tables _ ht := ht
  new _ ht := .inl ht
  outside _ := rfl
  upper _ _ := rfl
  free := ⟨fun hf => ⟨hf, fun _ hp ht => h.apart (of_user hp) ht hf⟩, fun hf => hf.1⟩
  managed := Iff.rfl

theorem trans (h : Grew Q vm vm' pml4) (h' : Grew Q vm' vm'' pml4) : Grew Q vm vm'' pml4 where
  inv := h'.inv
  same hva := (h'.same hva).trans (h.same hva)
  tables hp ht := h'.tables hp (h.tables hp ht)
  new hp ht := by
    rcases h'.new hp ht with ht' | hfree
    · exact h.new hp ht'
    · exact .inr (h.free.1 hfree).1
  outside hx := by
    rw [h'.outside hx, h.outside]
    exact fun p t hp ht => hx p t hp (h'.tables (of_user hp) ht)
  upper hlo hi := (h'.upper hlo hi).trans (h.upper hlo hi)
  free {f} := by
    rw [h'.free, h.free, and_assoc]
    refine and_congr_right fun _ => ⟨fun hf => hf.2, fun hf => ⟨fun p hp ht => ?_, hf⟩⟩
    exact hf p hp (h'.tables (of_user hp) ht)
  managed := h'.managed.trans h.managed

end Grew

variable (vm : Vm σ) {pml4 : Nat}

theorem alloc_zero (h : vm.alloc.1 = 0) : vm.alloc.2.mem = vm.mem ∧
    (∀ f, Free vm.alloc.2.pmm f ↔ Free vm.pmm f) ∧ ∀ f, Managed vm.alloc.2.pmm f ↔ Managed vm.pmm f := by
  have h' : (pmmAlloc vm.pmm).1 = 0 := h
  exact ⟨if_pos h', alloc_none h', fun f => alloc_managed⟩

theorem alloc_frame (h : vm.alloc.1 ≠ 0) :
    vm.alloc.2.mem = vm.mem.write vm.alloc.1 (List.replicate pageSize 0) ∧ Free vm.pmm vm.alloc.1 ∧
    (∀ f, Free vm.alloc.2.pmm f ↔ Free vm.pmm f ∧ f ≠ vm.alloc.1) ∧
    ∀ f, Managed vm.alloc.2.pmm f ↔ Managed vm.pmm f := by
  have h' : (pmmAlloc vm.pmm).1 ≠ 0 := h
  exact ⟨if_neg h', (alloc_some h').1, (alloc_some h').2, fun f => alloc_managed⟩

/-- The state `vmm_get_pte` leaves when it links a new table. -/
theorem link_of_alloc {vm : Vm σ} (h : TreeInv Q vm pml4) {p₀ : List Nat} {t₀ i₀ : Nat} (hp : IsUser (p₀ ++ [i₀]))
    (hlen : p₀.length ≤ 2) (h₀ : tableAt vm.mem pml4 p₀ = some t₀) (habs : isPresent (entry vm.mem t₀ i₀) = false)
    (hf : vm.alloc.1 ≠ 0) (flags : Pte) :
    UserTree Q vm.alloc.2.mem pml4 ∧
    Link Q vm.alloc.2.mem (vm.alloc.2.store (slot t₀ i₀)
      (BitVec.ofNat 64 vm.alloc.1 ||| ptePresent ||| pteWritable ||| (flags &&& pteUser))).mem pml4 p₀ t₀ i₀
      vm.alloc.1 := by
  obtain ⟨hmem, hfree, -, -⟩ := alloc_frame vm hf
  obtain ⟨-, hmod, hlt⟩ := managed_spec (managed_of_free hfree)
  have hun : Unused Q vm.mem pml4 vm.alloc.1 := fun p hp ht => h.apart hp ht hfree
  have hi : i₀ < 512 := hp.1.2 i₀ (by simp)
  have hne : t₀ ≠ vm.alloc.1 := by
    rintro rfl
    exact hun p₀ (of_user hp.of_append) h₀
  obtain ⟨hpres, hhuge, haddr⟩ := table_entry flags hmod hlt
  have ht := agreeOff_clear.tree h.tree hmod hun
  have h₀' : tableAt vm.alloc.2.mem pml4 p₀ = some t₀ := by
    rw [hmem, agreeOff_clear.tableAt_eq h.tree hmod hun (of_user hp.of_append), h₀]
  rw [← hmem] at ht
  refine ⟨ht, ?_⟩
  exact {
    write := SlotWrite.of_store ht hp.of_append hi h₀' _
    short := hlen
    user := hp
    absent := by
      rw [hmem, agreeOff_clear.entry_eq (tableAt_mod h.tree.aligned h₀) hmod hi hne]
      exact habs
    present := by
      rw [Vm.store, entry_store_same]
      exact hpres
    notHuge := by
      rw [Vm.store, entry_store_same]
      exact hhuge
    addr := by
      rw [Vm.store, entry_store_same]
      exact haddr
    unused := fun p hp ht => hun p hp (by rwa [hmem, agreeOff_clear.tableAt_eq h.tree hmod hun hp] at ht)
    empty := fun hi => by rw [hmem, entry_clear_same hi] }

/-! ## Level by level

With `create` and without.
-/

/-- One level of the walk with `create`: the tree grows by at most one table, the one that is returned. -/
theorem nextTable_grew {vm : Vm σ} (h : TreeInv Q vm pml4) {p₀ : List Nat} {t₀ i₀ : Nat} (hp : IsUser (p₀ ++ [i₀]))
    (hlen : p₀.length ≤ 2) (h₀ : tableAt vm.mem pml4 p₀ = some t₀) (flags : Pte) :
    Grew Q vm (vm.nextTable (slot t₀ i₀) true flags).2 pml4 ∧
    ∀ t, (vm.nextTable (slot t₀ i₀) true flags).1 = some t →
      tableAt (vm.nextTable (slot t₀ i₀) true flags).2.mem pml4 (p₀ ++ [i₀]) = some t := by
  rw [Vm.nextTable]
  cases hpres : isPresent (vm.mem.word (slot t₀ i₀)) with
  | true =>
    -- the table is there
    simp only [Bool.not_true, Bool.false_eq_true, if_false]
    refine ⟨Grew.refl h, ?_⟩
    rintro t ⟨⟩
    rw [tableAt_snoc h₀, nextOf, entry, hpres]
    cases p₀ with
    | nil => rfl
    | cons j p =>
      have hhuge := h.tree.noHuge hp.of_append (by simp) hlen (hp.1.2 i₀ (by simp)) h₀ hpres
      rw [entry] at hhuge
      simp [hhuge]
  | false =>
    simp only [Bool.not_false, Bool.not_true, Bool.false_eq_true, if_true, if_false]
    by_cases hf : vm.alloc.1 = 0
    · -- no frame for it
      obtain ⟨hmem, hfree, hman⟩ := alloc_zero vm hf
      rw [if_pos hf]
      refine ⟨?_, by simp⟩
      have hinv : TreeInv Q vm.alloc.2 pml4 :=
        ⟨by rw [hmem]; exact h.tree, fun hp ht => by rw [hfree]; rw [hmem] at ht; exact h.apart hp ht⟩
      exact {
        inv := hinv
        same := fun _ => by rw [hmem]
        tables := fun hp ht => by rwa [hmem]
        new := fun hp ht => .inl (by rwa [hmem] at ht)
        outside := fun _ => by rw [hmem]
        upper := fun _ _ => by rw [hmem]
        free := fun {f} => ⟨fun hf => ⟨(hfree f).1 hf, fun p hp ht => hinv.apart (of_user hp) ht hf⟩, fun hf => (hfree f).2 hf.1⟩
        managed := fun {f} => hman f }
    · -- a new, empty table
      rw [if_neg hf]
      obtain ⟨hmem, hfree, hfree', hman⟩ := alloc_frame vm hf
      obtain ⟨htree, l⟩ := link_of_alloc h hp hlen h₀ hpres hf flags
      have hun : Unused Q vm.mem pml4 vm.alloc.1 := fun p hp ht => h.apart hp ht hfree
      have hmod := l.mod
      have hold : ∀ {p t}, Q p → (tableAt vm.alloc.2.mem pml4 p = some t ↔ tableAt vm.mem pml4 p = some t) := by
        intro p t hp'
        rw [hmem, agreeOff_clear.tableAt_eq h.tree hmod hun hp']
      refine ⟨?_, ?_⟩
      · exact {
          inv := {
            tree := l.tree htree
            apart := fun {p t} hp' ht => by
              rcases (l.tableAt_iff htree hp').1 ht with ht | ⟨rfl, rfl⟩
              · exact fun hfr => h.apart hp' ((hold hp').1 ht) ((hfree' t).1 hfr).1
              · exact fun hfr => ((hfree' _).1 hfr).2 rfl }
          same := fun hva => by rw [l.virtToPhys_eq htree hva, hmem, agreeOff_clear.virtToPhys_eq h.tree hmod hun hva]
          tables := fun hp' ht => (l.tableAt_iff htree hp').2 (.inl ((hold hp').2 ht))
          new := fun hp' ht => by
            rcases (l.tableAt_iff htree hp').1 ht with ht | ⟨-, rfl⟩
            · exact .inl ((hold hp').1 ht)
            · exact .inr hfree
          outside := fun {x} hx => by
            have hnew := hx _ _ hp (l.tableAt_new htree)
            have ht₀ := hx p₀ t₀ hp.of_append (l.write.table' htree)
            have hi : i₀ < 512 := hp.1.2 i₀ (by simp)
            rw [pageSize] at ht₀
            refine (ByteMem.setWord_out _ _ (by rw [slot]; omega)).trans ?_
            rw [hmem]
            exact ByteMem.write_out _ (by rwa [List.length_replicate])
          upper := fun {i} hlo hi => by
            have hroot : pml4 ≠ vm.alloc.1 := fun he => hun [] (of_user isUser_nil) (he ▸ tableAt_nil)
            rw [l.write.entries h.tree.aligned hi, hmem]
            · exact agreeOff_clear.entry_eq h.tree.aligned hmod hi hroot
            · -- the new table hangs below an entry of the user half
              intro he
              obtain ⟨ht₀, rfl⟩ := Prod.mk.inj he
              obtain rfl := h.tree.unique isUser_nil (of_user hp.of_append) tableAt_nil (ht₀ ▸ h₀)
              have hlt := hp.2 _ rfl
              omega
          free := fun {f} => by
            refine (hfree' f).trans (and_congr_right fun hf' => ⟨fun hne p hp' ht => ?_, fun hno => ?_⟩)
            · rcases (l.tableAt_iff htree (of_user hp')).1 ht with ht | ⟨-, rfl⟩
              · exact h.apart (of_user hp') ((hold (of_user hp')).1 ht) hf'
              · exact hne rfl
            · rintro rfl
              exact hno _ hp (l.tableAt_new htree)
          managed := fun {f} => hman f }
      · rintro t ⟨⟩
        exact l.tableAt_new htree

/-- A table that should be made and is not: there is no frame left. -/
theorem nextTable_full (vm : Vm σ) (a : Nat) (flags : Pte) (h : (vm.nextTable a true flags).1 = none) :
    ∀ f, ¬Free (vm.nextTable a true flags).2.pmm f := by
  rw [Vm.nextTable] at h ⊢
  split at h
  next habs =>
    simp only [habs, Bool.not_true, Bool.false_eq_true, if_false, if_true] at h ⊢
    split at h
    next h0 =>
      intro f
      rw [if_pos h0, (alloc_zero vm h0).2.1]
      exact alloc_full h0 f
    next => cases h
  next => cases h

omit [PageAlloc σ] [PathClass Q] in
/-- No entry of a user PD is huge, so the check of `vmm_get_pte` lets the walk through. -/
theorem pde_not_huge {vm : Vm σ} (h : UserTree Q vm.mem pml4) {virt pd : Nat} (hv : virt < 2 ^ 47)
    (hpd : tableAt vm.mem pml4 [pml4Idx virt, pdptIdx virt] = some pd) :
    (isPresent (vm.mem.word (slot pd (pdIdx virt))) && isHuge (vm.mem.word (slot pd (pdIdx virt)))) = false := by
  cases hpres : isPresent (vm.mem.word (slot pd (pdIdx virt))) with
  | false => rfl
  | true =>
    have hidx : pdIdx virt < 512 := Nat.mod_lt _ (by decide)
    exact h.noHuge (isUser_pdpt hv) (by simp) (Nat.le_refl _) hidx hpd hpres

/-- `vmm_get_pte` with `create`: the tree may grow; the call fails only for want of frames, and if it succeeds the last
    table is there. -/
theorem vmmGetPte_create {vm : Vm σ} (h : TreeInv Q vm pml4) {virt : Nat} (hv : virt < 2 ^ 47) (flags : Pte) :
    Grew Q vm (vm.vmmGetPte pml4 virt true flags).2 pml4 ∧
    ((vm.vmmGetPte pml4 virt true flags).1 = none → ∀ f, ¬Free (vm.vmmGetPte pml4 virt true flags).2.pmm f) ∧
    ∀ a, (vm.vmmGetPte pml4 virt true flags).1 = some a →
      ∃ t, tableAt (vm.vmmGetPte pml4 virt true flags).2.mem pml4 (ptPath virt) = some t ∧
        a = slot t (ptIdx virt) := by
  rw [Vm.vmmGetPte]
  obtain ⟨g1, h1⟩ := nextTable_grew h (isUser_pml4 hv) (by simp) tableAt_nil flags
  have full1 := nextTable_full vm (slot pml4 (pml4Idx virt)) flags
  generalize vm.nextTable (slot pml4 (pml4Idx virt)) true flags = r1 at *
  obtain ⟨_ | pdpt, vm1⟩ := r1
  · exact ⟨g1, full1, by simp⟩
  obtain ⟨g2, h2⟩ := nextTable_grew g1.inv (isUser_pdpt hv) (by simp) (h1 pdpt rfl) flags
  have full2 := nextTable_full vm1 (slot pdpt (pdptIdx virt)) flags
  simp only
  generalize vm1.nextTable (slot pdpt (pdptIdx virt)) true flags = r2 at *
  obtain ⟨_ | pd, vm2⟩ := r2
  · exact ⟨g1.trans g2, full2, by simp⟩
  have hpd : tableAt vm2.mem pml4 [pml4Idx virt, pdptIdx virt] = some pd := h2 pd rfl
  simp only [pde_not_huge g2.inv.tree hv hpd, Bool.false_eq_true, if_false]
  obtain ⟨g3, h3⟩ := nextTable_grew g2.inv (isUser_pd hv) (by simp) hpd flags
  have full3 := nextTable_full vm2 (slot pd (pdIdx virt)) flags
  generalize vm2.nextTable (slot pd (pdIdx virt)) true flags = r3 at *
  obtain ⟨_ | pt, vm3⟩ := r3
  · exact ⟨(g1.trans g2).trans g3, full3, by simp⟩
  · refine ⟨(g1.trans g2).trans g3, by simp, ?_⟩
    rintro a ⟨⟩
    exact ⟨pt, h3 pt rfl, rfl⟩

omit [PathClass Q] in
/-- One level of the walk without `create`. -/
theorem nextTable_find {vm : Vm σ} (h : UserTree Q vm.mem pml4) {p₀ : List Nat} {t₀ i₀ : Nat}
    (hp : IsUser (p₀ ++ [i₀])) (hlen : p₀.length ≤ 2) (h₀ : tableAt vm.mem pml4 p₀ = some t₀) (flags : Pte) :
    vm.nextTable (slot t₀ i₀) false flags = (tableAt vm.mem pml4 (p₀ ++ [i₀]), vm) := by
  rw [Vm.nextTable, h.tableAt_next hp hlen h₀]
  change (if (!isPresent (entry vm.mem t₀ i₀)) = true then _ else _) = _
  cases hpres : isPresent (entry vm.mem t₀ i₀) with
  | false => rfl
  | true => rfl

omit [PathClass Q] in
/-- `vmm_get_pte` without `create` finds the entry in the last table, if there is such a table. -/
theorem vmmGetPte_find {vm : Vm σ} (h : UserTree Q vm.mem pml4) {virt : Nat} (hv : virt < 2 ^ 47) (flags : Pte) :
    vm.vmmGetPte pml4 virt false flags =
      ((tableAt vm.mem pml4 (ptPath virt)).map fun t => slot t (ptIdx virt), vm) := by
  rw [Vm.vmmGetPte, nextTable_find h (isUser_pml4 hv) (by simp) tableAt_nil]
  cases t1 : tableAt vm.mem pml4 ([] ++ [pml4Idx virt]) with
  | none =>
    rw [show ptPath virt = ([] ++ [pml4Idx virt]) ++ [pdptIdx virt, pdIdx virt] from rfl, tableAt_append_none t1]
    rfl
  | some pdpt =>
    simp only [nextTable_find h (isUser_pdpt hv) (by simp) t1]
    cases t2 : tableAt vm.mem pml4 ([pml4Idx virt] ++ [pdptIdx virt]) with
    | none =>
      rw [show ptPath virt = ([pml4Idx virt] ++ [pdptIdx virt]) ++ [pdIdx virt] from rfl, tableAt_append_none t2]
      rfl
    | some pd =>
      simp only [pde_not_huge h hv t2, Bool.false_eq_true, if_false,
        nextTable_find h (isUser_pd hv) (Nat.le_refl _) t2]
      rw [show [pml4Idx virt, pdptIdx virt] ++ [pdIdx virt] = ptPath virt from rfl]
      cases tableAt vm.mem pml4 (ptPath virt) with
      | none => rfl
      | some pt => rfl

/-! ## Frames are only taken

What is free after a walk was free before it.
-/

section

omit [PathClass Q]

variable {vm : Vm σ} {virt phys f : Nat} {flags : Pte}

theorem alloc_free (h : Free vm.alloc.2.pmm f) : Free vm.pmm f := by
  by_cases h0 : vm.alloc.1 = 0
  · exact ((alloc_zero vm h0).2.1 f).mp h
  · exact (((alloc_frame vm h0).2.2.1 f).mp h).1

theorem nextTable_free {a : Nat} {create : Bool} (h : Free (vm.nextTable a create flags).2.pmm f) : Free vm.pmm f := by
  unfold Vm.nextTable at h
  split at h
  · split at h
    · exact h
    · simp only at h
      split at h
      · exact alloc_free h
      · exact alloc_free h
  · exact h

theorem vmmGetPte_free {create : Bool} (h : Free (vm.vmmGetPte pml4 virt create flags).2.pmm f) : Free vm.pmm f := by
  unfold Vm.vmmGetPte at h
  obtain ⟨t₁, vm₁, h₁⟩ : ∃ t₁ vm₁, vm.nextTable (slot pml4 (pml4Idx virt)) create flags = (t₁, vm₁) := ⟨_, _, rfl⟩
  have hf₁ : Free vm₁.pmm f → Free vm.pmm f := fun hf => nextTable_free (by rw [h₁]; exact hf)
  rw [h₁] at h
  cases t₁ with
  | none => exact hf₁ h
  | some pdpt =>
      simp only at h
      obtain ⟨t₂, vm₂, h₂⟩ : ∃ t₂ vm₂, vm₁.nextTable (slot pdpt (pdptIdx virt)) create flags = (t₂, vm₂) := ⟨_, _, rfl⟩
      have hf₂ : Free vm₂.pmm f → Free vm.pmm f := fun hf => hf₁ (nextTable_free (by rw [h₂]; exact hf))
      rw [h₂] at h
      cases t₂ with
      | none => exact hf₂ h
      | some pd =>
          simp only at h
          split at h
          · exact hf₂ h
          · obtain ⟨t₃, vm₃, h₃⟩ : ∃ t₃ vm₃, vm₂.nextTable (slot pd (pdIdx virt)) create flags = (t₃, vm₃) := ⟨_, _, rfl⟩
            have hf₃ : Free vm₃.pmm f → Free vm.pmm f := fun hf => hf₂ (nextTable_free (by rw [h₃]; exact hf))
            rw [h₃] at h
            cases t₃ with
            | none => exact hf₃ h
            | some pt => exact hf₃ h

theorem vmmMap_free (h : Free (vm.vmmMap pml4 virt phys flags).2.pmm f) : Free vm.pmm f := by
  unfold Vm.vmmMap at h
  split at h
  · exact h
  · obtain ⟨t, vm₁, h₁⟩ : ∃ t vm₁, vm.vmmGetPte pml4 virt true flags = (t, vm₁) := ⟨_, _, rfl⟩
    have hf₁ : Free vm₁.pmm f → Free vm.pmm f := fun hf => vmmGetPte_free (by rw [h₁]; exact hf)
    rw [h₁] at h
    cases t with
    | none => exact hf₁ h
    | some pte => exact hf₁ h

end

/-! ## Stores to the last level

A store to the last level moves no table, so it concerns one page.
-/

/-- A store to the entry of the page of `virt`. -/
theorem leaf_store {vm : Vm σ} (h : TreeInv Q vm pml4) {virt t : Nat} (hv : virt < 2 ^ 47)
    (ht : tableAt vm.mem pml4 (ptPath virt) = some t) (e : Pte) :
    TreeInv Q (vm.store (slot t (ptIdx virt)) e) pml4 ∧
    (∀ va, path va = path virt → vmmVirtToPhys (vm.store (slot t (ptIdx virt)) e).mem pml4 va =
      if isPresent e then pteAddr e + va % pageSize else 0) ∧
    ∀ va, Reaches Q va → path va ≠ path virt →
      vmmVirtToPhys (vm.store (slot t (ptIdx virt)) e).mem pml4 va = vmmVirtToPhys vm.mem pml4 va := by
  have hidx : ptIdx virt < 512 := Nat.mod_lt _ (by decide)
  have w := SlotWrite.of_store h.tree (ptPath_user hv) hidx ht e
  refine ⟨⟨w.tree_leaf h.tree rfl, fun hp htp => ?_⟩, fun va hva => ?_, fun va hQ hva => ?_⟩
  · rw [Vm.store, w.tableAt_leaf h.tree rfl hp] at htp
    exact h.apart hp htp
  · obtain ⟨hpt, hix⟩ := path_parts hva
    have ht' : tableAt (vm.store (slot t (ptIdx virt)) e).mem pml4 (ptPath va) = some t := by
      rw [hpt]
      exact w.table' h.tree
    rw [virtToPhys_leaf ht', hix, Vm.store, entry_store_same]
  · apply w.virtToPhys_eq h.tree hQ
    rintro (_ | ⟨j, r⟩) hr
    · exact hva hr
    · have := congrArg List.length hr
      simp [path, ptPath] at this

/-! ## `vmm_map` and `vmm_unmap`

The two in terms of the lemmas above: what each may leave.
-/

/-- `vmm_map` fails for want of frames, with at most some tables added, or stores the entry of the page in the last
    table. -/
theorem vmmMap_cases {vm : Vm σ} (h : TreeInv Q vm pml4) {virt phys : Nat} (hv : virt < 2 ^ 47)
    (hal : virt % pageSize = 0) (hphys : phys % pageSize = 0) (flags : Pte) :
    ((vm.vmmMap pml4 virt phys flags).1 = -enomem ∧ Grew Q vm (vm.vmmMap pml4 virt phys flags).2 pml4 ∧
      ∀ f, ¬Free (vm.vmmMap pml4 virt phys flags).2.pmm f) ∨
    ((vm.vmmMap pml4 virt phys flags).1 = 0 ∧ ∃ vm₁ t, Grew Q vm vm₁ pml4 ∧
      tableAt vm₁.mem pml4 (ptPath virt) = some t ∧
      (vm.vmmMap pml4 virt phys flags).2 = vm₁.store (slot t (ptIdx virt)) (BitVec.ofNat 64 phys ||| flags)) := by
  rw [Vm.vmmMap, if_neg (by omega)]
  obtain ⟨g, hfull, hpte⟩ := vmmGetPte_create h hv flags
  generalize vm.vmmGetPte pml4 virt true flags = r at *
  obtain ⟨_ | a, vm₁⟩ := r
  · exact .inl ⟨rfl, g, hfull rfl⟩
  · obtain ⟨t, ht, rfl⟩ := hpte a rfl
    exact .inr ⟨rfl, vm₁, t, g, ht, rfl⟩

/-- What `vmm_unmap` does to a space. -/
theorem vmmUnmap_spec {vm : Vm σ} (h : TreeInv Q vm pml4) {virt : Nat} (hv : virt < 2 ^ 47) :
    TreeInv Q (vm.vmmUnmap pml4 virt) pml4 ∧
    (∀ va, va < 2 ^ 47 → path va = path virt → vmmVirtToPhys (vm.vmmUnmap pml4 virt).mem pml4 va = 0) ∧
    ∀ va, Reaches Q va → path va ≠ path virt →
      vmmVirtToPhys (vm.vmmUnmap pml4 virt).mem pml4 va = vmmVirtToPhys vm.mem pml4 va := by
  rw [Vm.vmmUnmap, vmmGetPte_find h.tree hv]
  cases ht : tableAt vm.mem pml4 (ptPath virt) with
  | none =>
    refine ⟨h, fun va hva hpath => ?_, fun _ _ _ => rfl⟩
    exact h.tree.virtToPhys_none hva (by rw [(path_parts hpath).1]; exact ht)
  | some t =>
    simp only [Option.map_some]
    obtain ⟨hinv, hpage, hother⟩ := leaf_store h hv ht 0
    split
    · exact ⟨hinv, fun va _ hpath => by rw [hpage va hpath]; rfl, hother⟩
    next hpres =>
      refine ⟨h, fun va hva hpath => ?_, fun _ _ _ => rfl⟩
      obtain ⟨hpt, hidx⟩ := path_parts hpath
      rw [virtToPhys_leaf (by rw [hpt]; exact ht), hidx, entry, if_neg hpres]

end

/-! ## `vmm_protect`

It rewrites entries with other flags. An entry that is present keeps its frame, so translation is the same; an entry
that is not stays absent. This holds for any range, also one that wraps around, and without a tree.
-/

/-- Entries may have lost flags, but are present as before and lead where they led. -/
def Refreshed (m m' : ByteMem) : Prop :=
  ∀ t i, t % pageSize = 0 → i < 512 → isPresent (entry m' t i) = isPresent (entry m t i) ∧
    (isPresent (entry m t i) = true → pteAddr (entry m' t i) = pteAddr (entry m t i)) ∧
    (isHuge (entry m t i) = false → isHuge (entry m' t i) = false)

namespace Refreshed

variable {m m' m'' : ByteMem} {pml4 : Nat}

theorem refl : Refreshed m m := fun _ _ _ _ => ⟨rfl, fun _ => rfl, id⟩

theorem trans (h : Refreshed m m') (h' : Refreshed m' m'') : Refreshed m m'' := by
  intro t i ht hi
  obtain ⟨hp, ha, hh⟩ := h t i ht hi
  obtain ⟨hp', ha', hh'⟩ := h' t i ht hi
  exact ⟨hp'.trans hp, fun hpres => (ha' (hp.trans hpres)).trans (ha hpres), fun hhuge => hh' (hh hhuge)⟩

theorem protFlags_bits (prot : Nat) : isPresent (protFlags prot) = true ∧ (protFlags prot).getLsbD 7 = false ∧
    protFlags prot &&& 0x000FFFFFFFFFF000#64 = 0#64 := by
  rw [protFlags]
  split <;> split <;> decide

theorem pteAddr_lt (e : Pte) : pteAddr e < 2 ^ 52 := by
  rw [pteAddr, BitVec.toNat_and]
  exact Nat.lt_of_le_of_lt Nat.and_le_right (by decide)

/-- The store of `vmm_protect`. -/
theorem store {t i : Nat} (prot : Nat) (ht : t % pageSize = 0) (hi : i < 512)
    (hpres : isPresent (entry m t i) = true) :
    Refreshed m (m.setWord (slot t i) (BitVec.ofNat 64 (pteAddr (entry m t i)) ||| protFlags prot)) := by
  intro t' i' ht' hi'
  by_cases hslot : (t', i') = (t, i)
  · obtain ⟨rfl, rfl⟩ := Prod.mk.inj hslot
    obtain ⟨hp, hh, hmask⟩ := protFlags_bits prot
    rw [entry_store_same, hpres]
    refine ⟨isPresent_or hp, fun _ => pteAddr_or (pteAddr_mod _) (pteAddr_lt _) hmask, fun _ => ?_⟩
    have hbit : (pteAddr (entry m t' i')).testBit 7 = false := by
      have := pteAddr_mod (entry m t' i')
      rw [pageSize] at this
      rw [Nat.testBit_eq_decide_div_mod_eq, decide_eq_false_iff_not]
      omega
    rw [isHuge_eq, BitVec.getLsbD_or, hh, BitVec.getLsbD_ofNat, hbit, Bool.and_false, Bool.or_self]
  · rw [entry_store _ ht' ht hi' hi hslot]
    exact ⟨rfl, fun _ => rfl, id⟩

variable {Q : List Nat → Prop}

/-- The tables of a user half are where they were. -/
theorem tableAt_eq (h : Refreshed m m') (ht : UserTree Q m pml4) (p : List Nat) (hp : IsUser p) :
    tableAt m' pml4 p = tableAt m pml4 p := by
  induction p using List.reverseRecOn with
  | nil => rw [tableAt_nil, tableAt_nil]
  | append_singleton p i ih =>
    have ih := ih hp.of_append
    have hlen : p.length ≤ 2 := by
      have := hp.1.1
      rw [List.length_append, List.length_singleton] at this
      omega
    cases htp : tableAt m pml4 p with
    | none =>
      rw [tableAt_append_none (ih.trans htp), tableAt_append_none htp]
    | some t =>
      obtain ⟨hpres, haddr, hhuge⟩ := h t i (tableAt_mod ht.aligned htp) (hp.1.2 i (by simp))
      rw [tableAt_snoc (ih.trans htp), tableAt_snoc htp]
      cases hcase : isPresent (entry m t i) with
      | false => rw [nextOf_absent hcase, nextOf_absent (hpres.trans hcase)]
      | true =>
        by_cases hne : p = []
        · rw [hne, List.length_nil, nextOf_root (hpres.trans hcase), nextOf_root hcase, haddr hcase]
        · have hsmall := ht.noHuge hp.of_append hne hlen (hp.1.2 i (by simp)) htp hcase
          rw [nextOf_table (hpres.trans hcase) (hhuge hsmall), nextOf_table hcase hsmall, haddr hcase]

theorem tree (h : Refreshed m m') (ht : UserTree IsUser m pml4) : UserTree IsUser m' pml4 where
  aligned := ht.aligned
  unique {p q t} hp hq hpt hqt := by
    rw [h.tableAt_eq ht p hp] at hpt
    rw [h.tableAt_eq ht q hq] at hqt
    exact ht.unique hp hq hpt hqt
  noHuge {p t i} hp hne hle hi hpt hpres := by
    rw [h.tableAt_eq ht p hp] at hpt
    obtain ⟨hpres', -, hhuge⟩ := h t i (tableAt_mod ht.aligned hpt) hi
    exact hhuge (ht.noHuge hp hne hle hi hpt (hpres'.symm.trans hpres))

theorem virtToPhys_eq (h : Refreshed m m') (ht : UserTree IsUser m pml4) {va : Nat} (hva : va < 2 ^ 47) :
    vmmVirtToPhys m' pml4 va = vmmVirtToPhys m pml4 va := by
  have htab := h.tableAt_eq ht _ (ptPath_user hva)
  cases hcase : tableAt m pml4 (ptPath va) with
  | none => rw [ht.virtToPhys_none hva hcase, (h.tree ht).virtToPhys_none hva (htab.trans hcase)]
  | some t =>
    have hidx : ptIdx va < 512 := Nat.mod_lt _ (by decide)
    obtain ⟨hpres, haddr, -⟩ := h t (ptIdx va) (tableAt_mod ht.aligned hcase) hidx
    rw [virtToPhys_leaf hcase, virtToPhys_leaf (htab.trans hcase), hpres]
    split
    next hp => rw [haddr hp]
    next => rfl

end Refreshed

section

variable {σ : Type} [PageAlloc σ] {pml4 : Nat}

/-- Without `create` nothing is written, and what is found is an entry of some frame. -/
theorem vmmGetPte_slot (vm : Vm σ) (pml4 virt : Nat) (flags : Pte) :
    vm.vmmGetPte pml4 virt false flags = (none, vm) ∨
    ∃ t, t % pageSize = 0 ∧ vm.vmmGetPte pml4 virt false flags = (some (slot t (ptIdx virt)), vm) := by
  have hnext : ∀ a, vm.nextTable a false flags = (none, vm) ∨
      ∃ t, t % pageSize = 0 ∧ vm.nextTable a false flags = (some t, vm) := by
    intro a
    rw [Vm.nextTable]
    split
    · exact .inl rfl
    · exact .inr ⟨_, pteAddr_mod _, rfl⟩
  rw [Vm.vmmGetPte]
  rcases hnext (slot pml4 (pml4Idx virt)) with h1 | ⟨pdpt, -, h1⟩
  · rw [h1]
    exact .inl rfl
  rw [h1]
  rcases hnext (slot pdpt (pdptIdx virt)) with h2 | ⟨pd, -, h2⟩
  · simp only [h2]
    exact .inl trivial
  simp only [h2]
  split
  · exact .inl rfl
  rcases hnext (slot pd (pdIdx virt)) with h3 | ⟨pt, hpt, h3⟩
  · rw [h3]
    exact .inl rfl
  · rw [h3]
    exact .inr ⟨pt, hpt, rfl⟩

theorem protectPage_refreshed (vm : Vm σ) (addr prot : Nat) :
    Refreshed vm.mem (vm.protectPage pml4 addr prot).mem := by
  rw [Vm.protectPage]
  rcases vmmGetPte_slot vm pml4 addr 0 with h | ⟨t, ht, h⟩
  · rw [h]
    exact Refreshed.refl
  · rw [h]
    simp only
    split
    next hpres => exact Refreshed.store prot ht (Nat.mod_lt _ (by decide)) hpres
    next => exact Refreshed.refl

/-- A whole run of `vmm_protect`, whatever its range. -/
theorem vmmProtect_refreshed (vm : Vm σ) (pml4 virt size prot : Nat) :
    Refreshed vm.mem (vm.vmmProtect pml4 virt size prot).mem := by
  rw [Vm.vmmProtect]
  generalize List.range _ = is
  induction is generalizing vm with
  | nil => exact Refreshed.refl
  | cons i is ih => exact (protectPage_refreshed vm _ prot).trans (ih _)

/-! ## The partial map

The statement in terms of addresses and frames, and a small machine on which its hypotheses hold.
-/

/-- From `m` to `m'` the translation of the user half changes in the page of `virt` only, where offset `o` now
    translates to `new o`. -/
def ChangesPage (m m' : ByteMem) (pml4 virt : Nat) (new : Nat → Nat) : Prop :=
  (∀ o < pageSize, vmmVirtToPhys m' pml4 (virt + o) = new o) ∧
  ∀ va < 2 ^ 47, va / pageSize ≠ virt / pageSize → vmmVirtToPhys m' pml4 va = vmmVirtToPhys m pml4 va

/-- The translation of the user half is the same. -/
def SameMap (m m' : ByteMem) (pml4 : Nat) : Prop :=
  ∀ va < 2 ^ 47, vmmVirtToPhys m' pml4 va = vmmVirtToPhys m pml4 va

theorem page_add {virt o : Nat} (hal : virt % pageSize = 0) (ho : o < pageSize) :
    (virt + o) / pageSize = virt / pageSize ∧ (virt + o) % pageSize = o := by
  rw [pageSize] at *
  omega

theorem path_ne {va virt : Nat} (hva : va < 2 ^ 47) (hv : virt < 2 ^ 47) (h : va / pageSize ≠ virt / pageSize) :
    path va ≠ path virt := fun hp => h (page_eq_of_path (.inl hva) hv hp)

/-- **Page tables refine a partial map of pages to frames.** On a space whose user half is a tree, with an allocator
    that returns frames the tree does not use: `vmm_map` sets one page or fails without a change, `vmm_unmap` removes
    one page, `vmm_protect` changes none, and all of them keep the tree. -/
theorem vmm_refines_page_map (vm : Vm σ) (virt phys : Nat) (flags : Pte) (size prot : Nat)
    (htree : UserTree IsUser vm.mem pml4)
    (hfresh : ∀ p t, IsUser p → tableAt vm.mem pml4 p = some t → ¬PageAlloc.Free vm.pmm t)
    (hv : virt < 2 ^ 47) (hal : virt % pageSize = 0)
    (hphys : phys % pageSize = 0) (hlt : phys < 2 ^ 52)
    (hpres : isPresent flags = true) (hflags : flags &&& 0x000FFFFFFFFFF000#64 = 0#64) :
    ((vm.vmmMap pml4 virt phys flags).1 = 0 →
      ChangesPage vm.mem (vm.vmmMap pml4 virt phys flags).2.mem pml4 virt fun o => phys + o) ∧
    ((vm.vmmMap pml4 virt phys flags).1 ≠ 0 → SameMap vm.mem (vm.vmmMap pml4 virt phys flags).2.mem pml4) ∧
    ChangesPage vm.mem (vm.vmmUnmap pml4 virt).mem pml4 virt (fun _ => 0) ∧
    SameMap vm.mem (vm.vmmProtect pml4 virt size prot).mem pml4 ∧
    UserTree IsUser (vm.vmmMap pml4 virt phys flags).2.mem pml4 ∧
    UserTree IsUser (vm.vmmUnmap pml4 virt).mem pml4 ∧
    UserTree IsUser (vm.vmmProtect pml4 virt size prot).mem pml4 := by
  have hinv : TreeInv IsUser vm pml4 := ⟨htree, fun hp ht => hfresh _ _ hp ht⟩
  have hpage : ∀ o < pageSize, path (virt + o) = path virt := fun o ho => path_of_page (page_add hal ho).1
  have hprot := vmmProtect_refreshed vm pml4 virt size prot
  obtain ⟨hunmap, hgone, hrest⟩ := vmmUnmap_spec hinv hv
  have hunmapped : ChangesPage vm.mem (vm.vmmUnmap pml4 virt).mem pml4 virt fun _ => 0 := by
    refine ⟨fun o ho => hgone _ ?_ (hpage o ho), fun va hva hne => hrest va (reaches_user hva) (path_ne hva hv hne)⟩
    rw [pageSize] at *
    omega
  rcases vmmMap_cases hinv hv hal hphys flags with ⟨hr, g, -⟩ | ⟨hr, vm₁, t, g, ht, hout⟩
  · -- no table could be made
    refine ⟨fun h0 => ?_, fun _ va hva => g.same (reaches_user hva), hunmapped,
      fun va hva => hprot.virtToPhys_eq htree hva, g.inv.tree, hunmap.tree, hprot.tree htree⟩
    rw [hr] at h0
    cases h0
  · obtain ⟨hinv', hin, hother⟩ := leaf_store g.inv hv ht (BitVec.ofNat 64 phys ||| flags)
    rw [hout]
    refine ⟨fun _ => ⟨fun o ho => ?_, fun va hva hne => ?_⟩, fun hne => absurd hr hne, hunmapped,
      fun va hva => hprot.virtToPhys_eq htree hva, hinv'.tree, hunmap.tree, hprot.tree htree⟩
    · rw [hin _ (hpage o ho), if_pos (isPresent_or hpres), pteAddr_or hphys hlt hflags, (page_add hal ho).2]
    · rw [hother va (reaches_user hva) (path_ne hva hv hne), g.same (reaches_user hva)]

end

/-- In cleared memory there is no table but the PML4. -/
theorem tableAt_cleared {pml4 t : Nat} {p : List Nat} (h : tableAt (fun _ => 0) pml4 p = some t) :
    p = [] ∧ t = pml4 := by
  cases p with
  | nil => exact ⟨rfl, (Option.some.inj h).symm⟩
  | cons i p =>
    have habsent : isPresent (entry (fun _ => 0) pml4 i) = false := by
      change isPresent (BitVec.ofNat 64 (ofLe ((List.range 8).map fun _ => 0))) = false
      decide
    rw [tableAt, walk_cons, nextOf_absent habsent] at h
    cases h

/-- There the PML4 is the whole tree. -/
theorem TreeInv.of_cleared {σ : Type} [PageAlloc σ] {Q : List Nat → Prop} {vm : Vm σ} {pml4 : Nat}
    (hmem : vm.mem = fun _ => 0) (halign : pml4 % pageSize = 0) (hused : ¬PageAlloc.Free vm.pmm pml4) :
    TreeInv Q vm pml4 where
  tree := {
    aligned := halign
    unique := fun _ _ hp hq => by
      rw [hmem] at hp hq
      exact (tableAt_cleared hq).1.trans (tableAt_cleared hp).1.symm
    noHuge := fun _ hne _ _ hp _ => by
      rw [hmem] at hp
      exact absurd (tableAt_cleared hp).1 hne }
  apart := by
    intro p t _ ht hfree
    rw [hmem] at ht
    rw [(tableAt_cleared ht).2] at hfree
    exact hused hfree

/-- A machine of 64 frames with an empty PML4 at `0x1000`; only its frame and frame 0 are in use. -/
def clearedVm : Vm SoundPmm where
  mem := fun _ => 0
  pmm := ⟨{ bitmap := fun _ => 3#64, totalPages := 64, freePages := 62#64, usedPages := 2#64, allocHint := 0 },
    fun _ => by decide, by decide, ⟨by decide, by decide +kernel, by decide, by decide⟩⟩

theorem vmm_refines_page_map_cleared :
    (clearedVm.vmmMap 0x1000 0x400000 0x5000 vmmUserRw).1 = 0 ∧
    ChangesPage clearedVm.mem (clearedVm.vmmMap 0x1000 0x400000 0x5000 vmmUserRw).2.mem 0x1000 0x400000
      fun o => 0x5000 + o := by
  have h0 : (clearedVm.vmmMap 0x1000 0x400000 0x5000 vmmUserRw).1 = 0 := by decide +kernel
  refine ⟨h0, (vmm_refines_page_map clearedVm 0x400000 0x5000 vmmUserRw 0x1000 0 ?_ ?_ (by decide) (by decide)
    (by decide) (by decide) (by decide) (by decide)).1 h0⟩
  · exact
      { aligned := by decide
        unique := fun _ _ hp hq => (tableAt_cleared hq).1.trans (tableAt_cleared hp).1.symm
        noHuge := fun _ hne _ _ hp _ => absurd (tableAt_cleared hp).1 hne }
  · rintro p t - ht ⟨-, -, hfree⟩
    rw [(tableAt_cleared ht).2] at hfree
    revert hfree
    decide

end MyUnix.Mm
