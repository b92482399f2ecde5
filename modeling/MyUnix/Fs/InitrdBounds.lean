import MyUnix.Fs.Cpio

/-!
# `Fs.InitrdBounds` — what the parser of the archive reads, and what its entries refer to

The loop of `initrd_init` checks that a whole header is left, and nothing else: the name and the contents are as long as
the header says, wherever the archive ends. `turns` is the loop with what each round comes to, and `Turn.reads` the bytes
that a round looks at.

A round that is followed by another has its name and its contents before the header of that, so only the last one can
reach over the end. Whether everything stays inside (`RefersInside`) can thus be told from the last header and the last
entry (`LastComplete`).

The entry of the last round may refer to bytes behind the archive even where the parser itself has not read them: the
contents are not looked at, only their place and size are kept.
-/

namespace MyUnix.Fs

open MyUnix.Lib

/-! ## The rounds of the loop -/

/-- How a round ends: with a header that has no magic, with the trailer, without memory for the entry, or with an
    entry. -/
inductive TurnEnd where
  | badMagic
  | trailer
  | noMem
  | made
  deriving DecidableEq, Repr

/-- A turn of the loop over the entries: where the header is, and how it ends. -/
structure Turn where
  hdr     : Nat
  outcome : TurnEnd
  deriving DecidableEq, Repr

/-- How many bytes `strcmp` reads of the string at `a`, against a literal. -/
def strcmpLen (m : ByteMem) (a : Nat) : List UInt8 → Nat
  | []        => 1
  | c :: rest => if m a = c then 1 + strcmpLen m (a + 1) rest else 1

/-- How many bytes `strncpy` reads of the string at `a`. -/
def strncpyLen (m : ByteMem) (a : Nat) : Nat → Nat
  | 0     => 0
  | n + 1 => if m a = 0 then 1 else 1 + strncpyLen m (a + 1) n

namespace Turn

variable (m : ByteMem) (t : Turn)

/-- Where the name begins. -/
def name : Nat := t.hdr + cpioHeaderSize

/-- Where the data begins. -/
def data : Nat := alignUp4 (t.name + cpioField m t.hdr 11)

/-- The size of the data, as the header has it. -/
def fileSize : Nat := cpioField m t.hdr 6

/-- The bytes of the name that are read when the round makes an entry: those at which a `./` and a `.` are looked for,
    and those that `strncpy` copies. -/
def copyReads : List Nat :=
  let clean := if m t.name = 46 ∧ m (t.name + 1) = 47 then t.name + 2 else t.name
  List.range' t.name (if m t.name = 46 then 2 else 1) ++ List.range' clean (if m clean = 46 then 2 else 1) ++
    List.range' clean (if m clean = 46 ∧ m (clean + 1) = 0 then 0 else strncpyLen m clean (pathMax - 1))

/-- The bytes of the header and of the name that a round reads. -/
def reads : List Nat :=
  let compared := List.range' t.name (strcmpLen m t.name cpioTrailer)
  List.range' t.hdr cpioHeaderSize ++
    match t.outcome with
    | .badMagic         => []
    | .trailer | .noMem => compared
    | .made             => compared ++ t.copyReads m

end Turn

/-- The loop of `initrd_init`, as in `parseFrom`. -/
def turnsFrom (m : ByteMem) (size : Nat) (alloc : Nat → Bool) (ptr k : Nat) : List Turn :=
  if hfits : ptr + cpioHeaderSize ≤ size then
    if m.read ptr 6 ≠ cpioMagic ∧ m.read ptr 6 ≠ cpioMagicCrc then [⟨ptr, .badMagic⟩]
    else if m.read (ptr + cpioHeaderSize) 11 = cpioTrailer ++ [0] then [⟨ptr, .trailer⟩]
    else
      ⟨ptr, if alloc k then .made else .noMem⟩ ::
        turnsFrom m size alloc
          (alignUp4 (alignUp4 (ptr + cpioHeaderSize + cpioField m ptr 11) + cpioField m ptr 6)) (k + 1)
  else []
termination_by size - ptr
decreasing_by exact sub_next_lt hfits _ _

/-- The turns of the loop over an image of `size` bytes. -/
def turns (m : ByteMem) (size : Nat) (alloc : Nat → Bool) : List Turn := turnsFrom m size alloc 0 0

/-- What `initrd_vn_read` copies out of the archive. -/
def vnReadRange (ent : InitrdEntry) (len : Nat) (off : Int) : List Nat :=
  if ent.isDir then []
  else if off < 0 then []
  else if ent.attr.size ≤ off.toNat then []
  else List.range' (ent.data + off.toNat) (min len (ent.attr.size - off.toNat))

/-- **Everything refers to the archive**, which is the bytes below `size`: what the loop reads of headers and names, the
    zero byte of every name an entry got, its contents, and what a read of it copies. -/
structure RefersInside (m : ByteMem) (size : Nat) (alloc : Nat → Bool) : Prop where
  reads    : ∀ t ∈ turns m size alloc, ∀ a ∈ t.reads m, a < size
  names    : ∀ t ∈ turns m size alloc, t.outcome = .made → ∃ a, t.name ≤ a ∧ a < size ∧ m a = 0
  contents : ∀ d ∈ initrdInit m size alloc, d.data + d.attr.size ≤ size
  vnRead   : ∀ d ∈ initrdInit m size alloc, ∀ len off, ∀ a ∈ vnReadRange d len off, a < size

/-- **The end of the walk is complete**: the name of the last header is told from the trailer before the archive ends,
    and the last entry has the zero of its name and its contents before the end. -/
structure LastComplete (m : ByteMem) (size : Nat) (alloc : Nat → Bool) : Prop where
  header : ∀ t, (turns m size alloc).getLast? = some t → t.outcome ≠ .badMagic →
    t.name + strcmpLen m t.name cpioTrailer ≤ size
  name   : ∀ t, ((turns m size alloc).filter (·.outcome = .made)).getLast? = some t →
    ∃ a, t.name ≤ a ∧ a < size ∧ m a = 0
  file   : ∀ t, ((turns m size alloc).filter (·.outcome = .made)).getLast? = some t →
    t.data m + t.fileSize m ≤ size

/-! ## The rounds and the entries

Each entry comes from one round, and each round that ends so has made one.
-/

section
variable {m : ByteMem} {size : Nat} {alloc : Nat → Bool}

/-- Each entry is that of a round. -/
theorem exists_turn_of_mem {d : InitrdEntry} {ptr k ino : Nat} (hd : d ∈ parseFrom m size alloc ptr k ino) :
    ∃ t ∈ turnsFrom m size alloc ptr k, t.outcome = .made ∧ ∃ i, d = cpioEntryAt m t.hdr (t.data m) i := by
  fun_induction parseFrom m size alloc ptr k ino with
  | case1 ptr k ino hfits hmagic => exact absurd hd List.not_mem_nil
  | case2 ptr k ino hfits hmagic name htrailer => exact absurd hd List.not_mem_nil
  | case3 ptr k ino hfits hmagic name data htrailer next halloc ih =>
    rw [turnsFrom, dif_pos hfits, if_neg hmagic, if_neg htrailer, if_pos halloc]
    rcases List.mem_cons.mp hd with rfl | hd
    · exact ⟨_, List.mem_cons_self, rfl, ino, rfl⟩
    · obtain ⟨t, ht, hrest⟩ := ih hd
      exact ⟨t, List.mem_cons_of_mem _ ht, hrest⟩
  | case4 ptr k ino hfits hmagic name data htrailer next halloc ih =>
    rw [turnsFrom, dif_pos hfits, if_neg hmagic, if_neg htrailer, if_neg halloc]
    obtain ⟨t, ht, hrest⟩ := ih hd
    exact ⟨t, List.mem_cons_of_mem _ ht, hrest⟩
  | case5 ptr k ino hfits => exact absurd hd List.not_mem_nil

/-- And each round that ends so has made one. -/
theorem exists_mem_of_turn {t : Turn} {ptr k ino : Nat} (ht : t ∈ turnsFrom m size alloc ptr k)
    (hmade : t.outcome = .made) :
    ∃ d ∈ parseFrom m size alloc ptr k ino, d.data = t.data m ∧ d.attr.size = t.fileSize m := by
  fun_induction parseFrom m size alloc ptr k ino with
  | case1 ptr k ino hfits hmagic =>
    rw [turnsFrom, dif_pos hfits, if_pos hmagic] at ht
    obtain rfl := List.mem_singleton.mp ht
    cases hmade
  | case2 ptr k ino hfits hmagic name htrailer =>
    rw [turnsFrom, dif_pos hfits, if_neg hmagic, if_pos htrailer] at ht
    obtain rfl := List.mem_singleton.mp ht
    cases hmade
  | case3 ptr k ino hfits hmagic name data htrailer next halloc ih =>
    rw [turnsFrom, dif_pos hfits, if_neg hmagic, if_neg htrailer, if_pos halloc] at ht
    rcases List.mem_cons.mp ht with rfl | ht
    · exact ⟨_, List.mem_cons_self, rfl, rfl⟩
    · obtain ⟨d, hd, hrest⟩ := ih ht
      exact ⟨d, List.mem_cons_of_mem _ hd, hrest⟩
  | case4 ptr k ino hfits hmagic name data htrailer next halloc ih =>
    rw [turnsFrom, dif_pos hfits, if_neg hmagic, if_neg htrailer, if_neg halloc] at ht
    rcases List.mem_cons.mp ht with rfl | ht
    · cases hmade
    · exact ih ht
  | case5 ptr k ino hfits =>
    rw [turnsFrom, dif_neg hfits] at ht
    exact absurd ht List.not_mem_nil

/-! ## Where the rounds lie

One behind the other, in the order of their headers.
-/

theorem turn_within {t : Turn} {ptr k : Nat} (ht : t ∈ turnsFrom m size alloc ptr k) :
    ptr ≤ t.hdr ∧ t.hdr + cpioHeaderSize ≤ size := by
  fun_induction turnsFrom m size alloc ptr k with
  | case1 ptr k hfits hmagic =>
    obtain rfl := List.mem_singleton.mp ht
    exact ⟨Nat.le_refl _, hfits⟩
  | case2 ptr k hfits hmagic htrailer =>
    obtain rfl := List.mem_singleton.mp ht
    exact ⟨Nat.le_refl _, hfits⟩
  | case3 ptr k hfits hmagic htrailer ih =>
    rcases List.mem_cons.mp ht with rfl | ht
    · exact ⟨Nat.le_refl _, hfits⟩
    · obtain ⟨hge, hend⟩ := ih ht
      have hdata := le_alignUp4 (ptr + cpioHeaderSize + cpioField m ptr 11)
      have hnext := le_alignUp4 (alignUp4 (ptr + cpioHeaderSize + cpioField m ptr 11) + cpioField m ptr 6)
      exact ⟨by omega, hend⟩
  | case4 ptr k hfits => exact absurd ht List.not_mem_nil

/-- The contents of a round end before the next header. -/
theorem turns_pairwise (ptr k : Nat) :
    (turnsFrom m size alloc ptr k).Pairwise fun t t' => t.data m + t.fileSize m ≤ t'.hdr := by
  fun_induction turnsFrom m size alloc ptr k with
  | case1 ptr k hfits hmagic => exact List.pairwise_singleton _ _
  | case2 ptr k hfits hmagic htrailer => exact List.pairwise_singleton _ _
  | case3 ptr k hfits hmagic htrailer ih =>
    refine List.pairwise_cons.mpr ⟨fun t' ht' => ?_, ih⟩
    have hge := (turn_within ht').1
    have hnext := le_alignUp4 (alignUp4 (ptr + cpioHeaderSize + cpioField m ptr 11) + cpioField m ptr 6)
    exact Nat.le_trans hnext hge
  | case4 ptr k hfits => exact List.Pairwise.nil

/-- So do those of the rounds that make an entry. -/
theorem made_pairwise : ((turns m size alloc).filter (·.outcome = .made)).Pairwise
    fun t t' => t.data m + t.fileSize m ≤ t'.hdr :=
  (turns_pairwise 0 0).filter _

/-- A member of such a list is the last one or before it. -/
theorem eq_or_rel_getLast {α : Type} {R : α → α → Prop} {l : List α} {x last : α} (hp : l.Pairwise R) (hx : x ∈ l)
    (hlast : l.getLast? = some last) : x = last ∨ R x last := by
  obtain ⟨front, rfl⟩ := List.getLast?_eq_some_iff.mp hlast
  rcases List.mem_append.mp hx with hx | hx
  · exact .inr ((List.pairwise_append.mp hp).2.2 x hx last (List.mem_singleton_self last))
  · exact .inl (List.mem_singleton.mp hx)

theorem exists_getLast {α : Type} {l : List α} {x : α} (hx : x ∈ l) : ∃ last, l.getLast? = some last :=
  ⟨_, List.getLast?_eq_some_getLast (List.ne_nil_of_mem hx)⟩

namespace Turn

variable {t : Turn}

theorem name_le_data : t.name ≤ t.data m := Nat.le_trans (Nat.le_add_right _ _) (le_alignUp4 _)

/-! ## How far the reads go

Comparing and copying a name stop at its zero.
-/

theorem strcmpLen_le_length {a : Nat} {lit : List UInt8} : strcmpLen m a lit ≤ lit.length + 1 := by
  induction lit generalizing a with
  | nil => exact Nat.le_refl _
  | cons c rest ih =>
    rw [strcmpLen, List.length_cons]
    split
    next =>
      have hrest := @ih (a + 1)
      omega
    next => omega

theorem strncpyLen_le_zero {a z : Nat} (hz : m z = 0) (ha : a ≤ z) (n : Nat) : a + strncpyLen m a n ≤ z + 1 := by
  induction n generalizing a with
  | zero =>
    rw [strncpyLen]
    omega
  | succ n ih =>
    rw [strncpyLen]
    split
    next => omega
    next hne =>
      have hlt : a ≠ z := by
        rintro rfl
        exact hne hz
      have hrest := @ih (a + 1) (by omega)
      omega

/-- What is read to clean and copy the name ends with its zero byte. -/
theorem copyReads_le {z a : Nat} (hz : m z = 0) (hname : t.name ≤ z) (ha : a ∈ t.copyReads m) : a ≤ z := by
  have hstop : ∀ x, m x ≠ 0 → x ≠ z := by
    rintro x hx rfl
    exact hx hz
  obtain ⟨clean, hclean, hle⟩ : ∃ clean,
      (if m t.name = 46 ∧ m (t.name + 1) = 47 then t.name + 2 else t.name) = clean ∧ clean ≤ z := by
    refine ⟨_, rfl, ?_⟩
    split
    next hskip =>
      have h0 := hstop t.name (by rw [hskip.1]; decide)
      have h1 := hstop (t.name + 1) (by rw [hskip.2]; decide)
      omega
    next => exact hname
  -- one more byte is looked at behind a dot
  have hdot : ∀ x, x ≤ z → x + (if m x = 46 then 2 else 1) ≤ z + 1 := by
    intro x hx
    split
    next heq =>
      have h0 := hstop x (by rw [heq]; decide)
      omega
    next => omega
  simp only [copyReads, hclean, List.mem_append, List.mem_range'_1] at ha
  rcases ha with (ha | ha) | ha
  · have := hdot t.name hname
    omega
  · have := hdot clean hle
    omega
  · split at ha
    next => omega
    next =>
      have := strncpyLen_le_zero hz hle (pathMax - 1)
      omega

end Turn

/-! ## The condition

From the last round to all of them.
-/

/-- Any round but one at the end compares its name inside the archive: the next header has room for more. -/
theorem LastComplete.compared (h : LastComplete m size alloc) {t : Turn} (ht : t ∈ turns m size alloc)
    (hmagic : t.outcome ≠ .badMagic) : t.name + strcmpLen m t.name cpioTrailer ≤ size := by
  obtain ⟨last, hlast⟩ := exists_getLast ht
  rcases eq_or_rel_getLast (turns_pairwise 0 0) ht hlast with rfl | hbefore
  · exact h.header t hlast hmagic
  · have hend := (turn_within (List.mem_of_getLast? hlast)).2
    have hlen : strcmpLen m t.name cpioTrailer ≤ 11 := Turn.strcmpLen_le_length
    have hname := t.name_le_data (m := m)
    unfold cpioHeaderSize at hend
    omega

/-- The zero byte behind the last name is one behind every name. -/
theorem LastComplete.zero (h : LastComplete m size alloc) {t : Turn} (ht : t ∈ turns m size alloc)
    (hmade : t.outcome = .made) : ∃ a, t.name ≤ a ∧ a < size ∧ m a = 0 := by
  have hmem : t ∈ (turns m size alloc).filter (·.outcome = .made) := List.mem_filter.mpr ⟨ht, by simpa using hmade⟩
  obtain ⟨last, hlast⟩ := exists_getLast hmem
  obtain ⟨a, hge, hlt, hzero⟩ := h.name last hlast
  rcases eq_or_rel_getLast made_pairwise hmem hlast with rfl | hbefore
  · exact ⟨a, hge, hlt, hzero⟩
  · refine ⟨a, ?_, hlt, hzero⟩
    have hname := t.name_le_data (m := m)
    have hlater : last.hdr ≤ last.name := Nat.le_add_right _ _
    omega

/-- The contents of an entry end before the next header, or are those of the last entry. -/
theorem LastComplete.inside (h : LastComplete m size alloc) {t : Turn} (ht : t ∈ turns m size alloc)
    (hmade : t.outcome = .made) : t.data m + t.fileSize m ≤ size := by
  have hmem : t ∈ (turns m size alloc).filter (·.outcome = .made) := List.mem_filter.mpr ⟨ht, by simpa using hmade⟩
  obtain ⟨last, hlast⟩ := exists_getLast hmem
  rcases eq_or_rel_getLast made_pairwise hmem hlast with rfl | hbefore
  · exact h.file t hlast
  · have hlater := (turn_within (List.mem_of_mem_filter (List.mem_of_getLast? hlast))).2
    unfold cpioHeaderSize at hlater
    omega

theorem vnReadRange_lt {d : InitrdEntry} (h : d.data + d.attr.size ≤ size) {len : Nat} {off : Int} {a : Nat}
    (ha : a ∈ vnReadRange d len off) : a < size := by
  rw [vnReadRange] at ha
  split at ha
  next => exact absurd ha List.not_mem_nil
  next =>
    split at ha
    next => exact absurd ha List.not_mem_nil
    next =>
      split at ha
      next => exact absurd ha List.not_mem_nil
      next hlt =>
        rw [List.mem_range'_1] at ha
        omega

theorem LastComplete.refersInside (h : LastComplete m size alloc) : RefersInside m size alloc := by
  have hcontents : ∀ d ∈ initrdInit m size alloc, d.data + d.attr.size ≤ size := by
    intro d hd
    obtain ⟨t, ht, hmade, i, rfl⟩ := exists_turn_of_mem hd
    exact h.inside ht hmade
  refine ⟨fun t ht a ha => ?_, fun t ht => h.zero ht, hcontents, fun d hd len off a => vnReadRange_lt (hcontents d hd)⟩
  have hhdr := (turn_within ht).2
  rw [Turn.reads, List.mem_append] at ha
  rcases ha with ha | ha
  · rw [List.mem_range'_1] at ha
    omega
  · cases ho : t.outcome with
    | badMagic =>
      rw [ho] at ha
      exact absurd ha List.not_mem_nil
    | trailer =>
      rw [ho] at ha
      have hcmp := h.compared ht (by rw [ho]; decide)
      have := List.mem_range'_1.mp ha
      omega
    | noMem =>
      rw [ho] at ha
      have hcmp := h.compared ht (by rw [ho]; decide)
      have := List.mem_range'_1.mp ha
      omega
    | made =>
      rw [ho] at ha
      rcases List.mem_append.mp ha with ha | ha
      · have hcmp := h.compared ht (by rw [ho]; decide)
        have := List.mem_range'_1.mp ha
        omega
      · obtain ⟨z, hge, hlt, hzero⟩ := h.zero ht ho
        have := Turn.copyReads_le hzero hge ha
        omega

/-- The last byte that `strcmp` reads is one that the round reads. -/
theorem RefersInside.compared (h : RefersInside m size alloc) {t : Turn} (ht : t ∈ turns m size alloc)
    (hmagic : t.outcome ≠ .badMagic) : t.name + strcmpLen m t.name cpioTrailer ≤ size := by
  have hpos : 0 < strcmpLen m t.name cpioTrailer := by
    rw [cpioTrailer, strcmpLen]
    split
    · omega
    · omega
  have hread : t.name + (strcmpLen m t.name cpioTrailer - 1) ∈ t.reads m := by
    have hrange : t.name + (strcmpLen m t.name cpioTrailer - 1) ∈
        List.range' t.name (strcmpLen m t.name cpioTrailer) := by
      rw [List.mem_range'_1]
      omega
    rw [Turn.reads, List.mem_append]
    right
    cases ho : t.outcome with
    | badMagic => exact absurd ho hmagic
    | trailer => exact hrange
    | noMem => exact hrange
    | made => exact List.mem_append_left _ hrange
  have hlt := h.reads t ht _ hread
  omega

/-- **The parser stays inside the archive exactly when its end is complete.** -/
theorem initrd_inside_iff (m : ByteMem) (size : Nat) (alloc : Nat → Bool) :
    RefersInside m size alloc ↔ LastComplete m size alloc := by
  constructor
  · intro h
    have hmade : ∀ t, ((turns m size alloc).filter (·.outcome = .made)).getLast? = some t →
        t ∈ turns m size alloc ∧ t.outcome = .made := by
      intro t hlast
      obtain ⟨ht, ho⟩ := List.mem_filter.mp (List.mem_of_getLast? hlast)
      exact ⟨ht, by simpa using ho⟩
    refine ⟨fun t hlast hmagic => ?_, fun t hlast => ?_, fun t hlast => ?_⟩
    · exact h.compared (List.mem_of_getLast? hlast) hmagic
    · obtain ⟨ht, ho⟩ := hmade t hlast
      exact h.names t ht ho
    · obtain ⟨ht, ho⟩ := hmade t hlast
      obtain ⟨d, hd, hdata, hsize⟩ := @exists_mem_of_turn _ _ _ _ _ _ 1 ht ho
      have hle := h.contents d hd
      rwa [hdata, hsize] at hle
  · exact LastComplete.refersInside

end

/-- An archive that ends right behind the name of its only entry, a file of three bytes. -/
def cutArchive : ByteMem := ByteMem.write (fun _ => 0x41) 0 (fileEntry.encode 0)

/-- Its header gives a name of four bytes with the zero and a file of three. -/
theorem cutArchive_header : cpioField cutArchive 0 11 = 4 ∧ cpioField cutArchive 0 6 = 3 := by decide +kernel

/-- **The entry has its contents behind the end**, and `initrd_vn_read` copies them from there. -/
theorem initrd_outside :
    ∃ d, initrdInit cutArchive 116 (fun _ => true) = [d] ∧ vnReadRange d 3 0 = [116, 117, 118] ∧
      ¬RefersInside cutArchive 116 fun _ => true := by
  obtain ⟨hname, hfile⟩ := cutArchive_header
  have hparse : initrdInit cutArchive 116 (fun _ => true) = [cpioEntryAt cutArchive 0 116 1] := by
    rw [initrdInit, parseFrom, dif_pos (by decide), if_neg (by decide +kernel), if_neg (by decide +kernel), hname, hfile,
      if_pos rfl, parseFrom, dif_neg (by decide)]
    rfl
  have hsize : (cpioEntryAt cutArchive 0 116 1).attr.size = 3 := hfile
  refine ⟨_, hparse, ?_, fun hinside => ?_⟩
  · rw [vnReadRange, hsize]
    decide +kernel
  · have hle := hinside.contents (cpioEntryAt cutArchive 0 116 1) (by rw [hparse]; exact List.mem_singleton_self _)
    rw [hsize] at hle
    exact absurd hle (by decide)

end MyUnix.Fs
