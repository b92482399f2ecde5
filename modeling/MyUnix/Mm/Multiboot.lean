import MyUnix.Lib.Bytes
import MyUnix.Mm.Pmm

/-!
# `Mm.Multiboot` — the tags of the boot loader

The boot loader leaves a block of tags in memory: type and size in four bytes each, the body, and padding up to a multiple
of eight. `multiboot2.h` walks along them by these sizes. `encode` writes such a block; whatever tags it has, the walk
finds the first one of a type, and what `pmm_init_from_multiboot` and `kernel_entry` read there is what was written: the
memory map with its entries of any size, and the module with its bounds. That is where the lists of tags come from that
`BootInfo` has.

The format is a small binary format with a parser, and the result is a round trip: the encoder writes any list of tags
and the parser of the kernel reads what was written. The encoder is a specification of the boot loader; the parser is
the code of `multiboot2.h`, with the 32-bit arithmetic of the sizes.

Fuel is a bound on the number of tags. The walk along a block that was written ends after as many rounds as there are
tags; along memory that is no such block it may not end at all, which is what a size does that rounds up to 0
(`mb2FindFrom_stuck`).
-/

namespace MyUnix.Mm

open Lib

/-- `MB2_TAG_END`. -/
def mb2TagEnd : Nat := 0

/-- `MB2_TAG_MODULE`. -/
def mb2TagModule : Nat := 3

/-- `MB2_TAG_MMAP`. -/
def mb2TagMmap : Nat := 6

/-- A 32-bit field. -/
def field32 (m : ByteMem) (a : Nat) : Nat := ofLe (m.read a 4)

/-- A 64-bit field. -/
def field64 (m : ByteMem) (a : Nat) : Nat := ofLe (m.read a 8)

/-! ## The walk

The functions of the header. The entries of the memory map are found with the entry size that the tag itself names, so
a boot loader may make them larger than the structure the kernel knows.
-/

/-- `mb2_first_tag`. -/
def mb2FirstTag (mbi : Nat) : Nat := mbi + 8

/-- `ALIGN_UP(tag->size, 8)` is a number of 32 bits. -/
def mb2NextTag (m : ByteMem) (tag : Nat) : Nat := (tag + (field32 m (tag + 4) + 7) % 2 ^ 32 / 8 * 8) % 2 ^ 64

/-- The loop of `mb2_find_tag`: out of fuel, `NULL`, or the address of the tag. -/
def mb2FindFrom (m : ByteMem) (type : Nat) : Nat → Nat → Option (Option Nat)
  | 0, _ => none
  | fuel + 1, tag =>
    if field32 m tag = mb2TagEnd then some none
    else if field32 m tag = type then some (some tag)
    else mb2FindFrom m type fuel (mb2NextTag m tag)

/-- `mb2_find_tag`, in as many rounds as there is fuel. -/
def mb2FindTag (m : ByteMem) (fuel mbi type : Nat) : Option (Option Nat) := mb2FindFrom m type fuel (mb2FirstTag mbi)

/-- `struct mb2_mmap_entry`. -/
def mmapEntryAt (m : ByteMem) (a : Nat) : MmapEntry := ⟨field64 m a, field64 m (a + 8), field32 m (a + 16)⟩

/-- The entries that the loop of `pmm_init_from_multiboot` looks at. -/
def mmapLoop (m : ByteMem) (entrySize : Nat) : Nat → Nat → List MmapEntry
  | 0, _ => []
  | n + 1, entry => mmapEntryAt m entry :: mmapLoop m entrySize n (entry + entrySize)

/-- The entries of the memory-map tag at `tag`; `none` is the division by zero. -/
def mmapTagEntries (m : ByteMem) (tag : Nat) : Option (List MmapEntry) :=
  let entrySize := field32 m (tag + 8)
  if entrySize = 0 then none
  else some (mmapLoop m entrySize ((field32 m (tag + 4) + 2 ^ 64 - 16) % 2 ^ 64 / entrySize) (tag + 16))

/-- The memory map that the boot information has. -/
def bootMmap (m : ByteMem) (fuel mbi : Nat) : Option (Option (List MmapEntry)) := do
  match ← mb2FindTag m fuel mbi mb2TagMmap with
  | none => pure none
  | some tag =>
    let entries ← mmapTagEntries m tag
    pure (some entries)

/-- `mod_start` and `mod_end` of the first module. -/
def bootModule (m : ByteMem) (fuel mbi : Nat) : Option (Option (Nat × Nat)) := do
  let tag ← mb2FindTag m fuel mbi mb2TagModule
  pure (tag.map fun tag => (field32 m (tag + 8), field32 m (tag + 12)))

/-! ## The format

A tag as the boot loader writes it. `Located` is the first tag of a type, defined on the list and read off in memory
at the same time; the walk is then an induction over it.
-/

/-- A tag as it is written. -/
structure RawTag where
  type : Nat
  body : List UInt8

namespace RawTag

variable (t : RawTag)

/-- The size in the header of the tag. -/
def size : Nat := 8 + t.body.length

/-- The tag in memory. -/
def bytes : List UInt8 := leBytes 4 t.type ++ (leBytes 4 t.size ++ t.body)

/-- The size with the padding. -/
def step : Nat := (t.size + 7) / 8 * 8

/-- The tag, filled up to the next one. -/
def padded : List UInt8 := t.bytes ++ List.replicate (t.step - t.size) 0

/-- Type and size fit, and the type is not that of the end. -/
def Ok : Prop := t.type ≠ mb2TagEnd ∧ t.type < 2 ^ 32 ∧ t.size + 7 < 2 ^ 32

theorem length_bytes : t.bytes.length = t.size := by
  unfold bytes size
  simp only [List.length_append, length_leBytes]
  omega

theorem length_padded : t.padded.length = t.step := by
  unfold padded
  rw [List.length_append, length_bytes, List.length_replicate]
  unfold step
  omega

end RawTag

/-- The tags one after another, and the tag of the end. -/
def encode : List RawTag → List UInt8
  | [] => leBytes 4 mb2TagEnd ++ leBytes 4 8
  | t :: ts => t.padded ++ encode ts

/-- The whole block. -/
def encodeBlock (ts : List RawTag) : List UInt8 := leBytes 4 (8 + (encode ts).length) ++ (leBytes 4 0 ++ encode ts)

theorem field32_of_holds {m : ByteMem} {a v : Nat} (h : m.Holds a (leBytes 4 v)) (hv : v < 2 ^ 32) : field32 m a = v := by
  rw [ByteMem.Holds, length_leBytes] at h
  rw [field32, h, ofLe_leBytes]
  exact Nat.mod_eq_of_lt hv

theorem field64_of_holds {m : ByteMem} {a v : Nat} (h : m.Holds a (leBytes 8 v)) (hv : v < 2 ^ 64) : field64 m a = v := by
  rw [ByteMem.Holds, length_leBytes] at h
  rw [field64, h, ofLe_leBytes]
  exact Nat.mod_eq_of_lt hv

/-- What stands at a tag. -/
theorem RawTag.holds {m : ByteMem} {a : Nat} {t : RawTag} (h : m.Holds a t.bytes) (hok : t.Ok) :
    field32 m a = t.type ∧ field32 m (a + 4) = t.size ∧ m.Holds (a + 8) t.body := by
  obtain ⟨htype, hrest⟩ := ByteMem.holds_append.mp h
  rw [length_leBytes] at hrest
  obtain ⟨hsize, hbody⟩ := ByteMem.holds_append.mp hrest
  rw [length_leBytes] at hbody
  obtain ⟨-, htlt, hslt⟩ := hok
  exact ⟨field32_of_holds htype htlt, field32_of_holds hsize (by omega), hbody⟩

/-- The first tag of a type, in the list and in memory. -/
inductive Located (m : ByteMem) (a type : Nat) (ts : List RawTag) : Option Nat → Prop where
  | absent : (∀ t ∈ ts, t.type ≠ type) → Located m a type ts none
  | found {tag pre t post} : ts = pre ++ t :: post → (∀ u ∈ pre, u.type ≠ type) → t.type = type →
      tag = pre.foldl (fun n t => n + t.step) a → m.Holds tag t.bytes → Located m a type ts (some tag)

/-- **The walk finds the first tag of a type.** -/
theorem mb2FindFrom_located {m : ByteMem} {type : Nat} : ∀ {ts : List RawTag} {a fuel : Nat}, m.Holds a (encode ts) →
    (∀ t ∈ ts, t.Ok) → a + (encode ts).length ≤ 2 ^ 64 → ts.length < fuel →
    ∃ r, mb2FindFrom m type fuel a = some r ∧ Located m a type ts r
  | [], a, fuel + 1, h, _, _, _ => by
    obtain ⟨hend, -⟩ := ByteMem.holds_append.mp h
    refine ⟨none, ?_, .absent fun t ht => absurd ht List.not_mem_nil⟩
    rw [mb2FindFrom, if_pos (field32_of_holds hend (by decide))]
  | t :: ts, a, fuel + 1, h, hok, hlen, hfuel => by
    obtain ⟨hpad, hrest⟩ := ByteMem.holds_append.mp h
    obtain ⟨hbytes, -⟩ := ByteMem.holds_append.mp hpad
    have htok := hok t List.mem_cons_self
    obtain ⟨htype, hsize, -⟩ := RawTag.holds hbytes htok
    rw [mb2FindFrom, htype, if_neg htok.1]
    by_cases heq : t.type = type
    · rw [if_pos heq]
      exact ⟨some a, rfl, @Located.found _ _ _ _ a [] t ts rfl (fun u hu => absurd hu List.not_mem_nil) heq rfl hbytes⟩
    · -- on to the next tag, whose address does not wrap around: the whole block fits
      rw [if_neg heq]
      rw [RawTag.length_padded] at hrest
      have hsum : (encode (t :: ts)).length = t.step + (encode ts).length := by
        rw [encode, List.length_append, RawTag.length_padded]
      have hpos : 0 < (encode ts).length := by
        cases ts with
        | nil => decide
        | cons u us =>
          rw [encode, List.length_append, RawTag.length_padded]
          unfold RawTag.step RawTag.size
          omega
      have hnext : mb2NextTag m a = a + t.step := by
        have h32 := htok.2.2
        rw [mb2NextTag, hsize, Nat.mod_eq_of_lt h32]
        exact Nat.mod_eq_of_lt (by unfold RawTag.step at *; omega)
      rw [hnext]
      obtain ⟨r, hr, hloc⟩ := @mb2FindFrom_located m type ts _ fuel hrest (fun u hu => hok u (List.mem_cons_of_mem t hu))
        (by omega) (Nat.lt_of_succ_lt_succ hfuel)
      refine ⟨r, hr, ?_⟩
      cases hloc with
      | absent hloc =>
        refine .absent fun u hu => ?_
        rcases List.mem_cons.mp hu with rfl | hu
        · exact heq
        · exact hloc u hu
      | @found tag pre u post hts hpre hu htag hholds =>
        subst hts htag
        refine @Located.found _ _ _ _ _ (t :: pre) u post rfl (fun v hv => ?_) hu ?_ hholds
        · rcases List.mem_cons.mp hv with rfl | hv
          · exact heq
          · exact hpre v hv
        · rfl

/-- More fuel changes no answer. -/
theorem mb2FindFrom_mono {m : ByteMem} {type : Nat} {r : Option Nat} : ∀ {fuel fuel' tag : Nat},
    mb2FindFrom m type fuel tag = some r → fuel ≤ fuel' → mb2FindFrom m type fuel' tag = some r
  | 0, _, _, h, _ => by cases h
  | fuel + 1, 0, _, _, hle => absurd hle (Nat.not_succ_le_zero fuel)
  | fuel + 1, fuel' + 1, tag, h, hle => by
    rw [mb2FindFrom] at h ⊢
    split
    next hend => rwa [if_pos hend] at h
    next hend =>
      rw [if_neg hend] at h
      split
      next htype => rwa [if_pos htype] at h
      next htype =>
        rw [if_neg htype] at h
        exact mb2FindFrom_mono h (Nat.le_of_succ_le_succ hle)

theorem bootMmap_mono {m : ByteMem} {fuel fuel' mbi : Nat} {r : Option (List MmapEntry)} (h : bootMmap m fuel mbi = some r)
    (hle : fuel ≤ fuel') : bootMmap m fuel' mbi = some r := by
  obtain ⟨tag, htag, hrest⟩ := Option.bind_eq_some_iff.mp h
  exact Option.bind_eq_some_iff.mpr ⟨tag, mb2FindFrom_mono htag hle, hrest⟩

theorem bootModule_mono {m : ByteMem} {fuel fuel' mbi : Nat} {r : Option (Nat × Nat)} (h : bootModule m fuel mbi = some r)
    (hle : fuel ≤ fuel') : bootModule m fuel' mbi = some r := by
  obtain ⟨tag, htag, hrest⟩ := Option.bind_eq_some_iff.mp h
  exact Option.bind_eq_some_iff.mpr ⟨tag, mb2FindFrom_mono htag hle, hrest⟩

/-- A tag whose size rounds up to nothing is never left. -/
theorem mb2FindFrom_stuck {m : ByteMem} {type tag : Nat} (htag : tag < 2 ^ 64) (hend : field32 m tag ≠ mb2TagEnd)
    (hne : field32 m tag ≠ type) (hsize : (field32 m (tag + 4) + 7) % 2 ^ 32 < 8) :
    ∀ fuel, mb2FindFrom m type fuel tag = none
  | 0 => rfl
  | fuel + 1 => by
    have hsame : mb2NextTag m tag = tag := by
      rw [mb2NextTag, Nat.div_eq_of_lt hsize, Nat.zero_mul, Nat.add_zero, Nat.mod_eq_of_lt htag]
    rw [mb2FindFrom, if_neg hend, if_neg hne, hsame]
    exact mb2FindFrom_stuck htag hend hne hsize fuel

/-! ## The tags that are read

Two kinds of tags have a meaning to the kernel; of all others only the size counts. What a tag says is a function of
the tag (`told`), and a question that only tags of one type answer may be asked in memory or in the list.
-/

/-- An entry of the memory map with what follows its type. -/
structure MmapRecord where
  entry : MmapEntry
  rest  : List UInt8

/-- An entry of the memory map in memory, with what follows its fields. -/
def MmapRecord.bytes (r : MmapRecord) : List UInt8 :=
  leBytes 8 r.entry.addr ++ (leBytes 8 r.entry.len ++ (leBytes 4 r.entry.type ++ r.rest))

/-- The fields fit, and the entry is as large as the tag says. -/
def MmapRecord.Ok (entrySize : Nat) (r : MmapRecord) : Prop :=
  r.entry.addr < 2 ^ 64 ∧ r.entry.len < 2 ^ 64 ∧ r.entry.type < 2 ^ 32 ∧ 20 + r.rest.length = entrySize

theorem MmapRecord.length_bytes {entrySize : Nat} {r : MmapRecord} (h : r.Ok entrySize) : r.bytes.length = entrySize := by
  obtain ⟨-, -, -, hlen⟩ := h
  unfold bytes
  simp only [List.length_append, length_leBytes]
  omega

theorem mmapEntryAt_eq {m : ByteMem} {a entrySize : Nat} {r : MmapRecord} (h : m.Holds a r.bytes) (hok : r.Ok entrySize) :
    mmapEntryAt m a = r.entry := by
  obtain ⟨haddr, hrest⟩ := ByteMem.holds_append.mp h
  rw [length_leBytes] at hrest
  obtain ⟨hlen, hrest⟩ := ByteMem.holds_append.mp hrest
  rw [length_leBytes] at hrest
  obtain ⟨htype, -⟩ := ByteMem.holds_append.mp hrest
  obtain ⟨h1, h2, h3, -⟩ := hok
  rw [mmapEntryAt, field64_of_holds haddr h1, field64_of_holds hlen h2, field32_of_holds htype h3]

theorem mmapLoop_eq {m : ByteMem} {entrySize : Nat} : ∀ {rs : List MmapRecord} {a : Nat},
    m.Holds a (rs.flatMap MmapRecord.bytes) → (∀ r ∈ rs, r.Ok entrySize) →
    mmapLoop m entrySize rs.length a = rs.map MmapRecord.entry
  | [], _, _, _ => rfl
  | r :: rs, a, h, hok => by
    obtain ⟨hr, hrs⟩ := ByteMem.holds_append.mp h
    have hrok := hok r List.mem_cons_self
    rw [MmapRecord.length_bytes hrok] at hrs
    rw [List.length_cons, mmapLoop, mmapEntryAt_eq hr hrok,
      mmapLoop_eq hrs fun x hx => hok x (List.mem_cons_of_mem r hx)]
    rfl

/-- The tags that the kernel reads, and the others. -/
inductive BootTag where
  | mmap (entrySize version : Nat) (records : List MmapRecord)
  | module (modStart modEnd : Nat) (cmdline : List UInt8)
  | other (type : Nat) (body : List UInt8)

namespace BootTag

/-- The tag with its body as bytes. -/
def raw : BootTag → RawTag
  | mmap entrySize version records =>
    ⟨mb2TagMmap, leBytes 4 entrySize ++ (leBytes 4 version ++ records.flatMap MmapRecord.bytes)⟩
  | module modStart modEnd cmdline => ⟨mb2TagModule, leBytes 4 modStart ++ (leBytes 4 modEnd ++ cmdline)⟩
  | other type body => ⟨type, body⟩

/-- What the tag tells the kernel. -/
def told : BootTag → Mb2Tag
  | mmap _ _ records => .mmap (records.map MmapRecord.entry)
  | module modStart modEnd _ => .module modStart modEnd
  | other type _ => .other type

/-- The numbers of the tag fit their fields. -/
def Ok (t : BootTag) : Prop :=
  t.raw.Ok ∧ match t with
    | mmap entrySize _ records => 0 < entrySize ∧ entrySize < 2 ^ 32 ∧ ∀ r ∈ records, r.Ok entrySize
    | module modStart modEnd _ => modStart < 2 ^ 32 ∧ modEnd < 2 ^ 32
    | other type _ => type ≠ mb2TagMmap ∧ type ≠ mb2TagModule

variable {m : ByteMem} {tag : Nat}

/-- **A memory map** is read as it was written, whatever the size of its entries. -/
theorem mmap_read {entrySize version : Nat} {records : List MmapRecord}
    (h : m.Holds tag (mmap entrySize version records).raw.bytes) (hok : (mmap entrySize version records).Ok) :
    mmapTagEntries m tag = some (records.map MmapRecord.entry) := by
  obtain ⟨hraw, hpos, hlt, hrec⟩ := hok
  obtain ⟨-, hsize, hbody⟩ := RawTag.holds h hraw
  obtain ⟨hes, hbody⟩ := ByteMem.holds_append.mp hbody
  rw [length_leBytes] at hbody
  obtain ⟨-, hbody⟩ := ByteMem.holds_append.mp hbody
  rw [length_leBytes, show tag + 8 + 4 + 4 = tag + 16 by omega] at hbody
  have hlen : (records.flatMap MmapRecord.bytes).length = records.length * entrySize := by
    rw [List.length_flatMap, List.map_congr_left fun r hr => MmapRecord.length_bytes (hrec r hr), List.map_const',
      List.sum_replicate_nat]
  have hcount : (field32 m (tag + 4) + 2 ^ 64 - 16) % 2 ^ 64 / entrySize = records.length := by
    have hwhole : (mmap entrySize version records).raw.size = 16 + records.length * entrySize := by
      show 8 + (leBytes 4 entrySize ++ (leBytes 4 version ++ records.flatMap MmapRecord.bytes)).length = _
      simp only [List.length_append, length_leBytes, hlen]
      omega
    have hsmall := hraw.2.2
    rw [hwhole] at hsize hsmall
    rw [hsize, show 16 + records.length * entrySize + 2 ^ 64 - 16 = records.length * entrySize + 2 ^ 64 by omega,
      Nat.add_mod_right, Nat.mod_eq_of_lt (by omega), Nat.mul_div_cancel _ hpos]
  rw [mmapTagEntries, field32_of_holds hes hlt, if_neg (by omega), hcount, mmapLoop_eq hbody hrec]

/-- **A module** is read as it was written. -/
theorem module_read {modStart modEnd : Nat} {cmdline : List UInt8}
    (h : m.Holds tag (module modStart modEnd cmdline).raw.bytes) (hok : (module modStart modEnd cmdline).Ok) :
    field32 m (tag + 8) = modStart ∧ field32 m (tag + 12) = modEnd := by
  obtain ⟨hraw, hs, he⟩ := hok
  obtain ⟨-, -, hbody⟩ := RawTag.holds h hraw
  obtain ⟨h1, hbody⟩ := ByteMem.holds_append.mp hbody
  rw [length_leBytes] at hbody
  obtain ⟨h2, -⟩ := ByteMem.holds_append.mp hbody
  exact ⟨field32_of_holds h1 hs, field32_of_holds h2 he⟩

/-- The types tell the tags apart. -/
theorem type_eq {t : BootTag} (h : t.Ok) :
    (t.raw.type = mb2TagMmap → ∃ entrySize version records, t = mmap entrySize version records) ∧
      (t.raw.type = mb2TagModule → ∃ modStart modEnd cmdline, t = module modStart modEnd cmdline) := by
  cases t with
  | mmap entrySize version records =>
    have hne : mb2TagMmap ≠ mb2TagModule := by decide
    exact ⟨fun _ => ⟨_, _, _, rfl⟩, fun hc => absurd hc hne⟩
  | module modStart modEnd cmdline =>
    have hne : mb2TagModule ≠ mb2TagMmap := by decide
    exact ⟨fun hc => absurd hc hne, fun _ => ⟨_, _, _, rfl⟩⟩
  | other type body => exact ⟨fun hc => absurd hc h.2.1, fun hc => absurd hc h.2.2⟩

end BootTag

/-- A question about the tags that only tags of one type answer, asked in memory and in the list. -/
theorem Located.told {α : Type} {f : Mb2Tag → Option α} {m : ByteMem} {a type : Nat} {ts : List BootTag} {r : Option Nat}
    (h : Located m a type (ts.map BootTag.raw) r) (hf : ∀ u : BootTag, u.raw.type ≠ type → f u.told = none) :
    (r = none → (ts.map BootTag.told).findSome? f = none) ∧
      ∀ tag, r = some tag → ∃ t ∈ ts, t.raw.type = type ∧ m.Holds tag t.raw.bytes ∧
        ∀ x, f t.told = some x → (ts.map BootTag.told).findSome? f = some x := by
  have hpass : ∀ us : List BootTag, (∀ u ∈ us, u.raw.type ≠ type) → (us.map BootTag.told).findSome? f = none := by
    intro us hus
    rw [List.findSome?_eq_none_iff]
    intro t ht
    obtain ⟨u, hu, rfl⟩ := List.mem_map.mp ht
    exact hf u (hus u hu)
  cases h with
  | absent h => exact ⟨fun _ => hpass ts fun u hu => h _ (List.mem_map_of_mem hu), fun _ htag => absurd htag (by simp)⟩
  | @found tag pre t post hts hpre ht _ hholds =>
    refine ⟨fun hnone => absurd hnone (by simp), fun tag' htag => ?_⟩
    obtain rfl := Option.some.inj htag
    obtain ⟨pre', rest, rfl, rfl, hrest⟩ := List.map_eq_append_iff.mp hts
    obtain ⟨t', post', rfl, rfl, -⟩ := List.map_eq_cons_iff.mp hrest
    refine ⟨t', List.mem_append_right _ List.mem_cons_self, ht, hholds, fun x hx => ?_⟩
    rw [List.map_append, List.findSome?_append, hpass pre' fun u hu => hpre _ (List.mem_map_of_mem hu), List.map_cons,
      List.findSome?_cons_of_isSome]
    · exact hx
    · rw [hx]
      rfl

/-- The memory map answers from tags of its type only. -/
theorem mmapEntries_eq (info : BootInfo) : ∃ f : Mb2Tag → Option (List MmapEntry), info.mmapEntries = info.tags.findSome? f ∧
    (∀ u : BootTag, u.raw.type ≠ mb2TagMmap → f u.told = none) ∧ ∀ entries, f (.mmap entries) = some entries := by
  refine ⟨_, rfl, fun u hu => ?_, fun _ => rfl⟩
  cases u with
  | mmap entrySize version records => exact absurd rfl hu
  | module modStart modEnd cmdline => rfl
  | other type body => rfl

/-- So does the module. -/
theorem firstModule_eq (info : BootInfo) : ∃ f : Mb2Tag → Option (Nat × Nat), info.firstModule = info.tags.findSome? f ∧
    (∀ u : BootTag, u.raw.type ≠ mb2TagModule → f u.told = none) ∧ ∀ s e, f (.module s e) = some (s, e) := by
  refine ⟨_, rfl, fun u hu => ?_, fun _ _ => rfl⟩
  cases u with
  | mmap entrySize version records => rfl
  | module modStart modEnd cmdline => exact absurd rfl hu
  | other type body => rfl

/-! ## The block

Total size, a reserved word, and the tags from the eighth byte on.
-/

section

variable {m : ByteMem} {mbi fuel : Nat} {ts : List BootTag}

theorem length_encodeBlock (ts : List RawTag) : (encodeBlock ts).length = 8 + (encode ts).length := by
  rw [encodeBlock]
  simp only [List.length_append, length_leBytes]
  omega

/-- The size of the block stands in front. -/
theorem totalSize_read {ts : List RawTag} (hblock : m.Holds mbi (encodeBlock ts)) (hlt : (encodeBlock ts).length < 2 ^ 32) :
    field32 m mbi = (encodeBlock ts).length := by
  obtain ⟨hsize, -⟩ := ByteMem.holds_append.mp hblock
  rw [length_encodeBlock] at hlt ⊢
  exact field32_of_holds hsize hlt

variable (hblock : m.Holds mbi (encodeBlock (ts.map BootTag.raw))) (hok : ∀ t ∈ ts, t.Ok)
  (hend : mbi + (encodeBlock (ts.map BootTag.raw)).length ≤ 2 ^ 64) (hfuel : ts.length < fuel)
include hblock hok hend hfuel

/-- The tags stand behind the total size and the reserved word. -/
theorem mb2FindTag_located (type : Nat) :
    ∃ r, mb2FindTag m fuel mbi type = some r ∧ Located m (mbi + 8) type (ts.map BootTag.raw) r := by
  obtain ⟨-, hrest⟩ := ByteMem.holds_append.mp hblock
  rw [length_leBytes] at hrest
  obtain ⟨-, htagsAt⟩ := ByteMem.holds_append.mp hrest
  rw [length_leBytes, Nat.add_assoc] at htagsAt
  have hraw : ∀ t ∈ ts.map BootTag.raw, t.Ok := by
    intro t ht
    obtain ⟨u, hu, rfl⟩ := List.mem_map.mp ht
    exact (hok u hu).1
  rw [length_encodeBlock] at hend
  have hfits : mbi + 8 + (encode (ts.map BootTag.raw)).length ≤ 2 ^ 64 := by omega
  exact mb2FindFrom_located htagsAt hraw hfits (by rwa [List.length_map])

variable {info : BootInfo} (htags : info.tags = ts.map BootTag.told)
include htags

theorem bootMmap_read : bootMmap m fuel mbi = some info.mmapEntries := by
  obtain ⟨r, hr, hloc⟩ := mb2FindTag_located hblock hok hend hfuel mb2TagMmap
  obtain ⟨f, hf, hothers, hmmap⟩ := mmapEntries_eq info
  rw [bootMmap, hr, hf, htags]
  obtain ⟨hnone, hsome⟩ := hloc.told hothers
  cases r with
  | none => exact congrArg some (hnone rfl).symm
  | some tag =>
    obtain ⟨t, ht, htype, hholds, hfound⟩ := hsome tag rfl
    obtain ⟨entrySize, version, records, rfl⟩ := (BootTag.type_eq (hok t ht)).1 htype
    have hread := BootTag.mmap_read hholds (hok _ ht)
    refine Eq.trans ?_ (congrArg some (hfound _ (hmmap _)).symm)
    simp only [Option.bind_eq_bind, Option.bind_some, hread]
    rfl

theorem bootModule_read : bootModule m fuel mbi = some info.firstModule := by
  obtain ⟨r, hr, hloc⟩ := mb2FindTag_located hblock hok hend hfuel mb2TagModule
  obtain ⟨f, hf, hothers, hmodule⟩ := firstModule_eq info
  rw [bootModule, hr, hf, htags]
  obtain ⟨hnone, hsome⟩ := hloc.told hothers
  cases r with
  | none => exact congrArg some (hnone rfl).symm
  | some tag =>
    obtain ⟨t, ht, htype, hholds, hfound⟩ := hsome tag rfl
    obtain ⟨modStart, modEnd, cmdline, rfl⟩ := (BootTag.type_eq (hok t ht)).2 htype
    obtain ⟨hs, he⟩ := BootTag.module_read hholds (hok _ ht)
    refine Eq.trans ?_ (congrArg some (hfound _ (hmodule _ _)).symm)
    simp only [Option.bind_eq_bind, Option.bind_some, Option.map_some, hs, he]
    rfl

end

/-- **What the boot loader wrote is what the kernel reads.** For every list of tags in memory, with entries of any size in
    the memory maps, command lines, and tags of other types in between: the walk ends, the memory map and the module that
    are found are the first ones, and their contents and the size of the block are those that were written. -/
theorem boot_block_read (m : ByteMem) (mbi fuel : Nat) (ts : List BootTag) (info : BootInfo)
    (hblock : m.Holds mbi (encodeBlock (ts.map BootTag.raw))) (hok : ∀ t ∈ ts, t.Ok)
    (hend : mbi + info.totalSize ≤ 2 ^ 64) (hfuel : ts.length < fuel) (htags : info.tags = ts.map BootTag.told)
    (htotal : info.totalSize = (encodeBlock (ts.map BootTag.raw)).length) :
    bootMmap m fuel mbi = some info.mmapEntries ∧ bootModule m fuel mbi = some info.firstModule ∧
      field32 m mbi = info.totalSize := by
  rw [htotal] at hend
  have htlt := info.total_lt
  rw [htotal] at htlt ⊢
  exact ⟨bootMmap_read hblock hok hend hfuel htags, bootModule_read hblock hok hend hfuel htags, totalSize_read hblock htlt⟩

/-- A command line, a memory map with entries of 32 bytes, and a module. -/
def someTags : List BootTag :=
  [.other 1 [113, 117, 105, 101, 116, 0],
    .mmap 32 0 [⟨⟨0x100000, 0x7f00000, 1⟩, List.replicate 12 0⟩, ⟨⟨0xfd000000, 0x3000000, 2⟩, List.replicate 12 0⟩],
    .module 0x200000 0x280000 [0]]

/-- A machine that says so much. -/
def someBoot : BootInfo where
  tags := someTags.map BootTag.told
  kernelStart := 0x100000
  kernelEnd := 0x180000
  mbiPhys := 0x300000
  totalSize := (encodeBlock (someTags.map BootTag.raw)).length
  kernel_le := by decide
  kernel_lt := by decide
  mbi_lt := by decide
  total_lt := by decide +kernel
  module_lt := by
    intro s e h
    simp only [someTags, List.map_cons, List.map_nil, BootTag.told, List.mem_cons, List.not_mem_nil, reduceCtorEq,
      Mb2Tag.module.injEq, or_false, false_or] at h
    omega

theorem someTags_ok : ∀ t ∈ someTags, t.Ok := by
  intro t ht
  simp only [someTags, List.mem_cons, List.not_mem_nil, or_false] at ht
  rcases ht with rfl | rfl | rfl
  · exact ⟨⟨by decide, by decide, by decide⟩, by decide, by decide⟩
  · refine ⟨⟨by decide, by decide, by decide⟩, by decide, by decide, fun r hr => ?_⟩
    simp only [List.mem_cons, List.not_mem_nil, or_false] at hr
    rcases hr with rfl | rfl
    · exact ⟨by decide, by decide, by decide, by decide⟩
    · exact ⟨by decide, by decide, by decide, by decide⟩
  · exact ⟨⟨by decide, by decide, by decide⟩, by decide, by decide⟩

theorem boot_block_read_some :
    bootMmap (ByteMem.write (fun _ => 0) 0x300000 (encodeBlock (someTags.map BootTag.raw))) 4 0x300000 =
      some (some [⟨0x100000, 0x7f00000, 1⟩, ⟨0xfd000000, 0x3000000, 2⟩]) := by
  exact (boot_block_read _ 0x300000 4 someTags someBoot (ByteMem.read_write _) someTags_ok (by decide +kernel) (by decide)
    rfl rfl).1

end MyUnix.Mm
