import MyUnix.Fs.Vfs
import MyUnix.Lib.Bytes
import Mathlib.Tactic.Ring

/-!
# `Fs.Cpio` — the archive format of `initrd`

`initrd_init` reads an archive in the `newc` format of cpio: headers of 110 characters with numbers in hexadecimal,
each followed by a name and by the contents, both padded to a multiple of four from the start of the archive. A
position here is an offset from `g_initrd.base`, and the memory is what lies from there on.

The second half says what an archive *is*: `encodeFrom` writes a list of entries down, with the freedom the format
leaves (the magic, the case of each digit, the fields that `initrd` has no use for), and `Decoded` relates an entry to
what `initrd_init` makes of it. Decoding what was encoded gives the entries back.

The parser trusts the archive. It is total here because memory is, and reads whatever stands at an offset;
`Fs.InitrdBounds` asks where these offsets lie. For the archives of the format, decoding gives back the entries in
their order, with names cleaned, whatever the unused fields say, and whether or not some entries find no memory.
-/

namespace MyUnix.Fs

open MyUnix.Lib

/-! ## The parser

The functions of `initrd.c` under their names.
-/

/-- `sizeof(cpio_newc_header_t)`. -/
def cpioHeaderSize : Nat := 110

/-- `CPIO_MAGIC`, `"070701"`. -/
def cpioMagic : List UInt8 := [48, 55, 48, 55, 48, 49]

/-- `CPIO_MAGIC_CRC`, `"070702"`. -/
def cpioMagicCrc : List UInt8 := [48, 55, 48, 55, 48, 50]

/-- `"TRAILER!!!"`. -/
def cpioTrailer : List UInt8 := [84, 82, 65, 73, 76, 69, 82, 33, 33, 33]

/-- `ALIGN_UP(x, 4)`. -/
def alignUp4 (x : Nat) : Nat := (x + 3) / 4 * 4

/-- The value of a hexadecimal digit, 0 for any other character. -/
def hexDigit (c : UInt8) : Nat :=
  if 48 ≤ c.toNat ∧ c.toNat ≤ 57 then c.toNat - 48
  else if 97 ≤ c.toNat ∧ c.toNat ≤ 102 then c.toNat - 97 + 10
  else if 65 ≤ c.toNat ∧ c.toNat ≤ 70 then c.toNat - 65 + 10
  else 0

/-- The loop of `cpio_parse_hex`, with `n` characters left. -/
def cpioParseHex (m : ByteMem) (s : Nat) : Nat → Nat → Nat
  | 0,     val => val
  | n + 1, val => cpioParseHex m (s + 1) n ((val <<< 4 ||| hexDigit (m s)) % 2 ^ 32)

/-- A field of the header at `hdr`, by its number; each has eight characters, after the six of the magic. -/
def cpioField (m : ByteMem) (hdr k : Nat) : Nat := cpioParseHex m (hdr + 6 + 8 * k) 8 0

/-- What `strncpy` copies: the string at `a`, but no more than `n` bytes of it. -/
def strncpy (m : ByteMem) (a : Nat) : Nat → List UInt8
  | 0     => []
  | n + 1 => if m a = 0 then [] else m a :: strncpy m (a + 1) n

/-- A byte of a name as a character. -/
def toChar (b : UInt8) : Char := Char.ofNat b.toNat

/-- The name of an entry: without a leading `./`, and empty for `.`. -/
def cleanNameAt (m : ByteMem) (name : Nat) : List UInt8 :=
  let clean := if m name = 46 ∧ m (name + 1) = 47 then name + 2 else name
  if m clean = 46 ∧ m (clean + 1) = 0 then [] else strncpy m clean (pathMax - 1)

/-- `S_ISDIR`. -/
def isDirMode (mode : Nat) : Bool := mode &&& 0o170000 = 0o40000

/-- The entry made from the header at `hdr`, whose contents are at `data`. -/
def cpioEntryAt (m : ByteMem) (hdr data ino : Nat) : InitrdEntry where
  name := (cleanNameAt m (hdr + cpioHeaderSize)).map toChar
  isDir := isDirMode (cpioField m hdr 1)
  attr := ⟨cpioField m hdr 1, cpioField m hdr 2, cpioField m hdr 3, cpioField m hdr 6, cpioField m hdr 4, ino⟩
  mtime := cpioField m hdr 5
  data := data

theorem le_alignUp4 (x : Nat) : x ≤ alignUp4 x := by
  unfold alignUp4
  omega

/-- The next header lies behind this one. -/
theorem sub_next_lt {ptr size : Nat} (h : ptr + cpioHeaderSize ≤ size) (n f : Nat) :
    size - alignUp4 (alignUp4 (ptr + cpioHeaderSize + n) + f) < size - ptr := by
  have hname := le_alignUp4 (ptr + cpioHeaderSize + n)
  have hdata := le_alignUp4 (alignUp4 (ptr + cpioHeaderSize + n) + f)
  unfold cpioHeaderSize at *
  omega

/-- The loop of `initrd_init`, at the header at `ptr`. `alloc k` is whether the `k`-th `kzalloc` succeeds; an entry
    for which there is no memory is left out. -/
def parseFrom (m : ByteMem) (size : Nat) (alloc : Nat → Bool) (ptr k ino : Nat) : List InitrdEntry :=
  if hfits : ptr + cpioHeaderSize ≤ size then
    if m.read ptr 6 ≠ cpioMagic ∧ m.read ptr 6 ≠ cpioMagicCrc then []
    else
      let name := ptr + cpioHeaderSize
      let data := alignUp4 (name + cpioField m ptr 11)
      if m.read name 11 = cpioTrailer ++ [0] then []
      else
        let next := alignUp4 (data + cpioField m ptr 6)
        -- an entry without memory is left out, and takes no inode number
        if alloc k then cpioEntryAt m ptr data ino :: parseFrom m size alloc next (k + 1) ((ino + 1) % 2 ^ 32)
        else parseFrom m size alloc next (k + 1) ino
  else []
termination_by size - ptr
decreasing_by all_goals exact sub_next_lt hfits _ _

/-- The entries that `initrd_init` puts on the list. -/
def initrdInit (m : ByteMem) (size : Nat) (alloc : Nat → Bool) : List InitrdEntry := parseFrom m size alloc 0 0 1

/-! ## The format

What an archive is, as a list of entries written down one behind the other.
-/

/-- An entry of an archive. `upper i` is whether the digit `i` of its header is written as a capital letter. -/
structure CpioEntry where
  name      : List UInt8
  crc       : Bool
  ino       : Nat
  mode      : Nat
  uid       : Nat
  gid       : Nat
  nlink     : Nat
  mtime     : Nat
  devmajor  : Nat
  devminor  : Nat
  rdevmajor : Nat
  rdevminor : Nat
  check     : Nat
  data      : List UInt8
  upper     : Nat → Bool

/-- A hexadecimal digit, in capitals or not. -/
def hexChar (upper : Bool) (d : Nat) : UInt8 :=
  UInt8.ofNat (if d < 10 then 48 + d else if upper then 65 + (d - 10) else 97 + (d - 10))

/-- The `n` low digits of `v`, from the digit `pos` of the header on. -/
def hexDigits (upper : Nat → Bool) (pos : Nat) : Nat → Nat → List UInt8
  | 0,     _ => []
  | n + 1, v => hexChar (upper pos) (v / 16 ^ n % 16) :: hexDigits upper (pos + 1) n v

/-- The fields of a header, each as eight digits; `upper` says of each digit how it is written. -/
def hexFields (upper : Nat → Bool) (pos : Nat) : List Nat → List UInt8
  | []      => []
  | v :: vs => hexDigits upper pos 8 v ++ hexFields upper (pos + 8) vs

/-- Zeroes up to the next multiple of four. -/
def padding (pos : Nat) : List UInt8 := List.replicate (alignUp4 pos - pos) 0

namespace CpioEntry

variable (e : CpioEntry)

/-- The numbers of the header, in order. -/
def fields : List Nat :=
  [e.ino, e.mode, e.uid, e.gid, e.nlink, e.mtime, e.data.length, e.devmajor, e.devminor, e.rdevmajor, e.rdevminor,
    e.name.length + 1, e.check]

/-- The header of an entry: the magic number and the thirteen fields. -/
def header : List UInt8 := (if e.crc then cpioMagicCrc else cpioMagic) ++ hexFields e.upper 0 e.fields

/-- The header and the name, which a zero ends. -/
def named : List UInt8 := e.header ++ (e.name ++ [0])

/-- The entry as it is written at the position `off` of the archive. -/
def encode (off : Nat) : List UInt8 :=
  let contents := e.named ++ padding (off + e.named.length) ++ e.data
  contents ++ padding (off + contents.length)

/-- What the format can hold. -/
structure Valid : Prop where
  name_le   : e.name.length ≤ 4095
  name_ne   : ∀ b ∈ e.name, b ≠ 0
  fields_lt : ∀ v ∈ e.fields, v < 2 ^ 32

end CpioEntry

/-- The entries one after the other, from the position `off` on. -/
def encodeFrom (off : Nat) : List CpioEntry → List UInt8
  | []      => []
  | e :: es => e.encode off ++ encodeFrom (off + (e.encode off).length) es

/-- An archive: the entries and the one that ends it. -/
def archive (es : List CpioEntry) (trailer : CpioEntry) : List UInt8 := encodeFrom 0 (es ++ [trailer])

/-- A leading `./` is dropped, and `.` stands for the empty name. -/
def cleanName (bs : List UInt8) : List UInt8 :=
  let bs := if [46, 47] <+: bs then bs.drop 2 else bs
  if bs = [46] then [] else bs

/-- **What an entry is decoded to**, as the file with the inode number `ino`. -/
structure Decoded (m : ByteMem) (ino : Nat) (e : CpioEntry) (d : InitrdEntry) : Prop where
  name  : d.name = (cleanName e.name).map toChar
  isDir : d.isDir = isDirMode e.mode
  attr  : d.attr = ⟨e.mode, e.uid, e.gid, e.data.length, e.nlink, ino⟩
  mtime : d.mtime = e.mtime
  data  : m.read d.data d.attr.size = e.data

/-! ## Numbers

Eight hexadecimal digits in either case are read back.
-/

section
variable {m : ByteMem} {a n v val : Nat} {upper : Nat → Bool} {pos : Nat}

theorem hexDigit_hexChar (up : Bool) : ∀ d < 16, hexDigit (hexChar up d) = d := by
  cases up with
  | false => decide
  | true => decide

@[simp] theorem length_hexDigits : (hexDigits upper pos n v).length = n := by
  induction n generalizing pos with
  | zero => rfl
  | succ n ih => simp [hexDigits, ih]

@[simp] theorem length_hexFields (vs : List Nat) : (hexFields upper pos vs).length = 8 * vs.length := by
  induction vs generalizing pos with
  | nil => rfl
  | cons v vs ih =>
      simp only [hexFields, List.length_append, length_hexDigits, ih, List.length_cons]
      omega

/-- Reading the digits of `v` adds its low part to what was read before. -/
theorem cpioParseHex_hexDigits (h : m.Holds a (hexDigits upper pos n v)) (hval : val < 2 ^ 32) :
    cpioParseHex m a n val = (val * 16 ^ n + v % 16 ^ n) % 2 ^ 32 := by
  induction n generalizing a pos val with
  | zero =>
      rw [Nat.pow_zero, Nat.mul_one, Nat.mod_one, Nat.add_zero, Nat.mod_eq_of_lt hval]
      rfl
  | succ n ih =>
      obtain ⟨hfirst, hrest⟩ := ByteMem.holds_cons.mp h
      have hd : v / 16 ^ n % 16 < 2 ^ 4 := Nat.mod_lt _ (by decide)
      rw [cpioParseHex, ih hrest (Nat.mod_lt _ (by decide)), hfirst, hexDigit_hexChar _ _ hd,
        ← Nat.shiftLeft_add_eq_or_of_lt hd, Nat.shiftLeft_eq]
      have hlow : v % 16 ^ (n + 1) = v % 16 ^ n + 16 ^ n * (v / 16 ^ n % 16) := by
        rw [Nat.pow_succ, Nat.mod_mul]
      have hsum : val * 16 ^ (n + 1) + v % 16 ^ (n + 1) =
          (val * 2 ^ 4 + v / 16 ^ n % 16) * 16 ^ n + v % 16 ^ n := by
        rw [hlow, Nat.pow_succ]
        ring
      rw [hsum, Nat.add_mod, Nat.mod_mul_mod, ← Nat.add_mod]

/-- **A field reads back.** -/
theorem cpioParseHex_hexFields {vs : List Nat} {k : Nat} (h : m.Holds a (hexFields upper pos vs)) (hk : vs[k]? = some v)
    (hv : v < 2 ^ 32) : cpioParseHex m (a + 8 * k) 8 0 = v := by
  induction vs generalizing a pos k with
  | nil => cases hk
  | cons w vs ih =>
      obtain ⟨hfirst, hrest⟩ := ByteMem.holds_append.mp h
      cases k with
      | zero =>
          cases hk
          have hlow : v % 16 ^ 8 = v := Nat.mod_eq_of_lt hv
          rw [Nat.mul_zero, Nat.add_zero, cpioParseHex_hexDigits hfirst (by decide), Nat.zero_mul, Nat.zero_add,
            hlow, Nat.mod_eq_of_lt hv]
      | succ k =>
          rw [length_hexDigits] at hrest
          have hat : a + 8 * (k + 1) = a + 8 + 8 * k := by omega
          rw [hat]
          exact ih hrest hk

end

/-! ## Names

A name ends at its zero, and `./` in front of it is dropped.
-/

section
variable {m : ByteMem} {a n : Nat} {bs lit : List UInt8}

theorem strncpy_holds (h : m.Holds a (bs ++ [0])) (hne : ∀ b ∈ bs, b ≠ 0) (hn : bs.length ≤ n) :
    strncpy m a n = bs := by
  induction bs generalizing a n with
  | nil =>
      have hzero : m a = 0 := (ByteMem.holds_cons.mp h).1
      cases n with
      | zero => rfl
      | succ n => rw [strncpy, if_pos hzero]
  | cons b bs ih =>
      obtain ⟨hfirst, hrest⟩ := ByteMem.holds_cons.mp h
      cases n with
      | zero => cases hn
      | succ n =>
          rw [strncpy, hfirst, if_neg (hne b List.mem_cons_self),
            ih hrest (fun c hc => hne c (List.mem_cons_of_mem _ hc)) (Nat.le_of_succ_le_succ hn)]

/-- Comparing with a literal, as `strcmp` does. -/
theorem read_eq_iff (h : m.Holds a (bs ++ [0])) (hbs : ∀ b ∈ bs, b ≠ 0) (hlit : ∀ b ∈ lit, b ≠ 0) :
    m.read a (lit.length + 1) = lit ++ [0] ↔ bs = lit := by
  constructor
  · intro hread
    have hholds : m.Holds a (lit ++ [0]) := by
      rw [ByteMem.Holds, List.length_append, List.length_singleton]
      exact hread
    calc bs = strncpy m a (max bs.length lit.length) := (strncpy_holds h hbs (Nat.le_max_left _ _)).symm
      _ = lit := strncpy_holds hholds hlit (Nat.le_max_right _ _)
  · rintro rfl
    have hread : m.read a (bs ++ [0]).length = bs ++ [0] := h
    rwa [List.length_append, List.length_singleton] at hread

theorem dot_iff (h : m.Holds a (bs ++ [0])) (hne : ∀ b ∈ bs, b ≠ 0) : m a = 46 ∧ m (a + 1) = 0 ↔ bs = [46] := by
  have hlit : ∀ b ∈ ([46] : List UInt8), b ≠ 0 := by simp
  rw [← read_eq_iff h hne hlit]
  simp [ByteMem.read, List.range_succ]

theorem dotSlash_iff (h : m.Holds a (bs ++ [0])) : m a = 46 ∧ m (a + 1) = 47 ↔ [46, 47] <+: bs := by
  match bs with
  | [] =>
      have hzero : m a = 0 := (ByteMem.holds_cons.mp h).1
      simp [hzero]
  | [b] =>
      have hzero : m (a + 1) = 0 := (ByteMem.holds_cons.mp (ByteMem.holds_cons.mp h).2).1
      simp [hzero]
  | b :: c :: bs =>
      obtain ⟨hb, hrest⟩ := ByteMem.holds_cons.mp h
      have hc := (ByteMem.holds_cons.mp hrest).1
      rw [hb, hc]
      simp [eq_comm]

theorem cleanNameAt_holds (h : m.Holds a (bs ++ [0])) (hne : ∀ b ∈ bs, b ≠ 0) (hlen : bs.length ≤ 4095) :
    cleanNameAt m a = cleanName bs := by
  unfold cleanNameAt cleanName
  simp only [dotSlash_iff h]
  by_cases hpre : [46, 47] <+: bs
  · simp only [if_pos hpre]
    obtain ⟨rest, rfl⟩ := hpre
    obtain ⟨-, hrest⟩ := ByteMem.holds_cons.mp h
    obtain ⟨-, hrest⟩ := ByteMem.holds_cons.mp hrest
    have hrest : m.Holds (a + 2) (rest ++ [0]) := hrest
    have hne' : ∀ b ∈ rest, b ≠ 0 := fun b hb => hne b (by simp [hb])
    simp only [List.length_append] at hlen
    rw [strncpy_holds hrest hne' (by simp only [pathMax]; omega)]
    simp only [dot_iff hrest hne', List.cons_append, List.nil_append, List.drop_succ_cons, List.drop_zero]
  · simp only [if_neg hpre, dot_iff h hne]
    rw [strncpy_holds h hne (by simp only [pathMax]; omega)]

end

/-! ## One entry

Where the parts of an entry lie, from the position of its header on.
-/

theorem add_padding (pos : Nat) : pos + (padding pos).length = alignUp4 pos := by
  have hle := le_alignUp4 pos
  rw [padding, List.length_replicate]
  omega

namespace CpioEntry

variable {e : CpioEntry} {m : ByteMem} {off size k ino : Nat} {alloc : Nat → Bool}

@[simp] theorem length_header : e.header.length = cpioHeaderSize := by
  cases hc : e.crc with
  | false => simp [header, hc, cpioMagic, fields, cpioHeaderSize]
  | true => simp [header, hc, cpioMagicCrc, fields, cpioHeaderSize]

theorem length_named : e.named.length = cpioHeaderSize + (e.name.length + 1) := by
  rw [named, List.length_append, length_header, List.length_append, List.length_singleton]

/-- Where the contents begin. -/
def dataPos (e : CpioEntry) (off : Nat) : Nat := alignUp4 (off + cpioHeaderSize + (e.name.length + 1))

theorem add_length_padded : off + (e.named ++ padding (off + e.named.length)).length = e.dataPos off := by
  rw [List.length_append, ← Nat.add_assoc, add_padding, length_named, dataPos, Nat.add_assoc]

/-- Where the next entry begins. -/
theorem add_length_encode : off + (e.encode off).length = alignUp4 (e.dataPos off + e.data.length) := by
  rw [encode, List.length_append, ← Nat.add_assoc, add_padding, List.length_append, ← Nat.add_assoc,
    add_length_padded]

/-- The parts of an entry, where the parser looks for them. -/
theorem holds_encode (h : m.Holds off (e.encode off)) :
    m.Holds off e.header ∧ m.Holds (off + cpioHeaderSize) (e.name ++ [0]) ∧ m.Holds (e.dataPos off) e.data := by
  obtain ⟨hcontents, -⟩ := ByteMem.holds_append.mp h
  obtain ⟨hpadded, hdata⟩ := ByteMem.holds_append.mp hcontents
  obtain ⟨hnamed, -⟩ := ByteMem.holds_append.mp hpadded
  obtain ⟨hheader, hname⟩ := ByteMem.holds_append.mp hnamed
  rw [length_header] at hname
  rw [add_length_padded] at hdata
  exact ⟨hheader, hname, hdata⟩

theorem read_magic (h : m.Holds off e.header) : m.read off 6 = cpioMagic ∨ m.read off 6 = cpioMagicCrc := by
  obtain ⟨hmagic, -⟩ := ByteMem.holds_append.mp h
  cases hc : e.crc with
  | false =>
      rw [hc] at hmagic
      exact Or.inl hmagic
  | true =>
      rw [hc] at hmagic
      exact Or.inr hmagic

theorem cpioField_eq (h : m.Holds off e.header) (he : e.Valid) {v : Nat} (hk : e.fields[k]? = some v) :
    cpioField m off k = v := by
  obtain ⟨-, hfields⟩ := ByteMem.holds_append.mp h
  have hlen : (if e.crc then cpioMagicCrc else cpioMagic).length = 6 := by
    cases e.crc with
    | false => rfl
    | true => rfl
  rw [hlen] at hfields
  exact cpioParseHex_hexFields hfields hk (he.fields_lt v (List.mem_of_getElem? hk))

/-- **The parser reads one entry** and goes on behind it, with or without memory for the entry. -/
theorem parse_encode (he : e.Valid) (hname : e.name ≠ cpioTrailer) (h : m.Holds off (e.encode off))
    (hfits : off + (e.encode off).length ≤ size) (alloc : Nat → Bool) (k ino : Nat) :
    ∃ d, parseFrom m size alloc off k ino =
        (if alloc k then d :: parseFrom m size alloc (off + (e.encode off).length) (k + 1) ((ino + 1) % 2 ^ 32)
        else parseFrom m size alloc (off + (e.encode off).length) (k + 1) ino) ∧
      Decoded m ino e d := by
  obtain ⟨hheader, hnul, hdata⟩ := holds_encode h
  have hmode : cpioField m off 1 = e.mode := cpioField_eq hheader he rfl
  have huid : cpioField m off 2 = e.uid := cpioField_eq hheader he rfl
  have hgid : cpioField m off 3 = e.gid := cpioField_eq hheader he rfl
  have hnlink : cpioField m off 4 = e.nlink := cpioField_eq hheader he rfl
  have hmtime : cpioField m off 5 = e.mtime := cpioField_eq hheader he rfl
  have hfilesize : cpioField m off 6 = e.data.length := cpioField_eq hheader he rfl
  have hnamesize : cpioField m off 11 = e.name.length + 1 := cpioField_eq hheader he rfl
  have hroom : off + cpioHeaderSize ≤ size := by
    have hle : cpioHeaderSize + (e.name.length + 1) ≤ (e.encode off).length := by
      rw [← length_named]
      simp only [encode, List.length_append]
      omega
    omega
  have hmagic : ¬(m.read off 6 ≠ cpioMagic ∧ m.read off 6 ≠ cpioMagicCrc) := by
    rintro ⟨hne, hneCrc⟩
    exact (read_magic hheader).elim hne hneCrc
  have hother : m.read (off + cpioHeaderSize) 11 ≠ cpioTrailer ++ [0] := by
    have hlit : ∀ b ∈ cpioTrailer, b ≠ 0 := by simp [cpioTrailer]
    exact fun heq => hname ((read_eq_iff hnul he.name_ne hlit).mp heq)
  refine ⟨cpioEntryAt m off (e.dataPos off) ino, ?_, ?_, ?_, ?_, ?_, ?_⟩
  · rw [parseFrom, dif_pos hroom, if_neg hmagic, if_neg hother, hnamesize, hfilesize, ← dataPos,
      ← add_length_encode]
  · rw [cpioEntryAt, cleanNameAt_holds hnul he.name_ne he.name_le]
  · rw [cpioEntryAt, hmode]
  · rw [cpioEntryAt, hmode, huid, hgid, hfilesize, hnlink]
  · rw [cpioEntryAt, hmtime]
  · show m.read (e.dataPos off) (cpioField m off 6) = e.data
    rw [hfilesize]
    exact hdata

/-- **The trailer ends the list.** -/
theorem parse_trailer (hname : e.name = cpioTrailer) (h : m.Holds off (e.encode off)) :
    parseFrom m size alloc off k ino = [] := by
  obtain ⟨-, hnul, -⟩ := holds_encode h
  have hread : m.read (off + cpioHeaderSize) 11 = cpioTrailer ++ [0] := by
    rw [hname] at hnul
    exact hnul
  rw [parseFrom]
  split
  · split
    · rfl
    · rw [if_pos hread]
  · rfl

end CpioEntry

/-! ## The archive

The induction over the entries, up to the trailer.
-/

/-- **The whole archive**, from any entry on. -/
theorem parseFrom_encodeFrom {m : ByteMem} {size : Nat} {alloc : Nat → Bool} {trailer : CpioEntry}
    (halloc : ∀ k, alloc k = true) (htrailer : trailer.name = cpioTrailer) (es : List CpioEntry) (off k ino : Nat)
    (hes : ∀ e ∈ es, e.Valid ∧ e.name ≠ cpioTrailer) (h : m.Holds off (encodeFrom off (es ++ [trailer])))
    (hfits : off + (encodeFrom off (es ++ [trailer])).length ≤ size) (hino : ino + es.length ≤ 2 ^ 32) :
    (parseFrom m size alloc off k ino).length = es.length ∧
      ∀ (i : Nat) (e : CpioEntry), es[i]? = some e →
        ∃ d, (parseFrom m size alloc off k ino)[i]? = some d ∧ Decoded m (ino + i) e d := by
  induction es generalizing off k ino with
  | nil =>
      have hend : parseFrom m size alloc off k ino = [] :=
        CpioEntry.parse_trailer htrailer (ByteMem.holds_append.mp h).1
      rw [hend]
      exact ⟨rfl, fun i e he => by cases he⟩
  | cons e es ih =>
      rw [List.cons_append, encodeFrom] at h hfits
      obtain ⟨hfirst, hrest⟩ := ByteMem.holds_append.mp h
      rw [List.length_append] at hfits
      rw [List.length_cons] at hino
      obtain ⟨hvalid, hname⟩ := hes e List.mem_cons_self
      obtain ⟨d, hparse, hd⟩ :=
        CpioEntry.parse_encode hvalid hname hfirst (Nat.le_trans (by omega) hfits) alloc k ino
      rw [hparse, if_pos (halloc k)]
      -- the counter is back at zero only after the last of 2 ^ 32 - 1 entries
      have hnext : es ≠ [] → (ino + 1) % 2 ^ 32 = ino + 1 := by
        intro hne
        have hpos := List.length_pos_iff.mpr hne
        exact Nat.mod_eq_of_lt (by omega)
      have hino' : (ino + 1) % 2 ^ 32 + es.length ≤ 2 ^ 32 := by
        by_cases hlast : es = []
        · subst hlast
          exact Nat.le_of_lt (Nat.mod_lt (ino + 1) (Nat.two_pow_pos 32))
        · rw [hnext hlast]
          omega
      obtain ⟨hlen, hall⟩ := ih (off + (e.encode off).length) (k + 1) _
        (fun x hx => hes x (List.mem_cons_of_mem _ hx)) hrest (by omega) hino'
      refine ⟨by rw [List.length_cons, List.length_cons, hlen], fun i x hx => ?_⟩
      cases i with
      | zero =>
          cases hx
          exact ⟨d, rfl, hd⟩
      | succ i =>
          rw [List.getElem?_cons_succ] at hx ⊢
          obtain ⟨y, hy, hyd⟩ := hall i x hx
          refine ⟨y, hy, ?_⟩
          rw [hnext (List.ne_nil_of_mem (List.mem_of_getElem? hx))] at hyd
          rwa [Nat.add_right_comm, Nat.add_assoc] at hyd

/-- **`initrd_init` decodes the format exactly.** The entries come out in the order of the archive, each with its name
    cleaned, its attributes and its contents, and with the inode numbers 1, 2, 3, … -/
theorem initrd_decodes (m : ByteMem) (size : Nat) (alloc : Nat → Bool) (es : List CpioEntry) (trailer : CpioEntry)
    (halloc : ∀ k, alloc k = true) (hes : ∀ e ∈ es, e.Valid ∧ e.name ≠ cpioTrailer)
    (htrailer : trailer.name = cpioTrailer) (hcount : es.length < 2 ^ 32) (h : m.Holds 0 (archive es trailer))
    (hsize : (archive es trailer).length ≤ size) :
    (initrdInit m size alloc).length = es.length ∧
      ∀ (i : Nat) (e : CpioEntry), es[i]? = some e →
        ∃ d, (initrdInit m size alloc)[i]? = some d ∧ Decoded m (i + 1) e d := by
  have hfits : 0 + (encodeFrom 0 (es ++ [trailer])).length ≤ size := by
    rw [Nat.zero_add]
    exact hsize
  obtain ⟨hlen, hall⟩ := parseFrom_encodeFrom halloc htrailer es 0 0 1 hes h hfits (by omega)
  refine ⟨hlen, fun i e he => ?_⟩
  obtain ⟨d, hd, hdec⟩ := hall i e he
  refine ⟨d, hd, ?_⟩
  rwa [Nat.add_comm] at hdec

/-- The entry of a directory `./bin`, as cpio writes it. -/
def binEntry : CpioEntry where
  name := [46, 47, 98, 105, 110]
  crc := false
  ino := 0x2b
  mode := 0o40755
  uid := 0
  gid := 0
  nlink := 2
  mtime := 0x5f000000
  devmajor := 8
  devminor := 1
  rdevmajor := 0
  rdevminor := 0
  check := 0
  data := []
  upper := fun i => i % 2 = 0

/-- The entry of a file `./x` with three bytes. -/
def fileEntry : CpioEntry :=
  { binEntry with name := [46, 47, 120], crc := true, mode := 0o100644, nlink := 1, data := [104, 105, 10] }

/-- The entry that ends an archive. -/
def trailerEntry : CpioEntry := { binEntry with name := cpioTrailer, mode := 0, nlink := 1 }

/-- An archive of the two is decoded to `bin` and `x`, with the inode numbers 1 and 2. -/
theorem initrd_decodes_two :
    ∃ d₁ d₂ : InitrdEntry,
      initrdInit (ByteMem.write (fun _ => 0) 0 (archive [binEntry, fileEntry] trailerEntry)) 1024 (fun _ => true) =
        [d₁, d₂] ∧
      d₁.name = ['b', 'i', 'n'] ∧ d₁.isDir = true ∧ d₁.attr.ino = 1 ∧
      d₂.name = ['x'] ∧ d₂.isDir = false ∧ d₂.attr = ⟨0o100644, 0, 0, 3, 1, 2⟩ := by
  have hbin : binEntry.Valid := ⟨by decide, by simp [binEntry], by decide⟩
  have hfile : fileEntry.Valid := ⟨by decide, by simp [fileEntry], by decide⟩
  obtain ⟨hlen, hall⟩ := initrd_decodes (ByteMem.write (fun _ => 0) 0 (archive [binEntry, fileEntry] trailerEntry)) 1024
    (fun _ => true) [binEntry, fileEntry] trailerEntry (fun _ => rfl)
    (by simp only [List.forall_mem_cons]; exact ⟨⟨hbin, by decide⟩, ⟨hfile, by decide⟩, by simp⟩) rfl (by decide)
    (ByteMem.read_write _) (by decide +kernel)
  obtain ⟨d₁, h₁, hd₁⟩ := hall 0 binEntry rfl
  obtain ⟨d₂, h₂, hd₂⟩ := hall 1 fileEntry rfl
  refine ⟨d₁, d₂, ?_, hd₁.name, hd₁.isDir, by rw [hd₁.attr], hd₂.name, hd₂.isDir, hd₂.attr⟩
  obtain ⟨x, y, hxy⟩ := List.length_eq_two.mp hlen
  rw [hxy] at h₁ h₂ ⊢
  cases h₁
  cases h₂
  rfl

end MyUnix.Fs
