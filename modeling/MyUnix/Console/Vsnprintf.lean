import Mathlib.Data.Nat.Digits.Defs
import Mathlib.Logic.Function.Basic
import MyUnix.Arch.Machine

/-!
# `Console.Vsnprintf` — `vsnprintf` as written

The format is what is left of it, its terminating NUL included: `fmt++` drops the first character, and `*fmt` of a list
that has run empty is a read beyond the NUL, which ends the model's run (`overread`). The loop over the format makes one
`turn` for each round and is given a number of turns; `running` says that they did not suffice.

The buffer is a function on indices; `stored` notes the indices that have been stored to.

Arguments are slots of 64 bits, as the calling convention passes them; a conversion takes the low part that its length
names. Strings are found by their addresses.
-/

namespace MyUnix.Console

open Arch

/-- A string without its terminating NUL. -/
structure CString where
  chars   : List UInt8
  nonzero : 0 ∉ chars

/-- The variable arguments: the slots of `va_arg` in order, and the string at an address. -/
structure VaList where
  slot : Nat → Word
  str  : Word → CString

/-! ## The buffer

`PUT` stores when there is room for the character and a NUL behind it, and counts in any case.
-/

/-- `buf`, `pos`, and the indices that have been stored to, the last one first. -/
structure Out where
  buf    : Nat → UInt8
  pos    : Nat
  stored : List Nat

namespace Out

variable (size : Nat)

/-- `buf[pos++] = c`. -/
def append (o : Out) (c : UInt8) : Out := ⟨Function.update o.buf o.pos c, o.pos + 1, o.pos :: o.stored⟩

/-- `PUT(c)`, for a `c` without side effects. -/
def put (o : Out) (c : UInt8) : Out := if o.pos + 1 < size then o.append c else o

/-- `PUT` in a loop over the characters. -/
def puts (o : Out) (cs : List UInt8) : Out := cs.foldl (put size) o

/-- `if (size > 0) buf[pos] = 0`. -/
def terminate (o : Out) : Out :=
  if 0 < size then { o with buf := Function.update o.buf o.pos 0, stored := o.pos :: o.stored } else o

end Out

/-! ## What stands behind a `%`

Flags, width, length and the letter, each read by a loop or a test of its own.
-/

/-- `zero_pad` and `left_align`; nothing reads `plus` and `alt`. -/
structure Flags where
  zeroPad   : Bool
  leftAlign : Bool
  deriving DecidableEq

/-- The characters that the loop over the flags takes. -/
def isFlag (c : UInt8) : Bool := c = '0'.toUInt8 || c = '-'.toUInt8 || c = '+'.toUInt8 || c = '#'.toUInt8

/-- The loop over the flags. -/
def flags : Flags → List UInt8 → Option (Flags × List UInt8)
  | _, []     => none
  | f, c :: p =>
    if isFlag c then flags ⟨f.zeroPad || c = '0'.toUInt8, f.leftAlign || c = '-'.toUInt8⟩ p else some (f, c :: p)

/-- `width = width * 10 + (*fmt++ - '0')`, an `int`. -/
def width : BitVec 32 → List UInt8 → Option (BitVec 32 × List UInt8)
  | _, []     => none
  | w, c :: p =>
    if '0'.toUInt8 ≤ c ∧ c ≤ '9'.toUInt8 then width (w * 10 + BitVec.ofNat 32 (c - '0'.toUInt8).toNat) p
    else some (w, c :: p)

/-- None or one of `is_long`, `is_longlong` and `is_size`. -/
inductive Length
  | int
  | long
  | longlong
  | size
  deriving DecidableEq

/-- The length modifiers; `h` and `hh` are taken and change nothing. -/
def lengthOf : List UInt8 → Option (Length × List UInt8)
  | []     => none
  | c :: p =>
    if c = 'l'.toUInt8 then
      match p with
      | []     => none
      | d :: q => if d = 'l'.toUInt8 then some (.longlong, q) else some (.long, d :: q)
    else if c = 'z'.toUInt8 then some (.size, p)
    else if c = 'h'.toUInt8 then
      match p with
      | []     => none
      | d :: q => if d = 'h'.toUInt8 then some (.int, q) else some (.int, d :: q)
    else some (.int, c :: p)

/-- What stands between a `%` and the character that ends the conversion. -/
structure Conversion where
  flags  : Flags
  width  : BitVec 32
  length : Length
  spec   : UInt8

/-- The conversion that `fmt` points to behind its `%`, and `fmt` behind it. -/
def conversion (p : List UInt8) : Option (Conversion × List UInt8) := do
  let (flags, p) ← flags ⟨false, false⟩ p
  let (width, p) ← width 0 p
  let (length, p) ← lengthOf p
  match p with
  | []        => none
  | spec :: p => some (⟨flags, width, length, spec⟩, p)

/-! ## The values

The digits of a number are made backwards into `tmp`, with sign extension by the length.
-/

/-- The characters of a number in `tmp`, the lowest digit first. -/
def digits (base : Nat) (hex : Nat → UInt8) (val : Word) : List UInt8 :=
  if val = 0 then [hex 0] else (Nat.digits base val.toNat).map hex

/-- A decimal digit. -/
def decDigit (d : Nat) : UInt8 := '0'.toUInt8 + UInt8.ofNat d

/-- A digit of `%x` and `%p`. -/
def hexLower (d : Nat) : UInt8 := if d < 10 then decDigit d else 'a'.toUInt8 + UInt8.ofNat (d - 10)

/-- A digit of `%X`. -/
def hexUpper (d : Nat) : UInt8 := if d < 10 then decDigit d else 'A'.toUInt8 + UInt8.ofNat (d - 10)

/-- `(int64_t)__builtin_va_arg(args, …)`: an `int` is sign-extended. -/
def signedArg (l : Length) (w : Word) : Word := if l = .int then (w.setWidth 32).signExtend 64 else w

/-- `(uint64_t)__builtin_va_arg(args, …)`: an `unsigned int` is extended by zeroes. -/
def unsignedArg (l : Length) (w : Word) : Word := if l = .int then (w.setWidth 32).setWidth 64 else w

/-- The contents of `tmp` for `d` and `i`. -/
def signedTmp (val : Word) : List UInt8 :=
  let neg := val.toInt < 0
  let uval := if neg then -val else val
  (digits 10 decDigit uval ++ if neg then ['-'.toUInt8] else []).reverse

/-- The contents of `tmp` for `p`, filled up to 16 digits. -/
def pointerTmp (val : Word) : List UInt8 :=
  let tmp := digits 16 hexLower val
  (tmp ++ List.replicate (16 - tmp.length) '0'.toUInt8).reverse

/-- What is put for a null pointer. -/
def nullText : List UInt8 := "(null)".toList.map Char.toUInt8

/-- `s_val` with its `s_len` characters for the argument in slot `w`; none where the switch takes no argument. -/
def Conversion.sVal (a : VaList) (cv : Conversion) (w : Word) : Option (List UInt8) :=
  if cv.spec = 'd'.toUInt8 ∨ cv.spec = 'i'.toUInt8 then some (signedTmp (signedArg cv.length w))
  else if cv.spec = 'u'.toUInt8 then some (digits 10 decDigit (unsignedArg cv.length w)).reverse
  else if cv.spec = 'x'.toUInt8 then some (digits 16 hexLower (unsignedArg cv.length w)).reverse
  else if cv.spec = 'X'.toUInt8 then some (digits 16 hexUpper (unsignedArg cv.length w)).reverse
  else if cv.spec = 'p'.toUInt8 then some (pointerTmp w)
  else if cv.spec = 's'.toUInt8 then some (if w = 0 then nullText else (a.str w).chars)
  else if cv.spec = 'c'.toUInt8 then some [UInt8.ofNat w.toNat]
  else none

/-- The turns of a loop to `pad = (int)((size_t)width > s_len ? (size_t)width - s_len : 0)`. -/
def padTurns (width : BitVec 32) (sLen : Nat) : Nat :=
  let w := (width.signExtend 64).toNat
  (BitVec.ofNat 32 (if sLen < w then w - sLen else 0)).toInt.toNat

/-! ## The loop

A turn is a literal character or a conversion, with padding on one side or the other.
-/

section

variable (size : Nat) (a : VaList)

/-- The padding and the characters of `s_val`. -/
def Out.justify (o : Out) (cv : Conversion) (sVal : List UInt8) : Out :=
  let pad := padTurns cv.width sVal.length
  let o := if cv.flags.leftAlign then o
    else o.puts size (List.replicate pad (if cv.flags.zeroPad then '0'.toUInt8 else ' '.toUInt8))
  let o := o.puts size sVal
  if cv.flags.leftAlign then o.puts size (List.replicate pad ' '.toUInt8) else o

/-- What a conversion puts, with the index of the next argument. -/
def convert (cv : Conversion) (arg : Nat) (o : Out) : Nat × Out :=
  match cv.sVal a (a.slot arg) with
  | some sVal =>
    let o := if cv.spec = 'p'.toUInt8 then (o.put size '0'.toUInt8).put size 'x'.toUInt8 else o
    (arg + 1, o.justify size cv sVal)
  | none =>
    if cv.spec = '%'.toUInt8 then (arg, o.put size '%'.toUInt8)
    else (arg, (o.put size '%'.toUInt8).put size cv.spec)

/-- Before a turn: what is left of the format, the next argument, the buffer. -/
structure State where
  fmt : List UInt8
  arg : Nat
  out : Out

/-- What a round of the loop comes to: the end of the format, a read past it, or another round. -/
inductive Turn
  | done
  | overread
  | next (s : State)

/-- One round of `while (*fmt)`. -/
def turn (s : State) : Turn :=
  match s.fmt with
  | []     => .overread
  | c :: p =>
    if c = 0 then .done
    else if c ≠ '%'.toUInt8 then
      -- `PUT(*fmt++)` evaluates `*fmt++` only when there is room
      if s.out.pos + 1 < size then .next ⟨p, s.arg, s.out.append c⟩ else .next s
    else match conversion p with
      | none         => .overread
      | some (cv, p) =>
        let (arg, out) := convert size a cv s.arg s.out
        .next ⟨p, arg, out⟩

/-- What a call comes to within so many rounds. -/
inductive Outcome (α : Type)
  | returned (x : α)
  | overread
  | running

/-- The loop, for so many rounds at most. -/
def loop : Nat → State → Outcome Out
  | 0,     _ => .running
  | n + 1, s =>
    match turn size a s with
    | .done     => .returned (s.out.terminate size)
    | .overread => .overread
    | .next s   => loop n s

/-- `vsnprintf` with that many rounds of its loop; the returned value is `ret`. -/
def vsnprintf (turns : Nat) (buf : Nat → UInt8) (fmt : CString) : Outcome Out :=
  loop size a turns ⟨fmt.chars ++ [0], 0, ⟨buf, 0, []⟩⟩

/-- `(int)pos`. -/
def Out.ret (o : Out) : Int := (BitVec.ofNat 32 o.pos).toInt

end

end MyUnix.Console
