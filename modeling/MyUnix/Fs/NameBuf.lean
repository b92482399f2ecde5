import MyUnix.Fs.Vfs

/-!
# `Fs.NameBuf` — names in buffers

`vfs_lookup_parent` and the `readdir` operations give a name back in an array of `NAME_MAX + 1` bytes that they fill with
`strncpy(.., NAME_MAX)`. The last byte is never written, so a name of `NAME_MAX` bytes has a zero behind it only if there
was one before.

A buffer is a function, so writing behind its end is not noticed here; the copies write `NAME_MAX` bytes at most, and
the buffers have one more.
-/

namespace MyUnix.Fs

/-- A buffer of bytes. -/
abbrev Buf := Nat → Char

/-- The second loop of `strncpy`: zeros from `d` on. -/
def padBuf : Nat → Nat → Buf → Buf
  | 0,     _, buf => buf
  | n + 1, d, buf => padBuf n (d + 1) (Function.update buf d '\x00')

/-- `strncpy` of at most `n` bytes to `d`. The end of the string is written by the first loop and by the second. -/
def strncpyTo : Path → Nat → Nat → Buf → Buf
  | _,       _, 0,     buf => buf
  | [],      d, n + 1, buf => padBuf (n + 1) d (Function.update buf d '\x00')
  | c :: cs, d, n + 1, buf => strncpyTo cs (d + 1) n (Function.update buf d c)

/-- `strcpy` to `d`. -/
def strcpyTo : Path → Nat → Buf → Buf
  | [],      d, buf => Function.update buf d '\x00'
  | c :: cs, d, buf => strcpyTo cs (d + 1) (Function.update buf d c)

/-- The buffer holds the string, with its zero. -/
structure CStr (buf : Buf) (name : Path) : Prop where
  bytes : ∀ i c, name[i]? = some c → buf i = c
  zero  : buf name.length = '\x00'

theorem padBuf_apply (n : Nat) : ∀ (d : Nat) (buf : Buf) (i : Nat),
    padBuf n d buf i = if d ≤ i ∧ i < d + n then '\x00' else buf i := by
  induction n with
  | zero =>
    intro d buf i
    rw [padBuf, if_neg (by omega)]
  | succ n ih =>
    intro d buf i
    rw [padBuf, ih]
    by_cases hi : i = d
    · subst hi
      rw [if_neg (by omega), if_pos (by omega), Function.update_self]
    · have hiff : (d + 1 ≤ i ∧ i < d + 1 + n) ↔ (d ≤ i ∧ i < d + (n + 1)) := by omega
      simp only [hiff, Function.update_of_ne hi]

/-- What `strncpy` leaves at each byte. -/
theorem strncpyTo_apply (name : Path) : ∀ (d n : Nat) (buf : Buf) (i : Nat),
    strncpyTo name d n buf i = if d ≤ i ∧ i < d + n then (name[i - d]?).getD '\x00' else buf i := by
  induction name with
  | nil =>
    intro d n buf i
    cases n with
    | zero => rw [strncpyTo, if_neg (by omega)]
    | succ n =>
      rw [strncpyTo, padBuf_apply]
      split
      next => rfl
      next hi => rw [Function.update_of_ne (by omega)]
  | cons c name ih =>
    intro d n buf i
    cases n with
    | zero => rw [strncpyTo, if_neg (by omega)]
    | succ n =>
      rw [strncpyTo, ih]
      by_cases hi : i = d
      · subst hi
        rw [if_neg (by omega), if_pos (by omega), Function.update_self, Nat.sub_self]
        rfl
      · rw [Function.update_of_ne hi]
        by_cases hin : d + 1 ≤ i ∧ i < d + 1 + n
        · have hsub : i - d = i - (d + 1) + 1 := by omega
          rw [if_pos hin, if_pos (by omega), hsub, List.getElem?_cons_succ]
        · rw [if_neg hin, if_neg (by omega)]

/-- Bytes that are the name and zeros, with room for one zero, are the string. -/
theorem CStr.of_padded {buf : Buf} {name : Path} {n : Nat} (h : ∀ i < n, buf i = (name[i]?).getD '\x00')
    (hlen : name.length < n) : CStr buf name := by
  constructor
  · intro i c hc
    have hi : i < name.length := (List.getElem?_eq_some_iff.mp hc).1
    rw [h i (by omega), hc]
    rfl
  · rw [h _ hlen, List.getElem?_eq_none (Nat.le_refl _)]
    rfl

/-- The bytes of the copy itself. -/
theorem strncpyTo_zero_apply (name : Path) {n i : Nat} (hi : i < n) (buf : Buf) :
    strncpyTo name 0 n buf i = (name[i]?).getD '\x00' := by
  rw [strncpyTo_apply, if_pos (by omega), Nat.sub_zero]

/-- **The copy of a name** has its zero if there is room for it, or if the byte behind was zero before. -/
theorem strncpyTo_cstr {name : Path} (hlen : name.length ≤ nameMax) (buf : Buf) :
    CStr (strncpyTo name 0 nameMax buf) name ↔ name.length < nameMax ∨ buf nameMax = '\x00' := by
  rcases Nat.lt_or_eq_of_le hlen with hlt | heq
  · exact iff_of_true (CStr.of_padded (fun i hi => strncpyTo_zero_apply name hi buf) hlt) (.inl hlt)
  · have hend : strncpyTo name 0 nameMax buf name.length = buf nameMax := by
      rw [strncpyTo_apply, if_neg (by omega), heq]
    constructor
    · intro h
      exact .inr (hend ▸ h.zero)
    · intro h
      refine ⟨fun i c hc => ?_, hend.trans (h.resolve_left (by omega))⟩
      have hi : i < name.length := (List.getElem?_eq_some_iff.mp hc).1
      rw [strncpyTo_zero_apply name (by omega), hc]
      rfl

/-- `strcpy` is `strncpy` with room for the zero and no more. -/
theorem strcpyTo_eq (name : Path) : ∀ (d : Nat) (buf : Buf),
    strcpyTo name d buf = strncpyTo name d (name.length + 1) buf := by
  induction name with
  | nil =>
    intro d buf
    funext i
    rw [strcpyTo, strncpyTo_apply, List.length_nil]
    by_cases hi : i = d
    · subst hi
      rw [Function.update_self, if_pos (by omega)]
      rfl
    · rw [Function.update_of_ne hi, if_neg (by omega)]
  | cons c name ih =>
    intro d buf
    rw [strcpyTo, ih, List.length_cons, strncpyTo]

theorem strcpyTo_cstr (name : Path) (buf : Buf) : CStr (strcpyTo name 0 buf) name := by
  rw [strcpyTo_eq]
  exact CStr.of_padded (fun i hi => strncpyTo_zero_apply name hi buf) (Nat.lt_succ_self _)

end MyUnix.Fs
