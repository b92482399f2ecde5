import Mathlib.Algebra.Group.Nat.Defs
import Mathlib.Logic.Function.Basic
import Mathlib.Data.List.Basic

/-!
# `Lib.Ring` — a ring buffer with free-running positions

A reader and a writer position count up for ever, modulo a word size `M`, and a cell is addressed by a position
modulo the number of cells. Where the number of cells divides `M`, the wrap-around of a position is not visible in
the cells: `Ring.Holds r n l` says that the `n` elements between the positions are `l`, and `put` and `get` keep it
as a queue would (`Holds.put`, `Holds.get`).

Two things are said about a ring buffer again and again in words: that a full and an empty buffer can be told apart
because the positions keep counting, and that nothing goes wrong when a position wraps around. Both are consequences
of one condition, that the number of cells divides the modulus of the positions (`mod_add_mod`); for a number of cells
that does not divide it, the first wrap would mix up cells.

The ring knows nothing of waiting. Whoever uses it has to see that a write fits and that a read asks for no more than
there is; these are hypotheses of `Holds.write` and `Holds.read`.
-/

namespace MyUnix.Lib

variable {α : Type}

/-- A ring of cells between two positions that only grow. -/
structure Ring (α : Type) where
  cells    : Nat → α
  readPos  : Nat
  writePos : Nat

namespace Ring

variable (size M : Nat)

/-- Write one element. -/
def put (b : α) (r : Ring α) : Ring α :=
  { r with cells := Function.update r.cells (r.writePos % size) b, writePos := (r.writePos + 1) % M }

/-- Move the reader past one element. -/
def skip (r : Ring α) : Ring α := { r with readPos := (r.readPos + 1) % M }

/-- Write a list of elements. -/
def write : List α → Ring α → Ring α
  | [],      r => r
  | b :: bs, r => write bs (put size M b r)

/-- Read `n` elements. -/
def read : Nat → Ring α → List α × Ring α
  | 0,     r => ([], r)
  | n + 1, r =>
    let b := r.cells (r.readPos % size)
    let (bs, r) := read n (skip M r)
    (b :: bs, r)

/-- The `n` elements from the reader position on. -/
def window (r : Ring α) (n : Nat) : List α := (List.range n).map fun i => r.cells ((r.readPos + i) % size)

/-- The ring holds the elements `l`, `n` in number, between its positions. -/
structure Holds (r : Ring α) (n : Nat) (l : List α) : Prop where
  le    : n ≤ size
  lt    : r.readPos < M
  pos   : r.writePos = (r.readPos + n) % M
  elems : window size r n = l

variable {size M} {r : Ring α} {n : Nat} {l : List α} {b : α}

theorem window_length : (window size r n).length = n := by
  simp [window]

theorem Holds.length (h : Holds size M r n l) : l.length = n := by
  rw [← h.elems, window_length]

theorem window_succ : window size r (n + 1) = window size r n ++ [r.cells ((r.readPos + n) % size)] := by
  simp [window, List.range_succ]

/-! ## Positions and cells

A position that has wrapped around addresses the cell that it would address without wrapping.
-/

/-- Positions modulo `M` address the cells they address without it. -/
theorem mod_add_mod (hdvd : size ∣ M) (a i : Nat) : (a % M + i) % size = (a + i) % size := by
  rw [Nat.add_mod, Nat.mod_mod_of_dvd a hdvd, ← Nat.add_mod]

/-- Within one round positions have cells of their own. -/
theorem cell_ne {a i j : Nat} (hij : i < j) (hj : j < i + size) : (a + i) % size ≠ (a + j) % size := by
  intro heq
  have h0 := Nat.sub_mod_eq_zero_of_mod_eq heq.symm
  have hsub : a + j - (a + i) = j - i := by omega
  rw [hsub, Nat.mod_eq_of_lt (by omega)] at h0
  omega

/-! ## Writing and reading

One element, and then lists of them by induction.
-/

/-- **Writing an element** appends it. -/
theorem Holds.put (hdvd : size ∣ M) (h : Holds size M r n l) (hn : n < size) :
    Holds size M (r.put size M b) (n + 1) (l ++ [b]) := by
  have hcell : r.writePos % size = (r.readPos + n) % size := by
    rw [h.pos, Nat.mod_mod_of_dvd _ hdvd]
  refine ⟨hn, h.lt, ?_, ?_⟩
  · show (r.writePos + 1) % M = (r.readPos + (n + 1)) % M
    rw [h.pos, Nat.mod_add_mod, Nat.add_assoc]
  · rw [window_succ, ← h.elems]
    have hlast : (r.put size M b).cells ((r.readPos + n) % size) = b := by
      show Function.update r.cells (r.writePos % size) b ((r.readPos + n) % size) = b
      rw [hcell, Function.update_self]
    have hfront : window size (r.put size M b) n = window size r n := by
      unfold window
      refine List.map_congr_left fun i hi => ?_
      have hlt : i < n := List.mem_range.mp hi
      show Function.update r.cells (r.writePos % size) b ((r.readPos + i) % size) = _
      rw [hcell, Function.update_of_ne (cell_ne hlt (by omega))]
    rw [hfront]
    exact congrArg (fun c => window size r n ++ [c]) hlast

/-- **Skipping an element** takes it off the front. -/
theorem Holds.skip (hdvd : size ∣ M) (h : Holds size M r (n + 1) l) :
    l = r.cells (r.readPos % size) :: l.tail ∧ Holds size M (r.skip M) n l.tail := by
  have hM : 0 < M := Nat.lt_of_le_of_lt (Nat.zero_le _) h.lt
  have hcons : l = r.cells (r.readPos % size) :: window size (r.skip M) n := by
    rw [← h.elems]
    unfold window
    rw [List.range_succ_eq_map, List.map_cons, List.map_map]
    refine congrArg (fun t => r.cells (r.readPos % size) :: t) (List.map_congr_left fun i _ => ?_)
    show r.cells ((r.readPos + (i + 1)) % size) = r.cells (((r.readPos + 1) % M + i) % size)
    rw [mod_add_mod hdvd, Nat.add_assoc, Nat.add_comm 1 i]
  have htail : l.tail = window size (r.skip M) n := by
    rw [hcons]
    rfl
  refine ⟨htail ▸ hcons, Nat.le_of_succ_le h.le, Nat.mod_lt _ hM, ?_, htail.symm⟩
  show r.writePos = ((r.readPos + 1) % M + n) % M
  rw [h.pos, Nat.mod_add_mod, Nat.add_assoc, Nat.add_comm 1 n]

/-- **Writing a list** appends it, where it fits. -/
theorem Holds.write (hdvd : size ∣ M) {bs : List α} (h : Holds size M r n l) (hfit : n + bs.length ≤ size) :
    Holds size M (Ring.write size M bs r) (n + bs.length) (l ++ bs) := by
  induction bs generalizing r n l with
  | nil =>
      rw [List.append_nil]
      exact h
  | cons b bs ih =>
      rw [List.length_cons] at hfit ⊢
      have hnext := ih (h.put (b := b) hdvd (by omega)) (by omega)
      have hassoc : l ++ [b] ++ bs = l ++ b :: bs := by simp
      have hcount : n + 1 + bs.length = n + (bs.length + 1) := by omega
      rw [hassoc, hcount] at hnext
      exact hnext

/-- **Reading `k` elements** yields the first `k`, and leaves the rest. -/
theorem Holds.read (hdvd : size ∣ M) {k : Nat} (h : Holds size M r n l) (hk : k ≤ n) :
    (Ring.read size M k r).1 = l.take k ∧ Holds size M (Ring.read size M k r).2 (n - k) (l.drop k) := by
  induction k generalizing r n l with
  | zero => exact ⟨rfl, h⟩
  | succ k ih =>
      obtain ⟨n, rfl⟩ : ∃ n', n = n' + 1 := ⟨n - 1, by omega⟩
      obtain ⟨hl, hskip⟩ := h.skip hdvd
      obtain ⟨htake, hdrop⟩ := ih hskip (by omega)
      rw [hl, Nat.add_sub_add_right]
      refine ⟨?_, hdrop⟩
      show r.cells (r.readPos % size) :: (Ring.read size M k (r.skip M)).1 = _
      rw [htake, List.take_succ_cons]

theorem read_cells (k : Nat) (r : Ring α) : (read size M k r).2.cells = r.cells := by
  induction k generalizing r with
  | zero => rfl
  | succ k ih => exact ih _

theorem write_readPos (bs : List α) (r : Ring α) : (write size M bs r).readPos = r.readPos := by
  induction bs generalizing r with
  | nil => rfl
  | cons b bs ih => exact ih _

/-- The unread cells are not written. -/
theorem Holds.write_keeps (hdvd : size ∣ M) {bs : List α} (h : Holds size M r n l) (hfit : n + bs.length ≤ size)
    {i : Nat} (hi : i < n) :
    (Ring.write size M bs r).cells ((r.readPos + i) % size) = r.cells ((r.readPos + i) % size) := by
  have hw := (h.write hdvd hfit).elems
  rw [← h.elems] at hw
  have hget := congrArg (fun l => l[i]?) hw
  rw [List.getElem?_append_left (by rw [window_length]; exact hi)] at hget
  simpa [window, write_readPos, hi, Nat.lt_add_right bs.length hi] using hget

end Ring

end MyUnix.Lib
