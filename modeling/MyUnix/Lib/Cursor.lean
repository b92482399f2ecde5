import Mathlib.Algebra.Group.Nat.Defs
import Mathlib.Data.List.Basic

/-!
# `Lib.Cursor` — reading a list in pieces of any size

A reader keeps its position and gets, with each read, as many items from there on as it has room for. However the reads
are cut, what they give is the list from the first position on: none is lost, given twice or out of order at the end of a
piece, and the first read that gives nothing comes after all of them.

The reader may stop anywhere and go on with a different room; the argument only needs that a read of two rooms is two
reads (`readFrom_add`). That the end is reached at all needs room for at least one item in each read, which is where a
client has to look at the size of its buffers.
-/

namespace MyUnix.Lib

variable {α β : Type}

/-- A read at `pos` with room for `room` items. -/
def readFrom (xs : List α) (pos room : Nat) : List α := (xs.drop pos).take room

/-- Reads one after the other, each from where the one before it stopped. -/
def readAll (xs : List α) : Nat → List Nat → List (List α)
  | _,   []            => []
  | pos, room :: rooms => readFrom xs pos room :: readAll xs (pos + (readFrom xs pos room).length) rooms

/-- What comes before the first read that gives nothing, put together. -/
def untilEmpty (chunks : List (List α)) : List α := (chunks.takeWhile fun c => !c.isEmpty).flatten

variable {xs : List α} {pos room : Nat} {rooms : List Nat}

theorem length_readFrom : (readFrom xs pos room).length = min room (xs.length - pos) := by
  rw [readFrom, List.length_take, List.length_drop]

/-- With room for an item, nothing is given only at the end. -/
theorem readFrom_eq_nil_iff (hroom : 0 < room) : readFrom xs pos room = [] ↔ xs.length ≤ pos := by
  rw [← List.length_eq_zero_iff, length_readFrom]
  omega

/-- What is left after a read. -/
theorem readFrom_append_drop : readFrom xs pos room ++ xs.drop (pos + (readFrom xs pos room).length) = xs.drop pos := by
  rw [length_readFrom, readFrom, ← List.drop_drop]
  by_cases hle : room ≤ xs.length - pos
  · rw [Nat.min_eq_left hle, List.take_append_drop]
  · have hlen : (xs.drop pos).length ≤ room := by
      rw [List.length_drop]
      omega
    have hend : (xs.drop pos).drop (xs.length - pos) = [] := by
      rw [← List.length_drop, List.drop_length]
    rw [Nat.min_eq_right (by omega), List.take_of_length_le hlen, hend, List.append_nil]

/-- **Two reads are one**: with room for `n` items and then for `k`, they give what one read with room for `n + k` gives. -/
theorem readFrom_add (n k : Nat) :
    readFrom xs pos (n + k) = readFrom xs pos n ++ readFrom xs (pos + (readFrom xs pos n).length) k := by
  have hrest : (xs.drop pos).drop n = xs.drop (pos + (readFrom xs pos n).length) := by
    rw [length_readFrom, List.drop_drop]
    by_cases hle : n ≤ xs.length - pos
    · rw [Nat.min_eq_left hle]
    · -- the first read gave all there was
      rw [List.drop_eq_nil_of_le (by omega), List.drop_eq_nil_of_le (by omega)]
  rw [readFrom, List.take_add, hrest]
  rfl

/-- **Up to the first empty read** the reads give the list from the first position on, and if there is an empty read they
    give all of it. -/
theorem untilEmpty_readAll (rooms : List Nat) : ∀ pos, (∀ room ∈ rooms, 0 < room) →
    ∃ rest, untilEmpty (readAll xs pos rooms) ++ rest = xs.drop pos ∧ ([] ∈ readAll xs pos rooms → rest = []) := by
  induction rooms with
  | nil =>
    intro pos _
    exact ⟨xs.drop pos, rfl, fun h => absurd h List.not_mem_nil⟩
  | cons room rooms ih =>
    intro pos hrooms
    have hroom : 0 < room := hrooms room List.mem_cons_self
    by_cases hnil : readFrom xs pos room = []
    · -- nothing was given, so the position is at the end
      refine ⟨[], ?_, fun _ => rfl⟩
      have hend : xs.drop pos = [] := List.drop_eq_nil_iff.mpr ((readFrom_eq_nil_iff hroom).mp hnil)
      rw [hend, untilEmpty, readAll, List.takeWhile_cons, hnil]
      rfl
    · obtain ⟨rest, hrest, hend⟩ :=
        ih (pos + (readFrom xs pos room).length) fun r hr => hrooms r (List.mem_cons_of_mem _ hr)
      refine ⟨rest, ?_, ?_⟩
      · have htake : untilEmpty (readAll xs pos (room :: rooms)) =
            readFrom xs pos room ++ untilEmpty (readAll xs (pos + (readFrom xs pos room).length) rooms) := by
          rw [untilEmpty, readAll, List.takeWhile_cons, if_pos (by simpa using hnil), List.flatten_cons]
          rfl
        rw [htake, List.append_assoc, hrest, readFrom_append_drop]
      · intro hmem
        rw [readAll, List.mem_cons] at hmem
        exact hend (hmem.resolve_left (Ne.symm hnil))

/-- **More reads than items end with an empty one.** -/
theorem nil_mem_readAll (rooms : List Nat) : ∀ pos, (∀ room ∈ rooms, 0 < room) → xs.length < pos + rooms.length →
    rooms ≠ [] → [] ∈ readAll xs pos rooms := by
  induction rooms with
  | nil =>
    intro pos _ _ hne
    exact absurd rfl hne
  | cons room rooms ih =>
    intro pos hrooms hlen _
    have hroom : 0 < room := hrooms room List.mem_cons_self
    rw [readAll, List.mem_cons]
    by_cases hnil : readFrom xs pos room = []
    · exact .inl hnil.symm
    · right
      have hpos : 0 < (readFrom xs pos room).length := List.length_pos_iff.mpr hnil
      rw [List.length_cons] at hlen
      apply ih _ fun r hr => hrooms r (List.mem_cons_of_mem _ hr)
      · omega
      · rintro rfl
        apply hnil
        rw [readFrom_eq_nil_iff hroom]
        rw [List.length_nil] at hlen
        omega

end MyUnix.Lib
