import MyUnix.Lib.Bytes

/-!
# `Lib.ByteStore` — memories whose bytes can be read and written

What a loop over bytes needs of a memory is a byte at every address that can be read and set, whatever the memory is
made of: a function from addresses to bytes, or the words of a heap.

`CMem` and the byte view of the heap are both instances, so `memcpy`, `memset` and `memmove` are written once and used
for a flat memory and for the words of heap blocks alike.
-/

namespace MyUnix.Lib

/-- A memory with a byte at every address. -/
class ByteStore (M : Type) where
  get : M → Nat → UInt8
  set : M → Nat → UInt8 → M
  get_set_self : ∀ m a b, get (set m a b) a = b
  get_set_of_ne : ∀ m a b x, x ≠ a → get (set m a b) x = get m x

namespace ByteStore

instance : ByteStore ByteMem where
  get m a := m a
  set m a b := Function.update m a b
  get_set_self m a b := Function.update_self a b m
  get_set_of_ne _ _ _ _ h := Function.update_of_ne h _ _

variable {M : Type} [ByteStore M]

/-- The `n` bytes from `a` on. -/
def bytes (m : M) (a n : Nat) : List UInt8 := (List.range n).map fun i => get m (a + i)

theorem length_bytes (m : M) (a n : Nat) : (bytes m a n).length = n := by
  rw [bytes, List.length_map, List.length_range]

theorem bytes_succ (m : M) (a n : Nat) : bytes m a (n + 1) = get m a :: bytes m (a + 1) n := by
  rw [bytes, List.range_succ_eq_map, List.map_cons, List.map_map]
  refine congrArg (get m a :: ·) (List.map_congr_left fun i _ => ?_)
  rw [Function.comp_apply, Nat.succ_eq_add_one, Nat.add_assoc, Nat.add_comm 1]

end ByteStore

end MyUnix.Lib
