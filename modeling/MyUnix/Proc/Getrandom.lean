import MyUnix.Mm.HeapSizes
import MyUnix.Mm.Vmm
import MyUnix.Proc.UserAccess

/-!
# `Proc.Getrandom` — a kernel buffer of a length the caller chose

`sys_getrandom` asks `kmalloc` for `buflen` bytes and fills all of them. `buflen` comes from user space and nothing
bounds it, so the stores stay inside the buffer exactly when `kmalloc` hands out an object of that size.

The stores of the loop are logged, so that stores outside the buffer are seen where they go. The size that the heap
hands out is the subject of `Mm.HeapSizes`; what is added here is the loop, which believes its argument.
-/

namespace MyUnix.Mm.Words

/-- `*(uint8_t *)a = b`. -/
def setByte (m : Words) (a : Nat) (b : UInt8) : Words :=
  let word := a / 8 * 8
  let shift := 256 ^ (a % 8)
  Function.update m word (m word - m word / shift % 256 * shift + b.toNat * shift)

end MyUnix.Mm.Words

namespace MyUnix.Proc

open Mm Arch

/-- The loop of `sys_getrandom` from the index `i` on, `n` bytes to go: its stores and the state of the generator
    behind them. -/
def fillLoop (buf : Nat) : Nat → Nat → Word → List (Nat × UInt8) × Word
  | 0,     _, rng => ([], rng)
  | n + 1, i, rng =>
    let rng := xorshift rng
    let (stores, rng') := fillLoop buf n (i + 1) rng
    ((buf + i, UInt8.ofNat rng.toNat) :: stores, rng')

/-- The kernel buffer of `sys_getrandom`, 0 for none, and what is stored through it. -/
def getrandomFill (h : Heap) (rng : Word) (buflen : Nat) : Option (Nat × List (Nat × UInt8) × Heap × Word) := do
  let (buf, h) ← h.kmalloc buflen
  if buf = 0 then some (0, [], h, rng)
  else
    let (stores, rng) := fillLoop buf buflen 0 rng
    some (buf, stores, { h with mem := stores.foldl (fun m s => m.setByte s.1 s.2) h.mem }, rng)

/-- `sys_getrandom`: the buffer of the heap is filled first, and then copied. -/
def sysGetrandom (u : User) (h : Heap) (rng : Word) (bufPtr : Word) (buflen : Nat) :
    Option (Int × User × Heap × Word) := do
  let (buf, stores, h, rng) ← getrandomFill h rng buflen
  if buf = 0 then some (-enomem, u, h, rng)
  else
    let (u, r) := copyToUser u (.arg 0) bufPtr (stores.map Prod.snd)
    let h ← h.kfree buf
    some (if r < 0 then r else buflen, u, h, rng)

/-- **The stores of the loop** go to the bytes from `buf + i` on, one to each. -/
theorem mem_fillLoop {buf a : Nat} (n : Nat) : ∀ {i : Nat} {rng : Word},
    (∃ b, (a, b) ∈ (fillLoop buf n i rng).1) ↔ buf + i ≤ a ∧ a < buf + i + n := by
  induction n with
  | zero =>
      intro i rng
      constructor
      · rintro ⟨b, hb⟩
        exact absurd hb List.not_mem_nil
      · rintro ⟨hge, hlt⟩
        exact absurd hlt (Nat.not_lt.mpr hge)
  | succ n ih =>
      intro i rng
      have hcons : (fillLoop buf (n + 1) i rng).1 =
          (buf + i, UInt8.ofNat (xorshift rng).toNat) :: (fillLoop buf n (i + 1) (xorshift rng)).1 := rfl
      rw [hcons]
      constructor
      · rintro ⟨b, hb⟩
        rcases List.mem_cons.mp hb with heq | hb
        · rw [(Prod.mk.inj heq).1]
          omega
        · have hin := ih.mp ⟨b, hb⟩
          omega
      · intro hin
        by_cases hfirst : a = buf + i
        · rw [hfirst]
          exact ⟨_, List.mem_cons_self⟩
        · obtain ⟨b, hb⟩ := (@ih (i + 1) (xorshift rng)).mpr (by omega)
          exact ⟨b, List.mem_cons_of_mem _ hb⟩

/-- The buffer is filled from its first byte on. -/
theorem getrandomFill_eq {h h' : Heap} {rng : Word} {buflen ptr : Nat} (hk : h.kmalloc buflen = some (ptr, h'))
    (hptr : ptr ≠ 0) :
    ∃ h'' rng', getrandomFill h rng buflen = some (ptr, (fillLoop ptr buflen 0 rng).1, h'', rng') := by
  unfold getrandomFill
  rw [hk, Option.bind_eq_bind, Option.bind_some]
  simp only [if_neg hptr]
  exact ⟨_, _, rfl⟩

/-- **What `kmalloc` hands out holds the size it was asked for**, and so does the buffer of `sys_getrandom`. -/
structure HoldsSize (h : Heap) (size : Nat) : Prop where
  object    : ∀ ptr h', h.kmalloc size = some (ptr, h') → ptr ≠ 0 → size ≤ h.objectSize size ptr
  getrandom : ∀ rng buf stores h' rng', getrandomFill h rng size = some (buf, stores, h', rng') →
                ∀ s ∈ stores, buf ≤ s.1 ∧ s.1 < buf + h.objectSize size buf

theorem HoldsSize.of_object {h : Heap} {size : Nat}
    (hobj : ∀ ptr h', h.kmalloc size = some (ptr, h') → ptr ≠ 0 → size ≤ h.objectSize size ptr) :
    HoldsSize h size := by
  refine ⟨hobj, fun rng buf stores h' rng' hfill s hs => ?_⟩
  obtain ⟨⟨ptr, h₁⟩, hk, hfill⟩ := Option.bind_eq_some_iff.mp hfill
  simp only at hfill
  split at hfill
  case isTrue =>
      obtain ⟨-, rfl, -⟩ := Option.some.inj hfill
      exact absurd hs List.not_mem_nil
  case isFalse hptr =>
      obtain ⟨rfl, rfl, -⟩ := Option.some.inj hfill
      have hin := (mem_fillLoop size).mp ⟨s.2, hs⟩
      have hsize := hobj buf h₁ hk hptr
      omega

/-- **An object holds the size it was asked for** exactly for the sizes whose rounding does not wrap, and where nothing
    can be handed out at all. -/
theorem holds_size_iff (h : Heap) (size : Nat) (hpos : 0 < size) (hlt : size < 2 ^ 64) :
    HoldsSize h size ↔ size ≤ 2 ^ 64 - 16 ∨ ¬ h.HandsOut := by
  constructor
  · intro hholds
    by_contra hbad
    obtain ⟨hwrap, hout⟩ := not_or.mp hbad
    have hneed := roundUp_wraps (Nat.not_le.mp hwrap) hlt
    obtain ⟨ptr, h', hk, hptr⟩ := (Heap.kmalloc_wraps_iff (Nat.ne_of_gt hpos) hneed).mpr (not_not.mp hout)
    have hsize := hholds.object ptr h' hk hptr
    have hobj : h.objectSize size ptr < 2 ^ 32 := Heap.objectSize_wraps hneed
    omega
  · intro hok
    refine .of_object fun ptr h' hk hptr => ?_
    by_cases hle : size ≤ 2 ^ 64 - 16
    · exact Nat.le_trans (le_roundUp hle) (Heap.kmalloc_fits hk hptr)
    · have hneed := roundUp_wraps (Nat.not_le.mp hle) hlt
      exact absurd ((Heap.kmalloc_wraps_iff (Nat.ne_of_gt hpos) hneed).mp ⟨ptr, h', hk, hptr⟩)
        (hok.resolve_left hle)

/-- A hundred bytes. -/
theorem holds_size_small : HoldsSize freshHeap 100 :=
  (holds_size_iff freshHeap 100 (by decide) (by decide)).mpr (.inl (by decide))

/-- **For the largest size** `kmalloc` hands out an object of 8 bytes, and `sys_getrandom` stores behind it. -/
theorem holds_size_largest :
    ∃ ptr h', freshHeap.kmalloc (2 ^ 64 - 1) = some (ptr, h') ∧ ptr ≠ 0 ∧
      freshHeap.objectSize (2 ^ 64 - 1) ptr = 8 ∧
      (∃ stores h'' rng', getrandomFill freshHeap 1#64 (2 ^ 64 - 1) = some (ptr, stores, h'', rng') ∧
        ∃ b, (ptr + 8, b) ∈ stores) ∧
      ¬ HoldsSize freshHeap (2 ^ 64 - 1) := by
  obtain ⟨size, hsize⟩ : ∃ size, size = 2 ^ 64 - 1 := ⟨_, rfl⟩
  have hlarge : 8 < size := by rw [hsize]; decide
  have hptr : (freshHeap.kmalloc size).map Prod.fst = some (heapVirtBase + heapInitSize + 4088) := by
    rw [hsize]; decide +kernel
  have hobj : freshHeap.objectSize size (heapVirtBase + heapInitSize + 4088) = 8 := by
    rw [hsize]; decide +kernel
  have hne : heapVirtBase + heapInitSize + 4088 ≠ 0 := by decide
  rw [← hsize]
  generalize heapVirtBase + heapInitSize + 4088 = ptr at *
  obtain ⟨⟨p, h'⟩, hk, rfl⟩ := Option.map_eq_some_iff.mp hptr
  obtain ⟨h'', rng', hfill⟩ := @getrandomFill_eq _ _ 1#64 _ _ hk hne
  refine ⟨p, h', hk, hne, hobj, ⟨_, h'', rng', hfill, ?_⟩, fun hholds => ?_⟩
  · exact (mem_fillLoop size).mpr (by omega)
  · have hle := hholds.object p h' hk hne
    simp only at hobj
    omega

end MyUnix.Proc
