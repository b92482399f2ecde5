import Mathlib.Algebra.Group.Nat.Defs
import Mathlib.Data.List.Basic

/-!
# `Lib.StablePq` — stable priority queues

A queue is the list of its elements in the order they came. The best of them is the first one that no other precedes
in priority. An implementation that keeps one queue for each priority works on the `bucket`s, the sublists of equal
priority: the best element is the head of the lowest bucket that is not empty.

A scheduler with a queue for each priority and a bitmap of those that are not empty refines this: the first bit of the
bitmap is the lowest bucket, and its head is the best element.
-/

namespace MyUnix.Lib

variable {α : Type} {prio : α → Nat} {l : List α} {p : α} {i : Nat}

/-- The element that came first among those of the smallest priority number. -/
def best (prio : α → Nat) (l : List α) : Option α := l.find? fun x => l.all fun y => prio x ≤ prio y

/-- The elements of priority `i`, in order. -/
def bucket (prio : α → Nat) (l : List α) (i : Nat) : List α := l.filter fun x => prio x = i

theorem mem_bucket : p ∈ bucket prio l i ↔ p ∈ l ∧ prio p = i := by
  simp [bucket]

theorem bucket_append (l' : List α) : bucket prio (l ++ l') i = bucket prio l i ++ bucket prio l' i :=
  List.filter_append l l'

theorem bucket_singleton : bucket prio [p] i = if prio p = i then [p] else [] := by
  rw [bucket, List.filter_singleton]
  by_cases h : prio p = i
  · rw [decide_eq_true h, if_pos h]
    rfl
  · rw [decide_eq_false h, if_neg h]
    rfl

theorem bucket_congr {prio' : α → Nat} (h : ∀ x ∈ l, prio' x = prio x) : bucket prio' l i = bucket prio l i := by
  apply List.filter_congr
  intro x hx
  rw [h x hx]

theorem bucket_erase [DecidableEq α] (hnd : l.Nodup) : bucket prio (l.erase p) i = (bucket prio l i).erase p := by
  have hb : (bucket prio l i).Nodup := hnd.filter _
  rw [hb.erase_eq_filter, hnd.erase_eq_filter, bucket, bucket, List.filter_comm]

/-- The head of the lowest bucket is the best element. -/
theorem best_of_bucket {ys : List α} (hlow : ∀ j < i, bucket prio l j = []) (hi : bucket prio l i = p :: ys) :
    best prio l = some p := by
  have hmin : ∀ y ∈ l, i ≤ prio y := by
    intro y hy
    by_contra hlt
    have hmem : y ∈ bucket prio l (prio y) := mem_bucket.mpr ⟨hy, rfl⟩
    rw [hlow _ (Nat.not_le.mp hlt)] at hmem
    cases hmem
  have hp : prio p = i := (mem_bucket.mp (by rw [hi]; exact List.mem_cons_self)).2
  -- to be least is to be of priority `i`
  have hleast : ∀ x ∈ l, (l.all fun y => decide (prio x ≤ prio y)) = decide (prio x = i) := by
    intro x hx
    rw [Bool.eq_iff_iff, List.all_eq_true, decide_eq_true_iff]
    constructor
    · intro h
      have hpl : p ∈ l := (mem_bucket.mp (by rw [hi]; exact List.mem_cons_self)).1
      exact Nat.le_antisymm (hp ▸ of_decide_eq_true (h p hpl)) (hmin x hx)
    · rintro rfl y hy
      exact decide_eq_true (hmin y hy)
  rw [best, ← List.head?_filter, List.filter_congr hleast]
  exact congrArg List.head? hi

theorem best_nil : best prio [] = none := rfl

end MyUnix.Lib
