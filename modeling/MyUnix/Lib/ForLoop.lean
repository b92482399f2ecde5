/-!
# `Lib.ForLoop` — counted loops

`for (i = 0; i < n; i++) body` over any state, with a body that may fail. `forUpTo_rule` is the invariant rule: what
holds before the first turn and is carried by every turn from its index to the next holds at the end, and the loop gets
there.

The loop goes through a body of type `Nat → σ → Option σ`, so that a failing turn ends it, as a `return` from inside
does. A loop of the source that leaves early with a result is not of this kind and has a recursion of its own.
-/

namespace MyUnix.Lib

variable {σ : Type}

/-- The turns `0, …, n - 1` of the body, in this order. -/
def forUpTo (body : Nat → σ → Option σ) : Nat → σ → Option σ
  | 0,     s => some s
  | n + 1, s => do
    let s ← forUpTo body n s
    body n s

/-- **The invariant rule of a counted loop.** -/
theorem forUpTo_rule {body : Nat → σ → Option σ} (Inv : Nat → σ → Prop) {s : σ} (h0 : Inv 0 s) :
    ∀ n, (∀ i < n, ∀ t, Inv i t → ∃ t', body i t = some t' ∧ Inv (i + 1) t') →
      ∃ t, forUpTo body n s = some t ∧ Inv n t
  | 0,     _     => ⟨s, rfl, h0⟩
  | n + 1, hstep => by
    obtain ⟨t, ht, hinv⟩ := forUpTo_rule Inv h0 n fun i hi => hstep i (Nat.lt_succ_of_lt hi)
    obtain ⟨t', ht', hinv'⟩ := hstep n (Nat.lt_succ_self n) t hinv
    refine ⟨t', ?_, hinv'⟩
    rw [forUpTo, ht]
    exact ht'

/-- A loop whose turns all succeed and lead from `f i` to `f (i + 1)` leads from `f 0` to `f n`. -/
theorem forUpTo_eq (body : Nat → σ → Option σ) (f : Nat → σ) (n : Nat)
    (hstep : ∀ i < n, body i (f i) = some (f (i + 1))) : forUpTo body n (f 0) = some (f n) := by
  obtain ⟨t, ht, rfl⟩ := forUpTo_rule (fun i t => t = f i) rfl n fun i hi t ht => ⟨f (i + 1), ht ▸ hstep i hi, rfl⟩
  exact ht

end MyUnix.Lib
