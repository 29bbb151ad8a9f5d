/-
Iterating a function from points outside its range.

Two such iterates agree only if they start at the same point and take the same
number of steps, where the function is injective on the points they pass: a
chain of keys never meets itself or another chain.
-/
import Mathlib.Data.Set.Function
import Mathlib.Logic.Function.Iterate

namespace Chain

variable {α : Type*} {f : α → α} {D : Set α} {a b : α}

/-- A chain never returns to a point outside the range of `f`. -/
theorem iterate_succ_ne (ha : ∀ x ∈ D, a ≠ f x) {n : ℕ} (hD : f^[n] b ∈ D) :
    f^[n + 1] b ≠ a := by
  rw [Function.iterate_succ_apply']
  exact (ha _ hD).symm

/-- **Positions on chains are unique.** -/
theorem iterate_inj (hf : Set.InjOn f D) (ha : ∀ x ∈ D, a ≠ f x) (hb : ∀ x ∈ D, b ≠ f x) :
    ∀ {m n : ℕ}, (∀ i < m, f^[i] a ∈ D) → (∀ i < n, f^[i] b ∈ D) →
      f^[m] a = f^[n] b → a = b ∧ m = n
  | 0, 0, _, _, h => ⟨h, rfl⟩
  | 0, n + 1, _, hbD, h => absurd h.symm (iterate_succ_ne ha (hbD n n.lt_succ_self))
  | m + 1, 0, haD, _, h => absurd h (iterate_succ_ne hb (haD m m.lt_succ_self))
  | m + 1, n + 1, haD, hbD, h => by
    rw [Function.iterate_succ_apply', Function.iterate_succ_apply'] at h
    obtain ⟨hab, hmn⟩ := iterate_inj hf ha hb (fun i hi => haD i (Nat.lt_succ_of_lt hi))
      (fun i hi => hbD i (Nat.lt_succ_of_lt hi))
      (hf (haD m m.lt_succ_self) (hbD n n.lt_succ_self) h)
    exact ⟨hab, congrArg (· + 1) hmn⟩

end Chain
