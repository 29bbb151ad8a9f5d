/-
Multiples of a point by scalars modulo a prime.

An implementation multiplies a point by the representative of a scalar below
`l`.  On the points that `l` annihilates this is an action of `ZMod l`, and for a
prime `l` a multiple is zero only if the scalar or the point is.

* `Torsion.smul_add`, `Torsion.smul_mul` — the action;
* `Torsion.nsmul_eq_zero_iff`, `Torsion.smul_ne_zero` — no zero divisors;
* `Torsion.extract` — two answers of a prover to different challenges.
-/
import Mathlib.Algebra.Field.ZMod
import Mathlib.GroupTheory.OrderOfElement

namespace Torsion

variable {E : Type*} [AddCommGroup E] {l : ℕ} {P : E}

/-- The multiple of a point by the representative of a scalar below `l`. -/
def smul (k : ZMod l) (P : E) : E := k.val • P

section Action

variable (hP : l • P = 0)

include hP

theorem smul_natCast (n : ℕ) : smul (n : ZMod l) P = n • P := by
  rw [smul, ZMod.val_natCast, ← nsmul_eq_mod_nsmul n hP]

theorem smul_add [NeZero l] (k k' : ZMod l) : smul (k + k') P = smul k P + smul k' P := by
  rw [smul, smul, smul, ZMod.val_add, ← nsmul_eq_mod_nsmul _ hP, add_nsmul]

theorem smul_mul (k k' : ZMod l) : smul (k * k') P = smul k (smul k' P) := by
  rw [smul, smul, smul, ZMod.val_mul, ← nsmul_eq_mod_nsmul _ hP, mul_comm, mul_nsmul]

omit hP in
theorem smul_zero_scalar : smul (0 : ZMod l) P = 0 := by
  rw [smul, ZMod.val_zero, zero_nsmul]

theorem smul_neg [NeZero l] (k : ZMod l) : smul (-k) P = -smul k P := by
  rw [eq_neg_iff_add_eq_zero, ← smul_add hP, neg_add_cancel, smul_zero_scalar]

theorem smul_sub [NeZero l] (k k' : ZMod l) : smul (k - k') P = smul k P - smul k' P := by
  rw [sub_eq_add_neg, smul_add hP, smul_neg hP, sub_eq_add_neg]

theorem nsmul_smul (k : ZMod l) : l • smul k P = 0 := by
  rw [smul, ← mul_nsmul, mul_comm, mul_nsmul, hP, nsmul_zero]

/-- A prime order is the order of every point but zero. -/
theorem nsmul_eq_zero_iff (hl : l.Prime) (hne : P ≠ 0) {n : ℕ} : n • P = 0 ↔ l ∣ n := by
  have : Fact l.Prime := ⟨hl⟩
  rw [← addOrderOf_dvd_iff_nsmul_eq_zero, addOrderOf_eq_prime hP hne]

theorem smul_ne_zero [NeZero l] (hl : l.Prime) (hne : P ≠ 0) {k : ZMod l} (hk : k ≠ 0) :
    smul k P ≠ 0 := by
  rw [smul, Ne, nsmul_eq_zero_iff hP hl hne]
  intro hdvd
  exact hk ((ZMod.val_eq_zero k).mp (Nat.eq_zero_of_dvd_of_lt hdvd k.val_lt))

/-- Scalars are determined by their multiples of a point of prime order. -/
theorem smul_injective [NeZero l] (hl : l.Prime) (hne : P ≠ 0) {k k' : ZMod l}
    (h : smul k P = smul k' P) : k = k' := by
  by_contra hk
  refine smul_ne_zero hP hl hne (sub_ne_zero.mpr hk) ?_
  rw [smul_sub hP, h, sub_self]

/-- Points are determined by their multiples by a nonzero scalar. -/
theorem smul_right_injective [NeZero l] (hl : l.Prime) {Q : E} (hQ : l • Q = 0) {k : ZMod l}
    (hk : k ≠ 0) (h : smul k P = smul k Q) : P = Q := by
  have : Fact l.Prime := ⟨hl⟩
  have hinv : ∀ R : E, l • R = 0 → smul k⁻¹ (smul k R) = R := by
    intro R hR
    rw [← smul_mul hR, inv_mul_cancel₀ hk, smul, ZMod.val_one, one_nsmul]
  rw [← hinv P hP, h, hinv Q hQ]

/-- A point of odd prime order is not its own negative. -/
theorem ne_neg (hl : l.Prime) (htwo : l ≠ 2) (hne : P ≠ 0) : P ≠ -P := by
  intro heq
  have hdouble : 2 • P = 0 := by rw [two_nsmul, ← sub_neg_eq_add, ← heq, sub_self]
  rw [nsmul_eq_zero_iff hP hl hne, Nat.prime_dvd_prime_iff_eq hl Nat.prime_two] at hdouble
  exact htwo hdouble

end Action

theorem nsmul_comm_smul (n : ℕ) (k : ZMod l) : n • smul k P = smul k (n • P) := by
  rw [smul, smul, ← mul_nsmul, ← mul_nsmul, mul_comm]

/-- **Extraction.**  Two answers to different challenges give the discrete
logarithm. -/
theorem extract {Q : E} (hl : l.Prime) (hP : l • P = 0) (hQ : l • Q = 0) {h h' s s' : ZMod l}
    (hne : h ≠ h') (heq : smul s P - smul h Q = smul s' P - smul h' Q) :
    Q = smul ((h - h')⁻¹ * (s - s')) P := by
  have : Fact l.Prime := ⟨hl⟩
  have : NeZero l := ⟨hl.ne_zero⟩
  have hdiff : smul (h - h') Q = smul (s - s') P := by
    rw [sub_eq_sub_iff_add_eq_add] at heq
    rw [smul_sub hQ, smul_sub hP, sub_eq_sub_iff_add_eq_add, add_comm, ← heq]
  calc Q = smul ((h - h')⁻¹ * (h - h')) Q := by
        rw [inv_mul_cancel₀ (sub_ne_zero.mpr hne), smul, ZMod.val_one, one_nsmul]
    _ = smul ((h - h')⁻¹ * (s - s')) P := by rw [smul_mul hQ, hdiff, ← smul_mul hP]

end Torsion
