/-
Primality from the factorization of the predecessor.

* `Lucas.powMod_eq` — modular powers by repeated squaring;
* `Lucas.prime_of_test` — Lucas's test as a computation;
* `Lucas.prime_of_check` — a certificate: each number passes the test with primes
  from earlier in the list.
-/
import Mathlib.Data.List.Prime
import Mathlib.NumberTheory.LucasPrimality

namespace Lucas

/-- `a ^ n % m` for `n < 2 ^ k`: the power of the upper half of the digits is
squared, and the last digit may add a factor. -/
def powMod (m a : ℕ) : ℕ → ℕ → ℕ
  | 0, _ => 1 % m
  | k + 1, n =>
    let half := powMod m a k (n / 2)
    if n % 2 = 1 then half * half % m * a % m else half * half % m

theorem powMod_eq (m a : ℕ) {k n : ℕ} (h : n < 2 ^ k) : powMod m a k n = a ^ n % m := by
  induction k generalizing n with
  | zero =>
    obtain rfl : n = 0 := by simpa using h
    rfl
  | succ k ih =>
    have hhalf : powMod m a k (n / 2) = a ^ (n / 2) % m := ih (by rw [pow_succ] at h; omega)
    have hsq : a ^ (n / 2) % m * (a ^ (n / 2) % m) % m = a ^ (n / 2 + n / 2) % m := by
      rw [← Nat.mul_mod, ← pow_add]
    simp only [powMod, hhalf, hsq]
    split
    case isTrue hodd =>
      rw [Nat.mod_mul_mod, ← pow_succ]
      congr 2
      omega
    case isFalse heven =>
      congr 2
      omega

/-- The order of `a` modulo `p` is `p - 1`, as seen at the listed factors of it. -/
def test (p a : ℕ) (factors : List ℕ) : Bool :=
  2 ≤ p && p < 2 ^ 256 && factors.prod == p - 1 && powMod p a 256 (p - 1) == 1 &&
    factors.all fun q => powMod p a 256 ((p - 1) / q) != 1

/-- **Lucas's test.**  A number that passes it, with prime factors, is prime. -/
theorem prime_of_test {p : ℕ} (a : ℕ) (factors : List ℕ) (htest : test p a factors)
    (hprime : ∀ q ∈ factors, q.Prime) : p.Prime := by
  simp only [test, Bool.and_eq_true, decide_eq_true_eq, beq_iff_eq, List.all_eq_true,
    bne_iff_ne] at htest
  obtain ⟨⟨⟨⟨hle, hlt⟩, hprod⟩, hone⟩, hne⟩ := htest
  have hpow : ∀ {n}, n ≤ p - 1 → ((a : ZMod p) ^ n = 1 ↔ powMod p a 256 n = 1) := by
    intro n hn
    rw [powMod_eq p a (by omega), ← Nat.cast_pow, ← Nat.cast_one, ZMod.natCast_eq_natCast_iff',
      Nat.mod_eq_of_lt (by omega : 1 < p)]
  refine lucas_primality p a ((hpow le_rfl).mpr hone) fun q hq hdvd => ?_
  rw [← hprod, hq.prime.dvd_prod_iff] at hdvd
  obtain ⟨f, hf, hqf⟩ := hdvd
  rw [(Nat.prime_dvd_prime_iff_eq hq (hprime f hf)).mp hqf, Ne, hpow (Nat.div_le_self _ _)]
  exact hne f hf

/-- A number, a primitive root of it and the prime factors of its predecessor. -/
structure Entry where
  prime : ℕ
  root : ℕ
  factors : List ℕ

/-- Every entry passes the test with factors that are known or entries before it. -/
def check : List ℕ → List Entry → Bool
  | _, [] => true
  | known, e :: es =>
    test e.prime e.root e.factors && e.factors.all (known.contains ·) &&
      check (e.prime :: known) es

/-- **Certificates.**  The entries of a checked list are prime. -/
theorem prime_of_check {known : List ℕ} {entries : List Entry}
    (hknown : ∀ q ∈ known, q.Prime) (hcheck : check known entries) :
    ∀ e ∈ entries, e.prime.Prime := by
  induction entries generalizing known with
  | nil => simp
  | cons e es ih =>
    simp only [check, Bool.and_eq_true, List.all_eq_true, List.contains_iff_mem] at hcheck
    obtain ⟨⟨htest, hfactors⟩, hrest⟩ := hcheck
    have he : e.prime.Prime :=
      prime_of_test e.root e.factors htest fun q hq => hknown q (hfactors q hq)
    rw [List.forall_mem_cons]
    exact ⟨he, ih (List.forall_mem_cons.mpr ⟨he, hknown⟩) hrest⟩

end Lucas
