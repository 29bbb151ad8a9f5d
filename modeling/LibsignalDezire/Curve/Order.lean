/-
The order of the Ed25519 base point is prime.
-/
import Mathlib.Tactic.NormNum.Prime
import LibsignalDezire.Lib.Lucas

namespace Curve

/-- The order `2 ^ 252 + …` of the base point. -/
def basepointOrder : ℕ :=
  7237005577332262213973186563042994240857116359379907606001950938285454250989

/-- The small primes of the certificate. -/
def smallPrimes : List ℕ :=
  [2, 3, 5, 7, 11, 23, 41, 43, 73, 269, 307, 1361, 2851, 5879, 30703, 82163, 132667, 137849,
    531581, 1224481, 58964693]

/-- The other prime factors that lead to the order, each after those of its predecessor. -/
def certificate : List Lucas.Entry :=
  [⟨292386187, 2, [2, 3, 3, 3, 3, 307, 5879]⟩,
    ⟨213441916511, 13, [2, 5, 73, 292386187]⟩,
    ⟨1257559732178653, 2, [2, 2, 3, 7, 23, 531581, 1224481]⟩,
    ⟨4434155615661930479, 17, [2, 41, 43, 1257559732178653]⟩,
    ⟨172054593956031949258510691, 2, [2, 5, 1361, 2851, 4434155615661930479]⟩,
    ⟨19757330305831588566944191468367130476339, 2,
      [2, 269, 213441916511, 172054593956031949258510691]⟩,
    ⟨276602624281642239937218680557139826668747, 2,
      [2, 7, 19757330305831588566944191468367130476339]⟩,
    ⟨3044861653679985063343, 5, [2, 3, 11, 30703, 82163, 132667, 137849]⟩,
    ⟨198211423230930754013084525763697, 5,
      [2, 2, 2, 2, 3, 23, 58964693, 3044861653679985063343]⟩,
    ⟨basepointOrder, 2, [2, 2, 3, 11, 198211423230930754013084525763697,
      276602624281642239937218680557139826668747]⟩]

theorem smallPrimes_prime : ∀ q ∈ smallPrimes, q.Prime := by
  simp only [smallPrimes, List.forall_mem_cons]
  norm_num

/-- **The base point has prime order.** -/
theorem basepointOrder_prime : basepointOrder.Prime := by
  have hcheck : Lucas.check smallPrimes certificate := by decide +kernel
  exact Lucas.prime_of_check smallPrimes_prime hcheck
    (certificate.getLast (by simp [certificate])) (List.getLast_mem _)

theorem basepointOrder_eq :
    basepointOrder = 2 ^ 252 + 27742317777372353535851937790883648493 := by
  norm_num [basepointOrder]

end Curve
