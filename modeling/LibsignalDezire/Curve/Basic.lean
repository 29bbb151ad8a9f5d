/-
Curve25519 as the code takes it from other crates.

The points of the Edwards curve are an arbitrary commutative group `E`, and the
shared secret that HKDF derives an arbitrary type `K`, so that the same
definitions run on the real curve and on any group of the same order.  Scalars
are integers modulo the order of the base point, with the encodings that
`curve25519_dalek::Scalar` documents.

* `GroupLaws`, `KeyLaws`, `Laws` — what is assumed of the curve: its order, the map to
  Montgomery coordinates and X25519, canonical compression.
-/
import LibsignalDezire.Lib.Bytes
import LibsignalDezire.Lib.Exec
import LibsignalDezire.Lib.Torsion
import LibsignalDezire.Curve.Order

namespace Curve

instance : NeZero basepointOrder := ⟨basepointOrder_prime.ne_zero⟩

/-! ### Scalars -/

/-- `Scalar` -/
abbrev Scalar := ZMod basepointOrder

namespace Scalar

/-- `scalar.to_bytes()` -/
def toBytes (s : Scalar) : BytesN 32 := Bytes.leArray 32 s.val

/-- `Scalar::from_bytes_mod_order(bytes)` -/
def fromBytesModOrder (bytes : BytesN 32) : Scalar := (Bytes.leNat bytes.1 : ℕ)

/-- `Scalar::from_bytes_mod_order_wide(bytes)` -/
def fromBytesModOrderWide (bytes : BytesN 64) : Scalar := (Bytes.leNat bytes.1 : ℕ)

/-- `Scalar::from_canonical_bytes(bytes)` -/
def fromCanonicalBytes (bytes : BytesN 32) : Option Scalar :=
  if Bytes.leNat bytes.1 < basepointOrder then some (fromBytesModOrder bytes) else none

/-- The encoding of a scalar is canonical. -/
theorem fromCanonicalBytes_toBytes (s : Scalar) : fromCanonicalBytes s.toBytes = some s := by
  have hlt : s.val < 256 ^ 32 := s.val_lt.trans (by decide +kernel)
  have hle : Bytes.leNat s.toBytes.1 = s.val := Bytes.leNat_leBytes hlt
  rw [fromCanonicalBytes, hle, if_pos s.val_lt, fromBytesModOrder, hle, ZMod.natCast_zmod_val]

end Scalar

/-! ### The curve -/

/-- What the code calls in `curve25519-dalek`, `x25519-dalek`, `sha2` and `hkdf`. -/
structure Primitives (E K : Type) where
  /-- `ED25519_BASEPOINT_POINT` -/
  basepoint : E
  /-- `point.compress().to_bytes()` -/
  compress : E → BytesN 32
  /-- `CompressedEdwardsY(bytes).decompress()` -/
  decompress : BytesN 32 → Option E
  /-- `MontgomeryPoint(bytes).to_edwards(sign)` -/
  toEdwards : BytesN 32 → UInt8 → Option E
  /-- `point.to_montgomery()` -/
  toMontgomery : E → BytesN 32
  /-- `EdwardsPoint::nonspec_map_to_curve::<D>(bytes)` for the digest `D`. -/
  nonspecMapToCurve : (Bytes → BytesN 64) → Bytes → E
  /-- `PublicKey::from(&secret)` -/
  x25519PublicKey : BytesN 32 → BytesN 32
  /-- `secret.diffie_hellman(&public)` -/
  x25519DiffieHellman : BytesN 32 → BytesN 32 → BytesN 32
  /-- `Sha512` -/
  sha512 : Bytes → BytesN 64
  /-- HKDF-SHA512 of a salt, key material and info. -/
  hkdfSha512 : Bytes → Bytes → Bytes → K

variable {E K : Type} [AddCommGroup E] (C : Primitives E K)

/-- `point * scalar` -/
def mulScalar (P : E) (k : Scalar) : E := Torsion.smul k P

/-- `point.mul_by_cofactor()` -/
def mulByCofactor (P : E) : E := 8 • P

/-- The clamping of X25519: the number that a private key multiplies by. -/
def clampInteger (bytes : BytesN 32) : ℕ :=
  Bytes.leNat bytes.1 / 8 % 2 ^ 251 * 8 + 2 ^ 254

/-- The top bit of a compressed point: the sign of its x-coordinate. -/
def signBit (P : E) : UInt8 := ((C.compress P).1.getD 31 0 >>> 7) &&& 1

/-- The orders of the curve and of its base point. -/
structure GroupLaws : Prop where
  card : Nat.card E = 8 * basepointOrder
  basepoint : addOrderOf C.basepoint = basepointOrder

/-- The group has the order of the curve, and its coordinates are computed as
specified. -/
structure Laws : Prop extends GroupLaws C where
  decompress_compress : ∀ P, C.decompress (C.compress P) = some P
  sign_neg : ∀ P : E, P ≠ -P → signBit C (-P) ≠ signBit C P
  toEdwards_toMontgomery : ∀ P : E, P ≠ 0 → ∃ Q, C.toEdwards (C.toMontgomery P) 0 = some Q ∧
    (Q = P ∨ Q = -P) ∧ signBit C Q = 0
  toMontgomery_lt : ∀ P, Bytes.leNat (C.toMontgomery P).1 < 2 ^ 255
  toMontgomery_zero : ∀ P, Bytes.leNat (C.toMontgomery P).1 = 0 → 2 • P = 0
  publicKey : ∀ k, C.x25519PublicKey k = C.toMontgomery (clampInteger k • C.basepoint)
  dh_comm : ∀ a b, C.x25519DiffieHellman a (C.x25519PublicKey b)
    = C.x25519DiffieHellman b (C.x25519PublicKey a)

/-- Of these, what the keys of a seed rely on: a point and its negative share their
Montgomery coordinate and differ in sign, and X25519 multiplies the base point. -/
structure KeyLaws : Prop extends GroupLaws C where
  sign_neg : ∀ P : E, P ≠ -P → signBit C (-P) ≠ signBit C P
  toEdwards_toMontgomery : ∀ P : E, P ≠ 0 → ∃ Q, C.toEdwards (C.toMontgomery P) 0 = some Q ∧
    (Q = P ∨ Q = -P) ∧ signBit C Q = 0
  toMontgomery_lt : ∀ P, Bytes.leNat (C.toMontgomery P).1 < 2 ^ 255
  publicKey : ∀ k, C.x25519PublicKey k = C.toMontgomery (clampInteger k • C.basepoint)

variable {C} in
theorem Laws.keyLaws (hC : Laws C) : KeyLaws C where
  toGroupLaws := hC.toGroupLaws
  sign_neg := hC.sign_neg
  toEdwards_toMontgomery := hC.toEdwards_toMontgomery
  toMontgomery_lt := hC.toMontgomery_lt
  publicKey := hC.publicKey

section Laws

variable {C} (hC : GroupLaws C)

include hC

theorem GroupLaws.basepoint_torsion : basepointOrder • C.basepoint = 0 := by
  rw [← hC.basepoint]
  exact addOrderOf_nsmul_eq_zero _

theorem GroupLaws.basepoint_ne_zero : C.basepoint ≠ 0 := by
  intro h
  have horder := hC.basepoint
  rw [h, addOrderOf_zero] at horder
  exact basepointOrder_prime.one_lt.ne horder

/-- Clearing the cofactor leaves a point of the prime-order group. -/
theorem GroupLaws.cofactor_torsion (P : E) : basepointOrder • mulByCofactor P = 0 := by
  rw [mulByCofactor, ← mul_nsmul, ← hC.card]
  exact card_nsmul_eq_zero'

end Laws

theorem basepointOrder_ne_two : basepointOrder ≠ 2 := by
  decide +kernel

/-- A nonzero point of the prime-order group survives the cofactor. -/
theorem mulByCofactor_ne_zero {P : E} (hP : basepointOrder • P = 0) (hne : P ≠ 0) :
    mulByCofactor P ≠ 0 := by
  rw [mulByCofactor, Ne, Torsion.nsmul_eq_zero_iff hP basepointOrder_prime hne]
  decide +kernel

end Curve
