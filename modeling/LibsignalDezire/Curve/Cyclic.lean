/-
A cyclic group in the place of the curve.

Points are the integers modulo `8 * l`, with base point 8.  Their coordinates are
the distance to zero, which a point shares with its negative, and a sign; as on
the curve, zero and the point of order 2 have Montgomery coordinate 0.  The hash
is constant, and what HKDF is given is what it returns.

* `Cyclic.laws`, `Cyclic.ladderLaws` — what is assumed of the curve is consistent.
-/
import Mathlib.Data.ZMod.ValMinAbs
import LibsignalDezire.Curve.Utils

namespace Curve.Cyclic

instance : NeZero (8 * basepointOrder) :=
  ⟨Nat.mul_ne_zero (by decide) basepointOrder_prime.ne_zero⟩

/-- The integers modulo `8 * l`. -/
abbrev Point := ZMod (8 * basepointOrder)

/-- The distance of a point to zero. -/
def height (P : Point) : ℕ := P.valMinAbs.natAbs

def compress (P : Point) : BytesN 32 :=
  Bytes.leArray 32 (height P + if P.val ≤ 4 * basepointOrder then 0 else 2 ^ 255)

def decompress (bytes : BytesN 32) : Option Point :=
  let y := Bytes.leNat bytes.1
  if y < 2 ^ 255 then some (y : ℕ) else some (-(y % 2 ^ 255 : ℕ))

def toMontgomery (P : Point) : BytesN 32 :=
  Bytes.leArray 32 (height P % (4 * basepointOrder))

def toEdwards (u : BytesN 32) (_ : UInt8) : Option Point :=
  let x := Bytes.leNat u.1
  if x = 0 then some (4 * basepointOrder : ℕ)
  else if x < 4 * basepointOrder then some (x : ℕ) else none

/-- The operations on the cyclic group. -/
def primitives : Primitives Point (Bytes × Bytes × Bytes) where
  basepoint := (8 : ℕ)
  compress := compress
  decompress := decompress
  toEdwards := toEdwards
  toMontgomery := toMontgomery
  nonspecMapToCurve digest bytes := (Bytes.leNat (digest bytes).1 : ℕ)
  x25519PublicKey k := toMontgomery (clampInteger k • ((8 : ℕ) : Point))
  x25519DiffieHellman k u := match toEdwards (maskTopBit u) 0 with
    | some P => toMontgomery (clampInteger k • P)
    | none => Bytes.leArray 32 0
  sha512 _ := Bytes.leArray 64 1
  hkdfSha512 salt ikm info := (salt, ikm, info)

section Fields

variable (P : Point) (u k : BytesN 32) (sign : UInt8)

@[simp] theorem primitives_basepoint : primitives.basepoint = (8 : ℕ) := rfl

@[simp] theorem primitives_compress : primitives.compress P = compress P := rfl

@[simp] theorem primitives_decompress : primitives.decompress u = decompress u := rfl

@[simp] theorem primitives_toEdwards : primitives.toEdwards u sign = toEdwards u sign := rfl

@[simp] theorem primitives_toMontgomery : primitives.toMontgomery P = toMontgomery P := rfl

@[simp] theorem primitives_publicKey :
    primitives.x25519PublicKey k = toMontgomery (clampInteger k • ((8 : ℕ) : Point)) := rfl

theorem primitives_diffieHellman {P : Point} (h : toEdwards (maskTopBit u) 0 = some P) :
    primitives.x25519DiffieHellman k u = toMontgomery (clampInteger k • P) := by
  rw [primitives]
  dsimp only
  rw [h]

end Fields

/-! ### Heights -/

theorem height_neg (P : Point) : height (-P) = height P := ZMod.natAbs_valMinAbs_neg P

theorem height_le (P : Point) : height P ≤ 4 * basepointOrder := by
  have hle := ZMod.natAbs_valMinAbs_le P
  rw [height]
  omega

theorem natCast_height (P : Point) :
    (height P : Point) = if P.val ≤ 4 * basepointOrder then P else -P := by
  rw [height, ZMod.natCast_natAbs_valMinAbs, show 8 * basepointOrder / 2 = 4 * basepointOrder by
    omega]

theorem height_eq_zero {P : Point} : height P = 0 ↔ P = 0 := by
  rw [height, Int.natAbs_eq_zero, ZMod.valMinAbs_eq_zero]

theorem four_mul_lt : 4 * basepointOrder < 2 ^ 255 := by decide +kernel

theorem val_natCast {x : ℕ} (h : x ≤ 4 * basepointOrder) : ((x : ℕ) : Point).val = x := by
  have hpos := basepointOrder_prime.pos
  exact ZMod.val_natCast_of_lt (by omega)

theorem val_neg_of_ne_zero {P : Point} (h : P ≠ 0) : (-P).val = 8 * basepointOrder - P.val := by
  rw [ZMod.neg_val, if_neg h]

/-! ### Coordinates -/

theorem leNat_compress (P : Point) : Bytes.leNat (compress P).1
    = height P + if P.val ≤ 4 * basepointOrder then 0 else 2 ^ 255 := by
  have hle := height_le P
  have hlt := four_mul_lt
  rw [compress, Bytes.leArray_val, Bytes.leNat_leBytes]
  split <;> omega

theorem leNat_toMontgomery (P : Point) :
    Bytes.leNat (toMontgomery P).1 = height P % (4 * basepointOrder) := by
  have hlt := four_mul_lt
  have hpos := basepointOrder_prime.pos
  have hmod := Nat.mod_lt (height P) (show 4 * basepointOrder > 0 by omega)
  rw [toMontgomery, Bytes.leArray_val, Bytes.leNat_leBytes]
  omega

theorem toMontgomery_neg (P : Point) : toMontgomery (-P) = toMontgomery P := by
  rw [toMontgomery, height_neg, toMontgomery]

/-- The sign says in which half a point lies. -/
theorem signBit_eq_zero {P : Point} : signBit primitives P = 0 ↔ P.val ≤ 4 * basepointOrder := by
  have hle := height_le P
  have hlt := four_mul_lt
  have hzero : (0 : UInt8).toNat = 0 := rfl
  rw [← UInt8.toNat_inj, signBit_toNat, primitives_compress, leNat_compress, hzero]
  split <;> omega

/-- A point other than its negative lies in the other half. -/
theorem signBit_neg {P : Point} (h : P ≠ -P) :
    signBit primitives (-P) ≠ signBit primitives P := by
  have hne : P ≠ 0 := by
    rintro rfl
    exact h neg_zero.symm
  have hneg := val_neg_of_ne_zero hne
  have hval : P.val ≠ 4 * basepointOrder := by
    intro hval
    refine h (ZMod.val_injective _ ?_)
    omega
  have hzero := signBit_eq_zero (P := P)
  have hzero' := signBit_eq_zero (P := -P)
  rcases signBit_cases primitives P with h0 | h1
  · rw [h0]
    intro h0'
    have := hzero.mp h0
    have := hzero'.mp h0'
    omega
  · rw [h1]
    intro h1'
    have hone : (1 : UInt8) ≠ 0 := by decide
    have := mt hzero.mpr (h1 ▸ hone)
    have := mt hzero'.mpr (h1' ▸ hone)
    have := P.val_lt
    omega

theorem decompress_compress (P : Point) : decompress (compress P) = some P := by
  have hle := height_le P
  have hlt := four_mul_lt
  have hcast := natCast_height P
  rw [decompress, leNat_compress]
  split at hcast <;> rename_i hval
  · rw [if_pos hval, if_pos (by omega), Nat.add_zero, hcast]
  · rw [if_neg hval, if_neg (by omega), Nat.add_mod_right, Nat.mod_eq_of_lt (by omega), hcast,
      neg_neg]

theorem toEdwards_toMontgomery {P : Point} (hP : P ≠ 0) :
    ∃ Q, toEdwards (toMontgomery P) 0 = some Q ∧ (Q = P ∨ Q = -P) ∧
      signBit primitives Q = 0 := by
  have hle := height_le P
  have hpos : height P ≠ 0 := mt height_eq_zero.mp hP
  -- the point with the height of `P` in the lower half
  refine ⟨(height P : ℕ), ?_, ?_, signBit_eq_zero.mpr ((val_natCast hle).trans_le hle)⟩
  · rw [toEdwards, leNat_toMontgomery]
    rcases hle.eq_or_lt with heq | hlt
    · rw [heq, Nat.mod_self, if_pos rfl]
    · rw [Nat.mod_eq_of_lt hlt, if_neg hpos, if_pos hlt]
  · rw [natCast_height]
    split
    · exact .inl rfl
    · exact .inr rfl

/-- The coordinate 0 is that of the points of order 1 and 2. -/
theorem toMontgomery_eq_zero {P : Point} :
    Bytes.leNat (toMontgomery P).1 = 0 ↔ 2 • P = 0 := by
  have hle := height_le P
  have hpos := basepointOrder_prime.pos
  have hval := P.val_lt
  have hmin : height P = min P.val (8 * basepointOrder - P.val) :=
    ZMod.valMinAbs_natAbs_eq_min P
  have hzero := ZMod.val_eq_zero P
  rw [leNat_toMontgomery, two_nsmul, ← neg_eq_iff_add_eq_zero, ZMod.neg_eq_self_iff, ← hzero]
  rcases hle.eq_or_lt with heq | hlt
  · rw [heq, Nat.mod_self]
    omega
  · rw [Nat.mod_eq_of_lt hlt]
    omega

/-! ### Laws -/

theorem groupLaws : GroupLaws primitives where
  card := Nat.card_zmod _
  basepoint := by
    have hpos := basepointOrder_prime.pos
    rw [primitives_basepoint, ZMod.addOrderOf_coe 8 (by omega),
      Nat.gcd_eq_right (Dvd.intro _ rfl),
      Nat.mul_div_cancel_left _ (by decide)]

theorem ladderLaws : LadderLaws primitives where
  dh k u P hP := by
    rw [primitives_toEdwards] at hP
    rw [primitives_toMontgomery, primitives_diffieHellman u k hP]
  toMontgomery_zero P := by
    rw [allZero, ← Bytes.leNat_eq_zero, primitives_toMontgomery]
    exact toMontgomery_eq_zero

theorem leNat_toMontgomery_lt (P : Point) : Bytes.leNat (toMontgomery P).1 < 2 ^ 255 := by
  have hlt := four_mul_lt
  have hpos := basepointOrder_prime.pos
  have hmod := Nat.mod_lt (height P) (show 4 * basepointOrder > 0 by omega)
  exact (leNat_toMontgomery P).trans_lt (by omega)

/-- Both sides multiply the base point by both private keys. -/
theorem diffieHellman_publicKey (a b : BytesN 32) :
    primitives.x25519DiffieHellman a (primitives.x25519PublicKey b)
      = toMontgomery (clampInteger a • clampInteger b • ((8 : ℕ) : Point)) := by
  have hne := (clampInteger_point groupLaws b).2
  rw [primitives_basepoint] at hne
  obtain ⟨Q, hQ, hQP, -⟩ := toEdwards_toMontgomery hne
  rw [primitives_publicKey, primitives_diffieHellman (P := Q)]
  · rcases hQP with h | h <;> rw [h]
    rw [smul_neg, toMontgomery_neg]
  · rwa [maskTopBit_eq_self (leNat_toMontgomery_lt _)]

/-- **The laws hold.** -/
theorem laws : Laws primitives where
  toGroupLaws := groupLaws
  decompress_compress P := by
    rw [primitives_decompress, primitives_compress, decompress_compress]
  sign_neg _ := signBit_neg
  toEdwards_toMontgomery P hP := by
    simpa only [primitives_toEdwards, primitives_toMontgomery] using toEdwards_toMontgomery hP
  toMontgomery_lt P := by
    rw [primitives_toMontgomery]
    exact leNat_toMontgomery_lt P
  toMontgomery_zero P h := by
    rw [primitives_toMontgomery] at h
    exact toMontgomery_eq_zero.mp h
  publicKey k := by
    rw [primitives_publicKey, primitives_toMontgomery, primitives_basepoint]
  dh_comm a b := by
    rw [diffieHellman_publicKey, diffieHellman_publicKey, nsmul_left_comm]

/-! ### Hashes -/

theorem fromBytesModOrderWide_hashI (i : UInt8) (x : Bytes) :
    Scalar.fromBytesModOrderWide (hashI primitives i x) = 1 := by
  have hone : Bytes.leNat (Bytes.leBytes 64 1) = 1 := Bytes.leNat_leBytes (by decide)
  change ((Bytes.leNat (Bytes.leBytes 64 1) : ℕ) : Scalar) = 1
  rw [hone, Nat.cast_one]

/-- Everything is mapped to the base point. -/
theorem mulByCofactor_map (x : Bytes) :
    mulByCofactor (primitives.nonspecMapToCurve (signalHash2 primitives) x) = (8 : ℕ) := by
  have hone : Bytes.leNat (Bytes.leBytes 64 1) = 1 := Bytes.leNat_leBytes (by decide)
  change 8 • ((Bytes.leNat (Bytes.leBytes 64 1) : ℕ) : Point) = (8 : ℕ)
  rw [hone, nsmul_eq_mul, Nat.cast_one, mul_one]

theorem scalar_one_ne_zero : (1 : Scalar) ≠ 0 := by
  decide +kernel

end Curve.Cyclic
