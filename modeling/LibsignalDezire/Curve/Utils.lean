/-
Key encodings and conversions (`src/utils.rs`) and the hashes (`src/hashes.rs`).

* `leNat_clampPrivateKey` — what clamping does to the number;
* `calculateKeyPair_spec` — the key pair of a seed: a nonzero scalar and the
  multiple of the base point by it, with sign bit 0;
* `convertMont_publicKey` — converting the public key of a seed back gives the
  Edwards point of its key pair.
-/
import LibsignalDezire.Curve.Basic

namespace Curve

variable {E K : Type} [AddCommGroup E] (C : Primitives E K) {ε : Type}

/-! ### Encodings -/

inductive DecodeError where
  | invalidLength
  | invalidPrefix
  deriving DecidableEq, Repr

/-- Encode a public key by prepending 0x05. -/
def encodePublicKey (key : BytesN 32) : BytesN 33 := ⟨0x05 :: key.1, by simp [key.2]⟩

def decodePublicKey (key : BytesN 33) : Outcome DecodeError (BytesN 32) :=
  if key.1.getD 0 0 ≠ 0x05 then .err .invalidPrefix
  else .ok (Bytes.sub key 1 32 (by omega))

theorem decodePublicKey_encodePublicKey (key : BytesN 32) :
    decodePublicKey (encodePublicKey key) = .ok key := by
  have hsub : Bytes.sub (encodePublicKey key) 1 32 (by omega) = key :=
    Subtype.ext (by simp [Bytes.sub, encodePublicKey, List.take_of_length_le, key.2])
  rw [decodePublicKey, hsub]
  rfl

/-- Apply the clamping of Curve25519 to a private key. -/
def clampPrivateKey (u : BytesN 32) : BytesN 32 :=
  ⟨((u.1.modify 0 (· &&& 248)).modify 31 (· &&& 127)).modify 31 (· ||| 64), by simp [u.2]⟩

/-! ### Conversions -/

/-- Convert a u-coordinate to an Edwards point; aborts if there is none. -/
def uToY (u : BytesN 32) : Outcome ε E := Outcome.expect (C.toEdwards u 0)

/-- `u_masked[31] &= 127` -/
def maskTopBit (u : BytesN 32) : BytesN 32 := ⟨u.1.modify 31 (· &&& 127), by simp [u.2]⟩

/-- Convert a public key to an Edwards point, ignoring its top bit. -/
def convertMont (u : BytesN 32) : Outcome ε E := uToY C (maskTopBit u)

/-- The Ed25519 key pair of a seed, with the sign of the point made 0. -/
def calculateKeyPair (u : BytesN 32) : Scalar × E :=
  let k := Scalar.fromBytesModOrder (clampPrivateKey u)
  let ed := mulScalar C.basepoint k
  let sign := signBit C ed
  let privKey := if sign = 1 then -k else k
  let publicKey := mulScalar C.basepoint privKey
  (privKey, publicKey)

/-- `decoded.iter().all(|&b| b == 0)` -/
def allZero (key : BytesN 32) : Bool := key.1.all (· == 0)

/-- Accept a public key that decodes, is not all-zero and is not of low order. -/
def isValidPublicKey [DecidableEq E] (pk : BytesN 33) : Outcome ε Bool :=
  match decodePublicKey pk with
  | .ok decoded =>
    if allZero decoded then .ok false
    else do
      let edwards ← convertMont C decoded
      if edwards = 0 then pure false
      else if mulByCofactor edwards = 0 then pure false
      else pure true
  | _ => .ok false

/-! ### Hashes -/

/-- The hash with domain separation index `i`: SHA-512 of `2 ^ 256 - 1 - i`,
little-endian, and the input. -/
def hashI (i : UInt8) (x : Bytes) : BytesN 64 :=
  C.sha512 ((0xFF - i) :: List.replicate 31 0xFF ++ x)

/-- The digest `SignalHash2`. -/
def signalHash2 (x : Bytes) : BytesN 64 :=
  C.sha512 (0xFD :: List.replicate 31 0xFF ++ x)

/-! ### Clamping -/

/-- A byte array taken apart at its first and last byte. -/
theorem exists_ends (u : BytesN 32) : ∃ b₀ mid b₃₁, mid.length = 30 ∧
    u.1 = b₀ :: mid ++ [b₃₁] := by
  obtain ⟨u, hu⟩ := u
  obtain ⟨b₀, rest, rfl⟩ := List.exists_of_length_succ u hu
  have hrest : rest ≠ [] := by
    rintro rfl
    cases hu
  refine ⟨b₀, rest.dropLast, rest.getLast hrest, ?_, ?_⟩
  · rw [List.length_dropLast]
    simp only [List.length_cons] at hu
    omega
  · rw [List.cons_append, List.dropLast_append_getLast]

theorem modify_last {mid : Bytes} {n : ℕ} (hmid : mid.length = n) (b : UInt8)
    (f : UInt8 → UInt8) :
    (mid ++ [b]).modify n f = mid ++ [f b] := by
  subst hmid
  induction mid with
  | nil => rfl
  | cons c mid ih => simpa using ih

theorem leNat_ends (b₀ b₃₁ : UInt8) {mid : Bytes} (hmid : mid.length = 30) :
    Bytes.leNat (b₀ :: mid ++ [b₃₁])
      = b₀.toNat + 256 * (Bytes.leNat mid + 256 ^ 30 * b₃₁.toNat) := by
  rw [List.cons_append, Bytes.leNat, Bytes.leNat_append, hmid]
  simp [Bytes.leNat]

theorem leNat_clampPrivateKey (u : BytesN 32) :
    Bytes.leNat (clampPrivateKey u).1 = clampInteger u := by
  obtain ⟨b₀, mid, b₃₁, hmid, hu⟩ := exists_ends u
  have hlow : ∀ n < 256, n &&& 248 = n / 8 * 8 := by decide +kernel
  have hhigh : ∀ n < 256, (n &&& 127) ||| 64 = n % 64 + 64 := by decide +kernel
  have hclamp : (clampPrivateKey u).1 = (b₀ &&& 248) :: mid ++ [(b₃₁ &&& 127) ||| 64] := by
    simp [clampPrivateKey, hu, modify_last hmid]
  have h0 : (b₀ &&& 248).toNat = b₀.toNat / 8 * 8 := by
    rw [UInt8.toNat_and]
    exact hlow _ b₀.toNat_lt
  have h31 : ((b₃₁ &&& 127) ||| 64).toNat = b₃₁.toNat % 64 + 64 := by
    rw [UInt8.toNat_or, UInt8.toNat_and]
    exact hhigh _ b₃₁.toNat_lt
  have hmidlt := Bytes.leNat_lt mid
  have hb₀ := b₀.toNat_lt
  have hb₃₁ := b₃₁.toNat_lt
  rw [hmid] at hmidlt
  rw [hclamp, leNat_ends _ _ hmid, h0, h31, clampInteger, hu, leNat_ends _ _ hmid]
  omega

theorem leNat_maskTopBit (u : BytesN 32) :
    Bytes.leNat (maskTopBit u).1 = Bytes.leNat u.1 % 2 ^ 255 := by
  obtain ⟨b₀, mid, b₃₁, hmid, hu⟩ := exists_ends u
  have hmask : ∀ n < 256, n &&& 127 = n % 128 := by decide +kernel
  have hmasked : (maskTopBit u).1 = b₀ :: mid ++ [b₃₁ &&& 127] := by
    simp [maskTopBit, hu, modify_last hmid]
  have h31 : (b₃₁ &&& 127).toNat = b₃₁.toNat % 128 := by
    rw [UInt8.toNat_and]
    exact hmask _ b₃₁.toNat_lt
  have hmidlt := Bytes.leNat_lt mid
  have hb₀ := b₀.toNat_lt
  rw [hmid] at hmidlt
  rw [hmasked, leNat_ends _ _ hmid, h31, hu, leNat_ends _ _ hmid]
  omega

/-- Masking does not change a number below `2 ^ 255`. -/
theorem maskTopBit_eq_self {u : BytesN 32} (h : Bytes.leNat u.1 < 2 ^ 255) :
    maskTopBit u = u := by
  refine Subtype.ext (Bytes.leNat_inj ((maskTopBit u).2.trans u.2.symm) ?_)
  rw [leNat_maskTopBit, Nat.mod_eq_of_lt h]

/-- A clamped number is 8 times a nonzero number below the order. -/
theorem clampInteger_eq (u : BytesN 32) :
    ∃ m, clampInteger u = 8 * m ∧ 0 < m ∧ m < basepointOrder := by
  refine ⟨Bytes.leNat u.1 / 8 % 2 ^ 251 + 2 ^ 251, ?_, by omega, ?_⟩
  · rw [clampInteger]
    omega
  · rw [basepointOrder_eq]
    omega

/-- No clamped number is a multiple of the order. -/
theorem not_dvd_clampInteger (u : BytesN 32) : ¬ basepointOrder ∣ clampInteger u := by
  obtain ⟨m, hm, hpos, hlt⟩ := clampInteger_eq u
  rw [hm, basepointOrder_prime.dvd_mul]
  rintro (h8 | hdvd)
  · revert h8
    decide +kernel
  · exact absurd (Nat.le_of_dvd hpos hdvd) (by omega)

/-! ### Key pairs -/

omit [AddCommGroup E] in
/-- The sign is the top bit of the compressed point. -/
theorem signBit_toNat (P : E) : (signBit C P).toNat
    = Bytes.leNat (C.compress P).1 / 2 ^ 255 := by
  obtain ⟨b₀, mid, b₃₁, hmid, hP⟩ := exists_ends (C.compress P)
  have htop : (C.compress P).1.getD 31 0 = b₃₁ := by
    rw [hP, List.getD_eq_getElem?_getD, List.getElem?_append_right (by simp [hmid])]
    simp [hmid]
  have hb₀ := b₀.toNat_lt
  have hb₃₁ := b₃₁.toNat_lt
  have hmidlt := Bytes.leNat_lt mid
  have h1 : (1 : UInt8).toNat = 1 := rfl
  have h7 : (7 : UInt8).toNat % 8 = 7 := rfl
  rw [hmid] at hmidlt
  rw [signBit, htop, UInt8.toNat_and, UInt8.toNat_shiftRight, h1, h7, Nat.and_one_is_mod,
    Nat.shiftRight_eq_div_pow, hP, leNat_ends _ _ hmid]
  omega

omit [AddCommGroup E] in
theorem signBit_cases (P : E) : signBit C P = 0 ∨ signBit C P = 1 := by
  have hbit : ∀ n < 256, n &&& 1 = 0 ∨ n &&& 1 = 1 := by decide +kernel
  rcases hbit _ ((C.compress P).1.getD 31 0 >>> 7).toNat_lt with h | h
  · exact .inl (UInt8.toNat_inj.mp (by rw [signBit, UInt8.toNat_and]; exact h))
  · exact .inr (UInt8.toNat_inj.mp (by rw [signBit, UInt8.toNat_and]; exact h))

theorem clamp_ne_zero (u : BytesN 32) : Scalar.fromBytesModOrder (clampPrivateKey u) ≠ 0 := by
  rw [Scalar.fromBytesModOrder, leNat_clampPrivateKey, Ne, ZMod.natCast_eq_zero_iff]
  exact not_dvd_clampInteger u

/-- The key pair of a seed. -/
structure IsKeyPair (u : BytesN 32) (a : Scalar) (A : E) : Prop where
  scalar_ne_zero : a ≠ 0
  eq_mulScalar : A = mulScalar C.basepoint a
  sign : signBit C A = 0
  eq_or_eq_neg : A = clampInteger u • C.basepoint ∨ A = -(clampInteger u • C.basepoint)

section Seeds

variable {C} (hC : GroupLaws C)

include hC

/-- The point of a seed, before its sign is adjusted. -/
theorem mulScalar_clamp (u : BytesN 32) :
    mulScalar C.basepoint (Scalar.fromBytesModOrder (clampPrivateKey u))
      = clampInteger u • C.basepoint := by
  rw [mulScalar, Scalar.fromBytesModOrder, leNat_clampPrivateKey,
    Torsion.smul_natCast hC.basepoint_torsion]

/-- The point of a seed has order `l`. -/
theorem clampInteger_point (u : BytesN 32) : basepointOrder • clampInteger u • C.basepoint = 0 ∧
    clampInteger u • C.basepoint ≠ 0 := by
  rw [← mulScalar_clamp hC u]
  exact ⟨Torsion.nsmul_smul hC.basepoint_torsion _, Torsion.smul_ne_zero hC.basepoint_torsion
    basepointOrder_prime hC.basepoint_ne_zero (clamp_ne_zero u)⟩

end Seeds

section KeyPairs

variable {C} (hC : KeyLaws C)

include hC

theorem calculateKeyPair_spec (u : BytesN 32) :
    IsKeyPair C u (calculateKeyPair C u).1 (calculateKeyPair C u).2 := by
  have hP := mulScalar_clamp hC.toGroupLaws u
  obtain ⟨htorsion, hne⟩ := clampInteger_point hC.toGroupLaws u
  unfold calculateKeyPair
  dsimp only
  rw [hP]
  split
  case isTrue hsign =>
    have hneg : mulScalar C.basepoint (-Scalar.fromBytesModOrder (clampPrivateKey u))
        = -(clampInteger u • C.basepoint) := by
      rw [← hP, mulScalar, mulScalar, Torsion.smul_neg hC.basepoint_torsion]
    have hflip := hC.sign_neg _ (Torsion.ne_neg htorsion basepointOrder_prime
      basepointOrder_ne_two hne)
    refine ⟨neg_ne_zero.mpr (clamp_ne_zero u), rfl, ?_, .inr hneg⟩
    rw [hneg]
    rw [hsign] at hflip
    exact (signBit_cases C _).resolve_right hflip
  case isFalse hsign =>
    refine ⟨clamp_ne_zero u, rfl, ?_, .inl hP⟩
    rw [hP]
    exact (signBit_cases C _).resolve_right hsign

/-- The public key of a seed, converted back, is the Edwards point of its key pair. -/
theorem convertMont_publicKey (u : BytesN 32) :
    (convertMont C (C.x25519PublicKey u) : Outcome ε E) = .ok (calculateKeyPair C u).2 := by
  obtain ⟨htorsion, hne⟩ := clampInteger_point hC.toGroupLaws u
  have hflip := hC.sign_neg _ (Torsion.ne_neg htorsion basepointOrder_prime
    basepointOrder_ne_two hne)
  obtain ⟨-, -, hsign, hA⟩ := calculateKeyPair_spec hC u
  obtain ⟨Q, hQ, hQP, hQsign⟩ := hC.toEdwards_toMontgomery _ hne
  rw [convertMont, hC.publicKey, maskTopBit_eq_self (hC.toMontgomery_lt _), uToY, hQ,
    Outcome.expect_some]
  -- of a point and its negative only one has sign bit 0
  congr 1
  rcases hQP with rfl | rfl <;> rcases hA with hA | hA <;> rw [hA] at hsign ⊢
  · rw [hsign, hQsign] at hflip
    exact absurd rfl hflip
  · rw [hsign, hQsign] at hflip
    exact absurd rfl hflip

/-- The Edwards point of a key pair has order `l`. -/
theorem calculateKeyPair_torsion (u : BytesN 32) :
    basepointOrder • (calculateKeyPair C u).2 = 0 ∧ (calculateKeyPair C u).2 ≠ 0 := by
  obtain ⟨htorsion, hne⟩ := clampInteger_point hC.toGroupLaws u
  rcases (calculateKeyPair_spec hC u).eq_or_eq_neg with h | h <;> rw [h]
  · exact ⟨htorsion, hne⟩
  · exact ⟨by rw [smul_neg, htorsion, neg_zero], neg_ne_zero.mpr hne⟩

end KeyPairs

/-! ### Validity -/

/-- The public key decodes to the point `A`. -/
def PublicPoint (publicKey : BytesN 33) (A : E) : Prop :=
  ∃ key, decodePublicKey publicKey = .ok key ∧ C.toEdwards (maskTopBit key) 0 = some A

omit [AddCommGroup E] in
theorem convertMont_eq_ok {u : BytesN 32} {A : E} :
    (convertMont C u : Outcome ε E) = .ok A ↔ C.toEdwards (maskTopBit u) 0 = some A := by
  rw [convertMont, uToY]
  cases C.toEdwards (maskTopBit u) 0 <;> simp

/-- X25519 multiplies the point of the u-coordinate, and zero encodes exactly the
points of order 1 and 2. -/
structure LadderLaws : Prop where
  dh : ∀ k u P, C.toEdwards (maskTopBit u) 0 = some P →
    C.x25519DiffieHellman k u = C.toMontgomery (clampInteger k • P)
  toMontgomery_zero : ∀ P, allZero (C.toMontgomery P) ↔ 2 • P = 0

section Valid

variable [DecidableEq E]

theorem isValidPublicKey_of_ok {publicKey : BytesN 33} {key : BytesN 32}
    (h : decodePublicKey publicKey = .ok key) :
    (isValidPublicKey C publicKey : Outcome ε Bool) =
      if allZero key then .ok false
      else match C.toEdwards (maskTopBit key) 0 with
        | none => .panic
        | some A => .ok (decide (mulByCofactor A ≠ 0)) := by
  rw [isValidPublicKey, h]
  dsimp only
  split
  · rfl
  rw [convertMont, uToY]
  cases C.toEdwards (maskTopBit key) 0 with
  | none => rfl
  | some A =>
    by_cases hA : A = 0
    · simp [hA, mulByCofactor]
    · by_cases h8 : mulByCofactor A = 0 <;> simp [hA, h8]

theorem isValidPublicKey_eq_true {publicKey : BytesN 33} :
    (isValidPublicKey C publicKey : Outcome ε Bool) = .ok true ↔
      ∃ key A, decodePublicKey publicKey = .ok key ∧ allZero key = false ∧
        C.toEdwards (maskTopBit key) 0 = some A ∧ mulByCofactor A ≠ 0 := by
  cases hkey : decodePublicKey publicKey with
  | ok key =>
    rw [isValidPublicKey_of_ok C hkey]
    cases hzero : allZero key <;> cases hpoint : C.toEdwards (maskTopBit key) 0 <;>
      simp [hzero, hpoint]
  | err e => simp [isValidPublicKey, hkey]
  | panic => simp [isValidPublicKey, hkey]

/-- Checking a key aborts exactly if it has no point and is not all-zero. -/
theorem isValidPublicKey_eq_panic {publicKey : BytesN 33} :
    (isValidPublicKey C publicKey : Outcome ε Bool) = .panic ↔
      ∃ key, decodePublicKey publicKey = .ok key ∧ allZero key = false ∧
        C.toEdwards (maskTopBit key) 0 = none := by
  cases hkey : decodePublicKey publicKey with
  | ok key =>
    rw [isValidPublicKey_of_ok C hkey]
    cases hzero : allZero key <;> cases hpoint : C.toEdwards (maskTopBit key) 0 <;>
      simp [hzero, hpoint]
  | err e => simp [isValidPublicKey, hkey]
  | panic => simp [isValidPublicKey, hkey]

theorem isValidPublicKey_ne_err (publicKey : BytesN 33) (e : ε) :
    isValidPublicKey C publicKey ≠ .err e := by
  cases hkey : decodePublicKey publicKey with
  | ok key =>
    rw [isValidPublicKey_of_ok C hkey]
    cases allZero key <;> cases C.toEdwards (maskTopBit key) 0 <;> simp
  | err e => simp [isValidPublicKey, hkey]
  | panic => simp [isValidPublicKey, hkey]

variable {C} in
/-- The public key of a seed is valid. -/
theorem isValidPublicKey_publicKey (hC : Laws C) (u : BytesN 32) :
    (isValidPublicKey C (encodePublicKey (C.x25519PublicKey u)) : Outcome ε Bool)
      = .ok true := by
  obtain ⟨htorsion, hne⟩ := calculateKeyPair_torsion hC.keyLaws u
  obtain ⟨hPtorsion, hPne⟩ := clampInteger_point hC.toGroupLaws u
  rw [isValidPublicKey_eq_true]
  refine ⟨_, _, decodePublicKey_encodePublicKey _, ?_,
    (convertMont_eq_ok (ε := Unit) C).mp (convertMont_publicKey hC.keyLaws u),
    mulByCofactor_ne_zero htorsion hne⟩
  -- an all-zero key would be that of a point of order 2
  by_contra hzero
  rw [Bool.not_eq_false, allZero, ← Bytes.leNat_eq_zero, hC.publicKey] at hzero
  have hdouble := hC.toMontgomery_zero _ hzero
  rw [Torsion.nsmul_eq_zero_iff hPtorsion basepointOrder_prime hPne] at hdouble
  revert hdouble
  decide +kernel

end Valid

end Curve
