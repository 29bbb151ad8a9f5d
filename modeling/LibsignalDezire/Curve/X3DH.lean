/-
The X3DH key agreement (`src/x3dh.rs`).

* `x3dh_dh_ne_zero` — every Diffie-Hellman output that enters an accepted
  agreement is nonzero;
* `x3dh_agreement` — honest parties accept each other's keys, and share a secret
  exactly when both or neither use the one-time prekey.
-/
import LibsignalDezire.Curve.VXEdDSA

namespace Curve

variable {E K : Type} [AddCommGroup E] [DecidableEq E] (C : Primitives E K)

structure SignedPreKey where
  publicKey : BytesN 33
  signature : BytesN 96
  deriving DecidableEq

structure OneTimePreKey where
  publicKey : BytesN 33
  deriving DecidableEq

structure PreKeyBundle where
  identityKey : BytesN 33
  signedPrekey : SignedPreKey
  oneTimePrekey : Option OneTimePreKey
  deriving DecidableEq

inductive X3DHError where
  | invalidSignature
  | invalidKey
  | missingOneTimeKey
  | decodeFailed
  deriving DecidableEq, Repr

structure X3DHInitResult (K : Type) where
  sharedSecret : K
  ephemeralPublic : BytesN 33
  deriving DecidableEq

/-- `KDF(KM)`: HKDF-SHA512 of 32 bytes 0xFF and the key material, with a zero salt
and the info "X3DH".  Expanding to 32 bytes never fails. -/
def kdf (km : Bytes) : K :=
  C.hkdfSha512 (List.replicate 64 0) (List.replicate 32 0xFF ++ km) [0x58, 0x33, 0x44, 0x48]

def dh (privateKey : BytesN 32) (publicKeyEncoded : BytesN 33) :
    Outcome DecodeError (BytesN 32) := do
  let publicBytes ← decodePublicKey publicKeyEncoded
  pure (C.x25519DiffieHellman privateKey publicBytes)

/-- `is_valid_public_key(k₁) && is_valid_public_key(k₂) && …`: a key is checked only
if the ones before it are valid. -/
def allValid {ε : Type} : List (BytesN 33) → Outcome ε Bool
  | [] => pure true
  | key :: keys => do
    if ← isValidPublicKey C key then allValid keys else pure false

/-- The DH output with the one-time prekey, if there is one. -/
def dhOptional : Option (BytesN 32 × BytesN 33) → Outcome X3DHError Bytes
  | none => pure []
  | some (privateKey, publicKey) => do
    let dh4 ← (dh C privateKey publicKey).mapErr fun _ => .decodeFailed
    pure dh4.1

/-- The initiation after the validity checks: the signature, the DH outputs, the KDF. -/
def agreeWithBundle (identityPrivate : BytesN 32) (bundle : PreKeyBundle)
    (ephemeralPrivate : BytesN 32) : Outcome X3DHError (X3DHInitResult K) := do
  -- the signed prekey is already encoded in the bundle
  let encodedSpk := bundle.signedPrekey.publicKey
  let verified ← vxeddsaVerify C bundle.identityKey encodedSpk.1 bundle.signedPrekey.signature
  Outcome.ensure verified.isSome .invalidSignature
  let ephemeralPublic := genPubkey C ephemeralPrivate
  let dh1 ← (dh C identityPrivate bundle.signedPrekey.publicKey).mapErr fun _ => .decodeFailed
  let dh2 ← (dh C ephemeralPrivate bundle.identityKey).mapErr fun _ => .decodeFailed
  let dh3 ← (dh C ephemeralPrivate bundle.signedPrekey.publicKey).mapErr fun _ => .decodeFailed
  let dh4 ← dhOptional C (bundle.oneTimePrekey.map fun opk => (ephemeralPrivate, opk.publicKey))
  let chainedKeyMaterial := dh1.1 ++ dh2.1 ++ dh3.1 ++ dh4
  pure { sharedSecret := kdf C chainedKeyMaterial, ephemeralPublic }

/-- Initiate with a bundle; `ephemeralPrivate` is the key drawn from `OsRng`. -/
def x3dhInitiator (identityPrivate : BytesN 32) (bundle : PreKeyBundle)
    (ephemeralPrivate : BytesN 32) : Outcome X3DHError (X3DHInitResult K) := do
  let valid ← allValid C [bundle.identityKey, bundle.signedPrekey.publicKey]
  Outcome.ensure valid .invalidKey
  let valid ← allValid C (bundle.oneTimePrekey.map (·.publicKey)).toList
  Outcome.ensure valid .invalidKey
  agreeWithBundle C identityPrivate bundle ephemeralPrivate

/-- Respond to Alice's keys. -/
def x3dhResponder (identityPrivate signedPrekeyPrivate : BytesN 32)
    (oneTimePrekeyPrivate : Option (BytesN 32))
    (aliceIdentityPublic aliceEphemeralPublic : BytesN 33) : Outcome X3DHError K := do
  let valid ← allValid C [aliceIdentityPublic, aliceEphemeralPublic]
  Outcome.ensure valid .invalidKey
  let dh1 ← (dh C signedPrekeyPrivate aliceIdentityPublic).mapErr fun _ => .decodeFailed
  let dh2 ← (dh C identityPrivate aliceEphemeralPublic).mapErr fun _ => .decodeFailed
  let dh3 ← (dh C signedPrekeyPrivate aliceEphemeralPublic).mapErr fun _ => .decodeFailed
  let dh4 ← dhOptional C (oneTimePrekeyPrivate.map fun opk => (opk, aliceEphemeralPublic))
  let chainedKeyMaterial := dh1.1 ++ dh2.1 ++ dh3.1 ++ dh4
  pure (kdf C chainedKeyMaterial)

/-! ### Valid keys -/

omit [AddCommGroup E] [DecidableEq E] in
theorem dh_of_ok (privateKey : BytesN 32) {publicKey : BytesN 33} {key : BytesN 32}
    (h : decodePublicKey publicKey = .ok key) :
    dh C privateKey publicKey = .ok (C.x25519DiffieHellman privateKey key) := by
  rw [dh, h]
  rfl

theorem allValid_eq_true {ε : Type} {keys : List (BytesN 33)} :
    (allValid C keys : Outcome ε Bool) = .ok true ↔
      ∀ key ∈ keys, isValidPublicKey (ε := ε) C key = .ok true := by
  induction keys with
  | nil => simp [allValid]
  | cons key keys ih =>
    rw [List.forall_mem_cons, ← ih, allValid]
    cases h : (isValidPublicKey C key : Outcome ε Bool) with
    | ok b => cases b <;> simp
    | err e => exact absurd h (isValidPublicKey_ne_err C key e)
    | panic => simp

/-- The outcome of an agreement that goes through. -/
theorem x3dhInitiator_eq_ok {identityPrivate ephemeralPrivate : BytesN 32}
    {bundle : PreKeyBundle} {result : X3DHInitResult K}
    (h : x3dhInitiator C identityPrivate bundle ephemeralPrivate = .ok result) :
    ∀ key ∈ [bundle.identityKey, bundle.signedPrekey.publicKey]
        ++ (bundle.oneTimePrekey.map (·.publicKey)).toList,
      (isValidPublicKey C key : Outcome X3DHError Bool) = .ok true := by
  obtain ⟨valid, hvalid, h⟩ := Outcome.bind_eq_ok.mp h
  obtain ⟨htrue, h⟩ := Outcome.ensure_bind_eq_ok.mp h
  obtain ⟨valid', hvalid', h⟩ := Outcome.bind_eq_ok.mp h
  obtain ⟨htrue', -⟩ := Outcome.ensure_bind_eq_ok.mp h
  rw [htrue] at hvalid
  rw [htrue'] at hvalid'
  intro key hkey
  rcases List.mem_append.mp hkey with hkey | hkey
  · exact (allValid_eq_true C).mp hvalid key hkey
  · exact (allValid_eq_true C).mp hvalid' key hkey

theorem x3dhResponder_eq_ok {identityPrivate signedPrekeyPrivate : BytesN 32}
    {oneTimePrekeyPrivate : Option (BytesN 32)}
    {aliceIdentityPublic aliceEphemeralPublic : BytesN 33} {secret : K}
    (h : x3dhResponder C identityPrivate signedPrekeyPrivate oneTimePrekeyPrivate
      aliceIdentityPublic aliceEphemeralPublic = .ok secret) :
    ∀ key ∈ [aliceIdentityPublic, aliceEphemeralPublic],
      (isValidPublicKey C key : Outcome X3DHError Bool) = .ok true := by
  obtain ⟨valid, hvalid, h⟩ := Outcome.bind_eq_ok.mp h
  obtain ⟨htrue, -⟩ := Outcome.ensure_bind_eq_ok.mp h
  rw [htrue] at hvalid
  exact (allValid_eq_true C).mp hvalid

/-! ### Contributing keys -/

section Contributing

variable {C} (hC : GroupLaws C) (hL : LadderLaws C)

include hC hL

/-- A valid key gives a nonzero DH output with every private key. -/
theorem dh_ne_zero {ε : Type} {publicKey : BytesN 33}
    (h : (isValidPublicKey C publicKey : Outcome ε Bool) = .ok true) (privateKey : BytesN 32) :
    ∃ output, dh C privateKey publicKey = .ok output ∧ allZero output = false := by
  obtain ⟨key, P, hkey, -, hP, h8⟩ := (isValidPublicKey_eq_true C).mp h
  refine ⟨_, dh_of_ok C privateKey hkey, ?_⟩
  rw [hL.dh _ _ _ hP, ← Bool.not_eq_true, hL.toMontgomery_zero]
  obtain ⟨m, hm, hpos, hlt⟩ := clampInteger_eq privateKey
  -- the clamped multiple is one of `8P`, by a number prime to the order of `8P`
  rw [hm, mul_nsmul P 8 m, ← mul_nsmul' _ 2 m]
  change ¬ (2 * m) • mulByCofactor P = 0
  rw [Torsion.nsmul_eq_zero_iff (hC.cofactor_torsion P) basepointOrder_prime h8,
    basepointOrder_prime.dvd_mul]
  rintro (h2 | hdvd)
  · revert h2
    decide +kernel
  · exact absurd (Nat.le_of_dvd hpos hdvd) (by omega)

/-- **Accepted keys contribute.**  A valid key gives a nonzero DH output with every
private key, so none of the DH outputs of an agreement that goes through is zero. -/
theorem x3dh_dh_ne_zero :
    (∀ (publicKey : BytesN 33) (privateKey : BytesN 32),
      (isValidPublicKey C publicKey : Outcome X3DHError Bool) = .ok true →
      ∃ output, dh C privateKey publicKey = .ok output ∧ allZero output = false) ∧
    (∀ (identityPrivate ephemeralPrivate : BytesN 32) (bundle : PreKeyBundle)
      (result : X3DHInitResult K),
      x3dhInitiator C identityPrivate bundle ephemeralPrivate = .ok result →
      ∀ pair ∈ [(identityPrivate, bundle.signedPrekey.publicKey),
          (ephemeralPrivate, bundle.identityKey),
          (ephemeralPrivate, bundle.signedPrekey.publicKey)]
          ++ (bundle.oneTimePrekey.map fun opk => (ephemeralPrivate, opk.publicKey)).toList,
        ∃ output, dh C pair.1 pair.2 = .ok output ∧ allZero output = false) ∧
    ∀ (identityPrivate signedPrekeyPrivate : BytesN 32)
      (oneTimePrekeyPrivate : Option (BytesN 32))
      (aliceIdentityPublic aliceEphemeralPublic : BytesN 33) (secret : K),
      x3dhResponder C identityPrivate signedPrekeyPrivate oneTimePrekeyPrivate
        aliceIdentityPublic aliceEphemeralPublic = .ok secret →
      ∀ pair ∈ [(signedPrekeyPrivate, aliceIdentityPublic),
          (identityPrivate, aliceEphemeralPublic), (signedPrekeyPrivate, aliceEphemeralPublic)]
          ++ (oneTimePrekeyPrivate.map fun opk => (opk, aliceEphemeralPublic)).toList,
        ∃ output, dh C pair.1 pair.2 = .ok output ∧ allZero output = false := by
  refine ⟨fun publicKey privateKey h => dh_ne_zero hC hL h privateKey, ?_, ?_⟩
  · intro identityPrivate ephemeralPrivate bundle result h pair hpair
    refine dh_ne_zero hC hL (x3dhInitiator_eq_ok C h pair.2 ?_) pair.1
    cases hopk : bundle.oneTimePrekey with
    | none =>
      rw [hopk] at hpair
      fin_cases hpair <;> simp
    | some opk =>
      rw [hopk] at hpair
      fin_cases hpair <;> simp
  · intro identityPrivate signedPrekeyPrivate oneTimePrekeyPrivate aliceIdentityPublic
      aliceEphemeralPublic secret h pair hpair
    refine dh_ne_zero hC hL (x3dhResponder_eq_ok C h pair.2 ?_) pair.1
    cases oneTimePrekeyPrivate with
    | none => fin_cases hpair <;> simp
    | some opk => fin_cases hpair <;> simp

end Contributing

theorem x3dh_dh_ne_zero_of_seeds :
    ∃ output, dh Cyclic.primitives (Bytes.leArray 32 0)
      (genPubkey Cyclic.primitives (Bytes.leArray 32 1)) = .ok output ∧ allZero output = false :=
  (x3dh_dh_ne_zero Cyclic.groupLaws Cyclic.ladderLaws).1 _ _
    (isValidPublicKey_publicKey Cyclic.laws _)

/-! ### Agreement -/

/-- A published bundle. -/
def publish (identity signedPrekey : BytesN 32) (signature : BytesN 96)
    (oneTimePrekey : Option (BytesN 32)) : PreKeyBundle where
  identityKey := genPubkey C identity
  signedPrekey := { publicKey := genPubkey C signedPrekey, signature }
  oneTimePrekey := oneTimePrekey.map fun opk => { publicKey := genPubkey C opk }

omit [AddCommGroup E] [DecidableEq E] in
theorem dh_genPubkey (a b : BytesN 32) :
    dh C a (genPubkey C b) = .ok (C.x25519DiffieHellman a (C.x25519PublicKey b)) :=
  dh_of_ok C a (decodePublicKey_encodePublicKey _)

/-- The key material of the three agreements and the optional fourth. -/
def keyMaterial (dh1 dh2 dh3 : BytesN 32) (dh4 : Option (BytesN 32)) : Bytes :=
  dh1.1 ++ dh2.1 ++ dh3.1 ++ (dh4.map Subtype.val).getD []

/-- The key material of agreements between private and public keys. -/
def agreedMaterial (pair1 pair2 pair3 : BytesN 32 × BytesN 33)
    (pair4 : Option (BytesN 32 × BytesN 33)) : Outcome X3DHError Bytes := do
  let dh1 ← (dh C pair1.1 pair1.2).mapErr fun _ => .decodeFailed
  let dh2 ← (dh C pair2.1 pair2.2).mapErr fun _ => .decodeFailed
  let dh3 ← (dh C pair3.1 pair3.2).mapErr fun _ => .decodeFailed
  let dh4 ← dhOptional C pair4
  pure (dh1.1 ++ dh2.1 ++ dh3.1 ++ dh4)

/-- The key material that an initiator derives the secret from. -/
def initiatorMaterial (identityPrivate : BytesN 32) (bundle : PreKeyBundle)
    (ephemeralPrivate : BytesN 32) : Outcome X3DHError Bytes :=
  agreedMaterial C (identityPrivate, bundle.signedPrekey.publicKey)
    (ephemeralPrivate, bundle.identityKey) (ephemeralPrivate, bundle.signedPrekey.publicKey)
    (bundle.oneTimePrekey.map fun opk => (ephemeralPrivate, opk.publicKey))

/-- The key material that a responder derives the secret from. -/
def responderMaterial (identityPrivate signedPrekeyPrivate : BytesN 32)
    (oneTimePrekeyPrivate : Option (BytesN 32)) (identity ephemeral : BytesN 33) :
    Outcome X3DHError Bytes :=
  agreedMaterial C (signedPrekeyPrivate, identity) (identityPrivate, ephemeral)
    (signedPrekeyPrivate, ephemeral) (oneTimePrekeyPrivate.map fun opk => (opk, ephemeral))

/-- The KDF does not confuse the two key materials. -/
def KdfSeparates (material material' : Outcome X3DHError Bytes) : Prop :=
  ∀ km km', material = .ok km → material' = .ok km' → kdf C km = kdf C km' → km = km'

omit [AddCommGroup E] [DecidableEq E] in
theorem KdfSeparates.eq_iff {material material' : Outcome X3DHError Bytes} {km km' : Bytes}
    (h : KdfSeparates C material material') (hkm : material = .ok km)
    (hkm' : material' = .ok km') :
    kdf C km = kdf C km' ↔ km = km' := by
  constructor
  · exact h km km' hkm hkm'
  · intro heq
    rw [heq]

theorem length_keyMaterial (dh1 dh2 dh3 : BytesN 32) (dh4 : Option (BytesN 32)) :
    (keyMaterial dh1 dh2 dh3 dh4).length = if dh4.isSome then 128 else 96 := by
  cases dh4 with
  | none => simp [keyMaterial, dh1.2, dh2.2, dh3.2]
  | some dh4 => simp [keyMaterial, dh1.2, dh2.2, dh3.2, dh4.2]

section Agreement

variable {C} (hC : Laws C)

include hC

theorem x3dhInitiator_publish {aliceIdentity aliceEphemeral bobIdentity bobSigned : BytesN 32}
    (bobOneTime : Option (BytesN 32)) {Z : BytesN 64} {out : VXEdDSAOutput}
    (hsign : vxeddsaSign C bobIdentity (genPubkey C bobSigned).1 Z = .ok out)
    (hBv : mappedPoint C (calculateKeyPair C bobIdentity).2 (genPubkey C bobSigned).1 ≠ 0) :
    x3dhInitiator C aliceIdentity (publish C bobIdentity bobSigned out.signature bobOneTime)
        aliceEphemeral =
      .ok { sharedSecret := kdf C (keyMaterial
              (C.x25519DiffieHellman aliceIdentity (C.x25519PublicKey bobSigned))
              (C.x25519DiffieHellman aliceEphemeral (C.x25519PublicKey bobIdentity))
              (C.x25519DiffieHellman aliceEphemeral (C.x25519PublicKey bobSigned))
              (bobOneTime.map fun opk =>
                C.x25519DiffieHellman aliceEphemeral (C.x25519PublicKey opk)))
            ephemeralPublic := genPubkey C aliceEphemeral } := by
  have hvalid : ∀ u, (isValidPublicKey C (genPubkey C u) : Outcome X3DHError Bool) = .ok true :=
    isValidPublicKey_publicKey hC
  have hverify := vxeddsaVerify_signWith (ε := X3DHError) hC hBv
  rw [eq_signWith C hsign]
  cases bobOneTime with
  | none =>
    simp [x3dhInitiator, agreeWithBundle, publish, allValid, hvalid, hverify, dh_genPubkey,
      dhOptional, keyMaterial]
  | some opk =>
    simp [x3dhInitiator, agreeWithBundle, publish, allValid, hvalid, hverify, dh_genPubkey,
      dhOptional, keyMaterial]

theorem x3dhResponder_genPubkey (aliceIdentity aliceEphemeral bobIdentity bobSigned : BytesN 32)
    (bobOneTime : Option (BytesN 32)) :
    x3dhResponder C bobIdentity bobSigned bobOneTime (genPubkey C aliceIdentity)
        (genPubkey C aliceEphemeral) =
      .ok (kdf C (keyMaterial
        (C.x25519DiffieHellman bobSigned (C.x25519PublicKey aliceIdentity))
        (C.x25519DiffieHellman bobIdentity (C.x25519PublicKey aliceEphemeral))
        (C.x25519DiffieHellman bobSigned (C.x25519PublicKey aliceEphemeral))
        (bobOneTime.map fun opk =>
          C.x25519DiffieHellman opk (C.x25519PublicKey aliceEphemeral)))) := by
  have hvalid : ∀ u, (isValidPublicKey C (genPubkey C u) : Outcome X3DHError Bool) = .ok true :=
    isValidPublicKey_publicKey hC
  cases bobOneTime with
  | none => simp [x3dhResponder, allValid, hvalid, dh_genPubkey, dhOptional, keyMaterial]
  | some opk => simp [x3dhResponder, allValid, hvalid, dh_genPubkey, dhOptional, keyMaterial]

omit [AddCommGroup E] [DecidableEq E] hC in
/-- The key material of the initiator, from honest keys. -/
theorem initiatorMaterial_publish
    (aliceIdentity aliceEphemeral bobIdentity bobSigned : BytesN 32)
    (bobOneTime : Option (BytesN 32)) (signature : BytesN 96) :
    initiatorMaterial C aliceIdentity (publish C bobIdentity bobSigned signature bobOneTime)
        aliceEphemeral =
      .ok (keyMaterial (C.x25519DiffieHellman aliceIdentity (C.x25519PublicKey bobSigned))
        (C.x25519DiffieHellman aliceEphemeral (C.x25519PublicKey bobIdentity))
        (C.x25519DiffieHellman aliceEphemeral (C.x25519PublicKey bobSigned))
        (bobOneTime.map fun opk =>
          C.x25519DiffieHellman aliceEphemeral (C.x25519PublicKey opk))) := by
  cases bobOneTime with
  | none =>
    simp [initiatorMaterial, agreedMaterial, publish, dh_genPubkey, dhOptional, keyMaterial]
  | some opk =>
    simp [initiatorMaterial, agreedMaterial, publish, dh_genPubkey, dhOptional, keyMaterial]

omit [AddCommGroup E] [DecidableEq E] hC in
/-- The key material of the responder, from honest keys. -/
theorem responderMaterial_genPubkey
    (aliceIdentity aliceEphemeral bobIdentity bobSigned : BytesN 32)
    (bobOneTime : Option (BytesN 32)) :
    responderMaterial C bobIdentity bobSigned bobOneTime (genPubkey C aliceIdentity)
        (genPubkey C aliceEphemeral) =
      .ok (keyMaterial (C.x25519DiffieHellman bobSigned (C.x25519PublicKey aliceIdentity))
        (C.x25519DiffieHellman bobIdentity (C.x25519PublicKey aliceEphemeral))
        (C.x25519DiffieHellman bobSigned (C.x25519PublicKey aliceEphemeral))
        (bobOneTime.map fun opk =>
          C.x25519DiffieHellman opk (C.x25519PublicKey aliceEphemeral))) := by
  cases bobOneTime with
  | none => simp [responderMaterial, agreedMaterial, dh_genPubkey, dhOptional, keyMaterial]
  | some opk => simp [responderMaterial, agreedMaterial, dh_genPubkey, dhOptional, keyMaterial]

/-- **Agreement.**  On honest keys both sides succeed.  Their secrets are equal when
both use the one-time prekey or neither does, and differ otherwise, if the KDF does not
confuse the two key materials. -/
theorem x3dh_agreement
    {aliceIdentity aliceEphemeral bobIdentity bobSigned bobOneTime : BytesN 32} {Z : BytesN 64}
    {out : VXEdDSAOutput}
    (hsign : vxeddsaSign C bobIdentity (genPubkey C bobSigned).1 Z = .ok out)
    (hBv : mappedPoint C (calculateKeyPair C bobIdentity).2 (genPubkey C bobSigned).1 ≠ 0)
    (initiatorUses responderUses : Bool) :
    ∃ result secret,
      x3dhInitiator C aliceIdentity (publish C bobIdentity bobSigned out.signature
        (if initiatorUses then some bobOneTime else none)) aliceEphemeral = .ok result ∧
      x3dhResponder C bobIdentity bobSigned (if responderUses then some bobOneTime else none)
        (genPubkey C aliceIdentity) result.ephemeralPublic = .ok secret ∧
      (initiatorUses = responderUses → result.sharedSecret = secret) ∧
      (KdfSeparates C
          (initiatorMaterial C aliceIdentity (publish C bobIdentity bobSigned out.signature
            (if initiatorUses then some bobOneTime else none)) aliceEphemeral)
          (responderMaterial C bobIdentity bobSigned
            (if responderUses then some bobOneTime else none) (genPubkey C aliceIdentity)
            result.ephemeralPublic) →
        result.sharedSecret = secret → initiatorUses = responderUses) := by
  refine ⟨_, _, x3dhInitiator_publish hC _ hsign hBv,
    x3dhResponder_genPubkey hC aliceIdentity aliceEphemeral bobIdentity bobSigned _, ?_⟩
  dsimp only
  rw [initiatorMaterial_publish, responderMaterial_genPubkey]
  constructor
  · rintro rfl
    rw [hC.dh_comm aliceIdentity, hC.dh_comm aliceEphemeral bobIdentity,
      hC.dh_comm aliceEphemeral bobSigned]
    cases initiatorUses
    · rfl
    · simp [hC.dh_comm aliceEphemeral bobOneTime]
  · intro hkdf h
    -- the key materials differ in length when only one side uses the prekey
    have hlen := congrArg List.length (hkdf _ _ rfl rfl h)
    cases initiatorUses <;> cases responderUses <;> simp [length_keyMaterial] at hlen ⊢

end Agreement

theorem x3dh_agreement_of_seeds : ∃ out result secret,
    vxeddsaSign Cyclic.primitives (Bytes.leArray 32 2)
      (genPubkey Cyclic.primitives (Bytes.leArray 32 3)).1 (Bytes.leArray 64 0) = .ok out ∧
    x3dhInitiator Cyclic.primitives (Bytes.leArray 32 0)
      (publish Cyclic.primitives (Bytes.leArray 32 2) (Bytes.leArray 32 3) out.signature
        (some (Bytes.leArray 32 4))) (Bytes.leArray 32 1) = .ok result ∧
    x3dhResponder Cyclic.primitives (Bytes.leArray 32 2) (Bytes.leArray 32 3)
      (some (Bytes.leArray 32 4)) (genPubkey Cyclic.primitives (Bytes.leArray 32 0))
      result.ephemeralPublic = .ok secret ∧ result.sharedSecret = secret := by
  obtain ⟨out, hout⟩ := Cyclic.vxeddsaSign_ok (Bytes.leArray 32 2)
    (genPubkey Cyclic.primitives (Bytes.leArray 32 3)).1 (Bytes.leArray 64 0)
  obtain ⟨result, secret, hinit, hresp, heq, -⟩ := x3dh_agreement Cyclic.laws hout
    (Cyclic.mappedPoint_ne_zero _ _) true true
  exact ⟨out, result, secret, hout, hinit, hresp, heq rfl⟩

end Curve
