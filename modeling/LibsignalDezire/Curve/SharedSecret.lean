/-
What the shared secret of a key agreement is bound to.

A Diffie-Hellman output does not depend on the sign of the peer's point, on a part
of low order or on the top bit of the encoding, and on nothing less than that.

* `dh_eq_iff` — when a private key gives the same output with two public keys;
* `responder_secret_iff`, `initiator_secret_iff` — **when two agreements of one party
  give the same secret**: exactly if all keys of the peer are the same but for that;
* `handshake_secret_iff` — **when the two sides of a handshake get the same secret**,
  whatever is done to it on the way.
-/
import LibsignalDezire.Curve.Binding
import LibsignalDezire.Curve.Outcomes

namespace Curve

variable {E K : Type} [AddCommGroup E] (C : Primitives E K) {ε : Type}

/-- X25519 multiplies points, and the u-coordinate tells points apart up to sign. -/
structure CoordinateLaws : Prop extends GroupLaws C, LadderLaws C where
  publicKey : ∀ k, C.x25519PublicKey k = C.toMontgomery (clampInteger k • C.basepoint)
  toMontgomery_eq : ∀ P Q : E, P ≠ 0 → Q ≠ 0 →
    (C.toMontgomery P = C.toMontgomery Q ↔ P = Q ∨ P = -Q)

/-- The points of the two public keys differ by a sign and a point of low order only. -/
def SameKey (publicKey publicKey' : BytesN 33) : Prop :=
  ∃ A A', PublicPoint C publicKey A ∧ PublicPoint C publicKey' A' ∧
    (mulByCofactor A = mulByCofactor A' ∨ mulByCofactor A = -mulByCofactor A')

/-- The two points of prime order differ by a sign only. -/
def SamePoint (P Q : E) : Prop := P = Q ∨ P = -Q

/-! ### Multiples up to sign -/

section Multiples

variable {P Q : E} (hP : basepointOrder • P = 0)

include hP

theorem samePoint_smul_iff (hQ : basepointOrder • Q = 0) {k : Scalar} (hk : k ≠ 0) :
    SamePoint (mulScalar P k) (mulScalar Q k) ↔ SamePoint P Q := by
  have hneg : basepointOrder • (-Q) = 0 := by rw [smul_neg, hQ, neg_zero]
  have hmul : -mulScalar Q k = mulScalar (-Q) k := by
    rw [mulScalar, mulScalar, Torsion.smul, Torsion.smul, smul_neg]
  rw [SamePoint, hmul]
  constructor
  · rintro (h | h)
    · exact .inl (Torsion.smul_right_injective hP basepointOrder_prime hQ hk h)
    · exact .inr (Torsion.smul_right_injective hP basepointOrder_prime hneg hk h)
  · rintro (h | h)
    · exact .inl (by rw [h])
    · exact .inr (by rw [h])

theorem samePoint_scalar_iff (hne : P ≠ 0) {k k' : Scalar} :
    SamePoint (mulScalar P k) (mulScalar P k') ↔ k = k' ∨ k = -k' := by
  rw [SamePoint, mulScalar, mulScalar, ← Torsion.smul_neg hP]
  constructor
  · rintro (h | h)
    · exact .inl (Torsion.smul_injective hP basepointOrder_prime hne h)
    · exact .inr (Torsion.smul_injective hP basepointOrder_prime hne h)
  · rintro (h | h)
    · exact .inl (by rw [h])
    · exact .inr (by rw [h])

end Multiples

theorem SamePoint.trans {P Q R : E} (h : SamePoint P Q) (h' : SamePoint Q R) :
    SamePoint P R := by
  rcases h with rfl | rfl
  · exact h'
  · rcases h' with rfl | rfl
    · exact .inr rfl
    · exact .inl (neg_neg R)

theorem SamePoint.symm {P Q : E} (h : SamePoint P Q) : SamePoint Q P := by
  rcases h with rfl | rfl
  · exact .inl rfl
  · exact .inr (neg_neg Q).symm

theorem SamePoint.smul {P Q : E} (h : SamePoint P Q) (k : Scalar) :
    SamePoint (mulScalar P k) (mulScalar Q k) := by
  rcases h with rfl | rfl
  · exact .inl rfl
  · exact .inr (by rw [mulScalar, mulScalar, Torsion.smul, Torsion.smul, smul_neg])

/-- What a clamped private key multiplies the eightfold of a point by. -/
theorem exists_scalar (privateKey : BytesN 32) : ∃ k : Scalar, k ≠ 0 ∧
    ∀ A : E, clampInteger privateKey • A = mulScalar (mulByCofactor A) k := by
  obtain ⟨m, hm, hpos, hlt⟩ := clampInteger_eq privateKey
  have hval : ((m : ℕ) : Scalar).val = m := ZMod.val_natCast_of_lt hlt
  refine ⟨(m : ℕ), ?_, fun A => ?_⟩
  · intro hzero
    rw [hzero, ZMod.val_zero] at hval
    omega
  · rw [mulScalar, Torsion.smul, hval, mulByCofactor, hm, mul_nsmul]

/-! ### Diffie-Hellman outputs -/

section Outputs

variable {C} (hC : CoordinateLaws C)

include hC

/-- Outputs are equal exactly if the points are, up to sign. -/
theorem CoordinateLaws.output_eq_iff {A A' : E} (hA : mulByCofactor A ≠ 0)
    (hA' : mulByCofactor A' ≠ 0) {k k' : BytesN 32} {a a' : Scalar} (ha : a ≠ 0) (ha' : a' ≠ 0)
    (hk : clampInteger k • A = mulScalar (mulByCofactor A) a)
    (hk' : clampInteger k' • A' = mulScalar (mulByCofactor A') a') :
    C.toMontgomery (clampInteger k • A) = C.toMontgomery (clampInteger k' • A') ↔
      SamePoint (mulScalar (mulByCofactor A) a) (mulScalar (mulByCofactor A') a') := by
  have hne : ∀ (B : E) (b : Scalar), mulByCofactor B ≠ 0 → b ≠ 0 →
      mulScalar (mulByCofactor B) b ≠ 0 := by
    intro B b hB hb
    exact Torsion.smul_ne_zero (hC.toGroupLaws.cofactor_torsion B) basepointOrder_prime hB hb
  rw [hk, hk']
  exact hC.toMontgomery_eq _ _ (hne A a hA ha) (hne A' a' hA' ha')

/-- One private key tells points apart up to sign and low order. -/
theorem CoordinateLaws.output_eq_iff_samePoint (k : BytesN 32) {A A' : E}
    (hA : mulByCofactor A ≠ 0) (hA' : mulByCofactor A' ≠ 0) :
    C.toMontgomery (clampInteger k • A) = C.toMontgomery (clampInteger k • A') ↔
      SamePoint (mulByCofactor A) (mulByCofactor A') := by
  obtain ⟨a, ha, hmul⟩ := exists_scalar (E := E) k
  rw [hC.output_eq_iff hA hA' ha ha (hmul A) (hmul A'), samePoint_smul_iff
    (hC.toGroupLaws.cofactor_torsion A) (hC.toGroupLaws.cofactor_torsion A') ha]

/-- Points that are the same up to sign and low order tell private keys apart as
their public keys do. -/
theorem CoordinateLaws.output_eq_iff_publicKey {k k' : BytesN 32} {A A' : E}
    (hA : mulByCofactor A ≠ 0) (hA' : mulByCofactor A' ≠ 0)
    (hsame : SamePoint (mulByCofactor A) (mulByCofactor A')) :
    C.toMontgomery (clampInteger k • A) = C.toMontgomery (clampInteger k' • A') ↔
      genPubkey C k = genPubkey C k' := by
  obtain ⟨a, ha, hmul⟩ := exists_scalar (E := E) k
  obtain ⟨a', ha', hmul'⟩ := exists_scalar (E := E) k'
  have hB : mulByCofactor C.basepoint ≠ 0 := mulByCofactor_ne_zero
    hC.toGroupLaws.basepoint_torsion hC.toGroupLaws.basepoint_ne_zero
  have hpub : genPubkey C k = genPubkey C k' ↔
      C.toMontgomery (clampInteger k • C.basepoint) =
        C.toMontgomery (clampInteger k' • C.basepoint) := by
    rw [genPubkey, genPubkey, hC.publicKey, hC.publicKey]
    constructor
    · intro h
      have hdecode := congrArg decodePublicKey h
      rw [decodePublicKey_encodePublicKey, decodePublicKey_encodePublicKey] at hdecode
      exact Outcome.ok.inj hdecode
    · intro h
      rw [h]
  have hpoints : SamePoint (mulScalar (mulByCofactor A) a) (mulScalar (mulByCofactor A') a') ↔
      SamePoint (mulScalar (mulByCofactor A) a) (mulScalar (mulByCofactor A) a') := by
    constructor
    · intro h
      exact h.trans (hsame.symm.smul a')
    · intro h
      exact h.trans (hsame.smul a')
  rw [hC.output_eq_iff hA hA' ha ha' (hmul A) (hmul' A'), hpoints, hpub,
    hC.output_eq_iff hB hB ha ha' (hmul _) (hmul' _),
    samePoint_scalar_iff (hC.toGroupLaws.cofactor_torsion A) hA,
    samePoint_scalar_iff (hC.toGroupLaws.cofactor_torsion C.basepoint) hB]

end Outputs

/-! ### The key material of an agreement -/

theorem keyMaterial_inj {dh1 dh2 dh3 dh1' dh2' dh3' : BytesN 32}
    {dh4 dh4' : Option (BytesN 32)} :
    keyMaterial dh1 dh2 dh3 dh4 = keyMaterial dh1' dh2' dh3' dh4' ↔
      dh1 = dh1' ∧ dh2 = dh2' ∧ dh3 = dh3' ∧ dh4 = dh4' := by
  constructor
  · intro h
    have hlen := congrArg List.length h
    simp only [keyMaterial, List.append_assoc] at h
    obtain ⟨h1, h⟩ := Bytes.append_inj h
    obtain ⟨h2, h⟩ := Bytes.append_inj h
    obtain ⟨h3, h⟩ := Bytes.append_inj h
    refine ⟨h1, h2, h3, ?_⟩
    cases dh4 with
    | none =>
      cases dh4' with
      | none => rfl
      | some d => simp [length_keyMaterial] at hlen
    | some d =>
      cases dh4' with
      | none => simp [length_keyMaterial] at hlen
      | some d' => exact congrArg some (Subtype.ext h)
  · rintro ⟨rfl, rfl, rfl, rfl⟩
    rfl

/-- Values that tell apart what they belong to do so where they are optional, too. -/
theorem eq_iff_rel {α α' β : Type} {R : α → β → Prop} {R' : α' → β → Prop} {T : α → α' → Prop}
    (hT : ∀ a b a' b', R a b → R' a' b' → (b = b' ↔ T a a')) {x : Option α} {x' : Option α'}
    {y y' : Option β} (h : Option.Rel R x y) (h' : Option.Rel R' x' y') :
    y = y' ↔ Option.Rel T x x' := by
  cases h with
  | none =>
    cases h' with
    | none => exact iff_of_true rfl .none
    | some hb' => constructor <;> intro h <;> cases h
  | some hb =>
    cases h' with
    | none => constructor <;> intro h <;> cases h
    | some hb' =>
      rw [Option.some_inj, hT _ _ _ _ hb hb']
      constructor
      · intro h
        exact .some h
      · intro h
        cases h with
        | some h => exact h

theorem rel_map {α β : Type} (f : α → β) (x : Option α) :
    Option.Rel (fun a b => b = f a) x (x.map f) := by
  cases x with
  | none => exact .none
  | some a => exact .some rfl

variable [DecidableEq E]

/-- A valid public key and its point. -/
def ValidPoint (publicKey : BytesN 33) (A : E) : Prop :=
  PublicPoint C publicKey A ∧ mulByCofactor A ≠ 0

omit [DecidableEq E] in
theorem ValidPoint.sameKey_iff {publicKey publicKey' : BytesN 33} {A A' : E}
    (h : ValidPoint C publicKey A) (h' : ValidPoint C publicKey' A') :
    SameKey C publicKey publicKey' ↔ SamePoint (mulByCofactor A) (mulByCofactor A') := by
  constructor
  · rintro ⟨B, B', hB, hB', hsame⟩
    obtain rfl := h.1.unique C hB
    obtain rfl := h'.1.unique C hB'
    exact hsame
  · intro hsame
    exact ⟨A, A', h.1, h'.1, hsame⟩

theorem validPoint_of_valid {publicKey : BytesN 33}
    (h : (isValidPublicKey C publicKey : Outcome ε Bool) = .ok true) :
    ∃ A, ValidPoint C publicKey A := by
  obtain ⟨key, A, hkey, -, hA, h8⟩ := (isValidPublicKey_eq_true C).mp h
  exact ⟨A, ⟨key, hkey, hA⟩, h8⟩

section Material

variable {C} (hL : LadderLaws C)

include hL

omit [DecidableEq E] in
theorem dh_eq_output (privateKey : BytesN 32) {publicKey : BytesN 33} {A : E}
    (h : ValidPoint C publicKey A) :
    dh C privateKey publicKey = .ok (C.toMontgomery (clampInteger privateKey • A)) := by
  obtain ⟨⟨key, hkey, hA⟩, -⟩ := h
  rw [dh_of_ok C privateKey hkey, hL.dh _ _ _ hA]

omit [DecidableEq E] in
/-- The optional fourth output. -/
theorem dhOptional_eq_output {pair : Option (BytesN 32 × BytesN 33)}
    (h : ∀ p ∈ pair, ∃ A, ValidPoint C p.2 A) :
    ∃ output : Option (BytesN 32), dhOptional C pair = .ok ((output.map Subtype.val).getD []) ∧
      Option.Rel (fun p d => ∃ A, ValidPoint C p.2 A ∧
        d = C.toMontgomery (clampInteger p.1 • A)) pair output := by
  rcases pair with _ | ⟨privateKey, publicKey⟩
  · exact ⟨none, rfl, .none⟩
  · obtain ⟨A, hA⟩ := h _ rfl
    refine ⟨some _, ?_, .some ⟨A, hA, rfl⟩⟩
    rw [dhOptional, dh_eq_output hL privateKey hA]
    rfl

/-- **The secret of a responder**, in terms of the points of the initiator's keys. -/
theorem x3dhResponder_points {identityPrivate signedPrekeyPrivate : BytesN 32}
    {oneTimePrekeyPrivate : Option (BytesN 32)}
    {aliceIdentityPublic aliceEphemeralPublic : BytesN 33} {secret : K}
    (h : x3dhResponder C identityPrivate signedPrekeyPrivate oneTimePrekeyPrivate
      aliceIdentityPublic aliceEphemeralPublic = .ok secret) :
    ∃ A X km, ValidPoint C aliceIdentityPublic A ∧ ValidPoint C aliceEphemeralPublic X ∧
      km = keyMaterial (C.toMontgomery (clampInteger signedPrekeyPrivate • A))
        (C.toMontgomery (clampInteger identityPrivate • X))
        (C.toMontgomery (clampInteger signedPrekeyPrivate • X))
        (oneTimePrekeyPrivate.map fun opk => C.toMontgomery (clampInteger opk • X)) ∧
      responderMaterial C identityPrivate signedPrekeyPrivate oneTimePrekeyPrivate
        aliceIdentityPublic aliceEphemeralPublic = .ok km ∧ secret = kdf C km := by
  have hvalid := x3dhResponder_eq_ok C h
  obtain ⟨A, hA⟩ := validPoint_of_valid C (hvalid aliceIdentityPublic (by simp))
  obtain ⟨X, hX⟩ := validPoint_of_valid C (hvalid aliceEphemeralPublic (by simp))
  have hall : (allValid C [aliceIdentityPublic, aliceEphemeralPublic] : Outcome X3DHError Bool)
      = .ok true := (allValid_eq_true C).mpr hvalid
  refine ⟨A, X, _, hA, hX, rfl, ?_⟩
  rw [x3dhResponder, hall, dh_eq_output hL _ hA, dh_eq_output hL _ hX, dh_eq_output hL _ hX] at h
  rw [responderMaterial, agreedMaterial, dh_eq_output hL _ hA, dh_eq_output hL _ hX,
    dh_eq_output hL _ hX]
  cases oneTimePrekeyPrivate with
  | none =>
    cases h
    exact ⟨rfl, rfl⟩
  | some opk =>
    simp only [Option.map_some, dhOptional, dh_eq_output hL opk hX] at h ⊢
    cases h
    exact ⟨rfl, rfl⟩

/-- With valid keys a response succeeds. -/
theorem x3dhResponder_of_valid (identityPrivate signedPrekeyPrivate : BytesN 32)
    (oneTimePrekeyPrivate : Option (BytesN 32))
    {aliceIdentityPublic aliceEphemeralPublic : BytesN 33}
    {A X : E} (hA : ValidPoint C aliceIdentityPublic A)
    (hX : ValidPoint C aliceEphemeralPublic X)
    (hall : (allValid C [aliceIdentityPublic, aliceEphemeralPublic] : Outcome X3DHError Bool)
      = .ok true) :
    ∃ secret, x3dhResponder C identityPrivate signedPrekeyPrivate oneTimePrekeyPrivate
      aliceIdentityPublic aliceEphemeralPublic = .ok secret := by
  rw [x3dhResponder, hall, dh_eq_output hL _ hA, dh_eq_output hL _ hX, dh_eq_output hL _ hX]
  cases oneTimePrekeyPrivate with
  | none => exact ⟨_, rfl⟩
  | some opk =>
    simp only [Option.map_some, dhOptional, dh_eq_output hL opk hX]
    exact ⟨_, rfl⟩

/-- **The secret of an initiator**, in terms of the points of the bundle. -/
theorem x3dhInitiator_points {identityPrivate ephemeralPrivate : BytesN 32}
    {bundle : PreKeyBundle} {result : X3DHInitResult K}
    (h : x3dhInitiator C identityPrivate bundle ephemeralPrivate = .ok result) :
    ∃ B S dh4 km, ValidPoint C bundle.identityKey B ∧
      ValidPoint C bundle.signedPrekey.publicKey S ∧
      Option.Rel (fun opk d => ∃ O, ValidPoint C (OneTimePreKey.publicKey opk) O ∧
        d = C.toMontgomery (clampInteger ephemeralPrivate • O)) bundle.oneTimePrekey dh4 ∧
      km = keyMaterial (C.toMontgomery (clampInteger identityPrivate • S))
        (C.toMontgomery (clampInteger ephemeralPrivate • B))
        (C.toMontgomery (clampInteger ephemeralPrivate • S)) dh4 ∧
      initiatorMaterial C identityPrivate bundle ephemeralPrivate = .ok km ∧
      result = { sharedSecret := kdf C km
                 ephemeralPublic := genPubkey C ephemeralPrivate } := by
  have hvalid := x3dhInitiator_eq_ok C h
  obtain ⟨B, hB⟩ := validPoint_of_valid C (hvalid bundle.identityKey (by simp))
  obtain ⟨S, hS⟩ := validPoint_of_valid C (hvalid bundle.signedPrekey.publicKey (by simp))
  have hpair : ∀ p ∈ bundle.oneTimePrekey.map fun opk => (ephemeralPrivate, opk.publicKey),
      ∃ O, ValidPoint C p.2 O := by
    intro p hp
    obtain ⟨opk, hopk, rfl⟩ := Option.map_eq_some_iff.mp hp
    exact validPoint_of_valid C (hvalid opk.publicKey (by simp [hopk]))
  obtain ⟨dh4, hdh4, hrel⟩ := dhOptional_eq_output hL hpair
  refine ⟨B, S, dh4, _, hB, hS, ?_, rfl, ?_, ?_⟩
  · cases hopk : bundle.oneTimePrekey with
    | none =>
      rw [hopk] at hrel
      cases hrel
      exact .none
    | some opk =>
      rw [hopk] at hrel
      cases hrel with
      | some hO => exact .some hO
  · rw [initiatorMaterial, agreedMaterial, dh_eq_output hL _ hS, dh_eq_output hL _ hB,
      dh_eq_output hL _ hS, hdh4]
    rfl
  · have hall : (allValid C bundle.keys : Outcome X3DHError Bool) = .ok true :=
      (allValid_eq_true C).mpr hvalid
    rw [x3dhInitiator_eq, hall, Outcome.ok_bind, Outcome.ensure_true, Outcome.ok_bind,
      agreeWithBundle] at h
    obtain ⟨verified, -, h⟩ := Outcome.bind_eq_ok.mp h
    obtain ⟨-, h⟩ := Outcome.ensure_bind_eq_ok.mp h
    rw [dh_eq_output hL _ hS, dh_eq_output hL _ hB, dh_eq_output hL _ hS, hdh4] at h
    cases h
    rfl

end Material

/-! ### Equal secrets -/

section Secrets

variable {C} (hC : CoordinateLaws C)

include hC

/-- **Equal secrets of a responder.**  Whatever keys two initiators send, and whichever
one-time prekeys they use, the secrets are equal exactly if the identity keys and the
ephemeral keys are the same up to sign, low order and encoding, and the one-time
prekeys have the same public key, unless the KDF confuses the two key materials. -/
theorem responder_secret_iff {identityPrivate signedPrekeyPrivate : BytesN 32}
    {opk opk' : Option (BytesN 32)} {identity identity' ephemeral ephemeral' : BytesN 33}
    {secret secret' : K}
    (h : x3dhResponder C identityPrivate signedPrekeyPrivate opk identity ephemeral = .ok secret)
    (h' : x3dhResponder C identityPrivate signedPrekeyPrivate opk' identity' ephemeral'
      = .ok secret')
    (hkdf : KdfSeparates C
      (responderMaterial C identityPrivate signedPrekeyPrivate opk identity ephemeral)
      (responderMaterial C identityPrivate signedPrekeyPrivate opk' identity' ephemeral')) :
    secret = secret' ↔ SameKey C identity identity' ∧ SameKey C ephemeral ephemeral' ∧
      opk.map (genPubkey C) = opk'.map (genPubkey C) := by
  obtain ⟨A, X, _, hA, hX, rfl, hkm, rfl⟩ := x3dhResponder_points hC.toLadderLaws h
  obtain ⟨A', X', _, hA', hX', rfl, hkm', rfl⟩ := x3dhResponder_points hC.toLadderLaws h'
  rw [hkdf.eq_iff C hkm hkm', keyMaterial_inj, hC.output_eq_iff_samePoint _ hA.2 hA'.2,
    hC.output_eq_iff_samePoint _ hX.2 hX'.2, hC.output_eq_iff_samePoint _ hX.2 hX'.2,
    hA.sameKey_iff C hA', hX.sameKey_iff C hX']
  -- given equal ephemeral points, the fourth output tells one-time prekeys apart
  have hfourth : SamePoint (mulByCofactor X) (mulByCofactor X') →
      ((opk.map fun o => C.toMontgomery (clampInteger o • X))
          = (opk'.map fun o => C.toMontgomery (clampInteger o • X')) ↔
        opk.map (genPubkey C) = opk'.map (genPubkey C)) := by
    intro hsame
    cases opk with
    | none => cases opk' <;> simp
    | some o =>
      cases opk' with
      | none => simp
      | some o' =>
        rw [Option.map_some, Option.map_some, Option.map_some, Option.map_some,
          Option.some_inj, Option.some_inj]
        exact hC.output_eq_iff_publicKey hX.2 hX'.2 hsame
  constructor
  · rintro ⟨hidentity, hephemeral, -, h4⟩
    exact ⟨hidentity, hephemeral, (hfourth hephemeral).mp h4⟩
  · rintro ⟨hidentity, hephemeral, h4⟩
    exact ⟨hidentity, hephemeral, hephemeral, (hfourth hephemeral).mpr h4⟩

/-- **Equal secrets of an initiator.**  Whatever bundles it is given, the secrets of two
initiations are equal exactly if their ephemeral keys are equal, both or neither bundle
has a one-time prekey, and all keys of the bundles are the same up to sign, low order
and encoding, unless the KDF confuses the two key materials. -/
theorem initiator_secret_iff {identityPrivate ephemeral ephemeral' : BytesN 32}
    {bundle bundle' : PreKeyBundle} {result result' : X3DHInitResult K}
    (h : x3dhInitiator C identityPrivate bundle ephemeral = .ok result)
    (h' : x3dhInitiator C identityPrivate bundle' ephemeral' = .ok result')
    (hkdf : KdfSeparates C (initiatorMaterial C identityPrivate bundle ephemeral)
      (initiatorMaterial C identityPrivate bundle' ephemeral')) :
    result.sharedSecret = result'.sharedSecret ↔
      result.ephemeralPublic = result'.ephemeralPublic ∧
      SameKey C bundle.identityKey bundle'.identityKey ∧
      SameKey C bundle.signedPrekey.publicKey bundle'.signedPrekey.publicKey ∧
      Option.Rel (fun opk opk' => SameKey C (OneTimePreKey.publicKey opk) opk'.publicKey)
        bundle.oneTimePrekey bundle'.oneTimePrekey := by
  obtain ⟨B, S, dh4, _, hB, hS, hrel, rfl, hkm, rfl⟩ := x3dhInitiator_points hC.toLadderLaws h
  obtain ⟨B', S', dh4', _, hB', hS', hrel', rfl, hkm', rfl⟩ :=
    x3dhInitiator_points hC.toLadderLaws h'
  dsimp only
  rw [hkdf.eq_iff C hkm hkm', keyMaterial_inj, hC.output_eq_iff_samePoint _ hS.2 hS'.2,
    hB.sameKey_iff C hB', hS.sameKey_iff C hS']
  -- with equal ephemeral keys, each output tells points apart
  have houtput : ∀ {O O' : E}, mulByCofactor O ≠ 0 → mulByCofactor O' ≠ 0 →
      genPubkey C ephemeral = genPubkey C ephemeral' →
      (C.toMontgomery (clampInteger ephemeral • O)
        = C.toMontgomery (clampInteger ephemeral' • O') ↔
        SamePoint (mulByCofactor O) (mulByCofactor O')) := by
    intro O O' hO hO' hpub
    have hswap : C.toMontgomery (clampInteger ephemeral • O)
        = C.toMontgomery (clampInteger ephemeral' • O) :=
      (hC.output_eq_iff_publicKey hO hO (.inl rfl)).mpr hpub
    rw [hswap]
    exact hC.output_eq_iff_samePoint _ hO hO'
  have hfourth : genPubkey C ephemeral = genPubkey C ephemeral' → (dh4 = dh4' ↔
      Option.Rel (fun opk opk' => SameKey C (OneTimePreKey.publicKey opk) opk'.publicKey)
        bundle.oneTimePrekey bundle'.oneTimePrekey) := by
    intro hpub
    refine eq_iff_rel ?_ hrel hrel'
    rintro opk _ opk' _ ⟨O, hO, rfl⟩ ⟨O', hO', rfl⟩
    rw [houtput hO.2 hO'.2 hpub, hO.sameKey_iff C hO']
  constructor
  · rintro ⟨hsigned, hidentity, h3, h4⟩
    have hpub := (hC.output_eq_iff_publicKey hS.2 hS'.2 hsigned).mp h3
    exact ⟨hpub, (houtput hB.2 hB'.2 hpub).mp hidentity, hsigned, (hfourth hpub).mp h4⟩
  · rintro ⟨hpub, hidentity, hsigned, h4⟩
    exact ⟨hsigned, (houtput hB.2 hB'.2 hpub).mpr hidentity,
      (houtput hS.2 hS'.2 hpub).mpr hsigned, (hfourth hpub).mpr h4⟩

omit hC in
/-- The point of an honest public key. -/
theorem exists_validPoint (hL : Laws C) (seed : BytesN 32) :
    ∃ A, ValidPoint C (genPubkey C seed) A :=
  validPoint_of_valid (ε := Empty) C (isValidPublicKey_publicKey hL seed)

omit [DecidableEq E] in
/-- Two honest keys give the same output in either order. -/
theorem output_comm (hL : Laws C) {a b : BytesN 32} {A B : E}
    (hA : ValidPoint C (genPubkey C a) A) (hB : ValidPoint C (genPubkey C b) B) :
    C.toMontgomery (clampInteger a • B) = C.toMontgomery (clampInteger b • A) := by
  have hab := dh_eq_output hC.toLadderLaws a hB
  have hba := dh_eq_output hC.toLadderLaws b hA
  rw [dh_genPubkey] at hab hba
  exact (Outcome.ok.inj hab).symm.trans ((hL.dh_comm a b).trans (Outcome.ok.inj hba))

/-- The key materials of the two sides of a handshake. -/
theorem keyMaterial_handshake_iff (hL : Laws C)
    {aliceIdentity aliceEphemeral bobIdentity bobSigned : BytesN 32}
    {bobOneTime : Option (BytesN 32)} {prekey : Option OneTimePreKey} {dh4 : Option (BytesN 32)}
    {identity ephemeral : BytesN 33} {B S A X : E}
    (hB : ValidPoint C (genPubkey C bobIdentity) B) (hS : ValidPoint C (genPubkey C bobSigned) S)
    (hrel : Option.Rel (fun opk d => ∃ O, ValidPoint C (OneTimePreKey.publicKey opk) O ∧
      d = C.toMontgomery (clampInteger aliceEphemeral • O)) prekey dh4)
    (hA : ValidPoint C identity A) (hX : ValidPoint C ephemeral X) :
    keyMaterial (C.toMontgomery (clampInteger aliceIdentity • S))
        (C.toMontgomery (clampInteger aliceEphemeral • B))
        (C.toMontgomery (clampInteger aliceEphemeral • S)) dh4
      = keyMaterial (C.toMontgomery (clampInteger bobSigned • A))
        (C.toMontgomery (clampInteger bobIdentity • X))
        (C.toMontgomery (clampInteger bobSigned • X))
        (bobOneTime.map fun o => C.toMontgomery (clampInteger o • X)) ↔
      SameKey C (genPubkey C aliceIdentity) identity ∧
      SameKey C (genPubkey C aliceEphemeral) ephemeral ∧
      Option.Rel (fun opk prekey => SameKey C (genPubkey C prekey) (OneTimePreKey.publicKey opk))
        prekey bobOneTime := by
  obtain ⟨A₀, hA₀⟩ := exists_validPoint hL aliceIdentity
  obtain ⟨X₀, hX₀⟩ := exists_validPoint hL aliceEphemeral
  -- on the initiator's side, too, the responder's private keys multiply her points
  rw [output_comm hC hL hA₀ hS, output_comm hC hL hX₀ hB, output_comm hC hL hX₀ hS,
    keyMaterial_inj, hC.output_eq_iff_samePoint _ hA₀.2 hA.2,
    hC.output_eq_iff_samePoint _ hX₀.2 hX.2, hC.output_eq_iff_samePoint _ hX₀.2 hX.2,
    hA₀.sameKey_iff C hA, hX₀.sameKey_iff C hX]
  have hfourth : SamePoint (mulByCofactor X₀) (mulByCofactor X) →
      (dh4 = (bobOneTime.map fun o => C.toMontgomery (clampInteger o • X)) ↔
        Option.Rel (fun opk prekey =>
          SameKey C (genPubkey C prekey) (OneTimePreKey.publicKey opk))
          prekey bobOneTime) := by
    intro hsame
    refine eq_iff_rel ?_ hrel (rel_map _ bobOneTime)
    rintro opk _ o _ ⟨O, hO, rfl⟩ rfl
    obtain ⟨O₀, hO₀⟩ := exists_validPoint hL o
    have hown : C.toMontgomery (clampInteger o • X)
        = C.toMontgomery (clampInteger aliceEphemeral • O₀) := by
      rw [← (hC.output_eq_iff_samePoint o hX₀.2 hX.2).mpr hsame]
      exact output_comm hC hL hO₀ hX₀
    rw [hown, eq_comm, hC.output_eq_iff_samePoint _ hO₀.2 hO.2, hO₀.sameKey_iff C hO]
  constructor
  · rintro ⟨hidentity, hephemeral, -, h4⟩
    exact ⟨hidentity, hephemeral, (hfourth hephemeral).mp h4⟩
  · rintro ⟨hidentity, hephemeral, h4⟩
    exact ⟨hidentity, hephemeral, hephemeral, (hfourth hephemeral).mpr h4⟩

/-- **Equal secrets of the two sides.**  Between honest parties, with the responder's own
identity key and signed prekey in the bundle, whatever else is tampered with: the secrets
are equal exactly if the initiator's keys and the one-time prekey arrive as they were
sent, up to sign, low order and encoding, unless the KDF confuses the two key
materials. -/
theorem handshake_secret_iff (hL : Laws C)
    {aliceIdentity aliceEphemeral bobIdentity bobSigned : BytesN 32}
    {bobOneTime : Option (BytesN 32)} {bundle : PreKeyBundle} {result : X3DHInitResult K}
    {identity ephemeral : BytesN 33} {secret : K}
    (hidentity : bundle.identityKey = genPubkey C bobIdentity)
    (hsigned : bundle.signedPrekey.publicKey = genPubkey C bobSigned)
    (h : x3dhInitiator C aliceIdentity bundle aliceEphemeral = .ok result)
    (h' : x3dhResponder C bobIdentity bobSigned bobOneTime identity ephemeral = .ok secret)
    (hkdf : KdfSeparates C (initiatorMaterial C aliceIdentity bundle aliceEphemeral)
      (responderMaterial C bobIdentity bobSigned bobOneTime identity ephemeral)) :
    result.sharedSecret = secret ↔ SameKey C (genPubkey C aliceIdentity) identity ∧
      SameKey C result.ephemeralPublic ephemeral ∧
      Option.Rel (fun opk prekey => SameKey C (genPubkey C prekey) (OneTimePreKey.publicKey opk))
        bundle.oneTimePrekey bobOneTime := by
  obtain ⟨B, S, dh4, _, hB, hS, hrel, rfl, hkm, rfl⟩ := x3dhInitiator_points hC.toLadderLaws h
  obtain ⟨A, X, _, hA, hX, rfl, hkm', rfl⟩ := x3dhResponder_points hC.toLadderLaws h'
  rw [hidentity] at hB
  rw [hsigned] at hS
  rw [hkdf.eq_iff C hkm hkm', keyMaterial_handshake_iff hC hL hB hS hrel hA hX]

end Secrets

/-! ### Two encodings of one key -/

namespace Cyclic

theorem coordinateLaws : CoordinateLaws primitives where
  toGroupLaws := groupLaws
  toLadderLaws := ladderLaws
  publicKey := laws.publicKey
  toMontgomery_eq P Q hP hQ := by
    rw [primitives_toMontgomery, primitives_toMontgomery]
    constructor
    · intro h
      have hmod := congrArg (fun u => Bytes.leNat u.1) h
      rw [leNat_toMontgomery, leNat_toMontgomery] at hmod
      have hpos : height P ≠ 0 := mt height_eq_zero.mp hP
      have hpos' : height Q ≠ 0 := mt height_eq_zero.mp hQ
      -- a height between 1 and `4 * l` is determined by its remainder
      have hheight : height P = height Q := by
        rcases (height_le P).eq_or_lt with hle | hlt
        · rcases (height_le Q).eq_or_lt with hle' | hlt'
          · rw [hle, hle']
          · rw [hle, Nat.mod_self, Nat.mod_eq_of_lt hlt'] at hmod
            exact absurd hmod.symm hpos'
        · rcases (height_le Q).eq_or_lt with hle' | hlt'
          · rw [hle', Nat.mod_self, Nat.mod_eq_of_lt hlt] at hmod
            exact absurd hmod hpos
          · rwa [Nat.mod_eq_of_lt hlt, Nat.mod_eq_of_lt hlt'] at hmod
      have hcast : (height P : Point) = height Q := by rw [hheight]
      rw [natCast_height, natCast_height] at hcast
      split at hcast <;> split at hcast
      · exact .inl hcast
      · exact .inr hcast
      · exact .inr (neg_eq_iff_eq_neg.mp hcast)
      · exact .inl (neg_inj.mp hcast)
    · rintro (rfl | rfl)
      · rfl
      · exact toMontgomery_neg Q

theorem kdfSeparates (material material' : Outcome X3DHError Bytes) :
    KdfSeparates primitives material material' := by
  intro km km' _ _ h
  exact List.append_cancel_left (congrArg (fun k => k.2.1) h)

end Cyclic

/-- The public key of a seed, with the top bit set. -/
def withTopBit (seed : BytesN 32) : BytesN 33 :=
  encodePublicKey (Bytes.leArray 32
    (Bytes.leNat (Cyclic.primitives.x25519PublicKey seed).1 + 2 ^ 255))

theorem validPoint_withTopBit {seed : BytesN 32} {A : Cyclic.Point}
    (h : ValidPoint Cyclic.primitives (genPubkey Cyclic.primitives seed) A) :
    ValidPoint Cyclic.primitives (withTopBit seed) A := by
  obtain ⟨⟨key, hkey, hA⟩, h8⟩ := h
  refine ⟨⟨_, decodePublicKey_encodePublicKey _, ?_⟩, h8⟩
  rw [genPubkey, decodePublicKey_encodePublicKey] at hkey
  obtain rfl := Outcome.ok.inj hkey
  have hlt : Bytes.leNat (Cyclic.primitives.x25519PublicKey seed).1 < 2 ^ 255 := by
    rw [Cyclic.primitives_publicKey]
    exact Cyclic.leNat_toMontgomery_lt _
  have hmask : maskTopBit (Bytes.leArray 32
      (Bytes.leNat (Cyclic.primitives.x25519PublicKey seed).1 + 2 ^ 255))
        = maskTopBit (Cyclic.primitives.x25519PublicKey seed) := by
    refine Subtype.ext (Bytes.leNat_inj ((maskTopBit _).2.trans (maskTopBit _).2.symm) ?_)
    rw [leNat_maskTopBit, leNat_maskTopBit, Bytes.leArray_val, Bytes.leNat_leBytes (by omega),
      Nat.add_mod_right]
  rw [hmask]
  exact hA

theorem withTopBit_ne (seed : BytesN 32) :
    withTopBit seed ≠ genPubkey Cyclic.primitives seed := by
  intro h
  have hdecode := congrArg decodePublicKey h
  rw [withTopBit, genPubkey, decodePublicKey_encodePublicKey, decodePublicKey_encodePublicKey]
    at hdecode
  have hlt : Bytes.leNat (Cyclic.primitives.x25519PublicKey seed).1 < 2 ^ 255 := by
    rw [Cyclic.primitives_publicKey]
    exact Cyclic.leNat_toMontgomery_lt _
  have hnat := congrArg (fun u => Bytes.leNat u.1) (Outcome.ok.inj hdecode)
  rw [Bytes.leArray_val, Bytes.leNat_leBytes (by omega)] at hnat
  omega

theorem isValidPublicKey_of_point {publicKey : BytesN 33} {A : Cyclic.Point}
    (h : ValidPoint Cyclic.primitives publicKey A) :
    (isValidPublicKey Cyclic.primitives publicKey : Outcome ε Bool) = .ok true := by
  obtain ⟨⟨key, hkey, hA⟩, h8⟩ := h
  refine (isValidPublicKey_iff Cyclic.zeroLaw).mpr ⟨(decodePublicKey_eq_ok.mp hkey).1, A,
    ⟨key, hkey, hA⟩, mt (lowOrder_iff A).mp h8⟩

/-- An identity key with its top bit set goes unnoticed by the responder. -/
theorem responder_secret_iff_of_topBit : ∃ secret,
    x3dhResponder Cyclic.primitives (Bytes.leArray 32 16) (Bytes.leArray 32 24) none
      (genPubkey Cyclic.primitives (Bytes.leArray 32 0))
      (genPubkey Cyclic.primitives (Bytes.leArray 32 8)) = .ok secret ∧
    x3dhResponder Cyclic.primitives (Bytes.leArray 32 16) (Bytes.leArray 32 24) none
      (withTopBit (Bytes.leArray 32 0))
      (genPubkey Cyclic.primitives (Bytes.leArray 32 8)) = .ok secret ∧
    withTopBit (Bytes.leArray 32 0) ≠ genPubkey Cyclic.primitives (Bytes.leArray 32 0) := by
  obtain ⟨A, hA⟩ := exists_validPoint Cyclic.laws (Bytes.leArray 32 0)
  obtain ⟨X, hX⟩ := exists_validPoint Cyclic.laws (Bytes.leArray 32 8)
  have hA' := validPoint_withTopBit hA
  have hall : ∀ key, (isValidPublicKey Cyclic.primitives key : Outcome X3DHError Bool)
    = .ok true →
      (allValid Cyclic.primitives [key, genPubkey Cyclic.primitives (Bytes.leArray 32 8)] :
        Outcome X3DHError Bool) = .ok true := by
    intro key hkey
    refine (allValid_eq_true _).mpr ?_
    simp [hkey, isValidPublicKey_of_point hX]
  obtain ⟨secret, h⟩ := x3dhResponder_of_valid Cyclic.ladderLaws (Bytes.leArray 32 16)
    (Bytes.leArray 32 24) none hA hX (hall _ (isValidPublicKey_of_point hA))
  obtain ⟨secret', h'⟩ := x3dhResponder_of_valid Cyclic.ladderLaws (Bytes.leArray 32 16)
    (Bytes.leArray 32 24) none hA' hX (hall _ (isValidPublicKey_of_point hA'))
  have hsame := (responder_secret_iff Cyclic.coordinateLaws h h'
    (Cyclic.kdfSeparates _ _)).mpr
    ⟨⟨A, A, hA.1, hA'.1, .inl rfl⟩, ⟨X, X, hX.1, hX.1, .inl rfl⟩, rfl⟩
  exact ⟨secret, h, hsame ▸ h', withTopBit_ne _⟩

/-- A bundle as published, but with the top bit of its one-time prekey set. -/
def bundleWithTopBit (identity signedPrekey : BytesN 32) (signature : BytesN 96)
    (oneTimePrekey : BytesN 32) : PreKeyBundle :=
  { publish Cyclic.primitives identity signedPrekey signature none with
    oneTimePrekey := some { publicKey := withTopBit oneTimePrekey } }

theorem x3dhInitiator_withTopBit
    (identityPrivate ephemeralPrivate identity signedPrekey : BytesN 32)
    (oneTimePrekey : BytesN 32) (Z : BytesN 64) {out : VXEdDSAOutput}
    (hout : vxeddsaSign Cyclic.primitives identity
      (genPubkey Cyclic.primitives signedPrekey).1 Z = .ok out) :
    ∃ result, x3dhInitiator Cyclic.primitives identityPrivate
      (bundleWithTopBit identity signedPrekey out.signature oneTimePrekey) ephemeralPrivate
        = .ok result := by
  obtain ⟨B, hB⟩ := exists_validPoint Cyclic.laws identity
  obtain ⟨S, hS⟩ := exists_validPoint Cyclic.laws signedPrekey
  obtain ⟨O, hO⟩ := exists_validPoint Cyclic.laws oneTimePrekey
  have hpoint : ∀ key ∈ (bundleWithTopBit identity signedPrekey
    out.signature oneTimePrekey).keys, ∃ A, ValidPoint Cyclic.primitives key A := by
    intro key hkey
    fin_cases hkey
    · exact ⟨B, hB⟩
    · exact ⟨S, hS⟩
    · exact ⟨O, validPoint_withTopBit hO⟩
  have hall : (allValid Cyclic.primitives (bundleWithTopBit identity signedPrekey out.signature
      oneTimePrekey).keys : Outcome X3DHError Bool) = .ok true := by
    refine (allValid_eq_true _).mpr ?_
    intro key hkey
    obtain ⟨A, hA⟩ := hpoint key hkey
    exact isValidPublicKey_of_point hA
  have hpre : ∀ key ∈ (bundleWithTopBit identity signedPrekey
    out.signature oneTimePrekey).keys, key.1.getD 0 0 = 0x05 := by
    intro key hkey
    obtain ⟨A, ⟨u, hu, -⟩, -⟩ := hpoint key hkey
    exact (decodePublicKey_eq_ok.mp hu).1
  have hsigned : (bundleWithTopBit identity signedPrekey out.signature oneTimePrekey).Signed
      Cyclic.primitives := by
    rw [eq_signWith _ hout]
    exact ⟨_, vxeddsaVerify_signWith Cyclic.laws (Cyclic.mappedPoint_ne_zero _ _) _⟩
  rw [x3dhInitiator_eq, hall, Outcome.ok_bind, Outcome.ensure_true, Outcome.ok_bind]
  rcases agreeWithBundle_outcome identityPrivate ephemeralPrivate hpre hB.1 with
    ⟨-, hresult⟩ | ⟨hnot, -⟩
  · exact hresult
  · exact absurd hsigned hnot

/-- A one-time prekey with its top bit set goes unnoticed by the initiator. -/
theorem initiator_secret_iff_of_topBit : ∃ out result result',
    vxeddsaSign Cyclic.primitives (Bytes.leArray 32 16)
      (genPubkey Cyclic.primitives (Bytes.leArray 32 24)).1 (Bytes.leArray 64 0) = .ok out ∧
    x3dhInitiator Cyclic.primitives (Bytes.leArray 32 0)
      (publish Cyclic.primitives (Bytes.leArray 32 16) (Bytes.leArray 32 24) out.signature
        (some (Bytes.leArray 32 32))) (Bytes.leArray 32 8) = .ok result ∧
    x3dhInitiator Cyclic.primitives (Bytes.leArray 32 0)
      (bundleWithTopBit (Bytes.leArray 32 16) (Bytes.leArray 32 24) out.signature
        (Bytes.leArray 32 32)) (Bytes.leArray 32 8) = .ok result' ∧
    result.sharedSecret = result'.sharedSecret := by
  obtain ⟨out, hout⟩ := Cyclic.vxeddsaSign_ok (Bytes.leArray 32 16)
    (genPubkey Cyclic.primitives (Bytes.leArray 32 24)).1 (Bytes.leArray 64 0)
  obtain ⟨result, h⟩ : ∃ result, x3dhInitiator Cyclic.primitives (Bytes.leArray 32 0)
      (publish Cyclic.primitives (Bytes.leArray 32 16) (Bytes.leArray 32 24) out.signature
        (some (Bytes.leArray 32 32))) (Bytes.leArray 32 8) = .ok result :=
    ⟨_, x3dhInitiator_publish Cyclic.laws _ hout (Cyclic.mappedPoint_ne_zero _ _)⟩
  obtain ⟨result', h'⟩ := x3dhInitiator_withTopBit (Bytes.leArray 32 0) (Bytes.leArray 32 8) _ _
    (Bytes.leArray 32 32) _ hout
  refine ⟨out, result, result', hout, h, h', ?_⟩
  obtain ⟨B, hB⟩ := exists_validPoint Cyclic.laws (Bytes.leArray 32 16)
  obtain ⟨S, hS⟩ := exists_validPoint Cyclic.laws (Bytes.leArray 32 24)
  obtain ⟨O, hO⟩ := exists_validPoint Cyclic.laws (Bytes.leArray 32 32)
  have hpub : result.ephemeralPublic = result'.ephemeralPublic := by
    obtain ⟨-, -, -, -, -, -, -, -, -, rfl⟩ := x3dhInitiator_points Cyclic.ladderLaws h
    obtain ⟨-, -, -, -, -, -, -, -, -, rfl⟩ := x3dhInitiator_points Cyclic.ladderLaws h'
    rfl
  exact (initiator_secret_iff Cyclic.coordinateLaws h h' (Cyclic.kdfSeparates _ _)).mpr
    ⟨hpub, ⟨B, B, hB.1, hB.1, .inl rfl⟩, ⟨S, S, hS.1, hS.1, .inl rfl⟩,
      .some ⟨O, O, hO.1, (validPoint_withTopBit hO).1, .inl rfl⟩⟩

/-- Nor do these alterations keep the two sides apart. -/
theorem handshake_secret_iff_of_topBit : ∃ out result secret,
    vxeddsaSign Cyclic.primitives (Bytes.leArray 32 16)
      (genPubkey Cyclic.primitives (Bytes.leArray 32 24)).1 (Bytes.leArray 64 0) = .ok out ∧
    x3dhInitiator Cyclic.primitives (Bytes.leArray 32 0)
      (bundleWithTopBit (Bytes.leArray 32 16) (Bytes.leArray 32 24) out.signature
        (Bytes.leArray 32 32)) (Bytes.leArray 32 8) = .ok result ∧
    x3dhResponder Cyclic.primitives (Bytes.leArray 32 16) (Bytes.leArray 32 24)
      (some (Bytes.leArray 32 32)) (withTopBit (Bytes.leArray 32 0))
      (genPubkey Cyclic.primitives (Bytes.leArray 32 8)) = .ok secret ∧
    result.sharedSecret = secret := by
  obtain ⟨out, hout⟩ := Cyclic.vxeddsaSign_ok (Bytes.leArray 32 16)
    (genPubkey Cyclic.primitives (Bytes.leArray 32 24)).1 (Bytes.leArray 64 0)
  obtain ⟨result, h⟩ := x3dhInitiator_withTopBit (Bytes.leArray 32 0) (Bytes.leArray 32 8) _ _
    (Bytes.leArray 32 32) _ hout
  obtain ⟨A, hA⟩ := exists_validPoint Cyclic.laws (Bytes.leArray 32 0)
  obtain ⟨X, hX⟩ := exists_validPoint Cyclic.laws (Bytes.leArray 32 8)
  obtain ⟨O, hO⟩ := exists_validPoint Cyclic.laws (Bytes.leArray 32 32)
  have hA' := validPoint_withTopBit hA
  obtain ⟨secret, h'⟩ := x3dhResponder_of_valid Cyclic.ladderLaws (Bytes.leArray 32 16)
    (Bytes.leArray 32 24) (some (Bytes.leArray 32 32)) hA' hX ((allValid_eq_true _).mpr (by
      simp [isValidPublicKey_of_point hX, isValidPublicKey_of_point hA']))
  have hpub : SameKey Cyclic.primitives result.ephemeralPublic
      (genPubkey Cyclic.primitives (Bytes.leArray 32 8)) := by
    obtain ⟨-, -, -, -, -, -, -, -, -, rfl⟩ := x3dhInitiator_points Cyclic.ladderLaws h
    exact ⟨X, X, hX.1, hX.1, .inl rfl⟩
  exact ⟨out, result, secret, hout, h, h',
    (handshake_secret_iff Cyclic.coordinateLaws Cyclic.laws rfl rfl h h'
      (Cyclic.kdfSeparates _ _)).mpr
      ⟨⟨A, A, hA.1, hA'.1, .inl rfl⟩, hpub,
        .some ⟨O, O, hO.1, (validPoint_withTopBit hO).1, .inl rfl⟩⟩⟩

end Curve
