/-
Untrusted public keys.

A u-coordinate without an Edwards point makes the conversion abort, and the
validity check converts a key before it rejects it.

* `allValid_eq_panic` — checking a list of keys aborts at a key without a point
  that comes after valid keys only;
* `untrusted_keys_iff` — when the three entry points return on untrusted keys.
-/
import LibsignalDezire.Curve.X3DH

namespace Curve

/-! ### The Montgomery curve -/

/-- The prime of the base field. -/
def fieldPrime : ℕ := 2 ^ 255 - 19

/-- The field element that 32 bytes encode; the top bit is ignored. -/
def uCoordinate (u : BytesN 32) : ZMod fieldPrime := (Bytes.leNat u.1 % 2 ^ 255 : ℕ)

/-- Some point of `y ^ 2 = x ^ 3 + 486662 * x ^ 2 + x` has the coordinate `x`. -/
def OnCurve (x : ZMod fieldPrime) : Prop := IsSquare (x ^ 3 + 486662 * x ^ 2 + x)

/-- The u-coordinate is `-1` or that of a point of the twist. -/
def Pointless (u : BytesN 32) : Prop := uCoordinate u = -1 ∨ ¬ OnCurve (uCoordinate u)

/-- The public key decodes to such a u-coordinate. -/
def PointlessKey (publicKey : BytesN 33) : Prop :=
  ∃ key, decodePublicKey publicKey = .ok key ∧ Pointless key

theorem uCoordinate_maskTopBit (u : BytesN 32) : uCoordinate (maskTopBit u) = uCoordinate u := by
  rw [uCoordinate, leNat_maskTopBit, Nat.mod_mod, uCoordinate]

/-- The all-zero string encodes a point of order 2. -/
theorem not_pointless_of_allZero {u : BytesN 32} (h : allZero u) : ¬ Pointless u := by
  have hu : uCoordinate u = 0 := by
    rw [uCoordinate, Bytes.leNat_eq_zero.mpr h]
    rfl
  have hone : (0 : ZMod fieldPrime) ≠ -1 := by decide +kernel
  rintro (h | h)
  · exact hone (hu.symm.trans h)
  · exact h (hu ▸ ⟨0, by ring⟩)

variable {E K : Type} [AddCommGroup E] [DecidableEq E] (C : Primitives E K) {ε : Type}

/-- `to_edwards` fails exactly where there is no point. -/
def ToEdwardsSpec : Prop := ∀ u, C.toEdwards u 0 = none ↔ Pointless u

/-- The public keys of a bundle, in the order of their checks. -/
def PreKeyBundle.keys (bundle : PreKeyBundle) : List (BytesN 33) :=
  [bundle.identityKey, bundle.signedPrekey.publicKey]
    ++ (bundle.oneTimePrekey.map (·.publicKey)).toList

/-! ### Checking a list of keys -/

theorem allValid_ne_err (keys : List (BytesN 33)) (e : ε) : allValid C keys ≠ .err e := by
  induction keys with
  | nil => simp [allValid]
  | cons key keys ih =>
    rw [allValid]
    cases h : (isValidPublicKey C key : Outcome ε Bool) with
    | ok b => cases b <;> simp [ih]
    | err e => exact absurd h (isValidPublicKey_ne_err C key e)
    | panic => simp

theorem allValid_append (keys keys' : List (BytesN 33)) :
    (allValid C (keys ++ keys') : Outcome ε Bool) = (do
      if ← allValid C keys then allValid C keys' else pure false) := by
  induction keys with
  | nil => rfl
  | cons key keys ih =>
    rw [List.cons_append, allValid, allValid, ih]
    cases (isValidPublicKey C key : Outcome ε Bool) with
    | ok b => cases b <;> rfl
    | err e => rfl
    | panic => rfl

theorem x3dhInitiator_eq (identityPrivate : BytesN 32) (bundle : PreKeyBundle)
    (ephemeralPrivate : BytesN 32) :
    x3dhInitiator C identityPrivate bundle ephemeralPrivate = (do
      let valid ← allValid C bundle.keys
      Outcome.ensure valid .invalidKey
      agreeWithBundle C identityPrivate bundle ephemeralPrivate) := by
  rw [PreKeyBundle.keys, allValid_append, x3dhInitiator]
  cases (allValid C [bundle.identityKey, bundle.signedPrekey.publicKey] :
    Outcome X3DHError Bool) with
  | ok b => cases b <;> rfl
  | err e => rfl
  | panic => rfl

/-- A key without a point comes after valid keys only. -/
def ReachesPointless : List (BytesN 33) → Prop
  | [] => False
  | key :: keys => PointlessKey key ∨
    (isValidPublicKey C key : Outcome Empty Bool) = .ok true ∧ ReachesPointless keys

section Spec

variable {C} (hE : ToEdwardsSpec C)

include hE

omit [AddCommGroup E] [DecidableEq E] in
theorem toEdwards_mask_eq_none (key : BytesN 32) :
    C.toEdwards (maskTopBit key) 0 = none ↔ Pointless key := by
  rw [hE, Pointless, uCoordinate_maskTopBit, Pointless]

theorem isValidPublicKey_panic_iff (publicKey : BytesN 33) :
    (isValidPublicKey C publicKey : Outcome ε Bool) = .panic ↔ PointlessKey publicKey := by
  rw [isValidPublicKey_eq_panic]
  constructor
  · rintro ⟨key, hkey, -, hpoint⟩
    exact ⟨key, hkey, (toEdwards_mask_eq_none hE key).mp hpoint⟩
  · rintro ⟨key, hkey, hpoint⟩
    refine ⟨key, hkey, ?_, (toEdwards_mask_eq_none hE key).mpr hpoint⟩
    by_contra hzero
    exact not_pointless_of_allZero (by simpa using hzero) hpoint

theorem not_pointlessKey_of_valid {publicKey : BytesN 33}
    (h : (isValidPublicKey C publicKey : Outcome ε Bool) = .ok true) :
    ¬ PointlessKey publicKey := by
  rw [← isValidPublicKey_panic_iff (ε := ε) hE, h]
  simp

theorem allValid_eq_panic {keys : List (BytesN 33)} :
    (allValid C keys : Outcome ε Bool) = .panic ↔ ReachesPointless C keys := by
  induction keys with
  | nil => simp [allValid, ReachesPointless]
  | cons key keys ih =>
    have htrue : (isValidPublicKey C key : Outcome Empty Bool) = .ok true ↔
        (isValidPublicKey C key : Outcome ε Bool) = .ok true := by
      rw [isValidPublicKey_eq_true, isValidPublicKey_eq_true]
    rw [allValid, Outcome.bind_eq_panic, isValidPublicKey_panic_iff hE, ReachesPointless, htrue,
      ← ih]
    refine or_congr_right ⟨?_, fun h => ⟨true, h⟩⟩
    rintro ⟨b, hb, h⟩
    cases b
    · cases h
    · exact ⟨hb, h⟩

/-- A checked list with a pointless key is refused, unless the check aborts. -/
theorem allValid_of_pointless {keys : List (BytesN 33)} {key : BytesN 33} (hmem : key ∈ keys)
    (hkey : PointlessKey key) : (allValid C keys : Outcome ε Bool) ≠ .ok true :=
  fun h => not_pointlessKey_of_valid hE ((allValid_eq_true C).mp h key hmem) hkey

/-- The signature check aborts exactly if it gets to a key without a point. -/
theorem vxeddsaVerify_eq_panic {publicKey : BytesN 33} {message : Bytes}
    {signature : BytesN 96} :
    (vxeddsaVerify C publicKey message signature : Outcome ε _) = .panic ↔
      (Scalar.fromCanonicalBytes (Bytes.sub signature 32 32 offset_h)).isSome ∧
      (Scalar.fromCanonicalBytes (Bytes.sub signature 64 32 offset_s)).isSome ∧
      PointlessKey publicKey := by
  unfold vxeddsaVerify
  dsimp only
  cases Scalar.fromCanonicalBytes (Bytes.sub signature 32 32 offset_h) with
  | none => simp
  | some h =>
    cases Scalar.fromCanonicalBytes (Bytes.sub signature 64 32 offset_s) with
    | none => simp
    | some s =>
      cases hkey : decodePublicKey publicKey with
      | err e => simp [PointlessKey, hkey]
      | panic => simp [PointlessKey, hkey]
      | ok key =>
        have hpoint := toEdwards_mask_eq_none hE key
        simp only [Option.isSome_some, true_and, PointlessKey, hkey, Outcome.ok.injEq,
          exists_eq_left', ← hpoint, convertMont, uToY]
        cases C.toEdwards (maskTopBit key) 0 with
        | none => simp
        | some A =>
          simp only [Outcome.expect_some, Outcome.ok_bind, reduceCtorEq, iff_false]
          split
          · simp
          · split
            · simp
            · split <;> simp

/-- A key without a point is refused, unless the check aborts. -/
theorem vxeddsaVerify_of_pointless {publicKey : BytesN 33} {message : Bytes}
    {signature : BytesN 96} (hkey : PointlessKey publicKey)
    (h : (vxeddsaVerify C publicKey message signature : Outcome ε _) ≠ .panic) :
    (vxeddsaVerify C publicKey message signature : Outcome ε _) = .ok none := by
  obtain ⟨key, hdecode, hpoint⟩ := hkey
  rw [← toEdwards_mask_eq_none hE] at hpoint
  revert h
  unfold vxeddsaVerify
  dsimp only
  cases Scalar.fromCanonicalBytes (Bytes.sub signature 32 32 offset_h) with
  | none => simp
  | some _ =>
    cases Scalar.fromCanonicalBytes (Bytes.sub signature 64 32 offset_s) with
    | none => simp
    | some _ => simp [hdecode, convertMont, uToY, hpoint]

omit hE [AddCommGroup E] [DecidableEq E] in
theorem mapErr_dh_returns (privateKey : BytesN 32) (publicKey : BytesN 33) :
    ((dh C privateKey publicKey).mapErr fun _ => X3DHError.decodeFailed).Returns := by
  rw [dh, decodePublicKey]
  split <;> simp

omit hE [AddCommGroup E] [DecidableEq E] in
theorem dhOptional_returns (pair : Option (BytesN 32 × BytesN 33)) :
    (dhOptional C pair).Returns := by
  rcases pair with _ | ⟨privateKey, publicKey⟩
  · simp [dhOptional]
  · rw [dhOptional, Outcome.returns_bind]
    exact ⟨mapErr_dh_returns privateKey publicKey, by simp⟩

/-- Once its keys are checked the agreement returns. -/
theorem agreeWithBundle_returns (identityPrivate : BytesN 32) (ephemeralPrivate : BytesN 32)
    {bundle : PreKeyBundle}
    (h : (isValidPublicKey C bundle.identityKey : Outcome X3DHError Bool) = .ok true) :
    (agreeWithBundle C identityPrivate bundle ephemeralPrivate).Returns := by
  simp only [agreeWithBundle, Outcome.returns_bind, mapErr_dh_returns, dhOptional_returns,
    Outcome.returns_ok, Outcome.pure_def, implies_true, and_true]
  refine ⟨fun hpanic => ?_, fun verified _ => by cases verified <;> simp [Outcome.ensure]⟩
  exact not_pointlessKey_of_valid hE h ((vxeddsaVerify_eq_panic hE).mp hpanic).2.2

/-- A call that checks its keys first returns, with the right error on keys without
a point, exactly if the check does. -/
theorem checked_iff {α : Type} {keys : List (BytesN 33)} {rest : Outcome X3DHError α}
    (hrest : (allValid C keys : Outcome X3DHError Bool) = .ok true → rest.Returns) :
    (((do
        let valid ← allValid C keys
        Outcome.ensure valid X3DHError.invalidKey
        rest).Returns ∧
      ((∃ key ∈ keys, PointlessKey key) → (do
        let valid ← allValid C keys
        Outcome.ensure valid X3DHError.invalidKey
        rest) = .err .invalidKey)) ↔ ¬ ReachesPointless C keys) := by
  rw [← allValid_eq_panic (ε := X3DHError) hE]
  cases hvalid : (allValid C keys : Outcome X3DHError Bool) with
  | panic => simp
  | err e => exact absurd hvalid (allValid_ne_err C keys e)
  | ok b =>
    cases b with
    | false => simp
    | true =>
      have hnone : ¬ ∃ key ∈ keys, PointlessKey key := by
        rintro ⟨key, hmem, hkey⟩
        exact allValid_of_pointless hE hmem hkey hvalid
      simp only [Outcome.ok_bind, Outcome.ensure_true, hrest hvalid, hnone, false_imp_iff,
        and_self, reduceCtorEq, not_false_eq_true]

/-- **Untrusted keys.**  The signature check returns, and refuses a key without a
point, unless the scalars of the signature are canonical and the key has no point.
The key agreements return, and refuse keys without a point as invalid, unless such
a key comes after valid keys only. -/
theorem untrusted_keys_iff :
    (∀ (publicKey : BytesN 33) (message : Bytes) (signature : BytesN 96),
      ((vxeddsaVerify C publicKey message signature : Outcome Empty _).Returns ∧
        (PointlessKey publicKey →
          (vxeddsaVerify C publicKey message signature : Outcome Empty _) = .ok none)) ↔
      ¬ ((Scalar.fromCanonicalBytes (Bytes.sub signature 32 32 offset_h)).isSome ∧
        (Scalar.fromCanonicalBytes (Bytes.sub signature 64 32 offset_s)).isSome ∧
        PointlessKey publicKey)) ∧
    (∀ (identityPrivate ephemeralPrivate : BytesN 32) (bundle : PreKeyBundle),
      ((x3dhInitiator C identityPrivate bundle ephemeralPrivate).Returns ∧
        ((∃ key ∈ bundle.keys, PointlessKey key) →
          x3dhInitiator C identityPrivate bundle ephemeralPrivate = .err .invalidKey)) ↔
      ¬ ReachesPointless C bundle.keys) ∧
    ∀ (identityPrivate signedPrekeyPrivate : BytesN 32)
      (oneTimePrekeyPrivate : Option (BytesN 32))
      (aliceIdentityPublic aliceEphemeralPublic : BytesN 33),
      ((x3dhResponder C identityPrivate signedPrekeyPrivate oneTimePrekeyPrivate
          aliceIdentityPublic aliceEphemeralPublic).Returns ∧
        ((∃ key ∈ [aliceIdentityPublic, aliceEphemeralPublic], PointlessKey key) →
          x3dhResponder C identityPrivate signedPrekeyPrivate oneTimePrekeyPrivate
            aliceIdentityPublic aliceEphemeralPublic = .err .invalidKey)) ↔
      ¬ ReachesPointless C [aliceIdentityPublic, aliceEphemeralPublic] := by
  refine ⟨fun publicKey message signature => ?_, ?_, ?_⟩
  · have hpanic : (vxeddsaVerify C publicKey message signature : Outcome Empty _) = .panic ↔ _ :=
      vxeddsaVerify_eq_panic hE
    rw [← hpanic]
    refine ⟨fun h => h.1, fun h => ⟨h, fun hkey => ?_⟩⟩
    exact vxeddsaVerify_of_pointless hE hkey h
  · intro identityPrivate ephemeralPrivate bundle
    rw [x3dhInitiator_eq]
    refine checked_iff hE fun hvalid => agreeWithBundle_returns hE _ _ ?_
    exact (allValid_eq_true C).mp hvalid _ (by simp [PreKeyBundle.keys])
  · intro identityPrivate signedPrekeyPrivate oneTimePrekeyPrivate aliceIdentityPublic
      aliceEphemeralPublic
    refine checked_iff hE fun _ => ?_
    simp only [Outcome.returns_bind, mapErr_dh_returns, dhOptional_returns, Outcome.returns_ok,
      Outcome.pure_def, implies_true, and_true]

end Spec

/-! ### The u-coordinate -1 -/

open Classical in
/-- The cyclic group, with a conversion that knows the twist. -/
noncomputable def twistAware : Primitives Cyclic.Point (Bytes × Bytes × Bytes) :=
  { Cyclic.primitives with
    toEdwards u _ := if Pointless u then none else some (8 : ℕ) }

theorem twistAware_spec : ToEdwardsSpec twistAware := by
  intro u
  simp [twistAware]

/-- The encoded public key with u-coordinate `-1`. -/
def minusOneKey : BytesN 33 := encodePublicKey (Bytes.leArray 32 (2 ^ 255 - 20))

theorem pointlessKey_minusOne : PointlessKey minusOneKey :=
  ⟨_, decodePublicKey_encodePublicKey _, .inl (by decide +kernel)⟩

def zeroSignature : BytesN 96 := Bytes.leArray 96 0

theorem untrusted_keys_iff_of_minusOne :
    ((vxeddsaVerify twistAware minusOneKey [] zeroSignature : Outcome Empty _).Returns ∧
      (PointlessKey minusOneKey →
        (vxeddsaVerify twistAware minusOneKey [] zeroSignature : Outcome Empty _) = .ok none)) ↔
    ¬ ((Scalar.fromCanonicalBytes (Bytes.sub zeroSignature 32 32 offset_h)).isSome ∧
      (Scalar.fromCanonicalBytes (Bytes.sub zeroSignature 64 32 offset_s)).isSome ∧
      PointlessKey minusOneKey) :=
  (untrusted_keys_iff twistAware_spec).1 minusOneKey [] zeroSignature

/-- A key with u-coordinate `-1` aborts the signature check and both agreements. -/
theorem minusOne_aborts :
    ¬ (vxeddsaVerify twistAware minusOneKey [] zeroSignature : Outcome Empty _).Returns ∧
    ¬ (x3dhInitiator twistAware (Bytes.leArray 32 0)
      { identityKey := minusOneKey
        signedPrekey := { publicKey := minusOneKey, signature := zeroSignature }
        oneTimePrekey := none } (Bytes.leArray 32 1)).Returns ∧
    ¬ (x3dhResponder twistAware (Bytes.leArray 32 0) (Bytes.leArray 32 1) none minusOneKey
      minusOneKey).Returns := by
  have hvalid : (isValidPublicKey twistAware minusOneKey : Outcome X3DHError Bool) = .panic :=
    (isValidPublicKey_panic_iff twistAware_spec _).mpr pointlessKey_minusOne
  refine ⟨not_not.mpr ((vxeddsaVerify_eq_panic twistAware_spec).mpr
    ⟨by decide +kernel, by decide +kernel, pointlessKey_minusOne⟩), ?_, ?_⟩
  · simp [x3dhInitiator, allValid, hvalid]
  · simp [x3dhResponder, allValid, hvalid]

end Curve
