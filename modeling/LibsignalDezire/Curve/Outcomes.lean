/-
The outcomes of an initiation.

* `isValidPublicKey_iff` — the validity check accepts exactly the keys with prefix
  0x05 that are not of low order;
* `x3dhInitiator_outcome` — when an initiation succeeds, when it fails, and how.
-/
import LibsignalDezire.Curve.Untrusted

namespace Curve

variable {E K : Type} [AddCommGroup E] (C : Primitives E K) {ε : Type}

/-- The order of the point divides the cofactor. -/
def LowOrder (P : E) : Prop := addOrderOf P ∣ 8

theorem lowOrder_iff (P : E) : LowOrder P ↔ mulByCofactor P = 0 :=
  addOrderOf_dvd_iff_nsmul_eq_zero

/-- If the public key has the right prefix, its u-coordinate is that of a point. -/
def HasPoint (publicKey : BytesN 33) : Prop :=
  publicKey.1.getD 0 0 = 0x05 → ∃ A, PublicPoint C publicKey A

/-- The public key has the right prefix and is not of low order. -/
def GoodKey (publicKey : BytesN 33) : Prop :=
  publicKey.1.getD 0 0 = 0x05 ∧ ∃ A, PublicPoint C publicKey A ∧ ¬ LowOrder A

/-- All keys of the bundle are good. -/
def PreKeyBundle.Good (bundle : PreKeyBundle) : Prop := ∀ key ∈ bundle.keys, GoodKey C key

/-- The u-coordinate 0 is that of the point of order 2. -/
def ZeroLaw : Prop := ∀ A, C.toEdwards (Bytes.leArray 32 0) 0 = some A → 2 • A = 0

/-- The identity key signed the signed prekey. -/
def PreKeyBundle.Signed [DecidableEq E] (bundle : PreKeyBundle) : Prop :=
  ∃ vrf, (vxeddsaVerify C bundle.identityKey bundle.signedPrekey.publicKey.1
    bundle.signedPrekey.signature : Outcome X3DHError _) = .ok (some vrf)

theorem decodePublicKey_eq_ok {publicKey : BytesN 33} {key : BytesN 32} :
    decodePublicKey publicKey = .ok key ↔
      publicKey.1.getD 0 0 = 0x05 ∧ Bytes.sub publicKey 1 32 (by omega) = key := by
  rw [decodePublicKey]
  split
  case isTrue hpre =>
    refine ⟨fun h => ?_, fun h => absurd h.1 hpre⟩
    cases h
  case isFalse hpre =>
    rw [Outcome.ok.injEq]
    exact ⟨fun h => ⟨not_not.mp hpre, h⟩, fun h => h.2⟩

/-- All-zero keys are not changed by the masking. -/
theorem maskTopBit_of_allZero {key : BytesN 32} (h : allZero key) :
    maskTopBit key = Bytes.leArray 32 0 := by
  have hzero : Bytes.leNat key.1 = 0 := Bytes.leNat_eq_zero.mpr h
  refine Subtype.ext (Bytes.leNat_inj ((maskTopBit key).2.trans (Bytes.leArray 32 0).2.symm) ?_)
  rw [leNat_maskTopBit, hzero]
  rfl

/-! ### Checked keys -/

section Checked

variable [DecidableEq E] {C} (hzero : ZeroLaw C)

include hzero

theorem isValidPublicKey_iff {publicKey : BytesN 33} :
    (isValidPublicKey C publicKey : Outcome ε Bool) = .ok true ↔ GoodKey C publicKey := by
  rw [isValidPublicKey_eq_true]
  constructor
  · rintro ⟨key, A, hkey, -, hA, h8⟩
    exact ⟨(decodePublicKey_eq_ok.mp hkey).1, A, ⟨key, hkey, hA⟩, mt (lowOrder_iff A).mp h8⟩
  · rintro ⟨-, A, ⟨key, hkey, hA⟩, hlow⟩
    rw [lowOrder_iff] at hlow
    refine ⟨key, A, hkey, ?_, hA, hlow⟩
    -- the point of an all-zero key has order 2
    by_contra hall
    rw [Bool.not_eq_false] at hall
    rw [maskTopBit_of_allZero hall] at hA
    refine hlow ?_
    rw [mulByCofactor, show (8 : ℕ) = 2 * 4 by rfl, mul_nsmul, hzero A hA, nsmul_zero]

/-- A key with a point is refused or accepted. -/
theorem isValidPublicKey_of_hasPoint {publicKey : BytesN 33} (h : HasPoint C publicKey) :
    (isValidPublicKey C publicKey : Outcome ε Bool) = .ok true ∧ GoodKey C publicKey ∨
      (isValidPublicKey C publicKey : Outcome ε Bool) = .ok false ∧ ¬ GoodKey C publicKey := by
  rw [← isValidPublicKey_iff (ε := ε) hzero]
  cases hvalid : (isValidPublicKey C publicKey : Outcome ε Bool) with
  | ok b => cases b <;> simp
  | err e => exact absurd hvalid (isValidPublicKey_ne_err C publicKey e)
  | panic =>
    obtain ⟨key, hkey, -, hnone⟩ := (isValidPublicKey_eq_panic C).mp hvalid
    obtain ⟨A, key', hkey', hA⟩ := h (decodePublicKey_eq_ok.mp hkey).1
    rw [hkey] at hkey'
    cases hkey'
    rw [hnone] at hA
    cases hA

theorem allValid_of_hasPoint {keys : List (BytesN 33)} (h : ∀ key ∈ keys, HasPoint C key) :
    (allValid C keys : Outcome ε Bool) = .ok true ∧ (∀ key ∈ keys, GoodKey C key) ∨
      (allValid C keys : Outcome ε Bool) = .ok false ∧ ¬ ∀ key ∈ keys, GoodKey C key := by
  induction keys with
  | nil => simp [allValid]
  | cons key keys ih =>
    rw [List.forall_mem_cons] at h ⊢
    rw [allValid]
    rcases isValidPublicKey_of_hasPoint (ε := ε) hzero h.1 with ⟨hvalid, hgood⟩ | ⟨hvalid, hbad⟩
    · rw [hvalid, Outcome.ok_bind, if_pos rfl]
      simpa only [hgood, true_and] using ih h.2
    · rw [hvalid]
      exact .inr ⟨rfl, fun hall => hbad hall.1⟩

end Checked

/-! ### The agreement after the checks -/

section Agree

variable {C} {publicKey : BytesN 33}

omit [AddCommGroup E] in
theorem mapErr_dh_eq_ok (privateKey : BytesN 32) (h : publicKey.1.getD 0 0 = 0x05) :
    ∃ output, ((dh C privateKey publicKey).mapErr fun _ => X3DHError.decodeFailed)
      = .ok output := by
  have hkey : decodePublicKey publicKey = .ok (Bytes.sub publicKey 1 32 (by omega)) :=
    decodePublicKey_eq_ok.mpr ⟨h, rfl⟩
  rw [dh_of_ok C privateKey hkey]
  exact ⟨_, rfl⟩

omit [AddCommGroup E] in
theorem dhOptional_eq_ok {pair : Option (BytesN 32 × BytesN 33)}
    (h : ∀ p ∈ pair, p.2.1.getD 0 0 = 0x05) : ∃ output, dhOptional C pair = .ok output := by
  rcases pair with _ | ⟨privateKey, publicKey⟩
  · exact ⟨_, rfl⟩
  · obtain ⟨output, houtput⟩ := mapErr_dh_eq_ok (C := C) privateKey (h _ rfl)
    rw [dhOptional, houtput]
    exact ⟨_, rfl⟩

variable [DecidableEq E]

/-- A signature check under a key with a point returns. -/
theorem vxeddsaVerify_of_point {A : E} (hA : PublicPoint C publicKey A) (message : Bytes)
    (signature : BytesN 96) :
    ∃ verified, (vxeddsaVerify C publicKey message signature : Outcome ε _) = .ok verified := by
  obtain ⟨key, hkey, hpoint⟩ := hA
  have hconvert : (convertMont C key : Outcome ε E) = .ok A := (convertMont_eq_ok C).mpr hpoint
  unfold vxeddsaVerify
  dsimp only
  rw [hkey]
  dsimp only
  rw [hconvert]
  split
  · exact ⟨_, rfl⟩
  split
  · exact ⟨_, rfl⟩
  rw [Outcome.ok_bind]
  split
  · exact ⟨_, rfl⟩
  split
  · exact ⟨_, rfl⟩
  split
  · exact ⟨_, rfl⟩
  · exact ⟨_, rfl⟩

/-- With decodable keys the agreement fails only if the signature does. -/
theorem agreeWithBundle_outcome (identityPrivate ephemeralPrivate : BytesN 32)
    {bundle : PreKeyBundle} (hkeys : ∀ key ∈ bundle.keys, key.1.getD 0 0 = 0x05) {A : E}
    (hA : PublicPoint C bundle.identityKey A) :
    bundle.Signed C ∧
        (∃ result, agreeWithBundle C identityPrivate bundle ephemeralPrivate = .ok result) ∨
      ¬ bundle.Signed C ∧
        agreeWithBundle C identityPrivate bundle ephemeralPrivate = .err .invalidSignature := by
  obtain ⟨verified, hverify⟩ := vxeddsaVerify_of_point (ε := X3DHError) hA
    bundle.signedPrekey.publicKey.1 bundle.signedPrekey.signature
  rw [PreKeyBundle.Signed, hverify, agreeWithBundle]
  dsimp only
  rw [hverify, Outcome.ok_bind]
  cases verified with
  | none => exact .inr ⟨by simp, rfl⟩
  | some vrf =>
    have hidentity : bundle.identityKey.1.getD 0 0 = 0x05 :=
      hkeys _ (by simp [PreKeyBundle.keys])
    have hsigned : bundle.signedPrekey.publicKey.1.getD 0 0 = 0x05 :=
      hkeys _ (by simp [PreKeyBundle.keys])
    obtain ⟨dh1, hdh1⟩ := mapErr_dh_eq_ok (C := C) identityPrivate hsigned
    obtain ⟨dh2, hdh2⟩ := mapErr_dh_eq_ok (C := C) ephemeralPrivate hidentity
    obtain ⟨dh3, hdh3⟩ := mapErr_dh_eq_ok (C := C) ephemeralPrivate hsigned
    obtain ⟨dh4, hdh4⟩ : ∃ output, dhOptional C
        (bundle.oneTimePrekey.map fun opk => (ephemeralPrivate, opk.publicKey))
          = .ok output := by
      refine dhOptional_eq_ok fun p hp => ?_
      obtain ⟨opk, hopk, rfl⟩ := Option.map_eq_some_iff.mp hp
      exact hkeys _ (by simp [PreKeyBundle.keys, hopk])
    rw [hdh1, hdh2, hdh3, hdh4]
    exact .inl ⟨⟨vrf, rfl⟩, _, rfl⟩

end Agree

/-! ### Outcomes -/

/-- **Initiation.**  If the keys of a bundle that have the right prefix have points,
an initiation succeeds exactly if all keys are good and the signed prekey is signed.
A bad key is reported as such, whatever the signature, and a bad signature only if
all keys are good; no other error is returned. -/
theorem x3dhInitiator_outcome [DecidableEq E] (hzero : ZeroLaw C)
    (identityPrivate ephemeralPrivate : BytesN 32) (bundle : PreKeyBundle)
    (hpoints : ∀ key ∈ bundle.keys, HasPoint C key) :
    ((∃ result, x3dhInitiator C identityPrivate bundle ephemeralPrivate = .ok result) ↔
      bundle.Good C ∧ bundle.Signed C) ∧
    (x3dhInitiator C identityPrivate bundle ephemeralPrivate = .err .invalidKey ↔
      ¬ bundle.Good C) ∧
    (x3dhInitiator C identityPrivate bundle ephemeralPrivate = .err .invalidSignature ↔
      bundle.Good C ∧ ¬ bundle.Signed C) ∧
    x3dhInitiator C identityPrivate bundle ephemeralPrivate ≠ .err .decodeFailed ∧
    x3dhInitiator C identityPrivate bundle ephemeralPrivate ≠ .err .missingOneTimeKey ∧
    (x3dhInitiator C identityPrivate bundle ephemeralPrivate).Returns := by
  rw [x3dhInitiator_eq]
  have hchecked : (allValid C bundle.keys : Outcome X3DHError Bool) = .ok true ∧ bundle.Good C ∨
      (allValid C bundle.keys : Outcome X3DHError Bool) = .ok false ∧ ¬ bundle.Good C :=
    allValid_of_hasPoint hzero hpoints
  rcases hchecked with ⟨hvalid, hgood⟩ | ⟨hvalid, hbad⟩
  · have hidentity : bundle.identityKey ∈ bundle.keys := by simp [PreKeyBundle.keys]
    obtain ⟨A, hA, -⟩ := (hgood _ hidentity).2
    rw [hvalid, Outcome.ok_bind, Outcome.ensure_true, Outcome.ok_bind]
    rcases agreeWithBundle_outcome identityPrivate ephemeralPrivate
      (fun key hkey => (hgood key hkey).1) hA with ⟨hsigned, result, hresult⟩ | ⟨hsigned, herr⟩
    · rw [hresult]
      simp [hgood, hsigned]
    · rw [herr]
      simp [hgood, hsigned]
  · rw [hvalid, Outcome.ok_bind, Outcome.ensure_false, Outcome.err_bind]
    simp [hbad]

theorem Cyclic.zeroLaw : ZeroLaw Cyclic.primitives := by
  intro A hA
  have hzero : Bytes.leNat (Bytes.leArray 32 0).1 = 0 := Bytes.leNat_leBytes (by decide)
  rw [Cyclic.primitives_toEdwards, Cyclic.toEdwards, hzero] at hA
  cases hA
  rw [nsmul_eq_mul, ← Nat.cast_mul, ← mul_assoc, ZMod.natCast_self]

theorem x3dhInitiator_outcome_of_seeds : ∃ out result,
    vxeddsaSign Cyclic.primitives (Bytes.leArray 32 2)
      (genPubkey Cyclic.primitives (Bytes.leArray 32 3)).1 (Bytes.leArray 64 0) = .ok out ∧
    x3dhInitiator Cyclic.primitives (Bytes.leArray 32 0)
      (publish Cyclic.primitives (Bytes.leArray 32 2) (Bytes.leArray 32 3) out.signature
        (some (Bytes.leArray 32 4))) (Bytes.leArray 32 1) = .ok result := by
  obtain ⟨out, hout⟩ := Cyclic.vxeddsaSign_ok (Bytes.leArray 32 2)
    (genPubkey Cyclic.primitives (Bytes.leArray 32 3)).1 (Bytes.leArray 64 0)
  have hgood : ∀ u, GoodKey Cyclic.primitives (genPubkey Cyclic.primitives u) := fun u =>
    (isValidPublicKey_iff (ε := Empty) Cyclic.zeroLaw).mp
      (isValidPublicKey_publicKey Cyclic.laws u)
  have hbundle : (publish Cyclic.primitives (Bytes.leArray 32 2) (Bytes.leArray 32 3)
      out.signature (some (Bytes.leArray 32 4))).Good Cyclic.primitives := by
    intro key hkey
    fin_cases hkey <;> exact hgood _
  have hpoints : ∀ key ∈ (publish Cyclic.primitives (Bytes.leArray 32 2) (Bytes.leArray 32 3)
      out.signature (some (Bytes.leArray 32 4))).keys, HasPoint Cyclic.primitives key := by
    intro key hkey _
    obtain ⟨A, hA, -⟩ := (hbundle key hkey).2
    exact ⟨A, hA⟩
  have hsigned : (publish Cyclic.primitives (Bytes.leArray 32 2) (Bytes.leArray 32 3)
      out.signature (some (Bytes.leArray 32 4))).Signed Cyclic.primitives := by
    rw [eq_signWith _ hout]
    exact ⟨_, vxeddsaVerify_signWith Cyclic.laws (Cyclic.mappedPoint_ne_zero _ _) _⟩
  obtain ⟨result, hresult⟩ := (x3dhInitiator_outcome Cyclic.primitives Cyclic.zeroLaw
    (Bytes.leArray 32 0) (Bytes.leArray 32 1) _ hpoints).1.mpr ⟨hbundle, hsigned⟩
  exact ⟨out, result, hout, hresult⟩

end Curve
