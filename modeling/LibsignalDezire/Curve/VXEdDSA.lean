/-
VXEdDSA signatures with a verifiable random output (`src/vxeddsa.rs`).

* `signer_verifier_same_key` — the public key of a seed converts to the Edwards point
  of its key pair;
* `vxeddsaVerify_vxeddsaSign` — a signature verifies under the public key of its
  seed, and the verifier computes the output that the signer returned;
* `vrf_unique` — two answers to different challenges determine the output.
-/
import LibsignalDezire.Curve.Cyclic

namespace Curve

variable {E K : Type} [AddCommGroup E] (C : Primitives E K) {ε : Type}

structure VXEdDSAOutput where
  signature : BytesN 96
  vrf : BytesN 32
  deriving DecidableEq

inductive VXEdDSAError where
  | invalidScalar
  deriving DecidableEq, Repr

/-- The encoded public key of a seed. -/
def genPubkey (k : BytesN 32) : BytesN 33 := encodePublicKey (C.x25519PublicKey k)

variable {C} in
/-- **Signer and verifier derive the same key.**  The key pair of every seed is a nonzero
scalar and the multiple of the base point by it, a point with sign bit 0 that survives
the cofactor; and the public key of the seed, decoded and converted, is that point. -/
theorem signer_verifier_same_key (hC : KeyLaws C) (k : BytesN 32) :
    (calculateKeyPair C k).2 = mulScalar C.basepoint (calculateKeyPair C k).1 ∧
    (calculateKeyPair C k).1 ≠ 0 ∧ signBit C (calculateKeyPair C k).2 = 0 ∧
    mulByCofactor (calculateKeyPair C k).2 ≠ 0 ∧
    (decodePublicKey (genPubkey C k) >>= convertMont C) = .ok (calculateKeyPair C k).2 := by
  obtain ⟨ha, hA, hsign, -⟩ := calculateKeyPair_spec hC k
  obtain ⟨htorsion, hne⟩ := calculateKeyPair_torsion hC k
  refine ⟨hA, ha, hsign, mulByCofactor_ne_zero htorsion hne, ?_⟩
  rw [genPubkey, decodePublicKey_encodePublicKey, Outcome.ok_bind]
  exact convertMont_publicKey hC k

theorem signer_verifier_same_key_of_seed :
    (calculateKeyPair Cyclic.primitives (Bytes.leArray 32 5)).2
        = mulScalar Cyclic.primitives.basepoint
          (calculateKeyPair Cyclic.primitives (Bytes.leArray 32 5)).1 ∧
    (calculateKeyPair Cyclic.primitives (Bytes.leArray 32 5)).1 ≠ 0 ∧
    signBit Cyclic.primitives (calculateKeyPair Cyclic.primitives (Bytes.leArray 32 5)).2 = 0 ∧
    mulByCofactor (calculateKeyPair Cyclic.primitives (Bytes.leArray 32 5)).2 ≠ 0 ∧
    (decodePublicKey (genPubkey Cyclic.primitives (Bytes.leArray 32 5))
        >>= convertMont Cyclic.primitives)
      = .ok (calculateKeyPair Cyclic.primitives (Bytes.leArray 32 5)).2 :=
  signer_verifier_same_key Cyclic.laws.keyLaws _

/-- `Bv`: the point that the public key and the message are mapped to. -/
def mappedPoint (A : E) (message : Bytes) : E :=
  mulByCofactor (C.nonspecMapToCurve (signalHash2 C) ((C.compress A).1 ++ message))

/-- The challenge `h` of a transcript. -/
def challenge (A V R Rv : E) (message : Bytes) : Scalar :=
  Scalar.fromBytesModOrderWide (hashI C 4 ((C.compress A).1 ++ (C.compress V).1
    ++ (C.compress R).1 ++ (C.compress Rv).1 ++ message))

/-- `hash_5(8V)`, cut to 32 bytes. -/
def vrfOutput (V : E) : BytesN 32 :=
  Bytes.sub (hashI C 5 (C.compress (mulByCofactor V)).1) 0 32 (by omega)

/-- The layout `V || h || s` of a signature. -/
def encodeSignature (V : BytesN 32) (h s : Scalar) : BytesN 96 :=
  ⟨V.1 ++ h.toBytes.1 ++ s.toBytes.1, by simp [V.2, h.toBytes.2, s.toBytes.2]⟩

/-- The three parts of a signature lie within its 96 bytes. -/
theorem offset_V : 0 + 32 ≤ 96 := by omega

theorem offset_h : 32 + 32 ≤ 96 := by omega

theorem offset_s : 64 + 32 ≤ 96 := by omega

/-- Sign a message; `Z` are the bytes drawn from `OsRng`. -/
def vxeddsaSign (k : BytesN 32) (message : Bytes) (Z : BytesN 64) :
    Outcome VXEdDSAError VXEdDSAOutput :=
  let (a, A) := calculateKeyPair C k
  let Bv := mappedPoint C A message
  let V := mulScalar Bv a
  let r := Scalar.fromBytesModOrderWide
    (hashI C 3 (a.toBytes.1 ++ (C.compress V).1 ++ Z.1))
  if r = 0 then .err .invalidScalar
  else
    let R := mulScalar C.basepoint r
    let Rv := mulScalar Bv r
    let h := challenge C A V R Rv message
    let s := r + h * a
    .ok { signature := encodeSignature (C.compress V) h s, vrf := vrfOutput C V }

/-- The bytes that the signer hashes to the nonce. -/
def nonceInput (k : BytesN 32) (message : Bytes) (Z : BytesN 64) : Bytes :=
  let (a, A) := calculateKeyPair C k
  a.toBytes.1 ++ (C.compress (mulScalar (mappedPoint C A message) a)).1 ++ Z.1

/-- The nonce `r`. -/
def signingNonce (k : BytesN 32) (message : Bytes) (Z : BytesN 64) : Scalar :=
  Scalar.fromBytesModOrderWide (hashI C 3 (nonceInput C k message Z))

/-- The signature with a given nonce, and its output. -/
def signWith (k : BytesN 32) (message : Bytes) (r : Scalar) : VXEdDSAOutput :=
  let (a, A) := calculateKeyPair C k
  let Bv := mappedPoint C A message
  let V := mulScalar Bv a
  let h := challenge C A V (mulScalar C.basepoint r) (mulScalar Bv r) message
  { signature := encodeSignature (C.compress V) h (r + h * a), vrf := vrfOutput C V }

theorem vxeddsaSign_eq (k : BytesN 32) (message : Bytes) (Z : BytesN 64) :
    vxeddsaSign C k message Z = if signingNonce C k message Z = 0 then .err .invalidScalar
      else .ok (signWith C k message (signingNonce C k message Z)) := rfl

theorem eq_signWith {k : BytesN 32} {message : Bytes} {Z : BytesN 64} {out : VXEdDSAOutput}
    (hsign : vxeddsaSign C k message Z = .ok out) :
    out = signWith C k message (signingNonce C k message Z) := by
  rw [vxeddsaSign_eq] at hsign
  split at hsign
  case isTrue => cases hsign
  case isFalse => exact (Outcome.ok.inj hsign).symm

/-- The commitments `R` and `Rv` that the verifier recomputes. -/
def commitments (A Bv V : E) (h s : Scalar) : E × E :=
  (mulScalar C.basepoint s - mulScalar A h, mulScalar Bv s - mulScalar V h)

/-- Verify a signature; on success the VRF output. -/
def vxeddsaVerify [DecidableEq E] (publicKey : BytesN 33) (message : Bytes)
    (signature : BytesN 96) : Outcome ε (Option (BytesN 32)) :=
  let VBytes := Bytes.sub signature 0 32 offset_V
  let hBytes := Bytes.sub signature 32 32 offset_h
  let sBytes := Bytes.sub signature 64 32 offset_s
  match Scalar.fromCanonicalBytes hBytes with
  | none => .ok none
  | some h =>
    match Scalar.fromCanonicalBytes sBytes with
    | none => .ok none
    | some s =>
      match decodePublicKey publicKey with
      | .ok publicKeyDecoded => do
        let A ← convertMont C publicKeyDecoded
        match C.decompress VBytes with
        | none => pure none
        | some V =>
          let Bv := mappedPoint C A message
          if mulByCofactor A = 0 ∨ mulByCofactor V = 0 ∨ Bv = 0 then pure none
          else
            let (R, Rv) := commitments C A Bv V h s
            -- the transcript holds the bytes of `V` as they were sent
            let hcheck := Scalar.fromBytesModOrderWide (hashI C 4 ((C.compress A).1 ++ VBytes.1
              ++ (C.compress R).1 ++ (C.compress Rv).1 ++ message))
            if h ≠ hcheck then pure none
            else pure (some (vrfOutput C V))
      | _ => .ok none

/-! ### Signatures verify -/

section Signature

variable (V : BytesN 32) (h s : Scalar)

@[simp] theorem sub_encodeSignature_V :
    Bytes.sub (encodeSignature V h s) 0 32 offset_V = V :=
  Subtype.ext (by simp [Bytes.sub, encodeSignature, V.2])

@[simp] theorem sub_encodeSignature_h :
    Bytes.sub (encodeSignature V h s) 32 32 offset_h = h.toBytes :=
  Subtype.ext (by simp [Bytes.sub, encodeSignature, V.2, h.toBytes.2])

@[simp] theorem sub_encodeSignature_s :
    Bytes.sub (encodeSignature V h s) 64 32 offset_s = s.toBytes := by
  refine Subtype.ext ?_
  have hlen : (V.1 ++ h.toBytes.1).length = 64 := by simp [V.2, h.toBytes.2]
  change ((V.1 ++ h.toBytes.1 ++ s.toBytes.1).drop 64).take 32 = s.toBytes.1
  rw [List.drop_left' hlen, List.take_of_length_le s.toBytes.2.le]

end Signature

/-- The verifier's equation gives back the signer's commitment. -/
theorem mulScalar_sub {P : E} (hP : basepointOrder • P = 0) (r h a : Scalar) :
    mulScalar P (r + h * a) - mulScalar (mulScalar P a) h = mulScalar P r := by
  simp only [mulScalar]
  rw [Torsion.smul_add hP, Torsion.smul_mul hP]
  exact add_sub_cancel_right _ _

variable {C} in
theorem commitments_honest (hC : Laws C) {A Bv : E} {a : Scalar}
    (hA : A = mulScalar C.basepoint a) (hBv : basepointOrder • Bv = 0) (r h : Scalar) :
    commitments C A Bv (mulScalar Bv a) h (r + h * a)
      = (mulScalar C.basepoint r, mulScalar Bv r) := by
  subst hA
  exact Prod.ext (mulScalar_sub hC.basepoint_torsion r h a) (mulScalar_sub hBv r h a)

variable {C} in
/-- The verifier accepts the signature with any nonce. -/
theorem vxeddsaVerify_signWith [DecidableEq E] (hC : Laws C) {k : BytesN 32} {message : Bytes}
    (hBv : mappedPoint C (calculateKeyPair C k).2 message ≠ 0) (r : Scalar) :
    (vxeddsaVerify C (genPubkey C k) message (signWith C k message r).signature :
      Outcome ε (Option (BytesN 32))) = .ok (some (signWith C k message r).vrf) := by
  obtain ⟨ha, hA, -, -⟩ := calculateKeyPair_spec hC.keyLaws k
  obtain ⟨hAtorsion, hAne⟩ := calculateKeyPair_torsion hC.keyLaws k
  have hconvert := convertMont_publicKey (ε := ε) hC.keyLaws k
  rw [signWith]
  generalize hpair : calculateKeyPair C k = pair at *
  obtain ⟨a, A⟩ := pair
  dsimp only at *
  have hBvtorsion : basepointOrder • mappedPoint C A message = 0 := hC.cofactor_torsion _
  -- neither the public key nor `V` is of low order
  have hcA : mulByCofactor A ≠ 0 := mulByCofactor_ne_zero hAtorsion hAne
  have hcV : mulByCofactor (mulScalar (mappedPoint C A message) a) ≠ 0 :=
    mulByCofactor_ne_zero (Torsion.nsmul_smul hBvtorsion a)
      (Torsion.smul_ne_zero hBvtorsion basepointOrder_prime hBv ha)
  simp only [vxeddsaVerify, sub_encodeSignature_V, sub_encodeSignature_h,
    sub_encodeSignature_s, Scalar.fromCanonicalBytes_toBytes, genPubkey,
    decodePublicKey_encodePublicKey, hconvert, Outcome.ok_bind, hC.decompress_compress]
  rw [if_neg (by simp [hcA, hcV, hBv])]
  simp only [commitments_honest hC hA hBvtorsion]
  exact if_neg (not_not.mpr rfl)

variable {C} in
/-- **Completeness.**  A signature verifies under the public key of its seed, with
the output that the signer returned. -/
theorem vxeddsaVerify_vxeddsaSign [DecidableEq E] (hC : Laws C) {k : BytesN 32}
    {message : Bytes} {Z : BytesN 64} {out : VXEdDSAOutput}
    (hsign : vxeddsaSign C k message Z = .ok out)
    (hBv : mappedPoint C (calculateKeyPair C k).2 message ≠ 0) :
    (vxeddsaVerify C (genPubkey C k) message out.signature : Outcome ε (Option (BytesN 32)))
      = .ok (some out.vrf) := by
  rw [eq_signWith C hsign]
  exact vxeddsaVerify_signWith hC hBv _

/-- In the cyclic group every seed signs every message. -/
theorem Cyclic.vxeddsaSign_ok (k : BytesN 32) (message : Bytes) (Z : BytesN 64) :
    ∃ out, vxeddsaSign Cyclic.primitives k message Z = .ok out := by
  rw [vxeddsaSign]
  dsimp only
  rw [Cyclic.fromBytesModOrderWide_hashI, if_neg Cyclic.scalar_one_ne_zero]
  exact ⟨_, rfl⟩

theorem Cyclic.mappedPoint_ne_zero (A : Cyclic.Point) (message : Bytes) :
    mappedPoint Cyclic.primitives A message ≠ 0 := by
  rw [mappedPoint, Cyclic.mulByCofactor_map]
  exact Cyclic.groupLaws.basepoint_ne_zero

theorem vxeddsaVerify_of_zero_seed : ∃ out,
    vxeddsaSign Cyclic.primitives (Bytes.leArray 32 0) [0x68, 0x69] (Bytes.leArray 64 0)
      = .ok out ∧
    (vxeddsaVerify Cyclic.primitives (genPubkey Cyclic.primitives (Bytes.leArray 32 0))
      [0x68, 0x69] out.signature : Outcome Empty _) = .ok (some out.vrf) := by
  obtain ⟨out, hout⟩ := Cyclic.vxeddsaSign_ok (Bytes.leArray 32 0) [0x68, 0x69]
    (Bytes.leArray 64 0)
  exact ⟨out, hout, vxeddsaVerify_vxeddsaSign Cyclic.laws hout (Cyclic.mappedPoint_ne_zero _ _)⟩

/-! ### What is accepted -/

/-- What the verifier reads in a public key and a signature. -/
structure Reads (publicKey : BytesN 33) (signature : BytesN 96) (A V : E) (h s : Scalar) :
    Prop where
  point : PublicPoint C publicKey A
  decompress : C.decompress (Bytes.sub signature 0 32 offset_V) = some V
  challenge : Scalar.fromCanonicalBytes (Bytes.sub signature 32 32 offset_h) = some h
  answer : Scalar.fromCanonicalBytes (Bytes.sub signature 64 32 offset_s) = some s

/-- The bytes that the verifier hashes, with `V` as it was sent. -/
def transcript (A V : E) (h s : Scalar) (message : Bytes) (signature : BytesN 96) : Bytes :=
  let (R, Rv) := commitments C A (mappedPoint C A message) V h s
  (C.compress A).1 ++ (Bytes.sub signature 0 32 offset_V).1 ++ (C.compress R).1
    ++ (C.compress Rv).1 ++ message

/-- A signature is accepted if none of its points is of low order and the challenge is the hash
of the transcript. -/
theorem vxeddsaVerify_eq_some_iff [DecidableEq E] {publicKey : BytesN 33} {message : Bytes}
    {signature : BytesN 96} {v : BytesN 32} :
    (vxeddsaVerify C publicKey message signature : Outcome ε _) = .ok (some v) ↔
      ∃ A V h s, Reads C publicKey signature A V h s ∧ mulByCofactor A ≠ 0 ∧
        mulByCofactor V ≠ 0 ∧ mappedPoint C A message ≠ 0 ∧
        h = Scalar.fromBytesModOrderWide (hashI C 4 (transcript C A V h s message signature)) ∧
        v = vrfOutput C V := by
  unfold vxeddsaVerify
  dsimp only
  constructor
  · intro hv
    split at hv
    · cases hv
    case h_2 h hh =>
      split at hv
      · cases hv
      case h_2 s hs =>
        split at hv
        case h_2 => cases hv
        case h_1 key hkey =>
          obtain ⟨A, hA, hv⟩ := Outcome.bind_eq_ok.mp hv
          split at hv
          case h_1 => cases hv
          case h_2 V hV =>
            split at hv
            · cases hv
            rename_i hsmall
            split at hv
            · cases hv
            rename_i hcheck
            cases hv
            simp only [not_or] at hsmall
            exact ⟨A, V, h, s, ⟨⟨key, hkey, (convertMont_eq_ok C).mp hA⟩, hV, hh, hs⟩, hsmall.1,
              hsmall.2.1, hsmall.2.2, not_not.mp hcheck, rfl⟩
  · rintro ⟨A, V, h, s, ⟨⟨key, hkey, hA⟩, hV, hh, hs⟩, hA8, hV8, hBv, hcheck, rfl⟩
    have hconvert : (convertMont C key : Outcome ε E) = .ok A := (convertMont_eq_ok C).mpr hA
    simp only [hh, hs, hkey, hconvert, Outcome.ok_bind, hV]
    rw [if_neg (by simp [hA8, hV8, hBv])]
    exact if_neg (not_not.mpr hcheck)

/-- The point `V` of a signature, and its output. -/
theorem vxeddsaVerify_eq_some [DecidableEq E] {publicKey : BytesN 33} {message : Bytes}
    {signature : BytesN 96} {v : BytesN 32}
    (h : (vxeddsaVerify C publicKey message signature : Outcome ε _) = .ok (some v)) :
    ∃ A V, PublicPoint C publicKey A ∧
      C.decompress (Bytes.sub signature 0 32 offset_V) = some V ∧
      mulByCofactor A ≠ 0 ∧ mulByCofactor V ≠ 0 ∧ mappedPoint C A message ≠ 0 ∧
      v = vrfOutput C V := by
  obtain ⟨A, V, _, _, hreads, hA8, hV8, hBv, -, hv⟩ := (vxeddsaVerify_eq_some_iff C).mp h
  exact ⟨A, V, hreads.point, hreads.decompress, hA8, hV8, hBv, hv⟩

/-! ### The output is unique -/

/-- `R` and `Rv` satisfy the verifier's equations with the challenge `h` and the
answer `s`. -/
def Answers (A Bv V R Rv : E) (h s : Scalar) : Prop := commitments C A Bv V h s = (R, Rv)

instance [DecidableEq E] (A Bv V R Rv : E) (h s : Scalar) :
    Decidable (Answers C A Bv V R Rv h s) :=
  inferInstanceAs (Decidable (commitments C A Bv V h s = (R, Rv)))

/-- Some commitments have answers to two different challenges. -/
def TwiceAnswered (A Bv V : E) : Prop :=
  ∃ R Rv h₁ s₁ h₂ s₂, h₁ ≠ h₂ ∧ Answers C A Bv V R Rv h₁ s₁ ∧ Answers C A Bv V R Rv h₂ s₂

theorem mulByCofactor_mulScalar (P : E) (k : Scalar) :
    mulByCofactor (mulScalar P k) = mulScalar (mulByCofactor P) k :=
  Torsion.nsmul_comm_smul 8 k

theorem mulByCofactor_commitment (P Q : E) (s h : Scalar) :
    mulByCofactor (mulScalar P s - mulScalar Q h)
      = mulScalar (mulByCofactor P) s - mulScalar (mulByCofactor Q) h := by
  rw [← mulByCofactor_mulScalar, ← mulByCofactor_mulScalar]
  exact nsmul_sub _ _ _

section Unique

variable {C} (hC : GroupLaws C) {A Bv V V' : E}

include hC

/-- Up to the cofactor, the public key and `V` have the same discrete logarithm. -/
theorem TwiceAnswered.exists_scalar (h : TwiceAnswered C A Bv V) :
    ∃ x : Scalar, mulByCofactor A = mulByCofactor (mulScalar C.basepoint x) ∧
      mulByCofactor V = mulByCofactor (mulScalar Bv x) := by
  obtain ⟨R, Rv, h₁, s₁, h₂, s₂, hne, hfirst, hsecond⟩ := h
  have heq := hfirst.trans hsecond.symm
  have hA := congrArg mulByCofactor (Prod.ext_iff.mp heq).1
  have hV := congrArg mulByCofactor (Prod.ext_iff.mp heq).2
  simp only [commitments, mulByCofactor_commitment] at hA hV
  have htorsion := hC.cofactor_torsion
  refine ⟨(h₁ - h₂)⁻¹ * (s₁ - s₂), ?_, ?_⟩ <;> rw [mulByCofactor_mulScalar]
  · exact Torsion.extract basepointOrder_prime (htorsion _) (htorsion _) hne hA
  · exact Torsion.extract basepointOrder_prime (htorsion _) (htorsion _) hne hV

/-- The discrete logarithm is that of the public key, so it is the same for both points. -/
theorem TwiceAnswered.vrfOutput_eq (h : TwiceAnswered C A Bv V)
    (h' : TwiceAnswered C A Bv V') : vrfOutput C V = vrfOutput C V' := by
  obtain ⟨x, hA, hV⟩ := h.exists_scalar hC
  obtain ⟨x', hA', hV'⟩ := h'.exists_scalar hC
  have hB : mulByCofactor C.basepoint ≠ 0 :=
    mulByCofactor_ne_zero hC.basepoint_torsion hC.basepoint_ne_zero
  have hx : x = x' := by
    rw [hA, mulByCofactor_mulScalar, mulByCofactor_mulScalar] at hA'
    exact Torsion.smul_injective (hC.cofactor_torsion _) basepointOrder_prime hB hA'
  rw [vrfOutput, vrfOutput, hV, hV', hx]

/-- **The output is unique.**  Two answers to different challenges give a discrete
logarithm common to the public key and `V`, up to the cofactor; so all such points
`V`, and all signatures that carry them, have one output. -/
theorem vrf_unique [DecidableEq E] :
    (∀ (A Bv V R Rv : E) (h₁ s₁ h₂ s₂ : Scalar), h₁ ≠ h₂ → Answers C A Bv V R Rv h₁ s₁ →
      Answers C A Bv V R Rv h₂ s₂ →
      ∃ x : Scalar, mulByCofactor A = mulByCofactor (mulScalar C.basepoint x) ∧
        mulByCofactor V = mulByCofactor (mulScalar Bv x)) ∧
    (∀ A Bv V V' : E, TwiceAnswered C A Bv V → TwiceAnswered C A Bv V' →
      vrfOutput C V = vrfOutput C V') ∧
    ∀ (publicKey : BytesN 33) (message : Bytes) (signature signature' : BytesN 96)
      (v v' : BytesN 32),
      (vxeddsaVerify C publicKey message signature : Outcome ε _) = .ok (some v) →
      (vxeddsaVerify C publicKey message signature' : Outcome ε _) = .ok (some v') →
      (∀ A V, PublicPoint C publicKey A →
        C.decompress (Bytes.sub signature 0 32 offset_V) = some V ∨
          C.decompress (Bytes.sub signature' 0 32 offset_V) = some V →
        TwiceAnswered C A (mappedPoint C A message) V) → v = v' := by
  refine ⟨fun A Bv V R Rv h₁ s₁ h₂ s₂ hne h h' =>
    TwiceAnswered.exists_scalar hC ⟨R, Rv, h₁, s₁, h₂, s₂, hne, h, h'⟩,
    fun A Bv V V' h h' => h.vrfOutput_eq hC h', ?_⟩
  intro publicKey message signature signature' v v' hv hv' htwice
  obtain ⟨A, V, hA, hV, -, -, -, rfl⟩ := vxeddsaVerify_eq_some C hv
  obtain ⟨-, V', -, hV', -, -, -, rfl⟩ := vxeddsaVerify_eq_some C hv'
  exact (htwice A V hA (.inl hV)).vrfOutput_eq hC (htwice A V' hA (.inr hV'))

end Unique

/-- The base point, and its translate by a point of order 8, have one output. -/
theorem vrf_unique_of_translate :
    vrfOutput Cyclic.primitives ((8 : ℕ) : Cyclic.Point)
      = vrfOutput Cyclic.primitives ((8 + basepointOrder : ℕ) : Cyclic.Point) := by
  refine (vrf_unique (ε := Empty) Cyclic.groupLaws).2.1 ((8 : ℕ) : Cyclic.Point) (8 : ℕ) _ _
    ⟨(8 : ℕ), (8 : ℕ), 0, 1, 8, 9, ?_, ?_, ?_⟩ ⟨(8 : ℕ), (8 : ℕ), 0, 1, 8, 9, ?_, ?_, ?_⟩
  all_goals decide +kernel

end Curve
