/-
What the hashes of a signature bind.

The nonce hashes the secret scalar, `V` and random bytes.  The message enters it only
through `V`, the multiple by the secret scalar of the point the message is mapped to.
The challenge hashes the transcript, and the answer enters that only through the
commitments.  No hash is free of collisions altogether, so they are excluded on an
arbitrary set of inputs.

* `nonce_hedged` — one nonce belongs to one mapped point and one draw of random bytes;
* `signature_not_malleable` — one answer is accepted for a given `V` and challenge, in
  one encoding.
-/
import Mathlib.Data.List.GetD
import LibsignalDezire.Curve.VXEdDSA

namespace Curve

variable {E K : Type} [AddCommGroup E] (C : Primitives E K) {ε : Type}

/-- `hash_i` and the reduction modulo `l` have no collision in `H`. -/
def CollisionFree (i : UInt8) (H : Set Bytes) : Prop :=
  H.InjOn fun x => Scalar.fromBytesModOrderWide (hashI C i x)

/-- The scalars `h` and `s` of a signature. -/
def signatureScalars (signature : BytesN 96) : Option (Scalar × Scalar) := do
  let h ← Scalar.fromCanonicalBytes (Bytes.sub signature 32 32 offset_h)
  let s ← Scalar.fromCanonicalBytes (Bytes.sub signature 64 32 offset_s)
  pure (h, s)

theorem signatureScalars_encodeSignature (V : BytesN 32) (h s : Scalar) :
    signatureScalars (encodeSignature V h s) = some (h, s) := by
  rw [signatureScalars, sub_encodeSignature_h, sub_encodeSignature_s,
    Scalar.fromCanonicalBytes_toBytes, Scalar.fromCanonicalBytes_toBytes]
  rfl

/-! ### Nonces -/

/-- The answer of a signature is that of its nonce. -/
theorem vxeddsaSign_scalars {k : BytesN 32} {message : Bytes} {Z : BytesN 64}
    {out : VXEdDSAOutput} (hsign : vxeddsaSign C k message Z = .ok out) :
    ∃ h, signatureScalars out.signature
      = some (h, signingNonce C k message Z + h * (calculateKeyPair C k).1) := by
  rw [eq_signWith C hsign]
  exact ⟨_, signatureScalars_encodeSignature _ _ _⟩

theorem vxeddsaSign_of_nonce_ne_zero {k : BytesN 32} {message : Bytes} {Z : BytesN 64}
    (hne : signingNonce C k message Z ≠ 0) : ∃ out, vxeddsaSign C k message Z = .ok out := by
  rw [vxeddsaSign_eq, if_neg hne]
  exact ⟨_, rfl⟩

/-- The secret scalar of a seed is not zero, whatever the sign of its point. -/
theorem calculateKeyPair_scalar_ne_zero (k : BytesN 32) : (calculateKeyPair C k).1 ≠ 0 := by
  rw [calculateKeyPair]
  dsimp only
  split
  · exact neg_ne_zero.mpr (clamp_ne_zero k)
  · exact clamp_ne_zero k

section Nonces

variable {C} (hC : GroupLaws C) (hcompress : Function.Injective C.compress)

include hC hcompress

/-- The input of the nonce determines the random bytes and, as the secret scalar is
invertible, the mapped point. -/
theorem nonceInput_inj {k : BytesN 32} {m₁ m₂ : Bytes} {Z₁ Z₂ : BytesN 64}
    (h : nonceInput C k m₁ Z₁ = nonceInput C k m₂ Z₂) :
    Z₁ = Z₂ ∧ mappedPoint C (calculateKeyPair C k).2 m₁
      = mappedPoint C (calculateKeyPair C k).2 m₂ := by
  rw [nonceInput, nonceInput] at h
  dsimp only at h
  rw [List.append_assoc, List.append_assoc] at h
  obtain ⟨hV, hZ⟩ := Bytes.append_inj (Bytes.append_inj h).2
  refine ⟨Subtype.ext hZ, ?_⟩
  exact Torsion.smul_right_injective (hC.cofactor_torsion _) basepointOrder_prime
    (hC.cofactor_torsion _) (calculateKeyPair_scalar_ne_zero C k) (hcompress hV)

/-- **Hedged nonces.**  Where the hash of the nonces has no collision, signatures of one
seed with the same nonce were made with the same random bytes and map their messages to
the same point.  So whatever the random bytes, messages mapped to different points do not
share a nonce, and two signatures of them never differ by a multiple of the secret scalar. -/
theorem nonce_hedged {H : Set Bytes} (hH : CollisionFree C 3 H) (k : BytesN 32)
    (m₁ m₂ : Bytes) (Z₁ Z₂ : BytesN 64) (hin₁ : nonceInput C k m₁ Z₁ ∈ H)
    (hin₂ : nonceInput C k m₂ Z₂ ∈ H) :
    (signingNonce C k m₁ Z₁ = signingNonce C k m₂ Z₂ →
      Z₁ = Z₂ ∧ mappedPoint C (calculateKeyPair C k).2 m₁
        = mappedPoint C (calculateKeyPair C k).2 m₂) ∧
    (mappedPoint C (calculateKeyPair C k).2 m₁ ≠ mappedPoint C (calculateKeyPair C k).2 m₂ →
      signingNonce C k m₁ Z₁ ≠ signingNonce C k m₂ Z₂ ∧
      ∀ out₁ out₂ : VXEdDSAOutput, vxeddsaSign C k m₁ Z₁ = .ok out₁ →
        vxeddsaSign C k m₂ Z₂ = .ok out₂ → ∀ h₁ s₁ h₂ s₂ : Scalar,
        signatureScalars out₁.signature = some (h₁, s₁) →
        signatureScalars out₂.signature = some (h₂, s₂) →
        s₁ - s₂ ≠ (h₁ - h₂) * (calculateKeyPair C k).1) := by
  have hsame : signingNonce C k m₁ Z₁ = signingNonce C k m₂ Z₂ →
      Z₁ = Z₂ ∧ mappedPoint C (calculateKeyPair C k).2 m₁
        = mappedPoint C (calculateKeyPair C k).2 m₂ :=
    fun h => nonceInput_inj hC hcompress (hH hin₁ hin₂ h)
  refine ⟨hsame, fun hne => ?_⟩
  have hnonce : signingNonce C k m₁ Z₁ ≠ signingNonce C k m₂ Z₂ := fun h => hne (hsame h).2
  refine ⟨hnonce, fun out₁ out₂ hsign₁ hsign₂ h₁ s₁ h₂ s₂ hout₁ hout₂ heq => hnonce ?_⟩
  obtain ⟨h₁', hscalars₁⟩ := vxeddsaSign_scalars C hsign₁
  obtain ⟨h₂', hscalars₂⟩ := vxeddsaSign_scalars C hsign₂
  rw [hscalars₁] at hout₁
  rw [hscalars₂] at hout₂
  cases hout₁
  cases hout₂
  -- the difference of the answers exceeds that multiple by the difference of the nonces
  rw [sub_mul, add_sub_add_comm, add_eq_right] at heq
  exact sub_eq_zero.mp heq

end Nonces

/-! ### Answers -/

/-- A signature of any three strings. -/
def rawSignature (V h s : BytesN 32) : BytesN 96 :=
  ⟨V.1 ++ h.1 ++ s.1, by simp [V.2, h.2, s.2]⟩

section Raw

variable (V h s : BytesN 32)

@[simp] theorem sub_rawSignature_V : Bytes.sub (rawSignature V h s) 0 32 offset_V = V :=
  Subtype.ext (by simp [Bytes.sub, rawSignature, V.2])

@[simp] theorem sub_rawSignature_h : Bytes.sub (rawSignature V h s) 32 32 offset_h = h :=
  Subtype.ext (by simp [Bytes.sub, rawSignature, V.2, h.2])

@[simp] theorem sub_rawSignature_s : Bytes.sub (rawSignature V h s) 64 32 offset_s = s := by
  refine Subtype.ext ?_
  have hlen : (V.1 ++ h.1).length = 64 := by simp [V.2, h.2]
  change ((V.1 ++ h.1 ++ s.1).drop 64).take 32 = s.1
  rw [List.drop_left' hlen, List.take_of_length_le s.2.le]

end Raw

/-- A canonical encoding is the number of its scalar. -/
theorem Scalar.fromCanonicalBytes_eq_some {bytes : BytesN 32} {s : Scalar}
    (h : Scalar.fromCanonicalBytes bytes = some s) : Bytes.leNat bytes.1 = s.val := by
  rw [Scalar.fromCanonicalBytes] at h
  split at h
  case isTrue hlt =>
    cases h
    rw [Scalar.fromBytesModOrder, ZMod.val_natCast_of_lt hlt]
  case isFalse => cases h

theorem Scalar.fromCanonicalBytes_inj {bytes bytes' : BytesN 32} {s : Scalar}
    (h : Scalar.fromCanonicalBytes bytes = some s)
    (h' : Scalar.fromCanonicalBytes bytes' = some s) : bytes = bytes' := by
  have hnat := (Scalar.fromCanonicalBytes_eq_some h).trans
    (Scalar.fromCanonicalBytes_eq_some h').symm
  exact Subtype.ext (Bytes.leNat_inj (bytes.2.trans bytes'.2.symm) hnat)

/-- Canonical encodings of numbers that are equal modulo `l` are equal. -/
theorem Scalar.eq_of_modEq {bytes bytes' : BytesN 32} {s s' : Scalar}
    (h : Scalar.fromCanonicalBytes bytes = some s)
    (h' : Scalar.fromCanonicalBytes bytes' = some s')
    (hmod : Bytes.leNat bytes'.1 ≡ Bytes.leNat bytes.1 [MOD basepointOrder]) :
    bytes' = bytes := by
  have hs : s' = s := by
    refine ZMod.val_injective _ ?_
    rw [Scalar.fromCanonicalBytes_eq_some h, Scalar.fromCanonicalBytes_eq_some h'] at hmod
    exact Nat.ModEq.eq_of_lt_of_lt hmod s'.val_lt s.val_lt
  rw [hs] at h'
  exact Scalar.fromCanonicalBytes_inj h' h

section Answers

variable {C} (hC : GroupLaws C) (hcompress : Function.Injective C.compress)

include hC hcompress

/-- The transcript determines the answer. -/
theorem transcript_inj {A V : E} {h s s' : Scalar} {message : Bytes}
    {signature signature' : BytesN 96}
    (heq : transcript C A V h s message signature = transcript C A V h s' message signature') :
    s = s' := by
  rw [transcript, transcript] at heq
  dsimp only at heq
  simp only [List.append_assoc] at heq
  have hafterV := (Bytes.append_inj (Bytes.append_inj heq).2).2
  have hR := hcompress (Bytes.append_inj hafterV).1
  rw [commitments, commitments] at hR
  exact Torsion.smul_injective hC.basepoint_torsion basepointOrder_prime hC.basepoint_ne_zero
    (sub_left_inj.mp hR)

end Answers

omit [AddCommGroup E] in
theorem PublicPoint.unique {publicKey : BytesN 33} {A A' : E} (h : PublicPoint C publicKey A)
    (h' : PublicPoint C publicKey A') : A = A' := by
  obtain ⟨key, hkey, hA⟩ := h
  obtain ⟨key', hkey', hA'⟩ := h'
  rw [hkey] at hkey'
  cases hkey'
  exact Option.some_inj.mp (hA.symm.trans hA')

/-- The verifier accepts the signature. -/
def Accepted [DecidableEq E] (publicKey : BytesN 33) (message : Bytes) (signature : BytesN 96) :
    Prop :=
  ∃ vrf, (vxeddsaVerify C publicKey message signature : Outcome Empty _) = .ok (some vrf)

/-- What the verifier hashes for the signature is in `H`. -/
def TranscriptIn (publicKey : BytesN 33) (message : Bytes) (H : Set Bytes)
    (signature : BytesN 96) : Prop :=
  ∀ A V h s, Reads C publicKey signature A V h s →
    transcript C A V h s message signature ∈ H

/-- The verifier hashes one transcript for a signature. -/
theorem Reads.transcriptIn {publicKey : BytesN 33} {signature : BytesN 96} {A V : E}
    {h s : Scalar} (hreads : Reads C publicKey signature A V h s) (message : Bytes) :
    TranscriptIn C publicKey message {transcript C A V h s message signature} signature := by
  intro A' V' h' s' hreads'
  obtain rfl := hreads.point.unique C hreads'.point
  obtain rfl := Option.some_inj.mp (hreads.decompress.symm.trans hreads'.decompress)
  obtain rfl := Option.some_inj.mp (hreads.challenge.symm.trans hreads'.challenge)
  obtain rfl := Option.some_inj.mp (hreads.answer.symm.trans hreads'.answer)
  rfl

section Malleable

variable [DecidableEq E] {C} {publicKey : BytesN 33} {message : Bytes}

theorem Accepted.canonical {V h s : BytesN 32}
    (haccept : Accepted C publicKey message (rawSignature V h s)) :
    ∃ h' s', Scalar.fromCanonicalBytes h = some h' ∧ Scalar.fromCanonicalBytes s = some s' := by
  obtain ⟨vrf, hvrf⟩ := haccept
  obtain ⟨A, V', h', s', hreads, -⟩ := (vxeddsaVerify_eq_some_iff C).mp hvrf
  have hh := hreads.challenge
  have hs := hreads.answer
  rw [sub_rawSignature_h] at hh
  rw [sub_rawSignature_s] at hs
  exact ⟨h', s', hh, hs⟩

/-- **No malleability.**  Where the hash of the transcripts has no collision, only one
string `s` is accepted after given strings `V` and `h`.  Of the strings that encode the
same numbers modulo `l` only one pair `h`, `s` is accepted. -/
theorem signature_not_malleable (hC : GroupLaws C) (hcompress : Function.Injective C.compress)
    {H : Set Bytes} (hH : CollisionFree C 4 H) (publicKey : BytesN 33) (message : Bytes) :
    (∀ V h s s' : BytesN 32, Accepted C publicKey message (rawSignature V h s) →
      Accepted C publicKey message (rawSignature V h s') →
      TranscriptIn C publicKey message H (rawSignature V h s) →
      TranscriptIn C publicKey message H (rawSignature V h s') → s' = s) ∧
    ∀ V h h' s s' : BytesN 32, Accepted C publicKey message (rawSignature V h s) →
      Accepted C publicKey message (rawSignature V h' s') →
      Bytes.leNat h'.1 ≡ Bytes.leNat h.1 [MOD basepointOrder] →
      Bytes.leNat s'.1 ≡ Bytes.leNat s.1 [MOD basepointOrder] → h' = h ∧ s' = s := by
  constructor
  · intro V h s s' haccept haccept' hin hin'
    obtain ⟨vrf, hvrf⟩ := haccept
    obtain ⟨vrf', hvrf'⟩ := haccept'
    obtain ⟨A, P, c, t, hreads, -, -, -, hc, -⟩ := (vxeddsaVerify_eq_some_iff C).mp hvrf
    obtain ⟨A', P', c', t', hreads', -, -, -, hc', -⟩ := (vxeddsaVerify_eq_some_iff C).mp hvrf'
    have htranscript := hin A P c t hreads
    have htranscript' := hin' A' P' c' t' hreads'
    obtain ⟨hA, hP, hchallenge, hanswer⟩ := hreads
    obtain ⟨hA', hP', hchallenge', hanswer'⟩ := hreads'
    rw [sub_rawSignature_V] at hP hP'
    rw [sub_rawSignature_h] at hchallenge hchallenge'
    rw [sub_rawSignature_s] at hanswer hanswer'
    obtain rfl : c = c' := Option.some_inj.mp (hchallenge.symm.trans hchallenge')
    obtain rfl : P = P' := Option.some_inj.mp (hP.symm.trans hP')
    obtain rfl : A = A' := hA.unique C hA'
    have hsame := transcript_inj hC hcompress (hH htranscript htranscript' (hc.symm.trans hc'))
    rw [← hsame] at hanswer'
    exact Scalar.fromCanonicalBytes_inj hanswer' hanswer
  · intro V h h' s s' haccept haccept' hh hs
    obtain ⟨c, t, hc, ht⟩ := haccept.canonical
    obtain ⟨c', t', hc', ht'⟩ := haccept'.canonical
    exact ⟨Scalar.eq_of_modEq hc hc' hh, Scalar.eq_of_modEq ht ht' hs⟩

end Malleable

theorem encodeSignature_eq (V : BytesN 32) (h s : Scalar) :
    encodeSignature V h s = rawSignature V h.toBytes s.toBytes := rfl

theorem Cyclic.compress_injective : Function.Injective Cyclic.compress := by
  intro P Q h
  have hdecompress := congrArg Cyclic.decompress h
  rw [Cyclic.decompress_compress, Cyclic.decompress_compress] at hdecompress
  exact Option.some_inj.mp hdecompress

/-- A signature whose transcript is the only input of the hash, and its scalars with the
order of the base point added. -/
theorem signature_not_malleable_of_seed : ∃ V h s x,
    Accepted Cyclic.primitives (genPubkey Cyclic.primitives (Bytes.leArray 32 0)) [0x68, 0x69]
      (rawSignature V h s) ∧
    (∀ s', Accepted Cyclic.primitives (genPubkey Cyclic.primitives (Bytes.leArray 32 0))
        [0x68, 0x69] (rawSignature V h s') →
      TranscriptIn Cyclic.primitives (genPubkey Cyclic.primitives (Bytes.leArray 32 0))
        [0x68, 0x69] {x} (rawSignature V h s') → s' = s) ∧
    ∀ h' s', Bytes.leNat h'.1 = Bytes.leNat h.1 + basepointOrder →
      Bytes.leNat s'.1 = Bytes.leNat s.1 + basepointOrder →
      ¬ Accepted Cyclic.primitives (genPubkey Cyclic.primitives (Bytes.leArray 32 0))
        [0x68, 0x69] (rawSignature V h' s') := by
  generalize Bytes.leArray 32 0 = k
  have haccept : Accepted Cyclic.primitives (genPubkey Cyclic.primitives k) [0x68, 0x69]
      (signWith Cyclic.primitives k [0x68, 0x69] 1).signature :=
    ⟨_, vxeddsaVerify_signWith Cyclic.laws (Cyclic.mappedPoint_ne_zero _ _) 1⟩
  rw [signWith] at haccept
  dsimp only at haccept
  rw [encodeSignature_eq] at haccept
  have hvrf := haccept.choose_spec
  obtain ⟨A, P, c, t, hreads, -⟩ := (vxeddsaVerify_eq_some_iff Cyclic.primitives).mp hvrf
  have hin := hreads.transcriptIn Cyclic.primitives [0x68, 0x69]
  obtain ⟨hunique, hmod⟩ := signature_not_malleable Cyclic.groupLaws Cyclic.compress_injective
    (Set.injOn_singleton _ _) (genPubkey Cyclic.primitives k) [0x68, 0x69]
  refine ⟨_, _, _, _, haccept, fun s' haccept' hin' =>
    hunique _ _ _ s' haccept haccept' hin hin', ?_⟩
  intro h' s' hh hs haccept'
  have hhmod : Bytes.leNat h'.1 ≡ _ [MOD basepointOrder] := hh ▸ Nat.add_mod_right _ _
  have hsmod : Bytes.leNat s'.1 ≡ _ [MOD basepointOrder] := hs ▸ Nat.add_mod_right _ _
  have hsame := (hmod _ _ h' _ s' haccept haccept' hhmod hsmod).1
  rw [hsame] at hh
  have := basepointOrder_prime.pos
  omega

/-! ### A group with a signed hash -/

namespace Cyclic

/-- The sign that a compressed point carries in its last byte. -/
def topBit (bytes : BytesN 32) : ℕ := ((bytes.1.getD 31 0 >>> 7) &&& 1).toNat

/-- The cyclic group, where the hash is a sign, that of `V` in the case of the nonce, and
a message is mapped to 1 or `-1`. -/
def signed : Primitives Point (Bytes × Bytes × Bytes) :=
  { primitives with
    sha512 x := Bytes.leArray 64 (1 + ((x.getD 95 0 >>> 7) &&& 1).toNat)
    nonspecMapToCurve digest bytes := if Bytes.leNat (digest bytes).1 = 1 then 1 else -1 }

theorem signed_groupLaws : GroupLaws signed := ⟨groupLaws.card, groupLaws.basepoint⟩

theorem signed_map (digest : Bytes → BytesN 64) (x : Bytes) :
    signed.nonspecMapToCurve digest x = if Bytes.leNat (digest x).1 = 1 then 1 else -1 := rfl

theorem hashI_signed (i : UInt8) (a b : BytesN 32) (x : Bytes) :
    hashI signed i (a.1 ++ b.1 ++ x) = Bytes.leArray 64 (1 + topBit b) := by
  have hbyte : ((0xFF - i) :: List.replicate 31 0xFF ++ (a.1 ++ b.1 ++ x)).getD 95 0
      = b.1.getD 31 0 := by
    have hlen : ((0xFF - i) :: List.replicate 31 (0xFF : UInt8)).length = 32 := rfl
    rw [List.getD_append_right _ _ _ _ (by rw [hlen]; decide), hlen, List.append_assoc,
      List.getD_append_right _ _ _ _ (by rw [a.2]; decide), a.2]
    exact List.getD_append _ _ _ _ (by rw [b.2]; decide)
  rw [hashI, topBit, ← hbyte]
  rfl

theorem leNat_hashI_signed (i : UInt8) (a b : BytesN 32) (x : Bytes) :
    Bytes.leNat (hashI signed i (a.1 ++ b.1 ++ x)).1 = 1 + topBit b := by
  have hlt : topBit b < 2 ^ 8 := UInt8.toNat_lt _
  rw [hashI_signed, Bytes.leArray_val, Bytes.leNat_leBytes]
  exact (Nat.add_lt_add_left hlt 1).trans (by decide)

theorem mappedPoint_signed (A : Point) (b : BytesN 32) : mappedPoint signed A b.1
    = if topBit b = 0 then ((8 : ℕ) : Point) else -((8 : ℕ) : Point) := by
  have hnat : Bytes.leNat (signalHash2 signed ((signed.compress A).1 ++ b.1)).1
      = 1 + topBit b := by
    have := leNat_hashI_signed 2 (signed.compress A) b []
    rwa [List.append_nil] at this
  rw [mappedPoint, signed_map, hnat]
  simp only [Nat.add_eq_left]
  split
  · rw [mulByCofactor, nsmul_eq_mul, mul_one]
  · rw [mulByCofactor, smul_neg, nsmul_eq_mul, mul_one]

theorem signingNonce_signed (k : BytesN 32) (message : Bytes) (Z : BytesN 64) :
    signingNonce signed k message Z = ((1 + topBit (signed.compress (mulScalar
      (mappedPoint signed (calculateKeyPair signed k).2 message)
      (calculateKeyPair signed k).1)) : ℕ) : Scalar) := by
  rw [signingNonce, Scalar.fromBytesModOrderWide, nonceInput]
  dsimp only
  rw [leNat_hashI_signed]

theorem one_add_topBit_lt (b : BytesN 32) : 1 + topBit b < basepointOrder := by
  have hb : topBit b < 2 ^ 8 := UInt8.toNat_lt _
  have hl : 2 ^ 9 < basepointOrder := by decide +kernel
  omega

/-- Signs are told apart modulo `l`. -/
theorem topBit_inj {b b' : BytesN 32}
    (h : ((1 + topBit b : ℕ) : Scalar) = ((1 + topBit b' : ℕ) : Scalar)) :
    topBit b = topBit b' := by
  rw [ZMod.natCast_eq_natCast_iff', Nat.mod_eq_of_lt (one_add_topBit_lt b),
    Nat.mod_eq_of_lt (one_add_topBit_lt b')] at h
  exact Nat.add_left_cancel h

theorem signed_signs (k : BytesN 32) (message : Bytes) (Z : BytesN 64) :
    ∃ out h s, vxeddsaSign signed k message Z = .ok out ∧
      signatureScalars out.signature = some (h, s) := by
  have hne : signingNonce signed k message Z ≠ 0 := by
    rw [signingNonce_signed, Ne, ZMod.natCast_eq_zero_iff]
    intro hdvd
    have hle := Nat.le_of_dvd (by omega) hdvd
    have hlt := one_add_topBit_lt (signed.compress (mulScalar
      (mappedPoint signed (calculateKeyPair signed k).2 message) (calculateKeyPair signed k).1))
    omega
  obtain ⟨out, hout⟩ := vxeddsaSign_of_nonce_ne_zero signed hne
  obtain ⟨h, hscalars⟩ := vxeddsaSign_scalars signed hout
  exact ⟨out, h, _, hout, hscalars⟩

/-- A message that is mapped to the base point. -/
def plus : Bytes := (Bytes.leArray 32 0).1

/-- A message that is mapped to its negative. -/
def minus : Bytes := (Bytes.leArray 32 (2 ^ 255)).1

theorem mappedPoint_plus (A : Point) : mappedPoint signed A plus = signed.basepoint := by
  rw [plus, mappedPoint_signed, if_pos (by decide)]
  rfl

theorem mappedPoint_minus (A : Point) : mappedPoint signed A minus = -signed.basepoint := by
  rw [minus, mappedPoint_signed, if_neg (by decide +kernel)]
  rfl

theorem basepoint_ne_neg {P : Point} (hP : basepointOrder • P = 0) (hne : P ≠ 0) : P ≠ -P :=
  Torsion.ne_neg hP basepointOrder_prime basepointOrder_ne_two hne

/-- The points `V` of the two messages are negatives of each other, so their signs differ. -/
theorem signingNonce_signed_ne (k : BytesN 32) (Z Z' : BytesN 64) :
    signingNonce signed k plus Z ≠ signingNonce signed k minus Z' := by
  have hB := signed_groupLaws.basepoint_torsion
  have hV : mulScalar signed.basepoint (calculateKeyPair signed k).1 ≠ 0 :=
    Torsion.smul_ne_zero hB basepointOrder_prime signed_groupLaws.basepoint_ne_zero
      (calculateKeyPair_scalar_ne_zero signed k)
  intro heq
  have hneg : mulScalar (-signed.basepoint) (calculateKeyPair signed k).1
      = -mulScalar signed.basepoint (calculateKeyPair signed k).1 := smul_neg _ _
  rw [signingNonce_signed, signingNonce_signed, mappedPoint_plus, mappedPoint_minus, hneg] at heq
  refine signBit_neg (basepoint_ne_neg (Torsion.nsmul_smul hB _) hV) ?_
  exact UInt8.toNat_inj.mp (topBit_inj heq).symm

theorem collisionFree_signed (k : BytesN 32) (Z Z' : BytesN 64) :
    CollisionFree signed 3 {nonceInput signed k plus Z, nonceInput signed k minus Z'} :=
  Set.injOn_pair.mpr fun heq => absurd heq (signingNonce_signed_ne k Z Z')

end Cyclic

/-- Two messages signed with the same random bytes. -/
theorem nonce_hedged_of_constant : ∃ out₁ out₂ h₁ s₁ h₂ s₂,
    vxeddsaSign Cyclic.signed (Bytes.leArray 32 0) Cyclic.plus (Bytes.leArray 64 0) = .ok out₁ ∧
    vxeddsaSign Cyclic.signed (Bytes.leArray 32 0) Cyclic.minus (Bytes.leArray 64 0)
      = .ok out₂ ∧
    signatureScalars out₁.signature = some (h₁, s₁) ∧
    signatureScalars out₂.signature = some (h₂, s₂) ∧
    s₁ - s₂ ≠ (h₁ - h₂) * (calculateKeyPair Cyclic.signed (Bytes.leArray 32 0)).1 := by
  obtain ⟨out₁, h₁, s₁, hout₁, hscalars₁⟩ :=
    Cyclic.signed_signs (Bytes.leArray 32 0) Cyclic.plus (Bytes.leArray 64 0)
  obtain ⟨out₂, h₂, s₂, hout₂, hscalars₂⟩ :=
    Cyclic.signed_signs (Bytes.leArray 32 0) Cyclic.minus (Bytes.leArray 64 0)
  have hne : mappedPoint Cyclic.signed (calculateKeyPair Cyclic.signed (Bytes.leArray 32 0)).2
      Cyclic.plus ≠ mappedPoint Cyclic.signed
        (calculateKeyPair Cyclic.signed (Bytes.leArray 32 0)).2 Cyclic.minus := by
    rw [Cyclic.mappedPoint_plus, Cyclic.mappedPoint_minus]
    exact Cyclic.basepoint_ne_neg Cyclic.signed_groupLaws.basepoint_torsion
      Cyclic.signed_groupLaws.basepoint_ne_zero
  refine ⟨out₁, out₂, h₁, s₁, h₂, s₂, hout₁, hout₂, hscalars₁, hscalars₂, ?_⟩
  exact ((nonce_hedged Cyclic.signed_groupLaws Cyclic.compress_injective
    (Cyclic.collisionFree_signed _ _ _) _ _ _ _ _ (Set.mem_insert _ _)
    (Set.mem_insert_of_mem _ (Set.mem_singleton _))).2 hne).2 out₁ out₂ hout₁ hout₂
    h₁ s₁ h₂ s₂ hscalars₁ hscalars₂

end Curve
