/-
Key derivation, header encryption and message encryption of the ratchet.

The functions are those of `src/ratchet.rs` over the primitives of
`Primitives`; what the proofs assume of the primitives is stated apart, in
`Correct` (they compute the right thing) and `CollisionFree` (distinct inputs
give distinct keys).

* `decryptHeaderWithKey_seal` — a sealed header opens to itself;
* `decryptAead_encryptAead` — a sealed message opens to itself;
* `macInput_inj_of_length` — the authenticated string determines associated data,
  encrypted header and ciphertext once the length of the header is known.
-/
import LibsignalDezire.Ratchet.Basic

namespace Ratchet

variable {K : Type} (P : Primitives K)

/-! ### Key derivation -/

/-- KDF_RK_HE: root key, chain key and next header key. -/
def kdfRkHe (rk dhOut : K) : Outcome RatchetError (K × K × K) :=
  -- HKDF-SHA512 refuses to expand to more than 255 digests of 64 bytes.
  if 96 ≤ 255 * 64 then
    .ok (P.hkdfSha512 rk dhOut hkdfInfoRoot 0, P.hkdfSha512 rk dhOut hkdfInfoRoot 1,
      P.hkdfSha512 rk dhOut hkdfInfoRoot 2)
  else .err .invalidKey

@[simp] theorem kdfRkHe_eq (rk dhOut : K) :
    kdfRkHe P rk dhOut = .ok (P.hkdfSha512 rk dhOut hkdfInfoRoot 0,
      P.hkdfSha512 rk dhOut hkdfInfoRoot 1, P.hkdfSha512 rk dhOut hkdfInfoRoot 2) := rfl

/-- The initiator's and the responder's first header key. -/
def deriveHeaderKeys (sk : K) : K × K :=
  (P.hkdfSha256 sk headerInitiatorLabel, P.hkdfSha256 sk headerResponderLabel)

/-- KDF_CK: next chain key and message key. -/
def kdfCk (ck : K) : K × K :=
  (P.hmacSha256 ck [0x01], P.hmacSha256 ck [0x02])

/-- The chain key after `k` steps of KDF_CK. -/
def advance (ck : K) (k : ℕ) : K := (fun c => (kdfCk P c).1)^[k] ck

@[simp] theorem advance_zero (ck : K) : advance P ck 0 = ck := rfl

theorem advance_succ (ck : K) (k : ℕ) :
    advance P ck (k + 1) = advance P (kdfCk P ck).1 k := rfl

theorem advance_succ' (ck : K) (k : ℕ) :
    advance P ck (k + 1) = (kdfCk P (advance P ck k)).1 := by
  rw [advance, Function.iterate_succ_apply']
  rfl

theorem advance_add (ck : K) (k l : ℕ) :
    advance P ck (k + l) = advance P (advance P ck k) l := by
  rw [advance, Nat.add_comm, Function.iterate_add_apply]
  rfl

/-! ### Header encryption -/

/-- The nonce of the header with counter `counter`: a byte for the party, three
zero bytes, the counter. -/
def headerNonce (isSender : Bool) (counter : UInt64) : Bytes :=
  (if isSender then 0x00 else 0xFF) :: 0 :: 0 :: 0 :: Bytes.beBytes 8 counter.toNat

/-- Encrypt a header under the current sending header key; also returns the
advanced nonce counter. -/
def encryptHeader (state : RatchetState K) (header : RatchetHeader) :
    Outcome RatchetError (UInt64 × Bytes) := do
  let hk ← Outcome.okOr .invalidKey state.hkS
  let plaintext := header.toBytes
  let nonceValue := state.headerNonceCounter
  let newNonceCounter ← Outcome.okOr .counterOverflow (checkedAdd64 nonceValue 1)
  let nonceBytes := headerNonce state.isSender nonceValue
  let ciphertext ← Outcome.okOr .headerDecryptionFailed
    (P.aes256GcmEncrypt hk nonceBytes plaintext)
  pure (newNonceCounter, nonceBytes ++ ciphertext)

/-- Decrypt a header with a specific header key. -/
def decryptHeaderWithKey (hk : K) (encHeader : Bytes) : Outcome RatchetError RatchetHeader :=
  if encHeader.length < 12 then .err .headerDecryptionFailed
  else do
    let nonceBytes ← slice encHeader 0 12
    let ciphertext ← slice encHeader 12 encHeader.length
    let plaintext ← Outcome.okOr .headerDecryptionFailed
      (P.aes256GcmOpen hk nonceBytes ciphertext)
    RatchetHeader.fromBytes plaintext

/-! ### Message encryption -/

/-- The associated data of a message: length-prefixed application data, then
the encrypted header. -/
def concatAd (associatedData header : Bytes) : Bytes :=
  Bytes.beBytes 8 associatedData.length ++ associatedData ++ header

/-- `okm[i..i + n]` -/
def okmRange (okm : BytesN 80) (i n : ℕ) (h : i + n ≤ 80) : BytesN n :=
  ⟨(okm.1.drop i).take n, by simp [okm.2]; omega⟩

/-- AES-256-CBC with PKCS#7, then HMAC-SHA256 over associated data and
ciphertext; the tag is appended. -/
def encryptAead (mk : K) (plaintext ad : Bytes) : Outcome RatchetError Bytes :=
  let okm := P.hkdfSha256Okm mk messageKeyLabel
  let encKey := okmRange okm 0 32 (by omega)
  let authKey := okmRange okm 32 32 (by omega)
  let iv := okmRange okm 64 16 (by omega)
  let ciphertext := P.aes256CbcEncrypt encKey iv plaintext
  let tag := P.hmacSha256Tag authKey (ad ++ ciphertext)
  .ok (ciphertext ++ tag.1)

/-- Authenticate, then decrypt. -/
def decryptAead (mk : K) (ciphertext ad : Bytes) : Outcome RatchetError Bytes :=
  if ciphertext.length < 48 then .err .decryptionFailed
  else do
    let tagStart := ciphertext.length - 32
    let ctBytes ← slice ciphertext 0 tagStart
    let receivedTag ← slice ciphertext tagStart ciphertext.length
    let okm := P.hkdfSha256Okm mk messageKeyLabel
    let encKey := okmRange okm 0 32 (by omega)
    let authKey := okmRange okm 32 32 (by omega)
    let iv := okmRange okm 64 16 (by omega)
    let expectedTag := P.hmacSha256Tag authKey (ad ++ ctBytes)
    if expectedTag.1 ≠ receivedTag then .err .decryptionFailed
    else Outcome.okOr .decryptionFailed (P.aes256CbcDecrypt encKey iv ctBytes)

/-- The bytes fed to the HMAC when `ciphertext` (tag included) is checked
against the associated data `ad`. -/
def macInput (ad ciphertext : Bytes) : Bytes := ad ++ ciphertext.take (ciphertext.length - 32)

/-! ### What is assumed of the primitives -/

/-- The primitives compute what their specifications say. -/
structure Correct : Prop where
  dh_comm : ∀ a b, P.x25519DiffieHellman a (P.x25519PublicKey b)
    = P.x25519DiffieHellman b (P.x25519PublicKey a)
  gcm_open_seal : ∀ k nonce p, P.aes256GcmOpen k nonce (P.aes256GcmSeal k nonce p) = some p
  gcm_length : ∀ k nonce p, (P.aes256GcmSeal k nonce p).length = p.length + 16
  cbc_decrypt_encrypt : ∀ k iv p, P.aes256CbcDecrypt k iv (P.aes256CbcEncrypt k iv p) = some p
  cbc_length : ∀ k iv p, (P.aes256CbcEncrypt k iv p).length = (p.length / 16 + 1) * 16

/-- Distinct inputs of the key derivation functions give distinct keys, and
neither the shared secret nor a Diffie-Hellman value is a derived key.  An attacker
may call the functions on anything; for what two honest parties do, the calls of
their key schedule are enough (`Schedule.KdfSeparates`). -/
structure CollisionFree (sk : K) : Prop where
  hmac_inj : ∀ {k k' m m'}, P.hmacSha256 k m = P.hmacSha256 k' m' → k = k' ∧ m = m'
  hkdf512_inj : ∀ {s s' i i' t t' b b'}, P.hkdfSha512 s i t b = P.hkdfSha512 s' i' t' b' →
    s = s' ∧ i = i' ∧ t = t' ∧ b = b'
  hkdf256_inj : ∀ {k k' t t'}, P.hkdfSha256 k t = P.hkdfSha256 k' t' → k = k' ∧ t = t'
  hmac_ne_hkdf512 : ∀ k m s i t b, P.hmacSha256 k m ≠ P.hkdfSha512 s i t b
  hmac_ne_hkdf256 : ∀ k m k' t, P.hmacSha256 k m ≠ P.hkdfSha256 k' t
  hkdf512_ne_hkdf256 : ∀ s i t b k t', P.hkdfSha512 s i t b ≠ P.hkdfSha256 k t'
  secret_ne_hmac : ∀ k m, sk ≠ P.hmacSha256 k m
  secret_ne_hkdf512 : ∀ s i t b, sk ≠ P.hkdfSha512 s i t b
  secret_ne_hkdf256 : ∀ k t, sk ≠ P.hkdfSha256 k t
  secret_ne_dh : ∀ a p, sk ≠ P.x25519DiffieHellman a p
  dh_ne_hmac : ∀ a p k m, P.x25519DiffieHellman a p ≠ P.hmacSha256 k m
  dh_ne_hkdf512 : ∀ a p s i t b, P.x25519DiffieHellman a p ≠ P.hkdfSha512 s i t b

/-- A call of one of the key derivation functions, or a shared secret. -/
inductive KdfCall (K : Type) where
  | secret (sk : K)
  | hmac (key : K) (data : Bytes)
  | hkdf512 (salt ikm : K) (info : Bytes) (block : ℕ)
  | hkdf256 (ikm : K) (info : Bytes)

def KdfCall.eval : KdfCall K → K
  | .secret sk => sk
  | .hmac key data => P.hmacSha256 key data
  | .hkdf512 salt ikm info block => P.hkdfSha512 salt ikm info block
  | .hkdf256 ikm info => P.hkdfSha256 ikm info

variable {P} in
/-- No two calls collide, if `sk` is the only secret. -/
theorem CollisionFree.injOn {sk : K} (h : CollisionFree P sk) :
    Set.InjOn (KdfCall.eval P) {c | ∀ sk', c = .secret sk' → sk' = sk} := by
  intro c hc c' hc' heq
  cases c with
  | secret a =>
    obtain rfl := hc a rfl
    cases c' with
    | secret a' => rw [hc' a' rfl]
    | hmac => exact absurd heq (h.secret_ne_hmac _ _)
    | hkdf512 => exact absurd heq (h.secret_ne_hkdf512 _ _ _ _)
    | hkdf256 => exact absurd heq (h.secret_ne_hkdf256 _ _)
  | hmac key data =>
    cases c' with
    | secret a' =>
      obtain rfl := hc' a' rfl
      exact absurd heq.symm (h.secret_ne_hmac _ _)
    | hmac =>
      obtain ⟨rfl, rfl⟩ := h.hmac_inj heq
      rfl
    | hkdf512 => exact absurd heq (h.hmac_ne_hkdf512 _ _ _ _ _ _)
    | hkdf256 => exact absurd heq (h.hmac_ne_hkdf256 _ _ _ _)
  | hkdf512 salt ikm info block =>
    cases c' with
    | secret a' =>
      obtain rfl := hc' a' rfl
      exact absurd heq.symm (h.secret_ne_hkdf512 _ _ _ _)
    | hmac => exact absurd heq.symm (h.hmac_ne_hkdf512 _ _ _ _ _ _)
    | hkdf512 =>
      obtain ⟨rfl, rfl, rfl, rfl⟩ := h.hkdf512_inj heq
      rfl
    | hkdf256 => exact absurd heq (h.hkdf512_ne_hkdf256 _ _ _ _ _ _)
  | hkdf256 ikm info =>
    cases c' with
    | secret a' =>
      obtain rfl := hc' a' rfl
      exact absurd heq.symm (h.secret_ne_hkdf256 _ _)
    | hmac => exact absurd heq.symm (h.hmac_ne_hkdf256 _ _ _ _)
    | hkdf512 => exact absurd heq.symm (h.hkdf512_ne_hkdf256 _ _ _ _ _ _)
    | hkdf256 =>
      obtain ⟨rfl, rfl⟩ := h.hkdf256_inj heq
      rfl

/-! ### Headers -/

theorem length_headerNonce (isSender : Bool) (counter : UInt64) :
    (headerNonce isSender counter).length = 12 := by
  simp [headerNonce]

/-- A nonce determines the party byte and the counter. -/
theorem headerNonce_inj {s s' : Bool} {c c' : UInt64} (h : headerNonce s c = headerNonce s' c') :
    s = s' ∧ c = c' := by
  simp only [headerNonce, List.cons.injEq, true_and] at h
  obtain ⟨hs, hc⟩ := h
  refine ⟨by revert hs; cases s <;> cases s' <;> simp, ?_⟩
  have := c.toNat_lt
  have := c'.toNat_lt
  exact UInt64.toNat_inj.mp (Bytes.beBytes_inj (by omega) (by omega) hc)

/-- The bytes `encryptHeader` produces under the header key `hk`. -/
def sealHeader (hk : K) (nonce : Bytes) (header : RatchetHeader) : Bytes :=
  nonce ++ P.aes256GcmSeal hk nonce header.toBytes

theorem encryptHeader_eq {state : RatchetState K} {hk : K} (header : RatchetHeader)
    (h : state.hkS = some hk) :
    encryptHeader P state header = match checkedAdd64 state.headerNonceCounter 1 with
      | none => .err .counterOverflow
      | some c => .ok (c, sealHeader P hk
          (headerNonce state.isSender state.headerNonceCounter) header) := by
  have hgcm : ∀ nonce, P.aes256GcmEncrypt hk nonce header.toBytes
      = some (P.aes256GcmSeal hk nonce header.toBytes) := by
    intro nonce
    rw [Primitives.aes256GcmEncrypt, RatchetHeader.length_toBytes]
    exact if_neg (by decide)
  rw [encryptHeader, h]
  cases hc : checkedAdd64 state.headerNonceCounter 1 with
  | none => simp [hc]
  | some c => simp [hc, hgcm, sealHeader]

theorem decryptHeaderWithKey_eq {hk : K} {encHeader : Bytes} (h : 12 ≤ encHeader.length) :
    decryptHeaderWithKey P hk encHeader =
      match P.aes256GcmOpen hk (encHeader.take 12) (encHeader.drop 12) with
      | none => .err .headerDecryptionFailed
      | some plaintext => RatchetHeader.fromBytes plaintext := by
  rw [decryptHeaderWithKey, if_neg (by omega), slice_eq (by omega) h,
    slice_eq h (le_refl _)]
  cases hopen : P.aes256GcmOpen hk (encHeader.take 12) (encHeader.drop 12) <;>
    simp [hopen]

/-- A header opens exactly when what follows the nonce opens to its serialisation. -/
theorem decryptHeaderWithKey_eq_ok_iff {hk : K} {encHeader : Bytes} {header : RatchetHeader} :
    decryptHeaderWithKey P hk encHeader = .ok header ↔ 12 ≤ encHeader.length ∧
      P.aes256GcmOpen hk (encHeader.take 12) (encHeader.drop 12) = some header.toBytes := by
  by_cases hlen : 12 ≤ encHeader.length
  · rw [decryptHeaderWithKey_eq P hlen]
    cases P.aes256GcmOpen hk (encHeader.take 12) (encHeader.drop 12) with
    | none => simp
    | some plaintext => simp [hlen, RatchetHeader.fromBytes_eq_ok_iff]
  · rw [decryptHeaderWithKey, if_pos (not_le.mp hlen)]
    simp [hlen]

theorem decryptHeaderWithKey_returns (hk : K) (encHeader : Bytes) :
    (decryptHeaderWithKey P hk encHeader).Returns := by
  by_cases h : 12 ≤ encHeader.length
  · rw [decryptHeaderWithKey_eq P h]
    split
    · simp
    · exact RatchetHeader.fromBytes_returns _
  · rw [decryptHeaderWithKey, if_pos (by omega)]
    simp

variable {P}

/-- A sealed header opens, under the key it was sealed with, to itself. -/
theorem decryptHeaderWithKey_seal (hP : Correct P) {nonce : Bytes} (hn : nonce.length = 12)
    (hk : K) (header : RatchetHeader) :
    decryptHeaderWithKey P hk (sealHeader P hk nonce header) = .ok header := by
  rw [decryptHeaderWithKey_eq P (by simp [sealHeader, hn])]
  have htake : (sealHeader P hk nonce header).take 12 = nonce := by
    simp [sealHeader, hn]
  have hdrop : (sealHeader P hk nonce header).drop 12
      = P.aes256GcmSeal hk nonce header.toBytes := by
    simp [sealHeader, hn]
  rw [htake, hdrop, hP.gcm_open_seal]
  exact RatchetHeader.fromBytes_toBytes header

theorem take_sealHeader {nonce : Bytes} (hn : nonce.length = 12) (hk : K)
    (header : RatchetHeader) : (sealHeader P hk nonce header).take 12 = nonce := by
  simp [sealHeader, hn]

/-- All encrypted headers have the same length. -/
theorem length_sealHeader (hP : Correct P) {nonce : Bytes} (hn : nonce.length = 12) (hk : K)
    (header : RatchetHeader) : (sealHeader P hk nonce header).length = 68 := by
  simp [sealHeader, hn, hP.gcm_length]

/-! ### Messages -/

/-- The bytes `encryptAead` produces. -/
def sealMessage (P : Primitives K) (mk : K) (plaintext ad : Bytes) : Bytes :=
  let okm := P.hkdfSha256Okm mk messageKeyLabel
  let ciphertext := P.aes256CbcEncrypt (okmRange okm 0 32 (by omega))
    (okmRange okm 64 16 (by omega)) plaintext
  ciphertext ++ (P.hmacSha256Tag (okmRange okm 32 32 (by omega)) (ad ++ ciphertext)).1

@[simp] theorem encryptAead_eq (mk : K) (plaintext ad : Bytes) :
    encryptAead P mk plaintext ad = .ok (sealMessage P mk plaintext ad) := rfl

theorem decryptAead_eq {mk : K} {body tag ad : Bytes} (hb : 16 ≤ body.length)
    (ht : tag.length = 32) :
    decryptAead P mk (body ++ tag) ad =
      let okm := P.hkdfSha256Okm mk messageKeyLabel
      if (P.hmacSha256Tag (okmRange okm 32 32 (by omega)) (ad ++ body)).1 ≠ tag then
        .err .decryptionFailed
      else Outcome.okOr .decryptionFailed (P.aes256CbcDecrypt (okmRange okm 0 32 (by omega))
        (okmRange okm 64 16 (by omega)) body) := by
  have hlen : (body ++ tag).length = body.length + 32 := by simp [ht]
  have h1 : ((body ++ tag).take ((body ++ tag).length - 32)).drop 0 = body := by
    simp [ht]
  have h2 : ((body ++ tag).take (body ++ tag).length).drop
    ((body ++ tag).length - 32) = tag := by
    rw [List.take_length, hlen]
    simp
  rw [decryptAead, if_neg (by omega)]
  dsimp only
  rw [slice_eq (by omega) (by omega), slice_eq (by omega) (le_refl _), h1, h2]
  rfl

theorem decryptAead_returns (P : Primitives K) (mk : K) (ciphertext ad : Bytes) :
    (decryptAead P mk ciphertext ad).Returns := by
  by_cases hlen : ciphertext.length < 48
  · rw [decryptAead, if_pos hlen]
    simp
  · rw [← List.take_append_drop (ciphertext.length - 32) ciphertext,
      decryptAead_eq (by simp; omega) (by simp; omega)]
    dsimp only
    split
    · simp
    · cases P.aes256CbcDecrypt _ _ _ <;> simp

/-- A sealed message opens, under the key it was sealed with, to itself. -/
theorem decryptAead_encryptAead (hP : Correct P) (mk : K) (plaintext ad : Bytes) :
    decryptAead P mk (sealMessage P mk plaintext ad) ad = .ok plaintext := by
  dsimp only [sealMessage]
  rw [decryptAead_eq (by rw [hP.cbc_length]; omega) (P.hmacSha256Tag _ _).2]
  simp [hP.cbc_decrypt_encrypt]

theorem macInput_append {ad body tag : Bytes} (ht : tag.length = 32) :
    macInput ad (body ++ tag) = ad ++ body := by
  rw [macInput, List.length_append, ht, Nat.add_sub_cancel, List.take_left]

/-- A message opens exactly when it is a body followed by the tag of the body, and
the body decrypts. -/
theorem decryptAead_eq_ok_iff {mk : K} {ciphertext ad p : Bytes} :
    decryptAead P mk ciphertext ad = .ok p ↔ ∃ body : Bytes, 16 ≤ body.length ∧
      ciphertext = body ++ (P.hmacSha256Tag (okmRange (P.hkdfSha256Okm mk messageKeyLabel) 32 32
        (by omega)) (ad ++ body)).1 ∧
      P.aes256CbcDecrypt (okmRange (P.hkdfSha256Okm mk messageKeyLabel) 0 32 (by omega))
        (okmRange (P.hkdfSha256Okm mk messageKeyLabel) 64 16 (by omega)) body = some p := by
  constructor
  · intro h
    by_cases hlen : ciphertext.length < 48
    · rw [decryptAead, if_pos hlen] at h
      cases h
    · set body := ciphertext.take (ciphertext.length - 32) with hbody
      set tag := ciphertext.drop (ciphertext.length - 32) with htag
      have hct : ciphertext = body ++ tag := (List.take_append_drop _ _).symm
      have hb : 16 ≤ body.length := by simp [hbody]; omega
      have ht : tag.length = 32 := by simp [htag]; omega
      rw [hct, decryptAead_eq hb ht] at h
      dsimp only at h
      split at h
      case isTrue => cases h
      case isFalse heq =>
        refine ⟨body, hb, ?_, ?_⟩
        · rw [not_not.mp heq]
          exact hct
        · revert h
          cases P.aes256CbcDecrypt _ _ body with
          | none => exact fun h => nomatch h
          | some q => exact fun h => congrArg some (Outcome.ok.inj h)
  · rintro ⟨body, hb, rfl, hcbc⟩
    rw [decryptAead_eq hb (P.hmacSha256Tag _ _).2]
    dsimp only
    rw [if_neg (not_not.mpr rfl), hcbc]
    rfl

/-- A message that opens is its authenticated bytes followed by their tag. -/
theorem decryptAead_eq_ok {mk : K} {ciphertext ad p : Bytes}
    (h : decryptAead P mk ciphertext ad = .ok p) :
    ∃ body : Bytes, 16 ≤ body.length ∧
      ciphertext = body ++ (P.hmacSha256Tag (okmRange (P.hkdfSha256Okm mk messageKeyLabel) 32 32
        (by omega)) (ad ++ body)).1 ∧ macInput ad ciphertext = ad ++ body := by
  obtain ⟨body, hb, hct, -⟩ := decryptAead_eq_ok_iff.mp h
  refine ⟨body, hb, hct, ?_⟩
  rw [hct, macInput_append (P.hmacSha256Tag _ _).2]

/-- The authenticated string determines its parts once the length of the encrypted
header is fixed. -/
theorem macInput_inj_of_length {ad ad' encHeader encHeader' body body' : Bytes}
    (h : ad.length < 2 ^ 64) (h' : ad'.length < 2 ^ 64)
    (hl : encHeader.length = encHeader'.length)
    (heq : concatAd ad encHeader ++ body = concatAd ad' encHeader' ++ body') :
    ad = ad' ∧ encHeader = encHeader' ∧ body = body' := by
  simp only [concatAd, List.append_assoc] at heq
  obtain ⟨hlen, hrest⟩ := List.append_inj heq (by simp)
  have hl' : ad.length = ad'.length := Bytes.beBytes_inj (by omega) (by omega) hlen
  obtain ⟨had, hrest⟩ := List.append_inj hrest hl'
  exact ⟨had, List.append_inj hrest hl⟩

end Ratchet
