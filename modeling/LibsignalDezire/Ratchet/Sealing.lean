/-
Sealed headers and messages: `encrypt_header`, `encrypt_aead`, their inverses, and
the bytes that a message authenticates.

* `headers_round_trip` — **encrypted headers open to what was sealed, and nothing
  else opens**, over the whole layout of a header;
* `decrypt_inverts_encrypt` — **decryption is the exact inverse of encryption**,
  for plaintexts of every length;
* `ReachesMac` — the calls of `decrypt` that get as far as a tag check;
* `mac_input_unambiguous` — **on such calls the authenticated bytes determine
  their parts**: only the associated data has a length prefix, but an encrypted
  header that opens has one length.
-/
import LibsignalDezire.Ratchet.Atomic

namespace Ratchet

variable {K : Type} (P : Primitives K)

/-! ### Headers -/

/-- AES-256-GCM under nonces of 12 bytes: opening is the exact inverse of sealing. -/
def GcmInverse : Prop :=
  ∀ k nonce c p, nonce.length = 12 → p.length ≤ gcmMaxPlaintext →
    (P.aes256GcmOpen k nonce c = some p ↔ c = P.aes256GcmSeal k nonce p)

section Headers

variable {P}

/-- An encrypted header opens exactly to the header it is the sealing of. -/
theorem decryptHeaderWithKey_eq_ok_iff_seal (h : GcmInverse P) {hk : K} {encHeader : Bytes}
    {header : RatchetHeader} :
    decryptHeaderWithKey P hk encHeader = .ok header ↔
      ∃ nonce : Bytes, nonce.length = 12 ∧ encHeader = sealHeader P hk nonce header := by
  have hmax : header.toBytes.length ≤ gcmMaxPlaintext := by
    rw [RatchetHeader.length_toBytes]
    decide
  rw [decryptHeaderWithKey_eq_ok_iff]
  constructor
  · rintro ⟨hlen, hopen⟩
    have hn : (encHeader.take 12).length = 12 := List.length_take_of_le hlen
    have hdrop := (h hk _ _ _ hn hmax).mp hopen
    refine ⟨encHeader.take 12, hn, ?_⟩
    rw [sealHeader, ← hdrop, List.take_append_drop]
  · rintro ⟨nonce, hn, rfl⟩
    have hdrop : (sealHeader P hk nonce header).drop 12
        = P.aes256GcmSeal hk nonce header.toBytes := List.drop_left' hn
    refine ⟨by simp [sealHeader, hn], ?_⟩
    rw [take_sealHeader hn, hdrop]
    exact (h hk nonce _ _ hn hmax).mpr rfl

/-- **Headers round-trip exactly.**  With a sending header key and a nonce left, what
`encryptHeader` returns for any header opens to that header.  Headers and byte strings
of length 40 are in bijection, and no other length parses.  Whatever opens to a header
is a nonce followed by the sealing of that header under that nonce. -/
theorem headers_round_trip (h : GcmInverse P) :
    (∀ (header : RatchetHeader) (state : RatchetState K) (hk : K), state.hkS = some hk →
      state.headerNonceCounter.toNat < 2 ^ 64 - 1 → ∃ newNonceCounter encHeader,
        encryptHeader P state header = .ok (newNonceCounter, encHeader) ∧
        decryptHeaderWithKey P hk encHeader = .ok header) ∧
    (∀ header : RatchetHeader, header.toBytes.length = 40 ∧
      RatchetHeader.fromBytes header.toBytes = .ok header) ∧
    (∀ bytes : Bytes, bytes.length = 40 →
      ∃ header, RatchetHeader.fromBytes bytes = .ok header ∧ header.toBytes = bytes) ∧
    (∀ bytes : Bytes, bytes.length ≠ 40 → RatchetHeader.fromBytes bytes = .err .invalidHeader) ∧
    ∀ (hk : K) (encHeader : Bytes) (header : RatchetHeader),
      decryptHeaderWithKey P hk encHeader = .ok header → ∃ nonce : Bytes, nonce.length = 12 ∧
        encHeader = nonce ++ P.aes256GcmSeal hk nonce header.toBytes := by
  refine ⟨fun header state hk hhk hlt => ?_,
    fun header => ⟨RatchetHeader.length_toBytes header, RatchetHeader.fromBytes_toBytes header⟩,
    fun bytes => RatchetHeader.exists_of_length,
      fun bytes => RatchetHeader.fromBytes_of_length_ne,
    fun hk encHeader header => (decryptHeaderWithKey_eq_ok_iff_seal h).mp⟩
  rw [encryptHeader_eq P header hhk]
  cases hc : checkedAdd64 state.headerNonceCounter 1 with
  | none =>
    have := checkedAdd64_one_eq_none.mp hc
    omega
  | some c =>
    refine ⟨c, _, rfl, (decryptHeaderWithKey_eq_ok_iff_seal h).mpr ⟨_, ?_, rfl⟩⟩
    exact length_headerNonce _ _

end Headers

namespace Symbolic

theorem gcmInverse : GcmInverse primitives := fun _ _ _ _ _ _ => gcmOpen_eq_some

/-- The initiator seals a header with the largest numbers. -/
theorem headers_round_trip_of_sender : ∃ newNonceCounter encHeader,
    encryptHeader primitives sender
        { dhPub := Bytes.leArray 32 7, pn := 0xFFFFFFFF, n := 0xFFFFFFFF }
      = .ok (newNonceCounter, encHeader) ∧
    decryptHeaderWithKey primitives (deriveHeaderKeys primitives .secret).1 encHeader
      = .ok { dhPub := Bytes.leArray 32 7, pn := 0xFFFFFFFF, n := 0xFFFFFFFF } :=
  (headers_round_trip gcmInverse).1 _ sender _ rfl (by decide)

end Symbolic

/-! ### The inverse -/

/-- AES-256-CBC with PKCS#7: `pad` fills up the last block and `unpad` undoes it on
the padded strings only; for a key and an IV, `enc` and `dec` are inverse to each
other on strings of whole blocks. -/
structure PaddedCbc (pad : Bytes → Bytes) (unpad : Bytes → Option Bytes)
    (enc dec : BytesN 32 → BytesN 16 → Bytes → Bytes) : Prop where
  length_pad : ∀ p, (pad p).length = (p.length / 16 + 1) * 16
  unpad_eq_some : ∀ x p, 16 ∣ x.length → (unpad x = some p ↔ x = pad p)
  length_enc : ∀ k iv x, 16 ∣ x.length → (enc k iv x).length = x.length
  length_dec : ∀ k iv x, 16 ∣ x.length → (dec k iv x).length = x.length
  dec_enc : ∀ k iv x, 16 ∣ x.length → dec k iv (enc k iv x) = x
  enc_dec : ∀ k iv x, 16 ∣ x.length → enc k iv (dec k iv x) = x
  encrypt_eq : ∀ k iv p, P.aes256CbcEncrypt k iv p = enc k iv (pad p)
  decrypt_eq : ∀ k iv c, P.aes256CbcDecrypt k iv c =
    if 16 ∣ c.length then unpad (dec k iv c) else none

section Inverse

variable {P} {pad : Bytes → Bytes} {unpad : Bytes → Option Bytes}
  {enc dec : BytesN 32 → BytesN 16 → Bytes → Bytes}

namespace PaddedCbc

variable (h : PaddedCbc P pad unpad enc dec)

include h

theorem dvd_length_pad (p : Bytes) : 16 ∣ (pad p).length := by
  rw [h.length_pad]
  exact Dvd.intro_left _ rfl

theorem length_encrypt (k : BytesN 32) (iv : BytesN 16) (p : Bytes) :
    (P.aes256CbcEncrypt k iv p).length = (p.length / 16 + 1) * 16 := by
  rw [h.encrypt_eq, h.length_enc k iv _ (h.dvd_length_pad p), h.length_pad]

/-- A body decrypts to the plaintext it is the encryption of, and to no other. -/
theorem decrypt_eq_some_iff (k : BytesN 32) (iv : BytesN 16) (body p : Bytes) :
    P.aes256CbcDecrypt k iv body = some p ↔ body = P.aes256CbcEncrypt k iv p := by
  rw [h.decrypt_eq, h.encrypt_eq]
  constructor
  · intro hdec
    split at hdec
    case isTrue hdvd =>
      rw [h.unpad_eq_some _ _ (by rwa [h.length_dec k iv body hdvd])] at hdec
      rw [← hdec, h.enc_dec k iv body hdvd]
    case isFalse => cases hdec
  · rintro rfl
    have hdvd : 16 ∣ (enc k iv (pad p)).length := by
      rw [h.length_enc k iv _ (h.dvd_length_pad p)]
      exact h.dvd_length_pad p
    rw [if_pos hdvd, h.dec_enc k iv _ (h.dvd_length_pad p),
      h.unpad_eq_some _ _ (h.dvd_length_pad p)]

end PaddedCbc

/-- **Decryption is the exact inverse of encryption.**  For every message key and
associated data: a string decrypts to a plaintext exactly when the plaintext
encrypts to it; what `encryptAead` returns has the 48 bytes that `decryptAead` asks
for; and no two strings decrypt to the same plaintext. -/
theorem decrypt_inverts_encrypt (h : PaddedCbc P pad unpad enc dec) (mk : K) (ad : Bytes) :
    (∀ c p, decryptAead P mk c ad = .ok p ↔ encryptAead P mk p ad = .ok c) ∧
      (∀ p c, encryptAead P mk p ad = .ok c → 48 ≤ c.length) ∧
      ∀ c c' p, decryptAead P mk c ad = .ok p → decryptAead P mk c' ad = .ok p → c = c' := by
  have hiff : ∀ c p, decryptAead P mk c ad = .ok p ↔ encryptAead P mk p ad = .ok c := by
    intro c p
    rw [decryptAead_eq_ok_iff, encryptAead_eq]
    constructor
    · rintro ⟨body, -, rfl, hcbc⟩
      rw [h.decrypt_eq_some_iff] at hcbc
      rw [hcbc]
      rfl
    · intro hc
      rw [← Outcome.ok.inj hc]
      refine ⟨_, ?_, rfl, (h.decrypt_eq_some_iff _ _ _ _).mpr rfl⟩
      rw [h.length_encrypt]
      omega
  refine ⟨hiff, fun p c hc => ?_, fun c c' p hc hc' => ?_⟩
  · obtain ⟨body, hb, rfl, -⟩ := decryptAead_eq_ok_iff.mp ((hiff c p).mpr hc)
    rw [List.length_append, (P.hmacSha256Tag _ _).2]
    omega
  · have hsame := ((hiff c p).mp hc).symm.trans ((hiff c' p).mp hc')
    exact Outcome.ok.inj hsame

end Inverse

namespace Symbolic

/-- The symbolic primitives encrypt a body by padding it. -/
theorem paddedCbc : PaddedCbc primitives pad unpad (fun _ _ x => x) (fun _ _ x => x) where
  length_pad := length_pad
  unpad_eq_some x p _ := unpad_eq_some x p
  length_enc _ _ _ _ := rfl
  length_dec _ _ _ _ := rfl
  dec_enc _ _ _ _ := rfl
  enc_dec _ _ _ _ := rfl
  encrypt_eq _ _ _ := rfl
  decrypt_eq _ _ c := by
    split
    case isTrue => rfl
    case isFalse hdvd =>
      show unpad c = none
      cases h : unpad c with
      | none => rfl
      | some p =>
        rw [unpad_eq_some] at h
        exact absurd (by rw [h, length_pad]; exact Dvd.intro_left _ rfl) hdvd

/-- The messages under the shared secret with empty associated data. -/
theorem decrypt_inverts_encrypt_under_secret :
    (∀ c p, decryptAead primitives .secret c [] = .ok p ↔
        encryptAead primitives .secret p [] = .ok c) ∧
      (∀ p c, encryptAead primitives .secret p [] = .ok c → 48 ≤ c.length) ∧
      ∀ c c' p, decryptAead primitives .secret c [] = .ok p →
        decryptAead primitives .secret c' [] = .ok p → c = c' :=
  decrypt_inverts_encrypt paddedCbc .secret []

end Symbolic

/-! ### The authenticated bytes -/

section MacInput

variable {P} [DecidableEq K] {b b' : Build} {st st' : RatchetState K}
  {encHeader encHeader' ciphertext ciphertext' ad ad' : Bytes}

/-- A header key of the state opens the encrypted header, and there is a message
key for the number in it: a stored one, or the one of the receiving chain. -/
inductive HasKey (P : Primitives K) (b : Build) (st : RatchetState K) (encHeader : Bytes) : Prop
  | skipped {k header} : k ∈ st.mkskipped → decryptHeaderWithKey P k.1 encHeader = .ok header →
      header.n = k.2 → HasKey P b st encHeader
  | chain {header dhRatchet mk} : decryptHeader P st encHeader = .ok (header, dhRatchet) →
      (header.dhPub, header.n) ∉ st.receivedMessages →
      computeMessageKey P b st header dhRatchet = .ok mk → HasKey P b st encHeader

/-- `decrypt` gets as far as the tag check of `decryptAead`. -/
structure ReachesMac (P : Primitives K) (b : Build) (st : RatchetState K)
    (encHeader ciphertext ad : Bytes) : Prop where
  ad_le : ad.length ≤ maxAdSize
  hasKey : HasKey P b st encHeader
  length_le : 48 ≤ ciphertext.length

omit [DecidableEq K] in
theorem decryptAead_of_short {mk : K} (h : ciphertext.length < 48) :
    decryptAead P mk ciphertext ad = .err .decryptionFailed :=
  if_pos h

/-- A call that does not get that far does not depend on the tags: with any other
function for HMAC it does the same. -/
theorem decrypt_of_not_reachesMac (env : CallEnv K)
    (h : ¬ ReachesMac P b st encHeader ciphertext ad) (tag : BytesN 32 → Bytes → BytesN 32) :
    decrypt { P with hmacSha256Tag := tag } b env encHeader ciphertext ad st
      = decrypt P b env encHeader ciphertext ad st := by
  by_cases had : ad.length ≤ maxAdSize
  swap
  · rw [decrypt_of_adTooLarge _ (not_le.mp had), decrypt_of_adTooLarge _ (not_le.mp had)]
  have hshort : HasKey P b st encHeader → ciphertext.length < 48 :=
    fun hkey => not_le.mp fun hlen => h ⟨had, hkey, hlen⟩
  -- whatever the tags are, no stored key opens the message
  have hskip : ∀ tag', ∀ k v p, st.mkskipped.lookup k = some v →
      ¬ Opens { P with hmacSha256Tag := tag' } k v encHeader ciphertext
        (concatAd ad encHeader) p := by
    rintro tag' k v p hk ⟨header, hhdr, hn, haead⟩
    have hkey : HasKey P b st encHeader := .skipped (AList.lookup_isSome.mp (hk ▸ rfl)) hhdr hn
    rw [decryptAead_of_short (hshort hkey)] at haead
    cases haead
  rw [decrypt_of_not_skipped _ had (hskip tag), decrypt_of_not_skipped P had (hskip _)]
  have hheader : decryptHeader { P with hmacSha256Tag := tag } st encHeader
      = decryptHeader P st encHeader := rfl
  rw [hheader]
  cases hhdr : decryptHeader P st encHeader with
  | err e => rfl
  | panic => rfl
  | ok hf =>
    obtain ⟨header, f⟩ := hf
    dsimp only
    by_cases hdup : (header.dhPub, header.n) ∈ st.receivedMessages
    · rw [if_pos hdup, if_pos hdup]
    · have hcompute : computeMessageKey { P with hmacSha256Tag := tag } b st header f
          = computeMessageKey P b st header f := by
        rw [computeMessageKey_eq, computeMessageKey_eq]
        rfl
      rw [if_neg hdup, if_neg hdup, hcompute]
      cases hmk : computeMessageKey P b st header f with
      | err e => rfl
      | panic => rfl
      | ok mk =>
        have hlen := hshort (.chain hhdr hdup hmk)
        rw [Outcome.ok_bind, Outcome.ok_bind, decryptAead_of_short hlen,
          decryptAead_of_short hlen]

omit [DecidableEq K] in
/-- An encrypted header that opens is a nonce, a header and a tag of 16 bytes. -/
theorem length_of_opens
    (hgcm : ∀ k nonce c p, P.aes256GcmOpen k nonce c = some p → c.length = p.length + 16)
    {hk : K} {header : RatchetHeader}
    (h : decryptHeaderWithKey P hk encHeader = .ok header) : encHeader.length = 68 := by
  obtain ⟨hlen, hopen⟩ := (decryptHeaderWithKey_eq_ok_iff P).mp h
  have hdrop := hgcm _ _ _ _ hopen
  rw [List.length_drop, RatchetHeader.length_toBytes] at hdrop
  omega

omit [DecidableEq K] in
theorem HasKey.length_encHeader
    (hgcm : ∀ k nonce c p, P.aes256GcmOpen k nonce c = some p → c.length = p.length + 16)
    (h : HasKey P b st encHeader) : encHeader.length = 68 := by
  cases h with
  | skipped _ hhdr => exact length_of_opens hgcm hhdr
  | chain hhdr =>
    rcases decryptHeader_eq_ok P hhdr with ⟨-, hk, -, hopen⟩ | ⟨-, hopen⟩
    · exact length_of_opens hgcm hopen
    · exact length_of_opens hgcm hopen

omit [DecidableEq K] in
/-- **The authenticated byte string is unambiguous.**  For any two calls of `decrypt`
that reach the tag check, on any states: if the bytes fed to the HMAC are equal,
then so are the associated data, the encrypted headers and the bodies. -/
theorem mac_input_unambiguous
    (hgcm : ∀ k nonce c p, P.aes256GcmOpen k nonce c = some p → c.length = p.length + 16)
    (h : ReachesMac P b st encHeader ciphertext ad)
    (h' : ReachesMac P b' st' encHeader' ciphertext' ad')
    (heq : macInput (concatAd ad encHeader) ciphertext
      = macInput (concatAd ad' encHeader') ciphertext') :
    ad = ad' ∧ encHeader = encHeader' ∧
      ciphertext.take (ciphertext.length - 32) = ciphertext'.take (ciphertext'.length - 32) := by
  have hmax : maxAdSize < 2 ^ 64 := by decide
  have hlen : encHeader.length = encHeader'.length :=
    (h.hasKey.length_encHeader hgcm).trans (h'.hasKey.length_encHeader hgcm).symm
  exact macInput_inj_of_length (h.ad_le.trans_lt hmax) (h'.ad_le.trans_lt hmax) hlen heq

end MacInput

namespace Symbolic

theorem gcmOpen_length (key : Key) (nonce c p : Bytes) (h : gcmOpen key nonce c = some p) :
    c.length = p.length + 16 := by
  rw [gcmOpen_eq_some.mp h, gcmSeal, List.length_append, Bytes.length_beBytes]

/-- The first message, before and after the responder has stored its key; the second
copy has another tag. -/
theorem mac_input_unambiguous_of_copy :
    ([] : Bytes) = [] ∧ (miscounted 0 0).1 = (miscounted 0 0).1 ∧
      (miscounted 0 0).2.take ((miscounted 0 0).2.length - 32)
        = ((miscounted 0 0).2.take 16 ++ List.replicate 32 0).take
            (((miscounted 0 0).2.take 16 ++ List.replicate 32 0).length - 32) := by
  have hstart : ReachesMac primitives .release receiver (miscounted 0 0).1 (miscounted 0 0).2
      [] := by
    obtain ⟨mk, hmk⟩ : ∃ mk, computeMessageKey primitives .release receiver
        { dhPub := Bytes.leArray 32 2, pn := 0, n := 0 } true = .ok mk :=
      Outcome.isOk_iff.mp (by decide +kernel)
    exact ⟨by decide, .chain (by decide +kernel) (by decide +kernel) hmk, by decide +kernel⟩
  have hstored : ReachesMac primitives .dev receiverAfterGap (miscounted 0 0).1
      ((miscounted 0 0).2.take 16 ++ List.replicate 32 0) [] := by
    refine ⟨by decide, ?_, by decide +kernel⟩
    have hhdr : decryptHeaderWithKey primitives (deriveHeaderKeys primitives .secret).1
        (miscounted 0 0).1 = .ok { dhPub := Bytes.leArray 32 2, pn := 0, n := 0 } := by
      decide +kernel
    have hmem : ((deriveHeaderKeys primitives .secret).1, (0 : UInt32))
        ∈ receiverAfterGap.mkskipped.keys := by
      decide +kernel
    exact .skipped (AList.mem_keys.mpr hmem) hhdr rfl
  exact mac_input_unambiguous gcmOpen_length hstart hstored (by decide +kernel)

end Symbolic

end Ratchet
