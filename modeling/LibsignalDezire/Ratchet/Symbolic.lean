/-
Symbolic primitives.

Keys are the terms of a free algebra: a derived key is the term that says how it
was derived, so distinct inputs give distinct keys by construction.  Headers and
bodies travel in the clear, padded as in AES-CBC and followed by a tag that is a
digest of the key and of the contents.  All of it computes.

* `correct`, `collisionFree` — the symbolic primitives meet what is assumed of
  the real ones, so these assumptions are consistent.
-/
import LibsignalDezire.Ratchet.Crypto
import Mathlib.Data.Nat.ModEq

namespace Ratchet.Symbolic

/-- A symbolic key: the shared secret, a Diffie-Hellman value of two public
keys, or the output of a key derivation function. -/
inductive Key where
  | secret
  | dh (share share' : DhPublicKey)
  | hmac (key : Key) (message : Bytes)
  | hkdf512 (salt ikm : Key) (info : Bytes) (block : ℕ)
  | hkdf256 (ikm : Key) (info : Bytes)
  deriving DecidableEq

/-- The Diffie-Hellman value of two public keys, in whichever order. -/
def Key.agree (a b : DhPublicKey) : Key :=
  if Bytes.beNat a.1 ≤ Bytes.beNat b.1 then .dh a b else .dh b a

theorem Key.agree_eq (a b : DhPublicKey) : ∃ c d, Key.agree a b = .dh c d := by
  unfold Key.agree
  split
  · exact ⟨a, b, rfl⟩
  · exact ⟨b, a, rfl⟩

theorem Key.agree_comm (a b : DhPublicKey) : Key.agree a b = Key.agree b a := by
  unfold Key.agree
  rcases Nat.lt_trichotomy (Bytes.beNat a.1) (Bytes.beNat b.1) with h | h | h
  · rw [if_pos h.le, if_neg (by omega)]
  · rw [Subtype.ext (Bytes.beNat_inj (a.2.trans b.2.symm) h)]
  · rw [if_neg (by omega), if_pos h.le]

/-! ### Tags -/

/-- Absorb a byte string into a digest. -/
def absorb (h : ℕ) (bytes : Bytes) : ℕ :=
  bytes.foldl (fun h b => (257 * h + b.toNat + 1) % (2 ^ 127 - 1)) h

/-- The digest of a key. -/
def Key.digest : Key → ℕ
  | secret => 1
  | dh share share' => absorb (absorb 2 share.1) share'.1
  | hmac key message => absorb (key.digest + 3) message
  | hkdf512 salt ikm info block => absorb (5 * salt.digest + 7 * ikm.digest + block) info
  | hkdf256 ikm info => absorb (ikm.digest + 11) info

/-- Encryption, authentication key and IV of a message key. -/
def Key.expand (key : Key) (info : Bytes) : BytesN 80 :=
  let block := absorb key.digest info
  ⟨Bytes.beBytes 32 block ++ Bytes.beBytes 32 block ++ Bytes.beBytes 16 block, by simp⟩

/-- `contents` with a 16-byte tag. -/
def gcmSeal (key : Key) (nonce contents : Bytes) : Bytes :=
  contents ++ Bytes.beBytes 16 (absorb (absorb key.digest nonce) contents)

def gcmOpen (key : Key) (nonce sealed : Bytes) : Option Bytes :=
  let contents := sealed.take (sealed.length - 16)
  if gcmSeal key nonce contents = sealed then some contents else none

theorem gcmOpen_eq_some {key : Key} {nonce c p : Bytes} :
    gcmOpen key nonce c = some p ↔ c = gcmSeal key nonce p := by
  constructor
  · intro h
    simp only [gcmOpen] at h
    split at h
    case isTrue heq =>
      cases h
      exact heq.symm
    case isFalse => cases h
  · rintro rfl
    have htake : (gcmSeal key nonce p).take ((gcmSeal key nonce p).length - 16) = p := by
      simp [gcmSeal]
    simp only [gcmOpen, htake, if_true]

/-- Equal digests of the same bytes come from the same start. -/
theorem absorb_modEq {h h' : ℕ} {bytes : Bytes}
    (heq : absorb h bytes ≡ absorb h' bytes [MOD 2 ^ 127 - 1]) : h ≡ h' [MOD 2 ^ 127 - 1] := by
  induction bytes generalizing h h' with
  | nil => exact heq
  | cons b bytes ih =>
    have hstep : 257 * h + b.toNat + 1 ≡ 257 * h' + b.toNat + 1 [MOD 2 ^ 127 - 1] := by
      have hmod := ih heq
      rwa [Nat.ModEq, Nat.mod_mod, Nat.mod_mod] at hmod
    have hmul := Nat.ModEq.add_right_cancel' b.toNat (Nat.ModEq.add_right_cancel' 1 hstep)
    exact Nat.ModEq.cancel_left_of_coprime (by decide) hmul

theorem absorb_lt (h : ℕ) {bytes : Bytes} (hne : bytes ≠ []) :
    absorb h bytes < 2 ^ 127 - 1 := by
  obtain ⟨init, b, rfl⟩ := (List.eq_nil_or_concat bytes).resolve_left hne
  rw [absorb, List.concat_eq_append, List.foldl_append]
  exact Nat.mod_lt _ (by decide)

/-- What opens under a key was sealed under a key with the same digest. -/
theorem digest_modEq_of_open {key key' : Key} {nonce contents : Bytes} (hne : contents ≠ [])
    (h : (gcmOpen key' nonce (gcmSeal key nonce contents)).isSome) :
    key'.digest ≡ key.digest [MOD 2 ^ 127 - 1] := by
  have htake : (gcmSeal key nonce contents).take ((gcmSeal key nonce contents).length - 16)
      = contents := by
    simp [gcmSeal]
  simp only [gcmOpen, htake] at h
  split at h
  case isTrue heq =>
    have hlt := fun k : Key => absorb_lt (absorb k.digest nonce) hne
    have htag := Bytes.beBytes_inj ((hlt key').trans (by decide)) ((hlt key).trans (by decide))
      (List.append_cancel_left heq)
    exact absorb_modEq (absorb_modEq (congrArg (· % (2 ^ 127 - 1)) htag))
  case isFalse => cases h

/-! ### Padding -/

/-- PKCS#7: fill up the last block with bytes that give their own number. -/
def pad (p : Bytes) : Bytes :=
  p ++ List.replicate (16 - p.length % 16) (UInt8.ofNat (16 - p.length % 16))

def unpad (c : Bytes) : Option Bytes :=
  match c.getLast? with
  | none => none
  | some n =>
    let p := c.take (c.length - n.toNat)
    if pad p = c then some p else none

theorem length_pad (p : Bytes) : (pad p).length = (p.length / 16 + 1) * 16 := by
  simp only [pad, List.length_append, List.length_replicate]
  omega

theorem unpad_pad (p : Bytes) : unpad (pad p) = some p := by
  obtain ⟨k, hk⟩ : ∃ k, 16 - p.length % 16 = k + 1 := ⟨15 - p.length % 16, by omega⟩
  have hn : (UInt8.ofNat (k + 1)).toNat = k + 1 := by
    rw [UInt8.toNat_ofNat']
    omega
  have hlast : (pad p).getLast? = some (UInt8.ofNat (k + 1)) := by
    rw [pad, hk, List.replicate_succ', ← List.append_assoc, List.getLast?_concat]
  have htake : (pad p).take ((pad p).length - (k + 1)) = p := by
    rw [pad, hk, List.length_append, List.length_replicate, Nat.add_sub_cancel,
      List.take_left]
  simp only [unpad, hlast, hn, htake, if_true]

/-- Unpadding accepts the padded strings only. -/
theorem unpad_eq_some (x p : Bytes) : unpad x = some p ↔ x = pad p := by
  constructor
  · intro h
    unfold unpad at h
    split at h
    · cases h
    · dsimp only at h
      split at h
      case isTrue heq =>
        cases h
        exact heq.symm
      case isFalse => cases h
  · rintro rfl
    exact unpad_pad p

/-! ### The primitives -/

/-- The primitives on symbolic keys; a private key is its own public key. -/
def primitives : Primitives Key where
  x25519PublicKey secret := secret
  x25519DiffieHellman secret pub := Key.agree secret pub
  hmacSha256 := .hmac
  hkdfSha512 := .hkdf512
  hkdfSha256 := .hkdf256
  hkdfSha256Okm := Key.expand
  hmacSha256Tag key data :=
    ⟨Bytes.beBytes 32 (absorb (Bytes.beNat key.1) data), Bytes.length_beBytes _ _⟩
  aes256CbcEncrypt _ _ p := pad p
  aes256CbcDecrypt _ _ c := unpad c
  aes256GcmSeal := gcmSeal
  aes256GcmOpen := gcmOpen

theorem correct : Correct primitives where
  dh_comm a b := Key.agree_comm a b
  gcm_open_seal _ _ _ := gcmOpen_eq_some.mpr rfl
  gcm_length key nonce p := by simp [primitives, gcmSeal]
  cbc_decrypt_encrypt _ _ p := unpad_pad p
  cbc_length _ _ p := length_pad p

theorem collisionFree : CollisionFree primitives .secret where
  hmac_inj h := Key.hmac.inj h
  hkdf512_inj h := Key.hkdf512.inj h
  hkdf256_inj h := Key.hkdf256.inj h
  hmac_ne_hkdf512 _ _ _ _ _ _ h := nomatch h
  hmac_ne_hkdf256 _ _ _ _ h := nomatch h
  hkdf512_ne_hkdf256 _ _ _ _ _ _ h := nomatch h
  secret_ne_hmac _ _ h := nomatch h
  secret_ne_hkdf512 _ _ _ _ h := nomatch h
  secret_ne_hkdf256 _ _ h := nomatch h
  secret_ne_dh a p h := (Key.agree_eq a p).elim (fun _ ⟨_, e⟩ => nomatch h.trans e)
  dh_ne_hmac a p _ _ h := (Key.agree_eq a p).elim (fun _ ⟨_, e⟩ => nomatch h.symm.trans e)
  dh_ne_hkdf512 a p _ _ _ _ h := (Key.agree_eq a p).elim (fun _ ⟨_, e⟩ => nomatch h.symm.trans e)

/-- A header opens only under keys with the digest of the key that sealed it. -/
theorem digest_of_opens {hk hk' : Key} {nonce : Bytes} (hn : nonce.length = 12)
    {header : RatchetHeader}
    (h : (decryptHeaderWithKey primitives hk' (sealHeader primitives hk nonce header)).isOk) :
    hk'.digest ≡ hk.digest [MOD 2 ^ 127 - 1] := by
  have hlen : header.toBytes ≠ [] := by
    intro hnil
    have := congrArg List.length hnil
    rw [RatchetHeader.length_toBytes] at this
    cases this
  have hdrop : (sealHeader primitives hk nonce header).drop 12
      = gcmSeal hk nonce header.toBytes := by
    simp [sealHeader, hn, primitives]
  rw [decryptHeaderWithKey_eq primitives (by simp [sealHeader, hn]),
    take_sealHeader hn, hdrop] at h
  have hopens : (gcmOpen hk' nonce (gcmSeal hk nonce header.toBytes)).isSome := by
    cases hopen : gcmOpen hk' nonce (gcmSeal hk nonce header.toBytes) with
    | none =>
      rw [show primitives.aes256GcmOpen = gcmOpen from rfl, hopen] at h
      cases h
    | some contents => rfl
  exact digest_modEq_of_open hlen hopens

/-- A call that draws the private key `secret`. -/
def env (secret : ℕ) : CallEnv Key where
  freshSecret := Bytes.leArray 32 secret
  clock _ _ := 0
  hashOrder := ⟨id, fun _ => .refl _⟩

end Ratchet.Symbolic
