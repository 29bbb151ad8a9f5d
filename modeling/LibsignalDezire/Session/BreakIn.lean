/-
Break-in recovery.

The attacker holds every field of a state, its DH private key included, and has
seen every message sent so far.  A DH ratchet mixes two Diffie-Hellman values
into the root key.  The first one can be computed from the stolen private key;
the second one uses the private key that is drawn in the step, and from it the
new root key, sending chain key and sending header key are derived.

* `Healed` — what is out of the attacker's reach after the step;
* `break_in_recovery` — **the keys that a DH ratchet leaves behind cannot be
  derived from the state before it**.
-/
import LibsignalDezire.Session.ForwardSecrecy

namespace Ratchet

variable {K : Type} [DecidableEq K] (P : Primitives K)

/-! ### The attacker -/

/-- What the attacker can hold: keys, DH private keys, bytes and opened headers. -/
inductive Term (K : Type) where
  | key (k : K)
  | secret (a : DhPrivateKey)
  | bytes (bytes : Bytes)
  | header (header : RatchetHeader)

/-- One step of the attacker: key derivation, Diffie-Hellman with a private key he
holds and one of the public keys `seen`, or decryption with a key he holds.
Plaintexts carry no keys. -/
inductive AttackRule (seen : Set DhPublicKey) : List (Term K) → Term K → Prop where
  | chainKey (ck : K) : AttackRule seen [.key ck] (.key (kdfCk P ck).1)
  | messageKey (ck : K) : AttackRule seen [.key ck] (.key (kdfCk P ck).2)
  | rootKey {rk dh rk' ck' nhk' : K} (h : kdfRkHe P rk dh = .ok (rk', ck', nhk')) :
      AttackRule seen [.key rk, .key dh] (.key rk')
  | rootChainKey {rk dh rk' ck' nhk' : K} (h : kdfRkHe P rk dh = .ok (rk', ck', nhk')) :
      AttackRule seen [.key rk, .key dh] (.key ck')
  | rootHeaderKey {rk dh rk' ck' nhk' : K} (h : kdfRkHe P rk dh = .ok (rk', ck', nhk')) :
      AttackRule seen [.key rk, .key dh] (.key nhk')
  | initiatorHeaderKey (sk : K) : AttackRule seen [.key sk] (.key (deriveHeaderKeys P sk).1)
  | responderHeaderKey (sk : K) : AttackRule seen [.key sk] (.key (deriveHeaderKeys P sk).2)
  | diffieHellman (a : DhPrivateKey) {pub : DhPublicKey} (h : pub ∈ seen) :
      AttackRule seen [.secret a] (.key (P.x25519DiffieHellman a pub))
  | openHeader {hk : K} {encHeader : Bytes} {header : RatchetHeader}
      (h : decryptHeaderWithKey P hk encHeader = .ok header) :
      AttackRule seen [.key hk, .bytes encHeader] (.header header)
  | openMessage {mk : K} {ciphertext ad encHeader plaintext : Bytes}
      (h : decryptAead P mk ciphertext (concatAd ad encHeader) = .ok plaintext) :
      AttackRule seen [.key mk, .bytes ciphertext, .bytes ad, .bytes encHeader]
        (.bytes plaintext)

/-- All that is in the state of `p`, and all messages sent so far. -/
def Exposed (s : Session K) (p : Party) : Term K → Prop
  | .key k => k ∈ (s.state p).keys
  | .secret a => a = (s.state p).dhPair.1
  | .bytes bytes => ∃ m ∈ s.sent, bytes = m.encHeader ∨ bytes = m.ciphertext ∨ bytes = m.ad
  | .header _ => False

/-- What the attacker can compute from there. -/
def Attainable (seen : Set DhPublicKey) (s : Session K) (p : Party) : Term K → Prop :=
  Derivable (AttackRule P seen) (Exposed s p)

/-- A Diffie-Hellman value is not a header key derived from a secret. -/
def DhApart : Prop := ∀ a pub k t, P.x25519DiffieHellman a pub ≠ P.hkdfSha256 k t

/-- Among the private keys `held` and the public keys `seen`, the Diffie-Hellman
value of `a` and `pub` needs one of its two private keys, up to private keys with
the same public key. -/
def DhPrivate (held : Set DhPrivateKey) (seen : Set DhPublicKey) (a : DhPrivateKey)
    (pub : DhPublicKey) : Prop :=
  ∀ a' ∈ held, ∀ pub' ∈ seen,
    P.x25519DiffieHellman a' pub' = P.x25519DiffieHellman a pub →
    P.x25519PublicKey a' = P.x25519PublicKey a ∨ P.x25519PublicKey a' = pub

/-! ### What is out of reach -/

/-- The second Diffie-Hellman value of the step, what is derived from it and the
root key `rk`, and the private keys it can be computed from. -/
inductive Healed (rk : K) (a : DhPrivateKey) (pub : DhPublicKey) : Term K → Prop where
  | dhValue : Healed rk a pub (.key (P.x25519DiffieHellman a pub))
  | derived (t : ℕ) :
      Healed rk a pub (.key (P.hkdfSha512 rk (P.x25519DiffieHellman a pub) hkdfInfoRoot t))
  | fresh {a'} (h : P.x25519PublicKey a' = P.x25519PublicKey a) : Healed rk a pub (.secret a')
  | peer {a'} (h : P.x25519PublicKey a' = pub) : Healed rk a pub (.secret a')

variable {P} {S : Schedule P} {b : Build} {s : Session K} {st : RatchetState K} {rk : K}
  {a : DhPrivateKey} {pub : DhPublicKey} {seen : Set DhPublicKey} {v : ℕ}

omit [DecidableEq K] in
theorem healed_key {k : K} (h : Healed P rk a pub (.key k)) :
    k = P.x25519DiffieHellman a pub ∨
      ∃ t, k = P.hkdfSha512 rk (P.x25519DiffieHellman a pub) hkdfInfoRoot t := by
  cases h with
  | dhValue => exact .inl rfl
  | derived t => exact .inr ⟨t, rfl⟩

section Guarded

variable (hS : CollisionFree P S.sk) (hA : DhApart P)

include hS

omit [DecidableEq K] in
theorem not_healed_hmac (k : K) (label : Bytes) :
    ¬ Healed P rk a pub (.key (P.hmacSha256 k label)) := by
  intro h
  rcases healed_key h with h | ⟨t, h⟩
  · exact hS.dh_ne_hmac _ _ _ _ h.symm
  · exact hS.hmac_ne_hkdf512 _ _ _ _ _ _ h

omit [DecidableEq K] in
/-- What KDF_RK_HE derives is out of reach only through the second value. -/
theorem Healed.of_hkdf512 {x dh : K} {info : Bytes} {t : ℕ}
    (h : Healed P rk a pub (.key (P.hkdfSha512 x dh info t))) :
    x = rk ∧ dh = P.x25519DiffieHellman a pub := by
  rcases healed_key h with h | ⟨t', h⟩
  · exact absurd h.symm (hS.dh_ne_hkdf512 _ _ _ _ _ _)
  · obtain ⟨hx, hdh, -⟩ := hS.hkdf512_inj h
    exact ⟨hx, hdh⟩

include hA

omit [DecidableEq K] in
theorem not_healed_hkdf256 (k : K) (label : Bytes) :
    ¬ Healed P rk a pub (.key (P.hkdfSha256 k label)) := by
  intro h
  rcases healed_key h with h | ⟨t, h⟩
  · exact hA _ _ _ _ h.symm
  · exact hS.hkdf512_ne_hkdf256 _ _ _ _ _ _ h.symm

/-- **What is out of reach stays out of reach**: every rule that concludes it needs
a premise that is out of reach. -/
theorem Healed.guarded {p : Party}
    (hD : DhPrivate P {a' | Attainable P seen s p (.secret a')} seen a pub)
    (premises : List (Term K)) (t : Term K) (hrule : AttackRule P seen premises t)
    (hder : ∀ x ∈ premises, Attainable P seen s p x) (h : Healed P rk a pub t) :
    ∃ x ∈ premises, Healed P rk a pub x := by
  -- KDF_RK_HE mixes in the second value
  have hroot : ∀ {x dh : K} {t : ℕ},
      Healed P rk a pub (.key (P.hkdfSha512 x dh hkdfInfoRoot t)) →
      ∃ y ∈ [Term.key x, Term.key dh], Healed P rk a pub y := by
    intro x dh t h
    obtain ⟨-, rfl⟩ := h.of_hkdf512 hS
    exact ⟨_, List.mem_cons_of_mem _ List.mem_cons_self, .dhValue⟩
  cases hrule with
  | chainKey ck => exact absurd h (not_healed_hmac hS _ _)
  | messageKey ck => exact absurd h (not_healed_hmac hS _ _)
  | rootKey hk =>
    cases hk
    exact hroot h
  | rootChainKey hk =>
    cases hk
    exact hroot h
  | rootHeaderKey hk =>
    cases hk
    exact hroot h
  | initiatorHeaderKey sk => exact absurd h (not_healed_hkdf256 hS hA _ _)
  | responderHeaderKey sk => exact absurd h (not_healed_hkdf256 hS hA _ _)
  | diffieHellman a' hseen =>
    refine ⟨_, List.mem_cons_self, ?_⟩
    rcases healed_key h with h | ⟨t, h⟩
    · rcases hD a' (hder _ List.mem_cons_self) _ hseen h with hfresh | hpeer
      · exact .fresh hfresh
      · exact .peer hpeer
    · exact absurd h (hS.dh_ne_hkdf512 _ _ _ _ _ _)
  | openHeader => cases h
  | openMessage => cases h

end Guarded

/-! ### The state before the step -/

section Before

variable (hS : CollisionFree P S.sk) (hA : DhApart P)

include hS

omit [DecidableEq K] in
theorem rootKey_not_healed : ¬ Healed P (S.rootKey (v + 1)) a pub (.key (S.rootKey v)) := by
  intro h
  cases v with
  | zero =>
    rcases healed_key h with h | ⟨t, h⟩
    · exact hS.secret_ne_dh _ _ h
    · exact hS.secret_ne_hkdf512 _ _ _ _ h
  | succ v =>
    have := Schedule.rootKey_injective hS (h.of_hkdf512 hS).1
    omega

omit [DecidableEq K] in
theorem chainKey_not_healed {i x : ℕ} (hi : i ≤ v) :
    ¬ Healed P (S.rootKey (v + 1)) a pub (.key (S.chainKey i x)) := by
  intro h
  cases x with
  | zero =>
    have := Schedule.rootKey_injective hS (h.of_hkdf512 hS).1
    omega
  | succ x =>
    rw [S.chainKey_succ] at h
    exact not_healed_hmac hS _ _ h

include hA

omit [DecidableEq K] in
theorem headerKey_not_healed {i : ℕ} (hi : i ≤ v + 1) :
    ¬ Healed P (S.rootKey (v + 1)) a pub (.key (S.headerKey i)) := by
  intro h
  match i with
  | 0 => exact not_healed_hkdf256 hS hA _ _ h
  | 1 => exact not_healed_hkdf256 hS hA _ _ h
  | i + 2 =>
    have := Schedule.rootKey_injective hS (h.of_hkdf512 hS).1
    omega

/-- No key of the state is out of reach: they all come from earlier root keys. -/
theorem Synced.not_healed (h : Synced S v st) {key : K} (hkey : key ∈ st.keys) :
    ¬ Healed P (S.rootKey (v + 1)) a pub (.key key) := by
  cases h.mem_keys hkey with
  | rootKey => exact rootKey_not_healed hS
  | headerKey hi => exact headerKey_not_healed hS hA hi
  | sending hv => exact chainKey_not_healed hS (by omega)
  | receiving hv => exact chainKey_not_healed hS (by omega)
  | skipped hk hi => exact not_healed_hmac hS _ _

/-- What is out of reach is not attainable from the state before the step. -/
theorem Synced.not_attainable {p : Party} (h : Synced S v (s.state p))
    (hD : DhPrivate P {a' | Attainable P seen s p (.secret a')} seen a pub)
    (hfresh : P.x25519PublicKey a ≠ (s.state p).dhPair.2)
    (hpeer : P.x25519PublicKey (s.state p).dhPair.1 ≠ pub) {t : Term K}
    (hhealed : Healed P (S.rootKey (v + 1)) a pub t) : ¬ Attainable P seen s p t := by
  intro hatt
  refine hatt.not_guarded_of_derivable (fun x hx hh => ?_) (Healed.guarded hS hA hD) hhealed
  cases x with
  | key k => exact h.not_healed hS hA hx hh
  | secret a' =>
    obtain rfl : a' = (s.state p).dhPair.1 := hx
    cases hh with
    | fresh heq =>
      refine hfresh (heq.symm.trans ?_)
      rw [h.dhPair]
      rfl
    | peer heq => exact hpeer heq
  | bytes bytes => cases hh
  | header header => cases hh

end Before

/-- No rule gives a private key. -/
theorem secret_of_attainable {p : Party} (h : Attainable P seen s p (.secret a)) :
    a = (s.state p).dhPair.1 := by
  cases h with
  | known ha => exact ha
  | rule hrule => cases hrule

/-! ### Break-in recovery -/

/-- **Break-in recovery.**  When `decrypt` of a genuine message replaces the key
pair of a party, the new root key, sending chain key, sending header key and
private key are not attainable from the state before the call, whichever public
keys the attacker uses, provided that no attainable private key belongs to the
public key in the header and that the private key drawn is not the old one. -/
theorem break_in_recovery (hP : Correct P) {sk : K} {bob : DhPrivateKey}
    (hS : CollisionFree P sk)
    (hA : DhApart P) (hreach : Reachable P b sk bob (Authentic P b) s) {p : Party}
    {env : CallEnv K} {m : Sealed K} (hm : m ∈ s.sent)
    (hauth : AuthenticCall P b s p m.encHeader m.ciphertext m.ad)
    {o : Outcome RatchetError Bytes} {st' : RatchetState K}
    (hres : decrypt P b env m.encHeader m.ciphertext m.ad (s.state p) = (o, st'))
    (hratchet : st'.dhPair ≠ (s.state p).dhPair)
    (hfresh : P.x25519PublicKey env.freshSecret ≠ (s.state p).dhPair.2)
    {seen : Set DhPublicKey}
    (hD : DhPrivate P {a | Attainable P seen s p (.secret a)} seen env.freshSecret
      m.header.dhPub)
    (hpeer : ∀ a, Attainable P seen s p (.secret a) → P.x25519PublicKey a ≠ m.header.dhPub) :
    ¬ Attainable P seen s p (.key st'.rk) ∧
      (∃ ck, st'.ckS = some ck ∧ ¬ Attainable P seen s p (.key ck)) ∧
      ¬ Attainable P seen s p (.key st'.nhkS) ∧
        ¬ Attainable P seen s p (.secret st'.dhPair.1) := by
  have hkeys : (s.schedule P sk bob).KdfSeparates := Schedule.kdfSeparates hS
  have hsync := hreach.sync hP hkeys (agrees_schedule sk bob s)
  have hstate := hsync.state p
  have hrec := receives env hP hkeys hsync hauth
  rw [hres] at hrec
  -- the key pair changes only in a DH ratchet
  obtain ⟨m', hm', hat, his, mkskipped, hst'⟩ :=
    hrec.sameSending_or_ratchet.resolve_left fun hsame => hratchet hsame.dhPair
  obtain rfl := hreach.noncesUsed.encHeader_inj hm' hm his.encHeader
  obtain ⟨rfl, rfl⟩ := Prod.mk.inj hst'
  -- the root key after the first of the two values
  have hroot : P.hkdfSha512 (s.state p).rk
      (P.x25519DiffieHellman (s.state p).dhPair.1 m'.header.dhPub) hkdfInfoRoot 0
        = (s.schedule P sk bob).rootKey (view p s.chains.length + 1) := by
    rw [hstate.rk, hstate.dhPair, hat.dhPub, Schedule.dhValue_comm _ hP]
    rfl
  have hpeer' := hpeer _ (.known rfl)
  refine ⟨hstate.not_attainable hS hA hD hfresh hpeer' ?_,
    ⟨_, rfl, hstate.not_attainable hS hA hD hfresh hpeer' ?_⟩,
    hstate.not_attainable hS hA hD hfresh hpeer' ?_,
    hstate.not_attainable hS hA hD hfresh hpeer' (.fresh rfl)⟩
  · rw [← hroot]
    exact .derived 0
  · rw [← hroot]
    exact .derived 1
  · rw [← hroot]
    exact .derived 2

namespace Symbolic

theorem dhApart : DhApart primitives := fun a pub _ _ h =>
  (Key.agree_eq a pub).elim fun _ ⟨_, e⟩ => nomatch h.symm.trans e

theorem dhPrivate (held : Set DhPrivateKey) (seen : Set DhPublicKey) (a : DhPrivateKey)
    (pub : DhPublicKey) : DhPrivate primitives held seen a pub := by
  intro a' _ pub' _ h
  have hagree : Key.agree a' pub' = Key.agree a pub := h
  unfold Key.agree at hagree
  split at hagree <;> split at hagree <;> cases hagree
  · exact .inl rfl
  · exact .inr rfl
  · exact .inr rfl
  · exact .inl rfl

/-- The responder, broken into before the first message, recovers with it, even from
an attacker who uses every public key. -/
theorem break_in_recovery_of_first_message :
    ¬ Attainable primitives Set.univ (after threeSent) .responder
      (.key ((after (threeSent ++ [receive 0])).state .responder).rk) := by
  have hes : Machine.Along (Session.step primitives .release) (Authentic primitives .release)
      session (threeSent ++ [receive 0]) := by
    decide +kernel
  obtain ⟨hsent, hauth, -⟩ := Machine.along_append.mp hes
  have hm : message 0 ∈ (after threeSent).sent := by decide +kernel
  have hfresh : primitives.x25519PublicKey (Symbolic.env 3).freshSecret
      ≠ ((after threeSent).state .responder).dhPair.2 := by
    decide +kernel
  have hratchet : (decrypt primitives .release (Symbolic.env 3) (message 0).encHeader
      (message 0).ciphertext (message 0).ad ((after threeSent).state .responder)).2.dhPair
        ≠ ((after threeSent).state .responder).dhPair := by
    decide +kernel
  have hpeer : primitives.x25519PublicKey ((after threeSent).state .responder).dhPair.1
      ≠ (message 0).header.dhPub := by
    decide +kernel
  have hrk : ((after (threeSent ++ [receive 0])).state .responder).rk
      = (decrypt primitives .release (Symbolic.env 3) (message 0).encHeader
        (message 0).ciphertext (message 0).ad ((after threeSent).state .responder)).2.rk := by
    decide +kernel
  rw [hrk]
  refine (break_in_recovery correct collisionFree dhApart (reachable_after hsent) hm hauth
    Prod.mk.eta.symm hratchet hfresh (dhPrivate _ _ _ _) fun a ha => ?_).1
  rw [secret_of_attainable ha]
  exact hpeer

end Symbolic

end Ratchet
