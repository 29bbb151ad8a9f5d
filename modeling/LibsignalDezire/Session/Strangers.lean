/-
Two parties whose shared secrets differ.

The initiator seals her headers under a key of her own secret, and the responder
knows keys of his only, so nothing is ever accepted and the responder never gets to
send.

* `Strangers.step` — nothing that happens brings the two together;
* `strangers_refuse` — **what every call returns** between them, over any network.
-/
import LibsignalDezire.Session.Run
import LibsignalDezire.Ratchet.Presence

namespace Ratchet

variable {K : Type} [DecidableEq K] (P : Primitives K)

/-- Two states side by side, before anything has happened. -/
def Session.pair (initiator responder : RatchetState K) : Session K where
  state := fun
    | .initiator => initiator
    | .responder => responder
  sent := []
  opened := []
  chains := sendingChain .initiator initiator

omit [DecidableEq K] in
theorem Session.start_eq_pair {sk : K} {bob dhS : DhPrivateKey} {initiator : RatchetState K}
    (h : initSenderState P dhS sk (P.x25519PublicKey bob) = .ok initiator) :
    Session.start P sk bob dhS
      = .ok (Session.pair initiator (initReceiverState P sk (bob, P.x25519PublicKey bob))) := by
  rw [Session.start, h]
  rfl

/-- What a call returns while nothing can be accepted. -/
def Refuses (b : Build) (s : Session K) : Event K → Prop
  | .encrypt .initiator _ _ => True
  | .encrypt .responder plaintext ad =>
    (Ratchet.encrypt P plaintext ad (s.state .responder)).1 = .err .invalidState
  | .decrypt p env encHeader ciphertext ad =>
    (Ratchet.decrypt P b env encHeader ciphertext ad (s.state p)).1
      = .err (if maxAdSize < ad.length then .adTooLarge else .headerDecryptionFailed)

/-! ### Closed states -/

section Closed

variable {P} {b : Build} {st : RatchetState K} {encHeader ciphertext ad : Bytes}

omit [DecidableEq K] in
theorem decryptHeader_of_closed
    (h : ∀ hk ∈ st.headerKeys, ¬ (decryptHeaderWithKey P hk encHeader).isOk) :
    decryptHeader P st encHeader = .err .headerDecryptionFailed := by
  cases hres : decryptHeader P st encHeader with
  | ok hf =>
    obtain ⟨header, f⟩ := hf
    rcases decryptHeader_eq_ok P hres with ⟨-, hk, hhk, hopen⟩ | ⟨-, hopen⟩
    · refine absurd (Outcome.isOk_iff.mpr ⟨header, hopen⟩) (h hk ?_)
      simp [RatchetState.headerKeys, hhk]
    · refine absurd (Outcome.isOk_iff.mpr ⟨header, hopen⟩) (h st.nhkR ?_)
      simp [RatchetState.headerKeys]
  | err e => rw [decryptHeader_eq_err hres]
  | panic => exact absurd hres (decryptHeader_returns P st encHeader)

/-- A call of `decrypt` on a header that no key opens. -/
theorem decrypt_of_closed (env : CallEnv K)
    (h : ∀ hk ∈ st.headerKeys, ¬ (decryptHeaderWithKey P hk encHeader).isOk) :
    decrypt P b env encHeader ciphertext ad st
      = (.err (if maxAdSize < ad.length then .adTooLarge else .headerDecryptionFailed), st) := by
  split
  case isTrue had => exact decrypt_of_adTooLarge P had
  case isFalse had =>
    have hskip : ∀ k v q, st.mkskipped.lookup k = some v →
        ¬ Opens P k v encHeader ciphertext (concatAd ad encHeader) q := by
      rintro k v q hk ⟨header, hopen, -, -⟩
      have hmem : k ∈ st.mkskipped.keys := AList.lookup_isSome.mp (hk ▸ rfl)
      refine h k.1 ?_ (Outcome.isOk_iff.mpr ⟨header, hopen⟩)
      exact List.mem_append_right _ (List.mem_cons_of_mem _ (List.mem_map_of_mem hmem))
    rw [decrypt_of_not_skipped P (not_lt.mp had) hskip, decryptHeader_of_closed h]

end Closed

/-! ### Strangers -/

variable {P} {b : Build} {sk sk' : K} {s : Session K}

/-- The calls that derive the header keys of an initiator with the secret `sk` and of a
responder with the secret `sk'`. -/
def headerKeyCalls (sk sk' : K) : Set (KdfCall K) :=
  {.hkdf256 sk headerInitiatorLabel, .hkdf256 sk headerResponderLabel,
    .hkdf256 sk' headerInitiatorLabel}

omit [DecidableEq K] in
theorem CollisionFree.injOn_headerKeyCalls (h : CollisionFree P sk) (sk' : K) :
    Set.InjOn (KdfCall.eval P) (headerKeyCalls sk sk') := by
  refine h.injOn.mono ?_
  rintro c (rfl | rfl | rfl) <;>
    exact fun _ heq => nomatch heq

/-- Neither party has accepted anything, and the initiator seals under her own secret. -/
structure Strangers (P : Primitives K) (sk sk' : K) (s : Session K) : Prop where
  initiator : (s.state .initiator).headerKeys = [P.hkdfSha256 sk headerResponderLabel]
  responder : (s.state .responder).headerKeys = [P.hkdfSha256 sk' headerInitiatorLabel]
  hkS : (s.state .initiator).hkS = some (P.hkdfSha256 sk headerInitiatorLabel)
  silent : (s.state .responder).ckS = none
  sent : ∀ m ∈ s.sent, m.headerKey = some (P.hkdfSha256 sk headerInitiatorLabel)

omit [DecidableEq K] in
theorem strangers_pair {dhS : DhPrivateKey} {pub : DhPublicKey} {initiator : RatchetState K}
    (h : initSenderState P dhS sk pub = .ok initiator) (pair : DhPrivateKey × DhPublicKey) :
    Strangers P sk sk' (Session.pair initiator (initReceiverState P sk' pair)) := by
  cases h
  exact ⟨rfl, rfl, rfl, rfl, fun m hm => absurd hm List.not_mem_nil⟩

/-- No header key of either party opens anything. -/
theorem Strangers.closed (h : Strangers P sk sk' s)
    (hS : Set.InjOn (KdfCall.eval P) (headerKeyCalls sk sk')) (hne : sk ≠ sk')
    {p : Party} {encHeader ciphertext ad : Bytes}
    (hauth : AuthenticCall P b s p encHeader ciphertext ad) :
    ∀ hk ∈ (s.state p).headerKeys, ¬ (decryptHeaderWithKey P hk encHeader).isOk := by
  intro hk hmem hopen
  obtain ⟨m, hm, hhk, -⟩ := hauth.1 hk hmem hopen
  have hkey := Option.some_inj.mp ((h.sent m hm).symm.trans hhk)
  have hsends : KdfCall.hkdf256 sk headerInitiatorLabel ∈ headerKeyCalls sk sk' := .inl rfl
  have hlabels : headerInitiatorLabel ≠ headerResponderLabel := by decide
  cases p with
  | initiator =>
    rw [h.initiator, List.mem_singleton, ← hkey] at hmem
    have heq := hS hsends (.inr (.inl rfl)) hmem
    exact hlabels (KdfCall.hkdf256.inj heq).2
  | responder =>
    rw [h.responder, List.mem_singleton, ← hkey] at hmem
    have heq := hS hsends (.inr (.inr rfl)) hmem
    exact hne (KdfCall.hkdf256.inj heq).1

omit [DecidableEq K] in
theorem Strangers.encrypt_responder (h : Strangers P sk sk' s) (plaintext ad : Bytes) :
    encrypt P plaintext ad (s.state .responder) = (.err .invalidState, s.state .responder) := by
  have hsend : ¬ CanSend (s.state .responder) := by
    rintro ⟨hck, -, -⟩
    rw [h.silent] at hck
    cases hck
  rcases encrypt_cases P (s.state .responder) plaintext ad with
    ⟨-, hres⟩ | ⟨hcan, -, -⟩ | ⟨ck, hk, hck, -⟩
  · exact hres
  · exact absurd hcan hsend
  · rw [h.silent] at hck
    cases hck

theorem Strangers.refuses (h : Strangers P sk sk' s)
    (hS : Set.InjOn (KdfCall.eval P) (headerKeyCalls sk sk')) (hne : sk ≠ sk')
    {e : Event K} (hauth : Authentic P b s e) : Refuses P b s e := by
  cases e with
  | decrypt p env encHeader ciphertext ad =>
    exact congrArg Prod.fst (decrypt_of_closed env (h.closed hS hne hauth))
  | encrypt p plaintext ad =>
    cases p with
    | initiator => trivial
    | responder => exact congrArg Prod.fst (h.encrypt_responder plaintext ad)

omit [DecidableEq K] in
/-- Encrypting changes no header key. -/
theorem encrypt_headerKeys (st : RatchetState K) (plaintext ad : Bytes) :
    (encrypt P plaintext ad st).2.headerKeys = st.headerKeys ∧
      (encrypt P plaintext ad st).2.hkS = st.hkS := by
  rcases encrypt_cases P st plaintext ad with
    ⟨-, hres⟩ | ⟨-, -, hres⟩ | ⟨ck, hk, -, -, -, -, ⟨-, hres⟩ |
      ⟨ns, -, ⟨-, hres⟩ | ⟨c, -, hres⟩⟩⟩
  all_goals
    rw [hres]
    exact ⟨rfl, rfl⟩

/-- **Nothing brings two strangers together.** -/
theorem Strangers.step (h : Strangers P sk sk' s)
    (hS : Set.InjOn (KdfCall.eval P) (headerKeyCalls sk sk')) (hne : sk ≠ sk')
    {e : Event K} (hauth : Authentic P b s e) : Strangers P sk sk' (s.step P b e) := by
  cases e with
  | decrypt p env encHeader ciphertext ad =>
    have hres : decrypt P b env encHeader ciphertext ad (s.state p) = (_, s.state p) :=
      decrypt_of_closed env (h.closed hS hne hauth)
    have hstate := Session.decrypt_state hres
    rw [Function.update_eq_self] at hstate
    refine ⟨?_, ?_, ?_, ?_, h.sent⟩
    all_goals rw [Session.step, hstate]
    exacts [h.initiator, h.responder, h.hkS, h.silent]
  | encrypt p plaintext ad =>
    cases p with
    | responder =>
      have hidle : s.encrypt P .responder plaintext ad = s := by
        simp only [Session.encrypt, h.encrypt_responder, Function.update_eq_self]
      rw [Session.step, hidle]
      exact h
    | initiator =>
      have hstate : (s.encrypt P .initiator plaintext ad).state
        = Function.update s.state .initiator
          (encrypt P plaintext ad (s.state .initiator)).2 := Session.encrypt_state
      obtain ⟨hkeys, hhkS⟩ := encrypt_headerKeys (P := P) (s.state .initiator) plaintext ad
      obtain ⟨-, -, -, hsent⟩ := Session.encrypt_frame (P := P) s .initiator plaintext ad
      refine ⟨?_, ?_, ?_, ?_, ?_⟩
      · rw [Session.step, hstate]
        exact hkeys.trans h.initiator
      · rw [Session.step, hstate]
        exact h.responder
      · rw [Session.step, hstate]
        exact hhkS.trans h.hkS
      · rw [Session.step, hstate]
        exact h.silent
      · rcases hsent with hsame | ⟨m, hmore, -, -, hhk⟩
        · rw [Session.step, hsame]
          exact h.sent
        · rw [Session.step, hmore, List.forall_mem_cons]
          exact ⟨hhk.trans h.hkS, h.sent⟩

/-- **Strangers refuse each other.**  If the secrets of the two parties differ, then in
every run over any network with ideal encryption every delivery is refused, with the
same error whatever is delivered, and the responder is refused whenever he tries to
send. -/
theorem strangers_refuse (hS : Set.InjOn (KdfCall.eval P) (headerKeyCalls sk sk'))
    (hne : sk ≠ sk') {dhS : DhPrivateKey} {pub : DhPublicKey} {initiator : RatchetState K}
    (h : initSenderState P dhS sk pub = .ok initiator) (pair : DhPrivateKey × DhPublicKey)
    {es : List (Event K)}
    (hes : Machine.Along (Session.step P b) (Authentic P b)
      (Session.pair initiator (initReceiverState P sk' pair)) es) :
    Machine.Along (Session.step P b) (Refuses P b)
      (Session.pair initiator (initReceiverState P sk' pair)) es :=
  (hes.with_invariant (fun _ _ hs hauth => hs.step hS hne hauth)
    (strangers_pair h pair)).mono fun _ _ hs => hs.1.refuses hS hne hs.2

/-! ### Two secrets -/

namespace Symbolic

/-- An initiator and a responder who has derived another secret. -/
def strangers : Session Key :=
  Session.pair (session.state .initiator) (initReceiverState primitives
    (.dh (Bytes.leArray 32 2) (Bytes.leArray 32 1)) (Bytes.leArray 32 1, Bytes.leArray 32 1))

/-- The first message. -/
def unheard : Sealed Key :=
  (strangers.encrypt primitives .initiator [0x61] []).sent.head (by decide +kernel)

/-- The first message is delivered, and the responder tries to send. -/
def unheardDelivery : List (Event Key) :=
  [.encrypt .initiator [0x61] [], .decrypt .responder
    (env 3) unheard.encHeader unheard.ciphertext [],
    .encrypt .responder [0x62] []]

theorem strangers_refuse_of_first :
    Machine.Along (Session.step primitives .release) (Refuses primitives .release) strangers
      unheardDelivery := by
  have hes : Machine.Along (Session.step primitives .release) (Authentic primitives .release)
      strangers unheardDelivery := by
    decide +kernel
  have hne : Key.secret ≠ .dh (Bytes.leArray 32 2) (Bytes.leArray 32 1) := by
    intro h
    cases h
  have hinit : initSenderState primitives (Bytes.leArray 32 2) .secret (Bytes.leArray 32 1)
      = .ok (session.state .initiator) := rfl
  exact strangers_refuse (collisionFree.injOn_headerKeyCalls _) hne hinit _ hes

end Symbolic

end Ratchet
