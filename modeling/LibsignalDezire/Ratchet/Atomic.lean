/-
Which failing calls of `encrypt` and `decrypt` change the state.

`encrypt` steps the sending chain before it counts the message, and counts the
message before it takes a nonce: at the end of a counter the earlier steps stay.

In `decrypt`, every refusal before the commit leaves the state alone.  The
commit itself is not atomic: `skip_message_keys` takes the map out of the state
and drops it on an error, and the limit on tracked messages is checked after the
chain has been stepped.

* `encrypt_atomic_iff` — **an error of `encrypt` leaves the state unchanged
  exactly when no counter runs out**;
* `decrypt_atomic_iff` — **an error leaves the state unchanged exactly when the
  call does not fail in or after its commit**;
* `error_loses_skipped_keys` — such a failure can be provoked by a peer that
  miscounts.
-/
import LibsignalDezire.Ratchet.Symbolic
import LibsignalDezire.Ratchet.Effects

namespace Ratchet

variable {K : Type} [DecidableEq K] {P : Primitives K} {b : Build} {env : CallEnv K}
  {st : RatchetState K} {encHeader ciphertext ad : Bytes} {header : RatchetHeader} {f : Bool}
  {p : Bytes}

/-! ### Encryption -/

/-- The call gets past the checks of the keys and of the associated data, and
then runs out of message numbers (after a step of the chain that changes its
key) or of nonces (after counting the message). -/
def RunsOut (P : Primitives K) (st : RatchetState K) (ad : Bytes) : Prop :=
  CanSend st ∧ ad.length ≤ maxAdSize ∧ ∃ ck, st.ckS = some ck ∧
    (st.ns.toNat = 2 ^ 32 - 1 ∧ (kdfCk P ck).1 ≠ ck ∨
      st.ns.toNat < 2 ^ 32 - 1 ∧ st.headerNonceCounter.toNat = 2 ^ 64 - 1)

omit [DecidableEq K] in
/-- **When an error of `encrypt` leaves the state unchanged.**  For every state,
plaintext and associated data: if `encrypt` returns an error then every field
keeps its value, exactly unless a counter runs out. -/
theorem encrypt_atomic_iff (P : Primitives K) (st : RatchetState K) (plaintext ad : Bytes) :
    (∀ e, (encrypt P plaintext ad st).1 = .err e → (encrypt P plaintext ad st).2 = st) ↔
      ¬ RunsOut P st ad := by
  rcases encrypt_cases P st plaintext ad with
    ⟨hsend, hres⟩ | ⟨-, had, hres⟩ | ⟨ck, hk, hck, hhk, hrem, had, hres⟩
  · rw [hres]
    exact ⟨fun _ h => hsend h.1, fun _ _ _ => rfl⟩
  · rw [hres]
    refine ⟨fun _ h => ?_, fun _ _ _ => rfl⟩
    have := h.2.1
    omega
  have hsend : CanSend st := by simp [CanSend, hck, hhk, hrem]
  -- past the checks, only the two counters decide
  have hiff : RunsOut P st ad ↔ st.ns.toNat = 2 ^ 32 - 1 ∧ (kdfCk P ck).1 ≠ ck ∨
      st.ns.toNat < 2 ^ 32 - 1 ∧ st.headerNonceCounter.toNat = 2 ^ 64 - 1 := by
    constructor
    · rintro ⟨-, -, ck', hck', h⟩
      rw [hck, Option.some_inj] at hck'
      rwa [hck']
    · exact fun h => ⟨hsend, had, ck, hck, h⟩
  rw [hiff]
  rcases hres with ⟨hns, hres⟩ | ⟨ns, hns, ⟨hc, hres⟩ | ⟨c, hc, hres⟩⟩
  · have hmax := checkedAdd32_one_eq_none.mp hns
    rw [hres]
    constructor
    · rintro h (⟨-, hne⟩ | ⟨hlt, -⟩)
      · have hst := congrArg RatchetState.ckS (h _ rfl)
        dsimp only at hst
        rw [hck, Option.some_inj] at hst
        exact hne hst
      · omega
    · intro h e he
      have hfix : (kdfCk P ck).1 = ck := by
        by_contra hne
        exact h (.inl ⟨hmax, hne⟩)
      dsimp only
      rw [hfix, ← hck]
  · have hlt := checkedAdd32_one_eq_some.mp hns
    have hmax := checkedAdd64_one_eq_none.mp hc
    have hns_lt := ns.toNat_lt
    rw [hres]
    refine iff_of_false (fun h => ?_) (fun h => h (.inr ⟨by omega, hmax⟩))
    have hst := congrArg RatchetState.ns (h _ rfl)
    dsimp only at hst
    rw [hst] at hlt
    omega
  · have hlt := checkedAdd32_one_eq_some.mp hns
    have hlt' := checkedAdd64_one_eq_some hc
    have hns_lt := ns.toNat_lt
    have hc_lt := c.toNat_lt
    rw [hres]
    refine iff_of_true (fun e he => by cases he) ?_
    rintro (⟨h, -⟩ | ⟨-, h⟩)
    · omega
    · omega

namespace Symbolic

/-- The initiator before the first message. -/
def sender : RatchetState Key :=
  (initSenderState primitives (Bytes.leArray 32 2) .secret (Bytes.leArray 32 1)).get rfl

/-- The initiator after `2 ^ 32 - 1` messages of one chain. -/
def lastSender : RatchetState Key := { sender with ns := 0xFFFFFFFF }

/-- **An error of `encrypt` that steps the chain.** -/
theorem overflow_steps_chain :
    (encrypt primitives [0x61] [] lastSender).1 = .err .counterOverflow ∧
    (encrypt primitives [0x61] [] lastSender).2 ≠ lastSender := by
  refine ⟨by decide +kernel, fun h => ?_⟩
  have hck : (encrypt primitives [0x61] [] lastSender).2.ckS ≠ lastSender.ckS := by
    decide +kernel
  exact hck (congrArg RatchetState.ckS h)

end Symbolic

/-! ### Decryption -/

/-- The number the header asks to skip to on the chain with next number `nr` is
before `nr`, or too far behind it. -/
def OutOfRange (nr toN : UInt32) : Prop :=
  toN.toNat < nr.toNat ∨ nr.toNat + maxSkip.toNat < toN.toNat

instance (nr toN : UInt32) : Decidable (OutOfRange nr toN) :=
  inferInstanceAs (Decidable (_ ∨ _))

/-- The commit of this header loses the skipped keys, or the call fails after it. -/
def CommitLoses (st : RatchetState K) (header : RatchetHeader) (dhRatchet : Bool) : Prop :=
  if dhRatchet then
    st.ckR.isSome ∧ st.hkR.isSome ∧ OutOfRange st.nr header.pn ∧ st.mkskipped ≠ ∅
  else
    header.n.toNat < st.nr.toNat ∧ st.mkskipped ≠ ∅ ∨
      st.nr.toNat ≤ header.n.toNat ∧ maxReceivedTracking ≤ st.receivedMessages.card

/-- The call authenticates a header whose commit loses. -/
def FailsInCommit (P : Primitives K) (b : Build) (st : RatchetState K)
    (encHeader ciphertext ad : Bytes) : Prop :=
  ∃ header dhRatchet p, Authenticates P b st encHeader ciphertext ad header dhRatchet p ∧
    CommitLoses st header dhRatchet

/-- A call authenticates at most one header. -/
theorem Authenticates.unique {header' : RatchetHeader} {f' : Bool} {p' : Bytes}
    (h : Authenticates P b st encHeader ciphertext ad header f p)
    (h' : Authenticates P b st encHeader ciphertext ad header' f' p') :
    header' = header ∧ f' = f := by
  have heq := h'.header_eq.symm.trans h.header_eq
  cases heq
  exact ⟨rfl, rfl⟩

/-- An authenticated header on the current chain comes with that chain. -/
theorem Authenticates.chain (h : Authenticates P b st encHeader ciphertext ad header false p) :
    (∃ ck, st.ckR = some ck) ∧ ∃ hk, st.hkR = some hk := by
  obtain ⟨key, hkey, -⟩ := h.opens
  obtain ⟨ck, hck, -⟩ := computeMessageKey_eq_ok P hkey
  refine ⟨⟨ck, hck⟩, ?_⟩
  rcases decryptHeader_eq_ok P h.header_eq with ⟨-, hk, hhk, -⟩ | ⟨hf, -⟩
  · exact ⟨hk, hhk⟩
  · cases hf

omit [DecidableEq K] in
theorem with_empty_eq_self : { st with mkskipped := ∅ } = st ↔ st.mkskipped = ∅ := by
  constructor
  · intro h
    rw [← h]
  · intro h
    rw [← h]

/-- The commit on the current chain, below the next number: the map is lost. -/
theorem commit_below (h : Authenticates P b st encHeader ciphertext ad header false p)
    (hlt : header.n.toNat < st.nr.toNat) :
    commitStateChanges P env header false st
      = (.err .invalidHeader, { st with mkskipped := ∅ }) := by
  obtain ⟨⟨ck, hck⟩, hk, hhk⟩ := h.chain
  rw [commitStateChanges_false P env header hck hhk, skipMessageKeys_of_lt P _ _ _ _ _ hlt]

/-- The commit on the current chain, from the next number on: it goes through. -/
theorem commit_from (env : CallEnv K) (h : Authenticates P b st encHeader ciphertext ad
    header false p)
    (hle : st.nr.toNat ≤ header.n.toNat) :
    ∃ mkskipped ckR nr, nr.toNat = st.nr.toNat + 1 ∧
      commitStateChanges P env header false st = (.ok ⟨⟩, { st with mkskipped, ckR, nr }) := by
  obtain ⟨⟨ck, hck⟩, hk, hhk⟩ := h.chain
  obtain ⟨key, hkey, -⟩ := h.opens
  obtain ⟨-, -, -, hlimit, hover⟩ := computeMessageKey_eq_ok P hkey
  rw [recvNumber_false] at hlimit hover
  have hmax : maxSkip.toNat = 1000 := rfl
  obtain ⟨mkskipped, nr, -, hnr, hcommit⟩ :=
    commitStateChanges_of_le P env hck hhk hle hlimit (by omega)
  exact ⟨mkskipped, some (kdfCk P ck).1, nr, hnr, hcommit⟩

/-- The commit on a new chain, once the previous chain is stored: it goes
through, and no message is tracked yet. -/
theorem commit_ratcheted {st' : RatchetState K}
    (h : Authenticates P b st encHeader ciphertext ad header true p) :
    ∃ st'', commitStateChanges P env header false (ratcheted P env header st') = (.ok ⟨⟩, st'') ∧
      st''.receivedMessages = ∅ := by
  obtain ⟨key, hkey, -⟩ := h.opens
  obtain ⟨-, -, -, hlimit, -⟩ := computeMessageKey_eq_ok P hkey
  rw [recvNumber_true] at hlimit
  obtain ⟨ck, hck⟩ : ∃ ck, (ratcheted P env header st').ckR = some ck := ⟨_, rfl⟩
  obtain ⟨hk, hhk⟩ : ∃ hk, (ratcheted P env header st').hkR = some hk := ⟨_, rfl⟩
  have hzero : (ratcheted P env header st').nr.toNat = 0 := rfl
  obtain ⟨mkskipped, nr, -, -, hcommit⟩ := commitStateChanges_of_le P env hck hhk
    (hzero.trans_le (Nat.zero_le _)) hlimit (by omega)
  exact ⟨_, hcommit, rfl⟩

/-- The keys of the chain in place are stored, if there is one, up to a number
within reach. -/
theorem storeSkipped_of_inRange (env : CallEnv K) (call : ℕ) {toN : UInt32}
    (h : st.ckR.isSome → st.hkR.isSome → ¬ OutOfRange st.nr toN) :
    ∃ mkskipped, storeSkipped P env call toN st = (.ok ⟨⟩, { st with mkskipped }) := by
  rcases storeSkipped_cases P env call toN st with
    hres | ⟨ck, hk, hck, hhk, ⟨m, -, hres⟩ | ⟨e, herr, -⟩⟩
  · exact ⟨st.mkskipped, hres⟩
  · exact ⟨m, hres⟩
  · have hrange := h (by simp [hck]) (by simp [hhk])
    rw [OutOfRange, not_or, not_lt, not_lt] at hrange
    obtain ⟨mkskipped, hskip, -⟩ := skipMessageKeys_spec P env.hashOrder (env.clock call)
      st.mkskipped ck hk hrange.1 hrange.2
    rw [hskip] at herr
    cases herr

/-- Out of reach the map is lost. -/
theorem storeSkipped_of_outOfRange (env : CallEnv K) (call : ℕ) {toN : UInt32}
    (hck : st.ckR.isSome) (hhk : st.hkR.isSome) (h : OutOfRange st.nr toN) :
    ∃ e, storeSkipped P env call toN st = (.err e, { st with mkskipped := ∅ }) := by
  obtain ⟨ck, hck⟩ := Option.isSome_iff_exists.mp hck
  obtain ⟨hk, hhk⟩ := Option.isSome_iff_exists.mp hhk
  rcases h with hlt | hgt
  · exact ⟨.invalidHeader, by
      rw [storeSkipped_some P env call toN hck hhk, skipMessageKeys_of_lt P _ _ _ _ _ hlt]⟩
  · exact ⟨.oldMessageKeysLimitReached, by
      rw [storeSkipped_some P env call toN hck hhk, skipMessageKeys_of_limit P _ _ _ _ _ hgt]⟩

/-- The commit with a DH ratchet, as a whole. -/
theorem commit_ratchet (env : CallEnv K)
    (h : Authenticates P b st encHeader ciphertext ad header true p) :
    (st.ckR.isSome ∧ st.hkR.isSome ∧ OutOfRange st.nr header.pn ∧
      ∃ e, commitStateChanges P env header true st = (.err e, { st with mkskipped := ∅ })) ∨
    (¬ (st.ckR.isSome ∧ st.hkR.isSome ∧ OutOfRange st.nr header.pn) ∧
      ∃ st', commitStateChanges P env header true st = (.ok ⟨⟩, st') ∧
        st'.receivedMessages = ∅) := by
  rw [commitStateChanges_true]
  by_cases hout : st.ckR.isSome ∧ st.hkR.isSome ∧ OutOfRange st.nr header.pn
  · obtain ⟨hck, hhk, hrange⟩ := hout
    obtain ⟨e, hstore⟩ := storeSkipped_of_outOfRange (P := P) env 0 hck hhk hrange
    rw [hstore]
    exact .inl ⟨hck, hhk, hrange, e, rfl⟩
  · obtain ⟨mkskipped, hstore⟩ := storeSkipped_of_inRange (P := P) env 0
      fun hck hhk hrange => hout ⟨hck, hhk, hrange⟩
    rw [hstore]
    exact .inr ⟨hout, commit_ratcheted h⟩

/-- **When an error leaves the state unchanged.**  For every state and every
delivery: if `decrypt` returns an error then every field keeps its value,
exactly unless the call authenticates a header whose commit loses. -/
theorem decrypt_atomic_iff (P : Primitives K) (b : Build) (env : CallEnv K) (st : RatchetState K)
    (encHeader ciphertext ad : Bytes) :
    (∀ e, (decrypt P b env encHeader ciphertext ad st).1 = .err e →
      (decrypt P b env encHeader ciphertext ad st).2 = st) ↔
      ¬ FailsInCommit P b st encHeader ciphertext ad := by
  rcases decrypt_cases P b env st encHeader ciphertext ad with
    ⟨k, v, p, -, hk, hopens, hres⟩ | ⟨o, -, hres, -, hno⟩ | ⟨header, f, p, haccept, hres⟩
  · rw [hres]
    exact ⟨fun _ ⟨_, _, _, h, _⟩ => h.not_skipped k v p hk hopens, by simp⟩
  · rw [hres]
    exact ⟨fun _ ⟨_, _, _, h, _⟩ => hno _ _ _ h, fun _ _ _ => rfl⟩
  · have hiff : FailsInCommit P b st encHeader ciphertext ad ↔ CommitLoses st header f := by
      constructor
      · rintro ⟨header', f', p', h, hloses⟩
        obtain ⟨rfl, rfl⟩ := haccept.unique h
        exact hloses
      · exact fun hloses => ⟨header, f, p, haccept, hloses⟩
    rw [hiff, hres]
    cases f with
    | false =>
      rw [CommitLoses, if_neg Bool.false_ne_true]
      by_cases hlt : header.n.toNat < st.nr.toNat
      · rw [commit_below haccept hlt, trackMessage]
        have hnot : ¬ (st.nr.toNat ≤ header.n.toNat) := by omega
        simp only [Outcome.err.injEq, forall_eq', hlt, true_and, hnot, false_and, or_false,
          ne_eq, not_not]
        exact with_empty_eq_self
      · obtain ⟨mkskipped, ckR, nr, hnr, hcommit⟩ := commit_from env haccept (not_lt.mp hlt)
        rw [hcommit, trackMessage]
        by_cases hfull : maxReceivedTracking ≤ st.receivedMessages.card
        · rw [if_pos hfull]
          refine iff_of_false (fun h => ?_) (fun h => h (.inr ⟨not_lt.mp hlt, hfull⟩))
          have hst := congrArg RatchetState.nr (h _ rfl)
          dsimp only at hst
          rw [hst] at hnr
          omega
        · rw [if_neg hfull]
          refine iff_of_true (fun e he => by cases he) ?_
          rintro (⟨h, -⟩ | ⟨-, h⟩)
          · exact hlt h
          · exact hfull h
    | true =>
      rw [CommitLoses, if_pos rfl]
      rcases commit_ratchet env haccept with ⟨hck, hhk, hrange, e, hcommit⟩ |
        ⟨hno, st', hcommit, hempty⟩
      · rw [hcommit, trackMessage]
        simp only [Outcome.err.injEq, forall_eq', hck, hhk, hrange, true_and, ne_eq, not_not]
        exact with_empty_eq_self
      · have hcard : ¬ maxReceivedTracking ≤ st'.receivedMessages.card := by
          rw [hempty]
          decide
        rw [hcommit, trackMessage, if_neg hcard]
        refine iff_of_true (fun e he => by cases he) ?_
        rintro ⟨h1, h2, h3, -⟩
        exact hno ⟨h1, h2, h3⟩

/-! ### A peer that miscounts -/

namespace Symbolic

/-- The responder before the first message. -/
def receiver : RatchetState Key :=
  initReceiverState primitives .secret (Bytes.leArray 32 1, Bytes.leArray 32 1)

/-- What an authenticated peer can send: a header with the number `n`, and a body
under the key of the message number `i` of the first chain. -/
def miscounted (n : UInt32) (i : ℕ) : Bytes × Bytes :=
  let pub := Bytes.leArray 32 2
  let ck := primitives.hkdfSha512 .secret (Key.agree pub (Bytes.leArray 32 1)) hkdfInfoRoot 1
  let encHeader := sealHeader primitives (deriveHeaderKeys primitives .secret).1
    (headerNonce true n.toUInt64) { dhPub := pub, pn := 0, n }
  (encHeader, sealMessage primitives (messageKey primitives ck i) [0x61] (concatAd [] encHeader))

/-- One delivery. -/
def deliver (st : RatchetState Key) (m : Bytes × Bytes) :
    Outcome RatchetError Bytes × RatchetState Key :=
  decrypt primitives .release (Symbolic.env 3) m.1 m.2 [] st

/-- The responder after message 1, with the key of message 0 stored. -/
def receiverAfterGap : RatchetState Key := (deliver receiver (miscounted 1 1)).2

/-- **An error that loses the skipped keys.**  A header with the number 0, over a
body under the key of message 1, authenticates with the chain key of the state;
the commit then refuses to skip back to 0, and the stored key is gone. -/
theorem error_loses_skipped_keys :
    (deliver receiver (miscounted 1 1)).1 = .ok [0x61] ∧
    (deliver receiverAfterGap (miscounted 0 1)).1 = .err .invalidHeader ∧
    (deliver receiverAfterGap (miscounted 0 1)).2 ≠ receiverAfterGap := by
  refine ⟨by decide +kernel, by decide +kernel, fun h => ?_⟩
  have hkeys : (deliver receiverAfterGap (miscounted 0 1)).2.mkskipped.keys.length
      ≠ receiverAfterGap.mkskipped.keys.length := by
    decide +kernel
  exact hkeys (congrArg (fun st => st.mkskipped.keys.length) h)

end Symbolic

end Ratchet
