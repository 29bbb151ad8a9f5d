/-
Which keys of a state are there.

Six fields of a state are optional.  The commit writes them in separate
statements, with early returns in between, yet they appear together: the
receiving header key with the receiving chain, and the sending header key with
the sending chain and the peer's public key.

* `Paired` — the invariant;
* `no_missing_key` — **in every reachable state the keys a call asks for are
  there**: no `expect` aborts, `decrypt` never returns `InvalidKey`, and `encrypt`
  returns `InvalidState` exactly while a receiver has not committed a first
  message.
-/
import LibsignalDezire.Ratchet.Calls

namespace Ratchet

variable {K : Type} [DecidableEq K] {P : Primitives K} {b : Build} {st : RatchetState K}
  {env : CallEnv K} {header : RatchetHeader} {f : Bool} {encHeader ciphertext ad : Bytes}

/-! ### Errors -/

omit [DecidableEq K] in
theorem decryptHeader_eq_err {e : RatchetError} (h : decryptHeader P st encHeader = .err e) :
    e = .headerDecryptionFailed := by
  unfold decryptHeader at h
  dsimp only at h
  split at h
  · split at h
    · cases h
    · cases h
      rfl
    · cases h
  · split at h
    · cases h
    · split at h
      · cases h
      · cases h
        rfl
      · cases h
    · cases h

omit [DecidableEq K] in
theorem decryptAead_eq_err {mk : K} {e : RatchetError}
    (h : decryptAead P mk ciphertext ad = .err e) : e = .decryptionFailed := by
  by_cases hlen : ciphertext.length < 48
  · rw [decryptAead, if_pos hlen] at h
    cases h
    rfl
  · rw [← List.take_append_drop (ciphertext.length - 32) ciphertext,
      decryptAead_eq (by simp; omega) (by simp; omega)] at h
    dsimp only at h
    split at h
    · cases h
      rfl
    · revert h
      cases P.aes256CbcDecrypt _ _ _ with
      | none =>
        intro h
        cases h
        rfl
      | some p =>
        intro h
        cases h

omit [DecidableEq K] in
/-- The message key is refused by the skip limit, or for lack of a chain. -/
theorem computeMessageKey_eq_err {e : RatchetError}
    (h : computeMessageKey P b st header f = .err e) :
    e = .oldMessageKeysLimitReached ∨ e = .invalidKey ∧ recvChain P st header f = none := by
  rw [computeMessageKey_eq] at h
  cases hlimit : (b.add (recvNumber st f) maxSkip : Outcome RatchetError UInt32) with
  | panic =>
    rw [hlimit] at h
    cases h
  | err e' =>
    unfold Build.add at hlimit
    split at hlimit
    · cases hlimit
    · cases b <;> cases hlimit
  | ok limit =>
    rw [hlimit, Outcome.ok_bind] at h
    split at h
    · cases h
      exact .inl rfl
    · cases hck : recvChain P st header f with
      | none =>
        rw [hck] at h
        cases h
        exact .inr ⟨rfl, rfl⟩
      | some ck =>
        rw [hck] at h
        cases h

/-! ### Errors of the commit -/

/-- The call did not abort, and did not miss a key. -/
def FindsKeys {α : Type} (o : Outcome RatchetError α) : Prop :=
  o.Returns ∧ o ≠ .err .invalidKey

/-- The call did not abort, and fails only on a number out of range. -/
structure FailsOnRange {α : Type} (o : Outcome RatchetError α) : Prop where
  returns : o.Returns
  error : ∀ e, o = .err e →
    e = .invalidHeader ∨ e = .oldMessageKeysLimitReached ∨ e = .counterOverflow

section FailsOnRange

variable {α : Type} {o : Outcome RatchetError α}

theorem FailsOnRange.of_ok (a : α) : FailsOnRange (.ok a : Outcome RatchetError α) :=
  ⟨by simp, by simp⟩

theorem FailsOnRange.findsKeys (h : FailsOnRange o) : FindsKeys o :=
  ⟨h.returns, fun he => by rcases h.error _ he with h | h | h <;> cases h⟩

theorem FailsOnRange.ne_duplicate (h : FailsOnRange o) : o ≠ .err .duplicateMessage :=
  fun he => by rcases h.error _ he with h | h | h <;> cases h

end FailsOnRange

theorem skipMessageKeys_failsOnRange (order : HashOrder (K × UInt32)) (clock : ℕ → SystemTime)
    (m : SkippedKeyMap K) (ck hk : K) (fromN toN : UInt32) :
    FailsOnRange (skipMessageKeys P order clock m ck hk fromN toN) := by
  refine ⟨skipMessageKeys_returns P order clock m ck hk fromN toN, fun e h => ?_⟩
  rw [skipMessageKeys_eq, exactSkip] at h
  split at h
  · cases h
    exact .inl rfl
  · split at h
    · cases h
      exact .inr (.inl rfl)
    · cases h

theorem storeSkipped_failsOnRange (env : CallEnv K) (call : ℕ) (toN : UInt32)
    (st : RatchetState K) : FailsOnRange (storeSkipped P env call toN st).1 := by
  rcases storeSkipped_cases P env call toN st with
    hres | ⟨ck, hk, -, -, ⟨m, -, hres⟩ | ⟨e, hskip, hres⟩⟩
  · rw [hres]
    exact .of_ok _
  · rw [hres]
    exact .of_ok _
  · have hrange := skipMessageKeys_failsOnRange (P := P) env.hashOrder (env.clock call)
      st.mkskipped ck hk st.nr toN
    rw [hskip] at hrange
    rw [hres]
    exact ⟨by simp, fun e' he => hrange.error e' (by cases he; rfl)⟩

/-- On a receiving chain that is in place the commit fails on the header's number
only. -/
theorem commitStateChanges_false_failsOnRange {ck hk : K} (hck : st.ckR = some ck)
    (hhk : st.hkR = some hk) : FailsOnRange (commitStateChanges P env header false st).1 := by
  have hskip := skipMessageKeys_failsOnRange (P := P) env.hashOrder (env.clock 1) st.mkskipped
    ck hk st.nr header.n
  rw [commitStateChanges_false P env header hck hhk]
  revert hskip
  cases skipMessageKeys P env.hashOrder (env.clock 1) st.mkskipped ck hk st.nr header.n with
  | ok m =>
    intro _
    dsimp only
    cases checkedAdd32 st.nr 1 with
    | some nr => exact .of_ok _
    | none => exact ⟨by simp, fun e he => .inr (.inr (by cases he; rfl))⟩
  | err e => exact fun hskip => ⟨by simp, fun e' he => hskip.error e' (by cases he; rfl)⟩
  | panic => exact fun hskip => absurd rfl hskip.returns

/-! ### The invariant -/

/-- The receiving keys are both present or both absent, and so are the three fields
that sending needs. -/
structure Paired (st : RatchetState K) : Prop where
  receiving : st.hkR.isSome ↔ st.ckR.isSome
  sending : CanSend st ∨ st.hkS = none ∧ st.ckS = none ∧ st.dhRemote = none

omit [DecidableEq K] in
theorem Initial.paired (h : Initial P st) : Paired st := by
  cases h with
  | sender h =>
    cases h
    exact ⟨Iff.rfl, .inl ⟨rfl, rfl, rfl⟩⟩
  | receiver => exact ⟨Iff.rfl, .inr ⟨rfl, rfl, rfl⟩⟩

namespace Paired

/-- The commit keeps the keys together, wherever it stops; if it got past the DH
ratchet, all are there. -/
theorem commit (h : Paired st) (env : CallEnv K) (header : RatchetHeader) (f : Bool) :
    Paired (commitStateChanges P env header f st).2 := by
  rcases commitStateChanges_state P env header f st with
    ⟨m, ckR, nr, hck, hst⟩ | ⟨m, ckR, nr, -, hck, hst⟩
  · rw [hst]
    exact ⟨h.receiving.trans hck.symm, h.sending⟩
  · rw [hst]
    exact ⟨iff_of_true rfl hck, .inl ⟨rfl, rfl, rfl⟩⟩

/-- Every call keeps the keys together. -/
theorem step (h : Paired st) (c : Call K) : Paired (st.step P b c) := by
  cases c with
  | encrypt plaintext ad =>
    show Paired (encrypt P plaintext ad st).2
    rcases encrypt_cases P st plaintext ad with
      ⟨-, hres⟩ | ⟨-, -, hres⟩ | ⟨ck, hk, -, hhk, hrem, -, hcases⟩
    · rw [hres]
      exact h
    · rw [hres]
      exact h
    · have hsend : st.hkS.isSome := by
        rw [hhk]
        rfl
      rcases hcases with ⟨-, hres⟩ | ⟨ns, -, ⟨-, hres⟩ | ⟨c, -, hres⟩⟩ <;>
      · rw [hres]
        exact ⟨h.receiving, .inl ⟨rfl, hsend, hrem⟩⟩
  | decrypt env encHeader ciphertext ad =>
    show Paired (decrypt P b env encHeader ciphertext ad st).2
    rcases decrypt_cases P b env st encHeader ciphertext ad with
      ⟨k, v, p, -, -, -, hres⟩ | ⟨o, -, hres, -, -⟩ | ⟨header, f, p, -, hres⟩
    · rw [hres]
      exact ⟨h.receiving, h.sending⟩
    · rw [hres]
      exact h
    · obtain ⟨received, hst⟩ := trackMessage_state header p
        (commitStateChanges P env header f st)
      have hcommit := h.commit (P := P) env header f
      rw [hres, hst]
      exact ⟨hcommit.receiving, hcommit.sending⟩

end Paired

/-- The commit of an authenticated header fails on the numbers in it only. -/
theorem Authenticates.commit_failsOnRange {p : Bytes}
    (h : Authenticates P b st encHeader ciphertext ad header f p) (env : CallEnv K) :
    FailsOnRange (commitStateChanges P env header f st).1 := by
  cases f with
  | false =>
    obtain ⟨⟨ck, hck⟩, hk, hhk⟩ := h.chain
    exact commitStateChanges_false_failsOnRange hck hhk
  | true =>
    have hstore := storeSkipped_failsOnRange (P := P) env 0 header.pn st
    rw [commitStateChanges_true]
    revert hstore
    rcases storeSkipped P env 0 header.pn st with ⟨_ | e | _, st₁⟩
    · exact fun _ => commitStateChanges_false_failsOnRange rfl rfl
    · exact fun hstore => ⟨by simp, fun e' he => hstore.error e' (by cases he; rfl)⟩
    · exact fun hstore => absurd rfl hstore.returns

omit [DecidableEq K] in
/-- Tracking adds one error to those of the commit. -/
theorem trackMessage_of_failsOnRange (header : RatchetHeader) (p : Bytes)
    {r : Outcome RatchetError PUnit × RatchetState K} (h : FailsOnRange r.1) :
    FindsKeys (trackMessage header p r).1 ∧
      (trackMessage header p r).1 ≠ .err .duplicateMessage := by
  rcases r with ⟨_ | e | _, st₁⟩
  · rw [trackMessage]
    split
    · exact ⟨⟨by simp, by simp⟩, by simp⟩
    · exact ⟨⟨by simp, by simp⟩, by simp⟩
  · refine ⟨⟨by simp [trackMessage], fun he => h.findsKeys.2 ?_⟩, fun he => h.ne_duplicate ?_⟩
    · cases he
      rfl
    · cases he
      rfl
  · exact absurd rfl h.returns

/-- `DuplicateMessage` is returned only for a header that is tracked. -/
theorem decrypt_eq_duplicate (h : (decrypt P b env encHeader ciphertext ad st).1
    = .err .duplicateMessage) :
    ∃ header f, decryptHeader P st encHeader = .ok (header, f) ∧
      (header.dhPub, header.n) ∈ st.receivedMessages := by
  rcases decrypt_cases P b env st encHeader ciphertext ad with
    ⟨k, v, p, -, -, -, hres⟩ | ⟨o, -, hres, hskip, -⟩ | ⟨header, f, p, hauth, hres⟩
  · rw [hres] at h
    cases h
  · by_cases had : ad.length ≤ maxAdSize
    swap
    · rw [decrypt_of_adTooLarge P (not_le.mp had)] at h
      cases h
    rw [decrypt_of_not_skipped P had (hskip had)] at h
    cases hhdr : decryptHeader P st encHeader with
    | panic => exact absurd hhdr (decryptHeader_returns P st encHeader)
    | err e =>
      rw [hhdr, decryptHeader_eq_err hhdr] at h
      cases h
    | ok hf =>
      obtain ⟨header, f⟩ := hf
      rw [hhdr] at h
      dsimp only at h
      by_cases hdup : (header.dhPub, header.n) ∈ st.receivedMessages
      · exact ⟨header, f, rfl, hdup⟩
      -- the errors of the key and of the body are others
      · rw [if_neg hdup] at h
        cases hkey : computeMessageKey P b st header f with
        | panic =>
          rw [hkey] at h
          cases h
        | err e =>
          rcases computeMessageKey_eq_err hkey with rfl | ⟨rfl, -⟩ <;>
          · rw [hkey] at h
            cases h
        | ok mk =>
          rw [hkey, Outcome.ok_bind] at h
          cases haead : decryptAead P mk ciphertext (concatAd ad encHeader) with
          | panic => exact absurd haead (decryptAead_returns P mk ciphertext _)
          | err e =>
            rw [haead, decryptAead_eq_err haead] at h
            cases h
          | ok p =>
            rw [haead] at h
            have hauth : Authenticates P b st encHeader ciphertext ad header f p :=
              ⟨had, hskip had, hhdr, hdup, mk, hkey, haead⟩
            exact absurd h (trackMessage_of_failsOnRange header p
              (hauth.commit_failsOnRange env)).2
  · rw [hres] at h
    exact absurd h (trackMessage_of_failsOnRange header p (hauth.commit_failsOnRange env)).2

namespace Paired

/-- `decrypt` never misses a key, and aborts in the skip-limit test of a `dev` build
only. -/
theorem decrypt_findsKeys (h : Paired st) (env : CallEnv K) (encHeader ciphertext ad : Bytes) :
    (decrypt P b env encHeader ciphertext ad st).1 ≠ .err .invalidKey ∧
      ((decrypt P b env encHeader ciphertext ad st).1 = .panic →
        Overflows P b st encHeader ad) := by
  rcases decrypt_cases P b env st encHeader ciphertext ad with
    ⟨k, v, p, -, -, -, hres⟩ | ⟨o, -, hres, hskip, hno⟩ | ⟨header, f, p, hauth, hres⟩
  · rw [hres]
    exact ⟨by simp, by simp⟩
  · by_cases had : ad.length ≤ maxAdSize
    swap
    · rw [decrypt_of_adTooLarge P (not_le.mp had)]
      exact ⟨by simp, by simp⟩
    refine ⟨fun hinv => ?_, overflows_of_panic (hskip had) had hno⟩
    rw [decrypt_of_not_skipped P had (hskip had)] at hinv
    cases hhdr : decryptHeader P st encHeader with
    | panic => exact absurd hhdr (decryptHeader_returns P st encHeader)
    | err e =>
      rw [hhdr, decryptHeader_eq_err hhdr] at hinv
      cases hinv
    | ok hf =>
      obtain ⟨header, f⟩ := hf
      rw [hhdr] at hinv
      dsimp only at hinv
      by_cases hdup : (header.dhPub, header.n) ∈ st.receivedMessages
      · rw [if_pos hdup] at hinv
        cases hinv
      · rw [if_neg hdup] at hinv
        -- the header key and the chain key of the receiving chain come together
        obtain ⟨ck, hck⟩ : ∃ ck, recvChain P st header f = some ck := by
          rcases decryptHeader_eq_ok P hhdr with ⟨rfl, hk, hhk, -⟩ | ⟨rfl, -⟩
          · exact Option.isSome_iff_exists.mp (h.receiving.mp (by rw [hhk]; rfl))
          · exact ⟨_, rfl⟩
        cases hkey : computeMessageKey P b st header f with
        | panic =>
          rw [hkey] at hinv
          cases hinv
        | err e =>
          rcases computeMessageKey_eq_err hkey with rfl | ⟨-, hnone⟩
          · rw [hkey] at hinv
            cases hinv
          · rw [hck] at hnone
            cases hnone
        | ok mk =>
          rw [hkey, Outcome.ok_bind] at hinv
          cases haead : decryptAead P mk ciphertext (concatAd ad encHeader) with
          | panic => exact absurd haead (decryptAead_returns P mk ciphertext _)
          | err e =>
            rw [haead, decryptAead_eq_err haead] at hinv
            cases hinv
          | ok p => exact hno header f p ⟨had, hskip had, hhdr, hdup, mk, hkey, haead⟩
  · have hfinds := (trackMessage_of_failsOnRange header p (hauth.commit_failsOnRange env)).1
    rw [hres]
    exact ⟨hfinds.2, fun hpanic => absurd hpanic hfinds.1⟩

end Paired

/-! ### Before the first message -/

omit [DecidableEq K] in
/-- `encrypt` refuses with `InvalidState` exactly when a key is missing, and never
aborts. -/
theorem encrypt_findsKeys (st : RatchetState K) (plaintext ad : Bytes) :
    (encrypt P plaintext ad st).1.Returns ∧
      ((encrypt P plaintext ad st).1 = .err .invalidState ↔ ¬ CanSend st) := by
  rcases encrypt_cases P st plaintext ad with
    ⟨hsend, hres⟩ | ⟨hsend, -, hres⟩ | ⟨ck, hk, hck, hhk, hrem, -, hcases⟩
  · rw [hres]
    exact ⟨by simp, fun _ => hsend, fun _ => rfl⟩
  · rw [hres]
    exact ⟨by simp, by simp, fun h => absurd hsend h⟩
  · have hsend : CanSend st := by simp [CanSend, hck, hhk, hrem]
    rcases hcases with ⟨-, hres⟩ | ⟨ns, -, ⟨-, hres⟩ | ⟨c, -, hres⟩⟩ <;>
    · rw [hres]
      exact ⟨by simp, by simp, fun h => absurd hsend h⟩

/-- The call is a `decrypt` that commits a message. -/
def Commits (P : Primitives K) (b : Build) (st : RatchetState K) : Call K → Prop
  | .encrypt .. => False
  | .decrypt env encHeader ciphertext ad => ∃ header dhRatchet p,
      Authenticates P b st encHeader ciphertext ad header dhRatchet p ∧
        (commitStateChanges P env header dhRatchet st).1 = .ok ⟨⟩

/-- A party that can send can send after every call. -/
theorem CanSend.step (h : CanSend st) (c : Call K) : CanSend (st.step P b c) := by
  obtain ⟨hck, hhk, hrem⟩ := h
  cases c with
  | encrypt plaintext ad =>
    show CanSend (encrypt P plaintext ad st).2
    rcases encrypt_cases P st plaintext ad with
      ⟨-, hres⟩ | ⟨-, -, hres⟩ | ⟨ck, hk, -, -, -, -, hcases⟩
    · rw [hres]
      exact ⟨hck, hhk, hrem⟩
    · rw [hres]
      exact ⟨hck, hhk, hrem⟩
    · rcases hcases with ⟨-, hres⟩ | ⟨ns, -, ⟨-, hres⟩ | ⟨c, -, hres⟩⟩ <;>
      · rw [hres]
        exact ⟨rfl, hhk, hrem⟩
  | decrypt env encHeader ciphertext ad =>
    show CanSend (decrypt P b env encHeader ciphertext ad st).2
    rcases decrypt_cases P b env st encHeader ciphertext ad with
      ⟨k, v, p, -, -, -, hres⟩ | ⟨o, -, hres, -, -⟩ | ⟨header, f, p, -, hres⟩
    · rw [hres]
      exact ⟨hck, hhk, hrem⟩
    · rw [hres]
      exact ⟨hck, hhk, hrem⟩
    · obtain ⟨received, hst⟩ := trackMessage_state header p
        (commitStateChanges P env header f st)
      rw [hres, hst]
      rcases commitStateChanges_state P env header f st with
        ⟨m, ckR, nr, -, hst⟩ | ⟨m, ckR, nr, -, -, hst⟩
      · rw [hst]
        exact ⟨hck, hhk, hrem⟩
      · rw [hst]
        exact ⟨rfl, rfl, rfl⟩

/-- What a receiver does before its first message: a commit makes it able to send,
and any other call changes nothing. -/
theorem initReceiverState_step (sk : K) (keyPair : DhPrivateKey × DhPublicKey) (c : Call K) :
    Commits P b (initReceiverState P sk keyPair) c ∧
        CanSend ((initReceiverState P sk keyPair).step P b c) ∨
      ¬ Commits P b (initReceiverState P sk keyPair) c ∧
        (initReceiverState P sk keyPair).step P b c = initReceiverState P sk keyPair := by
  cases c with
  | encrypt plaintext ad =>
    refine .inr ⟨id, ?_⟩
    show (encrypt P plaintext ad (initReceiverState P sk keyPair)).2
      = initReceiverState P sk keyPair
    rcases encrypt_cases P (initReceiverState P sk keyPair) plaintext ad with
      ⟨-, hres⟩ | ⟨hsend, -, -⟩ | ⟨ck, hk, hck, -⟩
    · rw [hres]
    · cases hsend.1
    · cases hck
  | decrypt env encHeader ciphertext ad =>
    have hstep : (initReceiverState P sk keyPair).step P b (.decrypt env encHeader ciphertext ad)
      = (decrypt P b env encHeader ciphertext ad (initReceiverState P sk keyPair)).2 := rfl
    rw [hstep]
    rcases decrypt_cases P b env (initReceiverState P sk keyPair) encHeader ciphertext ad with
      ⟨k, v, p, -, hk, -, -⟩ | ⟨o, -, hres, -, hno⟩ | ⟨header, f, p, hauth, hres⟩
    · cases hk
    · rw [hres]
      exact .inr ⟨fun ⟨header, f, p, hauth, _⟩ => hno header f p hauth, rfl⟩
    · -- without a receiving chain the header announces a DH ratchet
      obtain rfl : f = true := by
        rcases decryptHeader_eq_ok P hauth.header_eq with ⟨-, hk, hhk, -⟩ | ⟨hf, -⟩
        · cases hhk
        · exact hf
      obtain ⟨mk, hkey, -⟩ := hauth.opens
      obtain ⟨-, -, -, hle, -⟩ := computeMessageKey_eq_ok P hkey
      have hstore : storeSkipped P env 0 header.pn (initReceiverState P sk keyPair)
          = (.ok ⟨⟩, initReceiverState P sk keyPair) := storeSkipped_none P env 0 _ (.inl rfl)
      obtain ⟨m, nr, -, -, hcommit⟩ := commitStateChanges_of_le P env
        (s := ratcheted P env header (initReceiverState P sk keyPair)) rfl rfl (Nat.zero_le _)
        hle (show (0 : UInt32).toNat < 2 ^ 32 - 1 by decide)
      have hcommits := commitStateChanges_true P env header (initReceiverState P sk keyPair)
      rw [hstore] at hcommits
      dsimp only at hcommits
      rw [hcommit] at hcommits
      refine .inl ⟨⟨header, true, p, hauth, congrArg Prod.fst hcommits⟩, ?_⟩
      obtain ⟨received, hst⟩ := trackMessage_state header p
        (commitStateChanges P env header true (initReceiverState P sk keyPair))
      rw [hres, hst, hcommits]
      exact ⟨rfl, rfl, rfl⟩

/-- A party can send once it has committed a message; a sender can from the start. -/
theorem canSend_run_iff {st₀ : RatchetState K} (h₀ : Initial P st₀) (b : Build)
    (cs : List (Call K)) :
    ¬ CanSend (Machine.run (RatchetState.step P b) st₀ cs) ↔
      (∃ sk keyPair, st₀ = initReceiverState P sk keyPair) ∧
        Machine.Along (RatchetState.step P b) (fun st c => ¬ Commits P b st c) st₀ cs := by
  have hkeeps : ∀ {st : RatchetState K} (cs : List (Call K)), CanSend st →
      CanSend (Machine.run (RatchetState.step P b) st cs) :=
    fun cs h => Machine.run_invariant (fun st c h => h.step c) cs h
  cases h₀ with
  | sender h =>
    cases h
    refine ⟨fun hno => absurd (hkeeps cs ⟨rfl, rfl, rfl⟩) hno, fun ⟨⟨sk, keyPair, heq⟩, _⟩ => ?_⟩
    cases congrArg RatchetState.isSender heq
  | receiver sk keyPair =>
    induction cs with
    | nil => exact ⟨fun _ => ⟨⟨sk, keyPair, rfl⟩, trivial⟩, fun _ h => nomatch h.1⟩
    | cons c cs ih =>
      rw [Machine.run_cons]
      rcases initReceiverState_step (P := P) (b := b) sk keyPair c with
        ⟨hcommit, hsend⟩ | ⟨hno, hsame⟩
      · exact ⟨fun h => absurd (hkeeps cs hsend) h, fun h => absurd hcommit h.2.1⟩
      · rw [hsame]
        refine ih.trans (and_congr_right fun _ => ⟨fun h => ⟨hno, ?_⟩, fun h => ?_⟩)
        · rwa [hsame]
        · have hrest := h.2
          rwa [hsame] at hrest

/-! ### No missing key -/

/-- **No missing-key abort and no half-initialised chain.**  After any calls, from
either initial state: the keys are there in pairs; `encrypt` does not abort, and
returns `InvalidState` exactly while the party is a receiver and no call has
committed a message; `decrypt` never returns `InvalidKey`; the commit of an
authenticated header does not abort, nor do the parsers of header and message, so
that only the skip-limit sum of a `dev` build can. -/
theorem no_missing_key {st₀ : RatchetState K} (h₀ : Initial P st₀) (b : Build)
    (cs : List (Call K)) {st : RatchetState K}
    (hst : st = Machine.run (RatchetState.step P b) st₀ cs) :
    Paired st ∧
    (∀ plaintext ad, (encrypt P plaintext ad st).1.Returns ∧
      ((encrypt P plaintext ad st).1 = .err .invalidState ↔
        (∃ sk keyPair, st₀ = initReceiverState P sk keyPair) ∧
          Machine.Along (RatchetState.step P b) (fun st c => ¬ Commits P b st c) st₀ cs)) ∧
    ∀ env encHeader ciphertext ad,
      (decrypt P b env encHeader ciphertext ad st).1 ≠ .err .invalidKey ∧
      (∀ header dhRatchet p, Authenticates P b st encHeader ciphertext ad header dhRatchet p →
        (commitStateChanges P env header dhRatchet st).1.Returns) ∧
      (∀ hk mk, (decryptHeaderWithKey P hk encHeader).Returns ∧
        (decryptAead P mk ciphertext (concatAd ad encHeader)).Returns) ∧
      ((decrypt P b env encHeader ciphertext ad st).1 = .panic →
        Overflows P b st encHeader ad) := by
  have hpaired : Paired st := by
    rw [hst]
    exact Machine.run_invariant (fun st c h => h.step c) cs h₀.paired
  refine ⟨hpaired, fun plaintext ad => ?_, fun env encHeader ciphertext ad => ?_⟩
  · obtain ⟨hreturns, hinvalid⟩ := encrypt_findsKeys (P := P) st plaintext ad
    refine ⟨hreturns, hinvalid.trans ?_⟩
    rw [hst]
    exact canSend_run_iff h₀ b cs
  · obtain ⟨hkey, hpanic⟩ := hpaired.decrypt_findsKeys (P := P)
      (b := b) env encHeader ciphertext ad
    exact ⟨hkey, fun header f p hauth => (hauth.commit_failsOnRange env).returns,
      fun hk mk => ⟨decryptHeaderWithKey_returns P hk encHeader, decryptAead_returns P mk _ _⟩,
      hpanic⟩

open Symbolic in
/-- A receiver that has been sent garbage, and is then asked to send. -/
theorem no_missing_key_of_garbage :
    (encrypt primitives [0x61] [] (Machine.run (RatchetState.step primitives .release) receiver
      [.decrypt (Symbolic.env 3) [0x00] [0x01] []])).1 = .err .invalidState := by
  have h₀ : Initial primitives receiver := .receiver _ _
  have hgarbage : (decryptHeader primitives receiver [0x00]).isOk = false := by decide +kernel
  have hno : ¬ Commits primitives .release receiver
      (.decrypt (Symbolic.env 3) [0x00] [0x01] []) := by
    rintro ⟨header, f, p, hauth, -⟩
    rw [hauth.header_eq] at hgarbage
    cases hgarbage
  exact ((no_missing_key h₀ .release _ rfl).2.1 [0x61] []).2.mpr ⟨⟨_, _, rfl⟩, hno, trivial⟩

end Ratchet
