/-
One party and the calls it makes, on any inputs.

A state is only ever changed by `encrypt` and `decrypt`; here they are the calls
of a machine, with messages from anyone, clocks that run as they like and maps
that iterate in any order.

* `decrypt_mkskipped` — the rule for invariants of the skipped keys: what holds
  of the empty map and survives erasing and one turn of the skip loop survives
  every call;
* `storage_bounded` — **the skipped keys and the tracked messages stay within
  their limits** in every reachable state.
-/
import LibsignalDezire.Lib.Machine
import LibsignalDezire.Ratchet.Counters

namespace Ratchet

variable {K : Type} [DecidableEq K] (P : Primitives K)

/-! ### Calls -/

/-- A call of one of the two operations. -/
inductive Call (K : Type) where
  | encrypt (plaintext ad : Bytes)
  | decrypt (env : CallEnv K) (encHeader ciphertext ad : Bytes)

/-- What a call returns. -/
inductive Reply where
  | message (result : Outcome RatchetError (Bytes × Bytes))
  | plaintext (result : Outcome RatchetError Bytes)
  deriving DecidableEq

/-- The call succeeded. -/
def Reply.isOk : Reply → Bool
  | message result => result.isOk
  | plaintext result => result.isOk

def Call.perform (b : Build) (st : RatchetState K) : Call K → Reply × RatchetState K
  | .encrypt plaintext ad =>
    let (result, st) := Ratchet.encrypt P plaintext ad st
    (.message result, st)
  | .decrypt env encHeader ciphertext ad =>
    let (result, st) := Ratchet.decrypt P b env encHeader ciphertext ad st
    (.plaintext result, st)

/-- The state after a call. -/
def RatchetState.step (b : Build) (st : RatchetState K) (c : Call K) : RatchetState K :=
  (c.perform P b st).2

/-- The reply of a call. -/
def RatchetState.reply (b : Build) (st : RatchetState K) (c : Call K) : Reply :=
  (c.perform P b st).1

/-- The states that `initSenderState` and `initReceiverState` return. -/
inductive Initial : RatchetState K → Prop where
  | sender {dhS sk receiverDhPublicKey st} :
      initSenderState P dhS sk receiverDhPublicKey = .ok st → Initial st
  | receiver (sk receiverKeyPair) : Initial (initReceiverState P sk receiverKeyPair)

/-! ### Invariants of the skipped keys -/

section Invariant

variable {P} {I : SkippedKeyMap K → Prop} {env : CallEnv K} {st : RatchetState K}

/-- One turn of the skip loop keeps `I`, with the iteration order and the clock
of the call. -/
def KeptBySkipping (P : Primitives K) (I : SkippedKeyMap K → Prop) (env : CallEnv K) : Prop :=
  ∀ m ck hk time i, (∀ j, ∃ call l, time j = env.clock call l) → I m →
    I (skipTurn P env.hashOrder hk time (m, ck) i).1

theorem skipMessageKeys_invariant (hturn : KeptBySkipping P I env) {call : ℕ}
    {m m' : SkippedKeyMap K} {ck hk : K} {fromN toN : UInt32} (hm : I m)
    (h : skipMessageKeys P env.hashOrder (env.clock call) m ck hk fromN toN
      = .ok m') : I m' := by
  have hfold : ∀ (time : ℕ → SystemTime) (l : List ℕ) (x : SkippedKeyMap K × K),
      (∀ j, ∃ call l, time j = env.clock call l) → I x.1 →
      I (l.foldl (skipTurn P env.hashOrder hk time) x).1 := by
    intro time l
    induction l with
    | nil => exact fun x _ hx => hx
    | cons i l ih => exact fun x htime hx => ih _ htime (hturn _ _ _ _ _ htime hx)
  rw [skipMessageKeys_eq, exactSkip] at h
  split at h
  · cases h
  split at h
  · cases h
  cases h
  exact hfold _ _ _ (fun j => ⟨call, _, rfl⟩) hm

theorem storeSkipped_invariant (hempty : I ∅) (hturn : KeptBySkipping P I env) (call : ℕ)
    (toN : UInt32) (h : I st.mkskipped) : I (storeSkipped P env call toN st).2.mkskipped := by
  rcases storeSkipped_cases P env call toN st with
    hres | ⟨ck, hk, -, -, ⟨m, hskip, hres⟩ | ⟨e, -, hres⟩⟩
  · rw [hres]
    exact h
  · rw [hres]
    exact skipMessageKeys_invariant hturn h hskip
  · rw [hres]
    exact hempty

/-- What follows the second call of `storeSkipped` leaves the map alone. -/
theorem commitStateChanges_tail (env : CallEnv K) (header : RatchetHeader)
    (st : RatchetState K) :
    (commitStateChanges P env header false st).2.mkskipped
      = (storeSkipped P env 1 header.n st).2.mkskipped := by
  simp only [commitStateChanges, Exec.bind_apply, if_false, Bool.false_eq_true]
  rcases storeSkipped P env 1 header.n st with ⟨_ | _ | _, st₁⟩
  · simp only [Exec.get_apply, Exec.lift_apply, Exec.put_apply]
    cases st₁.ckR with
    | none => rfl
    | some ck =>
      simp only [Outcome.expect_some]
      cases checkedAdd32 st₁.nr 1 <;> rfl
  · rfl
  · rfl

theorem commitStateChanges_invariant (hempty : I ∅) (hturn : KeptBySkipping P I env)
    (header : RatchetHeader) (f : Bool) (h : I st.mkskipped) :
    I (commitStateChanges P env header f st).2.mkskipped := by
  cases f with
  | false =>
    rw [commitStateChanges_tail]
    exact storeSkipped_invariant hempty hturn 1 header.n h
  | true =>
    have hstore : I (storeSkipped P env 0 header.pn st).2.mkskipped :=
      storeSkipped_invariant hempty hturn 0 header.pn h
    rw [commitStateChanges_true]
    revert hstore
    rcases storeSkipped P env 0 header.pn st with ⟨_ | _ | _, st₁⟩
    · intro hstore
      dsimp only
      rw [commitStateChanges_tail]
      exact storeSkipped_invariant hempty hturn 1 header.n hstore
    · exact id
    · exact id

omit [DecidableEq K] in
theorem trackMessage_mkskipped (header : RatchetHeader) (p : Bytes)
    (r : Outcome RatchetError PUnit × RatchetState K) :
    (trackMessage header p r).2.mkskipped = r.2.mkskipped := by
  obtain ⟨received, hst⟩ := trackMessage_state header p r
  rw [hst]

/-- **The rule for invariants of the skipped keys**, for one call of `decrypt`. -/
theorem decrypt_mkskipped {b : Build} {encHeader ciphertext ad : Bytes} (hempty : I ∅)
    (herase : ∀ m k, I m → I (m.erase k)) (hturn : KeptBySkipping P I env) (h : I st.mkskipped) :
    I (decrypt P b env encHeader ciphertext ad st).2.mkskipped := by
  rcases decrypt_cases P b env st encHeader ciphertext ad with
    ⟨k, v, p, -, -, -, hres⟩ | ⟨o, -, hres, -, -⟩ | ⟨header, f, p, -, hres⟩
  · rw [hres]
    exact herase _ k h
  · rw [hres]
    exact h
  · rw [hres, trackMessage_mkskipped]
    exact commitStateChanges_invariant hempty hturn header f h

omit [DecidableEq K] in
/-- `encrypt` does not touch what is received. -/
theorem encrypt_receiving (st : RatchetState K) (plaintext ad : Bytes) :
    (encrypt P plaintext ad st).2.mkskipped = st.mkskipped ∧
      (encrypt P plaintext ad st).2.receivedMessages = st.receivedMessages := by
  rcases encrypt_cases P st plaintext ad with
    ⟨-, hres⟩ | ⟨-, -, hres⟩ | ⟨ck, hk, -, -, -, -, ⟨-, hres⟩ |
      ⟨ns, -, ⟨-, hres⟩ | ⟨c, -, hres⟩⟩⟩ <;>
  · rw [hres]
    exact ⟨rfl, rfl⟩

end Invariant

/-! ### Eviction makes room -/

variable {P}

/-- A turn of the skip loop keeps the map within its limit. -/
theorem length_skipTurn (order : HashOrder (K × UInt32)) (hk ck : K) (time : ℕ → SystemTime)
    (m : SkippedKeyMap K) (i : ℕ) (h : m.keys.length ≤ maxSkippedKeys) :
    (skipTurn P order hk time (m, ck) i).1.keys.length ≤ maxSkippedKeys := by
  have hmax : maxSkippedKeys = 2000 := rfl
  refine (length_keys_insert_le _ _ _).trans ?_
  dsimp only
  split
  case isTrue =>
    have hevict := length_evictOldestSkippedKeys order m (maxSkippedKeys / 2)
    omega
  case isFalse => omega

/-! ### The limits of a session -/

/-- The skipped keys and the tracked messages are within their limits. -/
structure Bounded (st : RatchetState K) : Prop where
  mkskipped : st.mkskipped.keys.length ≤ maxSkippedKeys
  receivedMessages : st.receivedMessages.card ≤ maxReceivedTracking

omit [DecidableEq K] in
theorem Initial.empty {st : RatchetState K} (h : Initial P st) :
    st.mkskipped = ∅ ∧ st.receivedMessages = ∅ := by
  cases h with
  | sender h =>
    cases h
    exact ⟨rfl, rfl⟩
  | receiver => exact ⟨rfl, rfl⟩

/-- A commit keeps the tracked messages or forgets them all. -/
theorem commitStateChanges_receivedMessages (env : CallEnv K) (header : RatchetHeader) (f : Bool)
    (st : RatchetState K) :
    (commitStateChanges P env header f st).2.receivedMessages = st.receivedMessages ∨
      (commitStateChanges P env header f st).2.receivedMessages = ∅ := by
  rcases commitStateChanges_state P env header f st with
    ⟨m, ckR, nr, -, hst⟩ | ⟨m, ckR, nr, -, -, hst⟩
  · rw [hst]
    exact .inl rfl
  · rw [hst]
    exact .inr rfl

theorem decrypt_receivedMessages_le {b : Build} {env : CallEnv K} {st : RatchetState K}
    {encHeader ciphertext ad : Bytes} (h : st.receivedMessages.card ≤ maxReceivedTracking) :
    (decrypt P b env encHeader ciphertext ad st).2.receivedMessages.card
      ≤ maxReceivedTracking := by
  rcases decrypt_cases P b env st encHeader ciphertext ad with
    ⟨k, v, p, -, -, -, hres⟩ | ⟨o, -, hres, -, -⟩ | ⟨header, f, p, -, hres⟩
  · rw [hres]
    exact h
  · rw [hres]
    exact h
  · have hcommit : (commitStateChanges P env header f st).2.receivedMessages.card
        ≤ maxReceivedTracking := by
      rcases commitStateChanges_receivedMessages (P := P) env header f st with heq | heq
      · rwa [heq]
      · rw [heq]
        exact Nat.zero_le _
    rw [hres]
    revert hcommit
    rcases commitStateChanges P env header f st with ⟨_ | _ | _, st₁⟩
    · intro hcommit
      rw [trackMessage]
      split
      case isTrue => exact hcommit
      case isFalse hroom =>
        refine (Finset.card_insert_le _ _).trans ?_
        omega
    · exact id
    · exact id

/-- Every call keeps the limits. -/
theorem Bounded.step {b : Build} {st : RatchetState K} (h : Bounded st) (c : Call K) :
    Bounded (st.step P b c) := by
  cases c with
  | encrypt plaintext ad =>
    obtain ⟨hskipped, hreceived⟩ := encrypt_receiving (P := P) st plaintext ad
    exact ⟨(congrArg (fun m : SkippedKeyMap K => m.keys.length) hskipped).trans_le h.mkskipped,
      (congrArg Finset.card hreceived).trans_le h.receivedMessages⟩
  | decrypt env encHeader ciphertext ad =>
    refine ⟨?_, decrypt_receivedMessages_le h.receivedMessages⟩
    refine decrypt_mkskipped (I := fun m => m.keys.length ≤ maxSkippedKeys) (Nat.zero_le _)
      (fun m k hm => ?_) (fun m ck hk time i _ hm => length_skipTurn _ _ _ _ _ _ hm) h.mkskipped
    exact (length_keys_erase_le m k).trans hm

/-- **Session storage is bounded.**  From either initial state, after any calls
on any inputs. -/
theorem storage_bounded {st₀ : RatchetState K} (h₀ : Initial P st₀) (b : Build)
    (cs : List (Call K)) : Bounded (Machine.run (RatchetState.step P b) st₀ cs) := by
  obtain ⟨hskipped, hreceived⟩ := h₀.empty
  refine Machine.run_invariant (I := Bounded) (fun st c h => h.step c) cs ⟨?_, ?_⟩
  · rw [hskipped]
    exact Nat.zero_le _
  · rw [hreceived]
    exact Nat.zero_le _

open Symbolic in
/-- A message that skips another. -/
theorem storage_bounded_of_gap :
    Bounded (Machine.run (RatchetState.step primitives .release) receiver
      [.decrypt (Symbolic.env 3) (miscounted 1 1).1 (miscounted 1 1).2 []]) := by
  have h₀ : Initial primitives receiver := .receiver _ _
  exact storage_bounded h₀ .release _

end Ratchet
