/-
A restored session behaves like the one that was saved.

Restoring a state gives back every field, but `mkskipped` may list its entries
in another order (`Ratchet/Saved.lean`), and a map iterates in an order of its own
(`Ratchet/Alike.lean`).

* `Call.AfterEpoch`, `serialize_isSome` — clocks past the Unix epoch make every
  reachable state one that can be saved;
* `restore_invisible` — **saving and restoring a session is invisible** as long as
  the clock advances from one reading to the next;
* `restore_visible_on_tie` — on a clock that stands still it is not.
-/
import LibsignalDezire.Ratchet.Alike
import LibsignalDezire.Ratchet.Saved
import LibsignalDezire.Ratchet.Ties

namespace Ratchet

variable {K : Type} [DecidableEq K] {P : Primitives K}

/-! ### Saving -/

/-- The clock of a call runs past the Unix epoch. -/
def Call.AfterEpoch : Call K → Prop
  | .encrypt .. => True
  | .decrypt env .. => ∀ call i, 0 ≤ env.clock call i

/-- All timestamps are past the Unix epoch. -/
def SkippedAfterEpoch (m : SkippedKeyMap K) : Prop :=
  ∀ k v, m.lookup k = some v → 0 ≤ v.timestamp

theorem SkippedAfterEpoch.empty : SkippedAfterEpoch (∅ : SkippedKeyMap K) :=
  fun _ _ h => by cases h

theorem SkippedAfterEpoch.erase {m : SkippedKeyMap K} (h : SkippedAfterEpoch m)
    (k : K × UInt32) : SkippedAfterEpoch (m.erase k) := by
  intro k' v hv
  by_cases hk : k' = k
  · rw [hk, AList.lookup_erase] at hv
    cases hv
  · rw [AList.lookup_erase_ne hk] at hv
    exact h k' v hv

theorem SkippedAfterEpoch.skipTurn {m : SkippedKeyMap K} (h : SkippedAfterEpoch m)
    {time : ℕ → SystemTime} (htime : ∀ i, 0 ≤ time i)
    (order : HashOrder (K × UInt32)) (hk ck : K)
    (i : ℕ) : SkippedAfterEpoch (skipTurn P order hk time (m, ck) i).1 := by
  intro k v hv
  rw [Ratchet.skipTurn] at hv
  by_cases hkey : k = (hk, UInt32.ofNat i)
  · rw [hkey, AList.lookup_insert, Option.some_inj] at hv
    rw [← hv]
    exact htime i
  · rw [AList.lookup_insert_ne hkey] at hv
    split at hv
    · exact h k v (lookup_evictOldestSkippedKeys hv)
    · exact h k v hv

theorem SkippedAfterEpoch.step (b : Build) {st : RatchetState K} {c : Call K}
    (h : SkippedAfterEpoch st.mkskipped) (hc : c.AfterEpoch) :
    SkippedAfterEpoch (st.step P b c).mkskipped := by
  cases c with
  | encrypt plaintext ad =>
    have hskipped := (encrypt_receiving (P := P) st plaintext ad).1
    rw [RatchetState.step, Call.perform, hskipped]
    exact h
  | decrypt env encHeader ciphertext ad =>
    refine decrypt_mkskipped .empty (fun m k hm => hm.erase k)
      (fun m ck hk time i htime hm => ?_) h
    refine hm.skipTurn (fun j => ?_) _ _ _ _
    obtain ⟨call, l, hl⟩ := htime j
    rw [hl]
    exact hc call l

theorem serialize_isSome {st : RatchetState K} (h : SkippedAfterEpoch st.mkskipped)
    (mapOrder : HashOrder (K × UInt32)) (setOrder : SetOrder (DhPublicKey × UInt32)) :
    ∃ saved, serialize mapOrder setOrder st = some saved := by
  have hentries : ∀ l : List (K × UInt32), (∀ k ∈ l, k ∈ st.mkskipped) →
      ∃ seq, l.mapM (fun k => do
        let v ← st.mkskipped.lookup k
        let saved ← serializeSkippedKey v
        pure (k, saved)) = some seq := by
    intro l
    induction l with
    | nil => exact fun _ => ⟨[], rfl⟩
    | cons k l ih =>
      intro hmem
      obtain ⟨seq, hseq⟩ := ih fun k' hk' => hmem k' (List.mem_cons_of_mem k hk')
      obtain ⟨v, hv⟩ := Option.isSome_iff_exists.mp
        (AList.lookup_isSome.mpr (hmem k List.mem_cons_self))
      obtain ⟨saved, hsaved⟩ : ∃ saved, serializeSkippedKey v = some saved :=
        ⟨_, if_neg (not_lt.mpr (h k v hv))⟩
      exact ⟨(k, saved) :: seq, by rw [List.mapM_cons, hseq, hv]; simp [hsaved]⟩
  obtain ⟨seq, hseq⟩ := hentries (mapOrder.order st.mkskipped.keys)
    fun k hk => AList.mem_keys.mpr ((mapOrder.perm _).mem_iff.mp hk)
  rw [serialize, serializeSkippedMap, hseq]
  exact ⟨_, rfl⟩

/-- **Saving and restoring a session is invisible on a clock that advances.**  A
state reached by any calls, with clocks past the Unix epoch, can be saved, whatever
the iteration orders of its map and its set; restoring it gives back every field,
`mkskipped` with the same entries.  And if each reading of the clock is later than
the one before, in the calls so far and in those to come, then any further calls
return the same on the restored state as on the original, with the same keys drawn
and the same clock, and whatever the order in which the map of either state iterates
at each call; messages that open under two stored keys are left out. -/
theorem restore_invisible {st₀ : RatchetState K} (h₀ : Initial P st₀) (b : Build)
    {past : List (Call K)} (hpast : ∀ c ∈ past, c.AfterEpoch) (mapOrder : HashOrder (K × UInt32))
    (setOrder : SetOrder (DhPublicKey × UInt32)) :
    ∃ saved, serialize mapOrder setOrder (Machine.run (RatchetState.step P b) st₀ past)
        = some saved ∧
      Alike (Machine.run (RatchetState.step P b) st₀ past) (deserialize saved) ∧
      ∀ future : List (Call K × HashOrder (K × UInt32)),
        (readings P b st₀ (past ++ future.map Prod.fst)).Pairwise (· < ·) →
        Machine.Along (RatchetState.step P b) (Call.OpensOnce P)
          (Machine.run (RatchetState.step P b) st₀ past) (future.map Prod.fst) →
        Machine.trace (RatchetState.step P b) (RatchetState.reply P b) (deserialize saved)
            (future.map fun c => c.1.reorder c.2)
          = Machine.trace (RatchetState.step P b) (RatchetState.reply P b)
            (Machine.run (RatchetState.step P b) st₀ past) (future.map Prod.fst) := by
  have hepoch : SkippedAfterEpoch (Machine.run (RatchetState.step P b) st₀ past).mkskipped := by
    refine Machine.Along.invariant
      (I := fun st : RatchetState K => SkippedAfterEpoch st.mkskipped)
      (P := fun _ c => c.AfterEpoch) (fun st c h hc => h.step b hc)
      (.of_forall fun c hc _ => hpast c hc) ?_
    rw [h₀.empty.1]
    exact .empty
  obtain ⟨saved, hsaved⟩ := serialize_isSome hepoch mapOrder setOrder
  obtain ⟨mkskipped, hentries, hrestored⟩ := deserialize_serialize hsaved
  have halike : Alike (Machine.run (RatchetState.step P b) st₀ past) (deserialize saved) :=
    ⟨mkskipped, fun k => (hentries k).symm, hrestored⟩
  refine ⟨saved, hsaved, halike, fun future hclock honce => ?_⟩
  rw [readings_append] at hclock
  have hdated : Dated (Machine.run (RatchetState.step P b) st₀ past).mkskipped
      (readings P b (Machine.run (RatchetState.step P b) st₀ past) (future.map Prod.fst)) := by
    refine Dated.run_calls ?_ hclock
    rw [h₀.empty.1]
    exact .empty _
  exact (trace_reordered halike hdated (List.pairwise_append.mp hclock).2.1 honce).symm

namespace Symbolic

/-- The opposite iteration order. -/
def backwards : HashOrder (Key × UInt32) := ⟨List.reverse, fun l => List.reverse_perm l⟩

/-- The responder stores the keys of messages 0 and 1, is saved and restored, and
receives message 0, the two maps iterating in opposite orders. -/
theorem restore_invisible_after_gap :
    ∃ saved, serialize ⟨id, fun _ => .refl _⟩ ⟨Finset.toList, Finset.toList_toFinset⟩
        (Machine.run (RatchetState.step primitives .release) receiver
          [.decrypt (envAt 3 10) (miscounted 2 2).1 (miscounted 2 2).2 []]) = some saved ∧
      Machine.trace (RatchetState.step primitives .release)
          (RatchetState.reply primitives .release) (deserialize saved)
          [.decrypt { envAt 4 9000 with hashOrder := backwards } (miscounted 0 0).1
            (miscounted 0 0).2 []]
        = Machine.trace (RatchetState.step primitives .release)
          (RatchetState.reply primitives .release)
          (Machine.run (RatchetState.step primitives .release) receiver
            [.decrypt (envAt 3 10) (miscounted 2 2).1 (miscounted 2 2).2 []])
          [.decrypt (envAt 4 9000) (miscounted 0 0).1 (miscounted 0 0).2 []] := by
  have h₀ : Initial primitives receiver := .receiver _ _
  have hpast : ∀ c ∈ [Call.decrypt (envAt 3 10) (miscounted 2 2).1 (miscounted 2 2).2 []],
      c.AfterEpoch := by
    intro c hc
    rw [List.mem_singleton.mp hc]
    intro call i
    show (0 : ℤ) ≤ 10 + 1000 * (call : ℤ) + (i : ℤ)
    omega
  obtain ⟨saved, hsaved, -, hfuture⟩ := restore_invisible h₀ .release hpast
    ⟨id, fun _ => .refl _⟩ ⟨Finset.toList, Finset.toList_toFinset⟩
  have hone : ∀ k ∈ (Machine.run (RatchetState.step primitives .release) receiver
      [.decrypt (envAt 3 10) (miscounted 2 2).1 (miscounted 2 2).2 []]).mkskipped.keys,
      ∀ k' ∈ (Machine.run (RatchetState.step primitives .release) receiver
        [.decrypt (envAt 3 10) (miscounted 2 2).1 (miscounted 2 2).2 []]).mkskipped.keys,
      k.1 = k'.1 := by
    decide +kernel
  refine ⟨saved, hsaved, hfuture [(.decrypt (envAt 4 9000) (miscounted 0 0).1
    (miscounted 0 0).2 [], backwards)] (by decide +kernel) ⟨?_, trivial⟩⟩
  refine OneHeaderKey.opensOnce fun k hk k' hk' _ _ => ?_
  exact hone k (AList.mem_keys.mp hk) k' (AList.mem_keys.mp hk')

end Symbolic

/-! ### A clock that stands still -/

/-- The two calls of `skipMessageKeys` in a delivery that turns the DH ratchet. -/
theorem Authenticates.decrypt_ratchet {b : Build} {st : RatchetState K}
    {encHeader ciphertext ad p : Bytes} {header : RatchetHeader}
    (h : Authenticates P b st encHeader ciphertext ad header true p)
    (env : CallEnv K) {ck hk : K}
    (hck : st.ckR = some ck) (hhk : st.hkR = some hk) (hprev : ¬ OutOfRange st.nr header.pn) :
    ∃ m₁ m₂ ck₁ ckR,
      skipMessageKeys P env.hashOrder (env.clock 0) st.mkskipped ck hk st.nr header.pn = .ok m₁ ∧
      skipMessageKeys P env.hashOrder (env.clock 1) m₁ ck₁ st.nhkR 0 header.n = .ok m₂ ∧
      decrypt P b env encHeader ciphertext ad st = (.ok p, { ratcheted P env header st with
        mkskipped := m₂, ckR, nr := 1
        receivedMessages := {(header.dhPub, header.n)} }) := by
  obtain ⟨key, hkey, -⟩ := h.opens
  obtain ⟨-, -, -, hlimit, -⟩ := computeMessageKey_eq_ok P hkey
  rw [recvNumber_true] at hlimit
  rw [OutOfRange, not_or, not_lt, not_lt] at hprev
  obtain ⟨m₁, hskip₁, -⟩ := skipMessageKeys_spec P env.hashOrder (env.clock 0) st.mkskipped ck hk
    hprev.1 hprev.2
  obtain ⟨ck₁, hck₁⟩ : ∃ ck₁, (ratcheted P env header { st with mkskipped := m₁ }).ckR
    = some ck₁ :=
    ⟨_, rfl⟩
  have hhk₁ : (ratcheted P env header { st with mkskipped := m₁ }).hkR = some st.nhkR := rfl
  have hzero : (0 : UInt32).toNat ≤ header.n.toNat := Nat.zero_le _
  obtain ⟨m₂, hskip₂, -⟩ := skipMessageKeys_spec P env.hashOrder (env.clock 1) m₁ ck₁ st.nhkR
    hzero hlimit
  have htail : skipMessageKeys P env.hashOrder (env.clock 1)
      (ratcheted P env header { st with mkskipped := m₁ }).mkskipped ck₁ st.nhkR
      (ratcheted P env header { st with mkskipped := m₁ }).nr header.n = .ok m₂ := hskip₂
  refine ⟨m₁, m₂, ck₁, some (kdfCk P ck₁).1, hskip₁, hskip₂, ?_⟩
  rw [h.decrypt_eq, commitStateChanges_true, storeSkipped_some P env 0 header.pn hck hhk, hskip₁]
  dsimp only
  rw [commitStateChanges_false P env header hck₁ hhk₁, htail]
  rfl

theorem skipMessageKeys_eq_foldl {order : HashOrder (K × UInt32)} {clock : ℕ → SystemTime}
    {m m' : SkippedKeyMap K} {ck hk : K} {fromN toN : UInt32}
    (h : skipMessageKeys P order clock m ck hk fromN toN = .ok m') :
    m' = ((List.range' fromN.toNat (toN.toNat - fromN.toNat)).foldl
      (Ratchet.skipTurn P order hk fun i => clock (i - fromN.toNat)) (m, ck)).1 := by
  rw [skipMessageKeys_eq, exactSkip] at h
  split at h
  · cases h
  split at h
  · cases h
  cases h
  rfl

namespace Symbolic

/-- The key of message 0 of the first chain, which the responder has stored. -/
def lateKey : Key × UInt32 := ((deriveHeaderKeys primitives .secret).1, 0)

/-- Message 1000 of the initiator's next chain, after 1001 messages of the first. -/
def nextHeader : RatchetHeader := { dhPub := Bytes.leArray 32 5, pn := 1001, n := 1000 }

def nextChainKey : Key :=
  primitives.hkdfSha512 receiverAfterGap.rk
    (primitives.x25519DiffieHellman receiverAfterGap.dhPair.1 nextHeader.dhPub) hkdfInfoRoot 1

def nextMessage : Bytes × Bytes :=
  let encHeader := sealHeader primitives receiverAfterGap.nhkR (headerNonce true 1002) nextHeader
  (encHeader, sealMessage primitives (messageKey primitives nextChainKey 1000) [0x62]
    (concatAd [] encHeader))

/-- The header key after the next chain. -/
def nextNhkR : Key :=
  primitives.hkdfSha512 receiverAfterGap.rk
    (primitives.x25519DiffieHellman receiverAfterGap.dhPair.1 nextHeader.dhPub) hkdfInfoRoot 2

/-- The responder after message 1: the key of message 0 is stored, at time 0, and opens
message 0. -/
theorem receiverAfterGap_spec :
    receiverAfterGap.mkskipped.keys = [lateKey] ∧
    (receiverAfterGap.mkskipped.lookup lateKey).map (fun v => (v.timestamp,
      decryptAead primitives v.mk (miscounted 0 0).2 (concatAd [] (miscounted 0 0).1)))
        = some (0, .ok [0x61]) ∧
    receiverAfterGap.receivedMessages = {(Bytes.leArray 32 2, 1)} ∧
    receiverAfterGap.ckR.isSome ∧ receiverAfterGap.hkR = some lateKey.1 ∧
    receiverAfterGap.nr = 1 ∧ receiverAfterGap.nhkR ≠ lateKey.1 := by
  decide +kernel

/-- Which header key opens which header. -/
theorem headers_spec :
    decryptHeader primitives receiverAfterGap nextMessage.1 = .ok (nextHeader, true) ∧
    (decryptHeaderWithKey primitives lateKey.1 nextMessage.1).isOk = false ∧
    decryptHeaderWithKey primitives lateKey.1 (miscounted 0 0).1
      = .ok { dhPub := Bytes.leArray 32 2, pn := 0, n := 0 } ∧
    decryptHeaderWithKey primitives receiverAfterGap.nhkR (miscounted 0 0).1
      = .err .headerDecryptionFailed ∧
    decryptHeaderWithKey primitives nextNhkR (miscounted 0 0).1
      = .err .headerDecryptionFailed := by
  decide +kernel

theorem eq_lateKey {k : Key × UInt32} (h : k ∈ receiverAfterGap.mkskipped) : k = lateKey := by
  rwa [AList.mem_keys, receiverAfterGap_spec.1, List.mem_singleton] at h

theorem eq_lateKey_of_lookup {k : Key × UInt32} {v : SkippedKey Key}
    (h : receiverAfterGap.mkskipped.lookup k = some v) : k = lateKey :=
  eq_lateKey (AList.lookup_isSome.mp (h ▸ rfl))

theorem lateKey_mem : lateKey ∈ receiverAfterGap.mkskipped := by
  rw [AList.mem_keys, receiverAfterGap_spec.1]
  exact List.mem_singleton_self _

/-- The entry of message 0. -/
theorem lookup_lateKey : ∃ v, receiverAfterGap.mkskipped.lookup lateKey = some v ∧
    v.timestamp = 0 ∧ Opens primitives lateKey v (miscounted 0 0).1 (miscounted 0 0).2
      (concatAd [] (miscounted 0 0).1) [0x61] := by
  obtain ⟨v, hv⟩ := Option.isSome_iff_exists.mp (AList.lookup_isSome.mpr lateKey_mem)
  have hentry := receiverAfterGap_spec.2.1
  rw [hv, Option.map_some, Option.some_inj, Prod.mk.injEq] at hentry
  exact ⟨v, hv, hentry.1, _, headers_spec.2.2.1, rfl, hentry.2⟩

theorem receiverAfterGap_tied : Tied receiverAfterGap.mkskipped 0 := by
  intro k v hv
  obtain ⟨v', hv', htime, -⟩ := lookup_lateKey
  rw [eq_lateKey_of_lookup hv, hv', Option.some_inj] at hv
  rwa [← hv]

theorem receiverAfterGap_bounded : Bounded receiverAfterGap := by
  obtain ⟨hkeys, -, hreceived, -⟩ := receiverAfterGap_spec
  refine ⟨?_, ?_⟩
  · rw [hkeys]
    decide
  · rw [hreceived]
    decide

theorem nextMessage_authenticates :
    Authenticates primitives .release receiverAfterGap nextMessage.1 nextMessage.2 [] nextHeader
      true [0x62] := by
  obtain ⟨hnext, hshut, -⟩ := headers_spec
  obtain ⟨-, -, hreceived, -⟩ := receiverAfterGap_spec
  refine ⟨Nat.zero_le _, fun k v q hk hopens => ?_, hnext, ?_, ?_⟩
  · obtain ⟨header, hhdr, -⟩ := hopens
    rw [eq_lateKey_of_lookup hk] at hhdr
    rw [hhdr] at hshut
    cases hshut
  · rw [hreceived, Finset.mem_singleton]
    decide
  · have hck : recvChain primitives receiverAfterGap nextHeader true
      = some nextChainKey := if_pos rfl
    exact ⟨_, computeMessageKey_of_new primitives hck (by decide),
      decryptAead_encryptAead correct _ _ _⟩

/-- A delivery with no time passing, on a map that iterates in the order `order`. -/
def inOrder (order : HashOrder (Key × UInt32)) (m : Bytes × Bytes) : Call Key :=
  .decrypt { Symbolic.env 6 with hashOrder := order } m.1 m.2 []

/-- The next chain begins: the rest of the first chain is stored, and all of the next
chain before message 1000. -/
theorem nextMessage_received {st : RatchetState Key} (h : Alike receiverAfterGap st)
    (order : HashOrder (Key × UInt32)) :
    ∃ m₁ ck ck₁,
      m₁ = ((List.range' 1 1000).foldl (skipTurn primitives order lateKey.1 fun _ => 0)
        (st.mkskipped, ck)).1 ∧
      (st.step primitives .release (inOrder order nextMessage)).mkskipped
        = ((List.range' 0 1000).foldl
          (skipTurn primitives order receiverAfterGap.nhkR fun _ => 0) (m₁, ck₁)).1 ∧
      st.reply primitives .release (inOrder order nextMessage) = .plaintext (.ok [0x62]) ∧
      (st.step primitives .release (inOrder order nextMessage)).hkR
        = some receiverAfterGap.nhkR ∧
      (st.step primitives .release (inOrder order nextMessage)).nhkR = nextNhkR := by
  obtain ⟨-, -, -, hck, hhk, hnr, -⟩ := receiverAfterGap_spec
  obtain ⟨ck, hck⟩ := Option.isSome_iff_exists.mp hck
  have hnr' : st.nr = 1 := h.nr.trans hnr
  have hprev : ¬ OutOfRange st.nr nextHeader.pn := by
    rw [hnr']
    decide
  obtain ⟨m₁, m₂, ck₁, ckR, hskip₁, hskip₂, hres⟩ :=
    (nextMessage_authenticates.of_alike h).decrypt_ratchet
      { Symbolic.env 6 with hashOrder := order } (h.ckR.trans hck) (h.hkR.trans hhk) hprev
  have hmap₁ := skipMessageKeys_eq_foldl hskip₁
  have hmap₂ := skipMessageKeys_eq_foldl hskip₂
  rw [hnr'] at hmap₁
  rw [h.nhkR] at hmap₂
  have hstep : st.step primitives .release (inOrder order nextMessage)
      = (decrypt primitives .release { Symbolic.env 6 with hashOrder := order } nextMessage.1
        nextMessage.2 [] st).2 := rfl
  have hreply : st.reply primitives .release (inOrder order nextMessage)
      = .plaintext (decrypt primitives .release { Symbolic.env 6 with hashOrder := order }
        nextMessage.1 nextMessage.2 [] st).1 := rfl
  rw [hres] at hstep hreply
  refine ⟨m₁, ck, ck₁, hmap₁, ?_, hreply, ?_, ?_⟩
  · rw [hstep]
    exact hmap₂
  · rw [hstep]
    exact congrArg some h.nhkR
  · rw [hstep, nextNhkR, ← h.rk, ← h.dhPair]
    rfl

theorem lateKey_ne {hk : Key} (l : List ℕ) (h : hk ≠ lateKey.1 ∨ 0 ∉ l ∧ ∀ i ∈ l, i < 2 ^ 32) :
    ∀ i ∈ l, lateKey ≠ (hk, UInt32.ofNat i) := by
  intro i hi heq
  rcases h with hne | ⟨hzero, hlt⟩
  · exact hne (congrArg Prod.fst heq).symm
  · have hnat := congrArg UInt32.toNat (congrArg Prod.snd heq)
    rw [UInt32.toNat_ofNat_of_lt' (hlt i hi)] at hnat
    exact hzero (hnat ▸ hi : (0 : UInt32).toNat ∈ l)

theorem nhkR_ne : receiverAfterGap.nhkR ≠ lateKey.1 := receiverAfterGap_spec.2.2.2.2.2.2

section Late

variable {st : RatchetState Key} (h : Alike receiverAfterGap st)

include h

theorem tied_of_alike : Tied st.mkskipped 0 :=
  fun k v hk => receiverAfterGap_tied k v ((h.mkskipped k).trans hk)

/-- The 2001 keys do not fit, and the key of message 0 is the first to go. -/
theorem lateKey_dropped : lateKey ∉ (st.step primitives .release
    (inOrder (.startingWith lateKey) nextMessage)).mkskipped := by
  obtain ⟨m₁, ck, ck₁, hm₁, hm₂, -⟩ := nextMessage_received h (.startingWith lateKey)
  have hlate : lateKey ∈ st.mkskipped := h.mkskipped.mem_iff.mp lateKey_mem
  have hfirst : SkippedTied st.mkskipped m₁ lateKey.1 (List.range' 1 1000) 0 lateKey := by
    rw [hm₁]
    refine (tied_of_alike h).foldl_startingWith _ _ (lateKey_ne _ (.inr ⟨?_, fun i hi => ?_⟩))
    · simp [List.mem_range'_1]
    · have := List.mem_range'_1.mp hi
      omega
  have hnext := hfirst.tied.foldl_startingWith (P := primitives) receiverAfterGap.nhkR ck₁
    (lateKey_ne (List.range' 0 1000) (.inl nhkR_ne))
  rw [← hm₂] at hnext
  rcases hfirst.dropped with hgone | ⟨hold₁, hnew₁⟩
  · exact hnext.gone hgone
  rcases hnext.dropped with hgone | ⟨hold₂, hnew₂⟩
  · exact hgone
  exfalso
  -- nothing was evicted: all the keys are in the map
  have hsub : numberKeys lateKey.1 0 1001 ∪ numberKeys receiverAfterGap.nhkR 0 1000
      ⊆ (st.step primitives .release
        (inOrder (.startingWith lateKey) nextMessage)).mkskipped.keys.toFinset := by
    intro k hk
    rw [List.mem_toFinset, ← AList.mem_keys]
    rcases Finset.mem_union.mp hk with hk | hk
    · obtain ⟨hfst, -, hlt⟩ := (mem_numberKeys (by decide)).mp hk
      by_cases hzero : k.2.toNat = 0
      · have hk : k = lateKey := Prod.ext hfst (UInt32.toNat_inj.mp hzero)
        rw [hk]
        exact hold₂ _ (hold₁ _ hlate)
      · have hmem := hold₂ _ (hnew₁ k.2.toNat (List.mem_range'_1.mpr (by omega)))
        rwa [UInt32.ofNat_toNat, ← hfst] at hmem
    · obtain ⟨hfst, -, hlt⟩ := (mem_numberKeys (by decide)).mp hk
      have hmem := hnew₂ k.2.toNat (List.mem_range'_1.mpr (by omega))
      rwa [UInt32.ofNat_toNat, ← hfst] at hmem
  have hdisjoint : Disjoint (numberKeys lateKey.1 0 1001)
      (numberKeys receiverAfterGap.nhkR 0 1000) := by
    rw [Finset.disjoint_left]
    intro k hk hk'
    exact nhkR_ne ((((mem_numberKeys (by decide)).mp hk').1).symm.trans
      ((mem_numberKeys (by decide)).mp hk).1)
  have hcard := Finset.card_le_card hsub
  rw [Finset.card_union_of_disjoint hdisjoint, card_numberKeys (by decide),
    card_numberKeys (by decide), card_keys] at hcard
  have hmax := ((h.bounded receiverAfterGap_bounded).step (P := primitives) (b := .release)
    (inOrder (.startingWith lateKey) nextMessage)).mkskipped
  have hlimit : maxSkippedKeys = 2000 := rfl
  omega

/-- In the other order the key of message 0 is never among those that go. -/
theorem lateKey_kept : (st.step primitives .release
    (inOrder (.endingWith lateKey) nextMessage)).mkskipped.lookup lateKey
      = st.mkskipped.lookup lateKey := by
  obtain ⟨m₁, ck, ck₁, hm₁, hm₂, -⟩ := nextMessage_received h (.endingWith lateKey)
  have hne : ∀ i ∈ List.range' 1 1000, lateKey ≠ (lateKey.1, UInt32.ofNat i) := by
    refine lateKey_ne _ (.inr ⟨?_, fun i hi => ?_⟩)
    · simp [List.mem_range'_1]
    · have := List.mem_range'_1.mp hi
      omega
  obtain ⟨htied, hfirst⟩ := (tied_of_alike h).foldl_endingWith (P := primitives) lateKey.1 ck hne
  rw [← hm₁] at htied hfirst
  obtain ⟨-, hnext⟩ := htied.foldl_endingWith (P := primitives) receiverAfterGap.nhkR ck₁
    (lateKey_ne (List.range' 0 1000) (.inl nhkR_ne))
  rw [hm₂, hnext, hfirst]

/-- Message 0 opens under the key of message 0 only. -/
theorem opens_lateKey (order : HashOrder (Key × UInt32)) {k : Key × UInt32} {v : SkippedKey Key}
    {ciphertext ad p : Bytes}
    (hk : (st.step primitives .release (inOrder order nextMessage)).mkskipped.lookup k = some v)
    (hopens : Opens primitives k v (miscounted 0 0).1 ciphertext ad p) : k = lateKey := by
  obtain ⟨m₁, ck, ck₁, hm₁, hm₂, -⟩ := nextMessage_received h order
  have hmem : k ∈ (st.step primitives .release (inOrder order nextMessage)).mkskipped :=
    AList.lookup_isSome.mp (hk ▸ rfl)
  obtain ⟨header, hhdr, hn, -⟩ := hopens
  obtain ⟨-, -, hlate, hshut, -⟩ := headers_spec
  have hfst : k.1 = lateKey.1 := by
    rw [hm₂] at hmem
    rcases mem_foldl_skipTurn hmem with hmem | hnext
    · rw [hm₁] at hmem
      rcases mem_foldl_skipTurn hmem with hmem | hfirst
      · rw [eq_lateKey (h.mkskipped.mem_iff.mpr hmem)]
      · exact hfirst
    · rw [hnext] at hhdr
      rw [hhdr] at hshut
      cases hshut
  rw [hfst, hlate] at hhdr
  cases hhdr
  exact Prod.ext hfst hn.symm

theorem late_opened (order : HashOrder (Key × UInt32)) :
    (st.step primitives .release (inOrder (.endingWith lateKey) nextMessage)).reply primitives
      .release (inOrder order (miscounted 0 0)) = .plaintext (.ok [0x61]) := by
  obtain ⟨v, hv, -, hopens⟩ := lookup_lateKey
  have hkept : (st.step primitives .release
      (inOrder (.endingWith lateKey) nextMessage)).mkskipped.lookup lateKey = some v := by
    rw [lateKey_kept h, ← h.mkskipped, hv]
  show Reply.plaintext (decrypt primitives .release { Symbolic.env 6 with hashOrder := order }
    (miscounted 0 0).1 (miscounted 0 0).2 [] _).1 = _
  rcases trySkippedMessageKeys_cases primitives order (st.step primitives .release
    (inOrder (.endingWith lateKey) nextMessage)).mkskipped (miscounted 0 0).1 (miscounted 0 0).2
      (concatAd [] (miscounted 0 0).1) with ⟨-, hno⟩ | ⟨k, v', p, hk, hopens', htry⟩
  · exact absurd hopens (hno _ v _ hkept)
  · obtain rfl := opens_lateKey h _ hk hopens'
    obtain rfl := Option.some_inj.mp (hkept.symm.trans hk)
    obtain ⟨-, -, -, hp⟩ := hopens
    obtain ⟨-, -, -, hp'⟩ := hopens'
    rw [hp] at hp'
    cases hp'
    rw [decrypt_of_skipped primitives (Nat.zero_le _) htry]

theorem late_refused (order : HashOrder (Key × UInt32)) :
    (st.step primitives .release (inOrder (.startingWith lateKey) nextMessage)).reply primitives
      .release (inOrder order (miscounted 0 0))
        = .plaintext (.err .headerDecryptionFailed) := by
  have hgone := lateKey_dropped h
  obtain ⟨-, -, -, -, -, -, hhkR, hnhkR⟩ := nextMessage_received h (.startingWith lateKey)
  obtain ⟨-, -, -, hshut, hshut'⟩ := headers_spec
  show Reply.plaintext (decrypt primitives .release { Symbolic.env 6 with hashOrder := order }
    (miscounted 0 0).1 (miscounted 0 0).2 [] _).1 = _
  have hno : ∀ k v p, (st.step primitives .release
      (inOrder (.startingWith lateKey) nextMessage)).mkskipped.lookup k = some v →
      ¬ Opens primitives k v (miscounted 0 0).1 (miscounted 0 0).2
        (concatAd [] (miscounted 0 0).1) p := by
    intro k v p hk hopens
    obtain rfl := opens_lateKey h _ hk hopens
    exact hgone (AList.lookup_isSome.mp (hk ▸ rfl))
  rw [decrypt_of_not_skipped primitives (Nat.zero_le _) hno, decryptHeader, hhkR, hnhkR]
  simp only [hshut, hshut']

end Late

/-- **On a clock that stands still a restored session can differ.**  The responder has
stored the key of message 0 and is saved; then the initiator's next chain begins, at
message 1000, and message 0 arrives.  The 2001 keys do not fit, all have the same
timestamp, and the order of the map alone says which go: message 0 is lost by the
restored state and opened by the original. -/
theorem restore_visible_on_tie :
    ∃ saved, serialize ⟨id, fun _ => .refl _⟩ ⟨Finset.toList, Finset.toList_toFinset⟩
        (Machine.run (RatchetState.step primitives .release) receiver
          [.decrypt (Symbolic.env 3) (miscounted 1 1).1 (miscounted 1 1).2 []]) = some saved ∧
      Machine.trace (RatchetState.step primitives .release)
          (RatchetState.reply primitives .release)
          (Machine.run (RatchetState.step primitives .release) receiver
            [.decrypt (Symbolic.env 3) (miscounted 1 1).1 (miscounted 1 1).2 []])
          [inOrder (.endingWith lateKey) nextMessage,
            inOrder (.endingWith lateKey) (miscounted 0 0)]
        = [.plaintext (.ok [0x62]), .plaintext (.ok [0x61])] ∧
      Machine.trace (RatchetState.step primitives .release)
          (RatchetState.reply primitives .release) (deserialize saved)
          [inOrder (.startingWith lateKey) nextMessage,
            inOrder (.startingWith lateKey) (miscounted 0 0)]
        = [.plaintext (.ok [0x62]), .plaintext (.err .headerDecryptionFailed)] := by
  have hrun : Machine.run (RatchetState.step primitives .release) receiver
      [.decrypt (Symbolic.env 3) (miscounted 1 1).1 (miscounted 1 1).2 []]
        = receiverAfterGap := by
    rw [receiverAfterGap, deliver, Machine.run_cons, Machine.run_nil, RatchetState.step,
      Call.perform]
  rw [hrun]
  have hepoch : SkippedAfterEpoch receiverAfterGap.mkskipped :=
    fun k v hk => (receiverAfterGap_tied k v hk).ge
  obtain ⟨saved, hsaved⟩ := serialize_isSome hepoch ⟨id, fun _ => .refl _⟩
    ⟨Finset.toList, Finset.toList_toFinset⟩
  obtain ⟨mkskipped, hentries, hrestored⟩ := deserialize_serialize hsaved
  have hrestored : Alike receiverAfterGap (deserialize saved) :=
    ⟨mkskipped, fun k => (hentries k).symm, hrestored⟩
  have horiginal : Alike receiverAfterGap receiverAfterGap := .refl _
  refine ⟨saved, hsaved, ?_, ?_⟩
  · obtain ⟨-, -, -, -, -, hreply, -⟩ := nextMessage_received horiginal (.endingWith lateKey)
    rw [Machine.trace, Machine.trace, Machine.trace, hreply, late_opened horiginal]
  · obtain ⟨-, -, -, -, -, hreply, -⟩ := nextMessage_received hrestored (.startingWith lateKey)
    rw [Machine.trace, Machine.trace, Machine.trace, hreply, late_refused hrestored]

end Symbolic

end Ratchet
