/-
A chain long enough to overflow the skip-limit test.

The initiator sends empty messages and the responder receives each at once, in a
`dev` build, on symbolic keys.  Every message moves `nr` by one, also after the
record of received messages is full; so after `2 ^ 32 - MAX_SKIP` of them the sum
`nr + MAX_SKIP` no longer fits into a `u32`, and the next header that opens on the
chain aborts the call, whatever comes with it.

* `Counts` — the counters of both parties after some of these rounds;
* `forged_overflow` — **the forged message that aborts**.
-/
import LibsignalDezire.Session.Forgeries
import LibsignalDezire.Session.Delivery

namespace Ratchet.Symbolic

/-! ### The rounds -/

/-- The initiator sends an empty message. -/
def send : Event Key := .encrypt .initiator [] []

/-- The responder receives a message. -/
def arrival (m : Sealed Key) : Event Key :=
  .decrypt .responder (Symbolic.env 3) m.encHeader m.ciphertext m.ad

/-- One message sent and received. -/
def round (s : Session Key) : List (Event Key) :=
  send :: ((s.step primitives .dev send).sent.head?.map arrival).toList

/-- The first `i` rounds. -/
def rounds : ℕ → List (Event Key)
  | 0 => []
  | i + 1 => rounds i ++ round (Machine.run (Session.step primitives .dev) session (rounds i))

/-- After `i` rounds, one more message is sent; its header arrives with an empty
body. -/
def overflowing (i : ℕ) : List (Traffic Key) :=
  (rounds i ++ [send]).map .own ++
    ((Machine.run (Session.step primitives .dev) session
      (rounds i ++ [send])).sent.head?.map fun m =>
        .inserted .responder (Symbolic.env 4) m.encHeader [] []).toList

/-! ### The counters -/

/-- The session after the first round. -/
def firstRound : Session Key := Machine.run (Session.step primitives .dev) session (rounds 1)

/-- The keys of the two chains of the run. -/
def keys : Schedule primitives := firstRound.schedule primitives .secret (Bytes.leArray 32 1)

theorem kdfSeparates_keys : keys.KdfSeparates :=
  Schedule.kdfSeparates collisionFree

/-- The initiator has sent `n` messages on the first chain and the responder has
received the first `r`, in order. -/
structure Counts (s : Session Key) (n r : ℕ) : Prop where
  reachable : Reachable primitives .dev .secret (Bytes.leArray 32 1)
    (Authentic primitives .dev) s
  chains : s.chains = firstRound.chains
  ns : (s.state .initiator).ns.toNat = n
  nonces : (s.state .initiator).headerNonceCounter.toNat = n
  remote : (s.state .initiator).dhRemote.isSome
  nr : (s.state .responder).nr.toNat = r
  received : ∀ x ∈ (s.state .responder).receivedMessages, x.2.toNat < r
  not_stored : ∀ k, k ∉ (s.state .responder).mkskipped

theorem length_chains : firstRound.chains.length = 2 := by
  decide +kernel

variable {s : Session Key} {n r : ℕ} {m : Sealed Key}

namespace Counts

theorem sync (h : Counts s n r) : Sync keys s := by
  have hagrees := agrees_schedule (P := primitives) Key.secret (Bytes.leArray 32 1) firstRound
  have hlen : s.chains.length ≤ keys.length := by
    rw [h.chains, keys, Session.schedule]
  exact h.reachable.sync correct kdfSeparates_keys ⟨hlen, hagrees.sk, hagrees.bob,
    fun j c hc => hagrees.secret j c (h.chains ▸ hc)⟩

theorem view_responder (h : Counts s n r) : view .responder s.chains.length = 2 := by
  rw [h.chains, length_chains]
  rfl

theorem view_initiator (h : Counts s n r) : view .initiator s.chains.length = 1 := by
  rw [h.chains, length_chains]
  rfl

theorem keys_mkskipped (h : Counts s n r) : (s.state .responder).mkskipped.keys = [] :=
  List.eq_nil_iff_forall_not_mem.mpr fun k hk => h.not_stored k (AList.mem_keys.mpr hk)

/-- The next message. -/
theorem next (h : Counts s n r) (hn : n < 2 ^ 32 - 1) :
    Counts (s.step primitives .dev send) (n + 1) r ∧
      ∃ m, (s.step primitives .dev send).sent = m :: s.sent ∧ SentAt keys m 0 ∧
        m.header.n.toNat = n := by
  have hstate := h.sync.state .initiator
  rw [h.view_initiator] at hstate
  have hreach : Reachable primitives .dev .secret (Bytes.leArray 32 1)
      (Authentic primitives .dev) (s.step primitives .dev send) := h.reachable.step trivial
  obtain ⟨x, hckS, -⟩ := hstate.ckS
  have hone64 : (1 : UInt64).toNat = 1 := rfl
  rcases encrypt_cases primitives (s.state .initiator) [] [] with
    ⟨hno, -⟩ | ⟨-, had, -⟩ | ⟨ck, hk, hck, hhk, -, -, ⟨hns, -⟩ |
      ⟨ns, hns, ⟨hc, -⟩ | ⟨c, hc, hres⟩⟩⟩
  · refine absurd ⟨?_, ?_, h.remote⟩ hno
    · rw [hckS]
      rfl
    · rw [hstate.hkS]
      rfl
  · exact absurd had (by decide)
  · have := checkedAdd32_one_eq_none.mp hns
    have := h.ns
    omega
  · have := checkedAdd64_one_eq_none.mp hc
    have := h.nonces
    omega
  · have hnsN := checkedAdd32_one_eq_some.mp hns
    have hcN := checkedAdd64_one_eq_some hc
    have hstep : s.step primitives .dev send = s.encrypt primitives .initiator [] [] := rfl
    rw [hstep] at hreach ⊢
    simp only [Session.encrypt, hres] at hreach ⊢
    have hcounts := Counts.mk (n := n + 1) (r := r) hreach h.chains
      (by simp only [Function.update_self]; rw [hnsN, h.ns])
      (by simp only [Function.update_self]; rw [hcN, h.nonces])
      (by simp only [Function.update_self]; exact h.remote)
      h.nr h.received h.not_stored
    refine ⟨hcounts, _, rfl, ?_, h.ns⟩
    obtain ⟨j, -, hat⟩ := hcounts.sync.sent _ List.mem_cons_self
    have hkey := hstate.hkS.symm.trans hat.headerKey
    rwa [← hat.headerKey_inj kdfSeparates_keys (Nat.zero_le _) (Option.some_inj.mp hkey)] at hat

/-! ### A genuine header -/

/-- No header of the first chain opens under the header key of the next one. -/
theorem header_authentic (h : Counts s n r) (hm : m ∈ s.sent) (hat : SentAt keys m 0) :
    ∀ hk ∈ (s.state .responder).headerKeys,
      (decryptHeaderWithKey primitives hk m.encHeader).isOk → s.SealedHeader hk m.encHeader := by
  have hstate := h.sync.state .responder
  rw [h.view_responder] at hstate
  intro hk hmem hopen
  rw [RatchetState.headerKeys, h.keys_mkskipped, hstate.hkR, hstate.nhkR] at hmem
  simp only [Schedule.recvHeaderKey, Option.toList_some, List.map_nil, List.singleton_append,
    List.mem_cons, List.not_mem_nil, or_false] at hmem
  rcases hmem with rfl | rfl
  · exact ⟨m, hm, hat.headerKey, rfl⟩
  · obtain ⟨nonce, hlen, henc⟩ := hat.encHeader
    have hne : ¬ (keys.headerKey 2).digest ≡ (keys.headerKey 0).digest [MOD 2 ^ 127 - 1] := by
      decide +kernel
    rw [henc] at hopen
    exact absurd (digest_of_opens hlen hopen) hne

/-- The keys tried on a genuine header, apart from the header keys. -/
theorem messageKeys_eq (h : Counts s n r) (hat : SentAt keys m 0) {key : Key}
    (hmem : key ∈ (s.state .responder).messageKeys primitives .dev m.encHeader) :
    computeMessageKey primitives .dev (s.state .responder) m.header false = .ok key := by
  rw [RatchetState.messageKeys, h.keys_mkskipped, decryptHeader_current correct h.sync hat
    h.view_responder.symm, List.filterMap_nil, List.nil_append] at hmem
  dsimp only at hmem
  split at hmem
  case h_1 key' hkey => rwa [List.mem_singleton.mp hmem]
  case h_2 => cases hmem

/-- The message that comes next. -/
theorem authentic (h : Counts s n r) (hr : r + maxSkip.toNat < 2 ^ 32) (hm : m ∈ s.sent)
    (hat : SentAt keys m 0) (hn : m.header.n.toNat = r) :
    AuthenticCall primitives .dev s .responder m.encHeader m.ciphertext m.ad := by
  refine ⟨h.header_authentic hm hat, fun key hmem _ => ?_⟩
  have hstate := h.sync.state .responder
  rw [h.view_responder] at hstate
  have hchain : recvChain primitives (s.state .responder) m.header false
      = some (keys.chainKey 0 (s.state .responder).nr.toNat) := hstate.ckR
  have hnr := h.nr
  have hkey := computeMessageKey_of_le (b := .dev) primitives hchain
    (by rwa [recvNumber_false, hnr]) (by rw [recvNumber_false]; omega)
  rw [recvNumber_false, keys.messageKey_chainKey, Nat.add_sub_cancel' (by omega)] at hkey
  obtain rfl := Outcome.ok.inj ((h.messageKeys_eq hat hmem).symm.trans hkey)
  exact ⟨m, hm, hat.messageKey, rfl⟩

/-- It is received, and counted even where it can no longer be tracked. -/
theorem receive (h : Counts s n r) (hr : r + maxSkip.toNat < 2 ^ 32) (hm : m ∈ s.sent)
    (hat : SentAt keys m 0) (hn : m.header.n.toNat = r) :
    Counts (s.step primitives .dev (arrival m)) n (r + 1) := by
  have hauth := h.authentic hr hm hat hn
  have hnonces := h.reachable.noncesUsed
  have hreach : Reachable primitives .dev .secret (Bytes.leArray 32 1)
      (Authentic primitives .dev) (s.step primitives .dev (arrival m)) := h.reachable.step hauth
  have hnr := h.nr
  have hview := h.view_responder
  have hnew : (m.header.dhPub, m.header.n) ∉ (s.state .responder).receivedMessages := by
    intro hx
    have := h.received _ hx
    dsimp only at this
    omega
  obtain ⟨mkskipped, nr, hstores, hnr', hres⟩ := (receives (Symbolic.env 3) correct
    kdfSeparates_keys h.sync hauth).of_current correct kdfSeparates_keys h.sync hnonces hm hauth
    hat hview.symm (h.not_stored _) hnew (by omega) (by omega) (by omega)
  obtain ⟨received, hsub, htrack⟩ := trackMessage_ok m.header m.plaintext ⟨⟩
    { s.state .responder with mkskipped, ckR := some (keys.chainKey 0 nr.toNat), nr }
  have hst : (decrypt primitives .dev (Symbolic.env 3) m.encHeader m.ciphertext m.ad
      (s.state .responder)).2 = { s.state .responder with
        mkskipped, ckR := some (keys.chainKey 0 nr.toNat), nr
        receivedMessages := received } := by
    rw [hres, htrack]
  have hother : (s.decrypt primitives .dev .responder (Symbolic.env 3) m.encHeader m.ciphertext
      m.ad).state .initiator = s.state .initiator :=
    Session.decrypt_state_of_ne (by decide)
  have hstep : s.step primitives .dev (arrival m) = s.decrypt primitives .dev .responder
      (Symbolic.env 3) m.encHeader m.ciphertext m.ad := rfl
  rw [hstep] at hreach ⊢
  have hself : (s.decrypt primitives .dev .responder (Symbolic.env 3) m.encHeader m.ciphertext
      m.ad).state .responder = { s.state .responder with
        mkskipped, ckR := some (keys.chainKey 0 nr.toNat), nr, receivedMessages := received } :=
    (Session.decrypt_state_self Prod.mk.eta.symm).trans hst
  have hchains := Session.decrypt_chains Prod.mk.eta.symm (by rw [hst])
  refine ⟨hreach, hchains.trans h.chains, by rw [hother, h.ns], by rw [hother, h.nonces],
    by rw [hother]; exact h.remote, by rw [hself, ← hnr]; exact hnr', fun x hx => ?_,
    fun k hk => ?_⟩
  · rw [hself] at hx
    rcases Finset.mem_insert.mp (hsub hx) with rfl | hx
    · dsimp only
      omega
    · have := h.received x hx
      omega
  · rw [hself] at hk
    rcases hstores.mem hk with hk | ⟨-, hle, hlt⟩
    · exact h.not_stored k hk
    · omega

/-- One more round. -/
theorem round (h : Counts s r r) (hr : r + maxSkip.toNat < 2 ^ 32) :
    Machine.Along (Session.step primitives .dev) (Authentic primitives .dev) s (round s) ∧
      Counts (Machine.run (Session.step primitives .dev) s (Symbolic.round s)) (r + 1)
        (r + 1) := by
  have hmax : maxSkip.toNat = 1000 := rfl
  obtain ⟨hnext, m, hsent, hat, hn⟩ := h.next (by omega)
  have hround : Symbolic.round s = [send, arrival m] := by
    rw [Symbolic.round, hsent]
    rfl
  have hm : m ∈ (s.step primitives .dev send).sent := by
    rw [hsent]
    exact List.mem_cons_self
  rw [hround]
  exact ⟨⟨trivial, hnext.authentic hr hm hat hn, trivial⟩, hnext.receive hr hm hat hn⟩

end Counts

theorem along_first : Machine.Along (Session.step primitives .dev) (Authentic primitives .dev)
    session (rounds 1) := by
  decide +kernel

theorem counts_first : Counts firstRound 1 1 := by
  have hnone : (firstRound.state .responder).mkskipped.keys = [] := by
    decide +kernel
  have hcounters : (firstRound.state .initiator).ns.toNat = 1 ∧
      (firstRound.state .initiator).headerNonceCounter.toNat = 1 ∧
      (firstRound.state .initiator).dhRemote.isSome ∧
      (firstRound.state .responder).nr.toNat = 1 ∧
      ∀ x ∈ (firstRound.state .responder).receivedMessages, x.2.toNat < 1 := by
    decide +kernel
  obtain ⟨hns, hnonces, hremote, hnr, hreceived⟩ := hcounters
  have hreach : Reachable primitives .dev .secret (Bytes.leArray 32 1)
    (Authentic primitives .dev)
      firstRound := ⟨_, session, rounds 1, start, along_first, rfl⟩
  refine ⟨hreach, rfl, hns, hnonces, hremote, hnr, hreceived, fun k hk => ?_⟩
  rw [AList.mem_keys, hnone] at hk
  cases hk

/-- The rounds go on until the skip-limit test is about to overflow. -/
theorem counts_rounds {i : ℕ} (hi : i + maxSkip.toNat < 2 ^ 32) :
    Machine.Along (Session.step primitives .dev) (Authentic primitives .dev) session
      (rounds (i + 1)) ∧
    Counts (Machine.run (Session.step primitives .dev) session (rounds (i + 1)))
      (i + 1) (i + 1) := by
  induction i with
  | zero => exact ⟨along_first, counts_first⟩
  | succ i ih =>
    obtain ⟨halong, hcounts⟩ := ih (by omega)
    obtain ⟨hround, hnext⟩ := hcounts.round (by omega)
    rw [rounds, Machine.run_append]
    exact ⟨Machine.along_append.mpr ⟨halong, hround⟩, hnext⟩

/-! ### The overflow -/

/-- A message is not empty. -/
theorem ciphertext_ne_nil {j : ℕ} (hat : SentAt keys m j) : m.ciphertext ≠ [] := by
  intro hnil
  have hlen := congrArg List.length (hat.ciphertext.symm.trans hnil)
  simp only [sealMessage, List.length_append, (primitives.hmacSha256Tag _ _).2] at hlen
  cases hlen

/-- The forged message at the end is the first to overflow, and aborts. -/
theorem overflowing_aborts {i : ℕ} (hi : i + maxSkip.toNat = 2 ^ 32) :
    Machine.Along (fun s (t : Traffic Key) => s.step primitives .dev t.event)
      (fun s t => Authentic primitives .dev s t.event ∧ OnlyForged s t) session (overflowing i) ∧
    ¬ Machine.Along (fun s (t : Traffic Key) => s.step primitives .dev t.event)
      (Refused primitives .dev) session (overflowing i) := by
  have hmax : maxSkip.toNat = 1000 := rfl
  obtain ⟨k, rfl⟩ : ∃ k, i = k + 1 := ⟨i - 1, by omega⟩
  obtain ⟨halong, hcounts⟩ := counts_rounds (i := k) (by omega)
  obtain ⟨hnext, m, hsent, hat, hn⟩ := hcounts.next (by omega)
  have hsends := Machine.along_append.mpr ⟨halong,
    show Machine.Along (Session.step primitives .dev)
    (Authentic primitives .dev) _ [send] from ⟨trivial, trivial⟩⟩
  have hrun : Machine.run (fun s (t : Traffic Key) => s.step primitives .dev t.event) session
      ((rounds (k + 1) ++ [send]).map .own) = (Machine.run (Session.step primitives .dev) session
        (rounds (k + 1))).step primitives .dev send := by
    rw [Machine.run_map]
    exact Machine.run_concat _ _ _ _
  have htraffic : overflowing (k + 1) = (rounds (k + 1) ++ [send]).map .own ++
      [.inserted .responder (Symbolic.env 4) m.encHeader [] []] := by
    rw [overflowing, Machine.run_concat, hsent]
    rfl
  rw [htraffic, Machine.along_append, Machine.along_append, hrun]
  generalize (Machine.run (Session.step primitives .dev) session (rounds (k + 1))).step
    primitives .dev send = s at hnext hsent
  have hm : m ∈ s.sent := by
    rw [hsent]
    exact List.mem_cons_self
  have hge : 2 ^ 32 ≤ (s.state .responder).nr.toNat + maxSkip.toNat := by
    rw [hnext.nr]
    omega
  have hnew : (m.header.dhPub, m.header.n) ∉ (s.state .responder).receivedMessages := by
    intro hx
    have := hnext.received _ hx
    dsimp only at this
    omega
  have hhdr := decryptHeader_current correct hnext.sync hat hnext.view_responder.symm
  have hover : Overflows primitives .dev (s.state .responder) m.encHeader [] :=
    ⟨rfl, hge, Nat.zero_le _, m.header, hhdr, hnew⟩
  refine ⟨⟨?_, ⟨⟨hnext.header_authentic hm hat, fun key hmem _ => ?_⟩, fun m' hm' _ his => ?_⟩,
    trivial⟩, fun hrefused => ?_⟩
  · exact Machine.along_map.mpr (hsends.mono fun s e he => ⟨he, trivial⟩)
  · have hkey := hnext.messageKeys_eq hat hmem
    rw [computeMessageKey_of_overflow primitives m.header hge] at hkey
    cases hkey
  · obtain ⟨j, -, hat'⟩ := hnext.sync.sent m' hm'
    exact ciphertext_ne_nil hat' his.ciphertext
  · obtain ⟨e, he⟩ := hrefused.2.1
    rw [hover.decrypt_eq fun k key q hk => absurd (AList.lookup_isSome.mp (hk ▸ rfl))
      (hnext.not_stored k)] at he
    cases he

/-- **The forged message that aborts**: a genuine header with an empty body, after
`2 ^ 32 - MAX_SKIP` messages received in order. -/
theorem forged_overflow :
    Machine.Along (fun s (t : Traffic Key) => s.step primitives .dev t.event)
      (fun s t => Authentic primitives .dev s t.event ∧ OnlyForged s t) session
      (overflowing (2 ^ 32 - maxSkip.toNat)) ∧
    ¬ Machine.Along (fun s (t : Traffic Key) => s.step primitives .dev t.event)
      (Refused primitives .dev) session (overflowing (2 ^ 32 - maxSkip.toNat)) := by
  have hmax : maxSkip.toNat = 1000 := rfl
  exact overflowing_aborts (by omega)

end Ratchet.Symbolic
