/-
Gaps that add up.

The documented limits count what is skipped from the highest number accepted.
After a gap the receiver counts from `nr`, which has moved by one, so a message
within these limits can lie outside the window and is then refused for good.

* `WithinLimits` — the limits, as documented;
* `refused_beyond_window` — beyond the window a message is refused;
* `lost_within_limits` — a run in which this loses a message.
-/
import LibsignalDezire.Session.NothingLost

namespace Ratchet

variable {K : Type} [DecidableEq K] {P : Primitives K} {b : Build} {s : Session K}
  {S : Schedule P} {p : Party} {env : CallEnv K}

/-! ### The documented limits -/

/-- The number after the highest one that `p` has accepted on the chain with
header key `hk`; 0 if it has accepted none. -/
def nextAccepted (s : Session K) (p : Party) (hk : Option K) : ℕ :=
  ((acceptedIn s p hk).map fun m => m.header.n.toNat + 1).foldr max 0

/-- The limits, counted from the highest number accepted: the message skips at
most `MAX_SKIP` numbers of its chain and, when it opens the chain, of the chain
before; no more messages exist than can be stored, and fewer were accepted than
can be tracked. -/
structure WithinLimits (s : Session K) (p : Party) (m : Sealed K) : Prop where
  number : m.header.n.toNat ≤ nextAccepted s p m.headerKey + maxSkip.toNat
  previous : acceptedIn s p m.headerKey = [] →
    m.header.pn.toNat ≤ nextAccepted s p (s.state p).hkR + maxSkip.toNat
  stored : s.sent.length ≤ maxSkippedKeys
  tracked : (acceptedIn s p (s.state p).hkR).length < maxReceivedTracking

theorem le_nextAccepted {hk : Option K} {m : Sealed K} (hm : m ∈ acceptedIn s p hk) :
    m.header.n.toNat + 1 ≤ nextAccepted s p hk := by
  unfold nextAccepted
  generalize acceptedIn s p hk = l at hm
  induction l with
  | nil => cases hm
  | cons m' l ih =>
    rw [List.map_cons, List.foldr_cons]
    rcases List.mem_cons.mp hm with rfl | hm
    · exact le_max_left _ _
    · exact (ih hm).trans (le_max_right _ _)

theorem length_acceptedIn_le (s : Session K) (p : Party) (hk : Option K) :
    (acceptedIn s p hk).length ≤ s.sent.length :=
  List.length_filter_le _ _

/-! ### The first chain -/

section FirstChain

variable (hP : Correct P) (h : Sync S s) (hlen : s.chains.length = 1)
  (hinit : s.state .responder = initReceiverState P S.sk (S.secret 0, S.pub 0))
  {m : Sealed K} (hm : m ∈ s.sent) (hat : SentAt S m 0)

include hP h hlen hinit hat

/-- The first message to reach the responder, with a number within the skip
limit, is accepted, and the numbers below it are stored. -/
theorem first_authenticates (hle : m.header.n.toNat ≤ maxSkip.toNat) :
    Authenticates P b (s.state .responder) m.encHeader m.ciphertext m.ad m.header true
      m.plaintext := by
  have hp := h.state .responder
  have hchain : recvChain P (s.state .responder) m.header true = some (S.chainStart 0) := by
    have := recvChain_next (p := .responder) hP h (by rw [hlen]; exact hat)
    rwa [hlen] at this
  rw [hlen, show view .responder 1 = 0 by decide] at hp
  have hkey := computeMessageKey_of_new (b := b) P hchain hle
  refine ⟨hat.ad_le, fun k v q hk => ?_, ?_, ?_, _, hkey, hat.decrypts hP⟩
  · rw [hinit] at hk
    cases hk
  · refine decryptHeader_of_next P (fun hk header hhk => ?_) ?_
    · rw [hinit] at hhk
      cases hhk
    · rw [hp.nhkR]
      exact hat.opens hP
  · rw [hinit]
    exact Finset.notMem_empty _

include hm

/-- The responder tries the keys of the message and no others. -/
theorem first_authentic (hle : m.header.n.toNat ≤ maxSkip.toNat) :
    AuthenticCall P b s .responder m.encHeader m.ciphertext m.ad := by
  have haccept := first_authenticates (b := b) hP h hlen hinit hat hle
  have hp := h.state .responder
  rw [hlen, show view .responder 1 = 0 by decide] at hp
  have hmk : (s.state .responder).mkskipped = ∅ := by rw [hinit]; rfl
  have hhkR : (s.state .responder).hkR = none := by rw [hinit]; rfl
  obtain ⟨key, hkey, hopen⟩ := haccept.opens
  refine ⟨fun hk hmem _ => ⟨m, hm, ?_, rfl⟩, fun mk hmem _ => ⟨m, hm, ?_, rfl⟩⟩
  · simp only [RatchetState.headerKeys, hhkR, hmk, AList.keys_empty, Option.toList_none,
      List.nil_append, List.map_nil, List.mem_singleton] at hmem
    rw [hmem, hp.nhkR]
    exact hat.headerKey
  · simp only [RatchetState.messageKeys, hmk, AList.keys_empty, List.filterMap_nil,
      List.nil_append, haccept.header_eq, hkey, List.mem_singleton] at hmem
    obtain ⟨ck, hck, hkeyEq, -⟩ := computeMessageKey_eq_ok P hkey
    have hdh : P.x25519DiffieHellman (s.state .responder).dhPair.1 m.header.dhPub
        = S.dhValue 0 := by
      rw [hp.dhPair, hat.dhPub]
      exact S.dhValue_comm hP 0
    rw [recvChain, if_pos rfl, hdh, hp.rk] at hck
    rw [hmem, hkeyEq, ← Option.some_inj.mp hck, hat.messageKey]
    rfl

/-- The state after it. -/
theorem first_received (env : CallEnv K) (hS : S.KdfSeparates) (hnonces : NoncesUsed s)
    (hle : m.header.n.toNat ≤ maxSkip.toNat) :
    ∃ mkskipped, Stores P (S.chainKey 0 0) (S.headerKey 0) 0 m.header.n.toNat ∅ mkskipped ∧
      decrypt P b env m.encHeader m.ciphertext m.ad (s.state .responder) =
        (.ok m.plaintext, { ratcheted P env m.header (s.state .responder) with
          mkskipped, ckR := some (S.chainKey 0 1), nr := 1
          receivedMessages := {(m.header.dhPub, m.header.n)} }) := by
  have hmk : (s.state .responder).mkskipped = ∅ := by rw [hinit]; rfl
  have hview : view .responder s.chains.length = 0 := by rw [hlen]; rfl
  have hauth := first_authentic (b := b) hP h hlen hinit hm hat hle
  have hreceived : (m.header.dhPub, m.header.n) ∉ (s.state .responder).receivedMessages := by
    rw [hinit]
    exact Finset.notMem_empty _
  obtain ⟨mk₁, mk₂, hprev, hstores, hres⟩ := (receives env hP hS h hauth).of_next hP hS h hnonces
    hm hauth (by rw [hview]; exact hat) hreceived hle (fun hge => by omega)
  obtain rfl : mk₁ = ∅ := by
    rcases hprev with ⟨-, h⟩ | ⟨w, hw, -⟩
    · exact h.trans hmk
    · omega
  rw [hview] at hstores hres
  exact ⟨mk₂, hstores, hres⟩

end FirstChain

/-- **Beyond the window a message is refused**: on the chain being received, a
number more than `MAX_SKIP` past `nr` that is neither stored nor accepted. -/
theorem refused_beyond_window (hP : Correct P) {m : Sealed K} {j : ℕ} (hat : SentAt S m j)
    {st : RatchetState K} (hhk : st.hkR = some (S.headerKey j))
    (hstored : ∀ k ∈ st.mkskipped, k.1 = S.headerKey j ∧ k.2 ≠ m.header.n)
    (hnew : (m.header.dhPub, m.header.n) ∉ st.receivedMessages)
    (hfar : st.nr.toNat + maxSkip.toNat < m.header.n.toNat) :
    decrypt P b env m.encHeader m.ciphertext m.ad st
      = (.err .oldMessageKeysLimitReached, st) := by
  have hopen := hat.opens hP
  refine decrypt_of_limit (fun k key q hk => ?_) hat.ad_le
    (decryptHeader_of_current P hhk hopen) hnew hfar
  rintro ⟨header, hhdr, hn, -⟩
  obtain ⟨hk1, hk2⟩ := hstored k (AList.lookup_isSome.mp (hk ▸ rfl))
  rw [hk1, hopen] at hhdr
  cases hhdr
  exact hk2 hn.symm

/-! ### A burst of messages -/

/-- The initiator has sent `k` messages, and `r` is the responder's state. -/
structure Burst (r : RatchetState K) (k : ℕ) (s : Session K) : Prop where
  responder : s.state .responder = r
  canSend : CanSend (s.state .initiator)
  ns : (s.state .initiator).ns.toNat = k
  counter : (s.state .initiator).headerNonceCounter.toNat = k
  pn : (s.state .initiator).pn = 0
  length : s.sent.length = k
  opened : s.opened = []
  chains : s.chains.length = 1
  mem : ∀ i < k, ∃ m ∈ s.sent, m.header.n.toNat = i ∧ m.header.pn = 0

omit [DecidableEq K] in
theorem Burst.encrypt {r : RatchetState K} {k : ℕ} (h : Burst r k s) (hk : k < 2 ^ 32 - 1)
    (plaintext : Bytes) : Burst r (k + 1) (s.encrypt P .initiator plaintext []) := by
  have hns := h.ns
  have hcounter := h.counter
  rcases encrypt_cases P (s.state .initiator) plaintext [] with
    ⟨hno, -⟩ | ⟨-, had, -⟩ | ⟨ck, hk', -, hhk, hrem, -, ⟨hnone, -⟩ |
      ⟨ns, hsome, ⟨hnone, -⟩ | ⟨c, hc, hres⟩⟩⟩
  · exact absurd h.canSend hno
  · exact absurd had (Nat.not_lt_zero _)
  · have := checkedAdd32_one_eq_none.mp hnone
    omega
  · have h1 : (1 : UInt64).toNat = 1 := rfl
    rw [checkedAdd64, if_pos (by omega)] at hnone
    cases hnone
  · have hnsN := checkedAdd32_one_eq_some.mp hsome
    have hcN := checkedAdd64_one_eq_some hc
    simp only [Session.encrypt, hres]
    refine ⟨h.responder, ⟨rfl, by simp [hhk], hrem⟩, ?_, ?_, h.pn, ?_, h.opened, h.chains,
      fun i hi => ?_⟩
    · simp only [Function.update_self]
      omega
    · simp only [Function.update_self]
      omega
    · simp only [List.length_cons, h.length]
    · by_cases hik : i < k
      · obtain ⟨m, hm, hmi⟩ := h.mem i hik
        exact ⟨m, List.mem_cons_of_mem _ hm, hmi⟩
      · refine ⟨_, List.mem_cons_self, ?_, h.pn⟩
        dsimp only [nextHeader]
        omega

/-- Up to the limit of `u32` the initiator can send any number of messages. -/
theorem burst {sk : K} {bob dhS : DhPrivateKey} {s₀ : Session K}
    (h₀ : Session.start P sk bob dhS = .ok s₀) {k : ℕ} (hk : k < 2 ^ 32) :
    Reachable P b sk bob (Authentic P b)
      (Machine.run (Session.step P b) s₀ (List.replicate k (.encrypt .initiator [] []))) ∧
    Burst (initReceiverState P sk (bob, P.x25519PublicKey bob)) k
      (Machine.run (Session.step P b) s₀ (List.replicate k (.encrypt .initiator [] []))) := by
  induction k with
  | zero =>
    refine ⟨⟨dhS, s₀, [], h₀, trivial, rfl⟩, ?_⟩
    cases h₀
    exact ⟨rfl, ⟨rfl, rfl, rfl⟩, rfl, rfl, rfl, rfl, rfl, rfl, by simp⟩
  | succ k ih =>
    obtain ⟨hreach, hburst⟩ := ih (by omega)
    rw [List.replicate_succ', Machine.run_concat]
    exact ⟨hreach.step trivial, hburst.encrypt (by omega) []⟩

/-- All messages of a burst belong to the first chain. -/
theorem Burst.sentAt {r : RatchetState K} {k : ℕ} (h : Burst r k s) (hsync : Sync S s)
    {m : Sealed K} (hm : m ∈ s.sent) : SentAt S m 0 := by
  obtain ⟨j, hj, hat⟩ := hsync.sent m hm
  rw [h.chains] at hj
  obtain rfl : j = 0 := by omega
  exact hat

/-- After number 1 the state counts from 1, and number 1002 is beyond the window. -/
theorem second_refused (hP : Correct P) (h : Sync S s) (hlen : s.chains.length = 1)
    {m₁ m₂ : Sealed K} (hat : SentAt S m₂ 0) (hn₁ : m₁.header.n.toNat = 1)
    (hn₂ : m₂.header.n.toNat = 1002) (env env' : CallEnv K) {mkskipped : SkippedKeyMap K}
    (hstores : Stores P (S.chainKey 0 0) (S.headerKey 0) 0 m₁.header.n.toNat ∅ mkskipped) :
    (decrypt P b env' m₂.encHeader m₂.ciphertext m₂.ad
      { ratcheted P env m₁.header (s.state .responder) with
        mkskipped, ckR := some (S.chainKey 0 1), nr := 1
        receivedMessages := {(m₁.header.dhPub, m₁.header.n)} }).1
      = .err .oldMessageKeysLimitReached := by
  have hhk := (h.state .responder).nhkR
  rw [hlen] at hhk
  have hother : ∀ k ∈ mkskipped, k.1 = S.headerKey 0 ∧ k.2 ≠ m₂.header.n := by
    intro k hk
    rcases hstores.mem hk with hk | ⟨hk1, -, hk2⟩
    · exact absurd hk (AList.notMem_empty _)
    · refine ⟨hk1, fun heq => ?_⟩
      rw [heq] at hk2
      omega
  have hnew : (m₂.header.dhPub, m₂.header.n) ∉
      ({(m₁.header.dhPub, m₁.header.n)} : Finset (DhPublicKey × UInt32)) := by
    rw [Finset.mem_singleton]
    intro heq
    have := congrArg UInt32.toNat (Prod.mk.inj heq).2
    omega
  have hfar : (1 : UInt32).toNat + maxSkip.toNat < m₂.header.n.toNat := by
    rw [hn₂]
    decide
  rw [refused_beyond_window hP hat (congrArg some hhk) hother hnew hfar]

/-- The responder receives number 1, which skips one number, and then number 1002,
which skips 1000 more. -/
theorem Burst.loses (hP : Correct P) {sk : K} {bob : DhPrivateKey}
    (hS : (s.schedule P sk bob).KdfSeparates) (hreach : Reachable P b sk bob (Authentic P b) s)
    (hburst : Burst (initReceiverState P sk (bob, P.x25519PublicKey bob)) 1003 s)
    (env env' : CallEnv K) :
    ∃ m₁ ∈ s.sent, ∃ m₂ ∈ s.sent, m₁.header.n = 1 ∧ m₂.header.n = 1002 ∧
      WithinLimits s .responder m₁ ∧
      (decrypt P b env m₁.encHeader m₁.ciphertext m₁.ad (s.state .responder)).1
        = .ok m₁.plaintext ∧
      ∃ s' : Session K, s' = s.decrypt P b .responder env m₁.encHeader m₁.ciphertext m₁.ad ∧
        WithinLimits s' .responder m₂ ∧ ¬ Accepted s' .responder m₂ ∧
        (decrypt P b env' m₂.encHeader m₂.ciphertext m₂.ad (s'.state .responder)).1
          = .err .oldMessageKeysLimitReached := by
  obtain ⟨m₁, hm₁, hn₁, hpn₁⟩ := hburst.mem 1 (by omega)
  obtain ⟨m₂, hm₂, hn₂, hpn₂⟩ := hburst.mem 1002 (by omega)
  have hsync := hreach.sync hP hS (agrees_schedule sk bob s)
  have hle : m₁.header.n.toNat ≤ maxSkip.toNat := by
    rw [hn₁]
    decide
  have hmax : maxSkip.toNat = 1000 := rfl
  have hstored : maxSkippedKeys = 2000 := rfl
  have htrack : maxReceivedTracking = 10000 := rfl
  have hlen := hburst.length
  obtain ⟨mkskipped, hstores, hres⟩ := first_received (b := b) hP hsync hburst.chains
    hburst.responder hm₁ (hburst.sentAt hsync hm₁) env hS hreach.noncesUsed hle
  have hne : m₁.encHeader ≠ m₂.encHeader := by
    intro heq
    obtain rfl := hreach.noncesUsed.encHeader_inj hm₁ hm₂ heq
    omega
  have hopened := Session.decrypt_opened hres
  rw [hburst.opened] at hopened
  have hone : m₁.header.n = 1 := UInt32.toNat_inj.mp (by rw [hn₁]; decide)
  have htwo : m₂.header.n = 1002 := UInt32.toNat_inj.mp (by rw [hn₂]; decide)
  have hzero : (0 : UInt32).toNat = 0 := rfl
  refine ⟨m₁, hm₁, m₂, hm₂, hone, htwo,
    ⟨by omega, fun _ => by rw [hpn₁]; omega, by omega, ?_⟩, by rw [hres], _, rfl,
    ⟨?_, fun _ => by rw [hpn₂]; omega, ?_, ?_⟩, ?_, ?_⟩
  · have := length_acceptedIn_le s .responder (s.state .responder).hkR
    omega
  · have hacc : m₁ ∈ acceptedIn (s.decrypt P b .responder env m₁.encHeader m₁.ciphertext
        m₁.ad) .responder m₂.headerKey := by
      refine List.mem_filter.mpr ⟨hm₁, ?_⟩
      simp only [decide_eq_true_eq]
      exact ⟨(hburst.sentAt hsync hm₁).headerKey.trans
        (hburst.sentAt hsync hm₂).headerKey.symm, accepted_of_decrypt rfl hres⟩
    have := le_nextAccepted hacc
    omega
  · exact hlen.trans_le (by omega)
  · refine (length_acceptedIn_le _ _ _).trans_lt ?_
    exact hlen.trans_lt (by omega)
  · rintro ⟨o, ho, -, henc⟩
    rw [hopened, List.mem_singleton] at ho
    rw [ho] at henc
    exact hne henc
  · rw [Session.decrypt_state_self hres]
    exact second_refused hP hsync hburst.chains (hburst.sentAt hsync hm₂) hn₁ hn₂ env env'
      hstores

open Symbolic in
/-- **A message lost within the limits.**  Of 1003 messages the responder receives
number 1 and then number 1002: the limits allow it, but the state still counts
from 1. -/
theorem lost_within_limits : ∃ s : Session Key,
    s = Machine.run (Session.step primitives .release) session
      (List.replicate 1003 (.encrypt .initiator [] [])) ∧
    ∃ m₁ ∈ s.sent, ∃ m₂ ∈ s.sent, m₁.header.n = 1 ∧ m₂.header.n = 1002 ∧
      WithinLimits s .responder m₁ ∧
      (decrypt primitives .release (Symbolic.env 3) m₁.encHeader m₁.ciphertext m₁.ad
        (s.state .responder)).1 = .ok m₁.plaintext ∧
      ∃ s' : Session Key, s' = s.decrypt primitives .release .responder (Symbolic.env 3)
          m₁.encHeader m₁.ciphertext m₁.ad ∧
        WithinLimits s' .responder m₂ ∧ ¬ Accepted s' .responder m₂ ∧
        (decrypt primitives .release (Symbolic.env 4) m₂.encHeader m₂.ciphertext m₂.ad
          (s'.state .responder)).1 = .err .oldMessageKeysLimitReached := by
  obtain ⟨hreach, hburst⟩ := burst (P := primitives) (b := .release) start (k := 1003) (by omega)
  exact ⟨_, rfl, hburst.loses correct (Schedule.kdfSeparates collisionFree) hreach _ _⟩

end Ratchet
