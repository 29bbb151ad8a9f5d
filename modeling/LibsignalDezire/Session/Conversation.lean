/-
Conversations: every message is delivered before the next one is sent.

In a conversation nothing is ever stored, and what becomes of a turn depends on
who spoke last and on how many messages in a row he has sent.

* `Turn.verdict` — what a turn returns;
* `Lockstep` — the two sides between two turns;
* `conversation_exact` — **the replies of every conversation**: all messages arrive,
  up to the number of messages in a row that can be tracked.
-/
import LibsignalDezire.Session.Refinement

namespace Ratchet

/-! ### What a turn returns -/

/-- One party sends, and what is returned is delivered to its peer at once; `env` is
what this delivery reads from its surroundings. -/
structure Turn (K : Type) where
  party : Party
  plaintext : Bytes
  ad : Bytes
  env : CallEnv K

variable {K : Type}

/-- What a turn returns, and who has spoken last then. -/
def Turn.verdict (t : Turn K) (q : Party) (n : ℕ) : List Exchange.Answer × Party × ℕ :=
  if t.party = q then
    if n = 0 then ([.sent (.err .invalidState)], q, n)
    else if maxAdSize < t.ad.length then ([.sent (.err .adTooLarge)], q, n)
    else ([.sent (.ok ⟨⟩), .received (if n < maxReceivedTracking then .ok t.plaintext
      else .err .tooManyMessages)], q, n + 1)
  else if maxAdSize < t.ad.length then ([.sent (.err .adTooLarge)], q, n)
  else ([.sent (.ok ⟨⟩), .received (.ok t.plaintext)], t.party, 1)

/-- What a conversation returns. -/
def verdicts : Party → ℕ → List (Turn K) → List Exchange.Answer
  | _, _, [] => []
  | q, n, t :: ts => (t.verdict q n).1 ++ verdicts (t.verdict q n).2.1 (t.verdict q n).2.2 ts

/-! ### The sides between two turns -/

/-- The side `hq` has spoken last, `n` messages in a row; the sides have handled at
most `N` messages. -/
structure Lockstep (N n : ℕ) (hq ho : Side) : Prop where
  started : n = 0 ↔ hq.view = 0
  view : ho.view = hq.view + 1
  ns : hq.ns.toNat = n
  nr : ho.nr.toNat = n
  silent : ho.ns = 0
  previous : 2 ≤ hq.view → ho.pn = hq.nr
  stored : hq.stored = ∅ ∧ ho.stored = ∅
  card : ho.received.card = min n maxReceivedTracking
  tracked : ∀ x ∈ ho.received, x.1 = hq.dhPub ∧ x.2.toNat < n
  untracked : ∀ x ∈ hq.received, x.1 ≠ ho.dhPub
  few : n ≤ N ∧ hq.headerNonceCounter.toNat ≤ N ∧ ho.headerNonceCounter.toNat ≤ N

variable {N n : ℕ} {hq ho : Side} {b : Build} {pub : DhPublicKey}
  {o : Outcome RatchetError Bytes} {h' : Side} {plaintext ad : Bytes} {σ : Exchange}

theorem StoresKeys.eq_empty {j a : ℕ} {new : Finset (ℕ × UInt32)}
    (h : StoresKeys j a a ∅ new) : new = ∅ := by
  have hsub := h.subset
  rwa [numberKeys_self, Finset.union_empty, Finset.subset_empty] at hsub

/-- The side that a message is sent from. -/
def Side.sending (h : Side) : Side :=
  { h with ns := h.ns + 1, headerNonceCounter := h.headerNonceCounter + 1 }

/-- Sending, while counters have room. -/
theorem Side.send_eq {h : Side} (hview : h.view ≠ 0) (had : ad.length ≤ maxAdSize)
    (hns : h.ns.toNat + 1 < 2 ^ 32) (hc : h.headerNonceCounter.toNat + 1 < 2 ^ 64) :
    h.send ad = (.ok ⟨⟩, h.sending) := by
  have hone : (1 : UInt32).toNat = 1 := rfl
  have hone' : (1 : UInt64).toNat = 1 := rfl
  rw [Side.send, if_neg hview, if_neg (not_lt.mpr had), checkedAdd32, checkedAdd64,
    if_pos (by omega), if_pos (by omega)]
  rfl

namespace Lockstep

variable (h : Lockstep N n hq ho) (hN : N + 1 + maxSkip.toNat < 2 ^ 32)

include h hN

theorem send_same (hn : n ≠ 0) (had : ad.length ≤ maxAdSize) :
    hq.send ad = (.ok ⟨⟩, hq.sending) := by
  have hfew := h.few
  have hns := h.ns
  exact Side.send_eq (mt h.started.mpr hn) had (by omega) (by omega)

theorem send_other (had : ad.length ≤ maxAdSize) : ho.send ad = (.ok ⟨⟩, ho.sending) := by
  have hfew := h.few
  have hzero : ho.ns.toNat = 0 := by rw [h.silent]; rfl
  exact Side.send_eq (by rw [h.view]; omega) had (by omega) (by omega)

omit hN in
theorem current (hn : n ≠ 0) : ho.Current (hq.nextMessage plaintext ad) := by
  have hview := mt h.started.mpr hn
  refine ⟨?_, ?_, fun hx => ?_⟩
  · rw [Side.nextMessage, h.view]
    dsimp only
    omega
  · rw [h.stored.2]
    exact Finset.notMem_empty _
  · have hlt := (h.tracked _ hx).2
    rw [Side.nextMessage, h.ns] at hlt
    exact absurd hlt (lt_irrefl n)

omit h in
theorem add_eq {m : ℕ} (hm : m ≤ N) {nr : UInt32} (hnr : nr.toNat = m) :
    (b.add nr maxSkip : Outcome RatchetError UInt32) = .ok (nr + maxSkip) :=
  Build.add_of_lt (by omega)

/-- The counters after the next message of a burst. -/
theorem next_same (hn : n ≠ 0) {received : Finset (DhPublicKey × UInt32)}
    (hcard : received.card = min (n + 1) maxReceivedTracking)
    (htracked : ∀ x ∈ received, x.1 = hq.dhPub ∧ x.2.toNat < n + 1) :
    Lockstep (N + 1) (n + 1) hq.sending { ho with stored := ∅, nr := ho.nr + 1, received } := by
  have hview := mt h.started.mpr hn
  have hfew := h.few
  have hone : (1 : UInt32).toNat = 1 := rfl
  have hone' : (1 : UInt64).toNat = 1 := rfl
  have hns := h.ns
  have hnr := h.nr
  refine ⟨⟨fun h0 => absurd h0 (Nat.succ_ne_zero n), fun h0 => absurd h0 hview⟩, h.view, ?_, ?_,
    h.silent, h.previous, ⟨h.stored.1, rfl⟩, hcard, htracked, h.untracked, ?_⟩
  · rw [Side.sending, toNat_add_of_lt (by omega), hns]
    rfl
  · dsimp only
    rw [toNat_add_of_lt (by omega), hnr]
    rfl
  · refine ⟨by omega, ?_, by dsimp only; omega⟩
    rw [Side.sending, UInt64.toNat_add, Nat.mod_eq_of_lt (by omega)]
    omega

/-- What the next message of a burst can be answered with: it is tracked, if it can be. -/
theorem receive_same_cases (hn : n ≠ 0)
    (hreceive : ho.Receive b pub (hq.nextMessage plaintext ad) o h') :
    maxReceivedTracking ≤ ho.received.card ∧ o = .err .tooManyMessages ∧
        h' = { ho with stored := ∅, nr := ho.nr + 1 } ∨
      ho.received.card < maxReceivedTracking ∧ o = .ok plaintext ∧
        h' = { ho with
          stored := ∅, nr := ho.nr + 1, received := insert (hq.dhPub, hq.ns) ho.received } := by
  have hcur : ho.Current (hq.nextMessage plaintext ad) := h.current hn
  have hfew := h.few
  have hnr := h.nr
  have hchain : (hq.nextMessage plaintext ad).chain + 2 = ho.view := hcur.chain
  have hnumber : (hq.nextMessage plaintext ad).header.n = hq.ns := rfl
  have heq : hq.ns = ho.nr := UInt32.toNat_inj.mp (h.ns.trans hnr.symm)
  cases hreceive with
  | stored hk => exact absurd hk hcur.not_stored
  | unknown hk hne => exact absurd hchain hne
  | duplicate hk _ hdup => exact absurd hdup hcur.not_received
  | overflow hm hadd =>
    rw [add_eq hN hfew.1 hnr] at hadd
    cases hadd
  | beyond hm hadd hlt =>
    rw [add_eq hN hfew.1 hnr] at hadd
    obtain rfl := Outcome.ok.inj hadd
    rw [hnumber, heq, UInt32.lt_iff_toNat_lt, toNat_add_of_lt (by omega)] at hlt
    omega
  | passed hm hadd hle hlt =>
    rw [hnumber, heq] at hlt
    exact absurd hlt (UInt32.lt_irrefl _)
  | nextBeyond hm =>
    have := hm.chain
    omega
  | lost hm =>
    have := hm.chain
    omega
  | next hm =>
    have := hm.chain
    omega
  | full hm hadd hle hge hstored hfull =>
    rw [hnumber, heq, h.stored.2] at hstored
    obtain rfl := hstored.eq_empty
    exact .inl ⟨hfull, rfl, rfl⟩
  | accepted hm hadd hle hge hstored hroom =>
    rw [hnumber, heq, h.stored.2] at hstored
    obtain rfl := hstored.eq_empty
    exact .inr ⟨hroom, rfl, rfl⟩

/-- The next message of a burst. -/
theorem receive_same (hn : n ≠ 0)
    (hreceive : ho.Receive b pub (hq.nextMessage plaintext ad) o h') :
    o = (if n < maxReceivedTracking then .ok plaintext else .err .tooManyMessages) ∧
      Lockstep (N + 1) (n + 1) hq.sending h' := by
  rcases h.receive_same_cases hN hn hreceive with ⟨hfull, rfl, rfl⟩ | ⟨hroom, rfl, rfl⟩
  · rw [h.card] at hfull
    have hle : maxReceivedTracking ≤ n := hfull.trans (min_le_left _ _)
    refine ⟨(if_neg (not_lt.mpr hle)).symm, h.next_same hN hn ?_ fun x hx => ?_⟩
    · rw [h.card, min_eq_right hle, min_eq_right (hle.trans (Nat.le_succ n))]
    · obtain ⟨hpub, hlt⟩ := h.tracked x hx
      exact ⟨hpub, by omega⟩
  · rw [h.card] at hroom
    have hlt : n < maxReceivedTracking := (min_lt_iff.mp hroom).resolve_right (lt_irrefl _)
    have hnew : (hq.dhPub, hq.ns) ∉ ho.received :=
      (h.current hn : ho.Current (hq.nextMessage plaintext ad)).not_received
    refine ⟨(if_pos hlt).symm, h.next_same hN hn ?_ fun x hx => ?_⟩
    · rw [Finset.card_insert_of_notMem hnew, h.card, min_eq_left hlt.le, min_eq_left hlt]
    · rcases Finset.mem_insert.mp hx with rfl | hx
      · exact ⟨rfl, by rw [h.ns]; omega⟩
      · obtain ⟨hpub, hlt⟩ := h.tracked x hx
        exact ⟨hpub, by omega⟩

/-- The counters after the answer to a burst. -/
theorem next_other (hpub : pub ≠ hq.dhPub) :
    Lockstep (N + 1) 1 ho.sending { hq with
      view := hq.view + 2, dhPub := pub, ns := 0, nr := 1, pn := hq.ns
      stored := ∅, received := {(ho.dhPub, ho.ns)} } := by
  have hfew := h.few
  have hone : (1 : UInt32).toNat = 1 := rfl
  have hone' : (1 : UInt64).toNat = 1 := rfl
  have hview := h.view
  have hzero : ho.ns.toNat = 0 := by rw [h.silent]; rfl
  refine ⟨⟨fun h0 => absurd h0 one_ne_zero, fun h0 => ?_⟩, ?_, ?_, rfl, rfl, fun _ => ?_,
    ⟨h.stored.2, rfl⟩, ?_, fun x hx => ?_, fun x hx => ?_, ?_⟩
  · rw [Side.sending] at h0
    dsimp only at h0
    omega
  · rw [Side.sending, hview]
  · rw [Side.sending, toNat_add_of_lt (by omega), hzero]
    rfl
  · exact UInt32.toNat_inj.mp (h.ns.trans h.nr.symm)
  · rfl
  · obtain rfl := Finset.mem_singleton.mp hx
    exact ⟨rfl, by rw [hzero]; exact one_pos⟩
  · rw [(h.tracked x hx).1]
    exact hpub.symm
  · refine ⟨by omega, ?_, by dsimp only; omega⟩
    rw [Side.sending, UInt64.toNat_add, Nat.mod_eq_of_lt (by omega)]
    omega

omit hN in
/-- The answer to a burst can only be accepted: the DH ratchet turns. -/
theorem receive_other_cases (hreceive : hq.Receive b pub (ho.nextMessage plaintext ad) o h') :
    o = .ok plaintext ∧ h' = { hq with
      view := hq.view + 2, dhPub := pub, ns := 0, nr := 1, pn := hq.ns
      stored := ∅, received := {(ho.dhPub, ho.ns)} } := by
  have hmax : maxSkip.toNat = 1000 := rfl
  have hview := h.view
  have hchain : (ho.nextMessage plaintext ad).chain = hq.view := by
    rw [Side.nextMessage, hview]
    rfl
  have hnumber : (ho.nextMessage plaintext ad).header.n.toNat = 0 := by
    rw [Side.nextMessage, h.silent]
    rfl
  have hpn : 2 ≤ hq.view → (ho.nextMessage plaintext ad).header.pn = hq.nr := h.previous
  have hnew : ((ho.nextMessage plaintext ad).header.dhPub,
      (ho.nextMessage plaintext ad).header.n) ∉ hq.received :=
    fun hx => h.untracked _ hx rfl
  cases hreceive with
  | stored hk =>
    rw [h.stored.1] at hk
    exact absurd hk (Finset.notMem_empty _)
  | unknown hk hcur hne => exact absurd hchain hne
  | duplicate hk _ hdup => exact absurd hdup hnew
  | overflow hm =>
    have := hm.chain
    omega
  | beyond hm =>
    have := hm.chain
    omega
  | passed hm =>
    have := hm.chain
    omega
  | full hm =>
    have := hm.chain
    omega
  | accepted hm =>
    have := hm.chain
    omega
  | nextBeyond hm hlt =>
    rw [UInt32.lt_iff_toNat_lt, hnumber] at hlt
    omega
  | lost hm hle hview' hout =>
    rw [hpn hview'] at hout
    omega
  | @next hm hle mid new hprev hstored =>
    have hmid : mid = ∅ := by
      rcases hprev with ⟨-, rfl⟩ | ⟨hview', -, -, hstored'⟩
      · exact h.stored.1
      · rw [hpn hview', h.stored.1] at hstored'
        exact hstored'.eq_empty
    rw [hmid, hnumber] at hstored
    obtain rfl := hstored.eq_empty
    exact ⟨rfl, rfl⟩

/-- The answer to a burst. -/
theorem receive_other (hpub : pub ≠ hq.dhPub)
    (hreceive : hq.Receive b pub (ho.nextMessage plaintext ad) o h') :
    o = .ok plaintext ∧ Lockstep (N + 1) 1 ho.sending h' := by
  obtain ⟨rfl, rfl⟩ := h.receive_other_cases hreceive
  exact ⟨rfl, h.next_other hN hpub⟩

end Lockstep

/-! ### Conversations of a session -/

variable [DecidableEq K] (P : Primitives K)

/-- The calls of a turn. -/
def Session.turn (s : Session K) (t : Turn K) : List (Event K) :=
  .encrypt t.party t.plaintext t.ad ::
    match (Ratchet.encrypt P t.plaintext t.ad (s.state t.party)).1 with
    | .ok (encHeader, ciphertext) => [.decrypt t.party.peer t.env encHeader ciphertext t.ad]
    | _ => []

/-- The calls of a conversation. -/
def Session.conversation (b : Build) (s : Session K) : List (Turn K) → List (Event K)
  | [] => []
  | t :: ts => s.turn P t ++
    conversation b (Machine.run (Session.step P b) s (s.turn P t)) ts

variable {P} {S : Schedule P} {s : Session K} {sk : K} {bob : DhPrivateKey} {q : Party}

/-- What a conversation assumes of its calls: ideal encryption, and a key pair that
differs from the one in place. -/
def Undisturbed (P : Primitives K) (b : Build) (s : Session K) (e : Event K) : Prop :=
  Authentic P b s e ∧ DrawsFresh P s e

/-- The session and the exchange between two turns. -/
structure Between (b : Build) (sk : K) (bob : DhPrivateKey) (S : Schedule P) (s : Session K)
    (N n : ℕ) (q : Party) (σ : Exchange) : Prop where
  reachable : Reachable P b sk bob (Authentic P b) s
  exchange : ExchangeOf S s σ
  lockstep : Lockstep N n (σ.side q) (σ.side q.peer)

/-- A turn that is not sent. -/
theorem Between.not_sent (hP : Correct P) (hS : S.KdfSeparates)
    (h : Between b sk bob S s N n q σ) (hagrees : Agrees S sk bob s) {p : Party}
    {e : RatchetError} (hsend : (σ.side p).send ad = (.err e, σ.side p)) (plaintext : Bytes)
    (hafter : Agrees S sk bob (s.encrypt P p plaintext ad)) :
    (Ratchet.encrypt P plaintext ad (s.state p)).1 = .err e ∧
      Between b sk bob S (s.encrypt P p plaintext ad) N n q σ := by
  have hnext := h.reachable.step (e := .encrypt p plaintext ad) trivial
  obtain ⟨σ', hstep, hex⟩ := h.exchange.encrypt (b := b) hS
    (h.reachable.sync hP hS hagrees) p plaintext ad (hnext.sync hP hS hafter)
  generalize hres : (Ratchet.encrypt P plaintext ad (s.state p)).1 = r at hstep
  generalize hans : (Reply.message r).answer = ans at hstep
  cases hstep with
  | sent hsend' =>
    rw [hsend] at hsend'
    cases hsend'
  | notSent hsend' =>
    rw [hsend] at hsend'
    obtain ⟨rfl, rfl⟩ := Prod.mk.inj hsend'
    rw [Function.update_eq_self] at hex
    refine ⟨?_, hnext, hex, h.lockstep⟩
    cases r with
    | ok => cases hans
    | err e' =>
      cases hans
      rfl
    | panic => cases hans

/-- A turn that is sent: the message is the newest on record. -/
theorem Between.sent (hP : Correct P) (hS : S.KdfSeparates)
    (h : Between b sk bob S s N n q σ) (hagrees : Agrees S sk bob s) {p : Party}
    (hsend : (σ.side p).send ad = (.ok ⟨⟩, h')) (plaintext : Bytes)
    (hafter : Agrees S sk bob (s.encrypt P p plaintext ad)) :
    ∃ m ∈ (s.encrypt P p plaintext ad).sent,
      (Ratchet.encrypt P plaintext ad (s.state p)).1 = .ok (m.encHeader, m.ciphertext) ∧
      MessageOf S m ((σ.side p).nextMessage plaintext ad) ∧
      ExchangeOf S (s.encrypt P p plaintext ad) { side := Function.update σ.side p h'
                                                  sent := (σ.side p).nextMessage plaintext ad
                                                    :: σ.sent } := by
  have hnext := h.reachable.step (e := .encrypt p plaintext ad) trivial
  obtain ⟨σ', hstep, hex⟩ := h.exchange.encrypt (b := b) hS
    (h.reachable.sync hP hS hagrees) p plaintext ad (hnext.sync hP hS hafter)
  generalize hres : (Ratchet.encrypt P plaintext ad (s.state p)).1 = r at hstep
  generalize hans : (Reply.message r).answer = ans at hstep
  cases hstep with
  | notSent hsend' ho =>
    rw [hsend] at hsend'
    exact absurd (Prod.mk.inj hsend').1.symm ho
  | sent hsend' =>
    rw [hsend] at hsend'
    obtain ⟨-, rfl⟩ := Prod.mk.inj hsend'
    cases r with
    | err e => cases hans
    | panic => cases hans
    | ok bytes =>
      obtain ⟨encHeader, ciphertext⟩ := bytes
      have hsent := hex.sent
      obtain ⟨m, henc, hct, hrecord⟩ : ∃ m : Sealed K, m.encHeader = encHeader ∧
          m.ciphertext = ciphertext ∧ (s.encrypt P p plaintext ad).sent = m :: s.sent := by
        obtain ⟨st, hst⟩ : ∃ st, Ratchet.encrypt P plaintext ad (s.state p)
          = (.ok (encHeader, ciphertext), st) := ⟨_, Prod.ext hres rfl⟩
        simp only [Session.encrypt, hst, List.cons.injEq, and_true]
        exact ⟨_, rfl, rfl, rfl⟩
      rw [hrecord] at hsent
      refine ⟨m, by rw [hrecord]; exact List.mem_cons_self, by rw [henc, hct], ?_, hex⟩
      cases hsent with
      | cons hm _ => exact hm

omit [DecidableEq K] in
theorem Lockstep.mono {N' : ℕ} (h : Lockstep N n hq ho) (hN : N ≤ N') : Lockstep N' n hq ho :=
  { h with few := ⟨h.few.1.trans hN, h.few.2.1.trans hN, h.few.2.2.trans hN⟩ }

/-- The turn returns its verdict, and leaves the sides in step. -/
def ReturnsVerdict (P : Primitives K) (b : Build) (sk : K) (bob : DhPrivateKey) (S : Schedule P)
    (s : Session K) (N n : ℕ) (q : Party) (t : Turn K) : Prop :=
  Machine.trace (Session.step P b) (fun s e => (s.reply P b e).answer) s (s.turn P t)
      = (t.verdict q n).1 ∧
    ∃ σ', Between b sk bob S (Machine.run (Session.step P b) s (s.turn P t)) (N + 1)
      (t.verdict q n).2.2 (t.verdict q n).2.1 σ'

section Turns

variable (hP : Correct P) (hS : S.KdfSeparates) (h : Between b sk bob S s N n q σ)
  (hN : N + 1 + maxSkip.toNat < 2 ^ 32) {t : Turn K}
  (hes : Machine.Along (Session.step P b) (Undisturbed P b) s (s.turn P t))
  (hagrees : Agrees S sk bob (Machine.run (Session.step P b) s (s.turn P t)))

include hP hS h hagrees

/-- A turn that fails returns its error and nothing more. -/
theorem Between.turn_fails {e : RatchetError}
    (hsend : (σ.side t.party).send t.ad = (.err e, σ.side t.party))
    (hverdict : t.verdict q n = ([.sent (.err e)], q, n)) :
    ReturnsVerdict P b sk bob S s N n q t := by
  have hagrees₀ := hagrees.of_run
  rw [Session.turn, Machine.run_cons] at hagrees
  obtain ⟨hres, hbetween⟩ := h.not_sent hP hS hagrees₀ hsend t.plaintext hagrees.of_run
  rw [ReturnsVerdict, hverdict, Session.turn, hres]
  refine ⟨?_, σ, hbetween.reachable, hbetween.exchange, hbetween.lockstep.mono (Nat.le_succ N)⟩
  simp only [Machine.trace, Session.reply, hres, Reply.answer]

include hes

/-- A turn that is sent is delivered to the other side. -/
theorem Between.turn_delivers (hsend : (σ.side t.party).send t.ad = (.ok ⟨⟩, h')) :
    ∃ o h'', (σ.side t.party.peer).Receive b (P.x25519PublicKey t.env.freshSecret)
        ((σ.side t.party).nextMessage t.plaintext t.ad) o h'' ∧
      P.x25519PublicKey t.env.freshSecret ≠ (σ.side t.party.peer).dhPub ∧
      Machine.trace (Session.step P b) (fun s e => (s.reply P b e).answer) s (s.turn P t)
        = [.sent (.ok ⟨⟩), .received o] ∧
      Reachable P b sk bob (Authentic P b) (Machine.run (Session.step P b) s (s.turn P t)) ∧
      ∃ sent, ExchangeOf S (Machine.run (Session.step P b) s (s.turn P t))
        { side := Function.update (Function.update σ.side t.party h') t.party.peer h''
          sent } := by
  have hagrees₀ := hagrees.of_run
  have hafter : Agrees S sk bob (s.encrypt P t.party t.plaintext t.ad) := by
    rw [Session.turn, Machine.run_cons] at hagrees
    exact hagrees.of_run
  obtain ⟨m, hm, hres, hμ, hex⟩ := h.sent hP hS hagrees₀ hsend t.plaintext hafter
  have hturn : s.turn P t = [.encrypt t.party t.plaintext t.ad,
      .decrypt t.party.peer t.env m.encHeader m.ciphertext m.ad] := by
    rw [Session.turn, hres, ← hμ.ad]
    rfl
  rw [hturn] at hes hagrees ⊢
  obtain ⟨-, ⟨hauth, hfresh⟩, -⟩ := hes
  have hreach := h.reachable.step (e := .encrypt t.party t.plaintext t.ad) trivial
  have hpeer : Function.update σ.side t.party h' t.party.peer = σ.side t.party.peer :=
    Function.update_of_ne (Party.peer_ne _) _ _
  have harrival : Arrival b S (s.step P b (.encrypt t.party t.plaintext t.ad)) t.party.peer m
      ((σ.side t.party).nextMessage t.plaintext t.ad)
      (Function.update σ.side t.party h' t.party.peer) :=
    ⟨hP, hS, hreach.sync hP hS hafter, hreach.noncesUsed, hm, hμ, hauth,
      hex.side t.party.peer⟩
  obtain ⟨h'', hreceive, hex'⟩ :=
    hex.deliver harrival t.env ((hreach.step hauth).sync hP hS hagrees)
  have hpub := (hex.side t.party.peer).dhPub
  dsimp only at hreceive hpub
  rw [hpeer] at hreceive hpub
  refine ⟨_, h'', hreceive, fun heq => hfresh (heq.trans hpub), ?_, hreach.step hauth, _, hex'⟩
  simp only [Machine.trace, Session.reply, hres, Reply.answer]
  rfl

include hN

/-- Who has spoken last speaks again. -/
theorem Between.turn_same (hq : t.party = q) : ReturnsVerdict P b sk bob S s N n q t := by
  by_cases hn : n = 0
  · refine h.turn_fails hP hS hagrees (e := .invalidState) ?_
      (by rw [Turn.verdict, if_pos hq, if_pos hn])
    rw [hq, Side.send, if_pos (h.lockstep.started.mp hn)]
  by_cases had : maxAdSize < t.ad.length
  · refine h.turn_fails hP hS hagrees (e := .adTooLarge) ?_
      (by rw [Turn.verdict, if_pos hq, if_neg hn, if_pos had])
    rw [hq, Side.send, if_neg (mt h.lockstep.started.mpr hn), if_pos had]
  · have hsend := h.lockstep.send_same hN hn (not_lt.mp had)
    obtain ⟨o, h'', hreceive, -, htrace, hreach, sent, hex⟩ :=
      h.turn_delivers hP hS hes hagrees (hq ▸ hsend)
    rw [hq] at hreceive
    obtain ⟨rfl, hlock⟩ := h.lockstep.receive_same hN hn hreceive
    rw [ReturnsVerdict, htrace, Turn.verdict, if_pos hq, if_neg hn, if_neg had]
    refine ⟨rfl, _, hreach, hex, ?_⟩
    dsimp only
    rw [hq, Function.update_self, Function.update_of_ne (Party.peer_ne q).symm,
      Function.update_self]
    exact hlock

/-- The other one speaks. -/
theorem Between.turn_other (hq : t.party = q.peer) : ReturnsVerdict P b sk bob S s N n q t := by
  have hne : t.party ≠ q := by
    rw [hq]
    exact Party.peer_ne q
  by_cases had : maxAdSize < t.ad.length
  · refine h.turn_fails hP hS hagrees (e := .adTooLarge) ?_
      (by rw [Turn.verdict, if_neg hne, if_pos had])
    have hview : (σ.side q.peer).view ≠ 0 := by
      rw [h.lockstep.view]
      exact Nat.succ_ne_zero _
    rw [hq, Side.send, if_neg hview, if_pos had]
  · have hsend := h.lockstep.send_other hN (not_lt.mp had)
    obtain ⟨o, h'', hreceive, hpub, htrace, hreach, sent, hex⟩ :=
      h.turn_delivers hP hS hes hagrees (hq ▸ hsend)
    rw [hq, Party.peer_peer] at hreceive hpub
    obtain ⟨rfl, hlock⟩ := h.lockstep.receive_other hN hpub hreceive
    rw [ReturnsVerdict, htrace, Turn.verdict, if_neg hne, if_neg had]
    refine ⟨rfl, _, hreach, hex, ?_⟩
    dsimp only
    rw [hq, Party.peer_peer, Function.update_of_ne (Party.peer_ne q), Function.update_self,
      Function.update_self]
    exact hlock

/-- **One turn** returns its verdict, and leaves the sides in step. -/
theorem Between.turn : ReturnsVerdict P b sk bob S s N n q t := by
  rcases Party.eq_or_eq_peer q t.party with hq | hq
  · exact h.turn_same hP hS hN hes hagrees hq
  · exact h.turn_other hP hS hN hes hagrees hq

end Turns

/-- A conversation from there on. -/
theorem Between.conversation (hP : Correct P) (hS : S.KdfSeparates) {ts : List (Turn K)}
    (h : Between b sk bob S s N n q σ) (hN : N + ts.length + maxSkip.toNat < 2 ^ 32)
    (hes : Machine.Along (Session.step P b) (Undisturbed P b) s (s.conversation P b ts))
    (hagrees : Agrees S sk bob (Machine.run (Session.step P b) s (s.conversation P b ts))) :
    Machine.trace (Session.step P b) (fun s e => (s.reply P b e).answer) s
        (s.conversation P b ts) = verdicts q n ts ∧
      ∃ N' n' q' σ', Between b sk bob S
        (Machine.run (Session.step P b) s (s.conversation P b ts)) N' n' q' σ' := by
  induction ts generalizing s N n q σ with
  | nil => exact ⟨rfl, N, n, q, σ, h⟩
  | cons t ts ih =>
    rw [List.length_cons] at hN
    rw [Session.conversation, Machine.along_append] at hes
    rw [Session.conversation, Machine.run_append] at hagrees
    obtain ⟨htrace, σ', hnext⟩ := h.turn hP hS (by omega) hes.1 hagrees.of_run
    obtain ⟨hrest, hend⟩ := ih hnext (by omega) hes.2 hagrees
    rw [Session.conversation, Machine.trace_append, Machine.run_append, htrace, hrest, verdicts]
    exact ⟨rfl, hend⟩

/-- A session starts as if the responder had spoken last. -/
theorem Between.start {dhS : DhPrivateKey} {s₀ : Session K}
    (h₀ : Session.start P sk bob dhS = .ok s₀) (hagrees : Agrees S sk bob s₀) :
    Between b sk bob S s₀ 0 0 .responder
      (Exchange.start (P.x25519PublicKey bob) (P.x25519PublicKey dhS)) := by
  refine ⟨⟨dhS, s₀, [], h₀, trivial, rfl⟩, ExchangeOf.start h₀ hagrees,
    ⟨iff_of_true rfl rfl, rfl, rfl, rfl, rfl, ?_, ⟨rfl, rfl⟩, rfl, ?_, ?_, ?_⟩⟩
  · intro hview
    exact absurd hview (Nat.not_succ_le_zero 1)
  · intro x hx
    exact absurd hx (Finset.notMem_empty x)
  · intro x hx
    exact absurd hx (Finset.notMem_empty x)
  · exact ⟨le_refl _, le_refl _, le_refl _⟩

/-- **The replies of every conversation.**  Whoever speaks, whatever he says and with
whatever associated data, every turn returns its verdict: the responder cannot speak
first, associated data that is too long is refused and changes nothing, and every
other message arrives with its plaintext, until one party has sent more messages in a
row than the other one can track.  Nothing is stored in the end. -/
theorem conversation_exact (hP : Correct P) {dhS : DhPrivateKey} {s₀ : Session K}
    (h₀ : Session.start P sk bob dhS = .ok s₀) (ts : List (Turn K))
    (hS : ((Machine.run (Session.step P b) s₀ (s₀.conversation P b ts)).schedule P sk
      bob).KdfSeparates)
    (hts : ts.length + maxSkip.toNat < 2 ^ 32)
    (hes : Machine.Along (Session.step P b) (Undisturbed P b) s₀ (s₀.conversation P b ts)) :
    Machine.trace (Session.step P b) (fun s e => (s.reply P b e).answer) s₀
        (s₀.conversation P b ts) = verdicts .responder 0 ts ∧
      ∀ p, ((Machine.run (Session.step P b) s₀ (s₀.conversation P b ts)).state p).mkskipped.keys
        = [] := by
  obtain ⟨S, hS, hagrees⟩ : ∃ S : Schedule P, S.KdfSeparates ∧
      Agrees S sk bob (Machine.run (Session.step P b) s₀ (s₀.conversation P b ts)) :=
    ⟨_, hS, agrees_schedule sk bob _⟩
  have hstart : Between b sk bob S s₀ 0 0 .responder _ := Between.start h₀ hagrees.of_run
  obtain ⟨htrace, N, n, q, σ, hend⟩ := hstart.conversation hP hS (by omega) hes hagrees
  refine ⟨htrace, fun p => ?_⟩
  have hempty : (σ.side p).stored = ∅ := by
    rcases Party.eq_or_eq_peer q p with rfl | rfl
    · exact hend.lockstep.stored.1
    · exact hend.lockstep.stored.2
  have hkeys := (hend.exchange.side p).stored.image
  rw [hempty, Finset.image_empty, List.toFinset_eq_empty_iff] at hkeys
  exact hkeys

instance (b : Build) (s : Session K) : DecidablePred (Undisturbed P b s) := fun _ =>
  inferInstanceAs (Decidable (_ ∧ _))

open Symbolic in
/-- The responder tries to speak first; then the initiator sends two messages, the
responder two answers, and the initiator one. -/
theorem conversation_exact_two_rounds :
    Machine.trace (Session.step primitives .release)
      (fun s e => (s.reply primitives .release e).answer) session
      (session.conversation primitives .release
        [⟨.responder, [0x61], [], env 3⟩, ⟨.initiator, [0x62], [], env 3⟩,
          ⟨.initiator, [0x63], [0x01], env 4⟩, ⟨.responder, [0x64], [], env 5⟩,
          ⟨.responder, [], [], env 6⟩, ⟨.initiator, [0x65], [], env 7⟩])
      = [.sent (.err .invalidState), .sent (.ok ⟨⟩), .received (.ok [0x62]), .sent (.ok ⟨⟩),
          .received (.ok [0x63]), .sent (.ok ⟨⟩), .received (.ok [0x64]), .sent (.ok ⟨⟩),
          .received (.ok []), .sent (.ok ⟨⟩), .received (.ok [0x65])] :=
  (conversation_exact correct start _ (Schedule.kdfSeparates collisionFree) (by decide +kernel)
    (by decide +kernel)).1

end Ratchet
