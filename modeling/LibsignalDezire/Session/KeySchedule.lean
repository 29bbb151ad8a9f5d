/-
The key schedules of the two parties stay synchronised.

* `KeysInStep` — chains are started in turns, and chain keys and skipped keys
  are those of the recorded chains, at the numbers the state counts;
* `FirstAccepted` — the first message a party accepts of the peer's current chain
  makes its receiving keys those that the peer sends with;
* `key_schedule_synchronised` — both hold in every run in which no call ran out
  of numbers.
-/
import LibsignalDezire.Session.Agreement

namespace Ratchet

variable {K : Type} [DecidableEq K] (P : Primitives K)

/-- The call does not run out of message numbers or nonces. -/
def NoOverflow (b : Build) (s : Session K) : Event K → Prop
  | .encrypt p plaintext ad =>
    (encrypt P plaintext ad (s.state p)).1 ≠ .err .counterOverflow
  | .decrypt p env encHeader ciphertext ad =>
    (decrypt P b env encHeader ciphertext ad (s.state p)).1 ≠ .err .counterOverflow

instance (b : Build) (s : Session K) : DecidablePred (NoOverflow P b s)
  | .encrypt p plaintext ad =>
    inferInstanceAs (Decidable ((encrypt P plaintext ad (s.state p)).1 ≠ .err .counterOverflow))
  | .decrypt p env encHeader ciphertext ad =>
    inferInstanceAs (Decidable
      ((decrypt P b env encHeader ciphertext ad (s.state p)).1 ≠ .err .counterOverflow))

/-- The number of sending chains a party has started. -/
def Session.started (s : Session K) (p : Party) : ℕ := s.chains.countP fun c => c.owner = p

/-- The keys of both states are those of the chains on record. -/
structure KeysInStep (s : Session K) : Prop where
  started : s.started .initiator = s.started .responder ∨
    s.started .initiator = s.started .responder + 1
  last : ∃ c, s.chains.getLast? = some c ∧ (s.state c.owner).hkS = some c.hk ∧
    (s.state c.owner.peer).nhkR = c.hk
  sending : ∀ p ck, (s.state p).ckS = some ck → ∃ c ∈ s.chains, c.owner = p ∧
    (s.state p).hkS = some c.hk ∧ ck = advance P c.ck (s.state p).ns.toNat
  receiving : ∀ p ck, (s.state p).ckR = some ck → ∃ c ∈ s.chains, c.owner = p.peer ∧
    (s.state p).hkR = some c.hk ∧ ck = advance P c.ck (s.state p).nr.toNat
  skipped : ∀ p k key, (s.state p).mkskipped.lookup k = some key → ∃ c ∈ s.chains,
    c.owner = p.peer ∧ c.hk = k.1 ∧ key.mk = messageKey P c.ck k.2.toNat

/-- Accepting `m`, the first message that `p` accepts of the peer's current chain,
turns the DH ratchet: the receiving keys of `p` become the peer's sending keys,
and the root key after the first of the two derivations is the peer's. -/
def FirstAccepted (b : Build) (s : Session K) : Prop :=
  ∀ p env m q st, m ∈ s.sent → m.owner = p.peer → m.headerKey = (s.state p.peer).hkS →
    (∀ o ∈ s.opened, o.party = p → ∀ m' ∈ s.sent, m'.encHeader = o.encHeader →
      m'.headerKey ≠ m.headerKey) →
    AuthenticCall P b s p m.encHeader m.ciphertext m.ad →
    decrypt P b env m.encHeader m.ciphertext m.ad (s.state p) = (.ok q, st) →
    st.hkR = (s.state p.peer).hkS ∧ st.nhkR = (s.state p.peer).nhkS ∧
      ∃ rk ck nhk, kdfRkHe P (s.state p).rk
          (P.x25519DiffieHellman (s.state p).dhPair.1 m.header.dhPub) = .ok (rk, ck, nhk) ∧
        rk = (s.state p.peer).rk ∧
        st.rk = P.hkdfSha512 rk (P.x25519DiffieHellman env.freshSecret m.header.dhPub)
          hkdfInfoRoot 0

variable {P} {b : Build} {s : Session K} {S : Schedule P}

/-! ### Exact counting -/

/-- Every sending chain key is the one of the next number. -/
def ExactNumbers (S : Schedule P) (s : Session K) : Prop :=
  ∀ p, (s.state p).ckS = S.sendChainKey (view p s.chains.length) (s.state p).ns.toNat

/-- Below the last number a synced state counts exactly. -/
theorem Sync.exact_of_lt (h : Sync S s) {p : Party} (hlt : (s.state p).ns.toNat < 2 ^ 32 - 1) :
    (s.state p).ckS = S.sendChainKey (view p s.chains.length) (s.state p).ns.toNat := by
  obtain ⟨x, hx, -, heq⟩ := (h.state p).ckS
  rw [hx, heq hlt]

/-- `decrypt` leaves the sending side alone or starts counting anew. -/
theorem Receives.sending {p : Party} {env : CallEnv K} {encHeader ciphertext ad : Bytes}
    {r : Outcome RatchetError Bytes × RatchetState K}
    (h : Receives P S b s p env encHeader ciphertext ad r) :
    (r.2.ckS = (s.state p).ckS ∧ r.2.ns = (s.state p).ns ∧ r.2.rk = (s.state p).rk) ∨
      r.2.ns = 0 := by
  rcases h.sameSending_or_ratchet with hsend | ⟨m, -, -, -, mkskipped, rfl⟩
  · exact .inl ⟨hsend.ckS, hsend.ns, hsend.rk⟩
  · exact .inr rfl

theorem ExactNumbers.encrypt (hS : S.KdfSeparates) (h : Sync S s) (hex : ExactNumbers S s)
    {p : Party} {plaintext ad : Bytes} (hno : NoOverflow P b s (.encrypt p plaintext ad)) :
    ExactNumbers S (s.encrypt P p plaintext ad) := by
  have hafter := h.encrypt hS p plaintext ad
  have hchains := (Session.encrypt_frame (P := P) s p plaintext ad).2.2.1
  have hstep : ∀ {ck : K} {ns : UInt32}, (s.state p).ckS = some ck →
      ns.toNat = (s.state p).ns.toNat + 1 →
      some (kdfCk P ck).1 = S.sendChainKey (view p s.chains.length) ns.toNat := by
    intro ck ns hck hns
    obtain ⟨w, hv, rfl⟩ := S.sendChainKey_eq_some.mp ((hex p).symm.trans hck)
    rw [hv, hns, Schedule.sendChainKey, S.chainKey_succ]
  intro q
  rw [hchains]
  by_cases hq : q = p
  · subst hq
    rcases encrypt_cases P (s.state q) plaintext ad with
      ⟨-, hres⟩ | ⟨-, -, hres⟩ | ⟨ck, hk, hck, -, -, -, ⟨-, hres⟩ |
        ⟨ns, hns, ⟨-, hres⟩ | ⟨c, -, hres⟩⟩⟩
    · simp only [Session.encrypt, hres, Function.update_self]
      exact hex q
    · simp only [Session.encrypt, hres, Function.update_self]
      exact hex q
    · exact absurd (congrArg Prod.fst hres) hno
    · simp only [Session.encrypt, hres, Function.update_self]
      exact hstep hck (checkedAdd32_one_eq_some.mp hns)
    · simp only [Session.encrypt, hres, Function.update_self]
      exact hstep hck (checkedAdd32_one_eq_some.mp hns)
  · have hother : (s.encrypt P p plaintext ad).state q = s.state q := by
      unfold Session.encrypt
      split <;> exact Function.update_of_ne hq _ _
    rw [hother]
    exact hex q

theorem ExactNumbers.decrypt (hP : Correct P) (hS : S.KdfSeparates) (h : Sync S s)
    (hex : ExactNumbers S s) {p : Party} {env : CallEnv K} {encHeader ciphertext ad : Bytes}
    (hauth : AuthenticCall P b s p encHeader ciphertext ad)
    (hafter : Sync S (s.decrypt P b p env encHeader ciphertext ad)) :
    ExactNumbers S (s.decrypt P b p env encHeader ciphertext ad) := by
  have hsend := (receives env hP hS h hauth).sending
  obtain ⟨o, st, hres⟩ : ∃ o st, Ratchet.decrypt P b env encHeader ciphertext ad (s.state p)
      = (o, st) := ⟨_, _, rfl⟩
  rw [hres] at hsend
  intro q
  by_cases hq : q = p
  · subst hq
    have hst := Session.decrypt_state_self hres
    rcases hsend with ⟨hck, hns, hrk⟩ | hns
    · rw [h.view_eq_of_rk hS hafter (hst ▸ hrk), hst, hck, hns]
      exact hex q
    · refine hafter.exact_of_lt ?_
      rw [hst, hns]
      decide
  · rw [h.view_decrypt_of_ne hS hafter hq, Session.decrypt_state_of_ne hq]
    exact hex q

theorem Reachable.exactNumbers (hP : Correct P) {sk : K} {bob : DhPrivateKey}
    (hS : S.KdfSeparates)
    (h : Reachable P b sk bob (fun s e => Authentic P b s e ∧ NoOverflow P b s e) s)
    (hagrees : Agrees S sk bob s) : ExactNumbers S s := by
  refine h.sync_invariant hP hS (fun s e he => he.1) (fun dhS s₀ h₀ hs p => ?_)
    (fun s e _ hs hs' ih he => ?_) hagrees
  · refine hs.exact_of_lt ?_
    rw [(Session.start_fresh h₀).ns p]
    decide
  · cases e with
    | encrypt p plaintext ad => exact ih.encrypt hS hs he.2
    | decrypt p env encHeader ciphertext ad => exact ih.decrypt hP hS hs he.1 hs'

/-! ### The chain being received has been opened -/

/-- Whoever receives on chain `w` has accepted a message of it. -/
def OpenedChain (S : Schedule P) (s : Session K) : Prop :=
  ∀ p w, view p s.chains.length = w + 2 → ∃ o ∈ s.opened, o.party = p ∧
    ∃ m ∈ s.sent, SentAt S m w ∧ m.encHeader = o.encHeader

omit [DecidableEq K] in
theorem OpenedChain.encrypt (h : OpenedChain S s) (p : Party) (plaintext ad : Bytes) :
    OpenedChain S (s.encrypt P p plaintext ad) := by
  obtain ⟨-, hopened, hchains, hsent⟩ := Session.encrypt_frame (P := P) s p plaintext ad
  intro q w hv
  rw [hchains] at hv
  obtain ⟨o, ho, hparty, m, hm, hat, henc⟩ := h q w hv
  refine ⟨o, by rwa [hopened], hparty, m, ?_, hat, henc⟩
  rcases hsent with hsent | ⟨m', hsent, -⟩
  · rwa [hsent]
  · rw [hsent]
    exact List.mem_cons_of_mem _ hm

theorem OpenedChain.decrypt (hP : Correct P) (hS : S.KdfSeparates) (h : Sync S s)
    (hopen : OpenedChain S s) {p : Party} {env : CallEnv K} {encHeader ciphertext ad : Bytes}
    (hauth : AuthenticCall P b s p encHeader ciphertext ad)
    (hafter : Sync S (s.decrypt P b p env encHeader ciphertext ad)) :
    OpenedChain S (s.decrypt P b p env encHeader ciphertext ad) := by
  have hrec := receives env hP hS h hauth
  -- a party whose root key is unchanged has opened its chain before
  have hsame : ∀ {q w}, ((s.decrypt P b p env encHeader ciphertext ad).state q).rk
      = (s.state q).rk →
      view q (s.decrypt P b p env encHeader ciphertext ad).chains.length = w + 2 →
      ∃ o ∈ (s.decrypt P b p env encHeader ciphertext ad).opened, o.party = q ∧
        ∃ m ∈ s.sent, SentAt S m w ∧ m.encHeader = o.encHeader := by
    intro q w hrk hv
    rw [h.view_eq_of_rk hS hafter hrk] at hv
    obtain ⟨o, ho, hrest⟩ := hopen q w hv
    exact ⟨o, Session.step_opened_subset s (.decrypt p env encHeader ciphertext ad) ho, hrest⟩
  intro q w hv
  by_cases hq : q = p
  · subst hq
    generalize hres : Ratchet.decrypt P b env encHeader ciphertext ad (s.state q) = r at hrec
    have hst := Session.decrypt_state_self hres
    rcases hrec.sameSending_or_ratchet with hsend | ⟨m, hm, hat, his, mkskipped, rfl⟩
    · exact hsame (by rw [hst, hsend.rk]) hv
    · have hview := h.view_of_ratchet hS hafter (p := q) (by rw [hst]; rfl)
      obtain rfl : view q s.chains.length = w := by omega
      refine ⟨{ party := q, encHeader, ciphertext, ad, plaintext := m.plaintext }, ?_, rfl,
        m, hm, hat, his.encHeader⟩
      rw [Session.decrypt_opened hres]
      exact List.mem_cons_self
  · exact hsame (by rw [Session.decrypt_state_of_ne hq]) hv

theorem Reachable.openedChain (hP : Correct P) {sk : K} {bob : DhPrivateKey}
    (hS : S.KdfSeparates) (h : Reachable P b sk bob (Authentic P b) s)
    (hagrees : Agrees S sk bob s) : OpenedChain S s := by
  refine h.sync_invariant hP hS (fun s e he => he) (fun dhS s₀ h₀ hs p w hv => ?_)
    (fun s e _ hs hs' ih he => ?_) hagrees
  · have hview := view_le p s₀.chains.length
    have hlen := (Session.start_fresh h₀).chains
    omega
  · cases e with
    | encrypt p plaintext ad => exact ih.encrypt p plaintext ad
    | decrypt p env encHeader ciphertext ad => exact ih.decrypt hP hS hs he hs'

/-! ### The main result -/

theorem Sync.mem_chains (h : Sync S s) {j : ℕ} (hj : j < s.chains.length) :
    S.chain j ∈ s.chains :=
  List.mem_of_getElem? (h.getElem? hj)

theorem Sync.chains_eq (h : Sync S s) :
    s.chains = (List.range s.chains.length).map S.chain := by
  refine List.ext_getElem? fun j => ?_
  by_cases hj : j < s.chains.length
  · rw [h.getElem? hj, List.getElem?_map, List.getElem?_range hj]
    rfl
  · rw [List.getElem?_eq_none (not_lt.mp hj), List.getElem?_eq_none (by simpa using hj)]

omit [DecidableEq K] in
/-- Chains are started in turns, by the initiator first. -/
theorem countP_chain (S : Schedule P) (m : ℕ) :
    ((List.range m).map S.chain).countP (fun c => c.owner = .initiator) = (m + 1) / 2 ∧
      ((List.range m).map S.chain).countP (fun c => c.owner = .responder) = m / 2 := by
  induction m with
  | zero => exact ⟨rfl, rfl⟩
  | succ m ih =>
    rw [List.range_succ, List.map_append, List.countP_append, List.countP_append, ih.1, ih.2]
    by_cases hm : m % 2 = 0 <;>
      simp [Schedule.chain, partyOf, hm] <;> omega

theorem Sync.keysInStep (h : Sync S s) (hex : ExactNumbers S s) : KeysInStep P s := by
  have hview := fun p => view_le p s.chains.length
  refine ⟨?_, ?_, fun p ck hck => ?_, fun p ck hck => ?_, fun p k key hk => ?_⟩
  · have hcount := countP_chain S s.chains.length
    rw [← h.chains_eq] at hcount
    simp only [Session.started, hcount.1, hcount.2]
    omega
  · have hpos := h.pos
    have hlast : view (partyOf (s.chains.length - 1)) s.chains.length = s.chains.length :=
      (view_eq_self h.pos).mpr rfl
    have hlen : s.chains.length = s.chains.length - 1 + 1 := by omega
    refine ⟨S.chain (s.chains.length - 1), ?_, ?_, ?_⟩
    · rw [List.getLast?_eq_getElem?]
      exact h.getElem? (by omega)
    · rw [(h.state _).hkS]
      dsimp only [Schedule.chain]
      rw [hlast]
      conv_lhs => rw [hlen]
      rfl
    · rw [(h.state _).nhkR]
      dsimp only [Schedule.chain]
      congr 1
      have := view_peer (partyOf (s.chains.length - 1)) h.pos
      omega
  · obtain ⟨w, hv, rfl⟩ := S.sendChainKey_eq_some.mp ((hex p).symm.trans hck)
    have := hview p
    refine ⟨S.chain w, h.mem_chains (by omega), (partyOf_eq_self h.pos).mpr (by omega), ?_, rfl⟩
    rw [(h.state p).hkS, hv]
    rfl
  · obtain ⟨w, hv, rfl⟩ := S.recvChainKey_eq_some.mp ((h.state p).ckR.symm.trans hck)
    have := hview p
    exact ⟨S.chain w, h.mem_chains (by omega), (partyOf_eq_peer h.pos).mpr (by omega),
      (h.state p).hkR_eq hv, rfl⟩
  · obtain ⟨j, hj, hpar, hk1, hkey⟩ := (h.state p).skipped k key hk
    have := hview p
    exact ⟨S.chain j, h.mem_chains (by omega), (partyOf_eq_peer h.pos).mpr hpar, hk1.symm, hkey⟩

theorem Sync.firstAccepted (hP : Correct P) (hS : S.KdfSeparates) (h : Sync S s)
    (hnonces : NoncesUsed s) (hopen : OpenedChain S s) : FirstAccepted P b s := by
  intro p env m q st hm howner hhk hfirst hauth hres
  obtain ⟨j, -, hat⟩ := h.sent m hm
  -- the message is of the peer's current chain `j`
  have hj : view p.peer s.chains.length = j + 1 := by
    have hkey := (h.state p.peer).hkS.symm.trans (hhk.symm.trans hat.headerKey)
    obtain ⟨w, hv, heq⟩ := S.sendHeaderKey_eq_some.mp hkey
    have hlen := (h.state p.peer).le_length
    rw [hv, hat.headerKey_inj hS (by omega) heq.symm]
  have hnot : view p s.chains.length ≠ j + 2 := by
    intro hv
    obtain ⟨o, ho, hparty, m', hm', hat', henc⟩ := hopen p j hv
    exact hfirst o ho hparty m' hm' henc (hat'.headerKey.trans hat.headerKey.symm)
  have hviews := view_peer p h.pos
  have hrec := receives env hP hS h hauth
  generalize Ratchet.decrypt P b env m.encHeader m.ciphertext m.ad (s.state p) = r at hrec hres
  -- the message determines its chain, and that is not the one being received
  have hsame : ∀ {m' j'}, m' ∈ s.sent → m'.Is m.encHeader m.ciphertext m.ad → SentAt S m' j' →
      m' = m ∧ j' = j :=
    fun hm' his hat' => hnonces.place_inj hS hm' hm his.encHeader hat' hat
  cases hrec with
  | refused ho => exact absurd (congrArg Prod.fst hres) (ho q)
  | skipped hm' hat' his hle =>
    obtain ⟨rfl, rfl⟩ := hsame hm' his hat'
    omega
  | current hm' hat' his haccept hv =>
    obtain ⟨rfl, rfl⟩ := hsame hm' his hat'
    exact absurd hv.symm hnot
  | lost => cases hres
  | @ratchet m' mk₁ mk₂ hm' hat' his =>
    obtain ⟨rfl, rfl⟩ := hsame hm' his hat'
    cases hres
    have hp := h.state p
    have hpeer := h.state p.peer
    rw [hj] at hpeer
    have hdh : P.x25519DiffieHellman (s.state p).dhPair.1 m'.header.dhPub
        = S.dhValue (view p s.chains.length) := by
      rw [hp.dhPair, hat.dhPub]
      exact S.dhValue_comm hP _
    refine ⟨?_, ?_, _, _, _, kdfRkHe_eq P _ _, ?_, rfl⟩
    · rw [hpeer.hkS]
      exact congrArg some hp.nhkR
    · rw [hpeer.nhkS]
      dsimp only [ratcheted]
      rw [hp.rk, hdh]
      rfl
    · rw [hpeer.rk, hp.rk, hdh]
      rfl

/-- **Two-party key-schedule synchronisation.**  In every run over an arbitrary
network in which no call returned `counterOverflow`, the keys of both parties
are in step, and the first accepted message of the peer's current chain carries the
peer's header keys and root key over. -/
theorem key_schedule_synchronised (hP : Correct P) {sk : K} {bob : DhPrivateKey}
    (hS : (s.schedule P sk bob).KdfSeparates)
    (h : Reachable P b sk bob (fun s e => Authentic P b s e ∧ NoOverflow P b s e) s) :
    KeysInStep P s ∧ FirstAccepted P b s := by
  have hagrees := agrees_schedule (P := P) sk bob s
  have hauth : Reachable P b sk bob (Authentic P b) s := h.mono fun s e he => he.1
  have hsync := hauth.sync hP hS hagrees
  exact ⟨hsync.keysInStep (h.exactNumbers hP hS hagrees),
    hsync.firstAccepted hP hS h.noncesUsed (hauth.openedChain hP hS hagrees)⟩

open Symbolic in
/-- The schedules after three messages, of which the last has arrived. -/
theorem key_schedule_synchronised_after_gap :
    KeysInStep primitives (after (threeSent ++ [receive 2])) ∧
      FirstAccepted primitives .release (after (threeSent ++ [receive 2])) :=
  key_schedule_synchronised correct (Schedule.kdfSeparates collisionFree)
    (reachable_after (by decide +kernel))

end Ratchet
