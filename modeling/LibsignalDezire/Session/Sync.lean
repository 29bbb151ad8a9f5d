/-
The invariant that ties both states, and all messages sent, to one schedule.

With `m` chains started, the party that owns the last one has *view* `m` and
the other one view `m - 1`.  A state with view `v` is determined by the
schedule up to the numbers `ns` and `nr`: it holds the root key `v`, sends on
chain `v - 1`, receives on chain `v - 2`, and has the header keys of the chains
`v` and `v + 1` ready.

* `Synced S v st` — the state `st` has view `v` of the schedule `S`;
* `Sync S s` — both states are synced and every message sent is sealed under
  the keys of its chain and number;
* `Sync.update`, `Sync.addSent` — a state that is synced can take a party's place,
  and a message of a started chain can be added;
* `Sync.start`, `Sync.encrypt` — it holds at the start and `encrypt` keeps it.
-/
import LibsignalDezire.Session.Schedule
import LibsignalDezire.Session.Nonces

namespace Ratchet

variable {K : Type}

/-! ### Chains, parties and views -/

/-- The owner of chain `j`. -/
def partyOf (j : ℕ) : Party := if j % 2 = 0 then .initiator else .responder

theorem partyOf_add_two (j : ℕ) : partyOf (j + 2) = partyOf j := by
  rw [partyOf, partyOf, Nat.add_mod_right]

/-- The view of a party when `m` chains have been started. -/
def view : Party → ℕ → ℕ
  | .initiator, m => (m + 1) / 2 * 2 - 1
  | .responder, m => m / 2 * 2

/-- The peer's chains have the parity of the view. -/
theorem partyOf_eq_peer {p : Party} {m j : ℕ} (hm : 1 ≤ m) :
    partyOf j = p.peer ↔ (j + view p m) % 2 = 0 := by
  unfold partyOf
  cases p <;> by_cases hj : j % 2 = 0 <;> simp [hj, Party.peer, view] <;> omega

theorem partyOf_eq_self {p : Party} {m j : ℕ} (hm : 1 ≤ m) :
    partyOf j = p ↔ (j + view p m) % 2 = 1 := by
  unfold partyOf
  cases p <;> by_cases hj : j % 2 = 0 <;> simp [hj, view] <;> omega

theorem view_le (p : Party) (m : ℕ) : view p m ≤ m ∧ m ≤ view p m + 1 := by
  cases p <;> simp [view] <;> omega

/-- The views of the two parties differ by one. -/
theorem view_peer (p : Party) {m : ℕ} (hm : 1 ≤ m) :
    view p m = m ∧ view p.peer m + 1 = m ∨ view p m + 1 = m ∧ view p.peer m = m := by
  cases p <;> simp [view, Party.peer] <;> omega

/-- The owner of the last chain. -/
theorem view_eq_self {p : Party} {m : ℕ} (hm : 1 ≤ m) : view p m = m ↔ partyOf (m - 1) = p := by
  rw [partyOf_eq_self hm]
  have := view_le p m
  omega

/-- Starting a chain moves the view of its owner by two. -/
theorem view_succ {p : Party} {m : ℕ} (hm : 1 ≤ m) (h : view p m + 1 = m) :
    view p (m + 1) = view p m + 2 ∧ view p.peer (m + 1) = view p.peer m := by
  revert h
  cases p <;> simp [view, Party.peer] <;> omega

namespace Schedule

variable {P : Primitives K} (S : Schedule P)

/-- The header keys and chain keys that a state with view `v` sends and
receives with. -/
def sendHeaderKey : ℕ → Option K
  | 0 => none
  | w + 1 => some (S.headerKey w)

def recvHeaderKey : ℕ → Option K
  | w + 2 => some (S.headerKey w)
  | _ => none

def sendChainKey : ℕ → ℕ → Option K
  | 0, _ => none
  | w + 1, n => some (S.chainKey w n)

def recvChainKey : ℕ → ℕ → Option K
  | w + 2, n => some (S.chainKey w n)
  | _, _ => none

theorem sendHeaderKey_eq_some {v : ℕ} {hk : K} :
    S.sendHeaderKey v = some hk ↔ ∃ w, v = w + 1 ∧ hk = S.headerKey w := by
  cases v with
  | zero => simp [sendHeaderKey]
  | succ w => simp [sendHeaderKey, eq_comm]

theorem sendChainKey_eq_some {v n : ℕ} {ck : K} :
    S.sendChainKey v n = some ck ↔ ∃ w, v = w + 1 ∧ ck = S.chainKey w n := by
  cases v with
  | zero => simp [sendChainKey]
  | succ w => simp [sendChainKey, eq_comm]

theorem recvHeaderKey_eq_some {v : ℕ} {hk : K} :
    S.recvHeaderKey v = some hk ↔ ∃ w, v = w + 2 ∧ hk = S.headerKey w := by
  rcases v with _ | _ | w <;> simp [recvHeaderKey, eq_comm]

theorem recvChainKey_eq_some {v n : ℕ} {ck : K} :
    S.recvChainKey v n = some ck ↔ ∃ w, v = w + 2 ∧ ck = S.chainKey w n := by
  rcases v with _ | _ | w <;> simp [recvChainKey, eq_comm]

end Schedule

/-! ### The invariant -/

variable {P : Primitives K}

/-- A skipped key under `k` is the message key of its chain and number; the
chain is the peer's, and is or was being received. -/
def SkippedAt (S : Schedule P) (v : ℕ) (k : K × UInt32) (mk : K) : Prop :=
  ∃ j, j + 2 ≤ v ∧ (j + v) % 2 = 0 ∧ k.1 = S.headerKey j ∧ mk = S.msgKey j k.2.toNat

/-- The state `st` has view `v` of the schedule `S`. -/
structure Synced [DecidableEq K] (S : Schedule P) (v : ℕ) (st : RatchetState K) : Prop where
  le_length : v ≤ S.length
  dhPair : st.dhPair = (S.secret v, S.pub v)
  rk : st.rk = S.rootKey v
  nhkS : st.nhkS = S.headerKey (v + 1)
  nhkR : st.nhkR = S.headerKey v
  hkS : st.hkS = S.sendHeaderKey v
  hkR : st.hkR = S.recvHeaderKey v
  -- `encrypt` steps the chain before it finds that the numbers have run out
  ckS : ∃ x, st.ckS = S.sendChainKey v x ∧ st.ns.toNat ≤ x ∧
    (st.ns.toNat < 2 ^ 32 - 1 → x = st.ns.toNat)
  ckR : st.ckR = S.recvChainKey v st.nr.toNat
  skipped : ∀ k key, st.mkskipped.lookup k = some key → SkippedAt S v k key.mk

/-- The header key of the chain being received. -/
theorem Synced.hkR_eq [DecidableEq K] {S : Schedule P} {v j : ℕ} {st : RatchetState K}
    (h : Synced S v st) (hv : v = j + 2) : st.hkR = some (S.headerKey j) := by
  rw [h.hkR, hv]
  rfl

/-- The message `m` was sent on chain `j`. -/
structure SentAt (S : Schedule P) (m : Sealed K) (j : ℕ) : Prop where
  lt_length : j < S.length
  owner : m.owner = partyOf j
  headerKey : m.headerKey = some (S.headerKey j)
  messageKey : m.messageKey = some (S.msgKey j m.header.n.toNat)
  dhPub : m.header.dhPub = S.pub (j + 1)
  n_lt : m.header.n.toNat < 2 ^ 32 - 1
  ad_le : m.ad.length ≤ maxAdSize
  encHeader : ∃ nonce, nonce.length = 12 ∧
    m.encHeader = sealHeader P (S.headerKey j) nonce m.header
  ciphertext : m.ciphertext
    = sealMessage P (S.msgKey j m.header.n.toNat) m.plaintext (concatAd m.ad m.encHeader)

/-- Chain `j` of the schedule. -/
def Schedule.chain (S : Schedule P) (j : ℕ) : SendingChain K :=
  { owner := partyOf j, hk := S.headerKey j, ck := S.chainStart j, secret := S.secret (j + 1) }

/-- Both parties follow the schedule `S`. -/
structure Sync [DecidableEq K] (S : Schedule P) (s : Session K) : Prop where
  pos : 1 ≤ s.chains.length
  chains : ∀ j c, s.chains[j]? = some c → c = S.chain j
  state : ∀ p, Synced S (view p s.chains.length) (s.state p)
  sent : ∀ m ∈ s.sent, ∃ j < s.chains.length, SentAt S m j
  current : ∀ m ∈ s.sent, ∀ j, SentAt S m j → j + 1 = view m.owner s.chains.length →
    m.header.n.toNat < (s.state m.owner).ns.toNat
  distinct : ∀ m ∈ s.sent, ∀ m' ∈ s.sent, ∀ j, SentAt S m j → SentAt S m' j →
    m.header.n = m'.header.n → m = m'

/-- The schedule starts from `sk` and the responder's key, and its other secrets
are those drawn for the chains of the session. -/
structure Agrees (S : Schedule P) (sk : K) (bob : DhPrivateKey) (s : Session K) : Prop where
  le_length : s.chains.length ≤ S.length
  sk : S.sk = sk
  bob : S.secret 0 = bob
  secret : ∀ j c, s.chains[j]? = some c → S.secret (j + 1) = c.secret

/-- The schedule of a session. -/
def Session.schedule (P : Primitives K) (sk : K) (bob : DhPrivateKey) (s : Session K) :
    Schedule P where
  sk := sk
  secret
    | 0 => bob
    | j + 1 => (s.chains[j]?.map SendingChain.secret).getD bob
  length := s.chains.length

theorem agrees_schedule (sk : K) (bob : DhPrivateKey) (s : Session K) :
    Agrees (s.schedule P sk bob) sk bob s := by
  refine ⟨le_rfl, rfl, rfl, fun j c hc => ?_⟩
  simp [Session.schedule, hc]

section Basics

variable [DecidableEq K] {S : Schedule P} {s : Session K} {m m' : Sealed K} {i j : ℕ}

omit [DecidableEq K] in
theorem SentAt.le_length_succ (h : SentAt S m j) : j ≤ S.length + 1 :=
  Nat.le_succ_of_le h.lt_length.le

omit [DecidableEq K] in
/-- The header key tells the chain of a message. -/
theorem SentAt.headerKey_inj (hS : S.KdfSeparates) (hj : SentAt S m j) (hi : i ≤ S.length + 1)
    (h : S.headerKey i = S.headerKey j) : i = j :=
  Schedule.headerKey_inj hS hi hj.le_length_succ h

omit [DecidableEq K] in
/-- So does the message key, for a number within the range. -/
theorem SentAt.msgKey_inj (hS : S.KdfSeparates) (hj : SentAt S m j) (hi : i < S.length) {n : ℕ}
    (hn : n < 2 ^ 32) (h : S.msgKey i n = S.msgKey j m.header.n.toNat) :
    i = j ∧ n = m.header.n.toNat :=
  Schedule.msgKey_inj hS hi hj.lt_length hn m.header.n.toNat_lt h

omit [DecidableEq K] in
/-- A message belongs to one chain. -/
theorem SentAt.unique (hS : S.KdfSeparates) (hi : SentAt S m i) (hj : SentAt S m j) : i = j :=
  hj.headerKey_inj hS hi.le_length_succ
    (Option.some_inj.mp (hi.headerKey.symm.trans hj.headerKey))

omit [DecidableEq K] in
/-- An encrypted header determines the message and its chain. -/
theorem NoncesUsed.place_inj (h : NoncesUsed s) (hS : S.KdfSeparates) (hm : m ∈ s.sent)
    (hm' : m' ∈ s.sent) (heq : m.encHeader = m'.encHeader) (hi : SentAt S m i)
    (hj : SentAt S m' j) : m = m' ∧ i = j := by
  obtain rfl := h.encHeader_inj hm hm' heq
  exact ⟨rfl, hi.unique hS hj⟩

omit [DecidableEq K] in
/-- The header of a sent message opens under the header key of its chain. -/
theorem SentAt.opens (hP : Correct P) (h : SentAt S m j) :
    decryptHeaderWithKey P (S.headerKey j) m.encHeader = .ok m.header := by
  obtain ⟨nonce, hn, henc⟩ := h.encHeader
  rw [henc]
  exact decryptHeaderWithKey_seal hP hn _ _

omit [DecidableEq K] in
/-- The body of a sent message opens under its message key. -/
theorem SentAt.decrypts (hP : Correct P) (h : SentAt S m j) :
    decryptAead P (S.msgKey j m.header.n.toNat) m.ciphertext (concatAd m.ad m.encHeader)
      = .ok m.plaintext := by
  rw [h.ciphertext]
  exact decryptAead_encryptAead hP _ _ _

omit [DecidableEq K] in
theorem SentAt.length_encHeader (hP : Correct P) (h : SentAt S m j) :
    m.encHeader.length = 68 := by
  obtain ⟨nonce, hn, henc⟩ := h.encHeader
  rw [henc]
  exact length_sealHeader hP hn _ _

theorem Sync.length_lt (h : Sync S s) (hS : S.KdfSeparates) (hm : m ∈ s.sent)
    (hj : SentAt S m j) : j < s.chains.length := by
  obtain ⟨i, hi, hmi⟩ := h.sent m hm
  exact hj.unique hS hmi ▸ hi

theorem Sync.le_length (h : Sync S s) : s.chains.length ≤ S.length := by
  rcases view_peer .initiator h.pos with ⟨hv, -⟩ | ⟨-, hv⟩
  · exact hv ▸ (h.state .initiator).le_length
  · exact hv ▸ (h.state (Party.peer .initiator)).le_length

theorem Sync.getElem? (h : Sync S s) (hj : j < s.chains.length) :
    s.chains[j]? = some (S.chain j) := by
  have hget := List.getElem?_eq_getElem hj
  rw [hget, h.chains j _ hget]

end Basics

/-! ### The start -/

variable [DecidableEq K]

theorem Synced.initiator {S : Schedule P} {st : RatchetState K} (hlen : 1 ≤ S.length)
    (h : initSenderState P (S.secret 1) S.sk (S.pub 0) = .ok st) : Synced S 1 st := by
  cases h
  exact ⟨hlen, rfl, rfl, rfl, rfl, rfl, rfl, ⟨0, rfl, le_refl _, fun _ => rfl⟩, rfl,
    fun k key hk => by cases hk⟩

theorem Synced.responder (S : Schedule P) :
    Synced S 0 (initReceiverState P S.sk (S.secret 0, S.pub 0)) :=
  ⟨Nat.zero_le _, rfl, rfl, rfl, rfl, rfl, rfl, ⟨0, rfl, le_refl _, fun _ => rfl⟩, rfl,
    fun k key hk => by cases hk⟩

theorem Sync.start {sk : K} {bob dhS : DhPrivateKey} {s : Session K} {S : Schedule P}
    (h : Session.start P sk bob dhS = .ok s) (hS : Agrees S sk bob s) : Sync S s := by
  obtain ⟨hlength, rfl, rfl, hsecret⟩ := hS
  obtain ⟨initiator, hinit, hs⟩ := Outcome.bind_eq_ok.mp h
  cases hs
  have hchains : sendingChain .initiator initiator = [S.chain 0] := by
    cases hinit
    obtain rfl : S.secret 1 = dhS := hsecret 0 _ rfl
    rfl
  have hlen : (sendingChain .initiator initiator).length = 1 := by rw [hchains]; rfl
  obtain rfl : S.secret 1 = dhS := by
    cases hinit
    exact hsecret 0 _ rfl
  refine ⟨hlen.ge, fun j c hc => ?_, fun p => ?_, by simp, by simp, by simp⟩
  · dsimp only at hc
    rw [hchains] at hc
    cases j with
    | zero => exact (Option.some_inj.mp hc).symm
    | succ j => cases hc
  · dsimp only
    rw [hlen]
    cases p with
    | initiator =>
      rw [show view .initiator 1 = 1 by decide]
      exact Synced.initiator (hlen ▸ hlength) hinit
    | responder =>
      rw [show view .responder 1 = 0 by decide]
      exact Synced.responder S

/-! ### Encryption -/

/-- A step of the sending chain. -/
theorem Synced.encrypt {S : Schedule P} {v : ℕ} {st : RatchetState K} (h : Synced S v st)
    {ck : K} (hck : st.ckS = some ck) {ns : UInt32} (c : UInt64)
    (hns : ns.toNat = st.ns.toNat + 1 ∨ st.ns.toNat = 2 ^ 32 - 1 ∧ ns = st.ns) :
    Synced S v { st with ckS := some (kdfCk P ck).1, ns := ns, headerNonceCounter := c } := by
  obtain ⟨x, hx, hle, heq⟩ := h.ckS
  obtain ⟨w, rfl, rfl⟩ := S.sendChainKey_eq_some.mp (hx.symm.trans hck)
  have hckS : some (kdfCk P (S.chainKey w x)).1 = S.sendChainKey (w + 1) (x + 1) :=
    congrArg some (S.chainKey_succ w x).symm
  refine ⟨h.le_length, h.dhPair, h.rk, h.nhkS, h.nhkR, h.hkS, h.hkR, ⟨x + 1, hckS, ?_, ?_⟩,
    h.ckR, h.skipped⟩
  · dsimp only
    rcases hns with hns | ⟨-, rfl⟩
    · omega
    · omega
  · dsimp only
    intro hlt
    rcases hns with hns | ⟨hmax, rfl⟩
    · rw [hns, heq (by omega)]
    · omega

/-- A change of one party's state that does not lower its sending number. -/
theorem Sync.update {S : Schedule P} {s : Session K} {p : Party} (h : Sync S s)
    {st : RatchetState K} (hst : Synced S (view p s.chains.length) st)
    (hns : (s.state p).ns.toNat ≤ st.ns.toNat) {s' : Session K}
    (hstate : s'.state = Function.update s.state p st) (hsent : s'.sent = s.sent)
    (hchains : s'.chains = s.chains) : Sync S s' := by
  refine ⟨?_, ?_, fun q => ?_, ?_, fun m hm j hj hcur => ?_, ?_⟩
  · rw [hchains]
    exact h.pos
  · rw [hchains]
    exact h.chains
  · rw [hchains, hstate]
    by_cases hq : q = p
    · subst hq
      rwa [Function.update_self]
    · rw [Function.update_of_ne hq]
      exact h.state q
  · rw [hsent, hchains]
    exact h.sent
  · rw [hsent] at hm
    rw [hchains] at hcur
    have hlt := h.current m hm j hj hcur
    rw [hstate]
    by_cases hq : m.owner = p
    · rw [hq] at hlt ⊢
      rw [Function.update_self]
      omega
    · rwa [Function.update_of_ne hq]
  · rw [hsent]
    exact h.distinct

/-- A new message of a chain that has been started, with a number of its own. -/
theorem Sync.addSent {S : Schedule P} {s : Session K} (hS : S.KdfSeparates) (h : Sync S s)
    {m : Sealed K} {j : ℕ} (hat : SentAt S m j) (hj : j < s.chains.length)
    (hcur : j + 1 = view m.owner s.chains.length →
      m.header.n.toNat < (s.state m.owner).ns.toNat)
    (hnew : ∀ m' ∈ s.sent, SentAt S m' j → m'.header.n ≠ m.header.n) :
    Sync S { s with sent := m :: s.sent } := by
  refine ⟨h.pos, h.chains, h.state, fun m' hm' => ?_, fun m' hm' i hi hcur' => ?_,
    fun m₁ hm₁ m₂ hm₂ i h₁ h₂ hn => ?_⟩
  · rcases List.mem_cons.mp hm' with rfl | hm'
    · exact ⟨j, hj, hat⟩
    · exact h.sent m' hm'
  · rcases List.mem_cons.mp hm' with rfl | hm'
    · obtain rfl := hi.unique hS hat
      exact hcur hcur'
    · exact h.current m' hm' i hi hcur'
  · rw [List.mem_cons] at hm₁ hm₂
    rcases hm₁ with rfl | hm₁ <;> rcases hm₂ with rfl | hm₂
    · rfl
    · obtain rfl := h₁.unique hS hat
      exact absurd hn.symm (hnew m₂ hm₂ h₂)
    · obtain rfl := h₂.unique hS hat
      exact absurd hn (hnew m₁ hm₁ h₁)
    · exact h.distinct m₁ hm₁ m₂ hm₂ i h₁ h₂ hn

variable (P) in
/-- The record of the message that `encrypt` returns next. -/
def Session.nextSent (s : Session K) (p : Party) (hk ck : K) (plaintext ad : Bytes) :
    Sealed K where
  owner := p
  headerKey := (s.state p).hkS
  messageKey := (s.state p).ckS.map fun ck => (kdfCk P ck).2
  header := nextHeader (s.state p)
  plaintext := plaintext
  ad := ad
  encHeader := nextEncHeader P (s.state p) hk
  ciphertext := nextCiphertext P (s.state p) hk ck plaintext ad

section Encrypt

variable {S : Schedule P} {s : Session K} (h : Sync S s) {p : Party} {hk ck : K}
  (hck : (s.state p).ckS = some ck) (hhk : (s.state p).hkS = some hk)
  (hns : (s.state p).ns.toNat < 2 ^ 32 - 1) {plaintext ad : Bytes}

include h hck hhk hns

/-- It is sent on the chain before the view. -/
theorem Sync.nextSent_sentAt (had : ad.length ≤ maxAdSize) : ∃ w,
    view p s.chains.length = w + 1 ∧ SentAt S (s.nextSent P p hk ck plaintext ad) w := by
  have hp := h.state p
  obtain ⟨x, hx, -, heq⟩ := hp.ckS
  have hxN := heq (by omega)
  subst hxN
  obtain ⟨w, hv, rfl⟩ := S.sendChainKey_eq_some.mp (hx.symm.trans hck)
  obtain ⟨w', hv', rfl⟩ := S.sendHeaderKey_eq_some.mp (hp.hkS.symm.trans hhk)
  obtain rfl : w' = w := by omega
  have hview := view_le p s.chains.length
  refine ⟨w', hv, ?_, ?_, hhk, ?_, ?_, ?_, had, ⟨_, length_headerNonce _ _, rfl⟩, rfl⟩
  · rw [Nat.lt_iff_add_one_le, ← hv]
    exact hp.le_length
  · exact ((partyOf_eq_self (p := p) h.pos).mpr (by omega)).symm
  · dsimp only [Session.nextSent]
    rw [hck]
    rfl
  · dsimp only [Session.nextSent, nextHeader]
    rw [hp.dhPair, hv]
  · dsimp only [Session.nextSent, nextHeader]
    omega

/-- A message on record leaves both parties in step. -/
theorem Sync.encrypt_sent (hS : S.KdfSeparates) (had : ad.length ≤ maxAdSize) {ns : UInt32}
    (hnsN : ns.toNat = (s.state p).ns.toNat + 1) (c : UInt64) :
    Sync S { s with
      state := Function.update s.state p { s.state p with
        ckS := some (kdfCk P ck).1, ns, headerNonceCounter := c }
      sent := s.nextSent P p hk ck plaintext ad :: s.sent } := by
  obtain ⟨w, hv, hat⟩ : ∃ w, view p s.chains.length = w + 1 ∧
      SentAt S (s.nextSent P p hk ck plaintext ad) w := h.nextSent_sentAt hck hhk hns had
  have hview := view_le p s.chains.length
  have hsync : Sync S { s with
      state := Function.update s.state p { s.state p with
        ckS := some (kdfCk P ck).1, ns, headerNonceCounter := c } } :=
    h.update ((h.state p).encrypt hck c (.inl hnsN)) (by dsimp only; omega) rfl rfl rfl
  refine hsync.addSent hS hat (by dsimp only; omega) (fun _ => ?_) (fun m' hm' hat' hn => ?_)
  · dsimp only [Session.nextSent, nextHeader]
    rw [Function.update_self]
    dsimp only
    omega
  · -- a message already sent on this chain has a smaller number
    have howner : m'.owner = p := hat'.owner.trans hat.owner.symm
    have hlt := h.current m' hm' w hat' (by rw [howner, hv])
    rw [howner, hn] at hlt
    exact absurd hlt (lt_irrefl _)

end Encrypt

/-- **`encrypt` keeps both parties in step**, whether it returns a message or
fails. -/
theorem Sync.encrypt {S : Schedule P} {s : Session K} (hS : S.KdfSeparates)
    (h : Sync S s) (p : Party) (plaintext ad : Bytes) :
    Sync S (s.encrypt P p plaintext ad) := by
  have hp := h.state p
  -- a failed call leaves the messages alone and steps at most the sending chain
  have hfail : ∀ {st : RatchetState K}, Synced S (view p s.chains.length) st →
      (s.state p).ns.toNat ≤ st.ns.toNat →
      s.encrypt P p plaintext ad = { s with state := Function.update s.state p st } →
      Sync S (s.encrypt P p plaintext ad) := by
    intro st hst hns heq
    rw [heq]
    exact h.update hst hns rfl rfl rfl
  rcases encrypt_cases P (s.state p) plaintext ad with
    ⟨-, hres⟩ | ⟨-, -, hres⟩ | ⟨ck, hk, hck, hhk, -, had, ⟨hns, hres⟩ | ⟨ns, hns, ⟨-, hres⟩ |
      ⟨c, -, hres⟩⟩⟩
  · exact hfail hp (le_refl _) (by simp [Session.encrypt, hres])
  · exact hfail hp (le_refl _) (by simp [Session.encrypt, hres])
  · have hmax := checkedAdd32_one_eq_none.mp hns
    exact hfail (hp.encrypt hck (s.state p).headerNonceCounter (.inr ⟨hmax, rfl⟩)) (le_refl _)
      (by simp only [Session.encrypt, hres])
  · have hnsN := checkedAdd32_one_eq_some.mp hns
    have hle : (s.state p).ns.toNat ≤ ns.toNat := by omega
    exact hfail (hp.encrypt hck (s.state p).headerNonceCounter (.inl hnsN)) hle
      (by simp only [Session.encrypt, hres])
  · have hnsN := checkedAdd32_one_eq_some.mp hns
    have hnsLt := ns.toNat_lt
    have hafter : s.encrypt P p plaintext ad = { s with
        state := Function.update s.state p { s.state p with
          ckS := some (kdfCk P ck).1, ns, headerNonceCounter := c }
        sent := s.nextSent P p hk ck plaintext ad :: s.sent } := by
      simp only [Session.encrypt, hres, Session.nextSent]
    rw [hafter]
    exact h.encrypt_sent hck hhk (by omega) hS had hnsN c

end Ratchet
