/-
The session refines the exchange without keys.

A state of a party is abstracted to a side: its keys are forgotten, and a stored
key becomes its chain and number.  With ideal authenticated encryption the code then
does what the exchange says, and for a message that was really sent it returns
exactly what the exchange returns, errors included.

* `SideOf`, `ExchangeOf` — the abstraction;
* `Arrival.explains` — **`decrypt` of a message that was sent** does what the exchange
  allows;
* `session_refines_exchange` — **every run of a session is a run of the exchange**.
-/
import LibsignalDezire.Lib.Simulation
import LibsignalDezire.Ratchet.Presence
import LibsignalDezire.Session.Delivery
import LibsignalDezire.Session.Exchange
import LibsignalDezire.Session.Record

namespace Ratchet

variable {K : Type} [DecidableEq K] {P : Primitives K} {b : Build} {S : Schedule P}
  {s : Session K} {v : ℕ} {st : RatchetState K} {h : Side} {σ : Exchange} {p : Party}

/-! ### The abstraction -/

/-- The map key of a stored message. -/
def Schedule.mapKey (S : Schedule P) (k : ℕ × UInt32) : K × UInt32 := (S.headerKey k.1, k.2)

/-- The map keys `keys` are those of the chains and numbers `stored`. -/
structure KeysOf (S : Schedule P) (keys : Finset (K × UInt32)) (stored : Finset (ℕ × UInt32)) :
    Prop where
  image : keys = stored.image S.mapKey
  lt_length : ∀ k ∈ stored, k.1 < S.length

/-- The side `h` is the state `st` with its keys forgotten. -/
structure SideOf (S : Schedule P) (v : ℕ) (st : RatchetState K) (h : Side) : Prop where
  view : h.view = v
  dhPub : h.dhPub = st.dhPair.2
  ns : h.ns = st.ns
  nr : h.nr = st.nr
  pn : h.pn = st.pn
  headerNonceCounter : h.headerNonceCounter = st.headerNonceCounter
  stored : KeysOf S st.mkskipped.keys.toFinset h.stored
  received : h.received = st.receivedMessages
  paired : Paired st

/-- The message `μ` is `m` with its keys forgotten. -/
structure MessageOf (S : Schedule P) (m : Sealed K) (μ : Message) : Prop where
  sentAt : SentAt S m μ.chain
  header : μ.header = m.header
  plaintext : μ.plaintext = m.plaintext
  ad : μ.ad = m.ad

structure ExchangeOf (S : Schedule P) (s : Session K) (σ : Exchange) : Prop where
  side : ∀ p, SideOf S (view p s.chains.length) (s.state p) (σ.side p)
  sent : List.Forall₂ (MessageOf S) s.sent σ.sent

variable (P) in
/-- What an event of the session is for the exchange: a delivery is that of the message
it delivers, if it is one. -/
def Session.eventOf (s : Session K) : Event K → Exchange.Event
  | .encrypt p plaintext ad => .send p plaintext ad
  | .decrypt p env encHeader ciphertext ad =>
    match s.sent.reverse.findIdx? fun m =>
        decide (m.encHeader = encHeader ∧ m.ciphertext = ciphertext ∧ m.ad = ad) with
    | some i => .deliver p (P.x25519PublicKey env.freshSecret) i
    | none => .forge p

/-- What a reply is for the exchange: the bytes of a message do not count. -/
def Reply.answer : Reply → Exchange.Answer
  | .message (.ok _) => .sent (.ok ⟨⟩)
  | .message (.err e) => .sent (.err e)
  | .message .panic => .sent .panic
  | .plaintext result => .received result

/-! ### Stored keys -/

section Stored

variable {keys : Finset (K × UInt32)} {stored : Finset (ℕ × UInt32)} {j : ℕ}

theorem KeysOf.empty : KeysOf S ∅ ∅ :=
  ⟨rfl, fun _ hk => absurd hk (Finset.notMem_empty _)⟩

theorem KeysOf.insert (hkeys : KeysOf S keys stored) (hj : j < S.length) (n : UInt32) :
    KeysOf S (insert (S.headerKey j, n) keys) (insert (j, n) stored) := by
  refine ⟨?_, fun k hk => ?_⟩
  · rw [Finset.image_insert, ← hkeys.image]
    rfl
  · rcases Finset.mem_insert.mp hk with rfl | hk
    · exact hj
    · exact hkeys.lt_length k hk

/-- Some of the keys belong to some of the chains and numbers. -/
theorem KeysOf.subset (hkeys : KeysOf S keys stored) {kept : Finset (K × UInt32)}
    (hkept : kept ⊆ keys) : ∃ kept' ⊆ stored, KeysOf S kept kept' := by
  rw [hkeys.image] at hkept
  obtain ⟨kept', hkept', rfl⟩ := Finset.subset_image_iff.mp hkept
  exact ⟨kept', hkept', rfl, fun k hk => hkeys.lt_length k (hkept' hk)⟩

variable (hS : S.KdfSeparates)

include hS

omit [DecidableEq K] in
theorem Schedule.mapKey_inj {k k' : ℕ × UInt32} (hk : k.1 < S.length) (hk' : k'.1 < S.length)
    (h : S.mapKey k = S.mapKey k') : k = k' := by
  obtain ⟨hchain, hn⟩ := Prod.mk.inj h
  exact Prod.ext (Schedule.headerKey_inj hS (Nat.le_succ_of_le hk.le) (Nat.le_succ_of_le hk'.le)
    hchain) hn

theorem KeysOf.mem_iff (hkeys : KeysOf S keys stored) (hj : j < S.length) {n : UInt32} :
    (j, n) ∈ stored ↔ (S.headerKey j, n) ∈ keys := by
  rw [hkeys.image, Finset.mem_image]
  constructor
  · exact fun hk => ⟨_, hk, rfl⟩
  · rintro ⟨k, hk, heq⟩
    obtain rfl : k = (j, n) := Schedule.mapKey_inj hS (hkeys.lt_length k hk) hj heq
    exact hk

theorem KeysOf.card_eq (hkeys : KeysOf S keys stored) : keys.card = stored.card := by
  rw [hkeys.image]
  exact Finset.card_image_of_injOn fun k hk k' hk' =>
    Schedule.mapKey_inj hS (hkeys.lt_length k hk) (hkeys.lt_length k' hk')

theorem KeysOf.erase (hkeys : KeysOf S keys stored) (hj : j < S.length) (n : UInt32) :
    KeysOf S (keys.erase (S.headerKey j, n)) (stored.erase (j, n)) := by
  refine ⟨?_, fun k hk => hkeys.lt_length k (Finset.mem_of_mem_erase hk)⟩
  ext k
  rw [Finset.mem_erase, hkeys.image, Finset.mem_image, Finset.mem_image]
  constructor
  · rintro ⟨hne, k', hk', rfl⟩
    exact ⟨k', Finset.mem_erase.mpr ⟨fun heq => hne (congrArg S.mapKey heq), hk'⟩, rfl⟩
  · rintro ⟨k', hk', rfl⟩
    obtain ⟨hne, hk'⟩ := Finset.mem_erase.mp hk'
    exact ⟨fun heq => hne (Schedule.mapKey_inj hS (hkeys.lt_length k' hk') hj heq), k', hk', rfl⟩

theorem SideOf.mem_stored (hside : SideOf S v st h) (hj : j < S.length) {n : UInt32} :
    (j, n) ∈ h.stored ↔ (S.headerKey j, n) ∈ st.mkskipped := by
  rw [AList.mem_keys, ← List.mem_toFinset]
  exact hside.stored.mem_iff hS hj

/-- Storing the numbers of a chain, with the keys forgotten. -/
theorem StoresKeys.forget {a n : ℕ} {new : Finset (K × UInt32)}
    (h : StoresKeys (S.headerKey j) a n keys new) (hj : j < S.length)
    (hkeys : KeysOf S keys stored) :
    ∃ stored', StoresKeys j a n stored stored' ∧ KeysOf S new stored' := by
  -- the forgotten set is full exactly when the map is
  induction h generalizing stored with
  | done a keys => exact ⟨stored, .done a stored, hkeys⟩
  | room hroom _ ih =>
    rw [hkeys.card_eq hS] at hroom
    obtain ⟨stored', hstored, hnew⟩ := ih (hkeys.insert hj _)
    exact ⟨stored', .room hroom hstored, hnew⟩
  | full hfull hkept hcard _ ih =>
    rw [hkeys.card_eq hS] at hfull
    obtain ⟨kept', hkept', hkeys'⟩ := hkeys.subset hkept
    rw [hkeys'.card_eq hS] at hcard
    obtain ⟨stored', hstored, hnew⟩ := ih (hkeys'.insert hj _)
    exact ⟨stored', .full hfull hkept' hcard hstored, hnew⟩

theorem StoresPrevious.forget (hside : SideOf S v st h) (hlen : v ≤ S.length) {pn : UInt32}
    {new : SkippedKeyMap K}
    (hprev : StoresPrevious S v st.nr.toNat pn.toNat st.mkskipped new) :
    ∃ stored, h.StoredPrevious pn stored ∧ KeysOf S new.keys.toFinset stored := by
  rcases hprev with ⟨hv, rfl⟩ | ⟨w, rfl, hle, hlimit, hstores⟩
  · exact ⟨h.stored, .inl ⟨by rw [hside.view]; exact hv, rfl⟩, hside.stored⟩
  · obtain ⟨stored, hstored, hkeys⟩ := hstores.keys.forget hS (by omega) hside.stored
    rw [← hside.nr] at hle hlimit hstored
    have hview : h.view - 2 = w := by rw [hside.view, Nat.add_sub_cancel]
    exact ⟨stored, .inr ⟨by rw [hside.view]; omega, hle, hlimit, hview ▸ hstored⟩, hkeys⟩

end Stored

/-! ### Sending -/

/-- `encrypt`, seen from the side. -/
theorem SideOf.send (hside : SideOf S v st h) (hsync : Synced S v st) (plaintext ad : Bytes) :
    ∃ h', h.send ad = ((Ratchet.encrypt P plaintext ad st).1.bind fun _ => .ok ⟨⟩, h') ∧
      SideOf S v (Ratchet.encrypt P plaintext ad st).2 h' := by
  have hpaired : Paired (Ratchet.encrypt P plaintext ad st).2 :=
    hside.paired.step (b := .release) (.encrypt plaintext ad)
  have hcan : CanSend st ↔ h.view ≠ 0 := by
    obtain ⟨x, hx, -⟩ := hsync.ckS
    rw [hside.view]
    constructor
    · rintro hsend rfl
      rw [CanSend, hx] at hsend
      cases hsend.1
    · intro hv
      refine hside.paired.sending.resolve_right fun hnone => ?_
      obtain ⟨w, rfl⟩ := Nat.exists_eq_succ_of_ne_zero hv
      rw [hnone.2.1] at hx
      cases hx
  rcases encrypt_cases P st plaintext ad with
    ⟨hno, hres⟩ | ⟨hsend, had, hres⟩ | ⟨ck, hk, hck, hhk, hrem, had, hcases⟩
  · refine ⟨h, ?_, hres ▸ hside⟩
    rw [Side.send, if_pos (not_not.mp (mt hcan.mpr hno)), hres]
    rfl
  · refine ⟨h, ?_, hres ▸ hside⟩
    rw [Side.send, if_neg (hcan.mp hsend), if_pos had, hres]
    rfl
  · have hsend : h.view ≠ 0 := hcan.mp ⟨by rw [hck]; rfl, by rw [hhk]; rfl, hrem⟩
    rw [Side.send, if_neg hsend, if_neg (not_lt.mpr had)]
    rcases hcases with ⟨hns, hres⟩ | ⟨ns, hns, ⟨hc, hres⟩ | ⟨c, hc, hres⟩⟩
    · rw [← hside.ns] at hns
      rw [hres] at hpaired ⊢
      refine ⟨h, by rw [hns]; rfl, ?_⟩
      exact ⟨hside.view, hside.dhPub, hside.ns, hside.nr, hside.pn, hside.headerNonceCounter,
        hside.stored, hside.received, hpaired⟩
    · rw [← hside.ns] at hns
      rw [← hside.headerNonceCounter] at hc
      rw [hres] at hpaired ⊢
      refine ⟨{ h with ns }, by rw [hns]; simp only [hc]; rfl, ?_⟩
      exact ⟨hside.view, hside.dhPub, rfl, hside.nr, hside.pn, hside.headerNonceCounter,
        hside.stored, hside.received, hpaired⟩
    · rw [← hside.ns] at hns
      rw [← hside.headerNonceCounter] at hc
      rw [hres] at hpaired ⊢
      refine ⟨{ h with ns, headerNonceCounter := c }, by rw [hns]; simp only [hc]; rfl, ?_⟩
      exact ⟨hside.view, hside.dhPub, rfl, hside.nr, hside.pn, rfl, hside.stored, hside.received,
        hpaired⟩

/-! ### Receiving -/

theorem SideOf.at_view (hside : SideOf S v st h) : SideOf S h.view st h :=
  hside.view.symm ▸ hside

/-- The state after an answer from the stored keys. -/
theorem SideOf.erase (hS : S.KdfSeparates) (hside : SideOf S v st h) {j : ℕ} (hj : j < S.length)
    (n : UInt32) :
    SideOf S v { st with mkskipped := st.mkskipped.erase (S.headerKey j, n) }
      { h with stored := h.stored.erase (j, n) } := by
  refine ⟨hside.view, hside.dhPub, hside.ns, hside.nr, hside.pn, hside.headerNonceCounter, ?_,
    hside.received, ⟨hside.paired.receiving, hside.paired.sending⟩⟩
  have hkeys : (st.mkskipped.erase (S.headerKey j, n)).keys.toFinset
      = st.mkskipped.keys.toFinset.erase (S.headerKey j, n) := by
    ext k
    rw [List.mem_toFinset, ← AList.mem_keys, AList.mem_erase, Finset.mem_erase,
      List.mem_toFinset, ← AList.mem_keys]
  dsimp only
  rw [hkeys]
  exact hside.stored.erase hS hj n

/-- The message `m`, which is `μ` for the exchange, arrives unchanged at party `p`,
which is the side `h`. -/
structure Arrival (b : Build) (S : Schedule P) (s : Session K) (p : Party) (m : Sealed K)
    (μ : Message) (h : Side) : Prop where
  correct : Correct P
  separates : S.KdfSeparates
  sync : Sync S s
  noncesUsed : NoncesUsed s
  mem : m ∈ s.sent
  message : MessageOf S m μ
  authentic : AuthenticCall P b s p m.encHeader m.ciphertext m.ad
  side : SideOf S (view p s.chains.length) (s.state p) h

/-- The result of the call is one that the exchange allows. -/
def Explains (S : Schedule P) (b : Build) (s : Session K) (p : Party) (env : CallEnv K)
    (μ : Message) (h : Side) (r : Outcome RatchetError Bytes × RatchetState K) : Prop :=
  ∃ h', h.Receive b (P.x25519PublicKey env.freshSecret) μ r.1 h' ∧ SideOf S h'.view r.2 h' ∧
    MovesView S (view p s.chains.length) h'.view (s.state p) r.2

namespace Arrival

variable {m : Sealed K} {μ : Message} (a : Arrival b S s p m μ h) (env : CallEnv K)

include a

/-- A call that changes nothing. -/
theorem idle {o : Outcome RatchetError Bytes}
    (hreceive : h.Receive b (P.x25519PublicKey env.freshSecret) μ o h) :
    Explains S b s p env μ h (o, s.state p) :=
  ⟨h, hreceive, a.side.at_view, .inl ⟨a.side.view, rfl⟩⟩

theorem mem_stored :
    (μ.chain, μ.header.n) ∈ h.stored ↔ (S.headerKey μ.chain, m.header.n)
      ∈ (s.state p).mkskipped := by
  rw [a.side.mem_stored a.separates a.message.sentAt.lt_length, a.message.header]

theorem mem_received : (μ.header.dhPub, μ.header.n) ∈ h.received ↔
    (m.header.dhPub, m.header.n) ∈ (s.state p).receivedMessages := by
  rw [a.side.received, a.message.header]

/-- A message whose key is stored. -/
theorem of_stored (hk : (μ.chain, μ.header.n) ∈ h.stored) :
    Explains S b s p env μ h (decrypt P b env m.encHeader m.ciphertext m.ad (s.state p)) := by
  have hrec := receives env a.correct a.separates a.sync a.authentic
  obtain ⟨key, hkey, hopens⟩ := (a.sync.state p).opens_stored a.correct a.separates
    a.message.sentAt (a.mem_stored.mp hk)
  generalize decrypt P b env m.encHeader m.ciphertext m.ad (s.state p) = r at hrec
  cases hrec with
  | refused _ hno => exact absurd hopens (hno a.message.sentAt.ad_le _ _ _ hkey)
  | current _ _ _ haccept => exact absurd hopens (haccept.not_skipped _ _ _ hkey)
  | lost _ _ _ haccept => exact absurd hopens (haccept.not_skipped _ _ _ hkey)
  | ratchet _ _ _ haccept => exact absurd hopens (haccept.not_skipped _ _ _ hkey)
  | skipped hm' hat his =>
    obtain ⟨rfl, rfl⟩ :=
      a.noncesUsed.place_inj a.separates hm' a.mem his.encHeader hat a.message.sentAt
    have hreceive : h.Receive b (P.x25519PublicKey env.freshSecret) μ _ _ := .stored hk
    rw [a.message.plaintext] at hreceive
    refine ⟨_, hreceive, ?_, .inl ⟨a.side.view, rfl⟩⟩
    dsimp only
    rw [a.message.header]
    exact (a.side.erase a.separates a.message.sentAt.lt_length _).at_view

section NotStored

variable (hk : (μ.chain, μ.header.n) ∉ h.stored)

include hk

/-- No stored key opens a message whose key is not stored. -/
theorem not_opens (k : K × UInt32) (key : SkippedKey K) (q : Bytes)
    (hkey : (s.state p).mkskipped.lookup k = some key) :
    ¬ Opens P k key m.encHeader m.ciphertext (concatAd m.ad m.encHeader) q :=
  not_opens_of_not_stored a.correct a.separates a.sync a.noncesUsed a.mem a.authentic
    a.message.sentAt (mt a.mem_stored.mpr hk) k key q hkey

/-- A message of a chain that is neither received nor next. -/
theorem of_unknown (hcur : μ.chain + 2 ≠ h.view) (hnext : μ.chain ≠ h.view) :
    Explains S b s p env μ h (decrypt P b env m.encHeader m.ciphertext m.ad (s.state p)) := by
  rw [decrypt_of_not_skipped P a.message.sentAt.ad_le (a.not_opens hk)]
  cases hhdr : decryptHeader P (s.state p) m.encHeader with
  | panic => exact absurd hhdr (decryptHeader_returns P _ _)
  | err e =>
    rw [decryptHeader_eq_err hhdr]
    exact a.idle env (.unknown hk hcur hnext)
  | ok hf =>
    obtain ⟨header, f⟩ := hf
    obtain ⟨m', hm', j, hat, henc, -, hfalse, htrue⟩ :=
      decryptHeader_agrees a.correct a.separates a.sync a.authentic hhdr
    obtain ⟨-, rfl⟩ :=
      a.noncesUsed.place_inj a.separates hm' a.mem henc hat a.message.sentAt
    rw [a.side.view] at hcur hnext
    cases f with
    | false => exact absurd (hfalse rfl) hcur
    | true => exact absurd (htrue rfl) hnext

/-- A message whose header opens, but which is tracked. -/
theorem of_duplicate {f : Bool}
    (hhdr : decryptHeader P (s.state p) m.encHeader = .ok (m.header, f))
    (hchain : μ.chain + 2 = h.view ∨ μ.chain = h.view)
    (hdup : (μ.header.dhPub, μ.header.n) ∈ h.received) :
    Explains S b s p env μ h (decrypt P b env m.encHeader m.ciphertext m.ad (s.state p)) := by
  rw [decrypt_of_not_skipped P a.message.sentAt.ad_le (a.not_opens hk), hhdr]
  simp only [if_pos (a.mem_received.mp hdup)]
  exact a.idle env (.duplicate hk hchain hdup)

/-- What the code does with a message whose header opens and which is not tracked. -/
theorem decrypt_eq {f : Bool}
    (hhdr : decryptHeader P (s.state p) m.encHeader = .ok (m.header, f))
    (hnew : (μ.header.dhPub, μ.header.n) ∉ h.received) :
    decrypt P b env m.encHeader m.ciphertext m.ad (s.state p) =
      match computeMessageKey P b (s.state p) m.header f >>= fun mk =>
          decryptAead P mk m.ciphertext (concatAd m.ad m.encHeader) with
      | .ok q => trackMessage m.header q (commitStateChanges P env m.header f (s.state p))
      | .err e => (.err e, s.state p)
      | .panic => (.panic, s.state p) := by
  rw [decrypt_of_not_skipped P a.message.sentAt.ad_le (a.not_opens hk), hhdr]
  exact if_neg (mt a.mem_received.mpr hnew)

end NotStored

/-! #### The chain being received -/

section Current

variable (hcur : h.Current μ)

include hcur

theorem chain_eq : μ.chain + 2 = view p s.chains.length := hcur.chain.trans a.side.view

theorem header_current : decryptHeader P (s.state p) m.encHeader = .ok (m.header, false) :=
  decryptHeader_current a.correct a.sync a.message.sentAt (a.chain_eq hcur)

/-- A `dev` build aborts when the sum of the limit test does not fit. -/
theorem of_overflow (hadd : (b.add h.nr maxSkip : Outcome RatchetError UInt32) = .panic) :
    Explains S b s p env μ h (decrypt P b env m.encHeader m.ciphertext m.ad (s.state p)) := by
  have hadd' := hadd
  rw [a.side.nr] at hadd'
  rw [a.decrypt_eq env hcur.not_stored (a.header_current hcur) hcur.not_received,
    computeMessageKey_eq, recvNumber_false, hadd']
  exact a.idle env (.overflow hcur hadd)

variable {limit : UInt32}
  (hadd : (b.add h.nr maxSkip : Outcome RatchetError UInt32) = .ok limit)

include hadd

/-- A number beyond the limit. -/
theorem of_beyond (hlt : limit < μ.header.n) :
    Explains S b s p env μ h (decrypt P b env m.encHeader m.ciphertext m.ad (s.state p)) := by
  have hadd' := hadd
  have hlt' := hlt
  rw [a.side.nr] at hadd'
  rw [a.message.header] at hlt'
  rw [a.decrypt_eq env hcur.not_stored (a.header_current hcur) hcur.not_received,
    computeMessageKey_eq, recvNumber_false, hadd']
  simp only [Outcome.ok_bind, if_pos hlt', Outcome.err_bind]
  exact a.idle env (.beyond hcur hadd hlt)

variable (hle : μ.header.n ≤ limit)

include hle

/-- The key computed for a number within the limit. -/
theorem messageKey_current : computeMessageKey P b (s.state p) m.header false
    = .ok (messageKey P (S.chainKey μ.chain h.nr.toNat) (m.header.n.toNat - h.nr.toNat)) := by
  rw [a.side.nr] at hadd
  rw [a.message.header] at hle
  have hck : recvChain P (s.state p) m.header false
      = some (S.chainKey μ.chain (s.state p).nr.toNat) := by
    rw [recvChain_false, (a.sync.state p).ckR, ← a.chain_eq hcur]
    rfl
  rw [computeMessageKey_eq, recvNumber_false, hadd, hck, a.side.nr]
  simp only [Outcome.ok_bind, if_neg (UInt32.not_lt.mpr hle), Outcome.okOr_some]

/-- A number that the chain has passed: the key of the next number does not open
it. -/
theorem of_passed (hlt : μ.header.n < h.nr) :
    Explains S b s p env μ h (decrypt P b env m.encHeader m.ciphertext m.ad (s.state p)) := by
  have hkey := a.messageKey_current hcur hadd hle
  rw [a.decrypt_eq env hcur.not_stored (a.header_current hcur) hcur.not_received, hkey,
    Outcome.ok_bind]
  cases haead : decryptAead P (messageKey P (S.chainKey μ.chain h.nr.toNat)
      (m.header.n.toNat - h.nr.toNat)) m.ciphertext (concatAd m.ad m.encHeader) with
  | panic => exact absurd haead (decryptAead_returns P _ _ _)
  | err e =>
    rw [decryptAead_eq_err haead]
    exact a.idle env (.passed hcur hadd hle hlt)
  | ok q =>
    have haccept : Authenticates P b (s.state p) m.encHeader m.ciphertext m.ad
      m.header false q :=
      ⟨a.message.sentAt.ad_le, a.not_opens hcur.not_stored, a.header_current hcur,
        mt a.mem_received.mpr hcur.not_received, _, hkey, haead⟩
    obtain ⟨-, -, -, -, -, -, -, -, -, -, hnr, -⟩ :=
      chain_agrees a.correct a.separates a.sync a.authentic haccept
    rw [recvNumber_false, ← a.side.nr, ← a.message.header] at hnr
    exact absurd (UInt32.lt_iff_toNat_lt.mp hlt) (not_lt.mpr hnr)

/-- A number within reach: the message is accepted, if it can be tracked. -/
theorem of_reached (hge : h.nr ≤ μ.header.n) :
    Explains S b s p env μ h (decrypt P b env m.encHeader m.ciphertext m.ad (s.state p)) := by
  have hgeN := UInt32.le_iff_toNat_le.mp hge
  have hleN := UInt32.le_iff_toNat_le.mp hle
  have hmax : maxSkip.toNat = 1000 := rfl
  -- the sum has not wrapped around, since the limit is at least the next number
  have hsum : h.nr.toNat + maxSkip.toNat < 2 ^ 32 := by
    by_contra hover
    have hlimit : limit.toNat = (h.nr.toNat + maxSkip.toNat) % 2 ^ 32 := by
      rw [Build.add_eq_ok hadd, UInt32.toNat_add]
    have hnr := h.nr.toNat_lt
    omega
  have hlimit : limit.toNat = h.nr.toNat + maxSkip.toNat := by
    rw [Build.add_eq_ok hadd, toNat_add_of_lt hsum]
  have hnext : (h.nr + 1).toNat = h.nr.toNat + 1 := by
    have hone : (1 : UInt32).toNat = 1 := rfl
    rw [toNat_add_of_lt (by omega), hone]
  obtain ⟨mkskipped, nr, hstores, hnr, hres⟩ :=
    (receives env a.correct a.separates a.sync a.authentic).of_current a.correct
      a.separates a.sync a.noncesUsed a.mem a.authentic a.message.sentAt (a.chain_eq hcur)
      (mt a.mem_stored.mpr hcur.not_stored) (mt a.mem_received.mpr hcur.not_received)
      (by rw [← a.side.nr, ← a.message.header]; exact hgeN)
      (by rw [← a.side.nr]; exact hsum) (by rw [← a.side.nr, ← a.message.header]; omega)
  rw [← a.side.nr] at hstores hnr
  obtain rfl : nr = h.nr + 1 := UInt32.toNat_inj.mp (hnr.trans hnext.symm)
  obtain ⟨stored, hstored, hkeys⟩ :=
    hstores.keys.forget a.separates a.message.sentAt.lt_length a.side.stored
  rw [← a.message.header] at hstored
  have hpaired : ∀ received, Paired { s.state p with
      mkskipped, ckR := some (S.chainKey μ.chain (h.nr + 1).toNat), nr := h.nr + 1
      receivedMessages := received } := by
    intro received
    have hhk := (a.sync.state p).hkR_eq (a.chain_eq hcur).symm
    exact ⟨by rw [hhk]; exact Iff.rfl, a.side.paired.sending⟩
  have hside : ∀ {received received'}, received = received' → SideOf S h.view { s.state p with
      mkskipped, ckR := some (S.chainKey μ.chain (h.nr + 1).toNat), nr := h.nr + 1
      receivedMessages := received' } { h with stored, nr := h.nr + 1, received } := by
    intro received received' heq
    exact ⟨rfl, a.side.dhPub, a.side.ns, rfl, a.side.pn, a.side.headerNonceCounter, hkeys, heq,
      hpaired received'⟩
  rw [hres, trackMessage]
  by_cases hfull : maxReceivedTracking ≤ h.received.card
  · rw [if_pos (by rw [← a.side.received]; exact hfull)]
    exact ⟨_, .full hcur hadd hle hge hstored hfull, hside a.side.received,
      .inl ⟨a.side.view, rfl⟩⟩
  · rw [if_neg (by rw [← a.side.received]; exact hfull)]
    have hreceive : h.Receive b (P.x25519PublicKey env.freshSecret) μ _ _ :=
      .accepted hcur hadd hle hge hstored (not_le.mp hfull)
    rw [a.message.plaintext] at hreceive
    refine ⟨_, hreceive, hside ?_, .inl ⟨a.side.view, rfl⟩⟩
    rw [a.side.received, a.message.header]

omit hadd hle in
/-- What becomes of a message of the chain being received that is not tracked. -/
theorem of_current :
    Explains S b s p env μ h (decrypt P b env m.encHeader m.ciphertext m.ad (s.state p)) := by
  cases hadd : (b.add h.nr maxSkip : Outcome RatchetError UInt32) with
  | panic => exact a.of_overflow env hcur hadd
  | err e =>
    unfold Build.add at hadd
    split at hadd
    · cases hadd
    · cases b <;> cases hadd
  | ok limit =>
    by_cases hlt : limit < μ.header.n
    · exact a.of_beyond env hcur hadd hlt
    · have hle := UInt32.not_lt.mp hlt
      by_cases hge : h.nr ≤ μ.header.n
      · exact a.of_reached env hcur hadd hle hge
      · exact a.of_passed env hcur hadd hle (UInt32.not_le.mp hge)

end Current

/-! #### The next chain -/

section Next

variable (hnext : h.Next μ)

include hnext

theorem sentAt_next : SentAt S m (view p s.chains.length) :=
  hnext.chain.trans a.side.view ▸ a.message.sentAt

theorem header_next : decryptHeader P (s.state p) m.encHeader = .ok (m.header, true) :=
  decryptHeader_next a.correct a.separates a.sync a.noncesUsed a.mem a.authentic
    (a.sentAt_next hnext)

theorem of_nextBeyond (hlt : maxSkip < μ.header.n) :
    Explains S b s p env μ h (decrypt P b env m.encHeader m.ciphertext m.ad (s.state p)) := by
  have hzero : (recvNumber (s.state p) true).toNat = 0 := rfl
  have hlimit : (recvNumber (s.state p) true).toNat + maxSkip.toNat < m.header.n.toNat := by
    rw [hzero, Nat.zero_add, ← a.message.header]
    exact UInt32.lt_iff_toNat_lt.mp hlt
  rw [decrypt_of_limit (a.not_opens hnext.not_stored) a.message.sentAt.ad_le
    (a.header_next hnext) (mt a.mem_received.mpr hnext.not_received) hlimit]
  exact a.idle env (.nextBeyond hnext hlt)

variable (hle : μ.header.n ≤ maxSkip)

include hle

/-- The first message of the chain authenticates. -/
theorem authenticates : Authenticates P b (s.state p) m.encHeader m.ciphertext m.ad m.header true
    m.plaintext :=
  authenticates_next a.correct a.separates a.sync a.noncesUsed a.mem a.authentic
    (a.sentAt_next hnext) (mt a.mem_received.mpr hnext.not_received)
    (by rw [← a.message.header]; exact UInt32.le_iff_toNat_le.mp hle)

/-- What is left of the chain being received cannot be stored. -/
theorem of_lost (hview : 2 ≤ h.view) (hout : μ.header.pn.toNat < h.nr.toNat ∨
    h.nr.toNat + maxSkip.toNat < μ.header.pn.toNat) :
    Explains S b s p env μ h (decrypt P b env m.encHeader m.ciphertext m.ad (s.state p)) := by
  obtain ⟨key, hkey, hopens⟩ := (a.authenticates hnext hle).opens
  rw [a.decrypt_eq env hnext.not_stored (a.header_next hnext) hnext.not_received, hkey,
    Outcome.ok_bind, hopens]
  rw [a.side.view] at hview
  obtain ⟨w, hw⟩ : ∃ w, view p s.chains.length = w + 2 := ⟨_, (Nat.sub_add_cancel hview).symm⟩
  have hck : (s.state p).ckR = some (S.chainKey w (s.state p).nr.toNat) := by
    rw [(a.sync.state p).ckR, hw]
    rfl
  have hhk := (a.sync.state p).hkR_eq hw
  have hskip : skipMessageKeys P env.hashOrder (env.clock 0) (s.state p).mkskipped
      (S.chainKey w (s.state p).nr.toNat) (S.headerKey w) (s.state p).nr m.header.pn
        = .err (if μ.header.pn < h.nr then .invalidHeader else .oldMessageKeysLimitReached) := by
    rw [a.message.header, a.side.nr] at hout
    rw [a.message.header, a.side.nr]
    by_cases hlt : m.header.pn < (s.state p).nr
    · rw [if_pos hlt, skipMessageKeys_of_lt P _ _ _ _ _ (UInt32.lt_iff_toNat_lt.mp hlt)]
    · rw [if_neg hlt, skipMessageKeys_of_limit P _ _ _ _ _ (hout.resolve_left fun hlt' =>
        hlt (UInt32.lt_iff_toNat_lt.mpr hlt'))]
  have hcommit : trackMessage m.header m.plaintext
      (commitStateChanges P env m.header true (s.state p))
        = (.err (if μ.header.pn < h.nr then .invalidHeader else .oldMessageKeysLimitReached),
          { s.state p with mkskipped := ∅ }) := by
    rw [commitStateChanges_true, storeSkipped_some P env 0 m.header.pn hck hhk, hskip]
    rfl
  have hreceive : h.Receive b (P.x25519PublicKey env.freshSecret) μ _ _ :=
    .lost hnext hle (by rw [a.side.view]; exact hview) hout
  dsimp only
  rw [hcommit]
  exact ⟨_, hreceive, ⟨rfl, a.side.dhPub, a.side.ns, a.side.nr, a.side.pn,
    a.side.headerNonceCounter, .empty, a.side.received,
    ⟨a.side.paired.receiving, a.side.paired.sending⟩⟩, .inl ⟨a.side.view, rfl⟩⟩

/-- The DH ratchet turns. -/
theorem of_turn (hin : 2 ≤ h.view → h.nr.toNat ≤ μ.header.pn.toNat ∧
    μ.header.pn.toNat ≤ h.nr.toNat + maxSkip.toNat) :
    Explains S b s p env μ h (decrypt P b env m.encHeader m.ciphertext m.ad (s.state p)) := by
  have hin' := hin
  rw [a.side.view, a.side.nr, a.message.header] at hin'
  obtain ⟨mk₁, mk₂, hprev, hstores, hres⟩ :=
    (receives env a.correct a.separates a.sync a.authentic).of_next a.correct a.separates
      a.sync a.noncesUsed a.mem a.authentic (a.sentAt_next hnext)
      (mt a.mem_received.mpr hnext.not_received)
      (by rw [← a.message.header]; exact UInt32.le_iff_toNat_le.mp hle) hin'
  obtain ⟨mid, hmid, hmidKeys⟩ := hprev.forget a.separates a.side (a.sync.state p).le_length
  obtain ⟨new, hnew, hnewKeys⟩ :=
    hstores.keys.forget a.separates (a.sentAt_next hnext).lt_length hmidKeys
  rw [← a.message.header] at hmid hnew
  rw [← a.side.view, ← hnext.chain] at hnew
  have hreceive : h.Receive b (P.x25519PublicKey env.freshSecret) μ _ _ :=
    .next hnext hle hmid hnew
  rw [a.message.plaintext] at hreceive
  rw [hres]
  refine ⟨_, hreceive, ⟨rfl, rfl, rfl, rfl, a.side.ns, a.side.headerNonceCounter, hnewKeys, ?_,
    ⟨Iff.rfl, .inl ⟨rfl, rfl, rfl⟩⟩⟩, .inr ⟨by dsimp only; rw [a.side.view], ?_⟩⟩
  · dsimp only
    rw [a.message.header]
  · exact congrArg some (a.sync.state p).nhkR

end Next

/-- **`decrypt` of a message that was sent** does what the exchange allows. -/
theorem explains :
    Explains S b s p env μ h (decrypt P b env m.encHeader m.ciphertext m.ad (s.state p)) := by
  by_cases hk : (μ.chain, μ.header.n) ∈ h.stored
  · exact a.of_stored env hk
  by_cases hcur : μ.chain + 2 = h.view
  · by_cases hdup : (μ.header.dhPub, μ.header.n) ∈ h.received
    · exact a.of_duplicate env hk (decryptHeader_current a.correct a.sync a.message.sentAt
        (hcur.trans a.side.view)) (.inl hcur) hdup
    · exact a.of_current env ⟨hcur, hk, hdup⟩
  by_cases hnext : μ.chain = h.view
  · by_cases hdup : (μ.header.dhPub, μ.header.n) ∈ h.received
    · have hat : SentAt S m (view p s.chains.length) :=
        hnext.trans a.side.view ▸ a.message.sentAt
      exact a.of_duplicate env hk (decryptHeader_next a.correct a.separates a.sync
        a.noncesUsed a.mem a.authentic hat) (.inr hnext) hdup
    · have hturn : h.Next μ := ⟨hnext, hk, hdup⟩
      by_cases hlt : maxSkip < μ.header.n
      · exact a.of_nextBeyond env hturn hlt
      have hle := UInt32.not_lt.mp hlt
      by_cases hout : 2 ≤ h.view ∧ (μ.header.pn.toNat < h.nr.toNat ∨
          h.nr.toNat + maxSkip.toNat < μ.header.pn.toNat)
      · exact a.of_lost env hturn hle hout.1 hout.2
      · refine a.of_turn env hturn hle fun hview => ?_
        by_contra hin
        exact hout ⟨hview, by omega⟩
  · exact a.of_unknown env hk hcur hnext

end Arrival

/-! ### Runs -/

omit [DecidableEq K] in
/-- The `i`-th message sent, on both sides. -/
theorem forall₂_getElem? {α β : Type} {R : α → β → Prop} {l : List α} {l' : List β}
    (h : List.Forall₂ R l l') {i : ℕ} {a : α} (ha : l.reverse[i]? = some a) :
    ∃ b, l'.reverse[i]? = some b ∧ R a b := by
  have hrev := List.forall₂_reverse_iff.mpr h
  obtain ⟨hi, rfl⟩ := List.getElem?_eq_some_iff.mp ha
  have hi' : i < l'.reverse.length := hrev.length_eq ▸ hi
  exact ⟨_, List.getElem?_eq_getElem hi', hrev.get hi hi'⟩

theorem ExchangeOf.start {sk : K} {bob dhS : DhPrivateKey} {s : Session K} {S : Schedule P}
    (h : Session.start P sk bob dhS = .ok s) (hS : Agrees S sk bob s) :
    ExchangeOf S s (Exchange.start (P.x25519PublicKey bob) (P.x25519PublicKey dhS)) := by
  have hlen := (Session.start_fresh h).chains
  obtain ⟨initiator, hinit, hs⟩ := Outcome.bind_eq_ok.mp h
  refine ⟨fun p => ?_, ?_⟩
  · rw [hlen]
    cases hs
    cases p with
    | initiator =>
      cases hinit
      exact ⟨rfl, rfl, rfl, rfl, rfl, rfl, .empty, rfl, ⟨Iff.rfl, .inl ⟨rfl, rfl, rfl⟩⟩⟩
    | responder =>
      exact ⟨rfl, rfl, rfl, rfl, rfl, rfl, .empty, rfl, ⟨Iff.rfl, .inr ⟨rfl, rfl, rfl⟩⟩⟩
  · cases hs
    exact .nil

/-- A change of one party's state that starts no chain. -/
theorem ExchangeOf.update (hex : ExchangeOf S s σ) {s' : Session K}
    (hside : SideOf S (view p s'.chains.length) (s'.state p) h)
    (hother : ∀ q, q ≠ p → view q s'.chains.length = view q s.chains.length)
    (hstate : ∀ q, q ≠ p → s'.state q = s.state q) {sent : List Message}
    (hsent : List.Forall₂ (MessageOf S) s'.sent sent) :
    ExchangeOf S s' { side := Function.update σ.side p h, sent } := by
  refine ⟨fun q => ?_, hsent⟩
  by_cases hq : q = p
  · subst hq
    dsimp only
    rwa [Function.update_self]
  · dsimp only
    rw [Function.update_of_ne hq, hother q hq, hstate q hq]
    exact hex.side q

/-- **Sending.** -/
theorem ExchangeOf.encrypt (hS : S.KdfSeparates) (hsync : Sync S s)
    (hex : ExchangeOf S s σ)
    (p : Party) (plaintext ad : Bytes) (hafter : Sync S (s.encrypt P p plaintext ad)) :
    ∃ σ', Exchange.Step b σ (.send p plaintext ad)
        (Reply.message (Ratchet.encrypt P plaintext ad (s.state p)).1).answer σ' ∧
      ExchangeOf S (s.encrypt P p plaintext ad) σ' := by
  obtain ⟨h', hsend, hside⟩ := (hex.side p).send (hsync.state p) plaintext ad
  have hchains := (Session.encrypt_frame (P := P) s p plaintext ad).2.2.1
  generalize hres : Ratchet.encrypt P plaintext ad (s.state p) = r at hsend hside
  have hupdate : ∀ {sent}, List.Forall₂ (MessageOf S) (s.encrypt P p plaintext ad).sent sent →
      ExchangeOf S (s.encrypt P p plaintext ad)
        { side := Function.update σ.side p h', sent } := by
    intro sent hsent
    have hstate : (s.encrypt P p plaintext ad).state = Function.update s.state p r.2 := by
      simp only [Session.encrypt, hres]
      split <;> rfl
    refine hex.update ?_ (fun q _ => by rw [hchains]) (fun q hq => ?_) hsent
    · rw [hchains, hstate, Function.update_self]
      exact hside
    · rw [hstate, Function.update_of_ne hq]
  obtain ⟨_ | e | _, st⟩ := r
  · -- the new message is on the chain before the view
    rename_i bytes
    obtain ⟨encHeader, ciphertext⟩ := bytes
    obtain ⟨m, hm, hsent⟩ : ∃ m : Sealed K, m =
        { owner := p
          headerKey := (s.state p).hkS
          messageKey := (s.state p).ckS.map fun ck => (kdfCk P ck).2
          header := nextHeader (s.state p)
          plaintext, ad, encHeader, ciphertext } ∧
        (s.encrypt P p plaintext ad).sent = m :: s.sent := by
      refine ⟨_, rfl, ?_⟩
      simp only [Session.encrypt, hres]
    obtain ⟨j, -, hat⟩ := hafter.sent m (by rw [hsent]; exact List.mem_cons_self)
    have hj : (σ.side p).view - 1 = j := by
      have hhk : S.sendHeaderKey (view p s.chains.length) = some (S.headerKey j) := by
        rw [← (hsync.state p).hkS, ← hat.headerKey, hm]
      obtain ⟨w, hw, hkey⟩ := S.sendHeaderKey_eq_some.mp hhk
      have hlen := (hsync.state p).le_length
      rw [(hex.side p).view, hw, ← hat.headerKey_inj hS (by omega) hkey.symm]
      rfl
    refine ⟨_, .sent hsend, hupdate ?_⟩
    rw [hsent]
    refine .cons ⟨?_, ?_, ?_, ?_⟩ hex.sent
    · rw [Side.nextMessage, hj]
      exact hat
    · rw [Side.nextMessage, (hex.side p).dhPub, (hex.side p).pn, (hex.side p).ns, hm]
      rfl
    · rw [hm]
      rfl
    · rw [hm]
      rfl
  · have hsent : (s.encrypt P p plaintext ad).sent = s.sent := by
      simp only [Session.encrypt, hres]
    exact ⟨_, .notSent hsend (by simp), hupdate (by rw [hsent]; exact hex.sent)⟩
  · have hsent : (s.encrypt P p plaintext ad).sent = s.sent := by
      simp only [Session.encrypt, hres]
    exact ⟨_, .notSent hsend (by simp), hupdate (by rw [hsent]; exact hex.sent)⟩

/-- Delivering a message that was sent. -/
theorem ExchangeOf.deliver (hex : ExchangeOf S s σ) {m : Sealed K} {μ : Message}
    (a : Arrival b S s p m μ (σ.side p)) (env : CallEnv K)
    (hafter : Sync S (s.decrypt P b p env m.encHeader m.ciphertext m.ad)) :
    ∃ h', (σ.side p).Receive b (P.x25519PublicKey env.freshSecret) μ
        (Ratchet.decrypt P b env m.encHeader m.ciphertext m.ad (s.state p)).1 h' ∧
      ExchangeOf S (s.decrypt P b p env m.encHeader m.ciphertext m.ad)
        { σ with side := Function.update σ.side p h' } := by
  obtain ⟨h', hreceive, hside, hmoves⟩ := a.explains env
  refine ⟨h', hreceive, hex.update ?_ (fun q hq => ?_) (fun q hq => ?_) hex.sent⟩
  · rw [a.sync.view_decrypt a.separates hafter hmoves, Session.decrypt_state_self rfl]
    exact hside
  · exact a.sync.view_decrypt_of_ne a.separates hafter hq
  · exact Session.decrypt_state_of_ne hq

/-- **Delivering.** -/
theorem ExchangeOf.decrypt (hP : Correct P) (hS : S.KdfSeparates) (hsync : Sync S s)
    (hnonces : NoncesUsed s) (hex : ExchangeOf S s σ) {env : CallEnv K}
    {encHeader ciphertext ad : Bytes} (hauth : AuthenticCall P b s p encHeader ciphertext ad)
    (hafter : Sync S (s.decrypt P b p env encHeader ciphertext ad)) :
    ∃ σ', Exchange.Step b σ (s.eventOf P (.decrypt p env encHeader ciphertext ad))
        (.received (Ratchet.decrypt P b env encHeader ciphertext ad (s.state p)).1) σ' ∧
      ExchangeOf S (s.decrypt P b p env encHeader ciphertext ad) σ' := by
  rw [Session.eventOf]
  split
  case h_1 i hi =>
    obtain ⟨hlt, hfound, -⟩ := List.findIdx?_eq_some_iff_getElem.mp hi
    obtain ⟨m, hm⟩ : ∃ m, m = s.sent.reverse[i] := ⟨_, rfl⟩
    rw [← hm, decide_eq_true_eq] at hfound
    obtain ⟨rfl, rfl, rfl⟩ := hfound
    have hget : s.sent.reverse[i]? = some m := by
      rw [List.getElem?_eq_getElem hlt, hm]
    obtain ⟨μ, hμ, hmessage⟩ := forall₂_getElem? hex.sent hget
    have hmem : m ∈ s.sent := List.mem_reverse.mp (List.mem_of_getElem? hget)
    have harrival : Arrival b S s p m μ (σ.side p) :=
      ⟨hP, hS, hsync, hnonces, hmem, hmessage, hauth, hex.side p⟩
    obtain ⟨h', hreceive, hex'⟩ := hex.deliver harrival env hafter
    exact ⟨_, .delivered hμ hreceive, hex'⟩
  case h_2 hnone =>
    have hno : ∀ m ∈ s.sent, ¬ m.Is encHeader ciphertext ad := by
      intro m hm his
      have hfalse := List.findIdx?_eq_none_iff.mp hnone m (List.mem_reverse.mpr hm)
      rw [decide_eq_false_iff_not] at hfalse
      exact hfalse ⟨his.encHeader, his.ciphertext, his.ad⟩
    have hrec := receives env hP hS hsync hauth
    generalize hres : Ratchet.decrypt P b env encHeader ciphertext ad (s.state p) = r at hrec
    cases hrec with
    | skipped hm _ his => exact absurd his (hno _ hm)
    | current hm _ his => exact absurd his (hno _ hm)
    | lost hm _ his => exact absurd his (hno _ hm)
    | ratchet hm _ his => exact absurd his (hno _ hm)
    | refused ho =>
      refine ⟨σ, .refused ho, ?_⟩
      have hchains := Session.decrypt_chains hres rfl
      have hstate : (s.decrypt P b p env encHeader ciphertext ad).state = s.state := by
        rw [Session.decrypt_state hres, Function.update_eq_self]
      exact ⟨fun q => by rw [hchains, hstate]; exact hex.side q, hex.sent⟩

/-- **Every run of a session is a run of the exchange without keys.**  Over any network
with ideal encryption, the session returns to every call what the exchange may
return to the corresponding event: for a message that was sent, delivered late,
early, twice or to the wrong party, exactly the plaintext or the error that follows
from its chain and number. -/
theorem session_refines_exchange (hP : Correct P) {sk : K} {bob dhS : DhPrivateKey}
    {s₀ : Session K} (h₀ : Session.start P sk bob dhS = .ok s₀) {es : List (Event K)}
    (hS : ((Machine.run (Session.step P b) s₀ es).schedule P sk bob).KdfSeparates)
    (hes : Machine.Along (Session.step P b) (Authentic P b) s₀ es) :
    ∃ σ, Machine.Runs (Exchange.Step b)
        (Exchange.start (P.x25519PublicKey bob) (P.x25519PublicKey dhS))
        (Machine.trace (Session.step P b) (Session.eventOf P) s₀ es)
        (Machine.trace (Session.step P b) (fun s e => (s.reply P b e).answer) s₀ es) σ ∧
      ∃ S : Schedule P, Agrees S sk bob (Machine.run (Session.step P b) s₀ es) ∧
        ExchangeOf S (Machine.run (Session.step P b) s₀ es) σ := by
  obtain ⟨S, hS, hagrees⟩ : ∃ S : Schedule P, S.KdfSeparates ∧
      Agrees S sk bob (Machine.run (Session.step P b) s₀ es) :=
    ⟨_, hS, agrees_schedule sk bob _⟩
  have hstart : Reachable P b sk bob (Authentic P b) s₀ := ⟨dhS, s₀, [], h₀, trivial, rfl⟩
  have hstep : ∀ s σ e, Reachable P b sk bob (Authentic P b) s ∧ ExchangeOf S s σ →
      Authentic P b s e ∧ Agrees S sk bob (s.step P b e) →
      ∃ σ', Exchange.Step b σ (s.eventOf P e) (s.reply P b e).answer σ' ∧
        Reachable P b sk bob (Authentic P b) (s.step P b e) ∧
          ExchangeOf S (s.step P b e) σ' := by
    rintro s σ e ⟨hreach, hex⟩ ⟨hauth, hstep⟩
    have hsync := hreach.sync hP hS hstep.of_step
    have hnext := hreach.step hauth
    have hafter := hnext.sync hP hS hstep
    cases e with
    | encrypt p plaintext ad =>
      obtain ⟨σ', hσ, hex'⟩ := hex.encrypt (b := b) hS hsync p plaintext ad hafter
      exact ⟨σ', hσ, hnext, hex'⟩
    | decrypt p env encHeader ciphertext ad =>
      obtain ⟨σ', hσ, hex'⟩ := hex.decrypt hP hS hsync hreach.noncesUsed hauth hafter
      exact ⟨σ', hσ, hnext, hex'⟩
  obtain ⟨σ, hruns, -, hex⟩ := (hes.and hagrees.along).simulates hstep
    ⟨hstart, ExchangeOf.start h₀ hagrees.of_run⟩
  exact ⟨σ, hruns, S, hagrees, hex⟩

open Symbolic in
/-- The third of three messages arrives first and twice; then comes a message that
nobody sent, and the first one. -/
theorem session_refines_exchange_out_of_order :
    ∃ σ, Machine.Runs (Exchange.Step .release)
      (Exchange.start (Bytes.leArray 32 1) (Bytes.leArray 32 2))
      [.send .initiator [0x61] [], .send .initiator [0x62] [], .send .initiator [0x63] [],
        .deliver .responder (Bytes.leArray 32 3) 2, .deliver .responder (Bytes.leArray 32 3) 2,
        .forge .responder, .deliver .responder (Bytes.leArray 32 3) 0]
      [.sent (.ok ⟨⟩), .sent (.ok ⟨⟩), .sent (.ok ⟨⟩), .received (.ok [0x63]),
        .received (.err .duplicateMessage), .received (.err .headerDecryptionFailed),
        .received (.ok [0x61])] σ := by
  obtain ⟨es, hes⟩ : ∃ es, es = threeSent ++
      [receive 2, receive 2, .decrypt .responder (env 3) [] [] [], receive 0] := ⟨_, rfl⟩
  have halong : Machine.Along (Session.step primitives .release) (Authentic primitives .release)
      session es := by
    rw [hes]
    decide +kernel
  obtain ⟨σ, hruns, -⟩ := session_refines_exchange correct start
    (Schedule.kdfSeparates collisionFree) halong
  rw [hes] at hruns
  have hevents : Machine.trace (Session.step primitives .release) (Session.eventOf primitives)
      session (threeSent ++ [receive 2, receive 2,
        .decrypt .responder (env 3) [] [] [], receive 0])
        = [.send .initiator [0x61] [], .send .initiator [0x62] [], .send .initiator [0x63] [],
          .deliver .responder (Bytes.leArray 32 3) 2, .deliver .responder (Bytes.leArray 32 3) 2,
          .forge .responder, .deliver .responder (Bytes.leArray 32 3) 0] := by
    decide +kernel
  have hanswers : Machine.trace (Session.step primitives .release)
      (fun s e => (s.reply primitives .release e).answer) session
      (threeSent ++ [receive 2, receive 2, .decrypt .responder (env 3) [] [] [], receive 0])
        = [.sent (.ok ⟨⟩), .sent (.ok ⟨⟩), .sent (.ok ⟨⟩), .received (.ok [0x63]),
          .received (.err .duplicateMessage), .received (.err .headerDecryptionFailed),
          .received (.ok [0x61])] := by
    decide +kernel
  rw [hevents, hanswers] at hruns
  exact ⟨σ, hruns⟩

end Ratchet
