/-
Out-of-order delivery, and where it loses messages.

The receiver's skip limit and its store work from `nr`, which counts the messages
accepted on the chain, not from the highest number accepted; so the window that
is really accepted falls behind as gaps add up.

* `Window` — the numbers the code can skip from the state it is in;
* `Kept` — the invariant of one receiver: every number passed over is accepted
  or stored;
* `Receives.delivers` — a first delivery in the window returns its plaintext and
  keeps the invariant.
-/
import LibsignalDezire.Session.PreviousChain

namespace Ratchet

variable {K : Type} [DecidableEq K] (P : Primitives K)

/-! ### Genuine deliveries -/

/-- Party `p` has accepted the message. -/
def Accepted (s : Session K) (p : Party) (m : Sealed K) : Prop :=
  ∃ o ∈ s.opened, o.party = p ∧ o.encHeader = m.encHeader

instance (s : Session K) (p : Party) (m : Sealed K) : Decidable (Accepted s p m) :=
  inferInstanceAs (Decidable (∃ o ∈ s.opened, _))

/-- The messages of the chain with header key `hk` that `p` has accepted. -/
def acceptedIn (s : Session K) (p : Party) (hk : Option K) : List (Sealed K) :=
  s.sent.filter fun m => m.headerKey = hk ∧ Accepted s p m

/-- The message is genuine, delivered unchanged, and has not been accepted yet. -/
def FirstDelivery (s : Session K) : Event K → Prop
  | .encrypt .. => True
  | .decrypt p _ encHeader ciphertext ad => ∃ m ∈ s.sent, m.owner = p.peer ∧
      (m.encHeader = encHeader ∧ m.ciphertext = ciphertext ∧ m.ad = ad) ∧ ¬ Accepted s p m

/-- On the chain being received fewer messages than can be tracked were
accepted. -/
def BelowTracking (s : Session K) : Event K → Prop
  | .encrypt .. => True
  | .decrypt p _ encHeader _ _ => ∀ m ∈ s.sent, m.encHeader = encHeader →
      m.headerKey = (s.state p).hkR →
      (acceptedIn s p m.headerKey).length < maxReceivedTracking

/-- The key pair drawn differs from the one in place. -/
def DrawsFresh (s : Session K) : Event K → Prop
  | .encrypt .. => True
  | .decrypt p env _ _ _ => P.x25519PublicKey env.freshSecret ≠ (s.state p).dhPair.2

/-! ### The window -/

/-- The header key of the chain a header belongs to. -/
def headerKeyOf (st : RatchetState K) (dhRatchet : Bool) : Option K :=
  if dhRatchet then some st.nhkR else st.hkR

/-- The keys stored when the chain of the header is reached: a DH ratchet has
stored the rest of the chain before it. -/
def storedBefore (st : RatchetState K) (header : RatchetHeader) (dhRatchet : Bool) :
    Finset (K × UInt32) :=
  match dhRatchet, st.hkR with
  | true, some hk => st.mkskipped.keys.toFinset ∪ numberKeys hk st.nr.toNat header.pn.toNat
  | _, _ => st.mkskipped.keys.toFinset

/-- The numbers the header asks to skip lie within `MAX_SKIP` of the number the
state has reached, and storing them finds `mkskipped` never full. -/
structure Window (st : RatchetState K) (header : RatchetHeader) (dhRatchet : Bool) : Prop where
  number : header.n.toNat ≤ (recvNumber st dhRatchet).toNat + maxSkip.toNat
  room : ∀ hk ∈ headerKeyOf st dhRatchet, NoEviction (storedBefore st header dhRatchet) hk
    (recvNumber st dhRatchet).toNat header.n.toNat
  previous : dhRatchet = true → ∀ hk ∈ st.hkR,
    header.pn.toNat ≤ st.nr.toNat + maxSkip.toNat ∧
      NoEviction st.mkskipped.keys.toFinset hk st.nr.toNat header.pn.toNat

instance (keys : Finset (K × UInt32)) (hk : K) (a b : ℕ) : Decidable (NoEviction keys hk a b) :=
  decidable_of_iff (∀ i < b, a ≤ i → (keys ∪ numberKeys hk a i).card < maxSkippedKeys)
    ⟨fun h i ha hb => h i hb ha, fun h i hb ha => h i ha hb⟩

instance (st : RatchetState K) (header : RatchetHeader) (dhRatchet : Bool) :
    Decidable (Window st header dhRatchet) :=
  decidable_of_iff (_ ∧ _ ∧ _) ⟨fun h => ⟨h.1, h.2.1, h.2.2⟩,
    fun h => ⟨h.number, h.room, h.previous⟩⟩

/-- A header whose message is not answered from the stored keys is in the window. -/
def HeaderInWindow (st : RatchetState K) : Outcome RatchetError (RatchetHeader × Bool) → Prop
  | .ok (header, dhRatchet) =>
    (∀ hk ∈ headerKeyOf st dhRatchet, (hk, header.n) ∉ st.mkskipped) → Window st header dhRatchet
  | _ => True

instance (st : RatchetState K) : DecidablePred (HeaderInWindow st)
  | .ok (header, dhRatchet) => inferInstanceAs (Decidable
      ((∀ hk ∈ headerKeyOf st dhRatchet, (hk, header.n) ∉ st.mkskipped) →
        Window st header dhRatchet))
  | .err _ => isTrue trivial
  | .panic => isTrue trivial

/-- The delivery stays in the window. -/
def InWindow (s : Session K) : Event K → Prop
  | .encrypt .. => True
  | .decrypt p _ encHeader _ _ =>
    HeaderInWindow (s.state p) (decryptHeader P (s.state p) encHeader)

instance (s : Session K) : DecidablePred (FirstDelivery s)
  | .encrypt .. => isTrue trivial
  | .decrypt p _ encHeader ciphertext ad =>
    inferInstanceAs (Decidable (∃ m ∈ s.sent, m.owner = p.peer ∧
      (m.encHeader = encHeader ∧ m.ciphertext = ciphertext ∧ m.ad = ad) ∧ ¬ Accepted s p m))

instance (s : Session K) : DecidablePred (BelowTracking s)
  | .encrypt .. => isTrue trivial
  | .decrypt p _ encHeader _ _ =>
    inferInstanceAs (Decidable (∀ m ∈ s.sent, m.encHeader = encHeader →
      m.headerKey = (s.state p).hkR → (acceptedIn s p m.headerKey).length < maxReceivedTracking))

instance (s : Session K) : DecidablePred (DrawsFresh P s)
  | .encrypt .. => isTrue trivial
  | .decrypt p env _ _ _ =>
    inferInstanceAs (Decidable (P.x25519PublicKey env.freshSecret ≠ (s.state p).dhPair.2))

instance (s : Session K) : DecidablePred (InWindow P s)
  | .encrypt .. => isTrue trivial
  | .decrypt p _ encHeader _ _ => inferInstanceAs
      (Decidable (HeaderInWindow (s.state p) (decryptHeader P (s.state p) encHeader)))

variable {P} {b : Build} {s : Session K} {S : Schedule P} {p : Party} {env : CallEnv K}
  {encHeader ciphertext ad : Bytes}

/-! ### Accepted messages -/

/-- What was accepted stays accepted. -/
theorem Accepted.step {m : Sealed K} (h : Accepted s p m) (e : Event K) :
    Accepted (s.step P b e) p m := by
  obtain ⟨o, ho, hmem⟩ := h
  exact ⟨o, Session.step_opened_subset s e ho, hmem⟩

/-- A message that `decrypt` opens is accepted. -/
theorem accepted_of_decrypt {m : Sealed K} (henc : m.encHeader = encHeader) {q : Bytes}
    {st : RatchetState K}
    (hres : decrypt P b env encHeader ciphertext ad (s.state p) = (.ok q, st)) :
    Accepted (s.decrypt P b p env encHeader ciphertext ad) p m := by
  rw [Accepted, Session.decrypt_opened hres]
  exact ⟨_, List.mem_cons_self, rfl, henc.symm⟩

/-! ### The invariant -/

/-- A receiver with view `v` that has accepted the messages in `acc`: of the
chains it has left, every message is accepted or stored, and so is every
message of the current chain up to the highest number accepted, `hi - 1`. -/
structure Kept (S : Schedule P) (sent : List (Sealed K)) (acc : Sealed K → Prop) (v : ℕ)
    (st : RatchetState K) : Prop where
  closed : ∀ m ∈ sent, ∀ j, SentAt S m j → j + 2 < v → (j + v) % 2 = 0 →
    acc m ∨ (S.headerKey j, m.header.n) ∈ st.mkskipped
  current : ∀ w, v = w + 2 → ∃ hi, st.nr.toNat ≤ hi ∧
    (hi = 0 ∨ ∃ m ∈ sent, SentAt S m w ∧ hi = m.header.n.toNat + 1) ∧
    ∀ m ∈ sent, SentAt S m w → m.header.n.toNat < hi →
      acc m ∨ (S.headerKey w, m.header.n) ∈ st.mkskipped
  received : ∀ x ∈ st.receivedMessages, ∃ m ∈ sent, ∃ j, SentAt S m j ∧ j + 2 = v ∧
    x = (m.header.dhPub, m.header.n) ∧ acc m
  counted : st.nr.toNat ≤ st.receivedMessages.card

/-- A stored key opens its message. -/
theorem Synced.opens_stored (hP : Correct P) (hS : S.KdfSeparates) {v j : ℕ}
    {st : RatchetState K} (h : Synced S v st) {m : Sealed K} (hat : SentAt S m j)
    (hk : (S.headerKey j, m.header.n) ∈ st.mkskipped) :
    ∃ key, st.mkskipped.lookup (S.headerKey j, m.header.n) = some key ∧
      Opens P (S.headerKey j, m.header.n) key m.encHeader m.ciphertext
        (concatAd m.ad m.encHeader) m.plaintext := by
  obtain ⟨key, hkey⟩ := Option.isSome_iff_exists.mp (AList.lookup_isSome.mpr hk)
  obtain ⟨i, hiv, -, hi, hmk⟩ := h.skipped _ key hkey
  have hlen := h.le_length
  obtain rfl := hat.headerKey_inj hS (by omega) hi.symm
  exact ⟨key, hkey, m.header, hat.opens hP, rfl, hmk ▸ hat.decrypts hP⟩

/-- Keys are stored of earlier chains than the next one only. -/
theorem Synced.not_stored_next (hS : S.KdfSeparates) {v : ℕ} {st : RatchetState K}
    (h : Synced S v st) (n : UInt32) : (S.headerKey v, n) ∉ st.mkskipped := by
  intro hk
  obtain ⟨key, hkey⟩ := Option.isSome_iff_exists.mp (AList.lookup_isSome.mpr hk)
  obtain ⟨j, hj, -, heq, -⟩ := h.skipped _ key hkey
  have hlen := h.le_length
  have := Schedule.headerKey_inj hS (by omega) (by omega) heq
  omega

section Delivered

variable (hP : Correct P) (hS : S.KdfSeparates) (h : Sync S s) (hnonces : NoncesUsed s)
  {m : Sealed K} (hm : m ∈ s.sent)
  (hauth : AuthenticCall P b s p m.encHeader m.ciphertext m.ad)

include hP hS h

omit hS in
/-- The header of a message of the chain being received. -/
theorem decryptHeader_current {j : ℕ} (hat : SentAt S m j)
    (hv : j + 2 = view p s.chains.length) :
    decryptHeader P (s.state p) m.encHeader = .ok (m.header, false) := by
  exact decryptHeader_of_current P ((h.state p).hkR_eq hv.symm) (hat.opens hP)

omit hS in
/-- The chain that a message of the next chain starts. -/
theorem recvChain_next (hat : SentAt S m (view p s.chains.length)) :
    recvChain P (s.state p) m.header true = some (S.chainStart (view p s.chains.length)) := by
  have hdh : P.x25519DiffieHellman (s.state p).dhPair.1 m.header.dhPub
      = S.dhValue (view p s.chains.length) := by
    rw [(h.state p).dhPair, hat.dhPub]
    exact S.dhValue_comm hP _
  rw [recvChain, if_pos rfl, hdh, (h.state p).rk]
  rfl

include hnonces hm hauth

/-- The header of a message of the next chain. -/
theorem decryptHeader_next (hat : SentAt S m (view p s.chains.length)) :
    decryptHeader P (s.state p) m.encHeader = .ok (m.header, true) := by
  refine decryptHeader_of_next P (fun hk header hhk hopen => ?_) ?_
  -- the current header key opens messages of an earlier chain only
  · obtain ⟨m', hm', j', hat', hkj, henc, -⟩ := header_agrees hP h hauth
      (List.mem_append_left _ (by rw [hhk]; exact List.mem_singleton_self _)) hopen
    obtain ⟨rfl, hchain⟩ := hnonces.place_inj hS hm' hm henc hat' hat
    have := h.view_eq_of_hkR hS hat'.le_length_succ (hhk.trans (congrArg some hkj))
    omega
  · rw [(h.state p).nhkR]
    exact hat.opens hP

/-- A message whose key is not stored is not answered from the stored keys. -/
theorem not_opens_of_not_stored {j : ℕ} (hat : SentAt S m j)
    (hstored : (S.headerKey j, m.header.n) ∉ (s.state p).mkskipped) (k : K × UInt32)
    (key : SkippedKey K) (q : Bytes) (hk : (s.state p).mkskipped.lookup k = some key) :
    ¬ Opens P k key m.encHeader m.ciphertext (concatAd m.ad m.encHeader) q := by
  intro hopens
  obtain ⟨m', hm', j', hat', his, -, rfl, -⟩ := skipped_agrees hP hS h hauth hk hopens hat.ad_le
  obtain ⟨rfl, rfl⟩ := hnonces.place_inj hS hm' hm his.encHeader hat' hat
  exact hstored (AList.lookup_isSome.mp (hk ▸ rfl))

section Current

variable {j : ℕ} (hat : SentAt S m j) (hv : j + 2 = view p s.chains.length)
  (hstored : (S.headerKey j, m.header.n) ∉ (s.state p).mkskipped)
  (hreceived : (m.header.dhPub, m.header.n) ∉ (s.state p).receivedMessages)
  (hlow : (s.state p).nr.toNat ≤ m.header.n.toNat)
  (hnr : (s.state p).nr.toNat + maxSkip.toNat < 2 ^ 32)
  (hhigh : m.header.n.toNat ≤ (s.state p).nr.toNat + maxSkip.toNat)

include hat hv hstored hreceived hlow hnr hhigh

/-- On the chain being received a message at or beyond `nr` authenticates. -/
theorem authenticates_current :
    Authenticates P b (s.state p) m.encHeader m.ciphertext m.ad m.header false m.plaintext := by
  have hckR : recvChain P (s.state p) m.header false
      = some (S.chainKey j (s.state p).nr.toNat) := by
    rw [recvChain_false, (h.state p).ckR, ← hv]
    rfl
  have hkey := computeMessageKey_of_le (b := b) P hckR hnr hhigh
  rw [recvNumber_false, S.messageKey_chainKey, Nat.add_sub_cancel' hlow] at hkey
  exact ⟨hat.ad_le, not_opens_of_not_stored hP hS h hnonces hm hauth hat hstored,
    decryptHeader_current hP h hat hv, hreceived, _, hkey, hat.decrypts hP⟩

/-- Such a message goes to the commit on the chain being received. -/
theorem Receives.of_current {r : Outcome RatchetError Bytes × RatchetState K}
    (hrec : Receives P S b s p env m.encHeader m.ciphertext m.ad r) :
    ∃ mkskipped nr, Stores P (S.chainKey j (s.state p).nr.toNat) (S.headerKey j)
        (s.state p).nr.toNat m.header.n.toNat (s.state p).mkskipped mkskipped ∧
      nr.toNat = (s.state p).nr.toNat + 1 ∧
      r = trackMessage m.header m.plaintext (.ok ⟨⟩, { s.state p with
        mkskipped, ckR := some (S.chainKey j nr.toNat), nr }) := by
  have haccept := authenticates_current hP hS h hnonces hm hauth hat hv hstored hreceived hlow
    hnr hhigh
  cases hrec with
  | refused _ _ hno => exact absurd haccept (hno _ _ _)
  | skipped hm' hat' his _ _ hk =>
    obtain ⟨rfl, rfl⟩ := hnonces.place_inj hS hm' hm his.encHeader hat' hat
    exact absurd hk hstored
  | lost hm' hat' his =>
    obtain ⟨rfl, hchain⟩ := hnonces.place_inj hS hm' hm his.encHeader hat' hat
    omega
  | ratchet hm' hat' his =>
    obtain ⟨rfl, hchain⟩ := hnonces.place_inj hS hm' hm his.encHeader hat' hat
    omega
  | current hm' hat' his _ _ _ hstores hnr' =>
    obtain ⟨rfl, rfl⟩ := hnonces.place_inj hS hm' hm his.encHeader hat' hat
    exact ⟨_, _, hstores, hnr', rfl⟩

end Current

/-- On the next chain a message within the skip limit authenticates. -/
theorem authenticates_next (hat : SentAt S m (view p s.chains.length))
    (hreceived : (m.header.dhPub, m.header.n) ∉ (s.state p).receivedMessages)
    (hhigh : m.header.n.toNat ≤ maxSkip.toNat) :
    Authenticates P b (s.state p) m.encHeader m.ciphertext m.ad m.header true m.plaintext := by
  have hp := h.state p
  have hchain := recvChain_next hP h hat
  have hkey := computeMessageKey_of_new (b := b) P hchain hhigh
  exact ⟨hat.ad_le,
    not_opens_of_not_stored hP hS h hnonces hm hauth hat (hp.not_stored_next hS m.header.n),
    decryptHeader_next hP hS h hnonces hm hauth hat, hreceived, _, hkey, hat.decrypts hP⟩

/-- A message of the next chain goes through the DH ratchet, if what is left of the
chain before it can be stored. -/
theorem Receives.of_next {r : Outcome RatchetError Bytes × RatchetState K}
    (hrec : Receives P S b s p env m.encHeader m.ciphertext m.ad r)
    (hat : SentAt S m (view p s.chains.length))
    (hreceived : (m.header.dhPub, m.header.n) ∉ (s.state p).receivedMessages)
    (hhigh : m.header.n.toNat ≤ maxSkip.toNat)
    (hprevious : 2 ≤ view p s.chains.length → (s.state p).nr.toNat ≤ m.header.pn.toNat ∧
      m.header.pn.toNat ≤ (s.state p).nr.toNat + maxSkip.toNat) :
    ∃ mk₁ mk₂, StoresPrevious S (view p s.chains.length) (s.state p).nr.toNat
        m.header.pn.toNat (s.state p).mkskipped mk₁ ∧
      Stores P (S.chainKey (view p s.chains.length) 0) (S.headerKey (view p s.chains.length)) 0
        m.header.n.toNat mk₁ mk₂ ∧
      r = (.ok m.plaintext, { ratcheted P env m.header (s.state p) with
        mkskipped := mk₂, ckR := some (S.chainKey (view p s.chains.length) 1), nr := 1
        receivedMessages := {(m.header.dhPub, m.header.n)} }) := by
  have haccept := authenticates_next hP hS h hnonces hm hauth hat hreceived hhigh
  cases hrec with
  | refused _ _ hno => exact absurd haccept (hno _ _ _)
  | skipped hm' hat' his hle =>
    obtain ⟨rfl, hchain⟩ := hnonces.place_inj hS hm' hm his.encHeader hat' hat
    omega
  | current hm' hat' his _ hv =>
    obtain ⟨rfl, hchain⟩ := hnonces.place_inj hS hm' hm his.encHeader hat' hat
    omega
  | lost hm' hat' his _ hge hout =>
    obtain rfl := hnonces.encHeader_inj hm' hm his.encHeader
    have := hprevious hge
    omega
  | ratchet hm' hat' his _ hprev hstores =>
    obtain rfl := hnonces.encHeader_inj hm' hm his.encHeader
    exact ⟨_, _, hprev, hstores, rfl⟩

end Delivered

/-! ### What a first delivery keeps -/

theorem Stores.mem_iff {ck hk : K} {a n : ℕ} {old new : SkippedKeyMap K}
    (h : Stores P ck hk a n old new) (hroom : NoEviction old.keys.toFinset hk a n)
    (hn : n ≤ 2 ^ 32) {k : K × UInt32} :
    k ∈ new ↔ k ∈ old ∨ k.1 = hk ∧ a ≤ k.2.toNat ∧ k.2.toNat < n := by
  rw [AList.mem_keys, ← List.mem_toFinset, h.keys.eq_of_noEviction hroom, Finset.mem_union,
    List.mem_toFinset, ← AList.mem_keys, mem_numberKeys hn]

section Keeps

variable {sent : List (Sealed K)} {acc : Sealed K → Prop} {v j : ℕ} {st : RatchetState K}
  {m : Sealed K} (h : Kept S sent acc v st) (hm : m ∈ sent)
  (hdistinct : ∀ m ∈ sent, ∀ m' ∈ sent, ∀ j, SentAt S m j → SentAt S m' j →
    m.header.n = m'.header.n → m = m')

include h hm hdistinct

/-- A message answered from the stored keys. -/
theorem Kept.skipped (hS : S.KdfSeparates) (hat : SentAt S m j) :
    Kept S sent (fun m' => acc m' ∨ m' = m) v
      { st with mkskipped := st.mkskipped.erase (S.headerKey j, m.header.n) } := by
  have hkeep : ∀ m' ∈ sent, ∀ j', SentAt S m' j' →
      acc m' ∨ (S.headerKey j', m'.header.n) ∈ st.mkskipped →
      (acc m' ∨ m' = m) ∨
        (S.headerKey j', m'.header.n) ∈ st.mkskipped.erase (S.headerKey j, m.header.n) := by
    intro m' hm' j' hat' hold
    rcases hold with hacc | hk
    · exact .inl (.inl hacc)
    · by_cases heq : (S.headerKey j', m'.header.n) = (S.headerKey j, m.header.n)
      · obtain ⟨hj, hn⟩ := Prod.mk.inj heq
        obtain rfl := hat.headerKey_inj hS hat'.le_length_succ hj
        exact .inl (.inr (hdistinct m' hm' m hm j' hat' hat hn))
      · exact .inr (AList.mem_erase.mpr ⟨heq, hk⟩)
  refine ⟨fun m' hm' j' hat' hlt hpar => ?_, fun w hw => ?_, fun x hx => ?_, h.counted⟩
  · exact hkeep m' hm' j' hat' (h.closed m' hm' j' hat' hlt hpar)
  · obtain ⟨hi, hle, htop, hbelow⟩ := h.current w hw
    exact ⟨hi, hle, htop, fun m' hm' hat' hlt => hkeep m' hm' w hat' (hbelow m' hm' hat' hlt)⟩
  · obtain ⟨m', hm', j', hat', hj', hxEq, hacc⟩ := h.received x hx
    exact ⟨m', hm', j', hat', hj', hxEq, .inl hacc⟩

/-- A message of the chain being received, at or beyond the highest number
accepted. -/
theorem Kept.commit (hat : SentAt S m j) (hv : v = j + 2)
    (hstored : (S.headerKey j, m.header.n) ∉ st.mkskipped) (hnot : ¬ acc m)
    {mkskipped : SkippedKeyMap K} {nr : UInt32} (ck : Option K)
    (hstores : Stores P (S.chainKey j st.nr.toNat) (S.headerKey j) st.nr.toNat
      m.header.n.toNat st.mkskipped mkskipped)
    (hroom : NoEviction st.mkskipped.keys.toFinset (S.headerKey j) st.nr.toNat m.header.n.toNat)
    (hnr : nr.toNat = st.nr.toNat + 1) :
    Kept S sent (fun m' => acc m' ∨ m' = m) v { st with
      mkskipped, ckR := ck, nr
      receivedMessages := insert (m.header.dhPub, m.header.n) st.receivedMessages } := by
  have hmem := fun k => hstores.mem_iff hroom m.header.n.toNat_lt.le (k := k)
  obtain ⟨hi, hle, htop, hbelow⟩ := h.current j hv
  have hhi : hi ≤ m.header.n.toNat := by
    by_contra hlt
    rcases hbelow m hm hat (not_le.mp hlt) with hacc | hk
    · exact hnot hacc
    · exact hstored hk
  have hnew : (m.header.dhPub, m.header.n) ∉ st.receivedMessages := by
    intro hx
    obtain ⟨m', hm', j', hat', hj', hxEq, hacc⟩ := h.received _ hx
    obtain rfl : j' = j := by omega
    exact hnot (hdistinct m hm m' hm' j' hat hat' (Prod.mk.inj hxEq).2 ▸ hacc)
  refine ⟨fun m' hm' j' hat' hlt hpar => ?_, fun w hw => ?_, fun x hx => ?_, ?_⟩
  · rcases h.closed m' hm' j' hat' hlt hpar with hacc | hk
    · exact .inl (.inl hacc)
    · exact .inr ((hmem _).mpr (.inl hk))
  · obtain rfl : w = j := by omega
    refine ⟨m.header.n.toNat + 1, ?_, .inr ⟨m, hm, hat, rfl⟩, fun m' hm' hat' hlt => ?_⟩
    · dsimp only
      omega
    · -- the number is below the old one, or stored now, or that of `m`
      by_cases hn : m'.header.n.toNat = m.header.n.toNat
      · exact .inl (.inr (hdistinct m' hm' m hm w hat' hat (UInt32.toNat_inj.mp hn)))
      · by_cases hold : m'.header.n.toNat < st.nr.toNat
        · rcases hbelow m' hm' hat' (by omega) with hacc | hk
          · exact .inl (.inl hacc)
          · exact .inr ((hmem _).mpr (.inl hk))
        · exact .inr ((hmem _).mpr (.inr ⟨rfl, not_lt.mp hold, by dsimp only; omega⟩))
  · rcases Finset.mem_insert.mp hx with rfl | hx
    · exact ⟨m, hm, j, hat, hv.symm, rfl, .inr rfl⟩
    · obtain ⟨m', hm', j', hat', hj', hxEq, hacc⟩ := h.received x hx
      exact ⟨m', hm', j', hat', hj', hxEq, .inl hacc⟩
  · have := h.counted
    dsimp only
    rw [Finset.card_insert_of_notMem hnew]
    omega

omit [DecidableEq K] hm hdistinct in
/-- The count is within the `pn` of the next chain. -/
theorem Kept.nr_le_pn {w : ℕ} (hv : v = w + 2)
    (hbound : ∀ m' ∈ sent, SentAt S m' w → m'.header.n.toNat < m.header.pn.toNat) :
    st.nr.toNat ≤ m.header.pn.toNat := by
  obtain ⟨hi, hle, htop, -⟩ := h.current w hv
  rcases htop with rfl | ⟨m', hm', hat', rfl⟩
  · omega
  · have := hbound m' hm' hat'
    omega

/-- A message of the next chain: the rest of the chain before it is stored. -/
theorem Kept.ratchet (hat : SentAt S m v)
    (hbound : ∀ w, v = w + 2 → ∀ m' ∈ sent, SentAt S m' w →
      m'.header.n.toNat < m.header.pn.toNat) {mk₁ mk₂ : SkippedKeyMap K}
    (hprev : StoresPrevious S v st.nr.toNat m.header.pn.toNat st.mkskipped mk₁)
    (hprevRoom : ∀ w, v = w + 2 → NoEviction st.mkskipped.keys.toFinset (S.headerKey w)
      st.nr.toNat m.header.pn.toNat)
    (hstores : Stores P (S.chainKey v 0) (S.headerKey v) 0 m.header.n.toNat mk₁ mk₂)
    (hroom : NoEviction mk₁.keys.toFinset (S.headerKey v) 0 m.header.n.toNat)
    {st' : RatchetState K} (hmk : st'.mkskipped = mk₂) (hnr : st'.nr = 1)
    (hreceived : st'.receivedMessages = {(m.header.dhPub, m.header.n)}) :
    Kept S sent (fun m' => acc m' ∨ m' = m) (v + 2) st' := by
  have hone : (1 : UInt32).toNat = 1 := rfl
  have hmem := fun k => hstores.mem_iff hroom m.header.n.toNat_lt.le (k := k)
  have hmem₁ : ∀ k, k ∈ st.mkskipped → k ∈ mk₁ := by
    intro k hk
    rcases hprev with ⟨-, rfl⟩ | ⟨w, hw, -, -, hst⟩
    · exact hk
    · exact (hst.mem_iff (hprevRoom w hw) m.header.pn.toNat_lt.le).mpr (.inl hk)
  refine ⟨fun m' hm' j' hat' hlt hpar => ?_, fun w hw => ?_, fun x hx => ?_, ?_⟩
  · rw [hmk]
    have hold : acc m' ∨ (S.headerKey j', m'.header.n) ∈ st.mkskipped →
        (acc m' ∨ m' = m) ∨ (S.headerKey j', m'.header.n) ∈ mk₂ := by
      rintro (hacc | hk)
      · exact .inl (.inl hacc)
      · exact .inr ((hmem _).mpr (.inl (hmem₁ _ hk)))
    by_cases hj : j' + 2 < v
    · exact hold (h.closed m' hm' j' hat' hj (by omega))
    · -- the chain that the ratchet closes
      have hv : v = j' + 2 := by omega
      obtain ⟨hi, hle, -, hbelow⟩ := h.current j' hv
      by_cases hn : m'.header.n.toNat < hi
      · exact hold (hbelow m' hm' hat' hn)
      · rcases hprev with ⟨hlt2, -⟩ | ⟨w, hw, -, -, hst⟩
        · omega
        · obtain rfl : w = j' := by omega
          exact .inr ((hmem _).mpr (.inl ((hst.mem_iff (hprevRoom w hw)
            m.header.pn.toNat_lt.le).mpr
              (.inr ⟨rfl, by dsimp only; omega, hbound w hw m' hm' hat'⟩))))
  · obtain rfl : w = v := by omega
    rw [hmk, hnr]
    refine ⟨m.header.n.toNat + 1, by omega, .inr ⟨m, hm, hat, rfl⟩, fun m' hm' hat' hlt => ?_⟩
    by_cases hn : m'.header.n.toNat = m.header.n.toNat
    · exact .inl (.inr (hdistinct m' hm' m hm w hat' hat (UInt32.toNat_inj.mp hn)))
    · exact .inr ((hmem _).mpr (.inr ⟨rfl, by omega, by dsimp only; omega⟩))
  · rw [hreceived, Finset.mem_singleton] at hx
    exact ⟨m, hm, v, hat, rfl, hx, .inr rfl⟩
  · rw [hnr, hreceived, Finset.card_singleton, hone]

end Keeps

/-! ### Every first delivery in the window is accepted -/

/-- What the accepted message `m` leaves behind, in a state with view `v'`. -/
structure LeavesKept (S : Schedule P) (s : Session K) (env : CallEnv K) (m : Sealed K)
    (acc : Sealed K → Prop) (v v' : ℕ) (st st' : RatchetState K) : Prop where
  view : v' = v ∧ st'.rk = st.rk ∨ v' = v + 2 ∧ st'.hkR = some (S.headerKey v) ∧
    st'.dhPair.2 = P.x25519PublicKey env.freshSecret
  kept : Kept S s.sent (fun m' => acc m' ∨ m' = m) v' st'

/-- The keys stored of the previous chains are those in place before the new
chain is reached. -/
theorem StoresPrevious.keys {v : ℕ} {st : RatchetState K} {header : RatchetHeader}
    {mk₁ : SkippedKeyMap K} (hst : Synced S v st)
    (h : StoresPrevious S v st.nr.toNat header.pn.toNat st.mkskipped mk₁)
    (hroom : ∀ w, v = w + 2 → NoEviction st.mkskipped.keys.toFinset (S.headerKey w)
      st.nr.toNat header.pn.toNat) :
    mk₁.keys.toFinset = storedBefore st header true := by
  rcases h with ⟨hlt, rfl⟩ | ⟨w, rfl, -, -, hstores⟩
  · have hnone : st.hkR = none := by
      rw [hst.hkR]
      match v, hlt with
      | 0, _ => rfl
      | 1, _ => rfl
    simp only [storedBefore, hnone]
  · have hsome : st.hkR = some (S.headerKey w) := hst.hkR
    simp only [storedBefore, hsome]
    exact hstores.keys.eq_of_noEviction (hroom w rfl)

section Delivers

variable (hP : Correct P) (hS : S.KdfSeparates) (h : Sync S s) (hnonces : NoncesUsed s)
  {acc : Sealed K → Prop} (hkept : Kept S s.sent acc (view p s.chains.length) (s.state p))
  {m : Sealed K} (hm : m ∈ s.sent) (hnot : ¬ acc m)
  (hauth : AuthenticCall P b s p m.encHeader m.ciphertext m.ad)
  {r : Outcome RatchetError Bytes × RatchetState K}
  (hrec : Receives P S b s p env m.encHeader m.ciphertext m.ad r)

include hP hS h hnonces hkept hm hrec

/-- The stored key of a message opens it. -/
theorem Receives.delivers_stored {j : ℕ} (hat : SentAt S m j)
    (hstored : (S.headerKey j, m.header.n) ∈ (s.state p).mkskipped) :
    r.1 = .ok m.plaintext ∧
      LeavesKept S s env m acc (view p s.chains.length) (view p s.chains.length)
        (s.state p) r.2 := by
  obtain ⟨key, hkey, hopens⟩ := (h.state p).opens_stored hP hS hat hstored
  cases hrec with
  | refused _ hno => exact absurd hopens (hno hat.ad_le _ _ _ hkey)
  | current _ _ _ haccept => exact absurd hopens (haccept.not_skipped _ _ _ hkey)
  | lost _ _ _ haccept => exact absurd hopens (haccept.not_skipped _ _ _ hkey)
  | ratchet _ _ _ haccept => exact absurd hopens (haccept.not_skipped _ _ _ hkey)
  | skipped hm' hat' his =>
    obtain ⟨rfl, rfl⟩ := hnonces.place_inj hS hm' hm his.encHeader hat' hat
    exact ⟨rfl, .inl ⟨rfl, rfl⟩, hkept.skipped hm h.distinct hS hat⟩

include hnot hauth

/-- A message of the chain being received. -/
theorem Receives.delivers_current {j : ℕ} (hat : SentAt S m j)
    (hv : j + 2 = view p s.chains.length)
    (hstored : (S.headerKey j, m.header.n) ∉ (s.state p).mkskipped)
    (hwindow : Window (s.state p) m.header false)
    (hcard : (s.state p).receivedMessages.card < maxReceivedTracking) :
    r.1 = .ok m.plaintext ∧
      LeavesKept S s env m acc (view p s.chains.length) (view p s.chains.length)
        (s.state p) r.2 := by
  have hmax : maxSkip.toNat = 1000 := rfl
  have htrack : maxReceivedTracking = 10000 := rfl
  have hcounted := hkept.counted
  have hreceived : (m.header.dhPub, m.header.n) ∉ (s.state p).receivedMessages := by
    intro hx
    obtain ⟨m', hm', j', hat', hj', hxEq, hacc⟩ := hkept.received _ hx
    obtain rfl : j' = j := by omega
    exact hnot (h.distinct m hm m' hm' j' hat hat' (Prod.mk.inj hxEq).2 ▸ hacc)
  have hlow : (s.state p).nr.toNat ≤ m.header.n.toNat := by
    obtain ⟨hi, hle, -, hbelow⟩ := hkept.current j hv.symm
    by_contra hlt
    rcases hbelow m hm hat (by omega) with hacc | hk
    · exact hnot hacc
    · exact hstored hk
  obtain ⟨mkskipped, nr, hstores, hnr, rfl⟩ := hrec.of_current hP hS h hnonces hm hauth hat hv
    hstored hreceived hlow (by omega) hwindow.number
  have hroom := hwindow.room _ ((h.state p).hkR_eq hv.symm)
  simp only [trackMessage, if_neg (not_le.mpr hcard)]
  exact ⟨trivial, .inl ⟨rfl, rfl⟩,
    hkept.commit hm h.distinct hat hv.symm hstored hnot _ hstores hroom hnr⟩

omit hnot in
/-- A message of the next chain. -/
theorem Receives.delivers_next (hpn : PnBounds S s)
    (hfresh : ∀ j, j + 2 ≤ s.chains.length → S.pub (j + 2) ≠ S.pub j)
    (hat : SentAt S m (view p s.chains.length)) (hwindow : Window (s.state p) m.header true) :
    r.1 = .ok m.plaintext ∧ LeavesKept S s env m acc (view p s.chains.length)
      (view p s.chains.length + 2) (s.state p) r.2 := by
  have hp := h.state p
  have hlt := h.length_lt hS hm hat
  have hreceived : (m.header.dhPub, m.header.n) ∉ (s.state p).receivedMessages := by
    intro hx
    obtain ⟨m', hm', j', hat', hj', hxEq, -⟩ := hkept.received _ hx
    refine hfresh (j' + 1) (by omega) ?_
    rw [← hat'.dhPub, ← (Prod.mk.inj hxEq).1, hat.dhPub, ← hj']
  have hprevious := fun w hw => hwindow.previous rfl (S.headerKey w) (hp.hkR_eq hw)
  have hbound : ∀ w, view p s.chains.length = w + 2 → ∀ m' ∈ s.sent, SentAt S m' w →
      m'.header.n.toNat < m.header.pn.toNat :=
    fun w hw m' hm' hat' => hpn.bound m' hm' m hm w hat' (hw ▸ hat)
  have hrange : 2 ≤ view p s.chains.length → (s.state p).nr.toNat ≤ m.header.pn.toNat ∧
      m.header.pn.toNat ≤ (s.state p).nr.toNat + maxSkip.toNat := by
    intro hge
    obtain ⟨w, hw⟩ : ∃ w, view p s.chains.length = w + 2 := ⟨_, (Nat.sub_add_cancel hge).symm⟩
    exact ⟨hkept.nr_le_pn hw (hbound w hw), (hprevious w hw).1⟩
  obtain ⟨mk₁, mk₂, hprev, hstores, rfl⟩ := hrec.of_next hP hS h hnonces hm hauth hat hreceived
    (by simpa using hwindow.number) hrange
  have hprevRoom := fun w hw => (hprevious w hw).2
  have hroom := hwindow.room _ (show _ ∈ some (s.state p).nhkR from rfl)
  rw [← hprev.keys hp hprevRoom, hp.nhkR] at hroom
  exact ⟨rfl, .inr ⟨rfl, congrArg some hp.nhkR, rfl⟩,
    hkept.ratchet hm h.distinct hat hbound hprev hprevRoom hstores hroom rfl rfl rfl⟩

/-- **A first delivery in the window returns the plaintext**, whichever route
answers it. -/
theorem Receives.delivers (howner : m.owner = p.peer) (hpn : PnBounds S s)
    (hfresh : ∀ j, j + 2 ≤ s.chains.length → S.pub (j + 2) ≠ S.pub j)
    (hwindow : InWindow P s (.decrypt p env m.encHeader m.ciphertext m.ad))
    (hcard : m.headerKey = (s.state p).hkR →
      (s.state p).receivedMessages.card < maxReceivedTracking) :
    r.1 = .ok m.plaintext ∧
      ∃ v', LeavesKept S s env m acc (view p s.chains.length) v' (s.state p) r.2 := by
  have hp := h.state p
  obtain ⟨j, hj, hat⟩ := h.sent m hm
  have hpar := (partyOf_eq_peer h.pos).mp (hat.owner.symm.trans howner)
  have hview := view_le p s.chains.length
  by_cases hstored : (S.headerKey j, m.header.n) ∈ (s.state p).mkskipped
  · have hres := hrec.delivers_stored hP hS h hnonces hkept hm hat hstored
    exact ⟨hres.1, _, hres.2⟩
  · rcases Nat.lt_trichotomy (j + 2) (view p s.chains.length) with hlt | hv | hgt
    · rcases hkept.closed m hm j hat hlt hpar with hacc | hk
      · exact absurd hacc hnot
      · exact absurd hk hstored
    · have hhkR : (s.state p).hkR = some (S.headerKey j) := hp.hkR_eq hv.symm
      rw [InWindow, decryptHeader_current hP h hat hv] at hwindow
      have hin := hwindow fun hk hhk => by
        obtain rfl : S.headerKey j = hk := Option.some_inj.mp (hhkR.symm.trans hhk)
        exact hstored
      have hres := hrec.delivers_current hP hS h hnonces hkept hm hnot hauth hat hv hstored hin
        (hcard (hat.headerKey.trans hhkR.symm))
      exact ⟨hres.1, _, hres.2⟩
    · obtain rfl : j = view p s.chains.length := by omega
      rw [InWindow, decryptHeader_next hP hS h hnonces hm hauth hat] at hwindow
      have hin := hwindow fun hk hhk => by
        obtain rfl : (s.state p).nhkR = hk := Option.some_inj.mp hhk
        rw [hp.nhkR]
        exact hstored
      have hres := hrec.delivers_next hP hS h hnonces hkept hm hauth hpn hfresh hat hin
      exact ⟨hres.1, _, hres.2⟩

end Delivers

end Ratchet
