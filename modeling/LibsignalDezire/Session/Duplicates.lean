/-
What is reported as a duplicate.

The chain route tracks the numbers it accepts; a message accepted from the stored
keys is not tracked, and the skip loop may store a tracked number again.

* `Tracked` — an accepted message of the chain being received is tracked and its key
  is not stored;
* `Recorded` — only accepted messages of that chain are tracked;
* `duplicates_reported` — while neither happens, every accepted message of the chain
  being received is reported as a duplicate; no other genuine message ever is.
-/
import LibsignalDezire.Ratchet.Presence
import LibsignalDezire.Session.NothingLost

namespace Ratchet

variable {K : Type} [DecidableEq K] (P : Primitives K)

/-! ### How the tracking fails -/

/-- A stored key of the chain being received opens the message. -/
def answersCurrent (st : RatchetState K) (encHeader ciphertext ad : Bytes) : Bool :=
  st.mkskipped.keys.any fun k =>
    st.hkR = some k.1 &&
      match st.mkskipped.lookup k, decryptHeaderWithKey P k.1 encHeader with
      | some key, .ok header =>
        header.n = k.2 && (decryptAead P key.mk ciphertext (concatAd ad encHeader)).isOk
      | _, _ => false

/-- The message is committed on the chain being received, and the skip loop passes a
number that is tracked. -/
def storesTracked (b : Build) (st : RatchetState K) (encHeader ciphertext ad : Bytes) : Bool :=
  match decryptHeader P st encHeader with
  | .ok (header, false) =>
    (header.dhPub, header.n) ∉ st.receivedMessages &&
      ((∃ x ∈ st.receivedMessages, st.nr ≤ x.2 ∧ x.2 < header.n) : Bool) &&
      match computeMessageKey P b st header false with
      | .ok key => (decryptAead P key ciphertext (concatAd ad encHeader)).isOk
      | _ => false
  | _ => false

/-- The call keeps track of what is accepted on the chain being received. -/
def KeepsTrack (b : Build) (s : Session K) : Event K → Prop
  | .encrypt .. => True
  | .decrypt p _ encHeader ciphertext ad =>
    answersCurrent P (s.state p) encHeader ciphertext ad = false ∧
      storesTracked P b (s.state p) encHeader ciphertext ad = false

instance (b : Build) (s : Session K) : DecidablePred (KeepsTrack P b s)
  | .encrypt .. => isTrue trivial
  | .decrypt p _ encHeader ciphertext ad =>
    inferInstanceAs (Decidable (answersCurrent P (s.state p) encHeader ciphertext ad = false ∧
      storesTracked P b (s.state p) encHeader ciphertext ad = false))

variable {P} {b : Build} {s : Session K} {S : Schedule P} {p : Party} {env : CallEnv K}
  {encHeader ciphertext ad : Bytes} {v v' : ℕ} {st : RatchetState K}

theorem answersCurrent_of_opens {k : K × UInt32} {key : SkippedKey K} {q : Bytes}
    (hhk : st.hkR = some k.1) (hk : st.mkskipped.lookup k = some key)
    (hopens : Opens P k key encHeader ciphertext (concatAd ad encHeader) q) :
    answersCurrent P st encHeader ciphertext ad = true := by
  obtain ⟨header, hhdr, hn, hbody⟩ := hopens
  have hmem : k ∈ st.mkskipped.keys := by
    rw [← AList.mem_keys, ← AList.lookup_isSome, hk]
    rfl
  refine List.any_eq_true.mpr ⟨k, hmem, ?_⟩
  simp [hhk, hk, hhdr, hn, hbody, Outcome.isOk]

/-- A commit that keeps track skips no tracked number. -/
theorem Authenticates.skips_untracked {header : RatchetHeader} {q : Bytes}
    (h : Authenticates P b st encHeader ciphertext ad header false q)
    (hkeeps : storesTracked P b st encHeader ciphertext ad = false)
    {x : DhPublicKey × UInt32} (hx : x ∈ st.receivedMessages) :
    ¬ (st.nr.toNat ≤ x.2.toNat ∧ x.2.toNat < header.n.toNat) := by
  obtain ⟨key, hkey, hopen⟩ := h.opens
  rintro ⟨hle, hlt⟩
  have hpasses : ∃ x ∈ st.receivedMessages, st.nr ≤ x.2 ∧ x.2 < header.n :=
    ⟨x, hx, UInt32.le_iff_toNat_le.mpr hle, UInt32.lt_iff_toNat_lt.mpr hlt⟩
  simp [storesTracked, h.header_eq, h.not_received, hpasses, hkey, hopen, Outcome.isOk] at hkeeps

/-! ### Accepted messages are tracked -/

/-- A message of chain `j` that was accepted: if the chain is the one being received,
the message is tracked and its key is not stored. -/
structure Tracked (S : Schedule P) (v : ℕ) (st : RatchetState K) (m : Sealed K) (j : ℕ) :
    Prop where
  le_view : j + 2 ≤ v
  tracked : j + 2 = v → (m.header.dhPub, m.header.n) ∈ st.receivedMessages
  not_stored : j + 2 = v → (S.headerKey j, m.header.n) ∉ st.mkskipped

omit [DecidableEq K] in
/-- A map that lost entries. -/
theorem Tracked.of_subset {m : Sealed K} {j : ℕ} (h : Tracked S v st m j) {st' : RatchetState K}
    (hsub : ∀ k ∈ st'.mkskipped, k ∈ st.mkskipped)
    (hreceived : st'.receivedMessages = st.receivedMessages) : Tracked S v st' m j :=
  ⟨h.le_view, fun hv => hreceived ▸ h.tracked hv, fun hv hk => h.not_stored hv (hsub _ hk)⟩

theorem Receives.carriesTracked (hP : Correct P) (hS : S.KdfSeparates) (h : Sync S s)
    (hanswers : answersCurrent P (s.state p) encHeader ciphertext ad = false)
    (hkeeps : storesTracked P b (s.state p) encHeader ciphertext ad = false)
    {r : Outcome RatchetError Bytes × RatchetState K}
    (hrec : Receives P S b s p env encHeader ciphertext ad r) :
    ∃ v', Carries S (Tracked S) s p encHeader v' r := by
  cases hrec with
  | refused ho =>
    exact ⟨_, .inl ⟨rfl, rfl⟩, fun _ _ h => h, fun q hq => absurd hq (ho q)⟩
  | @skipped m j hm hat his hle hpar hstored =>
    have hsub : ∀ k ∈ (s.state p).mkskipped.erase (S.headerKey j, m.header.n),
        k ∈ (s.state p).mkskipped := fun k hk => (AList.mem_erase.mp hk).2
    -- the key belongs to a chain that was left
    have hleft : j + 2 ≠ view p s.chains.length := by
      intro hv
      obtain ⟨key, hkey, hopens⟩ := (h.state p).opens_stored hP hS hat hstored
      rw [his.encHeader, his.ciphertext, his.ad] at hopens
      rw [answersCurrent_of_opens ((h.state p).hkR_eq hv.symm) hkey hopens] at hanswers
      cases hanswers
    exact ⟨_, .inl ⟨rfl, rfl⟩, fun m' j' hm' => hm'.of_subset hsub rfl,
      fun q _ => ⟨m, hm, j, hat,
      his.encHeader, hle, fun hv => absurd hv hleft, fun hv => absurd hv hleft⟩⟩
  | @current m j mkskipped nr hm hat his haccept hview hle hstores hnr =>
    have hold : ∀ received, (s.state p).receivedMessages ⊆ received → ∀ m' j',
        Tracked S (view p s.chains.length) (s.state p) m' j' →
        Tracked S (view p s.chains.length) { s.state p with
          mkskipped, ckR := some (S.chainKey j nr.toNat), nr
          receivedMessages := received } m' j' := by
      intro received hsub m' j' hm'
      refine ⟨hm'.le_view, fun hv => hsub (hm'.tracked hv), fun hv hk => ?_⟩
      -- a number stored now was not tracked
      rcases hstores.mem hk with hk | ⟨-, h1, h2⟩
      · exact hm'.not_stored hv hk
      · exact haccept.skips_untracked hkeeps (hm'.tracked hv) ⟨h1, h2⟩
    have hnew : Tracked S (view p s.chains.length) { s.state p with
        mkskipped, ckR := some (S.chainKey j nr.toNat), nr
        receivedMessages := insert (m.header.dhPub, m.header.n) (s.state p).receivedMessages }
        m j := by
      refine ⟨hview.le, fun _ => Finset.mem_insert_self _ _, fun _ hk => ?_⟩
      rcases hstores.mem hk with hk | ⟨-, -, hlt⟩
      · obtain ⟨key, hkey, hopens⟩ := (h.state p).opens_stored hP hS hat hk
        rw [his.encHeader, his.ciphertext, his.ad] at hopens
        exact haccept.not_skipped _ key _ hkey hopens
      · exact lt_irrefl _ hlt
    simp only [trackMessage]
    split
    · exact ⟨_, .inl ⟨rfl, rfl⟩, hold _ subset_rfl, by simp⟩
    · exact ⟨_, .inl ⟨rfl, rfl⟩, hold _ (Finset.subset_insert _ _),
        fun q _ => ⟨m, hm, j, hat, his.encHeader, hnew⟩⟩
  | lost =>
    exact ⟨_, .inl ⟨rfl, rfl⟩, fun m' j' hm' => hm'.of_subset
      (fun k hk => absurd hk (AList.notMem_empty k)) rfl, by simp⟩
  | @ratchet m mk₁ mk₂ hm hat his haccept hprev hstores =>
    refine ⟨view p s.chains.length + 2, .inr ⟨rfl, congrArg some (h.state p).nhkR⟩,
      fun m' j' hm' => ?_, fun q _ => ⟨m, hm, _, hat, his.encHeader, le_refl _,
        fun _ => Finset.mem_singleton_self _, fun _ hk => ?_⟩⟩
    -- what was accepted before belongs to an earlier chain
    · have := hm'.le_view
      exact ⟨by omega, fun hv => by omega, fun hv => by omega⟩
    · rcases hstores.mem hk with hk | ⟨-, -, hlt⟩
      · rcases hprev.mem hk with hk | ⟨w, hw, h1, -⟩
        · exact (h.state p).not_stored_next hS _ hk
        · have := hat.le_length_succ
          have := Schedule.headerKey_inj hS hat.le_length_succ (by omega) h1
          omega
      · exact lt_irrefl _ hlt

/-- **In a run that keeps track every accepted message is tracked.** -/
theorem Reachable.tracked (hP : Correct P) {sk : K} {bob : DhPrivateKey}
    (hS : S.KdfSeparates)
    (h : Reachable P b sk bob (fun s e => Authentic P b s e ∧ KeepsTrack P b s e) s)
    (hagrees : Agrees S sk bob s) : EachAccepted S (Tracked S) s := by
  refine h.sync_invariant hP hS (fun s e he => he.1) (fun dhS s₀ h₀ hs o ho => ?_)
    (fun s e _ hs hs' ih he => ?_) hagrees
  · rw [(Session.start_fresh h₀).opened] at ho
    cases ho
  · cases e with
    | encrypt p plaintext ad =>
      exact ih.encrypt (fun v st st' m j hsame hm => hm.of_subset
        (by rw [hsame.mkskipped]; exact fun _ hk => hk) hsame.receivedMessages) p plaintext ad
    | decrypt p env encHeader ciphertext ad =>
      have hrec := receives env hP hS hs he.1
      obtain ⟨v', hcarries⟩ := hrec.carriesTracked hP hS hs he.2.1 he.2.2
      exact ih.decrypt hS hs hs' hcarries

/-- A tracked message whose key is not stored is reported as a duplicate. -/
theorem Tracked.reported (hP : Correct P) (hS : S.KdfSeparates) (h : Sync S s)
    (hnonces : NoncesUsed s) {m : Sealed K} (hm : m ∈ s.sent) {j : ℕ} (hat : SentAt S m j)
    (hv : j + 2 = view p s.chains.length)
    (htracked : Tracked S (view p s.chains.length) (s.state p) m j)
    (hauth : AuthenticCall P b s p m.encHeader m.ciphertext m.ad) (env : CallEnv K) :
    decrypt P b env m.encHeader m.ciphertext m.ad (s.state p)
      = (.err .duplicateMessage, s.state p) := by
  have hskip := not_opens_of_not_stored hP hS h hnonces hm hauth hat (htracked.not_stored hv)
  rw [decrypt_of_not_skipped P hat.ad_le hskip, decryptHeader_current hP h hat hv]
  exact if_pos (htracked.tracked hv)

/-! ### Tracked messages were accepted -/

/-- What a party tracks are messages of the chain being received that it accepted. -/
def Recorded (S : Schedule P) (s : Session K) : Prop :=
  ∀ p, ∀ x ∈ (s.state p).receivedMessages, ∃ m ∈ s.sent, ∃ j, SentAt S m j ∧
    j + 2 = view p s.chains.length ∧ x = (m.header.dhPub, m.header.n) ∧ Accepted s p m

/-- A call keeps what was tracked on the chain, or tracks the message it accepts. -/
theorem Receives.tracks (h : Sync S s) {r : Outcome RatchetError Bytes × RatchetState K}
    (hrec : Receives P S b s p env encHeader ciphertext ad r) :
    ∃ v', MovesView S (view p s.chains.length) v' (s.state p) r.2 ∧
      ∀ x ∈ r.2.receivedMessages,
        v' = view p s.chains.length ∧ x ∈ (s.state p).receivedMessages ∨
        ∃ m ∈ s.sent, ∃ j, SentAt S m j ∧ j + 2 = v' ∧ m.encHeader = encHeader ∧
          x = (m.header.dhPub, m.header.n) ∧ r.1 = .ok m.plaintext := by
  cases hrec with
  | refused => exact ⟨_, .inl ⟨rfl, rfl⟩, fun x hx => .inl ⟨rfl, hx⟩⟩
  | skipped => exact ⟨_, .inl ⟨rfl, rfl⟩, fun x hx => .inl ⟨rfl, hx⟩⟩
  | lost => exact ⟨_, .inl ⟨rfl, rfl⟩, fun x hx => .inl ⟨rfl, hx⟩⟩
  | @current m j mkskipped nr hm hat his haccept hview =>
    simp only [trackMessage]
    split
    · exact ⟨_, .inl ⟨rfl, rfl⟩, fun x hx => .inl ⟨rfl, hx⟩⟩
    · refine ⟨_, .inl ⟨rfl, rfl⟩, fun x hx => ?_⟩
      rcases Finset.mem_insert.mp hx with rfl | hx
      · exact .inr ⟨m, hm, j, hat, hview, his.encHeader, rfl, rfl⟩
      · exact .inl ⟨rfl, hx⟩
  | @ratchet m mk₁ mk₂ hm hat his =>
    refine ⟨_, .inr ⟨rfl, congrArg some (h.state p).nhkR⟩, fun x hx => .inr ?_⟩
    exact ⟨m, hm, _, hat, rfl, his.encHeader, Finset.mem_singleton.mp hx, rfl⟩

omit [DecidableEq K] in
theorem Recorded.encrypt (h : Recorded S s) (p : Party) (plaintext ad : Bytes) :
    Recorded S (s.encrypt P p plaintext ad) := by
  obtain ⟨hsame, hopened, hchains, hsent⟩ := Session.encrypt_frame (P := P) s p plaintext ad
  intro q x hx
  rw [(hsame q).receivedMessages] at hx
  obtain ⟨m, hm, j, hat, hv, hxEq, hacc⟩ := h q x hx
  refine ⟨m, ?_, j, hat, by rw [hchains]; exact hv, hxEq, ?_⟩
  · rcases hsent with hsent | ⟨m', hsent, -⟩
    · rwa [hsent]
    · rw [hsent]
      exact List.mem_cons_of_mem _ hm
  · rwa [Accepted, hopened]

theorem Recorded.decrypt (hP : Correct P) (hS : S.KdfSeparates) (hsync : Sync S s)
    (h : Recorded S s) (hauth : AuthenticCall P b s p encHeader ciphertext ad)
    (hafter : Sync S (s.decrypt P b p env encHeader ciphertext ad)) :
    Recorded S (s.decrypt P b p env encHeader ciphertext ad) := by
  obtain ⟨v', hmoves, htracks⟩ := (receives env hP hS hsync hauth).tracks hsync
  have hview := hsync.view_decrypt hS hafter hmoves
  obtain ⟨o, st, hres⟩ : ∃ o st, Ratchet.decrypt P b env encHeader ciphertext ad (s.state p)
      = (o, st) := ⟨_, _, rfl⟩
  rw [hres] at htracks
  have hst := Session.decrypt_state_self hres
  have hkeep : ∀ q m, Accepted s q m →
      Accepted (s.decrypt P b p env encHeader ciphertext ad) q m :=
    fun q m hm => hm.step (.decrypt p env encHeader ciphertext ad)
  intro q x hx
  by_cases hq : q = p
  · subst hq
    rw [hst] at hx
    rw [hview]
    rcases htracks x hx with ⟨rfl, hx⟩ | ⟨m, hm, j, hat, hv, henc, hxEq, rfl⟩
    · obtain ⟨m, hm, j, hat, hv, hxEq, hacc⟩ := h q x hx
      exact ⟨m, hm, j, hat, hv, hxEq, hkeep q m hacc⟩
    · exact ⟨m, hm, j, hat, hv, hxEq, accepted_of_decrypt henc hres⟩
  · rw [Session.decrypt_state_of_ne hq] at hx
    obtain ⟨m, hm, j, hat, hv, hxEq, hacc⟩ := h q x hx
    exact ⟨m, hm, j, hat, by rwa [hsync.view_decrypt_of_ne hS hafter hq], hxEq, hkeep q m hacc⟩

/-- Only accepted messages are tracked, and no party draws a key pair twice in a
row. -/
theorem Reachable.recorded (hP : Correct P) {sk : K} {bob : DhPrivateKey}
    (hS : S.KdfSeparates)
    (h : Reachable P b sk bob (fun s e => Authentic P b s e ∧ DrawsFresh P s e) s)
    (hagrees : Agrees S sk bob s) :
    Recorded S s ∧ ∀ j, j + 2 ≤ s.chains.length → S.pub (j + 2) ≠ S.pub j := by
  refine h.sync_invariant (I := fun s => Recorded S s ∧
      ∀ j, j + 2 ≤ s.chains.length → S.pub (j + 2) ≠ S.pub j) hP hS (fun s e he => he.1)
    (fun dhS s₀ h₀ hs => ⟨fun p x hx => ?_, fun j hj => ?_⟩)
    (fun s e _ hs hs' ih he => ?_) hagrees
  · rw [(Session.start_fresh h₀).receivedMessages] at hx
    cases hx
  · have := (Session.start_fresh h₀).chains
    omega
  · cases e with
    | encrypt p plaintext ad =>
      refine ⟨ih.1.encrypt p plaintext ad, ?_⟩
      rw [Session.step, (Session.encrypt_frame s p plaintext ad).2.2.1]
      exact ih.2
    | decrypt p env encHeader ciphertext ad =>
      exact ⟨ih.1.decrypt hP hS hs he.1 hs',
        hs.fresh_decrypt hP hS ih.2 he.1 he.2 hs'⟩

/-- A message that is reported as a duplicate was accepted. -/
theorem Recorded.accepted (hP : Correct P) (hS : S.KdfSeparates) (h : Sync S s)
    (hnonces : NoncesUsed s) (hrecorded : Recorded S s)
    (hfresh : ∀ j, j + 2 ≤ s.chains.length → S.pub (j + 2) ≠ S.pub j) {m : Sealed K}
    (hm : m ∈ s.sent) (hauth : AuthenticCall P b s p m.encHeader m.ciphertext m.ad)
    (hdup : (Ratchet.decrypt P b env m.encHeader m.ciphertext m.ad (s.state p)).1
      = .err .duplicateMessage) : Accepted s p m := by
  obtain ⟨header, f, hhdr, hx⟩ := decrypt_eq_duplicate hdup
  obtain ⟨m₁, hm₁, j, hat, henc, rfl, hf, ht⟩ := decryptHeader_agrees hP hS h hauth hhdr
  obtain rfl := hnonces.encHeader_inj hm₁ hm henc
  obtain ⟨m', hm', j', hat', hj', hxEq, hacc⟩ := hrecorded p _ hx
  obtain ⟨hdh, hn⟩ := Prod.mk.inj hxEq
  cases f with
  | false =>
    have hj := hf rfl
    obtain rfl : j' = j := by omega
    obtain rfl := h.distinct m₁ hm m' hm' j' hat hat' hn
    exact hacc
  | true =>
    -- a message of the next chain has another DH key than the tracked ones
    have hj := ht rfl
    obtain rfl : j = j' + 2 := by omega
    have hlt := h.length_lt hS hm hat
    rw [hat.dhPub, hat'.dhPub] at hdh
    exact absurd hdh (hfresh (j' + 1) (by omega))

/-! ### Duplicates -/

omit [DecidableEq K] in
/-- An accepted message of the chain being received is tracked. -/
theorem EachAccepted.tracked (hS : S.KdfSeparates) (hnonces : NoncesUsed s)
    (haccepted : EachAccepted S (Tracked S) s) {m : Sealed K} (hm : m ∈ s.sent) {j : ℕ}
    (hat : SentAt S m j) (hacc : Accepted s p m) :
    Tracked S (view p s.chains.length) (s.state p) m j := by
  obtain ⟨o, ho, rfl, henc⟩ := hacc
  obtain ⟨m', hm', j', hat', henc', htracked⟩ := haccepted o ho
  obtain ⟨rfl, rfl⟩ := hnonces.place_inj hS hm' hm (henc'.trans henc) hat' hat
  exact htracked

/-- **Duplicates are reported.**  In every run that keeps track, an accepted message
of the chain being received is reported as a duplicate when it is delivered again,
and the state is left unchanged.  In every run with fresh key pairs, a genuine
message that is reported as a duplicate was accepted before. -/
theorem duplicates_reported (hP : Correct P) {sk : K} {bob dhS : DhPrivateKey}
    {s₀ : Session K} (h₀ : Session.start P sk bob dhS = .ok s₀) {es : List (Event K)}
    (hS : ((Machine.run (Session.step P b) s₀ es).schedule P sk bob).KdfSeparates)
    (hes : Machine.Along (Session.step P b) (Authentic P b) s₀ es)
    {m : Sealed K} (hm : m ∈ (Machine.run (Session.step P b) s₀ es).sent) {p : Party}
    (hauth : AuthenticCall P b (Machine.run (Session.step P b) s₀ es) p m.encHeader
      m.ciphertext m.ad) (env : CallEnv K) :
    (Machine.Along (Session.step P b) (KeepsTrack P b) s₀ es →
      Accepted (Machine.run (Session.step P b) s₀ es) p m →
      m.headerKey = ((Machine.run (Session.step P b) s₀ es).state p).hkR →
      decrypt P b env m.encHeader m.ciphertext m.ad
          ((Machine.run (Session.step P b) s₀ es).state p)
        = (.err .duplicateMessage, (Machine.run (Session.step P b) s₀ es).state p)) ∧
    (Machine.Along (Session.step P b) (DrawsFresh P) s₀ es →
      (decrypt P b env m.encHeader m.ciphertext m.ad
        ((Machine.run (Session.step P b) s₀ es).state p)).1 = .err .duplicateMessage →
      Accepted (Machine.run (Session.step P b) s₀ es) p m) := by
  have hreach : Reachable P b sk bob (Authentic P b) (Machine.run (Session.step P b) s₀ es) :=
    ⟨dhS, s₀, es, h₀, hes, rfl⟩
  have hagrees := agrees_schedule (P := P) sk bob (Machine.run (Session.step P b) s₀ es)
  have hsync := hreach.sync hP hS hagrees
  refine ⟨fun hkeeps hacc hhk => ?_, fun hdraws hdup => ?_⟩
  · have htracks : Reachable P b sk bob (fun s e => Authentic P b s e ∧ KeepsTrack P b s e)
        (Machine.run (Session.step P b) s₀ es) := ⟨dhS, s₀, es, h₀, hes.and hkeeps, rfl⟩
    obtain ⟨j, -, hat⟩ := hsync.sent m hm
    have hv := hsync.view_eq_of_hkR hS hat.le_length_succ (hhk.symm.trans hat.headerKey)
    exact ((htracks.tracked hP hS hagrees).tracked hS hreach.noncesUsed hm hat hacc).reported
      hP hS hsync hreach.noncesUsed hm hat hv.symm hauth env
  · have hfresh : Reachable P b sk bob (fun s e => Authentic P b s e ∧ DrawsFresh P s e)
        (Machine.run (Session.step P b) s₀ es) := ⟨dhS, s₀, es, h₀, hes.and hdraws, rfl⟩
    obtain ⟨hrecorded, hpub⟩ := hfresh.recorded hP hS hagrees
    exact hrecorded.accepted hP hS hsync hreach.noncesUsed hpub hm hauth hdup

open Symbolic in
/-- Message 2 is accepted after a gap, and delivered again. -/
theorem duplicates_reported_after_gap :
    decrypt primitives .release (Symbolic.env 4) (message 2).encHeader (message 2).ciphertext
        (message 2).ad ((Machine.run (Session.step primitives .release) session
          (threeSent ++ [receive 2])).state .responder)
      = (.err .duplicateMessage, (Machine.run (Session.step primitives .release) session
          (threeSent ++ [receive 2])).state .responder) := by
  have hes : Machine.Along (Session.step primitives .release) (Authentic primitives .release)
      session (threeSent ++ [receive 2]) := by
    decide +kernel
  have hm : message 2 ∈ (after (threeSent ++ [receive 2])).sent := by decide +kernel
  have hauth : AuthenticCall primitives .release (after (threeSent ++ [receive 2])) .responder
      (message 2).encHeader (message 2).ciphertext (message 2).ad := by
    decide +kernel
  have hkeeps : Machine.Along (Session.step primitives .release) (KeepsTrack primitives .release)
      session (threeSent ++ [receive 2]) := by
    decide +kernel
  have hacc : Accepted (after (threeSent ++ [receive 2])) .responder (message 2) := by
    decide +kernel
  have hreported :=
    duplicates_reported correct start (Schedule.kdfSeparates collisionFree) hes hm hauth
      (Symbolic.env 4)
  refine hreported.1 hkeeps hacc ?_
  decide +kernel

open Symbolic in
/-- **Duplicates that are not reported.**  Message 0, accepted from the stored keys
after message 1, is refused as forged; message 1, passed by the skip loop for
message 2, is accepted once more. -/
theorem unreported_duplicates :
    Machine.Along (Session.step primitives .release) (Authentic primitives .release) session
      (threeSent ++ [receive 1, receive 0, receive 0]) ∧
    (Accepted (after (threeSent ++ [receive 1, receive 0])) .responder (message 0) ∧
      (message 0).headerKey
        = ((after (threeSent ++ [receive 1, receive 0])).state .responder).hkR ∧
      (decrypt primitives .release (Symbolic.env 3) (message 0).encHeader (message 0).ciphertext
        (message 0).ad ((after (threeSent ++ [receive 1, receive 0])).state .responder)).1
          = .err .decryptionFailed) ∧
    Machine.Along (Session.step primitives .release) (Authentic primitives .release) session
      (threeSent ++ [receive 1, receive 2, receive 1]) ∧
    Accepted (after (threeSent ++ [receive 1, receive 2])) .responder (message 1) ∧
      (message 1).headerKey
        = ((after (threeSent ++ [receive 1, receive 2])).state .responder).hkR ∧
      (decrypt primitives .release (Symbolic.env 3) (message 1).encHeader (message 1).ciphertext
        (message 1).ad ((after (threeSent ++ [receive 1, receive 2])).state .responder)).1
          = .ok [0x62] := by
  decide +kernel

end Ratchet
