/-
Nothing is lost in the window, in any run.

* `NothingLost` — both receivers keep every number passed over;
* `delivered_in_window` — **when every delivery stays in the window, every first
  delivery of a genuine message returns its plaintext**.
-/
import LibsignalDezire.Session.Record
import LibsignalDezire.Session.Delivery

namespace Ratchet

variable {K : Type} [DecidableEq K] {P : Primitives K} {b : Build} {s : Session K}
  {S : Schedule P} {p : Party} {env : CallEnv K} {encHeader ciphertext ad : Bytes}

/-- Both receivers keep every number passed over, and no key pair is drawn twice
in a row by a party. -/
structure NothingLost (S : Schedule P) (s : Session K) : Prop where
  kept : ∀ p, Kept S s.sent (Accepted s p) (view p s.chains.length) (s.state p)
  fresh : ∀ j, j + 2 ≤ s.chains.length → S.pub (j + 2) ≠ S.pub j

/-! ### One more message, one more acceptance -/

omit [DecidableEq K] in
theorem Kept.mono {sent : List (Sealed K)} {acc acc' : Sealed K → Prop} {v : ℕ}
    {st : RatchetState K} (h : Kept S sent acc v st) (hacc : ∀ m, acc m → acc' m) :
    Kept S sent acc' v st := by
  refine ⟨fun m hm j hat hlt hpar => ?_, fun w hw => ?_, fun x hx => ?_, h.counted⟩
  · exact (h.closed m hm j hat hlt hpar).imp_left (hacc m)
  · obtain ⟨hi, hle, htop, hbelow⟩ := h.current w hw
    exact ⟨hi, hle, htop, fun m hm hat hlt => (hbelow m hm hat hlt).imp_left (hacc m)⟩
  · obtain ⟨m, hm, j, hat, hj, hxEq, hm'⟩ := h.received x hx
    exact ⟨m, hm, j, hat, hj, hxEq, hacc m hm'⟩

omit [DecidableEq K] in
/-- A message sent now is ahead of all that was passed over. -/
theorem Kept.cons {sent : List (Sealed K)} {acc : Sealed K → Prop} {v : ℕ}
    {st st' : RatchetState K} (h : Kept S sent acc v st) {m₀ : Sealed K}
    (hnew : ∀ j, SentAt S m₀ j → (j + v) % 2 = 0 → v ≤ j + 2 ∧
      ∀ m ∈ sent, SentAt S m j → m.header.n.toNat < m₀.header.n.toNat)
    (hsame : Session.SameReceiving st st') : Kept S (m₀ :: sent) acc v st' := by
  refine ⟨fun m hm j hat hlt hpar => ?_, fun w hw => ?_, fun x hx => ?_, ?_⟩
  · rw [hsame.mkskipped]
    rcases List.mem_cons.mp hm with rfl | hm
    · have := (hnew j hat hpar).1
      omega
    · exact h.closed m hm j hat hlt hpar
  · obtain ⟨hi, hle, htop, hbelow⟩ := h.current w hw
    rw [hsame.mkskipped, hsame.nr]
    refine ⟨hi, hle, htop.imp_right fun ⟨m, hm, hmem⟩ => ⟨m, List.mem_cons_of_mem _ hm, hmem⟩,
      fun m hm hat hlt => ?_⟩
    rcases List.mem_cons.mp hm with rfl | hm
    · rcases htop with rfl | ⟨m', hm', hat', rfl⟩
      · omega
      · have := (hnew w hat (by omega)).2 m' hm' hat'
        omega
    · exact hbelow m hm hat hlt
  · rw [hsame.receivedMessages] at hx
    obtain ⟨m, hm, hmem⟩ := h.received x hx
    exact ⟨m, List.mem_cons_of_mem _ hm, hmem⟩
  · rw [hsame.nr, hsame.receivedMessages]
    exact h.counted

theorem NothingLost.encrypt (hS : S.KdfSeparates) (h : Sync S s) (hlost : NothingLost S s)
    (plaintext ad : Bytes) : NothingLost S (s.encrypt P p plaintext ad) := by
  obtain ⟨hsame, hopened, hchains, hsent⟩ := Session.encrypt_frame (P := P) s p plaintext ad
  refine ⟨fun q => ?_, by rw [hchains]; exact hlost.fresh⟩
  have hacc : ∀ m, Accepted s q m → Accepted (s.encrypt P p plaintext ad) q m := by
    intro m hm
    rwa [Accepted, hopened]
  have hq := hlost.kept q
  rcases hsent with hsent | ⟨m₀, hsent, howner, hheader, hhk⟩
  · rw [hsent, hchains]
    refine (Kept.mono ⟨?_, ?_, ?_, ?_⟩ hacc)
    · rw [(hsame q).mkskipped]
      exact hq.closed
    · rw [(hsame q).mkskipped, (hsame q).nr]
      exact hq.current
    · rw [(hsame q).receivedMessages]
      exact hq.received
    · rw [(hsame q).nr, (hsame q).receivedMessages]
      exact hq.counted
  · rw [hsent, hchains]
    refine (hq.cons (fun j hat hpar => ?_) (hsame q)).mono hacc
    have hj := h.view_of_hkS hS hhk hat
    refine ⟨?_, fun m hm hat' => ?_⟩
    · have := view_le p s.chains.length
      have := view_le q s.chains.length
      omega
    · have howner' : m.owner = p := hat'.owner.trans (hat.owner.symm.trans howner)
      have := h.current m hm j hat' (by rw [howner']; exact hj)
      rw [howner'] at this
      rw [hheader]
      exact this

/-! ### Deliveries -/

/-- The tracked messages are accepted messages of the chain being received. -/
theorem Kept.card_le {v j : ℕ} (h : Kept S s.sent (Accepted s p) v (s.state p))
    (hv : j + 2 = v) :
    (s.state p).receivedMessages.card ≤ (acceptedIn s p (some (S.headerKey j))).length := by
  have hsub : (s.state p).receivedMessages ⊆
      ((acceptedIn s p (some (S.headerKey j))).map fun m =>
        (m.header.dhPub, m.header.n)).toFinset := by
    intro x hx
    obtain ⟨m, hm, j', hat, hj', rfl, hacc⟩ := h.received x hx
    obtain rfl : j' = j := by omega
    exact List.mem_toFinset.mpr (List.mem_map_of_mem
      (List.mem_filter.mpr ⟨hm, by simpa using ⟨hat.headerKey, hacc⟩⟩))
  calc (s.state p).receivedMessages.card
      ≤ _ := Finset.card_le_card hsub
    _ ≤ _ := List.toFinset_card_le _
    _ = _ := List.length_map _

/-- What is asked of the network and of the state at each event: genuine
messages on ideal encryption, fresh keys, and a delivery in the window. -/
structure Delivers (P : Primitives K) (b : Build) (s : Session K) (e : Event K) : Prop where
  authentic : Authentic P b s e
  first : FirstDelivery s e
  drawsFresh : DrawsFresh P s e
  belowTracking : BelowTracking s e
  inWindow : InWindow P s e

instance (s : Session K) : DecidablePred (Delivers P b s) := fun _ =>
  decidable_of_iff (_ ∧ _ ∧ _ ∧ _ ∧ _) ⟨fun h => ⟨h.1, h.2.1, h.2.2.1, h.2.2.2.1, h.2.2.2.2⟩,
    fun h => ⟨h.authentic, h.first, h.drawsFresh, h.belowTracking, h.inWindow⟩⟩

/-- Only a DH ratchet starts a chain, with the key pair it draws. -/
theorem Sync.fresh_decrypt (hP : Correct P) (hS : S.KdfSeparates) (h : Sync S s)
    (hfresh : ∀ j, j + 2 ≤ s.chains.length → S.pub (j + 2) ≠ S.pub j)
    (hauth : AuthenticCall P b s p encHeader ciphertext ad)
    (hdraws : DrawsFresh P s (.decrypt p env encHeader ciphertext ad))
    (hafter : Sync S (s.decrypt P b p env encHeader ciphertext ad)) (j : ℕ)
    (hj : j + 2 ≤ (s.decrypt P b p env encHeader ciphertext ad).chains.length) :
    S.pub (j + 2) ≠ S.pub j := by
  obtain ⟨o, st, hres⟩ : ∃ o st, Ratchet.decrypt P b env encHeader ciphertext ad (s.state p)
      = (o, st) := ⟨_, _, rfl⟩
  have hrec := receives env hP hS h hauth
  have hst := Session.decrypt_state_self hres
  have hviewq := h.view_decrypt_of_ne hS hafter (Party.peer_ne p)
  have hpos := view_peer p h.pos
  have hpos' := view_peer p hafter.pos
  rw [hres] at hrec
  rcases hrec.sameSending_or_ratchet with hsame | ⟨m, -, -, -, mk, hst'⟩
  · have hview := h.view_decrypt hS hafter (.inl ⟨rfl, by rw [hres]; exact hsame.rk⟩)
    exact hfresh j (by omega)
  · have hhk : st.hkR = some (S.headerKey (view p s.chains.length)) := by
      rw [(Prod.mk.inj hst').2]
      exact congrArg some (h.state p).nhkR
    have hview := h.view_decrypt hS hafter (.inr ⟨rfl, by rw [hres]; exact hhk⟩)
    by_cases hlt : j + 2 ≤ s.chains.length
    · exact hfresh j hlt
    · have hpair := (hafter.state p).dhPair
      have hpair₀ := (h.state p).dhPair
      obtain rfl : view p s.chains.length = j := by omega
      have hdh : P.x25519PublicKey env.freshSecret = st.dhPair.2 := by
        rw [(Prod.mk.inj hst').2]
        rfl
      rw [hst, hview] at hpair
      simp only [DrawsFresh, hdh, hpair, hpair₀] at hdraws
      exact hdraws

/-- The delivery that such an event asks for succeeds. -/
theorem NothingLost.delivers (hP : Correct P) (hS : S.KdfSeparates) (h : Sync S s)
    (hnonces : NoncesUsed s) (hpn : PnBounds S s) (hlost : NothingLost S s)
    (hcall : Delivers P b s (.decrypt p env encHeader ciphertext ad)) :
    ∃ m ∈ s.sent, m.Is encHeader ciphertext ad ∧
      (decrypt P b env encHeader ciphertext ad (s.state p)).1 = .ok m.plaintext ∧
      ∃ v', LeavesKept S s env m (Accepted s p) (view p s.chains.length) v' (s.state p)
        (decrypt P b env encHeader ciphertext ad (s.state p)).2 := by
  obtain ⟨m, hm, howner, ⟨rfl, rfl, rfl⟩, hnot⟩ := hcall.first
  have hrec := receives env hP hS h hcall.authentic
  refine ⟨m, hm, ⟨rfl, rfl, rfl⟩, hrec.delivers hP hS h hnonces (hlost.kept p) hm hnot
    hcall.authentic howner hpn hlost.fresh hcall.inWindow fun hhk => ?_⟩
  obtain ⟨j, -, hat⟩ := h.sent m hm
  have hv := h.view_eq_of_hkR hS hat.le_length_succ (hhk.symm.trans hat.headerKey)
  have hcard := (hlost.kept p).card_le hv.symm
  rw [← hat.headerKey] at hcard
  exact hcard.trans_lt (hcall.belowTracking m hm rfl hhk)

theorem NothingLost.decrypt (hP : Correct P) (hS : S.KdfSeparates) (h : Sync S s)
    (hnonces : NoncesUsed s) (hpn : PnBounds S s) (hlost : NothingLost S s)
    (hcall : Delivers P b s (.decrypt p env encHeader ciphertext ad))
    (hafter : Sync S (s.decrypt P b p env encHeader ciphertext ad)) :
    NothingLost S (s.decrypt P b p env encHeader ciphertext ad) := by
  obtain ⟨m, hm, his, hok, v', hleaves⟩ := hlost.delivers hP hS h hnonces hpn hcall
  obtain ⟨st, hres⟩ : ∃ st, Ratchet.decrypt P b env encHeader ciphertext ad (s.state p)
      = (.ok m.plaintext, st) := ⟨_, Prod.ext hok rfl⟩
  rw [hres] at hleaves
  have hst := Session.decrypt_state_self hres
  have hmoves : MovesView S (view p s.chains.length) v' (s.state p) st :=
    hleaves.view.imp_right fun ⟨hv, hhk, _⟩ => ⟨hv, hhk⟩
  have hview := h.view_decrypt hS hafter (by rw [hres]; exact hmoves)
  have hmono : ∀ q m', Accepted s q m' →
      Accepted (s.decrypt P b p env encHeader ciphertext ad) q m' :=
    fun q m' hm' => hm'.step (.decrypt p env encHeader ciphertext ad)
  refine ⟨fun q => ?_, fun j hj => ?_⟩
  · by_cases hq : q = p
    · subst hq
      rw [hview, hst]
      refine hleaves.kept.mono fun m' hm' => ?_
      rcases hm' with hacc | rfl
      · exact hmono q m' hacc
      · exact accepted_of_decrypt his.encHeader hres
    · rw [h.view_decrypt_of_ne hS hafter hq, Session.decrypt_state_of_ne hq]
      exact (hlost.kept q).mono (hmono q)
  · exact h.fresh_decrypt hP hS hlost.fresh hcall.authentic hcall.drawsFresh hafter j hj

theorem Reachable.nothingLost (hP : Correct P) {sk : K} {bob : DhPrivateKey}
    (hS : S.KdfSeparates) (h : Reachable P b sk bob (Delivers P b) s)
    (hagrees : Agrees S sk bob s) : NothingLost S s := by
  have key : NothingLost S s ∧ PnBounds S s := by
    refine h.sync_invariant (I := fun s => NothingLost S s ∧ PnBounds S s) hP hS
      (fun s e he => he.authentic) (fun dhS s₀ h₀ hs => ?_) (fun s e hreach hs hs' ih he => ?_)
      hagrees
    · have hfresh := Session.start_fresh h₀
      refine ⟨⟨fun p => ⟨?_, fun w hw => ⟨0, ?_⟩, ?_, ?_⟩, fun j hj => ?_⟩, ?_, ?_, ?_⟩
      all_goals simp [hfresh.sent, hfresh.nr, hfresh.receivedMessages]
      have := hfresh.chains
      omega
    · cases e with
      | encrypt p plaintext ad =>
        exact ⟨ih.1.encrypt hS hs plaintext ad, ih.2.encrypt hS hs plaintext ad⟩
      | decrypt p env encHeader ciphertext ad =>
        exact ⟨ih.1.decrypt hP hS hs hreach.noncesUsed ih.2 he hs',
          ih.2.decrypt hP hS hs he.authentic hs'⟩
  exact key.1

/-- **Nothing is lost in the window.**  In every run in which each delivery is a
first delivery of a genuine message and stays in the window, each of them
returns exactly the plaintext that was given to `encrypt`. -/
theorem delivered_in_window (hP : Correct P) {sk : K} {bob dhS : DhPrivateKey}
    {s₀ : Session K} (h₀ : Session.start P sk bob dhS = .ok s₀) {es : List (Event K)}
    (hS : ((Machine.run (Session.step P b) s₀ es).schedule P sk bob).KdfSeparates) {m : Sealed K}
    (hm : m ∈ (Machine.run (Session.step P b) s₀ es).sent)
    (hes : Machine.Along (Session.step P b) (Delivers P b) s₀
      (es ++ [.decrypt m.owner.peer env m.encHeader m.ciphertext m.ad])) :
    (decrypt P b env m.encHeader m.ciphertext m.ad
      ((Machine.run (Session.step P b) s₀ es).state m.owner.peer)).1 = .ok m.plaintext := by
  obtain ⟨hes, hcall⟩ := Machine.along_concat.mp hes
  have hreach : Reachable P b sk bob (Delivers P b) (Machine.run (Session.step P b) s₀ es) :=
    ⟨dhS, s₀, es, h₀, hes, rfl⟩
  have hauth := hreach.mono fun s e he => he.authentic
  have hagrees := agrees_schedule (P := P) sk bob (Machine.run (Session.step P b) s₀ es)
  obtain ⟨m', hm', his, hok, -⟩ := (hreach.nothingLost hP hS hagrees).delivers hP hS
    (hauth.sync hP hS hagrees) hreach.noncesUsed (hauth.pnBounds hP hS hagrees) hcall
  obtain rfl := hreach.noncesUsed.encHeader_inj hm' hm his.encHeader
  exact hok

open Symbolic in
/-- Message 1 is delivered after message 2. -/
theorem delivered_in_window_after_gap :
    (decrypt primitives .release (Symbolic.env 4) (message 1).encHeader (message 1).ciphertext
      (message 1).ad ((Machine.run (Session.step primitives .release) session
        (threeSent ++ [receive 2])).state (message 1).owner.peer)).1
          = .ok (message 1).plaintext := by
  have hm : message 1 ∈ (Machine.run (Session.step primitives .release) session
      (threeSent ++ [receive 2])).sent := by
    decide +kernel
  have hes : Machine.Along (Session.step primitives .release)
    (Delivers primitives .release) session
      (threeSent ++ [receive 2] ++ [.decrypt (message 1).owner.peer (Symbolic.env 4)
        (message 1).encHeader (message 1).ciphertext (message 1).ad]) := by
    decide +kernel
  exact delivered_in_window correct start (Schedule.kdfSeparates collisionFree) hm hes

end Ratchet
