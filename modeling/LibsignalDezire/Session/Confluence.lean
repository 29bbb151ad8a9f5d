/-
The messages of one chain, delivered in any order.

A message that arrives late is answered from the stored keys and does not move
the chain, and one that arrives early moves it by one step only.  So after all
messages of a chain the state has counted those that were accepted by the chain,
and these are all of them exactly when none arrived late.

* `EndsInOrder` — every delivery is accepted, and the state that is reached is
  the one that in-order delivery reaches;
* `confluence_iff` — **only in-order delivery ends there**.
-/
import LibsignalDezire.Session.Delivery

namespace Ratchet

variable {K : Type} [DecidableEq K] (P : Primitives K)

/-- The deliveries to `p` of the messages `ms i`, for `i` in the given order;
delivery number `t` runs with the draws `envs t`. -/
def deliveries (p : Party) (envs : ℕ → CallEnv K) (ms : ℕ → Sealed K) :
    ℕ → List ℕ → List (Event K)
  | _, [] => []
  | t, i :: order =>
    .decrypt p (envs t) (ms i).encHeader (ms i).ciphertext (ms i).ad ::
      deliveries p envs ms (t + 1) order

/-- The messages `ms 0, …, ms (k - 1)` are the first `k` of the chain that `p`
receives next, none of them is tracked yet, and what is left of the chain before
it can be stored (nothing, when that was received in order). -/
structure BeforeChain (s : Session K) (p : Party) (ms : ℕ → Sealed K) (k : ℕ) : Prop where
  sent : ∀ i < k, ms i ∈ s.sent
  next : ∀ i < k, (ms i).headerKey = some (s.state p).nhkR
  number : ∀ i < k, (ms i).header.n.toNat = i
  new : ∀ i < k, ((ms i).header.dhPub, (ms i).header.n) ∉ (s.state p).receivedMessages
  previous : ∀ i < k, (s.state p).ckR.isSome →
    (s.state p).nr.toNat ≤ (ms i).header.pn.toNat ∧
      (ms i).header.pn.toNat ≤ (s.state p).nr.toNat + maxSkip.toNat

/-- The deliveries in this order are all accepted, and leave `p` where the
deliveries in order do: all `k` messages are counted, the chain key is `k` steps
from the start of the chain, and no key of the chain is stored. -/
structure EndsInOrder (b : Build) (s : Session K) (p : Party) (envs : ℕ → CallEnv K)
    (ms : ℕ → Sealed K) (k : ℕ) (order : List ℕ) : Prop where
  accepted : ∀ r ∈ Machine.trace (Session.step P b) (Session.reply P b) s
    (deliveries p envs ms 0 order), r.isOk
  same : ∀ st st',
    st = (Machine.run (Session.step P b) s (deliveries p envs ms 0 order)).state p →
    st' = (Machine.run (Session.step P b) s (deliveries p envs ms 0 (List.range k))).state p →
    st.rk = st'.rk ∧ st.ckR = st'.ckR ∧ st.nr = st'.nr ∧ st.hkR = st'.hkR ∧
      st.nhkR = st'.nhkR ∧ ∀ x, (st.mkskipped.lookup x).map SkippedKey.mk
        = (st'.mkskipped.lookup x).map SkippedKey.mk
  counted : ((Machine.run (Session.step P b) s
    (deliveries p envs ms 0 order)).state p).nr.toNat = k
  chain : ∃ ck, recvChain P (s.state p) (ms 0).header true = some ck ∧
    ((Machine.run (Session.step P b) s (deliveries p envs ms 0 order)).state p).ckR
      = some (advance P ck k)
  not_stored : ∀ n, ((s.state p).nhkR, n) ∉
    ((Machine.run (Session.step P b) s (deliveries p envs ms 0 order)).state p).mkskipped

variable {P} {b : Build} {s : Session K} {S : Schedule P} {p : Party} {env : CallEnv K}
  {envs : ℕ → CallEnv K} {ms : ℕ → Sealed K} {m : Sealed K} {v e : ℕ}

/-! ### One delivery moves the count by at most one -/

/-- `p` has counted `e` messages of chain `v`, which it has not opened or is
receiving. -/
def Counted (s : Session K) (p : Party) (v e : ℕ) : Prop :=
  view p s.chains.length = v ∧ e = 0 ∨
    view p s.chains.length = v + 2 ∧ (s.state p).nr.toNat = e

/-- The count moves by at most one, and only on a message that is not late. -/
theorem Counted.decrypt (hP : Correct P) (hS : S.KdfSeparates) (h : Sync S s)
    (hnonces : NoncesUsed s) (hm : m ∈ s.sent) (hat : SentAt S m v)
    (hauth : AuthenticCall P b s p m.encHeader m.ciphertext m.ad)
    (hafter : Sync S (s.decrypt P b p env m.encHeader m.ciphertext m.ad))
    (hcount : Counted s p v e) :
    ∃ e', Counted (s.decrypt P b p env m.encHeader m.ciphertext m.ad) p v e' ∧ e' ≤ e + 1 ∧
      (e' = e + 1 → e ≤ m.header.n.toNat) := by
  have hrec := receives env hP hS h hauth
  generalize hres : Ratchet.decrypt P b env m.encHeader m.ciphertext m.ad (s.state p) = r at hrec
  have hst := Session.decrypt_state_self hres
  -- the chain is as it was
  have hquiet : ∀ {st : RatchetState K}, st = r.2 → st.rk = (s.state p).rk →
      st.nr = (s.state p).nr →
      ∃ e', Counted (s.decrypt P b p env m.encHeader m.ciphertext m.ad) p v e' ∧ e' ≤ e + 1 ∧
        (e' = e + 1 → e ≤ m.header.n.toNat) := by
    rintro st rfl hrk hnr
    have hview := h.view_eq_of_rk hS hafter (p := p) (by rw [hst, hrk])
    refine ⟨e, ?_, by omega, fun heq => by omega⟩
    rw [Counted, hview, hst, hnr]
    exact hcount
  cases hrec with
  | refused => exact hquiet rfl rfl rfl
  | skipped => exact hquiet rfl rfl rfl
  | lost => exact hquiet rfl rfl rfl
  | @current m' j mkskipped nr hm' hat' his _ hv hle _ hnr =>
    obtain ⟨rfl, rfl⟩ := hnonces.place_inj hS hm' hm his.encHeader hat' hat
    obtain ⟨received, -, htrack⟩ := trackMessage_ok m'.header m'.plaintext ⟨⟩ { s.state p with
      mkskipped, ckR := some (S.chainKey j nr.toNat), nr }
    rw [htrack] at hst
    have hview := h.view_eq_of_rk hS hafter (p := p) (by rw [hst])
    rcases hcount with ⟨hclosed, -⟩ | ⟨hopen, rfl⟩
    · omega
    · refine ⟨nr.toNat, .inr ⟨hview.trans hopen, by rw [hst]⟩, hnr.le, fun _ => hle⟩
  | @ratchet m' mk₁ mk₂ hm' hat' his =>
    obtain ⟨rfl, hv⟩ := hnonces.place_inj hS hm' hm his.encHeader hat' hat
    have hview := h.view_of_ratchet hS hafter (p := p) (by rw [hst]; rfl)
    rcases hcount with ⟨-, rfl⟩ | ⟨hopen, -⟩
    · exact ⟨1, .inr ⟨by rw [hview, hv], by rw [hst]; rfl⟩, le_refl _, fun _ => Nat.zero_le _⟩
    · omega

/-- Over several deliveries the count reaches their number only if none was
late. -/
theorem Counted.run (hP : Correct P) {sk : K} {bob : DhPrivateKey} (hS : S.KdfSeparates)
    (hsk : S.sk = sk) {order : List ℕ} {t : ℕ} (hreach : Reachable P b sk bob (Authentic P b) s)
    (hauth : Machine.Along (Session.step P b) (Authentic P b) s (deliveries p envs ms t order))
    (hagrees : Agrees S sk bob
      (Machine.run (Session.step P b) s (deliveries p envs ms t order)))
    (hms : ∀ i ∈ order, ms i ∈ s.sent ∧ SentAt S (ms i) v ∧ (ms i).header.n.toNat = i)
    (hcount : Counted s p v e) :
    ∃ e', Counted (Machine.run (Session.step P b) s (deliveries p envs ms t order)) p v e' ∧
      e' ≤ e + order.length ∧
      (e' = e + order.length → ∀ j (hj : j < order.length), e + j ≤ order[j]) := by
  subst hsk
  induction order generalizing s t e with
  | nil => exact ⟨e, hcount, le_refl _, fun _ j hj => absurd hj (Nat.not_lt_zero j)⟩
  | cons i order ih =>
    obtain ⟨hm, hat, hn⟩ := hms i List.mem_cons_self
    have hnext := hreach.step hauth.1
    have hrest : Agrees S S.sk bob (Machine.run (Session.step P b)
        (s.decrypt P b p (envs t) (ms i).encHeader (ms i).ciphertext (ms i).ad)
        (deliveries p envs ms (t + 1) order)) := hagrees
    have hsync := hreach.sync hP hS (Agrees.of_step (e := .decrypt p (envs t) (ms i).encHeader
      (ms i).ciphertext (ms i).ad) hrest.of_run)
    have hafter : Sync S (s.decrypt P b p (envs t) (ms i).encHeader (ms i).ciphertext
      (ms i).ad) :=
      hnext.sync hP hS hrest.of_run
    obtain ⟨e₁, hcount₁, hle₁, hlow₁⟩ :=
      hcount.decrypt hP hS hsync hreach.noncesUsed hm hat hauth.1 hafter
    obtain ⟨e', hcount', hle', hlow'⟩ := ih hauth.2
      (fun j hj => hms j (List.mem_cons_of_mem i hj)) hcount₁ hnext hrest
    refine ⟨e', hcount', by rw [List.length_cons]; omega, fun heq j hj => ?_⟩
    rw [List.length_cons] at heq
    cases j with
    | zero =>
      have hone := hlow₁ (by omega)
      rw [hn] at hone
      exact hone
    | succ j =>
      have hrest := hlow' (by omega) j (Nat.lt_of_succ_lt_succ hj)
      rw [List.getElem_cons_succ]
      omega

/-! ### Any other order ends elsewhere -/

/-- An order in which nothing is late is the order of the numbers. -/
theorem eq_range_of_le {k : ℕ} {order : List ℕ} (hperm : order.Perm (List.range k))
    (hle : ∀ j (hj : j < order.length), j ≤ order[j]) : order = List.range k := by
  induction k generalizing order with
  | zero => exact hperm.eq_nil
  | succ k ih =>
    have hlen : order.length = k + 1 := by rw [hperm.length_eq, List.length_range]
    obtain rfl | ⟨init, last, rfl⟩ := order.eq_nil_or_concat
    · cases hlen
    · rw [List.concat_eq_append] at *
      have hinit : init.length = k := by simpa using hlen
      -- the last position is left to the largest number
      have hlast : last = k := by
        have hlow := hle init.length (by simp)
        rw [List.getElem_concat_length rfl] at hlow
        have hhigh := List.mem_range.mp (hperm.mem_iff.mp (List.mem_concat_self (a := last)))
        omega
      subst hlast
      rw [List.range_succ] at hperm ⊢
      rw [ih ((List.perm_append_right_iff [last]).mp hperm) fun j hj => ?_]
      have := hle j (by simp; omega)
      rwa [List.getElem_append_left hj] at this

/-- The chain that `p` receives next, in a synchronised session. -/
theorem BeforeChain.sentAt (hS : S.KdfSeparates) (h : Sync S s) {k i : ℕ}
    (hchain : BeforeChain s p ms k) (hi : i < k) :
    SentAt S (ms i) (view p s.chains.length) := by
  obtain ⟨j, -, hat⟩ := h.sent _ (hchain.sent i hi)
  have hkey := Option.some_inj.mp ((hchain.next i hi).symm.trans hat.headerKey)
  rw [(h.state p).nhkR] at hkey
  rwa [hat.headerKey_inj hS (Nat.le_succ_of_le (h.state p).le_length) hkey]

/-- **What in-order delivery reaches is reached in order only.** -/
theorem EndsInOrder.eq_range (hP : Correct P) {bob : DhPrivateKey} (hS : S.KdfSeparates)
    (hreach : Reachable P b S.sk bob (Authentic P b) s) {k : ℕ} {order : List ℕ}
    (hchain : BeforeChain s p ms k) (hk : 1 ≤ k) (hmax : k ≤ 2 ^ 32)
    (hperm : order.Perm (List.range k))
    (hauth : Machine.Along (Session.step P b) (Authentic P b) s (deliveries p envs ms 0 order))
    (hagrees : Agrees S S.sk bob
      (Machine.run (Session.step P b) s (deliveries p envs ms 0 order)))
    (hend : EndsInOrder P b s p envs ms k order) : order = List.range k := by
  have hsync := hreach.sync hP hS hagrees.of_run
  have hafter := (hreach.run hauth).sync hP hS hagrees
  have hlen : order.length = k := by rw [hperm.length_eq, List.length_range]
  obtain ⟨e, hcount, hle, hlow⟩ := Counted.run hP hS rfl hreach hauth hagrees
    (fun i hi => by
      have hik := List.mem_range.mp (hperm.mem_iff.mp hi)
      exact ⟨hchain.sent i hik, hchain.sentAt hS hsync hik, hchain.number i hik⟩)
    (.inl ⟨rfl, rfl⟩)
  rcases hcount with ⟨hview, -⟩ | ⟨-, hnr⟩
  · -- the chain has not been opened, so it is not its key that is in place
    obtain ⟨ck, hck, hend⟩ := hend.chain
    rw [recvChain_next hP hsync (hchain.sentAt hS hsync hk)] at hck
    obtain rfl := Option.some_inj.mp hck
    obtain ⟨w, hw, hkey⟩ := S.recvChainKey_eq_some.mp ((hafter.state p).ckR.symm.trans hend)
    have hsame : S.chainKey (view p s.chains.length) k = S.chainKey w _ := hkey
    have hlen := (hafter.state p).le_length
    have := (Schedule.chainKey_inj hS (hchain.sentAt hS hsync hk).lt_length (by omega) hmax
      (UInt32.toNat_lt _).le hsame).1
    omega
  · refine eq_range_of_le hperm fun j hj => ?_
    have hnr' := hend.counted
    simpa using hlow (by omega) j hj

/-! ### In-order delivery -/

/-- `p` has received the first `i` messages of chain `v`, all in order. -/
structure ReceivedInOrder (S : Schedule P) (s : Session K) (p : Party) (v i : ℕ) : Prop where
  view_eq : view p s.chains.length = v + 2
  nr : (s.state p).nr.toNat = i
  received : ∀ x ∈ (s.state p).receivedMessages, x.2.toNat < i
  tracked : (s.state p).receivedMessages.card ≤ i
  not_stored : ∀ n, (S.headerKey v, n) ∉ (s.state p).mkskipped

/-- The first message of the chain. -/
theorem ReceivedInOrder.first (hP : Correct P) (hS : S.KdfSeparates) (h : Sync S s)
    (hnonces : NoncesUsed s) {k : ℕ} (hchain : BeforeChain s p ms k) (hk : 0 < k)
    (hauth : AuthenticCall P b s p (ms 0).encHeader (ms 0).ciphertext (ms 0).ad)
    (hafter : Sync S (s.decrypt P b p env (ms 0).encHeader (ms 0).ciphertext (ms 0).ad)) :
    (Ratchet.decrypt P b env (ms 0).encHeader (ms 0).ciphertext (ms 0).ad (s.state p)).1
        = .ok (ms 0).plaintext ∧
      ReceivedInOrder S (s.decrypt P b p env (ms 0).encHeader (ms 0).ciphertext (ms 0).ad) p
        (view p s.chains.length) 1 := by
  have hm := hchain.sent 0 hk
  have hat := hchain.sentAt hS h hk
  have hn : (ms 0).header.n.toNat = 0 := hchain.number 0 hk
  have hprevious : 2 ≤ view p s.chains.length →
      (s.state p).nr.toNat ≤ (ms 0).header.pn.toNat ∧
        (ms 0).header.pn.toNat ≤ (s.state p).nr.toNat + maxSkip.toNat := by
    intro hge
    obtain ⟨w, hw⟩ : ∃ w, view p s.chains.length = w + 2 := ⟨_, (Nat.sub_add_cancel hge).symm⟩
    refine hchain.previous 0 hk ?_
    rw [(h.state p).ckR, hw]
    rfl
  obtain ⟨mk₁, mk₂, hprev, hstores, hres⟩ := (receives env hP hS h hauth).of_next hP hS h hnonces
    hm hauth hat (hchain.new 0 hk) (by omega) hprevious
  have hst := Session.decrypt_state_self hres
  have hview := h.view_of_ratchet hS hafter (p := p) (by rw [hst]; rfl)
  refine ⟨by rw [hres], hview, by rw [hst]; rfl, fun x hx => ?_, ?_, fun n hx => ?_⟩
  · rw [hst] at hx
    obtain rfl := Finset.mem_singleton.mp hx
    show (ms 0).header.n.toNat < 1
    omega
  · rw [hst]
    exact (Finset.card_singleton _).le
  · -- what is stored belongs to earlier chains
    rw [hst] at hx
    rcases hstores.mem hx with hx | ⟨-, -, hlt⟩
    · rcases hprev with ⟨-, rfl⟩ | ⟨w, hw, -, -, hst⟩
      · exact (h.state p).not_stored_next hS n hx
      · rcases hst.mem hx with hx | ⟨heq, -⟩
        · exact (h.state p).not_stored_next hS n hx
        · have := hat.lt_length
          have := Schedule.headerKey_inj hS hat.le_length_succ (by omega) heq
          omega
    · omega

/-- The next message of the chain. -/
theorem ReceivedInOrder.next (hP : Correct P) (hS : S.KdfSeparates) (h : Sync S s)
    (hnonces : NoncesUsed s) {i : ℕ} (hin : ReceivedInOrder S s p v i) (hi : i ≤ maxSkip.toNat)
    (hm : m ∈ s.sent) (hat : SentAt S m v) (hn : m.header.n.toNat = i)
    (hauth : AuthenticCall P b s p m.encHeader m.ciphertext m.ad)
    (hafter : Sync S (s.decrypt P b p env m.encHeader m.ciphertext m.ad)) :
    (Ratchet.decrypt P b env m.encHeader m.ciphertext m.ad (s.state p)).1 = .ok m.plaintext ∧
      ReceivedInOrder S (s.decrypt P b p env m.encHeader m.ciphertext m.ad) p v (i + 1) := by
  have hmax : maxSkip.toNat = 1000 := rfl
  have htrack : maxReceivedTracking = 10000 := rfl
  have hnr := hin.nr
  have hcard := hin.tracked
  have hnew : (m.header.dhPub, m.header.n) ∉ (s.state p).receivedMessages := by
    intro hx
    have := hin.received _ hx
    dsimp only at this
    omega
  obtain ⟨mkskipped, nr, hstores, hnr', hres⟩ := (receives env hP hS h hauth).of_current hP hS h
    hnonces hm hauth hat hin.view_eq.symm (hin.not_stored _) hnew (by omega)
      (by omega) (by omega)
  have hroom : ¬ maxReceivedTracking ≤ (s.state p).receivedMessages.card := by omega
  simp only [trackMessage, if_neg hroom] at hres
  have hst := Session.decrypt_state_self hres
  have hview := h.view_eq_of_rk hS hafter (p := p) (by rw [hst])
  refine ⟨by rw [hres], hview.trans hin.view_eq, ?_, fun x hx => ?_, ?_, fun n hx => ?_⟩
  · rw [hst, ← hnr]
    exact hnr'
  · rw [hst] at hx
    rcases Finset.mem_insert.mp hx with rfl | hx
    · dsimp only
      omega
    · have := hin.received x hx
      omega
  · rw [hst]
    exact (Finset.card_insert_le _ _).trans (by omega)
  · rw [hst] at hx
    rcases hstores.mem hx with hx | ⟨-, hle, hlt⟩
    · exact hin.not_stored n hx
    · omega

omit [DecidableEq K] in
theorem deliveries_concat {t i : ℕ} {order : List ℕ} :
    deliveries p envs ms t (order ++ [i]) = deliveries p envs ms t order ++
      [.decrypt p (envs (t + order.length)) (ms i).encHeader (ms i).ciphertext (ms i).ad] := by
  induction order generalizing t with
  | nil => rfl
  | cons j order ih =>
    rw [List.cons_append, deliveries, ih, deliveries, List.cons_append, List.length_cons,
      Nat.add_right_comm, Nat.add_assoc]

/-- Deliveries send nothing. -/
theorem run_deliveries_sent {t : ℕ} {order : List ℕ} :
    (Machine.run (Session.step P b) s (deliveries p envs ms t order)).sent = s.sent := by
  induction order generalizing s t with
  | nil => rfl
  | cons i order ih => rw [deliveries, Machine.run_cons, ih, Session.step, Session.decrypt]

/-- The first `i` messages of the chain are accepted, in order. -/
theorem ReceivedInOrder.run (hP : Correct P) {bob : DhPrivateKey} (hS : S.KdfSeparates)
    (hreach : Reachable P b S.sk bob (Authentic P b) s) {k : ℕ} (hk : k ≤ maxSkip.toNat + 1)
    (hchain : BeforeChain s p ms k) {i : ℕ} (hi : i ≤ k)
    (hauth : Machine.Along (Session.step P b) (Authentic P b) s
      (deliveries p envs ms 0 (List.range i)))
    (hagrees : Agrees S S.sk bob
      (Machine.run (Session.step P b) s (deliveries p envs ms 0 (List.range i)))) :
    (∀ r ∈ Machine.trace (Session.step P b) (Session.reply P b) s
        (deliveries p envs ms 0 (List.range i)), r.isOk) ∧
      (0 < i → ReceivedInOrder S (Machine.run (Session.step P b) s
        (deliveries p envs ms 0 (List.range i))) p (view p s.chains.length) i) := by
  have hsync := hreach.sync hP hS hagrees.of_run
  induction i with
  | zero => exact ⟨by simp [deliveries, Machine.trace], fun h => absurd h (lt_irrefl 0)⟩
  | succ i ih =>
    rw [List.range_succ, deliveries_concat] at hauth hagrees ⊢
    obtain ⟨hbefore, hlast⟩ := Machine.along_concat.mp hauth
    rw [Machine.run_concat] at hagrees ⊢
    obtain ⟨hok, hin⟩ := ih (by omega) hbefore hagrees.of_step
    have hreach' := hreach.run hbefore
    have hsync' := hreach'.sync hP hS hagrees.of_step
    have hafter := (hreach'.step hlast).sync hP hS hagrees
    have hstep : (Ratchet.decrypt P b (envs (0 + (List.range i).length)) (ms i).encHeader
          (ms i).ciphertext (ms i).ad ((Machine.run (Session.step P b) s
            (deliveries p envs ms 0 (List.range i))).state p)).1 = .ok (ms i).plaintext ∧
        ReceivedInOrder S (Session.step P b (Machine.run (Session.step P b) s
            (deliveries p envs ms 0 (List.range i))) (.decrypt p
              (envs (0 + (List.range i).length))
              (ms i).encHeader (ms i).ciphertext (ms i).ad)) p (view p s.chains.length)
                (i + 1) := by
      cases i with
      | zero =>
        exact ReceivedInOrder.first hP hS hsync' hreach'.noncesUsed hchain hi hlast hafter
      | succ i =>
        have hsent : ms (i + 1) ∈ (Machine.run (Session.step P b) s
            (deliveries p envs ms 0 (List.range (i + 1)))).sent := by
          rw [run_deliveries_sent]
          exact hchain.sent _ hi
        exact (hin (Nat.succ_pos i)).next hP hS hsync' hreach'.noncesUsed (by omega) hsent
          (hchain.sentAt hS hsync hi) (hchain.number _ hi) hlast hafter
    refine ⟨fun r hr => ?_, fun _ => hstep.2⟩
    rw [Machine.trace_append] at hr
    rcases List.mem_append.mp hr with hr | hr
    · exact hok r hr
    · rw [List.mem_singleton.mp hr, Session.reply, hstep.1]
      rfl

/-! ### Confluence, and where it fails -/

/-- **Only in-order delivery ends where in-order delivery ends.**  In every
reachable session, for the first `k ≤ MAX_SKIP + 1` messages of the chain that a
party receives next. -/
theorem confluence_iff (hP : Correct P) {sk : K} {bob : DhPrivateKey}
    (hreach : Reachable P b sk bob (Authentic P b) s) {k : ℕ} (hchain : BeforeChain s p ms k)
    (hk : 1 ≤ k) (hmax : k ≤ maxSkip.toNat + 1) {order : List ℕ}
    (hperm : order.Perm (List.range k))
    (hS : ((Machine.run (Session.step P b) s (deliveries p envs ms 0 order)).schedule P sk
      bob).KdfSeparates)
    (hauth : Machine.Along (Session.step P b) (Authentic P b) s (deliveries p envs ms 0 order)) :
    EndsInOrder P b s p envs ms k order ↔ order = List.range k := by
  have hagrees := agrees_schedule (P := P) sk bob
    (Machine.run (Session.step P b) s (deliveries p envs ms 0 order))
  constructor
  · have hmax' : k ≤ 2 ^ 32 := hmax.trans (by decide)
    exact fun hend => hend.eq_range hP hS hreach hchain hk hmax' hperm hauth hagrees
  · rintro rfl
    have hsync := hreach.sync hP hS hagrees.of_run
    have hafter := (hreach.run hauth).sync hP hS hagrees
    obtain ⟨haccepted, hin⟩ := ReceivedInOrder.run hP hS hreach hmax hchain le_rfl hauth hagrees
    have hin := hin hk
    have hstart := recvChain_next hP hsync (hchain.sentAt hS hsync hk)
    refine ⟨haccepted, fun st st' hst hst' => ?_, hin.nr, ⟨_, hstart, ?_⟩, fun n => ?_⟩
    · obtain rfl := hst.trans hst'.symm
      exact ⟨rfl, rfl, rfl, rfl, rfl, fun _ => rfl⟩
    · rw [(hafter.state p).ckR, hin.view_eq, hin.nr]
      rfl
    · rw [(hsync.state p).nhkR]
      exact hin.not_stored n

namespace Symbolic

/-- The three messages of the initiator. -/
def messages (i : ℕ) : Sealed Key := message ⟨i % 3, Nat.mod_lt i (by decide)⟩

theorem beforeChain : BeforeChain (after threeSent) .responder messages 3 where
  sent := by decide +kernel
  next := by decide +kernel
  number := by decide +kernel
  new := by decide +kernel
  previous := by decide +kernel

/-- The three messages, in order. -/
theorem in_order_ends_in_order :
    EndsInOrder primitives .release (after threeSent) .responder
      (fun _ => Symbolic.env 3) messages 3
      [0, 1, 2] := by
  have hsent : Machine.Along (Session.step primitives .release) (Authentic primitives .release)
      session threeSent := by
    decide +kernel
  have hauth : Machine.Along (Session.step primitives .release) (Authentic primitives .release)
      (after threeSent)
      (deliveries .responder (fun _ => Symbolic.env 3) messages 0 [0, 1, 2]) := by
    decide +kernel
  exact (confluence_iff correct (reachable_after hsent) beforeChain (by decide) (by decide)
    (List.Perm.refl _) (Schedule.kdfSeparates collisionFree) hauth).mpr rfl

/-- The second message and then the first: both are accepted, and the state counts
one. -/
theorem second_first_ends_elsewhere :
    BeforeChain (after threeSent) .responder messages 2 ∧ [1, 0].Perm (List.range 2) ∧
    Machine.Along (Session.step primitives .release) (Authentic primitives .release) session
      (threeSent ++ deliveries .responder (fun _ => Symbolic.env 3) messages 0 [1, 0]) ∧
    ¬ EndsInOrder primitives .release (after threeSent) .responder
      (fun _ => Symbolic.env 3) messages 2
      [1, 0] := by
  refine ⟨⟨?_, ?_, ?_, ?_, ?_⟩, by decide, by decide +kernel, fun hend => ?_⟩
  · exact fun i hi => beforeChain.sent i (by omega)
  · exact fun i hi => beforeChain.next i (by omega)
  · exact fun i hi => beforeChain.number i (by omega)
  · exact fun i hi => beforeChain.new i (by omega)
  · exact fun i hi => beforeChain.previous i (by omega)
  · have hcounted : ((Machine.run (Session.step primitives .release) (after threeSent)
        (deliveries .responder (fun _ => Symbolic.env 3) messages 0
          [1, 0])).state .responder).nr.toNat
          = 1 := by
      decide +kernel
    exact absurd (hcounted.symm.trans hend.counted) (by decide)

end Symbolic

end Ratchet
