/-
Runs in which every chain is received in order.

After the skip loop the commit advances the receiving chain by one step only,
whatever number the header carries, so after a gap the chain key and the number
of the state stay behind the keys that were used.  A run is *in order* when no
call gets to the skip loop of its own chain with a header that lies beyond the
next expected number.  In such runs the state has moved past everything that was
accepted:

* `authenticated_eq_some` — the header a call commits can be computed;
* `Spent` — the key of a message is neither stored nor ahead on the chain;
* `Receives.leavesSpent` — what one call leaves behind;
* `Reachable.inOrder` — every accepted message is spent.
-/
import LibsignalDezire.Ratchet.Atomic
import LibsignalDezire.Session.Agreement
import LibsignalDezire.Session.Record

namespace Ratchet

variable {K : Type} [DecidableEq K] (P : Primitives K)

/-! ### Calls that skip ahead -/

/-- The header that a call commits, and whether it opens the next chain. -/
def authenticated (b : Build) (st : RatchetState K) (encHeader ciphertext ad : Bytes) :
    Option (RatchetHeader × Bool) :=
  match trySkippedMessageKeys P ⟨id, fun _ => .refl _⟩ st.mkskipped encHeader ciphertext
      (concatAd ad encHeader), decryptHeader P st encHeader with
  | .ok (_, none), .ok (header, dhRatchet) =>
    if ad.length ≤ maxAdSize ∧ (header.dhPub, header.n) ∉ st.receivedMessages ∧
        (computeMessageKey P b st header dhRatchet >>= fun mk =>
          decryptAead P mk ciphertext (concatAd ad encHeader)).isOk then
      some (header, dhRatchet)
    else none
  | _, _ => none

/-- The call commits a header beyond the next expected number of its chain, and
the commit gets to the skip loop of that chain: if the header opens a new chain,
what is left of the previous one can be stored. -/
def SkipsAhead (b : Build) (st : RatchetState K) (encHeader ciphertext ad : Bytes) : Prop :=
  ∃ header dhRatchet p, Authenticates P b st encHeader ciphertext ad header dhRatchet p ∧
    (dhRatchet = true → st.ckR.isSome → st.hkR.isSome → ¬ OutOfRange st.nr header.pn) ∧
    recvNumber st dhRatchet < header.n

/-- No chain is received with a gap. -/
def InOrder (b : Build) (s : Session K) : Event K → Prop
  | .encrypt .. => True
  | .decrypt p _ encHeader ciphertext ad =>
    ¬ SkipsAhead P b (s.state p) encHeader ciphertext ad

variable {P} {b : Build} {s : Session K} {S : Schedule P} {p : Party} {env : CallEnv K}
  {encHeader ciphertext ad : Bytes} {v v' : ℕ} {st : RatchetState K}

theorem authenticated_eq_some {header : RatchetHeader} {f : Bool} :
    authenticated P b st encHeader ciphertext ad = some (header, f) ↔
      ∃ q, Authenticates P b st encHeader ciphertext ad header f q := by
  rcases trySkippedMessageKeys_cases P ⟨id, fun _ => .refl _⟩ st.mkskipped encHeader ciphertext
    (concatAd ad encHeader) with ⟨htry, hno⟩ | ⟨k, key, q, hk, hopens, htry⟩
  · rcases hhdr : decryptHeader P st encHeader with ⟨header', f'⟩ | e | _
    · rw [authenticated, htry, hhdr]
      dsimp only
      constructor
      · intro h
        split at h
        · rename_i hif
          obtain ⟨had, hnot, hok⟩ := hif
          cases h
          obtain ⟨q, hq⟩ := Outcome.isOk_iff.mp hok
          exact ⟨q, had, hno, hhdr, hnot, Outcome.bind_eq_ok.mp hq⟩
        · cases h
      · rintro ⟨q, h⟩
        cases hhdr.symm.trans h.header_eq
        exact if_pos ⟨h.ad_le, h.not_received, Outcome.isOk_iff.mpr
          ⟨q, Outcome.bind_eq_ok.mpr h.opens⟩⟩
    · rw [authenticated, htry, hhdr]
      exact ⟨nofun, fun ⟨_, h⟩ => nomatch hhdr.symm.trans h.header_eq⟩
    · rw [authenticated, htry, hhdr]
      exact ⟨nofun, fun ⟨_, h⟩ => nomatch hhdr.symm.trans h.header_eq⟩
  · rw [authenticated, htry]
    exact ⟨nofun, fun ⟨_, h⟩ => absurd hopens (h.not_skipped k key q hk)⟩

instance : Decidable (SkipsAhead P b st encHeader ciphertext ad) :=
  decidable_of_iff (∃ h ∈ authenticated P b st encHeader ciphertext ad,
      (h.2 = true → st.ckR.isSome → st.hkR.isSome → ¬ OutOfRange st.nr h.1.pn) ∧
        recvNumber st h.2 < h.1.n)
    ⟨fun ⟨(header, f), h, hreach⟩ =>
        have ⟨q, hauth⟩ := authenticated_eq_some.mp h
        ⟨header, f, q, hauth, hreach⟩,
      fun ⟨header, f, q, hauth, hreach⟩ =>
        ⟨(header, f), authenticated_eq_some.mpr ⟨q, hauth⟩, hreach⟩⟩

instance (b : Build) (s : Session K) : DecidablePred (InOrder P b s)
  | .encrypt .. => isTrue trivial
  | .decrypt p _ encHeader ciphertext ad =>
    inferInstanceAs (Decidable (¬ SkipsAhead P b (s.state p) encHeader ciphertext ad))

/-- A call in order authenticates no number beyond the next expected one, unless
the previous chain stops the commit. -/
theorem Authenticates.le_of_inOrder {header : RatchetHeader} {f : Bool} {q : Bytes}
    (h : Authenticates P b st encHeader ciphertext ad header f q)
    (hin : ¬ SkipsAhead P b st encHeader ciphertext ad)
    (hprev : f = true → st.ckR.isSome → st.hkR.isSome → ¬ OutOfRange st.nr header.pn) :
    header.n.toNat ≤ (recvNumber st f).toNat := by
  rw [← UInt32.le_iff_toNat_le]
  exact UInt32.not_lt.mp fun hlt => hin ⟨header, f, q, h, hprev, hlt⟩

/-! ### The invariant -/

/-- Message `m` of chain `j` is behind a state with view `v`: its key is not
stored, and the state has passed its number on the chain it receives. -/
structure Spent (S : Schedule P) (v : ℕ) (st : RatchetState K) (m : Sealed K)
    (j : ℕ) : Prop where
  le_view : j + 2 ≤ v
  parity : (j + v) % 2 = 0
  not_stored : (S.headerKey j, m.header.n) ∉ st.mkskipped
  passed : j + 2 = v → m.header.n.toNat < st.nr.toNat

/-- Keys are stored of closed chains only. -/
def StoresClosed (S : Schedule P) (v : ℕ) (st : RatchetState K) : Prop :=
  ∀ k ∈ st.mkskipped, ∃ j, j + 2 < v ∧ k.1 = S.headerKey j

omit [DecidableEq K] in
/-- A map that lost entries. -/
theorem Spent.of_subset {m : Sealed K} {j : ℕ} (h : Spent S v st m j) {st' : RatchetState K}
    (hsub : ∀ k ∈ st'.mkskipped, k ∈ st.mkskipped) (hnr : st.nr.toNat ≤ st'.nr.toNat) :
    Spent S v st' m j :=
  ⟨h.le_view, h.parity, fun hk => h.not_stored (hsub _ hk),
    fun hv => (h.passed hv).trans_le hnr⟩

/-- What a call leaves behind: the accepted messages are spent, and keys are stored
of closed chains only. -/
structure LeavesSpent (S : Schedule P) (s : Session K) (p : Party) (encHeader : Bytes) (v' : ℕ)
    (r : Outcome RatchetError Bytes × RatchetState K) : Prop where
  carries : Carries S (Spent S) s p encHeader v' r
  closed : StoresClosed S v' r.2

/-! ### What one call leaves behind -/

/-- A stored key is taken out of the map. -/
theorem leavesSpent_skipped (hS : S.KdfSeparates) (hlen : view p s.chains.length ≤ S.length)
    (hclosed : StoresClosed S (view p s.chains.length) (s.state p)) {m : Sealed K} {j : ℕ}
    (hm : m ∈ s.sent) (hat : SentAt S m j) (his : m.Is encHeader ciphertext ad)
    (hle : j + 2 ≤ view p s.chains.length) (hpar : (j + view p s.chains.length) % 2 = 0)
    (hstored : (S.headerKey j, m.header.n) ∈ (s.state p).mkskipped) :
    LeavesSpent S s p encHeader (view p s.chains.length) (.ok m.plaintext, { s.state p with
      mkskipped := (s.state p).mkskipped.erase (S.headerKey j, m.header.n) }) := by
  have hsub : ∀ k ∈ (s.state p).mkskipped.erase (S.headerKey j, m.header.n),
      k ∈ (s.state p).mkskipped := fun k hk => (AList.mem_erase.mp hk).2
  have hspent : Spent S (view p s.chains.length) { s.state p with
      mkskipped := (s.state p).mkskipped.erase (S.headerKey j, m.header.n) } m j := by
    refine ⟨hle, hpar, fun hk => (AList.mem_erase.mp hk).1 rfl, fun hv => ?_⟩
    obtain ⟨j', hj', hkey⟩ := hclosed _ hstored
    have := Schedule.headerKey_inj hS (by omega) (by omega) hkey
    omega
  exact ⟨⟨.inl ⟨rfl, rfl⟩, fun m' j' hm' => hm'.of_subset hsub (le_refl _),
    fun q _ => ⟨m, hm, j, hat, his.encHeader, hspent⟩⟩, fun k hk => hclosed k (hsub k hk)⟩

omit [DecidableEq K] in
/-- The chain being received moves past a message and stores nothing. -/
theorem leavesSpent_current (hS : S.KdfSeparates) (hlen : view p s.chains.length ≤ S.length)
    (hclosed : StoresClosed S (view p s.chains.length) (s.state p)) {m : Sealed K} {j : ℕ}
    (hm : m ∈ s.sent) (hat : SentAt S m j) (his : m.Is encHeader ciphertext ad)
    (hview : j + 2 = view p s.chains.length) {mkskipped : SkippedKeyMap K} {ckR : Option K}
    {nr : UInt32} (hsub : ∀ k ∈ mkskipped, k ∈ (s.state p).mkskipped)
    (hnr : (s.state p).nr.toNat ≤ nr.toNat) (hpassed : m.header.n.toNat < nr.toNat) :
    LeavesSpent S s p encHeader (view p s.chains.length)
      (trackMessage m.header m.plaintext (.ok ⟨⟩, { s.state p with mkskipped, ckR, nr })) := by
  have hspent : ∀ received, Spent S (view p s.chains.length) { s.state p with
      mkskipped, ckR, nr, receivedMessages := received } m j := by
    refine fun _ => ⟨hview.le, by omega, fun hk => ?_, fun _ => hpassed⟩
    obtain ⟨j', hj', hkey⟩ := hclosed _ (hsub _ hk)
    have := Schedule.headerKey_inj hS (by omega) (by omega) hkey
    omega
  have hold : ∀ received m' j', Spent S (view p s.chains.length) (s.state p) m' j' →
      Spent S (view p s.chains.length) { s.state p with
        mkskipped, ckR, nr, receivedMessages := received } m' j' :=
    fun _ m' j' hm' => hm'.of_subset hsub hnr
  simp only [trackMessage]
  split
  · exact ⟨⟨.inl ⟨rfl, rfl⟩, hold _, by simp⟩, fun k hk => hclosed k (hsub k hk)⟩
  · exact ⟨⟨.inl ⟨rfl, rfl⟩, hold _, fun q _ => ⟨m, hm, j, hat, his.encHeader, hspent _⟩⟩,
      fun k hk => hclosed k (hsub k hk)⟩

omit [DecidableEq K] in
/-- An empty map stores nothing. -/
theorem leavesSpent_lost {e : RatchetError} :
    LeavesSpent S s p encHeader (view p s.chains.length)
      (.err e, { s.state p with mkskipped := ∅ }) :=
  ⟨⟨.inl ⟨rfl, rfl⟩, fun _ _ hm' => hm'.of_subset
      (fun k hk => absurd hk (AList.notMem_empty k)) (le_refl _), by simp⟩,
    fun k hk => absurd hk (AList.notMem_empty k)⟩

omit [DecidableEq K] in
/-- The DH ratchet closes a chain, whose keys from `nr` on are stored, and moves past
the first message of the next one. -/
theorem leavesSpent_ratchet (hS : S.KdfSeparates)
    (hclosed : StoresClosed S (view p s.chains.length) (s.state p)) {m : Sealed K}
    (hm : m ∈ s.sent) (hat : SentAt S m (view p s.chains.length))
    (his : m.Is encHeader ciphertext ad) (hzero : m.header.n.toNat = 0) {st' : RatchetState K}
    (hhkR : st'.hkR = some (S.headerKey (view p s.chains.length))) (hnr : st'.nr = 1)
    (hmem : ∀ k ∈ st'.mkskipped, k ∈ (s.state p).mkskipped ∨
      ∃ w, view p s.chains.length = w + 2 ∧ k.1 = S.headerKey w ∧
        (s.state p).nr.toNat ≤ k.2.toNat) :
    LeavesSpent S s p encHeader (view p s.chains.length + 2) (.ok m.plaintext, st') := by
  have hclosed' : StoresClosed S (view p s.chains.length + 2) st' := by
    intro k hk
    rcases hmem k hk with hk | ⟨w, hw, h1, -⟩
    · obtain ⟨j, hj, hkey⟩ := hclosed k hk
      exact ⟨j, by omega, hkey⟩
    · exact ⟨w, by omega, h1⟩
  have hold : ∀ m' j', Spent S (view p s.chains.length) (s.state p) m' j' →
      Spent S (view p s.chains.length + 2) st' m' j' := by
    intro m' j' hm'
    have hle := hm'.le_view
    have hpar := hm'.parity
    have hlen := hat.lt_length
    refine ⟨by omega, by omega, fun hk => ?_, fun hv => by omega⟩
    rcases hmem _ hk with hk | ⟨w, hw, h1, h2⟩
    · exact hm'.not_stored hk
    · have hj := Schedule.headerKey_inj hS (by omega) (by omega) h1
      have := hm'.passed (by omega)
      dsimp only at h2
      omega
  have hnew : Spent S (view p s.chains.length + 2) st' m (view p s.chains.length) := by
    have hlen := hat.lt_length
    refine ⟨le_refl _, by omega, fun hk => ?_, fun _ => ?_⟩
    · obtain ⟨j', hj', hkey⟩ := hclosed' _ hk
      have := Schedule.headerKey_inj hS hat.le_length_succ (by omega) hkey
      omega
    · have hone : (1 : UInt32).toNat = 1 := rfl
      rw [hnr]
      omega
  exact ⟨⟨.inr ⟨rfl, hhkR⟩, hold, fun q _ => ⟨m, hm, _, hat, his.encHeader, hnew⟩⟩, hclosed'⟩

/-- Without a gap the skip loop stores nothing. -/
theorem Stores.subset_of_le {ck hk : K} {a n : ℕ} {old new : SkippedKeyMap K}
    (h : Stores P ck hk a n old new) (hle : n ≤ a) : ∀ k ∈ new, k ∈ old := by
  intro k hk
  rcases h.mem hk with hk | ⟨-, h1, h2⟩
  · exact hk
  · omega

/-- What is stored of the previous chain lies within reach of it. -/
theorem StoresPrevious.not_outOfRange (hp : Synced S v st) {pn : UInt32} {new : SkippedKeyMap K}
    (h : StoresPrevious S v st.nr.toNat pn.toNat st.mkskipped new) (hck : st.ckR.isSome) :
    ¬ OutOfRange st.nr pn := by
  rcases h with ⟨hv, -⟩ | ⟨w, -, hle, hlimit, -⟩
  · obtain ⟨ck, hck⟩ := Option.isSome_iff_exists.mp hck
    obtain ⟨w, hw, -⟩ := S.recvChainKey_eq_some.mp (hp.ckR.symm.trans hck)
    omega
  · rw [OutOfRange]
    omega

/-- **A call in order leaves every accepted message spent.** -/
theorem Receives.leavesSpent (hS : S.KdfSeparates) (h : Sync S s)
    (hclosed : StoresClosed S (view p s.chains.length) (s.state p))
    (hin : ¬ SkipsAhead P b (s.state p) encHeader ciphertext ad)
    {r : Outcome RatchetError Bytes × RatchetState K}
    (hrec : Receives P S b s p env encHeader ciphertext ad r) :
    ∃ v', LeavesSpent S s p encHeader v' r := by
  cases hrec with
  | refused ho =>
    exact ⟨_, ⟨.inl ⟨rfl, rfl⟩, fun _ _ h => h, fun q hq => absurd hq (ho q)⟩, hclosed⟩
  | skipped hm hat his hle hpar hstored =>
    exact ⟨_, leavesSpent_skipped hS (h.state p).le_length hclosed hm hat his hle hpar hstored⟩
  | current hm hat his haccept hview hle hstores hnr =>
    have hn := haccept.le_of_inOrder hin (fun hf => absurd hf (by decide))
    rw [recvNumber_false] at hn
    exact ⟨_, leavesSpent_current hS (h.state p).le_length hclosed hm hat his hview
      (hstores.subset_of_le hn) (by omega) (by omega)⟩
  | lost => exact ⟨_, leavesSpent_lost⟩
  | ratchet hm hat his haccept hprev hstores =>
    have hn := haccept.le_of_inOrder hin fun _ hck _ => hprev.not_outOfRange (h.state p) hck
    rw [recvNumber_true] at hn
    refine ⟨_, leavesSpent_ratchet hS hclosed hm hat his (Nat.le_zero.mp hn)
      (congrArg some (h.state p).nhkR) rfl fun k hk => ?_⟩
    refine (hprev.mem (hstores.subset_of_le hn k hk)).imp_right ?_
    rintro ⟨w, hw, h1, h2, -⟩
    exact ⟨w, hw, h1, h2⟩

/-- Every message a party accepted is spent, and it stores keys of closed chains
only. -/
structure AllSpent (S : Schedule P) (s : Session K) : Prop where
  closed : ∀ p, StoresClosed S (view p s.chains.length) (s.state p)
  spent : ∀ o ∈ s.opened, ∃ m ∈ s.sent, ∃ j, SentAt S m j ∧ m.encHeader = o.encHeader ∧
    Spent S (view o.party s.chains.length) (s.state o.party) m j

omit [DecidableEq K] in
theorem AllSpent.encrypt (h : AllSpent S s) (p : Party) (plaintext ad : Bytes) :
    AllSpent S (s.encrypt P p plaintext ad) := by
  obtain ⟨hsame, -, hchains, -⟩ := Session.encrypt_frame (P := P) s p plaintext ad
  refine ⟨fun q => ?_, EachAccepted.encrypt h.spent (fun v st st' m j hsame hm => ?_) p
    plaintext ad⟩
  · rw [hchains, StoresClosed, (hsame q).mkskipped]
    exact h.closed q
  · exact hm.of_subset (by rw [hsame.mkskipped]; exact fun _ hk => hk) (by rw [hsame.nr])

theorem AllSpent.decrypt (hP : Correct P) (hS : S.KdfSeparates) (h : Sync S s)
    (hspent : AllSpent S s) (hauth : AuthenticCall P b s p encHeader ciphertext ad)
    (hin : ¬ SkipsAhead P b (s.state p) encHeader ciphertext ad)
    (hafter : Sync S (s.decrypt P b p env encHeader ciphertext ad)) :
    AllSpent S (s.decrypt P b p env encHeader ciphertext ad) := by
  obtain ⟨v', hleaves⟩ := (receives env hP hS h hauth).leavesSpent hS h (hspent.closed p) hin
  refine ⟨fun q => ?_, EachAccepted.decrypt hS h hspent.spent hafter hleaves.carries⟩
  by_cases hq : q = p
  · subst hq
    rw [h.view_decrypt hS hafter hleaves.carries.moves, Session.decrypt_state_self rfl]
    exact hleaves.closed
  · rw [h.view_decrypt_of_ne hS hafter hq, Session.decrypt_state_of_ne hq]
    exact hspent.closed q

/-- **In an in-order run every accepted message is spent.** -/
theorem Reachable.inOrder (hP : Correct P) {sk : K} {bob : DhPrivateKey}
    (hS : S.KdfSeparates)
    (h : Reachable P b sk bob (fun s e => Authentic P b s e ∧ InOrder P b s e) s)
    (hagrees : Agrees S sk bob s) : AllSpent S s := by
  refine h.sync_invariant hP hS (fun s e he => he.1) (fun dhS s₀ h₀ hs => ?_)
    (fun s e _ hs hs' ih he => ?_) hagrees
  · have hfresh := Session.start_fresh h₀
    refine ⟨fun p k hk => ?_, fun o ho => ?_⟩
    · rw [hfresh.mkskipped p] at hk
      exact absurd hk (AList.notMem_empty k)
    · rw [hfresh.opened] at ho
      cases ho
  · cases e with
    | encrypt p plaintext ad => exact ih.encrypt p plaintext ad
    | decrypt p env encHeader ciphertext ad => exact ih.decrypt hP hS hs he.1 he.2 hs'

end Ratchet
