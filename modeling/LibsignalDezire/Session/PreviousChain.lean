/-
What a header's `pn` says about the chain before its own.

* `Reachable.pnBounds` — the numbers of all messages sent on a party's previous
  chain are below the `pn` of every message on its next one.
-/
import LibsignalDezire.Session.Agreement

namespace Ratchet

variable {K : Type} [DecidableEq K] {P : Primitives K} {b : Build} {s : Session K}
  {S : Schedule P} {p : Party} {env : CallEnv K} {encHeader ciphertext ad : Bytes}

/-- The sender's bookkeeping of the length of its previous chain. -/
structure PnBounds (S : Schedule P) (s : Session K) : Prop where
  current : ∀ m ∈ s.sent, ∀ j, SentAt S m j → j + 1 = view m.owner s.chains.length →
    m.header.pn = (s.state m.owner).pn
  last : ∀ m ∈ s.sent, ∀ j, SentAt S m j → j + 3 = view m.owner s.chains.length →
    m.header.n.toNat < (s.state m.owner).pn.toNat
  bound : ∀ m ∈ s.sent, ∀ m' ∈ s.sent, ∀ j, SentAt S m j → SentAt S m' (j + 2) →
    m.header.n.toNat < m'.header.pn.toNat

/-- What the number and the `pn` of a message on chain `j` are, to an owner of view `v`
whose counter is `pn`. -/
structure PnAt (m : Sealed K) (j v : ℕ) (pn : UInt32) : Prop where
  current : j + 1 = v → m.header.pn = pn
  last : j + 3 = v → m.header.n.toNat < pn.toNat

omit [DecidableEq K] in
theorem PnBounds.pnAt (h : PnBounds S s) {m : Sealed K} (hm : m ∈ s.sent) {j : ℕ}
    (hat : SentAt S m j) :
    PnAt m j (view m.owner s.chains.length) (s.state m.owner).pn :=
  ⟨h.current m hm j hat, h.last m hm j hat⟩

omit [DecidableEq K] in
theorem PnBounds.of_pnAt
    (h : ∀ m ∈ s.sent, ∀ j, SentAt S m j →
      PnAt m j (view m.owner s.chains.length) (s.state m.owner).pn)
    (hbound : ∀ m ∈ s.sent, ∀ m' ∈ s.sent, ∀ j, SentAt S m j → SentAt S m' (j + 2) →
      m.header.n.toNat < m'.header.pn.toNat) : PnBounds S s :=
  ⟨fun m hm j hat => (h m hm j hat).current, fun m hm j hat => (h m hm j hat).last, hbound⟩

/-- A party's chains are below its view. -/
theorem Sync.lt_view_owner (hS : S.KdfSeparates) (h : Sync S s) {m : Sealed K}
    (hm : m ∈ s.sent) {j : ℕ} (hat : SentAt S m j) :
    j + 1 ≤ view m.owner s.chains.length ∧ (j + view m.owner s.chains.length) % 2 = 1 := by
  have hpar := (partyOf_eq_self h.pos).mp hat.owner.symm
  have := h.length_lt hS hm hat
  have := view_le m.owner s.chains.length
  omega

/-- A message under the sending header key is on the chain below the view. -/
theorem Sync.view_of_hkS (hS : S.KdfSeparates) (h : Sync S s) {m : Sealed K}
    (hhk : m.headerKey = (s.state p).hkS) {j : ℕ} (hat : SentAt S m j) :
    j + 1 = view p s.chains.length := by
  obtain ⟨w, hv, heq⟩ := S.sendHeaderKey_eq_some.mp
    ((h.state p).hkS.symm.trans (hhk.symm.trans hat.headerKey))
  have hlen := (h.state p).le_length
  rw [hv, hat.headerKey_inj hS (by omega) heq.symm]

theorem PnBounds.encrypt (hS : S.KdfSeparates) (h : Sync S s) (hpn : PnBounds S s)
    (plaintext ad : Bytes) : PnBounds S (s.encrypt P p plaintext ad) := by
  obtain ⟨hsame, -, hchains, hsent⟩ := Session.encrypt_frame (P := P) s p plaintext ad
  have hold : ∀ m ∈ s.sent, ∀ j, SentAt S m j →
      PnAt m j (view m.owner s.chains.length)
        ((s.encrypt P p plaintext ad).state m.owner).pn := by
    intro m hm j hat
    rw [(hsame m.owner).pn]
    exact hpn.pnAt hm hat
  rcases hsent with hsent | ⟨m₀, hsent, howner, hheader, hhk⟩
  · refine .of_pnAt ?_ ?_ <;> rw [hsent]
    · rw [hchains]
      exact hold
    · exact hpn.bound
  · -- the new message is on the chain below the view, with the owner's `pn`
    have hnew : ∀ {j}, SentAt S m₀ j → j + 1 = view p s.chains.length := h.view_of_hkS hS hhk
    have hpn₀ : m₀.header.pn = (s.state p).pn := by
      rw [hheader]
      rfl
    refine .of_pnAt ?_ ?_ <;> rw [hsent]
    · intro m hm j hat
      rw [hchains]
      rcases List.mem_cons.mp hm with rfl | hm
      · refine ⟨fun _ => ?_, fun hj => ?_⟩
        · rw [howner, (hsame p).pn, hpn₀]
        · have := hnew hat
          rw [howner] at hj
          omega
      · exact hold m hm j hat
    · intro m hm m' hm' j hat hat'
      have howners : m'.owner = m.owner := by rw [hat.owner, hat'.owner, partyOf_add_two]
      rw [List.mem_cons] at hm hm'
      rcases hm with rfl | hm <;> rcases hm' with rfl | hm'
      · have := hat.unique hS hat'
        omega
      · have := hnew hat
        have hview := (h.lt_view_owner hS hm' hat').1
        rw [howners, howner] at hview
        omega
      · have hj := hnew hat'
        rw [howner] at howners
        have hlast := (hpn.pnAt hm hat).last (by rw [← howners]; omega)
        rwa [← howners, ← hpn₀] at hlast
      · exact hpn.bound m hm m' hm' j hat hat'

theorem PnBounds.decrypt (hP : Correct P) (hS : S.KdfSeparates) (h : Sync S s)
    (hpn : PnBounds S s) (hauth : AuthenticCall P b s p encHeader ciphertext ad)
    (hafter : Sync S (s.decrypt P b p env encHeader ciphertext ad)) :
    PnBounds S (s.decrypt P b p env encHeader ciphertext ad) := by
  have hrec := receives env hP hS h hauth
  generalize hres : Ratchet.decrypt P b env encHeader ciphertext ad (s.state p) = r at hrec
  have hst := Session.decrypt_state_self hres
  refine .of_pnAt (fun m hm j hat => ?_) hpn.bound
  by_cases hq : m.owner = p
  · rcases hrec.sameSending_or_ratchet with hsend | ⟨m', hm', hat', -, mkskipped, rfl⟩
    · rw [h.view_eq_of_rk hS hafter (by rw [hq, hst, hsend.rk]), hq, hst, hsend.pn, ← hq]
      exact hpn.pnAt hm hat
    · -- the view moves by two, and the closed chain had `ns` messages
      have hview := h.view_of_ratchet hS hafter (p := p) (by rw [hst]; rfl)
      have hlt := h.lt_view_owner hS hm hat
      rw [hq] at hlt ⊢
      rw [hview, hst]
      refine ⟨fun hj => by omega, fun hj => ?_⟩
      have hcur := h.current m hm j hat (by rw [hq]; omega)
      rw [hq] at hcur
      exact hcur
  · rw [h.view_decrypt_of_ne hS hafter hq, Session.decrypt_state_of_ne hq]
    exact hpn.pnAt hm hat

/-- **A header's `pn` bounds the numbers of the chain before its own.** -/
theorem Reachable.pnBounds (hP : Correct P) {sk : K} {bob : DhPrivateKey}
    (hS : S.KdfSeparates) (h : Reachable P b sk bob (Authentic P b) s)
    (hagrees : Agrees S sk bob s) : PnBounds S s := by
  refine h.sync_invariant hP hS (fun s e he => he) (fun dhS s₀ h₀ hs => ?_)
    (fun s e _ hs hs' ih he => ?_) hagrees
  · have hsent := (Session.start_fresh h₀).sent
    refine ⟨?_, ?_, ?_⟩ <;> simp [hsent]
  · cases e with
    | encrypt p plaintext ad => exact ih.encrypt hS hs plaintext ad
    | decrypt p env encHeader ciphertext ad => exact ih.decrypt hP hS hs he hs'

end Ratchet
