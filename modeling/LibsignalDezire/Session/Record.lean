/-
What holds of every message on record.

The record of accepted messages only grows.  So a property of a message and of the
state of the party that accepted it holds of the whole record if each call carries it
over to the state it leaves and establishes it for the message it accepts.

* `Sync.view_decrypt` — the view that a call leaves;
* `EachAccepted.encrypt`, `EachAccepted.decrypt` — the rule for such properties.
-/
import LibsignalDezire.Session.Receive

namespace Ratchet

variable {K : Type} [DecidableEq K] {P : Primitives K} {b : Build} {s : Session K}
  {S : Schedule P} {p : Party} {env : CallEnv K} {encHeader ciphertext ad : Bytes} {v v' : ℕ}

/-! ### Views -/

/-- The view `v` is kept, or a DH ratchet has moved it by two. -/
def MovesView (S : Schedule P) (v v' : ℕ) (st st' : RatchetState K) : Prop :=
  v' = v ∧ st'.rk = st.rk ∨ v' = v + 2 ∧ st'.hkR = some (S.headerKey v)

theorem Sync.view_decrypt (hS : S.KdfSeparates) (h : Sync S s)
    (hafter : Sync S (s.decrypt P b p env encHeader ciphertext ad))
    (hmoves : MovesView S (view p s.chains.length) v' (s.state p)
      (Ratchet.decrypt P b env encHeader ciphertext ad (s.state p)).2) :
    view p (s.decrypt P b p env encHeader ciphertext ad).chains.length = v' := by
  obtain ⟨o, st, hres⟩ : ∃ o st, Ratchet.decrypt P b env encHeader ciphertext ad (s.state p)
      = (o, st) := ⟨_, _, rfl⟩
  rw [hres] at hmoves
  have hst := Session.decrypt_state_self hres
  rcases hmoves with ⟨rfl, hrk⟩ | ⟨rfl, hhk⟩
  · exact h.view_eq_of_rk hS hafter (by rw [hst, hrk])
  · exact hafter.view_eq_of_hkR hS (Nat.le_succ_of_le (h.state p).le_length) (by rw [hst, hhk])

/-! ### The record -/

/-- Every accepted message satisfies `Q`, in the view and the state of the party that
accepted it. -/
def EachAccepted (S : Schedule P) (Q : ℕ → RatchetState K → Sealed K → ℕ → Prop)
    (s : Session K) : Prop :=
  ∀ o ∈ s.opened, ∃ m ∈ s.sent, ∃ j, SentAt S m j ∧ m.encHeader = o.encHeader ∧
    Q (view o.party s.chains.length) (s.state o.party) m j

/-- A call of party `p` carries `Q` over to the view and the state it leaves. -/
structure Carries (S : Schedule P) (Q : ℕ → RatchetState K → Sealed K → ℕ → Prop)
    (s : Session K) (p : Party) (encHeader : Bytes) (v' : ℕ)
    (r : Outcome RatchetError Bytes × RatchetState K) : Prop where
  moves : MovesView S (view p s.chains.length) v' (s.state p) r.2
  old : ∀ m j, Q (view p s.chains.length) (s.state p) m j → Q v' r.2 m j
  new : ∀ q, r.1 = .ok q → ∃ m ∈ s.sent, ∃ j, SentAt S m j ∧ m.encHeader = encHeader ∧
    Q v' r.2 m j

namespace EachAccepted

variable {Q : ℕ → RatchetState K → Sealed K → ℕ → Prop}

omit [DecidableEq K] in
theorem encrypt (h : EachAccepted S Q s)
    (hQ : ∀ v st st' m j, Session.SameReceiving st st' → Q v st m j → Q v st' m j) (p : Party)
    (plaintext ad : Bytes) : EachAccepted S Q (s.encrypt P p plaintext ad) := by
  obtain ⟨hsame, hopened, hchains, hsent⟩ := Session.encrypt_frame (P := P) s p plaintext ad
  intro o ho
  rw [hopened] at ho
  obtain ⟨m, hm, j, hat, henc, hQm⟩ := h o ho
  refine ⟨m, ?_, j, hat, henc, ?_⟩
  · rcases hsent with hsent | ⟨m', hsent, -⟩
    · rwa [hsent]
    · rw [hsent]
      exact List.mem_cons_of_mem _ hm
  · rw [hchains]
    exact hQ _ _ _ m j (hsame _) hQm

theorem decrypt (hS : S.KdfSeparates) (hsync : Sync S s) (h : EachAccepted S Q s)
    (hafter : Sync S (s.decrypt P b p env encHeader ciphertext ad))
    (hcarries : Carries S Q s p encHeader v'
      (Ratchet.decrypt P b env encHeader ciphertext ad (s.state p))) :
    EachAccepted S Q (s.decrypt P b p env encHeader ciphertext ad) := by
  have hview := hsync.view_decrypt hS hafter hcarries.moves
  obtain ⟨o, st, hres⟩ : ∃ o st, Ratchet.decrypt P b env encHeader ciphertext ad (s.state p)
      = (o, st) := ⟨_, _, rfl⟩
  rw [hres] at hcarries
  have hst := Session.decrypt_state_self hres
  have hold : ∀ o' ∈ s.opened, ∃ m ∈ s.sent, ∃ j, SentAt S m j ∧ m.encHeader = o'.encHeader ∧
      Q (view o'.party (s.decrypt P b p env encHeader ciphertext ad).chains.length)
        ((s.decrypt P b p env encHeader ciphertext ad).state o'.party) m j := by
    intro o' ho'
    obtain ⟨m, hm, j, hat, henc, hQm⟩ := h o' ho'
    refine ⟨m, hm, j, hat, henc, ?_⟩
    by_cases hq : o'.party = p
    · rw [hq] at hQm ⊢
      rw [hview, hst]
      exact hcarries.old m j hQm
    · rw [hsync.view_decrypt_of_ne hS hafter hq, Session.decrypt_state_of_ne hq]
      exact hQm
  intro o' ho'
  cases o with
  | ok q =>
    rw [Session.decrypt_opened hres] at ho'
    rcases List.mem_cons.mp ho' with rfl | ho'
    · obtain ⟨m, hm, j, hat, henc, hQm⟩ := hcarries.new q rfl
      refine ⟨m, hm, j, hat, henc, ?_⟩
      dsimp only
      rwa [hview, hst]
    · exact hold o' ho'
  | err e =>
    rw [Session.decrypt_opened_of_not_ok hres (by simp)] at ho'
    exact hold o' ho'
  | panic =>
    rw [Session.decrypt_opened_of_not_ok hres (by simp)] at ho'
    exact hold o' ho'

end EachAccepted

end Ratchet
