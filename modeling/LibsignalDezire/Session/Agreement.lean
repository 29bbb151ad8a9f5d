/-
Authenticated agreement.

* `authenticated_agreement` — whatever `decrypt` accepts was encrypted by the
  peer, earlier in the run, with the same plaintext and associated data.
-/
import LibsignalDezire.Session.Receive

namespace Ratchet

variable {K : Type} [DecidableEq K] {P : Primitives K} {b : Build}

/-- In a synchronised session, an accepted message is one that the peer sent. -/
theorem Sync.accepted_is_sent {S : Schedule P} {s : Session K} (hP : Correct P)
    (hS : S.KdfSeparates) (h : Sync S s) {p : Party} {env : CallEnv K}
    {encHeader ciphertext ad q : Bytes} (hauth : AuthenticCall P b s p encHeader ciphertext ad)
    (hdec : (Ratchet.decrypt P b env encHeader ciphertext ad (s.state p)).1 = .ok q) :
    ∃ m ∈ s.sent, m.owner = p.peer ∧ m.Is encHeader ciphertext ad ∧ m.plaintext = q := by
  have hpeer : ∀ {j}, (j + view p s.chains.length) % 2 = 0 → partyOf j = p.peer :=
    fun hpar => (partyOf_eq_peer h.pos).mpr hpar
  have hrec := receives env hP hS h hauth
  generalize Ratchet.decrypt P b env encHeader ciphertext ad (s.state p) = r at hrec hdec
  cases hrec with
  | refused ho => exact absurd hdec (ho q)
  | @skipped m j hm hat his hle hpar hstored =>
    exact ⟨m, hm, hat.owner.trans (hpeer hpar), his, Outcome.ok.inj hdec⟩
  | @current m j mkskipped nr hm hat his haccept hview =>
    refine ⟨m, hm, hat.owner.trans (hpeer (by omega)), his, ?_⟩
    simp only [trackMessage] at hdec
    split at hdec
    · cases hdec
    · exact Outcome.ok.inj hdec
  | lost => cases hdec
  | @ratchet m mk₁ mk₂ hm hat his =>
    exact ⟨m, hm, hat.owner.trans (hpeer (by omega)), his, Outcome.ok.inj hdec⟩

/-- **Authenticated agreement.**  Whenever `decrypt` returns `q` to one party,
whichever route accepted the message, the other party had called `encrypt` with
the plaintext `q` and the same associated data, and that call returned exactly
the encrypted header and ciphertext delivered. -/
theorem authenticated_agreement (hP : Correct P) {sk : K} {bob dhS : DhPrivateKey}
    {s₀ : Session K} (h₀ : Session.start P sk bob dhS = .ok s₀) {es : List (Event K)}
    (hS : ((Machine.run (Session.step P b) s₀ es).schedule P sk bob).KdfSeparates)
    {p : Party} {env : CallEnv K} {encHeader ciphertext ad q : Bytes}
    (hes : Machine.Along (Session.step P b) (Authentic P b) s₀
      (es ++ [.decrypt p env encHeader ciphertext ad]))
    (hdec : (decrypt P b env encHeader ciphertext ad
      ((Machine.run (Session.step P b) s₀ es).state p)).1 = .ok q) :
    ∃ es₁ es₂, es = es₁ ++ .encrypt p.peer q ad :: es₂ ∧
      (encrypt P q ad ((Machine.run (Session.step P b) s₀ es₁).state p.peer)).1
        = .ok (encHeader, ciphertext) := by
  obtain ⟨hes, hauth⟩ := Machine.along_concat.mp hes
  have hreach : Reachable P b sk bob (Authentic P b) (Machine.run (Session.step P b) s₀ es) :=
    ⟨dhS, s₀, es, h₀, hes, rfl⟩
  have hsync := hreach.sync hP hS (agrees_schedule sk bob _)
  obtain ⟨m, hm, howner, his, hq⟩ := hsync.accepted_is_sent hP hS hauth hdec
  rcases Session.encrypt_of_mem_sent hm with hm₀ | ⟨es₁, es₂, hes, hcall⟩
  · cases h₀
    cases hm₀
  · rw [howner, his.ad, hq] at hes
    rw [howner, his.ad, his.encHeader, his.ciphertext, hq] at hcall
    exact ⟨es₁, es₂, hes, hcall⟩

open Symbolic in
/-- Message 1 is answered from the stored keys, after message 2 has arrived. -/
theorem authenticated_agreement_of_stored : ∃ es₁ es₂,
    threeSent ++ [receive 2] = es₁ ++ .encrypt .initiator [0x62] (message 1).ad :: es₂ ∧
      (encrypt primitives [0x62] (message 1).ad
        ((Machine.run (Session.step primitives .release) session es₁).state .initiator)).1
        = .ok ((message 1).encHeader, (message 1).ciphertext) := by
  have hes : Machine.Along (Session.step primitives .release) (Authentic primitives .release)
      session (threeSent ++ [receive 2] ++ [.decrypt .responder (env 3) (message 1).encHeader
        (message 1).ciphertext (message 1).ad]) := by
    decide +kernel
  have hdec : (decrypt primitives .release (env 3) (message 1).encHeader (message 1).ciphertext
      (message 1).ad ((Machine.run (Session.step primitives .release) session
        (threeSent ++ [receive 2])).state .responder)).1 = .ok [0x62] := by
    decide +kernel
  exact authenticated_agreement correct start (Schedule.kdfSeparates collisionFree) hes hdec

end Ratchet
