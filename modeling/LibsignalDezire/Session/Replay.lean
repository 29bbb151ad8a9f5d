/-
Replay protection, and where it ends.

* `no_replay` — in a run without gaps no message is accepted twice by a party;
* `replay_after_gap` — after a gap a message is.
-/
import LibsignalDezire.Session.InOrder

namespace Ratchet

variable {K : Type} [DecidableEq K] {P : Primitives K} {b : Build} {s : Session K}
  {S : Schedule P}

/-- A message that is spent is not accepted again. -/
theorem AllSpent.refuses (hP : Correct P) (hS : S.KdfSeparates) (h : Sync S s)
    (hnonces : NoncesUsed s) (hspent : AllSpent S s) {o : Opened} (ho : o ∈ s.opened)
    {env : CallEnv K} (hauth : AuthenticCall P b s o.party o.encHeader o.ciphertext o.ad)
    (q : Bytes) :
    (Ratchet.decrypt P b env o.encHeader o.ciphertext o.ad (s.state o.party)).1 ≠ .ok q := by
  obtain ⟨m, hm, j, hat, henc, hsp⟩ := hspent.spent o ho
  have hrec := receives env hP hS h hauth
  have hsame : ∀ {m' j'}, m' ∈ s.sent → m'.Is o.encHeader o.ciphertext o.ad → SentAt S m' j' →
      m' = m ∧ j' = j :=
    fun hm' his hat' => hnonces.place_inj hS hm' hm (his.encHeader.trans henc.symm) hat' hat
  generalize Ratchet.decrypt P b env o.encHeader o.ciphertext o.ad (s.state o.party) = r at hrec
  cases hrec with
  | refused hno => exact hno q
  | skipped hm' hat' his hle hpar hstored =>
    obtain ⟨rfl, rfl⟩ := hsame hm' his hat'
    exact absurd hstored hsp.not_stored
  | current hm' hat' his haccept hview hle =>
    obtain ⟨rfl, rfl⟩ := hsame hm' his hat'
    have := hsp.passed hview
    omega
  | lost => simp
  | ratchet hm' hat' his =>
    obtain ⟨rfl, rfl⟩ := hsame hm' his hat'
    have := hsp.le_view
    omega

/-- **No replay in order.**  In every run in which no call gets to the skip loop of
its own chain with a header beyond the next expected number, once `decrypt` on a
party's state has returned a plaintext, no later `decrypt` of the same triple on
that party's state returns one. -/
theorem no_replay (hP : Correct P) {sk : K} {bob dhS : DhPrivateKey} {s₀ : Session K}
    (h₀ : Session.start P sk bob dhS = .ok s₀) {es₁ es₂ : List (Event K)} {p : Party}
    {env env' : CallEnv K} {encHeader ciphertext ad q : Bytes}
    (hS : ((Machine.run (Session.step P b) s₀ (es₁ ++
      .decrypt p env encHeader ciphertext ad :: es₂)).schedule P sk bob).KdfSeparates)
    (hes : Machine.Along (Session.step P b) (fun s e => Authentic P b s e ∧ InOrder P b s e) s₀
      (es₁ ++ .decrypt p env encHeader ciphertext ad :: es₂ ++
        [.decrypt p env' encHeader ciphertext ad]))
    (hfirst : (decrypt P b env encHeader ciphertext ad
      ((Machine.run (Session.step P b) s₀ es₁).state p)).1 = .ok q) (q' : Bytes) :
    (decrypt P b env' encHeader ciphertext ad ((Machine.run (Session.step P b) s₀
      (es₁ ++ .decrypt p env encHeader ciphertext ad :: es₂)).state p)).1 ≠ .ok q' := by
  obtain ⟨hes, hauth, -⟩ := Machine.along_concat.mp hes
  have hreach : Reachable P b sk bob (fun s e => Authentic P b s e ∧ InOrder P b s e) _ :=
    ⟨dhS, s₀, _, h₀, hes, rfl⟩
  have hagrees := agrees_schedule (P := P) sk bob
    (Machine.run (Session.step P b) s₀ (es₁ ++ .decrypt p env encHeader ciphertext ad :: es₂))
  have hsync := (hreach.mono fun s e he => he.1).sync hP hS hagrees
  exact (hreach.inOrder hP hS hagrees).refuses hP hS hsync hreach.noncesUsed
    (Session.mem_opened_run es₂ hfirst) hauth q'

open Symbolic in
/-- The responder has received the first two of three messages in order, and the
first is delivered again. -/
theorem no_replay_of_first_message :
    (decrypt primitives .release (env 4) (message 0).encHeader (message 0).ciphertext
      (message 0).ad ((Machine.run (Session.step primitives .release) session
        (threeSent ++ .decrypt .responder (env 3) (message 0).encHeader (message 0).ciphertext
          (message 0).ad :: [receive 1])).state .responder)).1 ≠ .ok [0x61] := by
  have hes : Machine.Along (Session.step primitives .release)
      (fun s e => Authentic primitives .release s e ∧ InOrder primitives .release s e) session
      (threeSent ++ .decrypt .responder (env 3) (message 0).encHeader (message 0).ciphertext
        (message 0).ad :: [receive 1] ++ [.decrypt .responder (env 4) (message 0).encHeader
          (message 0).ciphertext (message 0).ad]) := by
    decide +kernel
  have hfirst : (decrypt primitives .release (env 3) (message 0).encHeader (message 0).ciphertext
      (message 0).ad ((Machine.run (Session.step primitives .release) session
        threeSent).state .responder)).1 = .ok [0x61] := by
    decide +kernel
  exact no_replay correct start (Schedule.kdfSeparates collisionFree) hes hfirst [0x61]

open Symbolic in
/-- **Replay after a gap.**  Message 2 arrives first, so that message 1 is stored;
message 1 is accepted from the store, and accepted once more by the chain, which
has only moved one step. -/
theorem replay_after_gap :
    Machine.Along (Session.step primitives .release) (Authentic primitives .release) session
      (threeSent ++ [receive 2, receive 1, receive 1]) ∧
    (decrypt primitives .release (env 3) (message 1).encHeader (message 1).ciphertext
      (message 1).ad ((after (threeSent ++ [receive 2])).state .responder)).1 = .ok [0x62] ∧
    (decrypt primitives .release (env 3) (message 1).encHeader (message 1).ciphertext
      (message 1).ad ((after (threeSent ++ [receive 2, receive 1])).state .responder)).1
        = .ok [0x62] := by
  decide +kernel

end Ratchet
