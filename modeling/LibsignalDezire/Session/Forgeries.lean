/-
Forged traffic: messages that the peer never sent.

On ideal authenticated encryption a triple that the peer's `encrypt` never
returned as a whole (bytes made up, a tampered body under a genuine header,
parts of two messages, other associated data) opens under no key of the
receiver, in any state; and a call that opens nothing writes nothing.

The one exception is the sum of the skip-limit test, which aborts a `dev` build
before the message is authenticated.

* `Forged.idle` — a forged delivery is refused and leaves the session alone;
* `forged_traffic_inert_iff` — **any number of forged deliveries, inserted
  anywhere into a run, is refused and changes nothing else**, unless one
  overflows.
-/
import LibsignalDezire.Session.Receive

namespace Ratchet

variable {K : Type} [DecidableEq K] (P : Primitives K)

/-! ### Insertions -/

/-- An event of a run, or a delivery inserted into it. -/
inductive Traffic (K : Type) where
  | own (e : Event K)
  | inserted (p : Party) (env : CallEnv K) (encHeader ciphertext ad : Bytes)

namespace Traffic

/-- What happens. -/
def event : Traffic K → Event K
  | own e => e
  | inserted p env encHeader ciphertext ad => .decrypt p env encHeader ciphertext ad

/-- What happens in the run without the insertions. -/
def ownEvent : Traffic K → Option (Event K)
  | own e => some e
  | inserted .. => none

omit [DecidableEq K] in
theorem event_of_ownEvent (t : Traffic K) (e : Event K) (h : t.ownEvent = some e) :
    t.event = e := by
  cases t with
  | own e' => exact Option.some_inj.mp h
  | inserted => cases h

end Traffic

instance (m : Sealed K) (encHeader ciphertext ad : Bytes) :
    Decidable (m.Is encHeader ciphertext ad) :=
  decidable_of_iff (m.encHeader = encHeader ∧ m.ciphertext = ciphertext ∧ m.ad = ad)
    ⟨fun h => ⟨h.1, h.2.1, h.2.2⟩, fun h => ⟨h.encHeader, h.ciphertext, h.ad⟩⟩

/-- The peer of `p` has not sent the triple. -/
def Forged (s : Session K) (p : Party) (encHeader ciphertext ad : Bytes) : Prop :=
  ∀ m ∈ s.sent, m.owner = p.peer → ¬ m.Is encHeader ciphertext ad

instance (s : Session K) (p : Party) (encHeader ciphertext ad : Bytes) :
    Decidable (Forged s p encHeader ciphertext ad) :=
  inferInstanceAs (Decidable (∀ m ∈ s.sent, _))

/-- The inserted deliveries are forged. -/
def OnlyForged (s : Session K) : Traffic K → Prop
  | .own _ => True
  | .inserted p _ encHeader ciphertext ad => Forged s p encHeader ciphertext ad

instance (s : Session K) : DecidablePred (OnlyForged s)
  | .own _ => isTrue trivial
  | .inserted p _ encHeader ciphertext ad =>
    inferInstanceAs (Decidable (Forged s p encHeader ciphertext ad))

/-! ### A forged delivery -/

section Idle

variable {P} {S : Schedule P} {s : Session K} {b : Build} {p : Party} {env : CallEnv K}
  {encHeader ciphertext ad : Bytes} (hP : Correct P) (hS : S.KdfSeparates) (h : Sync S s)
  (hauth : AuthenticCall P b s p encHeader ciphertext ad)
  (hforged : Forged s p encHeader ciphertext ad)

include hP hS h hauth hforged

variable (env) in
/-- A forged delivery opens nothing. -/
theorem Forged.refused : ∃ o, (∀ q, o ≠ .ok q) ∧
    decrypt P b env encHeader ciphertext ad (s.state p) = (o, s.state p) ∧
    (ad.length ≤ maxAdSize → ∀ k key q, (s.state p).mkskipped.lookup k = some key →
      ¬ Opens P k key encHeader ciphertext (concatAd ad encHeader) q) ∧
    ∀ header f q, ¬ Authenticates P b (s.state p) encHeader ciphertext ad header f q := by
  -- whatever is accepted was sent by the peer
  have hpeer : ∀ m ∈ s.sent, ∀ j, SentAt S m j → (j + view p s.chains.length) % 2 = 0 →
      ¬ m.Is encHeader ciphertext ad := by
    intro m hm j hat hpar
    exact hforged m hm (hat.owner.trans ((partyOf_eq_peer h.pos).mpr hpar))
  have hrec := receives env hP hS h hauth
  generalize decrypt P b env encHeader ciphertext ad (s.state p) = r at hrec
  cases hrec with
  | refused ho hskip hno => exact ⟨_, ho, rfl, hskip, hno⟩
  | skipped hm hat his _ hpar => exact absurd his (hpeer _ hm _ hat hpar)
  | current hm hat his _ hview => exact absurd his (hpeer _ hm _ hat (by omega))
  | lost hm hat his => exact absurd his (hpeer _ hm _ hat (by omega))
  | ratchet hm hat his => exact absurd his (hpeer _ hm _ hat (by omega))

/-- It returns an error, unless it aborts in the skip-limit test. -/
theorem Forged.error_iff : (∃ e, (decrypt P b env encHeader ciphertext ad
    (s.state p)).1 = .err e) ↔
    ¬ Overflows P b (s.state p) encHeader ad := by
  obtain ⟨o, ho, hres, hskip, hno⟩ := hforged.refused env hP hS h hauth
  constructor
  · rintro ⟨e, he⟩ hover
    rw [hover.decrypt_eq (hskip hover.ad_le)] at he
    cases he
  · intro hover
    by_cases had : maxAdSize < ad.length
    · exact ⟨_, by rw [decrypt_of_adTooLarge P had]⟩
    · cases o with
      | ok q => exact absurd rfl (ho q)
      | err e => exact ⟨e, by rw [hres]⟩
      | panic => exact absurd (overflows_of_panic (hskip (not_lt.mp had)) (not_lt.mp had) hno
          (congrArg Prod.fst hres)) hover

/-- It leaves the whole session alone. -/
theorem Forged.idle : s.step P b (.decrypt p env encHeader ciphertext ad) = s := by
  obtain ⟨o, ho, hres, -, -⟩ := hforged.refused env hP hS h hauth
  have hstate := Session.decrypt_state hres
  rw [Function.update_eq_self] at hstate
  have hopened := Session.decrypt_opened_of_not_ok hres ho
  have hchains := Session.decrypt_chains hres rfl
  have hsent : (s.decrypt P b p env encHeader ciphertext ad).sent = s.sent := rfl
  rw [Session.step]
  generalize s.decrypt P b p env encHeader ciphertext ad = s' at hstate hopened hchains hsent ⊢
  obtain ⟨state, sent, opened, chains⟩ := s'
  dsimp only at hstate hopened hchains hsent
  rw [hstate, hopened, hchains, hsent]

end Idle

/-! ### Any number of forged deliveries -/

/-- An inserted delivery returns an error. -/
def Refused (b : Build) (s : Session K) : Traffic K → Prop
  | .own _ => True
  | .inserted p env encHeader ciphertext ad =>
    ∃ e, (decrypt P b env encHeader ciphertext ad (s.state p)).1 = .err e

/-- An inserted delivery does not overflow the sum of the skip-limit test; in a
`release` build none does. -/
def DoesNotOverflow (b : Build) (s : Session K) : Traffic K → Prop
  | .own _ => True
  | .inserted p _ encHeader _ ad => ¬ Overflows P b (s.state p) encHeader ad

variable {P} {b : Build} {sk : K} {bob dhS : DhPrivateKey} {s₀ : Session K}

/-- **Forged traffic is inert.**  Take any run over ideal primitives into which
deliveries of forged triples have been inserted.  They are all refused with an
error, the run ends as it does without them, and every other call returns what
it returns without them, exactly when none of them overflows. -/
theorem forged_traffic_inert_iff (hP : Correct P) (h₀ : Session.start P sk bob dhS = .ok s₀)
    {ts : List (Traffic K)}
    (hS : ((Machine.run (Session.step P b) s₀ (ts.map Traffic.event)).schedule P sk
      bob).KdfSeparates)
    (hts : Machine.Along (fun s (t : Traffic K) => s.step P b t.event)
      (fun s t => Authentic P b s t.event ∧ OnlyForged s t) s₀ ts) :
    (Machine.Along (fun s (t : Traffic K) => s.step P b t.event) (Refused P b) s₀ ts ∧
      Machine.run (Session.step P b) s₀ (ts.map Traffic.event)
        = Machine.run (Session.step P b) s₀ (ts.filterMap Traffic.ownEvent) ∧
      (Machine.trace (fun s (t : Traffic K) => s.step P b t.event)
        (fun s t => t.ownEvent.map (s.reply P b)) s₀ ts).reduceOption
        = Machine.trace (Session.step P b) (Session.reply P b) s₀
          (ts.filterMap Traffic.ownEvent)) ↔
    Machine.Along (fun s (t : Traffic K) => s.step P b t.event) (DoesNotOverflow P b) s₀ ts := by
  have hreach := hts.with_invariant (I := Reachable P b sk bob (Authentic P b))
    (fun s t hs ht => hs.step ht.1) ⟨dhS, s₀, [], h₀, trivial, rfl⟩
  -- one schedule for the whole run
  have hsync := hreach.and (Machine.along_map.mp (agrees_schedule sk bob _).along)
  have hidle : Machine.Along (fun s (t : Traffic K) => s.step P b t.event)
      (fun s t => t.ownEvent = none → s.step P b t.event = s) s₀ ts := by
    refine hsync.mono fun s t ht hnone => ?_
    obtain ⟨⟨hreach, hauth, hforged⟩, hagrees⟩ := ht
    cases t with
    | own e => cases hnone
    | inserted p env encHeader ciphertext ad =>
      exact Forged.idle hP hS (hreach.sync hP hS hagrees.of_step) hauth hforged
  have hrefused : Machine.Along (fun s (t : Traffic K) => s.step P b t.event)
      (fun s t => Refused P b s t ↔ DoesNotOverflow P b s t) s₀ ts := by
    refine hsync.mono fun s t ht => ?_
    obtain ⟨⟨hreach, hauth, hforged⟩, hagrees⟩ := ht
    cases t with
    | own e => exact Iff.rfl
    | inserted p env encHeader ciphertext ad =>
      exact Forged.error_iff hP hS (hreach.sync hP hS hagrees.of_step) hauth hforged
  rw [← hrefused.congr]
  exact ⟨And.left, fun h => ⟨h, (Machine.run_filterMap_of_idle
    Traffic.event_of_ownEvent hidle).symm,
    (Machine.trace_filterMap_of_idle Traffic.event_of_ownEvent hidle).symm⟩⟩

namespace Symbolic

/-- Message 1 is delivered with the body of message 2, then as it was sent, then
with other associated data. -/
def spliced : List (Traffic Key) :=
  threeSent.map .own ++
    [.inserted .responder (Symbolic.env 4) (message 1).encHeader (message 2).ciphertext [],
      .own (receive 1),
      .inserted .responder (Symbolic.env 5) (message 1).encHeader (message 1).ciphertext [0x00]]

/-- The spliced message is refused, and the session ends as without it. -/
theorem forged_traffic_inert_of_spliced :
    Machine.Along (fun s (t : Traffic Key) => s.step primitives .release t.event)
      (Refused primitives .release) session spliced ∧
    Machine.run (Session.step primitives .release) session (spliced.map Traffic.event)
      = after (threeSent ++ [receive 1]) := by
  have hts : Machine.Along (fun s (t : Traffic Key) => s.step primitives .release t.event)
      (fun s t => Authentic primitives .release s t.event ∧ OnlyForged s t) session spliced := by
    decide +kernel
  have hover : Machine.Along (fun s (t : Traffic Key) => s.step primitives .release t.event)
      (DoesNotOverflow primitives .release) session spliced := by
    refine .of_forall fun t _ s => ?_
    cases t with
    | own e => trivial
    | inserted p env encHeader ciphertext ad =>
      intro h
      cases h.dev
  obtain ⟨hrefused, hrun, -⟩ :=
    (forged_traffic_inert_iff correct start (Schedule.kdfSeparates collisionFree) hts).mpr hover
  exact ⟨hrefused, hrun⟩

end Symbolic

end Ratchet
