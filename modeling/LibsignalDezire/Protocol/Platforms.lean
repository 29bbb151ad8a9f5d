/-
A session between processes of any platform.

The ends of a session are in different processes, or in one, each with its own library
and its own memory.  A process uses the C API or the bindings for Java, and may be killed
at any time; what it copied out of the library is all that it then still has.  What is
in flight between the processes is nobody's concern here.

* `platforms_are_session` — **whatever the processes do, what they read on the ends of
  the session is what the session replies**;
* `platforms_agree` — whatever a process reads as the plaintext of a message, the process
  with the other end had encrypted.
-/
import Mathlib.Tactic.DeriveEncodable
import LibsignalDezire.Jni.Session
import LibsignalDezire.Lib.Simulation
import LibsignalDezire.Session.World

namespace Protocol

open Ffi (Block Track Client Tracks)
open Jni (Reading)
open Ratchet (RatchetState RatchetError SavedState Json Session Party Event CallEnv Build
  DhPrivateKey Correct CollisionFree Authentic)

variable {K : Type}

/-! ### Processes -/

/-- What a process does: it calls the C API, it is a JVM that calls the bindings, or it is
killed and started again. -/
inductive Action (K : Type) where
  | c (call : Ffi.Call K)
  | java (call : Jni.Call K)
  | restart

inductive Platform where
  | c
  | java
  deriving DecidableEq

/-- What is read of a reply of the session. -/
def Platform.see : Platform → Ratchet.Reply → Reading
  | .c => .ofReply some
  | .java => .ofReply fun _ => none

/-- The library's memory is gone. -/
def restarted (s : Client K) : Client K :=
  ⟨Heap.empty, { s.track with handle := fun _ => 0 }⟩

/-- The iteration order that an action finds is that of the keys of the map. -/
def Action.OfKeys : Action K → Prop
  | .c call => call.OfKeys
  | .java call => call.OfKeys
  | .restart => True

/-- The event of the session that an action is, if it is one, and where. -/
def event (s : Client K) : Action K → Option (Platform × Event K)
  | .c call => (s.event call).map fun e => (.c, e)
  | .java call => (Jni.event s.track call).map fun e => (.java, e)
  | .restart => none

section Process

variable [DecidableEq K] [Json K] (P : Ratchet.Primitives K)
  (ofBytes : BytesN 32 → K) (b : Build)

def act (s : Client K) : Action K → Client K
  | .c call => s.step P ofBytes b call
  | .java call => Jni.step P ofBytes b s call
  | .restart => restarted s

/-- The call returns. -/
def Returns (s : Client K) : Action K → Prop
  | .c call => s.Returns P ofBytes b call
  | .java call => Jni.Returns P ofBytes b s call
  | .restart => True

instance (s : Client K) : DecidablePred (Returns P ofBytes b s)
  | .c call => inferInstanceAs (Decidable (s.Returns P ofBytes b call))
  | .java call => inferInstanceAs (Decidable (Jni.Returns P ofBytes b s call))
  | .restart => isTrue trivial

/-- What the process reads on an end of the session. -/
def reading (s : Client K) : Action K → Option Reading
  | .c call => (s.reading P ofBytes b call).map Platform.c.see
  | .java call => Jni.reading P ofBytes b s call
  | .restart => none

end Process

/-! ### Where the ends are -/

/-- An end of the session is here. -/
def Has (τ : Track K) (q : Party) : Prop := τ.handle q ≠ 0 ∨ ∃ e ∈ τ.copies, e.2 = q

/-- The party of an event. -/
def party : Event K → Party
  | .encrypt q _ _ => q
  | .decrypt q _ _ _ _ => q

section Has

variable {τ : Track K} {q : Party}

theorem has_of_party {ptr : ℕ} (hq : τ.party ptr = some q) : Has τ q := by
  obtain ⟨hne, rfl⟩ := Track.party_eq_some hq
  exact .inl hne

theorem has_of_noteEvent {e : Option (Event K)} (hq : Has (τ.noteEvent e) q) : Has τ q := by
  have huse : ∀ p, Has (τ.use p) q → Has τ q := by
    rintro p (hhandle | ⟨e, he, rfl⟩)
    · exact .inl hhandle
    · exact .inr ⟨e, List.mem_of_mem_filter he, rfl⟩
  unfold Track.noteEvent at hq
  split at hq
  · exact huse _ hq
  · exact huse _ hq
  · exact hq

theorem has_of_keep {statePtr : ℕ} {saved : Option (SavedState K)}
    (hq : Has (τ.keep statePtr saved) q) : Has τ q := by
  unfold Track.keep at hq
  split at hq
  case h_2 => exact hq
  case h_1 p saved' hp =>
    rcases hq with hhandle | ⟨e, he, rfl⟩
    · exact .inl hhandle
    · rcases List.mem_cons.mp he with rfl | he
      · exact has_of_party hp
      · exact .inr ⟨e, he, rfl⟩

theorem has_of_restore {p : Option Party} {ptr : ℕ} (hp : ∀ p', p = some p' → Has τ p')
    (hq : Has (τ.restore p ptr) q) : Has τ q := by
  unfold Track.restore at hq
  cases p with
  | none => exact hq
  | some p =>
    dsimp only at hq
    split at hq
    case isTrue => exact hq
    case isFalse =>
      rcases hq with hhandle | hrest
      · rcases Party.eq_or_eq_peer p q with rfl | rfl
        · exact hp q rfl
        · dsimp only at hhandle
          rw [Function.update_of_ne (Party.peer_ne p)] at hhandle
          exact .inl hhandle
      · exact .inr hrest

theorem has_of_copyOf [DecidableEq K] {saved : SavedState K}
    (hq : τ.copyOf saved = some q) : Has τ q := by
  obtain ⟨e, he, rfl⟩ := Option.map_eq_some_iff.mp hq
  exact .inr ⟨e, List.mem_of_find?_eq_some he, rfl⟩

theorem has_of_free {ptr : ℕ} (hq : Has (τ.free ptr) q) : Has τ q := by
  rcases hq with hhandle | hrest
  · obtain ⟨-, heq⟩ := Track.free_handle hhandle
    rw [heq] at hhandle
    exact .inl hhandle
  · exact .inr hrest

theorem has_of_note [DecidableEq K] [Json K] {h : Heap (Block K)} {call : Ffi.Call K}
    {r : Ffi.Reply} (hq : Has (τ.note h call r) q) : Has τ q := by
  unfold Track.note at hq
  split at hq
  case h_1 =>
    split at hq
    case isTrue => exact hq
    case isFalse => exact has_of_keep hq
  -- an end is restored from what the process has saved
  case h_2 =>
    refine has_of_restore (fun p hp => ?_) hq
    obtain ⟨saved, -, hcopy⟩ := Option.bind_eq_some_iff.mp hp
    exact has_of_copyOf hcopy
  case h_3 => exact has_of_free hq
  case h_4 => exact has_of_noteEvent hq

theorem has_of_note_java [DecidableEq K] {call : Jni.Call K} {r : Jni.Reply K}
    (hq : Has (Jni.note τ call r) q) : Has τ q := by
  unfold Jni.note at hq
  split at hq
  case h_1 => exact has_of_keep hq
  case h_2 => exact has_of_restore (fun p hp => has_of_copyOf hp) hq
  case h_3 => exact has_of_free hq
  case h_4 => exact has_of_noteEvent hq

theorem has_of_event_c {s : Client K} {call : Ffi.Call K} {e : Event K}
    (he : s.event call = some e) : Has s.track (party e) := by
  cases call with
  | encrypt A A' statePtr plaintext plaintextLen ad adLen output =>
    cases output with
    | null => cases he
    | dangling => cases he
    | valid =>
      simp only [Client.event, Track.event, Option.bind_eq_bind, Option.bind_eq_some_iff] at he
      obtain ⟨q, hq, _, -, _, -, heq⟩ := he
      cases heq
      exact has_of_party hq
  | decrypt A env statePtr header headerLen ciphertext ciphertextLen ad adLen output =>
    cases output with
    | null => cases he
    | dangling => cases he
    | valid =>
      simp only [Client.event, Track.event, Option.bind_eq_bind, Option.bind_eq_some_iff] at he
      obtain ⟨q, hq, _, -, _, -, _, -, heq⟩ := he
      cases heq
      exact has_of_party hq
  | _ => cases he

theorem has_of_event_java {call : Jni.Call K} {e : Event K} (he : Jni.event τ call = some e) :
    Has τ (party e) := by
  unfold Jni.event at he
  split at he
  case h_1 =>
    obtain ⟨q, hq, rfl⟩ := Option.map_eq_some_iff.mp he
    exact has_of_party hq
  case h_2 =>
    obtain ⟨q, hq, rfl⟩ := Option.map_eq_some_iff.mp he
    exact has_of_party hq
  case h_3 => cases he

/-- Only who has an end of the session can use it. -/
theorem has_of_event {s : Client K} {a : Action K} {e : Platform × Event K}
    (he : event s a = some e) : Has s.track (party e.2) := by
  cases a with
  | c call =>
    obtain ⟨e', he', rfl⟩ := Option.map_eq_some_iff.mp he
    exact has_of_event_c he'
  | java call =>
    obtain ⟨e', he', rfl⟩ := Option.map_eq_some_iff.mp he
    exact has_of_event_java he'
  | restart => cases he

/-- No end of the session turns up where none was. -/
theorem has_of_act [DecidableEq K] [Json K] {P : Ratchet.Primitives K} {ofBytes : BytesN 32 → K}
    {b : Build} {s : Client K} {a : Action K} (hq : Has (act P ofBytes b s a).track q) :
    Has s.track q := by
  cases a with
  | c call =>
    rw [act, Client.step] at hq
    split at hq
    · exact has_of_note hq
    · exact hq
  | java call =>
    rw [act, Jni.step] at hq
    split at hq
    · exact has_of_note_java hq
    · exact hq
  | restart =>
    rcases hq with hhandle | hcopies
    · exact absurd rfl hhandle
    · exact .inr hcopies

end Has

/-! ### One action -/

section Step

variable [DecidableEq K] [Json K] {P : Ratchet.Primitives K}
  {ofBytes : BytesN 32 → K} {b : Build}
  {s : Client K} {σ : Session K}

omit [Json K] in
/-- After a restart what was saved is still right. -/
theorem tracks_restarted (hs : Tracks s σ) : Tracks (restarted s) σ :=
  ⟨fun _ hq => absurd rfl hq, fun _ hq => absurd rfl hq, hs.copies⟩

theorem tracks_some (hs : Tracks s σ) {a : Action K} (ha : Returns P ofBytes b s a)
    (hkeys : a.OfKeys) {e : Platform × Event K} (he : event s a = some e) :
    reading P ofBytes b s a = some (e.1.see (σ.reply P b e.2)) ∧
      Tracks (act P ofBytes b s a) (σ.step P b e.2) := by
  cases a with
  | c call =>
    obtain ⟨e', he', rfl⟩ := Option.map_eq_some_iff.mp he
    obtain ⟨hreading, htracks⟩ := hs.step_some ha hkeys he'
    exact ⟨by rw [reading, hreading]; rfl, htracks⟩
  | java call =>
    obtain ⟨e', he', rfl⟩ := Option.map_eq_some_iff.mp he
    exact Jni.java_some hs ha hkeys he'
  | restart => cases he

theorem tracks_none (hs : Tracks s σ) {a : Action K} (ha : Returns P ofBytes b s a)
    (he : event s a = none) :
    reading P ofBytes b s a = none ∧ Tracks (act P ofBytes b s a) σ := by
  cases a with
  | c call =>
    obtain ⟨hreading, htracks⟩ := hs.step_none ha (Option.map_eq_none_iff.mp he)
    exact ⟨by rw [reading, hreading]; rfl, htracks⟩
  | java call => exact Jni.java_none hs ha (Option.map_eq_none_iff.mp he)
  | restart => exact ⟨rfl, tracks_restarted hs⟩

omit [Json K] in
theorem step_state_of_ne (σ : Session K) {e : Event K} {q : Party} (hq : q ≠ party e) :
    (σ.step P b e).state q = σ.state q := by
  cases e with
  | encrypt p plaintext ad =>
    have hstate : (σ.encrypt P p plaintext ad).state = Function.update σ.state p
        (Ratchet.encrypt P plaintext ad (σ.state p)).2 := Session.encrypt_state
    rw [Session.step, hstate]
    exact Function.update_of_ne hq _ _
  | decrypt p env encHeader ciphertext ad => exact Function.update_of_ne hq _ _

omit [Json K] in
/-- What an end of the session does is no matter where that end is not. -/
theorem tracks_elsewhere (hs : Tracks s σ) {e : Event K} (hne : ¬ Has s.track (party e)) :
    Tracks s (σ.step P b e) := by
  refine ⟨fun q hq => ?_, hs.apart, fun c hc => ?_⟩
  · rw [step_state_of_ne σ (fun heq => hne (heq ▸ .inl hq))]
    exact hs.handle q hq
  · rw [step_state_of_ne σ (fun heq => hne (.inr ⟨c, hc, heq⟩))]
    exact hs.copies c hc

end Step

/-! ### Runs -/

variable {ι : Type} [DecidableEq K] [Json K] [DecidableEq ι] {P : Ratchet.Primitives K}
  {ofBytes : BytesN 32 → K} {b : Build}

/-- The processes have the ends of a session, each end in one process only. -/
structure Hold (w : ι → Client K) (σ : Session K) : Prop where
  tracks : ∀ i, Tracks (w i) σ
  home : ∀ i j q, Has (w i).track q → Has (w j).track q → i = j

section Hold

variable {w : ι → Client K} {σ : Session K}

theorem Hold.home_step (hw : Hold w σ) (i : ι) (a : Action K) (j k : ι) (q : Party)
    (hj : Has (Machine.familyStep (act P ofBytes b) w (i, a) j).track q)
    (hk : Has (Machine.familyStep (act P ofBytes b) w (i, a) k).track q) : j = k := by
  have hold : ∀ l, Has (Machine.familyStep (act P ofBytes b) w (i, a) l).track q →
      Has (w l).track q := by
    intro l hl
    by_cases heq : l = i
    · subst heq
      rw [Machine.familyStep_self] at hl
      exact has_of_act hl
    · rwa [Machine.familyStep_of_ne _ w heq] at hl
  exact hw.home j k q (hold j hj) (hold k hk)

theorem Hold.step_some (hw : Hold w σ) {i : ι} {a : Action K} (ha : Returns P ofBytes b (w i) a)
    (hkeys : a.OfKeys) {e : Platform × Event K} (he : event (w i) a = some e) :
    reading P ofBytes b (w i) a = some (e.1.see (σ.reply P b e.2)) ∧
      Hold (Machine.familyStep (act P ofBytes b) w (i, a)) (σ.step P b e.2) := by
  obtain ⟨hreading, htracks⟩ := tracks_some (hw.tracks i) ha hkeys he
  refine ⟨hreading, fun j => ?_, hw.home_step i a⟩
  by_cases heq : j = i
  · subst heq
    rwa [Machine.familyStep_self]
  · rw [Machine.familyStep_of_ne _ w heq]
    exact tracks_elsewhere (hw.tracks j) fun hj => heq (hw.home j i _ hj (has_of_event he))

theorem Hold.step_none (hw : Hold w σ) {i : ι} {a : Action K} (ha : Returns P ofBytes b (w i) a)
    (he : event (w i) a = none) :
    reading P ofBytes b (w i) a = none ∧
      Hold (Machine.familyStep (act P ofBytes b) w (i, a)) σ := by
  obtain ⟨hreading, htracks⟩ := tracks_none (hw.tracks i) ha he
  refine ⟨hreading, fun j => ?_, hw.home_step i a⟩
  by_cases heq : j = i
  · subst heq
    rwa [Machine.familyStep_self]
  · rw [Machine.familyStep_of_ne _ w heq]
    exact hw.tracks j

variable (P ofBytes b)

/-- The events of the session in a run of the processes, and on which platform each is. -/
def events (w : ι → Client K) (as : List (ι × Action K)) : List (Platform × Event K) :=
  (Machine.trace (Machine.familyStep (act P ofBytes b)) (fun w a => event (w a.1) a.2) w
    as).reduceOption

/-- What the processes read on the ends of the session. -/
def readings (w : ι → Client K) (as : List (ι × Action K)) : List Reading :=
  (Machine.trace (Machine.familyStep (act P ofBytes b))
    (fun w a => reading P ofBytes b (w a.1) a.2) w as).reduceOption

/-- Every call of the run returns, and finds its map in an order given by its keys. -/
def Returning (w : ι → Client K) (as : List (ι × Action K)) : Prop :=
  Machine.Along (Machine.familyStep (act P ofBytes b))
    (fun w a => Returns P ofBytes b (w a.1) a.2)
    w as ∧ ∀ a ∈ as, a.2.OfKeys

variable {P ofBytes b}

/-- Both conditions on the calls, along the run. -/
theorem Returning.along {as : List (ι × Action K)} (has : Returning P ofBytes b w as) :
    Machine.Along (Machine.familyStep (act P ofBytes b))
      (fun w a => Returns P ofBytes b (w a.1) a.2 ∧ a.2.OfKeys) w as :=
  has.1.and (Machine.Along.of_forall fun a ha _ => has.2 a ha)

/-- What is read is what the session replies. -/
theorem Hold.readings_eq (hw : Hold w σ) {as : List (ι × Action K)}
    (has : Returning P ofBytes b w as) :
    readings P ofBytes b w as = Machine.trace (fun (σ : Session K) e => σ.step P b e.2)
      (fun σ e => e.1.see (σ.reply P b e.2)) σ (events P ofBytes b w as) :=
  (has.along.projects (fun _ _ _ _ hw ha he => hw.step_some ha.1 ha.2 he)
    (fun _ _ _ hw ha he => hw.step_none ha.1 he) hw).1

/-- The processes keep the ends. -/
theorem Hold.run (hw : Hold w σ) {as : List (ι × Action K)} (has : Returning P ofBytes b w as) :
    Hold (Machine.run (Machine.familyStep (act P ofBytes b)) w as)
      (Machine.run (Session.step P b) σ ((events P ofBytes b w as).map Prod.snd)) := by
  rw [Machine.run_map]
  exact (has.along.projects (fun _ _ _ _ hw ha he => hw.step_some ha.1 ha.2 he)
    (fun _ _ _ hw ha he => hw.step_none ha.1 he) hw).2

theorem returning_append {as as' : List (ι × Action K)} :
    Returning P ofBytes b w (as ++ as') ↔ Returning P ofBytes b w as ∧
      Returning P ofBytes b (Machine.run (Machine.familyStep (act P ofBytes b)) w as) as' := by
  rw [Returning, Machine.along_append, List.forall_mem_append]
  exact and_and_and_comm

theorem events_append (as as' : List (ι × Action K)) : events P ofBytes b w (as ++ as')
    = events P ofBytes b w as ++
      events P ofBytes b (Machine.run (Machine.familyStep (act P ofBytes b)) w as) as' := by
  rw [events, Machine.trace_append, List.reduceOption_append]
  rfl

omit [DecidableEq K] in
theorem see_plaintext {pl : Platform} {x : Outcome RatchetError Bytes} {q : Bytes}
    (h : pl.see (.plaintext x) = .plaintext (.ok q)) : x = .ok q := by
  cases pl with
  | c => cases x <;> cases h; rfl
  | java => cases x <;> cases h; rfl

/-- A plaintext that a process reads is one that the session accepts. -/
theorem Hold.accepts (hw : Hold w σ) {as : List (ι × Action K)} {i : ι} {a : Action K}
    (has : Returning P ofBytes b w (as ++ [(i, a)])) {pl : Platform} {p : Party}
    {env : CallEnv K} {encHeader ciphertext ad q : Bytes}
    (he : event (Machine.run (Machine.familyStep (act P ofBytes b)) w as i) a
      = some (pl, .decrypt p env encHeader ciphertext ad))
    (hread : reading P ofBytes b (Machine.run (Machine.familyStep (act P ofBytes b)) w as i) a
      = some (.plaintext (.ok q))) :
    (events P ofBytes b w (as ++ [(i, a)])).map Prod.snd
        = (events P ofBytes b w as).map Prod.snd ++ [.decrypt p env encHeader ciphertext ad] ∧
      (Ratchet.decrypt P b env encHeader ciphertext ad ((Machine.run (Session.step P b) σ
        ((events P ofBytes b w as).map Prod.snd)).state p)).1 = .ok q := by
  obtain ⟨has, hlast⟩ := returning_append.mp has
  have hhold := hw.run has
  constructor
  · rw [events_append, events, events, Machine.trace, Machine.trace, he, List.map_append]
    rfl
  · -- the reading is the reply of the session
    obtain ⟨hreading, -⟩ := hhold.step_some hlast.1.1 (hlast.2 _ List.mem_cons_self) he
    exact see_plaintext (Option.some_inj.mp (hreading.symm.trans hread))

/-- A message that the session encrypted is one that a process read. -/
theorem Hold.encrypted (hw : Hold w σ) {as : List (ι × Action K)}
    (has : Returning P ofBytes b w as) {es₁ es₂ : List (Event K)} {p : Party}
    {encHeader ciphertext ad q : Bytes}
    (hsplit : (events P ofBytes b w as).map Prod.snd = es₁ ++ .encrypt p q ad :: es₂)
    (hencrypt : (Ratchet.encrypt P q ad ((Machine.run (Session.step P b) σ es₁).state p)).1
      = .ok (encHeader, ciphertext)) :
    ∃ as₁ j a' as₂ pl', as = as₁ ++ (j, a') :: as₂ ∧
      event (Machine.run (Machine.familyStep (act P ofBytes b)) w as₁ j) a'
        = some (pl', .encrypt p q ad) ∧
      reading P ofBytes b (Machine.run (Machine.familyStep (act P ofBytes b)) w as₁ j) a'
        = some (.message (.ok (encHeader, ciphertext))) := by
  -- the event is that of some action, before which the processes have the ends
  obtain ⟨before, after, hafter, rfl, hmap⟩ := List.map_eq_append_iff.mp hsplit
  obtain ⟨⟨pl', e'⟩, after, rfl, rfl, rfl⟩ := List.map_eq_cons_iff.mp hmap
  obtain ⟨as₁, ⟨j, a'⟩, as₂, rfl, hevents, he'⟩ := Machine.reduceOption_trace_eq_append hafter
  refine ⟨as₁, j, a', as₂, pl', rfl, he', ?_⟩
  obtain ⟨has₁, hrest⟩ := returning_append.mp has
  have hhold₁ := hw.run has₁
  obtain ⟨hreading', -⟩ := hhold₁.step_some hrest.1.1 (hrest.2 _ List.mem_cons_self) he'
  rw [show events P ofBytes b w as₁ = before from hevents, Session.reply, hencrypt] at hreading'
  rw [hreading']
  cases pl' <;> rfl

end Hold

/-! ### Opening a session -/

/-- Both ends have just been opened: in process `i` at `alice`, in process `j` at `bob`. -/
def opened (i : ι) (alice : ℕ) (j : ι) (bob : ℕ) (k : ι) : Track K where
  handle := fun
    | .initiator => if k = i then alice else 0
    | .responder => if k = j then bob else 0
  copies := []

/-- One of two for each party. -/
def each {α : Type} (x y : α) : Party → α
  | .initiator => x
  | .responder => y

omit [DecidableEq K] [Json K] in
theorem has_opened {i j k : ι} {alice bob : ℕ} {q : Party}
    (hq : Has (opened i alice j bob k : Track K) q) : k = each i j q := by
  rcases hq with hhandle | ⟨e, he, -⟩
  · cases q with
    | initiator =>
      by_contra hk
      exact hhandle (if_neg hk)
    | responder =>
      by_contra hk
      exact hhandle (if_neg hk)
  · cases he

omit [Json K] in
/-- Processes that have opened the ends of a session have them. -/
theorem hold_opened {heap : ι → Heap (Block K)} {σ : Session K} {i j : ι} {alice bob : ℕ}
    (halice : (heap i).block alice = some (.state (σ.state .initiator)))
    (hbob : (heap j).block bob = some (.state (σ.state .responder)))
    (hne : i = j → alice ≠ bob) : Hold (fun k => ⟨heap k, opened i alice j bob k⟩) σ := by
  -- nothing is saved yet: what is to show is about the two handles
  refine ⟨fun k => ⟨fun q hq => ?_, fun q hq => ?_, fun e he => (by cases he)⟩,
    fun k l q hk hl => ?_⟩
  · have hk := has_opened (.inl hq)
    cases q with
    | initiator =>
      dsimp only [each] at hk ⊢
      subst hk
      rw [opened, if_pos rfl]
      exact ⟨_, halice, .refl _⟩
    | responder =>
      dsimp only [each] at hk ⊢
      subst hk
      rw [opened, if_pos rfl]
      exact ⟨_, hbob, .refl _⟩
  · have hk := has_opened (.inl hq)
    cases q with
    | initiator =>
      dsimp only [each, opened, Party.peer] at hk ⊢
      subst hk
      rw [if_pos rfl]
      split
      case isTrue heq => exact (hne heq).symm
      case isFalse => exact (Heap.ne_zero_of_block halice).symm
    | responder =>
      dsimp only [each, opened, Party.peer] at hk ⊢
      subst hk
      rw [if_pos rfl]
      split
      case isTrue heq => exact hne heq.symm
      case isFalse => exact (Heap.ne_zero_of_block hbob).symm
  · exact (has_opened hk).trans (has_opened hl).symm

/-! ### Two phones -/

namespace Phones

open Ratchet.Symbolic (Key primitives session message env)

instance encodableUInt8 : Encodable UInt8 :=
  .ofLeftInverse UInt8.toNat UInt8.ofNat fun _ => UInt8.ofNat_toNat

instance encodableUInt32 : Encodable UInt32 :=
  .ofLeftInverse UInt32.toNat UInt32.ofNat fun _ => UInt32.ofNat_toNat

instance encodableUInt64 : Encodable UInt64 :=
  .ofLeftInverse UInt64.toNat UInt64.ofNat fun _ => UInt64.ofNat_toNat

deriving instance Encodable for Key

deriving instance Encodable for Ratchet.SavedSkippedKey

deriving instance Encodable for SavedState

/-- A saved state is written as its number, in unary. -/
instance jsonKey : Json Key where
  toString saved := List.replicate (Encodable.encode saved) 1
  fromStr bytes := Encodable.decode bytes.length
  fromStr_toString saved := by
    rw [List.length_replicate, Encodable.encodek]
  zero_notMem_toString saved h := by
    cases List.eq_of_mem_replicate h

/-- Iteration in an order that the keys give; there are none to iterate over here. -/
noncomputable def keyOrder : Ratchet.HashOrder (Key × UInt32) where
  order l := if l = [] then [] else (l : Multiset (Key × UInt32)).toList
  perm l := by
    split
    case isTrue hl => rw [hl]
    case isFalse => exact Multiset.coe_eq_coe.mp (Multiset.coe_toList _)

theorem keyOrder_ofKeys : keyOrder.OfKeys := by
  intro l l' hl
  have hnil : l = [] ↔ l' = [] := by
    rw [← List.length_eq_zero_iff, ← List.length_eq_zero_iff, hl.length_eq]
  have hcoe : (l : Multiset (Key × UInt32)) = l' := Multiset.coe_eq_coe.mpr hl
  simp only [keyOrder, hnil, hcoe]

noncomputable def setOrder : Ratchet.SetOrder (Ratchet.DhPublicKey × UInt32) where
  order s := if s = ∅ then [] else s.toList
  toFinset_order s := by
    split
    case isTrue hs => rw [hs, List.toFinset_nil]
    case isFalse => exact Finset.toList_toFinset s

/-- The initiator has called the C API, the responder the bindings. -/
def heap : Party → Heap (Block Key) :=
  each
    (Ffi.ratchetInitSender primitives (fun _ => .secret) (.prefer 8) (Bytes.leArray 32 2)
      (.client (Bytes.leArray 32 0).1) (.client (Curve.encodePublicKey (Bytes.leArray 32 1)).1)
      Heap.empty).2
    (Jni.ratchetInitReceiver primitives (fun _ => .secret) (.prefer 8)
      (some (Bytes.leArray 32 0).1)
      (some (Bytes.leArray 32 1).1) (some (Curve.encodePublicKey (Bytes.leArray 32 1)).1)
      Heap.empty).2

def clients : Party → Client Key := fun k => ⟨heap k, opened .initiator 8 .responder 8 k⟩

theorem hold_clients : Hold clients session :=
  hold_opened rfl rfl fun h => by cases h

/-- The initiator encrypts; the responder saves his state, is killed, and restores it. -/
noncomputable def parked : List (Party × Action Key) :=
  [(.initiator, .c (.encrypt (.prefer 16) (.prefer 24) 8 (.client [0x61]) 1 (.client []) 0
    .valid)),
    (.responder, .java (.serialize keyOrder setOrder 8)),
    (.responder, .restart),
    (.responder, .java (.deserialize (.prefer 24)
      (some (Ratchet.serialize keyOrder setOrder (session.state .responder)))))]

/-- He decrypts a message at the new address. -/
noncomputable def arrival (m : Ratchet.Sealed Key) : Action Key :=
  .java (.decrypt { env 3 with hashOrder := keyOrder } 24 (some m.encHeader) (some m.ciphertext)
    none)

theorem returning_parked : Returning primitives (fun _ => .secret) .release clients
    (parked ++ [(.responder, arrival (message 0))]) := by
  refine ⟨by decide +kernel, ?_⟩
  intro a ha
  simp only [parked, List.cons_append, List.nil_append, List.mem_cons, List.not_mem_nil,
    or_false] at ha
  rcases ha with rfl | rfl | rfl | rfl | rfl
  · trivial
  · trivial
  · trivial
  · trivial
  · exact keyOrder_ofKeys

end Phones

end Protocol
