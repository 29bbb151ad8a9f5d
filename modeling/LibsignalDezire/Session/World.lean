/-
Many sessions over one network.

A world is a family of sessions with different shared secrets.  The network may
deliver any bytes to either party of any session, messages of other sessions
included, and the ideal encryption only promises that what opens under a key
was sealed under it in some session of the world.

* `AuthenticInWorld.own` — what opens in a session was sealed in this session;
* `world_agreement` — **whatever a party accepts was encrypted by its peer in
  the same session**, in every run of the world;
* `compromise_contained` — **all other sessions together give away no key of
  a session**.
-/
import LibsignalDezire.Lib.Family
import LibsignalDezire.Session.Agreement
import LibsignalDezire.Session.BreakIn
import LibsignalDezire.Session.Provenance

namespace Ratchet

variable {K ι : Type} [DecidableEq K] (P : Primitives K)

/-- AES-GCM and CBC+HMAC are ideal on this call to party `p` of session `i`: under
the keys the party tries, only what was sealed under the same key opens, in
whichever session. -/
def AuthenticInWorld (b : Build) (w : ι → Session K) (i : ι) (p : Party)
    (encHeader ciphertext ad : Bytes) : Prop :=
  (∀ hk ∈ ((w i).state p).headerKeys, (decryptHeaderWithKey P hk encHeader).isOk →
    ∃ j, (w j).SealedHeader hk encHeader) ∧
  ∀ mk ∈ ((w i).state p).messageKeys P b encHeader,
    (decryptAead P mk ciphertext (concatAd ad encHeader)).isOk →
    ∃ j, (w j).SealedMessage mk (macInput (concatAd ad encHeader) ciphertext)

def WorldAuthentic (b : Build) (w : ι → Session K) : ι × Event K → Prop
  | (_, .encrypt ..) => True
  | (i, .decrypt p _ encHeader ciphertext ad) =>
    AuthenticInWorld P b w i p encHeader ciphertext ad

instance [Fintype ι] (b : Build) (w : ι → Session K) (i : ι) (p : Party)
    (encHeader ciphertext ad : Bytes) :
    Decidable (AuthenticInWorld P b w i p encHeader ciphertext ad) :=
  inferInstanceAs (Decidable (_ ∧ _))

instance [Fintype ι] (b : Build) (w : ι → Session K) : DecidablePred (WorldAuthentic P b w)
  | (_, .encrypt ..) => isTrue trivial
  | (i, .decrypt p _ encHeader ciphertext ad) =>
    inferInstanceAs (Decidable (AuthenticInWorld P b w i p encHeader ciphertext ad))

/-- The world at its start: every session has its own shared secret. -/
structure WorldStart (sk : ι → K) (bob : ι → DhPrivateKey) (w : ι → Session K) : Prop where
  secrets : Function.Injective sk
  collisionFree : ∀ i, CollisionFree P (sk i)
  start : ∀ i, ∃ dhS, Session.start P (sk i) (bob i) dhS = .ok (w i)

variable {P} {b : Build} {sk : ι → K} {bob : ι → DhPrivateKey} {w₀ w : ι → Session K}

/-- **What opens in a session was sealed in this session.**  The other sessions have
other keys. -/
theorem AuthenticInWorld.own (h : WorldStart P sk bob w₀)
    (hw : ∀ i, SessionProvenance P (sk i) (w i)) {i : ι} {p : Party}
    {encHeader ciphertext ad : Bytes} (hauth : AuthenticInWorld P b w i p encHeader
      ciphertext ad) :
    AuthenticCall P b (w i) p encHeader ciphertext ad := by
  refine ⟨fun hk hmem hopen => ?_, fun mk hmem hopen => ?_⟩
  · obtain ⟨j, m, hm, hhk, henc⟩ := hauth.1 hk hmem hopen
    have hown := ((hw i).state p).headerKeys hmem
    have hother := (hw j).headerKey m hm hk hhk
    obtain rfl := h.secrets (hown.secret_unique (h.collisionFree i) (h.collisionFree j) hother)
    exact ⟨m, hm, hhk, henc⟩
  · obtain ⟨j, m, hm, hmk, hmac⟩ := hauth.2 mk hmem hopen
    have hown := ((hw i).state p).messageKeys hmem
    have hother := (hw j).messageKey m hm mk hmk
    obtain rfl := h.secrets (hown.secret_unique (h.collisionFree i) (h.collisionFree j) hother)
    exact ⟨m, hm, hmk, hmac⟩

variable [DecidableEq ι]

/-- In every run, the keys of every session belong to its own secret. -/
theorem WorldStart.provenance (h : WorldStart P sk bob w₀) (es : List (ι × Event K)) (i : ι) :
    SessionProvenance P (sk i) (Machine.run
      (Machine.familyStep (Session.step P b)) w₀ es i) := by
  obtain ⟨dhS, h₀⟩ := h.start i
  rw [Machine.run_family]
  exact (SessionProvenance.start h₀).run _

/-- Each session of the world is a session of its own: its events are those of an
ideal network that knows no other session. -/
theorem WorldStart.along_own (h : WorldStart P sk bob w₀) {es : List (ι × Event K)}
    (hes : Machine.Along (Machine.familyStep (Session.step P b)) (WorldAuthentic P b) w₀ es)
    (i : ι) : Machine.Along (Session.step P b) (Authentic P b) (w₀ i) (Machine.own i es) := by
  have hstep : ∀ (w : ι → Session K) (e : ι × Event K),
      (∀ i, SessionProvenance P (sk i) (w i)) → WorldAuthentic P b w e →
      ∀ i, SessionProvenance P (sk i) (Machine.familyStep (Session.step P b) w e i) := by
    intro w e hw _ i
    obtain ⟨j, e⟩ := e
    by_cases hi : i = j
    · subst hi
      rw [Machine.familyStep_self]
      exact (hw i).step b e
    · rw [Machine.familyStep_of_ne _ w hi]
      exact hw i
  refine (hes.with_invariant hstep fun i => h.provenance (b := b) [] i).own fun w e hwe => ?_
  cases e with
  | encrypt p plaintext ad => trivial
  | decrypt p env encHeader ciphertext ad => exact hwe.2.own h hwe.1

omit [DecidableEq ι] in
/-- What a party accepts at the end of a run was encrypted by its peer in this run. -/
theorem accepted_was_encrypted (hP : Correct P) {sk : K} {bob dhS : DhPrivateKey}
    {s₀ : Session K} (h₀ : Session.start P sk bob dhS = .ok s₀) {es : List (Event K)}
    (hS : ((Machine.run (Session.step P b) s₀ es).schedule P sk bob).KdfSeparates)
    {p : Party} {env : CallEnv K} {encHeader ciphertext ad q : Bytes}
    (hes : Machine.Along (Session.step P b) (Authentic P b) s₀ es)
    (hauth : AuthenticCall P b (Machine.run (Session.step P b) s₀ es) p encHeader ciphertext ad)
    (hdec : (decrypt P b env encHeader ciphertext ad
      ((Machine.run (Session.step P b) s₀ es).state p)).1 = .ok q) :
    ∃ es₁ es₂, es = es₁ ++ .encrypt p.peer q ad :: es₂ ∧
      (encrypt P q ad ((Machine.run (Session.step P b) s₀ es₁).state p.peer)).1
        = .ok (encHeader, ciphertext) := by
  have hreach : Reachable P b sk bob (Authentic P b) (Machine.run (Session.step P b) s₀ es) :=
    ⟨dhS, s₀, es, h₀, hes, rfl⟩
  have hsync := hreach.sync hP hS (agrees_schedule sk bob _)
  obtain ⟨m, hm, howner, his, hq⟩ := hsync.accepted_is_sent hP hS hauth hdec
  rcases Session.encrypt_of_mem_sent hm with hm₀ | ⟨es₁, es₂, hsplit, hcall⟩
  · rw [(Session.start_fresh h₀).sent] at hm₀
    cases hm₀
  · rw [howner, his.ad, hq] at hsplit
    rw [howner, his.ad, his.encHeader, his.ciphertext, hq] at hcall
    exact ⟨es₁, es₂, hsplit, hcall⟩

/-- **Agreement in the world.**  Whenever `decrypt` returns `q` to a party of
session `i`, the other party of the same session had called `encrypt` with the
plaintext `q` and the same associated data, and that call returned exactly the
encrypted header and ciphertext delivered; no other session had a part in it. -/
theorem world_agreement (hP : Correct P) (h : WorldStart P sk bob w₀) {es : List (ι × Event K)}
    {i : ι} {p : Party} {env : CallEnv K} {encHeader ciphertext ad q : Bytes}
    (hes : Machine.Along (Machine.familyStep (Session.step P b)) (WorldAuthentic P b) w₀
      (es ++ [(i, .decrypt p env encHeader ciphertext ad)]))
    (hdec : (decrypt P b env encHeader ciphertext ad
      ((Machine.run (Machine.familyStep (Session.step P b)) w₀ es i).state p)).1 = .ok q) :
    ∃ es₁ es₂, es = es₁ ++ (i, .encrypt p.peer q ad) :: es₂ ∧
      (encrypt P q ad ((Machine.run (Machine.familyStep (Session.step P b)) w₀ es₁ i).state
        p.peer)).1 = .ok (encHeader, ciphertext) := by
  obtain ⟨dhS, h₀⟩ := h.start i
  have hown := h.along_own hes i
  rw [Machine.own_append, Machine.own_cons_self, Machine.own_nil, Machine.along_concat] at hown
  obtain ⟨hown, hauth⟩ := hown
  rw [Machine.run_family] at hdec
  obtain ⟨es₁, es₂, hsplit, hcall⟩ :=
    accepted_was_encrypted hP h₀ (Schedule.kdfSeparates (h.collisionFree i)) hown hauth hdec
  obtain ⟨before, after, rfl, rfl, -⟩ := Machine.own_eq_split hsplit
  refine ⟨before, after, rfl, ?_⟩
  rw [Machine.run_family]
  exact hcall

/-! ### Compromise -/

/-- What an attacker holds who has broken into every other session: their shared
secrets and all keys of their states, at all times of the run.  Private keys,
messages and headers are given to him for free, those of session `i` included. -/
def OthersExposed (P : Primitives K) (b : Build) (sk : ι → K) (w₀ : ι → Session K)
    (es : List (ι × Event K)) (i : ι) : Term K → Prop
  | .key k => ∃ j ≠ i, k = sk j ∨ ∃ es₁, es₁ <+: es ∧
      ∃ p, k ∈ ((Machine.run (Machine.familyStep (Session.step P b)) w₀ es₁ j).state p).keys
  | .secret _ | .bytes _ | .header _ => True

omit [DecidableEq K] [DecidableEq ι] in
/-- The keys of one session form a guarded set. -/
theorem belongsTo_guarded {sk : K} (hS : CollisionFree P sk) (hA : DhApart P)
    (premises : List (Term K)) (t : Term K) (hrule : AttackRule P Set.univ premises t)
    (h : ∃ k, t = .key k ∧ BelongsTo P sk k) :
    ∃ x ∈ premises, ∃ k, x = .key k ∧ BelongsTo P sk k := by
  obtain ⟨k, rfl, hk⟩ := h
  have hhmac : ∀ {ck : K} {label : Bytes}, BelongsTo P sk (P.hmacSha256 ck label) →
      Descends P sk ck := by
    rintro ck label (h | ⟨label', h⟩)
    · exact h.of_hmac hS
    · exact absurd h (hS.hmac_ne_hkdf256 _ _ _ _)
  have hhkdf512 : ∀ {rk dh : K} {info : Bytes} {t : ℕ},
      BelongsTo P sk (P.hkdfSha512 rk dh info t) → Descends P sk rk := by
    rintro rk dh info t (h | ⟨label', h⟩)
    · exact h.of_hkdf512 hS
    · exact absurd h (hS.hkdf512_ne_hkdf256 _ _ _ _ _ _)
  have hhkdf256 : ∀ {ikm : K} {label : Bytes}, BelongsTo P sk (P.hkdfSha256 ikm label) →
      Descends P sk ikm := by
    rintro ikm label (h | ⟨label', h⟩)
    · exact absurd rfl (h.ne_hkdf256 hS _ _)
    · rw [(hS.hkdf256_inj h).1]
      exact .secret
  cases hrule with
  | chainKey ck => exact ⟨_, List.mem_cons_self, ck, rfl, .inl (hhmac hk)⟩
  | messageKey ck => exact ⟨_, List.mem_cons_self, ck, rfl, .inl (hhmac hk)⟩
  | rootKey hres =>
    cases hres
    exact ⟨_, List.mem_cons_self, _, rfl, .inl (hhkdf512 hk)⟩
  | rootChainKey hres =>
    cases hres
    exact ⟨_, List.mem_cons_self, _, rfl, .inl (hhkdf512 hk)⟩
  | rootHeaderKey hres =>
    cases hres
    exact ⟨_, List.mem_cons_self, _, rfl, .inl (hhkdf512 hk)⟩
  | initiatorHeaderKey sk' => exact ⟨_, List.mem_cons_self, _, rfl, .inl (hhkdf256 hk)⟩
  | responderHeaderKey sk' => exact ⟨_, List.mem_cons_self, _, rfl, .inl (hhkdf256 hk)⟩
  | diffieHellman a pub =>
    rcases hk with h | ⟨label, h⟩
    · exact absurd rfl (h.ne_diffieHellman hS _ _)
    · exact absurd h (hA _ _ _ _)

/-- **A compromise stays in its session.**  No key of any state of a session can be
computed from the shared secrets and all keys of all other sessions, over any
network, even if the attacker also holds all private keys and uses every public
key. -/
theorem compromise_contained (h : WorldStart P sk bob w₀) (hA : DhApart P)
    (es : List (ι × Event K)) (i : ι) {es₁ : List (ι × Event K)} (p : Party) {key : K}
    (hkey : key
      ∈ ((Machine.run (Machine.familyStep (Session.step P b)) w₀ es₁ i).state p).keys) :
    ¬ Derivable (AttackRule P Set.univ) (OthersExposed P b sk w₀ es i) (.key key) := by
  intro hder
  refine hder.not_guarded (G := fun t => ∃ k, t = .key k ∧ BelongsTo P (sk i) k) ?_
    (belongsTo_guarded (h.collisionFree i) hA)
    ⟨key, rfl, ((h.provenance es₁ i).state p).mem_keys hkey⟩
  rintro t hexposed ⟨k, rfl, hk⟩
  obtain ⟨j, hj, hkj⟩ := hexposed
  have hother : BelongsTo P (sk j) k := by
    rcases hkj with rfl | ⟨es₂, -, q, hmem⟩
    · exact .inl .secret
    · exact ((h.provenance es₂ j).state q).mem_keys hmem
  exact hj (h.secrets (hother.secret_unique (h.collisionFree j) (h.collisionFree i) hk))

/-! ### Two sessions -/

namespace Symbolic

/-- A Diffie-Hellman term whose public keys are not in order is the value of no
key agreement: it can be a shared secret. -/
theorem collisionFree_dh {c d : DhPublicKey} (h : Bytes.beNat d.1 < Bytes.beNat c.1) :
    CollisionFree primitives (.dh c d) :=
  { collisionFree with
    secret_ne_hmac := fun _ _ h => by cases h
    secret_ne_hkdf512 := fun _ _ _ _ h => by cases h
    secret_ne_hkdf256 := fun _ _ h => by cases h
    secret_ne_dh := fun a p heq => by
      have hagree : Key.dh c d = Key.agree a p := heq
      unfold Key.agree at hagree
      split at hagree
      · cases hagree
        omega
      · cases hagree
        omega }

/-- The shared secrets of two sessions. -/
def twoSecrets : Bool → Key
  | false => .secret
  | true => .dh (Bytes.leArray 32 2) (Bytes.leArray 32 1)

/-- Two sessions at their start, between the same key pairs. -/
def twoSessions (i : Bool) : Session Key :=
  (Session.start primitives (twoSecrets i) (Bytes.leArray 32 1) (Bytes.leArray 32 2)).get rfl

theorem worldStart :
    WorldStart primitives twoSecrets (fun _ => Bytes.leArray 32 1) twoSessions where
  secrets i j h := by
    cases i <;> cases j <;> first | rfl | cases h
  collisionFree i := by
    cases i with
    | false => exact collisionFree
    | true => exact collisionFree_dh (by decide)
  start i := ⟨Bytes.leArray 32 2, rfl⟩

/-- Both initiators send a message. -/
def bothSend : List (Bool × Event Key) :=
  [(true, .encrypt .initiator [0x61] []), (false, .encrypt .initiator [0x62] [])]

/-- The first of them. -/
def crossed : Sealed Key :=
  (Machine.run (Machine.familyStep (Session.step primitives .release)) twoSessions bothSend
    true).sent.head (by decide +kernel)

/-- It is delivered to the responder of session `i`. -/
def deliverTo (i : Bool) : Bool × Event Key :=
  (i, .decrypt .responder (env 3) crossed.encHeader crossed.ciphertext crossed.ad)

/-- The message goes to the wrong session first, and is accepted in its own. -/
theorem world_agreement_of_crossed :
    ∃ es₁ es₂, bothSend ++ [deliverTo false] = es₁ ++
      (true, .encrypt .initiator [0x61] []) :: es₂ ∧
      (encrypt primitives [0x61] [] ((Machine.run (Machine.familyStep
        (Session.step primitives .release)) twoSessions es₁ true).state .initiator)).1
          = .ok (crossed.encHeader, crossed.ciphertext) := by
  have hes : Machine.Along (Machine.familyStep (Session.step primitives .release))
      (WorldAuthentic primitives .release) twoSessions
      (bothSend ++ [deliverTo false] ++ [deliverTo true]) := by
    decide +kernel
  have hdec : (decrypt primitives .release (env 3)
      crossed.encHeader crossed.ciphertext crossed.ad
      ((Machine.run (Machine.familyStep (Session.step primitives .release)) twoSessions
        (bothSend ++ [deliverTo false]) true).state .responder)).1 = .ok [0x61] := by
    decide +kernel
  exact world_agreement correct worldStart hes hdec

/-- The root key of the first session, from the second one. -/
theorem compromise_contained_of_two :
    ¬ Derivable (AttackRule primitives Set.univ) (OthersExposed primitives .release twoSecrets
      twoSessions (bothSend ++ [deliverTo true]) false)
      (.key ((Machine.run (Machine.familyStep (Session.step primitives .release)) twoSessions
        bothSend false).state .initiator).rk) :=
  compromise_contained worldStart dhApart _ false .initiator List.mem_cons_self

end Symbolic

end Ratchet
