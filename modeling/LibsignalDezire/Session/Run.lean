/-
Two parties and a network: the runs of a session.

A `Session` holds the states of both parties and a record of what happened:
the messages `encrypt` returned, the messages `decrypt` accepted and the
sending chains that were started.  The records are only written, never read by
the operations.  The network is the list of events: it may deliver any bytes
to either party, at any time and any number of times.

* `Authentic` — the ideal authenticated encryption that the results about the
  network assume: what opens under a key the party tries was sealed under it;
* `Reachable` — the sessions reached by events that satisfy a given condition.
-/
import LibsignalDezire.Ratchet.Calls

namespace Ratchet

/-- The two ends of a session. -/
inductive Party where
  | initiator
  | responder
  deriving DecidableEq, Repr

def Party.peer : Party → Party
  | initiator => responder
  | responder => initiator

@[simp] theorem Party.peer_peer (p : Party) : p.peer.peer = p := by
  cases p <;> rfl

theorem Party.peer_ne (p : Party) : p.peer ≠ p := by
  cases p <;> simp [peer]

theorem Party.eq_or_eq_peer (p q : Party) : q = p ∨ q = p.peer := by
  cases p <;> cases q <;> simp [peer]

/-- A message that `encrypt` returned, with the keys it was sealed under. -/
structure Sealed (K : Type) where
  owner : Party
  headerKey : Option K
  messageKey : Option K
  header : RatchetHeader
  plaintext : Bytes
  ad : Bytes
  encHeader : Bytes
  ciphertext : Bytes
  deriving DecidableEq

/-- A call of `decrypt` that returned a plaintext. -/
structure Opened where
  party : Party
  encHeader : Bytes
  ciphertext : Bytes
  ad : Bytes
  plaintext : Bytes
  deriving DecidableEq

/-- A sending chain: its header key, its first chain key and the DH key drawn
with it. -/
structure SendingChain (K : Type) where
  owner : Party
  hk : K
  ck : K
  secret : DhPrivateKey

/-- Both parties and what has happened so far: messages and deliveries newest
first, chains oldest first. -/
structure Session (K : Type) where
  state : Party → RatchetState K
  sent : List (Sealed K)
  opened : List Opened
  chains : List (SendingChain K)

/-- One call by one of the parties. -/
inductive Event (K : Type) where
  | encrypt (p : Party) (plaintext ad : Bytes)
  | decrypt (p : Party) (env : CallEnv K) (encHeader ciphertext ad : Bytes)

variable {K : Type} [DecidableEq K] (P : Primitives K)

/-- The sending chain in place in a state. -/
def sendingChain (p : Party) (st : RatchetState K) : List (SendingChain K) :=
  match st.hkS, st.ckS with
  | some hk, some ck => [{ owner := p, hk, ck, secret := st.dhPair.1 }]
  | _, _ => []

namespace Session

/-- The session at its start: the responder owns the key pair of `bob`, the
initiator draws `dhS`. -/
def start (sk : K) (bob dhS : DhPrivateKey) : Outcome RatchetError (Session K) := do
  let initiator ← initSenderState P dhS sk (P.x25519PublicKey bob)
  let responder := initReceiverState P sk (bob, P.x25519PublicKey bob)
  pure
    { state := fun
        | .initiator => initiator
        | .responder => responder
      sent := []
      opened := []
      chains := sendingChain .initiator initiator }

/-- Nothing has happened at the start. -/
structure Fresh (s : Session K) : Prop where
  ns : ∀ p, (s.state p).ns = 0
  nr : ∀ p, (s.state p).nr = 0
  pn : ∀ p, (s.state p).pn = 0
  mkskipped : ∀ p, (s.state p).mkskipped = ∅
  receivedMessages : ∀ p, (s.state p).receivedMessages = ∅
  sent : s.sent = []
  opened : s.opened = []
  chains : s.chains.length = 1

omit [DecidableEq K] in
theorem start_fresh {P : Primitives K} {sk : K} {bob dhS : DhPrivateKey} {s : Session K}
    (h : start P sk bob dhS = .ok s) : Fresh s := by
  cases h
  refine ⟨fun p => ?_, fun p => ?_, fun p => ?_, fun p => ?_, fun p => ?_, rfl, rfl, rfl⟩ <;>
    cases p <;> rfl

/-- Party `p` calls `encrypt`. -/
def encrypt (s : Session K) (p : Party) (plaintext ad : Bytes) : Session K :=
  match Ratchet.encrypt P plaintext ad (s.state p) with
  | (.ok (encHeader, ciphertext), st) =>
    { s with
      state := Function.update s.state p st
      sent :=
        { owner := p
          headerKey := (s.state p).hkS
          messageKey := (s.state p).ckS.map fun ck => (kdfCk P ck).2
          header := nextHeader (s.state p)
          plaintext, ad, encHeader, ciphertext } :: s.sent }
  | (_, st) => { s with state := Function.update s.state p st }

/-- Party `p` calls `decrypt`.  Only a DH ratchet changes the sending header key,
with which it starts a sending chain. -/
def decrypt (b : Build) (s : Session K) (p : Party) (env : CallEnv K)
    (encHeader ciphertext ad : Bytes) : Session K :=
  let (out, st) := Ratchet.decrypt P b env encHeader ciphertext ad (s.state p)
  { s with
    state := Function.update s.state p st
    opened := match out with
      | .ok plaintext => { party := p, encHeader, ciphertext, ad, plaintext } :: s.opened
      | _ => s.opened
    chains := if st.hkS = (s.state p).hkS then s.chains else s.chains ++ sendingChain p st }

def step (b : Build) (s : Session K) : Event K → Session K
  | .encrypt p plaintext ad => s.encrypt P p plaintext ad
  | .decrypt p env encHeader ciphertext ad => s.decrypt P b p env encHeader ciphertext ad

/-- What an event returns. -/
def reply (b : Build) (s : Session K) : Event K → Reply
  | .encrypt p plaintext ad => .message (Ratchet.encrypt P plaintext ad (s.state p)).1
  | .decrypt p env encHeader ciphertext ad =>
    .plaintext (Ratchet.decrypt P b env encHeader ciphertext ad (s.state p)).1

/-! ### What a call changes -/

section Calls

variable {P} {b : Build} {s : Session K} {p : Party} {env : CallEnv K}
  {encHeader ciphertext ad plaintext : Bytes} {o : Outcome RatchetError Bytes}
  {st : RatchetState K}

/-- What `encrypt` leaves alone: all but the sending chain and the counters. -/
structure SameReceiving (st st' : RatchetState K) : Prop where
  nr : st'.nr = st.nr
  pn : st'.pn = st.pn
  mkskipped : st'.mkskipped = st.mkskipped
  receivedMessages : st'.receivedMessages = st.receivedMessages
  dhPair : st'.dhPair = st.dhPair
  ns_le : st.ns.toNat ≤ st'.ns.toNat

omit [DecidableEq K] in
theorem SameReceiving.refl (st : RatchetState K) : SameReceiving st st :=
  ⟨rfl, rfl, rfl, rfl, rfl, le_refl _⟩

omit [DecidableEq K] in
/-- `encrypt` touches one party's sending side and may add one message. -/
theorem encrypt_frame (s : Session K) (p : Party) (plaintext ad : Bytes) :
    (∀ q, SameReceiving (s.state q) ((s.encrypt P p plaintext ad).state q)) ∧
      (s.encrypt P p plaintext ad).opened = s.opened ∧
      (s.encrypt P p plaintext ad).chains = s.chains ∧
      ((s.encrypt P p plaintext ad).sent = s.sent ∨
        ∃ m : Sealed K, (s.encrypt P p plaintext ad).sent = m :: s.sent ∧ m.owner = p ∧
          m.header = nextHeader (s.state p) ∧ m.headerKey = (s.state p).hkS) := by
  have hframe : ∀ {st' : RatchetState K}, SameReceiving (s.state p) st' →
      ∀ q, SameReceiving (s.state q) (Function.update s.state p st' q) := by
    intro st' hst q
    by_cases hq : q = p
    · subst hq
      rwa [Function.update_self]
    · rw [Function.update_of_ne hq]
      exact .refl _
  rcases encrypt_cases P (s.state p) plaintext ad with
    ⟨-, hres⟩ | ⟨-, -, hres⟩ | ⟨ck, hk, -, -, -, -, ⟨-, hres⟩ |
      ⟨ns, hns, ⟨-, hres⟩ | ⟨c, -, hres⟩⟩⟩
  · simp only [Session.encrypt, hres]
    exact ⟨hframe (.refl _), trivial, trivial, .inl trivial⟩
  · simp only [Session.encrypt, hres]
    exact ⟨hframe (.refl _), trivial, trivial, .inl trivial⟩
  · simp only [Session.encrypt, hres]
    exact ⟨hframe ⟨rfl, rfl, rfl, rfl, rfl, le_refl _⟩, trivial, trivial, .inl trivial⟩
  · have hle : (s.state p).ns.toNat ≤ ns.toNat := by
      have := checkedAdd32_one_eq_some.mp hns
      omega
    simp only [Session.encrypt, hres]
    exact ⟨hframe ⟨rfl, rfl, rfl, rfl, rfl, hle⟩, trivial, trivial, .inl trivial⟩
  · have hle : (s.state p).ns.toNat ≤ ns.toNat := by
      have := checkedAdd32_one_eq_some.mp hns
      omega
    simp only [Session.encrypt, hres]
    exact ⟨hframe ⟨rfl, rfl, rfl, rfl, rfl, hle⟩, trivial, trivial, .inr ⟨_, rfl, rfl, rfl, rfl⟩⟩

omit [DecidableEq K] in
theorem encrypt_state : (s.encrypt P p plaintext ad).state
    = Function.update s.state p (Ratchet.encrypt P plaintext ad (s.state p)).2 := by
  unfold Session.encrypt
  split
  case h_1 hres => rw [hres]
  case h_2 hres => rw [hres]

theorem decrypt_state (hres : Ratchet.decrypt P b env encHeader ciphertext ad (s.state p)
    = (o, st)) :
    (s.decrypt P b p env encHeader ciphertext ad).state = Function.update s.state p st := by
  simp only [Session.decrypt, hres]

theorem decrypt_opened (hres : Ratchet.decrypt P b env encHeader ciphertext ad (s.state p)
    = (.ok plaintext, st)) : (s.decrypt P b p env encHeader ciphertext ad).opened
      = { party := p, encHeader, ciphertext, ad, plaintext } :: s.opened := by
  simp only [Session.decrypt, hres]

theorem decrypt_opened_of_not_ok
    (hres : Ratchet.decrypt P b env encHeader ciphertext ad (s.state p) = (o, st))
    (ho : ∀ q, o ≠ .ok q) :
    (s.decrypt P b p env encHeader ciphertext ad).opened = s.opened := by
  simp only [Session.decrypt, hres]

theorem decrypt_chains (hres : Ratchet.decrypt P b env encHeader ciphertext ad
    (s.state p) = (o, st))
    (hhk : st.hkS = (s.state p).hkS) :
    (s.decrypt P b p env encHeader ciphertext ad).chains = s.chains := by
  simp only [Session.decrypt, hres, if_pos hhk]

end Calls

/-- Some message has the encrypted header `encHeader`, sealed under `hk`. -/
def SealedHeader (s : Session K) (hk : K) (encHeader : Bytes) : Prop :=
  ∃ m ∈ s.sent, m.headerKey = some hk ∧ m.encHeader = encHeader

/-- Some message has a body sealed under `mk` with the given authenticated
bytes. -/
def SealedMessage (s : Session K) (mk : K) (mac : Bytes) : Prop :=
  ∃ m ∈ s.sent, m.messageKey = some mk ∧ macInput (concatAd m.ad m.encHeader) m.ciphertext = mac

instance (s : Session K) (hk : K) (encHeader : Bytes) :
    Decidable (s.SealedHeader hk encHeader) :=
  inferInstanceAs (Decidable (∃ m ∈ s.sent, _))

instance (s : Session K) (mk : K) (mac : Bytes) : Decidable (s.SealedMessage mk mac) :=
  inferInstanceAs (Decidable (∃ m ∈ s.sent, _))

end Session

/-- The header keys `decrypt` tries. -/
def RatchetState.headerKeys (st : RatchetState K) : List K :=
  st.hkR.toList ++ st.nhkR :: st.mkskipped.keys.map Prod.fst

/-- The message keys `decrypt` tries on a message with this encrypted header. -/
def RatchetState.messageKeys (b : Build) (st : RatchetState K) (encHeader : Bytes) : List K :=
  st.mkskipped.keys.filterMap (fun k => (st.mkskipped.lookup k).map SkippedKey.mk) ++
    match decryptHeader P st encHeader with
    | .ok (header, dhRatchet) =>
      match computeMessageKey P b st header dhRatchet with
      | .ok key => [key]
      | _ => []
    | _ => []

/-- AES-GCM and CBC+HMAC are ideal on this call: under the keys the party tries,
only what a party of the session sealed under the same key opens. -/
def AuthenticCall (b : Build) (s : Session K) (p : Party) (encHeader ciphertext ad : Bytes) :
    Prop :=
  (∀ hk ∈ (s.state p).headerKeys, (decryptHeaderWithKey P hk encHeader).isOk →
    s.SealedHeader hk encHeader) ∧
  ∀ mk ∈ (s.state p).messageKeys P b encHeader,
    (decryptAead P mk ciphertext (concatAd ad encHeader)).isOk →
    s.SealedMessage mk (macInput (concatAd ad encHeader) ciphertext)

instance (b : Build) (s : Session K) (p : Party) (encHeader ciphertext ad : Bytes) :
    Decidable (AuthenticCall P b s p encHeader ciphertext ad) :=
  inferInstanceAs (Decidable (_ ∧ _))

def Authentic (b : Build) (s : Session K) : Event K → Prop
  | .encrypt .. => True
  | .decrypt p _ encHeader ciphertext ad => AuthenticCall P b s p encHeader ciphertext ad

instance (b : Build) (s : Session K) : DecidablePred (Authentic P b s)
  | .encrypt .. => isTrue trivial
  | .decrypt p _ encHeader ciphertext ad =>
    inferInstanceAs (Decidable (AuthenticCall P b s p encHeader ciphertext ad))

/-! ### The record of a run -/

section Record

variable {P} {b : Build} {s₀ : Session K}

theorem Session.step_opened_subset (s : Session K) (e : Event K) {o : Opened}
    (ho : o ∈ s.opened) : o ∈ (s.step P b e).opened := by
  cases e with
  | encrypt p plaintext ad =>
    rw [Session.step, (Session.encrypt_frame s p plaintext ad).2.1]
    exact ho
  | decrypt p env encHeader ciphertext ad =>
    simp only [Session.step, Session.decrypt]
    split
    · exact List.mem_cons_of_mem _ ho
    · exact ho

/-- A call of `decrypt` that succeeded stays on record. -/
theorem Session.mem_opened_run {p : Party} {env : CallEnv K} {encHeader ciphertext ad q : Bytes}
    {es₁ : List (Event K)} (es₂ : List (Event K))
    (h : (Ratchet.decrypt P b env encHeader ciphertext ad
      ((Machine.run (Session.step P b) s₀ es₁).state p)).1 = .ok q) :
    { party := p, encHeader, ciphertext, ad, plaintext := q }
      ∈ (Machine.run (Session.step P b) s₀
      (es₁ ++ .decrypt p env encHeader ciphertext ad :: es₂)).opened := by
  rw [Machine.run_append, Machine.run_cons]
  refine Machine.run_invariant (I := fun s => _ ∈ s.opened)
    (fun s e ho => Session.step_opened_subset s e ho) es₂ ?_
  rw [Session.step, Session.decrypt_opened (Prod.ext h rfl)]
  exact List.mem_cons_self

/-- A message on record was returned by a call of `encrypt` of the run. -/
theorem Session.encrypt_of_mem_sent {es : List (Event K)} {m : Sealed K}
    (hm : m ∈ (Machine.run (Session.step P b) s₀ es).sent) :
    m ∈ s₀.sent ∨ ∃ es₁ es₂, es = es₁ ++ .encrypt m.owner m.plaintext m.ad :: es₂ ∧
      (Ratchet.encrypt P m.plaintext m.ad
        ((Machine.run (Session.step P b) s₀ es₁).state m.owner)).1
          = .ok (m.encHeader, m.ciphertext) := by
  induction es using List.reverseRecOn with
  | nil => exact .inl hm
  | append_singleton es e ih =>
    rw [Machine.run_concat] at hm
    have hearlier : m ∈ (Machine.run (Session.step P b) s₀ es).sent →
        m ∈ s₀.sent ∨ ∃ es₁ es₂, es ++ [e] = es₁ ++ .encrypt m.owner m.plaintext m.ad :: es₂ ∧
          (Ratchet.encrypt P m.plaintext m.ad
            ((Machine.run (Session.step P b) s₀ es₁).state m.owner)).1
              = .ok (m.encHeader, m.ciphertext) := by
      intro hm
      rcases ih hm with h | ⟨es₁, es₂, rfl, h⟩
      · exact .inl h
      · exact .inr ⟨es₁, es₂ ++ [e], by simp, h⟩
    cases e with
    | decrypt p env encHeader ciphertext ad => exact hearlier hm
    | encrypt p plaintext ad =>
      simp only [Session.step, Session.encrypt] at hm
      split at hm
      case h_1 encHeader ciphertext st hres =>
        rcases List.mem_cons.mp hm with rfl | hm
        · exact .inr ⟨es, [], rfl, congrArg Prod.fst hres⟩
        · exact hearlier hm
      case h_2 => exact hearlier hm

end Record

/-! ### Reachable sessions -/

/-- The session is reached from a start by events that satisfy `G`. -/
def Reachable (b : Build) (sk : K) (bob : DhPrivateKey) (G : Session K → Event K → Prop)
    (s : Session K) : Prop :=
  ∃ dhS s₀ es, Session.start P sk bob dhS = .ok s₀ ∧
    Machine.Along (Session.step P b) G s₀ es ∧ Machine.run (Session.step P b) s₀ es = s

namespace Reachable

variable {P} {b : Build} {sk : K} {bob : DhPrivateKey} {G G' : Session K → Event K → Prop}
  {s : Session K}

theorem step (h : Reachable P b sk bob G s) {e : Event K} (he : G s e) :
    Reachable P b sk bob G (s.step P b e) := by
  obtain ⟨dhS, s₀, es, h₀, hes, rfl⟩ := h
  exact ⟨dhS, s₀, es ++ [e], h₀, Machine.along_concat.mpr ⟨hes, he⟩, Machine.run_concat _ _ _ _⟩

theorem run (h : Reachable P b sk bob G s) {es : List (Event K)}
    (hes : Machine.Along (Session.step P b) G s es) :
    Reachable P b sk bob G (Machine.run (Session.step P b) s es) := by
  obtain ⟨dhS, s₀, es₀, h₀, hes₀, rfl⟩ := h
  exact ⟨dhS, s₀, es₀ ++ es, h₀, Machine.along_append.mpr ⟨hes₀, hes⟩,
    Machine.run_append _ _ _ _⟩

theorem mono (hG : ∀ s e, G s e → G' s e) (h : Reachable P b sk bob G s) :
    Reachable P b sk bob G' s := by
  obtain ⟨dhS, s₀, es, h₀, hes, hs⟩ := h
  exact ⟨dhS, s₀, es, h₀, hes.mono hG, hs⟩

/-- **The invariant rule for sessions.** -/
theorem invariant {I : Session K → Prop}
    (hstart : ∀ dhS s₀, Session.start P sk bob dhS = .ok s₀ → I s₀)
    (hstep : ∀ s e, Reachable P b sk bob G s → I s → G s e → I (s.step P b e))
    (h : Reachable P b sk bob G s) : I s := by
  obtain ⟨dhS, s₀, es, h₀, hes, rfl⟩ := h
  have hboth := hes.invariant (I := fun s => Reachable P b sk bob G s ∧ I s)
    (fun s e hs he => ⟨hs.1.step he, hstep s e hs.1 hs.2 he⟩)
    ⟨⟨dhS, s₀, [], h₀, trivial, rfl⟩, hstart dhS s₀ h₀⟩
  exact hboth.2

end Reachable

/-! ### A session on symbolic keys -/

namespace Symbolic

/-- A session at its start, on symbolic keys. -/
def session : Session Key :=
  (Session.start primitives .secret (Bytes.leArray 32 1) (Bytes.leArray 32 2)).get rfl

theorem start : Session.start primitives .secret (Bytes.leArray 32 1) (Bytes.leArray 32 2)
    = .ok session := rfl

/-- The session after the given events. -/
abbrev after (es : List (Event Key)) : Session Key :=
  Machine.run (Session.step primitives .release) session es

theorem reachable_after {G : Session Key → Event Key → Prop} {es : List (Event Key)}
    (h : Machine.Along (Session.step primitives .release) G session es) :
    Reachable primitives .release .secret (Bytes.leArray 32 1) G (after es) :=
  ⟨_, session, es, start, h, rfl⟩

/-- The initiator sends three messages. -/
def threeSent : List (Event Key) :=
  [.encrypt .initiator [0x61] [], .encrypt .initiator [0x62] [], .encrypt .initiator [0x63] []]

/-- The message number `i` of the three. -/
def message (i : Fin 3) : Sealed Key :=
  (after threeSent).sent.reverse.get (i.cast (by decide +kernel))

/-- The responder receives message number `i`. -/
def receive (i : Fin 3) : Event Key :=
  .decrypt .responder (env 3) (message i).encHeader (message i).ciphertext (message i).ad

end Symbolic

end Ratchet
