/-
A session without keys: what the two parties do, said in numbers.

Chains are counted from 0; a side with view `v` sends on chain `v - 1`, receives on
chain `v - 2` and takes a message of chain `v` for the start of the next turn.
A stored message key is the number of its chain and its own number, and nothing
is encrypted, derived or hashed.  When there is no room for another, half of the
entries that may be stored are kept (`StoresKeys`); which ones is left open.

* `Side.send`, `Side.Receive` — one call of each kind;
* `Exchange.Step` — two sides and a network that delivers any message sent so far,
  any number of times, to either side, or anything else.
-/
import LibsignalDezire.Session.Run

namespace Ratchet

/-- A message, by the chain it is sent on. -/
structure Message where
  chain : ℕ
  header : RatchetHeader
  plaintext : Bytes
  ad : Bytes

/-- One end of an exchange. -/
structure Side where
  view : ℕ
  dhPub : DhPublicKey
  ns : UInt32
  nr : UInt32
  pn : UInt32
  headerNonceCounter : UInt64
  /-- The messages that can be answered late, by chain and number. -/
  stored : Finset (ℕ × UInt32)
  received : Finset (DhPublicKey × UInt32)

namespace Side

/-- `encrypt`: the message is sent on the chain before the view. -/
def send (h : Side) (ad : Bytes) : Outcome RatchetError PUnit × Side :=
  if h.view = 0 then (.err .invalidState, h)
  else if maxAdSize < ad.length then (.err .adTooLarge, h)
  else
    match checkedAdd32 h.ns 1 with
    | none => (.err .counterOverflow, h)
    | some ns =>
      match checkedAdd64 h.headerNonceCounter 1 with
      | none => (.err .counterOverflow, { h with ns })
      | some headerNonceCounter => (.ok ⟨⟩, { h with ns, headerNonceCounter })

/-- The message that is sent. -/
def nextMessage (h : Side) (plaintext ad : Bytes) : Message :=
  { chain := h.view - 1, header := { dhPub := h.dhPub, pn := h.pn, n := h.ns }, plaintext, ad }

/-- The message is one of the chain being received, not stored and not tracked. -/
structure Current (h : Side) (m : Message) : Prop where
  chain : m.chain + 2 = h.view
  not_stored : (m.chain, m.header.n) ∉ h.stored
  not_received : (m.header.dhPub, m.header.n) ∉ h.received

/-- The message is one of the next chain, and not tracked. -/
structure Next (h : Side) (m : Message) : Prop where
  chain : m.chain = h.view
  not_stored : (m.chain, m.header.n) ∉ h.stored
  not_received : (m.header.dhPub, m.header.n) ∉ h.received

/-- What is stored of the chain that a new one replaces. -/
def StoredPrevious (h : Side) (pn : UInt32) (new : Finset (ℕ × UInt32)) : Prop :=
  h.view < 2 ∧ new = h.stored ∨
    2 ≤ h.view ∧ h.nr.toNat ≤ pn.toNat ∧ pn.toNat ≤ h.nr.toNat + maxSkip.toNat ∧
      StoresKeys (h.view - 2) h.nr.toNat pn.toNat h.stored new

/-- `decrypt` of a message of the exchange, delivered unchanged; `pub` is the public
key drawn if a new chain is started. -/
inductive Receive (b : Build) (pub : DhPublicKey) (h : Side) (m : Message) :
    Outcome RatchetError Bytes → Side → Prop where
  | stored (hk : (m.chain, m.header.n) ∈ h.stored) :
      Receive b pub h m (.ok m.plaintext)
        { h with stored := h.stored.erase (m.chain, m.header.n) }
  | unknown (hk : (m.chain, m.header.n) ∉ h.stored) (hcur : m.chain + 2 ≠ h.view)
      (hnext : m.chain ≠ h.view) : Receive b pub h m (.err .headerDecryptionFailed) h
  | duplicate (hk : (m.chain, m.header.n) ∉ h.stored)
      (hchain : m.chain + 2 = h.view ∨ m.chain = h.view)
      (hdup : (m.header.dhPub, m.header.n) ∈ h.received) :
      Receive b pub h m (.err .duplicateMessage) h
  | overflow (hm : Current h m)
      (hlimit : (b.add h.nr maxSkip : Outcome RatchetError UInt32) = .panic) :
      Receive b pub h m .panic h
  | beyond (hm : Current h m) {limit : UInt32}
      (hlimit : (b.add h.nr maxSkip : Outcome RatchetError UInt32) = .ok limit)
      (hlt : limit < m.header.n) : Receive b pub h m (.err .oldMessageKeysLimitReached) h
  /-- The key of the next number does not open it. -/
  | passed (hm : Current h m) {limit : UInt32}
      (hlimit : (b.add h.nr maxSkip : Outcome RatchetError UInt32) = .ok limit)
      (hle : m.header.n ≤ limit) (hlt : m.header.n < h.nr) :
      Receive b pub h m (.err .decryptionFailed) h
  | full (hm : Current h m) {limit : UInt32}
      (hlimit : (b.add h.nr maxSkip : Outcome RatchetError UInt32) = .ok limit)
      (hle : m.header.n ≤ limit) (hge : h.nr ≤ m.header.n) {new : Finset (ℕ × UInt32)}
      (hstored : StoresKeys m.chain h.nr.toNat m.header.n.toNat h.stored new)
      (hfull : maxReceivedTracking ≤ h.received.card) :
      Receive b pub h m (.err .tooManyMessages) { h with stored := new, nr := h.nr + 1 }
  | accepted (hm : Current h m) {limit : UInt32}
      (hlimit : (b.add h.nr maxSkip : Outcome RatchetError UInt32) = .ok limit)
      (hle : m.header.n ≤ limit) (hge : h.nr ≤ m.header.n) {new : Finset (ℕ × UInt32)}
      (hstored : StoresKeys m.chain h.nr.toNat m.header.n.toNat h.stored new)
      (hroom : h.received.card < maxReceivedTracking) :
      Receive b pub h m (.ok m.plaintext) { h with
        stored := new, nr := h.nr + 1
        received := insert (m.header.dhPub, m.header.n) h.received }
  | nextBeyond (hm : Next h m) (hlt : maxSkip < m.header.n) :
      Receive b pub h m (.err .oldMessageKeysLimitReached) h
  /-- The rest of the previous chain cannot be stored: all that was stored is lost. -/
  | lost (hm : Next h m) (hle : m.header.n ≤ maxSkip) (hview : 2 ≤ h.view)
      (hout : m.header.pn.toNat < h.nr.toNat ∨ h.nr.toNat + maxSkip.toNat < m.header.pn.toNat) :
      Receive b pub h m (.err (if m.header.pn < h.nr then .invalidHeader
        else .oldMessageKeysLimitReached)) { h with stored := ∅ }
  | next (hm : Next h m) (hle : m.header.n ≤ maxSkip) {mid new : Finset (ℕ × UInt32)}
      (hprev : StoredPrevious h m.header.pn mid)
      (hstored : StoresKeys m.chain 0 m.header.n.toNat mid new) :
      Receive b pub h m (.ok m.plaintext) { h with
        view := h.view + 2, dhPub := pub, ns := 0, nr := 1, pn := h.ns
        stored := new, received := {(m.header.dhPub, m.header.n)} }

end Side

/-- Both sides, and the messages sent so far, newest first. -/
structure Exchange where
  side : Party → Side
  sent : List Message

namespace Exchange

/-- What happens: a party sends, the `i`-th message sent is delivered, or something
that is no message is. -/
inductive Event where
  | send (p : Party) (plaintext ad : Bytes)
  | deliver (p : Party) (pub : DhPublicKey) (i : ℕ)
  | forge (p : Party)
  deriving DecidableEq

/-- What the party learns. -/
inductive Answer where
  | sent (result : Outcome RatchetError PUnit)
  | received (result : Outcome RatchetError Bytes)
  deriving DecidableEq

/-- The sides at their start: the initiator can send, the responder waits. -/
def start (bob dhS : DhPublicKey) : Exchange where
  side
    | .initiator => ⟨1, dhS, 0, 0, 0, 0, ∅, ∅⟩
    | .responder => ⟨0, bob, 0, 0, 0, 0, ∅, ∅⟩
  sent := []

/-- One event. -/
inductive Step (b : Build) (σ : Exchange) : Event → Answer → Exchange → Prop where
  | sent {p : Party} {plaintext ad : Bytes} {h : Side}
    (hsend : (σ.side p).send ad = (.ok ⟨⟩, h)) :
      Step b σ (.send p plaintext ad) (.sent (.ok ⟨⟩))
        { side := Function.update σ.side p h
          sent := (σ.side p).nextMessage plaintext ad :: σ.sent }
  | notSent {p : Party} {plaintext ad : Bytes} {o : Outcome RatchetError PUnit} {h : Side}
      (hsend : (σ.side p).send ad = (o, h)) (ho : o ≠ .ok ⟨⟩) :
      Step b σ (.send p plaintext ad) (.sent o) { σ with side := Function.update σ.side p h }
  | delivered {p : Party} {pub : DhPublicKey} {i : ℕ} {m : Message}
      {o : Outcome RatchetError Bytes} {h : Side} (hm : σ.sent.reverse[i]? = some m)
      (hreceive : (σ.side p).Receive b pub m o h) :
      Step b σ (.deliver p pub i) (.received o)
        { σ with side := Function.update σ.side p h }
  | refused {p : Party} {o : Outcome RatchetError Bytes} (ho : ∀ q, o ≠ .ok q) :
      Step b σ (.forge p) (.received o) σ

end Exchange

end Ratchet
