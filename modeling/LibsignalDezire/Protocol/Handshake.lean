/-
From a prekey bundle to a session.

The initiator agrees on a secret with X3DH and opens a session on the responder's
signed prekey; the responder does the same with the keys that reach him.  In between
everything may be altered: the bundle, but for the responder's identity key, and the
initiator's keys on their way.

* `handshake_authenticates` — **who accepts a message has its sender's keys**, and the
  sender encrypted it in this session;
* `handshake_conversation` — an unaltered handshake opens a session in which every
  conversation goes through.
-/
import LibsignalDezire.Curve.SharedSecret
import LibsignalDezire.Ffi.Ratchet
import LibsignalDezire.Session.Conversation
import LibsignalDezire.Session.Strangers
import LibsignalDezire.Session.World

namespace Protocol

open Ffi (initSender initReceiver)
open Curve (PreKeyBundle OneTimePreKey X3DHInitResult X3DHError SameKey ValidPoint KdfSeparates
  initiatorMaterial responderMaterial)
open Ratchet (RatchetState Session Party Event CallEnv Build Turn Authentic Undisturbed verdicts
  KdfCall headerKeyCalls initSenderState initReceiverState encrypt decrypt CollisionFree)

variable {E K : Type}

/-! ### Opening a session -/

variable [AddCommGroup E] [DecidableEq E] (C : Curve.Primitives E K) (P : Ratchet.Primitives K)

/-- The initiator agrees with the bundle and opens a session; also returns her
ephemeral key. -/
def openInitiator (identityPrivate : BytesN 32) (bundle : PreKeyBundle)
    (ephemeralPrivate dhS : BytesN 32) : Option (BytesN 33 × RatchetState K) :=
  match Curve.x3dhInitiator C identityPrivate bundle ephemeralPrivate with
  | .ok result =>
    (initSender P dhS result.sharedSecret bundle.signedPrekey.publicKey).map fun state =>
      (result.ephemeralPublic, state)
  | _ => none

/-- The responder agrees with the keys he is given and opens a session on his signed
prekey. -/
def openResponder (identityPrivate signedPrekeyPrivate : BytesN 32)
    (oneTimePrekeyPrivate : Option (BytesN 32)) (identityPublic ephemeralPublic : BytesN 33) :
    Option (RatchetState K) :=
  match Curve.x3dhResponder C identityPrivate signedPrekeyPrivate oneTimePrekeyPrivate
    identityPublic ephemeralPublic with
  | .ok secret =>
    initReceiver P secret signedPrekeyPrivate (Curve.genPubkey C signedPrekeyPrivate)
  | _ => none

section Open

variable {C P} {identityPrivate ephemeralPrivate signedPrekeyPrivate dhS : BytesN 32}

omit [AddCommGroup E] [DecidableEq E] in
theorem initSender_eq_some {sk : K} {receiverDhPublic : BytesN 33} {state : RatchetState K} :
    initSender P dhS sk receiverDhPublic = some state ↔
      ∃ receiverPub, Curve.decodePublicKey receiverDhPublic = .ok receiverPub ∧
        initSenderState P dhS sk receiverPub = .ok state := by
  unfold initSender
  cases hkey : Curve.decodePublicKey receiverDhPublic with
  | ok key => simp [Ratchet.initSenderState]
  | err e => simp
  | panic => simp

theorem openInitiator_eq_some {bundle : PreKeyBundle} {ephemeralPublic : BytesN 33}
    {initiator : RatchetState K}
    (h : openInitiator C P identityPrivate bundle ephemeralPrivate dhS
      = some (ephemeralPublic, initiator)) :
    ∃ result receiverPub,
      Curve.x3dhInitiator C identityPrivate bundle ephemeralPrivate = .ok result ∧
      result.ephemeralPublic = ephemeralPublic ∧
      Curve.decodePublicKey bundle.signedPrekey.publicKey = .ok receiverPub ∧
      initSenderState P dhS result.sharedSecret receiverPub = .ok initiator := by
  unfold openInitiator at h
  split at h
  case h_1 result hresult =>
    obtain ⟨state, hstate, heq⟩ := Option.map_eq_some_iff.mp h
    cases heq
    obtain ⟨receiverPub, hpub, hinit⟩ := initSender_eq_some.mp hstate
    exact ⟨result, receiverPub, hresult, rfl, hpub, hinit⟩
  case h_2 => cases h

theorem openResponder_eq_some {oneTimePrekeyPrivate : Option (BytesN 32)}
    {identityPublic ephemeralPublic : BytesN 33} {responder : RatchetState K} :
    openResponder C P identityPrivate signedPrekeyPrivate oneTimePrekeyPrivate identityPublic
        ephemeralPublic = some responder ↔
      ∃ secret, Curve.x3dhResponder C identityPrivate signedPrekeyPrivate oneTimePrekeyPrivate
          identityPublic ephemeralPublic = .ok secret ∧
        initReceiverState P secret (signedPrekeyPrivate, C.x25519PublicKey signedPrekeyPrivate)
          = responder := by
  unfold openResponder
  cases Curve.x3dhResponder C identityPrivate signedPrekeyPrivate oneTimePrekeyPrivate
    identityPublic ephemeralPublic with
  | ok secret =>
    simp [initReceiver, Curve.genPubkey, Curve.decodePublicKey_encodePublicKey]
  | err e => simp
  | panic => simp

end Open

/-! ### What is accepted -/

section Handshake

variable {C P} {b : Build} {aliceIdentity aliceEphemeral bobIdentity bobSigned dhS : BytesN 32}
  {bobOneTime : Option (BytesN 32)}

/-- An initiation that succeeds has checked the signature of the signed prekey. -/
theorem x3dhInitiator_signed {identityPrivate ephemeralPrivate : BytesN 32}
    {bundle : PreKeyBundle} {result : X3DHInitResult K}
    (h : Curve.x3dhInitiator C identityPrivate bundle ephemeralPrivate = .ok result) :
    bundle.Signed C := by
  rw [Curve.x3dhInitiator_eq, Curve.agreeWithBundle] at h
  obtain ⟨valid, -, h⟩ := Outcome.bind_eq_ok.mp h
  obtain ⟨-, h⟩ := Outcome.ensure_bind_eq_ok.mp h
  obtain ⟨verified, hverified, h⟩ := Outcome.bind_eq_ok.mp h
  obtain ⟨hsome, -⟩ := Outcome.ensure_bind_eq_ok.mp h
  obtain ⟨vrf, rfl⟩ := Option.isSome_iff_exists.mp hsome
  exact ⟨vrf, hverified⟩

omit [AddCommGroup E] [DecidableEq E] in
/-- The states of an honest handshake are the two ends of a session. -/
theorem start_of_handshake [DecidableEq K] (hkeys : P.x25519PublicKey = C.x25519PublicKey)
    {sk : K} {initiator : RatchetState K}
    (hinit : initSenderState P dhS sk (C.x25519PublicKey bobSigned) = .ok initiator) :
    Session.start P sk bobSigned dhS = .ok (Session.pair initiator
      (initReceiverState P sk (bobSigned, C.x25519PublicKey bobSigned))) := by
  rw [← hkeys] at hinit ⊢
  exact Ratchet.Session.start_eq_pair P hinit

/-- The initiator's keys and the one-time prekey arrived as they were sent, up to sign,
low order and encoding. -/
def KeysArrived (C : Curve.Primitives E K) (aliceIdentity : BytesN 32)
    (ephemeralPublic identity ephemeral : BytesN 33) (oneTimePrekey : Option OneTimePreKey)
    (bobOneTime : Option (BytesN 32)) : Prop :=
  SameKey C (Curve.genPubkey C aliceIdentity) identity ∧ SameKey C ephemeralPublic ephemeral ∧
    Option.Rel (fun opk prekey =>
        SameKey C (Curve.genPubkey C prekey) (OneTimePreKey.publicKey opk))
      oneTimePrekey bobOneTime

/-- If a message is accepted, then the keys had arrived and the two ends are those of
one session: strangers accept nothing from each other. -/
theorem start_of_accepted [DecidableEq K] (hC : Curve.CoordinateLaws C)
    (hL : Curve.Laws C) {bundle : PreKeyBundle} {identity ephemeral : BytesN 33}
    (hkdf : KdfSeparates C (initiatorMaterial C aliceIdentity bundle aliceEphemeral)
      (responderMaterial C bobIdentity bobSigned bobOneTime identity ephemeral))
    (hkeys : P.x25519PublicKey = C.x25519PublicKey)
    (hH : ∀ km km', initiatorMaterial C aliceIdentity bundle aliceEphemeral = .ok km →
      responderMaterial C bobIdentity bobSigned bobOneTime identity ephemeral = .ok km' →
      Set.InjOn (KdfCall.eval P) (headerKeyCalls (Curve.kdf C km) (Curve.kdf C km')))
    (hidentity : bundle.identityKey = Curve.genPubkey C bobIdentity)
    (hsigned : bundle.Signed C → bundle.signedPrekey.publicKey = Curve.genPubkey C bobSigned)
    {ephemeralPublic : BytesN 33} {initiator responder : RatchetState K}
    (hinitiator : openInitiator C P aliceIdentity bundle aliceEphemeral dhS
      = some (ephemeralPublic, initiator))
    (hresponder : openResponder C P bobIdentity bobSigned bobOneTime identity ephemeral
      = some responder)
    {es : List (Event K)} {p : Party} {env : CallEnv K} {encHeader ciphertext ad q : Bytes}
    (hes : Machine.Along (Session.step P b) (Authentic P b) (Session.pair initiator responder)
      (es ++ [.decrypt p env encHeader ciphertext ad]))
    (hdec : (decrypt P b env encHeader ciphertext ad
      ((Machine.run (Session.step P b) (Session.pair initiator responder) es).state p)).1
        = .ok q) :
    KeysArrived C aliceIdentity ephemeralPublic identity ephemeral bundle.oneTimePrekey
        bobOneTime ∧
      ∃ km, initiatorMaterial C aliceIdentity bundle aliceEphemeral = .ok km ∧
        Session.start P (Curve.kdf C km) bobSigned dhS
          = .ok (Session.pair initiator responder) := by
  obtain ⟨result, receiverPub, hresult, rfl, hpub, hinit⟩ := openInitiator_eq_some hinitiator
  obtain ⟨secret, hsecret, rfl⟩ := openResponder_eq_some.mp hresponder
  have hspk := hsigned (x3dhInitiator_signed hresult)
  rw [hspk, Curve.genPubkey, Curve.decodePublicKey_encodePublicKey] at hpub
  obtain rfl := Outcome.ok.inj hpub
  obtain ⟨hes, hauth⟩ := Machine.along_concat.mp hes
  obtain ⟨B, S, dh4, km, hB, hS', hrel, hmaterial, hkm, hmine⟩ :=
    Curve.x3dhInitiator_points hC.toLadderLaws hresult
  obtain ⟨A, X, km', hA, hX, hmaterial', hkm', hyours⟩ :=
    Curve.x3dhResponder_points hC.toLadderLaws hsecret
  rw [hidentity] at hB
  rw [hspk] at hS'
  have hcalls := hH km km' hkm hkm'
  rw [hmine] at hinit ⊢
  rw [hyours] at hauth hdec ⊢
  by_cases heq : Curve.kdf C km = Curve.kdf C km'
  · -- equal secrets mean equal key material, hence the same points
    have hequal := hkdf km km' hkm hkm' heq
    rw [hmaterial, hmaterial'] at hequal
    refine ⟨(Curve.keyMaterial_handshake_iff hC hL hB hS' hrel hA hX).mp hequal, km, hkm, ?_⟩
    rw [← heq]
    exact start_of_handshake hkeys hinit
  · -- strangers accept nothing from each other
    rw [hyours] at hes
    have hstrangers := hes.invariant (fun _ _ hs hauth => hs.step hcalls heq hauth)
      (Ratchet.strangers_pair hinit _)
    have hrefuse := hstrangers.refuses hcalls heq hauth
    rw [Ratchet.Refuses] at hrefuse
    rw [hrefuse] at hdec
    cases hdec

/-- **Whoever accepts a message has its sender's keys.**  The bundle may be altered but
for the identity key, which the initiator knows, and a signature that verifies under
it is the responder's; the initiator's keys may be altered on their way to him.  If
either party then accepts a message, in whatever run over an ideal network, the keys
and the one-time prekey had arrived as they were sent, up to sign, low order and
encoding, and its peer had encrypted this message in this session. -/
theorem handshake_authenticates [DecidableEq K] (hC : Curve.CoordinateLaws C)
    (hL : Curve.Laws C) {bundle : PreKeyBundle} {identity ephemeral : BytesN 33}
    (hkdf : KdfSeparates C (initiatorMaterial C aliceIdentity bundle aliceEphemeral)
      (responderMaterial C bobIdentity bobSigned bobOneTime identity ephemeral))
    (hkeys : P.x25519PublicKey = C.x25519PublicKey) (hP : Ratchet.Correct P)
    (hH : ∀ km km', initiatorMaterial C aliceIdentity bundle aliceEphemeral = .ok km →
      responderMaterial C bobIdentity bobSigned bobOneTime identity ephemeral = .ok km' →
      Set.InjOn (KdfCall.eval P) (headerKeyCalls (Curve.kdf C km) (Curve.kdf C km')))
    (hidentity : bundle.identityKey = Curve.genPubkey C bobIdentity)
    (hsigned : bundle.Signed C → bundle.signedPrekey.publicKey = Curve.genPubkey C bobSigned)
    {ephemeralPublic : BytesN 33} {initiator responder : RatchetState K}
    (hinitiator : openInitiator C P aliceIdentity bundle aliceEphemeral dhS
      = some (ephemeralPublic, initiator))
    (hresponder : openResponder C P bobIdentity bobSigned bobOneTime identity ephemeral
      = some responder)
    {es : List (Event K)}
    (hS : ∀ km, initiatorMaterial C aliceIdentity bundle aliceEphemeral = .ok km →
      ((Machine.run (Session.step P b) (Session.pair initiator responder) es).schedule P
        (Curve.kdf C km) bobSigned).KdfSeparates)
    {p : Party} {env : CallEnv K} {encHeader ciphertext ad q : Bytes}
    (hes : Machine.Along (Session.step P b) (Authentic P b) (Session.pair initiator responder)
      (es ++ [.decrypt p env encHeader ciphertext ad]))
    (hdec : (decrypt P b env encHeader ciphertext ad
      ((Machine.run (Session.step P b) (Session.pair initiator responder) es).state p)).1
        = .ok q) :
    SameKey C (Curve.genPubkey C aliceIdentity) identity ∧ SameKey C ephemeralPublic ephemeral ∧
      Option.Rel (fun opk prekey =>
          SameKey C (Curve.genPubkey C prekey) (OneTimePreKey.publicKey opk))
        bundle.oneTimePrekey bobOneTime ∧
      ∃ es₁ es₂, es = es₁ ++ .encrypt p.peer q ad :: es₂ ∧
        (encrypt P q ad ((Machine.run (Session.step P b) (Session.pair initiator responder)
          es₁).state p.peer)).1 = .ok (encHeader, ciphertext) := by
  obtain ⟨⟨hidentity', hephemeral, hopk⟩, km, hkm, h₀⟩ := start_of_accepted hC hL hkdf hkeys hH
    hidentity hsigned hinitiator hresponder hes hdec
  obtain ⟨hes, hauth⟩ := Machine.along_concat.mp hes
  exact ⟨hidentity', hephemeral, hopk,
    Ratchet.accepted_was_encrypted hP h₀ (hS km hkm) hes hauth hdec⟩

/-- The secret of an unaltered handshake, from the responder's private keys. -/
def handshakeSecret (C : Curve.Primitives E K) (aliceIdentity aliceEphemeral bobIdentity
    bobSigned : BytesN 32) (bobOneTime : Option (BytesN 32)) : K :=
  Curve.kdf C (Curve.keyMaterial
    (C.x25519DiffieHellman bobSigned (C.x25519PublicKey aliceIdentity))
    (C.x25519DiffieHellman bobIdentity (C.x25519PublicKey aliceEphemeral))
    (C.x25519DiffieHellman bobSigned (C.x25519PublicKey aliceEphemeral))
    (bobOneTime.map fun opk => C.x25519DiffieHellman opk (C.x25519PublicKey aliceEphemeral)))

theorem x3dhInitiator_handshakeSecret (hL : Curve.Laws C) {Z : BytesN 64}
    {out : Curve.VXEdDSAOutput}
    (hsign : Curve.vxeddsaSign C bobIdentity (Curve.genPubkey C bobSigned).1 Z = .ok out)
    (hBv : Curve.mappedPoint C (Curve.calculateKeyPair C bobIdentity).2
      (Curve.genPubkey C bobSigned).1 ≠ 0) :
    Curve.x3dhInitiator C aliceIdentity
      (Curve.publish C bobIdentity bobSigned out.signature bobOneTime) aliceEphemeral
        = .ok
          { sharedSecret := handshakeSecret C aliceIdentity aliceEphemeral bobIdentity bobSigned
              bobOneTime
            ephemeralPublic := Curve.genPubkey C aliceEphemeral } := by
  rw [Curve.x3dhInitiator_publish hL _ hsign hBv, handshakeSecret, hL.dh_comm aliceIdentity,
    hL.dh_comm aliceEphemeral bobIdentity, hL.dh_comm aliceEphemeral bobSigned]
  cases bobOneTime with
  | none => rfl
  | some opk => rw [Option.map_some, Option.map_some, hL.dh_comm aliceEphemeral opk]

theorem openInitiator_publish (hL : Curve.Laws C) {Z : BytesN 64} {out : Curve.VXEdDSAOutput}
    (hsign : Curve.vxeddsaSign C bobIdentity (Curve.genPubkey C bobSigned).1 Z = .ok out)
    (hBv : Curve.mappedPoint C (Curve.calculateKeyPair C bobIdentity).2
      (Curve.genPubkey C bobSigned).1 ≠ 0) {initiator : RatchetState K}
    (hinit : initSenderState P dhS (handshakeSecret C aliceIdentity aliceEphemeral bobIdentity
      bobSigned bobOneTime) (C.x25519PublicKey bobSigned) = .ok initiator) :
    openInitiator C P aliceIdentity
      (Curve.publish C bobIdentity bobSigned out.signature bobOneTime)
      aliceEphemeral dhS = some (Curve.genPubkey C aliceEphemeral, initiator) := by
  have hstate := initSender_eq_some.mpr
    ⟨_, Curve.decodePublicKey_encodePublicKey (C.x25519PublicKey bobSigned), hinit⟩
  rw [openInitiator, x3dhInitiator_handshakeSecret hL hsign hBv]
  exact Option.map_eq_some_iff.mpr ⟨initiator, hstate, rfl⟩

theorem x3dhResponder_handshakeSecret (hL : Curve.Laws C) (aliceIdentity aliceEphemeral
    bobIdentity bobSigned : BytesN 32) (bobOneTime : Option (BytesN 32)) :
    Curve.x3dhResponder C bobIdentity bobSigned bobOneTime (Curve.genPubkey C aliceIdentity)
      (Curve.genPubkey C aliceEphemeral)
        = .ok (handshakeSecret C aliceIdentity aliceEphemeral bobIdentity
          bobSigned bobOneTime) :=
  Curve.x3dhResponder_genPubkey hL _ _ _ _ _

theorem openResponder_genPubkey (hL : Curve.Laws C) (aliceIdentity aliceEphemeral bobIdentity
    bobSigned : BytesN 32) (bobOneTime : Option (BytesN 32)) :
    openResponder C P bobIdentity bobSigned bobOneTime (Curve.genPubkey C aliceIdentity)
      (Curve.genPubkey C aliceEphemeral) = some (initReceiverState P
        (handshakeSecret C aliceIdentity aliceEphemeral bobIdentity bobSigned bobOneTime)
        (bobSigned, C.x25519PublicKey bobSigned)) :=
  openResponder_eq_some.mpr ⟨_, x3dhResponder_handshakeSecret hL _ _ _ _ _, rfl⟩

variable (aliceIdentity aliceEphemeral dhS bobOneTime) in
/-- **An honest handshake opens a session.**  If bundle and keys arrive as they were
sent, both sides succeed, and every conversation between them gets the replies that
follow from who speaks and for how long. -/
theorem handshake_conversation [DecidableEq K] (hL : Curve.Laws C)
    (hkeys : P.x25519PublicKey = C.x25519PublicKey) (hP : Ratchet.Correct P) {Z : BytesN 64}
    {out : Curve.VXEdDSAOutput}
    (hsign : Curve.vxeddsaSign C bobIdentity (Curve.genPubkey C bobSigned).1 Z = .ok out)
    (hBv : Curve.mappedPoint C (Curve.calculateKeyPair C bobIdentity).2
      (Curve.genPubkey C bobSigned).1 ≠ 0) :
    ∃ ephemeralPublic initiator responder,
      openInitiator C P aliceIdentity
        (Curve.publish C bobIdentity bobSigned out.signature bobOneTime) aliceEphemeral dhS
          = some (ephemeralPublic, initiator) ∧
      openResponder C P bobIdentity bobSigned bobOneTime (Curve.genPubkey C aliceIdentity)
        ephemeralPublic = some responder ∧
      ∀ ts : List (Turn K), ts.length + Ratchet.maxSkip.toNat < 2 ^ 32 →
        ((Machine.run (Session.step P b) (Session.pair initiator responder)
          ((Session.pair initiator responder).conversation P b ts)).schedule P (handshakeSecret C
            aliceIdentity aliceEphemeral bobIdentity bobSigned bobOneTime)
              bobSigned).KdfSeparates →
        Machine.Along (Session.step P b) (Undisturbed P b) (Session.pair initiator responder)
          ((Session.pair initiator responder).conversation P b ts) →
        Machine.trace (Session.step P b) (fun s e => (s.reply P b e).answer)
          (Session.pair initiator responder)
          ((Session.pair initiator responder).conversation P b ts)
            = verdicts .responder 0 ts := by
  obtain ⟨initiator, hinit⟩ : ∃ initiator, initSenderState P dhS (handshakeSecret C aliceIdentity
      aliceEphemeral bobIdentity bobSigned bobOneTime) (C.x25519PublicKey bobSigned)
        = .ok initiator := ⟨_, rfl⟩
  refine ⟨_, initiator, _, openInitiator_publish hL hsign hBv hinit,
    openResponder_genPubkey hL _ _ _ _ _, ?_⟩
  intro ts hts hS hes
  have h₀ := start_of_handshake hkeys hinit
  obtain ⟨s₀, hs₀⟩ : ∃ s₀, Session.pair initiator (initReceiverState P (handshakeSecret C
      aliceIdentity aliceEphemeral bobIdentity bobSigned bobOneTime)
      (bobSigned, C.x25519PublicKey bobSigned)) = s₀ := ⟨_, rfl⟩
  rw [hs₀] at hS hes h₀ ⊢
  have hagrees := Ratchet.agrees_schedule (P := P)
    (handshakeSecret C aliceIdentity aliceEphemeral
    bobIdentity bobSigned bobOneTime) bobSigned
    (Machine.run (Session.step P b) s₀ (s₀.conversation P b ts))
  have hstart : Ratchet.Between b _ bobSigned _ s₀ 0 0 .responder _ :=
    Ratchet.Between.start h₀ hagrees.of_run
  exact (hstart.conversation hP hS (by omega) hes hagrees).1

end Handshake

/-! ### A handshake on the cyclic group -/

namespace Symbolic

open Curve (basepointOrder clampInteger maskTopBit genPubkey publish)
open Curve.Cyclic (Point)
open Ratchet.Symbolic (Key)

/-- The Montgomery coordinate of a number. -/
def coordinate (n : ℕ) : BytesN 32 :=
  Bytes.leArray 32 (min (n % (8 * basepointOrder))
    (8 * basepointOrder - n % (8 * basepointOrder)) % (4 * basepointOrder))

theorem toMontgomery_natCast (n : ℕ) : Curve.Cyclic.toMontgomery (n : Point) = coordinate n := by
  rw [Curve.Cyclic.toMontgomery, Curve.Cyclic.height, ZMod.valMinAbs_natAbs_eq_min,
    ZMod.val_natCast, coordinate]

def publicKey (k : BytesN 32) : BytesN 32 := coordinate (clampInteger k * 8)

def diffieHellman (k u : BytesN 32) : BytesN 32 :=
  let x := Bytes.leNat (maskTopBit u).1
  if x = 0 then coordinate (clampInteger k * (4 * basepointOrder))
  else if x < 4 * basepointOrder then coordinate (clampInteger k * x)
  else Bytes.leArray 32 0

theorem publicKey_eq : Curve.Cyclic.primitives.x25519PublicKey = publicKey := by
  funext k
  rw [Curve.Cyclic.primitives_publicKey, nsmul_eq_mul, ← Nat.cast_mul, toMontgomery_natCast,
    publicKey]

theorem diffieHellman_eq : Curve.Cyclic.primitives.x25519DiffieHellman = diffieHellman := by
  funext k u
  simp only [Curve.Cyclic.primitives, Curve.Cyclic.toEdwards, diffieHellman]
  split
  case h_1 A hA =>
    split at hA
    case isTrue hzero =>
      rw [if_pos hzero, ← Option.some_inj.mp hA, nsmul_eq_mul, ← Nat.cast_mul,
        toMontgomery_natCast]
    case isFalse hzero =>
      rw [if_neg hzero]
      split at hA
      case isTrue hlt =>
        rw [if_pos hlt, ← Option.some_inj.mp hA, nsmul_eq_mul, ← Nat.cast_mul,
          toMontgomery_natCast]
      case isFalse => cases hA
  case h_2 hA =>
    split at hA
    case isTrue => cases hA
    case isFalse hzero =>
      split at hA
      case isTrue => cases hA
      case isFalse hlt => rw [if_neg hzero, if_neg hlt]

/-- The same curve, where HKDF returns symbolic keys. -/
def symbolic {E K : Type} (C : Curve.Primitives E K) : Curve.Primitives E Key where
  basepoint := C.basepoint
  compress := C.compress
  decompress := C.decompress
  toEdwards := C.toEdwards
  toMontgomery := C.toMontgomery
  nonspecMapToCurve := C.nonspecMapToCurve
  x25519PublicKey := C.x25519PublicKey
  x25519DiffieHellman := C.x25519DiffieHellman
  sha512 := C.sha512
  hkdfSha512 _ ikm _ := .hmac .secret (1 :: ikm)

section Laws

variable {E K : Type} [AddCommGroup E] {C : Curve.Primitives E K}

theorem laws_symbolic (h : Curve.Laws C) : Curve.Laws (symbolic C) where
  toGroupLaws := ⟨h.card, h.basepoint⟩
  decompress_compress := h.decompress_compress
  sign_neg := h.sign_neg
  toEdwards_toMontgomery := h.toEdwards_toMontgomery
  toMontgomery_lt := h.toMontgomery_lt
  toMontgomery_zero := h.toMontgomery_zero
  publicKey := h.publicKey
  dh_comm := h.dh_comm

theorem coordinateLaws_symbolic (h : Curve.CoordinateLaws C) :
    Curve.CoordinateLaws (symbolic C) where
  toGroupLaws := ⟨h.card, h.basepoint⟩
  dh := h.dh
  toMontgomery_zero := h.toMontgomery_zero
  publicKey := h.publicKey
  toMontgomery_eq := h.toMontgomery_eq

omit [AddCommGroup E] in
theorem kdfSeparates_symbolic (material material' : Outcome X3DHError Bytes) :
    KdfSeparates (symbolic C) material material' := by
  intro km km' _ _ h
  exact List.append_cancel_left (List.cons.inj (Key.hmac.inj h).2).2

omit [AddCommGroup E] in
theorem genPubkey_symbolic (k : BytesN 32) : genPubkey (symbolic C) k = genPubkey C k := rfl

theorem mappedPoint_symbolic (A : E) (message : Bytes) :
    Curve.mappedPoint (symbolic C) A message = Curve.mappedPoint C A message := rfl

theorem vxeddsaSign_symbolic [DecidableEq E] (k : BytesN 32) (message : Bytes) (Z : BytesN 64) :
    Curve.vxeddsaSign (symbolic C) k message Z = Curve.vxeddsaSign C k message Z := rfl

end Laws

/-- The symbolic primitives with the public keys of a curve; HMAC differs from what
the HKDF of the curve returns. -/
def ratchet (publicKey : BytesN 32 → BytesN 32) : Ratchet.Primitives Key :=
  { Ratchet.Symbolic.primitives with
    x25519PublicKey := publicKey
    x25519DiffieHellman := fun secret pub => .agree (publicKey secret) pub
    hmacSha256 := fun key message => .hmac key (0 :: message) }

theorem correct (publicKey : BytesN 32 → BytesN 32) : Ratchet.Correct (ratchet publicKey) where
  dh_comm a b := Key.agree_comm (publicKey a) (publicKey b)
  gcm_open_seal := Ratchet.Symbolic.correct.gcm_open_seal
  gcm_length := Ratchet.Symbolic.correct.gcm_length
  cbc_decrypt_encrypt := Ratchet.Symbolic.correct.cbc_decrypt_encrypt
  cbc_length := Ratchet.Symbolic.correct.cbc_length

theorem collisionFree {E K : Type} (C : Curve.Primitives E K) (publicKey : BytesN 32 → BytesN 32)
    (km : Bytes) : CollisionFree (ratchet publicKey) (Curve.kdf (symbolic C) km) where
  hmac_inj h := ⟨(Key.hmac.inj h).1, (List.cons.inj (Key.hmac.inj h).2).2⟩
  hkdf512_inj h := Key.hkdf512.inj h
  hkdf256_inj h := Key.hkdf256.inj h
  hmac_ne_hkdf512 _ _ _ _ _ _ h := nomatch h
  hmac_ne_hkdf256 _ _ _ _ h := nomatch h
  hkdf512_ne_hkdf256 _ _ _ _ _ _ h := nomatch h
  secret_ne_hmac _ _ h := nomatch (List.cons.inj (Key.hmac.inj h).2).1
  secret_ne_hkdf512 _ _ _ _ h := nomatch h
  secret_ne_hkdf256 _ _ h := nomatch h
  secret_ne_dh a p h := (Key.agree_eq (publicKey a) p).elim (fun _ ⟨_, e⟩ => nomatch h.trans e)
  dh_ne_hmac a p _ _ h :=
    (Key.agree_eq (publicKey a) p).elim (fun _ ⟨_, e⟩ => nomatch h.symm.trans e)
  dh_ne_hkdf512 a p _ _ _ _ h :=
    (Key.agree_eq (publicKey a) p).elim (fun _ ⟨_, e⟩ => nomatch h.symm.trans e)

abbrev curve : Curve.Primitives Point Key := symbolic Curve.Cyclic.primitives

abbrev primitives : Ratchet.Primitives Key := ratchet publicKey

/-- Private keys that clamping tells apart. -/
def seed (n : ℕ) : BytesN 32 := Bytes.leArray 32 (8 * n)

/-- The secret of the handshake, computed. -/
def secret : Key :=
  Curve.kdf curve (Curve.keyMaterial (diffieHellman (seed 3) (publicKey (seed 0)))
    (diffieHellman (seed 2) (publicKey (seed 1))) (diffieHellman (seed 3) (publicKey (seed 1)))
    (some (diffieHellman (seed 4) (publicKey (seed 1)))))

theorem handshakeSecret_eq :
    handshakeSecret curve (seed 0) (seed 1) (seed 2) (seed 3) (some (seed 4)) = secret := by
  rw [handshakeSecret, show curve.x25519DiffieHellman = diffieHellman from diffieHellman_eq,
    show curve.x25519PublicKey = publicKey from publicKey_eq]
  rfl

/-- The responder can publish a bundle. -/
theorem publishes : ∃ out, Curve.vxeddsaSign curve (seed 2) (genPubkey curve (seed 3)).1
      (Bytes.leArray 64 0) = .ok out ∧
    Curve.mappedPoint curve (Curve.calculateKeyPair curve (seed 2)).2
      (genPubkey curve (seed 3)).1 ≠ 0 := by
  rw [genPubkey_symbolic, vxeddsaSign_symbolic, mappedPoint_symbolic]
  obtain ⟨out, hout⟩ := Curve.Cyclic.vxeddsaSign_ok (seed 2)
    (genPubkey Curve.Cyclic.primitives (seed 3)).1 (Bytes.leArray 64 0)
  exact ⟨out, hout, Curve.Cyclic.mappedPoint_ne_zero _ _⟩

theorem publicKey_curve : curve.x25519PublicKey = publicKey := publicKey_eq

/-- The state that the initiator opens. -/
def initiator : RatchetState Key :=
  (initSenderState primitives (seed 5) secret (publicKey (seed 3))).get rfl

def responder : RatchetState Key :=
  initReceiverState primitives secret (seed 3, publicKey (seed 3))

theorem openInitiator_honest {out : Curve.VXEdDSAOutput}
    (hout : Curve.vxeddsaSign curve (seed 2) (genPubkey curve (seed 3)).1 (Bytes.leArray 64 0)
      = .ok out)
    (hmapped : Curve.mappedPoint curve (Curve.calculateKeyPair curve (seed 2)).2
      (genPubkey curve (seed 3)).1 ≠ 0) :
    openInitiator curve primitives (seed 0) (publish curve (seed 2) (seed 3) out.signature
      (some (seed 4))) (seed 1) (seed 5) = some (genPubkey curve (seed 1), initiator) := by
  refine openInitiator_publish (laws_symbolic Curve.Cyclic.laws) hout hmapped ?_
  rw [handshakeSecret_eq, publicKey_curve]
  rfl

theorem openResponder_honest : openResponder curve primitives (seed 2) (seed 3) (some (seed 4))
    (genPubkey curve (seed 0)) (genPubkey curve (seed 1)) = some responder := by
  rw [openResponder_genPubkey (laws_symbolic Curve.Cyclic.laws), handshakeSecret_eq,
    publicKey_curve]
  rfl

/-- The first message of the initiator. -/
def first : Ratchet.Sealed Key :=
  ((Session.pair initiator responder).encrypt primitives .initiator [0x61] []).sent.head
    (by decide +kernel)

/-- The responder, who accepts it, has the initiator's identity key. -/
theorem handshake_authenticates_of_first : ∃ es₁ es₂,
    [Event.encrypt .initiator [0x61] []]
      = es₁ ++ .encrypt (Party.peer .responder) [0x61] [] :: es₂ ∧
    (encrypt primitives [0x61] [] ((Machine.run (Session.step primitives .release)
      (Session.pair initiator responder) es₁).state (Party.peer .responder))).1
        = .ok (first.encHeader, first.ciphertext) := by
  obtain ⟨out, hout, hmapped⟩ := publishes
  have hes : Machine.Along (Session.step primitives .release) (Authentic primitives .release)
      (Session.pair initiator responder) ([.encrypt .initiator [0x61] []] ++
        [.decrypt .responder (Ratchet.Symbolic.env 48) first.encHeader
          first.ciphertext []]) := by
    decide +kernel
  have hdec : (decrypt primitives .release (Ratchet.Symbolic.env 48) first.encHeader
      first.ciphertext [] ((Machine.run (Session.step primitives .release)
        (Session.pair initiator responder) [.encrypt .initiator [0x61] []]).state .responder)).1
          = .ok [0x61] := by
    decide +kernel
  exact (handshake_authenticates (coordinateLaws_symbolic Curve.Cyclic.coordinateLaws)
    (laws_symbolic Curve.Cyclic.laws) (kdfSeparates_symbolic _ _) publicKey_curve.symm
    (correct publicKey)
    (fun km _ _ _ => (collisionFree Curve.Cyclic.primitives publicKey km).injOn_headerKeyCalls _)
    rfl (fun _ => rfl) (openInitiator_honest hout hmapped) openResponder_honest
    (fun km _ =>
      Ratchet.Schedule.kdfSeparates (collisionFree Curve.Cyclic.primitives publicKey km))
    hes hdec).2.2.2

/-- The initiator speaks twice, the responder answers, and the initiator speaks again. -/
theorem handshake_conversation_of_three :
    Machine.trace (Session.step primitives .release)
      (fun s e => (s.reply primitives .release e).answer) (Session.pair initiator responder)
      ((Session.pair initiator responder).conversation primitives .release
        [⟨.initiator, [0x61], [], Ratchet.Symbolic.env 48⟩,
          ⟨.initiator, [0x62], [0x01], Ratchet.Symbolic.env 56⟩,
          ⟨.responder, [0x63], [], Ratchet.Symbolic.env 64⟩,
          ⟨.initiator, [0x64], [], Ratchet.Symbolic.env 72⟩])
      = [.sent (.ok ⟨⟩), .received (.ok [0x61]), .sent (.ok ⟨⟩), .received (.ok [0x62]),
          .sent (.ok ⟨⟩), .received (.ok [0x63]), .sent (.ok ⟨⟩), .received (.ok [0x64])] := by
  obtain ⟨out, hout, hmapped⟩ := publishes
  obtain ⟨ephemeralPublic, alice, bob, halice, hbob, hconversation⟩ :=
    handshake_conversation (b := .release) (seed 0) (seed 1) (seed 5) (some (seed 4))
      (laws_symbolic Curve.Cyclic.laws) publicKey_curve.symm (correct publicKey)
      hout hmapped
  rw [openInitiator_honest hout hmapped] at halice
  cases halice
  rw [openResponder_honest] at hbob
  cases hbob
  exact hconversation _ (by decide +kernel)
    (Ratchet.Schedule.kdfSeparates (collisionFree Curve.Cyclic.primitives publicKey _))
    (by decide +kernel)

end Symbolic

end Protocol
