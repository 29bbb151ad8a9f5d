/-
Two devices that agree on a secret and talk.

A device opens its end of a session through the C API or through the bindings for Java:
it agrees with the keys it was sent, passes the secret on, and has the address of a state.

* `OpensInitiator.openInitiator`, `OpensResponder.openResponder` — at this address is the
  state that the handshake opens;
* `devices_authenticate` — **whoever reads a message has the keys of its sender**, and the
  other device encrypted it.
-/
import LibsignalDezire.Jni.X3DH
import LibsignalDezire.Protocol.Handshake
import LibsignalDezire.Protocol.Platforms

namespace Protocol

open Curve (PreKeyBundle X3DHInitResult X3DHError)
open Ffi (Block Client)
open Jni (InitiatorKeys ResponderKeys sized)
open Ratchet (RatchetState Json Session Party CallEnv Build Authentic KdfCall
  headerKeyCalls)

variable {E K : Type}

/-! ### Opening an end -/

section Opens

variable [AddCommGroup E] [DecidableEq E] (C : Curve.Primitives E K) (P : Ratchet.Primitives K)
  (zero : K) (ofBytes : BytesN 32 → K)

/-- A device agrees with a bundle and opens the initiator's end: the keys that it uses,
the ephemeral key that it sends, its memory, and the address of the state. -/
inductive OpensInitiator (ephemeralPrivate dhS : BytesN 32) :
    InitiatorKeys → BytesN 33 → Heap (Block K) → ℕ → Prop where
  | c {identityPrivate : BytesN 32} {input : Ffi.X3DHBundleInput} {output : Ffi.X3DHInitOutput K}
      {A : Allocator (Block K)} {sk : BytesN 32} {h h' : Heap (Block K)} {ptr : ℕ}
      (agree : Ffi.x3dhInitiator C zero identityPrivate input ephemeralPrivate = .ok output)
      (status : output.status = 0)
      (secret : ofBytes sk = output.sharedSecret)
      (init : Ffi.ratchetInitSender P ofBytes A dhS (.client sk.1) (.client input.spkPublic.1) h
        = (.ok ptr, h'))
      (ne : ptr ≠ 0) :
      OpensInitiator ephemeralPrivate dhS ⟨identityPrivate, input.bundle⟩ output.ephemeralPublic
        h' ptr
  | java {identityPrivateArr bobIdentityPublicArr bobSpkPublicArr bobSpkSignatureArr
      bobOpkPublicArr : Option Bytes} {keys : InitiatorKeys} {map : Jni.X3DHMap K}
      {A : Allocator (Block K)} {sk : BytesN 32} {h h' : Heap (Block K)} {ptr : ℕ}
      (arrays : InitiatorKeys.ofArrays identityPrivateArr bobIdentityPublicArr bobSpkPublicArr
        bobSpkSignatureArr bobOpkPublicArr = some keys)
      (agree : Jni.x3dhInitiator C identityPrivateArr bobIdentityPublicArr bobSpkPublicArr
        bobSpkSignatureArr bobOpkPublicArr ephemeralPrivate = .ok (some map))
      (secret : ofBytes sk = map.sharedSecret)
      (init : Jni.ratchetInitSender P ofBytes A dhS (some sk.1) bobSpkPublicArr h
        = (.ok ptr, h'))
      (ne : ptr ≠ 0) :
      OpensInitiator ephemeralPrivate dhS keys map.ephemeralPublic h' ptr

/-- A device agrees with the initiator's keys and opens the responder's end on its signed
prekey. -/
inductive OpensResponder : ResponderKeys → Heap (Block K) → ℕ → Prop where
  | c {responder : Ffi.X3DHResponderInput} {alice : Ffi.X3DHAliceKeys}
      {output : Ffi.X3DHResponderOutput K} {A : Allocator (Block K)} {sk : BytesN 32}
      {h h' : Heap (Block K)} {ptr : ℕ}
      (agree : Ffi.x3dhResponder C zero responder alice = .ok output)
      (status : output.status = 0)
      (secret : ofBytes sk = output.sharedSecret)
      (init : Ffi.ratchetInitReceiver P ofBytes A (.client sk.1) (.client responder.spkPrivate.1)
        (.client (Curve.genPubkey C responder.spkPrivate).1) h = (.ok ptr, h'))
      (ne : ptr ≠ 0) :
      OpensResponder ⟨responder.identityPrivate, responder.spkPrivate, responder.oneTimePrekey,
        alice.identityPublic, alice.ephemeralPublic⟩ h' ptr
  | java {identityPrivateArr signedPrekeyPrivateArr oneTimePrekeyPrivateArr
      aliceIdentityPublicArr aliceEphemeralPublicArr : Option Bytes} {keys : ResponderKeys}
      {A : Allocator (Block K)} {sk : BytesN 32} {h h' : Heap (Block K)} {ptr : ℕ}
      (arrays : ResponderKeys.ofArrays identityPrivateArr signedPrekeyPrivateArr
        oneTimePrekeyPrivateArr aliceIdentityPublicArr aliceEphemeralPublicArr = some keys)
      (agree : Jni.x3dhResponder C identityPrivateArr signedPrekeyPrivateArr
        oneTimePrekeyPrivateArr aliceIdentityPublicArr aliceEphemeralPublicArr
          = .ok (some (ofBytes sk)))
      (init : Jni.ratchetInitReceiver P ofBytes A (some sk.1) signedPrekeyPrivateArr
        (some (Curve.genPubkey C keys.signedPrekeyPrivate).1) h = (.ok ptr, h'))
      (ne : ptr ≠ 0) :
      OpensResponder keys h' ptr

end Opens

/-! ### What has been opened -/

theorem boxed_eq_ok {A : Allocator (Block K)} {state : Option (RatchetState K)}
    {h h' : Heap (Block K)} {ptr : ℕ} (hrun : Ffi.boxed A state h = (.ok ptr, h'))
    (hne : ptr ≠ 0) : ∃ st, state = some st ∧ h'.block ptr = some (.state st) := by
  cases state with
  | none =>
    cases hrun
    exact absurd rfl hne
  | some st =>
    cases hrun
    exact ⟨st, rfl, Heap.set_block_self _ hne _⟩

theorem sized_val {n : ℕ} (v : BytesN n) : sized n (some v.1) = some v := by
  rw [sized, Option.bind_some, dif_pos v.2]

theorem x3dhInitOutput_eq_ok {zero : K} {x : Outcome X3DHError (X3DHInitResult K)}
    {output : Ffi.X3DHInitOutput K} (h : Ffi.X3DHInitOutput.fromResult zero x = .ok output)
    (hstatus : output.status = 0) : x = .ok ⟨output.sharedSecret, output.ephemeralPublic⟩ := by
  cases x with
  | ok result =>
    cases h
    rfl
  | err e => cases e <;> cases h <;> cases hstatus
  | panic => cases h

theorem x3dhResponderOutput_eq_ok {zero : K} {x : Outcome X3DHError K}
    {output : Ffi.X3DHResponderOutput K}
    (h : Ffi.X3DHResponderOutput.fromResult zero x = .ok output) (hstatus : output.status = 0) :
    x = .ok output.sharedSecret := by
  cases x with
  | ok secret =>
    cases h
    rfl
  | err e => cases e <;> cases h <;> cases hstatus
  | panic => cases h

theorem orNull_eq_some {α β : Type} {f : α → β} {x : Outcome X3DHError α} {y : β}
    (h : Jni.orNull f x = .ok (some y)) : ∃ a, x = .ok a ∧ f a = y := by
  cases x with
  | ok a =>
    cases h
    exact ⟨a, rfl, rfl⟩
  | err e => cases h
  | panic => cases h

theorem sized_spk_of_ofArrays {a₁ a₂ a₃ a₄ a₅ : Option Bytes} {keys : InitiatorKeys}
    (h : InitiatorKeys.ofArrays a₁ a₂ a₃ a₄ a₅ = some keys) :
    sized 33 a₃ = some keys.bundle.signedPrekey.publicKey := by
  obtain ⟨_, -, h⟩ := Option.bind_eq_some_iff.mp h
  obtain ⟨_, -, h⟩ := Option.bind_eq_some_iff.mp h
  obtain ⟨publicKey, hkey, h⟩ := Option.bind_eq_some_iff.mp h
  obtain ⟨_, -, h⟩ := Option.bind_eq_some_iff.mp h
  cases h
  exact hkey

theorem sized_signedPrekey_of_ofArrays {a₁ a₂ a₃ a₄ a₅ : Option Bytes} {keys : ResponderKeys}
    (h : ResponderKeys.ofArrays a₁ a₂ a₃ a₄ a₅ = some keys) :
    sized 32 a₂ = some keys.signedPrekeyPrivate := by
  obtain ⟨_, -, h⟩ := Option.bind_eq_some_iff.mp h
  obtain ⟨signedPrekeyPrivate, hkey, h⟩ := Option.bind_eq_some_iff.mp h
  obtain ⟨_, -, h⟩ := Option.bind_eq_some_iff.mp h
  obtain ⟨_, -, h⟩ := Option.bind_eq_some_iff.mp h
  cases h
  exact hkey

section Opened

variable [AddCommGroup E] [DecidableEq E] {C : Curve.Primitives E K} {P : Ratchet.Primitives K}
  {zero : K} {ofBytes : BytesN 32 → K} {h : Heap (Block K)} {ptr : ℕ}

/-- At the address is the state that the initiator opens. -/
theorem OpensInitiator.openInitiator {ephemeralPrivate dhS : BytesN 32} {keys : InitiatorKeys}
    {ephemeralPublic : BytesN 33}
    (hopens : OpensInitiator C P zero ofBytes ephemeralPrivate dhS keys ephemeralPublic h ptr) :
    ∃ initiator, Protocol.openInitiator C P keys.identityPrivate keys.bundle ephemeralPrivate dhS
        = some (ephemeralPublic, initiator) ∧
      h.block ptr = some (.state initiator) := by
  cases hopens with
  | c agree status secret init ne =>
    rw [Ffi.ratchetInitSender_client, secret] at init
    obtain ⟨initiator, hinit, hblock⟩ := boxed_eq_ok init ne
    refine ⟨initiator, ?_, hblock⟩
    rw [Protocol.openInitiator, x3dhInitOutput_eq_ok agree status]
    exact Option.map_eq_some_iff.mpr ⟨initiator, hinit, rfl⟩
  | java arrays agree secret init ne =>
    rw [Jni.x3dhInitiator_eq, arrays, Jni.initiate] at agree
    obtain ⟨result, hresult, rfl⟩ := orNull_eq_some agree
    -- the arrays have the right sizes: they were agreed with
    rw [← Jni.initSender_throughC, Jni.initSenderThroughC, sized_val,
      sized_spk_of_ofArrays arrays] at init
    dsimp only at init
    rw [Ffi.ratchetInitSender_client, secret] at init
    obtain ⟨initiator, hinit, hblock⟩ := boxed_eq_ok init ne
    refine ⟨initiator, ?_, hblock⟩
    rw [Protocol.openInitiator, hresult]
    exact Option.map_eq_some_iff.mpr ⟨initiator, hinit, rfl⟩

theorem OpensResponder.openResponder {keys : ResponderKeys}
    (hopens : OpensResponder C P zero ofBytes keys h ptr) :
    ∃ responder, Protocol.openResponder C P keys.identityPrivate keys.signedPrekeyPrivate
        keys.oneTimePrekeyPrivate keys.identityPublic keys.ephemeralPublic = some responder ∧
      h.block ptr = some (.state responder) := by
  cases hopens with
  | c agree status secret init ne =>
    rw [Ffi.ratchetInitReceiver_client, secret] at init
    obtain ⟨responder, hinit, hblock⟩ := boxed_eq_ok init ne
    refine ⟨responder, ?_, hblock⟩
    rw [Protocol.openResponder, x3dhResponderOutput_eq_ok agree status]
    exact hinit
  | java arrays agree init ne =>
    rw [Jni.x3dhResponder_eq, arrays, Jni.respond] at agree
    obtain ⟨secret, hsecret, heq⟩ := orNull_eq_some agree
    rw [← Jni.initReceiver_throughC, Jni.initReceiverThroughC, sized_val, sized_val,
      sized_signedPrekey_of_ofArrays arrays] at init
    dsimp only at init
    rw [Ffi.ratchetInitReceiver_client, ← heq] at init
    obtain ⟨responder, hinit, hblock⟩ := boxed_eq_ok init ne
    refine ⟨responder, ?_, hblock⟩
    rw [Protocol.openResponder, hsecret]
    exact hinit

variable (zero) in
/-- Through the C API a device opens whatever the handshake does, if the secret is that of
some bytes. -/
theorem opensInitiator_of_open {identityPrivate ephemeralPrivate dhS : BytesN 32}
    {bundle : PreKeyBundle} {ephemeralPublic : BytesN 33} {initiator : RatchetState K}
    (hopen : Protocol.openInitiator C P identityPrivate bundle ephemeralPrivate dhS
      = some (ephemeralPublic, initiator)) (sk : BytesN 32)
    (hsk : ∀ result, Curve.x3dhInitiator C identityPrivate bundle ephemeralPrivate = .ok result →
      ofBytes sk = result.sharedSecret) (A : Allocator (Block K)) (h : Heap (Block K)) :
    OpensInitiator C P zero ofBytes ephemeralPrivate dhS ⟨identityPrivate, bundle⟩
      ephemeralPublic (h.set (A.next h) (some (.state initiator))) (A.next h) := by
  obtain ⟨result, receiverPub, hresult, rfl, hpub, hinit⟩ := openInitiator_eq_some hopen
  have hagree : Ffi.x3dhInitiator C zero identityPrivate
    (Jni.bundleInput bundle) ephemeralPrivate
      = .ok ⟨result.sharedSecret, result.ephemeralPublic, 0⟩ := by
    rw [Ffi.x3dhInitiator, Jni.bundle_bundleInput, hresult]
    rfl
  have hstate : Ffi.ratchetInitSender P ofBytes A dhS (.client sk.1)
      (.client (Jni.bundleInput bundle).spkPublic.1) h
        = (.ok (A.next h), h.set (A.next h) (some (.state initiator))) := by
    have hsender : Ffi.initSender P dhS result.sharedSecret (Jni.bundleInput bundle).spkPublic
        = some initiator := initSender_eq_some.mpr ⟨receiverPub, hpub, hinit⟩
    rw [Ffi.ratchetInitSender_client, hsk result hresult, hsender]
    rfl
  have hopens : OpensInitiator C P zero ofBytes ephemeralPrivate dhS
      ⟨identityPrivate, (Jni.bundleInput bundle).bundle⟩ result.ephemeralPublic _ _ :=
    .c hagree rfl (hsk result hresult) hstate (A.ne_zero h)
  rwa [Jni.bundle_bundleInput] at hopens

theorem sized_map_val {n : ℕ} (v : Option (BytesN n)) : sized n (v.map (·.1)) = v := by
  cases v with
  | none => rfl
  | some v => exact sized_val v

variable (zero ofBytes) in
/-- And so it does through the bindings for Java. -/
theorem opensResponder_of_agree (keys : ResponderKeys) (sk : BytesN 32)
    (hagree : Curve.x3dhResponder C keys.identityPrivate keys.signedPrekeyPrivate
      keys.oneTimePrekeyPrivate keys.identityPublic keys.ephemeralPublic = .ok (ofBytes sk))
    (A : Allocator (Block K)) (h : Heap (Block K)) :
    OpensResponder C P zero ofBytes keys (h.set (A.next h) (some (.state
      (Ratchet.initReceiverState P (ofBytes sk) (keys.signedPrekeyPrivate,
        C.x25519PublicKey keys.signedPrekeyPrivate))))) (A.next h) := by
  have harrays : ResponderKeys.ofArrays (some keys.identityPrivate.1)
      (some keys.signedPrekeyPrivate.1) (keys.oneTimePrekeyPrivate.map (·.1))
      (some keys.identityPublic.1) (some keys.ephemeralPublic.1) = some keys := by
    simp only [ResponderKeys.ofArrays, sized_val, sized_map_val, Option.bind_eq_bind,
      Option.bind_some]
  have hmap : Jni.x3dhResponder C (some keys.identityPrivate.1) (some keys.signedPrekeyPrivate.1)
      (keys.oneTimePrekeyPrivate.map (·.1)) (some keys.identityPublic.1)
      (some keys.ephemeralPublic.1) = .ok (some (ofBytes sk)) := by
    rw [Jni.x3dhResponder_eq, harrays, Jni.respond, hagree]
    rfl
  have hstate : Jni.ratchetInitReceiver P ofBytes A (some sk.1) (some keys.signedPrekeyPrivate.1)
      (some (Curve.genPubkey C keys.signedPrekeyPrivate).1) h
        = (.ok (A.next h), h.set (A.next h) (some (.state (Ratchet.initReceiverState P
          (ofBytes sk) (keys.signedPrekeyPrivate,
            C.x25519PublicKey keys.signedPrekeyPrivate))))) := by
    rw [← Jni.initReceiver_throughC, Jni.initReceiverThroughC, sized_val, sized_val, sized_val]
    dsimp only
    rw [Ffi.ratchetInitReceiver_client, Ffi.initReceiver, Curve.genPubkey,
      Curve.decodePublicKey_encodePublicKey]
    rfl
  exact .java harrays hmap hstate (A.ne_zero h)

end Opened

/-! ### What is read -/

section Devices

variable [AddCommGroup E] [DecidableEq E] {C : Curve.Primitives E K} {P : Ratchet.Primitives K}
  {zero : K} {ofBytes : BytesN 32 → K} {b : Build} {ι : Type} [DecidableEq ι] [DecidableEq K]
  [Json K]

/-- The devices as they are once the ends have been opened. -/
def devices (heap : ι → Heap (Block K)) (i : ι) (alicePtr : ℕ) (j : ι) (bobPtr : ℕ) :
    ι → Client K :=
  fun k => ⟨heap k, opened i alicePtr j bobPtr k⟩

end Devices

/-! ### A device with the C API and one with Java -/

namespace Symbolic

open Curve (genPubkey publish)
open Ratchet.Symbolic (Key)
open Phones (keyOrder keyOrder_ofKeys)

/-- Both states are at 8. -/
def memory : Party → Heap (Block Key) :=
  each (Heap.empty.set 8 (some (.state initiator))) (Heap.empty.set 8 (some (.state responder)))

theorem opensInitiator_honest {out : Curve.VXEdDSAOutput}
    (hout : Curve.vxeddsaSign curve (seed 2) (genPubkey curve (seed 3)).1 (Bytes.leArray 64 0)
      = .ok out)
    (hmapped : Curve.mappedPoint curve (Curve.calculateKeyPair curve (seed 2)).2
      (genPubkey curve (seed 3)).1 ≠ 0) :
    OpensInitiator curve primitives .secret (fun _ => secret) (seed 1) (seed 5)
      ⟨seed 0, publish curve (seed 2) (seed 3) out.signature (some (seed 4))⟩
      (genPubkey curve (seed 1)) (memory .initiator) 8 := by
  refine opensInitiator_of_open Key.secret (openInitiator_honest hout hmapped)
    (Bytes.leArray 32 0) (fun result hresult => ?_) (.prefer 8) Heap.empty
  rw [x3dhInitiator_handshakeSecret (laws_symbolic Curve.Cyclic.laws) hout hmapped,
    handshakeSecret_eq] at hresult
  cases hresult
  rfl

theorem opensResponder_honest : OpensResponder curve primitives .secret (fun _ => secret)
    ⟨seed 2, seed 3, some (seed 4), genPubkey curve (seed 0), genPubkey curve (seed 1)⟩
    (memory .responder) 8 := by
  have hagree := x3dhResponder_handshakeSecret (C := curve) (laws_symbolic Curve.Cyclic.laws)
    (seed 0) (seed 1) (seed 2) (seed 3) (some (seed 4))
  rw [handshakeSecret_eq] at hagree
  have hopens := opensResponder_of_agree (P := primitives) Key.secret (fun _ => secret)
    ⟨seed 2, seed 3, some (seed 4), genPubkey curve (seed 0), genPubkey curve (seed 1)⟩
    (Bytes.leArray 32 0) hagree (.prefer 8) Heap.empty
  rw [publicKey_curve] at hopens
  exact hopens

/-- The responder's device is a JVM. -/
noncomputable def reception (m : Ratchet.Sealed Key) : Action Key :=
  .java (.decrypt { Ratchet.Symbolic.env 48 with hashOrder := keyOrder } 8 (some m.encHeader)
    (some m.ciphertext) none)

/-- The initiator's device uses the C API. -/
def greeting : Action Key :=
  .c (.encrypt (.prefer 16) (.prefer 24) 8 (.client [0x61]) 1 (.client []) 0 .valid)

theorem returning_greeting : Returning primitives (fun _ => secret) .release
    (devices memory .initiator 8 .responder 8)
    ([(.initiator, greeting)] ++ [(.responder, reception first)]) := by
  refine ⟨by decide +kernel, ?_⟩
  intro a ha
  simp only [List.cons_append, List.nil_append, List.mem_cons, List.not_mem_nil,
    or_false] at ha
  rcases ha with rfl | rfl
  · trivial
  · exact keyOrder_ofKeys

end Symbolic

end Protocol
