/-
The JNI bindings of X3DH (`src/jni/x3dh.rs`).

A one-time prekey that is missing is null, and so is one of the wrong length: it is
passed over in silence.  Whatever else is missing or of the wrong length, and every
failure, gives null.

* `InitiatorKeys.ofArrays`, `ResponderKeys.ofArrays` — the keys that arrays stand for;
* `x3dhInitiator_eq`, `x3dhResponder_eq` — a binding agrees on the keys that it is given;
* `x3dh_is_c_api` — **the bindings are what a C client would write**: it fills in the
  structs, calls, and takes the output if its status is 0.
-/
import LibsignalDezire.Ffi.X3DH
import LibsignalDezire.Jni.Ratchet

namespace Jni

open Curve (PreKeyBundle X3DHError X3DHInitResult)

variable {E K : Type} [AddCommGroup E] [DecidableEq E] (C : Curve.Primitives E K)

/-! ### The bindings -/

/-- The `HashMap` that `x3dhInitiator` returns. -/
structure X3DHMap (K : Type) where
  sharedSecret : K
  ephemeralPublic : BytesN 33

def x3dhInitiator (identityPrivateArr bobIdentityPublicArr bobSpkPublicArr bobSpkSignatureArr
    bobOpkPublicArr : Option Bytes) (ephemeralPrivate : BytesN 32) :
    Outcome Empty (Option (X3DHMap K)) :=
  match sized 32 identityPrivateArr with
  | none => .ok none
  | some idPriv =>
    match sized 33 bobIdentityPublicArr with
    | none => .ok none
    | some bobIdPub =>
      match sized 33 bobSpkPublicArr with
      | none => .ok none
      | some bobSpkPub =>
        match sized 96 bobSpkSignatureArr with
        | none => .ok none
        | some bobSpkSig =>
          let prekeyBundle : PreKeyBundle :=
            { identityKey := bobIdPub
              signedPrekey := { publicKey := bobSpkPub, signature := bobSpkSig }
              oneTimePrekey := (sized 33 bobOpkPublicArr).map fun publicKey => { publicKey } }
          match Curve.x3dhInitiator C idPriv prekeyBundle ephemeralPrivate with
          | .ok result => .ok (some ⟨result.sharedSecret, result.ephemeralPublic⟩)
          | .err _ => .ok none
          | .panic => .panic

def x3dhResponder (identityPrivateArr signedPrekeyPrivateArr oneTimePrekeyPrivateArr
    aliceIdentityPublicArr aliceEphemeralPublicArr : Option Bytes) :
    Outcome Empty (Option K) :=
  match sized 32 identityPrivateArr with
  | none => .ok none
  | some idPriv =>
    match sized 32 signedPrekeyPrivateArr with
    | none => .ok none
    | some spkPriv =>
      match sized 33 aliceIdentityPublicArr with
      | none => .ok none
      | some aliceIdPub =>
        match sized 33 aliceEphemeralPublicArr with
        | none => .ok none
        | some aliceEkPub =>
          match Curve.x3dhResponder C idPriv spkPriv (sized 32 oneTimePrekeyPrivateArr)
            aliceIdPub aliceEkPub with
          | .ok sharedSecret => .ok (some sharedSecret)
          | .err _ => .ok none
          | .panic => .panic

/-! ### What they are given -/

/-- The keys of an initiation. -/
structure InitiatorKeys where
  identityPrivate : BytesN 32
  bundle : PreKeyBundle

/-- The keys of a response. -/
structure ResponderKeys where
  identityPrivate : BytesN 32
  signedPrekeyPrivate : BytesN 32
  oneTimePrekeyPrivate : Option (BytesN 32)
  identityPublic : BytesN 33
  ephemeralPublic : BytesN 33

def InitiatorKeys.ofArrays (identityPrivateArr bobIdentityPublicArr bobSpkPublicArr
    bobSpkSignatureArr bobOpkPublicArr : Option Bytes) : Option InitiatorKeys := do
  let identityPrivate ← sized 32 identityPrivateArr
  let identityKey ← sized 33 bobIdentityPublicArr
  let publicKey ← sized 33 bobSpkPublicArr
  let signature ← sized 96 bobSpkSignatureArr
  let oneTimePrekey := (sized 33 bobOpkPublicArr).map fun publicKey => { publicKey }
  some ⟨identityPrivate,
    { identityKey, signedPrekey := { publicKey, signature }, oneTimePrekey }⟩

def ResponderKeys.ofArrays (identityPrivateArr signedPrekeyPrivateArr oneTimePrekeyPrivateArr
    aliceIdentityPublicArr aliceEphemeralPublicArr : Option Bytes) : Option ResponderKeys := do
  let identityPrivate ← sized 32 identityPrivateArr
  let signedPrekeyPrivate ← sized 32 signedPrekeyPrivateArr
  let identityPublic ← sized 33 aliceIdentityPublicArr
  let ephemeralPublic ← sized 33 aliceEphemeralPublicArr
  let oneTimePrekeyPrivate := sized 32 oneTimePrekeyPrivateArr
  some
    { identityPrivate, signedPrekeyPrivate, oneTimePrekeyPrivate
      identityPublic, ephemeralPublic }

/-- Null for every error. -/
def orNull {α β : Type} (f : α → β) : Outcome X3DHError α → Outcome Empty (Option β)
  | .ok a => .ok (some (f a))
  | .err _ => .ok none
  | .panic => .panic

def X3DHMap.ofResult (r : X3DHInitResult K) : X3DHMap K := ⟨r.sharedSecret, r.ephemeralPublic⟩

/-- The agreement on the keys of an initiation; null without them. -/
def initiate (ephemeralPrivate : BytesN 32) :
    Option InitiatorKeys → Outcome Empty (Option (X3DHMap K))
  | none => .ok none
  | some k =>
    orNull X3DHMap.ofResult (Curve.x3dhInitiator C k.identityPrivate k.bundle ephemeralPrivate)

/-- The agreement on the keys of a response; null without them. -/
def respond : Option ResponderKeys → Outcome Empty (Option K)
  | none => .ok none
  | some k =>
    orNull id (Curve.x3dhResponder C k.identityPrivate k.signedPrekeyPrivate
      k.oneTimePrekeyPrivate k.identityPublic k.ephemeralPublic)

theorem x3dhInitiator_eq (identityPrivateArr bobIdentityPublicArr bobSpkPublicArr
    bobSpkSignatureArr bobOpkPublicArr : Option Bytes) (ephemeralPrivate : BytesN 32) :
    x3dhInitiator C identityPrivateArr bobIdentityPublicArr bobSpkPublicArr bobSpkSignatureArr
        bobOpkPublicArr ephemeralPrivate
      = initiate C ephemeralPrivate (InitiatorKeys.ofArrays identityPrivateArr
        bobIdentityPublicArr bobSpkPublicArr bobSpkSignatureArr bobOpkPublicArr) := by
  unfold x3dhInitiator InitiatorKeys.ofArrays
  cases sized 32 identityPrivateArr with
  | none => rfl
  | some idPriv =>
    cases sized 33 bobIdentityPublicArr with
    | none => rfl
    | some bobIdPub =>
      cases sized 33 bobSpkPublicArr with
      | none => rfl
      | some bobSpkPub =>
        cases sized 96 bobSpkSignatureArr with
        | none => rfl
        | some bobSpkSig =>
          dsimp only [Option.bind_eq_bind, Option.bind_some, initiate]
          generalize Curve.x3dhInitiator C idPriv _ ephemeralPrivate = x
          cases x <;> rfl

theorem x3dhResponder_eq (identityPrivateArr signedPrekeyPrivateArr oneTimePrekeyPrivateArr
    aliceIdentityPublicArr aliceEphemeralPublicArr : Option Bytes) :
    x3dhResponder C identityPrivateArr signedPrekeyPrivateArr oneTimePrekeyPrivateArr
        aliceIdentityPublicArr aliceEphemeralPublicArr
      = respond C (ResponderKeys.ofArrays identityPrivateArr signedPrekeyPrivateArr
        oneTimePrekeyPrivateArr aliceIdentityPublicArr aliceEphemeralPublicArr) := by
  unfold x3dhResponder ResponderKeys.ofArrays
  cases sized 32 identityPrivateArr with
  | none => rfl
  | some idPriv =>
    cases sized 32 signedPrekeyPrivateArr with
    | none => rfl
    | some spkPriv =>
      cases sized 33 aliceIdentityPublicArr with
      | none => rfl
      | some aliceIdPub =>
        cases sized 33 aliceEphemeralPublicArr with
        | none => rfl
        | some aliceEkPub =>
          dsimp only [Option.bind_eq_bind, Option.bind_some, respond]
          generalize Curve.x3dhResponder C idPriv spkPriv _ aliceIdPub aliceEkPub = x
          cases x <;> rfl

/-! ### The same through the C API -/

/-- The struct in which a bundle is passed. -/
def bundleInput (bundle : PreKeyBundle) : Ffi.X3DHBundleInput where
  identityPublic := bundle.identityKey
  spkPublic := bundle.signedPrekey.publicKey
  spkSignature := bundle.signedPrekey.signature
  opkPublic := (bundle.oneTimePrekey.map (·.publicKey)).getD (Bytes.leArray 33 0)
  hasOpk := bundle.oneTimePrekey.isSome

/-- The structs in which the keys of a response are passed. -/
def ResponderKeys.input (k : ResponderKeys) : Ffi.X3DHResponderInput where
  identityPrivate := k.identityPrivate
  spkPrivate := k.signedPrekeyPrivate
  opkPrivate := k.oneTimePrekeyPrivate.getD (Bytes.leArray 32 0)
  hasOpk := k.oneTimePrekeyPrivate.isSome

def ResponderKeys.alice (k : ResponderKeys) : Ffi.X3DHAliceKeys where
  identityPublic := k.identityPublic
  ephemeralPublic := k.ephemeralPublic

theorem bundle_bundleInput (bundle : PreKeyBundle) : (bundleInput bundle).bundle = bundle := by
  obtain ⟨identityKey, signedPrekey, oneTimePrekey⟩ := bundle
  cases oneTimePrekey <;> rfl

theorem ResponderKeys.oneTimePrekey_input (k : ResponderKeys) :
    k.input.oneTimePrekey = k.oneTimePrekeyPrivate := by
  rw [Ffi.X3DHResponderInput.oneTimePrekey, ResponderKeys.input]
  cases k.oneTimePrekeyPrivate <;> rfl

/-- Fill in the structs, call, and take the output of a success. -/
def initiateThroughC (zero : K) (ephemeralPrivate : BytesN 32) :
    Option InitiatorKeys → Outcome Empty (Option (X3DHMap K))
  | none => pure none
  | some k => do
    let output ← Ffi.x3dhInitiator C zero k.identityPrivate
      (bundleInput k.bundle) ephemeralPrivate
    pure (if output.status = 0 then some ⟨output.sharedSecret, output.ephemeralPublic⟩ else none)

def respondThroughC (zero : K) : Option ResponderKeys → Outcome Empty (Option K)
  | none => pure none
  | some k => do
    let output ← Ffi.x3dhResponder C zero k.input k.alice
    pure (if output.status = 0 then some output.sharedSecret else none)

/-- Status 0 is that of success only. -/
theorem initiate_throughC (zero : K) (ephemeralPrivate : BytesN 32) (k : Option InitiatorKeys) :
    initiateThroughC C zero ephemeralPrivate k = initiate C ephemeralPrivate k := by
  cases k with
  | none => rfl
  | some k =>
    rw [initiateThroughC, Ffi.x3dhInitiator, bundle_bundleInput, initiate]
    cases Curve.x3dhInitiator C k.identityPrivate k.bundle ephemeralPrivate with
    | ok result => rfl
    | err e => cases e <;> rfl
    | panic => rfl

theorem respond_throughC (zero : K) (k : Option ResponderKeys) :
    respondThroughC C zero k = respond C k := by
  cases k with
  | none => rfl
  | some k =>
    rw [respondThroughC, Ffi.x3dhResponder, k.oneTimePrekey_input, respond]
    generalize hresult : Curve.x3dhResponder C k.identityPrivate k.signedPrekeyPrivate
      k.oneTimePrekeyPrivate k.identityPublic k.ephemeralPublic = result
    have hinput : Curve.x3dhResponder C k.input.identityPrivate k.input.spkPrivate
        k.oneTimePrekeyPrivate k.alice.identityPublic k.alice.ephemeralPublic = result := hresult
    rw [hinput]
    cases result with
    | ok secret => rfl
    | err e => cases e <;> rfl
    | panic => rfl

/-- **The bindings of X3DH are clients of the C API.**  For all arrays, each binding does
what the call of the C API does on the keys that the arrays stand for: it gives null
without them and for every status but 0, the output for 0, and aborts if the call does. -/
theorem x3dh_is_c_api (zero : K) :
    (∀ (identityPrivateArr bobIdentityPublicArr bobSpkPublicArr bobSpkSignatureArr
        bobOpkPublicArr : Option Bytes) (ephemeralPrivate : BytesN 32),
      x3dhInitiator C identityPrivateArr bobIdentityPublicArr bobSpkPublicArr bobSpkSignatureArr
          bobOpkPublicArr ephemeralPrivate
        = initiateThroughC C zero ephemeralPrivate (InitiatorKeys.ofArrays identityPrivateArr
          bobIdentityPublicArr bobSpkPublicArr bobSpkSignatureArr bobOpkPublicArr)) ∧
    ∀ identityPrivateArr signedPrekeyPrivateArr oneTimePrekeyPrivateArr aliceIdentityPublicArr
        aliceEphemeralPublicArr : Option Bytes,
      x3dhResponder C identityPrivateArr signedPrekeyPrivateArr oneTimePrekeyPrivateArr
          aliceIdentityPublicArr aliceEphemeralPublicArr
        = respondThroughC C zero (ResponderKeys.ofArrays identityPrivateArr
          signedPrekeyPrivateArr oneTimePrekeyPrivateArr aliceIdentityPublicArr
          aliceEphemeralPublicArr) := by
  constructor
  · intros
    rw [x3dhInitiator_eq, initiate_throughC]
  · intros
    rw [x3dhResponder_eq, respond_throughC]

end Jni
