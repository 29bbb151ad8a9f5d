/-
The C API of X3DH (`src/ffi/x3dh.rs`).

A C client passes structs by address and gets a struct with a status.  A panic aborts
its process.

* `x3dh_statuses` — **what a status means**: which inputs lead to which, and that an
  output with any but 0 contains no key.
-/
import LibsignalDezire.Curve.Outcomes

namespace Ffi

open Curve (PreKeyBundle SignedPreKey OneTimePreKey X3DHInitResult X3DHError)

variable {E K : Type}

/-! ### Structs -/

/-- `X3DHInitOutput` -/
structure X3DHInitOutput (K : Type) where
  sharedSecret : K
  ephemeralPublic : BytesN 33
  status : ℤ

/-- `X3DHResponderOutput` -/
structure X3DHResponderOutput (K : Type) where
  sharedSecret : K
  status : ℤ

/-- `X3DHBundleInput`; `opkPublic` is ignored if there is none. -/
structure X3DHBundleInput where
  identityPublic : BytesN 33
  spkPublic : BytesN 33
  spkSignature : BytesN 96
  opkPublic : BytesN 33
  hasOpk : Bool

/-- `X3DHResponderInput`; `opkPrivate` is ignored if there is none. -/
structure X3DHResponderInput where
  identityPrivate : BytesN 32
  spkPrivate : BytesN 32
  opkPrivate : BytesN 32
  hasOpk : Bool

/-- `X3DHAliceKeys` -/
structure X3DHAliceKeys where
  identityPublic : BytesN 33
  ephemeralPublic : BytesN 33

section Output

/-! `[0u8; 32]` is the secret `zero`. -/

variable (zero : K)

/-- The output of an initiation that failed. -/
def X3DHInitOutput.failed (status : ℤ) : X3DHInitOutput K :=
  ⟨zero, Bytes.leArray 33 0, status⟩

def X3DHInitOutput.fromResult :
    Outcome X3DHError (X3DHInitResult K) → Outcome Empty (X3DHInitOutput K)
  | .ok r => .ok ⟨r.sharedSecret, r.ephemeralPublic, 0⟩
  | .err .invalidSignature => .ok (failed zero (-1))
  | .err .invalidKey => .ok (failed zero (-2))
  | .err .missingOneTimeKey => .ok (failed zero (-3))
  | .err .decodeFailed => .ok (failed zero (-4))
  | .panic => .panic

def X3DHResponderOutput.fromResult : Outcome X3DHError K → Outcome Empty (X3DHResponderOutput K)
  | .ok sharedSecret => .ok ⟨sharedSecret, 0⟩
  | .err .invalidKey => .ok ⟨zero, -1⟩
  | .err _ => .ok ⟨zero, -2⟩
  | .panic => .panic

end Output

/-! ### Functions -/

/-- The bundle that the input struct stands for. -/
def X3DHBundleInput.bundle (input : X3DHBundleInput) : PreKeyBundle where
  identityKey := input.identityPublic
  signedPrekey := { publicKey := input.spkPublic, signature := input.spkSignature }
  oneTimePrekey := if input.hasOpk then some { publicKey := input.opkPublic } else none

def X3DHResponderInput.oneTimePrekey (input : X3DHResponderInput) : Option (BytesN 32) :=
  if input.hasOpk then some input.opkPrivate else none

variable [AddCommGroup E] [DecidableEq E] (C : Curve.Primitives E K) (zero : K)

/-- Alice agrees with the bundle; `ephemeralPrivate` is drawn from `OsRng`. -/
def x3dhInitiator (identityPrivate : BytesN 32) (bundle : X3DHBundleInput)
    (ephemeralPrivate : BytesN 32) : Outcome Empty (X3DHInitOutput K) :=
  X3DHInitOutput.fromResult zero
    (Curve.x3dhInitiator C identityPrivate bundle.bundle ephemeralPrivate)

/-- Bob agrees with Alice's keys. -/
def x3dhResponder (responder : X3DHResponderInput) (alice : X3DHAliceKeys) :
    Outcome Empty (X3DHResponderOutput K) :=
  X3DHResponderOutput.fromResult zero
    (Curve.x3dhResponder C responder.identityPrivate responder.spkPrivate responder.oneTimePrekey
      alice.identityPublic alice.ephemeralPublic)

/-! ### Statuses -/

section Statuses

variable {C}

/-- All keys are valid. -/
def AllValid (C : Curve.Primitives E K) (keys : List (BytesN 33)) : Prop :=
  ∀ key ∈ keys, (Curve.isValidPublicKey C key : Outcome X3DHError Bool) = .ok true

/-- The checks abort, refuse a key, or find all keys valid. -/
theorem allValid_cases (keys : List (BytesN 33)) :
    (Curve.allValid C keys : Outcome X3DHError Bool) = .panic ∨
      (Curve.allValid C keys : Outcome X3DHError Bool) = .ok false ∧ ¬ AllValid C keys ∨
      (Curve.allValid C keys : Outcome X3DHError Bool) = .ok true ∧ AllValid C keys := by
  rw [AllValid, ← Curve.allValid_eq_true]
  cases hvalid : (Curve.allValid C keys : Outcome X3DHError Bool) with
  | ok valid => cases valid <;> simp
  | err e => exact absurd hvalid (Curve.allValid_ne_err C keys e)
  | panic => exact .inl rfl

theorem AllValid.publicPoint {keys : List (BytesN 33)} (h : AllValid C keys) {key : BytesN 33}
    (hkey : key ∈ keys) : key.1.getD 0 0 = 0x05 ∧ ∃ A, Curve.PublicPoint C key A := by
  obtain ⟨u, A, hu, -, hA, -⟩ := (Curve.isValidPublicKey_eq_true C).mp (h key hkey)
  exact ⟨(Curve.decodePublicKey_eq_ok.mp hu).1, A, u, hu, hA⟩

/-- The responder's agreement after the checks does not fail. -/
theorem x3dhResponder_of_allValid (identityPrivate spkPrivate : BytesN 32)
    (opkPrivate : Option (BytesN 32)) {identityPublic ephemeralPublic : BytesN 33}
    (h : AllValid C [identityPublic, ephemeralPublic])
    (hvalid : (Curve.allValid C [identityPublic, ephemeralPublic] : Outcome X3DHError Bool)
      = .ok true) :
    ∃ secret, Curve.x3dhResponder C identityPrivate spkPrivate opkPrivate identityPublic
      ephemeralPublic = .ok secret := by
  have hidentity := (h.publicPoint List.mem_cons_self).1
  have hephemeral := (h.publicPoint (List.mem_cons_of_mem _ List.mem_cons_self)).1
  obtain ⟨dh1, hdh1⟩ := Curve.mapErr_dh_eq_ok (C := C) spkPrivate hidentity
  obtain ⟨dh2, hdh2⟩ := Curve.mapErr_dh_eq_ok (C := C) identityPrivate hephemeral
  obtain ⟨dh3, hdh3⟩ := Curve.mapErr_dh_eq_ok (C := C) spkPrivate hephemeral
  obtain ⟨dh4, hdh4⟩ : ∃ output, Curve.dhOptional C
      (opkPrivate.map fun opk => (opk, ephemeralPublic)) = .ok output := by
    refine Curve.dhOptional_eq_ok fun p hp => ?_
    obtain ⟨opk, -, rfl⟩ := Option.map_eq_some_iff.mp hp
    exact hephemeral
  rw [Curve.x3dhResponder, hvalid, hdh1, hdh2, hdh3, hdh4]
  exact ⟨_, rfl⟩

variable (C)

/-- **What a status means.**  Unless a check of a key aborts the process, the initiator's
status is -2 if a key is not valid, else -1 if the signed prekey is not signed, else 0;
the responder's is -1 if a key is not valid, else 0.  No other status occurs.  With 0
the output is the result of the agreement, and otherwise it is all zeros. -/
theorem x3dh_statuses :
    (∀ (identityPrivate ephemeralPrivate : BytesN 32) (input : X3DHBundleInput),
      (x3dhInitiator C zero identityPrivate input ephemeralPrivate = .panic ∧
        (Curve.allValid C input.bundle.keys : Outcome X3DHError Bool) = .panic) ∨
      ∃ out, x3dhInitiator C zero identityPrivate input ephemeralPrivate = .ok out ∧
        (out = .failed zero (-2) ∧ ¬ AllValid C input.bundle.keys ∨
          out = .failed zero (-1) ∧ AllValid C input.bundle.keys ∧ ¬ input.bundle.Signed C ∨
          out.status = 0 ∧ AllValid C input.bundle.keys ∧ input.bundle.Signed C ∧
            Curve.x3dhInitiator C identityPrivate input.bundle ephemeralPrivate
              = .ok ⟨out.sharedSecret, out.ephemeralPublic⟩)) ∧
    ∀ (responder : X3DHResponderInput) (alice : X3DHAliceKeys),
      (x3dhResponder C zero responder alice = .panic ∧
        (Curve.allValid C [alice.identityPublic, alice.ephemeralPublic] :
          Outcome X3DHError Bool) = .panic) ∨
      ∃ out, x3dhResponder C zero responder alice = .ok out ∧
        (out = ⟨zero, -1⟩ ∧ ¬ AllValid C [alice.identityPublic, alice.ephemeralPublic] ∨
          out.status = 0 ∧ AllValid C [alice.identityPublic, alice.ephemeralPublic] ∧
            Curve.x3dhResponder C responder.identityPrivate responder.spkPrivate
              responder.oneTimePrekey alice.identityPublic alice.ephemeralPublic
                = .ok out.sharedSecret) := by
  constructor
  · intro identityPrivate ephemeralPrivate input
    have hunfold := Curve.x3dhInitiator_eq C identityPrivate input.bundle ephemeralPrivate
    rcases allValid_cases (C := C) input.bundle.keys with
      hvalid | ⟨hvalid, hbad⟩ | ⟨hvalid, hgood⟩
    · rw [hvalid] at hunfold
      exact .inl ⟨by rw [x3dhInitiator, hunfold]; rfl, hvalid⟩
    · rw [hvalid] at hunfold
      exact .inr ⟨_, by rw [x3dhInitiator, hunfold]; rfl, .inl ⟨rfl, hbad⟩⟩
    · rw [hvalid] at hunfold
      have hidentity : input.bundle.identityKey ∈ input.bundle.keys := by
        simp [PreKeyBundle.keys]
      obtain ⟨-, A, hA⟩ := hgood.publicPoint hidentity
      rcases Curve.agreeWithBundle_outcome identityPrivate ephemeralPrivate
        (fun key hkey => (hgood.publicPoint hkey).1) hA with
        ⟨hsigned, result, hresult⟩ | ⟨hsigned, herr⟩
      · rw [Outcome.ok_bind, Outcome.ensure_true, Outcome.ok_bind, hresult] at hunfold
        refine .inr ⟨_, by rw [x3dhInitiator, hunfold]; rfl, .inr (.inr ?_)⟩
        exact ⟨rfl, hgood, hsigned, hunfold⟩
      · rw [Outcome.ok_bind, Outcome.ensure_true, Outcome.ok_bind, herr] at hunfold
        exact .inr ⟨_, by rw [x3dhInitiator, hunfold]; rfl, .inr (.inl ⟨rfl, hgood, hsigned⟩)⟩
  · intro responder alice
    rcases allValid_cases (C := C) [alice.identityPublic, alice.ephemeralPublic] with
      hvalid | ⟨hvalid, hbad⟩ | ⟨hvalid, hgood⟩
    · refine .inl ⟨?_, hvalid⟩
      rw [x3dhResponder, Curve.x3dhResponder, hvalid]
      rfl
    · refine .inr ⟨⟨zero, -1⟩, ?_, .inl ⟨rfl, hbad⟩⟩
      rw [x3dhResponder, Curve.x3dhResponder, hvalid]
      rfl
    · obtain ⟨secret, hsecret⟩ := x3dhResponder_of_allValid responder.identityPrivate
        responder.spkPrivate responder.oneTimePrekey hgood hvalid
      refine .inr ⟨⟨secret, 0⟩, ?_, .inr ⟨rfl, hgood, hsecret⟩⟩
      rw [x3dhResponder, hsecret]
      rfl

end Statuses

end Ffi
