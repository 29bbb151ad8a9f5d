/-
The key schedule of a session, as a function of the shared secret and of the
Diffie-Hellman keys drawn.

`secret 0` is the responder's key pair and `secret (j + 1)` the key drawn for
chain `j`.  Chain `j` is sent by the initiator when `j` is even and by the
responder when it is odd.  The state of a party never holds anything but
values of this schedule (`Session/Sync.lean`); here they are computed and shown
to be distinct if the calls that compute them do not collide:

* `KdfSeparates` — distinct calls of the schedule give distinct keys;
* `rootKey_inj`, `headerKey_inj` — root and header keys belong to one index;
* `chainKey_inj`, `msgKey_inj` — chain and message keys belong to one chain
  and one number.
-/
import LibsignalDezire.Lib.Iterate
import LibsignalDezire.Ratchet.Skipped

namespace Ratchet

variable {K : Type}

/-- The inputs of the key schedule of `length` chains. -/
structure Schedule (P : Primitives K) where
  sk : K
  secret : ℕ → DhPrivateKey
  length : ℕ

namespace Schedule

variable {P : Primitives K} (S : Schedule P)

/-- The public key of `secret j`. -/
def pub (j : ℕ) : DhPublicKey := P.x25519PublicKey (S.secret j)

/-- The Diffie-Hellman value of chain `j`. -/
def dhValue (j : ℕ) : K := P.x25519DiffieHellman (S.secret (j + 1)) (S.pub j)

/-- The root key chain `j` starts from. -/
def rootKey : ℕ → K
  | 0 => S.sk
  | j + 1 => P.hkdfSha512 (rootKey j) (S.dhValue j) hkdfInfoRoot 0

/-- The first chain key of chain `j`. -/
def chainStart (j : ℕ) : K := P.hkdfSha512 (S.rootKey j) (S.dhValue j) hkdfInfoRoot 1

/-- The header key of chain `j`. -/
def headerKey : ℕ → K
  | 0 => P.hkdfSha256 S.sk headerInitiatorLabel
  | 1 => P.hkdfSha256 S.sk headerResponderLabel
  | j + 2 => P.hkdfSha512 (S.rootKey j) (S.dhValue j) hkdfInfoRoot 2

/-- The key of chain `j` before message number `n`. -/
def chainKey (j n : ℕ) : K := advance P (S.chainStart j) n

/-- The key of message number `n` of chain `j`. -/
def msgKey (j n : ℕ) : K := messageKey P (S.chainStart j) n

theorem chainKey_succ (j n : ℕ) : S.chainKey j (n + 1) = (kdfCk P (S.chainKey j n)).1 :=
  advance_succ' P _ n

/-- Message keys counted from a later chain key. -/
theorem messageKey_chainKey (j n i : ℕ) :
    messageKey P (S.chainKey j n) i = S.msgKey j (n + i) := by
  rw [msgKey, messageKey, messageKey, chainKey, ← advance_add]

/-- Both ends of chain `j` compute its Diffie-Hellman value. -/
theorem dhValue_comm (hP : Correct P) (j : ℕ) :
    P.x25519DiffieHellman (S.secret j) (S.pub (j + 1)) = S.dhValue j :=
  hP.dh_comm _ _

/-! ### Distinctness -/

/-- The calls of the key derivation functions in the first `chains` chains, with up to
`steps` steps of each. -/
inductive Calls (chains steps : ℕ) : KdfCall K → Prop where
  | secret : Calls chains steps (.secret S.sk)
  | initiatorHeaderKey : Calls chains steps (.hkdf256 S.sk headerInitiatorLabel)
  | responderHeaderKey : Calls chains steps (.hkdf256 S.sk headerResponderLabel)
  | root {j block : ℕ} (hj : j < chains) (hblock : block < 3) :
      Calls chains steps (.hkdf512 (S.rootKey j) (S.dhValue j) hkdfInfoRoot block)
  | chainKey {j n : ℕ} (hj : j < chains) (hn : n < steps) :
      Calls chains steps (.hmac (S.chainKey j n) [0x01])
  | msgKey {j n : ℕ} (hj : j < chains) (hn : n < steps) :
      Calls chains steps (.hmac (S.chainKey j n) [0x02])

/-- Distinct calls among these give distinct keys. -/
def SeparatesUpTo (chains steps : ℕ) : Prop :=
  Set.InjOn (KdfCall.eval P) {c | S.Calls chains steps c}

/-- Distinct calls in the chains of the schedule give distinct keys. -/
def KdfSeparates : Prop := S.SeparatesUpTo S.length (2 ^ 32)

variable {S}

/-- Where no calls collide at all, those of a schedule do not. -/
theorem separatesUpTo (h : CollisionFree P S.sk) (chains steps : ℕ) :
    S.SeparatesUpTo chains steps := by
  have hsub : {c | S.Calls chains steps c} ⊆ {c | ∀ sk, c = .secret sk → sk = S.sk} := by
    rintro c (hc : S.Calls chains steps c) sk rfl
    cases hc
    rfl
  exact h.injOn.mono hsub

theorem kdfSeparates (h : CollisionFree P S.sk) : S.KdfSeparates :=
  separatesUpTo h _ _

variable {chains steps : ℕ} (hS : S.SeparatesUpTo chains steps) {i j m n : ℕ}

include hS

theorem rootKey_inj : ∀ {i j : ℕ}, i ≤ chains → j ≤ chains → S.rootKey i = S.rootKey j → i = j
  | 0, 0, _, _, _ => rfl
  | 0, _ + 1, _, hj, h => nomatch hS .secret (.root hj (by decide)) h
  | _ + 1, 0, hi, _, h => nomatch hS (.root hi (by decide)) .secret h
  | _ + 1, _ + 1, hi, hj, h => by
    have heq := hS (.root hi (by decide)) (.root hj (by decide)) h
    rw [rootKey_inj (Nat.le_of_succ_le hi) (Nat.le_of_succ_le hj) (KdfCall.hkdf512.inj heq).1]

omit hS in
theorem rootKey_injective (h : CollisionFree P S.sk) : Function.Injective S.rootKey :=
  fun i j => rootKey_inj (separatesUpTo h (max i j) 0) (le_max_left i j) (le_max_right i j)

/-- The blocks of a root key derivation belong to one chain. -/
theorem root_inj (hi : i < chains) (hj : j < chains) {t t' : ℕ} (ht : t < 3) (ht' : t' < 3)
    (h : P.hkdfSha512 (S.rootKey i) (S.dhValue i) hkdfInfoRoot t
      = P.hkdfSha512 (S.rootKey j) (S.dhValue j) hkdfInfoRoot t') : i = j :=
  rootKey_inj hS hi.le hj.le (KdfCall.hkdf512.inj (hS (.root hi ht) (.root hj ht') h)).1

omit hS in
theorem headerLabels_ne : headerInitiatorLabel ≠ headerResponderLabel := by
  decide

theorem headerKey_inj : ∀ {i j : ℕ}, i ≤ chains + 1 → j ≤ chains + 1 →
    S.headerKey i = S.headerKey j → i = j
  | 0, 0, _, _, _ => rfl
  | 0, 1, _, _, h => absurd
      (KdfCall.hkdf256.inj (hS .initiatorHeaderKey .responderHeaderKey h)).2 headerLabels_ne
  | 1, 0, _, _, h => absurd
      (KdfCall.hkdf256.inj (hS .responderHeaderKey .initiatorHeaderKey h)).2.symm headerLabels_ne
  | 1, 1, _, _, _ => rfl
  | 0, _ + 2, _, hj, h =>
    nomatch hS .initiatorHeaderKey (.root (Nat.succ_lt_succ_iff.mp hj) (by decide)) h
  | 1, _ + 2, _, hj, h =>
    nomatch hS .responderHeaderKey (.root (Nat.succ_lt_succ_iff.mp hj) (by decide)) h
  | _ + 2, 0, hi, _, h =>
    nomatch hS (.root (Nat.succ_lt_succ_iff.mp hi) (by decide)) .initiatorHeaderKey h
  | _ + 2, 1, hi, _, h =>
    nomatch hS (.root (Nat.succ_lt_succ_iff.mp hi) (by decide)) .responderHeaderKey h
  | _ + 2, _ + 2, hi, hj, h => congrArg (· + 2) (root_inj hS (Nat.succ_lt_succ_iff.mp hi)
      (Nat.succ_lt_succ_iff.mp hj) (by decide) (by decide) h)

theorem chainKey_inj (hi : i < chains) (hj : j < chains) (hm : m ≤ steps) (hn : n ≤ steps)
    (h : S.chainKey i m = S.chainKey j n) : i = j ∧ m = n := by
  -- the chain keys from which a step is taken
  let D : Set K := {c | ∃ j < chains, ∃ n < steps, c = S.chainKey j n}
  have hstep : Set.InjOn (fun c => (kdfCk P c).1) D := by
    rintro c ⟨k, hk, a, ha, rfl⟩ c' ⟨k', hk', a', ha', rfl⟩ heq
    exact (KdfCall.hmac.inj (hS (.chainKey hk ha) (.chainKey hk' ha') heq)).1
  have hstart : ∀ {k}, k < chains → ∀ c ∈ D, S.chainStart k ≠ (kdfCk P c).1 := by
    rintro k hk c ⟨k', hk', a, ha, rfl⟩ heq
    exact nomatch hS (.root hk (by decide)) (.chainKey hk' ha) heq
  obtain ⟨hij, hmn⟩ := Chain.iterate_inj hstep (hstart hi) (hstart hj)
    (fun a ha => ⟨i, hi, a, ha.trans_le hm, rfl⟩) (fun a ha => ⟨j, hj, a, ha.trans_le hn, rfl⟩) h
  exact ⟨root_inj hS hi hj (by decide) (by decide) hij, hmn⟩

theorem msgKey_inj (hi : i < chains) (hj : j < chains) (hm : m < steps) (hn : n < steps)
    (h : S.msgKey i m = S.msgKey j n) : i = j ∧ m = n :=
  chainKey_inj hS hi hj hm.le hn.le
    (KdfCall.hmac.inj (hS (.msgKey hi hm) (.msgKey hj hn) h)).1

end Schedule

end Ratchet
