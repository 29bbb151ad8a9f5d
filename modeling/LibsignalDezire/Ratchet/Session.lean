/-
The operations of a session: initialisation, `encrypt` and `decrypt`.

`encrypt` and `decrypt` are `Exec` calls: as in the source, `&mut state` is
left as it stands when an error returns early.
-/
import LibsignalDezire.Ratchet.Skipped

namespace Ratchet

variable {K : Type} [DecidableEq K] (P : Primitives K)

/-! ### Initialisation -/

/-- Initialise the sender's state; `dhS` is the key drawn from `OsRng`. -/
def initSenderState (dhS : DhPrivateKey) (sk : K) (receiverDhPublicKey : DhPublicKey) :
    Outcome RatchetError (RatchetState K) := do
  let dhSPub := P.x25519PublicKey dhS
  let dhOut := P.x25519DiffieHellman dhS receiverDhPublicKey
  let (rk, ckS, nhkS) ← kdfRkHe P sk dhOut
  let (initiatorHk, responderHk) := deriveHeaderKeys P sk
  pure
    { dhPair := (dhS, dhSPub)
      dhRemote := some receiverDhPublicKey
      rk
      ckS := some ckS
      ckR := none
      hkS := some initiatorHk
      hkR := none
      nhkS
      nhkR := responderHk
      ns := 0
      nr := 0
      pn := 0
      mkskipped := ∅
      headerNonceCounter := 0
      isSender := true
      receivedMessages := ∅ }

/-- Initialise the receiver's state. -/
def initReceiverState (sk : K) (receiverKeyPair : DhPrivateKey × DhPublicKey) :
    RatchetState K :=
  let (initiatorHk, responderHk) := deriveHeaderKeys P sk
  { dhPair := receiverKeyPair
    dhRemote := none
    rk := sk
    ckS := none
    ckR := none
    hkS := none
    hkR := none
    nhkS := responderHk
    nhkR := initiatorHk
    ns := 0
    nr := 0
    pn := 0
    mkskipped := ∅
    headerNonceCounter := 0
    isSender := false
    receivedMessages := ∅ }

/-! ### Encryption -/

/-- Validate encryption state. -/
def validateEncryptionState (state : RatchetState K) : Outcome RatchetError PUnit :=
  if state.ckS.isNone then .err .invalidState
  else if state.hkS.isNone then .err .invalidState
  else if state.dhRemote.isNone then .err .invalidState
  else .ok ⟨⟩

/-- Encrypt a message; returns the encrypted header and the ciphertext. -/
def encrypt (plaintext associatedData : Bytes) :
    Exec (RatchetState K) RatchetError (Bytes × Bytes) := do
  let state ← Exec.get
  Exec.lift (validateEncryptionState state)
  if maxAdSize < associatedData.length then
    Exec.throw .adTooLarge
  -- derive the message key
  let ck ← Exec.lift (Outcome.expect state.ckS)
  let (ckS, mk) := kdfCk P ck
  Exec.put { state with ckS := some ckS }
  let state ← Exec.get
  let header : RatchetHeader := { dhPub := state.dhPair.2, pn := state.pn, n := state.ns }
  let ns ← Exec.lift (Outcome.okOr .counterOverflow (checkedAdd32 state.ns 1))
  Exec.put { state with ns }
  let state ← Exec.get
  let (newNonceCounter, encHeader) ← Exec.lift (encryptHeader P state header)
  Exec.put { state with headerNonceCounter := newNonceCounter }
  let ad := concatAd associatedData encHeader
  let ciphertext ← Exec.lift (encryptAead P mk plaintext ad)
  pure (encHeader, ciphertext)

/-! ### Decryption -/

/-- Decrypt the header; the flag says that a DH ratchet is needed. -/
def decryptHeader (state : RatchetState K) (encHeader : Bytes) :
    Outcome RatchetError (RatchetHeader × Bool) :=
  let tryNext : Outcome RatchetError (RatchetHeader × Bool) :=
    match decryptHeaderWithKey P state.nhkR encHeader with
    | .ok header => .ok (header, true)
    | .err _ => .err .headerDecryptionFailed
    | .panic => .panic
  match state.hkR with
  | none => tryNext
  | some hkR =>
    match decryptHeaderWithKey P hkR encHeader with
    | .ok header => .ok (header, false)
    | .err _ => tryNext
    | .panic => .panic

/-- The loop `while nr < header.n` of `computeMessageKey`, with at most `fuel`
turns. -/
def chainLoop (b : Build) (n : UInt32) : ℕ → K → UInt32 → Outcome RatchetError K
  | 0, ck, _ => .ok ck
  | fuel + 1, ck, nr =>
    if nr < n then do
      let (nextCk, _) := kdfCk P ck
      let nr ← b.add nr 1
      chainLoop b n fuel nextCk nr
    else .ok ck

/-- Compute the message key without modifying the state. -/
def computeMessageKey (b : Build) (state : RatchetState K) (header : RatchetHeader)
    (dhRatchet : Bool) : Outcome RatchetError K := do
  let (ckR, nr) ←
    if dhRatchet then do
      -- simulated DH ratchet
      let dhOut := P.x25519DiffieHellman state.dhPair.1 header.dhPub
      let (_, newCkR, _) ← kdfRkHe P state.rk dhOut
      pure (some newCkR, (0 : UInt32))
    else pure (state.ckR, state.nr)
  let limit ← b.add nr maxSkip
  if limit < header.n then .err .oldMessageKeysLimitReached
  else do
    let currentCk ← Outcome.okOr .invalidKey ckR
    let currentCk ← chainLoop P b header.n (header.n.toNat - nr.toNat) currentCk nr
    pure (kdfCk P currentCk).2

/-- `if let (Some(ck_r), Some(hk_r)) …`: store the keys of the current receiving
chain up to `toN`, by the `call`-th call of `skipMessageKeys`. -/
def storeSkipped (env : CallEnv K) (call : ℕ) (toN : UInt32) :
    Exec (RatchetState K) RatchetError PUnit := do
  let state ← Exec.get
  match state.ckR, state.hkR with
  | some ckR, some hkR => do
    -- `std::mem::take(&mut state.mkskipped)`
    Exec.put { state with mkskipped := ∅ }
    let mkskipped ← Exec.lift (skipMessageKeys P env.hashOrder (env.clock call)
      state.mkskipped ckR hkR state.nr toN)
    Exec.put { state with mkskipped }
  | _, _ => pure ⟨⟩

/-- The DH ratchet of `commitStateChanges`. -/
def performDhRatchet (env : CallEnv K) (header : RatchetHeader) :
    Exec (RatchetState K) RatchetError PUnit := do
  let state ← Exec.get
  Exec.put { state with
    pn := state.ns, ns := 0, nr := 0, hkS := some state.nhkS, hkR := some state.nhkR,
    dhRemote := some header.dhPub }
  let state ← Exec.get
  let dhOutRecv := P.x25519DiffieHellman state.dhPair.1 header.dhPub
  let (newRk, newCkR, newNhkR) ← Exec.lift (kdfRkHe P state.rk dhOutRecv)
  Exec.put { state with rk := newRk, ckR := some newCkR, nhkR := newNhkR }
  let state ← Exec.get
  let newDhS := env.freshSecret
  let newDhSPub := P.x25519PublicKey newDhS
  let dhOutSend := P.x25519DiffieHellman newDhS header.dhPub
  let (newRk2, newCkS, newNhkS) ← Exec.lift (kdfRkHe P state.rk dhOutSend)
  Exec.put { state with
    rk := newRk2, ckS := some newCkS, nhkS := newNhkS, dhPair := (newDhS, newDhSPub),
    receivedMessages := ∅ }

/-- Commit state changes after successful decryption. -/
def commitStateChanges (env : CallEnv K) (header : RatchetHeader) (dhRatchet : Bool) :
    Exec (RatchetState K) RatchetError PUnit := do
  if dhRatchet then do
    storeSkipped P env 0 header.pn
    performDhRatchet P env header
  storeSkipped P env 1 header.n
  -- advance to the current message
  let state ← Exec.get
  let ckR ← Exec.lift (Outcome.expect state.ckR)
  let (newCkR, _) := kdfCk P ckR
  Exec.put { state with ckR := some newCkR }
  let state ← Exec.get
  let nr ← Exec.lift (Outcome.okOr .counterOverflow (checkedAdd32 state.nr 1))
  Exec.put { state with nr }

/-- Decrypt a message; returns the plaintext. -/
def decrypt (b : Build) (env : CallEnv K) (encHeader ciphertext associatedData : Bytes) :
    Exec (RatchetState K) RatchetError Bytes := do
  if maxAdSize < associatedData.length then
    Exec.throw .adTooLarge
  let ad := concatAd associatedData encHeader
  -- 1. try skipped message keys first
  let state ← Exec.get
  Exec.put { state with mkskipped := ∅ }
  let (mkskippedRet, result) ← Exec.lift
    (trySkippedMessageKeys P env.hashOrder state.mkskipped encHeader ciphertext ad)
  Exec.put { state with mkskipped := mkskippedRet }
  match result with
  | some plaintext => pure plaintext
  | none => do
    -- 2. decrypt header
    let state ← Exec.get
    let (header, dhRatchet) ← Exec.lift (decryptHeader P state encHeader)
    -- 3. check for duplicate message
    let msgId := (header.dhPub, header.n)
    if msgId ∈ state.receivedMessages then
      Exec.throw .duplicateMessage
    -- 4. compute the message key
    let mk ← Exec.lift (computeMessageKey P b state header dhRatchet)
    -- 5. attempt decryption
    let plaintext ← Exec.lift (decryptAead P mk ciphertext ad)
    -- 6. commit state changes
    commitStateChanges P env header dhRatchet
    -- 7. track this message
    let state ← Exec.get
    if maxReceivedTracking ≤ state.receivedMessages.card then
      Exec.throw .tooManyMessages
    Exec.put { state with receivedMessages := insert msgId state.receivedMessages }
    pure plaintext

end Ratchet
