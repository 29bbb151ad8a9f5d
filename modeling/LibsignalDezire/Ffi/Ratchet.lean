/-
The C API of the ratchet (`src/ffi/ratchet.rs`).

States, message buffers and saved states live in memory of the library, and a C
client holds their addresses.  It may pass pointers into buffers and strings of the
library as well as into its own memory, which is given by its contents; only the structs
for results are always its own, and it writes nothing into the library's memory.  A call
that reads, writes or frees memory it must not is undefined, and so is reading the bytes
of a boxed state, whose layout Rust does not say.  Where the ratchet panics the process
is aborted, for a panic does not leave an `extern "C"` function.

* `Call`, `run` — the functions of the API as calls on the memory of the library.
-/
import LibsignalDezire.Lib.Heap
import LibsignalDezire.Curve.Utils
import LibsignalDezire.Ratchet.Calls
import LibsignalDezire.Ratchet.Saved

namespace Ffi

open Ratchet (RatchetState RatchetError SavedState Json SetOrder CallEnv Build DhPublicKey
  initSenderState initReceiverState)

variable {K : Type}

/-! ### Memory -/

/-- Memory that the library hands out: a boxed state, the memory of a `Vec` that is as
long as its capacity, a C string. -/
inductive Block (K : Type) where
  | state (state : RatchetState K)
  | bytes (content : Bytes)
  | text (json : Bytes)

/-- The bytes that may be read.  A C string ends with a zero. -/
def Block.memory : Block K → Option Bytes
  | state _ => none
  | bytes content => some content
  | text json => some (json ++ [0])

/-- A `*const u8`: into memory of the client, from where on it contains `bytes`, or so far
into the block that the library has handed out at `addr`.  Where there is none the pointer
dangles. -/
inductive Pointer where
  | client (bytes : Bytes)
  | library (addr offset : ℕ)

/-- `ptr.is_null()` -/
def Pointer.isNull : Pointer → Bool
  | client _ => false
  | library addr offset => addr == 0 && offset == 0

/-- A `*const c_char`: a C string of the client, given by what `serde_json` reads in it;
memory of the client without a zero; or as for a `Pointer`. -/
inductive Text (K : Type) where
  | client (saved : Option (SavedState K))
  | unterminated
  | library (addr offset : ℕ)

/-- `json_ptr.is_null()` -/
def Text.isNull : Text K → Bool
  | library addr offset => addr == 0 && offset == 0
  | _ => false

/-- A `*mut` to the struct for a result: null, a struct of the client, or neither. -/
inductive OutPointer where
  | null
  | valid
  | dangling
  deriving DecidableEq

/-- Calls on the memory of the library. -/
abbrev Mem (K : Type) := Exec (Heap (Block K)) Fault

/-- `&mut *ptr` -/
def derefState (statePtr : ℕ) : Mem K (RatchetState K) := do
  match ← Heap.load statePtr with
  | .state state => pure state
  | _ => Exec.throw .undefined

/-- What the memory contains from `ptr` on. -/
def bytesFrom (ptr : Pointer) : Mem K Bytes :=
  match ptr with
  | .client bytes => pure bytes
  | .library addr offset => do
    match (← Heap.load addr).memory with
    | some content => pure (content.drop offset)
    | none => Exec.throw .undefined

theorem length_nil_of_eq_zero {len : ℕ} (h : len = 0) : ([] : Bytes).length = len := h.symm

/-- `slice::from_raw_parts(ptr, len)`, and `&*ptr` for a `&[u8; len]`. -/
def fromRawParts (ptr : Pointer) (len : ℕ) : Mem K (BytesN len) :=
  -- a null pointer is not a slice, not even an empty one
  if ptr.isNull then Exec.throw .undefined
  else if h : len = 0 then pure ⟨[], length_nil_of_eq_zero h⟩
  else do
    let bytes ← bytesFrom ptr
    if h : len ≤ bytes.length then pure ⟨bytes.take len, List.length_take_of_le h⟩
    else Exec.throw .undefined

/-- `if ptr.is_null() || len == 0 { &[] } else { slice::from_raw_parts(ptr, len) }` -/
def sliceOrEmpty (ptr : Pointer) (len : ℕ) : Mem K Bytes :=
  if ptr.isNull ∨ len = 0 then pure [] else return (← fromRawParts ptr len).1

/-- `(*output).… = …`, and what has been written. -/
def OutPointer.write {α : Type} (output : OutPointer) (result : α) : Mem K (Option α) :=
  match output with
  | .valid => pure (some result)
  | _ => Exec.throw .undefined

/-- Leak a `Vec`: an empty one has no memory, and a dangling pointer. -/
def leak (A : Allocator (Block K)) (bytes : Bytes) : Mem K ℕ :=
  if bytes = [] then pure 1 else Heap.alloc A (.bytes bytes)

/-- `if !ptr.is_null() && len > 0 { let _ = Vec::from_raw_parts(ptr, len, len); }` -/
def dropVec (ptr len : ℕ) : Mem K PUnit :=
  if ptr ≠ 0 ∧ 0 < len then
    Heap.free ptr fun
      | .bytes content => content.length == len
      | _ => false
  else pure ⟨⟩

/-! ### Results -/

/-- `RatchetEncryptResult` -/
structure RatchetEncryptResult where
  header : ℕ
  headerLen : ℕ
  ciphertext : ℕ
  ciphertextLen : ℕ
  status : ℤ
  deriving DecidableEq

/-- `RatchetDecryptResult` -/
structure RatchetDecryptResult where
  plaintext : ℕ
  plaintextLen : ℕ
  status : ℤ
  deriving DecidableEq

def validateInputs (ptr : Pointer) (len : ℕ) : Bool := !(ptr.isNull && decide (0 < len))

def mapError : RatchetError → ℤ
  | .invalidKey => -1
  | .decryptionFailed => -2
  | .oldMessageKeysLimitReached => -3
  | .duplicateMessage => -4
  | .invalidHeader => -5
  | .headerDecryptionFailed => -6
  | .counterOverflow => -7
  | .adTooLarge => -8
  | .invalidState => -9
  | .tooManyMessages => -10

/-- No two errors share a status, and none has that of a success or of a bad pointer. -/
theorem mapError_injective : Function.Injective mapError := by
  intro e e' h
  cases e <;> cases e' <;> first | rfl | cases h

theorem mapError_bounds (e : RatchetError) : -10 ≤ mapError e ∧ mapError e < 0 := by
  cases e <;> decide

/-! ### Freeing -/

def ratchetFreeResultBuffers (header headerLen ciphertext ciphertextLen : ℕ) : Mem K PUnit := do
  dropVec header headerLen
  dropVec ciphertext ciphertextLen

def ratchetFreeByteBuffer (buffer len : ℕ) : Mem K PUnit := dropVec buffer len

def ratchetFree (state : ℕ) : Mem K PUnit :=
  if state = 0 then pure ⟨⟩
  else Heap.free state fun
    | .state _ => true
    | _ => false

def ratchetFreeString (s : ℕ) : Mem K PUnit :=
  if s = 0 then pure ⟨⟩
  else Heap.free s fun
    | .text _ => true
    | _ => false

/-! ### Opening a session -/

variable (P : Ratchet.Primitives K) (ofBytes : BytesN 32 → K)

/-- Decode the receiver's public key and initialise the sender's state. -/
def initSender (dhS : BytesN 32) (sk : K) (receiverDhPublic : BytesN 33) :
    Option (RatchetState K) :=
  match Curve.decodePublicKey receiverDhPublic with
  | .ok receiverPub =>
    match initSenderState P dhS sk receiverPub with
    | .ok state => some state
    | _ => none
  | _ => none

/-- Decode the receiver's public key and initialise his state. -/
def initReceiver (sk : K) (receiverDhPrivate : BytesN 32) (receiverDhPublic : BytesN 33) :
    Option (RatchetState K) :=
  match Curve.decodePublicKey receiverDhPublic with
  | .ok receiverPub => some (initReceiverState P sk (receiverDhPrivate, receiverPub))
  | _ => none

/-- Box a state and return its address; null if there is none. -/
def boxed (A : Allocator (Block K)) : Option (RatchetState K) → Mem K ℕ
  | some state => Heap.alloc A (.state state)
  | none => pure 0

/-- `ratchet_init_sender_ffi`; `ofBytes` says which key 32 bytes are. -/
def ratchetInitSender (A : Allocator (Block K)) (dhS : BytesN 32)
    (sk receiverDhPublic : Pointer) : Mem K ℕ := do
  let sk ← fromRawParts sk 32
  let receiverDhPublic ← fromRawParts receiverDhPublic 33
  boxed A (initSender P dhS (ofBytes sk) receiverDhPublic)

def ratchetInitReceiver (A : Allocator (Block K))
    (sk receiverDhPrivate receiverDhPublic : Pointer) : Mem K ℕ := do
  let sk ← fromRawParts sk 32
  let receiverDhPrivate ← fromRawParts receiverDhPrivate 32
  let receiverDhPublic ← fromRawParts receiverDhPublic 33
  boxed A (initReceiver P (ofBytes sk) receiverDhPrivate receiverDhPublic)

/-! ### Messages -/

/-- Encrypt a message.  Returns the status and what is written. -/
def ratchetEncrypt (A A' : Allocator (Block K)) (statePtr : ℕ) (plaintext : Pointer)
    (plaintextLen : ℕ) (ad : Pointer) (adLen : ℕ) (output : OutPointer) :
    Mem K (ℤ × Option RatchetEncryptResult) :=
  if statePtr = 0 ∨ output = .null then pure (-100, none)
  else do
    let state ← derefState statePtr
    let plaintextSlice ← sliceOrEmpty plaintext plaintextLen
    let adSlice ← sliceOrEmpty ad adLen
    match Ratchet.encrypt P plaintextSlice adSlice state with
    | (.ok (header, ciphertext), state) =>
      Heap.store statePtr (.state state)
      let hPtr ← leak A header
      let cPtr ← leak A' ciphertext
      return (0, ← output.write ⟨hPtr, header.length, cPtr, ciphertext.length, 0⟩)
    | (.err e, state) =>
      Heap.store statePtr (.state state)
      return (mapError e, ← output.write ⟨0, 0, 0, 0, mapError e⟩)
    | (.panic, _) => Exec.lift .panic

/-- Decrypt a message. -/
def ratchetDecrypt [DecidableEq K] (b : Build) (A : Allocator (Block K)) (env : CallEnv K)
    (statePtr : ℕ) (header : Pointer) (headerLen : ℕ) (ciphertext : Pointer) (ciphertextLen : ℕ)
    (ad : Pointer) (adLen : ℕ) (output : OutPointer) : Mem K (ℤ × Option RatchetDecryptResult) :=
  if statePtr = 0 ∨ output = .null then pure (-100, none)
  else if validateInputs header headerLen = false then pure (-101, none)
  else do
    let state ← derefState statePtr
    let headerSlice ← fromRawParts header headerLen
    let ciphertextSlice ← sliceOrEmpty ciphertext ciphertextLen
    let adSlice ← sliceOrEmpty ad adLen
    match Ratchet.decrypt P b env headerSlice.1 ciphertextSlice adSlice state with
    | (.ok plaintext, state) =>
      Heap.store statePtr (.state state)
      let pPtr ← leak A plaintext
      return (0, ← output.write ⟨pPtr, plaintext.length, 0⟩)
    | (.err e, state) =>
      Heap.store statePtr (.state state)
      return (mapError e, ← output.write ⟨0, 0, mapError e⟩)
    | (.panic, _) => Exec.lift .panic

/-! ### Saving -/

section Saving

variable [Json K]

/-- Save a state as a C string. -/
def ratchetSerialize [DecidableEq K] (A : Allocator (Block K))
    (mapOrder : Ratchet.HashOrder (K × UInt32)) (setOrder : SetOrder (DhPublicKey × UInt32))
    (statePtr : ℕ) : Mem K ℕ :=
  if statePtr = 0 then pure 0
  else do
    let state ← derefState statePtr
    match Ratchet.serialize mapOrder setOrder state with
    | some saved =>
      -- `CString::new` refuses a zero within
      if 0 ∈ Json.toString saved then pure 0 else Heap.alloc A (.text (Json.toString saved))
    | none => pure 0

/-- `CStr::from_ptr(json_ptr)` and what `serde_json` reads in it. -/
def readText : Text K → Mem K (Option (SavedState K))
  | .client saved => pure saved
  | .unterminated => Exec.throw .undefined
  | .library addr offset => do
    let bytes ← bytesFrom (.library addr offset)
    if 0 ∈ bytes then pure (Json.fromStr (bytes.takeWhile (· ≠ 0))) else Exec.throw .undefined

/-- Restore a state from a C string. -/
def ratchetDeserialize [DecidableEq K] (A : Allocator (Block K)) (json : Text K) : Mem K ℕ :=
  if json.isNull then pure 0
  else do
    let saved ← readText json
    boxed A (saved.map Ratchet.deserialize)

end Saving

/-! ### Calls of a client -/

/-- A call of the API, with what its environment decides: where memory is handed out,
and what the ratchet draws. -/
inductive Call (K : Type) where
  | initSender (A : Allocator (Block K)) (dhS : BytesN 32) (sk receiverDhPublic : Pointer)
  | initReceiver (A : Allocator (Block K)) (sk receiverDhPrivate receiverDhPublic : Pointer)
  | encrypt (A A' : Allocator (Block K)) (statePtr : ℕ) (plaintext : Pointer) (plaintextLen : ℕ)
      (ad : Pointer) (adLen : ℕ) (output : OutPointer)
  | decrypt (A : Allocator (Block K)) (env : CallEnv K) (statePtr : ℕ) (header : Pointer)
      (headerLen : ℕ) (ciphertext : Pointer) (ciphertextLen : ℕ) (ad : Pointer) (adLen : ℕ)
      (output : OutPointer)
  | serialize (A : Allocator (Block K)) (mapOrder : Ratchet.HashOrder (K × UInt32))
      (setOrder : SetOrder (DhPublicKey × UInt32)) (statePtr : ℕ)
  | deserialize (A : Allocator (Block K)) (json : Text K)
  | freeState (state : ℕ)
  | freeResultBuffers (header headerLen ciphertext ciphertextLen : ℕ)
  | freeByteBuffer (buffer len : ℕ)
  | freeString (s : ℕ)

/-- What a call returns. -/
inductive Reply where
  | pointer (ptr : ℕ)
  | encrypted (status : ℤ) (output : Option RatchetEncryptResult)
  | decrypted (status : ℤ) (output : Option RatchetDecryptResult)
  | freed
  deriving DecidableEq

/-- Perform a call. -/
def Call.run [DecidableEq K] [Json K] (b : Build) : Call K → Mem K Reply
  | initSender A dhS sk pub => return .pointer (← ratchetInitSender P ofBytes A dhS sk pub)
  | initReceiver A sk priv pub => return .pointer (← ratchetInitReceiver P ofBytes A sk priv pub)
  | encrypt A A' statePtr plaintext plaintextLen ad adLen output => do
    let (status, out) ← ratchetEncrypt P A A' statePtr plaintext plaintextLen ad adLen output
    return .encrypted status out
  | decrypt A env statePtr header headerLen ciphertext ciphertextLen ad adLen output => do
    let (status, out) ← ratchetDecrypt P b A env statePtr header headerLen ciphertext
      ciphertextLen ad adLen output
    return .decrypted status out
  | serialize A mapOrder setOrder statePtr =>
    return .pointer (← ratchetSerialize A mapOrder setOrder statePtr)
  | deserialize A json => return .pointer (← ratchetDeserialize A json)
  | freeState state => do
    ratchetFree state
    return .freed
  | freeResultBuffers header headerLen ciphertext ciphertextLen => do
    ratchetFreeResultBuffers header headerLen ciphertext ciphertextLen
    return .freed
  | freeByteBuffer buffer len => do
    ratchetFreeByteBuffer buffer len
    return .freed
  | freeString s => do
    ratchetFreeString s
    return .freed

end Ffi
