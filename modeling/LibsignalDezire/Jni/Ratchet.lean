/-
The JNI bindings of the ratchet (`src/jni/ratchet.rs`).

Java passes byte arrays, any of which may be null, and gets byte arrays back; only the
states are in memory of the library.  A JVM that runs out of memory or fails to copy an
array is left out.

* `jni_is_c_api` — **every binding is what a C client would write**: it calls the C API,
  copies what it reads, and gives all buffers back.
-/
import LibsignalDezire.Ffi.Frame

namespace Jni

open Ffi (Block Mem Pointer Text boxed derefState)
open Ratchet (RatchetState SavedState Json SetOrder CallEnv Build DhPublicKey HashOrder)

variable {K : Type}

/-- `Some(v) if v.len() == n` -/
def sized (n : ℕ) (arr : Option Bytes) : Option (BytesN n) :=
  arr.bind fun v => if h : v.length = n then some ⟨v, h⟩ else none

/-! ### The bindings -/

section Bindings

variable (P : Ratchet.Primitives K) (ofBytes : BytesN 32 → K)

def ratchetInitSender (A : Allocator (Block K)) (dhS : BytesN 32)
    (skArr receiverPubArr : Option Bytes) : Mem K ℕ :=
  match sized 32 skArr with
  | none => pure 0
  | some sk =>
    match sized 33 receiverPubArr with
    | none => pure 0
    | some pubKey =>
      match Curve.decodePublicKey pubKey with
      | .ok decoded =>
        match Ratchet.initSenderState P dhS (ofBytes sk) decoded with
        | .ok state => Heap.alloc A (.state state)
        | _ => pure 0
      | _ => pure 0

def ratchetInitReceiver (A : Allocator (Block K)) (skArr privArr pubArr : Option Bytes) :
    Mem K ℕ :=
  match sized 32 skArr with
  | none => pure 0
  | some sk =>
    match sized 32 privArr with
    | none => pure 0
    | some privKey =>
      match sized 33 pubArr with
      | none => pure 0
      | some pubKey =>
        match Curve.decodePublicKey pubKey with
        | .ok decoded =>
          Heap.alloc A (.state (Ratchet.initReceiverState P (ofBytes sk) (privKey, decoded)))
        | _ => pure 0

def ratchetFree (statePtr : ℕ) : Mem K PUnit :=
  if statePtr ≠ 0 then
    Heap.free statePtr fun
      | .state _ => true
      | _ => false
  else pure ⟨⟩

/-- The `HashMap` that `ratchetEncrypt` returns. -/
def messageMap (header ciphertext : Bytes) : List (String × Bytes) :=
  [("header", header), ("ciphertext", ciphertext)]

/-- Null stands for every failure. -/
def ratchetEncrypt (statePtr : ℕ) (plaintextArr adArr : Option Bytes) :
    Mem K (Option (List (String × Bytes))) :=
  if statePtr = 0 then pure none
  else
    match plaintextArr with
    | none => pure none
    | some plaintextVec => do
      let adVec := adArr.getD []
      let state ← derefState statePtr
      match Ratchet.encrypt P plaintextVec adVec state with
      | (.ok (header, ciphertext), state) =>
        Heap.store statePtr (.state state)
        pure (some (messageMap header ciphertext))
      | (.err _, state) =>
        Heap.store statePtr (.state state)
        pure none
      | (.panic, _) => Exec.lift .panic

def ratchetDecrypt [DecidableEq K] (b : Build) (env : CallEnv K) (statePtr : ℕ)
    (headerArr ciphertextArr adArr : Option Bytes) : Mem K (Option Bytes) :=
  if statePtr = 0 then pure none
  else
    match headerArr with
    | none => pure none
    | some headerVec =>
      match ciphertextArr with
      | none => pure none
      | some cipherVec => do
        let adVec := adArr.getD []
        let state ← derefState statePtr
        match Ratchet.decrypt P b env headerVec cipherVec adVec state with
        | (.ok plaintext, state) =>
          Heap.store statePtr (.state state)
          pure (some plaintext)
        | (.err _, state) =>
          Heap.store statePtr (.state state)
          pure none
        | (.panic, _) => Exec.lift .panic

def ratchetSerialize [DecidableEq K] (mapOrder : HashOrder (K × UInt32))
    (setOrder : SetOrder (DhPublicKey × UInt32)) (statePtr : ℕ) :
    Mem K (Option (SavedState K)) :=
  if statePtr = 0 then pure none
  else do
    let state ← derefState statePtr
    pure (Ratchet.serialize mapOrder setOrder state)

/-- A null string, or what `serde_json` reads in it. -/
def ratchetDeserialize [DecidableEq K] (A : Allocator (Block K))
    (jsonStr : Option (Option (SavedState K))) : Mem K ℕ :=
  match jsonStr with
  | none => pure 0
  | some none => pure 0
  | some (some saved) => Heap.alloc A (.state (Ratchet.deserialize saved))

end Bindings

/-! ### The same through the C API -/

section ThroughC

variable (P : Ratchet.Primitives K) (ofBytes : BytesN 32 → K)

/-- Arrays of the right sizes are passed on. -/
def initSenderThroughC (A : Allocator (Block K)) (dhS : BytesN 32)
    (skArr receiverPubArr : Option Bytes) : Mem K ℕ :=
  match sized 32 skArr, sized 33 receiverPubArr with
  | some sk, some pubKey =>
    Ffi.ratchetInitSender P ofBytes A dhS (.client sk.1) (.client pubKey.1)
  | _, _ => pure 0

def initReceiverThroughC (A : Allocator (Block K)) (skArr privArr pubArr : Option Bytes) :
    Mem K ℕ :=
  match sized 32 skArr, sized 32 privArr, sized 33 pubArr with
  | some sk, some privKey, some pubKey =>
    Ffi.ratchetInitReceiver P ofBytes A (.client sk.1) (.client privKey.1) (.client pubKey.1)
  | _, _, _ => pure 0

/-- Call, copy header and ciphertext, free them. -/
def encryptThroughC (A A' : Allocator (Block K)) (statePtr : ℕ)
    (plaintextArr adArr : Option Bytes) : Mem K (Option (List (String × Bytes))) :=
  match plaintextArr with
  | none => pure none
  | some plaintext => do
    let ad := adArr.getD []
    let (status, output) ← Ffi.ratchetEncrypt P A A' statePtr
      (.client plaintext) plaintext.length
      (.client ad) ad.length .valid
    match output with
    | some out =>
      if status = 0 then
        let header ← Ffi.sliceOrEmpty (.library out.header 0) out.headerLen
        let ciphertext ← Ffi.sliceOrEmpty (.library out.ciphertext 0) out.ciphertextLen
        Ffi.ratchetFreeResultBuffers out.header out.headerLen out.ciphertext out.ciphertextLen
        pure (some (messageMap header ciphertext))
      else pure none
    | none => pure none

def decryptThroughC [DecidableEq K] (b : Build) (A : Allocator (Block K)) (env : CallEnv K)
    (statePtr : ℕ) (headerArr ciphertextArr adArr : Option Bytes) : Mem K (Option Bytes) :=
  match headerArr, ciphertextArr with
  | some header, some ciphertext => do
    let ad := adArr.getD []
    let (status, output) ← Ffi.ratchetDecrypt P b A env statePtr (.client header) header.length
      (.client ciphertext) ciphertext.length (.client ad) ad.length .valid
    match output with
    | some out =>
      if status = 0 then
        let plaintext ← Ffi.sliceOrEmpty (.library out.plaintext 0) out.plaintextLen
        Ffi.ratchetFreeByteBuffer out.plaintext out.plaintextLen
        pure (some plaintext)
      else pure none
    | none => pure none
  | _, _ => pure none

def serializeThroughC [DecidableEq K] [Json K] (A : Allocator (Block K))
    (mapOrder : HashOrder (K × UInt32))
    (setOrder : SetOrder (DhPublicKey × UInt32)) (statePtr : ℕ) :
    Mem K (Option (SavedState K)) := do
  let ptr ← Ffi.ratchetSerialize A mapOrder setOrder statePtr
  if ptr = 0 then pure none
  else
    let saved ← Ffi.readText (.library ptr 0)
    Ffi.ratchetFreeString ptr
    pure saved

def deserializeThroughC [DecidableEq K] [Json K] (A : Allocator (Block K))
    (jsonStr : Option (Option (SavedState K))) : Mem K ℕ :=
  match jsonStr with
  | none => Ffi.ratchetDeserialize A (.library 0 0)
  | some saved => Ffi.ratchetDeserialize A (.client saved)

end ThroughC

/-! ### Buffers that are given back -/

section Buffers

variable {h : Heap (Block K)}

theorem dropVec_of_bytes {ptr : ℕ} {bytes : Bytes}
    (hb : bytes ≠ [] → h.block ptr = some (.bytes bytes)) :
    Ffi.dropVec ptr bytes.length h = (.ok ⟨⟩, if bytes = [] then h else h.set ptr none) := by
  rw [Ffi.dropVec]
  by_cases hbytes : bytes = []
  · rw [if_pos hbytes, hbytes, if_neg (fun hlen => Nat.lt_irrefl 0 hlen.2)]
    rfl
  · have hblock := hb hbytes
    rw [if_neg hbytes, if_pos ⟨Heap.ne_zero_of_block hblock, List.length_pos_iff.mpr hbytes⟩]
    exact Heap.free_of_some hblock (beq_self_eq_true _)

/-- A `Vec` can be put at `ptr`. -/
def FreeFor (h : Heap (Block K)) (bytes : Bytes) (ptr : ℕ) : Prop :=
  bytes ≠ [] → ptr ≠ 0 ∧ h.block ptr = none

theorem freeFor_leakedTo (A : Allocator (Block K)) (bytes : Bytes) :
    FreeFor h bytes (Ffi.leakedTo h A bytes) := by
  intro hbytes
  rw [Ffi.leakedTo, if_neg hbytes]
  exact ⟨A.ne_zero h, A.fresh h⟩

theorem FreeFor.holdBytes_self {bytes : Bytes} {ptr : ℕ} (hptr : FreeFor h bytes ptr)
    (hbytes : bytes ≠ []) : (Ffi.holdBytes h bytes ptr).block ptr = some (.bytes bytes) := by
  rw [Ffi.holdBytes, if_neg hbytes, Heap.set_block_self _ (hptr hbytes).1]

/-- A `Vec` that was leaked and is given back leaves no trace. -/
theorem FreeFor.dropVec {bytes : Bytes} {ptr : ℕ} (hptr : FreeFor h bytes ptr) :
    Ffi.dropVec ptr bytes.length (Ffi.holdBytes h bytes ptr) = (.ok ⟨⟩, h) := by
  rw [dropVec_of_bytes hptr.holdBytes_self, Ffi.holdBytes]
  by_cases hbytes : bytes = []
  · rw [if_pos hbytes, if_pos hbytes]
  · rw [if_neg hbytes, if_neg hbytes, Heap.set_set_none (hptr hbytes).2]

theorem FreeFor.freeResultBuffers {bytes bytes' : Bytes} {ptr ptr' : ℕ}
    (hptr : FreeFor h bytes ptr) (hptr' : FreeFor (Ffi.holdBytes h bytes ptr) bytes' ptr') :
    Ffi.ratchetFreeResultBuffers ptr bytes.length ptr' bytes'.length
      (Ffi.holdBytes (Ffi.holdBytes h bytes ptr) bytes' ptr') = (.ok ⟨⟩, h) := by
  -- the second buffer is not where the first one is
  have hne (hbytes : bytes ≠ []) (hbytes' : bytes' ≠ []) : ptr' ≠ ptr := by
    rintro rfl
    have hfree := (hptr' hbytes').2
    rw [hptr.holdBytes_self hbytes] at hfree
    cases hfree
  have hfirst : Ffi.dropVec ptr bytes.length
      (Ffi.holdBytes (Ffi.holdBytes h bytes ptr) bytes' ptr')
        = (.ok ⟨⟩, Ffi.holdBytes h bytes' ptr') := by
    rw [dropVec_of_bytes]
    · by_cases hbytes : bytes = []
      · have hhold : Ffi.holdBytes h bytes ptr = h := if_pos hbytes
        rw [if_pos hbytes, hhold]
      · rw [if_neg hbytes, Ffi.holdBytes, Ffi.holdBytes, Ffi.holdBytes, if_neg hbytes]
        by_cases hbytes' : bytes' = []
        · rw [if_pos hbytes', if_pos hbytes', Heap.set_set_none (hptr hbytes).2]
        · rw [if_neg hbytes', if_neg hbytes', Heap.set_comm _ (hne hbytes hbytes'),
            Heap.set_set_none (hptr hbytes).2]
    · intro hbytes
      rw [Ffi.holdBytes]
      split
      · exact hptr.holdBytes_self hbytes
      · rename_i hbytes'
        rw [Heap.set_block_of_ne _ (hne hbytes hbytes').symm]
        exact hptr.holdBytes_self hbytes
  have hsecond : FreeFor h bytes' ptr' := by
    intro hbytes'
    obtain ⟨hzero, hfree⟩ := hptr' hbytes'
    refine ⟨hzero, ?_⟩
    rw [Ffi.holdBytes] at hfree
    split at hfree
    · exact hfree
    · rename_i hbytes
      rwa [Heap.set_block_of_ne _ (hne hbytes hbytes')] at hfree
  rw [Ffi.ratchetFreeResultBuffers, Exec.bind_apply, hfirst]
  exact hsecond.dropVec

end Buffers

/-! ### The bindings are clients of the C API -/

section Equal

variable (P : Ratchet.Primitives K) (ofBytes : BytesN 32 → K) {h : Heap (Block K)}

theorem ratchetEncrypt_of_null {statePtr : ℕ} {plaintextArr : Option Bytes}
    (adArr : Option Bytes) (hnull : statePtr = 0 ∨ plaintextArr = none) :
    ratchetEncrypt P statePtr plaintextArr adArr h = (.ok none, h) := by
  unfold ratchetEncrypt
  by_cases hzero : statePtr = 0
  · rw [if_pos hzero]
    rfl
  · rw [if_neg hzero, hnull.resolve_left hzero]
    rfl

/-- `ratchetEncrypt` on a state. -/
theorem ratchetEncrypt_of_some {statePtr : ℕ} {state : RatchetState K} (plaintext : Bytes)
    (adArr : Option Bytes) (hstate : Ffi.stateAt h statePtr = some state) :
    ratchetEncrypt P statePtr (some plaintext) adArr h =
      match Ratchet.encrypt P plaintext (adArr.getD []) state with
      | (.ok (header, ciphertext), state') =>
        (.ok (some (messageMap header ciphertext)), h.set statePtr (some (.state state')))
      | (.err _, state') => (.ok none, h.set statePtr (some (.state state')))
      | (.panic, _) => (.panic, h) := by
  have hblock := (Ffi.stateAt_eq_some h).mp hstate
  rw [ratchetEncrypt, if_neg (Heap.ne_zero_of_block hblock)]
  simp only [Exec.bind_apply, Ffi.derefState_apply, hstate, Outcome.okOr_some]
  rcases Ratchet.encrypt P plaintext (adArr.getD []) state with
    ⟨⟨header, ciphertext⟩ | e | _, state'⟩
  · simp only [Exec.bind_apply, Heap.store_of_some hblock, Exec.pure_apply]
  · simp only [Exec.bind_apply, Heap.store_of_some hblock, Exec.pure_apply]
  · rfl

/-- A handle that is not null has to be one of a state. -/
theorem ratchetEncrypt_of_none {statePtr : ℕ} (plaintext : Bytes) (adArr : Option Bytes)
    (hne : statePtr ≠ 0) (hstate : Ffi.stateAt h statePtr = none) :
    ratchetEncrypt P statePtr (some plaintext) adArr h = (.err .undefined, h) := by
  rw [ratchetEncrypt, if_neg hne]
  simp only [Exec.bind_apply, Ffi.derefState_apply, hstate, Outcome.okOr_none]

section Decrypt

variable [DecidableEq K] (b : Build) (env : CallEnv K) {statePtr : ℕ}

theorem ratchetDecrypt_of_null {headerArr ciphertextArr : Option Bytes} (adArr : Option Bytes)
    (hnull : statePtr = 0 ∨ headerArr = none ∨ ciphertextArr = none) :
    ratchetDecrypt P b env statePtr headerArr ciphertextArr adArr h = (.ok none, h) := by
  unfold ratchetDecrypt
  by_cases hzero : statePtr = 0
  · rw [if_pos hzero]
    rfl
  rw [if_neg hzero]
  rcases hnull.resolve_left hzero with rfl | rfl
  · rfl
  · cases headerArr <;> rfl

theorem ratchetDecrypt_of_some {state : RatchetState K} (header ciphertext : Bytes)
    (adArr : Option Bytes) (hstate : Ffi.stateAt h statePtr = some state) :
    ratchetDecrypt P b env statePtr (some header) (some ciphertext) adArr h =
      match Ratchet.decrypt P b env header ciphertext (adArr.getD []) state with
      | (.ok plaintext, state') => (.ok (some plaintext), h.set statePtr (some (.state state')))
      | (.err _, state') => (.ok none, h.set statePtr (some (.state state')))
      | (.panic, _) => (.panic, h) := by
  have hblock := (Ffi.stateAt_eq_some h).mp hstate
  rw [ratchetDecrypt, if_neg (Heap.ne_zero_of_block hblock)]
  simp only [Exec.bind_apply, Ffi.derefState_apply, hstate, Outcome.okOr_some]
  rcases Ratchet.decrypt P b env header ciphertext (adArr.getD []) state with
    ⟨plaintext | e | _, state'⟩
  · simp only [Exec.bind_apply, Heap.store_of_some hblock, Exec.pure_apply]
  · simp only [Exec.bind_apply, Heap.store_of_some hblock, Exec.pure_apply]
  · rfl

theorem ratchetDecrypt_of_none (header ciphertext : Bytes) (adArr : Option Bytes)
    (hne : statePtr ≠ 0) (hstate : Ffi.stateAt h statePtr = none) :
    ratchetDecrypt P b env statePtr (some header) (some ciphertext) adArr h
      = (.err .undefined, h) := by
  rw [ratchetDecrypt, if_neg hne]
  simp only [Exec.bind_apply, Ffi.derefState_apply, hstate, Outcome.okOr_none]

end Decrypt

theorem encrypt_throughC (A A' : Allocator (Block K)) (statePtr : ℕ)
    (plaintextArr adArr : Option Bytes) :
    encryptThroughC P A A' statePtr plaintextArr adArr
      = ratchetEncrypt P statePtr plaintextArr adArr := by
  funext h
  cases plaintextArr with
  | none =>
    rw [ratchetEncrypt_of_null P adArr (.inr rfl)]
    rfl
  | some plaintext =>
    simp only [encryptThroughC, Exec.bind_apply]
    by_cases hnull : statePtr = 0
    · rw [ratchetEncrypt_of_null P adArr (.inl hnull), Ffi.ratchetEncrypt, if_pos (.inl hnull)]
      rfl
    cases hstate : Ffi.stateAt h statePtr with
    | none =>
      rw [ratchetEncrypt_of_none P plaintext adArr hnull hstate, Ffi.ratchetEncrypt_of_none]
      · exact not_or.mpr ⟨hnull, fun heq => by cases heq⟩
      · rw [hstate]
        exact fun hsome => Bool.noConfusion hsome.1
    | some state =>
      rw [Ffi.ratchetEncrypt_of_some P A A' hstate (Ffi.readOrEmpty_client _)
        (Ffi.readOrEmpty_client _), ratchetEncrypt_of_some P plaintext adArr hstate]
      rcases Ratchet.encrypt P plaintext (adArr.getD []) state with
        ⟨⟨header, ciphertext⟩ | e | _, state'⟩
      · -- both buffers are copied and given back
        simp only [Exec.bind_apply, Ffi.sliceOrEmpty_apply, Ffi.readOrEmpty_holdBytes,
          Ffi.readOrEmpty_holdBytes_twice, Outcome.okOr_some, if_true, Exec.pure_apply,
          (freeFor_leakedTo A header).freeResultBuffers (freeFor_leakedTo A' ciphertext)]
      · have hne : Ffi.mapError e ≠ 0 := (Ffi.mapError_bounds e).2.ne
        simp only [if_neg hne, Exec.pure_apply]
      · rfl

theorem decrypt_throughC [DecidableEq K] (b : Build) (A : Allocator (Block K)) (env : CallEnv K)
    (statePtr : ℕ) (headerArr ciphertextArr adArr : Option Bytes) :
    decryptThroughC P b A env statePtr headerArr ciphertextArr adArr
      = ratchetDecrypt P b env statePtr headerArr ciphertextArr adArr := by
  funext h
  unfold decryptThroughC
  cases headerArr with
  | none => exact (ratchetDecrypt_of_null P b env adArr (.inr (.inl rfl))).symm
  | some header =>
    cases ciphertextArr with
    | none => exact (ratchetDecrypt_of_null P b env adArr (.inr (.inr rfl))).symm
    | some ciphertext =>
      simp only [Exec.bind_apply]
      by_cases hnull : statePtr = 0
      · rw [ratchetDecrypt_of_null P b env adArr (.inl hnull), Ffi.ratchetDecrypt,
          if_pos (.inl hnull)]
        rfl
      cases hstate : Ffi.stateAt h statePtr with
      | none =>
        rw [ratchetDecrypt_of_none P b env header ciphertext adArr hnull hstate,
          Ffi.ratchetDecrypt_of_none]
        · exact not_or.mpr ⟨hnull, fun heq => by cases heq⟩
        · exact Bool.noConfusion
        · rw [hstate]
          exact fun hsome => Bool.noConfusion hsome.1
      | some state =>
        rw [Ffi.ratchetDecrypt_of_some P b A env hstate (Ffi.read_client _)
          (Ffi.readOrEmpty_client _)
          (Ffi.readOrEmpty_client _), ratchetDecrypt_of_some P b env header ciphertext
            adArr hstate]
        rcases Ratchet.decrypt P b env header ciphertext (adArr.getD []) state with
          ⟨plaintext | e | _, state'⟩
        · -- the buffer is copied and given back
          simp only [Exec.bind_apply, Ffi.sliceOrEmpty_apply, Ffi.readOrEmpty_holdBytes,
            Outcome.okOr_some, if_true, Ffi.ratchetFreeByteBuffer, Exec.pure_apply,
            (freeFor_leakedTo A plaintext).dropVec]
        · have hne : Ffi.mapError e ≠ 0 := (Ffi.mapError_bounds e).2.ne
          simp only [if_neg hne, Exec.pure_apply]
        · rfl

theorem initSender_throughC (A : Allocator (Block K)) (dhS : BytesN 32)
    (skArr receiverPubArr : Option Bytes) :
    initSenderThroughC P ofBytes A dhS skArr receiverPubArr
      = ratchetInitSender P ofBytes A dhS skArr receiverPubArr := by
  unfold initSenderThroughC ratchetInitSender
  cases sized 32 skArr with
  | none => rfl
  | some sk =>
    cases sized 33 receiverPubArr with
    | none => rfl
    | some pubKey =>
      dsimp only
      rw [Ffi.ratchetInitSender_client, Ffi.initSender]
      cases Curve.decodePublicKey pubKey with
      | ok decoded =>
        dsimp only
        cases Ratchet.initSenderState P dhS (ofBytes sk) decoded <;> rfl
      | err e => rfl
      | panic => rfl

theorem initReceiver_throughC (A : Allocator (Block K)) (skArr privArr pubArr : Option Bytes) :
    initReceiverThroughC P ofBytes A skArr privArr pubArr
      = ratchetInitReceiver P ofBytes A skArr privArr pubArr := by
  unfold initReceiverThroughC ratchetInitReceiver
  cases sized 32 skArr with
  | none => rfl
  | some sk =>
    cases sized 32 privArr with
    | none => rfl
    | some privKey =>
      cases sized 33 pubArr with
      | none => rfl
      | some pubKey =>
        dsimp only
        rw [Ffi.ratchetInitReceiver_client, Ffi.initReceiver]
        cases Curve.decodePublicKey pubKey <;> rfl

theorem free_throughC (statePtr : ℕ) :
    (Ffi.ratchetFree statePtr : Mem K PUnit) = ratchetFree statePtr :=
  (ite_not _ _ _).symm

/-- In a saved string is read what was saved. -/
theorem read_library_text [Json K] {ptr : ℕ} {saved : SavedState K}
    (hblock : h.block ptr = some (.text (Json.toString saved))) :
    (Text.library ptr 0 : Text K).read h = some (some saved) := by
  have hzero := Json.zero_notMem_toString saved
  have htake : (Json.toString saved ++ [0]).takeWhile (· ≠ 0) = Json.toString saved := by
    rw [List.takeWhile_append_of_pos]
    · simp
    · intro x hx
      simp only [ne_eq, decide_not, Bool.not_eq_true', decide_eq_false_iff_not]
      rintro rfl
      exact hzero hx
  rw [Text.read, Pointer.bytes, hblock]
  simp only [Option.bind_some, Block.memory, Option.map_some, List.drop_zero, htake,
    Json.fromStr_toString]
  simp

theorem serialize_throughC [DecidableEq K] [Json K] (A : Allocator (Block K))
    (mapOrder : HashOrder (K × UInt32)) (setOrder : SetOrder (DhPublicKey × UInt32))
    (statePtr : ℕ) :
    serializeThroughC A mapOrder setOrder statePtr
      = ratchetSerialize mapOrder setOrder statePtr := by
  funext h
  rw [serializeThroughC, Exec.bind_apply, Ffi.ratchetSerialize, ratchetSerialize]
  by_cases hnull : statePtr = 0
  · rw [if_pos hnull, if_pos hnull]
    rfl
  rw [if_neg hnull, if_neg hnull]
  simp only [Exec.bind_apply, Ffi.derefState_apply]
  cases Ffi.stateAt h statePtr with
  | none => rfl
  | some state =>
    dsimp only [Outcome.okOr_some]
    cases Ratchet.serialize mapOrder setOrder state with
    | none => rfl
    | some saved =>
      have hne : A.next h ≠ 0 := A.ne_zero h
      have hblock : (h.set (A.next h) (some (Block.text (Json.toString saved)))).block (A.next h)
          = some (.text (Json.toString saved)) := Heap.set_block_self h hne _
      simp only [if_neg (Json.zero_notMem_toString saved), Heap.alloc, if_neg hne,
        Exec.bind_apply,
        Ffi.readText_apply, read_library_text hblock, Outcome.okOr_some, Exec.pure_apply,
        Ffi.ratchetFreeString]
      rw [Heap.free_of_some hblock rfl, Heap.set_set_none (A.fresh h)]

theorem deserialize_throughC [DecidableEq K] [Json K] (A : Allocator (Block K))
    (jsonStr : Option (Option (SavedState K))) :
    deserializeThroughC A jsonStr = ratchetDeserialize A jsonStr := by
  cases jsonStr with
  | none => rfl
  | some saved => cases saved <;> rfl

theorem ratchetInitSender_eq_boxed (A : Allocator (Block K)) (dhS : BytesN 32)
    (skArr receiverPubArr : Option Bytes) :
    ∃ state, ratchetInitSender P ofBytes A dhS skArr receiverPubArr = Ffi.boxed A state := by
  rw [← initSender_throughC]
  unfold initSenderThroughC
  split
  · exact ⟨_, Ffi.ratchetInitSender_client P ofBytes A dhS _ _⟩
  · exact ⟨none, rfl⟩

theorem ratchetInitReceiver_eq_boxed (A : Allocator (Block K))
    (skArr privArr pubArr : Option Bytes) :
    ∃ state, ratchetInitReceiver P ofBytes A skArr privArr pubArr = Ffi.boxed A state := by
  rw [← initReceiver_throughC]
  unfold initReceiverThroughC
  split
  · exact ⟨_, Ffi.ratchetInitReceiver_client P ofBytes A _ _ _⟩
  · exact ⟨none, rfl⟩

theorem ratchetDeserialize_eq_boxed [DecidableEq K] (A : Allocator (Block K))
    (jsonStr : Option (Option (SavedState K))) :
    ratchetDeserialize A jsonStr = Ffi.boxed A (jsonStr.join.map Ratchet.deserialize) := by
  rcases jsonStr with _ | _ | saved <;> rfl

end Equal

/-! ### Calls of a JVM -/

/-- A call from Java, with what its environment decides. -/
inductive Call (K : Type) where
  | initSender (A : Allocator (Block K)) (dhS : BytesN 32) (skArr receiverPubArr : Option Bytes)
  | initReceiver (A : Allocator (Block K)) (skArr privArr pubArr : Option Bytes)
  | free (statePtr : ℕ)
  | encrypt (statePtr : ℕ) (plaintextArr adArr : Option Bytes)
  | decrypt (env : CallEnv K) (statePtr : ℕ) (headerArr ciphertextArr adArr : Option Bytes)
  | serialize (mapOrder : HashOrder (K × UInt32)) (setOrder : SetOrder (DhPublicKey × UInt32))
      (statePtr : ℕ)
  | deserialize (A : Allocator (Block K)) (jsonStr : Option (Option (SavedState K)))

/-- What Java gets. -/
inductive Reply (K : Type) where
  | pointer (statePtr : ℕ)
  | freed
  | message (map : Option (List (String × Bytes)))
  | plaintext (arr : Option Bytes)
  | text (saved : Option (SavedState K))

section Run

variable [DecidableEq K] (P : Ratchet.Primitives K) (ofBytes : BytesN 32 → K) (b : Build)

/-- Perform a call. -/
def Call.run : Call K → Mem K (Reply K)
  | initSender A dhS skArr pubArr =>
    return .pointer (← ratchetInitSender P ofBytes A dhS skArr pubArr)
  | initReceiver A skArr privArr pubArr =>
    return .pointer (← ratchetInitReceiver P ofBytes A skArr privArr pubArr)
  | free statePtr => do
    ratchetFree statePtr
    return .freed
  | encrypt statePtr plaintextArr adArr =>
    return .message (← ratchetEncrypt P statePtr plaintextArr adArr)
  | decrypt env statePtr headerArr ciphertextArr adArr =>
    return .plaintext (← ratchetDecrypt P b env statePtr headerArr ciphertextArr adArr)
  | serialize mapOrder setOrder statePtr =>
    return .text (← ratchetSerialize mapOrder setOrder statePtr)
  | deserialize A jsonStr => return .pointer (← ratchetDeserialize A jsonStr)

/-- Perform a call through the C API, with its buffers handed out by `A` and `A'`. -/
def Call.runThroughC [Json K] (A A' : Allocator (Block K)) : Call K → Mem K (Reply K)
  | initSender A dhS skArr pubArr =>
    return .pointer (← initSenderThroughC P ofBytes A dhS skArr pubArr)
  | initReceiver A skArr privArr pubArr =>
    return .pointer (← initReceiverThroughC P ofBytes A skArr privArr pubArr)
  | free statePtr => do
    Ffi.ratchetFree statePtr
    return .freed
  | encrypt statePtr plaintextArr adArr =>
    return .message (← encryptThroughC P A A' statePtr plaintextArr adArr)
  | decrypt env statePtr headerArr ciphertextArr adArr =>
    return .plaintext (← decryptThroughC P b A env statePtr headerArr ciphertextArr adArr)
  | serialize mapOrder setOrder statePtr =>
    return .text (← serializeThroughC A mapOrder setOrder statePtr)
  | deserialize A jsonStr => return .pointer (← deserializeThroughC A jsonStr)

/-- **The bindings are clients of the C API.**  Each does to every memory exactly what
the call of the C API does whose results are copied and given back, wherever that call's
buffers are: it returns the same, leaves the same memory, and is undefined or aborts on
the same inputs. -/
theorem jni_is_c_api [Json K] (A A' : Allocator (Block K)) (c : Call K) :
    c.runThroughC P ofBytes b A A' = c.run P ofBytes b := by
  cases c with
  | initSender A₀ dhS skArr pubArr => rw [Call.runThroughC, initSender_throughC, Call.run]
  | initReceiver A₀ skArr privArr pubArr =>
    rw [Call.runThroughC, initReceiver_throughC, Call.run]
  | free statePtr => rw [Call.runThroughC, free_throughC, Call.run]
  | encrypt statePtr plaintextArr adArr => rw [Call.runThroughC, encrypt_throughC, Call.run]
  | decrypt env statePtr headerArr ciphertextArr adArr =>
    rw [Call.runThroughC, decrypt_throughC, Call.run]
  | serialize mapOrder setOrder statePtr => rw [Call.runThroughC, serialize_throughC, Call.run]
  | deserialize A₀ jsonStr => rw [Call.runThroughC, deserialize_throughC, Call.run]

end Run

end Jni
