/-
What a call of the C API returns, and what it leaves alone.

* `readOrEmpty_holdBytes`, `readOrEmpty_holdBytes_twice` — a client reads in the buffers
  of a reply what was put there;
* `run_block` — a call that returns leaves every state alone but the one it is about.
-/
import LibsignalDezire.Ffi.Contract
import LibsignalDezire.Session.Run

namespace Ffi

open Ratchet (RatchetState RatchetError SavedState Json CallEnv Build)

variable {K : Type}

/-! ### Replies -/

/-- The error that a status stands for. -/
def errorOf : ℤ → Option RatchetError
  | -1 => some .invalidKey
  | -2 => some .decryptionFailed
  | -3 => some .oldMessageKeysLimitReached
  | -4 => some .duplicateMessage
  | -5 => some .invalidHeader
  | -6 => some .headerDecryptionFailed
  | -7 => some .counterOverflow
  | -8 => some .adTooLarge
  | -9 => some .invalidState
  | -10 => some .tooManyMessages
  | _ => none

theorem errorOf_mapError (e : RatchetError) : errorOf (mapError e) = some e := by
  cases e <;> rfl

/-- What a client reads in a reply, and in the buffers that it was handed out. -/
def Reply.reading (h : Heap (Block K)) : Reply → Option Ratchet.Reply
  | .encrypted status (some out) =>
    if status = 0 then do
      let header ← (Pointer.library out.header 0).readOrEmpty h out.headerLen
      let ciphertext ← (Pointer.library out.ciphertext 0).readOrEmpty h out.ciphertextLen
      some (.message (.ok (header, ciphertext)))
    else (errorOf status).map fun e => .message (.err e)
  | .decrypted status (some out) =>
    if status = 0 then do
      let plaintext ← (Pointer.library out.plaintext 0).readOrEmpty h out.plaintextLen
      some (.plaintext (.ok plaintext))
    else (errorOf status).map fun e => .plaintext (.err e)
  | _ => none

/-! ### Memory of the client -/

section Client

variable {h : Heap (Block K)}

theorem read_client (bytes : Bytes) :
    (Pointer.client bytes).read h bytes.length = some ⟨bytes, rfl⟩ := by
  rw [Pointer.read]
  split
  case isTrue hnull => cases hnull
  split
  case isTrue hlen =>
    cases List.length_eq_zero_iff.mp hlen
    rfl
  case isFalse => simp [Pointer.bytes]

theorem read_client_val {n : ℕ} (v : BytesN n) : (Pointer.client v.1).read h n = some v := by
  obtain ⟨bytes, rfl⟩ := v
  exact read_client bytes

theorem readOrEmpty_client (bytes : Bytes) :
    (Pointer.client bytes).readOrEmpty h bytes.length = some bytes := by
  rw [Pointer.readOrEmpty]
  split
  · rename_i hor
    rw [List.length_eq_zero_iff.mp (hor.resolve_left Bool.false_ne_true)]
  · rw [read_client, Option.map_some]

variable (P : Ratchet.Primitives K) (ofBytes : BytesN 32 → K) (A : Allocator (Block K))

/-- With keys of the client. -/
theorem ratchetInitSender_client (dhS sk : BytesN 32) (receiverDhPublic : BytesN 33) :
    ratchetInitSender P ofBytes A dhS (.client sk.1) (.client receiverDhPublic.1)
      = boxed A (initSender P dhS (ofBytes sk) receiverDhPublic) :=
  funext fun _ => ratchetInitSender_of_some P ofBytes A dhS (read_client_val _)
    (read_client_val _)

theorem ratchetInitReceiver_client (sk receiverDhPrivate : BytesN 32)
    (receiverDhPublic : BytesN 33) :
    ratchetInitReceiver P ofBytes A (.client sk.1) (.client receiverDhPrivate.1)
        (.client receiverDhPublic.1)
      = boxed A (initReceiver P (ofBytes sk) receiverDhPrivate receiverDhPublic) :=
  funext fun _ => ratchetInitReceiver_of_some P ofBytes A (read_client_val _) (read_client_val _)
    (read_client_val _)

end Client

/-! ### What a call does to a block -/

section Frame

variable (P : Ratchet.Primitives K) {h h' : Heap (Block K)} {a : ℕ} {block : Block K}

/-- A buffer is read where it is. -/
theorem readOrEmpty_of_block {ptr : ℕ} {bytes : Bytes}
    (hblock : bytes ≠ [] → h.block ptr = some (.bytes bytes)) :
    (Pointer.library ptr 0).readOrEmpty h bytes.length = some bytes := by
  rw [Pointer.readOrEmpty]
  by_cases hbytes : bytes = []
  · rw [if_pos (.inr (List.length_eq_zero_iff.mpr hbytes)), hbytes]
  · have hne : ptr ≠ 0 := Heap.ne_zero_of_block (hblock hbytes)
    have hnull : ¬ (Pointer.library ptr 0).isNull := by
      simp [Pointer.isNull, hne]
    have hlen : ¬ bytes.length = 0 := mt List.length_eq_zero_iff.mp hbytes
    rw [if_neg (not_or.mpr ⟨hnull, hlen⟩), Pointer.read, if_neg hnull, dif_neg hlen,
      Pointer.bytes, hblock hbytes]
    simp [Block.memory]

theorem readOrEmpty_holdBytes (A : Allocator (Block K)) (bytes : Bytes) :
    (Pointer.library (leakedTo h A bytes) 0).readOrEmpty (holdBytes h bytes (leakedTo h A bytes))
      bytes.length = some bytes :=
  readOrEmpty_of_block (holdBytes_leakedTo h A bytes)

theorem readOrEmpty_holdBytes_twice (A A' : Allocator (Block K)) (bytes bytes' : Bytes) :
    (Pointer.library (leakedTo h A bytes) 0).readOrEmpty
      (holdBytes (holdBytes h bytes (leakedTo h A bytes)) bytes'
        (leakedTo (holdBytes h bytes (leakedTo h A bytes)) A' bytes')) bytes.length
          = some bytes :=
  readOrEmpty_of_block fun hbytes => holdBytes_block _ A' _ (holdBytes_leakedTo h A bytes hbytes)

theorem boxed_block {A : Allocator (Block K)} {state : Option (RatchetState K)} {ptr : ℕ}
    (hrun : boxed A state h = (.ok ptr, h')) (hb : h.block a = some block) :
    h'.block a = some block := by
  cases state with
  | none =>
    cases hrun
    exact hb
  | some state =>
    cases hrun
    exact A.set_block hb _

theorem dropVec_block {ptr len : ℕ} {u : PUnit} (hrun : dropVec ptr len h = (.ok u, h'))
    (hb : h.block a = some block) (hkind : ∀ content, block ≠ .bytes content) :
    h'.block a = some block := by
  rw [dropVec] at hrun
  split at hrun
  · refine Heap.free_block hrun hb fun _ => ?_
    cases block with
    | bytes content => exact absurd rfl (hkind content)
    | state state => rfl
    | text json => rfl
  · cases hrun
    exact hb

theorem fromRawParts_eq_ok {ptr : Pointer} {len : ℕ} {bytes : BytesN len}
    (hrun : fromRawParts ptr len h = (.ok bytes, h')) : h = h' := by
  rw [fromRawParts_apply] at hrun
  exact (Prod.mk.inj hrun).2

theorem ratchetInitSender_eq_ok {ofBytes : BytesN 32 → K} {A : Allocator (Block K)}
    {dhS : BytesN 32} {sk receiverDhPublic : Pointer} {ptr : ℕ}
    (hrun : ratchetInitSender P ofBytes A dhS sk receiverDhPublic h = (.ok ptr, h')) :
    ∃ state, boxed A state h = (.ok ptr, h') := by
  obtain ⟨skKey, h₁, hsk, hrun⟩ := Exec.bind_eq_ok.mp hrun
  obtain ⟨pubKey, h₂, hpub, hrun⟩ := Exec.bind_eq_ok.mp hrun
  obtain rfl := fromRawParts_eq_ok hsk
  obtain rfl := fromRawParts_eq_ok hpub
  exact ⟨_, hrun⟩

theorem ratchetInitReceiver_eq_ok {ofBytes : BytesN 32 → K} {A : Allocator (Block K)}
    {sk receiverDhPrivate receiverDhPublic : Pointer} {ptr : ℕ}
    (hrun : ratchetInitReceiver P ofBytes A sk receiverDhPrivate receiverDhPublic h
      = (.ok ptr, h')) :
    ∃ state, boxed A state h = (.ok ptr, h') := by
  obtain ⟨skKey, h₁, hsk, hrun⟩ := Exec.bind_eq_ok.mp hrun
  obtain ⟨privKey, h₂, hpriv, hrun⟩ := Exec.bind_eq_ok.mp hrun
  obtain ⟨pubKey, h₃, hpub, hrun⟩ := Exec.bind_eq_ok.mp hrun
  obtain rfl := fromRawParts_eq_ok hsk
  obtain rfl := fromRawParts_eq_ok hpriv
  obtain rfl := fromRawParts_eq_ok hpub
  exact ⟨_, hrun⟩

/-- An encryption that returns found a null pointer, or a state and its slices. -/
theorem ratchetEncrypt_eq_ok {A A' : Allocator (Block K)} {statePtr : ℕ} {plaintext ad : Pointer}
    {plaintextLen adLen : ℕ} {output : OutPointer} {x : ℤ × Option RatchetEncryptResult}
    (hrun : ratchetEncrypt P A A' statePtr plaintext plaintextLen ad adLen output h
      = (.ok x, h')) :
    ((statePtr = 0 ∨ output = .null) ∧ h' = h) ∨
      (output = .valid ∧ ∃ state plaintextSlice adSlice, stateAt h statePtr = some state ∧
        plaintext.readOrEmpty h plaintextLen = some plaintextSlice ∧
        ad.readOrEmpty h adLen = some adSlice) := by
  by_cases hnull : statePtr = 0 ∨ output = .null
  · rw [ratchetEncrypt, if_pos hnull] at hrun
    cases hrun
    exact .inl ⟨hnull, rfl⟩
  by_cases hread : (stateAt h statePtr).isSome ∧ (plaintext.readOrEmpty h plaintextLen).isSome ∧
      (ad.readOrEmpty h adLen).isSome
  · obtain ⟨hstate, hplaintext, had⟩ := hread
    obtain ⟨state, hstate⟩ := Option.isSome_iff_exists.mp hstate
    obtain ⟨plaintextSlice, hplaintext⟩ := Option.isSome_iff_exists.mp hplaintext
    obtain ⟨adSlice, had⟩ := Option.isSome_iff_exists.mp had
    cases output with
    | null => exact absurd (.inr rfl) hnull
    | valid => exact .inr ⟨rfl, state, plaintextSlice, adSlice, hstate, hplaintext, had⟩
    | dangling =>
      obtain ⟨h₁, hfail | hfail⟩ := ratchetEncrypt_of_dangling P A A' hstate hplaintext had
      · rw [hfail] at hrun
        cases hrun
      · rw [hfail] at hrun
        cases hrun
  · rw [ratchetEncrypt_of_none P A A' hnull hread] at hrun
    cases hrun

theorem ratchetDecrypt_eq_ok [DecidableEq K] {b : Build} {A : Allocator (Block K)}
    {env : CallEnv K} {statePtr : ℕ} {header ciphertext ad : Pointer}
    {headerLen ciphertextLen adLen : ℕ} {output : OutPointer}
    {x : ℤ × Option RatchetDecryptResult}
    (hrun : ratchetDecrypt P b A env statePtr header headerLen ciphertext ciphertextLen ad adLen
      output h = (.ok x, h')) :
    (((statePtr = 0 ∨ output = .null) ∨ validateInputs header headerLen = false) ∧ h' = h) ∨
      (output = .valid ∧ ∃ state headerSlice ciphertextSlice adSlice,
        stateAt h statePtr = some state ∧ header.read h headerLen = some headerSlice ∧
        ciphertext.readOrEmpty h ciphertextLen = some ciphertextSlice ∧
        ad.readOrEmpty h adLen = some adSlice) := by
  by_cases hnull : statePtr = 0 ∨ output = .null
  · rw [ratchetDecrypt, if_pos hnull] at hrun
    cases hrun
    exact .inl ⟨.inl hnull, rfl⟩
  by_cases hvalid : validateInputs header headerLen = false
  · rw [ratchetDecrypt, if_neg hnull, if_pos hvalid] at hrun
    cases hrun
    exact .inl ⟨.inr hvalid, rfl⟩
  by_cases hread : (stateAt h statePtr).isSome ∧ (header.read h headerLen).isSome ∧
      (ciphertext.readOrEmpty h ciphertextLen).isSome ∧ (ad.readOrEmpty h adLen).isSome
  · obtain ⟨hstate, hheader, hciphertext, had⟩ := hread
    obtain ⟨state, hstate⟩ := Option.isSome_iff_exists.mp hstate
    obtain ⟨headerSlice, hheader⟩ := Option.isSome_iff_exists.mp hheader
    obtain ⟨ciphertextSlice, hciphertext⟩ := Option.isSome_iff_exists.mp hciphertext
    obtain ⟨adSlice, had⟩ := Option.isSome_iff_exists.mp had
    cases output with
    | null => exact absurd (.inr rfl) hnull
    | valid =>
      exact .inr ⟨rfl, state, headerSlice, ciphertextSlice, adSlice, hstate, hheader,
        hciphertext, had⟩
    | dangling =>
      obtain ⟨h₁, hfail | hfail⟩ :=
        ratchetDecrypt_of_dangling P b A env hstate hheader hciphertext had
      · rw [hfail] at hrun
        cases hrun
      · rw [hfail] at hrun
        cases hrun
  · rw [ratchetDecrypt_of_none P b A env hnull hvalid hread] at hrun
    cases hrun

theorem ratchetDeserialize_eq_ok [DecidableEq K] [Json K] {A : Allocator (Block K)}
    {json : Text K} {ptr : ℕ} (hrun : ratchetDeserialize A json h = (.ok ptr, h')) :
    (json.isNull ∧ ptr = 0 ∧ h' = h) ∨ ∃ saved, json.read h = some saved ∧
      boxed A (saved.map Ratchet.deserialize) h = (.ok ptr, h') := by
  rw [ratchetDeserialize] at hrun
  split at hrun
  case isTrue hnull =>
    cases hrun
    exact .inl ⟨hnull, rfl, rfl⟩
  case isFalse =>
    obtain ⟨saved, h₁, hread, hboxed⟩ := Exec.bind_eq_ok.mp hrun
    rw [readText_apply] at hread
    cases hsaved : json.read h with
    | none =>
      rw [hsaved] at hread
      cases hread
    | some saved' =>
      rw [hsaved] at hread
      cases hread
      exact .inr ⟨saved, rfl, hboxed⟩

/-- The state that a call may change. -/
def Call.statePtr : Call K → Option ℕ
  | .encrypt _ _ statePtr _ _ _ _ _ => some statePtr
  | .decrypt _ _ statePtr _ _ _ _ _ _ _ => some statePtr
  | .freeState state => some state
  | _ => none

theorem ne_of_stateAt {ptr : ℕ} {state : RatchetState K} (hb : h.block a = some block)
    (hstate : stateAt h ptr = some state)
    (hne : ∀ state, block = .state state → some ptr ≠ some a) :
    a ≠ ptr := by
  rintro rfl
  rw [stateAt_eq_some, hb, Option.some_inj] at hstate
  exact hne state hstate rfl

/-- A serialisation that returns gave null, or has put the text in new memory. -/
theorem ratchetSerialize_eq_ok [DecidableEq K] [Json K] {A : Allocator (Block K)}
    {mapOrder : Ratchet.HashOrder (K × UInt32)}
    {setOrder : Ratchet.SetOrder (Ratchet.DhPublicKey × UInt32)} {statePtr ptr : ℕ}
    (hrun : ratchetSerialize A mapOrder setOrder statePtr h = (.ok ptr, h')) :
    (ptr = 0 ∧ h' = h) ∨ ∃ state saved, stateAt h statePtr = some state ∧
      Ratchet.serialize mapOrder setOrder state = some saved ∧ ptr = A.next h ∧
      h' = h.set ptr (some (.text (Json.toString saved))) := by
  rw [ratchetSerialize] at hrun
  split at hrun
  · cases hrun
    exact .inl ⟨rfl, rfl⟩
  · rw [Exec.bind_apply, derefState_apply] at hrun
    cases hstate : stateAt h statePtr with
    | none =>
      rw [hstate] at hrun
      cases hrun
    | some state =>
      rw [hstate] at hrun
      revert hrun
      dsimp only [Outcome.okOr_some]
      cases hsaved : Ratchet.serialize mapOrder setOrder state with
      | none =>
        intro hrun
        cases hrun
        exact .inl ⟨rfl, rfl⟩
      | some saved =>
        dsimp only
        rw [if_neg (Json.zero_notMem_toString saved)]
        intro hrun
        cases hrun
        exact .inr ⟨state, saved, rfl, hsaved, rfl, rfl⟩

section Block

variable (hb : h.block a = some block)

include hb

theorem encrypt_block {A A' : Allocator (Block K)} {statePtr : ℕ} {plaintext ad : Pointer}
    {plaintextLen adLen : ℕ} {output : OutPointer} {x : ℤ × Option RatchetEncryptResult}
    (hrun : ratchetEncrypt P A A' statePtr plaintext plaintextLen ad adLen output h
      = (.ok x, h'))
    (hstate : ∀ state, block = .state state → some statePtr ≠ some a) :
    h'.block a = some block := by
  rcases ratchetEncrypt_eq_ok P hrun with
    ⟨-, rfl⟩ | ⟨rfl, state, plaintextSlice, adSlice, hst, hplaintext, had⟩
  · exact hb
  have hne := ne_of_stateAt hb hst hstate
  rw [ratchetEncrypt_of_some P A A' hst hplaintext had] at hrun
  split at hrun
  · -- the two buffers are where nothing was
    cases hrun
    refine holdBytes_block _ _ _ (holdBytes_block _ _ _ ?_)
    rwa [Heap.set_block_of_ne _ hne]
  · cases hrun
    rwa [Heap.set_block_of_ne _ hne]
  · cases hrun

theorem decrypt_block [DecidableEq K] {b : Build} {A : Allocator (Block K)} {env : CallEnv K}
    {statePtr : ℕ} {header ciphertext ad : Pointer} {headerLen ciphertextLen adLen : ℕ}
    {output : OutPointer} {x : ℤ × Option RatchetDecryptResult}
    (hrun : ratchetDecrypt P b A env statePtr header headerLen ciphertext ciphertextLen ad adLen
      output h = (.ok x, h'))
    (hstate : ∀ state, block = .state state → some statePtr ≠ some a) :
    h'.block a = some block := by
  rcases ratchetDecrypt_eq_ok P hrun with
    ⟨-, rfl⟩ | ⟨rfl, state, headerSlice, ciphertextSlice, adSlice, hst, hheader,
      hciphertext, had⟩
  · exact hb
  have hne := ne_of_stateAt hb hst hstate
  rw [ratchetDecrypt_of_some P b A env hst hheader hciphertext had] at hrun
  split at hrun
  · cases hrun
    refine holdBytes_block _ _ _ ?_
    rwa [Heap.set_block_of_ne _ hne]
  · cases hrun
    rwa [Heap.set_block_of_ne _ hne]
  · cases hrun

theorem ratchetFree_block {ptr : ℕ} {u : PUnit} (hrun : ratchetFree ptr h = (.ok u, h'))
    (hstate : ∀ state, block = .state state → some ptr ≠ some a) : h'.block a = some block := by
  rw [ratchetFree] at hrun
  split at hrun
  · cases hrun
    exact hb
  · refine Heap.free_block hrun hb fun heq => ?_
    cases block with
    | state state => exact absurd (congrArg some heq) (hstate state rfl)
    | bytes content => rfl
    | text json => rfl

theorem ratchetFreeString_block {ptr : ℕ} {u : PUnit}
    (hrun : ratchetFreeString ptr h = (.ok u, h')) (htext : ∀ json, block ≠ .text json) :
    h'.block a = some block := by
  rw [ratchetFreeString] at hrun
  split at hrun
  · cases hrun
    exact hb
  · refine Heap.free_block hrun hb fun _ => ?_
    cases block with
    | state state => rfl
    | bytes content => rfl
    | text json => exact absurd rfl (htext json)

end Block

/-- **What a call leaves alone**: every state but the one it is about. -/
theorem run_block [DecidableEq K] [Json K] {ofBytes : BytesN 32 → K} {b : Build} {c : Call K}
    {r : Reply} (hrun : c.run P ofBytes b h = (.ok r, h')) {state : RatchetState K}
    (hb : h.block a = some (.state state)) (hne : c.statePtr ≠ some a) :
    h'.block a = some (.state state) := by
  -- every call is a run of its function, whose result is wrapped
  cases c with
  | initSender A dhS sk receiverDhPublic =>
    obtain ⟨ptr, h₁, hinit, hrest⟩ := Exec.bind_eq_ok.mp hrun
    cases hrest
    obtain ⟨st, hboxed⟩ := ratchetInitSender_eq_ok P hinit
    exact boxed_block hboxed hb
  | initReceiver A sk receiverDhPrivate receiverDhPublic =>
    obtain ⟨ptr, h₁, hinit, hrest⟩ := Exec.bind_eq_ok.mp hrun
    cases hrest
    obtain ⟨st, hboxed⟩ := ratchetInitReceiver_eq_ok P hinit
    exact boxed_block hboxed hb
  | encrypt A A' statePtr plaintext plaintextLen ad adLen output =>
    obtain ⟨x, h₁, hencrypt, hrest⟩ := Exec.bind_eq_ok.mp hrun
    cases hrest
    exact encrypt_block P hb hencrypt fun _ _ => hne
  | decrypt A env statePtr header headerLen ciphertext ciphertextLen ad adLen output =>
    obtain ⟨x, h₁, hdecrypt, hrest⟩ := Exec.bind_eq_ok.mp hrun
    cases hrest
    exact decrypt_block P hb hdecrypt fun _ _ => hne
  | serialize A mapOrder setOrder statePtr =>
    obtain ⟨ptr, h₁, hserialize, hrest⟩ := Exec.bind_eq_ok.mp hrun
    cases hrest
    rcases ratchetSerialize_eq_ok hserialize with ⟨-, rfl⟩ | ⟨st, saved, -, -, rfl, rfl⟩
    · exact hb
    · exact A.set_block hb _
  | deserialize A json =>
    obtain ⟨ptr, h₁, hdeserialize, hrest⟩ := Exec.bind_eq_ok.mp hrun
    cases hrest
    rcases ratchetDeserialize_eq_ok hdeserialize with ⟨-, -, rfl⟩ | ⟨saved, -, hboxed⟩
    · exact hb
    · exact boxed_block hboxed hb
  | freeState ptr =>
    obtain ⟨u, h₁, hfree, hrest⟩ := Exec.bind_eq_ok.mp hrun
    cases hrest
    exact ratchetFree_block hb hfree fun _ _ => hne
  | freeResultBuffers header headerLen ciphertext ciphertextLen =>
    obtain ⟨u, h₁, hfree, hrest⟩ := Exec.bind_eq_ok.mp hrun
    cases hrest
    obtain ⟨u', h₂, hdrop, hdrop'⟩ := Exec.bind_eq_ok.mp hfree
    have hfirst := dropVec_block hdrop hb fun content heq => by cases heq
    exact dropVec_block hdrop' hfirst fun content heq => by cases heq
  | freeByteBuffer buffer len =>
    obtain ⟨u, h₁, hfree, hrest⟩ := Exec.bind_eq_ok.mp hrun
    cases hrest
    exact dropVec_block hfree hb fun content heq => by cases heq
  | freeString s =>
    obtain ⟨u, h₁, hfree, hrest⟩ := Exec.bind_eq_ok.mp hrun
    cases hrest
    exact ratchetFreeString_block hb hfree fun json heq => by cases heq

end Frame

end Ffi
