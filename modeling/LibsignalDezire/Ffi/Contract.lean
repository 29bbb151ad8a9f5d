/-
The contract of the C API.

A client knows what it has been handed out and has not given back, and what is in its
buffers and strings: its `Ledger`, kept from its own calls and their replies.  The safety
comments of the functions say which pointers it may pass; `Respects` says so of the
ledger.

* `run_of_respects`, `run_of_breaks` — a call that respects the contract returns, unless
  the ratchet panics, and no other call does;
* `contract_exact` — **memory safety**: in every run of a client the calls return exactly
  as long as they respect the contract and the ratchet does not panic, and up to there
  the library's memory is exactly what the client's ledger says, so nothing leaks.
-/
import LibsignalDezire.Ffi.Ratchet
import LibsignalDezire.Lib.Machine

namespace Ffi

open Ratchet (RatchetState SavedState Json Build)

variable {K : Type}

/-! ### The ledger -/

/-- What a client knows of a block: that it is a state, or what is in it. -/
inductive Kind where
  | state
  | bytes (content : Bytes)
  | text (json : Bytes)
  deriving DecidableEq

def Block.kind : Block K → Kind
  | state _ => .state
  | bytes content => .bytes content
  | text json => .text json

def Kind.memory : Kind → Option Bytes
  | state => none
  | bytes content => some content
  | text json => some (json ++ [0])

theorem Block.memory_kind (block : Block K) : block.kind.memory = block.memory := by
  cases block <;> rfl

/-- The addresses that a client has been handed out. -/
abbrev Ledger := Heap Kind

namespace Ledger

/-- The client looks at what it has been handed out. -/
def look (L : Ledger) (h : Heap (Block K)) (ptr : ℕ) : Ledger :=
  L.set ptr ((h.block ptr).map Block.kind)

/-- An empty buffer is not recorded: there is nothing to give back. -/
def hold (L : Ledger) (h : Heap (Block K)) (ptr len : ℕ) : Ledger :=
  if len = 0 then L else L.look h ptr

def drop (L : Ledger) (ptr len : ℕ) : Ledger := if len = 0 then L else L.set ptr none

/-- What the client notes of a reply, with the memory as it is then. -/
def record (L : Ledger) (h : Heap (Block K)) : Call K → Reply → Ledger
  | .initSender .., .pointer ptr => L.look h ptr
  | .initReceiver .., .pointer ptr => L.look h ptr
  | .deserialize .., .pointer ptr => L.look h ptr
  | .serialize .., .pointer ptr => L.look h ptr
  | .encrypt .., .encrypted _ (some out) =>
    (L.hold h out.header out.headerLen).hold h out.ciphertext out.ciphertextLen
  | .decrypt .., .decrypted _ (some out) => L.hold h out.plaintext out.plaintextLen
  | .freeState state, _ => L.set state none
  | .freeResultBuffers header headerLen ciphertext ciphertextLen, _ =>
    (L.drop header headerLen).drop ciphertext ciphertextLen
  | .freeByteBuffer buffer len, _ => L.drop buffer len
  | .freeString s, _ => L.set s none
  | _, _ => L

/-- What the memory contains from a pointer on. -/
def bytes (L : Ledger) : Pointer → Option Bytes
  | .client bytes => some bytes
  | .library addr offset => ((L.block addr).bind Kind.memory).map (List.drop offset)

/-- A slice may be made of `ptr` and `len`. -/
def Readable (L : Ledger) (ptr : Pointer) (len : ℕ) : Prop :=
  ptr.isNull = false ∧ (len = 0 ∨ ∃ bytes, L.bytes ptr = some bytes ∧ len ≤ bytes.length)

/-- So it may, or it need not. -/
def ReadableOrEmpty (L : Ledger) (ptr : Pointer) (len : ℕ) : Prop :=
  (ptr.isNull ∨ len = 0) ∨ L.Readable ptr len

/-- There is a C string. -/
def Terminated (L : Ledger) : Text K → Prop
  | .client _ => True
  | .unterminated => False
  | .library addr offset => ∃ bytes, L.bytes (.library addr offset) = some bytes ∧ 0 ∈ bytes

/-- A buffer may be given back. -/
def Held (L : Ledger) (ptr len : ℕ) : Prop :=
  ptr = 0 ∨ len = 0 ∨ ∃ content, L.block ptr = some (.bytes content) ∧ content.length = len

/-- **The contract.**  Pointers to states, buffers and strings are null or have been
handed out and not given back; buffers are given back with their lengths, and what is
read or written can be. -/
def Respects (L : Ledger) : Call K → Prop
  | .initSender _ _ sk receiverDhPublic => L.Readable sk 32 ∧ L.Readable receiverDhPublic 33
  | .initReceiver _ sk receiverDhPrivate receiverDhPublic =>
    L.Readable sk 32 ∧ L.Readable receiverDhPrivate 32 ∧ L.Readable receiverDhPublic 33
  | .encrypt _ _ statePtr plaintext plaintextLen ad adLen output =>
    (statePtr = 0 ∨ output = .null) ∨ L.block statePtr = some .state ∧
      L.ReadableOrEmpty plaintext plaintextLen ∧ L.ReadableOrEmpty ad adLen ∧ output = .valid
  | .decrypt _ _ statePtr header headerLen ciphertext ciphertextLen ad adLen output =>
    (statePtr = 0 ∨ output = .null) ∨ validateInputs header headerLen = false ∨
      L.block statePtr = some .state ∧ L.Readable header headerLen ∧
      L.ReadableOrEmpty ciphertext ciphertextLen ∧ L.ReadableOrEmpty ad adLen ∧ output = .valid
  | .serialize _ _ _ statePtr => statePtr = 0 ∨ L.block statePtr = some .state
  | .deserialize _ json => json.isNull ∨ L.Terminated json
  | .freeState state => state = 0 ∨ L.block state = some .state
  | .freeResultBuffers header headerLen ciphertext ciphertextLen =>
    L.Held header headerLen ∧ (L.drop header headerLen).Held ciphertext ciphertextLen
  | .freeByteBuffer buffer len => L.Held buffer len
  | .freeString s => s = 0 ∨ ∃ json, L.block s = some (.text json)

end Ledger

/-! ### Reading -/

section Read

variable (h : Heap (Block K))

/-- The state at an address. -/
def stateAt (ptr : ℕ) : Option (RatchetState K) :=
  match h.block ptr with
  | some (.state state) => some state
  | _ => none

/-- What the memory contains from a pointer on. -/
def Pointer.bytes : Pointer → Option Bytes
  | .client bytes => some bytes
  | .library addr offset => ((h.block addr).bind Block.memory).map (List.drop offset)

/-- The bytes that a slice contains. -/
def Pointer.read (ptr : Pointer) (len : ℕ) : Option (BytesN len) :=
  if ptr.isNull then none
  else if hlen : len = 0 then some ⟨[], length_nil_of_eq_zero hlen⟩
  else (ptr.bytes h).bind fun bytes =>
    if hle : len ≤ bytes.length then some ⟨bytes.take len, List.length_take_of_le hle⟩ else none

def Pointer.readOrEmpty (ptr : Pointer) (len : ℕ) : Option Bytes :=
  if ptr.isNull ∨ len = 0 then some [] else (ptr.read h len).map Subtype.val

/-- What is read in a C string. -/
def Text.read [Json K] : Text K → Option (Option (SavedState K))
  | .client saved => some saved
  | .unterminated => none
  | .library addr offset => ((Pointer.library addr offset).bytes h).bind fun bytes =>
    if 0 ∈ bytes then some (Json.fromStr (bytes.takeWhile (· ≠ 0))) else none

theorem derefState_apply (ptr : ℕ) :
    derefState ptr h = (Outcome.okOr .undefined (stateAt h ptr), h) := by
  rw [derefState, Exec.bind_apply, stateAt]
  cases hb : h.block ptr with
  | none =>
    rw [Heap.load_of_none hb]
    rfl
  | some block =>
    rw [Heap.load_of_some hb]
    cases block <;> rfl

theorem bytesFrom_apply (ptr : Pointer) :
    bytesFrom ptr h = (Outcome.okOr .undefined (ptr.bytes h), h) := by
  cases ptr with
  | client bytes => rfl
  | library addr offset =>
    rw [bytesFrom, Pointer.bytes, Exec.bind_apply]
    cases hb : h.block addr with
    | none =>
      rw [Heap.load_of_none hb]
      rfl
    | some block =>
      rw [Heap.load_of_some hb]
      cases block <;> rfl

theorem fromRawParts_apply (ptr : Pointer) (len : ℕ) :
    fromRawParts ptr len h = (Outcome.okOr .undefined (ptr.read h len), h) := by
  rw [fromRawParts, Pointer.read]
  split
  · rfl
  split
  · rfl
  rw [Exec.bind_apply, bytesFrom_apply]
  cases ptr.bytes h with
  | none => rfl
  | some bytes =>
    dsimp only [Outcome.okOr_some, Option.bind_some]
    split <;> rfl

theorem sliceOrEmpty_apply (ptr : Pointer) (len : ℕ) :
    sliceOrEmpty ptr len h = (Outcome.okOr .undefined (ptr.readOrEmpty h len), h) := by
  rw [sliceOrEmpty, Pointer.readOrEmpty]
  split
  · rfl
  · rw [Exec.bind_apply, fromRawParts_apply]
    cases ptr.read h len <;> rfl

theorem readText_apply [Json K] (json : Text K) :
    readText json h = (Outcome.okOr .undefined (json.read h), h) := by
  cases json with
  | client saved => rfl
  | unterminated => rfl
  | library addr offset =>
    rw [readText, Exec.bind_apply, bytesFrom_apply, Text.read]
    cases (Pointer.library addr offset).bytes h with
    | none => rfl
    | some bytes =>
      dsimp only [Outcome.okOr_some, Option.bind_some]
      split <;> rfl

theorem stateAt_isSome {ptr : ℕ} :
    (stateAt h ptr).isSome ↔ (h.map Block.kind).block ptr = some .state := by
  rw [stateAt, Heap.map_block]
  cases h.block ptr with
  | none => simp
  | some block => cases block <;> simp [Block.kind]

theorem stateAt_eq_some {ptr : ℕ} {state : RatchetState K} :
    stateAt h ptr = some state ↔ h.block ptr = some (.state state) := by
  rw [stateAt]
  split
  · rename_i st hb
    rw [hb, Option.some_inj, Option.some_inj, Block.state.injEq]
  · rename_i hb
    exact iff_of_false (fun heq => Option.some_ne_none _ heq.symm) (hb state)

theorem Ledger.bytes_map (ptr : Pointer) :
    Ledger.bytes (h.map Block.kind) ptr = ptr.bytes h := by
  cases ptr with
  | client bytes => rfl
  | library addr offset =>
    rw [Ledger.bytes, Pointer.bytes, Heap.map_block]
    cases h.block addr with
    | none => rfl
    | some block => rw [Option.map_some, Option.bind_some, Option.bind_some, Block.memory_kind]

theorem Pointer.read_isSome {ptr : Pointer} {len : ℕ} :
    (ptr.read h len).isSome ↔ Ledger.Readable (h.map Block.kind) ptr len := by
  rw [Pointer.read, Ledger.Readable, Ledger.bytes_map]
  split
  case isTrue hnull => simp [hnull]
  split
  case isTrue hnull hlen => simp [hnull, hlen]
  case isFalse hnull hlen =>
    cases ptr.bytes h with
    | none => simp [hlen]
    | some bytes =>
      rw [Option.bind_some]
      split <;> simp_all

theorem Pointer.readOrEmpty_isSome {ptr : Pointer} {len : ℕ} :
    (ptr.readOrEmpty h len).isSome ↔ Ledger.ReadableOrEmpty (h.map Block.kind) ptr len := by
  rw [Pointer.readOrEmpty, Ledger.ReadableOrEmpty]
  split
  · exact iff_of_true rfl (.inl ‹_›)
  · rw [Option.isSome_map, Pointer.read_isSome]
    exact ⟨Or.inr, fun hor => hor.resolve_left ‹_›⟩

theorem Text.read_isSome [Json K] {json : Text K} :
    (json.read h).isSome ↔ Ledger.Terminated (h.map Block.kind) json := by
  cases json with
  | client saved => exact iff_of_true rfl trivial
  | unterminated => exact iff_of_false Bool.false_ne_true id
  | library addr offset =>
    rw [Text.read, Ledger.Terminated, Ledger.bytes_map]
    cases (Pointer.library addr offset).bytes h with
    | none => simp
    | some bytes =>
      rw [Option.bind_some]
      split <;> simp_all

end Read

/-! ### Buffers -/

section Buffers

variable (h : Heap (Block K)) (A : Allocator (Block K)) (bytes : Bytes)

/-- Where `leak` puts a `Vec`. -/
def leakedTo : ℕ := if bytes = [] then 1 else A.next h

/-- The memory with the bytes of a `Vec` at `ptr`. -/
def holdBytes (ptr : ℕ) : Heap (Block K) :=
  if bytes = [] then h else h.set ptr (some (.bytes bytes))

theorem leak_apply :
    leak A bytes h = (.ok (leakedTo h A bytes), holdBytes h bytes (leakedTo h A bytes)) := by
  rw [leak, leakedTo, holdBytes]
  split <;> rfl

theorem holdBytes_leakedTo (hbytes : bytes ≠ []) :
    (holdBytes h bytes (leakedTo h A bytes)).block (leakedTo h A bytes)
      = some (.bytes bytes) := by
  rw [holdBytes, leakedTo, if_neg hbytes, if_neg hbytes]
  exact Heap.set_block_self _ (A.ne_zero h) _

/-- Leaking a `Vec` leaves the other blocks alone. -/
theorem holdBytes_block {a : ℕ} {block : Block K} (hb : h.block a = some block) :
    (holdBytes h bytes (leakedTo h A bytes)).block a = some block := by
  rw [holdBytes, leakedTo]
  split
  · exact hb
  · exact A.set_block hb _

/-- The client finds the bytes of a `Vec` that was put at `ptr`. -/
theorem map_holdBytes {h' : Heap (Block K)} {ptr : ℕ}
    (hblock : bytes ≠ [] → h'.block ptr = some (.bytes bytes)) :
    (holdBytes h bytes ptr).map Block.kind
      = Ledger.hold (h.map Block.kind) h' ptr bytes.length := by
  rw [holdBytes, Ledger.hold]
  by_cases hb : bytes = []
  · rw [if_pos hb, if_pos (List.length_eq_zero_iff.mpr hb)]
  · rw [if_neg hb, if_neg (mt List.length_eq_zero_iff.mp hb), Heap.map_set,
      Ledger.look, hblock hb]

/-- The client finds what was put at `ptr`. -/
theorem eq_look {L : Ledger} {ptr : ℕ} {kind : Option Kind}
    (hset : h.map Block.kind = L.set ptr kind) : h.map Block.kind = L.look h ptr := by
  rw [Ledger.look]
  by_cases hptr : ptr = 0
  · rw [hset, hptr, Heap.set_null, Heap.set_null]
  · have hblock : (h.block ptr).map Block.kind = kind := by
      rw [← Heap.map_block, hset, Heap.set_block_self _ hptr]
    rw [hblock, hset]

theorem dropVec_of_held {ptr len : ℕ} (hheld : Ledger.Held (h.map Block.kind) ptr len) :
    ∃ h' : Heap (Block K), dropVec ptr len h = (.ok ⟨⟩, h') ∧
      h'.map Block.kind = Ledger.drop (h.map Block.kind) ptr len := by
  rw [dropVec, Ledger.drop]
  by_cases hlen : len = 0
  · refine ⟨h, ?_, by rw [if_pos hlen]⟩
    rw [if_neg (fun hp => hp.2.ne' hlen)]
    rfl
  rw [if_neg hlen]
  by_cases hptr : ptr = 0
  · refine ⟨h, ?_, by rw [hptr, Heap.set_null]⟩
    rw [if_neg (fun hp => hp.1 hptr)]
    rfl
  -- an empty buffer and a null one are not given back; this is neither
  obtain ⟨content, hblock, hcontent⟩ := (hheld.resolve_left hptr).resolve_left hlen
  obtain ⟨block, hb, hkind⟩ := Option.map_eq_some_iff.mp hblock
  refine ⟨h.set ptr none, ?_, by rw [Heap.map_set, Option.map_none]⟩
  rw [if_pos ⟨hptr, Nat.pos_of_ne_zero hlen⟩]
  refine Heap.free_of_some hb ?_
  cases block with
  | bytes content =>
    cases hkind
    exact beq_iff_eq.mpr hcontent
  | state state => cases hkind
  | text json => cases hkind

theorem dropVec_of_not_held {ptr len : ℕ} (hheld : ¬ Ledger.Held (h.map Block.kind) ptr len) :
    dropVec ptr len h = (.err .undefined, h) := by
  rw [Ledger.Held, not_or, not_or] at hheld
  obtain ⟨hptr, hlen, hblock⟩ := hheld
  rw [dropVec, if_pos ⟨hptr, Nat.pos_of_ne_zero hlen⟩]
  refine Heap.free_of_not ?_
  intro block hb hl
  rw [Heap.map_block, hb] at hblock
  cases block with
  | bytes content => exact hblock ⟨content, rfl, beq_iff_eq.mp hl⟩
  | state state => cases hl
  | text json => cases hl

theorem ratchetFree_of_held {state : ℕ}
    (hheld : state = 0 ∨ (h.map Block.kind).block state = some .state) :
    ratchetFree state h = (.ok ⟨⟩, h.set state none) := by
  rw [ratchetFree]
  by_cases hnull : state = 0
  · rw [if_pos hnull, hnull, Heap.set_null]
    rfl
  obtain ⟨block, hb, hkind⟩ := Option.map_eq_some_iff.mp (hheld.resolve_left hnull)
  rw [if_neg hnull, Heap.free_of_some hb]
  cases block with
  | state st => rfl
  | bytes content => cases hkind
  | text json => cases hkind

theorem ratchetFree_of_not_held {state : ℕ}
    (hheld : ¬ (state = 0 ∨ (h.map Block.kind).block state = some .state)) :
    ratchetFree state h = (.err .undefined, h) := by
  obtain ⟨hnull, hstate⟩ := not_or.mp hheld
  rw [ratchetFree, if_neg hnull, Heap.free_of_not]
  intro block hb hl
  rw [Heap.map_block, hb] at hstate
  cases block with
  | state st => exact hstate rfl
  | bytes content => cases hl
  | text json => cases hl

theorem ratchetFreeString_of_held {s : ℕ}
    (hheld : s = 0 ∨ ∃ json, (h.map Block.kind).block s = some (.text json)) :
    ratchetFreeString s h = (.ok ⟨⟩, h.set s none) := by
  rw [ratchetFreeString]
  by_cases hnull : s = 0
  · rw [if_pos hnull, hnull, Heap.set_null]
    rfl
  obtain ⟨json, hblock⟩ := hheld.resolve_left hnull
  obtain ⟨block, hb, hkind⟩ := Option.map_eq_some_iff.mp hblock
  rw [if_neg hnull, Heap.free_of_some hb]
  cases block with
  | state st => cases hkind
  | bytes content => cases hkind
  | text json => rfl

theorem ratchetFreeString_of_not_held {s : ℕ}
    (hheld : ¬ (s = 0 ∨ ∃ json, (h.map Block.kind).block s = some (.text json))) :
    ratchetFreeString s h = (.err .undefined, h) := by
  obtain ⟨hnull, htext⟩ := not_or.mp hheld
  rw [ratchetFreeString, if_neg hnull, Heap.free_of_not]
  intro block hb hl
  rw [Heap.map_block, hb] at htext
  cases block with
  | state st => cases hl
  | bytes content => cases hl
  | text json => exact htext ⟨json, rfl⟩

end Buffers

/-! ### What the calls do -/

section Calls

variable (P : Ratchet.Primitives K) {h : Heap (Block K)}

section Encrypt

variable (A A' : Allocator (Block K)) {statePtr : ℕ} {plaintext ad : Pointer}
  {plaintextLen adLen : ℕ}

/-- `ratchet_encrypt_ffi` on a state and slices. -/
theorem ratchetEncrypt_of_some {state : RatchetState K} {plaintextSlice adSlice : Bytes}
    (hstate : stateAt h statePtr = some state)
    (hplaintext : plaintext.readOrEmpty h plaintextLen = some plaintextSlice)
    (had : ad.readOrEmpty h adLen = some adSlice) :
    ratchetEncrypt P A A' statePtr plaintext plaintextLen ad adLen .valid h =
      match Ratchet.encrypt P plaintextSlice adSlice state with
      | (.ok (header, ciphertext), state') =>
        let h₁ := h.set statePtr (some (.state state'))
        let h₂ := holdBytes h₁ header (leakedTo h₁ A header)
        (.ok (0, some ⟨leakedTo h₁ A header, header.length, leakedTo h₂ A' ciphertext,
          ciphertext.length, 0⟩), holdBytes h₂ ciphertext (leakedTo h₂ A' ciphertext))
      | (.err e, state') =>
        (.ok (mapError e, some ⟨0, 0, 0, 0, mapError e⟩), h.set statePtr (some (.state state')))
      | (.panic, _) => (.panic, h) := by
  have hblock := (stateAt_eq_some h).mp hstate
  have hne : ¬ (statePtr = 0 ∨ OutPointer.valid = .null) := by
    rintro (h0 | h0)
    · exact Heap.ne_zero_of_block hblock h0
    · cases h0
  rw [ratchetEncrypt, if_neg hne]
  simp only [Exec.bind_apply, derefState_apply, sliceOrEmpty_apply, hstate, hplaintext, had,
    Outcome.okOr_some]
  rcases Ratchet.encrypt P plaintextSlice adSlice state
    with ⟨⟨header, ciphertext⟩ | e | _, state'⟩
  · simp only [Exec.bind_apply, Heap.store_of_some hblock, leak_apply, OutPointer.write,
      Exec.pure_apply]
  · simp only [Exec.bind_apply, Heap.store_of_some hblock, OutPointer.write, Exec.pure_apply]
  · rfl

/-- There is nothing to write the result to. -/
theorem ratchetEncrypt_of_dangling {state : RatchetState K} {plaintextSlice adSlice : Bytes}
    (hstate : stateAt h statePtr = some state)
    (hplaintext : plaintext.readOrEmpty h plaintextLen = some plaintextSlice)
    (had : ad.readOrEmpty h adLen = some adSlice) :
    ∃ h', ratchetEncrypt P A A' statePtr plaintext plaintextLen ad adLen .dangling h
        = (.err .undefined, h') ∨
      ratchetEncrypt P A A' statePtr plaintext plaintextLen ad adLen .dangling h
        = (.panic, h') := by
  have hblock := (stateAt_eq_some h).mp hstate
  have hne : ¬ (statePtr = 0 ∨ OutPointer.dangling = .null) := by
    rintro (h0 | h0)
    · exact Heap.ne_zero_of_block hblock h0
    · cases h0
  rw [ratchetEncrypt, if_neg hne]
  simp only [Exec.bind_apply, derefState_apply, sliceOrEmpty_apply, hstate, hplaintext, had,
    Outcome.okOr_some]
  rcases Ratchet.encrypt P plaintextSlice adSlice state
    with ⟨⟨header, ciphertext⟩ | e | _, state'⟩
  · simp only [Exec.bind_apply, Heap.store_of_some hblock, leak_apply]
    exact ⟨_, .inl rfl⟩
  · simp only [Exec.bind_apply, Heap.store_of_some hblock]
    exact ⟨_, .inl rfl⟩
  · exact ⟨_, .inr rfl⟩

theorem ratchetEncrypt_of_none {output : OutPointer} (hne : ¬ (statePtr = 0 ∨ output = .null))
    (hnone : ¬ ((stateAt h statePtr).isSome ∧ (plaintext.readOrEmpty h plaintextLen).isSome ∧
      (ad.readOrEmpty h adLen).isSome)) :
    ratchetEncrypt P A A' statePtr plaintext plaintextLen ad adLen output h
      = (.err .undefined, h) := by
  rw [ratchetEncrypt, if_neg hne]
  simp only [Exec.bind_apply, derefState_apply, sliceOrEmpty_apply]
  cases hstate : stateAt h statePtr with
  | none => rfl
  | some state =>
    simp only [Outcome.okOr_some]
    cases hplaintext : plaintext.readOrEmpty h plaintextLen with
    | none => rfl
    | some plaintextSlice =>
      simp only [Outcome.okOr_some]
      cases had : ad.readOrEmpty h adLen with
      | none => rfl
      | some adSlice => exact absurd ⟨by rw [hstate]; rfl, by rw [hplaintext]; rfl,
          by rw [had]; rfl⟩ hnone

end Encrypt

section Decrypt

variable [DecidableEq K] (b : Build) (A : Allocator (Block K)) (env : Ratchet.CallEnv K)
  {statePtr : ℕ} {header ciphertext ad : Pointer} {headerLen ciphertextLen adLen : ℕ}

omit [DecidableEq K] in
theorem not_validateInputs_eq_false {headerSlice : BytesN headerLen}
    (hheader : header.read h headerLen = some headerSlice) :
    ¬ validateInputs header headerLen = false := by
  have hread : (header.read h headerLen).isSome := by
    rw [hheader]
    rfl
  have hnull := ((Pointer.read_isSome h).mp hread).1
  simp [validateInputs, hnull]

/-- `ratchet_decrypt_ffi` on a state and slices. -/
theorem ratchetDecrypt_of_some {state : RatchetState K} {headerSlice : BytesN headerLen}
    {ciphertextSlice adSlice : Bytes}
    (hstate : stateAt h statePtr = some state)
    (hheader : header.read h headerLen = some headerSlice)
    (hciphertext : ciphertext.readOrEmpty h ciphertextLen = some ciphertextSlice)
    (had : ad.readOrEmpty h adLen = some adSlice) :
    ratchetDecrypt P b A env statePtr header headerLen ciphertext ciphertextLen ad
      adLen .valid h =
      match Ratchet.decrypt P b env headerSlice.1 ciphertextSlice adSlice state with
      | (.ok plaintext, state') =>
        let h₁ := h.set statePtr (some (.state state'))
        (.ok (0, some ⟨leakedTo h₁ A plaintext, plaintext.length, 0⟩),
          holdBytes h₁ plaintext (leakedTo h₁ A plaintext))
      | (.err e, state') =>
        (.ok (mapError e, some ⟨0, 0, mapError e⟩), h.set statePtr (some (.state state')))
      | (.panic, _) => (.panic, h) := by
  have hblock := (stateAt_eq_some h).mp hstate
  have hne : ¬ (statePtr = 0 ∨ OutPointer.valid = .null) := by
    rintro (h0 | h0)
    · exact Heap.ne_zero_of_block hblock h0
    · cases h0
  rw [ratchetDecrypt, if_neg hne, if_neg (not_validateInputs_eq_false hheader)]
  simp only [Exec.bind_apply, derefState_apply, sliceOrEmpty_apply, fromRawParts_apply, hstate,
    hheader, hciphertext, had, Outcome.okOr_some]
  rcases Ratchet.decrypt P b env headerSlice.1 ciphertextSlice adSlice state with
    ⟨plaintext | e | _, state'⟩
  · simp only [Exec.bind_apply, Heap.store_of_some hblock, leak_apply, OutPointer.write,
      Exec.pure_apply]
  · simp only [Exec.bind_apply, Heap.store_of_some hblock, OutPointer.write, Exec.pure_apply]
  · rfl

theorem ratchetDecrypt_of_dangling {state : RatchetState K} {headerSlice : BytesN headerLen}
    {ciphertextSlice adSlice : Bytes}
    (hstate : stateAt h statePtr = some state)
    (hheader : header.read h headerLen = some headerSlice)
    (hciphertext : ciphertext.readOrEmpty h ciphertextLen = some ciphertextSlice)
    (had : ad.readOrEmpty h adLen = some adSlice) :
    ∃ h', ratchetDecrypt P b A env statePtr header headerLen ciphertext ciphertextLen ad adLen
        .dangling h = (.err .undefined, h') ∨
      ratchetDecrypt P b A env statePtr header headerLen ciphertext ciphertextLen ad adLen
        .dangling h = (.panic, h') := by
  have hblock := (stateAt_eq_some h).mp hstate
  have hne : ¬ (statePtr = 0 ∨ OutPointer.dangling = .null) := by
    rintro (h0 | h0)
    · exact Heap.ne_zero_of_block hblock h0
    · cases h0
  rw [ratchetDecrypt, if_neg hne, if_neg (not_validateInputs_eq_false hheader)]
  simp only [Exec.bind_apply, derefState_apply, sliceOrEmpty_apply, fromRawParts_apply, hstate,
    hheader, hciphertext, had, Outcome.okOr_some]
  rcases Ratchet.decrypt P b env headerSlice.1 ciphertextSlice adSlice state with
    ⟨plaintext | e | _, state'⟩
  · simp only [Exec.bind_apply, Heap.store_of_some hblock, leak_apply]
    exact ⟨_, .inl rfl⟩
  · simp only [Exec.bind_apply, Heap.store_of_some hblock]
    exact ⟨_, .inl rfl⟩
  · exact ⟨_, .inr rfl⟩

theorem ratchetDecrypt_of_none {output : OutPointer} (hne : ¬ (statePtr = 0 ∨ output = .null))
    (hvalid : ¬ validateInputs header headerLen = false)
    (hnone : ¬ ((stateAt h statePtr).isSome ∧ (header.read h headerLen).isSome ∧
      (ciphertext.readOrEmpty h ciphertextLen).isSome ∧ (ad.readOrEmpty h adLen).isSome)) :
    ratchetDecrypt P b A env statePtr header headerLen ciphertext ciphertextLen ad adLen output h
      = (.err .undefined, h) := by
  rw [ratchetDecrypt, if_neg hne, if_neg hvalid]
  simp only [Exec.bind_apply, derefState_apply, sliceOrEmpty_apply, fromRawParts_apply]
  cases hstate : stateAt h statePtr with
  | none => rfl
  | some state =>
    simp only [Outcome.okOr_some]
    cases hheader : header.read h headerLen with
    | none => rfl
    | some headerSlice =>
      simp only [Outcome.okOr_some]
      cases hciphertext : ciphertext.readOrEmpty h ciphertextLen with
      | none => rfl
      | some ciphertextSlice =>
        simp only [Outcome.okOr_some]
        cases had : ad.readOrEmpty h adLen with
        | none => rfl
        | some adSlice => exact absurd ⟨by rw [hstate]; rfl, by rw [hheader]; rfl,
            by rw [hciphertext]; rfl, by rw [had]; rfl⟩ hnone

end Decrypt

section Init

variable (ofBytes : BytesN 32 → K) (A : Allocator (Block K)) {sk receiverDhPublic : Pointer}

/-- `ratchet_init_sender_ffi` on keys. -/
theorem ratchetInitSender_of_some (dhS : BytesN 32) {skKey : BytesN 32} {pubKey : BytesN 33}
    (hsk : sk.read h 32 = some skKey) (hpub : receiverDhPublic.read h 33 = some pubKey) :
    ratchetInitSender P ofBytes A dhS sk receiverDhPublic h
      = boxed A (initSender P dhS (ofBytes skKey) pubKey) h := by
  simp only [ratchetInitSender, Exec.bind_apply, fromRawParts_apply, hsk, hpub,
    Outcome.okOr_some]

theorem ratchetInitSender_of_none (dhS : BytesN 32)
    (hnone : ¬ ((sk.read h 32).isSome ∧ (receiverDhPublic.read h 33).isSome)) :
    ratchetInitSender P ofBytes A dhS sk receiverDhPublic h = (.err .undefined, h) := by
  simp only [ratchetInitSender, Exec.bind_apply, fromRawParts_apply]
  cases hsk : sk.read h 32 with
  | none => rfl
  | some skKey =>
    simp only [Outcome.okOr_some]
    cases hpub : receiverDhPublic.read h 33 with
    | none => rfl
    | some pubKey => exact absurd ⟨by rw [hsk]; rfl, by rw [hpub]; rfl⟩ hnone

/-- `ratchet_init_receiver_ffi` on keys. -/
theorem ratchetInitReceiver_of_some {receiverDhPrivate : Pointer} {skKey privKey : BytesN 32}
    {pubKey : BytesN 33} (hsk : sk.read h 32 = some skKey)
    (hpriv : receiverDhPrivate.read h 32 = some privKey)
    (hpub : receiverDhPublic.read h 33 = some pubKey) :
    ratchetInitReceiver P ofBytes A sk receiverDhPrivate receiverDhPublic h
      = boxed A (initReceiver P (ofBytes skKey) privKey pubKey) h := by
  simp only [ratchetInitReceiver, Exec.bind_apply, fromRawParts_apply, hsk, hpriv, hpub,
    Outcome.okOr_some]

theorem ratchetInitReceiver_of_none {receiverDhPrivate : Pointer}
    (hnone : ¬ ((sk.read h 32).isSome ∧ (receiverDhPrivate.read h 32).isSome ∧
      (receiverDhPublic.read h 33).isSome)) :
    ratchetInitReceiver P ofBytes A sk receiverDhPrivate receiverDhPublic h
      = (.err .undefined, h) := by
  simp only [ratchetInitReceiver, Exec.bind_apply, fromRawParts_apply]
  cases hsk : sk.read h 32 with
  | none => rfl
  | some skKey =>
    simp only [Outcome.okOr_some]
    cases hpriv : receiverDhPrivate.read h 32 with
    | none => rfl
    | some privKey =>
      simp only [Outcome.okOr_some]
      cases hpub : receiverDhPublic.read h 33 with
      | none => rfl
      | some pubKey =>
        exact absurd ⟨by rw [hsk]; rfl, by rw [hpriv]; rfl, by rw [hpub]; rfl⟩ hnone

end Init

theorem boxed_apply (h : Heap (Block K)) (A : Allocator (Block K))
    (state : Option (RatchetState K)) :
    ∃ ptr h', boxed A state h = (.ok ptr, h') ∧
      h'.map Block.kind = (h.map Block.kind).set ptr (some .state) := by
  cases state with
  | none =>
    refine ⟨0, h, rfl, ?_⟩
    rw [Heap.set_null]
  | some state =>
    refine ⟨A.next h, h.set (A.next h) (some (.state state)), rfl, ?_⟩
    rw [Heap.map_set]
    rfl

end Calls

/-! ### Calls that return -/

section Returns

variable [DecidableEq K] [Json K] (P : Ratchet.Primitives K)
  (ofBytes : BytesN 32 → K) (b : Build)
  (h : Heap (Block K))

/-- A call did what the client will note. -/
def Recorded (c : Call K) (x : Outcome Fault Reply × Heap (Block K)) : Prop :=
  (∃ r h', x = (.ok r, h') ∧ h'.map Block.kind = Ledger.record (h.map Block.kind) h' c r) ∨
    x = (.panic, h)

variable {h}

/-- A call that returns the address of a state. -/
theorem recorded_of_boxed {c : Call K} (A : Allocator (Block K))
    (state : Option (RatchetState K))
    (hrecord : ∀ ptr h', Ledger.record (h.map Block.kind) h' c (.pointer ptr)
      = Ledger.look (h.map Block.kind) h' ptr)
    (hrun : ∀ ptr h', boxed A state h = (.ok ptr, h') →
      c.run P ofBytes b h = (.ok (.pointer ptr), h')) :
    Recorded h c (c.run P ofBytes b h) := by
  obtain ⟨ptr, h', hboxed, hmap⟩ := boxed_apply h A state
  refine .inl ⟨.pointer ptr, h', hrun ptr h' hboxed, ?_⟩
  rw [hrecord]
  exact eq_look h' hmap

theorem initSender_recorded {A : Allocator (Block K)} {dhS : BytesN 32}
    {sk receiverDhPublic : Pointer}
    (hL : Ledger.Respects (h.map Block.kind) (.initSender A dhS sk receiverDhPublic : Call K)) :
    Recorded h (.initSender A dhS sk receiverDhPublic)
      (Call.run P ofBytes b (.initSender A dhS sk receiverDhPublic) h) := by
  rw [Ledger.Respects, ← Pointer.read_isSome, ← Pointer.read_isSome] at hL
  obtain ⟨skKey, hsk⟩ := Option.isSome_iff_exists.mp hL.1
  obtain ⟨pubKey, hpub⟩ := Option.isSome_iff_exists.mp hL.2
  refine recorded_of_boxed P ofBytes b A (initSender P dhS (ofBytes skKey) pubKey)
    (fun _ _ => rfl) fun ptr h' hboxed => ?_
  rw [Call.run, Exec.bind_apply, ratchetInitSender_of_some P ofBytes A dhS hsk hpub, hboxed]
  rfl

theorem initReceiver_recorded {A : Allocator (Block K)}
    {sk receiverDhPrivate receiverDhPublic : Pointer}
    (hL : Ledger.Respects (h.map Block.kind)
      (.initReceiver A sk receiverDhPrivate receiverDhPublic : Call K)) :
    Recorded h (.initReceiver A sk receiverDhPrivate receiverDhPublic)
      (Call.run P ofBytes b (.initReceiver A sk receiverDhPrivate receiverDhPublic) h) := by
  rw [Ledger.Respects, ← Pointer.read_isSome, ← Pointer.read_isSome, ← Pointer.read_isSome] at hL
  obtain ⟨skKey, hsk⟩ := Option.isSome_iff_exists.mp hL.1
  obtain ⟨privKey, hpriv⟩ := Option.isSome_iff_exists.mp hL.2.1
  obtain ⟨pubKey, hpub⟩ := Option.isSome_iff_exists.mp hL.2.2
  refine recorded_of_boxed P ofBytes b A (initReceiver P (ofBytes skKey) privKey pubKey)
    (fun _ _ => rfl) fun ptr h' hboxed => ?_
  rw [Call.run, Exec.bind_apply, ratchetInitReceiver_of_some P ofBytes A hsk hpriv hpub, hboxed]
  rfl

theorem encrypt_recorded {A A' : Allocator (Block K)} {statePtr : ℕ} {plaintext ad : Pointer}
    {plaintextLen adLen : ℕ} {output : OutPointer}
    (hL : Ledger.Respects (h.map Block.kind)
      (.encrypt A A' statePtr plaintext plaintextLen ad adLen output : Call K)) :
    Recorded h (.encrypt A A' statePtr plaintext plaintextLen ad adLen output)
      (Call.run P ofBytes b (.encrypt A A' statePtr plaintext plaintextLen ad
        adLen output) h) := by
  rcases hL with hnull | ⟨hstate, hplaintext, had, rfl⟩
  · refine .inl ⟨.encrypted (-100) none, h, ?_, rfl⟩
    rw [Call.run, ratchetEncrypt, if_pos hnull]
    rfl
  obtain ⟨state, hstate⟩ := Option.isSome_iff_exists.mp ((stateAt_isSome h).mpr hstate)
  obtain ⟨plaintextSlice, hplaintext⟩ :=
    Option.isSome_iff_exists.mp ((Pointer.readOrEmpty_isSome h).mpr hplaintext)
  obtain ⟨adSlice, had⟩ := Option.isSome_iff_exists.mp ((Pointer.readOrEmpty_isSome h).mpr had)
  -- a state is overwritten with a state, so only the buffers are noted
  have hkind : (h.map Block.kind).block statePtr = some .state := by
    rw [← stateAt_isSome, hstate]
    rfl
  have hrun := ratchetEncrypt_of_some P A A' hstate hplaintext had
  rw [Recorded, Call.run, Exec.bind_apply, hrun]
  rcases Ratchet.encrypt P plaintextSlice adSlice state
    with ⟨⟨header, ciphertext⟩ | e | _, state'⟩
  · refine .inl ⟨_, _, rfl, ?_⟩
    rw [map_holdBytes _ _ (holdBytes_leakedTo _ A' _), map_holdBytes _ _ fun hheader =>
      holdBytes_block _ A' _ (holdBytes_leakedTo _ A _ hheader), Heap.map_set, Option.map_some,
      Block.kind, Heap.set_eq_self hkind]
    rfl
  · refine .inl ⟨_, _, rfl, ?_⟩
    rw [Heap.map_set, Option.map_some, Block.kind, Heap.set_eq_self hkind]
    simp only [Ledger.record, Ledger.hold, if_true]
  · exact .inr rfl

theorem decrypt_recorded {A : Allocator (Block K)} {env : Ratchet.CallEnv K} {statePtr : ℕ}
    {header ciphertext ad : Pointer} {headerLen ciphertextLen adLen : ℕ} {output : OutPointer}
    (hL : Ledger.Respects (h.map Block.kind) (.decrypt A env statePtr header headerLen ciphertext
      ciphertextLen ad adLen output : Call K)) :
    Recorded h (.decrypt A env statePtr header headerLen ciphertext ciphertextLen ad
      adLen output)
      (Call.run P ofBytes b (.decrypt A env statePtr header headerLen ciphertext ciphertextLen ad
        adLen output) h) := by
  by_cases hnull : statePtr = 0 ∨ output = .null
  · refine .inl ⟨.decrypted (-100) none, h, ?_, rfl⟩
    rw [Call.run, ratchetDecrypt, if_pos hnull]
    rfl
  by_cases hvalid : validateInputs header headerLen = false
  · refine .inl ⟨.decrypted (-101) none, h, ?_, rfl⟩
    rw [Call.run, ratchetDecrypt, if_neg hnull, if_pos hvalid]
    rfl
  obtain ⟨hstate, hheader, hciphertext, had, rfl⟩ := (hL.resolve_left hnull).resolve_left hvalid
  obtain ⟨state, hstate⟩ := Option.isSome_iff_exists.mp ((stateAt_isSome h).mpr hstate)
  obtain ⟨headerSlice, hheader⟩ :=
    Option.isSome_iff_exists.mp ((Pointer.read_isSome h).mpr hheader)
  obtain ⟨ciphertextSlice, hciphertext⟩ :=
    Option.isSome_iff_exists.mp ((Pointer.readOrEmpty_isSome h).mpr hciphertext)
  obtain ⟨adSlice, had⟩ := Option.isSome_iff_exists.mp ((Pointer.readOrEmpty_isSome h).mpr had)
  -- as in `encrypt_recorded`, with one buffer
  have hkind : (h.map Block.kind).block statePtr = some .state := by
    rw [← stateAt_isSome, hstate]
    rfl
  have hrun := ratchetDecrypt_of_some P b A env hstate hheader hciphertext had
  rw [Recorded, Call.run, Exec.bind_apply, hrun]
  rcases Ratchet.decrypt P b env headerSlice.1 ciphertextSlice adSlice state with
    ⟨plaintext | e | _, state'⟩
  · refine .inl ⟨_, _, rfl, ?_⟩
    rw [map_holdBytes _ _ (holdBytes_leakedTo _ A _), Heap.map_set, Option.map_some, Block.kind,
      Heap.set_eq_self hkind]
    rfl
  · refine .inl ⟨_, _, rfl, ?_⟩
    rw [Heap.map_set, Option.map_some, Block.kind, Heap.set_eq_self hkind]
    simp only [Ledger.record, Ledger.hold, if_true]
  · exact .inr rfl

theorem serialize_recorded {A : Allocator (Block K)} {mapOrder : Ratchet.HashOrder (K × UInt32)}
    {setOrder : Ratchet.SetOrder (Ratchet.DhPublicKey × UInt32)} {statePtr : ℕ}
    (hL : Ledger.Respects (h.map Block.kind)
      (.serialize A mapOrder setOrder statePtr : Call K)) :
    Recorded h (.serialize A mapOrder setOrder statePtr)
      (Call.run P ofBytes b (.serialize A mapOrder setOrder statePtr) h) := by
  refine .inl ?_
  by_cases hnull : statePtr = 0
  · refine ⟨.pointer 0, h, ?_, (Heap.set_null _ _).symm⟩
    rw [Call.run, ratchetSerialize, if_pos hnull]
    rfl
  obtain ⟨state, hstate⟩ :=
    Option.isSome_iff_exists.mp ((stateAt_isSome h).mpr (hL.resolve_left hnull))
  rw [Call.run, ratchetSerialize, if_neg hnull]
  simp only [Exec.bind_apply, derefState_apply, hstate, Outcome.okOr_some]
  cases Ratchet.serialize mapOrder setOrder state with
  | none => exact ⟨.pointer 0, h, rfl, (Heap.set_null _ _).symm⟩
  | some saved =>
    by_cases hzero : 0 ∈ Json.toString saved
    · simp only [if_pos hzero]
      exact ⟨.pointer 0, h, rfl, (Heap.set_null _ _).symm⟩
    · simp only [if_neg hzero]
      exact ⟨_, _, rfl, eq_look _ (Heap.map_set _ _ _ _)⟩

theorem deserialize_recorded {A : Allocator (Block K)} {json : Text K}
    (hL : Ledger.Respects (h.map Block.kind) (.deserialize A json : Call K)) :
    Recorded h (.deserialize A json) (Call.run P ofBytes b (.deserialize A json) h) := by
  by_cases hnull : json.isNull
  · refine .inl ⟨.pointer 0, h, ?_, (Heap.set_null _ _).symm⟩
    rw [Call.run, ratchetDeserialize, if_pos hnull]
    rfl
  obtain ⟨saved, hread⟩ :=
    Option.isSome_iff_exists.mp ((Text.read_isSome h).mpr (hL.resolve_left hnull))
  refine recorded_of_boxed P ofBytes b A (saved.map Ratchet.deserialize)
    (fun _ _ => rfl) fun ptr h' hboxed => ?_
  rw [Call.run, ratchetDeserialize, if_neg hnull]
  simp only [Exec.bind_apply, readText_apply, hread, Outcome.okOr_some, hboxed]
  rfl

/-- **What respects the contract is defined**, and does to the memory what the client
notes. -/
theorem run_of_respects {c : Call K} (hL : Ledger.Respects (h.map Block.kind) c) :
    Recorded h c (c.run P ofBytes b h) := by
  cases c with
  | initSender A dhS sk receiverDhPublic => exact initSender_recorded P ofBytes b hL
  | initReceiver A sk receiverDhPrivate receiverDhPublic =>
    exact initReceiver_recorded P ofBytes b hL
  | encrypt A A' statePtr plaintext plaintextLen ad adLen output =>
    exact encrypt_recorded P ofBytes b hL
  | decrypt A env statePtr header headerLen ciphertext ciphertextLen ad adLen output =>
    exact decrypt_recorded P ofBytes b hL
  | serialize A mapOrder setOrder statePtr => exact serialize_recorded P ofBytes b hL
  | deserialize A json => exact deserialize_recorded P ofBytes b hL
  | freeState state =>
    refine .inl ⟨.freed, h.set state none, ?_, Heap.map_set _ _ _ _⟩
    rw [Call.run, Exec.bind_apply, ratchetFree_of_held h hL]
    rfl
  | freeResultBuffers header headerLen ciphertext ciphertextLen =>
    obtain ⟨h₁, hdrop, hmap⟩ := dropVec_of_held h hL.1
    obtain ⟨h₂, hdrop', hmap'⟩ := dropVec_of_held h₁ (hmap ▸ hL.2)
    refine .inl ⟨.freed, h₂, ?_, by rw [hmap', hmap]; rfl⟩
    simp only [Call.run, ratchetFreeResultBuffers, Exec.bind_apply, hdrop, hdrop',
      Exec.pure_apply]
  | freeByteBuffer buffer len =>
    obtain ⟨h₁, hdrop, hmap⟩ := dropVec_of_held h hL
    refine .inl ⟨.freed, h₁, ?_, hmap⟩
    simp only [Call.run, ratchetFreeByteBuffer, Exec.bind_apply, hdrop, Exec.pure_apply]
  | freeString s =>
    refine .inl ⟨.freed, h.set s none, ?_, Heap.map_set _ _ _ _⟩
    rw [Call.run, Exec.bind_apply, ratchetFreeString_of_held h hL]
    rfl

/-- A call is undefined, or the ratchet panics before it can be. -/
def Fails (x : Outcome Fault Reply × Heap (Block K)) : Prop :=
  ∃ h', x = (.err .undefined, h') ∨ x = (.panic, h')

theorem encrypt_fails {A A' : Allocator (Block K)} {statePtr : ℕ} {plaintext ad : Pointer}
    {plaintextLen adLen : ℕ} {output : OutPointer}
    (hL : ¬ Ledger.Respects (h.map Block.kind)
      (.encrypt A A' statePtr plaintext plaintextLen ad adLen output : Call K)) :
    Fails (Call.run P ofBytes b (.encrypt A A' statePtr plaintext plaintextLen ad
      adLen output) h) := by
  rw [Ledger.Respects, not_or, ← stateAt_isSome, ← Pointer.readOrEmpty_isSome,
    ← Pointer.readOrEmpty_isSome] at hL
  obtain ⟨hnull, hL⟩ := hL
  rw [Call.run, Fails, Exec.bind_apply]
  by_cases hread : (stateAt h statePtr).isSome ∧ (plaintext.readOrEmpty h plaintextLen).isSome ∧
      (ad.readOrEmpty h adLen).isSome
  · obtain ⟨hstate, hplaintext, had⟩ := hread
    obtain ⟨state, hst⟩ := Option.isSome_iff_exists.mp hstate
    obtain ⟨plaintextSlice, hpt⟩ := Option.isSome_iff_exists.mp hplaintext
    obtain ⟨adSlice, hadSlice⟩ := Option.isSome_iff_exists.mp had
    -- the output is neither null nor valid
    have houtput : output = .dangling := by
      cases output with
      | null => exact absurd (.inr rfl) hnull
      | valid => exact absurd ⟨hstate, hplaintext, had, rfl⟩ hL
      | dangling => rfl
    subst houtput
    obtain ⟨h', hrun | hrun⟩ := ratchetEncrypt_of_dangling P A A' hst hpt hadSlice
    · rw [hrun]
      exact ⟨h', .inl rfl⟩
    · rw [hrun]
      exact ⟨h', .inr rfl⟩
  · rw [ratchetEncrypt_of_none P A A' hnull hread]
    exact ⟨h, .inl rfl⟩

theorem decrypt_fails {A : Allocator (Block K)} {env : Ratchet.CallEnv K} {statePtr : ℕ}
    {header ciphertext ad : Pointer} {headerLen ciphertextLen adLen : ℕ} {output : OutPointer}
    (hL : ¬ Ledger.Respects (h.map Block.kind)
      (.decrypt A env statePtr header headerLen ciphertext
      ciphertextLen ad adLen output : Call K)) :
    Fails (Call.run P ofBytes b (.decrypt A env statePtr header headerLen ciphertext
      ciphertextLen ad adLen output) h) := by
  obtain ⟨hnull, hL⟩ := not_or.mp hL
  obtain ⟨hvalid, hL⟩ := not_or.mp hL
  rw [← stateAt_isSome, ← Pointer.read_isSome, ← Pointer.readOrEmpty_isSome,
    ← Pointer.readOrEmpty_isSome] at hL
  rw [Call.run, Fails, Exec.bind_apply]
  by_cases hread : (stateAt h statePtr).isSome ∧ (header.read h headerLen).isSome ∧
      (ciphertext.readOrEmpty h ciphertextLen).isSome ∧ (ad.readOrEmpty h adLen).isSome
  · obtain ⟨hstate, hheader, hciphertext, had⟩ := hread
    obtain ⟨state, hst⟩ := Option.isSome_iff_exists.mp hstate
    obtain ⟨headerSlice, hhd⟩ := Option.isSome_iff_exists.mp hheader
    obtain ⟨ciphertextSlice, hct⟩ := Option.isSome_iff_exists.mp hciphertext
    obtain ⟨adSlice, hadSlice⟩ := Option.isSome_iff_exists.mp had
    -- the output is neither null nor valid
    have houtput : output = .dangling := by
      cases output with
      | null => exact absurd (.inr rfl) hnull
      | valid => exact absurd ⟨hstate, hheader, hciphertext, had, rfl⟩ hL
      | dangling => rfl
    subst houtput
    obtain ⟨h', hrun | hrun⟩ := ratchetDecrypt_of_dangling P b A env hst hhd hct hadSlice
    · rw [hrun]
      exact ⟨h', .inl rfl⟩
    · rw [hrun]
      exact ⟨h', .inr rfl⟩
  · rw [ratchetDecrypt_of_none P b A env hnull hvalid hread]
    exact ⟨h, .inl rfl⟩

/-- **What breaks the contract does not return.** -/
theorem run_of_breaks {c : Call K} (hL : ¬ Ledger.Respects (h.map Block.kind) c) :
    Fails (c.run P ofBytes b h) := by
  cases c with
  | initSender A dhS sk receiverDhPublic =>
    rw [Ledger.Respects, ← Pointer.read_isSome, ← Pointer.read_isSome] at hL
    refine ⟨h, .inl ?_⟩
    rw [Call.run, Exec.bind_apply, ratchetInitSender_of_none P ofBytes A dhS hL]
  | initReceiver A sk receiverDhPrivate receiverDhPublic =>
    rw [Ledger.Respects, ← Pointer.read_isSome, ← Pointer.read_isSome,
      ← Pointer.read_isSome] at hL
    refine ⟨h, .inl ?_⟩
    rw [Call.run, Exec.bind_apply, ratchetInitReceiver_of_none P ofBytes A hL]
  | encrypt A A' statePtr plaintext plaintextLen ad adLen output =>
    exact encrypt_fails P ofBytes b hL
  | decrypt A env statePtr header headerLen ciphertext ciphertextLen ad adLen output =>
    exact decrypt_fails P ofBytes b hL
  | serialize A mapOrder setOrder statePtr =>
    rw [Ledger.Respects, not_or, ← stateAt_isSome, Option.not_isSome_iff_eq_none] at hL
    refine ⟨h, .inl ?_⟩
    rw [Call.run, ratchetSerialize, if_neg hL.1]
    simp only [Exec.bind_apply, derefState_apply, hL.2, Outcome.okOr_none]
  | deserialize A json =>
    rw [Ledger.Respects, not_or, ← Text.read_isSome, Option.not_isSome_iff_eq_none] at hL
    refine ⟨h, .inl ?_⟩
    rw [Call.run, ratchetDeserialize, if_neg hL.1]
    simp only [Exec.bind_apply, readText_apply, hL.2, Outcome.okOr_none]
  | freeState state =>
    refine ⟨h, .inl ?_⟩
    rw [Call.run, Exec.bind_apply, ratchetFree_of_not_held h hL]
  | freeResultBuffers header headerLen ciphertext ciphertextLen =>
    simp only [Call.run, ratchetFreeResultBuffers, Exec.bind_apply]
    -- if the header is given back, the ciphertext is what is not held then
    by_cases hheld : Ledger.Held (h.map Block.kind) header headerLen
    · obtain ⟨h₁, hdrop, hmap⟩ := dropVec_of_held h hheld
      have hheld' : ¬ Ledger.Held (h₁.map Block.kind) ciphertext ciphertextLen := by
        rw [hmap]
        exact fun hc => hL ⟨hheld, hc⟩
      rw [hdrop]
      dsimp only
      rw [dropVec_of_not_held h₁ hheld']
      exact ⟨h₁, .inl rfl⟩
    · rw [dropVec_of_not_held h hheld]
      exact ⟨h, .inl rfl⟩
  | freeByteBuffer buffer len =>
    refine ⟨h, .inl ?_⟩
    rw [Call.run, Exec.bind_apply, ratchetFreeByteBuffer, dropVec_of_not_held h hL]
  | freeString s =>
    refine ⟨h, .inl ?_⟩
    rw [Call.run, Exec.bind_apply, ratchetFreeString_of_not_held h hL]

end Returns

/-! ### Runs of a client -/

section Client

variable [DecidableEq K] [Json K] (P : Ratchet.Primitives K)
  (ofBytes : BytesN 32 → K) (b : Build)

/-- A process that uses the library: the library's memory and what the client knows of
it. -/
structure Process (K : Type) where
  heap : Heap (Block K)
  ledger : Ledger

/-- Nothing has been called. -/
def Process.start : Process K := ⟨Heap.empty, Heap.empty⟩

/-- The client makes a call.  One that does not return ends the process. -/
def Process.step (s : Process K) (c : Call K) : Process K :=
  match c.run P ofBytes b s.heap with
  | (.ok r, h) => ⟨h, s.ledger.record h c r⟩
  | (_, h) => ⟨h, s.ledger⟩

/-- The call returns. -/
def Process.Returns (s : Process K) (c : Call K) : Prop := (c.run P ofBytes b s.heap).1.isOk

/-- The ratchet panics, which aborts the process. -/
def Process.Aborts (s : Process K) (c : Call K) : Prop := (c.run P ofBytes b s.heap).1 = .panic

/-- The client respects the contract, as far as it can know. -/
def Process.Respects (s : Process K) (c : Call K) : Prop := s.ledger.Respects c

/-- The ledger is right. -/
def Process.Accounts (s : Process K) : Prop := s.heap.map Block.kind = s.ledger

variable {P ofBytes b}

omit [DecidableEq K] [Json K] in
theorem Process.accounts_start : (Process.start : Process K).Accounts := Heap.map_empty _

theorem Process.Accounts.returns_iff {s : Process K} (hs : s.Accounts) (c : Call K) :
    s.Returns P ofBytes b c ↔ s.Respects c ∧ ¬ s.Aborts P ofBytes b c := by
  rw [Process.Accounts] at hs
  rw [Process.Returns, Process.Respects, Process.Aborts, ← hs]
  by_cases hL : Ledger.Respects (s.heap.map Block.kind) c
  · rcases run_of_respects P ofBytes b hL with ⟨r, h', hrun, -⟩ | hrun
    · rw [hrun]
      exact iff_of_true rfl ⟨hL, fun habort => by cases habort⟩
    · rw [hrun]
      exact iff_of_false Bool.false_ne_true fun hnot => hnot.2 rfl
  · refine iff_of_false ?_ fun hnot => hL hnot.1
    obtain ⟨h', hrun | hrun⟩ := run_of_breaks P ofBytes b hL
    · rw [hrun]
      exact Bool.false_ne_true
    · rw [hrun]
      exact Bool.false_ne_true

/-- What respects the contract is never undefined. -/
theorem Process.Accounts.defined {s : Process K} (hs : s.Accounts) {c : Call K}
    (hc : s.Respects c) : s.Returns P ofBytes b c ∨ s.Aborts P ofBytes b c := by
  by_cases habort : s.Aborts P ofBytes b c
  · exact .inr habort
  · exact .inl ((hs.returns_iff c).mpr ⟨hc, habort⟩)

theorem Process.Accounts.step {s : Process K} (hs : s.Accounts) {c : Call K}
    (hc : s.Respects c) : (s.step P ofBytes b c).Accounts := by
  rw [Process.Accounts] at hs
  rw [Process.Respects, ← hs] at hc
  rcases run_of_respects P ofBytes b hc with ⟨r, h', hrun, hmap⟩ | hrun
  · rw [Process.step, hrun, Process.Accounts, ← hs]
    exact hmap
  · rw [Process.step, hrun]
    exact hs

variable (P ofBytes b)

end Client

end Ffi
