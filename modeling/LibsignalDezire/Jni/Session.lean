/-
Sessions behind the bindings.

Java keeps the ends of a session at handles and in strings of its own.  What it reads of
an end tells less than what a C client reads: every error is null.

* `Tracks.java_some`, `Tracks.java_none` — a call on an end of the session is one of the
  session, and any other call leaves the session alone.
-/
import LibsignalDezire.Ffi.Session
import LibsignalDezire.Jni.Ratchet

namespace Jni

open Ffi (Block Mem Track Client Tracks)
open Ratchet (RatchetState RatchetError SavedState SetOrder CallEnv Build DhPublicKey HashOrder
  Session Party Event Alike)

variable {K : Type}

/-! ### What Java reads and notes -/

/-- What is read of a reply of the session; which error it was may be lost. -/
inductive Reading where
  | message (x : Outcome (Option RatchetError) (Bytes × Bytes))
  | plaintext (x : Outcome (Option RatchetError) Bytes)
  deriving DecidableEq

/-- What `f` leaves of the errors. -/
def Reading.ofReply (f : RatchetError → Option RatchetError) : Ratchet.Reply → Reading
  | .message x => .message (x.mapErr f)
  | .plaintext x => .plaintext (x.mapErr f)

/-- What Java reads in a reply. -/
def Reply.reading : Reply K → Option Reading
  | .message none => some (.message (.err none))
  | .message (some map) => do
    let header ← map.lookup "header"
    let ciphertext ← map.lookup "ciphertext"
    some (.message (.ok (header, ciphertext)))
  | .plaintext none => some (.plaintext (.err none))
  | .plaintext (some arr) => some (.plaintext (.ok arr))
  | _ => none

/-- The event of the session that a call is, if it is one. -/
def event (τ : Track K) : Call K → Option (Event K)
  | .encrypt statePtr (some plaintext) adArr =>
    (τ.party statePtr).map fun q => .encrypt q plaintext (adArr.getD [])
  | .decrypt env statePtr (some header) (some ciphertext) adArr =>
    (τ.party statePtr).map fun q => .decrypt q env header ciphertext (adArr.getD [])
  | _ => none

/-- What Java notes after a call. -/
def note [DecidableEq K] (τ : Track K) : Call K → Reply K → Track K
  | .serialize _ _ statePtr, .text saved => τ.keep statePtr saved
  | .deserialize _ (some (some saved)), .pointer ptr => τ.restore (τ.copyOf saved) ptr
  | .free statePtr, _ => τ.free statePtr
  | c, _ => τ.noteEvent (event τ c)

/-- The iteration order that a call finds is that of the keys of the map. -/
def Call.OfKeys : Call K → Prop
  | .decrypt env .. => env.hashOrder.OfKeys
  | _ => True

/-- The state that a call may change. -/
def Call.statePtr : Call K → Option ℕ
  | .encrypt statePtr _ _ => some statePtr
  | .decrypt _ statePtr _ _ _ => some statePtr
  | .free statePtr => some statePtr
  | _ => none

/-! ### What a call does -/

section Frame

variable (P : Ratchet.Primitives K) (ofBytes : BytesN 32 → K) {h h' : Heap (Block K)} {a : ℕ}
  {block : Block K}

/-- An encryption that returns found a null, or a state. -/
theorem ratchetEncrypt_eq_ok {statePtr : ℕ} {plaintextArr adArr : Option Bytes}
    {x : Option (List (String × Bytes))}
    (hrun : ratchetEncrypt P statePtr plaintextArr adArr h = (.ok x, h')) :
    ((statePtr = 0 ∨ plaintextArr = none) ∧ h' = h) ∨
      ∃ plaintext state, plaintextArr = some plaintext ∧ Ffi.stateAt h statePtr = some state ∧
        h' = h.set statePtr
          (some (.state (Ratchet.encrypt P plaintext (adArr.getD []) state).2)) ∧
        (Reply.message x : Reply K).reading = some (.message
          ((Ratchet.encrypt P plaintext (adArr.getD []) state).1.mapErr fun _ => none)) := by
  -- null stands for a missing argument and for an error alike
  by_cases hnull : statePtr = 0 ∨ plaintextArr = none
  · rw [ratchetEncrypt_of_null P adArr hnull] at hrun
    cases hrun
    exact .inl ⟨hnull, rfl⟩
  obtain ⟨hne, hsome⟩ := not_or.mp hnull
  obtain ⟨plaintext, rfl⟩ := Option.ne_none_iff_exists'.mp hsome
  cases hstate : Ffi.stateAt h statePtr with
  | none =>
    rw [ratchetEncrypt_of_none P plaintext adArr hne hstate] at hrun
    cases hrun
  | some state =>
    refine .inr ⟨plaintext, state, rfl, rfl, ?_⟩
    rw [ratchetEncrypt_of_some P plaintext adArr hstate] at hrun
    revert hrun
    rcases Ratchet.encrypt P plaintext (adArr.getD []) state with
      ⟨⟨header, ciphertext⟩ | e | _, state'⟩
    · intro hrun
      cases hrun
      exact ⟨rfl, rfl⟩
    · intro hrun
      cases hrun
      exact ⟨rfl, rfl⟩
    · intro hrun
      cases hrun

theorem ratchetDecrypt_eq_ok [DecidableEq K] {b : Build} {env : CallEnv K} {statePtr : ℕ}
    {headerArr ciphertextArr adArr x : Option Bytes}
    (hrun : ratchetDecrypt P b env statePtr headerArr ciphertextArr adArr h = (.ok x, h')) :
    ((statePtr = 0 ∨ headerArr = none ∨ ciphertextArr = none) ∧ h' = h) ∨
      ∃ header ciphertext state, headerArr = some header ∧ ciphertextArr = some ciphertext ∧
        Ffi.stateAt h statePtr = some state ∧
        h' = h.set statePtr
          (some (.state (Ratchet.decrypt P b env header ciphertext (adArr.getD []) state).2)) ∧
        (Reply.plaintext x : Reply K).reading = some (.plaintext
          ((Ratchet.decrypt P b env header ciphertext (adArr.getD []) state).1.mapErr
            fun _ => none)) := by
  by_cases hnull : statePtr = 0 ∨ headerArr = none ∨ ciphertextArr = none
  · rw [ratchetDecrypt_of_null P b env adArr hnull] at hrun
    cases hrun
    exact .inl ⟨hnull, rfl⟩
  obtain ⟨hne, hsome⟩ := not_or.mp hnull
  obtain ⟨header, rfl⟩ := Option.ne_none_iff_exists'.mp (not_or.mp hsome).1
  obtain ⟨ciphertext, rfl⟩ := Option.ne_none_iff_exists'.mp (not_or.mp hsome).2
  cases hstate : Ffi.stateAt h statePtr with
  | none =>
    rw [ratchetDecrypt_of_none P b env header ciphertext adArr hne hstate] at hrun
    cases hrun
  | some state =>
    refine .inr ⟨header, ciphertext, state, rfl, rfl, rfl, ?_⟩
    rw [ratchetDecrypt_of_some P b env header ciphertext adArr hstate] at hrun
    revert hrun
    rcases Ratchet.decrypt P b env header ciphertext (adArr.getD []) state with
      ⟨plaintext | e | _, state'⟩
    · intro hrun
      cases hrun
      exact ⟨rfl, rfl⟩
    · intro hrun
      cases hrun
      exact ⟨rfl, rfl⟩
    · intro hrun
      cases hrun

theorem ratchetSerialize_eq_ok [DecidableEq K] {mapOrder : HashOrder (K × UInt32)}
    {setOrder : SetOrder (DhPublicKey × UInt32)} {statePtr : ℕ} {x : Option (SavedState K)}
    (hrun : ratchetSerialize mapOrder setOrder statePtr h = (.ok x, h')) :
    h' = h ∧ ∀ state, Ffi.stateAt h statePtr = some state →
      x = Ratchet.serialize mapOrder setOrder state := by
  rw [ratchetSerialize] at hrun
  by_cases hnull : statePtr = 0
  · rw [if_pos hnull] at hrun
    cases hrun
    refine ⟨rfl, fun state hstate => ?_⟩
    exact absurd hnull (Heap.ne_zero_of_block ((Ffi.stateAt_eq_some h).mp hstate))
  · rw [if_neg hnull, Exec.bind_apply, Ffi.derefState_apply] at hrun
    cases hstate : Ffi.stateAt h statePtr with
    | none =>
      rw [hstate] at hrun
      cases hrun
    | some state =>
      rw [hstate] at hrun
      cases hrun
      refine ⟨rfl, fun state' heq => ?_⟩
      rw [Option.some_inj.mp heq]

/-- **What a call leaves alone**: every block but the state that it is about. -/
theorem java_block [DecidableEq K] {b : Build} {c : Call K} {r : Reply K}
    (hrun : c.run P ofBytes b h = (.ok r, h')) (hb : h.block a = some block)
    (hstate : ∀ state, block = .state state → c.statePtr ≠ some a) :
    h'.block a = some block := by
  cases c with
  | initSender A dhS skArr pubArr =>
    obtain ⟨state, heq⟩ := ratchetInitSender_eq_boxed P ofBytes A dhS skArr pubArr
    obtain ⟨ptr, h₁, hboxed, hrest⟩ := Exec.bind_eq_ok.mp hrun
    cases hrest
    rw [heq] at hboxed
    exact Ffi.boxed_block hboxed hb
  | initReceiver A skArr privArr pubArr =>
    obtain ⟨state, heq⟩ := ratchetInitReceiver_eq_boxed P ofBytes A skArr privArr pubArr
    obtain ⟨ptr, h₁, hboxed, hrest⟩ := Exec.bind_eq_ok.mp hrun
    cases hrest
    rw [heq] at hboxed
    exact Ffi.boxed_block hboxed hb
  | free statePtr =>
    obtain ⟨u, h₁, hfree, hrest⟩ := Exec.bind_eq_ok.mp hrun
    cases hrest
    rw [← free_throughC] at hfree
    exact Ffi.ratchetFree_block hb hfree hstate
  | encrypt statePtr plaintextArr adArr =>
    obtain ⟨x, h₁, hencrypt, hrest⟩ := Exec.bind_eq_ok.mp hrun
    cases hrest
    rcases ratchetEncrypt_eq_ok P hencrypt with ⟨-, rfl⟩ | ⟨plaintext, state, -, hst, rfl, -⟩
    · exact hb
    · rwa [Heap.set_block_of_ne _ (Ffi.ne_of_stateAt hb hst hstate)]
  | decrypt env statePtr headerArr ciphertextArr adArr =>
    obtain ⟨x, h₁, hdecrypt, hrest⟩ := Exec.bind_eq_ok.mp hrun
    cases hrest
    rcases ratchetDecrypt_eq_ok P hdecrypt with
      ⟨-, rfl⟩ | ⟨header, ciphertext, state, -, -, hst, rfl, -⟩
    · exact hb
    · rwa [Heap.set_block_of_ne _ (Ffi.ne_of_stateAt hb hst hstate)]
  | serialize mapOrder setOrder statePtr =>
    obtain ⟨x, h₁, hserialize, hrest⟩ := Exec.bind_eq_ok.mp hrun
    cases hrest
    rw [(ratchetSerialize_eq_ok hserialize).1]
    exact hb
  | deserialize A jsonStr =>
    obtain ⟨ptr, h₁, hdeserialize, hrest⟩ := Exec.bind_eq_ok.mp hrun
    cases hrest
    rw [ratchetDeserialize_eq_boxed] at hdeserialize
    exact Ffi.boxed_block hdeserialize hb

end Frame

/-! ### Calls on a session -/

section Client

variable [DecidableEq K] (P : Ratchet.Primitives K) (ofBytes : BytesN 32 → K) (b : Build)

/-- A call that does not return ends the process. -/
def step (s : Client K) (c : Call K) : Client K :=
  match c.run P ofBytes b s.heap with
  | (.ok r, h) => ⟨h, note s.track c r⟩
  | (_, h) => ⟨h, s.track⟩

/-- The call returns. -/
def Returns (s : Client K) (c : Call K) : Prop := (c.run P ofBytes b s.heap).1.isOk

instance (s : Client K) : DecidablePred (Returns P ofBytes b s) := fun _ =>
  inferInstanceAs (Decidable (_ = true))

/-- What Java reads after a call on an end of the session. -/
def reading (s : Client K) (c : Call K) : Option Reading :=
  match event s.track c, c.run P ofBytes b s.heap with
  | some _, (.ok r, _) => r.reading
  | _, _ => none

variable {P ofBytes b} {s : Client K} {σ : Session K}

/-- An encryption at a handle is one of the session. -/
theorem java_encrypt (hs : Tracks s σ) {statePtr : ℕ} {plaintext : Bytes} {adArr : Option Bytes}
    {q : Party} (hq : s.track.party statePtr = some q) {r : Reply K} {h' : Heap (Block K)}
    (hrun : (Call.encrypt statePtr (some plaintext) adArr).run P ofBytes b s.heap
      = (.ok r, h')) :
    r.reading = some (.ofReply (fun _ => none)
        (σ.reply P b (.encrypt q plaintext (adArr.getD [])))) ∧
      Tracks ⟨h', s.track.use q⟩ (σ.step P b (.encrypt q plaintext (adArr.getD []))) := by
  obtain ⟨hne, rfl⟩ := Ffi.Track.party_eq_some hq
  obtain ⟨state, hstate, halike⟩ := hs.handle q hne
  obtain ⟨x, h₁, hencrypt, hrest⟩ := Exec.bind_eq_ok.mp hrun
  cases hrest
  rcases ratchetEncrypt_eq_ok P hencrypt with
    ⟨hnull, -⟩ | ⟨plaintext', state', hplaintext, hstate', rfl, hreading⟩
  · rcases hnull with hzero | hnone
    · exact absurd hzero hne
    · cases hnone
  cases hplaintext
  rw [Ffi.stateAt_eq_some, hstate] at hstate'
  cases hstate'
  obtain ⟨hreply, halike'⟩ := Ratchet.encrypt_alike P plaintext (adArr.getD []) _ _ halike
  have hreply := hreply.eq
  have hupdate : (σ.encrypt P q plaintext (adArr.getD [])).state = Function.update σ.state q
      (Ratchet.encrypt P plaintext (adArr.getD []) (σ.state q)).2 := Session.encrypt_state
  refine ⟨?_, hs.used_of_update hne hupdate (Heap.set_block_self _ hne _) halike' ?_⟩
  · rw [hreading, Session.reply, hreply]
    rfl
  · -- nothing but the state is written
    intro a state hb ha
    rwa [Heap.set_block_of_ne _ ha]

/-- A decryption at a handle is one of the session. -/
theorem java_decrypt (hs : Tracks s σ) {env : CallEnv K} (horder : env.hashOrder.OfKeys)
    {statePtr : ℕ} {header ciphertext : Bytes} {adArr : Option Bytes} {q : Party}
    (hq : s.track.party statePtr = some q) {r : Reply K} {h' : Heap (Block K)}
    (hrun : (Call.decrypt env statePtr (some header) (some ciphertext) adArr).run P
      ofBytes b s.heap = (.ok r, h')) :
    r.reading = some (.ofReply (fun _ => none)
        (σ.reply P b (.decrypt q env header ciphertext (adArr.getD [])))) ∧
      Tracks ⟨h', s.track.use q⟩
        (σ.step P b (.decrypt q env header ciphertext (adArr.getD []))) := by
  obtain ⟨hne, rfl⟩ := Ffi.Track.party_eq_some hq
  obtain ⟨state, hstate, halike⟩ := hs.handle q hne
  obtain ⟨x, h₁, hdecrypt, hrest⟩ := Exec.bind_eq_ok.mp hrun
  cases hrest
  rcases ratchetDecrypt_eq_ok P hdecrypt with
    ⟨hnull, -⟩ | ⟨header', ciphertext', state', hheader, hciphertext, hstate', rfl, hreading⟩
  · rcases hnull with hzero | hnone | hnone
    · exact absurd hzero hne
    · cases hnone
    · cases hnone
  cases hheader
  cases hciphertext
  rw [Ffi.stateAt_eq_some, hstate] at hstate'
  cases hstate'
  obtain ⟨hreply, halike'⟩ := Ratchet.decrypt_alike P horder b header ciphertext (adArr.getD [])
    _ _ halike
  have hreply := hreply.eq
  have hupdate : (σ.decrypt P b q env header ciphertext (adArr.getD [])).state
      = Function.update σ.state q
        (Ratchet.decrypt P b env header ciphertext (adArr.getD []) (σ.state q)).2 :=
    Session.decrypt_state rfl
  refine ⟨?_, hs.used_of_update hne hupdate (Heap.set_block_self _ hne _) halike' ?_⟩
  · rw [hreading, Session.reply, hreply]
    rfl
  · -- nothing but the state is written
    intro a state hb ha
    rwa [Heap.set_block_of_ne _ ha]

/-- A call that is about no end of the session leaves them all alone. -/
theorem java_idle (hs : Tracks s σ) {c : Call K} {r : Reply K} {h' : Heap (Block K)}
    (hrun : c.run P ofBytes b s.heap = (.ok r, h'))
    (hstate : ∀ q, s.track.handle q ≠ 0 → c.statePtr ≠ some (s.track.handle q)) :
    Tracks ⟨h', s.track⟩ σ :=
  hs.frame fun q _ hq hblock => java_block P ofBytes hrun hblock fun _ _ => hstate q hq

/-- **A call on an end of the session is one of the session.** -/
theorem java_some (hs : Tracks s σ) {c : Call K} (hc : Returns P ofBytes b s c)
    (hkeys : c.OfKeys) {e : Event K} (he : event s.track c = some e) :
    reading P ofBytes b s c = some (.ofReply (fun _ => none) (σ.reply P b e)) ∧
      Tracks (step P ofBytes b s c) (σ.step P b e) := by
  obtain ⟨r, hr⟩ := Outcome.isOk_iff.mp hc
  obtain ⟨h', hrun⟩ : ∃ h', c.run P ofBytes b s.heap = (.ok r, h') := ⟨_, Prod.ext hr rfl⟩
  have hstep : step P ofBytes b s c = ⟨h', note s.track c r⟩ := by
    rw [step, hrun]
  have hreading : reading P ofBytes b s c = r.reading := by
    rw [reading, he, hrun]
  rw [hstep, hreading]
  cases c with
  | encrypt statePtr plaintextArr adArr =>
    cases plaintextArr with
    | none => cases he
    | some plaintext =>
      obtain ⟨q, hq, rfl⟩ := Option.map_eq_some_iff.mp he
      simp only [note, he, Track.noteEvent]
      exact java_encrypt hs hq hrun
  | decrypt env statePtr headerArr ciphertextArr adArr =>
    cases headerArr with
    | none => cases he
    | some header =>
      cases ciphertextArr with
      | none => cases he
      | some ciphertext =>
        obtain ⟨q, hq, rfl⟩ := Option.map_eq_some_iff.mp he
        simp only [note, he, Track.noteEvent]
        exact java_decrypt hs hkeys hq hrun
  | _ => cases he

/-- What is up to date gives back its end of the session. -/
theorem java_deserialize (hs : Tracks s σ) {A : Allocator (Block K)}
    {jsonStr : Option (Option (SavedState K))} {r : Reply K} {h' : Heap (Block K)}
    (hrun : (Call.deserialize A jsonStr).run P ofBytes b s.heap = (.ok r, h')) :
    Tracks ⟨h', note s.track (.deserialize A jsonStr) r⟩ σ := by
  have hidle : Tracks ⟨h', s.track⟩ σ := java_idle hs hrun fun _ _ heq => by cases heq
  obtain ⟨ptr, h₁, hdeserialize, hrest⟩ := Exec.bind_eq_ok.mp hrun
  cases hrest
  rcases jsonStr with _ | _ | saved
  · exact hidle
  · exact hidle
  · refine hidle.restore fun p hp hptr => ?_
    cases hdeserialize
    exact ⟨hs.fresh A p.peer, _, Heap.set_block_self _ hptr _, hs.copyOf hp⟩

/-- **Any other call leaves the session alone.** -/
theorem java_none (hs : Tracks s σ) {c : Call K} (hc : Returns P ofBytes b s c)
    (he : event s.track c = none) :
    reading P ofBytes b s c = none ∧ Tracks (step P ofBytes b s c) σ := by
  obtain ⟨r, hr⟩ := Outcome.isOk_iff.mp hc
  obtain ⟨h', hrun⟩ : ∃ h', c.run P ofBytes b s.heap = (.ok r, h') := ⟨_, Prod.ext hr rfl⟩
  have hstep : step P ofBytes b s c = ⟨h', note s.track c r⟩ := by
    rw [step, hrun]
  refine ⟨by rw [reading, he], ?_⟩
  rw [hstep]
  cases c with
  | initSender A dhS skArr pubArr => exact java_idle hs hrun fun _ _ heq => by cases heq
  | initReceiver A skArr privArr pubArr => exact java_idle hs hrun fun _ _ heq => by cases heq
  | free statePtr =>
    -- the end that was at the handle is given up before its state goes
    refine java_idle (hs.free statePtr) hrun fun q hq heq => ?_
    obtain ⟨hne, hhandle⟩ := Ffi.Track.free_handle hq
    rw [hhandle] at heq
    exact hne (Option.some_inj.mp heq).symm
  | encrypt statePtr plaintextArr adArr =>
    simp only [note, he, Track.noteEvent]
    obtain ⟨x, h₁, hencrypt, hrest⟩ := Exec.bind_eq_ok.mp hrun
    cases hrest
    rcases ratchetEncrypt_eq_ok P hencrypt with ⟨-, rfl⟩ | ⟨plaintext, state, rfl, -, -, -⟩
    · exact hs
    · -- a state that is no end of this session
      have hparty : s.track.party statePtr = none := Option.map_eq_none_iff.mp he
      refine java_idle hs hrun fun q hq heq => ?_
      exact Ffi.Track.ne_handle hparty hq (Option.some_inj.mp heq)
  | decrypt env statePtr headerArr ciphertextArr adArr =>
    simp only [note, he, Track.noteEvent]
    obtain ⟨x, h₁, hdecrypt, hrest⟩ := Exec.bind_eq_ok.mp hrun
    cases hrest
    rcases ratchetDecrypt_eq_ok P hdecrypt with
      ⟨-, rfl⟩ | ⟨header, ciphertext, state, rfl, rfl, -, -, -⟩
    · exact hs
    · have hparty : s.track.party statePtr = none := Option.map_eq_none_iff.mp he
      refine java_idle hs hrun fun q hq heq => ?_
      exact Ffi.Track.ne_handle hparty hq (Option.some_inj.mp heq)
  | serialize mapOrder setOrder statePtr =>
    obtain ⟨x, h₁, hserialize, hrest⟩ := Exec.bind_eq_ok.mp hrun
    cases hrest
    obtain ⟨rfl, hsaved⟩ := ratchetSerialize_eq_ok hserialize
    refine hs.keep fun state saved hstate heq => ?_
    have hserialize' : Ratchet.serialize mapOrder setOrder state = some saved :=
      (hsaved state hstate).symm.trans heq
    exact Ffi.alike_deserialize hserialize'
  | deserialize A jsonStr => exact java_deserialize hs hrun

end Client

end Jni
