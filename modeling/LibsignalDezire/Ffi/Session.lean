/-
Sessions behind the C API.

A client keeps each end of a session at a handle, or saved in a string of the library or
anywhere else, and may do anything else with the library in between: other sessions, other
buffers, freeing what it does not need.  `Track` is what it has to know for that: which
handle is which end, and what was saved of an end that has not been used since.

* `Tracks.step_some`, `Tracks.step_none` — a call on an end of the session is one of the
  session, and any other call leaves the session alone.
-/
import LibsignalDezire.Ffi.Frame
import LibsignalDezire.Ratchet.Restored

namespace Ffi

open Ratchet (RatchetState RatchetError SavedState Json Session Party Event CallEnv Build Alike)

variable {K : Type}

/-! ### Keeping track -/

/-- Which handles are the ends of the session, and what was saved that holds an end as it
is, in whichever strings. -/
structure Track (K : Type) where
  handle : Party → ℕ
  copies : List (SavedState K × Party)

deriving instance DecidableEq for Ratchet.SavedSkippedKey

deriving instance DecidableEq for SavedState

namespace Track

/-- The end of the session at a handle. -/
def party (τ : Track K) (ptr : ℕ) : Option Party :=
  if ptr = 0 then none
  else if ptr = τ.handle .initiator then some .initiator
  else if ptr = τ.handle .responder then some .responder
  else none

theorem party_eq_some {τ : Track K} {ptr : ℕ} {q : Party} (hq : τ.party ptr = some q) :
    ptr ≠ 0 ∧ ptr = τ.handle q := by
  unfold party at hq
  split at hq
  case isTrue => cases hq
  case isFalse hne =>
    refine ⟨hne, ?_⟩
    split at hq
    case isTrue heq =>
      cases hq
      exact heq
    case isFalse =>
      split at hq
      case isTrue heq =>
        cases hq
        exact heq
      case isFalse => cases hq

theorem ne_handle {τ : Track K} {ptr : ℕ} (hnone : τ.party ptr = none) {q : Party}
    (hq : τ.handle q ≠ 0) : ptr ≠ τ.handle q := by
  rintro rfl
  rw [party, if_neg hq] at hnone
  cases q with
  | initiator =>
    rw [if_pos rfl] at hnone
    cases hnone
  | responder =>
    split at hnone
    · cases hnone
    · rw [if_pos rfl] at hnone
      cases hnone

/-- The event of the session that a call is, if it is one. -/
def event (τ : Track K) (h : Heap (Block K)) : Call K → Option (Event K)
  | .encrypt _ _ statePtr plaintext plaintextLen ad adLen .valid => do
    let q ← τ.party statePtr
    let plaintextSlice ← plaintext.readOrEmpty h plaintextLen
    let adSlice ← ad.readOrEmpty h adLen
    some (.encrypt q plaintextSlice adSlice)
  | .decrypt _ env statePtr header headerLen ciphertext ciphertextLen ad adLen .valid => do
    let q ← τ.party statePtr
    let headerSlice ← header.read h headerLen
    let ciphertextSlice ← ciphertext.readOrEmpty h ciphertextLen
    let adSlice ← ad.readOrEmpty h adLen
    some (.decrypt q env headerSlice.1 ciphertextSlice adSlice)
  | _ => none

/-- What was saved of an end is out of date once it is used. -/
def use (τ : Track K) (q : Party) : Track K :=
  { τ with copies := τ.copies.filter fun e => e.2 ≠ q }

/-- The client keeps in mind what it saved of the state at a handle. -/
def keep (τ : Track K) (statePtr : ℕ) (saved : Option (SavedState K)) : Track K :=
  match τ.party statePtr, saved with
  | some q, some saved => { τ with copies := (saved, q) :: τ.copies }
  | _, _ => τ

/-- The end of the session that a copy is of. -/
def copyOf [DecidableEq K] (τ : Track K) (saved : SavedState K) : Option Party :=
  (τ.copies.find? fun e => e.1 = saved).map Prod.snd

/-- What was restored of an end is where it is from now on. -/
def restore (τ : Track K) (q : Option Party) (ptr : ℕ) : Track K :=
  match q with
  | some q => if ptr = 0 then τ else { τ with handle := Function.update τ.handle q ptr }
  | none => τ

/-- No end is at `ptr` any more. -/
def free (τ : Track K) (ptr : ℕ) : Track K :=
  { τ with handle := fun q => if τ.handle q = ptr then 0 else τ.handle q }

/-- What a client notes after an event of the session, or after none. -/
def noteEvent (τ : Track K) : Option (Event K) → Track K
  | some (.encrypt q _ _) => τ.use q
  | some (.decrypt q _ _ _ _) => τ.use q
  | none => τ

/-- What a client notes after a call.  What it restores is what it reads in the string. -/
def note [DecidableEq K] [Json K] (τ : Track K) (h : Heap (Block K)) : Call K → Reply → Track K
  | .serialize _ mapOrder setOrder statePtr, .pointer ptr =>
    if ptr = 0 then τ
    else τ.keep statePtr ((stateAt h statePtr).bind (Ratchet.serialize mapOrder setOrder))
  | .deserialize _ json, .pointer ptr => τ.restore ((json.read h).join.bind τ.copyOf) ptr
  | .freeState state, _ => τ.free state
  | c, _ => τ.noteEvent (τ.event h c)

end Track

/-- The iteration order that a call finds is that of the keys of the map. -/
def Call.OfKeys : Call K → Prop
  | .decrypt _ env .. => env.hashOrder.OfKeys
  | _ => True

/-- The memory of the library, and what a client of it keeps track of. -/
structure Client (K : Type) where
  heap : Heap (Block K)
  track : Track K

namespace Client

variable [DecidableEq K] [Json K] (P : Ratchet.Primitives K)
  (ofBytes : BytesN 32 → K) (b : Build)

/-- A call that does not return ends the process. -/
def step (s : Client K) (c : Call K) : Client K :=
  match c.run P ofBytes b s.heap with
  | (.ok r, h) => ⟨h, s.track.note s.heap c r⟩
  | (_, h) => ⟨h, s.track⟩

/-- The call returns. -/
def Returns (s : Client K) (c : Call K) : Prop := (c.run P ofBytes b s.heap).1.isOk

instance (s : Client K) : DecidablePred (Returns P ofBytes b s) := fun _ =>
  inferInstanceAs (Decidable (_ = true))

def event (s : Client K) (c : Call K) : Option (Event K) := s.track.event s.heap c

/-- What the client reads after a call on an end of the session. -/
def reading (s : Client K) (c : Call K) : Option Ratchet.Reply :=
  match s.event c, c.run P ofBytes b s.heap with
  | some _, (.ok r, h) => r.reading h
  | _, _ => none

end Client

/-- The ends of the session are where the client has them: in states at their handles,
and in what was saved and is up to date. -/
structure Tracks [DecidableEq K] (s : Client K) (σ : Session K) : Prop where
  handle : ∀ q, s.track.handle q ≠ 0 →
    ∃ state, s.heap.block (s.track.handle q) = some (.state state) ∧ Alike (σ.state q) state
  apart : ∀ q, s.track.handle q ≠ 0 → s.track.handle q.peer ≠ s.track.handle q
  copies : ∀ e ∈ s.track.copies, Alike (σ.state e.2) (Ratchet.deserialize e.1)

section Tracks

variable [DecidableEq K] {P : Ratchet.Primitives K} {ofBytes : BytesN 32 → K} {b : Build}
  {s : Client K} {σ : Session K}

theorem alike_trans {st st' st'' : RatchetState K} (h : Alike st st') (h' : Alike st' st'') :
    Alike st st'' := by
  obtain ⟨m, hm, rfl⟩ := h
  obtain ⟨m', hm', rfl⟩ := h'
  exact ⟨m', fun k => (hm k).trans (hm' k), rfl⟩

/-- What is restored is like what was saved. -/
theorem alike_deserialize {mapOrder : Ratchet.HashOrder (K × UInt32)}
    {setOrder : Ratchet.SetOrder (Ratchet.DhPublicKey × UInt32)} {st : RatchetState K}
    {saved : SavedState K} (h : Ratchet.serialize mapOrder setOrder st = some saved) :
    Alike st (Ratchet.deserialize saved) := by
  obtain ⟨mkskipped, hentries, hrestored⟩ := Ratchet.deserialize_serialize h
  exact ⟨mkskipped, fun k => (hentries k).symm, hrestored⟩

/-! #### Noting -/

/-- The ends of the session are where they were as long as their states are there. -/
theorem Tracks.frame (hs : Tracks s σ) {h' : Heap (Block K)}
    (hstate : ∀ q state, s.track.handle q ≠ 0 →
      s.heap.block (s.track.handle q) = some (.state state) →
      h'.block (s.track.handle q) = some (.state state)) : Tracks ⟨h', s.track⟩ σ := by
  refine ⟨fun q hq => ?_, hs.apart, hs.copies⟩
  obtain ⟨state, hblock, halike⟩ := hs.handle q hq
  exact ⟨state, hstate q state hq hblock, halike⟩

/-- What is saved at a handle holds that end of the session as it is. -/
theorem Tracks.keep (hs : Tracks s σ) {statePtr : ℕ} {saved : Option (SavedState K)}
    (hsaved : ∀ state saved', stateAt s.heap statePtr = some state → saved = some saved' →
      Alike state (Ratchet.deserialize saved')) :
    Tracks ⟨s.heap, s.track.keep statePtr saved⟩ σ := by
  unfold Track.keep
  split
  case h_2 => exact hs
  case h_1 q saved' hq =>
    refine ⟨hs.handle, hs.apart, fun e he => ?_⟩
    rcases List.mem_cons.mp he with rfl | he
    · obtain ⟨hne, rfl⟩ := Track.party_eq_some hq
      obtain ⟨state, hblock, halike⟩ := hs.handle q hne
      exact alike_trans halike (hsaved state saved' ((stateAt_eq_some _).mpr hblock) rfl)
    · exact hs.copies e he

/-- What a copy that is up to date holds. -/
theorem Tracks.copyOf (hs : Tracks s σ) {saved : SavedState K} {q : Party}
    (hq : s.track.copyOf saved = some q) : Alike (σ.state q) (Ratchet.deserialize saved) := by
  obtain ⟨e, he, rfl⟩ := Option.map_eq_some_iff.mp hq
  have heq : e.1 = saved := by simpa using List.find?_some he
  rw [← heq]
  exact hs.copies e (List.mem_of_find?_eq_some he)

/-- An end of the session is where the client notes that it is. -/
theorem Tracks.restore (hs : Tracks s σ) {q : Option Party} {ptr : ℕ}
    (hq : ∀ p, q = some p → ptr ≠ 0 → s.track.handle p.peer ≠ ptr ∧
      ∃ state, s.heap.block ptr = some (.state state) ∧ Alike (σ.state p) state) :
    Tracks ⟨s.heap, s.track.restore q ptr⟩ σ := by
  unfold Track.restore
  cases q with
  | none => exact hs
  | some q =>
    dsimp only
    split
    case isTrue => exact hs
    case isFalse hptr =>
      obtain ⟨hapart, state, hblock, halike⟩ := hq q rfl hptr
      -- the end is at `ptr`, the peer's where it was
      refine ⟨fun p hp => ?_, fun p hp => ?_, hs.copies⟩
      · dsimp only at hp ⊢
        rcases Party.eq_or_eq_peer q p with rfl | rfl
        · rw [Function.update_self]
          exact ⟨state, hblock, halike⟩
        · rw [Function.update_of_ne (Party.peer_ne q)] at hp ⊢
          exact hs.handle q.peer hp
      · dsimp only at hp ⊢
        rcases Party.eq_or_eq_peer q p with rfl | rfl
        · rw [Function.update_self, Function.update_of_ne (Party.peer_ne p)]
          exact hapart
        · rw [Function.update_of_ne (Party.peer_ne q), Party.peer_peer, Function.update_self]
          exact hapart.symm

omit [DecidableEq K] in
theorem Track.free_handle {τ : Track K} {ptr : ℕ} {q : Party} (hq : (τ.free ptr).handle q ≠ 0) :
    τ.handle q ≠ ptr ∧ (τ.free ptr).handle q = τ.handle q := by
  dsimp only [Track.free] at hq ⊢
  split at hq
  case isTrue => exact absurd rfl hq
  case isFalse hne => exact ⟨hne, if_neg hne⟩

theorem Tracks.free (hs : Tracks s σ) (ptr : ℕ) : Tracks ⟨s.heap, s.track.free ptr⟩ σ := by
  refine ⟨fun q hq => ?_, fun q hq => ?_, hs.copies⟩
  · obtain ⟨-, heq⟩ := Track.free_handle hq
    rw [heq] at hq ⊢
    exact hs.handle q hq
  · obtain ⟨-, heq⟩ := Track.free_handle hq
    dsimp only at hq ⊢
    rw [heq] at hq ⊢
    by_cases hpeer : (s.track.free ptr).handle q.peer = 0
    · rw [hpeer]
      exact hq.symm
    · rw [(Track.free_handle hpeer).2]
      exact hs.apart q hq

/-! #### Calls -/

/-- An end of the session was used at its handle. -/
theorem Tracks.used (hs : Tracks s σ) {q : Party} (hq : s.track.handle q ≠ 0)
    {h' : Heap (Block K)} {σ' : Session K} {state' : RatchetState K}
    (hblock : h'.block (s.track.handle q) = some (.state state'))
    (halike : Alike (σ'.state q) state') (hpeer : σ'.state q.peer = σ.state q.peer)
    (hframe : ∀ a state, s.heap.block a = some (.state state) → a ≠ s.track.handle q →
      h'.block a = some (.state state)) :
    Tracks ⟨h', s.track.use q⟩ σ' := by
  -- what was saved of this end is out of date; what was saved of the peer is left
  refine ⟨fun p hp => ?_, hs.apart, fun e he => ?_⟩
  · rcases Party.eq_or_eq_peer q p with rfl | rfl
    · exact ⟨state', hblock, halike⟩
    · obtain ⟨state, hstate, hold⟩ := hs.handle q.peer hp
      rw [hpeer]
      exact ⟨state, hframe _ _ hstate (hs.apart q hq), hold⟩
  · obtain ⟨he, hne⟩ := List.mem_filter.mp he
    have hpeer' : e.2 = q.peer :=
      (Party.eq_or_eq_peer q e.2).resolve_left (of_decide_eq_true hne)
    rw [hpeer', hpeer, ← hpeer']
    exact hs.copies e he

/-- And only the state of that end has changed. -/
theorem Tracks.used_of_update (hs : Tracks s σ) {q : Party} (hq : s.track.handle q ≠ 0)
    {h' : Heap (Block K)} {σ' : Session K} {state state' : RatchetState K}
    (hupdate : σ'.state = Function.update σ.state q state)
    (hblock : h'.block (s.track.handle q) = some (.state state')) (halike : Alike state state')
    (hframe : ∀ a state, s.heap.block a = some (.state state) → a ≠ s.track.handle q →
      h'.block a = some (.state state)) :
    Tracks ⟨h', s.track.use q⟩ σ' := by
  refine hs.used hq hblock ?_ ?_ hframe
  · rw [hupdate, Function.update_self]
    exact halike
  · rw [hupdate, Function.update_of_ne (Party.peer_ne q)]

variable [Json K]

theorem Client.Returns.eq_ok {c : Call K} (hc : s.Returns P ofBytes b c) :
    ∃ r h', c.run P ofBytes b s.heap = (.ok r, h') := by
  obtain ⟨r, hr⟩ := Outcome.isOk_iff.mp hc
  exact ⟨r, (c.run P ofBytes b s.heap).2, Prod.ext hr rfl⟩

/-- An encryption at a handle is one of the session. -/
theorem Tracks.encrypt (hs : Tracks s σ) {A A' : Allocator (Block K)} {statePtr : ℕ}
    {plaintext ad : Pointer} {plaintextLen adLen : ℕ} {q : Party}
    {plaintextSlice adSlice : Bytes}
    (hq : s.track.party statePtr = some q)
    (hplaintext : plaintext.readOrEmpty s.heap plaintextLen = some plaintextSlice)
    (had : ad.readOrEmpty s.heap adLen = some adSlice) {r : Reply} {h' : Heap (Block K)}
    (hrun : (Call.encrypt A A' statePtr plaintext plaintextLen ad adLen .valid).run P
      ofBytes b s.heap = (.ok r, h')) :
    r.reading h' = some (σ.reply P b (.encrypt q plaintextSlice adSlice)) ∧
      Tracks ⟨h', s.track.use q⟩ (σ.step P b (.encrypt q plaintextSlice adSlice)) := by
  obtain ⟨hne, rfl⟩ := Track.party_eq_some hq
  obtain ⟨state, hstate, halike⟩ := hs.handle q hne
  have hframe : ∀ a state, s.heap.block a = some (.state state) → a ≠ s.track.handle q →
      h'.block a = some (.state state) := by
    intro a state hb ha
    exact run_block P hrun hb fun heq => ha (Option.some_inj.mp heq).symm
  obtain ⟨x, h₁, hencrypt, hrest⟩ := Exec.bind_eq_ok.mp hrun
  cases hrest
  rw [ratchetEncrypt_of_some P A A' ((stateAt_eq_some _).mpr hstate) hplaintext had] at hencrypt
  obtain ⟨hreply, halike'⟩ := Ratchet.encrypt_alike P plaintextSlice adSlice _ _ halike
  have hreply := hreply.eq
  have hupdate : (σ.encrypt P q plaintextSlice adSlice).state = Function.update σ.state q
      (Ratchet.encrypt P plaintextSlice adSlice (σ.state q)).2 := Session.encrypt_state
  have hafter : ∀ state', (Ratchet.encrypt P plaintextSlice adSlice state).2 = state' →
      h'.block (s.track.handle q) = some (.state state') →
      Tracks ⟨h', s.track.use q⟩ (σ.step P b (.encrypt q plaintextSlice adSlice)) := by
    rintro _ rfl hblock
    exact hs.used_of_update hne hupdate hblock halike' hframe
  -- what is read: the buffers of a message, the error of a status
  rw [Session.reply, hreply]
  revert hencrypt hafter
  rcases Ratchet.encrypt P plaintextSlice adSlice state with
    ⟨⟨header, ciphertext⟩ | e | _, state'⟩
  · intro hencrypt hafter
    cases hencrypt
    refine ⟨?_, hafter state' rfl ?_⟩
    · simp only [Reply.reading, if_true, readOrEmpty_holdBytes_twice, readOrEmpty_holdBytes,
        Option.bind_eq_bind, Option.bind_some]
    · exact holdBytes_block _ _ _ (holdBytes_block _ _ _ (Heap.set_block_self _ hne _))
  · intro hencrypt hafter
    cases hencrypt
    refine ⟨?_, hafter state' rfl (Heap.set_block_self _ hne _)⟩
    have hstatus : mapError e ≠ 0 := (mapError_bounds e).2.ne
    simp only [Reply.reading, if_neg hstatus, errorOf_mapError, Option.map_some]
  · intro hencrypt
    cases hencrypt

/-- A decryption at a handle is one of the session. -/
theorem Tracks.decrypt (hs : Tracks s σ) {A : Allocator (Block K)} {env : CallEnv K}
    (horder : env.hashOrder.OfKeys) {statePtr : ℕ} {header ciphertext ad : Pointer}
    {headerLen ciphertextLen adLen : ℕ} {q : Party} {headerSlice : BytesN headerLen}
    {ciphertextSlice adSlice : Bytes}
    (hq : s.track.party statePtr = some q)
    (hheader : header.read s.heap headerLen = some headerSlice)
    (hciphertext : ciphertext.readOrEmpty s.heap ciphertextLen = some ciphertextSlice)
    (had : ad.readOrEmpty s.heap adLen = some adSlice) {r : Reply} {h' : Heap (Block K)}
    (hrun : (Call.decrypt A env statePtr header headerLen ciphertext ciphertextLen ad adLen
      .valid).run P ofBytes b s.heap = (.ok r, h')) :
    r.reading h' = some (σ.reply P b (.decrypt q env headerSlice.1 ciphertextSlice adSlice)) ∧
      Tracks ⟨h', s.track.use q⟩
        (σ.step P b (.decrypt q env headerSlice.1 ciphertextSlice adSlice)) := by
  obtain ⟨hne, rfl⟩ := Track.party_eq_some hq
  obtain ⟨state, hstate, halike⟩ := hs.handle q hne
  have hframe : ∀ a state, s.heap.block a = some (.state state) → a ≠ s.track.handle q →
      h'.block a = some (.state state) := by
    intro a state hb ha
    exact run_block P hrun hb fun heq => ha (Option.some_inj.mp heq).symm
  obtain ⟨x, h₁, hdecrypt, hrest⟩ := Exec.bind_eq_ok.mp hrun
  cases hrest
  rw [ratchetDecrypt_of_some P b A env ((stateAt_eq_some _).mpr hstate) hheader hciphertext had]
    at hdecrypt
  obtain ⟨hreply, halike'⟩ := Ratchet.decrypt_alike P horder b headerSlice.1
    ciphertextSlice adSlice _ _ halike
  have hreply := hreply.eq
  have hupdate : (σ.decrypt P b q env headerSlice.1 ciphertextSlice adSlice).state
      = Function.update σ.state q
        (Ratchet.decrypt P b env headerSlice.1 ciphertextSlice adSlice (σ.state q)).2 :=
    Session.decrypt_state rfl
  have hafter : ∀ state',
      (Ratchet.decrypt P b env headerSlice.1 ciphertextSlice adSlice state).2 = state' →
      h'.block (s.track.handle q) = some (.state state') →
      Tracks ⟨h', s.track.use q⟩
        (σ.step P b (.decrypt q env headerSlice.1 ciphertextSlice adSlice)) := by
    rintro _ rfl hblock
    exact hs.used_of_update hne hupdate hblock halike' hframe
  -- what is read: the buffer of a plaintext, the error of a status
  rw [Session.reply, hreply]
  revert hdecrypt hafter
  rcases Ratchet.decrypt P b env headerSlice.1 ciphertextSlice adSlice state with
    ⟨plaintext | e | _, state'⟩
  · intro hdecrypt hafter
    cases hdecrypt
    refine ⟨?_, hafter state' rfl ?_⟩
    · simp only [Reply.reading, if_true, readOrEmpty_holdBytes, Option.bind_eq_bind,
        Option.bind_some]
    · exact holdBytes_block _ _ _ (Heap.set_block_self _ hne _)
  · intro hdecrypt hafter
    cases hdecrypt
    refine ⟨?_, hafter state' rfl (Heap.set_block_self _ hne _)⟩
    have hstatus : mapError e ≠ 0 := (mapError_bounds e).2.ne
    simp only [Reply.reading, if_neg hstatus, errorOf_mapError, Option.map_some]
  · intro hdecrypt
    cases hdecrypt

/-- A call that is about no end of the session leaves them all alone. -/
theorem Tracks.idle (hs : Tracks s σ) {c : Call K} {r : Reply} {h' : Heap (Block K)}
    (hrun : c.run P ofBytes b s.heap = (.ok r, h'))
    (hstate : ∀ q, s.track.handle q ≠ 0 → c.statePtr ≠ some (s.track.handle q)) :
    Tracks ⟨h', s.track⟩ σ :=
  hs.frame fun q _ hq hblock => run_block P hrun hblock (hstate q hq)

/-- An encryption or decryption that is no event is about no end of the session. -/
theorem Tracks.encrypt_none (hs : Tracks s σ) {A A' : Allocator (Block K)} {statePtr : ℕ}
    {plaintext ad : Pointer} {plaintextLen adLen : ℕ} {output : OutPointer} {r : Reply}
    {h' : Heap (Block K)}
    (hrun : (Call.encrypt A A' statePtr plaintext plaintextLen ad adLen output).run P
      ofBytes b s.heap = (.ok r, h'))
    (hnone : s.event (.encrypt A A' statePtr plaintext plaintextLen ad adLen output) = none) :
    Tracks ⟨h', s.track⟩ σ := by
  obtain ⟨x, h₁, hencrypt, hrest⟩ := Exec.bind_eq_ok.mp hrun
  cases hrest
  rcases ratchetEncrypt_eq_ok P hencrypt with
    ⟨-, rfl⟩ | ⟨rfl, state, plaintextSlice, adSlice, -, hplaintext, had⟩
  · exact hs
  have hparty : s.track.party statePtr = none := by
    cases hq : s.track.party statePtr with
    | none => rfl
    | some q =>
      simp only [Client.event, Track.event, hq, hplaintext, had, Option.bind_eq_bind,
        Option.bind_some] at hnone
      cases hnone
  exact hs.idle hrun fun q hq heq => Track.ne_handle hparty hq (Option.some_inj.mp heq)

theorem Tracks.decrypt_none (hs : Tracks s σ) {A : Allocator (Block K)} {env : CallEnv K}
    {statePtr : ℕ} {header ciphertext ad : Pointer} {headerLen ciphertextLen adLen : ℕ}
    {output : OutPointer} {r : Reply} {h' : Heap (Block K)}
    (hrun : (Call.decrypt A env statePtr header headerLen ciphertext ciphertextLen ad adLen
      output).run P ofBytes b s.heap = (.ok r, h'))
    (hnone : s.event (.decrypt A env statePtr header headerLen ciphertext ciphertextLen ad adLen
      output) = none) : Tracks ⟨h', s.track⟩ σ := by
  obtain ⟨x, h₁, hdecrypt, hrest⟩ := Exec.bind_eq_ok.mp hrun
  cases hrest
  rcases ratchetDecrypt_eq_ok P hdecrypt with
    ⟨-, rfl⟩ | ⟨rfl, state, headerSlice, ciphertextSlice, adSlice, -, hheader, hciphertext, had⟩
  · exact hs
  have hparty : s.track.party statePtr = none := by
    cases hq : s.track.party statePtr with
    | none => rfl
    | some q =>
      simp only [Client.event, Track.event, hq, hheader, hciphertext, had, Option.bind_eq_bind,
        Option.bind_some] at hnone
      cases hnone
  exact hs.idle hrun fun q hq heq => Track.ne_handle hparty hq (Option.some_inj.mp heq)

omit [Json K] in
/-- What is handed out is not where an end of the session is. -/
theorem Tracks.fresh (hs : Tracks s σ) (A : Allocator (Block K)) (p : Party) :
    s.track.handle p ≠ A.next s.heap := by
  intro heq
  obtain ⟨state, hblock, -⟩ := hs.handle p (heq ▸ A.ne_zero s.heap)
  rw [heq, A.fresh] at hblock
  cases hblock

/-- What is saved at a handle holds that end of the session as it is. -/
theorem Tracks.serialize (hs : Tracks s σ) {A : Allocator (Block K)}
    {mapOrder : Ratchet.HashOrder (K × UInt32)}
    {setOrder : Ratchet.SetOrder (Ratchet.DhPublicKey × UInt32)} {statePtr : ℕ} {r : Reply}
    {h' : Heap (Block K)}
    (hrun : (Call.serialize A mapOrder setOrder statePtr).run P ofBytes b s.heap = (.ok r, h')) :
    Tracks ⟨h', s.track.note s.heap (.serialize A mapOrder setOrder statePtr) r⟩ σ := by
  have hidle (τ : Track K) (hτ : Tracks ⟨s.heap, τ⟩ σ) : Tracks ⟨h', τ⟩ σ :=
    hτ.idle hrun fun q hq heq => by cases heq
  obtain ⟨ptr, h₁, hserialize, hrest⟩ := Exec.bind_eq_ok.mp hrun
  cases hrest
  rw [Track.note]
  split
  case isTrue => exact hidle _ hs
  case isFalse =>
    refine hidle _ (hs.keep fun state saved hstate hsaved => ?_)
    rw [hstate, Option.bind_some] at hsaved
    exact alike_deserialize hsaved

/-- What is up to date gives back its end of the session. -/
theorem Tracks.deserialize (hs : Tracks s σ) {A : Allocator (Block K)}
    {json : Text K} {r : Reply} {h' : Heap (Block K)}
    (hrun : (Call.deserialize A json).run P ofBytes b s.heap = (.ok r, h')) :
    Tracks ⟨h', s.track.note s.heap (.deserialize A json) r⟩ σ := by
  have hidle : Tracks ⟨h', s.track⟩ σ := hs.idle hrun fun q hq heq => by cases heq
  obtain ⟨ptr, h₁, hdeserialize, hrest⟩ := Exec.bind_eq_ok.mp hrun
  cases hrest
  -- what is restored is new, and holds what was read
  refine hidle.restore fun p hp hptr => ?_
  obtain ⟨saved, hread, hcopy⟩ := Option.bind_eq_some_iff.mp hp
  rcases ratchetDeserialize_eq_ok hdeserialize with ⟨-, hzero, -⟩ | ⟨saved', hread', hboxed⟩
  · exact absurd hzero hptr
  rw [Option.join_eq_some_iff.mp hread] at hread'
  cases hread'
  cases hboxed
  exact ⟨hs.fresh A p.peer, _, Heap.set_block_self _ hptr _, hs.copyOf hcopy⟩

/-- An end of the session whose handle is freed is at no handle any more. -/
theorem Tracks.freeState (hs : Tracks s σ) {state : ℕ} {r : Reply} {h' : Heap (Block K)}
    (hrun : (Call.freeState state).run P ofBytes b s.heap = (.ok r, h')) :
    Tracks ⟨h', s.track.note s.heap (.freeState state) r⟩ σ := by
  refine (hs.free state).idle hrun fun q hq heq => ?_
  obtain ⟨hne, hhandle⟩ := Track.free_handle hq
  rw [hhandle] at heq
  exact hne (Option.some_inj.mp heq).symm

/-- **A call on an end of the session is one of the session.** -/
theorem Tracks.step_some (hs : Tracks s σ) {c : Call K} (hc : s.Returns P ofBytes b c)
    (hkeys : c.OfKeys) {e : Event K} (he : s.event c = some e) :
    s.reading P ofBytes b c = some (σ.reply P b e) ∧
      Tracks (s.step P ofBytes b c) (σ.step P b e) := by
  obtain ⟨r, h', hrun⟩ := hc.eq_ok
  have hstep : s.step P ofBytes b c = ⟨h', s.track.note s.heap c r⟩ := by
    rw [Client.step, hrun]
  have hreading : s.reading P ofBytes b c = r.reading h' := by
    rw [Client.reading, he, hrun]
  rw [hstep, hreading]
  cases c with
  | encrypt A A' statePtr plaintext plaintextLen ad adLen output =>
    cases output with
    | null => cases he
    | dangling => cases he
    | valid =>
      simp only [Client.event, Track.event, Option.bind_eq_bind, Option.bind_eq_some_iff] at he
      obtain ⟨q, hq, plaintextSlice, hplaintext, adSlice, had, heq⟩ := he
      cases heq
      simp only [Track.note, Track.noteEvent, Track.event, hq, hplaintext, had,
        Option.bind_eq_bind, Option.bind_some]
      exact hs.encrypt hq hplaintext had hrun
  | decrypt A env statePtr header headerLen ciphertext ciphertextLen ad adLen output =>
    cases output with
    | null => cases he
    | dangling => cases he
    | valid =>
      simp only [Client.event, Track.event, Option.bind_eq_bind, Option.bind_eq_some_iff] at he
      obtain ⟨q, hq, headerSlice, hheader, ciphertextSlice, hciphertext, adSlice, had, heq⟩ := he
      cases heq
      simp only [Track.note, Track.noteEvent, Track.event, hq, hheader, hciphertext, had,
        Option.bind_eq_bind, Option.bind_some]
      exact hs.decrypt hkeys hq hheader hciphertext had hrun
  | _ => cases he

/-- **Any other call leaves the session alone.** -/
theorem Tracks.step_none (hs : Tracks s σ) {c : Call K} (hc : s.Returns P ofBytes b c)
    (he : s.event c = none) : s.reading P ofBytes b c = none ∧
      Tracks (s.step P ofBytes b c) σ := by
  obtain ⟨r, h', hrun⟩ := hc.eq_ok
  have hstep : s.step P ofBytes b c = ⟨h', s.track.note s.heap c r⟩ := by
    rw [Client.step, hrun]
  refine ⟨by rw [Client.reading, he], ?_⟩
  rw [hstep]
  -- calls that hand out or take back something else
  have hother : c.statePtr = none → Tracks ⟨h', s.track⟩ σ := by
    intro hstate
    refine hs.idle hrun fun q hq heq => ?_
    rw [hstate] at heq
    cases heq
  cases c with
  | initSender A dhS sk pub => exact hother rfl
  | initReceiver A sk priv pub => exact hother rfl
  | encrypt A A' statePtr plaintext plaintextLen ad adLen output =>
    rw [Client.event] at he
    simp only [Track.note, he, Track.noteEvent]
    exact hs.encrypt_none hrun he
  | decrypt A env statePtr header headerLen ciphertext ciphertextLen ad adLen output =>
    rw [Client.event] at he
    simp only [Track.note, he, Track.noteEvent]
    exact hs.decrypt_none hrun he
  | serialize A mapOrder setOrder statePtr => exact hs.serialize hrun
  | deserialize A json => exact hs.deserialize hrun
  | freeState state => exact hs.freeState hrun
  | freeResultBuffers header headerLen ciphertext ciphertextLen => exact hother rfl
  | freeByteBuffer buffer len => exact hother rfl
  | freeString t => exact hother rfl

end Tracks

end Ffi
