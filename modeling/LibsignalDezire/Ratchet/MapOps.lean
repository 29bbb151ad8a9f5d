/-
The operations that a call makes on the map of skipped keys.

The map is touched by four operations only: the search, an eviction, an insertion,
and an error that drops it.  `mapOps` lists those of a call, one list for each
function the map is passed to.

* `mapOps_replay` — replaying the list gives the map after the call;
* `mapOps_cases` — each list is that of a search or of a call of
  `skip_message_keys`.
-/
import LibsignalDezire.Ratchet.Calls

namespace Ratchet

variable {K : Type} [DecidableEq K]

/-! ### The operations -/

/-- An operation of the source on `mkskipped`. -/
inductive MapOp (K : Type) where
  /-- `try_skipped_message_keys` -/
  | search (order : HashOrder (K × UInt32)) (encHeader ciphertext ad : Bytes)
  /-- `evict_oldest_skipped_keys`, to `MAX_SKIPPED_KEYS / 2` entries -/
  | evict (order : HashOrder (K × UInt32))
  /-- `mkskipped.insert` -/
  | insert (k : K × UInt32) (v : SkippedKey K)
  /-- an error of `skip_message_keys`: the map taken out of the state is lost -/
  | drop

variable (P : Primitives K)

def MapOp.apply (m : SkippedKeyMap K) : MapOp K → SkippedKeyMap K
  | search order encHeader ciphertext ad =>
    match trySkippedMessageKeys P order m encHeader ciphertext ad with
    | .ok (m', _) => m'
    | _ => m
  | evict order => evictOldestSkippedKeys order m (maxSkippedKeys / 2)
  | insert k v => m.insert k v
  | drop => ∅

/-- The clock reading that the operation writes into the map. -/
def MapOp.reading : MapOp K → Option SystemTime
  | insert _ v => some v.timestamp
  | _ => none

/-- The operations of the skip loop over the numbers `l`. -/
def turnOps (order : HashOrder (K × UInt32)) (hk : K) (time : ℕ → SystemTime) :
    List ℕ → SkippedKeyMap K × K → List (MapOp K)
  | [], _ => []
  | i :: l, x =>
    (if maxSkippedKeys ≤ x.1.keys.length then [.evict order] else []) ++
      .insert (hk, UInt32.ofNat i) ⟨(kdfCk P x.2).2, time i⟩ ::
        turnOps order hk time l (skipTurn P order hk time x i)

/-- The operations of a call of `skipMessageKeys`. -/
def skipOps (order : HashOrder (K × UInt32)) (clock : ℕ → SystemTime)
    (mkskipped : SkippedKeyMap K) (ck hk : K) (a b : ℕ) : List (MapOp K) :=
  if b < a ∨ a + maxSkip.toNat < b then [.drop]
  else turnOps P order hk (fun i => clock (i - a)) (List.range' a (b - a)) (mkskipped, ck)

/-- The operations of `storeSkipped`. -/
def storeOps (env : CallEnv K) (call : ℕ) (toN : UInt32) (st : RatchetState K) :
    List (MapOp K) :=
  match st.ckR, st.hkR with
  | some ck, some hk =>
    skipOps P env.hashOrder (env.clock call) st.mkskipped ck hk st.nr.toNat toN.toNat
  | _, _ => []

/-- The operations of `commitStateChanges`, one list for each call of
`skipMessageKeys`. -/
def commitOps (env : CallEnv K) (header : RatchetHeader) (st : RatchetState K) :
    Bool → List (List (MapOp K))
  | false => [storeOps P env 1 header.n st]
  | true =>
    storeOps P env 0 header.pn st ::
      match storeSkipped P env 0 header.pn st with
      | (.ok _, st₁) => [storeOps P env 1 header.n (ratcheted P env header st₁)]
      | _ => []

/-- The operations that a call makes on `mkskipped`, one list for each function the
map is passed to. -/
def mapOps (b : Build) (st : RatchetState K) : Call K → List (List (MapOp K))
  | .encrypt .. => []
  | .decrypt env encHeader ciphertext associatedData =>
    if maxAdSize < associatedData.length then []
    else
      let ad := concatAd associatedData encHeader
      [.search env.hashOrder encHeader ciphertext ad] ::
        match trySkippedMessageKeys P env.hashOrder st.mkskipped encHeader ciphertext ad with
        | .ok (_, some _) => []
        | _ =>
          match decryptHeader P st encHeader with
          | .ok (header, dhRatchet) =>
            if (header.dhPub, header.n) ∈ st.receivedMessages then []
            else
              match computeMessageKey P b st header dhRatchet >>= fun mk =>
                  decryptAead P mk ciphertext ad with
              | .ok _ => commitOps P env header st dhRatchet
              | _ => []
          | _ => []

/-! ### Replaying the operations -/

section Replay

variable {P}

/-- The operations of one turn. -/
theorem apply_turn (order : HashOrder (K × UInt32)) (hk : K) (time : ℕ → SystemTime)
    (x : SkippedKeyMap K × K) (i : ℕ) :
    MapOp.apply P (Machine.run (MapOp.apply P) x.1
        (if maxSkippedKeys ≤ x.1.keys.length then [.evict order] else []))
      (.insert (hk, UInt32.ofNat i) ⟨(kdfCk P x.2).2, time i⟩)
      = (skipTurn P order hk time x i).1 := by
  rw [skipTurn]
  by_cases hfull : maxSkippedKeys ≤ x.1.keys.length
  · simp only [if_pos hfull, Machine.run_cons, Machine.run_nil, MapOp.apply]
  · simp only [if_neg hfull, Machine.run_nil, MapOp.apply]

theorem run_turnOps (order : HashOrder (K × UInt32)) (hk : K) (time : ℕ → SystemTime)
    (l : List ℕ) (x : SkippedKeyMap K × K) :
    Machine.run (MapOp.apply P) x.1 (turnOps P order hk time l x)
      = (l.foldl (skipTurn P order hk time) x).1 := by
  induction l generalizing x with
  | nil => rfl
  | cons i l ih =>
    rw [turnOps, Machine.run_append, Machine.run_cons, List.foldl_cons, apply_turn, ih]

theorem run_skipOps (order : HashOrder (K × UInt32)) (clock : ℕ → SystemTime)
    (m : SkippedKeyMap K) (ck hk : K) (fromN toN : UInt32) :
    Machine.run (MapOp.apply P) m (skipOps P order clock m ck hk fromN.toNat toN.toNat)
      = match skipMessageKeys P order clock m ck hk fromN toN with
        | .ok m' => m'
        | _ => ∅ := by
  rw [skipMessageKeys_eq, skipOps, exactSkip]
  by_cases hlt : toN.toNat < fromN.toNat
  · rw [if_pos (.inl hlt), if_pos hlt]
    rfl
  · by_cases hlimit : fromN.toNat + maxSkip.toNat < toN.toNat
    · rw [if_pos (.inr hlimit), if_neg hlt, if_pos hlimit]
      rfl
    · rw [if_neg (not_or.mpr ⟨hlt, hlimit⟩), if_neg hlt, if_neg hlimit]
      exact run_turnOps order hk _ _ (m, ck)

theorem run_storeOps (env : CallEnv K) (call : ℕ) (toN : UInt32) (st : RatchetState K) :
    Machine.run (MapOp.apply P) st.mkskipped (storeOps P env call toN st)
      = (storeSkipped P env call toN st).2.mkskipped := by
  rw [storeOps]
  cases hck : st.ckR with
  | none =>
    rw [storeSkipped_none P env call toN (.inl hck)]
    rfl
  | some ck =>
    cases hhk : st.hkR with
    | none =>
      rw [storeSkipped_none P env call toN (.inr hhk)]
      rfl
    | some hk =>
      dsimp only
      rw [run_skipOps, storeSkipped_some P env call toN hck hhk]
      cases skipMessageKeys P env.hashOrder (env.clock call) st.mkskipped ck hk st.nr toN <;> rfl

theorem run_commitOps (env : CallEnv K) (header : RatchetHeader) (st : RatchetState K)
    (f : Bool) :
    Machine.run (MapOp.apply P) st.mkskipped (commitOps P env header st f).flatten
      = (commitStateChanges P env header f st).2.mkskipped := by
  have hchain : ∀ st : RatchetState K,
      Machine.run (MapOp.apply P) st.mkskipped (storeOps P env 1 header.n st)
        = (commitStateChanges P env header false st).2.mkskipped := by
    intro st
    rw [run_storeOps, commitStateChanges_tail]
  cases f with
  | false =>
    rw [commitOps, List.flatten_cons, List.flatten_nil, List.append_nil, hchain]
  | true =>
    rw [commitOps, List.flatten_cons, Machine.run_append, run_storeOps, commitStateChanges_true]
    rcases storeSkipped P env 0 header.pn st with ⟨_ | _ | _, st₁⟩
    · rw [List.flatten_cons, List.flatten_nil, List.append_nil]
      exact hchain (ratcheted P env header st₁)
    · rfl
    · rfl

/-- **The operations account for all changes of the map**, whatever the call and
however it ends. -/
theorem mapOps_replay (b : Build) (st : RatchetState K) (c : Call K) :
    (st.step P b c).mkskipped
      = Machine.run (MapOp.apply P) st.mkskipped (mapOps P b st c).flatten := by
  cases c with
  | encrypt plaintext ad => exact (encrypt_receiving st plaintext ad).1
  | decrypt env encHeader ciphertext ad =>
    show (decrypt P b env encHeader ciphertext ad st).2.mkskipped = _
    rw [mapOps]
    by_cases had : maxAdSize < ad.length
    · rw [if_pos had, decrypt_of_adTooLarge P had]
      rfl
    rw [if_neg had]
    dsimp only
    rw [List.flatten_cons, Machine.run_append, Machine.run_cons, Machine.run_nil]
    rcases trySkippedMessageKeys_cases P env.hashOrder st.mkskipped encHeader ciphertext
      (concatAd ad encHeader) with ⟨htry, hno⟩ | ⟨k, v, p, -, -, htry⟩
    · rw [decrypt_of_not_skipped P (not_lt.mp had) hno, MapOp.apply, htry]
      dsimp only
      cases decryptHeader P st encHeader with
      | err e => rfl
      | panic => rfl
      | ok hf =>
        obtain ⟨header, f⟩ := hf
        dsimp only
        by_cases hdup : (header.dhPub, header.n) ∈ st.receivedMessages
        · rw [if_pos hdup, if_pos hdup]
          rfl
        · rw [if_neg hdup, if_neg hdup]
          cases computeMessageKey P b st header f >>= fun mk =>
              decryptAead P mk ciphertext (concatAd ad encHeader) with
          | err e => rfl
          | panic => rfl
          | ok p =>
            dsimp only
            rw [trackMessage_mkskipped, run_commitOps]
    · rw [MapOp.apply, htry]
      simp [decrypt, Exec.bind_apply, had, htry]

end Replay

/-! ### The lists of a call -/

section Lists

variable {P} {b : Build} {env : CallEnv K} {header : RatchetHeader} {st : RatchetState K}
  {ops : List (MapOp K)} {before after : List (List (MapOp K))}

/-- The operations of one call of `skipMessageKeys` on the map `m`, if any: the
error that drops the map, or the turns of the loop. -/
inductive SkipCall (P : Primitives K) (m : SkippedKeyMap K) (failed : Prop) :
    List (MapOp K) → Prop
  | none : SkipCall P m failed []
  | drop : failed → SkipCall P m failed [.drop]
  | turns {order hk time a n ck} : n ≤ maxSkip.toNat →
      SkipCall P m failed (turnOps P order hk time (List.range' a n) (m, ck))

theorem SkipCall.mono {m : SkippedKeyMap K} {failed failed' : Prop}
    (h : SkipCall P m failed ops) (himp : failed → failed') : SkipCall P m failed' ops := by
  cases h with
  | none => exact .none
  | drop hf => exact .drop (himp hf)
  | turns hn => exact .turns hn

theorem storeOps_skipCall (env : CallEnv K) (call : ℕ) (toN : UInt32) (st : RatchetState K) :
    SkipCall P st.mkskipped (∃ e, (storeSkipped P env call toN st).1 = .err e)
      (storeOps P env call toN st) := by
  rw [storeOps]
  cases hck : st.ckR with
  | none => exact .none
  | some ck =>
    cases hhk : st.hkR with
    | none => exact .none
    | some hk =>
      dsimp only
      rw [skipOps]
      split
      case isTrue hout =>
        refine .drop ?_
        rw [storeSkipped_some P env call toN hck hhk]
        rcases hout with hlt | hlimit
        · rw [skipMessageKeys_of_lt P _ _ _ _ _ hlt]
          exact ⟨_, rfl⟩
        · rw [skipMessageKeys_of_limit P _ _ _ _ _ hlimit]
          exact ⟨_, rfl⟩
      case isFalse hin => exact .turns (by omega)

theorem commitOps_skipCall {f : Bool} (h : commitOps P env header st f
    = before ++ ops :: after) :
    SkipCall P (Machine.run (MapOp.apply P) st.mkskipped before.flatten)
      (∃ e, (commitStateChanges P env header f st).1 = .err e) ops := by
  -- an error of the second call of `storeSkipped` is one of the commit
  have hchain : ∀ st : RatchetState K, (∃ e, (storeSkipped P env 1 header.n st).1 = .err e) →
      ∃ e, (commitStateChanges P env header false st).1 = .err e := by
    rintro st ⟨e, he⟩
    refine ⟨e, ?_⟩
    simp only [commitStateChanges, Exec.bind_apply, if_false, Bool.false_eq_true]
    rcases hres : storeSkipped P env 1 header.n st with ⟨_ | _ | _, st₁⟩ <;> rw [hres] at he <;>
      cases he
    rfl
  cases f with
  | false =>
    rw [commitOps] at h
    cases before with
    | nil =>
      injection h with hops
      subst hops
      exact (storeOps_skipCall env 1 header.n st).mono (hchain st)
    | cons x before => cases before <;> cases h
  | true =>
    rw [commitOps] at h
    cases before with
    | nil =>
      injection h with hops
      subst hops
      refine (storeOps_skipCall env 0 header.pn st).mono ?_
      rintro ⟨e, he⟩
      refine ⟨e, ?_⟩
      rw [commitStateChanges_true]
      rcases hres : storeSkipped P env 0 header.pn st
        with ⟨_ | _ | _, st₁⟩ <;> rw [hres] at he <;>
        cases he
      rfl
    | cons x before =>
      injection h with hx hrest
      subst hx
      have hmap := run_storeOps (P := P) env 0 header.pn st
      rw [commitStateChanges_true]
      rcases hres : storeSkipped P env 0 header.pn st with ⟨_ | _ | _, st₁⟩ <;>
        rw [hres] at hrest hmap
      · cases before with
        | nil =>
          injection hrest with hops
          subst hops
          rw [List.flatten_cons, List.flatten_nil, List.append_nil, hmap]
          exact (storeOps_skipCall env 1 header.n (ratcheted P env header st₁)).mono
            (hchain (ratcheted P env header st₁))
        | cons y before => cases before <;> cases hrest
      · cases before <;> cases hrest
      · cases before <;> cases hrest

/-- The map is passed to the search, and after a message that opens to
`skipMessageKeys`. -/
theorem mapOps_cases {encHeader ciphertext ad : Bytes}
    (h : mapOps P b st (.decrypt env encHeader ciphertext ad) = before ++ ops :: after) :
    before = [] ∧ ops = [.search env.hashOrder encHeader ciphertext (concatAd ad encHeader)] ∧
        ad.length ≤ maxAdSize ∨
      SkipCall P (Machine.run (MapOp.apply P) st.mkskipped before.flatten)
        (∃ e, (decrypt P b env encHeader ciphertext ad st).1 = .err e) ops := by
  rw [mapOps] at h
  by_cases had : maxAdSize < ad.length
  · rw [if_pos had] at h
    cases before <;> cases h
  rw [if_neg had] at h
  dsimp only at h
  cases before with
  | nil =>
    injection h with hops
    exact .inl ⟨rfl, hops.symm, not_lt.mp had⟩
  | cons x before =>
    injection h with hx hrest
    subst hx
    right
    rcases trySkippedMessageKeys_cases P env.hashOrder st.mkskipped encHeader ciphertext
      (concatAd ad encHeader) with ⟨htry, hno⟩ | ⟨k, v, p, -, -, htry⟩
    swap
    · rw [htry] at hrest
      cases before <;> cases hrest
    rw [htry] at hrest
    have hsearch : MapOp.apply P st.mkskipped
        (.search env.hashOrder encHeader ciphertext (concatAd ad encHeader)) = st.mkskipped := by
      rw [MapOp.apply, htry]
    rw [decrypt_of_not_skipped P (not_lt.mp had) hno, List.flatten_cons, Machine.run_append,
      Machine.run_cons, Machine.run_nil, hsearch]
    dsimp only at hrest
    cases hhdr : decryptHeader P st encHeader with
    | err e =>
      rw [hhdr] at hrest
      cases before <;> cases hrest
    | panic =>
      rw [hhdr] at hrest
      cases before <;> cases hrest
    | ok hf =>
      obtain ⟨header, f⟩ := hf
      rw [hhdr] at hrest
      dsimp only at hrest ⊢
      by_cases hdup : (header.dhPub, header.n) ∈ st.receivedMessages
      · rw [if_pos hdup] at hrest
        cases before <;> cases hrest
      rw [if_neg hdup] at hrest ⊢
      cases hopen : computeMessageKey P b st header f >>= fun mk =>
          decryptAead P mk ciphertext (concatAd ad encHeader) with
      | err e =>
        rw [hopen] at hrest
        cases before <;> cases hrest
      | panic =>
        rw [hopen] at hrest
        cases before <;> cases hrest
      | ok p =>
        rw [hopen] at hrest
        refine (commitOps_skipCall hrest).mono ?_
        rintro ⟨e, he⟩
        refine ⟨e, ?_⟩
        rcases hres : commitStateChanges P env header f st with ⟨_ | _ | _, st₁⟩ <;>
          rw [hres] at he <;> cases he
        rfl

end Lists

end Ratchet
