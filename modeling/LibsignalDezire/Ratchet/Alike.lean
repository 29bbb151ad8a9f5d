/-
Calls on maps with the same entries.

Two states are `Alike` if they differ at most in the order of the entries of
`mkskipped`.  A call can tell them apart in two places only: the search stops at
the first entry that opens the message, and an eviction sorts the entries by their
timestamps, which does not order those of the same age.  Where neither matters the
call is `Indifferent`, and then the two states reply alike and stay alike.

* `step_reordered` — **an indifferent call replies alike on alike states**, the two
  maps iterating in orders of their own;
* `indifferent_of_dated` — timestamps that differ, and a message that opens under one
  stored key at most, make a call indifferent;
* `step_alike` — so does one order for both maps that depends on the keys only.
-/
import LibsignalDezire.Lib.Relational
import LibsignalDezire.Ratchet.Search
import LibsignalDezire.Ratchet.Survival

namespace Ratchet

variable {K : Type} [DecidableEq K]

/-! ### Maps with the same entries -/

/-- The maps hold the same entries. -/
def SameEntries (m m' : SkippedKeyMap K) : Prop := ∀ k, m.lookup k = m'.lookup k

/-- The iteration order of a map depends on the keys it holds only. -/
def HashOrder.OfKeys {κ : Type} (o : HashOrder κ) : Prop :=
  ∀ l l', l.Perm l' → o.order l = o.order l'

/-- One entry of the map at most opens the message. -/
def OpensOnce (P : Primitives K) (m : SkippedKeyMap K)
    (encHeader ciphertext ad : Bytes) : Prop :=
  ∀ k k' v v' p p', m.lookup k = some v → m.lookup k' = some v' →
    Opens P k v encHeader ciphertext ad p → Opens P k' v' encHeader ciphertext ad p' → k = k'

theorem OneHeaderKey.opensOnce {P : Primitives K} {m : SkippedKeyMap K}
    {encHeader ciphertext ad : Bytes} (h : OneHeaderKey P m encHeader) :
    OpensOnce P m encHeader ciphertext ad := fun _ _ _ _ _ _ hk hk' hopens hopens' =>
  h.matches_unique (AList.lookup_isSome.mp (hk ▸ rfl)) (AList.lookup_isSome.mp (hk' ▸ rfl))
    hopens.matches hopens'.matches

namespace SameEntries

variable {m m' : SkippedKeyMap K}

theorem refl (m : SkippedKeyMap K) : SameEntries m m := fun _ => rfl

theorem keys (h : SameEntries m m') : m.keys.Perm m'.keys := by
  rw [List.perm_ext_iff_of_nodup m.keys_nodup m'.keys_nodup]
  intro k
  rw [← AList.mem_keys, ← AList.mem_keys, ← AList.lookup_isSome, ← AList.lookup_isSome, h k]

theorem erase (h : SameEntries m m') (k : K × UInt32) :
    SameEntries (m.erase k) (m'.erase k) := by
  intro k'
  by_cases hk : k' = k
  · rw [hk, AList.lookup_erase, AList.lookup_erase]
  · rw [AList.lookup_erase_ne hk, AList.lookup_erase_ne hk, h k']

theorem insert (h : SameEntries m m') (k : K × UInt32) (v : SkippedKey K) :
    SameEntries (m.insert k v) (m'.insert k v) := by
  intro k'
  by_cases hk : k' = k
  · rw [hk, AList.lookup_insert, AList.lookup_insert]
  · rw [AList.lookup_insert_ne hk, AList.lookup_insert_ne hk, h k']

theorem foldl_erase (h : SameEntries m m') (l : List ((K × UInt32) × SystemTime)) :
    SameEntries (l.foldl (fun m e => m.erase e.1) m) (l.foldl (fun m e => m.erase e.1) m') := by
  induction l generalizing m m' with
  | nil => exact h
  | cons e l ih => exact ih (h.erase e.1)

theorem length (h : SameEntries m m') : m.keys.length = m'.keys.length := h.keys.length_eq

theorem mem_iff (h : SameEntries m m') {k : K × UInt32} : k ∈ m ↔ k ∈ m' := by
  rw [← AList.lookup_isSome, ← AList.lookup_isSome, h k]

theorem symm (h : SameEntries m m') : SameEntries m' m := fun k => (h k).symm

/-- One order for both maps picks the same entries. -/
theorem evict_of_ofKeys (h : SameEntries m m') {order : HashOrder (K × UInt32)}
    (horder : order.OfKeys) (targetSize : ℕ) :
    SameEntries (evictOldestSkippedKeys order m targetSize)
      (evictOldestSkippedKeys order m' targetSize) := by
  have hentries : (fun k => (m.lookup k).map fun v => (k, v.timestamp))
      = fun k => (m'.lookup k).map fun v => (k, v.timestamp) := by
    funext k
    rw [h k]
  rw [evictOldestSkippedKeys, evictOldestSkippedKeys, horder _ _ h.keys, hentries]
  exact h.foldl_erase _

/-- Evictions do not depend on the order of entries of different ages. -/
theorem evict_of_dated (h : SameEntries m m') {readings : List SystemTime}
    (hdated : Dated m readings) (order order' : HashOrder (K × UInt32)) (n : ℕ) :
    SameEntries (evictOldestSkippedKeys order m n) (evictOldestSkippedKeys order' m' n) := by
  have hdated' : Dated m' readings := hdated.of_lookup (List.Subset.refl _)
    fun k v hk => (h k).trans hk
  have hafter : ∀ t, keysAfter m t = keysAfter m' t := by
    intro t
    ext k
    rw [mem_keysAfter, mem_keysAfter, h k]
  intro k
  rcases Option.eq_none_or_eq_some (m.lookup k) with hk | ⟨v, hk⟩
  · have hgone : ∀ {order : HashOrder (K × UInt32)} {m : SkippedKeyMap K}, m.lookup k = none →
        (evictOldestSkippedKeys order m n).lookup k = none := by
      intro order m hk
      by_contra hne
      obtain ⟨v, hv⟩ := Option.ne_none_iff_exists'.mp hne
      rw [lookup_evictOldestSkippedKeys hv] at hk
      cases hk
    rw [hgone hk, hgone ((h k).symm.trans hk)]
  · rw [lookup_evictOldestSkippedKeys_eq hdated hk,
      lookup_evictOldestSkippedKeys_eq hdated' ((h k).symm.trans hk), hafter]

variable (P : Primitives K)

/-- The search removes the same entry from both maps. -/
theorem tryCandidates (h : SameEntries m m') (encHeader ciphertext ad : Bytes)
    (l : List (K × UInt32)) :
    Outcome.Rel (fun x y => SameEntries x.1 y.1 ∧ x.2 = y.2)
      (Ratchet.tryCandidates P m encHeader ciphertext ad l)
      (Ratchet.tryCandidates P m' encHeader ciphertext ad l) := by
  induction l with
  | nil => exact .ok ⟨h, rfl⟩
  | cons k rest ih =>
    obtain ⟨hk, n⟩ := k
    rw [Ratchet.tryCandidates, Ratchet.tryCandidates, ← h (hk, n)]
    cases m.lookup (hk, n) with
    | none => exact ih
    | some skippedKey =>
      dsimp only
      cases decryptHeaderWithKey P hk encHeader with
      | panic => exact .panic
      | err e => exact ih
      | ok header =>
        dsimp only
        split
        · cases decryptAead P skippedKey.mk ciphertext ad with
          | panic => exact .panic
          | err e => exact ih
          | ok plaintext => exact .ok ⟨h.erase _, rfl⟩
        · exact ih

theorem search_of_ofKeys (h : SameEntries m m') {order : HashOrder (K × UInt32)}
    (horder : order.OfKeys) (encHeader ciphertext ad : Bytes) :
    Outcome.Rel (fun x y => SameEntries x.1 y.1 ∧ x.2 = y.2)
      (trySkippedMessageKeys P order m encHeader ciphertext ad)
      (trySkippedMessageKeys P order m' encHeader ciphertext ad) := by
  rw [trySkippedMessageKeys, trySkippedMessageKeys, horder _ _ h.keys]
  exact h.tryCandidates P _ _ _ _

/-- The search finds the one entry that opens the message. -/
theorem search_of_opensOnce (h : SameEntries m m') {encHeader ciphertext ad : Bytes}
    (honce : OpensOnce P m encHeader ciphertext ad) (order order' : HashOrder (K × UInt32)) :
    Outcome.Rel (fun x y => SameEntries x.1 y.1 ∧ x.2 = y.2)
      (trySkippedMessageKeys P order m encHeader ciphertext ad)
      (trySkippedMessageKeys P order' m' encHeader ciphertext ad) := by
  rcases trySkippedMessageKeys_cases P order m encHeader ciphertext ad with
    ⟨hres, hno⟩ | ⟨k, v, p, hk, hopens, hres⟩
  · rcases trySkippedMessageKeys_cases P order' m' encHeader ciphertext ad with
      ⟨hres', -⟩ | ⟨k', v', p', hk', hopens', -⟩
    · rw [hres, hres']
      exact .ok ⟨h, rfl⟩
    · exact absurd hopens' (hno k' v' p' ((h k').trans hk'))
  · rcases trySkippedMessageKeys_cases P order' m' encHeader ciphertext ad with
      ⟨-, hno'⟩ | ⟨k', v', p', hk', hopens', hres'⟩
    · exact absurd hopens (hno' k v p ((h k).symm.trans hk))
    · obtain rfl := honce k k' v v' p p' hk ((h k').trans hk') hopens hopens'
      obtain rfl := Option.some_inj.mp (hk.symm.trans ((h k).trans hk'))
      obtain ⟨-, -, -, hp⟩ := hopens
      obtain ⟨-, -, -, hp'⟩ := hopens'
      rw [hp] at hp'
      cases hp'
      rw [hres, hres']
      exact .ok ⟨h.erase k, rfl⟩

end SameEntries

/-! ### Alike states -/

/-- The states differ at most in the order of the entries of `mkskipped`. -/
def Alike (st st' : RatchetState K) : Prop :=
  ∃ mkskipped, SameEntries st.mkskipped mkskipped ∧ st' = { st with mkskipped }

theorem Alike.refl (st : RatchetState K) : Alike st st := ⟨st.mkskipped, .refl _, rfl⟩

section Fields

variable {st st' : RatchetState K} (h : Alike st st')

include h

theorem Alike.dhPair : st'.dhPair = st.dhPair := by obtain ⟨_, _, rfl⟩ := h; rfl

theorem Alike.rk : st'.rk = st.rk := by obtain ⟨_, _, rfl⟩ := h; rfl

theorem Alike.ckR : st'.ckR = st.ckR := by obtain ⟨_, _, rfl⟩ := h; rfl

theorem Alike.hkR : st'.hkR = st.hkR := by obtain ⟨_, _, rfl⟩ := h; rfl

theorem Alike.nhkR : st'.nhkR = st.nhkR := by obtain ⟨_, _, rfl⟩ := h; rfl

theorem Alike.nr : st'.nr = st.nr := by obtain ⟨_, _, rfl⟩ := h; rfl

theorem Alike.mkskipped : SameEntries st.mkskipped st'.mkskipped := by
  obtain ⟨_, hm, rfl⟩ := h
  exact hm

theorem Alike.bounded (hst : Bounded st) : Bounded st' := by
  obtain ⟨_, hm, rfl⟩ := h
  exact ⟨hm.length.symm.trans_le hst.mkskipped, hst.receivedMessages⟩

end Fields

/-- The operation has the same effect on all maps with these entries: on the one it
finds, which iterates in the order `order`, and on any other, in the order `order'`. -/
def MapOp.Indifferent (P : Primitives K) (order order' : HashOrder (K × UInt32))
    (m : SkippedKeyMap K) : MapOp K → Prop
  | .search _ encHeader ciphertext ad => ∀ m', SameEntries m m' →
      Outcome.Rel (fun x y => SameEntries x.1 y.1 ∧ x.2 = y.2)
        (trySkippedMessageKeys P order m encHeader ciphertext ad)
        (trySkippedMessageKeys P order' m' encHeader ciphertext ad)
  | .evict _ => ∀ m', SameEntries m m' →
      SameEntries (evictOldestSkippedKeys order m (maxSkippedKeys / 2))
        (evictOldestSkippedKeys order' m' (maxSkippedKeys / 2))
  | _ => True

/-- The operations are indifferent, each on the map that it finds. -/
def Indifferent (P : Primitives K) (order order' : HashOrder (K × UInt32))
    (m : SkippedKeyMap K) (ops : List (MapOp K)) : Prop :=
  Machine.Along (MapOp.apply P) (MapOp.Indifferent P order order') m ops

section Reordered

variable {P : Primitives K} {env : CallEnv K} {order order' : HashOrder (K × UInt32)}
  {st st' : RatchetState K} {m m' : SkippedKeyMap K}

theorem foldl_skipTurn_reordered {hk ck : K} {time : ℕ → SystemTime} {l : List ℕ}
    (h : SameEntries m m')
    (hops : Indifferent P order order' m (turnOps P order hk time l (m, ck))) :
    SameEntries (l.foldl (skipTurn P order hk time) (m, ck)).1
      (l.foldl (skipTurn P order' hk time) (m', ck)).1 := by
  induction l generalizing m m' ck with
  | nil => exact h
  | cons i l ih =>
    obtain ⟨hevict, -, hrest⟩ := Machine.along_append.mp hops
    have hturn : SameEntries (skipTurn P order hk time (m, ck) i).1
        (skipTurn P order' hk time (m', ck) i).1 := by
      refine .insert ?_ _ _
      dsimp only
      rw [← h.length]
      by_cases hfull : maxSkippedKeys ≤ m.keys.length
      · rw [if_pos hfull] at hevict ⊢
        rw [if_pos hfull]
        exact hevict.1 m' h
      · rw [if_neg hfull, if_neg hfull]
        exact h
    rw [apply_turn order hk time (m, ck) i] at hrest
    exact ih hturn hrest

theorem skipMessageKeys_reordered {clock : ℕ → SystemTime} {ck hk : K} {fromN toN : UInt32}
    (h : SameEntries m m')
    (hops : Indifferent P order order' m
      (skipOps P order clock m ck hk fromN.toNat toN.toNat)) :
    Outcome.Rel SameEntries (skipMessageKeys P order clock m ck hk fromN toN)
      (skipMessageKeys P order' clock m' ck hk fromN toN) := by
  rw [skipMessageKeys_eq, skipMessageKeys_eq, exactSkip, exactSkip]
  rw [skipOps] at hops
  by_cases hlt : toN.toNat < fromN.toNat
  · rw [if_pos hlt, if_pos hlt]
    exact .err _
  by_cases hlimit : fromN.toNat + maxSkip.toNat < toN.toNat
  · rw [if_neg hlt, if_neg hlt, if_pos hlimit, if_pos hlimit]
    exact .err _
  rw [if_neg (not_or.mpr ⟨hlt, hlimit⟩)] at hops
  rw [if_neg hlt, if_neg hlt, if_neg hlimit, if_neg hlimit]
  exact .ok (foldl_skipTurn_reordered h hops)

theorem storeSkipped_reordered {call : ℕ} {toN : UInt32} (h : Alike st st')
    (hops : Indifferent P env.hashOrder order' st.mkskipped (storeOps P env call toN st)) :
    Exec.RelAt Alike Eq st st' (storeSkipped P env call toN)
      (storeSkipped P { env with hashOrder := order' } call toN) := by
  obtain ⟨m, hm, rfl⟩ := h
  rw [storeOps] at hops
  rcases Option.eq_none_or_eq_some st.ckR with hck | ⟨ck, hck⟩
  · rw [Exec.RelAt, storeSkipped_none P env call toN (.inl hck),
      storeSkipped_none P { env with hashOrder := order' } call toN
        (s := { st with mkskipped := m }) (.inl hck)]
    exact ⟨.ok rfl, m, hm, rfl⟩
  rcases Option.eq_none_or_eq_some st.hkR with hhk | ⟨hk, hhk⟩
  · rw [Exec.RelAt, storeSkipped_none P env call toN (.inr hhk),
      storeSkipped_none P { env with hashOrder := order' } call toN
        (s := { st with mkskipped := m }) (.inr hhk)]
    exact ⟨.ok rfl, m, hm, rfl⟩
  rw [hck, hhk] at hops
  have hskip := skipMessageKeys_reordered hm hops
  rw [Exec.RelAt, storeSkipped_some P env call toN hck hhk,
    storeSkipped_some P { env with hashOrder := order' } call toN
      (s := { st with mkskipped := m }) hck hhk]
  revert hskip
  dsimp only
  generalize skipMessageKeys P env.hashOrder (env.clock call) st.mkskipped ck hk st.nr toN = r
  generalize skipMessageKeys P order' (env.clock call) m ck hk st.nr toN = r'
  intro hskip
  cases hskip with
  | ok hnew => exact ⟨.ok rfl, _, hnew, rfl⟩
  | err e => exact ⟨.err e, ∅, .refl ∅, rfl⟩
  | panic => exact ⟨.panic, ∅, .refl ∅, rfl⟩

theorem ratcheted_alike (env : CallEnv K) (header : RatchetHeader) (h : Alike st st') :
    Alike (ratcheted P env header st)
      (ratcheted P { env with hashOrder := order' } header st') := by
  obtain ⟨m, hm, rfl⟩ := h
  exact ⟨m, hm, rfl⟩

theorem commitStateChanges_reordered {header : RatchetHeader} {f : Bool} (h : Alike st st')
    (hops : Indifferent P env.hashOrder order' st.mkskipped
      (commitOps P env header st f).flatten) :
    Exec.RelAt Alike Eq st st' (commitStateChanges P env header f)
      (commitStateChanges P { env with hashOrder := order' } header f) := by
  -- the second call of `storeSkipped`, and what follows it
  have hchain : ∀ {st st' : RatchetState K}, Alike st st' →
      Indifferent P env.hashOrder order' st.mkskipped (storeOps P env 1 header.n st) →
      Exec.RelAt Alike Eq st st' (commitStateChanges P env header false)
        (commitStateChanges P { env with hashOrder := order' } header false) := by
    intro st st' h hops
    refine .bind (storeSkipped_reordered h hops) fun _ _ _ => ?_
    refine .bind .get fun st st' h => ?_
    obtain ⟨m, hm, rfl⟩ := h
    refine .bind (.lift (.refl _)) fun ckR _ hckR => ?_
    subst hckR
    refine .bind (.put ⟨m, hm, rfl⟩) fun _ _ _ => ?_
    refine .bind .get fun st st' h => ?_
    obtain ⟨m, hm, rfl⟩ := h
    refine .bind (.lift (.refl _)) fun nr _ hnr => ?_
    subst hnr
    exact .put ⟨m, hm, rfl⟩
  cases f with
  | false =>
    rw [commitOps, List.flatten_cons, List.flatten_nil, List.append_nil] at hops
    exact hchain h hops
  | true =>
    rw [commitOps, List.flatten_cons] at hops
    obtain ⟨hprev, hnext⟩ := Machine.along_append.mp hops
    rw [run_storeOps] at hnext
    obtain ⟨hresult, hstate⟩ := storeSkipped_reordered h hprev
    rw [Exec.RelAt, commitStateChanges_true, commitStateChanges_true]
    revert hresult hstate hnext
    rcases storeSkipped P env 0 header.pn st with ⟨_ | e | _, st₁⟩ <;>
      rcases storeSkipped P { env with hashOrder := order' } 0 header.pn st' with
        ⟨_ | e' | _, st₁'⟩ <;> intro hnext hresult hstate <;> cases hresult
    · rw [List.flatten_cons, List.flatten_nil, List.append_nil] at hnext
      exact hchain (ratcheted_alike env header hstate) hnext
    · exact ⟨.err e, hstate⟩
    · exact ⟨.panic, hstate⟩

theorem Authenticates.of_alike {b : Build} {encHeader ciphertext ad p : Bytes}
    {header : RatchetHeader} {f : Bool} (h : Alike st st')
    (hauth : Authenticates P b st encHeader ciphertext ad header f p) :
    Authenticates P b st' encHeader ciphertext ad header f p := by
  obtain ⟨m, hm, rfl⟩ := h
  exact ⟨hauth.ad_le, fun k v q hk => hauth.not_skipped k v q ((hm k).trans hk), hauth.header_eq,
    hauth.not_received, hauth.opens⟩

theorem trackMessage_alike {header : RatchetHeader} {p : Bytes}
    {r r' : Outcome RatchetError PUnit × RatchetState K}
    (h : Outcome.Rel Eq r.1 r'.1 ∧ Alike r.2 r'.2) :
    Outcome.Rel Eq (trackMessage header p r).1 (trackMessage header p r').1 ∧
      Alike (trackMessage header p r).2 (trackMessage header p r').2 := by
  obtain ⟨o, st⟩ := r
  obtain ⟨o', st'⟩ := r'
  obtain ⟨hresult, m, hm, rfl⟩ := h
  cases hresult with
  | ok =>
    simp only [trackMessage]
    split
    · exact ⟨.err _, m, hm, rfl⟩
    · exact ⟨.ok rfl, m, hm, rfl⟩
  | err e => exact ⟨.err e, m, hm, rfl⟩
  | panic => exact ⟨.panic, m, hm, rfl⟩

theorem decrypt_reordered {b : Build} {encHeader ciphertext ad : Bytes} (h : Alike st st')
    (hops : Indifferent P env.hashOrder order' st.mkskipped
      (mapOps P b st (.decrypt env encHeader ciphertext ad)).flatten) :
    Exec.RelAt Alike Eq st st' (decrypt P b env encHeader ciphertext ad)
      (decrypt P b { env with hashOrder := order' } encHeader ciphertext ad) := by
  rw [mapOps] at hops
  by_cases had : maxAdSize < ad.length
  · rw [Exec.RelAt, decrypt_of_adTooLarge P had, decrypt_of_adTooLarge P had]
    exact ⟨.err _, h⟩
  rw [if_neg had] at hops
  dsimp only at hops
  obtain ⟨m, hm, rfl⟩ := h
  have hsearch := hops.1 m hm
  rcases trySkippedMessageKeys_cases P env.hashOrder st.mkskipped encHeader ciphertext
    (concatAd ad encHeader) with ⟨htry, hno⟩ | ⟨k, v, p, -, -, htry⟩
  · have hno' : ∀ k v p, m.lookup k = some v →
        ¬ Opens P k v encHeader ciphertext (concatAd ad encHeader) p :=
      fun k v p hk => hno k v p ((hm k).trans hk)
    have hcommit := hops.2
    rw [MapOp.apply, htry] at hcommit
    rw [Exec.RelAt, decrypt_of_not_skipped P (not_lt.mp had) hno,
      decrypt_of_not_skipped P (s := { st with mkskipped := m }) (not_lt.mp had) hno']
    -- header and body do not depend on the map
    have hhdr : decryptHeader P { st with mkskipped := m } encHeader
        = decryptHeader P st encHeader := rfl
    have hkey : ∀ header f, computeMessageKey P b { st with mkskipped := m } header f
        = computeMessageKey P b st header f := fun _ _ => rfl
    rw [hhdr]
    dsimp only at hcommit ⊢
    cases hopen : decryptHeader P st encHeader with
    | err e => exact ⟨.err e, m, hm, rfl⟩
    | panic => exact ⟨.panic, m, hm, rfl⟩
    | ok hf =>
      obtain ⟨header, f⟩ := hf
      rw [hopen] at hcommit
      dsimp only at hcommit ⊢
      rw [hkey]
      by_cases hdup : (header.dhPub, header.n) ∈ st.receivedMessages
      · rw [if_pos hdup, if_pos hdup]
        exact ⟨.err _, m, hm, rfl⟩
      rw [if_neg hdup] at hcommit ⊢
      rw [if_neg hdup]
      cases hbody : computeMessageKey P b st header f >>= fun mk =>
          decryptAead P mk ciphertext (concatAd ad encHeader) with
      | err e => exact ⟨.err e, m, hm, rfl⟩
      | panic => exact ⟨.panic, m, hm, rfl⟩
      | ok p =>
        rw [hbody] at hcommit
        exact trackMessage_alike (commitStateChanges_reordered ⟨m, hm, rfl⟩ hcommit)
  · rw [htry] at hsearch
    generalize hres : trySkippedMessageKeys P order' m encHeader ciphertext
      (concatAd ad encHeader) = r at hsearch
    obtain ⟨m', o⟩ | _ | _ := r <;> cases hsearch
    rename_i hentries
    obtain ⟨hentries, hresult⟩ := hentries
    dsimp only at hentries hresult
    subst hresult
    rw [Exec.RelAt, decrypt_of_skipped P (not_lt.mp had) htry,
      decrypt_of_skipped P (s := { st with mkskipped := m }) (not_lt.mp had) hres]
    exact ⟨.ok rfl, m', hentries, rfl⟩

variable (P) in
theorem encrypt_alike (plaintext ad : Bytes) :
    Exec.Rel (Alike (K := K)) Eq (encrypt P plaintext ad) (encrypt P plaintext ad) := by
  refine .bind .get fun st st' h => ?_
  obtain ⟨m, hm, rfl⟩ := h
  refine .bind (.lift (.refl _)) fun _ _ _ => ?_
  refine .guard _ ?_
  refine .bind (.lift (.refl _)) fun ck _ heq => ?_
  subst heq
  refine .bind (.put ⟨m, hm, rfl⟩) fun _ _ _ => ?_
  refine .bind .get fun st st' h => ?_
  obtain ⟨m, hm, rfl⟩ := h
  refine .bind (.lift (.refl _)) fun ns _ heq => ?_
  subst heq
  refine .bind (.put ⟨m, hm, rfl⟩) fun _ _ _ => ?_
  refine .bind .get fun st st' h => ?_
  obtain ⟨m, hm, rfl⟩ := h
  refine .bind (.lift (.refl _)) fun sealed _ heq => ?_
  subst heq
  refine .bind (.put ⟨m, hm, rfl⟩) fun _ _ _ => ?_
  refine .bind (.lift (.refl _)) fun ciphertext _ heq => ?_
  subst heq
  exact .pure rfl

/-- The same call, on a map that iterates in the order `order`. -/
def Call.reorder (order : HashOrder (K × UInt32)) : Call K → Call K
  | .encrypt plaintext ad => .encrypt plaintext ad
  | .decrypt env encHeader ciphertext ad =>
    .decrypt { env with hashOrder := order } encHeader ciphertext ad

/-- No order matters to the call: in the state `st` each of its operations is
indifferent. -/
def Call.Indifferent (P : Primitives K) (b : Build) (order' : HashOrder (K × UInt32))
    (st : RatchetState K) (c : Call K) : Prop :=
  match c with
  | .encrypt .. => True
  | .decrypt env .. =>
    Ratchet.Indifferent P env.hashOrder order' st.mkskipped (mapOps P b st c).flatten

/-- **Where no order matters**, alike states reply alike and stay alike. -/
theorem step_reordered {b : Build} {c : Call K} (h : Alike st st')
    (hc : c.Indifferent P b order' st) :
    st.reply P b c = st'.reply P b (c.reorder order') ∧
      Alike (st.step P b c) (st'.step P b (c.reorder order')) := by
  cases c with
  | encrypt plaintext ad =>
    obtain ⟨hreply, hstate⟩ := encrypt_alike P plaintext ad st st' h
    exact ⟨congrArg Reply.message hreply.eq, hstate⟩
  | decrypt env encHeader ciphertext ad =>
    obtain ⟨hreply, hstate⟩ := decrypt_reordered h hc
    exact ⟨congrArg Reply.plaintext hreply.eq, hstate⟩

end Reordered

/-! ### One order for both maps -/

/-- The iteration order that a call finds is that of the keys of the map. -/
def Call.OfKeys : Call K → Prop
  | .encrypt .. => True
  | .decrypt env .. => env.hashOrder.OfKeys

/-- An order that depends on the keys only picks the same entries of both maps. -/
theorem MapOp.indifferent_of_ofKeys (P : Primitives K) {order : HashOrder (K × UInt32)}
    (horder : order.OfKeys) (m : SkippedKeyMap K) (op : MapOp K) :
    op.Indifferent P order order m := by
  cases op with
  | search _ encHeader ciphertext ad =>
    exact fun m' h => h.search_of_ofKeys P horder encHeader ciphertext ad
  | evict => exact fun m' h => h.evict_of_ofKeys horder _
  | insert => trivial
  | drop => trivial

theorem decrypt_alike (P : Primitives K) {env : CallEnv K} (horder : env.hashOrder.OfKeys)
    (b : Build) (encHeader ciphertext ad : Bytes) :
    Exec.Rel Alike Eq (decrypt P b env encHeader ciphertext ad)
      (decrypt P b env encHeader ciphertext ad) :=
  fun _ _ h => decrypt_reordered h
    (Machine.Along.of_forall fun op _ m => op.indifferent_of_ofKeys P horder m)

/-! ### Entries of different ages -/

section Dated

variable {P : Primitives K} {b : Build} {st : RatchetState K} {ts : List SystemTime}

/-- The message of the call opens under one entry at most. -/
def Call.OpensOnce (P : Primitives K) (st : RatchetState K) : Call K → Prop
  | .encrypt .. => True
  | .decrypt _ encHeader ciphertext ad =>
    Ratchet.OpensOnce P st.mkskipped encHeader ciphertext (concatAd ad encHeader)

/-- What the clock reads in the calls: once for each key that they store. -/
def readings (P : Primitives K) (b : Build) (st : RatchetState K) (cs : List (Call K)) :
    List SystemTime :=
  (Machine.trace (RatchetState.step P b) (mapOps P b) st cs).flatten.flatten.filterMap
    MapOp.reading

/-- After the search the map is passed to the skip loop only. -/
theorem mapOps_cons {env : CallEnv K} {encHeader ciphertext ad : Bytes} {first : List (MapOp K)}
    {rest : List (List (MapOp K))}
    (h : mapOps P b st (.decrypt env encHeader ciphertext ad) = first :: rest) :
    (first = [.search env.hashOrder encHeader ciphertext (concatAd ad encHeader)] ∨
      ∀ op ∈ first, op = .drop ∨ op.Stores) ∧ ∀ op ∈ rest.flatten, op = .drop ∨ op.Stores := by
  have hskip : ∀ {m : SkippedKeyMap K} {failed : Prop} {ops : List (MapOp K)},
      SkipCall P m failed ops → ∀ op ∈ ops, op = .drop ∨ op.Stores := by
    intro m failed ops hcall op hop
    cases hcall with
    | none => cases hop
    | drop => exact .inl (List.mem_singleton.mp hop)
    | turns => exact .inr (turnOps_stores hop)
  constructor
  · have hlist : mapOps P b st (.decrypt env encHeader ciphertext ad) = [] ++ first :: rest := h
    rcases mapOps_cases hlist with ⟨-, hsearch, -⟩ | hcall
    · exact .inl hsearch
    · exact .inr (hskip hcall)
  · intro op hop
    obtain ⟨ops, hops, hmem⟩ := List.mem_flatten.mp hop
    obtain ⟨before, after, rfl⟩ := List.append_of_mem hops
    have hlist : mapOps P b st (.decrypt env encHeader ciphertext ad)
        = (first :: before) ++ ops :: after := h
    rcases mapOps_cases hlist with ⟨hnil, -⟩ | hcall
    · cases hnil
    · exact hskip hcall op hmem

/-- What is stored from one reading of the clock to the next has ages of its own. -/
theorem indifferent_of_dated {m : SkippedKeyMap K} {ops : List (MapOp K)}
    (order order' : HashOrder (K × UInt32)) (hops : ∀ op ∈ ops, op = .drop ∨ op.Stores)
    (h : Dated m (ops.filterMap MapOp.reading ++ ts))
    (hclock : (ops.filterMap MapOp.reading ++ ts).Pairwise (· < ·)) :
    Indifferent P order order' m ops := by
  induction ops generalizing m with
  | nil => trivial
  | cons op ops ih =>
    rw [filterMap_reading_cons] at h hclock
    refine ⟨?_, ih (fun op' hop' => hops op' (List.mem_cons_of_mem _ hop')) (h.apply hclock)
      (List.pairwise_append.mp hclock).2.1⟩
    cases op with
    | search => exact absurd (hops _ List.mem_cons_self) (by simp [MapOp.Stores])
    | evict => exact fun m' hm => hm.evict_of_dated h order order' _
    | insert => trivial
    | drop => trivial

/-- **On a clock that advances no order matters**, if the message opens under one
stored key at most. -/
theorem Call.indifferent_of_dated {c : Call K} (honce : c.OpensOnce P st)
    (h : Dated st.mkskipped ((mapOps P b st c).flatten.filterMap MapOp.reading ++ ts))
    (hclock : ((mapOps P b st c).flatten.filterMap MapOp.reading ++ ts).Pairwise (· < ·))
    (order' : HashOrder (K × UInt32)) : c.Indifferent P b order' st := by
  cases c with
  | encrypt plaintext ad => trivial
  | decrypt env encHeader ciphertext ad =>
    rw [Call.Indifferent]
    cases hops : mapOps P b st (.decrypt env encHeader ciphertext ad) with
    | nil => trivial
    | cons first rest =>
      obtain ⟨hfirst, hrest⟩ := mapOps_cons hops
      rw [hops, List.flatten_cons] at h hclock
      rw [List.flatten_cons]
      rcases hfirst with rfl | hfirst
      · rw [List.singleton_append, filterMap_reading_cons] at h hclock
        exact ⟨fun m' hm => hm.search_of_opensOnce P honce _ _,
          Ratchet.indifferent_of_dated _ _ hrest (h.apply hclock) hclock⟩
      · refine Ratchet.indifferent_of_dated _ _ (fun op hop => ?_) h hclock
        exact (List.mem_append.mp hop).elim (hfirst op) (hrest op)

/-- What a call leaves is older than all later readings. -/
theorem Dated.step {c : Call K}
    (h : Dated st.mkskipped ((mapOps P b st c).flatten.filterMap MapOp.reading ++ ts))
    (hclock : ((mapOps P b st c).flatten.filterMap MapOp.reading ++ ts).Pairwise (· < ·)) :
    Dated (st.step P b c).mkskipped ts := by
  rw [mapOps_replay]
  exact h.run hclock

theorem readings_cons (st : RatchetState K) (c : Call K) (cs : List (Call K)) :
    readings P b st (c :: cs) = (mapOps P b st c).flatten.filterMap MapOp.reading
      ++ readings P b (st.step P b c) cs := by
  rw [readings, Machine.trace, List.flatten_cons, List.flatten_append, List.filterMap_append]
  rfl

theorem readings_append (st : RatchetState K) (cs cs' : List (Call K)) :
    readings P b st (cs ++ cs') = readings P b st cs
      ++ readings P b (Machine.run (RatchetState.step P b) st cs) cs' := by
  rw [readings, Machine.trace_append, List.flatten_append, List.flatten_append,
    List.filterMap_append]
  rfl

/-- The entries stay older than what the clock has yet to read. -/
theorem Dated.run_calls {cs : List (Call K)} (h : Dated st.mkskipped (readings P b st cs ++ ts))
    (hclock : (readings P b st cs ++ ts).Pairwise (· < ·)) :
    Dated (Machine.run (RatchetState.step P b) st cs).mkskipped ts := by
  induction cs generalizing st with
  | nil => exact h
  | cons c cs ih =>
    rw [readings_cons, List.append_assoc] at h hclock
    exact ih (h.step hclock) (List.pairwise_append.mp hclock).2.1

/-- **Two runs on alike states**, whose maps iterate in orders of their own: on a
clock that advances they give the same replies. -/
theorem trace_reordered {st' : RatchetState K} {cs : List (Call K × HashOrder (K × UInt32))}
    (halike : Alike st st') (h : Dated st.mkskipped (readings P b st (cs.map Prod.fst)))
    (hclock : (readings P b st (cs.map Prod.fst)).Pairwise (· < ·))
    (honce : Machine.Along (RatchetState.step P b) (Call.OpensOnce P) st (cs.map Prod.fst)) :
    Machine.trace (RatchetState.step P b) (RatchetState.reply P b) st
        (cs.map Prod.fst)
      = Machine.trace (RatchetState.step P b) (RatchetState.reply P b) st'
        (cs.map fun c => c.1.reorder c.2) := by
  induction cs generalizing st st' with
  | nil => rfl
  | cons c cs ih =>
    rw [List.map_cons] at h hclock honce
    rw [readings_cons] at h hclock
    obtain ⟨hreply, hstate⟩ := step_reordered halike
      (c.1.indifferent_of_dated honce.1 h hclock c.2)
    rw [List.map_cons, List.map_cons, Machine.trace, Machine.trace, hreply,
      ih hstate (h.step hclock) (List.pairwise_append.mp hclock).2.1 honce.2]

end Dated

end Ratchet
