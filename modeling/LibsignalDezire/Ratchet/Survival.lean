/-
How long a skipped key survives.

An eviction can fire in the middle of a skip loop, and one message can run the loop
twice.  Entries leave the map all the same for two reasons only: they are used, or
there are a thousand newer ones.

* `Dated` — the invariant: no two timestamps are equal, and none is ahead of the
  clock;
* `stored_of_count` — what a skip loop has stored it does not evict;
* `skipped_keys_survive` — **a skipped key survives until it is used or displaced
  by newer ones**, along every run on a clock that advances.
-/
import LibsignalDezire.Ratchet.Eviction
import LibsignalDezire.Ratchet.MapOps

namespace Ratchet

variable {K : Type} [DecidableEq K]

/-! ### Timestamps -/

section Timestamps

variable {P : Primitives K} {m m' : SkippedKeyMap K} {ts ts' : List SystemTime} {op : MapOp K}
  {ops : List (MapOp K)}

theorem Dated.empty (ts : List SystemTime) : Dated (∅ : SkippedKeyMap K) ts :=
  ⟨fun _ _ _ _ h => (nomatch h), fun _ _ h => (nomatch h)⟩

theorem Dated.of_lookup (h : Dated m ts) (hts : ts' ⊆ ts)
    (hsub : ∀ k v, m'.lookup k = some v → m.lookup k = some v) : Dated m' ts' :=
  ⟨fun k k' v v' hk hk' => h.distinct k k' v v' (hsub k v hk) (hsub k' v' hk'),
    fun k v hk t ht => h.past k v (hsub k v hk) t (hts ht)⟩

/-- An operation changes no entry but the one it inserts. -/
theorem MapOp.lookup_apply {k : K × UInt32} {v : SkippedKey K}
    (h : (op.apply P m).lookup k = some v) : m.lookup k = some v ∨ op = .insert k v := by
  cases op with
  | search order encHeader ciphertext ad =>
    rw [MapOp.apply] at h
    rcases trySkippedMessageKeys_cases P order m encHeader ciphertext ad with
      ⟨htry, -⟩ | ⟨k', v', p, -, -, htry⟩
    · rw [htry] at h
      exact .inl h
    · rw [htry] at h
      dsimp only at h
      by_cases hk : k = k'
      · rw [hk, AList.lookup_erase] at h
        cases h
      · rw [AList.lookup_erase_ne hk] at h
        exact .inl h
  | evict order => exact .inl (lookup_evictOldestSkippedKeys h)
  | insert k' v' =>
    rw [MapOp.apply] at h
    by_cases hk : k = k'
    · rw [hk, AList.lookup_insert, Option.some_inj] at h
      exact .inr (by rw [hk, h])
    · rw [AList.lookup_insert_ne hk] at h
      exact .inl h
  | drop => cases h

theorem lookup_run {k : K × UInt32} {v : SkippedKey K}
    (h : (Machine.run (MapOp.apply P) m ops).lookup k = some v) :
    m.lookup k = some v ∨ .insert k v ∈ ops := by
  induction ops generalizing m with
  | nil => exact .inl h
  | cons op ops ih =>
    rcases ih h with hm | hmem
    · rcases MapOp.lookup_apply hm with hm | rfl
      · exact .inl hm
      · exact .inr List.mem_cons_self
    · exact .inr (List.mem_cons_of_mem _ hmem)

/-- An entry written at the next reading of an advancing clock is the newest. -/
theorem Dated.apply (h : Dated m (op.reading.toList ++ ts))
    (hclock : (op.reading.toList ++ ts).Pairwise (· < ·)) : Dated (op.apply P m) ts := by
  cases op with
  | insert k v =>
    simp only [MapOp.reading, Option.toList_some, List.singleton_append, List.pairwise_cons]
      at h hclock
    have hnew : ∀ k' v', k' ≠ k → (m.insert k v).lookup k' = some v' →
        m.lookup k' = some v' ∧ v'.timestamp < v.timestamp := by
      intro k' v' hne hk'
      rw [AList.lookup_insert_ne hne] at hk'
      exact ⟨hk', h.past k' v' hk' _ List.mem_cons_self⟩
    have hself : ∀ v', (m.insert k v).lookup k = some v' → v' = v := by
      intro v' hk'
      rw [AList.lookup_insert, Option.some_inj] at hk'
      exact hk'.symm
    rw [MapOp.apply]
    refine ⟨fun k₁ k₂ v₁ v₂ h₁ h₂ heq => ?_, fun k' v' hk' t ht => ?_⟩
    · by_cases hk₁ : k₁ = k
      · subst hk₁
        by_contra hne
        obtain ⟨-, hlt⟩ := hnew k₂ v₂ (Ne.symm hne) h₂
        rw [← heq, hself v₁ h₁] at hlt
        exact hlt.false
      · obtain ⟨hold₁, hlt₁⟩ := hnew k₁ v₁ hk₁ h₁
        by_cases hk₂ : k₂ = k
        · subst hk₂
          rw [heq, hself v₂ h₂] at hlt₁
          exact absurd hlt₁ (lt_irrefl _)
        · exact h.distinct k₁ k₂ v₁ v₂ hold₁ (hnew k₂ v₂ hk₂ h₂).1 heq
    · by_cases hk : k' = k
      · subst hk
        rw [hself v' hk']
        exact hclock.1 t ht
      · exact h.past k' v' (hnew k' v' hk hk').1 t (List.mem_cons_of_mem _ ht)
  | search order encHeader ciphertext ad =>
    exact h.of_lookup (List.subset_append_right _ _)
      fun k v hk => (MapOp.lookup_apply hk).resolve_right (by simp)
  | evict order =>
    exact h.of_lookup (List.subset_append_right _ _)
      fun k v hk => (MapOp.lookup_apply (P := P) hk).resolve_right (by simp)
  | drop => exact Dated.empty ts

omit [DecidableEq K] in
theorem filterMap_reading_cons (op : MapOp K) (ops : List (MapOp K)) (ts : List SystemTime) :
    (op :: ops).filterMap MapOp.reading ++ ts
      = op.reading.toList ++ (ops.filterMap MapOp.reading ++ ts) := by
  rw [List.filterMap_cons, ← List.append_assoc]
  cases op.reading <;> rfl

theorem Dated.run (h : Dated m (ops.filterMap MapOp.reading ++ ts))
    (hclock : (ops.filterMap MapOp.reading ++ ts).Pairwise (· < ·)) :
    Dated (Machine.run (MapOp.apply P) m ops) ts := by
  induction ops generalizing m with
  | nil => exact h
  | cons op ops ih =>
    rw [filterMap_reading_cons] at h hclock
    exact ih (h.apply hclock) (List.pairwise_append.mp hclock).2.1

end Timestamps

/-! ### One call of the skip loop -/

section SkipLoop

variable {P : Primitives K} {m : SkippedKeyMap K} {ts : List SystemTime} {op : MapOp K}
  {ops : List (MapOp K)}

/-- The key that the operation stores. -/
def MapOp.storedKey : MapOp K → Option (K × UInt32)
  | insert k _ => some k
  | _ => none

/-- The operations of the loop that stores the keys: evictions and insertions. -/
def MapOp.Stores : MapOp K → Prop
  | evict _ | insert _ _ => True
  | _ => False

omit [DecidableEq K] in
theorem mem_storedKeys {k : K × UInt32} :
    k ∈ ops.filterMap MapOp.storedKey ↔ ∃ v, .insert k v ∈ ops := by
  rw [List.mem_filterMap]
  constructor
  · rintro ⟨op, hop, hk⟩
    cases op <;> cases hk
    exact ⟨_, hop⟩
  · rintro ⟨v, hop⟩
    exact ⟨_, hop, rfl⟩

theorem turnOps_stores {order : HashOrder (K × UInt32)} {hk : K} {time : ℕ → SystemTime}
    {l : List ℕ} {x : SkippedKeyMap K × K} (h : op ∈ turnOps P order hk time l x) :
    op.Stores := by
  induction l generalizing x with
  | nil => cases h
  | cons i l ih =>
    rw [turnOps, List.mem_append, List.mem_cons] at h
    rcases h with h | rfl | h
    · split at h
      · rw [List.mem_singleton] at h
        rw [h]
        trivial
      · cases h
    · trivial
    · exact ih h

/-- The loop evicts from a full map only, and before the last key is stored. -/
theorem turnOps_evict {order o : HashOrder (K × UInt32)} {hk : K} {time : ℕ → SystemTime}
    {l : List ℕ} {x : SkippedKeyMap K × K} {earlier later : List (MapOp K)}
    (h : turnOps P order hk time l x = earlier ++ .evict o :: later) :
    maxSkippedKeys ≤ (Machine.run (MapOp.apply P) x.1 earlier).keys.length ∧
      (earlier.filterMap MapOp.storedKey).length < l.length := by
  induction l generalizing x earlier with
  | nil => cases earlier <;> cases h
  | cons i l ih =>
    -- the eviction belongs to a later turn
    have hlater : ∀ {pre earlier' : List (MapOp K)}, pre.filterMap MapOp.storedKey = [] →
        Machine.run (MapOp.apply P) x.1
          (pre ++ [.insert (hk, UInt32.ofNat i) ⟨(kdfCk P x.2).2, time i⟩])
            = (skipTurn P order hk time x i).1 →
        turnOps P order hk time l (skipTurn P order hk time x i)
          = earlier' ++ .evict o :: later →
        earlier = pre ++ .insert (hk, UInt32.ofNat i) ⟨(kdfCk P x.2).2, time i⟩ :: earlier' →
        maxSkippedKeys ≤ (Machine.run (MapOp.apply P) x.1 earlier).keys.length ∧
          (earlier.filterMap MapOp.storedKey).length < (i :: l).length := by
      intro pre earlier' hpre hrun hrest hearlier
      obtain ⟨hfull, hcount⟩ := ih hrest
      rw [hearlier, List.append_cons, Machine.run_append, hrun]
      refine ⟨hfull, ?_⟩
      have hone : ([.insert (hk, UInt32.ofNat i) ⟨(kdfCk P x.2).2, time i⟩]
          : List (MapOp K)).filterMap MapOp.storedKey = [(hk, UInt32.ofNat i)] := rfl
      rw [List.filterMap_append, List.filterMap_append, hpre, hone, List.nil_append,
        List.length_append, List.length_singleton, List.length_cons]
      omega
    have hturn := run_turnOps (P := P) order hk time [i] x
    rw [turnOps, turnOps, List.foldl_cons, List.foldl_nil] at hturn
    rw [turnOps] at h
    by_cases hfull : maxSkippedKeys ≤ x.1.keys.length
    · rw [if_pos hfull] at h hturn
      cases earlier with
      | nil => exact ⟨hfull, Nat.succ_pos _⟩
      | cons e earlier =>
        cases earlier with
        | nil => cases h
        | cons e' earlier =>
          injection h with he h
          injection h with he' h
          subst he he'
          exact hlater rfl hturn h rfl
    · rw [if_neg hfull] at h hturn
      cases earlier with
      | nil => cases h
      | cons e earlier =>
        injection h with he h
        subst he
        exact hlater rfl hturn h rfl

/-- While no more keys are stored than an eviction keeps, each key stored stays,
with the entry stored last: there are not enough newer ones to displace it. -/
theorem stored_of_count (hstores : ∀ op ∈ ops, op.Stores)
    (hcount : (ops.filterMap MapOp.storedKey).length ≤ maxSkippedKeys / 2)
    (h : Dated m (ops.filterMap MapOp.reading ++ ts))
    (hclock : (ops.filterMap MapOp.reading ++ ts).Pairwise (· < ·)) {k : K × UInt32}
    {v : SkippedKey K} (hk : .insert k v ∈ ops) :
    ∃ w, .insert k w ∈ ops ∧ (Machine.run (MapOp.apply P) m ops).lookup k = some w := by
  induction ops using List.reverseRecOn generalizing ts v with
  | nil => cases hk
  | append_singleton ops op ih =>
    have hsplit : (ops ++ [op]).filterMap MapOp.reading ++ ts
        = ops.filterMap MapOp.reading ++ (op.reading.toList ++ ts) := by
      rw [List.filterMap_append, List.append_assoc]
      cases hop : op.reading <;> simp [hop]
    have hkeys : (ops ++ [op]).filterMap MapOp.storedKey
        = ops.filterMap MapOp.storedKey ++ op.storedKey.toList := by
      rw [List.filterMap_append]
      cases hop : op.storedKey <;> simp [hop]
    rw [hkeys, List.length_append] at hcount
    rw [hsplit] at h hclock
    have hearlier : ∀ {v}, .insert k v ∈ ops → ∃ w, .insert k w ∈ ops ∧
        (Machine.run (MapOp.apply P) m ops).lookup k = some w :=
      fun hk => ih (fun op hop => hstores op (List.mem_append_left _ hop)) (by omega) h hclock hk
    have hop := hstores op (List.mem_append_right _ (List.mem_singleton_self _))
    rw [Machine.run_concat]
    cases op with
    | search => cases hop
    | drop => cases hop
    | insert k' v' =>
      by_cases hkk : k = k'
      · subst hkk
        exact ⟨v', List.mem_append_right _ (List.mem_singleton_self _), AList.lookup_insert _⟩
      · have hk : .insert k v ∈ ops := by
          rcases List.mem_append.mp hk with hk | hk
          · exact hk
          · rw [List.mem_singleton] at hk
            cases hk
            exact absurd rfl hkk
        obtain ⟨w, hw, hlook⟩ := hearlier hk
        exact ⟨w, List.mem_append_left _ hw, (AList.lookup_insert_ne hkk).trans hlook⟩
    | evict o =>
      have hk : .insert k v ∈ ops := by
        rcases List.mem_append.mp hk with hk | hk
        · exact hk
        · rw [List.mem_singleton] at hk
          cases hk
      obtain ⟨w, hw, hlook⟩ := hearlier hk
      refine ⟨w, List.mem_append_left _ hw, ?_⟩
      -- what is newer was stored by this call as well
      have hnewer : keysAfter (Machine.run (MapOp.apply P) m ops) w.timestamp
          ⊆ (ops.filterMap MapOp.storedKey).toFinset.erase k := by
        intro x hx
        obtain ⟨u, hu, hlt⟩ := mem_keysAfter.mp hx
        have hne : x ≠ k := by
          rintro rfl
          rw [hlook, Option.some_inj] at hu
          exact (hu ▸ hlt).false
        refine Finset.mem_erase.mpr ⟨hne, List.mem_toFinset.mpr (mem_storedKeys.mpr ⟨u, ?_⟩)⟩
        refine (lookup_run hu).resolve_left fun hold => ?_
        have hread : w.timestamp ∈ ops.filterMap MapOp.reading :=
          List.mem_filterMap.mpr ⟨_, hw, rfl⟩
        have := h.past x u hold _ (List.mem_append_left _ hread)
        exact absurd (hlt.trans this) (lt_irrefl _)
      have hkmem : k ∈ (ops.filterMap MapOp.storedKey).toFinset :=
        List.mem_toFinset.mpr (mem_storedKeys.mpr ⟨w, hw⟩)
      have hcard := Finset.card_le_card hnewer
      have hpos := Finset.card_pos.mpr ⟨k, hkmem⟩
      have hle := List.toFinset_card_le (ops.filterMap MapOp.storedKey)
      rw [Finset.card_erase_of_mem hkmem] at hcard
      have hdated : Dated (Machine.run (MapOp.apply P) m ops) ts := h.run hclock
      rw [MapOp.apply, lookup_evictOldestSkippedKeys_eq hdated hlook, if_pos (by omega)]

end SkipLoop

/-! ### Survival -/

section Survival

variable {P : Primitives K} {b : Build} {st : RatchetState K} {m : SkippedKeyMap K}
  {ts : List SystemTime}

/-- What an operation may do to the entries of the map `m` it finds, in a call that
replies `reply`, after the operations `earlier` of the same function call: the
search removes the entry that opens the message, and the call returns its
plaintext; an eviction finds the map full, keeps the newest half of its limit, and
all that this call of `skipMessageKeys` has stored; an insertion removes nothing;
and the map is dropped by a call that fails only. -/
def Accounted (P : Primitives K) (reply : Reply) (m : SkippedKeyMap K)
    (earlier : List (MapOp K)) : MapOp K → Prop
  | .search order encHeader ciphertext ad => ∀ k v, m.lookup k = some v →
      ((MapOp.search order encHeader ciphertext ad).apply P m).lookup k = some v ∨
      ∃ p, reply = .plaintext (.ok p) ∧ Opens P k v encHeader ciphertext ad p ∧
        (MapOp.search order encHeader ciphertext ad).apply P m = m.erase k
  | .evict order => maxSkippedKeys ≤ m.keys.length ∧
      KeepsNewest m ((MapOp.evict order).apply P m) (maxSkippedKeys / 2) ∧
      ∀ k v, .insert k v ∈ earlier → k ∈ (MapOp.evict order).apply P m
  | .insert k v => ((MapOp.insert k v).apply P m).lookup k = some v ∧
      ∀ k' ≠ k, ((MapOp.insert k v).apply P m).lookup k' = m.lookup k'
  | .drop => reply.isOk = false

theorem search_accounted {env : CallEnv K} {encHeader ciphertext ad : Bytes}
    (had : ad.length ≤ maxAdSize) :
    Accounted P (st.reply P b (.decrypt env encHeader ciphertext ad)) st.mkskipped []
      (.search env.hashOrder encHeader ciphertext (concatAd ad encHeader)) := by
  intro k v hk
  rw [MapOp.apply]
  rcases trySkippedMessageKeys_cases P env.hashOrder st.mkskipped encHeader ciphertext
    (concatAd ad encHeader) with ⟨htry, -⟩ | ⟨k', v', p, hk', hopens, htry⟩
  · rw [htry]
    exact .inl hk
  · rw [htry]
    dsimp only
    by_cases hkk : k = k'
    · subst hkk
      obtain rfl := Option.some_inj.mp (hk.symm.trans hk')
      refine .inr ⟨p, ?_, hopens, rfl⟩
      show Reply.plaintext (decrypt P b env encHeader ciphertext ad st).1 = .plaintext (.ok p)
      simp [decrypt, Exec.bind_apply, not_lt.mpr had, htry]
    · exact .inl ((AList.lookup_erase_ne hkk).trans hk)

theorem skipCall_accounted {reply : Reply} {failed : Prop} {earlier later : List (MapOp K)}
    {op : MapOp K} (hfailed : failed → reply.isOk = false)
    (hcall : SkipCall P m failed (earlier ++ op :: later))
    (h : Dated m ((earlier ++ op :: later).filterMap MapOp.reading ++ ts))
    (hclock : ((earlier ++ op :: later).filterMap MapOp.reading ++ ts).Pairwise (· < ·)) :
    Accounted P reply (Machine.run (MapOp.apply P) m earlier) earlier op := by
  generalize hops : earlier ++ op :: later = ops at hcall h hclock
  cases hcall with
  | none => cases earlier <;> cases hops
  | drop hf =>
    cases earlier with
    | nil =>
      injection hops with hop
      subst hop
      exact hfailed hf
    | cons e earlier => cases earlier <;> cases hops
  | @turns order hk time a n ck hn =>
    have hstores : ∀ op' ∈ earlier ++ op :: later, op'.Stores := by
      intro op' hmem
      rw [hops] at hmem
      exact turnOps_stores hmem
    have hop := hstores op (List.mem_append_right _ List.mem_cons_self)
    rw [← hops] at h hclock
    cases op with
    | search => cases hop
    | drop => cases hop
    | insert k v => exact ⟨AList.lookup_insert _, fun k' hne => AList.lookup_insert_ne hne⟩
    | evict o =>
      obtain ⟨hfull, hcount⟩ := turnOps_evict hops.symm
      rw [List.length_range'] at hcount
      have hlimit : maxSkip.toNat = maxSkippedKeys / 2 := rfl
      have hsplit : (earlier ++ MapOp.evict o :: later).filterMap MapOp.reading ++ ts
          = (earlier ++ [MapOp.evict o]).filterMap MapOp.reading
            ++ (later.filterMap MapOp.reading ++ ts) := by
        rw [List.append_cons, List.filterMap_append, List.append_assoc]
      rw [hsplit] at h hclock
      have hstored : (earlier ++ [MapOp.evict o]).filterMap MapOp.storedKey
          = earlier.filterMap MapOp.storedKey := by
        rw [List.filterMap_append]
        exact List.append_nil _
      have hread : (earlier ++ [MapOp.evict o]).filterMap MapOp.reading
          = earlier.filterMap MapOp.reading := by
        rw [List.filterMap_append]
        exact List.append_nil _
      refine ⟨hfull, ?_, fun k v hk => ?_⟩
      · have hdated : Dated (Machine.run (MapOp.apply P) m earlier)
            (later.filterMap MapOp.reading ++ ts) := by
          rw [hread] at h hclock
          exact h.run hclock
        exact evictOldestSkippedKeys_spec hdated ((Nat.div_le_self _ _).trans hfull)
      · have hpre : ∀ op' ∈ earlier ++ [MapOp.evict o], op'.Stores := by
          intro op' hmem
          refine hstores op' ?_
          rw [List.append_cons]
          exact List.mem_append_left _ hmem
        obtain ⟨w, -, hw⟩ := stored_of_count (P := P) hpre (by rw [hstored]; omega) h hclock
          (List.mem_append_left _ hk)
        rw [Machine.run_concat] at hw
        have hsome := congrArg Option.isSome hw
        exact AList.lookup_isSome.mp hsome

/-- The operations of a call, on a map whose entries are older than what the clock
reads from then on. -/
theorem call_accounted (c : Call K)
    (h : Dated st.mkskipped ((mapOps P b st c).flatten.filterMap MapOp.reading ++ ts))
    (hclock : ((mapOps P b st c).flatten.filterMap MapOp.reading ++ ts).Pairwise (· < ·))
    {before after : List (List (MapOp K))} {earlier later : List (MapOp K)} {op : MapOp K}
    (hops : mapOps P b st c = before ++ (earlier ++ op :: later) :: after) :
    Accounted P (st.reply P b c)
      (Machine.run (MapOp.apply P) st.mkskipped (before.flatten ++ earlier)) earlier op := by
  cases c with
  | encrypt plaintext ad => cases before <;> cases hops
  | decrypt env encHeader ciphertext ad =>
    rcases mapOps_cases hops with ⟨rfl, hsearch, had⟩ | hcall
    · cases earlier with
      | nil =>
        injection hsearch with hop
        subst hop
        exact search_accounted had
      | cons e earlier => cases earlier <;> cases hsearch
    · rw [Machine.run_append]
      have hsplit : (mapOps P b st (.decrypt env encHeader ciphertext ad)).flatten.filterMap
          MapOp.reading ++ ts = before.flatten.filterMap MapOp.reading ++
            ((earlier ++ op :: later).filterMap MapOp.reading ++
              (after.flatten.filterMap MapOp.reading ++ ts)) := by
        rw [hops, List.flatten_append, List.flatten_cons, List.filterMap_append,
          List.filterMap_append, List.append_assoc, List.append_assoc]
      rw [hsplit] at h hclock
      refine skipCall_accounted ?_ hcall (h.run hclock) (List.pairwise_append.mp hclock).2.1
      rintro ⟨e, he⟩
      show (Reply.plaintext (decrypt P b env encHeader ciphertext ad st).1).isOk = false
      rw [he]
      rfl

end Survival

/-- All that the call does to the map is in its list of operations, and accounted
for. -/
structure CallAccounted (P : Primitives K) (b : Build) (st : RatchetState K) (c : Call K) :
    Prop where
  replay : (st.step P b c).mkskipped
    = Machine.run (MapOp.apply P) st.mkskipped (mapOps P b st c).flatten
  accounted : ∀ before earlier op later after,
    mapOps P b st c = before ++ (earlier ++ op :: later) :: after →
    Accounted P (st.reply P b c)
      (Machine.run (MapOp.apply P) st.mkskipped (before.flatten ++ earlier)) earlier op

/-- **A skipped key survives until it is used or displaced by newer ones.**  Take
any calls from an initial state, on clocks whose readings strictly increase.  At
every call, the map changes by the operations listed for it and by nothing else,
and each of them is accounted for: so an entry goes only in the search of the call
that returns its plaintext, in an eviction that leaves a thousand newer entries, or
in a call that fails. -/
theorem skipped_keys_survive {P : Primitives K} {st₀ : RatchetState K} (h₀ : Initial P st₀)
    (b : Build) (cs : List (Call K))
    (hclock : ((Machine.trace (RatchetState.step P b) (mapOps P b) st₀
      cs).flatten.flatten.filterMap
      MapOp.reading).Pairwise (· < ·)) :
    Machine.Along (RatchetState.step P b) (CallAccounted P b) st₀ cs := by
  have hrun : ∀ (cs : List (Call K)) (st : RatchetState K) (readings : List SystemTime),
      readings = (Machine.trace (RatchetState.step P b)
        (mapOps P b) st cs).flatten.flatten.filterMap
        MapOp.reading → Dated st.mkskipped readings → readings.Pairwise (· < ·) →
      Machine.Along (RatchetState.step P b) (CallAccounted P b) st cs := by
    intro cs
    induction cs with
    | nil => exact fun _ _ _ _ _ => trivial
    | cons c cs ih =>
      intro st readings hreadings hdated hclock
      rw [Machine.trace, List.flatten_cons, List.flatten_append, List.filterMap_append]
        at hreadings
      subst hreadings
      refine ⟨⟨mapOps_replay b st c, fun before earlier op later after hops =>
        call_accounted c hdated hclock hops⟩, ?_⟩
      refine ih _ _ rfl ?_ (List.pairwise_append.mp hclock).2.1
      rw [mapOps_replay]
      exact hdated.run hclock
  refine hrun cs st₀ _ rfl ?_ hclock
  rw [h₀.empty.1]
  exact Dated.empty _

namespace Symbolic

/-- A call that draws the private key `secret` at time `t`, on a clock that advances
with every reading. -/
def envAt (secret : ℕ) (t : SystemTime) : CallEnv Key :=
  { Symbolic.env secret with clock := fun call i => t + 1000 * call + i }

/-- The responder receives message 2 first, and then message 0 from the store. -/
theorem skipped_keys_survive_after_gap :
    Machine.Along (RatchetState.step primitives .release) (CallAccounted primitives .release)
      receiver [.decrypt (envAt 3 10) (miscounted 2 2).1 (miscounted 2 2).2 [],
        .decrypt (envAt 4 9000) (miscounted 0 0).1 (miscounted 0 0).2 []] :=
  skipped_keys_survive (.receiver _ _) .release _ (by decide +kernel)

end Symbolic

end Ratchet
