/-
Saving and restoring a session state (`serde` on `RatchetState`).

`SavedState` is what the derived `Serialize` hands to the serialiser: the
fields of the state, with the hash map and the hash set written out as
sequences in their iteration order and timestamps as a duration since the Unix
epoch.  Saving fails exactly when a timestamp is before the epoch.

* `deserialize_serialize` — a restored state has the same fields; only the
  order of the entries of `mkskipped` may differ.
-/
import LibsignalDezire.Ratchet.Basic

namespace Ratchet

variable {K : Type} [DecidableEq K]

/-- An iteration order of a hash set. -/
structure SetOrder (κ : Type) [DecidableEq κ] where
  order : Finset κ → List κ
  toFinset_order : ∀ s, (order s).toFinset = s

/-- A skipped key as written: its timestamp in seconds and nanoseconds. -/
structure SavedSkippedKey (K : Type) where
  ofKey ::
  mk : K
  secs : ℕ
  nanos : ℕ

/-- A session state as written. -/
structure SavedState (K : Type) where
  dhPair : DhPrivateKey × DhPublicKey
  dhRemote : Option DhPublicKey
  rk : K
  ckS : Option K
  ckR : Option K
  hkS : Option K
  hkR : Option K
  nhkS : K
  nhkR : K
  ns : UInt32
  nr : UInt32
  pn : UInt32
  mkskipped : List ((K × UInt32) × SavedSkippedKey K)
  headerNonceCounter : UInt64
  isSender : Bool
  receivedMessages : List (DhPublicKey × UInt32)

/-- `serde_json`, which reads back what it writes.  The text of a JSON contains no zero
byte. -/
class Json (K : Type) where
  toString : SavedState K → Bytes
  fromStr : Bytes → Option (SavedState K)
  fromStr_toString : ∀ saved, fromStr (toString saved) = some saved
  zero_notMem_toString : ∀ saved, 0 ∉ toString saved

def serializeSkippedKey (v : SkippedKey K) : Option (SavedSkippedKey K) :=
  -- `SystemTime` refuses to serialise a time before the epoch
  if v.timestamp < 0 then none
  else some ⟨v.mk, v.timestamp.toNat / 10 ^ 9, v.timestamp.toNat % 10 ^ 9⟩

def deserializeSkippedKey (v : SavedSkippedKey K) : SkippedKey K :=
  ⟨v.mk, ((v.secs * 10 ^ 9 + v.nanos : ℕ) : ℤ)⟩

/-- `serialize_skipped_map`: the entries in iteration order. -/
def serializeSkippedMap (order : HashOrder (K × UInt32)) (map : SkippedKeyMap K) :
    Option (List ((K × UInt32) × SavedSkippedKey K)) :=
  (order.order map.keys).mapM fun k => do
    let v ← map.lookup k
    let saved ← serializeSkippedKey v
    pure (k, saved)

/-- `deserialize_skipped_map`: the entries are inserted one by one. -/
def deserializeSkippedMap (seq : List ((K × UInt32) × SavedSkippedKey K)) : SkippedKeyMap K :=
  seq.foldl (fun map e => map.insert e.1 (deserializeSkippedKey e.2)) ∅

/-- `serde_json::to_string(state)`, up to the text of the JSON. -/
def serialize (mapOrder : HashOrder (K × UInt32)) (setOrder : SetOrder (DhPublicKey × UInt32))
    (st : RatchetState K) : Option (SavedState K) := do
  let mkskipped ← serializeSkippedMap mapOrder st.mkskipped
  pure
    { dhPair := st.dhPair, dhRemote := st.dhRemote, rk := st.rk, ckS := st.ckS, ckR := st.ckR
      hkS := st.hkS, hkR := st.hkR, nhkS := st.nhkS, nhkR := st.nhkR
      ns := st.ns, nr := st.nr, pn := st.pn, mkskipped
      headerNonceCounter := st.headerNonceCounter, isSender := st.isSender
      receivedMessages := setOrder.order st.receivedMessages }

/-- `serde_json::from_str(json)`. -/
def deserialize (saved : SavedState K) : RatchetState K :=
  { dhPair := saved.dhPair, dhRemote := saved.dhRemote, rk := saved.rk
    ckS := saved.ckS, ckR := saved.ckR, hkS := saved.hkS, hkR := saved.hkR
    nhkS := saved.nhkS, nhkR := saved.nhkR, ns := saved.ns, nr := saved.nr, pn := saved.pn
    mkskipped := deserializeSkippedMap saved.mkskipped
    headerNonceCounter := saved.headerNonceCounter, isSender := saved.isSender
    receivedMessages := saved.receivedMessages.toFinset }

omit [DecidableEq K] in
theorem deserializeSkippedKey_serialize {v : SkippedKey K} {saved : SavedSkippedKey K}
    (h : serializeSkippedKey v = some saved) : deserializeSkippedKey saved = v := by
  unfold serializeSkippedKey at h
  split at h
  case isTrue => cases h
  case isFalse hpos =>
    cases h
    have htime : v.timestamp.toNat / 10 ^ 9 * 10 ^ 9 + v.timestamp.toNat % 10 ^ 9
        = v.timestamp.toNat := Nat.div_add_mod' _ _
    have hcast : ((v.timestamp.toNat : ℕ) : ℤ) = v.timestamp :=
      Int.toNat_of_nonneg (not_lt.mp hpos)
    rw [deserializeSkippedKey, htime, hcast]

/-- What the insertions leave under a key: the entry of the sequence, or what
was there before. -/
theorem lookup_foldl_insert {seq : List ((K × UInt32) × SavedSkippedKey K)}
    (hnd : (seq.map Prod.fst).Nodup) (map : SkippedKeyMap K) (k : K × UInt32) :
    (∀ v, (k, v) ∈ seq →
      (seq.foldl (fun map e => map.insert e.1 (deserializeSkippedKey e.2)) map).lookup k
        = some (deserializeSkippedKey v)) ∧
    (k ∉ seq.map Prod.fst →
      (seq.foldl (fun map e => map.insert e.1 (deserializeSkippedKey e.2)) map).lookup k
        = map.lookup k) := by
  induction seq generalizing map with
  | nil => exact ⟨by simp, fun _ => rfl⟩
  | cons e seq ih =>
    rw [List.map_cons, List.nodup_cons] at hnd
    obtain ⟨hin, hout⟩ := ih hnd.2 (map.insert e.1 (deserializeSkippedKey e.2))
    refine ⟨fun v hv => ?_, fun hk => ?_⟩
    · rcases List.mem_cons.mp hv with rfl | hv
      · rw [List.foldl_cons, hout hnd.1, AList.lookup_insert]
      · exact hin v hv
    · rw [List.map_cons, List.mem_cons, not_or] at hk
      rw [List.foldl_cons, hout hk.2, AList.lookup_insert_ne hk.1]

/-- The sequence that is written holds exactly the entries of the map. -/
theorem serializeSkippedMap_spec {order : HashOrder (K × UInt32)} {map : SkippedKeyMap K}
    {seq : List ((K × UInt32) × SavedSkippedKey K)}
    (h : serializeSkippedMap order map = some seq) :
    seq.map Prod.fst = order.order map.keys ∧
      ∀ k saved, (k, saved) ∈ seq → ∃ v, map.lookup k = some v ∧
        serializeSkippedKey v = some saved := by
  unfold serializeSkippedMap at h
  generalize order.order map.keys = keys at h
  induction keys generalizing seq with
  | nil =>
    simp only [List.mapM_nil, Option.pure_def, Option.some_inj] at h
    subst h
    exact ⟨rfl, by simp⟩
  | cons k keys ih =>
    simp only [List.mapM_cons, Option.bind_eq_bind, Option.pure_def, Option.bind_eq_some_iff,
      Option.some_inj] at h
    obtain ⟨e, ⟨v, hv, saved, hsaved, rfl⟩, rest, hrest, rfl⟩ := h
    obtain ⟨hkeys, hentries⟩ := ih hrest
    refine ⟨by rw [List.map_cons, hkeys], fun k' saved' hmem => ?_⟩
    rcases List.mem_cons.mp hmem with heq | hmem
    · cases heq
      exact ⟨v, hv, hsaved⟩
    · exact hentries k' saved' hmem

theorem lookup_deserializeSkippedMap {order : HashOrder (K × UInt32)} {map : SkippedKeyMap K}
    {seq : List ((K × UInt32) × SavedSkippedKey K)}
    (h : serializeSkippedMap order map = some seq) (k : K × UInt32) :
    (deserializeSkippedMap seq).lookup k = map.lookup k := by
  obtain ⟨hkeys, hentries⟩ := serializeSkippedMap_spec h
  have hnd : (seq.map Prod.fst).Nodup := by
    rw [hkeys]
    exact (order.perm _).nodup_iff.mpr map.keys_nodup
  obtain ⟨hin, hout⟩ := lookup_foldl_insert hnd ∅ k
  by_cases hk : k ∈ seq.map Prod.fst
  · obtain ⟨⟨k', saved⟩, hmem, rfl⟩ := List.mem_map.mp hk
    obtain ⟨v, hv, hsaved⟩ := hentries k' saved hmem
    rw [deserializeSkippedMap, hin saved hmem, hv, deserializeSkippedKey_serialize hsaved]
  · rw [deserializeSkippedMap, hout hk, AList.lookup_empty, eq_comm, AList.lookup_eq_none,
      AList.mem_keys, ← (order.perm _).mem_iff, ← hkeys]
    exact hk

/-- **Restoring a saved state changes nothing**: every field is back, and
`mkskipped` holds the same entries. -/
theorem deserialize_serialize {mapOrder : HashOrder (K × UInt32)}
    {setOrder : SetOrder (DhPublicKey × UInt32)} {st : RatchetState K} {saved : SavedState K}
    (h : serialize mapOrder setOrder st = some saved) :
    ∃ mkskipped : SkippedKeyMap K, (∀ k, mkskipped.lookup k = st.mkskipped.lookup k) ∧
      deserialize saved = { st with mkskipped } := by
  simp only [serialize, Option.bind_eq_bind, Option.pure_def, Option.bind_eq_some_iff,
    Option.some_inj] at h
  obtain ⟨seq, hseq, rfl⟩ := h
  refine ⟨deserializeSkippedMap seq, lookup_deserializeSkippedMap hseq, ?_⟩
  simp only [deserialize, setOrder.toFinset_order]

end Ratchet
