/-
Evictions from the map of skipped keys.

Entries are dropped by age, oldest first.  As long as no two of them have the same
timestamp this does not depend on the order in which the map is enumerated.

* `lookup_evictOldestSkippedKeys_eq` — an entry is kept exactly when fewer than
  the target number of entries are newer;
* `evictOldestSkippedKeys_spec` — **an eviction keeps the newest entries**, as they
  were.
-/
import LibsignalDezire.Lib.Newest
import LibsignalDezire.Ratchet.Calls

namespace Ratchet

variable {K : Type} [DecidableEq K]

/-- No two entries have the same timestamp, and all are older than the readings. -/
structure Dated (m : SkippedKeyMap K) (readings : List SystemTime) : Prop where
  distinct : ∀ k k' v v', m.lookup k = some v → m.lookup k' = some v' →
    v.timestamp = v'.timestamp → k = k'
  past : ∀ k v, m.lookup k = some v → ∀ t ∈ readings, v.timestamp < t

/-- The keys of the entries that are newer than `t`. -/
def keysAfter (m : SkippedKeyMap K) (t : SystemTime) : Finset (K × UInt32) :=
  m.keys.toFinset.filter fun k => (m.lookup k).any fun v => t < v.timestamp

theorem mem_keysAfter {m : SkippedKeyMap K} {t : SystemTime} {k : K × UInt32} :
    k ∈ keysAfter m t ↔ ∃ v, m.lookup k = some v ∧ t < v.timestamp := by
  rw [keysAfter, Finset.mem_filter, List.mem_toFinset, ← AList.mem_keys, ← AList.lookup_isSome]
  cases m.lookup k with
  | none => simp
  | some v => simp

/-- The keys with their timestamps, as `evictOldestSkippedKeys` collects them. -/
def timedKeys (order : HashOrder (K × UInt32)) (m : SkippedKeyMap K) :
    List ((K × UInt32) × SystemTime) :=
  (order.order m.keys).filterMap fun k => (m.lookup k).map fun v => (k, v.timestamp)

section Evict

variable {order : HashOrder (K × UInt32)} {m : SkippedKeyMap K} {n : ℕ}

theorem mem_timedKeys {k : K × UInt32} {t : SystemTime} :
    (k, t) ∈ timedKeys order m ↔ ∃ v, m.lookup k = some v ∧ v.timestamp = t := by
  rw [timedKeys, List.mem_filterMap]
  constructor
  · rintro ⟨k', -, hk'⟩
    cases hlook : m.lookup k' with
    | none =>
      rw [hlook] at hk'
      cases hk'
    | some v =>
      rw [hlook] at hk'
      cases hk'
      exact ⟨v, hlook, rfl⟩
  · rintro ⟨v, hlook, rfl⟩
    refine ⟨k, (order.perm _).mem_iff.mpr (AList.mem_keys.mp ?_), by rw [hlook]; rfl⟩
    exact AList.lookup_isSome.mp (hlook ▸ rfl)

theorem timedKeys_keys_nodup : ((timedKeys order m).map Prod.fst).Nodup := by
  rw [timedKeys, evict_entries, (order.perm _).nodup_iff]
  exact m.keys_nodup

variable (order) in
theorem card_keysAfter (t : SystemTime) :
    (keysAfter m t).card = (Newest.later Prod.snd (timedKeys order m) t).length := by
  have hsub : (Newest.later Prod.snd (timedKeys order m) t).Sublist (timedKeys order m) :=
    List.filter_sublist
  have hnd : ((Newest.later Prod.snd (timedKeys order m) t).map Prod.fst).Nodup :=
    timedKeys_keys_nodup.sublist (hsub.map Prod.fst)
  have hset : keysAfter m t
      = ((Newest.later Prod.snd (timedKeys order m) t).map Prod.fst).toFinset := by
    ext k
    rw [mem_keysAfter, List.mem_toFinset, List.mem_map]
    constructor
    · rintro ⟨v, hlook, hlt⟩
      exact ⟨(k, v.timestamp), Newest.mem_later.mpr
        ⟨mem_timedKeys.mpr ⟨v, hlook, rfl⟩, hlt⟩, rfl⟩
    · rintro ⟨⟨k', t'⟩, hmem, rfl⟩
      obtain ⟨hmem, hlt⟩ := Newest.mem_later.mp hmem
      obtain ⟨v, hlook, rfl⟩ := mem_timedKeys.mp hmem
      exact ⟨v, hlook, hlt⟩
  rw [hset, List.toFinset_card_of_nodup hnd, List.length_map]

/-- Eviction keeps an entry exactly when fewer than `n` others are newer. -/
theorem lookup_evictOldestSkippedKeys_eq {readings : List SystemTime} (h : Dated m readings)
    {k : K × UInt32} {v : SkippedKey K} (hk : m.lookup k = some v) :
    (evictOldestSkippedKeys order m n).lookup k =
      if (keysAfter m v.timestamp).card < n then some v else none := by
  set sorted := (timedKeys order m).insertionSort fun x y => x.2 ≤ y.2 with hsorted
  have hperm : sorted.Perm (timedKeys order m) := List.perm_insertionSort _ _
  have hstrict : sorted.Pairwise fun x y => x.2 < y.2 := by
    refine Newest.sorted_insertionSort_of_injOn timedKeys_keys_nodup.of_map ?_
    rintro ⟨k₁, t₁⟩ h₁ ⟨k₂, t₂⟩ h₂ rfl
    obtain ⟨v₁, hl₁, hv₁⟩ := mem_timedKeys.mp h₁
    obtain ⟨v₂, hl₂, hv₂⟩ := mem_timedKeys.mp h₂
    rw [h.distinct k₁ k₂ v₁ v₂ hl₁ hl₂ (hv₁.trans hv₂.symm)]
  have hevict : evictOldestSkippedKeys order m n
      = (sorted.take ((timedKeys order m).length - n)).foldl (fun m e => m.erase e.1) m := by
    rw [← hperm.length_eq]
    rfl
  -- the key is among those erased exactly when its entry is among the oldest
  have hdropped : k ∈ (sorted.take ((timedKeys order m).length - n)).map Prod.fst ↔
      n ≤ (keysAfter m v.timestamp).card := by
    rw [card_keysAfter order, ← Newest.length_later_perm hperm, ← hperm.length_eq]
    constructor
    · intro hmem
      obtain ⟨⟨k', t⟩, htake, rfl⟩ := List.mem_map.mp hmem
      obtain ⟨hin, hle⟩ := (Newest.mem_take_iff_of_sorted hstrict).mp htake
      obtain ⟨v', hlook, rfl⟩ := mem_timedKeys.mp (hperm.mem_iff.mp hin)
      obtain rfl := Option.some_inj.mp (hk.symm.trans hlook)
      exact hle
    · intro hle
      refine List.mem_map.mpr ⟨(k, v.timestamp), ?_, rfl⟩
      refine (Newest.mem_take_iff_of_sorted hstrict).mpr ⟨hperm.mem_iff.mpr ?_, hle⟩
      exact mem_timedKeys.mpr ⟨v, hk, rfl⟩
  rw [hevict, lookup_foldl_erase, hk]
  by_cases hlt : (keysAfter m v.timestamp).card < n
  · rw [if_pos hlt, if_neg (mt hdropped.mp (not_le.mpr hlt))]
  · rw [if_neg hlt, if_pos (hdropped.mpr (not_lt.mp hlt))]

/-- `m'` is what is left of `m` after an eviction to `n` entries: the newest `n`, with
their keys and timestamps; at least `n` of them are newer than any entry that is
gone. -/
structure KeepsNewest (m m' : SkippedKeyMap K) (n : ℕ) : Prop where
  size : m'.keys.length = n
  unchanged : ∀ k v, m'.lookup k = some v → m.lookup k = some v
  newest : ∀ k v, m.lookup k = some v → (k ∈ m' ↔ (keysAfter m v.timestamp).card < n)
  displaced : ∀ k v, m.lookup k = some v → k ∉ m' →
    n ≤ ((keysAfter m v.timestamp).filter (· ∈ m')).card

/-- **What an eviction keeps.** -/
theorem evictOldestSkippedKeys_spec {readings : List SystemTime} (h : Dated m readings)
    (hn : n ≤ m.keys.length) : KeepsNewest m (evictOldestSkippedKeys order m n) n := by
  have hsize : (evictOldestSkippedKeys order m n).keys.length = n := by
    rw [length_evictOldestSkippedKeys_eq, min_eq_left hn]
  have hmem : ∀ k v, m.lookup k = some v →
      (k ∈ evictOldestSkippedKeys order m n ↔ (keysAfter m v.timestamp).card < n) := by
    intro k v hk
    rw [← AList.lookup_isSome, lookup_evictOldestSkippedKeys_eq h hk]
    split
    case isTrue hlt => exact iff_of_true rfl hlt
    case isFalse hle => exact iff_of_false (by simp) hle
  refine ⟨hsize, fun k v => lookup_evictOldestSkippedKeys, hmem, fun k v hk hgone => ?_⟩
  rw [hmem k v hk, not_lt] at hgone
  -- all that is kept is newer than what is gone
  have hkept : (evictOldestSkippedKeys order m n).keys.toFinset
      ⊆ (keysAfter m v.timestamp).filter (· ∈ evictOldestSkippedKeys order m n) := by
    intro k' hk'
    rw [List.mem_toFinset, ← AList.mem_keys] at hk'
    obtain ⟨v', hv'⟩ := Option.isSome_iff_exists.mp (AList.lookup_isSome.mpr hk')
    have hlook := lookup_evictOldestSkippedKeys hv'
    refine Finset.mem_filter.mpr ⟨mem_keysAfter.mpr ⟨v', hlook, ?_⟩, hk'⟩
    by_contra hle
    have hsub : keysAfter m v.timestamp ⊆ keysAfter m v'.timestamp := by
      intro x hx
      obtain ⟨w, hw, hlt⟩ := mem_keysAfter.mp hx
      exact mem_keysAfter.mpr ⟨w, hw, (not_lt.mp hle).trans_lt hlt⟩
    have := (hmem k' v' hlook).mp hk'
    have := Finset.card_le_card hsub
    omega
  calc n = (evictOldestSkippedKeys order m n).keys.toFinset.card := by
        rw [card_keys, hsize]
    _ ≤ _ := Finset.card_le_card hkept

end Evict

end Ratchet
