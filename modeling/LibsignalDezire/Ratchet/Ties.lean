/-
Evictions from entries of one age.

Entries are dropped oldest first, in a stable sort: of entries with the same timestamp
those go first that the iteration of the map finds first.  So on a clock that stands
still the order of the map alone decides.

* `Tied.lookup_evict` — what an eviction drops of such a map;
* `Tied.foldl_startingWith`, `Tied.foldl_endingWith` — an entry that the iteration
  always finds first is dropped by the first eviction, one that it always finds last
  by none.
-/
import LibsignalDezire.Ratchet.Eviction

namespace Ratchet

variable {K : Type} [DecidableEq K]

/-! ### One eviction -/

variable {P : Primitives K} {m : SkippedKeyMap K} {t : SystemTime} {n : ℕ} {k : K × UInt32}

/-- All entries have the same timestamp. -/
def Tied (m : SkippedKeyMap K) (t : SystemTime) : Prop :=
  ∀ k v, m.lookup k = some v → v.timestamp = t

/-- Of entries of one age an eviction drops those that the iteration finds first. -/
theorem Tied.lookup_evict (h : Tied m t) (order : HashOrder (K × UInt32)) (n : ℕ)
    (k : K × UInt32) : (evictOldestSkippedKeys order m n).lookup k =
      if k ∈ (order.order m.keys).take (m.keys.length - n) then none else m.lookup k := by
  have hsorted : (timedKeys order m).insertionSort
    (fun x y => x.2 ≤ y.2) = timedKeys order m := by
    refine List.Pairwise.insertionSort_eq (List.pairwise_of_forall_mem_list ?_)
    rintro ⟨k, s⟩ hk ⟨k', s'⟩ hk'
    obtain ⟨v, hv, rfl⟩ := mem_timedKeys.mp hk
    obtain ⟨v', hv', rfl⟩ := mem_timedKeys.mp hk'
    exact ((h k v hv).trans (h k' v' hv').symm).le
  have hkeys : (timedKeys order m).map Prod.fst = order.order m.keys := evict_entries order m
  have hlen : (timedKeys order m).length = m.keys.length := by
    rw [← List.length_map Prod.fst, hkeys, (order.perm _).length_eq]
  show ((((timedKeys order m).insertionSort fun x y => x.2 ≤ y.2).take
    (((timedKeys order m).insertionSort fun x y => x.2 ≤ y.2).length - n)).foldl
      (fun m e => m.erase e.1) m).lookup k = _
  rw [hsorted, lookup_foldl_erase, List.map_take, hkeys, hlen]

/-- The iteration that finds `k` first. -/
def HashOrder.startingWith (k : K × UInt32) : HashOrder (K × UInt32) :=
  ⟨fun l => l.filter (· = k) ++ l.filter (fun x => !decide (x = k)), List.filter_append_perm _⟩

/-- The iteration that finds `k` last. -/
def HashOrder.endingWith (k : K × UInt32) : HashOrder (K × UInt32) :=
  ⟨fun l => l.filter (fun x => !decide (x = k)) ++ l.filter (· = k),
    fun l => List.perm_append_comm.trans (List.filter_append_perm _ l)⟩

theorem filter_keys_eq (hk : k ∈ m) : m.keys.filter (· = k) = [k] := by
  rw [List.filter_eq, List.count_eq_one_of_mem m.keys_nodup (AList.mem_keys.mp hk)]
  rfl

theorem Tied.not_mem_evict (h : Tied m t) (hn : n < m.keys.length) :
    k ∉ evictOldestSkippedKeys (.startingWith k) m n := by
  rw [← AList.lookup_isSome, h.lookup_evict]
  by_cases hk : k ∈ m
  · have hfirst : k ∈ ((HashOrder.startingWith k).order m.keys).take (m.keys.length - n) := by
      show k ∈ (m.keys.filter (· = k) ++ m.keys.filter (fun x => !decide (x = k))).take _
      rw [filter_keys_eq hk, List.singleton_append,
        show m.keys.length - n = (m.keys.length - n - 1) + 1 by omega, List.take_succ_cons]
      exact List.mem_cons_self
    rw [if_pos hfirst]
    simp
  · rw [← AList.lookup_isSome] at hk
    split
    · simp
    · exact hk

theorem Tied.lookup_evict_endingWith (h : Tied m t) (hn : 0 < n) :
    (evictOldestSkippedKeys (.endingWith k) m n).lookup k = m.lookup k := by
  rw [h.lookup_evict]
  by_cases hk : k ∈ m
  · have hlen : (m.keys.filter fun x => !decide (x = k)).length + 1 = m.keys.length := by
      have hperm := (List.filter_append_perm (· = k) m.keys).length_eq
      rw [filter_keys_eq hk, List.length_append, List.length_singleton] at hperm
      omega
    have hlast : k ∉ ((HashOrder.endingWith k).order m.keys).take (m.keys.length - n) := by
      show k ∉ (m.keys.filter (fun x => !decide (x = k)) ++ m.keys.filter (· = k)).take _
      rw [List.take_append_of_le_length (by omega)]
      intro hmem
      have := List.of_mem_filter (List.mem_of_mem_take hmem)
      simp at this
    rw [if_neg hlast]
  · rw [AList.lookup_eq_none.mpr hk, ite_self]

/-! ### The skip loop -/

/-- What the skip loop leaves of entries of one age, on a clock that stands still: all
entries have that age, and if `k` comes first in every iteration, then either an
eviction has dropped it or none has fired. -/
structure SkippedTied (m m' : SkippedKeyMap K) (hk : K) (l : List ℕ) (t : SystemTime)
    (k : K × UInt32) : Prop where
  tied : Tied m' t
  gone : k ∉ m → k ∉ m'
  dropped : k ∉ m' ∨ (∀ x ∈ m, x ∈ m') ∧ ∀ i ∈ l, (hk, UInt32.ofNat i) ∈ m'

variable (P) in
theorem Tied.skipTurn (h : Tied m t) (order : HashOrder (K × UInt32)) (hk ck : K) (i : ℕ) :
    Tied (skipTurn P order hk (fun _ => t) (m, ck) i).1 t := by
  intro k v hv
  rw [Ratchet.skipTurn] at hv
  by_cases hkey : k = (hk, UInt32.ofNat i)
  · rw [hkey, AList.lookup_insert, Option.some_inj] at hv
    rw [← hv]
  · rw [AList.lookup_insert_ne hkey] at hv
    split at hv
    · exact h k v (lookup_evictOldestSkippedKeys hv)
    · exact h k v hv

theorem Tied.foldl_startingWith (h : Tied m t) (hk ck : K) {l : List ℕ}
    (hne : ∀ i ∈ l, k ≠ (hk, UInt32.ofNat i)) :
    SkippedTied m (l.foldl (Ratchet.skipTurn P (.startingWith k) hk fun _ => t) (m, ck)).1
      hk l t k := by
  induction l generalizing m ck with
  | nil => exact ⟨h, id, .inr ⟨fun _ hx => hx, fun _ hi => absurd hi List.not_mem_nil⟩⟩
  | cons i l ih =>
    have hkey := hne i List.mem_cons_self
    have hrest := ih (h.skipTurn P (.startingWith k) hk ck i) (kdfCk P ck).1
      fun j hj => hne j (List.mem_cons_of_mem _ hj)
    -- a turn on a full map drops the key, and no turn brings it back
    have hturn : (k ∉ m ∨ maxSkippedKeys ≤ m.keys.length) →
        k ∉ (Ratchet.skipTurn P (.startingWith k) hk (fun _ => t) (m, ck) i).1 := by
      intro hgone hmem
      rcases AList.mem_insert _ |>.mp hmem with heq | hmem
      · exact hkey heq
      · dsimp only at hmem
        split at hmem
        · exact h.not_mem_evict ((by decide : maxSkippedKeys / 2 < maxSkippedKeys).trans_le
            ‹_›) hmem
        · exact hgone.elim (fun hk => hk hmem) (fun hfull => by contradiction)
    refine ⟨hrest.tied, fun hk => hrest.gone (hturn (.inl hk)), ?_⟩
    by_cases hfull : maxSkippedKeys ≤ m.keys.length
    · exact .inl (hrest.gone (hturn (.inr hfull)))
    · refine hrest.dropped.imp_right fun ⟨hold, hnew⟩ => ⟨fun x hx => hold x ?_, fun j hj => ?_⟩
      · rw [Ratchet.skipTurn]
        dsimp only
        rw [if_neg hfull]
        exact (AList.mem_insert _).mpr (.inr hx)
      · rcases List.mem_cons.mp hj with rfl | hj
        · exact hold _ ((AList.mem_insert _).mpr (.inl rfl))
        · exact hnew j hj

theorem Tied.foldl_endingWith (h : Tied m t) (hk ck : K) {l : List ℕ}
    (hne : ∀ i ∈ l, k ≠ (hk, UInt32.ofNat i)) :
    Tied (l.foldl (Ratchet.skipTurn P (.endingWith k) hk fun _ => t) (m, ck)).1 t ∧
      (l.foldl (Ratchet.skipTurn P (.endingWith k) hk fun _ => t) (m, ck)).1.lookup k
        = m.lookup k := by
  induction l generalizing m ck with
  | nil => exact ⟨h, rfl⟩
  | cons i l ih =>
    obtain ⟨htied, hlook⟩ := ih (h.skipTurn P (.endingWith k) hk ck i) (kdfCk P ck).1
      fun j hj => hne j (List.mem_cons_of_mem _ hj)
    refine ⟨htied, hlook.trans ?_⟩
    rw [Ratchet.skipTurn, AList.lookup_insert_ne (hne i List.mem_cons_self)]
    split
    · exact h.lookup_evict_endingWith (by decide)
    · rfl

/-- The loop stores keys of one chain. -/
theorem mem_foldl_skipTurn {order : HashOrder (K × UInt32)} {hk ck : K} {time : ℕ → SystemTime}
    {l : List ℕ} (h : k ∈ (l.foldl (Ratchet.skipTurn P order hk time) (m, ck)).1) :
    k ∈ m ∨ k.1 = hk := by
  induction l generalizing m ck with
  | nil => exact .inl h
  | cons i l ih =>
    refine (ih h).elim (fun hmem => ?_) .inr
    rcases (AList.mem_insert _).mp hmem with rfl | hmem
    · exact .inr rfl
    · dsimp only at hmem
      split at hmem
      · obtain ⟨v, hv⟩ := Option.isSome_iff_exists.mp (AList.lookup_isSome.mpr hmem)
        exact .inl (AList.lookup_isSome.mp (lookup_evictOldestSkippedKeys hv ▸ rfl))
      · exact .inl hmem

theorem card_numberKeys {hk : K} {a b : ℕ} (hb : b ≤ 2 ^ 32) :
    (numberKeys hk a b).card = b - a := by
  rw [numberKeys, Finset.card_image_of_injOn, Nat.card_Ico]
  intro i hi j hj heq
  have hi := (Finset.mem_Ico.mp hi).2
  have hj := (Finset.mem_Ico.mp hj).2
  have hnat := congrArg UInt32.toNat (congrArg Prod.snd heq)
  rwa [UInt32.toNat_ofNat_of_lt' (hi.trans_le hb), UInt32.toNat_ofNat_of_lt' (hj.trans_le hb)]
    at hnat

end Ratchet
