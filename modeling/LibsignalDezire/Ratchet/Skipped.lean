/-
The store of skipped message keys: eviction, the skip loop and the search.

* `skipMessageKeys_spec` — within the skip limit the loop returns, every entry
  it adds holds the key of its number, and if no eviction fires exactly the
  numbers of the range are added;
* `trySkippedMessageKeys_cases` — the search never fails; it either returns the
  map unchanged or removes one entry that opens the message.
-/
import Mathlib.Data.List.Sort
import Mathlib.Order.Interval.Finset.Nat
import LibsignalDezire.Ratchet.Crypto

namespace Ratchet

variable {K : Type} [DecidableEq K] (P : Primitives K)

/-- The key of message number `i` of the chain that starts at `ck`. -/
def messageKey (ck : K) (i : ℕ) : K := (kdfCk P (advance P ck i)).2

/-- Evict the oldest skipped keys. -/
def evictOldestSkippedKeys (order : HashOrder (K × UInt32)) (mkskipped : SkippedKeyMap K)
    (targetSize : ℕ) : SkippedKeyMap K :=
  let entries := (order.order mkskipped.keys).filterMap fun k =>
    (mkskipped.lookup k).map fun v => (k, v.timestamp)
  -- oldest first
  let entries := entries.insertionSort fun x y => x.2 ≤ y.2
  let toRemove := entries.length - targetSize
  (entries.take toRemove).foldl (fun m e => m.erase e.1) mkskipped

/-- The loop of `skipMessageKeys`, with at most `fuel` turns: `clock` are the
readings of `SystemTime::now()` from this turn on. -/
def skipLoop (order : HashOrder (K × UInt32)) (hk : K) (toN : UInt32) :
    ℕ → (ℕ → SystemTime) → SkippedKeyMap K → K → UInt32 →
      Outcome RatchetError (SkippedKeyMap K)
  | 0, _, mkskipped, _, _ => .ok mkskipped
  | fuel + 1, clock, mkskipped, ck, current =>
    if current < toN then do
      let mkskipped :=
        if maxSkippedKeys ≤ mkskipped.keys.length then
          evictOldestSkippedKeys order mkskipped (maxSkippedKeys / 2)
        else mkskipped
      let (nextCk, mk) := kdfCk P ck
      let mkskipped := mkskipped.insert (hk, current) ⟨mk, clock 0⟩
      let current ← Outcome.okOr .counterOverflow (checkedAdd32 current 1)
      skipLoop order hk toN fuel (fun i => clock (i + 1)) mkskipped nextCk current
    else .ok mkskipped

/-- Store the keys of the numbers `fromN, …, toN - 1` of the chain `ck` with
header key `hk`. -/
def skipMessageKeys (order : HashOrder (K × UInt32)) (clock : ℕ → SystemTime)
    (mkskipped : SkippedKeyMap K) (ck hk : K) (fromN toN : UInt32) :
    Outcome RatchetError (SkippedKeyMap K) :=
  if toN < fromN then .err .invalidHeader
  else
    let skipCount := toN.toNat - fromN.toNat
    if maxSkip.toNat < skipCount then .err .oldMessageKeysLimitReached
    -- the loop turns once for each number from `fromN` up to `toN`
    else skipLoop P order hk toN skipCount clock mkskipped ck fromN

/-- The search through the candidates `(hk, n)`, in iteration order. -/
def tryCandidates (mkskipped : SkippedKeyMap K) (encHeader ciphertext ad : Bytes) :
    List (K × UInt32) → Outcome RatchetError (SkippedKeyMap K × Option Bytes)
  | [] => .ok (mkskipped, none)
  | (hk, n) :: rest =>
    match mkskipped.lookup (hk, n) with
    | none => tryCandidates mkskipped encHeader ciphertext ad rest
    | some skippedKey =>
      match decryptHeaderWithKey P hk encHeader with
      | .panic => .panic
      | .err _ => tryCandidates mkskipped encHeader ciphertext ad rest
      | .ok header =>
        if n = header.n then
          match decryptAead P skippedKey.mk ciphertext ad with
          | .panic => .panic
          -- failed authentication, continue trying other keys
          | .err _ => tryCandidates mkskipped encHeader ciphertext ad rest
          | .ok plaintext => .ok (mkskipped.erase (hk, n), some plaintext)
        else tryCandidates mkskipped encHeader ciphertext ad rest

/-- Try to decrypt with the skipped message keys. -/
def trySkippedMessageKeys (order : HashOrder (K × UInt32)) (mkskipped : SkippedKeyMap K)
    (encHeader ciphertext ad : Bytes) :
    Outcome RatchetError (SkippedKeyMap K × Option Bytes) :=
  tryCandidates P mkskipped encHeader ciphertext ad (order.order mkskipped.keys)

/-! ### Eviction and the skip loop -/

omit [DecidableEq K] in
theorem messageKey_zero (ck : K) : messageKey P ck 0 = (kdfCk P ck).2 := rfl

omit [DecidableEq K] in
theorem messageKey_succ (ck : K) (i : ℕ) :
    messageKey P ck (i + 1) = messageKey P (kdfCk P ck).1 i := by
  rw [messageKey, advance_succ]
  rfl

/-- What is left after erasing a list of keys. -/
theorem lookup_foldl_erase (l : List ((K × UInt32) × SystemTime)) (m : SkippedKeyMap K)
    (k : K × UInt32) : (l.foldl (fun m e => m.erase e.1) m).lookup k =
      if k ∈ l.map Prod.fst then none else m.lookup k := by
  induction l generalizing m with
  | nil => rfl
  | cons e l ih =>
    rw [List.foldl_cons, ih, List.map_cons]
    by_cases hl : k ∈ l.map Prod.fst
    · rw [if_pos hl, if_pos (List.mem_cons_of_mem _ hl)]
    · by_cases hke : k = e.1
      · rw [if_neg hl, hke, AList.lookup_erase, if_pos List.mem_cons_self]
      · rw [if_neg hl, AList.lookup_erase_ne hke, if_neg (by simp [hke, hl])]

/-- Eviction keeps the keys and timestamps of what it keeps. -/
theorem lookup_evictOldestSkippedKeys {order : HashOrder (K × UInt32)} {m : SkippedKeyMap K}
    {target : ℕ} {k : K × UInt32} {v : SkippedKey K}
    (h : (evictOldestSkippedKeys order m target).lookup k = some v) : m.lookup k = some v := by
  rw [evictOldestSkippedKeys, lookup_foldl_erase] at h
  split at h
  · cases h
  · exact h

/-! ### The size of the map -/

theorem length_keys_erase_le (m : SkippedKeyMap K) (k : K × UInt32) :
    (m.erase k).keys.length ≤ m.keys.length := by
  rw [AList.keys_erase]
  exact (@List.erase_sublist _ instBEqOfDecidableEq k m.keys).length_le

theorem length_keys_erase {m : SkippedKeyMap K} {k : K × UInt32} (h : k ∈ m) :
    (m.erase k).keys.length + 1 = m.keys.length := by
  have hpos : 0 < m.keys.length := List.length_pos_of_mem (AList.mem_keys.mp h)
  have hlen := @List.length_erase_of_mem _ instBEqOfDecidableEq _ _ _ (AList.mem_keys.mp h)
  rw [AList.keys_erase, hlen]
  omega

theorem length_keys_insert_le (m : SkippedKeyMap K) (k : K × UInt32) (v : SkippedKey K) :
    (m.insert k v).keys.length ≤ m.keys.length + 1 := by
  rw [AList.keys_insert, List.length_cons]
  exact Nat.succ_le_succ (@List.erase_sublist _ instBEqOfDecidableEq k m.keys).length_le

/-- Erasing distinct entries of the map. -/
theorem length_foldl_erase {l : List ((K × UInt32) × SystemTime)} {m : SkippedKeyMap K}
    (hnd : (l.map Prod.fst).Nodup) (hmem : ∀ e ∈ l, e.1 ∈ m) :
    (l.foldl (fun m e => m.erase e.1) m).keys.length + l.length = m.keys.length := by
  induction l generalizing m with
  | nil => rfl
  | cons e l ih =>
    rw [List.map_cons, List.nodup_cons] at hnd
    have hrest : ∀ e' ∈ l, e'.1 ∈ m.erase e.1 := by
      intro e' he'
      have hne : e'.1 ≠ e.1 := fun heq => hnd.1 (heq ▸ List.mem_map_of_mem he')
      exact AList.mem_erase.mpr ⟨hne, hmem e' (List.mem_cons_of_mem e he')⟩
    have hlen := ih hnd.2 hrest
    have herase := length_keys_erase (hmem e List.mem_cons_self)
    rw [List.foldl_cons, List.length_cons]
    omega

/-- The entries that `evictOldestSkippedKeys` sorts are those of the map. -/
theorem evict_entries (order : HashOrder (K × UInt32)) (m : SkippedKeyMap K) :
    ((order.order m.keys).filterMap fun k => (m.lookup k).map fun v => (k, v.timestamp)).map
      Prod.fst = order.order m.keys := by
  have hmem : ∀ k ∈ order.order m.keys, k ∈ m :=
    fun k hk => AList.mem_keys.mpr ((order.perm _).mem_iff.mp hk)
  revert hmem
  generalize order.order m.keys = keys
  intro hmem
  induction keys with
  | nil => rfl
  | cons k keys ih =>
    obtain ⟨v, hv⟩ := Option.isSome_iff_exists.mp
      (AList.lookup_isSome.mpr (hmem k List.mem_cons_self))
    rw [List.filterMap_cons]
    simp only [hv, Option.map_some, List.map_cons]
    rw [ih fun k' hk' => hmem k' (List.mem_cons_of_mem k hk')]

/-- Eviction leaves `targetSize` entries, or all of them if there are fewer. -/
theorem length_evictOldestSkippedKeys_eq (order : HashOrder (K × UInt32)) (m : SkippedKeyMap K)
    (targetSize : ℕ) :
    (evictOldestSkippedKeys order m targetSize).keys.length = min targetSize m.keys.length := by
  have hkeys := evict_entries order m
  rw [evictOldestSkippedKeys]
  generalize hentries : ((order.order m.keys).filterMap fun k =>
    (m.lookup k).map fun v => (k, v.timestamp)) = entries at hkeys ⊢
  set sorted := entries.insertionSort fun x y => x.2 ≤ y.2 with hsorted
  have hperm : sorted.Perm entries := List.perm_insertionSort _ _
  have hlen : sorted.length = m.keys.length := by
    rw [hperm.length_eq, ← List.length_map Prod.fst, hkeys, (order.perm _).length_eq]
  have hnd : (sorted.map Prod.fst).Nodup := by
    rw [(hperm.map Prod.fst).nodup_iff, hkeys, (order.perm _).nodup_iff]
    exact m.keys_nodup
  have hmem : ∀ e ∈ sorted, e.1 ∈ m := by
    intro e he
    have hfst : e.1 ∈ entries.map Prod.fst := List.mem_map_of_mem (hperm.mem_iff.mp he)
    rw [hkeys, (order.perm _).mem_iff] at hfst
    exact AList.mem_keys.mpr hfst
  have hfold := length_foldl_erase (l := sorted.take (sorted.length - targetSize)) (m := m)
    (by rw [List.map_take]; exact hnd.sublist (List.take_sublist _ _))
    fun e he => hmem e (List.mem_of_mem_take he)
  rw [List.length_take] at hfold
  omega

theorem length_evictOldestSkippedKeys (order : HashOrder (K × UInt32)) (m : SkippedKeyMap K)
    (targetSize : ℕ) : (evictOldestSkippedKeys order m targetSize).keys.length ≤ targetSize := by
  rw [length_evictOldestSkippedKeys_eq]
  exact min_le_left _ _

/-! ### The numbers of a chain -/

/-- The map keys of the numbers `a, …, b - 1` of the chain with header key `hk`. -/
def numberKeys (hk : K) (a b : ℕ) : Finset (K × UInt32) :=
  (Finset.Ico a b).image fun i => (hk, UInt32.ofNat i)

theorem mem_numberKeys {hk : K} {a b : ℕ} (hb : b ≤ 2 ^ 32) {k : K × UInt32} :
    k ∈ numberKeys hk a b ↔ k.1 = hk ∧ a ≤ k.2.toNat ∧ k.2.toNat < b := by
  simp only [numberKeys, Finset.mem_image, Finset.mem_Ico]
  constructor
  · rintro ⟨i, ⟨hai, hib⟩, rfl⟩
    have hsize : UInt32.size = 2 ^ 32 := rfl
    have hi : (UInt32.ofNat i).toNat = i := UInt32.toNat_ofNat_of_lt' (by omega)
    exact ⟨rfl, hai.trans_eq hi.symm, hi.trans_lt hib⟩
  · rintro ⟨h1, h2, h3⟩
    exact ⟨k.2.toNat, ⟨h2, h3⟩, Prod.ext h1.symm (by simp)⟩

/-- No turn of the skip loop over `a, …, b - 1` finds a map with the keys `keys`
full, so none evicts. -/
def NoEviction (keys : Finset (K × UInt32)) (hk : K) (a b : ℕ) : Prop :=
  ∀ i, a ≤ i → i < b → (keys ∪ numberKeys hk a i).card < maxSkippedKeys

theorem numberKeys_self (hk : K) (a : ℕ) : numberKeys hk a a = ∅ := by
  simp [numberKeys]

theorem insert_numberKeys {hk : K} {a b : ℕ} (h : a < b) :
    insert (hk, UInt32.ofNat a) (numberKeys hk (a + 1) b) = numberKeys hk a b := by
  have hIco : Finset.Ico a b = insert a (Finset.Ico (a + 1) b) := by
    ext i
    simp only [Finset.mem_insert, Finset.mem_Ico]
    omega
  rw [numberKeys, numberKeys, hIco, Finset.image_insert]

theorem NoEviction.step {keys : Finset (K × UInt32)} {hk : K} {a b : ℕ}
    (h : NoEviction keys hk a b) :
    NoEviction (insert (hk, UInt32.ofNat a) keys) hk (a + 1) b := by
  intro i hai hib
  rw [Finset.insert_union, ← Finset.union_insert, insert_numberKeys (by omega)]
  exact h i (by omega) hib

/-- The numbers `a, …, b - 1` of the chain with header key `hk` are stored one after
another.  Where there is no room for the next, half of the entries that may be held
are kept; which ones is left open. -/
inductive StoresKeys (hk : K) : ℕ → ℕ → Finset (K × UInt32) → Finset (K × UInt32) → Prop where
  | done (a : ℕ) (keys : Finset (K × UInt32)) : StoresKeys hk a a keys keys
  | room {a b : ℕ} {keys new : Finset (K × UInt32)} (hroom : keys.card < maxSkippedKeys)
      (hrest : StoresKeys hk (a + 1) b (insert (hk, UInt32.ofNat a) keys) new) :
      StoresKeys hk a b keys new
  | full {a b : ℕ} {keys kept new : Finset (K × UInt32)} (hfull : maxSkippedKeys ≤ keys.card)
      (hkept : kept ⊆ keys) (hcard : kept.card = maxSkippedKeys / 2)
      (hrest : StoresKeys hk (a + 1) b (insert (hk, UInt32.ofNat a) kept) new) :
      StoresKeys hk a b keys new

namespace StoresKeys

variable {hk : K} {a b : ℕ} {keys new : Finset (K × UInt32)}

theorem le (h : StoresKeys hk a b keys new) : a ≤ b := by
  induction h with
  | done => exact le_refl _
  | room _ _ ih => exact Nat.le_of_succ_le ih
  | full _ _ _ _ ih => exact Nat.le_of_succ_le ih

/-- Nothing else is stored. -/
theorem subset (h : StoresKeys hk a b keys new) : new ⊆ keys ∪ numberKeys hk a b := by
  induction h with
  | done a keys => exact Finset.subset_union_left
  | room _ hrest ih =>
    rwa [Finset.insert_union, ← Finset.union_insert, insert_numberKeys hrest.le] at ih
  | full _ hkept _ hrest ih =>
    rw [Finset.insert_union, ← Finset.union_insert, insert_numberKeys hrest.le] at ih
    exact ih.trans (Finset.union_subset_union_left hkept)

/-- With room for all numbers, all are stored and nothing is lost. -/
theorem eq_of_noEviction (h : StoresKeys hk a b keys new) (hroom : NoEviction keys hk a b) :
    new = keys ∪ numberKeys hk a b := by
  induction h with
  | done a keys => rw [numberKeys_self, Finset.union_empty]
  | room _ hrest ih =>
    rw [ih hroom.step, Finset.insert_union, ← Finset.union_insert, insert_numberKeys hrest.le]
  | full hfull _ _ hrest =>
    have hlt := hroom _ (le_refl _) hrest.le
    rw [numberKeys_self, Finset.union_empty] at hlt
    exact absurd hlt (not_lt.mpr hfull)

end StoresKeys

/-- `m'` is `m` after storing the numbers `a, …, b - 1` of the chain that has
the key `ck` at number `a` and the header key `hk`: every entry was there
before or holds the key of its number. -/
structure Stores (ck hk : K) (a b : ℕ) (m m' : SkippedKeyMap K) : Prop where
  sound : ∀ k v, m'.lookup k = some v → m.lookup k = some v ∨
    k.1 = hk ∧ a ≤ k.2.toNat ∧ k.2.toNat < b ∧ v.mk = messageKey P ck (k.2.toNat - a)
  keys : StoresKeys hk a b m.keys.toFinset m'.keys.toFinset

variable {P} in
theorem Stores.mem {ck hk : K} {a n : ℕ} {old new : SkippedKeyMap K}
    (h : Stores P ck hk a n old new) {k : K × UInt32} (hk' : k ∈ new) :
    k ∈ old ∨ k.1 = hk ∧ a ≤ k.2.toNat ∧ k.2.toNat < n := by
  obtain ⟨key, hkey⟩ := Option.isSome_iff_exists.mp (AList.lookup_isSome.mpr hk')
  rcases h.sound k key hkey with hold | ⟨h1, h2, h3, -⟩
  · exact .inl (AList.lookup_isSome.mp (hold ▸ rfl))
  · exact .inr ⟨h1, h2, h3⟩

theorem card_keys (m : SkippedKeyMap K) : m.keys.toFinset.card = m.keys.length :=
  List.toFinset_card_of_nodup m.keys_nodup

theorem keys_insert_toFinset (m : SkippedKeyMap K) (k : K × UInt32) (v : SkippedKey K) :
    (m.insert k v).keys.toFinset = insert k m.keys.toFinset := by
  ext x
  rw [List.mem_toFinset, ← AList.mem_keys, AList.mem_insert, Finset.mem_insert,
    List.mem_toFinset, ← AList.mem_keys]

theorem keys_evictOldestSkippedKeys_subset (order : HashOrder (K × UInt32)) (m : SkippedKeyMap K)
    (target : ℕ) :
    (evictOldestSkippedKeys order m target).keys.toFinset ⊆ m.keys.toFinset := by
  intro k hk
  rw [List.mem_toFinset, ← AList.mem_keys] at hk ⊢
  obtain ⟨v, hv⟩ := Option.isSome_iff_exists.mp (AList.lookup_isSome.mpr hk)
  exact AList.lookup_isSome.mp (lookup_evictOldestSkippedKeys hv ▸ rfl)

/-- One turn of the skip loop, on the keys of the map. -/
theorem StoresKeys.turn {order : HashOrder (K × UInt32)} {hk : K} {a b : ℕ}
    {m m₁ : SkippedKeyMap K} {new : Finset (K × UInt32)}
    (hm₁ : m₁ = if maxSkippedKeys ≤ m.keys.length then
      evictOldestSkippedKeys order m (maxSkippedKeys / 2) else m)
    (hrest : StoresKeys hk (a + 1) b (insert (hk, UInt32.ofNat a) m₁.keys.toFinset) new) :
    StoresKeys hk a b m.keys.toFinset new := by
  split at hm₁
  case isTrue hfull =>
    have hkept : m₁.keys.toFinset.card = maxSkippedKeys / 2 := by
      rw [hm₁, card_keys, length_evictOldestSkippedKeys_eq]
      exact min_eq_left ((Nat.div_le_self _ _).trans hfull)
    have hsub : m₁.keys.toFinset ⊆ m.keys.toFinset := by
      rw [hm₁]
      exact keys_evictOldestSkippedKeys_subset order m _
    rw [← card_keys] at hfull
    exact .full hfull hsub hkept hrest
  case isFalse hroom =>
    rw [hm₁] at hrest
    rw [← card_keys, not_le] at hroom
    exact .room hroom hrest

theorem skipLoop_spec (order : HashOrder (K × UInt32)) (hk : K) (toN : UInt32) :
    ∀ (fuel : ℕ) (clock : ℕ → SystemTime) (m : SkippedKeyMap K) (ck : K) (current : UInt32),
      current.toNat + fuel = toN.toNat →
      ∃ m', skipLoop P order hk toN fuel clock m ck current = .ok m' ∧
        Stores P ck hk current.toNat toN.toNat m m' := by
  intro fuel
  induction fuel with
  | zero =>
    intro clock m ck current hc
    refine ⟨m, rfl, fun k v h => .inl h, ?_⟩
    rw [show current.toNat = toN.toNat by omega]
    exact .done _ _
  | succ fuel ih =>
    intro clock m ck current hc
    have htoN := toN.toNat_lt
    have hlt : current < toN := UInt32.lt_iff_toNat_lt.mpr (by omega)
    obtain ⟨next, hnext, hnextN⟩ := checkedAdd32_one_of_lt (x := current) (by omega)
    -- the map after the optional eviction, which only removes entries
    obtain ⟨m₁, hm₁⟩ : ∃ m₁, m₁ = if maxSkippedKeys ≤ m.keys.length then
        evictOldestSkippedKeys order m (maxSkippedKeys / 2) else m := ⟨_, rfl⟩
    have hsub : ∀ k v, m₁.lookup k = some v → m.lookup k = some v := by
      intro k v h
      rw [hm₁] at h
      split at h
      · exact lookup_evictOldestSkippedKeys h
      · exact h
    obtain ⟨m', hm', hsound, hkeys⟩ := ih (fun i => clock (i + 1))
      (m₁.insert (hk, current) ⟨(kdfCk P ck).2, clock 0⟩) (kdfCk P ck).1 next (by omega)
    refine ⟨m', ?_, ?_, ?_⟩
    · rw [skipLoop, if_pos hlt, ← hm₁]
      simp only [hnext, Outcome.okOr_some, Outcome.ok_bind]
      exact hm'
    · intro k v h
      rcases hsound k v h with h₁ | ⟨hhk, h₁, h₂, hv⟩
      · by_cases hk' : k = (hk, current)
        · subst hk'
          rw [AList.lookup_insert, Option.some_inj] at h₁
          subst h₁
          exact .inr ⟨rfl, le_refl _, by dsimp only; omega, by simp [messageKey_zero]⟩
        · rw [AList.lookup_insert_ne hk'] at h₁
          exact .inl (hsub k v h₁)
      · refine .inr ⟨hhk, by omega, h₂, ?_⟩
        rw [hv, show k.2.toNat - current.toNat = (k.2.toNat - next.toNat) + 1 by omega,
          messageKey_succ]
    · rw [keys_insert_toFinset, hnextN] at hkeys
      refine StoresKeys.turn hm₁ ?_
      rwa [UInt32.ofNat_toNat]

/-- Within the skip limit, `skipMessageKeys` returns and stores the numbers
`fromN, …, toN - 1`. -/
theorem skipMessageKeys_spec (order : HashOrder (K × UInt32)) (clock : ℕ → SystemTime)
    (m : SkippedKeyMap K) (ck hk : K) {fromN toN : UInt32} (h : fromN.toNat ≤ toN.toNat)
    (hlimit : toN.toNat ≤ fromN.toNat + maxSkip.toNat) :
    ∃ m', skipMessageKeys P order clock m ck hk fromN toN = .ok m' ∧
      Stores P ck hk fromN.toNat toN.toNat m m' := by
  have hlt : ¬ toN < fromN := by
    rw [UInt32.lt_iff_toNat_lt]
    omega
  rw [skipMessageKeys, if_neg hlt]
  dsimp only
  rw [if_neg (by omega)]
  exact skipLoop_spec P order hk toN _ clock m ck fromN (by omega)

theorem skipMessageKeys_of_lt (order : HashOrder (K × UInt32)) (clock : ℕ → SystemTime)
    (m : SkippedKeyMap K) (ck hk : K) {fromN toN : UInt32} (h : toN.toNat < fromN.toNat) :
    skipMessageKeys P order clock m ck hk fromN toN = .err .invalidHeader :=
  if_pos (UInt32.lt_iff_toNat_lt.mpr h)

theorem skipMessageKeys_of_limit (order : HashOrder (K × UInt32)) (clock : ℕ → SystemTime)
    (m : SkippedKeyMap K) (ck hk : K) {fromN toN : UInt32}
    (h : fromN.toNat + maxSkip.toNat < toN.toNat) :
    skipMessageKeys P order clock m ck hk fromN toN = .err .oldMessageKeysLimitReached := by
  have hlt : ¬ toN < fromN := by
    rw [UInt32.lt_iff_toNat_lt]
    omega
  rw [skipMessageKeys, if_neg hlt]
  dsimp only
  rw [if_pos (by omega)]

/-- The skip loop never aborts. -/
theorem skipMessageKeys_returns (order : HashOrder (K × UInt32)) (clock : ℕ → SystemTime)
    (m : SkippedKeyMap K) (ck hk : K) (fromN toN : UInt32) :
    (skipMessageKeys P order clock m ck hk fromN toN).Returns := by
  by_cases hlt : toN.toNat < fromN.toNat
  · rw [skipMessageKeys_of_lt P order clock m ck hk hlt]
    simp
  · by_cases hlimit : fromN.toNat + maxSkip.toNat < toN.toNat
    · rw [skipMessageKeys_of_limit P order clock m ck hk hlimit]
      simp
    · obtain ⟨m', hm', -⟩ := skipMessageKeys_spec P order clock m ck hk
        (not_lt.mp hlt) (not_lt.mp hlimit)
      simp [hm']

/-! ### The search -/

/-- The entry `k ↦ v` opens the message, to `p`. -/
def Opens (k : K × UInt32) (v : SkippedKey K) (encHeader ciphertext ad p : Bytes) : Prop :=
  ∃ header, decryptHeaderWithKey P k.1 encHeader = .ok header ∧ header.n = k.2 ∧
    decryptAead P v.mk ciphertext ad = .ok p

theorem tryCandidates_cases (m : SkippedKeyMap K) (encHeader ciphertext ad : Bytes)
    (l : List (K × UInt32)) :
    (tryCandidates P m encHeader ciphertext ad l = .ok (m, none) ∧
      ∀ k ∈ l, ∀ v p, m.lookup k = some v → ¬ Opens P k v encHeader ciphertext ad p) ∨
    ∃ k v p, m.lookup k = some v ∧ Opens P k v encHeader ciphertext ad p ∧
      tryCandidates P m encHeader ciphertext ad l = .ok (m.erase k, some p) := by
  induction l with
  | nil => exact .inl ⟨rfl, by simp⟩
  | cons k rest ih =>
    obtain ⟨hk, n⟩ := k
    -- the candidate at the head does not open the message: the search goes on
    have hskip : (∀ v p, m.lookup (hk, n) = some v →
          ¬ Opens P (hk, n) v encHeader ciphertext ad p) →
        tryCandidates P m encHeader ciphertext ad ((hk, n) :: rest)
          = tryCandidates P m encHeader ciphertext ad rest →
        (tryCandidates P m encHeader ciphertext ad ((hk, n) :: rest) = .ok (m, none) ∧
          ∀ k ∈ (hk, n) :: rest, ∀ v p, m.lookup k = some v →
            ¬ Opens P k v encHeader ciphertext ad p) ∨
        ∃ k v p, m.lookup k = some v ∧ Opens P k v encHeader ciphertext ad p ∧
          tryCandidates P m encHeader ciphertext ad ((hk, n) :: rest)
            = .ok (m.erase k, some p) := by
      intro hno heq
      rw [heq]
      rcases ih with ⟨hres, hrest⟩ | h
      · refine .inl ⟨hres, fun k hkm => ?_⟩
        rcases List.mem_cons.mp hkm with rfl | hkm
        · exact hno
        · exact hrest k hkm
      · exact .inr h
    cases hlook : m.lookup (hk, n) with
    | none =>
      refine hskip (fun v p h => ?_) (by simp only [tryCandidates, hlook])
      rw [hlook] at h
      cases h
    | some v =>
      cases hhdr : decryptHeaderWithKey P hk encHeader with
      | panic => exact absurd hhdr (decryptHeaderWithKey_returns P hk encHeader)
      | err e =>
        refine hskip ?_ (by simp only [tryCandidates, hlook, hhdr])
        rintro v' p - ⟨header, h, -⟩
        rw [hhdr] at h
        cases h
      | ok header =>
        by_cases hn : n = header.n
        · cases haead : decryptAead P v.mk ciphertext ad with
          | panic => exact absurd haead (decryptAead_returns P v.mk ciphertext ad)
          | err e =>
            refine hskip ?_ (by simp only [tryCandidates, hlook, hhdr, if_pos hn, haead])
            rintro v' p hv' ⟨header', -, -, h⟩
            rw [hlook, Option.some_inj] at hv'
            rw [← hv', haead] at h
            cases h
          | ok p =>
            exact .inr ⟨(hk, n), v, p, hlook, ⟨header, hhdr, hn.symm, haead⟩,
              by simp only [tryCandidates, hlook, hhdr, if_pos hn, haead]⟩
        · refine hskip ?_ (by simp only [tryCandidates, hlook, hhdr, if_neg hn])
          rintro v' p - ⟨header', h, hn', -⟩
          rw [hhdr] at h
          cases h
          exact hn hn'.symm

/-- The search never fails: either no entry opens the message and the map is
returned as it was, or one that does is removed. -/
theorem trySkippedMessageKeys_cases (order : HashOrder (K × UInt32)) (m : SkippedKeyMap K)
    (encHeader ciphertext ad : Bytes) :
    (trySkippedMessageKeys P order m encHeader ciphertext ad = .ok (m, none) ∧
      ∀ k v p, m.lookup k = some v → ¬ Opens P k v encHeader ciphertext ad p) ∨
    ∃ k v p, m.lookup k = some v ∧ Opens P k v encHeader ciphertext ad p ∧
      trySkippedMessageKeys P order m encHeader ciphertext ad
        = .ok (m.erase k, some p) := by
  rcases tryCandidates_cases P m encHeader ciphertext ad (order.order m.keys) with
    ⟨hres, hno⟩ | h
  · refine .inl ⟨hres, fun k v p hk => hno k ?_ v p hk⟩
    rw [(order.perm _).mem_iff, ← AList.mem_keys, ← AList.lookup_isSome, hk]
    rfl
  · exact .inr h

end Ratchet
