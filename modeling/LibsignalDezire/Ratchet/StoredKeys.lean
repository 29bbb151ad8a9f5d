/-
What the skip loop leaves under each key of the map.

* `lookup_skipTurns` — while the map has room, the loop stores under every number
  of its range the key of that number, and leaves all other entries alone;
* `stored_key_eq_computed` — **the key stored for later is the key used
  directly**: the entry of a skipped number holds what `compute_message_key`
  derives for that number before the skip.
-/
import LibsignalDezire.Ratchet.Counters

namespace Ratchet

variable {K : Type} [DecidableEq K] (P : Primitives K)

/-- A turn of the skip loop that finds room only inserts. -/
theorem skipTurn_of_room {order : HashOrder (K × UInt32)} {hk : K} {time : ℕ → SystemTime}
    {m : SkippedKeyMap K} {ck : K} {i : ℕ} (h : m.keys.length < maxSkippedKeys) :
    skipTurn P order hk time (m, ck) i
      = (m.insert (hk, UInt32.ofNat i) ⟨(kdfCk P ck).2, time i⟩, (kdfCk P ck).1) := by
  rw [skipTurn]
  dsimp only
  rw [if_neg (by omega)]

/-- The skip loop over `a, …, a + n - 1`, entry by entry. -/
theorem lookup_skipTurns (order : HashOrder (K × UInt32)) (hk : K) (time : ℕ → SystemTime)
    {n : ℕ} : ∀ {a : ℕ} {m : SkippedKeyMap K} (ck : K), a + n ≤ 2 ^ 32 →
      NoEviction m.keys.toFinset hk a (a + n) → ∀ k : K × UInt32,
      ((List.range' a n).foldl (skipTurn P order hk time) (m, ck)).1.lookup k =
        if k.1 = hk ∧ a ≤ k.2.toNat ∧ k.2.toNat < a + n then
          some ⟨messageKey P ck (k.2.toNat - a), time k.2.toNat⟩
        else m.lookup k := by
  induction n with
  | zero =>
    intro a m ck _ _ k
    rw [if_neg (by omega)]
    rfl
  | succ n ih =>
    intro a m ck hsize hroom k
    have hlen : m.keys.length < maxSkippedKeys := by
      have := hroom a (le_refl _) (by omega)
      rwa [numberKeys_self, Finset.union_empty, card_keys] at this
    have hafter : NoEviction
        (m.insert (hk, UInt32.ofNat a) ⟨(kdfCk P ck).2, time a⟩).keys.toFinset hk (a + 1)
        (a + 1 + n) := by
      rw [keys_insert_toFinset, show a + 1 + n = a + (n + 1) by omega]
      exact hroom.step
    have hnum : (UInt32.ofNat a).toNat = a :=
      UInt32.toNat_ofNat_of_lt' (show a < 2 ^ 32 by omega)
    rw [List.range'_succ, List.foldl_cons, skipTurn_of_room P hlen,
      ih _ (by omega) hafter k]
    by_cases hka : k = (hk, UInt32.ofNat a)
    -- the entry of this turn, which no later turn touches
    · subst hka
      rw [if_neg (by dsimp only; omega),
        if_pos ⟨rfl, by dsimp only; omega, by dsimp only; omega⟩,
        AList.lookup_insert]
      dsimp only
      rw [hnum, Nat.sub_self, messageKey_zero]
    · rw [AList.lookup_insert_ne hka]
      by_cases hrest : k.1 = hk ∧ a + 1 ≤ k.2.toNat ∧ k.2.toNat < a + 1 + n
      · rw [if_pos hrest, if_pos ⟨hrest.1, by omega, by omega⟩,
          show k.2.toNat - a = (k.2.toNat - (a + 1)) + 1 by omega, messageKey_succ]
      · rw [if_neg hrest, if_neg ?_]
        rintro ⟨h1, h2, h3⟩
        refine hka (Prod.ext h1 (UInt32.toNat_inj.mp ?_))
        dsimp only
        rw [hnum]
        by_contra hne
        exact hrest ⟨h1, by omega, by omega⟩

/-- **The key stored for later is the key used directly.**  For every chain key,
header key and range within the skip limit, in a map that never fills up: each
number of the range is stored, under the key that `computeMessageKey` derives for
it in any state with that chain key and starting number, and everything else is
left as it was. -/
theorem stored_key_eq_computed (order : HashOrder (K × UInt32)) (clock : ℕ → SystemTime)
    (mkskipped : SkippedKeyMap K) (ck hk : K) {nr toN : UInt32} (hle : nr ≤ toN)
    (hlimit : toN.toNat ≤ nr.toNat + maxSkip.toNat) (hfits : nr.toNat + maxSkip.toNat < 2 ^ 32)
    (hroom : NoEviction mkskipped.keys.toFinset hk nr.toNat toN.toNat) :
    ∃ m', skipMessageKeys P order clock mkskipped ck hk nr toN = .ok m' ∧
      (∀ i, nr ≤ i → i < toN → ∃ skippedKey, m'.lookup (hk, i) = some skippedKey ∧
        ∀ (b : Build) (st : RatchetState K) (header : RatchetHeader), st.ckR = some ck →
          st.nr = nr → header.n = i →
          computeMessageKey P b st header false = .ok skippedKey.mk) ∧
      ∀ k : K × UInt32, k.1 ≠ hk ∨ k.2 < nr ∨ toN ≤ k.2 →
        m'.lookup k = mkskipped.lookup k := by
  have hleN : nr.toNat ≤ toN.toNat := UInt32.le_iff_toNat_le.mp hle
  have htoN := toN.toNat_lt
  have hsum : nr.toNat + (toN.toNat - nr.toNat) = toN.toNat := Nat.add_sub_cancel' hleN
  have hlookup := lookup_skipTurns P order hk (fun i => clock (i - nr.toNat))
    (n := toN.toNat - nr.toNat) (a := nr.toNat) (m := mkskipped) ck (by omega) (by rwa [hsum])
  rw [hsum] at hlookup
  have hskip := skipMessageKeys_eq P order clock mkskipped ck hk nr toN
  rw [exactSkip, if_neg (by omega), if_neg (by omega)] at hskip
  refine ⟨_, hskip, fun i hi1 hi2 => ?_, fun k hk' => ?_⟩
  · rw [UInt32.le_iff_toNat_le] at hi1
    rw [UInt32.lt_iff_toNat_lt] at hi2
    refine ⟨_, (hlookup (hk, i)).trans (if_pos ⟨rfl, hi1, hi2⟩),
      fun b st header hck hnr hn => ?_⟩
    rw [computeMessageKey_of_le P (recvChain_false P st header ▸ hck)
      (by rwa [recvNumber_false, hnr]) (by rw [recvNumber_false, hnr, hn]; omega),
      recvNumber_false, hnr, hn]
  · refine (hlookup k).trans (if_neg ?_)
    rintro ⟨h1, h2, h3⟩
    rcases hk' with h | h | h
    · exact h h1
    · rw [UInt32.lt_iff_toNat_lt] at h
      omega
    · rw [UInt32.le_iff_toNat_le] at h
      omega

open Symbolic in
/-- The responder's chain asked to skip from number 1 to number 3. -/
theorem stored_key_eq_computed_of_two :
    ∃ m', skipMessageKeys primitives (Symbolic.env 3).hashOrder ((Symbolic.env 3).clock 0) ∅
        .secret .secret 1 3 = .ok m' ∧
      (∀ i : UInt32, 1 ≤ i → i < 3 → ∃ skippedKey, m'.lookup (Key.secret, i) = some skippedKey ∧
        ∀ (b : Build) (st : RatchetState Key) (header : RatchetHeader), st.ckR = some .secret →
          st.nr = 1 → header.n = i →
          computeMessageKey primitives b st header false = .ok skippedKey.mk) ∧
      ∀ k : Key × UInt32, k.1 ≠ .secret ∨ k.2 < 1 ∨ 3 ≤ k.2 →
        m'.lookup k = AList.lookup k (∅ : SkippedKeyMap Key) := by
  have hroom : NoEviction (∅ : SkippedKeyMap Key).keys.toFinset .secret
      (1 : UInt32).toNat (3 : UInt32).toNat := by
    intro i h1 h3
    have hcard : (numberKeys Key.secret (1 : UInt32).toNat i).card ≤ i - (1 : UInt32).toNat :=
      Finset.card_image_le.trans_eq (Nat.card_Ico _ _)
    have hmax : maxSkippedKeys = 2000 := rfl
    have h3N : (3 : UInt32).toNat = 3 := rfl
    simp only [AList.keys_empty, List.toFinset_nil, Finset.empty_union]
    omega
  exact stored_key_eq_computed primitives _ _ ∅ .secret .secret (by decide) (by decide)
    (by decide) hroom

end Ratchet
