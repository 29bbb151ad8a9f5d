/-
The search through the skipped keys, in whatever order the map is enumerated.

The loop stops at the first entry that opens the message.  When an encrypted
header opens under one header key of the map at most, one entry at most carries
that key and the number in the header, so there is nothing to choose.

* `trySkippedMessageKeys_order` — all orders give the same result;
* `search_touches_only_match` — **the search removes its match and nothing else**,
  and a `decrypt` it answers changes nothing but the map.
-/
import LibsignalDezire.Ratchet.Atomic

namespace Ratchet

variable {K : Type} [DecidableEq K] (P : Primitives K)

/-- Of the header keys in the map one at most opens the encrypted header. -/
def OneHeaderKey (m : SkippedKeyMap K) (encHeader : Bytes) : Prop :=
  ∀ k ∈ m, ∀ k' ∈ m, (decryptHeaderWithKey P k.1 encHeader).isOk →
    (decryptHeaderWithKey P k'.1 encHeader).isOk → k.1 = k'.1

/-- The header key of the entry opens the encrypted header, and the entry has the
number found in it. -/
def Matches (encHeader : Bytes) (k : K × UInt32) : Prop :=
  ∃ header, decryptHeaderWithKey P k.1 encHeader = .ok header ∧ header.n = k.2

variable {P} {m : SkippedKeyMap K} {encHeader ciphertext ad : Bytes}

omit [DecidableEq K] in
theorem Opens.matches {k : K × UInt32} {v : SkippedKey K} {p : Bytes}
    (h : Opens P k v encHeader ciphertext ad p) : Matches P encHeader k := by
  obtain ⟨header, hhdr, hn, -⟩ := h
  exact ⟨header, hhdr, hn⟩

omit [DecidableEq K] in
/-- One entry at most matches. -/
theorem OneHeaderKey.matches_unique (h : OneHeaderKey P m encHeader) {k k' : K × UInt32}
    (hk : k ∈ m) (hk' : k' ∈ m) (hm : Matches P encHeader k) (hm' : Matches P encHeader k') :
    k = k' := by
  obtain ⟨header, hhdr, hn⟩ := hm
  obtain ⟨header', hhdr', hn'⟩ := hm'
  have hkey : k.1 = k'.1 := by
    refine h k hk k' hk' ?_ ?_
    · rw [hhdr]
      rfl
    · rw [hhdr']
      rfl
  have hheader : header = header' := by
    rw [hkey, hhdr'] at hhdr
    cases hhdr
    rfl
  exact Prod.ext hkey (by rw [← hn, ← hn', hheader])

/-- **The order of the map does not matter.** -/
theorem trySkippedMessageKeys_order (h : OneHeaderKey P m encHeader)
    (order order' : HashOrder (K × UInt32)) :
    trySkippedMessageKeys P order m encHeader ciphertext ad
      = trySkippedMessageKeys P order' m encHeader ciphertext ad := by
  rcases trySkippedMessageKeys_cases P order m encHeader ciphertext ad with
    ⟨hres, hno⟩ | ⟨k, v, p, hk, hopens, hres⟩
  · rcases trySkippedMessageKeys_cases P order' m encHeader ciphertext ad with
      ⟨hres', -⟩ | ⟨k', v', p', hk', hopens', -⟩
    · rw [hres, hres']
    · exact absurd hopens' (hno k' v' p' hk')
  · rcases trySkippedMessageKeys_cases P order' m encHeader ciphertext ad with
      ⟨-, hno'⟩ | ⟨k', v', p', hk', hopens', hres'⟩
    · exact absurd hopens (hno' k v p hk)
    -- both orders stop at the same entry
    · obtain rfl : k = k' := h.matches_unique (AList.lookup_isSome.mp (hk ▸ rfl))
        (AList.lookup_isSome.mp (hk' ▸ rfl)) hopens.matches hopens'.matches
      obtain rfl : v = v' := Option.some_inj.mp (hk.symm.trans hk')
      obtain ⟨-, -, -, hp⟩ := hopens
      obtain ⟨-, -, -, hp'⟩ := hopens'
      rw [hp] at hp'
      cases hp'
      rw [hres, hres']

/-- **The search does not depend on the order of the map and touches only its
match.**  For every map, encrypted header, ciphertext and associated data there
is one result for all orders.  If it is a plaintext, the entry that matches the
header is removed and no other; if not, the map is returned as it was.  A
`decrypt` answered this way changes no other field. -/
theorem search_touches_only_match (m : SkippedKeyMap K) (encHeader ciphertext ad : Bytes)
    (h : OneHeaderKey P m encHeader) :
    ∃ m' result,
      (∀ order, trySkippedMessageKeys P order m encHeader ciphertext ad = .ok (m', result)) ∧
      (result = none → m' = m) ∧
      ∀ p, result = some p →
        (∃ k ∈ m, Matches P encHeader k ∧ (∀ k' ∈ m, Matches P encHeader k' → k' = k) ∧
          k ∉ m' ∧ ∀ k' ≠ k, m'.lookup k' = m.lookup k') ∧
        ∀ (b : Build) (env : CallEnv K) (st : RatchetState K) (associatedData : Bytes),
          st.mkskipped = m → associatedData.length ≤ maxAdSize →
          concatAd associatedData encHeader = ad →
          decrypt P b env encHeader ciphertext associatedData st
            = (.ok p, { st with mkskipped := m' }) := by
  rcases trySkippedMessageKeys_cases P ⟨id, fun _ => .refl _⟩ m encHeader ciphertext ad with
    ⟨hres, -⟩ | ⟨k, v, p, hk, hopens, hres⟩
  · refine ⟨m, none, fun order => ?_, fun _ => rfl, fun p hp => ?_⟩
    · rw [trySkippedMessageKeys_order h order, hres]
    · cases hp
  · have hmem : k ∈ m := AList.lookup_isSome.mp (hk ▸ rfl)
    have hall : ∀ order, trySkippedMessageKeys P order m encHeader ciphertext ad
        = .ok (m.erase k, some p) := by
      intro order
      rw [trySkippedMessageKeys_order h order, hres]
    refine ⟨m.erase k, some p, hall, fun hnone => ?_, fun p' hp' => ⟨?_, ?_⟩⟩
    · cases hnone
    · exact ⟨k, hmem, hopens.matches,
        fun k' hk' hm' => h.matches_unique hk' hmem hm' hopens.matches,
        fun hk' => (AList.mem_erase.mp hk').1 rfl, fun k' hne => AList.lookup_erase_ne hne⟩
    · rintro b env st associatedData rfl had rfl
      cases hp'
      simp [decrypt, Exec.bind_apply, not_lt.mpr had, hall]

open Symbolic in
/-- The message that the responder has stored a key for. -/
theorem search_touches_only_match_after_gap :
    ∃ m' result,
      (∀ order, trySkippedMessageKeys primitives order receiverAfterGap.mkskipped
        (miscounted 0 0).1 (miscounted 0 0).2 (concatAd [] (miscounted 0 0).1)
          = .ok (m', result)) ∧
      (result = none → m' = receiverAfterGap.mkskipped) ∧
      ∀ p, result = some p →
        (∃ k ∈ receiverAfterGap.mkskipped, Matches primitives (miscounted 0 0).1 k ∧
          (∀ k' ∈ receiverAfterGap.mkskipped,
            Matches primitives (miscounted 0 0).1 k' → k' = k) ∧
          k ∉ m' ∧ ∀ k' ≠ k, m'.lookup k' = receiverAfterGap.mkskipped.lookup k') ∧
        ∀ (b : Build) (env : CallEnv Key) (st : RatchetState Key) (associatedData : Bytes),
          st.mkskipped = receiverAfterGap.mkskipped → associatedData.length ≤ maxAdSize →
          concatAd associatedData (miscounted 0 0).1 = concatAd [] (miscounted 0 0).1 →
          decrypt primitives b env (miscounted 0 0).1 (miscounted 0 0).2 associatedData st
            = (.ok p, { st with mkskipped := m' }) := by
  have hone : ∀ k ∈ receiverAfterGap.mkskipped.keys, ∀ k' ∈ receiverAfterGap.mkskipped.keys,
      k.1 = k'.1 := by
    decide +kernel
  refine search_touches_only_match _ _ _ _ fun k hk k' hk' _ _ => ?_
  exact hone k (AList.mem_keys.mp hk) k' (AList.mem_keys.mp hk')

end Ratchet
