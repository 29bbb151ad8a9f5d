/-
Forward secrecy of used message keys, and where it ends.

The adversary holds every key of a state, its DH private key included, and
applies the key derivation functions and Diffie-Hellman with any public key.
A message key is out of reach when the state has moved past every term it
descends from.

* `guarded_of_rule` — the ancestors of a message key form a guarded set;
* `forward_secrecy` — in a run without gaps no key of a message a party has
  encrypted or decrypted is stored or derivable;
* `used_key_derivable` — after a gap one is.
-/
import LibsignalDezire.Lib.Derivation
import LibsignalDezire.Session.InOrder

namespace Ratchet

variable {K : Type} [DecidableEq K]

/-! ### What a state gives away -/

/-- The symmetric keys of a state. -/
def RatchetState.keys (st : RatchetState K) : List K :=
  st.rk :: st.nhkS :: st.nhkR :: (st.ckS.toList ++ st.ckR.toList ++ st.hkS.toList ++
    st.hkR.toList ++ st.mkskipped.keys.map Prod.fst ++
    st.mkskipped.keys.filterMap fun k => (st.mkskipped.lookup k).map SkippedKey.mk)

/-- One application of KDF_CK or KDF_RK_HE, or a Diffie-Hellman of the private key
`secret` with some public key. -/
inductive KdfRule (P : Primitives K) (secret : DhPrivateKey) : List K → K → Prop where
  | chainKey (ck : K) : KdfRule P secret [ck] (kdfCk P ck).1
  | messageKey (ck : K) : KdfRule P secret [ck] (kdfCk P ck).2
  | rootKey {rk dh rk' ck' nhk' : K} (h : kdfRkHe P rk dh = .ok (rk', ck', nhk')) :
      KdfRule P secret [rk, dh] rk'
  | rootChainKey {rk dh rk' ck' nhk' : K} (h : kdfRkHe P rk dh = .ok (rk', ck', nhk')) :
      KdfRule P secret [rk, dh] ck'
  | rootHeaderKey {rk dh rk' ck' nhk' : K} (h : kdfRkHe P rk dh = .ok (rk', ck', nhk')) :
      KdfRule P secret [rk, dh] nhk'
  | diffieHellman (pub : DhPublicKey) : KdfRule P secret [] (P.x25519DiffieHellman secret pub)

/-- The keys that can be computed from a state. -/
def DerivableFrom (P : Primitives K) (st : RatchetState K) : K → Prop :=
  Derivable (KdfRule P st.dhPair.1) (· ∈ st.keys)

variable {P : Primitives K} {S : Schedule P} {b : Build} {s : Session K} {v : ℕ}
  {st : RatchetState K} {j n : ℕ}

theorem RatchetState.mem_keys_of_ckR {ck : K} (h : st.ckR = some ck) : ck ∈ st.keys := by
  simp [RatchetState.keys, h]

/-- The keys of a state with view `v`, by their place in the schedule. -/
inductive ScheduleKey (S : Schedule P) (v : ℕ) (st : RatchetState K) : K → Prop where
  | rootKey : ScheduleKey S v st (S.rootKey v)
  | headerKey {i : ℕ} (h : i ≤ v + 1) : ScheduleKey S v st (S.headerKey i)
  | sending {w x : ℕ} (hv : v = w + 1) (hle : st.ns.toNat ≤ x) :
      ScheduleKey S v st (S.chainKey w x)
  | receiving {w : ℕ} (hv : v = w + 2) : ScheduleKey S v st (S.chainKey w st.nr.toNat)
  | skipped {k : K × UInt32} {key : SkippedKey K} {i : ℕ}
      (hk : st.mkskipped.lookup k = some key) (hi : k.1 = S.headerKey i) :
      ScheduleKey S v st (S.msgKey i k.2.toNat)

theorem Synced.mem_keys (h : Synced S v st) {key : K} (hkey : key ∈ st.keys) :
    ScheduleKey S v st key := by
  simp only [RatchetState.keys, List.mem_cons, List.mem_append, Option.mem_toList, List.mem_map,
    List.mem_filterMap, Option.map_eq_some_iff] at hkey
  rcases hkey with hk | hk | hk | ((((hk | hk) | hk) | hk) | ⟨k, hk, rfl⟩) |
    ⟨k, -, key', hk, rfl⟩
  · rw [hk, h.rk]
    exact .rootKey
  · rw [hk, h.nhkS]
    exact .headerKey (le_refl _)
  · rw [hk, h.nhkR]
    exact .headerKey (Nat.le_succ v)
  · obtain ⟨x, hx, hle, -⟩ := h.ckS
    obtain ⟨w, hv, rfl⟩ := S.sendChainKey_eq_some.mp (hx.symm.trans hk)
    exact .sending hv hle
  · obtain ⟨w, hv, rfl⟩ := S.recvChainKey_eq_some.mp (h.ckR.symm.trans hk)
    exact .receiving hv
  · obtain ⟨w, hv, rfl⟩ := S.sendHeaderKey_eq_some.mp (h.hkS.symm.trans hk)
    exact .headerKey (by omega)
  · obtain ⟨w, hv, rfl⟩ := S.recvHeaderKey_eq_some.mp (h.hkR.symm.trans hk)
    exact .headerKey (by omega)
  · obtain ⟨key', hk'⟩ := Option.isSome_iff_exists.mp
      (AList.lookup_isSome.mpr (AList.mem_keys.mpr hk))
    obtain ⟨i, hi, -, heq, -⟩ := h.skipped k key' hk'
    rw [heq]
    exact .headerKey (by omega)
  · obtain ⟨i, -, -, hi, hmk⟩ := h.skipped k key' hk
    rw [hmk]
    exact .skipped hk hi

/-! ### The ancestors of a message key -/

/-- The terms from which the key of message `n` of chain `j` can be computed. -/
inductive Ancestor (S : Schedule P) (j n : ℕ) : K → Prop where
  | msgKey : Ancestor S j n (S.msgKey j n)
  | chainKey {i : ℕ} (h : i ≤ n) : Ancestor S j n (S.chainKey j i)
  | rootKey {i : ℕ} (h : i ≤ j) : Ancestor S j n (S.rootKey i)

section Ancestors

variable (hS : CollisionFree P S.sk)

include hS

omit [DecidableEq K] in
/-- An ancestor that is an HMAC output is one of KDF_CK, applied to an ancestor. -/
theorem Ancestor.of_hmac {ck : K} {label : Bytes} (h : Ancestor S j n (P.hmacSha256 ck label)) :
    Ancestor S j n ck := by
  generalize hkey : P.hmacSha256 ck label = key at h
  cases h with
  | msgKey =>
    rw [(hS.hmac_inj hkey).1]
    exact .chainKey (le_refl n)
  | @chainKey i hi =>
    cases i with
    | zero => exact absurd hkey (hS.hmac_ne_hkdf512 _ _ _ _ _ _)
    | succ i =>
      rw [S.chainKey_succ] at hkey
      rw [(hS.hmac_inj hkey).1]
      exact .chainKey (by omega)
  | @rootKey i hi =>
    cases i with
    | zero => exact absurd hkey.symm (hS.secret_ne_hmac _ _)
    | succ i => exact absurd hkey (hS.hmac_ne_hkdf512 _ _ _ _ _ _)

omit [DecidableEq K] in
/-- An ancestor that is an output of KDF_RK_HE comes from a root key among the
ancestors; header keys are not among them. -/
theorem Ancestor.of_hkdf512 {rk dh : K} {info : Bytes} {t : ℕ}
    (h : Ancestor S j n (P.hkdfSha512 rk dh info t)) : Ancestor S j n rk ∧ t ≠ 2 := by
  generalize hkey : P.hkdfSha512 rk dh info t = key at h
  cases h with
  | msgKey => exact absurd hkey.symm (hS.hmac_ne_hkdf512 _ _ _ _ _ _)
  | @chainKey i hi =>
    cases i with
    | zero =>
      obtain ⟨hrk, -, -, ht⟩ := hS.hkdf512_inj hkey
      rw [hrk]
      exact ⟨.rootKey (le_refl j), by omega⟩
    | succ i =>
      rw [S.chainKey_succ] at hkey
      exact absurd hkey.symm (hS.hmac_ne_hkdf512 _ _ _ _ _ _)
  | @rootKey i hi =>
    cases i with
    | zero => exact absurd hkey.symm (hS.secret_ne_hkdf512 _ _ _ _)
    | succ i =>
      obtain ⟨hrk, -, -, ht⟩ := hS.hkdf512_inj hkey
      rw [hrk]
      exact ⟨.rootKey (by omega), by omega⟩

omit [DecidableEq K] in
theorem not_ancestor_dh (a : DhPrivateKey) (p : DhPublicKey) :
    ¬ Ancestor S j n (P.x25519DiffieHellman a p) := by
  intro h
  generalize hkey : P.x25519DiffieHellman a p = key at h
  cases h with
  | msgKey => exact hS.dh_ne_hmac _ _ _ _ hkey
  | @chainKey i hi =>
    cases i with
    | zero => exact hS.dh_ne_hkdf512 _ _ _ _ _ _ hkey
    | succ i =>
      rw [S.chainKey_succ] at hkey
      exact hS.dh_ne_hmac _ _ _ _ hkey
  | @rootKey i hi =>
    cases i with
    | zero => exact hS.secret_ne_dh _ _ hkey.symm
    | succ i => exact hS.dh_ne_hkdf512 _ _ _ _ _ _ hkey

omit [DecidableEq K] in
theorem not_ancestor_hkdf256 (k : K) (label : Bytes) :
    ¬ Ancestor S j n (P.hkdfSha256 k label) := by
  intro h
  generalize hkey : P.hkdfSha256 k label = key at h
  cases h with
  | msgKey => exact hS.hmac_ne_hkdf256 _ _ _ _ hkey.symm
  | @chainKey i hi =>
    cases i with
    | zero => exact hS.hkdf512_ne_hkdf256 _ _ _ _ _ _ hkey.symm
    | succ i =>
      rw [S.chainKey_succ] at hkey
      exact hS.hmac_ne_hkdf256 _ _ _ _ hkey.symm
  | @rootKey i hi =>
    cases i with
    | zero => exact hS.secret_ne_hkdf256 _ _ hkey.symm
    | succ i => exact hS.hkdf512_ne_hkdf256 _ _ _ _ _ _ hkey.symm

omit [DecidableEq K] in
/-- **The ancestors of a message key are guarded.** -/
theorem guarded_of_rule {secret : DhPrivateKey} (premises : List K) (key : K)
    (hrule : KdfRule P secret premises key) (h : Ancestor S j n key) :
    ∃ x ∈ premises, Ancestor S j n x := by
  cases hrule with
  | chainKey ck => exact ⟨ck, List.mem_cons_self, h.of_hmac hS⟩
  | messageKey ck => exact ⟨ck, List.mem_cons_self, h.of_hmac hS⟩
  | rootKey hk =>
    cases hk
    exact ⟨_, List.mem_cons_self, (h.of_hkdf512 hS).1⟩
  | rootChainKey hk =>
    cases hk
    exact ⟨_, List.mem_cons_self, (h.of_hkdf512 hS).1⟩
  | rootHeaderKey hk =>
    cases hk
    exact ⟨_, List.mem_cons_self, (h.of_hkdf512 hS).1⟩
  | diffieHellman pub => exact absurd h (not_ancestor_dh hS secret pub)

omit [DecidableEq K] in
theorem not_ancestor_headerKey (i : ℕ) : ¬ Ancestor S j n (S.headerKey i) := by
  intro h
  match i with
  | 0 => exact not_ancestor_hkdf256 hS _ _ h
  | 1 => exact not_ancestor_hkdf256 hS _ _ h
  | i + 2 => exact (h.of_hkdf512 hS).2 rfl

omit [DecidableEq K] in
theorem ancestor_rootKey {i : ℕ} (h : Ancestor S j n (S.rootKey i)) : i ≤ j := by
  generalize hkey : S.rootKey i = key at h
  cases h with
  | msgKey =>
    cases i with
    | zero => exact absurd hkey (hS.secret_ne_hmac _ _)
    | succ i => exact absurd hkey.symm (hS.hmac_ne_hkdf512 _ _ _ _ _ _)
  | @chainKey i' hi =>
    cases i' with
    | zero =>
      cases i with
      | zero => exact absurd hkey (hS.secret_ne_hkdf512 _ _ _ _)
      | succ i => exact absurd (hS.hkdf512_inj hkey).2.2.2 (by decide)
    | succ i' =>
      rw [S.chainKey_succ] at hkey
      cases i with
      | zero => exact absurd hkey (hS.secret_ne_hmac _ _)
      | succ i => exact absurd hkey.symm (hS.hmac_ne_hkdf512 _ _ _ _ _ _)
  | rootKey hi => exact Schedule.rootKey_injective hS hkey ▸ hi

omit [DecidableEq K] in
theorem ancestor_chainKey {i x : ℕ} (h : Ancestor S j n (S.chainKey i x)) : i = j ∧ x ≤ n := by
  generalize hkey : S.chainKey i x = key at h
  cases h with
  | msgKey =>
    cases x with
    | zero => exact absurd hkey.symm (hS.hmac_ne_hkdf512 _ _ _ _ _ _)
    | succ x =>
      rw [S.chainKey_succ] at hkey
      exact absurd (hS.hmac_inj hkey).2 (by decide)
  | @chainKey i' hi =>
    obtain ⟨rfl, rfl⟩ := Schedule.chainKey_inj
      (Schedule.separatesUpTo hS (max i j + 1) (max x i')) (Nat.lt_succ_of_le (le_max_left _ _))
      (Nat.lt_succ_of_le (le_max_right _ _)) (le_max_left _ _) (le_max_right _ _) hkey
    exact ⟨rfl, hi⟩
  | @rootKey i' hi =>
    cases x with
    | zero =>
      cases i' with
      | zero => exact absurd hkey.symm (hS.secret_ne_hkdf512 _ _ _ _)
      | succ i' => exact absurd (hS.hkdf512_inj hkey).2.2.2 (by decide)
    | succ x =>
      rw [S.chainKey_succ] at hkey
      cases i' with
      | zero => exact absurd hkey.symm (hS.secret_ne_hmac _ _)
      | succ i' => exact absurd hkey (hS.hmac_ne_hkdf512 _ _ _ _ _ _)

omit [DecidableEq K] in
theorem ancestor_msgKey {i x : ℕ} (h : Ancestor S j n (S.msgKey i x)) : i = j ∧ x = n := by
  generalize hkey : S.msgKey i x = key at h
  cases h with
  | msgKey =>
    exact Schedule.msgKey_inj
      (Schedule.separatesUpTo hS (max i j + 1) (max x n + 1))
      (Nat.lt_succ_of_le (le_max_left _ _)) (Nat.lt_succ_of_le (le_max_right _ _))
      (Nat.lt_succ_of_le (le_max_left _ _)) (Nat.lt_succ_of_le (le_max_right _ _)) hkey
  | @chainKey i' hi =>
    cases i' with
    | zero => exact absurd hkey (hS.hmac_ne_hkdf512 _ _ _ _ _ _)
    | succ i' =>
      rw [S.chainKey_succ] at hkey
      exact absurd (hS.hmac_inj hkey).2 (by decide)
  | @rootKey i' hi =>
    cases i' with
    | zero => exact absurd hkey.symm (hS.secret_ne_hmac _ _)
    | succ i' => exact absurd hkey (hS.hmac_ne_hkdf512 _ _ _ _ _ _)

end Ancestors

/-! ### States that have moved past a message -/

/-- A state with view `v` has moved past message `n` of chain `j`. -/
structure Past (S : Schedule P) (v : ℕ) (st : RatchetState K) (j n : ℕ) : Prop where
  lt_view : j < v
  sending : j + 1 = v → n < st.ns.toNat
  receiving : j + 2 = v → n < st.nr.toNat
  not_stored : ∀ k ∈ st.mkskipped, k.1 = S.headerKey j → k.2.toNat ≠ n

/-- No key of the state is an ancestor of a message key it has moved past. -/
theorem Synced.not_ancestor (hS : CollisionFree P S.sk) (h : Synced S v st)
    (hpast : Past S v st j n) {key : K} (hkey : key ∈ st.keys) : ¬ Ancestor S j n key := by
  intro hanc
  have hlt := hpast.lt_view
  cases h.mem_keys hkey with
  | rootKey =>
    have := ancestor_rootKey hS hanc
    omega
  | headerKey => exact not_ancestor_headerKey hS _ hanc
  | sending hv hle =>
    obtain ⟨rfl, hxn⟩ := ancestor_chainKey hS hanc
    have := hpast.sending hv.symm
    omega
  | receiving hv =>
    obtain ⟨rfl, hxn⟩ := ancestor_chainKey hS hanc
    have := hpast.receiving hv.symm
    omega
  | skipped hk hi =>
    obtain ⟨rfl, hn⟩ := ancestor_msgKey hS hanc
    exact hpast.not_stored _ (AList.lookup_isSome.mp (hk ▸ rfl)) hi hn

/-- **The key of a message a state has moved past is out of reach.** -/
theorem Synced.not_derivable (hS : CollisionFree P S.sk) (h : Synced S v st)
    (hpast : Past S v st j n) : ¬ DerivableFrom P st (S.msgKey j n) :=
  fun hder => hder.not_guarded (fun _ hkey => h.not_ancestor hS hpast hkey)
    (fun premises key hrule => guarded_of_rule hS premises key hrule) .msgKey

/-- Nor is it stored. -/
theorem Synced.not_stored (hS : CollisionFree P S.sk) (h : Synced S v st)
    (hpast : Past S v st j n) {k : K × UInt32} {key : SkippedKey K}
    (hk : st.mkskipped.lookup k = some key) : key.mk ≠ S.msgKey j n := by
  intro heq
  refine h.not_ancestor hS hpast ?_ (heq ▸ .msgKey : Ancestor S j n key.mk)
  refine List.mem_cons_of_mem _ (List.mem_cons_of_mem _ (List.mem_cons_of_mem _
    (List.mem_append_right _ (List.mem_filterMap.mpr ⟨k, ?_, by rw [hk]; rfl⟩))))
  rw [← AList.mem_keys, ← AList.lookup_isSome, hk]
  rfl

/-- A party has moved past what it sent. -/
theorem Sync.past_of_sent (hS : S.KdfSeparates) (h : Sync S s) {m : Sealed K}
    (hm : m ∈ s.sent) (hat : SentAt S m j) :
    Past S (view m.owner s.chains.length) (s.state m.owner) j m.header.n.toNat := by
  have hpar := (partyOf_eq_self h.pos).mp hat.owner.symm
  have hj := h.length_lt hS hm hat
  have hview := view_le m.owner s.chains.length
  refine ⟨by omega, h.current m hm j hat, fun hv => by omega, fun k hk hkj => ?_⟩
  obtain ⟨key, hkey⟩ := Option.isSome_iff_exists.mp (AList.lookup_isSome.mpr hk)
  obtain ⟨i, hle, hpar', hi, -⟩ := (h.state m.owner).skipped k key hkey
  have hlen := (h.state m.owner).le_length
  have := hat.headerKey_inj hS (by omega) (hi.symm.trans hkj)
  omega

omit [DecidableEq K] in
/-- A party has moved past what is spent. -/
theorem Spent.past {m : Sealed K} (h : Spent S v st m j) : Past S v st j m.header.n.toNat := by
  have hle := h.le_view
  have hpar := h.parity
  refine ⟨by omega, fun hv => by omega, h.passed, fun k hk hkj hkn => h.not_stored ?_⟩
  rwa [← hkj, ← UInt32.toNat_inj.mp hkn]

/-- **Forward secrecy in order.**  In every run in which no call gets to the skip
loop of its own chain with a header beyond the next expected number, the key of
every message that a party has encrypted or decrypted is neither among its skipped
keys nor derivable from its state. -/
theorem forward_secrecy (hP : Correct P) {sk : K} (hS : CollisionFree P sk) {bob : DhPrivateKey}
    (h : Reachable P b sk bob (fun s e => Authentic P b s e ∧ InOrder P b s e) s) {p : Party}
    {m : Sealed K} (hm : m ∈ s.sent)
    (hused : m.owner = p ∨ ∃ o ∈ s.opened, o.party = p ∧ m.Is o.encHeader o.ciphertext o.ad)
    {key : K} (hkey : m.messageKey = some key) :
    (∀ k skipped, (s.state p).mkskipped.lookup k = some skipped → skipped.mk ≠ key) ∧
      ¬ DerivableFrom P (s.state p) key := by
  have hagrees := agrees_schedule (P := P) sk bob s
  have hkeys : (s.schedule P sk bob).KdfSeparates := Schedule.kdfSeparates hS
  have hsync := (h.mono fun s e he => he.1).sync hP hkeys hagrees
  obtain ⟨j, -, hat⟩ := hsync.sent m hm
  obtain rfl : _ = key := Option.some_inj.mp (hat.messageKey.symm.trans hkey)
  have hpast : Past (s.schedule P sk bob) (view p s.chains.length) (s.state p) j
      m.header.n.toNat := by
    rcases hused with rfl | ⟨o, ho, rfl, his⟩
    · exact hsync.past_of_sent hkeys hm hat
    · obtain ⟨m', hm', j', hat', henc, hsp⟩ := (h.inOrder hP hkeys hagrees).spent o ho
      obtain ⟨rfl, rfl⟩ := h.noncesUsed.place_inj hkeys hm' hm
        (henc.trans his.encHeader.symm) hat' hat
      exact hsp.past
  exact ⟨fun k skipped hk => (hsync.state p).not_stored hS hpast hk,
    (hsync.state p).not_derivable hS hpast⟩

open Symbolic in
/-- The responder has received the first message. -/
theorem forward_secrecy_of_first_message : ∃ key, (message 0).messageKey = some key ∧
    ¬ DerivableFrom primitives ((after (threeSent ++ [receive 0])).state .responder) key := by
  have hes : Machine.Along (Session.step primitives .release)
      (fun s e => Authentic primitives .release s e ∧ InOrder primitives .release s e) session
      (threeSent ++ [receive 0]) := by
    decide +kernel
  have hm : message 0 ∈ (after (threeSent ++ [receive 0])).sent := by decide +kernel
  have hopened : ∃ o ∈ (after (threeSent ++ [receive 0])).opened, o.party = .responder ∧
      o.encHeader = (message 0).encHeader ∧ o.ciphertext = (message 0).ciphertext ∧
      o.ad = (message 0).ad := by
    decide +kernel
  obtain ⟨key, hkey⟩ : ∃ key, (message 0).messageKey = some key :=
    Option.isSome_iff_exists.mp (by decide +kernel)
  obtain ⟨o, ho, hp, henc, hct, had⟩ := hopened
  exact ⟨key, hkey, (forward_secrecy correct collisionFree (reachable_after hes) hm
    (.inr ⟨o, ho, hp, henc.symm, hct.symm, had.symm⟩) hkey).2⟩

open Symbolic in
/-- **A used key that can be derived.**  Message 1 arrives first; its key is one
application of KDF_CK away from the chain key the responder keeps. -/
theorem used_key_derivable :
    Machine.Along (Session.step primitives .release) (Authentic primitives .release) session
      (threeSent ++ [receive 1]) ∧
    (decrypt primitives .release (env 3) (message 1).encHeader (message 1).ciphertext
      (message 1).ad ((after threeSent).state .responder)).1 = .ok [0x62] ∧
    ∃ key, (message 1).messageKey = some key ∧
      DerivableFrom primitives ((after (threeSent ++ [receive 1])).state .responder) key := by
  refine ⟨by decide +kernel, by decide +kernel, ?_⟩
  obtain ⟨ck, hck⟩ : ∃ ck, ((after (threeSent ++ [receive 1])).state .responder).ckR = some ck :=
    Option.isSome_iff_exists.mp (by decide +kernel)
  have hkey : (message 1).messageKey
      = ((after (threeSent ++ [receive 1])).state .responder).ckR.map
      fun ck => (kdfCk primitives ck).2 := by
    decide +kernel
  rw [hck] at hkey
  refine ⟨_, hkey, .rule (.messageKey ck) fun x hx => ?_⟩
  obtain rfl := List.mem_singleton.mp hx
  exact .known (RatchetState.mem_keys_of_ckR hck)

end Ratchet
