/-
Where the keys of a session come from.

Every key a party ever holds is computed from the shared secret: root and
chain keys descend from it along the salts of KDF_RK_HE and the keys of KDF_CK,
and the two first header keys are derived from it directly.  This needs nothing
of the network and nothing of the ciphers.

* `Descends.secret_unique`, `BelongsTo.secret_unique` — a key belongs to one
  shared secret;
* `Provenance` — all keys of a state belong to the shared secret;
* `SessionProvenance.run` — **the keys of a session belong to its shared
  secret**, in every run over any network.
-/
import LibsignalDezire.Session.ForwardSecrecy

namespace Ratchet

variable {K : Type} {P : Primitives K} {sk sk' key : K}

/-! ### Descent from a shared secret -/

/-- The keys computed from `sk` by KDF_CK and, in the place of the root key, by
KDF_RK_HE. -/
inductive Descends (P : Primitives K) (sk : K) : K → Prop where
  | secret : Descends P sk sk
  | hmac {key : K} (label : Bytes) : Descends P sk key → Descends P sk (P.hmacSha256 key label)
  | hkdf512 {key : K} (dh : K) (info : Bytes) (block : ℕ) :
      Descends P sk key → Descends P sk (P.hkdfSha512 key dh info block)

/-- These, and the first header keys. -/
def BelongsTo (P : Primitives K) (sk key : K) : Prop :=
  Descends P sk key ∨ ∃ label, key = P.hkdfSha256 sk label

theorem Descends.of_hmac (hS : CollisionFree P sk) {label : Bytes}
    (h : Descends P sk (P.hmacSha256 key label)) : Descends P sk key := by
  generalize hkey : P.hmacSha256 key label = key' at h
  cases h with
  | secret => exact absurd hkey.symm (hS.secret_ne_hmac _ _)
  | hmac label' h =>
    rw [(hS.hmac_inj hkey).1]
    exact h
  | hkdf512 dh info block h => exact absurd hkey (hS.hmac_ne_hkdf512 _ _ _ _ _ _)

theorem Descends.of_hkdf512 (hS : CollisionFree P sk) {dh : K} {info : Bytes} {block : ℕ}
    (h : Descends P sk (P.hkdfSha512 key dh info block)) : Descends P sk key := by
  generalize hkey : P.hkdfSha512 key dh info block = key' at h
  cases h with
  | secret => exact absurd hkey.symm (hS.secret_ne_hkdf512 _ _ _ _)
  | hmac label h => exact absurd hkey.symm (hS.hmac_ne_hkdf512 _ _ _ _ _ _)
  | hkdf512 dh' info' block' h =>
    rw [(hS.hkdf512_inj hkey).1]
    exact h

theorem Descends.ne_hkdf256 (hS : CollisionFree P sk) (h : Descends P sk key) (ikm : K)
    (label : Bytes) : key ≠ P.hkdfSha256 ikm label := by
  cases h with
  | secret => exact hS.secret_ne_hkdf256 _ _
  | hmac label' h => exact hS.hmac_ne_hkdf256 _ _ _ _
  | hkdf512 dh info block h => exact hS.hkdf512_ne_hkdf256 _ _ _ _ _ _

theorem Descends.ne_diffieHellman (hS : CollisionFree P sk) (h : Descends P sk key)
    (secret : DhPrivateKey) (pub : DhPublicKey) : key ≠ P.x25519DiffieHellman secret pub := by
  cases h with
  | secret => exact hS.secret_ne_dh _ _
  | hmac label h => exact (hS.dh_ne_hmac _ _ _ _).symm
  | hkdf512 dh info block h => exact (hS.dh_ne_hkdf512 _ _ _ _ _ _).symm

/-- A shared secret descends from no other. -/
theorem Descends.of_secret (hS : CollisionFree P sk) (h : Descends P sk' sk) : sk = sk' := by
  cases h with
  | secret => rfl
  | hmac label h => exact absurd rfl (hS.secret_ne_hmac _ _)
  | hkdf512 dh info block h => exact absurd rfl (hS.secret_ne_hkdf512 _ _ _ _)

/-- **A key descends from one shared secret.** -/
theorem Descends.secret_unique (hS : CollisionFree P sk) (hS' : CollisionFree P sk')
    (h : Descends P sk key) (h' : Descends P sk' key) : sk = sk' := by
  induction h with
  | secret => exact h'.of_secret hS
  | hmac label _ ih => exact ih (h'.of_hmac hS')
  | hkdf512 dh info block _ ih => exact ih (h'.of_hkdf512 hS')

theorem BelongsTo.secret_unique (hS : CollisionFree P sk) (hS' : CollisionFree P sk')
    (h : BelongsTo P sk key) (h' : BelongsTo P sk' key) : sk = sk' := by
  rcases h with h | ⟨label, rfl⟩
  · rcases h' with h' | ⟨label', rfl⟩
    · exact h.secret_unique hS hS' h'
    · exact absurd rfl (h.ne_hkdf256 hS _ _)
  · rcases h' with h' | ⟨label', heq⟩
    · exact absurd rfl (h'.ne_hkdf256 hS' _ _)
    · exact (hS.hkdf256_inj heq).1

theorem Descends.advance (h : Descends P sk key) (n : ℕ) : Descends P sk (advance P key n) := by
  induction n generalizing key with
  | zero => exact h
  | succ n ih => exact ih (h.hmac _)

theorem Descends.messageKey (h : Descends P sk key) (n : ℕ) :
    Descends P sk (messageKey P key n) :=
  (h.advance n).hmac _

/-! ### The keys of a state -/

variable [DecidableEq K] {st : RatchetState K} {s : Session K}

/-- All keys of the state belong to the shared secret `sk`. -/
structure Provenance (P : Primitives K) (sk : K) (st : RatchetState K) : Prop where
  rk : Descends P sk st.rk
  ckS : ∀ ck, st.ckS = some ck → Descends P sk ck
  ckR : ∀ ck, st.ckR = some ck → Descends P sk ck
  hkS : ∀ hk, st.hkS = some hk → BelongsTo P sk hk
  hkR : ∀ hk, st.hkR = some hk → BelongsTo P sk hk
  nhkS : BelongsTo P sk st.nhkS
  nhkR : BelongsTo P sk st.nhkR
  skipped : ∀ k key, st.mkskipped.lookup k = some key →
    BelongsTo P sk k.1 ∧ Descends P sk key.mk

theorem Provenance.sender {dhS : DhPrivateKey} {pub : DhPublicKey}
    (h : initSenderState P dhS sk pub = .ok st) : Provenance P sk st := by
  cases h
  refine ⟨.hkdf512 _ _ _ .secret, fun ck hck => ?_, fun ck hck => ?_, fun hk hhk => ?_,
    fun hk hhk => ?_, .inl (.hkdf512 _ _ _ .secret), .inr ⟨_, rfl⟩, fun k key hk => ?_⟩
  · cases hck
    exact .hkdf512 _ _ _ .secret
  · cases hck
  · cases hhk
    exact .inr ⟨_, rfl⟩
  · cases hhk
  · cases hk

theorem Provenance.receiver (P : Primitives K) (sk : K) (pair : DhPrivateKey × DhPublicKey) :
    Provenance P sk (initReceiverState P sk pair) := by
  refine ⟨.secret, fun ck hck => ?_, fun ck hck => ?_, fun hk hhk => ?_, fun hk hhk => ?_,
    .inr ⟨_, rfl⟩, .inr ⟨_, rfl⟩, fun k key hk => ?_⟩
  · cases hck
  · cases hck
  · cases hhk
  · cases hhk
  · cases hk

/-- What the skip loop stores. -/
theorem skipMessageKeys_stores {order : HashOrder (K × UInt32)} {clock : ℕ → SystemTime}
    {m m' : SkippedKeyMap K} {ck hk : K} {fromN toN : UInt32}
    (h : skipMessageKeys P order clock m ck hk fromN toN = .ok m') :
    Stores P ck hk fromN.toNat toN.toNat m m' := by
  have hle : fromN.toNat ≤ toN.toNat := by
    by_contra hlt
    rw [skipMessageKeys_of_lt P order clock m ck hk (not_le.mp hlt)] at h
    cases h
  have hlimit : toN.toNat ≤ fromN.toNat + maxSkip.toNat := by
    by_contra hgt
    rw [skipMessageKeys_of_limit P order clock m ck hk (not_le.mp hgt)] at h
    cases h
  obtain ⟨m'', hskip, hstores⟩ := skipMessageKeys_spec P order clock m ck hk hle hlimit
  rw [h] at hskip
  cases hskip
  exact hstores

/-- A change of the map to entries that belong to the secret. -/
theorem Provenance.with_mkskipped (h : Provenance P sk st) {mkskipped : SkippedKeyMap K}
    (hm : ∀ k key, mkskipped.lookup k = some key → BelongsTo P sk k.1 ∧ Descends P sk key.mk) :
    Provenance P sk { st with mkskipped } :=
  ⟨h.rk, h.ckS, h.ckR, h.hkS, h.hkR, h.nhkS, h.nhkR, hm⟩

theorem Provenance.storeSkipped (h : Provenance P sk st) (env : CallEnv K) (call : ℕ)
    (toN : UInt32) : Provenance P sk (storeSkipped P env call toN st).2 := by
  rcases storeSkipped_cases P env call toN st with
    hres | ⟨ck, hk, hck, hhk, ⟨m, hskip, hres⟩ | ⟨e, -, hres⟩⟩
  · rw [hres]
    exact h
  · rw [hres]
    refine h.with_mkskipped fun k key hkey => ?_
    rcases (skipMessageKeys_stores hskip).sound k key hkey with hold | ⟨hk1, -, -, hmk⟩
    · exact h.skipped k key hold
    · rw [hk1, hmk]
      exact ⟨h.hkR hk hhk, (h.ckR ck hck).messageKey _⟩
  · rw [hres]
    exact h.with_mkskipped fun k key hkey => by cases hkey

/-- The DH ratchet, with whatever public key the header has. -/
theorem Provenance.ratcheted (h : Provenance P sk st) (env : CallEnv K)
    (header : RatchetHeader) :
    Provenance P sk (ratcheted P env header st) := by
  have hrk : ∀ dh block, Descends P sk (P.hkdfSha512 st.rk dh hkdfInfoRoot block) :=
    fun dh block => h.rk.hkdf512 _ _ _
  refine ⟨(hrk _ _).hkdf512 _ _ _, fun ck hck => ?_, fun ck hck => ?_, fun hk hhk => ?_,
    fun hk hhk => ?_, .inl ((hrk _ _).hkdf512 _ _ _), .inl (hrk _ _), h.skipped⟩
  · cases hck
    exact (hrk _ _).hkdf512 _ _ _
  · cases hck
    exact hrk _ _
  · cases hhk
    exact h.nhkS
  · cases hhk
    exact h.nhkR

/-- Steps of the receiving chain keep it. -/
theorem Provenance.with_ckR (h : Provenance P sk st) {ckR : Option K} {nr : UInt32}
    (hck : ∀ ck, ckR = some ck → Descends P sk ck) : Provenance P sk { st with ckR, nr } :=
  ⟨h.rk, h.ckS, hck, h.hkS, h.hkR, h.nhkS, h.nhkR, h.skipped⟩

theorem Provenance.commitStateChanges (h : Provenance P sk st) (env : CallEnv K)
    (header : RatchetHeader) (f : Bool) :
    Provenance P sk (commitStateChanges P env header f st).2 := by
  have htail : ∀ {st : RatchetState K}, Provenance P sk st →
      Provenance P sk (Ratchet.commitStateChanges P env header false st).2 := by
    intro st h
    have hstore := h.storeSkipped env 1 header.n
    simp only [Ratchet.commitStateChanges, Exec.bind_apply, if_false, Bool.false_eq_true]
    rcases hres : Ratchet.storeSkipped P env 1 header.n st with ⟨_ | _ | _, st₁⟩ <;>
      rw [hres] at hstore
    · simp only [Exec.get_apply, Exec.lift_apply, Exec.put_apply]
      dsimp only at hstore
      rcases Option.eq_none_or_eq_some st₁.ckR with hck | ⟨ck, hck⟩
      · rw [hck]
        exact hstore
      · have hnext : ∀ nr, Provenance P sk { st₁ with ckR := some (kdfCk P ck).1, nr } :=
          fun nr => hstore.with_ckR fun ck' hck' => by
            cases hck'
            exact (hstore.ckR ck hck).hmac _
        simp only [hck, Outcome.expect_some]
        cases checkedAdd32 st₁.nr 1 with
        | none => exact hnext st₁.nr
        | some nr => exact hnext nr
    · exact hstore
    · exact hstore
  cases f with
  | false => exact htail h
  | true =>
    have hstore := h.storeSkipped env 0 header.pn
    rw [commitStateChanges_true]
    rcases hres : Ratchet.storeSkipped P env 0 header.pn st with ⟨_ | _ | _, st₁⟩ <;>
      rw [hres] at hstore
    · exact htail (hstore.ratcheted env header)
    · exact hstore
    · exact hstore

/-- **`decrypt` keeps the provenance of the keys**, whatever it is given. -/
theorem Provenance.decrypt (h : Provenance P sk st) (b : Build) (env : CallEnv K)
    (encHeader ciphertext ad : Bytes) :
    Provenance P sk (decrypt P b env encHeader ciphertext ad st).2 := by
  rcases decrypt_cases P b env st encHeader ciphertext ad with
    ⟨k, v, q, -, -, -, hres⟩ | ⟨o, -, hres, -, -⟩ | ⟨header, f, q, -, hres⟩
  · rw [hres]
    refine h.with_mkskipped fun k' key hkey => ?_
    by_cases hk : k' = k
    · rw [hk, AList.lookup_erase] at hkey
      cases hkey
    · rw [AList.lookup_erase_ne hk] at hkey
      exact h.skipped k' key hkey
  · rw [hres]
    exact h
  · rw [hres]
    have hcommit := h.commitStateChanges env header f
    obtain ⟨received, hst⟩ := trackMessage_state header q
      (Ratchet.commitStateChanges P env header f st)
    rw [hst]
    exact ⟨hcommit.rk, hcommit.ckS, hcommit.ckR, hcommit.hkS, hcommit.hkR, hcommit.nhkS,
      hcommit.nhkR, hcommit.skipped⟩

theorem Provenance.encrypt (h : Provenance P sk st) (plaintext ad : Bytes) :
    Provenance P sk (encrypt P plaintext ad st).2 := by
  have hnext : ∀ {ck ns c}, st.ckS = some ck → Provenance P sk
      { st with ckS := some (kdfCk P ck).1, ns := ns, headerNonceCounter := c } := by
    intro ck ns c hck
    refine ⟨h.rk, fun ck' hck' => ?_, h.ckR, h.hkS, h.hkR, h.nhkS, h.nhkR, h.skipped⟩
    cases hck'
    exact (h.ckS ck hck).hmac _
  rcases encrypt_cases P st plaintext ad with
    ⟨-, hres⟩ | ⟨-, -, hres⟩ | ⟨ck, hk, hck, -, -, -, ⟨-, hres⟩ |
      ⟨ns, -, ⟨-, hres⟩ | ⟨c, -, hres⟩⟩⟩
  · rw [hres]
    exact h
  · rw [hres]
    exact h
  · rw [hres]
    exact hnext hck
  · rw [hres]
    exact hnext hck
  · rw [hres]
    exact hnext hck

/-- All symbolic keys of the state, in one list. -/
theorem Provenance.mem_keys (h : Provenance P sk st) (hkey : key ∈ st.keys) :
    BelongsTo P sk key := by
  simp only [RatchetState.keys, List.mem_cons, List.mem_append, Option.mem_toList, List.mem_map,
    List.mem_filterMap, Option.map_eq_some_iff] at hkey
  rcases hkey with hk | hk | hk | ((((hk | hk) | hk) | hk) | ⟨k, hk, rfl⟩) |
    ⟨k, -, key', hk, rfl⟩
  · exact hk ▸ .inl h.rk
  · exact hk ▸ h.nhkS
  · exact hk ▸ h.nhkR
  · exact .inl (h.ckS _ hk)
  · exact .inl (h.ckR _ hk)
  · exact h.hkS _ hk
  · exact h.hkR _ hk
  · obtain ⟨key', hk'⟩ := Option.isSome_iff_exists.mp
      (AList.lookup_isSome.mpr (AList.mem_keys.mpr hk))
    exact (h.skipped k key' hk').1
  · exact .inl (h.skipped k key' hk).2

/-! ### The keys that are tried -/

theorem Provenance.headerKeys (h : Provenance P sk st) {hk : K} (hmem : hk ∈ st.headerKeys) :
    BelongsTo P sk hk := by
  simp only [RatchetState.headerKeys, List.mem_append, Option.mem_toList, List.mem_cons,
    List.mem_map] at hmem
  rcases hmem with hhk | rfl | ⟨k, hk, rfl⟩
  · exact h.hkR hk hhk
  · exact h.nhkR
  · obtain ⟨key, hkey⟩ := Option.isSome_iff_exists.mp
      (AList.lookup_isSome.mpr (AList.mem_keys.mpr hk))
    exact (h.skipped k key hkey).1

/-- The key computed for a header belongs to the secret, whatever the header is. -/
theorem Provenance.computeMessageKey (h : Provenance P sk st) {b : Build}
    {header : RatchetHeader}
    {f : Bool} {mk : K} (hmk : computeMessageKey P b st header f = .ok mk) :
    Descends P sk mk := by
  obtain ⟨ck, hck, rfl, -, -⟩ := computeMessageKey_eq_ok P hmk
  refine Descends.messageKey ?_ _
  cases f with
  | false => exact h.ckR ck hck
  | true =>
    cases hck
    exact h.rk.hkdf512 _ _ _

theorem Provenance.messageKeys (h : Provenance P sk st) {b : Build} {encHeader : Bytes} {mk : K}
    (hmem : mk ∈ st.messageKeys P b encHeader) : Descends P sk mk := by
  rcases List.mem_append.mp hmem with hmem | hmem
  · obtain ⟨k, -, hk⟩ := List.mem_filterMap.mp hmem
    obtain ⟨key, hkey, rfl⟩ := Option.map_eq_some_iff.mp hk
    exact (h.skipped k key hkey).2
  · split at hmem
    · split at hmem
      case h_1 key hkey =>
        rw [List.mem_singleton] at hmem
        rw [hmem]
        exact h.computeMessageKey hkey
      case h_2 => cases hmem
    · cases hmem

/-! ### The keys of a session -/

/-- The keys of both parties, and those of all messages, belong to `sk`. -/
structure SessionProvenance (P : Primitives K) (sk : K) (s : Session K) : Prop where
  state : ∀ p, Provenance P sk (s.state p)
  headerKey : ∀ m ∈ s.sent, ∀ hk, m.headerKey = some hk → BelongsTo P sk hk
  messageKey : ∀ m ∈ s.sent, ∀ mk, m.messageKey = some mk → Descends P sk mk

theorem SessionProvenance.start {bob dhS : DhPrivateKey} {s : Session K}
    (h : Session.start P sk bob dhS = .ok s) : SessionProvenance P sk s := by
  obtain ⟨initiator, hinit, hs⟩ := Outcome.bind_eq_ok.mp h
  cases hs
  refine ⟨fun p => ?_, by simp, by simp⟩
  cases p with
  | initiator => exact .sender hinit
  | responder => exact .receiver P sk _

theorem SessionProvenance.update {s s' : Session K} {p : Party} (h : SessionProvenance P sk s)
    {st : RatchetState K} (hst : Provenance P sk st)
    (hstate : s'.state = Function.update s.state p st) (hsent : s'.sent = s.sent) :
    SessionProvenance P sk s' := by
  refine ⟨fun q => ?_, hsent ▸ h.headerKey, hsent ▸ h.messageKey⟩
  rw [hstate]
  by_cases hq : q = p
  · subst hq
    rwa [Function.update_self]
  · rw [Function.update_of_ne hq]
    exact h.state q

theorem SessionProvenance.step (h : SessionProvenance P sk s) (b : Build) (e : Event K) :
    SessionProvenance P sk (s.step P b e) := by
  cases e with
  | decrypt p env encHeader ciphertext ad =>
    exact h.update ((h.state p).decrypt b env encHeader ciphertext ad)
      (Session.decrypt_state rfl) rfl
  | encrypt p plaintext ad =>
    have hst := (h.state p).encrypt plaintext ad
    simp only [Session.step, Session.encrypt]
    split
    case h_2 hres =>
      rw [hres] at hst
      exact h.update hst rfl rfl
    case h_1 hres =>
      rw [hres] at hst
      have hquiet : SessionProvenance P sk { s with state := Function.update s.state p _ } :=
        h.update hst rfl rfl
      refine ⟨hquiet.state, fun m hm hk hhk => ?_, fun m hm mk hmk => ?_⟩
      · rcases List.mem_cons.mp hm with rfl | hm
        · exact (h.state p).hkS hk hhk
        · exact h.headerKey m hm hk hhk
      · rcases List.mem_cons.mp hm with rfl | hm
        · obtain ⟨ck, hck, rfl⟩ := Option.map_eq_some_iff.mp hmk
          exact ((h.state p).ckS ck hck).hmac _
        · exact h.messageKey m hm mk hmk

/-- **The keys of a session belong to its shared secret**, in every run over any
network. -/
theorem SessionProvenance.run {b : Build} (h : SessionProvenance P sk s) (es : List (Event K)) :
    SessionProvenance P sk (Machine.run (Session.step P b) s es) :=
  Machine.run_invariant (fun _ e h => h.step b e) es h

end Ratchet
