/-
What a party of a synchronised session can receive.

On ideal authenticated encryption a message is accepted only if the peer sent
it, and then the number in its header is the number of the key it is sealed
under.  `Receives` lists the outcomes of `decrypt` in terms of the message and
its place in the schedule; all that follows is read off it.

* `skipped_agrees`, `chain_agrees` — the two ways to accept a message;
* `receives` — **the outcomes of `decrypt` in a synchronised session**;
* `Reachable.sync` — both parties stay in step in every run.
-/
import LibsignalDezire.Session.Sync

namespace Ratchet

variable {K : Type} [DecidableEq K] {P : Primitives K} {S : Schedule P} {s : Session K}
  {b : Build} {p : Party} {env : CallEnv K} {encHeader ciphertext ad : Bytes}

/-- The message `m` is what was delivered. -/
structure Sealed.Is (m : Sealed K) (encHeader ciphertext ad : Bytes) : Prop where
  encHeader : m.encHeader = encHeader
  ciphertext : m.ciphertext = ciphertext
  ad : m.ad = ad

/-! ### The keys that are tried -/

theorem mem_headerKeys_of_lookup {st : RatchetState K} {k : K × UInt32} {key : SkippedKey K}
    (h : st.mkskipped.lookup k = some key) : k.1 ∈ st.headerKeys := by
  have hk : k ∈ st.mkskipped.keys := by
    rw [← AList.mem_keys, ← AList.lookup_isSome, h]
    rfl
  exact List.mem_append_right _ (List.mem_cons_of_mem _ (List.mem_map_of_mem hk))

theorem mem_messageKeys_of_lookup {st : RatchetState K} {k : K × UInt32} {key : SkippedKey K}
    (h : st.mkskipped.lookup k = some key) : key.mk ∈ st.messageKeys P b encHeader := by
  have hk : k ∈ st.mkskipped.keys := by
    rw [← AList.mem_keys, ← AList.lookup_isSome, h]
    rfl
  refine List.mem_append_left _ (List.mem_filterMap.mpr ⟨k, hk, ?_⟩)
  rw [h]
  rfl

theorem mem_messageKeys_of_compute {st : RatchetState K} {header : RatchetHeader} {f : Bool}
    {key : K} (hhdr : decryptHeader P st encHeader = .ok (header, f))
    (hkey : computeMessageKey P b st header f = .ok key) :
    key ∈ st.messageKeys P b encHeader := by
  refine List.mem_append_right _ ?_
  simp only [hhdr, hkey, List.mem_singleton]

/-! ### Agreement -/

section Agreement

variable (hP : Correct P) (hS : S.KdfSeparates) (h : Sync S s)
  (hauth : AuthenticCall P b s p encHeader ciphertext ad)

include hP h hauth

/-- A header that opens is the header of a message. -/
theorem header_agrees {hk : K} (hmem : hk ∈ (s.state p).headerKeys) {header : RatchetHeader}
    (hopen : decryptHeaderWithKey P hk encHeader = .ok header) :
    ∃ m ∈ s.sent, ∃ j, SentAt S m j ∧ hk = S.headerKey j ∧ m.encHeader = encHeader ∧
      m.header = header := by
  obtain ⟨m, hm, hkey, henc⟩ := hauth.1 hk hmem (Outcome.isOk_iff.mpr ⟨_, hopen⟩)
  obtain ⟨j, -, hj⟩ := h.sent m hm
  have hhk : hk = S.headerKey j := Option.some_inj.mp (hkey.symm.trans hj.headerKey)
  have hopens := hj.opens hP
  rw [henc, ← hhk, hopen] at hopens
  exact ⟨m, hm, j, hj, hhk, henc, (Outcome.ok.inj hopens).symm⟩

/-- A body that opens under a message key is the body of a message sealed under
that key, with the same associated data and encrypted header. -/
theorem body_agrees {key : K} (hmem : key ∈ (s.state p).messageKeys P b encHeader) {q : Bytes}
    (hopen : decryptAead P key ciphertext (concatAd ad encHeader) = .ok q)
    (hlen : encHeader.length = 68) (had : ad.length ≤ maxAdSize) :
    ∃ m ∈ s.sent, ∃ j, SentAt S m j ∧ key = S.msgKey j m.header.n.toNat ∧
      m.Is encHeader ciphertext ad ∧ m.plaintext = q := by
  obtain ⟨m, hm, hkey, hmac⟩ := hauth.2 key hmem (Outcome.isOk_iff.mpr ⟨_, hopen⟩)
  obtain ⟨j, -, hj⟩ := h.sent m hm
  have hkeyEq : key = S.msgKey j m.header.n.toNat :=
    Option.some_inj.mp (hkey.symm.trans hj.messageKey)
  have hdec := hj.decrypts hP
  obtain ⟨body, -, hct, hinput⟩ := decryptAead_eq_ok hopen
  obtain ⟨body', -, hct', hinput'⟩ := decryptAead_eq_ok hdec
  rw [hinput, hinput'] at hmac
  have hmax : maxAdSize < 2 ^ 64 := by decide
  obtain ⟨hadEq, hencEq, hbody⟩ := macInput_inj_of_length (hj.ad_le.trans_lt hmax)
    (had.trans_lt hmax) ((hj.length_encHeader hP).trans hlen.symm) hmac
  have hctEq : m.ciphertext = ciphertext := by
    rw [hct', hct, hbody, hadEq, hencEq, ← hkeyEq]
  refine ⟨m, hm, j, hj, hkeyEq, ⟨hencEq, hctEq, hadEq⟩, ?_⟩
  rw [hctEq, hencEq, hadEq, ← hkeyEq, hopen] at hdec
  exact (Outcome.ok.inj hdec).symm

include hS

/-- A header that opens is that of a message of the chain being received, or of the
next one. -/
theorem decryptHeader_agrees {header : RatchetHeader} {f : Bool}
    (hhdr : decryptHeader P (s.state p) encHeader = .ok (header, f)) :
    ∃ m ∈ s.sent, ∃ j, SentAt S m j ∧ m.encHeader = encHeader ∧ m.header = header ∧
      (f = false → j + 2 = view p s.chains.length) ∧
      (f = true → j = view p s.chains.length) := by
  have hp := h.state p
  rcases decryptHeader_eq_ok P hhdr with ⟨rfl, hk, hhk, hopen⟩ | ⟨rfl, hopen⟩
  · obtain ⟨w, hv, hhkEq⟩ := S.recvHeaderKey_eq_some.mp (hp.hkR.symm.trans hhk)
    obtain ⟨m, hm, j, hat, hkj, henc, hheader⟩ := header_agrees hP h hauth
      (List.mem_append_left _ (by rw [hhk]; exact List.mem_singleton_self _)) hopen
    have hlen := hp.le_length
    obtain rfl : w = j := hat.headerKey_inj hS (by omega) (hhkEq.symm.trans hkj)
    exact ⟨m, hm, w, hat, henc, hheader, fun _ => hv.symm, by simp⟩
  · obtain ⟨m, hm, j, hat, hkj, henc, hheader⟩ := header_agrees hP h hauth
      (List.mem_append_right _ List.mem_cons_self) hopen
    obtain rfl : view p s.chains.length = j :=
      hat.headerKey_inj hS (Nat.le_succ_of_le hp.le_length) (hp.nhkR.symm.trans hkj)
    exact ⟨m, hm, _, hat, henc, hheader, by simp, fun _ => rfl⟩

/-- **The skipped-key route accepts only what the peer sent.** -/
theorem skipped_agrees {k : K × UInt32} {key : SkippedKey K} {q : Bytes}
    (hk : (s.state p).mkskipped.lookup k = some key)
    (hopens : Opens P k key encHeader ciphertext (concatAd ad encHeader) q)
    (had : ad.length ≤ maxAdSize) :
    ∃ m ∈ s.sent, ∃ j, SentAt S m j ∧ m.Is encHeader ciphertext ad ∧ m.plaintext = q ∧
      k = (S.headerKey j, m.header.n) ∧ j + 2 ≤ view p s.chains.length ∧
      (j + view p s.chains.length) % 2 = 0 := by
  obtain ⟨header, hhdr, hn, hbody⟩ := hopens
  obtain ⟨j, hj, hpar, hk1, hkey⟩ := (h.state p).skipped k key hk
  obtain ⟨m₁, -, j₁, hat₁, -, henc₁, -⟩ :=
    header_agrees hP h hauth (mem_headerKeys_of_lookup hk) hhdr
  have hlen : encHeader.length = 68 := henc₁ ▸ hat₁.length_encHeader hP
  obtain ⟨m, hm, j', hat, hkey', his, hq⟩ :=
    body_agrees hP h hauth (mem_messageKeys_of_lookup hk) hbody hlen had
  have hlt : j < S.length := by
    have := (h.state p).le_length
    omega
  obtain ⟨rfl, hnum⟩ := hat.msgKey_inj hS hlt k.2.toNat_lt (hkey.symm.trans hkey')
  exact ⟨m, hm, j, hat, his, hq, Prod.ext hk1 (UInt32.toNat_inj.mp hnum), hj, hpar⟩

/-- **The chain routes accept only what the peer sent**, on the current chain or
on the next one, under the number in its header. -/
theorem chain_agrees {header : RatchetHeader} {f : Bool} {q : Bytes}
    (haccept : Authenticates P b (s.state p) encHeader ciphertext ad header f q) :
    ∃ m ∈ s.sent, ∃ j, SentAt S m j ∧ m.Is encHeader ciphertext ad ∧ m.plaintext = q ∧
      m.header = header ∧ (f = false → j + 2 = view p s.chains.length) ∧
      (f = true → j = view p s.chains.length) ∧
      recvChain P (s.state p) header f
        = some (S.chainKey j (recvNumber (s.state p) f).toNat) ∧
      (recvNumber (s.state p) f).toNat ≤ header.n.toNat ∧
      header.n.toNat ≤ (recvNumber (s.state p) f).toNat + maxSkip.toNat := by
  have hp := h.state p
  obtain ⟨key, hkey, hbody⟩ := haccept.opens
  obtain ⟨ck, hck, hkeyEq, hlimit, -⟩ := computeMessageKey_eq_ok P hkey
  have hmem := mem_messageKeys_of_compute haccept.header_eq hkey
  -- the chain the header belongs to, and the chain key the message key comes from
  obtain ⟨m₁, hm₁, j, hat₁, henc₁, hhdr₁, hf, ht⟩ :=
    decryptHeader_agrees hP hS h hauth haccept.header_eq
  have hckEq : ck = S.chainKey j (recvNumber (s.state p) f).toNat := by
    cases f with
    | false =>
      obtain ⟨w, hv, hckEq⟩ := S.recvChainKey_eq_some.mp (hp.ckR.symm.trans hck)
      have hj := hf rfl
      obtain rfl : w = j := by omega
      exact hckEq
    | true =>
      obtain rfl := ht rfl
      have hdh : P.x25519DiffieHellman (s.state p).dhPair.1 header.dhPub
          = S.dhValue (view p s.chains.length) := by
        rw [← hhdr₁, hat₁.dhPub, hp.dhPair]
        exact S.dhValue_comm hP _
      simp only [recvChain, if_true, hdh, hp.rk] at hck
      exact (Option.some_inj.mp hck).symm
  have hlen : encHeader.length = 68 := henc₁ ▸ hat₁.length_encHeader hP
  obtain ⟨m, hm, j', hat, hkey', his, hq⟩ :=
    body_agrees hP h hauth hmem hbody hlen haccept.ad_le
  rw [hkeyEq, hckEq, S.messageKey_chainKey] at hkey'
  obtain ⟨rfl, hnum⟩ := hat.msgKey_inj hS hat₁.lt_length (by
    have := (recvNumber (s.state p) f).toNat_lt
    have := header.n.toNat_lt
    omega) hkey'
  -- both headers are what `encHeader` opens to under the header key of the chain
  have hhdr : m.header = header := by
    have hopen := hat.opens hP
    have hopen₁ := hat₁.opens hP
    rw [his.encHeader, ← henc₁, hopen₁] at hopen
    rw [← Outcome.ok.inj hopen, hhdr₁]
  rw [hhdr] at hnum
  exact ⟨m, hm, j, hat, his, hq, hhdr, hf, ht, by rw [hck, hckEq], by omega, hlimit⟩

end Agreement

/-! ### The outcomes of `decrypt` -/

/-- What the DH ratchet stores of the chain it closes, up to number `pn`. -/
def StoresPrevious (S : Schedule P) (v nr pn : ℕ) (old new : SkippedKeyMap K) : Prop :=
  v < 2 ∧ new = old ∨ ∃ w, v = w + 2 ∧ nr ≤ pn ∧ pn ≤ nr + maxSkip.toNat ∧
    Stores P (S.chainKey w nr) (S.headerKey w) nr pn old new

theorem StoresPrevious.mem {v nr pn : ℕ} {old new : SkippedKeyMap K}
    (h : StoresPrevious S v nr pn old new) {k : K × UInt32} (hk : k ∈ new) :
    k ∈ old ∨ ∃ w, v = w + 2 ∧ k.1 = S.headerKey w ∧ nr ≤ k.2.toNat ∧ k.2.toNat < pn := by
  rcases h with ⟨-, rfl⟩ | ⟨w, hw, -, -, hst⟩
  · exact .inl hk
  · rcases hst.mem hk with hk | hk
    · exact .inl hk
    · exact .inr ⟨w, hw, hk⟩

/-- The outcome and the state that `decrypt` leaves to party `p`. -/
inductive Receives (P : Primitives K) (S : Schedule P) (b : Build) (s : Session K) (p : Party)
    (env : CallEnv K) (encHeader ciphertext ad : Bytes) :
    Outcome RatchetError Bytes × RatchetState K → Prop where
  /-- Nothing opens the message; the state is as before. -/
  | refused {o} (not_ok : ∀ q, o ≠ .ok q)
      (not_skipped : ad.length ≤ maxAdSize → ∀ k key q,
        (s.state p).mkskipped.lookup k = some key →
        ¬ Opens P k key encHeader ciphertext (concatAd ad encHeader) q)
      (not_accepted : ∀ header f q,
        ¬ Authenticates P b (s.state p) encHeader ciphertext ad header f q) :
      Receives P S b s p env encHeader ciphertext ad (o, s.state p)
  /-- A skipped key opens it. -/
  | skipped {m j} (mem : m ∈ s.sent) (sentAt : SentAt S m j) (is : m.Is encHeader ciphertext ad)
      (le_view : j + 2 ≤ view p s.chains.length) (parity : (j + view p s.chains.length) % 2 = 0)
      (stored : (S.headerKey j, m.header.n) ∈ (s.state p).mkskipped) :
      Receives P S b s p env encHeader ciphertext ad (.ok m.plaintext, { s.state p with
        mkskipped := (s.state p).mkskipped.erase (S.headerKey j, m.header.n) })
  /-- It belongs to the chain being received. -/
  | current {m j mkskipped nr} (mem : m ∈ s.sent) (sentAt : SentAt S m j)
      (is : m.Is encHeader ciphertext ad)
      (accepted : Authenticates P b (s.state p) encHeader ciphertext ad m.header false
        m.plaintext)
      (view_eq : j + 2 = view p s.chains.length)
      (le_n : (s.state p).nr.toNat ≤ m.header.n.toNat)
      (stores : Stores P (S.chainKey j (s.state p).nr.toNat) (S.headerKey j)
        (s.state p).nr.toNat m.header.n.toNat (s.state p).mkskipped mkskipped)
      (nr_eq : nr.toNat = (s.state p).nr.toNat + 1) :
      Receives P S b s p env encHeader ciphertext ad
        (trackMessage m.header m.plaintext (.ok ⟨⟩, { s.state p with
          mkskipped, ckR := some (S.chainKey j nr.toNat), nr }))
  /-- It opens the next chain, but the previous one cannot be stored. -/
  | lost {m e} (mem : m ∈ s.sent) (sentAt : SentAt S m (view p s.chains.length))
      (is : m.Is encHeader ciphertext ad)
      (accepted : Authenticates P b (s.state p) encHeader ciphertext ad m.header true
        m.plaintext)
      (receiving : 2 ≤ view p s.chains.length)
      (out_of_range : m.header.pn.toNat < (s.state p).nr.toNat ∨
        (s.state p).nr.toNat + maxSkip.toNat < m.header.pn.toNat) :
      Receives P S b s p env encHeader ciphertext ad
        (.err e, { s.state p with mkskipped := ∅ })
  /-- It opens the next chain: the DH ratchet turns. -/
  | ratchet {m mk₁ mk₂} (mem : m ∈ s.sent) (sentAt : SentAt S m (view p s.chains.length))
      (is : m.Is encHeader ciphertext ad)
      (accepted : Authenticates P b (s.state p) encHeader ciphertext ad m.header true
        m.plaintext)
      (previous : StoresPrevious S (view p s.chains.length) (s.state p).nr.toNat
        m.header.pn.toNat (s.state p).mkskipped mk₁)
      (stores : Stores P (S.chainKey (view p s.chains.length) 0)
        (S.headerKey (view p s.chains.length)) 0 m.header.n.toNat mk₁ mk₂) :
      Receives P S b s p env encHeader ciphertext ad (.ok m.plaintext,
        { ratcheted P env m.header (s.state p) with
          mkskipped := mk₂, ckR := some (S.chainKey (view p s.chains.length) 1), nr := 1
          receivedMessages := {(m.header.dhPub, m.header.n)} })

section Accepted

variable (env : CallEnv K) (h : Sync S s) {m : Sealed K} (hm : m ∈ s.sent)
  (his : m.Is encHeader ciphertext ad)

include h hm his

/-- The commit of a message of the chain being received. -/
theorem receives_current {j : ℕ} (hat : SentAt S m j) (hview : j + 2 = view p s.chains.length)
    (haccept : Authenticates P b (s.state p) encHeader ciphertext ad m.header false m.plaintext)
    (hchain : (s.state p).ckR = some (S.chainKey j (s.state p).nr.toNat))
    (hle : (s.state p).nr.toNat ≤ m.header.n.toNat)
    (hlimit : m.header.n.toNat ≤ (s.state p).nr.toNat + maxSkip.toNat) :
    Receives P S b s p env encHeader ciphertext ad (trackMessage m.header m.plaintext
      (commitStateChanges P env m.header false (s.state p))) := by
  obtain ⟨hk, hhk⟩ : ∃ hk, (s.state p).hkR = some hk := by
    rcases decryptHeader_eq_ok P haccept.header_eq with ⟨-, hk, hhk, -⟩ | ⟨hf, -⟩
    · exact ⟨hk, hhk⟩
    · cases hf
  obtain ⟨w, hv, rfl⟩ := S.recvHeaderKey_eq_some.mp ((h.state p).hkR.symm.trans hhk)
  obtain rfl : w = j := by omega
  obtain ⟨mkskipped, nr, hstores, hnr, hcommit⟩ := commitStateChanges_of_le P env hchain hhk
    hle hlimit (hle.trans_lt hat.n_lt)
  rw [hcommit, ← S.chainKey_succ, ← hnr]
  exact .current hm hat his haccept hview hle hstores hnr

variable (hat : SentAt S m (view p s.chains.length))
  (haccept : Authenticates P b (s.state p) encHeader ciphertext ad m.header true m.plaintext)
  (hchain : recvChain P (s.state p) m.header true
    = some (S.chainKey (view p s.chains.length) 0))
  (hlimit : m.header.n.toNat ≤ maxSkip.toNat)

include hat haccept hchain hlimit

/-- The commit on the next chain, once the rest of the previous one is stored. -/
theorem receives_ratchet {mk₁ : SkippedKeyMap K} (hprev : StoresPrevious S
      (view p s.chains.length) (s.state p).nr.toNat m.header.pn.toNat
        (s.state p).mkskipped mk₁) :
    Receives P S b s p env encHeader ciphertext ad (trackMessage m.header m.plaintext
      (commitStateChanges P env m.header false
        (ratcheted P env m.header { s.state p with mkskipped := mk₁ }))) := by
  have hfrom : (0 : UInt32).toNat ≤ m.header.n.toNat := Nat.zero_le _
  obtain ⟨mk₂, hskip, hstores⟩ := skipMessageKeys_spec P env.hashOrder (env.clock 1) mk₁
    (S.chainKey (view p s.chains.length) 0) (S.headerKey (view p s.chains.length)) hfrom
    (by rw [UInt32.toNat_zero]; omega)
  have hckR : (ratcheted P env m.header { s.state p with mkskipped := mk₁ }).ckR
      = some (S.chainKey (view p s.chains.length) 0) := hchain
  have hhkR : (ratcheted P env m.header { s.state p with mkskipped := mk₁ }).hkR
      = some (S.headerKey (view p s.chains.length)) := congrArg some (h.state p).nhkR
  rw [commitStateChanges_false P env m.header hckR hhkR]
  have hskip' : skipMessageKeys P env.hashOrder (env.clock 1)
      (ratcheted P env m.header { s.state p with mkskipped := mk₁ }).mkskipped
      (S.chainKey (view p s.chains.length) 0) (S.headerKey (view p s.chains.length))
      (ratcheted P env m.header { s.state p with mkskipped := mk₁ }).nr m.header.n
      = .ok mk₂ := hskip
  rw [hskip', ← S.chainKey_succ]
  exact .ratchet hm hat his haccept hprev hstores

/-- The commit of a message of the next chain. -/
theorem receives_next : Receives P S b s p env encHeader ciphertext ad
    (trackMessage m.header m.plaintext (commitStateChanges P env m.header true
      (s.state p))) := by
  have hp := h.state p
  rw [commitStateChanges_true]
  cases hckR : (s.state p).ckR with
  | none =>
    rw [storeSkipped_none P env 0 m.header.pn (.inl hckR)]
    refine receives_ratchet env h hm his hat haccept hchain hlimit (.inl ⟨?_, rfl⟩)
    by_contra hv
    obtain ⟨w, hw⟩ : ∃ w, view p s.chains.length = w + 2 :=
      ⟨_, (Nat.sub_add_cancel (by omega)).symm⟩
    have hsome := hp.ckR
    rw [hckR, hw] at hsome
    cases hsome
  | some ck =>
    obtain ⟨w, hv, rfl⟩ := S.recvChainKey_eq_some.mp (hp.ckR.symm.trans hckR)
    rw [storeSkipped_some P env 0 m.header.pn hckR (hp.hkR_eq hv)]
    by_cases hlt : m.header.pn.toNat < (s.state p).nr.toNat
    · rw [skipMessageKeys_of_lt P _ _ _ _ _ hlt]
      exact .lost hm hat his haccept (by omega) (.inl hlt)
    by_cases hgt : (s.state p).nr.toNat + maxSkip.toNat < m.header.pn.toNat
    · rw [skipMessageKeys_of_limit P _ _ _ _ _ hgt]
      exact .lost hm hat his haccept (by omega) (.inr hgt)
    · obtain ⟨mk₁, hskip, hstores⟩ := skipMessageKeys_spec P env.hashOrder (env.clock 0)
        (s.state p).mkskipped (S.chainKey w (s.state p).nr.toNat) (S.headerKey w)
        (not_lt.mp hlt) (not_lt.mp hgt)
      rw [hskip]
      exact receives_ratchet env h hm his hat haccept hchain hlimit
        (.inr ⟨w, hv, not_lt.mp hlt, not_lt.mp hgt, hstores⟩)

end Accepted

/-- **The outcomes of `decrypt` in a synchronised session.** -/
theorem receives (env : CallEnv K) (hP : Correct P) (hS : S.KdfSeparates) (h : Sync S s)
    (hauth : AuthenticCall P b s p encHeader ciphertext ad) :
    Receives P S b s p env encHeader ciphertext ad
      (decrypt P b env encHeader ciphertext ad (s.state p)) := by
  rcases decrypt_cases P b env (s.state p) encHeader ciphertext ad with
    ⟨k, key, q, had, hk, hopens, hres⟩ | ⟨o, ho, hres, hskip, hno⟩ |
      ⟨header, f, q, haccept, hres⟩
  · obtain ⟨m, hm, j, hat, his, rfl, rfl, hle, hpar⟩ :=
      skipped_agrees hP hS h hauth hk hopens had
    rw [hres]
    refine .skipped hm hat his hle hpar ?_
    rw [← AList.lookup_isSome, hk]
    rfl
  · rw [hres]
    exact .refused ho hskip hno
  · obtain ⟨m, hm, j, hat, his, rfl, rfl, hf, ht, hchain, hle, hlimit⟩ :=
      chain_agrees hP hS h hauth haccept
    rw [hres]
    cases f with
    | false =>
      rw [recvNumber_false] at hchain hle hlimit
      rw [recvChain_false] at hchain
      exact receives_current env h hm his hat (hf rfl) haccept hchain hle hlimit
    | true =>
      rw [recvNumber_true, UInt32.toNat_zero] at hchain hlimit
      obtain rfl := ht rfl
      exact receives_next env h hm his hat haccept hchain (by omega)

/-- What `decrypt` leaves alone unless it performs a DH ratchet. -/
structure SameSending (st st' : RatchetState K) : Prop where
  dhPair : st'.dhPair = st.dhPair
  rk : st'.rk = st.rk
  ckS : st'.ckS = st.ckS
  nhkS : st'.nhkS = st.nhkS
  ns : st'.ns = st.ns
  pn : st'.pn = st.pn

/-- The sending side is left alone, or the DH ratchet turns. -/
theorem Receives.sameSending_or_ratchet {r : Outcome RatchetError Bytes × RatchetState K}
    (h : Receives P S b s p env encHeader ciphertext ad r) :
    SameSending (s.state p) r.2 ∨ ∃ m ∈ s.sent, SentAt S m (view p s.chains.length) ∧
      m.Is encHeader ciphertext ad ∧ ∃ mkskipped,
        r = (.ok m.plaintext, { ratcheted P env m.header (s.state p) with
          mkskipped, ckR := some (S.chainKey (view p s.chains.length) 1), nr := 1
          receivedMessages := {(m.header.dhPub, m.header.n)} }) := by
  cases h with
  | refused => exact .inl ⟨rfl, rfl, rfl, rfl, rfl, rfl⟩
  | skipped => exact .inl ⟨rfl, rfl, rfl, rfl, rfl, rfl⟩
  | current =>
    simp only [trackMessage]
    split <;> exact .inl ⟨rfl, rfl, rfl, rfl, rfl, rfl⟩
  | lost => exact .inl ⟨rfl, rfl, rfl, rfl, rfl, rfl⟩
  | ratchet hm hat his => exact .inr ⟨_, hm, hat, his, _, rfl⟩

/-! ### Decryption keeps the parties in step -/

omit [DecidableEq K] in
theorem SkippedAt.mono {v v' : ℕ} (hv : v ≤ v') (hpar : (v + v') % 2 = 0) {k : K × UInt32}
    {key : K} (h : SkippedAt S v k key) : SkippedAt S v' k key := by
  obtain ⟨j, hj, hj2, hk, hkey⟩ := h
  exact ⟨j, by omega, by omega, hk, hkey⟩

/-- What is stored of a chain of the peer is skipped there. -/
theorem Stores.skippedAt {v j a n : ℕ} {old new : SkippedKeyMap K}
    (h : Stores P (S.chainKey j a) (S.headerKey j) a n old new)
    (hold : ∀ k key, old.lookup k = some key → SkippedAt S v k key.mk)
    (hj : j + 2 ≤ v) (hpar : (j + v) % 2 = 0) :
    ∀ k key, new.lookup k = some key → SkippedAt S v k key.mk := by
  intro k key hk
  rcases h.sound k key hk with hk | ⟨hk1, ha, -, hkey⟩
  · exact hold k key hk
  · refine ⟨j, hj, hpar, hk1, ?_⟩
    rw [hkey, S.messageKey_chainKey, Nat.add_sub_cancel' ha]

/-- The state after the DH ratchet that opens chain `v` has view `v + 2`. -/
theorem Synced.ratchet (hP : Correct P) {v : ℕ} {st : RatchetState K} (h : Synced S v st)
    {header : RatchetHeader} (hdh : header.dhPub = S.pub (v + 1))
    (hlen : v + 2 ≤ S.length) (hfresh : S.secret (v + 2) = env.freshSecret)
    {mk₁ mk₂ : SkippedKeyMap K}
    (hprev : StoresPrevious S v st.nr.toNat header.pn.toNat st.mkskipped mk₁) {n : ℕ}
    (hstores : Stores P (S.chainKey v 0) (S.headerKey v) 0 n mk₁ mk₂)
    (received : Finset (DhPublicKey × UInt32)) :
    Synced S (v + 2) { ratcheted P env header st with
      mkskipped := mk₂, ckR := some (S.chainKey v 1), nr := 1
      receivedMessages := received } := by
  have hrecv : P.x25519DiffieHellman st.dhPair.1 header.dhPub = S.dhValue v := by
    rw [h.dhPair, hdh]
    exact S.dhValue_comm hP v
  have hsend : P.x25519DiffieHellman env.freshSecret header.dhPub = S.dhValue (v + 1) := by
    rw [hdh, ← hfresh]
    rfl
  have hskipped₁ : ∀ k key, mk₁.lookup k = some key → SkippedAt S v k key.mk := by
    rcases hprev with ⟨-, rfl⟩ | ⟨w, rfl, -, -, hst⟩
    · exact h.skipped
    · exact hst.skippedAt h.skipped (le_refl _) (by omega)
  have hroot : P.hkdfSha512 (S.rootKey v) (S.dhValue v) hkdfInfoRoot 0 = S.rootKey (v + 1) := rfl
  refine ⟨hlen, ?_, ?_, ?_, ?_, ?_, ?_, ⟨0, ?_, le_refl _, fun _ => rfl⟩, rfl, ?_⟩
  · dsimp only [ratcheted]
    rw [← hfresh]
    rfl
  · dsimp only [ratcheted]
    rw [h.rk, hrecv, hsend]
    rfl
  · dsimp only [ratcheted]
    rw [h.rk, hrecv, hsend]
    rfl
  · dsimp only [ratcheted]
    rw [h.rk, hrecv]
    rfl
  · exact congrArg some h.nhkS
  · exact congrArg some h.nhkR
  · dsimp only [ratcheted]
    rw [h.rk, hrecv, hsend]
    rfl
  · exact hstores.skippedAt (fun k key hk => (hskipped₁ k key hk).mono (by omega) (by omega))
      (le_refl _) (by omega)

/-- A DH ratchet of party `p`, which starts the next chain. -/
theorem Sync.updateRatchet (hS : S.KdfSeparates) (h : Sync S s) {st : RatchetState K}
    (hlast : view p s.chains.length + 1 = s.chains.length)
    (hst : Synced S (view p s.chains.length + 2) st) {s' : Session K}
    (hstate : s'.state = Function.update s.state p st) (hsent : s'.sent = s.sent)
    (hchains : s'.chains = s.chains ++ [S.chain s.chains.length]) : Sync S s' := by
  obtain ⟨hviewp, hviewq⟩ := view_succ h.pos hlast
  have hlen : s'.chains.length = s.chains.length + 1 := by
    rw [hchains]
    simp
  refine ⟨by omega, fun j c hc => ?_, fun q => ?_, fun m hm => ?_, fun m hm j hj hcur => ?_, ?_⟩
  · rw [hchains] at hc
    by_cases hj : j < s.chains.length
    · rw [List.getElem?_append_left hj] at hc
      exact h.chains j c hc
    · rw [List.getElem?_append_right (not_lt.mp hj)] at hc
      have hj' : j = s.chains.length := by
        have := (List.getElem?_eq_some_iff.mp hc).1
        simp only [List.length_singleton] at this
        omega
      subst hj'
      simpa [eq_comm] using hc
  · rw [hlen, hstate]
    rcases Party.eq_or_eq_peer p q with rfl | rfl
    · rw [Function.update_self, hviewp]
      exact hst
    · rw [Function.update_of_ne (Party.peer_ne p), hviewq]
      exact h.state p.peer
  · rw [hsent] at hm
    obtain ⟨j, hj, hmj⟩ := h.sent m hm
    exact ⟨j, by omega, hmj⟩
  · rw [hsent] at hm
    rw [hlen] at hcur
    have hjlt := h.length_lt hS hm hj
    rcases Party.eq_or_eq_peer p m.owner with hq | hq
    · rw [hq, hviewp] at hcur
      omega
    · rw [hq, hviewq, ← hq] at hcur
      have hlt := h.current m hm j hj hcur
      rw [hstate, Function.update_of_ne (hq ▸ Party.peer_ne p)]
      exact hlt
  · rw [hsent]
    exact h.distinct

/-- The chain that the DH ratchet starts. -/
theorem decrypt_chains_ratchet (hP : Correct P) (hS : S.KdfSeparates) (h : Sync S s)
    {m : Sealed K} (hat : SentAt S m (view p s.chains.length)) {o : Outcome RatchetError Bytes}
    {st : RatchetState K}
    (hres : Ratchet.decrypt P b env encHeader ciphertext ad (s.state p) = (o, st))
    (hck : st.ckS = (ratcheted P env m.header (s.state p)).ckS)
    (hhk : st.hkS = (ratcheted P env m.header (s.state p)).hkS)
    (hdh : st.dhPair = (ratcheted P env m.header (s.state p)).dhPair) :
    (s.decrypt P b p env encHeader ciphertext ad).chains = s.chains ++
      [{ owner := p
         hk := S.headerKey (view p s.chains.length + 1)
         ck := P.hkdfSha512 (S.rootKey (view p s.chains.length + 1))
           (P.x25519DiffieHellman env.freshSecret m.header.dhPub) hkdfInfoRoot 1
         secret := env.freshSecret }] := by
  have hp := h.state p
  have hrecv : P.x25519DiffieHellman (s.state p).dhPair.1 m.header.dhPub
      = S.dhValue (view p s.chains.length) := by
    rw [hp.dhPair, hat.dhPub]
    exact S.dhValue_comm hP _
  have hckS : st.ckS = some (P.hkdfSha512 (S.rootKey (view p s.chains.length + 1))
      (P.x25519DiffieHellman env.freshSecret m.header.dhPub) hkdfInfoRoot 1) := by
    rw [hck]
    dsimp only [ratcheted]
    rw [hp.rk, hrecv]
    rfl
  have hhkS : st.hkS = some (S.headerKey (view p s.chains.length + 1)) := by
    rw [hhk, ← hp.nhkS]
    rfl
  have hne : st.hkS ≠ (s.state p).hkS := by
    rw [hhkS, hp.hkS]
    intro heq
    obtain ⟨w, hw, heq⟩ := S.sendHeaderKey_eq_some.mp heq.symm
    have hlen := hp.le_length
    have := Schedule.headerKey_inj hS (Nat.succ_le_succ hlen) (by omega) heq
    omega
  have hchains : (s.decrypt P b p env encHeader ciphertext ad).chains
      = s.chains ++ sendingChain p st := by
    simp only [Session.decrypt, hres, if_neg hne]
  rw [hchains, sendingChain, hhkS, hckS, hdh]
  rfl

/-- The root key of a state tells its view. -/
theorem Sync.view_eq_of_rk (hS : S.KdfSeparates) (h : Sync S s) {s' : Session K}
    (h' : Sync S s') (hrk : (s'.state p).rk = (s.state p).rk) :
    view p s'.chains.length = view p s.chains.length := by
  rw [(h'.state p).rk, (h.state p).rk] at hrk
  exact Schedule.rootKey_inj hS (h'.state p).le_length (h.state p).le_length hrk

/-- So does its receiving header key. -/
theorem Sync.view_eq_of_hkR (hS : S.KdfSeparates) (h : Sync S s) {w : ℕ} (hw : w ≤ S.length + 1)
    (hhk : (s.state p).hkR = some (S.headerKey w)) : view p s.chains.length = w + 2 := by
  obtain ⟨w', hv, heq⟩ := S.recvHeaderKey_eq_some.mp ((h.state p).hkR.symm.trans hhk)
  have hlen := (h.state p).le_length
  rw [hv, Schedule.headerKey_inj hS hw (by omega) heq]

/-- A DH ratchet moves the view by two. -/
theorem Sync.view_of_ratchet (hS : S.KdfSeparates) (h : Sync S s) {s' : Session K}
    (h' : Sync S s') (hhk : (s'.state p).hkR = some (s.state p).nhkR) :
    view p s'.chains.length = view p s.chains.length + 2 :=
  h'.view_eq_of_hkR hS (Nat.le_succ_of_le (h.state p).le_length)
    (hhk.trans (congrArg some (h.state p).nhkR))

theorem Session.decrypt_state_self {o : Outcome RatchetError Bytes} {st : RatchetState K}
    (hres : Ratchet.decrypt P b env encHeader ciphertext ad (s.state p) = (o, st)) :
    (s.decrypt P b p env encHeader ciphertext ad).state p = st := by
  rw [Session.decrypt_state hres, Function.update_self]

theorem Session.decrypt_state_of_ne {q : Party} (hq : q ≠ p) :
    (s.decrypt P b p env encHeader ciphertext ad).state q = s.state q :=
  Function.update_of_ne hq _ _

theorem Sync.view_decrypt_of_ne (hS : S.KdfSeparates) (h : Sync S s)
    (hafter : Sync S (s.decrypt P b p env encHeader ciphertext ad)) {q : Party} (hq : q ≠ p) :
    view q (s.decrypt P b p env encHeader ciphertext ad).chains.length
      = view q s.chains.length :=
  h.view_eq_of_rk hS hafter (by rw [Session.decrypt_state_of_ne hq])

/-- A delivery that turns the DH ratchet keeps both parties in step. -/
theorem Sync.decryptRatchet (hP : Correct P) (hS : S.KdfSeparates) (h : Sync S s)
    {sk : K} {bob : DhPrivateKey}
    (hagrees : Agrees S sk bob (s.decrypt P b p env encHeader ciphertext ad)) {m : Sealed K}
    (hm : m ∈ s.sent) (hat : SentAt S m (view p s.chains.length)) {mk₁ mk₂ : SkippedKeyMap K}
    (hprev : StoresPrevious S (view p s.chains.length) (s.state p).nr.toNat m.header.pn.toNat
      (s.state p).mkskipped mk₁)
    (hstores : Stores P (S.chainKey (view p s.chains.length) 0)
      (S.headerKey (view p s.chains.length)) 0 m.header.n.toNat mk₁ mk₂)
    {o : Outcome RatchetError Bytes} {st : RatchetState K}
    (hst : st = { ratcheted P env m.header (s.state p) with
      mkskipped := mk₂, ckR := some (S.chainKey (view p s.chains.length) 1), nr := 1
      receivedMessages := {(m.header.dhPub, m.header.n)} })
    (hres : Ratchet.decrypt P b env encHeader ciphertext ad (s.state p) = (o, st)) :
    Sync S (s.decrypt P b p env encHeader ciphertext ad) := by
  have hlast : view p s.chains.length + 1 = s.chains.length := by
    have := h.length_lt hS hm hat
    have := view_le p s.chains.length
    omega
  have hchains := decrypt_chains_ratchet hP hS h hat hres (by rw [hst]) (by rw [hst])
    (by rw [hst])
  have hsecret : S.secret (s.chains.length + 1) = env.freshSecret := by
    have hget := congrArg (·[s.chains.length]?) hchains
    rw [List.getElem?_concat_length] at hget
    exact hagrees.secret s.chains.length _ hget
  have hfresh : S.secret (view p s.chains.length + 2) = env.freshSecret := by
    rw [← hsecret]
    exact congrArg (fun i => S.secret (i + 1)) hlast
  have hlen : view p s.chains.length + 2 ≤ S.length := by
    have := hagrees.le_length
    rw [hchains, List.length_append, List.length_singleton] at this
    omega
  refine h.updateRatchet hS hlast ?_ (Session.decrypt_state hres) rfl ?_
  · rw [hst]
    exact (h.state p).ratchet hP hat.dhPub hlen hfresh hprev hstores _
  · have hsend : P.x25519DiffieHellman env.freshSecret m.header.dhPub
        = S.dhValue (view p s.chains.length + 1) := by
      rw [hat.dhPub, ← hfresh]
      rfl
    have howner : partyOf s.chains.length = p := (partyOf_eq_self h.pos).mpr (by omega)
    rw [hchains, hsend, hlast]
    simp only [Schedule.chain, howner, hsecret]
    rfl

/-- **`decrypt` keeps both parties in step**, whatever is delivered. -/
theorem Sync.decrypt (hP : Correct P) (hS : S.KdfSeparates) (h : Sync S s)
    (hauth : AuthenticCall P b s p encHeader ciphertext ad) {sk : K} {bob : DhPrivateKey}
    (hagrees : Agrees S sk bob (s.decrypt P b p env encHeader ciphertext ad)) :
    Sync S (s.decrypt P b p env encHeader ciphertext ad) := by
  have hp := h.state p
  have hrec := receives env hP hS h hauth
  -- outside the DH ratchet the sending side does not change
  have hquiet : ∀ {o st}, Ratchet.decrypt P b env encHeader ciphertext ad (s.state p) = (o, st) →
      Synced S (view p s.chains.length) st → st.ns = (s.state p).ns →
      st.hkS = (s.state p).hkS → Sync S (s.decrypt P b p env encHeader ciphertext ad) := by
    intro o st hres hst hns hhk
    exact h.update hst (by rw [hns]) (Session.decrypt_state hres) rfl
      (Session.decrypt_chains hres hhk)
  generalize hres : Ratchet.decrypt P b env encHeader ciphertext ad (s.state p) = r at hrec
  cases hrec with
  | refused => exact hquiet hres hp rfl rfl
  | @skipped m j hm hat his hle hpar hstored =>
    refine hquiet hres ⟨hp.le_length, hp.dhPair, hp.rk, hp.nhkS, hp.nhkR, hp.hkS, hp.hkR, hp.ckS,
      hp.ckR, ?_⟩ rfl rfl
    intro k key hk
    by_cases hke : k = (S.headerKey j, m.header.n)
    · rw [hke, AList.lookup_erase] at hk
      cases hk
    · rw [AList.lookup_erase_ne hke] at hk
      exact hp.skipped k key hk
  | @current m j mkskipped nr hm hat his haccept hview hle hstores hnr =>
    have hst : ∀ received, Synced S (view p s.chains.length) { s.state p with
        mkskipped, ckR := some (S.chainKey j nr.toNat), nr, receivedMessages := received } := by
      intro received
      refine ⟨hp.le_length, hp.dhPair, hp.rk, hp.nhkS, hp.nhkR, hp.hkS, hp.hkR, hp.ckS, ?_,
        hstores.skippedAt hp.skipped hview.le (by omega)⟩
      rw [← hview]
      rfl
    simp only [trackMessage] at hres
    split at hres
    · exact hquiet hres (hst _) rfl rfl
    · exact hquiet hres (hst _) rfl rfl
  | lost hm hat his haccept hrecv hrange =>
    exact hquiet hres ⟨hp.le_length, hp.dhPair, hp.rk, hp.nhkS, hp.nhkR, hp.hkS, hp.hkR, hp.ckS,
      hp.ckR, fun k key hk => by cases hk⟩ rfl rfl
  | ratchet hm hat his haccept hprev hstores =>
    exact h.decryptRatchet hP hS hagrees hm hat hprev hstores rfl hres

/-- The chains of a session are a prefix of those after any event. -/
theorem chains_prefix_step (s : Session K) (e : Event K) :
    s.chains <+: (s.step P b e).chains := by
  cases e with
  | encrypt p plaintext ad =>
    rw [Session.step, (Session.encrypt_frame s p plaintext ad).2.2.1]
  | decrypt p env encHeader ciphertext ad =>
    simp only [Session.step, Session.decrypt]
    split
    · exact List.prefix_rfl
    · exact List.prefix_append _ _

theorem Agrees.of_step {sk : K} {bob : DhPrivateKey} {e : Event K}
    (h : Agrees S sk bob (s.step P b e)) : Agrees S sk bob s := by
  have hpre := chains_prefix_step (P := P) (b := b) s e
  refine ⟨hpre.length_le.trans h.le_length, h.sk, h.bob, fun j c hc => h.secret j c ?_⟩
  obtain ⟨hj, hget⟩ := List.getElem?_eq_some_iff.mp hc
  exact List.getElem?_eq_some_iff.mpr
    ⟨hj.trans_le hpre.length_le, (hpre.getElem hj).symm.trans hget⟩

theorem Agrees.of_run {sk : K} {bob : DhPrivateKey} {es : List (Event K)}
    (h : Agrees S sk bob (Machine.run (Session.step P b) s es)) : Agrees S sk bob s := by
  induction es generalizing s with
  | nil => exact h
  | cons e es ih => exact (ih h).of_step

/-- The schedule of the end of a run is that of all its states. -/
theorem Agrees.along {sk : K} {bob : DhPrivateKey} {es : List (Event K)}
    (h : Agrees S sk bob (Machine.run (Session.step P b) s es)) :
    Machine.Along (Session.step P b) (fun s e => Agrees S sk bob (s.step P b e)) s es := by
  induction es generalizing s with
  | nil => trivial
  | cons e es ih =>
    have hrest : Agrees S sk bob (Machine.run (Session.step P b) (s.step P b e) es) := h
    exact ⟨hrest.of_run, ih hrest⟩

/-- **Both parties stay in step** in every run over an arbitrary network. -/
theorem Reachable.sync (hP : Correct P) {sk : K} {bob : DhPrivateKey} (hS : S.KdfSeparates)
    (h : Reachable P b sk bob (Authentic P b) s) (hagrees : Agrees S sk bob s) : Sync S s := by
  refine h.invariant (I := fun s => Agrees S sk bob s → Sync S s)
    (fun dhS s₀ h₀ hagrees => Sync.start h₀ hagrees) (fun s e _ ih he hagrees => ?_) hagrees
  cases e with
  | encrypt p plaintext ad => exact (ih hagrees.of_step).encrypt hS p plaintext ad
  | decrypt p env encHeader ciphertext ad =>
    exact (ih hagrees.of_step).decrypt hP hS he hagrees

/-- **The invariant rule for synchronised sessions**: the step may use that both
parties are in step before and after it. -/
theorem Reachable.sync_invariant (hP : Correct P) {sk : K} {bob : DhPrivateKey}
    (hS : S.KdfSeparates) {G : Session K → Event K → Prop}
    (hG : ∀ s e, G s e → Authentic P b s e) {I : Session K → Prop}
    (hstart : ∀ dhS s₀, Session.start P sk bob dhS = .ok s₀ → Sync S s₀ → I s₀)
    (hstep : ∀ s e, Reachable P b sk bob G s → Sync S s → Sync S (s.step P b e) → I s → G s e →
      I (s.step P b e))
    (h : Reachable P b sk bob G s) (hagrees : Agrees S sk bob s) : I s := by
  refine h.invariant (I := fun s => Agrees S sk bob s → I s)
    (fun dhS s₀ h₀ hagrees => hstart dhS s₀ h₀ (Sync.start h₀ hagrees))
    (fun s e hreach ih he hagrees => ?_) hagrees
  have hauth := hreach.mono hG
  exact hstep s e hreach (hauth.sync hP hS hagrees.of_step)
    ((hauth.step (hG s e he)).sync hP hS hagrees) (ih hagrees.of_step) he

end Ratchet
