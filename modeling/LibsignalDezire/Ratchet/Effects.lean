/-
What one call of `encrypt` and of `decrypt` can do.

The operations are taken apart once, here; every later invariant is proved from
these case analyses and never unfolds an operation again.

* `encrypt_cases` — the five outcomes of `encrypt`, with the state each leaves;
* `computeMessageKey_eq` — the key `decrypt` computes, as a chain position;
* `commitStateChanges_false`, `commitStateChanges_true` — the commit without
  and with a DH ratchet;
* `decrypt_cases` — an answer from the skipped keys, a refusal that leaves the
  state alone, or an authenticated header that goes to the commit.
-/
import LibsignalDezire.Ratchet.Session

namespace Ratchet

variable {K : Type} [DecidableEq K] (P : Primitives K)

/-! ### Encryption -/

/-- The header of the next message. -/
def nextHeader (s : RatchetState K) : RatchetHeader :=
  { dhPub := s.dhPair.2, pn := s.pn, n := s.ns }

/-- The encrypted header of the next message, under the header key `hk`. -/
def nextEncHeader (s : RatchetState K) (hk : K) : Bytes :=
  sealHeader P hk (headerNonce s.isSender s.headerNonceCounter) (nextHeader s)

/-- The ciphertext of the next message. -/
def nextCiphertext (s : RatchetState K) (hk ck : K) (plaintext ad : Bytes) : Bytes :=
  sealMessage P (kdfCk P ck).2 plaintext (concatAd ad (nextEncHeader P s hk))

/-- The keys `encrypt` asks for are all there. -/
def CanSend (s : RatchetState K) : Prop :=
  s.ckS.isSome ∧ s.hkS.isSome ∧ s.dhRemote.isSome

omit [DecidableEq K] in
theorem validateEncryptionState_eq (s : RatchetState K) :
    (CanSend s ∧ validateEncryptionState s = .ok ⟨⟩) ∨
      (¬ CanSend s ∧ validateEncryptionState s = .err .invalidState) := by
  unfold CanSend validateEncryptionState
  cases s.ckS <;> cases s.hkS <;> cases s.dhRemote <;> simp

omit [DecidableEq K] in
/-- **The outcomes of `encrypt`.**  It refuses and leaves the state alone, runs
out of message numbers after stepping the chain, runs out of nonces after
counting the message, or returns a message. -/
theorem encrypt_cases (s : RatchetState K) (plaintext ad : Bytes) :
    (¬ CanSend s ∧ encrypt P plaintext ad s = (.err .invalidState, s)) ∨
    (CanSend s ∧ maxAdSize < ad.length ∧
      encrypt P plaintext ad s = (.err .adTooLarge, s)) ∨
    ∃ ck hk, s.ckS = some ck ∧ s.hkS = some hk ∧ s.dhRemote.isSome ∧
      ad.length ≤ maxAdSize ∧
      ((checkedAdd32 s.ns 1 = none ∧ encrypt P plaintext ad s =
          (.err .counterOverflow, { s with ckS := some (kdfCk P ck).1 })) ∨
        ∃ ns, checkedAdd32 s.ns 1 = some ns ∧
          ((checkedAdd64 s.headerNonceCounter 1 = none ∧ encrypt P plaintext ad s =
              (.err .counterOverflow, { s with ckS := some (kdfCk P ck).1, ns })) ∨
            ∃ c, checkedAdd64 s.headerNonceCounter 1 = some c ∧ encrypt P plaintext ad s =
              (.ok (nextEncHeader P s hk, nextCiphertext P s hk ck plaintext ad),
                { s with ckS := some (kdfCk P ck).1, ns, headerNonceCounter := c }))) := by
  rcases validateEncryptionState_eq s with ⟨hsend, hval⟩ | ⟨hsend, hval⟩
  · by_cases had : maxAdSize < ad.length
    · refine .inr (.inl ⟨hsend, had, ?_⟩)
      simp [encrypt, Exec.bind_apply, hval, had]
    · obtain ⟨⟨ck, hck⟩, ⟨hk, hhk⟩, hrem⟩ :
          (∃ ck, s.ckS = some ck) ∧ (∃ hk, s.hkS = some hk) ∧ s.dhRemote.isSome :=
        ⟨Option.isSome_iff_exists.mp hsend.1, Option.isSome_iff_exists.mp hsend.2.1, hsend.2.2⟩
      refine .inr (.inr ⟨ck, hk, hck, hhk, hrem, not_lt.mp had, ?_⟩)
      cases hns : checkedAdd32 s.ns 1 with
      | none =>
        exact .inl ⟨rfl, by simp [encrypt, Exec.bind_apply, hval, had, hck, hns]⟩
      | some ns =>
        refine .inr ⟨ns, rfl, ?_⟩
        have hhk' : ({ s with ckS := some (kdfCk P ck).1, ns } : RatchetState K).hkS
          = some hk := hhk
        have henc := encryptHeader_eq P (nextHeader s) hhk'
        dsimp only at henc
        cases hc : checkedAdd64 s.headerNonceCounter 1 with
        | none =>
          rw [hc] at henc
          refine .inl ⟨rfl, ?_⟩
          simp only [encrypt, Exec.bind_apply, Exec.get_apply, Exec.lift_apply, hval, had,
            if_false, Exec.pure_apply, hck, Outcome.expect_some, Exec.put_apply, hns,
            Outcome.okOr_some]
          simp only [nextHeader] at henc
          rw [henc]
        | some c =>
          rw [hc] at henc
          refine .inr ⟨c, rfl, ?_⟩
          simp only [encrypt, Exec.bind_apply, Exec.get_apply, Exec.lift_apply, hval, had,
            if_false, Exec.pure_apply, hck, Outcome.expect_some, Exec.put_apply, hns,
            Outcome.okOr_some]
          simp only [nextHeader] at henc
          rw [henc]
          rfl
  · refine .inl ⟨hsend, ?_⟩
    simp [encrypt, Exec.bind_apply, hval]

/-! ### The key of a message -/

omit [DecidableEq K] in
/-- The loop walks the chain up to the number asked for; its counter cannot
overflow. -/
theorem chainLoop_eq (b : Build) (n : UInt32) :
    ∀ (fuel : ℕ) (ck : K) (nr : UInt32), fuel = n.toNat - nr.toNat →
      chainLoop P b n fuel ck nr = .ok (advance P ck fuel) := by
  intro fuel
  induction fuel with
  | zero => exact fun ck nr _ => rfl
  | succ fuel ih =>
    intro ck nr hfuel
    have hn := n.toNat_lt
    have h1 : (1 : UInt32).toNat = 1 := rfl
    have hlt : nr < n := UInt32.lt_iff_toNat_lt.mpr (by omega)
    have hnr : (nr + 1).toNat = nr.toNat + 1 := toNat_add_of_lt (by omega)
    rw [chainLoop, if_pos hlt, Build.add_of_lt (by omega)]
    simp only [Outcome.ok_bind]
    rw [ih _ _ (by omega), advance_succ]

/-- The chain key a message is looked up from: the receiving chain, or the chain
that the DH ratchet would start. -/
def recvChain (s : RatchetState K) (header : RatchetHeader) (dhRatchet : Bool) : Option K :=
  if dhRatchet then
    some (P.hkdfSha512 s.rk (P.x25519DiffieHellman s.dhPair.1 header.dhPub) hkdfInfoRoot 1)
  else s.ckR

omit [DecidableEq K] in
/-- The number of the next message of that chain. -/
def recvNumber (s : RatchetState K) (dhRatchet : Bool) : UInt32 :=
  if dhRatchet then 0 else s.nr

omit [DecidableEq K] in
@[simp] theorem recvNumber_false (s : RatchetState K) : recvNumber s false = s.nr := rfl

omit [DecidableEq K] in
@[simp] theorem recvNumber_true (s : RatchetState K) : recvNumber s true = 0 := rfl

omit [DecidableEq K] in
@[simp] theorem recvChain_false (s : RatchetState K) (header : RatchetHeader) :
    recvChain P s header false = s.ckR := rfl

omit [DecidableEq K] in
theorem computeMessageKey_eq (b : Build) (s : RatchetState K) (header : RatchetHeader)
    (f : Bool) :
    computeMessageKey P b s header f = (do
      let limit ← b.add (recvNumber s f) maxSkip
      if limit < header.n then .err .oldMessageKeysLimitReached
      else do
        let ck ← Outcome.okOr .invalidKey (recvChain P s header f)
        .ok (messageKey P ck (header.n.toNat - (recvNumber s f).toNat))) := by
  have hloop : ∀ (ck : K) (nr : UInt32),
      chainLoop P b header.n (header.n.toNat - nr.toNat) ck nr
        = .ok (advance P ck (header.n.toNat - nr.toNat)) :=
    fun ck nr => chainLoop_eq P b header.n _ ck nr rfl
  cases f <;>
    simp [computeMessageKey, recvChain, recvNumber, messageKey, hloop]

omit [DecidableEq K] in
/-- A key that is computed is the key of the header's number, or of the next
expected number when the header's is below it. -/
theorem computeMessageKey_eq_ok {b : Build} {s : RatchetState K} {header : RatchetHeader}
    {f : Bool} {mk : K} (h : computeMessageKey P b s header f = .ok mk) :
    ∃ ck, recvChain P s header f = some ck ∧
      mk = messageKey P ck (header.n.toNat - (recvNumber s f).toNat) ∧
      header.n.toNat ≤ (recvNumber s f).toNat + maxSkip.toNat ∧
      (2 ^ 32 ≤ (recvNumber s f).toNat + maxSkip.toNat →
        header.n.toNat < (recvNumber s f).toNat) := by
  rw [computeMessageKey_eq, Outcome.bind_eq_ok] at h
  obtain ⟨limit, hlimit, h⟩ := h
  split at h
  case isTrue => cases h
  case isFalse hle =>
    rw [Outcome.bind_eq_ok] at h
    obtain ⟨ck, hck, h⟩ := h
    have hchain : recvChain P s header f = some ck := by
      cases hc : recvChain P s header f with
      | none =>
        rw [hc] at hck
        cases hck
      | some ck' =>
        rw [hc, Outcome.okOr_some] at hck
        cases hck
        rfl
    refine ⟨ck, hchain, ?_, ?_⟩
    · cases h
      rfl
    · rw [UInt32.lt_iff_toNat_lt, not_lt] at hle
      have hmax : maxSkip.toNat = 1000 := rfl
      have hnr := (recvNumber s f).toNat_lt
      have hlim : limit.toNat = ((recvNumber s f).toNat + maxSkip.toNat) % 2 ^ 32 := by
        rw [Build.add_eq_ok hlimit, UInt32.toNat_add]
      rw [hlim, hmax] at hle
      rw [hmax]
      omega

omit [DecidableEq K] in
theorem computeMessageKey_of_le {b : Build} {s : RatchetState K} {header : RatchetHeader}
    {f : Bool} {ck : K} (hck : recvChain P s header f = some ck)
    (hnr : (recvNumber s f).toNat + maxSkip.toNat < 2 ^ 32)
    (hn : header.n.toNat ≤ (recvNumber s f).toNat + maxSkip.toNat) :
    computeMessageKey P b s header f
      = .ok (messageKey P ck (header.n.toNat - (recvNumber s f).toNat)) := by
  have hle : ¬ recvNumber s f + maxSkip < header.n := by
    rw [UInt32.lt_iff_toNat_lt, toNat_add_of_lt hnr]
    omega
  rw [computeMessageKey_eq, Build.add_of_lt hnr]
  simp [hck, hle]

omit [DecidableEq K] in
/-- On a chain not begun the number itself is within the limit. -/
theorem computeMessageKey_of_new {b : Build} {s : RatchetState K} {header : RatchetHeader}
    {ck : K} (hck : recvChain P s header true = some ck)
    (hn : header.n.toNat ≤ maxSkip.toNat) :
    computeMessageKey P b s header true = .ok (messageKey P ck header.n.toNat) := by
  have hzero : (recvNumber s true).toNat = 0 := rfl
  have hmax : maxSkip.toNat = 1000 := rfl
  rw [computeMessageKey_of_le P hck (by omega) (by omega), hzero, Nat.sub_zero]

omit [DecidableEq K] in
theorem computeMessageKey_of_limit {b : Build} {s : RatchetState K} {header : RatchetHeader}
    {f : Bool} (hn : (recvNumber s f).toNat + maxSkip.toNat < header.n.toNat) :
    computeMessageKey P b s header f = .err .oldMessageKeysLimitReached := by
  have hlt := header.n.toNat_lt
  have hle : recvNumber s f + maxSkip < header.n := by
    rw [UInt32.lt_iff_toNat_lt, toNat_add_of_lt (by omega)]
    exact hn
  rw [computeMessageKey_eq, Build.add_of_lt (by omega)]
  simp [hle]

omit [DecidableEq K] in
theorem computeMessageKey_of_overflow {s : RatchetState K} (header : RatchetHeader)
    (hge : 2 ^ 32 ≤ s.nr.toNat + maxSkip.toNat) :
    computeMessageKey P .dev s header false = .panic := by
  rw [computeMessageKey_eq, recvNumber_false, Build.add, if_neg (not_lt.mpr hge)]
  rfl

omit [DecidableEq K] in
/-- Only the sum of the skip-limit test can abort, in a `dev` build. -/
theorem computeMessageKey_eq_panic {b : Build} {s : RatchetState K} {header : RatchetHeader}
    {f : Bool} (h : computeMessageKey P b s header f = .panic) :
    b = .dev ∧ f = false ∧ 2 ^ 32 ≤ s.nr.toNat + maxSkip.toNat := by
  rw [computeMessageKey_eq, Outcome.bind_eq_panic] at h
  rcases h with h | ⟨limit, -, h⟩
  · unfold Build.add at h
    split at h
    · cases h
    · rename_i hge
      cases b with
      | release => cases h
      | dev =>
        cases f with
        | true => exact absurd (show (0 : UInt32).toNat + maxSkip.toNat < 2 ^ 32 by decide) hge
        | false => exact ⟨rfl, rfl, not_lt.mp hge⟩
  · split at h
    · cases h
    · cases hchain : recvChain P s header f with
      | none =>
        rw [hchain] at h
        cases h
      | some ck =>
        rw [hchain] at h
        cases h

/-! ### The commit -/

theorem storeSkipped_some (env : CallEnv K) (call : ℕ) (toN : UInt32) {s : RatchetState K}
    {ck hk : K} (hck : s.ckR = some ck) (hhk : s.hkR = some hk) :
    storeSkipped P env call toN s =
      match skipMessageKeys P env.hashOrder (env.clock call) s.mkskipped ck hk s.nr toN with
      | .ok m => (.ok ⟨⟩, { s with mkskipped := m })
      | .err e => (.err e, { s with mkskipped := ∅ })
      | .panic => (.panic, { s with mkskipped := ∅ }) := by
  simp only [storeSkipped, Exec.bind_apply, Exec.get_apply, hck, hhk, Exec.put_apply,
    Exec.lift_apply]
  cases skipMessageKeys P env.hashOrder (env.clock call) s.mkskipped ck hk s.nr toN <;> rfl

theorem storeSkipped_none (env : CallEnv K) (call : ℕ) (toN : UInt32) {s : RatchetState K}
    (h : s.ckR = none ∨ s.hkR = none) : storeSkipped P env call toN s = (.ok ⟨⟩, s) := by
  simp only [storeSkipped, Exec.bind_apply, Exec.get_apply]
  rcases h with h | h
  · rw [h]
    rfl
  · rw [h]
    cases s.ckR <;> rfl

/-- With a receiving chain in place the skip loop is run, and the map is lost with
its error. -/
theorem storeSkipped_cases (env : CallEnv K) (call : ℕ) (toN : UInt32) (s : RatchetState K) :
    storeSkipped P env call toN s = (.ok ⟨⟩, s) ∨
    ∃ ck hk, s.ckR = some ck ∧ s.hkR = some hk ∧
      ((∃ m, skipMessageKeys P env.hashOrder
        (env.clock call) s.mkskipped ck hk s.nr toN = .ok m ∧
          storeSkipped P env call toN s = (.ok ⟨⟩, { s with mkskipped := m })) ∨
        ∃ e, skipMessageKeys P env.hashOrder
          (env.clock call) s.mkskipped ck hk s.nr toN = .err e ∧
          storeSkipped P env call toN s = (.err e, { s with mkskipped := ∅ })) := by
  rcases Option.eq_none_or_eq_some s.ckR with hck | ⟨ck, hck⟩
  · exact .inl (storeSkipped_none P env call toN (.inl hck))
  rcases Option.eq_none_or_eq_some s.hkR with hhk | ⟨hk, hhk⟩
  · exact .inl (storeSkipped_none P env call toN (.inr hhk))
  refine .inr ⟨ck, hk, hck, hhk, ?_⟩
  rw [storeSkipped_some P env call toN hck hhk]
  cases hskip : skipMessageKeys P env.hashOrder (env.clock call) s.mkskipped ck hk s.nr toN with
  | ok m => exact .inl ⟨m, rfl, rfl⟩
  | err e => exact .inr ⟨e, rfl, rfl⟩
  | panic => exact absurd hskip (skipMessageKeys_returns P _ _ _ _ _ _ _)

/-- However it ends, `storeSkipped` changes nothing but the map. -/
theorem storeSkipped_state (env : CallEnv K) (call : ℕ) (toN : UInt32) (s : RatchetState K) :
    ∃ mkskipped, (storeSkipped P env call toN s).2 = { s with mkskipped } := by
  rcases storeSkipped_cases P env call toN s with
    hres | ⟨ck, hk, -, -, ⟨m, -, hres⟩ | ⟨e, -, hres⟩⟩
  · exact ⟨s.mkskipped, by rw [hres]⟩
  · exact ⟨m, by rw [hres]⟩
  · exact ⟨∅, by rw [hres]⟩

/-- The state after the DH ratchet on the header. -/
def ratcheted (env : CallEnv K) (header : RatchetHeader) (s : RatchetState K) :
    RatchetState K :=
  let dhRecv := P.x25519DiffieHellman s.dhPair.1 header.dhPub
  let dhSend := P.x25519DiffieHellman env.freshSecret header.dhPub
  let rk := P.hkdfSha512 s.rk dhRecv hkdfInfoRoot 0
  { s with
    pn := s.ns, ns := 0, nr := 0, hkS := some s.nhkS, hkR := some s.nhkR,
    dhRemote := some header.dhPub
    rk := P.hkdfSha512 rk dhSend hkdfInfoRoot 0
    ckR := some (P.hkdfSha512 s.rk dhRecv hkdfInfoRoot 1)
    nhkR := P.hkdfSha512 s.rk dhRecv hkdfInfoRoot 2
    ckS := some (P.hkdfSha512 rk dhSend hkdfInfoRoot 1)
    nhkS := P.hkdfSha512 rk dhSend hkdfInfoRoot 2
    dhPair := (env.freshSecret, P.x25519PublicKey env.freshSecret)
    receivedMessages := ∅ }

omit [DecidableEq K] in
theorem performDhRatchet_eq (env : CallEnv K) (header : RatchetHeader) (s : RatchetState K) :
    performDhRatchet P env header s = (.ok ⟨⟩, ratcheted P env header s) := rfl

/-- The commit on a receiving chain that is in place. -/
theorem commitStateChanges_false (env : CallEnv K) (header : RatchetHeader)
    {s : RatchetState K} {ck hk : K} (hck : s.ckR = some ck) (hhk : s.hkR = some hk) :
    commitStateChanges P env header false s =
      match skipMessageKeys P env.hashOrder (env.clock 1) s.mkskipped ck hk s.nr header.n with
      | .ok m =>
        (match checkedAdd32 s.nr 1 with
        | some nr => (.ok ⟨⟩, { s with mkskipped := m, ckR := some (kdfCk P ck).1, nr })
        | none =>
          (.err .counterOverflow, { s with mkskipped := m, ckR := some (kdfCk P ck).1 }))
      | .err e => (.err e, { s with mkskipped := ∅ })
      | .panic => (.panic, { s with mkskipped := ∅ }) := by
  simp only [commitStateChanges, Exec.bind_apply, if_false,
    storeSkipped_some P env 1 header.n hck hhk, Bool.false_eq_true]
  cases skipMessageKeys P env.hashOrder (env.clock 1) s.mkskipped ck hk s.nr header.n with
  | ok m =>
    simp only [Exec.get_apply, hck, Outcome.expect_some, Exec.lift_apply, Exec.put_apply]
    cases checkedAdd32 s.nr 1 <;> rfl
  | err e => rfl
  | panic => rfl

/-- However it ends, the commit without a DH ratchet changes the map, the receiving
chain and its number. -/
theorem commitStateChanges_false_state (env : CallEnv K) (header : RatchetHeader)
    (s : RatchetState K) :
    ∃ mkskipped ckR nr, (ckR.isSome ↔ s.ckR.isSome) ∧
      (commitStateChanges P env header false s).2 = { s with mkskipped, ckR, nr } := by
  obtain ⟨m, hm⟩ := storeSkipped_state P env 1 header.n s
  simp only [commitStateChanges, Exec.bind_apply, if_false, Bool.false_eq_true]
  rcases hres : storeSkipped P env 1 header.n s with ⟨_ | _ | _, s₁⟩ <;> rw [hres] at hm <;>
    dsimp only at hm <;> subst hm
  · simp only [Exec.get_apply, Exec.lift_apply, Exec.put_apply]
    rcases Option.eq_none_or_eq_some s.ckR with hck | ⟨ck, hck⟩
    · refine ⟨m, s.ckR, s.nr, Iff.rfl, ?_⟩
      rw [hck]
      rfl
    · refine ⟨m, some (kdfCk P ck).1, ?_⟩
      simp only [hck, Outcome.expect_some]
      cases checkedAdd32 s.nr 1 with
      | none => exact ⟨s.nr, Iff.rfl, rfl⟩
      | some nr => exact ⟨nr, Iff.rfl, rfl⟩
  · exact ⟨m, s.ckR, s.nr, Iff.rfl, rfl⟩
  · exact ⟨m, s.ckR, s.nr, Iff.rfl, rfl⟩

/-- Within the skip limit the commit on a receiving chain goes through. -/
theorem commitStateChanges_of_le (env : CallEnv K) {header : RatchetHeader}
    {s : RatchetState K} {ck hk : K} (hck : s.ckR = some ck) (hhk : s.hkR = some hk)
    (hle : s.nr.toNat ≤ header.n.toNat) (hlimit : header.n.toNat ≤ s.nr.toNat + maxSkip.toNat)
    (hmax : s.nr.toNat < 2 ^ 32 - 1) :
    ∃ mkskipped nr, Stores P ck hk s.nr.toNat header.n.toNat s.mkskipped mkskipped ∧
      nr.toNat = s.nr.toNat + 1 ∧ commitStateChanges P env header false s
        = (.ok ⟨⟩, { s with mkskipped, ckR := some (kdfCk P ck).1, nr }) := by
  obtain ⟨mkskipped, hskip, hstores⟩ := skipMessageKeys_spec P env.hashOrder (env.clock 1)
    s.mkskipped ck hk hle hlimit
  obtain ⟨nr, hnr, hnrN⟩ := checkedAdd32_one_of_lt hmax
  refine ⟨mkskipped, nr, hstores, hnrN, ?_⟩
  rw [commitStateChanges_false P env header hck hhk, hskip]
  dsimp only
  rw [hnr]

/-- The commit with a DH ratchet: the previous chain is stored, the ratchet
turns, and the commit goes on with the new chain. -/
theorem commitStateChanges_true (env : CallEnv K) (header : RatchetHeader)
    (s : RatchetState K) :
    commitStateChanges P env header true s =
      match storeSkipped P env 0 header.pn s with
      | (.ok _, s₁) => commitStateChanges P env header false (ratcheted P env header s₁)
      | (.err e, s₁) => (.err e, s₁)
      | (.panic, s₁) => (.panic, s₁) := by
  simp only [commitStateChanges, Exec.bind_apply, if_true, if_false, Bool.false_eq_true]
  rcases storeSkipped P env 0 header.pn s with ⟨_ | _ | _, s₁⟩
  · simp only [performDhRatchet_eq]
  · rfl
  · rfl

/-- However it ends, the commit changes the map, the receiving chain and its number,
and if it gets past the DH ratchet all that a DH ratchet changes. -/
theorem commitStateChanges_state (env : CallEnv K) (header : RatchetHeader) (f : Bool)
    (s : RatchetState K) :
    (∃ mkskipped ckR nr, (ckR.isSome ↔ s.ckR.isSome) ∧
      (commitStateChanges P env header f s).2 = { s with mkskipped, ckR, nr }) ∨
    ∃ mkskipped ckR nr, f = true ∧ ckR.isSome ∧
      (commitStateChanges P env header f s).2
        = { ratcheted P env header s with mkskipped, ckR, nr } := by
  cases f with
  | false =>
    obtain ⟨m, ckR, nr, hck, hs⟩ := commitStateChanges_false_state P env header s
    exact .inl ⟨m, ckR, nr, hck, hs⟩
  | true =>
    obtain ⟨m, hm⟩ := storeSkipped_state P env 0 header.pn s
    rw [commitStateChanges_true]
    rcases hres : storeSkipped P env 0 header.pn s with ⟨_ | _ | _, s₁⟩ <;> rw [hres] at hm <;>
      dsimp only at hm <;> subst hm
    · obtain ⟨m', ckR, nr, hck, hs⟩ := commitStateChanges_false_state P env header
        (ratcheted P env header { s with mkskipped := m })
      exact .inr ⟨m', ckR, nr, rfl, hck.mpr rfl, hs⟩
    · exact .inl ⟨m, s.ckR, s.nr, Iff.rfl, rfl⟩
    · exact .inl ⟨m, s.ckR, s.nr, Iff.rfl, rfl⟩

/-! ### Decryption -/

omit [DecidableEq K] in
/-- The header opens under the receiving header key, or under the next one. -/
theorem decryptHeader_eq_ok {s : RatchetState K} {encHeader : Bytes} {header : RatchetHeader}
    {f : Bool} (h : decryptHeader P s encHeader = .ok (header, f)) :
    (f = false ∧ ∃ hk, s.hkR = some hk ∧ decryptHeaderWithKey P hk encHeader = .ok header) ∨
      (f = true ∧ decryptHeaderWithKey P s.nhkR encHeader = .ok header) := by
  unfold decryptHeader at h
  dsimp only at h
  split at h
  · split at h
    · cases h
      rename_i hnext
      exact .inr ⟨rfl, hnext⟩
    · cases h
    · cases h
  · rename_i hk hhk
    split at h
    · cases h
      rename_i hcur
      exact .inl ⟨rfl, hk, hhk, hcur⟩
    · split at h
      · cases h
        rename_i hnext
        exact .inr ⟨rfl, hnext⟩
      · cases h
      · cases h
    · cases h

omit [DecidableEq K] in
theorem decryptHeader_of_current {s : RatchetState K} {encHeader : Bytes}
    {header : RatchetHeader} {hk : K} (hhk : s.hkR = some hk)
    (hopen : decryptHeaderWithKey P hk encHeader = .ok header) :
    decryptHeader P s encHeader = .ok (header, false) := by
  simp only [decryptHeader, hhk, hopen]

omit [DecidableEq K] in
theorem decryptHeader_of_next {s : RatchetState K} {encHeader : Bytes} {header : RatchetHeader}
    (hcurrent : ∀ hk h, s.hkR = some hk → decryptHeaderWithKey P hk encHeader ≠ .ok h)
    (hopen : decryptHeaderWithKey P s.nhkR encHeader = .ok header) :
    decryptHeader P s encHeader = .ok (header, true) := by
  unfold decryptHeader
  cases hhk : s.hkR with
  | none => simp only [hopen]
  | some hk =>
    cases hcur : decryptHeaderWithKey P hk encHeader with
    | ok h => exact absurd hcur (hcurrent hk h hhk)
    | err e => simp only [hcur, hopen]
    | panic => exact absurd hcur (decryptHeaderWithKey_returns P hk encHeader)

/-- The call gets past authentication: no skipped key opens the message, and it
opens to `p` under the key computed for its header. -/
structure Authenticates (b : Build) (s : RatchetState K) (encHeader ciphertext ad : Bytes)
    (header : RatchetHeader) (dhRatchet : Bool) (p : Bytes) : Prop where
  ad_le : ad.length ≤ maxAdSize
  not_skipped : ∀ k v q, s.mkskipped.lookup k = some v →
    ¬ Opens P k v encHeader ciphertext (concatAd ad encHeader) q
  header_eq : decryptHeader P s encHeader = .ok (header, dhRatchet)
  not_received : (header.dhPub, header.n) ∉ s.receivedMessages
  opens : ∃ mk, computeMessageKey P b s header dhRatchet = .ok mk ∧
    decryptAead P mk ciphertext (concatAd ad encHeader) = .ok p

/-- What `decrypt` does with the result of the commit: it tracks the message. -/
def trackMessage (header : RatchetHeader) (p : Bytes) :
    Outcome RatchetError PUnit × RatchetState K → Outcome RatchetError Bytes × RatchetState K
  | (.ok _, s) =>
    if maxReceivedTracking ≤ s.receivedMessages.card then (.err .tooManyMessages, s)
    else (.ok p, { s with
      receivedMessages := insert (header.dhPub, header.n) s.receivedMessages })
  | (.err e, s) => (.err e, s)
  | (.panic, s) => (.panic, s)

omit [DecidableEq K] in
/-- After a commit only the tracked messages change. -/
theorem trackMessage_ok (header : RatchetHeader) (p : Bytes) (u : PUnit) (s : RatchetState K) :
    ∃ receivedMessages ⊆ insert (header.dhPub, header.n) s.receivedMessages,
      (trackMessage header p (.ok u, s)).2 = { s with receivedMessages } := by
  rw [trackMessage]
  split
  · exact ⟨s.receivedMessages, Finset.subset_insert _ _, rfl⟩
  · exact ⟨_, subset_rfl, rfl⟩

omit [DecidableEq K] in
theorem trackMessage_state (header : RatchetHeader) (p : Bytes)
    (r : Outcome RatchetError PUnit × RatchetState K) :
    ∃ receivedMessages, (trackMessage header p r).2 = { r.2 with receivedMessages } := by
  rcases r with ⟨_ | _ | _, s₁⟩
  · obtain ⟨received, -, hs⟩ := trackMessage_ok header p ⟨⟩ s₁
    exact ⟨received, hs⟩
  · exact ⟨s₁.receivedMessages, rfl⟩
  · exact ⟨s₁.receivedMessages, rfl⟩

theorem decrypt_of_adTooLarge {b : Build} {env : CallEnv K} {s : RatchetState K}
    {encHeader ciphertext ad : Bytes} (had : maxAdSize < ad.length) :
    decrypt P b env encHeader ciphertext ad s = (.err .adTooLarge, s) := by
  simp [decrypt, Exec.bind_apply, had]

/-- What `decrypt` does with a message that a skipped key opens. -/
theorem decrypt_of_skipped {b : Build} {env : CallEnv K} {s : RatchetState K}
    {encHeader ciphertext ad p : Bytes} {m : SkippedKeyMap K} (had : ad.length ≤ maxAdSize)
    (htry : trySkippedMessageKeys P env.hashOrder s.mkskipped encHeader ciphertext
      (concatAd ad encHeader) = .ok (m, some p)) :
    decrypt P b env encHeader ciphertext ad s = (.ok p, { s with mkskipped := m }) := by
  simp [decrypt, Exec.bind_apply, not_lt.mpr had, htry]

/-- What `decrypt` does once no skipped key has opened the message. -/
theorem decrypt_of_not_skipped {b : Build} {env : CallEnv K} {s : RatchetState K}
    {encHeader ciphertext ad : Bytes} (had : ad.length ≤ maxAdSize)
    (hskip : ∀ k v p, s.mkskipped.lookup k = some v →
      ¬ Opens P k v encHeader ciphertext (concatAd ad encHeader) p) :
    decrypt P b env encHeader ciphertext ad s =
      match decryptHeader P s encHeader with
      | .ok (header, f) =>
        if (header.dhPub, header.n) ∈ s.receivedMessages then (.err .duplicateMessage, s)
        else
          match computeMessageKey P b s header f >>= fun mk =>
              decryptAead P mk ciphertext (concatAd ad encHeader) with
          | .ok p => trackMessage header p (commitStateChanges P env header f s)
          | .err e => (.err e, s)
          | .panic => (.panic, s)
      | .err e => (.err e, s)
      | .panic => (.panic, s) := by
  have hle : ¬ maxAdSize < ad.length := not_lt.mpr had
  obtain ⟨htry, -⟩ | ⟨k, v, p, hk, hopens, -⟩ := trySkippedMessageKeys_cases P env.hashOrder
    s.mkskipped encHeader ciphertext (concatAd ad encHeader)
  · cases hhdr : decryptHeader P s encHeader with
    | err e => simp [decrypt, Exec.bind_apply, hle, htry, hhdr]
    | panic => simp [decrypt, Exec.bind_apply, hle, htry, hhdr]
    | ok hf =>
      obtain ⟨header, f⟩ := hf
      dsimp only
      by_cases hdup : (header.dhPub, header.n) ∈ s.receivedMessages
      · simp [decrypt, Exec.bind_apply, hle, htry, hhdr, hdup]
      · rw [if_neg hdup]
        cases hmk : computeMessageKey P b s header f with
        | err e => simp [decrypt, Exec.bind_apply, hle, htry, hhdr, hdup, hmk]
        | panic => simp [decrypt, Exec.bind_apply, hle, htry, hhdr, hdup, hmk]
        | ok mk =>
          rw [Outcome.ok_bind]
          cases haead : decryptAead P mk ciphertext (concatAd ad encHeader) with
          | err e => simp [decrypt, Exec.bind_apply, hle, htry, hhdr, hdup, hmk, haead]
          | panic => simp [decrypt, Exec.bind_apply, hle, htry, hhdr, hdup, hmk, haead]
          | ok p =>
            simp only [decrypt, Exec.bind_apply, hle, htry, hhdr, hdup, hmk, haead, if_false,
              Exec.get_apply, Exec.put_apply, Exec.lift_apply]
            rcases commitStateChanges P env header f s with ⟨_ | _ | _, s₁⟩
            · simp only [trackMessage]
              split <;> rfl
            · rfl
            · rfl
  · exact absurd hopens (hskip k v p hk)

/-- A call that gets past authentication commits. -/
theorem Authenticates.decrypt_eq {b : Build} {s : RatchetState K}
    {encHeader ciphertext ad p : Bytes}
    {header : RatchetHeader} {f : Bool} (h : Authenticates P b s encHeader ciphertext
      ad header f p) (env : CallEnv K) : decrypt P b env encHeader ciphertext ad s
      = trackMessage header p (commitStateChanges P env header f s) := by
  rw [decrypt_of_not_skipped P h.ad_le h.not_skipped, h.header_eq]
  dsimp only
  rw [if_neg h.not_received, Outcome.bind_eq_ok.mpr h.opens]

/-- **The outcomes of `decrypt`.** -/
theorem decrypt_cases (b : Build) (env : CallEnv K) (s : RatchetState K)
    (encHeader ciphertext ad : Bytes) :
    (∃ k v p, ad.length ≤ maxAdSize ∧ s.mkskipped.lookup k = some v ∧
      Opens P k v encHeader ciphertext (concatAd ad encHeader) p ∧
      decrypt P b env encHeader ciphertext ad s
        = (.ok p, { s with mkskipped := s.mkskipped.erase k })) ∨
    (∃ o, (∀ p, o ≠ .ok p) ∧ decrypt P b env encHeader ciphertext ad s = (o, s) ∧
      (ad.length ≤ maxAdSize → ∀ k v p, s.mkskipped.lookup k = some v →
        ¬ Opens P k v encHeader ciphertext (concatAd ad encHeader) p) ∧
      ∀ header f p, ¬ Authenticates P b s encHeader ciphertext ad header f p) ∨
    ∃ header f p, Authenticates P b s encHeader ciphertext ad header f p ∧
      decrypt P b env encHeader ciphertext ad s
        = trackMessage header p (commitStateChanges P env header f s) := by
  by_cases had : maxAdSize < ad.length
  · refine .inr (.inl ⟨.err .adTooLarge, by simp, decrypt_of_adTooLarge P had,
      fun hle => absurd had (by omega), fun header f p h => ?_⟩)
    exact absurd h.ad_le (by omega)
  rcases trySkippedMessageKeys_cases P env.hashOrder s.mkskipped encHeader ciphertext
    (concatAd ad encHeader) with ⟨-, hno⟩ | ⟨k, v, p, hk, hopens, htry⟩
  · rw [decrypt_of_not_skipped P (not_lt.mp had) hno]
    cases hhdr : decryptHeader P s encHeader with
    | err e =>
      refine .inr (.inl ⟨.err e, by simp, rfl, fun _ => hno, fun header f p h => ?_⟩)
      rw [h.header_eq] at hhdr
      cases hhdr
    | panic =>
      refine .inr (.inl ⟨.panic, by simp, rfl, fun _ => hno, fun header f p h => ?_⟩)
      rw [h.header_eq] at hhdr
      cases hhdr
    | ok hf =>
      obtain ⟨header, f⟩ := hf
      dsimp only
      have hunique : ∀ header' f' p, Authenticates P b s encHeader ciphertext ad header' f' p →
          header' = header ∧ f' = f := by
        intro header' f' p h
        have := h.header_eq.symm.trans hhdr
        cases this
        exact ⟨rfl, rfl⟩
      by_cases hdup : (header.dhPub, header.n) ∈ s.receivedMessages
      · rw [if_pos hdup]
        refine .inr (.inl ⟨.err .duplicateMessage, by simp, rfl, fun _ => hno,
          fun header' f' p h => ?_⟩)
        obtain ⟨rfl, rfl⟩ := hunique _ _ _ h
        exact h.not_received hdup
      · rw [if_neg hdup]
        have hfail : ∀ o : Outcome RatchetError Bytes,
          (computeMessageKey P b s header f >>= fun mk =>
            decryptAead P mk ciphertext (concatAd ad encHeader)) = o → (∀ p, o ≠ .ok p) →
            ∀ header f p, ¬ Authenticates P b s encHeader ciphertext ad header f p := by
          intro o ho hok header' f' p h
          obtain ⟨rfl, rfl⟩ := hunique _ _ _ h
          exact hok p (ho.symm.trans (Outcome.bind_eq_ok.mpr h.opens))
        cases hopen : computeMessageKey P b s header f >>= fun mk =>
            decryptAead P mk ciphertext (concatAd ad encHeader) with
        | err e =>
          exact .inr (.inl ⟨.err e, by simp, rfl, fun _ => hno, hfail _ hopen (by simp)⟩)
        | panic =>
          exact .inr (.inl ⟨.panic, by simp, rfl, fun _ => hno, hfail _ hopen (by simp)⟩)
        | ok p =>
          exact .inr (.inr ⟨header, f, p, ⟨not_lt.mp had, hno, hhdr, hdup,
            Outcome.bind_eq_ok.mp hopen⟩, rfl⟩)
  · refine .inl ⟨k, v, p, not_lt.mp had, hk, hopens, ?_⟩
    simp [decrypt, Exec.bind_apply, had, htry]

omit [DecidableEq K] in
theorem decryptHeader_returns (s : RatchetState K) (encHeader : Bytes) :
    (decryptHeader P s encHeader).Returns := by
  intro h
  unfold decryptHeader at h
  dsimp only at h
  split at h
  · split at h
    · cases h
    · cases h
    · rename_i hnext
      exact decryptHeaderWithKey_returns P s.nhkR encHeader hnext
  · split at h
    · cases h
    · split at h
      · cases h
      · cases h
      · rename_i hnext
        exact decryptHeaderWithKey_returns P s.nhkR encHeader hnext
    · rename_i hcur
      exact decryptHeaderWithKey_returns P _ encHeader hcur

/-- The call reaches the skip-limit test of a `dev` build on the current chain,
with a sum that exceeds a `u32`. -/
structure Overflows (b : Build) (s : RatchetState K) (encHeader ad : Bytes) : Prop where
  dev : b = .dev
  sum_ge : 2 ^ 32 ≤ s.nr.toNat + maxSkip.toNat
  ad_le : ad.length ≤ maxAdSize
  current : ∃ header, decryptHeader P s encHeader = .ok (header, false) ∧
    (header.dhPub, header.n) ∉ s.receivedMessages

section NotSkipped

variable {P} {b : Build} {env : CallEnv K} {s : RatchetState K} {encHeader ciphertext ad : Bytes}
  (hskip : ∀ k v p, s.mkskipped.lookup k = some v →
    ¬ Opens P k v encHeader ciphertext (concatAd ad encHeader) p)

include hskip

/-- A call that does not get past authentication aborts only in the skip-limit
test. -/
theorem overflows_of_panic (had : ad.length ≤ maxAdSize)
    (hno : ∀ header f p, ¬ Authenticates P b s encHeader ciphertext ad header f p)
    (h : (decrypt P b env encHeader ciphertext ad s).1 = .panic) :
    Overflows P b s encHeader ad := by
  rw [decrypt_of_not_skipped P had hskip] at h
  cases hhdr : decryptHeader P s encHeader with
  | panic => exact absurd hhdr (decryptHeader_returns P s encHeader)
  | err e =>
    rw [hhdr] at h
    cases h
  | ok hf =>
    obtain ⟨header, f⟩ := hf
    rw [hhdr] at h
    dsimp only at h
    by_cases hdup : (header.dhPub, header.n) ∈ s.receivedMessages
    · rw [if_pos hdup] at h
      cases h
    · rw [if_neg hdup] at h
      cases hopen : computeMessageKey P b s header f >>= fun mk =>
          decryptAead P mk ciphertext (concatAd ad encHeader) with
      | ok p =>
        exact absurd ⟨had, hskip, hhdr, hdup, Outcome.bind_eq_ok.mp hopen⟩ (hno header f p)
      | err e =>
        rw [hopen] at h
        cases h
      | panic =>
        rcases Outcome.bind_eq_panic.mp hopen with hkey | ⟨mk, -, haead⟩
        · obtain ⟨hb, rfl, hge⟩ := computeMessageKey_eq_panic P hkey
          exact ⟨hb, hge, had, header, hhdr, hdup⟩
        · exact absurd haead (decryptAead_returns P mk ciphertext _)

/-- Such a call aborts. -/
theorem Overflows.decrypt_eq (h : Overflows P b s encHeader ad) :
    Ratchet.decrypt P b env encHeader ciphertext ad s = (.panic, s) := by
  obtain ⟨rfl, hge, had, header, hhdr, hnew⟩ := h
  rw [decrypt_of_not_skipped P had hskip, hhdr]
  dsimp only
  rw [if_neg hnew, computeMessageKey_of_overflow P header hge]
  rfl

/-- A header beyond the skip limit is refused. -/
theorem decrypt_of_limit {header : RatchetHeader} {f : Bool} (had : ad.length ≤ maxAdSize)
    (hhdr : decryptHeader P s encHeader = .ok (header, f))
    (hnew : (header.dhPub, header.n) ∉ s.receivedMessages)
    (hlimit : (recvNumber s f).toNat + maxSkip.toNat < header.n.toNat) :
    decrypt P b env encHeader ciphertext ad s = (.err .oldMessageKeysLimitReached, s) := by
  rw [decrypt_of_not_skipped P had hskip, hhdr]
  dsimp only
  rw [if_neg hnew, computeMessageKey_of_limit P hlimit]
  rfl

end NotSkipped

end Ratchet
