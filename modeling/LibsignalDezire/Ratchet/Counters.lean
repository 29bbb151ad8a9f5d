/-
What `decrypt` makes of the counters of a receiving chain.

`compute_message_key` walks the chain on local copies, `commit_state_changes`
walks it again on the state.  Both are compared here with the same walk over the
integers, and with each other.

* `skipLoop_eq` — the skip loop is a fold over the numbers it is asked to store;
* `counts_exactly_iff` — **the counters behave as integers exactly when
  `nr + MAX_SKIP` fits in a `u32`**: that sum is not checked;
* `paths_agree_iff` — **both walks end at the same place exactly when the
  message is the next one of its chain**: the commit takes one step however
  far the message is ahead.
-/
import LibsignalDezire.Ratchet.Atomic

namespace Ratchet

variable {K : Type} [DecidableEq K] (P : Primitives K)

/-! ### The walks over the integers -/

/-- The turn of the skip loop that stores number `i` at time `time i`. -/
def skipTurn (order : HashOrder (K × UInt32)) (hk : K) (time : ℕ → SystemTime)
    (x : SkippedKeyMap K × K) (i : ℕ) : SkippedKeyMap K × K :=
  let mkskipped :=
    if maxSkippedKeys ≤ x.1.keys.length then
      evictOldestSkippedKeys order x.1 (maxSkippedKeys / 2)
    else x.1
  (mkskipped.insert (hk, UInt32.ofNat i) ⟨(kdfCk P x.2).2, time i⟩, (kdfCk P x.2).1)

/-- `skipMessageKeys` with integers for counters: the numbers `a, …, b - 1` are
stored in this order, one turn each. -/
def exactSkip (order : HashOrder (K × UInt32)) (clock : ℕ → SystemTime)
    (mkskipped : SkippedKeyMap K) (ck hk : K) (a b : ℕ) :
    Outcome RatchetError (SkippedKeyMap K) :=
  if b < a then .err .invalidHeader
  else if a + maxSkip.toNat < b then .err .oldMessageKeysLimitReached
  else .ok ((List.range' a (b - a)).foldl (skipTurn P order hk fun i => clock (i - a))
    (mkskipped, ck)).1

omit [DecidableEq K] in
/-- `computeMessageKey` with integers for counters. -/
def exactKey (st : RatchetState K) (header : RatchetHeader) (dhRatchet : Bool) :
    Outcome RatchetError K :=
  if (recvNumber st dhRatchet).toNat + maxSkip.toNat < header.n.toNat then
    .err .oldMessageKeysLimitReached
  else do
    let ck ← Outcome.okOr .invalidKey (recvChain P st header dhRatchet)
    .ok (messageKey P ck (header.n.toNat - (recvNumber st dhRatchet).toNat))

/-- The skip loop visits the numbers from `current` up to `toN`, in order. -/
theorem skipLoop_eq (order : HashOrder (K × UInt32)) (hk : K) (toN : UInt32)
    (time : ℕ → SystemTime) :
    ∀ (fuel : ℕ) (clock : ℕ → SystemTime) (m : SkippedKeyMap K) (ck : K) (current : UInt32),
      current.toNat + fuel = toN.toNat → (∀ i, clock i = time (current.toNat + i)) →
      skipLoop P order hk toN fuel clock m ck current
        = .ok ((List.range' current.toNat fuel).foldl (skipTurn P order hk time) (m, ck)).1 := by
  intro fuel
  induction fuel with
  | zero => exact fun _ _ _ _ _ _ => rfl
  | succ fuel ih =>
    intro clock m ck current hc htime
    have htoN := toN.toNat_lt
    have hlt : current < toN := UInt32.lt_iff_toNat_lt.mpr (by omega)
    obtain ⟨next, hnext, hnextN⟩ := checkedAdd32_one_of_lt (x := current) (by omega)
    have hclock : ∀ i, clock (i + 1) = time (next.toNat + i) := by
      intro i
      rw [htime, hnextN]
      congr 1
      omega
    have hrest := ih (fun i => clock (i + 1))
      (skipTurn P order hk time (m, ck) current.toNat).1 (kdfCk P ck).1 next (by omega) hclock
    have hturn : skipTurn P order hk time (m, ck) current.toNat
        = ((skipTurn P order hk time (m, ck) current.toNat).1, (kdfCk P ck).1) := rfl
    rw [List.range'_succ, List.foldl_cons, hturn, ← hnextN, ← hrest, skipLoop, if_pos hlt]
    simp only [hnext, Outcome.okOr_some, Outcome.ok_bind, skipTurn, UInt32.ofNat_toNat]
    rw [htime 0, Nat.add_zero]

/-- `skipMessageKeys` counts exactly, whatever it is asked to store. -/
theorem skipMessageKeys_eq (order : HashOrder (K × UInt32)) (clock : ℕ → SystemTime)
    (m : SkippedKeyMap K) (ck hk : K) (fromN toN : UInt32) :
    skipMessageKeys P order clock m ck hk fromN toN
      = exactSkip P order clock m ck hk fromN.toNat toN.toNat := by
  by_cases hlt : toN.toNat < fromN.toNat
  · rw [skipMessageKeys_of_lt P order clock m ck hk hlt, exactSkip, if_pos hlt]
  · have hle : ¬ toN < fromN := by
      rw [UInt32.lt_iff_toNat_lt]
      exact hlt
    by_cases hlimit : fromN.toNat + maxSkip.toNat < toN.toNat
    · rw [skipMessageKeys_of_limit P order clock m ck hk hlimit, exactSkip, if_neg hlt,
        if_pos hlimit]
    · rw [exactSkip, if_neg hlt, if_neg hlimit, skipMessageKeys, if_neg hle]
      dsimp only
      rw [if_neg (by omega)]
      refine skipLoop_eq P order hk toN _ _ clock m ck fromN (by omega) fun i => ?_
      rw [Nat.add_sub_cancel_left]

/-- A commit that goes through counts exactly. -/
theorem commitStateChanges_nr {env : CallEnv K} {header : RatchetHeader} {f : Bool}
    {st st' : RatchetState K}
    (h : commitStateChanges P env header f st = (.ok ⟨⟩, st')) :
    st'.nr.toNat = (recvNumber st f).toNat + 1 := by
  -- without a DH ratchet; storing skipped keys leaves `nr` alone
  have hchain : ∀ {st st' : RatchetState K},
      commitStateChanges P env header false st = (.ok ⟨⟩, st') →
        st'.nr.toNat = st.nr.toNat + 1 := by
    intro st st' h
    cases hck : st.ckR with
    | none =>
      simp [commitStateChanges, Exec.bind_apply, storeSkipped_none P env 1 header.n (.inl hck),
        hck] at h
    | some ck =>
      cases hhk : st.hkR with
      | none =>
        simp only [commitStateChanges, Exec.bind_apply, Bool.false_eq_true, if_false,
          storeSkipped_none P env 1 header.n (.inr hhk), Exec.get_apply, hck,
          Outcome.expect_some, Exec.lift_apply, Exec.put_apply] at h
        cases hnr : checkedAdd32 st.nr 1 with
        | none => simp [hnr] at h
        | some nr =>
          simp only [hnr, Outcome.okOr_some, Prod.mk.injEq, true_and] at h
          rw [← h]
          exact checkedAdd32_one_eq_some.mp hnr
      | some hk =>
        rw [commitStateChanges_false P env header hck hhk] at h
        cases hskip : skipMessageKeys P env.hashOrder (env.clock 1) st.mkskipped ck hk st.nr
            header.n with
        | err e => simp [hskip] at h
        | panic => simp [hskip] at h
        | ok m =>
          cases hnr : checkedAdd32 st.nr 1 with
          | none => simp [hskip, hnr] at h
          | some nr =>
            simp only [hskip, hnr, Prod.mk.injEq, true_and] at h
            rw [← h]
            exact checkedAdd32_one_eq_some.mp hnr
  cases f with
  | false => exact hchain h
  | true =>
    rw [commitStateChanges_true] at h
    rcases hstore : storeSkipped P env 0 header.pn st with ⟨_ | _ | _, st₁⟩
    · rw [hstore] at h
      exact hchain h
    · simp [hstore] at h
    · simp [hstore] at h

/-! ### Exact counters -/

/-- On this header the counters of `decrypt` behave as integers: both builds
compute the key, or refuse, as over the integers (where `release` wraps, `dev`
aborts), both skip loops store the numbers of their range, and the commit counts
one message or reports the overflow. -/
structure CountsExactly (st : RatchetState K) (header : RatchetHeader) (dhRatchet : Bool) :
    Prop where
  key : ∀ b, computeMessageKey P b st header dhRatchet = exactKey P st header dhRatchet
  previous : ∀ order clock m ck hk, skipMessageKeys P order clock m ck hk st.nr header.pn
    = exactSkip P order clock m ck hk st.nr.toNat header.pn.toNat
  current : ∀ order clock m ck hk,
    skipMessageKeys P order clock m ck hk (recvNumber st dhRatchet) header.n
      = exactSkip P order clock m ck hk (recvNumber st dhRatchet).toNat header.n.toNat
  commit : ∀ env st', commitStateChanges P env header dhRatchet st = (.ok ⟨⟩, st') →
    st'.nr.toNat = (recvNumber st dhRatchet).toNat + 1
  overflow : ∀ env ck hk, st.ckR = some ck → st.hkR = some hk → header.n = st.nr →
    st.nr.toNat = 2 ^ 32 - 1 →
    (commitStateChanges P env header false st).1 = .err .counterOverflow

/-- **When the counters are exact.**  For every state, header and flag: exactly
when the sum of the skip-limit test fits in a `u32`. -/
theorem counts_exactly_iff (st : RatchetState K) (header : RatchetHeader) (f : Bool) :
    CountsExactly P st header f ↔ (recvNumber st f).toNat + maxSkip.toNat < 2 ^ 32 := by
  constructor
  · intro h
    by_contra hge
    have hkey := h.key .dev
    have hpanic : computeMessageKey P .dev st header f = .panic := by
      rw [computeMessageKey_eq, Build.add, if_neg hge]
      rfl
    rw [hpanic, exactKey] at hkey
    split at hkey
    · cases hkey
    · cases hchain : recvChain P st header f with
      | none =>
        rw [hchain] at hkey
        cases hkey
      | some ck =>
        rw [hchain] at hkey
        cases hkey
  · intro hfits
    refine ⟨fun b => ?_, fun order clock m ck hk => skipMessageKeys_eq P _ _ _ _ _ _ _,
      fun order clock m ck hk => skipMessageKeys_eq P _ _ _ _ _ _ _,
      fun env st' h => commitStateChanges_nr P h, fun env ck hk hck hhk hn hmax => ?_⟩
    · have hlim := toNat_add_of_lt hfits
      rw [computeMessageKey_eq, Build.add_of_lt hfits, exactKey, Outcome.ok_bind]
      simp only [UInt32.lt_iff_toNat_lt, hlim]
    · obtain ⟨m, hskip, -⟩ := skipMessageKeys_spec P env.hashOrder
        (env.clock 1) st.mkskipped ck hk (le_refl st.nr.toNat) (Nat.le_add_right _ _)
      rw [commitStateChanges_false P env header hck hhk, hn, hskip]
      dsimp only
      rw [checkedAdd32_one_eq_none.mpr hmax]

namespace Symbolic

/-- The responder after `2 ^ 32 - 1` messages of one chain. -/
def lastReceiver : RatchetState Key := { receiverAfterGap with nr := 0xFFFFFFFF }

/-- The header of the last message of that chain. -/
def lastHeader : RatchetHeader := { dhPub := Bytes.leArray 32 2, pn := 0, n := 0xFFFFFFFF }

/-- **The skip-limit test at the end of a chain.**  The sum overflows: `dev`
aborts, `release` refuses the very next message as too far ahead. -/
theorem skip_limit_overflows :
    computeMessageKey primitives .dev lastReceiver lastHeader false = .panic ∧
    computeMessageKey primitives .release lastReceiver lastHeader false
      = .err .oldMessageKeysLimitReached ∧
    lastHeader.n.toNat ≤ lastReceiver.nr.toNat + maxSkip.toNat ∧
    ¬ CountsExactly primitives lastReceiver lastHeader false := by
  have hdev : computeMessageKey primitives .dev lastReceiver lastHeader false = .panic := by
    decide +kernel
  refine ⟨hdev, by decide +kernel, by decide +kernel, fun h => ?_⟩
  have hexact : (exactKey primitives lastReceiver lastHeader false).Returns := by decide +kernel
  exact hexact ((h.key .dev).symm.trans hdev)

end Symbolic

/-! ### The read-only and the committing walk -/

omit [DecidableEq K] in
/-- The chain key that `computeMessageKey` derives the message key from. -/
def messageChainKey (st : RatchetState K) (header : RatchetHeader)
    (dhRatchet : Bool) : Option K :=
  (recvChain P st header dhRatchet).map fun ck =>
    advance P ck (header.n.toNat - (recvNumber st dhRatchet).toNat)

/-- The commit goes through and leaves the chain right after the chain key that
`computeMessageKey` derived the message key from. -/
def PathsAgree (env : CallEnv K) (st : RatchetState K) (header : RatchetHeader)
    (dhRatchet : Bool) : Prop :=
  ∃ ck st', messageChainKey P st header dhRatchet = some ck ∧
    commitStateChanges P env header dhRatchet st = (.ok ⟨⟩, st') ∧
    st'.nr.toNat = header.n.toNat + 1 ∧ st'.ckR = some (kdfCk P ck).1

variable {P} {b : Build} {st : RatchetState K} {header : RatchetHeader} {f : Bool} {mk : K}

omit [DecidableEq K] in
/-- That chain key is the one the message key comes from. -/
theorem computeMessageKey_of_chainKey (h : computeMessageKey P b st header f = .ok mk) :
    ∃ ck, messageChainKey P st header f = some ck ∧ mk = (kdfCk P ck).2 := by
  obtain ⟨ck, hck, hmk, -⟩ := computeMessageKey_eq_ok P h
  exact ⟨_, by rw [messageChainKey, hck, Option.map_some], hmk⟩

/-- The commit of the next message of the chain in place. -/
theorem pathsAgree_false (env : CallEnv K) {ck hk : K} (hck : st.ckR = some ck)
    (hhk : st.hkR = some hk) (hn : header.n = st.nr) (hmax : st.nr.toNat < 2 ^ 32 - 1) :
    PathsAgree P env st header false := by
  have hle : st.nr.toNat ≤ header.n.toNat := by rw [hn]
  have hlimit : header.n.toNat ≤ st.nr.toNat + maxSkip.toNat := by
    rw [hn]
    exact Nat.le_add_right _ _
  obtain ⟨mkskipped, nr, -, hnr, hcommit⟩ :=
    commitStateChanges_of_le P env hck hhk hle hlimit hmax
  refine ⟨ck, _, ?_, hcommit, by rw [hnr, hn], rfl⟩
  rw [messageChainKey, recvChain_false, hck, recvNumber_false, hn, Nat.sub_self]
  rfl

/-- **When both walks agree.**  For every state and every header that
`decryptHeader` and `computeMessageKey` accept: exactly when the message is the
next one of its chain and the previous chain, if there is one, can be stored. -/
theorem paths_agree_iff (env : CallEnv K) {encHeader : Bytes}
    (hhdr : decryptHeader P st encHeader = .ok (header, f))
    (hkey : computeMessageKey P b st header f = .ok mk) :
    PathsAgree P env st header f ↔ header.n = recvNumber st f ∧
      (f = true → st.ckR.isSome → st.hkR.isSome → ¬ OutOfRange st.nr header.pn) := by
  constructor
  · rintro ⟨ck, st', -, hcommit, hnr, -⟩
    refine ⟨UInt32.toNat_inj.mp ?_, ?_⟩
    · have := commitStateChanges_nr P hcommit
      omega
    · rintro rfl hck hhk hout
      obtain ⟨e, hstore⟩ := storeSkipped_of_outOfRange (P := P) env 0 hck hhk hout
      rw [commitStateChanges_true, hstore] at hcommit
      simp at hcommit
  · rintro ⟨hn, hrange⟩
    obtain ⟨ck, hck, -, -, hover⟩ := computeMessageKey_eq_ok P hkey
    have hmax : maxSkip.toNat = 1000 := rfl
    rw [hn] at hover
    cases f with
    | false =>
      rw [recvNumber_false] at hn hover
      obtain ⟨hk, hhk⟩ : ∃ hk, st.hkR = some hk := by
        rcases decryptHeader_eq_ok P hhdr with ⟨-, hk, hhk, -⟩ | ⟨hf, -⟩
        · exact ⟨hk, hhk⟩
        · cases hf
      exact pathsAgree_false env hck hhk hn (by omega)
    | true =>
      rw [recvNumber_true] at hn
      obtain ⟨mkskipped, hstore⟩ := storeSkipped_of_inRange (P := P) env 0 (hrange rfl)
      -- the simulated ratchet and the real one start the same chain
      have hagree : PathsAgree P env (ratcheted P env header { st with mkskipped })
          header false :=
        pathsAgree_false env rfl rfl hn (show (0 : UInt32).toNat < 2 ^ 32 - 1 by decide)
      obtain ⟨ck', st', hck', hcommit, hnr, hnext⟩ := hagree
      refine ⟨ck', st', hck', ?_, hnr, hnext⟩
      rw [commitStateChanges_true, hstore]
      exact hcommit

namespace Symbolic

/-- The header of message number `n` of the first chain. -/
def firstHeader (n : UInt32) : RatchetHeader := { dhPub := Bytes.leArray 32 2, pn := 0, n }

/-- The first message of a session, in order. -/
theorem paths_agree_on_first_message :
    PathsAgree primitives (Symbolic.env 3) receiver (firstHeader 0) true := by
  have hhdr : decryptHeader primitives receiver (miscounted 0 0).1
    = .ok (firstHeader 0, true) := by
    decide +kernel
  obtain ⟨mk, hkey⟩ : ∃ mk, computeMessageKey primitives .release receiver (firstHeader 0) true
      = .ok mk := Outcome.isOk_iff.mp (by decide +kernel)
  exact (paths_agree_iff (Symbolic.env 3) hhdr hkey).mpr ⟨rfl, fun _ hck => by cases hck⟩

/-- **The walks part at a gap.**  The second message of the initiator arrives
first and is accepted; the commit leaves the chain one step after its start,
where `computeMessageKey` had taken two. -/
theorem paths_part_at_gap :
    (encrypt primitives [0x61] [] (encrypt primitives [0x61] [] sender).2).1
      = .ok (miscounted 1 1) ∧
    decryptHeader primitives receiver (miscounted 1 1).1 = .ok (firstHeader 1, true) ∧
    (deliver receiver (miscounted 1 1)).1 = .ok [0x61] ∧
    ¬ PathsAgree primitives (Symbolic.env 3) receiver (firstHeader 1) true := by
  refine ⟨by decide +kernel, by decide +kernel, by decide +kernel, ?_⟩
  rintro ⟨ck, st, -, hcommit, hnr, -⟩
  have hone := commitStateChanges_nr primitives hcommit
  rw [hnr] at hone
  exact absurd hone (by decide)

end Symbolic

end Ratchet
