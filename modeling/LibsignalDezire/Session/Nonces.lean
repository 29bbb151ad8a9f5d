/-
Header nonces never repeat.

A nonce is the byte of the party and the value of its counter.  `encrypt` is
the only operation that touches the counter, and it raises it with every
header it returns; the byte is set once, at initialisation.  Nothing here is
assumed of the network or of the primitives.

* `decrypt_frame` — `decrypt` keeps the counter and the party, however it ends;
* `nonces_distinct` — over any run, with states saved and restored at any time,
  the nonces of all encrypted headers are pairwise distinct.
-/
import LibsignalDezire.Ratchet.Saved
import LibsignalDezire.Session.Run

namespace Ratchet

variable {K : Type} [DecidableEq K] (P : Primitives K)

/-! ### What decryption leaves alone -/

/-- The nonce counter and the party of a state. -/
def nonceFields (st : RatchetState K) : UInt64 × Bool := (st.headerNonceCounter, st.isSender)

/-- However it ends, `decrypt` keeps the nonce counter and the party. -/
theorem decrypt_frame (b : Build) (env : CallEnv K) (encHeader ciphertext ad : Bytes)
    (st : RatchetState K) :
    nonceFields (decrypt P b env encHeader ciphertext ad st).2 = nonceFields st := by
  rcases decrypt_cases P b env st encHeader ciphertext ad with
    ⟨k, v, p, -, -, -, h⟩ | ⟨o, -, h, -, -⟩ | ⟨header, f, p, -, h⟩
  · rw [h]
    rfl
  · rw [h]
  · obtain ⟨received, hst⟩ := trackMessage_state header p (commitStateChanges P env header f st)
    rw [h, hst]
    rcases commitStateChanges_state P env header f st with
      ⟨m, ckR, nr, -, hst⟩ | ⟨m, ckR, nr, -, -, hst⟩
    · rw [hst]
      rfl
    · rw [hst]
      rfl

/-! ### The invariant -/

/-- The nonce of an encrypted header. -/
def nonceOf (m : Sealed K) : Bytes := m.encHeader.take 12

/-- Every nonce used so far is the party's byte with a counter value that the
party has passed. -/
structure NoncesUsed (s : Session K) : Prop where
  party : ∀ p, (s.state p).isSender = decide (p = .initiator)
  passed : ∀ m ∈ s.sent, ∃ c : UInt64, c.toNat < (s.state m.owner).headerNonceCounter.toNat ∧
    nonceOf m = headerNonce (decide (m.owner = .initiator)) c
  distinct : s.sent.Pairwise fun m m' => nonceOf m ≠ nonceOf m'

namespace NoncesUsed

variable {P} {s : Session K}

omit [DecidableEq K] in
theorem decide_initiator_inj {p q : Party}
    (h : decide (p = .initiator) = decide (q = .initiator)) : p = q := by
  revert h
  cases p <;> cases q <;> decide

omit [DecidableEq K] in
theorem start {sk : K} {bob dhS : DhPrivateKey}
    (h : Session.start P sk bob dhS = .ok s) : NoncesUsed s := by
  cases h
  refine ⟨fun p => ?_, by simp, List.Pairwise.nil⟩
  cases p <;> rfl

omit [DecidableEq K] in
/-- Replacing one party's state by one with the same counter and party. -/
theorem update (h : NoncesUsed s) {p : Party} (st : RatchetState K)
    (hst : nonceFields st = nonceFields (s.state p)) {s' : Session K}
    (hstate : s'.state = Function.update s.state p st) (hsent : s'.sent = s.sent) :
    NoncesUsed s' := by
  obtain ⟨hcounter, hsender⟩ := Prod.mk.inj hst
  have hsame : ∀ q, nonceFields (s'.state q) = nonceFields (s.state q) := by
    intro q
    rw [hstate]
    by_cases hq : q = p
    · subst hq
      rw [Function.update_self, hst]
    · rw [Function.update_of_ne hq]
  refine ⟨fun q => (Prod.mk.inj (hsame q)).2.trans (h.party q),
    fun m hm => ?_, hsent ▸ h.distinct⟩
  rw [hsent] at hm
  obtain ⟨c, hc, hnonce⟩ := h.passed m hm
  exact ⟨c, (Prod.mk.inj (hsame m.owner)).1.symm ▸ hc, hnonce⟩

omit [DecidableEq K] in
/-- One call of `encrypt`. -/
theorem encrypt (h : NoncesUsed s) (p : Party) (plaintext ad : Bytes) :
    NoncesUsed (s.encrypt P p plaintext ad) := by
  rcases encrypt_cases P (s.state p) plaintext ad with
    ⟨-, hres⟩ | ⟨-, -, hres⟩ | ⟨ck, hk, -, -, -, -, ⟨-, hres⟩ |
      ⟨ns, -, ⟨-, hres⟩ | ⟨c, hc, hres⟩⟩⟩
  · exact h.update (p := p) _ rfl (by simp [Session.encrypt, hres])
      (by simp [Session.encrypt, hres])
  · exact h.update (p := p) _ rfl (by simp [Session.encrypt, hres])
      (by simp [Session.encrypt, hres])
  · exact h.update (p := p) { s.state p with ckS := some (kdfCk P ck).1 } rfl
      (by simp [Session.encrypt, hres]) (by simp [Session.encrypt, hres])
  · exact h.update (p := p) { s.state p with ckS := some (kdfCk P ck).1, ns } rfl
      (by simp [Session.encrypt, hres]) (by simp [Session.encrypt, hres])
  · have hstate : (s.encrypt P p plaintext ad).state = Function.update s.state p
        { s.state p with ckS := some (kdfCk P ck).1, ns, headerNonceCounter := c } := by
      simp [Session.encrypt, hres]
    obtain ⟨m, hsent, howner, hm⟩ : ∃ m : Sealed K,
        (s.encrypt P p plaintext ad).sent = m :: s.sent ∧ m.owner = p ∧
        nonceOf m = headerNonce (decide (p = .initiator)) (s.state p).headerNonceCounter := by
      refine ⟨_, by simp only [Session.encrypt, hres]; rfl, rfl, ?_⟩
      rw [← h.party p]
      exact take_sealHeader (length_headerNonce _ _) hk _
    have hcN := checkedAdd64_one_eq_some hc
    refine ⟨fun q => ?_, ?_, ?_⟩
    · rw [hstate]
      by_cases hq : q = p
      · subst hq
        rw [Function.update_self]
        exact h.party q
      · rw [Function.update_of_ne hq]
        exact h.party q
    · intro m' hm'
      rw [hsent] at hm'
      rw [hstate]
      rcases List.mem_cons.mp hm' with rfl | hm'
      · rw [howner, Function.update_self]
        exact ⟨_, by dsimp only; omega, hm⟩
      · obtain ⟨c', hc', hnonce⟩ := h.passed m' hm'
        refine ⟨c', ?_, hnonce⟩
        by_cases hq : m'.owner = p
        · rw [hq, Function.update_self]
          rw [hq] at hc'
          dsimp only
          omega
        · rwa [Function.update_of_ne hq]
    · -- the new nonce carries the party's counter, every old one a smaller value
      rw [hsent, List.pairwise_cons]
      refine ⟨fun m' hm' heq => ?_, h.distinct⟩
      obtain ⟨c', hc', hnonce⟩ := h.passed m' hm'
      rw [hm, hnonce] at heq
      obtain ⟨hparty, hcounter⟩ := headerNonce_inj heq
      rw [← decide_initiator_inj hparty, ← hcounter] at hc'
      omega

/-- One call of `decrypt`. -/
theorem decrypt (h : NoncesUsed s) (b : Build) (p : Party) (env : CallEnv K)
    (encHeader ciphertext ad : Bytes) :
    NoncesUsed (s.decrypt P b p env encHeader ciphertext ad) :=
  h.update _ (decrypt_frame P b env encHeader ciphertext ad (s.state p)) rfl rfl

theorem step (h : NoncesUsed s) (b : Build) (e : Event K) : NoncesUsed (s.step P b e) := by
  cases e with
  | encrypt p plaintext ad => exact h.encrypt p plaintext ad
  | decrypt p env encHeader ciphertext ad => exact h.decrypt b p env encHeader ciphertext ad

omit [DecidableEq K] in
/-- A sent message is determined by its encrypted header. -/
theorem encHeader_inj (h : NoncesUsed s) {m m' : Sealed K} (hm : m ∈ s.sent) (hm' : m' ∈ s.sent)
    (heq : m.encHeader = m'.encHeader) : m = m' := by
  by_contra hne
  have : Std.Symm fun m m' : Sealed K => nonceOf m ≠ nonceOf m' := ⟨fun _ _ h => h.symm⟩
  refine h.distinct.forall hm hm' hne ?_
  rw [nonceOf, nonceOf, heq]

end NoncesUsed

theorem Reachable.noncesUsed {b : Build} {sk : K} {bob : DhPrivateKey}
    {G : Session K → Event K → Prop} {s : Session K} (h : Reachable P b sk bob G s) :
    NoncesUsed s :=
  h.invariant (fun _ _ h₀ => NoncesUsed.start h₀) fun _ e _ hs _ => hs.step b e

/-! ### Runs with saved states -/

/-- A call by one of the parties, or a party replacing its state by what it
saved of it. -/
inductive StoredEvent (K : Type) where
  | call (e : Event K)
  | restore (p : Party) (mapOrder : HashOrder (K × UInt32))
      (setOrder : SetOrder (DhPublicKey × UInt32))

/-- Save the state of `p` and go on with the restored one. -/
def Session.restore (s : Session K) (p : Party) (mapOrder : HashOrder (K × UInt32))
    (setOrder : SetOrder (DhPublicKey × UInt32)) : Session K :=
  match serialize mapOrder setOrder (s.state p) with
  | some saved => { s with state := Function.update s.state p (deserialize saved) }
  | none => s

def storedStep (b : Build) (s : Session K) : StoredEvent K → Session K
  | .call e => s.step P b e
  | .restore p mapOrder setOrder => s.restore p mapOrder setOrder

theorem NoncesUsed.restore {s : Session K} (h : NoncesUsed s) (p : Party)
    (mapOrder : HashOrder (K × UInt32)) (setOrder : SetOrder (DhPublicKey × UInt32)) :
    NoncesUsed (s.restore p mapOrder setOrder) := by
  unfold Session.restore
  split
  case h_1 saved hsaved =>
    obtain ⟨mkskipped, -, hst⟩ := deserialize_serialize hsaved
    exact h.update (p := p) (deserialize saved) (by rw [hst]; rfl) rfl rfl
  case h_2 => exact h

/-- **Header nonces never repeat**: over any run, whatever the network delivers
and whenever a party restores its state, the nonces of the encrypted headers
that `encrypt` returned are pairwise distinct, across both parties; so no key
and nonce are used for two headers. -/
theorem nonces_distinct (b : Build) (sk : K) (bob dhS : DhPrivateKey) {s₀ : Session K}
    (h₀ : Session.start P sk bob dhS = .ok s₀) (es : List (StoredEvent K)) :
    (Machine.run (storedStep P b) s₀ es).sent.Pairwise (fun m m' =>
      nonceOf m ≠ nonceOf m' ∧ (m.headerKey, nonceOf m) ≠ (m'.headerKey, nonceOf m')) := by
  have hinv : NoncesUsed (Machine.run (storedStep P b) s₀ es) := by
    refine Machine.run_invariant (fun s e hs => ?_) es (NoncesUsed.start h₀)
    cases e with
    | call e => exact hs.step b e
    | restore p mapOrder setOrder => exact hs.restore p mapOrder setOrder
  refine hinv.distinct.imp fun hne => ⟨hne, fun heq => hne (Prod.mk.inj heq).2⟩

open Symbolic in
/-- Two messages, with the state saved and restored in between. -/
theorem nonces_distinct_across_restore :
    (Machine.run (storedStep primitives .release) session
      [.call (.encrypt .initiator [0x61] []),
        .restore .initiator ⟨id, fun _ => .refl _⟩ ⟨Finset.toList, Finset.toList_toFinset⟩,
        .call (.encrypt .initiator [0x62] [])]).sent.Pairwise (fun m m' =>
      nonceOf m ≠ nonceOf m' ∧ (m.headerKey, nonceOf m) ≠ (m'.headerKey, nonceOf m')) :=
  nonces_distinct primitives .release .secret _ _ start _

end Ratchet
