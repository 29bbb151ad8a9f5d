/-
What Java has to do with the memory of the library.

Java holds states only: every other buffer of a binding is copied to an array and given
back at once.  `Handles` are the states that it has been handed out and not freed.

* `java_contract_exact` — **memory safety of the bindings**: in every run the calls are
  defined exactly as long as they pass handles that are null or not freed, and up to there
  the library's memory has a state at each handle and nothing else.
-/
import LibsignalDezire.Ffi.Contract
import LibsignalDezire.Jni.Ratchet

namespace Jni

open Ffi (Block Kind Mem)
open Ratchet (RatchetState SavedState CallEnv Build)

variable {K : Type}

/-- The states that Java holds. -/
abbrev Handles := Heap PUnit

namespace Handles

/-- What Java notes of a reply. -/
def record (L : Handles) : Call K → Reply K → Handles
  | .free statePtr, _ => L.set statePtr none
  | _, .pointer statePtr => L.set statePtr (some ⟨⟩)
  | _, _ => L

/-- Null, or a state that was not freed. -/
def Live (L : Handles) (statePtr : ℕ) : Prop := statePtr = 0 ∨ L.block statePtr = some ⟨⟩

/-- **The contract.**  Nothing is read of a state if an array is missing. -/
def Respects (L : Handles) : Call K → Prop
  | .free statePtr => L.Live statePtr
  | .encrypt statePtr plaintextArr _ => plaintextArr = none ∨ L.Live statePtr
  | .decrypt _ statePtr headerArr ciphertextArr _ =>
    (headerArr = none ∨ ciphertextArr = none) ∨ L.Live statePtr
  | .serialize _ _ statePtr => L.Live statePtr
  | _ => True

end Handles

/-- The memory has a state at each handle, and nothing else. -/
def Accounts (h : Heap (Block K)) (L : Handles) : Prop :=
  h.map Block.kind = L.map fun _ => Kind.state

/-! ### One call -/

section Calls

variable {h : Heap (Block K)} {L : Handles}

theorem Accounts.state_iff (hL : Accounts h L) {statePtr : ℕ} :
    (Ffi.stateAt h statePtr).isSome ↔ L.block statePtr = some ⟨⟩ := by
  rw [Ffi.stateAt_isSome, hL, Heap.map_block, Option.map_eq_some_iff]
  constructor
  · rintro ⟨u, hu, -⟩
    exact hu
  · intro hu
    exact ⟨⟨⟩, hu, rfl⟩

theorem Accounts.stateAt_of_live (hL : Accounts h L) {statePtr : ℕ} (hne : statePtr ≠ 0)
    (hlive : L.Live statePtr) : ∃ state, Ffi.stateAt h statePtr = some state :=
  Option.isSome_iff_exists.mp (hL.state_iff.mpr (hlive.resolve_left hne))

theorem Accounts.stateAt_of_not_live (hL : Accounts h L) {statePtr : ℕ}
    (hlive : ¬ L.Live statePtr) : statePtr ≠ 0 ∧ Ffi.stateAt h statePtr = none := by
  rw [Handles.Live, not_or, ← hL.state_iff, Option.not_isSome_iff_eq_none] at hlive
  exact hlive

/-- A state is overwritten with a state. -/
theorem Accounts.set_state (hL : Accounts h L) {statePtr : ℕ} {state state' : RatchetState K}
    (hstate : Ffi.stateAt h statePtr = some state) :
    Accounts (h.set statePtr (some (.state state'))) L := by
  have hkind : (h.map Block.kind).block statePtr = some .state := by
    rw [Heap.map_block, (Ffi.stateAt_eq_some h).mp hstate]
    rfl
  rw [Accounts, Heap.map_set, Option.map_some, Block.kind, Heap.set_eq_self hkind]
  exact hL

theorem Accounts.boxed (hL : Accounts h L) (A : Allocator (Block K))
    (state : Option (RatchetState K)) :
    ∃ ptr h', Ffi.boxed A state h = (.ok ptr, h') ∧ Accounts h' (L.set ptr (some ⟨⟩)) := by
  obtain ⟨ptr, h', hrun, hmap⟩ := Ffi.boxed_apply h A state
  refine ⟨ptr, h', hrun, ?_⟩
  rw [Accounts, hmap, hL, Heap.map_set]
  rfl

variable [DecidableEq K] (P : Ratchet.Primitives K) (ofBytes : BytesN 32 → K) (b : Build)

/-- What a call does to memory that Java has an account of. -/
def Accounted (h : Heap (Block K)) (L : Handles) (c : Call K)
    (x : Outcome Fault (Reply K) × Heap (Block K)) : Prop :=
  (L.Respects c ∧ ((∃ r h', x = (.ok r, h') ∧ Accounts h' (L.record c r)) ∨ x = (.panic, h))) ∨
    (¬ L.Respects c ∧ x = (.err .undefined, h))

variable {P ofBytes b}

theorem Accounts.encrypt (hL : Accounts h L) (statePtr : ℕ) (plaintextArr adArr : Option Bytes) :
    Accounted h L (.encrypt statePtr plaintextArr adArr)
      (Call.run P ofBytes b (.encrypt statePtr plaintextArr adArr) h) := by
  rw [Call.run, Exec.bind_apply]
  by_cases hnull : statePtr = 0 ∨ plaintextArr = none
  · rw [ratchetEncrypt_of_null P adArr hnull]
    exact .inl ⟨hnull.symm.imp_right .inl, .inl ⟨_, h, rfl, hL⟩⟩
  obtain ⟨hne, hsome⟩ := not_or.mp hnull
  obtain ⟨plaintext, rfl⟩ := Option.ne_none_iff_exists'.mp hsome
  by_cases hlive : L.Live statePtr
  · obtain ⟨state, hstate⟩ := hL.stateAt_of_live hne hlive
    refine .inl ⟨.inr hlive, ?_⟩
    rw [ratchetEncrypt_of_some P plaintext adArr hstate]
    rcases Ratchet.encrypt P plaintext (adArr.getD []) state with
      ⟨⟨header, ciphertext⟩ | e | _, state'⟩
    · exact .inl ⟨_, _, rfl, hL.set_state hstate⟩
    · exact .inl ⟨_, _, rfl, hL.set_state hstate⟩
    · exact .inr rfl
  · obtain ⟨-, hstate⟩ := hL.stateAt_of_not_live hlive
    rw [ratchetEncrypt_of_none P plaintext adArr hne hstate]
    exact .inr ⟨not_or.mpr ⟨hsome, hlive⟩, rfl⟩

theorem Accounts.decrypt (hL : Accounts h L) (env : CallEnv K) (statePtr : ℕ)
    (headerArr ciphertextArr adArr : Option Bytes) :
    Accounted h L (.decrypt env statePtr headerArr ciphertextArr adArr)
      (Call.run P ofBytes b (.decrypt env statePtr headerArr ciphertextArr adArr) h) := by
  rw [Call.run, Exec.bind_apply]
  by_cases hnull : statePtr = 0 ∨ headerArr = none ∨ ciphertextArr = none
  · rw [ratchetDecrypt_of_null P b env adArr hnull]
    exact .inl ⟨hnull.symm.imp_right .inl, .inl ⟨_, h, rfl, hL⟩⟩
  obtain ⟨hne, hsome⟩ := not_or.mp hnull
  obtain ⟨header, rfl⟩ := Option.ne_none_iff_exists'.mp (not_or.mp hsome).1
  obtain ⟨ciphertext, rfl⟩ := Option.ne_none_iff_exists'.mp (not_or.mp hsome).2
  by_cases hlive : L.Live statePtr
  · obtain ⟨state, hstate⟩ := hL.stateAt_of_live hne hlive
    refine .inl ⟨.inr hlive, ?_⟩
    rw [ratchetDecrypt_of_some P b env header ciphertext adArr hstate]
    rcases Ratchet.decrypt P b env header ciphertext (adArr.getD []) state with
      ⟨plaintext | e | _, state'⟩
    · exact .inl ⟨_, _, rfl, hL.set_state hstate⟩
    · exact .inl ⟨_, _, rfl, hL.set_state hstate⟩
    · exact .inr rfl
  · obtain ⟨-, hstate⟩ := hL.stateAt_of_not_live hlive
    rw [ratchetDecrypt_of_none P b env header ciphertext adArr hne hstate]
    exact .inr ⟨not_or.mpr ⟨hsome, hlive⟩, rfl⟩

theorem Accounts.serialize (hL : Accounts h L) (mapOrder : Ratchet.HashOrder (K × UInt32))
    (setOrder : Ratchet.SetOrder (Ratchet.DhPublicKey × UInt32)) (statePtr : ℕ) :
    Accounted h L (.serialize mapOrder setOrder statePtr)
      (Call.run P ofBytes b (.serialize mapOrder setOrder statePtr) h) := by
  rw [Call.run, ratchetSerialize]
  by_cases hnull : statePtr = 0
  · rw [if_pos hnull]
    exact .inl ⟨.inl hnull, .inl ⟨_, h, rfl, hL⟩⟩
  rw [if_neg hnull]
  simp only [Exec.bind_apply, Ffi.derefState_apply]
  by_cases hlive : L.Live statePtr
  · obtain ⟨state, hstate⟩ := hL.stateAt_of_live hnull hlive
    rw [hstate]
    exact .inl ⟨hlive, .inl ⟨_, h, rfl, hL⟩⟩
  · obtain ⟨-, hstate⟩ := hL.stateAt_of_not_live hlive
    rw [hstate]
    exact .inr ⟨hlive, rfl⟩

theorem Accounts.free (hL : Accounts h L) (statePtr : ℕ) :
    Accounted h L (.free statePtr) (Call.run P ofBytes b (.free statePtr) h) := by
  have hiff : statePtr = 0 ∨ (h.map Block.kind).block statePtr = some .state ↔
    L.Live statePtr := by
    rw [← Ffi.stateAt_isSome, hL.state_iff, Handles.Live]
  rw [Call.run, Exec.bind_apply, ← free_throughC]
  by_cases hlive : L.Live statePtr
  · rw [Ffi.ratchetFree_of_held h (hiff.mpr hlive)]
    refine .inl ⟨hlive, .inl ⟨_, _, rfl, ?_⟩⟩
    rw [Accounts, Heap.map_set, hL, Handles.record, Heap.map_set]
    rfl
  · rw [Ffi.ratchetFree_of_not_held h (mt hiff.mp hlive)]
    exact .inr ⟨hlive, rfl⟩

/-- **A call is defined if it respects the contract, and only then**, and Java's account
stays right. -/
theorem Accounts.run (hL : Accounts h L) (c : Call K) :
    Accounted h L c (c.run P ofBytes b h) := by
  cases c with
  | initSender A dhS skArr pubArr =>
    obtain ⟨state, hboxed⟩ := ratchetInitSender_eq_boxed P ofBytes A dhS skArr pubArr
    obtain ⟨ptr, h', hrun, hL'⟩ := hL.boxed A state
    rw [Call.run, hboxed, Exec.bind_apply, hrun]
    exact .inl ⟨trivial, .inl ⟨_, _, rfl, hL'⟩⟩
  | initReceiver A skArr privArr pubArr =>
    obtain ⟨state, hboxed⟩ := ratchetInitReceiver_eq_boxed P ofBytes A skArr privArr pubArr
    obtain ⟨ptr, h', hrun, hL'⟩ := hL.boxed A state
    rw [Call.run, hboxed, Exec.bind_apply, hrun]
    exact .inl ⟨trivial, .inl ⟨_, _, rfl, hL'⟩⟩
  | free statePtr => exact hL.free statePtr
  | encrypt statePtr plaintextArr adArr => exact hL.encrypt statePtr plaintextArr adArr
  | decrypt env statePtr headerArr ciphertextArr adArr =>
    exact hL.decrypt env statePtr headerArr ciphertextArr adArr
  | serialize mapOrder setOrder statePtr => exact hL.serialize mapOrder setOrder statePtr
  | deserialize A jsonStr =>
    obtain ⟨ptr, h', hrun, hL'⟩ := hL.boxed A (jsonStr.join.map Ratchet.deserialize)
    rw [Call.run, ratchetDeserialize_eq_boxed, Exec.bind_apply, hrun]
    exact .inl ⟨trivial, .inl ⟨_, _, rfl, hL'⟩⟩

end Calls

/-! ### Runs of a JVM -/

section Run

variable [DecidableEq K] (P : Ratchet.Primitives K) (ofBytes : BytesN 32 → K) (b : Build)

/-- A JVM that uses the library. -/
structure Process (K : Type) where
  heap : Heap (Block K)
  handles : Handles

/-- Nothing has been called. -/
def Process.start : Process K := ⟨Heap.empty, Heap.empty⟩

/-- A call that does not return ends the process. -/
def Process.step (s : Process K) (c : Call K) : Process K :=
  match c.run P ofBytes b s.heap with
  | (.ok r, h) => ⟨h, s.handles.record c r⟩
  | (_, h) => ⟨h, s.handles⟩

/-- The call is defined: it returns, or it aborts the process. -/
def Process.Defined (s : Process K) (c : Call K) : Prop :=
  (c.run P ofBytes b s.heap).1 ≠ .err .undefined

def Process.Respects (s : Process K) (c : Call K) : Prop := s.handles.Respects c

variable {P ofBytes b}

theorem Accounts.defined_iff {s : Process K} (hs : Accounts s.heap s.handles) (c : Call K) :
    s.Defined P ofBytes b c ↔ s.Respects c := by
  have hcall : Accounted s.heap s.handles c (c.run P ofBytes b s.heap) := hs.run c
  rcases hcall with ⟨hc, hrun⟩ | ⟨hc, hrun⟩
  · refine iff_of_true ?_ hc
    rw [Process.Defined]
    rcases hrun with ⟨r, h', hrun, -⟩ | hrun
    · rw [hrun]
      intro herr
      cases herr
    · rw [hrun]
      intro herr
      cases herr
  · refine iff_of_false ?_ hc
    rw [Process.Defined, hrun]
    exact fun hne => hne rfl

theorem Accounts.step {s : Process K} (hs : Accounts s.heap s.handles) {c : Call K}
    (hc : s.Respects c) :
    Accounts (s.step P ofBytes b c).heap (s.step P ofBytes b c).handles := by
  have hcall : Accounted s.heap s.handles c (c.run P ofBytes b s.heap) := hs.run c
  rw [Process.step]
  rcases hcall with ⟨-, ⟨r, h', hrun, hL⟩ | hrun⟩ | ⟨hnot, -⟩
  · rw [hrun]
    exact hL
  · rw [hrun]
    exact hs
  · exact absurd hc hnot

variable (P ofBytes b)

/-- **Memory safety of the bindings.**  Whatever Java calls: the calls are all defined if
and only if each respects the contract.  Up to there the memory of the library has a
state at each handle that Java holds, and nothing else. -/
theorem java_contract_exact (cs : List (Call K)) :
    (Machine.Along (Process.step P ofBytes b) (Process.Defined P ofBytes b) Process.start cs ↔
      Machine.Along (Process.step P ofBytes b) Process.Respects Process.start cs) ∧
    (Machine.Along (Process.step P ofBytes b) Process.Respects Process.start cs →
      Accounts (Machine.run (Process.step P ofBytes b) Process.start cs).heap
        (Machine.run (Process.step P ofBytes b) Process.start cs).handles) := by
  have hstart : Accounts (Heap.empty : Heap (Block K)) Heap.empty := rfl
  constructor
  · exact Machine.along_iff_of_invariant (fun _ c hs => Accounts.defined_iff hs c)
      (fun _ _ hs hc => Accounts.step hs hc) hstart
  · intro hcs
    exact hcs.invariant (I := fun s => Accounts s.heap s.handles)
      (fun _ _ hs hc => Accounts.step hs hc) hstart

end Run

end Jni
