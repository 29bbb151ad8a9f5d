/-
Blocks of memory at addresses.

A `Heap B` is what an allocator has handed out and not taken back: finitely many
blocks, none of them at the null address.  Calls on it are undefined (`Fault`) when
they touch a block that is not there.

* `Heap.set` — put a block at an address or take it away; at null it does nothing;
* `Allocator` — an allocator returns addresses that are free;
* `Heap.map_set` — forgetting what the blocks contain commutes with every change, so
  who owns which addresses can be kept apart from their contents.
-/
import Mathlib.Data.Nat.Find
import LibsignalDezire.Lib.Exec

/-- What the language does not define. -/
inductive Fault where
  | undefined
  deriving DecidableEq

/-- Finitely many blocks at nonzero addresses. -/
structure Heap (B : Type) where
  block : ℕ → Option B
  null : block 0 = none
  finite : ∃ n, ∀ a, n ≤ a → block a = none

namespace Heap

variable {B C : Type}

@[ext] theorem ext {h h' : Heap B} (heq : ∀ a, h.block a = h'.block a) : h = h' := by
  cases h
  cases h'
  congr
  exact funext heq

/-- Nothing has been handed out. -/
def empty : Heap B where
  block _ := none
  null := rfl
  finite := ⟨0, fun _ _ => rfl⟩

@[simp] theorem empty_block (a : ℕ) : (empty : Heap B).block a = none := rfl

/-- Replace what is at an address. -/
def set (h : Heap B) (a : ℕ) (b : Option B) : Heap B where
  block x := if x = a then (if a = 0 then none else b) else h.block x
  null := by
    split
    · rename_i h0
      rw [if_pos h0.symm]
    · exact h.null
  finite := by
    obtain ⟨n, hn⟩ := h.finite
    refine ⟨max n (a + 1), fun x hx => ?_⟩
    rw [if_neg (by omega)]
    exact hn x (by omega)

theorem set_block (h : Heap B) (a : ℕ) (b : Option B) (x : ℕ) :
    (h.set a b).block x = if x = a then (if a = 0 then none else b) else h.block x := rfl

@[simp] theorem set_block_self (h : Heap B) {a : ℕ} (ha : a ≠ 0) (b : Option B) :
    (h.set a b).block a = b := by
  rw [set_block, if_pos rfl, if_neg ha]

theorem set_block_of_ne (h : Heap B) {a x : ℕ} (hx : x ≠ a) (b : Option B) :
    (h.set a b).block x = h.block x := by
  rw [set_block, if_neg hx]

@[simp] theorem set_null (h : Heap B) (b : Option B) : h.set 0 b = h := by
  refine Heap.ext fun x => ?_
  rw [set_block]
  split
  · subst x
    rw [if_pos rfl, h.null]
  · rfl

@[simp] theorem set_set (h : Heap B) (a : ℕ) (b c : Option B) :
    (h.set a b).set a c = h.set a c := by
  refine Heap.ext fun x => ?_
  rw [set_block, set_block, set_block]
  split <;> rfl

/-- Writing what is there changes nothing. -/
theorem set_eq_self {h : Heap B} {a : ℕ} {b : Option B} (hb : h.block a = b) :
    h.set a b = h := by
  refine Heap.ext fun x => ?_
  rw [set_block]
  split
  · subst x
    split
    · subst a
      rw [h.null]
    · exact hb.symm
  · rfl

/-- What was put at a free address and is taken away leaves no trace. -/
theorem set_set_none {h : Heap B} {a : ℕ} (ha : h.block a = none) (b : Option B) :
    (h.set a b).set a none = h := by
  rw [set_set, set_eq_self ha]

theorem set_comm (h : Heap B) {a a' : ℕ} (hne : a ≠ a') (b b' : Option B) :
    (h.set a b).set a' b' = (h.set a' b').set a b := by
  refine Heap.ext fun x => ?_
  simp only [set_block]
  by_cases hx : x = a
  · rw [if_pos hx, if_pos hx, if_neg (fun h' => hne (hx.symm.trans h'))]
  · rw [if_neg hx, if_neg hx]

theorem ne_zero_of_block {h : Heap B} {a : ℕ} {b : B} (hb : h.block a = some b) : a ≠ 0 := by
  rintro rfl
  rw [h.null] at hb
  cases hb

/-! ### What the blocks are -/

/-- The same addresses with other contents. -/
def map (f : B → C) (h : Heap B) : Heap C where
  block a := (h.block a).map f
  null := by rw [h.null, Option.map_none]
  finite := by
    obtain ⟨n, hn⟩ := h.finite
    exact ⟨n, fun a ha => by rw [hn a ha, Option.map_none]⟩

@[simp] theorem map_block (f : B → C) (h : Heap B) (a : ℕ) :
    (h.map f).block a = (h.block a).map f := rfl

@[simp] theorem map_empty (f : B → C) : (empty : Heap B).map f = empty := rfl

@[simp] theorem map_set (f : B → C) (h : Heap B) (a : ℕ) (b : Option B) :
    (h.set a b).map f = (h.map f).set a (b.map f) := by
  refine Heap.ext fun x => ?_
  rw [map_block, set_block, set_block, map_block]
  split
  · split <;> rfl
  · rfl

theorem map_eq_empty {f : B → C} {h : Heap B} : h.map f = empty ↔ h = empty := by
  constructor
  · intro hmap
    refine Heap.ext fun a => ?_
    have ha := congrArg (fun g => g.block a) hmap
    exact Option.map_eq_none_iff.mp ha
  · rintro rfl
    rfl

end Heap

/-! ### Allocation -/

/-- An allocator: it returns addresses that are free. -/
structure Allocator (B : Type) where
  next : Heap B → ℕ
  ne_zero : ∀ h : Heap B, next h ≠ 0
  fresh : ∀ h : Heap B, h.block (next h) = none

namespace Heap

variable {B : Type}

theorem exists_free (h : Heap B) : ∃ a, a ≠ 0 ∧ h.block a = none := by
  obtain ⟨n, hn⟩ := h.finite
  exact ⟨n + 1, Nat.succ_ne_zero n, hn _ (Nat.le_succ n)⟩

end Heap

/-- The allocator that prefers the address `a`. -/
def Allocator.prefer {B : Type} (a : ℕ) : Allocator B where
  next h := if a ≠ 0 ∧ h.block a = none then a else Nat.find h.exists_free
  ne_zero h := by
    split
    · rename_i ha
      exact ha.1
    · exact (Nat.find_spec h.exists_free).1
  fresh h := by
    split
    · rename_i ha
      exact ha.2
    · exact (Nat.find_spec h.exists_free).2

/-- What is handed out is not where a block is. -/
theorem Allocator.set_block {B : Type} (A : Allocator B) {h : Heap B} {a : ℕ} {b : B}
    (hb : h.block a = some b) (b' : Option B) : (h.set (A.next h) b').block a = some b := by
  rw [Heap.set_block_of_ne, hb]
  rintro rfl
  rw [A.fresh] at hb
  cases hb

/-! ### Calls -/

namespace Heap

variable {B : Type}

/-- Read a block. -/
def load (a : ℕ) : Exec (Heap B) Fault B := fun h =>
  match h.block a with
  | some b => (.ok b, h)
  | none => (.err .undefined, h)

/-- Overwrite a block. -/
def store (a : ℕ) (b : B) : Exec (Heap B) Fault PUnit := fun h =>
  match h.block a with
  | some _ => (.ok ⟨⟩, h.set a (some b))
  | none => (.err .undefined, h)

/-- Hand out a block. -/
def alloc (A : Allocator B) (b : B) : Exec (Heap B) Fault ℕ := fun h =>
  (.ok (A.next h), h.set (A.next h) (some b))

/-- Take back a block, which has to be of the layout that it is taken back with. -/
def free (a : ℕ) (layout : B → Bool) : Exec (Heap B) Fault PUnit := fun h =>
  match h.block a with
  | some b => if layout b then (.ok ⟨⟩, h.set a none) else (.err .undefined, h)
  | none => (.err .undefined, h)

section Calls

variable {h : Heap B} {a : ℕ} {b : B}

theorem load_of_some (hb : h.block a = some b) : load a h = (.ok b, h) := by
  rw [load, hb]

theorem load_of_none (hb : h.block a = none) : load a h = (.err .undefined, h) := by
  rw [load, hb]

theorem store_of_some (hb : h.block a = some b) (b' : B) :
    store a b' h = (.ok ⟨⟩, h.set a (some b')) := by
  rw [store, hb]

theorem free_of_some (hb : h.block a = some b) {layout : B → Bool} (hl : layout b) :
    free a layout h = (.ok ⟨⟩, h.set a none) := by
  rw [free, hb]
  exact if_pos hl

theorem free_of_not {layout : B → Bool} (hl : ∀ b, h.block a = some b → ¬ layout b) :
    free a layout h = (.err .undefined, h) := by
  rw [free]
  split
  · rename_i b hb
    exact if_neg (hl b hb)
  · rfl

theorem free_eq_ok {h' : Heap B} {layout : B → Bool} {u : PUnit}
    (hfree : free a layout h = (.ok u, h')) :
    ∃ b, h.block a = some b ∧ layout b ∧ h' = h.set a none := by
  rw [free] at hfree
  split at hfree
  · rename_i b hb
    split at hfree
    · rename_i hl
      cases hfree
      exact ⟨b, hb, hl, rfl⟩
    · cases hfree
  · cases hfree

/-- A block of another layout is not the one that is taken back. -/
theorem free_block {h' : Heap B} {layout : B → Bool} {u : PUnit}
    (hfree : free a layout h = (.ok u, h')) {x : ℕ} {b : B} (hb : h.block x = some b)
    (hlayout : a = x → layout b = false) : h'.block x = some b := by
  obtain ⟨b', hb', hl, rfl⟩ := free_eq_ok hfree
  rw [set_block_of_ne _ ?_, hb]
  rintro rfl
  rw [hb, Option.some_inj] at hb'
  rw [← hb', hlayout rfl] at hl
  cases hl

end Calls

end Heap
