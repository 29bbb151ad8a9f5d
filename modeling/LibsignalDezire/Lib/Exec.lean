/-
Calls that return, fail or abort, and what they leave behind.

`Outcome ε α` is the result of one call: a value, an error of type `ε`, or an
abort of the process (`panic`).  `Exec σ ε α` is a call with exclusive access
to a state `σ`.  Unlike a transaction it does not roll back: the state written
before an error is the state the caller is left with.

* `Outcome.bind_eq_ok`, `Exec.bind_eq_ok` — a sequence succeeds exactly when
  every part does, so a successful call can be taken apart step by step;
* `Outcome.Returns` — the call did not abort.
-/
import Mathlib.Tactic.Basic

/-- The result of a call: a value, an error, or an abort of the process. -/
inductive Outcome (ε α : Type) where
  | ok (a : α)
  | err (e : ε)
  | panic
  deriving DecidableEq, Repr

namespace Outcome

variable {ε α β : Type}

/-- Run `f` on the value of `x`; errors and aborts pass through. -/
def bind (x : Outcome ε α) (f : α → Outcome ε β) : Outcome ε β :=
  match x with
  | ok a => f a
  | err e => err e
  | panic => panic

instance : Monad (Outcome ε) where
  pure := ok
  bind := bind

@[simp] theorem pure_def (a : α) : (pure a : Outcome ε α) = ok a := rfl

@[simp] theorem ok_bind (a : α) (f : α → Outcome ε β) : (ok a >>= f) = f a := rfl

@[simp] theorem err_bind (e : ε) (f : α → Outcome ε β) :
    ((err e : Outcome ε α) >>= f) = err e := rfl

@[simp] theorem panic_bind (f : α → Outcome ε β) :
    ((panic : Outcome ε α) >>= f) = panic := rfl

theorem bind_eq_ok {x : Outcome ε α} {f : α → Outcome ε β} {b : β} :
    (x >>= f) = ok b ↔ ∃ a, x = ok a ∧ f a = ok b := by
  cases x <;> simp

theorem bind_eq_panic {x : Outcome ε α} {f : α → Outcome ε β} :
    (x >>= f) = panic ↔ x = panic ∨ ∃ a, x = ok a ∧ f a = panic := by
  cases x <;> simp

/-- The call came back to its caller, with a value or with an error. -/
def Returns (x : Outcome ε α) : Prop := x ≠ panic

instance (x : Outcome ε α) : Decidable x.Returns := by
  unfold Returns
  cases x
  · exact isTrue (by simp)
  · exact isTrue (by simp)
  · exact isFalse (by simp)

@[simp] theorem returns_ok (a : α) : (ok a : Outcome ε α).Returns := by simp [Returns]

@[simp] theorem returns_err (e : ε) : (err e : Outcome ε α).Returns := by simp [Returns]

@[simp] theorem not_returns_panic : ¬ (panic : Outcome ε α).Returns := by simp [Returns]

theorem returns_bind {x : Outcome ε α} {f : α → Outcome ε β} :
    (x >>= f).Returns ↔ x.Returns ∧ ∀ a, x = ok a → (f a).Returns := by
  cases x <;> simp

/-- The call returned a value (Rust's `is_ok`). -/
def isOk : Outcome ε α → Bool
  | ok _ => true
  | _ => false

theorem isOk_iff {x : Outcome ε α} : x.isOk ↔ ∃ a, x = ok a := by
  cases x <;> simp [isOk]

/-- The value of a call that returned one. -/
def get : (x : Outcome ε α) → x.isOk → α
  | ok a, _ => a

/-- `Option` as a call that aborts on `none` (Rust's `expect`). -/
def expect : Option α → Outcome ε α
  | some a => ok a
  | none => panic

@[simp] theorem expect_some (a : α) : (expect (some a) : Outcome ε α) = ok a := rfl

@[simp] theorem expect_none : (expect none : Outcome ε α) = panic := rfl

/-- `Option` as a call that fails with `e` on `none` (Rust's `ok_or`). -/
def okOr (e : ε) : Option α → Outcome ε α
  | some a => ok a
  | none => err e

@[simp] theorem okOr_some (e : ε) (a : α) : okOr e (some a) = ok a := rfl

@[simp] theorem okOr_none (e : ε) : (okOr e none : Outcome ε α) = err e := rfl

/-- Return early with `e` unless `b` holds. -/
def ensure (b : Bool) (e : ε) : Outcome ε PUnit := if b then ok ⟨⟩ else err e

@[simp] theorem ensure_true (e : ε) : ensure true e = ok ⟨⟩ := rfl

@[simp] theorem ensure_false (e : ε) : ensure false e = err e := rfl

theorem ensure_bind_eq_ok {b : Bool} {e : ε} {f : PUnit → Outcome ε α} {a : α} :
    (ensure b e >>= f) = ok a ↔ b = true ∧ f ⟨⟩ = ok a := by
  cases b <;> simp

/-- Translate the error (Rust's `map_err`). -/
def mapErr {ε' : Type} (f : ε → ε') : Outcome ε α → Outcome ε' α
  | ok a => ok a
  | err e => err (f e)
  | panic => panic

@[simp] theorem mapErr_ok {ε' : Type} (f : ε → ε') (a : α) : (ok a).mapErr f = ok a := rfl

@[simp] theorem mapErr_err {ε' : Type} (f : ε → ε') (e : ε) :
    (err e : Outcome ε α).mapErr f = err (f e) := rfl

end Outcome

/-- A call with exclusive access to a state; the state it reached is kept
whatever the outcome. -/
def Exec (σ ε α : Type) : Type := σ → Outcome ε α × σ

namespace Exec

variable {σ ε α β : Type}

/-- Sequencing: `f` runs on the value and in the state that `x` left. -/
def bind (x : Exec σ ε α) (f : α → Exec σ ε β) : Exec σ ε β := fun s =>
  match x s with
  | (.ok a, s') => f a s'
  | (.err e, s') => (.err e, s')
  | (.panic, s') => (.panic, s')

instance : Monad (Exec σ ε) where
  pure a := fun s => (.ok a, s)
  bind := bind

/-- Read the state. -/
def get : Exec σ ε σ := fun s => (.ok s, s)

/-- Replace the state. -/
def put (s : σ) : Exec σ ε PUnit := fun _ => (.ok ⟨⟩, s)

/-- Return early with an error. -/
def throw (e : ε) : Exec σ ε α := fun s => (.err e, s)

/-- A call that does not touch the state. -/
def lift (x : Outcome ε α) : Exec σ ε α := fun s => (x, s)

@[simp] theorem pure_apply (a : α) (s : σ) : (pure a : Exec σ ε α) s = (.ok a, s) := rfl

@[simp] theorem get_apply (s : σ) : (get : Exec σ ε σ) s = (.ok s, s) := rfl

@[simp] theorem put_apply (s t : σ) : (put t : Exec σ ε PUnit) s = (.ok ⟨⟩, t) := rfl

@[simp] theorem throw_apply (e : ε) (s : σ) : (throw e : Exec σ ε α) s = (.err e, s) := rfl

@[simp] theorem lift_apply (x : Outcome ε α) (s : σ) : (lift x : Exec σ ε α) s = (x, s) := rfl

theorem bind_apply (x : Exec σ ε α) (f : α → Exec σ ε β) (s : σ) :
    (x >>= f) s = match x s with
      | (.ok a, s') => f a s'
      | (.err e, s') => (.err e, s')
      | (.panic, s') => (.panic, s') := rfl

theorem bind_eq_ok {x : Exec σ ε α} {f : α → Exec σ ε β} {s t : σ} {b : β} :
    (x >>= f) s = (.ok b, t) ↔ ∃ a s', x s = (.ok a, s') ∧ f a s' = (.ok b, t) := by
  rw [bind_apply]
  rcases x s with ⟨a | _ | _, s'⟩
  · constructor
    · exact fun h => ⟨a, s', rfl, h⟩
    · rintro ⟨_, _, h, hf⟩
      cases h
      exact hf
  · simp
  · simp

end Exec
