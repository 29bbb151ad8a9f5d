/-
What can be derived from known terms by rules, and how to show that something
cannot.

`Derivable rule known` is the least set that contains what is known and is
closed under the rules (premises, conclusion).  A term is out of reach as soon
as it belongs to a *guarded* set: one that contains nothing known, and each of
whose elements has, in every rule that concludes it, a premise in the set.
-/
import Mathlib.Logic.Basic

variable {α : Type*}

/-- The terms derivable from `known` by `rule`. -/
inductive Derivable (rule : List α → α → Prop) (known : α → Prop) : α → Prop where
  | known {a} : known a → Derivable rule known a
  | rule {premises a} : rule premises a → (∀ x ∈ premises, Derivable rule known x) →
      Derivable rule known a

namespace Derivable

variable {rule : List α → α → Prop} {known : α → Prop}

/-- **Nothing guarded is derivable**: it is enough to guard a set against the rules
whose premises are derivable. -/
theorem not_guarded_of_derivable {G : α → Prop} (hknown : ∀ a, known a → ¬ G a)
    (hrule : ∀ premises a, rule premises a → (∀ x ∈ premises, Derivable rule known x) → G a →
      ∃ x ∈ premises, G x) {a : α}
    (h : Derivable rule known a) : ¬ G a := by
  induction h with
  | known ha => exact hknown _ ha
  | rule hr hder ih =>
    intro hG
    obtain ⟨x, hx, hGx⟩ := hrule _ _ hr hder hG
    exact ih x hx hGx

/-- The same where every rule is guarded against. -/
theorem not_guarded {G : α → Prop} (hknown : ∀ a, known a → ¬ G a)
    (hrule : ∀ premises a, rule premises a → G a → ∃ x ∈ premises, G x) {a : α}
    (h : Derivable rule known a) : ¬ G a :=
  h.not_guarded_of_derivable hknown fun premises a hr _ => hrule premises a hr

end Derivable
