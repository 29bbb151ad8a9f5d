/-
A machine explained by a relation.

`Runs step t ls os t'` says that the labelled transition relation `step` can go
from `t` to `t'` through the labels `ls` with the outputs `os`.

* `Along.simulates` — **the rule for simulations**: if every step of the machine
  from related states is matched by a transition with the same output, then so
  is every run;
* `Along.projects` — if some steps of the machine are steps of another and the rest
  are none, so is every run, with the outputs of the other.
-/
import LibsignalDezire.Lib.Machine

namespace Machine

variable {σ τ ε ℓ ω : Type*}

/-- The runs of a transition relation with outputs. -/
inductive Runs (step : τ → ℓ → ω → τ → Prop) : τ → List ℓ → List ω → τ → Prop where
  | nil (t : τ) : Runs step t [] [] t
  | cons {t t' t'' : τ} {l : ℓ} {o : ω} {ls : List ℓ} {os : List ω} :
      step t l o t' → Runs step t' ls os t'' → Runs step t (l :: ls) (o :: os) t''

variable {step : σ → ε → σ} {out : σ → ε → ω} {label : σ → ε → ℓ} {G : σ → ε → Prop}
  {astep : τ → ℓ → ω → τ → Prop} {R : σ → τ → Prop}

/-- **The rule for simulations.** -/
theorem Along.simulates
    (hstep : ∀ s t e, R s t → G s e → ∃ t', astep t (label s e) (out s e) t' ∧ R (step s e) t')
    {s : σ} {t : τ} {es : List ε} (hes : Along step G s es) (h : R s t) :
    ∃ t', Runs astep t (trace step label s es) (trace step out s es) t' ∧
      R (run step s es) t' := by
  induction es generalizing s t with
  | nil => exact ⟨t, .nil t, h⟩
  | cons e es ih =>
    obtain ⟨t₁, hfirst, hrel⟩ := hstep s t e h hes.1
    obtain ⟨t₂, hrest, hend⟩ := ih hes.2 hrel
    exact ⟨t₂, .cons hfirst hrest, hend⟩

/-! ### Projections -/

variable {σ' ε' : Type*} {step' : σ' → ε' → σ'} {out' : σ' → ε' → ω} {event : σ → ε → Option ε'}
  {reading : σ → ε → Option ω} {S : σ → σ' → Prop}

/-- **The rule for projections.** -/
theorem Along.projects
    (hsome : ∀ s t e e', S s t → G s e → event s e = some e' →
      reading s e = some (out' t e') ∧ S (step s e) (step' t e'))
    (hnone : ∀ s t e, S s t → G s e → event s e = none →
      reading s e = none ∧ S (step s e) t)
    {s : σ} {t : σ'} {es : List ε} (hes : Along step G s es) (h : S s t) :
    (trace step reading s es).reduceOption
        = trace step' out' t (trace step event s es).reduceOption ∧
      S (run step s es) (run step' t (trace step event s es).reduceOption) := by
  induction es generalizing s t with
  | nil => exact ⟨rfl, h⟩
  | cons e es ih =>
    rw [trace, trace, run_cons]
    cases he : event s e with
    | none =>
      obtain ⟨hreading, hrel⟩ := hnone s t e h hes.1 he
      rw [hreading, List.reduceOption_cons_of_none, List.reduceOption_cons_of_none]
      exact ih hes.2 hrel
    | some e' =>
      obtain ⟨hreading, hrel⟩ := hsome s t e e' h hes.1 he
      obtain ⟨htrace, hend⟩ := ih hes.2 hrel
      rw [hreading, List.reduceOption_cons_of_some, List.reduceOption_cons_of_some,
        htrace, trace, run_cons]
      exact ⟨rfl, hend⟩

end Machine
