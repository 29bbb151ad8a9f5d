/-
Two calls side by side.

`Exec.Rel R V x y` says: from states related by `R`, the calls `x` and `y` both
return values related by `V`, or the same error, or both abort, and they leave
states related by `R`.  The rules follow the structure of the calls, so that a
proof about a sequence of calls is a sequence of proofs.  `Exec.RelAt` says it of
two given states.

* `Exec.Rel.bind` — sequencing;
* `Exec.Rel.get`, `Exec.Rel.put` — a state that was read is related to the other,
  and so must be what is written.
-/
import LibsignalDezire.Lib.Exec

namespace Outcome

variable {ε α β α' β' : Type} {V : α → β → Prop} {W : α' → β' → Prop}

/-- Two results with related values, or with the same failure. -/
inductive Rel (V : α → β → Prop) : Outcome ε α → Outcome ε β → Prop where
  | ok {a b} : V a b → Rel V (.ok a) (.ok b)
  | err (e) : Rel V (.err e) (.err e)
  | panic : Rel V .panic .panic

theorem Rel.refl (x : Outcome ε α) : Rel Eq x x := by
  cases x with
  | ok a => exact .ok rfl
  | err e => exact .err e
  | panic => exact .panic

theorem Rel.eq {x y : Outcome ε α} (h : Rel Eq x y) : x = y := by
  cases h with
  | ok h => rw [h]
  | err e => rfl
  | panic => rfl

end Outcome

namespace Exec

variable {σ τ ε α β α' β' : Type} {R : σ → τ → Prop} {V : α → β → Prop} {W : α' → β' → Prop}

/-- From the states `s` and `t`, related results and related states. -/
def RelAt (R : σ → τ → Prop) (V : α → β → Prop) (s : σ) (t : τ) (x : Exec σ ε α)
    (y : Exec τ ε β) : Prop :=
  Outcome.Rel V (x s).1 (y t).1 ∧ R (x s).2 (y t).2

/-- From related states to related results and related states. -/
def Rel (R : σ → τ → Prop) (V : α → β → Prop) (x : Exec σ ε α) (y : Exec τ ε β) : Prop :=
  ∀ s t, R s t → RelAt R V s t x y

/-- The second calls run from the states that the first ones leave. -/
theorem RelAt.bind {s : σ} {t : τ} {x : Exec σ ε α} {y : Exec τ ε β} {f : α → Exec σ ε α'}
    {g : β → Exec τ ε β'} (hxy : RelAt R V s t x y)
    (hfg : ∀ a b, V a b → Rel R W (f a) (g b)) : RelAt R W s t (x >>= f) (y >>= g) := by
  obtain ⟨hresult, hstate⟩ := hxy
  rw [RelAt, bind_apply, bind_apply]
  revert hresult hstate
  rcases x s with ⟨a | e | _, s'⟩ <;> rcases y t with ⟨b | e' | _, t'⟩ <;> rintro ⟨⟩ hstate
  · rename_i hab
    exact hfg a b hab s' t' hstate
  · exact ⟨.err e, hstate⟩
  · exact ⟨.panic, hstate⟩

namespace Rel

theorem bind {x : Exec σ ε α} {y : Exec τ ε β} {f : α → Exec σ ε α'} {g : β → Exec τ ε β'}
    (hxy : Rel R V x y) (hfg : ∀ a b, V a b → Rel R W (f a) (g b)) :
    Rel R W (x >>= f) (y >>= g) :=
  fun s t h => (hxy s t h).bind hfg

theorem pure {a : α} {b : β} (h : V a b) :
    Rel R V (Pure.pure a : Exec σ ε α) (Pure.pure b : Exec τ ε β) :=
  fun _ _ hst => ⟨.ok h, hst⟩

theorem get : Rel R R (Exec.get : Exec σ ε σ) (Exec.get : Exec τ ε τ) :=
  fun _ _ hst => ⟨.ok hst, hst⟩

theorem put {s : σ} {t : τ} (h : R s t) :
    Rel R Eq (Exec.put s : Exec σ ε PUnit) (Exec.put t : Exec τ ε PUnit) :=
  fun _ _ _ => ⟨.ok rfl, h⟩

theorem lift {x : Outcome ε α} {y : Outcome ε β} (h : Outcome.Rel V x y) :
    Rel R V (Exec.lift x) (Exec.lift y) :=
  fun _ _ hst => ⟨h, hst⟩

/-- An early return on a condition that both sides share. -/
theorem guard {c : Prop} [Decidable c] (e : ε) {f : α' → Exec σ ε α} {g : β' → Exec τ ε β}
    {x : Exec σ ε α} {y : Exec τ ε β} (h : Rel R V x y) :
    Rel R V (if c then Exec.throw e >>= f else x) (if c then Exec.throw e >>= g else y) := by
  by_cases hc : c
  · rw [if_pos hc, if_pos hc]
    exact fun _ _ hst => ⟨.err e, hst⟩
  · rw [if_neg hc, if_neg hc]
    exact h

end Rel

end Exec
