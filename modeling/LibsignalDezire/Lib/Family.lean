/-
A family of machines of one kind, driven by one list of events.

An event `(i, e)` is for the machine `i`; the others stand still.

* `run_family` — **each machine of the family runs its own events**;
* `Along.own` — what is required of the events of the family, seen from one
  machine;
* `own_eq_split` — an event of one machine has its place in the list of all.
-/
import Mathlib.Logic.Function.Basic
import LibsignalDezire.Lib.Machine

namespace Machine

variable {ι σ ε : Type*} [DecidableEq ι] (step : σ → ε → σ)

/-- One event of the family. -/
def familyStep (w : ι → σ) (e : ι × ε) : ι → σ := Function.update w e.1 (step (w e.1) e.2)

/-- The events of machine `i`. -/
def own (i : ι) (es : List (ι × ε)) : List ε :=
  es.filterMap fun e => if e.1 = i then some e.2 else none

@[simp] theorem own_nil (i : ι) : own i ([] : List (ι × ε)) = [] := rfl

@[simp] theorem own_cons_self (i : ι) (e : ε) (es : List (ι × ε)) :
    own i ((i, e) :: es) = e :: own i es := by
  simp [own]

theorem own_cons_of_ne {i j : ι} (h : j ≠ i) (e : ε) (es : List (ι × ε)) :
    own i ((j, e) :: es) = own i es := by
  simp [own, h]

theorem own_append (i : ι) (es es' : List (ι × ε)) : own i (es ++ es') = own i es ++ own i es' :=
  List.filterMap_append

@[simp] theorem familyStep_self (w : ι → σ) (i : ι) (e : ε) :
    familyStep step w (i, e) i = step (w i) e :=
  Function.update_self _ _ _

theorem familyStep_of_ne (w : ι → σ) {i j : ι} (h : i ≠ j) (e : ε) :
    familyStep step w (j, e) i = w i :=
  Function.update_of_ne h _ _

/-- **Each machine of the family runs its own events.** -/
theorem run_family (w : ι → σ) (es : List (ι × ε)) (i : ι) :
    run (familyStep step) w es i = run step (w i) (own i es) := by
  induction es generalizing w with
  | nil => rfl
  | cons e es ih =>
    obtain ⟨j, e⟩ := e
    rw [run_cons, ih]
    by_cases hj : j = i
    · subst hj
      rw [familyStep_self, own_cons_self, run_cons]
    · rw [familyStep_of_ne step w (Ne.symm hj), own_cons_of_ne hj]

variable {step}

/-- What is required of the events of the family, seen from machine `i`. -/
theorem Along.own {G : (ι → σ) → ι × ε → Prop} {Q : σ → ε → Prop} {i : ι}
    (hGQ : ∀ w e, G w (i, e) → Q (w i) e) {w : ι → σ} {es : List (ι × ε)}
    (h : Along (familyStep step) G w es) : Along step Q (w i) (Machine.own i es) := by
  induction es generalizing w with
  | nil => trivial
  | cons e es ih =>
    obtain ⟨j, e⟩ := e
    have hrest := ih h.2
    by_cases hj : j = i
    · subst hj
      rw [familyStep_self] at hrest
      rw [own_cons_self]
      exact ⟨hGQ w e h.1, hrest⟩
    · rw [familyStep_of_ne step w (Ne.symm hj)] at hrest
      rwa [own_cons_of_ne hj]

/-- An event of one machine has its place in the list of all events. -/
theorem own_eq_split {i : ι} {es : List (ι × ε)} {es₁ es₂ : List ε} {e : ε}
    (h : own i es = es₁ ++ e :: es₂) :
    ∃ before after, es = before ++ (i, e) :: after ∧ own i before = es₁ ∧ own i after = es₂ := by
  obtain ⟨before, rest, rfl, hbefore, hrest⟩ := List.filterMap_eq_append_iff.mp h
  obtain ⟨idle, f, after, rfl, hidle, hf, hafter⟩ := List.filterMap_eq_cons_iff.mp hrest
  split at hf
  case isFalse => cases hf
  case isTrue hi =>
    obtain ⟨j, f⟩ := f
    subst hi
    cases hf
    have hnone : own j idle = [] := List.filterMap_eq_nil_iff.mpr hidle
    have hall : own j (before ++ idle) = es₁ := by
      rw [own_append, hnone, List.append_nil]
      exact hbefore
    exact ⟨before ++ idle, after, by simp, hall, hafter⟩

end Machine
