/-
Deterministic machines driven by a list of events.

`run step s es` is the state after the events `es`; `Along step P s es` says
that `P` held of every event and of the state it arrived in.

* `Along.invariant` — a predicate that holds at the start and is kept by every
  event satisfying `P` holds at the end of every run along `P`;
* `along_append`, `along_concat` — runs can be cut anywhere, so what is proved
  of the last event of a run is proved of every event of it;
* `run_filterMap_of_idle`, `trace_filterMap_of_idle` — events that change nothing
  can be left out of a run.
-/
import Mathlib.Data.List.ReduceOption

namespace Machine

variable {σ ε : Type*} (step : σ → ε → σ)

/-- The state reached from `s` by the events `es`. -/
def run (s : σ) (es : List ε) : σ := es.foldl step s

@[simp] theorem run_nil (s : σ) : run step s [] = s := rfl

@[simp] theorem run_cons (s : σ) (e : ε) (es : List ε) :
    run step s (e :: es) = run step (step s e) es := rfl

theorem run_map {ι : Type*} (f : ι → ε) (s : σ) (is : List ι) :
    run step s (is.map f) = run (fun s i => step s (f i)) s is :=
  List.foldl_map

theorem run_append (s : σ) (es es' : List ε) :
    run step s (es ++ es') = run step (run step s es) es' := by
  simp [run]

@[simp] theorem run_concat (s : σ) (es : List ε) (e : ε) :
    run step s (es ++ [e]) = step (run step s es) e := by
  simp [run]

/-- What every event keeps holds at the end of every run. -/
theorem run_invariant {step : σ → ε → σ} {I : σ → Prop} (hstep : ∀ s e, I s → I (step s e))
    {s : σ} (es : List ε) (hs : I s) : I (run step s es) := by
  induction es generalizing s with
  | nil => exact hs
  | cons e es ih => exact ih (hstep _ _ hs)

/-- `P` holds of every event of the run, in the state the event arrives in. -/
def Along (P : σ → ε → Prop) : σ → List ε → Prop
  | _, [] => True
  | s, e :: es => P s e ∧ Along P (step s e) es

variable {step} {P Q : σ → ε → Prop}

instance Along.decidable [hP : ∀ s e, Decidable (P s e)] :
    ∀ (s : σ) (es : List ε), Decidable (Along step P s es)
  | _, [] => isTrue trivial
  | s, e :: es =>
    @instDecidableAnd (P s e) (Along step P (step s e) es) (hP s e)
      (Along.decidable (step s e) es)

theorem along_append {s : σ} {es es' : List ε} :
    Along step P s (es ++ es') ↔ Along step P s es ∧ Along step P (run step s es) es' := by
  induction es generalizing s with
  | nil => simp [Along]
  | cons e es ih => simp [Along, ih, and_assoc]

theorem along_concat {s : σ} {es : List ε} {e : ε} :
    Along step P s (es ++ [e]) ↔ Along step P s es ∧ P (run step s es) e := by
  simp [along_append, Along]

theorem along_map {ι : Type*} {f : ι → ε} {s : σ} {is : List ι} :
    Along step P s (is.map f) ↔ Along (fun s i => step s (f i)) (fun s i => P s (f i)) s is := by
  induction is generalizing s with
  | nil => exact Iff.rfl
  | cons i is ih => exact and_congr Iff.rfl ih

theorem Along.mono (hPQ : ∀ s e, P s e → Q s e) {s : σ} {es : List ε}
    (h : Along step P s es) : Along step Q s es := by
  induction es generalizing s with
  | nil => trivial
  | cons e es ih => exact ⟨hPQ _ _ h.1, ih h.2⟩

theorem Along.and {s : σ} {es : List ε} (h : Along step P s es) (h' : Along step Q s es) :
    Along step (fun s e => P s e ∧ Q s e) s es := by
  induction es generalizing s with
  | nil => trivial
  | cons e es ih => exact ⟨⟨h.1, h'.1⟩, ih h.2 h'.2⟩

theorem Along.congr {s : σ} {es : List ε} (h : Along step (fun s e => P s e ↔ Q s e) s es) :
    Along step P s es ↔ Along step Q s es := by
  induction es generalizing s with
  | nil => exact Iff.rfl
  | cons e es ih => exact and_congr h.1 (ih h.2)

theorem Along.of_forall {s : σ} {es : List ε} (h : ∀ e ∈ es, ∀ s, P s e) :
    Along step P s es := by
  induction es generalizing s with
  | nil => trivial
  | cons e es ih =>
    exact ⟨h e List.mem_cons_self s, ih fun e' he' => h e' (List.mem_cons_of_mem e he')⟩

/-- **The invariant rule.**  What holds at the start and is kept by every event
satisfying `P` holds at the end of every run along `P`. -/
theorem Along.invariant {I : σ → Prop} (hstep : ∀ s e, I s → P s e → I (step s e))
    {s : σ} {es : List ε} (h : Along step P s es) (hs : I s) : I (run step s es) := by
  induction es generalizing s with
  | nil => exact hs
  | cons e es ih => exact ih h.2 (hstep _ _ hs h.1)

/-- What is kept along a run holds at each of its events. -/
theorem Along.with_invariant {I : σ → Prop} (hstep : ∀ s e, I s → P s e → I (step s e))
    {s : σ} {es : List ε} (h : Along step P s es) (hs : I s) :
    Along step (fun s e => I s ∧ P s e) s es := by
  induction es generalizing s with
  | nil => trivial
  | cons e es ih => exact ⟨⟨hs, h.1⟩, ih h.2 (hstep _ _ hs h.1)⟩

/-- Conditions that agree as long as an invariant holds hold along the same runs. -/
theorem along_iff_of_invariant {I : σ → Prop} (hiff : ∀ s e, I s → (P s e ↔ Q s e))
    (hstep : ∀ s e, I s → Q s e → I (step s e)) {s : σ} {es : List ε} (hs : I s) :
    Along step P s es ↔ Along step Q s es := by
  induction es generalizing s with
  | nil => exact Iff.rfl
  | cons e es ih =>
    constructor
    · rintro ⟨he, hes⟩
      have he := (hiff s e hs).mp he
      exact ⟨he, (ih (hstep s e hs he)).mp hes⟩
    · rintro ⟨he, hes⟩
      exact ⟨(hiff s e hs).mpr he, (ih (hstep s e hs he)).mpr hes⟩

/-! ### Outputs -/

variable {ω : Type*}

/-- The outputs of a run, where `out s e` is the output of `e` in the state `s`. -/
def trace (step : σ → ε → σ) (out : σ → ε → ω) : σ → List ε → List ω
  | _, [] => []
  | s, e :: es => out s e :: trace step out (step s e) es

theorem trace_append (step : σ → ε → σ) (out : σ → ε → ω) (s : σ) (es es' : List ε) :
    trace step out s (es ++ es') = trace step out s es ++ trace step out
      (run step s es) es' := by
  induction es generalizing s with
  | nil => rfl
  | cons e es ih => rw [List.cons_append, trace, trace, ih, List.cons_append, run_cons]

/-- An output that a run keeps is that of one of its events. -/
theorem reduceOption_trace_eq_append {step : σ → ε → σ} {out : σ → ε → Option ω} {s : σ}
    {es : List ε} {l₁ l₂ : List ω} {o : ω}
    (h : (trace step out s es).reduceOption = l₁ ++ o :: l₂) :
    ∃ es₁ e es₂, es = es₁ ++ e :: es₂ ∧ (trace step out s es₁).reduceOption = l₁ ∧
      out (run step s es₁) e = some o := by
  induction es generalizing s l₁ with
  | nil => exact absurd h.symm (List.append_ne_nil_of_right_ne_nil _ (List.cons_ne_nil _ _))
  | cons e es ih =>
    rw [trace] at h
    cases ho : out s e with
    | none =>
      rw [ho, List.reduceOption_cons_of_none] at h
      obtain ⟨es₁, e', es₂, rfl, hl, hout⟩ := ih h
      refine ⟨e :: es₁, e', es₂, rfl, ?_, hout⟩
      rw [trace, ho, List.reduceOption_cons_of_none, hl]
    | some o' =>
      rw [ho, List.reduceOption_cons_of_some] at h
      cases l₁ with
      | nil =>
        obtain ⟨rfl, -⟩ := List.cons.inj h
        exact ⟨[], e, es, rfl, rfl, ho⟩
      | cons o₁ l₁ =>
        obtain ⟨rfl, hrest⟩ := List.cons.inj h
        obtain ⟨es₁, e', es₂, rfl, hl, hout⟩ := ih hrest
        refine ⟨e :: es₁, e', es₂, rfl, ?_, hout⟩
        rw [trace, ho, List.reduceOption_cons_of_some, hl]

/-! ### Leaving out events -/

section Idle

variable {step : σ → ε → σ} {ι : Type*} {perform : ι → ε} {kept : ι → Option ε}
  (hkept : ∀ i e, kept i = some e → perform i = e)

include hkept

/-- Events that are not kept, and change nothing, can be left out. -/
theorem run_filterMap_of_idle {s : σ} {is : List ι}
    (hidle : Along (fun s i => step s (perform i))
      (fun s i => kept i = none → step s (perform i) = s) s is) :
    run step s (is.filterMap kept) = run step s (is.map perform) := by
  induction is generalizing s with
  | nil => rfl
  | cons i is ih =>
    have hrest := ih hidle.2
    dsimp only at hrest
    cases hi : kept i with
    | none =>
      rw [hidle.1 hi] at hrest
      rw [List.filterMap_cons_none hi, List.map_cons, run_cons, hidle.1 hi, hrest]
    | some e =>
      rw [hkept i e hi] at hrest
      rw [List.filterMap_cons_some hi, List.map_cons, run_cons, run_cons, hkept i e hi, hrest]

/-- The other events have the same outputs. -/
theorem trace_filterMap_of_idle {out : σ → ε → ω} {s : σ} {is : List ι}
    (hidle : Along (fun s i => step s (perform i))
      (fun s i => kept i = none → step s (perform i) = s) s is) :
    trace step out s (is.filterMap kept) = (trace (fun s i => step s (perform i))
      (fun s i => (kept i).map (out s)) s is).reduceOption := by
  induction is generalizing s with
  | nil => rfl
  | cons i is ih =>
    have hrest := ih hidle.2
    dsimp only at hrest
    cases hi : kept i with
    | none =>
      rw [hidle.1 hi] at hrest
      rw [List.filterMap_cons_none hi, trace, hi, Option.map_none,
        List.reduceOption_cons_of_none, hidle.1 hi, hrest]
    | some e =>
      rw [hkept i e hi] at hrest
      rw [List.filterMap_cons_some hi, trace, trace, hi, Option.map_some,
        List.reduceOption_cons_of_some, hkept i e hi, hrest]

end Idle

end Machine
