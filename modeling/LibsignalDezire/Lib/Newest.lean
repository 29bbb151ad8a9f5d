/-
The newest elements of a list.

Sorted by time, oldest first, a list is cut into its oldest elements and the
newest `n`.  When no two times are equal the cut does not depend on how the list
was ordered: an element is dropped exactly when `n` elements have a later time.

* `mem_take_iff_of_sorted` — who is dropped;
* `sorted_insertionSort_of_injOn` — sorting by times that differ.
-/
import Mathlib.Data.List.Sort

open List

namespace Newest

variable {α τ : Type*} [LinearOrder τ] {time : α → τ}

/-- The elements with a time after `t`. -/
def later (time : α → τ) (l : List α) (t : τ) : List α := l.filter fun y => t < time y

theorem mem_later {l : List α} {t : τ} {y : α} : y ∈ later time l t ↔ y ∈ l ∧ t < time y := by
  simp [later]

theorem length_later_perm {l l' : List α} (h : l.Perm l') (t : τ) :
    (later time l t).length = (later time l' t).length :=
  (h.filter _).length_eq

/-- In a list that is sorted by time, what comes after an element is what follows
it. -/
theorem later_of_sorted {l₁ l₂ : List α} {x : α}
    (h : (l₁ ++ x :: l₂).Pairwise fun y z => time y < time z) :
    later time (l₁ ++ x :: l₂) (time x) = l₂ := by
  rw [pairwise_append, pairwise_cons] at h
  obtain ⟨-, ⟨hnewer, -⟩, holder⟩ := h
  have h₁ : l₁.filter (fun y => decide (time x < time y)) = [] := by
    rw [filter_eq_nil_iff]
    intro y hy
    have := holder y hy x mem_cons_self
    simp [this.le]
  have h₂ : l₂.filter (fun y => decide (time x < time y)) = l₂ := by
    rw [filter_eq_self]
    intro y hy
    simp [hnewer y hy]
  rw [later, filter_append, filter_cons_of_neg (by simp), h₁, h₂, nil_append]

/-- The elements dropped to leave the newest `n`: those with `n` later ones. -/
theorem mem_take_iff_of_sorted {l : List α} (h : l.Pairwise fun y z => time y < time z) {n : ℕ}
    {x : α} : x ∈ l.take (l.length - n) ↔ x ∈ l ∧ n ≤ (later time l (time x)).length := by
  constructor
  · intro hx
    refine ⟨mem_of_mem_take hx, ?_⟩
    -- the newest `n` all follow the element
    obtain ⟨l₁, l₂, hl⟩ := append_of_mem hx
    have hsplit : l = l₁ ++ x :: (l₂ ++ l.drop (l.length - n)) := by
      rw [← cons_append, ← append_assoc, ← hl, take_append_drop]
    have hlen : n ≤ (l.drop (l.length - n)).length := by
      have hpos := length_pos_of_mem hx
      rw [length_take] at hpos
      rw [length_drop]
      omega
    rw [hsplit] at h
    have hlater := later_of_sorted h
    rw [← hsplit] at hlater
    rw [hlater, length_append]
    omega
  · rintro ⟨hx, hn⟩
    obtain ⟨l₁, l₂, rfl⟩ := append_of_mem hx
    rw [later_of_sorted h] at hn
    rw [take_append, length_append, length_cons]
    refine mem_append_right _ ?_
    rw [show l₁.length + (l₂.length + 1) - n - l₁.length = (l₂.length - n) + 1 by omega]
    exact mem_cons_self

/-- Insertion by time sorts strictly when no two times are equal. -/
theorem sorted_insertionSort_of_injOn {l : List α} (hnd : l.Nodup)
    (h : ∀ x ∈ l, ∀ y ∈ l, time x = time y → x = y) :
    (l.insertionSort fun x y => time x ≤ time y).Pairwise fun y z => time y < time z := by
  have hperm := perm_insertionSort (fun x y => time x ≤ time y) l
  have : Std.Total fun x y : α => time x ≤ time y := ⟨fun x y => le_total _ _⟩
  have : IsTrans α fun x y => time x ≤ time y := ⟨fun x y z => le_trans⟩
  have hle := pairwise_insertionSort (fun x y => time x ≤ time y) l
  have hne : (l.insertionSort fun x y => time x ≤ time y).Nodup := hperm.nodup_iff.mpr hnd
  refine (hle.and hne).imp_of_mem fun {x y} hx hy hxy => lt_of_le_of_ne hxy.1 fun heq => ?_
  exact hxy.2 (h x (hperm.mem_iff.mp hx) y (hperm.mem_iff.mp hy) heq)

end Newest
