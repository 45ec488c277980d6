import Mathlib.Data.List.Basic
import Mathlib.Data.Nat.Init

/-!
# Windows around selected items

Items come one by one, some are selected, and the items around those are wanted. The ones behind the end of all windows
still wait for a selected item that is close enough; the others are decided.
-/

namespace Bx.Kit

open List

section
variable (selected : Nat → Prop) [DecidablePred selected] (before after : Nat)

/-- Item `j` is in the window around one of the first `k` items. -/
def InWindow (k j : Nat) : Prop := ∃ i < k, selected i ∧ i ≤ j + before ∧ j ≤ i + after

def windowEnd : Nat → Nat
  | 0 => 0
  | k + 1 => if selected k then k + after + 1 else windowEnd k

/-- The first of the items that a window around item `k` would add -/
def waitingFrom (k : Nat) : Nat := max (windowEnd selected after k) (k - before)

def windowed : Nat → List Nat
  | 0 => []
  | k + 1 =>
    if selected k then windowed k ++ (List.range k).drop (waitingFrom selected before after k) ++ [k]
    else if k < windowEnd selected after k then windowed k ++ [k]
    else windowed k

variable {selected before after} {i j k : Nat}

omit [DecidablePred selected] in
theorem InWindow.succ_iff : InWindow selected before after (k + 1) j ↔
      InWindow selected before after k j ∨ selected k ∧ k ≤ j + before ∧ j ≤ k + after := by
  refine ⟨?_, ?_⟩
  · intro ⟨i, hlt, hin⟩
    by_cases hlast : i = k
    · exact Or.inr (hlast ▸ hin)
    · exact Or.inl ⟨i, by omega, hin⟩
  · intro h
    cases h with
    | inl h =>
      obtain ⟨i, hlt, hin⟩ := h
      exact ⟨i, by omega, hin⟩
    | inr h => exact ⟨k, Nat.lt_succ_self k, h⟩

theorem windowEnd_le (k : Nat) : windowEnd selected after k ≤ k + after := by
  induction k with
  | zero => exact Nat.zero_le _
  | succ k ih =>
    unfold windowEnd
    split <;> omega

theorem InWindow.lt_windowEnd (h : InWindow selected before after k j) : j < windowEnd selected after k := by
  induction k with
  | zero =>
    obtain ⟨i, hlt, _⟩ := h
    omega
  | succ k ih =>
    unfold windowEnd
    have hle : windowEnd selected after k ≤ k + after := windowEnd_le k
    cases InWindow.succ_iff.mp h with
    | inl h =>
      have hlt := ih h
      split <;> omega
    | inr h =>
      rw [if_pos h.1]
      omega

theorem inWindow_iff (h : k ≤ j + before) : InWindow selected before after k j ↔ j < windowEnd selected after k := by
  refine ⟨InWindow.lt_windowEnd, ?_⟩
  induction k with
  | zero => exact fun hlt => absurd hlt (Nat.not_lt_zero j)
  | succ k ih =>
    intro hlt
    unfold windowEnd at hlt
    rw [InWindow.succ_iff]
    by_cases hsel : selected k
    · rw [if_pos hsel] at hlt
      exact Or.inr ⟨hsel, by omega, by omega⟩
    · rw [if_neg hsel] at hlt
      exact Or.inl (ih (by omega) hlt)

theorem not_selected_of_windowEnd_le (h : windowEnd selected after k ≤ j) (hlt : j < k) : ¬ selected j := by
  intro hsel
  have hin : InWindow selected 0 after k j := ⟨j, hlt, hsel, Nat.le_refl _, Nat.le_add_right _ _⟩
  have hend := hin.lt_windowEnd
  omega

theorem mem_drop_range {n m : Nat} : j ∈ (List.range n).drop m ↔ m ≤ j ∧ j < n := by
  rw [range_eq_range', drop_range', mem_range'_1]
  omega

theorem mem_windowed : j ∈ windowed selected before after k ↔ j < k ∧ InWindow selected before after k j := by
  induction k with
  | zero => exact ⟨fun h => absurd h not_mem_nil, fun h => absurd h.1 (Nat.not_lt_zero j)⟩
  | succ k ih =>
    unfold windowed
    rw [InWindow.succ_iff]
    by_cases hsel : selected k
    · rw [if_pos hsel, mem_append, mem_append, mem_singleton, mem_drop_range, ih]
      unfold waitingFrom
      by_cases hnear : k ≤ j + before
      · have hiff : InWindow selected before after k j ↔ j < windowEnd selected after k := inWindow_iff hnear
        have hle : windowEnd selected after k ≤ k + after := windowEnd_le k
        rw [hiff]
        grind
      · have hout : InWindow selected before after k j → j < k + after := fun h =>
          Nat.lt_of_lt_of_le h.lt_windowEnd (windowEnd_le k)
        grind
    · rw [if_neg hsel]
      have hlast : InWindow selected before after k k ↔ k < windowEnd selected after k :=
        inWindow_iff (Nat.le_add_right k before)
      split
      · rw [mem_append, mem_singleton, ih]
        grind
      · rw [ih]
        grind

theorem lt_windowEnd_of_mem (h : j ∈ windowed selected before after k) : j < windowEnd selected after k :=
  (mem_windowed.mp h).2.lt_windowEnd

theorem windowed_increasing (k : Nat) : (windowed selected before after k).Pairwise (· < ·) := by
  have hlast : ∀ k, ∀ l : List Nat, l.Pairwise (· < ·) → (∀ j ∈ l, j < k) → (l ++ [k]).Pairwise (· < ·) := by
    intro k l hl hlt
    rw [pairwise_append]
    refine ⟨hl, pairwise_singleton _ _, ?_⟩
    intro j hj m hm
    rw [mem_singleton.mp hm]
    exact hlt j hj
  induction k with
  | zero => exact .nil
  | succ k ih =>
    unfold windowed
    have hlt : ∀ j ∈ windowed selected before after k, j < k := fun j hj => (mem_windowed.mp hj).1
    split
    · apply hlast
      · rw [pairwise_append]
        refine ⟨ih, pairwise_lt_range.drop, ?_⟩
        intro j hj m hm
        have hend := lt_windowEnd_of_mem hj
        have hfrom := (mem_drop_range.mp hm).1
        unfold waitingFrom at hfrom
        omega
      · intro j hj
        cases mem_append.mp hj with
        | inl h => exact hlt j h
        | inr h => exact (mem_drop_range.mp h).2
    · split
      · exact hlast k _ ih hlt
      · exact ih

theorem windowed_eq_of_none_selected {n : Nat} (hle : k ≤ n) (hend : windowEnd selected after k ≤ k)
    (h : ∀ i, k ≤ i → i < n → ¬ selected i) : windowed selected before after n = windowed selected before after k := by
  have hboth : windowed selected before after n = windowed selected before after k ∧
      windowEnd selected after n = windowEnd selected after k := by
    induction n, hle using Nat.le_induction with
    | base => exact ⟨rfl, rfl⟩
    | succ n hle ih =>
      obtain ⟨heq, hsame⟩ := ih fun i hi hlt => h i hi (Nat.lt_succ_of_lt hlt)
      have hnot := h n hle (Nat.lt_succ_self n)
      refine ⟨?_, ?_⟩
      · rw [windowed, if_neg hnot, if_neg (by omega), heq]
      · rw [windowEnd, if_neg hnot, hsame]
  exact hboth.1

end

/-! ## Lists with something between the items -/

section
variable {α β : Type*} (between : Option α → α → List β) (item : α → β)

def woven : Option α → List α → List β
  | _, [] => []
  | last, x :: xs => between last x ++ item x :: woven (some x) xs

theorem woven_append (last : Option α) (xs ys : List α) :
    woven between item last (xs ++ ys) = woven between item last xs ++ woven between item (xs.getLast?.or last) ys := by
  induction xs generalizing last with
  | nil => rfl
  | cons x xs ih =>
    rw [cons_append, woven, woven, ih]
    have hlast : (x :: xs).getLast?.or last = xs.getLast?.or (some x) := by
      cases xs with
      | nil => rfl
      | cons x' xs =>
        rw [getLast?_cons_cons]
        rfl
    rw [hlast, append_assoc, cons_append]

end

end Bx.Kit
