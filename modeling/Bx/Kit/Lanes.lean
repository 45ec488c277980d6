import Bx.Kit.Memchr

/-!
# Searching several places at a time

A search looks at some places at once, stops at the first of them that is a hit and
otherwise goes on behind them.
-/

namespace Bx.Kit

section
variable (lanes : Nat → Nat) (hit : Nat → Bool) (stop : Nat)

def laneStep (place : Nat) : Nat ⊕ Option Nat :=
  if place < stop then
    match (List.range' place (lanes place)).find? hit with
    | some found => .inr (some found)
    | none => .inl (place + lanes place)
  else .inr none

def laneScan (start : Nat) : Option (Option Nat) := loop (laneStep lanes hit stop) (stop + 1) start

end

variable {lanes : Nat → Nat} {hit : Nat → Bool} {stop : Nat}

theorem laneStep_spec {place : Nat} (hlanes : place < stop → 0 < lanes place ∧ place + lanes place ≤ stop) :
    match laneStep lanes hit stop place with
    | .inl next => place < next ∧ next ≤ stop ∧ ∀ i, place ≤ i → i < next → ¬hit i = true
    | .inr r => FirstOf {i | place ≤ i ∧ i < stop ∧ hit i = true} r := by
  unfold laneStep
  by_cases hplace : place < stop
  · obtain ⟨hpos, hle⟩ := hlanes hplace
    rw [if_pos hplace]
    cases hfind : (List.range' place (lanes place)).find? hit with
    | none =>
      have hnone := List.find?_range'_eq_none.mp hfind
      refine ⟨by omega, hle, ?_⟩
      intro i hi hlt hhit
      have hnot := hnone i hi hlt
      simp [hhit] at hnot
    | some found =>
      obtain ⟨hhit, hmem, hbefore⟩ := List.find?_range'_eq_some.mp hfind
      obtain ⟨hge, hlt⟩ := List.mem_range'_1.mp hmem
      refine ⟨⟨hge, by omega, hhit⟩, ?_⟩
      intro i ⟨hi, _, hihit⟩
      apply Nat.le_of_not_lt
      intro hifound
      have hnot := hbefore i hi hifound
      simp [hihit] at hnot
  · rw [if_neg hplace]
    apply Set.eq_empty_of_forall_notMem
    intro i ⟨hi, hlt, _⟩
    omega

theorem laneScan_spec (hlanes : ∀ place, place < stop → 0 < lanes place ∧ place + lanes place ≤ stop) {start : Nat}
    (hstart : start ≤ stop) :
    ∃ r, laneScan lanes hit stop start = some r ∧ FirstOf {i | start ≤ i ∧ i < stop ∧ hit i = true} r := by
  apply loop_of_measure (fun place => start ≤ place ∧ ∀ i, start ≤ i → i < place → ¬hit i = true)
    (FirstOf {i | start ≤ i ∧ i < stop ∧ hit i = true}) (fun place => stop - place)
  · intro place next ⟨hle, hbefore⟩ hstep
    have h := @laneStep_spec lanes hit stop place (hlanes place)
    rw [hstep] at h
    obtain ⟨hlt, hstop, hnone⟩ := h
    refine ⟨⟨by omega, ?_⟩, by show stop - next < stop - place; omega⟩
    intro i hi hnext
    by_cases hplace : i < place
    · exact hbefore i hi hplace
    · exact hnone i (by omega) hnext
  · intro place r ⟨hle, hbefore⟩ hstep
    have h := @laneStep_spec lanes hit stop place (hlanes place)
    rw [hstep] at h
    refine h.congr ?_
    intro i
    refine ⟨?_, ?_⟩
    · intro ⟨hi, hlt, hhit⟩
      refine ⟨?_, hlt, hhit⟩
      by_contra hplace
      exact hbefore i hi (by omega) hhit
    · intro ⟨hi, hlt, hhit⟩
      exact ⟨by omega, hlt, hhit⟩
  · exact ⟨le_rfl, fun i hi hlt => absurd hi (by omega)⟩
  · show stop - start < stop + 1
    omega

end Bx.Kit
