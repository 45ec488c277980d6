import Mathlib.Data.List.Basic
import Mathlib.Data.List.TakeWhile

/-!
# Lines of a list

A delimiter ends the line it stands on. A place belongs to the line whose number is
how many delimiters stand before it; where a line starts and ends is found by looking
for the delimiter next to a place, and both are characterised by these numbers.
-/

namespace Bx.Kit

open List

theorem cut_at_first {α : Type*} (p : α → Bool) (xs : List α) : (∀ x ∈ xs.takeWhile fun x => !p x, p x = false) ∧
      (xs.takeWhile (fun x => !p x) = xs ∧ xs.drop (xs.takeWhile fun x => !p x).length = [] ∨
        ∃ x behind, p x = true ∧ xs.drop (xs.takeWhile fun x => !p x).length = x :: behind ∧
          xs = xs.takeWhile (fun x => !p x) ++ x :: behind) := by
  refine ⟨?_, ?_⟩
  · intro x hx
    have hnot := mem_takeWhile_imp hx
    cases h : p x with
    | false => rfl
    | true => simp [h] at hnot
  · induction xs with
    | nil => exact .inl ⟨rfl, rfl⟩
    | cons x xs ih =>
      cases h : p x with
      | true =>
        rw [takeWhile_cons_of_neg (by rw [h]; exact Bool.false_ne_true)]
        exact .inr ⟨x, xs, h, rfl, rfl⟩
      | false =>
        rw [takeWhile_cons_of_pos (by rw [h]; rfl)]
        cases ih with
        | inl hall => exact .inl ⟨congrArg (x :: ·) hall.1, hall.2⟩
        | inr hcut =>
          obtain ⟨y, behind, hy, hdrop, hsplit⟩ := hcut
          exact .inr ⟨y, behind, hy, hdrop, congrArg (x :: ·) hsplit⟩

variable {α : Type*} [DecidableEq α] (d : α) (xs : List α)

def lineOf (p : Nat) : Nat := (xs.take p).count d

def lineStart : Nat → Nat
  | 0 => 0
  | p + 1 => if xs[p]? = some d then p + 1 else lineStart p

def lineEnd (p : Nat) : Nat :=
  let stop := p + ((xs.drop p).takeWhile fun x => !decide (x = d)).length
  if stop < xs.length then stop + 1 else stop

variable {d xs} {p q : Nat}

theorem lineOf_mono (h : p ≤ q) : lineOf d xs p ≤ lineOf d xs q :=
  (take_sublist_take_left h).count_le d

theorem lineOf_succ (p : Nat) : lineOf d xs (p + 1) = lineOf d xs p + if xs[p]? = some d then 1 else 0 := by
  unfold lineOf
  rw [take_add_one, count_append]
  cases xs[p]? with
  | none => rfl
  | some x =>
    rw [Option.toList_some, count_singleton]
    by_cases h : x = d
    · rw [if_pos (beq_iff_eq.mpr h), if_pos (by rw [h])]
    · rw [if_neg (fun hx => h (beq_iff_eq.mp hx)), if_neg (fun hx => h (Option.some.inj hx))]

theorem lineOf_lt_of_delimiter (hat : xs[p]? = some d) (h : p < q) : lineOf d xs p < lineOf d xs q := by
  have hstep := @lineOf_succ _ _ d xs p
  rw [if_pos hat] at hstep
  have hmono := @lineOf_mono _ _ d xs (p + 1) q h
  omega

theorem lineOf_lt_iff : lineOf d xs p < lineOf d xs q ↔ ∃ i, p ≤ i ∧ i < q ∧ xs[i]? = some d := by
  refine ⟨?_, ?_⟩
  · intro h
    induction q with
    | zero =>
      have hzero : lineOf d xs 0 = 0 := rfl
      omega
    | succ q ih =>
      rw [lineOf_succ] at h
      by_cases hat : xs[q]? = some d
      · refine ⟨q, ?_, Nat.lt_succ_self q, hat⟩
        by_cases hle : p ≤ q
        · exact hle
        · have hmono := @lineOf_mono _ _ d xs (q + 1) p (by omega)
          rw [lineOf_succ] at hmono
          omega
      · rw [if_neg hat] at h
        obtain ⟨i, hpi, hiq, hi⟩ := ih h
        exact ⟨i, hpi, by omega, hi⟩
  · intro ⟨i, hpi, hiq, hi⟩
    exact lt_of_le_of_lt (lineOf_mono hpi) (lineOf_lt_of_delimiter hi hiq)

theorem lineStart_le (p : Nat) : lineStart d xs p ≤ p := by
  induction p with
  | zero => exact le_rfl
  | succ p ih =>
    unfold lineStart
    split
    · exact le_rfl
    · exact Nat.le_succ_of_le ih

theorem lineStart_succ_eq_iff : lineStart d xs (p + 1) = p + 1 ↔ xs[p]? = some d := by
  unfold lineStart
  by_cases hat : xs[p]? = some d
  · rw [if_pos hat]
    exact iff_of_true rfl hat
  · rw [if_neg hat]
    have hle := @lineStart_le _ _ d xs p
    exact iff_of_false (by omega) hat

theorem lineStart_le_iff : lineStart d xs p ≤ q ↔ lineOf d xs p ≤ lineOf d xs q := by
  induction p with
  | zero => exact iff_of_true (Nat.zero_le _) (Nat.zero_le _)
  | succ p ih =>
    unfold lineStart
    by_cases hat : xs[p]? = some d
    · rw [if_pos hat]
      refine ⟨lineOf_mono, ?_⟩
      intro h
      apply Nat.lt_of_not_le
      intro hle
      have hmono := @lineOf_mono _ _ d xs _ _ hle
      rw [lineOf_succ, if_pos hat] at h
      omega
    · rw [if_neg hat, ih, lineOf_succ, if_neg hat, Nat.add_zero]

theorem lineEnd_spec (h : p ≤ xs.length) : ∃ stop, p ≤ stop ∧ (∀ i, p ≤ i → i < stop → xs[i]? ≠ some d) ∧
      (stop = xs.length ∧ lineEnd d xs p = xs.length ∨
        stop < xs.length ∧ xs[stop]? = some d ∧ lineEnd d xs p = stop + 1) := by
  obtain ⟨hfree, hcut⟩ := cut_at_first (fun x => decide (x = d)) (xs.drop p)
  have htaken := (List.takeWhile_prefix (l := xs.drop p) fun x => !decide (x = d)).length_le
  rw [length_drop] at htaken
  refine ⟨p + ((xs.drop p).takeWhile fun x => !decide (x = d)).length, Nat.le_add_right _ _, ?_, ?_⟩
  · intro i hpi hi hat
    have hin : i - p < ((xs.drop p).takeWhile fun x => !decide (x = d)).length := by omega
    have hget := prefix_iff_getElem?.mp (List.takeWhile_prefix _) (i - p) hin
    rw [getElem?_drop, Nat.add_sub_cancel' hpi, hat] at hget
    exact absurd (Option.some.inj hget).symm (of_decide_eq_false (hfree _ (getElem_mem hin)))
  · cases hcut with
    | inl hall =>
      have hlen := congrArg List.length hall.1
      rw [length_drop] at hlen
      left
      unfold lineEnd
      dsimp only
      rw [if_neg (by omega)]
      omega
    | inr hcut =>
      obtain ⟨x, behind, hx, hdrop, _⟩ := hcut
      rw [drop_drop] at hdrop
      have hlen := congrArg List.length hdrop
      rw [length_drop, length_cons] at hlen
      right
      refine ⟨by omega, ?_, ?_⟩
      · have hget := congrArg (·[0]?) hdrop
        rw [getElem?_drop, getElem?_cons_zero, of_decide_eq_true hx, Nat.add_zero] at hget
        exact hget
      · unfold lineEnd
        dsimp only
        rw [if_pos (by omega)]

theorem lt_lineEnd_iff (hp : p ≤ xs.length) (hq : q < xs.length) :
    q < lineEnd d xs p ↔ lineOf d xs q ≤ lineOf d xs p := by
  rw [← @Nat.not_lt (lineOf d xs p), lineOf_lt_iff]
  obtain ⟨stop, hle, hfree, hstop⟩ := @lineEnd_spec _ _ d xs p hp
  cases hstop with
  | inl hend =>
    obtain ⟨rfl, hend⟩ := hend
    rw [hend]
    refine iff_of_true hq ?_
    intro ⟨i, hpi, hiq, hi⟩
    exact hfree i hpi (by omega) hi
  | inr hend =>
    obtain ⟨hlt, hat, hend⟩ := hend
    rw [hend]
    refine ⟨?_, ?_⟩
    · intro hq' ⟨i, hpi, hiq, hi⟩
      exact hfree i hpi (by omega) hi
    · intro hnone
      apply Nat.lt_of_not_le
      intro hle'
      exact hnone ⟨stop, hle, by omega, hat⟩

end Bx.Kit
