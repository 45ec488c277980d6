import Mathlib.Order.Interval.Finset.Nat

/-!
# Chains

A link leads on to at most one other. A chain that keeps to finitely many places
and is longer than they are never ends.
-/

namespace Bx.Kit

variable {α : Type*} (next : α → Option α)

def chain (a : α) : Nat → Option α
  | 0 => some a
  | k + 1 => (chain a k).bind next

theorem chain_succ (a : α) (k : Nat) : chain next a (k + 1) = (next a).bind fun b => chain next b k := by
  induction k with
  | zero =>
    show next a = _
    cases next a <;> rfl
  | succ k ih =>
    rw [chain, ih]
    cases next a <;> rfl

theorem chain_add {a b : α} {j : Nat} (h : chain next a j = some b) (k : Nat) :
    chain next a (j + k) = chain next b k := by
  induction k with
  | zero => exact h
  | succ k ih => rw [← add_assoc, chain, chain, ih]

theorem chain_isSome_of_le {a : α} {j k : Nat} (hle : j ≤ k) (h : (chain next a k).isSome = true) :
    (chain next a j).isSome = true := by
  induction hle with
  | refl => exact h
  | step _ ih =>
    apply ih
    rw [chain] at h
    obtain ⟨c, hc⟩ := Option.isSome_iff_exists.mp h
    obtain ⟨b, hb, -⟩ := Option.bind_eq_some_iff.mp hc
    rw [hb]
    rfl

theorem chain_endless [DecidableEq α] {a : α} {places : List α} (hin : ∀ k b, chain next a k = some b → b ∈ places)
    (h : (chain next a places.length).isSome = true) (k : Nat) : (chain next a k).isSome = true := by
  have hsome : ∀ j ∈ Finset.range (places.length + 1), (chain next a j).isSome = true := by
    intro j hj
    exact chain_isSome_of_le next (Nat.le_of_lt_succ (Finset.mem_range.mp hj)) h
  have hmaps : ∀ j ∈ Finset.range (places.length + 1), chain next a j ∈ (places.map some).toFinset := by
    intro j hj
    obtain ⟨b, hb⟩ := Option.isSome_iff_exists.mp (hsome j hj)
    rw [hb, List.mem_toFinset]
    exact List.mem_map_of_mem (hin j b hb)
  have hcard : (places.map some).toFinset.card < (Finset.range (places.length + 1)).card := by
    rw [Finset.card_range]
    refine Nat.lt_succ_of_le ((List.toFinset_card_le _).trans ?_)
    rw [List.length_map]
  obtain ⟨i, hi, j, hj, hne, hsame⟩ := Finset.exists_ne_map_eq_of_card_lt_of_maps_to hcard hmaps
  have hround : ∃ i j, i < j ∧ j ≤ places.length ∧ chain next a i = chain next a j := by
    rw [Finset.mem_range] at hi hj
    cases Nat.lt_or_gt_of_ne hne with
    | inl hlt => exact ⟨i, j, hlt, Nat.le_of_lt_succ hj, hsame⟩
    | inr hlt => exact ⟨j, i, hlt, Nat.le_of_lt_succ hi, hsame.symm⟩
  obtain ⟨i, j, hij, hj, hsame⟩ := hround
  induction k using Nat.strong_induction_on with
  | _ k ih =>
    by_cases hk : k ≤ places.length
    · exact chain_isSome_of_le next hk h
    · obtain ⟨b, hb⟩ := Option.isSome_iff_exists.mp (chain_isSome_of_le next hj h)
      have hback := ih (k - j + i) (by omega)
      rw [show k = j + (k - j) by omega, chain_add next hb, ← chain_add next (hsame.trans hb), add_comm]
      exact hback

end Bx.Kit
