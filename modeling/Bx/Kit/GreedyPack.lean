import Mathlib.Data.List.Basic
import Mathlib.Data.Option.Defs
import Mathlib.Algebra.GroupWithZero.Nat

/-!
# Greedy batches

A row of items is cut into batches from the left. Which batches fit is a property of
where they start and how many items they have; a greedy batch fits and has as many
items as it can.
-/

namespace Bx.Kit

section
variable (n : Nat) (Fits : Nat → Nat → Prop) (Stops : Nat → Prop)

structure GreedyBatch (start count : Nat) : Prop where
  pos : 0 < count
  inside : start + count ≤ n
  fits : Fits start count
  maximal : start + count < n → ¬Fits start (count + 1)

inductive Packs : Nat → List Nat → Option Nat → Prop
  | done : Packs n [] none
  | stop {start : Nat} : start < n → Stops start → Packs start [] (some start)
  | batch {start count : Nat} {counts : List Nat} {stop : Option Nat} : start < n → GreedyBatch n Fits start count →
      ¬Stops start → Packs (start + count) counts stop → Packs start (count :: counts) stop

/-- Calls for a batch until the end is reached or there is none; `fuel` is how many there may be. -/
def packAll (select : Nat → Option Nat) : Nat → Nat → List Nat × Option Nat
  | 0, start => ([], if start = n then none else some start)
  | fuel + 1, start =>
    if n ≤ start then ([], none)
    else
      match select start with
      | none => ([], some start)
      | some count =>
        let rest := packAll select fuel (start + count)
        (count :: rest.1, rest.2)

end

variable {n : Nat} {Fits : Nat → Nat → Prop} {Stops : Nat → Prop}

theorem packAll_packs {select : Nat → Option Nat}
    (hbatch : ∀ start count, start < n → select start = some count → GreedyBatch n Fits start count ∧ ¬Stops start)
    (hstop : ∀ start, start < n → select start = none → Stops start) {fuel start : Nat} (hstart : start ≤ n)
    (hfuel : n - start ≤ fuel) :
    Packs n Fits Stops start (packAll n select fuel start).1 (packAll n select fuel start).2 := by
  induction fuel generalizing start with
  | zero =>
    have hend : start = n := by omega
    unfold packAll
    rw [if_pos hend, hend]
    exact .done
  | succ fuel ih =>
    unfold packAll
    by_cases hend : n ≤ start
    · have heq : start = n := by omega
      rw [if_pos hend, heq]
      exact .done
    · rw [if_neg hend]
      cases hselect : select start with
      | none => exact .stop (by omega) (hstop start (by omega) hselect)
      | some count =>
        obtain ⟨hgreedy, hgoes⟩ := hbatch start count (by omega) hselect
        have hpos := hgreedy.pos
        have hinside := hgreedy.inside
        exact .batch (by omega) hgreedy hgoes (ih hinside (by omega))

variable {counts : List Nat} {stop : Option Nat} {start : Nat}

theorem Packs.sum (h : Packs n Fits Stops start counts stop) : start + counts.sum = stop.getD n := by
  induction h with
  | done => rfl
  | stop _ _ => rfl
  | batch _ _ _ _ ih =>
    rw [List.sum_cons, ← Nat.add_assoc]
    exact ih

theorem Packs.fits_alone (halone : ∀ start count i, Fits start count → start ≤ i → i < start + count → Fits i 1)
    (h : Packs n Fits Stops start counts stop) {i : Nat} (hi : start ≤ i) (hlt : i < stop.getD n) : Fits i 1 := by
  induction h with
  | done => exact absurd hlt (by simpa using hi)
  | stop _ _ => exact absurd hlt (by simpa using hi)
  | @batch start count counts stop _ hgreedy _ _ ih =>
    by_cases hin : i < start + count
    · exact halone start count i hgreedy.fits hi hin
    · exact ih (by omega) hlt

end Bx.Kit
