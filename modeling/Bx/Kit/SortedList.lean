import Mathlib.Data.List.Perm.Basic
import Mathlib.Data.Nat.Basic
import Mathlib.Algebra.GroupWithZero.Nat

/-!
# Sorted lists: bisection and insertion

The first index of a range at which a predicate stops to hold, and insertion into a list kept sorted by a key: after the
elements below or, with `insertByKey`, after every element with a key at most its own.
-/

namespace Bx.Kit

open List

def lowerBound (below : Nat → Bool) (first count : Nat) : Nat :=
  if count = 0 then first
  else
    let step := count / 2
    let index := first + step
    if below index then lowerBound below (index + 1) (count - (step + 1)) else lowerBound below first step
termination_by count
decreasing_by all_goals omega

section
variable (below : Nat → Bool) (first count : Nat)

theorem lowerBound_spec (h : ∀ i j, i ≤ j → below j = true → below i = true) :
    first ≤ lowerBound below first count ∧ lowerBound below first count ≤ first + count ∧
      (∀ i, first ≤ i → i < lowerBound below first count → below i = true) ∧
      (∀ i, lowerBound below first count ≤ i → i < first + count → below i = false) := by
  fun_induction lowerBound below first count with
  | case1 first => exact ⟨le_rfl, le_rfl, fun i h1 h2 => absurd h2 (by omega), fun i h1 h2 => absurd h2 (by omega)⟩
  | case2 first count hc step index hb ih =>
    obtain ⟨h1, h2, h3, h4⟩ := ih
    refine ⟨by omega, by omega, ?_, ?_⟩
    · intro i hi hlt
      by_cases hle : i ≤ index
      · exact h i index hle hb
      · exact h3 i (by omega) hlt
    · intro i hi hlt
      exact h4 i hi (by omega)
  | case3 first count hc step index hb ih =>
    obtain ⟨h1, h2, h3, h4⟩ := ih
    refine ⟨h1, by omega, h3, ?_⟩
    intro i hi hlt
    by_cases hle : index ≤ i
    · exact Bool.eq_false_iff.mpr fun ht => hb (h index i hle ht)
    · exact h4 i hi (by omega)

/-! ## Arrays sorted by a key -/

variable {α : Type*} {key : α → Nat} {l : List α} {k : Nat} {a b : α}

/-- Where the keys stop to be less than `k` -/
def keyBound (key : α → Nat) (l : List α) (k : Nat) : Nat :=
  lowerBound (fun i => l[i]?.any fun a => key a < k) 0 l.length

section
variable (h : l.Pairwise fun a b => key a < key b)
include h

theorem keyBound_spec : keyBound key l k ≤ l.length ∧ (∀ a ∈ l.take (keyBound key l k), key a < k) ∧
      ∀ a ∈ l.drop (keyBound key l k), k ≤ key a := by
  have hmono : ∀ i j : Nat, i ≤ j → (l[j]?.any fun a => key a < k) = true → (l[i]?.any fun a => key a < k) = true := by
    intro i j hij hj
    obtain ⟨b, hb, hlt⟩ := (Option.any_eq_true _ _).mp hj
    obtain ⟨hjl, hbe⟩ := List.getElem?_eq_some_iff.mp hb
    have hil : i < l.length := Nat.lt_of_le_of_lt hij hjl
    rw [getElem?_eq_getElem hil, Option.any_some, decide_eq_true_eq]
    rw [decide_eq_true_eq] at hlt
    cases Nat.lt_or_eq_of_le hij with
    | inl hlt' => exact Nat.lt_trans (hbe ▸ pairwise_iff_getElem.mp h i j hil hjl hlt') hlt
    | inr heq =>
      subst heq
      exact hbe ▸ hlt
  obtain ⟨_, hle, hbelow, habove⟩ := lowerBound_spec (fun i => l[i]?.any fun a => key a < k) 0 l.length hmono
  rw [Nat.zero_add] at hle habove
  refine ⟨hle, ?_, ?_⟩
  · intro a ha
    obtain ⟨i, hi, hget⟩ := getElem_of_mem ha
    rw [length_take] at hi
    rw [getElem_take] at hget
    have hlt := hbelow i (Nat.zero_le i) (Nat.lt_of_lt_of_le hi (Nat.min_le_left _ _))
    rw [getElem?_eq_getElem (Nat.lt_of_lt_of_le hi (Nat.min_le_right _ _)), Option.any_some, hget] at hlt
    exact of_decide_eq_true hlt
  · intro a ha
    obtain ⟨i, hi, hget⟩ := getElem_of_mem ha
    rw [length_drop] at hi
    rw [getElem_drop] at hget
    have hge := habove (keyBound key l k + i) (Nat.le_add_right _ _) (by omega)
    rw [getElem?_eq_getElem (by omega), Option.any_some, hget] at hge
    exact Nat.not_lt.mp (of_decide_eq_false hge)

theorem getElem?_keyBound (a : α) : l[keyBound key l k]? = some a ∧ key a = k ↔ a ∈ l ∧ key a = k := by
  obtain ⟨_, hbelow, habove⟩ := @keyBound_spec _ key l k h
  refine ⟨fun ⟨hget, hkey⟩ => ⟨mem_of_getElem? hget, hkey⟩, ?_⟩
  intro ⟨hmem, hkey⟩
  refine ⟨?_, hkey⟩
  rw [← take_append_drop (keyBound key l k) l, mem_append] at hmem
  have hdrop : a ∈ l.drop (keyBound key l k) := by
    cases hmem with
    | inl hlow => exact absurd (hbelow a hlow) (by omega)
    | inr hhigh => exact hhigh
  cases hcase : l.drop (keyBound key l k) with
  | nil => simp [hcase] at hdrop
  | cons b rest =>
    have hget : l[keyBound key l k]? = some b := by
      rw [← head?_drop, hcase]
      rfl
    rw [hcase] at hdrop habove
    cases mem_cons.mp hdrop with
    | inl heq => rw [hget, heq]
    | inr hrest =>
      have hsorted := h.sublist (drop_sublist (keyBound key l k) l)
      rw [hcase] at hsorted
      have hlt := (pairwise_cons.mp hsorted).1 a hrest
      have hle := habove b mem_cons_self
      omega

theorem insert_keyBound (hkey : key b = k) (hnew : ∀ a ∈ l, key a ≠ k) :
    (l.take (keyBound key l k) ++ b :: l.drop (keyBound key l k)).Pairwise fun a b => key a < key b := by
  obtain ⟨_, hbelow, habove⟩ := @keyBound_spec _ key l k h
  rw [pairwise_append, pairwise_cons]
  refine ⟨h.sublist (take_sublist _ _), ⟨?_, h.sublist (drop_sublist _ _)⟩, ?_⟩
  · intro a ha
    have hle := habove a ha
    have hne := hnew a (mem_of_mem_drop ha)
    omega
  · intro a ha c hc
    have hlt := hbelow a ha
    cases mem_cons.mp hc with
    | inl heq => rw [heq, hkey]; exact hlt
    | inr hmem => exact lt_of_lt_of_le hlt (habove c hmem)

end

end

/-! ## Insertion -/

variable {α : Type*} (key : α → Nat)

/-- The list with `a` before the first element that is not `below`. -/
def insertAfter (below : α → Bool) (a : α) : List α → List α
  | [] => [a]
  | b :: l => if below b then b :: insertAfter below a l else a :: b :: l

def insertByKey (a : α) : List α → List α := insertAfter (fun b => key b ≤ key a) a

theorem insertAfter_perm (below : α → Bool) (a : α) (l : List α) : (insertAfter below a l).Perm (a :: l) := by
  induction l with
  | nil => exact List.Perm.refl _
  | cons b l ih =>
    unfold insertAfter
    by_cases hb : below b = true
    · rw [if_pos hb]
      exact (ih.cons b).trans (List.Perm.swap a b l)
    · rw [if_neg hb]

theorem insertByKey_perm (a : α) (l : List α) : (insertByKey key a l).Perm (a :: l) := insertAfter_perm _ a l

variable {l : List α} {below : α → Bool} {a b : α}

theorem mem_insertAfter : b ∈ insertAfter below a l ↔ b = a ∨ b ∈ l := by
  rw [(insertAfter_perm below a l).mem_iff, mem_cons]

theorem mem_insertByKey : b ∈ insertByKey key a l ↔ b = a ∨ b ∈ l := mem_insertAfter

theorem insertAfter_pairwise (hl : l.Pairwise fun b c => key b < key c)
    (hbelow : ∀ b ∈ l, below b = true → key b < key a) (habove : ∀ b ∈ l, below b = false → key a < key b) :
    (insertAfter below a l).Pairwise fun b c => key b < key c := by
  induction l with
  | nil => exact pairwise_singleton _ _
  | cons b l ih =>
    obtain ⟨hb, hl'⟩ := pairwise_cons.mp hl
    unfold insertAfter
    by_cases hlt : below b = true
    · rw [if_pos hlt, pairwise_cons]
      refine ⟨?_, ih hl' (fun c hc => hbelow c (mem_cons_of_mem b hc)) fun c hc => habove c (mem_cons_of_mem b hc)⟩
      intro c hc
      cases mem_insertAfter.mp hc with
      | inl h => subst h; exact hbelow b mem_cons_self hlt
      | inr h => exact hb c h
    · rw [if_neg hlt, pairwise_cons]
      refine ⟨?_, hl⟩
      have hab := habove b mem_cons_self (Bool.not_eq_true _ ▸ hlt)
      intro c hc
      cases mem_cons.mp hc with
      | inl h => subst h; exact hab
      | inr h => exact Nat.lt_trans hab (hb c h)

theorem insertByKey_pairwise (hl : l.Pairwise fun b c => key b < key c)
    (ha : ∀ b ∈ l, key b ≠ key a) : (insertByKey key a l).Pairwise fun b c => key b < key c := by
  apply insertAfter_pairwise key hl
  · exact fun b hb hle => lt_of_le_of_ne (of_decide_eq_true hle) (ha b hb)
  · exact fun b _ hlt => Nat.not_le.mp (of_decide_eq_false hlt)

end Bx.Kit
