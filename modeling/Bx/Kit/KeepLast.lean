import Mathlib.Data.List.DropRight
import Mathlib.Data.Nat.ModEq

/-!
# Rings that keep the last items

A ring of slots that is written round and round: an item takes the place of the
one that was written as many items before as there are slots.
-/

namespace Bx.Kit

open List

structure KeepLast (α : Type*) where
  slots : List (Option α)
  head : Nat
  total : Nat

namespace KeepLast

variable {α : Type*}

def empty (capacity : Nat) : KeepLast α := ⟨replicate capacity none, 0, 0⟩

def push (r : KeepLast α) (x : α) : KeepLast α :=
  { slots := r.slots.set r.head (some x), head := (r.head + 1) % r.slots.length, total := r.total + 1 }

def contents (r : KeepLast α) : List (Option α) :=
  let start := if r.slots.length < r.total then r.head else 0
  let count := if r.slots.length < r.total then r.slots.length else r.total
  (List.range count).map fun i => r.slots[(start + i) % r.slots.length]?.join

structure Holds (r : KeepLast α) (xs : List α) : Prop where
  total_eq : r.total = xs.length
  head_eq : r.head = r.total % r.slots.length
  slot : ∀ i, (h : i < xs.length) → xs.length ≤ i + r.slots.length → r.slots[i % r.slots.length]?.join = some xs[i]

theorem empty_holds (capacity : Nat) : Holds (empty capacity : KeepLast α) [] := by
  refine ⟨rfl, (Nat.zero_mod _).symm, ?_⟩
  intro i hi
  cases hi

theorem Holds.push {r : KeepLast α} {xs : List α} (h : Holds r xs) (hpos : 0 < r.slots.length) (x : α) :
    Holds (r.push x) (xs ++ [x]) := by
  have hlen : (r.push x).slots.length = r.slots.length := length_set
  refine ⟨?_, ?_, ?_⟩
  · rw [length_append, length_singleton, ← h.total_eq]
    rfl
  · rw [hlen]
    show (r.head + 1) % r.slots.length = (r.total + 1) % r.slots.length
    rw [h.head_eq, Nat.mod_add_mod]
  · intro i hi hle
    rw [hlen] at hle ⊢
    rw [length_append, length_singleton] at hi hle
    show (r.slots.set r.head (some x))[i % r.slots.length]?.join = _
    rw [h.head_eq, h.total_eq]
    by_cases hlast : i = xs.length
    · subst hlast
      rw [getElem?_set_self (Nat.mod_lt _ hpos), getElem_concat_length rfl]
      rfl
    · -- fewer than a whole round lies between the two places
      have hne : xs.length % r.slots.length ≠ i % r.slots.length := by
        intro heq
        have hmod : xs.length - i ≡ 0 [MOD r.slots.length] := by
          apply Nat.ModEq.add_right_cancel' i
          rw [Nat.sub_add_cancel (by omega), zero_add]
          exact heq
        have hzero := hmod.eq_of_lt_of_lt (by omega) hpos
        omega
      rw [getElem?_set_ne hne, h.slot i (by omega) (by omega), getElem_append_left]

variable {r : KeepLast α} {xs : List α}

theorem foldl_push_holds (h : Holds r xs) (hpos : 0 < r.slots.length) (ys : List α) :
    Holds (ys.foldl push r) (xs ++ ys) ∧ (ys.foldl push r).slots.length = r.slots.length := by
  induction ys generalizing r xs with
  | nil =>
    rw [append_nil]
    exact ⟨h, rfl⟩
  | cons y ys ih =>
    have hlen : (r.push y).slots.length = r.slots.length := length_set
    obtain ⟨hholds, hkept⟩ := ih (h.push hpos y) (by rw [hlen]; exact hpos)
    rw [append_assoc] at hholds
    exact ⟨hholds, hkept.trans hlen⟩

theorem Holds.contents_eq (h : Holds r xs) : r.contents = (xs.rtake r.slots.length).map some := by
  unfold contents rtake
  have hslot : ∀ start count, start + count = xs.length → count ≤ r.slots.length →
      ((List.range count).map fun i => r.slots[(start + i) % r.slots.length]?.join) = (xs.drop start).map some := by
    intro start count hsum hle
    apply ext_getElem
    · rw [length_map, length_range, length_map, length_drop]
      omega
    · intro i hi hi'
      rw [length_map, length_range] at hi
      rw [getElem_map, getElem_range, getElem_map, getElem_drop]
      exact h.slot (start + i) (by omega) (by omega)
  rw [h.total_eq]
  by_cases hmore : r.slots.length < xs.length
  · dsimp only
    rw [if_pos hmore, if_pos hmore, ← hslot (xs.length - r.slots.length) r.slots.length (by omega) (le_rfl)]
    apply map_congr_left
    intro i _
    -- the head is a whole round behind the oldest item
    have hround : r.head + i ≡ xs.length - r.slots.length + i [MOD r.slots.length] := by
      apply Nat.ModEq.add_right
      rw [h.head_eq, h.total_eq]
      have hback : xs.length = xs.length - r.slots.length + r.slots.length := by omega
      calc xs.length % r.slots.length ≡ xs.length [MOD r.slots.length] := Nat.mod_modEq _ _
        _ = xs.length - r.slots.length + r.slots.length := hback
        _ ≡ xs.length - r.slots.length [MOD r.slots.length] := Nat.add_mod_right _ _
    rw [hround]
  · dsimp only
    rw [if_neg hmore, if_neg hmore, hslot 0 xs.length (zero_add _) (by omega)]
    have hzero : xs.length - r.slots.length = 0 := by omega
    rw [hzero]

theorem contents_foldl_push {capacity : Nat} (h : 0 < capacity) (xs : List α) :
    (xs.foldl push (empty capacity)).contents = (xs.rtake capacity).map some := by
  have hempty : (empty capacity : KeepLast α).slots.length = capacity := length_replicate
  obtain ⟨hholds, hlen⟩ := foldl_push_holds (empty_holds capacity) (by rw [hempty]; exact h) xs
  rw [hempty] at hlen
  rw [hholds.contents_eq, hlen]
  rfl

end KeepLast

end Bx.Kit
