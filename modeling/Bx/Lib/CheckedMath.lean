import Mathlib.Tactic.Ring

/-!
# Checked arithmetic

Sums, products and roundings of unsigned numbers of 64 bits, or nothing where
the number does not fit.
-/

namespace Bx.Lib

def uintmaxMax : Nat := 2 ^ 64 - 1

def checkedAdd (left right : Nat) : Option Nat := if uintmaxMax - right < left then none else some (left + right)

def checkedMul (left right : Nat) : Option Nat :=
  if left ≠ 0 ∧ uintmaxMax / left < right then none else some (left * right)

def checkedRoundUp (value align : Nat) : Option Nat :=
  if align = 0 then none
  else
    let remainder := value % align
    if remainder = 0 then some value else checkedAdd value (align - remainder)

def padding (value align : Nat) : Nat := (align - value % align) % align

variable {left right : Nat}

theorem checkedAdd_of_lt (h : left + right < 2 ^ 64) : checkedAdd left right = some (left + right) := by
  unfold checkedAdd uintmaxMax
  rw [if_neg (by omega)]

theorem checkedAdd_of_le (hright : right < 2 ^ 64) (h : 2 ^ 64 ≤ left + right) : checkedAdd left right = none := by
  unfold checkedAdd uintmaxMax
  rw [if_pos (by omega)]

theorem checkedMul_of_lt (h : left * right < 2 ^ 64) : checkedMul left right = some (left * right) := by
  unfold checkedMul
  rw [if_neg]
  intro ⟨hleft, hlt⟩
  have hmul := (Nat.div_lt_iff_lt_mul (pos_of_ne_zero hleft)).mp hlt
  rw [mul_comm] at hmul
  unfold uintmaxMax at hmul
  omega

theorem padding_lt {align : Nat} (hpos : 0 < align) (value : Nat) : padding value align < align := Nat.mod_lt _ hpos

theorem checkedRoundUp_of_lt {value align : Nat} (hpos : 0 < align) (h : value + padding value align < 2 ^ 64) :
    checkedRoundUp value align = some (value + padding value align) := by
  unfold checkedRoundUp
  rw [if_neg (by omega)]
  dsimp only
  by_cases hrem : value % align = 0
  · rw [if_pos hrem, padding, hrem, Nat.sub_zero, Nat.mod_self, add_zero]
  · have hlt := Nat.mod_lt value hpos
    have hpad : padding value align = align - value % align := Nat.mod_eq_of_lt (by omega)
    rw [hpad] at h ⊢
    rw [if_neg hrem, checkedAdd_of_lt h]

theorem dvd_add_padding {align : Nat} (hpos : 0 < align) (value : Nat) : align ∣ value + padding value align := by
  have hlt := Nat.mod_lt value hpos
  have hsplit := Nat.div_add_mod value align
  by_cases hrem : value % align = 0
  · rw [padding, hrem, Nat.sub_zero, Nat.mod_self, add_zero]
    exact Nat.dvd_of_mod_eq_zero hrem
  · have hpad : padding value align = align - value % align := Nat.mod_eq_of_lt (by omega)
    refine ⟨value / align + 1, ?_⟩
    rw [hpad, Nat.mul_add, mul_one]
    omega

theorem padding_add_of_dvd {start align : Nat} (h : align ∣ start) (more : Nat) :
    padding (start + more) align = padding more align := by
  obtain ⟨k, rfl⟩ := h
  unfold padding
  rw [Nat.mul_add_mod]

end Bx.Lib
