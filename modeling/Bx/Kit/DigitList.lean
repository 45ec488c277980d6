import Bx.Kit.Bytes
import Mathlib.Algebra.BigOperators.NatAntidiagonal
import Mathlib.Data.List.GetD
import Mathlib.Data.Nat.Digits.Lemmas

/-!
# Numbers as lists of digits

The digits of a number from the least significant one on, of which zero has one. Lists without a zero at the top compare
by their lengths and then from the top.
-/

namespace Bx.Kit

open List

open Nat (ofDigits)

variable {b : Nat}

def digitList (b n : Nat) : List Nat := if n = 0 then [0] else Nat.digits b n

structure IsNumeral (b : Nat) (l : List Nat) : Prop where
  ne_nil : l ≠ []
  lt : ∀ d ∈ l, d < b
  top : l ≠ [0] → ∀ h : l ≠ [], l.getLast h ≠ 0

theorem digitList_of_pos {n : Nat} (h : 0 < n) : digitList b n = Nat.digits b n := if_neg (ne_of_gt h)

@[simp] theorem digitList_zero : digitList b 0 = [0] := rfl

@[simp] theorem ofDigits_digitList (b n : Nat) : ofDigits b (digitList b n) = n := by
  unfold digitList
  split
  · rename_i hzero
    rw [hzero]
    rfl
  · exact Nat.ofDigits_digits b n

theorem isNumeral_digitList (hb : 1 < b) (n : Nat) : IsNumeral b (digitList b n) := by
  unfold digitList
  split
  · refine ⟨cons_ne_nil _ _, ?_, fun hne => absurd rfl hne⟩
    intro d hd
    rw [mem_singleton.mp hd]
    omega
  · rename_i hpos
    refine ⟨Nat.digits_ne_nil_iff_ne_zero.mpr hpos, fun d hd => Nat.digits_lt_base hb hd, ?_⟩
    intro _ hne
    exact Nat.getLast_digit_ne_zero b hpos

namespace IsNumeral
variable {l : List Nat}

section
variable (hb : 1 < b) (h : IsNumeral b l)
include hb h

theorem eq_digitList : l = digitList b (ofDigits b l) := by
  by_cases hzero : l = [0]
  · subst hzero
    rfl
  · have hdigits := Nat.digits_ofDigits b hb l h.lt (h.top hzero)
    have hpos : ofDigits b l ≠ 0 := by
      intro heq
      rw [heq, Nat.digits_zero] at hdigits
      exact h.ne_nil hdigits.symm
    unfold digitList
    rw [if_neg hpos, hdigits]

theorem lt_pow : ofDigits b l < b ^ l.length := Nat.ofDigits_lt_base_pow_length hb h.lt

theorem pow_le (hlong : 1 < l.length) : b ^ (l.length - 1) ≤ ofDigits b l := by
  have hne : l ≠ [0] := by
    intro heq
    rw [heq] at hlong
    exact absurd hlong (by decide)
  have htop := h.top hne h.ne_nil
  obtain ⟨c, rfl⟩ : ∃ c, b = c + 2 := ⟨b - 2, by omega⟩
  have hle := Nat.pow_length_le_mul_ofDigits (b := c) h.ne_nil htop
  obtain ⟨k, hk⟩ : ∃ k, l.length = k + 1 := ⟨l.length - 1, by omega⟩
  rw [hk, Nat.pow_succ, Nat.mul_comm] at hle
  rw [hk, Nat.add_sub_cancel]
  exact Nat.le_of_mul_le_mul_left hle (by omega)

end

end IsNumeral

/-! ## Comparison -/

/-- `memcmp` of lists with the same length -/
def memcmp : List Nat → List Nat → Ordering
  | x :: xs, y :: ys => (compare x y).then (memcmp xs ys)
  | _, _ => .eq

theorem memcmp_eq (hb : 1 < b) {xs ys : List Nat} (hlength : xs.length = ys.length) (hxs : ∀ x ∈ xs, x < b)
    (hys : ∀ y ∈ ys, y < b) : memcmp xs ys = compare (ofDigits b xs.reverse) (ofDigits b ys.reverse) := by
  induction xs generalizing ys with
  | nil =>
    cases ys with
    | nil => rfl
    | cons y ys => cases hlength
  | cons x xs ih =>
    cases ys with
    | nil => cases hlength
    | cons y ys =>
      have hsame : xs.length = ys.length := Nat.succ.inj hlength
      rw [memcmp, ih hsame (fun z hz => hxs z (mem_cons_of_mem _ hz)) (fun z hz => hys z (mem_cons_of_mem _ hz)),
        reverse_cons, reverse_cons, Nat.ofDigits_append, Nat.ofDigits_append, Nat.ofDigits_singleton,
        Nat.ofDigits_singleton, length_reverse, length_reverse, ← hsame]
      have hlow : ofDigits b xs.reverse < b ^ xs.length := by
        have hlt := @Nat.ofDigits_lt_base_pow_length b xs.reverse hb fun z hz =>
          hxs z (mem_cons_of_mem _ (mem_reverse.mp hz))
        rwa [length_reverse] at hlt
      have hlow' : ofDigits b ys.reverse < b ^ xs.length := by
        have hlt := @Nat.ofDigits_lt_base_pow_length b ys.reverse hb fun z hz =>
          hys z (mem_cons_of_mem _ (mem_reverse.mp hz))
        rwa [length_reverse, ← hsame] at hlt
      -- the digit at the top decides where it differs
      rcases Nat.lt_trichotomy x y with hlt | heq | hgt
      · have hmul : b ^ xs.length * x + b ^ xs.length ≤ b ^ xs.length * y := by
          rw [← Nat.mul_succ]
          exact Nat.mul_le_mul_left _ hlt
        have hall : ofDigits b xs.reverse + b ^ xs.length * x < ofDigits b ys.reverse + b ^ xs.length * y := by omega
        rw [compare_lt_iff_lt.mpr hlt, compare_lt_iff_lt.mpr hall]
        rfl
      · rw [heq, compare_eq_iff_eq.mpr rfl, Ordering.eq_then]
        rcases Nat.lt_trichotomy (ofDigits b xs.reverse) (ofDigits b ys.reverse) with hlt | heq' | hgt
        · rw [compare_lt_iff_lt.mpr hlt, compare_lt_iff_lt.mpr (by omega)]
        · rw [heq', compare_eq_iff_eq.mpr rfl, compare_eq_iff_eq.mpr rfl]
        · rw [compare_gt_iff_gt.mpr hgt, compare_gt_iff_gt.mpr (by omega)]
      · have hmul : b ^ xs.length * y + b ^ xs.length ≤ b ^ xs.length * x := by
          rw [← Nat.mul_succ]
          exact Nat.mul_le_mul_left _ hgt
        have hall : ofDigits b ys.reverse + b ^ xs.length * y < ofDigits b xs.reverse + b ^ xs.length * x := by omega
        rw [compare_gt_iff_gt.mpr hgt, compare_gt_iff_gt.mpr hall]
        rfl

theorem IsNumeral.lt_of_length_lt (hb : 1 < b) {l l' : List Nat} (h : IsNumeral b l) (h' : IsNumeral b l')
    (hlt : l.length < l'.length) : ofDigits b l < ofDigits b l' := by
  have hone : 0 < l.length := length_pos_iff.mpr h.ne_nil
  calc ofDigits b l < b ^ l.length := h.lt_pow hb
    _ ≤ b ^ (l'.length - 1) := Nat.pow_le_pow_right (by omega) (by omega)
    _ ≤ ofDigits b l' := h'.pow_le hb (by omega)

theorem IsNumeral.memcmp_eq (hb : 1 < b) {l l' : List Nat} (h : IsNumeral b l) (h' : IsNumeral b l')
    (hlength : l.length = l'.length) : memcmp l.reverse l'.reverse = compare (ofDigits b l) (ofDigits b l') := by
  have heq := @Kit.memcmp_eq b hb l.reverse l'.reverse (by simpa using hlength)
    (fun x hx => h.lt x (mem_reverse.mp hx)) (fun x hx => h'.lt x (mem_reverse.mp hx))
  rw [reverse_reverse, reverse_reverse] at heq
  exact heq

/-! ## Texts -/

def textDigits (text : Bytes) : List Nat := text.reverse.map digitValue

def digitText (l : List Nat) : Bytes := (l.map digitByte).reverse

theorem ofDigits_textDigits (b : Nat) (text : Bytes) : ofDigits b (textDigits text) = numeralValue b 0 text := by
  induction text using reverseRecOn with
  | nil => rfl
  | append_singleton text c ih =>
    unfold textDigits at ih ⊢
    rw [reverse_append, reverse_singleton, singleton_append, map_cons, Nat.ofDigits_cons, ih,
      numeralValue_append, numeralValue_cons, numeralValue_nil]
    ring

variable {c : UInt8} {text : Bytes}

theorem digitByte_digitValue (h : isDigit 10 c = true) : digitByte (digitValue c) = c := by
  have hrange := isDigit_iff.mp h
  unfold digitByte digitValue
  apply UInt8.toNat_inj.mp
  rw [UInt8.toNat_ofNat']
  have hlt := c.toNat_lt
  omega

theorem digitText_textDigits (h : ∀ c ∈ text, isDigit 10 c = true) : digitText (textDigits text) = text := by
  unfold digitText textDigits
  rw [map_map, ← map_reverse, reverse_reverse]
  apply (map_congr_left fun c hc => ?_).trans (map_id text)
  exact digitByte_digitValue (h c hc)

theorem digitValue_lt (h : isDigit 10 c = true) : digitValue c < 10 := by
  have hrange := isDigit_iff.mp h
  unfold digitValue
  omega

theorem isNumeral_textDigits (h : ∀ d ∈ c :: text, isDigit 10 d = true) (hc : c ≠ 48) :
    IsNumeral 10 (textDigits (c :: text)) := by
  have hall : ∀ d ∈ textDigits (c :: text), d < 10 := by
    intro d hd
    obtain ⟨e, he, rfl⟩ := mem_map.mp hd
    exact digitValue_lt (h e (mem_reverse.mp he))
  have hsplit : textDigits (c :: text) = textDigits text ++ [digitValue c] := by
    unfold textDigits
    rw [reverse_cons, map_append, map_singleton]
  have hrange := isDigit_iff.mp (h c mem_cons_self)
  have hne : c.toNat ≠ 48 := fun heq => hc (UInt8.toNat_inj.mp heq)
  refine ⟨?_, hall, ?_⟩
  · rw [hsplit]
    exact append_ne_nil_of_right_ne_nil _ (cons_ne_nil _ _)
  · intro _ hnil
    have hlast : (textDigits (c :: text)).getLast hnil = digitValue c := by
      simp only [hsplit, getLast_append_singleton]
    rw [hlast]
    unfold digitValue
    omega

theorem textDigits_numeral (n : Nat) : textDigits (numeral 10 n) = digitList 10 n := by
  have hdigits : ∀ c ∈ numeral 10 n, isDigit 10 c = true := fun c hc =>
    isDigit_of_mem_numeral (by decide) (by decide) hc
  have hvalue : ofDigits 10 (textDigits (numeral 10 n)) = n := by
    rw [ofDigits_textDigits, numeralValue_numeral (by decide) (by decide)]
  obtain ⟨c, text, htext⟩ := exists_cons_of_ne_nil (@numeral_ne_nil 10 n)
  rw [htext] at hdigits hvalue ⊢
  by_cases hc : c = 48
  · -- a zero at the top is the only digit
    have hlow : numeralValue 10 0 text = n := by
      rw [ofDigits_textDigits, hc, numeralValue_cons] at hvalue
      exact hvalue
    have hshort : text = [] := by
      by_contra hne
      have hlt : n < 10 ^ text.length := by
        have hbound := @Nat.ofDigits_lt_base_pow_length 10 (textDigits text) (by decide) fun d hd => by
          obtain ⟨e, he, rfl⟩ := mem_map.mp hd
          exact digitValue_lt (hdigits e (mem_cons_of_mem _ (mem_reverse.mp he)))
        rw [ofDigits_textDigits, hlow] at hbound
        simpa [textDigits] using hbound
      have hlength := (@length_numeral_le_iff 10 (by decide) n text.length (length_pos_iff.mpr hne)).mpr hlt
      rw [htext, length_cons] at hlength
      omega
    rw [hshort] at hlow ⊢
    rw [hc, ← hlow]
    rfl
  · have heq := (isNumeral_textDigits hdigits hc).eq_digitList (by decide)
    rw [hvalue] at heq
    exact heq

theorem digitText_digitList (n : Nat) : digitText (digitList 10 n) = numeral 10 n := by
  rw [← textDigits_numeral, digitText_textDigits fun c hc => isDigit_of_mem_numeral (by decide) (by decide) hc]

/-! ## Columns of a product -/

def columnSum (b m n k : Nat) : Nat := ∑ p ∈ Finset.HasAntidiagonal.antidiagonal k, (m / b ^ p.1 % b) * (n / b ^ p.2 % b)

def carriedColumn (b m n k : Nat) : Nat := (∑ j ∈ Finset.range (k + 1), columnSum b m n j * b ^ j) / b ^ k

theorem getD_digitList (hb : 1 < b) (n i : Nat) : (digitList b n).getD i 0 = n / b ^ i % b := by
  unfold digitList
  split
  · rename_i hzero
    rw [hzero, Nat.zero_div, Nat.zero_mod]
    cases i <;> rfl
  · exact Nat.getD_digits n i hb

theorem columnSum_le_carriedColumn (hb : 0 < b) (m n k : Nat) : columnSum b m n k ≤ carriedColumn b m n k := by
  unfold carriedColumn
  rw [Finset.sum_range_succ, Nat.add_mul_div_right _ _ (Nat.pow_pos hb)]
  exact Nat.le_add_left _ _

theorem ofDigits_take (b : Nat) (l : List Nat) (k : Nat) :
    ofDigits b (l.take k) = ∑ j ∈ Finset.range k, l.getD j 0 * b ^ j := by
  induction k with
  | zero => rfl
  | succ k ih =>
    rw [Finset.sum_range_succ, ← ih]
    by_cases hk : k < l.length
    · rw [take_succ_eq_append_getElem hk, Nat.ofDigits_append, Nat.ofDigits_singleton, length_take,
        min_eq_left (le_of_lt hk), getD_eq_getElem _ _ hk, mul_comm]
    · rw [take_of_length_le (by omega), take_of_length_le (by omega), getD_eq_default _ _ (by omega),
        zero_mul, add_zero]

def convolve (l l' : List Nat) (k : Nat) : Nat := ∑ p ∈ Finset.HasAntidiagonal.antidiagonal k, l.getD p.1 0 * l'.getD p.2 0

theorem convolve_digitList (hb : 1 < b) (m n k : Nat) :
    convolve (digitList b m) (digitList b n) k = columnSum b m n k := by
  unfold convolve columnSum
  simp only [getD_digitList hb]

@[simp] theorem convolve_nil (l : List Nat) (k : Nat) : convolve [] l k = 0 := by
  simp [convolve]

theorem convolve_cons_zero (d : Nat) (l l' : List Nat) : convolve (d :: l) l' 0 = d * l'.getD 0 0 := by
  simp [convolve]

theorem convolve_cons_succ (d : Nat) (l l' : List Nat) (k : Nat) :
    convolve (d :: l) l' (k + 1) = d * l'.getD (k + 1) 0 + convolve l l' k := by
  unfold convolve
  rw [Finset.Nat.sum_antidiagonal_succ]
  rfl

end Bx.Kit
