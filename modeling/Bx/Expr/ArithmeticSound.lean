import Bx.Expr.Arithmetic
import Mathlib.Algebra.Order.BigOperators.Group.Finset
import Mathlib.Tactic.LinearCombination

/-!
# The arithmetic of expr is exact

Each operation on digits gives the digits of the number it is meant to give. A product is the exception where one of its
columns does not fit into an `int` any more.
-/

namespace Bx.Expr

open Kit List
open Nat (ofDigits)

/-! ## Addition and subtraction -/

theorem ofDigits_addCarry (carry : Nat) (l : Digits) : ofDigits 10 (addCarry carry l) = ofDigits 10 l + carry := by
  induction l generalizing carry with
  | nil => rw [addCarry, Nat.ofDigits_digits, Nat.ofDigits_nil, zero_add]
  | cons d l ih =>
    rw [addCarry, Nat.ofDigits_cons, ih, Nat.ofDigits_cons]
    omega

theorem ofDigits_digitsAddAbs (carry : Nat) (a b : Digits) :
    ofDigits 10 (digitsAddAbs carry a b) = ofDigits 10 a + ofDigits 10 b + carry := by
  induction a generalizing carry b with
  | nil => rw [digitsAddAbs, ofDigits_addCarry, Nat.ofDigits_nil, zero_add]
  | cons da a ih =>
    cases b with
    | nil => rw [digitsAddAbs, ofDigits_addCarry, Nat.ofDigits_nil, add_zero]
    | cons db b =>
      rw [digitsAddAbs, Nat.ofDigits_cons, ih, Nat.ofDigits_cons, Nat.ofDigits_cons]
      omega

variable {l : Digits} {a b : Digits}

theorem addCarry_lt {carry d : Nat} (h : d ∈ addCarry carry l) : d < 10 := by
  induction l generalizing carry with
  | nil => exact Nat.digits_lt_base (by decide) h
  | cons d' l ih =>
    cases mem_cons.mp h with
    | inl heq => omega
    | inr hin => exact ih hin

theorem digitsAddAbs_lt {carry d : Nat} (h : d ∈ digitsAddAbs carry a b) : d < 10 := by
  induction a generalizing carry b with
  | nil => exact addCarry_lt h
  | cons da a ih =>
    cases b with
    | nil => exact addCarry_lt h
    | cons db b =>
      cases mem_cons.mp h with
      | inl heq => omega
      | inr hin => exact ih hin

def TopPos (l : List Nat) : Prop := ∀ h : l ≠ [], l.getLast h ≠ 0

variable {d : Nat} {carry : Nat} {acc acc' : List Nat} {da : Nat}

theorem TopPos.tail {l : List Nat} (h : TopPos (d :: l)) : TopPos l := by
  intro hne
  have hlast := h (cons_ne_nil _ _)
  rwa [getLast_cons hne] at hlast

theorem topPos_cons {l : List Nat} (h : TopPos l) (hd : l = [] → d ≠ 0) : TopPos (d :: l) := by
  intro _
  by_cases hnil : l = []
  · subst hnil
    exact hd rfl
  · rw [getLast_cons hnil]
    exact h hnil

theorem addCarry_eq_nil (h : addCarry carry l = []) : l = [] ∧ carry = 0 := by
  cases l with
  | nil => exact ⟨rfl, Nat.digits_eq_nil_iff_eq_zero.mp h⟩
  | cons d l => cases h

theorem digitsAddAbs_eq_nil (h : digitsAddAbs carry a b = []) : a = [] ∧ b = [] ∧ carry = 0 := by
  cases a with
  | nil => exact ⟨rfl, addCarry_eq_nil h⟩
  | cons da a => cases b <;> cases h

theorem topPos_addCarry (h : TopPos l) : TopPos (addCarry carry l) := by
  induction l generalizing carry with
  | nil =>
    intro hne
    exact Nat.getLast_digit_ne_zero 10 (Nat.digits_ne_nil_iff_ne_zero.mp hne)
  | cons d l ih =>
    refine topPos_cons (ih h.tail) ?_
    intro hnil
    obtain ⟨rfl, hcarry⟩ := addCarry_eq_nil hnil
    have hd : d ≠ 0 := h (cons_ne_nil _ _)
    omega

theorem topPos_digitsAddAbs (ha : TopPos a) (hb : TopPos b) : TopPos (digitsAddAbs carry a b) := by
  induction a generalizing carry b with
  | nil => exact topPos_addCarry hb
  | cons da a ih =>
    cases b with
    | nil => exact topPos_addCarry ha
    | cons db b =>
      refine topPos_cons (ih ha.tail hb.tail) ?_
      intro hnil
      obtain ⟨rfl, _, hcarry⟩ := digitsAddAbs_eq_nil hnil
      have hda : da ≠ 0 := ha (cons_ne_nil _ _)
      omega

theorem topPos_digitList {n : Nat} (h : 0 < n) : TopPos (digitList 10 n) := by
  rw [digitList_of_pos h]
  intro _
  exact Nat.getLast_digit_ne_zero 10 (ne_of_gt h)

theorem digitsAddAbs_eq {m n : Nat} (hm : 0 < m) (hn : 0 < n) :
    digitsAddAbs 0 (digitList 10 m) (digitList 10 n) = digitList 10 (m + n) := by
  have hvalue := ofDigits_digitsAddAbs 0 (digitList 10 m) (digitList 10 n)
  rw [ofDigits_digitList, ofDigits_digitList, add_zero] at hvalue
  have hnumeral : IsNumeral 10 (digitsAddAbs 0 (digitList 10 m) (digitList 10 n)) := by
    refine ⟨?_, fun d hd => digitsAddAbs_lt hd, fun _ => topPos_digitsAddAbs (topPos_digitList hm) (topPos_digitList hn)⟩
    intro hnil
    exact (isNumeral_digitList (by decide) m).ne_nil (digitsAddAbs_eq_nil hnil).1
  rw [hnumeral.eq_digitList (by decide), hvalue]

theorem ofDigits_headD (b : Digits) : ofDigits 10 b = b.headD 0 + 10 * ofDigits 10 b.tail := by
  cases b with
  | nil => rfl
  | cons d b => exact Nat.ofDigits_cons

variable {borrow : Nat}

theorem ofDigits_subDigits (hborrow : borrow ≤ 1) (ha : ∀ d ∈ a, d < 10)
    (hb : ∀ d ∈ b, d < 10) (h : ofDigits 10 b + borrow ≤ ofDigits 10 a) :
    ofDigits 10 (subDigits borrow a b) + ofDigits 10 b + borrow = ofDigits 10 a := by
  induction a generalizing borrow b with
  | nil =>
    rw [Nat.ofDigits_nil] at h
    rw [subDigits, Nat.ofDigits_nil]
    omega
  | cons da a ih =>
    have hda := ha da mem_cons_self
    have hdb : b.headD 0 < 10 := by
      cases b with
      | nil => decide
      | cons d b => exact hb d mem_cons_self
    have htail : ∀ d ∈ b.tail, d < 10 := fun d hd => hb d (mem_of_mem_tail hd)
    have hrest := fun borrow hborrow => @ih b.tail borrow hborrow (fun d hd => ha d (mem_cons_of_mem _ hd)) htail
    rw [ofDigits_headD b, Nat.ofDigits_cons] at h ⊢
    unfold subDigits
    dsimp only
    by_cases hless : da < b.headD 0 + borrow
    · rw [if_pos hless, Nat.ofDigits_cons]
      have heq := hrest 1 (le_rfl) (by omega)
      omega
    · rw [if_neg hless, Nat.ofDigits_cons]
      have heq := hrest 0 (Nat.zero_le _) (by omega)
      omega

theorem subDigits_lt (ha : ∀ d ∈ a, d < 10) (h : d ∈ subDigits borrow a b) : d < 10 := by
  induction a generalizing borrow b with
  | nil => cases h
  | cons da a ih =>
    have hda := ha da mem_cons_self
    have hrest := fun borrow => @ih b.tail borrow fun d hd => ha d (mem_cons_of_mem _ hd)
    unfold subDigits at h
    dsimp only at h
    by_cases hless : da < b.headD 0 + borrow
    · rw [if_pos hless] at h
      cases mem_cons.mp h with
      | inl heq => omega
      | inr hin => exact hrest 1 hin
    · rw [if_neg hless] at h
      cases mem_cons.mp h with
      | inl heq => omega
      | inr hin => exact hrest 0 hin

theorem subDigits_ne_nil (h : a ≠ []) : subDigits borrow a b ≠ [] := by
  obtain ⟨da, a, rfl⟩ := exists_cons_of_ne_nil h
  unfold subDigits
  dsimp only
  split <;> exact cons_ne_nil _ _

theorem ofDigits_rdropWhile (l : List Nat) : ofDigits 10 (l.rdropWhile (· == 0)) = ofDigits 10 l := by
  induction l using reverseRecOn with
  | nil => rfl
  | append_singleton l d ih =>
    by_cases hd : d = 0
    · rw [rdropWhile_concat_pos _ _ _ (by rw [hd]; rfl), ih, hd, Nat.ofDigits_append_zero]
    · rw [rdropWhile_concat_neg _ _ _ (by simpa using hd)]

theorem trimTop_eq (hne : l ≠ []) (hlt : ∀ d ∈ l, d < 10) : trimTop l = digitList 10 (ofDigits 10 l) := by
  have hvalue := ofDigits_rdropWhile l
  unfold trimTop
  dsimp only
  by_cases htop : l.rdropWhile (· == 0) = []
  · rw [if_pos htop, ← hvalue, htop, Nat.ofDigits_nil, digitList_zero]
    obtain ⟨d, l, rfl⟩ := exists_cons_of_ne_nil hne
    have hzero := rdropWhile_eq_nil_iff.mp htop d mem_cons_self
    rw [take_succ_cons, take_zero, beq_iff_eq.mp hzero]
  · rw [if_neg htop, ← hvalue]
    apply IsNumeral.eq_digitList (by decide)
    refine ⟨htop, fun d hd => hlt d ((List.rdropWhile_prefix _ _).subset hd), ?_⟩
    intro _ hne' heq
    exact rdropWhile_last_not _ _ hne' (beq_iff_eq.mpr heq)

theorem digitsSubAbs_eq {m n : Nat} (h : n ≤ m) : digitsSubAbs (digitList 10 m) (digitList 10 n) = digitList 10 (m - n) := by
  have hm := isNumeral_digitList (by decide : 1 < 10) m
  have hn := isNumeral_digitList (by decide : 1 < 10) n
  have hvalue := ofDigits_subDigits (Nat.zero_le 1) hm.lt hn.lt (by simpa using h)
  rw [ofDigits_digitList, ofDigits_digitList] at hvalue
  have hdifference : ofDigits 10 (subDigits 0 (digitList 10 m) (digitList 10 n)) = m - n := by omega
  unfold digitsSubAbs
  rw [trimTop_eq (subDigits_ne_nil hm.ne_nil) (fun d hd => subDigits_lt hm.lt hd), hdifference]

theorem digitsCompareAbs_eq (m n : Nat) : digitsCompareAbs (digitList 10 m) (digitList 10 n) = compare m n := by
  have hm := isNumeral_digitList (by decide : 1 < 10) m
  have hn := isNumeral_digitList (by decide : 1 < 10) n
  unfold digitsCompareAbs
  rcases Nat.lt_trichotomy (digitList 10 m).length (digitList 10 n).length with hlt | heq | hgt
  · have hless := hm.lt_of_length_lt (by decide) hn hlt
    rw [ofDigits_digitList, ofDigits_digitList] at hless
    rw [if_pos (by omega), if_pos hlt, compare_lt_iff_lt.mpr hless]
  · rw [if_neg (not_not.mpr heq), hm.memcmp_eq (by decide) hn heq, ofDigits_digitList, ofDigits_digitList]
  · have hmore := hn.lt_of_length_lt (by decide) hm hgt
    rw [ofDigits_digitList, ofDigits_digitList] at hmore
    rw [if_pos (by omega), if_neg (by omega), compare_gt_iff_gt.mpr hmore]

/-! ## Division -/

theorem digitsMul10AddDigit_eq (r : Nat) {digit : Nat} (h : digit < 10) :
    digitsMul10AddDigit (digitList 10 r) digit = digitList 10 (10 * r + digit) := by
  unfold digitsMul10AddDigit
  have hnumeral : IsNumeral 10 (if digitList 10 r = [0] then [digit] else digit :: digitList 10 r) := by
    have hr := isNumeral_digitList (by decide : 1 < 10) r
    split
    · refine ⟨cons_ne_nil _ _, ?_, ?_⟩
      · intro d hd
        rw [mem_singleton.mp hd]
        exact h
      · intro hne _ heq
        rw [getLast_singleton] at heq
        rw [heq] at hne
        exact hne rfl
    · rename_i hnot
      refine ⟨cons_ne_nil _ _, ?_, ?_⟩
      · intro d hd
        cases mem_cons.mp hd with
        | inl heq => omega
        | inr hin => exact hr.lt d hin
      · intro _ hne
        rw [getLast_cons hr.ne_nil]
        exact hr.top hnot hr.ne_nil
  have hvalue : ofDigits 10 (if digitList 10 r = [0] then [digit] else digit :: digitList 10 r) = 10 * r + digit := by
    split
    · rename_i hzero
      have hr := ofDigits_digitList 10 r
      rw [hzero] at hr
      rw [← hr, Nat.ofDigits_singleton, Nat.ofDigits_singleton]
      omega
    · rw [Nat.ofDigits_cons, ofDigits_digitList]
      omega
  rw [hnumeral.eq_digitList (by decide), hvalue]

theorem quotientDigit_eq (hd : 0 < d) {fuel r : Nat} (h : r < fuel * d) :
    quotientDigit (digitList 10 d) fuel (digitList 10 r) = some (r / d, digitList 10 (r % d)) := by
  induction fuel generalizing r with
  | zero => omega
  | succ fuel ih =>
    unfold quotientDigit
    rw [digitsCompareAbs_eq]
    by_cases hless : r < d
    · rw [if_pos (compare_lt_iff_lt.mpr hless), Nat.div_eq_of_lt hless, Nat.mod_eq_of_lt hless]
    · have hle : d ≤ r := Nat.le_of_not_lt hless
      have hbound : r - d < fuel * d := by
        rw [Nat.succ_mul] at h
        omega
      have hdiv : r / d = (r - d) / d + 1 := Nat.div_eq_sub_div hd hle
      have hmod : (r - d) % d = r % d := (Nat.mod_eq_sub_mod hle).symm
      rw [if_neg (fun hlt => hless (compare_lt_iff_lt.mp hlt)), digitsSubAbs_eq hle, ih hbound, Option.map_some, hmod, hdiv]

theorem divideDigits_eq {d : Nat} (hd : 0 < d) {numerator : List Nat} (hlt : ∀ c ∈ numerator, c < 10) {quotient : Digits}
    (hquotient : ∀ c ∈ quotient, c < 10) {r : Nat} (hr : r < d) :
    ∃ quotient', divideDigits (digitList 10 d) numerator quotient (digitList 10 r) =
        some (quotient', digitList 10 ((r * 10 ^ numerator.length + ofDigits 10 numerator.reverse) % d)) ∧
      (∀ c ∈ quotient', c < 10) ∧ quotient'.length = numerator.length + quotient.length ∧
      ofDigits 10 quotient' = ofDigits 10 quotient * 10 ^ numerator.length +
        (r * 10 ^ numerator.length + ofDigits 10 numerator.reverse) / d := by
  induction numerator generalizing quotient r with
  | nil =>
    refine ⟨quotient, ?_, hquotient, (zero_add _).symm, ?_⟩
    · rw [divideDigits, length_nil, Nat.pow_zero, mul_one, reverse_nil, Nat.ofDigits_nil, add_zero,
        Nat.mod_eq_of_lt hr]
    · rw [length_nil, Nat.pow_zero, mul_one, mul_one, reverse_nil, Nat.ofDigits_nil, add_zero,
        Nat.div_eq_of_lt hr, add_zero]
  | cons c numerator ih =>
    have hc := hlt c mem_cons_self
    have hdigit : (10 * r + c) / d < 10 := by
      rw [Nat.div_lt_iff_lt_mul hd]
      omega
    have hmore : ∀ e ∈ (10 * r + c) / d :: quotient, e < 10 := by
      intro e he
      cases mem_cons.mp he with
      | inl heq => omega
      | inr hin => exact hquotient e hin
    obtain ⟨quotient', hdivide, hlt', hlength, hvalue⟩ :=
      ih (fun e he => hlt e (mem_cons_of_mem _ he)) hmore (Nat.mod_lt (10 * r + c) hd)
    have hread : r * 10 ^ (c :: numerator).length + ofDigits 10 (c :: numerator).reverse =
        d * (10 ^ numerator.length * ((10 * r + c) / d)) +
          ((10 * r + c) % d * 10 ^ numerator.length + ofDigits 10 numerator.reverse) := by
      rw [reverse_cons, Nat.ofDigits_append, Nat.ofDigits_singleton, length_reverse, length_cons, pow_succ]
      have hsplit := Nat.div_add_mod (10 * r + c) d
      calc r * (10 ^ numerator.length * 10) + (ofDigits 10 numerator.reverse + 10 ^ numerator.length * c)
          = 10 ^ numerator.length * (10 * r + c) + ofDigits 10 numerator.reverse := by ring
        _ = 10 ^ numerator.length * (d * ((10 * r + c) / d) + (10 * r + c) % d) + ofDigits 10 numerator.reverse := by
          rw [hsplit]
        _ = _ := by ring
    refine ⟨quotient', ?_, hlt', ?_, ?_⟩
    · rw [divideDigits, digitsMul10AddDigit_eq r hc, quotientDigit_eq hd (by omega), Option.bind_some]
      dsimp only
      rw [hdivide, hread, Nat.mul_add_mod]
    · rw [hlength, length_cons, length_cons]
      omega
    · rw [hvalue, hread, Nat.mul_add_div hd, Nat.ofDigits_cons, length_cons, pow_succ]
      ring

theorem digitsDivmodAbs_eq (n : Nat) (hd : 0 < d) :
    digitsDivmodAbs (digitList 10 n) (digitList 10 d) = some (digitList 10 (n / d), digitList 10 (n % d)) := by
  unfold digitsDivmodAbs
  rw [digitsCompareAbs_eq]
  by_cases hless : n < d
  · rw [if_pos (compare_lt_iff_lt.mpr hless), Nat.div_eq_of_lt hless, Nat.mod_eq_of_lt hless, digitList_zero]
  · have hn := isNumeral_digitList (by decide : 1 < 10) n
    obtain ⟨quotient, hdivide, hlt, hlength, hvalue⟩ :=
      @divideDigits_eq d hd (digitList 10 n).reverse (fun c hc => hn.lt c (mem_reverse.mp hc)) []
        (fun c hc => (nomatch hc)) 0 hd
    rw [reverse_reverse, ofDigits_digitList, zero_mul, zero_add] at hdivide hvalue
    rw [Nat.ofDigits_nil, zero_mul, zero_add] at hvalue
    have hne : quotient ≠ [] := by
      intro hnil
      rw [hnil, length_nil, length_reverse, add_zero] at hlength
      exact hn.ne_nil (length_eq_zero_iff.mp hlength.symm)
    have hr := isNumeral_digitList (by decide : 1 < 10) (n % d)
    rw [if_neg (fun hlt => hless (compare_lt_iff_lt.mp hlt))]
    rw [digitList_zero] at hdivide
    rw [hdivide, Option.map_some]
    dsimp only
    rw [trimTop_eq hne hlt, hvalue, trimTop_eq hr.ne_nil hr.lt, ofDigits_digitList]

/-! ## Multiplication -/

theorem addRow_spec (h : addRow da b acc = some acc') :
    acc'.length = acc.length ∧ ofDigits 10 acc' = ofDigits 10 acc + da * ofDigits 10 b ∧
      ∀ k, acc'.getD k 0 = acc.getD k 0 + da * b.getD k 0 := by
  induction b generalizing acc acc' with
  | nil =>
    cases h
    simp
  | cons db b ih =>
    cases acc with
    | nil => cases h
    | cons x acc =>
      unfold addRow at h
      by_cases hover : intMax < x + da * db
      · simp [hover] at h
      · rw [if_neg hover] at h
        obtain ⟨rest, hrest, rfl⟩ := Option.map_eq_some_iff.mp h
        obtain ⟨hlength, hvalue, hget⟩ := ih hrest
        refine ⟨?_, ?_, ?_⟩
        · rw [length_cons, length_cons, hlength]
        · rw [Nat.ofDigits_cons, Nat.ofDigits_cons, Nat.ofDigits_cons, hvalue]
          ring
        · intro k
          cases k with
          | zero => rfl
          | succ k => exact hget k

theorem addRow_le (h : addRow da b acc = some acc')
    (hacc : ∀ k, acc.getD k 0 ≤ intMax) (k : Nat) : acc'.getD k 0 ≤ intMax := by
  induction b generalizing acc acc' k with
  | nil =>
    cases h
    exact hacc k
  | cons db b ih =>
    cases acc with
    | nil => cases h
    | cons x acc =>
      unfold addRow at h
      by_cases hover : intMax < x + da * db
      · simp [hover] at h
      · rw [if_neg hover] at h
        obtain ⟨rest, hrest, rfl⟩ := Option.map_eq_some_iff.mp h
        cases k with
        | zero => exact Nat.le_of_not_lt hover
        | succ k => exact ih hrest (fun j => hacc (j + 1)) k

theorem addRow_of_le (hlength : b.length ≤ acc.length)
    (h : ∀ k, acc.getD k 0 + da * b.getD k 0 ≤ intMax) : ∃ acc', addRow da b acc = some acc' := by
  induction b generalizing acc with
  | nil => exact ⟨acc, rfl⟩
  | cons db b ih =>
    cases acc with
    | nil => cases hlength
    | cons x acc =>
      obtain ⟨rest, hrest⟩ := ih (Nat.le_of_succ_le_succ hlength) fun k => h (k + 1)
      have hle : x + da * db ≤ intMax := h 0
      unfold addRow
      rw [if_neg (Nat.not_lt.mpr hle), hrest]
      exact ⟨_, rfl⟩

theorem addRows_spec (h : addRows a b acc = some acc') :
    acc'.length = acc.length ∧ ofDigits 10 acc' = ofDigits 10 acc + ofDigits 10 a * ofDigits 10 b ∧
      ∀ k, acc'.getD k 0 = acc.getD k 0 + convolve a b k := by
  induction a generalizing acc acc' with
  | nil =>
    cases h
    simp
  | cons da a ih =>
    unfold addRows at h
    cases hrow : addRow da b acc with
    | none => simp [hrow] at h
    | some row =>
      rw [hrow] at h
      obtain ⟨hlength, hvalue, hget⟩ := addRow_spec hrow
      cases row with
      | nil => cases h
      | cons x row =>
        obtain ⟨rest, hrest, rfl⟩ := Option.map_eq_some_iff.mp h
        obtain ⟨hlength', hvalue', hget'⟩ := ih hrest
        refine ⟨?_, ?_, ?_⟩
        · rw [length_cons, hlength', ← length_cons, hlength]
        · rw [Nat.ofDigits_cons] at hvalue
          rw [Nat.ofDigits_cons, Nat.ofDigits_cons, hvalue']
          linear_combination hvalue
        · intro k
          cases k with
          | zero =>
            rw [convolve_cons_zero]
            exact hget 0
          | succ k =>
            have hat := hget (k + 1)
            rw [getD_cons_succ] at hat
            rw [convolve_cons_succ, getD_cons_succ, hget', hat]
            omega

theorem addRows_le (h : addRows a b acc = some acc')
    (hacc : ∀ k, acc.getD k 0 ≤ intMax) (k : Nat) : acc'.getD k 0 ≤ intMax := by
  induction a generalizing acc acc' k with
  | nil =>
    cases h
    exact hacc k
  | cons da a ih =>
    unfold addRows at h
    cases hrow : addRow da b acc with
    | none => simp [hrow] at h
    | some row =>
      rw [hrow] at h
      have hle := addRow_le hrow hacc
      cases row with
      | nil => cases h
      | cons x row =>
        obtain ⟨rest, hrest, rfl⟩ := Option.map_eq_some_iff.mp h
        cases k with
        | zero => exact hle 0
        | succ k => exact ih hrest (fun j => hle (j + 1)) k

theorem addRows_of_le (hlength : a.length + b.length ≤ acc.length)
    (h : ∀ k, acc.getD k 0 + convolve a b k ≤ intMax) : ∃ acc', addRows a b acc = some acc' := by
  induction a generalizing acc with
  | nil => exact ⟨acc, rfl⟩
  | cons da a ih =>
    rw [length_cons] at hlength
    have hfirst : ∀ k, acc.getD k 0 + da * b.getD k 0 ≤ intMax := by
      intro k
      have hle := h k
      cases k with
      | zero => rwa [convolve_cons_zero] at hle
      | succ k =>
        rw [convolve_cons_succ] at hle
        omega
    obtain ⟨row, hrow⟩ := addRow_of_le (by omega) hfirst
    obtain ⟨hrowLength, _, hget⟩ := addRow_spec hrow
    unfold addRows
    rw [hrow]
    cases row with
    | nil =>
      rw [length_nil] at hrowLength
      omega
    | cons x row =>
      rw [length_cons] at hrowLength
      have hrest : ∀ k, row.getD k 0 + convolve a b k ≤ intMax := by
        intro k
        have hat := hget (k + 1)
        have hle := h (k + 1)
        rw [getD_cons_succ] at hat
        rw [convolve_cons_succ] at hle
        omega
      obtain ⟨rest, hrest⟩ := ih (by omega) hrest
      dsimp only
      rw [hrest]
      exact ⟨_, rfl⟩

theorem carryOver_spec {x : Nat} {out : List Nat} (h : carryOver x acc = some out) :
    out ≠ [] ∧ ofDigits 10 out = ofDigits 10 (x :: acc) ∧
      (ofDigits 10 (x :: acc) < 10 ^ (x :: acc).length → ∀ d ∈ out, d < 10) := by
  induction acc generalizing x out with
  | nil =>
    cases h
    refine ⟨cons_ne_nil _ _, rfl, ?_⟩
    intro hlt d hd
    rw [mem_singleton.mp hd]
    rw [Nat.ofDigits_singleton] at hlt
    exact hlt
  | cons y acc ih =>
    unfold carryOver at h
    by_cases hover : intMax < y + x / 10
    · simp [hover] at h
    · rw [if_neg hover] at h
      obtain ⟨rest, hrest, rfl⟩ := Option.map_eq_some_iff.mp h
      obtain ⟨_, hvalue, hdigits⟩ := ih hrest
      rw [Nat.ofDigits_cons] at hvalue hdigits
      refine ⟨cons_ne_nil _ _, ?_, ?_⟩
      · rw [Nat.ofDigits_cons, Nat.ofDigits_cons, Nat.ofDigits_cons, hvalue]
        omega
      · intro hlt d hd
        rw [Nat.ofDigits_cons, Nat.ofDigits_cons, length_cons, pow_succ] at hlt
        cases mem_cons.mp hd with
        | inl heq => omega
        | inr hin =>
          apply hdigits _ d hin
          rw [length_cons] at hlt ⊢
          omega

theorem carryOver_isSome {x : Nat} : (∃ out, carryOver x acc = some out) ↔
      ∀ k, k < acc.length → ofDigits 10 ((x :: acc).take (k + 2)) / 10 ^ (k + 1) ≤ intMax := by
  induction acc generalizing x with
  | nil => exact ⟨fun _ k hk => (nomatch hk), fun _ => ⟨_, rfl⟩⟩
  | cons y acc ih =>
    have hshift : ∀ k, ofDigits 10 ((x :: y :: acc).take (k + 2)) / 10 ^ (k + 1) =
        ofDigits 10 (((y + x / 10) :: acc).take (k + 1)) / 10 ^ k := by
      intro k
      rw [take_succ_cons, take_succ_cons, take_succ_cons, Nat.ofDigits_cons, Nat.ofDigits_cons,
        Nat.ofDigits_cons, pow_succ, mul_comm (10 ^ k) 10, ← Nat.div_div_eq_div_mul]
      congr 1
      omega
    have hfirst : ofDigits 10 (((y + x / 10) :: acc).take 1) / 10 ^ 0 = y + x / 10 := by
      rw [take_succ_cons, take_zero, Nat.ofDigits_singleton, Nat.pow_zero, Nat.div_one]
    unfold carryOver
    by_cases hover : intMax < y + x / 10
    · rw [if_pos hover]
      refine ⟨fun h => (nomatch h), ?_⟩
      intro h
      have hle := h 0 (Nat.succ_pos _)
      rw [hshift, hfirst] at hle
      omega
    · rw [if_neg hover]
      have hrest : (∃ out, (carryOver (y + x / 10) acc).map (x % 10 :: ·) = some out) ↔
          ∃ out, carryOver (y + x / 10) acc = some out := by
        cases carryOver (y + x / 10) acc with
        | none => exact ⟨fun h => (nomatch h), fun h => (nomatch h)⟩
        | some out => exact ⟨fun _ => ⟨_, rfl⟩, fun _ => ⟨_, rfl⟩⟩
      rw [hrest, ih]
      refine ⟨?_, ?_⟩
      · intro h k hk
        rw [hshift]
        cases k with
        | zero =>
          rw [hfirst]
          omega
        | succ k => exact h k (by rw [length_cons] at hk; omega)
      · intro h k hk
        have hle := h (k + 1) (by rw [length_cons]; omega)
        rwa [hshift] at hle

/-- No column of the product reaches what an `int` does not hold. -/
def ColumnsFit (m n : Nat) : Prop := ∀ k, carriedColumn 10 m n k ≤ intMax

theorem getD_replicate_zero (size k : Nat) : (replicate size 0).getD k 0 = 0 := by
  rw [getD_eq_getElem?_getD, getElem?_replicate]
  split <;> rfl

theorem addRows_columns {m n : Nat} (h : addRows (digitList 10 m) (digitList 10 n)
      (replicate ((digitList 10 m).length + (digitList 10 n).length + 1) 0) = some acc) :
    acc.length = (digitList 10 m).length + (digitList 10 n).length + 1 ∧ ofDigits 10 acc = m * n ∧
      ofDigits 10 acc < 10 ^ acc.length ∧ (∀ k, acc.getD k 0 = columnSum 10 m n k) ∧
      ∀ k, ofDigits 10 (acc.take (k + 1)) / 10 ^ k = carriedColumn 10 m n k := by
  obtain ⟨hlength, hvalue, hget⟩ := addRows_spec h
  have hm := (isNumeral_digitList (by decide : 1 < 10) m).lt_pow (by decide)
  have hn := (isNumeral_digitList (by decide : 1 < 10) n).lt_pow (by decide)
  have hcolumn : ∀ k, acc.getD k 0 = columnSum 10 m n k := by
    intro k
    rw [hget, getD_replicate_zero, zero_add, convolve_digitList (by decide)]
  rw [length_replicate] at hlength
  rw [Nat.ofDigits_replicate_zero, zero_add, ofDigits_digitList, ofDigits_digitList] at hvalue
  rw [ofDigits_digitList] at hm hn
  refine ⟨hlength, hvalue, ?_, hcolumn, ?_⟩
  · rw [hvalue, hlength]
    calc m * n < 10 ^ (digitList 10 m).length * 10 ^ (digitList 10 n).length := Nat.mul_lt_mul'' hm hn
      _ = 10 ^ ((digitList 10 m).length + (digitList 10 n).length) := (Nat.pow_add _ _ _).symm
      _ ≤ 10 ^ ((digitList 10 m).length + (digitList 10 n).length + 1) :=
        Nat.pow_le_pow_right (by decide) (Nat.le_succ _)
  · intro k
    unfold carriedColumn
    simp only [ofDigits_take, hcolumn]

theorem digitsMulAbs_of_fit {m n : Nat} (h : ColumnsFit m n) :
    digitsMulAbs (digitList 10 m) (digitList 10 n) = some (digitList 10 (m * n)) := by
  have hsums : ∀ k, (replicate ((digitList 10 m).length + (digitList 10 n).length + 1) 0).getD k 0 +
      convolve (digitList 10 m) (digitList 10 n) k ≤ intMax := by
    intro k
    rw [getD_replicate_zero, zero_add, convolve_digitList (by decide)]
    exact Nat.le_trans (columnSum_le_carriedColumn (by decide) m n k) (h k)
  obtain ⟨acc, hacc⟩ := addRows_of_le (by rw [length_replicate]; omega) hsums
  obtain ⟨hlength, hvalue, hlt, _, hcarried⟩ := addRows_columns hacc
  unfold digitsMulAbs
  rw [hacc, Option.bind_some]
  cases acc with
  | nil => cases hlength
  | cons x acc =>
    have hcarry : ∀ k, k < acc.length → ofDigits 10 ((x :: acc).take (k + 2)) / 10 ^ (k + 1) ≤ intMax := by
      intro k _
      rw [hcarried (k + 1)]
      exact h (k + 1)
    obtain ⟨out, hout⟩ := carryOver_isSome.mpr hcarry
    obtain ⟨hne, hsame, hdigits⟩ := carryOver_spec hout
    show (carryOver x acc).map trimTop = _
    rw [hout, Option.map_some, trimTop_eq hne (hdigits hlt), hsame, hvalue]

theorem digitsMulAbs_of_not_fit {m n : Nat} (h : ¬ColumnsFit m n) :
    digitsMulAbs (digitList 10 m) (digitList 10 n) = none := by
  unfold digitsMulAbs
  cases hacc : addRows (digitList 10 m) (digitList 10 n)
      (replicate ((digitList 10 m).length + (digitList 10 n).length + 1) 0) with
  | none => rfl
  | some acc =>
    obtain ⟨hlength, _, hlt, hcolumn, hcarried⟩ := addRows_columns hacc
    have hle := addRows_le hacc (fun k => by rw [getD_replicate_zero]; exact Nat.zero_le _)
    rw [Option.bind_some]
    cases acc with
    | nil => cases hlength
    | cons x acc =>
      show (carryOver x acc).map trimTop = none
      cases hout : carryOver x acc with
      | none => rfl
      | some out =>
        refine absurd ?_ h
        have hcarry := carryOver_isSome.mp ⟨out, hout⟩
        intro k
        cases k with
        | zero =>
          have hfirst := hcarried 0
          rw [take_succ_cons, take_zero, Nat.ofDigits_singleton, Nat.pow_zero, Nat.div_one] at hfirst
          rw [← hfirst]
          exact hle 0
        | succ k =>
          by_cases hin : k < acc.length
          · rw [← hcarried (k + 1)]
            exact hcarry k hin
          · -- beyond the columns there is nothing to carry
            rw [← hcarried (k + 1), take_of_length_le (by rw [length_cons]; omega), Nat.div_eq_of_lt]
            · exact Nat.zero_le _
            · apply lt_of_lt_of_le hlt
              apply Nat.pow_le_pow_right (by decide)
              rw [length_cons]
              omega

/-! ## Integers -/

def ofInt (z : Int) : BigInt := ⟨z.sign, digitList 10 z.natAbs⟩

section
variable {m n : Nat}

theorem ofInt_pos (h : 0 < m) : ofInt m = ⟨1, digitList 10 m⟩ := by
  unfold ofInt
  rw [Int.sign_eq_one_of_pos (by omega), Int.natAbs_natCast]

theorem ofInt_neg (h : 0 < m) : ofInt (-m) = ⟨-1, digitList 10 m⟩ := by
  unfold ofInt
  rw [Int.sign_eq_neg_one_of_neg (by omega), Int.natAbs_neg, Int.natAbs_natCast]

theorem digitList_ne_zero (h : 0 < m) : digitList 10 m ≠ [0] := by
  intro heq
  have hvalue := ofDigits_digitList 10 m
  rw [heq, Nat.ofDigits_singleton] at hvalue
  omega

theorem ofInt_sign_eq_zero {z : Int} : (ofInt z).sign = 0 ↔ z = 0 := Int.sign_eq_zero_iff_zero

theorem bigintSetFromDigits_eq {sign : Int} (hsign : sign = 1 ∨ sign = -1) (m : Nat) :
    bigintSetFromDigits sign (digitList 10 m) = ofInt (sign * m) := by
  unfold bigintSetFromDigits
  by_cases hzero : m = 0
  · subst hzero
    rw [digitList_zero, if_pos rfl, Int.natCast_zero, Int.mul_zero]
    rfl
  · rw [if_neg (digitList_ne_zero (by omega))]
    obtain rfl | rfl := hsign
    · rw [Int.one_mul, ofInt_pos (by omega)]
    · rw [Int.neg_one_mul, ofInt_neg (by omega)]

theorem int_cases (z : Int) : z = 0 ∨ ∃ m : Nat, 0 < m ∧ (z = m ∨ z = -m) := by
  by_cases hzero : z = 0
  · exact .inl hzero
  · exact .inr ⟨z.natAbs, Int.natAbs_pos.mpr hzero, Int.natAbs_eq z⟩

theorem bigintAdd_zero_left (b : BigInt) : bigintAdd (ofInt 0) b = b := rfl

theorem bigintAdd_zero_right {x : Int} (h : x ≠ 0) : bigintAdd (ofInt x) (ofInt 0) = ofInt x := by
  unfold bigintAdd
  rw [if_neg (mt ofInt_sign_eq_zero.mp h), if_pos (ofInt_sign_eq_zero.mpr rfl)]

theorem bigintAdd_same (sign : Int) (hsign : sign ≠ 0) (hm : 0 < m) (hn : 0 < n) :
    bigintAdd ⟨sign, digitList 10 m⟩ ⟨sign, digitList 10 n⟩ = bigintSetFromDigits sign (digitList 10 (m + n)) := by
  unfold bigintAdd
  rw [if_neg hsign, if_neg hsign, if_pos rfl, digitsAddAbs_eq hm hn]

theorem bigintAdd_opposite {sign sign' : Int} (hsign : sign ≠ 0) (hsign' : sign' ≠ 0) (hne : sign ≠ sign') :
    bigintAdd ⟨sign, digitList 10 m⟩ ⟨sign', digitList 10 n⟩ =
      if m = n then ofInt 0
      else if n < m then bigintSetFromDigits sign (digitList 10 (m - n))
      else bigintSetFromDigits sign' (digitList 10 (n - m)) := by
  unfold bigintAdd
  dsimp only
  rw [if_neg hsign, if_neg hsign', if_neg hne, digitsCompareAbs_eq]
  rcases Nat.lt_trichotomy m n with hlt | heq | hgt
  · rw [compare_lt_iff_lt.mpr hlt, if_neg (by omega), if_neg (by omega), @digitsSubAbs_eq n m (by omega)]
  · rw [compare_eq_iff_eq.mpr heq, if_pos heq]
    rfl
  · rw [compare_gt_iff_gt.mpr hgt, if_neg (by omega), if_pos hgt, @digitsSubAbs_eq m n (by omega)]

end

theorem bigintAdd_eq (x y : Int) : bigintAdd (ofInt x) (ofInt y) = ofInt (x + y) := by
  obtain rfl | ⟨m, hm, hx⟩ := int_cases x
  · rw [bigintAdd_zero_left, Int.zero_add]
  · obtain rfl | ⟨n, hn, hy⟩ := int_cases y
    · rw [bigintAdd_zero_right (by omega), Int.add_zero]
    · obtain rfl | rfl := hx
      · obtain rfl | rfl := hy
        · rw [ofInt_pos hm, ofInt_pos hn, bigintAdd_same 1 (by decide) hm hn, bigintSetFromDigits_eq (.inl rfl)]
          congr 1
          omega
        · rw [ofInt_pos hm, ofInt_neg hn, bigintAdd_opposite (by decide) (by decide) (by decide),
            bigintSetFromDigits_eq (.inl rfl), bigintSetFromDigits_eq (.inr rfl)]
          split
          · congr 1
            omega
          · split <;> (congr 1; omega)
      · obtain rfl | rfl := hy
        · rw [ofInt_neg hm, ofInt_pos hn, bigintAdd_opposite (by decide) (by decide) (by decide),
            bigintSetFromDigits_eq (.inl rfl), bigintSetFromDigits_eq (.inr rfl)]
          split
          · congr 1
            omega
          · split <;> (congr 1; omega)
        · rw [ofInt_neg hm, ofInt_neg hn, bigintAdd_same (-1) (by decide) hm hn, bigintSetFromDigits_eq (.inr rfl)]
          congr 1
          omega

theorem bigintSub_eq (x y : Int) : bigintSub (ofInt x) (ofInt y) = ofInt (x - y) := by
  have hneg : (⟨-(ofInt y).sign, (ofInt y).digits⟩ : BigInt) = ofInt (-y) := by
    unfold ofInt
    rw [Int.natAbs_neg, Int.sign_neg]
  unfold bigintSub
  rw [hneg, bigintAdd_eq, Int.sub_eq_add_neg]

variable {z : Int}

theorem sign_cases (h : z ≠ 0) : z.sign = 1 ∨ z.sign = -1 := by
  rcases lt_or_gt_of_ne h with hneg | hpos
  · exact .inr (Int.sign_eq_neg_one_of_neg hneg)
  · exact .inl (Int.sign_eq_one_of_pos hpos)

theorem sign_mul_cases {x y : Int} (hx : x ≠ 0) (hy : y ≠ 0) : x.sign * y.sign = 1 ∨ x.sign * y.sign = -1 := by
  obtain h | h := sign_cases hx <;> obtain h' | h' := sign_cases hy <;> rw [h, h'] <;> decide

theorem columnsFit_zero_left (n : Nat) : ColumnsFit 0 n := by
  intro k
  simp [carriedColumn, columnSum]

theorem columnsFit_zero_right (m : Nat) : ColumnsFit m 0 := by
  intro k
  simp [carriedColumn, columnSum]

theorem bigintMul_of_fit {x y : Int} (h : ColumnsFit x.natAbs y.natAbs) :
    bigintMul (ofInt x) (ofInt y) = some (ofInt (x * y)) := by
  unfold bigintMul
  by_cases hzero : x = 0 ∨ y = 0
  · have hsigns : (ofInt x).sign = 0 ∨ (ofInt y).sign = 0 :=
      hzero.imp ofInt_sign_eq_zero.mpr ofInt_sign_eq_zero.mpr
    rw [if_pos hsigns, Int.mul_eq_zero.mpr hzero]
    rfl
  · obtain ⟨hx, hy⟩ := not_or.mp hzero
    have hsigns : ¬((ofInt x).sign = 0 ∨ (ofInt y).sign = 0) := fun hor =>
      hzero (hor.imp ofInt_sign_eq_zero.mp ofInt_sign_eq_zero.mp)
    have hvalue : x.sign * y.sign * ((x.natAbs * y.natAbs : Nat) : Int) = x * y := by
      rw [Int.natCast_mul]
      calc x.sign * y.sign * (x.natAbs * y.natAbs) = x.sign * x.natAbs * (y.sign * y.natAbs) := by ring
        _ = x * y := by rw [Int.sign_mul_natAbs, Int.sign_mul_natAbs]
    rw [if_neg hsigns]
    show (digitsMulAbs (digitList 10 x.natAbs) (digitList 10 y.natAbs)).map (bigintSetFromDigits (x.sign * y.sign)) = _
    rw [digitsMulAbs_of_fit h, Option.map_some, bigintSetFromDigits_eq (sign_mul_cases hx hy), hvalue]

theorem bigintMul_of_not_fit {x y : Int} (h : ¬ColumnsFit x.natAbs y.natAbs) : bigintMul (ofInt x) (ofInt y) = none := by
  have hx : x ≠ 0 := by
    intro hzero
    rw [hzero] at h
    exact h (columnsFit_zero_left _)
  have hy : y ≠ 0 := by
    intro hzero
    rw [hzero] at h
    exact h (columnsFit_zero_right _)
  have hsigns : ¬((ofInt x).sign = 0 ∨ (ofInt y).sign = 0) := fun hor =>
    hor.elim (mt ofInt_sign_eq_zero.mp hx) (mt ofInt_sign_eq_zero.mp hy)
  unfold bigintMul
  rw [if_neg hsigns]
  show (digitsMulAbs (digitList 10 x.natAbs) (digitList 10 y.natAbs)).map (bigintSetFromDigits (x.sign * y.sign)) = none
  rw [digitsMulAbs_of_not_fit h, Option.map_none]

theorem sign_mul_div {x y : Int} (hx : x ≠ 0) (hy : y ≠ 0) :
    x.sign * y.sign * ((x.natAbs / y.natAbs : Nat) : Int) = x.tdiv y ∧
      x.sign * ((x.natAbs % y.natAbs : Nat) : Int) = x.tmod y := by
  obtain ⟨m, hm, hx⟩ := (int_cases x).resolve_left hx
  obtain ⟨n, hn, hy⟩ := (int_cases y).resolve_left hy
  have hmsign : (m : Int).sign = 1 := Int.sign_eq_one_of_pos (by omega)
  have hnsign : (n : Int).sign = 1 := Int.sign_eq_one_of_pos (by omega)
  have hdiv : ((m / n : Nat) : Int) = (m : Int).tdiv n := rfl
  have hmod : ((m % n : Nat) : Int) = (m : Int).tmod n := rfl
  obtain rfl | rfl := hx <;> obtain rfl | rfl := hy <;>
    simp only [Int.sign_neg, hmsign, hnsign, Int.natAbs_neg, Int.natAbs_natCast, hdiv, hmod, Int.neg_tdiv, Int.tdiv_neg,
      Int.neg_tmod, Int.tmod_neg, Int.one_mul, Int.mul_one, Int.neg_mul, Int.mul_neg, Int.neg_neg, and_self]

theorem bigintDivmod_eq (x : Int) {y : Int} (hy : y ≠ 0) :
    bigintDivmod (ofInt x) (ofInt y) = some (ofInt (x.tdiv y), ofInt (x.tmod y)) := by
  unfold bigintDivmod
  by_cases hx : x = 0
  · rw [if_pos (ofInt_sign_eq_zero.mpr hx), hx, Int.zero_tdiv, Int.zero_tmod]
    rfl
  · have hpos : 0 < y.natAbs := Int.natAbs_pos.mpr hy
    obtain ⟨hquotient, hremainder⟩ := sign_mul_div hx hy
    rw [if_neg (mt ofInt_sign_eq_zero.mp hx)]
    show (digitsDivmodAbs (digitList 10 x.natAbs) (digitList 10 y.natAbs)).map _ = _
    rw [digitsDivmodAbs_eq _ hpos, Option.map_some]
    show some (bigintSetFromDigits (x.sign * y.sign) _, bigintSetFromDigits x.sign _) = _
    rw [bigintSetFromDigits_eq (sign_mul_cases hx hy), bigintSetFromDigits_eq (sign_cases hx), hquotient, hremainder]

theorem compareIntegerViews_of_sign_lt {a b : BigInt} (h : a.sign < b.sign) : compareIntegerViews a b = .lt := by
  unfold compareIntegerViews
  rw [if_pos (ne_of_lt h), if_pos h]

theorem compareIntegerViews_of_sign_gt {a b : BigInt} (h : b.sign < a.sign) : compareIntegerViews a b = .gt := by
  unfold compareIntegerViews
  rw [if_pos (ne_of_gt h), if_neg (not_lt_of_gt h)]

theorem compare_natCast (m n : Nat) : compare (m : Int) (n : Int) = compare m n := by
  rcases Nat.lt_trichotomy m n with hlt | heq | hgt
  · rw [compare_lt_iff_lt.mpr hlt, compare_lt_iff_lt.mpr (by omega)]
  · rw [compare_eq_iff_eq.mpr heq, compare_eq_iff_eq.mpr (by omega)]
  · rw [compare_gt_iff_gt.mpr hgt, compare_gt_iff_gt.mpr (by omega)]

theorem compare_neg (m n : Nat) : compare (-m : Int) (-n : Int) = (compare m n).swap := by
  rcases Nat.lt_trichotomy m n with hlt | heq | hgt
  · rw [compare_lt_iff_lt.mpr hlt, compare_gt_iff_gt.mpr (by omega)]
    rfl
  · rw [compare_eq_iff_eq.mpr heq, compare_eq_iff_eq.mpr (by omega)]
    rfl
  · rw [compare_gt_iff_gt.mpr hgt, compare_lt_iff_lt.mpr (by omega)]
    rfl

theorem compareIntegerViews_pos (m n : Nat) :
    compareIntegerViews ⟨1, digitList 10 m⟩ ⟨1, digitList 10 n⟩ = compare m n := by
  unfold compareIntegerViews
  dsimp only
  rw [if_neg (by decide), if_neg (by decide), if_pos (by decide), digitsCompareAbs_eq]

theorem compareIntegerViews_neg (m n : Nat) :
    compareIntegerViews ⟨-1, digitList 10 m⟩ ⟨-1, digitList 10 n⟩ = (compare m n).swap := by
  unfold compareIntegerViews
  dsimp only
  rw [if_neg (by decide), if_neg (by decide), if_neg (by decide), digitsCompareAbs_eq]

theorem compareIntegerViews_eq (x y : Int) : compareIntegerViews (ofInt x) (ofInt y) = compare x y := by
  have hnegZero : (-1 : Int) < 0 := by decide
  have hzeroOne : (0 : Int) < 1 := by decide
  have hnegOne : (-1 : Int) < 1 := by decide
  obtain rfl | ⟨m, hm, rfl | rfl⟩ := int_cases x
  · obtain rfl | ⟨n, hn, rfl | rfl⟩ := int_cases y
    · rfl
    · rw [ofInt_pos hn, compareIntegerViews_of_sign_lt hzeroOne, compare_lt_iff_lt.mpr (by omega)]
    · rw [ofInt_neg hn, compareIntegerViews_of_sign_gt hnegZero, compare_gt_iff_gt.mpr (by omega)]
  · obtain rfl | ⟨n, hn, rfl | rfl⟩ := int_cases y
    · rw [ofInt_pos hm, compareIntegerViews_of_sign_gt hzeroOne, compare_gt_iff_gt.mpr (by omega)]
    · rw [ofInt_pos hm, ofInt_pos hn, compareIntegerViews_pos, compare_natCast]
    · rw [ofInt_pos hm, ofInt_neg hn, compareIntegerViews_of_sign_gt hnegOne, compare_gt_iff_gt.mpr (by omega)]
  · obtain rfl | ⟨n, hn, rfl | rfl⟩ := int_cases y
    · rw [ofInt_neg hm, compareIntegerViews_of_sign_lt hnegZero, compare_lt_iff_lt.mpr (by omega)]
    · rw [ofInt_neg hm, ofInt_pos hn, compareIntegerViews_of_sign_lt hnegOne, compare_lt_iff_lt.mpr (by omega)]
    · rw [ofInt_neg hm, ofInt_neg hn, compareIntegerViews_neg, compare_neg]

/-! ## Texts -/

def Decimal (s : Bytes) (z : Int) : Prop :=
  ∃ digits, digits ≠ [] ∧ (∀ c ∈ digits, isDigit 10 c = true) ∧
    (s = digits ∧ z = numeralValue 10 0 digits ∨ s = 45 :: digits ∧ z = -numeralValue 10 0 digits)

def Value.Denotes (v : Value) (z : Int) : Prop :=
  match v with
  | .int i => i.val = z
  | .string s => Decimal s z

theorem decimal_denotes (z : Int) : Decimal (decimal z) z := by
  refine ⟨numeral 10 z.natAbs, numeral_ne_nil _, fun c hc => isDigit_of_mem_numeral (by decide) (by decide) hc, ?_⟩
  rw [numeralValue_numeral (by decide) (by decide)]
  unfold decimal
  by_cases hneg : z < 0
  · rw [if_pos hneg]
    exact .inr ⟨rfl, by omega⟩
  · rw [if_neg hneg]
    exact .inl ⟨rfl, by omega⟩

theorem numeralValue_dropWhile_zeros (digits : Bytes) :
    numeralValue 10 0 (digits.dropWhile (· == 48)) = numeralValue 10 0 digits := by
  induction digits with
  | nil => rfl
  | cons c digits ih =>
    by_cases hc : c = 48
    · rw [hc, dropWhile_cons_of_pos (by decide), ih]
      rfl
    · rw [dropWhile_cons_of_neg (by simpa using hc)]

theorem minus_notDigit {c : UInt8} (h : isDigit 10 c = true) : c ≠ 45 := by
  intro heq
  rw [heq] at h
  exact absurd h (by decide)

theorem parseDigits_eq {digits : Bytes} (hne : digits ≠ []) (hdigits : ∀ c ∈ digits, isDigit 10 c = true) {sign : Int}
    (hsign : sign = 1 ∨ sign = -1) : parseDigits sign digits = some (ofInt (sign * numeralValue 10 0 digits)) := by
  have hall : (digits.dropWhile (· == 48)).takeWhile (isDigit 10) = digits.dropWhile (· == 48) := by
    rw [takeWhile_eq_self_iff]
    intro c hc
    exact hdigits c ((dropWhile_sublist _).subset hc)
  have hfirst : digits.head?.any (isDigit 10) = true := by
    obtain ⟨c, rest, rfl⟩ := exists_cons_of_ne_nil hne
    exact hdigits c mem_cons_self
  have hvalue := numeralValue_dropWhile_zeros digits
  unfold parseDigits
  dsimp only
  rw [hfirst, if_neg (by decide), hall, drop_length, if_neg (by simp)]
  by_cases hnil : digits.dropWhile (· == 48) = []
  · rw [if_pos hnil, ← hvalue, hnil, numeralValue_nil, Int.natCast_zero, Int.mul_zero]
    rfl
  · rw [if_neg hnil]
    obtain ⟨d, more, hmore⟩ := exists_cons_of_ne_nil hnil
    have hd : d ≠ 48 := by
      intro heq
      have hhead := head?_dropWhile_not (· == (48 : UInt8)) digits
      rw [hmore] at hhead
      simp [heq] at hhead
    have hrest : ∀ e ∈ d :: more, isDigit 10 e = true := by
      intro e he
      rw [← hmore] at he
      exact hdigits e ((dropWhile_sublist _).subset he)
    have hpos : 0 < numeralValue 10 0 digits := by
      have hrange := isDigit_iff.mp (hrest d mem_cons_self)
      have hne : d.toNat ≠ 48 := fun heq => hd (UInt8.toNat_inj.mp heq)
      have hle := le_numeralValue (by decide : 0 < 10) (0 * 10 + digitValue d) more
      rw [← numeralValue_cons, ← hmore, hvalue] at hle
      unfold digitValue at hle
      omega
    have hnumeral := (isNumeral_textDigits hrest hd).eq_digitList (by decide)
    rw [ofDigits_textDigits, ← hmore, hvalue] at hnumeral
    have hset := bigintSetFromDigits_eq hsign (numeralValue 10 0 digits)
    unfold bigintSetFromDigits at hset
    rw [if_neg (digitList_ne_zero hpos)] at hset
    rw [hnumeral, hset]

variable {s : Bytes}

theorem parseIntegerView_eq (h : Decimal s z) : parseIntegerView s = some (ofInt z) := by
  obtain ⟨digits, hne, hdigits, ⟨rfl, rfl⟩ | ⟨rfl, rfl⟩⟩ := h
  · have hminus : s.head? ≠ some 45 := by
      obtain ⟨c, rest, rfl⟩ := exists_cons_of_ne_nil hne
      intro heq
      exact minus_notDigit (hdigits c mem_cons_self) (Option.some.inj heq)
    unfold parseIntegerView
    rw [if_neg hminus, parseDigits_eq hne hdigits (.inl rfl), Int.one_mul]
  · unfold parseIntegerView
    rw [if_pos head?_cons, tail_cons, parseDigits_eq hne hdigits (.inr rfl), Int.neg_one_mul]

theorem parseIntegerView_toText {v : Value} (h : v.Denotes z) : parseIntegerView v.toText = some (ofInt z) := by
  cases v with
  | int i =>
    have hvalue : i.val = z := h
    rw [← hvalue]
    exact parseIntegerView_eq (decimal_denotes i)
  | string s => exact parseIntegerView_eq h

theorem bigintToString_eq (z : Int) : bigintToString (ofInt z) = decimal z := by
  unfold bigintToString decimal ofInt
  dsimp only
  rw [digitText_digitList]
  by_cases hneg : z < 0
  · rw [if_pos hneg, Int.sign_eq_neg_one_of_neg hneg, if_pos (by decide)]
  · have hsign : ¬z.sign < 0 := by
      intro hlt
      by_cases hzero : z = 0
      · rw [hzero] at hlt
        exact absurd hlt (by decide)
      · rw [Int.sign_eq_one_of_pos (by omega)] at hlt
        exact absurd hlt (by decide)
    rw [if_neg hneg, if_neg hsign]

theorem signedValue_eq (h : Decimal s z) : signedValue s = z := by
  obtain ⟨digits, hne, hdigits, ⟨rfl, rfl⟩ | ⟨rfl, rfl⟩⟩ := h
  · have hminus : s.head? ≠ some 45 := by
      obtain ⟨c, rest, rfl⟩ := exists_cons_of_ne_nil hne
      intro heq
      exact minus_notDigit (hdigits c mem_cons_self) (Option.some.inj heq)
    exact if_neg hminus
  · exact if_pos rfl

theorem parseIntmaxString_val {i : IntMax} (h : parseIntmaxString s = some i) : i.val = signedValue s := by
  unfold parseIntmaxString at h
  by_cases hnone : (parseIntegerView s).isNone = true
  · rw [if_pos hnone] at h
    cases h
  · rw [if_neg hnone] at h
    by_cases hrange : -2 ^ 63 ≤ signedValue s ∧ signedValue s < 2 ^ 63
    · rw [dif_pos hrange] at h
      rw [← Option.some.inj h]
    · rw [dif_neg hrange] at h
      cases h

theorem valueFromBigint_toText (z : Int) : (valueFromBigint (ofInt z)).toText = decimal z := by
  unfold valueFromBigint
  dsimp only
  rw [bigintToString_eq]
  cases hparse : parseIntmaxString (decimal z) with
  | none => rfl
  | some i =>
    have hvalue := (parseIntmaxString_val hparse).trans (signedValue_eq (decimal_denotes z))
    exact congrArg decimal hvalue

/-! ## Operators -/

def ArithOp.result (op : ArithOp) (x y : Int) : Option Int :=
  match op with
  | add => some (x + y)
  | sub => some (x - y)
  | mul => some (x * y)
  | div => if y = 0 then none else some (x.tdiv y)
  | mod => if y = 0 then none else some (x.tmod y)

def CompareOp.result (op : CompareOp) (x y : Int) : Bool :=
  match op with
  | lt => x < y
  | le => x ≤ y
  | eq => x = y
  | ne => x ≠ y
  | ge => y ≤ x
  | gt => y < x

inductive Op
  | compare (op : CompareOp)
  | arith (op : ArithOp)

def evalInteger (strcoll : Bytes → Bytes → Ordering) (op : Op) (left right : Value) : Outcome :=
  match op with
  | .compare op => .value (evalCompare strcoll op left right)
  | .arith op => evalArith op left right

def Op.result (op : Op) (x y : Int) : Option Int :=
  match op with
  | .compare op => some (if op.result x y then 1 else 0)
  | .arith op => op.result x y

def Exact (strcoll : Bytes → Bytes → Ordering) (op : Op) (left right : Value) (x y : Int) : Prop :=
  match op.result x y with
  | some z => ∃ v, evalInteger strcoll op left right = .value v ∧ v.toText = decimal z
  | none => evalInteger strcoll op left right = .error "division by zero"

section
variable {strcoll : Bytes → Bytes → Ordering} {left right : Value} {x y : Int}

theorem CompareOp.holds_compare (op : CompareOp) (x y : Int) : op.holds (Ord.compare x y) = op.result x y := by
  rcases lt_trichotomy x y with hlt | heq | hgt
  · rw [compare_lt_iff_lt.mpr hlt]
    cases op <;> simp [holds, result, hlt, hlt.le, hlt.ne, not_le_of_gt hlt, not_lt_of_gt hlt]
  · rw [compare_eq_iff_eq.mpr heq]
    cases op <;> simp [holds, result, heq]
  · rw [compare_gt_iff_gt.mpr hgt]
    cases op <;> simp [holds, result, hgt, hgt.le, hgt.ne', not_le_of_gt hgt, not_lt_of_gt hgt]

theorem truth_toText (b : Bool) : (truth b).toText = decimal (if b then 1 else 0) := by
  cases b <;> rfl

theorem exact_compare (op : CompareOp) (hleft : left.Denotes x) (hright : right.Denotes y) :
    Exact strcoll (.compare op) left right x y := by
  refine ⟨_, rfl, ?_⟩
  unfold evalCompare compareValues
  rw [parseIntegerView_toText hleft, parseIntegerView_toText hright]
  dsimp only
  rw [compareIntegerViews_eq, CompareOp.holds_compare, truth_toText]

theorem evalArith_eq (op : ArithOp) (hleft : left.Denotes x) (hright : right.Denotes y) :
    evalArith op left right = op.apply (ofInt x) (ofInt y) := by
  unfold evalArith
  rw [parseIntegerView_toText hleft, parseIntegerView_toText hright]

variable {op : ArithOp}

theorem exact_of_eval (hresult : op.result x y = some z)
    (heval : evalArith op left right = .value (valueFromBigint (ofInt z))) :
    Exact strcoll (.arith op) left right x y := by
  unfold Exact Op.result
  dsimp only
  rw [hresult]
  exact ⟨_, heval, valueFromBigint_toText z⟩

theorem exact_of_zero (hresult : op.result x y = none)
    (heval : evalArith op left right = .error "division by zero") : Exact strcoll (.arith op) left right x y := by
  unfold Exact Op.result
  dsimp only
  rw [hresult]
  exact heval

section
variable (hleft : left.Denotes x) (hright : right.Denotes y)
include hleft hright

theorem exact_mul_iff : Exact strcoll (.arith .mul) left right x y ↔ ColumnsFit x.natAbs y.natAbs := by
  have heval := evalArith_eq .mul hleft hright
  unfold ArithOp.apply at heval
  dsimp only at heval
  refine ⟨?_, ?_⟩
  · intro h
    by_contra hfit
    rw [bigintMul_of_not_fit hfit] at heval
    obtain ⟨v, hv, _⟩ : ∃ v, evalArith .mul left right = .value v ∧ v.toText = decimal (x * y) := h
    simp [heval] at hv
  · intro hfit
    rw [bigintMul_of_fit hfit] at heval
    exact exact_of_eval rfl heval

theorem exact_div : Exact strcoll (.arith .div) left right x y := by
  have heval := evalArith_eq .div hleft hright
  unfold ArithOp.apply at heval
  dsimp only at heval
  by_cases hzero : y = 0
  · rw [if_pos (ofInt_sign_eq_zero.mpr hzero)] at heval
    exact exact_of_zero (if_pos hzero) heval
  · rw [if_neg (mt ofInt_sign_eq_zero.mp hzero), bigintDivmod_eq x hzero] at heval
    exact exact_of_eval (if_neg hzero) heval

theorem exact_mod : Exact strcoll (.arith .mod) left right x y := by
  have heval := evalArith_eq .mod hleft hright
  unfold ArithOp.apply at heval
  dsimp only at heval
  by_cases hzero : y = 0
  · rw [if_pos (ofInt_sign_eq_zero.mpr hzero)] at heval
    exact exact_of_zero (if_pos hzero) heval
  · rw [if_neg (mt ofInt_sign_eq_zero.mp hzero), bigintDivmod_eq x hzero] at heval
    exact exact_of_eval (if_neg hzero) heval

end

end

/-- **Main result.** Every operator is exact on all integers, a product where its columns fit. -/
theorem exact_iff (strcoll : Bytes → Bytes → Ordering) (op : Op) {left right : Value} {x y : Int}
    (hleft : left.Denotes x) (hright : right.Denotes y) :
    Exact strcoll op left right x y ↔ (op = .arith .mul → ColumnsFit x.natAbs y.natAbs) := by
  cases op with
  | compare op => exact ⟨fun _ h => (nomatch h), fun _ => exact_compare op hleft hright⟩
  | arith op =>
    cases op with
    | add =>
      refine ⟨fun _ h => (nomatch h), fun _ => exact_of_eval rfl ?_⟩
      rw [evalArith_eq .add hleft hright]
      exact congrArg (fun n => Outcome.value (valueFromBigint n)) (bigintAdd_eq x y)
    | sub =>
      refine ⟨fun _ h => (nomatch h), fun _ => exact_of_eval rfl ?_⟩
      rw [evalArith_eq .sub hleft hright]
      exact congrArg (fun n => Outcome.value (valueFromBigint n)) (bigintSub_eq x y)
    | mul =>
      rw [exact_mul_iff hleft hright]
      exact ⟨fun h _ => h, fun h => h rfl⟩
    | div => exact ⟨fun _ h => (nomatch h), fun _ => exact_div hleft hright⟩
    | mod => exact ⟨fun _ h => (nomatch h), fun _ => exact_mod hleft hright⟩

/-- The least machine integer divided by minus one -/
theorem exact_least_div :
    Exact (fun _ _ => .eq) (.arith .div) (.int ⟨-2 ^ 63, by decide⟩) (.int ⟨-1, by decide⟩) (-2 ^ 63) (-1) :=
  (@exact_iff (fun _ _ => .eq) (.arith .div) (.int ⟨-2 ^ 63, by decide⟩) (.int ⟨-1, by decide⟩) (-2 ^ 63) (-1) rfl
    rfl).mpr (fun h => (nomatch h))

/-! ## A product that is too long -/

theorem nines_digit {n i : Nat} (h : i < n) : (10 ^ n - 1) / 10 ^ i % 10 = 9 := by
  obtain ⟨k, rfl⟩ : ∃ k, n = i + (k + 1) := ⟨n - i - 1, by omega⟩
  have hlow : 0 < 10 ^ i := Nat.pow_pos (by decide)
  have hhigh : 0 < 10 ^ k := Nat.pow_pos (by decide)
  have hsplit : 10 ^ (i + (k + 1)) - 1 = 10 ^ i * (10 * 10 ^ k - 1) + (10 ^ i - 1) := by
    rw [Nat.pow_add, pow_succ, mul_comm (10 ^ k) 10, Nat.mul_sub, mul_one]
    have hle : 10 ^ i ≤ 10 ^ i * (10 * 10 ^ k) := Nat.le_mul_of_pos_right _ (by omega)
    omega
  rw [hsplit, Nat.mul_add_div hlow, Nat.div_eq_of_lt (by omega)]
  omega

theorem not_columnsFit_nines {n : Nat} (h : intMax < 81 * n) : ¬ColumnsFit (10 ^ n - 1) (10 ^ n - 1) := by
  intro hfit
  have hpos : 0 < n := by omega
  have hsum : columnSum 10 (10 ^ n - 1) (10 ^ n - 1) (n - 1) = 81 * n := by
    unfold columnSum
    have hterm : ∀ p ∈ Finset.HasAntidiagonal.antidiagonal (n - 1),
        ((10 ^ n - 1) / 10 ^ p.1 % 10) * ((10 ^ n - 1) / 10 ^ p.2 % 10) = 81 := by
      intro p hp
      have hplaces := Finset.HasAntidiagonal.mem_antidiagonal.mp hp
      rw [nines_digit (by omega), nines_digit (by omega)]
    rw [Finset.sum_congr rfl hterm, Finset.sum_const, Finset.Nat.card_antidiagonal, smul_eq_mul]
    omega
  have hle := columnSum_le_carriedColumn (by decide : 0 < 10) (10 ^ n - 1) (10 ^ n - 1) (n - 1)
  have hbound := hfit (n - 1)
  omega

theorem numeralValue_nines (n : Nat) : numeralValue 10 0 (replicate n 57) = 10 ^ n - 1 := by
  induction n with
  | zero => rfl
  | succ n ih =>
    have hpos : 0 < 10 ^ n := Nat.pow_pos (by decide)
    have hnine : digitValue 57 = 9 := rfl
    rw [replicate_succ', numeralValue_append, ih, numeralValue_cons, numeralValue_nil, hnine, pow_succ]
    omega

theorem nines_denotes {n : Nat} (h : 0 < n) : (Value.string (replicate n 57)).Denotes ((10 ^ n - 1 : Nat) : Int) := by
  refine ⟨replicate n 57, ?_, ?_, .inl ⟨rfl, ?_⟩⟩
  · intro hnil
    have hlength := congrArg List.length hnil
    rw [length_replicate, length_nil] at hlength
    omega
  · intro c hc
    rw [eq_of_mem_replicate hc]
    rfl
  · rw [numeralValue_nines]

theorem not_exact_nines {n : Nat} (h : intMax < 81 * n) (strcoll : Bytes → Bytes → Ordering) :
    ¬Exact strcoll (.arith .mul) (.string (replicate n 57)) (.string (replicate n 57)) ((10 ^ n - 1 : Nat) : Int)
      ((10 ^ n - 1 : Nat) : Int) := by
  have hdenotes := nines_denotes (by omega : 0 < n)
  rw [exact_mul_iff hdenotes hdenotes, Int.natAbs_natCast]
  exact not_columnsFit_nines h

/-- With 26512144 nines each, a column overflows. -/
theorem not_exact_mul :
    ¬∀ (strcoll : Bytes → Bytes → Ordering) (op : Op) (left right : Value) (x y : Int), left.Denotes x →
      right.Denotes y → Exact strcoll op left right x y := by
  intro h
  have hpos : 0 < 26512144 := by decide
  exact not_exact_nines (by decide) (fun _ _ => .eq)
    (h (fun _ _ => .eq) (.arith .mul) _ _ _ _ (nines_denotes hpos) (nines_denotes hpos))

end Bx.Expr
