import Bx.Kit.Bytes
import Bx.Lib.CheckedMath
import Mathlib.Data.Nat.Log

/-!
# Sizes for a reader

`bx_size_format_human_ceil` from `src/lib/size_parse.c` prints a number as a multiple of a power of the base, rounded
up, with one decimal below ten. Ten times the number may not fit into 64 bits, and rounding up may reach the next power.
-/

namespace Bx.Lib

open Kit

/-! ## Formatting -/

def saturatingMul (lhs rhs : Nat) : Nat := if lhs ≠ 0 ∧ uintmaxMax / lhs < rhs then uintmaxMax else lhs * rhs

def ceilDiv (value divisor : Nat) : Nat :=
  if divisor = 0 then value else value / divisor + if value % divisor ≠ 0 then 1 else 0

def humanUnit (value base : Nat) : Nat → Nat → Nat → Nat × Nat
  | 0, unit, suffixIndex => (unit, suffixIndex)
  | left + 1, unit, suffixIndex =>
    if uintmaxMax / base < unit then (unit, suffixIndex)
    else if value < unit * base then (unit, suffixIndex)
    else humanUnit value base left (unit * base) (suffixIndex + 1)

def point : UInt8 := 46

def mantissaText (tenths whole : Nat) (suffix : UInt8) : Bytes :=
  if tenths < 100 then numeral 10 (tenths / 10) ++ [point] ++ numeral 10 (tenths % 10) ++ [suffix]
  else numeral 10 whole ++ [suffix]

def humanCeilText (value base : Nat) (suffixes : Bytes) : Bytes :=
  if base < 2 ∨ suffixes = [] ∨ value < base then numeral 10 value
  else
    let chosen := humanUnit value base suffixes.length 1 0
    if chosen.2 = 0 then numeral 10 value
    else
      mantissaText (ceilDiv (saturatingMul value 10) chosen.1) (ceilDiv value chosen.1) (suffixes.getD (chosen.2 - 1) 0)

/-- What `snprintf` has room for -/
def formatHumanCeil (value base : Nat) (suffixes : Bytes) (bufferSize : Nat) : Bytes :=
  (humanCeilText value base suffixes).take (bufferSize - 1)

/-! ## What the text should be -/

/-- The power that is chosen: the highest one that the number reaches and that has a suffix -/
def humanPower (value base : Nat) (suffixes : Bytes) : Nat := min suffixes.length (Nat.log base value)

/-- The text shows the least number of tenths, or of units, that is not below the value, and
rounding up does not reach the next unit where there is one. -/
def PrintsLeast (value base : Nat) (suffixes text : Bytes) : Prop :=
  ∃ tenths whole, IsLeast {n | 10 * value ≤ n * base ^ humanPower value base suffixes} tenths ∧
    IsLeast {n | value ≤ n * base ^ humanPower value base suffixes} whole ∧
    text = (if humanPower value base suffixes = 0 then numeral 10 whole
      else mantissaText tenths whole (suffixes.getD (humanPower value base suffixes - 1) 0)) ∧
    (humanPower value base suffixes < suffixes.length → base ^ (humanPower value base suffixes + 1) ≤ uintmaxMax →
      if humanPower value base suffixes ≠ 0 ∧ tenths < 100 then tenths < 10 * base else whole < base)

/-- Ten times the value fits, or the tenths are the same or not shown where it does not. -/
def TenthsFit (value unit : Nat) : Prop := 99 * unit < uintmaxMax ∨ 10 * value ≤ ceilDiv uintmaxMax unit * unit

def StaysBelow (value base unit : Nat) : Prop :=
  if 10 * value ≤ 99 * unit then 10 * value ≤ (10 * base - 1) * unit else value ≤ (base - 1) * unit

/-! ## Rounding up -/

variable {divisor : Nat} {n : Nat}

theorem ceilDiv_le_iff (hpos : 0 < divisor) (value n : Nat) : ceilDiv value divisor ≤ n ↔ value ≤ n * divisor := by
  unfold ceilDiv
  rw [if_neg (by omega)]
  have hsplit := Nat.div_add_mod' value divisor
  have hlt := Nat.mod_lt value hpos
  generalize value / divisor = q at hsplit ⊢
  by_cases hrem : value % divisor = 0
  · rw [if_neg (not_not_intro hrem), Nat.add_zero]
    refine ⟨?_, ?_⟩
    · intro h
      have hmul := Nat.mul_le_mul_right divisor h
      omega
    · intro h
      exact Nat.le_of_mul_le_mul_right (by omega : q * divisor ≤ n * divisor) hpos
  · rw [if_pos hrem]
    refine ⟨?_, ?_⟩
    · intro h
      have hmul := Nat.mul_le_mul_right divisor h
      rw [Nat.add_mul, Nat.one_mul] at hmul
      omega
    · intro h
      apply Nat.le_of_not_lt
      intro hle
      have hmul := Nat.mul_le_mul_right divisor (Nat.le_of_lt_succ hle)
      omega

theorem ceilDiv_isLeast (hpos : 0 < divisor) (value : Nat) :
    IsLeast {n | value ≤ n * divisor} (ceilDiv value divisor) :=
  ⟨(ceilDiv_le_iff hpos value _).mp (le_rfl), fun n hn => (ceilDiv_le_iff hpos value n).mpr hn⟩

theorem ceilDiv_lt_iff (hpos : 0 < divisor) (value : Nat) (hn : 0 < n) :
    ceilDiv value divisor < n ↔ value ≤ (n - 1) * divisor := by
  rw [← ceilDiv_le_iff hpos]
  omega

theorem ceilDiv_mono {divisor : Nat} (hpos : 0 < divisor) {a b : Nat} (h : a ≤ b) : ceilDiv a divisor ≤ ceilDiv b divisor :=
  (ceilDiv_le_iff hpos a _).mpr (Nat.le_trans h ((ceilDiv_le_iff hpos b _).mp (le_rfl)))

theorem saturatingMul_eq (value rhs : Nat) : saturatingMul value rhs = min (value * rhs) uintmaxMax ∨ value = 0 := by
  unfold saturatingMul
  by_cases hzero : value = 0
  · exact .inr hzero
  · left
    by_cases hover : uintmaxMax / value < rhs
    · rw [if_pos ⟨hzero, hover⟩]
      have hmul := (Nat.div_lt_iff_lt_mul (by omega : 0 < value)).mp hover
      rw [mul_comm] at hmul
      omega
    · rw [if_neg fun h => hover h.2]
      have hmul := (Nat.le_div_iff_mul_le (by omega : 0 < value)).mp (Nat.le_of_not_lt hover)
      rw [Nat.mul_comm] at hmul
      omega

theorem humanUnit_spec {value base : Nat} (hbase : 2 ≤ base) (hvalue : value ≤ uintmaxMax) (left : Nat) {suffixIndex : Nat}
    (hreach : base ^ suffixIndex ≤ value) :
    humanUnit value base left (base ^ suffixIndex) suffixIndex =
      (base ^ min (suffixIndex + left) (Nat.log base value), min (suffixIndex + left) (Nat.log base value)) := by
  have hpos : 0 < base ^ suffixIndex := Nat.pow_pos (by omega)
  have hlog := (Nat.le_log_iff_pow_le hbase (by omega : value ≠ 0)).mpr hreach
  induction left generalizing suffixIndex with
  | zero =>
    rw [add_zero, min_eq_left hlog]
    rfl
  | succ left ih =>
    have hstop : value < base ^ suffixIndex * base → min (suffixIndex + (left + 1)) (Nat.log base value) = suffixIndex := by
      intro hlt
      have hlt' := (Nat.log_lt_iff_lt_pow hbase (by omega : value ≠ 0)).mpr (by rw [pow_succ]; exact hlt)
      omega
    unfold humanUnit
    by_cases hover : uintmaxMax / base < base ^ suffixIndex
    · have hmul := (Nat.div_lt_iff_lt_mul (by omega : 0 < base)).mp hover
      rw [if_pos hover, hstop (by omega)]
    · rw [if_neg hover]
      by_cases hlt : value < base ^ suffixIndex * base
      · rw [if_pos hlt, hstop hlt]
      · have hnext : base ^ (suffixIndex + 1) ≤ value := by
          rw [pow_succ]
          omega
        have hrest := ih hnext (Nat.pow_pos (by omega)) ((Nat.le_log_iff_pow_le hbase (by omega : value ≠ 0)).mpr hnext)
        rw [if_neg hlt, ← pow_succ, hrest]
        have hsum : suffixIndex + 1 + left = suffixIndex + (left + 1) := by omega
        rw [hsum]

/-! ## Texts -/

theorem length_numeral_digit (h : n < 10) : (numeral 10 n).length = 1 := by
  have hle := (@length_numeral_le_iff 10 (by decide) n 1 (by decide)).mpr h
  have hpos := @length_numeral_pos 10 n
  omega

theorem numeral_inj {a b : Nat} (h : numeral 10 a = numeral 10 b) : a = b := by
  have heq := congrArg (numeralValue 10 0) h
  rwa [numeralValue_numeral (by decide) (by decide), numeralValue_numeral (by decide) (by decide)] at heq

theorem mantissaText_inj {tenths tenths' whole : Nat} {suffix : UInt8} :
    mantissaText tenths whole suffix = mantissaText tenths' whole suffix ↔
      tenths = tenths' ∨ 100 ≤ tenths ∧ 100 ≤ tenths' := by
  have hpointed : ∀ t, t < 100 → mantissaText t whole suffix =
      (numeral 10 (t / 10) ++ [point] ++ numeral 10 (t % 10)) ++ [suffix] := fun t ht => if_pos ht
  have hplain : ∀ t, ¬t < 100 → mantissaText t whole suffix = numeral 10 whole ++ [suffix] := fun t ht => if_neg ht
  have hdiffer : ∀ t, (numeral 10 (t / 10) ++ [point] ++ numeral 10 (t % 10)) ++ [suffix] ≠ numeral 10 whole ++ [suffix] := by
    intro t heq
    have hdigits := (List.append_inj' heq rfl).1
    have hmem : point ∈ numeral 10 whole := by
      rw [← hdigits]
      exact List.mem_append_left _ (List.mem_append_right _ List.mem_cons_self)
    have hdigit := @isDigit_of_mem_numeral 10 (by decide) (by decide) _ _ hmem
    exact absurd hdigit (by decide)
  by_cases ht : tenths < 100
  · by_cases ht' : tenths' < 100
    · rw [hpointed tenths ht, hpointed tenths' ht']
      refine ⟨?_, ?_⟩
      · intro heq
        left
        have hdigits := (List.append_inj' heq rfl).1
        have hlast : (numeral 10 (tenths % 10)).length = (numeral 10 (tenths' % 10)).length := by
          rw [length_numeral_digit (by omega), length_numeral_digit (by omega)]
        obtain ⟨hfront, hrest⟩ := List.append_inj' hdigits hlast
        have hwhole := numeral_inj (List.append_inj' hfront rfl).1
        have hfraction := numeral_inj hrest
        omega
      · intro h
        have heq : tenths = tenths' := by omega
        rw [heq]
    · rw [hpointed tenths ht, hplain tenths' ht']
      exact iff_of_false (hdiffer tenths) (by omega)
  · by_cases ht' : tenths' < 100
    · rw [hplain tenths ht, hpointed tenths' ht']
      exact iff_of_false (fun heq => hdiffer tenths' heq.symm) (by omega)
    · rw [hplain tenths ht, hplain tenths' ht']
      exact iff_of_true rfl (.inr ⟨by omega, by omega⟩)

theorem mantissaText_saturating_iff {value unit : Nat} (hpos : 0 < unit) (hvalue : value ≠ 0) (whole : Nat) (suffix : UInt8) :
    mantissaText (ceilDiv (saturatingMul value 10) unit) whole suffix =
        mantissaText (ceilDiv (10 * value) unit) whole suffix ↔ TenthsFit value unit := by
  rw [mantissaText_inj]
  unfold TenthsFit
  have hmul : saturatingMul value 10 = min (10 * value) uintmaxMax := by
    rw [(saturatingMul_eq value 10).resolve_right hvalue, mul_comm]
  have hmax : 100 ≤ ceilDiv uintmaxMax unit ↔ 99 * unit < uintmaxMax := by
    rw [← Nat.not_lt, ceilDiv_lt_iff hpos _ (by decide : 0 < 100), Nat.not_le]
  have hceil := (ceilDiv_le_iff hpos uintmaxMax _).mp (le_rfl)
  rw [← hmax, ← ceilDiv_le_iff hpos]
  by_cases hfits : 10 * value ≤ uintmaxMax
  · rw [hmul, min_eq_left hfits]
    exact iff_of_true (.inl rfl) (.inr (ceilDiv_mono hpos hfits))
  · rw [hmul, min_eq_right (by omega)]
    have hle := @ceilDiv_mono unit hpos uintmaxMax (10 * value) (by omega)
    omega

/-! ## The condition -/

section
variable {value base : Nat} {suffixes : Bytes}

theorem humanPower_eq_zero_iff (hbase : 2 ≤ base) (hsuffixes : suffixes ≠ []) :
    humanPower value base suffixes = 0 ↔ value < base := by
  have hpos := List.length_pos_iff.mpr hsuffixes
  have hlog := @Nat.log_eq_zero_iff base value
  unfold humanPower
  omega

theorem humanCeilText_eq (hbase : 2 ≤ base) (hvalue : value ≤ uintmaxMax) (hsuffixes : suffixes ≠ []) :
    humanCeilText value base suffixes =
      if humanPower value base suffixes = 0 then numeral 10 value
      else
        mantissaText (ceilDiv (saturatingMul value 10) (base ^ humanPower value base suffixes))
          (ceilDiv value (base ^ humanPower value base suffixes)) (suffixes.getD (humanPower value base suffixes - 1) 0) := by
  have hzero := @humanPower_eq_zero_iff value base suffixes hbase hsuffixes
  unfold humanCeilText
  by_cases hsmall : value < base
  · rw [if_pos (.inr (.inr hsmall)), if_pos (hzero.mpr hsmall)]
  · have hguard : ¬(base < 2 ∨ suffixes = [] ∨ value < base) := by
      intro h
      cases h with
      | inl h => omega
      | inr h => exact h.elim hsuffixes hsmall
    have hspec := @humanUnit_spec value base hbase hvalue suffixes.length 0 (by rw [Nat.pow_zero]; omega)
    rw [Nat.pow_zero, zero_add] at hspec
    rw [if_neg hguard, hspec]
    rfl

theorem carry_iff {unit : Nat} (hbase : 2 ≤ base) (hpos : 0 < unit) (hunit : value < base → unit = 1) :
    (if ¬value < base ∧ ceilDiv (10 * value) unit < 100 then ceilDiv (10 * value) unit < 10 * base
      else ceilDiv value unit < base) ↔ StaysBelow value base unit := by
  unfold StaysBelow
  have hpointed := ceilDiv_lt_iff hpos (10 * value) (by decide : 0 < 100)
  have htenths := ceilDiv_lt_iff hpos (10 * value) (by omega : 0 < 10 * base)
  have hwhole := ceilDiv_lt_iff hpos value (by omega : 0 < base)
  by_cases hsmall : value < base
  · rw [if_neg fun h => h.1 hsmall, hwhole, hunit hsmall, mul_one, mul_one]
    split <;> omega
  · by_cases hlow : 10 * value ≤ 99 * unit
    · rw [if_pos ⟨hsmall, hpointed.mpr hlow⟩, if_pos hlow]
      exact htenths
    · rw [if_neg fun h => hlow (hpointed.mp h.2), if_neg hlow]
      exact hwhole

/-- **Main result.** The text is the least one that is not too low exactly where the tenths fit and
the value is not rounded up to the next unit. -/
theorem humanCeilText_least_iff (hbase : 2 ≤ base) (hvalue : value ≤ uintmaxMax) (hsuffixes : suffixes ≠ []) :
    PrintsLeast value base suffixes (humanCeilText value base suffixes) ↔
      TenthsFit value (base ^ humanPower value base suffixes) ∧
        (humanPower value base suffixes < suffixes.length → base ^ (humanPower value base suffixes + 1) ≤ uintmaxMax →
          StaysBelow value base (base ^ humanPower value base suffixes)) := by
  have hzero := @humanPower_eq_zero_iff value base suffixes hbase hsuffixes
  have hpos : 0 < base ^ humanPower value base suffixes := Nat.pow_pos (by omega)
  have hunit : value < base → base ^ humanPower value base suffixes = 1 := by
    intro hsmall
    rw [hzero.mpr hsmall, Nat.pow_zero]
  have hcarry := @carry_iff value base _ hbase hpos hunit
  unfold PrintsLeast
  rw [humanCeilText_eq hbase hvalue hsuffixes, ← hcarry]
  simp only [hzero, ne_eq]
  generalize base ^ humanPower value base suffixes = unit at hpos hunit ⊢
  have htext : (if value < base then numeral 10 value
        else mantissaText (ceilDiv (saturatingMul value 10) unit) (ceilDiv value unit)
          (suffixes.getD (humanPower value base suffixes - 1) 0)) =
      (if value < base then numeral 10 (ceilDiv value unit)
        else mantissaText (ceilDiv (10 * value) unit) (ceilDiv value unit)
          (suffixes.getD (humanPower value base suffixes - 1) 0)) ↔ TenthsFit value unit := by
    by_cases hsmall : value < base
    · have hwhole : ceilDiv value unit = value := by
        rw [hunit hsmall]
        unfold ceilDiv
        rw [if_neg (by decide), Nat.mod_one, Nat.div_one]
        rfl
      rw [if_pos hsmall, if_pos hsmall, hwhole]
      refine iff_of_true rfl (.inl ?_)
      rw [hunit hsmall]
      decide
    · rw [if_neg hsmall, if_neg hsmall]
      exact mantissaText_saturating_iff hpos (by omega) _ _
  refine ⟨?_, ?_⟩
  · intro ⟨tenths, whole, htenths, hwhole, hprinted, hbelow⟩
    rw [htenths.unique (ceilDiv_isLeast hpos _), hwhole.unique (ceilDiv_isLeast hpos _)] at hprinted hbelow
    exact ⟨htext.mp hprinted, hbelow⟩
  · intro ⟨hfits, hbelow⟩
    exact ⟨_, _, ceilDiv_isLeast hpos _, ceilDiv_isLeast hpos _, htext.mpr hfits, hbelow⟩

end

theorem humanCeilText_least_iff_small :
    PrintsLeast 1536 1024 (ascii "KMGTPE") (humanCeilText 1536 1024 (ascii "KMGTPE")) ↔
      TenthsFit 1536 (1024 ^ humanPower 1536 1024 (ascii "KMGTPE")) ∧
        (humanPower 1536 1024 (ascii "KMGTPE") < (ascii "KMGTPE").length →
          1024 ^ (humanPower 1536 1024 (ascii "KMGTPE") + 1) ≤ uintmaxMax →
            StaysBelow 1536 1024 (1024 ^ humanPower 1536 1024 (ascii "KMGTPE"))) :=
  humanCeilText_least_iff (by decide) (by decide) (by decide)

/-- Eight times the sixth power of 1024 is shown as 1.6 of them. -/
theorem not_humanCeilText_least : humanCeilText (2 ^ 63) 1024 (ascii "KMGTPE") = ascii "1.6E" ∧
      ¬∀ (value base : Nat) (suffixes : Bytes), 2 ≤ base → value ≤ uintmaxMax → suffixes ≠ [] →
        PrintsLeast value base suffixes (humanCeilText value base suffixes) := by
  refine ⟨by decide, ?_⟩
  intro h
  obtain ⟨tenths, whole, htenths, hwhole, htext, _⟩ := h (2 ^ 63) 1024 (ascii "KMGTPE") (by decide) (by decide) (by decide)
  rw [htenths.unique (ceilDiv_isLeast (by decide) _), hwhole.unique (ceilDiv_isLeast (by decide) _)] at htext
  exact absurd htext (by decide)

end Bx.Lib
