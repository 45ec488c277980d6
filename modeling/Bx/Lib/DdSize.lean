import Bx.Lib.SizeParse
import Mathlib.Data.List.Forall2
import Mathlib.Data.List.TakeWhile

/-!
# Sizes for dd

`bx_dd_parse_size` from `src/lib/size_parse.c` reads a product: an `x` that a digit follows separates two factors, any
other `x` belongs to a suffix. A factor has up to 63 digits and a suffix whose multiplier fits.
-/

namespace Bx.Lib

open Kit List

variable {factor : Bytes} {factors : List Bytes} {multiplier value : Nat}

def letterX : UInt8 := 120
def minus : UInt8 := 45

def startsWithDigit (text : Bytes) : Bool := text.head?.any (isDigit 10)

def ddLoop (total : Nat) (factor : Bytes) : Bytes → Option Nat
  | [] => (parseScaledUint factor).bind (checkedMul total)
  | ch :: text =>
    if ch = letterX ∧ startsWithDigit text then
      (parseScaledUint factor).bind fun value => (checkedMul total value).bind fun total => ddLoop total [] text
    else ddLoop total (factor ++ [ch]) text

def ddParseSize (text : Bytes) : Option Nat :=
  if text = [] then none else if text.head? = some minus then none else ddLoop 1 [] text

/-! ## The grammar -/

/-- What a unit stands for, without `x` -/
def unitMultiplier (unit : Bytes) : Option Nat :=
  if unit = ascii "c" ∨ unit = ascii "B" then some 1
  else if unit = ascii "w" then some 2
  else if unit = ascii "b" then some 512
  else
    match unit with
    | [] => none
    | letter :: rest =>
      (suffixPrefixPower letter).bind fun power =>
        if rest = [] ∨ rest = ascii "iB" then some (1024 ^ power)
        else if rest = ascii "B" then some (1000 ^ power)
        else none

/-- No suffix, or a unit that an `x` may stand before -/
def IsSuffix (suffix : Bytes) (multiplier : Nat) : Prop :=
  suffix = [] ∧ multiplier = 1 ∨
    ∃ unit, (suffix = unit ∨ suffix = letterX :: unit) ∧ unitMultiplier unit = some multiplier

def IsScaled (factor : Bytes) (value : Nat) : Prop :=
  ∃ digits suffix multiplier, digits ≠ [] ∧ (∀ c ∈ digits, isDigit 10 c = true) ∧ factor = digits ++ suffix ∧
    IsSuffix suffix multiplier ∧ value = numeralValue 10 0 digits * multiplier

def IsFactor (factor : Bytes) (value : Nat) : Prop :=
  ∃ digits suffix multiplier, digits ≠ [] ∧ (∀ c ∈ digits, isDigit 10 c = true) ∧ factor = digits ++ suffix ∧
    IsSuffix suffix multiplier ∧ value = numeralValue 10 0 digits * multiplier ∧ digits.length < 64 ∧
    multiplier ≤ uintmaxMax

/-- Factors with an `x` between any two of them; their values and the products on the way fit. -/
def IsProduct (IsFactor : Bytes → Nat → Prop) (text : Bytes) (value : Nat) : Prop :=
  ∃ factors values, factors ≠ [] ∧ text = [letterX].intercalate factors ∧ List.Forall₂ IsFactor factors values ∧
    (∀ v ∈ values, v ≤ uintmaxMax) ∧ (∀ k, (values.take k).prod ≤ uintmaxMax) ∧ value = values.prod

/-- Digits and an `x` with no unit behind it -/
def BareX (factor : Bytes) : Prop := ∃ digits, (∀ c ∈ digits, isDigit 10 c = true) ∧ factor = digits ++ [letterX]

def ddFactorsFrom (factor : Bytes) : Bytes → List Bytes
  | [] => [factor]
  | ch :: text =>
    if ch = letterX ∧ startsWithDigit text then factor :: ddFactorsFrom [] text else ddFactorsFrom (factor ++ [ch]) text

def ddFactors (text : Bytes) : List Bytes := ddFactorsFrom [] text

/-! ## Digits and powers -/

theorem checkedMul_eq (left right : Nat) :
    checkedMul left right = if left * right ≤ uintmaxMax then some (left * right) else none := by
  unfold checkedMul
  by_cases hzero : left = 0
  · rw [if_neg fun h => h.1 hzero, hzero, zero_mul, if_pos (Nat.zero_le _)]
  · by_cases hover : uintmaxMax / left < right
    · have hmul := (Nat.div_lt_iff_lt_mul (by omega : 0 < left)).mp hover
      rw [mul_comm] at hmul
      rw [if_pos ⟨hzero, hover⟩, if_neg (by omega)]
    · have hmul := (Nat.le_div_iff_mul_le (by omega : 0 < left)).mp (Nat.le_of_not_lt hover)
      rw [Nat.mul_comm] at hmul
      rw [if_neg fun h => hover h.2, if_pos hmul]

theorem powResult_eq {base : Nat} (hbase : 0 < base) (power : Nat) :
    powResult base power = if base ^ power ≤ uintmaxMax then some (base ^ power) else none := by
  induction power with
  | zero => rfl
  | succ power ih =>
    unfold powResult
    rw [ih]
    by_cases hfits : base ^ power ≤ uintmaxMax
    · rw [if_pos hfits, Option.bind_some, checkedMul_eq, pow_succ]
    · have hmono : base ^ power ≤ base ^ (power + 1) := Nat.pow_le_pow_right hbase (Nat.le_succ power)
      rw [if_neg hfits, if_neg (by omega), Option.bind_none]

theorem isDigit_eq (c : UInt8) : isDigit 10 c = decide (48 ≤ c ∧ c ≤ 57) := by
  rw [Bool.eq_iff_iff, isDigit_iff, decide_eq_true_iff, UInt8.le_iff_toNat_le, UInt8.le_iff_toNat_le]
  exact and_congr_right fun _ => Nat.lt_succ_iff

variable {digits : Bytes}

theorem parseUintFrom_eq (h : ∀ c ∈ digits, isDigit 10 c = true) (hvalue : value ≤ uintmaxMax) :
    parseUintFrom value digits =
      if numeralValue 10 value digits ≤ uintmaxMax then some (numeralValue 10 value digits) else none := by
  induction digits generalizing value with
  | nil => exact (if_pos hvalue).symm
  | cons c digits ih =>
    have hdigit := isDigit_iff.mp (h c mem_cons_self)
    have hinside : ¬(c < 48 ∨ 57 < c) := by
      rw [UInt8.lt_iff_toNat_lt, UInt8.lt_iff_toNat_lt]
      show ¬(c.toNat < 48 ∨ 57 < c.toNat)
      omega
    have hmax : 9 ≤ uintmaxMax := by decide
    unfold parseUintFrom
    rw [if_neg hinside, numeralValue_cons]
    unfold digitValue
    dsimp only
    by_cases hover : (uintmaxMax - (c.toNat - 48)) / 10 < value
    · have hle := @le_numeralValue 10 (by decide) (value * 10 + (c.toNat - 48)) digits
      rw [if_pos hover, if_neg (by omega)]
    · rw [if_neg hover]
      exact ih (fun d hd => h d (mem_cons_of_mem _ hd)) (by omega)

theorem parseUint_eq (hne : digits ≠ []) (h : ∀ c ∈ digits, isDigit 10 c = true) :
    parseUint digits = if numeralValue 10 0 digits ≤ uintmaxMax then some (numeralValue 10 0 digits) else none := by
  unfold parseUint
  rw [if_neg hne]
  exact parseUintFrom_eq h (Nat.zero_le _)

/-! ## Suffixes -/

/-- What `bx_size_suffix_multiplier` takes: a suffix, or an `x` alone -/
def LooseSuffix (suffix : Bytes) (multiplier : Nat) : Prop :=
  IsSuffix suffix multiplier ∨ suffix = [letterX] ∧ multiplier = 1

set_option maxRecDepth 4000 in
theorem suffixPrefixPower_letter {letter : UInt8} {power : Nat} (h : suffixPrefixPower letter = some power) :
    letter ∈ ascii "kKMGTPEZYRQ" := by
  have hall := @forall_byte (fun b => (suffixPrefixPower b).isSome = true → b ∈ ascii "kKMGTPEZYRQ") (by decide)
  apply hall letter
  rw [h]
  rfl

theorem noDigit_of_all {bytes : Bytes} (h : (bytes.all fun c => isDigit 10 c = false) = true) :
    ∀ c ∈ bytes, isDigit 10 c = false := by
  intro c hc
  exact of_decide_eq_true (all_eq_true.mp h c hc)

variable {unit : Bytes} {suffix : Bytes} {text : Bytes}

theorem unitMultiplier_spec (h : unitMultiplier unit = some multiplier) :
    (∀ c ∈ unit, isDigit 10 c = false) ∧ unit.length ≤ 3 ∧ unit ≠ [] ∧ unit.head? ≠ some letterX ∧ 0 < multiplier := by
  unfold unitMultiplier at h
  by_cases hone : unit = ascii "c" ∨ unit = ascii "B"
  · rw [if_pos hone, Option.some.injEq] at h
    cases hone with
    | inl hunit =>
      rw [hunit, ← h]
      exact ⟨noDigit_of_all (by decide), by decide, by decide, by decide, by decide⟩
    | inr hunit =>
      rw [hunit, ← h]
      exact ⟨noDigit_of_all (by decide), by decide, by decide, by decide, by decide⟩
  · rw [if_neg hone] at h
    by_cases htwo : unit = ascii "w"
    · rw [if_pos htwo, Option.some.injEq] at h
      rw [htwo, ← h]
      exact ⟨noDigit_of_all (by decide), by decide, by decide, by decide, by decide⟩
    · rw [if_neg htwo] at h
      by_cases hblock : unit = ascii "b"
      · rw [if_pos hblock, Option.some.injEq] at h
        rw [hblock, ← h]
        exact ⟨noDigit_of_all (by decide), by decide, by decide, by decide, by decide⟩
      · rw [if_neg hblock] at h
        cases unit with
        | nil => cases h
        | cons letter rest =>
          obtain ⟨power, hpower, hrest⟩ := Option.bind_eq_some_iff.mp h
          have hletter := suffixPrefixPower_letter hpower
          have hletters : ((ascii "kKMGTPEZYRQ").all fun c => isDigit 10 c = false ∧ c ≠ letterX) = true := by decide
          obtain ⟨hdigit, hx⟩ := of_decide_eq_true (all_eq_true.mp hletters letter hletter)
          have htail : (∀ c ∈ rest, isDigit 10 c = false) ∧ rest.length ≤ 2 ∧ 0 < multiplier := by
            by_cases hbinary : rest = [] ∨ rest = ascii "iB"
            · rw [if_pos hbinary, Option.some.injEq] at hrest
              rw [← hrest]
              refine ⟨?_, ?_, Nat.pow_pos (by decide)⟩
              · cases hbinary with
                | inl hr => rw [hr]; exact noDigit_of_all (by decide)
                | inr hr => rw [hr]; exact noDigit_of_all (by decide)
              · cases hbinary with
                | inl hr => rw [hr]; decide
                | inr hr => rw [hr]; decide
            · rw [if_neg hbinary] at hrest
              by_cases hdecimal : rest = ascii "B"
              · rw [if_pos hdecimal, Option.some.injEq] at hrest
                rw [← hrest, hdecimal]
                exact ⟨noDigit_of_all (by decide), by decide, Nat.pow_pos (by decide)⟩
              · simp [hdecimal] at hrest
          obtain ⟨hfree, hlength, hpos⟩ := htail
          refine ⟨?_, ?_, cons_ne_nil _ _, ?_, hpos⟩
          · intro c hc
            cases mem_cons.mp hc with
            | inl heq => rw [heq]; exact hdigit
            | inr hin => exact hfree c hin
          · rw [length_cons]
            omega
          · rw [head?_cons]
            exact fun heq => hx (Option.some.inj heq)

theorem suffixMultiplier_unit (hunit : (if suffix.head? = some 120 then suffix.tail else suffix) = unit) :
    suffixMultiplier suffix =
      if unit = [] then some 1
      else (unitMultiplier unit).bind fun m => if m ≤ uintmaxMax then some m else none := by
  unfold suffixMultiplier unitMultiplier
  dsimp only
  rw [hunit]
  by_cases hnil : unit = []
  · rw [if_pos (.inl hnil), if_pos hnil]
  · rw [if_neg hnil]
    by_cases hone : unit = ascii "c" ∨ unit = ascii "B"
    · rw [if_pos (.inr hone), if_pos hone]
      rfl
    · rw [if_neg fun h => h.elim hnil hone, if_neg hone]
      by_cases htwo : unit = ascii "w"
      · rw [if_pos htwo, if_pos htwo]
        rfl
      · rw [if_neg htwo, if_neg htwo]
        by_cases hblock : unit = ascii "b"
        · rw [if_pos hblock, if_pos hblock]
          rfl
        · rw [if_neg hblock, if_neg hblock]
          cases unit with
          | nil => exact absurd rfl hnil
          | cons letter rest =>
            dsimp only
            rw [Option.bind_assoc]
            congr 1
            funext power
            by_cases hrest : rest = []
            · rw [if_pos hrest, if_pos (.inl hrest), powResult_eq (by decide)]
              rfl
            · by_cases hdecimal : rest = ascii "B"
              · have hbinary : ¬(rest = [] ∨ rest = ascii "iB") := by
                  rw [hdecimal]
                  decide
                rw [if_neg hrest, if_pos hdecimal, if_neg hbinary, if_pos hdecimal, powResult_eq (by decide)]
                rfl
              · by_cases hbinary : rest = ascii "iB"
                · rw [if_neg hrest, if_neg hdecimal, if_pos hbinary, if_pos (.inr hbinary), powResult_eq (by decide)]
                  rfl
                · rw [if_neg hrest, if_neg hdecimal, if_neg hbinary, if_neg fun h => h.elim hrest hbinary, if_neg hdecimal]
                  rfl

theorem suffixMultiplier_iff :
    suffixMultiplier suffix = some multiplier ↔ LooseSuffix suffix multiplier ∧ multiplier ≤ uintmaxMax := by
  have hfits : ∀ unit, ((unitMultiplier unit).bind fun m => if m ≤ uintmaxMax then some m else none) = some multiplier ↔
      unitMultiplier unit = some multiplier ∧ multiplier ≤ uintmaxMax := by
    intro unit
    cases unitMultiplier unit with
    | none => simp
    | some m =>
      rw [Option.bind_some]
      by_cases hm : m ≤ uintmaxMax
      · rw [if_pos hm]
        exact ⟨fun h => ⟨h, Option.some.inj h ▸ hm⟩, fun h => h.1⟩
      · rw [if_neg hm]
        refine iff_of_false (fun h => by cases h) ?_
        intro ⟨heq, hle⟩
        exact hm (Option.some.inj heq ▸ hle)
  have hone : multiplier = 1 → multiplier ≤ uintmaxMax := fun h => h ▸ (by decide : 1 ≤ uintmaxMax)
  have hbare : some 1 = some multiplier ↔ multiplier = 1 := ⟨fun h => (Option.some.inj h).symm, fun h => by rw [h]⟩
  unfold LooseSuffix IsSuffix
  by_cases hx : suffix.head? = some 120
  · obtain ⟨unit, rfl⟩ : ∃ unit, suffix = letterX :: unit := by
      cases suffix with
      | nil => cases hx
      | cons c rest => exact ⟨rest, by rw [head?_cons, Option.some.injEq] at hx; rw [hx]; rfl⟩
    rw [suffixMultiplier_unit (if_pos hx), tail_cons]
    by_cases hnil : unit = []
    · rw [if_pos hnil, hbare, hnil]
      refine ⟨fun h => ⟨.inr ⟨rfl, h⟩, hone h⟩, ?_⟩
      intro ⟨hsuffix, _⟩
      cases hsuffix with
      | inr h => exact h.2
      | inl h =>
        cases h with
        | inl h => exact h.2
        | inr h =>
          obtain ⟨unit', hcases, hunit⟩ := h
          obtain ⟨_, _, hne, hhead, _⟩ := unitMultiplier_spec hunit
          cases hcases with
          | inl h => exact absurd (h ▸ rfl) hhead
          | inr h => exact absurd (List.cons.inj h).2.symm hne
    · rw [if_neg hnil, hfits]
      refine and_congr_left fun _ => ⟨fun h => .inl (.inr ⟨unit, .inr rfl, h⟩), ?_⟩
      intro h
      cases h with
      | inr h => exact absurd (List.cons.inj h.1).2 hnil
      | inl h =>
        cases h with
        | inl h => cases h.1
        | inr h =>
          obtain ⟨unit', hcases, hunit⟩ := h
          obtain ⟨_, _, _, hhead, _⟩ := unitMultiplier_spec hunit
          cases hcases with
          | inl h => exact absurd (h ▸ rfl) hhead
          | inr h => exact (List.cons.inj h).2 ▸ hunit
  · rw [suffixMultiplier_unit (if_neg hx)]
    by_cases hnil : suffix = []
    · rw [if_pos hnil, hbare, hnil]
      refine ⟨fun h => ⟨.inl (.inl ⟨rfl, h⟩), hone h⟩, ?_⟩
      intro ⟨hsuffix, _⟩
      cases hsuffix with
      | inr h => cases h.1
      | inl h =>
        cases h with
        | inl h => exact h.2
        | inr h =>
          obtain ⟨unit', hcases, hunit⟩ := h
          cases hcases with
          | inl h => exact absurd h.symm (unitMultiplier_spec hunit).2.2.1
          | inr h => cases h
    · rw [if_neg hnil, hfits]
      refine and_congr_left fun _ => ⟨fun h => .inl (.inr ⟨suffix, .inl rfl, h⟩), ?_⟩
      intro h
      cases h with
      | inr h => exact absurd (h.1 ▸ rfl) hx
      | inl h =>
        cases h with
        | inl h => exact absurd h.1 hnil
        | inr h =>
          obtain ⟨unit', hcases, hunit⟩ := h
          cases hcases with
          | inl h => exact h ▸ hunit
          | inr h => exact absurd (h ▸ rfl) hx

theorem looseSuffix_spec (h : LooseSuffix suffix multiplier) :
    (∀ c ∈ suffix, isDigit 10 c = false) ∧ suffix.length < 5 ∧ 0 < multiplier := by
  have hx : isDigit 10 letterX = false := by decide
  cases h with
  | inr h =>
    rw [h.1, h.2]
    exact ⟨noDigit_of_all (by decide), by decide, by decide⟩
  | inl h =>
    cases h with
    | inl h =>
      rw [h.1, h.2]
      exact ⟨noDigit_of_all (by decide), by decide, by decide⟩
    | inr h =>
      obtain ⟨unit, hcases, hunit⟩ := h
      obtain ⟨hfree, hlength, _, _, hpos⟩ := unitMultiplier_spec hunit
      cases hcases with
      | inl h =>
        rw [h]
        exact ⟨hfree, by omega, hpos⟩
      | inr h =>
        rw [h, length_cons]
        refine ⟨?_, by omega, hpos⟩
        intro c hc
        cases mem_cons.mp hc with
        | inl heq => rw [heq]; exact hx
        | inr hin => exact hfree c hin

/-! ## Factors -/

theorem takeWhile_digits (h : ∀ c ∈ digits, isDigit 10 c = true)
    (hfree : ∀ c ∈ suffix, isDigit 10 c = false) : (digits ++ suffix).takeWhile (isDigit 10) = digits := by
  have hnone : suffix.takeWhile (isDigit 10) = [] := by
    cases suffix with
    | nil => rfl
    | cons c rest =>
      rw [takeWhile_cons_of_neg]
      rw [hfree c mem_cons_self]
      exact Bool.false_ne_true
  rw [takeWhile_append_of_pos h, hnone, append_nil]

theorem parseScaledUint_eq (text : Bytes) : parseScaledUint text = let digits := text.takeWhile (isDigit 10)
      let suffix := text.drop digits.length
      if digits = [] ∨ 64 ≤ digits.length ∨ 5 ≤ suffix.length then none
      else
        (parseUint digits).bind fun value => (suffixMultiplier suffix).bind fun multiplier => checkedMul value multiplier := by
  have hdigit : (fun ch : UInt8 => decide (48 ≤ ch ∧ ch ≤ 57)) = isDigit 10 := funext fun c => (isDigit_eq c).symm
  unfold parseScaledUint
  rw [hdigit]

theorem checkedMul_eq_some_iff {left right : Nat} :
    checkedMul left right = some value ↔ value = left * right ∧ value ≤ uintmaxMax := by
  rw [checkedMul_eq]
  by_cases hfits : left * right ≤ uintmaxMax
  · rw [if_pos hfits, Option.some.injEq]
    refine ⟨fun h => ⟨h.symm, h ▸ hfits⟩, fun h => h.1.symm⟩
  · rw [if_neg hfits]
    refine iff_of_false (fun h => by cases h) ?_
    intro ⟨heq, hle⟩
    exact hfits (heq ▸ hle)

theorem parseScaledUint_iff : parseScaledUint text = some value ↔
      ∃ digits suffix multiplier, digits ≠ [] ∧ (∀ c ∈ digits, isDigit 10 c = true) ∧ text = digits ++ suffix ∧
        LooseSuffix suffix multiplier ∧ value = numeralValue 10 0 digits * multiplier ∧ digits.length < 64 ∧
        multiplier ≤ uintmaxMax ∧ value ≤ uintmaxMax := by
  rw [parseScaledUint_eq]
  dsimp only
  refine ⟨?_, ?_⟩
  · intro h
    generalize hdigits : text.takeWhile (isDigit 10) = digits at h
    have hall : ∀ c ∈ digits, isDigit 10 c = true := by
      intro c hc
      rw [← hdigits] at hc
      exact mem_takeWhile_imp hc
    have hsplit : text = digits ++ text.drop digits.length := by
      have hprefix := takeWhile_prefix (l := text) (isDigit 10)
      rw [hdigits] at hprefix
      obtain ⟨rest, rfl⟩ := hprefix
      rw [drop_left]
    by_cases hguard : digits = [] ∨ 64 ≤ digits.length ∨ 5 ≤ (text.drop digits.length).length
    · rw [if_pos hguard] at h
      cases h
    · rw [if_neg hguard] at h
      obtain ⟨hne, hguard'⟩ := not_or.mp hguard
      obtain ⟨number, hnumber, h⟩ := Option.bind_eq_some_iff.mp h
      obtain ⟨multiplier, hmultiplier, h⟩ := Option.bind_eq_some_iff.mp h
      obtain ⟨hvalue, hfits⟩ := checkedMul_eq_some_iff.mp h
      obtain ⟨hsuffix, hmax⟩ := suffixMultiplier_iff.mp hmultiplier
      rw [parseUint_eq hne hall] at hnumber
      by_cases hsmall : numeralValue 10 0 digits ≤ uintmaxMax
      · rw [if_pos hsmall, Option.some.injEq] at hnumber
        rw [← hnumber] at hvalue
        exact ⟨digits, _, multiplier, hne, hall, hsplit, hsuffix, hvalue, by omega, hmax, hfits⟩
      · simp [hsmall] at hnumber
  · intro ⟨digits, suffix, multiplier, hne, hall, htext, hsuffix, hvalue, hshort, hmax, hfits⟩
    obtain ⟨hfree, hlength, hpos⟩ := looseSuffix_spec hsuffix
    rw [htext, takeWhile_digits hall hfree, drop_left]
    have hguard : ¬(digits = [] ∨ 64 ≤ digits.length ∨ 5 ≤ suffix.length) := by
      intro h
      cases h with
      | inl h => exact hne h
      | inr h => omega
    have hle : numeralValue 10 0 digits ≤ value := by
      rw [hvalue]
      exact Nat.le_mul_of_pos_right _ hpos
    rw [if_neg hguard, parseUint_eq hne hall, if_pos (by omega), suffixMultiplier_iff.mpr ⟨hsuffix, hmax⟩,
      Option.bind_some, Option.bind_some]
    exact checkedMul_eq_some_iff.mpr ⟨hvalue, hfits⟩

theorem parseScaledUint_isFactor (hbare : ¬BareX factor) :
    parseScaledUint factor = some value ↔ IsFactor factor value ∧ value ≤ uintmaxMax := by
  rw [parseScaledUint_iff]
  refine ⟨?_, ?_⟩
  · intro ⟨digits, suffix, multiplier, hne, hall, htext, hsuffix, hvalue, hshort, hmax, hfits⟩
    cases hsuffix with
    | inl hsuffix => exact ⟨⟨digits, suffix, multiplier, hne, hall, htext, hsuffix, hvalue, hshort, hmax⟩, hfits⟩
    | inr hx =>
      rw [hx.1] at htext
      exact absurd ⟨digits, hall, htext⟩ hbare
  · intro ⟨⟨digits, suffix, multiplier, hne, hall, htext, hsuffix, hvalue, hshort, hmax⟩, hfits⟩
    exact ⟨digits, suffix, multiplier, hne, hall, htext, .inl hsuffix, hvalue, hshort, hmax, hfits⟩

/-! ## Separators -/

/-- No `x` in a factor has a digit behind it. -/
def Unseparated (factor : Bytes) : Prop := ∀ front behind, factor = front ++ letterX :: behind → startsWithDigit behind = false

theorem IsFactor.shape (h : IsFactor factor value) : startsWithDigit factor = true ∧ Unseparated factor := by
  obtain ⟨digits, suffix, multiplier, hne, hall, rfl, hsuffix, _⟩ := h
  obtain ⟨hfree, _, _⟩ := looseSuffix_spec (.inl hsuffix)
  refine ⟨?_, ?_⟩
  · cases digits with
    | nil => exact absurd rfl hne
    | cons c digits => exact hall c mem_cons_self
  · intro front behind heq
    -- the `x` is no digit, so all that follows it is in the suffix
    obtain ⟨between, hfront, hbehind⟩ | ⟨between, hdigits, hbehind⟩ := append_eq_append_iff.mp heq
    · cases behind with
      | nil => rfl
      | cons c behind =>
        have hmem : c ∈ suffix := by
          rw [hbehind]
          exact mem_append_right _ (mem_cons_of_mem _ mem_cons_self)
        exact hfree c hmem
    · cases between with
      | nil =>
        cases behind with
        | nil => rfl
        | cons c behind =>
          have hmem : c ∈ suffix := by
            rw [nil_append] at hbehind
            rw [← hbehind]
            exact mem_cons_of_mem _ mem_cons_self
          exact hfree c hmem
      | cons x between =>
        have hx : letterX = x := (List.cons.inj hbehind).1
        have hmem : letterX ∈ digits := by
          rw [hdigits, hx]
          exact mem_append_right _ mem_cons_self
        exact absurd (hall letterX hmem) (by decide)

theorem ddFactorsFrom_append {rest : Bytes} (h : Unseparated factor) (hrest : rest.head?.all (· = letterX) = true)
    (before : Bytes) : ddFactorsFrom before (factor ++ rest) = ddFactorsFrom (before ++ factor) rest := by
  induction factor generalizing before with
  | nil => rw [nil_append, append_nil]
  | cons c factor ih =>
    have htail : Unseparated factor := fun front behind heq => h (c :: front) behind (congrArg (c :: ·) heq)
    have hnot : ¬(c = letterX ∧ startsWithDigit (factor ++ rest) = true) := by
      intro ⟨hc, hdigit⟩
      cases factor with
      | nil =>
        cases rest with
        | nil => cases hdigit
        | cons x rest =>
          have hx : x = letterX := of_decide_eq_true hrest
          rw [hx] at hdigit
          have hletter : isDigit 10 letterX = true := hdigit
          exact absurd hletter (by decide)
      | cons d factor =>
        have hfalse := h [] (d :: factor) (by rw [hc]; rfl)
        rw [show startsWithDigit (d :: factor ++ rest) = startsWithDigit (d :: factor) from rfl, hfalse] at hdigit
        cases hdigit
    rw [cons_append, ddFactorsFrom, if_neg hnot, ih htail, append_assoc]
    rfl

theorem ddFactors_intercalate (hne : factors ≠ [])
    (h : ∀ factor ∈ factors, startsWithDigit factor = true ∧ Unseparated factor) :
    ddFactors ([letterX].intercalate factors) = factors := by
  unfold ddFactors
  induction factors with
  | nil => exact absurd rfl hne
  | cons factor factors ih =>
    obtain ⟨_, hfree⟩ := h factor mem_cons_self
    cases factors with
    | nil =>
      have happend := @ddFactorsFrom_append factor [] hfree rfl []
      rw [append_nil] at happend
      rw [intercalate_singleton, happend]
      rfl
    | cons next factors =>
      have hrest := ih (cons_ne_nil _ _) fun f hf => h f (mem_cons_of_mem _ hf)
      obtain ⟨hdigit, _⟩ := h next (mem_cons_of_mem _ mem_cons_self)
      have hstarts : startsWithDigit ([letterX].intercalate (next :: factors)) = true := by
        cases next with
        | nil => cases hdigit
        | cons c next =>
          cases factors with
          | nil =>
            rw [intercalate_singleton]
            exact hdigit
          | cons f factors =>
            rw [intercalate_cons_cons]
            exact hdigit
      rw [intercalate_cons_of_ne_nil (cons_ne_nil _ _), append_assoc, ddFactorsFrom_append hfree (by rfl)]
      show ddFactorsFrom factor (letterX :: [letterX].intercalate (next :: factors)) = _
      rw [ddFactorsFrom, if_pos ⟨rfl, hstarts⟩, hrest]

theorem intercalate_ddFactorsFrom (before text : Bytes) :
    ddFactorsFrom before text ≠ [] ∧ [letterX].intercalate (ddFactorsFrom before text) = before ++ text := by
  induction text generalizing before with
  | nil =>
    unfold ddFactorsFrom
    rw [intercalate_singleton, append_nil]
    exact ⟨cons_ne_nil _ _, rfl⟩
  | cons c text ih =>
    unfold ddFactorsFrom
    by_cases hsep : c = letterX ∧ startsWithDigit text = true
    · obtain ⟨hne, hjoin⟩ := ih []
      rw [if_pos hsep, intercalate_cons_of_ne_nil hne, hjoin, hsep.1, append_assoc]
      exact ⟨cons_ne_nil _ _, rfl⟩
    · obtain ⟨hne, hjoin⟩ := ih (before ++ [c])
      rw [if_neg hsep, hjoin, append_assoc]
      exact ⟨hne, rfl⟩

/-! ## Products -/

def product (total : Nat) : List Bytes → Option Nat
  | [] => some total
  | factor :: factors =>
    (parseScaledUint factor).bind fun value => (checkedMul total value).bind fun total => product total factors

theorem ddLoop_eq (total : Nat) (factor text : Bytes) : ddLoop total factor text = product total (ddFactorsFrom factor text) := by
  induction text generalizing total factor with
  | nil =>
    unfold ddLoop ddFactorsFrom product product
    simp
  | cons c text ih =>
    unfold ddLoop ddFactorsFrom
    by_cases hsep : c = letterX ∧ startsWithDigit text = true
    · rw [if_pos hsep, if_pos hsep, product]
      simp only [ih]
    · rw [if_neg hsep, if_neg hsep, ih]

theorem product_iff {total : Nat} (htotal : total ≤ uintmaxMax) : product total factors = some value ↔
      ∃ values, List.Forall₂ (fun factor v => parseScaledUint factor = some v) factors values ∧
        (∀ k, total * (values.take k).prod ≤ uintmaxMax) ∧ value = total * values.prod := by
  induction factors generalizing total with
  | nil =>
    unfold product
    rw [Option.some.injEq]
    refine ⟨?_, ?_⟩
    · intro h
      refine ⟨[], .nil, ?_, ?_⟩
      · intro k
        rw [take_nil, prod_nil, mul_one]
        exact htotal
      · rw [prod_nil, mul_one, h]
    · intro ⟨values, hvalues, _, hvalue⟩
      cases hvalues
      rw [hvalue, prod_nil, mul_one]
  | cons factor factors ih =>
    unfold product
    rw [Option.bind_eq_some_iff]
    refine ⟨?_, ?_⟩
    · intro ⟨v, hv, h⟩
      obtain ⟨next, hnext, h⟩ := Option.bind_eq_some_iff.mp h
      obtain ⟨rfl, hfits⟩ := checkedMul_eq_some_iff.mp hnext
      obtain ⟨values, hvalues, hruns, hvalue⟩ := (ih hfits).mp h
      refine ⟨v :: values, .cons hv hvalues, ?_, ?_⟩
      · intro k
        cases k with
        | zero =>
          rw [take_zero, prod_nil, mul_one]
          exact htotal
        | succ k =>
          rw [take_succ_cons, prod_cons, ← mul_assoc]
          exact hruns k
      · rw [hvalue, prod_cons, mul_assoc]
    · intro ⟨values, hvalues, hruns, hvalue⟩
      cases hvalues with
      | cons hv hvalues =>
        rename_i v values
        have hfits : total * v ≤ uintmaxMax := by
          have hone := hruns 1
          rwa [take_succ_cons, take_zero, prod_singleton] at hone
        refine ⟨v, hv, Option.bind_eq_some_iff.mpr ⟨total * v, checkedMul_eq_some_iff.mpr ⟨rfl, hfits⟩, ?_⟩⟩
        refine (ih hfits).mpr ⟨values, hvalues, ?_, ?_⟩
        · intro k
          have hnext := hruns (k + 1)
          rwa [take_succ_cons, prod_cons, ← mul_assoc] at hnext
        · rw [hvalue, prod_cons, mul_assoc]

theorem ddParseSize_eq (text : Bytes) : ddParseSize text = product 1 (ddFactors text) := by
  have hrefuse : ∀ factor factors, startsWithDigit factor = false → product 1 (factor :: factors) = none := by
    intro factor factors hdigit
    have hnone : parseScaledUint factor = none := by
      rw [parseScaledUint_eq]
      dsimp only
      rw [if_pos]
      left
      cases factor with
      | nil => rfl
      | cons c factor =>
        apply takeWhile_cons_of_neg
        have hc : isDigit 10 c = false := hdigit
        rw [hc]
        exact Bool.false_ne_true
    unfold product
    rw [hnone]
    rfl
  unfold ddParseSize
  by_cases hnil : text = []
  · rw [if_pos hnil, hnil]
    exact (hrefuse [] [] rfl).symm
  · rw [if_neg hnil]
    by_cases hminus : text.head? = some minus
    · obtain ⟨hne, hjoin⟩ := intercalate_ddFactorsFrom [] text
      rw [if_pos hminus]
      unfold ddFactors
      cases hfactors : ddFactorsFrom [] text with
      | nil => exact absurd hfactors hne
      | cons factor factors =>
        symm
        apply hrefuse
        cases factor with
        | nil => rfl
        | cons c factor =>
          rw [hfactors, nil_append] at hjoin
          have hc : c = minus := by
            rw [← hjoin] at hminus
            cases factors with
            | nil =>
              rw [intercalate_singleton] at hminus
              exact Option.some.inj hminus
            | cons next factors =>
              rw [intercalate_cons_cons] at hminus
              exact Option.some.inj hminus
          rw [hc]
          rfl
    · rw [if_neg hminus, ddLoop_eq]
      rfl

/-! ## What is taken -/

variable {values : List Nat}

theorem forall₂_isFactor (hbare : ∀ factor ∈ factors, ¬BareX factor) :
    List.Forall₂ (fun factor v => parseScaledUint factor = some v) factors values ↔
      List.Forall₂ IsFactor factors values ∧ ∀ v ∈ values, v ≤ uintmaxMax := by
  induction factors generalizing values with
  | nil =>
    rw [forall₂_nil_left_iff, forall₂_nil_left_iff]
    refine ⟨fun h => ⟨h, ?_⟩, fun h => h.1⟩
    rw [h]
    exact fun v hv => absurd hv not_mem_nil
  | cons factor factors ih =>
    have hfactor := hbare factor mem_cons_self
    have htail := fun {values} => @ih values fun f hf => hbare f (mem_cons_of_mem _ hf)
    refine ⟨?_, ?_⟩
    · intro h
      cases h with
      | cons hv hvalues =>
        obtain ⟨hread, hfits⟩ := (parseScaledUint_isFactor hfactor).mp hv
        obtain ⟨hreads, hall⟩ := htail.mp hvalues
        refine ⟨.cons hread hreads, ?_⟩
        intro w hw
        cases mem_cons.mp hw with
        | inl heq => rw [heq]; exact hfits
        | inr hin => exact hall w hin
    · intro ⟨h, hall⟩
      cases h with
      | cons hread hreads =>
        refine .cons ((parseScaledUint_isFactor hfactor).mpr ⟨hread, hall _ mem_cons_self⟩) ?_
        exact htail.mpr ⟨hreads, fun w hw => hall w (mem_cons_of_mem _ hw)⟩

theorem forall₂_shape (h : List.Forall₂ IsFactor factors values) :
    ∀ factor ∈ factors, startsWithDigit factor = true ∧ Unseparated factor := by
  induction h with
  | nil => exact fun f hf => absurd hf not_mem_nil
  | cons hread _ ih =>
    intro f hf
    cases mem_cons.mp hf with
    | inl heq => rw [heq]; exact hread.shape
    | inr hin => exact ih f hin

theorem ddParseSize_iff_isProduct (hbare : ∀ factor ∈ ddFactors text, ¬BareX factor) (value : Nat) :
    ddParseSize text = some value ↔ IsProduct IsFactor text value := by
  obtain ⟨hne, hjoin⟩ := intercalate_ddFactorsFrom [] text
  rw [ddParseSize_eq, product_iff (by decide)]
  simp only [one_mul]
  refine ⟨?_, ?_⟩
  · intro ⟨values, hvalues, hruns, hvalue⟩
    obtain ⟨hreads, hfits⟩ := (forall₂_isFactor hbare).mp hvalues
    exact ⟨ddFactors text, values, hne, hjoin.symm, hreads, hfits, hruns, hvalue⟩
  · intro ⟨factors, values, hfne, htext, hreads, hfits, hruns, hvalue⟩
    have hsame : ddFactors text = factors := by
      rw [htext]
      exact ddFactors_intercalate hfne (forall₂_shape hreads)
    rw [hsame] at hbare ⊢
    exact ⟨values, (forall₂_isFactor hbare).mpr ⟨hreads, hfits⟩, hruns, hvalue⟩

def ZerosBefore (factor factor' : Bytes) : Prop :=
  startsWithDigit factor = true ∧ ∃ zeros, factor' = replicate zeros 48 ++ factor ∧
    (factor'.takeWhile (isDigit 10)).length < 64

theorem numeralValue_zeros (zeros : Nat) (digits : Bytes) :
    numeralValue 10 0 (replicate zeros 48 ++ digits) = numeralValue 10 0 digits := by
  induction zeros with
  | zero => rfl
  | succ zeros ih =>
    rw [replicate_succ, cons_append, numeralValue_cons]
    exact ih

theorem parseScaledUint_zeros {factor' : Bytes} (h : ZerosBefore factor factor') :
    parseScaledUint factor' = parseScaledUint factor := by
  obtain ⟨hdigit, zeros, rfl, hshort⟩ := h
  have hzeros : ∀ c ∈ replicate zeros (48 : UInt8), isDigit 10 c = true := by
    intro c hc
    rw [eq_of_mem_replicate hc]
    decide
  have htake : (replicate zeros 48 ++ factor).takeWhile (isDigit 10) =
      replicate zeros 48 ++ factor.takeWhile (isDigit 10) := takeWhile_append_of_pos hzeros
  have hall : ∀ c ∈ factor.takeWhile (isDigit 10), isDigit 10 c = true := fun c hc => mem_takeWhile_imp hc
  have hne : factor.takeWhile (isDigit 10) ≠ [] := by
    cases factor with
    | nil => cases hdigit
    | cons c factor =>
      have hc : isDigit 10 c = true := hdigit
      rw [takeWhile_cons_of_pos hc]
      exact cons_ne_nil _ _
  rw [htake] at hshort
  rw [length_append] at hshort
  rw [parseScaledUint_eq, parseScaledUint_eq, htake]
  dsimp only
  generalize factor.takeWhile (isDigit 10) = digits at hall hne hshort ⊢
  rw [length_append, drop_append, length_replicate, drop_eq_nil_of_le (by
    rw [length_replicate]
    omega), nil_append, Nat.add_sub_cancel_left]
  have hguard : (replicate zeros 48 ++ digits = [] ∨ 64 ≤ zeros + digits.length ∨ 5 ≤ (factor.drop digits.length).length) ↔
      (digits = [] ∨ 64 ≤ digits.length ∨ 5 ≤ (factor.drop digits.length).length) := by
    have hne' : replicate zeros 48 ++ digits ≠ [] := fun heq => hne (append_eq_nil_iff.mp heq).2
    rw [length_replicate] at hshort
    refine or_congr (iff_of_false hne' hne) (or_congr_left (iff_of_false ?_ ?_))
    · omega
    · omega
  rw [if_congr hguard rfl rfl, parseUint_eq (fun heq => hne (append_eq_nil_iff.mp heq).2)
    (forall_mem_append.mpr ⟨hzeros, hall⟩), parseUint_eq hne hall, numeralValue_zeros]

theorem product_zeros {factors' : List Bytes} (h : List.Forall₂ ZerosBefore factors factors') (total : Nat) :
    product total factors' = product total factors := by
  induction h generalizing total with
  | nil => rfl
  | cons hzeros _ ih =>
    unfold product
    rw [parseScaledUint_zeros hzeros]
    simp only [ih]

/-- **Main result.** Where no factor has a bare `x`, what is taken are the sizes of the grammar, with
their values, and zeros in front of a factor change nothing as long as it has fewer than 64 digits. -/
theorem ddParseSize_sound (text : Bytes) (hbare : ∀ factor ∈ ddFactors text, ¬BareX factor) :
    (∀ value, ddParseSize text = some value ↔ IsProduct IsFactor text value) ∧
      ∀ text', List.Forall₂ ZerosBefore (ddFactors text) (ddFactors text') → ddParseSize text' = ddParseSize text := by
  refine ⟨ddParseSize_iff_isProduct hbare, ?_⟩
  intro text' hzeros
  rw [ddParseSize_eq, ddParseSize_eq, product_zeros hzeros]

theorem ddParseSize_sound_small :
    (∀ value, ddParseSize (ascii "2x3kB") = some value ↔ IsProduct IsFactor (ascii "2x3kB") value) ∧
      ∀ text', List.Forall₂ ZerosBefore (ddFactors (ascii "2x3kB")) (ddFactors text') →
        ddParseSize text' = ddParseSize (ascii "2x3kB") := by
  apply ddParseSize_sound (ascii "2x3kB")
  have hfactors : ddFactors (ascii "2x3kB") = [ascii "2", ascii "3kB"] := by decide
  rw [hfactors]
  have hlast : ∀ factor ∈ [ascii "2", ascii "3kB"], factor.getLast? ≠ some letterX := by decide
  intro factor hfactor ⟨digits, _, hx⟩
  apply hlast factor hfactor
  rw [hx]
  exact getLast?_concat

set_option maxRecDepth 4000 in
/-- Sixty-four zeros are a number, but not taken. -/
theorem not_ddParseSize_iff :
    ¬∀ (text : Bytes) (value : Nat), ddParseSize text = some value ↔ IsProduct IsScaled text value := by
  intro h
  have hnone : ddParseSize (replicate 64 48) = none := by decide
  have hsome := (h (replicate 64 48) 0).mpr ?_
  · rw [hnone] at hsome
    cases hsome
  · refine ⟨[replicate 64 48], [0], cons_ne_nil _ _, rfl, .cons ?_ .nil, by decide, ?_, rfl⟩
    · exact ⟨replicate 64 48, [], 1, cons_ne_nil _ _, by decide, rfl, .inl ⟨rfl, rfl⟩, by decide⟩
    · intro k
      cases k with
      | zero => decide
      | succ k =>
        rw [take_succ_cons, take_nil]
        decide

end Bx.Lib
