import Bx.Kit.Hex

/-!
# Percent escapes

A percent sign and two digits stand for a byte. A text is well escaped when
each percent sign has its digits.
-/

namespace Bx.Kit

def percentSign : UInt8 := 37

def upperHexDigit (value : Nat) : UInt8 := if value < 10 then (48 + value).toUInt8 else (65 + value - 10).toUInt8

def percentEscape (c : UInt8) : Bytes := [percentSign, upperHexDigit (c.toNat / 16), upperHexDigit (c.toNat % 16)]

def percentDecode : Bytes → Bytes
  | [] => []
  | c :: rest =>
    if c = percentSign then
      match rest with
      | high :: low :: tail =>
        match hexValue high, hexValue low with
        | some hi, some lo => (hi * 16 + lo).toUInt8 :: percentDecode tail
        | _, _ => c :: percentDecode (high :: low :: tail)
      | _ => c :: rest
    else c :: percentDecode rest

def WellEscaped (text : Bytes) : Prop :=
  ∀ before after, text = before ++ percentSign :: after →
    ∃ high low rest, after = high :: low :: rest ∧ (hexValue high).isSome ∧ (hexValue low).isSome

inductive Escaped : Bytes → Bytes → Prop where
  | nil : Escaped [] []
  | plain {c : UInt8} {text bytes : Bytes} (hc : c ≠ percentSign) (h : Escaped text bytes) :
      Escaped (c :: text) (c :: bytes)
  | escape {high low : UInt8} {hi lo : Nat} {text bytes : Bytes} (hhigh : hexValue high = some hi)
      (hlow : hexValue low = some lo) (h : Escaped text bytes) :
      Escaped (percentSign :: high :: low :: text) ((hi * 16 + lo).toUInt8 :: bytes)

section
variable {text bytes : Bytes}

/-! ## Digits -/

theorem hexValue_upperHexDigit {value : Nat} (h : value < 16) : hexValue (upperHexDigit value) = some value := by
  revert value
  decide

variable {c : UInt8}

theorem hexDigit_ne_percentSign {value : Nat} (h : hexValue c = some value) : c ≠ percentSign := by
  intro hc
  rw [hc] at h
  cases h

/-! ## Reading -/

theorem percentDecode_plain (hc : c ≠ percentSign) (text : Bytes) :
    percentDecode (c :: text) = c :: percentDecode text := by
  rw [percentDecode.eq_def]
  dsimp only
  rw [if_neg hc]

theorem percentDecode_escape {high low : UInt8} {hi lo : Nat} (hhigh : hexValue high = some hi)
    (hlow : hexValue low = some lo) (text : Bytes) :
    percentDecode (percentSign :: high :: low :: text) = (hi * 16 + lo).toUInt8 :: percentDecode text := by
  rw [percentDecode.eq_def]
  dsimp only
  rw [if_pos rfl, hhigh, hlow]

theorem Escaped.percentDecode (h : Escaped text bytes) : percentDecode text = bytes := by
  induction h with
  | nil => rfl
  | plain hc h ih => rw [percentDecode_plain hc, ih]
  | escape hhigh hlow h ih => rw [percentDecode_escape hhigh hlow, ih]

theorem wellEscaped_nil : WellEscaped [] := by
  intro before after h
  exact absurd h.symm (List.append_ne_nil_of_right_ne_nil _ (List.cons_ne_nil _ _))

theorem wellEscaped_cons (hc : c ≠ percentSign) (h : WellEscaped text) : WellEscaped (c :: text) := by
  intro before after hsplit
  cases before with
  | nil => exact absurd (List.cons.inj hsplit).1 hc
  | cons d before => exact h before after (List.cons.inj hsplit).2

theorem WellEscaped.tail (h : WellEscaped (c :: text)) : WellEscaped text := by
  intro before after hsplit
  rw [hsplit] at h
  exact h (c :: before) after rfl

theorem Escaped.wellEscaped (h : Escaped text bytes) : WellEscaped text := by
  induction h with
  | nil => exact wellEscaped_nil
  | plain hc h ih => exact wellEscaped_cons hc ih
  | @escape high low hi lo text bytes hhigh hlow h ih =>
    have hdigits := wellEscaped_cons (hexDigit_ne_percentSign hhigh)
      (wellEscaped_cons (hexDigit_ne_percentSign hlow) ih)
    intro before after hsplit
    cases before with
    | nil =>
      refine ⟨high, low, text, ?_, ?_, ?_⟩
      · exact (List.cons.inj hsplit).2.symm
      · rw [hhigh]
        rfl
      · rw [hlow]
        rfl
    | cons c before => exact hdigits before after (List.cons.inj hsplit).2

theorem WellEscaped.escaped : ∀ {text : Bytes}, WellEscaped text → ∃ bytes, Escaped text bytes
  | [], _ => ⟨[], .nil⟩
  | c :: rest, h => by
    by_cases hc : c = percentSign
    · subst hc
      obtain ⟨high, low, tail, rfl, hhigh, hlow⟩ := h [] rest rfl
      obtain ⟨hi, hhigh⟩ := Option.isSome_iff_exists.mp hhigh
      obtain ⟨lo, hlow⟩ := Option.isSome_iff_exists.mp hlow
      obtain ⟨bytes, hbytes⟩ := h.tail.tail.tail.escaped
      exact ⟨_, .escape hhigh hlow hbytes⟩
    · obtain ⟨bytes, hbytes⟩ := h.tail.escaped
      exact ⟨_, .plain hc hbytes⟩
termination_by text => text.length

theorem escaped_percentEscape (c : UInt8) (h : Escaped text bytes) : Escaped (percentEscape c ++ text) (c :: bytes) := by
  have hc := c.toNat_lt
  have hescape := Escaped.escape (@hexValue_upperHexDigit (c.toNat / 16) (by omega))
    (@hexValue_upperHexDigit (c.toNat % 16) (by omega)) h
  rw [toUInt8_halves] at hescape
  exact hescape

end

end Bx.Kit
