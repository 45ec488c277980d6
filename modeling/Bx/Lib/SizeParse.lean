import Bx.Kit.Bytes
import Bx.Lib.CheckedMath

/-!
# Sizes

A size is a number of decimal digits and a suffix that scales it, a count has a
sign in front of it. What does not fit into 64 bits is refused, and a block size
of zero as well.
-/

namespace Bx.Lib
open Kit

/-- The digits of `parseUint`, with the value read so far -/
def parseUintFrom (value : Nat) : Bytes → Option Nat
  | [] => some value
  | ch :: text =>
    if ch < 48 ∨ 57 < ch then none
    else
      let digit := ch.toNat - 48
      if (uintmaxMax - digit) / 10 < value then none else parseUintFrom (value * 10 + digit) text

def parseUint (text : Bytes) : Option Nat := if text = [] then none else parseUintFrom 0 text

def sizePrefixes : Bytes := ascii "MGTPEZYRQ"

def suffixPrefixPower (suffix : UInt8) : Option Nat :=
  if suffix = 107 ∨ suffix = 75 then some 1
  else if suffix = 0 then none
  else (sizePrefixes.findIdx? (· == suffix)).map (· + 2)

def powResult (base : Nat) : Nat → Option Nat
  | 0 => some 1
  | power + 1 => (powResult base power).bind fun value => checkedMul value base

def suffixMultiplier (suffix : Bytes) : Option Nat :=
  let suffix := if suffix.head? = some 120 then suffix.tail else suffix
  if suffix = [] ∨ suffix = ascii "c" ∨ suffix = ascii "B" then some 1
  else if suffix = ascii "w" then some 2
  else if suffix = ascii "b" then some 512
  else
    match suffix with
    | [] => none
    | unit :: rest =>
      (suffixPrefixPower unit).bind fun power =>
        if rest = [] then powResult 1024 power
        else if rest = ascii "B" then powResult 1000 power
        else if rest = ascii "iB" then powResult 1024 power
        else none

def parseScaledUint (text : Bytes) : Option Nat :=
  let digits := text.takeWhile fun ch => 48 ≤ ch ∧ ch ≤ 57
  let suffix := text.drop digits.length
  if digits = [] ∨ 64 ≤ digits.length ∨ 5 ≤ suffix.length then none
  else
    (parseUint digits).bind fun value => (suffixMultiplier suffix).bind fun multiplier => checkedMul value multiplier

def intmaxMax : Nat := 2 ^ 63 - 1

def parseScaledCount (text : Bytes) : Option Int :=
  let negative := text.head? = some 45
  let magnitude := if negative ∨ text.head? = some 43 then text.tail else text
  if magnitude = [] then none
  else
    (parseScaledUint magnitude).bind fun scaled =>
      if negative then if intmaxMax + 1 < scaled then none else some (-scaled)
      else if intmaxMax < scaled then none else some scaled

variable {text : Bytes}

theorem parseScaledUint_head {ch : UInt8} {value : Nat} (h : parseScaledUint (ch :: text) = some value) :
    48 ≤ ch ∧ ch ≤ 57 := by
  by_contra hno
  have hnil : (ch :: text).takeWhile (fun ch => decide (48 ≤ ch ∧ ch ≤ 57)) = [] := by
    rw [List.takeWhile_cons_of_neg]
    rw [decide_eq_true_eq]
    exact hno
  unfold parseScaledUint at h
  dsimp only at h
  rw [hnil, if_pos (.inl rfl)] at h
  cases h

theorem parseScaledCount_minus : parseScaledCount (45 :: text) =
      (parseScaledUint text).bind fun scaled => if intmaxMax + 1 < scaled then none else some (-scaled : Int) := by
  cases text with
  | nil => rfl
  | cons ch text =>
    unfold parseScaledCount
    simp

theorem parseScaledCount_unsigned {scaled : Nat} (h : parseScaledUint text = some scaled) :
    parseScaledCount text = if intmaxMax < scaled then none else some (scaled : Int) := by
  cases text with
  | nil => cases h
  | cons ch text =>
    obtain ⟨hlow, hhigh⟩ := parseScaledUint_head h
    have hminus : ch ≠ 45 := by
      intro heq
      rw [heq] at hlow
      exact absurd hlow (by decide)
    have hplus : ch ≠ 43 := by
      intro heq
      rw [heq] at hlow
      exact absurd hlow (by decide)
    unfold parseScaledCount
    simp [hminus, hplus, h]

example : parseScaledUint (ascii "3kB") = some 3000 := by decide

end Bx.Lib
