import Bx.Kit.Bytes

/-!
# Tar header blocks

A header is one block of fields at fixed offsets. Numbers are octal numerals
between blanks, texts end at a NUL or at the end of their field, and the
checksum is the sum of the block with its own field blanked out.
-/

namespace Bx.Tar
open Kit List

def blockSize : Nat := 512

def sizeMax : Nat := 2 ^ 64 - 1

def roundUp (value align : Nat) : Nat :=
  let rem := value % align
  if rem = 0 then value else value + (align - rem)

def blockIsZero (block : Bytes) : Bool := block.all (· == 0)

variable (header : Bytes)

def field (offset width : Nat) : Bytes := (header.drop offset).take width

/-! ## Octal fields -/

def isBlank (c : UInt8) : Bool := c == 32 || c == 0

def octalDigitsSlow : Nat → Bytes → Option Nat
  | value, [] => some value
  | value, ch :: cursor =>
    if isBlank ch then some value
    else if isDigit 8 ch then octalDigitsSlow (value * 8 + digitValue ch) cursor
    else none

def parseOctalFieldSlow (field : Bytes) : Option Nat :=
  octalDigitsSlow 0 ((field.dropWhile isBlank).dropWhile (· == 48))

def octalDigits : Nat → Bytes → Option Nat
  | value, [] => some value
  | value, ch :: rest => if isDigit 8 ch then octalDigits (value * 8 + digitValue ch) rest else none

def parseOctalField (field : Bytes) : Option Nat :=
  match field.getLast? with
  | none => parseOctalFieldSlow field
  | some last =>
    if isBlank last then
      match octalDigits 0 (field.dropLast.dropWhile (· == 48)) with
      | some value => some value
      | none => parseOctalFieldSlow field
    else parseOctalFieldSlow field

def deviceField (field : Bytes) : Option Nat :=
  let digits := field.dropWhile isBlank
  if (digits.dropWhile (isDigit 8)).dropWhile isBlank = [] then
    some (numeralValue 8 0 (digits.takeWhile (isDigit 8)))
  else none

/-! ## Checksums and texts -/

def checksumBlanked : Bytes := header.take 148 ++ replicate 8 32 ++ header.drop 156

def signedSum (block : Bytes) : Int := (block.map fun b => b.toInt8.toInt).sum

def headerChecksumValid : Bool :=
  match parseOctalField (field header 148 8) with
  | none => false
  | some recorded =>
    let unsigned := byteSum (checksumBlanked header)
    let signed := signedSum (checksumBlanked header)
    recorded == unsigned || (decide (0 ≤ signed) && (recorded : Int) == signed)

def typeflag : UInt8 := (header.drop 156).headD 0

def headerIsOldgnu : Bool := field header 257 8 == ascii "ustar  " ++ [0]

def headerNameJoin (nameField prefixField : Bytes) : Bytes :=
  if prefixField.headD 0 == 0 then cText nameField else cText prefixField ++ 47 :: cText nameField

def headerName : Bytes :=
  if headerIsOldgnu header then cText (field header 0 100)
  else headerNameJoin (field header 0 100) (field header 345 155)

def isLinkType (type : UInt8) : Bool := type == 49 || type == 50

def isExtendedType (type : UInt8) : Bool := type == 120 || type == 103 || type == 76 || type == 75

/-! ## What the fields read -/

theorem roundUp_zero (align : Nat) : roundUp 0 align = 0 := by simp [roundUp]

theorem le_roundUp (value align : Nat) : value ≤ roundUp value align := by
  unfold roundUp
  by_cases h : value % align = 0
  · simp [h]
  · simp [h]

theorem dvd_roundUp {align : Nat} (hpos : 0 < align) (value : Nat) : align ∣ roundUp value align := by
  have hmod := Nat.mod_lt value hpos
  have hsplit := Nat.div_add_mod value align
  unfold roundUp
  by_cases h : value % align = 0
  · simp only [h, if_true]
    exact Nat.dvd_of_mod_eq_zero h
  · simp only [h, if_false]
    refine ⟨value / align + 1, ?_⟩
    rw [Nat.mul_add, mul_one]
    omega

theorem digit_not_isBlank {c : UInt8} (h : isDigit 8 c = true) : isBlank c = false := by
  have hrange := isDigit_iff.mp h
  have hspace : c ≠ 32 := by
    intro heq
    rw [heq] at hrange
    exact absurd hrange.1 (by decide)
  have hzero : c ≠ 0 := by
    intro heq
    rw [heq] at hrange
    exact absurd hrange.1 (by decide)
  simp [isBlank, hspace, hzero]

theorem numeralValue_dropWhile_zero (base : Nat) (digits : Bytes) :
    numeralValue base 0 (digits.dropWhile (· == 48)) = numeralValue base 0 digits := by
  induction digits with
  | nil => rfl
  | cons c digits ih =>
    by_cases hc : c = 48
    · have hvalue : digitValue 48 = 0 := by decide
      rw [hc, dropWhile_cons_of_pos (by decide), numeralValue_cons, hvalue, ih, zero_mul]
    · rw [dropWhile_cons_of_neg (by simpa using hc)]

section
variable {digits : Bytes} (hdigits : ∀ c ∈ digits, isDigit 8 c = true)
include hdigits

theorem octalDigits_digits (value : Nat) : octalDigits value digits = some (numeralValue 8 value digits) := by
  induction digits generalizing value with
  | nil => rfl
  | cons c digits ih =>
    rw [octalDigits, if_pos (hdigits c mem_cons_self), numeralValue_cons]
    exact ih (fun c' hc' => hdigits c' (mem_cons_of_mem _ hc')) _

variable {stop : UInt8}

theorem octalDigits_stops (value : Nat) (hstop : isDigit 8 stop = false) (more : Bytes) :
    octalDigits value (digits ++ stop :: more) = none := by
  induction digits generalizing value with
  | nil => simp [octalDigits, hstop]
  | cons c digits ih =>
    rw [cons_append, octalDigits, if_pos (hdigits c mem_cons_self)]
    exact ih (fun c' hc' => hdigits c' (mem_cons_of_mem _ hc')) _

theorem octalDigitsSlow_blank (value : Nat) (hstop : isBlank stop = true) (more : Bytes) :
    octalDigitsSlow value (digits ++ stop :: more) = some (numeralValue 8 value digits) := by
  induction digits generalizing value with
  | nil => simp [octalDigitsSlow, hstop]
  | cons c digits ih =>
    have hc := hdigits c mem_cons_self
    rw [cons_append, octalDigitsSlow, if_neg (by simp [digit_not_isBlank hc]), if_pos hc, numeralValue_cons]
    exact ih (fun c' hc' => hdigits c' (mem_cons_of_mem _ hc')) _

theorem dropWhile_zero_append (hstop : stop ≠ 48) (more : Bytes) :
    (digits ++ stop :: more).dropWhile (· == 48) = digits.dropWhile (· == 48) ++ stop :: more := by
  induction digits with
  | nil => exact dropWhile_cons_of_neg (by simpa using hstop)
  | cons c digits ih =>
    by_cases hc : c = 48
    · rw [hc, cons_append, dropWhile_cons_of_pos (by decide), dropWhile_cons_of_pos (by decide)]
      exact ih (fun c' hc' => hdigits c' (mem_cons_of_mem _ hc'))
    · rw [cons_append, dropWhile_cons_of_neg (by simpa using hc),
        dropWhile_cons_of_neg (by simpa using hc), cons_append]

theorem parseOctalField_terminated (hstop : isBlank stop = true) :
    parseOctalField (digits ++ [stop]) = some (numeralValue 8 0 digits) := by
  have hall : ∀ c ∈ digits.dropWhile (· == 48), isDigit 8 c = true :=
    fun c hc => hdigits c ((dropWhile_sublist _).subset hc)
  unfold parseOctalField
  rw [getLast?_concat, dropLast_concat]
  simp only [hstop, if_true, octalDigits_digits hall, numeralValue_dropWhile_zero]

theorem parseOctalField_checksum (hne : digits ≠ []) :
    parseOctalField (digits ++ [0, 32]) = some (numeralValue 8 0 digits) := by
  have hall : ∀ c ∈ digits.dropWhile (· == 48), isDigit 8 c = true :=
    fun c hc => hdigits c ((dropWhile_sublist _).subset hc)
  have hlast : digits ++ [0, 32] = (digits ++ [0]) ++ [32] := by simp
  have hfast : octalDigits 0 ((digits ++ [0]).dropWhile (· == 48)) = none := by
    rw [dropWhile_zero_append hdigits (by decide)]
    exact octalDigits_stops hall 0 (by decide) []
  have hhead : (digits ++ [0, 32]).dropWhile isBlank = digits ++ [0, 32] := by
    obtain ⟨c, rest, rfl⟩ := exists_cons_of_ne_nil hne
    exact dropWhile_cons_of_neg (by simp [digit_not_isBlank (hdigits c mem_cons_self)])
  have hslow : parseOctalFieldSlow (digits ++ [0, 32]) = some (numeralValue 8 0 digits) := by
    unfold parseOctalFieldSlow
    rw [hhead, dropWhile_zero_append hdigits (by decide), octalDigitsSlow_blank hall 0 (by decide),
      numeralValue_dropWhile_zero]
  unfold parseOctalField
  rw [hslow, hlast, getLast?_concat, dropLast_concat]
  simp only [hfast]
  rfl

end

end Bx.Tar
