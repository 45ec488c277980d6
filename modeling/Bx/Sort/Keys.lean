import Bx.Kit.Bytes

/-!
# Keys

Options of sort and the keys that it takes from a line. Fields are what stands between separators, or runs of non-blanks
with the blanks before them.
-/

namespace Bx.Sort
open Kit

structure Locale where
  strcoll : CText → CText → Int
  strcasecmp : CText → CText → Int
  tolower : UInt8 → UInt8
  isspace : UInt8 → Bool
  isblank : UInt8 → Bool
  strcoll_order : Std.TransCmp fun a b => compare (strcoll a b) 0
  strcasecmp_order : Std.TransCmp fun a b => compare (strcasecmp a b) 0
  tolower_digit : ∀ c, isDigit 10 c = true → tolower c = c
  tolower_nondigit : ∀ c, isDigit 10 c = false → isDigit 10 (tolower c) = false
  tolower_zero : ∀ c, tolower c = 0 ↔ c = 0

inductive Mode
  | lexicographic
  | numeric
  | human
  | version

structure KeyPart where
  field : Nat
  charOffset : Option Nat
  ignoreLeadingBlanks : Bool

structure KeySpec where
  start : KeyPart
  stop : Option KeyPart
  mode : Option Mode
  reverse : Bool
  ignoreCase : Bool

structure Opts where
  mode : Mode
  reverse : Bool
  unique : Bool
  ignoreCase : Bool
  ignoreLeadingBlanks : Bool
  stable : Bool
  zeroTerminated : Bool
  fieldSeparator : Option UInt8
  keySpecs : List KeySpec

/-! ## Fields -/

structure FieldRange where
  baseStart : Nat
  dataStart : Nat
  dataEnd : Nat

/-- `strchr` from an offset on -/
def findByte (line : Bytes) (c : UInt8) (cursor : Nat) : Option Nat :=
  ((line.drop cursor).findIdx? (· == c)).map (cursor + ·)

def separatedField (line : Bytes) (separator : UInt8) : Nat → Nat → Option FieldRange
  | 0, cursor => some ⟨cursor, cursor, (findByte line separator cursor).getD line.length⟩
  | more + 1, cursor =>
    match findByte line separator cursor with
    | some found => separatedField line separator more (found + 1)
    | none => none

/-- The offset of the first byte from `cursor` on that is not `skipped` -/
def skipWhile (line : Bytes) (skipped : UInt8 → Bool) (cursor : Nat) : Nat :=
  cursor + ((line.drop cursor).takeWhile skipped).length

def blankField (L : Locale) (line : Bytes) : Nat → Nat → Option FieldRange
  | 0, _ => none
  | more + 1, baseStart =>
    let dataStart := skipWhile line L.isblank baseStart
    if line.length ≤ dataStart then none
    else
      let dataEnd := skipWhile line (fun c => !L.isblank c) dataStart
      if more = 0 then some ⟨baseStart, dataStart, dataEnd⟩ else blankField L line more dataEnd

variable (L : Locale)

variable (opts : Opts)

def findFieldRange (line : Bytes) (fieldNumber : Nat) : Option FieldRange :=
  match opts.fieldSeparator with
  | some separator => separatedField line separator (fieldNumber - 1) 0
  | none => blankField L line fieldNumber 0

/-! ## Keys -/

def clampedAdvance (start stop count : Nat) : Nat := if stop - start < count then stop else start + count

def keyPartBase (part : KeyPart) (field : FieldRange) : Nat :=
  if opts.fieldSeparator.isSome then field.dataStart
  else if opts.ignoreLeadingBlanks || part.ignoreLeadingBlanks then field.dataStart
  else field.baseStart

def keyStart (part : KeyPart) (field : FieldRange) : Nat :=
  clampedAdvance (keyPartBase opts part field) field.dataEnd (part.charOffset.getD 0)

def keyEnd (stop : Option KeyPart) (line : Bytes) : Nat :=
  match stop with
  | none => line.length
  | some part =>
    match findFieldRange L opts line part.field with
    | none => line.length
    | some field =>
      match part.charOffset with
      | some offset => clampedAdvance (keyPartBase opts part field) field.dataEnd (offset + 1)
      | none => field.dataEnd

def keyRange (spec : KeySpec) (line : Bytes) : Nat × Nat :=
  match findFieldRange L opts line spec.start.field with
  | none => (line.length, line.length)
  | some field => (keyStart opts spec.start field, keyEnd L opts spec.stop line)

def makeKeyCopy (line : CText) (spec : KeySpec) : CText :=
  let range := keyRange L opts spec line.1
  ⟨(line.1.drop range.1).take (range.2 - range.1),
    fun h => line.2 (List.mem_of_mem_drop (List.mem_of_mem_take h))⟩

def makeKeyCopies (line : CText) : List CText := opts.keySpecs.map (makeKeyCopy L opts line)

def skipLeadingBlanks (text : CText) : CText :=
  ⟨text.1.dropWhile L.isblank, fun h => text.2 (List.dropWhile_subset _ h)⟩

end Bx.Sort
