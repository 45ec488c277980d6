import Bx.Kit.Comparison
import Bx.Lib.SizeParse
import Bx.Sort.Keys

/-!
# Comparing lines

Numbers, human readable numbers and versions are read off the text while it is
compared. The keys decide one after the other, then the whole line does unless
the sort is stable or unique, and last the place in the input.
-/

namespace Bx.Sort
open Kit

/-! ## Numbers -/

structure NumericToken where
  sign : Int
  intDigits : Bytes
  fracDigits : Bytes
  suffix : UInt8
  hasDigits : Bool
  isZero : Bool

def parseDigits (sign : Int) (p : Bytes) : NumericToken :=
  let intDigits := p.takeWhile (isDigit 10)
  let p := p.dropWhile (isDigit 10)
  let fracDigits := if p.head? = some 46 then p.tail.takeWhile (isDigit 10) else []
  let p := if p.head? = some 46 then p.tail.dropWhile (isDigit 10) else p
  let hasDigits := !intDigits.isEmpty || !fracDigits.isEmpty
  let isZero := intDigits.all (· == 48) && fracDigits.all (· == 48)
  { sign := if !hasDigits || isZero then 1 else sign
    intDigits := intDigits
    fracDigits := fracDigits
    suffix := p.head?.getD 0
    hasDigits := hasDigits
    isZero := isZero }

def parseNumericToken (L : Locale) (text : Bytes) : NumericToken :=
  let p := text.dropWhile L.isspace
  if p.head? = some 45 then parseDigits (-1) p.tail
  else if p.head? = some 43 then parseDigits 1 p.tail
  else parseDigits 1 p

def parseHumanToken (L : Locale) (text : Bytes) : NumericToken :=
  let p := text.dropWhile L.isspace
  if p.head? = some 45 then parseDigits (-1) p.tail
  else if p.head? = some 43 then
    { sign := 1, intDigits := [], fracDigits := [], suffix := 43, hasDigits := false, isZero := true }
  else parseDigits 1 p

def stripLeadingZeros (digits : Bytes) : Bytes := digits.dropWhile (· == 48)

def stripTrailingZeros (digits : Bytes) : Bytes := (digits.reverse.dropWhile (· == 48)).reverse

def compareDigits (left right : Bytes) : Ordering :=
  let left := stripLeadingZeros left
  let right := stripLeadingZeros right
  (compare left.length right.length).then (compare left right)

def compareNumericAbs (left right : NumericToken) : Ordering :=
  (compareDigits left.intDigits right.intDigits).then
    (comparePadded 48 (stripTrailingZeros left.fracDigits) (stripTrailingZeros right.fracDigits))

def compareNumericTokens (left right : NumericToken) : Ordering :=
  if left.isZero && right.isZero then .eq
  else if left.sign ≠ right.sign then compare left.sign right.sign
  else reverseIf (left.sign < 0) (compareNumericAbs left right)

def compareNumericKey (L : Locale) (left right : CText) : Ordering :=
  compareNumericTokens (parseNumericToken L left.1) (parseNumericToken L right.1)

/-! ## Human readable numbers -/

def humanSuffixMagnitude (token : NumericToken) : Nat :=
  if token.hasDigits then (Lib.suffixPrefixPower token.suffix).getD 0 else 0

/-- A small `k` stands after a capital one. -/
def humanSuffixVariant (token : NumericToken) : Nat := if token.hasDigits && token.suffix == 107 then 1 else 0

def compareHumanTokens (left right : NumericToken) : Ordering :=
  if left.sign ≠ right.sign then compare left.sign right.sign
  else if left.isZero || right.isZero then
    if left.isZero && right.isZero then .eq else if left.isZero then .lt else .gt
  else
    (reverseIf (left.sign < 0) (compare (humanSuffixMagnitude left) (humanSuffixMagnitude right))).then
      ((reverseIf (left.sign < 0) (compareNumericAbs left right)).then
        (compare (humanSuffixVariant left) (humanSuffixVariant right)))

def compareHumanKey (L : Locale) (left right : CText) : Ordering :=
  compareHumanTokens (parseHumanToken L left.1) (parseHumanToken L right.1)

/-! ## Versions -/

def foldCase (L : Locale) (ignoreCase : Bool) (c : UInt8) : UInt8 := if ignoreCase then L.tolower c else c

def compareRuns (left right : Bytes) : Ordering :=
  (compareDigits left right).then (compare right.length left.length)

/-- Two runs of digits as numbers, everything else byte by byte; the end of the text is a NUL. -/
def compareVersion (fold : UInt8 → UInt8) : Bytes → Bytes → Ordering
  | [], [] => .eq
  | [], r :: _ => compare (fold 0) (fold r)
  | l :: left, [] => (compare (fold l) (fold 0)).then (compareVersion fold left [])
  | l :: left, r :: right =>
    if isDigit 10 l && isDigit 10 r then
      (compareRuns (l :: left.takeWhile (isDigit 10)) (r :: right.takeWhile (isDigit 10))).then
        (compareVersion fold (left.dropWhile (isDigit 10)) (right.dropWhile (isDigit 10)))
    else (compare (fold l) (fold r)).then (compareVersion fold left right)
termination_by left right => left.length + right.length
decreasing_by
  · simp
  · have hl := (List.dropWhile_sublist (isDigit 10) (l := left)).length_le
    have hr := (List.dropWhile_sublist (isDigit 10) (l := right)).length_le
    simp only [List.length_cons]
    omega
  · simp only [List.length_cons]
    omega

def compareVersionKey (L : Locale) (left right : CText) (ignoreCase : Bool) : Ordering :=
  compareVersion (foldCase L ignoreCase) left.1 right.1

/-! ## Orders -/

structure OrderOpts where
  mode : Mode
  ignoreCase : Bool
  reverse : Bool

def compareDefaultLine (L : Locale) (left right : CText) : Ordering := compare (L.strcoll left right) 0

def compareText (L : Locale) (order : OrderOpts) (left right : CText) : Ordering :=
  match order.mode with
  | .numeric => compareNumericKey L left right
  | .human => compareHumanKey L left right
  | .version => compareVersionKey L left right order.ignoreCase
  | .lexicographic =>
    if order.ignoreCase then compare (L.strcasecmp left right) 0 else compareDefaultLine L left right

def compareTextWithOrder (L : Locale) (order : OrderOpts) (left right : CText) : Ordering :=
  reverseIf order.reverse (compareText L order left right)

def primaryOrderForKey (opts : Opts) (spec : KeySpec) (includeReverse : Bool) : OrderOpts :=
  { mode := spec.mode.getD opts.mode
    ignoreCase := opts.ignoreCase || spec.ignoreCase
    reverse := includeReverse && (opts.reverse || spec.reverse) }

def primaryOrderForLine (opts : Opts) (includeReverse : Bool) : OrderOpts :=
  { mode := opts.mode, ignoreCase := opts.ignoreCase, reverse := includeReverse && opts.reverse }

/-! ## Lines -/

structure Line (L : Locale) (opts : Opts) where
  text : CText
  keyTexts : List CText
  originalIndex : Nat
  keyTexts_eq : keyTexts = makeKeyCopies L opts text

variable {L : Locale} {opts : Opts}

def compareKeys (L : Locale) (opts : Opts) (includeReverse : Bool) : List KeySpec → List CText → List CText → Ordering
  | spec :: specs, l :: left, r :: right =>
    (compareTextWithOrder L (primaryOrderForKey opts spec includeReverse) l r).then
      (compareKeys L opts includeReverse specs left right)
  | _, _, _ => .eq

def comparePrimary (includeReverse : Bool) (left right : Line L opts) : Ordering :=
  if opts.keySpecs.length = 0 then
    let leftKey := if opts.ignoreLeadingBlanks then skipLeadingBlanks L left.text else left.text
    let rightKey := if opts.ignoreLeadingBlanks then skipLeadingBlanks L right.text else right.text
    compareTextWithOrder L (primaryOrderForLine opts includeReverse) leftKey rightKey
  else compareKeys L opts includeReverse opts.keySpecs left.keyTexts right.keyTexts

def compareForOutput (left right : Line L opts) : Ordering :=
  (comparePrimary true left right).then
    (if opts.stable || opts.unique then .eq
    else reverseIf opts.reverse (compareDefaultLine L left.text right.text))

def comparePrimaryForUnique (left right : Line L opts) : Ordering := comparePrimary false left right

def qsortCompare (left right : Line L opts) : Ordering :=
  (compareForOutput left right).then (compare left.originalIndex right.originalIndex)

end Bx.Sort
