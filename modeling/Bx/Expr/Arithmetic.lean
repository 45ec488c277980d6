import Bx.Kit.DigitList
import Mathlib.Data.List.DropRight

/-!
# Arithmetic of expr

What `src/applets/base/expr/expr.c` computes with integers of any length, by hand, and as machine integers where they
fit into one. A text of digits is here the list of its digits from the last one on. The columns of a product are added
up in an `int`.
-/

namespace Bx.Expr

open Kit

def intMax : Nat := 2 ^ 31 - 1

abbrev Digits := List Nat

abbrev IntMax := { i : Int // -2 ^ 63 ≤ i ∧ i < 2 ^ 63 }

inductive Value
  | int (i : IntMax)
  | string (s : Bytes)
  deriving DecidableEq

/-- `%jd` -/
def decimal (z : Int) : Bytes := (if z < 0 then [45] else []) ++ numeral 10 z.natAbs

def Value.toText : Value → Bytes
  | int i => decimal i
  | string s => s

structure BigInt where
  sign : Int
  digits : Digits

/-! ## Texts -/

def parseDigits (sign : Int) (p : Bytes) : Option BigInt :=
  if !p.head?.any (isDigit 10) then none
  else
    let p := p.dropWhile (· == 48)
    let digits := p.takeWhile (isDigit 10)
    if p.drop digits.length ≠ [] then none
    else if digits = [] then some ⟨0, [0]⟩
    else some ⟨sign, textDigits digits⟩

def parseIntegerView (s : Bytes) : Option BigInt :=
  if s.head? = some 45 then parseDigits (-1) s.tail else parseDigits 1 s

/-- What `strtoimax` makes of a text that was found to be an integer -/
def signedValue (s : Bytes) : Int :=
  if s.head? = some 45 then -(numeralValue 10 0 s.tail) else numeralValue 10 0 s

def parseIntmaxString (s : Bytes) : Option IntMax :=
  if (parseIntegerView s).isNone then none
  else if h : -2 ^ 63 ≤ signedValue s ∧ signedValue s < 2 ^ 63 then some ⟨signedValue s, h⟩
  else none

def bigintToString (n : BigInt) : Bytes := (if n.sign < 0 then [45] else []) ++ digitText n.digits

def valueFromBigint (n : BigInt) : Value :=
  let text := bigintToString n
  match parseIntmaxString text with
  | some parsed => .int parsed
  | none => .string text

/-! ## Digits -/

def digitsCompareAbs (a b : Digits) : Ordering :=
  if a.length ≠ b.length then if a.length < b.length then .lt else .gt else memcmp a.reverse b.reverse

def addCarry (carry : Nat) : Digits → Digits
  | [] => Nat.digits 10 carry
  | d :: l => (d + carry) % 10 :: addCarry ((d + carry) / 10) l

def digitsAddAbs (carry : Nat) : Digits → Digits → Digits
  | [], b => addCarry carry b
  | da :: a, [] => addCarry carry (da :: a)
  | da :: a, db :: b => (da + db + carry) % 10 :: digitsAddAbs ((da + db + carry) / 10) a b

def subDigits (borrow : Nat) : Digits → Digits → Digits
  | [], _ => []
  | da :: a, b =>
    let db := b.headD 0
    if da < db + borrow then (da + 10 - borrow - db) :: subDigits 1 a b.tail
    else (da - borrow - db) :: subDigits 0 a b.tail

def trimTop (l : Digits) : Digits :=
  let top := l.rdropWhile (· == 0)
  if top = [] then l.take 1 else top

def digitsSubAbs (a b : Digits) : Digits := trimTop (subDigits 0 a b)

def addRow (da : Nat) : Digits → List Nat → Option (List Nat)
  | [], acc => some acc
  | _ :: _, [] => none
  | db :: b, x :: acc => if intMax < x + da * db then none else (addRow da b acc).map ((x + da * db) :: ·)

def addRows : Digits → Digits → List Nat → Option (List Nat)
  | [], _, acc => some acc
  | da :: a, b, acc =>
    match addRow da b acc with
    | none => none
    | some [] => none
    | some (x :: acc) => (addRows a b acc).map (x :: ·)

def carryOver (x : Nat) : List Nat → Option (List Nat)
  | [] => some [x]
  | y :: acc => if intMax < y + x / 10 then none else (carryOver (y + x / 10) acc).map (x % 10 :: ·)

def carryColumns : List Nat → Option (List Nat)
  | [] => some []
  | x :: acc => carryOver x acc

def digitsMulAbs (a b : Digits) : Option Digits :=
  ((addRows a b (List.replicate (a.length + b.length + 1) 0)).bind carryColumns).map trimTop

def digitsMul10AddDigit (value : Digits) (digit : Nat) : Digits := if value = [0] then [digit] else digit :: value

/-- One digit of a quotient and what is left, by subtracting up to `fuel` times -/
def quotientDigit (denominator : Digits) : Nat → Digits → Option (Nat × Digits)
  | 0, _ => none
  | fuel + 1, remainder =>
    if digitsCompareAbs remainder denominator = .lt then some (0, remainder)
    else
      (quotientDigit denominator fuel (digitsSubAbs remainder denominator)).map fun (qdigit, left) => (qdigit + 1, left)

def divideDigits (denominator : Digits) : List Nat → Digits → Digits → Option (Digits × Digits)
  | [], quotient, remainder => some (quotient, remainder)
  | digit :: numerator, quotient, remainder =>
    (quotientDigit denominator 10 (digitsMul10AddDigit remainder digit)).bind fun (qdigit, left) =>
      divideDigits denominator numerator (qdigit :: quotient) left

def digitsDivmodAbs (numerator denominator : Digits) : Option (Digits × Digits) :=
  if digitsCompareAbs numerator denominator = .lt then some ([0], numerator)
  else
    (divideDigits denominator numerator.reverse [] [0]).map fun (quotient, remainder) =>
      (trimTop quotient, trimTop remainder)

/-! ## Integers -/

def bigintSetFromDigits (sign : Int) (digits : Digits) : BigInt := ⟨if digits = [0] then 0 else sign, digits⟩

def bigintAdd (a b : BigInt) : BigInt :=
  if a.sign = 0 then b
  else if b.sign = 0 then a
  else if a.sign = b.sign then bigintSetFromDigits a.sign (digitsAddAbs 0 a.digits b.digits)
  else
    match digitsCompareAbs a.digits b.digits with
    | .eq => ⟨0, [0]⟩
    | .gt => bigintSetFromDigits a.sign (digitsSubAbs a.digits b.digits)
    | .lt => bigintSetFromDigits b.sign (digitsSubAbs b.digits a.digits)

def bigintSub (a b : BigInt) : BigInt := bigintAdd a ⟨-b.sign, b.digits⟩

def bigintMul (a b : BigInt) : Option BigInt :=
  if a.sign = 0 ∨ b.sign = 0 then some ⟨0, [0]⟩
  else (digitsMulAbs a.digits b.digits).map (bigintSetFromDigits (a.sign * b.sign))

def bigintDivmod (a b : BigInt) : Option (BigInt × BigInt) :=
  if a.sign = 0 then some (⟨0, [0]⟩, ⟨0, [0]⟩)
  else
    (digitsDivmodAbs a.digits b.digits).map fun (quotient, remainder) =>
      (bigintSetFromDigits (a.sign * b.sign) quotient, bigintSetFromDigits a.sign remainder)

def compareIntegerViews (a b : BigInt) : Ordering :=
  if a.sign ≠ b.sign then if a.sign < b.sign then .lt else .gt
  else if a.sign = 0 then .eq
  else
    let cmp := digitsCompareAbs a.digits b.digits
    if 0 < a.sign then cmp else cmp.swap

/-! ## Operators -/

inductive CompareOp
  | lt
  | le
  | eq
  | ne
  | ge
  | gt
  deriving DecidableEq

inductive ArithOp
  | add
  | sub
  | mul
  | div
  | mod
  deriving DecidableEq

def CompareOp.holds (op : CompareOp) (cmp : Ordering) : Bool :=
  match op with
  | lt => cmp == .lt
  | le => cmp != .gt
  | eq => cmp == .eq
  | ne => cmp != .eq
  | ge => cmp != .lt
  | gt => cmp == .gt

/-- `hangs` where a loop does not end, `overflow` where an `int` overflows -/
inductive Outcome
  | value (v : Value)
  | error (message : String)
  | overflow
  | hangs
  deriving DecidableEq

def truth (b : Bool) : Value := .int (if b then ⟨1, by decide⟩ else ⟨0, by decide⟩)

variable (strcoll : Bytes → Bytes → Ordering)

def compareValues (a b : Value) : Ordering :=
  match parseIntegerView a.toText, parseIntegerView b.toText with
  | some av, some bv => compareIntegerViews av bv
  | _, _ => strcoll a.toText b.toText

def evalCompare (op : CompareOp) (left right : Value) : Value :=
  truth (op.holds (compareValues strcoll left right))

def ArithOp.apply (op : ArithOp) (lnum rnum : BigInt) : Outcome :=
  match op with
  | add => .value (valueFromBigint (bigintAdd lnum rnum))
  | sub => .value (valueFromBigint (bigintSub lnum rnum))
  | mul =>
    match bigintMul lnum rnum with
    | some product => .value (valueFromBigint product)
    | none => .overflow
  | div =>
    if rnum.sign = 0 then .error "division by zero"
    else
      match bigintDivmod lnum rnum with
      | some (quotient, _) => .value (valueFromBigint quotient)
      | none => .hangs
  | mod =>
    if rnum.sign = 0 then .error "division by zero"
    else
      match bigintDivmod lnum rnum with
      | some (_, remainder) => .value (valueFromBigint remainder)
      | none => .hangs

def evalArith (op : ArithOp) (left right : Value) : Outcome :=
  match parseIntegerView left.toText, parseIntegerView right.toText with
  | some lnum, some rnum => op.apply lnum rnum
  | _, _ => .error "non-integer argument"

end Bx.Expr
