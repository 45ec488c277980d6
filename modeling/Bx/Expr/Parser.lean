import Bx.Expr.Arithmetic

/-!
# The parser and the evaluator of expr

A parser that climbs from one binding power to the next makes a tree of the arguments of `src/applets/base/expr/expr.c`,
and the evaluator walks over it. The functions of the C library are parameters.
-/

namespace Bx.Expr

open Kit

/-! ## Tokens -/

inductive BinaryOp
  | or
  | and
  | compare (op : CompareOp)
  | arith (op : ArithOp)
  | colon
  deriving DecidableEq

inductive TokenKind
  | word
  | lparen
  | rparen
  | op (op : BinaryOp)
  | kwMatch
  | kwSubstr
  | kwIndex
  | kwLength
  deriving DecidableEq

def classifyToken (text : Bytes) : TokenKind :=
  if text = ascii "(" then .lparen
  else if text = ascii ")" then .rparen
  else if text = ascii "|" then .op .or
  else if text = ascii "&" then .op .and
  else if text = ascii "<" then .op (.compare .lt)
  else if text = ascii "<=" then .op (.compare .le)
  else if text = ascii "=" ∨ text = ascii "==" then .op (.compare .eq)
  else if text = ascii "!=" then .op (.compare .ne)
  else if text = ascii ">=" then .op (.compare .ge)
  else if text = ascii ">" then .op (.compare .gt)
  else if text = ascii "+" then .op (.arith .add)
  else if text = ascii "-" then .op (.arith .sub)
  else if text = ascii "*" then .op (.arith .mul)
  else if text = ascii "/" then .op (.arith .div)
  else if text = ascii "%" then .op (.arith .mod)
  else if text = ascii ":" then .op .colon
  else if text = ascii "match" then .kwMatch
  else if text = ascii "substr" then .kwSubstr
  else if text = ascii "index" then .kwIndex
  else if text = ascii "length" then .kwLength
  else .word

/-- The `token_lbp` of an operator. That of every other token is zero. -/
def BinaryOp.lbp : BinaryOp → Nat
  | or => 10
  | and => 20
  | compare _ => 30
  | arith .add | arith .sub => 40
  | arith .mul | arith .div | arith .mod => 50
  | colon => 60

def prefixBindingPower : Nat := 70

def exprParseMaxDepth : Nat := 256

inductive Node
  | literal (text : Bytes)
  | binary (op : BinaryOp) (left right : Node)
  | prefixLength (arg : Node)
  | prefixMatch (a b : Node)
  | prefixIndex (a b : Node)
  | prefixSubstr (a b c : Node)

inductive ParseError
  | tooDeep
  | expectedParen
  | missingAfterPlus
  | near (text : Bytes)
  | missingOperand
  | unexpected (text : Bytes)

def ParseError.message : ParseError → Bytes
  | tooDeep => ascii "expression nesting too deep"
  | expectedParen => ascii "syntax error: expected ')'"
  | missingAfterPlus => ascii "syntax error: missing operand after '+'"
  | near text => ascii "syntax error near " ++ text
  | missingOperand => ascii "missing operand"
  | unexpected text => ascii "syntax error: unexpected argument '" ++ text ++ ascii "'"

/-! ## Parsing -/

abbrev Parse := Except ParseError (Node × List Bytes)

variable (sub : Nat → List Bytes → Parse)

/-- `sub` is `parse_expr` one level deeper. Where an operand of a keyword fails, the source
parses the next ones as well, but it keeps the first error. -/
def parseNud (tok : Bytes) (rest : List Bytes) : Parse :=
  match classifyToken tok with
  | .word => .ok (.literal tok, rest)
  | .lparen =>
    (sub 0 rest).bind fun (node, rest) =>
      match rest with
      | [] => .error .expectedParen
      | next :: rest => if classifyToken next = .rparen then .ok (node, rest) else .error .expectedParen
  | .op (.arith .add) =>
    match rest with
    | [] => .error .missingAfterPlus
    | quoted :: rest => .ok (.literal quoted, rest)
  | .kwLength => (sub prefixBindingPower rest).bind fun (a, rest) => .ok (.prefixLength a, rest)
  | .kwMatch =>
    (sub prefixBindingPower rest).bind fun (a, rest) =>
      (sub prefixBindingPower rest).bind fun (b, rest) => .ok (.prefixMatch a b, rest)
  | .kwIndex =>
    (sub prefixBindingPower rest).bind fun (a, rest) =>
      (sub prefixBindingPower rest).bind fun (b, rest) => .ok (.prefixIndex a b, rest)
  | .kwSubstr =>
    (sub prefixBindingPower rest).bind fun (a, rest) =>
      (sub prefixBindingPower rest).bind fun (b, rest) =>
        (sub prefixBindingPower rest).bind fun (c, rest) => .ok (.prefixSubstr a b c, rest)
  | .rparen | .op _ => .error (.near tok)

def parseLed (op : BinaryOp) (left : Node) (rest : List Bytes) : Parse :=
  (sub op.lbp rest).bind fun (right, rest) => .ok (.binary op left right, rest)

/-- The operator that comes next, if it binds more tightly than `rbp` -/
def nextOp (rbp : Nat) : List Bytes → Option (BinaryOp × List Bytes)
  | [] => none
  | tok :: rest =>
    match classifyToken tok with
    | .op op => if op.lbp ≤ rbp then none else some (op, rest)
    | _ => none

/-- The loop over the operators, for up to `fuel` of them -/
def parseLoop (sub : Nat → List Bytes → Parse) (rbp : Nat) : Nat → Node → List Bytes → Parse
  | 0, left, toks => .ok (left, toks)
  | fuel + 1, left, toks =>
    match nextOp rbp toks with
    | none => .ok (left, toks)
    | some (op, rest) => (parseLed sub op left rest).bind fun (left, rest) => parseLoop sub rbp fuel left rest

/-- With `depth` levels of nesting left -/
def parseExpr : Nat → Nat → List Bytes → Parse
  | 0, _, _ => .error .tooDeep
  | _ + 1, _, [] => .error .missingOperand
  | depth + 1, rbp, tok :: rest =>
    (parseNud (parseExpr depth) tok rest).bind fun (left, rest) =>
      parseLoop (parseExpr depth) rbp rest.length left rest

def parseWithin (depth : Nat) (args : List Bytes) : Except ParseError Node :=
  (parseExpr depth 0 args).bind fun (root, rest) =>
    match rest with
    | [] => .ok root
    | arg :: _ => .error (.unexpected arg)

def parseArgs (args : List Bytes) : Except ParseError Node := parseWithin exprParseMaxDepth args

/-! ## The C library -/

/-- A compiled expression: how many groups it has, and where they and the whole of it match -/
structure Regex where
  nsub : Nat
  exec : Bytes → Except String (Option (List (Int × Int)))

/-- `mbrtowc` gives the length of a character, and nothing for a text that starts with none. -/
structure Libc where
  strcoll : Bytes → Bytes → Ordering
  regcomp : Bytes → Except String Regex
  State : Type
  initial : State
  mbrtowc : State → Bytes → Option Nat × State

variable (libc : Libc)

variable (s : Bytes)

def mbsNextLen (state : libc.State) : Nat × libc.State :=
  match libc.mbrtowc state s with
  | (none, _) => (1, libc.initial)
  | (some n, state) => (n, state)

def mbsCharsFrom : Nat → libc.State → Bytes → List Bytes
  | 0, _, _ => []
  | fuel + 1, state, s =>
    if s = [] then []
    else
      let (n, state) := mbsNextLen libc s state
      if n = 0 ∨ s.length < n then [] else s.take n :: mbsCharsFrom fuel state (s.drop n)

def mbsChars : List Bytes := mbsCharsFrom libc s.length libc.initial s

def mbsCharToByteOffset (charIndex : Nat) : Option Nat :=
  if charIndex ≤ (mbsChars libc s).length then some ((mbsChars libc s).take charIndex).flatten.length else none

def mbsSubstr (pos len : Int) : Bytes :=
  if pos ≤ 0 ∨ len ≤ 0 then []
  else
    match mbsCharToByteOffset libc s (pos - 1).toNat with
    | none => []
    | some startByte =>
      let endByte := (mbsCharToByteOffset libc s ((pos - 1).toNat + len.toNat)).getD s.length
      (s.drop startByte).take (endByte - startByte)

def mbsIndexAny (s chars : Bytes) : Nat :=
  if mbsChars libc chars = [] then 0
  else
    match (mbsChars libc s).findIdx? (mbsChars libc chars).contains with
    | none => 0
    | some i => i + 1

/-! ## Evaluation -/

def valueIsNull : Value → Bool
  | .int i => i.val == 0
  | .string s => s.isEmpty || (parseIntegerView s).any (·.sign == 0)

def valueToIntForSubstr : Value → Option IntMax
  | .int i => some i
  | .string s => parseIntmaxString s

def Outcome.bind (o : Outcome) (f : Value → Outcome) : Outcome :=
  match o with
  | value v => f v
  | error message => .error message
  | overflow => .overflow
  | hangs => .hangs

def countValue (n : Nat) (outOfRange : Outcome) : Outcome :=
  if h : (n : Int) < 2 ^ 63 then .value (.int ⟨n, by omega, h⟩) else outOfRange

def evalRegexMatch (input pattern : Bytes) : Outcome :=
  match libc.regcomp (ascii "^" ++ pattern) with
  | .error message => .error ("invalid regular expression: " ++ message)
  | .ok re =>
    match re.exec input with
    | .error message => .error ("regular expression error: " ++ message)
    | .ok none => .value (if 0 < re.nsub then .string [] else truth false)
    | .ok (some spans) =>
      if 0 < re.nsub then
        let (so, eo) := spans.getD 1 (-1, -1)
        .value (.string (if so < 0 ∨ eo < so then [] else (input.drop so.toNat).take (eo - so).toNat))
      else
        let (so, eo) := spans.getD 0 (-1, -1)
        let start := so.toNat
        let stop := if eo < 0 ∨ eo < so then start else eo.toNat
        countValue (mbsChars libc ((input.drop start).take (stop - start))).length (.error "result out of range")

def evalNode : Node → Outcome
  | .literal text => .value (.string text)
  | .binary .or left right =>
    (evalNode left).bind fun l =>
      if !valueIsNull l then .value l
      else (evalNode right).bind fun r => if valueIsNull r then .value (truth false) else .value r
  | .binary .and left right =>
    (evalNode left).bind fun l =>
      if valueIsNull l then .value (truth false)
      else (evalNode right).bind fun r => if valueIsNull r then .value (truth false) else .value l
  | .binary (.compare op) left right =>
    (evalNode left).bind fun l => (evalNode right).bind fun r => .value (evalCompare libc.strcoll op l r)
  | .binary (.arith op) left right => (evalNode left).bind fun l => (evalNode right).bind fun r => evalArith op l r
  | .binary .colon left right =>
    (evalNode left).bind fun l => (evalNode right).bind fun r => evalRegexMatch libc l.toText r.toText
  | .prefixLength arg => (evalNode arg).bind fun v => countValue (mbsChars libc v.toText).length (.error "result out of range")
  | .prefixMatch a b =>
    (evalNode a).bind fun l => (evalNode b).bind fun r => evalRegexMatch libc l.toText r.toText
  | .prefixIndex a b =>
    (evalNode a).bind fun l => (evalNode b).bind fun r => countValue (mbsIndexAny libc l.toText r.toText) .overflow
  | .prefixSubstr a b c =>
    (evalNode a).bind fun sv => (evalNode b).bind fun pv => (evalNode c).bind fun lv =>
      match valueToIntForSubstr pv, valueToIntForSubstr lv with
      | some pos, some len => .value (.string (mbsSubstr libc sv.toText pos len))
      | _, _ => .value (.string [])

end Bx.Expr
