import Bx.Kit.Bytes
import Bx.Kit.Delimited
import Bx.Kit.Loop
import Bx.Kit.MergeColumns
import Mathlib.Data.List.Lex

/-!
# comm

The merge of two files from `src/applets/base/comm/comm.c`. A line is kept with
its delimiter, in a buffer that ends with a NUL, and it is such buffers that are
compared. Both files are open, and neither reading nor writing fails.
-/

namespace Bx.Comm

open Kit

structure Options where
  suppress1 : Bool := false
  suppress2 : Bool := false
  suppress3 : Bool := false
  checkOrder : Bool := false
  noCheckOrder : Bool := false
  outputDelimiter : Bytes := [9]
  total : Bool := false
  zeroTerminated : Bool := false

variable (options : Options)

def Options.suppressed : Column → Bool
  | .first => options.suppress1
  | .second => options.suppress2
  | .both => options.suppress3

def recordDelimiter (zeroTerminated : Bool) : UInt8 := if zeroTerminated then 0 else 10

/-- What `getdelim` returns call by call -/
def readLines (zeroTerminated : Bool) (content : Bytes) : List Bytes := delimited (recordDelimiter zeroTerminated) content

/-! ## Comparing lines -/

def byteOrder (bytes : Bytes) : List Nat := bytes.map UInt8.toNat

/-- What `strcmp` sees of a buffer -/
def strKey (line : Bytes) : List Nat := byteOrder (cText line)

def strcmp (s t : Bytes) : Ordering := compareBy strKey s t

def notSorted (filenum : Nat) : String := "file " ++ toString filenum ++ " is not in sorted order"

structure Checked where
  goOn : Bool
  ok : Bool
  diags : List String := []

def checkFileOrder (filenum : Nat) (prev : Option Bytes) (curr : Bytes) (ok forceFatal : Bool) : Checked :=
  if prev.any fun data => strcmp data curr = .gt then
    if forceFatal then ⟨false, ok, [notSorted filenum]⟩
    else if ok then ⟨true, false, [notSorted filenum]⟩
    else ⟨true, ok, []⟩
  else ⟨true, ok, []⟩

/-! ## The merge -/

structure State where
  lines1 : List Bytes
  lines2 : List Bytes
  prev1 : Option Bytes := none
  prev2 : Option Bytes := none
  count1 : Nat := 0
  count2 : Nat := 0
  count3 : Nat := 0
  orderOk1 : Bool := true
  orderOk2 : Bool := true
  printed : List (Column × Bytes) := []
  diags : List String := []

/-- A nonzero exit status comes with a diagnostic; the last message is none of those. -/
structure Result where
  printed : List (Column × Bytes)
  total : Option (Nat × Nat × Nat)
  diags : List String
  exitStatus : Nat

def State.printColumn (c : Column) (line : Bytes) (s : State) : State :=
  { s with printed := if options.suppressed c then s.printed else s.printed ++ [(c, line)] }

def State.cleanup (s : State) (diags : List String) : Result := ⟨s.printed, none, s.diags ++ diags, 1⟩

def State.finish (s : State) : Result :=
  { printed := s.printed
    total := if options.total then some (s.count1, s.count2, s.count3) else none
    diags := s.diags ++ if !s.orderOk1 || !s.orderOk2 then ["comm: input is not in sorted order"] else []
    exitStatus := if s.diags = [] then 0 else 1 }

def takeFirst (a : Bytes) (s : State) : State ⊕ Result :=
  let check := if options.noCheckOrder then ⟨true, s.orderOk1, []⟩
    else checkFileOrder 1 s.prev1 a s.orderOk1 options.checkOrder
  if check.goOn then
    .inl { s.printColumn options .first a with
      lines1 := s.lines1.tail, prev1 := some a, count1 := s.count1 + 1
      orderOk1 := check.ok, diags := s.diags ++ check.diags }
  else .inr (s.cleanup check.diags)

def takeSecond (b : Bytes) (s : State) : State ⊕ Result :=
  let check := if options.noCheckOrder then ⟨true, s.orderOk2, []⟩
    else checkFileOrder 2 s.prev2 b s.orderOk2 options.checkOrder
  if check.goOn then
    .inl { s.printColumn options .second b with
      lines2 := s.lines2.tail, prev2 := some b, count2 := s.count2 + 1
      orderOk2 := check.ok, diags := s.diags ++ check.diags }
  else .inr (s.cleanup check.diags)

/-- A pair is checked with `--check-order` only. -/
def takeBoth (a b : Bytes) (s : State) : State ⊕ Result :=
  let check1 := if options.checkOrder then checkFileOrder 1 s.prev1 a s.orderOk1 true else ⟨true, s.orderOk1, []⟩
  let check2 := if options.checkOrder then checkFileOrder 2 s.prev2 b s.orderOk2 true else ⟨true, s.orderOk2, []⟩
  if !check1.goOn then .inr (s.cleanup check1.diags)
  else if !check2.goOn then .inr (s.cleanup check2.diags)
  else
    .inl { s.printColumn options .both a with
      lines1 := s.lines1.tail, lines2 := s.lines2.tail, prev1 := some a, prev2 := some b, count3 := s.count3 + 1
      orderOk1 := check1.ok, orderOk2 := check2.ok }

def step (s : State) : State ⊕ Result :=
  match s.lines1, s.lines2 with
  | [], [] => .inr (s.finish options)
  | a :: _, [] => takeFirst options a s
  | [], b :: _ => takeSecond options b s
  | a :: _, b :: _ =>
    match strcmp a b with
    | .eq => takeBoth options a b s
    | .lt => takeFirst options a s
    | .gt => takeSecond options b s

def commMain (content1 content2 : Bytes) : Option Result :=
  let lines1 := readLines options.zeroTerminated content1
  let lines2 := readLines options.zeroTerminated content2
  loop (step options) (lines1.length + lines2.length + 1) { lines1 := lines1, lines2 := lines2 }

end Bx.Comm
