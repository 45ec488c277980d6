import Bx.Kit.Bytes
import Bx.Kit.GreedyPack
import Bx.Kit.FdTable

/-!
# Batches of arguments

`bx_argv_select_batch_count` from `src/lib/argv_packer.c` takes as many items for one command as three limits allow: how
many arguments, from how many lines, and how many bytes. A size that cannot be counted ends the call.
-/

namespace Bx.ArgvPacker

open Kit

def sizeMax : Nat := 2 ^ 64 - 1

def sizeofPointer : Nat := 8

/-! ## Sizes -/

def addSize (total value : Nat) : Option Nat := if sizeMax - total < value then none else some (total + value)

def stringBytes (arg : Bytes) : Option Nat := if arg.length = sizeMax then none else some (arg.length + 1)

def pointerBytes (argc : Nat) : Option Nat := if sizeMax / sizeofPointer < argc then none else some (argc * sizeofPointer)

def countOne (argc : Nat) : Option Nat := if argc = intMax then none else some (argc + 1)

def addStrings : List Bytes → Nat × Nat → Option (Nat × Nat)
  | [], counted => some counted
  | arg :: args, (total, argc) =>
    (stringBytes arg).bind fun argBytes =>
      (addSize total argBytes).bind fun total => (countOne argc).bind fun argc => addStrings args (total, argc)

/-- `(size_t)-1` where a sum does not fit -/
def bytesWithItems (baseArgv items : List Bytes) (start count : Nat) : Nat :=
  if 0 < count ∧ intMax - (count - 1) < start then sizeMax
  else
    (((addStrings baseArgv (0, 0)).bind (addStrings ((items.drop start).take count))).bind fun counted =>
      (pointerBytes counted.2).bind (addSize counted.1)).getD sizeMax

/-! ## Selection -/

structure Request where
  baseArgv : List Bytes
  items : List Bytes
  lineGroups : Option (List Int) := none
  maxArgs : Int := 0
  maxLines : Int := 0
  charLimit : Nat := 0

namespace Request

variable (r : Request)

def itemCount : Nat := r.items.length

def group (i : Nat) : Int := r.lineGroups.elim (i : Int) fun groups => groups.getD i 0

variable (start : Nat)

def cappedArgs : Nat := if 0 < r.maxArgs then r.maxArgs.toNat else r.itemCount - start

def cappedLines : Nat := if 0 < r.maxLines then r.maxLines.toNat else r.itemCount - start

/-- What has been taken, and of how many lines; an item of a new line has another group than the last one. -/
structure Taking where
  take : Nat := 0
  usedLines : Nat := 0
  lastGroup : Int := -1

def finish (t : Taking) : Option Nat := if 0 < t.take then some t.take else none

/-- Nothing is -1; `fuel` is how many items there are. -/
def selectFrom (start : Nat) : Nat → Taking → Option Nat
  | 0, t => finish t
  | fuel + 1, t =>
    if start + t.take < r.itemCount ∧ t.take < r.cappedArgs start then
      let group := r.group (start + t.take)
      let newGroup := t.take = 0 ∨ group ≠ t.lastGroup
      if newGroup ∧ r.cappedLines start ≤ t.usedLines then finish t
      else
        let bytes := bytesWithItems r.baseArgv r.items start (t.take + 1)
        if bytes = sizeMax then none
        else if 0 < r.charLimit ∧ r.charLimit < bytes then finish t
        else
          selectFrom start fuel
            (if newGroup then ⟨t.take + 1, t.usedLines + 1, group⟩ else { t with take := t.take + 1 })
    else finish t

def selectBatchCount : Option Nat :=
  if r.itemCount < start then none else r.selectFrom start (r.itemCount + 1) {}

def selectAll : List Nat × Option Nat := packAll r.itemCount r.selectBatchCount r.itemCount 0

/-! ## What fits -/

def lineCount (start : Nat) : Nat → Nat
  | 0 => 0
  | count + 1 =>
    lineCount start count + if count = 0 ∨ r.group (start + count) ≠ r.group (start + count - 1) then 1 else 0

def stringSizes (args : List Bytes) : Nat := (args.map fun arg => arg.length + 1).sum

def batchBytes (start count : Nat) : Nat :=
  stringSizes r.baseArgv + stringSizes ((r.items.drop start).take count) + (r.baseArgv.length + count) * sizeofPointer

def Allows (start count : Nat) : Prop :=
  (0 < r.maxArgs → count ≤ r.maxArgs) ∧ (0 < r.maxLines → r.lineCount start count ≤ r.maxLines)

def Fits (start count : Nat) : Prop := r.Allows start count ∧ (0 < r.charLimit → r.batchBytes start count ≤ r.charLimit)

/-- The size fits into a `size_t`, and the number of arguments into an `int`. -/
def Measurable (start count : Nat) : Prop :=
  r.batchBytes start count < sizeMax ∧ r.baseArgv.length + count ≤ intMax ∧ start + count ≤ intMax + 1

/-- The first item does not fit alone, or the batch cannot be measured with the next item. -/
def Stops : Prop :=
  ¬r.Fits start 1 ∨
    ∃ count, start + count < r.itemCount ∧ (0 < count → r.Fits start count) ∧ r.Allows start (count + 1) ∧
      ¬r.Measurable start (count + 1)

end Request

end Bx.ArgvPacker
