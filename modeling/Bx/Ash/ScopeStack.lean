import Bx.Ash.Variables
import Bx.Kit.Memory

/-!
# The scope stack

`src/applets/shell/ash/scope.c`, with what `src/applets/shell/ash/variables.c` does to the scopes. A scope may have
positional parameters: an array of strings that is the caller's or the frame's own, in a memory that says when a pointer
leads nowhere. A computation that reads memory which is gone is `none`.
-/

namespace Bx.Ash.Scopes

open Bx.Kit

/-! ## Positional parameters -/

inductive Cell
  | text (s : CStr)
  | array (elements : List (Option Nat))

abbrev Heap := Memory Cell

structure Pointer where
  base : Nat
  offset : Nat
  deriving DecidableEq

variable (heap : Heap)

/-- A null pointer among the elements is `some none`. -/
def elementAt (values : Option Pointer) (i : Nat) : Option (Option Nat) :=
  match values with
  | none => none
  | some p =>
    match heap.read p.base with
    | some (.array elements) => elements[p.offset + i]?
    | _ => none

def textAt (a : Nat) : Option CStr :=
  match heap.read a with
  | some (.text s) => some s
  | _ => none

def valuesFrom (heap : Heap) (values : Option Pointer) : Nat → Nat → Option (List CStr)
  | 0, _ => some []
  | left + 1, i => do
    let element ← elementAt heap values i
    let text ← textAt heap (← element)
    let rest ← valuesFrom heap values left (i + 1)
    some (text :: rest)

structure PositionalFrame where
  argv0 : Option CStr := none
  values : Option Pointer := none
  count : Nat := 0
  ownedValues : Option Nat := none
  ownedCount : Nat := 0
  deriving DecidableEq

/-- `$1`, `$2` and so on -/
def PositionalFrame.texts (p : PositionalFrame) : Option (List CStr) := valuesFrom heap p.values p.count 0

def ownedStrings (p : PositionalFrame) : List Nat :=
  (List.range p.ownedCount).filterMap fun i => (elementAt heap (p.ownedValues.map (⟨·, 0⟩)) i).join

def positionalFrameDestroy (p : PositionalFrame) : Heap :=
  let freed := heap.freeAll (ownedStrings heap p)
  match p.ownedValues with
  | none => freed
  | some base => freed.free base

/-- `succeeds` says which of the allocations do. -/
def copyLoop (succeeds : Nat → Bool) (values : Option Pointer) (output : Nat) :
    (left i : Nat) → (owned : List Nat) → Heap → Option (Heap × Bool × List Nat)
  | 0, _, owned, heap => some (heap, true, owned)
  | left + 1, i, owned, heap =>
    match elementAt heap values i with
    | none => none
    | some none => some (heap, false, owned)
    | some (some a) =>
      match textAt heap a with
      | none => none
      | some text =>
        if !succeeds (i + 1) then some (heap, false, owned)
        else
          let r := heap.alloc (.text text)
          let owned := owned ++ [r.2]
          copyLoop succeeds values output left (i + 1) owned (r.1.write output (.array (owned.map some)))

/-- The largest number of pointers whose size is a `size_t` -/
def maxPointers : Nat := (2 ^ 64 - 1) / 8

/-- Null where the copy fails -/
def positionalFrameCopy (succeeds : Nat → Bool) (heap : Heap) (source : PositionalFrame) :
    Option (Heap × Option PositionalFrame) :=
  if source.argv0 = none ∨ (source.count ≠ 0 ∧ source.values = none) then some (heap, none)
  else if source.count > maxPointers then some (heap, none)
  else if source.count = 0 then some (heap, some { argv0 := source.argv0 })
  else if !succeeds 0 then some (heap, none)
  else
    let r := heap.alloc (.array [])
    match copyLoop succeeds source.values r.2 source.count 0 [] r.1 with
    | none => none
    | some (heap, done, owned) =>
      let copy : PositionalFrame :=
        { argv0 := source.argv0, values := some ⟨r.2, 0⟩, ownedValues := some r.2, ownedCount := owned.length }
      if done then some (heap, some { copy with count := source.count })
      else some (positionalFrameDestroy heap copy, none)

/-! ## The stack -/

/-- What a scope has besides its kind and its variables -/
structure ScopeFrame where
  hasPositionals : Bool := false
  positionals : PositionalFrame := {}
  deriving DecidableEq

structure ScopeStack where
  shell : Shell
  frames : List ScopeFrame
  heap : Heap

/-- `ash_scope_positionals` -/
def active : List ScopeFrame → Option PositionalFrame
  | [] => none
  | frame :: below => if frame.hasPositionals then some frame.positionals else active below

def updateActive (p : PositionalFrame) : List ScopeFrame → List ScopeFrame
  | [] => []
  | frame :: below =>
    if frame.hasPositionals then { frame with positionals := p } :: below else frame :: updateActive p below

def varListInvariants (vars : List Var) : Bool := decide (vars.map (·.name)).Nodup && vars.all (·.attributes.valid)

def positionalsInvariants (p : PositionalFrame) : Bool :=
  p.argv0.isSome && (p.count = 0 || p.values.isSome) && (p.ownedValues.isSome || p.ownedCount = 0) &&
    (p.ownedValues.isNone || p.count ≤ p.ownedCount)

def frameInvariants (kind : ScopeKind) (frame : ScopeFrame) : Bool :=
  frame.hasPositionals = (kind = .global || kind = .function) &&
    if frame.hasPositionals then positionalsInvariants frame.positionals else frame.positionals = {}

def scopesInvariants : List Scope → List ScopeFrame → (globalCount : Nat) → Bool
  | [], [], globalCount => globalCount = 1
  | scope :: parents, frame :: frames, globalCount =>
    varListInvariants scope.vars && (scope.kind ≠ .global || parents.isEmpty) && frameInvariants scope.kind frame &&
      scopesInvariants parents frames (if scope.kind = .global then globalCount + 1 else globalCount)
  | _, _, _ => false

variable (s : ScopeStack)

def scopeStackInvariants : Bool :=
  !s.shell.scopes.isEmpty && decide s.shell.pendingExports.Nodup && scopesInvariants s.shell.scopes s.frames 0

def stackInit (shell : Shell) (heap : Heap) (argv0 : CStr) (values : Option Pointer) (count : Nat) : ScopeStack where
  shell
  frames := [⟨true, { argv0 := some argv0, values, count }⟩]
  heap

def setPositionals (values : Option Pointer) (count : Nat) (succeeds : Nat → Bool) : Option (Bool × ScopeStack) :=
  match active s.frames with
  | none => some (false, s)
  | some previous =>
    match positionalFrameCopy succeeds s.heap { argv0 := previous.argv0, values, count } with
    | none => none
    | some (heap, none) => some (false, { s with heap })
    | some (heap, some replacement) =>
      some (true, { s with
        frames := updateActive replacement s.frames
        heap := positionalFrameDestroy heap previous })

/-- What the `shift` built-in does to the frame -/
def shift (count : Nat) : Bool × ScopeStack :=
  match active s.frames with
  | none => (false, s)
  | some p =>
    if count > p.count then (false, s)
    else
      let values := if count ≠ 0 then p.values.map fun q => { q with offset := q.offset + count } else p.values
      (true, { s with frames := updateActive { p with values, count := p.count - count } s.frames })

def pushTemporary (memory : Bool) : Bool × ScopeStack :=
  if s.shell.scopes.isEmpty || !memory then (false, s)
  else
    (true, { s with
      shell := { s.shell with scopes := ⟨.temporaryAssignment, []⟩ :: s.shell.scopes }
      frames := {} :: s.frames })

def pushFunction (values : Option Pointer) (count : Nat) (memory : Bool) : Bool × ScopeStack :=
  if s.shell.scopes.isEmpty || (count > 0 && values.isNone) then (false, s)
  else
    match active s.frames with
    | none => (false, s)
    | some caller =>
      if !memory then (false, s)
      else
        (true, { s with
          shell := { s.shell with scopes := ⟨.function, []⟩ :: s.shell.scopes }
          frames := ⟨true, { argv0 := caller.argv0, values, count }⟩ :: s.frames })

/-! ## Publication that may fail -/

section
variable (setenv locale : Name → Bool)

def publishVisible (s : Shell) (name : Name) : Bool × Shell :=
  if (published (visible s.scopes name)).isSome && !setenv name then (false, s)
  else (locale name, publishEnvironment s name)

/-- The loop over the variables of a scope that is gone -/
def publishRemoved : List Name → Shell → Bool × Shell
  | [], s => (true, s)
  | name :: rest, s =>
    let r := publishVisible setenv locale s name
    if r.1 then publishRemoved rest r.2 else (false, (publishRemoved rest (deferPublication r.2 name)).2)

inductive PopResult
  | mismatch
  | ok
  | publicationError

def pop (s : ScopeStack) (expected : ScopeKind) : PopResult × ScopeStack :=
  match s.shell.scopes, s.frames with
  | removed :: parents, frame :: frames =>
    if removed.kind = .global || removed.kind ≠ expected then (.mismatch, s)
    else
      let r := publishRemoved setenv locale (removed.vars.map (·.name)) { s.shell with scopes := parents }
      (if r.1 then .ok else .publicationError,
        { shell := r.2, frames, heap := positionalFrameDestroy s.heap frame.positionals })
  | _, _ => (.mismatch, s)

def publishPending : List Name → Shell → Bool × Shell
  | [], s => (true, { s with pendingExports := [] })
  | name :: rest, s =>
    let r := publishVisible setenv locale s name
    if r.1 then publishPending rest r.2 else (false, { r.2 with pendingExports := name :: rest })

def unset (s : Shell) (name : Name) : Bool × Shell :=
  match lookup s.scopes name with
  | none => (true, s)
  | some (i, var) =>
    if var.attributes.readonly then (false, s)
    else
      let r := publishVisible setenv locale { s with scopes := modifyScope s.scopes i (·.eraseP (·.name = name)) } name
      (r.1, if r.1 then r.2 else deferPublication r.2 name)

/-- A binding that cannot be published is put back as it was. -/
def unlessRefused (s : Shell) (name : Name) (r : Bool × Shell) : Bool × Shell :=
  if (published (visible r.2.scopes name)).isSome && !setenv name then (false, s) else r

end

/-! ## Lookup -/

inductive LookupMode
  | visible
  | current
  | global
  | outer

def findInFrame (scope : Scope) (name : CStr) : Option Var := scope.vars.find? (·.name.text = name)

def searchScopes (name : CStr) : List Scope → Option (Nat × Var)
  | [] => none
  | scope :: parents =>
    match findInFrame scope name with
    | some var => some (0, var)
    | none => (searchScopes name parents).map fun found => (found.1 + 1, found.2)

variable (scopes : List Scope)

def lookupRaw (name : CStr) : LookupMode → Option (Nat × Var)
  | .visible => searchScopes name scopes
  | .current => searchScopes name (scopes.take 1)
  | .global => (scopeGlobal scopes).bind fun i => (scopes[i]?.bind (findInFrame · name)).map (i, ·)
  | .outer => (searchScopes name scopes.tail).map fun found => (found.1 + 1, found.2)

def scopeVariableCount : Nat := (scopes.map (·.vars.length)).sum

inductive LookupStatus
  | found (scope : Nat) (var : Var)
  | unset (name : CStr)
  | invalidNameref (name : Option CStr)
  | namerefCycle

/-- `left` is how many references may still be followed. -/
def followLoop (scopes : List Scope) : (left : Nat) → Nat × Var → LookupStatus
  | left, (scope, var) =>
    if !var.attributes.nameref then .found scope var
    else
      match left with
      | 0 => .namerefCycle
      | left + 1 =>
        match var.value.getScalar with
        | none => .invalidNameref none
        | some target =>
          if !isValidNameSpan target then .invalidNameref (some target)
          else
            match lookupRaw scopes target .visible with
            | none => .unset target
            | some next => followLoop scopes left next

def scopeLookup (name : CStr) (mode : LookupMode) (followNameref : Bool) : LookupStatus :=
  match lookupRaw scopes name mode with
  | none => .unset name
  | some (scope, var) =>
    if followNameref then followLoop scopes (scopeVariableCount scopes) (scope, var) else .found scope var

/-! ## Runs -/

inductive StackOp
  | assign (scope : Option Nat) (name : Name) (value : Option CStr) («local» forceExport : Bool) (faults : Faults)
      (setenv : Name → Bool)
  | updateAttributes (name : Name) (set clear : Attributes) (faults : Faults) (setenv : Name → Bool)
  | readonly (name : Name) (faults : Faults) (setenv : Name → Bool)
  | unset (name : Name) (setenv locale : Name → Bool)
  | publishPending (setenv locale : Name → Bool)
  | allexport (on : Bool)
  | pushTemporary (memory : Bool)
  | pushFunction (values : Option Pointer) (count : Nat) (memory : Bool)
  | pop (kind : ScopeKind) (setenv locale : Name → Bool)
  | setPositionals (values : Option Pointer) (count : Nat) (succeeds : Nat → Bool)
  | shift (count : Nat)
  /-- A caller allocates something that it may pass on. -/
  | lend (cell : Cell)

/-- The assignments of the shell are one or two of `assign`, each to a scope of its own. -/
def runVarOp (s : Shell) : StackOp → Shell
  | .assign scope name value isLocal forceExport faults setenv =>
    (unlessRefused setenv s name (setInScope s scope name value { «local» := isLocal } forceExport faults)).2
  | .updateAttributes name set clear faults setenv =>
    (unlessRefused setenv s name (Ash.updateAttributes s name set clear faults)).2
  | .readonly name faults setenv => (unlessRefused setenv s name (readonlyVar s name faults)).2
  | .unset name setenv locale => (unset setenv locale s name).2
  | .publishPending setenv locale => (publishPending setenv locale s.pendingExports s).2
  | .allexport on => { s with allexport := on }
  | _ => s

def runStackOp : StackOp → Option ScopeStack
  | .pushTemporary memory => some (pushTemporary s memory).2
  | .pushFunction values count memory => some (pushFunction s values count memory).2
  | .pop kind setenv locale => some (pop setenv locale s kind).2
  | .setPositionals values count succeeds => (setPositionals s values count succeeds).map (·.2)
  | .shift count => some (shift s count).2
  | .lend cell => some { s with heap := (s.heap.alloc cell).1 }
  | op => some { s with shell := runVarOp s.shell op }

/-- Where the caller's array and what its elements point to are allocated -/
def Readable (values : Option Pointer) (count : Nat) : Prop :=
  ∀ i, i < count → ∃ element, elementAt heap values i = some element ∧ ∀ a, element = some a → (textAt heap a).isSome = true

/-- What callers promise about the pointers they pass -/
def Promised : StackOp → Prop
  | .pushFunction values count _ => values ≠ none → (valuesFrom s.heap values count 0).isSome = true
  | .setPositionals values count _ => values ≠ none → Readable s.heap values count
  | _ => True

def system : System ScopeStack StackOp where
  init s := ∃ entries allexport heap lent argv0 values count, Owns heap lent ∧
    (valuesFrom heap values count 0).isSome = true ∧ s = stackInit (fresh entries allexport) heap argv0 values count
  step s op t := Promised s op ∧ runStackOp s op = some t

end Bx.Ash.Scopes
