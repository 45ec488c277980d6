import Bx.Kit.CString
import Bx.Kit.Transition

/-!
# The shell's variables and the process environment

The variable store of `src/applets/shell/ash/variables.c` and the scopes of `src/applets/shell/ash/scope.c`, of which
the first with a binding of a name has the visible one. Each operation publishes the name it has touched. `setenv` and
`unsetenv` succeed; memory and the locale are up to each call.
-/

namespace Bx.Ash

open Bx.Kit

/-! ## Names and values -/

def isNameStart (ch : Char) : Bool :=
  ('A' ≤ ch && ch ≤ 'Z') || ('a' ≤ ch && ch ≤ 'z') || ch = '_'

def isNameChar (ch : Char) : Bool := isNameStart ch || ('0' ≤ ch && ch ≤ '9')

def isValidNameSpan (text : CStr) : Bool :=
  match text with
  | [] => false
  | first :: rest => isNameStart first && rest.all isNameChar

structure Name where
  text : CStr
  valid : isValidNameSpan text = true
  deriving DecidableEq

/-- A scalar that is not set is `none`. -/
inductive Value
  | scalar (text : Option CStr)
  | indexedArray
  | associativeArray
  deriving DecidableEq

def Value.getScalar : Value → Option CStr
  | .scalar text => text
  | _ => none

structure Attributes where
  integer : Bool := false
  readonly : Bool := false
  «export» : Bool := false
  nameref : Bool := false
  «local» : Bool := false
  trace : Bool := false
  uppercase : Bool := false
  lowercase : Bool := false
  deriving DecidableEq

namespace Attributes

def or (a b : Attributes) : Attributes where
  integer := a.integer || b.integer
  readonly := a.readonly || b.readonly
  «export» := a.export || b.export
  nameref := a.nameref || b.nameref
  «local» := a.local || b.local
  trace := a.trace || b.trace
  uppercase := a.uppercase || b.uppercase
  lowercase := a.lowercase || b.lowercase

def and (a b : Attributes) : Attributes where
  integer := a.integer && b.integer
  readonly := a.readonly && b.readonly
  «export» := a.export && b.export
  nameref := a.nameref && b.nameref
  «local» := a.local && b.local
  trace := a.trace && b.trace
  uppercase := a.uppercase && b.uppercase
  lowercase := a.lowercase && b.lowercase

def not (a : Attributes) : Attributes where
  integer := !a.integer
  readonly := !a.readonly
  «export» := !a.export
  nameref := !a.nameref
  «local» := !a.local
  trace := !a.trace
  uppercase := !a.uppercase
  lowercase := !a.lowercase

def valid (a : Attributes) : Bool := !(a.uppercase && a.lowercase)

end Attributes

structure Var where
  name : Name
  value : Value
  attributes : Attributes
  deriving DecidableEq

inductive ScopeKind
  | global
  | temporaryAssignment
  | function
  deriving DecidableEq

structure Scope where
  kind : ScopeKind
  vars : List Var

structure Shell where
  /-- The current scope first. -/
  scopes : List Scope
  environ : Name → Option CStr
  pendingExports : List Name
  allexport : Bool

/-- What one call finds: memory for what it allocates, and a locale it can switch to. -/
structure Faults where
  memory : Bool
  locale : Bool

/-! ## Looking up -/

def Scope.find (scope : Scope) (name : Name) : Option Var := scope.vars.find? (·.name = name)

def lookup (scopes : List Scope) (name : Name) : Option (Nat × Var) :=
  match scopes with
  | [] => none
  | scope :: parents =>
    match scope.find name with
    | some var => some (0, var)
    | none => (lookup parents name).map fun found => (found.1 + 1, found.2)

variable (scopes : List Scope)

/-- `ASH_SCOPE_LOOKUP_OUTER` -/
def lookupOuter (name : Name) : Option (Nat × Var) :=
  (lookup scopes.tail name).map fun found => (found.1 + 1, found.2)

def visible (name : Name) : Option Var := (lookup scopes name).map (·.2)

def scopeGlobal : Option Nat :=
  match scopes.getLast? with
  | some scope => if scope.kind = .global then some (scopes.length - 1) else none
  | none => none

def scopeCurrentFunction : Option Nat := scopes.findIdx? (·.kind = .function)

def currentIsTemporary : Bool := scopes.head?.any (·.kind = .temporaryAssignment)

def published : Option Var → Option CStr
  | some var => if var.attributes.export then var.value.getScalar else none
  | none => none

variable (s : Shell)

def publishEnvironment (name : Name) : Shell :=
  { s with environ := Function.update s.environ name (published (visible s.scopes name)) }

def deferPublication (name : Name) : Shell :=
  if name ∈ s.pendingExports then s else { s with pendingExports := name :: s.pendingExports }

/-! ## Setting -/

def writable (var : Option Var) : Bool := !var.any (·.attributes.readonly)

def assignmentAllowed (name : Name) : Bool := writable (visible s.scopes name)

def updateVar (name : Name) (f : Var → Var) : List Var → List Var
  | [] => []
  | var :: rest => if var.name = name then f var :: rest else var :: updateVar name f rest

def modifyScope (i : Nat) (f : List Var → List Var) : List Scope :=
  scopes.modify i fun scope => { scope with vars := f scope.vars }

def createInScope (scope : Option Nat) (name : Name) (value : Option CStr) (attributes : Attributes)
    (faults : Faults) : Bool × Shell :=
  match scope with
  | none => (false, s)
  | some i =>
    if !faults.memory then (false, s)
    else
      let var : Var := { name, value := .scalar value, attributes }
      (faults.locale, publishEnvironment { s with scopes := modifyScope s.scopes i (var :: ·) } name)

def setInScope (scope : Option Nat) (name : Name) (value : Option CStr) (attributes : Attributes)
    (forceExport : Bool) (faults : Faults) : Bool × Shell :=
  match scope with
  | none => (false, s)
  | some i =>
    let var := s.scopes[i]?.bind (·.find name)
    if !assignmentAllowed s name || !writable var then (false, s)
    else
      let attributes := if forceExport || s.allexport then { attributes with «export» := true } else attributes
      match var with
      | none => createInScope s (some i) name value attributes faults
      | some _ =>
        if !faults.memory then (false, s)
        else
          let scopes := modifyScope s.scopes i (updateVar name fun var =>
            { var with value := .scalar value, attributes := var.attributes.or attributes })
          (faults.locale, publishEnvironment { s with scopes } name)

def setWithExport (name : Name) (value : Option CStr) (forceExport : Bool) (faults : Faults) : Bool × Shell :=
  let owner := ((lookup s.scopes name).map (·.1)).or (scopeGlobal s.scopes)
  setInScope s owner name value {} forceExport faults

def setLocal (name : Name) (value : Option CStr) (forceExport : Bool) (faults : Faults) : Bool × Shell :=
  setInScope s (scopeCurrentFunction s.scopes) name value { «local» := true } forceExport faults

def callerOwner (name : Name) : Option Nat :=
  let found := if currentIsTemporary scopes then lookupOuter scopes name else lookup scopes name
  (found.map (·.1)).or (scopeGlobal scopes)

def setCaller (name : Name) (value : Option CStr) (forceExport : Bool) (outer current : Faults) : Bool × Shell :=
  let r := setInScope s (callerOwner s.scopes name) name value {} forceExport outer
  if !r.1 then (false, r.2)
  else if !currentIsTemporary s.scopes || (r.2.scopes.head?.bind (·.find name)).isNone then (true, r.2)
  else setInScope r.2 (some 0) name value {} forceExport current

def setTemporary (name : Name) (value : Option CStr) (forceExport : Bool) (faults : Faults) : Bool × Shell :=
  if !currentIsTemporary s.scopes then (false, s)
  else setInScope s (some 0) name value {} forceExport faults

/-! ## Attributes -/

def updateAttributes (name : Name) (set clear : Attributes) (faults : Faults) : Bool × Shell :=
  match lookup s.scopes name with
  | none => (false, s)
  | some (i, var) =>
    if set.and clear ≠ {} then (false, s)
    else if var.attributes.readonly && clear.readonly then (false, s)
    else
      let candidate := (var.attributes.or set).and clear.not
      if !candidate.valid then (false, s)
      else
        let scopes := modifyScope s.scopes i (updateVar name fun var => { var with attributes := candidate })
        (faults.locale, publishEnvironment { s with scopes } name)

def exportVar (name : Name) (outer current : Faults) : Bool × Shell :=
  match lookup s.scopes name with
  | none => setWithExport s name none true outer
  | some (i, var) =>
    if i = 0 && currentIsTemporary s.scopes then setCaller s name var.value.getScalar true outer current
    else updateAttributes s name { «export» := true } {} outer

def readonlyVar (name : Name) (faults : Faults) : Bool × Shell :=
  match lookup s.scopes name with
  | some _ => updateAttributes s name { readonly := true } {} faults
  | none => createInScope s (scopeGlobal s.scopes) name none { readonly := true } faults

def unset (name : Name) (faults : Faults) : Bool × Shell :=
  match lookup s.scopes name with
  | none => (true, s)
  | some (i, var) =>
    if var.attributes.readonly then (false, s)
    else
      let scopes := modifyScope s.scopes i (·.eraseP (·.name = name))
      let s := publishEnvironment { s with scopes } name
      (faults.locale, if faults.locale then s else deferPublication s name)

/-! ## Scopes -/

/-- `ash_scope_push_temporary` and `ash_scope_push_function` -/
def scopePush (kind : ScopeKind) (faults : Faults) : Bool × Shell :=
  if s.scopes.isEmpty || kind = .global || !faults.memory then (false, s)
  else (true, { s with scopes := ⟨kind, []⟩ :: s.scopes })

/-- `ash_var_publish_visible` for the name of a binding that is gone. -/
def publishRemoved (locale : Name → Bool) (s : Shell) (name : Name) : Shell :=
  let s := publishEnvironment s name
  if locale name then s else deferPublication s name

def scopePop (expected : ScopeKind) (locale : Name → Bool) : Bool × Shell :=
  match s.scopes with
  | [] => (false, s)
  | removed :: parents =>
    if removed.kind = .global || removed.kind ≠ expected then (false, s)
    else
      (removed.vars.all fun var => locale var.name,
        (removed.vars.map (·.name)).foldl (publishRemoved locale) { s with scopes := parents })

/-- The loop of `ash_vars_publish_pending` over what is still pending. -/
def publishPending (locale : Name → Bool) : List Name → Shell → Bool × Shell
  | [], s => (true, { s with pendingExports := [] })
  | name :: rest, s =>
    let s := publishEnvironment s name
    if locale name then publishPending locale rest s else (false, { s with pendingExports := name :: rest })

/-! ## Runs -/

inductive Op
  | set (name : Name) (value : Option CStr) (forceExport : Bool) (faults : Faults)
  | setLocal (name : Name) (value : Option CStr) (forceExport : Bool) (faults : Faults)
  | setCaller (name : Name) (value : Option CStr) (forceExport : Bool) (outer current : Faults)
  | setTemporary (name : Name) (value : Option CStr) (forceExport : Bool) (faults : Faults)
  | export (name : Name) (outer current : Faults)
  | readonly (name : Name) (faults : Faults)
  | updateAttributes (name : Name) (set clear : Attributes) (faults : Faults)
  | unset (name : Name) (faults : Faults)
  | push (kind : ScopeKind) (faults : Faults)
  | pop (kind : ScopeKind) (locale : Name → Bool)
  | publishPending (locale : Name → Bool)
  | allexport (on : Bool)

def runOp : Op → Bool × Shell
  | .set name value forceExport faults => setWithExport s name value forceExport faults
  | .setLocal name value forceExport faults => setLocal s name value forceExport faults
  | .setCaller name value forceExport outer current => setCaller s name value forceExport outer current
  | .setTemporary name value forceExport faults => setTemporary s name value forceExport faults
  | .export name outer current => exportVar s name outer current
  | .readonly name faults => readonlyVar s name faults
  | .updateAttributes name set clear faults => updateAttributes s name set clear faults
  | .unset name faults => unset s name faults
  | .push kind faults => scopePush s kind faults
  | .pop kind locale => scopePop s kind locale
  | .publishPending locale => publishPending locale s.pendingExports s
  | .allexport on => (true, { s with allexport := on })

/-- The store that `ash_scope_stack_init` makes, in the environment the shell was started with. -/
def fresh (entries : List (Name × CStr)) (allexport : Bool) : Shell where
  scopes := [⟨.global, []⟩]
  environ name := (entries.find? (·.1 = name)).map (·.2)
  pendingExports := []
  allexport

def ifs : Name := ⟨['I', 'F', 'S'], rfl⟩

def importEntry (entry : Name × CStr) : Shell :=
  (setWithExport s entry.1 (some entry.2) true ⟨true, true⟩).2

/-- `ash_import_environment` up to the current directory: what follows are ordinary assignments. The entries are those
with a valid name. -/
def importEnvironment (entries : List (Name × CStr)) (s : Shell) : Shell :=
  let s := (entries.filter (·.1 ≠ ifs)).foldl importEntry s
  let s := { s with environ := Function.update s.environ ifs none }
  (setWithExport s ifs (some [' ', '\t', '\n']) false ⟨true, true⟩).2

def system : System Shell Op where
  init s := ∃ entries allexport, s = importEnvironment entries (fresh entries allexport)
  step s op t := t = (runOp s op).2

end Bx.Ash
