import Bx.Kit.Bytes
import Bx.Kit.Loop
import Bx.Kit.Subtree

/-!
# Recursive removal

Both implementations from `src/lib/remove_ops.c`: the one that calls itself with the open directory, and the one that
keeps a stack of names. A step fails or does not fail, whenever it is taken; nobody else changes the file system, there
is memory, and descriptors do not run out.
-/

namespace Bx.Remove

open Kit

/-! ## The file system -/

abbrev Loc := List Bytes

/-- `st_dev` and `st_ino` -/
structure Identity where
  dev : Nat
  ino : Nat
  deriving DecidableEq

inductive Kind
  | file
  | symlink (target : Option Loc)
  | directory
  deriving DecidableEq

/-- What `lstat` reports -/
structure Status where
  id : Identity
  kind : Kind

abbrev Fs := Loc → Option Status

inductive Errno
  | noent | isdir | notdir | loop | notempty | other
  deriving DecidableEq

inductive Step
  | lookup | open | unlink | rmdir

/-- The order in which `readdir` would return names, the steps that fail, and how long paths get -/
structure World where
  order : Loc → List Bytes
  fails : Step → Loc → Bool
  depth : Nat

namespace World
variable (w : World)

/-- `lstat` and `fstatat`, which do not follow a link -/
def lstat (fs : Fs) (q : Loc) : Except Errno Status :=
  if w.fails .lookup q then .error .other
  else match fs q with
    | none => .error .noent
    | some st => .ok st

/-- The directory that is opened; `O_NOFOLLOW` refuses a link. -/
def openDirectory (nofollow : Bool) (fs : Fs) (q : Loc) : Except Errno Loc :=
  if w.fails .open q then .error .other
  else match fs q with
    | none => .error .noent
    | some st =>
      match st.kind with
      | .directory => .ok q
      | .file => .error .notdir
      | .symlink target =>
        if nofollow then .error .loop
        else match target with
          | none => .error .noent
          | some t => if (fs t).any fun st => st.kind = .directory then .ok t else .error .notdir

def readdir (fs : Fs) (fd : Loc) : List Bytes := (w.order fd).filter fun name => (fs (fd ++ [name])).isSome

/-- `unlinkat` without and with `AT_REMOVEDIR` -/
def unlink (fs : Fs) (q : Loc) : Except Errno Fs :=
  if w.fails .unlink q then .error .other
  else match fs q with
    | none => .error .noent
    | some st => if st.kind = .directory then .error .isdir else .ok (removeAt fs q)

def rmdir (fs : Fs) (q : Loc) : Except Errno Fs :=
  if w.fails .rmdir q then .error .other
  else match fs q with
    | none => .error .noent
    | some st =>
      if st.kind ≠ .directory then .error .notdir
      else if w.readdir fs q ≠ [] then .error .notempty
      else .ok (removeAt fs q)

end World

/-! ## Steps with their messages -/

/-- The texts are `refusing to remove '%s': path changed during recursive removal`,
`refusing to remove '%s': directory cycle detected during recursive removal` and `%s: %s`. -/
inductive Diag
  | changed (path : Loc)
  | cycle (path : Loc)
  | perror (path : Loc) (e : Errno)

structure Run where
  fs : Fs
  removed : List Loc := []
  diags : List Diag := []

def Run.diag (r : Run) (d : Diag) : Run := { r with diags := r.diags ++ [d] }

def statMatchesExpected (expected : Option Identity) (actual : Status) : Bool := expected.all fun id => actual.id = id

section
variable (w : World)

variable (q : Loc)

def checkExpected (expected : Option Identity) (actual : Status) (r : Run) : Bool × Run :=
  if statMatchesExpected expected actual then (true, r) else (false, r.diag (.changed q))

def verifyEntry (expected : Option Identity) (r : Run) : Bool × Run :=
  match w.lstat r.fs q with
  | .error e => (false, r.diag (.perror q e))
  | .ok current => checkExpected q expected current r

/-- Nothing comes back when the directory cannot be opened or is another one by now. -/
def openDir (expected : Identity) (r : Run) : Option (Loc × Status) × Run :=
  match w.openDirectory true r.fs q with
  | .error e =>
    let changed := match w.lstat r.fs q with
      | .error _ => false
      | .ok current => decide (current.id ≠ expected)
    (none, r.diag (if changed then .changed q else .perror q e))
  | .ok fd =>
    match r.fs fd with
    | none => (none, r.diag (.perror q .other))
    | some opened =>
      if opened.kind ≠ .directory then (none, r.diag (.perror q .notdir))
      else if statMatchesExpected (some expected) opened then (some (fd, opened), r)
      else (none, r.diag (.changed q))

def removeWith (remove : Fs → Loc → Except Errno Fs) (q : Loc) (r : Run) : Bool × Run :=
  match remove r.fs q with
  | .error e => (false, r.diag (.perror q e))
  | .ok fs => (true, { r with fs := fs, removed := r.removed ++ [q] })

/-! ## One call for each directory -/

/-- The children are removed one after the other, and then the directory if that went well. -/
def removeRecursiveOpenedDir (child : Loc → Bytes → Run → Bool × Run) (fd : Loc) (opened : Status) (q : Loc) (r : Run) :
    Bool × Run :=
  let walked := (w.readdir r.fs fd).foldl
    (fun done name => (done.1 && (child fd name done.2).1, (child fd name done.2).2)) (true, r)
  if walked.1 then
    let verified := verifyEntry w q (some opened.id) walked.2
    if verified.1 then removeWith w.rmdir q verified.2 else verified
  else walked

/-- The callers expect no particular identity. `fuel` is how many levels there may be below. -/
def removeRecursiveChild : Nat → List Identity → Loc → Bytes → Run → Bool × Run
  | 0, _, _, _, r => (false, r)
  | fuel + 1, ancestors, parent, name, r =>
    let q := parent ++ [name]
    match w.lstat r.fs q with
    | .error e => if e = .noent then (true, r) else (false, r.diag (.perror q e))
    | .ok st =>
      if st.kind ≠ .directory then
        let verified := verifyEntry w q (some st.id) r
        if verified.1 then removeWith w.unlink q verified.2 else verified
      else if st.id ∈ ancestors then (false, r.diag (.cycle q))
      else
        match openDir w q st.id r with
        | (none, r) => (false, r)
        | (some (fd, opened), r) =>
          removeRecursiveOpenedDir w (removeRecursiveChild fuel (opened.id :: ancestors)) fd opened q r

def removeRecursiveImpl (expected : Option Identity) (r : Run) : Bool × Run :=
  match w.lstat r.fs q with
  | .error e => if e = .noent ∧ expected = none then (true, r) else (false, r.diag (.perror q e))
  | .ok st =>
    let checked := checkExpected q expected st r
    if !checked.1 then checked
    else if st.kind ≠ .directory then removeWith w.unlink q checked.2
    else
      match openDir w q st.id checked.2 with
      | (none, r) => (false, r)
      | (some (fd, opened), r) =>
        removeRecursiveOpenedDir w (removeRecursiveChild w w.depth [opened.id]) fd opened q r

def removeRecursive (r : Run) : Bool × Run := removeRecursiveImpl w q none r

def removeRecursiveExpected (expected : Option Identity) (r : Run) : Bool × Run :=
  removeRecursiveImpl w q expected r

/-! ## One stack for the whole tree -/

structure AtEntry where
  relative : List Bytes
  status : Status
  scanned : Bool := false

/-- `bx_dir_path_open_parent`, component by component and with `O_PATH` -/
def openParent (fs : Fs) : Loc → List Bytes → Except Errno Loc
  | parent, [] => .ok parent
  | parent, [_] => .ok parent
  | parent, name :: rest =>
    match w.lstat fs (parent ++ [name]) with
    | .error e => .error e
    | .ok st => if st.kind = .directory then openParent fs (parent ++ [name]) rest else .error .notdir

def scanChildren (entry : AtEntry) (fd : Loc) : List Bytes → List AtEntry → Run → Bool × List AtEntry × Run
  | [], stack, r => (true, stack, r)
  | name :: names, stack, r =>
    match w.lstat r.fs (fd ++ [name]) with
    | .error e =>
      if e = .noent then scanChildren entry fd names stack r else (false, stack, r.diag (.perror (fd ++ [name]) e))
    | .ok st => scanChildren entry fd names (⟨entry.relative ++ [name], st, false⟩ :: stack) r

def removeAtStep (parent : Loc) (s : List AtEntry × Run) : (List AtEntry × Run) ⊕ (Bool × Run) :=
  match s with
  | ([], r) => .inr (true, r)
  | (entry :: rest, r) =>
    match openParent w r.fs parent entry.relative with
    | .error e => .inr (false, r.diag (.perror (parent ++ entry.relative) e))
    | .ok fd =>
      let q := fd ++ entry.relative.getLast?.toList
      let verified := verifyEntry w q (some entry.status.id) r
      if !verified.1 then .inr verified
      else if entry.scanned || entry.status.kind ≠ .directory then
        let removed := removeWith (if entry.scanned then w.rmdir else w.unlink) q verified.2
        if removed.1 then .inl (rest, removed.2) else .inr removed
      else if rest.any fun ancestor => ancestor.scanned && ancestor.status.id = entry.status.id then
        .inr (false, verified.2.diag (.cycle q))
      else
        match openDir w q entry.status.id verified.2 with
        | (none, r) => .inr (false, r)
        | (some (fd, _), r) =>
          match scanChildren w entry fd (w.readdir r.fs fd) ({ entry with scanned := true } :: rest) r with
          | (false, _, r) => .inr (false, r)
          | (true, stack, r) => .inl (stack, r)

def removeRecursiveAt (fuel : Nat) (parent : Loc) (name : Bytes) (expected : Option Identity) (r : Run) :
    Option (Bool × Run) :=
  match w.lstat r.fs (parent ++ [name]) with
  | .error e => some (if e = .noent then (true, r) else (false, r.diag (.perror (parent ++ [name]) e)))
  | .ok st =>
    let checked := checkExpected (parent ++ [name]) expected st r
    if !checked.1 then some checked
    else loop (removeAtStep w parent) fuel ([⟨[name], st, false⟩], checked.2)

end

end Bx.Remove
