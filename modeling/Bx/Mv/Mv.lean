import Bx.Mv.CopyTree
import Bx.Remove.RemoveSound

/-!
# Moving a file

`bx_mv_rename_file` from `src/applets/base/mv/mv.c` with the backup from
`src/lib/backup_ops.c`. The destination is a name in a directory, and a suffix
for backups holds no slash.
-/

namespace Bx.Mv

open Kit
open Remove (Loc Identity)

inductive UpdateMode
  | all | none | noneFail | older
  deriving DecidableEq

inductive BackupMode
  | none | off | simple | numbered | existing
  deriving DecidableEq

def BackupMode.enabled (mode : BackupMode) : Bool := mode ≠ .none ∧ mode ≠ .off

structure Options where
  exchange : Bool := false
  noCopy : Bool := false
  noClobber : Bool := false
  interactive : Bool := false
  force : Bool := false
  update : UpdateMode := .all
  backup : BackupMode := .none
  suffix : Bytes := [126]

inductive Errno
  | xdev | noent | inval | notempty | notdir | isdir | other
  deriving DecidableEq

/-- `rename` can fail for other reasons than those that the tree gives. -/
structure MoveWorld extends World where
  confirm : Bool
  renameErrno : Option Errno
  backupErrno : Option Errno
  remove : Remove.World

section
variable (w : MoveWorld) (o : Options)

/-- `rename` of one name to another in the tree; two links to one object stay both. -/
def rename (failure : Option Errno) (t : Tree) (src dst : Loc) : Except Errno Tree :=
  match failure with
  | some e => .error e
  | none =>
    match t src with
    | none => .error .noent
    | some n =>
      if !inDirectory t dst then .error .noent
      else if src <+: dst ∧ src ≠ dst then .error .inval
      else if dst <+: src ∧ src ≠ dst then .error .notempty
      else match t dst with
        | none => .ok (moveAt t src dst)
        | some d =>
          if d.id = n.id ∧ (isDirectory n = false ∨ src = dst) then .ok t
          else if src = dst then .error .other
          else if isDirectory n && !isDirectory d then .error .notdir
          else if !isDirectory n && isDirectory d then .error .isdir
          else if readdir w.toWorld t dst ≠ [] then .error .notempty
          else .ok (moveAt t src dst)

/-! ## Backups -/

def isDigit (c : UInt8) : Bool := 48 ≤ c && c ≤ 57

/-- Digits up to `INT_MAX` and a tilde -/
def parseNumberedSuffixVersion (text : Bytes) : Option Nat :=
  let digits := text.takeWhile isDigit
  let value := digits.foldl (fun n d => n * 10 + (d.toNat - 48)) 0
  if digits = [] ∨ 2147483647 < value ∨ text.drop digits.length ≠ [126] then none else some value

variable (t : Tree)

def getMaxBackupVersion (parent : Loc) (base : Bytes) : Nat :=
  if w.fails .versions parent then 0
  else ((readdir w.toWorld t parent).filterMap fun name =>
    if base ++ [46, 126] <+: name then parseNumberedSuffixVersion (name.drop (base.length + 2)) else none).foldl max 0

def getBackupName (parent : Loc) (base : Bytes) : Option Bytes :=
  let version := getMaxBackupVersion w t parent base
  if o.backup = .numbered ∨ (o.backup = .existing ∧ 0 < version) then
    if version = 2147483647 then none else some (base ++ [46, 126] ++ numeral 10 (version + 1) ++ [126])
  else some (base ++ o.suffix)

inductive BackupResult
  | skipped
  | created (backup : Loc) (t : Tree)
  | sourceConflict
  | failed

def backupCreate (src parent : Loc) (base : Bytes) : BackupResult :=
  if !o.backup.enabled then .skipped
  else if w.fails .backup (parent ++ [base]) then .failed
  else if (t (parent ++ [base])).isNone then .skipped
  else match getBackupName w o t parent base with
    | none => .failed
    | some name =>
      if parent ++ [name] = src then .sourceConflict
      else if w.fails .conflict src || (t src).isNone then .failed
      else if parent ++ [name] = parent ++ [base] then .failed
      else match rename w w.backupErrno t (parent ++ [base]) (parent ++ [name]) with
        | .error _ => .failed
        | .ok t => .created (parent ++ [name]) t

def backupRestore (backup : Option Loc) (dest : Loc) (s : State) : Bool × State :=
  match backup with
  | none => (true, s)
  | some backup =>
    if (s.tree dest).isSome then (true, s)
    else match rename w none s.tree backup dest with
      | .error _ => (false, s)
      | .ok t => (true, { s with tree := t })

/-! ## Before the rename -/

def pathsAreSameFile (src dest : Loc) (st d : Node) : Bool :=
  d.id = st.id || match st.kind with
    | .symlink text => w.leads src text = some dest
    | _ => false

/-- Whether an existing destination is left alone; nothing comes back when that is an error. -/
def shouldSkipExisting (st d : Node) : Option Bool :=
  if o.noClobber then some true
  else match o.update with
    | .all => some false
    | .none => some true
    | .noneFail => none
    | .older => some (!isDirectory st && st.mtime ≤ d.mtime)

def checkWritten (dest : Loc) (d : Node) (s : State) : Bool :=
  isDirectory d || o.backup = .numbered || (dest, d.id) ∉ s.written

/-- The end of the call, or the source, the state and the backup when it comes to the rename -/
def beforeRename (src parent : Loc) (base : Bytes) (s : State) : Bool ⊕ (Node × State × Option Loc) :=
  match lookup w.toWorld .source s.tree src with
  | none => .inl false
  | some st =>
    match collectDestState w.toWorld .destination s.tree (parent ++ [base]) with
    | none => .inl false
    | some (none, _) => if o.exchange then .inl false else .inr (st, s, none)
    | some (some d, _) =>
      let same := pathsAreSameFile w src (parent ++ [base]) st d
      if same && (o.noClobber || o.update = .none) then .inl true
      else if same && o.update = .noneFail then .inl false
      else if same && ((d.id = st.id && src = parent ++ [base]) || o.exchange || !o.backup.enabled) then .inl false
      else match shouldSkipExisting o st d with
        | none => .inl false
        | some true => .inl true
        | some false =>
          if !checkWritten o (parent ++ [base]) d s then .inl false
          else if o.interactive && !o.force && !w.confirm then .inl true
          else if o.exchange then .inr (st, s, none)
          else match backupCreate w o s.tree src parent base with
            | .skipped => .inr (st, s, none)
            | .created backup t => .inr (st, { s with tree := t }, some backup)
            | .sourceConflict => .inl false
            | .failed => .inl false

/-! ## Between devices -/

def prepareCrossDeviceDestination (dest : Loc) (st : Node) (s : State) : Bool × State :=
  if !isDirectory st then (true, s)
  else match collectDestState w.toWorld .prepare s.tree dest with
    | none => (false, s)
    | some (lst, _) =>
      if !lst.any isDirectory then (true, s)
      else if w.fails .emptied dest then (false, s)
      else if readdir w.toWorld s.tree dest ≠ [] then (false, s)
      else if w.fails .rmdir dest then (false, s)
      else (true, { s with tree := removeAt s.tree dest })

def verifySourcePathUnchanged (src : Loc) (st : Node) (s : State) : Bool :=
  (lookup w.toWorld .verify s.tree src).any fun current => current.id = st.id

def statuses : Remove.Fs := fun q => (t q).map fun n =>
  ⟨n.id, match n.kind with
    | .directory => .directory
    | .symlink text => .symlink (w.leads q text)
    | _ => .file⟩

def removeSource (src : Loc) (st : Node) (s : State) : Bool × State :=
  let removal := Remove.removeRecursiveExpected w.remove src (some st.id) (Remove.start (statuses w s.tree))
  (removal.1, { s with tree := fun x => if x ∈ removal.2.removed then none else s.tree x })

def crossDeviceFallback (src dest : Loc) (st : Node) (s : State) : Bool × State :=
  let prepared := prepareCrossDeviceDestination w dest st s
  if !prepared.1 then prepared
  else
    let copied := copyPath w.toWorld src dest { prepared.2 with stop := false }
    let copied := (copied.1, { copied.2 with stop := false })
    if !copied.1 then copied
    else if !verifySourcePathUnchanged w src st copied.2 then (false, copied.2)
    else removeSource w src st copied.2

/-! ## The whole call -/

def swapAt (p q : Loc) : Tree := fun x =>
  if q <+: x then t (p ++ x.drop q.length) else if p <+: x then t (q ++ x.drop p.length) else t x

/-- `renameat2` with `RENAME_EXCHANGE` -/
def exchange (src dest : Loc) (s : State) : Bool × State :=
  if w.renameErrno.isSome ∨ (s.tree src).isNone ∨ (s.tree dest).isNone ∨ src <+: dest ∨ dest <+: src then (false, s)
  else (true, { s with tree := swapAt s.tree src dest })

def overwriteRemember (dest : Loc) (s : State) : Bool × State :=
  match lookup w.toWorld .remember s.tree dest with
  | none => (false, s)
  | some d => (true, if isDirectory d then s else { s with written := (dest, d.id) :: s.written })

def renameFile (src parent : Loc) (base : Bytes) (s : State) : Bool × State :=
  match beforeRename w o src parent base s with
  | .inl ok => (ok, s)
  | .inr (st, s, backup) =>
    if o.exchange then exchange w src (parent ++ [base]) s
    else match rename w w.renameErrno s.tree src (parent ++ [base]) with
      | .ok t => overwriteRemember w (parent ++ [base]) { s with tree := t }
      | .error e =>
        if e ≠ .xdev ∨ o.noCopy then (false, s)
        else
          let moved := crossDeviceFallback w src (parent ++ [base]) st s
          if moved.1 then overwriteRemember w (parent ++ [base]) moved.2
          else (false, (backupRestore w backup (parent ++ [base]) moved.2).2)

/-- The loop over the operands, into a directory. Each move has its own world, and one that fails ends nothing. -/
def moveAll (parent : Loc) (moves : List (MoveWorld × Loc)) (s : State) : State :=
  moves.foldl (fun s move => (renameFile move.1 o move.2 parent (move.2.getLastD []) s).2) s

end

end Bx.Mv
