import Bx.Kit.CString

/-!
# The directory walker

The walk of `src/fswalk/walk.c` over a file tree: directories are entered with the list of their ancestors' device and
inode numbers. The callbacks, the cancel state and the failing calls are an environment over a state of its own. The
log, the trail and `dirs` are not in the source.
-/

namespace Bx.Walk

open Bx.Kit

/-! ## File trees -/

inductive DType
  | unknown
  | reg
  | dir
  | lnk
  | fifo
  | sock
  | blk
  | chr
  deriving DecidableEq

structure DirId where
  dev : Nat
  ino : Nat
  deriving DecidableEq

structure Stat where
  id : DirId
  /-- What `st_mode` says: never `unknown`. -/
  type : DType

inductive Object (D : Type*)
  | directory (dir : D)
  | file (st : Stat)

inductive Node (D : Type*)
  | real (object : Object D)
  | symlink (id : DirId) (target : Option (Object D))

structure Dirent (D : Type*) where
  name : CStr
  dType : DType
  node : Node D

def Node.type {D : Type*} : Node D → DType
  | .real (.directory _) => .dir
  | .real (.file st) => st.type
  | .symlink _ _ => .lnk

/-- Strips `.` and `..`, as both loops over a directory do. -/
def children {D : Type*} (dirents : List (Dirent D)) : List (Dirent D) :=
  dirents.filter fun e => e.name ≠ ['.'] && e.name ≠ ['.', '.']

structure FileTree (D : Type*) where
  id : D → DirId
  dirents : D → List (Dirent D)
  height : D → Nat
  file_type : ∀ d, ∀ e ∈ dirents d, ∀ st, e.node = .real (.file st) ∨ (∃ i, e.node = .symlink i (some (.file st))) →
    st.type ≠ .dir ∧ st.type ≠ .lnk
  dType_eq : ∀ d, ∀ e ∈ dirents d, e.dType ≠ .unknown → e.dType = e.node.type
  height_lt : ∀ d, ∀ e ∈ children (dirents d), ∀ d', e.node = .real (.directory d') → height d' < height d

namespace FileTree
variable {D : Type*} (tree : FileTree D)

def statObject : Object D → Stat
  | .directory d => ⟨tree.id d, .dir⟩
  | .file st => st

/-- `fstatat`, which fails on a dangling symlink it follows. -/
def stat (follow : Bool) : Node D → Option Stat
  | .real object => some (tree.statObject object)
  | .symlink id target => if follow then target.map tree.statObject else some ⟨id, .lnk⟩

end FileTree

def Node.opened {D : Type*} (follow : Bool) : Node D → Option D
  | .real (.directory d) => some d
  | .symlink _ (some (.directory d)) => if follow then some d else none
  | _ => none

/-! ## Options, callbacks and state -/

inductive CycleMode
  | none
  | dirRepeat
  | symlinkRepeat
  deriving DecidableEq

inductive CycleReport
  | ignore
  | warn
  | error
  deriving DecidableEq

structure Opts where
  sortEntries : Bool
  reverseSort : Bool
  followSymlinks : Bool
  followRootSymlink : Bool
  postOrder : Bool
  stayOnFilesystem : Bool
  /-- Whether `stop` is not NULL. -/
  hasStop : Bool
  suppressEacces : Bool
  /-- A negative `max_depth` is `none`. -/
  maxDepth : Option Nat
  cycleMode : CycleMode
  cycleReport : CycleReport

structure Entry where
  path : CStr
  dType : DType
  isDir : Bool
  isSymlink : Bool
  prune : Bool
  metadataLoaded : Bool
  id : DirId
  depth : Nat

inductive Action
  | continue
  | prune
  | stop
  | error
  deriving DecidableEq

/-- What a visit callback leaves behind: its result, `entry->prune` and whether it has set `*stop`. -/
structure Visited (σ : Type*) where
  action : Action
  prune : Bool
  stop : Bool
  user : σ

structure Handled (σ : Type*) where
  action : Action
  stop : Bool
  user : σ

inductive Call
  | statRoot
  | fstatat
  | opendir
  | openat
  | fdopendir
  | getdents
  | realloc

/-- `syscall` gives the `errno` of a call that fails. -/
structure Env (σ : Type*) where
  visit : Entry → σ → Visited σ
  error : Option (CStr → Nat → σ → Handled σ)
  cancelRequested : σ → Bool × σ
  syscall : Call → σ → Option Nat × σ

inductive Event (D σ : Type*)
  | visit (trail : List CStr) (entry : Entry) (user : σ)
  /-- `dirs` holds the directories from the one that lists `dir` up to the root. -/
  | enter (dirs : List D) (dir : D)
  /-- An entry of the directory `trail` is done with. -/
  | left (trail : List CStr) (pathBuf : CStr)

structure WalkState (D σ : Type*) where
  user : σ
  stop : Bool
  pathBuf : CStr
  log : List (Event D σ)

variable {D σ : Type*}

def WalkState.note (st : WalkState D σ) (event : Event D σ) : WalkState D σ := { st with log := st.log ++ [event] }

def eNoent : Nat := 2
def eIo : Nat := 5
def eNomem : Nat := 12
def eAcces : Nat := 13
def eNotdir : Nat := 20

def pathOf : List CStr → CStr
  | [] => []
  | [root] => root
  | name :: trail => pathOf trail ++ '/' :: name

section
variable (tree : FileTree D) (env : Env σ) (opts : Opts)

/-! ## Outside calls -/

def syscall (call : Call) (st : WalkState D σ) : Option Nat × WalkState D σ :=
  let r := env.syscall call st.user
  (r.1, { st with user := r.2 })

def shouldStop (st : WalkState D σ) : Bool × WalkState D σ :=
  if opts.hasStop && st.stop then (true, st)
  else
    let r := env.cancelRequested st.user
    (r.1, { st with user := r.2, stop := st.stop || (r.1 && opts.hasStop) })

def handleError (path : CStr) (errnum : Nat) (st : WalkState D σ) : Action × WalkState D σ :=
  match env.error with
  | none => (.error, st)
  | some error =>
    let r := error path errnum st.user
    (r.action, { st with user := r.user, stop := st.stop || r.stop })

def statusFromAction (action : Action) (st : WalkState D σ) : Bool × WalkState D σ :=
  match action with
  | .continue | .prune => (false, st)
  | .stop => (false, { st with stop := st.stop || opts.hasStop })
  | .error => (true, st)

def reportError (errnum : Nat) (st : WalkState D σ) : Bool × WalkState D σ :=
  let r := handleError env st.pathBuf errnum st
  statusFromAction opts r.1 r.2

def applyVisitAction (trail : List CStr) (entry : Entry) (st : WalkState D σ) : Action × Entry × Bool × WalkState D σ :=
  let r := env.visit entry st.user
  let action := if r.prune && r.action = .continue then .prune else r.action
  let st := { st.note (.visit trail entry st.user) with user := r.user, stop := st.stop || r.stop }
  match action with
  | .continue => (action, { entry with prune := r.prune }, false, st)
  | .prune => (action, { entry with prune := true }, false, st)
  | .stop => (action, { entry with prune := r.prune }, false, { st with stop := st.stop || opts.hasStop })
  | .error => (action, { entry with prune := r.prune }, true, st)

/-! ## The path buffer -/

def pathBufPushName (name : CStr) (st : WalkState D σ) : Except Nat Unit × WalkState D σ :=
  let r := syscall env .realloc st
  match r.1 with
  | some errnum => (.error errnum, r.2)
  | none => (.ok (), { r.2 with pathBuf := r.2.pathBuf ++ '/' :: name })

def pathBufPopToLen (len : Nat) (st : WalkState D σ) : WalkState D σ :=
  if len > st.pathBuf.length then st else { st with pathBuf := st.pathBuf.take len }

/-- `appended` tells whether the entry's name is in the buffer, here and below. -/
def entryPathEnsure (name : CStr) (appended : Bool) (st : WalkState D σ) : Except Nat Unit × WalkState D σ :=
  if appended then (.ok (), st) else pathBufPushName env name st

def pathAppended : Except Nat Unit → Bool
  | .ok _ => true
  | .error _ => false

def entryPathRelease (appended : Bool) (prevLen : Nat) (st : WalkState D σ) : WalkState D σ :=
  if appended then pathBufPopToLen prevLen st else st

/-! ## Entries -/

def entryFillFromStat (entry : Entry) (st : Stat) : Entry :=
  { entry with isDir := st.type = .dir, metadataLoaded := true, id := st.id }

def fstatat (dirent : Dirent D) (follow : Bool) (st : WalkState D σ) : Except Nat Stat × WalkState D σ :=
  let r := syscall env .fstatat st
  match r.1 with
  | some errnum => (.error errnum, r.2)
  | none =>
    match tree.stat follow dirent.node with
    | none => (.error eNoent, r.2)
    | some s => (.ok s, r.2)

def emptyEntry (dType : DType) (depth : Nat) : Entry :=
  { path := [], dType, isDir := false, isSymlink := false, prune := false, metadataLoaded := false, id := ⟨0, 0⟩, depth }

def entryFillFromDirent (dirent : Dirent D) (depth : Nat) (st : WalkState D σ) :
    Except Nat (Entry × Bool) × WalkState D σ :=
  let entry := emptyEntry dirent.dType depth
  if !opts.followSymlinks then
    match dirent.dType with
    | .dir => (.ok ({ entry with isDir := true }, false), st)
    | .lnk => (.ok ({ entry with isSymlink := true }, false), st)
    | .unknown =>
      match fstatat tree env dirent false st with
      | (.error errnum, st) => (.error errnum, st)
      | (.ok s, st) => (.ok ({ entryFillFromStat entry s with isSymlink := s.type = .lnk }, false), st)
    | _ => (.ok (entry, false), st)
  else
    match dirent.dType with
    | .dir => (.ok ({ entry with isDir := true }, false), st)
    | .lnk | .unknown =>
      match fstatat tree env dirent false st with
      | (.error errnum, st) => (.error errnum, st)
      | (.ok lst, st) =>
        if lst.type = .lnk then
          match fstatat tree env dirent true st with
          | (.ok s, st) => (.ok (entryFillFromStat { entry with isSymlink := true } s, true), st)
          | (.error _, st) => (.ok (entryFillFromStat { entry with isSymlink := true } lst, true), st)
        else
          match fstatat tree env dirent true st with
          | (.error errnum, st) => (.error errnum, st)
          | (.ok s, st) => (.ok (entryFillFromStat entry s, false), st)
    | _ => (.ok (entry, false), st)

def entryLoadMetadata (dirent : Dirent D) (entry : Entry) (st : WalkState D σ) : Except Nat Entry × WalkState D σ :=
  if entry.metadataLoaded then (.ok entry, st)
  else
    match fstatat tree env dirent opts.followSymlinks st with
    | (.error errnum, st) => (.error errnum, st)
    | (.ok s, st) => (.ok (entryFillFromStat entry s), st)

def ancestorContains (ancestors : List DirId) (id : DirId) : Bool := ancestors.any (· = id)

structure Prepared where
  entry : Entry
  crossesFilesystem : Bool
  repeatedDir : Bool

def prepareDirectory (rootDevice : Nat) (dirent : Dirent D) (ancestors : List DirId) (entryWasSymlink : Bool)
    (entry : Entry) (st : WalkState D σ) : Except Nat Prepared × WalkState D σ :=
  if !entry.isDir then (.ok ⟨entry, false, false⟩, st)
  else if !opts.stayOnFilesystem && opts.cycleMode = .none then (.ok ⟨entry, false, false⟩, st)
  else
    match entryLoadMetadata tree env opts dirent entry st with
    | (.error errnum, st) => (.error (if errnum ≠ 0 then errnum else eNoent), st)
    | (.ok entry, st) =>
      if opts.stayOnFilesystem && entry.id.dev ≠ rootDevice then (.ok ⟨entry, true, false⟩, st)
      else
        match opts.cycleMode with
        | .none => (.ok ⟨entry, false, false⟩, st)
        | .dirRepeat => (.ok ⟨entry, false, ancestorContains ancestors entry.id⟩, st)
        | .symlinkRepeat => (.ok ⟨entry, false, entryWasSymlink && ancestorContains ancestors entry.id⟩, st)

/-! ## Opening directories -/

def openFailed (errnum : Nat) (st : WalkState D σ) : Except Bool D × WalkState D σ :=
  if errnum = eAcces && opts.suppressEacces then (.error false, st)
  else
    let r := reportError env opts errnum st
    (.error r.1, r.2)

def openDirectoryPath (node : Node D) (st : WalkState D σ) : Except Bool D × WalkState D σ :=
  let r := syscall env .opendir st
  match r.1 with
  | some errnum => openFailed env opts errnum r.2
  | none =>
    match node.opened true with
    | none => openFailed env opts eNotdir r.2
    | some dir => (.ok dir, r.2)

/-- The entry's name is in the buffer here, so `bx_walk_entry_path_ensure` leaves it as it is. -/
def openDirectoryChild (dirent : Dirent D) (st : WalkState D σ) : Except Bool D × WalkState D σ :=
  let r := syscall env .openat st
  match r.1 with
  | some errnum => openFailed env opts errnum r.2
  | none =>
    match dirent.node.opened opts.followSymlinks with
    | none => openFailed env opts eNotdir r.2
    | some dir =>
      let r := syscall env .fdopendir r.2
      match r.1 with
      | some errnum => openFailed env opts (if errnum ≠ 0 then errnum else eIo) r.2
      | none => (.ok dir, r.2)

def shouldDescendChildDirectory (entry : Entry) : Bool :=
  entry.isDir && !entry.prune && (!entry.isSymlink || opts.followSymlinks)

def shouldDescendRootDirectory (entry : Entry) : Bool :=
  entry.isDir && !entry.prune && (!entry.isSymlink || opts.followRootSymlink)

/-! ## The walk -/

/-- The visit of an entry and of what is below it, in the order that `post_order` asks for. -/
def visitAround (trail : List CStr) (descend : Entry → WalkState D σ → Option (Bool × WalkState D σ)) (entry : Entry)
    (st : WalkState D σ) : Option (Bool × WalkState D σ) :=
  if opts.postOrder then
    match descend entry st with
    | none => none
    | some (failed, st) =>
      let r := shouldStop env opts st
      if r.1 then some (failed, r.2)
      else
        let v := applyVisitAction env opts trail entry r.2
        some (failed || v.2.2.1, v.2.2.2)
  else
    let v := applyVisitAction env opts trail entry st
    if v.1 = .stop || v.1 = .error then some (v.2.2.1, v.2.2.2)
    else
      match descend v.2.1 v.2.2.2 with
      | none => none
      | some (failed, st) => some (failed, (shouldStop env opts st).2)

/-- What a call knows of the directories above: the path to the entry it handles and the chain it checks. -/
structure Frame (D : Type*) where
  depth : Nat
  ancestors : List DirId
  trail : List CStr
  dirs : List D

def Frame.child (frame : Frame D) (name : CStr) (id : DirId) (dir : D) : Frame D :=
  { depth := frame.depth + 1, ancestors := id :: frame.ancestors, trail := name :: frame.trail, dirs := dir :: frame.dirs }

section
variable (recurse : D → Frame D → WalkState D σ → Option (Bool × WalkState D σ))

def descendChild (frame : Frame D) (dirent : Dirent D) (entry : Entry) (st : WalkState D σ) :
    Option (Bool × WalkState D σ) :=
  let r := shouldStop env opts st
  if !r.1 && shouldDescendChildDirectory opts entry then
    match openDirectoryChild env opts dirent r.2 with
    | (.error failed, st) => some (failed, st)
    | (.ok dir, st) => recurse dir (frame.child dirent.name entry.id dir) (st.note (.enter frame.dirs dir))
  else some (false, r.2)

/-- From `entry.path = full` to the end. -/
def visitNamed (frame : Frame D) (dirent : Dirent D) (entry : Entry) (st : WalkState D σ) :
    Option (Bool × WalkState D σ) :=
  visitAround env opts (dirent.name :: frame.trail) (descendChild env opts recurse frame dirent)
    { entry with path := st.pathBuf } st

/-- The exits that only report: `bx_walk_entry_path_ensure`, the error, `bx_walk_entry_path_release`. -/
def reportEntry (name : CStr) (errnum : Nat) (st : WalkState D σ) : Bool × WalkState D σ :=
  let prevLen := st.pathBuf.length
  let e := entryPathEnsure env name false st
  let r := reportError env opts errnum e.2
  (r.1, entryPathRelease (pathAppended e.1) prevLen r.2)

def reportLoop (name : CStr) (st : WalkState D σ) : Bool × WalkState D σ :=
  let prevLen := st.pathBuf.length
  let e := entryPathEnsure env name false st
  (opts.cycleReport = .error, entryPathRelease (pathAppended e.1) prevLen e.2)

def recursiveVisitEntry (rootDevice : Nat) (frame : Frame D) (dirent : Dirent D) (st : WalkState D σ) :
    Option (Bool × WalkState D σ) :=
  let r := shouldStop env opts st
  if r.1 || opts.maxDepth.any (frame.depth + 1 > ·) then some (false, r.2)
  else
    match entryFillFromDirent tree env opts dirent (frame.depth + 1) r.2 with
    | (.error errnum, st) => some (reportEntry env opts dirent.name errnum st)
    | (.ok (entry, entryWasSymlink), st) =>
      match prepareDirectory tree env opts rootDevice dirent frame.ancestors entryWasSymlink entry st with
      | (.error errnum, st) => some (reportEntry env opts dirent.name errnum st)
      | (.ok prepared, st) =>
        if prepared.repeatedDir then some (reportLoop env opts dirent.name st)
        else if prepared.crossesFilesystem then some (false, st)
        else
          let prevLen := st.pathBuf.length
          match entryPathEnsure env dirent.name false st with
          | (.error errnum, st) => some (reportError env opts (if errnum ≠ 0 then errnum else eNomem) st)
          | (.ok _, st) =>
            (visitNamed env opts recurse frame dirent prepared.entry st).map fun r =>
              (r.1, entryPathRelease true prevLen r.2)

end

/-- The next `getdents64`; a `sorted` list has been read beforehand. -/
def readDirents (sorted : Bool) (st : WalkState D σ) : Option Nat × WalkState D σ :=
  if sorted then (none, st) else syscall env .getdents st

def visitEntries (visit : Dirent D → WalkState D σ → Option (Bool × WalkState D σ)) (trail : List CStr) (sorted : Bool) :
    List (Dirent D) → Bool → WalkState D σ → Option (Option Nat × Bool × WalkState D σ)
  | [], failed, st =>
    let r := readDirents env sorted st
    some (r.1, failed, r.2)
  | dirent :: rest, failed, st =>
    let r := readDirents env sorted st
    match r.1 with
    | some errnum => some (some errnum, failed, r.2)
    | none =>
      match visit dirent r.2 with
      | none => none
      | some (visitFailed, st) =>
        let r := shouldStop env opts (st.note (.left trail st.pathBuf))
        if r.1 then some (none, failed || visitFailed, r.2)
        else visitEntries visit trail sorted rest (failed || visitFailed) r.2

def direntListReadSorted (dir : D) (st : WalkState D σ) : Except Nat (List (Dirent D)) × WalkState D σ :=
  let r := syscall env .getdents st
  match r.1 with
  | some errnum => (.error errnum, r.2)
  | none => (.ok ((children (tree.dirents dir)).mergeSort fun a b => decide (a.name ≤ b.name)), r.2)

def recursive (rootDevice : Nat) : Nat → D → Frame D → WalkState D σ → Option (Bool × WalkState D σ)
  | 0, _, _, _ => none
  | fuel + 1, dir, frame, st =>
    let r := shouldStop env opts st
    let visit := recursiveVisitEntry tree env opts (recursive rootDevice fuel) rootDevice frame
    if r.1 || opts.maxDepth.any (frame.depth > ·) then some (false, r.2)
    else if opts.sortEntries || opts.reverseSort then
      match direntListReadSorted tree env dir r.2 with
      | (.error errnum, st) => some (reportError env opts (if errnum ≠ 0 then errnum else eIo) st)
      | (.ok entries, st) =>
        let entries := if opts.reverseSort then entries.reverse else entries
        (visitEntries env opts visit frame.trail true entries false st).map (·.2)
    else
      match visitEntries env opts visit frame.trail false (children (tree.dirents dir)) false r.2 with
      | none => none
      | some (readError, failed, st) =>
        let r := shouldStop env opts st
        match r.1, readError with
        | false, some errnum =>
          if errnum ≠ 0 then
            let e := reportError env opts errnum r.2
            some (failed || e.1, e.2)
          else some (failed, r.2)
        | _, _ => some (failed, r.2)

/-- `openedDir` is the directory that `bx_walk_opened_dir` was given. -/
def descendRoot (fuel : Nat) (root : CStr) (node : Node D) (openedDir : Option D) (id : DirId) (entry : Entry)
    (st : WalkState D σ) : Option (Bool × WalkState D σ) :=
  let r := shouldStop env opts st
  if !r.1 && shouldDescendRootDirectory opts entry then
    let opened := match openedDir with
      | some dir => (Except.ok dir, r.2)
      | none => openDirectoryPath env opts node r.2
    match opened with
    | (.error failed, st) => some (failed, st)
    | (.ok dir, st) =>
      recursive tree env opts id.dev fuel dir { depth := 0, ancestors := [id], trail := [root], dirs := [dir] }
        (st.note (.enter [] dir))
  else some (false, r.2)

def processDirectoryRoot (fuel : Nat) (root : CStr) (node : Node D) (openedDir : Option D) (s : Stat)
    (st : WalkState D σ) : Option (Bool × WalkState D σ) :=
  visitAround env opts [root] (descendRoot tree env opts fuel root node openedDir s.id)
    (entryFillFromStat { emptyEntry .unknown 0 with path := st.pathBuf } s) st

def initialState (user : σ) (stop : Bool) : WalkState D σ := { user, stop, pathBuf := [], log := [] }

def walkFrom (fuel : Nat) (root : CStr) (node : Node D) (openedDir : Option D) (stat : Option Stat)
    (st : WalkState D σ) : Option (Bool × WalkState D σ) :=
  let r := shouldStop env opts st
  if r.1 then some (false, r.2)
  else
    let c := syscall env .statRoot r.2
    match c.1.isSome, stat with
    | true, _ | _, none =>
      let e := handleError env root (c.1.getD eNoent) c.2
      some (statusFromAction opts e.1 e.2)
    | false, some s =>
      let p := syscall env .realloc c.2
      match p.1 with
      | some errnum =>
        let e := handleError env root (if errnum ≠ 0 then errnum else eNomem) p.2
        some (statusFromAction opts e.1 e.2)
      | none =>
        let st := { p.2 with pathBuf := root }
        if s.type = .dir then processDirectoryRoot tree env opts fuel root node openedDir s st
        else
          let entry := entryFillFromStat { emptyEntry .unknown 0 with path := st.pathBuf } s
          let v := applyVisitAction env opts [root] entry st
          some (v.2.2.1, v.2.2.2)

/-- `bx_walk`, where the root path leads to `node`. -/
def walk (fuel : Nat) (root : CStr) (node : Node D) (user : σ) (stop : Bool) : Option (Bool × WalkState D σ) :=
  walkFrom tree env opts fuel root node none (tree.stat opts.followRootSymlink node) (initialState user stop)

def walkOpenedDir (fuel : Nat) (root : CStr) (dir : D) (user : σ) (stop : Bool) : Option (Bool × WalkState D σ) :=
  walkFrom tree env opts fuel root (.real (.directory dir)) (some dir) (some ⟨tree.id dir, .dir⟩) (initialState user stop)

end

end Bx.Walk
