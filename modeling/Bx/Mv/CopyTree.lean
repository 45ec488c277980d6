import Bx.Remove.RemoveOps

/-!
# Copying a tree

`bx_copy_path` from `src/lib/copy_tree.c` with the options that `mv` sets for a
move between devices: recursively, links as links, everything preserved, what is
there is removed first, nothing is backed up or asked. Any step can fail.
-/

namespace Bx.Mv

open Kit
open Remove (Loc Identity)

/-! ## The file system -/

/-- What an object is, with the data of a file, the text of a link and the number of a device -/
inductive NodeKind
  | directory
  | regular (data : Bytes)
  | symlink (text : Bytes)
  | fifo
  | socket
  | device (rdev : Nat)
  deriving DecidableEq

structure Node where
  id : Identity
  kind : NodeKind
  nlink : Nat
  mtime : Nat

abbrev Tree := Loc → Option Node

inductive Step
  | source | destination | backup | versions | conflict | prepare | emptied | rmdir | lookup | destState | realpath
  | opendir | readdir | verifyDirectory | openSource | unlink | create | created | data | attrs | captured | link
  | verify | remember

/-- What the outside decides: the order in which `readdir` returns names, which steps fail, where links lead, what
stands in a file that could not be copied to its end, and identities that have not been in use -/
structure World where
  order : Loc → List Bytes
  depth : Nat
  fails : Step → Loc → Bool
  leads : Loc → Bytes → Option Loc
  partialData : Loc → Bytes
  readable : Loc → Nat
  now : Nat
  newId : List Identity → Identity
  newId_fresh : ∀ used, newId used ∉ used

/-- `bx_link_entry`: a copy of a source with several links -/
structure Link where
  src : Identity
  dest : Loc
  destId : Identity

/-- The file system and what the context remembers; `used` are the identities that have been in use. -/
structure State where
  tree : Tree
  used : List Identity
  links : List Link := []
  written : List (Loc × Identity) := []
  stop : Bool := false

section
variable (w : World)

def lookup (step : Step) (t : Tree) (q : Loc) : Option Node := if w.fails step q then none else t q

variable (t : Tree)

def follow (q : Loc) (n : Node) : Option Node :=
  match n.kind with
  | .symlink text => (w.leads q text).bind t
  | _ => some n

/-- `bx_stat_collect_dest_state`: what `lstat` and `stat` say, if it is known -/
def collectDestState (step : Step) (t : Tree) (q : Loc) : Option (Option Node × Option Node) :=
  if w.fails step q then none else some (t q, (t q).bind (follow w t q))

def readdir (q : Loc) : List Bytes := (w.order q).filter fun name => (t (q ++ [name])).isSome

def isDirectory (n : Node) : Bool := n.kind = .directory

def inDirectory (q : Loc) : Bool := q ≠ [] && (t q.dropLast).any isDirectory

def putAt (q : Loc) (n : Node) : Tree := fun x => if x = q then some n else t x

/-! ## One object -/

def unlinkExisting (q : Loc) (s : State) : Option State :=
  if (s.tree q).isNone then some s
  else if w.fails .unlink q then none
  else some { s with tree := removeAt s.tree q }

/-- `mkdir`, `open` with `O_EXCL`, `symlink`, `mkfifo`, `bind` and `mknod` -/
def create (q : Loc) (kind : NodeKind) (mtime : Nat) (s : State) : Option State :=
  if w.fails .create q || (s.tree q).isSome || !inDirectory s.tree q then none
  else some { s with tree := putAt s.tree q ⟨w.newId s.used, kind, 1, mtime⟩, used := w.newId s.used :: s.used }

def preservedTime (st : Node) (dst : Loc) : Nat := if w.fails .attrs dst then w.now else st.mtime

def findLinkEntry (id : Identity) (s : State) : Option Link := s.links.find? fun e => e.src = id

def tracksLinkEntry (st : Node) (s : State) : Bool := decide (2 ≤ st.nlink) && (findLinkEntry st.id s).isNone

def addLinkEntry (st : Node) (dst : Loc) (s : State) : State :=
  match s.tree dst with
  | none => s
  | some d => if tracksLinkEntry st s then { s with links := ⟨st.id, dst, d.id⟩ :: s.links } else s

/-- The source is opened before the destination is removed, and the data may end early. -/
def copyRegularFile (src dst : Loc) (st : Node) (s : State) : Bool × State :=
  match collectDestState w .destState s.tree dst with
  | none => (false, s)
  | some (lst, stat) =>
    if stat.any fun d => d.id = st.id then (false, s)
    else if stat.isSome && lst.any isDirectory then (false, s)
    else if w.fails .openSource src then (false, s)
    else match unlinkExisting w dst s with
      | none => (false, s)
      | some s =>
        let kind := if w.fails .data dst then .regular (w.partialData dst) else st.kind
        match create w dst kind (preservedTime w st dst) s with
        | none => (false, s)
        | some s => if w.fails .data dst || w.fails .attrs dst then (false, s) else (true, addLinkEntry st dst s)

/-- Something that is made by one call; only for a link is the source read before that. -/
def copyObject (link : Bool) (src dst : Loc) (st : Node) (s : State) : Bool × State :=
  match collectDestState w .destState s.tree dst with
  | none => (false, s)
  | some (lst, _) =>
    if lst.any fun d => d.id = st.id then (false, s)
    else if lst.any isDirectory then (false, s)
    else match unlinkExisting w dst s with
      | none => (false, s)
      | some s =>
        if link && w.fails .openSource src then (false, s)
        else match create w dst st.kind (preservedTime w st dst) s with
          | none => (false, s)
          | some s =>
            if (!link && w.fails .created dst) || w.fails .attrs dst then (false, s)
            else if link && tracksLinkEntry st s && w.fails .captured dst then (false, s)
            else (true, addLinkEntry st dst s)

def copySymlinkObject (src dst : Loc) (st : Node) (s : State) : Bool × State := copyObject w true src dst st s

def copyFifo (src dst : Loc) (st : Node) (s : State) : Bool × State := copyObject w false src dst st s

def copySocket (src dst : Loc) (st : Node) (s : State) : Bool × State := copyObject w false src dst st s

def copyDeviceNode (src dst : Loc) (st : Node) (s : State) : Bool × State := copyObject w false src dst st s

def createPreservedHardLink (e : Link) (dst : Loc) (s : State) : Bool × State :=
  match collectDestState w .destState s.tree dst with
  | none => (false, s)
  | some (lst, stat) =>
    if stat.any fun d => d.id = e.destId then (false, s)
    else if lst.any isDirectory then (false, s)
    else match unlinkExisting w dst s with
      | none => (false, s)
      | some s =>
        match lookup w .lookup s.tree e.dest with
        | none => (false, s)
        | some n =>
          if n.id ≠ e.destId then (false, s)
          else if w.fails .link dst || (s.tree dst).isSome || !inDirectory s.tree dst then (false, s)
          else if w.fails .created dst then (false, { s with tree := putAt s.tree dst n })
          else (true, { s with tree := putAt s.tree dst n })

/-! ## Directories -/

def makeDestination (dst : Loc) (s : State) : Option Identity × State :=
  match collectDestState w .destState s.tree dst with
  | none => (none, s)
  | some (some d, _) => if isDirectory d then (some d.id, s) else (none, s)
  | some (none, _) =>
    match create w dst .directory w.now s with
    | none => (none, s)
    | some s => if w.fails .created dst then (none, s) else ((s.tree dst).map Node.id, s)

def requiredSelfCopyChild (real : Option Loc) (src : Loc) : Option Bytes :=
  real.bind fun dst => if w.fails .realpath src then none else if src <+: dst then (dst.drop src.length).head? else none

def verifyDestinationDirectory (dst : Loc) (id : Identity) (s : State) : Bool :=
  (lookup w .verifyDirectory s.tree dst).any fun d => isDirectory d && d.id = id

def copyChildren (child : Bytes → Node → State → Bool × State) (root : Option Identity) (required : Option Bytes)
    (src dst : Loc) (id : Identity) : List Bytes → Bool → State → Bool × State
  | [], ok, s => (ok, s)
  | name :: names, ok, s =>
    if required.any fun only => name ≠ only then copyChildren child root required src dst id names ok s
    else if !verifyDestinationDirectory w dst id s then (false, s)
    else match lookup w .lookup s.tree (src ++ [name]) with
      | none => copyChildren child root required src dst id names false s
      | some n =>
        if isDirectory n && root = some n.id then
          copyChildren child root required src dst id names false { s with stop := true }
        else
          let copied := child name n s
          if copied.1 then copyChildren child root required src dst id names ok copied.2
          else if copied.2.stop then copied
          else copyChildren child root required src dst id names false copied.2

/-- What the calls for the children are given: the destination of the whole copy, its identity and its real path,
and the directories above in the source -/
structure Ancestry where
  root : Option Identity := none
  real : Option Loc := none
  dirs : List Identity := []

def Ancestry.enter (a : Ancestry) (top : Bool) (st : Node) (dst : Loc) (id : Identity) : Ancestry :=
  { root := if top then some id else a.root
    real := if top then (if w.fails .realpath dst then none else some dst) else a.real
    dirs := st.id :: a.dirs }

def copyDirectory (child : Ancestry → Loc → Loc → Node → State → Bool × State) (a : Ancestry) (src dst : Loc) (st : Node)
    (top : Bool) (s : State) : Bool × State :=
  match makeDestination w dst s with
  | (none, s) => (false, s)
  | (some id, s) =>
    if w.fails .opendir src then (false, s)
    else
      let inner := a.enter w top st dst id
      let names := readdir w s.tree src
      let walked := copyChildren w (fun name => child inner (src ++ [name]) (dst ++ [name])) inner.root
        (requiredSelfCopyChild w inner.real src) src dst id
        (if w.fails .readdir src then names.take (w.readable src) else names) (!w.fails .readdir src) s
      (walked.1 && verifyDestinationDirectory w dst id walked.2 && !w.fails .attrs dst, walked.2)

/-- `fuel` is how many levels there may be. -/
def copyPathSelected : Nat → Ancestry → Loc → Loc → Bool → Option Node → State → Bool × State
  | 0, _, _, _, _, _, s => (false, s)
  | fuel + 1, a, src, dst, top, selected, s =>
    match lookup w .lookup s.tree src with
    | none => (false, s)
    | some st =>
      if selected.any fun n => n.id ≠ st.id then (false, s)
      else if isDirectory st then
        if st.id ∈ a.dirs then (false, s)
        else copyDirectory w (fun a src dst n => copyPathSelected fuel a src dst false (some n)) a src dst st top s
      else match findLinkEntry st.id s with
        | some e => createPreservedHardLink w e dst s
        | none =>
          match st.kind with
          | .directory => (false, s)
          | .regular _ => copyRegularFile w src dst st s
          | .symlink _ => copySymlinkObject w src dst st s
          | .fifo => copyFifo w src dst st s
          | .socket => copySocket w src dst st s
          | .device _ => copyDeviceNode w src dst st s

def copyPath (src dst : Loc) (s : State) : Bool × State := copyPathSelected w (w.depth + 1) {} src dst true none s

end

end Bx.Mv
