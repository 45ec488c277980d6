import Bx.Fswalk.Walk
import Bx.Search.Filter

/-!
# The search walk and its ignore frames

The visit callback of `src/search/traverse.c` keeps a stack of frames, one for each directory with ignore rules, which
go away only when the next entry is visited. Pointers to frames are places on the stack. What a directory's ignore
files compile to is the parameter `loadProgram`; whether a call finds memory is up to `alloc`.
-/

namespace Bx.Traverse

open Bx.Kit Bx.IgnoreProgram Bx.IgnoreState

/-- `&dir_frames[i].inline_ignore_state`, or the chain the walk began with. -/
inductive StateRef
  | parentChain
  | inline (frame : Nat)

structure InlineState where
  state : State
  parent : Option StateRef

structure DirFrame where
  appliesDepth : Nat
  ignoreState : StateRef
  inlineIgnoreState : Option InlineState

structure Config (τ : Type*) where
  walkOpts : Walk.Opts
  filterOpts : Option Filter.FilterOpts
  haveIgnoreOpts : Bool
  noIgnore : Bool
  /-- The chain above the root, borrowed or loaded; empty where there is none. -/
  parentChain : List State
  loadProgram : CStr → Except Nat (Option Program)
  alloc : τ → Bool × τ
  entryMatchesType : Filter.WalkEntry → Char → Bool
  visit : Walk.Entry → τ → Walk.Visited τ
  visitWithIgnore : Option (Walk.Entry → List State → τ → Walk.Visited τ)
  error : Option (CStr → Nat → τ → Walk.Handled τ)
  cancelRequested : τ → Bool × τ
  syscall : Walk.Call → τ → Option Nat × τ

structure WalkState (τ : Type*) where
  dirFrames : List DirFrame
  user : τ

section
variable {τ : Type*} (L : Libc) (config : Config τ)

/-! ## The frame stack -/

variable (frames : List DirFrame)

def dirFramesPopToDepth (depth : Nat) : List DirFrame :=
  frames.rdropWhile fun top => depth < top.appliesDepth

def activeIgnoreState : Option StateRef := frames.getLast?.map (·.ignoreState)

/-- The states a pointer leads to; `none` where it leads to a frame that is gone. -/
def chainFrom (frames : List DirFrame) : Nat → Option StateRef → Option (List State)
  | _, none => some []
  | _, some .parentChain => some config.parentChain
  | 0, some (.inline _) => none
  | fuel + 1, some (.inline i) =>
    match frames[i]?.bind (·.inlineIgnoreState) with
    | none => none
    | some inlineState => (chainFrom frames fuel inlineState.parent).map (inlineState.state :: ·)

def activeChain : Option (List State) :=
  chainFrom config frames frames.length (activeIgnoreState frames)

def initRootDirFrame : List DirFrame :=
  if config.haveIgnoreOpts && !config.parentChain.isEmpty then [⟨0, .parentChain, none⟩] else []

/-- The program that `entry->path` gets a frame for. -/
def directoryProgram (path : CStr) : Except Nat (Option Program) :=
  if config.haveIgnoreOpts && !config.noIgnore then config.loadProgram path else .ok none

def dirFrame (path : CStr) (depth : Nat) (program : Program) : DirFrame :=
  { appliesDepth := depth + 1
    ignoreState := .inline frames.length
    inlineIgnoreState := some
      { state := stateInit ((activeChain config frames).getD []) (some path) (some program)
        parent := activeIgnoreState frames } }

variable (entry : Walk.Entry)

def pushDirFrame (st : WalkState τ) : Walk.Action × WalkState τ :=
  match directoryProgram config entry.path with
  | .error _ => (.error, st)
  | .ok none => (.continue, st)
  | .ok (some program) =>
    let reserve := config.alloc st.user
    if !reserve.1 then (.error, { st with user := reserve.2 })
    else
      let strdup := config.alloc reserve.2
      if !strdup.1 then (.error, { st with user := strdup.2 })
      else
        (.continue,
          { dirFrames := st.dirFrames ++ [dirFrame config st.dirFrames entry.path entry.depth program]
            user := strdup.2 })

/-! ## The visit -/

def filterDType : Walk.DType → Option Filter.DType
  | .unknown => none
  | .reg => some .reg
  | .dir => some .dir
  | .lnk => some .lnk
  | .fifo => some .fifo
  | .sock => some .sock
  | .blk => some .blk
  | .chr => some .chr

def filterEntry : Filter.WalkEntry :=
  { path := entry.path, dType := filterDType entry.dType, isDir := entry.isDir }

variable (root : CStr)

def filterShouldSkip (entry : Walk.Entry) (chain : List State) : Filter.FilterResult :=
  if 0 < entry.depth then
    Filter.walkFilterShouldSkip L config.entryMatchesType ⟨config.filterOpts, some root⟩ (filterEntry entry) chain
  else ⟨false, true⟩

def missesInclude (entry : Walk.Entry) : Bool :=
  0 < entry.depth && config.filterOpts.any (fun opts => !opts.includePatterns.isEmpty) && !entry.isDir &&
    !Filter.filterMatchesIncludeRelative L ⟨config.filterOpts, some root⟩ (PathOps.basenamePtr entry.path)
      (Filter.filterRelativePath ⟨config.filterOpts, some root⟩ entry.path)

def consulted (st : WalkState τ) : Option (List State) :=
  activeChain config (dirFramesPopToDepth st.dirFrames entry.depth)

def configVisit (chain : List State) (user : τ) : Walk.Visited τ :=
  match config.visitWithIgnore with
  | some visit => visit entry chain user
  | none => config.visit entry user

/-- What the callback asked for, and a frame for a directory that will be entered. -/
def pushVisited (v : Walk.Visited τ) (st : WalkState τ) : Walk.Visited (WalkState τ) :=
  let st := { st with user := v.user }
  let action := if v.action = .continue && v.prune then .prune else v.action
  if config.haveIgnoreOpts && entry.isDir && action = .continue then
    let push := pushDirFrame config entry st
    ⟨push.1, v.prune, v.stop, push.2⟩
  else ⟨action, v.prune, v.stop, st⟩

def searchVisit (entry : Walk.Entry) (st : WalkState τ) : Walk.Visited (WalkState τ) :=
  let chain := (consulted config entry st).getD []
  let st := { st with dirFrames := dirFramesPopToDepth st.dirFrames entry.depth }
  let filter := filterShouldSkip L config root entry chain
  if filter.skip then ⟨if entry.isDir then .prune else .continue, entry.prune, false, st⟩
  else if filter.selected && missesInclude L config root entry then ⟨.continue, entry.prune, false, st⟩
  else if !filter.selected then pushVisited config entry ⟨.continue, entry.prune, false, st.user⟩ st
  else pushVisited config entry (configVisit config entry chain st.user) st

def searchEnv : Walk.Env (WalkState τ) where
  visit := searchVisit L config root
  error := config.error.map fun error path errnum st =>
    let h := error path errnum st.user
    ⟨h.action, h.stop, { st with user := h.user }⟩
  cancelRequested st :=
    let r := config.cancelRequested st.user
    (r.1, { st with user := r.2 })
  syscall call st :=
    let r := config.syscall call st.user
    (r.1, { st with user := r.2 })

variable {D : Type*} (tree : Walk.FileTree D)

/-- `rootDir` is the open directory of `bx_search_walk_opened_dir`. -/
def searchWalkImpl (fuel : Nat) (root : CStr) (node : Walk.Node D) (rootDir : Option D) (user : τ) (stop : Bool) :
    Option (Bool × Walk.WalkState D (WalkState τ)) :=
  match rootDir with
  | some dir =>
    Walk.walkOpenedDir tree (searchEnv L config root) config.walkOpts fuel root dir ⟨initRootDirFrame config, user⟩ stop
  | none =>
    Walk.walk tree (searchEnv L config root) config.walkOpts fuel root node ⟨initRootDirFrame config, user⟩ stop

end

end Bx.Traverse
