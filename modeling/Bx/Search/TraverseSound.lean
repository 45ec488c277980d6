import Bx.Search.Traverse
import Bx.Fswalk.WalkTermination

/-!
# Every entry is visited with the ignore programs of its ancestors

`framesFor trail` is the stack after the directory `trail` has been visited. Popping to the depth of a directory's
entries gives the frames for that directory (`framesInvariant`), whatever was pushed for siblings since.
-/

namespace Bx.Traverse

open Bx.Kit Bx.IgnoreProgram Bx.IgnoreState List
open Bx.Walk (pathOf)

variable {τ : Type*} {L : Libc} {config : Config τ} {frames : List DirFrame}

/-! ## Popping -/

theorem pop_concat (frames : List DirFrame) (top : DirFrame) (depth : Nat) :
    dirFramesPopToDepth (frames ++ [top]) depth =
      if depth < top.appliesDepth then dirFramesPopToDepth frames depth else frames ++ [top] := by
  unfold dirFramesPopToDepth
  rw [rdropWhile_concat]
  simp only [decide_eq_true_eq]

theorem pop_pop {depth depth' : Nat} (h : depth ≤ depth') :
    dirFramesPopToDepth (dirFramesPopToDepth frames depth') depth = dirFramesPopToDepth frames depth := by
  induction frames using reverseRecOn with
  | nil => rfl
  | append_singleton frames top ih =>
    rw [pop_concat frames top depth']
    by_cases htop : depth' < top.appliesDepth
    · rw [if_pos htop, pop_concat, if_pos (lt_of_le_of_lt h htop)]
      exact ih
    · rw [if_neg htop]

theorem pop_self {depth : Nat} (h : ∀ f ∈ frames, f.appliesDepth ≤ depth) : dirFramesPopToDepth frames depth = frames := by
  apply rdropWhile_eq_self_iff.mpr
  intro hne
  have := h _ (getLast_mem hne)
  simpa using this

theorem pop_push {depth : Nat} {frame : DirFrame} (h : ∀ f ∈ frames, f.appliesDepth ≤ depth)
    (hframe : depth < frame.appliesDepth) : dirFramesPopToDepth (frames ++ [frame]) depth = frames := by
  rw [pop_concat, if_pos hframe]
  exact pop_self h

section
variable (config)

/-- `trail` is the directory's, with its own name first. -/
def framesFor : List CStr → List DirFrame
  | [] => initRootDirFrame config
  | name :: trail =>
    match directoryProgram config (pathOf (name :: trail)) with
    | .ok (some program) =>
      framesFor trail ++ [dirFrame config (framesFor trail) (pathOf (name :: trail)) trail.length program]
    | _ => framesFor trail

/-- The ignore programs of the directories on a trail, nearest first, and then the chain above the root. -/
def chainFor : List CStr → List State
  | [] => if config.haveIgnoreOpts then config.parentChain else []
  | name :: trail =>
    match directoryProgram config (pathOf (name :: trail)) with
    | .ok program => appendState (chainFor trail) program (some (pathOf (name :: trail))) none
    | .error _ => chainFor trail

end

variable (trail : List CStr)

theorem framesFor_depth : ∀ f ∈ framesFor config trail, f.appliesDepth ≤ trail.length := by
  induction trail with
  | nil =>
    intro f hf
    unfold framesFor initRootDirFrame at hf
    split at hf
    · rw [mem_singleton.mp hf]
      exact Nat.le_refl 0
    · cases hf
  | cons name trail ih =>
    intro f hf
    unfold framesFor at hf
    split at hf
    · cases mem_append.mp hf with
      | inl hold => exact (ih f hold).trans (Nat.le_succ _)
      | inr hnew =>
        rw [mem_singleton.mp hnew]
        exact le_rfl
    · exact (ih f hf).trans (Nat.le_succ _)

/-! ## Pointers down the stack -/

def Below (height : Nat) : Option StateRef → Prop
  | some (.inline i) => i < height
  | _ => True

def Stacked (frames : List DirFrame) : Prop :=
  ∀ i frame inlineState, frames[i]? = some frame → frame.inlineIgnoreState = some inlineState → Below i inlineState.parent

theorem chainFrom_append (hst : Stacked frames) (frame : DirFrame) {fuel fuel' : Nat} {ref : Option StateRef}
    (hbelow : Below frames.length ref) (hfuel : Below fuel ref) (hfuel' : Below fuel' ref) :
    chainFrom config (frames ++ [frame]) fuel ref = chainFrom config frames fuel' ref := by
  induction fuel generalizing fuel' ref with
  | zero =>
    cases ref with
    | none => simp only [chainFrom]
    | some r =>
      cases r with
      | parentChain => simp only [chainFrom]
      | inline i => exact absurd hfuel (Nat.not_lt_zero i)
  | succ fuel ih =>
    cases ref with
    | none => simp only [chainFrom]
    | some r =>
      cases r with
      | parentChain => simp only [chainFrom]
      | inline i =>
        cases fuel' with
        | zero => exact absurd hfuel' (Nat.not_lt_zero i)
        | succ fuel' =>
          have hi : i < frames.length := hbelow
          simp only [chainFrom, getElem?_append_left hi]
          cases hframe : (frames[i]?).bind (·.inlineIgnoreState) with
          | none => rfl
          | some inlineState =>
            obtain ⟨f, hf, hs⟩ := Option.bind_eq_some_iff.mp hframe
            have hpar := hst i f inlineState hf hs
            have hweak : ∀ {n}, i ≤ n → Below n inlineState.parent := by
              intro n hn
              cases hp : inlineState.parent with
              | none => trivial
              | some p =>
                rw [hp] at hpar
                cases p with
                | parentChain => trivial
                | inline j => exact lt_of_lt_of_le hpar hn
            simp only
            rw [ih (hweak hi.le) (hweak (Nat.le_of_lt_succ hfuel)) (hweak (Nat.le_of_lt_succ hfuel'))]

theorem framesFor_stacked :
    Stacked (framesFor config trail) ∧ Below (framesFor config trail).length (activeIgnoreState (framesFor config trail)) := by
  induction trail with
  | nil =>
    unfold framesFor initRootDirFrame
    split
    · refine ⟨?_, trivial⟩
      intro i frame inlineState hframe hinline
      rw [mem_singleton.mp (mem_of_getElem? hframe)] at hinline
      cases hinline
    · refine ⟨?_, trivial⟩
      intro i frame inlineState hframe
      cases hframe
  | cons name trail ih =>
    obtain ⟨hst, hactive⟩ := ih
    unfold framesFor
    split
    · refine ⟨?_, ?_⟩
      · intro i frame inlineState hframe hinline
        by_cases hi : i < (framesFor config trail).length
        · rw [getElem?_append_left hi] at hframe
          exact hst i frame inlineState hframe hinline
        · rw [getElem?_append_right (Nat.le_of_not_lt hi)] at hframe
          have hmem := mem_singleton.mp (mem_of_getElem? hframe)
          have hlen : i - (framesFor config trail).length < 1 := (List.getElem?_eq_some_iff.mp hframe).1
          have hieq : i = (framesFor config trail).length := by omega
          rw [hmem] at hinline
          cases hinline
          rw [hieq]
          exact hactive
      · rw [activeIgnoreState, getLast?_concat, length_append]
        exact Nat.lt_succ_self _
    · exact ⟨hst, hactive⟩

theorem activeChain_framesFor : activeChain config (framesFor config trail) = some (chainFor config trail) := by
  induction trail with
  | nil =>
    unfold framesFor chainFor initRootDirFrame activeChain
    cases hopts : config.haveIgnoreOpts with
    | false => rfl
    | true =>
      cases hchain : config.parentChain with
      | nil => rfl
      | cons state parents =>
        show some config.parentChain = some _
        rw [hchain]
        rfl
  | cons name trail ih =>
    obtain ⟨hst, hactive⟩ := framesFor_stacked trail
    unfold framesFor chainFor
    cases hprog : directoryProgram config (pathOf (name :: trail)) with
    | error errnum => exact ih
    | ok program =>
      cases program with
      | none => exact ih
      | some program =>
        simp only
        unfold activeChain
        rw [activeIgnoreState, getLast?_concat, length_append]
        show chainFrom config _ ((framesFor config trail).length + 1) (some (.inline (framesFor config trail).length)) = _
        simp only [chainFrom, getElem?_concat_length]
        show (chainFrom config _ _ (activeIgnoreState (framesFor config trail))).map _ = _
        rw [chainFrom_append hst _ hactive hactive hactive]
        show (activeChain config (framesFor config trail)).map _ = _
        rw [ih]
        rfl

/-! ## The visit -/

variable {root : CStr} {entry : Walk.Entry} {st : WalkState τ}

theorem pushDirFrame_frames : (pushDirFrame config entry st).2.dirFrames = st.dirFrames ∨
      ∃ program, directoryProgram config entry.path = .ok (some program) ∧
        (pushDirFrame config entry st).2.dirFrames =
          st.dirFrames ++ [dirFrame config st.dirFrames entry.path entry.depth program] := by
  unfold pushDirFrame
  split
  · exact Or.inl rfl
  · exact Or.inl rfl
  · rename_i program hprog
    dsimp only
    split
    · exact Or.inl rfl
    · split
      · exact Or.inl rfl
      · exact Or.inr ⟨program, hprog, rfl⟩

theorem pushDirFrame_continue (h : (pushDirFrame config entry st).1 = .continue) :
    (directoryProgram config entry.path = .ok none ∧ (pushDirFrame config entry st).2.dirFrames = st.dirFrames) ∨
      ∃ program, directoryProgram config entry.path = .ok (some program) ∧
        (pushDirFrame config entry st).2.dirFrames =
          st.dirFrames ++ [dirFrame config st.dirFrames entry.path entry.depth program] := by
  unfold pushDirFrame at h ⊢
  split at h
  · cases h
  · rename_i hprog
    exact Or.inl ⟨hprog, rfl⟩
  · rename_i program hprog
    refine Or.inr ⟨program, hprog, ?_⟩
    dsimp only at h ⊢
    split at h
    · cases h
    · rw [if_neg ‹_›]
      split at h
      · cases h
      · rw [if_neg ‹_›]

theorem pushVisited_frames (v : Walk.Visited τ) : (pushVisited config entry v st).user.dirFrames = st.dirFrames ∨
      ∃ program, directoryProgram config entry.path = .ok (some program) ∧
        (pushVisited config entry v st).user.dirFrames =
          st.dirFrames ++ [dirFrame config st.dirFrames entry.path entry.depth program] := by
  unfold pushVisited
  dsimp only
  by_cases hpush : (config.haveIgnoreOpts && entry.isDir &&
      (if v.action = .continue && v.prune then Walk.Action.prune else v.action) = .continue) = true
  · rw [if_pos hpush]
    exact pushDirFrame_frames
  · rw [if_neg hpush]
    exact Or.inl rfl

theorem pushVisited_enter (v : Walk.Visited τ) (hdir : entry.isDir = true)
    (haction : (pushVisited config entry v st).action = .continue) :
    (directoryProgram config entry.path = .ok none ∧ (pushVisited config entry v st).user.dirFrames = st.dirFrames) ∨
      ∃ program, directoryProgram config entry.path = .ok (some program) ∧
        (pushVisited config entry v st).user.dirFrames =
          st.dirFrames ++ [dirFrame config st.dirFrames entry.path entry.depth program] := by
  unfold pushVisited at haction ⊢
  dsimp only at haction ⊢
  by_cases hpush : (config.haveIgnoreOpts && entry.isDir &&
      (if v.action = .continue && v.prune then Walk.Action.prune else v.action) = .continue) = true
  · rw [if_pos hpush] at haction ⊢
    exact pushDirFrame_continue haction
  · rw [if_neg hpush] at haction ⊢
    have hopts : config.haveIgnoreOpts = false := by
      have haction' : (if v.action = .continue && v.prune then Walk.Action.prune else v.action) = .continue := haction
      rw [haction'] at hpush
      simpa [hdir] using hpush
    refine Or.inl ⟨?_, rfl⟩
    unfold directoryProgram
    rw [hopts]
    rfl

theorem searchVisit_frames (root : CStr) (hpop : dirFramesPopToDepth st.dirFrames entry.depth = frames) :
    (searchVisit L config root entry st).user.dirFrames = frames ∨
      ∃ program, directoryProgram config entry.path = .ok (some program) ∧
        (searchVisit L config root entry st).user.dirFrames =
          frames ++ [dirFrame config frames entry.path entry.depth program] := by
  rw [← hpop]
  unfold searchVisit
  dsimp only
  split
  · exact Or.inl rfl
  · split
    · exact Or.inl rfl
    · split
      · exact pushVisited_frames _
      · exact pushVisited_frames _

theorem searchVisit_enter (hpop : dirFramesPopToDepth st.dirFrames entry.depth = frames) (hdir : entry.isDir = true)
    (haction : (searchVisit L config root entry st).action = .continue) :
    (directoryProgram config entry.path = .ok none ∧ (searchVisit L config root entry st).user.dirFrames = frames) ∨
      ∃ program, directoryProgram config entry.path = .ok (some program) ∧
        (searchVisit L config root entry st).user.dirFrames =
          frames ++ [dirFrame config frames entry.path entry.depth program] := by
  rw [← hpop]
  unfold searchVisit at haction ⊢
  dsimp only at haction ⊢
  split at haction
  · cases haction
  · rw [if_neg ‹_›]
    split at haction
    · rename_i hmiss
      simp [missesInclude, hdir] at hmiss
    · rw [if_neg ‹_›]
      split at haction
      · rw [if_pos ‹_›]
        exact pushVisited_enter _ hdir haction
      · rw [if_neg ‹_›]
        exact pushVisited_enter _ hdir haction

def framesInvariant (config : Config τ) (trail : List CStr) (st : WalkState τ) : Prop :=
  dirFramesPopToDepth st.dirFrames trail.length = framesFor config trail

theorem framesFor_pop (name : CStr) (trail : List CStr) :
    dirFramesPopToDepth (framesFor config (name :: trail)) trail.length = framesFor config trail := by
  rw [framesFor]
  split
  · apply pop_push (framesFor_depth trail)
    exact Nat.lt_succ_self _
  · exact pop_self (framesFor_depth trail)

theorem envInvariant_frames (hpost : config.walkOpts.postOrder = false) (root : CStr) :
    Walk.EnvInvariant (searchEnv L config root) config.walkOpts (framesInvariant config) where
  syscall _ h := h
  cancel h := h
  error := by
    intro trail st f hf path errnum h
    obtain ⟨g, _, rfl⟩ := Option.map_eq_some_iff.mp hf
    exact h
  visit := by
    intro trail st name entry h hpath hdepth
    unfold framesInvariant at h
    rw [← hdepth] at h
    show dirFramesPopToDepth (searchVisit L config root entry st).user.dirFrames trail.length = _
    cases searchVisit_frames root h with
    | inl hsame =>
      rw [hsame]
      exact pop_self (framesFor_depth trail)
    | inr hpush =>
      obtain ⟨program, _, hpush⟩ := hpush
      rw [hpush]
      apply pop_push (framesFor_depth trail)
      rw [hdepth]
      exact Nat.lt_succ_self _
  enter := by
    intro trail st name entry _ h hpath hdepth hdir _ haction _
    unfold framesInvariant at h
    rw [← hdepth] at h
    have hfor : (searchVisit L config root entry st).user.dirFrames = framesFor config (name :: trail) := by
      rw [framesFor, ← hpath]
      cases searchVisit_enter h hdir haction with
      | inl hnone =>
        rw [hnone.1]
        exact hnone.2
      | inr hpush =>
        obtain ⟨program, hprog, hpush⟩ := hpush
        rw [hprog, ← hdepth]
        exact hpush
    show dirFramesPopToDepth (searchVisit L config root entry st).user.dirFrames _ = _
    rw [hfor]
    exact pop_self (framesFor_depth _)
  enterFirst := by
    intro trail st name hpost'
    simp [hpost] at hpost'
  leave := by
    intro trail st name h
    have h' : dirFramesPopToDepth st.dirFrames (trail.length + 1) = framesFor config (name :: trail) := h
    show dirFramesPopToDepth st.dirFrames trail.length = framesFor config trail
    rw [← pop_pop (Nat.le_succ trail.length), h']
    exact framesFor_pop name trail

/-! ## The chain an entry is visited with -/

def ancestorPaths : List CStr → List CStr
  | [] => []
  | name :: trail => pathOf (name :: trail) :: ancestorPaths trail

def programAt (config : Config τ) (path : CStr) : Option (CStr × Program) :=
  match directoryProgram config path with
  | .ok (some program) => some (path, program)
  | _ => none

def ownProgram (state : State) : Option CStr × Option Program := (state.dirpath, state.program)

def parentPrograms (config : Config τ) : List (Option CStr × Option Program) :=
  if config.haveIgnoreOpts then config.parentChain.map ownProgram else []

theorem chainFor_programs : (chainFor config trail).map ownProgram =
      ((ancestorPaths trail).filterMap (programAt config)).map (fun p => (some p.1, some p.2)) ++ parentPrograms config := by
  induction trail with
  | nil =>
    unfold chainFor parentPrograms
    split <;> rfl
  | cons name trail ih =>
    unfold chainFor ancestorPaths programAt
    rw [filterMap_cons]
    cases directoryProgram config (pathOf (name :: trail)) with
    | error errnum => exact ih
    | ok program =>
      cases program with
      | none => exact ih
      | some program =>
        show ownProgram _ :: (chainFor config trail).map ownProgram = _
        rw [ih]
        rfl

theorem consulted_of_invariant {trail : List CStr} (h : framesInvariant config trail st)
    (hdepth : entry.depth = trail.length) : consulted config entry st = some (chainFor config trail) := by
  unfold consulted
  unfold framesInvariant at h
  rw [hdepth, h]
  exact activeChain_framesFor trail

theorem framesInvariant_root (user : τ) : framesInvariant config [] ⟨initRootDirFrame config, user⟩ :=
  pop_self (framesFor_depth [])

section
variable {D : Type*} {tree : Walk.FileTree D} {fuel : Nat} {node : Walk.Node D} {rootDir : Option D} {user : τ}
  {stop : Bool} {r : Bool × Walk.WalkState D (WalkState τ)}

theorem searchWalk_log (hpost : config.walkOpts.postOrder = false)
    (h : searchWalkImpl L config tree fuel root node rootDir user stop = some r) :
    ∀ event ∈ r.2.log, Walk.EventOk tree config.walkOpts (framesInvariant config) event := by
  have hinit : framesInvariant config [] ⟨initRootDirFrame config, user⟩ := framesInvariant_root user
  unfold searchWalkImpl at h
  split at h
  · rename_i dir
    refine Walk.walkFrom_log (envInvariant_frames hpost root) ?_ (Walk.initialState_at hinit stop) h
    intro s hs
    cases hs
    exact Walk.rootOk_opened dir
  · refine Walk.walkFrom_log (envInvariant_frames hpost root) ?_ (Walk.initialState_at hinit stop) h
    intro s hs
    exact Walk.rootOk_walk node hs

/-- **Main result.** In a pre-order walk every entry is visited with the programs of the directories above it, nearest
first, up to and with the search root's own, followed by the chain the walk began with. -/
theorem consulted_ancestors (hpost : config.walkOpts.postOrder = false)
    (h : searchWalkImpl L config tree fuel root node rootDir user stop = some r) {trail : List CStr}
    (hvisit : .visit trail entry st ∈ r.2.log) :
    ∃ name ancestors chain, trail = name :: ancestors ∧ entry.path = pathOf trail ∧
      consulted config entry st = some chain ∧
      chain.map ownProgram = ((ancestorPaths ancestors).filterMap (programAt config)).map (fun p => (some p.1, some p.2)) ++
        parentPrograms config := by
  obtain ⟨name, ancestors, htrail, hpath, hdepth, hinv⟩ := searchWalk_log hpost h _ hvisit
  exact ⟨name, ancestors, chainFor config ancestors, htrail, hpath, consulted_of_invariant hinv hdepth,
    chainFor_programs ancestors⟩

end

/-! ## The search root's own program -/

def emptyProgram : Program := ⟨[], [], [], [], [], true, 0, false⟩

def rootTree : Walk.FileTree Unit where
  id _ := ⟨1, 1⟩
  dirents _ := [⟨['f'], .reg, .real (.file ⟨⟨1, 2⟩, .reg⟩)⟩]
  height _ := 0
  file_type := by simp
  dType_eq := by simp [Walk.Node.type]
  height_lt := by simp [Walk.children]

def rootConfig : Config Unit where
  walkOpts := { Walk.loopOpts with cycleMode := .none }
  filterOpts := none
  haveIgnoreOpts := true
  noIgnore := false
  parentChain := []
  loadProgram path := if path = ['r'] then .ok (some emptyProgram) else .ok none
  alloc _ := (true, ())
  entryMatchesType _ _ := true
  visit _ _ := ⟨.continue, false, false, ()⟩
  visitWithIgnore := none
  error := none
  cancelRequested _ := (false, ())
  syscall _ _ := (none, ())

def rootWalk : Option (Bool × Walk.WalkState Unit (WalkState Unit)) :=
  searchWalkImpl posixLibc rootConfig rootTree 2 ['r'] (.real (.directory ())) none () false

def fileEntry : Walk.Entry := { Walk.emptyEntry .reg 1 with path := ['r', '/', 'f'] }

def fileState : WalkState Unit := ⟨[dirFrame rootConfig [] ['r'] 0 emptyProgram], ()⟩

/-- The search root is not below itself, and its program is consulted. -/
theorem consulted_not_only_below_root : ¬ ∀ r, rootWalk = some r → ∀ name ancestors entry st,
    .visit (name :: ancestors) entry st ∈ r.2.log → ∃ chain, consulted rootConfig entry st = some chain ∧
      chain.map ownProgram =
        ((ancestorPaths ancestors).dropLast.filterMap (programAt rootConfig)).map (fun p => (some p.1, some p.2)) ++
          parentPrograms rootConfig := by
  intro hall
  obtain ⟨r, hr⟩ : ∃ r, rootWalk = some r := ⟨_, rfl⟩
  have hvisit : .visit [['f'], ['r']] fileEntry fileState ∈ r.2.log := by
    cases hr
    exact mem_of_getElem? (i := 2) rfl
  obtain ⟨chain, hchain, hprograms⟩ := hall r hr _ _ _ _ hvisit
  have hown : (consulted rootConfig fileEntry fileState).map (·.map ownProgram) =
      some [(some ['r'], some emptyProgram)] := by decide
  rw [hchain, Option.map_some, hprograms] at hown
  exact absurd hown (by decide)

theorem consulted_ancestors_root : ∃ r, rootWalk = some r ∧ ∃ name ancestors chain, [['f'], ['r']] = name :: ancestors ∧
    fileEntry.path = pathOf [['f'], ['r']] ∧ consulted rootConfig fileEntry fileState = some chain ∧ chain.map ownProgram =
      ((ancestorPaths ancestors).filterMap (programAt rootConfig)).map (fun p => (some p.1, some p.2)) ++
        parentPrograms rootConfig := by
  obtain ⟨r, hr⟩ : ∃ r, rootWalk = some r := ⟨_, rfl⟩
  refine ⟨r, hr, consulted_ancestors rfl hr ?_⟩
  cases hr
  exact mem_of_getElem? (i := 2) rfl

end Bx.Traverse
