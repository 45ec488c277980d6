import Bx.Kit.SearchOrder
import Bx.Search.IgnoreProgramSound
import Bx.Search.IgnoreState

/-!
# What a chain of ignore states answers

The chain answers with the nearest state whose program answers; asked for one kind of rule, it fills one row of a grid
whose columns are the states.
-/

namespace Bx.IgnoreState

open Bx.Kit Bx.IgnoreProgram List

/-! ## Chain flags -/

section
variable (L : Libc)

def programBasenameOnly (state : State) : Prop := ∀ program, state.program = some program → program.basenameOnly = true

def programHasGenericGlob (state : State) : Prop :=
  ∃ program, state.program = some program ∧ hasGenericGlobFallback program = true

def ChainWf : List State → Prop
  | [] => True
  | state :: parents =>
    (state.basenameOnlyChain = true ↔ ∀ s ∈ state :: parents, programBasenameOnly s) ∧
    (state.hasGenericGlobFallbackChain = true ↔ ∃ s ∈ state :: parents, programHasGenericGlob s) ∧
    (∀ program, state.program = some program → Compiled L program) ∧ ChainWf parents

variable {L} {chain : List State} {dirpath : Option CStr} {program : Option Program}

variable {state : State}

theorem ChainWf.compiled (h : ChainWf L chain) (hs : state ∈ chain) {p : Program}
    (hp : state.program = some p) : Compiled L p := by
  induction chain with
  | nil => cases hs
  | cons s parents ih =>
    cases hs with
    | head => exact h.2.2.1 p hp
    | tail _ hs => exact ih h.2.2.2 hs

theorem stateInit_basenameOnlyChain (h : ChainWf L chain) : (stateInit chain dirpath program).basenameOnlyChain = true ↔
      ∀ s ∈ stateInit chain dirpath program :: chain, programBasenameOnly s := by
  have hself : programBasenameOnly (stateInit chain dirpath program) ↔ program.all (·.basenameOnly) = true := by
    cases program <;> simp [programBasenameOnly, stateInit]
  rw [forall_mem_cons, hself]
  cases chain with
  | nil => simp [stateInit]
  | cons parent parents =>
    rw [← h.1]
    simp only [stateInit, Bool.and_eq_true, head?_cons, Option.all_some]
    exact and_comm

theorem stateInit_hasGenericGlobFallbackChain (h : ChainWf L chain) :
    (stateInit chain dirpath program).hasGenericGlobFallbackChain = true ↔
      ∃ s ∈ stateInit chain dirpath program :: chain, programHasGenericGlob s := by
  have hself : programHasGenericGlob (stateInit chain dirpath program) ↔ program.any hasGenericGlobFallback = true := by
    cases program <;> simp [programHasGenericGlob, stateInit]
  rw [exists_mem_cons_iff, hself]
  cases chain with
  | nil => simp [stateInit]
  | cons parent parents =>
    rw [← h.2.1]
    simp only [stateInit, Bool.or_eq_true, head?_cons, Option.any_some]
    exact or_comm

theorem ChainWf.setPrefix {rootPrefix : Option CStr} (h : ChainWf L (state :: chain)) :
    ChainWf L ({ state with rootPrefix } :: chain) := by
  obtain ⟨hb, hg, hc, hp⟩ := h
  refine ⟨?_, ?_, hc, hp⟩
  · rw [forall_mem_cons] at hb ⊢
    exact hb
  · rw [exists_mem_cons_iff] at hg ⊢
    exact hg

theorem ChainWf.init (h : ChainWf L chain) (hc : ∀ p, program = some p → Compiled L p) :
    ChainWf L (stateInit chain dirpath program :: chain) :=
  ⟨stateInit_basenameOnlyChain h, stateInit_hasGenericGlobFallbackChain h, hc, h⟩

theorem ChainWf.clone (h : ChainWf L chain) : ChainWf L (stateCloneChain chain) := by
  induction chain with
  | nil => trivial
  | cons state parents ih => exact ((ih h.2.2.2).init h.2.2.1).setPrefix

theorem ChainWf.rewritePrefixes (h : ChainWf L chain) (currentRoot subtreeRoot : CStr) :
    ChainWf L (stateRewriteRootPrefixes chain currentRoot subtreeRoot) := by
  induction chain with
  | nil => trivial
  | cons state parents ih =>
    obtain ⟨hb, hg, hc, hp⟩ := h
    refine ⟨?_, ?_, hc, ih hp⟩
    · rw [forall_mem_cons] at hb ⊢
      simpa [stateRewriteRootPrefixes, programBasenameOnly] using hb
    · rw [exists_mem_cons_iff] at hg ⊢
      simpa [stateRewriteRootPrefixes, programHasGenericGlob] using hg

theorem built_wf (h : Built L chain) : ChainWf L chain := by
  induction h with
  | nil => trivial
  | init _ _ hc ih => exact ih.init hc
  | append _ _ _ hc ih =>
    unfold appendState
    split
    · exact ih
    · exact (ih.init hc).setPrefix
  | clone _ ih => exact ih.clone
  | subtree currentRoot subtreeRoot _ ih => exact ih.clone.rewritePrefixes currentRoot subtreeRoot

theorem stateIsBasenameOnlyChain_sound (h : ChainWf L chain) (hb : stateIsBasenameOnlyChain chain = true) :
    ∀ s ∈ chain, programBasenameOnly s := by
  cases chain with
  | nil => cases hb
  | cons state parents => exact h.1.mp hb

theorem stateHasGenericGlobFallbackChain_complete (h : ChainWf L chain)
    (hg : stateHasGenericGlobFallbackChain chain ≠ true) : ¬ ∃ s ∈ chain, programHasGenericGlob s := by
  cases chain with
  | nil => simp
  | cons state parents => exact fun hex => hg (h.2.1.mpr hex)

end

/-! ## Programs with basename rules only -/

section
variable {L : Libc} {program : Program}

theorem Compiled.wf (h : Compiled L program) : program.Wf L := by
  obtain ⟨_, _, h⟩ := h
  exact compileWithSources_wf L h

theorem Compiled.kind_of_basenameOnly (h : Compiled L program) (hb : program.basenameOnly = true) {rule : Rule}
    (hr : rule ∈ program.rules) : rule.kind = .literalBasename := by
  rw [h.wf.basenameOnly_eq, rulesAreBasenameOnly, Bool.and_eq_true, all_eq_true] at hb
  exact of_decide_eq_true (hb.2 rule hr)

variable (h : Compiled L program) (hb : program.basenameOnly = true) (name relativePath : CStr) (isDir : Bool)
include h hb

theorem stage_of_basenameOnly {kind : RuleKind} {r : MatchResult} (hk : kind ≠ .literalBasename)
    (hs : StageOf L program name relativePath isDir kind r) : r = .noMatch := by
  cases hs with
  | inl hs =>
    obtain ⟨_, rule, hr, hkind, _⟩ := hs
    exact absurd (hkind.symm.trans (h.kind_of_basenameOnly hb hr)) hk
  | inr hs => exact hs.1

theorem matchAnchoredPrefix_of_basenameOnly : matchAnchoredPrefix L program name relativePath isDir = .noMatch := by
  unfold matchAnchoredPrefix
  cases hf : findAnchoredPrefix L program relativePath isDir with
  | none => exact matchHit_none L
  | some e =>
    obtain ⟨rule, hlast, _⟩ := findAnchoredPrefix_some L h.wf hf
    have hin : entersPrefixTable rule = true := hlast.sat.1
    simp [entersPrefixTable, h.kind_of_basenameOnly hb hlast.mem] at hin

theorem matchGenericGlobFallback_of_basenameOnly :
    matchGenericGlobFallback L program name relativePath isDir = .noMatch := by
  cases matchGenericGlobFallback_answers L h.wf name relativePath isDir with
  | inl ha =>
    obtain ⟨_, rule, hlast, _⟩ := ha
    exact absurd (hlast.sat.1.symm.trans (h.kind_of_basenameOnly hb hlast.mem)) (by decide)
  | inr hn => exact hn.2

end

/-! ## The grid of stages and states -/

def answer : MatchResult → Option MatchResult
  | .noMatch => none
  | r => some r

theorem answer_orElse (a b : MatchResult) : answer (a.orElse b) = (answer a).or (answer b) := by
  cases a <;> rfl

theorem answer_injective {a b : MatchResult} (h : answer a = answer b) : a = b := by
  cases a <;> cases b <;> first | rfl | cases h

def stages : List MatchMode :=
  [.literalBasename, .literalExtension, .literalDirectory, .anchoredPrefix, .genericGlobFallback]

section
variable (L : Libc) (name path relativePath : CStr) (isDir : Bool)

def stageAnswer (stage : MatchMode) (state : State) : Option MatchResult :=
  answer (stateMatch L name path relativePath isDir stage state)

/-- The nearest state that answers does so at a later stage than some state
beyond it, and the first such answer is the opposite one. -/
abbrev StagesCross (chain : List State) : Prop :=
  Crossing (stageAnswer L name path relativePath isDir) stages chain

theorem answer_stateMatchWithMode (chain : List State) (mode : MatchMode) :
    answer (stateMatchWithMode L chain name path relativePath isDir mode) =
      chain.findSome? (stageAnswer L name path relativePath isDir mode) := by
  induction chain with
  | nil => rfl
  | cons state parents ih =>
    rw [stateMatchWithMode, answer_orElse, ih, findSome?_cons]
    unfold stageAnswer
    cases answer (stateMatch L name path relativePath isDir mode state) <;> rfl

theorem stageAnswer_full (state : State) : stageAnswer L name path relativePath isDir .full state =
      stages.findSome? (stageAnswer L name path relativePath isDir · state) := by
  unfold stageAnswer stateMatch
  cases state.program with
  | none => rfl
  | some program =>
    simp only [programMatchWithMode, stages, findSome?_cons, findSome?_nil]
    unfold programMatch matchWithoutGenericGlobFallback
    simp only [answer_orElse]
    cases answer (matchLiteralBasename L program name (stateCandidate state path relativePath) isDir) with
    | some r => rfl
    | none =>
    cases answer (matchLiteralExtension L program name (stateCandidate state path relativePath) isDir) with
    | some r => rfl
    | none =>
    cases answer (matchLiteralDirectory L program name (stateCandidate state path relativePath) isDir) with
    | some r => rfl
    | none =>
    cases answer (matchAnchoredPrefix L program name (stateCandidate state path relativePath) isDir) with
    | some r => rfl
    | none =>
    cases answer (matchGenericGlobFallback L program name (stateCandidate state path relativePath) isDir) <;> rfl

theorem answer_full (chain : List State) : answer (stateMatchWithMode L chain name path relativePath isDir .full) =
      columnsFirst (stageAnswer L name path relativePath isDir) stages chain := by
  rw [answer_stateMatchWithMode, columnsFirst]
  exact congrArg (chain.findSome? ·) (funext (stageAnswer_full L name path relativePath isDir))

variable {mode : MatchMode}

theorem answer_stateMatchWithMode_none {chain : List State}
    (hno : ∀ state ∈ chain, ∀ program, state.program = some program →
      programMatchWithMode L program name (stateCandidate state path relativePath) isDir mode = .noMatch) :
    answer (stateMatchWithMode L chain name path relativePath isDir mode) = none := by
  rw [answer_stateMatchWithMode, findSome?_eq_none_iff]
  intro state hs
  unfold stageAnswer stateMatch
  cases hp : state.program with
  | none => rfl
  | some program => simp only [hno state hs program hp, answer]

variable {L} {chain : List State} (h : ChainWf L chain)
include h

theorem stateMatchWithMode_of_basenameOnly (hb : stateIsBasenameOnlyChain chain = true)
    (hm : mode ∈ stages) (hne : mode ≠ .literalBasename) :
    answer (stateMatchWithMode L chain name path relativePath isDir mode) = none := by
  apply answer_stateMatchWithMode_none
  intro state hs program hp
  have hc := h.compiled hs hp
  have hpb := stateIsBasenameOnlyChain_sound h hb state hs program hp
  cases mode with
  | literalBasename => exact absurd rfl hne
  | literalExtension => exact stage_of_basenameOnly hc hpb _ _ _ (by decide) (stage_extension L hc.wf _ _ _)
  | literalDirectory => exact stage_of_basenameOnly hc hpb _ _ _ (by decide) (stage_directory L hc.wf _ _ _)
  | anchoredPrefix => exact matchAnchoredPrefix_of_basenameOnly hc hpb _ _ _
  | genericGlobFallback => exact matchGenericGlobFallback_of_basenameOnly hc hpb _ _ _
  | fullNoGenericGlobFallback => exact absurd hm (by decide)
  | full => exact absurd hm (by decide)

theorem stateMatchWithMode_of_no_glob (hg : stateHasGenericGlobFallbackChain chain ≠ true) :
    answer (stateMatchWithMode L chain name path relativePath isDir .genericGlobFallback) = none := by
  apply answer_stateMatchWithMode_none
  intro state hs program hp
  have hno : ¬ hasGenericGlobFallback program = true := fun hf =>
    stateHasGenericGlobFallbackChain_complete h hg ⟨state, hs, program, hp, hf⟩
  unfold programMatchWithMode matchGenericGlobFallback
  rw [Bool.eq_false_iff.mpr hno]
  cases program.rules.isEmpty <;> rfl

end

end Bx.IgnoreState
