import Bx.Fswalk.WalkSound
import Mathlib.Data.Finset.Lattice.Fold
import Mathlib.Data.Fintype.Basic
import Mathlib.Order.Lattice.Nat

/-!
# The walk terminates

A directory is entered with an identity that is not among its ancestors' or, under `symlinkRepeat`, through its name in
the tree of real directories. The first kind uses up an identity, the second one level of that tree.
-/

namespace Bx.Walk

open Bx.Kit

variable {D σ : Type*} {tree : FileTree D} {env : Env σ} {opts : Opts} {st : WalkState D σ}

/-! ## More fuel -/

/-- What `f` answers, `g` answers too. -/
def Extends {α β γ : Type*} (f g : α → β → Option γ) : Prop := ∀ a b r, f a b = some r → g a b = some r

section
variable {f g : D → Frame D → WalkState D σ → Option (Bool × WalkState D σ)} {r : Bool × WalkState D σ}

theorem visitAround_mono {descend descend' : Entry → WalkState D σ → Option (Bool × WalkState D σ)}
    (hd : Extends descend descend') (trail : List CStr) :
    Extends (visitAround env opts trail descend) (visitAround env opts trail descend') := by
  intro entry st r h
  unfold visitAround at h ⊢
  dsimp only at h ⊢
  split at h
  · cases hdesc : descend entry st with
    | none => simp [hdesc] at h
    | some r' =>
      rw [hdesc] at h
      rw [if_pos ‹_›, hd _ _ _ hdesc]
      exact h
  · rw [if_neg ‹_›]
    split at h
    · rw [if_pos ‹_›]
      exact h
    · rw [if_neg ‹_›]
      cases hdesc : descend (applyVisitAction env opts trail entry st).2.1 (applyVisitAction env opts trail entry st).2.2.2 with
      | none => simp [hdesc] at h
      | some r' =>
        rw [hdesc] at h
        rw [hd _ _ _ hdesc]
        exact h

theorem descendChild_mono (hfg : ∀ dir, Extends (f dir) (g dir)) (frame : Frame D) (dirent : Dirent D) :
    Extends (descendChild env opts f frame dirent) (descendChild env opts g frame dirent) := by
  intro entry st r h
  unfold descendChild at h ⊢
  dsimp only at h ⊢
  split at h
  · rw [if_pos ‹_›]
    split at h
    · exact h
    · exact hfg _ _ _ _ h
  · rw [if_neg ‹_›]
    exact h

theorem visitEntry_mono (hfg : ∀ dir, Extends (f dir) (g dir)) (rootDevice : Nat) (frame : Frame D) :
    Extends (recursiveVisitEntry tree env opts f rootDevice frame) (recursiveVisitEntry tree env opts g rootDevice frame) := by
  intro dirent st r h
  unfold recursiveVisitEntry at h ⊢
  dsimp only at h ⊢
  split at h
  · rw [if_pos ‹_›]
    exact h
  · rw [if_neg ‹_›]
    split at h
    · exact h
    · split at h
      · exact h
      · split at h
        · rw [if_pos ‹_›]
          exact h
        · rw [if_neg ‹_›]
          split at h
          · rw [if_pos ‹_›]
            exact h
          · rw [if_neg ‹_›]
            split at h
            · exact h
            · obtain ⟨r', hr', rfl⟩ := Option.map_eq_some_iff.mp h
              refine Option.map_eq_some_iff.mpr ⟨r', ?_, rfl⟩
              exact visitAround_mono (descendChild_mono hfg frame dirent) _ _ _ _ hr'

theorem visitEntries_mono {visit visit' : Dirent D → WalkState D σ → Option (Bool × WalkState D σ)}
    (hv : Extends visit visit') {trail : List CStr} {sorted : Bool} {entries : List (Dirent D)} {failed : Bool}
    {r : Option Nat × Bool × WalkState D σ} (h : visitEntries env opts visit trail sorted entries failed st = some r) :
    visitEntries env opts visit' trail sorted entries failed st = some r := by
  induction entries generalizing failed st with
  | nil =>
    unfold visitEntries at h ⊢
    exact h
  | cons dirent rest ih =>
    unfold visitEntries at h ⊢
    dsimp only at h ⊢
    split at h
    · exact h
    · split at h
      · cases h
      · rename_i hone
        rw [hv _ _ _ hone]
        dsimp only
        split at h
        · rw [if_pos ‹_›]
          exact h
        · rw [if_neg ‹_›]
          exact ih h

theorem recursive_mono (rootDevice fuel : Nat) (dir : D) :
    Extends (recursive tree env opts rootDevice fuel dir) (recursive (σ := σ) tree env opts rootDevice (fuel + 1) dir) := by
  induction fuel generalizing dir with
  | zero =>
    intro frame st r h
    cases h
  | succ fuel ih =>
    intro frame st r h
    have hv : Extends (recursiveVisitEntry tree env opts (recursive tree env opts rootDevice fuel) rootDevice frame)
        (recursiveVisitEntry tree env opts (recursive tree env opts rootDevice (fuel + 1)) rootDevice frame) :=
      visitEntry_mono ih rootDevice frame
    rw [recursive] at h ⊢
    dsimp only at h ⊢
    split at h
    · rw [if_pos ‹_›]
      exact h
    · rw [if_neg ‹_›]
      split at h
      · rw [if_pos ‹_›]
        split at h
        · exact h
        · obtain ⟨r', hr', rfl⟩ := Option.map_eq_some_iff.mp h
          exact Option.map_eq_some_iff.mpr ⟨r', visitEntries_mono hv hr', rfl⟩
      · rw [if_neg ‹_›]
        split at h
        · cases h
        · rename_i hentries
          rw [visitEntries_mono hv hentries]
          exact h

end

/-! ## Enough fuel -/

section
variable {recurse : D → Frame D → WalkState D σ → Option (Bool × WalkState D σ)} {frame : Frame D}

theorem visitAround_isSome {descend : Entry → WalkState D σ → Option (Bool × WalkState D σ)} {entry : Entry}
    (h : ∀ prune st, (descend { entry with prune := prune } st).isSome) (trail : List CStr) :
    (visitAround env opts trail descend entry st).isSome := by
  unfold visitAround
  dsimp only
  split
  · have hone := h entry.prune st
    split
    · rename_i hnone
      have hnone' : descend { entry with prune := entry.prune } st = none := hnone
      simp [hnone'] at hone
    · split <;> rfl
  · split
    · rfl
    · have hentry : ∃ prune, (applyVisitAction env opts trail entry st).2.1 = { entry with prune := prune } := by
        unfold applyVisitAction
        dsimp only
        split <;> exact ⟨_, rfl⟩
      obtain ⟨prune, hentry⟩ := hentry
      rw [hentry]
      have hone := h prune (applyVisitAction env opts trail entry st).2.2.2
      split
      · rename_i hnone
        simp [hnone] at hone
      · rfl

theorem visitEntry_isSome {d : D} {dirent : Dirent D} (hmode : opts.cycleMode ≠ .none)
    (hmem : dirent ∈ tree.dirents d) (hrec : ∀ dir entry st, Admitted tree opts frame.ancestors dirent entry dir →
      (recurse dir (frame.child dirent.name entry.id dir) st).isSome) (rootDevice : Nat) :
    (recursiveVisitEntry tree env opts recurse rootDevice frame dirent st).isSome := by
  unfold recursiveVisitEntry
  dsimp only
  split
  · rfl
  · split
    · rfl
    · rename_i entry wasSymlink st₁ hfill
      obtain ⟨hdesc, _⟩ := fill_describes hmem hfill
      split
      · rfl
      · rename_i prepared st₂ hprep
        split
        · rfl
        · rename_i hrepeat
          split
          · rfl
          · rename_i hcross
            obtain ⟨_, _, hadm⟩ := prepare_admitted hmem hdesc hprep (by simpa using hrepeat) (by simpa using hcross)
            split
            · rfl
            · rw [Option.isSome_map]
              refine visitAround_isSome ?_ _
              intro prune st
              unfold descendChild
              dsimp only
              split
              · rename_i hgo
                have hdir : prepared.entry.isDir = true := by
                  unfold shouldDescendChildDirectory at hgo
                  simp only [Bool.and_eq_true] at hgo
                  exact hgo.2.1.1
                split
                · rfl
                · rename_i dir st' hopen
                  exact hrec dir prepared.entry _ (hadm hmode dir (openChild_eq hopen) hdir)
              · rfl

theorem visitEntries_isSome {visit : Dirent D → WalkState D σ → Option (Bool × WalkState D σ)} {trail : List CStr}
    {sorted : Bool} {entries : List (Dirent D)} (h : ∀ dirent ∈ entries, ∀ st, (visit dirent st).isSome)
    {failed : Bool} : (visitEntries env opts visit trail sorted entries failed st).isSome := by
  induction entries generalizing failed st with
  | nil =>
    unfold visitEntries
    rfl
  | cons dirent rest ih =>
    unfold visitEntries
    dsimp only
    split
    · rfl
    · have hone := h dirent (List.mem_cons_self ..) (readDirents env sorted st).2
      split
      · rename_i hnone
        simp [hnone] at hone
      · split
        · rfl
        · apply ih
          intro e he
          exact h e (List.mem_cons_of_mem _ he)

end

section
variable [Fintype D]

def unseen (tree : FileTree D) (ancestors : List DirId) : Finset DirId :=
  Finset.univ.image tree.id \ ancestors.toFinset

def maxHeight (tree : FileTree D) : Nat := Finset.univ.sup tree.height

def fuelFor (tree : FileTree D) (ancestors : List DirId) (dir : D) : Nat :=
  (unseen tree ancestors).card * (maxHeight tree + 1) + tree.height dir + 1

theorem unseen_cons_le (id : DirId) (ancestors : List DirId) :
    (unseen tree (id :: ancestors)).card ≤ (unseen tree ancestors).card := by
  apply Finset.card_le_card
  apply Finset.sdiff_subset_sdiff (Finset.Subset.refl _)
  rw [List.toFinset_cons]
  exact Finset.subset_insert _ _

variable {ancestors : List DirId}

theorem unseen_cons_lt {dir : D} (h : tree.id dir ∉ ancestors) :
    (unseen tree (tree.id dir :: ancestors)).card < (unseen tree ancestors).card := by
  apply Finset.card_lt_card
  refine ⟨?_, ?_⟩
  · apply Finset.sdiff_subset_sdiff (Finset.Subset.refl _)
    rw [List.toFinset_cons]
    exact Finset.subset_insert _ _
  · intro hsub
    have hmem : tree.id dir ∈ unseen tree ancestors := by
      apply Finset.mem_sdiff.mpr
      exact ⟨Finset.mem_image_of_mem _ (Finset.mem_univ _), fun hin => h (List.mem_toFinset.mp hin)⟩
    have hout := (Finset.mem_sdiff.mp (hsub hmem)).2
    apply hout
    rw [List.toFinset_cons]
    exact Finset.mem_insert_self _ _

theorem fuelFor_child {d dir : D} {dirent : Dirent D} {entry : Entry}
    (hmem : dirent ∈ children (tree.dirents d)) (h : Admitted tree opts ancestors dirent entry dir) :
    fuelFor tree (entry.id :: ancestors) dir < fuelFor tree ancestors d := by
  have hle : (unseen tree (tree.id dir :: ancestors)).card ≤ (unseen tree ancestors).card := unseen_cons_le _ _
  have hmax : tree.height dir ≤ maxHeight tree := Finset.le_sup (f := tree.height) (Finset.mem_univ dir)
  unfold fuelFor
  rw [h.id]
  cases h.fresh_or_real with
  | inl hfresh =>
    rw [h.id] at hfresh
    have hlt := unseen_cons_lt hfresh
    have hmul := Nat.mul_le_mul_right (maxHeight tree + 1) (Nat.succ_le_of_lt hlt)
    rw [Nat.succ_mul] at hmul
    omega
  | inr hreal =>
    have hheight := tree.height_lt d dirent hmem dir hreal
    have hmul := Nat.mul_le_mul_right (maxHeight tree + 1) hle
    omega

theorem recursive_isSome (hmode : opts.cycleMode ≠ .none) (rootDevice : Nat) :
    ∀ fuel dir (frame : Frame D) st, fuelFor tree frame.ancestors dir ≤ fuel →
      (recursive (σ := σ) tree env opts rootDevice fuel dir frame st).isSome := by
  intro fuel
  induction fuel with
  | zero =>
    intro dir frame st hfuel
    unfold fuelFor at hfuel
    omega
  | succ fuel ih =>
    intro dir frame st hfuel
    have hvisit : ∀ dirent ∈ children (tree.dirents dir), ∀ st,
        (recursiveVisitEntry tree env opts (recursive tree env opts rootDevice fuel) rootDevice frame dirent st).isSome := by
      intro dirent hmem st
      refine visitEntry_isSome hmode (children_subset hmem) ?_ rootDevice
      intro dir' entry st hadm
      apply ih
      have hlt := fuelFor_child hmem hadm
      show fuelFor tree (entry.id :: frame.ancestors) dir' ≤ fuel
      omega
    unfold recursive
    dsimp only
    split
    · rfl
    · split
      · split
        · rfl
        · rename_i hlist
          rw [Option.isSome_map]
          refine visitEntries_isSome ?_
          intro dirent hmem
          refine hvisit dirent ?_
          unfold direntListReadSorted at hlist
          dsimp only at hlist
          split at hlist
          · cases hlist
          · cases hlist
            split at hmem
            · exact List.mem_mergeSort.mp (List.mem_reverse.mp hmem)
            · exact List.mem_mergeSort.mp hmem
      · have hsome : (visitEntries env opts (recursiveVisitEntry tree env opts (recursive tree env opts rootDevice fuel)
            rootDevice frame) frame.trail false (children (tree.dirents dir)) false (shouldStop env opts st).2).isSome :=
          visitEntries_isSome hvisit
        split
        · rename_i hnone
          simp [hnone] at hsome
        · split
          · split <;> rfl
          · rfl

/-! ## From the root -/

def walkFuel (tree : FileTree D) : Nat :=
  (Finset.univ.image tree.id).card * (maxHeight tree + 1) + maxHeight tree + 1

theorem fuelFor_le_walkFuel (ancestors : List DirId) (dir : D) : fuelFor tree ancestors dir ≤ walkFuel tree := by
  have hcard : (unseen tree ancestors).card ≤ (Finset.univ.image tree.id).card :=
    Finset.card_le_card Finset.sdiff_subset
  have hmax : tree.height dir ≤ maxHeight tree := Finset.le_sup (f := tree.height) (Finset.mem_univ dir)
  have hmul := Nat.mul_le_mul_right (maxHeight tree + 1) hcard
  unfold fuelFor walkFuel
  omega

variable {root : CStr} {node : Node D} {openedDir : Option D} {stat : Option Stat} {fuel : Nat}

section
variable (hmode : opts.cycleMode ≠ .none) (hfuel : walkFuel tree ≤ fuel)
include hmode hfuel

theorem descendRoot_isSome (id : DirId) (entry : Entry) :
    (descendRoot tree env opts fuel root node openedDir id entry st).isSome := by
  unfold descendRoot
  dsimp only
  split
  · split
    · rfl
    · apply recursive_isSome hmode
      exact (fuelFor_le_walkFuel _ _).trans hfuel
  · rfl

theorem walkFrom_isSome : (walkFrom tree env opts fuel root node openedDir stat st).isSome := by
  unfold walkFrom
  dsimp only
  split
  · rfl
  · split
    · rfl
    · rfl
    · split
      · rfl
      · split
        · apply visitAround_isSome
          intro prune st
          exact descendRoot_isSome hmode hfuel _ _
        · rfl

end

end

variable {openedDir : Option D} {node : Node D} {root : CStr}

theorem descendRoot_mono (fuel : Nat) (id : DirId) :
    Extends (descendRoot (σ := σ) tree env opts fuel root node openedDir id)
      (descendRoot tree env opts (fuel + 1) root node openedDir id) := by
  intro entry st r h
  unfold descendRoot at h ⊢
  dsimp only at h ⊢
  split at h
  · rw [if_pos ‹_›]
    split at h
    · exact h
    · exact recursive_mono _ _ _ _ _ _ h
  · rw [if_neg ‹_›]
    exact h

theorem walkFrom_mono {stat : Option Stat} {fuel fuel' : Nat} {r : Bool × WalkState D σ} (hle : fuel ≤ fuel')
    (h : walkFrom tree env opts fuel root node openedDir stat st = some r) :
    walkFrom tree env opts fuel' root node openedDir stat st = some r := by
  induction hle with
  | refl => exact h
  | step _ ih =>
    unfold walkFrom at ih ⊢
    dsimp only at ih ⊢
    split at ih
    · rw [if_pos ‹_›]
      exact ih
    · rw [if_neg ‹_›]
      split at ih
      · exact ih
      · exact ih
      · split at ih
        · exact ih
        · split at ih
          · rw [if_pos ‹_›]
            exact visitAround_mono (descendRoot_mono _ _) _ _ _ _ ih
          · rw [if_neg ‹_›]
            exact ih

/-! ## The walk as a whole -/

theorem envInvariant_true (env : Env σ) (opts : Opts) : EnvInvariant env opts fun _ _ => True := by
  refine ⟨?_, ?_, ?_, ?_, ?_, ?_, ?_⟩ <;> intros <;> trivial

theorem initialState_at {I : List CStr → σ → Prop} {user : σ} (h : I [] user) (stop : Bool) :
    At tree opts I [] [] (initialState user stop) := by
  refine ⟨rfl, h, ?_⟩
  intro event hmem
  cases hmem

theorem rootOk_walk (node : Node D) {s : Stat} {follow : Bool} (hs : tree.stat follow node = some s) :
    RootOk tree node none s := fun hdir _ hopened => stat_opened hs hdir hopened

theorem rootOk_opened (dir : D) : RootOk tree (.real (.directory dir)) (some dir) ⟨tree.id dir, .dir⟩ := by
  intro _ dir' hopened
  cases hopened
  rfl

/-- **Main result.** A walk that checks for cycles ends, whatever the callbacks do and the system calls answer; under
`dirRepeat` it enters no directory with the identity of a directory above it; and when an entry is done with, the
path buffer holds the path of the directory that lists it. -/
theorem walk_cycle_safe [Fintype D] (tree : FileTree D) (env : Env σ) (opts : Opts)
    (hmode : opts.cycleMode = .dirRepeat ∨ opts.cycleMode = .symlinkRepeat) (root : CStr) (node : Node D) (user : σ)
    (stop : Bool) :
    ∃ r, (∀ fuel, walkFuel tree ≤ fuel → walk tree env opts fuel root node user stop = some r) ∧
      (opts.cycleMode = .dirRepeat → ∀ dirs dir, .enter dirs dir ∈ r.2.log → ∀ a ∈ dirs, tree.id a ≠ tree.id dir) ∧
      ∀ trail pathBuf, .left trail pathBuf ∈ r.2.log → pathBuf = pathOf trail := by
  have hne : opts.cycleMode ≠ .none := by
    intro hnone
    rw [hnone] at hmode
    cases hmode with
    | inl h => cases h
    | inr h => cases h
  have hsome : (walk tree env opts (walkFuel tree) root node user stop).isSome := walkFrom_isSome hne (le_rfl)
  obtain ⟨r, hr⟩ := Option.isSome_iff_exists.mp hsome
  have hlog : ∀ event ∈ r.2.log, EventOk tree opts (fun _ _ => True) event := by
    refine walkFrom_log (envInvariant_true env opts) ?_ (initialState_at trivial stop) hr
    intro s hs
    exact rootOk_walk node hs
  refine ⟨r, ?_, ?_, ?_⟩
  · intro fuel hfuel
    exact walkFrom_mono hfuel hr
  · intro hrepeat dirs dir hmem
    exact hlog _ hmem hrepeat
  · intro trail pathBuf hmem
    exact hlog _ hmem

/-- A directory `d` that holds a symlink `up` to its parent. -/
def loopTree : FileTree (Fin 2) where
  id d := ⟨1, d.val⟩
  dirents d :=
    if d = 0 then [⟨['.'], .dir, .real (.directory 0)⟩, ⟨['d'], .dir, .real (.directory 1)⟩]
    else [⟨['u', 'p'], .lnk, .symlink ⟨1, 5⟩ (some (.directory 0))⟩]
  height d := 1 - d.val
  file_type := by simp [Fin.forall_fin_two]
  dType_eq := by simp [Fin.forall_fin_two, Node.type]
  height_lt := by simp [Fin.forall_fin_two, children]

def quietEnv : Env Unit where
  visit _ _ := ⟨.continue, false, false, ()⟩
  error := none
  cancelRequested _ := (false, ())
  syscall _ _ := (none, ())

def loopOpts : Opts where
  sortEntries := false
  reverseSort := false
  followSymlinks := true
  followRootSymlink := true
  postOrder := false
  stayOnFilesystem := false
  hasStop := false
  suppressEacces := false
  maxDepth := none
  cycleMode := .dirRepeat
  cycleReport := .warn

theorem walk_cycle_safe_loop : ∃ r : Bool × WalkState (Fin 2) Unit,
    (∀ fuel, walkFuel loopTree ≤ fuel → walk loopTree quietEnv loopOpts fuel ['r'] (.real (.directory 0)) () false = some r) ∧
      (loopOpts.cycleMode = .dirRepeat → ∀ dirs dir, .enter dirs dir ∈ r.2.log → ∀ a ∈ dirs,
        loopTree.id a ≠ loopTree.id dir) ∧ ∀ trail pathBuf, .left trail pathBuf ∈ r.2.log → pathBuf = pathOf trail :=
  walk_cycle_safe loopTree quietEnv loopOpts (Or.inl rfl) ['r'] (.real (.directory 0)) () false

end Bx.Walk
