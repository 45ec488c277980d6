import Bx.Fswalk.Walk

/-!
# The walker keeps its path buffer and its callbacks' invariants

`EnvInvariant` is what a callback keeps at each place of the walk; `walkFrom_log` takes it to every event. Each function
of the walker leaves the buffer at the path it found there.
-/

namespace Bx.Walk

open Bx.Kit List

variable {D σ : Type*} {tree : FileTree D} {env : Env σ} {opts : Opts} {I : List CStr → σ → Prop}

/-- `I trail user` holds while the entries of the directory `trail` are handled. -/
structure EnvInvariant (env : Env σ) (opts : Opts) (I : List CStr → σ → Prop) : Prop where
  syscall : ∀ {t u} (call : Call), I t u → I t (env.syscall call u).2
  cancel : ∀ {t u}, I t u → I t (env.cancelRequested u).2
  error : ∀ {t u f}, env.error = some f → ∀ path errnum, I t u → I t (f path errnum u).user
  visit : ∀ {t u name entry}, I t u → entry.path = pathOf (name :: t) → entry.depth = t.length →
    I t (env.visit entry u).user
  enter : ∀ {t u name entry}, opts.postOrder = false → I t u → entry.path = pathOf (name :: t) →
    entry.depth = t.length → entry.isDir = true → entry.prune = false → (env.visit entry u).action = .continue →
    (env.visit entry u).prune = false → I (name :: t) (env.visit entry u).user
  enterFirst : ∀ {t u} (name : CStr), opts.postOrder = true → I t u → I (name :: t) u
  leave : ∀ {t u name}, I (name :: t) u → I t u

def EventOk (tree : FileTree D) (opts : Opts) (I : List CStr → σ → Prop) : Event D σ → Prop
  | .visit trail entry user => ∃ name t, trail = name :: t ∧ entry.path = pathOf trail ∧ entry.depth = t.length ∧
      I t user
  | .enter dirs dir => opts.cycleMode = .dirRepeat → ∀ a ∈ dirs, tree.id a ≠ tree.id dir
  | .left trail pathBuf => pathBuf = pathOf trail

structure At (tree : FileTree D) (opts : Opts) (I : List CStr → σ → Prop) (path : CStr) (trail : List CStr)
    (st : WalkState D σ) : Prop where
  path : st.pathBuf = path
  user : I trail st.user
  log : ∀ event ∈ st.log, EventOk tree opts I event

variable {path : CStr} {t : List CStr} {name : CStr} {st : WalkState D σ}

theorem pathOf_cons (ht : t ≠ []) : pathOf (name :: t) = pathOf t ++ '/' :: name := by
  cases t with
  | nil => exact absurd rfl ht
  | cons parent rest => rfl

/-! ## Outside calls -/

theorem At.leave (hI : EnvInvariant env opts I) (h : At tree opts I path (name :: t) st) :
    At tree opts I path t st := ⟨h.path, hI.leave h.user, h.log⟩

theorem At.note {event : Event D σ} (h : At tree opts I path t st) (he : EventOk tree opts I event) :
    At tree opts I path t (st.note event) := by
  refine ⟨h.path, h.user, ?_⟩
  intro e hmem
  cases mem_append.mp hmem with
  | inl hold => exact h.log e hold
  | inr hnew => rw [mem_singleton.mp hnew]; exact he

section
variable (hI : EnvInvariant env opts I) (h : At tree opts I path t st)
include hI h

theorem At.syscall (call : Call) :
    At tree opts I path t (syscall env call st).2 := ⟨h.path, hI.syscall call h.user, h.log⟩

theorem At.shouldStop : At tree opts I path t (shouldStop env opts st).2 := by
  unfold Walk.shouldStop
  split
  · exact h
  · exact ⟨h.path, hI.cancel h.user, h.log⟩

theorem At.handleError (p : CStr) (errnum : Nat) : At tree opts I path t (handleError env p errnum st).2 := by
  unfold Walk.handleError
  split
  · exact h
  · rename_i f hf
    exact ⟨h.path, hI.error hf p errnum h.user, h.log⟩

end

theorem At.status (h : At tree opts I path t st) (action : Action) :
    At tree opts I path t (statusFromAction opts action st).2 := by
  cases action <;> exact ⟨h.path, h.user, h.log⟩

section
variable (hI : EnvInvariant env opts I)
include hI

theorem At.reportError (h : At tree opts I path t st) (errnum : Nat) :
    At tree opts I path t (reportError env opts errnum st).2 :=
  (h.handleError hI st.pathBuf errnum).status _

variable {entry : Entry}

section
variable (h : At tree opts I (pathOf (name :: t)) t st) (hpath : entry.path = pathOf (name :: t))
  (hdepth : entry.depth = t.length)
include h hpath hdepth

theorem At.apply : At tree opts I (pathOf (name :: t)) t (applyVisitAction env opts (name :: t) entry st).2.2.2 := by
  have hnote : At tree opts I (pathOf (name :: t)) t (st.note (.visit (name :: t) entry st.user)) :=
    h.note ⟨name, t, rfl, hpath, hdepth, h.user⟩
  have huser : I t (env.visit entry st.user).user := hI.visit h.user hpath hdepth
  unfold applyVisitAction
  dsimp only
  split <;> exact ⟨hnote.path, huser, hnote.log⟩

theorem At.apply_enter (hpost : opts.postOrder = false)
    (hprune : entry.prune = false) {r : Action × Entry × Bool × WalkState D σ}
    (happly : applyVisitAction env opts (name :: t) entry st = r) (haction : ¬(r.1 = .stop ∨ r.1 = .error)) :
    (r.2.1.isDir = true ∧ r.2.1.prune = false → I (name :: t) r.2.2.2.user) ∧
      r.2.1 = { entry with prune := r.2.1.prune } := by
  unfold applyVisitAction at happly
  dsimp only at happly
  split at happly
  · rename_i hact
    cases happly
    have hcont : (env.visit entry st.user).action = .continue := by
      split at hact
      · cases hact
      · exact hact
    refine ⟨?_, rfl⟩
    intro ⟨hdir, hkeep⟩
    exact hI.enter hpost h.user hpath hdepth hdir hprune hcont hkeep
  · cases happly
    refine ⟨?_, rfl⟩
    intro ⟨_, hkeep⟩
    cases hkeep
  · cases happly
    exact absurd (Or.inl ‹_›) haction
  · cases happly
    exact absurd (Or.inr ‹_›) haction

end

end

/-! ## The path buffer -/

theorem At.ensure (hI : EnvInvariant env opts I) (h : At tree opts I path t st) (name : CStr) :
    At tree opts I (if pathAppended (entryPathEnsure env name false st).1 then path ++ '/' :: name else path) t
      (entryPathEnsure env name false st).2 := by
  have hcall := h.syscall hI .realloc
  rw [show entryPathEnsure env name false st = pathBufPushName env name st from rfl]
  unfold pathBufPushName
  cases hr : (Walk.syscall env .realloc st).1 with
  | some errnum =>
    simp only [hr]
    exact hcall
  | none =>
    simp only [hr]
    refine ⟨?_, hcall.user, hcall.log⟩
    show _ ++ '/' :: name = path ++ '/' :: name
    rw [hcall.path]

theorem At.release {appended : Bool} (h : At tree opts I (if appended then path ++ '/' :: name else path) t st) :
    At tree opts I path t (entryPathRelease appended path.length st) := by
  cases appended with
  | false => exact h
  | true =>
    have hbuf : st.pathBuf = path ++ '/' :: name := h.path
    refine ⟨?_, ?_, ?_⟩
    · unfold entryPathRelease pathBufPopToLen
      rw [if_pos rfl, if_neg (by rw [hbuf, length_append]; omega)]
      show st.pathBuf.take path.length = path
      rw [hbuf, take_left']
      rfl
    · unfold entryPathRelease pathBufPopToLen
      rw [if_pos rfl]
      split <;> exact h.user
    · unfold entryPathRelease pathBufPopToLen
      rw [if_pos rfl]
      split <;> exact h.log

theorem At.release_pushed (h : At tree opts I (path ++ '/' :: name) t st) :
    At tree opts I path t (entryPathRelease true path.length st) := by
  have h' : At tree opts I (if true then path ++ '/' :: name else path) t st := h
  exact h'.release

section
variable (hI : EnvInvariant env opts I) (h : At tree opts I path t st)
include hI h

theorem At.reportEntry (errnum : Nat) : At tree opts I path t (reportEntry env opts name errnum st).2 := by
  unfold Walk.reportEntry
  rw [h.path]
  exact ((h.ensure hI name).reportError hI errnum).release

theorem At.reportLoop : At tree opts I path t (reportLoop env opts name st).2 := by
  unfold Walk.reportLoop
  rw [h.path]
  exact (h.ensure hI name).release

end

/-! ## Entries -/

section
variable {dirent : Dirent D} {entry : Entry} {st' : WalkState D σ}

section
variable (hI : EnvInvariant env opts I) (h : At tree opts I path t st)
include hI h

theorem At.fstatat (dirent : Dirent D) (follow : Bool) :
    At tree opts I path t (fstatat tree env dirent follow st).2 := by
  have hcall := h.syscall hI .fstatat
  unfold Walk.fstatat
  dsimp only
  split
  · exact hcall
  · split <;> exact hcall

theorem At.fill (dirent : Dirent D) (depth : Nat) :
    At tree opts I path t (entryFillFromDirent tree env opts dirent depth st).2 := by
  have hfirst : ∀ {r st'}, Walk.fstatat tree env dirent false st = (r, st') → At tree opts I path t st' := by
    intro r st' hr
    have := h.fstatat hI dirent false
    rwa [hr] at this
  have hnext : ∀ {st r st'}, At tree opts I path t st → Walk.fstatat tree env dirent true st = (r, st') →
      At tree opts I path t st' := by
    intro st r st' h hr
    have := h.fstatat hI dirent true
    rwa [hr] at this
  unfold entryFillFromDirent
  dsimp only
  split
  · split
    · exact h
    · exact h
    · split
      · exact hfirst ‹_›
      · exact hfirst ‹_›
    · exact h
  · split
    · exact h
    iterate 2
      split
      · exact hfirst ‹_›
      · split
        · split
          · exact hnext (hfirst ‹_›) ‹_›
          · exact hnext (hfirst ‹_›) ‹_›
        · split
          · exact hnext (hfirst ‹_›) ‹_›
          · exact hnext (hfirst ‹_›) ‹_›
    · exact h

theorem At.prepare (dirent : Dirent D) (entry : Entry) (rootDevice : Nat) (ancestors : List DirId) (wasSymlink : Bool) :
    At tree opts I path t (prepareDirectory tree env opts rootDevice dirent ancestors wasSymlink entry st).2 := by
  have hload : ∀ {r st'}, entryLoadMetadata tree env opts dirent entry st = (r, st') → At tree opts I path t st' := by
    intro r st' hr
    have hstat := h.fstatat hI dirent opts.followSymlinks
    unfold entryLoadMetadata at hr
    split at hr
    · cases hr
      exact h
    · split at hr
      · rename_i hstat'
        rw [hstat'] at hstat
        cases hr
        exact hstat
      · rename_i hstat'
        rw [hstat'] at hstat
        cases hr
        exact hstat
  unfold prepareDirectory
  split
  · exact h
  · split
    · exact h
    · split
      · exact hload ‹_›
      · split
        · exact hload ‹_›
        · split <;> exact hload ‹_›

theorem At.openFailed (errnum : Nat) : At tree opts I path t (openFailed (D := D) env opts errnum st).2 := by
  unfold Walk.openFailed
  split
  · exact h
  · exact h.reportError hI errnum

theorem At.openPath (node : Node D) : At tree opts I path t (openDirectoryPath env opts node st).2 := by
  have hcall := h.syscall hI .opendir
  unfold openDirectoryPath
  dsimp only
  split
  · exact hcall.openFailed hI _
  · split
    · exact hcall.openFailed hI _
    · exact hcall

theorem At.openChild (dirent : Dirent D) : At tree opts I path t (openDirectoryChild env opts dirent st).2 := by
  have hcall := h.syscall hI .openat
  unfold openDirectoryChild
  dsimp only
  split
  · exact hcall.openFailed hI _
  · split
    · exact hcall.openFailed hI _
    · have hopen := hcall.syscall hI .fdopendir
      split
      · exact hopen.openFailed hI _
      · exact hopen

end

theorem openFailed_ne (errnum : Nat) (st : WalkState D σ) (dir : D) :
    (openFailed (D := D) env opts errnum st).1 ≠ .ok dir := by
  unfold openFailed
  split <;> simp

theorem openChild_eq (hopen : openDirectoryChild env opts dirent st = (.ok dir, st')) :
    dirent.node.opened opts.followSymlinks = some dir := by
  unfold openDirectoryChild at hopen
  dsimp only at hopen
  split at hopen
  · exact absurd (congrArg Prod.fst hopen) (openFailed_ne _ _ _)
  · split at hopen
    · exact absurd (congrArg Prod.fst hopen) (openFailed_ne _ _ _)
    · rename_i hdir
      split at hopen
      · exact absurd (congrArg Prod.fst hopen) (openFailed_ne _ _ _)
      · cases hopen
        exact hdir

end

/-! ## What is known of an entry that is entered -/

structure Describes (tree : FileTree D) (follow : Bool) (dirent : Dirent D) (wasSymlink : Bool) (entry : Entry) :
    Prop where
  opened : entry.isDir = true → ∃ dir, dirent.node.opened follow = some dir ∧
    (entry.metadataLoaded = true → entry.id = tree.id dir) ∧ (wasSymlink = false → dirent.node = .real (.directory dir))
  prune : entry.prune = false

variable {follow : Bool} {s : Stat}

theorem fstatat_eq {dirent : Dirent D} {st' : WalkState D σ}
    (h : fstatat tree env dirent follow st = (.ok s, st')) : tree.stat follow dirent.node = some s := by
  unfold fstatat at h
  dsimp only at h
  split at h
  · cases h
  · split at h
    · cases h
    · cases h
      assumption

theorem stat_false_type {node : Node D} (h : tree.stat false node = some s) : s.type = node.type := by
  cases node with
  | real object =>
    cases object with
    | directory dir => cases h; rfl
    | file st => cases h; rfl
  | symlink id target => cases h; rfl

theorem stat_dir {d : D} {dirent : Dirent D} (hmem : dirent ∈ tree.dirents d)
    (h : tree.stat follow dirent.node = some s) (hdir : s.type = .dir) :
    ∃ dir, dirent.node.opened follow = some dir ∧ s.id = tree.id dir ∧
      (dirent.node.type ≠ .lnk → dirent.node = .real (.directory dir)) := by
  have hfile := tree.file_type d dirent hmem
  cases hnode : dirent.node with
  | real object =>
    rw [hnode] at h
    cases object with
    | directory dir =>
      cases h
      exact ⟨dir, rfl, rfl, fun _ => rfl⟩
    | file st =>
      cases h
      exact absurd hdir (hfile st (Or.inl hnode)).1
  | symlink id target =>
    rw [hnode] at h
    cases follow with
    | false =>
      cases h
      cases hdir
    | true =>
      cases target with
      | none => cases h
      | some object =>
        cases object with
        | directory dir =>
          cases h
          exact ⟨dir, rfl, rfl, fun hn => absurd rfl hn⟩
        | file st =>
          cases h
          exact absurd hdir (hfile st (Or.inr ⟨id, hnode⟩)).1

theorem node_of_dType {d : D} {dirent : Dirent D} (hmem : dirent ∈ tree.dirents d) (h : dirent.dType = .dir) :
    ∃ dir, dirent.node = .real (.directory dir) := by
  have htype := tree.dType_eq d dirent hmem (by rw [h]; decide)
  rw [h] at htype
  have hfile := tree.file_type d dirent hmem
  cases hnode : dirent.node with
  | real object =>
    cases object with
    | directory dir => exact ⟨dir, rfl⟩
    | file st =>
      rw [hnode] at htype
      exact absurd htype.symm (hfile st (Or.inl hnode)).1
  | symlink id target =>
    rw [hnode] at htype
    cases htype

section
variable {d : D} {dirent : Dirent D} {entry : Entry} {st' : WalkState D σ} {wasSymlink : Bool}

theorem Describes.of_dType (hmem : dirent ∈ tree.dirents d) (h : dirent.dType = .dir) (depth : Nat) (follow : Bool) :
    Describes tree follow dirent false { emptyEntry dirent.dType depth with isDir := true } := by
  obtain ⟨dir, hnode⟩ := node_of_dType hmem h
  refine ⟨fun _ => ⟨dir, ?_, fun hl => absurd hl (by simp [emptyEntry]), fun _ => hnode⟩, rfl⟩
  rw [hnode]
  rfl

theorem Describes.of_not_dir (h : entry.isDir = false) (hprune : entry.prune = false) :
    Describes tree follow dirent wasSymlink entry :=
  ⟨fun hd => absurd hd (by rw [h]; decide), hprune⟩

theorem Describes.of_stat (hmem : dirent ∈ tree.dirents d)
    (hstat : tree.stat follow dirent.node = some s) (hnode : wasSymlink = false → dirent.node.type ≠ .lnk)
    (hdir : entry.isDir = decide (s.type = .dir)) (hid : entry.id = s.id) (hprune : entry.prune = false) :
    Describes tree follow dirent wasSymlink entry := by
  refine ⟨?_, hprune⟩
  intro hd
  rw [hdir, decide_eq_true_eq] at hd
  obtain ⟨dir, hopened, hdirId, hreal⟩ := stat_dir hmem hstat hd
  exact ⟨dir, hopened, fun _ => hid.trans hdirId, fun hw => hreal (hnode hw)⟩

theorem fill_describes (hmem : dirent ∈ tree.dirents d) {depth : Nat}
    (h : entryFillFromDirent tree env opts dirent depth st = (.ok (entry, wasSymlink), st')) :
    Describes tree opts.followSymlinks dirent wasSymlink entry ∧ entry.depth = depth := by
  unfold entryFillFromDirent at h
  dsimp only at h
  split at h
  · rename_i hfollow
    have hf : opts.followSymlinks = false := by simpa using hfollow
    rw [hf]
    split at h
    · cases h
      exact ⟨.of_dType hmem ‹_› depth _, rfl⟩
    · cases h
      exact ⟨.of_not_dir rfl rfl, rfl⟩
    · split at h
      · cases h
      · rename_i hstat
        cases h
        refine ⟨?_, rfl⟩
        have hs := fstatat_eq hstat
        refine ⟨?_, rfl⟩
        intro hd
        have hdir := of_decide_eq_true hd
        obtain ⟨dir, hopened, hid, hreal⟩ := stat_dir hmem hs hdir
        refine ⟨dir, hopened, fun _ => hid, fun _ => hreal ?_⟩
        rw [← stat_false_type hs, hdir]
        decide
    · cases h
      exact ⟨.of_not_dir rfl rfl, rfl⟩
  · rename_i hfollow
    have hf : opts.followSymlinks = true := by simpa using hfollow
    rw [hf]
    split at h
    · cases h
      exact ⟨.of_dType hmem ‹_› depth _, rfl⟩
    iterate 2
      split at h
      · cases h
      · rename_i hlst
        split at h
        · rename_i hlnk
          split at h
          · rename_i hstat
            cases h
            exact ⟨.of_stat hmem (fstatat_eq hstat) (fun hw => by cases hw) rfl rfl rfl, rfl⟩
          · cases h
            refine ⟨.of_not_dir ?_ rfl, rfl⟩
            show decide (_ = DType.dir) = false
            rw [hlnk]
            rfl
        · rename_i hlnk
          split at h
          · cases h
          · rename_i hstat
            cases h
            refine ⟨.of_stat hmem (fstatat_eq hstat) (fun _ => ?_) rfl rfl rfl, rfl⟩
            rw [← stat_false_type (fstatat_eq hlst)]
            exact hlnk
    · cases h
      exact ⟨.of_not_dir rfl rfl, rfl⟩

/-- An entry that `prepareDirectory` lets through, with its directory. -/
structure Admitted (tree : FileTree D) (opts : Opts) (ancestors : List DirId) (dirent : Dirent D) (entry : Entry)
    (dir : D) : Prop where
  id : entry.id = tree.id dir
  fresh : opts.cycleMode = .dirRepeat → entry.id ∉ ancestors
  fresh_or_real : entry.id ∉ ancestors ∨ dirent.node = .real (.directory dir)

variable {ancestors : List DirId}

theorem not_mem_of_not_contains {id : DirId} (h : ancestorContains ancestors id = false) : id ∉ ancestors := by
  intro hmem
  have : ancestorContains ancestors id = true := any_eq_true.mpr ⟨id, hmem, by simp⟩
  simp [h] at this

section
variable (hmem : dirent ∈ tree.dirents d) (hd : Describes tree opts.followSymlinks dirent wasSymlink entry)
include hmem hd

theorem load_describes (hdir : entry.isDir = true) {entry' : Entry}
    (h : entryLoadMetadata tree env opts dirent entry st = (.ok entry', st')) :
    Describes tree opts.followSymlinks dirent wasSymlink entry' ∧ entry'.metadataLoaded = true ∧
      entry'.depth = entry.depth := by
  unfold entryLoadMetadata at h
  split at h
  · cases h
    exact ⟨hd, ‹_›, rfl⟩
  · split at h
    · cases h
    · rename_i hstat
      cases h
      refine ⟨?_, rfl, rfl⟩
      refine ⟨?_, hd.prune⟩
      intro hd'
      obtain ⟨dir, hopened, _, hreal⟩ := hd.opened hdir
      obtain ⟨dir', hopened', hid, _⟩ := stat_dir hmem (fstatat_eq hstat) (of_decide_eq_true hd')
      rw [hopened] at hopened'
      cases hopened'
      exact ⟨dir, hopened, fun _ => hid, hreal⟩

theorem prepare_admitted {rootDevice : Nat}
    {prepared : Prepared} (h : prepareDirectory tree env opts rootDevice dirent ancestors wasSymlink entry st =
      (.ok prepared, st')) (hrepeat : prepared.repeatedDir = false) (hcross : prepared.crossesFilesystem = false) :
    prepared.entry.depth = entry.depth ∧ prepared.entry.prune = false ∧
      (opts.cycleMode ≠ .none → ∀ dir, dirent.node.opened opts.followSymlinks = some dir →
        prepared.entry.isDir = true → Admitted tree opts ancestors dirent prepared.entry dir) := by
  unfold prepareDirectory at h
  split at h
  · rename_i hnot
    cases h
    refine ⟨rfl, hd.prune, ?_⟩
    intro _ dir _ hdir
    rw [hdir] at hnot
    cases hnot
  · rename_i hisDir
    have hisDir' : entry.isDir = true := by simpa using hisDir
    split at h
    · rename_i hnone
      cases h
      refine ⟨rfl, hd.prune, ?_⟩
      intro hmode
      exact absurd hnone (by simp [hmode])
    · split at h
      · cases h
      · rename_i entry' _ hload
        obtain ⟨hd', hloaded, hdepth⟩ := load_describes hmem hd hisDir' hload
        have hid : ∀ dir, dirent.node.opened opts.followSymlinks = some dir → entry'.isDir = true →
            entry'.id = tree.id dir ∧ (wasSymlink = false → dirent.node = .real (.directory dir)) := by
          intro dir hopened hdir
          obtain ⟨dir', hopened', hid, hreal⟩ := hd'.opened hdir
          rw [hopened] at hopened'
          cases hopened'
          exact ⟨hid hloaded, hreal⟩
        split at h
        · cases h
          cases hcross
        · split at h
          · rename_i hmode
            cases h
            exact ⟨hdepth, hd'.prune, fun hne => absurd hmode hne⟩
          · cases h
            refine ⟨hdepth, hd'.prune, ?_⟩
            intro _ dir hopened hdir
            have hfresh := not_mem_of_not_contains hrepeat
            exact ⟨(hid dir hopened hdir).1, fun _ => hfresh, Or.inl hfresh⟩
          · rename_i hmode
            cases h
            refine ⟨hdepth, hd'.prune, ?_⟩
            intro _ dir hopened hdir
            obtain ⟨hdirId, hreal⟩ := hid dir hopened hdir
            refine ⟨hdirId, fun hm => ?_, ?_⟩
            · simp [hmode] at hm
            · cases wasSymlink with
              | false => exact Or.inr (hreal rfl)
              | true => exact Or.inl (not_mem_of_not_contains hrepeat)

end

end

/-! ## The walk -/

structure FrameOk (tree : FileTree D) (opts : Opts) (frame : Frame D) : Prop where
  ancestors : opts.cycleMode ≠ .none → frame.ancestors = frame.dirs.map tree.id
  depth : frame.trail.length = frame.depth + 1

def Walks (tree : FileTree D) (opts : Opts) (I : List CStr → σ → Prop)
    (recurse : D → Frame D → WalkState D σ → Option (Bool × WalkState D σ)) : Prop :=
  ∀ dir frame st r, FrameOk tree opts frame → At tree opts I (pathOf frame.trail) frame.trail st →
    recurse dir frame st = some r → At tree opts I (pathOf frame.trail) frame.trail r.2

theorem FrameOk.trail_ne {frame : Frame D} (h : FrameOk tree opts frame) : frame.trail ≠ [] := by
  intro hnil
  have := h.depth
  simp [hnil] at this

variable {dir : D}

theorem FrameOk.child {frame : Frame D} (h : FrameOk tree opts frame) {id : DirId}
    (hid : opts.cycleMode ≠ .none → id = tree.id dir) : FrameOk tree opts (frame.child name id dir) := by
  refine ⟨?_, ?_⟩
  · intro hmode
    show id :: frame.ancestors = tree.id dir :: frame.dirs.map tree.id
    rw [h.ancestors hmode, hid hmode]
  · show frame.trail.length + 1 = frame.depth + 1 + 1
    rw [h.depth]

theorem visitAround_at (hI : EnvInvariant env opts I) {entry : Entry} {r : Bool × WalkState D σ}
    (hat : At tree opts I (pathOf (name :: t)) t st) (hpath : entry.path = pathOf (name :: t))
    (hdepth : entry.depth = t.length) (hprune : entry.prune = false)
    {descend : Entry → WalkState D σ → Option (Bool × WalkState D σ)}
    (hdescend : ∀ prune st r, At tree opts I (pathOf (name :: t)) t st →
      (entry.isDir = true → prune = false → I (name :: t) st.user) → descend { entry with prune := prune } st = some r →
      At tree opts I (pathOf (name :: t)) t r.2) (h : visitAround env opts (name :: t) descend entry st = some r) :
    At tree opts I (pathOf (name :: t)) t r.2 := by
  unfold visitAround at h
  dsimp only at h
  split at h
  · rename_i hpost
    split at h
    · cases h
    · rename_i hd
      have hafter := hdescend entry.prune _ _ hat (fun _ _ => hI.enterFirst name hpost hat.user) hd
      split at h
      · cases h
        exact hafter.shouldStop hI
      · cases h
        exact (hafter.shouldStop hI).apply hI hpath hdepth
  · rename_i hpost
    have hafter := hat.apply hI hpath hdepth
    generalize happly : applyVisitAction env opts (name :: t) entry st = v at h hafter
    split at h
    · cases h
      exact hafter
    · rename_i hact
      simp only [Bool.or_eq_true, decide_eq_true_eq] at hact
      obtain ⟨henter, hentry⟩ := hat.apply_enter hI hpath hdepth (by simpa using hpost) hprune happly hact
      split at h
      · cases h
      · rename_i hd
        cases h
        apply At.shouldStop hI
        rw [hentry] at hd
        refine hdescend _ _ _ hafter ?_ hd
        intro hdir hkeep
        refine henter ⟨?_, hkeep⟩
        rw [hentry]
        exact hdir

section
variable {recurse : D → Frame D → WalkState D σ → Option (Bool × WalkState D σ)} {frame : Frame D}
  {dirent : Dirent D} {entry : Entry} {r : Bool × WalkState D σ}

section
variable (hI : EnvInvariant env opts I) (hrec : Walks tree opts I recurse) (hframe : FrameOk tree opts frame)
include hI hrec hframe

theorem descendChild_at (hadm : opts.cycleMode ≠ .none → ∀ dir,
      dirent.node.opened opts.followSymlinks = some dir → entry.isDir = true →
        Admitted tree opts frame.ancestors dirent entry dir)
    (hat : At tree opts I (pathOf (dirent.name :: frame.trail)) frame.trail st)
    (henter : shouldDescendChildDirectory opts entry = true → I (dirent.name :: frame.trail) st.user)
    (h : descendChild env opts recurse frame dirent entry st = some r) :
    At tree opts I (pathOf (dirent.name :: frame.trail)) frame.trail r.2 := by
  unfold descendChild at h
  dsimp only at h
  split at h
  · rename_i hgo
    simp only [Bool.and_eq_true] at hgo
    have hdir : entry.isDir = true := by
      have := hgo.2
      unfold shouldDescendChildDirectory at this
      simp only [Bool.and_eq_true] at this
      exact this.1.1
    have hin : At tree opts I (pathOf (dirent.name :: frame.trail)) (dirent.name :: frame.trail) st :=
      ⟨hat.path, henter hgo.2, hat.log⟩
    have hopen := (hin.shouldStop hI).openChild hI dirent
    split at h
    · rename_i heq
      rw [heq] at hopen
      cases h
      exact hopen.leave hI
    · rename_i dir st' heq
      rw [heq] at hopen
      have hopened := openChild_eq heq
      refine (hrec dir _ _ r (hframe.child fun hmode => (hadm hmode dir hopened hdir).id) ?_ h).leave hI
      refine hopen.note ?_
      intro hmode a ha hid
      have hne : opts.cycleMode ≠ .none := by rw [hmode]; decide
      have hadm' := hadm hne dir hopened hdir
      apply hadm'.fresh hmode
      rw [hframe.ancestors hne, hadm'.id, ← hid]
      exact mem_map_of_mem ha
  · cases h
    exact hat.shouldStop hI

theorem visitNamed_at (hprune : entry.prune = false) (hdepth : entry.depth = frame.depth + 1)
    (hadm : opts.cycleMode ≠ .none → ∀ dir, dirent.node.opened opts.followSymlinks = some dir → entry.isDir = true →
      Admitted tree opts frame.ancestors dirent entry dir)
    (hat : At tree opts I (pathOf (dirent.name :: frame.trail)) frame.trail st)
    (h : visitNamed env opts recurse frame dirent entry st = some r) :
    At tree opts I (pathOf (dirent.name :: frame.trail)) frame.trail r.2 := by
  unfold visitNamed at h
  apply visitAround_at hI hat _ _ _ _ h
  · exact hat.path
  · exact hdepth.trans hframe.depth.symm
  · exact hprune
  intro prune st r hst henter hr
  refine descendChild_at hI hrec hframe ?_ hst ?_ hr
  · -- The chain is not checked against the fields that a visit changes.
    intro hmode dir hopened hdir
    obtain ⟨hid, hfresh, hreal⟩ := hadm hmode dir hopened hdir
    exact ⟨hid, hfresh, hreal⟩
  · intro hgo
    unfold shouldDescendChildDirectory at hgo
    simp only [Bool.and_eq_true, Bool.not_eq_true'] at hgo
    exact henter hgo.1.1 hgo.1.2

theorem visitEntry_at {d : D} (hmem : dirent ∈ tree.dirents d) {rootDevice : Nat}
    (hat : At tree opts I (pathOf frame.trail) frame.trail st)
    (h : recursiveVisitEntry tree env opts recurse rootDevice frame dirent st = some r) :
    At tree opts I (pathOf frame.trail) frame.trail r.2 := by
  have hstop := hat.shouldStop hI
  unfold recursiveVisitEntry at h
  dsimp only at h
  split at h
  · cases h
    exact hstop
  · have hfill := hstop.fill hI dirent (frame.depth + 1)
    split at h
    · rename_i heq
      rw [heq] at hfill
      cases h
      exact hfill.reportEntry hI _
    · rename_i entry wasSymlink st₁ heq
      rw [heq] at hfill
      obtain ⟨hdesc, hdepth⟩ := fill_describes hmem heq
      have hprep := hfill.prepare hI dirent entry rootDevice frame.ancestors wasSymlink
      split at h
      · rename_i heq'
        rw [heq'] at hprep
        cases h
        exact hprep.reportEntry hI _
      · rename_i prepared st₂ heq'
        rw [heq'] at hprep
        split at h
        · cases h
          exact hprep.reportLoop hI
        · rename_i hrepeat
          split at h
          · cases h
            exact hprep
          · rename_i hcross
            obtain ⟨hpdepth, hprune, hadm⟩ := prepare_admitted hmem hdesc heq' (by simpa using hrepeat)
              (by simpa using hcross)
            have hpush := hprep.ensure hI dirent.name
            split at h
            · rename_i heq''
              rw [heq''] at hpush
              cases h
              exact At.reportError hI hpush _
            · rename_i st₃ heq''
              rw [heq''] at hpush
              have hpath : At tree opts I (pathOf (dirent.name :: frame.trail)) frame.trail st₃ := by
                rw [pathOf_cons hframe.trail_ne]
                exact hpush
              cases hnamed : visitNamed env opts recurse frame dirent prepared.entry st₃ with
              | none =>
                rw [hnamed] at h
                cases h
              | some r' =>
                rw [hnamed] at h
                cases h
                have hafter := visitNamed_at hI hrec hframe hprune (hpdepth.trans hdepth) hadm hpath hnamed
                rw [pathOf_cons hframe.trail_ne] at hafter
                rw [hprep.path]
                exact hafter.release_pushed

end

end

theorem visitEntries_at (hI : EnvInvariant env opts I) {visit : Dirent D → WalkState D σ → Option (Bool × WalkState D σ)}
    {trail : List CStr} {sorted : Bool} {entries : List (Dirent D)}
    (hvisit : ∀ dirent ∈ entries, ∀ st r, At tree opts I (pathOf trail) trail st → visit dirent st = some r →
      At tree opts I (pathOf trail) trail r.2) {failed : Bool} {r : Option Nat × Bool × WalkState D σ}
    (hat : At tree opts I (pathOf trail) trail st) (h : visitEntries env opts visit trail sorted entries failed st = some r) :
    At tree opts I (pathOf trail) trail r.2.2 := by
  have hread : ∀ {st}, At tree opts I (pathOf trail) trail st →
      At tree opts I (pathOf trail) trail (readDirents env sorted st).2 := by
    intro st hst
    unfold readDirents
    cases sorted with
    | true => exact hst
    | false => exact hst.syscall hI .getdents
  induction entries generalizing failed st with
  | nil =>
    unfold visitEntries at h
    cases h
    exact hread hat
  | cons dirent rest ih =>
    unfold visitEntries at h
    dsimp only at h
    split at h
    · cases h
      exact hread hat
    · split at h
      · cases h
      · rename_i visitFailed st' hone
        have hst' := hvisit dirent (mem_cons_self ..) _ _ (hread hat) hone
        have hleft : At tree opts I (pathOf trail) trail (st'.note (.left trail st'.pathBuf)) := hst'.note hst'.path
        split at h
        · cases h
          exact hleft.shouldStop hI
        · apply ih _ (hleft.shouldStop hI) h
          intro e he
          exact hvisit e (mem_cons_of_mem _ he)

theorem children_subset {dirents : List (Dirent D)} {dirent : Dirent D} (h : dirent ∈ children dirents) :
    dirent ∈ dirents := mem_of_mem_filter h

theorem recursive_at (hI : EnvInvariant env opts I) (rootDevice : Nat) :
    ∀ fuel, Walks tree opts I (recursive tree env opts rootDevice fuel) := by
  intro fuel
  induction fuel with
  | zero =>
    intro dir frame st r _ _ h
    cases h
  | succ fuel ih =>
    intro dir frame st r hframe hat h
    have hstop := hat.shouldStop hI
    have hvisit : ∀ dirent, dirent ∈ children (tree.dirents dir) → ∀ st r,
        At tree opts I (pathOf frame.trail) frame.trail st →
        recursiveVisitEntry tree env opts (recursive tree env opts rootDevice fuel) rootDevice frame dirent st = some r →
        At tree opts I (pathOf frame.trail) frame.trail r.2 := by
      intro dirent hmem st r hst hr
      exact visitEntry_at hI ih hframe (children_subset hmem) hst hr
    unfold recursive at h
    dsimp only at h
    split at h
    · cases h
      exact hstop
    · split at h
      · have hread := hstop.syscall hI .getdents
        unfold direntListReadSorted at h
        dsimp only at h
        split at h
        · rename_i hlist
          split at hlist
          · cases hlist
            cases h
            exact hread.reportError hI _
          · cases hlist
        · rename_i hlist
          split at hlist
          · cases hlist
          · cases hlist
            obtain ⟨r', hr', rfl⟩ := Option.map_eq_some_iff.mp h
            refine visitEntries_at hI ?_ hread hr'
            intro dirent hmem
            refine hvisit dirent ?_
            split at hmem
            · exact mem_mergeSort.mp (mem_reverse.mp hmem)
            · exact mem_mergeSort.mp hmem
      · split at h
        · cases h
        · rename_i readError failed st' hentries
          have hafter := (visitEntries_at hI hvisit hstop hentries).shouldStop hI
          split at h
          · split at h
            · cases h
              exact hafter.reportError hI _
            · cases h
              exact hafter
          · cases h
            exact hafter

theorem stat_opened {node : Node D} (hstat : tree.stat follow node = some s)
    (hdir : s.type = .dir) (hopened : node.opened true = some dir) : s.id = tree.id dir := by
  cases node with
  | real object =>
    cases object with
    | directory d =>
      cases hstat
      cases hopened
      rfl
    | file st => cases hopened
  | symlink id target =>
    cases follow with
    | false =>
      cases hstat
      cases hdir
    | true =>
      cases target with
      | none => cases hstat
      | some object =>
        cases object with
        | directory d =>
          cases hstat
          cases hopened
          rfl
        | file st => cases hopened

theorem openPath_eq {node : Node D} {st' : WalkState D σ}
    (hopen : openDirectoryPath env opts node st = (.ok dir, st')) : node.opened true = some dir := by
  unfold openDirectoryPath at hopen
  dsimp only at hopen
  split at hopen
  · exact absurd (congrArg Prod.fst hopen) (openFailed_ne _ _ _)
  · split at hopen
    · exact absurd (congrArg Prod.fst hopen) (openFailed_ne _ _ _)
    · cases hopen
      assumption

def RootOk (tree : FileTree D) (node : Node D) (openedDir : Option D) (s : Stat) : Prop :=
  s.type = .dir → ∀ dir, (openedDir.or (node.opened true)) = some dir → s.id = tree.id dir

section
variable {fuel : Nat} {root : CStr} {node : Node D} {openedDir : Option D} {r : Bool × WalkState D σ}

theorem descendRoot_at (hI : EnvInvariant env opts I) (hroot : RootOk tree node openedDir s)
    (hdir : s.type = .dir) {entry : Entry} (hat : At tree opts I (pathOf [root]) [] st)
    (henter : shouldDescendRootDirectory opts entry = true → I [root] st.user)
    (h : descendRoot tree env opts fuel root node openedDir s.id entry st = some r) :
    At tree opts I (pathOf [root]) [] r.2 := by
  unfold descendRoot at h
  dsimp only at h
  split at h
  · rename_i hgo
    simp only [Bool.and_eq_true] at hgo
    have hin : At tree opts I (pathOf [root]) [root] st := ⟨hat.path, henter hgo.2, hat.log⟩
    have hstop := hin.shouldStop hI
    have henters : ∀ {dir st}, s.id = tree.id dir → At tree opts I (pathOf [root]) [root] st →
        recursive tree env opts s.id.dev fuel dir { depth := 0, ancestors := [s.id], trail := [root], dirs := [dir] }
          (st.note (.enter [] dir)) = some r → At tree opts I (pathOf [root]) [] r.2 := by
      intro dir st hid hst hr
      refine (recursive_at hI s.id.dev fuel dir _ _ r ?_ ?_ hr).leave hI
      · refine ⟨fun _ => ?_, rfl⟩
        show [s.id] = [tree.id dir]
        rw [hid]
      · refine hst.note ?_
        intro _ a ha
        cases ha
    cases hopened : openedDir with
    | some dir =>
      rw [hopened] at h hroot
      exact henters (hroot hdir dir rfl) hstop h
    | none =>
      rw [hopened] at h hroot
      dsimp only at h
      have hopen := hstop.openPath hI node
      split at h
      · rename_i heq
        rw [heq] at hopen
        cases h
        exact hopen.leave hI
      · rename_i dir st' heq
        rw [heq] at hopen
        exact henters (hroot hdir dir (openPath_eq heq)) hopen h
  · cases h
    exact hat.shouldStop hI

theorem walkFrom_log (hI : EnvInvariant env opts I) {stat : Option Stat}
    (hroot : ∀ s, stat = some s → RootOk tree node openedDir s) (hat : At tree opts I [] [] st)
    (h : walkFrom tree env opts fuel root node openedDir stat st = some r) :
    ∀ event ∈ r.2.log, EventOk tree opts I event := by
  have hstop := hat.shouldStop hI
  have hcall := hstop.syscall hI .statRoot
  have hfail : ∀ {st errnum}, At tree opts I [] [] st → ∀ event ∈ (statusFromAction opts (handleError env root errnum st).1
      (handleError env root errnum st).2).2.log, EventOk tree opts I event := by
    intro st errnum hst
    exact ((hst.handleError hI root errnum).status _).log
  unfold walkFrom at h
  dsimp only at h
  split at h
  · cases h
    exact hstop.log
  · split at h
    · cases h
      exact hfail hcall
    · cases h
      exact hfail hcall
    · rename_i s _
      have hinit := hcall.syscall hI .realloc
      split at h
      · cases h
        exact hfail hinit
      · have hat' : At tree opts I (pathOf [root]) []
            { (Walk.syscall env .realloc (Walk.syscall env .statRoot (Walk.shouldStop env opts st).2).2).2 with
              pathBuf := root } := ⟨rfl, hinit.user, hinit.log⟩
        split at h
        · rename_i hdir
          refine (visitAround_at hI hat' rfl rfl rfl ?_ h).log
          intro prune st r hst henter hr
          refine descendRoot_at hI (hroot s rfl) hdir hst ?_ hr
          intro hgo
          unfold shouldDescendRootDirectory at hgo
          simp only [Bool.and_eq_true, Bool.not_eq_true'] at hgo
          exact henter hgo.1.1 hgo.1.2
        · cases h
          exact (hat'.apply hI rfl rfl).log

end

end Bx.Walk
