import Bx.Zip.KeptMembers
import Bx.Zip.MapUpdate

/-!
# Moving files into an archive

Sources are removed one by one while the records are written, long before the
archive stands in its place.
-/

namespace Bx.Zip
open Kit List

/-! ## Whether the end can be written -/

theorem newEntry_commentPresent (name : CText) (info : InputInfo) (p : Payload) (lhoOffset : UInt64)
    (replaced : Option ExistingEntry) : CommentPresent (newEntry name info p lhoOffset replaced) := by
  cases replaced with
  | none => rfl
  | some e =>
    have htext : commentText (newEntry name info p lhoOffset (some e)) = e.entry.comment := keptComment_getD e.entry
    have hlen : (newEntry name info p lhoOffset (some e)).commentLen = keptCommentLen e.entry := rfl
    unfold CommentPresent
    rw [htext, hlen]
    exact length_comment e.entry

variable {entries : List WriterEntry} {x : Bool}

theorem writeCentralEntries_ok (h : ∀ e ∈ entries, CommentPresent e)
    (d : DirectoryState) : ∃ d', writeCentralEntries x d entries = .ok d' := by
  induction entries generalizing d with
  | nil => exact ⟨d, rfl⟩
  | cons e entries ih =>
    have hentry : ∃ next, writeCentralEntry x d e = .ok next := by
      have hpresent := h e mem_cons_self
      simp only [writeCentralEntry]
      by_cases hpos : 0 < e.commentLen
      · rw [if_pos hpos]
        cases hcomment : e.comment with
        | none =>
          exfalso
          unfold CommentPresent commentText at hpresent
          rw [hcomment] at hpresent
          have hzero : e.commentLen.toNat = 0 := hpresent.symm
          have hlt := UInt16.lt_iff_toNat_lt.mp hpos
          rw [hzero] at hlt
          exact Nat.not_lt_zero _ hlt
        | some text => exact ⟨_, rfl⟩
      · rw [if_neg hpos]
        exact ⟨_, rfl⟩
    obtain ⟨next, hnext⟩ := hentry
    unfold writeCentralEntries
    rw [hnext]
    exact ih (fun a ha => h a (mem_cons_of_mem e ha)) next

theorem writeEnd_iff (h : ∀ e ∈ entries, CommentPresent e) (cdOffset : UInt64)
    (zipComment : Bytes) : (∃ tail, writeEnd x entries cdOffset zipComment = .ok tail) ↔ zipComment.length ≤ 0xffff := by
  refine ⟨fun ⟨tail, htail⟩ => (writeEnd_spec htail).2.1, ?_⟩
  intro hshort
  obtain ⟨d, hd⟩ := writeCentralEntries_ok (x := x) h
    ⟨[], 0, decide (0xffff < entries.length) || decide (0xffffffff < cdOffset)⟩
  unfold writeEnd writeCentralDirectory
  rw [hd]
  dsimp only [Except.map]
  rw [if_neg (by omega)]
  exact ⟨_, rfl⟩

/-! ## What a run will meet -/

def isUpToDate : Selection → Bool
  | .upToDate => true
  | _ => false

def skipsByUpdate (opts : Options) (env : Env) : Nat → List CText → List ExistingEntry → Bool
  | _, [], _ => false
  | place, path :: paths, existing =>
    isUpToDate (selectInput opts env place path existing)
      || skipsByUpdate opts env (place + 1) paths (marksAfter existing (selectedAt opts env place path existing))

def memberCopies (opts : Options) (env : Env) (f : File) (place : Nat) (e : ExistingEntry) : Bool :=
  e.delete || (env.copyFails place).isNone && (copyExistingEntry opts.excludeExtraAttrs f e.entry).toBool

def membersCopy (opts : Options) (env : Env) (f : File) : Nat → List ExistingEntry → Bool
  | _, [] => true
  | place, e :: existing => memberCopies opts env f place e && membersCopy opts env f (place + 1) existing

section
variable (opts : Options) (env : Env) (inputs : List CText) (existing : Option (File × List ExistingEntry))

def startMarks : List ExistingEntry := preparedMarks opts env inputs (loadedEntries existing)

def inputSelections : List Selected :=
  if opts.differenceMode || opts.copyMode then [] else selections opts env 0 inputs (startMarks opts env inputs existing)

def writtenInputs : List Selected := written opts (inputSelections opts env inputs existing)

def finalMarks : List ExistingEntry :=
  marksAfter (startMarks opts env inputs existing) (inputSelections opts env inputs existing)

def plannedState : RunState :=
  { startState (finalMarks opts env inputs existing)
      (copySelected opts env (loadedEntries existing) + (inputSelections opts env inputs existing).length) with
    skippedByUpdate := !(opts.differenceMode || opts.copyMode)
      && skipsByUpdate opts env 0 inputs (startMarks opts env inputs existing) }

def Started : Prop :=
  (∃ s, prepareRun opts env inputs existing = .ok s)
    ∧ (if opts.dryRun || opts.outputToStdout then none else env.createTemp) = none

structure Reaches : Prop where
  encodes : ∀ sel ∈ writtenInputs opts env inputs existing, encodes env sel = true
  something : hasNothingToDo opts (plannedState opts env inputs existing) = false
  noDryRun : opts.dryRun = false

def canEnd : Bool :=
  (existing.all fun old => membersCopy opts env old.1 0 (finalMarks opts env inputs existing)) && env.endFails.isNone
    && decide (opts.zipComment.length ≤ 0xffff)

def touches : Bool :=
  !(inputSelections opts env inputs existing).isEmpty
    || (existing.isSome && !(keptEntries (finalMarks opts env inputs existing)).isEmpty)

end

/-! ## Notes beside the records -/

section
variable {opts : Options} {env : Env}

structure InputNotes (sels : List Selected) (skips : Bool) (s s' : RunState) : Prop where
  skipped : s'.skippedByUpdate = (s.skippedByUpdate || skips)
  newest : s'.newestMtime.isSome = (s.newestMtime.isSome || !sels.isEmpty)

theorem isSome_updateNewest (newest : Option Int64) (t : Int64) : (updateNewest newest t).isSome = true := by
  unfold updateNewest
  cases newest with
  | none => rfl
  | some old =>
    by_cases hlt : old < t
    · simp only [if_pos hlt, Option.isSome_some]
    · simp only [if_neg hlt, Option.isSome_some]

variable {s s' : RunState} {place : Nat}

theorem addInput_notes {path : CText} (h : addInput opts env place path s = (s', none)) :
    InputNotes (selectedAt opts env place path s.existing) (isUpToDate (selectInput opts env place path s.existing))
      s s' := by
  unfold addInput at h
  unfold selectedAt
  cases hselect : selectInput opts env place path s.existing with
  | skip =>
    rw [hselect] at h
    cases h
    exact ⟨(Bool.or_false _).symm, (Bool.or_false _).symm⟩
  | upToDate =>
    rw [hselect] at h
    cases h
    exact ⟨(Bool.or_true _).symm, (Bool.or_false _).symm⟩
  | write name info found =>
    rw [hselect] at h
    dsimp only at h
    have hmarked : InputNotes [⟨place, path, name, info, found⟩] false s (markedState s info found) :=
      ⟨(Bool.or_false _).symm, (isSome_updateNewest _ _).trans (Bool.or_true _).symm⟩
    by_cases hwritten : isWritten opts info = true
    · rw [if_pos hwritten] at h
      cases hencode : env.encode place with
      | error failure => simp [hencode] at h
      | ok encode =>
        rw [hencode] at h
        cases h
        exact ⟨hmarked.skipped, hmarked.newest⟩
    · rw [if_neg hwritten] at h
      cases h
      exact hmarked

theorem InputNotes.trans {a b : List Selected} {y : Bool} {s'' : RunState} (h : InputNotes a x s s')
    (h' : InputNotes b y s' s'') : InputNotes (a ++ b) (x || y) s s'' := by
  refine ⟨?_, ?_⟩
  · rw [h'.skipped, h.skipped, Bool.or_assoc]
  · rw [h'.newest, h.newest]
    cases a with
    | nil => rw [isEmpty_nil, Bool.not_true, Bool.or_false, nil_append]
    | cons first rest => simp

theorem addInputs_notes {paths : List CText} (h : addInputs opts env place paths s = (s', none)) :
    InputNotes (selections opts env place paths s.existing) (skipsByUpdate opts env place paths s.existing) s s' := by
  induction paths generalizing place s with
  | nil =>
    cases h
    exact ⟨(Bool.or_false _).symm, (Bool.or_false _).symm⟩
  | cons path paths ih =>
    unfold addInputs at h
    unfold selections skipsByUpdate
    have hspec := @addInput_spec opts env place path s
    cases hinput : addInput opts env place path s with
    | mk next status =>
      rw [hinput] at h hspec
      cases status with
      | some failure => cases h
      | none =>
        have hfirst := addInput_notes hinput
        have hrest := ih h
        rw [hspec.2.existing] at hrest
        exact hfirst.trans hrest

theorem copyEntries_outcome (f : File) (place : Nat) (marks : List ExistingEntry) (s : RunState) :
    match copyEntries opts env f place marks s with
    | (s', none) => membersCopy opts env f place marks = true ∧ s'.removed = s.removed
        ∧ s'.newestMtime.isSome = (s.newestMtime.isSome || !(keptEntries marks).isEmpty)
    | (s', some _) => membersCopy opts env f place marks = false ∧ s'.removed = s.removed := by
  induction marks generalizing place s with
  | nil => exact ⟨rfl, rfl, (Bool.or_false _).symm⟩
  | cons e marks ih =>
    unfold copyEntries membersCopy
    cases hdelete : e.delete with
    | true =>
      have hskip : copyEntry opts env f place e s = (s, none) := by
        unfold copyEntry
        rw [if_pos hdelete]
      have hcopies : memberCopies opts env f place e = true := by
        unfold memberCopies
        rw [hdelete, Bool.true_or]
      have hkept : keptEntries (e :: marks) = keptEntries marks := by
        unfold keptEntries
        rw [filter_cons_of_neg (by rw [hdelete]; exact Bool.false_ne_true)]
      rw [hskip, hcopies, hkept]
      exact ih (place + 1) s
    | false =>
      have hkept : (keptEntries (e :: marks)).isEmpty = false := by
        unfold keptEntries
        rw [filter_cons_of_pos (by rw [hdelete]; rfl)]
        rfl
      rw [hkept]
      unfold copyEntry memberCopies
      rw [hdelete, if_neg Bool.false_ne_true]
      cases hfails : env.copyFails place with
      | some failure => exact ⟨rfl, rfl⟩
      | none =>
        cases hcopy : copyExistingEntry opts.excludeExtraAttrs f e.entry with
        | error failure => exact ⟨rfl, rfl⟩
        | ok copied =>
          dsimp only
          have hrest := ih (place + 1) { s with
            out := s.out ++ copied
            offset := s.offset + UInt64.ofNat copied.length
            entries := s.entries ++ [keptEntry opts env s e.entry]
            newestMtime := updateNewest s.newestMtime (env.dosToUnixTime e.entry.hdr.modDate e.entry.hdr.modTime) }
          cases hrun : copyEntries opts env f (place + 1) marks { s with
            out := s.out ++ copied
            offset := s.offset + UInt64.ofNat copied.length
            entries := s.entries ++ [keptEntry opts env s e.entry]
            newestMtime := updateNewest s.newestMtime
              (env.dosToUnixTime e.entry.hdr.modDate e.entry.hdr.modTime) } with
          | mk last status =>
            rw [hrun] at hrest
            cases status with
            | some failure => exact hrest
            | none =>
              obtain ⟨hmembers, hremoved, hnewest⟩ := hrest
              refine ⟨hmembers, hremoved, ?_⟩
              rw [hnewest, isSome_updateNewest, Bool.true_or, Bool.not_false, Bool.or_true]

end

/-! ## The parts of a run -/

def stopRun (failure : Failure) (s : RunState) : Result :=
  ⟨some failure, s.removed, s.entries, s.existing, s.out, .old⟩

def endRun (opts : Options) (env : Env) (s : RunState) : Result :=
  match env.endFails with
  | some failure => stopRun failure s
  | none =>
    match writeEnd opts.excludeExtraAttrs s.entries (currentOffset s) opts.zipComment with
    | .error failure => stopRun failure s
    | .ok tail => finishRun opts env (s.out ++ tail) s

def afterInputs (opts : Options) (env : Env) (existing : Option (File × List ExistingEntry)) (s : RunState) : Result :=
  if hasNothingToDo opts s then stopRun nothingToDo s
  else if opts.dryRun then finishRun opts env s.out s
  else match copyMembers opts env existing s with
    | (s, some failure) => stopRun failure s
    | (s, none) => endRun opts env s

section
variable {opts : Options} {env : Env} {inputs : List CText} {existing : Option (File × List ExistingEntry)}

variable {s : RunState}

theorem modifyArchive_started (hprepare : prepareRun opts env inputs existing = .ok s)
    (htemp : (if opts.dryRun || opts.outputToStdout then none else env.createTemp) = none) :
    modifyArchive opts env inputs existing
      = match writeInputs opts env inputs s with
        | (s, some failure) => stopRun failure s
        | (s, none) => afterInputs opts env existing s := by
  simp only [modifyArchive, hprepare, htemp]
  rfl

theorem modifyArchive_notStarted (h : ¬Started opts env inputs existing) :
    (modifyArchive opts env inputs existing).status ≠ none ∧ (modifyArchive opts env inputs existing).removed = []
      ∧ (modifyArchive opts env inputs existing).target = .old := by
  simp only [modifyArchive]
  cases hprepare : prepareRun opts env inputs existing with
  | error failure => exact ⟨fun hnone => Option.some_ne_none _ hnone, rfl, rfl⟩
  | ok s =>
    cases htemp : (if opts.dryRun || opts.outputToStdout then none else env.createTemp) with
    | none => exact absurd ⟨⟨s, hprepare⟩, htemp⟩ h
    | some failure =>
      have hstart := prepareRun_ok hprepare
      refine ⟨fun hnone => Option.some_ne_none _ hnone, ?_, rfl⟩
      dsimp only
      rw [hstart]
      rfl

structure InputsDone (opts : Options) (env : Env) (inputs : List CText) (existing : Option (File × List ExistingEntry))
    (s : RunState) : Prop where
  nothing : hasNothingToDo opts s = hasNothingToDo opts (plannedState opts env inputs existing)
  marks : s.existing = finalMarks opts env inputs existing
  removed : s.removed = removedPaths opts (writtenInputs opts env inputs existing)
  newest : s.newestMtime.isSome = !(inputSelections opts env inputs existing).isEmpty
  entries : List.Forall₂ (InputEntry env s.out) (writtenInputs opts env inputs existing) s.entries

theorem takeWhile_failed {before after : List Selected} {failed : Selected}
    (hbefore : ∀ sel ∈ before, encodes env sel = true) (hfailed : encodes env failed = false) :
    (before ++ failed :: after).takeWhile (encodes env) = before := by
  rw [takeWhile_append_of_pos hbefore, takeWhile_cons_of_neg (by rw [hfailed]; exact Bool.false_ne_true), append_nil]

theorem writeInputs_planned (hprepare : prepareRun opts env inputs existing = .ok s) :
    match writeInputs opts env inputs s with
    | (s', none) => (∀ sel ∈ writtenInputs opts env inputs existing, encodes env sel = true)
        ∧ InputsDone opts env inputs existing s'
    | (s', some _) => (∃ sel ∈ writtenInputs opts env inputs existing, encodes env sel = false)
        ∧ s'.removed = removedPaths opts ((writtenInputs opts env inputs existing).takeWhile (encodes env)) := by
  have hstart := prepareRun_ok hprepare
  unfold writeInputs writtenInputs
  cases hmode : opts.differenceMode || opts.copyMode with
  | true =>
    have hnone : inputSelections opts env inputs existing = [] := by
      unfold inputSelections
      rw [hmode, if_pos rfl]
    rw [if_pos rfl, hnone, hstart]
    refine ⟨fun sel hsel => (not_mem_nil hsel).elim, ?_, ?_, ?_, ?_, ?_⟩
    · simp only [plannedState, finalMarks, hnone, hmode, Bool.not_true, Bool.false_and]
      rfl
    · simp only [finalMarks, hnone]
      rfl
    · simp only [writtenInputs, hnone]
      rfl
    · rw [hnone]
      rfl
    · simp only [writtenInputs, hnone]
      exact List.Forall₂.nil
  | false =>
    have hsels : inputSelections opts env inputs existing
        = selections opts env 0 inputs (startMarks opts env inputs existing) := by
      unfold inputSelections
      rw [hmode, if_neg Bool.false_ne_true]
    have hmarks : s.existing = startMarks opts env inputs existing := by
      rw [hstart]
      rfl
    have hspec := @addInputs_spec opts env 0 inputs s
    rw [hmarks, ← hsels] at hspec
    rw [if_neg Bool.false_ne_true]
    cases hrun : addInputs opts env 0 inputs s with
    | mk last status =>
      rw [hrun] at hspec
      cases status with
      | some failure =>
        obtain ⟨before, failed, after, hsplit, hbefore, hfailed, hremoved⟩ := hspec.split
        rw [hsplit]
        refine ⟨⟨failed, mem_append_right _ mem_cons_self, hfailed⟩, ?_⟩
        rw [takeWhile_failed hbefore hfailed, hremoved, hstart]
        rfl
      | none =>
        obtain ⟨hall, hadded⟩ := hspec
        have hnotes := addInputs_notes hrun
        rw [hmarks, ← hsels] at hnotes
        have hmarked : last.existing = finalMarks opts env inputs existing := by
          rw [hadded.existing, hmarks]
          rfl
        have hskipped : last.skippedByUpdate = (plannedState opts env inputs existing).skippedByUpdate := by
          rw [hnotes.skipped, hstart]
          simp only [plannedState, hmode]
          rfl
        have hcount : last.added = (plannedState opts env inputs existing).added := by
          rw [hadded.added, hstart]
          rfl
        obtain ⟨new, hnew, hentries⟩ := hadded.entries
        refine ⟨hall, ?_, hmarked, ?_, ?_, ?_⟩
        · unfold hasNothingToDo
          rw [hskipped, hcount, hmarked]
          rfl
        · rw [hadded.removed, hstart]
          rfl
        · rw [hnotes.newest, hstart]
          rfl
        · rw [hnew, hstart]
          exact hentries

theorem commentPresent_of_inputs {out : Bytes} {sels : List Selected}
    (h : List.Forall₂ (InputEntry env out) sels entries) : ∀ e ∈ entries, CommentPresent e := by
  intro e he
  obtain ⟨_, _, _, _, _, _, hentry, _⟩ := exists_left_of_forall₂ h he
  rw [hentry]
  exact newEntry_commentPresent _ _ _ _ _

structure MembersDone (existing : Option (File × List ExistingEntry)) (s s' : RunState) : Prop where
  removed : s'.removed = s.removed
  newest : s'.newestMtime.isSome = (s.newestMtime.isSome || (existing.isSome && !(keptEntries s.existing).isEmpty))
  out : ∃ more, s'.out = s.out ++ more
  entries : ∃ copied, s'.entries = s.entries ++ copied ∧ ∀ e ∈ copied, CommentPresent e

theorem copyMembers_outcome (s : RunState) :
    match copyMembers opts env existing s with
    | (s', none) => (existing.all fun old => membersCopy opts env old.1 0 s.existing) = true
        ∧ MembersDone existing s s'
    | (s', some _) => (existing.all fun old => membersCopy opts env old.1 0 s.existing) = false
        ∧ s'.removed = s.removed := by
  unfold copyMembers
  cases existing with
  | none =>
    exact ⟨rfl, rfl, (Bool.or_false _).symm, ⟨[], (append_nil _).symm⟩, [], (append_nil _).symm,
      fun e he => (not_mem_nil he).elim⟩
  | some old =>
    obtain ⟨f, loaded⟩ := old
    have houtcome := @copyEntries_outcome opts env f 0 s.existing s
    dsimp only [Option.all]
    cases hrun : copyEntries opts env f 0 s.existing s with
    | mk last status =>
      rw [hrun] at houtcome
      cases status with
      | some failure => exact houtcome
      | none =>
        obtain ⟨hmembers, hremoved, hnewest⟩ := houtcome
        have hcopied := copyEntries_spec hrun
        obtain ⟨more, hmore, _⟩ := hcopied.out
        obtain ⟨copied, hentries, hall⟩ := hcopied.entries
        refine ⟨hmembers, hremoved, hnewest, ⟨more, hmore⟩, copied, hentries, ?_⟩
        intro e he
        obtain ⟨_, _, _, _, _, hentry, _⟩ := exists_left_of_forall₂ hall he
        rw [hentry]
        exact keptEntry_commentPresent

theorem endRun_outcome {s : RunState} (hpresent : ∀ e ∈ s.entries, CommentPresent e) :
    if env.endFails.isNone && decide (opts.zipComment.length ≤ 0xffff) then
      ∃ tail, endRun opts env s = finishRun opts env (s.out ++ tail) s
    else ∃ failure, endRun opts env s = stopRun failure s := by
  have hend := writeEnd_iff (x := opts.excludeExtraAttrs) hpresent (currentOffset s) opts.zipComment
  unfold endRun
  cases hfails : env.endFails with
  | some failure => exact ⟨failure, rfl⟩
  | none =>
    by_cases hshort : opts.zipComment.length ≤ 0xffff
    · obtain ⟨tail, htail⟩ := hend.mpr hshort
      rw [if_pos (by rw [decide_eq_true hshort]; rfl), htail]
      exact ⟨tail, rfl⟩
    · rw [if_neg (by rw [decide_eq_false hshort]; exact Bool.false_ne_true)]
      cases hwrite : writeEnd opts.excludeExtraAttrs s.entries (currentOffset s) opts.zipComment with
      | error failure => exact ⟨failure, rfl⟩
      | ok tail => exact absurd (hend.mp ⟨tail, hwrite⟩) hshort

/-! ## Publishing -/

theorem closedTarget_old (env : Env) (target : Target) : closedTarget env target = .old ↔ target = .old := by
  cases target with
  | old => exact Iff.rfl
  | cut length => exact Iff.rfl
  | new =>
    unfold closedTarget
    cases env.closed with
    | none => exact Iff.rfl
    | some length => exact ⟨fun h => Target.noConfusion h, fun h => Target.noConfusion h⟩

theorem closedTarget_new (env : Env) : closedTarget env .new = .new ↔ env.closed = none := by
  unfold closedTarget
  cases env.closed with
  | none => exact ⟨fun _ => rfl, fun _ => rfl⟩
  | some length => exact ⟨fun h => Target.noConfusion h, fun h => Option.noConfusion rfl (heq_of_eq h)⟩

theorem publishReplace_ok {rename : Rename} (h : (publishReplace rename).1 = true) : (publishReplace rename).2 = .new := by
  cases rename with
  | done => rfl
  | failed => cases h
  | crossDevice copy =>
    simp only [publishReplace] at h ⊢
    by_cases hopen : (!copy.openSource || !copy.openTarget) = true
    · rw [if_pos hopen] at h
      cases h
    · rw [if_neg hopen] at h ⊢
      by_cases hcopy : (!copy.copyOk) = true
      · rw [if_pos hcopy] at h
        cases h
      · rw [if_neg hcopy] at h ⊢
        by_cases hclose : (!copy.closeOk) = true
        · rw [if_pos hclose] at h
          cases h
        · rw [if_neg hclose]

theorem finishRun_outcome (archive : Bytes) (s : RunState) : (finishRun opts env archive s).target
        = closedTarget env (if opts.dryRun || opts.outputToStdout then .old else (publishReplace env.rename).2)
      ∧ ((finishRun opts env archive s).status = none
        ↔ (opts.dryRun || opts.outputToStdout || (publishReplace env.rename).1) = true
          ∧ (opts.setArchiveMtime && s.newestMtime.isSome && !opts.outputToStdout && !env.applyMtimeOk) = false) := by
  unfold finishRun
  cases htime : opts.setArchiveMtime && s.newestMtime.isSome && !opts.outputToStdout && !env.applyMtimeOk with
  | true =>
    cases hlocal : opts.dryRun || opts.outputToStdout with
    | true => simp
    | false => cases hpublish : (publishReplace env.rename).1 <;> simp [hpublish]
  | false =>
    cases hlocal : opts.dryRun || opts.outputToStdout with
    | true => simp
    | false => cases hpublish : (publishReplace env.rename).1 <;> simp [hpublish]

/-! ## Nothing is lost -/

/-- A run that fails has removed nothing and left the target alone; after one that succeeds each removed source is in the
archive and the archive stands at the target. -/
structure MoveSafe (opts : Options) (env : Env) (sels : List Selected) (r : Result) : Prop where
  failed : r.status ≠ none → r.removed = [] ∧ r.target = .old
  present : r.status = none → ∀ path ∈ r.removed, ∃ sel ∈ sels, sel.path = path
    ∧ ∃ w ∈ r.entries, InputEntry env r.archive sel w
  published : r.status = none → r.target = if opts.dryRun || opts.outputToStdout then .old else .new

/-- No removal stands before a failure, and what replaces the target is complete. -/
structure NothingLost (opts : Options) (env : Env) (inputs : List CText) (existing : Option (File × List ExistingEntry)) :
    Prop where
  encoding : (∃ sel ∈ writtenInputs opts env inputs existing, encodes env sel = false) →
    removedPaths opts ((writtenInputs opts env inputs existing).takeWhile (encodes env)) = []
  ending : Reaches opts env inputs existing → canEnd opts env inputs existing = false →
    removedPaths opts (writtenInputs opts env inputs existing) = []
  unpublished : Reaches opts env inputs existing → canEnd opts env inputs existing = true →
    opts.outputToStdout = false → (publishReplace env.rename).1 = false →
    (publishReplace env.rename).2 = .old ∧ removedPaths opts (writtenInputs opts env inputs existing) = []
  complete : Reaches opts env inputs existing → canEnd opts env inputs existing = true →
    opts.outputToStdout = false → (publishReplace env.rename).1 = true →
    env.closed = none ∧ (opts.setArchiveMtime && touches opts env inputs existing && !env.applyMtimeOk) = false

theorem stopRun_safe (sels : List Selected) (failure : Failure) (s : RunState) :
    MoveSafe opts env sels (stopRun failure s) ↔ s.removed = [] := by
  refine ⟨fun h => (h.failed (Option.some_ne_none failure)).1, ?_⟩
  intro hnone
  exact ⟨fun _ => ⟨hnone, rfl⟩, fun h => absurd h (Option.some_ne_none failure),
    fun h => absurd h (Option.some_ne_none failure)⟩

variable {s' : RunState}

theorem removed_present (hdone : InputsDone opts env inputs existing s) (hmore : MembersDone existing s s')
    (tail : Bytes) : ∀ path ∈ removedPaths opts (writtenInputs opts env inputs existing),
      ∃ sel ∈ writtenInputs opts env inputs existing, sel.path = path
        ∧ ∃ w ∈ s'.entries, InputEntry env (s'.out ++ tail) sel w := by
  intro path hpath
  obtain ⟨sel, hsel, hname⟩ := mem_map.mp hpath
  have hwritten := (mem_filter.mp hsel).1
  obtain ⟨w, hw, hentry⟩ := exists_right_of_forall₂ hdone.entries hwritten
  obtain ⟨more, hout⟩ := hmore.out
  obtain ⟨copied, hentries, _⟩ := hmore.entries
  refine ⟨sel, hwritten, hname, w, ?_, ?_⟩
  · rw [hentries]
    exact mem_append_left copied hw
  · rw [hout, append_assoc]
    exact hentry.append _

/-- A run that has written its archive is safe when the archive gets to the target or, if it does not, nothing has
happened. -/
theorem finishRun_safe (hdry : opts.dryRun = false) (hdone : InputsDone opts env inputs existing s)
    (hmore : MembersDone existing s s') (tail : Bytes) :
    MoveSafe opts env (writtenInputs opts env inputs existing) (finishRun opts env (s'.out ++ tail) s')
      ↔ (opts.outputToStdout = false → (publishReplace env.rename).1 = false →
          (publishReplace env.rename).2 = .old ∧ removedPaths opts (writtenInputs opts env inputs existing) = [])
        ∧ (opts.outputToStdout = false → (publishReplace env.rename).1 = true →
          env.closed = none ∧ (opts.setArchiveMtime && touches opts env inputs existing && !env.applyMtimeOk) = false) := by
  obtain ⟨htarget, hstatus⟩ := @finishRun_outcome opts env (s'.out ++ tail) s'
  obtain ⟨hremoved, hentries, _, harchive⟩ := @finishRun_fields opts env (s'.out ++ tail) s'
  have hnewest : s'.newestMtime.isSome = touches opts env inputs existing := by
    rw [hmore.newest, hdone.newest, hdone.marks]
    rfl
  have hsources : s'.removed = removedPaths opts (writtenInputs opts env inputs existing) :=
    hmore.removed.trans hdone.removed
  have hpresent := removed_present hdone hmore tail
  rw [← hsources] at hpresent ⊢
  rw [hdry, Bool.false_or, hnewest] at hstatus
  rw [hdry, Bool.false_or] at htarget
  have hsafe : MoveSafe opts env (writtenInputs opts env inputs existing) (finishRun opts env (s'.out ++ tail) s')
      ↔ (¬(finishRun opts env (s'.out ++ tail) s').status = none → s'.removed = []
          ∧ (finishRun opts env (s'.out ++ tail) s').target = .old)
        ∧ ((finishRun opts env (s'.out ++ tail) s').status = none → (finishRun opts env (s'.out ++ tail) s').target
          = if opts.outputToStdout then .old else .new) := by
    refine ⟨?_, ?_⟩
    · intro h
      have hfailed := h.failed
      have hpublished := h.published
      rw [hremoved] at hfailed
      rw [hdry, Bool.false_or] at hpublished
      exact ⟨hfailed, hpublished⟩
    · intro ⟨hfailed, hpublished⟩
      refine ⟨?_, ?_, ?_⟩
      · rw [hremoved]
        exact hfailed
      · intro _
        rw [hremoved, hentries, harchive]
        exact hpresent
      · rw [hdry, Bool.false_or]
        exact hpublished
  rw [hsafe, hstatus, htarget]
  cases hstdout : opts.outputToStdout with
  | true => simp [closedTarget]
  | false =>
    cases hpublish : (publishReplace env.rename).1 with
    | false =>
      simp only [Bool.or_false, Bool.false_eq_true, if_false, closedTarget_old]
      simp [and_comm]
    | true =>
      rw [publishReplace_ok hpublish]
      have hnever : ¬closedTarget env .new = .old := fun h => Target.noConfusion ((closedTarget_old env .new).mp h)
      cases htime : opts.setArchiveMtime && touches opts env inputs existing && !env.applyMtimeOk with
      | true => simp [hnever, htime]
      | false => simp [closedTarget_new, htime]

theorem removedPaths_nothing (h : hasNothingToDo opts (plannedState opts env inputs existing) = true) :
    removedPaths opts (writtenInputs opts env inputs existing) = [] := by
  have hcount : (plannedState opts env inputs existing).added = 0 := by
    simp only [hasNothingToDo, Bool.and_eq_true, beq_iff_eq] at h
    exact h.1.1.1.1.1.1.1
  have hnone : inputSelections opts env inputs existing = [] := by
    have hadd : copySelected opts env (loadedEntries existing) + (inputSelections opts env inputs existing).length = 0 :=
      hcount
    exact eq_nil_of_length_eq_zero (by omega)
  unfold writtenInputs
  rw [hnone]
  rfl

theorem removedPaths_dryRun (h : opts.dryRun = true) : removedPaths opts (writtenInputs opts env inputs existing) = [] := by
  have hnone : writtenInputs opts env inputs existing = [] := by
    unfold writtenInputs written
    apply filter_eq_nil_iff.mpr
    intro sel _
    simp [isWritten, h]
  rw [hnone]
  rfl

/-- **Main result.** Moving is safe exactly when no removal stands before a failure and what replaces the target is
complete. -/
theorem moveSafe_iff (opts : Options) (env : Env) (inputs : List CText) (existing : Option (File × List ExistingEntry)) :
    MoveSafe opts env (writtenInputs opts env inputs existing) (modifyArchive opts env inputs existing)
      ↔ (Started opts env inputs existing → NothingLost opts env inputs existing) := by
  by_cases hstarted : Started opts env inputs existing
  · obtain ⟨⟨s, hprepare⟩, htemp⟩ := hstarted
    have hplanned := writeInputs_planned hprepare
    rw [modifyArchive_started hprepare htemp]
    refine Iff.trans ?_ ⟨fun h _ => h, fun h => h ⟨⟨s, hprepare⟩, htemp⟩⟩
    cases hinputs : writeInputs opts env inputs s with
    | mk s₁ status =>
      rw [hinputs] at hplanned
      cases status with
      | some failure =>
        obtain ⟨⟨failed, hfailed, hencode⟩, hremoved⟩ := hplanned
        have hnot : ¬Reaches opts env inputs existing := by
          intro h
          rw [h.encodes failed hfailed] at hencode
          cases hencode
        rw [stopRun_safe, hremoved]
        refine ⟨fun h => ⟨fun _ => h, ?_, ?_, ?_⟩, fun h => h.encoding ⟨failed, hfailed, hencode⟩⟩
        · exact fun h => absurd h hnot
        · exact fun h => absurd h hnot
        · exact fun h => absurd h hnot
      | none =>
        obtain ⟨hall, hdone⟩ := hplanned
        have hencoding : ¬∃ sel ∈ writtenInputs opts env inputs existing, encodes env sel = false := by
          intro ⟨sel, hsel, hfalse⟩
          rw [hall sel hsel] at hfalse
          cases hfalse
        dsimp only [afterInputs]
        rw [hdone.nothing]
        cases hnothing : hasNothingToDo opts (plannedState opts env inputs existing) with
        | true =>
          have hnot : ¬Reaches opts env inputs existing := by
            intro h
            rw [h.something] at hnothing
            cases hnothing
          rw [if_pos rfl, stopRun_safe, hdone.removed]
          refine ⟨fun _ => ⟨fun h => absurd h hencoding, ?_, ?_, ?_⟩, fun _ => removedPaths_nothing hnothing⟩
          · exact fun h => absurd h hnot
          · exact fun h => absurd h hnot
          · exact fun h => absurd h hnot
        | false =>
          rw [if_neg Bool.false_ne_true]
          cases hdry : opts.dryRun with
          | true =>
            have hnot : ¬Reaches opts env inputs existing := by
              intro h
              rw [h.noDryRun] at hdry
              cases hdry
            obtain ⟨htarget, _⟩ := @finishRun_outcome opts env s₁.out s₁
            obtain ⟨hremoved, _, _, _⟩ := @finishRun_fields opts env s₁.out s₁
            rw [hdone.removed, removedPaths_dryRun hdry] at hremoved
            rw [hdry, Bool.true_or, if_pos rfl] at htarget
            rw [if_pos rfl]
            refine ⟨fun _ => ⟨fun h => absurd h hencoding, ?_, ?_, ?_⟩, fun _ => ⟨fun _ => ⟨hremoved, htarget⟩, ?_, ?_⟩⟩
            · exact fun h => absurd h hnot
            · exact fun h => absurd h hnot
            · exact fun h => absurd h hnot
            · intro _
              rw [hremoved]
              exact fun path hpath => (not_mem_nil hpath).elim
            · rw [hdry, Bool.true_or, if_pos rfl]
              exact fun _ => htarget
          | false =>
            have hreaches : Reaches opts env inputs existing := ⟨hall, hnothing, hdry⟩
            have hmembers := @copyMembers_outcome opts env existing s₁
            rw [hdone.marks] at hmembers
            rw [if_neg Bool.false_ne_true]
            have hstop : ∀ failure t, t.removed = s₁.removed → canEnd opts env inputs existing = false →
                (MoveSafe opts env (writtenInputs opts env inputs existing) (stopRun failure t)
                  ↔ NothingLost opts env inputs existing) := by
              intro failure t ht hend
              have hnoEnd : ¬canEnd opts env inputs existing = true := by
                rw [hend]
                exact Bool.false_ne_true
              rw [stopRun_safe, ht, hdone.removed]
              refine ⟨fun h => ⟨fun h => absurd h hencoding, fun _ _ => h, ?_, ?_⟩, fun h => h.ending hreaches hend⟩
              · exact fun _ h => absurd h hnoEnd
              · exact fun _ h => absurd h hnoEnd
            cases hcopy : copyMembers opts env existing s₁ with
            | mk s₂ status =>
              rw [hcopy] at hmembers
              cases status with
              | some failure =>
                obtain ⟨hfails, hremoved⟩ := hmembers
                refine hstop failure s₂ hremoved ?_
                unfold canEnd
                rw [hfails]
                rfl
              | none =>
                obtain ⟨hcopies, hmore⟩ := hmembers
                obtain ⟨copied, hentries, hpresent⟩ := hmore.entries
                have houtcome : if canEnd opts env inputs existing then
                      ∃ tail, endRun opts env s₂ = finishRun opts env (s₂.out ++ tail) s₂
                    else ∃ failure, endRun opts env s₂ = stopRun failure s₂ := by
                  have h := @endRun_outcome opts env s₂ (by
                    intro e he
                    rw [hentries] at he
                    cases mem_append.mp he with
                    | inl hin => exact commentPresent_of_inputs hdone.entries e hin
                    | inr hin => exact hpresent e hin)
                  unfold canEnd
                  rw [hcopies, Bool.true_and]
                  exact h
                dsimp only
                cases hend : canEnd opts env inputs existing with
                | false =>
                  rw [hend, if_neg Bool.false_ne_true] at houtcome
                  obtain ⟨failure, hrun⟩ := houtcome
                  rw [hrun]
                  exact hstop failure s₂ hmore.removed hend
                | true =>
                  rw [hend, if_pos rfl] at houtcome
                  obtain ⟨tail, hrun⟩ := houtcome
                  rw [hrun, finishRun_safe hdry hdone hmore tail]
                  refine ⟨?_, ?_⟩
                  · intro ⟨hunpublished, hcomplete⟩
                    refine ⟨fun h => absurd h hencoding, ?_, fun _ _ => hunpublished, fun _ _ => hcomplete⟩
                    intro _ h
                    rw [hend] at h
                    cases h
                  · intro h
                    exact ⟨h.unpublished hreaches hend, h.complete hreaches hend⟩
  · obtain ⟨hfailed, hremoved, htarget⟩ := modifyArchive_notStarted hstarted
    refine ⟨fun _ h => absurd h hstarted, fun _ => ⟨fun _ => ⟨hremoved, htarget⟩, ?_, ?_⟩⟩
    · exact fun h => absurd h hfailed
    · exact fun h => absurd h hfailed

end

def moveFiles : Options := { junkPaths with removeSource := true }

def unreadableEnv : Env := { plainEnv with
  encode := fun place => if place = 1 then .error (ioError "read source failed") else plainEnv.encode place }

theorem moveSafe_loses_source :
    ¬∀ (opts : Options) (env : Env) (inputs : List CText) (existing : Option (File × List ExistingEntry)),
      opts.removeSource = true →
      MoveSafe opts env (writtenInputs opts env inputs existing) (modifyArchive opts env inputs existing) := by
  intro hall
  have hsafe := hall moveFiles unreadableEnv [pathA, pathB] none rfl
  have hfailed : (modifyArchive moveFiles unreadableEnv [pathA, pathB] none).status ≠ none := by decide
  have hremoved : (modifyArchive moveFiles unreadableEnv [pathA, pathB] none).removed = [pathA] := by decide
  have hnone := (hsafe.failed hfailed).1
  rw [hremoved] at hnone
  cases hnone

end Bx.Zip
