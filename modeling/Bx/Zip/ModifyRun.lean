import Bx.Zip.Modify
import Mathlib.Data.List.Forall2

/-!
# What a run does

The inputs that a run selects depend on the marks alone. Writing them adds a record and an entry for each that gets one,
up to the first that fails. Nothing written before moves.
-/

namespace Bx.Zip
open Kit List

/-! ## Selections -/

structure Selected where
  place : Nat
  path : CText
  name : CText
  info : InputInfo
  found : Option Nat

section
variable (opts : Options) (env : Env)

def selectedAt (place : Nat) (path : CText) (existing : List ExistingEntry) : List Selected :=
  match selectInput opts env place path existing with
  | .skip => []
  | .upToDate => []
  | .write name info found => [⟨place, path, name, info, found⟩]

def marksAfter (existing : List ExistingEntry) (sels : List Selected) : List ExistingEntry :=
  sels.foldl (fun existing sel => markSelected existing sel.found) existing

def selections : Nat → List CText → List ExistingEntry → List Selected
  | _, [], _ => []
  | place, path :: paths, existing =>
    selectedAt opts env place path existing
      ++ selections (place + 1) paths (marksAfter existing (selectedAt opts env place path existing))

def written (sels : List Selected) : List Selected := sels.filter fun sel => isWritten opts sel.info

def removedPaths (sels : List Selected) : List CText :=
  (sels.filter fun sel => isRemoved opts sel.info).map Selected.path

def encodes (sel : Selected) : Bool :=
  match env.encode sel.place with
  | .ok _ => true
  | .error _ => false

end

/-! ## Records in the output -/

def PlacedAt (out : Bytes) (place : Nat) (record : Bytes) : Prop :=
  (out.drop place).take record.length = record ∧ place + record.length ≤ out.length

variable {place : Nat}

theorem PlacedAt.append {out record : Bytes} (h : PlacedAt out place record) (more : Bytes) :
    PlacedAt (out ++ more) place record := by
  obtain ⟨htake, hle⟩ := h
  refine ⟨?_, by rw [length_append]; omega⟩
  rw [drop_append_of_le_length (by omega), take_append_of_le_length (by rw [length_drop]; omega), htake]

theorem placedAt_end (out record : Bytes) : PlacedAt (out ++ record) out.length record := by
  refine ⟨?_, by rw [length_append]⟩
  rw [drop_left, take_length]

def InputEntry (env : Env) (out : Bytes) (sel : Selected) (w : WriterEntry) : Prop :=
  ∃ encode s replaced, env.encode sel.place = .ok encode
    ∧ w = newEntry sel.name sel.info (encode s.offset (currentOffset s)) (currentOffset s) replaced
    ∧ PlacedAt out s.out.length (encode s.offset (currentOffset s)).record

variable {w : WriterEntry}

theorem InputEntry.append {env : Env} {out : Bytes} {sel : Selected} (h : InputEntry env out sel w)
    (more : Bytes) : InputEntry env (out ++ more) sel w := by
  obtain ⟨encode, s, replaced, hencode, hentry, hplace⟩ := h
  exact ⟨encode, s, replaced, hencode, hentry, hplace.append more⟩

def KeptIn (opts : Options) (env : Env) (f : File) (out : Bytes) (entries : List WriterEntry) (e : CentralEntry)
    (w : WriterEntry) : Prop :=
  ∃ s copied, w = keptEntry opts env s e ∧ copyExistingEntry opts.excludeExtraAttrs f e = .ok copied
    ∧ PlacedAt out s.out.length copied ∧ entries[s.entries.length]? = some w

def BeginsWithCopy (excludeExtraAttrs : Bool) (f : File) (kept : List CentralEntry) (bytes : Bytes) : Prop :=
  bytes = [] ∨ ∃ e ∈ kept, ∃ copied rest, copyExistingEntry excludeExtraAttrs f e = .ok copied ∧ bytes = copied ++ rest

variable {a b : List CentralEntry}

theorem BeginsWithCopy.append {x : Bool} {f : File} {bytes more : Bytes}
    (h : BeginsWithCopy x f a bytes) (h' : BeginsWithCopy x f b more) : BeginsWithCopy x f (a ++ b) (bytes ++ more) := by
  cases h with
  | inl hnil =>
    rw [hnil, nil_append]
    cases h' with
    | inl hnil => exact Or.inl hnil
    | inr hcopy =>
      obtain ⟨e, he, copied, rest, hcopied, heq⟩ := hcopy
      exact Or.inr ⟨e, mem_append_right a he, copied, rest, hcopied, heq⟩
  | inr hcopy =>
    obtain ⟨e, he, copied, rest, hcopied, heq⟩ := hcopy
    refine Or.inr ⟨e, mem_append_left b he, copied, rest ++ more, hcopied, ?_⟩
    rw [heq, append_assoc]

/-- The entry and the record of a kept member in the output, with what follows it there -/
def KeptBefore (opts : Options) (env : Env) (f : File) (kept : List CentralEntry) (s' : RunState) (e : CentralEntry)
    (w : WriterEntry) : Prop :=
  ∃ s copied follow, w = keptEntry opts env s e ∧ copyExistingEntry opts.excludeExtraAttrs f e = .ok copied
    ∧ s'.out = s.out ++ copied ++ follow ∧ BeginsWithCopy opts.excludeExtraAttrs f kept follow
    ∧ s'.entries[s.entries.length]? = some w

theorem KeptBefore.keptIn {opts : Options} {env : Env} {f : File} {kept : List CentralEntry} {s' : RunState}
    {e : CentralEntry} (h : KeptBefore opts env f kept s' e w) (tail : Bytes) :
    KeptIn opts env f (s'.out ++ tail) s'.entries e w := by
  obtain ⟨s, copied, follow, hentry, hcopy, hout, _, hget⟩ := h
  refine ⟨s, copied, hentry, hcopy, ?_, hget⟩
  rw [hout, append_assoc]
  exact (placedAt_end s.out copied).append _

/-! ## Writing the inputs -/

section
variable {opts : Options} {env : Env}

structure AddedInputs (opts : Options) (env : Env) (sels : List Selected) (s s' : RunState) : Prop where
  existing : s'.existing = marksAfter s.existing sels
  added : s'.added = s.added + sels.length
  removed : s'.removed = s.removed ++ removedPaths opts (written opts sels)
  out : ∃ more, s'.out = s.out ++ more
  entries : ∃ new, s'.entries = s.entries ++ new ∧ List.Forall₂ (InputEntry env s'.out) (written opts sels) new

structure FailedInput (opts : Options) (env : Env) (sels : List Selected) (s s' : RunState) : Prop where
  split : ∃ before failed after, written opts sels = before ++ failed :: after ∧ (∀ sel ∈ before, encodes env sel = true)
    ∧ encodes env failed = false ∧ s'.removed = s.removed ++ removedPaths opts before

theorem AddedInputs.refl (s : RunState) : AddedInputs opts env [] s s :=
  ⟨rfl, rfl, (append_nil _).symm, ⟨[], (append_nil _).symm⟩, [], (append_nil _).symm, List.Forall₂.nil⟩

theorem written_append (a b : List Selected) : written opts (a ++ b) = written opts a ++ written opts b :=
  filter_append ..

theorem removedPaths_append (a b : List Selected) :
    removedPaths opts (a ++ b) = removedPaths opts a ++ removedPaths opts b := by
  unfold removedPaths
  rw [filter_append, map_append]

variable {s s' s'' : RunState}

theorem AddedInputs.trans {a b : List Selected} (h : AddedInputs opts env a s s')
    (h' : AddedInputs opts env b s' s'') : AddedInputs opts env (a ++ b) s s'' := by
  obtain ⟨more, hmore⟩ := h.out
  obtain ⟨more', hmore'⟩ := h'.out
  obtain ⟨new, hnew, hall⟩ := h.entries
  obtain ⟨new', hnew', hall'⟩ := h'.entries
  refine ⟨?_, ?_, ?_, ⟨more ++ more', ?_⟩, new ++ new', ?_, ?_⟩
  · rw [h'.existing, h.existing]
    exact foldl_append.symm
  · rw [h'.added, h.added, length_append, add_assoc]
  · rw [h'.removed, h.removed, written_append, removedPaths_append, append_assoc]
  · rw [hmore', hmore, append_assoc]
  · rw [hnew', hnew, append_assoc]
  · rw [written_append]
    refine rel_append ?_ hall'
    apply hall.imp
    intro sel w hentry
    rw [hmore']
    exact hentry.append more'

theorem FailedInput.append {a : List Selected} (h : FailedInput opts env a s s') (b : List Selected) :
    FailedInput opts env (a ++ b) s s' := by
  obtain ⟨before, failed, after, hsplit, hbefore, hfailed, hremoved⟩ := h.split
  refine ⟨before, failed, after ++ written opts b, ?_, hbefore, hfailed, hremoved⟩
  rw [written_append, hsplit, append_assoc]
  rfl

theorem FailedInput.behind {a b : List Selected} (h : AddedInputs opts env a s s')
    (hall : ∀ sel ∈ written opts a, encodes env sel = true) (h' : FailedInput opts env b s' s'') :
    FailedInput opts env (a ++ b) s s'' := by
  obtain ⟨before, failed, after, hsplit, hbefore, hfailed, hremoved⟩ := h'.split
  refine ⟨written opts a ++ before, failed, after, ?_, ?_, hfailed, ?_⟩
  · rw [written_append, hsplit, append_assoc]
  · intro sel hsel
    cases mem_append.mp hsel with
    | inl hin => exact hall sel hin
    | inr hin => exact hbefore sel hin
  · rw [hremoved, h.removed, removedPaths_append, append_assoc]

theorem addInput_spec (place : Nat) (path : CText) (s : RunState) :
    match addInput opts env place path s with
    | (s', none) => (∀ sel ∈ written opts (selectedAt opts env place path s.existing), encodes env sel = true)
        ∧ AddedInputs opts env (selectedAt opts env place path s.existing) s s'
    | (s', some _) => FailedInput opts env (selectedAt opts env place path s.existing) s s' := by
  unfold addInput selectedAt
  cases hselect : selectInput opts env place path s.existing with
  | skip => exact ⟨fun sel hsel => (not_mem_nil hsel).elim, AddedInputs.refl s⟩
  | upToDate =>
    refine ⟨fun sel hsel => (not_mem_nil hsel).elim, ?_⟩
    exact ⟨rfl, rfl, (append_nil _).symm, ⟨[], (append_nil _).symm⟩, [], (append_nil _).symm, List.Forall₂.nil⟩
  | write name info found =>
    dsimp only
    by_cases hwritten : isWritten opts info = true
    · have hone : written opts [⟨place, path, name, info, found⟩] = [⟨place, path, name, info, found⟩] :=
        filter_cons_of_pos hwritten
      rw [if_pos hwritten, hone]
      cases hencode : env.encode place with
      | error failure =>
        refine ⟨[], ⟨place, path, name, info, found⟩, [], hone, fun sel hsel => (not_mem_nil hsel).elim, ?_, ?_⟩
        · simp only [encodes, hencode]
        · exact (append_nil _).symm
      | ok encode =>
        refine ⟨?_, rfl, rfl, ?_, ⟨_, rfl⟩, _, rfl, ?_⟩
        · intro sel hsel
          rw [mem_singleton.mp hsel]
          simp only [encodes, hencode]
        · rw [hone]
          by_cases hr : isRemoved opts info = true
          · simp [writeInput, markedState, removedPaths, hr]
          · simp [writeInput, markedState, removedPaths, hr]
        · rw [hone]
          refine List.Forall₂.cons ⟨encode, markedState s info found, _, hencode, rfl, ?_⟩ List.Forall₂.nil
          exact placedAt_end _ _
    · have hnone : written opts [⟨place, path, name, info, found⟩] = [] := filter_cons_of_neg hwritten
      rw [if_neg hwritten]
      refine ⟨?_, rfl, rfl, ?_, ⟨[], (append_nil _).symm⟩, [], (append_nil _).symm, ?_⟩
      · rw [hnone]
        exact fun sel hsel => (not_mem_nil hsel).elim
      · rw [hnone]
        exact (append_nil _).symm
      · rw [hnone]
        exact List.Forall₂.nil

theorem addInputs_spec (place : Nat) (paths : List CText) (s : RunState) :
    match addInputs opts env place paths s with
    | (s', none) => (∀ sel ∈ written opts (selections opts env place paths s.existing), encodes env sel = true)
        ∧ AddedInputs opts env (selections opts env place paths s.existing) s s'
    | (s', some _) => FailedInput opts env (selections opts env place paths s.existing) s s' := by
  induction paths generalizing place s with
  | nil => exact ⟨fun sel hsel => (not_mem_nil hsel).elim, AddedInputs.refl s⟩
  | cons path paths ih =>
    have hfirst := @addInput_spec opts env place path s
    unfold addInputs selections
    cases hinput : addInput opts env place path s with
    | mk next status =>
      rw [hinput] at hfirst
      cases status with
      | some failure => exact hfirst.append _
      | none =>
        obtain ⟨hall, hadded⟩ := hfirst
        have hrest := ih (place + 1) next
        rw [hadded.existing] at hrest
        dsimp only
        cases hrun : addInputs opts env (place + 1) paths next with
        | mk last status =>
          rw [hrun] at hrest
          cases status with
          | some failure => exact FailedInput.behind hadded hall hrest
          | none =>
            refine ⟨?_, hadded.trans hrest.2⟩
            rw [written_append]
            intro sel hsel
            cases mem_append.mp hsel with
            | inl hin => exact hall sel hin
            | inr hin => exact hrest.1 sel hin

end

/-! ## Copying the members -/

section
variable {opts : Options} {env : Env} {f : File}

def keptEntries (existing : List ExistingEntry) : List CentralEntry :=
  (existing.filter fun e => !e.delete).map ExistingEntry.entry

structure CopiedEntries (opts : Options) (env : Env) (f : File) (kept : List CentralEntry) (s s' : RunState) : Prop where
  existing : s'.existing = s.existing
  removed : s'.removed = s.removed
  out : ∃ more, s'.out = s.out ++ more ∧ BeginsWithCopy opts.excludeExtraAttrs f kept more
  entries : ∃ new, s'.entries = s.entries ++ new ∧ List.Forall₂ (KeptBefore opts env f kept s') kept new

theorem CopiedEntries.refl (s : RunState) : CopiedEntries opts env f [] s s :=
  ⟨rfl, rfl, ⟨[], (append_nil _).symm, Or.inl rfl⟩, [], (append_nil _).symm, List.Forall₂.nil⟩

theorem CopiedEntries.trans {s s' s'' : RunState} (h : CopiedEntries opts env f a s s')
    (h' : CopiedEntries opts env f b s' s'') : CopiedEntries opts env f (a ++ b) s s'' := by
  obtain ⟨more, hmore, hbegins⟩ := h.out
  obtain ⟨more', hmore', hbegins'⟩ := h'.out
  obtain ⟨new, hnew, hall⟩ := h.entries
  obtain ⟨new', hnew', hall'⟩ := h'.entries
  refine ⟨h'.existing.trans h.existing, h'.removed.trans h.removed, ⟨more ++ more', ?_, hbegins.append hbegins'⟩,
    new ++ new', ?_, ?_⟩
  · rw [hmore', hmore, append_assoc]
  · rw [hnew', hnew, append_assoc]
  · apply rel_append
    · apply hall.imp
      intro e w ⟨t, copied, follow, hentry, hcopy, hout, hfollow, hget⟩
      have hlt := (List.getElem?_eq_some_iff.mp hget).1
      refine ⟨t, copied, follow ++ more', hentry, hcopy, ?_, hfollow.append hbegins', ?_⟩
      · rw [hmore', hout, append_assoc]
      · rw [hnew', getElem?_append_left hlt, hget]
    · apply hall'.imp
      intro e w ⟨t, copied, follow, hentry, hcopy, hout, hfollow, hget⟩
      refine ⟨t, copied, follow, hentry, hcopy, hout, ?_, hget⟩
      have hnil : BeginsWithCopy opts.excludeExtraAttrs f a [] := Or.inl rfl
      exact hnil.append hfollow

theorem copyEntry_spec {e : ExistingEntry} {s s' : RunState}
    (h : copyEntry opts env f place e s = (s', none)) : CopiedEntries opts env f (keptEntries [e]) s s' := by
  unfold copyEntry at h
  by_cases hdelete : e.delete = true
  · rw [if_pos hdelete] at h
    cases h
    have hnone : keptEntries [e] = [] := by simp [keptEntries, hdelete]
    rw [hnone]
    exact CopiedEntries.refl s
  · rw [if_neg hdelete] at h
    have hone : keptEntries [e] = [e.entry] := by simp [keptEntries, hdelete]
    rw [hone]
    cases hfails : env.copyFails place with
    | some failure =>
      rw [hfails] at h
      cases h
    | none =>
      rw [hfails] at h
      cases hcopy : copyExistingEntry opts.excludeExtraAttrs f e.entry with
      | error failure =>
        rw [hcopy] at h
        cases h
      | ok copied =>
        rw [hcopy] at h
        cases h
        refine ⟨rfl, rfl, ⟨copied, rfl, ?_⟩, _, rfl, List.Forall₂.cons
          ⟨s, copied, [], rfl, hcopy, (append_nil _).symm, Or.inl rfl, ?_⟩ List.Forall₂.nil⟩
        · exact Or.inr ⟨e.entry, mem_singleton.mpr rfl, copied, [], hcopy, (append_nil _).symm⟩
        dsimp only
        rw [getElem?_append_right (Nat.le_refl _), Nat.sub_self]
        rfl

theorem copyEntries_spec {existing : List ExistingEntry} {s s' : RunState}
    (h : copyEntries opts env f place existing s = (s', none)) :
    CopiedEntries opts env f (keptEntries existing) s s' := by
  induction existing generalizing place s with
  | nil =>
    cases h
    exact CopiedEntries.refl _
  | cons e existing ih =>
    unfold copyEntries at h
    cases hentry : copyEntry opts env f place e s with
    | mk next status =>
      rw [hentry] at h
      cases status with
      | some failure => cases h
      | none =>
        have hsplit : keptEntries (e :: existing) = keptEntries [e] ++ keptEntries existing := by
          unfold keptEntries
          rw [← map_append, ← filter_append]
          rfl
        rw [hsplit]
        exact (copyEntry_spec hentry).trans (ih h)

end

section
variable {opts : Options} {env : Env} {inputs : List CText} {existing : Option (File × List ExistingEntry)}

theorem prepareRun_ok {s : RunState} (h : prepareRun opts env inputs existing = .ok s) :
    s = startState (preparedMarks opts env inputs (loadedEntries existing))
      (copySelected opts env (loadedEntries existing)) := by
  unfold prepareRun at h
  by_cases hpath : (opts.copyMode && !opts.outputPath) = true
  · rw [if_pos hpath] at h
    cases h
  · rw [if_neg hpath] at h
    by_cases hloaded : (opts.copyMode && existing.isNone) = true
    · rw [if_pos hloaded] at h
      cases h
    · rw [if_neg hloaded] at h
      by_cases hnothing : deletesNothing opts env inputs (loadedEntries existing) = true
      · simp [hnothing] at h
      · rw [if_neg hnothing] at h
        cases h
        rfl

theorem finishRun_fields (archive : Bytes) (s : RunState) :
    (finishRun opts env archive s).removed = s.removed ∧ (finishRun opts env archive s).entries = s.entries
      ∧ (finishRun opts env archive s).existing = s.existing ∧ (finishRun opts env archive s).archive = archive := by
  unfold finishRun
  obtain ⟨published, hpublished⟩ : ∃ p, p = if opts.dryRun || opts.outputToStdout then (true, Target.old)
    else publishReplace env.rename := ⟨_, rfl⟩
  rw [← hpublished]
  dsimp only
  by_cases hpub : (!published.1) = true
  · rw [if_pos hpub]
    exact ⟨rfl, rfl, rfl, rfl⟩
  · rw [if_neg hpub]
    by_cases htime : (opts.setArchiveMtime && s.newestMtime.isSome && !opts.outputToStdout && !env.applyMtimeOk) = true
    · rw [if_pos htime]
      exact ⟨rfl, rfl, rfl, rfl⟩
    · rw [if_neg htime]
      exact ⟨rfl, rfl, rfl, rfl⟩

theorem modifyArchive_completed (hok : (modifyArchive opts env inputs existing).status = none)
    (hdry : opts.dryRun = false) :
    ∃ s₀ s₁ s₂ tail, prepareRun opts env inputs existing = .ok s₀ ∧ writeInputs opts env inputs s₀ = (s₁, none)
      ∧ copyMembers opts env existing s₁ = (s₂, none)
      ∧ writeEnd opts.excludeExtraAttrs s₂.entries (currentOffset s₂) opts.zipComment = .ok tail
      ∧ modifyArchive opts env inputs existing = finishRun opts env (s₂.out ++ tail) s₂ := by
  simp only [modifyArchive] at hok ⊢
  cases hprepare : prepareRun opts env inputs existing with
  | error failure => simp [hprepare] at hok
  | ok s₀ =>
    rw [hprepare] at hok
    dsimp only at hok ⊢
    cases htemp : (if opts.dryRun || opts.outputToStdout then none else env.createTemp) with
    | some failure =>
      rw [htemp] at hok
      cases hok
    | none =>
      rw [htemp] at hok
      dsimp only at hok ⊢
      cases hinputs : writeInputs opts env inputs s₀ with
      | mk s₁ status =>
        rw [hinputs] at hok
        cases status with
        | some failure => cases hok
        | none =>
          dsimp only at hok ⊢
          by_cases hnothing : hasNothingToDo opts s₁ = true
          · simp [hnothing] at hok
          · rw [if_neg hnothing, if_neg (by rw [hdry]; exact Bool.false_ne_true)] at hok ⊢
            cases hcopy : copyMembers opts env existing s₁ with
            | mk s₂ status =>
              rw [hcopy] at hok
              cases status with
              | some failure => cases hok
              | none =>
                dsimp only at hok ⊢
                cases hend : env.endFails with
                | some failure => simp [hend] at hok
                | none =>
                  rw [hend] at hok
                  dsimp only at hok ⊢
                  cases htail : writeEnd opts.excludeExtraAttrs s₂.entries (currentOffset s₂) opts.zipComment with
                  | error failure => simp [htail] at hok
                  | ok tail => exact ⟨s₀, s₁, s₂, tail, rfl, hinputs, hcopy, htail, rfl⟩

end

def junkPaths : Options where
  copyMode := false
  differenceMode := false
  filesync := false
  freshen := false
  update := false
  storePaths := false
  noDirEntries := false
  removeSource := false
  dryRun := false
  excludeExtraAttrs := false
  outputToStdout := false
  outputPath := false
  filterAfter := none
  filterBefore := none
  zipComment := []
  zipCommentSpecified := false
  setArchiveMtime := false
  fixArchive := false
  fixFixArchive := false

def plainInput : InputInfo := ⟨false, false, 0, 0, 0x21, 0, 0, 0, 0, 0⟩

def plainEnv : Env where
  shouldInclude := fun _ => true
  copyModeKeep := fun _ => true
  patternMatches := fun _ _ => false
  sourceExists := fun _ => true
  describeInput := fun _ => some plainInput
  encode := fun _ => .ok fun _ _ => ⟨ascii "record", 0, 0, 0, 0, 0, 0, 20, false, 6⟩
  dosToUnixTime := fun _ _ => 0
  leftover := fun _ => 0
  createTemp := none
  copyFails := fun _ => none
  endFails := none
  closed := none
  rename := .done
  applyMtimeOk := true

end Bx.Zip
