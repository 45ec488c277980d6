import Bx.Kit.Windows
import Bx.Search.SearchBuffered

/-!
# The records around selected records

In context mode the records in the windows around the selected records are printed in order, with a separator where
records are left out; a binary file up to its first NUL. The search may end early, at a record that is not selected
behind one that is.
-/

namespace Bx.SearchBuffered

open Kit List
open Bx.ContextRoll (Record Roll)

/-! ## What is to be printed -/

section
variable (m : Matcher) (opts : SearchOpts) (records : List Bytes)

def matchesBefore (k : Nat) : Nat := (records.take k).countP (opts.matchedRecord m)

/-- The record has a match, and fewer than `--max-count` records before it have one. -/
def Selected (k : Nat) : Prop :=
  records[k]?.any (opts.matchedRecord m) = true ∧ opts.atMaxCount (matchesBefore m opts records k) = false

instance : DecidablePred (Selected m opts records) := fun _ => inferInstanceAs (Decidable (_ ∧ _))

/-- With `--stop-on-nonmatch`, a record that is not selected ends the search once one has been. -/
def StopsAt (k : Nat) : Prop :=
  opts.stopOnNonmatch = true ∧ ¬ Selected m opts records k ∧ ∃ i < k, Selected m opts records i

instance : DecidablePred (StopsAt m opts records) := fun _ => inferInstanceAs (Decidable (_ ∧ _ ∧ _))

def searchedLen : Nat := (List.range records.length).findIdx fun k => decide (StopsAt m opts records k)

def recordAt (k : Nat) : Record := ⟨records[k]?.getD [], (records.take k).flatten.length, k + 1⟩

def separator (contextOutputStarted : Bool) : Option (Record × Bool) → Record × Bool → List Event
  | none, _ => if contextOutputStarted && !opts.suppressGroupSeparator then [.fileSeparator] else []
  | some last, x =>
    if last.1.lineNumber + 1 < x.1.lineNumber && !opts.suppressGroupSeparator then [.groupSeparator] else []

def printed (contextOutputStarted : Bool) (items : List Nat) : List Event :=
  woven (separator opts contextOutputStarted) (fun x => .record x.1 x.2) none
    (items.map fun k => (recordAt records k, decide (Selected m opts records k)))

end

/-! ## Printing -/

section
variable {opts : SearchOpts} {started : Bool} {o : Output} {items : List (Record × Bool)}

structure Printed (opts : SearchOpts) (started : Bool) (o : Output) (items : List (Record × Bool)) : Prop where
  events_eq : o.events = woven (separator opts started) (fun x => .record x.1 x.2) none items
  started_eq : o.contextOutputStarted = (started || !items.isEmpty)
  forFile_eq : o.contextOutputStartedForFile = !items.isEmpty
  line_eq : o.printedContextLine = !items.isEmpty
  last_eq : ∀ x ∈ items.getLast?, o.lastEmittedLine = x.1.lineNumber

section
variable (h : Printed opts started o items) (x : Record) (selected : Bool)
  (hbehind : ∀ y ∈ items.getLast?, y.1.lineNumber < x.lineNumber)
include h x selected hbehind

theorem Printed.prepare : o.prepareContextRecord opts x.lineNumber = ({ o with
        events := o.events ++ separator opts started items.getLast? (x, selected)
        contextOutputStarted := true
        contextOutputStartedForFile := true }, true) := by
  obtain ⟨_, hstarted, hfor, hline, hlastLine⟩ := h
  obtain ⟨contextOutputStarted, forFile, printedLine, lastLine, events⟩ := o
  dsimp only at hstarted hfor hline hlastLine ⊢
  subst hstarted hfor hline
  unfold Output.prepareContextRecord Output.maybeEmitContextFileSeparator Output.print separator
  cases hlast : items.getLast? with
  | none =>
    rw [getLast?_eq_none_iff.mp hlast]
    cases started <;> cases opts.suppressGroupSeparator <;> simp
  | some last =>
    have hnonempty : items.isEmpty = false := by
      cases items with
      | nil => cases hlast
      | cons => rfl
    have hbefore := hbehind last hlast
    have hnotBehind : ¬ x.lineNumber ≤ last.1.lineNumber := by omega
    rw [hnonempty, hlastLine last hlast]
    by_cases hgap : last.1.lineNumber + 1 < x.lineNumber
    · have hmore : 1 < x.lineNumber - last.1.lineNumber := by omega
      cases opts.suppressGroupSeparator <;> simp [hbefore, hmore, hgap, hnotBehind]
    · have hmore : ¬ 1 < x.lineNumber - last.1.lineNumber := by omega
      simp [hmore, hgap, hnotBehind]

theorem Printed.emitContextRecord :
    Printed opts started (o.emitContextRecord opts x selected) (items ++ [(x, selected)]) := by
  have hnonempty : (items ++ [(x, selected)]).isEmpty = false := by
    cases items <;> rfl
  unfold Output.emitContextRecord
  rw [h.prepare x selected hbehind]
  dsimp only
  rw [if_pos rfl]
  refine ⟨?_, ?_, ?_, ?_, ?_⟩
  · rw [woven_append, ← h.events_eq, Option.or_none]
    show o.events ++ separator opts started items.getLast? (x, selected) ++ [.record x selected] = _
    rw [append_assoc]
    rfl
  · rw [hnonempty, Bool.not_false, Bool.or_true]
    rfl
  · rw [hnonempty]
    rfl
  · rw [hnonempty]
    rfl
  · intro y hy
    rw [getLast?_concat] at hy
    rw [← Option.some.inj hy]

end

theorem emitBefore_eq (before : Roll) (o : Output) :
    o.emitBefore opts before = before.records.foldl (fun o record => o.emitContextRecord opts record false) o := by
  unfold Output.emitBefore
  have hget : ∀ i, before.get i = before.records[i]? := before.get_eq
  simp only [hget, ← before.length_records]
  generalize before.records = records
  induction records using reverseRecOn with
  | nil => rfl
  | append_singleton records record ih =>
    rw [foldl_append, length_append, length_singleton, range_succ, foldl_append]
    have hsame : (List.range records.length).foldl
        (fun o i => ((records ++ [record])[i]?).elim o fun record => o.emitContextRecord opts record false) o =
        (List.range records.length).foldl
        (fun o i => (records[i]?).elim o fun record => o.emitContextRecord opts record false) o := by
      apply foldl_ext
      intro o' i hi
      rw [getElem?_append_left (mem_range.mp hi)]
    rw [hsame, ih]
    simp

theorem Printed.emitBefore (h : Printed opts started o items) (before : Roll)
    (hbehind : (items.map (·.1.lineNumber) ++ before.records.map (·.lineNumber)).Pairwise (· < ·)) :
    Printed opts started (o.emitBefore opts before) (items ++ before.records.map fun record => (record, false)) := by
  rw [emitBefore_eq]
  generalize before.records = records at hbehind ⊢
  induction records generalizing o items with
  | nil =>
    rw [map_nil, append_nil]
    exact h
  | cons record records ih =>
    rw [foldl_cons, map_cons]
    have hfirst : ∀ y ∈ items.getLast?, y.1.lineNumber < record.lineNumber := by
      intro y hy
      apply (pairwise_append.mp hbehind).2.2
      · exact mem_map_of_mem (mem_of_getLast? hy)
      · exact mem_cons_self
    have hrest := ih (h.emitContextRecord record false hfirst) (by
      rw [map_append, append_assoc]
      exact hbehind)
    rw [append_assoc] at hrest
    exact hrest

end

/-! ## One record -/

section
variable {m : Matcher} {opts : SearchOpts} {text : List Bytes} {started : Bool} {k : Nat} {s : State}

theorem atMaxCount_zero (fileMatches : Nat) (h : opts.maxCount = 0) : opts.atMaxCount fileMatches = false := by
  unfold SearchOpts.atMaxCount
  rw [h]
  rfl

theorem countMatches_of_emitsText (h : opts.emitsText = true) : opts.countMatches = false := by
  unfold SearchOpts.emitsText at h
  cases hcount : opts.countMatches with
  | false => rfl
  | true =>
    have hsummary := opts.counted hcount
    grind

variable {raw : Bytes}

theorem matchesBefore_succ (h : text[k]? = some raw) :
    matchesBefore m opts text (k + 1) = matchesBefore m opts text k + (if opts.matchedRecord m raw then 1 else 0) := by
  unfold matchesBefore
  rw [take_add_one, h, countP_append]
  congr 1
  exact countP_singleton

theorem selected_iff {raw : Bytes} (h : text[k]? = some raw) : Selected m opts text k ↔
      opts.matchedRecord m raw = true ∧ opts.atMaxCount (matchesBefore m opts text k) = false := by
  unfold Selected
  rw [h, Option.any_some]

theorem recordAt_of_getElem? (h : text[k]? = some raw) :
    recordAt text k = ⟨raw, (text.take k).flatten.length, k + 1⟩ := by
  unfold recordAt
  rw [h]
  rfl

/-- The state before record `k`, when none has had a NUL and the search goes on -/
structure Before (m : Matcher) (opts : SearchOpts) (started : Bool) (text : List Bytes) (k : Nat) (s : State) : Prop where
  line_eq : s.lineNumber = k
  offset_eq : s.fileOffset = (text.take k).flatten.length
  matches_eq : s.fileMatches =
    if opts.maxCount = 0 then matchesBefore m opts text k else min (matchesBefore m opts text k) opts.maxCount
  reached_eq : s.maxCountReached = opts.atMaxCount s.fileMatches
  saw_iff : s.sawMatchRecord = true ↔ ∃ i < k, Selected m opts text i
  not_binary : s.binaryDetected = false
  not_reported : s.binaryDiagnosticReported = false
  after_eq : s.afterLeft = windowEnd (Selected m opts text) opts.afterContext k - k
  roll_wf : s.before.Wf
  roll_eq : s.before.records =
    ((List.range k).drop (waitingFrom (Selected m opts text) opts.beforeContext opts.afterContext k)).map (recordAt text)
  printed : Printed opts started s.output
    ((windowed (Selected m opts text) opts.beforeContext opts.afterContext k).map
      fun j => (recordAt text j, decide (Selected m opts text j)))
  going : ∀ i < k, ¬ StopsAt m opts text i

theorem before_zero : Before m opts started text 0 { output := { contextOutputStarted := started } } := by
  refine ⟨rfl, rfl, ?_, ?_, ?_, rfl, rfl, rfl, Roll.wf_empty, ?_, ?_, ?_⟩
  · unfold matchesBefore
    rw [take_zero, countP_nil, Nat.zero_min, ite_self]
  · unfold SearchOpts.atMaxCount
    dsimp only
    cases opts.maxCount <;> rfl
  · exact ⟨fun h => absurd h Bool.false_ne_true, fun ⟨i, hlt, _⟩ => absurd hlt (Nat.not_lt_zero i)⟩
  · rw [range_zero, drop_nil]
    rfl
  · refine ⟨rfl, (Bool.or_false _).symm, rfl, rfl, ?_⟩
    intro x hx
    cases hx
  · exact fun i hi => absurd hi (Nat.not_lt_zero i)

section
variable (h : Before m opts started text k s)
include h

theorem Before.atMaxCount_eq : opts.atMaxCount s.fileMatches = opts.atMaxCount (matchesBefore m opts text k) := by
  by_cases hzero : opts.maxCount = 0
  · rw [atMaxCount_zero _ hzero, atMaxCount_zero _ hzero]
  · rw [h.matches_eq, if_neg hzero]
    unfold SearchOpts.atMaxCount
    congr 1
    rw [decide_eq_decide]
    omega

theorem Before.matches_succ (hraw : text[k]? = some raw) : s.fileMatches + (if Selected m opts text k then 1 else 0) =
      if opts.maxCount = 0 then matchesBefore m opts text (k + 1)
      else min (matchesBefore m opts text (k + 1)) opts.maxCount := by
  rw [matchesBefore_succ hraw, h.matches_eq]
  have hiff := @selected_iff m opts text k raw hraw
  cases hmatched : opts.matchedRecord m raw with
  | false =>
    rw [if_neg fun hsel => absurd (hiff.mp hsel).1 (by rw [hmatched]; exact Bool.false_ne_true)]
    rfl
  | true =>
    by_cases hzero : opts.maxCount = 0
    · rw [if_pos (hiff.mpr ⟨hmatched, atMaxCount_zero _ hzero⟩), if_pos hzero, if_pos hzero]
      rfl
    · rw [if_neg hzero, if_neg hzero]
      have hlimit : Selected m opts text k ↔ matchesBefore m opts text k < opts.maxCount := by
        rw [hiff]
        unfold SearchOpts.atMaxCount
        grind
      by_cases hsel : Selected m opts text k
      · have hlt := hlimit.mp hsel
        rw [if_pos hsel, if_pos rfl]
        omega
      · have hge := mt hlimit.mpr hsel
        rw [if_neg hsel, if_pos rfl]
        omega

theorem Before.selected_eq (hraw : text[k]? = some raw) :
    (opts.matchedRecord m raw && !opts.atMaxCount s.fileMatches) = decide (Selected m opts text k) := by
  rw [h.atMaxCount_eq, Bool.eq_iff_iff, decide_eq_true_iff, selected_iff hraw, Bool.and_eq_true, Bool.not_eq_true']

end

theorem lineNumber_lt_of_windowed {items : List Nat} (hlt : ∀ j ∈ items, j < k) {y : Record × Bool}
    (h : y ∈ (items.map fun j => (recordAt text j, decide (Selected m opts text j))).getLast?) :
    y.1.lineNumber < k + 1 := by
  obtain ⟨j, hj, rfl⟩ := mem_map.mp (mem_of_getLast? h)
  exact Nat.succ_lt_succ (hlt j hj)

theorem waiting_eq_nil {n w : Nat} (h : n ≤ w) : (List.range n).drop w = [] := by
  apply drop_eq_nil_of_le
  rw [length_range]
  exact h

theorem map_rtake {α β : Type} (f : α → β) (l : List α) (n : Nat) : (l.rtake n).map f = (l.map f).rtake n := by
  unfold rtake
  rw [map_drop, length_map]

theorem rtake_waiting {n w b : Nat} (h : w ≤ n) :
    ((List.range n).drop (max w (n - b)) ++ [n]).rtake b = (List.range (n + 1)).drop (max w (n + 1 - b)) := by
  have hsucc : (List.range n).drop (max w (n - b)) ++ [n] = (List.range (n + 1)).drop (max w (n - b)) := by
    rw [range_succ, drop_append_of_le_length]
    rw [length_range]
    omega
  rw [hsucc]
  unfold rtake
  rw [drop_drop, length_drop, length_range]
  congr 1
  omega

theorem Before.step_eq (h : Before m opts started text k s) {raw : Bytes} (hraw : text[k]? = some raw)
    (hnul : opts.recordHasNul raw = false) (hcontext : opts.withContext = true) (htext : opts.emitsText = true)
    (rest : Bytes) :
    s.step m opts raw rest =
      if StopsAt m opts text k then
        ({ s with lineNumber := k + 1, fileOffset := (text.take (k + 1)).flatten.length }, true)
      else if Selected m opts text k then
        State.takeSelected m opts (recordAt text k)
          { s with lineNumber := k + 1, fileOffset := (text.take (k + 1)).flatten.length }
      else
        State.takeContext opts (recordAt text k)
          { s with lineNumber := k + 1, fileOffset := (text.take (k + 1)).flatten.length } := by
  have hcurrent : (⟨raw, s.fileOffset, s.lineNumber + 1⟩ : Record) = recordAt text k := by
    rw [recordAt_of_getElem? hraw, h.offset_eq, h.line_eq]
  have hoffset : s.fileOffset + raw.length = (text.take (k + 1)).flatten.length := by
    rw [take_add_one, hraw, flatten_append, length_append, h.offset_eq]
    rw [Option.toList_some, flatten_singleton]
  unfold State.step State.noteBinary
  dsimp only
  rw [hcurrent, hoffset, h.line_eq, hnul, Bool.false_and, if_neg Bool.false_ne_true]
  have hbinary := h.not_binary
  have hsaw := h.saw_iff
  have hselected := h.selected_eq hraw
  generalize hnext : ({ s with lineNumber := k + 1, fileOffset := (text.take (k + 1)).flatten.length } : State) = next
  have hbinary' : next.binaryDetected = false := hnext ▸ hbinary
  have hsaw' : next.sawMatchRecord = true ↔ ∃ i < k, Selected m opts text i := hnext ▸ hsaw
  have hselected' : (opts.matchedRecord m raw && !opts.atMaxCount next.fileMatches) = decide (Selected m opts text k) :=
    hnext ▸ hselected
  unfold State.takeUnselected
  rw [hbinary', Bool.false_and, if_neg Bool.false_ne_true, hselected', Bool.false_and, if_neg Bool.false_ne_true,
    hcontext, htext]
  by_cases hsel : Selected m opts text k
  · have hnot : ¬ StopsAt m opts text k := fun hstops => hstops.2.1 hsel
    rw [if_neg hnot, if_pos hsel, decide_eq_true hsel]
    rfl
  · rw [if_neg hsel, decide_eq_false hsel]
    have hstops : (!false && opts.stopOnNonmatch && next.sawMatchRecord) = true ↔ StopsAt m opts text k := by
      rw [Bool.not_false, Bool.true_and, Bool.and_eq_true, hsaw']
      exact ⟨fun hboth => ⟨hboth.1, hsel, hboth.2⟩, fun hstops => ⟨hstops.1, hstops.2.2⟩⟩
    by_cases hstop : StopsAt m opts text k
    · rw [if_pos (hstops.mpr hstop), if_pos hstop]
    · rw [if_neg (mt hstops.mp hstop), if_neg hstop, if_neg Bool.false_ne_true]
      rfl

/-- The state after a step, and that a search which stops has nothing left to print -/
def Taken (m : Matcher) (opts : SearchOpts) (started : Bool) (text : List Bytes) (k : Nat) (taken : State × Bool) : Prop :=
  Before m opts started text (k + 1) taken.1 ∧
    (taken.2 = true → taken.1.maxCountReached = true ∧ taken.1.afterLeft = 0)

theorem going_succ (h : ∀ i < k, ¬ StopsAt m opts text i) (hlast : ¬ StopsAt m opts text k) :
    ∀ i < k + 1, ¬ StopsAt m opts text i := by
  intro i hi
  by_cases heq : i = k
  · rw [heq]
    exact hlast
  · exact h i (by omega)

theorem Printed.publish {o : Output} {before : Roll}
    (h : Printed opts started o ((windowed (Selected m opts text) opts.beforeContext opts.afterContext k).map
      fun j => (recordAt text j, decide (Selected m opts text j)))) (hroll : before.records = ((List.range k).drop
      (waitingFrom (Selected m opts text) opts.beforeContext opts.afterContext k)).map (recordAt text))
    (hsel : Selected m opts text k) :
    Printed opts started ((o.emitBefore opts before).emitContextRecord opts (recordAt text k) true)
      ((windowed (Selected m opts text) opts.beforeContext opts.afterContext (k + 1)).map
        fun j => (recordAt text j, decide (Selected m opts text j))) := by
  have hwindowed : windowed (Selected m opts text) opts.beforeContext opts.afterContext (k + 1) =
      windowed (Selected m opts text) opts.beforeContext opts.afterContext k ++
        (List.range k).drop (waitingFrom (Selected m opts text) opts.beforeContext opts.afterContext k) ++ [k] := by
    rw [windowed, if_pos hsel]
  have hincreasing : (windowed (Selected m opts text) opts.beforeContext opts.afterContext (k + 1)).Pairwise (· < ·) :=
    windowed_increasing (k + 1)
  rw [hwindowed, pairwise_append] at hincreasing
  -- what the roll holds is behind the end of all windows, and so not selected
  have hbefore : (before.records.map fun record => (record, false)) = ((List.range k).drop
      (waitingFrom (Selected m opts text) opts.beforeContext opts.afterContext k)).map
        fun j => (recordAt text j, decide (Selected m opts text j)) := by
    rw [hroll, map_map]
    apply map_congr_left
    intro j hj
    obtain ⟨hfrom, hlt⟩ := mem_drop_range.mp hj
    have hnot : ¬ Selected m opts text j :=
      not_selected_of_windowEnd_le (Nat.le_trans (Nat.le_max_left _ _) hfrom) hlt
    rw [decide_eq_false hnot]
    rfl
  rw [hwindowed, map_append, map_append, ← hbefore, map_singleton, decide_eq_true hsel]
  apply Printed.emitContextRecord
  · apply h.emitBefore
    rw [hroll, map_map, map_map]
    have hlines := List.Pairwise.map Nat.succ (fun _ _ hlt => Nat.succ_lt_succ hlt) hincreasing.1
    rw [map_append] at hlines
    exact hlines
  · intro y hy
    rw [hbefore, ← map_append] at hy
    exact lineNumber_lt_of_windowed (fun j hj => hincreasing.2.2 j hj k mem_cons_self) hy

section
variable (h : Before m opts started text k s) (hraw : text[k]? = some raw)
include h hraw

theorem Before.takeSelected (hcontext : opts.withContext = true) (htext : opts.emitsText = true) (hsel : Selected m opts text k) :
    Taken m opts started text k (State.takeSelected m opts (recordAt text k)
      { s with lineNumber := k + 1, fileOffset := (text.take (k + 1)).flatten.length }) := by
  have hmatches := h.matches_succ hraw
  rw [if_pos hsel] at hmatches
  have hend : windowEnd (Selected m opts text) opts.afterContext (k + 1) = k + opts.afterContext + 1 := by
    rw [windowEnd, if_pos hsel]
  have hcount : (if opts.countMatches && !opts.invertMatch then m.countRecordMatches (opts.matchText (recordAt text k).text)
      else if opts.countMatches then 0 else 1) = 1 := by
    rw [countMatches_of_emitsText htext]
    rfl
  have hquiet : opts.quiet = false ∧ opts.filesWithMatches = false ∧ opts.filesWithoutMatch = false := by
    unfold SearchOpts.emitsText at htext
    grind
  have htaken : State.takeSelected m opts (recordAt text k)
      { s with lineNumber := k + 1, fileOffset := (text.take (k + 1)).flatten.length } =
      ({ s with
          before := s.before.clear
          output := (s.output.emitBefore opts s.before).emitContextRecord opts (recordAt text k) true
          fileMatches := s.fileMatches + 1
          matchedLines := s.matchedLines + 1
          fileOffset := (text.take (k + 1)).flatten.length
          lineNumber := k + 1
          afterLeft := opts.afterContext
          maxCountReached := s.maxCountReached || opts.atMaxCount (s.fileMatches + 1)
          sawMatchRecord := true
          binaryDetected := false
          publishedOutput := true },
        (s.maxCountReached || opts.atMaxCount (s.fileMatches + 1)) && opts.afterContext = 0) := by
    unfold State.takeSelected State.publish
    dsimp only
    rw [hcount, h.not_binary, htext, hcontext, hquiet.1, hquiet.2.1, hquiet.2.2]
    rfl
  have hreached : (s.maxCountReached || opts.atMaxCount (s.fileMatches + 1)) = opts.atMaxCount (s.fileMatches + 1) := by
    rw [h.reached_eq]
    unfold SearchOpts.atMaxCount
    grind
  rw [htaken]
  refine ⟨⟨rfl, rfl, hmatches, hreached, ?_, rfl, h.not_reported, ?_, Roll.wf_clear _, ?_,
    h.printed.publish h.roll_eq hsel, going_succ h.going fun hstops => hstops.2.1 hsel⟩, ?_⟩
  · exact ⟨fun _ => ⟨k, Nat.lt_succ_self k, hsel⟩, fun _ => rfl⟩
  · rw [hend]
    dsimp only
    omega
  · rw [waiting_eq_nil (by unfold waitingFrom; omega)]
    rfl
  · intro hstop
    rw [Bool.and_eq_true, decide_eq_true_iff] at hstop
    exact hstop

theorem Before.takeContext (hsel : ¬ Selected m opts text k) (hgoing : ¬ StopsAt m opts text k) :
    Taken m opts started text k (State.takeContext opts (recordAt text k)
      { s with lineNumber := k + 1, fileOffset := (text.take (k + 1)).flatten.length }) := by
  have hmatches := h.matches_succ hraw
  rw [if_neg hsel, add_zero] at hmatches
  have hend : windowEnd (Selected m opts text) opts.afterContext (k + 1) =
      windowEnd (Selected m opts text) opts.afterContext k := by
    rw [windowEnd, if_neg hsel]
  have hsaw : s.sawMatchRecord = true ↔ ∃ i < k + 1, Selected m opts text i := by
    rw [h.saw_iff]
    refine ⟨fun h => h.imp fun i hi => ⟨by omega, hi.2⟩, ?_⟩
    intro h
    obtain ⟨i, hlt, hi⟩ := h
    have hne : i ≠ k := fun heq => hsel (heq ▸ hi)
    exact ⟨i, by omega, hi⟩
  have hafter := h.after_eq
  unfold State.takeContext
  dsimp only
  by_cases hleft : 0 < s.afterLeft
  · rw [if_pos hleft]
    have hin : k < windowEnd (Selected m opts text) opts.afterContext k := by omega
    refine ⟨⟨rfl, rfl, hmatches, h.reached_eq, hsaw, h.not_binary, h.not_reported, ?_, h.roll_wf, ?_, ?_,
      going_succ h.going hgoing⟩, ?_⟩
    · dsimp only
      rw [hend]
      omega
    · -- the roll stays empty as long as the window goes on
      have hold := h.roll_eq
      rw [waiting_eq_nil (by unfold waitingFrom; omega)] at hold
      rw [waiting_eq_nil (by unfold waitingFrom; omega)]
      exact hold
    · rw [windowed, if_neg hsel, if_pos hin, map_append, map_singleton, decide_eq_false hsel]
      apply h.printed.emitContextRecord
      intro y hy
      exact lineNumber_lt_of_windowed (fun j hj => (mem_windowed.mp hj).1) hy
    · intro hstop
      rw [Bool.and_eq_true, decide_eq_true_iff] at hstop
      exact hstop
  · rw [if_neg hleft]
    have hle : windowEnd (Selected m opts text) opts.afterContext k ≤ k := by omega
    obtain ⟨hwf, hrecords⟩ := Roll.push_spec h.roll_wf (recordAt text k) opts.beforeContext
    refine ⟨⟨rfl, rfl, hmatches, h.reached_eq, hsaw, h.not_binary, h.not_reported, ?_, hwf, ?_, ?_,
      going_succ h.going hgoing⟩, fun hstop => absurd hstop Bool.false_ne_true⟩
    · dsimp only
      rw [hend]
      omega
    · dsimp only
      unfold waitingFrom
      rw [hrecords, h.roll_eq, hend, ← rtake_waiting hle]
      rw [map_rtake, map_append, map_singleton]
      rfl
    · rw [windowed, if_neg hsel, if_neg (by omega)]
      exact h.printed

theorem Before.step (hnul : opts.recordHasNul raw = false) (hcontext : opts.withContext = true) (htext : opts.emitsText = true)
    (rest : Bytes) (hgoing : ¬ StopsAt m opts text k) : Taken m opts started text k (s.step m opts raw rest) := by
  rw [h.step_eq hraw hnul hcontext htext rest, if_neg hgoing]
  by_cases hsel : Selected m opts text k
  · rw [if_pos hsel]
    exact h.takeSelected hraw hcontext htext hsel
  · rw [if_neg hsel]
    exact h.takeContext hraw hsel hgoing

end

/-! ## All records -/

theorem searchedLen_eq (hstop : StopsAt m opts text k) (hlt : k < text.length) (hgoing : ∀ i < k, ¬ StopsAt m opts text i) :
    searchedLen m opts text = k := by
  unfold searchedLen
  have hlen : k < (List.range text.length).length := by
    rw [length_range]
    exact hlt
  rw [findIdx_eq hlen, getElem_range]
  refine ⟨decide_eq_true hstop, ?_⟩
  intro j hj
  rw [getElem_range]
  exact decide_eq_false (hgoing j hj)

theorem searchedLen_le : searchedLen m opts text ≤ text.length := by
  have hle := @findIdx_le_length _ (fun k => decide (StopsAt m opts text k)) (List.range text.length)
  rw [length_range] at hle
  exact hle

theorem le_searchedLen (hle : k ≤ text.length) (hgoing : ∀ i < k, ¬ StopsAt m opts text i) : k ≤ searchedLen m opts text := by
  by_contra hlt
  unfold searchedLen at hlt
  have hin : (List.range text.length).findIdx (fun k => decide (StopsAt m opts text k)) < (List.range text.length).length := by
    rw [length_range]
    omega
  have hfound := findIdx_getElem (w := hin)
  rw [decide_eq_true_iff, getElem_range] at hfound
  exact hgoing _ (by omega) hfound

section
variable (h : Before m opts started text k s)
include h

theorem not_selected_of_reached (hreached : s.maxCountReached = true) {i : Nat}
    (hle : k ≤ i) : ¬ Selected m opts text i := by
  intro hsel
  rw [h.reached_eq, h.atMaxCount_eq] at hreached
  have hlimit := hsel.2
  have hmono : matchesBefore m opts text k ≤ matchesBefore m opts text i := by
    unfold matchesBefore
    exact (take_sublist_take_left hle).countP_le
  unfold SearchOpts.atMaxCount at hreached hlimit
  grind

theorem Before.step_binary (hnul : opts.recordHasNul raw = true) (htext : opts.emitsText = true) (rest : Bytes) :
    (s.step m opts raw rest).2 = true ∧
      ((s.step m opts raw rest).1.output.events = s.output.events ∨
        (s.step m opts raw rest).1.output.events = s.output.events ++ [.binaryMatch]) := by
  have hreport := h.not_reported
  unfold State.step State.noteBinary
  dsimp only
  rw [hnul, h.not_binary, htext]
  simp only [Bool.not_false, Bool.and_self, if_true, Bool.true_and]
  by_cases hwithout : opts.binaryWithoutMatch = true
  · rw [if_pos hwithout]
    refine ⟨rfl, Or.inl ?_⟩
    dsimp only
    split <;> rfl
  · rw [if_neg hwithout]
    split
    · exact ⟨rfl, Or.inl rfl⟩
    · split
      · unfold State.takeSelected State.report
        dsimp only
        rw [htext]
        simp only [Bool.and_self, if_true, Bool.true_or, hreport]
        exact ⟨trivial, Or.inr rfl⟩
      · unfold State.takeUnselected State.takeBinary State.report
        dsimp only
        rw [htext]
        simp only [Bool.and_self, if_true, hreport]
        refine ⟨trivial, ?_⟩
        split
        · exact Or.inr rfl
        · exact Or.inl rfl

theorem run_events (hle : k ≤ text.length)
    (hnul : ∀ raw ∈ text, opts.recordHasNul raw = false) (hcontext : opts.withContext = true)
    (htext : opts.emitsText = true) {rest : List Bytes} (hrest : ∀ raw ∈ rest.head?, opts.recordHasNul raw = true) :
    ∃ after, (State.run m opts (text.drop k ++ rest) s).output.events =
        printed m opts text started
          (windowed (Selected m opts text) opts.beforeContext opts.afterContext (searchedLen m opts text)) ++ after ∧
      (after = [] ∨ after = [.binaryMatch] ∧ rest ≠ []) := by
  induction hn : text.length - k generalizing k s with
  | zero =>
    have hend : k = text.length := by omega
    have hsearched : searchedLen m opts text = k := by
      have hge := le_searchedLen hle h.going
      have hlen := @searchedLen_le m opts text
      omega
    rw [hsearched, hend, drop_length, nil_append, ← hend]
    unfold printed
    rw [← h.printed.events_eq]
    cases rest with
    | nil =>
      refine ⟨[], ?_, Or.inl rfl⟩
      rw [append_nil]
      rfl
    | cons raw rest =>
      obtain ⟨hstop, hevents⟩ := h.step_binary (hrest raw rfl) htext rest.flatten
      rw [State.run, if_pos hstop]
      cases hevents with
      | inl hevents =>
        refine ⟨[], ?_, Or.inl rfl⟩
        rw [hevents, append_nil]
      | inr hevents => exact ⟨[.binaryMatch], hevents, Or.inr ⟨rfl, cons_ne_nil _ _⟩⟩
  | succ n ih =>
    have hlt : k < text.length := by omega
    have hraw : text[k]? = some text[k] := getElem?_eq_getElem hlt
    have hnotNul := hnul _ (getElem_mem hlt)
    rw [drop_eq_getElem_cons hlt, cons_append, State.run]
    by_cases hstops : StopsAt m opts text k
    · rw [h.step_eq hraw hnotNul hcontext htext, if_pos hstops, if_pos rfl, searchedLen_eq hstops hlt h.going]
      refine ⟨[], ?_, Or.inl rfl⟩
      rw [append_nil]
      exact h.printed.events_eq
    · obtain ⟨hnext, hdone⟩ := h.step hraw hnotNul hcontext htext (text.drop (k + 1) ++ rest).flatten hstops
      split
      · -- the limit is reached and the last window has ended
        rename_i hstop
        obtain ⟨hreached, hafter⟩ := hdone hstop
        rw [hnext.after_eq] at hafter
        have hend : windowEnd (Selected m opts text) opts.afterContext (k + 1) ≤ k + 1 := by omega
        rw [windowed_eq_of_none_selected (le_searchedLen hlt hnext.going) hend
          fun i hi _ => not_selected_of_reached hnext hreached hi]
        refine ⟨[], ?_, Or.inl rfl⟩
        rw [append_nil]
        exact hnext.printed.events_eq
      · exact ih hnext hlt (by omega)

end

end

/-- The records in windows around selected records are printed once each and in order, and separators just where
records are left out. -/
def PrintsWindows (m : Matcher) (opts : SearchOpts) (displayName : Option Bytes) (contextOutputStarted : Bool)
    (records : List Bytes) : Prop :=
  let text := records.takeWhile fun raw => !opts.recordHasNul raw
  let searched := searchedLen m opts text
  ∃ items after, items.Pairwise (· < ·) ∧
    (∀ j, j ∈ items ↔ j < searched ∧
      ∃ i < searched, Selected m opts text i ∧ i ≤ j + opts.beforeContext ∧ j ≤ i + opts.afterContext) ∧
    (searchBufferedOpened m opts displayName contextOutputStarted records).events =
      printed m opts text contextOutputStarted items ++ after ∧
    (after = [] ∨ after = [.binaryMatch] ∧ text ≠ records)

/-- **Main result.** In context mode every search prints windows. The first NUL of a binary file takes the place of
the end, and so does a record that stops the search. -/
theorem printsWindows (m : Matcher) (opts : SearchOpts) (displayName : Option Bytes) (contextOutputStarted : Bool)
    (records : List Bytes) (hcontext : opts.withContext = true) (htext : opts.emitsText = true) :
    PrintsWindows m opts displayName contextOutputStarted records := by
  unfold PrintsWindows
  intro text searched
  have hsplit : text ++ records.dropWhile (fun raw => !opts.recordHasNul raw) = records := takeWhile_append_dropWhile
  have hnul : ∀ raw ∈ text, opts.recordHasNul raw = false := by
    intro raw hraw
    have hkept := mem_takeWhile_imp hraw
    rw [Bool.not_eq_true'] at hkept
    exact hkept
  have hrest : ∀ raw ∈ (records.dropWhile fun raw => !opts.recordHasNul raw).head?, opts.recordHasNul raw = true := by
    intro raw hraw
    have hfirst := head?_dropWhile_not (fun raw => !opts.recordHasNul raw) records
    rw [Option.mem_def.mp hraw] at hfirst
    grind
  obtain ⟨after, hevents, hafter⟩ := run_events (@before_zero m opts text contextOutputStarted) (Nat.zero_le _) hnul hcontext htext hrest
  refine ⟨_, after, windowed_increasing searched, fun j => mem_windowed, ?_, ?_⟩
  · rw [drop_zero, hsplit] at hevents
    rw [← hevents]
    have hsummary : (opts.countOnly || opts.filesWithMatches || opts.filesWithoutMatch) = false := by
      unfold SearchOpts.emitsText at htext
      grind
    unfold searchBufferedOpened
    dsimp only
    rw [hsummary, if_neg Bool.false_ne_true]
  · refine hafter.imp_right fun hmore => ⟨hmore.1, ?_⟩
    intro heq
    rw [heq] at hsplit
    exact hmore.2 (self_eq_append_right.mp hsplit.symm)

def findsA : Matcher := { find := fun text => text.contains 97, countRecordMatches := fun text => text.count 97 }

theorem printsWindows_findsA :
    PrintsWindows findsA { beforeContext := 1 } none true [[98, 10], [99, 10], [97, 10], [98, 10]] ∧
      (searchBufferedOpened findsA { beforeContext := 1 } none true [[98, 10], [99, 10], [97, 10], [98, 10]]).events =
        [.fileSeparator, .record ⟨[99, 10], 2, 2⟩ false, .record ⟨[97, 10], 4, 3⟩ true] :=
  ⟨printsWindows findsA { beforeContext := 1 } none true [[98, 10], [99, 10], [97, 10], [98, 10]] rfl rfl, by decide⟩

/-- With `--stop-on-nonmatch`, the record behind a selected one is not printed with `-A 1`. -/
theorem not_printed_of_stopOnNonmatch :
    ¬ ∀ (m : Matcher) (opts : SearchOpts) (records : List Bytes), opts.withContext = true → opts.emitsText = true →
      (∀ raw ∈ records, opts.recordHasNul raw = false) →
      ∀ j < records.length, (∃ selected, .record (recordAt records j) selected ∈
          (searchBufferedOpened m opts none false records).events) ↔
        ∃ i < records.length, Selected m opts records i ∧ i ≤ j + opts.beforeContext ∧ j ≤ i + opts.afterContext := by
  intro h
  have hone := h findsA { afterContext := 1, stopOnNonmatch := true } [[97, 10], [98, 10]] rfl rfl (by decide) 1 (by decide)
  have hevents : (searchBufferedOpened findsA { afterContext := 1, stopOnNonmatch := true } none false
      [[97, 10], [98, 10]]).events = [.record ⟨[97, 10], 0, 1⟩ true] := by decide
  rw [hevents] at hone
  obtain ⟨selected, hmem⟩ := hone.mpr ⟨0, by decide, by decide, by decide, by decide⟩
  cases mem_singleton.mp hmem

end Bx.SearchBuffered
