import Bx.Search.Multiline

/-!
# Which lines a multiline search prints

The scan goes on right behind a match, and up to the end of a line the next match is widened to lines that have been
printed before. A match that ends with a line end is widened by the line behind it.
-/

namespace Bx.Multiline

open Kit List

section
variable (m : Matcher) (opts : SearchOpts) (buf : Bytes)

def failsAt (bm : Match) : Bool :=
  (recordContent m opts (slice buf (lineStartOffset buf bm.start) (lineEndOffset buf bm.stop))).2

/-- The matches that are found one behind the other, until there are enough of them -/
def reported : Nat → Nat → Nat → List Match
  | 0, _, _ => []
  | fuel + 1, start, fileMatches =>
    if buf.length < start then []
    else
      match m.find buf start with
      | .at bm =>
        bm :: if atMaxCount opts (fileMatches + 1) || failsAt m opts buf bm then []
          else reported fuel bm.resume (fileMatches + 1)
      | .absent => []
      | .error => []

def reportedMatches : List Match := reported m opts buf (buf.length + 2) 0 0

end

/-- The line of `q` has a place of the match on it; an empty match has the place where it is. -/
def Touches (buf : Bytes) (bm : Match) (q : Nat) : Prop :=
  ∃ p, (p = bm.start ∨ bm.start ≤ p ∧ p < bm.stop) ∧ lineOf newline buf p = lineOf newline buf q

def Event.range : Event → Option (Nat × Nat)
  | .lines outStart outEnd _ _ _ => some (outStart, outEnd)
  | _ => none

def ranges (events : List Event) : List (Nat × Nat) := events.filterMap Event.range

/-- The ranges come one behind the other, and what lies in them are the lines that a match touches. -/
structure PrintsOnce (buf : Bytes) (printed : List (Nat × Nat)) (ms : List Match) : Prop where
  increasing : printed.Pairwise fun a b => a.1 < b.1 ∧ a.2 ≤ b.1
  exactly : ∀ q < buf.length, (∃ r ∈ printed, r.1 ≤ q ∧ q < r.2) ↔ ∃ bm ∈ ms, Touches buf bm q

/-- A line ends between the matches, or the second one is at the end of the text, behind the last line. -/
def Apart (buf : Bytes) (a b : Match) : Prop :=
  lineOf newline buf a.stop < lineOf newline buf b.start ∨ a.stop = buf.length ∧ buf.getLast? = some newline

def EndsBehindLine (buf : Bytes) (bm : Match) : Prop :=
  bm.start < bm.stop ∧ buf[bm.stop - 1]? = some newline ∧ bm.stop < buf.length

/-! ## The matches -/

structure InText (buf : Bytes) (bm : Match) : Prop where
  start_le : bm.start ≤ bm.stop
  stop_le : bm.stop ≤ buf.length

section
variable {m : Matcher} {opts : SearchOpts} {buf : Bytes}

variable {fuel start fileMatches : Nat}

theorem reported_inText : ∀ bm ∈ reported m opts buf fuel start fileMatches, start ≤ bm.start ∧ InText buf bm := by
  induction fuel generalizing start fileMatches with
  | zero => intro bm h; cases h
  | succ fuel ih =>
    intro bm h
    unfold reported at h
    by_cases hpast : buf.length < start
    · simp [hpast] at h
    · rw [if_neg hpast] at h
      cases hfind : m.find buf start with
      | absent => rw [hfind] at h; cases h
      | error => rw [hfind] at h; cases h
      | «at» found =>
        obtain ⟨hstart, hstop, hle⟩ := m.lawful buf start found hfind
        rw [hfind] at h
        cases mem_cons.mp h with
        | inl heq =>
          rw [heq]
          exact ⟨hstart, hstop, hle⟩
        | inr hrest =>
          split at hrest
          · cases hrest
          · obtain ⟨hresume, hin⟩ := ih bm hrest
            unfold Match.resume at hresume
            refine ⟨?_, hin⟩
            split at hresume <;> omega

theorem reported_pairwise : (reported m opts buf fuel start fileMatches).Pairwise fun a b => a.resume ≤ b.start := by
  induction fuel generalizing start fileMatches with
  | zero => exact .nil
  | succ fuel ih =>
    unfold reported
    by_cases hpast : buf.length < start
    · rw [if_pos hpast]
      exact .nil
    · rw [if_neg hpast]
      cases hfind : m.find buf start with
      | absent => exact .nil
      | error => exact .nil
      | «at» found =>
        dsimp only
        split
        · exact pairwise_singleton _ _
        · exact pairwise_cons.mpr ⟨fun b hb => (reported_inText b hb).1, ih⟩

/-! ## The run -/

def linesEvent (m : Matcher) (opts : SearchOpts) (buf : Bytes) (bm : Match) : Event :=
  let outStart := lineStartOffset buf bm.start
  let outEnd := lineEndOffset buf bm.stop
  .lines outStart outEnd (lineNumberForOffset buf outStart) (columnNumberForOffset buf bm.start)
    (recordContent m opts (slice buf outStart outEnd)).1

theorem takeMatch_printing (h : opts.printsLines = true) (bm : Match) (s : State) :
    takeMatch m opts buf bm s = goOn opts bm (printLines m opts buf bm { s with fileMatches := s.fileMatches + 1 }) := by
  unfold SearchOpts.printsLines at h
  simp only [Bool.and_eq_true, Bool.not_eq_true'] at h
  obtain ⟨⟨⟨⟨hquiet, hcount⟩, hwith⟩, hwithout⟩, honly⟩ := h
  unfold takeMatch
  rw [hquiet, hcount, hwith, hwithout, honly]
  rfl

theorem step_failed (s : State) (h : s.failed = true) : ∃ t, step m opts buf s = .inr t ∧ t.events = s.events := by
  unfold step matcherFind
  by_cases hpast : buf.length < s.start
  · rw [if_pos hpast]
    exact ⟨s, rfl, rfl⟩
  · rw [if_neg hpast, if_pos h]
    exact ⟨_, rfl, rfl⟩

theorem loop_printing (h : opts.printsLines = true) {fuel : Nat} {s : State} (hok : s.failed = false)
    (hfuel : buf.length + 1 - s.start < fuel) :
    ∃ t, loop (step m opts buf) fuel s = some t ∧
      t.events = s.events ++ (reported m opts buf fuel s.start s.fileMatches).map (linesEvent m opts buf) := by
  induction fuel generalizing s with
  | zero => exact absurd hfuel (Nat.not_lt_zero _)
  | succ fuel ih =>
    unfold reported
    by_cases hpast : buf.length < s.start
    · have hstep : step m opts buf s = .inr s := by
        unfold step
        rw [if_pos hpast]
      rw [loop_leave hstep, if_pos hpast]
      exact ⟨s, rfl, (append_nil _).symm⟩
    · rw [if_neg hpast]
      have hmatcher : matcherFind m s buf = m.find buf s.start := if_neg (by rw [hok]; exact Bool.false_ne_true)
      cases hfind : m.find buf s.start with
      | absent =>
        have hstep : step m opts buf s = .inr s := by
          unfold step
          rw [if_neg hpast, hmatcher, hfind]
        rw [loop_leave hstep]
        exact ⟨s, rfl, (append_nil _).symm⟩
      | error =>
        have hstep : step m opts buf s = .inr { s with failed := true } := by
          unfold step
          rw [if_neg hpast, hmatcher, hfind]
        rw [loop_leave hstep]
        exact ⟨_, rfl, (append_nil _).symm⟩
      | «at» bm =>
        have hstep : step m opts buf s =
            goOn opts bm (printLines m opts buf bm { s with fileMatches := s.fileMatches + 1 }) := by
          unfold step
          rw [if_neg hpast, hmatcher, hfind]
          exact takeMatch_printing h bm s
        obtain ⟨hstart, hstop, hle⟩ := m.lawful buf s.start bm hfind
        have hlater : s.start < bm.resume := by
          unfold Match.resume
          split <;> omega
        unfold goOn at hstep
        by_cases hmax : atMaxCount opts (s.fileMatches + 1) = true
        · have hstep' := hstep.trans (if_pos hmax)
          dsimp only
          rw [loop_leave hstep', hmax, Bool.true_or, if_pos rfl]
          exact ⟨_, rfl, rfl⟩
        · have hstep' := hstep.trans (if_neg hmax)
          dsimp only
          rw [loop_go hstep', Bool.eq_false_iff.mpr hmax, Bool.false_or]
          by_cases hfails : failsAt m opts buf bm = true
          · rw [if_pos hfails]
            -- the matcher has failed, so the next search is the last one
            cases fuel with
            | zero => omega
            | succ fuel =>
              obtain ⟨t, ht, hevents⟩ := @step_failed m opts buf
                { printLines m opts buf bm { s with fileMatches := s.fileMatches + 1 } with start := bm.resume } hfails
              rw [loop_leave ht]
              exact ⟨t, rfl, hevents⟩
          · rw [if_neg hfails]
            obtain ⟨t, ht, hevents⟩ := @ih
              { printLines m opts buf bm { s with fileMatches := s.fileMatches + 1 } with start := bm.resume }
              (Bool.eq_false_iff.mpr hfails) (show buf.length + 1 - bm.resume < fuel by omega)
            refine ⟨t, ht, ?_⟩
            rw [hevents, map_cons]
            exact append_assoc _ _ _

end

/-! ## Ranges and matches -/

section
variable {buf : Bytes} {bm : Match}

def widened (buf : Bytes) (bm : Match) : Nat × Nat := (lineStartOffset buf bm.start, lineEndOffset buf bm.stop)

variable {q : Nat}

theorem mem_widened_iff (h : InText buf bm) (hq : q < buf.length) : ((widened buf bm).1 ≤ q ∧ q < (widened buf bm).2) ↔
      lineOf newline buf bm.start ≤ lineOf newline buf q ∧ lineOf newline buf q ≤ lineOf newline buf bm.stop :=
  and_congr lineStart_le_iff (lt_lineEnd_iff h.stop_le hq)

def Match.last (bm : Match) : Nat := if bm.start < bm.stop then bm.stop - 1 else bm.start

section
variable (h : InText buf bm)
include h

theorem touches_iff : Touches buf bm q ↔
      lineOf newline buf bm.start ≤ lineOf newline buf q ∧ lineOf newline buf q ≤ lineOf newline buf bm.last := by
  have hle := h.start_le
  have hlast : bm.last = bm.start ∨ bm.start ≤ bm.last ∧ bm.last < bm.stop := by
    unfold Match.last
    split <;> omega
  refine ⟨?_, ?_⟩
  · intro ⟨p, hp, hline⟩
    rw [← hline]
    have hbetween : bm.start ≤ p ∧ p ≤ bm.last := by
      unfold Match.last
      split <;> omega
    exact ⟨lineOf_mono hbetween.1, lineOf_mono hbetween.2⟩
  · intro ⟨hfirst, hlow⟩
    by_cases hbefore : q < bm.start
    · exact ⟨bm.start, .inl rfl, le_antisymm hfirst (lineOf_mono (le_of_lt hbefore))⟩
    · by_cases hafter : bm.last < q
      · exact ⟨bm.last, hlast, le_antisymm (lineOf_mono (le_of_lt hafter)) hlow⟩
      · refine ⟨q, ?_, rfl⟩
        unfold Match.last at hafter
        split at hafter <;> omega

theorem last_le_stop : bm.last ≤ bm.stop := by
  have hle := h.start_le
  unfold Match.last
  split <;> omega

theorem Touches.mem_widened (hq : q < buf.length) (ht : Touches buf bm q) :
    (widened buf bm).1 ≤ q ∧ q < (widened buf bm).2 := by
  obtain ⟨hfirst, hlast⟩ := (touches_iff h).mp ht
  exact (mem_widened_iff h hq).mpr ⟨hfirst, Nat.le_trans hlast (lineOf_mono (last_le_stop h))⟩

theorem touches_of_mem_widened (hend : ¬EndsBehindLine buf bm) (hq : q < buf.length)
    (hmem : (widened buf bm).1 ≤ q ∧ q < (widened buf bm).2) : Touches buf bm q := by
  obtain ⟨hfirst, hstop⟩ := (mem_widened_iff h hq).mp hmem
  apply (touches_iff h).mpr
  refine ⟨hfirst, ?_⟩
  have hle := h.start_le
  have hstop_le := h.stop_le
  unfold Match.last
  by_cases hempty : bm.start < bm.stop
  · rw [if_pos hempty]
    apply Nat.le_of_not_lt
    intro hlt
    obtain ⟨i, hi, hiq, hat⟩ := lineOf_lt_iff.mp hlt
    by_cases hinside : i = bm.stop - 1
    · rw [hinside] at hat
      exact hend ⟨hempty, hat, by omega⟩
    · -- the delimiter would be behind the match, on the line that the range ends with
      have hbehind := lineOf_lt_iff.mpr ⟨i, (by omega : bm.stop ≤ i), hiq, hat⟩
      omega
  · rw [if_neg hempty, (by omega : bm.start = bm.stop)]
    exact hstop

theorem endsBehindLine_untouched (hend : EndsBehindLine buf bm) :
    ((widened buf bm).1 ≤ bm.stop ∧ bm.stop < (widened buf bm).2) ∧ ¬Touches buf bm bm.stop := by
  obtain ⟨hlt, hat, hin⟩ := hend
  refine ⟨(mem_widened_iff h hin).mpr ⟨lineOf_mono h.start_le, le_rfl⟩, ?_⟩
  intro ht
  obtain ⟨_, hlast⟩ := (touches_iff h).mp ht
  unfold Match.last at hlast
  rw [if_pos hlt] at hlast
  have hless := lineOf_lt_iff.mpr ⟨bm.stop - 1, le_rfl, (by omega : bm.stop - 1 < bm.stop), hat⟩
  omega

end

theorem apart_iff {a b : Match} (ha : InText buf a) (hb : InText buf b) (hresume : a.resume ≤ b.start) :
    ((widened buf a).1 < (widened buf b).1 ∧ (widened buf a).2 ≤ (widened buf b).1) ↔ Apart buf a b := by
  have hstop := ha.stop_le
  have hstart := ha.start_le
  have hbstart := hb.start_le
  have hbstop := hb.stop_le
  have hle : a.stop ≤ b.start := by
    unfold Match.resume at hresume
    split at hresume <;> omega
  have hnumbers : (widened buf a).1 < (widened buf b).1 ↔ lineOf newline buf a.start < lineOf newline buf b.start := by
    rw [← Nat.not_le, ← Nat.not_le]
    refine not_congr ⟨?_, ?_⟩
    · intro hstarts
      exact lineStart_le_iff.mp (Nat.le_trans hstarts (lineStart_le _))
    · intro hlines
      apply lineStart_le_iff.mpr
      exact Nat.le_trans hlines (lineStart_le_iff.mp (Nat.le_refl _))
  rw [hnumbers]
  show _ ∧ lineEnd newline buf a.stop ≤ lineStart newline buf b.start ↔ _
  have hstartb := @lineStart_le _ _ newline buf b.start
  obtain ⟨stop, hfrom, hfree, hfound⟩ := @lineEnd_spec _ _ newline buf a.stop ha.stop_le
  cases hfound with
  | inl hfound =>
    obtain ⟨rfl, hend⟩ := hfound
    rw [hend]
    refine ⟨?_, ?_⟩
    · intro ⟨hlines, hbehind⟩
      obtain ⟨i, hai, hib, hat⟩ := lineOf_lt_iff.mp hlines
      obtain ⟨n, hn⟩ : ∃ n, buf.length = n + 1 := ⟨buf.length - 1, by omega⟩
      have hself : lineStart newline buf (n + 1) = n + 1 := by
        rw [← hn]
        have hb : b.start = buf.length := by omega
        rw [hb] at hbehind hstartb
        exact Nat.le_antisymm hstartb hbehind
      have hlast := lineStart_succ_eq_iff.mp hself
      right
      refine ⟨?_, ?_⟩
      · apply Nat.le_antisymm hstop
        apply Nat.le_of_not_lt
        intro hlt
        exact hfree n (by omega) (by omega) hlast
      · rw [getLast?_eq_getElem?, hn]
        exact hlast
    · intro hapart
      cases hapart with
      | inl hlines =>
        obtain ⟨i, hai, hib, hat⟩ := lineOf_lt_iff.mp hlines
        exact absurd hat (hfree i hai (by omega))
      | inr hlast =>
        obtain ⟨hall, hlast⟩ := hlast
        rw [getLast?_eq_getElem?] at hlast
        obtain ⟨hpos, _⟩ := List.getElem?_eq_some_iff.mp hlast
        have hb : b.start = (buf.length - 1) + 1 := by omega
        have hnonempty : a.start < a.stop := by
          unfold Match.resume at hresume
          split at hresume <;> omega
        refine ⟨lineOf_lt_iff.mpr ⟨buf.length - 1, by omega, by omega, hlast⟩, ?_⟩
        rw [hb, lineStart_succ_eq_iff.mpr hlast]
        omega
  | inr hfound =>
    obtain ⟨hlt, hat, hend⟩ := hfound
    rw [hend]
    refine ⟨?_, ?_⟩
    · intro ⟨_, hbehind⟩
      exact .inl (lineOf_lt_iff.mpr ⟨stop, hfrom, by omega, hat⟩)
    · intro hapart
      cases hapart with
      | inl hlines =>
        obtain ⟨i, hai, hib, hati⟩ := lineOf_lt_iff.mp hlines
        have hstop_le : stop ≤ i := by
          apply Nat.le_of_not_lt
          intro hbefore
          exact hfree i hai hbefore hati
        refine ⟨Nat.lt_of_le_of_lt (lineOf_mono hstart) hlines, ?_⟩
        apply Nat.lt_of_not_le
        intro hle'
        have hsame := lineStart_le_iff.mp hle'
        have hless := @lineOf_lt_of_delimiter _ _ newline buf stop b.start hat (by omega)
        omega
      | inr hlast => omega

theorem printsOnce_iff {ms : List Match} (hin : ∀ bm ∈ ms, InText buf bm)
    (hpairs : ms.Pairwise fun a b => a.resume ≤ b.start) :
    PrintsOnce buf (ms.map (widened buf)) ms ↔ ms.Pairwise (Apart buf) ∧ ∀ bm ∈ ms, ¬EndsBehindLine buf bm := by
  have hincreasing : ((ms.map (widened buf)).Pairwise fun a b => a.1 < b.1 ∧ a.2 ≤ b.1) ↔ ms.Pairwise (Apart buf) := by
    rw [pairwise_map]
    refine ⟨?_, ?_⟩
    · intro h
      apply (h.and hpairs).imp_of_mem
      intro a b ha hb hab
      exact (apart_iff (hin a ha) (hin b hb) hab.2).mp hab.1
    · intro h
      apply (h.and hpairs).imp_of_mem
      intro a b ha hb hab
      exact (apart_iff (hin a ha) (hin b hb) hab.2).mpr hab.1
  refine ⟨?_, ?_⟩
  · intro h
    refine ⟨hincreasing.mp h.increasing, ?_⟩
    intro bm hbm hend
    obtain ⟨hprinted, huntouched⟩ := endsBehindLine_untouched (hin bm hbm) hend
    have hq := hend.2.2
    obtain ⟨other, hother, htouches⟩ := (h.exactly bm.stop hq).mp ⟨_, mem_map_of_mem hbm, hprinted⟩
    have hprinted' := htouches.mem_widened (hin other hother) hq
    -- the line behind would be printed twice
    obtain ⟨i, hi, rfl⟩ := mem_iff_getElem.mp hbm
    obtain ⟨j, hj, rfl⟩ := mem_iff_getElem.mp hother
    have hdisjoint := pairwise_iff_getElem.mp (pairwise_map.mp h.increasing)
    cases Nat.lt_trichotomy i j with
    | inl hij =>
      have hle := (hdisjoint i j hi hj hij).2
      omega
    | inr hij =>
      cases hij with
      | inl hij =>
        subst hij
        exact huntouched htouches
      | inr hji =>
        have hle := (hdisjoint j i hj hi hji).2
        omega
  · intro ⟨hapart, hends⟩
    refine ⟨hincreasing.mpr hapart, ?_⟩
    intro q hq
    refine ⟨?_, ?_⟩
    · intro ⟨r, hr, hmem⟩
      obtain ⟨bm, hbm, rfl⟩ := mem_map.mp hr
      exact ⟨bm, hbm, touches_of_mem_widened (hin bm hbm) (hends bm hbm) hq hmem⟩
    · intro ⟨bm, hbm, ht⟩
      exact ⟨_, mem_map_of_mem hbm, ht.mem_widened (hin bm hbm) hq⟩

end

/-! ## The search -/

section
variable (m : Matcher) (opts : SearchOpts) (buf : Bytes)

theorem multilineBuffer_ranges (h : opts.printsLines = true) :
    ∃ o, multilineBuffer m opts buf = some o ∧ ranges o.events = (reportedMatches m opts buf).map (widened buf) := by
  obtain ⟨t, ht, hevents⟩ := @loop_printing m opts buf h (buf.length + 2) {} rfl
    (show buf.length + 1 - 0 < buf.length + 2 by omega)
  refine ⟨finish opts t, ?_, ?_⟩
  · unfold multilineBuffer
    rw [ht]
    rfl
  · have hfinish : (finish opts t).events = t.events := by
      unfold SearchOpts.printsLines at h
      simp only [Bool.and_eq_true, Bool.not_eq_true'] at h
      obtain ⟨⟨⟨⟨_, hcount⟩, hwith⟩, hwithout⟩, _⟩ := h
      unfold finish emitSummary
      split
      · rfl
      · simp [hcount, hwith, hwithout]
    rw [hfinish, hevents, nil_append]
    unfold ranges
    have hcomp : Event.range ∘ linesEvent m opts buf = some ∘ widened buf := rfl
    rw [filterMap_map, hcomp, filterMap_eq_map]
    rfl

/-- **Main result.** Every line that a match touches is printed once, and no other one, exactly
where the matches lie apart and none of them ends behind a line. -/
theorem multilineBuffer_printsOnce_iff (h : opts.printsLines = true) : ∃ o, multilineBuffer m opts buf = some o ∧
      (PrintsOnce buf (ranges o.events) (reportedMatches m opts buf) ↔
        (reportedMatches m opts buf).Pairwise (Apart buf) ∧
          ∀ bm ∈ reportedMatches m opts buf, ¬EndsBehindLine buf bm) := by
  obtain ⟨o, ho, hranges⟩ := multilineBuffer_ranges m opts buf h
  refine ⟨o, ho, ?_⟩
  rw [hranges]
  exact printsOnce_iff (fun bm hbm => (reported_inText bm hbm).2) reported_pairwise

end

def letter (c : UInt8) : Matcher where
  find buf start := ((buf.drop start).findIdx? (· == c)).elim .absent fun i => .at ⟨start + i, start + i + 1⟩
  lawful := by
    intro buf start bm h
    cases hfound : (buf.drop start).findIdx? (· == c) with
    | none => rw [hfound] at h; cases h
    | some i =>
      rw [hfound] at h
      obtain ⟨hi, _⟩ := findIdx?_eq_some_iff_getElem.mp hfound
      rw [length_drop] at hi
      cases h
      dsimp only
      omega

theorem multilineBuffer_printsOnce_iff_small : ∃ o, multilineBuffer (letter 97) {} (ascii "ab\na\n") = some o ∧
      (PrintsOnce (ascii "ab\na\n") (ranges o.events) (reportedMatches (letter 97) {} (ascii "ab\na\n")) ↔
        (reportedMatches (letter 97) {} (ascii "ab\na\n")).Pairwise (Apart (ascii "ab\na\n")) ∧
          ∀ bm ∈ reportedMatches (letter 97) {} (ascii "ab\na\n"), ¬EndsBehindLine (ascii "ab\na\n") bm) :=
  multilineBuffer_printsOnce_iff (letter 97) {} (ascii "ab\na\n") rfl

/-- A line with two matches is printed twice. -/
theorem not_multilineBuffer_printsOnce :
    ¬∀ (m : Matcher) (opts : SearchOpts) (buf : Bytes) (o : Outcome), opts.printsLines = true →
      multilineBuffer m opts buf = some o → PrintsOnce buf (ranges o.events) (reportedMatches m opts buf) := by
  intro h
  have hrun : multilineBuffer (letter 97) {} (ascii "aa\n") =
      some ⟨0, 2, [.lines 0 3 1 1 (.plain (ascii "aa\n")), .lines 0 3 1 2 (.plain (ascii "aa\n"))]⟩ := by decide
  have honce := h (letter 97) {} (ascii "aa\n") _ rfl hrun
  have hlt := (pairwise_cons.mp honce.increasing).1 (0, 3) mem_cons_self
  exact absurd hlt.1 (lt_irrefl 0)

end Bx.Multiline
