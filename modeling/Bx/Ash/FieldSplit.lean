import Bx.Kit.CString
import Mathlib.Data.List.TakeWhile

/-!
# Field splitting

`ash_split_components` of `src/applets/shell/ash/expansion.c` makes fields of components, of which some are split at the
characters of `IFS`; the state goes on from one to the next. The locale says how wide a character is.
-/

namespace Bx.Ash.Expansion

open Bx.Kit List

/-! ## Characters -/

/-- `decode` is `ash_character_decode`. No encoding of a locale has shift states. -/
structure CharLocale where
  singleByte : Bool
  State : Type
  initial : State
  decode : State → CStr → Nat × State
  decode_le : ∀ text, text ≠ [] → (decode initial text).1 ≤ text.length
  decode_initial : ∀ text, (decode initial text).2 = initial

variable (L : CharLocale) (ifs : CStr)

def characterWidth (value : CStr) (state : L.State) : Nat × L.State :=
  if L.singleByte then (1, state)
  else
    let (width, state) := L.decode state value
    (if width = 0 then 1 else width, state)

/-- The terminator of the set is found as well. -/
def strchr (set : CStr) (c : Char) : Bool := c = '\x00' || c ∈ set

/-- Over the characters of `IFS`, for the one that the text starts with -/
def findCharacter (width : Nat) (text : CStr) : Nat → L.State → CStr → Nat
  | 0, _, _ => 0
  | fuel + 1, state, ifs =>
    if ifs = [] then 0
    else
      let (ifsWidth, state) := characterWidth L ifs state
      if ifsWidth = width ∧ ifs.take ifsWidth = text.take ifsWidth then ifsWidth
      else findCharacter width text fuel state (ifs.drop ifsWidth)

def ifsDelimiterLength (text : CStr) : Nat :=
  if L.singleByte then if text.head?.any (strchr ifs) then 1 else 0
  else findCharacter L (characterWidth L text L.initial).1 text ifs.length L.initial ifs

def ifsWhitespace (c : Char) : Bool := (c = ' ' || c = '\t' || c = '\n') && strchr ifs c

/-- What `ash_append_pattern_span` puts a backslash in front of -/
def patternSpecial : CStr := ['\\', '*', '?', '[', ']', '!', '^', '-', '.', '=', ':']

def appendPatternSpan (text : CStr) (quoted : Bool) : CStr :=
  text.flatMap fun c => if quoted && patternSpecial.contains c then ['\\', c] else [c]

/-! ## Components -/

structure Component where
  text : CStr
  split : Bool
  quoted : Bool
  newField : Bool
  noNul : '\x00' ∉ text

/-- `ash_expansion_components_push` keeps a text up to its first NUL. -/
def pushComponent (components : List Component) (text : CStr) (split quoted newField : Bool) : List Component :=
  components ++ [⟨text.takeWhile (· ≠ '\x00'), split, quoted, newField, fun h => absurd (mem_takeWhile_imp h) (by decide)⟩]

structure Candidate where
  value : CStr := []
  pattern : CStr := []
  present : Bool := false
  whitespace : Bool := false

/-- The candidate, and the fields and patterns before it -/
structure Fields where
  candidate : Candidate := {}
  fields : List CStr := []
  patterns : List CStr := []

variable (withPatterns : Bool)

def Fields.emit (st : Fields) (force : Bool) : Fields :=
  if st.candidate.present || force then
    { candidate := {}
      fields := st.fields ++ [st.candidate.value]
      patterns := if withPatterns then st.patterns ++ [st.candidate.pattern] else st.patterns }
  else { st with candidate := {} }

def Fields.append (st : Fields) (text : CStr) (quoted : Bool) : Fields :=
  { st with
    candidate :=
      { value := st.candidate.value ++ text
        pattern := if withPatterns then st.candidate.pattern ++ appendPatternSpan text quoted else st.candidate.pattern
        present := true
        whitespace := st.candidate.whitespace } }

def Fields.emitPending (st : Fields) : Fields := if st.candidate.whitespace then st.emit withPatterns false else st

/-- Up to the next delimiter, from a character that is none -/
def spanLength : Nat → L.State → CStr → Nat
  | 0, _, _ => 0
  | fuel + 1, state, text =>
    let (width, state) := characterWidth L text state
    if width < text.length ∧ ifsDelimiterLength L ifs (text.drop width) = 0 then
      width + spanLength fuel state (text.drop width)
    else width

/-- What is left of the text of a component that is split -/
def splitText : Nat → CStr → Fields → Fields
  | 0, _, st => st
  | _ + 1, [], st => st
  | fuel + 1, c :: rest, st =>
    let text := c :: rest
    let delimiter := ifsDelimiterLength L ifs text
    if delimiter ≠ 0 then
      splitText fuel (text.drop delimiter)
        (if ifsWhitespace ifs c then { st with candidate := { st.candidate with whitespace := true } }
        else st.emit withPatterns true)
    else
      let length := spanLength L ifs text.length L.initial text
      splitText fuel (text.drop length) ((st.emitPending withPatterns).append withPatterns (text.take length) false)

def splitComponent (st : Fields) (component : Component) : Fields :=
  let st := if component.newField then st.emit withPatterns false else st
  if !component.split then
    if component.text = [] ∧ !component.quoted then st
    else (st.emitPending withPatterns).append withPatterns component.text component.quoted
  else splitText L ifs withPatterns component.text.length component.text st

/-- `IFS`, or what stands for it where it is not set -/
def ifsValue (ifs : Option CStr) : CStr := ifs.getD [' ', '\t', '\n']

def splitComponents (ifs : Option CStr) (components : List Component) : Fields :=
  (components.foldl (splitComponent L (ifsValue ifs) withPatterns) {}).emit withPatterns false

/-! ## The rule -/

/-- A part of a field: a character, or text that is not split -/
structure Piece where
  text : CStr
  quoted : Bool

def fieldText (pieces : List Piece) : CStr := pieces.flatMap Piece.text

def fieldPattern (pieces : List Piece) : CStr := pieces.flatMap fun piece => appendPatternSpan piece.text piece.quoted

inductive Mark
  | space
  | stop
  | piece (x : Piece)

def spaces (n : Nat) : List Mark := replicate n .space

/-- White space separates fields, and a stop with the white space around it ends one. -/
inductive Splits : List Mark → List (List Piece) → Prop
  | none (n : Nat) : Splits (spaces n) []
  | last (n : Nat) {field : List Piece} (h : field ≠ []) (m : Nat) :
    Splits (spaces n ++ (field.map .piece ++ spaces m)) [field]
  | space (n : Nat) {field : List Piece} (h : field ≠ []) (m : Nat) {x : Piece} {marks : List Mark}
    {fields : List (List Piece)} (hrest : Splits (.piece x :: marks) fields) :
    Splits (spaces n ++ (field.map .piece ++ (spaces (m + 1) ++ .piece x :: marks))) (field :: fields)
  | stop (n : Nat) (field : List Piece) (m : Nat) {marks : List Mark} {fields : List (List Piece)}
    (hrest : Splits marks fields) :
    Splits (spaces n ++ (field.map .piece ++ (spaces m ++ .stop :: marks))) (field :: fields)

/-- The fields before, the pieces of the one that was started, and whether white space came after them -/
structure Progress where
  out : List (List Piece) := []
  pieces : List Piece := []
  blank : Bool := false

namespace Progress

def close (p : Progress) : List (List Piece) := p.out ++ if p.pieces = [] then [] else [p.pieces]

/-- Before a piece is added -/
def ready (p : Progress) : Progress := if p.blank then { out := p.close } else p

def step (p : Progress) : Mark → Progress
  | .space => { p with blank := true }
  | .stop => { out := p.out ++ [p.pieces] }
  | .piece x => { p.ready with pieces := p.ready.pieces ++ [x] }

def run (p : Progress) (marks : List Mark) : Progress := marks.foldl step p

theorem run_append (p : Progress) (a b : List Mark) : p.run (a ++ b) = (p.run a).run b := foldl_append

theorem run_cons (p : Progress) (mark : Mark) (marks : List Mark) : p.run (mark :: marks) = (p.step mark).run marks := rfl

theorem run_spaces (p : Progress) (n : Nat) : p.run (spaces n) = { p with blank := p.blank || decide (0 < n) } := by
  induction n generalizing p with
  | zero => rw [spaces, replicate_zero, decide_eq_false (lt_irrefl 0), Bool.or_false]; rfl
  | succ n ih =>
    have hcons : spaces (n + 1) = .space :: spaces n := replicate_succ
    rw [hcons, run_cons, ih, decide_eq_true (Nat.succ_pos n), Bool.or_true]
    rfl

theorem run_pieces (out : List (List Piece)) (pieces field : List Piece) :
    (⟨out, pieces, false⟩ : Progress).run (field.map .piece) = ⟨out, pieces ++ field, false⟩ := by
  induction field generalizing pieces with
  | nil =>
    rw [append_nil]
    rfl
  | cons x field ih =>
    rw [map_cons, run_cons, step]
    exact (ih (pieces ++ [x])).trans (by rw [append_assoc, singleton_append])

theorem ready_of_not_blank {p : Progress} (h : p.blank = false) : p.ready = p := if_neg (by rw [h]; decide)

theorem ready_blank (p : Progress) : p.ready.blank = false := by
  unfold ready
  by_cases hblank : p.blank = true
  · rw [if_pos hblank]
  · rw [if_neg hblank]
    exact Bool.eq_false_iff.mpr hblank

theorem run_ready (p : Progress) {field : List Piece} (h : field ≠ []) :
    p.run (field.map .piece) = p.ready.run (field.map .piece) := by
  obtain ⟨x, field, rfl⟩ := exists_cons_of_ne_nil h
  rw [map_cons, run_cons, run_cons, step, step, ready_of_not_blank p.ready_blank]

theorem run_spaces_field (out : List (List Piece)) (blank : Bool) (n : Nat) (field : List Piece) :
    ∃ blank', ((⟨out, [], blank⟩ : Progress).run (spaces n)).run (field.map .piece) = ⟨out, field, blank'⟩ := by
  rw [run_spaces]
  by_cases hnil : field = []
  · subst hnil
    exact ⟨_, rfl⟩
  · refine ⟨false, ?_⟩
    have hready : (⟨out, [], blank || decide (0 < n)⟩ : Progress).ready = ⟨out, [], false⟩ := by
      unfold ready close
      dsimp only
      cases blank || decide (0 < n) with
      | false => rfl
      | true => rw [if_pos rfl, if_pos rfl, append_nil]
    rw [run_ready _ hnil, hready, run_pieces, nil_append]

theorem close_run_splits {marks : List Mark} {fields : List (List Piece)} (h : Splits marks fields)
    (out : List (List Piece)) (blank : Bool) : ((⟨out, [], blank⟩ : Progress).run marks).close = out ++ fields := by
  induction h generalizing out blank with
  | none n =>
    rw [run_spaces]
    rfl
  | @last n field hne m =>
    obtain ⟨blank', hfield⟩ := run_spaces_field out blank n field
    rw [run_append, run_append, hfield, run_spaces, close, if_neg hne]
  | @space n field hne m x marks fields hrest ih =>
    obtain ⟨blank', hfield⟩ := run_spaces_field out blank n field
    rw [run_append, run_append, run_append, hfield, run_spaces]
    have hstart : (⟨out, field, blank' || decide (0 < m + 1)⟩ : Progress).run (.piece x :: marks) =
        (⟨out ++ [field], [], false⟩ : Progress).run (.piece x :: marks) := by
      rw [run_cons, run_cons, step, step]
      unfold ready close
      rw [decide_eq_true (Nat.succ_pos m), Bool.or_true, if_pos rfl, if_neg hne]
      rfl
    rw [hstart, ih, append_assoc]
    rfl
  | @stop n field m marks fields hrest ih =>
    obtain ⟨blank', hfield⟩ := run_spaces_field out blank n field
    rw [run_append, run_append, run_append, hfield, run_spaces, run_cons, step, ih, append_assoc]
    rfl

end Progress

theorem Splits.unique {marks : List Mark} {fields fields' : List (List Piece)} (h : Splits marks fields)
    (h' : Splits marks fields') : fields = fields' :=
  (Progress.close_run_splits h [] false).symm.trans (Progress.close_run_splits h' [] false)

theorem spaces_add (m n : Nat) : spaces m ++ spaces n = spaces (m + n) := replicate_append_replicate

theorem splits_exists_from (n : Nat) (field : List Piece) (k : Nat) (marks : List Mark) :
    ∃ fields, Splits (spaces n ++ (field.map .piece ++ (spaces k ++ marks))) fields := by
  induction marks generalizing n field k with
  | nil =>
    rw [append_nil]
    by_cases hnil : field = []
    · subst hnil
      rw [map_nil, nil_append, spaces_add]
      exact ⟨_, .none _⟩
    · exact ⟨_, .last n hnil k⟩
  | cons mark marks ih =>
    cases mark with
    | space =>
      obtain ⟨fields, h⟩ := ih n field (k + 1)
      rw [← spaces_add k 1, append_assoc] at h
      exact ⟨fields, h⟩
    | stop =>
      obtain ⟨fields, h⟩ := ih 0 [] 0
      exact ⟨_, .stop n field k h⟩
    | piece x =>
      cases k with
      | zero =>
        obtain ⟨fields, h⟩ := ih n (field ++ [x]) 0
        rw [map_append, append_assoc] at h
        exact ⟨fields, h⟩
      | succ k =>
        by_cases hnil : field = []
        · subst hnil
          obtain ⟨fields, h⟩ := ih (n + (k + 1)) [x] 0
          rw [← spaces_add, append_assoc] at h
          exact ⟨fields, h⟩
        · obtain ⟨fields, h⟩ := ih 0 [x] 0
          exact ⟨_, .space n hnil k h⟩

theorem splits_exists (marks : List Mark) : ∃ fields, Splits marks fields := splits_exists_from 0 [] 0 marks

/-! ## Marking a text -/

/-- The characters of a text -/
def charsFrom : Nat → CStr → List CStr
  | 0, _ => []
  | fuel + 1, text =>
    if text = [] then []
    else
      let width := (characterWidth L text L.initial).1
      text.take width :: charsFrom fuel (text.drop width)

def chars (text : CStr) : List CStr := charsFrom L text.length text

/-- What a character of a text that is split is -/
def markOf (ch : CStr) : Mark :=
  match ch with
  | [c] =>
    if c ∈ ifs then if c = ' ' ∨ c = '\t' ∨ c = '\n' then .space else .stop
    else .piece ⟨[c], false⟩
  | ch => .piece ⟨ch, false⟩

def charMarks (text : CStr) : List Mark := (chars L text).map (markOf ifs)

/-- The same for the bytes one by one -/
def byteMarks (text : CStr) : List Mark := text.map fun c => markOf ifs [c]

/-- Each character of `IFS` is one byte. -/
def SingleByte : Prop := ∀ k, k < ifs.length → (characterWidth L (ifs.drop k) L.initial).1 = 1

/-- No byte of `IFS` is a part of a longer character. -/
def Apart : Prop :=
  ∀ text, text ≠ [] → (characterWidth L text L.initial).1 ≠ 1 →
    ∀ c ∈ text.take (characterWidth L text L.initial).1, c ∉ ifs

variable {L ifs}

theorem characterWidth_state (text : CStr) : (characterWidth L text L.initial).2 = L.initial := by
  unfold characterWidth
  by_cases hsingle : L.singleByte = true
  · rw [if_pos hsingle]
  · rw [if_neg hsingle]
    exact L.decode_initial text

theorem characterWidth_pos (text : CStr) : 0 < (characterWidth L text L.initial).1 := by
  unfold characterWidth
  by_cases hsingle : L.singleByte = true
  · rw [if_pos hsingle]
    exact Nat.one_pos
  · rw [if_neg hsingle]
    dsimp only
    split <;> omega

variable {text : CStr}

theorem characterWidth_le (h : text ≠ []) : (characterWidth L text L.initial).1 ≤ text.length := by
  have hpos := length_pos_iff.mpr h
  unfold characterWidth
  by_cases hsingle : L.singleByte = true
  · rw [if_pos hsingle]
    exact hpos
  · rw [if_neg hsingle]
    have hle := L.decode_le text h
    dsimp only
    split <;> omega

theorem findCharacter_eq (hifs : SingleByte L ifs) {width : Nat} {text : CStr} (htext : text ≠ []) {k fuel : Nat}
    (hfuel : ifs.length - k ≤ fuel) :
    findCharacter L width text fuel L.initial (ifs.drop k) =
      if width = 1 ∧ text.head htext ∈ ifs.drop k then 1 else 0 := by
  induction fuel generalizing k with
  | zero =>
    have hnil : ifs.drop k = [] := drop_eq_nil_iff.mpr (by omega)
    rw [findCharacter, hnil, if_neg (fun h => absurd h.2 not_mem_nil)]
  | succ fuel ih =>
    rw [findCharacter]
    by_cases hnil : ifs.drop k = []
    · rw [if_pos hnil, hnil, if_neg (fun h => absurd h.2 not_mem_nil)]
    · rw [if_neg hnil]
      have hk : k < ifs.length := by
        by_contra hge
        exact hnil (drop_eq_nil_iff.mpr (by omega))
      have hwidth := hifs k hk
      have hstate := characterWidth_state (L := L) (ifs.drop k)
      obtain ⟨c, rest, hcons⟩ := exists_cons_of_ne_nil htext
      subst hcons
      dsimp only
      rw [hwidth, hstate, drop_drop, ih (by omega), drop_eq_getElem_cons hk, take_one, take_one,
        head?_cons, head?_cons, head_cons]
      by_cases hone : width = 1
      · subst hone
        by_cases hsame : ifs[k] = c
        · rw [if_pos ⟨rfl, by rw [hsame]⟩, if_pos ⟨rfl, hsame ▸ mem_cons_self⟩]
        · rw [if_neg (fun h => hsame (by simpa using h.2))]
          have hne : c ≠ ifs[k] := fun heq => hsame heq.symm
          simp only [mem_cons, hne, false_or]
      · rw [if_neg (fun h => hone h.1.symm), if_neg (fun h => hone h.1), if_neg (fun h => hone h.1)]

theorem ifsDelimiterLength_eq (hifs : SingleByte L ifs) {c : Char} {rest : CStr} (hnul : c ≠ '\x00') :
    ifsDelimiterLength L ifs (c :: rest) =
      if (characterWidth L (c :: rest) L.initial).1 = 1 ∧ c ∈ ifs then 1 else 0 := by
  unfold ifsDelimiterLength
  by_cases hsingle : L.singleByte = true
  · have hwidth : (characterWidth L (c :: rest) L.initial).1 = 1 := by
      unfold characterWidth
      rw [if_pos hsingle]
    rw [if_pos hsingle, hwidth, head?_cons, Option.any_some, strchr, decide_eq_false hnul, Bool.false_or]
    simp
  · rw [if_neg hsingle]
    exact @findCharacter_eq L ifs hifs _ (c :: rest) (cons_ne_nil _ _) 0 ifs.length (by omega)

/-! ## What the state stands for -/

variable {withPatterns : Bool}

structure Holds (withPatterns : Bool) (st : Fields) (p : Progress) : Prop where
  fields : st.fields = p.out.map fieldText
  patterns : st.patterns = if withPatterns then p.out.map fieldPattern else []
  value : st.candidate.value = fieldText p.pieces
  pattern : st.candidate.pattern = if withPatterns then fieldPattern p.pieces else []
  present : st.candidate.present = !p.pieces.isEmpty
  whitespace : st.candidate.whitespace = p.blank

theorem Holds.unique {st st' : Fields} {p : Progress} (h : Holds withPatterns st p) (h' : Holds withPatterns st' p) :
    st = st' := by
  obtain ⟨⟨value, pattern, present, whitespace⟩, fields, patterns⟩ := st
  obtain ⟨⟨value', pattern', present', whitespace'⟩, fields', patterns'⟩ := st'
  obtain ⟨h₁, h₂, h₃, h₄, h₅, h₆⟩ := h
  obtain ⟨h₁', h₂', h₃', h₄', h₅', h₆'⟩ := h'
  rw [Fields.mk.injEq, Candidate.mk.injEq]
  exact ⟨⟨h₃.trans h₃'.symm, h₄.trans h₄'.symm, h₅.trans h₅'.symm, h₆.trans h₆'.symm⟩, h₁.trans h₁'.symm,
    h₂.trans h₂'.symm⟩

theorem fieldText_append (a b : List Piece) : fieldText (a ++ b) = fieldText a ++ fieldText b := flatMap_append

theorem fieldPattern_append (a b : List Piece) : fieldPattern (a ++ b) = fieldPattern a ++ fieldPattern b :=
  flatMap_append

namespace Holds
variable {st : Fields} {p : Progress}

section
variable (h : Holds withPatterns st p)
include h

theorem emit_true : Holds withPatterns (st.emit withPatterns true) (p.step .stop) := by
  unfold Fields.emit
  rw [Bool.or_true, if_pos rfl]
  refine ⟨?_, ?_, rfl, (ite_self _).symm, rfl, rfl⟩
  · dsimp only [Progress.step]
    rw [h.fields, h.value, map_append, map_singleton]
  · dsimp only [Progress.step]
    rw [h.patterns, h.pattern]
    cases withPatterns with
    | false => rfl
    | true => rw [if_pos rfl, if_pos rfl, if_pos rfl, if_pos rfl, map_append, map_singleton]

theorem emit_false : Holds withPatterns (st.emit withPatterns false) { out := p.close } := by
  by_cases hnil : p.pieces = []
  · have hpresent : st.candidate.present = false := by rw [h.present, hnil]; rfl
    unfold Fields.emit Progress.close
    rw [hpresent, if_pos hnil, append_nil]
    exact ⟨h.fields, h.patterns, rfl, (ite_self _).symm, rfl, rfl⟩
  · have hpresent : st.candidate.present = true := by
      rw [h.present, isEmpty_eq_false_iff.mpr hnil]
      rfl
    have hforce : st.emit withPatterns false = st.emit withPatterns true := by
      unfold Fields.emit
      rw [hpresent]
      rfl
    have hclose : p.close = p.out ++ [p.pieces] := by rw [Progress.close, if_neg hnil]
    rw [hforce, hclose]
    exact h.emit_true

theorem emitPending : Holds withPatterns (st.emitPending withPatterns) p.ready := by
  unfold Fields.emitPending Progress.ready
  rw [h.whitespace]
  by_cases hblank : p.blank = true
  · rw [if_pos hblank, if_pos hblank]
    exact h.emit_false
  · rw [if_neg hblank, if_neg hblank]
    exact h

variable {field : List Piece} {quoted : Bool}

section
variable (hne : field ≠ []) (htext : fieldText field = text)
  (hpattern : fieldPattern field = appendPatternSpan text quoted)
include hne htext hpattern

theorem append : Holds withPatterns (st.append withPatterns text quoted) { p with pieces := p.pieces ++ field } := by
  refine ⟨h.fields, h.patterns, ?_, ?_, ?_, h.whitespace⟩
  · dsimp only [Fields.append]
    rw [h.value, fieldText_append, htext]
  · dsimp only [Fields.append]
    rw [h.pattern, fieldPattern_append, hpattern]
    cases withPatterns with
    | false => rfl
    | true => rfl
  · dsimp only [Fields.append]
    rw [isEmpty_eq_false_iff.mpr (append_ne_nil_of_right_ne_nil _ hne)]
    rfl

theorem span :
    Holds withPatterns ((st.emitPending withPatterns).append withPatterns text quoted) (p.run (field.map .piece)) := by
  have happend := h.emitPending.append hne htext hpattern
  have hready : p.ready = ⟨p.ready.out, p.ready.pieces, false⟩ := by rw [← p.ready_blank]
  rw [Progress.run_ready p hne, hready, Progress.run_pieces]
  rwa [hready] at happend

end

end

end Holds

/-! ## Reading a text -/

/-- What marks a text so that a delimiter is one mark and a span is its pieces -/
structure Reads (L : CharLocale) (ifs : CStr) (marks : CStr → List Mark) : Prop where
  nil : marks [] = []
  delimiter : ∀ {c : Char} {rest : CStr}, (characterWidth L (c :: rest) L.initial).1 = 1 → c ∈ ifs →
    marks (c :: rest) = markOf ifs [c] :: marks rest
  character : ∀ {text : CStr}, text ≠ [] →
    ¬((characterWidth L text L.initial).1 = 1 ∧ ∃ c ∈ text.head?, c ∈ ifs) →
    ∃ field : List Piece, field ≠ [] ∧ (∀ x ∈ field, x.quoted = false) ∧
      fieldText field = text.take (characterWidth L text L.initial).1 ∧
      marks text = field.map .piece ++ marks (text.drop (characterWidth L text L.initial).1)

theorem ifsDelimiterLength_zero (hifs : SingleByte L ifs) (hne : text ≠ []) (hnul : '\x00' ∉ text) :
    ifsDelimiterLength L ifs text = 0 ↔
      ¬((characterWidth L text L.initial).1 = 1 ∧ ∃ c ∈ text.head?, c ∈ ifs) := by
  obtain ⟨c, rest, rfl⟩ := exists_cons_of_ne_nil hne
  rw [ifsDelimiterLength_eq hifs (fun heq => hnul (heq ▸ mem_cons_self))]
  simp

theorem spanLength_spec {marks : CStr → List Mark} (hreads : Reads L ifs marks) (hifs : SingleByte L ifs)
    {fuel : Nat} (hfuel : text.length ≤ fuel) (hne : text ≠ []) (hnul : '\x00' ∉ text)
    (hfirst : ifsDelimiterLength L ifs text = 0) :
    ∃ field : List Piece, field ≠ [] ∧ (∀ x ∈ field, x.quoted = false) ∧
      fieldText field = text.take (spanLength L ifs fuel L.initial text) ∧
      marks text = field.map .piece ++ marks (text.drop (spanLength L ifs fuel L.initial text)) ∧
      0 < spanLength L ifs fuel L.initial text := by
  induction fuel generalizing text with
  | zero => exact absurd (length_eq_zero_iff.mp (Nat.le_zero.mp hfuel)) hne
  | succ fuel ih =>
    obtain ⟨field, hfield, hquoted, htext, hmarks⟩ :=
      hreads.character hne ((ifsDelimiterLength_zero hifs hne hnul).mp hfirst)
    have hpos := characterWidth_pos (L := L) text
    have hstate := characterWidth_state (L := L) text
    rw [spanLength]
    dsimp only
    rw [hstate]
    by_cases hmore : (characterWidth L text L.initial).1 < text.length ∧
        ifsDelimiterLength L ifs (text.drop (characterWidth L text L.initial).1) = 0
    · rw [if_pos hmore]
      have hrest : text.drop (characterWidth L text L.initial).1 ≠ [] :=
        fun hnil => absurd (drop_eq_nil_iff.mp hnil) (Nat.not_le_of_lt hmore.1)
      have hlen : (text.drop (characterWidth L text L.initial).1).length ≤ fuel := by
        rw [length_drop]
        omega
      obtain ⟨more, _, hquoted', htext', hmarks', _⟩ :=
        ih hlen hrest (fun hin => hnul (mem_of_mem_drop hin)) hmore.2
      refine ⟨field ++ more, append_ne_nil_of_left_ne_nil hfield _, ?_, ?_, ?_, by omega⟩
      · intro x hx
        cases mem_append.mp hx with
        | inl hin => exact hquoted x hin
        | inr hin => exact hquoted' x hin
      · rw [fieldText_append, htext, htext', take_add]
      · rw [hmarks, hmarks', map_append, append_assoc, drop_drop]
    · rw [if_neg hmore]
      exact ⟨field, hfield, hquoted, htext, hmarks, hpos⟩

theorem appendPatternSpan_unquoted (text : CStr) : appendPatternSpan text false = text := by
  unfold appendPatternSpan
  simp

theorem fieldPattern_unquoted {field : List Piece} (h : ∀ x ∈ field, x.quoted = false) :
    fieldPattern field = fieldText field := by
  induction field with
  | nil => rfl
  | cons x field ih =>
    have hx := appendPatternSpan_unquoted x.text
    rw [← h x mem_cons_self] at hx
    unfold fieldPattern fieldText at *
    rw [flatMap_cons, flatMap_cons, hx, ih fun y hy => h y (mem_cons_of_mem _ hy)]

theorem splitText_holds {marks : CStr → List Mark} (hreads : Reads L ifs marks) (hifs : SingleByte L ifs) {fuel : Nat}
    (hfuel : text.length ≤ fuel) (hnul : '\x00' ∉ text) {st : Fields} {p : Progress} (h : Holds withPatterns st p) :
    Holds withPatterns (splitText L ifs withPatterns fuel text st) (p.run (marks text)) := by
  induction fuel generalizing text st p with
  | zero =>
    rw [length_eq_zero_iff.mp (Nat.le_zero.mp hfuel), hreads.nil]
    exact h
  | succ fuel ih =>
    cases text with
    | nil =>
      rw [hreads.nil]
      exact h
    | cons c rest =>
      have hc : c ≠ '\x00' := fun heq => hnul (heq ▸ mem_cons_self)
      have hrest : '\x00' ∉ rest := fun hin => hnul (mem_cons_of_mem _ hin)
      rw [splitText]
      dsimp only
      by_cases hdelimiter : (characterWidth L (c :: rest) L.initial).1 = 1 ∧ c ∈ ifs
      · rw [ifsDelimiterLength_eq hifs hc, if_pos hdelimiter, if_pos Nat.one_ne_zero, drop_one, tail_cons,
          hreads.delimiter hdelimiter.1 hdelimiter.2, Progress.run_cons]
        apply ih (Nat.le_of_succ_le_succ hfuel) hrest
        unfold markOf ifsWhitespace strchr
        dsimp only
        rw [if_pos hdelimiter.2, decide_eq_true hdelimiter.2, Bool.or_true, Bool.and_true]
        by_cases hspace : c = ' ' ∨ c = '\t' ∨ c = '\n'
        · rw [if_pos hspace, if_pos (by simpa [or_assoc] using hspace)]
          exact ⟨h.fields, h.patterns, h.value, h.pattern, h.present, rfl⟩
        · rw [if_neg hspace, if_neg (by simpa [or_assoc] using hspace)]
          exact h.emit_true
      · have hzero : ifsDelimiterLength L ifs (c :: rest) = 0 := by
          rw [ifsDelimiterLength_eq hifs hc, if_neg hdelimiter]
        obtain ⟨field, hne, hquoted, htext, hmarks, hpos⟩ :=
          spanLength_spec hreads hifs (le_rfl) (cons_ne_nil c rest) hnul hzero
        rw [hzero, if_neg (not_not.mpr rfl), hmarks, Progress.run_append]
        apply ih
        · rw [length_drop]
          omega
        · exact fun hin => hnul (mem_of_mem_drop hin)
        · apply h.span hne htext
          rw [fieldPattern_unquoted hquoted, appendPatternSpan_unquoted, htext]

theorem charsFrom_fuel {fuel fuel' : Nat} {text : CStr} (h : text.length ≤ fuel) (h' : text.length ≤ fuel') :
    charsFrom L fuel text = charsFrom L fuel' text := by
  induction fuel generalizing text fuel' with
  | zero =>
    rw [length_eq_zero_iff.mp (Nat.le_zero.mp h)]
    cases fuel' with
    | zero => rfl
    | succ fuel' => rfl
  | succ fuel ih =>
    cases fuel' with
    | zero =>
      rw [length_eq_zero_iff.mp (Nat.le_zero.mp h')]
      rfl
    | succ fuel' =>
      rw [charsFrom, charsFrom]
      have hpos := characterWidth_pos (L := L) text
      have hlen := length_drop (i := (characterWidth L text L.initial).1) (l := text)
      by_cases hnil : text = []
      · rw [if_pos hnil, if_pos hnil]
      · have htext := length_pos_iff.mpr hnil
        rw [if_neg hnil, if_neg hnil]
        dsimp only
        rw [@ih fuel' (text.drop (characterWidth L text L.initial).1) (by omega) (by omega)]

theorem chars_cons (hne : text ≠ []) : chars L text = text.take (characterWidth L text L.initial).1 ::
      chars L (text.drop (characterWidth L text L.initial).1) := by
  obtain ⟨n, hn⟩ := Nat.exists_eq_succ_of_ne_zero (ne_of_gt (length_pos_iff.mpr hne))
  have hpos := characterWidth_pos (L := L) text
  have hlen := length_drop (i := (characterWidth L text L.initial).1) (l := text)
  unfold chars
  rw [hn, charsFrom, if_neg hne]
  dsimp only
  rw [@charsFrom_fuel L n (text.drop (characterWidth L text L.initial).1).length _ (by omega) (le_rfl)]

theorem reads_charMarks : Reads L ifs (charMarks L ifs) where
  nil := rfl
  delimiter := by
    intro c rest hwidth hc
    unfold charMarks
    rw [chars_cons (cons_ne_nil _ _), hwidth]
    rfl
  character := by
    intro text hne hnot
    refine ⟨[⟨text.take (characterWidth L text L.initial).1, false⟩], cons_ne_nil _ _, ?_, ?_, ?_⟩
    · intro x hx
      rw [mem_singleton.mp hx]
    · exact append_nil _
    · unfold charMarks
      rw [chars_cons hne, map_cons]
      refine congrArg (· :: _) ?_
      unfold markOf
      split
      · rename_i c hsingle
        have hlen := congrArg List.length hsingle
        rw [length_take_of_le (characterWidth_le hne)] at hlen
        have hhead : text.head? = some c := by
          have hfirst := congrArg head? hsingle
          rwa [head?_take, if_neg (ne_of_gt (characterWidth_pos text))] at hfirst
        rw [if_neg (fun hc => hnot ⟨hlen, c, hhead, hc⟩), hsingle]
      · rfl

theorem reads_byteMarks (hapart : Apart L ifs) : Reads L ifs (byteMarks ifs) where
  nil := rfl
  delimiter := fun _ _ => rfl
  character := by
    intro text hne hnot
    have hpos := characterWidth_pos (L := L) text
    have hfree : ∀ c ∈ text.take (characterWidth L text L.initial).1, c ∉ ifs := by
      by_cases hone : (characterWidth L text L.initial).1 = 1
      · intro c hc hin
        rw [hone, take_one, Option.mem_toList] at hc
        exact hnot ⟨hone, c, hc, hin⟩
      · exact hapart text hne hone
    refine ⟨(text.take (characterWidth L text L.initial).1).map fun c => ⟨[c], false⟩, ?_, ?_, ?_, ?_⟩
    · intro hnil
      have hlen := congrArg List.length (map_eq_nil_iff.mp hnil)
      rw [length_take_of_le (characterWidth_le hne), length_nil] at hlen
      omega
    · intro x hx
      obtain ⟨c, _, rfl⟩ := mem_map.mp hx
      rfl
    · unfold fieldText
      rw [flatMap_map]
      exact flatMap_singleton' _
    · have htake : (text.take (characterWidth L text L.initial).1).map (fun c => markOf ifs [c]) =
          (text.take (characterWidth L text L.initial).1).map (Mark.piece ∘ fun c => ⟨[c], false⟩) :=
        map_congr_left fun c hc => if_neg (hfree c hc)
      unfold byteMarks
      rw [map_map, ← htake, ← map_append, take_append_drop]

/-! ## Components -/

/-- The marks of a component, where `marks` are those of a text that is split -/
def Component.marks (marks : CStr → List Mark) (component : Component) : List Mark :=
  if component.split then marks component.text
  else if component.text = [] ∧ !component.quoted then [] else [.piece ⟨component.text, component.quoted⟩]

/-- The marks between the boundaries of positional parameters, behind those of the first segment -/
def segmentsFrom (L : CharLocale) (ifs : CStr) (marks : List Mark) : List Component → List (List Mark)
  | [] => [marks]
  | component :: rest =>
    let more := component.marks (charMarks L ifs)
    if component.newField then marks :: segmentsFrom L ifs more rest else segmentsFrom L ifs (marks ++ more) rest

def segments (L : CharLocale) (ifs : CStr) (components : List Component) : List (List Mark) :=
  segmentsFrom L ifs [] components

theorem splitComponent_holds {marks : CStr → List Mark} (hreads : Reads L ifs marks) (hifs : SingleByte L ifs)
    (component : Component) {st : Fields} {p : Progress} (h : Holds withPatterns st p) :
    Holds withPatterns (splitComponent L ifs withPatterns st component)
      ((if component.newField then ({ out := p.close } : Progress) else p).run (component.marks marks)) := by
  have hstart : Holds withPatterns (if component.newField then st.emit withPatterns false else st)
      (if component.newField then { out := p.close } else p) := by
    cases component.newField with
    | false => exact h
    | true => exact h.emit_false
  unfold splitComponent Component.marks
  dsimp only
  by_cases hsplit : component.split = true
  · rw [hsplit, if_pos rfl]
    exact splitText_holds hreads hifs (le_rfl) component.noNul hstart
  · rw [Bool.not_eq_true] at hsplit
    rw [hsplit, if_pos (by decide : (!false) = true), if_neg (by decide : ¬false = true)]
    by_cases hnone : component.text = [] ∧ (!component.quoted) = true
    · rw [if_pos hnone, if_pos hnone]
      exact hstart
    · rw [if_neg hnone, if_neg hnone]
      exact hstart.span (cons_ne_nil ⟨component.text, component.quoted⟩ []) (append_nil _) (append_nil _)

theorem foldl_holds (hifs : SingleByte L ifs) (components : List Component) {st : Fields} {p : Progress}
    (h : Holds withPatterns st p) :
    ∃ p', Holds withPatterns (components.foldl (splitComponent L ifs withPatterns) st) p' := by
  induction components generalizing st p with
  | nil => exact ⟨p, h⟩
  | cons component components ih => exact ih (splitComponent_holds reads_charMarks hifs component h)

theorem foldl_spec (hifs : SingleByte L ifs) (components : List Component) (out : List (List Piece))
    (marks : List Mark) :
    ∃ fieldLists p, List.Forall₂ Splits (segmentsFrom L ifs marks components) fieldLists ∧
      p.close = out ++ fieldLists.flatten ∧
      ∀ {withPatterns : Bool} {st : Fields}, Holds withPatterns st (({ out } : Progress).run marks) →
        Holds withPatterns (components.foldl (splitComponent L ifs withPatterns) st) p := by
  induction components generalizing out marks with
  | nil =>
    obtain ⟨fields, hfields⟩ := splits_exists marks
    refine ⟨[fields], _, .cons hfields .nil, ?_, fun h => h⟩
    rw [Progress.close_run_splits hfields, flatten_singleton]
  | cons component components ih =>
    rw [segmentsFrom]
    by_cases hnew : component.newField = true
    · obtain ⟨fields, hfields⟩ := splits_exists marks
      obtain ⟨fieldLists, p, hsplits, hclose, hholds⟩ := ih (out ++ fields) (component.marks (charMarks L ifs))
      rw [if_pos hnew]
      refine ⟨fields :: fieldLists, p, .cons hfields hsplits, ?_, ?_⟩
      · rw [hclose, flatten_cons, append_assoc]
      · intro withPatterns st h
        have hnext := splitComponent_holds reads_charMarks hifs component h
        rw [if_pos hnew, Progress.close_run_splits hfields] at hnext
        exact hholds hnext
    · obtain ⟨fieldLists, p, hsplits, hclose, hholds⟩ := ih out (marks ++ component.marks (charMarks L ifs))
      rw [if_neg hnew]
      refine ⟨fieldLists, p, hsplits, hclose, ?_⟩
      intro withPatterns st h
      have hnext := splitComponent_holds reads_charMarks hifs component h
      rw [if_neg hnew, ← Progress.run_append] at hnext
      exact hholds hnext

theorem forall₂_splits_unique {segments : List (List Mark)} {a b : List (List (List Piece))}
    (ha : List.Forall₂ Splits segments a) (hb : List.Forall₂ Splits segments b) : a = b := by
  induction ha generalizing b with
  | nil =>
    cases hb
    rfl
  | cons h _ ih =>
    cases hb with
    | cons h' hrest => rw [h.unique h', ih hrest]

theorem holds_init : Holds withPatterns {} {} := ⟨rfl, (ite_self _).symm, rfl, (ite_self _).symm, rfl, rfl⟩

/-- A component that is split, and two of them with its text. Where the cut is within a character,
no byte of a character is one of `IFS`. -/
structure Cut (L : CharLocale) (ifs : CStr) (whole first second : Component) : Prop where
  split : whole.split = true ∧ first.split = true ∧ second.split = true
  text : whole.text = first.text ++ second.text
  newField : first.newField = whole.newField ∧ second.newField = false
  between : chars L whole.text = chars L first.text ++ chars L second.text ∨ Apart L ifs

variable {whole first second : Component}

theorem Cut.marks (h : Cut L ifs whole first second) :
    ∃ marks, Reads L ifs marks ∧ marks whole.text = marks first.text ++ marks second.text := by
  cases h.between with
  | inl hchars =>
    refine ⟨charMarks L ifs, reads_charMarks, ?_⟩
    unfold charMarks
    rw [hchars, map_append]
  | inr hapart =>
    refine ⟨byteMarks ifs, reads_byteMarks hapart, ?_⟩
    unfold byteMarks
    rw [h.text, map_append]

theorem splitComponent_cut (h : Cut L ifs whole first second)
    (hifs : SingleByte L ifs) {st : Fields} {p : Progress} (hst : Holds withPatterns st p) :
    splitComponent L ifs withPatterns st whole =
      splitComponent L ifs withPatterns (splitComponent L ifs withPatterns st first) second := by
  obtain ⟨marks, hreads, hmarks⟩ := h.marks
  have hwhole := splitComponent_holds hreads hifs whole hst
  have htwo := splitComponent_holds hreads hifs second (splitComponent_holds hreads hifs first hst)
  obtain ⟨hsplit, hsplit₁, hsplit₂⟩ := h.split
  obtain ⟨hnew₁, hnew₂⟩ := h.newField
  unfold Component.marks at hwhole htwo
  rw [hsplit, if_pos rfl, hmarks, Progress.run_append] at hwhole
  rw [hnew₂, if_neg (by decide), hsplit₁, hsplit₂, if_pos rfl, if_pos rfl, hnew₁] at htwo
  exact hwhole.unique htwo

structure FollowsRule (L : CharLocale) (ifs : Option CStr) (components : List Component) : Prop where
  rule : ∃ fieldLists, List.Forall₂ Splits (segments L (ifsValue ifs) components) fieldLists ∧
    (∀ other, List.Forall₂ Splits (segments L (ifsValue ifs) components) other → other = fieldLists) ∧
    ∀ withPatterns, (splitComponents L withPatterns ifs components).fields = fieldLists.flatten.map fieldText ∧
      (splitComponents L withPatterns ifs components).patterns =
        if withPatterns then fieldLists.flatten.map fieldPattern else []
  cut : ∀ before after whole first second withPatterns, components = before ++ whole :: after →
    Cut L (ifsValue ifs) whole first second →
    splitComponents L withPatterns ifs components =
      splitComponents L withPatterns ifs (before ++ first :: second :: after)

/-- **Main result.** The fields are those that the rule has for the marked text, with a pattern
for each where patterns are made, and a cut through split text changes nothing. -/
theorem followsRule (L : CharLocale) {ifs : Option CStr} (hifs : SingleByte L (ifsValue ifs))
    (components : List Component) : FollowsRule L ifs components := by
  refine ⟨?_, ?_⟩
  · obtain ⟨fieldLists, p, hsplits, hclose, hholds⟩ := foldl_spec hifs components [] []
    refine ⟨fieldLists, hsplits, fun other h => forall₂_splits_unique h hsplits, ?_⟩
    intro withPatterns
    have hend := (@hholds withPatterns _ holds_init).emit_false
    rw [hclose, nil_append] at hend
    exact ⟨hend.fields, hend.patterns⟩
  · intro before after whole first second withPatterns hcomponents hcut
    obtain ⟨p, hp⟩ := foldl_holds hifs before (@holds_init withPatterns)
    unfold splitComponents
    rw [hcomponents, foldl_append, foldl_append, foldl_cons, foldl_cons, foldl_cons]
    rw [splitComponent_cut hcut hifs hp]

/-- One byte for a character -/
def byteLocale : CharLocale where
  singleByte := true
  State := Unit
  initial := ()
  decode _ _ := (1, ())
  decode_le _ h := length_pos_iff.mpr h
  decode_initial _ := rfl

def colonComponent : Component := ⟨['a', ':'], true, false, false, by decide⟩

theorem followsRule_colon : FollowsRule byteLocale (some [':']) [colonComponent] :=
  followsRule byteLocale (fun _ _ => rfl) [colonComponent]

end Bx.Ash.Expansion
