import Bx.Ash.FieldSplit
import Bx.Ash.PatternReading
import Mathlib.Data.List.Induction

/-!
# Patterns in expansions

`ash_parameter_remove_match` of `src/applets/shell/ash/expansion.c` takes a prefix or a suffix off a value, and
`ash_expand_case_pattern` compares a value with a pattern. What stands under quotes comes with backslashes in it and
matches only itself. A character is one byte.
-/

namespace Bx.Ash.Expansion

open Bx.Kit List

/-! ## Removal -/

def removeOptions : PatternOptions := { purpose := .parameterRemove, domain := .string }

def caseOptions : PatternOptions := { purpose := .case, domain := .string }

/-- What is compared at a position -/
def candidateAt (fromStart : Bool) (text : CStr) (position : Nat) : CStr :=
  if fromStart then text.take position else text.drop position

/-- Over `fuel` positions from one on. Nothing where the C library fails. -/
def removeLoop (L : PatternLocale) (p : Pattern) (fromStart longest : Bool) (text : CStr) : Nat → Nat → Nat → Option Nat
  | 0, _, selected => some selected
  | fuel + 1, position, selected =>
    match matchPattern L p (candidateAt fromStart text position) with
    | some .match =>
      if fromStart ≠ longest then some position else removeLoop L p fromStart longest text fuel (position + 1) position
    | some .noMatch => removeLoop L p fromStart longest text fuel (position + 1) selected
    | _ => none

variable (L : PatternLocale)

/-- What is left of the value -/
def parameterRemoveMatch (fromStart longest : Bool) (pattern text : CStr) : Option CStr :=
  match compile removeOptions pattern with
  | some (.ok p) =>
    (removeLoop L p fromStart longest text (text.length + 1) 0 (if fromStart then 0 else text.length)).map fun selected =>
      if fromStart then text.drop selected else text.take selected
  | _ => none

def expandCasePattern (pattern value : CStr) : Option Bool :=
  match compile caseOptions pattern with
  | some (.ok p) =>
    match matchPattern L p value with
    | some .match => some true
    | some .noMatch => some false
    | _ => none
  | _ => none

/-! ## Compiling -/

/-- Without extended patterns, and not for path names -/
structure Plain (o : PatternOptions) : Prop where
  valid : o.valid = true
  extglob : o.extglob = false
  domain : o.domain = .string
  sameCase : o.caseInsensitive = false
  ranges : o.asciiRanges = false

theorem plain_remove : Plain removeOptions := ⟨rfl, rfl, rfl, rfl, rfl⟩

theorem plain_case : Plain caseOptions := ⟨rfl, rfl, rfl, rfl, rfl⟩

structure SameFeatures (a b : RequiredFeatures) : Prop where
  extglob : a.extglob = b.extglob
  globstar : a.globstar = b.globstar

section
variable {o : PatternOptions}

theorem add_compileTerm (h : Plain o) (required : RequiredFeatures) (c : Char) (rest : CStr) :
    SameFeatures (required.add o (compileTerm o c rest).1) required := by
  unfold compileTerm
  by_cases hescape : c = '\\'
  · rw [if_pos hescape]
    cases rest with
    | nil => exact ⟨rfl, rfl⟩
    | cons escaped rest => exact ⟨rfl, rfl⟩
  · rw [if_neg hescape]
    by_cases hstar : c = '*'
    · rw [if_pos hstar, h.domain]
      dsimp only
      rw [if_neg (by simp)]
      exact ⟨rfl, rfl⟩
    · rw [if_neg hstar]
      by_cases hany : c = '?'
      · rw [if_pos hany]
        exact ⟨rfl, rfl⟩
      · rw [if_neg hany]
        cases (if c = '[' then bracketEnd (c :: rest) else none) with
        | some length => exact ⟨rfl, rfl⟩
        | none =>
          dsimp only
          rw [h.domain, if_neg (by simp)]
          exact ⟨rfl, rfl⟩

theorem compileSequence_plain (h : Plain o) {fuel nesting : Nat} {compiler : Compiler} {terms : List Term}
    {result : Except CompileFailure (Compiler × List Term)}
    (hresult : compileSequence o fuel false nesting compiler terms = some result) :
    ∃ after root, result = .ok (after, root) ∧ SameFeatures after.required compiler.required := by
  induction fuel generalizing compiler terms with
  | zero => cases hresult
  | succ fuel ih =>
    unfold compileSequence at hresult
    cases hrest : compiler.rest with
    | nil =>
      rw [hrest] at hresult
      cases hresult
      exact ⟨_, _, rfl, rfl, rfl⟩
    | cons c rest =>
      have hextglob : extglobAt o c rest = none := by
        unfold extglobAt
        rw [h.extglob]
        split <;> rfl
      rw [hrest] at hresult
      dsimp only at hresult
      rw [Bool.false_and, if_neg (by decide), hextglob] at hresult
      obtain ⟨after, root, hok, hsame⟩ := ih hresult
      have hadd := add_compileTerm h compiler.required c rest
      exact ⟨after, root, hok, hsame.extglob.trans hadd.extglob, hsame.globstar.trans hadd.globstar⟩

theorem compile_plain (h : Plain o) {source : CStr} (hnul : '\x00' ∉ source) :
    ∃ p, compile o source = some (.ok p) ∧ p.required.extglob = false ∧ p.required.globstar = false := by
  obtain ⟨r, hr⟩ := compile_finishes o source
  unfold compile at hr ⊢
  have hvalid : (!o.valid || source.contains '\x00') = false := by
    rw [h.valid]
    simpa using hnul
  rw [hvalid, if_neg (by decide)] at hr ⊢
  cases hsequence : compileSequence o (source.length + 1) false 0 ⟨source, {}⟩ [] with
  | none => simp [hsequence] at hr
  | some result =>
    obtain ⟨after, root, rfl, hsame⟩ := compileSequence_plain h hsequence
    exact ⟨_, rfl, hsame.extglob, hsame.globstar⟩

theorem matchPattern_plain (h : Plain o) {source : CStr} {p : Pattern}
    (hp : compile o source = some (.ok p)) (hextglob : p.required.extglob = false)
    (hglobstar : p.required.globstar = false) (text : CStr) :
    matchPattern L p text = some .match ∨ matchPattern L p text = some .noMatch ∨ matchPattern L p text = some .error := by
  obtain ⟨es, _, result, hresult, _, hunsupported⟩ := matchPattern_answers L hp hextglob hglobstar text
  rw [hresult]
  cases result with
  | «match» => exact .inl rfl
  | noMatch => exact .inr (.inl rfl)
  | error => exact .inr (.inr rfl)
  | unsupported =>
    have hranges := (hunsupported.mp rfl).1
    simp [h.ranges] at hranges

/-! ## Text under quotes -/

def literals (s : CStr) : List Term := s.map fun c => .literal [c]

variable {es : List Term} {rest : CStr} {c : Char} {s : CStr}

theorem readAs_special (h : ReadAs o ('\\' :: c :: rest) es) : ∃ es', ReadAs o rest es' ∧ es = .literal [c] :: es' := by
  generalize hsource : '\\' :: c :: rest = source at h
  cases h with
  | escaped h =>
    cases hsource
    exact ⟨_, h, rfl⟩
  | @stars n rest' =>
    rw [replicate_succ, cons_append] at hsource
    exact absurd (cons_eq_cons.mp hsource).1 (by decide)
  | literal hescape =>
    cases hsource
    exact absurd rfl hescape
  | _ => cases hsource

theorem readAs_ordinary (hdomain : o.domain = .string)
    (hc : c ∉ patternSpecial) (h : ReadAs o (c :: rest) es) : ∃ es', ReadAs o rest es' ∧ es = .literal [c] :: es' := by
  have hne : ∀ d ∈ patternSpecial, c ≠ d := fun d hd heq => hc (heq ▸ hd)
  generalize hsource : c :: rest = source at h
  cases h with
  | literal _ _ _ _ _ h =>
    cases hsource
    exact ⟨_, h, rfl⟩
  | nil => cases hsource
  | escaped =>
    cases hsource
    exact absurd rfl (hne '\\' (by decide))
  | backslash =>
    cases hsource
    exact absurd rfl (hne '\\' (by decide))
  | @stars n rest' =>
    rw [replicate_succ, cons_append] at hsource
    exact absurd (cons_eq_cons.mp hsource).1 (hne '*' (by decide))
  | question =>
    cases hsource
    exact absurd rfl (hne '?' (by decide))
  | bracket =>
    cases hsource
    exact absurd rfl (hne '[' (by decide))
  | separator hpath => simp [hdomain] at hpath

theorem appendPatternSpan_cons (c : Char) (s : CStr) : appendPatternSpan (c :: s) true =
      (if c ∈ patternSpecial then ['\\', c] else [c]) ++ appendPatternSpan s true := by
  unfold appendPatternSpan
  rw [flatMap_cons, Bool.true_and, contains_eq_mem]
  by_cases hc : c ∈ patternSpecial
  · rw [if_pos hc, if_pos (decide_eq_true hc)]
  · rw [if_neg hc, if_neg (by rw [decide_eq_false hc]; decide)]

theorem readAs_quoted (hdomain : o.domain = .string)
    (h : ReadAs o (appendPatternSpan s true) es) : es = literals s := by
  induction s generalizing es with
  | nil =>
    generalize hsource : appendPatternSpan [] true = source at h
    cases h with
    | nil => rfl
    | stars => exact absurd hsource.symm (by rw [replicate_succ]; exact (nomatch ·))
    | _ => cases hsource
  | cons c s ih =>
    rw [appendPatternSpan_cons] at h
    by_cases hc : c ∈ patternSpecial
    · rw [if_pos hc] at h
      obtain ⟨es', hes', rfl⟩ := readAs_special h
      rw [ih hes']
      rfl
    · rw [if_neg hc] at h
      obtain ⟨es', hes', rfl⟩ := readAs_ordinary hdomain hc h
      rw [ih hes']
      rfl

theorem noNul_quoted (h : '\x00' ∉ s) : '\x00' ∉ appendPatternSpan s true := by
  intro hin
  obtain ⟨c, hc, hmem⟩ := mem_flatMap.mp hin
  by_cases hspecial : (true && patternSpecial.contains c) = true
  · rw [if_pos hspecial, mem_cons, mem_singleton] at hmem
    cases hmem with
    | inl heq => exact absurd heq (by decide)
    | inr heq => exact h (heq ▸ hc)
  · rw [if_neg hspecial, mem_singleton] at hmem
    exact h (hmem ▸ hc)

theorem trailingBackslashes_append (source : CStr) (c : Char) :
    trailingBackslashes (source ++ [c]) = if c = '\\' then trailingBackslashes source + 1 else 0 := by
  unfold trailingBackslashes
  rw [reverse_append, reverse_singleton, singleton_append]
  by_cases hc : c = '\\'
  · rw [if_pos hc, takeWhile_cons_of_pos (by simpa using hc), length_cons]
  · rw [if_neg hc, takeWhile_cons_of_neg (by simpa using hc), length_nil]

theorem not_endsEscaped_quoted (s : CStr) : ¬EndsEscaped (appendPatternSpan s true) := by
  unfold EndsEscaped
  rw [Decidable.not_not]
  induction s using reverseRecOn with
  | nil => rfl
  | append_singleton s c ih =>
    have hlast : appendPatternSpan (s ++ [c]) true = (if c = '\\' then appendPatternSpan s true ++ ['\\']
          else if c ∈ patternSpecial then appendPatternSpan s true ++ ['\\'] else appendPatternSpan s true) ++ [c] := by
      unfold appendPatternSpan
      rw [flatMap_append, flatMap_singleton, Bool.true_and, contains_eq_mem]
      by_cases hc : c ∈ patternSpecial
      · rw [if_pos (decide_eq_true hc), if_pos hc, ite_self, append_assoc]
        rfl
      · rw [if_neg (by rw [decide_eq_false hc]; decide), if_neg hc,
          if_neg (fun heq => hc (by rw [heq]; decide))]
    rw [hlast, trailingBackslashes_append]
    by_cases hc : c = '\\'
    · rw [if_pos hc, if_pos hc, trailingBackslashes_append, if_pos rfl]
      omega
    · rw [if_neg hc]

theorem splits_literals {L : PatternLocale} (h : Plain o) {s text : CStr} {starAt : Nat → Prop} :
    Ash.Splits L o text starAt (literals s) 0 text.length ↔ text = s := by
  show Ash.Splits L o text starAt (Term.literal s).spread 0 text.length ↔ text = s
  rw [splits_spread_term]
  unfold Takes SameCharacter
  rw [h.sameCase]
  refine ⟨?_, ?_⟩
  · intro ⟨hlength, hsame⟩
    rw [zero_add] at hlength
    apply ext_getElem? 
    intro t
    cases hc : s[t]? with
    | none =>
      rw [List.getElem?_eq_none_iff] at hc ⊢
      omega
    | some c =>
      obtain ⟨d, hd, heq⟩ := hsame t c hc
      rw [zero_add] at hd
      rw [hd]
      exact congrArg some heq.symm
  · intro heq
    rw [heq]
    refine ⟨(zero_add _).symm, ?_⟩
    intro t c hc
    exact ⟨c, by rw [zero_add, hc], rfl⟩

theorem quoted_matches (h : Plain o) (hnul : '\x00' ∉ s) : ∃ p, compile o (appendPatternSpan s true) = some (.ok p) ∧
      ∀ text, matchPattern L p text = some (if text = s then .match else .noMatch) := by
  obtain ⟨p, hp, hextglob, hglobstar⟩ := compile_plain h (noNul_quoted hnul)
  refine ⟨p, hp, ?_⟩
  intro text
  obtain ⟨es, hread, result, hresult, hanswers, hunsupported⟩ := matchPattern_answers L hp hextglob hglobstar text
  cases readAs_quoted h.domain hread
  rw [hresult]
  cases result with
  | «match» => rw [if_pos ((splits_literals h).mp hanswers.2)]
  | noMatch =>
    cases hanswers with
    | inl hends => exact absurd hends (not_endsEscaped_quoted s)
    | inr hsplits => rw [if_neg (fun heq => hsplits ((splits_literals h).mpr heq))]
  | unsupported =>
    have hranges := (hunsupported.mp rfl).1
    simp [h.ranges] at hranges
  | error =>
    obtain ⟨element, hmem, span, c, heq, -⟩ := hanswers
    obtain ⟨d, -, hd⟩ := mem_map.mp hmem
    simp [heq] at hd

end

/-! ## What is taken off -/

/-- A part of the value at its start or at its end, and what is kept then -/
def Joined (fromStart : Bool) (part kept text : CStr) : Prop :=
  text = if fromStart then part ++ kept else kept ++ part

/-- The shortest or the longest part that matches is taken off. -/
def Removed (Matches : CStr → Prop) (fromStart longest : Bool) (text kept : CStr) : Prop :=
  (∃ part, Joined fromStart part kept text ∧ Matches part ∧
    ∀ other left, Joined fromStart other left text → Matches other →
      if longest then other.length ≤ part.length else part.length ≤ other.length) ∨
  kept = text ∧ ∀ part left, Joined fromStart part left text → ¬Matches part

def keptAt (fromStart : Bool) (text : CStr) (position : Nat) : CStr :=
  if fromStart then text.drop position else text.take position

section
variable {fromStart longest : Bool} {part kept text : CStr}

theorem joined_at (fromStart : Bool) (text : CStr) (position : Nat) :
    Joined fromStart (candidateAt fromStart text position) (keptAt fromStart text position) text := by
  unfold Joined candidateAt keptAt
  cases fromStart with
  | true => exact (take_append_drop position text).symm
  | false => exact (take_append_drop position text).symm

theorem Joined.position (h : Joined fromStart part kept text) :
    ∃ position ≤ text.length, part = candidateAt fromStart text position := by
  unfold Joined at h
  unfold candidateAt
  cases fromStart with
  | true =>
    rw [if_pos rfl] at h
    refine ⟨part.length, ?_, ?_⟩
    · rw [h, length_append]
      exact Nat.le_add_right _ _
    · rw [if_pos rfl, h, take_left]
  | false =>
    rw [if_neg (by decide)] at h
    refine ⟨kept.length, ?_, ?_⟩
    · rw [h, length_append]
      exact Nat.le_add_right _ _
    · rw [if_neg (by decide), h, drop_left]

/-- Positions from `position` on, the first of which or the last of which is picked -/
def Picked (Matches : Nat → Prop) (first : Bool) (position stop selected picked : Nat) : Prop :=
  (position ≤ picked ∧ picked < stop ∧ Matches picked ∧
    ∀ k, position ≤ k → k < stop → Matches k → if first then picked ≤ k else k ≤ picked) ∨
  picked = selected ∧ ∀ k, position ≤ k → k < stop → ¬Matches k

theorem Picked.skip {Matches : Nat → Prop} {first : Bool} {position stop selected picked : Nat}
    (hno : ¬Matches position) (h : Picked Matches first (position + 1) stop selected picked) :
    Picked Matches first position stop selected picked := by
  have hlater : ∀ k, position ≤ k → Matches k → position + 1 ≤ k := by
    intro k hk hmatch
    by_cases heq : position = k
    · exact absurd (heq ▸ hmatch) hno
    · omega
  cases h with
  | inl h =>
    obtain ⟨hfrom, hto, hmatch, hbest⟩ := h
    exact .inl ⟨by omega, hto, hmatch, fun k hk hstop hk' => hbest k (hlater k hk hk') hstop hk'⟩
  | inr h => exact .inr ⟨h.1, fun k hk hstop hk' => h.2 k (hlater k hk hk') hstop hk'⟩

theorem Picked.keep {Matches : Nat → Prop} {position stop picked : Nat} (hstop : position < stop)
    (hyes : Matches position) (h : Picked Matches false (position + 1) stop position picked) (selected : Nat) :
    Picked Matches false position stop selected picked := by
  cases h with
  | inl h =>
    obtain ⟨hfrom, hto, hmatch, hbest⟩ := h
    refine .inl ⟨by omega, hto, hmatch, ?_⟩
    intro k hk hkstop hk'
    by_cases heq : position = k
    · rw [if_neg (by decide)]
      omega
    · exact hbest k (by omega) hkstop hk'
  | inr h =>
    obtain ⟨rfl, hnone⟩ := h
    refine .inl ⟨le_rfl, hstop, hyes, ?_⟩
    intro k hk hkstop hk'
    rw [if_neg (by decide)]
    by_cases hle : k ≤ picked
    · exact hle
    · exact absurd hk' (hnone k (by omega) hkstop)

theorem removeLoop_picks (p : Pattern) (fromStart longest : Bool) (text : CStr) (fuel position selected : Nat) :
    (∃ picked, removeLoop L p fromStart longest text fuel position selected = some picked ∧
      Picked (fun k => matchPattern L p (candidateAt fromStart text k) = some .match) (decide (fromStart ≠ longest))
        position (position + fuel) selected picked) ∨
    removeLoop L p fromStart longest text fuel position selected = none ∧
      ∃ k, matchPattern L p (candidateAt fromStart text k) ≠ some .match ∧
        matchPattern L p (candidateAt fromStart text k) ≠ some .noMatch := by
  induction fuel generalizing position selected with
  | zero => exact .inl ⟨selected, rfl, .inr ⟨rfl, fun k hk hstop => absurd hstop (by omega)⟩⟩
  | succ fuel ih =>
    unfold removeLoop
    rw [← Nat.succ_add_eq_add_succ position fuel]
    cases hmatch : matchPattern L p (candidateAt fromStart text position) with
    | none => exact .inr ⟨rfl, position, by rw [hmatch]; exact (nomatch ·), by rw [hmatch]; exact (nomatch ·)⟩
    | some result =>
      cases result with
      | «match» =>
        dsimp only
        by_cases hfirst : fromStart ≠ longest
        · rw [if_pos hfirst, decide_eq_true hfirst]
          exact .inl ⟨position, rfl, .inl ⟨le_rfl, by omega, hmatch, fun k hk _ _ => hk⟩⟩
        · rw [if_neg hfirst, decide_eq_false hfirst]
          cases ih (position + 1) position with
          | inl h =>
            obtain ⟨picked, hpicked, h⟩ := h
            rw [decide_eq_false hfirst] at h
            exact .inl ⟨picked, hpicked, Picked.keep (by omega) hmatch h selected⟩
          | inr h => exact .inr h
      | noMatch =>
        cases ih (position + 1) selected with
        | inl h =>
          obtain ⟨picked, hpicked, h⟩ := h
          exact .inl ⟨picked, hpicked, Picked.skip (by rw [hmatch]; exact (nomatch ·)) h⟩
        | inr h => exact .inr h
      | unsupported => exact .inr ⟨rfl, position, by rw [hmatch]; exact (nomatch ·), by rw [hmatch]; exact (nomatch ·)⟩
      | error => exact .inr ⟨rfl, position, by rw [hmatch]; exact (nomatch ·), by rw [hmatch]; exact (nomatch ·)⟩

theorem length_candidateAt (fromStart : Bool) {position : Nat} (h : position ≤ text.length) :
    (candidateAt fromStart text position).length = if fromStart then position else text.length - position := by
  unfold candidateAt
  cases fromStart with
  | true => exact length_take_of_le h
  | false => exact length_drop

theorem removed_of_picked {Matches : CStr → Prop} {picked : Nat}
    (h : Picked (fun k => Matches (candidateAt fromStart text k)) (decide (fromStart ≠ longest)) 0
      (text.length + 1) (if fromStart then 0 else text.length) picked) :
    Removed Matches fromStart longest text (keptAt fromStart text picked) := by
  cases h with
  | inl h =>
    obtain ⟨-, hstop, hmatch, hbest⟩ := h
    refine .inl ⟨_, joined_at fromStart text picked, hmatch, ?_⟩
    intro other left hjoined hother
    obtain ⟨k, hk, rfl⟩ := hjoined.position
    have hk' := hbest k (Nat.zero_le _) (Nat.lt_succ_of_le hk) hother
    rw [length_candidateAt fromStart hk, length_candidateAt fromStart (Nat.le_of_lt_succ hstop)]
    cases fromStart with
    | true =>
      cases longest with
      | true => exact hk'
      | false => exact hk'
    | false =>
      cases longest with
      | true => exact Nat.sub_le_sub_left hk' _
      | false => exact Nat.sub_le_sub_left hk' _
  | inr h =>
    obtain ⟨rfl, hnone⟩ := h
    refine .inr ⟨?_, ?_⟩
    · unfold keptAt
      cases fromStart with
      | true => rfl
      | false => exact take_length
    · intro part left hjoined
      obtain ⟨k, hk, rfl⟩ := hjoined.position
      exact hnone k (Nat.zero_le _) (Nat.lt_succ_of_le hk)

theorem parameterRemoveMatch_spec {pattern : CStr} {p : Pattern}
    (hp : compile removeOptions pattern = some (.ok p)) (fromStart longest : Bool) (text : CStr) :
    (∃ kept, parameterRemoveMatch L fromStart longest pattern text = some kept ∧
      Removed (fun part => matchPattern L p part = some .match) fromStart longest text kept) ∨
    parameterRemoveMatch L fromStart longest pattern text = none ∧
      ∃ part left, Joined fromStart part left text ∧ matchPattern L p part ≠ some .match ∧
        matchPattern L p part ≠ some .noMatch := by
  unfold parameterRemoveMatch
  rw [hp]
  dsimp only
  cases removeLoop_picks L p fromStart longest text (text.length + 1) 0 (if fromStart then 0 else text.length) with
  | inl h =>
    obtain ⟨picked, hpicked, h⟩ := h
    rw [zero_add] at h
    exact .inl ⟨keptAt fromStart text picked, by rw [hpicked]; rfl, removed_of_picked h⟩
  | inr h =>
    obtain ⟨hnone, k, hmatch, hno⟩ := h
    exact .inr ⟨by rw [hnone]; rfl, _, _, joined_at fromStart text k, hmatch, hno⟩

theorem removed_only {s : CStr} (h : Removed (· = s) fromStart longest text kept) :
    kept = if fromStart then if s <+: text then text.drop s.length else text
      else if s <:+ text then text.take (text.length - s.length) else text := by
  cases h with
  | inl h =>
    obtain ⟨part, hjoined, rfl, -⟩ := h
    unfold Joined at hjoined
    cases fromStart with
    | true =>
      rw [if_pos rfl] at hjoined ⊢
      rw [hjoined, if_pos (prefix_append _ _), drop_left]
    | false =>
      rw [if_neg (by decide)] at hjoined ⊢
      rw [hjoined, if_pos (suffix_append _ _), length_append, Nat.add_sub_cancel, take_left]
  | inr h =>
    obtain ⟨rfl, hnone⟩ := h
    cases fromStart with
    | true =>
      rw [if_pos rfl, if_neg]
      intro ⟨left, heq⟩
      exact hnone s left heq.symm rfl
    | false =>
      rw [if_neg (by decide), if_neg]
      intro ⟨left, heq⟩
      exact hnone s left heq.symm rfl

end

/-- **Main result.** Text under quotes matches only itself, as a pattern of a `case` and as one to remove. Any pattern
removes the shortest or the longest part that it matches. -/
theorem quoting_neutralises (L : PatternLocale) {s : CStr} (hnul : '\x00' ∉ s) :
    (∀ o, o = caseOptions ∨ o = removeOptions → ∃ p, compile o (appendPatternSpan s true) = some (.ok p) ∧
      ∀ text, (matchPattern L p text = some .match ↔ text = s) ∧ (matchPattern L p text = some .noMatch ↔ text ≠ s)) ∧
    (∀ value, expandCasePattern L (appendPatternSpan s true) value = some (decide (value = s))) ∧
    (∀ longest value, parameterRemoveMatch L true longest (appendPatternSpan s true) value =
      some (if s <+: value then value.drop s.length else value)) ∧
    (∀ longest value, parameterRemoveMatch L false longest (appendPatternSpan s true) value =
      some (if s <:+ value then value.take (value.length - s.length) else value)) ∧
    ∀ pattern, '\x00' ∉ pattern → ∃ p, compile removeOptions pattern = some (.ok p) ∧ ∀ fromStart longest value,
      (∃ kept, parameterRemoveMatch L fromStart longest pattern value = some kept ∧
        Removed (fun part => matchPattern L p part = some .match) fromStart longest value kept) ∨
      parameterRemoveMatch L fromStart longest pattern value = none ∧
        ∃ part left, Joined fromStart part left value ∧ matchPattern L p part = some .error := by
  have hremove (fromStart longest : Bool) (value : CStr) :
      ∃ kept, parameterRemoveMatch L fromStart longest (appendPatternSpan s true) value = some kept ∧
        Removed (· = s) fromStart longest value kept := by
    obtain ⟨p, hp, hmatches⟩ := quoted_matches L plain_remove hnul
    have hiff : (fun part => matchPattern L p part = some .match) = (· = s) := by
      funext part
      rw [hmatches part]
      by_cases heq : part = s
      · simp [heq]
      · simp [heq]
    cases parameterRemoveMatch_spec L hp fromStart longest value with
    | inl h => rwa [hiff] at h
    | inr h =>
      obtain ⟨-, part, left, -, hmatch, hno⟩ := h
      rw [hmatches part] at hmatch hno
      by_cases heq : part = s
      · exact absurd (by rw [if_pos heq]) hmatch
      · exact absurd (by rw [if_neg heq]) hno
  refine ⟨?_, ?_, ?_, ?_, ?_⟩
  · intro o ho
    have hplain : Plain o := by
      cases ho with
      | inl h => exact h ▸ plain_case
      | inr h => exact h ▸ plain_remove
    obtain ⟨p, hp, hmatches⟩ := quoted_matches L hplain hnul
    refine ⟨p, hp, ?_⟩
    intro text
    rw [hmatches text]
    by_cases heq : text = s
    · simp [heq]
    · simp [heq]
  · intro value
    obtain ⟨p, hp, hmatches⟩ := quoted_matches L plain_case hnul
    unfold expandCasePattern
    rw [hp]
    dsimp only
    rw [hmatches value]
    by_cases heq : value = s
    · rw [if_pos heq, decide_eq_true heq]
    · rw [if_neg heq, decide_eq_false heq]
  · intro longest value
    obtain ⟨kept, hkept, h⟩ := hremove true longest value
    rw [hkept, removed_only h, if_pos rfl]
  · intro longest value
    obtain ⟨kept, hkept, h⟩ := hremove false longest value
    rw [hkept, removed_only h, if_neg (by decide)]
  · intro pattern hpattern
    obtain ⟨p, hp, hextglob, hglobstar⟩ := compile_plain plain_remove hpattern
    refine ⟨p, hp, ?_⟩
    intro fromStart longest value
    cases parameterRemoveMatch_spec L hp fromStart longest value with
    | inl h => exact .inl h
    | inr h =>
      obtain ⟨hnone, part, left, hjoined, hmatch, hno⟩ := h
      refine .inr ⟨hnone, part, left, hjoined, ?_⟩
      cases matchPattern_plain L plain_remove hp hextglob hglobstar part with
      | inl hyes => exact absurd hyes hmatch
      | inr h =>
        cases h with
        | inl h => exact absurd h hno
        | inr h => exact h

theorem quoting_neutralises_star : '\x00' ∉ ['*', '\\'] ∧
      (∀ value, expandCasePattern plainLocale ['\\', '*', '\\', '\\'] value = some (decide (value = ['*', '\\']))) ∧
      parameterRemoveMatch plainLocale true true ['\\', '*', '\\', '\\'] ['*', '\\', 'a'] = some ['a'] :=
  ⟨by decide, (quoting_neutralises plainLocale (s := ['*', '\\']) (by decide)).2.1,
    ((quoting_neutralises plainLocale (s := ['*', '\\']) (by decide)).2.2.1 true ['*', '\\', 'a']).trans (by decide)⟩

end Bx.Ash.Expansion
