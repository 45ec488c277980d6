import Bx.Ash.PatternSound

/-!
# Patterns as they are written

`ReadAs` reads a source without extglob and globstar as its elements, one character or operator after the other. What
the compiler makes of the source are these elements, with neighbouring literals put together.
-/

namespace Bx.Ash

open Bx.Kit List

/-! ## Reading the source -/

/-- A run of `*` is one element, a backslash takes the next character literally, and a `[` that nothing closes is a
literal. -/
inductive ReadAs (o : PatternOptions) : CStr → List Term → Prop
  | nil : ReadAs o [] []
  | escaped {c : Char} {rest : CStr} {es : List Term} :
    ReadAs o rest es → ReadAs o ('\\' :: c :: rest) (.literal [c] :: es)
  | backslash : ReadAs o ['\\'] [.literal ['\\']]
  | stars {n : Nat} {rest : CStr} {es : List Term} :
    rest.head? ≠ some '*' → ReadAs o rest es → ReadAs o (replicate (n + 1) '*' ++ rest) (.anyString :: es)
  | question {rest : CStr} {es : List Term} : ReadAs o rest es → ReadAs o ('?' :: rest) (.anyCharacter :: es)
  | bracket {text : CStr} {length : Nat} {es : List Term} :
    bracketEnd ('[' :: text) = some length → ReadAs o (('[' :: text).drop length) es →
      ReadAs o ('[' :: text) (.bracket (('[' :: text).take length) :: es)
  | separator {rest : CStr} {es : List Term} :
    o.domain = .pathname → ReadAs o rest es → ReadAs o ('/' :: rest) (.pathSeparator :: es)
  | literal {c : Char} {rest : CStr} {es : List Term} :
    c ≠ '\\' → c ≠ '*' → c ≠ '?' → (c = '[' → bracketEnd (c :: rest) = none) → (c = '/' → o.domain ≠ .pathname) →
      ReadAs o rest es → ReadAs o (c :: rest) (.literal [c] :: es)

section
variable {o : PatternOptions} {c : Char} {rest : CStr} {terms es : List Term} {term : Term}

variable {source : CStr} {text : CStr}

theorem ReadAs.pathname (h : ReadAs o source es) (hmem : .pathSeparator ∈ es) : o.domain = .pathname := by
  induction h with
  | nil => cases hmem
  | escaped _ ih => exact ih (by simpa using hmem)
  | backslash => simp at hmem
  | stars _ _ ih => exact ih (by simpa using hmem)
  | question _ ih => exact ih (by simpa using hmem)
  | bracket _ _ ih => exact ih (by simpa using hmem)
  | separator hpath _ _ => exact hpath
  | literal _ _ _ _ _ _ ih => exact ih (by simpa using hmem)

theorem bracketScan_lt {skip taken length : Nat} (h : bracketScan text skip taken = some length) : taken < length := by
  induction text generalizing skip taken with
  | nil => cases h
  | cons c rest ih =>
    cases skip with
    | succ skip => exact Nat.lt_of_succ_lt (ih h)
    | zero =>
      unfold bracketScan at h
      split at h
      · exact Nat.lt_of_succ_lt (ih h)
      · split at h
        · exact Nat.lt_of_succ_lt (ih h)
        · split at h
          · cases h
            exact Nat.lt_succ_self _
          · exact Nat.lt_of_succ_lt (ih h)

theorem bracketEnd_pos {length : Nat} (h : bracketEnd text = some length) : 0 < length := by
  unfold bracketEnd at h
  exact lt_of_le_of_lt (Nat.zero_le _) (bracketScan_lt h)

theorem compileTerm_length : (compileTerm o c rest).2.length ≤ rest.length := by
  unfold compileTerm
  split
  · cases rest with
    | nil => exact le_rfl
    | cons escaped rest => exact Nat.le_succ _
  · split
    · exact (dropWhile_sublist _).length_le
    · split
      · exact le_rfl
      · split
        · next length hlength =>
          have hpos : 0 < length := by
            split at hlength
            · exact bracketEnd_pos hlength
            · cases hlength
          show ((c :: rest).drop length).length ≤ _
          rw [length_drop, length_cons]
          omega
        · split
          · exact le_rfl
          · exact le_rfl

theorem stars_split (rest : CStr) :
    ∃ n, rest = replicate n '*' ++ rest.dropWhile (· = '*') ∧ (rest.dropWhile (· = '*')).head? ≠ some '*' := by
  induction rest with
  | nil => exact ⟨0, rfl, by simp⟩
  | cons d rest ih =>
    by_cases hd : d = '*'
    · obtain ⟨n, hrest, hhead⟩ := ih
      subst hd
      rw [dropWhile_cons_of_pos (by simp)]
      refine ⟨n + 1, ?_, hhead⟩
      rw [replicate_succ, cons_append, ← hrest]
    · rw [dropWhile_cons_of_neg (by simpa using hd)]
      exact ⟨0, rfl, by simpa using hd⟩

theorem readAs_compileTerm (hglobstar : (compileTerm o c rest).1 ≠ .globstar)
    (h : ReadAs o (compileTerm o c rest).2 es) : ReadAs o (c :: rest) ((compileTerm o c rest).1.spread ++ es) := by
  unfold compileTerm at hglobstar h ⊢
  by_cases hescape : c = '\\'
  · rw [if_pos hescape] at h ⊢
    subst hescape
    cases rest with
    | nil =>
      cases h
      exact .backslash
    | cons escaped rest => exact .escaped h
  rw [if_neg hescape] at hglobstar h ⊢
  by_cases hstar : c = '*'
  · rw [if_pos hstar] at hglobstar h ⊢
    obtain ⟨n, hrest, hhead⟩ := stars_split rest
    have hread := ReadAs.stars (n := n) hhead h
    rw [replicate_succ, cons_append, ← hrest] at hread
    rw [hstar]
    dsimp only at hglobstar ⊢
    split at hglobstar
    · exact absurd rfl hglobstar
    · rw [if_neg ‹_›]
      exact hread
  rw [if_neg hstar] at hglobstar h ⊢
  by_cases hquestion : c = '?'
  · rw [if_pos hquestion] at h ⊢
    subst hquestion
    exact .question h
  rw [if_neg hquestion] at hglobstar h ⊢
  cases hbracket : (if c = '[' then bracketEnd (c :: rest) else none) with
  | some length =>
    rw [hbracket] at h
    split at hbracket
    · next heq =>
      subst heq
      exact .bracket hbracket h
    · cases hbracket
  | none =>
    rw [hbracket] at h
    dsimp only at h ⊢
    have hopen : c = '[' → bracketEnd (c :: rest) = none := by
      intro heq
      rw [if_pos heq] at hbracket
      exact hbracket
    by_cases hseparator : (c = '/' && o.domain = .pathname) = true
    · rw [if_pos hseparator] at h ⊢
      simp only [Bool.and_eq_true, decide_eq_true_eq] at hseparator
      obtain ⟨rfl, hpath⟩ := hseparator
      exact .separator hpath h
    · rw [if_neg hseparator] at h ⊢
      simp only [Bool.and_eq_true, decide_eq_true_eq, not_and] at hseparator
      exact .literal hescape hstar hquestion hopen hseparator h

/-! ## What the compiler collects -/

theorem spread_appendTerm : (appendTerm terms term).flatMap Term.spread = terms.flatMap Term.spread ++ term.spread := by
  unfold appendTerm
  split
  · next text span hlast =>
    obtain ⟨front, rfl⟩ := getLast?_eq_some_iff.mp hlast
    simp [Term.spread]
  · simp

def isBracket : Term → Bool
  | .bracket _ => true
  | _ => false

structure RequiredFeatures.Grows (a b : RequiredFeatures) : Prop where
  extglob : a.extglob = true → b.extglob = true
  globstar : a.globstar = true → b.globstar = true

theorem RequiredFeatures.Grows.refl {a : RequiredFeatures} : a.Grows a := ⟨id, id⟩

theorem RequiredFeatures.Grows.trans {a b d : RequiredFeatures} (hab : a.Grows b) (hbd : b.Grows d) : a.Grows d :=
  ⟨fun h => hbd.extglob (hab.extglob h), fun h => hbd.globstar (hab.globstar h)⟩

variable {required : RequiredFeatures}

theorem RequiredFeatures.grows_add : required.Grows (required.add o term) := by
  cases term with
  | globstar => exact ⟨id, fun _ => rfl⟩
  | extglob _ _ => exact ⟨fun _ => rfl, id⟩
  | bracket span => exact ⟨id, id⟩
  | _ => exact .refl

def Finishes {α : Type} (compiler : Compiler) (r : Option (Except CompileFailure (Compiler × α))) : Prop :=
  ∃ result, r = some result ∧ ∀ after made, result = .ok (after, made) →
    after.rest.length ≤ compiler.rest.length ∧ compiler.required.Grows after.required

variable {α : Type} {compiler after : Compiler} {fuel nesting : Nat}

theorem Finishes.error {failure : CompileFailure} : Finishes (α := α) compiler (some (.error failure)) := by
  refine ⟨_, rfl, ?_⟩
  intro after made h
  cases h

variable {made : α} {r : Option (Except CompileFailure (Compiler × α))}

theorem Finishes.ok (hlength : after.rest.length ≤ compiler.rest.length)
    (hgrows : compiler.required.Grows after.required) : Finishes compiler (some (.ok (after, made))) := by
  refine ⟨_, rfl, ?_⟩
  intro after' made' h
  cases h
  exact ⟨hlength, hgrows⟩

theorem Finishes.weaken {later : Compiler} (h : Finishes later r) (hlength : later.rest.length ≤ compiler.rest.length)
    (hgrows : compiler.required.Grows later.required) : Finishes compiler r := by
  obtain ⟨result, hr, hok⟩ := h
  refine ⟨result, hr, ?_⟩
  intro after made hresult
  obtain ⟨hle, hgrows'⟩ := hok after made hresult
  exact ⟨Nat.le_trans hle hlength, hgrows.trans hgrows'⟩

theorem compileAlternatives_finishes {sequence : Compiler → Option (Except CompileFailure (Compiler × List Term))}
    {alternatives : List (List Term)}
    (hsequence : ∀ compiler' : Compiler, compiler'.rest.length ≤ compiler.rest.length → Finishes compiler' (sequence compiler'))
    (hfuel : compiler.rest.length < fuel) : Finishes compiler (compileAlternatives sequence fuel compiler alternatives) := by
  induction fuel generalizing compiler alternatives with
  | zero => exact absurd hfuel (Nat.not_lt_zero _)
  | succ fuel ih =>
    obtain ⟨result, hresult, hok⟩ := hsequence compiler (le_rfl)
    unfold compileAlternatives
    rw [hresult]
    cases result with
    | error failure => exact .error
    | ok made =>
      obtain ⟨after, alternative⟩ := made
      obtain ⟨hle, hgrows⟩ := hok after alternative rfl
      dsimp only
      cases hrest : after.rest with
      | nil => exact .error
      | cons delimiter rest =>
        rw [hrest, length_cons] at hle
        dsimp only
        by_cases hclose : delimiter = ')'
        · rw [if_pos hclose]
          exact .ok (Nat.le_of_succ_le hle) hgrows
        · rw [if_neg hclose]
          refine Finishes.weaken (ih ?_ ?_) ?_ hgrows
          · intro compiler' hle'
            exact hsequence compiler' (Nat.le_trans hle' (Nat.le_of_succ_le hle))
          · show rest.length < fuel
            omega
          · exact Nat.le_of_succ_le hle

theorem extglobAt_length {operator : ExtglobOperator} {after : CStr} (h : extglobAt o c rest = some (operator, after)) :
    after.length < rest.length := by
  unfold extglobAt at h
  split at h
  · split at h
    · obtain ⟨_, _, heq⟩ := Option.map_eq_some_iff.mp h
      cases heq
      exact Nat.lt_succ_self _
    · cases h
  · cases h

theorem compileSequence_finishes {alternative : Bool} (hfuel : compiler.rest.length < fuel) :
    Finishes compiler (compileSequence o fuel alternative nesting compiler terms) := by
  induction fuel generalizing compiler alternative nesting terms with
  | zero => exact absurd hfuel (Nat.not_lt_zero _)
  | succ fuel ih =>
    unfold compileSequence
    cases hrest : compiler.rest with
    | nil => exact .ok (le_rfl) .refl
    | cons c rest =>
      rw [hrest, length_cons] at hfuel
      dsimp only
      by_cases hstop : (alternative && (c = '|' || c = ')')) = true
      · rw [if_pos hstop]
        exact .ok (le_rfl) .refl
      · rw [if_neg hstop]
        cases hextglob : extglobAt o c rest with
        | none =>
          have hlength := @compileTerm_length o c rest
          dsimp only
          refine Finishes.weaken (ih ?_) ?_ RequiredFeatures.grows_add
          · show (compileTerm o c rest).2.length < fuel
            omega
          · show (compileTerm o c rest).2.length ≤ _
            rw [hrest, length_cons]
            omega
        | some found =>
          obtain ⟨operator, inside⟩ := found
          have hlength := extglobAt_length hextglob
          dsimp only
          by_cases hnesting : nesting ≥ maxNesting
          · rw [if_pos hnesting]
            exact .error
          · rw [if_neg hnesting]
            have hinside : Finishes ⟨inside, compiler.required⟩
                (compileAlternatives (compileSequence o fuel true (nesting + 1) · []) fuel ⟨inside, compiler.required⟩ []) := by
              apply compileAlternatives_finishes
              · intro compiler' hle
                apply ih
                have : compiler'.rest.length ≤ inside.length := hle
                omega
              · show inside.length < fuel
                omega
            obtain ⟨result, hresult, hok⟩ := hinside
            rw [show ({ compiler with rest := inside } : Compiler) = ⟨inside, compiler.required⟩ from rfl, hresult]
            cases result with
            | error failure => exact .error
            | ok made =>
              obtain ⟨after, alternatives⟩ := made
              obtain ⟨hle, hgrows⟩ := hok after alternatives rfl
              have hle' : after.rest.length ≤ inside.length := hle
              refine Finishes.weaken (ih ?_) ?_ ?_
              · show after.rest.length < fuel
                omega
              · show after.rest.length ≤ _
                rw [hrest, length_cons]
                omega
              · have hadd : after.required.Grows (after.required.add o (.extglob operator alternatives)) :=
                  RequiredFeatures.grows_add
                exact hgrows.trans hadd

theorem Finishes.of_ok (h : Finishes compiler r) (hr : r = some (.ok (after, made))) :
    after.rest.length ≤ compiler.rest.length ∧ compiler.required.Grows after.required := by
  obtain ⟨result, hresult, hok⟩ := h
  rw [hresult] at hr
  cases hr
  exact hok after made rfl

theorem add_asciiRanges :
    (required.add o term).asciiRanges = (required.asciiRanges || (o.asciiRanges && term.spread.any isBracket)) := by
  cases term with
  | literal span => simp [RequiredFeatures.add, Term.spread, isBracket]
  | bracket span => simp [RequiredFeatures.add, Term.spread, isBracket]
  | anyString => simp [RequiredFeatures.add, Term.spread, isBracket]
  | anyCharacter => simp [RequiredFeatures.add, Term.spread, isBracket]
  | pathSeparator => simp [RequiredFeatures.add, Term.spread, isBracket]
  | globstar => simp [RequiredFeatures.add, Term.spread, isBracket]
  | extglob _ _ => simp [RequiredFeatures.add, Term.spread, isBracket]

theorem compileSequence_readAs {root : List Term} (hfuel : compiler.rest.length < fuel)
    (h : compileSequence o fuel false nesting compiler terms = some (.ok (after, root)))
    (hextglob : after.required.extglob = false) (hglobstar : after.required.globstar = false) :
    ∃ es, ReadAs o compiler.rest es ∧ root.flatMap Term.spread = terms.flatMap Term.spread ++ es ∧
      after.required.asciiRanges = (compiler.required.asciiRanges || (o.asciiRanges && es.any isBracket)) := by
  induction fuel generalizing compiler terms with
  | zero => exact absurd hfuel (Nat.not_lt_zero _)
  | succ fuel ih =>
    unfold compileSequence at h
    cases hrest : compiler.rest with
    | nil =>
      rw [hrest] at h
      cases h
      exact ⟨[], .nil, by simp, by simp⟩
    | cons c rest =>
      rw [hrest] at h
      rw [hrest, length_cons] at hfuel
      simp only [Bool.false_and, Bool.false_eq_true, if_false] at h
      cases hfound : extglobAt o c rest with
      | none =>
        rw [hfound] at h
        dsimp only at h
        have hlength : (compileTerm o c rest).2.length < fuel := by
          have := @compileTerm_length o c rest
          omega
        obtain ⟨es, hread, hroot, hascii⟩ := ih hlength h
        have hterm : (compileTerm o c rest).1 ≠ .globstar := by
          intro heq
          have hafter := (compileSequence_finishes hlength).of_ok h
          rw [heq] at hafter
          simp [hafter.2.globstar rfl] at hglobstar
        refine ⟨(compileTerm o c rest).1.spread ++ es, readAs_compileTerm hterm hread, ?_, ?_⟩
        · rw [hroot, spread_appendTerm, append_assoc]
        · rw [hascii, add_asciiRanges, any_append, Bool.and_or_distrib_left, Bool.or_assoc]
      | some found =>
        rw [hfound] at h
        dsimp only at h
        split at h
        · cases h
        · split at h
          · cases h
          · cases h
          · next after' alternatives hinside =>
            have hlength := extglobAt_length hfound
            have hfinishes : Finishes ⟨found.2, compiler.required⟩
                (compileAlternatives (compileSequence o fuel true (nesting + 1) · []) fuel ⟨found.2, compiler.required⟩ []) := by
              apply compileAlternatives_finishes
              · intro compiler' hle
                have : compiler'.rest.length ≤ found.2.length := hle
                exact compileSequence_finishes (by omega)
              · show found.2.length < fuel
                omega
            have hle : after'.rest.length ≤ found.2.length := (hfinishes.of_ok hinside).1
            have hafter := Finishes.of_ok (compileSequence_finishes (by show after'.rest.length < fuel; omega)) h
            simp [hafter.2.extglob rfl] at hextglob

theorem compile_finishes (o : PatternOptions) (source : CStr) : ∃ r, compile o source = some r := by
  unfold compile
  split
  · exact ⟨_, rfl⟩
  · have hfinishes : Finishes ⟨source, {}⟩ (compileSequence o (source.length + 1) false 0 ⟨source, {}⟩ []) :=
      compileSequence_finishes (Nat.lt_succ_self source.length)
    obtain ⟨result, hresult, _⟩ := hfinishes
    rw [hresult]
    cases result with
    | error failure => exact ⟨_, rfl⟩
    | ok made => exact ⟨_, rfl⟩

theorem compile_readAs {p : Pattern} (h : compile o source = some (.ok p))
    (hextglob : p.required.extglob = false) (hglobstar : p.required.globstar = false) :
    p.options = o ∧ p.source = source ∧ o.valid = true ∧ ∃ es, ReadAs o source es ∧ p.root.flatMap Term.spread = es ∧
      p.required.asciiRanges = (o.asciiRanges && es.any isBracket) := by
  unfold compile at h
  split at h
  · cases h
  · next hvalid =>
    split at h
    · cases h
    · cases h
    · next compiler root hsequence =>
      cases h
      obtain ⟨es, hread, hroot, hascii⟩ :=
        compileSequence_readAs (Nat.lt_succ_self source.length) hsequence hextglob hglobstar
      refine ⟨rfl, rfl, ?_, es, hread, hroot, by simpa using hascii⟩
      simp only [Bool.or_eq_true, Bool.not_eq_true', not_or, Bool.not_eq_false] at hvalid
      exact hvalid.1

end

/-! ## Matching what is written -/

def EndsEscaped (source : CStr) : Prop := trailingBackslashes source % 2 ≠ 0

def Answers (L : PatternLocale) (o : PatternOptions) (source : CStr) (es : List Term) (text : CStr) : MatchResult → Prop
  | .match => ¬EndsEscaped source ∧ Splits L o text (StarPlaced o text) es 0 text.length
  | .noMatch => EndsEscaped source ∨ ¬Splits L o text (StarPlaced o text) es 0 text.length
  | .unsupported => o.asciiRanges = true ∧ es.any isBracket = true
  | .error => ∃ element ∈ es, BracketFails L o text element

theorem matchPattern_answers (L : PatternLocale) {o : PatternOptions} {source : CStr} {p : Pattern}
    (hp : compile o source = some (.ok p)) (hextglob : p.required.extglob = false)
    (hglobstar : p.required.globstar = false) (text : CStr) :
    ∃ es, ReadAs o source es ∧ ∃ result, matchPattern L p text = some result ∧ Answers L o source es text result ∧
      (result = .unsupported ↔ o.asciiRanges = true ∧ es.any isBracket = true) := by
  obtain ⟨hoptions, hsource, hvalid, es, hread, hroot, hascii⟩ := compile_readAs hp hextglob hglobstar
  refine ⟨es, hread, ?_⟩
  have hseparator : .pathSeparator ∈ p.root → p.options.domain = .pathname := by
    intro hmem
    rw [hoptions]
    apply hread.pathname
    rw [← hroot]
    exact mem_flatMap.mpr ⟨_, hmem, mem_singleton.mpr rfl⟩
  unfold matchPattern
  rw [hoptions, hvalid, hextglob, hglobstar, hascii, hsource]
  by_cases hunsupported : (o.asciiRanges && es.any isBracket) = true
  · refine ⟨.unsupported, by simp [hunsupported], ?_, ?_⟩
    · exact Bool.and_eq_true_iff.mp hunsupported
    · simpa using hunsupported
  · have hsupported (result : MatchResult) (hresult : result ≠ .unsupported) :
        result = .unsupported ↔ o.asciiRanges = true ∧ es.any isBracket = true := by
      rw [← Bool.and_eq_true_iff]
      exact ⟨fun h => absurd h hresult, fun h => absurd h hunsupported⟩
    by_cases hends : EndsEscaped source
    · refine ⟨.noMatch, ?_, .inl hends, hsupported _ (by simp)⟩
      rw [if_neg (by simp), if_neg (by simpa using hunsupported)]
      exact if_pos hends
    · obtain ⟨result, hloop, hspec⟩ := @loop_result L p text hseparator
      refine ⟨result, ?_, ?_⟩
      · rw [if_neg (by simp), if_neg (by simpa using hunsupported)]
        exact (if_neg hends).trans hloop
      · unfold ResultSpec at hspec
        rw [hoptions, ← splits_spread, hroot] at hspec
        cases result with
        | «match» => exact ⟨⟨hends, hspec⟩, hsupported _ (by simp)⟩
        | noMatch => exact ⟨.inr hspec, hsupported _ (by simp)⟩
        | unsupported => exact hspec.elim
        | error =>
          obtain ⟨term, hmem, span, c, rfl, hc, hfails⟩ := hspec
          refine ⟨⟨.bracket span, ?_, span, c, rfl, hc, hfails⟩, hsupported _ (by simp)⟩
          rw [← hroot]
          exact mem_flatMap.mpr ⟨_, hmem, mem_singleton.mpr rfl⟩

/-- The C library for the characters of `a.x` and patterns without brackets. -/
def plainLocale : PatternLocale where
  fnmatch _ _ _ := some false
  towlower := id
  towupper := id
  wcrtomb c := some [c]
  strcoll _ _ := some 0
  towlower_slash _ h := h

def expansion : PatternOptions := { purpose := .pathnameExpansion, domain := .pathname }

end Bx.Ash
