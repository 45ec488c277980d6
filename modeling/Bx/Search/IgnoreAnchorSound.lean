import Bx.Search.IgnoreProgramSound

/-!
# Lines that begin with a slash

`ruleCompile` drops the slash and remembers it only through a slash that is
left inside the pattern. Without one the rule is tested on the entry's name, at
any depth.
-/

namespace Bx.IgnoreProgram

open Bx.Kit PathOps List

def lineBody (line : CStr) : CStr := skipChar '!' (skipBlanks line)

def linePattern (line : CStr) : CStr := dropSlash (skipChar '/' (lineBody line))

def lineDirectoryOnly (line : CStr) : Bool := (skipChar '/' (lineBody line)).getLast? = some '/'

variable {line : CStr}

theorem ruleCompile_fields {source : SourceKind} {rule : Rule} (h : ruleCompile line source = .compiled rule) :
    rule.pattern = linePattern line ∧ rule.directoryOnly = lineDirectoryOnly line := by
  unfold ruleCompile at h
  simp only at h
  split_ifs at h
  simp only [RuleCompile.compiled.injEq] at h
  subst h
  exact ⟨rfl, rfl⟩

section
variable (L : Libc)

/-- A leading part of the path, ending before a slash or at its end, is matched
by the pattern. -/
def MatchesFromFirst (casefold : Bool) (pattern relativePath : CStr) : Prop :=
  ∃ n, (relativePath[n]? = none ∨ relativePath[n]? = some '/') ∧
    L.fnmatch pattern (relativePath.take n) ⟨true, casefold⟩ = true

def firstComponent (relativePath : CStr) : CStr := relativePath.takeWhile (· ≠ '/')

/-! ## A program of one line -/

theorem compile_one {casefold : Bool} {program : Program} (h : compile L [some line] casefold = some program) :
    program.Wf L ∧ program.casefold = casefold ∧
      ∃ rule, program.rules = [rule] ∧ rule.pattern = linePattern line ∧
        rule.directoryOnly = lineDirectoryOnly line := by
  have hw : program.Wf L := compileWithSources_wf L h
  unfold compile compileWithSources at h
  simp only [map_cons, map_nil, compileRules] at h
  cases hc : ruleCompile line .builtin with
  | failed => exact absurd hc (ruleCompile_ne_failed line .builtin)
  | skipped => simp [hc] at h
  | compiled rule =>
    simp only [hc, Option.map_some] at h
    simp only [Option.some.injEq] at h
    have hr : program.rules = [rule] := by rw [← h]
    have hcf : program.casefold = casefold := by rw [← h]
    exact ⟨hw, hcf, rule, hr, ruleCompile_fields hc⟩

theorem programMatch_ne_noMatch_iff {program : Program} (hw : program.Wf L) (name relativePath : CStr) (isDir : Bool) :
    programMatch L program name relativePath isDir ≠ .noMatch ↔
      ∃ rule ∈ program.rules,
        Own L program name relativePath isDir rule ∨ Covers L program relativePath isDir rule := by
  by_cases hlit : ∃ rule ∈ program.rules, rule.kind.isLiteral = true ∧ Own L program name relativePath isDir rule
  · have hans := programMatch_of_literal L hw name relativePath isDir hlit
    obtain ⟨rule, hr, _, hown⟩ := hlit
    exact iff_of_true (hans.ne_noMatch ⟨rule, hr, hown⟩) ⟨rule, hr, Or.inl hown⟩
  · have hans := programMatch_of_not_literal L hw name relativePath isDir hlit
    constructor
    · intro hne
      by_contra hno
      rcases hans with ⟨_, rule, hlast, _⟩ | ⟨_, h⟩
      · exact hno ⟨rule, hlast.mem, hlast.sat⟩
      · exact hne h
    · intro hex
      exact hans.ne_noMatch hex

/-! ## Where the match starts -/

section
variable {program : Program} {relativePath : CStr} {isDir : Bool} {rule : Rule}

variable {casefold directoryOnly : Bool} {pattern : CStr}

theorem getElem?_take_of_prefixHit {prefixText : CStr}
    (h : prefixHit L casefold directoryOnly prefixText relativePath isDir = true) :
    L.fold casefold (relativePath.take prefixText.length) = L.fold casefold prefixText ∧
      (relativePath[prefixText.length]? = none ∨ relativePath[prefixText.length]? = some '/') := by
  unfold prefixHit at h
  rw [Bool.and_eq_true, Libc.prefixEqual_iff] at h
  refine ⟨h.1, ?_⟩
  have h2 := h.2
  split at h2
  · rename_i hnone; exact Or.inl hnone
  · rename_i c hc
    simp only [decide_eq_true_eq] at h2
    exact Or.inr (h2 ▸ hc)

theorem matchesFromFirst_of_prefixHit (hm : hasMeta pattern = false)
    (h : prefixHit L casefold directoryOnly pattern relativePath isDir = true) :
    MatchesFromFirst L casefold pattern relativePath := by
  obtain ⟨hf, hend⟩ := getElem?_take_of_prefixHit L h
  refine ⟨pattern.length, hend, ?_⟩
  rw [L.fnmatch_literal _ _ _ hm]
  exact hf.symm

theorem wf_prefixTable (hw : rule.Wf) (hk : entersPrefixTable rule = true) : hasMeta rule.pattern = false := by
  unfold entersPrefixTable at hk
  rw [Bool.or_eq_true, decide_eq_true_eq, decide_eq_true_eq] at hk
  rcases hk with hk | hk
  · have h := hw.kind_eq
    rw [hk] at h
    unfold ruleClassify at h
    split_ifs at h with h1 h2 h3 h4 h5
    simp only [ruleIsAnchoredPrefixCandidate, Bool.and_eq_true, Bool.not_eq_true'] at h5
    exact h5.2
  · exact (wf_literalDirectory hw hk).2.1

theorem matchesFromFirst_of_covers (hw : rule.Wf) (h : Covers L program relativePath isDir rule) :
    MatchesFromFirst L program.casefold rule.pattern relativePath :=
  matchesFromFirst_of_prefixHit L (wf_prefixTable hw h.1) h.2

theorem matchesFromFirst_of_relative (hw : rule.Wf) (hrel : rule.usesRelativePath = true) {name : CStr}
    (h : Own L program name relativePath isDir rule) :
    MatchesFromFirst L program.casefold rule.pattern relativePath := by
  by_cases hk : rule.kind = .anchoredPrefix
  · exact matchesFromFirst_of_covers L hw ⟨by simp [entersPrefixTable, hk], (own_anchoredPrefix L hk).mp h⟩
  · have hf := ((own_iff_fnmatch L hk).mp h).2.2
    rw [hrel, if_pos rfl] at hf
    refine ⟨relativePath.length, Or.inl (by simp), ?_⟩
    rwa [take_length]

theorem anchoredPrefix_relative_or_dir (hw : rule.Wf) (hrel : rule.usesRelativePath = false) :
    rule.kind ≠ .anchoredPrefix := by
  intro hk
  have h := hw.kind_eq
  rw [hk] at h
  unfold ruleClassify at h
  split_ifs at h with h1 h2 h3 h4 h5
  have hs : rule.pattern.contains '/' = false := hw.relative.symm.trans hrel
  simp only [ruleIsAnchoredPrefixCandidate, hrel, Bool.or_false, Bool.and_eq_true] at h5
  exact h4 (by simp only [ruleIsLiteralDirectory, h5.1.1, h5.1.2, h5.2, hs]; rfl)

theorem firstComponent_eq_take : ∀ (s : CStr) (n : Nat), '/' ∉ s.take n → (s[n]? = none ∨ s[n]? = some '/') →
    firstComponent s = s.take n
  | [], n, _, _ => by simp [firstComponent]
  | c :: s, 0, _, hend => by
    simp at hend
    simp [firstComponent, hend]
  | c :: s, n + 1, hno, hend => by
    simp only [take_succ_cons, mem_cons, not_or] at hno
    have hc : c ≠ '/' := fun e => hno.1 e.symm
    have ih := firstComponent_eq_take s n hno.2 (by simpa using hend)
    unfold firstComponent at ih ⊢
    rw [takeWhile_cons, if_pos (by simpa using hc), ih, take_succ_cons]

theorem getElem?_firstComponent : ∀ s : CStr, s[(firstComponent s).length]? = none ∨
    s[(firstComponent s).length]? = some '/'
  | [] => Or.inl rfl
  | c :: s => by
    unfold firstComponent
    by_cases hc : c = '/'
    · simp [hc]
    · have ih := getElem?_firstComponent s
      unfold firstComponent at ih
      rw [takeWhile_cons, if_pos (by simpa using hc), length_cons, getElem?_cons_succ]
      exact ih

theorem matchesFromFirst_iff_firstComponent (hs : '/' ∉ pattern) : MatchesFromFirst L casefold pattern relativePath ↔
      L.fnmatch pattern (firstComponent relativePath) ⟨true, casefold⟩ = true := by
  constructor
  · rintro ⟨n, hend, hm⟩
    have hno : '/' ∉ relativePath.take n := by
      intro hin
      rw [L.fnmatch_slash _ _ _ hs hin] at hm; cases hm
    rwa [firstComponent_eq_take relativePath n hno hend]
  · intro h
    have hpre : firstComponent relativePath <+: relativePath := takeWhile_prefix _
    refine ⟨(firstComponent relativePath).length, getElem?_firstComponent relativePath, ?_⟩
    rwa [← prefix_iff_eq_take.mp hpre]

end

/-! ## The anchor -/

def NamePasses (casefold directoryOnly : Bool) (pattern name : CStr) (isDir : Bool) : Prop :=
  name ≠ [] ∧ (directoryOnly = true → isDir = true) ∧ L.fnmatch pattern name ⟨false, casefold⟩ = true

theorem basenamePtr_of_no_slash {s : CStr} (h : '/' ∉ s) : basenamePtr s = s := by
  unfold basenamePtr
  rw [rtakeWhile_eq_self_iff]
  intro c hc
  simp only [ne_eq, decide_not, Bool.not_eq_true', decide_eq_false_iff_not]
  intro e
  exact h (e ▸ hc)

theorem own_of_no_slash {program : Program} {name relativePath : CStr} {isDir : Bool} {rule : Rule} (hw : rule.Wf)
    (hs : '/' ∉ rule.pattern) :
    Own L program name relativePath isDir rule ↔
      NamePasses L program.casefold rule.directoryOnly rule.pattern name isDir := by
  have hrel : rule.usesRelativePath = false := by
    rw [hw.relative]
    simpa using hs
  rw [own_iff_fnmatch L (anchoredPrefix_relative_or_dir hw hrel), hrel]
  rfl

end

end Bx.IgnoreProgram
