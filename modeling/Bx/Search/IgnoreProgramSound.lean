import Bx.Lib.PathOps
import Bx.Search.IgnoreProgram
import Mathlib.Data.List.Infix

/-!
# What an ignore program answers

Each table finds the last rule of its kind that matches, and the rules after it are rescanned, so `programMatch` gives
the answer of the last rule that passes its own test, except that a directory rule that only covers the entry through an
ancestor is seen by the prefix table alone.
-/

namespace Bx.IgnoreProgram

open Bx.Kit List

variable {relativePath : CStr} {rules : List Rule} {e : LiteralEntry} {r : MatchResult} {i : Nat} {program : Program}
variable {rule : Rule} {p t : Rule → Prop}

/-! ## Results -/

@[simp] theorem orElse_noMatch (r : MatchResult) : MatchResult.noMatch.orElse r = r := rfl

theorem orElse_of_ne (h : r ≠ .noMatch) (later : MatchResult) : r.orElse later = r := by
  cases r
  · exact absurd rfl h
  · rfl
  · rfl

theorem Rule.result_ne (rule : Rule) : rule.result ≠ .noMatch := by
  unfold Rule.result
  cases rule.negate <;> simp

theorem Rule.result_eq_iff (r s : Rule) : r.result = s.result ↔ r.negate = s.negate := by
  unfold Rule.result
  cases r.negate <;> cases s.negate <;> simp

/-- `r` is the answer of the last rule that satisfies `p`. -/
def Answers (p : Rule → Prop) (rules : List Rule) (r : MatchResult) : Prop :=
  (∃ i rule, IsLast p rules i rule ∧ r = rule.result) ∨ ((∀ rule ∈ rules, ¬ p rule) ∧ r = .noMatch)

theorem Answers.unique {s : MatchResult} (hr : Answers p rules r) (hs : Answers p rules s) : r = s := by
  rcases hr with ⟨i, a, ha, rfl⟩ | ⟨hn, rfl⟩ <;> rcases hs with ⟨j, b, hb, rfl⟩ | ⟨hn', rfl⟩
  · rw [ha.unique hb]
  · exact absurd ha.sat (hn' a ha.mem)
  · exact absurd hb.sat (hn b hb.mem)
  · rfl

theorem Answers.congr {q : Rule → Prop} (h : Answers p rules r)
    (hpq : ∀ rule ∈ rules, p rule ↔ q rule) : Answers q rules r := by
  rcases h with ⟨i, a, ha, rfl⟩ | ⟨hn, rfl⟩
  · exact Or.inl ⟨i, a, ha.congr hpq, rfl⟩
  · exact Or.inr ⟨fun rule hr hq => hn rule hr ((hpq rule hr).mpr hq), rfl⟩

theorem Answers.ne_noMatch (h : Answers p rules r) (hex : ∃ rule ∈ rules, p rule) : r ≠ .noMatch := by
  rcases h with ⟨_, rule, _, rfl⟩ | ⟨hn, _⟩
  · exact rule.result_ne
  · obtain ⟨rule, hr, hp⟩ := hex
    exact absurd hp (hn rule hr)

/-! ## Compiled rules -/

structure Rule.Wf (rule : Rule) : Prop where
  kind_eq : rule.kind = ruleClassify rule.usesRelativePath rule.directoryOnly rule.pattern
  relative : rule.usesRelativePath = rule.pattern.contains '/'
  pattern_ne : rule.pattern ≠ []

theorem ruleClassify_ne_invalid {rel dir : Bool} {pattern : CStr} (h : pattern ≠ []) :
    ruleClassify rel dir pattern ≠ .invalid := by
  unfold ruleClassify
  rw [if_neg (by simpa using h)]
  split_ifs <;> simp

theorem ruleCompile_ne_failed (line : CStr) (source : SourceKind) : ruleCompile line source ≠ .failed := by
  unfold ruleCompile
  simp only
  split_ifs with h1 h2 h3 h4
  · simp
  · simp
  · simp
  · exact absurd h4 (ruleClassify_ne_invalid (by simpa using h3))
  · simp

theorem ruleCompile_wf {line : CStr} {source : SourceKind}
    (h : ruleCompile line source = .compiled rule) : rule.Wf := by
  unfold ruleCompile at h
  simp only at h
  split_ifs at h with h1 h2 h3 h4
  simp only [RuleCompile.compiled.injEq] at h
  subst h
  exact ⟨rfl, rfl, by simpa using h3⟩

theorem compileRules_wf (patterns : List (Option CStr × SourceKind))
    (h : compileRules patterns = some rules) : ∀ rule ∈ rules, rule.Wf := by
  induction patterns generalizing rules with
  | nil => simp only [compileRules, Option.some.injEq] at h; subst h; simp
  | cons pattern patterns ih =>
    obtain ⟨line, source⟩ := pattern
    cases line with
    | none => exact ih h
    | some line =>
      simp only [compileRules] at h
      split at h
      · rename_i rule hc
        simp only [Option.map_eq_some_iff] at h
        obtain ⟨rest, hrest, rfl⟩ := h
        intro r hr
        rcases mem_cons.mp hr with rfl | hr
        · exact ruleCompile_wf hc
        · exact ih hrest r hr
      · exact ih h
      · cases h

section
variable (L : Libc)

structure Program.Wf (program : Program) : Prop where
  rules_ne : program.rules ≠ []
  rules_wf : ∀ rule ∈ program.rules, rule.Wf
  basenames : program.literalBasenames = buildLiteralBasenameTable L program.casefold program.rules
  extensions : program.literalExtensions = buildLiteralExtensionTable L program.casefold program.rules
  directories : program.literalDirectories = buildLiteralDirectoryTable L program.casefold program.rules
  prefixes : program.anchoredPrefixes = buildAnchoredPrefixTable program.rules
  basenameOnly_eq : program.basenameOnly = rulesAreBasenameOnly program.rules
  mask_eq : program.genericGlobSourceMask = buildGenericGlobSourceMask program.rules

theorem compileWithSources_wf {patterns : List (Option CStr × SourceKind)} {casefold : Bool}
    (h : compileWithSources L patterns casefold = some program) : program.Wf L := by
  unfold compileWithSources at h
  split at h
  · cases h
  · cases h
  · rename_i rules hne hrules
    simp only [Option.some.injEq] at h
    subst h
    exact ⟨fun e => hne (by simpa using e), compileRules_wf patterns hrules, rfl, rfl, rfl, rfl, rfl, rfl⟩

/-! ## A rule's own test -/

def Own (program : Program) (name relativePath : CStr) (isDir : Bool) (rule : Rule) : Prop :=
  matchRule L program rule name relativePath isDir ≠ .noMatch

theorem matchRule_of_own {name : CStr} {isDir : Bool} (h : Own L program name relativePath isDir rule) :
    matchRule L program rule name relativePath isDir = rule.result := by
  unfold Own at h
  unfold matchRule at h ⊢
  simp only at h ⊢
  split_ifs at h ⊢
  all_goals first | rfl | exact absurd rfl h

theorem own_iff_fnmatch {name : CStr} {isDir : Bool} (hk : rule.kind ≠ .anchoredPrefix) :
    Own L program name relativePath isDir rule ↔
      (if rule.usesRelativePath then relativePath else name) ≠ [] ∧ (rule.directoryOnly = true → isDir = true) ∧
        L.fnmatch rule.pattern (if rule.usesRelativePath then relativePath else name)
          ⟨rule.usesRelativePath, program.casefold⟩ = true := by
  unfold Own matchRule
  simp only [hk, if_false]
  split_ifs with h1 h2 h3 h4
  all_goals simp_all [Rule.result_ne]

theorem own_anchoredPrefix {name : CStr} {isDir : Bool} (hk : rule.kind = .anchoredPrefix) :
    Own L program name relativePath isDir rule ↔
      prefixHit L program.casefold rule.directoryOnly rule.pattern relativePath isDir = true := by
  unfold Own matchRule ruleMatchesAnchoredPrefix
  simp only [hk, if_true, decide_true, Bool.true_and]
  split_ifs with h <;> simp [h, Rule.result_ne]

theorem wf_literalBasename (hw : rule.Wf) (hk : rule.kind = .literalBasename) :
    rule.directoryOnly = false ∧ hasMeta rule.pattern = false ∧ rule.usesRelativePath = false := by
  have h := hw.kind_eq
  rw [hk] at h
  unfold ruleClassify at h
  split_ifs at h with h1 h2
  simp only [ruleIsLiteralBasename, Bool.and_eq_true, Bool.not_eq_true'] at h2
  exact ⟨h2.1.1.1, h2.1.2, hw.relative.trans h2.2⟩

theorem wf_literalDirectory (hw : rule.Wf) (hk : rule.kind = .literalDirectory) :
    rule.directoryOnly = true ∧ hasMeta rule.pattern = false ∧ rule.usesRelativePath = false := by
  have h := hw.kind_eq
  rw [hk] at h
  unfold ruleClassify at h
  split_ifs at h with h1 h2 h3 h4
  simp only [ruleIsLiteralDirectory, Bool.and_eq_true, Bool.not_eq_true'] at h4
  exact ⟨h4.1.1.1, h4.1.2, hw.relative.trans h4.2⟩

theorem wf_literalExtension (hw : rule.Wf) (hk : rule.kind = .literalExtension) :
    ∃ ext, rule.pattern = '*' :: '.' :: ext ∧ hasMeta ('.' :: ext) = false ∧ rule.directoryOnly = false ∧
      rule.usesRelativePath = false := by
  have h := hw.kind_eq
  rw [hk] at h
  unfold ruleClassify at h
  split_ifs at h with h1 h2 h3
  simp only [ruleIsLiteralExtension, Bool.and_eq_true, Bool.not_eq_true', decide_eq_true_eq] at h3
  obtain ⟨⟨⟨⟨⟨hd, h0⟩, hdot⟩, _⟩, hm⟩, hs⟩ := h3
  have hrel := hw.relative
  obtain ⟨c, d, ext, hp⟩ : ∃ c d ext, rule.pattern = c :: d :: ext := by
    match hp : rule.pattern with
    | [] => exact absurd hp hw.pattern_ne
    | [c] => simp [hp] at hdot
    | c :: d :: ext => exact ⟨c, d, ext, rfl⟩
  rw [hp] at h0 hdot hm hs hrel
  simp only [getElem?_cons_zero, getElem?_cons_succ, Option.some.injEq, drop_succ_cons, drop_zero] at h0 hdot hm hs
  subst h0 hdot
  exact ⟨ext, hp, hm, hd, by rw [hrel, contains_cons, hs]; decide⟩

/-! ## Table hits -/

theorem mem_literalCandidates {kind : RuleKind} {key : CStr → CStr} : e ∈ literalCandidates kind key rules ↔
      ∃ i rule, rules[i]? = some rule ∧ rule.kind = kind ∧ e = ⟨key rule.pattern, i, rule.result⟩ :=
  mem_filterMap_zipIdx (fun rule : Rule => rule.kind = kind) fun rule i => LiteralEntry.mk (key rule.pattern) i rule.result

section
variable (kind : RuleKind) (key : CStr → CStr) (casefold : Bool) (rules : List Rule)

def Keyed (name : CStr) (rule : Rule) : Prop :=
  rule.kind = kind ∧ L.fold casefold (key rule.pattern) = L.fold casefold name

theorem findLiteral_some {name : CStr}
    (h : findLiteral L (buildLiteralTable L kind key casefold rules) casefold name = some e) :
    ∃ rule, IsLast (Keyed L kind key casefold name) rules e.ruleIndex rule ∧ e.result = rule.result := by
  obtain ⟨hm, hk, hmax⟩ := lookup_some _ _ h
  obtain ⟨i, rule, hget, hkind, rfl⟩ := mem_literalCandidates.mp hm
  refine ⟨rule, ⟨hget, ⟨hkind, hk⟩, fun j r hr hkr => ?_⟩, rfl⟩
  exact hmax ⟨key r.pattern, j, r.result⟩ (mem_literalCandidates.mpr ⟨j, r, hr, hkr.1, rfl⟩) hkr.2

theorem findLiteral_none {name : CStr}
    (h : findLiteral L (buildLiteralTable L kind key casefold rules) casefold name = none) :
    ∀ rule ∈ rules, ¬ Keyed L kind key casefold name rule := by
  intro rule hr hk
  obtain ⟨i, hi⟩ := mem_iff_getElem?.mp hr
  exact lookup_none _ _ h ⟨key rule.pattern, i, rule.result⟩ (mem_literalCandidates.mpr ⟨i, rule, hi, hk.1, rfl⟩) hk.2

end

theorem foldl_findLiteralExtension (program : Program) (name : CStr) : findLiteralExtension L program name =
      ((dotSuffixes name).filterMap (findLiteralExtensionExact L program)).foldl
        (better LiteralEntry.ruleIndex) none := by
  unfold findLiteralExtension
  rw [foldl_filterMap]
  congr 1
  funext best suffix
  cases findLiteralExtensionExact L program suffix <;> rfl

def KeyedExtension (casefold : Bool) (name : CStr) (rule : Rule) : Prop :=
  ∃ suffix ∈ dotSuffixes name, Keyed L .literalExtension (·.drop 1) casefold suffix rule

theorem findLiteralExtension_some (hw : program.Wf L) {name : CStr} (h : findLiteralExtension L program name = some e) :
    ∃ rule, IsLast (KeyedExtension L program.casefold name) program.rules e.ruleIndex rule ∧
      e.result = rule.result := by
  rw [foldl_findLiteralExtension] at h
  obtain ⟨hm, hmax⟩ := foldl_better _ h
  obtain ⟨suffix, hs, he⟩ := mem_filterMap.mp hm
  simp only [findLiteralExtensionExact, hw.extensions] at he
  obtain ⟨rule, hlast, hres⟩ := findLiteral_some L _ _ _ _ he
  refine ⟨rule, ⟨hlast.get, ⟨suffix, hs, hlast.sat⟩, ?_⟩, hres⟩
  rintro j r hr ⟨suffix', hs', hk'⟩
  cases he' : findLiteralExtensionExact L program suffix' with
  | none =>
    simp only [findLiteralExtensionExact, hw.extensions] at he'
    exact absurd hk' (findLiteral_none L _ _ _ _ he' r (mem_of_getElem? hr))
  | some e' =>
    have hle := hmax e' (mem_filterMap.mpr ⟨suffix', hs', he'⟩)
    simp only [findLiteralExtensionExact, hw.extensions] at he'
    obtain ⟨rule', hlast', _⟩ := findLiteral_some L _ _ _ _ he'
    exact (hlast'.bound j r hr hk').trans hle

theorem findLiteralExtension_none (hw : program.Wf L) {name : CStr} (h : findLiteralExtension L program name = none) :
    ∀ rule ∈ program.rules, ¬ KeyedExtension L program.casefold name rule := by
  rw [foldl_findLiteralExtension] at h
  have hnil := foldl_better_none _ h
  rintro rule hr ⟨suffix, hs, hk⟩
  have hnone : findLiteralExtensionExact L program suffix = none := by
    have := filterMap_eq_nil_iff.mp hnil suffix hs
    exact this
  simp only [findLiteralExtensionExact, hw.extensions] at hnone
  exact findLiteral_none L _ _ _ _ hnone rule hr hk

def Covers (program : Program) (relativePath : CStr) (isDir : Bool) (rule : Rule) : Prop :=
  entersPrefixTable rule = true ∧
    prefixHit L program.casefold rule.directoryOnly rule.pattern relativePath isDir = true

theorem mem_buildAnchoredPrefixTable {e : AnchoredPrefix} : e ∈ buildAnchoredPrefixTable rules ↔
      ∃ i rule, rules[i]? = some rule ∧ entersPrefixTable rule = true ∧
        e = ⟨rule.pattern, rule.pattern.length, i, rule.result, rule.directoryOnly⟩ :=
  mem_filterMap_zipIdx (fun rule => entersPrefixTable rule = true) fun rule i =>
    AnchoredPrefix.mk rule.pattern rule.pattern.length i rule.result rule.directoryOnly

theorem foldl_findAnchoredPrefix (program : Program) (relativePath : CStr) (isDir : Bool) :
    findAnchoredPrefix L program relativePath isDir =
      (program.anchoredPrefixes.filter fun e =>
        prefixHit L program.casefold e.directoryOnly e.prefixText relativePath isDir).foldl
        (better AnchoredPrefix.ruleIndex) none := by
  unfold findAnchoredPrefix
  rw [foldl_filter]

theorem findAnchoredPrefix_some (hw : program.Wf L) {isDir : Bool}
    {e : AnchoredPrefix} (h : findAnchoredPrefix L program relativePath isDir = some e) :
    ∃ rule, IsLast (Covers L program relativePath isDir) program.rules e.ruleIndex rule ∧
      e.result = rule.result := by
  rw [foldl_findAnchoredPrefix, hw.prefixes] at h
  obtain ⟨hm, hmax⟩ := foldl_better _ h
  obtain ⟨hm, hhit⟩ := mem_filter.mp hm
  obtain ⟨i, rule, hget, hk, rfl⟩ := mem_buildAnchoredPrefixTable.mp hm
  refine ⟨rule, ⟨hget, ⟨hk, hhit⟩, fun j r hr hc => ?_⟩, rfl⟩
  exact hmax ⟨r.pattern, r.pattern.length, j, r.result, r.directoryOnly⟩
    (mem_filter.mpr ⟨mem_buildAnchoredPrefixTable.mpr ⟨j, r, hr, hc.1, rfl⟩, hc.2⟩)

theorem findAnchoredPrefix_none (hw : program.Wf L) {isDir : Bool}
    (h : findAnchoredPrefix L program relativePath isDir = none) :
    ∀ rule ∈ program.rules, ¬ Covers L program relativePath isDir rule := by
  rw [foldl_findAnchoredPrefix, hw.prefixes] at h
  have hnil := filter_eq_nil_iff.mp (foldl_better_none _ h)
  intro rule hr hc
  obtain ⟨i, hi⟩ := mem_iff_getElem?.mp hr
  exact hnil _ (mem_buildAnchoredPrefixTable.mpr ⟨i, rule, hi, hc.1, rfl⟩) hc.2

/-! ## Own tests and table keys agree -/

section
variable {program : Program} {name relativePath : CStr} {isDir : Bool} {rule : Rule}

theorem fold_ne_nil {casefold : Bool} {s t : CStr} (hs : s ≠ []) (h : L.fold casefold s = L.fold casefold t) :
    t ≠ [] := by
  rintro rfl
  cases casefold <;> simp [hs] at h

theorem own_literalBasename (hw : rule.Wf) (hk : rule.kind = .literalBasename) :
    Own L program name relativePath isDir rule ↔ Keyed L .literalBasename id program.casefold name rule := by
  obtain ⟨hd, hm, hr⟩ := wf_literalBasename hw hk
  rw [own_iff_fnmatch L (by simp [hk]), L.fnmatch_literal _ _ _ hm]
  simp only [hr, hd, Keyed, hk, Bool.false_eq_true, if_false, false_imp_iff, true_and, id_eq, Libc.fold]
  exact ⟨fun h => h.2, fun h => ⟨fold_ne_nil L hw.pattern_ne h, h⟩⟩

theorem own_literalDirectory (hw : rule.Wf) (hk : rule.kind = .literalDirectory) :
    Own L program name relativePath isDir rule ↔
      isDir = true ∧ Keyed L .literalDirectory id program.casefold name rule := by
  obtain ⟨hd, hm, hr⟩ := wf_literalDirectory hw hk
  rw [own_iff_fnmatch L (by simp [hk]), L.fnmatch_literal _ _ _ hm]
  simp only [hr, hd, Keyed, hk, Bool.false_eq_true, if_false, true_imp_iff, true_and, id_eq, Libc.fold]
  exact ⟨fun h => h.2, fun h => ⟨fold_ne_nil L hw.pattern_ne h.2, h⟩⟩

theorem mem_dotSuffixes {suffix : CStr} :
    suffix ∈ dotSuffixes name ↔ (∃ pre, name = pre ++ suffix) ∧ suffix.head? = some '.' := by
  unfold dotSuffixes
  rw [mem_filter, mem_tails, decide_eq_true_iff]
  constructor
  · rintro ⟨⟨pre, h⟩, hd⟩; exact ⟨⟨pre, h.symm⟩, hd⟩
  · rintro ⟨⟨pre, h⟩, hd⟩; exact ⟨⟨pre, h.symm⟩, hd⟩

theorem own_literalExtension (hw : rule.Wf) (hk : rule.kind = .literalExtension) :
    Own L program name relativePath isDir rule ↔ KeyedExtension L program.casefold name rule := by
  obtain ⟨ext, hp, hm, hd, hr⟩ := wf_literalExtension hw hk
  rw [own_iff_fnmatch L (by simp [hk]), hp, hr]
  simp only [Bool.false_eq_true, if_false, L.fnmatch_star _ _ _ hm, hd, false_imp_iff, true_and]
  unfold KeyedExtension Keyed
  simp only [hk, hp, drop_succ_cons, drop_zero, true_and]
  constructor
  · rintro ⟨_, pre, suf, hn, hf⟩
    exact ⟨suf, mem_dotSuffixes.mpr ⟨⟨pre, hn⟩, L.fold_dot hf⟩, hf⟩
  · rintro ⟨suf, hs, hf⟩
    obtain ⟨⟨pre, hn⟩, hdot⟩ := mem_dotSuffixes.mp hs
    refine ⟨?_, pre, suf, hn, hf⟩
    rintro rfl
    have : suf = [] := by simpa using (append_eq_nil_iff.mp hn.symm).2
    subst this; cases hdot

end

/-! ## Scanning from the end -/

section
variable {test : Rule → MatchResult} {rules : List Rule} {p : Rule → Prop}

theorem scanRules_some (ht : ∀ rule, p rule → test rule = rule.result) (hn : ∀ rule, ¬ p rule → test rule = .noMatch)
    (stop : Nat) : ∀ n, n ≤ rules.length → scanRules test rules stop n ≠ .noMatch →
      ∃ i rule, stop ≤ i ∧ i < n ∧ rules[i]? = some rule ∧ p rule ∧ scanRules test rules stop n = rule.result ∧
        ∀ j r, rules[j]? = some r → p r → j < n → j ≤ i
  | 0, _, h => absurd rfl h
  | n + 1, hle, h => by
    unfold scanRules at h ⊢
    by_cases hstop : n < stop
    · simp [hstop] at h
    · have hget : rules[n]? = some rules[n] := getElem?_eq_getElem (by omega)
      rw [if_neg hstop, hget] at h ⊢
      simp only at h ⊢
      by_cases hp : p rules[n]
      · refine ⟨n, rules[n], by omega, by omega, hget, hp, ?_, fun j _ _ _ hj => by omega⟩
        rw [ht _ hp, orElse_of_ne (Rule.result_ne _)]
      · rw [hn _ hp, orElse_noMatch] at h ⊢
        obtain ⟨i, rule, hi, hin, hr, hpr, heq, hlast⟩ := scanRules_some ht hn stop n (by omega) h
        refine ⟨i, rule, hi, by omega, hr, hpr, heq, fun j r hj hpj hlt => ?_⟩
        by_cases hjn : j = n
        · subst hjn
          rw [hget] at hj
          exact absurd (Option.some.inj hj ▸ hpj) hp
        · exact hlast j r hj hpj (by omega)

theorem scanRules_none (ht : ∀ rule, p rule → test rule = rule.result) (stop : Nat) :
    ∀ n, n ≤ rules.length → scanRules test rules stop n = .noMatch →
      ∀ j r, rules[j]? = some r → stop ≤ j → j < n → ¬ p r
  | 0, _, _, _, _, _, _, hj => absurd hj (Nat.not_lt_zero _)
  | n + 1, hle, h, j, r, hr, hsj, hj => by
    have hget : rules[n]? = some rules[n] := getElem?_eq_getElem (by omega)
    unfold scanRules at h
    rw [if_neg (by omega), hget] at h
    simp only at h
    have hfirst : test rules[n] = .noMatch := by
      by_contra hne
      rw [orElse_of_ne hne] at h; exact hne h
    by_cases hjn : j = n
    · subst hjn
      rw [hget] at hr
      intro hp
      rw [← Option.some.inj hr] at hp
      exact Rule.result_ne _ ((ht _ hp).symm.trans hfirst)
    · rw [hfirst, orElse_noMatch] at h
      exact scanRules_none ht stop n (by omega) h j r hr hsj (by omega)

end

theorem scanRules_answers {test : Rule → MatchResult}
    (ht : ∀ rule, p rule → test rule = rule.result) (hn : ∀ rule, ¬ p rule → test rule = .noMatch) :
    Answers p rules (scanRules test rules 0 rules.length) := by
  by_cases hscan : scanRules test rules 0 rules.length = .noMatch
  · refine Or.inr ⟨fun rule hr => ?_, hscan⟩
    obtain ⟨j, hj⟩ := mem_iff_getElem?.mp hr
    exact scanRules_none ht 0 _ (le_rfl) hscan j rule hj (Nat.zero_le _) (List.getElem?_eq_some_iff.mp hj).1
  · obtain ⟨i, rule, _, _, hr, hp, heq, hmax⟩ := scanRules_some ht hn 0 _ (le_rfl) hscan
    exact Or.inl ⟨i, rule, ⟨hr, hp, fun j b hb hpb => hmax j b hb hpb (List.getElem?_eq_some_iff.mp hb).1⟩, heq⟩

theorem clampStart_last (h : rules ≠ []) : clampStart rules (rules.length - 1) + 1 = rules.length := by
  have := length_pos_iff.mpr h
  unfold clampStart
  rw [if_neg (by omega)]
  omega

section
variable {program : Program} {name relativePath : CStr} {isDir : Bool}

theorem matchAfter_eq (hne : program.rules ≠ []) (i : Nat) :
    matchAfter L program name relativePath isDir i =
      scanRules (fun rule => matchRule L program rule name relativePath isDir) program.rules (i + 1)
        program.rules.length := by
  unfold matchAfter matchRulesFrom
  rw [if_neg (by simpa using hne), clampStart_last hne]

theorem matchRule_of_not_own (h : ¬ Own L program name relativePath isDir rule) :
    matchRule L program rule name relativePath isDir = .noMatch := by
  unfold Own at h; exact Decidable.not_not.mp h

theorem matchHit_some (hw : program.Wf L) (hlast : IsLast t program.rules i rule) :
    Answers (fun r => Own L program name relativePath isDir r ∨ t r) program.rules
      (matchHit L program name relativePath isDir (some (i, rule.result))) := by
  unfold matchHit
  rw [if_neg (by simpa using hw.rules_ne)]
  simp only
  rw [matchAfter_eq L hw.rules_ne]
  have hown : ∀ r, Own L program name relativePath isDir r →
      matchRule L program r name relativePath isDir = r.result := fun r hr => matchRule_of_own L hr
  by_cases hscan : scanRules (fun rule => matchRule L program rule name relativePath isDir) program.rules (i + 1)
      program.rules.length = .noMatch
  · -- no later rule answers: the hit is the last
    have hnone := scanRules_none hown (i + 1) _ (le_rfl) hscan
    rw [hscan, orElse_noMatch]
    refine Or.inl ⟨i, rule, hlast.or_right fun j r hr hor => ?_, rfl⟩
    by_contra hgt
    exact hnone j r hr (by omega) (List.getElem?_eq_some_iff.mp hr).1 hor
  · obtain ⟨k, r, hk, _, hr, hor, heq, hmax⟩ :=
      scanRules_some hown (fun r hr => matchRule_of_not_own L hr) (i + 1) _ (le_rfl) hscan
    rw [orElse_of_ne hscan, heq]
    refine Or.inl ⟨k, r, ?_, rfl⟩
    refine IsLast.or_left ⟨hr, hor, fun j b hb hp => ?_⟩ fun j b hb ht => ?_
    · exact hmax j b hb hp (List.getElem?_eq_some_iff.mp hb).1
    · have := hlast.bound j b hb ht
      omega

@[simp] theorem matchHit_none : matchHit L program name relativePath isDir none = .noMatch := by
  unfold matchHit; split <;> rfl

theorem matchHit_own (hw : program.Wf L) (hlast : IsLast t program.rules i rule)
    (hown : ∀ r ∈ program.rules, t r → Own L program name relativePath isDir r) :
    Answers (Own L program name relativePath isDir) program.rules
      (matchHit L program name relativePath isDir (some (i, rule.result))) :=
  (matchHit_some L hw hlast).congr fun r hr => ⟨fun h => h.elim id (hown r hr), Or.inl⟩

end

/-! ## The literal stages -/

def RuleKind.isLiteral : RuleKind → Bool
  | .literalBasename => true
  | .literalExtension => true
  | .literalDirectory => true
  | _ => false

section
variable (program : Program) (name relativePath : CStr) (isDir : Bool)

/-- A stage answers as the rules' own tests do if a rule of its kind passes its own test. -/
def StageOf (kind : RuleKind) (r : MatchResult) : Prop :=
  (Answers (Own L program name relativePath isDir) program.rules r ∧
    ∃ rule ∈ program.rules, rule.kind = kind ∧ Own L program name relativePath isDir rule) ∨
  (r = .noMatch ∧ ∀ rule ∈ program.rules, rule.kind = kind → ¬ Own L program name relativePath isDir rule)

end

section
variable {program : Program} (hw : program.Wf L) (name relativePath : CStr) (isDir : Bool)

theorem stage_ne_noMatch {kind : RuleKind} (hr : Answers (Own L program name relativePath isDir) program.rules r)
    (hex : ∃ rule ∈ program.rules, rule.kind = kind ∧ Own L program name relativePath isDir rule) :
    r ≠ .noMatch := by
  obtain ⟨rule, hm, _, hown⟩ := hex
  exact hr.ne_noMatch ⟨rule, hm, hown⟩

theorem stage_hit (hw : program.Wf L) {kind : RuleKind} (hlast : IsLast t program.rules i rule)
    (hown : ∀ r ∈ program.rules, t r → r.kind = kind ∧ Own L program name relativePath isDir r) :
    StageOf L program name relativePath isDir kind
      (matchHit L program name relativePath isDir (some (i, rule.result))) :=
  Or.inl ⟨matchHit_own L hw hlast fun r hr ht => (hown r hr ht).2, rule, hlast.mem, hown rule hlast.mem hlast.sat⟩

include hw

theorem stage_basename : StageOf L program name relativePath isDir .literalBasename
      (matchLiteralBasename L program name relativePath isDir) := by
  unfold matchLiteralBasename
  cases h : findLiteralBasename L program name with
  | none =>
    rw [findLiteralBasename, hw.basenames] at h
    refine Or.inr ⟨matchHit_none L, fun rule hr hk hown => ?_⟩
    exact findLiteral_none L _ _ _ _ h rule hr ((own_literalBasename L (hw.rules_wf rule hr) hk).mp hown)
  | some e =>
    rw [findLiteralBasename, hw.basenames] at h
    obtain ⟨rule, hlast, hres⟩ := findLiteral_some L _ _ _ _ h
    rw [Option.map_some, hres]
    refine stage_hit L name relativePath isDir hw hlast fun r hr hk => ?_
    exact ⟨hk.1, (own_literalBasename L (hw.rules_wf r hr) hk.1).mpr hk⟩

theorem stage_extension : StageOf L program name relativePath isDir .literalExtension
      (matchLiteralExtension L program name relativePath isDir) := by
  unfold matchLiteralExtension
  cases h : findLiteralExtension L program name with
  | none =>
    refine Or.inr ⟨matchHit_none L, fun rule hr hk hown => ?_⟩
    exact findLiteralExtension_none L hw h rule hr ((own_literalExtension L (hw.rules_wf rule hr) hk).mp hown)
  | some e =>
    obtain ⟨rule, hlast, hres⟩ := findLiteralExtension_some L hw h
    rw [Option.map_some, hres]
    refine stage_hit L name relativePath isDir hw hlast fun r hr hk => ?_
    have hkind : r.kind = .literalExtension := by
      obtain ⟨_, _, hkey⟩ := hk
      exact hkey.1
    exact ⟨hkind, (own_literalExtension L (hw.rules_wf r hr) hkind).mpr hk⟩

theorem stage_directory : StageOf L program name relativePath isDir .literalDirectory
      (matchLiteralDirectory L program name relativePath isDir) := by
  unfold matchLiteralDirectory
  by_cases hd : isDir = true
  · rw [if_pos hd]
    cases h : findLiteralDirectory L program name with
    | none =>
      rw [findLiteralDirectory, hw.directories] at h
      refine Or.inr ⟨matchHit_none L, fun rule hr hk hown => ?_⟩
      exact findLiteral_none L _ _ _ _ h rule hr ((own_literalDirectory L (hw.rules_wf rule hr) hk).mp hown).2
    | some e =>
      rw [findLiteralDirectory, hw.directories] at h
      obtain ⟨rule, hlast, hres⟩ := findLiteral_some L _ _ _ _ h
      rw [Option.map_some, hres]
      refine stage_hit L name relativePath isDir hw hlast fun r hr hk => ?_
      exact ⟨hk.1, (own_literalDirectory L (hw.rules_wf r hr) hk.1).mpr ⟨hd, hk⟩⟩
  · rw [if_neg hd]
    refine Or.inr ⟨matchHit_none L, fun rule hr hk hown => ?_⟩
    exact hd ((own_literalDirectory L (hw.rules_wf rule hr) hk).mp hown).1

end

/-! ## The whole match -/

theorem foldl_mask_ne_zero (rules : List Rule) (mask : Nat) (h : mask ≠ 0 ∨ ∃ rule ∈ rules, rule.kind = .genericGlob) :
    rules.foldl (fun mask rule => if rule.kind = .genericGlob then mask ||| sourceMask rule.source else mask) mask ≠ 0 := by
  induction rules generalizing mask with
  | nil => simpa using h
  | cons rule rules ih =>
    rw [foldl_cons]
    apply ih
    by_cases hk : rule.kind = .genericGlob
    · left
      rw [if_pos hk]
      intro h0
      have := (Nat.or_eq_zero_iff.mp h0).2
      cases hs : rule.source <;> rw [hs] at this <;> exact absurd this (by decide)
    · rw [if_neg hk]
      rcases h with h | ⟨r, hr, hrk⟩
      · exact Or.inl h
      · rcases mem_cons.mp hr with rfl | hr
        · exact absurd hrk hk
        · exact Or.inr ⟨r, hr, hrk⟩

section
variable {program : Program} (hw : program.Wf L) (name relativePath : CStr) (isDir : Bool)
include hw

theorem hasGenericGlobFallback_of_rule (hex : ∃ rule ∈ program.rules, rule.kind = .genericGlob) :
    hasGenericGlobFallback program = true := by
  unfold hasGenericGlobFallback
  rw [hw.mask_eq]
  exact decide_eq_true (foldl_mask_ne_zero program.rules 0 (Or.inr hex))

theorem matchGenericGlobFallback_answers :
    Answers (fun rule => rule.kind = .genericGlob ∧ Own L program name relativePath isDir rule) program.rules
      (matchGenericGlobFallback L program name relativePath isDir) := by
  unfold matchGenericGlobFallback
  rw [if_neg (by simpa using hw.rules_ne)]
  by_cases hf : hasGenericGlobFallback program = true
  · rw [if_neg (by simp [hf])]
    unfold matchGenericRulesFrom
    rw [if_neg (by simpa using hw.rules_ne), clampStart_last hw.rules_ne]
    apply scanRules_answers
    · intro rule h
      simp only [h.1, ne_eq, not_true_eq_false, if_false]
      exact matchRule_of_own L h.2
    · intro rule h
      by_cases hk : rule.kind = .genericGlob
      · simp only [hk, ne_eq, not_true_eq_false, if_false]
        exact matchRule_of_not_own L fun ho => h ⟨hk, ho⟩
      · simp [hk]
  · rw [if_pos (by simpa using hf)]
    exact Or.inr ⟨fun rule hr h => hf (hasGenericGlobFallback_of_rule L hw ⟨rule, hr, h.1⟩), rfl⟩

theorem programMatch_of_literal
    (hlit : ∃ rule ∈ program.rules, rule.kind.isLiteral = true ∧ Own L program name relativePath isDir rule) :
    Answers (Own L program name relativePath isDir) program.rules (programMatch L program name relativePath isDir) := by
  unfold programMatch matchWithoutGenericGlobFallback
  rcases stage_basename L hw name relativePath isDir with ⟨h1, hex⟩ | ⟨e1, n1⟩
  · have hne := stage_ne_noMatch L name relativePath isDir h1 hex
    rwa [orElse_of_ne hne, orElse_of_ne hne]
  rw [e1, orElse_noMatch]
  rcases stage_extension L hw name relativePath isDir with ⟨h2, hex⟩ | ⟨e2, n2⟩
  · have hne := stage_ne_noMatch L name relativePath isDir h2 hex
    rwa [orElse_of_ne hne, orElse_of_ne hne]
  rw [e2, orElse_noMatch]
  rcases stage_directory L hw name relativePath isDir with ⟨h3, hex⟩ | ⟨_, n3⟩
  · have hne := stage_ne_noMatch L name relativePath isDir h3 hex
    rwa [orElse_of_ne hne, orElse_of_ne hne]
  -- no literal rule is left
  obtain ⟨rule, hr, hk, hown⟩ := hlit
  cases hkind : rule.kind with
  | literalBasename => exact absurd hown (n1 rule hr hkind)
  | literalExtension => exact absurd hown (n2 rule hr hkind)
  | literalDirectory => exact absurd hown (n3 rule hr hkind)
  | invalid => rw [hkind] at hk; cases hk
  | anchoredPrefix => rw [hkind] at hk; cases hk
  | genericGlob => rw [hkind] at hk; cases hk

theorem programMatch_of_not_literal
    (hlit : ¬ ∃ rule ∈ program.rules, rule.kind.isLiteral = true ∧ Own L program name relativePath isDir rule) :
    Answers (fun rule => Own L program name relativePath isDir rule ∨ Covers L program relativePath isDir rule)
      program.rules (programMatch L program name relativePath isDir) := by
  have hstage : ∀ {kind r}, kind.isLiteral = true → StageOf L program name relativePath isDir kind r →
      r = .noMatch := by
    rintro kind r hk (⟨_, rule, hr, hkind, hown⟩ | ⟨h, _⟩)
    · exact absurd ⟨rule, hr, hkind ▸ hk, hown⟩ hlit
    · exact h
  unfold programMatch matchWithoutGenericGlobFallback
  rw [hstage rfl (stage_basename L hw name relativePath isDir), orElse_noMatch,
    hstage rfl (stage_extension L hw name relativePath isDir), orElse_noMatch,
    hstage rfl (stage_directory L hw name relativePath isDir), orElse_noMatch]
  unfold matchAnchoredPrefix
  cases h : findAnchoredPrefix L program relativePath isDir with
  | some e =>
    obtain ⟨rule, hlast, hres⟩ := findAnchoredPrefix_some L hw h
    rw [Option.map_some, hres]
    have hans : Answers (fun r => Own L program name relativePath isDir r ∨ Covers L program relativePath isDir r)
        program.rules (matchHit L program name relativePath isDir (some (e.ruleIndex, rule.result))) :=
      matchHit_some L hw hlast
    rwa [orElse_of_ne (hans.ne_noMatch ⟨rule, hlast.mem, Or.inr hlast.sat⟩)]
  | none =>
    rw [Option.map_none, matchHit_none, orElse_noMatch]
    refine (matchGenericGlobFallback_answers L hw name relativePath isDir).congr fun rule hr => ⟨fun h => Or.inl h.2, ?_⟩
    have hno := findAnchoredPrefix_none L hw h rule hr
    rintro (hown | hc)
    · refine ⟨?_, hown⟩
      have hl : rule.kind.isLiteral ≠ true := fun h => hlit ⟨rule, hr, h, hown⟩
      cases hkind : rule.kind with
      | genericGlob => rfl
      | invalid =>
        have hwf := hw.rules_wf rule hr
        exact absurd (hwf.kind_eq.symm.trans hkind) (ruleClassify_ne_invalid hwf.pattern_ne)
      | anchoredPrefix =>
        exact absurd ⟨by simp [entersPrefixTable, hkind], (own_anchoredPrefix L hkind).mp hown⟩ hno
      | literalBasename => exact absurd (by rw [hkind]; rfl) hl
      | literalExtension => exact absurd (by rw [hkind]; rfl) hl
      | literalDirectory => exact absurd (by rw [hkind]; rfl) hl
    · exact absurd hc hno

end

/-! ## The last rule wins, up to covering directories -/

section
variable (program : Program) (name relativePath : CStr) (isDir : Bool)

def ruleMatches (rule : Rule) : Bool :=
  matchRule L program rule name relativePath isDir ≠ .noMatch ||
    (entersPrefixTable rule && prefixHit L program.casefold rule.directoryOnly rule.pattern relativePath isDir)

def lastMatch : MatchResult :=
  match program.rules.reverse.find? (ruleMatches L program name relativePath isDir) with
  | some rule => rule.result
  | none => .noMatch

/-- A literal rule names the entry itself, while the last rule of all that
matches is a directory rule that only covers the entry from above and says the
opposite of the last rule that passes its own test. -/
def OverruledByDirectory : Prop :=
  (∃ rule ∈ program.rules, rule.kind.isLiteral = true ∧ Own L program name relativePath isDir rule) ∧
    ∃ i named j dir, IsLast (Own L program name relativePath isDir) program.rules i named ∧
      IsLast (Covers L program relativePath isDir) program.rules j dir ∧ i < j ∧ dir.negate ≠ named.negate

theorem ruleMatches_iff (rule : Rule) : ruleMatches L program name relativePath isDir rule = true ↔
      Own L program name relativePath isDir rule ∨ Covers L program relativePath isDir rule := by
  unfold ruleMatches Own Covers
  rw [Bool.or_eq_true, Bool.and_eq_true, decide_eq_true_iff]

theorem lastMatch_answers :
    Answers (fun rule => Own L program name relativePath isDir rule ∨ Covers L program relativePath isDir rule)
      program.rules (lastMatch L program name relativePath isDir) := by
  unfold lastMatch
  cases h : program.rules.reverse.find? (ruleMatches L program name relativePath isDir) with
  | none =>
    refine Or.inr ⟨fun rule hr hm => ?_, rfl⟩
    have := find?_eq_none.mp h rule (mem_reverse.mpr hr)
    exact this ((ruleMatches_iff L program name relativePath isDir rule).mpr hm)
  | some rule =>
    obtain ⟨i, hi⟩ := find?_reverse_some h
    exact Or.inl ⟨i, rule, hi.congr fun r _ => ruleMatches_iff L program name relativePath isDir r, rfl⟩

theorem own_answer_eq_lastMatch_iff (hr : Answers (Own L program name relativePath isDir) program.rules r)
    (hlit : ∃ rule ∈ program.rules, rule.kind.isLiteral = true ∧ Own L program name relativePath isDir rule) :
    r = lastMatch L program name relativePath isDir ↔ ¬ OverruledByDirectory L program name relativePath isDir := by
  have hlast := lastMatch_answers L program name relativePath isDir
  rcases hr with ⟨i, named, hnamed, rfl⟩ | ⟨hno, _⟩
  · by_cases hcov : ∃ rule ∈ program.rules, Covers L program relativePath isDir rule
    · obtain ⟨j, dir, hdir⟩ := exists_isLast hcov
      rcases lt_or_ge i j with hij | hij
      · -- the covering directory comes last
        have hans : lastMatch L program name relativePath isDir = dir.result :=
          hlast.unique (Or.inl ⟨j, dir, hdir.or_right fun k b hb hp => (hnamed.bound k b hb hp).trans hij.le, rfl⟩)
        rw [hans, Rule.result_eq_iff]
        constructor
        · rintro heq ⟨_, i', named', j', dir', hn', hd', _, hne⟩
          rw [hn'.unique hnamed, hd'.unique hdir] at hne
          exact hne heq.symm
        · intro hnot
          by_contra hne
          exact hnot ⟨hlit, i, named, j, dir, hnamed, hdir, hij, fun h => hne h.symm⟩
      · have hans : lastMatch L program name relativePath isDir = named.result :=
          hlast.unique (Or.inl ⟨i, named, hnamed.or_left fun k b hb hp => (hdir.bound k b hb hp).trans hij, rfl⟩)
        refine iff_of_true hans.symm ?_
        rintro ⟨_, i', named', j', dir', hn', hd', hlt, _⟩
        rw [hn'.index_eq hnamed, hd'.index_eq hdir] at hlt
        omega
    · have hans : lastMatch L program name relativePath isDir = named.result :=
        hlast.unique (Or.inl ⟨i, named, hnamed.or_left fun k b hb hp =>
          absurd ⟨b, mem_of_getElem? hb, hp⟩ hcov, rfl⟩)
      refine iff_of_true hans.symm ?_
      rintro ⟨_, _, _, _, dir', _, hd', _⟩
      exact hcov ⟨dir', hd'.mem, hd'.sat⟩
  · obtain ⟨rule, hm, _, hown⟩ := hlit
    exact absurd hown (hno rule hm)

end

/-- **Last match wins**, exactly where no covering directory rule overrules the
rules that name the entry. -/
theorem programMatch_eq_lastMatch_iff {patterns : List (Option CStr)} {casefold : Bool} {program : Program}
    (hc : compile L patterns casefold = some program) (name relativePath : CStr) (isDir : Bool) :
    programMatch L program name relativePath isDir = lastMatch L program name relativePath isDir ↔
      ¬ OverruledByDirectory L program name relativePath isDir := by
  have hw : program.Wf L := compileWithSources_wf L hc
  by_cases hlit : ∃ rule ∈ program.rules, rule.kind.isLiteral = true ∧ Own L program name relativePath isDir rule
  · exact own_answer_eq_lastMatch_iff L program name relativePath isDir
      (programMatch_of_literal L hw name relativePath isDir hlit) hlit
  · refine iff_of_true ?_ fun h => hlit h.1
    exact (programMatch_of_not_literal L hw name relativePath isDir hlit).unique
      (lastMatch_answers L program name relativePath isDir)

end

theorem programMatch_eq_lastMatch_iff_keep : ∃ program,
    compile posixLibc [some "*.o".toList, some "!keep.o".toList] false = some program ∧
      (programMatch posixLibc program "keep.o".toList "lib/keep.o".toList false =
          lastMatch posixLibc program "keep.o".toList "lib/keep.o".toList false ↔
        ¬ OverruledByDirectory posixLibc program "keep.o".toList "lib/keep.o".toList false) := by
  have hc : compile posixLibc [some "*.o".toList, some "!keep.o".toList] false = some _ := rfl
  exact ⟨_, hc, programMatch_eq_lastMatch_iff posixLibc hc _ _ _⟩

/-- `!a` then `b/`, asked for `b/a`: the rescan after `!a` does not see `b/`. -/
theorem programMatch_misses_covering_directory :
    ¬ ∀ (L : Libc) (patterns : List (Option CStr)) (casefold : Bool) (program : Program),
      compile L patterns casefold = some program → ∀ (relativePath : CStr) (isDir : Bool),
        programMatch L program (PathOps.basenamePtr relativePath) relativePath isDir =
          lastMatch L program (PathOps.basenamePtr relativePath) relativePath isDir := by
  intro h
  have hans := h posixLibc [some "!a".toList, some "b/".toList] false _ rfl "b/a".toList false
  revert hans
  decide +kernel

end Bx.IgnoreProgram
