import Bx.Ash.Pattern

/-!
# What a pattern matches

A pattern is read as its elements, and it matches a candidate that splits into what they take. The loop only ever goes
back to the last `*`: whatever an earlier one would take more the later one can take.
-/

namespace Bx.Ash

open Bx.Kit List

/-! ## Brackets -/

section
variable {L : PatternLocale} {fold : Bool} {c first : Char} {rest members : CStr} {matched : Bool}

end

/-! ## Splitting a candidate -/

section
variable (L : PatternLocale) (o : PatternOptions) (text : CStr)

def LeadingDot (k : Nat) : Prop := text[k]? = some '.' ∧ (k = 0 ∨ text[k - 1]? = some '/')

def Allowed (k : Nat) : Prop :=
  o.domain = .pathname → text[k]? ≠ some '/' ∧ (o.matchDotfiles = false → ¬LeadingDot text k)

/-- A `*` does not even stand in front of a leading dot. -/
def StarPlaced (k : Nat) : Prop := o.domain = .pathname → o.matchDotfiles = false → ¬LeadingDot text k

def SameCharacter (c d : Char) : Prop := if o.caseInsensitive then L.towlower c = L.towlower d else c = d

variable (starAt : Nat → Prop)

/-- The element takes the characters of the candidate from `i` to `j`. -/
def Takes : Term → Nat → Nat → Prop
  | .literal span, i, j =>
    j = i + span.length ∧ ∀ t c, span[t]? = some c → ∃ d, text[i + t]? = some d ∧ SameCharacter L o c d
  | .anyString, i, j => i ≤ j ∧ starAt i ∧ ∀ k, i ≤ k → k < j → Allowed o text k
  | .anyCharacter, i, j => j = i + 1 ∧ i < text.length ∧ Allowed o text i
  | .bracket span, i, j =>
    j = i + 1 ∧ Allowed o text i ∧ ∃ c, text[i]? = some c ∧ bracket L o.caseInsensitive span c = .match
  | .pathSeparator, i, j => j = i + 1 ∧ text[i]? = some '/'
  | .globstar, _, _ => False
  | .extglob _ _, _, _ => False

/-- The candidate from `i` to `j` splits into what the elements take. -/
def Splits : List Term → Nat → Nat → Prop
  | [], i, j => i = j
  | term :: terms, i, j => ∃ k, Takes L o text starAt term i k ∧ Splits terms k j

end

section
variable {L : PatternLocale} {o : PatternOptions} {text : CStr} {starAt : Nat → Prop}
variable {term : Term} {as bs terms : List Term} {i j k : Nat}

theorem splits_append : Splits L o text starAt (as ++ bs) i k ↔
    ∃ j, Splits L o text starAt as i j ∧ Splits L o text starAt bs j k := by
  induction as generalizing i with
  | nil =>
    refine ⟨fun h => ⟨i, rfl, h⟩, ?_⟩
    intro ⟨j, hj, h⟩
    rw [show i = j from hj]
    exact h
  | cons a as ih =>
    refine ⟨?_, ?_⟩
    · intro ⟨m, ha, h⟩
      obtain ⟨j, has, hbs⟩ := ih.mp h
      exact ⟨j, ⟨m, ha, has⟩, hbs⟩
    · intro ⟨j, ⟨m, ha, has⟩, hbs⟩
      exact ⟨m, ha, ih.mpr ⟨j, has, hbs⟩⟩

@[simp] theorem splits_singleton : Splits L o text starAt [term] i j ↔ Takes L o text starAt term i j := by
  refine ⟨?_, fun h => ⟨j, h, rfl⟩⟩
  intro ⟨k, hk, hkj⟩
  rw [← show k = j from hkj]
  exact hk

theorem Takes.le (h : Takes L o text starAt term i j) : i ≤ j := by
  cases term with
  | literal span => exact h.1 ▸ Nat.le_add_right _ _
  | anyString => exact h.1
  | anyCharacter => exact h.1 ▸ Nat.le_succ _
  | bracket span => exact h.1 ▸ Nat.le_succ _
  | pathSeparator => exact h.1 ▸ Nat.le_succ _
  | globstar => exact h.elim
  | extglob _ _ => exact h.elim

theorem Splits.le (h : Splits L o text starAt terms i j) : i ≤ j := by
  induction terms generalizing i with
  | nil => exact le_of_eq h
  | cons term terms ih =>
    obtain ⟨k, htakes, hrest⟩ := h
    exact Nat.le_trans htakes.le (ih hrest)

theorem Takes.unique (hterm : term ≠ .anyString) (hj : Takes L o text starAt term i j)
    (hk : Takes L o text starAt term i k) : j = k := by
  cases term with
  | literal span => rw [hj.1, hk.1]
  | anyString => exact absurd rfl hterm
  | anyCharacter => rw [hj.1, hk.1]
  | bracket span => rw [hj.1, hk.1]
  | pathSeparator => rw [hj.1, hk.1]
  | globstar => exact hj.elim
  | extglob _ _ => exact hj.elim

theorem getElem?_lt {α : Type*} {l : List α} {n : Nat} {a : α} (h : l[n]? = some a) : n < l.length :=
  (List.getElem?_eq_some_iff.mp h).1

theorem Takes.le_length (hterm : term ≠ .anyString) (hi : i ≤ text.length)
    (h : Takes L o text starAt term i j) : j ≤ text.length := by
  cases term with
  | literal span =>
    obtain ⟨rfl, hsame⟩ := h
    by_cases hspan : span.length = 0
    · omega
    · obtain ⟨d, hd, _⟩ := hsame (span.length - 1) _ (getElem?_eq_getElem (by omega))
      have := getElem?_lt hd
      omega
  | anyString => exact absurd rfl hterm
  | anyCharacter => exact h.1 ▸ h.2.1
  | bracket span =>
    obtain ⟨rfl, _, c, hc, _⟩ := h
    exact getElem?_lt hc
  | pathSeparator =>
    obtain ⟨rfl, hc⟩ := h
    exact getElem?_lt hc
  | globstar => exact h.elim
  | extglob _ _ => exact h.elim

/-! ## One character at a time -/

def Term.spread : Term → List Term
  | .literal span => span.map fun c => .literal [c]
  | term => [term]

theorem takes_literal_cons {c : Char} {span : CStr} : Takes L o text starAt (.literal (c :: span)) i j ↔
    Takes L o text starAt (.literal [c]) i (i + 1) ∧ Takes L o text starAt (.literal span) (i + 1) j := by
  unfold Takes
  refine ⟨?_, ?_⟩
  · intro ⟨hj, h⟩
    refine ⟨⟨rfl, ?_⟩, ?_, ?_⟩
    · intro t d hd
      cases t with
      | zero => exact h 0 d hd
      | succ t => simp at hd
    · rw [hj, length_cons]
      omega
    · intro t d hd
      rw [show i + 1 + t = i + (t + 1) by omega]
      exact h (t + 1) d (by simpa using hd)
  · intro ⟨⟨_, hc⟩, hj, h⟩
    refine ⟨?_, ?_⟩
    · rw [hj, length_cons]
      omega
    · intro t d hd
      cases t with
      | zero => exact hc 0 d hd
      | succ t =>
        rw [show i + (t + 1) = i + 1 + t by omega]
        exact h t d (by simpa using hd)

theorem splits_spread_term : Splits L o text starAt term.spread i j ↔ Takes L o text starAt term i j := by
  cases term with
  | literal span =>
    induction span generalizing i with
    | nil => simp [Term.spread, Splits, Takes, eq_comm]
    | cons c span ih =>
      rw [takes_literal_cons, ← ih]
      refine ⟨?_, ?_⟩
      · intro ⟨k, hc, h⟩
        obtain rfl : k = i + 1 := hc.1
        exact ⟨hc, h⟩
      · intro ⟨hc, h⟩
        exact ⟨i + 1, hc, h⟩
  | anyString => exact splits_singleton
  | anyCharacter => exact splits_singleton
  | bracket span => exact splits_singleton
  | pathSeparator => exact splits_singleton
  | globstar => exact splits_singleton
  | extglob _ _ => exact splits_singleton

theorem splits_spread : Splits L o text starAt (terms.flatMap Term.spread) i j ↔ Splits L o text starAt terms i j := by
  induction terms generalizing i with
  | nil => exact Iff.rfl
  | cons term terms ih =>
    rw [flatMap_cons, splits_append]
    refine ⟨?_, ?_⟩
    · intro ⟨k, hterm, hterms⟩
      exact ⟨k, splits_spread_term.mp hterm, ih.mp hterms⟩
    · intro ⟨k, hterm, hterms⟩
      exact ⟨k, splits_spread_term.mpr hterm, ih.mpr hterms⟩

/-- Elements other than `*`, one character each. -/
def OneEach (terms : List Term) : Prop :=
  ∀ term ∈ terms, term ≠ .anyString ∧ ∀ span, term = .literal span → span.length = 1

theorem oneEach_spread (h : .anyString ∉ terms) : OneEach (terms.flatMap Term.spread) := by
  intro unit hunit
  obtain ⟨term, hterm, hunit⟩ := mem_flatMap.mp hunit
  have hstar : term ≠ .anyString := fun heq => h (heq ▸ hterm)
  cases term with
  | literal span =>
    obtain ⟨c, _, rfl⟩ := mem_map.mp hunit
    refine ⟨by simp, ?_⟩
    intro span hspan
    cases hspan
    rfl
  | anyString => exact absurd rfl hstar
  | anyCharacter => simp_all [Term.spread]
  | bracket span => simp_all [Term.spread]
  | pathSeparator => simp_all [Term.spread]
  | globstar => simp_all [Term.spread]
  | extglob _ _ => simp_all [Term.spread]

theorem OneEach.takes (hones : OneEach terms) (hterm : term ∈ terms) (h : Takes L o text starAt term i j) :
    j = i + 1 := by
  obtain ⟨hstar, hspan⟩ := hones term hterm
  cases term with
  | literal span => rw [h.1, hspan span rfl]
  | anyString => exact absurd rfl hstar
  | anyCharacter => exact h.1
  | bracket span => exact h.1
  | pathSeparator => exact h.1
  | globstar => exact h.elim
  | extglob _ _ => exact h.elim

theorem OneEach.splits (hones : OneEach terms) (h : Splits L o text starAt terms i j) :
    j = i + terms.length ∧ ∀ n term, terms[n]? = some term → Takes L o text starAt term (i + n) (i + n + 1) := by
  induction terms generalizing i with
  | nil =>
    refine ⟨Eq.symm h, ?_⟩
    intro n term hn
    cases hn
  | cons first terms ih =>
    obtain ⟨k, hfirst, hrest⟩ := h
    obtain rfl : k = i + 1 := hones.takes mem_cons_self hfirst
    obtain ⟨hj, htakes⟩ := ih (fun term hterm => hones term (mem_cons_of_mem _ hterm)) hrest
    refine ⟨?_, ?_⟩
    · rw [hj, length_cons]
      omega
    · intro n term hn
      cases n with
      | zero =>
        cases hn
        exact hfirst
      | succ n =>
        rw [show i + (n + 1) = i + 1 + n by omega]
        exact htakes n term (by simpa using hn)

theorem SameCharacter.slash {c d : Char} (hc : SameCharacter L o c '/') (hd : SameCharacter L o c d) : d = '/' := by
  unfold SameCharacter at hc hd
  by_cases hfold : o.caseInsensitive = true
  · rw [if_pos hfold] at hc hd
    exact L.towlower_slash d (hd.symm.trans hc)
  · rw [if_neg hfold] at hc hd
    exact hd.symm.trans hc

theorem takes_slash (hpath : o.domain = .pathname) (hi : Takes L o text starAt term i (i + 1))
    (hstar : term ≠ .anyString) (hslash : text[i]? = some '/') (hk : Takes L o text starAt term k (k + 1)) :
    text[k]? = some '/' := by
  cases term with
  | literal span =>
    have hspan : span.length = 1 := by have := hi.1; omega
    obtain ⟨c, rfl⟩ := length_eq_one_iff.mp hspan
    obtain ⟨d, hd, hcd⟩ := hi.2 0 c rfl
    obtain ⟨e, he, hce⟩ := hk.2 0 c rfl
    rw [add_zero] at hd he
    rw [hslash] at hd
    cases hd
    rw [he, hcd.slash hce]
  | anyString => exact absurd rfl hstar
  | anyCharacter => exact absurd hslash (hi.2.2 hpath).1
  | bracket span => exact absurd hslash (hi.2.1 hpath).1
  | pathSeparator => exact hk.2
  | globstar => exact hi.elim
  | extglob _ _ => exact hi.elim

theorem no_slash_between (hpath : o.domain = .pathname) (hones : OneEach terms) {r r' v v' : Nat}
    (hr : Splits L o text starAt terms r v) (hr' : Splits L o text starAt terms r' v') (hlt : r < r')
    (hfree : ∀ k, r ≤ k → k < r' → text[k]? ≠ some '/') : ∀ k, r ≤ k → k < v' → text[k]? ≠ some '/' := by
  obtain ⟨hv, htakes⟩ := hones.splits hr
  obtain ⟨hv', htakes'⟩ := hones.splits hr'
  -- A first slash at the earlier place would be a slash of the later one, and so make an element before it take one.
  have hnone : ∀ n, n < terms.length → text[r + n]? ≠ some '/' := by
    intro n
    induction n using Nat.strong_induction_on with
    | _ n ih =>
      intro hn hslash
      by_cases hshift : n < r' - r
      · exact hfree (r + n) (by omega) (by omega) hslash
      · have hm : n - (r' - r) < terms.length := by omega
        have hterm := getElem?_eq_getElem hm
        rw [show r + n = r' + (n - (r' - r)) by omega] at hslash
        exact ih _ (by omega) hm
          (takes_slash hpath (htakes' _ _ hterm) (hones _ (getElem_mem hm)).1 hslash (htakes _ _ hterm))
  intro k hk hkv hslash
  by_cases hkr : k < r'
  · exact hfree k hk hkr hslash
  · have hm : k - r' < terms.length := by omega
    have hterm := getElem?_eq_getElem hm
    rw [show k = r' + (k - r') by omega] at hslash
    exact hnone _ hm (takes_slash hpath (htakes' _ _ hterm) (hones _ (getElem_mem hm)).1 hslash (htakes _ _ hterm))

end

section
variable {L : PatternLocale} {o : PatternOptions} {text : CStr} {as terms : List Term} {r r' v e : Nat}

theorem not_leadingDot {k : Nat} (hk : r < k) (hfree : text[k - 1]? ≠ some '/') : ¬LeadingDot text k := by
  intro ⟨_, hstart⟩
  cases hstart with
  | inl hzero => omega
  | inr hslash => exact hfree hslash

theorem star_of_earlier (hones : .anyString ∉ as) (hr : Splits L o text (StarPlaced o text) as r v) (hlt : r < r')
    (hallowed : ∀ k, r ≤ k → k < r' → Allowed o text k)
    (hr' : Splits L o text (StarPlaced o text) (as ++ .anyString :: terms) r' e) :
    Splits L o text (StarPlaced o text) (.anyString :: terms) v e := by
  obtain ⟨v', has', k, ⟨hle, _, hstar⟩, hrest⟩ := splits_append.mp hr'
  have hvv' : v ≤ v' := by
    have h := (oneEach_spread hones).splits (splits_spread.mpr hr)
    have h' := (oneEach_spread hones).splits (splits_spread.mpr has')
    omega
  have hrv := hr.le
  have hfree (hpath : o.domain = .pathname) : ∀ k, r ≤ k → k < v' → text[k]? ≠ some '/' :=
    no_slash_between hpath (oneEach_spread hones) (splits_spread.mpr hr) (splits_spread.mpr has') hlt
      fun k hk hkr => (hallowed k hk hkr hpath).1
  have hdot (hpath : o.domain = .pathname) (hdots : o.matchDotfiles = false) :
      ∀ k, v ≤ k → k ≤ v' → ¬LeadingDot text k := by
    intro k hk hkv
    by_cases hkr : k = r
    · rw [hkr]
      exact (hallowed r (le_rfl) hlt hpath).2 hdots
    · exact not_leadingDot (r := r) (by omega) (hfree hpath (k - 1) (by omega) (by omega))
  refine ⟨k, ⟨by omega, ?_, ?_⟩, hrest⟩
  · intro hpath hdots
    exact hdot hpath hdots v (le_rfl) hvv'
  · intro m hm hmk
    by_cases hmv : m < v'
    · intro hpath
      exact ⟨hfree hpath m (by omega) hmv, fun hdots => hdot hpath hdots m hm (by omega)⟩
    · exact hstar m (by omega) hmk

theorem separator_fixes (hpath : o.domain = .pathname) (hones : .anyString ∉ as)
    (hr : Splits L o text (StarPlaced o text) as r v) (hslash : text[v]? = some '/') (hlt : r < r')
    (hallowed : ∀ k, r ≤ k → k < r' → Allowed o text k)
    (hr' : Splits L o text (StarPlaced o text) (as ++ .pathSeparator :: terms) r' e) : False := by
  obtain ⟨v', has', k, hsep, _⟩ := splits_append.mp hr'
  have hones' : .anyString ∉ as ++ [.pathSeparator] := by simpa using hones
  have hlong : Splits L o text (StarPlaced o text) (as ++ [.pathSeparator]) r (v + 1) :=
    splits_append.mpr ⟨v, hr, splits_singleton.mpr ⟨rfl, hslash⟩⟩
  have hlong' : Splits L o text (StarPlaced o text) (as ++ [.pathSeparator]) r' k :=
    splits_append.mpr ⟨v', has', splits_singleton.mpr hsep⟩
  have hvk : v < k := by
    have h := (oneEach_spread hones').splits (splits_spread.mpr hlong)
    have h' := (oneEach_spread hones').splits (splits_spread.mpr hlong')
    omega
  have hfree := no_slash_between hpath (oneEach_spread hones') (splits_spread.mpr hlong) (splits_spread.mpr hlong') hlt
    fun k hk hkr => (hallowed k hk hkr hpath).1
  exact hfree v hr.le hvk hslash

end

/-! ## The matching loop -/

section
variable {L : PatternLocale} {o : PatternOptions} {text : CStr} {term : Term} {value : Nat}

theorem wildcardAllowed_iff : wildcardAllowed o text value = true ↔ Allowed o text value := by
  unfold wildcardAllowed Allowed LeadingDot
  cases o.domain with
  | string => simp
  | pathname => cases o.matchDotfiles <;> simp [imp_iff_not_or]

theorem starPlaced_iff : (wildcardAllowed o text value || text[value]? = some '/') = true ↔ StarPlaced o text value := by
  rw [Bool.or_eq_true, wildcardAllowed_iff, decide_eq_true_iff]
  unfold StarPlaced Allowed LeadingDot
  refine ⟨?_, ?_⟩
  · intro h hpath hdots ⟨hdot, hstart⟩
    cases h with
    | inl hallowed => exact (hallowed hpath).2 hdots ⟨hdot, hstart⟩
    | inr hslash => simp [hslash] at hdot
  · intro h
    by_cases hslash : text[value]? = some '/'
    · exact .inr hslash
    · exact .inl fun hpath => ⟨hslash, h hpath⟩

variable {span rest : CStr}

theorem prefix_iff : span.isPrefixOf rest = true ↔ ∀ (t : Nat) (c : Char), span[t]? = some c → rest[t]? = some c := by
  rw [List.isPrefixOf_iff_prefix, prefix_iff_getElem?]
  refine ⟨?_, ?_⟩
  · intro h t c hc
    obtain ⟨ht, rfl⟩ := List.getElem?_eq_some_iff.mp hc
    exact h t ht
  · intro h t ht
    exact h t _ (getElem?_eq_getElem ht)

def Reads (same : Char → Char → Prop) (span rest : CStr) : Prop :=
  ∀ (t : Nat) (c : Char), span[t]? = some c → ∃ d, rest[t]? = some d ∧ same c d

theorem reads_cons {same : Char → Char → Prop} {c d : Char} :
    Reads same (c :: span) (d :: rest) ↔ same c d ∧ Reads same span rest := by
  refine ⟨?_, ?_⟩
  · intro h
    refine ⟨?_, fun t e he => h (t + 1) e (by simpa using he)⟩
    obtain ⟨d', hd', hsame⟩ := h 0 c rfl
    cases hd'
    exact hsame
  · intro ⟨hsame, h⟩ t e he
    cases t with
    | zero =>
      cases he
      exact ⟨d, rfl, hsame⟩
    | succ t => exact h t e (by simpa using he)

theorem literalFolded_spec : (∀ taken, literalFolded L span rest = some taken → taken = span.length) ∧
      ((literalFolded L span rest).isSome = true ↔ Reads (fun c d => L.towlower c = L.towlower d) span rest) := by
  induction span generalizing rest with
  | nil => simp [literalFolded, Reads]
  | cons left span ih =>
    cases rest with
    | nil =>
      refine ⟨by simp [literalFolded], ?_⟩
      simp only [literalFolded, Option.isSome_none, Bool.false_eq_true, false_iff]
      intro h
      obtain ⟨d, hd, _⟩ := h 0 left rfl
      cases hd
    | cons right rest =>
      obtain ⟨hlength, hreads⟩ := @ih rest
      rw [reads_cons]
      by_cases hsame : L.towlower left = L.towlower right
      · rw [show literalFolded L (left :: span) (right :: rest) = (literalFolded L span rest).map (· + 1) by
          simp [literalFolded, hsame]]
        refine ⟨?_, ?_⟩
        · intro taken htaken
          obtain ⟨n, hn, rfl⟩ := Option.map_eq_some_iff.mp htaken
          rw [hlength n hn, length_cons]
        · simp [hsame, hreads]
      · simp [literalFolded, hsame]

theorem literalTaken_spec {span rest : CStr} :
    (∀ taken, literalTaken L o.caseInsensitive span rest = some taken → taken = span.length) ∧
      ((literalTaken L o.caseInsensitive span rest).isSome = true ↔ Reads (SameCharacter L o) span rest) := by
  unfold literalTaken
  by_cases hfold : o.caseInsensitive = true
  · have hsame : SameCharacter L o = fun c d => L.towlower c = L.towlower d := by
      funext c d
      exact if_pos hfold
    rw [if_pos hfold, hsame]
    exact literalFolded_spec
  · have hsame : SameCharacter L o = fun c d => c = d := by
      funext c d
      exact if_neg hfold
    rw [if_neg hfold, hsame]
    by_cases hprefix : span.isPrefixOf rest = true
    · rw [if_pos hprefix]
      refine ⟨by simp, ?_⟩
      simpa [Reads] using prefix_iff.mp hprefix
    · rw [if_neg hprefix]
      refine ⟨by simp, ?_⟩
      simpa [Reads] using fun h => hprefix (prefix_iff.mpr h)

def BracketFails (L : PatternLocale) (o : PatternOptions) (text : CStr) (term : Term) : Prop :=
  ∃ span c, term = .bracket span ∧ c ∈ text ∧ bracket L o.caseInsensitive span c = .error

def AdvanceSpec (L : PatternLocale) (o : PatternOptions) (text : CStr) (value : Nat) (term : Term) : Advance → Prop
  | .matched v => term ≠ .anyString ∧ Takes L o text (StarPlaced o text) term value v
  | .separator v => term = .pathSeparator ∧ Takes L o text (StarPlaced o text) term value v
  | .star => term = .anyString ∧ StarPlaced o text value
  | .failed => ∀ v, ¬Takes L o text (StarPlaced o text) term value v
  | .error => BracketFails L o text term

theorem advance_spec : AdvanceSpec L o text value term (advance L o text value term) := by
  cases term with
  | literal span =>
    obtain ⟨hlength, hreads⟩ := @literalTaken_spec L o span (text.drop value)
    unfold Reads at hreads
    simp only [getElem?_drop] at hreads
    simp only [advance]
    cases htaken : literalTaken L o.caseInsensitive span (text.drop value) with
    | none =>
      rw [htaken] at hreads
      intro v htakes
      have := hreads.mpr htakes.2
      cases this
    | some taken =>
      refine ⟨by simp, ?_⟩
      rw [hlength taken htaken]
      exact ⟨rfl, hreads.mp (by rw [htaken]; rfl)⟩
  | anyString =>
    simp only [advance]
    by_cases hplaced : (wildcardAllowed o text value || text[value]? = some '/') = true
    · rw [if_pos hplaced]
      exact ⟨rfl, starPlaced_iff.mp hplaced⟩
    · rw [if_neg hplaced]
      exact fun v htakes => hplaced (starPlaced_iff.mpr htakes.2.1)
  | anyCharacter =>
    simp only [advance]
    cases hc : text[value]? with
    | none =>
      intro v htakes
      have := List.getElem?_eq_none_iff.mp hc
      exact absurd htakes.2.1 (Nat.not_lt.mpr this)
    | some c =>
      dsimp only
      by_cases hallowed : wildcardAllowed o text value = true
      · rw [if_pos hallowed]
        exact ⟨by simp, rfl, getElem?_lt hc, wildcardAllowed_iff.mp hallowed⟩
      · rw [if_neg hallowed]
        exact fun v htakes => hallowed (wildcardAllowed_iff.mpr htakes.2.2)
  | bracket span =>
    simp only [advance]
    cases hc : text[value]? with
    | none =>
      intro v htakes
      obtain ⟨_, _, c, hc', _⟩ := htakes
      simp [hc] at hc'
    | some c =>
      dsimp only
      by_cases hallowed : wildcardAllowed o text value = true
      · rw [if_pos hallowed]
        have hfail (hno : bracket L o.caseInsensitive span c ≠ .match) :
            ∀ v, ¬Takes L o text (StarPlaced o text) (.bracket span) value v := by
          intro v htakes
          obtain ⟨_, _, d, hd, hmatch⟩ := htakes
          rw [hc] at hd
          cases hd
          exact hno hmatch
        cases hbracket : bracket L o.caseInsensitive span c with
        | «match» => exact ⟨by simp, rfl, wildcardAllowed_iff.mp hallowed, c, hc, hbracket⟩
        | noMatch => exact hfail (by simp [hbracket])
        | unsupported => exact hfail (by simp [hbracket])
        | error => exact ⟨span, c, rfl, mem_of_getElem? hc, hbracket⟩
      · rw [if_neg hallowed]
        exact fun v htakes => hallowed (wildcardAllowed_iff.mpr htakes.2.1)
  | pathSeparator =>
    simp only [advance]
    by_cases hslash : text[value]? = some '/'
    · rw [if_pos hslash]
      exact ⟨rfl, rfl, hslash⟩
    · rw [if_neg hslash]
      exact fun v htakes => hslash htakes.2
  | globstar => exact fun v htakes => htakes
  | extglob _ _ => exact fun v htakes => htakes

end

section
variable {L : PatternLocale} {p : Pattern} {text : CStr} {st st' : MatchState} {result : MatchResult}

/-- The candidate matches with more for the last `*`. -/
def Later (L : PatternLocale) (p : Pattern) (text : CStr) (st : MatchState) : Prop :=
  ∃ r j, st.retry = some r ∧ r < j ∧ (∀ k, r ≤ k → k < j → Allowed p.options text k) ∧
    Splits L p.options text (StarPlaced p.options text) (p.root.drop st.afterStar) j text.length

def Now (L : PatternLocale) (p : Pattern) (text : CStr) (st : MatchState) : Prop :=
  Splits L p.options text (StarPlaced p.options text) (p.root.drop st.position) st.value text.length

/-- The elements since the last `*`. -/
def sinceStar (p : Pattern) (st : MatchState) : List Term := (p.root.take st.position).drop st.afterStar

structure MatchInv (L : PatternLocale) (p : Pattern) (text : CStr) (st : MatchState) : Prop where
  position : st.position ≤ p.root.length
  afterStar : st.afterStar ≤ st.position
  value : st.value ≤ text.length
  retry : ∀ r, st.retry = some r → r ≤ text.length ∧ .anyString ∉ sinceStar p st ∧
    Splits L p.options text (StarPlaced p.options text) (sinceStar p st) r st.value
  answer : Splits L p.options text (StarPlaced p.options text) p.root 0 text.length ↔ Now L p text st ∨ Later L p text st

/-- How much the last `*` can still take. -/
def retryLeft (text : CStr) (st : MatchState) : Nat :=
  match st.retry with
  | none => 0
  | some r => text.length + 1 - r

def rank (p : Pattern) (text : CStr) (st : MatchState) : Nat :=
  ((p.root.length - st.afterStar) * (text.length + 2) + retryLeft text st) * (p.root.length + 1) +
    (p.root.length - st.position)

theorem retryLeft_lt : retryLeft text st < text.length + 2 := by
  unfold retryLeft
  cases st.retry with
  | none => exact Nat.succ_pos _
  | some r => show text.length + 1 - r < _; omega

theorem rank_lt : rank p text st < matchFuel p text := by
  unfold rank matchFuel
  refine radix_bound ?_ (by omega)
  exact radix_bound (by omega) retryLeft_lt

theorem rank_lt_position (hstar : st'.afterStar = st.afterStar) (hleft : retryLeft text st' ≤ retryLeft text st)
    (hposition : p.root.length - st'.position < p.root.length - st.position) : rank p text st' < rank p text st := by
  unfold rank
  rw [hstar]
  have := Nat.mul_le_mul_right (p.root.length + 1)
    (Nat.add_le_add_left hleft ((p.root.length - st.afterStar) * (text.length + 2)))
  omega

theorem rank_lt_retry (hstar : st'.afterStar = st.afterStar) (hleft : retryLeft text st' < retryLeft text st) :
    rank p text st' < rank p text st := by
  unfold rank
  rw [hstar]
  exact radix_lt (Nat.add_lt_add_left hleft _) (by omega)

theorem rank_lt_star (hstar : p.root.length - st'.afterStar < p.root.length - st.afterStar) :
    rank p text st' < rank p text st := by
  unfold rank
  exact radix_lt (radix_lt hstar retryLeft_lt) (by omega)

/-! ## One step -/

variable {term : Term} {v : Nat}

theorem drop_position (hterm : p.root[st.position]? = some term) :
    p.root.drop st.position = term :: p.root.drop (st.position + 1) := by
  obtain ⟨hlt, rfl⟩ := List.getElem?_eq_some_iff.mp hterm
  exact drop_eq_getElem_cons hlt

theorem sinceStar_succ (hterm : p.root[st.position]? = some term) (h : st.afterStar ≤ st.position) :
    (p.root.take (st.position + 1)).drop st.afterStar = sinceStar p st ++ [term] := by
  have hlt := getElem?_lt hterm
  unfold sinceStar
  rw [take_add_one, hterm, Option.toList_some, drop_append_of_le_length]
  rw [length_take]
  omega

theorem drop_afterStar (h : st.afterStar ≤ st.position) :
    p.root.drop st.afterStar = sinceStar p st ++ p.root.drop st.position := by
  unfold sinceStar
  rw [drop_take]
  conv_lhs => rw [← take_append_drop (st.position - st.afterStar) (p.root.drop st.afterStar)]
  rw [drop_drop, Nat.add_sub_cancel' h]

theorem now_of_takes (hterm : p.root[st.position]? = some term) (hstar : term ≠ .anyString)
    (htakes : Takes L p.options text (StarPlaced p.options text) term st.value v) :
    Now L p text st ↔
      Splits L p.options text (StarPlaced p.options text) (p.root.drop (st.position + 1)) v text.length := by
  unfold Now
  rw [drop_position hterm]
  refine ⟨?_, fun h => ⟨v, htakes, h⟩⟩
  intro ⟨k, hk, h⟩
  rw [Takes.unique hstar htakes hk]
  exact h

theorem inv_matched (hinv : MatchInv L p text st) (hterm : p.root[st.position]? = some term)
    (hstar : term ≠ .anyString) (htakes : Takes L p.options text (StarPlaced p.options text) term st.value v) :
    MatchInv L p text { st with position := st.position + 1, value := v } where
  position := getElem?_lt hterm
  afterStar := Nat.le_succ_of_le hinv.afterStar
  value := htakes.le_length hstar hinv.value
  retry := by
    intro r hr
    obtain ⟨hle, hfixed, hsplits⟩ := hinv.retry r hr
    unfold sinceStar at hfixed hsplits ⊢
    rw [sinceStar_succ hterm hinv.afterStar]
    refine ⟨hle, ?_, splits_append.mpr ⟨st.value, hsplits, splits_singleton.mpr htakes⟩⟩
    intro hmem
    cases mem_append.mp hmem with
    | inl hmem => exact hfixed hmem
    | inr hmem => exact hstar (mem_singleton.mp hmem).symm
  answer := by
    rw [hinv.answer, now_of_takes hterm hstar htakes]
    exact Iff.rfl

theorem inv_separator (hinv : MatchInv L p text st) (hpath : p.options.domain = .pathname)
    (hterm : p.root[st.position]? = some .pathSeparator)
    (htakes : Takes L p.options text (StarPlaced p.options text) .pathSeparator st.value v) :
    MatchInv L p text { st with position := st.position + 1, value := v, retry := none } where
  position := getElem?_lt hterm
  afterStar := Nat.le_succ_of_le hinv.afterStar
  value := htakes.le_length (by simp) hinv.value
  retry := by
    intro r hr
    cases hr
  answer := by
    rw [hinv.answer, now_of_takes hterm (by simp) htakes]
    refine ⟨?_, ?_⟩
    · intro h
      cases h with
      | inl hnow => exact .inl hnow
      | inr hlater =>
        obtain ⟨r, j, hr, hlt, hallowed, hsplits⟩ := hlater
        obtain ⟨_, hfixed, hsince⟩ := hinv.retry r hr
        rw [drop_afterStar hinv.afterStar, drop_position hterm] at hsplits
        exact (separator_fixes hpath hfixed hsince htakes.2 hlt hallowed hsplits).elim
    · intro h
      cases h with
      | inl hnow => exact .inl hnow
      | inr hlater =>
        obtain ⟨r, j, hr, _⟩ := hlater
        cases hr

theorem inv_star (hinv : MatchInv L p text st) (hterm : p.root[st.position]? = some .anyString)
    (hplaced : StarPlaced p.options text st.value) :
    MatchInv L p text
      { st with position := st.position + 1, retry := some st.value, afterStar := st.position + 1 } where
  position := getElem?_lt hterm
  afterStar := le_rfl
  value := hinv.value
  retry := by
    intro r hr
    cases hr
    have hnil : (p.root.take (st.position + 1)).drop (st.position + 1) = [] := by
      apply drop_eq_nil_of_le
      exact length_take_le _ _
    unfold sinceStar
    rw [hnil]
    exact ⟨hinv.value, by simp, rfl⟩
  answer := by
    rw [hinv.answer]
    have hnow : Now L p text st ↔ ∃ j, st.value ≤ j ∧ (∀ k, st.value ≤ k → k < j → Allowed p.options text k) ∧
        Splits L p.options text (StarPlaced p.options text) (p.root.drop (st.position + 1)) j text.length := by
      unfold Now
      rw [drop_position hterm]
      refine ⟨?_, ?_⟩
      · intro ⟨j, ⟨hle, _, hallowed⟩, h⟩
        exact ⟨j, hle, hallowed, h⟩
      · intro ⟨j, hle, hallowed, h⟩
        exact ⟨j, ⟨hle, hplaced, hallowed⟩, h⟩
    refine ⟨?_, ?_⟩
    · intro h
      have hstays : Now L p text st := by
        cases h with
        | inl hnow => exact hnow
        | inr hlater =>
          obtain ⟨r, j, hr, hlt, hallowed, hsplits⟩ := hlater
          obtain ⟨_, hfixed, hsince⟩ := hinv.retry r hr
          rw [drop_afterStar hinv.afterStar, drop_position hterm] at hsplits
          unfold Now
          rw [drop_position hterm]
          exact star_of_earlier hfixed hsince hlt hallowed hsplits
      obtain ⟨j, hle, hallowed, hsplits⟩ := hnow.mp hstays
      cases Nat.eq_or_lt_of_le hle with
      | inl heq =>
        subst heq
        exact .inl hsplits
      | inr hlt => exact .inr ⟨st.value, j, rfl, hlt, hallowed, hsplits⟩
    · intro h
      refine .inl (hnow.mpr ?_)
      cases h with
      | inl hsplits => exact ⟨st.value, le_rfl, by omega, hsplits⟩
      | inr hlater =>
        obtain ⟨r, j, hr, hlt, hallowed, hsplits⟩ := hlater
        cases hr
        exact ⟨j, le_of_lt hlt, hallowed, hsplits⟩

theorem inv_backtrack (hinv : MatchInv L p text st) (hnow : ¬Now L p text st) :
    match backtrack p.options text st with
    | .inl st' => MatchInv L p text st' ∧ rank p text st' < rank p text st
    | .inr result => result = .noMatch ∧
        ¬Splits L p.options text (StarPlaced p.options text) p.root 0 text.length := by
  have hanswer : Splits L p.options text (StarPlaced p.options text) p.root 0 text.length ↔ Later L p text st := by
    rw [hinv.answer]
    exact ⟨fun h => h.resolve_left hnow, .inr⟩
  unfold backtrack
  cases hretry : st.retry with
  | none =>
    refine ⟨rfl, ?_⟩
    rw [hanswer]
    intro ⟨r, _, hr, _⟩
    simp [hretry] at hr
  | some r =>
    have hlater : Later L p text st ↔ ∃ j, r < j ∧ (∀ k, r ≤ k → k < j → Allowed p.options text k) ∧
        Splits L p.options text (StarPlaced p.options text) (p.root.drop st.afterStar) j text.length := by
      refine ⟨?_, ?_⟩
      · intro ⟨r', j, hr', h⟩
        rw [hretry] at hr'
        cases hr'
        exact ⟨j, h⟩
      · intro ⟨j, h⟩
        exact ⟨r, j, hretry, h⟩
    dsimp only
    by_cases hend : (text[r]? = none || !wildcardAllowed p.options text r) = true
    · rw [if_pos hend]
      refine ⟨rfl, ?_⟩
      rw [hanswer, hlater]
      intro ⟨j, hlt, hallowed, hsplits⟩
      have hr : r < text.length := lt_of_lt_of_le hlt hsplits.le
      have hok := wildcardAllowed_iff.mpr (hallowed r (le_rfl) hlt)
      simp [hok, getElem?_eq_getElem hr] at hend
    · rw [if_neg hend]
      rw [Bool.not_eq_true, Bool.or_eq_false_iff, decide_eq_false_iff_not, Bool.not_eq_false'] at hend
      obtain ⟨hsome, hok⟩ := hend
      have hr : r < text.length := by
        by_contra hge
        exact hsome (getElem?_eq_none (Nat.le_of_not_lt hge))
      refine ⟨⟨Nat.le_trans hinv.afterStar hinv.position, Nat.le_refl _, hr, ?_, ?_⟩, ?_⟩
      · intro r' hr'
        cases hr'
        have hnil : (p.root.take st.afterStar).drop st.afterStar = [] := by
          apply drop_eq_nil_of_le
          exact length_take_le _ _
        unfold sinceStar
        rw [hnil]
        exact ⟨hr, by simp, rfl⟩
      · rw [hanswer, hlater]
        refine ⟨?_, ?_⟩
        · intro ⟨j, hlt, hallowed, hsplits⟩
          by_cases hj : j = r + 1
          · subst hj
            exact .inl hsplits
          · exact .inr ⟨r + 1, j, rfl, by omega, fun k hk hkj => hallowed k (by omega) hkj, hsplits⟩
        · intro h
          have hallow {j : Nat} (h : ∀ k, r + 1 ≤ k → k < j → Allowed p.options text k) :
              ∀ k, r ≤ k → k < j → Allowed p.options text k := by
            intro k hk hkj
            by_cases hkr : k = r
            · rw [hkr]
              exact wildcardAllowed_iff.mp hok
            · exact h k (by omega) hkj
          cases h with
          | inl hsplits => exact ⟨r + 1, Nat.lt_succ_self _, hallow (by omega), hsplits⟩
          | inr hlater =>
            obtain ⟨r', j, hr', hlt, hallowed, hsplits⟩ := hlater
            cases hr'
            exact ⟨j, by omega, hallow hallowed, hsplits⟩
      · refine rank_lt_retry ?_ ?_
        · rfl
        show text.length + 1 - (r + 1) < _
        unfold retryLeft
        rw [hretry]
        show _ < text.length + 1 - r
        omega

/-! ## The whole loop -/

def ResultSpec (L : PatternLocale) (p : Pattern) (text : CStr) : MatchResult → Prop
  | .match => Splits L p.options text (StarPlaced p.options text) p.root 0 text.length
  | .noMatch => ¬Splits L p.options text (StarPlaced p.options text) p.root 0 text.length
  | .unsupported => False
  | .error => ∃ term ∈ p.root, BracketFails L p.options text term

theorem inv_step (hroot : .pathSeparator ∈ p.root → p.options.domain = .pathname) (hinv : MatchInv L p text st) :
    match matchStep L p text st with
    | .inl st' => MatchInv L p text st' ∧ rank p text st' < rank p text st
    | .inr result => ResultSpec L p text result := by
  have hback (hnow : ¬Now L p text st) : match backtrack p.options text st with
      | .inl st' => MatchInv L p text st' ∧ rank p text st' < rank p text st
      | .inr result => ResultSpec L p text result := by
    have h := inv_backtrack hinv hnow
    revert h
    cases backtrack p.options text st with
    | inl st' => exact id
    | inr result =>
      intro h
      obtain ⟨rfl, hno⟩ := h
      exact hno
  unfold matchStep
  cases hterm : p.root[st.position]? with
  | none =>
    have hnow : Now L p text st ↔ st.value = text.length := by
      unfold Now
      rw [drop_eq_nil_of_le (List.getElem?_eq_none_iff.mp hterm)]
      exact Iff.rfl
    dsimp only
    by_cases hend : text[st.value]? = none
    · rw [if_pos hend]
      have hvalue : st.value = text.length := le_antisymm hinv.value (List.getElem?_eq_none_iff.mp hend)
      exact hinv.answer.mpr (.inl (hnow.mpr hvalue))
    · rw [if_neg hend]
      apply hback
      intro h
      apply hend
      rw [hnow.mp h]
      exact getElem?_eq_none (le_rfl)
  | some term =>
    have hspec := @advance_spec L p.options text term st.value
    have hlt := getElem?_lt hterm
    dsimp only
    cases hadvance : advance L p.options text st.value term with
    | matched v =>
      rw [hadvance] at hspec
      refine ⟨inv_matched hinv hterm hspec.1 hspec.2, ?_⟩
      refine rank_lt_position ?_ (le_rfl) ?_
      · rfl
      · show _ - (st.position + 1) < _
        omega
    | separator v =>
      rw [hadvance] at hspec
      obtain ⟨rfl, htakes⟩ := hspec
      refine ⟨inv_separator hinv (hroot (mem_of_getElem? hterm)) hterm htakes, ?_⟩
      refine rank_lt_position ?_ (Nat.zero_le _) ?_
      · rfl
      · show _ - (st.position + 1) < _
        omega
    | star =>
      rw [hadvance] at hspec
      obtain ⟨rfl, hplaced⟩ := hspec
      refine ⟨inv_star hinv hterm hplaced, ?_⟩
      apply rank_lt_star
      have := hinv.afterStar
      show _ - (st.position + 1) < _
      omega
    | failed =>
      rw [hadvance] at hspec
      apply hback
      unfold Now
      rw [drop_position hterm]
      intro ⟨k, htakes, _⟩
      exact hspec k htakes
    | error =>
      rw [hadvance] at hspec
      exact ⟨term, mem_of_getElem? hterm, hspec⟩

theorem inv_init : MatchInv L p text {} where
  position := Nat.zero_le _
  afterStar := le_rfl
  value := Nat.zero_le _
  retry := by
    intro r hr
    cases hr
  answer := by
    refine ⟨.inl, ?_⟩
    intro h
    cases h with
    | inl hnow => exact hnow
    | inr hlater =>
      obtain ⟨_, _, hr, _⟩ := hlater
      cases hr

theorem loop_result (hroot : .pathSeparator ∈ p.root → p.options.domain = .pathname) :
    ∃ result, loop (matchStep L p text) (matchFuel p text) {} = some result ∧ ResultSpec L p text result := by
  apply loop_of_measure (MatchInv L p text) (ResultSpec L p text) (rank p text)
  · intro s t hs hstep
    have h := inv_step hroot hs
    rw [hstep] at h
    exact h
  · intro s result hs hstep
    have h := inv_step hroot hs
    rw [hstep] at h
    exact h
  · exact inv_init
  · exact rank_lt

end

end Bx.Ash
