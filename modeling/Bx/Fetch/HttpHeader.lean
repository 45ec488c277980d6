import Bx.Fetch.Pathmap

/-!
# Request header fields

From `src/lib/fetch/core/http_header.c`: a line, or a name and a value, is checked and written out as one field. The two
ways out differ where the value is empty.
-/

namespace Bx.Fetch.Header
open Kit List

/-! ## Bytes -/

variable (c : UInt8)

def asciiIsDigit : Bool := 48 ≤ c && c ≤ 57

def asciiIsAlpha : Bool := (65 ≤ c && c ≤ 90) || (97 ≤ c && c ≤ 122)

-- `!`, `#`, `$`, `%`, `&`, `'`, `*`, `+`, `-`, `.`, `^`, `_`, the grave accent, `|` and `~`
def tcharMarks : Bytes := [33, 35, 36, 37, 38, 39, 42, 43, 45, 46, 94, 95, 96, 124, 126]

def asciiIsTchar : Bool := asciiIsDigit c || asciiIsAlpha c || tcharMarks.contains c

def asciiLower : UInt8 := if 65 ≤ c ∧ c ≤ 90 then c + 32 else c

def isOws : Bool := c == 32 || c == 9

def isControl : Bool := c < 32 || c == 127

def spanEqualsCase (value expected : Bytes) : Bool :=
  expected.length == value.length && (value.zip expected).all fun pair => asciiLower pair.1 == asciiLower pair.2

/-! ## The check -/

inductive HttpHeaderError where
  | malformedLine
  | invalidName
  | invalidValue
  | forbiddenFraming
  | forbiddenAuthority
  | outOfMemory
  deriving DecidableEq, Repr

structure HttpHeaderView where
  name : Bytes
  value : Bytes
  deriving DecidableEq, Repr

def framingNames : List Bytes := [ascii "Content-Length", ascii "Transfer-Encoding", ascii "Trailer"]

def authorityNames : List Bytes := [ascii "Host", ascii "Authorization", ascii "Proxy-Authorization", ascii "Cookie"]

def framingNameIsForbidden (name : Bytes) : Bool := framingNames.any (spanEqualsCase name)

def authorityNameIsForbidden (name : Bytes) : Bool := authorityNames.any (spanEqualsCase name)

def validateName (name : Bytes) : Except HttpHeaderError Unit :=
  if name = [] then .error .invalidName
  else if ¬name.all asciiIsTchar then .error .invalidName
  else if framingNameIsForbidden name then .error .forbiddenFraming
  else if authorityNameIsForbidden name then .error .forbiddenAuthority
  else .ok ()

def trimOws (value : Bytes) : Bytes := (value.dropWhile isOws).rdropWhile isOws

def normalizeValueSpan (value : Bytes) : Except HttpHeaderError Bytes :=
  if value.any fun c => isControl c && c != 9 then .error .invalidValue else .ok (trimOws value)

def colon : UInt8 := 58

def viewPair (name value : Bytes) : Except HttpHeaderError HttpHeaderView := do
  validateName name
  let trimmed ← normalizeValueSpan value
  return { name, value := trimmed }

def parseLine (line : Bytes) : Except HttpHeaderError HttpHeaderView :=
  if colon ∉ line then .error .malformedLine
  else do
    let name := line.takeWhile (· != colon)
    validateName name
    let trimmed ← normalizeValueSpan ((line.dropWhile (· != colon)).drop 1)
    return { name, value := trimmed }

/-! ## The text of a field -/

/-- The colon, or `;` for curl where the value is empty -/
def fieldText (curlFormat : Bool) (view : HttpHeaderView) : Bytes :=
  if view.value = [] then view.name ++ [if curlFormat then 59 else colon]
  else view.name ++ colon :: 32 :: view.value

def sizeMax : Nat := 2 ^ 64 - 1

abbrev Allocator := Nat → Bool

def formatView (calloc : Allocator) (view : HttpHeaderView) (curlFormat : Bool) : Except HttpHeaderError Bytes :=
  let separatorLen := if 0 < view.value.length then 2 else 1
  if sizeMax - separatorLen < view.name.length ∨ sizeMax - view.value.length < view.name.length + separatorLen then
    .error .outOfMemory
  else
    let formattedLen := view.name.length + separatorLen + view.value.length
    if formattedLen = sizeMax then .error .outOfMemory
    else if ¬calloc (formattedLen + 1) then .error .outOfMemory
    else .ok (fieldText curlFormat view)

def normalizeLine (calloc : Allocator) (line : Bytes) : Except HttpHeaderError Bytes := do
  let view ← parseLine line
  formatView calloc view false

def formatLineForCurl (calloc : Allocator) (line : Bytes) : Except HttpHeaderError Bytes := do
  let view ← parseLine line
  formatView calloc view true

def formatPairForCurl (calloc : Allocator) (name value : Bytes) : Except HttpHeaderError Bytes := do
  let view ← viewPair name value
  formatView calloc view true

def normalizePair (malloc : Allocator) (name value : Bytes) : Except HttpHeaderError (Bytes × Bytes) := do
  let view ← viewPair name value
  if malloc (view.name.length + 1) ∧ malloc (view.value.length + 1) then return (view.name, view.value)
  else throw .outOfMemory

/-! ## Fields -/

def forbiddenNames : List Bytes := framingNames ++ authorityNames

structure Field (view : HttpHeaderView) : Prop where
  nonempty : view.name ≠ []
  token : ∀ c ∈ view.name, asciiIsTchar c = true
  allowed : ∀ forbidden ∈ forbiddenNames, view.name.map asciiLower ≠ forbidden.map asciiLower
  printable : ∀ c ∈ view.value, isControl c = true → c = 9
  first : ∀ c ∈ view.value.head?, isOws c = false
  last : ∀ c ∈ view.value.getLast?, isOws c = false

section
variable {line name value out : Bytes} {view : HttpHeaderView} {calloc : Allocator}

theorem spanEqualsCase_iff (value expected : Bytes) :
    spanEqualsCase value expected = true ↔ value.map asciiLower = expected.map asciiLower := by
  induction value generalizing expected with
  | nil => cases expected <;> simp [spanEqualsCase]
  | cons c value ih =>
    cases expected with
    | nil => simp [spanEqualsCase]
    | cons d expected =>
      have hrest := ih expected
      unfold spanEqualsCase at hrest ⊢
      simp only [length_cons, zip_cons_cons, all_cons, map_cons, List.cons.injEq,
        Bool.and_eq_true, beq_iff_eq, Nat.add_right_cancel_iff] at hrest ⊢
      rw [← hrest]
      exact and_left_comm

theorem forbidden_iff (name : Bytes) :
    (framingNameIsForbidden name = true ∨ authorityNameIsForbidden name = true) ↔
      ∃ forbidden ∈ forbiddenNames, name.map asciiLower = forbidden.map asciiLower := by
  unfold framingNameIsForbidden authorityNameIsForbidden forbiddenNames
  rw [← Bool.or_eq_true, ← any_append, any_eq_true]
  simp only [spanEqualsCase_iff]

theorem validateName_iff :
    validateName name = .ok () ↔ name ≠ [] ∧ (∀ c ∈ name, asciiIsTchar c = true) ∧
      ∀ forbidden ∈ forbiddenNames, name.map asciiLower ≠ forbidden.map asciiLower := by
  have hforbidden := forbidden_iff name
  unfold validateName
  by_cases hnil : name = []
  · rw [if_pos hnil]
    exact ⟨fun h => (nomatch h), fun h => absurd hnil h.1⟩
  · rw [if_neg hnil]
    by_cases htoken : name.all asciiIsTchar = true
    · rw [if_neg (not_not_intro htoken)]
      by_cases hframing : framingNameIsForbidden name = true
      · rw [if_pos hframing]
        obtain ⟨forbidden, hmem, hsame⟩ := hforbidden.mp (.inl hframing)
        exact ⟨fun h => (nomatch h), fun h => absurd hsame (h.2.2 forbidden hmem)⟩
      · rw [if_neg hframing]
        by_cases hauthority : authorityNameIsForbidden name = true
        · rw [if_pos hauthority]
          obtain ⟨forbidden, hmem, hsame⟩ := hforbidden.mp (.inr hauthority)
          exact ⟨fun h => (nomatch h), fun h => absurd hsame (h.2.2 forbidden hmem)⟩
        · rw [if_neg hauthority]
          refine ⟨fun _ => ⟨hnil, all_eq_true.mp htoken, ?_⟩, fun _ => rfl⟩
          intro forbidden hmem hsame
          cases hforbidden.mpr ⟨forbidden, hmem, hsame⟩ with
          | inl h => exact hframing h
          | inr h => exact hauthority h
    · rw [if_pos htoken]
      exact ⟨fun h => (nomatch h), fun h => absurd (all_eq_true.mpr h.2.1) htoken⟩

/-! ## Values -/

theorem trimOws_sublist (value : Bytes) : (trimOws value).Sublist value :=
  (List.rdropWhile_prefix _ _).sublist.trans (dropWhile_sublist _)

theorem first_trimOws (value : Bytes) : ∀ c ∈ (trimOws value).head?, isOws c = false := by
  intro c hc
  have hprefix := rdropWhile_prefix isOws (value.dropWhile isOws)
  obtain ⟨t, ht⟩ := hprefix
  have hhead : (value.dropWhile isOws).head? = some c := by
    rw [← ht, head?_append]
    unfold trimOws at hc
    rw [hc]
    rfl
  have hnot := head?_dropWhile_not isOws value
  rw [hhead] at hnot
  exact hnot

theorem last_trimOws (value : Bytes) : ∀ c ∈ (trimOws value).getLast?, isOws c = false := by
  intro c hc
  unfold trimOws at hc
  obtain ⟨hne, hlast⟩ := mem_getLast?_eq_getLast hc
  have hnot := rdropWhile_last_not isOws _ hne
  rw [← hlast] at hnot
  exact Bool.eq_false_iff.mpr hnot

theorem trimOws_eq_self (hfirst : ∀ c ∈ value.head?, isOws c = false) (hlast : ∀ c ∈ value.getLast?, isOws c = false) :
    trimOws value = value := by
  have hdrop : value.dropWhile isOws = value := by
    cases value with
    | nil => rfl
    | cons c value => exact dropWhile_cons_of_neg (Bool.eq_false_iff.mp (hfirst c rfl))
  unfold trimOws
  rw [hdrop, rdropWhile_eq_self_iff]
  intro hne
  exact Bool.eq_false_iff.mp (hlast _ (getLast?_eq_some_getLast hne))

theorem normalizeValueSpan_iff {trimmed : Bytes} :
    normalizeValueSpan value = .ok trimmed ↔ (∀ c ∈ value, isControl c = true → c = 9) ∧ trimOws value = trimmed := by
  unfold normalizeValueSpan
  by_cases hbad : (value.any fun c => isControl c && c != 9) = true
  · rw [if_pos hbad]
    refine ⟨fun h => (nomatch h), ?_⟩
    intro h
    obtain ⟨c, hc, hcontrol⟩ := any_eq_true.mp hbad
    rw [Bool.and_eq_true, bne_iff_ne] at hcontrol
    exact absurd (h.1 c hc hcontrol.1) hcontrol.2
  · rw [if_neg hbad]
    refine ⟨?_, fun h => congrArg Except.ok h.2⟩
    intro h
    refine ⟨?_, Except.ok.inj h⟩
    intro c hc hcontrol
    apply Classical.byContradiction
    intro htab
    exact hbad (any_eq_true.mpr ⟨c, hc, by rw [hcontrol, bne_iff_ne.mpr htab]; rfl⟩)

/-! ## Views -/

theorem viewPair_iff :
    viewPair name value = .ok view ↔ validateName name = .ok () ∧ ∃ trimmed, normalizeValueSpan value = .ok trimmed ∧
      view = { name, value := trimmed } := by
  unfold viewPair
  cases hname : validateName name with
  | error e => exact ⟨fun h => (nomatch h), fun h => nomatch h.1⟩
  | ok u =>
    cases hvalue : normalizeValueSpan value with
    | error e => exact ⟨fun h => (nomatch h), fun ⟨_, _, h, _⟩ => nomatch h⟩
    | ok trimmed =>
      refine ⟨?_, ?_⟩
      · intro h
        exact ⟨rfl, trimmed, rfl, (Except.ok.inj h).symm⟩
      · intro h
        obtain ⟨_, t, ht, rfl⟩ := h
        cases ht
        rfl

theorem field_of_viewPair (h : viewPair name value = .ok view) : Field view := by
  obtain ⟨hname, trimmed, hvalue, rfl⟩ := viewPair_iff.mp h
  obtain ⟨hne, htoken, hallowed⟩ := validateName_iff.mp hname
  obtain ⟨hprintable, rfl⟩ := normalizeValueSpan_iff.mp hvalue
  exact { nonempty := hne
          token := htoken
          allowed := hallowed
          printable := fun c hc => hprintable c ((trimOws_sublist value).subset hc)
          first := first_trimOws value
          last := last_trimOws value }

theorem viewPair_of_field (h : Field view) : viewPair view.name view.value = .ok view :=
  viewPair_iff.mpr ⟨validateName_iff.mpr ⟨h.nonempty, h.token, h.allowed⟩, view.value,
    normalizeValueSpan_iff.mpr ⟨h.printable, trimOws_eq_self h.first h.last⟩, rfl⟩

set_option maxRecDepth 4000 in
theorem tchar_visible {c : UInt8} (h : asciiIsTchar c = true) : isControl c = false ∧ c ≠ colon ∧ c ≠ 59 ∧ c ≠ 32 := by
  have hall : ∀ n, n < 256 → asciiIsTchar (UInt8.ofNat n) = true →
      isControl (UInt8.ofNat n) = false ∧ UInt8.ofNat n ≠ colon ∧ UInt8.ofNat n ≠ 59 ∧ UInt8.ofNat n ≠ 32 := by
    decide
  exact forall_byte (P := fun c => asciiIsTchar c = true → isControl c = false ∧ c ≠ colon ∧ c ≠ 59 ∧ c ≠ 32) hall c h

theorem colon_notMem_of_viewPair (h : viewPair name value = .ok view) : colon ∉ name := by
  intro hmem
  exact (tchar_visible ((validateName_iff.mp (viewPair_iff.mp h).1).2.1 colon hmem)).2.1 rfl

theorem takeWhile_separator {b : UInt8} {before : Bytes} (h : b ∉ before) (after : Bytes) :
    (before ++ b :: after).takeWhile (· != b) = before ∧ (before ++ b :: after).dropWhile (· != b) = b :: after := by
  have hall : ∀ c ∈ before, (c != b) = true := by
    intro c hc
    exact bne_iff_ne.mpr fun heq => h (heq ▸ hc)
  rw [takeWhile_append_of_pos hall, dropWhile_append_of_pos hall]
  simp

theorem parseLine_pair (hname : colon ∉ name) (value : Bytes) : parseLine (name ++ colon :: value) =
    viewPair name value := by
  have hmem : colon ∈ name ++ colon :: value := mem_append_right _ mem_cons_self
  obtain ⟨htake, hdrop⟩ := takeWhile_separator hname value
  unfold parseLine viewPair
  dsimp only
  rw [if_neg (not_not_intro hmem), htake, hdrop]
  rfl

theorem exists_pair_of_parseLine (h : parseLine line = .ok view) :
    ∃ name value, colon ∉ name ∧ line = name ++ colon :: value ∧ viewPair name value = .ok view := by
  have hmem : colon ∈ line := by
    apply Classical.byContradiction
    intro hnone
    unfold parseLine at h
    simp [hnone] at h
  obtain ⟨name, value, rfl, hname⟩ := eq_append_cons_of_mem hmem
  refine ⟨name, value, hname, rfl, ?_⟩
  rw [← parseLine_pair hname, h]

/-! ## Texts -/

theorem length_fieldText (curlFormat : Bool) (view : HttpHeaderView) :
    (fieldText curlFormat view).length =
      view.name.length + (if 0 < view.value.length then 2 else 1) + view.value.length := by
  unfold fieldText
  by_cases hnil : view.value = []
  · rw [if_pos hnil, hnil]
    simp
  · rw [if_neg hnil, if_pos (length_pos_iff.mpr hnil)]
    simp
    omega

theorem formatView_eq (calloc : Allocator) (view : HttpHeaderView) (curlFormat : Bool) :
    formatView calloc view curlFormat =
      if (fieldText curlFormat view).length < sizeMax ∧ calloc ((fieldText curlFormat view).length + 1) = true then
        .ok (fieldText curlFormat view)
      else .error .outOfMemory := by
  have hlength := length_fieldText curlFormat view
  have hseparator : 1 ≤ (if 0 < view.value.length then 2 else 1) ∧ (if 0 < view.value.length then 2 else 1) ≤ 2 := by
    split <;> decide
  have hsize : sizeMax = 2 ^ 64 - 1 := rfl
  unfold formatView
  dsimp only
  rw [← hlength]
  generalize (if 0 < view.value.length then 2 else 1) = separatorLen at *
  by_cases hover : sizeMax - separatorLen < view.name.length ∨
      sizeMax - view.value.length < view.name.length + separatorLen
  · rw [if_pos hover, if_neg fun h => by omega]
  · rw [if_neg hover]
    by_cases hfull : (fieldText curlFormat view).length = sizeMax
    · rw [if_pos hfull, if_neg fun h => by omega]
    · rw [if_neg hfull]
      by_cases hcalloc : calloc ((fieldText curlFormat view).length + 1) = true
      · rw [if_neg (not_not_intro hcalloc), if_pos ⟨by omega, hcalloc⟩]
      · rw [if_pos hcalloc, if_neg fun h => hcalloc h.2]

variable {curlFormat : Bool}

theorem formatView_ok (h : formatView calloc view curlFormat = .ok out) :
    out = fieldText curlFormat view ∧ (fieldText curlFormat view).length < sizeMax := by
  rw [formatView_eq] at h
  by_cases hroom : (fieldText curlFormat view).length < sizeMax ∧
      calloc ((fieldText curlFormat view).length + 1) = true
  · rw [if_pos hroom] at h
    exact ⟨(Except.ok.inj h).symm, hroom.1⟩
  · simp [hroom] at h

theorem Field.text_printable (h : Field view) (curlFormat : Bool) :
    ∀ c ∈ fieldText curlFormat view, isControl c = true → c = 9 := by
  have hname : ∀ c ∈ view.name, isControl c = true → c = 9 := by
    intro c hc hcontrol
    simp [(tchar_visible (h.token c hc)).1] at hcontrol
  intro c hc hcontrol
  unfold fieldText at hc
  by_cases hnil : view.value = []
  · rw [if_pos hnil] at hc
    cases mem_append.mp hc with
    | inl hmem => exact hname c hmem hcontrol
    | inr hmem =>
      rw [mem_singleton.mp hmem] at hcontrol
      cases curlFormat <;> exact absurd hcontrol (by decide)
  · rw [if_neg hnil] at hc
    cases mem_append.mp hc with
    | inl hmem => exact hname c hmem hcontrol
    | inr hmem =>
      cases mem_cons.mp hmem with
      | inl heq =>
        rw [heq] at hcontrol
        exact absurd hcontrol (by decide)
      | inr hrest =>
        cases mem_cons.mp hrest with
        | inl heq =>
          rw [heq] at hcontrol
          exact absurd hcontrol (by decide)
        | inr hvalue => exact h.printable c hvalue hcontrol

theorem parseLine_fieldText (h : Field view) : parseLine (fieldText false view) = .ok view := by
  have hcolon := colon_notMem_of_viewPair (viewPair_of_field h)
  have hname := (viewPair_iff.mp (viewPair_of_field h)).1
  unfold fieldText
  by_cases hnil : view.value = []
  · rw [if_pos hnil, if_neg Bool.false_ne_true, parseLine_pair hcolon, ← hnil]
    exact viewPair_of_field h
  · have hblank : trimOws (32 :: view.value) = view.value := by
      have hself := trimOws_eq_self h.first h.last
      unfold trimOws at hself ⊢
      rw [dropWhile_cons_of_pos (by decide)]
      exact hself
    have hprintable : ∀ c ∈ (32 : UInt8) :: view.value, isControl c = true → c = 9 := by
      intro c hc hcontrol
      cases mem_cons.mp hc with
      | inl heq =>
        rw [heq] at hcontrol
        exact absurd hcontrol (by decide)
      | inr hmem => exact h.printable c hmem hcontrol
    rw [if_neg hnil, parseLine_pair hcolon]
    exact viewPair_iff.mpr ⟨hname, view.value, normalizeValueSpan_iff.mpr ⟨hprintable, hblank⟩, rfl⟩

/-! ## The ways in and out -/

def Written (curlFormat : Bool) (out : Bytes) : Prop :=
  ∃ view, Field view ∧ out = fieldText curlFormat view ∧ ∀ c ∈ out, isControl c = true → c = 9

theorem written_of_view (h : Field view) (hout : formatView calloc view curlFormat = .ok out) :
    Written curlFormat out := by
  rw [(formatView_ok hout).1]
  exact ⟨view, h, rfl, h.text_printable curlFormat⟩

theorem field_of_parseLine (h : parseLine line = .ok view) : Field view := by
  obtain ⟨_, _, _, _, hpair⟩ := exists_pair_of_parseLine h
  exact field_of_viewPair hpair

theorem exists_view {parsed : Except HttpHeaderError HttpHeaderView}
    (h : (do let view ← parsed; formatView calloc view curlFormat) = .ok out) :
    ∃ view, parsed = .ok view ∧ formatView calloc view curlFormat = .ok out := by
  cases parsed with
  | error e => cases h
  | ok view => exact ⟨view, rfl, h⟩

theorem normalizeLine_again (h : normalizeLine calloc line = .ok out) (calloc' : Allocator) :
    normalizeLine calloc' out = if calloc' (out.length + 1) = true then .ok out else .error .outOfMemory := by
  obtain ⟨view, hview, hout⟩ := exists_view h
  obtain ⟨rfl, hsmall⟩ := formatView_ok hout
  unfold normalizeLine
  rw [parseLine_fieldText (field_of_parseLine hview)]
  refine (formatView_eq calloc' view false).trans ?_
  by_cases hcalloc : calloc' ((fieldText false view).length + 1) = true
  · rw [if_pos hcalloc, if_pos ⟨hsmall, hcalloc⟩]
  · rw [if_neg hcalloc, if_neg fun hand => hcalloc hand.2]

theorem viewPair_of_normalizePair {malloc : Allocator} {pair : Bytes × Bytes}
    (h : normalizePair malloc name value = .ok pair) :
    viewPair name value = .ok { name := pair.1, value := pair.2 } := by
  unfold normalizePair at h
  cases hview : viewPair name value with
  | error e =>
    rw [hview] at h
    cases h
  | ok view =>
    rw [hview] at h
    by_cases hroom : malloc (view.name.length + 1) = true ∧ malloc (view.value.length + 1) = true
    · have hpair := (if_pos hroom).symm.trans h
      cases hpair
      rfl
    · have hfull := (if_neg hroom).symm.trans h
      cases hfull

end

/-- **Main result.** What the four ways write is a field that can be sent, a normalised line stays as it is, and a name
and a value are treated as the line made of them. -/
theorem headers_are_fields :
    (∀ calloc line out, normalizeLine calloc line = .ok out → Written false out ∧
      ∀ calloc' : Allocator,
        normalizeLine calloc' out = if calloc' (out.length + 1) = true then .ok out else .error .outOfMemory) ∧
    (∀ calloc line out, formatLineForCurl calloc line = .ok out → Written true out) ∧
    (∀ calloc name value out, formatPairForCurl calloc name value = .ok out → Written true out ∧
      formatLineForCurl calloc (name ++ colon :: value) = .ok out) ∧
    (∀ malloc name value pair, normalizePair malloc name value = .ok pair → Field ⟨pair.1, pair.2⟩ ∧
      ∀ calloc, normalizeLine calloc (name ++ colon :: value) = formatView calloc ⟨pair.1, pair.2⟩ false) ∧
    ∀ name value, colon ∉ name → parseLine (name ++ colon :: value) = viewPair name value := by
  refine ⟨?_, ?_, ?_, ?_, ?_⟩
  · intro calloc line out h
    obtain ⟨view, hview, hout⟩ := exists_view h
    exact ⟨written_of_view (field_of_parseLine hview) hout, normalizeLine_again h⟩
  · intro calloc line out h
    obtain ⟨view, hview, hout⟩ := exists_view h
    exact written_of_view (field_of_parseLine hview) hout
  · intro calloc name value out h
    obtain ⟨view, hview, hout⟩ := exists_view h
    refine ⟨written_of_view (field_of_viewPair hview) hout, ?_⟩
    unfold formatLineForCurl
    rw [parseLine_pair (colon_notMem_of_viewPair hview), hview]
    exact hout
  · intro malloc name value pair h
    have hview := viewPair_of_normalizePair h
    refine ⟨field_of_viewPair hview, ?_⟩
    intro calloc
    unfold normalizeLine
    rw [parseLine_pair (colon_notMem_of_viewPair hview), hview]
    rfl
  · intro name value hname
    exact parseLine_pair hname value

example : normalizeLine (fun _ => true) [65, 58, 9, 66, 32] = .ok [65, 58, 32, 66] := by
  decide

end Bx.Fetch.Header
