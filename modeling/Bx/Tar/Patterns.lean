import Bx.Kit.CString
import Mathlib.Data.List.GetD

/-!
# Patterns of member names

`src/applets/archive/tar/tar_patterns.c`: a pattern text is matched against an archive path, or against every part of
it behind a slash. For exclusion the texts are prepared once, and a plain unanchored text without slash is compared
with the components. `fnmatch` and `tolower` are the library's.
-/

namespace Bx.Tar.Patterns

open Bx.Kit List

/-- `fnmatch` under `FNM_PATHNAME` or without flags, and `tolower`: no other character has
the lower case of the slash. -/
structure Libc where
  fnmatch : CStr → CStr → Bool → Bool
  toLower : Char → Char
  slash_lower : ∀ ch, toLower ch = toLower '/' → ch = '/'

structure MatchPolicy where
  anchored : Bool
  ignoreCase : Bool
  wildcards : Bool
  wildcardsMatchSlash : Bool

structure MatchPattern where
  text : CStr
  foldedText : Option CStr
  trimmedLen : Nat
  wildcardMagic : Bool
  hasSlash : Bool
  policy : MatchPolicy

structure MatchPatternList where
  items : List MatchPattern := []
  cap : Nat := 0

def charAt (text : CStr) (i : Nat) : Char := text.getD i '\x00'

/-! ## Comparing texts -/

section
variable (libc : Libc)

def matchCharEqual (left right : Char) (ignoreCase : Bool) : Bool :=
  if ignoreCase then libc.toLower left = libc.toLower right else left = right

def trimFrom (text : CStr) : Nat → Nat
  | 0 => 0
  | len + 1 => if charAt text len = '/' then trimFrom text len else len + 1

def matchTrimmedLen (text : CStr) : Nat := trimFrom text text.length

def matchTextEqualLen (left : CStr) (leftLen : Nat) (right : CStr) (rightLen : Nat) (ignoreCase : Bool) : Bool :=
  leftLen = rightLen &&
    (List.range leftLen).all fun i => matchCharEqual libc (charAt left i) (charAt right i) ignoreCase

def matchPatternHasWildcardMagic (text : CStr) : Bool :=
  text.any fun ch => ch = '*' || ch = '?' || ch = '[' || ch = '\\'

def matchPatternHasSlash (text : CStr) : Bool := '/' ∈ text

def matchDupFoldedRange (text : CStr) (len : Nat) (ignoreCase : Bool) : CStr :=
  (text.take len).map fun ch => if ignoreCase then libc.toLower ch else ch

def matchWildcardText (pattern : CStr) (foldedPattern : Option CStr) (policy : MatchPolicy) (text : CStr)
    (textLen : Nat) :
    Bool :=
  let pathname := !policy.wildcardsMatchSlash
  let textIsFull := charAt text textLen = '\x00'
  if !policy.ignoreCase then
    if textIsFull then libc.fnmatch pattern text pathname
    else libc.fnmatch pattern (matchDupFoldedRange libc text textLen false) pathname
  else libc.fnmatch (foldedPattern.getD pattern) (matchDupFoldedRange libc text textLen true) pathname

def matchLiteralTextLen (pattern : CStr) (patternLen : Nat) (policy : MatchPolicy) (recurse : Bool) (text : CStr)
    (textLen : Nat) : Bool :=
  if matchTextEqualLen libc pattern patternLen text textLen policy.ignoreCase then true
  else if !recurse || textLen ≤ patternLen then false
  else charAt text patternLen = '/' && matchTextEqualLen libc pattern patternLen text patternLen policy.ignoreCase

def wildcardParents (pattern : CStr) (foldedPattern : Option CStr) (policy : MatchPolicy) (text : CStr) : Nat → Bool
  | 0 => false
  | textLen + 1 =>
    if charAt text textLen = '/' && matchWildcardText libc pattern foldedPattern policy text textLen then true
    else wildcardParents pattern foldedPattern policy text textLen

def matchPatternText (pattern : MatchPattern) (recurse : Bool) (text : CStr) (textLen : Nat) : Bool :=
  if pattern.policy.wildcards && pattern.wildcardMagic then
    if matchWildcardText libc pattern.text pattern.foldedText pattern.policy text textLen then true
    else if !recurse then false
    else wildcardParents libc pattern.text pattern.foldedText pattern.policy text textLen
  else matchLiteralTextLen libc pattern.text pattern.trimmedLen pattern.policy recurse text textLen

def matchPolicyTextRaw (pattern : CStr) (policy : MatchPolicy) (recurse : Bool) (text : CStr) (textLen : Nat) : Bool :=
  let wildcardMagic := matchPatternHasWildcardMagic pattern
  if policy.wildcards && wildcardMagic then
    let foldedPattern := if policy.ignoreCase then some (matchDupFoldedRange libc pattern pattern.length true) else none
    if matchWildcardText libc pattern foldedPattern policy text textLen then true
    else if !recurse then false
    else wildcardParents libc pattern foldedPattern policy text textLen
  else matchLiteralTextLen libc pattern (matchTrimmedLen pattern) policy recurse text textLen

/-! ## Scanning a name -/

/-- Each part of the name that follows a slash; `remaining` is `name_end - cursor`. -/
def scanSuffixes (matchText : CStr → Nat → Bool) (cursor : CStr) : Nat → Bool
  | 0 => false
  | remaining + 1 =>
    if charAt cursor 0 = '/' && matchText cursor.tail remaining then true
    else scanSuffixes matchText cursor.tail remaining

/-- Each component of the name: `segment` is where it starts, `count` is `p - segment`. -/
def scanSegments (pattern : MatchPattern) (segment : CStr) (count : Nat) (p : CStr) : Nat → Bool
  | 0 => matchTextEqualLen libc pattern.text pattern.trimmedLen segment count pattern.policy.ignoreCase
  | remaining + 1 =>
    if charAt p 0 = '/' then
      if matchTextEqualLen libc pattern.text pattern.trimmedLen segment count pattern.policy.ignoreCase then true
      else scanSegments pattern p.tail 0 p.tail remaining
    else scanSegments pattern segment (count + 1) p.tail remaining

def scanned (trimName : Bool) (name : CStr) : Nat := if trimName then matchTrimmedLen name else name.length

def byComponent (pattern : MatchPattern) (recurse : Bool) : Bool :=
  recurse && !pattern.policy.anchored && !pattern.wildcardMagic && !pattern.hasSlash

def scanNameSuffixes (pattern : MatchPattern) (recurse : Bool) (name : CStr) (nameLen : Nat) : Bool :=
  if matchPatternText libc pattern recurse name nameLen then true
  else if pattern.policy.anchored then false
  else scanSuffixes (matchPatternText libc pattern recurse) name nameLen

def matchScanNamePattern (pattern : MatchPattern) (recurse : Bool) (name : CStr) (trimName : Bool) : Bool :=
  let nameLen := scanned trimName name
  if byComponent pattern recurse then scanSegments libc pattern name 0 name nameLen
  else scanNameSuffixes libc pattern recurse name nameLen

def matchScanNameRaw (pattern : CStr) (policy : MatchPolicy) (recurse : Bool) (name : CStr) (trimName : Bool) : Bool :=
  let nameLen := scanned trimName name
  if matchPolicyTextRaw libc pattern policy recurse name nameLen then true
  else if policy.anchored then false
  else scanSuffixes (matchPolicyTextRaw libc pattern policy recurse) name nameLen

/-! ## Lists of patterns -/

def preparePattern (text : CStr) (policy : MatchPolicy) : MatchPattern :=
  { text := text
    foldedText := if policy.ignoreCase then some (matchDupFoldedRange libc text text.length true) else none
    trimmedLen := matchTrimmedLen text
    wildcardMagic := matchPatternHasWildcardMagic text
    hasSlash := matchPatternHasSlash text
    policy := policy }

def matchPatternListAppend (list : MatchPatternList) (text : CStr) (policy : MatchPolicy) : MatchPatternList :=
  let cap := if list.items.length = list.cap then if list.cap ≠ 0 then list.cap * 2 else 8 else list.cap
  { items := list.items ++ [preparePattern libc text policy], cap := cap }

def matchExcludePattern (pattern : CStr) (policy : MatchPolicy) (archivePath : CStr) : Bool :=
  matchScanNameRaw libc pattern policy true archivePath false

def pathExcluded (patterns : MatchPatternList) (archivePath : CStr) : Bool :=
  patterns.items.any fun pattern => matchScanNamePattern libc pattern true archivePath false

/-! ## The components and the suffixes -/

variable {libc} {pattern : CStr} {policy : MatchPolicy} {recurse : Bool} {text : CStr} {count n : Nat}

theorem trimFrom_of_no_slash (h : '/' ∉ pattern) (hle : n ≤ pattern.length) : trimFrom pattern n = n := by
  cases n with
  | zero => rfl
  | succ len =>
    have hne : charAt pattern len ≠ '/' := by
      intro heq
      unfold charAt at heq
      rw [getD_eq_getElem _ _ hle] at heq
      exact h (heq ▸ getElem_mem hle)
    rw [trimFrom, if_neg hne]

variable {ignoreCase : Bool} {i : Nat}

theorem charEqual_slash {ch : Char} (h : matchCharEqual libc ch '/' ignoreCase = true) : ch = '/' := by
  unfold matchCharEqual at h
  split at h
  · exact libc.slash_lower ch (of_decide_eq_true h)
  · exact of_decide_eq_true h

theorem textEqualLen_no_slash (h : '/' ∉ pattern) (hi : i < pattern.length)
    (heq : matchTextEqualLen libc pattern pattern.length text n ignoreCase = true) : charAt text i ≠ '/' := by
  intro hslash
  unfold matchTextEqualLen at heq
  rw [Bool.and_eq_true, all_eq_true] at heq
  have hchar := heq.2 i (mem_range.mpr hi)
  rw [hslash] at hchar
  have hat := charEqual_slash hchar
  unfold charAt at hat
  rw [getD_eq_getElem _ _ hi] at hat
  exact h (hat ▸ getElem_mem hi)

theorem textEqualLen_length (heq : matchTextEqualLen libc pattern n text i ignoreCase = true) : n = i := by
  unfold matchTextEqualLen at heq
  rw [Bool.and_eq_true] at heq
  exact of_decide_eq_true heq.1

theorem literal_of_last (hslash : ∀ i < count, charAt text i ≠ '/') :
    matchLiteralTextLen libc pattern n policy true text count =
      matchTextEqualLen libc pattern n text count policy.ignoreCase := by
  unfold matchLiteralTextLen
  by_cases heq : matchTextEqualLen libc pattern n text count policy.ignoreCase = true
  · rw [if_pos heq, heq]
  · rw [if_neg heq, Bool.eq_false_iff.mpr heq]
    by_cases hle : count ≤ n
    · rw [if_pos (by simpa using hle)]
    · rw [if_neg (by simpa using hle)]
      have hne := hslash n (Nat.lt_of_not_le hle)
      simp [hne]

theorem literal_of_slash (h : '/' ∉ pattern) (hslash : ∀ i < count, charAt text i ≠ '/') (hat : charAt text count = '/')
    (hlt : count < n) :
    matchLiteralTextLen libc pattern pattern.length policy true text n =
      matchTextEqualLen libc pattern pattern.length text count policy.ignoreCase := by
  unfold matchLiteralTextLen
  have hwhole : ¬matchTextEqualLen libc pattern pattern.length text n policy.ignoreCase = true := by
    intro heq
    have hlen := textEqualLen_length heq
    exact textEqualLen_no_slash h (hlen ▸ hlt) heq hat
  rw [if_neg hwhole]
  cases Nat.lt_trichotomy pattern.length count with
  | inl hless =>
    have hne : ¬matchTextEqualLen libc pattern pattern.length text count policy.ignoreCase = true :=
      fun heq => ne_of_lt hless (textEqualLen_length heq)
    rw [Bool.eq_false_iff.mpr hne]
    split
    · rfl
    · have hchar := hslash pattern.length hless
      simp [hchar]
  | inr hge =>
    cases hge with
    | inl heq =>
      rw [if_neg (by simp; omega), heq, hat]
      simp
    | inr hmore =>
      have hne : ¬matchTextEqualLen libc pattern pattern.length text count policy.ignoreCase = true :=
        fun heq => ne_of_gt hmore (textEqualLen_length heq)
      have hprefix : ¬matchTextEqualLen libc pattern pattern.length text pattern.length policy.ignoreCase = true :=
        fun heq => textEqualLen_no_slash h hmore heq hat
      rw [Bool.eq_false_iff.mpr hne, Bool.eq_false_iff.mpr hprefix]
      simp

theorem charAt_drop (text : CStr) (i : Nat) : charAt (text.drop i) 0 = charAt text i := by
  unfold charAt
  rw [getD_eq_getElem?_getD, getD_eq_getElem?_getD, getElem?_drop, Nat.add_zero]

/-- Comparing the components is matching the parts that follow a slash: the component that is being
read has no slash in it so far. -/
theorem scanSegments_eq {prepared : MatchPattern} (h : '/' ∉ prepared.text)
    (htrim : prepared.trimmedLen = prepared.text.length) (remaining : Nat) (segment : CStr) (count : Nat)
    (hslash : ∀ i < count, charAt segment i ≠ '/') :
    scanSegments libc prepared segment count (segment.drop count) remaining =
      (matchLiteralTextLen libc prepared.text prepared.trimmedLen prepared.policy true segment (count + remaining) ||
        scanSuffixes (matchLiteralTextLen libc prepared.text prepared.trimmedLen prepared.policy true)
          (segment.drop count) remaining) := by
  induction remaining generalizing segment count with
  | zero => rw [scanSegments, scanSuffixes, Bool.or_false, Nat.add_zero, literal_of_last hslash]
  | succ remaining ih =>
    rw [scanSegments, scanSuffixes, charAt_drop, tail_drop]
    by_cases hat : charAt segment count = '/'
    · have hsegment := ih (segment.drop (count + 1)) 0 fun i hi => absurd hi (Nat.not_lt_zero i)
      rw [drop_zero, Nat.zero_add] at hsegment
      rw [if_pos hat, htrim, literal_of_slash h hslash hat (by omega), ← htrim, hsegment, hat]
      cases matchTextEqualLen libc prepared.text prepared.trimmedLen segment count prepared.policy.ignoreCase with
      | true => rfl
      | false =>
        cases matchLiteralTextLen libc prepared.text prepared.trimmedLen prepared.policy true
          (segment.drop (count + 1)) remaining with
        | true => rfl
        | false => rfl
    · have hlonger : ∀ i < count + 1, charAt segment i ≠ '/' := by
        intro i hi
        cases Nat.lt_succ_iff_lt_or_eq.mp hi with
        | inl hlt => exact hslash i hlt
        | inr heq => exact heq ▸ hat
      rw [if_neg hat, ih segment (count + 1) hlonger, decide_eq_false hat, Bool.false_and, Nat.add_assoc,
        Nat.add_comm 1]
      rfl

/-! ## Prepared patterns -/

theorem not_anchored_of_byComponent {prepared : MatchPattern} (h : byComponent prepared recurse = true) :
    recurse = true ∧ prepared.policy.anchored = false ∧ prepared.wildcardMagic = false ∧ prepared.hasSlash = false := by
  unfold byComponent at h
  simpa [and_assoc] using h

theorem scanSegments_eq_scanNameSuffixes (text : CStr)
    (hby : byComponent (preparePattern libc text policy) recurse = true) (name : CStr) (nameLen : Nat) :
    scanSegments libc (preparePattern libc text policy) name 0 name nameLen =
      scanNameSuffixes libc (preparePattern libc text policy) recurse name nameLen := by
  obtain ⟨hrecurse, hanchored, hmagic, hslash⟩ := not_anchored_of_byComponent hby
  have hno : '/' ∉ text := of_decide_eq_false hslash
  have htrim : matchTrimmedLen text = text.length := trimFrom_of_no_slash hno (Nat.le_refl _)
  have hliteral : matchPatternText libc (preparePattern libc text policy) recurse =
      matchLiteralTextLen libc text (matchTrimmedLen text) policy true := by
    funext cursor len
    unfold matchPatternText
    rw [hmagic, hrecurse, Bool.and_false]
    rfl
  have hsegments := @scanSegments_eq libc (preparePattern libc text policy) hno htrim nameLen name 0
    fun i hi => absurd hi (Nat.not_lt_zero i)
  rw [drop_zero, Nat.zero_add] at hsegments
  unfold scanNameSuffixes
  rw [hsegments, hanchored, hliteral]
  unfold preparePattern
  dsimp only
  cases matchLiteralTextLen libc text (matchTrimmedLen text) policy true name nameLen with
  | true => rfl
  | false => rfl

theorem matchScanNamePattern_eq_raw (text : CStr) (policy : MatchPolicy) (recurse : Bool) (name : CStr)
    (trimName : Bool) :
    matchScanNamePattern libc (preparePattern libc text policy) recurse name trimName =
      matchScanNameRaw libc text policy recurse name trimName := by
  unfold matchScanNamePattern
  dsimp only
  split
  · next hby => exact scanSegments_eq_scanNameSuffixes text hby name _
  · rfl

end

end Bx.Tar.Patterns
