import Bx.Sort.Compare
import Mathlib.Data.List.TakeWhile

/-!
# The comparisons are orders

Numbers are compared by sign and then by size, where zero has no sign; versions as lists of characters and runs. Each
comparison is put together from smaller ones, so each is oriented and transitive.
-/

namespace Bx.Sort
open Kit Std List

/-! ## Numbers -/

instance transCmp_compareDigits : TransCmp compareDigits :=
  inferInstanceAs (TransCmp (compareLex (compareOn fun digits => (stripLeadingZeros digits).length)
    (compareOn stripLeadingZeros)))

instance transCmp_compareNumericAbs : TransCmp compareNumericAbs :=
  have : TransCmp fun l r : NumericToken => compareDigits l.intDigits r.intDigits :=
    transCmp_on compareDigits NumericToken.intDigits
  have : TransCmp fun l r : NumericToken =>
      comparePadded 48 (stripTrailingZeros l.fracDigits) (stripTrailingZeros r.fracDigits) :=
    transCmp_on (comparePadded 48) fun token : NumericToken => stripTrailingZeros token.fracDigits
  inferInstanceAs (TransCmp (compareLex (fun l r : NumericToken => compareDigits l.intDigits r.intDigits)
    fun l r => comparePadded 48 (stripTrailingZeros l.fracDigits) (stripTrailingZeros r.fracDigits)))

structure Normal (token : NumericToken) : Prop where
  sign : token.isZero = true → token.sign = 1
  intDigits : token.isZero = true → ∀ d ∈ token.intDigits, d = 48
  fracDigits : token.isZero = true → ∀ d ∈ token.fracDigits, d = 48

theorem normal_parseDigits (sign : Int) (p : Bytes) : Normal (parseDigits sign p) := by
  refine ⟨?_, ?_, ?_⟩
  · intro hzero
    unfold parseDigits at hzero ⊢
    dsimp only at hzero ⊢
    rw [hzero, Bool.or_true, if_pos rfl]
  · intro hzero d hd
    have hall := (Bool.and_eq_true _ _ ▸ hzero).1
    simpa using all_eq_true.mp hall d hd
  · intro hzero d hd
    have hall := (Bool.and_eq_true _ _ ▸ hzero).2
    simpa using all_eq_true.mp hall d hd

theorem normal_parseNumericToken (L : Locale) (text : Bytes) : Normal (parseNumericToken L text) := by
  unfold parseNumericToken
  dsimp only
  split
  · exact normal_parseDigits _ _
  · split
    · exact normal_parseDigits _ _
    · exact normal_parseDigits _ _

variable {digits : Bytes} {left right : NumericToken}

theorem stripLeadingZeros_of_zeros (h : ∀ d ∈ digits, d = 48) : stripLeadingZeros digits = [] := by
  unfold stripLeadingZeros
  apply dropWhile_eq_nil_iff.mpr
  intro d hd
  simpa using h d hd

theorem stripTrailingZeros_of_zeros (h : ∀ d ∈ digits, d = 48) : stripTrailingZeros digits = [] := by
  have hstrip : digits.reverse.dropWhile (· == 48) = [] := by
    apply stripLeadingZeros_of_zeros
    intro d hd
    exact h d (mem_reverse.mp hd)
  unfold stripTrailingZeros
  rw [hstrip]
  rfl

theorem compareNumericAbs_of_zero (hl : Normal left) (hr : Normal right)
    (hleft : left.isZero = true) (hright : right.isZero = true) : compareNumericAbs left right = .eq := by
  unfold compareNumericAbs compareDigits
  rw [stripLeadingZeros_of_zeros (hl.intDigits hleft), stripLeadingZeros_of_zeros (hr.intDigits hright),
    stripTrailingZeros_of_zeros (hl.fracDigits hleft), stripTrailingZeros_of_zeros (hr.fracDigits hright)]
  unfold comparePadded
  rfl

theorem compareNumericTokens_eq (hl : Normal left) (hr : Normal right) : compareNumericTokens left right =
      fiberCmp NumericToken.sign (fun s l r => reverseIf (s < 0) (compareNumericAbs l r)) left right := by
  unfold compareNumericTokens
  by_cases hzero : (left.isZero && right.isZero) = true
  · rw [if_pos hzero]
    have hboth := (Bool.and_eq_true _ _ ▸ hzero)
    rw [fiberCmp_of_eq ((hl.sign hboth.1).trans (hr.sign hboth.2).symm)]
    exact (reverseIf_eq_eq.mpr (compareNumericAbs_of_zero hl hr hboth.1 hboth.2)).symm
  · rw [if_neg hzero]
    by_cases hsign : left.sign = right.sign
    · rw [if_neg (not_not_intro hsign), fiberCmp_of_eq hsign, hsign]
    · rw [if_pos hsign, fiberCmp_of_ne hsign]

theorem transCmp_compareNumericKey (L : Locale) : TransCmp (compareNumericKey L) := by
  have heq : compareNumericKey L = fun a b => fiberCmp NumericToken.sign
      (fun s l r => reverseIf (s < 0) (compareNumericAbs l r)) (parseNumericToken L a.1) (parseNumericToken L b.1) := by
    funext a b
    exact compareNumericTokens_eq (normal_parseNumericToken L _) (normal_parseNumericToken L _)
  rw [heq]
  have hfiber := transCmp_fiberCmp NumericToken.sign fun s : Int => transCmp_reverseIf (s < 0) compareNumericAbs
  exact transCmp_on _ fun text : CText => parseNumericToken L text.1

/-! ## Human readable numbers -/

def humanWithin (negative : Bool) : NumericToken → NumericToken → Ordering :=
  compareAll [fun l r => reverseIf negative (compare (humanSuffixMagnitude l) (humanSuffixMagnitude r)),
    fun l r => reverseIf negative (compareNumericAbs l r),
    fun l r => compare (humanSuffixVariant l) (humanSuffixVariant r)]

theorem transCmp_humanWithin (negative : Bool) : TransCmp (humanWithin negative) := by
  apply transCmp_compareAll
  intro cmp hcmp
  have hmagnitude : TransCmp fun l r : NumericToken => compare (humanSuffixMagnitude l) (humanSuffixMagnitude r) :=
    inferInstanceAs (TransCmp (compareOn humanSuffixMagnitude))
  simp only [mem_cons, not_mem_nil, or_false] at hcmp
  obtain rfl | rfl | rfl := hcmp
  · exact transCmp_reverseIf negative _
  · exact transCmp_reverseIf negative compareNumericAbs
  · exact inferInstanceAs (TransCmp (compareOn humanSuffixVariant))

theorem compareHumanTokens_eq (left right : NumericToken) : compareHumanTokens left right = fiberCmp NumericToken.sign
      (fun s => fiberCmp (fun token => !token.isZero)
        fun nonzero => if nonzero then humanWithin (s < 0) else fun _ _ => .eq) left right := by
  unfold compareHumanTokens
  by_cases hsign : left.sign = right.sign
  · rw [if_neg (not_not_intro hsign), fiberCmp_of_eq hsign]
    cases hzl : left.isZero with
    | true =>
      cases hzr : right.isZero with
      | true => simp [fiberCmp, hzl, hzr]
      | false => simp [fiberCmp, hzl, hzr]; rfl
    | false =>
      cases hzr : right.isZero with
      | true => simp [fiberCmp, hzl, hzr]; rfl
      | false => simp [fiberCmp, hzl, hzr, humanWithin, compareAll, hsign]
  · rw [if_pos hsign, fiberCmp_of_ne hsign]

theorem transCmp_compareHumanKey (L : Locale) : TransCmp (compareHumanKey L) := by
  have heq : compareHumanKey L = fun a b => fiberCmp NumericToken.sign (fun s => fiberCmp (fun token => !token.isZero)
        fun nonzero => if nonzero then humanWithin (s < 0) else fun _ _ => .eq)
      (parseHumanToken L a.1) (parseHumanToken L b.1) := by
    funext a b
    exact compareHumanTokens_eq (parseHumanToken L a.1) (parseHumanToken L b.1)
  rw [heq]
  have hfiber := transCmp_fiberCmp (g := fun s : Int => fiberCmp (fun token : NumericToken => !token.isZero)
      fun nonzero => if nonzero then humanWithin (s < 0) else fun _ _ => .eq) NumericToken.sign fun s => by
    apply transCmp_fiberCmp
    intro nonzero
    cases nonzero with
    | true => exact transCmp_humanWithin (s < 0)
    | false => exact transCmp_const_eq
  exact transCmp_on _ fun text : CText => parseHumanToken L text.1

/-! ## Versions -/

instance transCmp_compareRuns : TransCmp compareRuns :=
  have : TransCmp fun l r : Bytes => compare r.length l.length :=
    have : TransCmp fun l r : Bytes => compare l.length r.length :=
      inferInstanceAs (TransCmp (compareOn List.length))
    TransCmp.opposite
  inferInstanceAs (TransCmp (compareLex compareDigits fun l r : Bytes => compare r.length l.length))

/-- A character, or a run of digits: where it stands among the bytes, and the run -/
abbrev VersionToken := UInt8 × Bytes

def compareVersionTokens (left right : VersionToken) : Ordering :=
  (compare left.1 right.1).then (compareRuns left.2 right.2)

instance transCmp_compareVersionTokens : TransCmp compareVersionTokens :=
  have : TransCmp fun l r : VersionToken => compareRuns l.2 r.2 := transCmp_on compareRuns Prod.snd
  inferInstanceAs (TransCmp (compareLex (compareOn Prod.fst) fun l r : VersionToken => compareRuns l.2 r.2))

def versionTokens (fold : UInt8 → UInt8) : Bytes → List VersionToken
  | [] => []
  | c :: text =>
    if isDigit 10 c then
      (48, c :: text.takeWhile (isDigit 10)) :: versionTokens fold (text.dropWhile (isDigit 10))
    else (fold c, []) :: versionTokens fold text
termination_by text => text.length
decreasing_by
  · have hle := (dropWhile_sublist (isDigit 10) (l := text)).length_le
    simp only [length_cons]
    omega
  · simp

structure Folds (fold : UInt8 → UInt8) : Prop where
  digit : ∀ c, isDigit 10 c = true → fold c = c
  nondigit : ∀ c, isDigit 10 c = false → isDigit 10 (fold c) = false
  zero : ∀ c, fold c = 0 ↔ c = 0

theorem folds_foldCase (L : Locale) (ignoreCase : Bool) : Folds (foldCase L ignoreCase) := by
  cases ignoreCase with
  | true => exact ⟨L.tolower_digit, L.tolower_nondigit, L.tolower_zero⟩
  | false => exact ⟨fun _ _ => rfl, fun _ h => h, fun _ => Iff.rfl⟩

theorem compare_digit {d c : UInt8} (hd : isDigit 10 d = true) (hc : isDigit 10 c = false) :
    compare d c = compare 48 c ∧ compare c d = compare c 48 ∧ c ≠ 48 := by
  have hrange := isDigit_iff.mp hd
  have hzero : (48 : UInt8).toNat = 48 := rfl
  by_cases hlt : c.toNat < 48
  · have hd' : c < d := UInt8.lt_iff_toNat_lt.mpr (by omega)
    have hz' : c < 48 := UInt8.lt_iff_toNat_lt.mpr hlt
    rw [compare_eq_gt.mpr hd', compare_eq_gt.mpr hz', compare_eq_lt.mpr hd', compare_eq_lt.mpr hz']
    refine ⟨rfl, rfl, ?_⟩
    intro heq
    rw [heq] at hlt
    exact absurd hlt (by decide)
  · have hge : 58 ≤ c.toNat := by
      by_contra hle
      rw [isDigit_iff.mpr ⟨by omega, by omega⟩] at hc
      cases hc
    have hd' : d < c := UInt8.lt_iff_toNat_lt.mpr (by omega)
    have hz' : 48 < c := UInt8.lt_iff_toNat_lt.mpr (by omega)
    rw [compare_eq_gt.mpr hd', compare_eq_gt.mpr hz', compare_eq_lt.mpr hd', compare_eq_lt.mpr hz']
    refine ⟨rfl, rfl, ?_⟩
    intro heq
    rw [heq] at hge
    exact absurd hge (by decide)

theorem versionTokens_cons (fold : UInt8 → UInt8) (c : UInt8) (text : Bytes) : versionTokens fold (c :: text) =
      if isDigit 10 c then
        (48, c :: text.takeWhile (isDigit 10)) :: versionTokens fold (text.dropWhile (isDigit 10))
      else (fold c, []) :: versionTokens fold text := by
  rw [versionTokens]

variable {fold : UInt8 → UInt8}

theorem compare_fold_zero (hfold : Folds fold) {c : UInt8} (hc : c ≠ 0) :
    compare (fold 0) (fold c) = .lt ∧ compare (fold c) (fold 0) = .gt := by
  have hne : fold c ≠ 0 := fun h => hc ((hfold.zero c).mp h)
  have hlt : (0 : UInt8) < fold c := UInt8.pos_iff_ne_zero.mpr hne
  rw [(hfold.zero 0).mpr rfl]
  exact ⟨compare_eq_lt.mpr hlt, compare_eq_gt.mpr hlt⟩

theorem compareVersion_eq (hfold : Folds fold) {left right : Bytes} (hl : 0 ∉ left) (hr : 0 ∉ right) :
    compareVersion fold left right =
      List.compareLex compareVersionTokens (versionTokens fold left) (versionTokens fold right) := by
  fun_induction compareVersion fold left right with
  | case1 =>
    rw [versionTokens]
    rfl
  | case2 r right =>
    have hne : r ≠ 0 := fun h => hr (h ▸ mem_cons_self)
    rw [(compare_fold_zero hfold hne).1, versionTokens, versionTokens_cons]
    split <;> rfl
  | case3 l left ih =>
    have hne : l ≠ 0 := fun h => hl (h ▸ mem_cons_self)
    rw [(compare_fold_zero hfold hne).2, versionTokens_cons, versionTokens]
    split <;> rfl
  | case4 l left r right hboth ih =>
    -- both runs are numbers, and what stands behind them is compared next
    have hdigits := Bool.and_eq_true _ _ ▸ hboth
    have hl' : 0 ∉ left.dropWhile (isDigit 10) := fun h => hl (mem_cons_of_mem _ (dropWhile_subset _ h))
    have hr' : 0 ∉ right.dropWhile (isDigit 10) := fun h => hr (mem_cons_of_mem _ (dropWhile_subset _ h))
    rw [versionTokens_cons, versionTokens_cons, if_pos hdigits.1, if_pos hdigits.2, List.compareLex_cons_cons,
      ih hl' hr']
    rfl
  | case5 l left r right hboth ih =>
    have hl' : 0 ∉ left := fun h => hl (mem_cons_of_mem _ h)
    have hr' : 0 ∉ right := fun h => hr (mem_cons_of_mem _ h)
    rw [versionTokens_cons, versionTokens_cons]
    cases hdl : isDigit 10 l with
    | true =>
      cases hdr : isDigit 10 r with
      | true => exact absurd (by rw [hdl, hdr]; rfl) hboth
      | false =>
        -- a digit against another character: the two differ already
        obtain ⟨hcmp, _, hne⟩ := compare_digit hdl (hfold.nondigit r hdr)
        have hstrict : compare 48 (fold r) ≠ .eq := fun h => hne (LawfulEqOrd.eq_of_compare h).symm
        rw [if_pos rfl, if_neg (by decide), List.compareLex_cons_cons, hfold.digit l hdl, hcmp]
        unfold compareVersionTokens
        cases hcase : compare 48 (fold r) with
        | lt => rfl
        | eq => exact absurd hcase hstrict
        | gt => rfl
    | false =>
      cases hdr : isDigit 10 r with
      | true =>
        obtain ⟨_, hcmp, hne⟩ := compare_digit hdr (hfold.nondigit l hdl)
        have hstrict : compare (fold l) 48 ≠ .eq := fun h => hne (LawfulEqOrd.eq_of_compare h)
        rw [if_neg (by decide), if_pos rfl, List.compareLex_cons_cons, hfold.digit r hdr, hcmp]
        unfold compareVersionTokens
        cases hcase : compare (fold l) 48 with
        | lt => rfl
        | eq => exact absurd hcase hstrict
        | gt => rfl
      | false =>
        rw [if_neg (by decide), if_neg (by decide), List.compareLex_cons_cons, ih hl' hr']
        unfold compareVersionTokens
        cases compare (fold l) (fold r) <;> rfl

theorem transCmp_compareVersionKey (L : Locale) (ignoreCase : Bool) :
    TransCmp fun left right => compareVersionKey L left right ignoreCase := by
  have heq : (fun left right => compareVersionKey L left right ignoreCase) = fun left right =>
      List.compareLex compareVersionTokens (versionTokens (foldCase L ignoreCase) left.1)
        (versionTokens (foldCase L ignoreCase) right.1) := by
    funext left right
    exact compareVersion_eq (folds_foldCase L ignoreCase) left.2 right.2
  rw [heq]
  exact transCmp_on (List.compareLex compareVersionTokens) fun text : CText => versionTokens (foldCase L ignoreCase) text.1

/-! ## Lines -/

theorem transCmp_compareText (L : Locale) (order : OrderOpts) : TransCmp (compareText L order) := by
  unfold compareText
  cases order.mode with
  | numeric => exact transCmp_compareNumericKey L
  | human => exact transCmp_compareHumanKey L
  | version => exact transCmp_compareVersionKey L order.ignoreCase
  | lexicographic =>
    dsimp only
    cases order.ignoreCase with
    | true => exact L.strcasecmp_order
    | false => exact L.strcoll_order

theorem transCmp_compareTextWithOrder (L : Locale) (order : OrderOpts) : TransCmp (compareTextWithOrder L order) :=
  have := transCmp_compareText L order
  transCmp_reverseIf order.reverse (compareText L order)

variable {L : Locale} {opts : Opts}

theorem compareKeys_eq (L : Locale) (opts : Opts) (includeReverse : Bool) (specs : List KeySpec) (left right : CText) :
    compareKeys L opts includeReverse specs (specs.map (makeKeyCopy L opts left)) (specs.map (makeKeyCopy L opts right)) =
      compareAll (specs.map fun spec left right =>
        compareTextWithOrder L (primaryOrderForKey opts spec includeReverse) (makeKeyCopy L opts left spec)
          (makeKeyCopy L opts right spec)) left right := by
  induction specs with
  | nil => rfl
  | cons spec specs ih => simp only [map_cons, compareKeys, compareAll, ih]

def primaryOfText (L : Locale) (opts : Opts) (includeReverse : Bool) (left right : CText) : Ordering :=
  if opts.keySpecs.length = 0 then
    compareTextWithOrder L (primaryOrderForLine opts includeReverse)
      (if opts.ignoreLeadingBlanks then skipLeadingBlanks L left else left)
      (if opts.ignoreLeadingBlanks then skipLeadingBlanks L right else right)
  else
    compareAll (opts.keySpecs.map fun spec left right =>
      compareTextWithOrder L (primaryOrderForKey opts spec includeReverse) (makeKeyCopy L opts left spec)
        (makeKeyCopy L opts right spec)) left right

theorem comparePrimary_eq (includeReverse : Bool) (left right : Line L opts) :
    comparePrimary includeReverse left right = primaryOfText L opts includeReverse left.text right.text := by
  unfold comparePrimary primaryOfText
  rw [left.keyTexts_eq, right.keyTexts_eq]
  unfold makeKeyCopies
  rw [compareKeys_eq]

theorem transCmp_primaryOfText (L : Locale) (opts : Opts) (includeReverse : Bool) :
    TransCmp (primaryOfText L opts includeReverse) := by
  unfold primaryOfText
  by_cases hkeys : opts.keySpecs.length = 0
  · simp only [if_pos hkeys]
    have := transCmp_compareTextWithOrder L (primaryOrderForLine opts includeReverse)
    exact transCmp_on (compareTextWithOrder L (primaryOrderForLine opts includeReverse)) fun text => if opts.ignoreLeadingBlanks then skipLeadingBlanks L text else text
  · simp only [if_neg hkeys]
    apply transCmp_compareAll
    intro cmp hcmp
    obtain ⟨spec, _, rfl⟩ := mem_map.mp hcmp
    have := transCmp_compareTextWithOrder L (primaryOrderForKey opts spec includeReverse)
    exact transCmp_on (compareTextWithOrder L _) fun text => makeKeyCopy L opts text spec

instance transCmp_comparePrimary (includeReverse : Bool) :
    TransCmp (comparePrimary includeReverse : Line L opts → Line L opts → Ordering) := by
  have heq : (comparePrimary includeReverse : Line L opts → Line L opts → Ordering) =
      fun left right => primaryOfText L opts includeReverse left.text right.text := by
    funext left right
    exact comparePrimary_eq includeReverse left right
  rw [heq]
  have := transCmp_primaryOfText L opts includeReverse
  exact transCmp_on (primaryOfText L opts includeReverse) Line.text

instance transCmp_compareForOutput : TransCmp (compareForOutput : Line L opts → Line L opts → Ordering) := by
  have hlast : TransCmp fun left right : Line L opts =>
      if opts.stable || opts.unique then .eq else reverseIf opts.reverse (compareDefaultLine L left.text right.text) := by
    cases opts.stable || opts.unique with
    | true => exact transCmp_const_eq
    | false =>
      have hline : TransCmp fun left right : Line L opts => compareDefaultLine L left.text right.text :=
        have : TransCmp (compareDefaultLine L) := L.strcoll_order
        transCmp_on (compareDefaultLine L) Line.text
      exact transCmp_reverseIf opts.reverse _
  exact inferInstanceAs (TransCmp (compareLex (comparePrimary true) _))

instance transCmp_qsortCompare : TransCmp (qsortCompare : Line L opts → Line L opts → Ordering) :=
  inferInstanceAs (TransCmp (compareLex compareForOutput (compareOn Line.originalIndex)))

end Bx.Sort
