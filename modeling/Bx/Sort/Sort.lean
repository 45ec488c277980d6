import Bx.Sort.CompareSound

/-!
# sort

Records are kept as C strings, with their place in the input. They are sorted and written, without those that are equal
to the one written before when the sort is unique; or they are only checked.
-/

namespace Bx.Sort
open Kit Std

/-! ## Reading -/

def delimiter (opts : Opts) : UInt8 := if opts.zeroTerminated then 0 else 10

/-- What `getdelim` reads, record after record, without the delimiters; the last one may lack its own. -/
def splitRecords (delim : UInt8) : Bytes → List Bytes
  | [] => []
  | c :: stream =>
    if c = delim then [] :: splitRecords delim stream
    else
      match splitRecords delim stream with
      | [] => [[c]]
      | record :: records => (c :: record) :: records

def makeLine (L : Locale) (opts : Opts) (record : Bytes) (index : Nat) : Line L opts :=
  let copy : CText := ⟨cText record, zero_notMem_cText record⟩
  ⟨copy, makeKeyCopies L opts copy, index, rfl⟩

def pushRecords (L : Locale) (opts : Opts) : List Bytes → Nat → List (Line L opts)
  | [], _ => []
  | record :: records, nextIndex => makeLine L opts record nextIndex :: pushRecords L opts records (nextIndex + 1)

/-! ## Sorting and writing -/

variable {L : Locale} {opts : Opts}

def sortLines (lines : List (Line L opts)) : List (Line L opts) :=
  if 1 < lines.length then sortBy qsortCompare lines else lines

def emitLines (lines : List (Line L opts)) : List (Line L opts) :=
  if opts.unique then keepFirst comparePrimaryForUnique none lines else lines

def sortedLines (lines : List (Line L opts)) : List (Line L opts) := emitLines (sortLines lines)

def writeLine (delim : UInt8) (line : Bytes) : Bytes := line ++ [delim]

def writeLines (opts : Opts) (lines : List (Line L opts)) : Bytes :=
  (lines.map fun line => writeLine (delimiter opts) line.text.1).flatten

def inOrder (previous line : Line L opts) : Bool :=
  let cmp := compareForOutput previous line
  !(cmp == .gt || opts.unique && cmp == .eq)

def checkLines (lines : List (Line L opts)) : Bool := checkFrom inOrder none lines

/-- `-c` on one stream -/
def checkStream (L : Locale) (opts : Opts) (stream : Bytes) : Bool :=
  checkLines (pushRecords L opts (splitRecords (delimiter opts) stream) 0)

variable {line : Line L opts}

theorem le_originalIndex {records : List Bytes} {nextIndex : Nat}
    (h : line ∈ pushRecords L opts records nextIndex) : nextIndex ≤ line.originalIndex := by
  induction records generalizing nextIndex with
  | nil => cases h
  | cons record records ih =>
    cases List.mem_cons.mp h with
    | inl heq =>
      rw [heq]
      exact le_rfl
    | inr hmem => exact Nat.le_of_succ_le (ih hmem)

theorem pairwise_originalIndex (records : List Bytes) (nextIndex : Nat) :
    (pushRecords L opts records nextIndex).Pairwise fun a b => a.originalIndex < b.originalIndex := by
  induction records generalizing nextIndex with
  | nil => exact .nil
  | cons record records ih =>
    refine List.pairwise_cons.mpr ⟨?_, ih (nextIndex + 1)⟩
    intro line hline
    exact le_originalIndex hline

/-! ## Sorting -/

def Before (a b : Line L opts) : Prop :=
  compareForOutput a b = .lt ∨ compareForOutput a b = .eq ∧ a.originalIndex < b.originalIndex

variable {a b : Line L opts}

theorem qsortCompare_eq_lt : qsortCompare a b = .lt ↔ Before a b := by
  unfold qsortCompare Before
  rw [Ordering.then_eq_lt, Nat.compare_eq_lt]

theorem originalIndex_of_qsortCompare (h : qsortCompare a b = .eq) : a.originalIndex = b.originalIndex := by
  unfold qsortCompare at h
  exact Nat.compare_eq_eq.mp (Ordering.then_eq_eq.mp h).2

theorem sortLines_eq (lines : List (Line L opts)) : sortLines lines = sortBy qsortCompare lines := by
  unfold sortLines
  by_cases hmany : 1 < lines.length
  · rw [if_pos hmany]
  · rw [if_neg hmany]
    apply (sortBy_of_pairwise _).symm
    cases lines with
    | nil => exact .nil
    | cons line lines =>
      cases lines with
      | nil => exact List.pairwise_singleton _ line
      | cons next lines => exact absurd (by simp) hmany

theorem sortLines_perm (lines : List (Line L opts)) : (sortLines lines).Perm lines := by
  rw [sortLines_eq]
  exact sortBy_perm lines

section
variable {lines : List (Line L opts)} (h : lines.Pairwise fun a b => a.originalIndex < b.originalIndex)
include h

theorem pairwise_sortLines : (sortLines lines).Pairwise Before := by
  have hsorted : (sortBy qsortCompare lines).Pairwise fun a b => (qsortCompare a b).isLE = true :=
    pairwise_sortBy lines
  have hplaces : (sortBy qsortCompare lines).Pairwise fun a b => a.originalIndex ≠ b.originalIndex := by
    apply List.Perm.pairwise (sortBy_perm lines).symm (h.imp fun hlt => Nat.ne_of_lt hlt)
    intro a b hne
    exact Ne.symm hne
  rw [sortLines_eq]
  apply (hsorted.and hplaces).imp
  intro a b hab
  apply qsortCompare_eq_lt.mp
  cases hcmp : qsortCompare a b with
  | lt => rfl
  | eq => exact absurd (originalIndex_of_qsortCompare hcmp) hab.2
  | gt =>
    rw [hcmp] at hab
    cases hab.1

theorem pairwise_sortedLines : (sortedLines lines).Pairwise Before := by
  unfold sortedLines emitLines
  split
  · exact (pairwise_sortLines h).sublist (keepFirst_sublist none _)
  · exact pairwise_sortLines h

end

/-! ## Unique lines -/

theorem compareTextWithOrder_eq_eq (order order' : OrderOpts) (hmode : order.mode = order'.mode)
    (hcase : order.ignoreCase = order'.ignoreCase) (left right : CText) :
    compareTextWithOrder L order left right = .eq ↔ compareTextWithOrder L order' left right = .eq := by
  unfold compareTextWithOrder compareText
  rw [reverseIf_eq_eq, reverseIf_eq_eq, hmode, hcase]

theorem compareKeys_eq_eq (specs : List KeySpec) (left right : List CText) :
    compareKeys L opts true specs left right = .eq ↔ compareKeys L opts false specs left right = .eq := by
  induction specs generalizing left right with
  | nil => simp [compareKeys]
  | cons spec specs ih =>
    cases left with
    | nil => simp [compareKeys]
    | cons l left =>
      cases right with
      | nil => simp [compareKeys]
      | cons r right =>
        unfold compareKeys
        have hspec : compareTextWithOrder L (primaryOrderForKey opts spec true) l r = .eq ↔
            compareTextWithOrder L (primaryOrderForKey opts spec false) l r = .eq :=
          compareTextWithOrder_eq_eq (primaryOrderForKey opts spec true) (primaryOrderForKey opts spec false) rfl rfl l r
        rw [Ordering.then_eq_eq, Ordering.then_eq_eq, ih, hspec]

theorem comparePrimaryForUnique_eq_eq : comparePrimaryForUnique a b = .eq ↔ comparePrimary true a b = .eq := by
  unfold comparePrimaryForUnique comparePrimary
  dsimp only
  split
  · exact compareTextWithOrder_eq_eq (primaryOrderForLine opts false) (primaryOrderForLine opts true) rfl rfl _ _
  · exact (compareKeys_eq_eq _ _ _).symm

theorem compareForOutput_of_unique (h : opts.unique = true) (a b : Line L opts) :
    compareForOutput a b = comparePrimary true a b := by
  unfold compareForOutput
  rw [h, Bool.or_true, if_pos rfl]
  cases comparePrimary true a b <;> rfl

theorem sortedLines_of_unique (h : opts.unique = true) (lines : List (Line L opts)) :
    sortedLines lines = keepFirst compareForOutput none (sortLines lines) := by
  unfold sortedLines emitLines
  rw [if_pos h]
  apply keepFirst_congr
  intro a b
  rw [comparePrimaryForUnique_eq_eq, compareForOutput_of_unique h]

theorem sortedLines_of_not_unique (h : opts.unique = false) (lines : List (Line L opts)) :
    sortedLines lines = sortLines lines := by
  unfold sortedLines emitLines
  rw [h, if_neg (by decide)]

theorem sortedLines_subset (lines : List (Line L opts)) (h : line ∈ sortedLines lines) : line ∈ lines := by
  apply (sortLines_perm lines).mem_iff.mp
  unfold sortedLines emitLines at h
  split at h
  · exact (keepFirst_sublist none _).subset h
  · exact h

theorem Before.isLE (h : Before a b) : (compareForOutput a b).isLE = true := by
  cases h with
  | inl hlt => rw [hlt]; rfl
  | inr heq => rw [heq.1]; rfl

section
variable (hunique : opts.unique = true) {lines : List (Line L opts)}
  (h : lines.Pairwise fun a b => a.originalIndex < b.originalIndex)
include hunique h

theorem pairwise_lt_sortedLines : (sortedLines lines).Pairwise fun a b => compareForOutput a b = .lt := by
  rw [sortedLines_of_unique hunique]
  exact pairwise_keepFirst (p := none) ((pairwise_sortLines h).imp Before.isLE)

theorem first_of_class {a : Line L opts} (ha : a ∈ lines) :
    ∃ b ∈ sortedLines lines, compareForOutput b a = .eq ∧ b.originalIndex ≤ a.originalIndex := by
  obtain ⟨b, hb, heq, hbefore⟩ : ∃ b ∈ keepFirst compareForOutput none (sortLines lines),
      compareForOutput b a = .eq ∧ (b = a ∨ Before b a) :=
    mem_keepFirst (p := none) (pairwise_sortLines h) ((sortLines_perm lines).mem_iff.mpr ha)
  rw [← sortedLines_of_unique hunique] at hb
  refine ⟨b, hb, heq, ?_⟩
  cases hbefore with
  | inl hsame => rw [hsame]
  | inr hbefore =>
    cases hbefore with
    | inl hlt => simp [heq] at hlt
    | inr hplace => exact Nat.le_of_lt hplace.2

theorem eq_of_class {b c : Line L opts} (hb : b ∈ sortedLines lines) (hc : c ∈ sortedLines lines)
    (heq : compareForOutput b c = .eq) : b = c := by
  exact eq_of_pairwise_lt (pairwise_lt_sortedLines hunique h) hb hc heq

end

/-! ## Checking -/

def outputOfText (L : Locale) (opts : Opts) (left right : CText) : Ordering :=
  (primaryOfText L opts true left right).then
    (if opts.stable || opts.unique then .eq else reverseIf opts.reverse (compareDefaultLine L left right))

theorem compareForOutput_eq (a b : Line L opts) : compareForOutput a b = outputOfText L opts a.text b.text := by
  unfold compareForOutput outputOfText
  rw [comparePrimary_eq]

def textsInOrder (L : Locale) (opts : Opts) (left right : CText) : Prop :=
  if opts.unique then outputOfText L opts left right = .lt else (outputOfText L opts left right).isLE = true

theorem inOrder_iff : inOrder a b = true ↔ textsInOrder L opts a.text b.text := by
  unfold inOrder textsInOrder
  rw [compareForOutput_eq]
  cases opts.unique <;> cases outputOfText L opts a.text b.text <;> decide

theorem inOrder_trans (a b c : Line L opts) (hab : inOrder a b = true) (hbc : inOrder b c = true) :
    inOrder a c = true := by
  rw [inOrder_iff] at hab hbc ⊢
  unfold textsInOrder at hab hbc ⊢
  rw [← compareForOutput_eq] at hab hbc ⊢
  split at hab
  · rename_i hunique
    rw [if_pos hunique] at hbc ⊢
    exact TransCmp.lt_trans hab hbc
  · rename_i hunique
    rw [if_neg hunique] at hbc ⊢
    exact TransCmp.isLE_trans hab hbc

theorem checkLines_iff (lines : List (Line L opts)) :
    checkLines lines = true ↔ lines.Pairwise fun a b => textsInOrder L opts a.text b.text := by
  unfold checkLines
  rw [checkFrom_iff inOrder_trans]
  simp only [Option.toList_none, List.nil_append, inOrder_iff]

section
variable {lines : List (Line L opts)} (h : lines.Pairwise fun a b => a.originalIndex < b.originalIndex)
include h

theorem textsInOrder_sortedLines : (sortedLines lines).Pairwise fun a b => textsInOrder L opts a.text b.text := by
  unfold textsInOrder
  simp only [← compareForOutput_eq]
  by_cases hunique : opts.unique = true
  · simp only [if_pos hunique]
    exact pairwise_lt_sortedLines hunique h
  · simp only [if_neg hunique]
    exact (pairwise_sortedLines h).imp Before.isLE

theorem sortedLines_of_inOrder (hok : lines.Pairwise fun a b => textsInOrder L opts a.text b.text) :
    sortedLines lines = lines := by
  unfold textsInOrder at hok
  simp only [← compareForOutput_eq] at hok
  have hle : lines.Pairwise fun a b => (compareForOutput a b).isLE = true := by
    apply hok.imp
    intro a b hab
    split at hab
    · rw [hab]
      rfl
    · exact hab
  have hsorted : sortLines lines = lines := by
    rw [sortLines_eq]
    apply sortBy_of_pairwise
    apply (hle.and h).imp
    intro a b hab
    have hplace : compare a.originalIndex b.originalIndex = .lt := Nat.compare_eq_lt.mpr hab.2
    unfold qsortCompare
    rw [hplace]
    cases hcmp : compareForOutput a b with
    | lt => rfl
    | eq => rfl
    | gt =>
      rw [hcmp] at hab
      exact hab.1
  cases hunique : opts.unique with
  | true =>
    simp only [if_pos hunique] at hok
    rw [sortedLines_of_unique hunique, hsorted]
    exact keepFirst_of_pairwise (p := none) hok
  | false => rw [sortedLines_of_not_unique hunique, hsorted]

theorem checkLines_iff_sortedLines :
    checkLines lines = true ↔ (sortedLines lines).map Line.text = lines.map Line.text := by
  rw [checkLines_iff]
  refine ⟨?_, ?_⟩
  · intro hok
    rw [sortedLines_of_inOrder h hok]
  · intro hsame
    have hsorted := textsInOrder_sortedLines h
    rw [← List.pairwise_map (f := Line.text) (R := textsInOrder L opts)] at hsorted ⊢
    rwa [hsame] at hsorted

end

structure IsSorted (lines out : List (Line L opts)) : Prop where
  inOrder : out.Pairwise Before
  subset : ∀ a ∈ out, a ∈ lines
  all : opts.unique = false → out.Perm lines
  classes : opts.unique = true → ∀ a ∈ lines, ∃ b ∈ out, compareForOutput b a = .eq ∧
    b.originalIndex ≤ a.originalIndex ∧ ∀ c ∈ out, compareForOutput c a = .eq → c = b

theorem isSorted_sortedLines {lines : List (Line L opts)}
    (h : lines.Pairwise fun a b => a.originalIndex < b.originalIndex) : IsSorted lines (sortedLines lines) := by
  refine ⟨pairwise_sortedLines h, fun a => sortedLines_subset lines, ?_, ?_⟩
  · intro hunique
    rw [sortedLines_of_not_unique hunique]
    exact sortLines_perm lines
  · intro hunique a ha
    obtain ⟨b, hb, heq, hplace⟩ := first_of_class hunique h ha
    refine ⟨b, hb, heq, hplace, ?_⟩
    intro c hc hca
    apply eq_of_class hunique h hc hb
    exact TransCmp.eq_trans hca (OrientedCmp.eq_symm heq)

/-- **Main result.** The comparisons are total and transitive, and strict where the place in the
input is the last resort; sorting puts the records of a stream in that order, and checking
the stream succeeds exactly when sorting would change nothing. -/
theorem sort_sorts (L : Locale) (opts : Opts) : TransCmp (compareForOutput : Line L opts → Line L opts → Ordering) ∧
      TransCmp (qsortCompare : Line L opts → Line L opts → Ordering) ∧
      (∀ a b : Line L opts, qsortCompare a b = .eq → a.originalIndex = b.originalIndex) ∧
      ∀ stream : Bytes,
        let lines := pushRecords L opts (splitRecords (delimiter opts) stream) 0
        IsSorted lines (sortedLines lines) ∧
          (checkStream L opts stream = true ↔ (sortedLines lines).map Line.text = lines.map Line.text) := by
  refine ⟨inferInstance, inferInstance, fun _ _ => originalIndex_of_qsortCompare, ?_⟩
  intro stream
  have hplaces : (pushRecords L opts (splitRecords (delimiter opts) stream) 0).Pairwise
      fun a b => a.originalIndex < b.originalIndex := pairwise_originalIndex _ 0
  exact ⟨isSorted_sortedLines hplaces, checkLines_iff_sortedLines hplaces⟩

end Bx.Sort
