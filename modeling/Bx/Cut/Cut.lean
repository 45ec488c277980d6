import Bx.Kit.Bytes
import Mathlib.Data.List.Sort
import Mathlib.Data.List.TakeWhile

/-!
# cut

What `src/applets/base/cut/cut.c` makes of a LIST, and what it prints of a line. The ranges are sorted and those that
meet are merged; bytes are then written range by range, or gap by gap for the complement, and fields one by one.
-/

namespace Bx.Cut

open Kit List

variable {list : Bytes} {rest : List Range} {cur r : Range}

def sizeMax : Nat := 2 ^ 64 - 1

abbrev Position := { n : Nat // 1 ≤ n ∧ n ≤ sizeMax }

structure Range where
  start : Position
  stop : Position
  ordered : start ≤ stop

def Range.Contains (r : Range) (pos : Nat) : Prop := r.start.val ≤ pos ∧ pos ≤ r.stop.val

instance (r : Range) (pos : Nat) : Decidable (r.Contains pos) := inferInstanceAs (Decidable (_ ∧ _))

/-! ## LIST -/

def firstPosition : Position := ⟨1, by decide, by decide⟩

def lastPosition : Position := ⟨sizeMax, by decide, by decide⟩

theorem le_lastPosition (p : Position) : p ≤ lastPosition := p.property.2

inductive ListError
  | invalid
  | decreasing
  | missing

def ListError.message : ListError → String
  | invalid => "invalid byte, character or field list"
  | decreasing => "invalid decreasing range"
  | missing => "missing list of fields"

def isspace (c : UInt8) : Bool := c == 32 || (9 ≤ c && c ≤ 13)

/-- `strtoumax` to the base ten where it reads a number that fits, and what is behind that.
A minus sign negates the number. -/
def strtoumax (text : Bytes) : Option (Nat × Bytes) :=
  let text := text.dropWhile isspace
  let negative := text.head? = some 45
  let text := if negative ∨ text.head? = some 43 then text.tail else text
  let digits := text.takeWhile (isDigit 10)
  let value := numeralValue 10 0 digits
  if digits = [] ∨ sizeMax < value then none
  else some (if negative then (2 ^ 64 - value) % 2 ^ 64 else value, text.drop digits.length)

def parseListNumber (text : Bytes) : Except ListError Position :=
  if text = [] ∨ text.head? = some 45 then .error .invalid
  else
    match strtoumax text with
    | some (value, []) => if h : 1 ≤ value ∧ value ≤ sizeMax then .ok ⟨value, h⟩ else .error .invalid
    | _ => .error .invalid

def makeRange (start stop : Position) : Except ListError Range :=
  if h : stop < start ∧ stop ≠ lastPosition then .error .decreasing
  else
    .ok ⟨start, stop, by
      by_contra hlt
      apply h
      refine ⟨lt_of_not_ge hlt, ?_⟩
      intro hlast
      exact hlt (hlast ▸ le_lastPosition start)⟩

def parseToken (token : Bytes) : Except ListError Range :=
  let startText := token.takeWhile (· ≠ 45)
  match token.drop startText.length with
  | [] => (parseListNumber token).bind fun value => makeRange value value
  | _ :: stopText =>
    (if startText = [] then .ok firstPosition else parseListNumber startText).bind fun start =>
      (if stopText = [] then .ok lastPosition else parseListNumber stopText).bind fun stop => makeRange start stop

/-- `qsort`, which may leave ranges with the same start in any order -/
structure RangeSort where
  sort : List Range → List Range
  perm : ∀ ranges, (sort ranges).Perm ranges
  sorted : ∀ ranges, (sort ranges).Pairwise fun a b => a.start ≤ b.start

def Range.Meets (cur next : Range) : Prop :=
  next.start ≤ cur.stop ∨ cur.stop ≠ lastPosition ∧ next.start.val = cur.stop.val + 1

instance (cur next : Range) : Decidable (cur.Meets next) := inferInstanceAs (Decidable (_ ∨ _))

def Range.extend (cur next : Range) : Range :=
  if h : cur.stop < next.stop ∨ next.stop = lastPosition then
    ⟨cur.start, next.stop, by
      cases h with
      | inl hlt => exact le_trans cur.ordered (le_of_lt hlt)
      | inr hlast => exact hlast ▸ le_lastPosition cur.start⟩
  else cur

def mergeRanges (cur : Range) : List Range → List Range
  | [] => [cur]
  | next :: rest => if cur.Meets next then mergeRanges (cur.extend next) rest else cur :: mergeRanges next rest

def parseList (qsort : RangeSort) (list : Bytes) : Except ListError (List Range) :=
  (((list.splitOn 44).filter (· ≠ [])).mapM parseToken).bind fun ranges =>
    match qsort.sort ranges with
    | [] => .error .missing
    | cur :: rest => .ok (mergeRanges cur rest)

/-! ## Lines -/

inductive Mode
  | bytes
  | chars
  | fields
  deriving DecidableEq

structure Options where
  mode : Mode
  delimiter : UInt8
  onlyDelimited : Bool
  complement : Bool
  /-- As it was given -/
  outputDelimiter : Option Bytes
  zeroTerminated : Bool

def Options.separator (o : Options) : Bytes :=
  o.outputDelimiter.getD (if o.mode = .fields then [o.delimiter] else [])

def Options.recordDelimiter (o : Options) : UInt8 := if o.zeroTerminated then 0 else 10

def isSelected (ranges : List Range) (complement : Bool) (pos : Nat) : Bool :=
  if ranges.any fun r => r.Contains pos then !complement else complement

def between (line : Bytes) (start stop : Nat) : Bytes := (line.drop (start - 1)).take (stop - start + 1)

def writeRanges (line : Bytes) : List Range → Bytes
  | [] => []
  | r :: ranges =>
    if line.length < r.start.val then []
    else
      let stop := min r.stop.val line.length
      (if r.start.val ≤ stop then between line r.start.val stop else []) ++ writeRanges line ranges

def writeGaps (line : Bytes) (next : Nat) : List Range → Bytes
  | [] => if next ≤ line.length then between line next line.length else []
  | r :: ranges =>
    if line.length < next then []
    else
      let gap := if next < r.start.val then between line next (min (r.start.val - 1) line.length) else []
      if r.stop = lastPosition then gap
      else gap ++ writeGaps line (if next < r.stop.val + 1 then r.stop.val + 1 else next) ranges

def cutLineBytes (ranges : List Range) (o : Options) (line : Bytes) : Bytes :=
  (if o.complement then writeGaps line 1 ranges else writeRanges line ranges) ++ [o.recordDelimiter]

/-- The rest of a line, in the field `idx`, of which `field` was read -/
def writeFields (ranges : List Range) (o : Options) (idx : Nat) (first : Bool) (field : Bytes) : Bytes → Bytes
  | [] => if isSelected ranges o.complement idx then (if first then [] else o.separator) ++ field else []
  | c :: line =>
    if c = o.delimiter then
      if isSelected ranges o.complement idx then
        (if first then [] else o.separator) ++ field ++ writeFields ranges o (idx + 1) false [] line
      else writeFields ranges o (idx + 1) first [] line
    else writeFields ranges o idx first (field ++ [c]) line

def contentOf (o : Options) (line : Bytes) : Bytes :=
  if line.getLast? = some o.recordDelimiter then line.dropLast else line

def cutLine (ranges : List Range) (o : Options) (line : Bytes) : Bytes :=
  let content := contentOf o line
  if o.mode = .bytes ∨ o.mode = .chars then cutLineBytes ranges o content
  else if o.delimiter ∉ content then
    if o.onlyDelimited then [] else content ++ [o.recordDelimiter]
  else writeFields ranges o 1 true [] content ++ [o.recordDelimiter]

/-! ## What cut is for -/

def Bound (text : Bytes) (default value : Position) : Prop :=
  if text = [] then value = default else parseListNumber text = .ok value

inductive TokenSelects : Bytes → Nat → Prop
  | number {text : Bytes} {value : Position} (hplain : 45 ∉ text) (hvalue : parseListNumber text = .ok value) :
      TokenSelects text value
  | range {startText stopText : Bytes} {start stop : Position} {pos : Nat} (hplain : 45 ∉ startText)
      (hstart : Bound startText firstPosition start) (hstop : Bound stopText lastPosition stop)
      (hle : start.val ≤ pos) (hge : pos ≤ stop.val) : TokenSelects (startText ++ 45 :: stopText) pos

def Listed (list : Bytes) (pos : Nat) : Prop := ∃ token ∈ list.splitOn 44, token ≠ [] ∧ TokenSelects token pos

open Classical in
noncomputable def chosen (list : Bytes) (complement : Bool) (pos : Nat) : Bool :=
  if complement then !decide (Listed list pos) else decide (Listed list pos)

section
variable {α : Type*} (sel : Nat → Bool)

/-- What stands at the selected positions, counted from `pos` -/
def selected (pos : Nat) : List α → List α
  | [] => []
  | x :: xs => if sel pos then x :: selected (pos + 1) xs else selected (pos + 1) xs

def runs (pos : Nat) : List α → List (List α)
  | [] => []
  | x :: xs =>
    if sel pos then
      if sel (pos + 1) then
        match runs (pos + 1) xs with
        | [] => [[x]]
        | run :: more => (x :: run) :: more
      else [x] :: runs (pos + 1) xs
    else runs (pos + 1) xs

end

noncomputable def wanted (list : Bytes) (o : Options) (content : Bytes) : Bytes :=
  let parts :=
    if o.mode = .fields then selected (chosen list o.complement) 1 (content.splitOn o.delimiter)
    else runs (chosen list o.complement) 1 content
  o.separator.intercalate parts ++ [o.recordDelimiter]

/-! ## Tokens -/

variable {text : Bytes} {token : Bytes}

theorem takeWhile_dash (h : 45 ∉ text) (rest : Bytes) :
    (text ++ 45 :: rest).takeWhile (fun c => decide (c ≠ 45)) = text := by
  rw [takeWhile_append_of_pos, takeWhile_cons_of_neg (by simp), append_nil]
  intro c hc
  rw [decide_eq_true_eq]
  intro heq
  rw [heq] at hc
  exact h hc

theorem parseToken_number (h : 45 ∉ token) :
    parseToken token = (parseListNumber token).bind fun value => makeRange value value := by
  have hall : token.takeWhile (fun c => decide (c ≠ 45)) = token := by
    rw [takeWhile_eq_self_iff]
    intro c hc
    rw [decide_eq_true_eq]
    intro heq
    rw [heq] at hc
    exact h hc
  unfold parseToken
  dsimp only
  rw [hall, drop_length]

theorem parseToken_range {startText : Bytes} (h : 45 ∉ startText) (stopText : Bytes) :
    parseToken (startText ++ 45 :: stopText) =
      (if startText = [] then .ok firstPosition else parseListNumber startText).bind fun start =>
        (if stopText = [] then .ok lastPosition else parseListNumber stopText).bind fun stop =>
          makeRange start stop := by
  unfold parseToken
  dsimp only
  rw [takeWhile_dash h, drop_left]

theorem makeRange_ok {start stop : Position} (h : makeRange start stop = .ok r) : r.start = start ∧ r.stop = stop := by
  unfold makeRange at h
  split at h
  · cases h
  · cases h
    exact ⟨rfl, rfl⟩

variable {default value : Position}

theorem bound_iff :
    (if text = [] then .ok default else parseListNumber text) = .ok value ↔ Bound text default value := by
  unfold Bound
  split
  · rw [Except.ok.injEq, eq_comm]
  · rfl

theorem bound_unique {value' : Position} (h : Bound text default value)
    (h' : Bound text default value') : value = value' := by
  have heq := (bound_iff.mpr h).symm.trans (bound_iff.mpr h')
  exact Except.ok.inj heq

theorem parseToken_contains (h : parseToken token = .ok r) (pos : Nat) : r.Contains pos ↔ TokenSelects token pos := by
  by_cases hdash : 45 ∈ token
  · obtain ⟨startText, stopText, rfl, hplain⟩ := eq_append_cons_of_mem hdash
    rw [parseToken_range hplain] at h
    obtain ⟨start, hstart, h⟩ := bind_ok h
    obtain ⟨stop, hstop, h⟩ := bind_ok h
    rw [bound_iff] at hstart hstop
    obtain ⟨rfl, rfl⟩ := makeRange_ok h
    refine ⟨fun hpos => .range hplain hstart hstop hpos.1 hpos.2, ?_⟩
    intro hselects
    generalize htext : startText ++ 45 :: stopText = text at hselects
    cases hselects with
    | number hplain' _ =>
      rw [← htext] at hplain'
      exact absurd (mem_append_right _ mem_cons_self) hplain'
    | range hplain' hstart' hstop' hle hge =>
      have hsame := takeWhile_dash hplain stopText
      rw [htext, takeWhile_dash hplain'] at hsame
      subst hsame
      cases append_cancel_left htext
      unfold Range.Contains
      rw [bound_unique hstart hstart', bound_unique hstop hstop']
      exact ⟨hle, hge⟩
  · rw [parseToken_number hdash] at h
    obtain ⟨value, hvalue, h⟩ := bind_ok h
    obtain ⟨hstart, hstop⟩ := makeRange_ok h
    unfold Range.Contains
    rw [hstart, hstop]
    refine ⟨?_, ?_⟩
    · intro hpos
      have heq : pos = value.val := le_antisymm hpos.2 hpos.1
      rw [heq]
      exact .number hdash hvalue
    · intro hselects
      cases hselects with
      | number _ hvalue' =>
        rw [hvalue, Except.ok.injEq] at hvalue'
        rw [hvalue']
        exact ⟨le_rfl, le_rfl⟩
      | range => exact absurd (mem_append_right _ mem_cons_self) hdash

/-! ## Merged ranges -/

def Separated (ranges : List Range) : Prop := ranges.Pairwise fun a b => a.stop.val + 1 < b.start.val

def Covers (ranges : List Range) (pos : Nat) : Prop := ∃ r ∈ ranges, r.Contains pos

instance (ranges : List Range) (pos : Nat) : Decidable (Covers ranges pos) :=
  inferInstanceAs (Decidable (∃ r ∈ ranges, _))

variable {ranges : List Range}

theorem covers_cons {pos : Nat} : Covers (r :: ranges) pos ↔ r.Contains pos ∨ Covers ranges pos := by
  unfold Covers
  rw [exists_mem_cons_iff]

theorem extend_start (cur next : Range) : (cur.extend next).start = cur.start := by
  unfold Range.extend
  split <;> rfl

theorem extend_stop (cur next : Range) : (cur.extend next).stop.val = max cur.stop.val next.stop.val := by
  unfold Range.extend
  split
  · rename_i h
    have hle : cur.stop.val ≤ next.stop.val := by
      cases h with
      | inl hlt => exact le_of_lt hlt
      | inr hlast =>
        rw [hlast]
        exact le_lastPosition cur.stop
    exact (max_eq_right hle).symm
  · rename_i h
    have hle : next.stop.val ≤ cur.stop.val := by
      by_contra hlt
      exact h (.inl (lt_of_not_ge hlt))
    exact (max_eq_left hle).symm

theorem extend_contains {next : Range} (hmeets : cur.Meets next) (hle : cur.start ≤ next.start) (pos : Nat) :
    (cur.extend next).Contains pos ↔ cur.Contains pos ∨ next.Contains pos := by
  have hcur : cur.start.val ≤ cur.stop.val := cur.ordered
  have hnext : next.start.val ≤ next.stop.val := next.ordered
  have hle' : cur.start.val ≤ next.start.val := hle
  have hnear : next.start.val ≤ cur.stop.val + 1 := by
    cases hmeets with
    | inl hin => exact Nat.le_succ_of_le hin
    | inr hbehind => exact le_of_eq hbehind.2
  unfold Range.Contains
  rw [extend_start, extend_stop]
  omega

theorem extend_sorted {next : Range} (h : (cur :: next :: rest).Pairwise fun a b => a.start ≤ b.start) :
    (cur.extend next :: rest).Pairwise fun a b => a.start ≤ b.start := by
  obtain ⟨hcur, hrest⟩ := pairwise_cons.mp h
  refine pairwise_cons.mpr ⟨?_, (pairwise_cons.mp hrest).2⟩
  intro r hr
  rw [extend_start]
  exact hcur r (mem_cons_of_mem _ hr)

section
variable (hsorted : (cur :: rest).Pairwise fun a b => a.start ≤ b.start)
include hsorted

theorem mergeRanges_covers (pos : Nat) : Covers (mergeRanges cur rest) pos ↔ Covers (cur :: rest) pos := by
  induction rest generalizing cur with
  | nil => rfl
  | cons next rest ih =>
    obtain ⟨hcur, hrest⟩ := pairwise_cons.mp hsorted
    unfold mergeRanges
    by_cases hmeets : cur.Meets next
    · rw [if_pos hmeets, ih (extend_sorted hsorted), covers_cons, covers_cons, covers_cons,
        extend_contains hmeets (hcur next mem_cons_self), or_assoc]
    · rw [if_neg hmeets, covers_cons, ih hrest, ← covers_cons]

theorem start_le_of_mem_mergeRanges (h : r ∈ mergeRanges cur rest) : cur.start ≤ r.start := by
  induction rest generalizing cur with
  | nil => rw [mem_singleton.mp h]
  | cons next rest ih =>
    obtain ⟨hcur, hrest⟩ := pairwise_cons.mp hsorted
    unfold mergeRanges at h
    by_cases hmeets : cur.Meets next
    · rw [if_pos hmeets] at h
      have hle := ih (extend_sorted hsorted) h
      rw [extend_start] at hle
      exact hle
    · rw [if_neg hmeets] at h
      cases mem_cons.mp h with
      | inl heq => rw [heq]
      | inr hin => exact le_trans (hcur next mem_cons_self) (ih hrest hin)

theorem mergeRanges_separated : Separated (mergeRanges cur rest) := by
  induction rest generalizing cur with
  | nil => exact pairwise_singleton _ _
  | cons next rest ih =>
    obtain ⟨hcur, hrest⟩ := pairwise_cons.mp hsorted
    unfold mergeRanges
    by_cases hmeets : cur.Meets next
    · rw [if_pos hmeets]
      exact ih (extend_sorted hsorted)
    · rw [if_neg hmeets]
      refine pairwise_cons.mpr ⟨?_, ih hrest⟩
      intro r hr
      have hle : next.start.val ≤ r.start.val := start_le_of_mem_mergeRanges hrest hr
      have hbehind : cur.stop.val + 1 < next.start.val := by
        obtain ⟨hafter, hgap⟩ := not_or.mp hmeets
        have hlt : cur.stop.val < next.start.val := lt_of_not_ge hafter
        have hnotLast : cur.stop ≠ lastPosition := by
          intro hlast
          rw [hlast] at hlt
          exact absurd next.start.property.2 (Nat.not_le_of_gt hlt)
        have hne : next.start.val ≠ cur.stop.val + 1 := fun heq => hgap ⟨hnotLast, heq⟩
        omega
      omega

end

theorem mapM_parseToken {tokens : List Bytes} (h : tokens.mapM parseToken = .ok ranges) (pos : Nat) :
    Covers ranges pos ↔ ∃ token ∈ tokens, TokenSelects token pos := by
  induction tokens generalizing ranges with
  | nil =>
    cases h
    simp [Covers]
  | cons token tokens ih =>
    rw [mapM_cons] at h
    obtain ⟨r, hr, h⟩ := bind_ok h
    obtain ⟨more, hmore, h⟩ := bind_ok h
    cases h
    rw [covers_cons, ih hmore, parseToken_contains hr, exists_mem_cons_iff]

theorem parseList_spec {qsort : RangeSort} (h : parseList qsort list = .ok ranges) :
    Separated ranges ∧ ∀ pos, Covers ranges pos ↔ Listed list pos := by
  unfold parseList at h
  obtain ⟨written, hwritten, h⟩ := bind_ok h
  have hsorted := qsort.sorted written
  have hperm := qsort.perm written
  cases hsort : qsort.sort written with
  | nil => simp [hsort] at h
  | cons cur rest =>
    rw [hsort] at h hsorted hperm
    cases h
    refine ⟨mergeRanges_separated hsorted, ?_⟩
    intro pos
    have hsame : Covers (cur :: rest) pos ↔ Covers written pos := by
      unfold Covers
      simp only [hperm.mem_iff]
    rw [mergeRanges_covers hsorted, hsame, mapM_parseToken hwritten]
    unfold Listed
    simp only [mem_filter, decide_eq_true_eq, and_assoc]

/-! ## Selected positions -/

section
variable {α : Type*} {sel sel' : Nat → Bool}

theorem selected_append (pos : Nat) (xs ys : List α) :
    selected sel pos (xs ++ ys) = selected sel pos xs ++ selected sel (pos + xs.length) ys := by
  induction xs generalizing pos with
  | nil => rfl
  | cons x xs ih =>
    have hpos : pos + (x :: xs).length = pos + 1 + xs.length := by
      rw [length_cons]
      omega
    rw [cons_append, selected, selected, ih, hpos]
    split <;> rfl

variable {xs : List α}

theorem selected_congr {pos : Nat} (h : ∀ i, pos ≤ i → i < pos + xs.length → sel i = sel' i) :
    selected sel pos xs = selected sel' pos xs := by
  induction xs generalizing pos with
  | nil => rfl
  | cons x xs ih =>
    rw [length_cons] at h
    rw [selected, selected, h pos (le_rfl) (by omega), ih]
    intro i hi hlt
    exact h i (by omega) (by omega)

theorem selected_all {pos : Nat} (h : ∀ i, pos ≤ i → i < pos + xs.length → sel i = true) :
    selected sel pos xs = xs := by
  induction xs generalizing pos with
  | nil => rfl
  | cons x xs ih =>
    rw [length_cons] at h
    rw [selected, if_pos (h pos (le_rfl) (by omega)), ih]
    intro i hi hlt
    exact h i (by omega) (by omega)

theorem selected_none {pos : Nat} (h : ∀ i, pos ≤ i → i < pos + xs.length → sel i = false) :
    selected sel pos xs = [] := by
  induction xs generalizing pos with
  | nil => rfl
  | cons x xs ih =>
    rw [length_cons] at h
    rw [selected, if_neg (by rw [h pos (le_rfl) (by omega)]; exact Bool.false_ne_true)]
    apply ih
    intro i hi hlt
    exact h i (by omega) (by omega)

theorem runs_flatten (pos : Nat) (xs : List α) : (runs sel pos xs).flatten = selected sel pos xs := by
  induction xs generalizing pos with
  | nil => rfl
  | cons x xs ih =>
    rw [runs, selected]
    by_cases hsel : sel pos = true
    · rw [if_pos hsel, if_pos hsel, ← ih]
      by_cases hnext : sel (pos + 1) = true
      · rw [if_pos hnext]
        cases runs sel (pos + 1) xs with
        | nil => rfl
        | cons run more => rfl
      · rw [if_neg hnext]
        rfl
    · rw [if_neg hsel, if_neg hsel, ih]

end

/-! ## Range by range and gap by gap -/

theorem isSelected_eq (ranges : List Range) (complement : Bool) (pos : Nat) :
    isSelected ranges complement pos = if complement then !decide (Covers ranges pos) else decide (Covers ranges pos) := by
  have hany : (ranges.any fun r => decide (r.Contains pos)) = decide (Covers ranges pos) := by
    rw [Bool.eq_iff_iff, any_eq_true, decide_eq_true_eq]
    unfold Covers
    simp only [decide_eq_true_eq]
  unfold isSelected
  rw [hany]
  cases complement <;> cases decide (Covers ranges pos) <;> rfl

theorem Separated.start_le (h : Separated (r :: ranges)) {pos : Nat}
    (hcovers : Covers (r :: ranges) pos) : r.start.val ≤ pos := by
  cases covers_cons.mp hcovers with
  | inl hin => exact hin.1
  | inr hrest =>
    obtain ⟨r', hr', hin⟩ := hrest
    have hafter := (pairwise_cons.mp h).1 r' hr'
    have hordered : r.start.val ≤ r.stop.val := r.ordered
    have hstart := hin.1
    omega

theorem Separated.after (h : Separated (r :: ranges)) {r' : Range} (hr' : r' ∈ ranges) :
    r.stop.val + 1 ≤ r'.start.val := by
  have hlt := (pairwise_cons.mp h).1 r' hr'
  omega

section
variable {sel : Nat → Bool} {line : Bytes} {pos next : Nat}

section
variable (hpos : 1 ≤ pos)
include hpos

theorem selected_upto (hle : pos ≤ next) : selected sel pos (line.drop (pos - 1)) =
      selected sel pos ((line.drop (pos - 1)).take (next - pos)) ++ selected sel next (line.drop (next - 1)) := by
  have hdrop : (line.drop (pos - 1)).drop (next - pos) = line.drop (next - 1) := by
    rw [drop_drop]
    congr 1
    omega
  have hsplit := @selected_append _ sel pos ((line.drop (pos - 1)).take (next - pos)) (line.drop (next - 1))
  rw [← hdrop, take_append_drop] at hsplit
  rw [hsplit, hdrop]
  by_cases hin : next - 1 ≤ line.length
  · have hlength : pos + ((line.drop (pos - 1)).take (next - pos)).length = next := by
      rw [length_take, length_drop]
      omega
    rw [hlength]
  · have hnil : line.drop (next - 1) = [] := drop_of_length_le (by omega)
    rw [hnil, selected, selected]

theorem selected_upto_all (hle : pos ≤ next) (h : ∀ i, pos ≤ i → i < next → i ≤ line.length → sel i = true) :
    selected sel pos (line.drop (pos - 1)) =
      (line.drop (pos - 1)).take (next - pos) ++ selected sel next (line.drop (next - 1)) := by
  rw [selected_upto hpos hle, selected_all]
  intro i hi hlt
  rw [length_take, length_drop] at hlt
  exact h i hi (by omega) (by omega)

theorem selected_upto_none (hle : pos ≤ next) (h : ∀ i, pos ≤ i → i < next → i ≤ line.length → sel i = false) :
    selected sel pos (line.drop (pos - 1)) = selected sel next (line.drop (next - 1)) := by
  rw [selected_upto hpos hle, selected_none, nil_append]
  intro i hi hlt
  rw [length_take, length_drop] at hlt
  exact h i hi (by omega) (by omega)

theorem between_min (hle : pos < next) (hin : pos ≤ line.length) :
    between line pos (min (next - 1) line.length) = (line.drop (pos - 1)).take (next - pos) := by
  unfold between
  apply List.take_eq_take_iff.mpr
  rw [length_drop]
  omega

end

end

theorem writeRanges_eq (h : Separated ranges) (line : Bytes) {pos : Nat} (hpos : 1 ≤ pos)
    (hfrom : ∀ r ∈ ranges, pos ≤ r.start.val) :
    writeRanges line ranges = selected (fun i => decide (Covers ranges i)) pos (line.drop (pos - 1)) := by
  induction ranges generalizing pos with
  | nil =>
    rw [writeRanges, selected_none]
    intro i _ _
    simp [Covers]
  | cons r ranges ih =>
    have hstart := hfrom r mem_cons_self
    have hone := r.start.property.1
    have hordered : r.start.val ≤ r.stop.val := r.ordered
    have hbefore : ∀ i, pos ≤ i → i < r.start.val → i ≤ line.length → decide (Covers (r :: ranges) i) = false := by
      intro i _ hlt _
      rw [decide_eq_false_iff_not]
      intro hcovers
      have hle := h.start_le hcovers
      omega
    rw [selected_upto_none hpos hstart hbefore]
    unfold writeRanges
    by_cases hin : line.length < r.start.val
    · rw [if_pos hin, drop_of_length_le (by omega), selected]
    · rw [if_neg hin]
      dsimp only
      have hthis : ∀ i, r.start.val ≤ i → i < r.stop.val + 1 → i ≤ line.length →
          decide (Covers (r :: ranges) i) = true := by
        intro i hi hlt _
        rw [decide_eq_true_eq, covers_cons]
        exact .inl ⟨hi, Nat.le_of_lt_succ hlt⟩
      have hbetween := @between_min line r.start.val (r.stop.val + 1) hone (by omega) (by omega)
      rw [Nat.add_sub_cancel] at hbetween
      rw [if_pos (by omega), hbetween, selected_upto_all hone (by omega) hthis,
        @ih (pairwise_cons.mp h).2 (r.stop.val + 1) (by omega) (fun r' hr' => h.after hr')]
      congr 1
      apply selected_congr
      intro i hi _
      rw [decide_eq_decide, covers_cons]
      refine ⟨.inr, ?_⟩
      intro hor
      refine hor.resolve_left ?_
      intro hin'
      have hle := hin'.2
      omega

variable {line : Bytes}

theorem writeGaps_eq (h : Separated ranges) (hfits : line.length ≤ sizeMax) {next : Nat}
    (hnext : 1 ≤ next) (hfrom : ∀ r ∈ ranges, next ≤ r.start.val) :
    writeGaps line next ranges = selected (fun i => !decide (Covers ranges i)) next (line.drop (next - 1)) := by
  induction ranges generalizing next with
  | nil =>
    have hall : selected (fun i => !decide (Covers [] i)) next (line.drop (next - 1)) = line.drop (next - 1) := by
      apply selected_all
      intro i _ _
      simp [Covers]
    rw [hall, writeGaps]
    by_cases hin : next ≤ line.length
    · rw [if_pos hin]
      unfold between
      rw [take_of_length_le]
      rw [length_drop]
      omega
    · rw [if_neg hin, drop_of_length_le (by omega)]
  | cons r ranges ih =>
    have hstart := hfrom r mem_cons_self
    have hone := r.start.property.1
    have hordered : r.start.val ≤ r.stop.val := r.ordered
    unfold writeGaps
    by_cases hin : line.length < next
    · rw [if_pos hin, drop_of_length_le (by omega), selected]
    · rw [if_neg hin]
      dsimp only
      have hgap : (if next < r.start.val then between line next (min (r.start.val - 1) line.length) else []) =
          (line.drop (next - 1)).take (r.start.val - next) := by
        by_cases hlt : next < r.start.val
        · rw [if_pos hlt, between_min hnext hlt (by omega)]
        · have hzero : r.start.val - next = 0 := by omega
          rw [if_neg hlt, hzero, take_zero]
      have hbefore : ∀ i, next ≤ i → i < r.start.val → i ≤ line.length → (!decide (Covers (r :: ranges) i)) = true := by
        intro i _ hlt _
        rw [Bool.not_eq_true', decide_eq_false_iff_not]
        intro hcovers
        have hle := h.start_le hcovers
        omega
      have hthis : ∀ i, r.start.val ≤ i → i < r.stop.val + 1 → i ≤ line.length →
          (!decide (Covers (r :: ranges) i)) = false := by
        intro i hi hlt _
        rw [Bool.not_eq_false', decide_eq_true_eq, covers_cons]
        exact .inl ⟨hi, Nat.le_of_lt_succ hlt⟩
      rw [hgap, selected_upto_all hnext hstart hbefore, selected_upto_none hone (by omega) hthis]
      by_cases hlast : r.stop = lastPosition
      · have hmax : r.stop.val = sizeMax := congrArg Subtype.val hlast
        have hnil : line.drop (r.stop.val + 1 - 1) = [] := drop_of_length_le (by omega)
        rw [if_pos hlast, hnil, selected, append_nil]
      · rw [if_neg hlast, if_pos (by omega),
          @ih (pairwise_cons.mp h).2 (r.stop.val + 1) (by omega) (fun r' hr' => h.after hr')]
        congr 1
        apply selected_congr
        intro i hi _
        congr 1
        rw [decide_eq_decide, covers_cons]
        refine ⟨.inr, ?_⟩
        intro hor
        refine hor.resolve_left ?_
        intro hin'
        have hle := hin'.2
        omega

theorem cutLineBytes_eq (h : Separated ranges) (o : Options) (hfits : line.length ≤ sizeMax) :
    cutLineBytes ranges o line = selected (isSelected ranges o.complement) 1 line ++ [o.recordDelimiter] := by
  have hsel : isSelected ranges o.complement =
      fun i => if o.complement then !decide (Covers ranges i) else decide (Covers ranges i) :=
    funext (isSelected_eq ranges o.complement)
  have hone : ∀ r ∈ ranges, 1 ≤ r.start.val := fun r _ => r.start.property.1
  unfold cutLineBytes
  rw [hsel]
  cases o.complement with
  | false =>
    have hranges := writeRanges_eq h line (Nat.le_refl 1) hone
    exact congrArg (· ++ [o.recordDelimiter]) hranges
  | true =>
    have hgaps := writeGaps_eq h hfits (Nat.le_refl 1) hone
    exact congrArg (· ++ [o.recordDelimiter]) hgaps

def joined (separator : Bytes) (first : Bool) : List Bytes → Bytes
  | [] => []
  | field :: fields => (if first then [] else separator) ++ field ++ joined separator false fields

theorem joined_true (separator : Bytes) (fields : List Bytes) : joined separator true fields = separator.intercalate fields := by
  have hrest : ∀ (field : Bytes) (fields : List Bytes),
      field ++ joined separator false fields = separator.intercalate (field :: fields) := by
    intro field fields
    induction fields generalizing field with
    | nil => rw [joined, append_nil, intercalate_singleton]
    | cons next fields ih =>
      rw [joined, if_neg Bool.false_ne_true, append_assoc, ih, intercalate_cons_cons, ← append_assoc]
  cases fields with
  | nil => rfl
  | cons field fields => rw [joined, if_pos rfl, nil_append, hrest]

theorem writeFields_eq (ranges : List Range) (o : Options) (idx : Nat) (first : Bool) (field line : Bytes) :
    writeFields ranges o idx first field line =
      joined o.separator first
        (selected (isSelected ranges o.complement) idx ((line.splitOn o.delimiter).modifyHead (field ++ ·))) := by
  induction line generalizing idx first field with
  | nil =>
    rw [writeFields, splitOn_nil, modifyHead_cons, append_nil, selected, selected]
    split
    · rw [joined, joined, append_nil]
    · rfl
  | cons c line ih =>
    obtain ⟨next, fields, hfields⟩ := exists_cons_of_ne_nil (splitOn_ne_nil o.delimiter line)
    rw [hfields] at ih
    simp only [modifyHead_cons] at ih
    rw [writeFields, splitOn_cons_eq_if_modifyHead, hfields]
    by_cases hc : c = o.delimiter
    · have hbeq : (c == o.delimiter) = true := beq_iff_eq.mpr hc
      rw [if_pos hc, if_pos hbeq, ih, ih, modifyHead_cons, append_nil, nil_append]
      conv_rhs => rw [selected]
      split
      · rw [joined]
      · rfl
    · have hbeq : ¬(c == o.delimiter) = true := fun heq => hc (beq_iff_eq.mp heq)
      rw [if_neg hc, if_neg hbeq, ih, modifyHead_cons, modifyHead_cons, append_assoc, singleton_append]

/-! ## What is printed -/

theorem isSelected_chosen (h : ∀ pos, Covers ranges pos ↔ Listed list pos)
    (complement : Bool) : isSelected ranges complement = chosen list complement := by
  funext pos
  rw [isSelected_eq]
  unfold chosen
  rw [decide_eq_decide.mpr (h pos)]

theorem cutLine_fields (h : ∀ pos, Covers ranges pos ↔ Listed list pos) (o : Options)
    (hmode : o.mode = .fields) (hdelimiter : o.delimiter ∈ contentOf o line) :
    cutLine ranges o line = wanted list o (contentOf o line) := by
  have hbytes : ¬(o.mode = .bytes ∨ o.mode = .chars) := by
    rw [hmode]
    decide
  have hid : ((contentOf o line).splitOn o.delimiter).modifyHead (([] : Bytes) ++ ·) =
      (contentOf o line).splitOn o.delimiter := by
    cases (contentOf o line).splitOn o.delimiter <;> rfl
  unfold cutLine wanted
  dsimp only
  rw [if_neg hbytes, if_neg (not_not.mpr hdelimiter), if_pos hmode, writeFields_eq, joined_true, ← isSelected_chosen h]
  exact congrArg (fun parts => o.separator.intercalate (selected _ 1 parts) ++ [o.recordDelimiter]) hid

theorem length_intercalate (separator : Bytes) (parts : List Bytes) :
    (separator.intercalate parts).length = parts.flatten.length + separator.length * (parts.length - 1) := by
  cases parts with
  | nil => rfl
  | cons part parts =>
    induction parts generalizing part with
    | nil => simp
    | cons next parts ih =>
      rw [intercalate_cons_cons, length_append, length_append, ih]
      simp only [flatten_cons, length_append, length_cons]
      have hmul : separator.length * (parts.length + 1 + 1 - 1) = separator.length * (parts.length + 1 - 1) + separator.length := by
        rw [Nat.add_sub_cancel, Nat.add_sub_cancel, Nat.mul_succ]
      omega

theorem nil_intercalate {α : Type*} (parts : List (List α)) : ([] : List α).intercalate parts = parts.flatten := by
  cases parts with
  | nil => rfl
  | cons part parts =>
    induction parts generalizing part with
    | nil => rw [intercalate_singleton, flatten_singleton]
    | cons next parts ih =>
      rw [intercalate_cons_cons, ih, append_nil]
      rfl

theorem flatten_eq_intercalate_iff (separator : Bytes) (parts : List Bytes) :
    parts.flatten = separator.intercalate parts ↔ separator = [] ∨ parts.length < 2 := by
  have hlength := length_intercalate separator parts
  refine ⟨?_, ?_⟩
  · intro heq
    rw [← heq] at hlength
    have hzero : separator.length * (parts.length - 1) = 0 := by omega
    cases Nat.mul_eq_zero.mp hzero with
    | inl hseparator => exact .inl (length_eq_zero_iff.mp hseparator)
    | inr hfew => exact .inr (by omega)
  · intro h
    cases h with
    | inl hnil => rw [hnil, nil_intercalate]
    | inr hfew =>
      match parts with
      | [] => rfl
      | [part] => simp

noncomputable def printedRuns (list : Bytes) (o : Options) (line : Bytes) : List Bytes :=
  runs (chosen list o.complement) 1 (contentOf o line)

theorem cutLine_bytes (hsep : Separated ranges)
    (h : ∀ pos, Covers ranges pos ↔ Listed list pos) (o : Options) (hmode : o.mode ≠ .fields)
    (hfits : line.length < sizeMax) :
    cutLine ranges o line = (printedRuns list o line).flatten ++ [o.recordDelimiter] := by
  have hbytes : o.mode = .bytes ∨ o.mode = .chars := by
    cases hm : o.mode with
    | bytes => exact .inl rfl
    | chars => exact .inr rfl
    | fields => exact absurd hm hmode
  have hcontent : (contentOf o line).length ≤ sizeMax := by
    unfold contentOf
    split
    · rw [length_dropLast]
      omega
    · omega
  unfold cutLine printedRuns
  dsimp only
  rw [if_pos hbytes, runs_flatten, ← isSelected_chosen h]
  exact cutLineBytes_eq hsep o hcontent

/-- The ranges are those of LIST, and what is printed of a line is what they select. -/
structure SelectsList (list : Bytes) (ranges : List Range) (o : Options) (line : Bytes) : Prop where
  separated : Separated ranges
  covers : ∀ pos, Covers ranges pos ↔ Listed list pos
  tested : o.mode ≠ .fields →
    cutLine ranges o line = selected (isSelected ranges o.complement) 1 (contentOf o line) ++ [o.recordDelimiter]
  printed : o.mode ≠ .fields ∨ o.delimiter ∈ contentOf o line → cutLine ranges o line = wanted list o (contentOf o line)

/-- **Main result.** What is accepted selects what LIST says, except that nothing is written
between the runs of bytes. -/
theorem selectsList_iff {qsort : RangeSort} {list : Bytes} {ranges : List Range} (h : parseList qsort list = .ok ranges)
    (o : Options) (line : { line : Bytes // line.length < 2 ^ 63 }) :
    SelectsList list ranges o line ↔
      o.mode = .fields ∨ o.separator = [] ∨ (printedRuns list o line).length < 2 := by
  obtain ⟨hsep, hcovers⟩ := parseList_spec h
  obtain ⟨line, hline⟩ := line
  have hfits : line.length < sizeMax := by
    unfold sizeMax
    omega
  by_cases hmode : o.mode = .fields
  · refine ⟨fun _ => .inl hmode, fun _ => ⟨hsep, hcovers, fun hno => absurd hmode hno, ?_⟩⟩
    intro hor
    exact cutLine_fields hcovers o hmode (hor.resolve_left (not_not.mpr hmode))
  · have hbytes := cutLine_bytes hsep hcovers o hmode hfits
    have hiff := flatten_eq_intercalate_iff o.separator (printedRuns list o line)
    have hwanted : wanted list o (contentOf o line) =
        o.separator.intercalate (printedRuns list o line) ++ [o.recordDelimiter] := by
      unfold wanted
      rw [if_neg hmode]
      rfl
    have htested : cutLine ranges o line =
        selected (isSelected ranges o.complement) 1 (contentOf o line) ++ [o.recordDelimiter] := by
      rw [hbytes, isSelected_chosen hcovers]
      unfold printedRuns
      rw [runs_flatten]
    refine ⟨?_, ?_⟩
    · intro hselects
      have hprinted := hselects.printed (.inl hmode)
      rw [hbytes, hwanted] at hprinted
      exact .inr (hiff.mp (append_cancel_right hprinted))
    · intro hor
      refine ⟨hsep, hcovers, fun _ => htested, fun _ => ?_⟩
      rw [hbytes, hwanted, hiff.mpr (hor.resolve_left hmode)]

def insertionSort : RangeSort where
  sort := List.insertionSort fun a b => a.start ≤ b.start
  perm := perm_insertionSort _
  sorted := by
    intro ranges
    have : Std.Total fun (a b : Range) => a.start ≤ b.start := ⟨fun a b => le_total a.start b.start⟩
    have : IsTrans Range fun a b => a.start ≤ b.start := ⟨fun a b c => le_trans⟩
    exact pairwise_insertionSort _ ranges

/-- Both fields of a line, the second of which is written first -/
theorem selectsList_fields :
    SelectsList [50, 44, 49] [⟨⟨1, by decide⟩, ⟨2, by decide⟩, by decide⟩] ⟨.fields, 58, false, false, none, false⟩
      [97, 58, 98, 10] :=
  (@selectsList_iff insertionSort [50, 44, 49] _ rfl _ ⟨[97, 58, 98, 10], by decide⟩).mpr (.inl rfl)

/-- A delimiter that was asked for is missing between the first byte and the third. -/
theorem not_selectsList_runs :
    ¬∀ (qsort : RangeSort) (list : Bytes) (ranges : List Range), parseList qsort list = .ok ranges →
      ∀ (o : Options) (line : { line : Bytes // line.length < 2 ^ 63 }), SelectsList list ranges o line := by
  intro h
  have hselects := h insertionSort [49, 44, 51]
    [⟨⟨1, by decide⟩, ⟨1, by decide⟩, by decide⟩, ⟨⟨3, by decide⟩, ⟨3, by decide⟩, by decide⟩] rfl
    ⟨.bytes, 9, false, false, some [58], false⟩ ⟨[97, 98, 99, 10], by decide⟩
  have hprinted := hselects.printed (.inl (by decide))
  unfold wanted at hprinted
  rw [← isSelected_chosen hselects.covers] at hprinted
  revert hprinted
  decide

end Bx.Cut
