import Bx.Comm.Comm
import Mathlib.Data.List.Perm.Lattice

/-!
# When comm computes the merge

The lines are merged by what `strcmp` sees of them, which is right when that order agrees with the order of the records,
and when lines which `strcmp` takes for equal are.
-/

namespace Bx.Comm

open Kit List

variable {a b curr : Bytes} {as bs rest : List Bytes} {prev : Option Bytes}

/-! ## What comm is for -/

def record (delim : UInt8) (line : Bytes) : Bytes := if line.getLast? = some delim then line.dropLast else line

def records (zeroTerminated : Bool) (content : Bytes) : List Bytes :=
  (readLines zeroTerminated content).map (record (recordDelimiter zeroTerminated))

def terminated (delim : UInt8) (record : Bytes) : Bytes := record ++ [delim]

/-- Whatever the options, the columns are the differences and the intersection of the records, each record is
followed by its delimiter, and there are no messages. -/
def ComputesMerge (zeroTerminated : Bool) (content1 content2 : Bytes) : Prop :=
  let delim := recordDelimiter zeroTerminated
  let first := (records zeroTerminated content1).diff (records zeroTerminated content2)
  let second := (records zeroTerminated content2).diff (records zeroTerminated content1)
  let both := (records zeroTerminated content1).bagInter (records zeroTerminated content2)
  ∀ options : Options, options.zeroTerminated = zeroTerminated → ∃ r, commMain options content1 content2 = some r ∧
    column .first r.printed = (if options.suppress1 then [] else first.map (terminated delim)) ∧
    column .second r.printed = (if options.suppress2 then [] else second.map (terminated delim)) ∧
    column .both r.printed = (if options.suppress3 then [] else both.map (terminated delim)) ∧
    r.total = (if options.total then some (first.length, second.length, both.length) else none) ∧
    r.diags = [] ∧ r.exitStatus = 0

/-! ## The loop -/

section
variable {options : Options} {s : State} {r : Result}

def printedColumns (options : Options) (entries : List (Column × Bytes)) : List (Column × Bytes) :=
  entries.filter fun e => !options.suppressed e.1

theorem column_printedColumns (options : Options) (c : Column) (entries : List (Column × Bytes)) :
    column c (printedColumns options entries) = if options.suppressed c then [] else column c entries := by
  unfold printedColumns column
  rw [filter_filter]
  cases hsup : options.suppressed c with
  | false =>
    congr 1
    apply filter_congr
    intro e _
    by_cases he : e.1 = c
    · simp [he, hsup]
    · simp [he]
  | true =>
    rw [if_pos rfl, map_eq_nil_iff, filter_eq_nil_iff]
    intro e _
    by_cases he : e.1 = c
    · simp [he, hsup]
    · simp [he]

structure Ordered (s : State) : Prop where
  first : SortedBy strKey (s.prev1.toList ++ s.lines1)
  second : SortedBy strKey (s.prev2.toList ++ s.lines2)

theorem strcmp_gt_iff (a b : Bytes) : strcmp a b = .gt ↔ strKey b < strKey a := compareBy_gt_iff

theorem checkFileOrder_of_sorted (h : SortedBy strKey (prev.toList ++ curr :: rest)) (filenum : Nat) (ok forceFatal : Bool) :
    checkFileOrder filenum prev curr ok forceFatal = ⟨true, ok, []⟩ := by
  unfold checkFileOrder
  cases prev with
  | none => rfl
  | some data =>
    have hle := (pairwise_cons.mp h).1 curr mem_cons_self
    rw [if_neg]
    rw [Option.any_some, decide_eq_true_iff, strcmp_gt_iff]
    exact not_lt.mpr hle

variable {filenum : Nat} {ok : Bool}

theorem checkFileOrder_diags (h : (checkFileOrder filenum prev curr ok true).goOn = false) : (checkFileOrder filenum prev curr ok true).diags ≠ [] := by
  unfold checkFileOrder at h ⊢
  split
  · rw [if_pos rfl]
    exact cons_ne_nil _ _
  · simp [‹_›] at h

theorem sortedBy_of_checkFileOrder (h : (checkFileOrder filenum prev curr ok true).goOn = true) (hrest : SortedBy strKey (curr :: rest)) :
    SortedBy strKey (prev.toList ++ curr :: rest) := by
  unfold checkFileOrder at h
  cases prev with
  | none => exact hrest
  | some data =>
    by_cases hgt : strcmp data curr = .gt
    · rw [if_pos (by rw [Option.any_some, decide_eq_true_iff]; exact hgt), if_pos rfl] at h
      cases h
    · rw [strcmp_gt_iff, not_lt] at hgt
      refine pairwise_cons.mpr ⟨?_, hrest⟩
      intro x hx
      cases mem_cons.mp hx with
      | inl heq => rw [heq]; exact hgt
      | inr hin => exact le_trans hgt ((pairwise_cons.mp hrest).1 x hin)

theorem SortedBy.advance (h : SortedBy strKey (prev.toList ++ curr :: rest)) : SortedBy strKey ((some curr).toList ++ rest) := by
  cases prev with
  | none => exact h
  | some data => exact h.tail

structure Going (options : Options) (s : State) : Prop where
  unchecked_or_ordered : options.noCheckOrder = true ∧ options.checkOrder = false ∨ Ordered s
  ok1 : s.orderOk1 = true
  ok2 : s.orderOk2 = true
  no_diags : s.diags = []

def merged (options : Options) (s : State) : Result :=
  let entries := mergeColumns strKey s.lines1 s.lines2
  { printed := s.printed ++ printedColumns options entries
    total :=
      if options.total then
        some (s.count1 + (column .first entries).length, s.count2 + (column .second entries).length,
          s.count3 + (column .both entries).length)
      else none
    diags := []
    exitStatus := 0 }

def Takes (options : Options) (s : State) (stepped : State ⊕ Result) : Prop :=
  ∃ t, stepped = .inl t ∧ Going options t ∧ merged options t = merged options s ∧
    t.lines1.length + t.lines2.length < s.lines1.length + s.lines2.length

theorem printColumn_printed (c : Column) (line : Bytes) (entries : List (Column × Bytes)) :
    (s.printColumn options c line).printed ++ printedColumns options entries =
      s.printed ++ printedColumns options ((c, line) :: entries) := by
  unfold State.printColumn printedColumns
  cases hsup : options.suppressed c <;> simp [hsup]

theorem merged_eq {t : State} {c : Column} {line : Bytes}
    (hmerge : mergeColumns strKey s.lines1 s.lines2 = (c, line) :: mergeColumns strKey t.lines1 t.lines2)
    (hprinted : t.printed = (s.printColumn options c line).printed)
    (h1 : t.count1 = s.count1 + if c = .first then 1 else 0) (h2 : t.count2 = s.count2 + if c = .second then 1 else 0)
    (h3 : t.count3 = s.count3 + if c = .both then 1 else 0) : merged options t = merged options s := by
  have hlength : ∀ d, (column d (mergeColumns strKey s.lines1 s.lines2)).length =
      (if c = d then 1 else 0) + (column d (mergeColumns strKey t.lines1 t.lines2)).length := by
    intro d
    rw [hmerge]
    by_cases hc : c = d
    · rw [hc, column_cons_self, length_cons, if_pos rfl, add_comm]
    · rw [column_cons_ne hc, if_neg hc, zero_add]
  unfold merged
  dsimp only
  rw [hlength, hlength, hlength, h1, h2, h3, hprinted, printColumn_printed, ← hmerge, add_assoc, add_assoc, add_assoc]

section
variable (h : Going options s)
include h

theorem takeFirst_takes (hlines : s.lines1 = a :: as)
    (hmerge : mergeColumns strKey s.lines1 s.lines2 = (.first, a) :: mergeColumns strKey as s.lines2) :
    Takes options s (takeFirst options a s) := by
  have hcheck : (if options.noCheckOrder then ⟨true, s.orderOk1, []⟩
      else checkFileOrder 1 s.prev1 a s.orderOk1 options.checkOrder : Checked) = ⟨true, s.orderOk1, []⟩ := by
    cases h.unchecked_or_ordered with
    | inl hun => rw [if_pos hun.1]
    | inr hord =>
      have hsorted := hord.first
      rw [hlines] at hsorted
      rw [checkFileOrder_of_sorted hsorted, ite_self]
  unfold takeFirst Takes
  rw [hcheck]
  refine ⟨_, rfl, ⟨?_, h.ok1, h.ok2, ?_⟩, ?_, ?_⟩
  · refine h.unchecked_or_ordered.imp_right fun hord => ⟨?_, hord.second⟩
    have hsorted := hord.first
    rw [hlines] at hsorted
    show SortedBy strKey ((some a).toList ++ s.lines1.tail)
    rw [hlines]
    exact SortedBy.advance hsorted
  · show s.diags ++ [] = []
    rw [h.no_diags]
    rfl
  · refine @merged_eq options s _ .first a ?_ ?_ ?_ ?_ ?_
    · rw [hmerge, hlines]
      rfl
    all_goals rfl
  · show s.lines1.tail.length + s.lines2.length < s.lines1.length + s.lines2.length
    rw [hlines, tail_cons, length_cons]
    omega

theorem takeSecond_takes (hlines : s.lines2 = b :: bs)
    (hmerge : mergeColumns strKey s.lines1 s.lines2 = (.second, b) :: mergeColumns strKey s.lines1 bs) :
    Takes options s (takeSecond options b s) := by
  have hcheck : (if options.noCheckOrder then ⟨true, s.orderOk2, []⟩
      else checkFileOrder 2 s.prev2 b s.orderOk2 options.checkOrder : Checked) = ⟨true, s.orderOk2, []⟩ := by
    cases h.unchecked_or_ordered with
    | inl hun => rw [if_pos hun.1]
    | inr hord =>
      have hsorted := hord.second
      rw [hlines] at hsorted
      rw [checkFileOrder_of_sorted hsorted, ite_self]
  unfold takeSecond Takes
  rw [hcheck]
  refine ⟨_, rfl, ⟨?_, h.ok1, h.ok2, ?_⟩, ?_, ?_⟩
  · refine h.unchecked_or_ordered.imp_right fun hord => ⟨hord.first, ?_⟩
    have hsorted := hord.second
    rw [hlines] at hsorted
    show SortedBy strKey ((some b).toList ++ s.lines2.tail)
    rw [hlines]
    exact SortedBy.advance hsorted
  · show s.diags ++ [] = []
    rw [h.no_diags]
    rfl
  · refine @merged_eq options s _ .second b ?_ ?_ ?_ ?_ ?_
    · rw [hmerge, hlines]
      rfl
    all_goals rfl
  · show s.lines1.length + s.lines2.tail.length < s.lines1.length + s.lines2.length
    rw [hlines, tail_cons, length_cons]
    omega

theorem takeBoth_takes (hlines1 : s.lines1 = a :: as) (hlines2 : s.lines2 = b :: bs)
    (hmerge : mergeColumns strKey s.lines1 s.lines2 = (.both, a) :: mergeColumns strKey as bs) :
    Takes options s (takeBoth options a b s) := by
  have hcheck1 : (if options.checkOrder then checkFileOrder 1 s.prev1 a s.orderOk1 true
      else ⟨true, s.orderOk1, []⟩ : Checked) = ⟨true, s.orderOk1, []⟩ := by
    cases h.unchecked_or_ordered with
    | inl hun => rw [hun.2, if_neg Bool.false_ne_true]
    | inr hord =>
      have hsorted := hord.first
      rw [hlines1] at hsorted
      rw [checkFileOrder_of_sorted hsorted, ite_self]
  have hcheck2 : (if options.checkOrder then checkFileOrder 2 s.prev2 b s.orderOk2 true
      else ⟨true, s.orderOk2, []⟩ : Checked) = ⟨true, s.orderOk2, []⟩ := by
    cases h.unchecked_or_ordered with
    | inl hun => rw [hun.2, if_neg Bool.false_ne_true]
    | inr hord =>
      have hsorted := hord.second
      rw [hlines2] at hsorted
      rw [checkFileOrder_of_sorted hsorted, ite_self]
  unfold takeBoth Takes
  rw [hcheck1, hcheck2]
  refine ⟨_, rfl, ⟨?_, h.ok1, h.ok2, h.no_diags⟩, ?_, ?_⟩
  · refine h.unchecked_or_ordered.imp_right fun hord => ⟨?_, ?_⟩
    · have hsorted := hord.first
      rw [hlines1] at hsorted
      show SortedBy strKey ((some a).toList ++ s.lines1.tail)
      rw [hlines1]
      exact SortedBy.advance hsorted
    · have hsorted := hord.second
      rw [hlines2] at hsorted
      show SortedBy strKey ((some b).toList ++ s.lines2.tail)
      rw [hlines2]
      exact SortedBy.advance hsorted
  · refine @merged_eq options s _ .both a ?_ ?_ ?_ ?_ ?_
    · rw [hmerge, hlines1, hlines2]
      rfl
    all_goals rfl
  · show s.lines1.tail.length + s.lines2.tail.length < s.lines1.length + s.lines2.length
    rw [hlines1, hlines2, tail_cons, length_cons, tail_cons, length_cons]
    omega

theorem step_going (hmore : s.lines1 ≠ [] ∨ s.lines2 ≠ []) : Takes options s (step options s) := by
  unfold step
  cases hlines1 : s.lines1 with
  | nil =>
    cases hlines2 : s.lines2 with
    | nil => exact absurd hlines2 (hmore.resolve_left fun hne => hne hlines1)
    | cons b bs => exact takeSecond_takes h hlines2 (by rw [hlines1, hlines2, mergeColumns])
  | cons a as =>
    cases hlines2 : s.lines2 with
    | nil => exact takeFirst_takes h hlines1 (by rw [hlines1, hlines2, mergeColumns])
    | cons b bs =>
      dsimp only
      have hmerge : mergeColumns strKey s.lines1 s.lines2 = mergeColumns strKey (a :: as) (b :: bs) := by
        rw [hlines1, hlines2]
      rw [mergeColumns] at hmerge
      cases hcmp : strcmp a b with
      | lt =>
        rw [show compareBy strKey a b = .lt from hcmp] at hmerge
        exact takeFirst_takes h hlines1 (by rw [hmerge, hlines2])
      | eq =>
        rw [show compareBy strKey a b = .eq from hcmp] at hmerge
        exact takeBoth_takes h hlines1 hlines2 hmerge
      | gt =>
        rw [show compareBy strKey a b = .gt from hcmp] at hmerge
        exact takeSecond_takes h hlines2 (by rw [hmerge, hlines1])

theorem step_finish (h1 : s.lines1 = []) (h2 : s.lines2 = []) : step options s = .inr (merged options s) := by
  unfold step merged State.finish
  rw [h1, h2, h.ok1, h.ok2, h.no_diags, mergeColumns]
  simp [printedColumns]

theorem loop_going {fuel : Nat} (hfuel : s.lines1.length + s.lines2.length < fuel) :
    loop (step options) fuel s = some (merged options s) := by
  have hrun : ∃ r, loop (step options) fuel s = some r ∧ r = merged options s := by
    apply loop_of_measure (fun t => Going options t ∧ merged options t = merged options s) (fun r => r = merged options s)
      (fun t => t.lines1.length + t.lines2.length) _ _ ⟨h, rfl⟩ hfuel
    · intro t u ht hstep
      by_cases hmore : t.lines1 ≠ [] ∨ t.lines2 ≠ []
      · obtain ⟨u', hu', hgoing, hsame, hlt⟩ := step_going ht.1 hmore
        rw [hu'] at hstep
        rw [← Sum.inl.inj hstep]
        exact ⟨⟨hgoing, hsame.trans ht.2⟩, hlt⟩
      · rw [not_or, not_not, not_not] at hmore
        simp [step_finish ht.1 hmore.1 hmore.2] at hstep
    · intro t r ht hstep
      by_cases hmore : t.lines1 ≠ [] ∨ t.lines2 ≠ []
      · obtain ⟨u', hu', _⟩ := step_going ht.1 hmore
        simp [hu'] at hstep
      · rw [not_or, not_not, not_not] at hmore
        rw [step_finish ht.1 hmore.1 hmore.2] at hstep
        rw [← Sum.inr.inj hstep]
        exact ht.2
  obtain ⟨r, hr, heq⟩ := hrun
  rw [hr, heq]

end

/-- With `--check-order` every line that is taken is compared with the one in front of it. -/
def Checks (s : State) : State ⊕ Result → Prop
  | .inl t => Ordered t → Ordered s
  | .inr r => r.diags ≠ []

section
variable (hcheck : options.checkOrder = true)
include hcheck

theorem takeFirst_checks (hno : options.noCheckOrder = false)
    (hlines : s.lines1 = a :: as) : Checks s (takeFirst options a s) := by
  unfold takeFirst
  rw [hno, if_neg Bool.false_ne_true, hcheck]
  dsimp only
  split
  · rename_i hgo
    intro hord
    have hrest : SortedBy strKey (a :: s.lines1.tail) := hord.first
    rw [hlines] at hrest
    refine ⟨?_, hord.second⟩
    rw [hlines]
    exact sortedBy_of_checkFileOrder hgo hrest
  · rename_i hstop
    intro hnil
    exact checkFileOrder_diags (Bool.eq_false_iff.mpr hstop) (append_eq_nil_iff.mp hnil).2

theorem takeSecond_checks (hno : options.noCheckOrder = false)
    (hlines : s.lines2 = b :: bs) : Checks s (takeSecond options b s) := by
  unfold takeSecond
  rw [hno, if_neg Bool.false_ne_true, hcheck]
  dsimp only
  split
  · rename_i hgo
    intro hord
    have hrest : SortedBy strKey (b :: s.lines2.tail) := hord.second
    rw [hlines] at hrest
    refine ⟨hord.first, ?_⟩
    rw [hlines]
    exact sortedBy_of_checkFileOrder hgo hrest
  · rename_i hstop
    intro hnil
    exact checkFileOrder_diags (Bool.eq_false_iff.mpr hstop) (append_eq_nil_iff.mp hnil).2

theorem takeBoth_checks (hlines1 : s.lines1 = a :: as) (hlines2 : s.lines2 = b :: bs) : Checks s (takeBoth options a b s) := by
  unfold takeBoth
  rw [hcheck, if_pos rfl, if_pos rfl]
  dsimp only
  split
  · rename_i hstop
    intro hnil
    rw [Bool.not_eq_true'] at hstop
    exact checkFileOrder_diags hstop (append_eq_nil_iff.mp hnil).2
  · rename_i hgo1
    rw [Bool.not_eq_true', Bool.not_eq_false] at hgo1
    split
    · rename_i hstop
      intro hnil
      rw [Bool.not_eq_true'] at hstop
      exact checkFileOrder_diags hstop (append_eq_nil_iff.mp hnil).2
    · rename_i hgo2
      rw [Bool.not_eq_true', Bool.not_eq_false] at hgo2
      intro hord
      have hrest1 : SortedBy strKey (a :: s.lines1.tail) := hord.first
      have hrest2 : SortedBy strKey (b :: s.lines2.tail) := hord.second
      rw [hlines1] at hrest1
      rw [hlines2] at hrest2
      refine ⟨?_, ?_⟩
      · rw [hlines1]
        exact sortedBy_of_checkFileOrder hgo1 hrest1
      · rw [hlines2]
        exact sortedBy_of_checkFileOrder hgo2 hrest2

theorem step_checks (hno : options.noCheckOrder = false)
    (hmore : s.lines1 ≠ [] ∨ s.lines2 ≠ []) : Checks s (step options s) := by
  unfold step
  cases hlines1 : s.lines1 with
  | nil =>
    cases hlines2 : s.lines2 with
    | nil => exact absurd hlines2 (hmore.resolve_left fun hne => hne hlines1)
    | cons b bs => exact takeSecond_checks hcheck hno hlines2
  | cons a as =>
    cases hlines2 : s.lines2 with
    | nil => exact takeFirst_checks hcheck hno hlines1
    | cons b bs =>
      dsimp only
      cases strcmp a b with
      | lt => exact takeFirst_checks hcheck hno hlines1
      | eq => exact takeBoth_checks hcheck hlines1 hlines2
      | gt => exact takeSecond_checks hcheck hno hlines2

theorem ordered_of_no_diags (hno : options.noCheckOrder = false) {fuel : Nat}
    (h : loop (step options) fuel s = some r) (hdiags : r.diags = []) : Ordered s := by
  induction fuel generalizing s with
  | zero => cases h
  | succ fuel ih =>
    by_cases hmore : s.lines1 ≠ [] ∨ s.lines2 ≠ []
    · have hchecks := step_checks hcheck hno hmore
      cases hstep : step options s with
      | inl t =>
        rw [loop_go hstep] at h
        rw [hstep] at hchecks
        exact hchecks (ih h)
      | inr r' =>
        rw [loop_leave hstep] at h
        rw [hstep, Option.some.inj h] at hchecks
        exact absurd hdiags hchecks
    · rw [not_or, not_not, not_not] at hmore
      refine ⟨?_, ?_⟩
      · rw [hmore.1, append_nil]
        cases s.prev1 with
        | none => exact .nil
        | some data => exact pairwise_singleton _ _
      · rw [hmore.2, append_nil]
        cases s.prev2 with
        | none => exact .nil
        | some data => exact pairwise_singleton _ _

end

end

end Bx.Comm
