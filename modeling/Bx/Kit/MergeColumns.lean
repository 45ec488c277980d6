import Mathlib.Data.List.Count
import Mathlib.Data.List.Perm.Subperm
import Mathlib.Data.List.Lattice
import Mathlib.Data.List.Sort

/-!
# Merging into columns

Two lists are merged by keys: an item that only one of them has goes to its column, items with the same key are paired
off from the first ones on, and the longer list keeps what is left.
-/

namespace Bx.Kit

open List

inductive Column
  | first | second | both
  deriving DecidableEq

def column {α : Type*} (c : Column) (entries : List (Column × α)) : List α :=
  (entries.filter fun e => e.1 = c).map (·.2)

section
variable {α κ : Type*} [LinearOrder κ] (key : α → κ)

def compareBy (a b : α) : Ordering := cmp (key a) (key b)

def mergeColumns : List α → List α → List (Column × α)
  | [], [] => []
  | [], b :: bs => (.second, b) :: mergeColumns [] bs
  | a :: as, [] => (.first, a) :: mergeColumns as []
  | a :: as, b :: bs =>
    match compareBy key a b with
    | .lt => (.first, a) :: mergeColumns as (b :: bs)
    | .eq => (.both, a) :: mergeColumns as bs
    | .gt => (.second, b) :: mergeColumns (a :: as) bs
  termination_by as bs => as.length + bs.length

def ofKey (v : κ) (l : List α) : List α := l.filter fun x => key x = v

def SortedBy (l : List α) : Prop := l.Pairwise fun x y => key x ≤ key y

instance (l : List α) : Decidable (SortedBy key l) := inferInstanceAs (Decidable (l.Pairwise _))

end

section
variable {α κ : Type*} [LinearOrder κ] {key : α → κ}

@[simp] theorem column_nil (c : Column) : column c ([] : List (Column × α)) = [] := rfl

variable {a b : α} {v : κ} {x : α} {l : List α}

theorem compareBy_lt_iff : compareBy key a b = .lt ↔ key a < key b := cmp_eq_lt_iff _ _

theorem compareBy_eq_iff : compareBy key a b = .eq ↔ key a = key b := cmp_eq_eq_iff _ _

theorem compareBy_gt_iff : compareBy key a b = .gt ↔ key b < key a := cmp_eq_gt_iff _ _

theorem column_cons_self (c : Column) (x : α) (entries : List (Column × α)) :
    column c ((c, x) :: entries) = x :: column c entries := by
  simp [column]

theorem column_cons_ne {c d : Column} (h : d ≠ c) (x : α) (entries : List (Column × α)) :
    column c ((d, x) :: entries) = column c entries := by
  simp [column, h]

theorem ofKey_cons_self (h : key x = v) (l : List α) : ofKey key v (x :: l) = x :: ofKey key v l := by
  simp [ofKey, h]

theorem ofKey_cons_ne (h : key x ≠ v) (l : List α) : ofKey key v (x :: l) = ofKey key v l := by
  simp [ofKey, h]

theorem ofKey_append (v : κ) (l l' : List α) : ofKey key v (l ++ l') = ofKey key v l ++ ofKey key v l' :=
  filter_append _ _

theorem mem_ofKey : x ∈ ofKey key v l ↔ x ∈ l ∧ key x = v := by
  simp [ofKey]

theorem ofKey_eq_nil_of_lt (h : ∀ x ∈ l, v < key x) : ofKey key v l = [] := by
  apply filter_eq_nil_iff.mpr
  intro x hx
  have hlt := h x hx
  simp [hlt.ne']

theorem ofKey_map {β : Type*} {key' : β → κ} {f : α → β} (h : ∀ x ∈ l, key' (f x) = key x) (v : κ) :
    ofKey key' v (l.map f) = (ofKey key v l).map f := by
  unfold ofKey
  rw [filter_map]
  congr 1
  apply filter_congr
  intro x hx
  rw [Function.comp_apply, h x hx]

theorem SortedBy.tail (h : SortedBy key (x :: l)) : SortedBy key l := (pairwise_cons.mp h).2

theorem SortedBy.ofKey_eq_nil (h : SortedBy key (x :: l)) (hlt : v < key x) : ofKey key v (x :: l) = [] := by
  apply ofKey_eq_nil_of_lt
  intro y hy
  cases mem_cons.mp hy with
  | inl heq => rw [heq]; exact hlt
  | inr hin => exact lt_of_lt_of_le hlt ((pairwise_cons.mp h).1 y hin)

structure Paired (key : α → κ) (as bs : List α) (entries : List (Column × α)) (v : κ) : Prop where
  first : ofKey key v (column .first entries) = (ofKey key v as).drop (ofKey key v bs).length
  second : ofKey key v (column .second entries) = (ofKey key v bs).drop (ofKey key v as).length
  both : ofKey key v (column .both entries) = (ofKey key v as).take (ofKey key v bs).length

variable {entries : List (Column × α)} {as bs : List α} {X Y : List α}

section
variable (h : Paired key as bs entries v)
include h

theorem Paired.first_cons (hbs : key a = v → ofKey key v bs = []) :
    Paired key (a :: as) bs ((.first, a) :: entries) v := by
  by_cases ha : key a = v
  · have hnil := hbs ha
    obtain ⟨hfirst, hsecond, hboth⟩ := h
    rw [hnil] at hfirst hsecond hboth
    refine ⟨?_, ?_, ?_⟩
    · rw [column_cons_self, ofKey_cons_self ha, ofKey_cons_self ha, hfirst, hnil]
      rfl
    · rw [column_cons_ne (by decide), hsecond, hnil, drop_nil, drop_nil]
    · rw [column_cons_ne (by decide), hboth, hnil]
      rfl
  · refine ⟨?_, ?_, ?_⟩
    · rw [column_cons_self, ofKey_cons_ne ha, ofKey_cons_ne ha, h.first]
    · rw [column_cons_ne (by decide), ofKey_cons_ne ha, h.second]
    · rw [column_cons_ne (by decide), ofKey_cons_ne ha, h.both]

theorem Paired.second_cons (has : key b = v → ofKey key v as = []) :
    Paired key as (b :: bs) ((.second, b) :: entries) v := by
  by_cases hb : key b = v
  · have hnil := has hb
    obtain ⟨hfirst, hsecond, hboth⟩ := h
    rw [hnil] at hfirst hsecond hboth
    refine ⟨?_, ?_, ?_⟩
    · rw [column_cons_ne (by decide), hfirst, hnil, drop_nil, drop_nil]
    · rw [column_cons_self, ofKey_cons_self hb, ofKey_cons_self hb, hsecond, hnil]
      rfl
    · rw [column_cons_ne (by decide), hboth, hnil, take_nil, take_nil]
  · refine ⟨?_, ?_, ?_⟩
    · rw [column_cons_ne (by decide), ofKey_cons_ne hb, h.first]
    · rw [column_cons_self, ofKey_cons_ne hb, ofKey_cons_ne hb, h.second]
    · rw [column_cons_ne (by decide), ofKey_cons_ne hb, h.both]

theorem Paired.both_cons (hab : key a = key b) : Paired key (a :: as) (b :: bs) ((.both, a) :: entries) v := by
  by_cases ha : key a = v
  · have hb : key b = v := hab.symm.trans ha
    refine ⟨?_, ?_, ?_⟩
    · rw [column_cons_ne (by decide), ofKey_cons_self ha, ofKey_cons_self hb, h.first]
      rfl
    · rw [column_cons_ne (by decide), ofKey_cons_self ha, ofKey_cons_self hb, h.second]
      rfl
    · rw [column_cons_self, ofKey_cons_self ha, ofKey_cons_self ha, ofKey_cons_self hb, h.both]
      rfl
  · have hb : key b ≠ v := fun hb => ha (hab.trans hb)
    refine ⟨?_, ?_, ?_⟩
    · rw [column_cons_ne (by decide), ofKey_cons_ne ha, ofKey_cons_ne hb, h.first]
    · rw [column_cons_ne (by decide), ofKey_cons_ne ha, ofKey_cons_ne hb, h.second]
    · rw [column_cons_self, ofKey_cons_ne ha, ofKey_cons_ne ha, ofKey_cons_ne hb, h.both]

end

theorem paired_mergeColumns (has : SortedBy key as) (hbs : SortedBy key bs) (v : κ) :
    Paired key as bs (mergeColumns key as bs) v := by
  fun_induction mergeColumns key as bs with
  | case1 => exact ⟨rfl, rfl, rfl⟩
  | case2 b bs ih => exact (ih has hbs.tail).second_cons fun _ => rfl
  | case3 a as ih => exact (ih has.tail hbs).first_cons fun _ => rfl
  | case4 a as b bs hlt ih =>
    apply (ih has.tail hbs).first_cons
    intro ha
    exact hbs.ofKey_eq_nil (ha ▸ compareBy_lt_iff.mp hlt)
  | case5 a as b bs heq ih => exact (ih has.tail hbs.tail).both_cons (compareBy_eq_iff.mp heq)
  | case6 a as b bs hgt ih =>
    apply (ih has hbs.tail).second_cons
    intro hb
    exact has.ofKey_eq_nil (hb ▸ compareBy_gt_iff.mp hgt)

theorem column_first_sublist (as bs : List α) : (column .first (mergeColumns key as bs)).Sublist as := by
  fun_induction mergeColumns key as bs with
  | case1 => exact .slnil
  | case2 b bs ih => exact ih
  | case3 a as ih => exact ih.cons_cons a
  | case4 a as b bs _ ih => exact ih.cons_cons a
  | case5 a as b bs _ ih => exact ih.cons a
  | case6 a as b bs _ ih => exact ih

theorem column_second_sublist (as bs : List α) : (column .second (mergeColumns key as bs)).Sublist bs := by
  fun_induction mergeColumns key as bs with
  | case1 => exact .slnil
  | case2 b bs ih => exact ih.cons_cons b
  | case3 a as ih => exact ih
  | case4 a as b bs _ ih => exact ih
  | case5 a as b bs _ ih => exact ih.cons b
  | case6 a as b bs _ ih => exact ih.cons_cons b

theorem column_both_sublist (as bs : List α) : (column .both (mergeColumns key as bs)).Sublist as := by
  fun_induction mergeColumns key as bs with
  | case1 => exact .slnil
  | case2 b bs ih => exact ih
  | case3 a as ih => exact ih.cons a
  | case4 a as b bs _ ih => exact ih.cons a
  | case5 a as b bs _ ih => exact ih.cons_cons a
  | case6 a as b bs _ ih => exact ih

/-! ## Columns as multisets -/

theorem take_eq_take_iff : X.take Y.length = Y.take X.length ↔ X <+: Y ∨ Y <+: X := by
  refine ⟨?_, ?_⟩
  · intro h
    cases le_total X.length Y.length with
    | inl hle =>
      rw [take_of_length_le hle] at h
      exact Or.inl (h ▸ take_prefix _ _)
    | inr hle =>
      rw [take_of_length_le (l := Y) hle] at h
      exact Or.inr (h ▸ take_prefix _ _)
  · intro h
    cases h with
    | inl h => rw [take_of_length_le h.length_le, ← prefix_iff_eq_take.mp h]
    | inr h => rw [take_of_length_le (l := Y) h.length_le, ← prefix_iff_eq_take.mp h]

section
variable [DecidableEq α]

theorem count_ofKey (x : α) (l : List α) : (ofKey key (key x) l).count x = l.count x := by
  unfold ofKey
  exact count_filter (decide_eq_true rfl)

theorem count_ofKey_of_ne (h : key x ≠ v) (l : List α) : (ofKey key v l).count x = 0 := by
  apply count_eq_zero_of_not_mem
  intro hmem
  exact h (mem_ofKey.mp hmem).2

theorem count_drop_of_prefix (h : X <+: Y ∨ Y <+: X) (x : α) :
    (X.drop Y.length).count x = X.count x - Y.count x ∧ (X.take Y.length).count x = min (X.count x) (Y.count x) := by
  cases h with
  | inl h =>
    have hle := h.sublist.count_le x
    rw [drop_eq_nil_of_le h.length_le, take_of_length_le h.length_le, count_nil]
    omega
  | inr h =>
    obtain ⟨more, rfl⟩ := h
    rw [drop_left, take_left, count_append]
    omega

variable {r : α → α → Prop}

theorem eq_of_counts [Std.Antisymm r] {l' : List α} (hl : l.Pairwise r) (hl' : l'.Pairwise r)
    (h : ∀ x, l.count x = l'.count x) : l = l' :=
  (perm_iff_count.mpr h).eq_of_pairwise' hl hl'

/-- The columns are differences and intersection of the two lists exactly if of any two groups of items with the
same key one is the beginning of the other. -/
theorem columns_eq_iff [Std.Antisymm r] {first second both : List α}
    (hfirst : ∀ v, ofKey key v first = (ofKey key v as).drop (ofKey key v bs).length)
    (hsecond : ∀ v, ofKey key v second = (ofKey key v bs).drop (ofKey key v as).length)
    (hboth : ∀ v, ofKey key v both = (ofKey key v as).take (ofKey key v bs).length)
    (has : as.Pairwise r) (hbs : bs.Pairwise r)
    (hfirst' : first.Sublist as) (hsecond' : second.Sublist bs) (hboth' : both.Sublist as) :
    (first = as.diff bs ∧ second = bs.diff as ∧ both = as.bagInter bs) ↔
      ∀ v, ofKey key v as <+: ofKey key v bs ∨ ofKey key v bs <+: ofKey key v as := by
  refine ⟨?_, ?_⟩
  · intro ⟨_, heq2, heq3⟩ v
    rw [← take_eq_take_iff]
    have has' : (ofKey key v as).Pairwise r := has.sublist filter_sublist
    have hbs' : (ofKey key v bs).Pairwise r := hbs.sublist filter_sublist
    apply eq_of_counts (has'.sublist (take_sublist _ _)) (hbs'.sublist (take_sublist _ _))
    intro x
    by_cases hx : key x = v
    · subst hx
      have hboth := congrArg (List.count x) (hboth (key x))
      have hsecond := congrArg (List.count x) (hsecond (key x))
      rw [count_ofKey, heq3, count_bagInter] at hboth
      rw [count_ofKey, heq2, count_diff] at hsecond
      have hsplit := congrArg (List.count x) (take_append_drop (ofKey key (key x) as).length (ofKey key (key x) bs))
      rw [count_append, count_ofKey] at hsplit
      omega
    · have hzero := count_ofKey_of_ne hx as
      have hzero' := count_ofKey_of_ne hx bs
      have hle := (take_sublist (ofKey key v bs).length (ofKey key v as)).count_le x
      have hle' := (take_sublist (ofKey key v as).length (ofKey key v bs)).count_le x
      omega
  · intro h
    have hcounts : ∀ x, first.count x = as.count x - bs.count x ∧ second.count x = bs.count x - as.count x ∧
        both.count x = min (as.count x) (bs.count x) := by
      intro x
      obtain ⟨hdrop, htake⟩ := count_drop_of_prefix (h (key x)) x
      obtain ⟨hdrop', _⟩ := count_drop_of_prefix (h (key x)).symm x
      rw [← hfirst, count_ofKey, count_ofKey, count_ofKey] at hdrop
      rw [← hsecond, count_ofKey, count_ofKey, count_ofKey] at hdrop'
      rw [← hboth, count_ofKey, count_ofKey, count_ofKey] at htake
      exact ⟨hdrop, hdrop', htake⟩
    refine ⟨?_, ?_, ?_⟩
    · apply eq_of_counts (has.sublist hfirst') (has.sublist (diff_sublist _ _))
      intro x
      rw [(hcounts x).1, count_diff]
    · apply eq_of_counts (hbs.sublist hsecond') (hbs.sublist (diff_sublist _ _))
      intro x
      rw [(hcounts x).2.1, count_diff]
    · apply eq_of_counts (has.sublist hboth') (has.sublist bagInter_sublist_left)
      intro x
      rw [(hcounts x).2.2, count_bagInter]

end

end

end Bx.Kit
