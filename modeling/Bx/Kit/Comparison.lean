import Mathlib.Order.Compare

/-!
# Comparisons

A comparison is oriented and transitive when it compares values, when it is one
turned round, or when comparisons decide one after the other.
-/

namespace Bx.Kit
open Std List

variable {α β : Type*}

def reverseIf (reverse : Bool) (cmp : Ordering) : Ordering := if reverse then cmp.swap else cmp

@[simp] theorem reverseIf_eq_eq {reverse : Bool} {cmp : Ordering} : reverseIf reverse cmp = .eq ↔ cmp = .eq := by
  cases reverse
  · rfl
  · cases cmp <;> decide

theorem transCmp_reverseIf (reverse : Bool) (cmp : α → α → Ordering) [TransCmp cmp] :
    TransCmp fun a b => reverseIf reverse (cmp a b) := by
  cases reverse with
  | false => exact inferInstanceAs (TransCmp cmp)
  | true =>
    have hflip : (fun a b => reverseIf true (cmp a b)) = fun a b => cmp b a := by
      funext a b
      exact OrientedCmp.eq_swap.symm
    rw [hflip]
    exact TransCmp.opposite

theorem transCmp_const_eq : TransCmp fun _ _ : α => Ordering.eq where
  eq_swap := rfl
  isLE_trans := fun _ _ => rfl

theorem transCmp_on (cmp : β → β → Ordering) [TransCmp cmp] (f : α → β) : TransCmp fun a b => cmp (f a) (f b) where
  eq_swap := OrientedCmp.eq_swap
  isLE_trans := TransCmp.isLE_trans

/-- First by the value of `f`; what has the same value is compared as that value says. -/
def fiberCmp [Ord β] (f : α → β) (g : β → α → α → Ordering) (a b : α) : Ordering :=
  (compare (f a) (f b)).then (g (f a) a b)

variable {g : β → α → α → Ordering} {a b : α} {f : α → β}

theorem fiberCmp_of_eq [Ord β] [ReflOrd β] (h : f a = f b) : fiberCmp f g a b = g (f b) a b := by
  unfold fiberCmp
  rw [h, ReflOrd.compare_self]
  rfl

theorem fiberCmp_of_ne [Ord β] [LawfulEqOrd β] (h : f a ≠ f b) : fiberCmp f g a b = compare (f a) (f b) := by
  unfold fiberCmp
  have hne : compare (f a) (f b) ≠ .eq := fun heq => h (LawfulEqOrd.eq_of_compare heq)
  cases hcmp : compare (f a) (f b) with
  | lt => rfl
  | eq => exact absurd hcmp hne
  | gt => rfl

theorem transCmp_fiberCmp [Ord β] [TransOrd β] [LawfulEqOrd β] (f : α → β)
    (hg : ∀ v, TransCmp (g v)) : TransCmp (fiberCmp f g) where
  eq_swap {a b} := by
    by_cases h : f a = f b
    · rw [fiberCmp_of_eq h, fiberCmp_of_eq h.symm, h]
      exact (hg (f b)).eq_swap
    · rw [fiberCmp_of_ne h, fiberCmp_of_ne (Ne.symm h)]
      exact OrientedOrd.eq_swap
  isLE_trans {a b c} hab hbc := by
    unfold fiberCmp at hab hbc ⊢
    rw [Ordering.isLE_then_iff_and] at hab hbc ⊢
    obtain ⟨hle, hlt⟩ := hab
    obtain ⟨hle', hlt'⟩ := hbc
    refine ⟨TransOrd.isLE_trans hle hle', ?_⟩
    cases hlt with
    | inl hlt => exact .inl (TransCmp.lt_of_lt_of_isLE hlt hle')
    | inr hin =>
      cases hlt' with
      | inl hlt' => exact .inl (TransCmp.lt_of_isLE_of_lt hle hlt')
      | inr hin' =>
        by_cases h : f a = f b
        · rw [← h] at hin'
          exact .inr ((hg (f a)).isLE_trans hin hin')
        · left
          have hne : compare (f a) (f b) ≠ .eq := fun heq => h (LawfulEqOrd.eq_of_compare heq)
          have hstrict : compare (f a) (f b) = .lt := by
            cases hcmp : compare (f a) (f b) with
            | lt => rfl
            | eq => exact absurd hcmp hne
            | gt => simp [hcmp] at hle
          exact TransCmp.lt_of_lt_of_isLE hstrict hle'

def compareAll : List (α → α → Ordering) → α → α → Ordering
  | [], _, _ => .eq
  | cmp :: cmps, a, b => (cmp a b).then (compareAll cmps a b)

theorem transCmp_compareAll {cmps : List (α → α → Ordering)} (h : ∀ cmp ∈ cmps, TransCmp cmp) :
    TransCmp (compareAll cmps) := by
  induction cmps with
  | nil => exact transCmp_const_eq
  | cons cmp cmps ih =>
    have hcmp := h cmp mem_cons_self
    have hcmps := ih fun cmp' hcmp' => h cmp' (mem_cons_of_mem _ hcmp')
    exact inferInstanceAs (TransCmp (compareLex cmp (compareAll cmps)))

/-! ## Lists of digits of any length -/

/-- Digit by digit, where `zero` stands for what one of the lists does not have -/
def comparePadded [Ord α] (zero : α) : List α → List α → Ordering
  | [], [] => .eq
  | l :: left, [] => (compare l zero).then (comparePadded zero left [])
  | [], r :: right => (compare zero r).then (comparePadded zero [] right)
  | l :: left, r :: right => (compare l r).then (comparePadded zero left right)

def padTo (zero : α) (length : Nat) (digits : List α) : List α :=
  digits ++ replicate (length - digits.length) zero

theorem comparePadded_eq [Ord α] [ReflOrd α] (zero : α) {left right : List α} {length : Nat} (hleft : left.length ≤ length)
    (hright : right.length ≤ length) :
    comparePadded zero left right = compare (padTo zero length left) (padTo zero length right) := by
  induction length generalizing left right with
  | zero =>
    rw [length_eq_zero_iff.mp (Nat.le_zero.mp hleft), length_eq_zero_iff.mp (Nat.le_zero.mp hright)]
    unfold comparePadded
    exact ReflOrd.compare_self.symm
  | succ length ih =>
    have hnil : padTo zero (length + 1) ([] : List α) = zero :: padTo zero length [] := by
      simp [padTo, replicate_succ]
    have hcons : ∀ (d : α) (digits : List α), padTo zero (length + 1) (d :: digits) = d :: padTo zero length digits := by
      intro d digits
      simp [padTo]
    cases left with
    | nil =>
      cases right with
      | nil =>
        unfold comparePadded
        exact ReflOrd.compare_self.symm
      | cons r right =>
        unfold comparePadded
        rw [hnil, hcons, List.compare_cons_cons, ih (Nat.zero_le _) (Nat.le_of_succ_le_succ hright)]
    | cons l left =>
      cases right with
      | nil =>
        unfold comparePadded
        rw [hnil, hcons, List.compare_cons_cons, ih (Nat.le_of_succ_le_succ hleft) (Nat.zero_le _)]
      | cons r right =>
        unfold comparePadded
        rw [hcons, hcons, List.compare_cons_cons, ih (Nat.le_of_succ_le_succ hleft) (Nat.le_of_succ_le_succ hright)]

instance transCmp_comparePadded [Ord α] [TransOrd α] (zero : α) : TransCmp (comparePadded zero) where
  eq_swap {a b} := by
    rw [comparePadded_eq zero (Nat.le_max_left a.length b.length) (Nat.le_max_right _ _),
      comparePadded_eq zero (Nat.le_max_right a.length b.length) (Nat.le_max_left _ _)]
    exact OrientedOrd.eq_swap
  isLE_trans {a b c} hab hbc := by
    have ha : a.length ≤ max (max a.length b.length) c.length := by omega
    have hb : b.length ≤ max (max a.length b.length) c.length := by omega
    have hc : c.length ≤ max (max a.length b.length) c.length := by omega
    rw [comparePadded_eq zero ha hb] at hab
    rw [comparePadded_eq zero hb hc] at hbc
    rw [comparePadded_eq zero ha hc]
    exact TransOrd.isLE_trans hab hbc

/-! ## The least of a list -/

def keepLeast (cmp : α → α → Ordering) (best : Option α) (a : α) : Option α :=
  match best with
  | none => some a
  | some b => if cmp a b = .lt then some a else some b

def leastOf (cmp : α → α → Ordering) (l : List α) : Option α := l.foldl (keepLeast cmp) none

theorem leastOf_append (cmp : α → α → Ordering) (l l' : List α) :
    leastOf cmp (l ++ l') = l'.foldl (keepLeast cmp) (leastOf cmp l) :=
  foldl_append

theorem keepLeast_some {cmp : α → α → Ordering} [TransCmp cmp] (b c : α) :
    ∃ m, keepLeast cmp (some b) c = some m ∧ m ∈ [b, c] ∧ ∀ a ∈ [b, c], (cmp m a).isLE = true := by
  have hswap : cmp b c = (cmp c b).swap := OrientedCmp.eq_swap
  unfold keepLeast
  by_cases hlt : cmp c b = .lt
  · exact ⟨c, if_pos hlt, by simp, by simp [hlt, ReflCmp.compare_self]⟩
  · refine ⟨b, if_neg hlt, by simp, ?_⟩
    cases hcase : cmp c b with
    | lt => exact absurd hcase hlt
    | eq => simp [hswap, hcase, ReflCmp.compare_self]
    | gt => simp [hswap, hcase, ReflCmp.compare_self]

theorem foldl_keepLeast {cmp : α → α → Ordering} [TransCmp cmp] (l : List α) (b : α) :
    ∃ m, l.foldl (keepLeast cmp) (some b) = some m ∧ m ∈ b :: l ∧ ∀ a ∈ b :: l, (cmp m a).isLE = true := by
  induction l generalizing b with
  | nil => exact ⟨b, rfl, mem_cons_self, by simp [ReflCmp.compare_self]⟩
  | cons c l ih =>
    obtain ⟨first, hfirst, hin, hleast⟩ := @keepLeast_some _ cmp _ b c
    obtain ⟨m, hm, hmem, hle⟩ := ih first
    rw [foldl_cons, hfirst]
    have hsplit : ∀ a, a ∈ b :: c :: l ↔ a ∈ [b, c] ∨ a ∈ l := fun a => @mem_append _ a [b, c] l
    refine ⟨m, hm, (hsplit m).mpr ?_, ?_⟩
    · cases mem_cons.mp hmem with
      | inl heq => exact .inl (heq ▸ hin)
      | inr hrest => exact .inr hrest
    · intro a ha
      cases (hsplit a).mp ha with
      | inl hpair => exact TransCmp.isLE_trans (hle first mem_cons_self) (hleast a hpair)
      | inr hrest => exact hle a (mem_cons_of_mem _ hrest)

variable {l : List α}

theorem leastOf_eq_some_iff {cmp : α → α → Ordering} [TransCmp cmp] [LawfulEqCmp cmp] {m : α} :
    leastOf cmp l = some m ↔ m ∈ l ∧ ∀ a ∈ l, (cmp m a).isLE = true := by
  cases l with
  | nil =>
    refine ⟨?_, fun h => absurd h.1 not_mem_nil⟩
    intro h
    cases h
  | cons b l =>
    obtain ⟨m', hm', hmem, hle⟩ := @foldl_keepLeast _ cmp _ l b
    have hleast : leastOf cmp (b :: l) = some m' := hm'
    rw [hleast, Option.some.injEq]
    refine ⟨?_, ?_⟩
    · intro heq
      rw [← heq]
      exact ⟨hmem, hle⟩
    · intro ⟨hm, hleM⟩
      exact LawfulEqCmp.eq_of_compare (OrientedCmp.isLE_antisymm (hle m hm) (hleM m' hmem))

/-! ## Sorted lists -/

variable {cmp : α → α → Ordering}

def sortBy (cmp : α → α → Ordering) (l : List α) : List α := l.mergeSort fun a b => (cmp a b).isLE

theorem sortBy_perm (l : List α) : (sortBy cmp l).Perm l := mergeSort_perm l _

theorem pairwise_sortBy [TransCmp cmp] (l : List α) : (sortBy cmp l).Pairwise fun a b => (cmp a b).isLE = true := by
  apply pairwise_mergeSort
  · intro a b c hab hbc
    exact TransCmp.isLE_trans hab hbc
  · intro a b
    have hswap : cmp b a = (cmp a b).swap := OrientedCmp.eq_swap
    rw [hswap]
    cases cmp a b <;> rfl

theorem sortBy_of_pairwise (h : l.Pairwise fun a b => (cmp a b).isLE = true) : sortBy cmp l = l :=
  mergeSort_of_pairwise h

def keepFirst (cmp : α → α → Ordering) : Option α → List α → List α
  | _, [] => []
  | none, a :: l => a :: keepFirst cmp (some a) l
  | some b, a :: l => if cmp b a = .eq then keepFirst cmp (some b) l else a :: keepFirst cmp (some a) l

theorem keepFirst_sublist (last : Option α) (l : List α) : (keepFirst cmp last l).Sublist l := by
  induction l generalizing last with
  | nil => cases last <;> exact List.Sublist.slnil
  | cons a l ih =>
    cases last with
    | none => exact (ih (some a)).cons_cons a
    | some b =>
      unfold keepFirst
      split
      · exact (ih (some b)).cons a
      · exact (ih (some a)).cons_cons a

theorem keepFirst_congr {cmp' : α → α → Ordering} (h : ∀ a b, cmp a b = .eq ↔ cmp' a b = .eq) (p : Option α) (l : List α) :
    keepFirst cmp p l = keepFirst cmp' p l := by
  induction l generalizing p with
  | nil => cases p <;> rfl
  | cons a l ih =>
    cases p with
    | none =>
      unfold keepFirst
      rw [ih]
    | some b =>
      unfold keepFirst
      simp only [h, ih]

section
variable [TransCmp cmp]

variable {p : Option α}

theorem pairwise_keepFirst (h : (p.toList ++ l).Pairwise fun a b => (cmp a b).isLE = true) :
    (p.toList ++ keepFirst cmp p l).Pairwise fun a b => cmp a b = .lt := by
  induction l generalizing p with
  | nil =>
    cases p with
    | none => exact .nil
    | some b => exact pairwise_singleton _ b
  | cons a l ih =>
    cases p with
    | none => exact ih (p := some a) h
    | some b =>
      obtain ⟨hb, hrest⟩ := pairwise_cons.mp h
      unfold keepFirst
      by_cases heq : cmp b a = .eq
      · rw [if_pos heq]
        exact ih (p := some b) (h.sublist ((sublist_cons_self a l).cons_cons b))
      · rw [if_neg heq]
        have hkept : (a :: keepFirst cmp (some a) l).Pairwise fun a b => cmp a b = .lt := ih (p := some a) hrest
        have hlt : cmp b a = .lt := by
          have hle := hb a mem_cons_self
          cases hcase : cmp b a with
          | lt => rfl
          | eq => exact absurd hcase heq
          | gt => simp [hcase] at hle
        refine pairwise_cons.mpr ⟨?_, hkept⟩
        intro c hc
        cases mem_cons.mp hc with
        | inl hca => rw [hca]; exact hlt
        | inr hcl => exact TransCmp.lt_trans hlt ((pairwise_cons.mp hkept).1 c hcl)

theorem eq_of_pairwise_lt (h : l.Pairwise fun a b => cmp a b = .lt) (ha : a ∈ l) (hb : b ∈ l)
    (heq : cmp a b = .eq) : a = b := by
  refine Pairwise.forall_of_forall_of_flip (R := fun a b => cmp a b = .eq → a = b) (fun _ _ _ => rfl) (h.imp ?_)
    (h.imp ?_) ha hb heq
  · intro a b hlt heq
    simp [hlt] at heq
  · intro a b hlt heq
    simp [OrientedCmp.gt_of_lt hlt] at heq

theorem mem_keepFirst {R : α → α → Prop} (h : (p.toList ++ l).Pairwise R)
    (ha : a ∈ l) : ∃ b ∈ p.toList ++ keepFirst cmp p l, cmp b a = .eq ∧ (b = a ∨ R b a) := by
  induction l generalizing p with
  | nil => cases ha
  | cons c l ih =>
    cases p with
    | none =>
      cases mem_cons.mp ha with
      | inl hac =>
        rw [hac]
        exact ⟨c, mem_cons_self, ReflCmp.compare_self, .inl rfl⟩
      | inr hal => exact ih (p := some c) h hal
    | some b =>
      obtain ⟨hb, hrest⟩ := pairwise_cons.mp h
      unfold keepFirst
      by_cases heq : cmp b c = .eq
      · rw [if_pos heq]
        cases mem_cons.mp ha with
        | inl hac =>
          rw [hac]
          exact ⟨b, mem_cons_self, heq, .inr (hb c mem_cons_self)⟩
        | inr hal => exact ih (p := some b) (h.sublist ((sublist_cons_self c l).cons_cons b)) hal
      · rw [if_neg heq]
        cases mem_cons.mp ha with
        | inl hac =>
          rw [hac]
          exact ⟨c, mem_cons_of_mem _ mem_cons_self, ReflCmp.compare_self, .inl rfl⟩
        | inr hal =>
          obtain ⟨d, hd, hrel⟩ := ih (p := some c) hrest hal
          exact ⟨d, mem_cons_of_mem _ hd, hrel⟩

end

variable {p : Option α}

theorem keepFirst_of_pairwise (h : (p.toList ++ l).Pairwise fun a b => cmp a b = .lt) : keepFirst cmp p l = l := by
  induction l generalizing p with
  | nil => cases p <;> rfl
  | cons a l ih =>
    cases p with
    | none =>
      unfold keepFirst
      rw [ih (p := some a) h]
    | some b =>
      obtain ⟨hb, hrest⟩ := pairwise_cons.mp h
      have hne : cmp b a ≠ .eq := by
        rw [hb a mem_cons_self]
        decide
      unfold keepFirst
      rw [if_neg hne, ih (p := some a) hrest]

def checkFrom (ok : α → α → Bool) : Option α → List α → Bool
  | _, [] => true
  | none, a :: l => checkFrom ok (some a) l
  | some b, a :: l => ok b a && checkFrom ok (some a) l

theorem checkFrom_iff {ok : α → α → Bool} (htrans : ∀ a b c, ok a b = true → ok b c = true → ok a c = true) :
    checkFrom ok p l = true ↔ (p.toList ++ l).Pairwise fun a b => ok a b = true := by
  induction l generalizing p with
  | nil =>
    cases p with
    | none => exact ⟨fun _ => .nil, fun _ => rfl⟩
    | some b => exact ⟨fun _ => pairwise_singleton _ b, fun _ => rfl⟩
  | cons a l ih =>
    cases p with
    | none => exact ih (p := some a)
    | some b =>
      have hpair : (some b).toList ++ a :: l = b :: a :: l := rfl
      unfold checkFrom
      rw [Bool.and_eq_true, ih (p := some a), hpair, pairwise_cons]
      refine ⟨?_, ?_⟩
      · intro ⟨hba, hrest⟩
        refine ⟨?_, hrest⟩
        intro c hc
        cases mem_cons.mp hc with
        | inl hca => rw [hca]; exact hba
        | inr hcl => exact htrans b a c hba ((pairwise_cons.mp hrest).1 c hcl)
      · intro ⟨hb, hrest⟩
        exact ⟨hb a mem_cons_self, hrest⟩

end Bx.Kit
