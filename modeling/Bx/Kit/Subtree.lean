import Mathlib.Data.List.Infix

/-!
# Subtrees

A tree as a partial map from places, which are lists of names. Where things are
removed one by one, and each only when nothing is left below it, what is left is
a tree again.
-/

namespace Bx.Kit

open List

variable {ν ο : Type*}

/-! ## Places -/

theorem child_below_of_below {p q : List ν} (h : p <+: q) (hne : p ≠ q) : ∃ n, p ++ [n] <+: q := by
  obtain ⟨rest, rfl⟩ := h
  cases rest with
  | nil => exact absurd (append_nil p).symm hne
  | cons n rest =>
    refine ⟨n, rest, ?_⟩
    rw [append_assoc]
    rfl

theorem below_of_child_below {p q : List ν} {n : ν} (h : p ++ [n] <+: q) : p <+: q :=
  (prefix_append p [n]).trans h

theorem ne_of_child_below {p q : List ν} {n : ν} (h : p ++ [n] <+: q) : p ≠ q := by
  intro heq
  have hle := h.length_le
  rw [heq, length_append, length_singleton] at hle
  omega

theorem child_below_inj {p q : List ν} {n n' : ν} (h : p ++ [n] <+: q) (h' : p ++ [n'] <+: q) : n = n' := by
  have hsame : p ++ [n] = p ++ [n'] :=
    (prefix_of_prefix_length_le h h' (by rw [length_append, length_append]; exact le_rfl)).eq_of_length
      (by rw [length_append, length_append]; rfl)
  exact singleton_inj.mp (append_cancel_left hsame)

theorem above_or_below {p p' q : List ν} (h : p <+: q) (h' : p' <+: q) : p <+: p' ∨ p' <+: p :=
  prefix_or_prefix_of_prefix h h'

def Closed (holds : ο → Prop) (tree : List ν → Option ο) : Prop :=
  ∀ p n, tree (p ++ [n]) ≠ none → ∃ o, tree p = some o ∧ holds o

variable {holds : ο → Prop}

theorem Closed.holds_above {tree : List ν → Option ο} (h : Closed holds tree) {p q : List ν}
    (hunder : p <+: q) (hne : p ≠ q) (hthere : tree q ≠ none) : ∃ o, tree p = some o ∧ holds o := by
  obtain ⟨rest, rfl⟩ := hunder
  induction rest using reverseRecOn with
  | nil => exact absurd (append_nil p).symm hne
  | append_singleton rest n ih =>
    rw [← append_assoc] at hthere
    obtain ⟨o, ho, hholds⟩ := h _ n hthere
    cases rest with
    | nil =>
      rw [append_nil] at ho
      exact ⟨o, ho, hholds⟩
    | cons m rest =>
      apply ih
      · intro heq
        exact cons_ne_nil m rest (self_eq_append_right.mp heq)
      · rw [ho]
        exact Option.some_ne_none o

section
variable [DecidableEq ν]

/-! ## Moving a subtree -/

/-- What was at `p` and below is at `q`, in place of what was there. -/
def moveAt (tree : List ν → Option ο) (p q : List ν) : List ν → Option ο := fun x =>
  if q <+: x then tree (p ++ x.drop q.length) else if p <+: x then none else tree x

section
variable {tree : List ν → Option ο} {p q x : List ν}

theorem moveAt_dest (tree : List ν → Option ο) (p q rest : List ν) : moveAt tree p q (q ++ rest) = tree (p ++ rest) := by
  unfold moveAt
  rw [if_pos (prefix_append q rest), drop_left]

theorem moveAt_source (hsource : p <+: x) (hdest : ¬ q <+: x) : moveAt tree p q x = none := by
  unfold moveAt
  rw [if_neg hdest, if_pos hsource]

theorem moveAt_other (hsource : ¬ p <+: x) (hdest : ¬ q <+: x) : moveAt tree p q x = tree x := by
  unfold moveAt
  rw [if_neg hdest, if_neg hsource]

theorem moveAt_old {o : ο} (h : moveAt tree p q x = some o) : ∃ y, tree y = some o := by
  unfold moveAt at h
  split at h
  · exact ⟨_, h⟩
  · split at h
    · cases h
    · exact ⟨_, h⟩

end

/-! ## Removing things one by one -/

def removeAt (tree : List ν → Option ο) (q : List ν) : List ν → Option ο := fun x => if x = q then none else tree x

inductive Removes (tree : List ν → Option ο) : List (List ν) → (List ν → Option ο) → Prop
  | nil : Removes tree [] tree
  | snoc {log : List (List ν)} {left : List ν → Option ο} {q : List ν} : Removes tree log left → left q ≠ none →
      (∀ x, q <+: x → x ≠ q → left x = none) → Removes tree (log ++ [q]) (removeAt left q)

variable {tree left : List ν → Option ο} {log : List (List ν)}

section
variable (h : Removes tree log left)
include h

theorem Removes.left_eq (x : List ν) : left x = if x ∈ log then none else tree x := by
  induction h with
  | nil => rw [if_neg not_mem_nil]
  | @snoc log left q _ _ _ ih =>
    unfold removeAt
    by_cases hx : x = q
    · rw [if_pos hx, if_pos (by rw [hx]; exact mem_append_right _ mem_cons_self)]
    · rw [if_neg hx, ih]
      have hiff : x ∈ log ++ [q] ↔ x ∈ log := by
        rw [mem_append, mem_singleton]
        exact or_iff_left hx
      rw [if_congr hiff rfl rfl]

theorem Removes.eq_or_none (x : List ν) : left x = tree x ∨ left x = none := by
  rw [h.left_eq]
  split
  · exact Or.inr rfl
  · exact Or.inl rfl

theorem Removes.there {x : List ν} (hx : x ∈ log) : tree x ≠ none := by
  induction h with
  | nil => exact absurd hx not_mem_nil
  | @snoc log left q hremoves hthere _ ih =>
    cases mem_append.mp hx with
    | inl hin => exact ih hin
    | inr hin =>
      rw [mem_singleton.mp hin]
      cases hremoves.eq_or_none q with
      | inl heq => exact heq ▸ hthere
      | inr heq => exact absurd heq hthere

theorem Removes.trans {log' : List (List ν)} {left' : List ν → Option ο}
    (h' : Removes left log' left') : Removes tree (log ++ log') left' := by
  induction h' with
  | nil =>
    rw [append_nil]
    exact h
  | snoc _ hthere hbelow ih =>
    rw [← append_assoc]
    exact ih.snoc hthere hbelow

theorem Removes.frame {q : List ν} (hlog : ∀ x ∈ log, q <+: x) {x : List ν} (hx : ¬ q <+: x) : left x = tree x := by
  rw [h.left_eq, if_neg fun hmem => hx (hlog x hmem)]

end

theorem Removes.closed (h : Removes tree log left) (hclosed : Closed holds tree) : Closed holds left := by
  induction h with
  | nil => exact hclosed
  | @snoc log left q _ _ hbelow ih =>
    intro p n hthere
    unfold removeAt at hthere ⊢
    by_cases hchild : p ++ [n] = q
    · rw [if_pos hchild] at hthere
      exact absurd rfl hthere
    · rw [if_neg hchild] at hthere
      by_cases hp : p = q
      · have hnone := hbelow (p ++ [n]) (by rw [hp]; exact prefix_append q [n]) hchild
        exact absurd hnone hthere
      · rw [if_neg hp]
        exact ih p n hthere

theorem Removes.below_first (h : Removes tree log left) {before after : List (List ν)} {q x : List ν}
    (hlog : log = before ++ q :: after) (hunder : q <+: x) (hne : x ≠ q) (hthere : tree x ≠ none) : x ∈ before := by
  induction h generalizing after with
  | nil =>
    have hlen := congrArg List.length hlog
    simp [length_append] at hlen
  | @snoc log left q' hremoves _ hbelow ih =>
    cases after using reverseRecOn with
    | nil =>
      obtain ⟨hlog', hq⟩ := append_inj' hlog rfl
      have hqq : q' = q := singleton_inj.mp hq
      subst hqq
      have hnone := hbelow x hunder hne
      rw [hremoves.left_eq] at hnone
      by_cases hx : x ∈ log
      · rw [hlog'] at hx
        exact hx
      · rw [if_neg hx] at hnone
        exact absurd hnone hthere
    | append_singleton after last =>
      rw [← cons_append, ← append_assoc] at hlog
      exact ih (append_inj' hlog rfl).1

end

end Bx.Kit
