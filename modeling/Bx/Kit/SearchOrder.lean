import Mathlib.Data.List.Basic
import Mathlib.Data.List.Induction

/-!
# Searching a grid by rows or by columns

A grid of optional answers is searched for its first answer, row by row or column by column. The two agree unless they
stop at two crossing places with different answers (`Crossing`).
-/

namespace Bx.Kit

section
variable {α : Type*} {p : α → Prop} {l : List α} {i j : Nat} {a b : α}

structure IsFirst (p : α → Prop) (l : List α) (i : Nat) (a : α) : Prop where
  get : l[i]? = some a
  sat : p a
  bound : ∀ j b, l[j]? = some b → p b → i ≤ j

section
variable (h : IsFirst p l i a)
include h

theorem IsFirst.mem : a ∈ l := List.mem_of_getElem? h.get

theorem IsFirst.index_eq (h' : IsFirst p l j b) : i = j :=
  Nat.le_antisymm (h.bound j b h'.get h'.sat) (h'.bound i a h.get h.sat)

theorem IsFirst.unique (h' : IsFirst p l j b) : a = b := by
  have e := h.index_eq h'
  subst e
  exact Option.some.inj (h.get.symm.trans h'.get)

theorem IsFirst.cons (hb : ¬ p b) : IsFirst p (b :: l) (i + 1) a := by
  refine ⟨h.get, h.sat, ?_⟩
  intro j c hc hp
  cases j with
  | zero => simp only [List.getElem?_cons_zero, Option.some.injEq] at hc; exact absurd (hc ▸ hp) hb
  | succ j => exact Nat.succ_le_succ (h.bound j c hc hp)

end

variable {β : Type*} {f : α → Option β}

theorem findSome?_isFirst {y : β} (h : l.findSome? f = some y) :
    ∃ i a, IsFirst (fun a => f a ≠ none) l i a ∧ f a = some y := by
  induction l with
  | nil => cases h
  | cons c l ih =>
    rw [List.findSome?_cons] at h
    cases hc : f c with
    | some z =>
      rw [hc] at h
      exact ⟨0, c, ⟨rfl, by simp [hc], fun _ _ _ _ => Nat.zero_le _⟩, hc.trans h⟩
    | none =>
      rw [hc] at h
      obtain ⟨i, a, hi, ha⟩ := ih h
      exact ⟨i + 1, a, hi.cons (by simp [hc]), ha⟩

end

section
variable {κ σ β : Type*} (answer : κ → σ → Option β) (rows : List κ) (columns : List σ)

def rowsFirst : Option β := rows.findSome? fun k => columns.findSome? (answer k)

def columnsFirst : Option β := columns.findSome? fun s => rows.findSome? (answer · s)

/-- The first column with an answer gives it in row `k`; the first row with an
answer is an earlier one, `k'`, and gives another answer in a later column. -/
def Crossing : Prop :=
  ∃ i near p k j far p' k',
    IsFirst (fun s => ∃ m ∈ rows, answer m s ≠ none) columns i near ∧ IsFirst (fun m => answer m near ≠ none) rows p k ∧
    IsFirst (fun m => ∃ s ∈ columns, answer m s ≠ none) rows p' k' ∧ IsFirst (fun s => answer k' s ≠ none) columns j far ∧
    i < j ∧ p' < p ∧ answer k near ≠ answer k' far

variable {answer rows columns}

theorem findSome?_ne_none {α γ : Type*} {f : α → Option γ} {l : List α} :
    l.findSome? f ≠ none ↔ ∃ a ∈ l, f a ≠ none := by
  simp [List.findSome?_eq_none_iff]

theorem rowsFirst_some {y : β} (h : rowsFirst answer rows columns = some y) :
    ∃ p' k' j far, IsFirst (fun m => ∃ s ∈ columns, answer m s ≠ none) rows p' k' ∧
      IsFirst (fun s => answer k' s ≠ none) columns j far ∧ answer k' far = some y := by
  obtain ⟨p', k', hk, hy⟩ := findSome?_isFirst h
  obtain ⟨j, far, hfar, hy⟩ := findSome?_isFirst hy
  refine ⟨p', k', j, far, ⟨hk.get, findSome?_ne_none.mp hk.sat, ?_⟩, hfar, hy⟩
  intro q m hm hs
  exact hk.bound q m hm (findSome?_ne_none.mpr hs)

theorem columnsFirst_some {y : β} (h : columnsFirst answer rows columns = some y) :
    ∃ i near p k, IsFirst (fun s => ∃ m ∈ rows, answer m s ≠ none) columns i near ∧
      IsFirst (fun m => answer m near ≠ none) rows p k ∧ answer k near = some y := by
  have h : rowsFirst (fun s k => answer k s) columns rows = some y := h
  exact rowsFirst_some h

theorem rowsFirst_ne_none : rowsFirst answer rows columns ≠ none ↔ ∃ k ∈ rows, ∃ s ∈ columns, answer k s ≠ none := by
  unfold rowsFirst
  simp only [findSome?_ne_none]

theorem columnsFirst_ne_none :
    columnsFirst answer rows columns ≠ none ↔ ∃ k ∈ rows, ∃ s ∈ columns, answer k s ≠ none := by
  unfold columnsFirst
  simp only [findSome?_ne_none]
  constructor
  · intro ⟨s, hs, k, hk, h⟩; exact ⟨k, hk, s, hs, h⟩
  · intro ⟨k, hk, s, hs, h⟩; exact ⟨s, hs, k, hk, h⟩

theorem rowsFirst_eq_columnsFirst_iff :
    rowsFirst answer rows columns = columnsFirst answer rows columns ↔ ¬ Crossing answer rows columns := by
  constructor
  · intro heq ⟨i, near, p, k, j, far, p', k', hnear, hk, hk', hfar, _, _, hne⟩
    have hex : ∃ m ∈ rows, ∃ s ∈ columns, answer m s ≠ none := ⟨k', hk'.mem, hk'.sat⟩
    obtain ⟨y, hy⟩ := Option.ne_none_iff_exists'.mp (columnsFirst_ne_none.mpr hex)
    obtain ⟨i₀, near₀, p₀, k₀, hnear₀, hk₀, hy₀⟩ := columnsFirst_some hy
    obtain ⟨p₁, k₁, j₁, far₁, hk₁, hfar₁, hy₁⟩ := rowsFirst_some (heq.trans hy)
    have e1 := hnear.unique hnear₀
    have e2 := hk'.unique hk₁
    subst e1 e2
    rw [hk.unique hk₀, hy₀, hfar.unique hfar₁, hy₁] at hne
    exact hne rfl
  · intro hcross
    by_cases hex : ∃ m ∈ rows, ∃ s ∈ columns, answer m s ≠ none
    · obtain ⟨y, hy⟩ := Option.ne_none_iff_exists'.mp (columnsFirst_ne_none.mpr hex)
      obtain ⟨z, hz⟩ := Option.ne_none_iff_exists'.mp (rowsFirst_ne_none.mpr hex)
      obtain ⟨i, near, p, k, hnear, hk, hyk⟩ := columnsFirst_some hy
      obtain ⟨p', k', j, far, hk', hfar, hzk⟩ := rowsFirst_some hz
      have hij : i ≤ j := hnear.bound j far hfar.get ⟨k', hk'.mem, hfar.sat⟩
      have hp : p' ≤ p := hk'.bound p k hk.get ⟨near, hnear.mem, hk.sat⟩
      rw [hy, hz]
      by_contra hne
      -- the same column or the same row would mean the same place
      have hlt : i < j ∧ p' < p := by
        rcases Nat.lt_or_ge i j with h | h
        · refine ⟨h, Nat.lt_of_le_of_ne hp ?_⟩
          intro e
          subst e
          have e := Option.some.inj (hk'.get.symm.trans hk.get)
          subst e
          exact absurd (hfar.bound i near hnear.get hk.sat) (Nat.not_le.mpr h)
        · exfalso
          have e : i = j := Nat.le_antisymm hij h
          subst e
          have e := Option.some.inj (hnear.get.symm.trans hfar.get)
          subst e
          have e := Nat.le_antisymm hp (hk.bound p' k' hk'.get hfar.sat)
          subst e
          have e := Option.some.inj (hk'.get.symm.trans hk.get)
          subst e
          rw [hyk] at hzk
          exact hne hzk.symm
      refine hcross ⟨i, near, p, k, j, far, p', k', hnear, hk, hk', hfar, hlt.1, hlt.2, ?_⟩
      rw [hyk, hzk]
      intro e
      exact hne e.symm
    · have h1 := mt columnsFirst_ne_none.mp hex
      have h2 := mt rowsFirst_ne_none.mp hex
      rw [Decidable.not_not.mp h1, Decidable.not_not.mp h2]

end

end Bx.Kit
