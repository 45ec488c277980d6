import Mathlib.Data.List.Induction

/-!
# The last element of a list that satisfies a predicate

`IsLast p l i a` locates it; two scans compute it: a search from the end, and
a pass from the front that keeps the best candidate so far (`better`).
-/

namespace Bx.Kit

open List

section
variable {α : Type*} {p q : α → Prop} {l : List α} {i j : Nat} {a b : α}

structure IsLast (p : α → Prop) (l : List α) (i : Nat) (a : α) : Prop where
  get : l[i]? = some a
  sat : p a
  bound : ∀ j b, l[j]? = some b → p b → j ≤ i

section
variable (h : IsLast p l i a)
include h

theorem IsLast.index_eq (h' : IsLast p l j b) : i = j :=
  Nat.le_antisymm (h'.bound i a h.get h.sat) (h.bound j b h'.get h'.sat)

theorem IsLast.unique (h' : IsLast p l j b) : a = b := by
  have e := h.index_eq h'
  subst e
  exact Option.some.inj (h.get.symm.trans h'.get)

theorem IsLast.mem : a ∈ l := mem_of_getElem? h.get

theorem IsLast.congr (hpq : ∀ b ∈ l, p b ↔ q b) : IsLast q l i a :=
  ⟨h.get, (hpq a h.mem).mp h.sat, fun j b hb hq => h.bound j b hb ((hpq b (mem_of_getElem? hb)).mpr hq)⟩

theorem IsLast.or_left (hq : ∀ j b, l[j]? = some b → q b → j ≤ i) : IsLast (fun b => p b ∨ q b) l i a :=
  ⟨h.get, Or.inl h.sat, fun j b hb hpq => hpq.elim (h.bound j b hb) (hq j b hb)⟩

end

theorem IsLast.or_right (h : IsLast q l i a) (hp : ∀ j b, l[j]? = some b → p b → j ≤ i) :
    IsLast (fun b => p b ∨ q b) l i a :=
  ⟨h.get, Or.inr h.sat, fun j b hb hpq => hpq.elim (hp j b hb) (h.bound j b hb)⟩

theorem isLast_append (a : α) (ha : p a) : IsLast p (l ++ [a]) l.length a := by
  refine ⟨by simp, ha, fun j b hb _ => ?_⟩
  have := (List.getElem?_eq_some_iff.mp hb).1
  simp at this; omega

theorem IsLast.append_of_not (h : IsLast p l i a) (hb : ¬ p b) : IsLast p (l ++ [b]) i a := by
  have hi := (List.getElem?_eq_some_iff.mp h.get).1
  refine ⟨by rw [getElem?_append_left hi, h.get], h.sat, fun j c hc hp => ?_⟩
  rcases Nat.lt_or_ge j l.length with hj | hj
  · rw [getElem?_append_left hj] at hc; exact h.bound j c hc hp
  · have hm := mem_of_getElem? hc
    have hl := (List.getElem?_eq_some_iff.mp hc).1
    have e : j = l.length := by simp at hl; omega
    subst e
    simp at hc; subst hc; exact absurd hp hb

theorem exists_isLast (h : ∃ a ∈ l, p a) : ∃ i a, IsLast p l i a := by
  induction l using reverseRecOn with
  | nil => obtain ⟨a, ha, _⟩ := h; cases ha
  | append_singleton l c ih =>
    by_cases hc : p c
    · exact ⟨_, c, isLast_append c hc⟩
    · obtain ⟨a, ha, hp⟩ := h
      rcases mem_append.mp ha with ha | ha
      · obtain ⟨i, b, hb⟩ := ih ⟨a, ha, hp⟩
        exact ⟨i, b, hb.append_of_not hc⟩
      · simp at ha; subst ha; exact absurd hp hc

theorem find?_reverse_some {t : α → Bool} (h : l.reverse.find? t = some a) : ∃ i, IsLast (t · = true) l i a := by
  induction l using reverseRecOn with
  | nil => simp at h
  | append_singleton l c ih =>
    rw [reverse_append, reverse_singleton, singleton_append, find?_cons] at h
    by_cases hc : t c = true
    · simp only [hc, Option.some.injEq] at h
      subst h; exact ⟨_, isLast_append c hc⟩
    · simp only [hc] at h
      obtain ⟨i, hi⟩ := ih h
      exact ⟨i, hi.append_of_not hc⟩

end

section
variable {ε : Type*} (rank : ε → Nat)

def better (best : Option ε) (entry : ε) : Option ε :=
  match best with
  | none => some entry
  | some b => if rank entry > rank b then some entry else some b

theorem foldl_better_some (l : List ε) (b : ε) :
    ∃ e, l.foldl (better rank) (some b) = some e ∧ (e = b ∨ e ∈ l) ∧ rank b ≤ rank e ∧ ∀ c ∈ l, rank c ≤ rank e := by
  induction l generalizing b with
  | nil => exact ⟨b, rfl, Or.inl rfl, Nat.le_refl _, by simp⟩
  | cons c l ih =>
    rw [foldl_cons]
    by_cases hc : rank c > rank b
    · obtain ⟨e, he, hm, hr, hl⟩ := ih c
      refine ⟨e, by simpa [better, hc] using he, Or.inr ?_, by omega, ?_⟩
      · rcases hm with rfl | hm
        · exact mem_cons_self
        · exact mem_cons_of_mem _ hm
      · intro d hd
        rcases mem_cons.mp hd with rfl | hd
        · exact hr
        · exact hl d hd
    · obtain ⟨e, he, hm, hr, hl⟩ := ih b
      refine ⟨e, by simpa [better, hc] using he, ?_, hr, ?_⟩
      · rcases hm with rfl | hm
        · exact Or.inl rfl
        · exact Or.inr (mem_cons_of_mem _ hm)
      · intro d hd
        rcases mem_cons.mp hd with rfl | hd
        · omega
        · exact hl d hd

theorem foldl_better {l : List ε} {e : ε} (h : l.foldl (better rank) none = some e) :
    e ∈ l ∧ ∀ c ∈ l, rank c ≤ rank e := by
  cases l with
  | nil => cases h
  | cons b l =>
    obtain ⟨e', he', hm, hr, hl⟩ := foldl_better_some rank l b
    have he : e' = e := Option.some.inj (he'.symm.trans h)
    subst he
    refine ⟨?_, ?_⟩
    · rcases hm with rfl | hm
      · exact mem_cons_self
      · exact mem_cons_of_mem _ hm
    · intro c hc
      rcases mem_cons.mp hc with rfl | hc
      · exact hr
      · exact hl c hc

theorem foldl_better_none {l : List ε} (h : l.foldl (better rank) none = none) : l = [] := by
  cases l with
  | nil => rfl
  | cons b l =>
    obtain ⟨e, he, _⟩ := foldl_better_some rank l b
    rw [foldl_cons] at h
    exact absurd (h.symm.trans he) (by simp)

end

/-! ## The last write -/

theorem foldlM_last {σ α β : Type*} {apply : σ → α → Option σ} (proj : σ → Option β) (write : α → Option β)
    (happly : ∀ s a t, apply s a = some t → proj t = (write a <|> proj s)) {l : List α} {s t : σ}
    (h : l.foldlM apply s = some t) : proj t = ((l.filterMap write).getLast? <|> proj s) := by
  induction l generalizing s with
  | nil =>
    cases h
    rfl
  | cons a l ih =>
    rw [foldlM_cons] at h
    obtain ⟨s', hs', hl⟩ := Option.bind_eq_some_iff.mp h
    rw [ih hl, happly s a s' hs']
    cases hw : write a with
    | none =>
      rw [filterMap_cons_none hw]
      rfl
    | some b =>
      rw [filterMap_cons_some hw, getLast?_cons]
      cases (l.filterMap write).getLast? <;> rfl

end Bx.Kit
