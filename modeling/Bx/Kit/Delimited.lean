import Mathlib.Data.List.Basic

/-!
# Delimited records

A list cut after each delimiter. Every record but the last one ends with the
delimiter and has it nowhere else; the last one may lack it.
-/

namespace Bx.Kit

open List

variable {α : Type*} [DecidableEq α]

def delimited (delim : α) : List α → List (List α)
  | [] => []
  | c :: s =>
    if c = delim then [c] :: delimited delim s
    else
      match delimited delim s with
      | [] => [[c]]
      | record :: records => (c :: record) :: records

def Unterminated (delim : α) (s : List α) : Prop := s ≠ [] ∧ s.getLast? ≠ some delim

instance (delim : α) (s : List α) : Decidable (Unterminated delim s) := inferInstanceAs (Decidable (_ ∧ _))

variable {delim : α} {s : List α}

theorem delimited_eq_nil : delimited delim s = [] ↔ s = [] := by
  cases s with
  | nil => simp [delimited]
  | cons c s =>
    unfold delimited
    by_cases hc : c = delim
    · simp [hc]
    · cases hrest : delimited delim s <;> simp [hc]

theorem delimited_append {body : List α} (h : delim ∉ body) (s : List α) :
    delimited delim (body ++ delim :: s) = (body ++ [delim]) :: delimited delim s := by
  induction body with
  | nil => exact if_pos rfl
  | cons c body ih =>
    obtain ⟨hc, hbody⟩ := not_or.mp (mem_cons.not.mp h)
    rw [cons_append, delimited, if_neg (Ne.symm hc), ih hbody]
    rfl

theorem delimited_unterminated (hne : s ≠ []) (h : delim ∉ s) : delimited delim s = [s] := by
  induction s with
  | nil => exact absurd rfl hne
  | cons c s ih =>
    obtain ⟨hc, hs⟩ := not_or.mp (mem_cons.not.mp h)
    rw [delimited, if_neg (Ne.symm hc)]
    cases s with
    | nil => rfl
    | cons d s => rw [ih (cons_ne_nil d s) hs]

/-- Induction record by record; the last one may be unterminated. -/
theorem delimited_induction (delim : α) {P : List α → Prop} (nil : P [])
    (unterminated : ∀ s, s ≠ [] → delim ∉ s → P s) (record : ∀ body s, delim ∉ body → P s → P (body ++ delim :: s))
    (s : List α) : P s := by
  by_cases hmem : delim ∈ s
  · obtain ⟨body, rest, hsplit, hbody⟩ := eq_append_cons_of_mem hmem
    rw [hsplit]
    exact record body rest hbody (delimited_induction delim nil unterminated record rest)
  · by_cases hnil : s = []
    · rw [hnil]
      exact nil
    · exact unterminated s hnil hmem
termination_by s.length
decreasing_by
  rw [hsplit, length_append, length_cons]
  omega

theorem delimited_flatten (delim : α) (s : List α) : (delimited delim s).flatten = s := by
  induction s using delimited_induction delim with
  | nil => rfl
  | unterminated s hne h => rw [delimited_unterminated hne h, flatten_singleton]
  | record body s hbody ih => rw [delimited_append hbody, flatten_cons, ih, append_assoc, singleton_append]

theorem delimited_length (delim : α) (s : List α) :
    (delimited delim s).length = s.count delim + if Unterminated delim s then 1 else 0 := by
  induction s using delimited_induction delim with
  | nil => rfl
  | unterminated s hne h =>
    rw [delimited_unterminated hne h, count_eq_zero.mpr h, if_pos ⟨hne, fun hlast => h (mem_of_getLast? hlast)⟩]
    rfl
  | record body s hbody ih =>
    have hsame : Unterminated delim (body ++ delim :: s) ↔ Unterminated delim s := by
      cases s <;> simp [Unterminated]
    rw [delimited_append hbody, length_cons, ih, count_append, count_eq_zero.mpr hbody, count_cons_self,
      if_congr hsame rfl rfl]
    omega

theorem delimited_take (delim : α) (s : List α) {j : Nat} (hlt : j + 1 < (delimited delim s).length) :
    ∃ before, ((delimited delim s).take (j + 1)).flatten = before ++ [delim] ∧ before.count delim = j := by
  induction s using delimited_induction delim generalizing j with
  | nil => cases hlt
  | unterminated s hne h =>
    rw [delimited_unterminated hne h, length_singleton] at hlt
    omega
  | record body s hbody ih =>
    rw [delimited_append hbody] at hlt ⊢
    cases j with
    | zero => exact ⟨body, by simp, count_eq_zero.mpr hbody⟩
    | succ j =>
      obtain ⟨before, hflatten, hcount⟩ := ih (Nat.succ_lt_succ_iff.mp hlt)
      refine ⟨body ++ delim :: before, ?_, ?_⟩
      · rw [take_succ_cons, flatten_cons, hflatten, append_assoc, append_assoc]
        rfl
      · rw [count_append, count_eq_zero.mpr hbody, count_cons_self, hcount, Nat.zero_add]

theorem nil_notMem_delimited : [] ∉ delimited delim s := by
  induction s using delimited_induction delim with
  | nil => exact not_mem_nil
  | unterminated s hne h =>
    rw [delimited_unterminated hne h, mem_singleton]
    exact Ne.symm hne
  | record body s hbody ih =>
    rw [delimited_append hbody]
    exact not_mem_cons_of_ne_of_not_mem (by simp) ih

variable {record : List α}

theorem getLast?_of_mem_dropLast (h : record ∈ (delimited delim s).dropLast) : record.getLast? = some delim := by
  induction s using delimited_induction delim with
  | nil => cases h
  | unterminated s hne hs => simp [delimited_unterminated hne hs] at h
  | record body s hbody ih =>
    rw [delimited_append hbody] at h
    cases hrest : delimited delim s with
    | nil => simp [hrest] at h
    | cons next records =>
      rw [hrest] at h ih
      cases mem_cons.mp h with
      | inl heq => rw [heq, getLast?_concat]
      | inr hin => exact ih hin

theorem notMem_dropLast_of_mem (h : record ∈ delimited delim s) : delim ∉ record.dropLast := by
  induction s using delimited_induction delim with
  | nil => cases h
  | unterminated s hne hs =>
    rw [delimited_unterminated hne hs, mem_singleton] at h
    rw [h]
    exact fun hmem => hs (dropLast_subset s hmem)
  | record body s hbody ih =>
    rw [delimited_append hbody] at h
    cases mem_cons.mp h with
    | inl heq => rwa [heq, dropLast_concat]
    | inr hin => exact ih hin

/-- Records that a text could be cut into are what their join is cut into. -/
theorem delimited_join {records : List (List α)} (hinner : ∀ record ∈ records, record ≠ [] ∧ delim ∉ record.dropLast)
    (hterminated : ∀ record ∈ records.dropLast, record.getLast? = some delim) :
    delimited delim records.flatten = records := by
  induction records with
  | nil => rfl
  | cons record records ih =>
    obtain ⟨hne, hbody⟩ := hinner record mem_cons_self
    have hrest := ih (fun other hother => hinner other (mem_cons_of_mem _ hother))
    have hsplit := dropLast_append_getLast hne
    rw [flatten_cons]
    by_cases hlast : record.getLast hne = delim
    · rw [hlast] at hsplit
      rw [← hsplit, append_assoc, singleton_append, delimited_append hbody, hrest]
      intro other hother
      cases records with
      | nil => cases hother
      | cons next more => exact hterminated other (mem_cons_of_mem _ hother)
    · cases records with
      | nil =>
        rw [flatten_nil, append_nil]
        apply delimited_unterminated hne
        rw [← hsplit]
        intro hmem
        cases mem_append.mp hmem with
        | inl hin => exact hbody hin
        | inr hin => exact hlast (mem_singleton.mp hin).symm
      | cons next more =>
        have hterm := hterminated record mem_cons_self
        rw [getLast?_eq_some_getLast hne] at hterm
        exact absurd (Option.some.inj hterm) hlast

theorem getLast?_delimited (h : (delimited delim s).getLast? = some record) : record.getLast? = s.getLast? := by
  have hsplit := dropLast_append_getLast? record h
  have hne : record ≠ [] := by
    intro hnil
    rw [hnil] at h
    exact nil_notMem_delimited (mem_of_getLast? h)
  have hflatten := delimited_flatten delim s
  rw [← hsplit, flatten_append, flatten_singleton] at hflatten
  rw [← hflatten, getLast?_append_of_ne_nil _ hne]

end Bx.Kit
