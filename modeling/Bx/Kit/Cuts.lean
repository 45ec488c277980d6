import Mathlib.Data.List.Chain

/-!
# Cutting a list at the occurrences of a pattern

A pattern is given by where it matches: at each place, the end of a match that starts there, if any. The occurrences are
found from left to right.
-/

namespace Bx.Kit

open List

variable {α : Type*}

/-! ## Pieces -/

def segment (l : List α) (a b : Nat) : List α := (l.drop a).take (b - a)

def cutAt (l : List α) (a : Nat) : List Nat → List (List α)
  | [] => [l.drop a]
  | p :: points => segment l a p :: cutAt l p points

variable {l : List α} {points : List Nat}

theorem segment_append_drop {a b : Nat} (h : a ≤ b) : segment l a b ++ l.drop b = l.drop a := by
  unfold segment
  have hb : l.drop b = (l.drop a).drop (b - a) := by rw [drop_drop, Nat.add_sub_cancel' h]
  rw [hb, take_append_drop]

theorem segment_append_segment {a b c : Nat} (hab : a ≤ b) (hbc : b ≤ c) :
    segment l a b ++ segment l b c = segment l a c := by
  unfold segment
  have hb : l.drop b = (l.drop a).drop (b - a) := by rw [drop_drop, Nat.add_sub_cancel' hab]
  have hc : c - a = (b - a) + (c - b) := by omega
  rw [hb, hc, take_add]

theorem segment_self (l : List α) (a : Nat) : segment l a a = [] := by
  unfold segment
  rw [Nat.sub_self, take_zero]

theorem cutAt_flatten {a : Nat} (h : (a :: points).IsChain (· ≤ ·)) : (cutAt l a points).flatten = l.drop a := by
  induction points generalizing a with
  | nil => exact append_nil _
  | cons p points ih =>
    obtain ⟨hle, hrest⟩ := isChain_cons_cons.mp h
    rw [cutAt, flatten_cons, ih hrest, segment_append_drop hle]

theorem cutAt_reverse_perm (h : (0 :: points).IsChain (· ≤ ·)) : (cutAt l 0 points).reverse.flatten.Perm l := by
  have hperm := (reverse_perm (cutAt l 0 points)).flatten
  rwa [cutAt_flatten h, drop_zero] at hperm

/-! ## Occurrences -/

/-- `some e` at `s` is a match from `s` up to `e`. -/
abbrev MatchAt := Nat → Option Nat

variable {matchAt : MatchAt}

def MatchAt.Within (matchAt : MatchAt) (n : Nat) : Prop := ∀ {s e : Nat}, matchAt s = some e → s ≤ e ∧ e ≤ n

/-- The first match, at one of `n` places -/
def firstMatch (matchAt : MatchAt) : Nat → Nat → Option (Nat × Nat)
  | 0, _ => none
  | n + 1, s =>
    match matchAt s with
    | some e => some (s, e)
    | none => firstMatch matchAt n (s + 1)

theorem firstMatch_some {n a s e : Nat} (h : firstMatch matchAt n a = some (s, e)) :
    a ≤ s ∧ matchAt s = some e ∧ ∀ s', a ≤ s' → s' < s → matchAt s' = none := by
  induction n generalizing a with
  | zero => cases h
  | succ n ih =>
    rw [firstMatch] at h
    cases hat : matchAt a with
    | some e' =>
      rw [hat] at h
      cases h
      exact ⟨le_rfl, hat, fun s' hle hlt => absurd hlt (Nat.not_lt_of_le hle)⟩
    | none =>
      rw [hat] at h
      obtain ⟨hle, hmatch, hfirst⟩ := ih h
      refine ⟨by omega, hmatch, ?_⟩
      intro s' hle' hlt
      cases Nat.eq_or_lt_of_le hle' with
      | inl heq => exact heq ▸ hat
      | inr hgt => exact hfirst s' hgt hlt

theorem firstMatch_none {n a s : Nat} (h : firstMatch matchAt n a = none) (hle : a ≤ s) (hlt : s < a + n) :
    matchAt s = none := by
  induction n generalizing a with
  | zero => omega
  | succ n ih =>
    rw [firstMatch] at h
    cases hat : matchAt a with
    | some e => simp [hat] at h
    | none =>
      rw [hat] at h
      cases Nat.eq_or_lt_of_le hle with
      | inl heq => exact heq ▸ hat
      | inr hgt => exact ih h hgt (by omega)

inductive Cuts (matchAt : MatchAt) : Nat → List (Nat × Nat) → Prop
  | done {a : Nat} (h : ∀ s e, a ≤ s → s < e → matchAt s ≠ some e) : Cuts matchAt a []
  | next {a s e : Nat} {cuts : List (Nat × Nat)} (hle : a ≤ s) (hlt : s < e) (hmatch : matchAt s = some e)
    (hfirst : ∀ s' e', a ≤ s' → s' < s → s' < e' → matchAt s' ≠ some e') (hrest : Cuts matchAt e cuts) :
    Cuts matchAt a ((s, e) :: cuts)

def lastEnd (a : Nat) : List (Nat × Nat) → Nat
  | [] => a
  | (_, e) :: cuts => lastEnd e cuts

namespace Cuts
variable {a : Nat} {cuts cuts' : List (Nat × Nat)}

theorem unique (h : Cuts matchAt a cuts) (h' : Cuts matchAt a cuts') : cuts = cuts' := by
  induction h generalizing cuts' with
  | done hnone =>
    cases h' with
    | done => rfl
    | next hle hlt hmatch => exact absurd hmatch (hnone _ _ hle hlt)
  | @next a s e cuts hle hlt hmatch hfirst _ ih =>
    cases h' with
    | done hnone => exact absurd hmatch (hnone _ _ hle hlt)
    | @next _ s' e' cuts' hle' hlt' hmatch' hfirst' hrest' =>
      have hs : s = s' := by
        apply Nat.le_antisymm
        · exact Nat.le_of_not_lt fun hgt => hfirst s' e' hle' hgt hlt' hmatch'
        · exact Nat.le_of_not_lt fun hgt => hfirst' s e hle hgt hlt hmatch
      subst hs
      have he : e = e' := Option.some.inj (hmatch.symm.trans hmatch')
      subst he
      rw [ih hrest']

theorem lastEnd_le {n : Nat} (h : Cuts matchAt a cuts) (hwithin : matchAt.Within n) (ha : a ≤ n) : lastEnd a cuts ≤ n := by
  induction h with
  | done => exact ha
  | next _ _ hmatch _ _ ih => exact ih (hwithin hmatch).2

theorem isChain_starts {b : Nat} (h : Cuts matchAt a cuts) (hb : b ≤ a) : (b :: cuts.map Prod.fst).IsChain (· ≤ ·) := by
  induction h generalizing b with
  | done => exact isChain_singleton _
  | next hle hlt _ _ _ ih => exact isChain_cons_cons.mpr ⟨Nat.le_trans hb hle, ih (le_of_lt hlt)⟩

theorem isChain_ends (h : Cuts matchAt a cuts) : (a :: cuts.map Prod.snd).IsChain (· ≤ ·) := by
  induction h with
  | done => exact isChain_singleton _
  | next hle hlt _ _ _ ih => exact isChain_cons_cons.mpr ⟨Nat.le_trans hle (le_of_lt hlt), ih⟩

end Cuts

end Bx.Kit
