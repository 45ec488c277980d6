import Mathlib.Data.List.DropRight
import Mathlib.Data.List.Infix

/-!
# Searching a text piece by piece

Who reads a text in pieces and looks for a pattern keeps the tail of what was read:
one item less than the pattern has is enough to see all that lies across a border.
-/

namespace Bx.Kit

variable {α : Type*} {pattern seen tail next : List α}

theorem infix_append_of_tail (htail : tail <:+ seen) (hlen : min seen.length (pattern.length - 1) ≤ tail.length) :
    pattern <:+: seen ++ next ↔ pattern <:+: seen ∨ pattern <:+: tail ++ next := by
  refine ⟨?_, ?_⟩
  · intro h
    cases List.infix_append_iff_ne_nil.mp h with
    | inl hseen => exact .inl hseen
    | inr h =>
      apply Or.inr
      rw [List.infix_append_iff]
      cases h with
      | inl hnext => exact .inr (.inl hnext)
      | inr hacross =>
        obtain ⟨left, right, _, hright, rfl, hleft, hprefix⟩ := hacross
        -- the part on the left side is shorter than the pattern, so it lies in the tail
        have hpos := List.length_pos_iff.mpr hright
        have hle := hleft.length_le
        rw [List.length_append] at hlen
        exact .inr (.inr ⟨left, right, rfl, List.suffix_of_suffix_length_le hleft htail (by omega), hprefix⟩)
  · intro h
    cases h with
    | inl hseen => exact hseen.trans (List.prefix_append _ _).isInfix
    | inr hacross =>
      obtain ⟨before, rfl⟩ := htail
      rw [List.append_assoc]
      exact hacross.trans (List.suffix_append _ _).isInfix

theorem rtake_suffix (l : List α) (n : Nat) : l.rtake n <:+ l := List.drop_suffix _ _

theorem length_rtake (l : List α) (n : Nat) : (l.rtake n).length = min n l.length := by
  rw [List.rtake, List.length_drop]
  omega

end Bx.Kit
