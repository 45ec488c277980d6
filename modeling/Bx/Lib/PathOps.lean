import Bx.Kit.CString
import Mathlib.Data.List.DropRight

/-!
# Path operations

From `src/lib/path_ops.c`.
-/

namespace Bx.PathOps

open Bx.Kit List

/-- `bx_path_basename_ptr`: what follows the last slash, or the whole path. -/
def basenamePtr (path : CStr) : CStr := path.rtakeWhile (· ≠ '/')

/-! ## Components -/

/-- The components of what is left, `part` being read of the first one -/
def componentsFrom (part : CStr) : CStr → List CStr
  | [] => if part = [] then [] else [part]
  | c :: rest =>
    if c = '/' then if part = [] then componentsFrom [] rest else part :: componentsFrom [] rest
    else componentsFrom (part ++ [c]) rest

/-- `bx_path_components_append_raw` to no components: what stands between slashes -/
def componentsAppendRaw (path : CStr) : List CStr := componentsFrom [] path

theorem componentsFrom_eq (part path : CStr) (hpart : '/' ∉ part) :
    componentsFrom part path = ((part ++ path).splitOn '/').filter (· ≠ []) := by
  induction path generalizing part with
  | nil =>
    rw [componentsFrom, append_nil, splitOn_eq_singleton hpart]
    by_cases hnil : part = []
    · simp [hnil]
    · simp [hnil]
  | cons c rest ih =>
    rw [componentsFrom]
    by_cases hslash : c = '/'
    · rw [if_pos hslash, hslash, splitOn_append_cons_self_of_not_mem hpart, ih [] (by simp)]
      by_cases hnil : part = []
      · simp [hnil]
      · simp [hnil]
    · have hnext : '/' ∉ part ++ [c] := by
        simp [hpart, Ne.symm hslash]
      rw [if_neg hslash, ih (part ++ [c]) hnext, append_assoc]
      rfl

theorem componentsAppendRaw_eq (path : CStr) : componentsAppendRaw path = (path.splitOn '/').filter (· ≠ []) :=
  componentsFrom_eq [] path (by simp)

theorem not_mem_of_mem_splitOn {path part : CStr} (h : part ∈ path.splitOn '/') : '/' ∉ part := by
  by_cases hslash : '/' ∈ path
  · obtain ⟨first, rest, hsplit, hfirst⟩ := eq_append_cons_of_mem hslash
    rw [hsplit, splitOn_append_cons_self_of_not_mem hfirst] at h
    cases mem_cons.mp h with
    | inl heq => rwa [heq]
    | inr hin => exact not_mem_of_mem_splitOn hin
  · rw [splitOn_eq_singleton hslash, mem_singleton] at h
    rwa [h]
termination_by path.length
decreasing_by
  rw [hsplit, length_append, length_cons]
  omega

end Bx.PathOps
