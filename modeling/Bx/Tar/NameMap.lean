import Bx.Lib.PathOps

/-!
# Names on extraction

From `src/applets/archive/tar/tar_names.c`: a stored name loses its leading
slashes, its `.` and `..` components and as many leading components as the
policy says. A name that has nothing to lose is borrowed as it stands.
-/

namespace Bx.Tar
open Kit PathOps List

structure NamePolicy where
  absoluteNames : Bool := false
  stripComponents : Nat := 0
  oneTopLevel : Option CStr := none

structure MappedName where
  text : CStr
  strippedAbsolute : Bool := false
  strippedDotdot : Bool := false

def cleanPart (part : CStr) : Bool := part ≠ [] && part ≠ ['.'] && part ≠ ['.', '.']

def dropDotSlash : CStr → CStr
  | '.' :: '/' :: rest => dropDotSlash rest
  | name => name

variable (storedName : CStr)

variable (policy : Option NamePolicy)

/-- The stored name without its leading `./`, if nothing else has to change -/
def mapMemberNameBorrowPtr : Option CStr :=
  if storedName = [] then some storedName
  else if policy.any fun p => p.stripComponents != 0 || p.oneTopLevel.isSome then none
  else
    let name := dropDotSlash storedName
    if name = [] ∨ name.head? = some '/' then none
    else if (name.splitOn '/').all cleanPart then some name else none

def appendComponent (output part : CStr) : CStr :=
  if part = [] then output
  else if output ≠ [] ∧ output.getLast? ≠ some '/' then output ++ '/' :: part
  else output ++ part

def blankDots (part : CStr) : CStr := if part = ['.'] ∨ part = ['.', '.'] then [] else part

def mapComponents : MappedName :=
  let absolute := storedName.head? = some '/'
  let keepsAbsolute := policy.any fun p => p.absoluteNames && p.oneTopLevel.isNone
  let components := componentsAppendRaw (storedName.dropWhile (· = '/'))
  let kept := (components.map blankDots).drop (policy.elim 0 (·.stripComponents))
  let leadingSlash := if absolute ∧ keepsAbsolute = true ∧ kept ≠ [] then ['/'] else []
  let topLevel := if kept ≠ [] then (policy.bind (·.oneTopLevel)).getD [] else []
  { text := kept.foldl appendComponent (leadingSlash ++ topLevel)
    strippedAbsolute := absolute && !keepsAbsolute
    strippedDotdot := components.contains ['.', '.'] }

def mapMemberName : MappedName :=
  match mapMemberNameBorrowPtr storedName policy with
  | some borrowed => { text := borrowed }
  | none => mapComponents storedName policy

/-! ## Clean names -/

/-- A relative name without empty, `.` and `..` components; the empty name has no components. -/
def CleanName (name : CStr) : Prop := name = [] ∨ ∀ part ∈ name.splitOn '/', cleanPart part = true

def belowTopLevel (topLevel name : CStr) : CStr :=
  if name = [] ∨ topLevel = [] ∨ topLevel.getLast? = some '/' then topLevel ++ name else topLevel ++ '/' :: name

section
variable {parts : List CStr}

variable {part : CStr}

theorem cleanPart_iff : cleanPart part = true ↔ part ≠ [] ∧ part ≠ ['.'] ∧ part ≠ ['.', '.'] := by
  simp [cleanPart, and_assoc]

theorem joined_ne_nil (hpart : part ≠ []) (parts : List CStr) : intercalate ['/'] (part :: parts) ≠ [] := by
  cases parts with
  | nil => simpa using hpart
  | cons next parts => simp

theorem foldl_appendComponent (hparts : ∀ part ∈ parts, part ≠ [] ∧ '/' ∉ part) {output : CStr}
    (hne : output ≠ []) (hlast : output.getLast? ≠ some '/') :
    parts.foldl appendComponent output = intercalate ['/'] (output :: parts) := by
  induction parts generalizing output with
  | nil => simp
  | cons part parts ih =>
    obtain ⟨hpart, hslash⟩ := hparts part mem_cons_self
    have hstep : appendComponent output part = output ++ '/' :: part := by
      unfold appendComponent
      rw [if_neg hpart, if_pos ⟨hne, hlast⟩]
    have hlast' : (output ++ '/' :: part).getLast? ≠ some '/' := by
      obtain ⟨c, rest, rfl⟩ := exists_cons_of_ne_nil hpart
      rw [getLast?_append_cons, getLast?_cons_cons]
      intro hmem
      exact hslash (mem_of_getLast? hmem)
    rw [foldl_cons, hstep, ih (fun p hp => hparts p (mem_cons_of_mem _ hp)) (by simp) hlast']
    cases parts with
    | nil => simp
    | cons next parts => simp

theorem foldl_skips_empty (parts : List CStr) (output : CStr) :
    parts.foldl appendComponent output = (parts.filter (· ≠ [])).foldl appendComponent output := by
  induction parts generalizing output with
  | nil => rfl
  | cons part parts ih =>
    by_cases hnil : part = []
    · rw [filter_cons_of_neg (by simpa using hnil), foldl_cons, ← ih]
      simp [appendComponent, hnil]
    · rw [filter_cons_of_pos (by simpa using hnil), foldl_cons, foldl_cons, ih]

theorem foldl_start (hparts : ∀ part ∈ parts, part ≠ [] ∧ '/' ∉ part) (start : CStr) :
    parts.foldl appendComponent start = belowTopLevel start (intercalate ['/'] parts) := by
  cases parts with
  | nil => simp [belowTopLevel]
  | cons part parts =>
    obtain ⟨hpart, hslash⟩ := hparts part mem_cons_self
    have hrest : ∀ p ∈ parts, p ≠ [] ∧ '/' ∉ p := fun p hp => hparts p (mem_cons_of_mem _ hp)
    have hjoined := joined_ne_nil hpart parts
    have hlast : part.getLast? ≠ some '/' := fun hmem => hslash (mem_of_getLast? hmem)
    by_cases hstart : start = [] ∨ start.getLast? = some '/'
    · have hstep : appendComponent start part = start ++ part := by
        have hnot : ¬(start ≠ [] ∧ start.getLast? ≠ some '/') := by
          intro hboth
          cases hstart with
          | inl hnil => exact hboth.1 hnil
          | inr hend => exact hboth.2 hend
        unfold appendComponent
        rw [if_neg hpart, if_neg hnot]
      have hlast' : (start ++ part).getLast? ≠ some '/' := by
        rw [getLast?_append_of_ne_nil _ hpart]
        exact hlast
      unfold belowTopLevel
      rw [foldl_cons, hstep, foldl_appendComponent hrest (by simp [hpart]) hlast', if_pos (.inr hstart)]
      cases parts with
      | nil => simp
      | cons next parts => simp
    · simp only [not_or] at hstart
      have hall : ∀ p ∈ part :: parts, p ≠ [] ∧ '/' ∉ p := hparts
      unfold belowTopLevel
      rw [foldl_appendComponent hall hstart.1 hstart.2, if_neg (by simp [hjoined, hstart])]
      simp

theorem cleanName_joined (hparts : ∀ part ∈ parts, cleanPart part = true ∧ '/' ∉ part) :
    CleanName (intercalate ['/'] parts) := by
  cases parts with
  | nil => exact .inl rfl
  | cons part rest =>
    right
    rw [splitOn_intercalate '/' (fun p hp => (hparts p hp).2) (by simp)]
    exact fun p hp => (hparts p hp).1

end

end Bx.Tar
