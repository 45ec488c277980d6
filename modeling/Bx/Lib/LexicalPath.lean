import Bx.Lib.PathOps
import Mathlib.Data.List.Infix

/-!
# Lexical path algebra

From `src/lib/path_ops.c`: paths are normalised as stacks of components, and
the path from one absolute path to another climbs to where they part and goes
down from there.
-/

namespace Bx.PathOps

open Bx.Kit List

def dot : CStr := ['.']

def dotDot : CStr := ['.', '.']

/-! ## Normalised components -/

def appendPart (preserveLeadingDotdot : Bool) (components : List CStr) (part : CStr) : List CStr :=
  if part = dot then components
  else if part = dotDot then
    if preserveLeadingDotdot ∧ (components = [] ∨ components.getLast? = some dotDot) then components ++ [part]
    else components.dropLast
  else components ++ [part]

/-- `bx_path_components_append_normalized_mode`; the components are scanned as for `append_raw`. -/
def componentsAppendNormalized (preserveLeadingDotdot : Bool) (components : List CStr) (path : CStr) : List CStr :=
  (componentsAppendRaw path).foldl (appendPart preserveLeadingDotdot) components

def joined (components : List CStr) : CStr := intercalate ['/'] components

def componentsToAbsolutePath (components : List CStr) : CStr := '/' :: joined components

def componentsToRelativePath (components : List CStr) : CStr := if components = [] then dot else joined components

/-! ## Paths -/

variable (getcwd : Option CStr)

/-- `getcwd` may fail. -/
def normalizeAbsoluteLexical (path : CStr) : Option CStr :=
  if path.head? = some '/' then
    some (componentsToAbsolutePath (componentsAppendNormalized false [] path))
  else
    getcwd.map fun cwd =>
      componentsToAbsolutePath (componentsAppendNormalized false (componentsAppendNormalized false [] cwd) path)

def normalizeRelativeLexical (path : CStr) : Option CStr :=
  if path.head? = some '/' then none
  else some (componentsToRelativePath (componentsAppendNormalized true [] path))

def commonCount : List CStr → List CStr → Nat
  | part :: parts, other :: others => if part = other then commonCount parts others + 1 else 0
  | _, _ => 0

def relativeSegments (fromComponents toComponents : List CStr) : List CStr :=
  let common := commonCount fromComponents toComponents
  replicate (fromComponents.length - common) dotDot ++ toComponents.drop common

def relativePathBetween (fromAbs toAbs : CStr) : Option CStr :=
  if fromAbs.head? = some '/' ∧ toAbs.head? = some '/' then
    let segments :=
      relativeSegments (componentsAppendNormalized false [] fromAbs) (componentsAppendNormalized false [] toAbs)
    some (if segments = [] then dot else joined segments)
  else none

def relativePathLen (fromComponents toComponents : List CStr) : Nat :=
  let common := commonCount fromComponents toComponents
  let upCount := fromComponents.length - common
  let segmentCount := upCount + (toComponents.length - common)
  1 + (if 1 < segmentCount then segmentCount - 1 else 0) + upCount * 2 +
    ((toComponents.drop common).map List.length).sum

def pathJoin (left right : CStr) : CStr :=
  if left ≠ [] ∧ left.getLast? ≠ some '/' then left ++ '/' :: right else left ++ right

/-! ## Reading components back -/

section
variable {path left right : CStr} {components parts : List CStr}

theorem componentsFrom_append (part left right : CStr) :
    componentsFrom part (left ++ '/' :: right) = componentsFrom part left ++ componentsAppendRaw right := by
  induction left generalizing part with
  | nil =>
    rw [nil_append, componentsFrom, componentsFrom, if_pos rfl]
    by_cases hnil : part = []
    · rw [if_pos hnil, if_pos hnil]
      rfl
    · rw [if_neg hnil, if_neg hnil]
      rfl
  | cons c left ih =>
    rw [cons_append, componentsFrom, componentsFrom]
    by_cases hslash : c = '/'
    · rw [if_pos hslash, if_pos hslash, ih]
      by_cases hnil : part = []
      · rw [if_pos hnil, if_pos hnil]
      · rw [if_neg hnil, if_neg hnil, cons_append]
    · rw [if_neg hslash, if_neg hslash, ih]

theorem componentsAppendRaw_append (left right : CStr) :
    componentsAppendRaw (left ++ '/' :: right) = componentsAppendRaw left ++ componentsAppendRaw right :=
  componentsFrom_append [] left right

theorem componentsAppendRaw_slash (path : CStr) : componentsAppendRaw ('/' :: path) = componentsAppendRaw path :=
  componentsAppendRaw_append [] path

theorem componentsAppendRaw_pathJoin (left right : CStr) :
    componentsAppendRaw (pathJoin left right) = componentsAppendRaw left ++ componentsAppendRaw right := by
  unfold pathJoin
  by_cases hslash : left ≠ [] ∧ left.getLast? ≠ some '/'
  · rw [if_pos hslash, componentsAppendRaw_append]
  · rw [if_neg hslash]
    by_cases hnil : left = []
    · rw [hnil]
      rfl
    · have hlast : left.getLast? = some '/' := by
        apply Classical.byContradiction
        intro hother
        exact hslash ⟨hnil, hother⟩
      obtain ⟨front, rfl⟩ := getLast?_eq_some_iff.mp hlast
      have hfront := componentsAppendRaw_append front []
      rw [append_assoc, singleton_append, componentsAppendRaw_append, hfront, append_assoc]
      rfl

def Components (parts : List CStr) : Prop := ∀ part ∈ parts, part ≠ [] ∧ '/' ∉ part

theorem components_raw (path : CStr) : Components (componentsAppendRaw path) := by
  intro part hpart
  rw [componentsAppendRaw_eq, mem_filter] at hpart
  exact ⟨of_decide_eq_true hpart.2, not_mem_of_mem_splitOn hpart.1⟩

theorem componentsAppendRaw_joined (h : Components parts) : componentsAppendRaw (joined parts) = parts := by
  rw [componentsAppendRaw_eq]
  unfold joined
  by_cases hnil : parts = []
  · rw [hnil]
    rfl
  · rw [splitOn_intercalate '/' (fun part hpart => (h part hpart).2) hnil, filter_eq_self]
    intro part hpart
    exact decide_eq_true (h part hpart).1

theorem joined_injective (hparts : Components parts) (hcomponents : Components components)
    (h : joined parts = joined components) : parts = components := by
  rw [← componentsAppendRaw_joined hparts, h, componentsAppendRaw_joined hcomponents]

theorem head_joined (h : Components parts) : (joined parts).head? ≠ some '/' := by
  cases parts with
  | nil => exact fun hnone => nomatch hnone
  | cons part parts =>
    obtain ⟨hne, hslash⟩ := h part mem_cons_self
    obtain ⟨c, rest, rfl⟩ := exists_cons_of_ne_nil hne
    have hhead : (joined ((c :: rest) :: parts)).head? = some c := by
      unfold joined
      cases parts with
      | nil => rfl
      | cons next parts => rfl
    rw [hhead]
    intro hsome
    apply hslash
    rw [Option.some.inj hsome]
    exact mem_cons_self

/-! ## Stacks of components -/

def Proper (part : CStr) : Prop := part ≠ [] ∧ '/' ∉ part ∧ part ≠ dot ∧ part ≠ dotDot

variable {part : CStr}

theorem Proper.component (h : Proper part) : part ≠ [] ∧ '/' ∉ part := ⟨h.1, h.2.1⟩

theorem components_dotDots (up : Nat) : Components (replicate up dotDot) := by
  intro part hpart
  rw [eq_of_mem_replicate hpart]
  decide

theorem Components.append (h : Components parts) (h' : Components components) : Components (parts ++ components) := by
  intro part hpart
  cases mem_append.mp hpart with
  | inl hfirst => exact h part hfirst
  | inr hsecond => exact h' part hsecond

theorem components_of_proper (h : ∀ part ∈ parts, Proper part) : Components parts :=
  fun part hpart => (h part hpart).component

theorem appendPart_proper (preserve : Bool) (h : Proper part) (components : List CStr) :
    appendPart preserve components part = components ++ [part] := by
  unfold appendPart
  rw [if_neg h.2.2.1, if_neg h.2.2.2]

theorem foldl_proper (preserve : Bool) (h : ∀ part ∈ parts, Proper part) (components : List CStr) :
    parts.foldl (appendPart preserve) components = components ++ parts := by
  induction parts generalizing components with
  | nil => exact (append_nil _).symm
  | cons part parts ih =>
    rw [foldl_cons, appendPart_proper preserve (h part mem_cons_self),
      ih (fun p hp => h p (mem_cons_of_mem _ hp)), append_assoc, singleton_append]

theorem appendPart_dotDot (components : List CStr) : appendPart false components dotDot = components.dropLast := by
  have hdots : dotDot ≠ dot := by decide
  unfold appendPart
  rw [if_neg hdots, if_pos rfl, if_neg fun h => Bool.false_ne_true h.1]

theorem foldl_dotDots (up : Nat) (components : List CStr) :
    (replicate up dotDot).foldl (appendPart false) components = components.take (components.length - up) := by
  induction up generalizing components with
  | zero =>
    rw [Nat.sub_zero, take_length]
    rfl
  | succ up ih =>
    rw [replicate_succ, foldl_cons, appendPart_dotDot, ih, length_dropLast, dropLast_eq_take, take_take]
    congr 1
    omega

theorem appendPart_keeps_proper (h : ∀ part ∈ components, Proper part) (hpart : part ≠ [] ∧ '/' ∉ part) :
    ∀ p ∈ appendPart false components part, Proper p := by
  unfold appendPart
  by_cases hdot : part = dot
  · rw [if_pos hdot]
    exact h
  · rw [if_neg hdot]
    by_cases hdots : part = dotDot
    · rw [if_pos hdots, if_neg fun hand => Bool.false_ne_true hand.1]
      exact fun p hp => h p (mem_of_mem_dropLast hp)
    · rw [if_neg hdots]
      intro p hp
      cases mem_append.mp hp with
      | inl hold => exact h p hold
      | inr hnew =>
        rw [mem_singleton.mp hnew]
        exact ⟨hpart.1, hpart.2, hdot, hdots⟩

theorem foldl_keeps_proper (hparts : Components parts) (h : ∀ part ∈ components, Proper part) :
    ∀ part ∈ parts.foldl (appendPart false) components, Proper part := by
  induction parts generalizing components with
  | nil => exact h
  | cons part parts ih =>
    exact ih (fun p hp => hparts p (mem_cons_of_mem _ hp)) (appendPart_keeps_proper h (hparts part mem_cons_self))

theorem normalized_proper (h : ∀ part ∈ components, Proper part) (path : CStr) :
    ∀ part ∈ componentsAppendNormalized false components path, Proper part :=
  foldl_keeps_proper (components_raw path) h

/-- A leading run of `..`, and names after it -/
def Leading (components : List CStr) : Prop :=
  ∃ (up : Nat) (names : List CStr), components = replicate up dotDot ++ names ∧ ∀ part ∈ names, Proper part

theorem Leading.toComponents (h : Leading components) : Components components := by
  obtain ⟨up, names, rfl, hnames⟩ := h
  exact (components_dotDots up).append (components_of_proper hnames)

theorem getLast?_dotDots {names : List CStr} (hnames : ∀ part ∈ names, Proper part) (up : Nat) :
    (replicate up dotDot ++ names = [] ∨ (replicate up dotDot ++ names).getLast? = some dotDot) ↔
      names = [] := by
  by_cases hnil : names = []
  · rw [hnil, append_nil]
    cases up with
    | zero => simp
    | succ up => simp [getLast?_replicate]
  · refine ⟨?_, fun h => absurd h hnil⟩
    intro hend
    cases hend with
    | inl hempty => exact absurd (append_eq_nil_iff.mp hempty).2 hnil
    | inr hlast =>
      rw [getLast?_append_of_ne_nil _ hnil] at hlast
      exact absurd rfl (hnames dotDot (mem_of_getLast? hlast)).2.2.2

theorem appendPart_keeps_leading (h : Leading components) (hpart : part ≠ [] ∧ '/' ∉ part) :
    Leading (appendPart true components part) := by
  unfold appendPart
  by_cases hdot : part = dot
  · rw [if_pos hdot]
    exact h
  · rw [if_neg hdot]
    obtain ⟨up, names, rfl, hnames⟩ := h
    by_cases hdots : part = dotDot
    · rw [if_pos hdots]
      by_cases hnil : names = []
      · rw [if_pos ⟨rfl, (getLast?_dotDots hnames up).mpr hnil⟩, hnil, hdots, append_nil]
        exact ⟨up + 1, [], by rw [append_nil, replicate_succ'], fun p hp => absurd hp not_mem_nil⟩
      · rw [if_neg fun hand => hnil ((getLast?_dotDots hnames up).mp hand.2), dropLast_append_of_ne_nil hnil]
        exact ⟨up, names.dropLast, rfl, fun p hp => hnames p (mem_of_mem_dropLast hp)⟩
    · rw [if_neg hdots, append_assoc]
      refine ⟨up, names ++ [part], rfl, ?_⟩
      intro p hp
      cases mem_append.mp hp with
      | inl hold => exact hnames p hold
      | inr hnew =>
        rw [mem_singleton.mp hnew]
        exact ⟨hpart.1, hpart.2, hdot, hdots⟩

theorem foldl_keeps_leading (hparts : Components parts) (h : Leading components) :
    Leading (parts.foldl (appendPart true) components) := by
  induction parts generalizing components with
  | nil => exact h
  | cons part parts ih =>
    exact ih (fun p hp => hparts p (mem_cons_of_mem _ hp)) (appendPart_keeps_leading h (hparts part mem_cons_self))

theorem foldl_leading_dotDots (up done : Nat) : (replicate up dotDot).foldl (appendPart true) (replicate done dotDot) =
      replicate (done + up) dotDot := by
  induction up generalizing done with
  | zero => rfl
  | succ up ih =>
    have hpush : appendPart true (replicate done dotDot) dotDot = replicate (done + 1) dotDot := by
      have hdots : dotDot ≠ dot := by decide
      have hlast := @getLast?_dotDots [] (fun p hp => absurd hp not_mem_nil) done
      rw [append_nil] at hlast
      unfold appendPart
      rw [if_neg hdots, if_pos rfl, if_pos ⟨rfl, hlast.mpr rfl⟩, replicate_succ']
    rw [replicate_succ, foldl_cons, hpush, ih]
    congr 1
    omega

theorem Leading.foldl (h : Leading components) : components.foldl (appendPart true) [] = components := by
  obtain ⟨up, names, rfl, hnames⟩ := h
  have hdots := foldl_leading_dotDots up 0
  rw [Nat.zero_add] at hdots
  rw [foldl_append]
  exact (congrArg (names.foldl (appendPart true)) hdots).trans (foldl_proper true hnames _)

/-! ## Where two lists part -/

theorem take_commonCount (a b : List CStr) : a.take (commonCount a b) = b.take (commonCount a b) := by
  induction a generalizing b with
  | nil => simp [commonCount]
  | cons part a ih =>
    cases b with
    | nil => simp [commonCount]
    | cons other b =>
      rw [commonCount]
      by_cases hsame : part = other
      · rw [if_pos hsame, take_succ_cons, take_succ_cons, ih, hsame]
      · rw [if_neg hsame]
        rfl

theorem commonCount_le (a b : List CStr) : commonCount a b ≤ a.length ∧ commonCount a b ≤ b.length := by
  induction a generalizing b with
  | nil => simp [commonCount]
  | cons part a ih =>
    cases b with
    | nil => simp [commonCount]
    | cons other b =>
      have hrest := ih b
      rw [commonCount, length_cons, length_cons]
      by_cases hsame : part = other
      · rw [if_pos hsame]
        omega
      · rw [if_neg hsame]
        omega

variable {a b : List CStr}

theorem le_commonCount {n : Nat} (hle : n ≤ a.length) (h : a.take n <+: b) : n ≤ commonCount a b := by
  induction n generalizing a b with
  | zero => exact Nat.zero_le _
  | succ n ih =>
    cases a with
    | nil => exact absurd hle (Nat.not_succ_le_zero n)
    | cons part a =>
      obtain ⟨rest, hrest⟩ := h
      rw [take_succ_cons, cons_append] at hrest
      rw [← hrest, commonCount, if_pos rfl]
      exact Nat.succ_le_succ (ih (Nat.le_of_succ_le_succ hle) ⟨rest, rfl⟩)

theorem take_isPrefix_foldl (parts components : List CStr) :
    components.take (components.length - parts.count dotDot) <+: parts.foldl (appendPart false) components := by
  induction parts generalizing components with
  | nil =>
    rw [count_nil, Nat.sub_zero, take_length]
    exact prefix_refl _
  | cons part parts ih =>
    have hrest := ih (appendPart false components part)
    rw [foldl_cons]
    refine List.IsPrefix.trans ?_ hrest
    by_cases hdots : part = dotDot
    · rw [hdots, count_cons_self, appendPart_dotDot, length_dropLast, dropLast_eq_take, take_take]
      exact take_prefix_take_left (by omega)
    · rw [count_cons_of_ne hdots]
      by_cases hdot : part = dot
      · have hsame : appendPart false components part = components := if_pos hdot
        rw [hsame]
      · have hpush : appendPart false components part = components ++ [part] := by
          unfold appendPart
          rw [if_neg hdot, if_neg hdots]
        rw [hpush, length_append, length_singleton]
        have hlonger : components.take (components.length - parts.count dotDot) =
            (components ++ [part]).take (components.length - parts.count dotDot) := by
          rw [take_append_of_le_length (Nat.sub_le _ _)]
        rw [hlonger]
        exact take_prefix_take_left (by omega)

/-! ## The path between two lists -/

theorem length_joined (h : parts ≠ []) : (joined parts).length + 1 = (parts.map List.length).sum + parts.length := by
  unfold joined
  induction parts with
  | nil => exact absurd rfl h
  | cons part parts ih =>
    cases parts with
    | nil => simp
    | cons next parts =>
      have hrest := ih (cons_ne_nil _ _)
      rw [intercalate_cons_cons, length_append, length_append, map_cons, sum_cons, @length_cons _ part]
      have hslash : (['/'] : CStr).length = 1 := rfl
      rw [hslash]
      omega

theorem relativePathLen_eq (h : relativeSegments a b ≠ []) :
    relativePathLen a b = (joined (relativeSegments a b)).length + 1 := by
  have hlength := length_joined h
  have hpos := length_pos_iff.mpr h
  rw [hlength]
  unfold relativeSegments at hpos ⊢
  unfold relativePathLen
  dsimp only at hpos ⊢
  have hdots : (dotDot : CStr).length = 2 := rfl
  simp only [map_append, map_replicate, sum_append, sum_replicate_nat, length_append,
    length_replicate, length_drop, hdots] at hpos ⊢
  split <;> omega

theorem relativePathLen_eq_up :
    relativePathLen [['a']] [['b']] = (joined (relativeSegments [['a']] [['b']])).length + 1 :=
  relativePathLen_eq (cons_ne_nil _ _)

def relativeText (segments : List CStr) : CStr := if segments = [] then dot else joined segments

theorem leading_segments {a b : List CStr} (hb : ∀ part ∈ b, Proper part) : Leading (relativeSegments a b) :=
  ⟨_, _, rfl, fun part hpart => hb part (mem_of_mem_drop hpart)⟩

variable {segments : List CStr}

theorem foldl_relativeText (h : Components segments) (preserve : Bool) (components : List CStr) :
    (componentsAppendRaw (relativeText segments)).foldl (appendPart preserve) components =
      segments.foldl (appendPart preserve) components := by
  unfold relativeText
  by_cases hnil : segments = []
  · rw [if_pos hnil, hnil]
    rfl
  · rw [if_neg hnil, componentsAppendRaw_joined h]

theorem count_relativeText (h : Components segments) :
    (componentsAppendRaw (relativeText segments)).count dotDot = segments.count dotDot := by
  unfold relativeText
  by_cases hnil : segments = []
  · rw [if_pos hnil, hnil]
    decide
  · rw [if_neg hnil, componentsAppendRaw_joined h]

theorem foldl_relativeSegments {a b : List CStr} (hb : ∀ part ∈ b, Proper part) :
    (relativeSegments a b).foldl (appendPart false) a = b := by
  have hle := (commonCount_le a b).1
  have hdown : ∀ part ∈ b.drop (commonCount a b), Proper part := fun part hpart => hb part (mem_of_mem_drop hpart)
  have hback : a.length - (a.length - commonCount a b) = commonCount a b := by omega
  unfold relativeSegments
  dsimp only
  rw [foldl_append, foldl_dotDots, hback, foldl_proper false hdown, take_commonCount, take_append_drop]

theorem count_relativeSegments (hb : ∀ part ∈ b, Proper part) :
    (relativeSegments a b).count dotDot = a.length - commonCount a b := by
  have hdown : dotDot ∉ b.drop (commonCount a b) := fun hmem => (hb dotDot (mem_of_mem_drop hmem)).2.2.2 rfl
  unfold relativeSegments
  dsimp only
  rw [count_append, count_replicate_self, count_eq_zero.mpr hdown, Nat.add_zero]

theorem head_relativeText (h : Components segments) : (relativeText segments).head? ≠ some '/' := by
  unfold relativeText
  by_cases hnil : segments = []
  · rw [if_pos hnil]
    decide
  · rw [if_neg hnil]
    exact head_joined h

theorem relativeText_eq_dot (h : Leading segments) : relativeText segments = dot ↔ segments = [] := by
  unfold relativeText
  by_cases hnil : segments = []
  · rw [if_pos hnil]
    exact ⟨fun _ => hnil, fun _ => rfl⟩
  · rw [if_neg hnil]
    refine ⟨?_, fun hempty => absurd hempty hnil⟩
    intro hdot
    have hsame : segments = [dot] := by
      rw [← componentsAppendRaw_joined h.toComponents, hdot]
      rfl
    obtain ⟨up, names, hsplit, hnames⟩ := h
    have hmem : dot ∈ replicate up dotDot ++ names := by
      rw [← hsplit, hsame]
      exact mem_cons_self
    cases mem_append.mp hmem with
    | inl hup => exact absurd (eq_of_mem_replicate hup) (by decide)
    | inr hname => exact absurd rfl (hnames dot hname).2.2.1

theorem normalizeAbsoluteLexical_slash (h : path.head? = some '/') :
    normalizeAbsoluteLexical getcwd path = some (componentsToAbsolutePath (componentsAppendNormalized false [] path)) :=
  if_pos h

theorem componentsToAbsolutePath_injective (hparts : Components parts) (hcomponents : Components components)
    (h : componentsToAbsolutePath parts = componentsToAbsolutePath components) : parts = components :=
  joined_injective hparts hcomponents (List.cons.inj h).2

theorem normalized_absolutePath (h : ∀ part ∈ components, Proper part) :
    componentsAppendNormalized false [] (componentsToAbsolutePath components) = components := by
  unfold componentsAppendNormalized componentsToAbsolutePath
  rw [componentsAppendRaw_slash, componentsAppendRaw_joined (components_of_proper h), foldl_proper false h, nil_append]

theorem normalize_below (h : ∀ part ∈ components, Proper part) (r : CStr) :
    normalizeAbsoluteLexical getcwd (pathJoin (componentsToAbsolutePath components) r) =
      some (componentsToAbsolutePath ((componentsAppendRaw r).foldl (appendPart false) components)) := by
  have hhead : (pathJoin (componentsToAbsolutePath components) r).head? = some '/' := by
    unfold pathJoin
    split <;> rfl
  have hstack := normalized_absolutePath h
  rw [normalizeAbsoluteLexical_slash getcwd hhead]
  unfold componentsAppendNormalized at hstack ⊢
  rw [componentsAppendRaw_pathJoin, foldl_append, hstack]

/-- What makes `r` the path from one normalised path to another -/
structure RelativePath (getcwd : Option CStr) (fromNormal toNormal r : CStr) : Prop where
  relative : r.head? ≠ some '/'
  leads : normalizeAbsoluteLexical getcwd (pathJoin fromNormal r) = some toNormal
  dot : r = dot ↔ fromNormal = toNormal
  fewest : ∀ other, normalizeAbsoluteLexical getcwd (pathJoin fromNormal other) = some toNormal →
    (componentsAppendRaw r).count dotDot ≤ (componentsAppendRaw other).count dotDot

theorem relativePath_segments (ha : ∀ part ∈ a, Proper part) (hb : ∀ part ∈ b, Proper part) :
    RelativePath getcwd (componentsToAbsolutePath a) (componentsToAbsolutePath b)
      (relativeText (relativeSegments a b)) := by
  have hleading := @leading_segments a b hb
  have hsegments := hleading.toComponents
  refine ⟨head_relativeText hsegments, ?_, ?_, ?_⟩
  · rw [normalize_below getcwd ha, foldl_relativeText hsegments, foldl_relativeSegments hb]
  · rw [relativeText_eq_dot hleading]
    have hleads := @foldl_relativeSegments a b hb
    refine ⟨?_, ?_⟩
    · intro hnil
      rw [hnil] at hleads
      exact congrArg componentsToAbsolutePath hleads
    · intro hsame
      have hlists := componentsToAbsolutePath_injective (components_of_proper ha) (components_of_proper hb) hsame
      have hfull : a.take a.length <+: a := by
        rw [take_length]
      have hall := le_commonCount (Nat.le_refl a.length) hfull
      rw [← hlists]
      unfold relativeSegments
      dsimp only
      rw [Nat.sub_eq_zero_of_le hall, drop_of_length_le hall]
      rfl
  · intro other hother
    rw [normalize_below getcwd ha] at hother
    have hstack := componentsToAbsolutePath_injective
      (components_of_proper (foldl_keeps_proper (components_raw other) ha)) (components_of_proper hb)
      (Option.some.inj hother)
    have hprefix := take_isPrefix_foldl (componentsAppendRaw other) a
    rw [hstack] at hprefix
    have hcommon := le_commonCount (Nat.sub_le _ _) hprefix
    rw [count_relativeText hsegments, count_relativeSegments hb]
    omega

/-! ## Normal forms -/

theorem normalizeAbsoluteLexical_form {getcwd : Option CStr} {normal : CStr}
    (h : normalizeAbsoluteLexical getcwd path = some normal) :
    ∃ components, normal = componentsToAbsolutePath components ∧ ∀ part ∈ components, Proper part := by
  have hempty : ∀ part ∈ ([] : List CStr), Proper part := fun part hpart => absurd hpart not_mem_nil
  unfold normalizeAbsoluteLexical at h
  by_cases hslash : path.head? = some '/'
  · rw [if_pos hslash] at h
    cases h
    exact ⟨_, rfl, normalized_proper hempty path⟩
  · rw [if_neg hslash] at h
    obtain ⟨cwd, _, rfl⟩ := Option.map_eq_some_iff.mp h
    exact ⟨_, rfl, normalized_proper (normalized_proper hempty cwd) path⟩

theorem normalizeRelativeLexical_form {normal : CStr} (h : normalizeRelativeLexical path = some normal) :
    ∃ components, normal = relativeText components ∧ Leading components := by
  unfold normalizeRelativeLexical at h
  by_cases hslash : path.head? = some '/'
  · simp [hslash] at h
  · rw [if_neg hslash] at h
    cases h
    exact ⟨_, rfl, foldl_keeps_leading (components_raw path) ⟨0, [], rfl, fun part hpart => absurd hpart not_mem_nil⟩⟩

theorem normalizeRelativeLexical_leading (h : Leading components) :
    normalizeRelativeLexical (relativeText components) = some (relativeText components) := by
  unfold normalizeRelativeLexical componentsAppendNormalized
  rw [if_neg (head_relativeText h.toComponents), foldl_relativeText h.toComponents, h.foldl]
  rfl

end

/-- **Main result.** The path between two absolute paths leads from one to the other with the fewest `..`; normal forms
are fixed, those of absolute paths are names only, and those of relative paths are a run of `..` before names, or `.`
where nothing is left. -/
theorem lexical_paths (getcwd : Option CStr) :
    (∀ fromAbs toAbs : CStr, fromAbs.head? = some '/' → toAbs.head? = some '/' →
      ∃ r fromNormal toNormal, relativePathBetween fromAbs toAbs = some r ∧
        normalizeAbsoluteLexical getcwd fromAbs = some fromNormal ∧
        normalizeAbsoluteLexical getcwd toAbs = some toNormal ∧ RelativePath getcwd fromNormal toNormal r) ∧
    (∀ path normal : CStr, normalizeAbsoluteLexical getcwd path = some normal →
      normalizeAbsoluteLexical getcwd normal = some normal ∧
        ∃ components, normal = componentsToAbsolutePath components ∧ ∀ part ∈ components, Proper part) ∧
    ∀ path normal : CStr, normalizeRelativeLexical path = some normal →
      normalizeRelativeLexical normal = some normal ∧
        (normal = dot ∨ ∃ up names, normal = joined (replicate up dotDot ++ names) ∧
          replicate up dotDot ++ names ≠ [] ∧ ∀ part ∈ names, Proper part) := by
  have hempty : ∀ part ∈ ([] : List CStr), Proper part := fun part hpart => absurd hpart not_mem_nil
  refine ⟨?_, ?_, ?_⟩
  · intro fromAbs toAbs hfrom hto
    refine ⟨_, _, _, if_pos ⟨hfrom, hto⟩, normalizeAbsoluteLexical_slash getcwd hfrom,
      normalizeAbsoluteLexical_slash getcwd hto, ?_⟩
    exact relativePath_segments getcwd (normalized_proper hempty fromAbs) (normalized_proper hempty toAbs)
  · intro path normal h
    obtain ⟨components, rfl, hproper⟩ := normalizeAbsoluteLexical_form h
    refine ⟨?_, components, rfl, hproper⟩
    rw [normalizeAbsoluteLexical_slash getcwd rfl, normalized_absolutePath hproper]
  · intro path normal h
    obtain ⟨components, rfl, hleading⟩ := normalizeRelativeLexical_form h
    refine ⟨normalizeRelativeLexical_leading hleading, ?_⟩
    by_cases hnil : components = []
    · exact .inl (if_pos hnil)
    · obtain ⟨up, names, rfl, hnames⟩ := hleading
      exact .inr ⟨up, names, if_neg hnil, hnil, hnames⟩

/-- Nothing is left of this path but a `.` component. -/
theorem normalizeRelativeLexical_dot :
    normalizeRelativeLexical ['a', '/', '.', '.'] = some dot ∧ componentsAppendRaw dot = [dot] := by
  decide

example : relativePathBetween ['/', 'a', '/', 'b', '/'] ['/', '/', 'a', '/', '.', '/', 'c'] =
    some ['.', '.', '/', 'c'] := by
  decide

end Bx.PathOps
