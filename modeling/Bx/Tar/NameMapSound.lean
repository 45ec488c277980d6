import Bx.Tar.NameMap

/-!
# Names on extraction: safety

A mapped name cannot leave the directory it is joined to, the borrowed name is
what the components would have given, and a clean name maps to itself.
-/

namespace Bx.Tar
open Kit PathOps List

def Plain (policy : Option NamePolicy) : Prop := ∀ p ∈ policy, p.stripComponents = 0 ∧ p.oneTopLevel = none

/-! ## Borrowing -/

variable {policy : Option NamePolicy} {name : CStr}

theorem Plain.borrows (h : Plain policy) :
    (policy.any fun p => p.stripComponents != 0 || p.oneTopLevel.isSome) = false := by
  cases policy with
  | none => rfl
  | some p =>
    obtain ⟨hstrip, htop⟩ := h p rfl
    simp [hstrip, htop]

theorem plain_of_borrows (h : ¬(policy.any fun p => p.stripComponents != 0 || p.oneTopLevel.isSome) = true) : Plain policy := by
  intro p hp
  cases hp
  simpa using h

theorem splitOn_dotSlash (rest : CStr) : ('.' :: '/' :: rest).splitOn '/' = ['.'] :: rest.splitOn '/' := by
  have hsplit : (['.'] ++ '/' :: rest).splitOn '/' = ['.'] :: rest.splitOn '/' :=
    splitOn_append_cons_self_of_not_mem (by decide) rest
  exact hsplit

section
variable (h : ∀ part ∈ name.splitOn '/', cleanPart part = true)
include h

theorem dropDotSlash_self : dropDotSlash name = name := by
  unfold dropDotSlash
  split
  · rename_i rest
    exfalso
    have hmem : (['.'] : CStr) ∈ ('.' :: '/' :: rest).splitOn '/' := by
      rw [splitOn_dotSlash]
      exact mem_cons_self
    exact absurd (h _ hmem) (by decide)
  · rfl

theorem head_ne_slash : name.head? ≠ some '/' := by
  intro hhead
  obtain ⟨rest, rfl⟩ : ∃ rest, name = '/' :: rest := by
    cases name with
    | nil => cases hhead
    | cons c rest =>
      cases hhead
      exact ⟨rest, rfl⟩
  have hmem : ([] : CStr) ∈ ('/' :: rest).splitOn '/' := by
    rw [splitOn_cons_eq_if_modifyHead, if_pos (by decide)]
    exact mem_cons_self
  exact absurd (h _ hmem) (by decide)

end

theorem mapMemberName_clean (h : CleanName name) (hplain : Plain policy) :
    mapMemberName name policy = { text := name } := by
  have hborrow : mapMemberNameBorrowPtr name policy = some name := by
    unfold mapMemberNameBorrowPtr
    by_cases hnil : name = []
    · rw [if_pos hnil]
    rw [if_neg hnil, if_neg (by simp [hplain.borrows])]
    cases h with
    | inl hempty => exact absurd hempty hnil
    | inr hparts =>
      have hall : (name.splitOn '/').all cleanPart = true := all_eq_true.mpr hparts
      simp only [dropDotSlash_self hparts, hnil, head_ne_slash hparts, or_self, if_false, hall, if_true]
  unfold mapMemberName
  rw [hborrow]

/-! ## Components -/

theorem kept_clean (name : CStr) (n : Nat) :
    ∀ part ∈ (((componentsAppendRaw name).map blankDots).drop n).filter (· ≠ []),
      cleanPart part = true ∧ '/' ∉ part := by
  intro part hpart
  obtain ⟨hmem, hne⟩ := mem_filter.mp hpart
  obtain ⟨raw, hraw, rfl⟩ := mem_map.mp (mem_of_mem_drop hmem)
  rw [componentsAppendRaw_eq] at hraw
  have hslash := not_mem_of_mem_splitOn (mem_filter.mp hraw).1
  unfold blankDots at hne ⊢
  by_cases hdots : raw = ['.'] ∨ raw = ['.', '.']
  · rw [if_pos hdots] at hne
    simp at hne
  · rw [if_neg hdots] at hne ⊢
    simp only [not_or] at hdots
    exact ⟨cleanPart_iff.mpr ⟨by simpa using hne, hdots.1, hdots.2⟩, hslash⟩

theorem mapComponents_text (storedName : CStr) (policy : Option NamePolicy) : ∃ name, CleanName name ∧
      ((policy.bind (·.oneTopLevel) = none ∧ ((mapComponents storedName policy).text = name ∨
          (policy.any (·.absoluteNames) = true ∧ (mapComponents storedName policy).text = '/' :: name))) ∨
        ∃ topLevel, policy.bind (·.oneTopLevel) = some topLevel ∧ ((mapComponents storedName policy).text = name ∧ name = [] ∨
          (mapComponents storedName policy).text = belowTopLevel topLevel name)) := by
  have hclean := kept_clean (storedName.dropWhile (· = '/')) (policy.elim 0 (·.stripComponents))
  have hparts : ∀ part ∈ ((((componentsAppendRaw (storedName.dropWhile (· = '/'))).map blankDots).drop
      (policy.elim 0 (·.stripComponents))).filter (· ≠ [])), part ≠ [] ∧ '/' ∉ part :=
    fun part hpart => ⟨(cleanPart_iff.mp (hclean part hpart).1).1, (hclean part hpart).2⟩
  refine ⟨_, cleanName_joined hclean, ?_⟩
  unfold mapComponents
  dsimp only
  rw [foldl_skips_empty, foldl_start hparts]
  generalize hkept : ((componentsAppendRaw (storedName.dropWhile (· = '/'))).map blankDots).drop
    (policy.elim 0 (·.stripComponents)) = kept
  by_cases hnone : kept = []
  · -- nothing is kept, and nothing is put before it
    rw [hnone]
    cases htop : policy.bind (·.oneTopLevel) with
    | none => exact .inl ⟨rfl, .inl (by simp [belowTopLevel])⟩
    | some topLevel => exact .inr ⟨topLevel, rfl, .inl ⟨by simp [belowTopLevel], by simp⟩⟩
  cases htop : policy.bind (·.oneTopLevel) with
  | none =>
    left
    refine ⟨rfl, ?_⟩
    rw [if_pos hnone, Option.getD_none, append_nil]
    by_cases hleading : storedName.head? = some '/' ∧
        (policy.any fun p => p.absoluteNames && p.oneTopLevel.isNone) = true ∧ kept ≠ []
    · right
      rw [if_pos hleading]
      refine ⟨?_, by simp [belowTopLevel]⟩
      have hpolicy := hleading.2.1
      cases policy with
      | none => cases hpolicy
      | some p =>
        simp only [Option.any_some, Bool.and_eq_true] at hpolicy
        exact hpolicy.1
    · left
      rw [if_neg hleading]
      simp [belowTopLevel]
  | some topLevel =>
    right
    refine ⟨topLevel, rfl, .inr ?_⟩
    have hrelative : (policy.any fun p => p.absoluteNames && p.oneTopLevel.isNone) = false := by
      obtain ⟨p, rfl, hp⟩ := Option.bind_eq_some_iff.mp htop
      simp [hp]
    rw [hrelative, if_neg (by simp), if_pos hnone]
    rfl

theorem dropDotSlash_components (name : CStr) : ((componentsAppendRaw name).map blankDots).filter (· ≠ []) =
        ((componentsAppendRaw (dropDotSlash name)).map blankDots).filter (· ≠ []) ∧
      (componentsAppendRaw name).contains ['.', '.'] =
        (componentsAppendRaw (dropDotSlash name)).contains ['.', '.'] := by
  fun_induction dropDotSlash name with
  | case1 rest ih =>
    have hcomponents : componentsAppendRaw ('.' :: '/' :: rest) = ['.'] :: componentsAppendRaw rest := by
      rw [componentsAppendRaw_eq, componentsAppendRaw_eq, splitOn_dotSlash, filter_cons_of_pos (by decide)]
    rw [hcomponents]
    refine ⟨?_, ?_⟩
    · rw [map_cons, filter_cons_of_neg (by decide)]
      exact ih.1
    · rw [contains_cons, ← ih.2]
      simp
  | case2 name hname => exact ⟨rfl, rfl⟩

theorem mapComponents_borrowed {storedName borrowed : CStr}
    (h : mapMemberNameBorrowPtr storedName policy = some borrowed) :
    mapComponents storedName policy = { text := borrowed } := by
  unfold mapMemberNameBorrowPtr at h
  by_cases hnil : storedName = []
  · rw [if_pos hnil] at h
    cases h
    rw [hnil]
    simp [mapComponents, componentsAppendRaw, componentsFrom]
  rw [if_neg hnil] at h
  split at h
  · cases h
  · rename_i hborrows
    have hplain := plain_of_borrows hborrows
    dsimp only at h
    split at h
    · cases h
    · rename_i hstart
      split at h
      · rename_i hall
        cases h
        have hparts : ∀ part ∈ (dropDotSlash storedName).splitOn '/', cleanPart part = true := all_eq_true.mp hall
        have hrelative : storedName.head? ≠ some '/' := by
          intro hhead
          apply hstart
          right
          cases storedName with
          | nil => cases hhead
          | cons c rest =>
            cases hhead
            simp [dropDotSlash]
        have hdrop : storedName.dropWhile (· = '/') = storedName := by
          cases storedName with
          | nil => rfl
          | cons c rest =>
            apply dropWhile_cons_of_neg
            simpa using hrelative
        have hcomponents : componentsAppendRaw (dropDotSlash storedName) = (dropDotSlash storedName).splitOn '/' := by
          rw [componentsAppendRaw_eq, filter_eq_self]
          intro part hpart
          simpa using (cleanPart_iff.mp (hparts part hpart)).1
        have hkept : ((componentsAppendRaw storedName).map blankDots).filter (· ≠ []) =
            (dropDotSlash storedName).splitOn '/' := by
          have hblank : ((dropDotSlash storedName).splitOn '/').map blankDots = (dropDotSlash storedName).splitOn '/' := by
            have hsame : ∀ part ∈ (dropDotSlash storedName).splitOn '/', blankDots part = id part := by
              intro part hpart
              obtain ⟨_, hdot, hdotdot⟩ := cleanPart_iff.mp (hparts part hpart)
              unfold blankDots
              rw [if_neg (by simp [hdot, hdotdot])]
              rfl
            rw [map_congr_left hsame, map_id]
          rw [(dropDotSlash_components storedName).1, hcomponents, hblank, ← hcomponents, componentsAppendRaw_eq,
            filter_filter]
          simp
        have hdotdot : (componentsAppendRaw storedName).contains ['.', '.'] = false := by
          rw [(dropDotSlash_components storedName).2, hcomponents, ← Bool.not_eq_true, contains_iff_mem]
          intro hmem
          exact (cleanPart_iff.mp (hparts _ hmem)).2.2 rfl
        have hstrip : policy.elim 0 (·.stripComponents) = 0 := by
          cases policy with
          | none => rfl
          | some p => exact (hplain p rfl).1
        have htop : (policy.bind (·.oneTopLevel)).getD [] = [] := by
          cases policy with
          | none => rfl
          | some p => simp [(hplain p rfl).2]
        have hnoslash : ∀ part ∈ (dropDotSlash storedName).splitOn '/', part ≠ [] ∧ '/' ∉ part :=
          fun part hpart => ⟨(cleanPart_iff.mp (hparts part hpart)).1, not_mem_of_mem_splitOn hpart⟩
        unfold mapComponents
        simp only [hrelative, hdrop, hstrip, drop_zero, htop, ite_self, false_and, if_false, append_nil, hdotdot]
        rw [foldl_skips_empty, hkept, foldl_start hnoslash, intercalate_splitOn]
        simp [belowTopLevel]
      · cases h

theorem belowTopLevel_clean {topLevel name : CStr} (htop : CleanName topLevel) (hname : CleanName name) :
    CleanName (belowTopLevel topLevel name) := by
  unfold belowTopLevel
  cases hname with
  | inl hnil =>
    rw [hnil, if_pos (.inl rfl), append_nil]
    exact htop
  | inr hparts =>
    cases htop with
    | inl hnil =>
      rw [hnil, if_pos (.inr (.inl rfl)), nil_append]
      exact .inr hparts
    | inr htops =>
      have hlast : topLevel.getLast? ≠ some '/' := by
        intro hslash
        obtain ⟨rest, rfl⟩ := getLast?_eq_some_iff.mp hslash
        have hmem : ([] : CStr) ∈ (rest ++ ['/']).splitOn '/' := by
          rw [splitOn_append_cons_self, splitOn_nil]
          exact mem_append_right _ mem_cons_self
        exact absurd (htops _ hmem) (by decide)
      by_cases hempty : name = [] ∨ topLevel = [] ∨ topLevel.getLast? = some '/'
      · rw [if_pos hempty]
        cases hempty with
        | inl hnil =>
          rw [hnil, append_nil]
          exact .inr htops
        | inr hrest =>
          cases hrest with
          | inl hnil =>
            rw [hnil, nil_append]
            exact .inr hparts
          | inr hslash => exact absurd hslash hlast
      · rw [if_neg hempty]
        right
        intro part hpart
        rw [splitOn_append_cons_self] at hpart
        cases mem_append.mp hpart with
        | inl hmem => exact htops part hmem
        | inr hmem => exact hparts part hmem

theorem mapMemberName_shape (storedName : CStr) (policy : Option NamePolicy) : ∃ name, CleanName name ∧
      match policy.bind (·.oneTopLevel) with
      | none => (mapMemberName storedName policy).text = name ∨
          (policy.any (·.absoluteNames) = true ∧ (mapMemberName storedName policy).text = '/' :: name)
      | some topLevel => ((mapMemberName storedName policy).text = name ∧ name = []) ∨
          (mapMemberName storedName policy).text = belowTopLevel topLevel name := by
  have hsame : (mapMemberName storedName policy).text = (mapComponents storedName policy).text := by
    unfold mapMemberName
    cases hborrow : mapMemberNameBorrowPtr storedName policy with
    | none => rfl
    | some borrowed => rw [mapComponents_borrowed hborrow]
  obtain ⟨name, hclean, hshape⟩ := mapComponents_text storedName policy
  rw [hsame]
  refine ⟨name, hclean, ?_⟩
  cases hshape with
  | inl hnone =>
    rw [hnone.1]
    exact hnone.2
  | inr htop =>
    obtain ⟨topLevel, hsome, htext⟩ := htop
    rw [hsome]
    exact htext

end Bx.Tar
