import Bx.Tar.HeaderRoundTrip

/-!
# Split names joined again

The two parts of a split path are the path without the slash they were cut
at, so joining them gives it back, unless the first part is empty: then the
reader takes the name field alone.
-/

namespace Bx.Tar
open Kit List

def LosesSlash (path : Bytes) : Prop := path.length = 101 ∧ path.head? = some 47 ∧ 47 ∉ path.tail

instance (path : Bytes) : Decidable (LosesSlash path) := inferInstanceAs (Decidable (_ ∧ _ ∧ _))

section
variable {whole : Bytes} {limit : Nat} {name : UstarName}

theorem splitAtSlash_cut (h : splitAtSlash whole limit = some name) :
    whole = name.leading ++ 47 :: name.name ∧ name.leading.length ≤ 155 ∧ name.name.length ≤ 100 := by
  induction limit with
  | zero => cases h
  | succ slashIndex ih =>
    rw [splitAtSlash] at h
    by_cases hslash : whole[slashIndex]? ≠ some 47
    · rw [if_pos hslash] at h
      exact ih h
    rw [if_neg hslash] at h
    by_cases hfits : slashIndex ≤ 155 ∧ whole.length - slashIndex - 1 ≤ 100
    · rw [if_pos hfits] at h
      cases h
      obtain ⟨hlt, hget⟩ := List.getElem?_eq_some_iff.mp (not_not.mp hslash)
      refine ⟨?_, ?_, ?_⟩
      · rw [← hget, getElem_cons_drop, take_append_drop]
      · rw [length_take]
        omega
      · rw [length_drop]
        omega
    · rw [if_neg hfits] at h
      exact ih h

theorem splitAtSlash_last (hlength : whole.length = 101) (h : splitAtSlash whole limit = some name)
    (hempty : name.leading = []) {i : Nat} (hpos : 0 < i) (hi : i < limit) (hle : limit ≤ 101) : whole[i]? ≠ some 47 := by
  induction limit with
  | zero => exact absurd hi (Nat.not_lt_zero _)
  | succ slashIndex ih =>
    rw [splitAtSlash] at h
    by_cases hslash : whole[slashIndex]? ≠ some 47
    · rw [if_pos hslash] at h
      by_cases heq : i = slashIndex
      · rw [heq]
        exact hslash
      · exact ih h (by omega) (by omega)
    · rw [if_neg hslash, if_pos (by omega)] at h
      cases h
      simp only at hempty
      have hzero := congrArg List.length hempty
      rw [length_take, length_nil] at hzero
      omega

theorem splitAtSlash_skips (h : ∀ i, limit ≤ i → i < whole.length → whole[i]? ≠ some 47) (hle : limit ≤ whole.length) :
    splitAtSlash whole whole.length = splitAtSlash whole limit := by
  obtain ⟨n, hn⟩ : ∃ n, whole.length = limit + n := ⟨whole.length - limit, by omega⟩
  rw [hn]
  clear hle
  have hskip : ∀ m ≤ n, splitAtSlash whole (limit + m) = splitAtSlash whole limit := by
    intro m hm
    induction m with
    | zero => rfl
    | succ m ih =>
      rw [← add_assoc, splitAtSlash, if_pos (h (limit + m) (by omega) (by omega))]
      exact ih (by omega)
  exact hskip n (le_rfl)

end

section
variable {path : Bytes} {directory : Bool} {name : UstarName}

section
variable (h : splitUstarName path directory = some name)
include h

theorem splitUstarName_cases :
    ((wholeName path directory).length ≤ 100 ∧ name = { name := wholeName path directory, leading := [] }) ∨
      (100 < (wholeName path directory).length ∧
        splitAtSlash (wholeName path directory) (wholeName path directory).length = some name) := by
  unfold splitUstarName at h
  by_cases hshort : (wholeName path directory).length ≤ 100
  · rw [if_pos hshort] at h
    cases h
    exact .inl ⟨hshort, rfl⟩
  · rw [if_neg hshort] at h
    exact .inr ⟨Nat.lt_of_not_le hshort, h⟩

theorem splitUstarName_lengths : name.name.length ≤ 100 ∧ name.leading.length ≤ 155 := by
  cases splitUstarName_cases h with
  | inl hshort =>
    obtain ⟨hlen, rfl⟩ := hshort
    exact ⟨hlen, by simp⟩
  | inr hcut =>
    obtain ⟨_, hleading, hname⟩ := splitAtSlash_cut hcut.2
    exact ⟨hname, hleading⟩

theorem splitUstarName_bytes (hzero : 0 ∉ path) : 0 ∉ name.name ∧ 0 ∉ name.leading := by
  have hwhole : 0 ∉ wholeName path directory := by
    unfold wholeName
    by_cases hdir : directory = true
    · rw [if_pos hdir]
      simp [hzero]
    · rw [if_neg hdir]
      exact hzero
  cases splitUstarName_cases h with
  | inl hshort =>
    obtain ⟨_, rfl⟩ := hshort
    exact ⟨hwhole, by simp⟩
  | inr hcut =>
    obtain ⟨hcut, _, _⟩ := splitAtSlash_cut hcut.2
    rw [hcut] at hwhole
    refine ⟨?_, ?_⟩
    · intro hmem
      exact hwhole (mem_append_right _ (mem_cons_of_mem _ hmem))
    · intro hmem
      exact hwhole (mem_append_left _ hmem)

end

end

def joinedName (name : UstarName) : Bytes :=
  if name.leading = [] then name.name else name.leading ++ 47 :: name.name

variable {path : Bytes} {name : UstarName}

theorem joinedName_file (h : splitUstarName path false = some name) :
    joinedName name = if LosesSlash path then path.tail else path := by
  have hwhole : wholeName path false = path := rfl
  cases splitUstarName_cases h with
  | inl hshort =>
    obtain ⟨hlen, rfl⟩ := hshort
    rw [hwhole] at hlen
    have hkeeps : ¬LosesSlash path := by
      intro hloses
      have hlength := hloses.1
      omega
    rw [if_neg hkeeps]
    rfl
  | inr hlong =>
    obtain ⟨hlen, hsplit⟩ := hlong
    rw [hwhole] at hlen hsplit
    obtain ⟨hcut, _, hname⟩ := splitAtSlash_cut hsplit
    unfold joinedName
    by_cases hempty : name.leading = []
    · have hpath : path = 47 :: name.name := by
        rw [hempty, nil_append] at hcut
        exact hcut
      have hlength : path.length = 101 := by
        rw [hpath, length_cons] at hlen ⊢
        omega
      have hloses : LosesSlash path := by
        refine ⟨hlength, by rw [hpath]; rfl, ?_⟩
        intro hmem
        obtain ⟨i, hi, hget⟩ := mem_iff_getElem.mp hmem
        have hindex : path[i + 1]? = some 47 := by
          rw [← hget, ← getElem?_tail, getElem?_eq_getElem hi]
        rw [length_tail] at hi
        exact splitAtSlash_last hlength hsplit hempty (Nat.succ_pos i) (by omega) (by omega) hindex
      rw [if_pos hempty, if_pos hloses, hpath]
      rfl
    · have hkeeps : ¬LosesSlash path := by
        intro hloses
        obtain ⟨hlen, hhead, htail⟩ := hloses
        obtain ⟨c, rest, hcons⟩ := exists_cons_of_ne_nil hempty
        have hmem : (47 : UInt8) ∈ path.tail := by
          rw [hcut, hcons]
          simp
        exact htail hmem
      rw [if_neg hempty, if_neg hkeeps]
      exact hcut.symm

theorem joinedName_dir (h : splitUstarName path true = some name) : joinedName name = path ++ [47] := by
  have hwhole : wholeName path true = path ++ [47] := rfl
  cases splitUstarName_cases h with
  | inl hshort =>
    obtain ⟨_, rfl⟩ := hshort
    rfl
  | inr hlong =>
    obtain ⟨hlen, hsplit⟩ := hlong
    rw [hwhole] at hlen hsplit
    obtain ⟨hcut, _, hname⟩ := splitAtSlash_cut hsplit
    unfold joinedName
    by_cases hempty : name.leading = []
    · -- the directory's own slash would have been taken first
      exfalso
      have hpath : path ++ [47] = 47 :: name.name := by
        rw [hempty, nil_append] at hcut
        exact hcut
      have hlength : (path ++ [47]).length = 101 := by
        have hcount := congrArg List.length hpath
        rw [length_cons] at hcount
        omega
      have hhundred : path.length = 100 := by
        rw [length_append, length_singleton] at hlength
        omega
      have hlast : (path ++ [47])[100]? = some 47 := by
        rw [← hhundred, getElem?_append_right (Nat.le_refl _), Nat.sub_self]
        rfl
      exact splitAtSlash_last hlength hsplit hempty (by decide) (by omega) (by omega) hlast
    · rw [if_neg hempty]
      exact hcut.symm

theorem splitUstarName_loses (h : LosesSlash path) :
    splitUstarName path false = some { name := path.tail, leading := [] } := by
  obtain ⟨hlen, hhead, htail⟩ := h
  have hne : path ≠ [] := by
    intro hnil
    simp [hnil] at hlen
  obtain ⟨c, rest, rfl⟩ := exists_cons_of_ne_nil hne
  cases hhead
  have hwhole : wholeName (47 :: rest) false = 47 :: rest := rfl
  have hskip : splitAtSlash (47 :: rest) (47 :: rest).length = splitAtSlash (47 :: rest) 1 := by
    apply splitAtSlash_skips
    · intro i hi hlt heq
      obtain ⟨j, rfl⟩ : ∃ j, i = j + 1 := ⟨i - 1, by omega⟩
      rw [getElem?_cons_succ] at heq
      exact htail (mem_of_getElem? heq)
    · omega
  have hfits : (47 :: rest).length - 0 - 1 ≤ 100 := by omega
  unfold splitUstarName
  rw [hwhole, if_neg (by omega), hskip]
  simp only [splitAtSlash, getElem?_cons_zero, ne_eq, not_true_eq_false, if_false]
  rw [if_pos ⟨by decide, hfits⟩]
  rfl

end Bx.Tar
