import Mathlib

/-!
# Sorted lookup tables

A table is built once from ranked candidates, sorted by key and then by rank, and of the candidates with one key only
the last is kept. A binary search then finds the candidate of highest rank for a key.
-/

namespace Bx.Kit

open List

section
variable {ε κ : Type*} [LinearOrder κ] (key : ε → κ) (rank : ε → Nat)

def tableCmp (a b : ε) : Ordering := (cmp (key a) (key b)).then (cmp (rank a) (rank b))

/-- Append `c`, overwriting the last entry if it has the same key. -/
def dedupeStep (table : List ε) (c : ε) : List ε :=
  match table.getLast? with
  | some prev => if cmp (key prev) (key c) = .eq then table.dropLast ++ [c] else table ++ [c]
  | none => [c]

def buildTable (candidates : List ε) : List ε :=
  (candidates.insertionSort fun a b => tableCmp key rank a b ≠ .gt).foldl (dedupeStep key) []

def searchLoop (table : List ε) (k : κ) (lo hi : Nat) : Option ε :=
  if lo < hi then
    let mid := lo + (hi - lo) / 2
    match table[mid]? with
    | none => none
    | some entry =>
      match cmp k (key entry) with
      | .eq => some entry
      | .lt => searchLoop table k lo mid
      | .gt => searchLoop table k (mid + 1) hi
  else none
termination_by hi - lo

def lookup (table : List ε) (k : κ) : Option ε := searchLoop key table k 0 table.length

/-! ## The binary search -/

variable {e : ε} {table : List ε} {a b : ε}

theorem searchLoop_sound (table : List ε) (k : κ) (lo hi : Nat)
    (h : searchLoop key table k lo hi = some e) : e ∈ table ∧ key e = k := by
  fun_induction searchLoop key table k lo hi with
  | case1 => cases h
  | case2 lo hi _ mid entry hm hc =>
    simp only [Option.some.injEq] at h; subst h
    exact ⟨mem_of_getElem? hm, (cmp_eq_eq_iff _ _ |>.mp hc).symm⟩
  | case3 _ _ _ _ _ _ _ ih => exact ih h
  | case4 _ _ _ _ _ _ _ ih => exact ih h
  | case5 => cases h

theorem key_lt_of_lt (hs : table.Pairwise fun a b => key a < key b) {i j : Nat}
    (ha : table[i]? = some a) (hb : table[j]? = some b) (hij : i < j) : key a < key b := by
  obtain ⟨hi, rfl⟩ := List.getElem?_eq_some_iff.mp ha
  obtain ⟨hj, rfl⟩ := List.getElem?_eq_some_iff.mp hb
  exact pairwise_iff_getElem.mp hs i j hi hj hij

theorem searchLoop_complete (hs : table.Pairwise fun a b => key a < key b) (k : κ) (lo hi : Nat)
    (hhi : hi ≤ table.length) (hlow : ∀ i e, table[i]? = some e → i < lo → key e < k)
    (hhigh : ∀ i e, table[i]? = some e → hi ≤ i → k < key e)
    (h : searchLoop key table k lo hi = none) : ∀ e ∈ table, key e ≠ k := by
  fun_induction searchLoop key table k lo hi with
  | case1 lo hi hlt mid hm =>
    have : mid < table.length := by omega
    rw [getElem?_eq_getElem this] at hm; cases hm
  | case2 => cases h
  | case3 lo hi hlt mid entry hm hc ih =>
    have hk : k < key entry := (cmp_eq_lt_iff _ _).mp hc
    refine ih (by omega) hlow (fun i e he hi' => ?_) h
    rcases lt_or_ge mid i with h' | h'
    · exact hk.trans (key_lt_of_lt key hs hm he h')
    · have : i = mid := by omega
      subst this; rw [hm] at he; cases he; exact hk
  | case4 lo hi hlt mid entry hm hc ih =>
    have hk : key entry < k := (cmp_eq_gt_iff _ _).mp hc
    refine ih hhi (fun i e he hi' => ?_) hhigh h
    rcases lt_or_ge i mid with h' | h'
    · exact (key_lt_of_lt key hs he hm h').trans hk
    · have : i = mid := by omega
      subst this; rw [hm] at he; cases he; exact hk
  | case5 lo hi hge =>
    intro e he
    obtain ⟨i, hi', rfl⟩ := getElem_of_mem he
    rcases lt_or_ge i lo with h' | h'
    · exact (hlow i _ (getElem?_eq_getElem hi') h').ne
    · exact (hhigh i _ (getElem?_eq_getElem hi') (by omega)).ne'

/-! ## Sorting and deduplication -/

def tableLE (a b : ε) : Prop := key a < key b ∨ key a = key b ∧ rank a ≤ rank b

theorem tableCmp_ne_gt (a b : ε) : tableCmp key rank a b ≠ .gt ↔ tableLE key rank a b := by
  unfold tableCmp tableLE
  rcases lt_trichotomy (key a) (key b) with h | h | h
  · rw [(cmp_eq_lt_iff _ _).mpr h]
    show Ordering.lt ≠ .gt ↔ _
    simp [h]
  · have hr : cmp (rank a) (rank b) ≠ .gt ↔ rank a ≤ rank b := by
      rw [Ne, cmp_eq_gt_iff, Nat.not_lt]
    rw [(cmp_eq_eq_iff _ _).mpr h]
    show cmp (rank a) (rank b) ≠ .gt ↔ _
    rw [hr]
    simp [h]
  · rw [(cmp_eq_gt_iff _ _).mpr h]
    show Ordering.gt ≠ .gt ↔ _
    simp [h.not_gt, h.ne']

theorem pairwise_sorted (candidates : List ε) :
    (candidates.insertionSort fun a b => tableCmp key rank a b ≠ .gt).Pairwise (tableLE key rank) := by
  have total : Std.Total fun a b => tableCmp key rank a b ≠ .gt := ⟨fun a b => by
    simp only [tableCmp_ne_gt, tableLE]
    rcases lt_trichotomy (key a) (key b) with h | h | h
    · exact .inl (.inl h)
    · rcases le_total (rank a) (rank b) with hr | hr
      · exact .inl (.inr ⟨h, hr⟩)
      · exact .inr (.inr ⟨h.symm, hr⟩)
    · exact .inr (.inl h)⟩
  have trans : IsTrans ε fun a b => tableCmp key rank a b ≠ .gt := ⟨fun a b c hab hbc => by
    simp only [tableCmp_ne_gt, tableLE] at hab hbc ⊢
    rcases hab with h | ⟨h, hr⟩ <;> rcases hbc with h' | ⟨h', hr'⟩
    · exact .inl (h.trans h')
    · exact .inl (h' ▸ h)
    · exact .inl (h ▸ h')
    · exact .inr ⟨h.trans h', hr.trans hr'⟩⟩
  refine (pairwise_insertionSort (fun a b => tableCmp key rank a b ≠ .gt) candidates).imp ?_
  intro a b h
  exact (tableCmp_ne_gt key rank a b).mp h

/-- What `dedupeStep` keeps of the sorted candidates `seen` so far. -/
structure Deduped (seen table : List ε) : Prop where
  sub : ∀ e ∈ table, e ∈ seen
  strict : table.Pairwise fun a b => key a < key b
  last : ∀ c ∈ seen, ∃ e ∈ table, key e = key c ∧ rank c ≤ rank e

theorem dedupeStep_spec {seen table : List ε} (hd : Deduped key rank seen table) {c : ε}
    (hc : ∀ a ∈ seen, tableLE key rank a c) : Deduped key rank (seen ++ [c]) (dedupeStep key table c) := by
  have hle : ∀ e ∈ table, key e ≤ key c := fun e he => by
    rcases hc e (hd.sub e he) with h | ⟨h, _⟩
    · exact h.le
    · exact h.le
  have hmem : ∀ e ∈ table, e ∈ seen ++ [c] := fun e he => mem_append_left _ (hd.sub e he)
  unfold dedupeStep
  rcases eq_nil_or_concat table with rfl | ⟨pre, prev, rfl⟩
  · refine ⟨by simp, by simp, fun a ha => ?_⟩
    rcases mem_append.mp ha with ha | ha
    · obtain ⟨e, he, _⟩ := hd.last a ha; cases he
    · simp at ha; subst ha; exact ⟨a, by simp, rfl, le_refl _⟩
  · simp only [concat_eq_append, getLast?_append, getLast?_singleton, Option.some_or,
      dropLast_concat] at *
    have hstrict := hd.strict
    rw [pairwise_append] at hstrict
    by_cases heq : key prev = key c
    · rw [if_pos ((cmp_eq_eq_iff _ _).mpr heq)]
      refine ⟨fun e he => ?_, ?_, fun a ha => ?_⟩
      · rcases mem_append.mp he with he | he
        · exact hmem e (mem_append_left _ he)
        · exact mem_append_right _ he
      · rw [pairwise_append]
        refine ⟨hstrict.1, by simp, fun a ha b hb => ?_⟩
        simp at hb; subst hb
        exact heq ▸ hstrict.2.2 a ha prev (by simp)
      · rcases mem_append.mp ha with ha | ha
        · obtain ⟨e, he, hk, hr⟩ := hd.last a ha
          rcases mem_append.mp he with he | he
          · exact ⟨e, mem_append_left _ he, hk, hr⟩
          · -- `a` has the overwritten key: `c` has the higher rank
            simp at he; subst he
            refine ⟨c, by simp, by rw [← heq, hk], ?_⟩
            rcases hc a ha with h | ⟨_, h⟩
            · exact absurd (hk.symm.trans heq) h.ne
            · exact h
        · simp at ha; subst ha; exact ⟨a, by simp, rfl, le_refl _⟩
    · rw [if_neg (fun h => heq ((cmp_eq_eq_iff _ _).mp h))]
      refine ⟨fun e he => ?_, ?_, fun a ha => ?_⟩
      · rcases mem_append.mp he with he | he
        · exact hmem e he
        · exact mem_append_right _ he
      · rw [pairwise_append]
        refine ⟨hd.strict, by simp, fun a ha b hb => ?_⟩
        simp at hb; subst hb
        have hp : key prev < key b := lt_of_le_of_ne (hle prev (by simp)) heq
        rcases mem_append.mp ha with ha | ha
        · exact (hstrict.2.2 a ha prev (by simp)).trans hp
        · simp at ha; subst ha; exact hp
      · rcases mem_append.mp ha with ha | ha
        · obtain ⟨e, he, h⟩ := hd.last a ha
          exact ⟨e, mem_append_left _ he, h⟩
        · simp at ha; subst ha; exact ⟨a, by simp, rfl, le_refl _⟩

theorem foldl_dedupe (rest : List ε) : ∀ seen table : List ε, Deduped key rank seen table →
    (seen ++ rest).Pairwise (tableLE key rank) →
    Deduped key rank (seen ++ rest) (rest.foldl (dedupeStep key) table) := by
  induction rest with
  | nil => intro seen table hd _; simpa using hd
  | cons c rest ih =>
    intro seen table hd hp
    have hc : ∀ a ∈ seen, tableLE key rank a c := fun a ha =>
      (pairwise_append.mp hp).2.2 a ha c (by simp)
    rw [append_cons] at hp ⊢
    exact ih (seen ++ [c]) _ (dedupeStep_spec key rank hd hc) hp

theorem buildTable_spec (candidates : List ε) : Deduped key rank candidates (buildTable key rank candidates) := by
  have h := foldl_dedupe key rank _ [] [] ⟨by simp, by simp, by simp⟩
    (by simpa using pairwise_sorted key rank candidates)
  simp only [nil_append] at h
  exact ⟨fun e he => mem_insertionSort _ |>.mp (h.sub e he), h.strict,
    fun c hc => h.last c ((mem_insertionSort _).mpr hc)⟩

theorem key_injective_of_strict (hs : table.Pairwise fun a b => key a < key b)
    (ha : a ∈ table) (hb : b ∈ table) (hk : key a = key b) : a = b := by
  obtain ⟨i, hi, rfl⟩ := getElem_of_mem ha
  obtain ⟨j, hj, rfl⟩ := getElem_of_mem hb
  rcases Nat.lt_trichotomy i j with h | h | h
  · exact absurd hk (pairwise_iff_getElem.mp hs i j hi hj h).ne
  · subst h; rfl
  · exact absurd hk (pairwise_iff_getElem.mp hs j i hj hi h).ne'

variable {candidates : List ε} {k : κ}

theorem lookup_some (h : lookup key (buildTable key rank candidates) k = some e) :
    e ∈ candidates ∧ key e = k ∧ ∀ c ∈ candidates, key c = k → rank c ≤ rank e := by
  have hd := buildTable_spec key rank candidates
  obtain ⟨he, hk⟩ := searchLoop_sound key _ k 0 _ h
  refine ⟨hd.sub e he, hk, fun c hc hck => ?_⟩
  obtain ⟨e', he', hk', hr⟩ := hd.last c hc
  have := key_injective_of_strict key hd.strict he' he (by rw [hk', hck, hk])
  subst this; exact hr

theorem lookup_none (h : lookup key (buildTable key rank candidates) k = none) : ∀ c ∈ candidates, key c ≠ k := by
  have hd := buildTable_spec key rank candidates
  have hn := searchLoop_complete key hd.strict k 0 _ (le_rfl) (fun i _ _ h => absurd h (Nat.not_lt_zero i))
    (fun i e he hi => by rw [getElem?_eq_none hi] at he; cases he) h
  intro c hc hck
  obtain ⟨e, he, hk, _⟩ := hd.last c hc
  exact hn e he (hk.trans hck)

end

theorem mem_filterMap_zipIdx {α β : Type*} {l : List α} (p : α → Prop) [DecidablePred p] (f : α → Nat → β) {b : β} :
    (b ∈ l.zipIdx.filterMap fun (a, i) => if p a then some (f a i) else none) ↔
      ∃ i a, l[i]? = some a ∧ p a ∧ b = f a i := by
  rw [mem_filterMap]
  refine ⟨?_, ?_⟩
  · intro ⟨(a, i), hm, h⟩
    simp only at h
    split_ifs at h with hp
    cases h
    exact ⟨i, a, mem_zipIdx_iff_getElem?.mp hm, hp, rfl⟩
  · intro ⟨i, a, hget, hp, hb⟩
    exact ⟨(a, i), mem_zipIdx_iff_getElem?.mpr hget, by rw [hb]; exact if_pos hp⟩

end Bx.Kit
