import Bx.Search.Literal

/-!
# Literal search against naive search

The finders answer with the first offset at which every byte they compare is the needle's. That is every byte but for
needles of 4 to 256 bytes, where the anchor is compared only if it is one of the rare pair.
-/

namespace Bx.Literal

open Bx.Kit List

/-- The needle occurs at `p`. -/
def OccursAt (needle buf : List UInt8) (p : Nat) : Prop := ∀ i, i < needle.length → buf[p + i]? = needle[i]?

def NaiveResult (needle buf : List UInt8) (start : Nat) (r : Option BxMatch) : Prop :=
  FirstOf {p | start ≤ p ∧ OccursAt needle buf p} (r.map (·.start)) ∧ ∀ m ∈ r, m.stop = m.start + needle.length

/-! ## The bytes the plan chooses -/

section
variable {needle buf : List UInt8}

variable {κ : Type} {p : Nat}

theorem foldl_best_index {f : Best κ → Nat → Best κ} (hf : ∀ best i, f best i = best ∨ (f best i).index = i)
    (l : List Nat) (best : Best κ) : (l.foldl f best).index = best.index ∨ (l.foldl f best).index ∈ l := by
  induction l generalizing best with
  | nil => exact .inl rfl
  | cons i l ih =>
    rw [foldl_cons]
    cases ih (f best i) with
    | inl hsame =>
      rw [hsame]
      cases hf best i with
      | inl hkept => exact .inl (by rw [hkept])
      | inr hi => exact .inr (by rw [hi]; exact mem_cons_self)
    | inr hmem => exact .inr (mem_cons_of_mem _ hmem)

theorem Best.step_index (better : κ → κ → Bool) (best : Best κ) (i : Nat) (key : κ) :
    best.step better i key = best ∨ (best.step better i key).index = i := by
  unfold Best.step
  split
  · exact .inr rfl
  · exact .inl rfl

theorem selectRareByteIndex_lt (h : needle ≠ []) : selectRareByteIndex needle < needle.length := by
  have hpos := length_pos_iff.mpr h
  unfold selectRareByteIndex
  cases foldl_best_index (f := rareByteStep needle) (fun _ _ => Best.step_index _ _ _ _) (List.range needle.length)
      ⟨0, none⟩ with
  | inl hzero =>
    rw [hzero]
    exact hpos
  | inr hmem => exact mem_range.mp hmem

theorem selectRarePairOffset_lt (h : 2 ≤ needle.length) : selectRarePairOffset needle + 1 < needle.length := by
  unfold selectRarePairOffset
  cases foldl_best_index (f := rarePairStep needle) (fun _ _ => Best.step_index _ _ _ _)
      (List.range (needle.length - 1)) ⟨0, none⟩ with
  | inl hzero =>
    rw [hzero]
    exact h
  | inr hmem =>
    have := mem_range.mp hmem
    omega

theorem foldl_anchorStep {byte : UInt8} (l : List Nat) (best : Best Nat)
    (hbest : best.key.isSome = true → needle[best.index]? = some byte)
    (hex : best.key.isSome = true ∨ ∃ i ∈ l, needle[i]? = some byte) :
    needle[(l.foldl (anchorStep needle byte) best).index]? = some byte := by
  induction l generalizing best with
  | nil =>
    cases hex with
    | inl hsome => exact hbest hsome
    | inr hmem =>
      obtain ⟨_, hmem, _⟩ := hmem
      cases hmem
  | cons i l ih =>
    rw [foldl_cons]
    unfold anchorStep
    by_cases hbyte : needle[i]? = some byte
    · rw [if_pos hbyte]
      unfold Best.step
      by_cases hall : best.key.all (fun key => decide (spanAt needle i 1 < key)) = true
      · rw [if_pos hall]
        exact ih _ (fun _ => hbyte) (.inl rfl)
      · rw [if_neg hall]
        have hsome : best.key.isSome = true := by
          cases hkey : best.key with
          | none => exact absurd (by rw [hkey]; rfl) hall
          | some key => rfl
        exact ih _ hbest (.inl hsome)
    · rw [if_neg hbyte]
      apply ih _ hbest
      cases hex with
      | inl hsome => exact .inl hsome
      | inr hmem =>
        obtain ⟨k, hk, hkbyte⟩ := hmem
        cases mem_cons.mp hk with
        | inl heq => exact absurd (heq ▸ hkbyte) hbyte
        | inr hk => exact .inr ⟨k, hk, hkbyte⟩

theorem getD_byte {i : Nat} (h : i < needle.length) : needle[i]? = some (needle.getD i 0) := by
  simp [getElem?_eq_getElem h]

section
variable (h : needle ≠ [])
include h

theorem anchorIndex_eq : (literalCompile needle).anchorIndex = chooseAnchor needle (planCompile needle).rareByte := by
  cases needle with
  | nil => exact absurd rfl h
  | cons b rest => rfl

theorem anchorIndex_rareByte :
    needle[(literalCompile needle).anchorIndex]? = some (literalCompile needle).plan.rareByte := by
  rw [anchorIndex_eq h]
  apply foldl_anchorStep
  · intro hsome
    cases hsome
  · have hlt := selectRareByteIndex_lt h
    exact .inr ⟨_, mem_range.mpr hlt, getD_byte hlt⟩

theorem anchorIndex_lt : (literalCompile needle).anchorIndex < needle.length :=
  (List.getElem?_eq_some_iff.mp (anchorIndex_rareByte h)).1

theorem literalCompile_hasAnchor : (literalCompile needle).hasAnchor = true := by
  cases needle with
  | nil => exact absurd rfl h
  | cons b rest => rfl

end

@[simp] theorem literalCompile_plan : (literalCompile needle).plan = planCompile needle := rfl

@[simp] theorem planCompile_needle : (planCompile needle).needle = needle := rfl

@[simp] theorem planCompile_needleLen : (planCompile needle).needleLen = needle.length := rfl

/-! ## Occurrences -/

theorem OccursAt.le_length (h : needle ≠ []) (hocc : OccursAt needle buf p) : p + needle.length ≤ buf.length := by
  have hpos := length_pos_iff.mpr h
  have hlast := hocc (needle.length - 1) (by omega)
  have hsome : needle[needle.length - 1]? = some _ := getElem?_eq_getElem (by omega)
  rw [hsome] at hlast
  have := (List.getElem?_eq_some_iff.mp hlast).1
  omega

theorem occursAt_cons {b : UInt8} : OccursAt (b :: needle) buf p ↔ buf[p]? = some b ∧ OccursAt needle buf (p + 1) := by
  unfold OccursAt
  refine ⟨?_, ?_⟩
  · intro h
    refine ⟨h 0 (Nat.succ_pos _), ?_⟩
    intro i hi
    rw [show p + 1 + i = p + (i + 1) by omega]
    exact h (i + 1) (Nat.succ_lt_succ hi)
  · intro ⟨hb, h⟩ i hi
    cases i with
    | zero => exact hb
    | succ i =>
      rw [show p + (i + 1) = p + 1 + i by omega]
      exact h i (Nat.lt_of_succ_lt_succ hi)

@[simp] theorem occursAt_nil {p : Nat} : OccursAt [] buf p := fun _ hi => absurd hi (Nat.not_lt_zero _)

theorem matchAtAnchor_iff (h : needle ≠ []) : matchAtAnchor (literalCompile needle) buf p = true ↔
    ∀ i, i < needle.length → i ≠ (literalCompile needle).anchorIndex → buf[p + i]? = needle[i]? := by
  have hanchor := anchorIndex_lt h
  unfold matchAtAnchor
  rw [literalCompile_hasAnchor h]
  simp only [Bool.true_and, Bool.and_eq_true, memEqual_iff, literalCompile_plan, planCompile_needle,
    planCompile_needleLen, zero_add]
  refine ⟨?_, ?_⟩
  · intro ⟨hbefore, hafter⟩ i hi hne
    by_cases hlt : i < (literalCompile needle).anchorIndex
    · exact hbefore i hlt
    · have := hafter (i - ((literalCompile needle).anchorIndex + 1)) (by omega)
      rw [show p + ((literalCompile needle).anchorIndex + 1) + (i - ((literalCompile needle).anchorIndex + 1)) = p + i by
        omega, Nat.add_sub_cancel' (by omega)] at this
      exact this
  · intro hall
    refine ⟨fun i hi => hall i (by omega) (by omega), ?_⟩
    intro i hi
    rw [add_assoc]
    exact hall _ (by omega) (by omega)

end

/-! ## Which bytes are compared -/

def AnchorCompared (needle : List UInt8) : Prop :=
  needle.length < 4 ∨ 256 < needle.length ∨ (literalCompile needle).anchorIndex = selectRarePairOffset needle ∨
    (literalCompile needle).anchorIndex = selectRarePairOffset needle + 1

def Candidate (needle buf : List UInt8) (p : Nat) : Prop :=
  p + needle.length ≤ buf.length ∧ ∀ i, i < needle.length →
    (i = (literalCompile needle).anchorIndex → AnchorCompared needle) → buf[p + i]? = needle[i]?

section
variable {needle buf : List UInt8} {start : Nat}

theorem candidate_iff (h : needle ≠ []) (hcompared : AnchorCompared needle) {p : Nat} :
    Candidate needle buf p ↔ OccursAt needle buf p := by
  refine ⟨fun hc i hi => hc.2 i hi fun _ => hcompared, ?_⟩
  intro hocc
  exact ⟨hocc.le_length h, fun i hi _ => hocc i hi⟩

def FindsFirst (needle : List UInt8) (S : Set Nat) (r : Option (Option BxMatch)) : Prop :=
  ∃ found, r = some found ∧ FirstOf S (found.map (·.start)) ∧ ∀ m ∈ found, m.stop = m.start + needle.length

theorem FindsFirst.none_of_short (hshort : buf.length < start + needle.length) :
    FindsFirst needle {p | start ≤ p ∧ Candidate needle buf p} (some none) := by
  refine ⟨none, rfl, ?_, by simp⟩
  apply Set.eq_empty_of_forall_notMem
  intro p ⟨hle, hc⟩
  have := hc.1
  omega

theorem findsFirst_of_firstOf {P : Nat → Prop} {offset : Nat} {r : Option Nat}
    (hfirst : FirstOf {i | start + offset ≤ i ∧ P i} r) (hP : ∀ p, start ≤ p → (P (p + offset) ↔ Candidate needle buf p)) :
    FindsFirst needle {p | start ≤ p ∧ Candidate needle buf p} (some (matchFrom (literalCompile needle) offset r)) := by
  refine ⟨_, rfl, ?_, ?_⟩
  · have hstart : (matchFrom (literalCompile needle) offset r).map (·.start) = r.map (· - offset) := by
      unfold matchFrom
      rw [Option.map_map]
      rfl
    rw [hstart]
    refine hfirst.shift.congr ?_
    intro p
    exact and_congr_right fun hle => (hP p hle).symm
  · intro m hm
    obtain ⟨i, _, rfl⟩ := Option.map_eq_some_iff.mp hm
    rfl

theorem findsFirst_scan {byte : UInt8} {stop : Nat} {accept : Nat → Bool} (offset : Nat)
    (hhit : ∀ p, start ≤ p → (ScanHit buf byte stop accept (p + offset) ↔ Candidate needle buf p)) :
    FindsFirst needle {p | start ≤ p ∧ Candidate needle buf p}
      ((scan buf byte stop accept (start + offset)).map (matchFrom (literalCompile needle) offset)) := by
  obtain ⟨r, hr, hfirst⟩ := @scan_spec _ _ buf byte stop accept (start + offset)
  rw [hr]
  exact findsFirst_of_firstOf hfirst hhit

/-! ## Short needles -/

section
variable (h : needle.length = 1 ∨ needle.length = 2 ∨ needle.length = 3)
include h

theorem short_compared : AnchorCompared needle ∧ needle ≠ [] := by
  refine ⟨.inl (by omega), ?_⟩
  intro hnil
  rw [hnil] at h
  simp at h

theorem candidate_short {p : Nat} : Candidate needle buf p ↔ OccursAt needle buf p := by
  obtain ⟨hcompared, hne⟩ := short_compared h
  exact candidate_iff hne hcompared

end

theorem findDirect_byte (a : UInt8) :
    FindsFirst [a] {p | start ≤ p ∧ Candidate [a] buf p} (findDirect (literalCompile [a]) buf start) := by
  show FindsFirst [a] _ (if start ≥ buf.length then some none else findCaseSensitiveByte (literalCompile [a]) buf start)
  by_cases hstart : start ≥ buf.length
  · rw [if_pos hstart]
    apply FindsFirst.none_of_short
    simp only [length_singleton]
    omega
  · rw [if_neg hstart]
    unfold findCaseSensitiveByte
    rw [if_neg (by simpa using hstart)]
    apply findsFirst_of_firstOf (memchr_spec buf a start (buf.length - start))
    intro p _
    rw [candidate_short (.inl rfl), occursAt_cons, add_zero]
    refine ⟨fun h => ⟨h.2, occursAt_nil⟩, ?_⟩
    intro ⟨hb, _⟩
    have := (List.getElem?_eq_some_iff.mp hb).1
    exact ⟨by omega, hb⟩

theorem findDirect_pair (a b : UInt8) :
    FindsFirst [a, b] {p | start ≤ p ∧ Candidate [a, b] buf p} (findDirect (literalCompile [a, b]) buf start) := by
  show FindsFirst [a, b] _
    (if start ≥ buf.length then some none else findCaseSensitivePair (literalCompile [a, b]) buf start)
  by_cases hshort : buf.length < start + 2
  · have hnone : findCaseSensitivePair (literalCompile [a, b]) buf start = some none := by
      unfold findCaseSensitivePair
      rw [if_pos]
      simp
      omega
    rw [hnone, ite_self]
    exact .none_of_short hshort
  · rw [if_neg (by omega)]
    unfold findCaseSensitivePair
    rw [if_neg (by simp; omega)]
    refine findsFirst_scan 0 ?_
    intro p hp
    rw [candidate_short (.inr (.inl rfl)), occursAt_cons, occursAt_cons]
    unfold ScanHit
    simp only [decide_eq_true_eq, add_zero]
    refine ⟨fun h => ⟨h.2.1, h.2.2, occursAt_nil⟩, ?_⟩
    intro ⟨ha, hb, _⟩
    have := (List.getElem?_eq_some_iff.mp hb).1
    exact ⟨by omega, ha, hb⟩

theorem findDirect_short (a b c : UInt8) :
    FindsFirst [a, b, c] {p | start ≤ p ∧ Candidate [a, b, c] buf p} (findDirect (literalCompile [a, b, c]) buf start) := by
  show FindsFirst [a, b, c] _
    (if start ≥ buf.length then some none else findCaseSensitiveShort (literalCompile [a, b, c]) buf start)
  by_cases hshort : buf.length < start + 3
  · have hnone : findCaseSensitiveShort (literalCompile [a, b, c]) buf start = some none := by
      unfold findCaseSensitiveShort
      rw [if_pos]
      simp
      omega
    rw [hnone, ite_self]
    exact .none_of_short hshort
  · rw [if_neg (by omega)]
    unfold findCaseSensitiveShort
    rw [if_neg (by simp; omega)]
    refine findsFirst_scan 0 ?_
    intro p hp
    rw [candidate_short (.inr (.inr rfl)), occursAt_cons, occursAt_cons, occursAt_cons]
    unfold ScanHit
    simp only [Bool.and_eq_true, decide_eq_true_eq, add_zero]
    refine ⟨fun h => ⟨h.2.1, h.2.2.1, h.2.2.2, occursAt_nil⟩, ?_⟩
    intro ⟨ha, hb, hc, _⟩
    have := (List.getElem?_eq_some_iff.mp hc).1
    exact ⟨by omega, ha, hb, hc⟩

/-! ## Longer needles -/

theorem findDirect_nonEmpty (hfind : (literalCompile needle).find = .nonEmpty) (hlong : 0 < needle.length)
    (h : ¬buf.length < start + needle.length → FindsFirst needle {p | start ≤ p ∧ Candidate needle buf p}
      (findCaseSensitiveCompiled (literalCompile needle) buf start)) :
    FindsFirst needle {p | start ≤ p ∧ Candidate needle buf p} (findDirect (literalCompile needle) buf start) := by
  unfold findDirect
  rw [hfind]
  show FindsFirst needle _ (findNonEmpty (literalCompile needle) buf start)
  unfold findNonEmpty
  rw [literalCompile_plan, planCompile_needleLen]
  by_cases hshort : buf.length < start + needle.length
  · rw [if_pos (by simp only [Bool.or_eq_true, decide_eq_true_eq]; omega)]
    exact .none_of_short hshort
  · rw [if_neg (by simp only [Bool.or_eq_true, decide_eq_true_eq]; omega)]
    exact h hshort

section
variable (hlong : 4 ≤ needle.length) (hmedium : needle.length ≤ 256)
include hlong hmedium

theorem rarePair_hit {p : Nat} : (buf[p + selectRarePairOffset needle]? = needle[selectRarePairOffset needle]? ∧
      buf[p + selectRarePairOffset needle + 1]? = needle[selectRarePairOffset needle + 1]? ∧
      ∀ i, i < needle.length → i ≠ (literalCompile needle).anchorIndex → buf[p + i]? = needle[i]?) ↔
    ∀ i, i < needle.length → (i = (literalCompile needle).anchorIndex → AnchorCompared needle) →
      buf[p + i]? = needle[i]? := by
  have hpair : selectRarePairOffset needle + 1 < needle.length := selectRarePairOffset_lt (by omega)
  refine ⟨?_, ?_⟩
  · intro ⟨hfirst, hsecond, haround⟩ i hi hanchor
    by_cases heq : i = (literalCompile needle).anchorIndex
    · cases hanchor heq with
      | inl hlt => omega
      | inr h =>
        cases h with
        | inl hgt => omega
        | inr h =>
          cases h with
          | inl hfst => rw [heq, hfst, hfirst]
          | inr hsnd => rw [heq, hsnd, ← add_assoc, hsecond]
    · exact haround i hi heq
  · intro hall
    refine ⟨hall _ (by omega) ?_, ?_, fun i hi hne => hall i hi fun heq => absurd heq hne⟩
    · intro heq
      exact .inr (.inr (.inl heq.symm))
    · rw [add_assoc]
      exact hall _ hpair fun heq => .inr (.inr (.inr heq.symm))

theorem literalCompile_medium :
    (literalCompile needle).find = .nonEmpty ∧ (literalCompile needle).caseSensitiveFind = .rarePairScalar := by
  have halgo : (planCompile needle).algo = .shortRarePair ∨ (planCompile needle).algo = .mediumRarePair := by
    show selectAlgo needle.length = _ ∨ selectAlgo needle.length = _
    unfold selectAlgo
    rw [if_neg (by omega), if_neg (by omega), if_neg (by omega)]
    by_cases h16 : needle.length ≤ 16
    · exact .inl (if_pos h16)
    · rw [if_neg h16, if_pos hmedium]
      exact .inr rfl
  have hthree : needle.length ≠ 3 := by omega
  have hbackend : selectCaseSensitiveBackend (planCompile needle) = (.nonEmpty, .rarePairScalar) := by
    unfold selectCaseSensitiveBackend
    cases halgo with
    | inl h => simp [h, hthree]
    | inr h => simp [h, hthree]
  exact ⟨congrArg (·.1) hbackend, congrArg (·.2) hbackend⟩

theorem findDirect_medium :
    FindsFirst needle {p | start ≤ p ∧ Candidate needle buf p} (findDirect (literalCompile needle) buf start) := by
  obtain ⟨hfind, hcase⟩ := literalCompile_medium hlong hmedium
  have hne : needle ≠ [] := length_pos_iff.mp (by omega)
  have hpair : selectRarePairOffset needle + 1 < needle.length := selectRarePairOffset_lt (by omega)
  apply findDirect_nonEmpty hfind (by omega)
  intro hfits
  unfold findCaseSensitiveCompiled
  rw [hcase]
  show FindsFirst needle _ (findCaseSensitiveRarePairScalar (literalCompile needle) buf start)
  unfold findCaseSensitiveRarePairScalar
  rw [literalCompile_plan, planCompile_needleLen,
    if_neg (by simp only [Bool.or_eq_true, decide_eq_true_eq]; omega)]
  have hfirst : needle[selectRarePairOffset needle]? = some (planCompile needle).rarePairFirst := by
    show _ = some (if needle.length > 1 then _ else _)
    rw [if_pos (by omega)]
    exact getD_byte (by omega)
  have hsecond : needle[selectRarePairOffset needle + 1]? = some (planCompile needle).rarePairSecond := by
    show _ = some (if needle.length > 1 then _ else _)
    rw [if_pos (by omega)]
    exact getD_byte hpair
  refine findsFirst_scan (selectRarePairOffset needle) ?_
  intro p hp
  unfold Candidate ScanHit
  rw [← rarePair_hit hlong hmedium, hfirst, hsecond,
    show (planCompile needle).rarePairOffset = selectRarePairOffset needle from rfl]
  simp only [Nat.add_sub_cancel, Bool.and_eq_true, matchAtAnchor_iff hne]
  rw [decide_eq_true_iff]
  refine ⟨?_, ?_⟩
  · intro ⟨hlt, hfst, hsnd, haround⟩
    exact ⟨by omega, hfst, hsnd, haround⟩
  · intro ⟨hle, hfst, hsnd, haround⟩
    exact ⟨by omega, hfst, hsnd, haround⟩

end

theorem literalCompile_long (hlong : 256 < needle.length) :
    (literalCompile needle).find = .nonEmpty ∧ (literalCompile needle).caseSensitiveFind = .longScalar := by
  have halgo : (planCompile needle).algo = .longTwoWay := by
    show selectAlgo needle.length = _
    unfold selectAlgo
    rw [if_neg (by omega), if_neg (by omega), if_neg (by omega), if_neg (by omega), if_neg (by omega)]
  have hthree : needle.length ≠ 3 := by omega
  have hbackend : selectCaseSensitiveBackend (planCompile needle) = (.nonEmpty, .longScalar) := by
    unfold selectCaseSensitiveBackend
    simp [halgo, hthree]
  exact ⟨congrArg (·.1) hbackend, congrArg (·.2) hbackend⟩

theorem findDirect_long (hlong : 256 < needle.length) :
    FindsFirst needle {p | start ≤ p ∧ Candidate needle buf p} (findDirect (literalCompile needle) buf start) := by
  obtain ⟨hfind, hcase⟩ := literalCompile_long hlong
  have hne : needle ≠ [] := length_pos_iff.mp (by omega)
  have hanchor := anchorIndex_lt hne
  apply findDirect_nonEmpty hfind (by omega)
  intro hfits
  unfold findCaseSensitiveCompiled
  rw [hcase]
  show FindsFirst needle _ (findAnchoredExact (literalCompile needle) buf start)
  unfold findAnchoredExact
  rw [literalCompile_hasAnchor hne, literalCompile_plan, planCompile_needleLen,
    if_neg (by simp only [Bool.not_true, Bool.or_eq_true, Bool.false_or, decide_eq_true_eq]; omega)]
  refine findsFirst_scan (literalCompile needle).anchorIndex ?_
  intro p hp
  rw [candidate_iff hne (.inr (.inl hlong))]
  unfold ScanHit
  simp only [matchAtAnchor_iff hne, Nat.add_sub_cancel]
  have hbyte : needle[(literalCompile needle).anchorIndex]? = some (planCompile needle).rareByte :=
    anchorIndex_rareByte hne
  refine ⟨?_, ?_⟩
  · intro ⟨_, hrare, haround⟩ i hi
    by_cases heq : i = (literalCompile needle).anchorIndex
    · rw [heq, hrare, hbyte]
    · exact haround i hi heq
  · intro hocc
    have hle := hocc.le_length hne
    refine ⟨by omega, ?_, fun i hi _ => hocc i hi⟩
    rw [← hbyte]
    exact hocc _ hanchor

/-! ## Every needle -/

theorem findDirect_findsFirst (h : needle ≠ []) :
    FindsFirst needle {p | start ≤ p ∧ Candidate needle buf p} (findDirect (literalCompile needle) buf start) := by
  by_cases hlong : 4 ≤ needle.length
  · by_cases hmedium : needle.length ≤ 256
    · exact findDirect_medium hlong hmedium
    · exact findDirect_long (by omega)
  · match needle, h with
    | [a], _ => exact findDirect_byte a
    | [a, b], _ => exact findDirect_pair a b
    | [a, b, c], _ => exact findDirect_short a b c
    | _ :: _ :: _ :: _ :: rest, _ => simp at hlong

/-- **Main result.** The search agrees with naive search exactly where the needle's anchor is compared or nothing that
only differs from the needle at the anchor comes before the first occurrence. -/
theorem findDirect_naive_iff (needle buf : List UInt8) (start : Nat) (h : needle ≠ []) :
    (∃ r, findDirect (literalCompile needle) buf start = some r ∧ NaiveResult needle buf start r) ↔
      AnchorCompared needle ∨
        ∀ p, start ≤ p → p + needle.length ≤ buf.length →
          (∀ i, i < needle.length → i ≠ (literalCompile needle).anchorIndex → buf[p + i]? = needle[i]?) →
            ∃ q, start ≤ q ∧ q ≤ p ∧ OccursAt needle buf q := by
  obtain ⟨found, hfound, hfirst, hstop⟩ := @findDirect_findsFirst needle buf start h
  have hnaive : (∃ r, findDirect (literalCompile needle) buf start = some r ∧ NaiveResult needle buf start r) ↔
      FirstOf {p | start ≤ p ∧ OccursAt needle buf p} (found.map (·.start)) := by
    rw [hfound]
    refine ⟨?_, fun hf => ⟨found, rfl, hf, hstop⟩⟩
    intro ⟨r, hr, hnaive⟩
    cases hr
    exact hnaive.1
  have hsub : {p | start ≤ p ∧ OccursAt needle buf p} ⊆ {p | start ≤ p ∧ Candidate needle buf p} := by
    intro p ⟨hle, hocc⟩
    exact ⟨hle, hocc.le_length h, fun i hi _ => hocc i hi⟩
  rw [hnaive, hfirst.iff_of_subset hsub]
  refine ⟨?_, ?_⟩
  · intro hbefore
    by_cases hcompared : AnchorCompared needle
    · exact .inl hcompared
    · refine .inr ?_
      intro p hp hle haround
      obtain ⟨q, ⟨hq, hocc⟩, hqp⟩ := hbefore p ⟨hp, hle, fun i hi hanchor =>
        haround i hi fun heq => hcompared (hanchor heq)⟩
      exact ⟨q, hq, hqp, hocc⟩
  · intro hcond p ⟨hp, hcandidate⟩
    by_cases hcompared : AnchorCompared needle
    · exact ⟨p, ⟨hp, (candidate_iff h hcompared).mp hcandidate⟩, le_rfl⟩
    · obtain ⟨q, hq, hqp, hocc⟩ := (hcond.resolve_left hcompared) p hp hcandidate.1 fun i hi hne =>
        hcandidate.2 i hi fun heq => absurd heq hne
      exact ⟨q, ⟨hq, hocc⟩, hqp⟩

end

/-- `qqqe` is looked for by its pair `qq`, and its anchor `e` is not compared. -/
theorem findDirect_misses_anchor :
    ¬∃ r, findDirect (literalCompile [113, 113, 113, 101]) [113, 113, 113, 120] 0 = some r ∧
      NaiveResult [113, 113, 113, 101] [113, 113, 113, 120] 0 r := by
  intro ⟨r, hr, hnaive, _⟩
  have hfound : findDirect (literalCompile [113, 113, 113, 101]) [113, 113, 113, 120] 0 = some (some ⟨0, 4⟩) := by decide
  rw [hfound] at hr
  cases hr
  obtain ⟨⟨_, hocc⟩, _⟩ := hnaive
  have hlast := hocc 3 (by decide)
  revert hlast
  decide

theorem findDirect_naive_iff_pair : ∃ r, findDirect (literalCompile [104, 105]) [104, 104, 105] 0 = some r ∧
      NaiveResult [104, 105] [104, 104, 105] 0 r :=
  (findDirect_naive_iff [104, 105] [104, 104, 105] 0 (by decide)).mpr (.inl (.inl (by decide)))

end Bx.Literal
