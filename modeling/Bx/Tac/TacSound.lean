import Bx.Kit.Delimited
import Bx.Tac.Tac

/-!
# What tac writes

The records are the pieces that the occurrences of the separator cut the content into, so that a text as the separator
loses nothing.
-/

namespace Bx.Tac

open Kit List

variable {separator data : Bytes}

/-! ## Finding a text -/

variable {s e : Nat} {needle haystack : Bytes}

theorem literalAt_eq_some :
    literalAt separator data s = some e ↔ separator <+: data.drop s ∧ s + separator.length = e := by
  unfold literalAt
  by_cases hstands : separator.isPrefixOf (data.drop s) = true
  · rw [if_pos hstands, Option.some_inj]
    exact ⟨fun heq => ⟨List.isPrefixOf_iff_prefix.mp hstands, heq⟩, And.right⟩
  · rw [if_neg hstands]
    exact ⟨(nomatch ·), fun h => absurd (List.isPrefixOf_iff_prefix.mpr h.1) hstands⟩

theorem literalAt_within (hne : separator ≠ []) : (literalAt separator data).Within data.length := by
  intro s e h
  obtain ⟨hstands, rfl⟩ := literalAt_eq_some.mp h
  have hlen := hstands.length_le
  rw [length_drop] at hlen
  have hpos := length_pos_iff.mpr hne
  omega

theorem memmem_some {off : Nat} (h : memmem needle haystack = some off) :
    needle <+: haystack.drop off ∧ ∀ i, i < off → ¬needle <+: haystack.drop i := by
  induction haystack generalizing off with
  | nil =>
    rw [memmem] at h
    by_cases hnil : needle = []
    · rw [if_pos hnil] at h
      cases h
      exact ⟨hnil ▸ nil_prefix, fun i hi => absurd hi (Nat.not_lt_zero i)⟩
    · simp [hnil] at h
  | cons c haystack ih =>
    rw [memmem] at h
    by_cases hstands : needle.isPrefixOf (c :: haystack) = true
    · rw [if_pos hstands] at h
      cases h
      exact ⟨List.isPrefixOf_iff_prefix.mp hstands, fun i hi => absurd hi (Nat.not_lt_zero i)⟩
    · rw [if_neg hstands] at h
      obtain ⟨off', hoff', rfl⟩ := Option.map_eq_some_iff.mp h
      obtain ⟨hfound, hfirst⟩ := ih hoff'
      refine ⟨hfound, ?_⟩
      intro i hi
      cases i with
      | zero => exact fun hp => hstands (List.isPrefixOf_iff_prefix.mpr hp)
      | succ i => exact hfirst i (Nat.lt_of_succ_lt_succ hi)

theorem memmem_none (h : memmem needle haystack = none) (i : Nat) : ¬needle <+: haystack.drop i := by
  induction haystack generalizing i with
  | nil =>
    rw [memmem] at h
    by_cases hnil : needle = []
    · simp [hnil] at h
    · rw [drop_nil, prefix_nil]
      exact hnil
  | cons c haystack ih =>
    rw [memmem] at h
    by_cases hstands : needle.isPrefixOf (c :: haystack) = true
    · rw [if_pos hstands] at h
      cases h
    · rw [if_neg hstands] at h
      cases i with
      | zero => exact fun hp => hstands (List.isPrefixOf_iff_prefix.mpr hp)
      | succ i => exact ih (Option.map_eq_none_iff.mp h) i

def literalRecords (data : Bytes) (a : Nat) : List (Nat × Nat) → List Bytes
  | [] => if data.drop a = [] then [] else [data.drop a]
  | (_, e) :: cuts => segment data a e :: literalRecords data e cuts

theorem scanLiteral_spec (hne : separator ≠ []) {fuel offset : Nat} {records : List Bytes}
    (hfuel : data.length < offset + fuel) (hoffset : offset ≤ data.length) :
    ∃ cuts, Cuts (literalAt separator data) offset cuts ∧
      scanLiteral separator data fuel offset records = some (records ++ literalRecords data offset cuts) := by
  induction fuel generalizing offset records with
  | zero => omega
  | succ fuel ih =>
    rw [scanLiteral]
    by_cases hend : data.length ≤ offset
    · refine ⟨[], .done ?_, ?_⟩
      · intro s e hs hlt hmatch
        have hwithin := literalAt_within hne hmatch
        omega
      · rw [if_pos hend, literalRecords, if_pos (drop_eq_nil_iff.mpr hend), append_nil]
    · rw [if_neg hend]
      cases hfound : memmem separator (data.drop offset) with
      | none =>
        refine ⟨[], .done ?_, ?_⟩
        · intro s e hs _ hmatch
          have hnot := memmem_none hfound (s - offset)
          rw [drop_drop, Nat.add_sub_cancel' hs] at hnot
          exact hnot (literalAt_eq_some.mp hmatch).1
        · rw [literalRecords, if_neg (fun hnil => hend (drop_eq_nil_iff.mp hnil))]
      | some off =>
        obtain ⟨hat, hfirst⟩ := memmem_some hfound
        rw [drop_drop] at hat
        have hmatch := literalAt_eq_some.mpr ⟨hat, rfl⟩
        have hwithin := literalAt_within hne hmatch
        have hpos := length_pos_iff.mpr hne
        dsimp only
        rw [← add_assoc]
        obtain ⟨cuts, hcuts, hscan⟩ := @ih (offset + off + separator.length)
          (records ++ [(data.drop offset).take (off + separator.length)]) (by omega) (by omega)
        refine ⟨_, .next (by omega) (by omega) hmatch ?_ hcuts, ?_⟩
        · intro s' e' hs hlt _ hmatch'
          have hnot := hfirst (s' - offset) (by omega)
          rw [drop_drop, Nat.add_sub_cancel' hs] at hnot
          exact hnot (literalAt_eq_some.mp hmatch').1
        · have hrecord : (data.drop offset).take (off + separator.length) =
              segment data offset (offset + off + separator.length) := by
            unfold Kit.segment
            rw [add_assoc, Nat.add_sub_cancel_left]
          rw [hscan, literalRecords, hrecord, append_assoc, singleton_append]

theorem literalRecords_reverse (a : Nat) (cuts : List (Nat × Nat)) :
    (literalRecords data a cuts).reverse.flatten = (cutAt data a (cuts.map Prod.snd)).reverse.flatten := by
  induction cuts generalizing a with
  | nil =>
    rw [literalRecords, map_nil, cutAt]
    by_cases hnil : data.drop a = []
    · rw [if_pos hnil, hnil]
      rfl
    · rw [if_neg hnil]
  | cons cut cuts ih =>
    rw [literalRecords, map_cons, cutAt, reverse_cons, flatten_append, ih, reverse_cons, flatten_append]

/-! ## A text in front of the records -/

variable {record : Bytes} {cuts : List (Nat × Nat)} {a b : Nat}

theorem hasSep_iff : hasSep separator record = true ↔ separator <:+ record := by
  unfold hasSep
  rw [Bool.and_eq_true, decide_eq_true_eq, beq_iff_eq]
  refine ⟨fun h => suffix_iff_eq_drop.mpr h.2.symm, ?_⟩
  intro h
  exact ⟨h.length_le, (suffix_iff_eq_drop.mp h).symm⟩

theorem moveSep_append (body : Bytes) (first : Bool) :
    moveSep separator (body ++ separator) first = if first then body else separator ++ body := by
  unfold moveSep
  dsimp only
  rw [hasSep_iff.mpr (suffix_append _ _), if_pos rfl, length_append, Nat.add_sub_cancel, take_left]

theorem moveSep_without (h : hasSep separator record = false) (first : Bool) :
    moveSep separator record first = if first then record else separator ++ record := by
  unfold moveSep
  rw [h]
  rfl

theorem hasSep_drop (hpos : 0 < separator.length)
    (h : ∀ s e, a ≤ s → s < e → literalAt separator data s ≠ some e) : hasSep separator (data.drop a) = false := by
  apply Bool.eq_false_iff.mpr
  intro hsep
  obtain ⟨body, hbody⟩ := hasSep_iff.mp hsep
  apply h (a + body.length) _ (Nat.le_add_right _ _) (Nat.lt_add_of_pos_right hpos)
  rw [literalAt_eq_some, ← drop_drop, ← hbody, drop_left]
  exact ⟨prefix_rfl, rfl⟩

theorem segment_literalAt (h : literalAt separator data s = some e) : segment data s e = separator := by
  obtain ⟨⟨rest, hrest⟩, rfl⟩ := literalAt_eq_some.mp h
  unfold Kit.segment
  rw [← hrest, Nat.add_sub_cancel_left, take_left]

theorem segment_record (hle : a ≤ s) (hlt : s < e) (h : literalAt separator data s = some e) :
    segment data a e = segment data a s ++ separator := by
  rw [← segment_append_segment hle (le_of_lt hlt), segment_literalAt h]

theorem attachBefore_rest (hpos : 0 < separator.length) {previous : Bytes}
    (h : Cuts (literalAt separator data) a cuts) (hb : b ≤ a) (hsep : segment data b a = separator)
    (hprevious : hasSep separator previous = true) :
    ((literalRecords data a cuts).map (moveSep separator · false) ++
        if (previous :: literalRecords data a cuts).getLast?.any (hasSep separator) then [separator]
        else []).reverse.flatten =
      (cutAt data b (cuts.map Prod.fst)).reverse.flatten := by
  induction h generalizing b previous with
  | @done a hdone =>
    have hall : separator ++ data.drop a = data.drop b := by rw [← hsep, segment_append_drop hb]
    rw [literalRecords, map_nil, cutAt, ← hall]
    by_cases hnil : data.drop a = []
    · rw [if_pos hnil, hnil, getLast?_singleton, Option.any_some, hprevious, append_nil]
      rfl
    · rw [if_neg hnil, getLast?_cons_cons, getLast?_singleton, Option.any_some, hasSep_drop hpos hdone,
        map_singleton, moveSep_without (hasSep_drop hpos hdone)]
      rfl
  | @next a s e cuts hle hlt hmatch _ hrest ih =>
    have hrecord := segment_record hle hlt hmatch
    have hmoved : separator ++ segment data a s = segment data b s := by rw [← hsep, segment_append_segment hb hle]
    have hnext := ih (le_of_lt hlt) (segment_literalAt hmatch) (hasSep_iff.mpr ⟨segment data a s, hrecord.symm⟩)
    rw [literalRecords, getLast?_cons_cons, map_cons, map_cons, cutAt, cons_append,
      reverse_cons, flatten_append, hnext, hrecord, moveSep_append, reverse_cons, flatten_append,
      ← hmoved]
    rfl

theorem attachBefore_reverse (hpos : 0 < separator.length) (h : Cuts (literalAt separator data) 0 cuts) :
    (attachBefore separator (literalRecords data 0 cuts)).reverse.flatten =
      (cutAt data 0 (cuts.map Prod.fst)).reverse.flatten := by
  cases h with
  | done hdone =>
    rw [literalRecords, map_nil, cutAt]
    by_cases hnil : data.drop 0 = []
    · rw [if_pos hnil, hnil]
      rfl
    · rw [if_neg hnil, attachBefore, moveSep_without (hasSep_drop hpos hdone), getLast?_singleton, Option.any_some,
        hasSep_drop hpos hdone]
      rfl
  | @next _ s e cuts hle hlt hmatch _ hrest =>
    have hrecord := segment_record hle hlt hmatch
    have hnext := attachBefore_rest hpos hrest (le_of_lt hlt) (segment_literalAt hmatch)
      (hasSep_iff.mpr ⟨segment data 0 s, hrecord.symm⟩)
    rw [literalRecords, attachBefore, cons_append, reverse_cons, flatten_append, hnext, hrecord,
      moveSep_append, map_cons, cutAt, reverse_cons, flatten_append]
    rfl

variable {re : Regex}

def recordsFrom (data : Bytes) (a : Nat) : List (Nat × Nat) → List Record
  | [] => []
  | (s, e) :: cuts => ⟨segment data a s, segment data s e⟩ :: recordsFrom data e cuts

def lastRecord (re : Regex) (data : Bytes) (a : Nat) (records : List Record) : List Record :=
  if (re.matchAt data data.length).isSome then []
  else if data.drop a ≠ [] ∨ records ≠ [] then [⟨data.drop a, []⟩] else []

theorem scanRegex_spec {fuel offset a : Nat} {records : List Record} (hfuel : data.length + 1 < offset + fuel)
    (ha : a ≤ offset) (hoffset : offset ≤ data.length + 1)
    (hnone : ∀ s e, a ≤ s → s < offset → s < e → re.matchAt data s ≠ some e)
    (hend : offset = data.length + 1 → (re.matchAt data data.length).isSome) :
    ∃ cuts, Cuts (re.matchAt data) a cuts ∧ scanRegex re data fuel offset a records =
      some (records ++ recordsFrom data a cuts ++
        lastRecord re data (lastEnd a cuts) (records ++ recordsFrom data a cuts)) := by
  induction fuel generalizing offset a records with
  | zero => omega
  | succ fuel ih =>
    rw [scanRegex]
    by_cases hover : data.length < offset
    · refine ⟨[], .done ?_, ?_⟩
      · intro s e hs hlt hmatch
        have hwithin := re.within data hmatch
        exact hnone s e hs (by omega) hlt hmatch
      · rw [if_pos hover, lastRecord, if_pos (hend (by omega)), recordsFrom, append_nil, append_nil]
    · rw [if_neg hover]
      unfold Regex.pcre2Match
      cases hfound : firstMatch (re.matchAt data) (data.length + 1 - offset) offset with
      | none =>
        have hnot : ∀ s, offset ≤ s → s ≤ data.length → re.matchAt data s = none :=
          fun s hs hle => firstMatch_none hfound hs (by omega)
        refine ⟨[], .done ?_, ?_⟩
        · intro s e hs hlt hmatch
          have hwithin := re.within data hmatch
          by_cases hbefore : s < offset
          · exact hnone s e hs hbefore hlt hmatch
          · simp [hnot s (by omega) (by omega)] at hmatch
        · rw [recordsFrom, append_nil, lastRecord, hnot _ (by omega) (le_rfl), if_neg (by decide), lastEnd]
          by_cases hmore : data.drop a ≠ [] ∨ records ≠ []
          · rw [if_pos hmore]
            exact congrArg some (if_pos hmore)
          · rw [if_neg hmore, append_nil]
            exact congrArg some (if_neg hmore)
      | some found =>
        obtain ⟨s, e⟩ := found
        obtain ⟨hle, hmatch, hfirst⟩ := firstMatch_some hfound
        have hwithin := re.within data hmatch
        have hskip : ∀ s' e', a ≤ s' → s' < s → s' < e' → re.matchAt data s' ≠ some e' := by
          intro s' e' hs' hlt hlt' hmatch'
          by_cases hbefore : s' < offset
          · exact hnone s' e' hs' hbefore hlt' hmatch'
          · simp [hfirst s' (by omega) hlt] at hmatch'
        dsimp only
        by_cases hempty : s = e
        · rw [if_pos hempty]
          apply ih (by omega) (by omega) (by omega)
          · intro s' e' hs' hlt hlt' hmatch'
            by_cases heq : s' = s
            · rw [heq, hmatch] at hmatch'
              have := Option.some.inj hmatch'
              omega
            · exact hskip s' e' hs' (by omega) hlt' hmatch'
          · intro hlast
            have hs : s = data.length := by omega
            rw [← hs, hmatch]
            rfl
        · rw [if_neg hempty]
          obtain ⟨cuts, hcuts, hscan⟩ := @ih e e (records ++ [⟨segment data a s, segment data s e⟩]) (by omega)
            (le_rfl) (by omega) (fun s' e' hs' hlt => by omega) (fun hlast => by omega)
          refine ⟨(s, e) :: cuts, .next (by omega) (by omega) hmatch hskip hcuts, ?_⟩
          rw [hscan, append_assoc records, singleton_append, recordsFrom, lastEnd]

/-! ## Writing the records -/

theorem writeRecords_after (h : Cuts (re.matchAt data) a cuts) :
    (recordsFrom data a cuts ++ [(⟨data.drop (lastEnd a cuts), []⟩ : Record)]).map
        (fun record => record.body ++ record.sep) =
      cutAt data a (cuts.map Prod.snd) := by
  induction h with
  | done => exact congrArg (fun piece => [piece]) (append_nil _)
  | next hle hlt _ _ _ ih =>
    rw [recordsFrom, cons_append, map_cons, lastEnd, ih, map_cons, cutAt, segment_append_segment hle (le_of_lt hlt)]

def piecesBefore (sep : Bytes) : List Record → List Bytes
  | [] => []
  | record :: rest => (sep ++ record.body) :: piecesBefore record.sep rest

theorem piecesBefore_concat (sep : Bytes) (records : List Record) (previous record : Record) :
    piecesBefore sep (records ++ [previous] ++ [record]) =
      piecesBefore sep (records ++ [previous]) ++ [previous.sep ++ record.body] := by
  induction records generalizing sep with
  | nil => rfl
  | cons first records ih => exact congrArg ((sep ++ first.body) :: ·) (ih first.sep)

theorem writeBefore_eq (record : Record) (rest : List Record) :
    writeBefore record rest = (piecesBefore [] (rest.reverse ++ [record])).reverse.flatten := by
  induction rest generalizing record with
  | nil => exact (append_nil _).symm
  | cons previous rest ih =>
    rw [writeBefore, ih, reverse_cons, piecesBefore_concat, reverse_append, flatten_append]
    exact congrArg (· ++ _) (append_nil _).symm

theorem piecesBefore_eq (h : Cuts (re.matchAt data) a cuts) (hb : b ≤ a) :
    piecesBefore (segment data b a) (recordsFrom data a cuts ++ [⟨data.drop (lastEnd a cuts), []⟩]) =
      cutAt data b (cuts.map Prod.fst) := by
  induction h generalizing b with
  | done => exact congrArg (fun piece => [piece]) (segment_append_drop hb)
  | next hle hlt _ _ _ ih =>
    rw [recordsFrom, cons_append, piecesBefore, lastEnd, ih (le_of_lt hlt), map_cons, cutAt,
      segment_append_segment hb hle]

theorem writeRecords_concat (before : Bool) (records : List Record) (body : Bytes) :
    (writeRecords before (records ++ [⟨body, []⟩])).length = (writeRecords before records).length + body.length := by
  cases before with
  | false =>
    unfold writeRecords
    rw [if_neg (by decide), if_neg (by decide), reverse_append, map_append, flatten_append, length_append, add_comm]
    refine congrArg (_ + ·) ?_
    rw [reverse_singleton, map_singleton, flatten_singleton, append_nil]
  | true =>
    unfold writeRecords
    rw [if_pos rfl, if_pos rfl, reverse_append, reverse_singleton, singleton_append]
    cases records.reverse with
    | nil => exact (zero_add _).symm
    | cons previous rest =>
      dsimp only
      rw [writeBefore, nil_append, length_append, length_append, length_append]
      dsimp only
      omega

theorem writeRecords_concat_nil (before : Bool) (records : List Record) :
    writeRecords before (records ++ [⟨[], []⟩]) = writeRecords before records := by
  unfold writeRecords
  cases before with
  | false =>
    rw [if_neg (by decide), if_neg (by decide), reverse_append]
    rfl
  | true =>
    rw [if_pos rfl, if_pos rfl, reverse_append, reverse_singleton, singleton_append]
    cases records.reverse with
    | nil => rfl
    | cons previous rest =>
      dsimp only
      rw [writeBefore, nil_append, append_nil]

/-! ## What is written -/

def points (before : Bool) (cuts : List (Nat × Nat)) : List Nat :=
  if before then cuts.map Prod.fst else cuts.map Prod.snd

/-- The pieces in reverse order, each with the separator in front of or behind it -/
def reversePieces (before : Bool) (data : Bytes) (cuts : List (Nat × Nat)) : Bytes :=
  (cutAt data 0 (points before cuts)).reverse.flatten

def Reversed (matchAt : MatchAt) (before : Bool) (data : Bytes) (output : Option Bytes) : Prop :=
  ∃ cuts, Cuts matchAt 0 cuts ∧ output = some (reversePieces before data cuts) ∧
    (reversePieces before data cuts).Perm data

theorem Cuts.reversed {matchAt : MatchAt} {before : Bool} {output : Option Bytes}
    (h : Cuts matchAt 0 cuts) (houtput : output = some (reversePieces before data cuts)) :
    Reversed matchAt before data output := by
  refine ⟨cuts, h, houtput, ?_⟩
  apply cutAt_reverse_perm
  unfold points
  cases before with
  | false => exact h.isChain_ends
  | true => exact h.isChain_starts (Nat.le_refl 0)

theorem writeRecords_eq (before : Bool) (h : Cuts (re.matchAt data) 0 cuts) :
    writeRecords before (recordsFrom data 0 cuts ++ [⟨data.drop (lastEnd 0 cuts), []⟩]) =
      reversePieces before data cuts := by
  unfold writeRecords reversePieces points
  cases before with
  | false => rw [if_neg (by decide), if_neg (by decide), map_reverse, writeRecords_after h]
  | true =>
    rw [if_pos rfl, if_pos rfl, reverse_append, reverse_singleton, singleton_append]
    dsimp only
    rw [writeBefore_eq, reverse_reverse, nil_append, ← piecesBefore_eq h (Nat.le_refl 0), segment_self]

theorem tacFile_reversed (hne : separator ≠ []) (before : Bool) (data : Bytes) :
    Reversed (literalAt separator data) before data (tacFile separator before data) := by
  obtain ⟨cuts, hcuts, hscan⟩ := @scanLiteral_spec separator data hne (data.length + 1) 0 [] (by omega) (Nat.zero_le _)
  apply Cuts.reversed hcuts
  unfold tacFile reversePieces points
  dsimp only
  rw [if_neg hne, hscan, nil_append, Option.map_some]
  cases before with
  | false => rw [if_neg (by simp), literalRecords_reverse, if_neg (by decide)]
  | true => rw [if_pos ⟨rfl, hne⟩, attachBefore_reverse (length_pos_iff.mpr hne) hcuts, if_pos rfl]

def KeepsLast (re : Regex) (data : Bytes) : Prop :=
  re.matchAt data data.length = none ∨ ∃ cuts, Cuts (re.matchAt data) 0 cuts ∧ lastEnd 0 cuts = data.length

variable {pattern : Bytes} {pcre2 : Pcre2}

theorem tacFileRegex_spec (hcompile : pcre2.compile pattern = some re) (before : Bool) (data : Bytes) :
    ∃ cuts, Cuts (re.matchAt data) 0 cuts ∧ tacFileRegex pcre2 pattern before data =
      some (writeRecords before (recordsFrom data 0 cuts ++
        lastRecord re data (lastEnd 0 cuts) (recordsFrom data 0 cuts))) := by
  unfold tacFileRegex
  rw [hcompile]
  dsimp only
  obtain ⟨cuts, hcuts, hscan⟩ := @scanRegex_spec data re (data.length + 2) 0 0 [] (by omega) (le_rfl)
    (Nat.zero_le _) (fun s e _ hlt => absurd hlt (Nat.not_lt_zero s)) (fun hend => by omega)
  refine ⟨cuts, hcuts, ?_⟩
  by_cases hnil : data = []
  · rw [if_pos hnil]
    subst hnil
    cases hcuts with
    | done =>
      unfold lastRecord
      rw [recordsFrom, drop_nil, if_neg (c := _ ∨ _) (fun h => h.elim (absurd rfl) (absurd rfl)), ite_self]
      cases before <;> rfl
    | next _ hlt hmatch =>
      have hwithin := re.within [] hmatch
      rw [length_nil] at hwithin
      omega
  · rw [if_neg hnil, hscan]
    rfl

theorem tacFileRegex_reversed_iff (hcompile : pcre2.compile pattern = some re) (before : Bool) (data : Bytes) :
    Reversed (re.matchAt data) before data (tacFileRegex pcre2 pattern before data) ↔ KeepsLast re data := by
  obtain ⟨cuts, hcuts, houtput⟩ := tacFileRegex_spec hcompile before data
  have hall := writeRecords_eq before hcuts
  have hend := hcuts.lastEnd_le (re.within data) (Nat.zero_le _)
  by_cases hlost : (re.matchAt data data.length).isSome
  · rw [lastRecord, if_pos hlost, append_nil] at houtput
    refine ⟨?_, ?_⟩
    · intro h
      obtain ⟨cuts', hcuts', heq, _⟩ := h
      rw [houtput, ← hcuts.unique hcuts'] at heq
      have hlen := writeRecords_concat before (recordsFrom data 0 cuts) (data.drop (lastEnd 0 cuts))
      rw [hall, ← Option.some.inj heq, length_drop] at hlen
      exact .inr ⟨cuts, hcuts, by omega⟩
    · intro h
      apply Cuts.reversed hcuts
      cases h with
      | inl hnone => simp [hnone] at hlost
      | inr hlast =>
        obtain ⟨cuts', hcuts', hlast⟩ := hlast
        rw [← hcuts.unique hcuts'] at hlast
        rw [houtput, ← hall, hlast, drop_length, writeRecords_concat_nil]
  · refine ⟨fun _ => .inl (Option.not_isSome_iff_eq_none.mp hlost), ?_⟩
    intro _
    apply Cuts.reversed hcuts
    rw [houtput, ← hall, lastRecord, if_neg hlost]
    by_cases hmore : data.drop (lastEnd 0 cuts) ≠ [] ∨ recordsFrom data 0 cuts ≠ []
    · rw [if_pos hmore]
    · rw [if_neg hmore, append_nil, not_not.mp (not_or.mp hmore).1, writeRecords_concat_nil]

structure LosesNothing (pcre2 : Pcre2) (separator : Bytes) (before : Bool) (data : Bytes) : Prop where
  literal : Reversed (literalAt separator data) before data (tacFile separator before data)
  regex : ∀ re, pcre2.compile separator = some re →
    Reversed (re.matchAt data) before data (tacFileRegex pcre2 separator before data)
  plain : MetaFree separator → tacFileRegex pcre2 separator before data = tacFile separator before data

theorem tacFileRegex_plain (pcre2 : Pcre2) (hne : separator ≠ []) (hfree : MetaFree separator) (before : Bool)
    (data : Bytes) : tacFileRegex pcre2 separator before data = tacFile separator before data := by
  obtain ⟨re, hcompile, hmatch⟩ := pcre2.plain hne hfree
  have hnone : re.matchAt data data.length = none := by
    rw [hmatch]
    apply Option.eq_none_iff_forall_ne_some.mpr
    intro e he
    have hwithin := literalAt_within hne he
    obtain ⟨_, heq⟩ := literalAt_eq_some.mp he
    have hpos := length_pos_iff.mpr hne
    omega
  obtain ⟨cuts, hcuts, hregex, _⟩ := (tacFileRegex_reversed_iff hcompile before data).mpr (.inl hnone)
  obtain ⟨cuts', hcuts', hliteral, _⟩ := tacFile_reversed hne before data
  rw [hmatch] at hcuts
  rw [hregex, hliteral, hcuts.unique hcuts']

theorem tacFileRegex_ne_none (pcre2 : Pcre2) (pattern : Bytes) (before : Bool) (data : Bytes) :
    tacFileRegex pcre2 pattern before data ≠ none := by
  cases hcompile : pcre2.compile pattern with
  | none =>
    unfold tacFileRegex
    rw [hcompile]
    exact (nomatch ·)
  | some re =>
    obtain ⟨_, _, houtput⟩ := tacFileRegex_spec hcompile before data
    rw [houtput]
    exact (nomatch ·)

/-- **Main result.** Both scans end, and nothing is lost unless the separator as a regular
expression matches nothing at the end of content that it does not end. -/
theorem losesNothing_iff (pcre2 : Pcre2) (hne : separator ≠ []) (before : Bool) (data : Bytes) :
    (tacFile separator before data ≠ none ∧ tacFileRegex pcre2 separator before data ≠ none) ∧
      (LosesNothing pcre2 separator before data ↔
        ∀ re, pcre2.compile separator = some re → KeepsLast re data) := by
  refine ⟨⟨?_, tacFileRegex_ne_none pcre2 separator before data⟩, ?_, ?_⟩
  · obtain ⟨_, _, houtput, _⟩ := tacFile_reversed hne before data
    rw [houtput]
    exact (nomatch ·)
  · intro h re hcompile
    exact (tacFileRegex_reversed_iff hcompile before data).mp (h.regex re hcompile)
  · intro h
    exact ⟨tacFile_reversed hne before data,
      fun re hcompile => (tacFileRegex_reversed_iff hcompile before data).mpr (h re hcompile),
      fun hfree => tacFileRegex_plain pcre2 hne hfree before data⟩

instance (pattern : Bytes) : Decidable (MetaFree pattern) :=
  List.decidableBAll (· ∉ metacharacters) pattern

def plainRegex (text : Bytes) (h : text ≠ []) : Regex := ⟨literalAt text, fun _ => literalAt_within h⟩

def starRegex (c : UInt8) : Regex where
  matchAt data s := if s ≤ data.length then some (s + ((data.drop s).takeWhile (· == c)).length) else none
  within data s e h := by
    dsimp only at h
    by_cases hle : s ≤ data.length
    · rw [if_pos hle] at h
      have hlen := (List.takeWhile_prefix (l := data.drop s) (· == c)).length_le
      rw [length_drop] at hlen
      have := Option.some.inj h
      omega
    · rw [if_neg hle] at h
      cases h

def smallPcre2 : Pcre2 where
  compile pattern :=
    if h : pattern ≠ [] ∧ MetaFree pattern then some (plainRegex pattern h.1)
    else
      match pattern with
      | [c, 42] => some (starRegex c)
      | _ => none
  plain hne hfree := ⟨plainRegex _ hne, dif_pos ⟨hne, hfree⟩, fun _ => rfl⟩

theorem losesNothing_lines : LosesNothing smallPcre2 [10] false [97, 10, 98] := by
  refine (losesNothing_iff smallPcre2 (by decide) false [97, 10, 98]).2.mpr ?_
  intro re hre
  have hplain : ([10] : Bytes) ≠ [] ∧ MetaFree [10] := by decide
  unfold smallPcre2 at hre
  dsimp only at hre
  rw [dif_pos hplain] at hre
  cases hre
  exact .inl rfl

theorem not_losesNothing_star : ¬LosesNothing smallPcre2 [120, 42] false [97, 98, 99] := by
  intro h
  obtain ⟨cuts, _, houtput, hperm⟩ := h.regex (starRegex 120) rfl
  have hnone : tacFileRegex smallPcre2 [120, 42] false [97, 98, 99] = some [] := by decide
  rw [hnone] at houtput
  rw [← Option.some.inj houtput] at hperm
  exact absurd hperm.length_eq (by decide)

/-! ## Reversing twice -/

section
variable {d : UInt8}

theorem delimited_memmem : delimited d data = (memmem [d] data).elim (if data = [] then [] else [data]) fun off =>
    data.take (off + 1) :: delimited d (data.drop (off + 1)) := by
  induction data with
  | nil => rfl
  | cons c data ih =>
    unfold memmem
    by_cases hc : c = d
    · rw [if_pos (by simp [hc]), delimited, if_pos hc]
      rfl
    · rw [if_neg (by simpa using Ne.symm hc), delimited, if_neg hc, ih]
      cases memmem [d] data with
      | some off => rfl
      | none => cases data <;> rfl

theorem scanLiteral_delimited {fuel offset : Nat} (hfuel : data.length < offset + fuel) (hpos : 0 < fuel)
    (records : List Bytes) :
    scanLiteral [d] data fuel offset records = some (records ++ delimited d (data.drop offset)) := by
  induction fuel generalizing offset records with
  | zero => cases hpos
  | succ fuel ih =>
    unfold scanLiteral
    by_cases hend : data.length ≤ offset
    · rw [if_pos hend, drop_of_length_le hend, delimited, append_nil]
    · rw [if_neg hend, delimited_memmem]
      cases memmem [d] (data.drop offset) with
      | none => simp [hend]
      | some off =>
        dsimp only [Option.elim]
        rw [length_singleton, ih (by omega) (by omega), append_assoc, drop_drop]
        rfl

theorem tacFile_delimited (d : UInt8) (data : Bytes) :
    tacFile [d] false data = some (delimited d data).reverse.flatten := by
  unfold tacFile
  rw [if_neg (cons_ne_nil _ _), scanLiteral_delimited (by omega) (Nat.succ_pos _)]
  rfl

theorem getLast?_reversed (h : d ∈ data) : (delimited d data).reverse.flatten.getLast? = some d := by
  obtain ⟨body, rest, rfl, hbody⟩ := eq_append_cons_of_mem h
  rw [delimited_append hbody, reverse_cons, flatten_append, flatten_singleton, ← append_assoc, getLast?_concat]

theorem getLast?_of_mem_delimited (h : data.getLast? = some d) {record : Bytes} (hrecord : record ∈ delimited d data) :
    record.getLast? = some d := by
  have hsplit := dropLast_append_getLast (ne_nil_of_mem hrecord)
  rw [← hsplit, mem_append, mem_singleton] at hrecord
  cases hrecord with
  | inl hfront => exact getLast?_of_mem_dropLast hfront
  | inr hlast => rw [getLast?_delimited (getLast?_eq_some_getLast _ |>.trans (congrArg some hlast.symm)), h]

end

/-- **Main result.** For a separator of one byte `tac` undoes itself exactly on content that ends with it or lacks it. -/
theorem tacFile_twice (d : UInt8) (data : Bytes) :
    (tacFile [d] false data).bind (tacFile [d] false) = some data ↔ data.getLast? = some d ∨ d ∉ data := by
  rw [tacFile_delimited, Option.bind_some, tacFile_delimited, Option.some_inj]
  refine ⟨?_, ?_⟩
  · intro h
    by_cases hmem : d ∈ data
    · left
      rw [← h]
      exact getLast?_reversed (mem_of_getLast? (getLast?_reversed hmem))
    · exact .inr hmem
  · intro h
    rw [delimited_join, reverse_reverse, delimited_flatten]
    · intro record hrecord
      have hin := mem_reverse.mp hrecord
      exact ⟨fun hnil => nil_notMem_delimited (hnil ▸ hin), notMem_dropLast_of_mem hin⟩
    · intro record hrecord
      cases h with
      | inl hends => exact getLast?_of_mem_delimited hends (mem_reverse.mp (dropLast_subset _ hrecord))
      | inr hnone =>
        by_cases hnil : data = []
        · rw [hnil] at hrecord
          cases hrecord
        · simp [delimited_unterminated hnil hnone] at hrecord

end Bx.Tac
