import Bx.Fetch.ContentDisposition
import Bx.Kit.Utf8

/-!
# Content-Disposition names a file

The decoding of a value is a relation between its text and a name, and at most one value of each kind is taken.
-/

namespace Bx.Fetch.Header
open Kit List

variable {rest : Bytes} {value : HeaderParameterValue} {lead : Lead} {parameter : Parameter} {c : UInt8}

section
variable {malloc : Allocator} {parameters : List Parameter}

/-! ## Values -/

theorem hasSafeFilenameBytes_iff (name : Bytes) :
    spanHasSafeFilenameBytes name = true ↔ name ≠ [] ∧ ∀ c ∈ name, isControl c = false := by
  unfold spanHasSafeFilenameBytes
  rw [Bool.and_eq_true, Bool.not_eq_true', Bool.not_eq_true', isEmpty_eq_false_iff, any_eq_false]
  simp only [Bool.not_eq_true]

theorem unescaped_eq {raw text : Bytes} (h : QuotedText raw text) : unescaped raw = text := by
  induction h with
  | nil => rfl
  | @plain c raw text hcontrol hquote hpair h ih =>
    rw [unescaped.eq_def]
    dsimp only
    rw [if_neg hpair, ih]
  | @pair c raw text hcontrol h ih =>
    have hstep : unescaped (backslash :: c :: raw) = c :: unescaped raw := rfl
    rw [hstep, ih]

def enough : Allocator := fun _ => true

inductive Says : HeaderParameterValue → Bytes → Prop where
  | token {text : Bytes} : Says { span := text, quoted := false } text
  | quoted {raw text : Bytes} (h : QuotedText raw text) : Says { span := raw, quoted := true } text

def SafeName (name : Bytes) : Prop := name ≠ [] ∧ ∀ c ∈ name, isControl c = false

def FilenameValue (value : HeaderParameterValue) (name : Bytes) : Prop := Says value name ∧ SafeName name

theorem decodeParameterValue_iff {text : Bytes} (h : ValueText value text)
    (name : Bytes) : decodeParameterValue enough value = .ok name ↔ FilenameValue value name := by
  have hdecode : ∀ said, (if value.quoted then unescaped value.span else value.span) = said →
      (decodeParameterValue enough value = .ok name ↔ said = name ∧ SafeName name) := by
    intro said hsaid
    have hmemory : ¬¬enough (value.span.length + 1) = true := not_not_intro rfl
    unfold decodeParameterValue
    dsimp only
    rw [if_neg hmemory, hsaid]
    by_cases hsafe : spanHasSafeFilenameBytes said = true
    · rw [if_pos hsafe]
      refine ⟨?_, fun h => congrArg Except.ok h.1⟩
      intro hok
      cases hok
      exact ⟨rfl, (hasSafeFilenameBytes_iff _).mp hsafe⟩
    · rw [if_neg hsafe]
      refine ⟨fun h => (nomatch h), ?_⟩
      intro hand
      obtain ⟨rfl, hname⟩ := hand
      exact absurd ((hasSafeFilenameBytes_iff _).mpr hname) hsafe
  cases h with
  | token htoken =>
    rw [hdecode text rfl]
    refine ⟨?_, ?_⟩
    · intro hand
      obtain ⟨rfl, hname⟩ := hand
      exact ⟨.token, hname⟩
    · intro hand
      obtain ⟨hmeans, hname⟩ := hand
      cases hmeans
      exact ⟨rfl, hname⟩
  | quoted hquoted =>
    rw [hdecode _ (unescaped_eq hquoted)]
    refine ⟨?_, ?_⟩
    · intro hand
      obtain ⟨rfl, hname⟩ := hand
      exact ⟨.quoted hquoted, hname⟩
    · intro hand
      obtain ⟨hmeans, hname⟩ := hand
      cases hmeans with
      | quoted hother => exact ⟨(unescaped_eq hquoted).symm.trans (unescaped_eq hother), hname⟩

/-! ## Extended values -/

inductive PercentText : Bytes → Bytes → Prop where
  | nil : PercentText [] []
  | attr {c : UInt8} {encoded text : Bytes} (hc : asciiIsAttrChar c = true) (h : PercentText encoded text) :
      PercentText (c :: encoded) (c :: text)
  | escape {high low : UInt8} {hi lo : Nat} {encoded text : Bytes} (hhigh : hexValue high = some hi)
      (hlow : hexValue low = some lo) (h : PercentText encoded text) :
      PercentText (percent :: high :: low :: encoded) ((hi * 16 + lo).toUInt8 :: text)

/-- `UTF-8'language'percent-encoded` -/
def ExtendedValue (value : HeaderParameterValue) (name : Bytes) : Prop :=
  ∃ charset language encoded,
    value = { span := charset ++ apostrophe :: (language ++ apostrophe :: encoded), quoted := false } ∧
    charset.map asciiLower = (ascii "UTF-8").map asciiLower ∧ (∀ c ∈ language, isLanguageByte c = true) ∧
    PercentText encoded name ∧ SafeName name ∧ WellFormedUtf8 name

theorem percentDecoded_escape (high low : UInt8) (rest : Bytes) : percentDecoded (percent :: high :: low :: rest) =
      match hexValue high, hexValue low with
      | some hi, some lo => (percentDecoded rest).map ((hi * 16 + lo).toUInt8 :: ·)
      | _, _ => none := rfl

theorem percentDecoded_attr (h : asciiIsAttrChar c = true) (rest : Bytes) :
    percentDecoded (c :: rest) = (percentDecoded rest).map (c :: ·) := by
  have hc : c ≠ percent := by
    intro heq
    rw [heq] at h
    exact absurd h (by decide)
  rw [percentDecoded.eq_def]
  dsimp only
  rw [if_neg hc, if_pos h]

theorem percentDecoded_iff (encoded name : Bytes) : percentDecoded encoded = some name ↔ PercentText encoded name := by
  refine ⟨?_, ?_⟩
  · intro h
    induction encoded using percentDecoded.induct generalizing name with
    | case1 =>
      cases h
      exact .nil
    | case2 high low rest hi lo hlow hhigh ih =>
      rw [percentDecoded_escape, hhigh, hlow] at h
      obtain ⟨text, htext, rfl⟩ := Option.map_eq_some_iff.mp h
      exact .escape hhigh hlow (ih text htext)
    | case3 high low rest hbad =>
      rw [percentDecoded_escape] at h
      split at h
      · rename_i hi lo hhigh hlow
        exact absurd (hbad hi lo hhigh hlow) id
      · cases h
    | case4 rest hshort =>
      cases rest with
      | nil => cases h
      | cons high rest =>
        cases rest with
        | nil => cases h
        | cons low rest => exact absurd rfl (hshort high low rest)
    | case5 c rest hc hattr ih =>
      rw [percentDecoded_attr hattr] at h
      obtain ⟨text, htext, rfl⟩ := Option.map_eq_some_iff.mp h
      exact .attr hattr (ih text htext)
    | case6 c rest hc hattr =>
      rw [percentDecoded.eq_def] at h
      dsimp only at h
      simp [hc, if_neg hattr] at h
  · intro h
    induction h with
    | nil => rfl
    | attr hc h ih =>
      rw [percentDecoded_attr hc, ih]
      rfl
    | escape hhigh hlow h ih =>
      rw [percentDecoded_escape, hhigh, hlow, ih]
      rfl

/-! ## UTF-8 -/

theorem spanIsUtf8_cons (c : UInt8) (value : Bytes) : spanIsUtf8 (c :: value) =
      if c.toNat ≤ 127 then spanIsUtf8 value
      else
        match leadOf c with
        | none => false
        | some lead =>
          match afterLead lead value with
          | none => false
          | some rest => spanIsUtf8 rest := by
  rw [spanIsUtf8.eq_def]
  dsimp only
  by_cases hone : c.toNat ≤ 127
  · rw [if_pos hone, if_pos hone]
  · rw [if_neg hone, if_neg hone]
    cases hlead : leadOf c with
    | none => rfl
    | some lead =>
      dsimp only
      split
      · rename_i hafter
        rw [hafter]
      · rename_i hafter
        rw [hafter]

variable {second : UInt8} {more : Bytes}

theorem afterLead_iff : afterLead lead (second :: more) = some rest ↔ lead.continuationCount ≤ more.length + 1 ∧
      lead.secondMin ≤ second.toNat ∧ second.toNat ≤ lead.secondMax ∧
      (∀ c ∈ more.take (lead.continuationCount - 1), Continuation c) ∧
      more.drop (lead.continuationCount - 1) = rest := by
  have hall : ((more.take (lead.continuationCount - 1)).all fun c => 128 ≤ c.toNat && c.toNat ≤ 191) = true ↔
      ∀ c ∈ more.take (lead.continuationCount - 1), Continuation c := by
    rw [all_eq_true]
    simp only [Bool.and_eq_true, decide_eq_true_eq]
    rfl
  unfold afterLead
  dsimp only
  rw [length_cons]
  by_cases hbad : more.length + 1 < lead.continuationCount ∨ second.toNat < lead.secondMin ∨
      lead.secondMax < second.toNat
  · rw [if_pos hbad]
    refine ⟨fun h => (nomatch h), ?_⟩
    intro h
    omega
  · rw [if_neg hbad]
    by_cases hgood : ∀ c ∈ more.take (lead.continuationCount - 1), Continuation c
    · rw [if_pos (hall.mpr hgood)]
      refine ⟨?_, fun h => congrArg some h.2.2.2.2⟩
      intro h
      exact ⟨by omega, by omega, by omega, hgood, Option.some.inj h⟩
    · rw [if_neg fun h => hgood (hall.mp h)]
      exact ⟨fun h => (nomatch h), fun h => absurd h.2.2.2.1 hgood⟩

theorem spanIsUtf8_lead (hone : ¬c.toNat ≤ 127)
    (hlead : leadOf c = some lead) (hafter : afterLead lead (second :: more) = some rest) :
    spanIsUtf8 (c :: second :: more) = spanIsUtf8 rest := by
  rw [spanIsUtf8_cons, if_neg hone, hlead]
  dsimp only
  rw [hafter]

theorem leadOf_three (hc : 224 ≤ c.toNat ∧ c.toNat ≤ 239) :
    leadOf c = some { continuationCount := 2, secondMin := if c.toNat = 224 then 160 else 128,
                      secondMax := if c.toNat = 237 then 159 else 191 } := by
  unfold leadOf
  rw [if_neg (by omega), if_pos hc]

theorem leadOf_four (hc : 240 ≤ c.toNat ∧ c.toNat ≤ 244) :
    leadOf c = some { continuationCount := 3, secondMin := if c.toNat = 240 then 144 else 128,
                      secondMax := if c.toNat = 244 then 143 else 191 } := by
  unfold leadOf
  rw [if_neg (by omega), if_neg (by omega), if_pos hc]

theorem spanIsUtf8_sequence {sequence : Bytes} (h : Sequence sequence) (rest : Bytes) :
    spanIsUtf8 (sequence ++ rest) = spanIsUtf8 rest := by
  cases h with
  | one hc => exact (spanIsUtf8_cons _ _).trans (if_pos hc)
  | @two c d hc hd =>
    have hafter : afterLead { continuationCount := 1, secondMin := 128, secondMax := 191 } (d :: rest) = some rest := by
      rw [afterLead_iff]
      exact ⟨Nat.le_add_left _ _, hd.1, hd.2, fun x hx => (nomatch hx), rfl⟩
    exact spanIsUtf8_lead (by omega) (if_pos hc) hafter
  | @three c d e hc hd he hlow hsurrogate =>
    unfold Continuation at hd
    refine spanIsUtf8_lead (by omega) (leadOf_three hc) (afterLead_iff.mpr ⟨?_, ?_, ?_, ?_, rfl⟩)
    · exact Nat.le_add_left _ _
    · dsimp only
      split <;> omega
    · dsimp only
      split <;> omega
    · intro x hx
      rw [mem_singleton.mp hx]
      exact he
  | @four c d e f hc hd he hf hlow hhigh =>
    unfold Continuation at hd
    refine spanIsUtf8_lead (by omega) (leadOf_four hc) (afterLead_iff.mpr ⟨?_, ?_, ?_, ?_, rfl⟩)
    · exact Nat.le_add_left _ _
    · dsimp only
      split <;> omega
    · dsimp only
      split <;> omega
    · intro x hx
      cases mem_cons.mp hx with
      | inl heq =>
        rw [heq]
        exact he
      | inr hmem =>
        rw [mem_singleton.mp hmem]
        exact hf

theorem exists_sequence {value : Bytes} (hlead : leadOf c = some lead)
    (hafter : afterLead lead value = some rest) : ∃ more, Sequence (c :: more) ∧ value = more ++ rest := by
  cases value with
  | nil => cases hafter
  | cons second more =>
    rw [afterLead_iff] at hafter
    unfold leadOf at hlead
    by_cases htwo : 194 ≤ c.toNat ∧ c.toNat ≤ 223
    · rw [if_pos htwo] at hlead
      cases hlead
      obtain ⟨_, hmin, hmax, _, rfl⟩ := hafter
      exact ⟨[second], .two htwo ⟨hmin, hmax⟩, rfl⟩
    · rw [if_neg htwo] at hlead
      by_cases hthree : 224 ≤ c.toNat ∧ c.toNat ≤ 239
      · rw [if_pos hthree] at hlead
        cases hlead
        dsimp only at hafter
        obtain ⟨hlength, hmin, hmax, hmore, rfl⟩ := hafter
        match more with
        | [] => exact absurd hlength (by decide)
        | third :: more =>
          have hd : Continuation second := by
            unfold Continuation
            split at hmin <;> split at hmax <;> omega
          refine ⟨[second, third], .three hthree hd (hmore third mem_cons_self) ?_ ?_, rfl⟩
          · intro hc
            rw [if_pos hc] at hmin
            exact hmin
          · intro hc
            rw [if_pos hc] at hmax
            exact hmax
      · rw [if_neg hthree] at hlead
        by_cases hfour : 240 ≤ c.toNat ∧ c.toNat ≤ 244
        · rw [if_pos hfour] at hlead
          cases hlead
          dsimp only at hafter
          obtain ⟨hlength, hmin, hmax, hmore, rfl⟩ := hafter
          match more with
          | [] => exact absurd hlength (by decide)
          | [third] => exact absurd (show 3 ≤ 2 from hlength) (by decide)
          | third :: fourth :: more =>
            have hd : Continuation second := by
              unfold Continuation
              split at hmin <;> split at hmax <;> omega
            refine ⟨[second, third, fourth], .four hfour hd (hmore third mem_cons_self)
              (hmore fourth (mem_cons_of_mem _ mem_cons_self)) ?_ ?_, rfl⟩
            · intro hc
              rw [if_pos hc] at hmin
              exact hmin
            · intro hc
              rw [if_pos hc] at hmax
              exact hmax
        · rw [if_neg hfour] at hlead
          cases hlead

theorem spanIsUtf8_iff (name : Bytes) : spanIsUtf8 name = true ↔ WellFormedUtf8 name := by
  refine ⟨?_, ?_⟩
  · intro h
    induction name using spanIsUtf8.induct with
    | case1 => exact wellFormedUtf8_nil
    | case2 c rest hone ih =>
      rw [spanIsUtf8_cons, if_pos hone] at h
      exact wellFormedUtf8_append (.one hone) (ih h)
    | case3 c rest hone hlead => simp [spanIsUtf8_cons, if_neg hone, hlead] at h
    | case4 c rest hone lead hlead hafter =>
      rw [spanIsUtf8_cons, if_neg hone, hlead] at h
      dsimp only at h
      simp [hafter] at h
    | case5 c rest hone lead hlead left hafter ih =>
      rw [spanIsUtf8_cons, if_neg hone, hlead] at h
      dsimp only at h
      rw [hafter] at h
      obtain ⟨more, hsequence, rfl⟩ := exists_sequence hlead hafter
      exact wellFormedUtf8_append hsequence (ih h)
  · intro h
    obtain ⟨text, rfl⟩ := h
    induction text with
    | nil => rw [flatMap_nil, spanIsUtf8]
    | cons ch text ih =>
      rw [flatMap_cons, spanIsUtf8_sequence ((sequence_iff _).mpr ⟨ch, rfl⟩)]
      exact ih

theorem splitApostrophe_iff {text before after : Bytes} :
    splitApostrophe text = some (before, after) ↔ apostrophe ∉ before ∧ text = before ++ apostrophe :: after := by
  unfold splitApostrophe
  by_cases hmem : apostrophe ∈ text
  · obtain ⟨first, second, rfl, hfirst⟩ := eq_append_cons_of_mem hmem
    obtain ⟨htake, hdrop⟩ := takeWhile_separator hfirst second
    rw [if_pos hmem, htake, hdrop]
    refine ⟨?_, ?_⟩
    · intro h
      cases h
      exact ⟨hfirst, rfl⟩
    · intro h
      obtain ⟨htake', hdrop'⟩ := takeWhile_separator h.1 after
      rw [← h.2, htake] at htake'
      rw [← h.2, hdrop] at hdrop'
      cases htake'
      cases hdrop'
      rfl
  · rw [if_neg hmem]
    refine ⟨fun h => (nomatch h), ?_⟩
    intro h
    rw [h.2] at hmem
    exact absurd (mem_append_right _ mem_cons_self) hmem

theorem apostrophe_notMem {charset : Bytes} (h : charset.map asciiLower = (ascii "UTF-8").map asciiLower) :
    apostrophe ∉ charset := by
  intro hmem
  have hlower : asciiLower apostrophe ∈ charset.map asciiLower := mem_map_of_mem hmem
  rw [h] at hlower
  exact absurd hlower (by decide)

theorem apostrophe_notMem_language {language : Bytes} (h : ∀ c ∈ language, isLanguageByte c = true) :
    apostrophe ∉ language := by
  intro hmem
  exact absurd (h apostrophe hmem) (by decide)

theorem decodeEncoded_iff (encoded name : Bytes) :
    decodeEncoded encoded = .ok name ↔ PercentText encoded name ∧ SafeName name ∧ WellFormedUtf8 name := by
  unfold decodeEncoded
  rw [← percentDecoded_iff]
  cases percentDecoded encoded with
  | none => exact ⟨fun h => (nomatch h), fun h => (nomatch h.1)⟩
  | some decoded =>
    have hchecks : (spanHasSafeFilenameBytes decoded = true ∧ spanIsUtf8 decoded = true) ↔
        SafeName decoded ∧ WellFormedUtf8 decoded :=
      and_congr (hasSafeFilenameBytes_iff decoded) (spanIsUtf8_iff decoded)
    dsimp only
    by_cases hgood : spanHasSafeFilenameBytes decoded = true ∧ spanIsUtf8 decoded = true
    · rw [if_pos hgood]
      refine ⟨?_, fun h => congrArg Except.ok (Option.some.inj h.1)⟩
      intro h
      cases h
      exact ⟨rfl, hchecks.mp hgood⟩
    · rw [if_neg hgood]
      refine ⟨fun h => (nomatch h), ?_⟩
      intro h
      obtain ⟨hname, hrest⟩ := h
      cases hname
      exact absurd (hchecks.mpr hrest) hgood

theorem decodeExtendedFilename_iff (value : HeaderParameterValue) (name : Bytes) :
    decodeExtendedFilename enough value = .ok name ↔ ExtendedValue value name := by
  refine ⟨?_, ?_⟩
  · intro h
    unfold decodeExtendedFilename at h
    by_cases hquoted : value.quoted = true
    · simp [hquoted] at h
    · rw [if_neg hquoted] at h
      cases hfirst : splitApostrophe value.span with
      | none => simp [hfirst] at h
      | some first =>
        rw [hfirst] at h
        dsimp only at h
        cases hsecond : splitApostrophe first.2 with
        | none => simp [hsecond] at h
        | some second =>
          rw [hsecond] at h
          dsimp only at h
          by_cases hcharset : spanEqualsCase first.1 (ascii "UTF-8") = true
          · by_cases hlanguage : second.1.all isLanguageByte = true
            · rw [if_neg (not_not_intro hcharset), if_neg (not_not_intro hlanguage),
                if_neg (not_not_intro (show enough _ = true from rfl)), decodeEncoded_iff] at h
              have hspan := (splitApostrophe_iff.mp hfirst).2
              rw [(splitApostrophe_iff.mp hsecond).2] at hspan
              refine ⟨first.1, second.1, second.2, ?_, (spanEqualsCase_iff _ _).mp hcharset,
                all_eq_true.mp hlanguage, h⟩
              rw [← hspan, ← Bool.eq_false_iff.mpr hquoted]
            · rw [if_neg (not_not_intro hcharset), if_pos hlanguage] at h
              cases h
          · rw [if_pos hcharset] at h
            cases h
  · intro h
    obtain ⟨charset, language, encoded, rfl, hcharset, hlanguage, hgood⟩ := h
    have hfirst := @splitApostrophe_iff _ _ (language ++ apostrophe :: encoded) |>.mpr ⟨apostrophe_notMem hcharset, rfl⟩
    have hsecond := @splitApostrophe_iff _ _ encoded |>.mpr ⟨apostrophe_notMem_language hlanguage, rfl⟩
    have hcase := (spanEqualsCase_iff charset (ascii "UTF-8")).mpr hcharset
    unfold decodeExtendedFilename
    dsimp only
    rw [if_neg Bool.false_ne_true, hfirst]
    dsimp only
    rw [hsecond]
    dsimp only
    rw [if_neg (not_not_intro hcase), if_neg (not_not_intro (all_eq_true.mpr hlanguage)),
      if_neg (not_not_intro (show enough _ = true from rfl)), decodeEncoded_iff]
    exact hgood

/-! ## Which names there are -/

def Present (Value : HeaderParameterValue → Bytes → Prop) (values : List HeaderParameterValue) : Option Bytes → Prop
  | none => values = []
  | some name => ∃ value, values = [value] ∧ Value value name

def filenames (parameters : List Parameter) : List HeaderParameterValue := (parameters.filter isFilename).map Prod.snd

def extendedFilenames (parameters : List Parameter) : List HeaderParameterValue :=
  (parameters.filter isExtendedFilename).map Prod.snd

def Joins (Value : HeaderParameterValue → Bytes → Prop) (start : Option Bytes) (values : List HeaderParameterValue)
    (final : Option Bytes) : Prop :=
  match start with
  | none => Present Value values final
  | some _ => values = [] ∧ final = start

variable {Value : HeaderParameterValue → Bytes → Prop} {start final : Option Bytes}

theorem joins_nil : Joins Value start [] final ↔ start = final := by
  cases start with
  | none =>
    cases final with
    | none => exact iff_of_true rfl rfl
    | some name => exact iff_of_false (fun ⟨_, h, _⟩ => (nomatch h)) (fun h => (nomatch h))
  | some name => exact ⟨fun h => h.2.symm, fun h => ⟨rfl, h.symm⟩⟩

theorem joins_cons {values : List HeaderParameterValue} : Joins Value start (value :: values) final ↔
      start = none ∧ ∃ name, Value value name ∧ Joins Value (some name) values final := by
  cases start with
  | some name => exact iff_of_false (fun h => (nomatch h.1)) (fun h => (nomatch h.1))
  | none =>
    cases final with
    | none => exact iff_of_false (fun h => (nomatch h)) (fun ⟨_, _, _, h⟩ => (nomatch h.2))
    | some name =>
      refine ⟨?_, ?_⟩
      · intro h
        obtain ⟨only, hvalues, hname⟩ := h
        cases hvalues
        exact ⟨rfl, name, hname, rfl, rfl⟩
      · intro h
        obtain ⟨_, other, hother, rfl, hsame⟩ := h
        cases hsame
        exact ⟨value, rfl, hother⟩

theorem not_both (h : isFilename parameter = true) : isExtendedFilename parameter = false := by
  apply Bool.eq_false_iff.mpr
  intro hextended
  have hfirst := (spanEqualsCase_iff _ _).mp h
  have hsecond := (spanEqualsCase_iff _ _).mp hextended
  rw [hfirst] at hsecond
  exact absurd hsecond (by decide)

theorem takeParameter_other (h : isFilename parameter = false)
    (hextended : isExtendedFilename parameter = false) (found : Found) :
    takeParameter malloc found parameter = .ok found :=
  if_pos ⟨Bool.eq_false_iff.mp h, Bool.eq_false_iff.mp hextended⟩

theorem takeParameter_filename (h : isFilename parameter = true) (found : Found) :
    takeParameter malloc found parameter =
      if found.filename.isSome = true then .error .invalid
      else (decodeParameterValue malloc parameter.2).map fun decoded => { found with filename := some decoded } := by
  have hextended := not_both h
  unfold takeParameter
  rw [h, hextended, if_neg fun hand => hand.1 rfl]
  by_cases hseen : found.filename.isSome = true
  · rw [if_pos (.inl ⟨rfl, hseen⟩), if_pos hseen]
  · have hfresh : ¬(true = true ∧ found.filename.isSome = true ∨
        false = true ∧ found.extendedFilename.isSome = true) := by
      intro hor
      cases hor with
      | inl hand => exact hseen hand.2
      | inr hand => exact Bool.false_ne_true hand.1
    rw [if_neg hfresh, if_neg Bool.false_ne_true, if_neg hseen]
    cases decodeParameterValue malloc parameter.2 <;> rfl

theorem takeParameter_extended (h : isExtendedFilename parameter = true) (found : Found) :
    takeParameter malloc found parameter =
      if found.extendedFilename.isSome = true then .error .invalid
      else (decodeExtendedFilename malloc parameter.2).map fun decoded =>
        { found with extendedFilename := some decoded } := by
  have hplain : isFilename parameter = false := by
    apply Bool.eq_false_iff.mpr
    intro hplain
    rw [not_both hplain] at h
    exact Bool.false_ne_true h
  unfold takeParameter
  rw [h, hplain, if_neg fun hand => hand.2 rfl]
  by_cases hseen : found.extendedFilename.isSome = true
  · rw [if_pos (.inr ⟨rfl, hseen⟩), if_pos hseen]
  · have hfresh : ¬(false = true ∧ found.filename.isSome = true ∨
        true = true ∧ found.extendedFilename.isSome = true) := by
      intro hor
      cases hor with
      | inl hand => exact Bool.false_ne_true hand.1
      | inr hand => exact hseen hand.2
    rw [if_neg hfresh, if_pos rfl, if_neg hseen]
    cases decodeExtendedFilename malloc parameter.2 <;> rfl

theorem step_iff {decoded : Except DecodeError Bytes} {keep : Bytes → Found} {next : Found → Except DecodeError Found}
    {final : Found} (hvalue : ∀ name, decoded = .ok name ↔ Value value name) :
    ((if start.isSome = true then .error .invalid else decoded.map keep) >>= next) = .ok final ↔
      start = none ∧ ∃ name, Value value name ∧ next (keep name) = .ok final := by
  cases start with
  | some name => exact iff_of_false (fun h => (nomatch h)) (fun h => (nomatch h.1))
  | none =>
    cases decoded with
    | error error =>
      refine iff_of_false (fun h => (nomatch h)) ?_
      intro h
      obtain ⟨_, name, hname, _⟩ := h
      exact absurd ((hvalue name).mpr hname) (fun h => (nomatch h))
    | ok found =>
      refine ⟨fun h => ⟨rfl, found, (hvalue found).mp rfl, h⟩, ?_⟩
      intro h
      obtain ⟨_, name, hname, hnext⟩ := h
      cases (hvalue name).mpr hname
      exact hnext

theorem takeParameters_iff (hvalues : ∀ parameter ∈ parameters, ∃ text, ValueText parameter.2 text)
    {found final : Found} :
    parameters.foldlM (takeParameter enough) found = .ok final ↔
      Joins FilenameValue found.filename (filenames parameters) final.filename ∧
        Joins ExtendedValue found.extendedFilename (extendedFilenames parameters) final.extendedFilename := by
  induction parameters generalizing found with
  | nil =>
    unfold filenames extendedFilenames
    rw [filter_nil, filter_nil, map_nil, joins_nil, joins_nil]
    refine ⟨?_, ?_⟩
    · intro h
      cases h
      exact ⟨rfl, rfl⟩
    · intro h
      cases found
      cases final
      cases h.1
      cases h.2
      rfl
  | cons parameter parameters ih =>
    obtain ⟨text, htext⟩ := hvalues parameter mem_cons_self
    have hrest := @ih fun p hp => hvalues p (mem_cons_of_mem _ hp)
    rw [foldlM_cons]
    unfold filenames extendedFilenames at hrest ⊢
    by_cases hname : isFilename parameter = true
    · rw [takeParameter_filename hname, filter_cons_of_pos hname,
        filter_cons_of_neg (Bool.eq_false_iff.mp (not_both hname)), map_cons, joins_cons,
        step_iff (decodeParameterValue_iff htext)]
      simp only [hrest]
      refine ⟨?_, ?_⟩
      · intro h
        obtain ⟨hnone, name, hvalue, hnext, hextended⟩ := h
        exact ⟨⟨hnone, name, hvalue, hnext⟩, hextended⟩
      · intro h
        obtain ⟨⟨hnone, name, hvalue, hnext⟩, hextended⟩ := h
        exact ⟨hnone, name, hvalue, hnext, hextended⟩
    · by_cases hextended : isExtendedFilename parameter = true
      · rw [takeParameter_extended hextended, filter_cons_of_pos hextended, filter_cons_of_neg hname,
          map_cons, joins_cons, step_iff (decodeExtendedFilename_iff parameter.2)]
        simp only [hrest]
        refine ⟨?_, ?_⟩
        · intro h
          obtain ⟨hnone, name, hvalue, hplain, hnext⟩ := h
          exact ⟨hplain, hnone, name, hvalue, hnext⟩
        · intro h
          obtain ⟨hplain, hnone, name, hvalue, hnext⟩ := h
          exact ⟨hnone, name, hvalue, hplain, hnext⟩
      · rw [takeParameter_other (Bool.eq_false_iff.mpr hname) (Bool.eq_false_iff.mpr hextended),
          filter_cons_of_neg hname, filter_cons_of_neg hextended]
        exact hrest

end

/-! ## The function -/

/-- A value of these parameters, of which at most one is each kind of name, and both say one -/
def Disposition (value : Bytes) (filename extendedFilename : Option Bytes) : Prop :=
  ∃ parameters, HeaderValue parameters value ∧ Present FilenameValue (filenames parameters) filename ∧
    Present ExtendedValue (extendedFilenames parameters) extendedFilename

section
variable {parameters : List Parameter} {cursor value : Bytes}

theorem Parameters.valueTexts (h : Parameters parameters cursor) :
    ∀ parameter ∈ parameters, ∃ text, ValueText parameter.2 text := by
  induction h with
  | nil h => exact fun _ hmem => absurd hmem not_mem_nil
  | cons ha hb hc hd hname hvalue hrest ih =>
    intro parameter hmem
    cases mem_cons.mp hmem with
    | inl heq =>
      rw [heq]
      exact ⟨_, hvalue⟩
    | inr hmem => exact ih parameter hmem

theorem Parameters.tokenEnds (h : Parameters parameters cursor) : TokenEnds cursor :=
  tokenEnds_of_atParameter h.atParameter

theorem contentDispositionFilename_eq (malloc : Allocator) (h : HeaderValue parameters value) :
    contentDispositionFilename malloc value =
      takeParameters malloc { filename := none, extendedFilename := none } parameters := by
  obtain ⟨blank, disposition, rest, hblank, htoken, hparameters, rfl⟩ := h
  unfold contentDispositionFilename
  rw [skipOws_append hblank, skipOws_token htoken, parseTokenSpan_token htoken hparameters.tokenEnds]
  exact parameterLoop_eq hparameters _

variable {malloc : Allocator}

theorem exists_headerValue (h : contentDispositionFilename malloc value ≠ .invalid)
    (hmemory : contentDispositionFilename malloc value ≠ .outOfMemory) :
    ∃ parameters, HeaderValue parameters value := by
  obtain ⟨blank, hblank, hvalue⟩ := exists_blank value
  unfold contentDispositionFilename at h hmemory
  cases hparse : parseTokenSpan (skipOws value) with
  | none =>
    rw [hparse] at h
    exact absurd rfl h
  | some token =>
    rw [hparse] at h hmemory
    obtain ⟨parameters, hparameters⟩ := exists_parameters h hmemory
    obtain ⟨htoken, hsplit⟩ := token_of_parseTokenSpan hparse
    obtain ⟨after, hafter, hrest⟩ := exists_blank token.2
    have hall := hparameters.blank_append hafter
    rw [← hrest] at hall
    rw [hsplit] at hvalue
    exact ⟨parameters, blank, token.1, token.2, hblank, htoken, hall, hvalue⟩

variable {filename extendedFilename : Option Bytes}

theorem contentDispositionFilename_present (h : Disposition value filename extendedFilename) :
    contentDispositionFilename enough value = finish { filename, extendedFilename } := by
  obtain ⟨parameters, hvalue, hfilename, hextended⟩ := h
  have hvalues : ∀ parameter ∈ parameters, ∃ text, ValueText parameter.2 text := by
    obtain ⟨_, _, _, _, _, hparameters, _⟩ := hvalue
    exact hparameters.valueTexts
  have hall := (@takeParameters_iff _ hvalues { filename := none, extendedFilename := none }
    { filename, extendedFilename }).mpr ⟨hfilename, hextended⟩
  rw [contentDispositionFilename_eq enough hvalue]
  unfold takeParameters
  rw [hall]

theorem exists_disposition (h : contentDispositionFilename enough value ≠ .invalid)
    (hmemory : contentDispositionFilename enough value ≠ .outOfMemory) :
    ∃ filename extendedFilename, Disposition value filename extendedFilename := by
  obtain ⟨parameters, hvalue⟩ := exists_headerValue h hmemory
  have hvalues : ∀ parameter ∈ parameters, ∃ text, ValueText parameter.2 text := by
    obtain ⟨_, _, _, _, _, hparameters, _⟩ := hvalue
    exact hparameters.valueTexts
  rw [contentDispositionFilename_eq enough hvalue] at h hmemory
  unfold takeParameters at h hmemory
  cases hfold : parameters.foldlM (takeParameter enough) { filename := none, extendedFilename := none } with
  | error error =>
    rw [hfold] at h hmemory
    cases error with
    | invalid => exact absurd rfl h
    | outOfMemory => exact absurd rfl hmemory
  | ok final =>
    obtain ⟨hfilename, hextended⟩ := (takeParameters_iff hvalues).mp hfold
    exact ⟨final.filename, final.extendedFilename, parameters, hvalue, hfilename, hextended⟩

/-! ## Memory -/

/-- With less memory the result is the same or `full`, which it is not with more. -/
def SameOrFull {α : Type} (full less more : α) : Prop := more ≠ full ∧ (less = full ∨ less = more)

theorem sameOrFull_refl {α : Type} {full result : α} (h : result ≠ full) : SameOrFull full result result :=
  ⟨h, .inr rfl⟩

theorem sameOrFull_if {size : Nat} {result : Except DecodeError Bytes} (h : result ≠ .error .outOfMemory) :
    SameOrFull (.error .outOfMemory) (if ¬malloc size then .error .outOfMemory else result)
      (if ¬enough size then .error .outOfMemory else result) := by
  rw [if_neg (not_not_intro (show enough size = true from rfl))]
  refine ⟨h, ?_⟩
  by_cases hmemory : malloc size = true
  · exact .inr (if_neg (not_not_intro hmemory))
  · exact .inl (if_pos hmemory)

theorem decodeParameterValue_memory (malloc : Allocator) (value : HeaderParameterValue) :
    SameOrFull (.error .outOfMemory) (decodeParameterValue malloc value) (decodeParameterValue enough value) := by
  unfold decodeParameterValue
  dsimp only
  apply sameOrFull_if
  generalize (if value.quoted = true then unescaped value.span else value.span) = decoded
  cases spanHasSafeFilenameBytes decoded with
  | false => exact fun h => (nomatch h)
  | true => exact fun h => (nomatch h)

theorem decodeExtendedFilename_memory (malloc : Allocator) (value : HeaderParameterValue) :
    SameOrFull (.error .outOfMemory) (decodeExtendedFilename malloc value) (decodeExtendedFilename enough value) := by
  have hinvalid : SameOrFull (Except.error DecodeError.outOfMemory) (.error .invalid)
      (.error .invalid : Except _ Bytes) :=
    sameOrFull_refl fun h => (nomatch h)
  unfold decodeExtendedFilename
  split
  · exact hinvalid
  · split
    · exact hinvalid
    · split
      · exact hinvalid
      · split
        · exact hinvalid
        · split
          · exact hinvalid
          · rename_i encoded _ _ _
            apply sameOrFull_if
            unfold decodeEncoded
            cases percentDecoded encoded with
            | none => exact fun h => (nomatch h)
            | some decoded =>
              dsimp only
              split
              · exact fun h => (nomatch h)
              · exact fun h => (nomatch h)

theorem SameOrFull.map {less more : Except DecodeError Bytes} (h : SameOrFull (.error .outOfMemory) less more)
    (seen : Bool) (keep : Bytes → Found) :
    SameOrFull (.error .outOfMemory) (if seen = true then .error .invalid else less.map keep)
      (if seen = true then .error .invalid else more.map keep) := by
  cases seen with
  | true => exact sameOrFull_refl fun h => (nomatch h)
  | false =>
    obtain ⟨hne, hless⟩ := h
    refine ⟨?_, hless.imp (fun h => by rw [h]; rfl) (fun h => by rw [h])⟩
    cases more with
    | ok decoded => exact fun h => (nomatch h)
    | error error =>
      intro h
      cases h
      exact hne rfl

theorem takeParameter_memory (malloc : Allocator) (found : Found) (parameter : Parameter) :
    SameOrFull (.error .outOfMemory) (takeParameter malloc found parameter) (takeParameter enough found parameter) := by
  by_cases hname : isFilename parameter = true
  · rw [takeParameter_filename hname, takeParameter_filename hname]
    exact (decodeParameterValue_memory malloc parameter.2).map _ _
  · by_cases hextended : isExtendedFilename parameter = true
    · rw [takeParameter_extended hextended, takeParameter_extended hextended]
      exact (decodeExtendedFilename_memory malloc parameter.2).map _ _
    · have hother := @takeParameter_other
      rw [hother (Bool.eq_false_iff.mpr hname) (Bool.eq_false_iff.mpr hextended),
        hother (Bool.eq_false_iff.mpr hname) (Bool.eq_false_iff.mpr hextended)]
      exact sameOrFull_refl fun h => (nomatch h)

theorem parameterLoop_nil (found : Found) : parameterLoop malloc found [] = finish found := by
  rw [parameterLoop.eq_def]

theorem finish_kinds (found : Found) : finish found ≠ .outOfMemory ∧ finish found ≠ .invalid := by
  obtain ⟨filename, extendedFilename⟩ := found
  cases extendedFilename <;> cases filename <;> exact ⟨fun h => (nomatch h), fun h => (nomatch h)⟩

theorem parameterLoop_memory (malloc : Allocator) (found : Found) (cursor : Bytes) :
    SameOrFull .outOfMemory (parameterLoop malloc found cursor) (parameterLoop enough found cursor) := by
  induction found, cursor using parameterLoop.induct enough with
  | case1 found =>
    rw [parameterLoop_nil, parameterLoop_nil]
    exact sameOrFull_refl (finish_kinds found).1
  | case2 found c cursor hother =>
    rw [parameterLoop_other hother, parameterLoop_other hother]
    exact sameOrFull_refl (by intro h; cases h)
  | case3 found c cursor hsemicolon hparse =>
    rw [not_not.mp hsemicolon, parameterLoop_semicolon, parameterLoop_semicolon, hparse]
    exact sameOrFull_refl (by intro h; cases h)
  | case4 found c cursor hsemicolon parameter rest hparse error htake =>
    obtain ⟨hne, hmemory⟩ := takeParameter_memory malloc found parameter
    rw [not_not.mp hsemicolon, parameterLoop_semicolon, parameterLoop_semicolon, hparse]
    dsimp only
    rw [htake] at hne hmemory ⊢
    have hinvalid : error = .invalid := by
      cases error with
      | invalid => rfl
      | outOfMemory => exact absurd rfl hne
    rw [hinvalid] at hmemory ⊢
    refine ⟨(by intro h; cases h), hmemory.imp (fun h => by rw [h]; rfl) (fun h => by rw [h])⟩
  | case5 found c cursor hsemicolon parameter rest hparse found' htake ih =>
    obtain ⟨_, hmemory⟩ := takeParameter_memory malloc found parameter
    rw [not_not.mp hsemicolon, parameterLoop_semicolon, parameterLoop_semicolon, hparse]
    dsimp only
    rw [htake] at hmemory ⊢
    cases hmemory with
    | inl hfull =>
      rw [hfull]
      exact ⟨ih.1, .inl rfl⟩
    | inr hsame =>
      rw [hsame]
      exact ih

theorem contentDispositionFilename_memory (malloc : Allocator) (value : Bytes) :
    SameOrFull .outOfMemory (contentDispositionFilename malloc value) (contentDispositionFilename enough value) := by
  unfold contentDispositionFilename
  cases parseTokenSpan (skipOws value) with
  | none => exact sameOrFull_refl fun h => (nomatch h)
  | some token => exact parameterLoop_memory malloc _ _

theorem finish_eq_filename (filename extendedFilename : Option Bytes) (name : Bytes) :
    finish { filename, extendedFilename } = .filename name ↔ extendedFilename.or filename = some name := by
  cases extendedFilename with
  | some extended => exact ⟨fun h => by cases h; rfl, fun h => by cases h; rfl⟩
  | none =>
    cases filename with
    | some plain => exact ⟨fun h => by cases h; rfl, fun h => by cases h; rfl⟩
    | none => exact iff_of_false (fun h => (nomatch h)) (fun h => (nomatch h))

theorem finish_eq_none (filename extendedFilename : Option Bytes) :
    finish { filename, extendedFilename } = .none ↔ filename = none ∧ extendedFilename = none := by
  cases extendedFilename with
  | some extended => exact iff_of_false (fun h => (nomatch h)) (fun h => (nomatch h.2))
  | none =>
    cases filename with
    | some plain => exact iff_of_false (fun h => (nomatch h)) (fun h => (nomatch h.1))
    | none => exact iff_of_true rfl ⟨rfl, rfl⟩

theorem contentDispositionFilename_iff {result : ContentDispositionResult} (hresult : result ≠ .invalid) :
    contentDispositionFilename enough value = result ↔
      ∃ filename extendedFilename, Disposition value filename extendedFilename ∧
        finish { filename, extendedFilename } = result := by
  refine ⟨?_, ?_⟩
  · intro h
    rw [← h] at hresult
    obtain ⟨filename, extendedFilename, hdisposition⟩ :=
      exists_disposition hresult (contentDispositionFilename_memory enough value).1
    exact ⟨filename, extendedFilename, hdisposition, (contentDispositionFilename_present hdisposition).symm.trans h⟩
  · intro h
    obtain ⟨filename, extendedFilename, hdisposition, hfinish⟩ := h
    rw [contentDispositionFilename_present hdisposition, hfinish]

theorem Disposition.safeName (h : Disposition value filename extendedFilename)
    {name : Bytes} (hname : extendedFilename.or filename = some name) :
    SafeName name ∧ (extendedFilename = some name → WellFormedUtf8 name) := by
  obtain ⟨parameters, hvalue, hfilename, hextended⟩ := h
  cases extendedFilename with
  | some extended =>
    cases hname
    obtain ⟨_, _, _, _, _, _, _, _, _, hsafe, hutf8⟩ := hextended
    exact ⟨hsafe, fun _ => hutf8⟩
  | none =>
    cases filename with
    | none => cases hname
    | some plain =>
      cases hname
      obtain ⟨_, _, _, hsafe⟩ := hfilename
      exact ⟨hsafe, fun h => (nomatch h)⟩

end

/-- **Main result.** A value is read as the grammar says: which name it has, that it has none, or that it is no such
value. The name of `filename*` is taken before that of `filename`; it is UTF-8, and either name has a byte and no
control bytes. Short of memory the result is that of enough memory, or says so. -/
theorem contentDispositionFilename_spec (value : Bytes) :
    (∀ name, contentDispositionFilename enough value = .filename name ↔
      ∃ filename extendedFilename, Disposition value filename extendedFilename ∧
        extendedFilename.or filename = some name ∧ SafeName name ∧
          (extendedFilename = some name → WellFormedUtf8 name)) ∧
    (contentDispositionFilename enough value = .none ↔ Disposition value none none) ∧
    (contentDispositionFilename enough value = .invalid ↔
      ¬∃ filename extendedFilename, Disposition value filename extendedFilename) ∧
    ∀ malloc, contentDispositionFilename malloc value = .outOfMemory ∨
      contentDispositionFilename malloc value = contentDispositionFilename enough value := by
  refine ⟨?_, ?_, ?_, ?_⟩
  · intro name
    have hvalid : ContentDispositionResult.filename name ≠ .invalid := fun h => (nomatch h)
    rw [contentDispositionFilename_iff hvalid]
    simp only [finish_eq_filename]
    refine ⟨?_, ?_⟩
    · intro h
      obtain ⟨filename, extendedFilename, hdisposition, hname⟩ := h
      exact ⟨filename, extendedFilename, hdisposition, hname, hdisposition.safeName hname⟩
    · intro h
      obtain ⟨filename, extendedFilename, hdisposition, hname, _⟩ := h
      exact ⟨filename, extendedFilename, hdisposition, hname⟩
  · have hvalid : ContentDispositionResult.none ≠ .invalid := fun h => (nomatch h)
    rw [contentDispositionFilename_iff hvalid]
    simp only [finish_eq_none]
    refine ⟨?_, ?_⟩
    · intro h
      obtain ⟨_, _, hdisposition, rfl, rfl⟩ := h
      exact hdisposition
    · intro h
      exact ⟨none, none, h, rfl, rfl⟩
  · refine ⟨?_, ?_⟩
    · intro h hexists
      obtain ⟨filename, extendedFilename, hdisposition⟩ := hexists
      rw [contentDispositionFilename_present hdisposition] at h
      exact (finish_kinds _).2 h
    · intro h
      apply Classical.byContradiction
      intro hvalid
      exact h (exists_disposition hvalid (contentDispositionFilename_memory enough value).1)
  · intro malloc
    exact (contentDispositionFilename_memory malloc value).2

/-- A blank before the disposition is passed over, where the grammar begins with the token. -/
theorem contentDispositionFilename_leading_blank : contentDispositionFilename enough [32, 97] = .none ∧
      ¬∃ disposition rest parameters, Token disposition ∧ Parameters parameters rest ∧
        [32, 97] = disposition ++ rest := by
  refine ⟨?_, ?_⟩
  · have hparse : parseTokenSpan (skipOws [32, 97]) = some ([97], []) := by decide
    unfold contentDispositionFilename
    rw [hparse]
    exact parameterLoop_nil _
  · intro h
    obtain ⟨disposition, rest, parameters, htoken, _, hsplit⟩ := h
    obtain ⟨c, tail, rfl, hc⟩ := exists_cons_of_token htoken
    rw [← (List.cons.inj hsplit).1] at hc
    exact absurd hc (by decide)

end Bx.Fetch.Header
