import Bx.Fetch.Pathmap

/-!
# Local paths do not collide

Every name that a component is given can be read back, and the names hold no slash, so that two URLs of a host never get
the same path.
-/

namespace Bx.Fetch
open Kit List

variable {a b base file localPath : Bytes} {url : CanonicalUrl} {parts : List Bytes} {cfg : PathmapConfig}
variable {modes : RestrictFileNameModes} {c : UInt8}

/-! ## Safe names -/

def isPlainByte (modes : RestrictFileNameModes) (c : UInt8) : Bool :=
  !(isControl c || c = slash || (modes.windowsMode && isWindowsReservedChar c))

structure SafeName (modes : RestrictFileNameModes) (name : Bytes) : Prop where
  nonempty : name ≠ []
  notDot : name ≠ ascii "."
  notDotDot : name ≠ ascii ".."
  noSlash : slash ∉ name
  noControl : ∀ c ∈ name, isControl c = false
  windows : modes.windowsMode = true → (∀ c ∈ name, isWindowsReservedChar c = false) ∧ name.getLast? ≠ some dot ∧
    name.getLast? ≠ some space ∧ isWindowsDeviceName name = false

variable {name : Bytes}

theorem not_isWindowsDeviceName (h : name.head? = some 64) : isWindowsDeviceName name = false := by
  obtain ⟨rest, rfl⟩ : ∃ rest, name = 64 :: rest := by
    cases name with
    | nil => cases h
    | cons c rest =>
      cases h
      exact ⟨rest, rfl⟩
  unfold isWindowsDeviceName
  have hprefix : ((((64 : UInt8) :: rest).rdropWhile fun c => c = dot || c = space).takeWhile (· ≠ dot)) <+: 64 :: rest :=
    (List.takeWhile_prefix _).trans (List.rdropWhile_prefix _ _)
  generalize (((64 : UInt8) :: rest).rdropWhile fun c => c = dot || c = space).takeWhile (· ≠ dot) = base at hprefix
  cases base with
  | nil => rfl
  | cons c base =>
    have hc : c = 64 := (cons_prefix_cons.mp hprefix).1
    rw [hc]
    have hup : toupper 64 = 64 := by decide
    have hhead : ∀ s ∈ ["CON", "PRN", "AUX", "NUL", "COM", "LPT"], (ascii s).head? ≠ some 64 := by decide
    have hne : ∀ s ∈ ["CON", "PRN", "AUX", "NUL", "COM", "LPT"], ∀ more : Bytes, (64 : UInt8) :: more ≠ ascii s := by
      intro s hs more heq
      exact hhead s hs (heq ▸ rfl)
    dsimp only
    split
    · rw [map_cons, hup, decide_eq_false (hne _ (by decide) _), decide_eq_false (hne _ (by decide) _),
        decide_eq_false (hne _ (by decide) _), decide_eq_false (hne _ (by decide) _)]
      rfl
    · split
      · rw [take_succ_cons, map_cons, hup, decide_eq_false (hne _ (by decide) _),
          decide_eq_false (hne _ (by decide) _)]
        rfl
      · rfl

inductive SanitizedAs (modes : RestrictFileNameModes) (component name : Bytes) : Prop
  | empty : component = [] → name = emptySegmentToken → SanitizedAs modes component name
  | encoded : component ≠ [] → name = encodeComponent component encodedSegmentPrefix →
      SanitizedAs modes component name
  | dots (count : Nat) : 0 < count → component = replicate count dot →
      name = dotSegmentPrefix ++ numeral 10 count → SanitizedAs modes component name
  | dotted (count : Nat) (payload : Bytes) : 0 < count → payload ≠ [] →
      component = replicate count dot ++ payload → componentNeedsEncoding component modes = false →
      name = dotSegmentPrefix ++ numeral 10 count ++ ascii "@" ++ payload → SanitizedAs modes component name
  | literal : reservedSegmentPrefix <+: component → componentNeedsEncoding component modes = false →
      name = escapedSegmentPrefix ++ component → SanitizedAs modes component name
  | plain : ¬reservedSegmentPrefix <+: component → componentNeedsEncoding component modes = false →
      name = component → SanitizedAs modes component name

theorem sanitizedAs (modes : RestrictFileNameModes) (component : Bytes) :
    SanitizedAs modes component (sanitizeUnder modes component) := by
  unfold sanitizeUnder
  by_cases hempty : component = []
  · rw [if_pos hempty]
    exact .empty hempty rfl
  · rw [if_neg hempty]
    cases hneeds : componentNeedsEncoding component modes with
    | true =>
      rw [if_pos rfl]
      exact .encoded hempty rfl
    | false =>
      rw [if_neg Bool.false_ne_true]
      dsimp only
      have hsplit : component = (component.takeWhile (· = dot)) ++ component.dropWhile (· = dot) :=
        takeWhile_append_dropWhile.symm
      have hdots : component.takeWhile (· = dot) = replicate (component.takeWhile (· = dot)).length dot := by
        apply eq_replicate_of_mem
        intro c hc
        simpa using mem_takeWhile_imp hc
      have hdrop : component.drop (component.takeWhile (· = dot)).length = component.dropWhile (· = dot) :=
        (congrArg (drop _) hsplit).trans drop_left
      cases hmode : restrictModesEnabled modes with
      | false =>
        rw [if_neg Bool.false_ne_true, if_neg (lt_irrefl 0), drop_zero]
        split
        · exact .literal ‹_› hneeds rfl
        · exact .plain ‹_› hneeds rfl
      | true =>
        rw [if_pos rfl, hdrop]
        by_cases hcount : 0 < (component.takeWhile (· = dot)).length
        · rw [if_pos hcount]
          split
          · rename_i hpayload
            rw [hpayload, append_nil] at hsplit
            exact .dots _ hcount (hsplit.trans hdots) rfl
          · rename_i hpayload
            rw [hdots] at hsplit
            exact .dotted _ _ hcount hpayload hsplit hneeds rfl
        · rw [if_neg hcount]
          have hnone : component.takeWhile (· = dot) = [] := eq_nil_of_length_eq_zero (Nat.eq_zero_of_not_pos hcount)
          rw [hnone, nil_append] at hsplit
          rw [← hsplit]
          split
          · exact .literal ‹_› hneeds rfl
          · exact .plain ‹_› hneeds rfl

/-! ## Names are safe -/

theorem emptySegmentToken_eq : emptySegmentToken = reservedSegmentPrefix ++ ascii "empty" := by decide

theorem escapedSegmentPrefix_eq : escapedSegmentPrefix = reservedSegmentPrefix ++ ascii "literal@" := by decide

theorem encodedSegmentPrefix_eq : encodedSegmentPrefix = reservedSegmentPrefix ++ ascii "encoded@" := by decide

theorem dotSegmentPrefix_eq : dotSegmentPrefix = reservedSegmentPrefix ++ ascii "dot" := by decide

theorem querySegmentPrefix_eq : querySegmentPrefix = reservedSegmentPrefix ++ ascii "query@" := by decide

theorem isPlainByte_of_strict (modes : RestrictFileNameModes) (h : isPlainByte ⟨false, true⟩ c = true) :
    isPlainByte modes c = true := by
  unfold isPlainByte at h ⊢
  simp only [Bool.true_and, Bool.not_eq_true', Bool.or_eq_false_iff] at h ⊢
  refine ⟨h.1, ?_⟩
  rw [h.2, Bool.and_false]

variable {tag : Bytes}

theorem plain_of_all (modes : RestrictFileNameModes)
    (h : (tag.all fun c => isPlainByte ⟨false, true⟩ c && c != dot && c != space) = true) :
    ∀ c ∈ tag, isPlainByte modes c = true ∧ c ≠ dot ∧ c ≠ space := by
  intro c hc
  have hbyte := all_eq_true.mp h c hc
  rw [Bool.and_eq_true, Bool.and_eq_true, bne_iff_ne, bne_iff_ne] at hbyte
  exact ⟨isPlainByte_of_strict modes hbyte.1.1, hbyte.1.2, hbyte.2⟩

set_option maxRecDepth 4000 in
theorem isPlainByte_of_mem_hexText (modes : RestrictFileNameModes) {bytes : Bytes} (h : c ∈ hexText bytes) :
    isPlainByte modes c = true ∧ c ≠ dot ∧ c ≠ space := by
  have hall : ∀ n, n < 256 → IsHexDigit (UInt8.ofNat n) →
      isPlainByte ⟨false, true⟩ (UInt8.ofNat n) = true ∧ UInt8.ofNat n ≠ dot ∧ UInt8.ofNat n ≠ space := by decide
  obtain ⟨hplain, hother⟩ := forall_byte
    (P := fun c => IsHexDigit c → isPlainByte ⟨false, true⟩ c = true ∧ c ≠ dot ∧ c ≠ space) hall c
    (isHexDigit_of_mem_hexText h)
  exact ⟨isPlainByte_of_strict modes hplain, hother⟩

set_option maxRecDepth 4000 in
theorem isPlainByte_of_mem_numeral (modes : RestrictFileNameModes) {n : Nat} (h : c ∈ numeral 10 n) :
    isPlainByte modes c = true ∧ c ≠ dot ∧ c ≠ space := by
  have hall : ∀ n, n < 256 → isDigit 10 (UInt8.ofNat n) = true →
      isPlainByte ⟨false, true⟩ (UInt8.ofNat n) = true ∧ UInt8.ofNat n ≠ dot ∧ UInt8.ofNat n ≠ space := by decide
  obtain ⟨hplain, hother⟩ := forall_byte
    (P := fun c => isDigit 10 c = true → isPlainByte ⟨false, true⟩ c = true ∧ c ≠ dot ∧ c ≠ space) hall c
    (isDigit_of_mem_numeral (by decide) (by decide) h)
  exact ⟨isPlainByte_of_strict modes hplain, hother⟩

structure Unencoded (modes : RestrictFileNameModes) (component : Bytes) : Prop where
  nonempty : component ≠ []
  notDot : component ≠ ascii "."
  notDotDot : component ≠ ascii ".."
  plain : ∀ c ∈ component, isPlainByte modes c = true
  windows : modes.windowsMode = true →
    component.getLast? ≠ some dot ∧ component.getLast? ≠ some space ∧ isWindowsDeviceName component = false

theorem unencoded_of_not_needs {component : Bytes}
    (h : componentNeedsEncoding component modes = false) : Unencoded modes component := by
  unfold componentNeedsEncoding at h
  split at h
  · cases h
  · rename_i hspecial
    split at h
    · cases h
    · rename_i hwindows
      simp only [Bool.or_eq_true, decide_eq_true_eq, not_or] at hspecial
      refine ⟨hspecial.1.1, hspecial.1.2, hspecial.2, ?_, ?_⟩
      · intro c hc
        unfold isPlainByte
        rw [Bool.not_eq_true']
        exact Bool.eq_false_iff.mpr (any_eq_false.mp h c hc)
      · intro hmode
        rw [hmode] at hwindows
        simp only [Bool.true_and, Bool.or_eq_true, decide_eq_true_eq, not_or, Bool.not_eq_true] at hwindows
        exact ⟨hwindows.1.1, hwindows.1.2, hwindows.2⟩

theorem noSlash_of_plain (h : ∀ c ∈ name, isPlainByte modes c = true) :
    slash ∉ name ∧ (∀ c ∈ name, isControl c = false) ∧
      (modes.windowsMode = true → ∀ c ∈ name, isWindowsReservedChar c = false) := by
  have hparts : ∀ c ∈ name, isControl c = false ∧ c ≠ slash ∧ (modes.windowsMode && isWindowsReservedChar c) = false := by
    intro c hc
    have hplain := h c hc
    unfold isPlainByte at hplain
    simp only [Bool.not_eq_true', Bool.or_eq_false_iff, decide_eq_false_iff_not] at hplain
    exact ⟨hplain.1.1, hplain.1.2, hplain.2⟩
  refine ⟨fun hmem => (hparts slash hmem).2.1 rfl, fun c hc => (hparts c hc).1, ?_⟩
  intro hmode c hc
  have hreserved := (hparts c hc).2.2
  rwa [hmode, Bool.true_and] at hreserved

variable {rest start : Bytes}

theorem safeName_of_reserved (hplain : ∀ c ∈ rest, isPlainByte modes c = true)
    (hlast : modes.windowsMode = true → rest.getLast? ≠ some dot ∧ rest.getLast? ≠ some space) :
    SafeName modes (reservedSegmentPrefix ++ rest) := by
  have hhead : (reservedSegmentPrefix ++ rest).head? = some 64 := by
    rw [head?_append]
    rfl
  have hall : ∀ c ∈ reservedSegmentPrefix ++ rest, isPlainByte modes c = true := by
    intro c hc
    cases mem_append.mp hc with
    | inl hstart =>
      have htag : ∀ c ∈ reservedSegmentPrefix, _ := plain_of_all modes (by decide)
      exact (htag c hstart).1
    | inr hrest => exact hplain c hrest
  obtain ⟨hslash, hcontrol, hreserved⟩ := noSlash_of_plain hall
  refine ⟨?_, ?_, ?_, hslash, hcontrol, ?_⟩
  · intro h
    simp [h] at hhead
  · intro h
    rw [h] at hhead
    revert hhead
    decide
  · intro h
    rw [h] at hhead
    revert hhead
    decide
  · intro hmode
    obtain ⟨hdot, hspace⟩ := hlast hmode
    have hend : (reservedSegmentPrefix ++ rest).getLast? = rest.getLast?.or (some 64) := by
      rw [getLast?_append]
      rfl
    refine ⟨hreserved hmode, ?_, ?_, not_isWindowsDeviceName hhead⟩
    · rw [hend]
      cases hl : rest.getLast? with
      | none => decide
      | some c =>
        rw [hl] at hdot
        exact hdot
    · rw [hend]
      cases hl : rest.getLast? with
      | none => decide
      | some c =>
        rw [hl] at hspace
        exact hspace

theorem getLast?_ne_of_notMem (h : c ∉ rest) : rest.getLast? ≠ some c :=
  fun hlast => h (mem_of_getLast? hlast)

theorem safeName_sanitizeUnder (modes : RestrictFileNameModes) (component : Bytes) :
    SafeName modes (sanitizeUnder modes component) := by
  have htag : ∀ tag ∈ [ascii "empty", ascii "literal@", ascii "encoded@", ascii "dot", ascii "@"], ∀ c ∈ tag,
      isPlainByte modes c = true ∧ c ≠ dot ∧ c ≠ space := by
    intro tag hmem
    have hall : ∀ tag ∈ [ascii "empty", ascii "literal@", ascii "encoded@", ascii "dot", ascii "@"],
        (tag.all fun c => isPlainByte ⟨false, true⟩ c && c != dot && c != space) = true := by decide
    exact plain_of_all modes (hall tag hmem)
  cases sanitizedAs modes component with
  | empty _ hname =>
    rw [hname, emptySegmentToken_eq]
    apply safeName_of_reserved
    · intro c hc
      exact (htag _ (by simp) c hc).1
    · intro _
      decide
  | encoded _ hname =>
    have hbyte : ∀ c ∈ ascii "encoded@" ++ hexText component, isPlainByte modes c = true ∧ c ≠ dot ∧ c ≠ space := by
      intro c hc
      cases mem_append.mp hc with
      | inl h => exact htag _ (by simp) c h
      | inr h => exact isPlainByte_of_mem_hexText modes h
    unfold encodeComponent at hname
    rw [hname, encodedSegmentPrefix_eq, append_assoc]
    apply safeName_of_reserved
    · intro c hc
      exact (hbyte c hc).1
    · intro _
      exact ⟨getLast?_ne_of_notMem fun h => (hbyte _ h).2.1 rfl, getLast?_ne_of_notMem fun h => (hbyte _ h).2.2 rfl⟩
  | dots count _ _ hname =>
    have hbyte : ∀ c ∈ ascii "dot" ++ numeral 10 count, isPlainByte modes c = true ∧ c ≠ dot ∧ c ≠ space := by
      intro c hc
      cases mem_append.mp hc with
      | inl h => exact htag _ (by simp) c h
      | inr h => exact isPlainByte_of_mem_numeral modes h
    rw [hname, dotSegmentPrefix_eq, append_assoc]
    apply safeName_of_reserved
    · intro c hc
      exact (hbyte c hc).1
    · intro _
      exact ⟨getLast?_ne_of_notMem fun h => (hbyte _ h).2.1 rfl, getLast?_ne_of_notMem fun h => (hbyte _ h).2.2 rfl⟩
  | dotted count payload _ hpayload hcomponent hneeds hname =>
    have hunencoded := unencoded_of_not_needs hneeds
    rw [hname, dotSegmentPrefix_eq, append_assoc, append_assoc, append_assoc]
    apply safeName_of_reserved
    · intro c hc
      cases mem_append.mp hc with
      | inl h => exact (htag _ (by simp) c h).1
      | inr h =>
        cases mem_append.mp h with
        | inl h => exact (isPlainByte_of_mem_numeral modes h).1
        | inr h =>
          cases mem_append.mp h with
          | inl h => exact (htag _ (by simp) c h).1
          | inr h =>
            apply hunencoded.plain
            rw [hcomponent]
            exact mem_append_right _ h
    · intro hmode
      have hlast : component.getLast? = payload.getLast? := by
        rw [hcomponent]
        exact getLast?_append_of_ne_nil _ hpayload
      obtain ⟨hdot, hspace, _⟩ := hunencoded.windows hmode
      rw [← append_assoc, ← append_assoc, getLast?_append_of_ne_nil _ hpayload, ← hlast]
      exact ⟨hdot, hspace⟩
  | literal _ hneeds hname =>
    have hunencoded := unencoded_of_not_needs hneeds
    rw [hname, escapedSegmentPrefix_eq, append_assoc]
    apply safeName_of_reserved
    · intro c hc
      cases mem_append.mp hc with
      | inl h => exact (htag _ (by simp) c h).1
      | inr h => exact hunencoded.plain c h
    · intro hmode
      obtain ⟨hdot, hspace, _⟩ := hunencoded.windows hmode
      rw [getLast?_append_of_ne_nil _ hunencoded.nonempty]
      exact ⟨hdot, hspace⟩
  | plain _ hneeds hname =>
    have hunencoded := unencoded_of_not_needs hneeds
    obtain ⟨hslash, hcontrol, hreserved⟩ := noSlash_of_plain hunencoded.plain
    rw [hname]
    refine ⟨hunencoded.nonempty, hunencoded.notDot, hunencoded.notDotDot, hslash, hcontrol, ?_⟩
    intro hmode
    exact ⟨hreserved hmode, hunencoded.windows hmode⟩

/-! ## Reading a name back -/

def stripPrefix (start name : Bytes) : Option Bytes := if start <+: name then some (name.drop start.length) else none

@[simp] theorem stripPrefix_append (start rest : Bytes) : stripPrefix start (start ++ rest) = some rest := by
  unfold stripPrefix
  rw [if_pos (prefix_append start rest), drop_left]

theorem stripPrefix_other (hstart : start ≠ []) (htag : tag ≠ []) (h : start.head? ≠ tag.head?)
    (rest : Bytes) : stripPrefix start (tag ++ rest) = none := by
  unfold stripPrefix
  rw [if_neg]
  intro hprefix
  cases start with
  | nil => exact hstart rfl
  | cons c start =>
    cases tag with
    | nil => exact htag rfl
    | cons d tag => exact h (congrArg some (cons_prefix_cons.mp hprefix).1)

def unsanitize (name : Bytes) : Bytes :=
  match stripPrefix reservedSegmentPrefix name with
  | none => name
  | some tagged =>
    match stripPrefix (ascii "literal@") tagged with
    | some payload => payload
    | none =>
      match stripPrefix (ascii "encoded@") tagged with
      | some digits => (unhex digits).getD []
      | none =>
        match stripPrefix (ascii "dot") tagged with
        | some rest =>
          replicate (numeralValue 10 0 (rest.takeWhile (isDigit 10))) dot ++ (rest.dropWhile (isDigit 10)).drop 1
        | none => []

theorem unsanitize_empty : unsanitize emptySegmentToken = [] := by decide

theorem unsanitize_encoded (component : Bytes) :
    unsanitize (encodeComponent component encodedSegmentPrefix) = component := by
  have hliteral : stripPrefix (ascii "literal@") (ascii "encoded@" ++ hexText component) = none :=
    stripPrefix_other (by decide) (by decide) (by decide) _
  unfold unsanitize encodeComponent
  rw [encodedSegmentPrefix_eq, append_assoc, stripPrefix_append]
  dsimp only
  rw [hliteral, stripPrefix_append]
  dsimp only
  rw [unhex_hexText]
  rfl

theorem unsanitize_literal (component : Bytes) : unsanitize (escapedSegmentPrefix ++ component) = component := by
  unfold unsanitize
  rw [escapedSegmentPrefix_eq, append_assoc, stripPrefix_append]
  dsimp only
  rw [stripPrefix_append]

theorem unsanitize_dots (count : Nat) (rest : Bytes) (h : ∀ c, rest.head? = some c → isDigit 10 c = false) :
    unsanitize (dotSegmentPrefix ++ numeral 10 count ++ rest) = replicate count dot ++ rest.drop 1 := by
  have hliteral : stripPrefix (ascii "literal@") (ascii "dot" ++ (numeral 10 count ++ rest)) = none :=
    stripPrefix_other (by decide) (by decide) (by decide) _
  have hencoded : stripPrefix (ascii "encoded@") (ascii "dot" ++ (numeral 10 count ++ rest)) = none :=
    stripPrefix_other (by decide) (by decide) (by decide) _
  have hdigits : ∀ c ∈ numeral 10 count, isDigit 10 c = true := fun c => isDigit_of_mem_numeral (by decide) (by decide)
  have hnone : rest.takeWhile (isDigit 10) = [] ∧ rest.dropWhile (isDigit 10) = rest := by
    cases rest with
    | nil => exact ⟨rfl, rfl⟩
    | cons c rest =>
      have hc := h c rfl
      rw [takeWhile_cons_of_neg (by rw [hc]; decide), dropWhile_cons_of_neg (by rw [hc]; decide)]
      exact ⟨rfl, rfl⟩
  unfold unsanitize
  rw [dotSegmentPrefix_eq, append_assoc, append_assoc, stripPrefix_append]
  dsimp only
  rw [hliteral]
  dsimp only
  rw [hencoded]
  dsimp only
  rw [stripPrefix_append]
  dsimp only
  rw [takeWhile_append_of_pos hdigits, dropWhile_append_of_pos hdigits, hnone.1, hnone.2, append_nil,
    numeralValue_numeral (by decide) (by decide)]

theorem unsanitize_sanitizeUnder (modes : RestrictFileNameModes) (component : Bytes) :
    unsanitize (sanitizeUnder modes component) = component := by
  cases sanitizedAs modes component with
  | empty hcomponent hname =>
    rw [hname, hcomponent]
    exact unsanitize_empty
  | encoded _ hname =>
    rw [hname]
    exact unsanitize_encoded component
  | dots count _ hcomponent hname =>
    have hread := unsanitize_dots count [] (fun c hc => by cases hc)
    rw [hname, hcomponent]
    rw [append_nil, drop_nil, append_nil] at hread
    exact hread
  | dotted count payload _ _ hcomponent _ hname =>
    have hread := unsanitize_dots count (ascii "@" ++ payload) (by
      intro c hc
      have hc64 : c = 64 := by
        cases hc
        rfl
      rw [hc64]
      decide)
    rw [hname, hcomponent, append_assoc, hread]
    rfl
  | literal _ _ hname =>
    rw [hname]
    exact unsanitize_literal component
  | plain hplain _ hname =>
    rw [hname]
    unfold unsanitize stripPrefix
    rw [if_neg hplain]

theorem sanitizeUnder_injective (modes : RestrictFileNameModes)
    (h : sanitizeUnder modes a = sanitizeUnder modes b) : a = b := by
  rw [← unsanitize_sanitizeUnder modes a, h, unsanitize_sanitizeUnder]

/-! ## Paths and their parts -/

def underParts (parts : List Bytes) (file : Bytes) : Bytes := (parts.flatMap fun part => part ++ [slash]) ++ file

theorem underParts_cons (part : Bytes) (parts : List Bytes) (file : Bytes) :
    underParts (part :: parts) file = part ++ slash :: underParts parts file := by
  unfold underParts
  rw [flatMap_cons, append_assoc, append_assoc]
  rfl

theorem underParts_append (parts parts' : List Bytes) (file : Bytes) :
    underParts (parts ++ parts') file = (parts.flatMap fun part => part ++ [slash]) ++ underParts parts' file := by
  unfold underParts
  rw [flatMap_append, append_assoc]

theorem splitOn_underParts (hparts : ∀ part ∈ parts, slash ∉ part)
    (hfile : slash ∉ file) : (underParts parts file).splitOn slash = parts ++ [file] := by
  induction parts with
  | nil => exact splitOn_eq_singleton hfile
  | cons part parts ih =>
    rw [underParts_cons, splitOn_append_cons_self_of_not_mem (hparts part mem_cons_self),
      ih (fun p hp => hparts p (mem_cons_of_mem _ hp))]
    rfl

theorem exists_underParts (path : Bytes) :
    ∃ parts file, path = underParts parts file ∧ (∀ part ∈ parts, slash ∉ part) ∧ slash ∉ file := by
  induction path with
  | nil => exact ⟨[], [], rfl, fun part h => absurd h not_mem_nil, not_mem_nil⟩
  | cons c path ih =>
    obtain ⟨parts, file, rfl, hparts, hfile⟩ := ih
    by_cases hc : c = slash
    · refine ⟨[] :: parts, file, ?_, ?_, hfile⟩
      · rw [underParts_cons, hc]
        rfl
      · intro part hpart
        cases mem_cons.mp hpart with
        | inl h => exact h ▸ not_mem_nil
        | inr h => exact hparts part h
    · cases parts with
      | nil =>
        refine ⟨[], c :: file, rfl, hparts, ?_⟩
        exact not_mem_cons_of_ne_of_not_mem (Ne.symm hc) hfile
      | cons first parts =>
        refine ⟨(c :: first) :: parts, file, ?_, ?_, hfile⟩
        · rw [underParts_cons, underParts_cons]
          rfl
        · intro part hpart
          cases mem_cons.mp hpart with
          | inl h =>
            rw [h]
            exact not_mem_cons_of_ne_of_not_mem (Ne.symm hc) (hparts first mem_cons_self)
          | inr h => exact hparts part (mem_cons_of_mem _ h)

theorem rtakeWhile_underParts (hfile : slash ∉ file) (parts : List Bytes) :
    (slash :: underParts parts file).rtakeWhile (· ≠ slash) = file := by
  have hstart : ∃ start, slash :: underParts parts file = start ++ slash :: file := by
    induction parts with
    | nil => exact ⟨[], rfl⟩
    | cons part parts ih =>
      obtain ⟨start, hstart⟩ := ih
      refine ⟨slash :: part ++ start, ?_⟩
      rw [underParts_cons, hstart, cons_append, cons_append, append_assoc]
  have hreverse : ∀ c ∈ file.reverse, (c ≠ slash : Bool) = true := by
    intro c hc
    have hne : c ≠ slash := fun h => hfile (h ▸ mem_reverse.mp hc)
    simpa using hne
  obtain ⟨start, hpath⟩ := hstart
  unfold rtakeWhile
  rw [hpath, reverse_append, reverse_cons, append_assoc, takeWhile_append_of_pos hreverse]
  rw [singleton_append, takeWhile_cons_of_neg (by simp), append_nil, reverse_reverse]

theorem intercalate_append_slash {segments : List Bytes} (h : segments ≠ []) :
    intercalate [slash] segments ++ [slash] = segments.flatMap fun part => part ++ [slash] := by
  induction segments with
  | nil => exact absurd rfl h
  | cons segment segments ih =>
    cases segments with
    | nil => rw [intercalate_singleton, flatMap_cons, flatMap_nil, append_nil]
    | cons next rest =>
      rw [intercalate_cons_cons, append_assoc, ih (cons_ne_nil _ _)]
      rfl

section
variable {cfg : PathmapConfig} {modes : RestrictFileNameModes} (hmodes : parseRestrictModes cfg = some modes)
include hmodes

theorem sanitizeComponent_eq (component : Bytes) :
    sanitizeComponent component cfg = some (sanitizeUnder modes component) := by
  unfold sanitizeComponent
  split
  · rename_i hempty
    unfold sanitizeUnder
    rw [if_pos hempty]
  · rw [hmodes]
    rfl

theorem directorySegments_eq (skip : Nat) (parts : List Bytes) (file : Bytes) :
    directorySegments cfg skip (parts ++ [file]) = some ((parts.drop skip).map (sanitizeUnder modes)) := by
  induction parts generalizing skip with
  | nil =>
    rw [drop_nil]
    cases skip <;> rfl
  | cons part parts ih =>
    obtain ⟨next, rest, hrest⟩ : ∃ next rest, parts ++ [file] = next :: rest :=
      exists_cons_of_ne_nil (by simp)
    rw [cons_append, hrest]
    cases skip with
    | zero =>
      have hzero := ih 0
      rw [hrest, drop_zero] at hzero
      unfold directorySegments
      rw [sanitizeComponent_eq hmodes, hzero]
      rfl
    | succ skip =>
      unfold directorySegments
      rw [← hrest, ih skip]
      rfl

theorem withSlash_directoryPart (hparts : ∀ part ∈ parts, slash ∉ part) (hfile : slash ∉ file) :
    buildDirectoryPart (slash :: underParts parts file) cfg ≠ some [] ∧
      withSlash (buildDirectoryPart (slash :: underParts parts file) cfg) =
        ((parts.drop cfg.cutDirs.toNat).map (sanitizeUnder modes)).flatMap fun part => part ++ [slash] := by
  have hdrop : dropLeadingSlash (slash :: underParts parts file) = underParts parts file := rfl
  unfold buildDirectoryPart
  rw [hdrop, splitOn_underParts hparts hfile, directorySegments_eq hmodes]
  cases hsegments : (parts.drop cfg.cutDirs.toNat).map (sanitizeUnder modes) with
  | nil => exact ⟨by simp, rfl⟩
  | cons segment segments =>
    refine ⟨?_, ?_⟩
    · intro h
      have hnil := Option.some.inj h
      have hsafe : segment ≠ [] := by
        obtain ⟨part, _, rfl⟩ := mem_map.mp (hsegments ▸ mem_cons_self : segment ∈ _)
        exact (safeName_sanitizeUnder modes part).nonempty
      have hlast := intercalate_append_slash (cons_ne_nil segment segments)
      rw [hnil, nil_append, flatMap_cons] at hlast
      cases segment with
      | nil => exact hsafe rfl
      | cons c segment =>
        have hlength := congrArg List.length hlast
        simp at hlength
    · exact intercalate_append_slash (cons_ne_nil segment segments)

/-! ## Files and their queries -/

def fileName (modes : RestrictFileNameModes) (query : Option Bytes) (base : Bytes) : Bytes :=
  match query with
  | none => sanitizeUnder modes base
  | some query => querySegmentPrefix ++ hexText query ++ ascii "@" ++ sanitizeUnder modes base

theorem urlBasename_eq (url : ParsedUrl) {path : Bytes} (hpath : url.path = some path) (query : Option Bytes) :
    urlBasename url query cfg = some (fileName modes query
      (if path.rtakeWhile (· ≠ slash) = [] then defaultPageName cfg else path.rtakeWhile (· ≠ slash))) := by
  have hbase : pathBasename url.path (defaultPageName cfg) cfg = some (sanitizeUnder modes
      (if path.rtakeWhile (· ≠ slash) = [] then defaultPageName cfg else path.rtakeWhile (· ≠ slash))) := by
    unfold pathBasename
    rw [hpath]
    dsimp only
    split
    · exact sanitizeComponent_eq hmodes _
    · rw [sanitizeComponent_eq hmodes]
      dsimp only
      rw [if_neg (safeName_sanitizeUnder modes _).nonempty]
  unfold urlBasename
  rw [hbase]
  cases query with
  | none => rfl
  | some query => rfl

end

theorem stripQuery_sanitizeUnder (modes : RestrictFileNameModes) (component : Bytes) :
    stripPrefix querySegmentPrefix (sanitizeUnder modes component) = none := by
  have hother : ∀ tag ∈ [ascii "empty", ascii "literal@", ascii "encoded@", ascii "dot"], ∀ rest : Bytes,
      stripPrefix querySegmentPrefix (reservedSegmentPrefix ++ (tag ++ rest)) = none := by
    intro tag htag rest
    have hheads : ∀ tag ∈ [ascii "empty", ascii "literal@", ascii "encoded@", ascii "dot"],
        tag ≠ [] ∧ (ascii "query@").head? ≠ tag.head? := by decide
    obtain ⟨hne, hhead⟩ := hheads tag htag
    have htagged := stripPrefix_other (by decide) hne hhead rest
    unfold stripPrefix at htagged ⊢
    rw [if_neg]
    intro hquery
    rw [querySegmentPrefix_eq, prefix_append_right_inj] at hquery
    simp [hquery] at htagged
  cases sanitizedAs modes component with
  | empty _ hname =>
    have h := hother (ascii "empty") (by simp) []
    rw [append_nil] at h
    rw [hname, emptySegmentToken_eq]
    exact h
  | encoded _ hname =>
    unfold encodeComponent at hname
    rw [hname, encodedSegmentPrefix_eq, append_assoc]
    exact hother _ (by simp) _
  | dots count _ _ hname =>
    rw [hname, dotSegmentPrefix_eq, append_assoc]
    exact hother _ (by simp) _
  | dotted count payload _ _ _ _ hname =>
    rw [hname, dotSegmentPrefix_eq, append_assoc, append_assoc, append_assoc]
    exact hother _ (by simp) _
  | literal _ _ hname =>
    rw [hname, escapedSegmentPrefix_eq, append_assoc]
    exact hother _ (by simp) _
  | plain hplain _ hname =>
    unfold stripPrefix
    rw [if_neg]
    intro hprefix
    rw [hname, querySegmentPrefix_eq] at hprefix
    exact hplain ((prefix_append _ _).trans hprefix)

theorem fileName_injective (modes : RestrictFileNameModes) {query query' : Option Bytes} {base' : Bytes}
    (h : fileName modes query base = fileName modes query' base') : query = query' ∧ base = base' := by
  have hstrip : ∀ query base, stripPrefix querySegmentPrefix (fileName modes (some query) base) =
      some (hexText query ++ (ascii "@" ++ sanitizeUnder modes base)) := by
    intro query base
    dsimp only [fileName]
    rw [append_assoc, append_assoc, stripPrefix_append]
  have hdigits : ∀ (query rest : Bytes), (hexText query ++ (ascii "@" ++ rest)).takeWhile (· ≠ 64) = hexText query ∧
      (hexText query ++ (ascii "@" ++ rest)).dropWhile (· ≠ 64) = ascii "@" ++ rest := by
    intro query rest
    have hne : ∀ c ∈ hexText query, (c ≠ 64 : Bool) = true := by
      intro c hc
      have hdigit := isHexDigit_of_mem_hexText hc
      simp only [decide_eq_true_eq]
      intro h64
      rw [h64] at hdigit
      revert hdigit
      decide
    have hat : ascii "@" ++ rest = 64 :: rest := rfl
    rw [takeWhile_append_of_pos hne, dropWhile_append_of_pos hne, hat]
    exact ⟨by simp, by simp⟩
  cases query with
  | none =>
    cases query' with
    | none => exact ⟨rfl, sanitizeUnder_injective modes h⟩
    | some query' =>
      have hplain := stripQuery_sanitizeUnder modes base
      have hsame : sanitizeUnder modes base = fileName modes (some query') base' := h
      simp [hsame, hstrip] at hplain
  | some query =>
    cases query' with
    | none =>
      have hplain := stripQuery_sanitizeUnder modes base'
      have hsame : fileName modes (some query) base = sanitizeUnder modes base' := h
      simp [← hsame, hstrip] at hplain
    | some query' =>
      have hrest := hstrip query base
      rw [h, hstrip] at hrest
      have heq := Option.some.inj hrest
      have hquery := congrArg (takeWhile (· ≠ 64)) heq
      have hname := congrArg (dropWhile (· ≠ 64)) heq
      rw [(hdigits _ _).1, (hdigits _ _).1] at hquery
      rw [(hdigits _ _).2, (hdigits _ _).2, append_right_inj] at hname
      exact ⟨congrArg some (hexText_injective hquery.symm), sanitizeUnder_injective modes hname.symm⟩

theorem safeName_fileName (modes : RestrictFileNameModes) (query : Option Bytes) (base : Bytes) :
    SafeName modes (fileName modes query base) := by
  have hsafe := safeName_sanitizeUnder modes base
  cases query with
  | none => exact hsafe
  | some query =>
    have htag : ∀ c ∈ ascii "query@" ++ ascii "@", _ := plain_of_all modes (by decide)
    have hplain : ∀ c ∈ sanitizeUnder modes base, isPlainByte modes c = true := by
      intro c hc
      have hslash : c ≠ slash := fun h => hsafe.noSlash (h ▸ hc)
      unfold isPlainByte
      rw [hsafe.noControl c hc, decide_eq_false hslash]
      cases hmode : modes.windowsMode with
      | false => rfl
      | true =>
        rw [(hsafe.windows hmode).1 c hc]
        rfl
    dsimp only [fileName]
    rw [querySegmentPrefix_eq, append_assoc, append_assoc, append_assoc]
    apply safeName_of_reserved
    · intro c hc
      cases mem_append.mp hc with
      | inl h => exact (htag c (mem_append_left _ h)).1
      | inr h =>
        cases mem_append.mp h with
        | inl h => exact (isPlainByte_of_mem_hexText modes h).1
        | inr h =>
          cases mem_append.mp h with
          | inl h => exact (htag c (mem_append_right _ h)).1
          | inr h => exact hplain c h
    · intro hmode
      obtain ⟨_, hdot, hspace, _⟩ := hsafe.windows hmode
      rw [← append_assoc, ← append_assoc, getLast?_append_of_ne_nil _ hsafe.nonempty]
      exact ⟨hdot, hspace⟩

/-! ## URLs -/

/-- The text of a canonical URL: nothing before the query holds a question mark, and the path begins with a slash. -/
structure CanonicalUrl where
  scheme : Bytes
  host : Bytes
  authority : Bytes
  path : Bytes
  query : Option Bytes
  scheme_noQuery : 63 ∉ scheme
  authority_noQuery : 63 ∉ authority
  path_noQuery : 63 ∉ path
  path_slash : path.head? = some slash

def CanonicalUrl.text (url : CanonicalUrl) : Bytes :=
  url.scheme ++ ascii "://" ++ url.authority ++ url.path ++
    match url.query with
    | none => []
    | some query => 63 :: query

def CanonicalUrl.parsed (url : CanonicalUrl) : ParsedUrl := ⟨some url.scheme, some url.host, some url.path⟩

theorem queryText_append (h : 63 ∉ start) (rest : Bytes) : queryText (start ++ rest) = queryText rest := by
  induction start with
  | nil => rfl
  | cons c start ih =>
    have hc : c ≠ 63 := fun heq => h (heq ▸ mem_cons_self)
    rw [cons_append, queryText, if_neg hc, ih fun hmem => h (mem_cons_of_mem _ hmem)]

theorem queryText_text (url : CanonicalUrl) : queryText url.text = url.query := by
  unfold CanonicalUrl.text
  have hseparator : (63 : UInt8) ∉ ascii "://" := by decide
  rw [append_assoc, append_assoc, append_assoc, queryText_append url.scheme_noQuery,
    queryText_append hseparator, queryText_append url.authority_noQuery, queryText_append url.path_noQuery]
  cases url.query with
  | none => rfl
  | some query =>
    dsimp only
    rw [queryText, if_pos rfl]

theorem exists_parts (url : CanonicalUrl) :
    ∃ parts file, url.path = slash :: underParts parts file ∧ (∀ part ∈ parts, slash ∉ part) ∧ slash ∉ file := by
  obtain ⟨rest, hrest⟩ : ∃ rest, url.path = slash :: rest := by
    have hslash := url.path_slash
    cases hpath : url.path with
    | nil => simp [hpath] at hslash
    | cons c rest =>
      rw [hpath] at hslash
      cases hslash
      exact ⟨rest, rfl⟩
  obtain ⟨parts, file, hparts, hslashes⟩ := exists_underParts rest
  exact ⟨parts, file, hrest.trans (congrArg _ hparts), hslashes⟩

def layoutAbove (modes : RestrictFileNameModes) (cfg : PathmapConfig) (url : CanonicalUrl) : List Bytes :=
  (if cfg.protocolDirectories then [sanitizeUnder modes url.scheme] else []) ++
    if cfg.noHostDirectories then [] else [sanitizeUnder modes url.host]

section
variable {cfg : PathmapConfig} {modes : RestrictFileNameModes} (hmodes : parseRestrictModes cfg = some modes)
include hmodes

theorem joinLayout_eq (url : CanonicalUrl)
    (hpath : url.path = slash :: underParts parts base) (hparts : ∀ part ∈ parts, slash ∉ part) (hbase : slash ∉ base)
    (file : Bytes) : joinLayout url.parsed file cfg =
      underParts (layoutAbove modes cfg url ++ (parts.drop cfg.cutDirs.toNat).map (sanitizeUnder modes)) file := by
  obtain ⟨hnonempty, hdir⟩ := withSlash_directoryPart hmodes hparts hbase
  unfold joinLayout CanonicalUrl.parsed layoutAbove
  dsimp only
  rw [Option.bind_some, Option.bind_some, Option.bind_some, hpath, if_neg hnonempty, hdir, sanitizeComponent_eq hmodes,
    sanitizeComponent_eq hmodes]
  unfold underParts
  rw [flatMap_append, flatMap_append]
  cases cfg.protocolDirectories <;> cases cfg.noHostDirectories <;> simp [withSlash]

theorem canonicalUrlToLocal_eq {parse : Bytes → Option ParsedUrl}
    (hparse : parse url.text = some url.parsed) (hlayout : flattenLayout cfg = false)
    (hpath : url.path = slash :: underParts parts base) (hparts : ∀ part ∈ parts, slash ∉ part) (hbase : slash ∉ base) :
    canonicalUrlToLocal parse url.text cfg = some (withDirectoryPrefix cfg (underParts
      (layoutAbove modes cfg url ++ (parts.drop cfg.cutDirs.toNat).map (sanitizeUnder modes))
      (fileName modes url.query (if base = [] then defaultPageName cfg else base)))) := by
  have hfile := urlBasename_eq hmodes url.parsed (congrArg some hpath) url.query
  rw [rtakeWhile_underParts hbase] at hfile
  unfold canonicalUrlToLocal
  rw [hparse, Option.bind_eq_bind, Option.bind_some, queryText_text, hfile, Option.bind_eq_bind, Option.bind_some,
    if_neg (by rw [hlayout]; decide), joinLayout_eq hmodes url hpath hparts hbase]
  rfl

end

theorem defaultPageName_ne_nil (cfg : PathmapConfig) : defaultPageName cfg ≠ [] := by
  unfold defaultPageName
  split
  · decide
  · split
    · decide
    · assumption

variable {parse : Bytes → Option ParsedUrl}

theorem modes_of_local {url : Bytes}
    (h : canonicalUrlToLocal parse url cfg = some localPath) : ∃ modes, parseRestrictModes cfg = some modes := by
  cases hmodes : parseRestrictModes cfg with
  | some modes => exact ⟨modes, rfl⟩
  | none =>
    have hnone : ∀ component, component ≠ [] → sanitizeComponent component cfg = none := by
      intro component hne
      unfold sanitizeComponent
      rw [if_neg hne, hmodes]
      rfl
    have hbasename : ∀ path, pathBasename path (defaultPageName cfg) cfg = none := by
      intro path
      unfold pathBasename
      rw [hnone _ (defaultPageName_ne_nil cfg)]
      dsimp only
      cases path with
      | none => rfl
      | some path =>
        dsimp only
        by_cases hbase : path.rtakeWhile (· ≠ slash) = []
        · rw [if_pos hbase]
        · rw [if_neg hbase, hnone _ hbase]
    unfold canonicalUrlToLocal at h
    cases hparse : parse url with
    | none => simp [hparse] at h
    | some mu =>
      have hfile : urlBasename mu (queryText url) cfg = none := by
        unfold urlBasename
        rw [hbasename]
      simp [hparse, Option.bind_eq_bind, Option.bind_some, hfile] at h

theorem withDirectoryPrefix_injective (h : withDirectoryPrefix cfg a = withDirectoryPrefix cfg b) : a = b := by
  unfold withDirectoryPrefix at h
  split at h
  · exact h
  · split at h
    · exact h
    · exact append_cancel_left h

theorem safeName_layoutAbove (modes : RestrictFileNameModes) (cfg : PathmapConfig) (url : CanonicalUrl) :
    ∀ part ∈ layoutAbove modes cfg url, SafeName modes part := by
  have hsafe := safeName_sanitizeUnder modes
  unfold layoutAbove
  intro part hpart
  cases mem_append.mp hpart with
  | inl h =>
    split at h
    · exact mem_singleton.mp h ▸ hsafe _
    · cases h
  | inr h =>
    split at h
    · cases h
    · exact mem_singleton.mp h ▸ hsafe _

theorem length_layoutAbove (modes : RestrictFileNameModes) (cfg : PathmapConfig) (a b : CanonicalUrl) :
    (layoutAbove modes cfg a).length = (layoutAbove modes cfg b).length := by
  unfold layoutAbove
  cases cfg.protocolDirectories <;> cases cfg.noHostDirectories <;> rfl

/-! ## The map of URLs -/

def CanonicalUrl.EndsInSegment (url : CanonicalUrl) : Prop := url.path.getLast? ≠ some slash

theorem file_ne_nil (h : url.EndsInSegment) (hpath : url.path = slash :: underParts parts file) : file ≠ [] := by
  intro hfile
  apply h
  rw [hpath, hfile]
  cases hparts : parts using reverseRecOn with
  | nil => rfl
  | append_singleton parts part =>
    rw [underParts_append]
    simp [underParts, getLast?_cons, getLast?_append]

theorem local_injective {a b : CanonicalUrl}
    (hlayout : flattenLayout cfg = false) (hcut : cfg.cutDirs = 0) (ha : parse a.text = some a.parsed)
    (hb : parse b.text = some b.parsed) (haEnds : a.EndsInSegment) (hbEnds : b.EndsInSegment)
    (hlocalA : canonicalUrlToLocal parse a.text cfg = some localPath)
    (hlocalB : canonicalUrlToLocal parse b.text cfg = some localPath) : a.path = b.path ∧ a.query = b.query := by
  obtain ⟨modes, hmodes⟩ := modes_of_local hlocalA
  obtain ⟨partsA, fileA, hpathA, hpartsA, hfileA⟩ := exists_parts a
  obtain ⟨partsB, fileB, hpathB, hpartsB, hfileB⟩ := exists_parts b
  rw [canonicalUrlToLocal_eq hmodes ha hlayout hpathA hpartsA hfileA, if_neg (file_ne_nil haEnds hpathA)] at hlocalA
  rw [canonicalUrlToLocal_eq hmodes hb hlayout hpathB hpartsB hfileB, if_neg (file_ne_nil hbEnds hpathB)] at hlocalB
  have hzero : cfg.cutDirs.toNat = 0 := by rw [hcut]; rfl
  have hsame := withDirectoryPrefix_injective ((Option.some.inj hlocalA).trans (Option.some.inj hlocalB).symm)
  rw [hzero, drop_zero, drop_zero] at hsame
  -- The names of both paths hold no slash, so splitting at the slashes gives them back.
  have hnames : ∀ (url : CanonicalUrl) (parts : List Bytes), ∀ part ∈ layoutAbove modes cfg url ++
      parts.map (sanitizeUnder modes), slash ∉ part := by
    intro url parts part hpart
    cases mem_append.mp hpart with
    | inl h => exact (safeName_layoutAbove modes cfg url part h).noSlash
    | inr h =>
      obtain ⟨component, _, rfl⟩ := mem_map.mp h
      exact (safeName_sanitizeUnder modes component).noSlash
  have hsplit := congrArg (splitOn slash) hsame
  rw [splitOn_underParts (hnames a partsA) (safeName_fileName modes _ _).noSlash,
    splitOn_underParts (hnames b partsB) (safeName_fileName modes _ _).noSlash] at hsplit
  obtain ⟨hparts, hfile⟩ := append_inj' hsplit rfl
  obtain ⟨_, hbelow⟩ := append_inj hparts (length_layoutAbove modes cfg a b)
  obtain ⟨hquery, hbase⟩ := fileName_injective modes (List.cons.inj hfile).1
  have hdirs : partsA = partsB := (map_injective_iff.mpr fun _ _ => sanitizeUnder_injective modes) hbelow
  refine ⟨?_, hquery⟩
  rw [hpathA, hpathB, hdirs, hbase]

theorem local_contained (hlayout : flattenLayout cfg = false) (hparse : parse url.text = some url.parsed)
    (hlocal : canonicalUrlToLocal parse url.text cfg = some localPath) :
    ∃ modes below file, parseRestrictModes cfg = some modes ∧
      localPath = withDirectoryPrefix cfg (underParts (layoutAbove modes cfg url ++ below) file) ∧
      (∀ part ∈ layoutAbove modes cfg url ++ below, SafeName modes part) ∧ SafeName modes file := by
  obtain ⟨modes, hmodes⟩ := modes_of_local hlocal
  obtain ⟨parts, file, hpath, hparts, hfile⟩ := exists_parts url
  rw [canonicalUrlToLocal_eq hmodes hparse hlayout hpath hparts hfile] at hlocal
  refine ⟨modes, _, _, hmodes, (Option.some.inj hlocal).symm, ?_, safeName_fileName modes _ _⟩
  intro part hpart
  cases mem_append.mp hpart with
  | inl h => exact safeName_layoutAbove modes cfg url part h
  | inr h =>
    obtain ⟨component, _, rfl⟩ := mem_map.mp h
    exact safeName_sanitizeUnder modes component

theorem sanitizeComponent_injective (ha : sanitizeComponent a cfg = some name)
    (hb : sanitizeComponent b cfg = some name) : a = b := by
  cases hmodes : parseRestrictModes cfg with
  | some modes =>
    rw [sanitizeComponent_eq hmodes] at ha hb
    exact sanitizeUnder_injective modes ((Option.some.inj ha).trans (Option.some.inj hb).symm)
  | none =>
    have hempty : ∀ component, sanitizeComponent component cfg = some name → component = [] := by
      intro component h
      unfold sanitizeComponent at h
      split at h
      · assumption
      · simp [hmodes] at h
    rw [hempty a ha, hempty b hb]

/-- **Main result.** Every component gets a safe name and no two get the same.
So two URLs that differ in their path or query get different local paths, and
every local path stays below the directories of its host. -/
theorem pathmap_contained_injective : (∀ cfg modes component, parseRestrictModes cfg = some modes →
      ∃ name, sanitizeComponent component cfg = some name ∧ SafeName modes name) ∧
    (∀ cfg a b name, sanitizeComponent a cfg = some name → sanitizeComponent b cfg = some name → a = b) ∧
    (∀ (parse : Bytes → Option ParsedUrl) (cfg : PathmapConfig) (a b : CanonicalUrl), flattenLayout cfg = false →
      cfg.cutDirs = 0 → parse a.text = some a.parsed → parse b.text = some b.parsed → a.EndsInSegment →
      b.EndsInSegment → a.path ≠ b.path ∨ a.query ≠ b.query → ∀ localPath,
        canonicalUrlToLocal parse a.text cfg = some localPath → canonicalUrlToLocal parse b.text cfg ≠ some localPath) ∧
    (∀ (parse : Bytes → Option ParsedUrl) (cfg : PathmapConfig) (url : CanonicalUrl) (localPath : Bytes),
      flattenLayout cfg = false → parse url.text = some url.parsed →
      canonicalUrlToLocal parse url.text cfg = some localPath →
        ∃ modes below file, parseRestrictModes cfg = some modes ∧
          localPath = withDirectoryPrefix cfg (underParts (layoutAbove modes cfg url ++ below) file) ∧
          (∀ part ∈ layoutAbove modes cfg url ++ below, SafeName modes part) ∧ SafeName modes file) := by
  refine ⟨?_, fun cfg a b name => sanitizeComponent_injective, ?_, fun parse cfg url localPath => local_contained⟩
  · intro cfg modes component hmodes
    exact ⟨_, sanitizeComponent_eq hmodes component, safeName_sanitizeUnder modes component⟩
  · intro parse cfg a b hlayout hcut ha hb haEnds hbEnds hdiffer localPath hlocalA hlocalB
    obtain ⟨hpath, hquery⟩ := local_injective hlayout hcut ha hb haEnds hbEnds hlocalA hlocalB
    cases hdiffer with
    | inl h => exact h hpath
    | inr h => exact h hquery

def windowsConfig : PathmapConfig :=
  { restrictFileNames := some (ascii "windows"), defaultPage := none, noDirectories := false, recursive := true,
    forceDirectories := false, protocolDirectories := false, noHostDirectories := false, cutDirs := 0,
    directoryPrefix := none }

def pageUrl (query : Option Bytes) : CanonicalUrl where
  scheme := ascii "http"
  host := ascii "h"
  authority := ascii "h"
  path := ascii "/a"
  query := query
  scheme_noQuery := by decide
  authority_noQuery := by decide
  path_noQuery := by decide
  path_slash := by decide

theorem pathmap_contained_injective_page :
    canonicalUrlToLocal (fun _ => some (pageUrl none).parsed) (pageUrl none).text windowsConfig = some (ascii "h/a") ∧
    canonicalUrlToLocal (fun _ => some (pageUrl none).parsed) (pageUrl (some (ascii "q"))).text windowsConfig ≠
      some (ascii "h/a") ∧
    ∃ name, sanitizeComponent (ascii "con") windowsConfig = some name ∧ SafeName ⟨false, true⟩ name := by
  have hlocal : canonicalUrlToLocal (fun _ => some (pageUrl none).parsed) (pageUrl none).text windowsConfig =
      some (ascii "h/a") := by decide
  have hends : (pageUrl none).EndsInSegment := by
    unfold CanonicalUrl.EndsInSegment
    decide
  have hquery : (pageUrl none).query ≠ (pageUrl (some (ascii "q"))).query := by decide
  refine ⟨hlocal, ?_, ?_⟩
  · exact pathmap_contained_injective.2.2.1 _ windowsConfig (pageUrl none) (pageUrl (some (ascii "q"))) rfl rfl rfl rfl
      hends hends (Or.inr hquery) _ hlocal
  · exact pathmap_contained_injective.1 windowsConfig ⟨false, true⟩ (ascii "con") (by decide)

end Bx.Fetch
