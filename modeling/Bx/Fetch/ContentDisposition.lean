import Bx.Fetch.HttpHeader

/-!
# Content-Disposition

`bx_fetch_http_content_disposition_filename` reads the parameters of a header value one by one and keeps `filename` and
`filename*`. The grammar says what parameters the value is made of, and what they say of a name.
-/

namespace Bx.Fetch.Header
open Kit List

/-! ## Reading -/

def skipOws (cursor : Bytes) : Bytes := cursor.dropWhile isOws

def parseTokenSpan (cursor : Bytes) : Option (Bytes × Bytes) :=
  if cursor.takeWhile asciiIsTchar = [] then none
  else some (cursor.takeWhile asciiIsTchar, cursor.dropWhile asciiIsTchar)

structure HeaderParameterValue where
  span : Bytes
  quoted : Bool

def quote : UInt8 := 34

def backslash : UInt8 := 92

def quotedSpan : Bytes → Option (Bytes × Bytes)
  | [] => none
  | c :: rest =>
    if c = quote then some ([], rest)
    else if isControl c then none
    else if c = backslash then
      match rest with
      | [] => none
      | d :: rest => if isControl d then none else (quotedSpan rest).map fun found => (c :: d :: found.1, found.2)
    else (quotedSpan rest).map fun found => (c :: found.1, found.2)

def parseParameterValue (cursor : Bytes) : Option (HeaderParameterValue × Bytes) :=
  if cursor.head? = some quote then
    (quotedSpan (cursor.drop 1)).map fun found => ({ span := found.1, quoted := true }, found.2)
  else (parseTokenSpan cursor).map fun found => ({ span := found.1, quoted := false }, found.2)

def spanHasSafeFilenameBytes (value : Bytes) : Bool := !value.isEmpty && !value.any isControl

-- a backslash that is the last byte would take the closing quote
def unescaped : Bytes → Bytes
  | [] => []
  | c :: rest =>
    if c = backslash then
      match rest with
      | [] => [quote]
      | d :: rest => d :: unescaped rest
    else c :: unescaped rest

inductive DecodeError where
  | invalid
  | outOfMemory

def decodeParameterValue (malloc : Allocator) (value : HeaderParameterValue) : Except DecodeError Bytes :=
  if ¬malloc (value.span.length + 1) then .error .outOfMemory
  else
    let decoded := if value.quoted then unescaped value.span else value.span
    if spanHasSafeFilenameBytes decoded then .ok decoded else .error .invalid

-- `!`, `#`, `$`, `&`, `+`, `-`, `.`, `^`, `_`, the grave accent, `|` and `~`
def attrMarks : Bytes := [33, 35, 36, 38, 43, 45, 46, 94, 95, 96, 124, 126]

def asciiIsAttrChar (c : UInt8) : Bool := asciiIsDigit c || asciiIsAlpha c || attrMarks.contains c

def percent : UInt8 := 37

def percentDecoded : Bytes → Option Bytes
  | [] => some []
  | c :: rest =>
    if c = percent then
      match rest with
      | high :: low :: rest =>
        match hexValue high, hexValue low with
        | some hi, some lo => (percentDecoded rest).map ((hi * 16 + lo).toUInt8 :: ·)
        | _, _ => none
      | _ => none
    else if asciiIsAttrChar c then (percentDecoded rest).map (c :: ·)
    else none

structure Lead where
  continuationCount : Nat
  secondMin : Nat
  secondMax : Nat

def leadOf (c : UInt8) : Option Lead :=
  if 194 ≤ c.toNat ∧ c.toNat ≤ 223 then some { continuationCount := 1, secondMin := 128, secondMax := 191 }
  else if 224 ≤ c.toNat ∧ c.toNat ≤ 239 then
    some { continuationCount := 2, secondMin := if c.toNat = 224 then 160 else 128,
           secondMax := if c.toNat = 237 then 159 else 191 }
  else if 240 ≤ c.toNat ∧ c.toNat ≤ 244 then
    some { continuationCount := 3, secondMin := if c.toNat = 240 then 144 else 128,
           secondMax := if c.toNat = 244 then 143 else 191 }
  else none

def afterLead (lead : Lead) (value : Bytes) : Option Bytes :=
  match value with
  | [] => none
  | second :: rest =>
    if value.length < lead.continuationCount ∨ second.toNat < lead.secondMin ∨ lead.secondMax < second.toNat then none
    else if (rest.take (lead.continuationCount - 1)).all fun c => 128 ≤ c.toNat && c.toNat ≤ 191 then
      some (rest.drop (lead.continuationCount - 1))
    else none

theorem length_afterLead {lead : Lead} {value rest : Bytes} (h : afterLead lead value = some rest) :
    rest.length < value.length := by
  unfold afterLead at h
  cases value with
  | nil => cases h
  | cons second value =>
    dsimp only at h
    split at h
    · cases h
    · split at h
      · cases h
        rw [length_drop, length_cons]
        omega
      · cases h

def spanIsUtf8 (value : Bytes) : Bool :=
  match value with
  | [] => true
  | c :: value =>
    if c.toNat ≤ 127 then spanIsUtf8 value
    else
      match leadOf c with
      | none => false
      | some lead =>
        match _h : afterLead lead value with
        | none => false
        | some rest => spanIsUtf8 rest
termination_by value.length
decreasing_by
  · exact Nat.lt_succ_self _
  · have hless := length_afterLead ‹_›
    rw [length_cons]
    omega

def apostrophe : UInt8 := 39

def isLanguageByte (c : UInt8) : Bool := asciiIsDigit c || asciiIsAlpha c || c == 45

def splitApostrophe (text : Bytes) : Option (Bytes × Bytes) :=
  if apostrophe ∈ text then some (text.takeWhile (· != apostrophe), (text.dropWhile (· != apostrophe)).drop 1) else none

def decodeEncoded (encoded : Bytes) : Except DecodeError Bytes :=
  match percentDecoded encoded with
  | none => .error .invalid
  | some decoded => if spanHasSafeFilenameBytes decoded ∧ spanIsUtf8 decoded then .ok decoded else .error .invalid

def decodeExtendedFilename (malloc : Allocator) (value : HeaderParameterValue) : Except DecodeError Bytes :=
  if value.quoted then .error .invalid
  else
    match splitApostrophe value.span with
    | none => .error .invalid
    | some (charset, afterFirst) =>
      match splitApostrophe afterFirst with
      | none => .error .invalid
      | some (language, encoded) =>
        if ¬spanEqualsCase charset (ascii "UTF-8") then .error .invalid
        else if ¬language.all isLanguageByte then .error .invalid
        else if ¬malloc (encoded.length + 1) then .error .outOfMemory
        else decodeEncoded encoded

/-! ## Parameters -/

inductive ContentDispositionResult where
  | filename (name : Bytes)
  | none
  | invalid
  | outOfMemory

abbrev Parameter := Bytes × HeaderParameterValue

def semicolon : UInt8 := 59

def equals : UInt8 := 61

/-- One parameter, after its `;`, and what comes after it -/
def parseParameter (cursor : Bytes) : Option (Parameter × Bytes) := do
  let (name, cursor) ← parseTokenSpan (skipOws cursor)
  let cursor := skipOws cursor
  if cursor.head? ≠ some equals then none
  else
    let (value, cursor) ← parseParameterValue (skipOws (cursor.drop 1))
    let cursor := skipOws cursor
    if cursor ≠ [] ∧ cursor.head? ≠ some semicolon then none else some ((name, value), cursor)

structure Found where
  filename : Option Bytes
  extendedFilename : Option Bytes

def isFilename (parameter : Parameter) : Bool := spanEqualsCase parameter.1 (ascii "filename")

def isExtendedFilename (parameter : Parameter) : Bool := spanEqualsCase parameter.1 (ascii "filename*")

def takeParameter (malloc : Allocator) (found : Found) (parameter : Parameter) : Except DecodeError Found :=
  if ¬isFilename parameter ∧ ¬isExtendedFilename parameter then .ok found
  else if isFilename parameter ∧ found.filename.isSome ∨
      isExtendedFilename parameter ∧ found.extendedFilename.isSome then .error .invalid
  else if isExtendedFilename parameter then do
    let decoded ← decodeExtendedFilename malloc parameter.2
    return { found with extendedFilename := some decoded }
  else do
    let decoded ← decodeParameterValue malloc parameter.2
    return { found with filename := some decoded }

def finish (found : Found) : ContentDispositionResult :=
  match found.extendedFilename, found.filename with
  | some name, _ => .filename name
  | none, some name => .filename name
  | none, none => .none

theorem length_skipOws (cursor : Bytes) : (skipOws cursor).length ≤ cursor.length := length_dropWhile_le _ _

theorem parseTokenSpan_iff {cursor token rest : Bytes} : parseTokenSpan cursor = some (token, rest) ↔
      token ≠ [] ∧ cursor.takeWhile asciiIsTchar = token ∧ cursor.dropWhile asciiIsTchar = rest := by
  unfold parseTokenSpan
  by_cases hnil : cursor.takeWhile asciiIsTchar = []
  · rw [if_pos hnil]
    refine ⟨fun h => (nomatch h), ?_⟩
    intro h
    exact absurd (h.2.1.symm.trans hnil) h.1
  · rw [if_neg hnil]
    refine ⟨?_, ?_⟩
    · intro h
      cases h
      exact ⟨hnil, rfl, rfl⟩
    · intro h
      rw [h.2.1, h.2.2]

/-! ## The grammar -/

def Blank (text : Bytes) : Prop := ∀ c ∈ text, isOws c = true

def Token (text : Bytes) : Prop := text ≠ [] ∧ ∀ c ∈ text, asciiIsTchar c = true

inductive QuotedText : Bytes → Bytes → Prop where
  | nil : QuotedText [] []
  | plain {c : UInt8} {raw text : Bytes} (hcontrol : isControl c = false) (hquote : c ≠ quote) (hpair : c ≠ backslash)
      (h : QuotedText raw text) : QuotedText (c :: raw) (c :: text)
  | pair {c : UInt8} {raw text : Bytes} (hcontrol : isControl c = false) (h : QuotedText raw text) :
      QuotedText (backslash :: c :: raw) (c :: text)

inductive ValueText : HeaderParameterValue → Bytes → Prop where
  | token {text : Bytes} (h : Token text) : ValueText { span := text, quoted := false } text
  | quoted {raw text : Bytes} (h : QuotedText raw text) :
      ValueText { span := raw, quoted := true } (quote :: raw ++ [quote])

/-- `*( OWS ";" OWS token OWS "=" OWS ( token / quoted-string ) ) OWS` -/
inductive Parameters : List Parameter → Bytes → Prop where
  | nil {blank : Bytes} (h : Blank blank) : Parameters [] blank
  | cons {a b c d name text rest : Bytes} {value : HeaderParameterValue} {parameters : List Parameter} (ha : Blank a)
      (hb : Blank b) (hc : Blank c) (hd : Blank d) (hname : Token name) (hvalue : ValueText value text)
      (hrest : Parameters parameters rest) :
      Parameters ((name, value) :: parameters)
        (a ++ semicolon :: (b ++ (name ++ (c ++ equals :: (d ++ (text ++ rest))))))

def HeaderValue (parameters : List Parameter) (value : Bytes) : Prop :=
  ∃ blank disposition rest, Blank blank ∧ Token disposition ∧ Parameters parameters rest ∧
    value = blank ++ (disposition ++ rest)

section
variable {cursor rest text raw token : Bytes}

/-! ## Reading and the grammar -/

theorem blank_nil : Blank [] := fun _ h => absurd h not_mem_nil

theorem skipOws_append (h : Blank text) (rest : Bytes) : skipOws (text ++ rest) = skipOws rest :=
  dropWhile_append_of_pos h

theorem exists_blank (cursor : Bytes) : ∃ blank, Blank blank ∧ cursor = blank ++ skipOws cursor :=
  ⟨cursor.takeWhile isOws, fun _ hc => mem_takeWhile_imp hc, takeWhile_append_dropWhile.symm⟩

variable {c : UInt8}

theorem skipOws_cons (h : isOws c = false) (rest : Bytes) : skipOws (c :: rest) = c :: rest :=
  dropWhile_cons_of_neg (Bool.eq_false_iff.mp h)

def TokenEnds (rest : Bytes) : Prop := ∀ c ∈ rest.head?, asciiIsTchar c = false

theorem parseTokenSpan_token (h : Token token) (hends : TokenEnds rest) :
    parseTokenSpan (token ++ rest) = some (token, rest) := by
  have hstop : rest.takeWhile asciiIsTchar = [] ∧ rest.dropWhile asciiIsTchar = rest := by
    cases rest with
    | nil => exact ⟨rfl, rfl⟩
    | cons c rest =>
      have hc := Bool.eq_false_iff.mp (hends c rfl)
      exact ⟨takeWhile_cons_of_neg hc, dropWhile_cons_of_neg hc⟩
  rw [parseTokenSpan_iff, takeWhile_append_of_pos h.2, dropWhile_append_of_pos h.2, hstop.1, hstop.2, append_nil]
  exact ⟨h.1, rfl, rfl⟩

theorem token_of_parseTokenSpan (h : parseTokenSpan cursor = some (token, rest)) :
    Token token ∧ cursor = token ++ rest := by
  obtain ⟨hne, rfl, rfl⟩ := parseTokenSpan_iff.mp h
  exact ⟨⟨hne, fun _ hc => mem_takeWhile_imp hc⟩, takeWhile_append_dropWhile.symm⟩

theorem quotedSpan_quote (rest : Bytes) : quotedSpan (quote :: rest) = some ([], rest) := by
  rw [quotedSpan.eq_def]
  rfl

theorem quotedSpan_plain (hcontrol : isControl c = false) (hquote : c ≠ quote) (hpair : c ≠ backslash) :
    quotedSpan (c :: rest) = (quotedSpan rest).map fun found => (c :: found.1, found.2) := by
  rw [quotedSpan.eq_def]
  dsimp only
  rw [if_neg hquote, if_neg (Bool.eq_false_iff.mp hcontrol), if_neg hpair]

theorem quotedSpan_pair (hcontrol : isControl c = false) :
    quotedSpan (backslash :: c :: rest) = (quotedSpan rest).map fun found => (backslash :: c :: found.1, found.2) :=
  if_neg (Bool.eq_false_iff.mp hcontrol)

theorem quotedSpan_append (h : QuotedText raw text) (rest : Bytes) :
    quotedSpan (raw ++ quote :: rest) = some (raw, rest) := by
  induction h with
  | nil => rw [nil_append, quotedSpan_quote]
  | @plain c raw text hcontrol hquote hpair h ih =>
    rw [cons_append, quotedSpan_plain hcontrol hquote hpair, ih]
    rfl
  | @pair c raw text hcontrol h ih =>
    rw [cons_append, cons_append, quotedSpan_pair hcontrol, ih]
    rfl

theorem quotedText_of_quotedSpan (h : quotedSpan cursor = some (raw, rest)) :
    (∃ text, QuotedText raw text) ∧ cursor = raw ++ quote :: rest := by
  induction cursor using quotedSpan.induct generalizing raw with
  | case1 => cases h
  | case2 left =>
    rw [quotedSpan_quote] at h
    cases h
    exact ⟨⟨[], .nil⟩, rfl⟩
  | case3 c left hquote hcontrol =>
    rw [quotedSpan.eq_def] at h
    dsimp only at h
    simp [hquote, if_pos hcontrol] at h
  | case4 hquote hcontrol => cases h
  | case5 c left hbad hquote hcontrol =>
    have hnone : quotedSpan (backslash :: c :: left) = none := if_pos hbad
    simp [hnone] at h
  | case6 c left hgood hquote hcontrol ih =>
    rw [quotedSpan_pair (Bool.eq_false_iff.mpr hgood)] at h
    obtain ⟨found, hfound, hsame⟩ := Option.map_eq_some_iff.mp h
    cases hsame
    obtain ⟨⟨text, htext⟩, hsplit⟩ := ih hfound
    refine ⟨⟨c :: text, .pair (Bool.eq_false_iff.mpr hgood) htext⟩, ?_⟩
    rw [hsplit]
    rfl
  | case7 c left hquote hcontrol hpair ih =>
    rw [quotedSpan_plain (Bool.eq_false_iff.mpr hcontrol) hquote hpair] at h
    obtain ⟨found, hfound, hsame⟩ := Option.map_eq_some_iff.mp h
    cases hsame
    obtain ⟨⟨text, htext⟩, hsplit⟩ := ih hfound
    refine ⟨⟨c :: text, .plain (Bool.eq_false_iff.mpr hcontrol) hquote hpair htext⟩, ?_⟩
    rw [hsplit]
    rfl

set_option maxRecDepth 4000 in
theorem byte_kinds (c : UInt8) : (isOws c = true → asciiIsTchar c = false) ∧ (asciiIsTchar c = true → c ≠ quote) := by
  have hall : ∀ n, n < 256 → (isOws (UInt8.ofNat n) = true → asciiIsTchar (UInt8.ofNat n) = false) ∧
      (asciiIsTchar (UInt8.ofNat n) = true → UInt8.ofNat n ≠ quote) := by
    decide
  exact forall_byte
    (P := fun c => (isOws c = true → asciiIsTchar c = false) ∧ (asciiIsTchar c = true → c ≠ quote)) hall c

theorem exists_cons_of_token (h : Token token) : ∃ c token', token = c :: token' ∧ asciiIsTchar c = true := by
  obtain ⟨c, token', rfl⟩ := exists_cons_of_ne_nil h.1
  exact ⟨c, token', rfl, h.2 c mem_cons_self⟩

theorem isOws_of_tchar (h : asciiIsTchar c = true) : isOws c = false := by
  apply Bool.eq_false_iff.mpr
  intro hows
  simp [(byte_kinds c).1 hows] at h

theorem skipOws_token (h : Token token) (rest : Bytes) : skipOws (token ++ rest) = token ++ rest := by
  obtain ⟨c, token', rfl, hc⟩ := exists_cons_of_token h
  exact skipOws_cons (isOws_of_tchar hc) _

theorem tokenEnds_blank (h : Blank text) (hrest : TokenEnds rest) : TokenEnds (text ++ rest) := by
  cases text with
  | nil => exact hrest
  | cons c text =>
    intro d hd
    cases hd
    exact (byte_kinds c).1 (h c mem_cons_self)

variable {value : HeaderParameterValue}

theorem parseParameterValue_text (h : ValueText value text) (hends : TokenEnds rest) :
    parseParameterValue (text ++ rest) = some (value, rest) := by
  unfold parseParameterValue
  cases h with
  | token htoken =>
    obtain ⟨c, token', rfl, hc⟩ := exists_cons_of_token htoken
    have hhead : (c :: token' ++ rest).head? ≠ some quote :=
      fun heq => (byte_kinds c).2 hc (Option.some.inj heq)
    rw [if_neg hhead, parseTokenSpan_token htoken hends]
    rfl
  | @quoted raw said hquoted =>
    have hdrop : (quote :: raw ++ [quote] ++ rest).drop 1 = raw ++ quote :: rest := by
      simp
    rw [if_pos (by rfl), hdrop, quotedSpan_append hquoted]
    rfl

theorem valueText_of_parse (h : parseParameterValue cursor = some (value, rest)) :
    ∃ text, ValueText value text ∧ cursor = text ++ rest := by
  unfold parseParameterValue at h
  by_cases hquote : cursor.head? = some quote
  · rw [if_pos hquote] at h
    obtain ⟨found, hfound, hsame⟩ := Option.map_eq_some_iff.mp h
    cases hsame
    obtain ⟨⟨said, hsaid⟩, hsplit⟩ := quotedText_of_quotedSpan hfound
    refine ⟨_, .quoted hsaid, ?_⟩
    obtain ⟨tail, rfl⟩ := head?_eq_some_iff.mp hquote
    rw [drop_one, tail_cons] at hsplit
    rw [hsplit]
    simp
  · rw [if_neg hquote] at h
    obtain ⟨found, hfound, hsame⟩ := Option.map_eq_some_iff.mp h
    cases hsame
    obtain ⟨htoken, hsplit⟩ := token_of_parseTokenSpan hfound
    exact ⟨_, .token htoken, hsplit⟩

theorem skipOws_value (h : ValueText value text) (rest : Bytes) : skipOws (text ++ rest) = text ++ rest := by
  cases h with
  | token htoken => exact skipOws_token htoken rest
  | quoted hquoted => exact skipOws_cons (by decide) _

def AtParameter (cursor : Bytes) : Prop := cursor = [] ∨ cursor.head? = some semicolon

theorem tokenEnds_of_atParameter (h : AtParameter (skipOws rest)) : TokenEnds rest := by
  obtain ⟨blank, hblank, hsplit⟩ := exists_blank rest
  rw [hsplit]
  apply tokenEnds_blank hblank
  intro c hc
  cases h with
  | inl hnil => simp [hnil] at hc
  | inr hhead =>
    rw [hhead] at hc
    cases hc
    decide

variable {parameter : Parameter} {name : Bytes}

theorem parseParameter_text {b c d : Bytes} (hb : Blank b) (hc : Blank c) (hd : Blank d) (hname : Token name)
    (hvalue : ValueText value text) (hrest : AtParameter (skipOws rest)) :
    parseParameter (b ++ (name ++ (c ++ equals :: (d ++ (text ++ rest))))) = some ((name, value), skipOws rest) := by
  have hequals : TokenEnds (equals :: (d ++ (text ++ rest))) := by
    intro x hx
    cases hx
    decide
  have hnext : ¬(skipOws rest ≠ [] ∧ (skipOws rest).head? ≠ some semicolon) := by
    intro h
    cases hrest with
    | inl hnil => exact h.1 hnil
    | inr hhead => exact h.2 hhead
  have hfirst : parseTokenSpan (skipOws (b ++ (name ++ (c ++ equals :: (d ++ (text ++ rest)))))) =
      some (name, c ++ equals :: (d ++ (text ++ rest))) := by
    rw [skipOws_append hb, skipOws_token hname, parseTokenSpan_token hname (tokenEnds_blank hc hequals)]
  have hsecond : skipOws (c ++ equals :: (d ++ (text ++ rest))) = equals :: (d ++ (text ++ rest)) := by
    rw [skipOws_append hc, skipOws_cons (by decide)]
  have hthird : parseParameterValue (skipOws (d ++ (text ++ rest))) = some (value, rest) := by
    rw [skipOws_append hd, skipOws_value hvalue, parseParameterValue_text hvalue (tokenEnds_of_atParameter hrest)]
  unfold parseParameter
  rw [hfirst]
  dsimp only [bind, Option.bind]
  rw [hsecond, drop_one, tail_cons, head?_cons, if_neg (not_not_intro rfl), hthird]
  dsimp only
  rw [if_neg hnext]

theorem text_of_parseParameter (h : parseParameter cursor = some (parameter, rest)) :
    ∃ b c d text tail, Blank b ∧ Blank c ∧ Blank d ∧ Token parameter.1 ∧ ValueText parameter.2 text ∧
      AtParameter rest ∧ skipOws tail = rest ∧
      cursor = b ++ (parameter.1 ++ (c ++ equals :: (d ++ (text ++ tail)))) := by
  unfold parseParameter at h
  dsimp only [bind] at h
  obtain ⟨⟨name, afterName⟩, hname, h⟩ := Option.bind_eq_some_iff.mp h
  dsimp only at h
  by_cases hequals : (skipOws afterName).head? = some equals
  · rw [if_neg (not_not_intro hequals)] at h
    obtain ⟨⟨value, afterValue⟩, hvalue, h⟩ := Option.bind_eq_some_iff.mp h
    dsimp only at h
    by_cases hnext : skipOws afterValue ≠ [] ∧ (skipOws afterValue).head? ≠ some semicolon
    · rw [if_pos hnext] at h
      cases h
    · rw [if_neg hnext] at h
      cases h
      obtain ⟨b, hb, hcursor⟩ := exists_blank cursor
      obtain ⟨c, hc, hafter⟩ := exists_blank afterName
      obtain ⟨tail, htail⟩ := head?_eq_some_iff.mp hequals
      rw [htail, drop_one, tail_cons] at hvalue
      obtain ⟨d, hd, hblank⟩ := exists_blank tail
      obtain ⟨htoken, hsplit⟩ := token_of_parseTokenSpan hname
      obtain ⟨text, htext, hrest⟩ := valueText_of_parse hvalue
      refine ⟨b, c, d, text, afterValue, hb, hc, hd, htoken, htext, ?_, rfl, ?_⟩
      · by_cases hnil : skipOws afterValue = []
        · exact .inl hnil
        · exact .inr (Classical.byContradiction fun hhead => hnext ⟨hnil, hhead⟩)
      · rw [hcursor, hsplit, hafter, htail, hblank, hrest]
  · rw [if_pos hequals] at h
    cases h

theorem length_parseParameter (h : parseParameter cursor = some (parameter, rest)) : rest.length < cursor.length := by
  obtain ⟨b, c, d, text, tail, _, _, _, _, _, _, rfl, rfl⟩ := text_of_parseParameter h
  have htail := length_skipOws tail
  simp only [length_append, length_cons]
  omega

end

/-! ## The parameters -/

def failed : DecodeError → ContentDispositionResult
  | .invalid => .invalid
  | .outOfMemory => .outOfMemory

def parameterLoop (malloc : Allocator) (found : Found) (cursor : Bytes) : ContentDispositionResult :=
  match cursor with
  | [] => finish found
  | c :: cursor =>
    if c ≠ semicolon then .invalid
    else
      match _h : parseParameter cursor with
      | none => .invalid
      | some (parameter, rest) =>
        match takeParameter malloc found parameter with
        | .error error => failed error
        | .ok found => parameterLoop malloc found rest
termination_by cursor.length
decreasing_by
  have hless := length_parseParameter ‹_›
  rw [length_cons]
  omega

def contentDispositionFilename (malloc : Allocator) (value : Bytes) : ContentDispositionResult :=
  match parseTokenSpan (skipOws value) with
  | none => .invalid
  | some (_, cursor) => parameterLoop malloc { filename := none, extendedFilename := none } (skipOws cursor)

def takeParameters (malloc : Allocator) (found : Found) (parameters : List Parameter) : ContentDispositionResult :=
  match parameters.foldlM (takeParameter malloc) found with
  | .error error => failed error
  | .ok found => finish found

section
variable {malloc : Allocator} {found : Found} {parameters : List Parameter} {cursor value : Bytes}

theorem Parameters.atParameter (h : Parameters parameters cursor) : AtParameter (skipOws cursor) := by
  cases h with
  | nil hblank =>
    refine .inl ?_
    have hend := skipOws_append hblank []
    rw [append_nil] at hend
    exact hend
  | cons ha hb hc hd hname hvalue hrest =>
    refine .inr ?_
    rw [skipOws_append ha, skipOws_cons (by decide)]
    rfl

theorem parameterLoop_other {c : UInt8} (h : c ≠ semicolon) : parameterLoop malloc found (c :: cursor) = .invalid := by
  rw [parameterLoop.eq_def]
  exact if_pos h

theorem parameterLoop_semicolon (found : Found) (cursor : Bytes) : parameterLoop malloc found (semicolon :: cursor) =
      match parseParameter cursor with
      | none => .invalid
      | some (parameter, rest) =>
        match takeParameter malloc found parameter with
        | .error error => failed error
        | .ok found => parameterLoop malloc found rest := by
  rw [parameterLoop.eq_def]
  refine (if_neg (not_not_intro rfl)).trans ?_
  split
  · rename_i hparse
    rw [hparse]
  · rename_i hparse
    rw [hparse]

theorem parameterLoop_eq (h : Parameters parameters cursor) (found : Found) :
    parameterLoop malloc found (skipOws cursor) = takeParameters malloc found parameters := by
  induction h generalizing found with
  | nil hblank =>
    have hend := skipOws_append hblank []
    rw [append_nil] at hend
    rw [hend, parameterLoop.eq_def]
    rfl
  | @cons a b c d name text rest value parameters ha hb hc hd hname hvalue hrest ih =>
    rw [skipOws_append ha, skipOws_cons (by decide), parameterLoop_semicolon,
      parseParameter_text hb hc hd hname hvalue hrest.atParameter]
    unfold takeParameters
    rw [foldlM_cons]
    dsimp only
    cases htake : takeParameter malloc found (name, value) with
    | error error => rfl
    | ok found => exact ih found

theorem Blank.append {a b : Bytes} (ha : Blank a) (hb : Blank b) : Blank (a ++ b) := by
  intro c hc
  cases mem_append.mp hc with
  | inl h => exact ha c h
  | inr h => exact hb c h

theorem Parameters.blank_append {blank : Bytes} (hblank : Blank blank) (h : Parameters parameters cursor) :
    Parameters parameters (blank ++ cursor) := by
  cases h with
  | nil h => exact .nil (hblank.append h)
  | cons ha hb hc hd hname hvalue hrest =>
    rw [← append_assoc]
    exact .cons (hblank.append ha) hb hc hd hname hvalue hrest

theorem exists_parameters (h : parameterLoop malloc found cursor ≠ .invalid)
    (hmemory : parameterLoop malloc found cursor ≠ .outOfMemory) : ∃ parameters, Parameters parameters cursor := by
  induction found, cursor using parameterLoop.induct malloc with
  | case1 found => exact ⟨[], .nil blank_nil⟩
  | case2 found c cursor hother => exact absurd (parameterLoop_other hother) h
  | case3 found c cursor hsemicolon hparse =>
    rw [not_not.mp hsemicolon, parameterLoop_semicolon, hparse] at h
    exact absurd rfl h
  | case4 found c cursor hsemicolon parameter rest hparse error htake =>
    rw [not_not.mp hsemicolon, parameterLoop_semicolon, hparse] at h hmemory
    dsimp only at h hmemory
    rw [htake] at h hmemory
    cases error with
    | invalid => exact absurd rfl h
    | outOfMemory => exact absurd rfl hmemory
  | case5 found c cursor hsemicolon parameter rest hparse found' htake ih =>
    rw [not_not.mp hsemicolon, parameterLoop_semicolon, hparse] at h hmemory
    dsimp only at h hmemory
    rw [htake] at h hmemory
    obtain ⟨parameters, hparameters⟩ := ih h hmemory
    obtain ⟨b, c', d, text, tail, hb, hc, hd, hname, hvalue, _, rfl, rfl⟩ := text_of_parseParameter hparse
    obtain ⟨blank, hblank, htail⟩ := exists_blank tail
    have hrest := hparameters.blank_append hblank
    rw [← htail] at hrest
    rw [not_not.mp hsemicolon]
    exact ⟨_, .cons blank_nil hb hc hd hname hvalue hrest⟩

end

end Bx.Fetch.Header
