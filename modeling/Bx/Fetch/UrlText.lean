import Bx.Kit.PercentEscape

/-!
# The text of a URL

From `src/lib/fetch/net/url.c`: a component is brought into one form without
its escapes being read, and a local path is written as a reference and read
back. Reading is left to `curl_easy_unescape`.
-/

namespace Bx.Fetch.Url
open Kit List

def sizeMax : Nat := 2 ^ 64 - 1

def urlMaxBytes : Nat := 64 * 1024

abbrev Allocator := Nat → Bool

inductive Failure where
  | inval
  | fbig
  | nomem
  /-- `errno` is left as it was. -/
  | unset
  deriving DecidableEq

/-! ## Bytes -/

def asciiIsHex (c : UInt8) : Bool := (48 ≤ c && c ≤ 57) || (97 ≤ c && c ≤ 102) || (65 ≤ c && c ≤ 70)

def asciiHexValue (c : UInt8) : Nat :=
  if 48 ≤ c ∧ c ≤ 57 then c.toNat - 48
  else if 97 ≤ c ∧ c ≤ 102 then 10 + c.toNat - 97
  else 10 + c.toNat - 65

def isAlnum (c : UInt8) : Bool := (97 ≤ c && c ≤ 122) || (65 ≤ c && c ≤ 90) || (48 ≤ c && c ≤ 57)

-- `-`, `.`, `_` and `~`
def uriIsUnreserved (c : UInt8) : Bool := isAlnum c || [45, 46, 95, 126].contains c

-- `!`, `$`, `&`, `'`, `(`, `)`, `*`, `+`, `,`, `;` and `=`
def uriIsSubdelimiter (c : UInt8) : Bool := [33, 36, 38, 39, 40, 41, 42, 43, 44, 59, 61].contains c

def colon : UInt8 := 58

def atSign : UInt8 := 64

def slash : UInt8 := 47

def questionMark : UInt8 := 63

def numberSign : UInt8 := 35

inductive URLComponentKind where
  | userinfo
  | path
  | query
  | zoneId

def uriComponentAllows (kind : URLComponentKind) (c : UInt8) : Bool :=
  uriIsUnreserved c || uriIsSubdelimiter c ||
    match kind with
    | .userinfo => c == colon
    | .path => c == colon || c == atSign || c == slash
    | .query => c == colon || c == atSign || c == slash || c == questionMark
    | .zoneId => false

def canonicalText (kind : URLComponentKind) : Bytes → Option Bytes
  | [] => some []
  | c :: rest =>
    if c = percentSign then
      match rest with
      | high :: low :: rest =>
        if asciiIsHex high ∧ asciiIsHex low then
          (canonicalText kind rest).map (percentEscape (asciiHexValue high * 16 + asciiHexValue low).toUInt8 ++ ·)
        else none
      | _ => none
    else if c < 128 ∧ uriComponentAllows kind c then (canonicalText kind rest).map (c :: ·)
    else (canonicalText kind rest).map (percentEscape c ++ ·)

def canonicalizeUriComponent (malloc : Allocator) (value : Bytes) (kind : URLComponentKind) : Except Failure Bytes :=
  if (sizeMax - 1) / 3 < value.length then .error .nomem
  else if ¬malloc (value.length * 3 + 1) then .error .nomem
  else
    match canonicalText kind value with
    | none => .error .inval
    | some canonical => .ok canonical

/-! ## Paths -/

def encodedByte (path : Bool) (c : UInt8) : Bytes :=
  if uriIsUnreserved c || (path && c == slash) then [c] else percentEscape c

def encodeUrlText (malloc : Allocator) (input : Bytes) (maxBytes : Nat) (path : Bool) : Except Failure Bytes :=
  if maxBytes = sizeMax then .error .unset
  else if maxBytes < input.length ∨ (sizeMax - 1) / 3 < input.length then .error .fbig
  else if ¬malloc (input.length * 3 + 1) then .error .nomem
  else .ok (input.flatMap (encodedByte path))

def encodeComponent (malloc : Allocator) (input : Bytes) (maxBytes : Nat) : Except Failure Bytes :=
  encodeUrlText malloc input maxBytes false

def encodePath (malloc : Allocator) (input : Bytes) (maxBytes : Nat) : Except Failure Bytes :=
  encodeUrlText malloc input maxBytes true

def urlHasValidPercentEscapes : Bytes → Bool
  | [] => true
  | c :: rest =>
    if c = percentSign then
      match rest with
      | high :: low :: rest => asciiIsHex high && asciiIsHex low && urlHasValidPercentEscapes rest
      | _ => false
    else urlHasValidPercentEscapes rest

/-- `curl_easy_unescape` gives nothing where memory runs out; so does `strdup`. -/
def decodePath (curlEasyUnescape : Bytes → Option Bytes) (malloc : Allocator) (input : Bytes) : Except Failure Bytes :=
  if urlMaxBytes < input.length ∨ ¬urlHasValidPercentEscapes input then .error .inval
  else
    match curlEasyUnescape input with
    | none => .error .nomem
    | some decoded =>
      if 0 ∈ decoded then .error .inval
      else if malloc (decoded.length + 1) then .ok decoded
      else .error .nomem

/-! ## Digits and escapes -/

section
variable {kind : URLComponentKind} {malloc : Allocator} {value text bytes out : Bytes}

set_option maxRecDepth 4000 in
theorem hexValue_eq (c : UInt8) : hexValue c = if asciiIsHex c = true then some (asciiHexValue c) else none := by
  have hall : ∀ n, n < 256 → hexValue (UInt8.ofNat n) =
      if asciiIsHex (UInt8.ofNat n) = true then some (asciiHexValue (UInt8.ofNat n)) else none := by
    decide
  exact forall_byte (P := fun c => hexValue c = if asciiIsHex c = true then some (asciiHexValue c) else none) hall c

variable {c : UInt8}

theorem asciiIsHex_of_hexValue {v : Nat} (h : hexValue c = some v) : asciiIsHex c = true ∧ asciiHexValue c = v := by
  rw [hexValue_eq] at h
  by_cases hhex : asciiIsHex c = true
  · rw [if_pos hhex] at h
    exact ⟨hhex, Option.some.inj h⟩
  · simp [hhex] at h

theorem hexValue_of_asciiIsHex (h : asciiIsHex c = true) : hexValue c = some (asciiHexValue c) := by
  rw [hexValue_eq, if_pos h]

theorem canonicalText_escape {high low : UInt8} {hi lo : Nat} (hhigh : hexValue high = some hi)
    (hlow : hexValue low = some lo) (rest : Bytes) :
    canonicalText kind (percentSign :: high :: low :: rest) =
      (canonicalText kind rest).map (percentEscape (hi * 16 + lo).toUInt8 ++ ·) := by
  obtain ⟨hhex, rfl⟩ := asciiIsHex_of_hexValue hhigh
  obtain ⟨hhex', rfl⟩ := asciiIsHex_of_hexValue hlow
  rw [canonicalText.eq_def]
  dsimp only
  rw [if_pos rfl, if_pos ⟨hhex, hhex'⟩]

theorem canonicalText_byte (hc : c ≠ percentSign) (rest : Bytes) :
    canonicalText kind (c :: rest) = (canonicalText kind rest).map
      ((if c < 128 ∧ uriComponentAllows kind c = true then [c] else percentEscape c) ++ ·) := by
  rw [canonicalText.eq_def]
  dsimp only
  rw [if_neg hc]
  by_cases hallows : c < 128 ∧ uriComponentAllows kind c = true
  · rw [if_pos hallows, if_pos hallows]
    rfl
  · rw [if_neg hallows, if_neg hallows]

/-- Characters that the kind allows, and escapes in capital letters; and the bytes they stand for -/
inductive Canonical (kind : URLComponentKind) : Bytes → Bytes → Prop where
  | nil : Canonical kind [] []
  | plain {c : UInt8} {text bytes : Bytes} (hascii : c < 128) (hallows : uriComponentAllows kind c = true)
      (h : Canonical kind text bytes) : Canonical kind (c :: text) (c :: bytes)
  | escape {text bytes : Bytes} (c : UInt8) (h : Canonical kind text bytes) :
      Canonical kind (percentEscape c ++ text) (c :: bytes)

theorem ne_percentSign_of_allows (h : uriComponentAllows kind c = true) : c ≠ percentSign := by
  intro hc
  rw [hc] at h
  cases kind <;> exact absurd h (by decide)

theorem Canonical.escaped (h : Canonical kind text bytes) : Escaped text bytes := by
  induction h with
  | nil => exact .nil
  | plain hascii hallows h ih => exact .plain (ne_percentSign_of_allows hallows) ih
  | escape c h ih => exact escaped_percentEscape c ih

theorem Canonical.canonicalText (h : Canonical kind text bytes) : canonicalText kind text = some text := by
  induction h with
  | nil => rfl
  | plain hascii hallows h ih =>
    rw [canonicalText_byte (ne_percentSign_of_allows hallows), if_pos ⟨hascii, hallows⟩, ih]
    rfl
  | @escape text bytes c h ih =>
    have hc := c.toNat_lt
    have hstep := @canonicalText_escape kind _ _ _ _ (@hexValue_upperHexDigit (c.toNat / 16) (by omega))
      (@hexValue_upperHexDigit (c.toNat % 16) (by omega))
    rw [toUInt8_halves] at hstep
    refine (hstep text).trans ?_
    rw [ih]
    rfl

theorem exists_canonical (h : Escaped value bytes) : ∃ out, canonicalText kind value = some out ∧
    Canonical kind out bytes := by
  induction h with
  | nil => exact ⟨[], rfl, .nil⟩
  | @plain c text bytes hc h ih =>
    obtain ⟨out, hout, hcanonical⟩ := ih
    rw [canonicalText_byte hc, hout]
    refine ⟨_, rfl, ?_⟩
    by_cases hallows : c < 128 ∧ uriComponentAllows kind c = true
    · rw [if_pos hallows]
      exact .plain hallows.1 hallows.2 hcanonical
    · rw [if_neg hallows]
      exact .escape c hcanonical
  | escape hhigh hlow h ih =>
    obtain ⟨out, hout, hcanonical⟩ := ih
    rw [canonicalText_escape hhigh hlow, hout]
    exact ⟨_, rfl, .escape _ hcanonical⟩

theorem escaped_of_canonicalText (h : canonicalText kind value = some out) : ∃ bytes, Escaped value bytes := by
  induction value using canonicalText.induct kind generalizing out with
  | case1 => exact ⟨[], .nil⟩
  | case2 high low rest hhex ih =>
    rw [canonicalText_escape (hexValue_of_asciiIsHex hhex.1) (hexValue_of_asciiIsHex hhex.2)] at h
    obtain ⟨text, htext, _⟩ := Option.map_eq_some_iff.mp h
    obtain ⟨bytes, hbytes⟩ := ih htext
    exact ⟨_, .escape (hexValue_of_asciiIsHex hhex.1) (hexValue_of_asciiIsHex hhex.2) hbytes⟩
  | case3 high low rest hhex =>
    have hnone : canonicalText kind (percentSign :: high :: low :: rest) = none := if_neg hhex
    simp [hnone] at h
  | case4 rest hshort =>
    match rest with
    | [] => cases h
    | [high] => cases h
    | high :: low :: rest => exact absurd rfl (hshort high low rest)
  | case5 c rest hc hallows ih =>
    rw [canonicalText_byte hc] at h
    obtain ⟨text, htext, _⟩ := Option.map_eq_some_iff.mp h
    obtain ⟨bytes, hbytes⟩ := ih htext
    exact ⟨_, .plain hc hbytes⟩
  | case6 c rest hc hallows ih =>
    rw [canonicalText_byte hc] at h
    obtain ⟨text, htext, _⟩ := Option.map_eq_some_iff.mp h
    obtain ⟨bytes, hbytes⟩ := ih htext
    exact ⟨_, .plain hc hbytes⟩

/-! ## Components -/

def Room (malloc : Allocator) (text : Bytes) : Prop :=
  text.length ≤ (sizeMax - 1) / 3 ∧ malloc (text.length * 3 + 1) = true

theorem canonicalizeUriComponent_iff :
    canonicalizeUriComponent malloc value kind = .ok out ↔ Room malloc value ∧ canonicalText kind value = some out := by
  unfold canonicalizeUriComponent Room
  by_cases hlong : (sizeMax - 1) / 3 < value.length
  · rw [if_pos hlong]
    exact ⟨fun h => (nomatch h), fun h => absurd h.1.1 (Nat.not_le.mpr hlong)⟩
  · rw [if_neg hlong]
    by_cases hmalloc : malloc (value.length * 3 + 1) = true
    · rw [if_neg (not_not_intro hmalloc)]
      cases canonicalText kind value with
      | none => exact ⟨fun h => (nomatch h), fun h => (nomatch h.2)⟩
      | some canonical =>
        refine ⟨?_, ?_⟩
        · intro h
          cases h
          exact ⟨⟨Nat.not_lt.mp hlong, hmalloc⟩, rfl⟩
        · intro h
          cases h.2
          rfl
    · rw [if_pos hmalloc]
      exact ⟨fun h => (nomatch h), fun h => absurd h.1.2 hmalloc⟩

theorem canonicalizeUriComponent_succeeds (malloc : Allocator) (kind : URLComponentKind) (value : Bytes) :
    (∃ out, canonicalizeUriComponent malloc value kind = .ok out) ↔ WellEscaped value ∧ Room malloc value := by
  simp only [canonicalizeUriComponent_iff]
  refine ⟨?_, ?_⟩
  · intro h
    obtain ⟨out, hroom, hout⟩ := h
    obtain ⟨bytes, hbytes⟩ := escaped_of_canonicalText hout
    exact ⟨hbytes.wellEscaped, hroom⟩
  · intro h
    obtain ⟨bytes, hbytes⟩ := h.1.escaped
    obtain ⟨out, hout, _⟩ := @exists_canonical kind _ _ hbytes
    exact ⟨out, h.2, hout⟩

theorem canonical_of_canonicalText (h : canonicalText kind value = some out) :
    Canonical kind out (percentDecode value) := by
  obtain ⟨bytes, hbytes⟩ := escaped_of_canonicalText h
  obtain ⟨other, hother, hcanonical⟩ := @exists_canonical kind _ _ hbytes
  rw [h] at hother
  cases hother
  rw [hbytes.percentDecode]
  exact hcanonical

set_option maxRecDepth 4000 in
theorem encodedByte_kinds (c : UInt8) :
    (∀ path, encodedByte path c = percentEscape c ∨ encodedByte path c = [c] ∧ c ≠ percentSign) ∧
      slash ∉ encodedByte false c ∧ questionMark ∉ encodedByte false c ∧ numberSign ∉ encodedByte false c := by
  have hall : ∀ n, n < 256 → (∀ path, encodedByte path (UInt8.ofNat n) = percentEscape (UInt8.ofNat n) ∨
        encodedByte path (UInt8.ofNat n) = [UInt8.ofNat n] ∧ UInt8.ofNat n ≠ percentSign) ∧
      slash ∉ encodedByte false (UInt8.ofNat n) ∧ questionMark ∉ encodedByte false (UInt8.ofNat n) ∧
        numberSign ∉ encodedByte false (UInt8.ofNat n) := by
    decide
  exact forall_byte (P := fun c =>
    (∀ path, encodedByte path c = percentEscape c ∨ encodedByte path c = [c] ∧ c ≠ percentSign) ∧
      slash ∉ encodedByte false c ∧ questionMark ∉ encodedByte false c ∧ numberSign ∉ encodedByte false c) hall c

theorem escaped_encoded (path : Bool) (input : Bytes) : Escaped (input.flatMap (encodedByte path)) input := by
  induction input with
  | nil => exact .nil
  | cons c input ih =>
    rw [flatMap_cons]
    cases (encodedByte_kinds c).1 path with
    | inl hescape =>
      rw [hescape]
      exact escaped_percentEscape c ih
    | inr hplain =>
      rw [hplain.1]
      exact .plain hplain.2 ih

theorem encodeUrlText_iff {input encoded : Bytes} {maxBytes : Nat} {path : Bool} :
    encodeUrlText malloc input maxBytes path = .ok encoded ↔
      (maxBytes ≠ sizeMax ∧ input.length ≤ maxBytes ∧ Room malloc input) ∧
        input.flatMap (encodedByte path) = encoded := by
  unfold encodeUrlText Room
  by_cases hmax : maxBytes = sizeMax
  · rw [if_pos hmax]
    exact ⟨fun h => (nomatch h), fun h => absurd hmax h.1.1⟩
  · rw [if_neg hmax]
    by_cases hlong : maxBytes < input.length ∨ (sizeMax - 1) / 3 < input.length
    · rw [if_pos hlong]
      refine ⟨fun h => (nomatch h), ?_⟩
      intro h
      omega
    · rw [if_neg hlong]
      by_cases hmalloc : malloc (input.length * 3 + 1) = true
      · rw [if_neg (not_not_intro hmalloc)]
        refine ⟨?_, fun h => congrArg Except.ok h.2⟩
        intro h
        exact ⟨⟨hmax, by omega, by omega, hmalloc⟩, Except.ok.inj h⟩
      · rw [if_pos hmalloc]
        exact ⟨fun h => (nomatch h), fun h => absurd h.1.2.2.2 hmalloc⟩

/-! ## Decoding -/

theorem urlHasValidPercentEscapes_of_escaped (h : Escaped text bytes) : urlHasValidPercentEscapes text = true := by
  induction h with
  | nil => rfl
  | plain hc h ih =>
    rw [urlHasValidPercentEscapes.eq_def]
    dsimp only
    rw [if_neg hc, ih]
  | escape hhigh hlow h ih =>
    rw [urlHasValidPercentEscapes.eq_def]
    dsimp only
    rw [if_pos rfl, (asciiIsHex_of_hexValue hhigh).1, (asciiIsHex_of_hexValue hlow).1, ih]
    rfl

theorem decodePath_escaped {curlEasyUnescape : Bytes → Option Bytes}
    (hcurl : ∀ input, curlEasyUnescape input = some (percentDecode input)) (h : Escaped text bytes) (hnul : 0 ∉ bytes)
    (hmalloc : malloc (bytes.length + 1) = true) :
    decodePath curlEasyUnescape malloc text = if text.length ≤ urlMaxBytes then .ok bytes else .error .inval := by
  have hvalid := urlHasValidPercentEscapes_of_escaped h
  unfold decodePath
  by_cases hfits : text.length ≤ urlMaxBytes
  · have hpass : ¬(urlMaxBytes < text.length ∨ ¬urlHasValidPercentEscapes text = true) := by
      intro hor
      cases hor with
      | inl hlong => exact Nat.not_le.mpr hlong hfits
      | inr hbad => exact hbad hvalid
    rw [if_neg hpass, if_pos hfits, hcurl, h.percentDecode]
    dsimp only
    rw [if_neg hnul, if_pos hmalloc]
  · rw [if_pos (.inl (Nat.not_le.mp hfits)), if_neg hfits]

end

/-- **Main result.** A component is accepted where its percent signs have their digits and there is memory; what it
becomes is canonical, stands for the same bytes and stays as it is. A path is read back from its encoding unless that
is longer than a URL may be, and an encoded component has none of the signs that part a URL. -/
theorem url_text : (∀ malloc kind value, (∃ out, canonicalizeUriComponent malloc value kind = .ok out) ↔
      WellEscaped value ∧ Room malloc value) ∧
    (∀ malloc kind value out, canonicalizeUriComponent malloc value kind = .ok out →
      Canonical kind out (percentDecode value) ∧ percentDecode out = percentDecode value ∧
        ∀ malloc', Room malloc' out → canonicalizeUriComponent malloc' out kind = .ok out) ∧
    (∀ malloc input maxBytes path, (∃ encoded, encodeUrlText malloc input maxBytes path = .ok encoded) ↔
      maxBytes ≠ sizeMax ∧ input.length ≤ maxBytes ∧ Room malloc input) ∧
    (∀ malloc input maxBytes encoded, 0 ∉ input → encodePath malloc input maxBytes = .ok encoded →
      ∀ (curlEasyUnescape : Bytes → Option Bytes) (malloc' : Allocator),
        (∀ text, curlEasyUnescape text = some (percentDecode text)) → malloc' (input.length + 1) = true →
          decodePath curlEasyUnescape malloc' encoded =
            if encoded.length ≤ urlMaxBytes then .ok input else .error .inval) ∧
    ∀ malloc input maxBytes encoded, encodeComponent malloc input maxBytes = .ok encoded →
      slash ∉ encoded ∧ questionMark ∉ encoded ∧ numberSign ∉ encoded ∧ WellEscaped encoded := by
  refine ⟨canonicalizeUriComponent_succeeds, ?_, ?_, ?_, ?_⟩
  · intro malloc kind value out h
    have hcanonical := canonical_of_canonicalText (canonicalizeUriComponent_iff.mp h).2
    refine ⟨hcanonical, hcanonical.escaped.percentDecode, ?_⟩
    intro malloc' hroom
    exact canonicalizeUriComponent_iff.mpr ⟨hroom, hcanonical.canonicalText⟩
  · intro malloc input maxBytes path
    simp only [encodeUrlText_iff]
    exact ⟨fun ⟨_, h, _⟩ => h, fun h => ⟨_, h, rfl⟩⟩
  · intro malloc input maxBytes encoded hnul h curlEasyUnescape malloc' hcurl hmalloc
    obtain ⟨_, rfl⟩ := encodeUrlText_iff.mp h
    exact decodePath_escaped hcurl (escaped_encoded true input) hnul hmalloc
  · intro malloc input maxBytes encoded h
    obtain ⟨_, rfl⟩ := encodeUrlText_iff.mp h
    have hnone : ∀ {b : UInt8}, (∀ c, b ∉ encodedByte false c) → b ∉ input.flatMap (encodedByte false) := by
      intro b hb hmem
      obtain ⟨c, _, hc⟩ := mem_flatMap.mp hmem
      exact hb c hc
    exact ⟨hnone fun c => (encodedByte_kinds c).2.1, hnone fun c => (encodedByte_kinds c).2.2.1,
      hnone fun c => (encodedByte_kinds c).2.2.2, (escaped_encoded false input).wellEscaped⟩

theorem length_encoded_blanks (n : Nat) : ((replicate n (32 : UInt8)).flatMap (encodedByte true)).length = n * 3 := by
  have hblank : (encodedByte true 32).length = 3 := by decide
  rw [length_flatMap, map_replicate, sum_replicate_nat, hblank]

/-- Blanks within the limit, of which the encoding is longer than the limit -/
theorem decodePath_refuses_encoded :
    (replicate 21846 (32 : UInt8)).length ≤ urlMaxBytes ∧ 0 ∉ replicate 21846 (32 : UInt8) ∧
      ∃ encoded, encodePath (fun _ => true) (replicate 21846 32) urlMaxBytes = .ok encoded ∧
        decodePath (fun text => some (percentDecode text)) (fun _ => true) encoded = .error .inval := by
  have hlength : (replicate 21846 (32 : UInt8)).length ≤ urlMaxBytes := by
    rw [length_replicate]
    decide
  refine ⟨hlength, ?_, (replicate 21846 32).flatMap (encodedByte true), ?_, ?_⟩
  · intro hmem
    exact absurd (eq_of_mem_replicate hmem) (by decide)
  · refine encodeUrlText_iff.mpr ⟨⟨by decide, hlength, ?_, rfl⟩, rfl⟩
    rw [length_replicate]
    decide
  · refine if_pos (.inl ?_)
    rw [length_encoded_blanks]
    decide

example : canonicalizeUriComponent (fun _ => true) [37, 52, 97, 32] .path = .ok [37, 52, 65, 37, 50, 48] := by
  decide

end Bx.Fetch.Url
