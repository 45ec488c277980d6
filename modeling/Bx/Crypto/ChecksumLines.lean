import Bx.Kit.Delimited
import Bx.Kit.Hex

/-!
# Checksum lists

The lines that `src/crypto/digestsum.c` prints and those it reads back with `--check`. A name with a backslash, a
newline or a carriage return is escaped, and a backslash in front of the line says so.
-/

namespace Bx.Crypto

open Kit List

/-- `struct bx_digestsum_impl`, as far as lines go. The label begins with no digit and no backslash. -/
structure DigestImpl where
  algorithmLabel : Bytes
  digestSize : Nat
  size_pos : 0 < digestSize
  size_le : digestSize ≤ 64
  label_short : algorithmLabel.length < 30
  label_head : ∃ c rest, algorithmLabel = c :: rest ∧ hexValue c = none ∧ c ≠ 92
  label_plain : 0 ∉ algorithmLabel ∧ 10 ∉ algorithmLabel

def md5sum : DigestImpl := ⟨ascii "MD5", 16, by decide, by decide, by decide, ⟨_, _, rfl, rfl, by decide⟩, by decide⟩

def sha1sum : DigestImpl := ⟨ascii "SHA1", 20, by decide, by decide, by decide, ⟨_, _, rfl, rfl, by decide⟩, by decide⟩

def sha256sum : DigestImpl :=
  ⟨ascii "SHA256", 32, by decide, by decide, by decide, ⟨_, _, rfl, rfl, by decide⟩, by decide⟩

structure DigestOptions where
  binaryMode : Bool
  tag : Bool
  zero : Bool

/-- A digest of the implementation and the path it is printed with -/
structure Hashed (impl : DigestImpl) where
  digest : Bytes
  path : Bytes
  size : digest.length = impl.digestSize
  nonempty : path ≠ []
  noNul : 0 ∉ path

structure ChecksumRecord where
  digest : Bytes
  digestLen : Nat
  binaryMode : Bool
  filename : Bytes

/-! ## Printing -/

def filenameNeedsEscape (path : Bytes) : Bool := path.any fun c => c = 92 || c = 10 || c = 13

def escapedByte (c : UInt8) : Bytes :=
  if c = 92 then [92, 92] else if c = 10 then [92, 110] else if c = 13 then [92, 114] else [c]

def escapedPath (path : Bytes) : Bytes := path.flatMap escapedByte

def printHashResult (impl : DigestImpl) (options : DigestOptions) (hashed : Hashed impl) : Bytes :=
  let escaped := !options.zero && filenameNeedsEscape hashed.path
  let path := if escaped then escapedPath hashed.path else hashed.path
  (if escaped then [92] else []) ++
    (if options.tag then impl.algorithmLabel ++ ascii " (" ++ path ++ ascii ") = " ++ hexText hashed.digest
    else hexText hashed.digest ++ [32, if options.binaryMode then 42 else 32] ++ path) ++
    [if options.zero then 0 else 10]

/-! ## Reading -/

/-- What has been written over the text, and whether its end was reached -/
def unescapeFrom : Bytes → Bytes × Bool
  | [] => ([], true)
  | c :: rest =>
    if c ≠ 92 then (c :: (unescapeFrom rest).1, (unescapeFrom rest).2)
    else
      match rest with
      | [] => ([], false)
      | escape :: rest =>
        if escape = 92 then (92 :: (unescapeFrom rest).1, (unescapeFrom rest).2)
        else if escape = 110 then (10 :: (unescapeFrom rest).1, (unescapeFrom rest).2)
        else if escape = 114 then (13 :: (unescapeFrom rest).1, (unescapeFrom rest).2)
        else ([], false)

/-- The text as it stands after `bx_digestsum_unescape_path`, and what that returns -/
def unescapePath (text : Bytes) : Bytes × Bool :=
  let (written, ok) := unescapeFrom text
  (if ok then written else written ++ text.drop written.length, ok)

variable (line : Bytes)

def parseCheckLine (digestLen : Nat) : Option ChecksumRecord :=
  let hexLen := digestLen * 2
  if digestLen = 0 ∨ 64 < digestLen ∨ line.length < hexLen + 2 then none
  else
    (unhex (line.take hexLen)).bind fun digest =>
      match line.drop hexLen with
      | 32 :: mode :: filename =>
        if (mode = 42 ∨ mode = 32) ∧ filename ≠ [] then some ⟨digest, digestLen, mode = 42, filename⟩ else none
      | _ => none

/-- Whether the path is escaped, and the line behind the mark -/
def takeMark : Bool × Bytes := if line.head? = some 92 then (true, line.tail) else (false, line)

/-- The record, and the line as it is left -/
def parseUntaggedLine (digestLen : Nat) : Option ChecksumRecord × Bytes :=
  let (escaped, text) := takeMark line
  match parseCheckLine text digestLen with
  | none => (none, line)
  | some record =>
    if escaped then
      let (path, ok) := unescapePath record.filename
      (if ok then some { record with filename := path } else none,
        92 :: (text.take (digestLen * 2 + 2) ++ path))
    else (some record, line)

def parseHexDigest (text : Bytes) (digestLen : Nat) : Option Bytes :=
  if text.length ≠ digestLen * 2 then none else unhex text

/-- Each place where the separator stands is given up for a later one. -/
def findLastTaggedSeparator : Bytes → Option Nat
  | [] => none
  | c :: text =>
    match findLastTaggedSeparator text with
    | some i => some (i + 1)
    | none => if ascii ") = " <+: c :: text then some 0 else none

def parseTaggedLine (impl : DigestImpl) : Option ChecksumRecord :=
  let (escaped, text) := takeMark line
  let start := (impl.algorithmLabel ++ ascii " (").take 31
  if ¬ start <+: text then none
  else
    let path := text.drop start.length
    (findLastTaggedSeparator path).bind fun sep =>
      if path.take sep = [] then none
      else
        (parseHexDigest (path.drop (sep + 4)) impl.digestSize).bind fun digest =>
          if escaped then
            let (filename, ok) := unescapePath (path.take sep)
            if ok then some ⟨digest, impl.digestSize, false, filename⟩ else none
          else some ⟨digest, impl.digestSize, false, path.take sep⟩

def parseCheckRecord (impl : DigestImpl) : Option ChecksumRecord :=
  match parseUntaggedLine line impl.digestSize with
  | (some record, _) => some record
  | (none, line) => parseTaggedLine line impl

/-- The line that `bx_digestsum_verify_stream` hands on, as a string -/
def verifiedLine : Bytes :=
  let line := if line.getLast? = some 10 then line.dropLast else line
  cText (if line.getLast? = some 13 then line.dropLast else line)

def verifyStream (impl : DigestImpl) (content : Bytes) : List (Option ChecksumRecord) :=
  (delimited 10 content).map fun line => parseCheckRecord (verifiedLine line) impl

/-! ## Paths -/

section
variable {path : Bytes}

theorem unescapeFrom_escaped (c : UInt8) (rest : Bytes) :
    unescapeFrom (escapedByte c ++ rest) = (c :: (unescapeFrom rest).1, (unescapeFrom rest).2) := by
  unfold escapedByte
  by_cases hback : c = 92
  · rw [if_pos hback, hback]
    rfl
  rw [if_neg hback]
  by_cases hline : c = 10
  · rw [if_pos hline, hline]
    rfl
  rw [if_neg hline]
  by_cases hreturn : c = 13
  · rw [if_pos hreturn, hreturn]
    rfl
  rw [if_neg hreturn, singleton_append, unescapeFrom.eq_def]
  exact if_pos hback

theorem unescapePath_escapedPath (path : Bytes) : unescapePath (escapedPath path) = (path, true) := by
  have hwritten : unescapeFrom (escapedPath path) = (path, true) := by
    induction path with
    | nil => rfl
    | cons c path ih =>
      unfold escapedPath at ih ⊢
      rw [flatMap_cons, unescapeFrom_escaped, ih]
  unfold unescapePath
  rw [hwritten]
  rfl

set_option maxRecDepth 4000 in
theorem escapedByte_plain (c : UInt8) :
    escapedByte c ≠ [] ∧ 10 ∉ escapedByte c ∧ 13 ∉ escapedByte c ∧ (0 ∈ escapedByte c → c = 0) :=
  forall_byte (P := fun c => escapedByte c ≠ [] ∧ 10 ∉ escapedByte c ∧ 13 ∉ escapedByte c ∧ (0 ∈ escapedByte c → c = 0))
    (by decide) c

/-- The path as it is printed -/
def shownPath (path : Bytes) : Bytes := if filenameNeedsEscape path then escapedPath path else path

theorem shownPath_plain (hpath : 0 ∉ path) : 0 ∉ shownPath path ∧ 10 ∉ shownPath path ∧ 13 ∉ shownPath path := by
  unfold shownPath escapedPath
  split
  · simp only [mem_flatMap, not_exists, not_and]
    refine ⟨fun c hc h => ?_, fun c _ => (escapedByte_plain c).2.1, fun c _ => (escapedByte_plain c).2.2.1⟩
    exact hpath ((escapedByte_plain c).2.2.2 h ▸ hc)
  · next hescape =>
    have hplain : ∀ b ∈ path, b ≠ 10 ∧ b ≠ 13 := by
      intro b hb
      have hall := any_eq_false.mp (Bool.eq_false_iff.mpr hescape) b hb
      simp at hall
      exact ⟨hall.1.2, hall.2⟩
    exact ⟨hpath, fun h => (hplain 10 h).1 rfl, fun h => (hplain 13 h).2 rfl⟩

theorem shownPath_ne_nil (hpath : path ≠ []) : shownPath path ≠ [] := by
  unfold shownPath escapedPath
  split
  · obtain ⟨c, rest, rfl⟩ := exists_cons_of_ne_nil hpath
    rw [flatMap_cons]
    exact append_ne_nil_of_left_ne_nil (escapedByte_plain c).1 _
  · exact hpath

end

/-! ## The last separator -/

theorem findLastTaggedSeparator_append (before text : Bytes) {i : Nat} (h : findLastTaggedSeparator text = some i) :
    findLastTaggedSeparator (before ++ text) = some (before.length + i) := by
  induction before with
  | nil => rw [nil_append, length_nil, zero_add, h]
  | cons c before ih =>
    rw [cons_append, findLastTaggedSeparator, ih, length_cons]
    exact congrArg some (add_right_comm _ _ _)

theorem findLastTaggedSeparator_none {text : Bytes} (h : 41 ∉ text) : findLastTaggedSeparator text = none := by
  induction text with
  | nil => rfl
  | cons c text ih =>
    obtain ⟨hc, htext⟩ := not_or.mp (mem_cons.not.mp h)
    rw [findLastTaggedSeparator, ih htext]
    apply if_neg
    intro hstands
    exact hc (cons_prefix_cons.mp hstands).1

/-! ## Lines -/

section
variable {impl : DigestImpl} (options : DigestOptions) (hashed : Hashed impl)

def escapeMark (escaped : Bool) : Bytes := if escaped then [92] else []

def shownBody : Bytes :=
  if options.tag then impl.algorithmLabel ++ ascii " (" ++ shownPath hashed.path ++ ascii ") = " ++ hexText hashed.digest
  else hexText hashed.digest ++ [32, if options.binaryMode then 42 else 32] ++ shownPath hashed.path

theorem printHashResult_eq (hzero : options.zero = false) : printHashResult impl options hashed =
    escapeMark (filenameNeedsEscape hashed.path) ++ shownBody options hashed ++ [10] := by
  unfold printHashResult shownBody shownPath escapeMark
  rw [hzero]
  rfl

theorem digit_plain {c : UInt8} {bytes : Bytes} (h : c ∈ hexText bytes) : c ≠ 0 ∧ c ≠ 10 ∧ c ≠ 13 ∧ c ≠ 41 ∧ c ≠ 92 := by
  have hdigit := isHexDigit_of_mem_hexText h
  refine ⟨?_, ?_, ?_, ?_, ?_⟩ <;> intro heq <;> rw [heq] at hdigit <;> revert hdigit <;> decide

theorem shownBody_plain : 0 ∉ shownBody options hashed ∧ 10 ∉ shownBody options hashed := by
  obtain ⟨hzero, hline, _⟩ := shownPath_plain hashed.noNul
  obtain ⟨hlabelZero, hlabelLine⟩ := impl.label_plain
  have hdigitZero : 0 ∉ hexText hashed.digest := fun h => (digit_plain h).1 rfl
  have hdigitLine : 10 ∉ hexText hashed.digest := fun h => (digit_plain h).2.1 rfl
  unfold shownBody
  split
  · simp only [mem_append, not_or]
    exact ⟨⟨⟨⟨⟨hlabelZero, by decide⟩, hzero⟩, by decide⟩, hdigitZero⟩,
      ⟨⟨⟨⟨hlabelLine, by decide⟩, hline⟩, by decide⟩, hdigitLine⟩⟩
  · have hmode : ∀ b : Bool, (0 : UInt8) ∉ [32, if b then 42 else 32] ∧ (10 : UInt8) ∉ [32, if b then 42 else 32] := by
      decide
    simp only [mem_append, not_or]
    exact ⟨⟨⟨hdigitZero, (hmode _).1⟩, hzero⟩, ⟨⟨hdigitLine, (hmode _).2⟩, hline⟩⟩

theorem length_digits : (hexText hashed.digest).length = impl.digestSize * 2 := by
  rw [length_hexText, hashed.size, mul_comm]

theorem getLast?_shownBody : (shownBody options hashed).getLast? ≠ some 13 := by
  intro hlast
  unfold shownBody at hlast
  have hpath := shownPath_ne_nil hashed.nonempty
  split at hlast
  · have hdigits : hexText hashed.digest ≠ [] := by
      intro hnil
      have hlength := length_hexText hashed.digest
      have hpos := impl.size_pos
      rw [hnil, hashed.size] at hlength
      simp at hlength
      omega
    rw [getLast?_append_of_ne_nil _ hdigits] at hlast
    exact (digit_plain (mem_of_getLast? hlast)).2.2.1 rfl
  · rw [getLast?_append_of_ne_nil _ hpath] at hlast
    exact (shownPath_plain hashed.noNul).2.2 (mem_of_getLast? hlast)

theorem shownBody_ne_nil : shownBody options hashed ≠ [] := by
  unfold shownBody
  split <;> simp [shownPath_ne_nil hashed.nonempty]

theorem verifiedLine_printed (hzero : options.zero = false) : verifiedLine (printHashResult impl options hashed) =
    escapeMark (filenameNeedsEscape hashed.path) ++ shownBody options hashed := by
  rw [printHashResult_eq options hashed hzero]
  have hmark : ∀ escaped, 0 ∉ escapeMark escaped := by decide
  have hlast : (escapeMark (filenameNeedsEscape hashed.path) ++ shownBody options hashed).getLast? ≠ some 13 := by
    rw [getLast?_append_of_ne_nil _ (shownBody_ne_nil options hashed)]
    exact getLast?_shownBody options hashed
  unfold verifiedLine
  rw [getLast?_concat, if_pos rfl, dropLast_concat]
  dsimp only
  rw [if_neg hlast]
  apply cText_of_zero_notMem
  rw [mem_append]
  exact not_or.mpr ⟨hmark _, (shownBody_plain options hashed).1⟩

theorem parseCheckLine_hex {filename : Bytes} (hname : filename ≠ []) (binary : Bool) :
    parseCheckLine (hexText hashed.digest ++ [32, if binary then 42 else 32] ++ filename) impl.digestSize =
      some ⟨hashed.digest, impl.digestSize, binary, filename⟩ := by
  have hlength := length_digits hashed
  have hpos := length_pos_iff.mpr hname
  have hsize : ¬(impl.digestSize = 0 ∨ 64 < impl.digestSize ∨
      (hexText hashed.digest ++ [32, if binary then 42 else 32] ++ filename).length < impl.digestSize * 2 + 2) := by
    have hle := impl.size_le
    have hsome := impl.size_pos
    rw [length_append, length_append, hlength, length_cons, length_singleton]
    omega
  unfold parseCheckLine
  dsimp only
  rw [if_neg hsize, append_assoc, take_left' hlength, drop_left' hlength, unhex_hexText, Option.bind_some]
  cases binary with
  | true => exact if_pos ⟨.inl rfl, hname⟩
  | false => exact if_pos ⟨.inr rfl, hname⟩

theorem parseCheckLine_label (impl : DigestImpl) (rest : Bytes) :
    parseCheckLine (impl.algorithmLabel ++ rest) impl.digestSize = none := by
  obtain ⟨c, label, hlabel, hdigit, _⟩ := impl.label_head
  unfold parseCheckLine
  dsimp only
  split
  · rfl
  · next hsize =>
    obtain ⟨n, hn⟩ := Nat.exists_eq_add_one.mpr impl.size_pos
    rw [hlabel, cons_append] at hsize ⊢
    have hnone : unhex ((c :: (label ++ rest)).take (impl.digestSize * 2)) = none := by
      cases hmore : label ++ rest with
      | nil =>
        rw [hmore, length_singleton] at hsize
        omega
      | cons low more => rw [hn, Nat.succ_mul, take_succ_cons, take_succ_cons, unhex, hdigit]
    rw [hnone, Option.bind_none]

section
variable {text path : Bytes} {escaped : Bool} (hhead : text.head? ≠ some 92)
include hhead

theorem takeMark_escapeMark : takeMark (escapeMark escaped ++ text) = (escaped, text) := by
  cases escaped with
  | true => rfl
  | false => exact if_neg hhead

theorem parseUntaggedLine_printed {record : ChecksumRecord} {digestLen : Nat}
    (hparse : parseCheckLine text digestLen = some record)
    (hname : record.filename = if escaped then escapedPath path else path) :
    (parseUntaggedLine (escapeMark escaped ++ text) digestLen).1 = some { record with filename := path } := by
  unfold parseUntaggedLine
  rw [takeMark_escapeMark hhead]
  dsimp only
  rw [hparse]
  cases escaped with
  | true =>
    dsimp only
    rw [if_pos rfl, hname, if_pos rfl, unescapePath_escapedPath]
    rfl
  | false =>
    dsimp only
    rw [if_neg Bool.false_ne_true, ← show record.filename = path from hname]

theorem parseUntaggedLine_none {digestLen : Nat} (hparse : parseCheckLine text digestLen = none) :
    parseUntaggedLine (escapeMark escaped ++ text) digestLen = (none, escapeMark escaped ++ text) := by
  unfold parseUntaggedLine
  rw [takeMark_escapeMark hhead]
  dsimp only
  rw [hparse]

end

theorem label_head_ne (impl : DigestImpl) (rest : Bytes) : (impl.algorithmLabel ++ rest).head? ≠ some 92 := by
  obtain ⟨c, label, hlabel, _, hback⟩ := impl.label_head
  rw [hlabel]
  intro heq
  exact hback (Option.some.inj heq)

theorem parseTaggedLine_printed (escaped : Bool) {path shown : Bytes} (hne : shown ≠ [])
    (hshown : shown = if escaped then escapedPath path else path) :
    parseTaggedLine (escapeMark escaped ++ (impl.algorithmLabel ++ (ascii " (" ++ (shown ++ (ascii ") = " ++
      hexText hashed.digest))))) impl = some ⟨hashed.digest, impl.digestSize, false, path⟩ := by
  have hshort : (impl.algorithmLabel ++ ascii " (").take 31 = impl.algorithmLabel ++ ascii " (" := by
    apply take_of_length_le
    have hlabelShort := impl.label_short
    rw [length_append]
    change _ + 2 ≤ 31
    omega
  have hlast : findLastTaggedSeparator (shown ++ (ascii ") = " ++ hexText hashed.digest)) = some shown.length := by
    refine findLastTaggedSeparator_append (i := 0) shown _ ?_
    have hnone : 41 ∉ ascii " = " ++ hexText hashed.digest := by
      rw [mem_append]
      exact not_or.mpr ⟨by decide, fun h => (digit_plain h).2.2.2.1 rfl⟩
    change findLastTaggedSeparator (41 :: (ascii " = " ++ hexText hashed.digest)) = some 0
    rw [findLastTaggedSeparator, findLastTaggedSeparator_none hnone]
    exact if_pos (List.prefix_append _ _)
  unfold parseTaggedLine
  rw [takeMark_escapeMark (label_head_ne impl _), ← append_assoc impl.algorithmLabel]
  dsimp only
  rw [hshort, if_neg (not_not_intro (List.prefix_append _ _)), drop_left,
    hlast, Option.bind_some, take_left, if_neg hne, ← append_assoc shown, drop_left' (by rw [length_append]; rfl)]
  unfold parseHexDigest
  rw [if_neg (not_not_intro (length_digits hashed)), unhex_hexText, Option.bind_some]
  cases escaped with
  | true =>
    rw [if_pos rfl, hshown, if_pos rfl, unescapePath_escapedPath]
    rfl
  | false => rw [if_neg Bool.false_ne_true, hshown, if_neg Bool.false_ne_true]

theorem checkRecord_printed (hzero : options.zero = false) :
    parseCheckRecord (verifiedLine (printHashResult impl options hashed)) impl =
      some ⟨hashed.digest, impl.digestSize, options.binaryMode && !options.tag, hashed.path⟩ := by
  rw [verifiedLine_printed options hashed hzero]
  have hne := shownPath_ne_nil hashed.nonempty
  unfold shownBody parseCheckRecord
  cases htag : options.tag with
  | false =>
    rw [if_neg Bool.false_ne_true, Bool.not_false, Bool.and_true]
    have hhead : (hexText hashed.digest ++ [32, if options.binaryMode then 42 else 32] ++
        shownPath hashed.path).head? ≠ some 92 := by
      cases hdigits : hexText hashed.digest with
      | nil => exact fun heq => absurd (Option.some.inj heq) (by decide)
      | cons c more =>
        intro heq
        exact (@digit_plain c hashed.digest (hdigits ▸ mem_cons_self)).2.2.2.2 (Option.some.inj heq)
    have hrecord := @parseUntaggedLine_printed _ hashed.path (filenameNeedsEscape hashed.path) hhead _ _
      (parseCheckLine_hex hashed hne options.binaryMode) rfl
    generalize parseUntaggedLine _ _ = result at hrecord ⊢
    obtain ⟨record, line⟩ := result
    cases hrecord
    rfl
  | true =>
    rw [if_pos rfl, Bool.not_true, Bool.and_false, append_assoc impl.algorithmLabel, append_assoc impl.algorithmLabel,
      append_assoc impl.algorithmLabel, append_assoc (ascii _), append_assoc (ascii _), append_assoc (shownPath _),
      parseUntaggedLine_none (label_head_ne impl _) (parseCheckLine_label impl _)]
    exact parseTaggedLine_printed hashed _ hne rfl

end

/-- **Main result.** A list that was printed without `--zero` is read line by line as the digests and paths it was
printed from, in any of the forms and whatever the paths are, and no two of them are printed as the same line. -/
theorem checksum_lines_verify (impl : DigestImpl) (binaryMode tag : Bool) (list : List (Hashed impl)) :
    verifyStream impl (list.flatMap (printHashResult impl ⟨binaryMode, tag, false⟩)) =
        list.map (fun hashed => some ⟨hashed.digest, impl.digestSize, binaryMode && !tag, hashed.path⟩) ∧
      ∀ a b : Hashed impl, printHashResult impl ⟨binaryMode, tag, false⟩ a =
        printHashResult impl ⟨binaryMode, tag, false⟩ b → a.digest = b.digest ∧ a.path = b.path := by
  refine ⟨?_, ?_⟩
  · induction list with
    | nil => rfl
    | cons hashed list ih =>
      have hbody : 10 ∉ escapeMark (filenameNeedsEscape hashed.path) ++ shownBody ⟨binaryMode, tag, false⟩ hashed := by
        have hmark : ∀ escaped, 10 ∉ escapeMark escaped := by decide
        rw [mem_append]
        exact not_or.mpr ⟨hmark _, (shownBody_plain _ hashed).2⟩
      have hrecord := checkRecord_printed ⟨binaryMode, tag, false⟩ hashed rfl
      rw [printHashResult_eq _ hashed rfl] at hrecord
      unfold verifyStream at ih ⊢
      rw [flatMap_cons, printHashResult_eq _ hashed rfl, append_assoc, singleton_append, delimited_append hbody, map_cons,
        hrecord, ih, map_cons]
  · intro a b hsame
    have ha := checkRecord_printed ⟨binaryMode, tag, false⟩ a rfl
    rw [hsame, checkRecord_printed _ b rfl] at ha
    have hrecord := (Option.some.inj ha).symm
    exact ⟨congrArg ChecksumRecord.digest hrecord, congrArg ChecksumRecord.filename hrecord⟩

end Bx.Crypto
