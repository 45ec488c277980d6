import Bx.Kit.Bytes
import Bx.Kit.Cuts

/-!
# Lines in reverse

`src/applets/base/tac/tac.c` cuts a file into records, at each place where a text stands or a regular expression
matches, and writes them in reverse order. A regular expression is given by where it matches.
-/

namespace Bx.Tac

open Kit

/-! ## A text -/

def memmem (needle : Bytes) : Bytes → Option Nat
  | [] => if needle = [] then some 0 else none
  | c :: haystack =>
    if needle.isPrefixOf (c :: haystack) then some 0 else (memmem needle haystack).map (· + 1)

/-- The records from an offset on, for up to `fuel` of them -/
def scanLiteral (separator data : Bytes) : Nat → Nat → List Bytes → Option (List Bytes)
  | 0, _, _ => none
  | fuel + 1, offset, records =>
    if data.length ≤ offset then some records
    else
      match memmem separator (data.drop offset) with
      | some matchOff =>
        let recordLen := matchOff + separator.length
        scanLiteral separator data fuel (offset + recordLen) (records ++ [(data.drop offset).take recordLen])
      | none => some (records ++ [data.drop offset])

def hasSep (separator record : Bytes) : Bool :=
  separator.length ≤ record.length && record.drop (record.length - separator.length) == separator

def moveSep (separator record : Bytes) (first : Bool) : Bytes :=
  let body := if hasSep separator record then record.take (record.length - separator.length) else record
  if first then body else separator ++ body

def attachBefore (separator : Bytes) (records : List Bytes) : List Bytes :=
  match records with
  | [] => []
  | record :: rest =>
    moveSep separator record true :: rest.map (moveSep separator · false) ++
      (if records.getLast?.any (hasSep separator) then [separator] else [])

def tacFile (separator : Bytes) (before : Bool) (data : Bytes) : Option Bytes :=
  let records :=
    if separator = [] then some (if data = [] then [] else [data])
    else scanLiteral separator data (data.length + 1) 0 []
  records.map fun records =>
    (if before ∧ separator ≠ [] then attachBefore separator records else records).reverse.flatten

/-! ## A regular expression -/

structure Regex where
  matchAt : Bytes → MatchAt
  within : ∀ data, (matchAt data).Within data.length

def Regex.pcre2Match (re : Regex) (data : Bytes) (offset : Nat) : Option (Nat × Nat) :=
  firstMatch (re.matchAt data) (data.length + 1 - offset) offset

def literalAt (text data : Bytes) : MatchAt := fun s =>
  if text.isPrefixOf (data.drop s) then some (s + text.length) else none

def metacharacters : Bytes := [92, 94, 36, 46, 91, 124, 40, 41, 63, 42, 43, 123]

def MetaFree (pattern : Bytes) : Prop := ∀ c ∈ pattern, c ∉ metacharacters

structure Pcre2 where
  compile : Bytes → Option Regex
  plain : ∀ {pattern : Bytes}, pattern ≠ [] → MetaFree pattern →
    ∃ re, compile pattern = some re ∧ ∀ data, re.matchAt data = literalAt pattern data

structure Record where
  body : Bytes
  sep : Bytes

def scanRegex (re : Regex) (data : Bytes) : Nat → Nat → Nat → List Record → Option (List Record)
  | 0, _, _, _ => none
  | fuel + 1, offset, lastBodyStart, records =>
    if data.length < offset then some records
    else
      match re.pcre2Match data offset with
      | none =>
        let body := data.drop lastBodyStart
        some (if body ≠ [] ∨ records ≠ [] then records ++ [⟨body, []⟩] else records)
      | some (matchStart, matchEnd) =>
        if matchStart = matchEnd then scanRegex re data fuel (matchEnd + 1) lastBodyStart records
        else
          scanRegex re data fuel matchEnd matchEnd
            (records ++ [⟨segment data lastBodyStart matchStart, segment data matchStart matchEnd⟩])

def writeBefore (record : Record) : List Record → Bytes
  | [] => record.body
  | previous :: rest => previous.sep ++ record.body ++ writeBefore previous rest

def writeRecords (before : Bool) (records : List Record) : Bytes :=
  if before then
    match records.reverse with
    | [] => []
    | last :: rest => last.sep ++ writeBefore last rest
  else (records.reverse.map fun record => record.body ++ record.sep).flatten

def tacFileRegex (pcre2 : Pcre2) (pattern : Bytes) (before : Bool) (data : Bytes) : Option Bytes :=
  match pcre2.compile pattern with
  | none => some []
  | some re =>
    if data = [] then some []
    else (scanRegex re data (data.length + 2) 0 0 []).map (writeRecords before)

end Bx.Tac
