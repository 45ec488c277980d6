import Bx.Kit.LastMatch
import Bx.Tar.StreamPayload

/-!
# Records in force

What an entry takes from extended headers: the last record between the entry before and this one, else the last global
record, else a GNU long text between the two entries, else its own header. An empty value is a deletion.
-/

namespace Bx.Tar
open Kit

/-! ## Members -/

/-- A header block with the bytes it governs, `size` of them before the padding -/
structure Member where
  header : Bytes
  size : Nat
  payload : Bytes

namespace Member
variable (m : Member)

def type : UInt8 := typeflag m.header

def isExtended : Bool := isExtendedType m.type

end Member

def frameRecord (data : Bytes) : Option (Bytes × Bytes) :=
  match recordLength 0 0 data with
  | none => none
  | some (lineLen, digits) =>
    if digits = 0 ∨ lineLen = 0 ∨ paxRecordLimit < lineLen ∨ data.length < lineLen
        ∨ (data.drop (lineLen - 1)).head? ≠ some 10 then none
    else if lineLen - 1 < digits + 1 then none
    else some ((data.take (lineLen - 1)).drop (digits + 1), data.drop lineLen)

def frameRecords : Nat → Bytes → Option (List Bytes)
  | 0, _ => none
  | fuel + 1, data =>
    if data = [] then some []
    else (frameRecord data).bind fun r => (frameRecords fuel r.2).map (r.1 :: ·)

def Member.records (m : Member) : List Bytes := (frameRecords (m.payload.length + 1) m.payload).getD []

/-! ## Scopes -/

variable (history : List Member)

def sinceEntry : List Member := history.rtakeWhile Member.isExtended

def recordsOf (type : UInt8) (members : List Member) : List Bytes :=
  (members.filter (·.type == type)).flatMap Member.records

def longTextOf (type : UInt8) (members : List Member) : Option Bytes :=
  (members.filter (·.type == type)).getLast?.map fun m => longText m.payload

structure Scope where
  own : List Bytes := []
  shared : List Bytes := []
  longName : Option Bytes := none
  longLink : Option Bytes := none

/-- What is in scope after `history` -/
def scopeOf : Scope where
  own := recordsOf 120 (sinceEntry history)
  shared := recordsOf 103 history
  longName := longTextOf 76 (sinceEntry history)
  longLink := longTextOf 75 (sinceEntry history)

/-! ## Values of records -/

def lastWrite {β : Type} (write : Bytes → Option β) (records : List Bytes) : Option β :=
  (records.filterMap write).getLast?

def textWrite (text : PaxText) (record : Bytes) : Option Bytes :=
  (splitPaxRecord record).bind fun r => if PaxText.ofKey r.1 = some text then some r.2 else none

def sparseNameWrite (record : Bytes) : Option Bytes :=
  (splitPaxRecord record).bind fun r =>
    if PaxText.ofKey r.1 = some .path ∨ r.1 = ascii "GNU.sparse.name" then some r.2 else none

def realsizeWrite (record : Bytes) : Option Nat :=
  (splitPaxRecord record).bind fun r =>
    if r.1 = ascii "GNU.sparse.realsize" then sizeParseUint (cText r.2) else none

def numberWrite {α : Type} (field : PaxField) (parse : Bytes → Option α) (record : Bytes) : Option (Option α) :=
  (splitPaxRecord record).bind fun r =>
    if PaxField.ofKey r.1 = some field then some (if r.2 = [] then none else parse r.2) else none

namespace Scope
variable (scope : Scope)

def path : Option Bytes := lastWrite sparseNameWrite scope.own <|> lastWrite (textWrite .path) scope.shared

def text (text : PaxText) : Option Bytes :=
  lastWrite (textWrite text) scope.own <|> lastWrite (textWrite text) scope.shared

def number {α : Type} (field : PaxField) (parse : Bytes → Option α) : Option (Option α) :=
  lastWrite (numberWrite field parse) scope.own <|> lastWrite (numberWrite field parse) scope.shared

def uid : Option (Option Nat) := scope.number .uid sizeParseUint

def gid : Option (Option Nat) := scope.number .gid sizeParseUint

def size : Option (Option Nat) := scope.number .size sizeParseUint

def mtime : Option (Option Timespec) := scope.number .mtime parsePaxTime

end Scope

def numberOr {α : Type} (reading : Option (Option α)) (ofHeader : Nat → α) (octal : Bytes) : α :=
  match reading with
  | some (some value) => value
  | some none => ofHeader 0
  | none => ofHeader ((parseOctalField octal).getD 0)

/-- Every long link of `history` was for the entry right after it. -/
def LinksTaken : Prop :=
  ∀ before m after, history = before ++ m :: after → m.isExtended = false →
    (scopeOf before).longLink.isSome → isLinkType m.type = true ∨ ((scopeOf before).text .linkpath).isSome

/-- The entry of the member `m`, as `scope` and the member's header determine it -/
structure Scoped (o : ReaderOptions) (scope : Scope) (m : Member) (entry : Entry) : Prop where
  name :
    let name := (scope.path <|> scope.longName).getD (headerName m.header)
    entry.name = if m.type = 53 ∨ m.type = 68 then name.rdropWhile (· == 47) else name
  uname : entry.uname = if o.skipOwnerGroupNames then none else ownerName (scope.text .uname) (field m.header 265 32)
  gname : entry.gname = if o.skipOwnerGroupNames then none else ownerName (scope.text .gname) (field m.header 297 32)
  uid : entry.uid = if o.skipOwnerGroupIds then 0 else numberOr scope.uid (· % 2 ^ 32) (field m.header 108 8)
  gid : entry.gid = if o.skipOwnerGroupIds then 0 else numberOr scope.gid (· % 2 ^ 32) (field m.header 116 8)
  mtime : entry.mtime = numberOr scope.mtime (fun sec => ⟨sec, 0⟩) (field m.header 136 12)
  omits : entry.omitUid = (scope.uid == some none) ∧ entry.omitGid = (scope.gid == some none) ∧
    entry.omitMtime = (scope.mtime == some none)
  stored : scope.size ≠ some none ∧
    (scope.size.getD (parseOctalField (field m.header 124 12))) = some m.size
  size : entry.size = if entry.sparse then (lastWrite realsizeWrite scope.own).getD 0 else m.size
  no_target : isLinkType m.type = true → scope.text .linkpath ≠ some []

/-- The link target, where `scope` tells it -/
def scopedTarget (scope : Scope) (m : Member) : Option Bytes :=
  match scope.text .linkpath with
  | some target => some target
  | none => if isLinkType m.type then some (scope.longLink.getD (cText (field m.header 157 100))) else none

/-! ## The run -/

section
variable {υ : Type} (ops : VisitorOps υ) (o : ReaderOptions) (s : VisitState υ)

def frontHeader : Bytes := s.header.getD (s.input.rest.take blockSize)

def frontState : VisitState υ :=
  { s with input := if s.header.isSome then s.input else s.input.advance blockSize }

def frontSize : Option Nat := headerPayloadSize (frontHeader s) (paxEffectiveInfo s.shared s.pax).numbers

def frontMember : Option Member :=
  if blockIsZero (frontHeader s) then none
  else (frontSize s).map fun size => 
      { header := frontHeader s, size := size, payload := (frontState s).input.rest.take size }

/-- What a visitor is shown at the beginning of an entry, and what is left to visit after it -/
def preparedEntry (header : Bytes) (headerBlockIndex size : Nat) : Option (Entry × Nat × Input × LongTexts) :=
  let effective := paxEffectiveInfo s.shared s.pax
  match prepareEntryFromHeader o header size (typeflag header) effective effective.numbers s.shared.metadata s.long with
  | none => none
  | some (entry, long) =>
    (prepareMember ops s.pax size (entry.atBlock headerBlockIndex) s.input).map fun r => (r.1, r.2.1, r.2.2, long)

def frontEntry : Option Entry :=
  if isExtendedType (typeflag (frontHeader s)) then none
  else (frontSize s).bind fun size =>
    (preparedEntry ops o (frontState s) (frontHeader s) ((frontState s).input.totalBytesRead / blockSize - 1) size).map
      (·.1)

def readMembers : Nat → VisitState υ → List (Member × Option Entry)
  | 0, _ => []
  | fuel + 1, s =>
    match visitStep ops o s with
    | .inr _ => []
    | .inl t => (frontMember s).toList.map (fun m => (m, frontEntry ops o s)) ++ readMembers fuel t

def archiveMembers (archive : Bytes) (user : υ) : List (Member × Option Entry) :=
  readMembers ops o (archive.length + 1) { input := { rest := archive }, user := user }

end

end Bx.Tar
