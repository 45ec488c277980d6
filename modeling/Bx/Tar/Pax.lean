import Bx.Kit.Loop
import Bx.Tar.Header
import Bx.Tar.Metadata

/-!
# Pax records

An extended header holds records `length key=value`. The reader keeps one set
of values for the next entry and one for all later ones; an empty value stays
known as a deletion. `effectiveInfo` is what both sets together say.
-/

namespace Bx.Tar
open Kit

structure Timespec where
  sec : Int
  nsec : Nat
  deriving DecidableEq

structure PaxNumber (α : Type) where
  defined : Bool := false
  present : Bool := false
  value : α

def PaxNumber.deleted {α : Type} (n : PaxNumber α) : Bool := n.defined && !n.present

structure PaxNumbers where
  size : PaxNumber Nat := { value := 0 }
  uid : PaxNumber Nat := { value := 0 }
  gid : PaxNumber Nat := { value := 0 }
  mtime : PaxNumber Timespec := { value := ⟨0, 0⟩ }

structure PaxInfo where
  numbers : PaxNumbers := {}
  metadata : Metadata := {}
  path : Option Bytes := none
  linkpath : Option Bytes := none
  uname : Option Bytes := none
  gname : Option Bytes := none
  sparseMajor : Nat := 0
  sparseMinor : Nat := 0
  sparseRealsize : Nat := 0
  sparseEnabled : Bool := false
  omitSelinux : Bool := false
  active : Bool := false

variable (pax : PaxInfo)

def paxInfoClear : PaxInfo :=
  if pax.active then {} else { pax with metadata := {} }

def paxTextLimit : Nat := 1024 * 1024

def paxRecordLimit : Nat := paxTextLimit + 1024

/-! ## Numbers -/

def uintDigits : Nat → Bytes → Option Nat
  | value, [] => some value
  | value, ch :: text =>
    if isDigit 10 ch then
      if (sizeMax - digitValue ch) / 10 < value then none else uintDigits (value * 10 + digitValue ch) text
    else none

def sizeParseUint (text : Bytes) : Option Nat := if text = [] then none else uintDigits 0 text

def parseFractionalNanoseconds (text : Bytes) : Option (Nat × Bytes) :=
  match text with
  | 46 :: rest =>
    let digits := rest.takeWhile (isDigit 10)
    if digits = [] then none
    else some (numeralValue 10 0 (digits.take 9) * 10 ^ (9 - digits.length), rest.dropWhile (isDigit 10))
  | _ => some (0, text)

/-- The digits `strtoimax` reads after the sign, if the value fits. -/
def strtoimax (negative : Bool) (digits : Bytes) : Option Int :=
  let magnitude := numeralValue 10 0 digits
  if negative then
    if magnitude ≤ 2 ^ 63 then some (-(magnitude : Int)) else none
  else if magnitude < 2 ^ 63 then some (magnitude : Int) else none

def parsePaxTime (value : Bytes) : Option Timespec :=
  let negative := value.headD 0 == 45
  let cursor := if negative then value.drop 1 else value
  let digits := cursor.takeWhile (isDigit 10)
  let fraction := cursor.dropWhile (isDigit 10)
  if digits = [] then none
  else
    match parseFractionalNanoseconds fraction with
    | none => none
    | some (nsec, rest) =>
      if rest ≠ [] then none
      else if (fraction.drop 10).any (· != 48) then none
      else
        match strtoimax negative digits with
        | none => none
        | some seconds =>
          if negative && nsec != 0 then
            if seconds = -2 ^ 63 then none else some ⟨seconds - 1, 1000000000 - nsec⟩
          else some ⟨seconds, nsec⟩

inductive PaxField
  | size
  | uid
  | gid
  | mtime
  deriving DecidableEq

/-- `(uid_t)-1`, never a valid id -/
def idMax : Nat := 2 ^ 32 - 1

def PaxNumber.delete {α : Type} (n : PaxNumber α) : PaxNumber α := { n with defined := true, present := false }

def PaxNumber.known {α : Type} (value : α) : PaxNumber α := ⟨true, true, value⟩

def paxApplyNumber (numbers : PaxNumbers) (field : PaxField) (value : Bytes) : Option PaxNumbers :=
  if value = [] then
    match field with
    | .size => some { numbers with size := numbers.size.delete }
    | .uid => some { numbers with uid := numbers.uid.delete }
    | .gid => some { numbers with gid := numbers.gid.delete }
    | .mtime => some { numbers with mtime := numbers.mtime.delete }
  else
    match field with
    | .mtime => (parsePaxTime value).map fun time => { numbers with mtime := .known time }
    | .size => (sizeParseUint value).bind fun parsed =>
      if sizeMax - (blockSize - 1) < parsed then none else some { numbers with size := .known parsed }
    | .uid => (sizeParseUint value).bind fun parsed =>
      if idMax ≤ parsed then none else some { numbers with uid := .known parsed }
    | .gid => (sizeParseUint value).bind fun parsed =>
      if idMax ≤ parsed then none else some { numbers with gid := .known parsed }

def PaxNumber.effective {α : Type} (shared own : PaxNumber α) : PaxNumber α where
  defined := shared.defined || own.defined
  present := (shared.present && !own.defined) || own.present
  value := if own.present then own.value else shared.value

def paxEffectiveNumbers (shared own : PaxNumbers) : PaxNumbers where
  size := shared.size.effective own.size
  uid := shared.uid.effective own.uid
  gid := shared.gid.effective own.gid
  mtime := shared.mtime.effective own.mtime

def paxEffectiveInfo (shared own : PaxInfo) : PaxInfo :=
  { own with
    numbers := paxEffectiveNumbers shared.numbers own.numbers
    path := own.path <|> shared.path
    linkpath := own.linkpath <|> shared.linkpath
    uname := own.uname <|> shared.uname
    gname := own.gname <|> shared.gname }

/-! ## Records -/

def parsePaxIntValue (value : Bytes) (maxValue : Nat) : Option Nat :=
  (sizeParseUint value).bind fun parsed => if maxValue < parsed then none else some parsed

inductive PaxText
  | path
  | linkpath
  | uname
  | gname
  deriving DecidableEq

def PaxField.ofKey (key : Bytes) : Option PaxField :=
  if key = ascii "size" then some .size
  else if key = ascii "uid" then some .uid
  else if key = ascii "gid" then some .gid
  else if key = ascii "mtime" then some .mtime
  else none

def PaxText.ofKey (key : Bytes) : Option PaxText :=
  if key = ascii "path" then some .path
  else if key = ascii "linkpath" then some .linkpath
  else if key = ascii "uname" then some .uname
  else if key = ascii "gname" then some .gname
  else none

def PaxInfo.setText (text : PaxText) (value : Bytes) : PaxInfo :=
  match text with
  | .path => { pax with path := some value, active := true }
  | .linkpath => { pax with linkpath := some value, active := true }
  | .uname => { pax with uname := some value, active := true }
  | .gname => { pax with gname := some value, active := true }

/-- The text before the first `=`, which must hold no NUL, and the bytes after it -/
def splitPaxRecord (record : Bytes) : Option (Bytes × Bytes) :=
  let key := record.takeWhile (· != 61)
  if key.length = record.length then none
  else if key.contains 0 then none
  else some (key, record.drop (key.length + 1))

def applyPaxMetadata (target : PaxInfo) (key value : Bytes) : Option PaxInfo :=
  let legacySelinux := key == ascii "RHT.security.selinux"
  if legacySelinux && value.isEmpty then
    some { target with
      active := true, metadata := target.metadata.remove (ascii "security.selinux"), omitSelinux := true }
  else
    match target.metadata.parse key value with
    | none => none
    | some metadata =>
      if metadata.bounded then
        some { target with
          active := true, metadata := metadata
          omitSelinux :=
            if legacySelinux || key == ascii "SCHILY.xattr.security.selinux" then false else target.omitSelinux }
      else none

def applyPaxSparse (key value : Bytes) : Option PaxInfo :=
  if key = ascii "GNU.sparse.name" then
    if value.contains 0 || paxTextLimit < value.length then none
    else some { pax with path := some value, sparseEnabled := true, active := true }
  else if key = ascii "GNU.sparse.major" then
    (parsePaxIntValue (cText value) (2 ^ 31 - 1)).map fun parsed =>
      { pax with sparseMajor := parsed, sparseEnabled := true, active := true }
  else if key = ascii "GNU.sparse.minor" then
    (parsePaxIntValue (cText value) (2 ^ 31 - 1)).map fun parsed =>
      { pax with sparseMinor := parsed, sparseEnabled := true, active := true }
  else if key = ascii "GNU.sparse.realsize" then
    (sizeParseUint (cText value)).map fun parsed =>
      { pax with sparseRealsize := parsed, sparseEnabled := true, active := true }
  else some pax

def applyPaxRecord (skipOwnerGroupNames isGlobal : Bool) (target : PaxInfo) (record : Bytes) : Option PaxInfo :=
  match splitPaxRecord record with
  | none => none
  | some (key, value) =>
    match PaxField.ofKey key with
    | some field =>
      if value.contains 0 then none
      else (paxApplyNumber target.numbers field value).map fun numbers =>
        { target with numbers := numbers, active := true }
    | none =>
      match PaxText.ofKey key with
      | some text =>
        if value.contains 0 || paxTextLimit < value.length then none
        else if skipOwnerGroupNames && (text == .uname || text == .gname) then some target
        else some (target.setText text value)
      | none =>
        if (ascii "SCHILY.").isPrefixOf key || key == ascii "RHT.security.selinux" then
          applyPaxMetadata target key value
        else if isGlobal then some target
        else applyPaxSparse target key value

def recordLength : Nat → Nat → Bytes → Option (Nat × Nat)
  | _, _, [] => none
  | lineLen, count, ch :: data =>
    if ch = 32 then some (lineLen, count)
    else if isDigit 10 ch then
      if (sizeMax - 9) / 10 < lineLen then none else recordLength (lineLen * 10 + digitValue ch) (count + 1) data
    else none

section
variable (skipOwnerGroupNames isGlobal : Bool)

def parsePaxRecordsStep : PaxInfo × Bytes → (PaxInfo × Bytes) ⊕ Option PaxInfo
  | (target, data) =>
    if data = [] then .inr (some target)
    else
      match recordLength 0 0 data with
      | none => .inr none
      | some (lineLen, digits) =>
        if digits = 0 ∨ lineLen = 0 ∨ paxRecordLimit < lineLen ∨ data.length < lineLen
            ∨ (data.drop (lineLen - 1)).head? ≠ some 10 then .inr none
        else if lineLen - 1 < digits + 1 then .inr none
        else
          match applyPaxRecord skipOwnerGroupNames isGlobal target ((data.take (lineLen - 1)).drop (digits + 1)) with
          | none => .inr none
          | some target => .inl (target, data.drop lineLen)

def parsePaxRecords (target : PaxInfo) (data : Bytes) : Option PaxInfo :=
  (loop (parsePaxRecordsStep skipOwnerGroupNames isGlobal) (data.length + 1) (target, data)).join

end

end Bx.Tar
