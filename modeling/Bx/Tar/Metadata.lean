import Bx.Kit.Bytes

/-!
# File metadata of an archive member

Extended attributes in the order they were first set, ACL texts and the flag
text. A later record for one name replaces the value and keeps the place.
-/

namespace Bx.Tar
open Kit

structure Metadata where
  xattrs : List (Bytes × Bytes) := []
  aclAccess : Option Bytes := none
  aclDefault : Option Bytes := none
  fileFlags : Option Bytes := none
  deriving DecidableEq

def paxXattrLimit : Nat := 1024

def paxMetadataLimit : Nat := 1024 * 1024

def setXattr (name value : Bytes) : List (Bytes × Bytes) → List (Bytes × Bytes)
  | [] => [(name, value)]
  | attr :: attrs => if attr.1 = name then (name, value) :: attrs else attr :: setXattr name value attrs

namespace Metadata

variable (metadata : Metadata)

def set (name value : Bytes) : Option Metadata :=
  if name = [] ∨ 255 < name.length ∨ 65536 < value.length then none
  else some { metadata with xattrs := setXattr name value metadata.xattrs }

def remove (name : Bytes) : Metadata :=
  { metadata with xattrs := metadata.xattrs.eraseP (·.1 = name) }

def overlay (dest source : Metadata) : Metadata :=
  let merged := source.xattrs.foldl (fun dest attr => (dest.set attr.1 attr.2).getD dest) dest
  { merged with
    aclAccess := source.aclAccess <|> dest.aclAccess
    aclDefault := source.aclDefault <|> dest.aclDefault
    fileFlags := source.fileFlags <|> dest.fileFlags }

def copy (source : Metadata) : Metadata := overlay {} source

def textBytes : Option Bytes → Nat
  | none => 0
  | some text => text.length + 1

def valueBytes : Nat :=
  (metadata.xattrs.map fun attr => attr.1.length + 1 + attr.2.length).sum + textBytes metadata.aclAccess
    + textBytes metadata.aclDefault + textBytes metadata.fileFlags

def bounded : Bool :=
  metadata.xattrs.length ≤ paxXattrLimit && metadata.valueBytes ≤ paxMetadataLimit

def recordText (value : Bytes) : Option Bytes :=
  if value.contains 0 || 65536 < value.length then none else some value

def parse (key value : Bytes) : Option Metadata :=
  if (ascii "SCHILY.xattr.").isPrefixOf key then metadata.set (key.drop 13) value
  else if key = ascii "RHT.security.selinux" then
    if value.contains 0 || 65536 ≤ value.length then none
    else metadata.set (ascii "security.selinux") (value ++ [0])
  else if key = ascii "SCHILY.acl.access" then
    (recordText value).map fun text => { metadata with aclAccess := some text }
  else if key = ascii "SCHILY.acl.default" then
    (recordText value).map fun text => { metadata with aclDefault := some text }
  else if key = ascii "SCHILY.fflags" then
    (recordText value).map fun text => { metadata with fileFlags := some text }
  else some metadata

end Metadata

end Bx.Tar
