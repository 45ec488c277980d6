import Bx.Kit.Bytes
import Bx.Kit.Loop

/-!
# Symbolic modes

`bx_mode_parse_symbolic` from `src/lib/mode_parse.c` reads clauses such as `u+rw,go=u`
and applies each of them to the mode so far, which it also reads where a clause copies
the bits of a class or has an `X`.
-/

namespace Bx.ModeParse

open Kit

abbrev Mode := BitVec 32

def irwxu : Mode := 0o700
def irwxg : Mode := 0o070
def irwxo : Mode := 0o007
def isuid : Mode := 0o4000
def isgid : Mode := 0o2000
def isvtx : Mode := 0o1000
def anyExec : Mode := 0o111
def rwxAll : Mode := 0o777

inductive XPolicy where
  | disabled
  | always
  | ifAnyExec
  | ifDirectoryOrAnyExec
  deriving DecidableEq

/-- `struct bx_mode_parse_params`, without the initial mode and the limit of numeric modes -/
structure Params where
  resultMask : Mode
  umaskValue : Mode
  stickyBit : Mode
  xPolicy : XPolicy
  isDirectory : Bool
  applyUmaskWhenWhoOmitted : Bool
  allowSetuid : Bool
  allowSetgid : Bool
  allowSticky : Bool

/-- `who_flags` -/
structure Who where
  u : Bool
  g : Bool
  o : Bool

def Who.none : Who := ⟨false, false, false⟩

def Who.all : Who := ⟨true, true, true⟩

/-! ## Masks -/

def chU : UInt8 := 117
def chG : UInt8 := 103
def chO : UInt8 := 111
def chA : UInt8 := 97
def chR : UInt8 := 114
def chW : UInt8 := 119
def chX : UInt8 := 120
def chCapX : UInt8 := 88
def chS : UInt8 := 115
def chT : UInt8 := 116
def plus : UInt8 := 43
def comma : UInt8 := 44
def hyphen : UInt8 := 45
def equals : UInt8 := 61

def bitsIf (condition : Bool) (bits : Mode) : Mode := if condition then bits else 0

def rwxMaskFromWho (who : Who) : Mode := bitsIf who.u irwxu ||| bitsIf who.g irwxg ||| bitsIf who.o irwxo

def permBitsForWho (who : Who) (perm : UInt8) : Mode :=
  if perm = chR then bitsIf who.u 0o400 ||| bitsIf who.g 0o040 ||| bitsIf who.o 0o004
  else if perm = chW then bitsIf who.u 0o200 ||| bitsIf who.g 0o020 ||| bitsIf who.o 0o002
  else if perm = chX then bitsIf who.u 0o100 ||| bitsIf who.g 0o010 ||| bitsIf who.o 0o001
  else 0

def copyPermBits (mode : Mode) (who : Who) (sourceClass : UInt8) : Mode :=
  let source :=
    if sourceClass = chU then (mode &&& irwxu) >>> 6
    else if sourceClass = chG then (mode &&& irwxg) >>> 3
    else if sourceClass = chO then mode &&& irwxo
    else 0
  bitsIf who.u (source <<< 6) ||| bitsIf who.g (source <<< 3) ||| bitsIf who.o source

section
variable (params : Params)

def specialMaskFromWho (who : Who) : Mode :=
  bitsIf (params.allowSetuid && who.u) isuid ||| bitsIf (params.allowSetgid && who.g) isgid |||
    bitsIf (params.allowSticky && who.o) params.stickyBit

def fullSpecialMask : Mode := specialMaskFromWho params Who.all

def shouldApplyX (sourceMode : Mode) : Bool :=
  match params.xPolicy with
  | .disabled => false
  | .always => true
  | .ifAnyExec => sourceMode &&& anyExec ≠ 0
  | .ifDirectoryOrAnyExec => params.isDirectory || sourceMode &&& anyExec ≠ 0

/-! ## One clause -/

def isWho (ch : UInt8) : Bool := ch = chU || ch = chG || ch = chO || ch = chA

def Who.add (who : Who) (ch : UInt8) : Who :=
  if ch = chU then { who with u := true }
  else if ch = chG then { who with g := true }
  else if ch = chO then { who with o := true }
  else Who.all

def scanWho : Who → Bool → Bytes → Who × Bool × Bytes
  | who, specified, [] => (who, specified, [])
  | who, specified, ch :: text =>
    if isWho ch then scanWho (who.add ch) true text else (who, specified, ch :: text)

structure ClauseBits where
  rwx : Mode
  special : Mode
  sawToken : Bool

def tokenBits (who : Who) (sourceMode : Mode) (ch : UInt8) : Option (Mode × Mode) :=
  if ch = chR ∨ ch = chW ∨ ch = chX then some (permBitsForWho who ch, 0)
  else if ch = chCapX then
    if params.xPolicy = .disabled then none
    else some (if shouldApplyX params sourceMode then permBitsForWho who chX else 0, 0)
  else if ch = chS then
    if !params.allowSetuid && !params.allowSetgid then none
    else some (0, bitsIf (params.allowSetuid && who.u) isuid ||| bitsIf (params.allowSetgid && who.g) isgid)
  else if ch = chT then
    if !params.allowSticky then none else some (0, bitsIf who.o params.stickyBit)
  else if ch = chU ∨ ch = chG ∨ ch = chO then some (copyPermBits sourceMode who ch, 0)
  else none

def scanTokens (who : Who) (sourceMode : Mode) : ClauseBits → Bytes → Option (ClauseBits × Bytes)
  | bits, [] => some (bits, [])
  | bits, ch :: text =>
    if ch = comma then some (bits, ch :: text)
    else
      match tokenBits params who sourceMode ch with
      | none => none
      | some added => scanTokens who sourceMode ⟨bits.rwx ||| added.1, bits.special ||| added.2, true⟩ text

def affectedRwxMask (who : Who) (specified : Bool) : Mode :=
  if !specified && params.applyUmaskWhenWhoOmitted then
    rwxMaskFromWho who &&& (~~~params.umaskValue &&& 0o777)
  else rwxMaskFromWho who

def applyClause (who : Who) (specified : Bool) (op : UInt8) (bits : ClauseBits) (mode : Mode) : Mode :=
  let affected := affectedRwxMask params who specified
  let clear := if op = equals && !specified then irwxu ||| irwxg ||| irwxo else affected
  let special := if specified then specialMaskFromWho params who else fullSpecialMask params
  let applied := bits.rwx &&& affected
  if op = plus then mode ||| applied ||| bits.special
  else if op = hyphen then mode &&& ~~~applied &&& ~~~bits.special
  else (mode &&& ~~~clear &&& ~~~special) ||| applied ||| bits.special

def refusedAfterOp (op : UInt8) (next : Option UInt8) : Bool :=
  (op ≠ equals && (next = none || next = some comma)) || next = some plus || next = some hyphen || next = some equals

def parseOperation (mode : Mode) (who : Who) (specified : Bool) : Bytes → Option (Mode × Bytes)
  | [] => none
  | op :: text =>
    if op ≠ plus ∧ op ≠ hyphen ∧ op ≠ equals then none
    else if refusedAfterOp op text.head? then none
    else
      (scanTokens params who mode ⟨0, 0, false⟩ text).bind fun scanned =>
        if !scanned.1.sawToken && op ≠ equals then none
        else some (applyClause params who specified op scanned.1 mode, scanned.2)

def parseClause (mode : Mode) (text : Bytes) : Option (Mode × Bytes) :=
  let scanned := scanWho Who.none false text
  parseOperation params mode (if scanned.2.1 then scanned.1 else Who.all) scanned.2.1 scanned.2.2

def afterClause : Mode × Bytes → (Mode × Bytes) ⊕ Option Mode
  | (mode, []) => .inl (mode, [])
  | (mode, _ :: text) => if text.head? = none ∨ text.head? = some comma then .inr none else .inl (mode, text)

def parseRound (state : Mode × Bytes) : (Mode × Bytes) ⊕ Option Mode :=
  if state.2 = [] then .inr (some (state.1 &&& params.resultMask))
  else
    match parseClause params state.1 state.2 with
    | none => .inr none
    | some parsed => afterClause parsed

def parseSymbolic (initialMode : Mode) (text : Bytes) : Option Mode :=
  if text = [] then none
  else (loop (parseRound params) (text.length + 1) (initialMode &&& params.resultMask, text)).join

end

/-! ## Clauses -/

def clauses (text : Bytes) : List Bytes := text.splitOnP (· = comma)

def whoList (clause : Bytes) : Bytes := clause.takeWhile isWho

inductive PermClass where
  | user
  | group
  | other

def PermClass.letter : PermClass → UInt8
  | user => chU
  | group => chG
  | other => chO

def Names (clause : Bytes) (c : PermClass) : Prop := c.letter ∈ whoList clause ∨ chA ∈ whoList clause

instance (clause : Bytes) (c : PermClass) : Decidable (Names clause c) := inferInstanceAs (Decidable (_ ∨ _))

def PermClass.bits : PermClass → Mode
  | user => irwxu ||| isuid
  | group => irwxg ||| isgid
  | other => irwxo ||| isvtx

end Bx.ModeParse
