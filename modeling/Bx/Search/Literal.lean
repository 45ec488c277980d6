import Bx.Kit.Memchr

/-!
# Literal search

The case-sensitive finders of `src/search/literal.c` on the scalar backend, and
the plan of `src/search/literal_plan.c` they work from: which bytes of the needle
are looked for first, and which finder is taken for which length.
-/

namespace Bx.Literal

open Bx.Kit

variable (needle : List UInt8) (i : Nat)

/-! ## The plan -/

def sourceTextByteFrequency : List Nat :=
  [
   1, 4, 4, 4, 4, 4, 4, 4, 4, 140, 220, 6, 10, 80, 6, 6,
   6, 6, 6, 6, 6, 6, 6, 6, 6, 6, 6, 6, 6, 6, 6, 6,
   255, 140, 150, 170, 70, 120, 150, 120, 180, 180, 155, 165, 165, 160, 185, 190,
   150, 145, 140, 138, 136, 134, 132, 130, 128, 126, 175, 170, 150, 180, 150, 80,
   70, 195, 100, 145, 150, 210, 125, 115, 165, 185, 50, 80, 160, 130, 180, 190,
   120, 40, 170, 175, 200, 140, 90, 110, 60, 105, 35, 180, 130, 180, 70, 210,
   90, 235, 140, 185, 190, 250, 165, 155, 205, 225, 90, 120, 200, 170, 220, 230,
   160, 80, 210, 215, 240, 180, 130, 150, 100, 145, 75, 180, 145, 180, 60, 4,
   24, 24, 24, 24, 24, 24, 24, 24, 24, 24, 24, 24, 24, 24, 24, 24,
   24, 24, 24, 24, 24, 24, 24, 24, 24, 24, 24, 24, 24, 24, 24, 24,
   24, 24, 24, 24, 24, 24, 24, 24, 24, 24, 24, 24, 24, 24, 24, 24,
   24, 24, 24, 24, 24, 24, 24, 24, 24, 24, 24, 24, 24, 24, 24, 24,
   24, 24, 24, 24, 24, 24, 24, 24, 24, 24, 24, 24, 24, 24, 24, 24,
   24, 24, 24, 24, 24, 24, 24, 24, 24, 24, 24, 24, 24, 24, 24, 24,
   24, 24, 24, 24, 24, 24, 24, 24, 24, 24, 24, 24, 24, 24, 24, 24,
   24, 24, 24, 24, 24, 24, 24, 24, 24, 24, 24, 24, 24, 24, 24, 24]

def byteFrequency (byte : UInt8) : Nat := sourceTextByteFrequency.getD byte.toNat 0

inductive LitAlgo
  | empty
  | byte
  | pair
  | shortRarePair
  | mediumRarePair
  | longTwoWay
  deriving DecidableEq

def selectAlgo (needleLen : Nat) : LitAlgo :=
  if needleLen = 0 then .empty
  else if needleLen = 1 then .byte
  else if needleLen = 2 then .pair
  else if needleLen ≤ 16 then .shortRarePair
  else if needleLen ≤ 256 then .mediumRarePair
  else .longTwoWay

/-- How far the needle reaches to the longer side of `width` bytes at `i`. -/
def spanAt (width : Nat) : Nat := max i (needle.length - i - width)

structure Best (κ : Type) where
  index : Nat
  key : Option κ

def Best.step {κ : Type} (better : κ → κ → Bool) (best : Best κ) (i : Nat) (key : κ) : Best κ :=
  if best.key.all (better key) then ⟨i, some key⟩ else best

structure RareByteKey where
  count : Nat
  textFrequency : Nat
  span : Nat

def RareByteKey.better (a b : RareByteKey) : Bool :=
  a.count < b.count || (a.count = b.count && a.textFrequency < b.textFrequency) ||
    (a.count = b.count && a.textFrequency = b.textFrequency && a.span < b.span)

def rareByteKey : RareByteKey :=
  let byte := needle.getD i 0
  ⟨needle.count byte, byteFrequency byte, spanAt needle i 1⟩

def rareByteStep (best : Best RareByteKey) (i : Nat) : Best RareByteKey :=
  best.step RareByteKey.better i (rareByteKey needle i)

def selectRareByteIndex : Nat :=
  ((List.range needle.length).foldl (rareByteStep needle) ⟨0, none⟩).index

def scoreAdjacentPair (first second : UInt8) : Nat := byteFrequency first + byteFrequency second

structure RarePairKey where
  score : Nat
  span : Nat

def RarePairKey.better (a b : RarePairKey) : Bool := a.score < b.score || (a.score = b.score && a.span < b.span)

def rarePairKey : RarePairKey :=
  ⟨scoreAdjacentPair (needle.getD i 0) (needle.getD (i + 1) 0), spanAt needle i 2⟩

def rarePairStep (best : Best RarePairKey) (i : Nat) : Best RarePairKey :=
  best.step RarePairKey.better i (rarePairKey needle i)

def selectRarePairOffset : Nat :=
  ((List.range (needle.length - 1)).foldl (rarePairStep needle) ⟨0, none⟩).index

structure LitPlan where
  needle : List UInt8
  rarePairOffset : Nat
  firstByte : UInt8
  rareByte : UInt8
  rarePairFirst : UInt8
  rarePairSecond : UInt8
  algo : LitAlgo

def LitPlan.needleLen (plan : LitPlan) : Nat := plan.needle.length

def planCompile : LitPlan where
  needle
  rarePairOffset := selectRarePairOffset needle
  firstByte := needle.getD 0 0
  rareByte := needle.getD (selectRareByteIndex needle) 0
  rarePairFirst := if needle.length > 1 then needle.getD (selectRarePairOffset needle) 0 else 0
  rarePairSecond := if needle.length > 1 then needle.getD (selectRarePairOffset needle + 1) 0 else 0
  algo := selectAlgo needle.length

/-! ## The matcher -/

/-- Which function `find` is. -/
inductive LiteralFind
  | nonEmpty
  | empty
  | byte
  | pair
  | short

inductive CaseSensitiveFind
  | scalar
  | byte
  | pair
  | short
  | rarePairScalar
  | longScalar

structure LiteralMatcher where
  plan : LitPlan
  anchorIndex : Nat
  hasAnchor : Bool
  find : LiteralFind
  caseSensitiveFind : CaseSensitiveFind

/-- One round of the loop of `bx_literal_choose_anchor`. -/
def anchorStep (rareByte : UInt8) (best : Best Nat) (i : Nat) : Best Nat :=
  if needle[i]? = some rareByte then best.step (· < ·) i (spanAt needle i 1) else best

def chooseAnchor (rareByte : UInt8) : Nat :=
  ((List.range needle.length).foldl (anchorStep needle rareByte) ⟨0, none⟩).index

/-- `bx_literal_select_case_sensitive_backend` where the backend is the scalar one. -/
def selectCaseSensitiveBackend (plan : LitPlan) : LiteralFind × CaseSensitiveFind :=
  if plan.algo = .empty then (.empty, .scalar)
  else if plan.algo = .byte then (.byte, .byte)
  else if plan.algo = .pair then (.pair, .pair)
  else if plan.needleLen = 3 then (.short, .short)
  else if plan.algo = .shortRarePair || plan.algo = .mediumRarePair then (.nonEmpty, .rarePairScalar)
  else if plan.algo = .longTwoWay then (.nonEmpty, .longScalar)
  else (.nonEmpty, .scalar)

/-- `bx_literal_compile`, case-sensitive. -/
def literalCompile : LiteralMatcher :=
  let plan := planCompile needle
  let (find, caseSensitiveFind) := selectCaseSensitiveBackend plan
  { plan, find, caseSensitiveFind
    anchorIndex := if needle.isEmpty then 0 else chooseAnchor needle plan.rareByte
    hasAnchor := !needle.isEmpty }

/-! ## The finders -/

structure BxMatch where
  start : Nat
  stop : Nat
  deriving DecidableEq

section
variable (m : LiteralMatcher) (buf : List UInt8) (start : Nat)

/-- The match of a needle whose byte at `offset` has been found. -/
def matchFrom (offset : Nat) (found : Option Nat) : Option BxMatch :=
  found.map fun i => ⟨i - offset, i - offset + m.plan.needleLen⟩

def findEmpty : Option (Option BxMatch) := if start > buf.length then some none else some (some ⟨start, start⟩)

def findCaseSensitiveByte : Option (Option BxMatch) :=
  if start ≥ buf.length || m.plan.needleLen ≠ 1 then some none
  else some (matchFrom m 0 (memchr buf m.plan.firstByte start (buf.length - start)))

def findCaseSensitivePair : Option (Option BxMatch) :=
  if start ≥ buf.length || m.plan.needleLen ≠ 2 || buf.length - start < 2 then some none
  else
    (scan buf m.plan.firstByte (buf.length - 1) (fun found => buf[found + 1]? = m.plan.needle[1]?) start).map
      (matchFrom m 0)

def findCaseSensitiveShort : Option (Option BxMatch) :=
  if start ≥ buf.length || m.plan.needleLen ≠ 3 || buf.length - start < 3 then some none
  else
    (scan buf m.plan.firstByte (buf.length - 2)
      (fun found => buf[found + 1]? = m.plan.needle[1]? && buf[found + 2]? = m.plan.needle[2]?) start).map (matchFrom m 0)

/-- The bytes of the needle on either side of the anchor, which itself is not compared. -/
def matchAtAnchor (pos : Nat) : Bool :=
  let prefixLen := m.anchorIndex
  let suffixOff := m.anchorIndex + 1
  let suffixLen := m.plan.needleLen - suffixOff
  m.hasAnchor && memEqual buf pos m.plan.needle 0 prefixLen &&
    memEqual buf (pos + suffixOff) m.plan.needle suffixOff suffixLen

def findCaseSensitiveRarePairScalar : Option (Option BxMatch) :=
  if start ≥ buf.length || m.plan.needleLen < 4 || m.plan.needleLen > 256 || buf.length - start < m.plan.needleLen then
    some none
  else
    let pairOffset := m.plan.rarePairOffset
    let searchLimit := buf.length - (m.plan.needleLen - pairOffset)
    (scan buf m.plan.rarePairFirst (searchLimit + 1)
      (fun found => buf[found + 1]? = some m.plan.rarePairSecond && matchAtAnchor m buf (found - pairOffset))
      (start + pairOffset)).map (matchFrom m pairOffset)

def findAnchoredExact : Option (Option BxMatch) :=
  if !m.hasAnchor || start ≥ buf.length || buf.length - start < m.plan.needleLen then some none
  else
    let searchLimit := buf.length - (m.plan.needleLen - m.anchorIndex)
    (scan buf m.plan.rareByte (searchLimit + 1) (fun found => matchAtAnchor m buf (found - m.anchorIndex))
      (start + m.anchorIndex)).map (matchFrom m m.anchorIndex)

def findCaseSensitiveLongScalar : Option (Option BxMatch) := findAnchoredExact m buf start

def findCaseSensitiveScalar : Option (Option BxMatch) := findAnchoredExact m buf start

def findCaseSensitiveCompiled : Option (Option BxMatch) :=
  match m.caseSensitiveFind with
  | .scalar => findCaseSensitiveScalar m buf start
  | .byte => findCaseSensitiveByte m buf start
  | .pair => findCaseSensitivePair m buf start
  | .short => findCaseSensitiveShort m buf start
  | .rarePairScalar => findCaseSensitiveRarePairScalar m buf start
  | .longScalar => findCaseSensitiveLongScalar m buf start

def findNonEmpty : Option (Option BxMatch) :=
  if start ≥ buf.length || buf.length - start < m.plan.needleLen then some none
  else findCaseSensitiveCompiled m buf start

def findDirect : Option (Option BxMatch) :=
  match m.find with
  | .nonEmpty => findNonEmpty m buf start
  | .empty => findEmpty buf start
  | .byte => if start ≥ buf.length then some none else findCaseSensitiveByte m buf start
  | .pair => if start ≥ buf.length then some none else findCaseSensitivePair m buf start
  | .short => if start ≥ buf.length then some none else findCaseSensitiveShort m buf start

end

end Bx.Literal
