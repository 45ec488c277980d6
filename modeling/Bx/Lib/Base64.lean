import Bx.Kit.Blocks
import Bx.Kit.Bytes

/-!
# Base64

The encoder and the exact decoder of `src/lib/base64.c`, and `src/lib/base64_arm64.c`, which takes sixteen groups at a
time where the processor has the vector unit. Only the last four characters may be padded, and they are read by the
decoder's own code.
-/

namespace Bx.Lib

open Kit

def base64Alphabet : Bytes := ascii "ABCDEFGHIJKLMNOPQRSTUVWXYZabcdefghijklmnopqrstuvwxyz0123456789+/"

def base64Char (index : Nat) : UInt8 := base64Alphabet.getD index 0

def base64Pad : UInt8 := 61

variable (ch : UInt8)

def base64DecodeValue : Option Nat :=
  if 65 ≤ ch ∧ ch ≤ 90 then some (ch.toNat - 65)
  else if 97 ≤ ch ∧ ch ≤ 122 then some (ch.toNat - 97 + 26)
  else if 48 ≤ ch ∧ ch ≤ 57 then some (ch.toNat - 48 + 52)
  else if ch = 43 then some 62
  else if ch = 47 then some 63
  else none

/-! ## One group -/

/-- The body of the loop in `bx_base64_encode_complete` -/
def encodeTriple : Bytes → Option Bytes
  | [a, b, c] =>
    some [base64Char (a.toNat >>> 2), base64Char (((a.toNat &&& 3) <<< 4) ||| (b.toNat >>> 4)),
      base64Char (((b.toNat &&& 15) <<< 2) ||| (c.toNat >>> 6)), base64Char (c.toNat &&& 63)]
  | _ => none

def encodeTail : Bytes → Bytes
  | [a] => [base64Char (a.toNat >>> 2), base64Char ((a.toNat &&& 3) <<< 4), base64Pad, base64Pad]
  | [a, b] =>
    [base64Char (a.toNat >>> 2), base64Char (((a.toNat &&& 3) <<< 4) ||| (b.toNat >>> 4)),
      base64Char ((b.toNat &&& 15) <<< 2), base64Pad]
  | _ => []

def decodedFirst (a b : Nat) : UInt8 := ((a <<< 2) ||| (b >>> 4)).toUInt8

def decodedSecond (b c : Nat) : UInt8 := ((b <<< 4) ||| (c >>> 2)).toUInt8

def decodedThird (c d : Nat) : UInt8 := ((c <<< 6) ||| d).toUInt8

def decodeQuad : Bytes → Option Bytes
  | [q0, q1, q2, q3] => do
    let a ← base64DecodeValue q0
    let b ← base64DecodeValue q1
    let c ← base64DecodeValue q2
    let d ← base64DecodeValue q3
    return [decodedFirst a b, decodedSecond b c, decodedThird c d]
  | _ => none

/-! ## Sixteen groups -/

abbrev Register := Fin 16 → UInt8

/-- `vld3q_u8` and `vld4q_u8`: element `i` of a structure goes to lane `i` of its register. -/
def loadLanes (width : Nat) (input : Bytes) (k : Nat) : Register := fun i => input.getD (width * i + k) 0

/-- `vst3q_u8` and `vst4q_u8` -/
def storeLanes (registers : List Register) : Bytes := (List.finRange 16).flatMap fun i => registers.map (· i)

/-- `vqtbl4q_u8` with the alphabet -/
def encodeValues (values : Register) : Register := fun i => base64Char (values i).toNat

/-- One round of `bx_base64_arm64_encode_blocks` -/
def encodeBlock48 (input : Bytes) : Option Bytes :=
  let bytes := loadLanes 3 input
  let index0 : Register := fun i => bytes 0 i >>> 2
  let index1 : Register := fun i => ((bytes 0 i &&& 3) <<< 4) ||| (bytes 1 i >>> 4)
  let index2 : Register := fun i => ((bytes 1 i &&& 15) <<< 2) ||| (bytes 2 i >>> 6)
  let index3 : Register := fun i => bytes 2 i &&& 63
  some (storeLanes [encodeValues index0, encodeValues index1, encodeValues index2, encodeValues index3])

def laneMask (holds : Bool) : UInt8 := if holds then 255 else 0

def upperMask : UInt8 := laneMask (ch ≥ 65) &&& laneMask (ch ≤ 90)

def lowerMask : UInt8 := laneMask (ch ≥ 97) &&& laneMask (ch ≤ 122)

def digitMask : UInt8 := laneMask (ch ≥ 48) &&& laneMask (ch ≤ 57)

def validMask : UInt8 :=
  (upperMask ch ||| lowerMask ch) ||| ((digitMask ch ||| laneMask (ch = 43)) ||| laneMask (ch = 47))

def laneValue : UInt8 :=
  ((((upperMask ch &&& (ch - 65)) ||| (lowerMask ch &&& (ch - 97 + 26))) ||| (digitMask ch &&& (ch - 48 + 52))) |||
    (laneMask (ch = 43) &&& 62)) ||| (laneMask (ch = 47) &&& 63)

/-- `bx_base64_arm64_decode_values`: no lane may be less than `UINT8_MAX` in the mask. -/
def decodeValues (chars : Register) : Option Register :=
  if ∀ i, validMask (chars i) = 255 then some fun i => laneValue (chars i) else none

/-- `bx_base64_arm64_decode_64` where the processor has the vector unit -/
def decodeBlock64 (input : Bytes) : Option Bytes := do
  let v0 ← decodeValues (loadLanes 4 input 0)
  let v1 ← decodeValues (loadLanes 4 input 1)
  let v2 ← decodeValues (loadLanes 4 input 2)
  let v3 ← decodeValues (loadLanes 4 input 3)
  return storeLanes [fun i => (v0 i <<< 2) ||| (v1 i >>> 4), fun i => (v1 i <<< 4) ||| (v2 i >>> 2),
    fun i => (v2 i <<< 6) ||| v3 i]

/-! ## Texts -/

variable (asimd : Bool)

/-- `bx_base64_encode_complete`, with the vector unit or without it -/
def encodeComplete (input : Bytes) : Bytes :=
  let complete := input.take (input.length - input.length % 3)
  let wide := if asimd then blockLoop 48 encodeBlock48 complete else ([], complete)
  wide.1 ++ (blockLoop 3 encodeTriple wide.2).1

def base64Encode (input : Bytes) : Bytes :=
  encodeComplete asimd input ++ encodeTail (input.drop (input.length - input.length % 3))

/-- `bx_base64_decode_blocks`: what it writes, and what it leaves unread -/
def decodeBlocks (input : Bytes) : Bytes × Bytes :=
  let wide := if asimd then blockLoop 64 decodeBlock64 input else ([], input)
  let quads := blockLoop 4 decodeQuad wide.2
  (wide.1 ++ quads.1, quads.2)

def paddedValue : Option Nat := if ch = base64Pad then some 0 else base64DecodeValue ch

def decodeLast (padding : Nat) : Bytes → Option Bytes
  | [q0, q1, q2, q3] => do
    let a ← base64DecodeValue q0
    let b ← base64DecodeValue q1
    let c ← paddedValue q2
    let d ← paddedValue q3
    if (q2 = base64Pad ∧ q3 ≠ base64Pad) ∨ (q2 = base64Pad ∧ padding ≠ 2) ∨ (q3 = base64Pad ∧ padding = 0) then none
    else
      return [decodedFirst a b] ++ (if padding < 2 then [decodedSecond b c] else []) ++
        (if padding = 0 then [decodedThird c d] else [])
  | _ => none

def paddingCount (input : Bytes) : Nat :=
  (if input.getD (input.length - 1) 0 = base64Pad then 1 else 0) +
    (if input.length ≥ 2 ∧ input.getD (input.length - 2) 0 = base64Pad then 1 else 0)

def base64DecodeExact (input : Bytes) : Option Bytes :=
  if input.length = 0 then some []
  else if input.length % 4 ≠ 0 then none
  else
    let blocks := decodeBlocks asimd (input.take (input.length - 4))
    if blocks.2 ≠ [] then none
    else (decodeLast (paddingCount input) (input.drop (input.length - 4))).map (blocks.1 ++ ·)

/-- A character without the low bits of its value; other characters stay as they are. -/
def clearBits (unit : Nat) (ch : UInt8) : UInt8 :=
  match base64DecodeValue ch with
  | some value => base64Char (value / unit * unit)
  | none => ch

def clearQuad : Bytes → Bytes
  | [q0, q1, q2, q3] =>
    if q3 ≠ base64Pad then [q0, q1, q2, q3]
    else if q2 ≠ base64Pad then [q0, q1, clearBits 4 q2, q3]
    else [q0, clearBits 16 q1, q2, q3]
  | other => other

def clearUnused (text : Bytes) : Bytes := text.take (text.length - 4) ++ clearQuad (text.drop (text.length - 4))

example : base64Encode true (ascii "Man") = ascii "TWFu" := by decide
example : base64DecodeExact false (ascii "TQ==") = some (ascii "M") := by decide

end Bx.Lib
