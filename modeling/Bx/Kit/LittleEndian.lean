import Bx.Kit.Bytes

/-!
# Little-endian records

A packed record is a row of words of 8, 16, 32 and 64 bits, each with its low
byte first. A reader takes the words from the front of its input and leaves
the rest.
-/

namespace Bx.Kit

def leBytes : Nat → Nat → Bytes
  | 0, _ => []
  | width + 1, value => value.toUInt8 :: leBytes width (value / 256)

def leValue : Bytes → Nat
  | [] => 0
  | b :: bytes => b.toNat + 256 * leValue bytes

@[simp] theorem length_leBytes (width value : Nat) : (leBytes width value).length = width := by
  induction width generalizing value with
  | zero => rfl
  | succ width ih => simp [leBytes, ih]

theorem leValue_leBytes {width value : Nat} (h : value < 256 ^ width) : leValue (leBytes width value) = value := by
  induction width generalizing value with
  | zero =>
    rw [Nat.pow_zero] at h
    obtain rfl : value = 0 := by omega
    rfl
  | succ width ih =>
    have hhigh : value / 256 < 256 ^ width := by
      apply Nat.div_lt_of_lt_mul
      rwa [mul_comm, ← pow_succ]
    have hlow : value.toUInt8.toNat = value % 256 := UInt8.toNat_ofNat'
    rw [leBytes, leValue, ih hhigh, hlow]
    omega

/-! ## Words -/

inductive Word
  | u8 (x : UInt8)
  | u16 (x : UInt16)
  | u32 (x : UInt32)
  | u64 (x : UInt64)

namespace Word

def size : Word → Nat
  | u8 _ => 1
  | u16 _ => 2
  | u32 _ => 4
  | u64 _ => 8

def bytes : Word → Bytes
  | u8 x => leBytes 1 x.toNat
  | u16 x => leBytes 2 x.toNat
  | u32 x => leBytes 4 x.toNat
  | u64 x => leBytes 8 x.toNat

@[simp] theorem length_bytes (w : Word) : w.bytes.length = w.size := by
  cases w <;> exact length_leBytes _ _

end Word

def readLe (size : Nat) (input : Bytes) : Option (Nat × Bytes) :=
  if input.length < size then none else some (leValue (input.take size), input.drop size)

variable (input : Bytes)

def readU16 : Option (UInt16 × Bytes) := (readLe 2 input).map fun (n, rest) => (UInt16.ofNat n, rest)

def readU32 : Option (UInt32 × Bytes) := (readLe 4 input).map fun (n, rest) => (UInt32.ofNat n, rest)

def readU64 : Option (UInt64 × Bytes) := (readLe 8 input).map fun (n, rest) => (UInt64.ofNat n, rest)

theorem readLe_leBytes {size value : Nat} (h : value < 256 ^ size) (rest : Bytes) :
    readLe size (leBytes size value ++ rest) = some (value, rest) := by
  have hlen : (leBytes size value).length = size := length_leBytes size value
  unfold readLe
  rw [if_neg (by rw [List.length_append]; omega), List.take_left' hlen, List.drop_left' hlen, leValue_leBytes h]

theorem readU16_bytes (x : UInt16) (rest : Bytes) : readU16 ((Word.u16 x).bytes ++ rest) = some (x, rest) := by
  unfold readU16 Word.bytes
  rw [readLe_leBytes x.toNat_lt]
  simp

theorem readU32_bytes (x : UInt32) (rest : Bytes) : readU32 ((Word.u32 x).bytes ++ rest) = some (x, rest) := by
  unfold readU32 Word.bytes
  rw [readLe_leBytes x.toNat_lt]
  simp

theorem readU64_bytes (x : UInt64) (rest : Bytes) : readU64 ((Word.u64 x).bytes ++ rest) = some (x, rest) := by
  unfold readU64 Word.bytes
  rw [readLe_leBytes x.toNat_lt]
  simp

section
variable {α : Type} (rest : Bytes)

theorem readU16_bind (x : UInt16) (next : UInt16 × Bytes → Option α) :
    (readU16 ((Word.u16 x).bytes ++ rest) >>= next) = next (x, rest) := by
  rw [readU16_bytes]
  rfl

theorem readU32_bind (x : UInt32) (next : UInt32 × Bytes → Option α) :
    (readU32 ((Word.u32 x).bytes ++ rest) >>= next) = next (x, rest) := by
  rw [readU32_bytes]
  rfl

theorem readU64_bind (x : UInt64) (next : UInt64 × Bytes → Option α) :
    (readU64 ((Word.u64 x).bytes ++ rest) >>= next) = next (x, rest) := by
  rw [readU64_bytes]
  rfl

end

/-! ## Records -/

def pack (words : List Word) : Bytes := words.flatMap Word.bytes

@[simp] theorem pack_nil : pack [] = [] := rfl

@[simp] theorem pack_cons (w : Word) (words : List Word) : pack (w :: words) = w.bytes ++ pack words :=
  List.flatMap_cons

theorem length_pack (words : List Word) : (pack words).length = (words.map Word.size).sum := by
  induction words with
  | nil => rfl
  | cons w words ih => rw [pack_cons, List.length_append, ih, Word.length_bytes, List.map_cons, List.sum_cons]

end Bx.Kit
