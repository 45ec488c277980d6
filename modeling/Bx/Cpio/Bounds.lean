import Bx.Kit.Bytes
import Bx.Lib.CheckedMath

/-!
# Numbers and bounds of cpio members

A number stands in a field of fixed width, in octal or in hexadecimal digits.
The bounds of a member are checked before any of its bytes are looked at.
-/

namespace Bx.Cpio
open Kit Lib List

/-! ## Numbers -/

def digits : Bytes := ascii "0123456789ABCDEF"

def fieldDigit (ch : UInt8) : Option Nat :=
  if 48 ≤ ch ∧ ch ≤ 57 then some (ch.toNat - 48)
  else if 97 ≤ ch ∧ ch ≤ 102 then some (10 + ch.toNat - 97)
  else if 65 ≤ ch ∧ ch ≤ 70 then some (10 + ch.toNat - 65)
  else none

def parseDigits (bits : Nat) : Nat → Bytes → Option Nat
  | value, [] => some value
  | value, ch :: field => do
    let digit ← fieldDigit ch
    if 2 ^ bits ≤ digit then none
    else
      let value ← checkedMul value (2 ^ bits)
      let value ← checkedAdd value digit
      parseDigits bits value field

def parseNumber (bits : Nat) (field : Bytes) : Option Nat :=
  if field = [] ∨ (bits ≠ 3 ∧ bits ≠ 4) then none else parseDigits bits 0 field

def numberAt (bits : Nat) (header : Bytes) (offset width : Nat) : Option Nat :=
  parseNumber bits ((header.drop offset).take width)

def formatDigits (bits : Nat) : Nat → Nat → Bytes × Nat
  | 0, value => ([], value)
  | width + 1, value =>
    let (field, rest) := formatDigits bits width (value >>> bits)
    (field ++ [digits.getD (value &&& (2 ^ bits - 1)) 0], rest)

def formatNumber (bits width value : Nat) : Option Bytes :=
  if width = 0 ∨ (bits ≠ 3 ∧ bits ≠ 4) then none
  else
    let (field, rest) := formatDigits bits width value
    if rest = 0 then some field else none

/-! ## Headers -/

def encodeFields (bits : Nat) : List (Nat × Nat) → Option Bytes
  | [] => some []
  | (width, value) :: fields => do
    let field ← formatNumber bits width value
    let rest ← encodeFields bits fields
    some (field ++ rest)

variable (fields : List Nat)

def newcLayout : List (Nat × Nat) := fields.map fun value => (8, value)

def odcLayout : List (Nat × Nat) :=
  fields.zipIdx.map fun (value, i) => (if i = 7 ∨ i = 9 then 11 else 6, value)

def encodeNewcHeader : Option Bytes :=
  (encodeFields 4 (newcLayout fields)).map (ascii "070701" ++ ·)

def encodeOdcHeader : Option Bytes :=
  (encodeFields 3 (odcLayout fields)).map (ascii "070707" ++ ·)

/-! ## Bounds -/

structure MemberBounds where
  dataOffset : Nat
  nextOffset : Nat

def memberBounds (length nameOffset nameSize payloadSize nameAlignment payloadAlignment : Nat) : Option MemberBounds := do
  if nameSize < 2 then none
  else
    let nameEnd ← checkedAdd nameOffset nameSize
    if length < nameEnd then none
    else
      let dataOffset ← checkedRoundUp nameEnd nameAlignment
      let dataEnd ← checkedAdd dataOffset payloadSize
      if length < dataEnd then none
      else
        let nextOffset ← checkedRoundUp dataEnd payloadAlignment
        if length < nextOffset then none else some ⟨dataOffset, nextOffset⟩

def zeroPadding (data : Bytes) : Bool := data.all (· == 0)

def symlinkTargetValid (data : Bytes) : Bool := !data.isEmpty && !data.contains 0

def metadataBudget (count bytes extra countLimit byteLimit : Nat) : Option Nat :=
  if count < countLimit ∧ bytes ≤ byteLimit ∧ extra ≤ byteLimit - bytes then checkedAdd bytes extra else none

/-! ## What the fields read -/

theorem fieldDigit_digits {d : Nat} (h : d < 16) : fieldDigit (digits.getD d 0) = some d := by
  revert d
  decide

section
variable {bits : Nat}

theorem length_formatDigits (width value : Nat) : (formatDigits bits width value).1.length = width := by
  induction width generalizing value with
  | zero => rfl
  | succ width ih => simp [formatDigits, ih]

theorem formatDigits_rest (width value : Nat) : (formatDigits bits width value).2 = value / 2 ^ (bits * width) := by
  induction width generalizing value with
  | zero => simp [formatDigits]
  | succ width ih =>
    simp only [formatDigits]
    rw [ih, Nat.shiftRight_eq_div_pow, Nat.div_div_eq_div_mul, ← Nat.pow_add, Nat.mul_succ, add_comm]

theorem parseDigits_append (value : Nat) (a b : Bytes) :
    parseDigits bits value (a ++ b) = (parseDigits bits value a).bind fun value => parseDigits bits value b := by
  induction a generalizing value with
  | nil => rfl
  | cons ch a ih =>
    simp only [cons_append, parseDigits, Option.bind_eq_bind]
    cases fieldDigit ch with
    | none => rfl
    | some digit =>
      simp only [Option.bind_some]
      by_cases hlarge : 2 ^ bits ≤ digit
      · rw [if_pos hlarge, if_pos hlarge]
        rfl
      · rw [if_neg hlarge, if_neg hlarge]
        cases checkedMul value (2 ^ bits) with
        | none => rfl
        | some scaled =>
          simp only [Option.bind_some]
          cases checkedAdd scaled digit with
          | none => rfl
          | some next => exact ih next

variable (hbits : bits = 3 ∨ bits = 4)
include hbits

theorem two_pow_bits_le : 2 ^ bits ≤ 16 := by
  cases hbits with
  | inl h =>
    rw [h]
    decide
  | inr h =>
    rw [h]
    decide

variable {width value : Nat} {layout : List (Nat × Nat)}

theorem parseDigits_formatDigits (hfits : value < 2 ^ (bits * width)) (hsmall : value < 2 ^ 64) :
    parseDigits bits 0 (formatDigits bits width value).1 = some value := by
  induction width generalizing value with
  | zero =>
    have hzero : value = 0 := by simpa using hfits
    rw [hzero]
    rfl
  | succ width ih =>
    have hhigh : value >>> bits < 2 ^ (bits * width) := by
      rw [Nat.shiftRight_eq_div_pow]
      apply Nat.div_lt_of_lt_mul
      rwa [← Nat.pow_add, add_comm, ← Nat.mul_succ]
    have hle : value >>> bits ≤ value := by
      rw [Nat.shiftRight_eq_div_pow]
      exact Nat.div_le_self _ _
    have hdigit : value &&& (2 ^ bits - 1) = value % 2 ^ bits := Nat.and_two_pow_sub_one_eq_mod value bits
    have hlt : value % 2 ^ bits < 2 ^ bits := Nat.mod_lt _ (Nat.two_pow_pos bits)
    have hsplit : value / 2 ^ bits * 2 ^ bits + value % 2 ^ bits = value := Nat.div_add_mod' value (2 ^ bits)
    simp only [formatDigits]
    rw [parseDigits_append, ih hhigh (by omega), hdigit]
    simp only [Option.bind_some, parseDigits, Option.bind_eq_bind]
    rw [fieldDigit_digits (lt_of_lt_of_le hlt (two_pow_bits_le hbits)), Option.bind_some, if_neg (by omega),
      Nat.shiftRight_eq_div_pow, checkedMul_of_lt (by omega), Option.bind_some, checkedAdd_of_lt (by omega),
      Option.bind_some, hsplit]

theorem formatNumber_iff (hwidth : 0 < width) (value : Nat) (field : Bytes) : formatNumber bits width value = some field
      ↔ value < 2 ^ (bits * width) ∧ field = (formatDigits bits width value).1 := by
  have hrest := @formatDigits_rest bits width value
  have hgood : ¬(width = 0 ∨ (bits ≠ 3 ∧ bits ≠ 4)) := by omega
  unfold formatNumber
  rw [if_neg hgood]
  dsimp only
  rw [hrest]
  have hzero : value / 2 ^ (bits * width) = 0 ↔ value < 2 ^ (bits * width) := by
    rw [Nat.div_eq_zero_iff]
    have hpos := Nat.two_pow_pos (bits * width)
    omega
  by_cases hlt : value < 2 ^ (bits * width)
  · rw [if_pos (hzero.mpr hlt)]
    exact ⟨fun h => ⟨hlt, (Option.some.inj h).symm⟩, fun h => congrArg some h.2.symm⟩
  · rw [if_neg (fun h => hlt (hzero.mp h))]
    exact ⟨fun h => Option.noConfusion rfl (heq_of_eq h), fun h => absurd h.1 hlt⟩

theorem parseNumber_formatNumber {field : Bytes} (hwidth : 0 < width)
    (hsmall : 2 ^ (bits * width) ≤ 2 ^ 64) (h : formatNumber bits width value = some field) :
    parseNumber bits field = some value := by
  obtain ⟨hfits, hfield⟩ := (formatNumber_iff hbits hwidth value field).mp h
  have hlen := @length_formatDigits bits width value
  have hsome : field ≠ [] := by
    intro hnil
    rw [← hfield, hnil] at hlen
    rw [length_nil] at hlen
    omega
  unfold parseNumber
  rw [if_neg (by intro hbad; cases hbad with | inl h => exact hsome h | inr h => omega), hfield]
  exact parseDigits_formatDigits hbits hfits (lt_of_lt_of_le hfits hsmall)

theorem encodeFields_iff (hwidth : ∀ p ∈ layout, 0 < p.1) (bytes : Bytes) : encodeFields bits layout = some bytes
      ↔ (∀ p ∈ layout, p.2 < 2 ^ (bits * p.1))
        ∧ bytes = (layout.map fun p => (formatDigits bits p.1 p.2).1).flatten := by
  induction layout generalizing bytes with
  | nil =>
    refine ⟨fun h => ⟨fun p hp => (not_mem_nil hp).elim, (Option.some.inj h).symm⟩, fun h => ?_⟩
    rw [h.2]
    rfl
  | cons p layout ih =>
    obtain ⟨width, value⟩ := p
    have hfirst := formatNumber_iff hbits (hwidth (width, value) mem_cons_self) value
    have hrest := ih (fun p hp => hwidth p (mem_cons_of_mem _ hp))
    simp only [encodeFields, Option.bind_eq_bind, Option.bind_eq_some_iff, Option.some.injEq, forall_mem_cons,
      map_cons, flatten_cons]
    refine ⟨?_, ?_⟩
    · intro ⟨field, hfield, rest, hencode, heq⟩
      obtain ⟨hfits, hdigits⟩ := (hfirst field).mp hfield
      obtain ⟨hall, hflat⟩ := (hrest rest).mp hencode
      exact ⟨⟨hfits, hall⟩, by rw [← heq, hdigits, hflat]⟩
    · intro ⟨⟨hfits, hall⟩, heq⟩
      exact ⟨_, (hfirst _).mpr ⟨hfits, rfl⟩, _, (hrest _).mpr ⟨hall, rfl⟩, heq.symm⟩

theorem numberAt_encodeFields (hwidth : ∀ p ∈ layout, 0 < p.1)
    (hsmall : ∀ p ∈ layout, 2 ^ (bits * p.1) ≤ 2 ^ 64) {magic bytes : Bytes} (h : encodeFields bits layout = some bytes)
    {i offset : Nat} (hget : layout[i]? = some (width, value))
    (hoffset : magic.length + ((layout.take i).map Prod.fst).sum = offset) :
    numberAt bits (magic ++ bytes) offset width = some value := by
  obtain ⟨hfits, hflat⟩ := (encodeFields_iff hbits hwidth bytes).mp h
  have hmem := mem_of_getElem? hget
  have hpart : (magic :: layout.map fun p => (formatDigits bits p.1 p.2).1)[i + 1]?
      = some (formatDigits bits width value).1 := by
    rw [getElem?_cons_succ, getElem?_map, hget]
    rfl
  have hprefix : ((magic :: layout.map fun p => (formatDigits bits p.1 p.2).1).take (i + 1)).flatten.length = offset := by
    rw [take_succ_cons, flatten_cons, length_append, ← hoffset, ← map_take, length_flatten, map_map]
    congr 2
    apply map_congr_left
    intro p _
    exact length_formatDigits _ _
  have hfield := part_of_flatten hpart hprefix (length_formatDigits width value)
  have hformat := (formatNumber_iff hbits (hwidth _ hmem) value _).mpr ⟨hfits _ hmem, rfl⟩
  unfold numberAt
  rw [hflat, ← flatten_cons, hfield]
  exact parseNumber_formatNumber hbits (hwidth _ hmem) (hsmall _ hmem) hformat

end

end Bx.Cpio
