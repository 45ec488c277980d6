import Mathlib.Data.Nat.Digits.Defs

/-!
# Bytes and numerals

Texts in a binary format are lists of bytes. A number stands in them as its
shortest numeral, or as a numeral of fixed width; reading the digits from the
left gives it back.
-/

namespace Bx.Kit

open List

abbrev Bytes := List UInt8

def ascii (s : String) : Bytes := s.toList.map fun c => c.toNat.toUInt8

def cText (bytes : Bytes) : Bytes := bytes.takeWhile (· != 0)

abbrev CText := { bytes : Bytes // 0 ∉ bytes }

theorem zero_notMem_cText (bytes : Bytes) : 0 ∉ cText bytes := by
  intro h
  have hall : (bytes.takeWhile (· != 0)).all (· != 0) = true := all_takeWhile
  have hne := all_eq_true.mp hall 0 h
  cases hne

theorem length_cText_le (bytes : Bytes) : (cText bytes).length ≤ bytes.length :=
  (List.takeWhile_prefix _).length_le

theorem part_of_flatten {parts : List Bytes} {i offset width : Nat} {part : Bytes} (hpart : parts[i]? = some part)
    (hoffset : (parts.take i).flatten.length = offset) (hwidth : part.length = width) :
    (parts.flatten.drop offset).take width = part := by
  obtain ⟨hi, hget⟩ := List.getElem?_eq_some_iff.mp hpart
  have hsplit : parts.flatten = (parts.take i).flatten ++ (part ++ (parts.drop (i + 1)).flatten) := by
    rw [← flatten_cons, ← flatten_append, ← hget, getElem_cons_drop, take_append_drop]
  rw [hsplit, drop_left' hoffset, take_left' hwidth]

theorem forall_byte {P : UInt8 → Prop} (h : ∀ n, n < 256 → P (UInt8.ofNat n)) (c : UInt8) : P c := by
  have hc := h c.toNat c.toNat_lt
  rwa [UInt8.ofNat_toNat] at hc

theorem of_ite_ne {α : Type*} {c : Prop} [Decidable c] {a b r : α} (h : (if c then a else b) = r) (hne : a ≠ r) :
    ¬c ∧ b = r := by
  by_cases hc : c
  · rw [if_pos hc] at h
    exact absurd h hne
  · rw [if_neg hc] at h
    exact ⟨hc, h⟩

theorem bind_ok {ε α β : Type*} {x : Except ε α} {f : α → Except ε β} {b : β} (h : x.bind f = .ok b) :
    ∃ a, x = .ok a ∧ f a = .ok b := by
  cases x with
  | error e => cases h
  | ok a => exact ⟨a, rfl, h⟩

def byteSum (bytes : Bytes) : Nat := (bytes.map UInt8.toNat).sum

@[simp] theorem byteSum_nil : byteSum [] = 0 := rfl

@[simp] theorem byteSum_append (a b : Bytes) : byteSum (a ++ b) = byteSum a + byteSum b := by
  simp [byteSum]

theorem byteSum_le (bytes : Bytes) : byteSum bytes ≤ 255 * bytes.length := by
  induction bytes with
  | nil => simp
  | cons b bytes ih =>
    have hb := b.toNat_lt
    have hcons : byteSum (b :: bytes) = b.toNat + byteSum bytes := by simp [byteSum]
    rw [hcons, length_cons]
    omega

variable {bytes : Bytes}

theorem cText_append (h : 0 ∉ bytes) (more : Bytes) : cText (bytes ++ more) = bytes ++ cText more := by
  apply takeWhile_append_of_pos
  intro b hb
  have hne : b ≠ 0 := fun h0 => h (h0 ▸ hb)
  simpa using hne

theorem cText_of_zero_notMem (h : 0 ∉ bytes) : cText bytes = bytes := by
  have happ := cText_append h []
  rw [append_nil] at happ
  exact happ.trans (append_nil bytes)

theorem cText_append_zero (h : 0 ∉ bytes) (more : Bytes) : cText (bytes ++ 0 :: more) = bytes := by
  rw [cText_append h]
  simp [cText]

/-! ## Digits -/

def digitByte (d : Nat) : UInt8 := (48 + d).toUInt8

def digitValue (c : UInt8) : Nat := c.toNat - 48

def isDigit (base : Nat) (c : UInt8) : Bool := 48 ≤ c.toNat && c.toNat < 48 + base

variable {d : Nat} {c : UInt8}

theorem toNat_digitByte (h : d < 10) : (digitByte d).toNat = 48 + d := by
  unfold digitByte
  rw [UInt8.toNat_ofNat']
  omega

theorem digitValue_digitByte (h : d < 10) : digitValue (digitByte d) = d := by
  unfold digitValue
  rw [toNat_digitByte h]
  omega

theorem isDigit_digitByte {base d : Nat} (hb : base ≤ 10) (h : d < base) : isDigit base (digitByte d) = true := by
  have hd := toNat_digitByte (lt_of_lt_of_le h hb)
  simp [isDigit, hd, h]

theorem isDigit_iff {base : Nat} : isDigit base c = true ↔ 48 ≤ c.toNat ∧ c.toNat < 48 + base := by
  simp [isDigit]

def numeralValue (base : Nat) (value : Nat) (digits : Bytes) : Nat :=
  digits.foldl (fun v c => v * base + digitValue c) value

@[simp] theorem numeralValue_nil (base v : Nat) : numeralValue base v [] = v := rfl

@[simp] theorem numeralValue_cons (base v : Nat) (c : UInt8) (ds : Bytes) :
    numeralValue base v (c :: ds) = numeralValue base (v * base + digitValue c) ds := by
  simp only [numeralValue, foldl_cons]

theorem numeralValue_append (base v : Nat) (a b : Bytes) :
    numeralValue base v (a ++ b) = numeralValue base (numeralValue base v a) b :=
  foldl_append

theorem le_numeralValue {base : Nat} (hb : 0 < base) (v : Nat) (ds : Bytes) : v ≤ numeralValue base v ds := by
  induction ds generalizing v with
  | nil => exact Nat.le_refl v
  | cons c ds ih =>
    rw [numeralValue_cons]
    apply Nat.le_trans _ (ih _)
    have hmul := Nat.le_mul_of_pos_right v hb
    omega

/-! ## The shortest numeral -/

def numeral (base n : Nat) : Bytes := (Nat.toDigits base n).map fun c => c.toNat.toUInt8

section
variable {base : Nat}

theorem toNat_of_mem_toDigits (hpos : 0 < base) (hb : base ≤ 10) {n : Nat} {c : Char}
    (h : c ∈ Nat.toDigits base n) : 48 ≤ c.toNat ∧ c.toNat < 58 := by
  have hdigit := Nat.isDigit_of_mem_toDigits hpos hb h
  have hrange : '0'.toNat ≤ c.toNat ∧ c.toNat ≤ '9'.toNat := Char.isDigit_iff_toNat.mp hdigit
  exact ⟨hrange.1, Nat.lt_succ_of_le hrange.2⟩

theorem numeral_ne_nil (n : Nat) : numeral base n ≠ [] := by
  intro h
  exact Nat.toDigits_ne_nil (map_eq_nil_iff.mp h)

theorem isDigit_of_mem_numeral (hpos : 0 < base) (hb : base ≤ 10) {n : Nat} {c : UInt8} (h : c ∈ numeral base n) :
    isDigit 10 c = true := by
  obtain ⟨d, hd, rfl⟩ := mem_map.mp h
  have hrange := toNat_of_mem_toDigits hpos hb hd
  apply isDigit_iff.mpr
  rw [UInt8.toNat_ofNat']
  omega

theorem numeralValue_numeral (hone : 1 < base) (hb : base ≤ 10) (n : Nat) : numeralValue base 0 (numeral base n) = n := by
  have hread : ∀ (cs : List Char) (v : Nat), (∀ c ∈ cs, 48 ≤ c.toNat ∧ c.toNat < 58) →
      numeralValue base v (cs.map fun c => c.toNat.toUInt8) = Nat.ofDigitChars base cs v := by
    intro cs
    induction cs with
    | nil => intro v _; rfl
    | cons c cs ih =>
      intro v hcs
      have hc := hcs c mem_cons_self
      have hbyte : c.toNat.toUInt8.toNat = c.toNat := by
        rw [UInt8.toNat_ofNat']
        omega
      have hstep : v * base + digitValue c.toNat.toUInt8 = base * v + (c.toNat - '0'.toNat) := by
        unfold digitValue
        rw [hbyte, mul_comm]
        rfl
      rw [map_cons, numeralValue_cons, hstep]
      exact ih _ (fun c' hc' => hcs c' (mem_cons_of_mem _ hc'))
  have hchars := hread (Nat.toDigits base n) 0 (fun c hc => toNat_of_mem_toDigits (by omega) hb hc)
  exact hchars.trans (Nat.ofDigitChars_toDigits hone hb)

theorem length_numeral_le_iff (hone : 1 < base) {n k : Nat} (hk : 0 < k) :
    (numeral base n).length ≤ k ↔ n < base ^ k := by
  unfold numeral
  rw [length_map]
  exact Nat.length_toDigits_le_iff hone hk

theorem length_numeral_pos (n : Nat) : 0 < (numeral base n).length :=
  length_pos_iff.mpr (numeral_ne_nil n)

theorem length_numeral_mono (hone : 1 < base) {m n : Nat} (h : m ≤ n) :
    (numeral base m).length ≤ (numeral base n).length := by
  apply (length_numeral_le_iff hone (length_numeral_pos n)).mpr
  exact lt_of_le_of_lt h ((length_numeral_le_iff hone (length_numeral_pos n)).mp (le_rfl))

end

/-! ## Numerals of fixed width -/

def paddedNumeral (base : Nat) : Nat → Nat → Bytes
  | 0, _ => []
  | width + 1, value => paddedNumeral base width (value / base) ++ [digitByte (value % base)]

@[simp] theorem length_paddedNumeral (base width value : Nat) : (paddedNumeral base width value).length = width := by
  induction width generalizing value with
  | zero => rfl
  | succ width ih => simp [paddedNumeral, ih]

section
variable {base : Nat} (hpos : 0 < base) (hb : base ≤ 10)
include hpos hb

theorem isDigit_of_mem_paddedNumeral {width value : Nat} (h : c ∈ paddedNumeral base width value) :
    isDigit base c = true := by
  induction width generalizing value with
  | zero => cases h
  | succ width ih =>
    cases mem_append.mp h with
    | inl hlow => exact ih hlow
    | inr hlast =>
      rw [mem_singleton.mp hlast]
      exact isDigit_digitByte hb (Nat.mod_lt _ hpos)

theorem numeralValue_paddedNumeral {width value : Nat} (h : value < base ^ width) :
    numeralValue base 0 (paddedNumeral base width value) = value := by
  induction width generalizing value with
  | zero =>
    have hzero : value = 0 := by simpa using h
    rw [hzero]
    rfl
  | succ width ih =>
    have hhigh : value / base < base ^ width := by
      apply Nat.div_lt_of_lt_mul
      rwa [mul_comm, ← pow_succ]
    have hdigit : value % base < 10 := lt_of_lt_of_le (Nat.mod_lt _ hpos) hb
    rw [paddedNumeral, numeralValue_append, ih hhigh, numeralValue_cons, numeralValue_nil, digitValue_digitByte hdigit]
    exact Nat.div_add_mod' value base

end

end Bx.Kit
