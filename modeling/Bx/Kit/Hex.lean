import Bx.Kit.Bytes

/-!
# Hexadecimal text

Bytes as pairs of digits, the high half first. Writing uses the small letters
and reading takes both cases, so what was read is what was written up to case.
-/

namespace Bx.Kit

def hexDigit (value : Nat) : UInt8 := if value < 10 then (48 + value).toUInt8 else (97 + (value - 10)).toUInt8

def hexPair (c : UInt8) : Bytes := [hexDigit (c.toNat / 16), hexDigit (c.toNat % 16)]

variable (bytes : Bytes)

def hexText : Bytes := bytes.flatMap hexPair

def hexValue (c : UInt8) : Option Nat :=
  if 48 ≤ c ∧ c ≤ 57 then some (c.toNat - 48)
  else if 97 ≤ c ∧ c ≤ 102 then some (10 + (c.toNat - 97))
  else if 65 ≤ c ∧ c ≤ 70 then some (10 + (c.toNat - 65))
  else none

def unhex : Bytes → Option Bytes
  | [] => some []
  | [_] => none
  | high :: low :: rest =>
    match hexValue high, hexValue low with
    | some hi, some lo => (unhex rest).map fun bytes => (hi * 16 + lo).toUInt8 :: bytes
    | _, _ => none

def lowerHex (c : UInt8) : UInt8 := if 65 ≤ c ∧ c ≤ 70 then c + 32 else c

def IsHexDigit (c : UInt8) : Prop := 48 ≤ c.toNat ∧ c.toNat ≤ 57 ∨ 97 ≤ c.toNat ∧ c.toNat ≤ 102

instance (c : UInt8) : Decidable (IsHexDigit c) := inferInstanceAs (Decidable (_ ∨ _))

/-! ## One byte -/

variable {value : Nat} {c : UInt8}

theorem hexValue_hexDigit (h : value < 16) : hexValue (hexDigit value) = some value := by
  revert value
  decide

theorem isHexDigit_hexDigit (h : value < 16) : IsHexDigit (hexDigit value) := by
  revert value
  decide

set_option maxRecDepth 4000 in
theorem hexDigit_of_hexValue (h : hexValue c = some value) : value < 16 ∧ hexDigit value = lowerHex c := by
  have hall : ∀ n, n < 256 → ∀ v ∈ hexValue (UInt8.ofNat n), v < 16 ∧ hexDigit v = lowerHex (UInt8.ofNat n) := by
    decide
  exact forall_byte (P := fun c => ∀ v ∈ hexValue c, v < 16 ∧ hexDigit v = lowerHex c) hall c value h

theorem toUInt8_halves (c : UInt8) : (c.toNat / 16 * 16 + c.toNat % 16).toUInt8 = c := by
  rw [Nat.div_add_mod']
  exact UInt8.ofNat_toNat

/-! ## Texts -/

@[simp] theorem hexText_nil : hexText [] = [] := rfl

@[simp] theorem hexText_cons (c : UInt8) (bytes : Bytes) :
    hexText (c :: bytes) = hexDigit (c.toNat / 16) :: hexDigit (c.toNat % 16) :: hexText bytes := rfl

theorem length_hexText : (hexText bytes).length = 2 * bytes.length := by
  induction bytes with
  | nil => rfl
  | cons c bytes ih =>
    rw [hexText_cons, List.length_cons, List.length_cons, List.length_cons, ih]
    omega

theorem isHexDigit_of_mem_hexText {bytes : Bytes} (h : c ∈ hexText bytes) : IsHexDigit c := by
  obtain ⟨b, _, hc⟩ := List.mem_flatMap.mp h
  have hb := b.toNat_lt
  unfold hexPair at hc
  cases List.mem_cons.mp hc with
  | inl hhigh =>
    rw [hhigh]
    exact isHexDigit_hexDigit (by omega)
  | inr hlow =>
    rw [List.mem_singleton.mp hlow]
    exact isHexDigit_hexDigit (by omega)

theorem unhex_hexText : unhex (hexText bytes) = some bytes := by
  induction bytes with
  | nil => rfl
  | cons c bytes ih =>
    have hc := c.toNat_lt
    rw [hexText_cons, unhex, hexValue_hexDigit (by omega), hexValue_hexDigit (by omega), ih]
    dsimp only
    rw [Option.map_some, toUInt8_halves]

theorem hexText_injective {a b : Bytes} (h : hexText a = hexText b) : a = b := by
  have ha := unhex_hexText a
  rw [h, unhex_hexText] at ha
  exact (Option.some.inj ha).symm

theorem hexText_of_unhex {text bytes : Bytes} (h : unhex text = some bytes) : hexText bytes = text.map lowerHex := by
  induction text using unhex.induct generalizing bytes with
  | case1 =>
    cases h
    rfl
  | case2 c => cases h
  | case3 high low rest hi lo hhigh hlow ih =>
    rw [unhex, hhigh, hlow] at h
    obtain ⟨more, hmore, rfl⟩ := Option.map_eq_some_iff.mp h
    obtain ⟨hhi, hhighDigit⟩ := hexDigit_of_hexValue hhigh
    obtain ⟨hlo, hlowDigit⟩ := hexDigit_of_hexValue hlow
    have hbyte : (hi * 16 + lo).toUInt8.toNat = hi * 16 + lo := by
      rw [UInt8.toNat_ofNat']
      omega
    have hdiv : (hi * 16 + lo) / 16 = hi := by omega
    have hmod : (hi * 16 + lo) % 16 = lo := by omega
    rw [hexText_cons, hbyte, hdiv, hmod, ih hmore, List.map_cons, List.map_cons, hhighDigit, hlowDigit]
  | case4 high low rest hnot =>
    rw [unhex] at h
    split at h
    · exact absurd ‹hexValue low = some _› (hnot _ _ ‹_›)
    · cases h

end Bx.Kit
