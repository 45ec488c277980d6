import Bx.Kit.Bytes

/-!
# UTF-8

The byte sequences of RFC 3629, by their ranges, are the encodings of the
characters: no overlong form, no surrogate and nothing above U+10FFFF is among
them.
-/

namespace Bx.Kit

def Continuation (c : UInt8) : Prop := 128 ≤ c.toNat ∧ c.toNat ≤ 191

inductive Sequence : Bytes → Prop where
  | one {c : UInt8} (hc : c.toNat ≤ 127) : Sequence [c]
  | two {c d : UInt8} (hc : 194 ≤ c.toNat ∧ c.toNat ≤ 223) (hd : Continuation d) : Sequence [c, d]
  | three {c d e : UInt8} (hc : 224 ≤ c.toNat ∧ c.toNat ≤ 239) (hd : Continuation d) (he : Continuation e)
      (hlow : c.toNat = 224 → 160 ≤ d.toNat) (hsurrogate : c.toNat = 237 → d.toNat ≤ 159) : Sequence [c, d, e]
  | four {c d e f : UInt8} (hc : 240 ≤ c.toNat ∧ c.toNat ≤ 244) (hd : Continuation d) (he : Continuation e)
      (hf : Continuation f) (hlow : c.toNat = 240 → 144 ≤ d.toNat) (hhigh : c.toNat = 244 → d.toNat ≤ 143) :
      Sequence [c, d, e, f]

def WellFormedUtf8 (bytes : Bytes) : Prop := ∃ text : List Char, text.flatMap String.utf8EncodeChar = bytes

/-! ## One character -/

/-- `String.utf8EncodeChar`, of the number of the character -/
def encodeScalar (v : Nat) : Bytes :=
  if v ≤ 127 then [v.toUInt8]
  else if v ≤ 2047 then [(v / 64 % 32 + 192).toUInt8, (v % 64 + 128).toUInt8]
  else if v ≤ 65535 then [(v / 4096 % 16 + 224).toUInt8, (v / 64 % 64 + 128).toUInt8, (v % 64 + 128).toUInt8]
  else [(v / 262144 % 8 + 240).toUInt8, (v / 4096 % 64 + 128).toUInt8, (v / 64 % 64 + 128).toUInt8,
    (v % 64 + 128).toUInt8]

theorem utf8EncodeChar_eq (ch : Char) : String.utf8EncodeChar ch = encodeScalar ch.toNat := rfl

theorem toNat_toUInt8 {n : Nat} (h : n < 256) : n.toUInt8.toNat = n := by
  rw [Nat.toUInt8, UInt8.toNat_ofNat']
  exact Nat.mod_eq_of_lt h

theorem toUInt8_eq {n : Nat} {c : UInt8} (h : n = c.toNat) : n.toUInt8 = c := by
  rw [h]
  exact UInt8.ofNat_toNat

theorem toNat_low (n : Nat) : (n % 64 + 128).toUInt8.toNat = n % 64 + 128 :=
  toNat_toUInt8 (by omega)

theorem continuation_low (n : Nat) : Continuation (n % 64 + 128).toUInt8 := by
  unfold Continuation
  rw [toNat_low]
  omega

theorem sequence_encodeScalar {v : Nat} (h : v.isValidChar) : Sequence (encodeScalar v) := by
  have hvalid : v < 55296 ∨ 57343 < v ∧ v < 1114112 := h
  unfold encodeScalar
  by_cases hone : v ≤ 127
  · rw [if_pos hone]
    apply Sequence.one
    rw [toNat_toUInt8 (by omega)]
    exact hone
  · rw [if_neg hone]
    by_cases htwo : v ≤ 2047
    · have hlead := @toNat_toUInt8 (v / 64 % 32 + 192) (by omega)
      rw [if_pos htwo]
      refine .two ?_ (continuation_low v)
      rw [hlead]
      omega
    · rw [if_neg htwo]
      by_cases hthree : v ≤ 65535
      · have hlead := @toNat_toUInt8 (v / 4096 % 16 + 224) (by omega)
        rw [if_pos hthree]
        refine .three ?_ (continuation_low (v / 64)) (continuation_low v) ?_ ?_
        all_goals
          simp only [hlead, toNat_low]
          omega
      · have hlead := @toNat_toUInt8 (v / 262144 % 8 + 240) (by omega)
        rw [if_neg hthree]
        refine .four ?_ (continuation_low (v / 4096)) (continuation_low (v / 64)) (continuation_low v) ?_ ?_
        all_goals
          simp only [hlead, toNat_low]
          omega

theorem exists_char {v : Nat} {bytes : Bytes} (hvalid : v < 55296 ∨ 57343 < v ∧ v < 1114112)
    (h : encodeScalar v = bytes) : ∃ ch, String.utf8EncodeChar ch = bytes := by
  have hnat : (Char.ofNatAux v hvalid).toNat = v := rfl
  refine ⟨Char.ofNatAux v hvalid, ?_⟩
  rw [utf8EncodeChar_eq, hnat, h]

theorem sequence_iff (bytes : Bytes) : Sequence bytes ↔ ∃ ch, String.utf8EncodeChar ch = bytes := by
  refine ⟨?_, ?_⟩
  · intro h
    cases h with
    | @one c hc =>
      apply @exists_char c.toNat _ (by omega)
      unfold encodeScalar
      rw [if_pos hc, toUInt8_eq rfl]
    | @two c d hc hd =>
      unfold Continuation at hd
      apply @exists_char ((c.toNat - 192) * 64 + (d.toNat - 128)) _ (by omega)
      unfold encodeScalar
      rw [if_neg (by omega), if_pos (by omega), toUInt8_eq (c := c) (by omega), toUInt8_eq (c := d) (by omega)]
    | @three c d e hc hd he hlow hsurrogate =>
      unfold Continuation at hd he
      apply @exists_char ((c.toNat - 224) * 4096 + (d.toNat - 128) * 64 + (e.toNat - 128)) _ (by omega)
      unfold encodeScalar
      rw [if_neg (by omega), if_neg (by omega), if_pos (by omega), toUInt8_eq (c := c) (by omega),
        toUInt8_eq (c := d) (by omega), toUInt8_eq (c := e) (by omega)]
    | @four c d e f hc hd he hf hlow hhigh =>
      unfold Continuation at hd he hf
      apply @exists_char
        ((c.toNat - 240) * 262144 + (d.toNat - 128) * 4096 + (e.toNat - 128) * 64 + (f.toNat - 128)) _ (by omega)
      unfold encodeScalar
      rw [if_neg (by omega), if_neg (by omega), if_neg (by omega), toUInt8_eq (c := c) (by omega),
        toUInt8_eq (c := d) (by omega), toUInt8_eq (c := e) (by omega), toUInt8_eq (c := f) (by omega)]
  · intro h
    obtain ⟨ch, rfl⟩ := h
    rw [utf8EncodeChar_eq]
    exact sequence_encodeScalar ch.valid

theorem wellFormedUtf8_nil : WellFormedUtf8 [] := ⟨[], rfl⟩

theorem wellFormedUtf8_append {sequence rest : Bytes} (h : Sequence sequence) (hrest : WellFormedUtf8 rest) :
    WellFormedUtf8 (sequence ++ rest) := by
  obtain ⟨ch, rfl⟩ := (sequence_iff sequence).mp h
  obtain ⟨text, rfl⟩ := hrest
  exact ⟨ch :: text, List.flatMap_cons⟩

end Bx.Kit
