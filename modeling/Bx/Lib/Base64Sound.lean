import Bx.Lib.Base64

/-!
# Base64 texts and the bytes in them

The vector unit makes no difference. The decoder takes back what the encoder writes, and takes a text only if that is
what the encoder writes, up to the bits in front of the padding that no byte is made of: these are not looked at.
-/

namespace Bx.Lib

open Kit List

/-! ## Characters -/

def alphabetBytes : Bytes :=
  (List.range 26).map (fun i => (65 + i).toUInt8) ++ (List.range 26).map (fun i => (97 + i).toUInt8)
    ++ (List.range 10).map (fun i => (48 + i).toUInt8) ++ [43, 47]

theorem base64Char_eq (value : Nat) : base64Char value = alphabetBytes.getD value 0 := by
  have halphabet : base64Alphabet = alphabetBytes := by rfl
  unfold base64Char
  rw [halphabet]

set_option maxRecDepth 4000 in
variable {value : Nat} {ch : UInt8}

theorem decodeValue_base64Char (h : value < 64) : base64DecodeValue (base64Char value) = some value := by
  have hall : ∀ v, v < 64 → base64DecodeValue (alphabetBytes.getD v 0) = some v := by decide
  rw [base64Char_eq]
  exact hall value h

set_option maxRecDepth 4000 in
theorem decodeValue_iff : base64DecodeValue ch = some value ↔ value < 64 ∧ base64Char value = ch := by
  have hall : ∀ n, n < 256 → (base64DecodeValue (UInt8.ofNat n)).all
      (fun v => decide (v < 64) && alphabetBytes.getD v 0 == UInt8.ofNat n) = true := by
    decide
  refine ⟨?_, ?_⟩
  · intro h
    have hch := forall_byte (P := fun c => (base64DecodeValue c).all
      (fun v => decide (v < 64) && alphabetBytes.getD v 0 == c) = true) hall ch
    rw [h] at hch
    obtain ⟨hlt, hchar⟩ := Bool.and_eq_true_iff.mp hch
    exact ⟨of_decide_eq_true hlt, (base64Char_eq value).trans (eq_of_beq hchar)⟩
  · intro h
    rw [← h.2]
    exact decodeValue_base64Char h.1

theorem base64Char_inj {a b : Nat} (ha : a < 64) (hb : b < 64) (h : base64Char a = base64Char b) : a = b := by
  have hvalue := decodeValue_base64Char ha
  rw [h, decodeValue_base64Char hb] at hvalue
  exact (Option.some.inj hvalue).symm

theorem base64Char_ne_pad (h : value < 64) : base64Char value ≠ base64Pad := by
  intro heq
  have hvalue := decodeValue_base64Char h
  rw [heq] at hvalue
  cases hvalue

theorem decodeValue_lt (h : base64DecodeValue ch = some value) : value < 64 :=
  (decodeValue_iff.mp h).1

/-! ## Bits -/

variable {width : Nat}

theorem or_low {high low : Nat} (h : low < 2 ^ width) : (high <<< width) ||| low = high * 2 ^ width + low := by
  rw [← Nat.shiftLeft_add_eq_or_of_lt h, Nat.shiftLeft_eq]

theorem and_three (n : Nat) : n &&& 3 = n % 4 := Nat.and_two_pow_sub_one_eq_mod n 2

theorem and_fifteen (n : Nat) : n &&& 15 = n % 16 := Nat.and_two_pow_sub_one_eq_mod n 4

theorem and_sixtyThree (n : Nat) : n &&& 63 = n % 64 := Nat.and_two_pow_sub_one_eq_mod n 6

theorem encodeTriple_eq (x y z : UInt8) :
    encodeTriple [x, y, z] = some [base64Char (x.toNat / 4), base64Char (x.toNat % 4 * 16 + y.toNat / 16),
      base64Char (y.toNat % 16 * 4 + z.toNat / 64), base64Char (z.toNat % 64)] := by
  have hy := y.toNat_lt
  have hz := z.toNat_lt
  simp only [encodeTriple, Nat.shiftRight_eq_div_pow, and_three, and_fifteen, and_sixtyThree]
  rw [or_low (by omega), or_low (by omega)]
  rfl

theorem encodeTail_one (x : UInt8) :
    encodeTail [x] = [base64Char (x.toNat / 4), base64Char (x.toNat % 4 * 16), base64Pad, base64Pad] := by
  simp only [encodeTail, Nat.shiftRight_eq_div_pow, and_three, Nat.shiftLeft_eq]

theorem encodeTail_two (x y : UInt8) :
    encodeTail [x, y] = [base64Char (x.toNat / 4), base64Char (x.toNat % 4 * 16 + y.toNat / 16),
      base64Char (y.toNat % 16 * 4), base64Pad] := by
  have hy := y.toNat_lt
  simp only [encodeTail, Nat.shiftRight_eq_div_pow, and_three, and_fifteen]
  rw [or_low (by omega), Nat.shiftLeft_eq]
  rfl

section
variable {a b c d : Nat}

theorem toNat_decodedFirst (ha : a < 64) (hb : b < 64) : (decodedFirst a b).toNat = a * 4 + b / 16 := by
  unfold decodedFirst
  rw [Nat.shiftRight_eq_div_pow, or_low (by omega)]
  exact Nat.mod_eq_of_lt (by omega)

theorem toNat_decodedSecond (hc : c < 64) : (decodedSecond b c).toNat = b % 16 * 16 + c / 4 := by
  unfold decodedSecond
  rw [Nat.shiftRight_eq_div_pow, or_low (by omega)]
  show (b * 2 ^ 4 + c / 2 ^ 2) % 256 = _
  omega

theorem toNat_decodedThird (hd : d < 64) : (decodedThird c d).toNat = c % 4 * 64 + d := by
  unfold decodedThird
  rw [or_low (by omega)]
  show (c * 2 ^ 6 + d) % 256 = _
  omega

end

/-! ## Complete groups -/

theorem decodeQuad_char {a b c d : Nat} (ha : a < 64) (hb : b < 64) (hc : c < 64) (hd : d < 64) :
    decodeQuad [base64Char a, base64Char b, base64Char c, base64Char d] =
      some [decodedFirst a b, decodedSecond b c, decodedThird c d] := by
  simp only [decodeQuad]
  rw [decodeValue_base64Char ha, decodeValue_base64Char hb, decodeValue_base64Char hc, decodeValue_base64Char hd]
  rfl

variable {t q text bytes : Bytes}

theorem decodeQuad_inv {q0 q1 q2 q3 : UInt8} (h : decodeQuad [q0, q1, q2, q3] = some t) :
    ∃ a b c d, base64DecodeValue q0 = some a ∧ base64DecodeValue q1 = some b ∧ base64DecodeValue q2 = some c ∧
      base64DecodeValue q3 = some d ∧ t = [decodedFirst a b, decodedSecond b c, decodedThird c d] := by
  simp only [decodeQuad, bind, Option.bind_eq_some_iff] at h
  obtain ⟨a, ha, b, hb, c, hc, d, hd, ht⟩ := h
  exact ⟨a, b, c, d, ha, hb, hc, hd, (Option.some.inj ht).symm⟩

theorem encodeTriple_of_decodeQuad (hq : q.length = 4) (h : decodeQuad q = some t) :
    t.length = 3 ∧ encodeTriple t = some q := by
  obtain ⟨q0, q1, q2, q3, rfl⟩ := length_eq_four.mp hq
  obtain ⟨a, b, c, d, h0, h1, h2, h3, rfl⟩ := decodeQuad_inv h
  obtain ⟨ha, rfl⟩ := decodeValue_iff.mp h0
  obtain ⟨hb, rfl⟩ := decodeValue_iff.mp h1
  obtain ⟨hc, rfl⟩ := decodeValue_iff.mp h2
  obtain ⟨hd, rfl⟩ := decodeValue_iff.mp h3
  refine ⟨rfl, ?_⟩
  rw [encodeTriple_eq, toNat_decodedFirst ha hb, toNat_decodedSecond hc, toNat_decodedThird hd,
    show (a * 4 + b / 16) / 4 = a by omega, show (a * 4 + b / 16) % 4 * 16 + (b % 16 * 16 + c / 4) / 16 = b by omega,
    show (b % 16 * 16 + c / 4) % 16 * 4 + (c % 4 * 64 + d) / 64 = c by omega, show (c % 4 * 64 + d) % 64 = d by omega]

theorem decodeQuad_of_encodeTriple (ht : t.length = 3) (h : encodeTriple t = some q) :
    q.length = 4 ∧ decodeQuad q = some t := by
  obtain ⟨x, y, z, rfl⟩ := length_eq_three.mp ht
  have hx := x.toNat_lt
  have hy := y.toNat_lt
  have hz := z.toNat_lt
  rw [encodeTriple_eq] at h
  cases h
  refine ⟨rfl, ?_⟩
  rw [decodeQuad_char (by omega) (by omega) (by omega) (by omega)]
  congr 2
  · apply UInt8.toNat_inj.mp
    rw [toNat_decodedFirst (by omega) (by omega)]
    omega
  · congr 1
    · apply UInt8.toNat_inj.mp
      rw [toNat_decodedSecond (by omega)]
      omega
    · congr 1
      apply UInt8.toNat_inj.mp
      rw [toNat_decodedThird (by omega)]
      omega

theorem isSome_encodeTriple (t : Bytes) (ht : t.length = 3) : (encodeTriple t).isSome := by
  obtain ⟨x, y, z, rfl⟩ := length_eq_three.mp ht
  rfl

theorem groups_iff : blockLoop 4 decodeQuad text = (bytes, []) ↔ blockLoop 3 encodeTriple bytes = (text, []) :=
  ⟨blockLoop_undo (by decide) (by decide) fun _ _ => encodeTriple_of_decodeQuad,
    blockLoop_undo (by decide) (by decide) fun _ _ => decodeQuad_of_encodeTriple⟩

/-! ## Sixteen groups -/

variable (input : Bytes)

theorem take_drop_getD {start : Nat} (h : start + width ≤ input.length) :
    (input.drop start).take width = (List.range width).map fun i => input.getD (start + i) 0 := by
  apply ext_getElem
  · simp
    omega
  · intro i hi hi'
    rw [length_map, length_range] at hi'
    rw [getElem_take, getElem_drop, getElem_map, getElem_range, getD_eq_getElem?_getD,
      getElem?_eq_getElem (by omega), Option.getD_some]

theorem blockLoop_lanes (hw : 0 < width) {f : Bytes → Option Bytes} {block : Bytes}
    {registers : List Register} (hlen : block.length = width * 16)
    (h : ∀ i : Fin 16, f ((List.range width).map fun k => loadLanes width block k i) = some (registers.map (· i))) :
    blockLoop width f block = (storeLanes registers, []) := by
  let out : Nat → Bytes := fun i => if hi : i < 16 then registers.map (· ⟨i, hi⟩) else []
  rw [blockLoop_of_blocks hw out hlen]
  · rw [← map_coe_finRange_eq_range, flatMap_map]
    simp only [out, Fin.is_lt, dite_true, storeLanes]
  · intro i hi
    have hle : width * i + width ≤ block.length := by
      rw [hlen, ← Nat.mul_succ]
      exact Nat.mul_le_mul_left width hi
    rw [take_drop_getD block hle]
    simp only [out, dif_pos hi]
    exact h ⟨i, hi⟩

theorem encodeBlock48_agrees (block out : Bytes) (hlen : block.length = 48) (h : encodeBlock48 block = some out) :
    blockLoop 3 encodeTriple block = (out, []) := by
  cases h
  apply blockLoop_lanes (by decide) hlen
  intro i
  have hsmall : ∀ x : Nat, (x &&& 3) <<< 4 < 256 ∧ (x &&& 15) <<< 2 < 256 := by
    intro x
    rw [and_three, and_fifteen, Nat.shiftLeft_eq, Nat.shiftLeft_eq]
    omega
  simp [range_succ, encodeTriple, encodeValues, Nat.mod_eq_of_lt (hsmall _).1, Nat.mod_eq_of_lt (hsmall _).2]

set_option maxRecDepth 4000 in
theorem decodeValue_lane (ch : UInt8) :
    base64DecodeValue ch = if validMask ch = 255 then some (laneValue ch).toNat else none := by
  have hall : ∀ n, n < 256 → base64DecodeValue (UInt8.ofNat n) =
      if validMask (UInt8.ofNat n) = 255 then some (laneValue (UInt8.ofNat n)).toNat else none := by
    decide
  exact forall_byte
    (P := fun c => base64DecodeValue c = if validMask c = 255 then some (laneValue c).toNat else none) hall ch

theorem decodeValues_lane {chars values : Register} (h : decodeValues chars = some values) (i : Fin 16) :
    base64DecodeValue (chars i) = some (values i).toNat := by
  unfold decodeValues at h
  split at h
  · cases h
    rw [decodeValue_lane, if_pos (‹∀ i, validMask (chars i) = 255› i)]
  · cases h

section
variable (a b : UInt8)

theorem first_lane : (a <<< 2) ||| (b >>> 4) = decodedFirst a.toNat b.toNat := by
  apply UInt8.toNat_inj.mp
  have hb : b.toNat >>> 4 < 256 := lt_of_le_of_lt (Nat.shiftRight_le _ _) b.toNat_lt
  simp [decodedFirst, Nat.mod_eq_of_lt hb]

theorem second_lane : (a <<< 4) ||| (b >>> 2) = decodedSecond a.toNat b.toNat := by
  apply UInt8.toNat_inj.mp
  have hb : b.toNat >>> 2 < 256 := lt_of_le_of_lt (Nat.shiftRight_le _ _) b.toNat_lt
  simp [decodedSecond, Nat.mod_eq_of_lt hb]

theorem third_lane : (a <<< 6) ||| b = decodedThird a.toNat b.toNat := by
  apply UInt8.toNat_inj.mp
  simp [decodedThird]

end

theorem decodeBlock64_agrees (block out : Bytes) (hlen : block.length = 64) (h : decodeBlock64 block = some out) :
    blockLoop 4 decodeQuad block = (out, []) := by
  simp only [decodeBlock64, bind, Option.bind_eq_some_iff] at h
  obtain ⟨v0, h0, v1, h1, v2, h2, v3, h3, hout⟩ := h
  cases hout
  apply blockLoop_lanes (by decide) hlen
  intro i
  have hquad : (List.range 4).map (fun k => loadLanes 4 block k i) =
      [loadLanes 4 block 0 i, loadLanes 4 block 1 i, loadLanes 4 block 2 i, loadLanes 4 block 3 i] := rfl
  rw [hquad]
  simp only [decodeQuad, decodeValues_lane h0 i, decodeValues_lane h1 i, decodeValues_lane h2 i, decodeValues_lane h3 i,
    map_cons, map_nil, first_lane, second_lane, third_lane]
  rfl

variable (asimd : Bool)

theorem encodeComplete_eq :
    encodeComplete asimd input = (blockLoop 3 encodeTriple (input.take (input.length - input.length % 3))).1 := by
  unfold encodeComplete
  cases asimd with
  | false => exact nil_append _
  | true => exact congrArg Prod.fst (blockLoop_after_wide (by decide) (by decide) encodeBlock48_agrees _)

theorem decodeBlocks_eq : decodeBlocks asimd input = blockLoop 4 decodeQuad input := by
  unfold decodeBlocks
  cases asimd with
  | false => exact Prod.ext (nil_append _) rfl
  | true => exact blockLoop_after_wide (by decide) (by decide) decodeBlock64_agrees input

/-! ## The last group -/

def encodeGroup (group : Bytes) : Bytes := (encodeTriple group).getD (encodeTail group)

theorem encodeGroup_three (x y z : UInt8) :
    encodeGroup [x, y, z] = [base64Char (x.toNat / 4), base64Char (x.toNat % 4 * 16 + y.toNat / 16),
      base64Char (y.toNat % 16 * 4 + z.toNat / 64), base64Char (z.toNat % 64)] := by
  rw [encodeGroup, encodeTriple_eq, Option.getD_some]

variable {group : Bytes}

theorem length_encodeGroup (hpos : 0 < group.length) (hle : group.length ≤ 3) : (encodeGroup group).length = 4 := by
  match group with
  | [_] => rfl
  | [_, _] => rfl
  | [_, _, _] => rfl

theorem base64Encode_append {front : Bytes} (hfront : blockLoop 3 encodeTriple front = (text, []))
    (hpos : 0 < group.length) (hle : group.length ≤ 3) :
    base64Encode asimd (front ++ group) = text ++ encodeGroup group := by
  obtain ⟨n, hn, _⟩ := blockLoop_done_length (v := 4) (by decide)
    (fun t q ht hq => (decodeQuad_of_encodeTriple ht hq).1) hfront
  have hlen : (front ++ group).length = 3 * n + group.length := by rw [length_append, hn]
  unfold base64Encode
  rw [encodeComplete_eq, hlen]
  by_cases hthree : group.length = 3
  · obtain ⟨x, y, z, rfl⟩ := length_eq_three.mp hthree
    have hcut : 3 * n + 3 - (3 * n + 3) % 3 = (front ++ [x, y, z]).length := by
      rw [hlen, hthree]
      omega
    have hlast : encodeTriple [x, y, z] = some (encodeGroup [x, y, z]) := rfl
    rw [hthree, hcut, take_length, drop_length, blockLoop_append (by decide) hfront,
      blockLoop_single (by decide) hthree hlast]
    exact append_nil _
  · have hcut : 3 * n + group.length - (3 * n + group.length) % 3 = front.length := by omega
    have htail : encodeGroup group = encodeTail group := by
      match group, hthree with
      | [], _ => rfl
      | [_], _ => rfl
      | [_, _], _ => rfl
      | [_, _, _], h => exact absurd rfl h
      | _ :: _ :: _ :: _ :: _, _ => rfl
    rw [hcut, take_left, drop_left, hfront, htail]

theorem exists_groups (hne : bytes ≠ []) :
    ∃ front group text, bytes = front ++ group ∧ 0 < group.length ∧ group.length ≤ 3 ∧
      blockLoop 3 encodeTriple front = (text, []) := by
  have hpos := length_pos_iff.mpr hne
  refine ⟨bytes.take (3 * ((bytes.length - 1) / 3)), bytes.drop (3 * ((bytes.length - 1) / 3)), _,
    (take_append_drop _ _).symm, ?_, ?_, Prod.ext rfl (blockLoop_done (by decide) isSome_encodeTriple ?_)⟩
  · rw [length_drop]
    omega
  · rw [length_drop]
    omega
  · rw [length_take_of_le (by omega), Nat.mul_mod_right]

/-! ## Padding -/

section
variable {q0 q1 q2 q3 : UInt8}

theorem paddedValue_of_ne (h : ch ≠ base64Pad) : paddedValue ch = base64DecodeValue ch := if_neg h

theorem paddedValue_pad : paddedValue base64Pad = some 0 := rfl

theorem paddingCount_quad : paddingCount [q0, q1, q2, q3] =
    (if q3 = base64Pad then 1 else 0) + (if q2 = base64Pad then 1 else 0) := by
  simp [paddingCount]

theorem decodeLast_full (h2 : q2 ≠ base64Pad) (h3 : q3 ≠ base64Pad) :
    decodeLast 0 [q0, q1, q2, q3] = decodeQuad [q0, q1, q2, q3] := by
  simp [decodeLast, decodeQuad, paddedValue_of_ne, h2, h3]

theorem decodeLast_one (h2 : q2 ≠ base64Pad) : decodeLast 1 [q0, q1, q2, base64Pad] = some group ↔
      ∃ a b c, base64DecodeValue q0 = some a ∧ base64DecodeValue q1 = some b ∧ base64DecodeValue q2 = some c ∧
        [decodedFirst a b, decodedSecond b c] = group := by
  simp [decodeLast, paddedValue_of_ne, h2, paddedValue_pad, Option.bind_eq_some_iff]

theorem decodeLast_two : decodeLast 2 [q0, q1, base64Pad, base64Pad] = some group ↔
      ∃ a b, base64DecodeValue q0 = some a ∧ base64DecodeValue q1 = some b ∧ [decodedFirst a b] = group := by
  simp [decodeLast, paddedValue_pad, Option.bind_eq_some_iff]

theorem decodeLast_misplaced (padding : Nat) (h3 : q3 ≠ base64Pad) :
    decodeLast padding [q0, q1, base64Pad, q3] = none := by
  simp [decodeLast, h3]

variable {unit : Nat}

theorem clearBits_eq_iff (hv : value < 64) :
    clearBits unit ch = base64Char value ↔ ∃ w, base64DecodeValue ch = some w ∧ w / unit * unit = value := by
  unfold clearBits
  cases hch : base64DecodeValue ch with
  | none =>
    refine ⟨?_, ?_⟩
    · intro h
      have hsome := decodeValue_base64Char hv
      simp [← h, hch] at hsome
    · intro ⟨w, hw, _⟩
      cases hw
  | some w =>
    have hw := decodeValue_lt hch
    have hle : w / unit * unit ≤ w := Nat.div_mul_le_self w unit
    refine ⟨?_, ?_⟩
    · intro h
      exact ⟨w, rfl, base64Char_inj (by omega) hv h⟩
    · intro ⟨w', hw', h⟩
      cases hw'
      exact congrArg base64Char h

theorem clearBits_ne_pad (h : ch ≠ base64Pad) : clearBits unit ch ≠ base64Pad := by
  unfold clearBits
  cases hch : base64DecodeValue ch with
  | none => exact h
  | some w => exact base64Char_ne_pad (lt_of_le_of_lt (Nat.div_mul_le_self w unit) (decodeValue_lt hch))

theorem decodeLast_two_iff (group : Bytes) : decodeLast 2 [q0, q1, base64Pad, base64Pad] = some group ↔
      (0 < group.length ∧ group.length ≤ 3) ∧ [q0, clearBits 16 q1, base64Pad, base64Pad] = encodeGroup group := by
  rw [decodeLast_two]
  refine ⟨?_, ?_⟩
  · intro ⟨a, b, h0, h1, hgroup⟩
    obtain ⟨ha, rfl⟩ := decodeValue_iff.mp h0
    have hb := decodeValue_lt h1
    subst hgroup
    have hclear : clearBits 16 q1 = base64Char ((decodedFirst a b).toNat % 4 * 16) := by
      rw [toNat_decodedFirst ha hb, clearBits_eq_iff (by omega)]
      exact ⟨b, h1, by omega⟩
    refine ⟨⟨Nat.succ_pos _, by simp⟩, ?_⟩
    show _ = encodeTail [decodedFirst a b]
    rw [encodeTail_one, hclear, toNat_decodedFirst ha hb, show (a * 4 + b / 16) / 4 = a by omega]
  · intro ⟨⟨hpos, hle⟩, h⟩
    match group, hpos, hle with
    | [x], _, _ =>
      have hx := x.toNat_lt
      have htext := h.trans (encodeTail_one x)
      simp only [List.cons.injEq, and_true] at htext
      obtain ⟨w, hw, hbits⟩ := (clearBits_eq_iff (by omega)).mp htext.2
      have hlt := decodeValue_lt hw
      refine ⟨x.toNat / 4, w, decodeValue_iff.mpr ⟨by omega, htext.1.symm⟩, hw, ?_⟩
      have hfirst : decodedFirst (x.toNat / 4) w = x := by
        apply UInt8.toNat_inj.mp
        rw [toNat_decodedFirst (by omega) hlt]
        omega
      rw [hfirst]
    | [x, y], _, _ =>
      have htext := h.trans (encodeTail_two x y)
      simp only [List.cons.injEq, and_true] at htext
      exact absurd htext.2.2.symm (base64Char_ne_pad (by omega))
    | [x, y, z], _, _ =>
      have htext := h.trans (encodeGroup_three x y z)
      simp only [List.cons.injEq, and_true] at htext
      exact absurd htext.2.2.2.symm (base64Char_ne_pad (by omega))

theorem decodeLast_one_iff (h2 : q2 ≠ base64Pad) (group : Bytes) : decodeLast 1 [q0, q1, q2, base64Pad] = some group ↔
      (0 < group.length ∧ group.length ≤ 3) ∧ [q0, q1, clearBits 4 q2, base64Pad] = encodeGroup group := by
  rw [decodeLast_one h2]
  refine ⟨?_, ?_⟩
  · intro ⟨a, b, c, h0, h1, hc, hgroup⟩
    obtain ⟨ha, rfl⟩ := decodeValue_iff.mp h0
    obtain ⟨hb, rfl⟩ := decodeValue_iff.mp h1
    have hclt := decodeValue_lt hc
    subst hgroup
    have hclear : clearBits 4 q2 = base64Char ((decodedSecond b c).toNat % 16 * 4) := by
      rw [toNat_decodedSecond hclt, clearBits_eq_iff (by omega)]
      exact ⟨c, hc, by omega⟩
    refine ⟨⟨Nat.succ_pos _, by simp⟩, ?_⟩
    show _ = encodeTail [decodedFirst a b, decodedSecond b c]
    rw [encodeTail_two, hclear, toNat_decodedFirst ha hb, toNat_decodedSecond hclt,
      show (a * 4 + b / 16) / 4 = a by omega, show (a * 4 + b / 16) % 4 * 16 + (b % 16 * 16 + c / 4) / 16 = b by omega]
  · intro ⟨⟨hpos, hle⟩, h⟩
    match group, hpos, hle with
    | [x], _, _ =>
      have htext := h.trans (encodeTail_one x)
      simp only [List.cons.injEq, and_true] at htext
      exact absurd htext.2.2 (clearBits_ne_pad h2)
    | [x, y], _, _ =>
      have hx := x.toNat_lt
      have hy := y.toNat_lt
      have htext := h.trans (encodeTail_two x y)
      simp only [List.cons.injEq, and_true] at htext
      obtain ⟨w, hw, hbits⟩ := (clearBits_eq_iff (by omega)).mp htext.2.2
      have hlt := decodeValue_lt hw
      refine ⟨x.toNat / 4, x.toNat % 4 * 16 + y.toNat / 16, w, decodeValue_iff.mpr ⟨by omega, htext.1.symm⟩,
        decodeValue_iff.mpr ⟨by omega, htext.2.1.symm⟩, hw, ?_⟩
      have hfirst : decodedFirst (x.toNat / 4) (x.toNat % 4 * 16 + y.toNat / 16) = x := by
        apply UInt8.toNat_inj.mp
        rw [toNat_decodedFirst (by omega) (by omega)]
        omega
      have hsecond : decodedSecond (x.toNat % 4 * 16 + y.toNat / 16) w = y := by
        apply UInt8.toNat_inj.mp
        rw [toNat_decodedSecond hlt]
        omega
      rw [hfirst, hsecond]
    | [x, y, z], _, _ =>
      have htext := h.trans (encodeGroup_three x y z)
      simp only [List.cons.injEq, and_true] at htext
      exact absurd htext.2.2.2.symm (base64Char_ne_pad (by omega))

theorem decodeQuad_iff_encodeGroup (h3 : q3 ≠ base64Pad) (group : Bytes) : decodeQuad [q0, q1, q2, q3] = some group ↔
      (0 < group.length ∧ group.length ≤ 3) ∧ [q0, q1, q2, q3] = encodeGroup group := by
  refine ⟨?_, ?_⟩
  · intro h
    obtain ⟨hlen, hback⟩ := encodeTriple_of_decodeQuad rfl h
    refine ⟨by omega, ?_⟩
    rw [encodeGroup, hback, Option.getD_some]
  · intro ⟨⟨hpos, hle⟩, h⟩
    match group, hpos, hle with
    | [x], _, _ =>
      have htext := h.trans (encodeTail_one x)
      simp only [List.cons.injEq, and_true] at htext
      exact absurd htext.2.2.2 h3
    | [x, y], _, _ =>
      have htext := h.trans (encodeTail_two x y)
      simp only [List.cons.injEq, and_true] at htext
      exact absurd htext.2.2.2 h3
    | [x, y, z], _, _ =>
      rw [h]
      exact (decodeQuad_of_encodeTriple rfl rfl).2

theorem decodeGroup_iff (q0 q1 q2 q3 : UInt8) (group : Bytes) :
    decodeLast (paddingCount [q0, q1, q2, q3]) [q0, q1, q2, q3] = some group ↔
      (0 < group.length ∧ group.length ≤ 3) ∧ clearQuad [q0, q1, q2, q3] = encodeGroup group := by
  rw [paddingCount_quad, clearQuad]
  by_cases h3 : q3 = base64Pad
  · rw [if_pos h3, if_neg (not_not_intro h3), h3]
    by_cases h2 : q2 = base64Pad
    · rw [if_pos h2, if_neg (not_not_intro h2), h2]
      exact decodeLast_two_iff group
    · rw [if_neg h2, if_pos h2]
      exact decodeLast_one_iff h2 group
  · rw [if_neg h3, if_pos h3]
    by_cases h2 : q2 = base64Pad
    · rw [h2, decodeLast_misplaced _ h3, ← decodeQuad_iff_encodeGroup h3]
      simp [decodeQuad, show base64DecodeValue base64Pad = none by decide]
    · rw [if_neg h2, decodeLast_full h2 h3]
      exact decodeQuad_iff_encodeGroup h3 group

end

/-! ## Texts -/

theorem length_clearQuad (text : Bytes) : (clearQuad text).length = text.length := by
  unfold clearQuad
  split
  · split
    · rfl
    · split <;> rfl
  · rfl

theorem clearUnused_append (front : Bytes) {last : Bytes} (h : last.length = 4) :
    clearUnused (front ++ last) = front ++ clearQuad last := by
  have hlen : (front ++ last).length - 4 = front.length := by
    rw [length_append, h, Nat.add_sub_cancel]
  rw [clearUnused, hlen, take_left, drop_left]

theorem paddingCount_append (front : Bytes) {last : Bytes} (h : last.length = 4) :
    paddingCount (front ++ last) = paddingCount last := by
  have hget : ∀ k, k < 4 → (front ++ last).getD (front.length + 4 - (k + 1)) 0 = last.getD (4 - (k + 1)) 0 := by
    intro k hk
    rw [getD_eq_getElem?_getD, getD_eq_getElem?_getD, getElem?_append_right (by omega)]
    congr 2
    omega
  have hlen : (front ++ last).length = front.length + 4 := by rw [length_append, h]
  rw [paddingCount, paddingCount, hlen, h, hget 0 (by decide), hget 1 (by decide)]
  simp only [show front.length + 4 ≥ 2 by omega, show 4 ≥ 2 by decide, true_and]

variable {front last : Bytes}

theorem decodeExact_append (hfront : front.length % 4 = 0) (h : last.length = 4) :
    base64DecodeExact asimd (front ++ last) =
      if (blockLoop 4 decodeQuad front).2 ≠ [] then none
      else (decodeLast (paddingCount last) last).map ((blockLoop 4 decodeQuad front).1 ++ ·) := by
  have hlen : (front ++ last).length = front.length + 4 := by rw [length_append, h]
  rw [base64DecodeExact, if_neg (by omega), if_neg (by omega), paddingCount_append front h, hlen, Nat.add_sub_cancel,
    take_left, drop_left, decodeBlocks_eq]

theorem base64Encode_nil : base64Encode asimd [] = [] := by
  cases asimd <;> rfl

theorem length_base64Encode (bytes : Bytes) : (base64Encode asimd bytes).length = (bytes.length + 2) / 3 * 4 := by
  by_cases hnil : bytes = []
  · rw [hnil, base64Encode_nil]
    rfl
  · obtain ⟨front, group, text, rfl, hpos, hle, hfront⟩ := exists_groups hnil
    obtain ⟨n, hin, hout⟩ := blockLoop_done_length (v := 4) (by decide)
      (fun t q ht hq => (decodeQuad_of_encodeTriple ht hq).1) hfront
    rw [base64Encode_append asimd hfront hpos hle, length_append, length_append, length_encodeGroup hpos hle, hin, hout]
    omega

theorem decodeExact_groups_iff (encoder decoder : Bool) (hfront : front.length % 4 = 0)
    (h : last.length = 4) (bytes : Bytes) :
    base64DecodeExact decoder (front ++ last) = some bytes ↔ front ++ clearQuad last = base64Encode encoder bytes := by
  obtain ⟨q0, q1, q2, q3, rfl⟩ := length_eq_four.mp h
  rw [decodeExact_append decoder hfront h]
  refine ⟨?_, ?_⟩
  · intro hdecode
    by_cases hdone : (blockLoop 4 decodeQuad front).2 = []
    · rw [if_neg (not_not_intro hdone), Option.map_eq_some_iff] at hdecode
      obtain ⟨group, hgroup, rfl⟩ := hdecode
      obtain ⟨⟨hpos, hle⟩, hlast⟩ := (decodeGroup_iff q0 q1 q2 q3 group).mp hgroup
      rw [base64Encode_append encoder (groups_iff.mp (Prod.ext rfl hdone)) hpos hle, hlast]
    · simp [hdone] at hdecode
  · intro hencode
    have hne : bytes ≠ [] := by
      intro hnil
      rw [hnil, base64Encode_nil] at hencode
      have hlast := congrArg List.length (append_eq_nil_iff.mp hencode).2
      simp [length_clearQuad, h] at hlast
    obtain ⟨bytesFront, group, text, rfl, hpos, hle, hgroups⟩ := exists_groups hne
    rw [base64Encode_append encoder hgroups hpos hle] at hencode
    have hlengths : (clearQuad [q0, q1, q2, q3]).length = (encodeGroup group).length := by
      rw [length_clearQuad, length_encodeGroup hpos hle, h]
    obtain ⟨rfl, hlast⟩ := append_inj' hencode hlengths
    rw [groups_iff.mpr hgroups, if_neg (not_not_intro rfl), (decodeGroup_iff q0 q1 q2 q3 group).mpr ⟨⟨hpos, hle⟩, hlast⟩]
    rfl

theorem decodeExact_eq_some_iff (encoder decoder : Bool) (text bytes : Bytes) :
    base64DecodeExact decoder text = some bytes ↔ clearUnused text = base64Encode encoder bytes := by
  by_cases hempty : text = []
  · subst hempty
    have hdecode : base64DecodeExact decoder [] = some [] := rfl
    have hclear : clearUnused [] = [] := rfl
    rw [hdecode, hclear]
    refine ⟨?_, ?_⟩
    · intro h
      cases h
      exact (base64Encode_nil encoder).symm
    · intro h
      have hlen := length_base64Encode encoder bytes
      rw [← h, length_nil] at hlen
      rw [eq_nil_of_length_eq_zero (by omega : bytes.length = 0)]
  · have hpos := length_pos_iff.mpr hempty
    by_cases hfour : text.length % 4 = 0
    · have hfront : (text.take (text.length - 4)).length % 4 = 0 := by
        rw [length_take]
        omega
      have hlast : (text.drop (text.length - 4)).length = 4 := by
        rw [length_drop]
        omega
      have hiff := decodeExact_groups_iff encoder decoder hfront hlast bytes
      rwa [take_append_drop] at hiff
    · rw [base64DecodeExact, if_neg (by omega), if_pos hfour]
      refine ⟨?_, ?_⟩
      · intro h
        cases h
      · intro h
        have hlen := congrArg List.length h
        rw [length_base64Encode, clearUnused, length_append, length_clearQuad, ← length_append,
          take_append_drop] at hlen
        omega

theorem clearBits_base64Char {unit : Nat} (hv : value < 64) (h : value / unit * unit = value) :
    clearBits unit (base64Char value) = base64Char value :=
  (clearBits_eq_iff hv).mpr ⟨value, decodeValue_base64Char hv, h⟩

theorem clearQuad_encodeGroup (hpos : 0 < group.length) (hle : group.length ≤ 3) :
    clearQuad (encodeGroup group) = encodeGroup group := by
  match group, hpos, hle with
  | [x], _, _ =>
    show clearQuad (encodeTail [x]) = encodeTail [x]
    rw [encodeTail_one, clearQuad, if_neg (not_not_intro rfl), if_neg (not_not_intro rfl),
      clearBits_base64Char (by omega) (by omega)]
  | [x, y], _, _ =>
    show clearQuad (encodeTail [x, y]) = encodeTail [x, y]
    rw [encodeTail_two, clearQuad, if_neg (not_not_intro rfl), if_pos (base64Char_ne_pad (by omega)),
      clearBits_base64Char (by omega) (by omega)]
  | [x, y, z], _, _ => rw [encodeGroup_three, clearQuad, if_pos (base64Char_ne_pad (by omega))]

theorem clearUnused_base64Encode (bytes : Bytes) :
    clearUnused (base64Encode asimd bytes) = base64Encode asimd bytes := by
  by_cases hnil : bytes = []
  · rw [hnil, base64Encode_nil]
    rfl
  · obtain ⟨front, group, text, rfl, hpos, hle, hfront⟩ := exists_groups hnil
    rw [base64Encode_append asimd hfront hpos hle, clearUnused_append text (length_encodeGroup hpos hle),
      clearQuad_encodeGroup hpos hle]

/-- **Main result.** What is encoded is decoded again, and a text is decoded to the bytes whose
encoding it is up to the bits that are not used. -/
theorem base64_exact (encoder decoder : Bool) :
    (∀ bytes, base64DecodeExact decoder (base64Encode encoder bytes) = some bytes) ∧
      ∀ text bytes, base64DecodeExact decoder text = some bytes ↔ clearUnused text = base64Encode encoder bytes := by
  refine ⟨?_, ?_⟩
  · intro bytes
    exact (decodeExact_eq_some_iff encoder decoder _ bytes).mpr (clearUnused_base64Encode encoder bytes)
  · intro text bytes
    exact decodeExact_eq_some_iff encoder decoder text bytes

/-- The last character in front of the padding may have other low bits. -/
theorem not_base64_exact : ¬∀ encoder decoder text bytes, base64DecodeExact decoder text = some bytes →
    text = base64Encode encoder bytes := by
  intro h
  have hdecode : base64DecodeExact false (ascii "QR==") = some (ascii "A") := by decide
  have hcanonical := h false false _ _ hdecode
  revert hcanonical
  decide

end Bx.Lib
