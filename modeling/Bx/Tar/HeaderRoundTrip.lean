import Bx.Tar.Write

/-!
# A header block read back

A written block is a list of fields of known widths, so each field is found
again at its offset.
-/

namespace Bx.Tar
open Kit List

/-! ## Fields -/

@[simp] theorem length_octalField (width value : Nat) : (octalField width value).length = width - 1 + 1 := by
  simp [octalField]

@[simp] theorem length_textField (width : Nat) (text : Bytes) : (textField width text).length = width := by
  simp only [textField, length_append, length_take, length_replicate]
  omega

theorem parseOctalField_octalField {width value : Nat} (h : value < 8 ^ (width - 1)) :
    parseOctalField (octalField width value) = some value := by
  have hdigits : ∀ c ∈ paddedNumeral 8 (width - 1) value, isDigit 8 c = true :=
    fun c hc => isDigit_of_mem_paddedNumeral (by decide) (by decide) hc
  unfold octalField
  rw [parseOctalField_terminated hdigits (by decide), numeralValue_paddedNumeral (by decide) (by decide) h]

section
variable {width : Nat} {text : Bytes} (hzero : 0 ∉ text) (hlength : text.length ≤ width)
include hzero hlength

theorem cText_textField : cText (textField width text) = text := by
  unfold textField
  rw [take_of_length_le hlength]
  cases h : width - text.length with
  | zero =>
    rw [replicate_zero, append_nil]
    exact cText_of_zero_notMem hzero
  | succ n =>
    rw [replicate_succ]
    exact cText_append_zero hzero _

theorem textField_headD (hwidth : 0 < width) : (textField width text).headD 0 = 0 ↔ text = [] := by
  cases text with
  | nil =>
    obtain ⟨n, rfl⟩ : ∃ n, width = n + 1 := ⟨width - 1, by omega⟩
    simp [textField, replicate_succ]
  | cons c text =>
    have hc : c ≠ 0 := by
      intro h0
      rw [h0] at hzero
      exact hzero mem_cons_self
    unfold textField
    rw [take_of_length_le hlength]
    simp [hc]

theorem ownerName_textField (hwidth : 0 < width) :
    ownerName none (textField width text) = if text = [] then none else some text := by
  have hhead := textField_headD hzero hlength hwidth
  simp only [ownerName, beq_iff_eq, hhead, cText_textField hzero hlength]

end

theorem headerNameJoin_textField {name leading : Bytes} (hname : 0 ∉ name) (hleading : 0 ∉ leading)
    (hlen : name.length ≤ 100) (hlen' : leading.length ≤ 155) :
    headerNameJoin (textField 100 name) (textField 155 leading) =
      if leading = [] then name else leading ++ 47 :: name := by
  have hhead := textField_headD hleading hlen' (by decide)
  simp only [headerNameJoin, beq_iff_eq, hhead, cText_textField hname hlen, cText_textField hleading hlen']

theorem field_flatten {parts : List Bytes} {i offset width : Nat} {part : Bytes} (hpart : parts[i]? = some part)
    (hoffset : (parts.take i).flatten.length = offset) (hwidth : part.length = width) :
    field parts.flatten offset width = part := part_of_flatten hpart hoffset hwidth

/-! ## The block -/

namespace RawHeader
variable (h : RawHeader) {checksum : Bytes} (hlength : checksum.length = 8)
include hlength

theorem length_fields : (h.fields checksum).flatten.length = blockSize := by
  by_cases hdevice : h.isDevice = true
  · simp [fields, hlength, hdevice, blockSize, ascii]
  · simp [fields, hlength, hdevice, blockSize, ascii]

theorem checksumBlanked_fields : checksumBlanked (h.fields checksum).flatten = (h.fields (replicate 8 32)).flatten := by
  have hsplit : ∀ c : Bytes, h.fields c = (h.fields checksum).take 6 ++ c :: (h.fields checksum).drop 7 := fun _ => rfl
  have hbefore : ((h.fields checksum).take 6).flatten.length = 148 := by simp [fields]
  have hafter : (((h.fields checksum).take 6).flatten ++ checksum).length = 156 := by
    rw [length_append, hbefore, hlength]
  have hflat : (h.fields checksum).flatten =
      ((h.fields checksum).take 6).flatten ++ (checksum ++ ((h.fields checksum).drop 7).flatten) := by
    rw [← flatten_cons, ← flatten_append, ← hsplit checksum]
  have htake : (h.fields checksum).flatten.take 148 = ((h.fields checksum).take 6).flatten := by
    rw [hflat, take_left' hbefore]
  have hdrop : (h.fields checksum).flatten.drop 156 = ((h.fields checksum).drop 7).flatten := by
    rw [hflat, ← append_assoc, drop_left' hafter]
  unfold checksumBlanked
  rw [htake, hdrop, hsplit (replicate 8 32), flatten_append, flatten_cons, append_assoc]

omit hlength

theorem length_checksumField : (paddedNumeral 8 6 h.checksum ++ [0, 32]).length = 8 := by simp

theorem length_block : h.block.length = blockSize := h.length_fields h.length_checksumField

theorem checksum_lt : h.checksum < 8 ^ 6 := by
  have hle := byteSum_le (h.fields (replicate 8 32)).flatten
  rw [h.length_fields length_replicate] at hle
  unfold checksum
  simp only [blockSize] at hle
  omega

theorem block_checksum : headerChecksumValid h.block = true := by
  have hfield : field h.block 148 8 = paddedNumeral 8 6 h.checksum ++ [0, 32] := by
    apply field_flatten (i := 6) rfl _ h.length_checksumField
    simp [fields]
  have hdigits : ∀ c ∈ paddedNumeral 8 6 h.checksum, isDigit 8 c = true :=
    fun c hc => isDigit_of_mem_paddedNumeral (by decide) (by decide) hc
  have hne : paddedNumeral 8 6 h.checksum ≠ [] := by
    intro hnil
    have hzero := congrArg List.length hnil
    simp [length_paddedNumeral] at hzero
  have hblanked : checksumBlanked h.block = (h.fields (replicate 8 32)).flatten :=
    h.checksumBlanked_fields h.length_checksumField
  unfold headerChecksumValid
  rw [hfield, parseOctalField_checksum hdigits hne,
    numeralValue_paddedNumeral (by decide) (by decide) h.checksum_lt, hblanked]
  simp only [checksum, beq_self_eq_true, Bool.true_or]

theorem block_not_zero : blockIsZero h.block = false := by
  have hmem : (32 : UInt8) ∈ h.block := by
    apply mem_flatten.mpr
    exact ⟨paddedNumeral 8 6 h.checksum ++ [0, 32], by simp [fields], by simp⟩
  unfold blockIsZero
  apply all_eq_false.mpr
  exact ⟨32, hmem, by decide⟩

/-! ## Reading the fields -/

theorem block_typeflag : typeflag h.block = h.type := by
  have hpart : (h.fields (paddedNumeral 8 6 h.checksum ++ [0, 32]))[7]? = some [h.type] := rfl
  have hfield : field h.block 156 1 = [h.type] := field_flatten hpart (by simp [fields]) rfl
  unfold field at hfield
  unfold typeflag
  cases hdrop : h.block.drop 156 with
  | nil => simp [hdrop] at hfield
  | cons c rest =>
    rw [hdrop] at hfield
    cases hfield
    rfl

theorem block_octal {i offset width value : Nat} (hpart : (h.fields (paddedNumeral 8 6 h.checksum ++ [0, 32]))[i]? =
    some (octalField width value))
    (hoffset : ((h.fields (paddedNumeral 8 6 h.checksum ++ [0, 32])).take i).flatten.length = offset)
    (hwidth : 0 < width) (hvalue : value < 8 ^ (width - 1)) : parseOctalField (field h.block offset width) = some value := by
  have hfield : field h.block offset width = octalField width value :=
    field_flatten hpart hoffset (by rw [length_octalField]; omega)
  rw [hfield, parseOctalField_octalField hvalue]

theorem block_mode : parseOctalField (field h.block 100 8) = some (h.mode % 0o10000) :=
  h.block_octal (i := 1) rfl (by simp [fields]) (by decide) (lt_of_lt_of_le (Nat.mod_lt _ (by decide)) (by decide))

theorem block_uid (hle : h.uid ≤ ustarIdMax) : parseOctalField (field h.block 108 8) = some h.uid :=
  h.block_octal (i := 2) rfl (by simp [fields]) (by decide) (lt_of_le_of_lt hle (by decide))

theorem block_gid (hle : h.gid ≤ ustarIdMax) : parseOctalField (field h.block 116 8) = some h.gid :=
  h.block_octal (i := 3) rfl (by simp [fields]) (by decide) (lt_of_le_of_lt hle (by decide))

theorem block_size (hle : h.size ≤ ustarSizeTimeMax) : parseOctalField (field h.block 124 12) = some h.size :=
  h.block_octal (i := 4) rfl (by simp [fields]) (by decide) (lt_of_le_of_lt hle (by decide))

theorem block_mtime (hle : h.mtime ≤ ustarSizeTimeMax) : parseOctalField (field h.block 136 12) = some h.mtime :=
  h.block_octal (i := 5) rfl (by simp [fields]) (by decide) (lt_of_le_of_lt hle (by decide))

theorem block_linkname : field h.block 157 100 = textField 100 (h.linkname.getD []) :=
  field_flatten (i := 8) rfl (by simp [fields]) (by simp)

theorem block_uname : field h.block 265 32 = textField 32 (h.uname.getD []) :=
  field_flatten (i := 10) rfl (by simp [fields, ascii]) (by simp)

theorem block_gname : field h.block 297 32 = textField 32 (h.gname.getD []) :=
  field_flatten (i := 11) rfl (by simp [fields, ascii]) (by simp)

theorem block_oldgnu : headerIsOldgnu h.block = false := by
  have hfield : field h.block 257 8 = ascii "ustar" ++ [0] ++ ascii "00" :=
    field_flatten (i := 9) rfl (by simp [fields]) (by decide)
  unfold headerIsOldgnu
  rw [hfield]
  decide

theorem block_name (hname : 0 ∉ h.name.name) (hleading : 0 ∉ h.name.leading) (hlen : h.name.name.length ≤ 100)
    (hlen' : h.name.leading.length ≤ 155) :
    headerName h.block = if h.name.leading = [] then h.name.name else h.name.leading ++ 47 :: h.name.name := by
  have hfield : field h.block 0 100 = textField 100 h.name.name :=
    field_flatten (i := 0) rfl (by simp) (by simp)
  have hfield' : field h.block 345 155 = textField 155 h.name.leading := by
    apply field_flatten (i := 14) rfl _ (by simp)
    by_cases hdevice : h.isDevice = true
    · simp [fields, hdevice, ascii]
    · simp [fields, hdevice, ascii]
  unfold headerName
  rw [h.block_oldgnu, hfield, hfield']
  exact headerNameJoin_textField hname hleading hlen hlen'

end RawHeader

end Bx.Tar
