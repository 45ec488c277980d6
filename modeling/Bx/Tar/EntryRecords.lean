import Bx.Tar.PaxRoundTrip
import Bx.Tar.NameRoundTrip

/-!
# The records of an entry

An entry that can be written has text of bounded length and numbers in the
range of their types. The records the writer puts before its header read back
as exactly the values the header cannot hold.
-/

namespace Bx.Tar
open Kit List

def textMax : Nat := 2 ^ 20

structure RawEntry.WellFormed (e : RawEntry) : Prop where
  kind : e.kind ≠ .char ∧ e.kind ≠ .block
  path_ne : e.path ≠ []
  path_text : 0 ∉ e.path
  path_length : e.path.length ≤ textMax
  dirname : e.kind = .dir → e.path.getLast? ≠ some 47
  target : e.kind = .symlink ∨ e.kind = .hardlink → ∃ target, e.linkname = some target ∧ target ≠ []
  no_target : ¬(e.kind = .symlink ∨ e.kind = .hardlink) → e.linkname = none
  target_text : 0 ∉ e.linkname.getD []
  target_length : (e.linkname.getD []).length ≤ textMax
  mode : e.mode < 0o10000
  uid : e.uid < idMax
  gid : e.gid < idMax
  nsec : e.mtime.nsec < 1000000000
  sec : -2 ^ 63 ≤ e.mtime.sec ∧ e.mtime.sec < 2 ^ 63
  uname : 0 ∉ e.uname.getD [] ∧ (e.uname.getD []).length ≤ 32
  gname : 0 ∉ e.gname.getD [] ∧ (e.gname.getD []).length ≤ 32
  payload : e.payload.length ≤ sizeMax - (blockSize - 1)
  metadata : e.metadata = {}

/-! ## One record -/

theorem paxAppend_short {key value : Bytes} (h : key.length + value.length ≤ textMax + 16) :
    ∃ total, paxAppend key value = some (paxRecord total key value) ∧ (paxRecord total key value).length = total ∧
      total ≤ textMax + 26 := by
  obtain ⟨total, happend, hlength, hle⟩ := paxAppend_spec key value
  refine ⟨total, happend, hlength, ?_⟩
  have hdigits : (numeral 10 total).length ≤ 7 := by
    apply (length_numeral_le_iff (by decide) (by decide)).mpr
    unfold textMax at h
    omega
  rw [length_paxRecord] at hlength
  omega

theorem recordIf_read (need : Bool) (key : String) {value : Bytes} {target next : PaxInfo}
    (hlength : need = true → (ascii key).length + value.length ≤ textMax + 16)
    (happly : need = true → applyPaxRecord false false target (ascii key ++ 61 :: value) = some next) :
    ∃ record, RawEntry.recordIf need key value = some record ∧ record.length ≤ textMax + 26 ∧
      ∀ more, parsePaxRecords false false target (record ++ more) =
        parsePaxRecords false false (if need then next else target) more := by
  cases need with
  | false => exact ⟨[], rfl, by simp, fun more => rfl⟩
  | true =>
    obtain ⟨total, happend, htotal, hle⟩ := paxAppend_short (hlength rfl)
    refine ⟨_, happend, by rw [htotal]; exact hle, ?_⟩
    intro more
    rw [parsePaxRecords_record false false htotal (Nat.le_trans hle (by decide)), happly rfl]
    rfl

section
variable {target : PaxInfo} {value : Bytes} (hzero : 0 ∉ value)
include hzero

theorem apply_text (key : String) {text : PaxText} (hequals : 61 ∉ ascii key) (hkey : 0 ∉ ascii key)
    (hfield : PaxField.ofKey (ascii key) = none) (htext : PaxText.ofKey (ascii key) = some text)
    (hlength : value.length ≤ paxTextLimit) :
    applyPaxRecord false false target (ascii key ++ 61 :: value) = some (target.setText text value) := by
  have hcontains : value.contains 0 = false := by simpa using hzero
  simp only [applyPaxRecord, splitPaxRecord_pair hequals hkey, hfield, htext, hcontains, Bool.false_or,
    Bool.false_and, Bool.false_eq_true, if_false, decide_eq_true_eq]
  rw [if_neg (by omega)]

theorem apply_number (key : String) {field : PaxField} {numbers : PaxNumbers} (hequals : 61 ∉ ascii key)
    (hkey : 0 ∉ ascii key) (hfield : PaxField.ofKey (ascii key) = some field)
    (hvalue : paxApplyNumber target.numbers field value = some numbers) :
    applyPaxRecord false false target (ascii key ++ 61 :: value) =
      some { target with numbers := numbers, active := true } := by
  have hcontains : value.contains 0 = false := by simpa using hzero
  simp only [applyPaxRecord, splitPaxRecord_pair hequals hkey, hfield, hcontains, hvalue]
  rfl

end

theorem zero_notMem_of_digits {digits : Bytes} (h : ∀ c ∈ digits, isDigit 10 c = true) : 0 ∉ digits := by
  intro hmem
  exact absurd (h 0 hmem) (by decide)

theorem zero_notMem_numeral (n : Nat) : 0 ∉ numeral 10 n := zero_notMem_of_digits (numeral_digits n)

theorem zero_notMem_mtimeText (time : Timespec) : 0 ∉ paxMtimeText time := by
  have hpadded : ∀ n, 0 ∉ paddedNumeral 10 9 n := fun n =>
    zero_notMem_of_digits fun c hc => isDigit_of_mem_paddedNumeral (by decide) (by decide) hc
  have hsigned : ∀ n, 0 ∉ signedNumeral n := by
    intro n
    unfold signedNumeral
    split
    · simp [zero_notMem_numeral]
    · exact zero_notMem_numeral _
  unfold paxMtimeText
  split
  · exact hsigned _
  · split
    · simp [zero_notMem_numeral, hpadded]
    · simp [hsigned, hpadded]

theorem length_numeral_le {n k : Nat} (hk : 0 < k) (h : n < 10 ^ k) : (numeral 10 n).length ≤ k :=
  (length_numeral_le_iff (by decide) hk).mpr h

theorem length_mtimeText {time : Timespec} (hlow : -2 ^ 63 ≤ time.sec) (hhigh : time.sec < 2 ^ 63) :
    (paxMtimeText time).length ≤ 31 := by
  have hsigned : (signedNumeral time.sec).length ≤ 20 := by
    unfold signedNumeral
    split
    · rw [length_cons]
      exact Nat.succ_le_succ (length_numeral_le (by decide) (by omega))
    · exact length_numeral_le (by decide) (by omega)
  unfold paxMtimeText
  split
  · omega
  · split
    · have hlen : (numeral 10 (-(time.sec + 1)).toNat).length ≤ 19 := length_numeral_le (by decide) (by omega)
      simp only [length_append, length_cons, length_nil, length_paddedNumeral]
      omega
    · simp only [length_append, length_cons, length_nil, length_paddedNumeral]
      omega

/-! ## All records -/

def RawEntry.writtenPax (e : RawEntry) : PaxInfo where
  numbers :=
    { size := if e.needSizePax then .known e.payload.length else { value := 0 }
      uid := if e.needUidPax then .known e.uid else { value := 0 }
      gid := if e.needGidPax then .known e.gid else { value := 0 }
      mtime := if e.needMtimePax then .known e.mtime else { value := ⟨0, 0⟩ } }
  path := if e.needPathPax then some e.path else none
  linkpath := if e.needLinkPax then some (e.linkname.getD []) else none
  active := e.needPathPax || e.needLinkPax || e.needUidPax || e.needGidPax || e.needSizePax || e.needMtimePax

def RawEntry.paxOnto (e : RawEntry) (target : PaxInfo) : PaxInfo :=
  let path := if e.needPathPax then target.setText .path e.path else target
  let linkpath := if e.needLinkPax then path.setText .linkpath (e.linkname.getD []) else path
  let uid := if e.needUidPax then
    { linkpath with numbers := { linkpath.numbers with uid := .known e.uid }, active := true } else linkpath
  let gid := if e.needGidPax then
    { uid with numbers := { uid.numbers with gid := .known e.gid }, active := true } else uid
  let size := if e.needSizePax then
    { gid with numbers := { gid.numbers with size := .known e.payload.length }, active := true } else gid
  if e.needMtimePax then
    { size with numbers := { size.numbers with mtime := .known e.mtime }, active := true } else size

theorem paxOnto_empty (e : RawEntry) : e.paxOnto {} = e.writtenPax := by
  unfold RawEntry.writtenPax RawEntry.paxOnto
  cases e.needPathPax <;> cases e.needLinkPax <;> cases e.needUidPax <;> cases e.needGidPax <;>
    cases e.needSizePax <;> cases e.needMtimePax <;> rfl

variable {e : RawEntry} {n : Nat}

theorem paxOnto_none (h : e.needPax = false) (target : PaxInfo) : e.paxOnto target = target := by
  simp only [RawEntry.needPax, RawEntry.needNumericPax, Bool.or_eq_false_iff] at h
  simp [RawEntry.paxOnto, h]

theorem apply_uid {target : PaxInfo} (h : n < idMax) :
    paxApplyNumber target.numbers .uid (numeral 10 n) = some { target.numbers with uid := .known n } := by
  have hmax : n ≤ sizeMax := le_of_lt (Nat.lt_trans h (by decide))
  simp only [paxApplyNumber, sizeParseUint_numeral hmax, Option.bind_some]
  rw [if_neg (numeral_ne_nil n), if_neg (Nat.not_le_of_lt h)]

theorem apply_gid {target : PaxInfo} (h : n < idMax) :
    paxApplyNumber target.numbers .gid (numeral 10 n) = some { target.numbers with gid := .known n } := by
  have hmax : n ≤ sizeMax := le_of_lt (Nat.lt_trans h (by decide))
  simp only [paxApplyNumber, sizeParseUint_numeral hmax, Option.bind_some]
  rw [if_neg (numeral_ne_nil n), if_neg (Nat.not_le_of_lt h)]

theorem apply_size {target : PaxInfo} (h : n ≤ sizeMax - (blockSize - 1)) :
    paxApplyNumber target.numbers .size (numeral 10 n) = some { target.numbers with size := .known n } := by
  have hmax : n ≤ sizeMax := Nat.le_trans h (Nat.sub_le _ _)
  simp only [paxApplyNumber, sizeParseUint_numeral hmax, Option.bind_some]
  rw [if_neg (numeral_ne_nil n), if_neg (Nat.not_lt_of_le h)]

theorem mtimeText_ne_nil (time : Timespec) : paxMtimeText time ≠ [] := by
  have hsigned : ∀ n, signedNumeral n ≠ [] := by
    intro n
    unfold signedNumeral
    split
    · simp
    · exact numeral_ne_nil _
  unfold paxMtimeText
  split
  · exact hsigned _
  · split
    · simp
    · simp

theorem apply_mtime {target : PaxInfo} {time : Timespec} (hnsec : time.nsec < 1000000000) (hlow : -2 ^ 63 ≤ time.sec)
    (hhigh : time.sec < 2 ^ 63) :
    paxApplyNumber target.numbers .mtime (paxMtimeText time) = some { target.numbers with mtime := .known time } := by
  simp only [paxApplyNumber, parsePaxTime_text hnsec hlow hhigh, Option.map_some]
  rw [if_neg (mtimeText_ne_nil time)]

theorem paxData_onto (h : e.WellFormed) (target : PaxInfo) :
    ∃ data, e.paxData = some data ∧ data.length ≤ ustarSizeTimeMax ∧
      parsePaxRecords false false target data = some (e.paxOnto target) := by
  have hmetadata : metadataWrite e.metadata = some [] := by
    rw [h.metadata]
    rfl
  have hid : ∀ n < idMax, (numeral 10 n).length ≤ 10 := by
    intro n hn
    exact length_numeral_le (by decide) (Nat.lt_trans hn (by decide))
  have hsize : (numeral 10 e.payload.length).length ≤ 20 :=
    length_numeral_le (by decide) (lt_of_le_of_lt h.payload (by decide))
  have hpath := h.path_length
  have htarget_len := h.target_length
  have hmtime := length_mtimeText h.sec.1 h.sec.2
  obtain ⟨path, hpath, hpath_len, hpath_read⟩ := recordIf_read e.needPathPax "path"
    (fun _ => by simp only [ascii]; simp; omega)
    (fun _ => apply_text h.path_text "path" (by decide) (by decide) rfl rfl h.path_length)
  obtain ⟨linkpath, hlink, hlink_len, hlink_read⟩ := recordIf_read e.needLinkPax "linkpath"
    (fun _ => by simp only [ascii]; simp; omega)
    (fun _ => apply_text h.target_text "linkpath" (by decide) (by decide) rfl rfl h.target_length)
  obtain ⟨uid, huid, huid_len, huid_read⟩ := recordIf_read e.needUidPax "uid"
    (fun _ => by have hlen := hid _ h.uid; simp only [ascii, textMax]; simp; omega)
    (fun _ => apply_number (zero_notMem_numeral _) "uid" (by decide) (by decide) rfl (apply_uid h.uid))
  obtain ⟨gid, hgid, hgid_len, hgid_read⟩ := recordIf_read e.needGidPax "gid"
    (fun _ => by have hlen := hid _ h.gid; simp only [ascii, textMax]; simp; omega)
    (fun _ => apply_number (zero_notMem_numeral _) "gid" (by decide) (by decide) rfl (apply_gid h.gid))
  obtain ⟨size, hsz, hsize_len, hsize_read⟩ := recordIf_read e.needSizePax "size"
    (fun _ => by simp only [ascii, textMax]; simp; omega)
    (fun _ => apply_number (zero_notMem_numeral _) "size" (by decide) (by decide) rfl (apply_size h.payload))
  obtain ⟨mtime, hmt, hmtime_len, hmtime_read⟩ := recordIf_read e.needMtimePax "mtime"
    (fun _ => by simp only [ascii, textMax]; simp; omega)
    (fun _ => apply_number (zero_notMem_mtimeText _) "mtime" (by decide) (by decide) rfl
      (apply_mtime h.nsec h.sec.1 h.sec.2))
  refine ⟨path ++ (linkpath ++ (uid ++ (gid ++ (size ++ (mtime ++ []))))), ?_, ?_, ?_⟩
  · unfold RawEntry.paxData
    simp only [hmetadata, hpath, hlink, huid, hgid, hsz, hmt, Option.bind_eq_bind, Option.bind_some]
    simp
  · simp only [length_append, length_nil, ustarSizeTimeMax]
    unfold textMax at *
    omega
  · rw [hpath_read, hlink_read, huid_read, hgid_read, hsize_read, hmtime_read, parsePaxRecords_nil]
    rfl

theorem paxData_read (h : e.WellFormed) : ∃ data, e.paxData = some data ∧ data.length ≤ ustarSizeTimeMax ∧
      parsePaxRecords false false {} data = some e.writtenPax := by
  obtain ⟨data, hdata, hlength, hread⟩ := paxData_onto h {}
  rw [paxOnto_empty] at hread
  exact ⟨data, hdata, hlength, hread⟩

end Bx.Tar
