import Bx.Zip.Headers
import Bx.Kit.Memchr

/-!
# Finding the end record

The end record stands at the end of the archive, behind it only the archive
comment. The reader looks for its signature backwards from the end of the
file; sentinel values in the record send it on to the Zip64 records in front.
-/

namespace Bx.Zip
open Kit

/-- Offsets in a file are of type `off_t`. -/
structure File where
  bytes : Bytes
  length_lt : bytes.length < 2 ^ 63

inductive Status
  | io | oom | noFiles | usage

structure Failure where
  status : Status
  message : String

def ioError (message : String) : Failure := ⟨.io, message⟩

def hasSigEnd (buf : Bytes) (i : Nat) : Bool := (readU32 (buf.drop i)).map Prod.fst == some sigEnd

def findEocd (f : File) : Option Nat :=
  let length := f.bytes.length
  let maxScan := if length < 0x10000 + 22 then length else 0x10000 + 22
  let buf := f.bytes.drop (length - maxScan)
  -- the last place with four bytes behind it comes first
  (scanBack (hasSigEnd buf) (maxScan - 3)).map fun i => length - maxScan + i

/-! ## The directory's place -/

structure CdInfo where
  cdOffset : UInt64
  entriesTotal : UInt64

structure ArchiveComment where
  text : Option Bytes
  specified : Bool

def loadArchiveComment (zip : ArchiveComment) (endrec : EndCentral) (behind : Bytes) (loadComment : Bool) :
    Except Failure ArchiveComment :=
  if !loadComment then .ok { zip with text := none }
  else if zip.specified then .ok zip
  else if endrec.commentLen.toNat = 0 then .ok { zip with text := none }
  else if behind.length < endrec.commentLen.toNat then .error (ioError "reading archive comment failed")
  else .ok { zip with text := some (behind.take endrec.commentLen.toNat) }

def needZip64 (endrec : EndCentral) : Bool :=
  endrec.entriesTotal == 0xffff || endrec.cdOffset == 0xffffffff || endrec.cdSize == 0xffffffff

def readEnd64 (f : File) (eocdPos : Nat) : Except Failure CdInfo :=
  if eocdPos < 20 then .error (ioError "zip64 locator seek failed")
  else match End64Locator.read (f.bytes.drop (eocdPos - 20)) with
    | none => .error (ioError "zip64 locator missing")
    | some (locator, _) =>
      if locator.signature ≠ sigEnd64Loc then .error (ioError "zip64 locator missing")
      else if 2 ^ 63 ≤ locator.eocd64Offset.toNat then .error (ioError "zip64 eocd seek failed")
      else match EndCentral64.read (f.bytes.drop locator.eocd64Offset.toNat) with
        | none => .error (ioError "zip64 eocd read failed")
        | some (end64, _) =>
          if end64.signature ≠ sigEnd64 then .error (ioError "zip64 eocd read failed")
          else .ok ⟨end64.cdOffset, end64.entriesTotal⟩

def readCdInfo (zip : ArchiveComment) (f : File) (loadComment : Bool) : Except Failure (CdInfo × ArchiveComment) :=
  match findEocd f with
  | none => .error (ioError "missing end of central directory")
  | some eocdPos =>
    match EndCentral.read (f.bytes.drop eocdPos) with
    | none => .error (ioError "failed to read EOCD")
    | some (endrec, behind) =>
      if endrec.signature ≠ sigEnd then .error (ioError "failed to read EOCD")
      else match loadArchiveComment zip endrec behind loadComment with
        | .error e => .error e
        | .ok zip =>
          if needZip64 endrec then (readEnd64 f eocdPos).map fun info => (info, zip)
          else .ok (⟨endrec.cdOffset.toUInt64, endrec.entriesTotal.toUInt64⟩, zip)

/-! ## The record that the scan stops at -/

def LoneSignature (tail : Bytes) : Prop := ∀ i, 0 < i → hasSigEnd tail i = false

theorem readU32_none {input : Bytes} (h : input.length < 4) : readU32 input = none := by
  simp [readU32, readLe, h]

theorem lt_of_hasSigEnd {buf : Bytes} {i : Nat} (h : hasSigEnd buf i = true) : i + 4 ≤ buf.length := by
  by_contra hlt
  have hshort : (buf.drop i).length < 4 := by
    rw [List.length_drop]
    omega
  simp [hasSigEnd, readU32_none hshort] at h

instance (tail : Bytes) : Decidable (LoneSignature tail) :=
  decidable_of_iff (∀ i < tail.length, 0 < i → hasSigEnd tail i = false) (by
    refine ⟨?_, fun h i _ hi => h i hi⟩
    intro h i hi
    by_contra hsig
    have hlt := lt_of_hasSigEnd (Bool.not_eq_false _ ▸ hsig)
    exact hsig (h i (by omega) hi))

theorem hasSigEnd_append_left (before tail : Bytes) (i : Nat) :
    hasSigEnd (before ++ tail) (before.length + i) = hasSigEnd tail i := by
  unfold hasSigEnd
  rw [List.drop_length_add_append]

theorem hasSigEnd_drop (buf : Bytes) (start i : Nat) : hasSigEnd (buf.drop start) i = hasSigEnd buf (start + i) := by
  unfold hasSigEnd
  rw [List.drop_drop]

theorem hasSigEnd_endCentral {endrec : EndCentral} (h : endrec.signature = sigEnd) (comment : Bytes) :
    hasSigEnd (endrec.bytes ++ comment) 0 = true := by
  simp only [hasSigEnd, EndCentral.bytes, EndCentral.words, pack_cons, List.append_assoc, List.drop_zero, readU32_bytes, h]
  rfl

theorem findEocd_eq_some_iff {f : File} {pos : Nat} (hhit : hasSigEnd f.bytes pos = true)
    (hnear : f.bytes.length ≤ pos + (0x10000 + 22)) :
    findEocd f = some pos ↔ ∀ i, pos < i → hasSigEnd f.bytes i = false := by
  have hpos := lt_of_hasSigEnd hhit
  obtain ⟨maxScan, hmax⟩ : ∃ n, n = if f.bytes.length < 0x10000 + 22 then f.bytes.length else 0x10000 + 22 := ⟨_, rfl⟩
  have hle : maxScan ≤ f.bytes.length ∧ f.bytes.length ≤ pos + maxScan := by
    by_cases hshort : f.bytes.length < 0x10000 + 22
    · rw [if_pos hshort] at hmax
      omega
    · rw [if_neg hshort] at hmax
      omega
  -- the place in the buffer
  obtain ⟨start, rfl⟩ : ∃ n, pos = f.bytes.length - maxScan + n := ⟨pos - (f.bytes.length - maxScan), by omega⟩
  have hspec := scanBack_spec (hasSigEnd (f.bytes.drop (f.bytes.length - maxScan))) (maxScan - 3)
  have hstart : hasSigEnd (f.bytes.drop (f.bytes.length - maxScan)) start = true := by
    rw [hasSigEnd_drop]
    exact hhit
  have hlast := hspec.eq_some_iff (n := start) ⟨by omega, hstart⟩
  have hfind : findEocd f = some (f.bytes.length - maxScan + start)
      ↔ scanBack (hasSigEnd (f.bytes.drop (f.bytes.length - maxScan))) (maxScan - 3) = some start := by
    unfold findEocd
    dsimp only
    rw [← hmax, Option.map_eq_some_iff]
    refine ⟨?_, ?_⟩
    · intro ⟨i, hi, heq⟩
      obtain rfl : i = start := by omega
      exact hi
    · intro hi
      exact ⟨start, hi, rfl⟩
  rw [hfind, hlast]
  refine ⟨?_, ?_⟩
  · intro h i hi
    by_contra hagain
    have hhit' := (Bool.not_eq_false _).mp hagain
    have hlen := lt_of_hasSigEnd hhit'
    have hplace : f.bytes.length - maxScan + (i - (f.bytes.length - maxScan)) = i := by omega
    apply h (i - (f.bytes.length - maxScan)) (by omega)
    refine ⟨by omega, ?_⟩
    rw [hasSigEnd_drop, hplace]
    exact hhit'
  · intro h m hm hmem
    have hhit' := hmem.2
    rw [hasSigEnd_drop, h _ (by omega)] at hhit'
    cases hhit'

theorem loneSignature_iff (before tail : Bytes) :
    LoneSignature tail ↔ ∀ i, before.length < i → hasSigEnd (before ++ tail) i = false := by
  refine ⟨?_, ?_⟩
  · intro h i hi
    obtain ⟨k, rfl⟩ : ∃ k, i = before.length + k := ⟨i - before.length, by omega⟩
    rw [hasSigEnd_append_left]
    exact h k (by omega)
  · intro h i hi
    rw [← hasSigEnd_append_left before]
    exact h _ (by omega)

section
variable {f : File} {before comment : Bytes} {endrec : EndCentral}
variable (hsig : endrec.signature = sigEnd) (hcomment : endrec.commentLen.toNat = comment.length)
variable (hf : f.bytes = before ++ endrec.bytes ++ comment)
include hsig hcomment hf

theorem endRecord_near : hasSigEnd f.bytes before.length = true ∧ f.bytes.length ≤ before.length + (0x10000 + 22) := by
  have hlt := endrec.commentLen.toNat_lt
  refine ⟨?_, ?_⟩
  · have hhit := hasSigEnd_append_left before (endrec.bytes ++ comment) 0
    rw [add_zero, hasSigEnd_endCentral hsig, ← List.append_assoc, ← hf] at hhit
    exact hhit
  · rw [hf, List.length_append, List.length_append, EndCentral.length_bytes]
    omega

/-- **Main result.** The reader stops at the end record exactly when its signature does not turn up again in the rest of
the record and the comment. -/
theorem findEocd_iff : findEocd f = some before.length ↔ LoneSignature (endrec.bytes ++ comment) := by
  obtain ⟨hhit, hnear⟩ := endRecord_near hsig hcomment hf
  rw [findEocd_eq_some_iff hhit hnear, loneSignature_iff before, ← List.append_assoc, ← hf]

end

def commentedEnd : EndCentral := ⟨sigEnd, 0, 0, 0, 0, 0, 0, 4⟩

def commentedFile (comment : Bytes) (h : comment.length = 4) : File :=
  ⟨[] ++ commentedEnd.bytes ++ comment, by simp [h]⟩

theorem findEocd_iff_commented :
    findEocd (commentedFile (ascii "text") rfl) = some 0 ↔ LoneSignature (commentedEnd.bytes ++ ascii "text") :=
  @findEocd_iff (commentedFile (ascii "text") rfl) [] (ascii "text") commentedEnd rfl rfl rfl

theorem findEocd_stops_in_comment :
    ¬∀ (f : File) (before comment : Bytes) (endrec : EndCentral), endrec.signature = sigEnd →
      endrec.commentLen.toNat = comment.length → f.bytes = before ++ endrec.bytes ++ comment →
      findEocd f = some before.length := by
  intro hall
  have hfound := hall (commentedFile [0x50, 0x4b, 5, 6] rfl) [] [0x50, 0x4b, 5, 6] commentedEnd rfl rfl rfl
  have hin : findEocd (commentedFile [0x50, 0x4b, 5, 6] rfl) = some 22 := by decide
  rw [hin] at hfound
  cases hfound

end Bx.Zip
