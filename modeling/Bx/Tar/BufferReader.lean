import Bx.Tar.Entry

/-!
# The archive buffer reader

One step of the reader looks at the block in front: two zero blocks end the
archive, an extended header changes the records in force, and any other header
becomes an entry with the bytes that follow it.
-/

namespace Bx.Tar
open Kit

structure BufferState where
  rest : Bytes
  pax : PaxInfo := {}
  shared : PaxInfo := {}
  long : LongTexts := {}
  entries : List Entry := []

def bufferPayload (pax : PaxInfo) (payload : Bytes) (entry : Entry) : Option Entry :=
  if entry.kind ≠ .reg then some entry
  else if sparseMember pax then parseSparseMap payload (entry.asSparse pax.sparseRealsize)
  else some { entry with data := payload, dataLen := payload.length }

/-- A header and its payload; `rest` is what follows the padded payload. -/
def bufferMember (s : BufferState) (header payload rest : Bytes) : Option BufferState :=
  let type := typeflag header
  let effective := paxEffectiveInfo s.shared s.pax
  if type = 120 then
    (parsePaxRecords false false s.pax payload).map fun pax => { s with rest := rest, pax := pax }
  else if type = 103 then
    (parsePaxRecords false true s.shared payload).map fun shared => { s with rest := rest, shared := shared }
  else if type = 76 then some { s with rest := rest, long := { s.long with name := some (longText payload) } }
  else if type = 75 then some { s with rest := rest, long := { s.long with link := some (longText payload) } }
  else
    match prepareEntryFromHeader {} header payload.length type effective effective.numbers s.shared.metadata s.long with
    | none => none
    | some (entry, long) =>
      (bufferPayload s.pax payload entry).map fun entry =>
        { s with rest := rest, pax := paxInfoClear s.pax, long := long, entries := s.entries ++ [entry] }

def bufferBlock (s : BufferState) (header after : Bytes) : Option BufferState :=
  if headerChecksumValid header then
    match headerPayloadSize header (paxEffectiveInfo s.shared s.pax).numbers with
    | none => none
    | some size =>
      let padded := roundUp size blockSize
      if after.length < padded then none else bufferMember s header (after.take size) (after.drop padded)
  else none

def bufferStep (s : BufferState) : BufferState ⊕ Option (List Entry) :=
  if s.rest.length < blockSize then .inr (some s.entries)
  else
    let header := s.rest.take blockSize
    let after := s.rest.drop blockSize
    if blockIsZero header then
      if blockSize ≤ after.length ∧ blockIsZero (after.take blockSize) = true then .inr (some s.entries)
      else .inl { s with rest := after }
    else
      match bufferBlock s header after with
      | none => .inr none
      | some next => .inl next

def parseArchiveBuffer (archive : Bytes) : Option (List Entry) :=
  (loop bufferStep (archive.length + 1) { rest := archive }).join

/-! ## One step -/

section
variable {s t : BufferState} {header payload rest : Bytes}

theorem bufferMember_rest (h : bufferMember s header payload rest = some t) : t.rest = rest := by
  simp only [bufferMember] at h
  by_cases hx : typeflag header = 120
  · rw [if_pos hx] at h
    obtain ⟨_, _, rfl⟩ := Option.map_eq_some_iff.mp h
    rfl
  rw [if_neg hx] at h
  by_cases hg : typeflag header = 103
  · rw [if_pos hg] at h
    obtain ⟨_, _, rfl⟩ := Option.map_eq_some_iff.mp h
    rfl
  rw [if_neg hg] at h
  by_cases hL : typeflag header = 76
  · rw [if_pos hL] at h
    cases h
    rfl
  rw [if_neg hL] at h
  by_cases hK : typeflag header = 75
  · rw [if_pos hK] at h
    cases h
    rfl
  rw [if_neg hK] at h
  split at h
  · cases h
  · obtain ⟨_, _, rfl⟩ := Option.map_eq_some_iff.mp h
    rfl

theorem bufferBlock_rest {after : Bytes} (h : bufferBlock s header after = some t) :
    ∃ padded, t.rest = after.drop padded := by
  unfold bufferBlock at h
  by_cases hsum : headerChecksumValid header = true
  · rw [if_pos hsum] at h
    cases hsize : headerPayloadSize header (paxEffectiveInfo s.shared s.pax).numbers with
    | none => simp [hsize] at h
    | some size =>
      rw [hsize] at h
      by_cases hshort : after.length < roundUp size blockSize
      · simp [hshort] at h
      · simp only [hshort, if_false] at h
        exact ⟨_, bufferMember_rest h⟩
  · simp [hsum] at h

theorem bufferStep_shorter (h : bufferStep s = .inl t) : t.rest.length + blockSize ≤ s.rest.length := by
  unfold bufferStep at h
  by_cases hshort : s.rest.length < blockSize
  · rw [if_pos hshort] at h
    cases h
  rw [if_neg hshort] at h
  have hafter : (s.rest.drop blockSize).length + blockSize = s.rest.length := by
    rw [List.length_drop]
    omega
  by_cases hzero : blockIsZero (s.rest.take blockSize) = true
  · simp only [hzero, if_true] at h
    by_cases hlast : blockSize ≤ (s.rest.drop blockSize).length ∧
        blockIsZero ((s.rest.drop blockSize).take blockSize) = true
    · rw [if_pos hlast] at h
      cases h
    · rw [if_neg hlast] at h
      cases h
      exact le_of_eq hafter
  · simp only [hzero] at h
    cases hblock : bufferBlock s (s.rest.take blockSize) (s.rest.drop blockSize) with
    | none =>
      rw [hblock] at h
      cases h
    | some next =>
      rw [hblock] at h
      cases h
      obtain ⟨padded, hrest⟩ := bufferBlock_rest hblock
      rw [hrest, List.length_drop]
      omega

end

end Bx.Tar
