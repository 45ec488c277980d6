import Bx.Tar.StreamLemmas

/-!
# Payloads in the stream

The sparse map that is read line by line from the stream is the one the buffer
reader finds in the payload, and the chunks a visitor is shown are the payload
in order.
-/

namespace Bx.Tar
open Kit List

/-! ## Sparse maps -/

theorem sparseNumberLine_read {bytes : Bytes} {value bytesRead : Nat} {line : Nat × Nat}
    (h : sparseNumberLine value bytesRead bytes = some line) :
    bytesRead < line.2 ∧ line.2 ≤ bytesRead + bytes.length := by
  induction bytes generalizing value bytesRead with
  | nil => cases h
  | cons ch bytes ih =>
    rw [sparseNumberLine] at h
    by_cases hend : ch = 10
    · rw [if_pos hend] at h
      by_cases hfirst : bytesRead = 0
      · rw [if_pos hfirst] at h
        cases h
      · rw [if_neg hfirst] at h
        cases h
        simp
    · rw [if_neg hend] at h
      cases hdigit : sparseNumberDigit ch value with
      | none => simp [hdigit] at h
      | some next =>
        rw [hdigit] at h
        have hrest := ih h
        rw [length_cons]
        omega

variable {payload : Bytes}

theorem sparseBufferNumber_pos {pos : Nat} {r : Nat × Nat}
    (h : sparseBufferNumber payload pos = some r) : pos < r.2 ∧ r.2 ≤ payload.length := by
  obtain ⟨line, hline, rfl⟩ := Option.map_eq_some_iff.mp h
  have hread := sparseNumberLine_read hline
  rw [length_drop] at hread
  simp only
  omega

theorem parseSparseExtents_pos {count pos : Nat} {r : List SparseExtent × Nat}
    (h : parseSparseExtents payload count pos = some r) (hpos : pos ≤ payload.length) : r.2 ≤ payload.length := by
  induction count generalizing pos r with
  | zero =>
    cases h
    exact hpos
  | succ count ih =>
    rw [parseSparseExtents] at h
    cases hoffset : sparseBufferNumber payload pos with
    | none =>
      rw [hoffset] at h
      cases h
    | some offset =>
      rw [hoffset] at h
      simp only at h
      cases hsize : sparseBufferNumber payload offset.2 with
      | none =>
        rw [hsize] at h
        cases h
      | some extent =>
        rw [hsize] at h
        simp only at h
        cases hrest : parseSparseExtents payload count extent.2 with
        | none =>
          rw [hrest] at h
          cases h
        | some r' =>
          rw [hrest] at h
          cases h
          have hle := @ih extent.2 r' hrest (sparseBufferNumber_pos hsize).2
          exact hle

theorem le_checkedSizeRoundUp {value align rounded : Nat} (h : checkedSizeRoundUp value align = some rounded) :
    value ≤ rounded := by
  simp only [checkedSizeRoundUp] at h
  by_cases hrem : value % align = 0
  · rw [if_pos hrem] at h
    cases h
    exact le_rfl
  rw [if_neg hrem] at h
  by_cases hbig : sizeMax - (align - value % align) < value
  · simp [hbig] at h
  · rw [if_neg hbig] at h
    cases h
    exact Nat.le_add_right _ _

section
variable (input : Input) (size : Nat)

theorem readSparseNumberLine_eq (pos : Nat) : readSparseNumberLine (input.advance pos) (size - pos) =
      (sparseBufferNumber (input.rest.take size) pos).map fun r => (r.1, r.2 - pos, input.advance r.2) := by
  unfold readSparseNumberLine sparseBufferNumber
  rw [Input.advance_rest, ← drop_take]
  cases sparseNumberLine 0 0 ((input.rest.take size).drop pos) with
  | none => rfl
  | some line => simp

theorem readSparseExtents_eq (count pos : Nat) : readSparseExtents size count (input.advance pos) pos =
      (parseSparseExtents (input.rest.take size) count pos).map fun r => (r.1, input.advance r.2, r.2) := by
  induction count generalizing pos with
  | zero => rfl
  | succ count ih =>
    rw [readSparseExtents, parseSparseExtents, readSparseNumberLine_eq]
    cases hoffset : sparseBufferNumber (input.rest.take size) pos with
    | none => rfl
    | some offset =>
      have hpos := sparseBufferNumber_pos hoffset
      rw [length_take] at hpos
      have hsum : pos + (offset.2 - pos) = offset.2 := by omega
      have hle : ¬size - pos < offset.2 - pos := by omega
      simp only [Option.map_some, hle, if_false, hsum]
      rw [readSparseNumberLine_eq]
      cases hsize : sparseBufferNumber (input.rest.take size) offset.2 with
      | none => rfl
      | some extent =>
        have hpos' := sparseBufferNumber_pos hsize
        rw [length_take] at hpos'
        have hsum' : offset.2 + (extent.2 - offset.2) = extent.2 := by omega
        have hle' : ¬size - offset.2 < extent.2 - offset.2 := by omega
        simp only [Option.map_some, hle', if_false, hsum']
        rw [ih]
        cases parseSparseExtents (input.rest.take size) count extent.2 with
        | none => rfl
        | some r => rfl

variable {input size} {entry : Entry}

/-- The map and then the data, as `prepareMember` reads them for a visitor that wants no chunks -/
def readSparseMember (input : Input) (size : Nat) (entry : Entry) : Option (Entry × Nat × Input) :=
  match prepareSparsePayload input size entry with
  | none => none
  | some (entry, archivePadding, input) =>
    (readSparsePayloadBuffered input entry archivePadding).map fun read => (read.1, archivePadding, read.2)

theorem prepareSparsePayload_eq (h : size ≤ input.rest.length) : prepareSparsePayload input size entry =
      (parseSparseMap (input.rest.take size) entry).map fun parsed =>
        ({ parsed with data := entry.data }, roundUp size blockSize - size, input.advance (size - parsed.dataLen)) := by
  have hlength : (input.rest.take size).length = size := by
    rw [length_take, min_eq_left h]
  have hcount := readSparseNumberLine_eq input size 0
  rw [Input.advance_zero, Nat.sub_zero] at hcount
  unfold prepareSparsePayload parseSparseMap
  rw [hcount, hlength]
  cases hnumber : sparseBufferNumber (input.rest.take size) 0 with
  | none => rfl
  | some r =>
    obtain ⟨extentCount, pos⟩ := r
    have hpos := sparseBufferNumber_pos hnumber
    simp only [hlength] at hpos
    simp only [Option.map_some, Nat.sub_zero, if_neg (Nat.not_lt_of_le hpos.2)]
    by_cases hbad : sparseExtentLimit < extentCount ∨ (size - pos) / 4 < extentCount
    · rw [if_pos hbad, if_pos hbad]
      rfl
    rw [if_neg hbad, if_neg hbad, readSparseExtents_eq]
    cases hextents : parseSparseExtents (input.rest.take size) extentCount pos with
    | none => rfl
    | some r =>
      obtain ⟨extents, mapBytes⟩ := r
      simp only [Option.map_some]
      cases hround : checkedSizeRoundUp mapBytes blockSize with
      | none => rfl
      | some dataStart =>
        by_cases hlong : size < dataStart
        · simp [hlong]
        · have hmap := le_checkedSizeRoundUp hround
          have hskip : dataStart - mapBytes ≤ (input.advance mapBytes).rest.length := by
            rw [Input.advance_rest, length_drop]
            omega
          have hsum : mapBytes + (dataStart - mapBytes) = dataStart := by omega
          have hback : size - (size - dataStart) = dataStart := by omega
          simp [hlong, Input.skip_of_le hskip, hsum, hback]

theorem parseSparseMap_data {parsed : Entry} (h : parseSparseMap payload entry = some parsed) :
    parsed.dataLen ≤ payload.length ∧ parsed.data = payload.drop (payload.length - parsed.dataLen) := by
  unfold parseSparseMap at h
  split at h
  · cases h
  · split at h
    · cases h
    · split at h
      · cases h
      · split at h
        · cases h
        · split at h
          · cases h
          · rename_i dataStart _ hshort
            cases h
            have hback : payload.length - (payload.length - dataStart) = dataStart := by omega
            simp [hback]

theorem readSparseMember_eq (h : roundUp size blockSize ≤ input.rest.length) : readSparseMember input size entry =
      (parseSparseMap (input.rest.take size) entry).map fun parsed =>
        (parsed, roundUp size blockSize - size, input.advance (roundUp size blockSize)) := by
  have hle := le_roundUp size blockSize
  unfold readSparseMember
  rw [prepareSparsePayload_eq (Nat.le_trans hle h)]
  cases hparse : parseSparseMap (input.rest.take size) entry with
  | none => rfl
  | some parsed =>
    obtain ⟨hlen, hdata⟩ := parseSparseMap_data hparse
    rw [length_take, min_eq_left (Nat.le_trans hle h)] at hlen hdata
    have hread : parsed.dataLen ≤ (input.advance (size - parsed.dataLen)).rest.length := by
      rw [Input.advance_rest, length_drop]
      omega
    have hsum : size - parsed.dataLen + parsed.dataLen = size := by omega
    have htake : (input.rest.drop (size - parsed.dataLen)).take parsed.dataLen = parsed.data := by
      rw [hdata, drop_take]
      congr 1
      omega
    simp only [Option.map_some, readSparsePayloadBuffered]
    rw [Input.readFull_of_le hread]
    simp only [Input.advance_advance, hsum, skip_padding h, Option.map_some, Input.advance_rest, htake]

theorem prepareSparsePayload_data {archivePadding : Nat} {input' : Input} {prepared : Entry}
    (h : prepareSparsePayload input size entry = some (prepared, archivePadding, input')) :
    ∃ dataStart ≤ size, dataStart ≤ input.rest.length ∧ input' = input.advance dataStart ∧
      prepared.dataLen = size - dataStart ∧ archivePadding = roundUp size blockSize - size := by
  have hcount := readSparseNumberLine_eq input size 0
  rw [Input.advance_zero, Nat.sub_zero] at hcount
  unfold prepareSparsePayload at h
  rw [hcount] at h
  cases hnumber : sparseBufferNumber (input.rest.take size) 0 with
  | none => simp [hnumber] at h
  | some r =>
    obtain ⟨extentCount, pos⟩ := r
    rw [hnumber] at h
    simp only [Option.map_some, Nat.sub_zero] at h
    by_cases hlong : size < pos
    · simp [hlong] at h
    rw [if_neg hlong] at h
    by_cases hbad : sparseExtentLimit < extentCount ∨ (size - pos) / 4 < extentCount
    · simp [hbad] at h
    rw [if_neg hbad, readSparseExtents_eq] at h
    cases hextents : parseSparseExtents (input.rest.take size) extentCount pos with
    | none => simp [hextents] at h
    | some r =>
      obtain ⟨extents, mapBytes⟩ := r
      rw [hextents] at h
      simp only [Option.map_some] at h
      cases hround : checkedSizeRoundUp mapBytes blockSize with
      | none => simp [hround] at h
      | some dataStart =>
        rw [hround] at h
        simp only at h
        by_cases hdata : size < dataStart
        · simp [hdata] at h
        rw [if_neg hdata] at h
        obtain ⟨skipped, hskip, hsome⟩ := Option.map_eq_some_iff.mp h
        have hmap := le_checkedSizeRoundUp hround
        have hpos := parseSparseExtents_pos hextents (sparseBufferNumber_pos hnumber).2
        rw [length_take] at hpos
        have hsum : mapBytes + (dataStart - mapBytes) = dataStart := by omega
        by_cases hpresent : dataStart - mapBytes ≤ (input.advance mapBytes).rest.length
        · rw [Input.skip_of_le hpresent] at hskip
          rw [Input.advance_rest, length_drop] at hpresent
          cases hskip
          cases hsome
          refine ⟨dataStart, Nat.le_of_not_lt hdata, by simp only at hpos; omega, ?_, rfl, rfl⟩
          rw [Input.advance_advance, hsum]
        · simp [Input.skip_of_lt (Nat.lt_of_not_le hpresent)] at hskip

theorem readSparseMember_truncated (h : input.rest.length < roundUp size blockSize) :
    readSparseMember input size entry = none := by
  unfold readSparseMember
  cases hprepare : prepareSparsePayload input size entry with
  | none => rfl
  | some r =>
    obtain ⟨prepared, archivePadding, input'⟩ := r
    obtain ⟨dataStart, hle, hpresent, rfl, hdata, rfl⟩ := prepareSparsePayload_data hprepare
    simp only [readSparsePayloadBuffered]
    by_cases hsize : size ≤ input.rest.length
    · have hread : prepared.dataLen ≤ (input.advance dataStart).rest.length := by
        rw [Input.advance_rest, length_drop]
        omega
      have hsum : dataStart + prepared.dataLen = size := by omega
      have hskip : (input.advance size).rest.length < roundUp size blockSize - size := by
        rw [Input.advance_rest, length_drop]
        omega
      rw [Input.readFull_of_le hread]
      simp [hsum, Input.skip_of_lt hskip]
    · have hread : (input.advance dataStart).rest.length < prepared.dataLen := by
        rw [Input.advance_rest, length_drop]
        omega
      rw [Input.readFull_of_lt hread]
      rfl

end

/-! ## Chunks -/

section
variable {υ : Type} {visit : υ → Entry → Bytes → Option υ} {entry : Entry}

theorem nextChunk_pos {remaining : Nat} (h : remaining ≠ 0) : 0 < nextChunk remaining ∧ nextChunk remaining ≤ remaining := by
  unfold nextChunk
  by_cases hbig : fileChunkSize < remaining
  · rw [if_pos hbig]
    exact ⟨by decide, le_of_lt hbig⟩
  · rw [if_neg hbig]
    exact ⟨pos_of_ne_zero h, le_rfl⟩

variable {s : ChunkState υ}

theorem visitChunksStep_of_le (hzero : s.remaining ≠ 0) (h : nextChunk s.remaining ≤ s.input.rest.length) :
    visitChunksStep visit entry s =
      match visit s.user entry (s.input.rest.take (nextChunk s.remaining)) with
      | none => .inr none
      | some user => .inl ⟨user, s.input.advance (nextChunk s.remaining), s.remaining - nextChunk s.remaining⟩ := by
  simp only [visitChunksStep]
  rewrite [if_neg hzero, Input.readFull_of_le h]
  cases hvisit : visit s.user entry (s.input.rest.take (nextChunk s.remaining)) with
  | none => simp only [hvisit]
  | some user => simp only [hvisit]

theorem visitChunksStep_of_lt (hzero : s.remaining ≠ 0)
    (h : s.input.rest.length < nextChunk s.remaining) : visitChunksStep visit entry s = .inr none := by
  simp only [visitChunksStep]
  rw [if_neg hzero, Input.readFull_of_lt h]

theorem visitChunksStep_go {s t : ChunkState υ} (h : visitChunksStep visit entry s = .inl t) :
    s.remaining ≠ 0 ∧ nextChunk s.remaining ≤ s.input.rest.length ∧
      t.remaining = s.remaining - nextChunk s.remaining ∧ t.input = s.input.advance (nextChunk s.remaining) ∧
      visit s.user entry (s.input.rest.take (nextChunk s.remaining)) = some t.user := by
  have hzero : s.remaining ≠ 0 := by
    intro hzero
    simp [visitChunksStep, hzero] at h
  by_cases hread : nextChunk s.remaining ≤ s.input.rest.length
  · rw [visitChunksStep_of_le hzero hread] at h
    cases hvisit : visit s.user entry (s.input.rest.take (nextChunk s.remaining)) with
    | none => simp [hvisit] at h
    | some user =>
      rw [hvisit] at h
      cases h
      exact ⟨hzero, hread, rfl, rfl, rfl⟩
  · simp [visitChunksStep_of_lt hzero (Nat.lt_of_not_le hread)] at h

theorem visitChunksStep_leave {r : Option (υ × Input)} (h : visitChunksStep visit entry s = .inr r) :
    (s.remaining = 0 ∧ r = some (s.user, s.input)) ∨
      (s.remaining ≠ 0 ∧ r = none ∧ (nextChunk s.remaining ≤ s.input.rest.length →
        visit s.user entry (s.input.rest.take (nextChunk s.remaining)) = none)) := by
  by_cases hzero : s.remaining = 0
  · simp only [visitChunksStep, hzero, if_true] at h
    cases h
    exact .inl ⟨hzero, rfl⟩
  right
  by_cases hread : nextChunk s.remaining ≤ s.input.rest.length
  · rw [visitChunksStep_of_le hzero hread] at h
    cases hvisit : visit s.user entry (s.input.rest.take (nextChunk s.remaining)) with
    | none =>
      rw [hvisit] at h
      cases h
      exact ⟨hzero, rfl, fun _ => rfl⟩
    | some user => simp [hvisit] at h
  · rw [visitChunksStep_of_lt hzero (Nat.lt_of_not_le hread)] at h
    cases h
    exact ⟨hzero, rfl, fun hle => absurd hle hread⟩

theorem visitChunks_of_loop {size : Nat} {user : υ} {input : Input} (Q : Option (υ × Input) → Prop)
    (h : ∃ r, loop (visitChunksStep visit entry) (size + 1) ⟨user, input, size⟩ = some r ∧ Q r) :
    Q (visitChunks visit entry size user input) := by
  obtain ⟨r, hr, hQ⟩ := h
  unfold visitChunks
  rw [hr]
  exact hQ

theorem visitChunks_of_step (P : υ → Bytes → Prop)
    (hstep : ∀ user seen data, P user seen → ∃ next, visit user entry data = some next ∧ P next (seen ++ data))
    {size : Nat} {user : υ} {input : Input} (hstart : P user []) (h : size ≤ input.rest.length) :
    ∃ next, visitChunks visit entry size user input = some (next, input.advance size) ∧ P next (input.rest.take size) := by
  apply visitChunks_of_loop (fun r => ∃ next, r = some (next, input.advance size) ∧ P next (input.rest.take size))
  apply loop_of_measure (fun s : ChunkState υ => s.remaining ≤ size ∧ s.input = input.advance (size - s.remaining) ∧
      P s.user (input.rest.take (size - s.remaining))) _ ChunkState.remaining
  · intro s t hs ht
    obtain ⟨hle, hinput, hP⟩ := hs
    obtain ⟨hzero, _, hremaining, hnext, hvisit⟩ := visitChunksStep_go ht
    have hchunk := nextChunk_pos hzero
    obtain ⟨user', huser, hP'⟩ := hstep s.user _ (s.input.rest.take (nextChunk s.remaining)) hP
    have hsum : size - s.remaining + nextChunk s.remaining = size - t.remaining := by omega
    rw [hvisit] at huser
    cases huser
    refine ⟨⟨by omega, ?_, ?_⟩, by omega⟩
    · rw [hnext, hinput, Input.advance_advance, hsum]
    · rw [hinput, Input.advance_rest, ← take_add, hsum] at hP'
      exact hP'
  · intro s r hs hr
    obtain ⟨hle, hinput, hP⟩ := hs
    cases visitChunksStep_leave hr with
    | inl hdone =>
      obtain ⟨hzero, rfl⟩ := hdone
      rw [hzero, Nat.sub_zero] at hinput hP
      exact ⟨s.user, by rw [hinput], hP⟩
    | inr hfail =>
      obtain ⟨hzero, _, hrefused⟩ := hfail
      have hchunk := nextChunk_pos hzero
      obtain ⟨user', huser, _⟩ := hstep s.user _ (s.input.rest.take (nextChunk s.remaining)) hP
      rw [hrefused (by rw [hinput, Input.advance_rest, length_drop]; omega)] at huser
      cases huser
  · refine ⟨le_rfl, by simp, ?_⟩
    simpa using hstart
  · exact Nat.lt_succ_self _

theorem visitChunks_input {size : Nat} {user next : υ} {input after : Input}
    (h : visitChunks visit entry size user input = some (next, after)) :
    size ≤ input.rest.length ∧ after = input.advance size := by
  have hall : ∀ next after, visitChunks visit entry size user input = some (next, after) →
      size ≤ input.rest.length ∧ after = input.advance size := by
    apply visitChunks_of_loop fun r => ∀ next after, r = some (next, after) →
      size ≤ input.rest.length ∧ after = input.advance size
    apply loop_of_measure (fun s : ChunkState υ => s.remaining ≤ size ∧ size - s.remaining ≤ input.rest.length ∧
        s.input = input.advance (size - s.remaining)) _ ChunkState.remaining
    · intro s t hs ht
      obtain ⟨hle, hread, hinput⟩ := hs
      obtain ⟨hzero, hpresent, hremaining, hnext, _⟩ := visitChunksStep_go ht
      have hchunk := nextChunk_pos hzero
      have hsum : size - s.remaining + nextChunk s.remaining = size - t.remaining := by omega
      rw [hinput, Input.advance_rest, length_drop] at hpresent
      refine ⟨⟨by omega, by omega, ?_⟩, by omega⟩
      rw [hnext, hinput, Input.advance_advance, hsum]
    · intro s r hs hr next after hsome
      obtain ⟨hle, hread, hinput⟩ := hs
      cases visitChunksStep_leave hr with
      | inl hdone =>
        obtain ⟨hzero, hr⟩ := hdone
        rw [hr] at hsome
        cases hsome
        rw [hzero, Nat.sub_zero] at hinput hread
        exact ⟨hread, hinput⟩
      | inr hfail =>
        rw [hfail.2.1] at hsome
        cases hsome
    · exact ⟨le_rfl, by simp, by simp⟩
    · exact Nat.lt_succ_self _
  exact hall next after h

variable {ops : VisitorOps υ} {size : Nat} {user : υ} {input : Input}

theorem skip_padding_truncated (hsize : size ≤ input.rest.length) (h : input.rest.length < roundUp size blockSize) :
    (input.advance size).skip (roundUp size blockSize - size) = none := by
  apply Input.skip_of_lt
  rw [Input.advance_rest, length_drop]
  omega

theorem visitPayload_of_step (P : υ → Bytes → Prop) (hops : ops.visitPayload = some visit)
    (hstep : ∀ user seen data, P user seen → ∃ next, visit user entry data = some next ∧ P next (seen ++ data))
    (hstart : P user []) (h : roundUp size blockSize ≤ input.rest.length) :
    ∃ next, visitPayload ops entry size user input = some (next, input.advance (roundUp size blockSize)) ∧
      P next (input.rest.take size) := by
  have hle := Nat.le_trans (le_roundUp size blockSize) h
  by_cases hzero : size = 0
  · have hpad := skip_padding h
    rw [hzero, Input.advance_zero] at hpad
    refine ⟨user, ?_, by rw [hzero]; exact hstart⟩
    simp only [visitPayload]
    rw [if_pos hzero, hzero, hpad]
    rfl
  · obtain ⟨next, hchunks, hP⟩ := visitChunks_of_step P hstep hstart hle
    refine ⟨next, ?_, hP⟩
    simp only [visitPayload, hops, hchunks]
    rw [if_neg hzero, skip_padding h]
    rfl

theorem visitPayload_truncated (h : input.rest.length < roundUp size blockSize) :
    visitPayload ops entry size user input = none := by
  by_cases hzero : size = 0
  · rw [hzero, roundUp_zero] at h
    exact absurd h (Nat.not_lt_zero _)
  simp only [visitPayload]
  rw [if_neg hzero]
  cases ops.visitPayload with
  | none =>
    simp only [Input.skipPayload]
    rw [Input.skip_of_lt h]
    rfl
  | some visit =>
    dsimp only
    cases hchunks : visitChunks visit entry size user input with
    | none => rfl
    | some r =>
      obtain ⟨next, after⟩ := r
      obtain ⟨hsize, rfl⟩ := visitChunks_input hchunks
      dsimp only
      rw [skip_padding_truncated hsize h]
      rfl

end

end Bx.Tar
