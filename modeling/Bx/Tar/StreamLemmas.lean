import Bx.Tar.StreamReader

/-!
# What the stream reader's parts read

Each part of the stream reader either gives what the buffer reader's part
gives on the same bytes, with the input past the padded payload, or fails
because the input ends before that.
-/

namespace Bx.Tar
open Kit List

/-! ## Input -/

namespace Input
variable (input : Input) (m n : Nat)

@[simp] theorem advance_rest : (input.advance n).rest = input.rest.drop n := rfl

@[simp] theorem advance_zero : input.advance 0 = input := by simp [advance]

@[simp] theorem advance_advance : (input.advance m).advance n = input.advance (m + n) := by
  simp [advance, add_assoc]

variable {input n}

theorem readFull_of_le (h : n ≤ input.rest.length) : input.readFull n = some (input.rest.take n, input.advance n) := by
  simp [readFull, readExact, h]

theorem readFull_of_lt (h : input.rest.length < n) : input.readFull n = none := by
  have hnot : ¬n ≤ input.rest.length := by omega
  unfold readFull readExact
  rw [if_neg hnot]
  by_cases hempty : input.rest = []
  · rw [if_pos hempty]
  · rw [if_neg hempty]

theorem skip_of_le (h : n ≤ input.rest.length) : input.skip n = some (input.advance n) := if_pos h

theorem skip_of_lt (h : input.rest.length < n) : input.skip n = none := if_neg (Nat.not_le_of_lt h)

end Input

/-! ## Pax records -/

theorem recordLength_count {data : Bytes} {lineLen count : Nat} {r : Nat × Nat}
    (h : recordLength lineLen count data = some r) : count ≤ r.2 ∧ r.2 < count + data.length := by
  induction data generalizing lineLen count with
  | nil => cases h
  | cons ch data ih =>
    rw [recordLength] at h
    by_cases hspace : ch = 32
    · rw [if_pos hspace] at h
      cases h
      simp
    rw [if_neg hspace] at h
    by_cases hdigit : isDigit 10 ch = true
    · rw [if_pos hdigit] at h
      by_cases hbig : (sizeMax - 9) / 10 < lineLen
      · simp [hbig] at h
      · rw [if_neg hbig] at h
        have hrest := ih h
        rw [length_cons]
        omega
    · simp [hdigit] at h

theorem recordLength_take (data : Bytes) (n lineLen count : Nat) : recordLength lineLen count (data.take n) =
      (recordLength lineLen count data).filter fun r => decide (r.2 < count + n) := by
  induction data generalizing n lineLen count with
  | nil => simp [recordLength]
  | cons ch data ih =>
    cases n with
    | zero =>
      cases h : recordLength lineLen count (ch :: data) with
      | none => rfl
      | some r =>
        have hcount := (recordLength_count h).1
        have hnot : ¬r.2 < count + 0 := by omega
        simp [recordLength, Option.filter, hcount]
    | succ n =>
      rw [take_succ_cons, recordLength, recordLength]
      by_cases hspace : ch = 32
      · simp [hspace, Option.filter]
      rw [if_neg hspace, if_neg hspace]
      by_cases hdigit : isDigit 10 ch = true
      · rw [if_pos hdigit, if_pos hdigit]
        by_cases hbig : (sizeMax - 9) / 10 < lineLen
        · rw [if_pos hbig, if_pos hbig]
          rfl
        · rw [if_neg hbig, if_neg hbig, ih]
          have hsum : count + 1 + n = count + (n + 1) := by omega
          rw [hsum]
      · rw [if_neg hdigit, if_neg hdigit]
        rfl

theorem record_cut {rest : Bytes} {consumed lineLen : Nat} (hconsumed : consumed < lineLen)
    (hlen : lineLen ≤ rest.length) :
    ((rest.drop consumed).take (lineLen - consumed)).getLast? = (rest.drop (lineLen - 1)).head? ∧
      ((rest.drop consumed).take (lineLen - consumed)).dropLast = (rest.take (lineLen - 1)).drop consumed := by
  refine ⟨?_, ?_⟩
  · have hindex : consumed + (lineLen - consumed - 1) = lineLen - 1 := by omega
    have hsome : lineLen - 1 < rest.length := by omega
    rw [getLast?_take, if_neg (by omega), getElem?_drop, hindex, head?_drop, getElem?_eq_getElem hsome]
    rfl
  · have hminus : min (min (lineLen - consumed) (rest.length - consumed) - 1) (lineLen - consumed) =
        lineLen - 1 - consumed := by omega
    rw [dropLast_eq_take, length_take, length_drop, take_take, hminus, drop_take]

section
variable (skipOwnerGroupNames isGlobal : Bool)

/-- The two loops over the records of one payload, `whole` being its size. -/
structure PaxReadersAt (input : Input) (whole : Nat) (b : PaxInfo × Bytes) (s : PaxReadState) : Prop where
  target : s.target = b.1
  remaining : s.remaining ≤ whole
  input : s.input = input.advance (whole - s.remaining)
  data : b.2 = s.input.rest.take s.remaining
  present : s.remaining ≤ s.input.rest.length

variable {s : PaxReadState}

theorem readPaxRecordsStep_agrees {input : Input} {whole : Nat} {b : PaxInfo × Bytes}
    (h : PaxReadersAt input whole b s) :
    Sum.LiftRel (PaxReadersAt input whole) (fun r r' => r' = r.map fun target => (target, input.advance whole))
      (parsePaxRecordsStep skipOwnerGroupNames isGlobal b) (readPaxRecordsStep skipOwnerGroupNames isGlobal s) := by
  obtain ⟨target, data⟩ := b
  obtain ⟨htarget, hremaining, hinput, hdata, hpresent⟩ := h
  simp only at htarget hdata
  have hlength : data.length = s.remaining := by
    rw [hdata, length_take]
    omega
  by_cases hzero : s.remaining = 0
  · have hnil : data = [] := length_eq_zero_iff.mp (hlength.trans hzero)
    have hleft : parsePaxRecordsStep skipOwnerGroupNames isGlobal (target, data) = .inr (some target) := by
      simp [parsePaxRecordsStep, hnil]
    have hright : readPaxRecordsStep skipOwnerGroupNames isGlobal s = .inr (some (s.target, s.input)) := by
      simp [readPaxRecordsStep, hzero]
    rw [hleft, hright]
    apply Sum.LiftRel.inr
    rw [hinput, hzero, htarget, Nat.sub_zero]
    rfl
  have hne : data ≠ [] := by
    intro hnil
    rw [hnil] at hlength
    exact hzero hlength.symm
  have hframe : recordLength 0 0 data =
      (recordLength 0 0 s.input.rest).filter fun r => decide (r.2 < 0 + s.remaining) := by
    rw [hdata]
    exact recordLength_take _ _ _ _
  unfold parsePaxRecordsStep readPaxRecordsStep
  simp only [if_neg hne, if_neg hzero]
  cases hlen : recordLength 0 0 s.input.rest with
  | none =>
    rw [hlen] at hframe
    simp only [hframe, Option.filter_none]
    exact .inr rfl
  | some r =>
    obtain ⟨lineLen, digits⟩ := r
    rw [hlen] at hframe
    by_cases hspace : digits < s.remaining
    · have hsome : recordLength 0 0 data = some (lineLen, digits) := by
        rw [hframe]
        simp [hspace]
      simp only [hsome]
      by_cases hbad : digits = 0 ∨ lineLen = 0 ∨ paxRecordLimit < lineLen ∨ s.remaining < lineLen ∨ lineLen ≤ digits + 1
      · rw [if_pos hbad]
        by_cases hframed : digits = 0 ∨ lineLen = 0 ∨ paxRecordLimit < lineLen ∨ data.length < lineLen
            ∨ (data.drop (lineLen - 1)).head? ≠ some 10
        · rw [if_pos hframed]
          exact .inr rfl
        · simp only [not_or] at hframed
          have hshort : lineLen - 1 < digits + 1 := by omega
          simp only [hframed, hshort, or_self, if_false, if_true]
          exact .inr rfl
      rw [if_neg hbad, Input.readFull_of_le (by rw [Input.advance_rest, length_drop]; omega)]
      obtain ⟨hlast, hbody⟩ := @record_cut s.input.rest (digits + 1) lineLen (by omega) (by omega)
      have hhead : (data.drop (lineLen - 1)).head? = (s.input.rest.drop (lineLen - 1)).head? := by
        rw [hdata, head?_drop, head?_drop, getElem?_take_of_lt (by omega)]
      have htake : (data.take (lineLen - 1)).drop (digits + 1) = (s.input.rest.take (lineLen - 1)).drop (digits + 1) := by
        rw [hdata, take_take, min_eq_left (by omega)]
      simp only [Input.advance_rest, hlast, hbody]
      by_cases hnewline : (s.input.rest.drop (lineLen - 1)).head? = some 10
      · have hframed : ¬(digits = 0 ∨ lineLen = 0 ∨ paxRecordLimit < lineLen ∨ data.length < lineLen
            ∨ (data.drop (lineLen - 1)).head? ≠ some 10) := by
          rw [hhead, hlength]
          simp only [hnewline, ne_eq, not_true_eq_false, or_false]
          omega
        rw [if_neg hframed, if_neg (by omega), if_neg (not_not_intro hnewline), htake, htarget]
        cases applyPaxRecord skipOwnerGroupNames isGlobal target
            ((s.input.rest.take (lineLen - 1)).drop (digits + 1)) with
        | none => exact .inr rfl
        | some next =>
          apply Sum.LiftRel.inl
          have hsum : digits + 1 + (lineLen - (digits + 1)) = lineLen := by omega
          refine ⟨rfl, by simp only; omega, ?_, ?_, ?_⟩
          · simp only [Input.advance_advance, hsum]
            rw [hinput, Input.advance_advance]
            congr 1
            omega
          · simp only [Input.advance_advance, hsum, Input.advance_rest]
            rw [hdata, drop_take]
          · simp only [Input.advance_advance, hsum, Input.advance_rest, length_drop]
            omega
      · rw [if_pos (.inr (.inr (.inr (.inr (by rw [hhead]; exact hnewline))))), if_pos hnewline]
        exact .inr rfl
    · -- the digits run past the records, so the record would be longer than what remains
      have hnone : recordLength 0 0 data = none := by
        rw [hframe]
        simpa using Nat.le_of_not_lt hspace
      simp only [hnone]
      by_cases hbad : digits = 0 ∨ lineLen = 0 ∨ paxRecordLimit < lineLen ∨ s.remaining < lineLen ∨ lineLen ≤ digits + 1
      · rw [if_pos hbad]
        exact .inr rfl
      · omega

variable {skipOwnerGroupNames isGlobal}

theorem readPaxRecordsStep_go {t : PaxReadState} (h : readPaxRecordsStep skipOwnerGroupNames isGlobal s = .inl t) :
    ∃ lineLen, 0 < lineLen ∧ lineLen ≤ s.remaining ∧ lineLen ≤ s.input.rest.length ∧
      t.remaining = s.remaining - lineLen ∧ t.input = s.input.advance lineLen := by
  unfold readPaxRecordsStep at h
  by_cases hzero : s.remaining = 0
  · simp [hzero] at h
  rw [if_neg hzero] at h
  cases hlen : recordLength 0 0 s.input.rest with
  | none => simp [hlen] at h
  | some r =>
    obtain ⟨lineLen, digits⟩ := r
    simp only [hlen] at h
    by_cases hbad : digits = 0 ∨ lineLen = 0 ∨ paxRecordLimit < lineLen ∨ s.remaining < lineLen ∨ lineLen ≤ digits + 1
    · simp [hbad] at h
    rw [if_neg hbad] at h
    by_cases hread : lineLen - (digits + 1) ≤ (s.input.advance (digits + 1)).rest.length
    · have hsum : digits + 1 + (lineLen - (digits + 1)) = lineLen := by omega
      have hcount := (recordLength_count hlen).2
      have hpresent := hread
      rw [Input.advance_rest, length_drop] at hpresent
      rw [Input.readFull_of_le hread, Input.advance_advance, hsum] at h
      simp only at h
      by_cases hnewline : (((s.input.advance (digits + 1)).rest.take (lineLen - (digits + 1))).getLast? ≠ some 10)
      · rw [if_pos hnewline] at h
        cases h
      rw [if_neg hnewline] at h
      split at h
      · cases h
      · cases h
        refine ⟨lineLen, by omega, by omega, by omega, rfl, rfl⟩
    · simp [Input.readFull_of_lt (Nat.lt_of_not_le hread)] at h

theorem readPaxRecordsStep_leave {r : PaxInfo × Input}
    (h : readPaxRecordsStep skipOwnerGroupNames isGlobal s = .inr (some r)) : s.remaining = 0 := by
  by_cases hzero : s.remaining = 0
  · exact hzero
  exfalso
  unfold readPaxRecordsStep at h
  rw [if_neg hzero] at h
  split at h
  · cases h
  · simp only at h
    split at h
    · cases h
    · split at h
      · cases h
      · split at h
        · cases h
        · split at h
          · cases h
          · cases h

theorem skip_padding {input : Input} {size : Nat} (h : roundUp size blockSize ≤ input.rest.length) :
    (input.advance size).skip (roundUp size blockSize - size) = some (input.advance (roundUp size blockSize)) := by
  have hle := le_roundUp size blockSize
  have hskip : roundUp size blockSize - size ≤ (input.advance size).rest.length := by
    rw [Input.advance_rest, length_drop]
    omega
  have hsum : size + (roundUp size blockSize - size) = roundUp size blockSize := by omega
  rw [Input.skip_of_le hskip, Input.advance_advance, hsum]

variable (skipOwnerGroupNames isGlobal) (input : Input) (size : Nat) (target : PaxInfo)

theorem readPaxRecords_loop (h : size ≤ input.rest.length) :
    (loop (readPaxRecordsStep skipOwnerGroupNames isGlobal) (size + 1) ⟨input, size, target⟩).join =
      (parsePaxRecords skipOwnerGroupNames isGlobal target (input.rest.take size)).map fun target =>
        (target, input.advance size) := by
  have hstart : PaxReadersAt input size (target, input.rest.take size) ⟨input, size, target⟩ :=
    { target := rfl, remaining := le_rfl, input := by simp, data := rfl, present := h }
  have hrel := loop_rel _ _ (fun _ _ => readPaxRecordsStep_agrees skipOwnerGroupNames isGlobal) hstart (size + 1)
  have hfuel : (input.rest.take size).length + 1 = size + 1 := by
    rw [length_take, min_eq_left h]
  unfold parsePaxRecords
  rw [hfuel]
  exact join_of_rel hrel

theorem readPaxRecords_eq (h : roundUp size blockSize ≤ input.rest.length) :
    readPaxRecords skipOwnerGroupNames isGlobal input size target =
      (parsePaxRecords skipOwnerGroupNames isGlobal target (input.rest.take size)).map fun target =>
        (target, input.advance (roundUp size blockSize)) := by
  have hle := le_roundUp size blockSize
  unfold readPaxRecords
  rw [readPaxRecords_loop _ _ _ _ _ (Nat.le_trans hle h)]
  cases parsePaxRecords skipOwnerGroupNames isGlobal target (input.rest.take size) with
  | none => rfl
  | some next => simp [skip_padding h]

theorem readPaxRecords_truncated (h : input.rest.length < roundUp size blockSize) :
    readPaxRecords skipOwnerGroupNames isGlobal input size target = none := by
  unfold readPaxRecords
  by_cases hsize : size ≤ input.rest.length
  · rw [readPaxRecords_loop _ _ _ _ _ hsize]
    cases parsePaxRecords skipOwnerGroupNames isGlobal target (input.rest.take size) with
    | none => rfl
    | some next =>
      have hskip : (input.advance size).rest.length < roundUp size blockSize - size := by
        rw [Input.advance_rest, length_drop]
        omega
      simp [Input.skip_of_lt hskip]
  · -- the records are longer than the input, and no step changes that
    have hfail : ∃ r, loop (readPaxRecordsStep skipOwnerGroupNames isGlobal) (size + 1) ⟨input, size, target⟩ = some r ∧
        r = none := by
      apply loop_of_measure (fun s => s.input.rest.length < s.remaining) (fun r => r = none) PaxReadState.remaining
      · intro s t hs ht
        obtain ⟨lineLen, hpos, _, hle, hremaining, hinput⟩ := readPaxRecordsStep_go ht
        rw [hremaining, hinput, Input.advance_rest, length_drop]
        omega
      · intro s r hs hr
        cases r with
        | none => rfl
        | some r =>
          have hzero := readPaxRecordsStep_leave hr
          omega
      · exact Nat.lt_of_not_le hsize
      · exact Nat.lt_succ_self _
    obtain ⟨r, hr, hnone⟩ := hfail
    rw [hr, hnone]
    rfl

end

variable {input : Input} {size : Nat}

theorem readTextPayload_eq (h : roundUp size blockSize ≤ input.rest.length) :
    input.readTextPayload size = some (longText (input.rest.take size), input.advance (roundUp size blockSize)) := by
  have hle := le_roundUp size blockSize
  unfold Input.readTextPayload
  rw [Input.readFull_of_le (by omega)]
  simp [skip_padding h]

theorem readTextPayload_truncated (h : input.rest.length < roundUp size blockSize) :
    input.readTextPayload size = none := by
  unfold Input.readTextPayload
  by_cases hsize : size ≤ input.rest.length
  · have hskip : (input.advance size).rest.length < roundUp size blockSize - size := by
      rw [Input.advance_rest, length_drop]
      omega
    rw [Input.readFull_of_le hsize]
    simp [Input.skip_of_lt hskip]
  · rw [Input.readFull_of_lt (Nat.lt_of_not_le hsize)]

end Bx.Tar
