import Bx.Tar.Write

/-!
# Pax records read back

The length that starts a record is a fixed point: adding its digits does not
change how many there are. A record that was appended is therefore cut off
again where it ends, and its numbers and times read as they were written.
-/

namespace Bx.Tar
open Kit List

/-! ## The length of a record -/

theorem paxTotal_spec {payload : Nat} (hpos : 0 < payload) :
    ∃ total, paxTotal payload = some total ∧ total = payload + (numeral 10 total).length ∧ total ≤ 2 * payload := by
  have hdigits : ∀ total ≤ 2 * payload, (numeral 10 total).length ≤ payload := by
    intro total hle
    apply (length_numeral_le_iff (by decide) hpos).mpr
    apply lt_of_le_of_lt hle
    have hpow : ∀ n : Nat, 2 * n < 10 ^ n := by
      intro n
      induction n with
      | zero => decide
      | succ n ih =>
        rw [pow_succ]
        omega
    exact hpow payload
  -- the total only grows, and never past what its own digits ask for
  apply loop_of_measure
    (fun total => total ≤ 2 * payload ∧ payload < total ∧ total ≤ payload + (numeral 10 total).length)
    (fun total => total = payload + (numeral 10 total).length ∧ total ≤ 2 * payload)
    (fun total => 2 * payload - total)
  · intro total next hI hstep
    obtain ⟨hle, hlt, hgrow⟩ := hI
    have hlen := hdigits total hle
    simp only [paxTotalStep] at hstep
    by_cases heq : payload + ((numeral 10 total).length + 1) - 1 = total
    · rw [if_pos heq] at hstep
      cases hstep
    · rw [if_neg heq] at hstep
      cases hstep
      have hmono := @length_numeral_mono 10 (by decide) total (payload + ((numeral 10 total).length + 1) - 1) (by omega)
      omega
  · intro total r hI hstep
    simp only [paxTotalStep] at hstep
    by_cases heq : payload + ((numeral 10 total).length + 1) - 1 = total
    · rw [if_pos heq] at hstep
      cases hstep
      omega
    · rw [if_neg heq] at hstep
      cases hstep
  · have hlen := @length_numeral_pos 10 (payload + 1)
    omega
  · omega

/-- The bytes of a record with the length `total` -/
def paxRecord (total : Nat) (key value : Bytes) : Bytes := numeral 10 total ++ [32] ++ key ++ [61] ++ value ++ [10]

theorem length_paxRecord (total : Nat) (key value : Bytes) :
    (paxRecord total key value).length = (numeral 10 total).length + (key.length + value.length + 3) := by
  simp [paxRecord]
  omega

theorem paxAppend_spec (key value : Bytes) :
    ∃ total, paxAppend key value = some (paxRecord total key value) ∧ (paxRecord total key value).length = total ∧
      total ≤ 2 * (key.length + value.length + 3) := by
  obtain ⟨total, htotal, heq, hle⟩ := @paxTotal_spec (key.length + value.length + 3) (by omega)
  refine ⟨total, ?_, ?_, hle⟩
  · unfold paxAppend
    rw [htotal]
    rfl
  · rw [length_paxRecord]
    omega

/-! ## Cutting records -/

theorem recordLength_digits {digits : Bytes} (hdigits : ∀ c ∈ digits, isDigit 10 c = true) (value count : Nat)
    (h : numeralValue 10 value digits ≤ (sizeMax - 9) / 10) (more : Bytes) :
    recordLength value count (digits ++ 32 :: more) = some (numeralValue 10 value digits, count + digits.length) := by
  induction digits generalizing value count with
  | nil => simp [recordLength]
  | cons c digits ih =>
    have hc := hdigits c mem_cons_self
    have hspace : c ≠ 32 := by
      intro heq
      rw [heq] at hc
      exact absurd hc (by decide)
    have hgrow := @le_numeralValue 10 (by decide) (value * 10 + digitValue c) digits
    rw [numeralValue_cons] at h
    rw [cons_append, recordLength, if_neg hspace, if_pos hc, if_neg (by omega),
      ih (fun c' hc' => hdigits c' (mem_cons_of_mem _ hc')) _ _ h, numeralValue_cons, length_cons]
    congr 2
    omega

section
variable (skipOwnerGroupNames isGlobal : Bool)

theorem parsePaxRecordsStep_shorter {s t : PaxInfo × Bytes}
    (h : parsePaxRecordsStep skipOwnerGroupNames isGlobal s = .inl t) : t.2.length < s.2.length := by
  obtain ⟨target, data⟩ := s
  simp only [parsePaxRecordsStep] at h
  by_cases hnil : data = []
  · simp [hnil] at h
  rw [if_neg hnil] at h
  cases hlen : recordLength 0 0 data with
  | none => simp [hlen] at h
  | some r =>
    obtain ⟨lineLen, digits⟩ := r
    rw [hlen] at h
    simp only at h
    split at h
    · cases h
    · rename_i hframed
      split at h
      · cases h
      · split at h
        · cases h
        · cases h
          have hpos := length_pos_iff.mpr hnil
          have hline : lineLen ≠ 0 := fun h0 => hframed (.inr (.inl h0))
          simp only [length_drop]
          omega

theorem parsePaxRecords_nil (target : PaxInfo) : parsePaxRecords skipOwnerGroupNames isGlobal target [] = some target := rfl

theorem parsePaxRecords_record {total : Nat} {key value : Bytes} (hlength : (paxRecord total key value).length = total)
    (hlimit : total ≤ paxRecordLimit) (target : PaxInfo) (more : Bytes) :
    parsePaxRecords skipOwnerGroupNames isGlobal target (paxRecord total key value ++ more) =
      (applyPaxRecord skipOwnerGroupNames isGlobal target (key ++ 61 :: value)).bind fun next =>
        parsePaxRecords skipOwnerGroupNames isGlobal next more := by
  have hdigits : ∀ c ∈ numeral 10 total, isDigit 10 c = true :=
    fun c hc => isDigit_of_mem_numeral (by decide) (by decide) hc
  have hvalue := @numeralValue_numeral 10 (by decide) (by decide) total
  have hsum := length_paxRecord total key value
  have hne := @length_numeral_pos 10 total
  have hframe : paxRecord total key value ++ more = numeral 10 total ++ 32 :: (key ++ 61 :: value ++ [10] ++ more) := by
    simp [paxRecord]
  have hlen : recordLength 0 0 (paxRecord total key value ++ more) = some (total, (numeral 10 total).length) := by
    rw [hframe, recordLength_digits hdigits 0 0 (by rw [hvalue]; exact Nat.le_trans hlimit (by decide)), hvalue,
      zero_add]
  have hbody : paxRecord total key value ++ more = (numeral 10 total ++ [32]) ++ (key ++ 61 :: value ++ (10 :: more)) := by
    simp [paxRecord]
  have hnewline : ((paxRecord total key value ++ more).drop (total - 1)).head? = some 10 := by
    have hsplit : paxRecord total key value ++ more = (numeral 10 total ++ [32] ++ key ++ [61] ++ value) ++ 10 :: more := by
      simp [paxRecord]
    rw [hsplit, drop_left' (by simp; omega)]
    rfl
  have hcut : ((paxRecord total key value ++ more).take (total - 1)).drop ((numeral 10 total).length + 1) =
      key ++ 61 :: value := by
    rw [drop_take, hbody, drop_left' (by simp)]
    apply take_left'
    simp
    omega
  have hrest : (paxRecord total key value ++ more).drop total = more := drop_left' hlength
  have hstep : parsePaxRecordsStep skipOwnerGroupNames isGlobal (target, paxRecord total key value ++ more) =
      (applyPaxRecord skipOwnerGroupNames isGlobal target (key ++ 61 :: value)).elim (.inr none)
        fun next => .inl (next, more) := by
    have hnil : paxRecord total key value ++ more ≠ [] := by simp [paxRecord]
    have hframed : ¬((numeral 10 total).length = 0 ∨ total = 0 ∨ paxRecordLimit < total ∨
        (paxRecord total key value ++ more).length < total ∨
        ((paxRecord total key value ++ more).drop (total - 1)).head? ≠ some 10) := by
      rw [hnewline, length_append]
      simp only [ne_eq, not_true_eq_false, or_false]
      omega
    simp only [parsePaxRecordsStep]
    rw [if_neg hnil, hlen]
    simp only
    rewrite [if_neg hframed, if_neg (by omega), hcut, hrest]
    cases applyPaxRecord skipOwnerGroupNames isGlobal target (key ++ 61 :: value) with
    | none => rfl
    | some next => rfl
  cases happly : applyPaxRecord skipOwnerGroupNames isGlobal target (key ++ 61 :: value) with
  | none =>
    rw [happly] at hstep
    unfold parsePaxRecords
    rw [loop_leave hstep]
    rfl
  | some next =>
    rw [happly] at hstep
    have hfuel := @loop_fuel _ _ (parsePaxRecordsStep skipOwnerGroupNames isGlobal)
      (fun s => s.2.length) (fun _ _ => parsePaxRecordsStep_shorter skipOwnerGroupNames isGlobal) (next, more)
      (paxRecord total key value ++ more).length (more.length + 1)
      (parsePaxRecordsStep_shorter skipOwnerGroupNames isGlobal hstep) (Nat.lt_succ_self _)
    unfold parsePaxRecords
    rw [loop_go hstep, hfuel]
    rfl

end

/-! ## Lists of records -/

def applyPaxPair (skipOwnerGroupNames isGlobal : Bool) (target : PaxInfo) (pair : Bytes × Bytes) : Option PaxInfo :=
  match PaxField.ofKey pair.1 with
  | some field =>
    if pair.2.contains 0 then none
    else (paxApplyNumber target.numbers field pair.2).map fun numbers =>
      { target with numbers := numbers, active := true }
  | none =>
    match PaxText.ofKey pair.1 with
    | some text =>
      if pair.2.contains 0 || paxTextLimit < pair.2.length then none
      else if skipOwnerGroupNames && (text == .uname || text == .gname) then some target
      else some (target.setText text pair.2)
    | none =>
      if (ascii "SCHILY.").isPrefixOf pair.1 || pair.1 == ascii "RHT.security.selinux" then
        applyPaxMetadata target pair.1 pair.2
      else if isGlobal then some target
      else applyPaxSparse target pair.1 pair.2

theorem splitPaxRecord_pair {key : Bytes} (hequals : 61 ∉ key) (hnul : 0 ∉ key) (value : Bytes) :
    splitPaxRecord (key ++ 61 :: value) = some (key, value) := by
  have hplain : ∀ c ∈ key, (c != 61) = true := by
    intro c hc
    apply bne_iff_ne.mpr
    intro heq
    exact hequals (heq ▸ hc)
  have hkey : (key ++ 61 :: value).takeWhile (· != 61) = key := by
    rw [takeWhile_append_of_pos hplain, takeWhile_cons_of_neg (by decide), append_nil]
  have hlonger : ¬key.length = (key ++ 61 :: value).length := by
    rw [length_append, length_cons]
    omega
  have hcontains : ¬key.contains 0 = true := by
    intro hzero
    exact hnul (contains_iff_mem.mp hzero)
  simp only [splitPaxRecord, hkey]
  rw [if_neg hlonger, if_neg hcontains, drop_append, drop_of_length_le (Nat.le_succ _), Nat.add_sub_cancel_left]
  rfl

section
variable (skipOwnerGroupNames isGlobal : Bool)

theorem applyPaxRecord_pair (target : PaxInfo) {pair : Bytes × Bytes} (hkey : 61 ∉ pair.1 ∧ 0 ∉ pair.1) :
    applyPaxRecord skipOwnerGroupNames isGlobal target (pair.1 ++ 61 :: pair.2) =
      applyPaxPair skipOwnerGroupNames isGlobal target pair := by
  unfold applyPaxRecord
  rw [splitPaxRecord_pair hkey.1 hkey.2]
  rfl

theorem parsePaxRecords_flatten {pairs : List (Bytes × Bytes)} {records : List Bytes}
    (hframe : List.Forall₂ (fun pair record => record = paxRecord record.length pair.1 pair.2) pairs records)
    (hkey : ∀ pair ∈ pairs, 61 ∉ pair.1 ∧ 0 ∉ pair.1) (hlimit : ∀ record ∈ records, record.length ≤ paxRecordLimit)
    (target : PaxInfo) :
    parsePaxRecords skipOwnerGroupNames isGlobal target records.flatten =
      pairs.foldlM (applyPaxPair skipOwnerGroupNames isGlobal) target := by
  induction hframe generalizing target with
  | nil => exact parsePaxRecords_nil skipOwnerGroupNames isGlobal target
  | @cons pair record pairs records hrecord _ ih =>
    obtain ⟨hpair, hpairs⟩ := forall_mem_cons.mp hkey
    obtain ⟨hfits, hall⟩ := forall_mem_cons.mp hlimit
    rw [flatten_cons, hrecord, parsePaxRecords_record skipOwnerGroupNames isGlobal
      (congrArg List.length hrecord.symm) hfits, applyPaxRecord_pair skipOwnerGroupNames isGlobal target hpair,
      foldlM_cons]
    congr 1
    funext next
    exact ih hpairs hall next

end

/-- **Main result.** Every pair is appended as a record that starts with its own full length, and the records that are
within the limit of the reader are applied pair by pair, with the bytes of the values as they are. -/
theorem paxRecords_applied (skipOwnerGroupNames isGlobal : Bool) (pairs : List (Bytes × Bytes))
    (hkey : ∀ pair ∈ pairs, 61 ∉ pair.1 ∧ 0 ∉ pair.1) :
    ∃ records : List Bytes, pairs.map (fun pair => paxAppend pair.1 pair.2) = records.map some ∧
      List.Forall₂ (fun pair record => record = paxRecord record.length pair.1 pair.2) pairs records ∧
      ((∀ record ∈ records, record.length ≤ paxRecordLimit) → ∀ target : PaxInfo,
        parsePaxRecords skipOwnerGroupNames isGlobal target records.flatten =
          pairs.foldlM (applyPaxPair skipOwnerGroupNames isGlobal) target) := by
  have hrecords : ∃ records : List Bytes, pairs.map (fun pair => paxAppend pair.1 pair.2) = records.map some ∧
      List.Forall₂ (fun pair record => record = paxRecord record.length pair.1 pair.2) pairs records := by
    clear hkey
    induction pairs with
    | nil => exact ⟨[], rfl, List.Forall₂.nil⟩
    | cons pair pairs ih =>
      obtain ⟨records, hsome, hframe⟩ := ih
      obtain ⟨total, happend, hlength, _⟩ := paxAppend_spec pair.1 pair.2
      refine ⟨paxRecord total pair.1 pair.2 :: records, ?_, List.Forall₂.cons ?_ hframe⟩
      · rw [map_cons, map_cons, happend, hsome]
      · rw [hlength]
  obtain ⟨records, hsome, hframe⟩ := hrecords
  exact ⟨records, hsome, hframe, fun hlimit => parsePaxRecords_flatten skipOwnerGroupNames isGlobal hframe hkey hlimit⟩

def awkwardPairs : List (Bytes × Bytes) := [(ascii "path", ascii "a=b"), (ascii "SCHILY.xattr.user.a", [61, 10, 0])]

theorem paxRecords_applied_awkward :
    ∃ records : List Bytes, awkwardPairs.map (fun pair => paxAppend pair.1 pair.2) = records.map some ∧
      List.Forall₂ (fun pair record => record = paxRecord record.length pair.1 pair.2) awkwardPairs records ∧
      ((∀ record ∈ records, record.length ≤ paxRecordLimit) → ∀ target : PaxInfo,
        parsePaxRecords false false target records.flatten = awkwardPairs.foldlM (applyPaxPair false false) target) :=
  paxRecords_applied false false awkwardPairs (by decide)

/-! ## Values -/

theorem uintDigits_digits {digits : Bytes} (hdigits : ∀ c ∈ digits, isDigit 10 c = true) {value : Nat}
    (h : numeralValue 10 value digits ≤ sizeMax) : uintDigits value digits = some (numeralValue 10 value digits) := by
  induction digits generalizing value with
  | nil => rfl
  | cons c digits ih =>
    rw [numeralValue_cons] at h
    have hgrow := @le_numeralValue 10 (by decide) (value * 10 + digitValue c) digits
    have hroom : ¬(sizeMax - digitValue c) / 10 < value := by omega
    rw [uintDigits, if_pos (hdigits c mem_cons_self), if_neg hroom, numeralValue_cons]
    exact ih (fun c' hc' => hdigits c' (mem_cons_of_mem _ hc')) h

theorem numeral_digits (n : Nat) : ∀ c ∈ numeral 10 n, isDigit 10 c = true :=
  fun _ hc => isDigit_of_mem_numeral (by decide) (by decide) hc

theorem numeralValue_decimal (n : Nat) : numeralValue 10 0 (numeral 10 n) = n :=
  numeralValue_numeral (by decide) (by decide) n

theorem sizeParseUint_numeral {n : Nat} (h : n ≤ sizeMax) : sizeParseUint (numeral 10 n) = some n := by
  have hvalue := numeralValue_decimal n
  unfold sizeParseUint
  rw [if_neg (numeral_ne_nil n), uintDigits_digits (numeral_digits n) (by rw [hvalue]; exact h), hvalue]

theorem numeral_append (n : Nat) {fraction : Bytes} (hfraction : isDigit 10 (fraction.headD 0) = false) :
    (numeral 10 n ++ fraction).takeWhile (isDigit 10) = numeral 10 n ∧
      (numeral 10 n ++ fraction).dropWhile (isDigit 10) = fraction := by
  have htake : fraction.takeWhile (isDigit 10) = [] := by
    cases fraction with
    | nil => rfl
    | cons c fraction => exact takeWhile_cons_of_neg (by simpa using hfraction)
  have hdrop : fraction.dropWhile (isDigit 10) = fraction := by
    cases fraction with
    | nil => rfl
    | cons c fraction => exact dropWhile_cons_of_neg (by simpa using hfraction)
  refine ⟨?_, ?_⟩
  · rw [takeWhile_append_of_pos (numeral_digits n), htake, append_nil]
  · rw [dropWhile_append_of_pos (numeral_digits n), hdrop]

theorem parsePaxTime_parts (negative : Bool) (n : Nat) {fraction : Bytes} {nsec : Nat}
    (hhead : isDigit 10 (fraction.headD 0) = false)
    (hfraction : parseFractionalNanoseconds fraction = some (nsec, []))
    (hexact : (fraction.drop 10).any (· != 48) = false) :
    parsePaxTime ((if negative then [45] else []) ++ (numeral 10 n ++ fraction)) =
      match strtoimax negative (numeral 10 n) with
      | none => none
      | some seconds =>
        if negative && nsec != 0 then
          if seconds = -2 ^ 63 then none else some ⟨seconds - 1, 1000000000 - nsec⟩
        else some ⟨seconds, nsec⟩ := by
  obtain ⟨htake, hdrop⟩ := numeral_append n hhead
  have hsign : (((if negative then [45] else []) ++ (numeral 10 n ++ fraction)).headD 0 == 45) = negative := by
    cases negative with
    | true => rfl
    | false =>
      obtain ⟨c, rest, hcons⟩ := exists_cons_of_ne_nil (@numeral_ne_nil 10 n)
      have hc := numeral_digits n c (by rw [hcons]; exact mem_cons_self)
      have hminus : c ≠ 45 := by
        intro heq
        rw [heq] at hc
        exact absurd hc (by decide)
      rw [hcons]
      simpa using hminus
  have hcursor : (if negative then ((if negative then [45] else []) ++ (numeral 10 n ++ fraction)).drop 1
      else (if negative then [45] else []) ++ (numeral 10 n ++ fraction)) = numeral 10 n ++ fraction := by
    cases negative with
    | true => rfl
    | false => rfl
  simp only [parsePaxTime]
  rw [hsign, hcursor, htake, hdrop, if_neg (numeral_ne_nil n), hfraction]
  simp only [ne_eq, not_true_eq_false, if_false, hexact]
  rfl

theorem fraction_digits {nsec : Nat} (h : nsec < 1000000000) :
    parseFractionalNanoseconds (46 :: paddedNumeral 10 9 nsec) = some (nsec, []) ∧
      ((46 :: paddedNumeral 10 9 nsec).drop 10).any (· != 48) = false := by
  have hdigits : ∀ c ∈ paddedNumeral 10 9 nsec, isDigit 10 c = true :=
    fun c hc => isDigit_of_mem_paddedNumeral (by decide) (by decide) hc
  have hlength := length_paddedNumeral 10 9 nsec
  have hne : paddedNumeral 10 9 nsec ≠ [] := by
    intro hnil
    simp [hnil] at hlength
  have htake : (paddedNumeral 10 9 nsec).takeWhile (isDigit 10) = paddedNumeral 10 9 nsec := by
    have happ := @takeWhile_append_of_pos _ _ _ [] hdigits
    simpa using happ
  have hdrop : (paddedNumeral 10 9 nsec).dropWhile (isDigit 10) = [] := by
    have happ := @dropWhile_append_of_pos _ _ _ [] hdigits
    simpa using happ
  refine ⟨?_, ?_⟩
  · simp only [parseFractionalNanoseconds, htake, hdrop]
    rw [if_neg hne, hlength, take_of_length_le (le_of_eq hlength),
      numeralValue_paddedNumeral (by decide) (by decide) (by simpa using h)]
    simp
  · rw [drop_of_length_le (by simp)]
    rfl

theorem strtoimax_nonneg {value : Int} (h : 0 ≤ value) (hhigh : value < 2 ^ 63) :
    strtoimax false (numeral 10 value.toNat) = some value := by
  simp only [strtoimax, numeralValue_decimal]
  rw [if_neg (by decide), if_pos (by omega)]
  congr 1
  omega

theorem strtoimax_negative {value : Int} (hlow : -2 ^ 63 ≤ value) (h : value ≤ 0) :
    strtoimax true (numeral 10 (-value).toNat) = some value := by
  simp only [strtoimax, numeralValue_decimal, if_true]
  rw [if_pos (by omega)]
  congr 1
  omega

theorem parsePaxTime_text {time : Timespec} (hnsec : time.nsec < 1000000000) (hlow : -2 ^ 63 ≤ time.sec)
    (hhigh : time.sec < 2 ^ 63) : parsePaxTime (paxMtimeText time) = some time := by
  obtain ⟨sec, nsec⟩ := time
  simp only at hnsec hlow hhigh
  by_cases hzero : nsec = 0
  · by_cases hneg : sec < 0
    · have hparts := @parsePaxTime_parts true (-sec).toNat [] 0 rfl rfl rfl
      rw [strtoimax_negative hlow (by omega)] at hparts
      simp only [paxMtimeText, hzero, signedNumeral, if_true, if_pos hneg]
      simpa using hparts
    · have hparts := @parsePaxTime_parts false sec.toNat [] 0 rfl rfl rfl
      rw [strtoimax_nonneg (by omega) hhigh] at hparts
      simp only [paxMtimeText, hzero, signedNumeral, if_true, if_neg hneg]
      simpa using hparts
  · by_cases hneg : sec < 0
    · obtain ⟨hfraction, hexact⟩ := @fraction_digits (1000000000 - nsec) (by omega)
      have hparts := parsePaxTime_parts true (-(sec + 1)).toNat rfl hfraction hexact
      have hrest : (1000000000 - nsec != 0) = true := by
        simp
        omega
      rw [strtoimax_negative (by omega) (by omega)] at hparts
      simp only [hrest, Bool.and_self, if_true] at hparts
      rw [if_neg (by omega)] at hparts
      have hsec : sec + 1 - 1 = sec := by omega
      have hback : 1000000000 - (1000000000 - nsec) = nsec := by omega
      rw [hsec, hback] at hparts
      simp only [paxMtimeText, if_neg hzero, if_pos hneg]
      simpa using hparts
    · obtain ⟨hfraction, hexact⟩ := fraction_digits hnsec
      have hparts := parsePaxTime_parts false sec.toNat rfl hfraction hexact
      rw [strtoimax_nonneg (by omega) hhigh] at hparts
      simp only [paxMtimeText, signedNumeral, if_neg hzero, if_neg hneg]
      simpa using hparts

end Bx.Tar
