import Bx.Kit.Overlap
import Bx.Search.RawPresence
import Bx.Search.RecordStreamSound

/-!
# The needle is found across chunks

However `fread` splits the file, the chunk with the bytes in front of it has the needle
as soon as all bytes read so far have it: what is kept is one byte shorter than the needle, or
all there was.
-/

namespace Bx.RawPresence

open Bx.Kit Bx.Literal Bx.RecordStream List

/-! ## The overlap of chunks -/

theorem prependCarry_eq {buf : Bytes} {carry : Nat} (h : carry ≤ buf.length) : prependCarry buf carry = buf.rtake carry := by
  unfold prependCarry preserveSuffix rtake
  rw [if_pos h]
  by_cases hzero : carry = 0
  · rw [hzero, take_zero, Nat.sub_zero, drop_length]
  · have hkept : (buf.drop (buf.length - carry)).length = carry := by
      rw [length_drop]
      omega
    rw [if_neg (by simp [hzero]; omega), take_append_of_le_length (le_of_eq hkept.symm)]
    exact take_of_length_le (le_of_eq hkept)

theorem carryLen_eq (scanLen overlapLen : Nat) : carryLen scanLen overlapLen = min overlapLen scanLen := by
  unfold carryLen
  by_cases h : overlapLen < scanLen
  · rw [if_pos h, Nat.min_eq_left (Nat.le_of_lt h)]
  · rw [if_neg h, Nat.min_eq_right (Nat.le_of_not_lt h)]

theorem minOverlapLen_eq {needle : Bytes} {backend : Backend} (hne : needle ≠ []) :
    (scanPlanCompile needle backend).minOverlapLen = needle.length - 1 := if_pos (length_pos_iff.mpr hne)

/-! ## The buffer -/

theorem growStep_spec {needed newCap : Nat} (hpos : 0 < newCap) :
    match growStep needed newCap with
    | .inl next => newCap < next ∧ newCap < needed
    | .inr (some r) => needed ≤ r
    | .inr none => sizeMax / 2 < needed := by
  unfold growStep
  by_cases hroom : newCap < needed
  · rw [if_pos hroom]
    by_cases hmax : newCap > sizeMax / 2
    · rw [if_pos hmax]
      exact Nat.lt_trans hmax hroom
    · rw [if_neg hmax]
      exact ⟨by omega, hroom⟩
  · rw [if_neg hroom]
    exact Nat.le_of_not_lt hroom

theorem grow_spec {needed newCap : Nat} (hpos : 0 < newCap) :
    ∃ r, loop (growStep needed) (needed + 1) newCap = some r ∧ (∀ cap ∈ r, needed ≤ cap) ∧
      (r = none → sizeMax / 2 < needed) := by
  apply loop_of_measure (fun cap => 0 < cap) (fun r => (∀ cap ∈ r, needed ≤ cap) ∧ (r = none → sizeMax / 2 < needed))
    (fun cap => needed - cap)
  · intro cap next hcap hstep
    have h := @growStep_spec needed cap hcap
    rw [hstep] at h
    obtain ⟨hlt, hneeded⟩ := h
    exact ⟨Nat.lt_trans hcap hlt, by show needed - next < needed - cap; omega⟩
  · intro cap r hcap hstep
    have h := @growStep_spec needed cap hcap
    rw [hstep] at h
    cases r with
    | none => exact ⟨by simp, fun _ => h⟩
    | some r => exact ⟨by simpa using h, by simp⟩
  · exact hpos
  · omega

variable {alloc : Nat → Bool} {scanner reserved : Scanner} {needed : Nat}

theorem reserveBuffer_spec (h : reserveBuffer alloc scanner needed = some reserved) : reserved.buf = scanner.buf ∧ needed ≤ reserved.cap := by
  unfold reserveBuffer at h
  by_cases hcap : scanner.cap ≥ needed
  · rw [if_pos hcap] at h
    obtain rfl := Option.some.inj h
    exact ⟨rfl, hcap⟩
  · rw [if_neg hcap] at h
    obtain ⟨r, hr, hle, _⟩ := @grow_spec needed (if scanner.cap = 0 then chunkCap else scanner.cap)
      (by unfold chunkCap; split <;> omega)
    rw [hr] at h
    cases r with
    | none => cases h
    | some newCap =>
      obtain ⟨_, hsome⟩ := Option.ite_none_right_eq_some.mp h
      obtain rfl := Option.some.inj hsome
      exact ⟨rfl, hle newCap rfl⟩

theorem reserveBuffer_isSome (halloc : ∀ size, alloc size = true) (scanner : Scanner)
    (h : needed ≤ sizeMax / 2) : (reserveBuffer alloc scanner needed).isSome = true := by
  unfold reserveBuffer
  by_cases hcap : scanner.cap ≥ needed
  · rw [if_pos hcap]
    rfl
  · rw [if_neg hcap]
    obtain ⟨r, hr, _, hnone⟩ := @grow_spec needed (if scanner.cap = 0 then chunkCap else scanner.cap)
      (by unfold chunkCap; split <;> omega)
    rw [hr]
    cases r with
    | none => exact absurd (hnone rfl) (by omega)
    | some newCap =>
      show (if alloc newCap = true then some { scanner with cap := newCap } else none).isSome = true
      rw [if_pos (halloc newCap)]
      rfl

section
variable {needle stream : Bytes} {backend : Backend} {error : Option Nat} {seen : Bytes} {s : Scan}

/-- What the loop knows before it reads: the bytes seen do not have the needle, and enough of them are kept. -/
structure Scan.Inv (needle stream seen : Bytes) (s : Scan) : Prop where
  split : seen ++ s.file.rest = stream
  absent : ¬needle <:+: seen
  suffix : s.scanner.buf <:+ seen
  carry_le : s.carry ≤ s.scanner.buf.length
  carry_overlap : s.carry ≤ needle.length - 1
  enough : min seen.length (needle.length - 1) ≤ s.carry
  room : chunkCap + (needle.length - 1) ≤ s.scanner.cap

theorem Scan.Inv.read (h : s.Inv needle stream seen) : ∃ kept,
    s.read.2.scanner.buf = kept ++ s.read.1 ∧ kept <:+ seen ∧ kept.length = s.carry ∧
      s.read.1 ++ s.read.2.file.rest = s.file.rest ∧ (s.read.1 = [] → s.file.rest = []) := by
  have hkept : prependCarry s.scanner.buf s.carry = s.scanner.buf.rtake s.carry := prependCarry_eq h.carry_le
  have hlen : (s.scanner.buf.rtake s.carry).length = s.carry := by
    rw [length_rtake, min_eq_left h.carry_le]
  have hcap : 0 < s.scanner.cap - (prependCarry s.scanner.buf s.carry).length := by
    have hroom := h.room
    have hle := h.carry_overlap
    unfold chunkCap at hroom
    rw [hkept, hlen]
    omega
  obtain ⟨hsplit, hend⟩ := fread_split s.file hcap
  refine ⟨_, ?_, (rtake_suffix _ s.carry).trans h.suffix, hlen, hsplit, hend⟩
  rw [← hkept]
  rfl

theorem Scan.find_spec (hne : needle ≠ []) (h : s.Inv needle stream seen) :
    ∃ found, s.read.2.find (scanPlanCompile needle backend) = some found ∧
      (found.isSome = true ↔ needle <:+: seen ++ s.read.1) := by
  obtain ⟨kept, hbuf, hsuffix, hkept, _, _⟩ := h.read
  have hcarry : s.read.2.carry = s.carry := rfl
  have hacross := @infix_append_of_tail _ needle seen kept s.read.1 hsuffix (by rw [hkept]; exact h.enough)
  unfold Scan.find hasFreshBytes
  rw [hbuf, hcarry, minOverlapLen_eq hne, length_append, hkept]
  by_cases hchunk : s.read.1 = []
  · rw [hchunk, append_nil, if_neg (by simp)]
    exact ⟨none, rfl, by simpa using h.absent⟩
  · have hpos := length_pos_iff.mpr hchunk
    have hstart : scanStart s.carry (needle.length - 1) = 0 := if_neg (Nat.not_lt.mpr h.carry_overlap)
    obtain ⟨found, hfound, hiff⟩ := (@scanAbsent_finds needle (kept ++ s.read.1) backend hne).isSome_iff hne
    rw [if_pos (by simpa using hpos), hstart]
    simp only [drop_zero]
    rw [hfound]
    refine ⟨_, rfl, ?_⟩
    rw [Option.isSome_map, hiff, hacross]
    exact ⟨.inr, fun hin => hin.resolve_left h.absent⟩

/-! ## The loop -/

structure Left.Exact (needle stream : Bytes) (error : Option Nat) (left : Left) : Prop where
  found : left.status = 0 ↔ needle <:+: stream
  failed : left.status = 2 ↔ ¬needle <:+: stream ∧ error.isSome = true
  status_le : left.status ≤ 2
  counted : left.fileMatches = if needle <:+: stream then 1 else 0

theorem Scan.found_exact (h : needle <:+: stream) : s.found.Exact needle stream error := by
  refine ⟨?_, ?_, ?_, ?_⟩
  · exact ⟨fun _ => h, fun _ => rfl⟩
  · refine ⟨?_, fun hnot => absurd h hnot.1⟩
    intro hstatus
    cases hstatus
  · exact Nat.zero_le 2
  · rw [if_pos h]
    rfl

theorem Scan.atEnd_exact (h : ¬needle <:+: stream) : (s.atEnd error).Exact needle stream error := by
  cases error with
  | none =>
    have hstatus : (s.atEnd none).status = 1 := rfl
    refine ⟨?_, ?_, ?_, (if_neg h).symm⟩
    · rw [hstatus]
      exact ⟨fun hzero => absurd hzero Nat.one_ne_zero, fun hin => absurd hin h⟩
    · rw [hstatus]
      exact ⟨fun htwo => absurd htwo (by decide), fun hsome => absurd hsome.2 Bool.false_ne_true⟩
    · rw [hstatus]
      decide
  | some errno =>
    have hstatus : (s.atEnd (some errno)).status = 2 := rfl
    refine ⟨?_, ?_, ?_, (if_neg h).symm⟩
    · rw [hstatus]
      exact ⟨fun hzero => absurd hzero (by decide), fun hin => absurd hin h⟩
    · rw [hstatus]
      exact ⟨fun _ => ⟨h, rfl⟩, fun _ => rfl⟩
    · rw [hstatus]

section
variable (hne : needle ≠ []) (h : s.Inv needle stream seen)
include hne h

theorem Scan.next_inv (habsent : ¬needle <:+: seen ++ s.read.1) :
    (s.read.2.next (scanPlanCompile needle backend)).Inv needle stream (seen ++ s.read.1) := by
  obtain ⟨kept, hbuf, hsuffix, hkept, hsplit, _⟩ := h.read
  have hcarry : (s.read.2.next (scanPlanCompile needle backend)).carry =
      min (needle.length - 1) (s.carry + s.read.1.length) := by
    show carryLen s.read.2.scanner.buf.length (scanPlanCompile needle backend).minOverlapLen = _
    rw [carryLen_eq, minOverlapLen_eq hne, hbuf, length_append, hkept]
  have hlen : s.read.2.scanner.buf.length = s.carry + s.read.1.length := by
    rw [hbuf, length_append, hkept]
  refine ⟨?_, habsent, ?_, ?_, ?_, ?_, h.room⟩
  · rw [append_assoc]
    exact (congrArg (seen ++ ·) hsplit).trans h.split
  · show s.read.2.scanner.buf <:+ _
    obtain ⟨before, hbefore⟩ := hsuffix
    refine ⟨before, ?_⟩
    rw [hbuf, ← append_assoc, hbefore]
  · rw [hcarry]
    exact (Nat.min_le_right _ _).trans (le_of_eq hlen.symm)
  · rw [hcarry]
    exact Nat.min_le_left _ _
  · have henough := h.enough
    rw [hcarry, length_append]
    omega

theorem Scan.step_spec :
    match s.step (scanPlanCompile needle backend) error with
    | .inl next => next.Inv needle stream (seen ++ s.read.1) ∧ next.file.rest.length < s.file.rest.length
    | .inr r => ∃ left, r = some left ∧ left.Exact needle stream error := by
  obtain ⟨kept, hbuf, hsuffix, hkept, hsplit, hend⟩ := h.read
  obtain ⟨found, hfound, hiff⟩ := @find_spec needle stream backend seen s hne h
  unfold Scan.step
  rw [hfound]
  cases found with
  | some p =>
    have hin := hiff.mp rfl
    refine ⟨_, rfl, Scan.found_exact ?_⟩
    rw [← h.split, ← hsplit, ← append_assoc]
    exact hin.trans (prefix_append _ _).isInfix
  | none =>
    have habsent : ¬needle <:+: seen ++ s.read.1 := fun hin => absurd (hiff.mpr hin) Bool.false_ne_true
    by_cases hchunk : s.read.1 = []
    · simp only [hchunk, if_true]
      refine ⟨_, rfl, Scan.atEnd_exact ?_⟩
      rw [← h.split, hend hchunk, append_nil]
      exact h.absent
    · simp only [hchunk, if_false]
      refine ⟨Scan.next_inv hne h habsent, ?_⟩
      have hpos := length_pos_iff.mpr hchunk
      rw [← hsplit, length_append]
      exact Nat.lt_add_of_pos_left hpos

theorem loop_exact {fuel : Nat} (hfuel : s.file.rest.length < fuel) :
    ∃ r, loop (Scan.step (scanPlanCompile needle backend) error) fuel s = some r ∧
      ∃ left, r = some left ∧ left.Exact needle stream error := by
  apply loop_of_measure (fun t : Scan => ∃ seen, t.Inv needle stream seen)
    (fun r : Option Left => ∃ left, r = some left ∧ left.Exact needle stream error) (fun t => t.file.rest.length)
  · intro t next ⟨seen, ht⟩ hstep
    have hspec := @Scan.step_spec needle stream backend error seen t hne ht
    rw [hstep] at hspec
    exact ⟨⟨_, hspec.1⟩, hspec.2⟩
  · intro t r ⟨seen, ht⟩ hstep
    have hspec := @Scan.step_spec needle stream backend error seen t hne ht
    rw [hstep] at hspec
    exact hspec
  · exact ⟨seen, h⟩
  · exact hfuel

end

end

/-! ## The search -/

section
variable {needle stream : Bytes} {error : Option Nat} {left : Left}

/-- A run says whether the stream has the needle: with its status, in the count and with the paths it prints. -/
structure Run.Reports (needle : Bytes) (input : Input) (displayName : Option Bytes) (opts : SearchOpts)
    (matchCount : Option Nat) (run : Run) : Prop where
  found : run.status = 0 ↔ needle <:+: input.file.rest
  failed : run.status = 2 ↔ ¬needle <:+: input.file.rest ∧ input.error.isSome = true
  status_le : run.status ≤ 2
  counted : run.matchCount = matchCount.map (· + if needle <:+: input.file.rest then 1 else 0)
  printed : ∀ name, .pathRecord name ∈ run.output ↔ displayName = some name ∧
    (opts.filesWithMatches = true ∧ run.status = 0 ∨ opts.filesWithoutMatch = true ∧ run.status = 1)

variable {displayName : Option Bytes} {input : Input} {matchCount : Option Nat} {stats : Option Stats}
  {opts : SearchOpts} {useStdin : Bool} {plan : ScanPlan}

theorem mem_pathRecord {wanted : Bool} {name : Bytes} :
    .pathRecord name ∈ pathRecord wanted displayName ↔ displayName = some name ∧ wanted = true := by
  unfold pathRecord
  cases wanted <;> simp

theorem Left.Exact.matches_of_status (h : left.Exact needle stream error) :
    left.fileMatches = if left.status = 0 then 1 else 0 := by
  rw [h.counted]
  by_cases hin : needle <:+: stream
  · rw [if_pos hin, if_pos (h.found.mpr hin)]
  · rw [if_neg hin, if_neg (fun hzero => hin (h.found.mp hzero))]

theorem Left.Exact.printed (h : left.Exact needle stream error) (displayName : Option Bytes) (opts : SearchOpts)
    (name : Bytes) : .pathRecord name ∈ left.output displayName opts ↔ displayName = some name ∧
      (opts.filesWithMatches = true ∧ left.status = 0 ∨ opts.filesWithoutMatch = true ∧ left.status = 1) := by
  have hle := h.status_le
  unfold Left.output
  rw [h.matches_of_status]
  by_cases htwo : left.status = 2
  · rw [if_neg (by simpa using htwo)]
    by_cases hsuppress : opts.suppressErrors = true
    · simp [hsuppress, htwo]
    · simp [hsuppress, htwo]
  · rw [if_pos htwo, mem_append, mem_pathRecord, mem_pathRecord, ← and_or_left]
    by_cases hzero : left.status = 0
    · simp [hzero]
    · have hone : left.status = 1 := by omega
      simp [hone]

theorem Left.Exact.reports (h : left.Exact needle input.file.rest input.error) (useStdin : Bool)
    (displayName : Option Bytes) (opts : SearchOpts) (matchCount : Option Nat) :
    (left.finish useStdin displayName opts matchCount).Reports needle input displayName opts matchCount := by
  refine ⟨h.found, h.failed, h.status_le, ?_, h.printed displayName opts⟩
  show (if left.status ≠ 2 then matchCount.map (· + left.fileMatches) else matchCount) = _
  by_cases htwo : left.status = 2
  · rw [if_neg (by simpa using htwo), if_neg (h.failed.mp htwo).1]
    exact Option.map_id'.symm
  · rw [if_pos htwo, h.counted]

theorem initial_inv (hne : needle ≠ []) (hbuf : scanner.buf = [])
    (hcap : chunkCap + (needle.length - 1) ≤ scanner.cap) (file : RecordStream.File) (stats : Option Stats) :
    Scan.Inv needle file.rest [] { scanner, file, stats } := by
  refine ⟨rfl, ?_, ?_, Nat.zero_le _, Nat.zero_le _, Nat.min_le_left 0 _, hcap⟩
  · rw [infix_nil]
    exact hne
  · rw [hbuf]

theorem rawPresenceOpened_full (h : reserveBuffer alloc { scanner with buf := [] } (chunkCap + plan.minOverlapLen) = none) :
    rawPresenceOpened alloc input useStdin displayName (some plan) opts matchCount scanner stats =
      some ⟨2, matchCount, { scanner with buf := [] }, stats, !useStdin, []⟩ := by
  unfold rawPresenceOpened
  dsimp only
  rw [h]

theorem rawPresenceOpened_reserved (h : reserveBuffer alloc { scanner with buf := [] } (chunkCap + plan.minOverlapLen) = some reserved)
    (hloop : loop (Scan.step plan input.error) (input.file.rest.length + 1) ⟨reserved, input.file, 0, false, stats⟩ =
      some (some left)) :
    rawPresenceOpened alloc input useStdin displayName (some plan) opts matchCount scanner stats =
      some (left.finish useStdin displayName opts matchCount) := by
  unfold rawPresenceOpened
  dsimp only
  rw [h]
  dsimp only
  rw [hloop]
  rfl

/-- **Main result.** With room for the buffer, a needle that has an absence plan is reported if and only if it occurs
in the stream, on every backend and however `fread` splits the stream. -/
theorem rawPresence_exact {ignoreCase localeUtf8Upper : Bool} {backend : Backend} {plan : ScanPlan}
    (hplan : absencePlan ignoreCase localeUtf8Upper (scanPlanCompile needle backend) = some plan)
    (alloc : Nat → Bool) (input : Input) (useStdin : Bool) (displayName : Option Bytes) (opts : SearchOpts)
    (matchCount : Option Nat) (scanner : Scanner) (stats : Option Stats) :
    ∃ run, rawPresenceOpened alloc input useStdin displayName (some plan) opts matchCount scanner stats = some run ∧
      if (reserveBuffer alloc { scanner with buf := [] } (chunkCap + plan.minOverlapLen)).isSome = true then
        run.Reports needle input displayName opts matchCount
      else run.status = 2 ∧ run.matchCount = matchCount ∧ run.output = [] := by
  obtain ⟨hadmitted, hsome⟩ := Option.ite_none_left_eq_some.mp hplan
  obtain rfl := Option.some.inj hsome
  have hne : needle ≠ [] := by
    intro hnil
    apply hadmitted
    rw [hnil]
    simp [scanPlanCompile, LitPlan.needleLen, planCompile]
  cases hreserve : reserveBuffer alloc { scanner with buf := [] } (chunkCap + (scanPlanCompile needle backend).minOverlapLen)
    with
  | none =>
    refine ⟨_, rawPresenceOpened_full hreserve, ?_⟩
    exact ⟨rfl, rfl, rfl⟩
  | some reserved =>
    obtain ⟨hbuf, hcap⟩ := reserveBuffer_spec hreserve
    rw [minOverlapLen_eq hne] at hcap
    obtain ⟨r, hr, left, rfl, hexact⟩ := @loop_exact needle input.file.rest backend input.error [] _ hne
      (initial_inv hne hbuf hcap input.file stats) _ (Nat.lt_succ_self _)
    exact ⟨_, rawPresenceOpened_reserved hreserve hr, hexact.reports useStdin displayName opts matchCount⟩

end

/-- A needle of three bytes that comes byte by byte -/
theorem rawPresence_exact_small : ∃ run,
    rawPresenceOpened (fun _ => true) ⟨⟨[97, 110, 101, 119], [1, 1, 1, 1]⟩, none⟩ false (some [102])
      (absencePlan false false (scanPlanCompile [110, 101, 119] .avx2)) { filesWithMatches := true } (some 0) ⟨[], 0⟩ none =
        some run ∧ run.status = 0 ∧ run.matchCount = some 1 := by
  obtain ⟨run, hrun, hreports⟩ := @rawPresence_exact [110, 101, 119] false false .avx2 _ rfl (fun _ => true)
    ⟨⟨[97, 110, 101, 119], [1, 1, 1, 1]⟩, none⟩ false (some [102])
    { filesWithMatches := true } (some 0) ⟨[], 0⟩ none
  rw [if_pos (reserveBuffer_isSome (fun _ => rfl) _ (by decide))] at hreports
  have hin : [110, 101, 119] <:+: ([97, 110, 101, 119] : Bytes) := ⟨[97], [], rfl⟩
  refine ⟨run, hrun, hreports.found.mpr hin, ?_⟩
  rw [hreports.counted, if_pos hin]
  rfl

end Bx.RawPresence
