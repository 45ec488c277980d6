import Bx.Archive.Source

/-!
# Extracting a payload

`bx_archive_copy_regular_payload` of `src/applets/archive/archive_common.c`. A sparse copy seeks over runs of zero
bytes, so the length is set at the end. No call fails, and a write takes at least one of the bytes it is given.
-/

namespace Bx.Archive

open Bx.Kit List

/-! ## The file that is written -/

/-- A file, the offset of its descriptor, and how many bytes each write to it takes -/
structure Target where
  content : Bytes
  offset : Nat := 0
  takes : Nat → Nat
  writes : Nat := 0

namespace Target
variable (target : Target)

/-- `write` of some bytes: they stand at the offset, after zeros where the file was shorter. -/
def write (data : Bytes) : Target × Nat :=
  let written := min data.length (max 1 (target.takes target.writes))
  ({ target with
      content := target.content.take target.offset ++ replicate (target.offset - target.content.length) 0 ++
        data.take written ++ target.content.drop (target.offset + written)
      offset := target.offset + written
      writes := target.writes + 1 }, written)

/-- `lseek` from where the descriptor is -/
def seek (span : Nat) : Target := { target with offset := target.offset + span }

def truncate (length : Nat) : Target :=
  { target with content := target.content.take length ++ replicate (length - target.content.length) 0 }

end Target

/-! ## Writing -/

def spanLimit : Nat := 65536

def writePayloadBytes : Nat → Target → Bytes → Target
  | 0, target, _ => target
  | fuel + 1, target, data =>
    if data = [] then target
    else
      let (target, written) := target.write (data.take spanLimit)
      writePayloadBytes fuel target (data.drop written)

def spanLength (zero : Bool) (data : Bytes) : Nat := ((data.take spanLimit).takeWhile fun b => (b == 0) == zero).length

def writeSparseSpan : Nat → Target → Bytes → Bool → Target × Bool
  | 0, target, _, usedSparse => (target, usedSparse)
  | fuel + 1, target, data, usedSparse =>
    match data with
    | [] => (target, usedSparse)
    | b :: _ =>
      if b = 0 then
        let span := spanLength true data
        writeSparseSpan fuel (target.seek span) (data.drop span) true
      else
        let span := spanLength false data
        writeSparseSpan fuel (writePayloadBytes span target (data.take span)) (data.drop span) usedSparse

def writePayloadSpan (target : Target) (data : Bytes) (sparse usedSparse : Bool) : Target × Bool :=
  if sparse then writeSparseSpan data.length target data usedSparse
  else (writePayloadBytes data.length target data, usedSparse)

def finishPayload (target : Target) (logicalEnd : Nat) (usedSparse : Bool) : Target :=
  if usedSparse then target.truncate logicalEnd else target

structure CopyState where
  source : Source
  target : Target
  copied : Nat := 0
  usedSparse : Bool := false

def copyStep (limit : Nat) (sparse : Bool) (s : CopyState) : CopyState ⊕ (Target × Nat) :=
  if s.copied < limit then
    let (data, source) := s.source.read (min (limit - s.copied) 65536)
    if data = [] then .inr (finishPayload s.target s.copied s.usedSparse, s.copied)
    else
      let (target, usedSparse) := writePayloadSpan s.target data sparse s.usedSparse
      .inl { source := source, target := target, copied := s.copied + data.length, usedSparse := usedSparse }
  else .inr (finishPayload s.target s.copied s.usedSparse, s.copied)

/-- The file that was written and how many bytes were copied. A negative limit is refused. -/
def copyRegularPayload (source : Source) (target : Target) (limit : Int) (sparse : Bool) : Option (Target × Nat) :=
  if limit < 0 then none
  else loop (copyStep limit.toNat sparse) (source.rest.length + 1) { source := source, target := target }

/-! ## What a file holds while it is copied -/

structure Copied (target : Target) (data : Bytes) (usedSparse : Bool) : Prop where
  offset : target.offset = data.length
  content : target.content ++ replicate (data.length - target.content.length) 0 = data
  dense : usedSparse = false → target.content.length = data.length

section
variable {target : Target} {data more : Bytes} {usedSparse : Bool}

section
variable (h : Copied target data usedSparse)
include h

theorem Copied.length_le : target.content.length ≤ data.length := by
  have hlength := congrArg List.length h.content
  rw [length_append] at hlength
  omega

theorem Copied.write (more : Bytes) :
    Copied (target.write more).1 (data ++ more.take (target.write more).2) usedSparse := by
  have hle := h.length_le
  have hoffset := h.offset
  have hfull : target.content.take data.length = target.content := take_of_length_le hle
  have hend : target.content.drop (data.length + (target.write more).2) = [] := drop_of_length_le (by omega)
  have hcontent : (target.write more).1.content = data ++ more.take (target.write more).2 := by
    unfold Target.write at hend ⊢
    dsimp only at hend ⊢
    rw [hoffset, hend, hfull, h.content, append_nil]
  have hwritten : (target.write more).2 ≤ more.length := Nat.min_le_left _ _
  refine ⟨?_, ?_, ?_⟩
  · have hnext : (target.write more).1.offset = target.offset + (target.write more).2 := rfl
    rw [hnext, hoffset, length_append, length_take, Nat.min_eq_left hwritten]
  · rw [hcontent, Nat.sub_self]
    exact append_nil _
  · intro _
    rw [hcontent]

theorem Copied.writeBytes {fuel : Nat} (hfuel : more.length ≤ fuel) :
    Copied (writePayloadBytes fuel target more) (data ++ more) usedSparse := by
  induction fuel generalizing target data more with
  | zero =>
    have hnil := eq_nil_of_length_eq_zero (Nat.le_zero.mp hfuel)
    rw [hnil, append_nil]
    exact h
  | succ fuel ih =>
    rw [writePayloadBytes]
    by_cases hnil : more = []
    · rw [if_pos hnil, hnil, append_nil]
      exact h
    · have hpos : 0 < more.length := length_pos_iff.mpr hnil
      have hwritten : (target.write (more.take spanLimit)).2 =
          min (min spanLimit more.length) (max 1 (target.takes target.writes)) := by
        unfold Target.write
        rw [length_take]
      have hlimit : 0 < spanLimit := by decide
      have hnext := h.write (more.take spanLimit)
      rw [take_take, min_eq_left (by omega)] at hnext
      have hshort : (more.drop (target.write (more.take spanLimit)).2).length ≤ fuel := by
        rw [length_drop]
        omega
      have hrest := ih hnext hshort
      rw [append_assoc, take_append_drop] at hrest
      rw [if_neg hnil]
      exact hrest

theorem Copied.seek (span : Nat) : Copied (target.seek span) (data ++ replicate span 0) true := by
  have hle := h.length_le
  refine ⟨?_, ?_, ?_⟩
  · have hnext : (target.seek span).offset = target.offset + span := rfl
    rw [hnext, h.offset, length_append, length_replicate]
  · have hsame : (target.seek span).content = target.content := rfl
    have hzeros : data.length + span - target.content.length = data.length - target.content.length + span := by omega
    rw [hsame, length_append, length_replicate, hzeros, ← replicate_append_replicate, ← append_assoc, h.content]
  · intro hused
    cases hused

theorem Copied.finish : (finishPayload target data.length usedSparse).content = data := by
  unfold finishPayload
  cases usedSparse with
  | false =>
    have hlength := h.dense rfl
    have hcontent := h.content
    rw [hlength, Nat.sub_self, replicate_zero, append_nil] at hcontent
    exact hcontent
  | true =>
    have hfull : target.content.take data.length = target.content := take_of_length_le h.length_le
    unfold Target.truncate
    rw [if_pos rfl]
    dsimp only
    rw [hfull, h.content]

end

/-! ## Spans -/

theorem spanLength_pos {zero : Bool} {b : UInt8} (hb : (b == 0) = zero) (rest : Bytes) :
    0 < spanLength zero (b :: rest) := by
  have hlimit : spanLimit = 65535 + 1 := rfl
  unfold spanLength
  rw [hlimit, take_succ_cons, takeWhile_cons_of_pos (by rw [hb]; exact beq_self_eq_true zero)]
  exact Nat.succ_pos _

theorem take_spanLength (zero : Bool) (data : Bytes) :
    data.take (spanLength zero data) = (data.take spanLimit).takeWhile fun b => (b == 0) == zero := by
  have hprefix : (data.take spanLimit).takeWhile (fun b => (b == 0) == zero) <+: data :=
    (List.takeWhile_prefix _).trans (List.take_prefix _ _)
  exact (prefix_iff_eq_take.mp hprefix).symm

theorem take_spanLength_zero (data : Bytes) :
    data.take (spanLength true data) = replicate (spanLength true data) 0 := by
  apply eq_replicate_iff.mpr
  rw [take_spanLength]
  refine ⟨rfl, ?_⟩
  intro b hb
  have hzero := all_eq_true.mp all_takeWhile b hb
  simpa using hzero

theorem Copied.writeSparse (h : Copied target data usedSparse) {fuel : Nat} (hfuel : more.length ≤ fuel) :
    Copied (writeSparseSpan fuel target more usedSparse).1 (data ++ more)
      (writeSparseSpan fuel target more usedSparse).2 := by
  induction fuel generalizing target data more usedSparse with
  | zero =>
    have hnil := eq_nil_of_length_eq_zero (Nat.le_zero.mp hfuel)
    rw [hnil, append_nil]
    exact h
  | succ fuel ih =>
    cases more with
    | nil =>
      rw [append_nil]
      exact h
    | cons b rest =>
      rw [writeSparseSpan]
      have hsplit : ∀ span, data ++ (b :: rest).take span ++ (b :: rest).drop span = data ++ (b :: rest) := by
        intro span
        rw [append_assoc, take_append_drop]
      have hshort : ∀ span, 0 < span → ((b :: rest).drop span).length ≤ fuel := by
        intro span hpos
        rw [length_cons] at hfuel
        rw [length_drop, length_cons]
        omega
      by_cases hb : b = 0
      · have hpos := @spanLength_pos true b (by rw [hb]; rfl) rest
        have hnext := h.seek (spanLength true (b :: rest))
        rw [← take_spanLength_zero] at hnext
        have hrest := ih hnext (hshort _ hpos)
        rw [hsplit] at hrest
        rw [if_pos hb]
        exact hrest
      · have hpos := @spanLength_pos false b (beq_eq_false_iff_ne.mpr hb) rest
        have hle : ((b :: rest).take (spanLength false (b :: rest))).length ≤ spanLength false (b :: rest) := by
          rw [length_take]
          exact Nat.min_le_left _ _
        have hrest := ih (h.writeBytes hle) (hshort _ hpos)
        rw [hsplit] at hrest
        rw [if_neg hb]
        exact hrest

theorem Copied.writeSpan (h : Copied target data usedSparse) (more : Bytes) (sparse : Bool) :
    Copied (writePayloadSpan target more sparse usedSparse).1 (data ++ more)
      (writePayloadSpan target more sparse usedSparse).2 := by
  unfold writePayloadSpan
  cases sparse with
  | true => exact h.writeSparse (le_rfl)
  | false => exact h.writeBytes (le_rfl)

end

/-! ## Whole copies -/

/-- The payload is what has been copied, up to the limit, and what is left of it. -/
structure Copying (payload : Bytes) (limit : Nat) (s : CopyState) (done : Bytes) : Prop where
  split : done ++ s.source.rest = payload
  length : done.length = s.copied
  within : s.copied ≤ limit
  copied : Copied s.target done s.usedSparse

section
variable {payload done : Bytes} {limit : Nat} {sparse : Bool} {s t : CopyState}

theorem copyStep_go (h : Copying payload limit s done) (hstep : copyStep limit sparse s = .inl t) :
    (∃ done, Copying payload limit t done) ∧ t.source.rest.length < s.source.rest.length := by
  obtain ⟨hsplit, hlength, hwithin, hcopied⟩ := h
  unfold copyStep at hstep
  by_cases hmore : s.copied < limit
  · rw [if_pos hmore] at hstep
    have happend := s.source.read_append (min (limit - s.copied) 65536)
    have hread := s.source.length_read_le (min (limit - s.copied) 65536)
    generalize s.source.read (min (limit - s.copied) 65536) = read at hstep happend hread
    obtain ⟨data, source⟩ := read
    dsimp only at hstep happend hread
    by_cases hnil : data = []
    · rw [if_pos hnil] at hstep
      cases hstep
    · have hpos : 0 < data.length := length_pos_iff.mpr hnil
      rw [if_neg hnil] at hstep
      cases hstep
      refine ⟨⟨done ++ data, ?_, ?_, ?_, ?_⟩, ?_⟩
      · rw [← hsplit, ← happend, append_assoc]
      · rw [length_append, hlength]
      · dsimp only
        omega
      · exact hcopied.writeSpan data sparse
      · dsimp only
        rw [← happend, length_append]
        omega
  · rw [if_neg hmore] at hstep
    cases hstep

theorem copyStep_leave (h : Copying payload limit s done) {r : Target × Nat}
    (hstep : copyStep limit sparse s = .inr r) :
    r.1.content = payload.take limit ∧ r.2 = (payload.take limit).length := by
  obtain ⟨hsplit, hlength, hwithin, hcopied⟩ := h
  have hfinish := hcopied.finish
  rw [hlength] at hfinish
  have hall : done = payload.take limit → r = (finishPayload s.target s.copied s.usedSparse, s.copied) →
      r.1.content = payload.take limit ∧ r.2 = (payload.take limit).length := by
    intro hdone hr
    rw [hr, ← hdone]
    exact ⟨hfinish, hlength.symm⟩
  unfold copyStep at hstep
  by_cases hmore : s.copied < limit
  · rw [if_pos hmore] at hstep
    have hend := @Source.read_eq_nil s.source (min (limit - s.copied) 65536)
    generalize s.source.read (min (limit - s.copied) 65536) = read at hstep hend
    obtain ⟨data, source⟩ := read
    dsimp only at hstep hend
    by_cases hnil : data = []
    · rw [if_pos hnil] at hstep
      rw [(hend (by omega)).mp hnil, append_nil] at hsplit
      apply hall
      · rw [← hsplit, take_of_length_le (by omega)]
      · cases hstep
        rfl
    · simp [hnil] at hstep
  · rw [if_neg hmore] at hstep
    apply hall
    · rw [← hsplit, take_left' (by omega)]
    · cases hstep
      rfl

end

/-- **Main result.** However the payload is delivered and however the writes are cut, an empty file becomes the payload
up to the limit, sparse or not. -/
theorem copyRegularPayload_content (payload : Bytes) (gives takes : Nat → Nat) (limit : Nat) (sparse : Bool) :
    ∃ target, copyRegularPayload { rest := payload, gives := gives } { content := [], takes := takes } limit sparse =
        some (target, (payload.take limit).length) ∧
      target.content = payload.take limit := by
  have hstart : Copying payload limit
      { source := { rest := payload, gives := gives }, target := { content := [], takes := takes } } [] :=
    ⟨rfl, rfl, Nat.zero_le limit, rfl, rfl, fun _ => rfl⟩
  obtain ⟨r, hloop, hcontent, hcopied⟩ := @loop_of_measure _ _ (copyStep limit sparse)
    (fun s => ∃ done, Copying payload limit s done)
    (fun r => r.1.content = payload.take limit ∧ r.2 = (payload.take limit).length) (fun s => s.source.rest.length)
    (fun _ _ h hstep => copyStep_go h.choose_spec hstep) (fun _ _ h hstep => copyStep_leave h.choose_spec hstep)
    _ _ ⟨[], hstart⟩ (Nat.lt_succ_self payload.length)
  refine ⟨r.1, ?_, hcontent⟩
  unfold copyRegularPayload
  rw [if_neg (by omega), Int.toNat_natCast, hloop, ← hcopied]

example : (copyRegularPayload { rest := [7, 0, 0], gives := fun _ => 2 } { content := [], takes := fun _ => 1 } 9
    true).map (fun copied => (copied.1.content, copied.1.writes)) = some ([7, 0, 0], 1) := by
  decide

end Bx.Archive
