import Bx.Kit.Bytes
import Mathlib.Data.List.TakeDrop

/-!
# Archive inputs: skipping by seeking and by reading

The input of `src/applets/archive/archive_codec.c` over a regular file that does not change. The first bytes are read
into a buffer to tell the format. What is skipped is read and dropped or, where seeking is enabled, sought over. A read
gets all of the bytes asked for that are there.
-/

namespace Bx.Tar.CodecInput

open Bx.Kit List

def decodeBufferSize : Nat := 8192

def longMax : Nat := 2 ^ 63 - 1

inductive Codec
  | none
  | gzip
  | bzip2
  | xz
  | zstd
  deriving DecidableEq

inductive SeekMode
  | auto
  | force
  | disable
  deriving DecidableEq

/-- The size is an `off_t`. -/
structure RegularFile where
  content : Bytes
  fits : content.length ≤ longMax

def RegularFile.size (file : RegularFile) : Nat := file.content.length

/-- `source` is the offset of the descriptor, `decoder` the codec that has been found. -/
structure Input where
  source : Nat
  decodeBuffer : Bytes := []
  decodePos : Nat := 0
  sourceEof : Bool := false
  decoder : Option Codec := none
  requiredCodec : Option Codec
  checkedMode : Bool := false
  detectAll : Bool
  plainSeekable : Bool := false
  forceSeek : Bool
  plainSize : Nat := 0
  logicalOffset : Nat := 0

/-- `decoder` stands for all that comes of a compressed archive. -/
inductive Failure
  | truncated
  | notGzip
  | readError
  | decoder (codec : Codec)
  deriving DecidableEq

/-! ## Opening -/

def detectMagic (data : Bytes) : Option Codec :=
  if [0x1f, 0x8b].isPrefixOf data then some .gzip
  else if [0x42, 0x5a, 0x68].isPrefixOf data then some .bzip2
  else if [0xfd, 0x37, 0x7a, 0x58, 0x5a, 0x00].isPrefixOf data then some .xz
  else if [0x28, 0xb5, 0x2f, 0xfd].isPrefixOf data then some .zstd
  else none

def startDecoder (input : Input) (codec : Codec) : Input :=
  { input with requiredCodec := some codec, checkedMode := true, decoder := some codec }

/-- The descriptor is at `offset` when the input is opened. -/
def inputOpen (file : RegularFile) (offset : Nat) (requiredCodec : Option Codec) (mode : SeekMode) : Input :=
  let inside := offset ≤ file.size
  let input : Input :=
    { source := offset
      requiredCodec := requiredCodec
      detectAll := requiredCodec.isNone
      plainSeekable := inside && mode ≠ .disable
      forceSeek := mode = .force
      plainSize := if inside then file.size - offset else 0 }
  match requiredCodec with
  | some .bzip2 => startDecoder input .bzip2
  | some .xz => startDecoder input .xz
  | some .zstd => startDecoder input .zstd
  | _ => input

/-! ## Reading and skipping -/

section
variable (file : RegularFile)

def fdRead (source len : Nat) : Bytes := (file.content.drop source).take len

def fillBuffer (needed : Nat) : Nat → Input → Input
  | 0, input => input
  | fuel + 1, input =>
    if input.decodeBuffer.length < needed ∧ input.sourceEof = false then
      let data := fdRead file input.source (decodeBufferSize - input.decodeBuffer.length)
      fillBuffer needed fuel
        { input with
          source := input.source + data.length
          sourceEof := data.isEmpty
          decodeBuffer := input.decodeBuffer ++ data }
    else input

def foundCodec (input : Input) : Option Codec :=
  let found := detectMagic input.decodeBuffer
  if !input.detectAll && found ≠ some .gzip then none else found

def settleFormat (input : Input) : Input × Option Failure :=
  let codec := foundCodec input
  if input.requiredCodec = some .gzip ∧ codec ≠ some .gzip then (input, some .notGzip)
  else
    match codec with
    | some codec => (startDecoder input codec, none)
    | none => ({ input with checkedMode := true }, none)

def neededBytes (input : Input) : Nat := if input.detectAll then 6 else 2

def checkMode (input : Input) : Input × Option Failure :=
  if input.checkedMode then (input, none)
  else settleFormat (fillBuffer file (neededBytes input) (neededBytes input + 1) input)

def readPlain (input : Input) (len : Nat) : Input × Bytes :=
  let len := min len decodeBufferSize
  let remaining := input.decodeBuffer.length - input.decodePos
  if remaining ≠ 0 then
    let data := (input.decodeBuffer.drop input.decodePos).take (min remaining len)
    ({ input with decodePos := input.decodePos + data.length, logicalOffset := input.logicalOffset + data.length },
      data)
  else
    let data := if input.sourceEof then [] else fdRead file input.source len
    ({ input with
        source := input.source + data.length
        sourceEof := data.isEmpty
        logicalOffset := input.logicalOffset + data.length }, data)

def readSome (input : Input) (len : Nat) : Input × Except Failure Bytes :=
  if len = 0 then (input, .ok [])
  else
    match checkMode file input with
    | (input, some failure) => (input, .error failure)
    | (input, none) =>
      match input.decoder with
      | some codec => (input, .error (.decoder codec))
      | none =>
        let (input, data) := readPlain file input len
        (input, .ok data)

/-- The offset goes at most `LONG_MAX` forward at a time, and no further than an `off_t`. What is
left to skip is returned. -/
def seekForward : Nat → Input → Nat → Input × Except Failure Nat
  | 0, input, len => (input, .ok len)
  | fuel + 1, input, len =>
    if len = 0 then (input, .ok 0)
    else
      let chunk := min len longMax
      if input.source + chunk > longMax then
        if !input.plainSeekable then ({ input with forceSeek := false }, .ok len) else (input, .error .readError)
      else
        seekForward fuel
          { input with source := input.source + chunk, logicalOffset := input.logicalOffset + chunk } (len - chunk)

def skipDirectSeek (input : Input) (len : Nat) : Input × Except Failure Nat :=
  if input.plainSeekable && (input.logicalOffset > input.plainSize || len > input.plainSize - input.logicalOffset) then
    (input, .error .truncated)
  else
    let buffered := min (input.decodeBuffer.length - input.decodePos) len
    seekForward (len - buffered)
      { input with decodePos := input.decodePos + buffered, logicalOffset := input.logicalOffset + buffered }
      (len - buffered)

def skipByReading : Nat → Input → Nat → Input × Option Failure
  | 0, input, _ => (input, none)
  | fuel + 1, input, len =>
    if len = 0 then (input, none)
    else
      match readSome file input (min len decodeBufferSize) with
      | (input, .error failure) => (input, some failure)
      | (input, .ok data) => if data =
        [] then (input, some .truncated) else skipByReading fuel input (len - data.length)

def skip (input : Input) (len : Nat) : Input × Option Failure :=
  if len = 0 then (input, none)
  else
    match checkMode file input with
    | (input, some failure) => (input, some failure)
    | (input, none) =>
      if input.decoder = none ∧ (input.plainSeekable || input.forceSeek) = true then
        match skipDirectSeek input len with
        | (input, .error failure) => (input, some failure)
        | (input, .ok left) => skipByReading file left input left
      else skipByReading file len input len

def totalBytesRead (input : Input) : Nat := input.logicalOffset

/-! ## Sessions -/

inductive Request
  | readSome (len : Nat)
  | skip (len : Nat)

inductive Reply
  | bytes (data : Bytes)
  | skipped
  | failed (failure : Failure)
  deriving DecidableEq

def answer (input : Input) : Request → Input × Reply
  | .readSome len =>
    match readSome file input len with
    | (input, .ok data) => (input, .bytes data)
    | (input, .error failure) => (input, .failed failure)
  | .skip len =>
    match skip file input len with
    | (input, none) => (input, .skipped)
    | (input, some failure) => (input, .failed failure)

/-- The replies, each with the logical position it starts from, up to the first that fails, and the
total where none does -/
def session (input : Input) : List Request → List (Nat × Reply) × Option Nat
  | [] => ([], some (totalBytesRead input))
  | request :: requests =>
    match answer file input request with
    | (_, .failed failure) => ([(totalBytesRead input, .failed failure)], none)
    | (next, reply) =>
      let rest := session next requests
      ((totalBytesRead input, reply) :: rest.1, rest.2)

end

/-! ## Inputs that differ in their modes only -/

def Input.withMode (input : Input) (plainSeekable forceSeek : Bool) : Input :=
  { input with plainSeekable := plainSeekable, forceSeek := forceSeek }

section
variable {file : RegularFile} {input : Input} {start len : Nat} (plainSeekable forceSeek : Bool)

theorem fillBuffer_withMode (needed fuel : Nat) (input : Input) :
    fillBuffer file needed fuel (input.withMode plainSeekable forceSeek) =
      (fillBuffer file needed fuel input).withMode plainSeekable forceSeek := by
  induction fuel generalizing input with
  | zero => rfl
  | succ fuel ih =>
    generalize hdata : fdRead file input.source (decodeBufferSize - input.decodeBuffer.length) = data
    by_cases hmore : input.decodeBuffer.length < needed ∧ input.sourceEof = false
    · have hleft : fillBuffer file needed (fuel + 1) input =
          fillBuffer file needed fuel
            { input with
              source := input.source + data.length
              sourceEof := data.isEmpty
              decodeBuffer := input.decodeBuffer ++ data } := by
        rw [← hdata]
        exact if_pos hmore
      have hright : fillBuffer file needed (fuel + 1) (input.withMode plainSeekable forceSeek) =
          fillBuffer file needed fuel
            (Input.withMode
              { input with
                source := input.source + data.length
                sourceEof := data.isEmpty
                decodeBuffer := input.decodeBuffer ++ data } plainSeekable forceSeek) := by
        rw [← hdata]
        exact if_pos hmore
      rw [hleft, hright, ih]
    · have hleft : fillBuffer file needed (fuel + 1) input = input := if_neg hmore
      have hright : fillBuffer file needed (fuel + 1) (input.withMode plainSeekable forceSeek) =
          input.withMode plainSeekable forceSeek := if_neg hmore
      rw [hleft, hright]

theorem settleFormat_withMode (input : Input) : settleFormat (input.withMode plainSeekable forceSeek) =
      ((settleFormat input).1.withMode plainSeekable forceSeek, (settleFormat input).2) := by
  have hfound : foundCodec (input.withMode plainSeekable forceSeek) = foundCodec input := rfl
  have hrequired : (input.withMode plainSeekable forceSeek).requiredCodec = input.requiredCodec := rfl
  unfold settleFormat
  rw [hfound, hrequired]
  generalize foundCodec input = codec
  dsimp only
  split
  · rfl
  · cases codec with
    | none => rfl
    | some codec => rfl

theorem checkMode_withMode (input : Input) : checkMode file (input.withMode plainSeekable forceSeek) =
      ((checkMode file input).1.withMode plainSeekable forceSeek, (checkMode file input).2) := by
  have hneeded : neededBytes (input.withMode plainSeekable forceSeek) = neededBytes input := rfl
  have hchecked : (input.withMode plainSeekable forceSeek).checkedMode = input.checkedMode := rfl
  unfold checkMode
  rw [hneeded, fillBuffer_withMode, settleFormat_withMode, hchecked]
  split
  · rfl
  · rfl

theorem readPlain_withMode (input : Input) (len : Nat) : readPlain file (input.withMode plainSeekable forceSeek) len =
      ((readPlain file input len).1.withMode plainSeekable forceSeek, (readPlain file input len).2) := by
  unfold readPlain
  dsimp only [Input.withMode]
  split
  · rfl
  · rfl

theorem readSome_withMode (input : Input) (len : Nat) : readSome file (input.withMode plainSeekable forceSeek) len =
      ((readSome file input len).1.withMode plainSeekable forceSeek, (readSome file input len).2) := by
  unfold readSome
  split
  · rfl
  · rw [checkMode_withMode]
    generalize checkMode file input = checked
    obtain ⟨checked, failure⟩ := checked
    cases failure with
    | some failure => rfl
    | none =>
      have hdecoder : (checked.withMode plainSeekable forceSeek).decoder = checked.decoder := rfl
      dsimp only
      rw [hdecoder]
      cases checked.decoder with
      | some codec => rfl
      | none =>
        dsimp only
        rw [readPlain_withMode]

end

/-! ## Where an input is -/

structure Good (file : RegularFile) (start : Nat) (input : Input) : Prop where
  inside : start ≤ file.size
  pos : input.decodePos ≤ input.decodeBuffer.length
  source : input.source = start + input.logicalOffset + (input.decodeBuffer.length - input.decodePos)
  bound : input.source ≤ file.size
  plainSize : input.plainSize = file.size - start
  eof : input.sourceEof = true → input.source = file.size

def Input.advance (input : Input) (n : Nat) : Input :=
  let buffered := min (input.decodeBuffer.length - input.decodePos) n
  { input with
    decodePos := input.decodePos + buffered
    source := input.source + (n - buffered)
    logicalOffset := input.logicalOffset + n }

section
variable {file : RegularFile} {input : Input} {start len n m : Nat}

theorem advance_advance (input : Input) (n m : Nat) : (input.advance n).advance m = input.advance (n + m) := by
  unfold Input.advance
  simp only [Input.mk.injEq, true_and]
  omega

theorem Good.advance (h : Good file start input) (hle : n ≤ input.plainSize - input.logicalOffset) :
    Good file start (input.advance n) := by
  obtain ⟨hinside, hpos, hsource, hbound, hplain, heof⟩ := h
  unfold Input.advance
  refine ⟨hinside, ?_, ?_, ?_, hplain, ?_⟩
  · dsimp only
    omega
  · dsimp only
    omega
  · dsimp only
    omega
  · intro hend
    have hat := heof hend
    dsimp only
    omega

theorem length_fdRead (source len : Nat) : (fdRead file source len).length = min len (file.size - source) := by
  unfold fdRead RegularFile.size
  rw [length_take, length_drop]

section
variable (h : Good file start input)
include h

theorem readPlain_at_end (hend : input.logicalOffset = input.plainSize) (len : Nat) :
    (readPlain file input len).2 = [] := by
  obtain ⟨hinside, hpos, hsource, hbound, hplain, heof⟩ := h
  unfold readPlain
  dsimp only
  rw [if_neg (by omega)]
  dsimp only
  split
  · rfl
  · apply eq_nil_of_length_eq_zero
    rw [length_fdRead]
    omega

theorem readPlain_advances (hlt : input.logicalOffset < input.plainSize) (hlen : 0 < len) :
    (readPlain file input len).1 = input.advance (readPlain file input len).2.length ∧
      0 < (readPlain file input len).2.length ∧ (readPlain file input len).2.length ≤ len ∧
      (readPlain file input len).2.length ≤ input.plainSize - input.logicalOffset := by
  obtain ⟨hinside, hpos, hsource, hbound, hplain, heof⟩ := h
  have hmin : 0 < min len decodeBufferSize := by
    unfold decodeBufferSize
    omega
  unfold readPlain
  dsimp only
  by_cases hbuffered : input.decodeBuffer.length - input.decodePos ≠ 0
  · rw [if_pos hbuffered]
    have hdata : ((input.decodeBuffer.drop input.decodePos).take
        (min (input.decodeBuffer.length - input.decodePos) (min len decodeBufferSize))).length =
        min (input.decodeBuffer.length - input.decodePos) (min len decodeBufferSize) := by
      rw [length_take, length_drop]
      omega
    dsimp only
    rw [hdata]
    refine ⟨?_, by omega, by omega, by omega⟩
    unfold Input.advance
    simp only [Input.mk.injEq, true_and, and_true]
    omega
  · rw [if_neg hbuffered]
    have hopen : input.sourceEof = false := by
      cases hcase : input.sourceEof with
      | false => rfl
      | true =>
        have hat := heof hcase
        omega
    dsimp only
    rw [hopen, if_neg Bool.false_ne_true]
    have hdata := @length_fdRead file input.source (min len decodeBufferSize)
    have hsome : (fdRead file input.source (min len decodeBufferSize)).isEmpty = false := by
      rw [isEmpty_eq_false_iff]
      apply ne_nil_of_length_pos
      omega
    rw [hsome]
    refine ⟨?_, by omega, by omega, by omega⟩
    unfold Input.advance
    simp only [Input.mk.injEq, true_and, and_true, hopen]
    omega

theorem Good.le : input.logicalOffset ≤ input.plainSize := by
  obtain ⟨hinside, hpos, hsource, hbound, hplain, heof⟩ := h
  omega

end

/-! ## Skipping -/

theorem readSome_plain (hchecked : input.checkedMode = true) (hplain : input.decoder = none) (hlen : len ≠ 0) :
    readSome file input len = ((readPlain file input len).1, .ok (readPlain file input len).2) := by
  unfold readSome checkMode
  rw [if_neg hlen, if_pos hchecked]
  dsimp only
  rw [hplain]

section
variable (h : Good file start input) (hchecked : input.checkedMode = true) (hplain : input.decoder = none)
include h hchecked hplain

variable {fuel : Nat}

theorem skipByReading_enough (hfuel : len ≤ fuel) (hle : len ≤ input.plainSize - input.logicalOffset) :
    skipByReading file fuel input len = (input.advance len, none) := by
  induction fuel generalizing input len with
  | zero =>
    have hzero : len = 0 := Nat.le_zero.mp hfuel
    rw [skipByReading, hzero]
    unfold Input.advance
    simp
  | succ fuel ih =>
    rw [skipByReading]
    by_cases hzero : len = 0
    · rw [if_pos hzero, hzero]
      unfold Input.advance
      simp
    · have hmin : min len decodeBufferSize ≠ 0 := by
        unfold decodeBufferSize
        omega
      obtain ⟨hstate, hpos, hmax, hroom⟩ := @readPlain_advances file input start (min len decodeBufferSize) h
        (by omega) (pos_of_ne_zero hmin)
      rw [if_neg hzero, readSome_plain hchecked hplain hmin]
      dsimp only
      rw [if_neg (ne_nil_of_length_pos hpos), hstate]
      have hgood := h.advance hroom
      rw [ih hgood hchecked hplain (by omega)]
      · rw [advance_advance]
        congr 2
        omega
      · unfold Input.advance
        dsimp only
        omega

theorem skipByReading_short (hfuel : len ≤ fuel) (hlt : input.plainSize - input.logicalOffset < len) :
    (skipByReading file fuel input len).2 = some .truncated := by
  induction fuel generalizing input len with
  | zero => omega
  | succ fuel ih =>
    have hmin : min len decodeBufferSize ≠ 0 := by
      unfold decodeBufferSize
      omega
    rw [skipByReading, if_neg (by omega), readSome_plain hchecked hplain hmin]
    dsimp only
    cases Nat.lt_or_eq_of_le h.le with
    | inr hend => rw [readPlain_at_end h hend, if_pos rfl]
    | inl hmore =>
      obtain ⟨hstate, hpos, hmax, hroom⟩ := @readPlain_advances file input start (min len decodeBufferSize) h hmore
        (pos_of_ne_zero hmin)
      rw [if_neg (ne_nil_of_length_pos hpos), hstate]
      apply ih (h.advance hroom) hchecked hplain (by omega)
      unfold Input.advance
      dsimp only
      omega

end

theorem seekForward_spec {fuel : Nat} (hfuel : len ≤ fuel) (hle : input.source + len ≤ longMax) :
    seekForward fuel input len =
      ({ input with source := input.source + len, logicalOffset := input.logicalOffset + len }, .ok 0) := by
  cases fuel with
  | zero =>
    have hzero : len = 0 := Nat.le_zero.mp hfuel
    rw [seekForward, hzero]
    rfl
  | succ fuel =>
    rw [seekForward]
    by_cases hzero : len = 0
    · rw [if_pos hzero, hzero]
      rfl
    · have hchunk : min len longMax = len := by omega
      dsimp only
      rw [if_neg hzero, hchunk, if_neg (by omega), Nat.sub_self]
      cases fuel with
      | zero => rfl
      | succ fuel => rfl

theorem skipDirectSeek_spec (h : Good file start input) (hseek : input.plainSeekable = true) :
    skipDirectSeek input len =
      if len ≤ input.plainSize - input.logicalOffset then (input.advance len, .ok 0)
      else (input, .error .truncated) := by
  unfold skipDirectSeek
  have hle := h.le
  by_cases hroom : len ≤ input.plainSize - input.logicalOffset
  · rw [if_pos hroom, hseek, if_neg (by simp; omega)]
    dsimp only
    rw [seekForward_spec (le_rfl)]
    · unfold Input.advance
      simp only [Prod.mk.injEq, Input.mk.injEq, true_and, and_true]
      refine ⟨hseek.symm, ?_⟩
      omega
    · obtain ⟨hinside, hpos, hsource, hbound, hplain, heof⟩ := h
      have hfits := file.fits
      unfold RegularFile.size at hbound hinside hplain
      dsimp only
      omega
  · rw [if_neg hroom, hseek, if_pos (by simp; omega)]

/-! ## Checking the format keeps an input where it is -/

section
variable (h : Good file start input)
include h

theorem Good.fillBuffer {needed : Nat} (hneeded : needed ≤ decodeBufferSize)
    (fuel : Nat) : Good file start (fillBuffer file needed fuel input) := by
  induction fuel generalizing input with
  | zero => exact h
  | succ fuel ih =>
    rw [CodecInput.fillBuffer]
    split
    · next hmore =>
      apply ih
      have hdata := @length_fdRead file input.source (decodeBufferSize - input.decodeBuffer.length)
      obtain ⟨hinside, hpos, hsource, hbound, hplain, heof⟩ := h
      refine ⟨hinside, ?_, ?_, ?_, hplain, ?_⟩
      · dsimp only
        rw [length_append]
        omega
      · dsimp only
        rw [length_append]
        omega
      · dsimp only
        omega
      · intro hend
        have hnothing := isEmpty_iff_length_eq_zero.mp hend
        dsimp only
        omega
    · exact h

theorem Good.startDecoder (codec : Codec) : Good file start (startDecoder input codec) :=
  ⟨h.inside, h.pos, h.source, h.bound, h.plainSize, h.eof⟩

theorem Good.settleFormat : Good file start (settleFormat input).1 := by
  unfold CodecInput.settleFormat
  dsimp only
  split
  · exact h
  · generalize foundCodec input = codec
    cases codec with
    | some codec => exact h.startDecoder codec
    | none => exact ⟨h.inside, h.pos, h.source, h.bound, h.plainSize, h.eof⟩

theorem Good.checkMode : Good file start (checkMode file input).1 := by
  have hneeded : neededBytes input ≤ decodeBufferSize := by
    unfold neededBytes decodeBufferSize
    split <;> omega
  unfold CodecInput.checkMode
  split
  · exact h
  · exact (h.fillBuffer hneeded _).settleFormat

end

theorem checkMode_checked (hnone : (checkMode file input).2 = none) : (checkMode file input).1.checkedMode = true := by
  unfold checkMode at hnone ⊢
  split
  · next hchecked => exact hchecked
  · next hchecked =>
    rw [if_neg hchecked] at hnone
    unfold settleFormat at hnone ⊢
    generalize foundCodec _ = codec at hnone ⊢
    dsimp only at hnone ⊢
    split
    · next hrequired =>
      simp [hrequired] at hnone
    · cases codec with
      | some codec => rfl
      | none => rfl

theorem readSome_plainSeekable (input : Input) (len : Nat) :
    (readSome file input len).1.plainSeekable = input.plainSeekable := by
  have hmode := @readSome_withMode file input.plainSeekable input.forceSeek input len
  exact congrArg (fun result => result.1.plainSeekable) hmode

theorem checkMode_plainSeekable (input : Input) : (checkMode file input).1.plainSeekable = input.plainSeekable := by
  have hmode := @checkMode_withMode file input.plainSeekable input.forceSeek input
  exact congrArg (fun result => result.1.plainSeekable) hmode

/-! ## One request -/

section
variable (h : Good file start input)
include h

theorem Good.withMode (plainSeekable forceSeek : Bool) : Good file start (input.withMode plainSeekable forceSeek) :=
  ⟨h.inside, h.pos, h.source, h.bound, h.plainSize, h.eof⟩

theorem Good.readPlain (hlen : 0 < len) : Good file start (readPlain file input len).1 := by
  cases Nat.lt_or_eq_of_le h.le with
  | inl hmore =>
    obtain ⟨hstate, hpos, hmax, hroom⟩ := @readPlain_advances file input start len h hmore hlen
    rw [hstate]
    exact h.advance hroom
  | inr hend =>
    have hnothing := readPlain_at_end h hend len
    obtain ⟨hinside, hpos, hsource, hbound, hplain, heof⟩ := h
    have hempty : ¬input.decodeBuffer.length - input.decodePos ≠ 0 := by omega
    unfold CodecInput.readPlain at hnothing ⊢
    dsimp only at hnothing ⊢
    rw [if_neg hempty] at hnothing ⊢
    dsimp only at hnothing ⊢
    rw [hnothing]
    refine ⟨hinside, hpos, hsource, hbound, hplain, ?_⟩
    intro hend
    dsimp only [length_nil]
    omega

theorem Good.readSome (len : Nat) : Good file start (readSome file input len).1 := by
  unfold CodecInput.readSome
  split
  · exact h
  · next hlen =>
    have hchecked := @Good.checkMode file input start h
    generalize CodecInput.checkMode file input = checked at hchecked ⊢
    obtain ⟨checked, failure⟩ := checked
    cases failure with
    | some failure => exact hchecked
    | none =>
      dsimp only at hchecked ⊢
      cases checked.decoder with
      | some codec => exact hchecked
      | none => exact hchecked.readPlain (pos_of_ne_zero hlen)

end

variable {codec : Codec}

theorem skipByReading_decoder (hchecked : input.checkedMode = true) (hcodec : input.decoder = some codec)
    (hlen : len ≠ 0) : skipByReading file len input len = (input, some (.decoder codec)) := by
  have hmin : min len decodeBufferSize ≠ 0 := by
    unfold decodeBufferSize
    omega
  have hread : CodecInput.readSome file input (min len decodeBufferSize) = (input, .error (.decoder codec)) := by
    unfold CodecInput.readSome CodecInput.checkMode
    rw [if_neg hmin, if_pos hchecked]
    dsimp only
    rw [hcodec]
  cases len with
  | zero => exact absurd rfl hlen
  | succ len => rw [skipByReading, if_neg hlen, hread]

variable {checked : Input}

theorem skip_checked (hlen : len ≠ 0) (hcheck : checkMode file input = (checked, none)) : skip file input len =
      if checked.decoder = none ∧ (checked.plainSeekable || checked.forceSeek) = true then
        match skipDirectSeek checked len with
        | (next, .error failure) => (next, some failure)
        | (next, .ok left) => skipByReading file left next left
      else skipByReading file len checked len := by
  unfold skip
  rw [if_neg hlen, hcheck]

theorem skip_decoder (hlen : len ≠ 0) (hcheck : checkMode file input = (checked, none))
    (hchecked : checked.checkedMode = true) (hcodec : checked.decoder = some codec) :
    skip file input len = (checked, some (.decoder codec)) := by
  have hnone : ¬(checked.decoder = none ∧ (checked.plainSeekable || checked.forceSeek) = true) := by
    intro hand
    rw [hcodec] at hand
    cases hand.1
  rw [skip_checked hlen hcheck, if_neg hnone, skipByReading_decoder hchecked hcodec hlen]

theorem skip_seeking (h : Good file start checked) (hlen : len ≠ 0) (hcheck : checkMode file input = (checked, none))
    (hplain : checked.decoder = none) (hseek : checked.plainSeekable = true) :
    skip file input len =
      if len ≤ checked.plainSize - checked.logicalOffset then (checked.advance len, none) else
        (checked, some .truncated) := by
  have hseeks : checked.decoder = none ∧ (checked.plainSeekable || checked.forceSeek) = true := by
    refine ⟨hplain, ?_⟩
    rw [hseek]
    rfl
  rw [skip_checked hlen hcheck, if_pos hseeks, skipDirectSeek_spec h hseek]
  by_cases hroom : len ≤ checked.plainSize - checked.logicalOffset
  · rw [if_pos hroom, if_pos hroom]
    rfl
  · rw [if_neg hroom, if_neg hroom]

theorem skip_reading (hlen : len ≠ 0) (hcheck : checkMode file input = (checked, none))
    (hseek : checked.plainSeekable = false) (hforce : checked.forceSeek = false) :
    skip file input len = skipByReading file len checked len := by
  have hreads : ¬(checked.decoder = none ∧ (checked.plainSeekable || checked.forceSeek) = true) := by
    intro hand
    rw [hseek, hforce] at hand
    exact Bool.false_ne_true hand.2
  rw [skip_checked hlen hcheck, if_neg hreads]

section
variable (h : Good file start input) (hseek : input.plainSeekable = true)
include h hseek

theorem skip_agree (len : Nat) : (skip file (input.withMode false false) len).2 = (skip file input len).2 ∧
      ((skip file input len).2 = none →
        Good file start (skip file input len).1 ∧ (skip file input len).1.plainSeekable = true ∧
          (skip file (input.withMode false false) len).1 = (skip file input len).1.withMode false false) := by
  by_cases hlen : len = 0
  · have hstays : ∀ input, skip file input len = (input, none) := fun _ => if_pos hlen
    rw [hstays, hstays]
    refine ⟨rfl, ?_⟩
    intro hfine
    exact ⟨h, hseek, rfl⟩
  · have hgood := @Good.checkMode file input start h
    have hseekable := (@checkMode_plainSeekable file input).trans hseek
    have hmode := @checkMode_withMode file false false input
    cases hcheck : checkMode file input with
    | mk checked failure =>
      rw [hcheck] at hgood hseekable hmode
      dsimp only at hgood hseekable hmode
      cases failure with
      | some failure =>
        have hfails : ∀ {input checked}, checkMode file input = (checked, some failure) →
            skip file input len = (checked, some failure) := by
          intro input checked hcheck
          unfold skip
          rw [if_neg hlen, hcheck]
        rw [hfails hcheck, hfails hmode]
        refine ⟨rfl, ?_⟩
        intro hfine
        cases hfine
      | none =>
        have hchecked : checked.checkedMode = true := by
          have hall := @checkMode_checked file input
          rw [hcheck] at hall
          exact hall rfl
        cases hdecoder : checked.decoder with
        | some codec =>
          rw [skip_decoder hlen hcheck hchecked hdecoder, skip_decoder hlen hmode hchecked hdecoder]
          refine ⟨rfl, ?_⟩
          intro hfine
          cases hfine
        | none =>
          rw [skip_seeking hgood hlen hcheck hdecoder hseekable, skip_reading hlen hmode rfl rfl]
          have hplain := hgood.withMode false false
          by_cases hroom : len ≤ checked.plainSize - checked.logicalOffset
          · rw [if_pos hroom, skipByReading_enough hplain hchecked hdecoder (le_rfl) hroom]
            refine ⟨rfl, ?_⟩
            intro hfine
            exact ⟨hgood.advance hroom, hseekable, rfl⟩
          · rw [if_neg hroom, skipByReading_short hplain hchecked hdecoder (le_rfl) (Nat.lt_of_not_le hroom)]
            refine ⟨rfl, ?_⟩
            intro hfine
            cases hfine

theorem answer_agree (request : Request) :
    (answer file (input.withMode false false) request).2 = (answer file input request).2 ∧
      ((∀ failure, (answer file input request).2 ≠ .failed failure) →
        Good file start (answer file input request).1 ∧ (answer file input request).1.plainSeekable = true ∧
          (answer file (input.withMode false false) request).1 =
            (answer file input request).1.withMode false false) := by
  cases request with
  | readSome len =>
    have hgood := @Good.readSome file input start h len
    have hseekable := (@readSome_plainSeekable file input len).trans hseek
    unfold answer
    dsimp only
    rw [readSome_withMode]
    generalize readSome file input len = read at hgood hseekable ⊢
    obtain ⟨next, data⟩ := read
    cases data with
    | error failure =>
      refine ⟨rfl, ?_⟩
      intro hfine
      exact absurd rfl (hfine failure)
    | ok data =>
      refine ⟨rfl, ?_⟩
      intro hfine
      exact ⟨hgood, hseekable, rfl⟩
  | skip len =>
    obtain ⟨hsame, hnext⟩ := @skip_agree file input start h hseek len
    unfold answer
    dsimp only
    generalize skip file (input.withMode false false) len = reading at hsame hnext ⊢
    generalize skip file input len = seeking at hsame hnext ⊢
    obtain ⟨next, failure⟩ := seeking
    obtain ⟨other, failure'⟩ := reading
    dsimp only at hsame hnext
    subst hsame
    cases failure' with
    | some failure =>
      refine ⟨rfl, ?_⟩
      intro hfine
      exact absurd rfl (hfine failure)
    | none =>
      refine ⟨rfl, ?_⟩
      intro hfine
      exact hnext rfl

end

/-! ## Whole sessions -/

theorem session_agree (h : Good file start input) (hseek : input.plainSeekable = true) (requests : List Request) :
    session file (input.withMode false false) requests = session file input requests := by
  induction requests generalizing input with
  | nil => rfl
  | cons request requests ih =>
    obtain ⟨hsame, hnext⟩ := @answer_agree file input start h hseek request
    have htotal : totalBytesRead (input.withMode false false) = totalBytesRead input := rfl
    unfold session
    rw [htotal]
    generalize answer file (input.withMode false false) request = reading at hsame hnext ⊢
    generalize answer file input request = seeking at hsame hnext ⊢
    obtain ⟨next, reply⟩ := seeking
    obtain ⟨other, reply'⟩ := reading
    dsimp only at hsame hnext
    subst hsame
    cases reply' with
    | failed failure => rfl
    | bytes data =>
      obtain ⟨hgood, hseekable, hother⟩ := hnext fun failure => Reply.noConfusion
      dsimp only
      rw [hother, ih hgood hseekable]
    | skipped =>
      obtain ⟨hgood, hseekable, hother⟩ := hnext fun failure => Reply.noConfusion
      dsimp only
      rw [hother, ih hgood hseekable]

theorem inputOpen_disable (requiredCodec : Option Codec) (mode : SeekMode) :
    inputOpen file start requiredCodec .disable = (inputOpen file start requiredCodec mode).withMode false false := by
  have hfalse : (decide (start ≤ file.size) && decide (SeekMode.disable ≠ .disable)) = false := Bool.and_false _
  unfold inputOpen
  dsimp only
  rw [hfalse]
  cases requiredCodec with
  | none => rfl
  | some codec => cases codec <;> rfl

theorem inputOpen_good (hinside : start ≤ file.size) (requiredCodec : Option Codec) (mode : SeekMode) :
    Good file start (inputOpen file start requiredCodec mode) := by
  have hplain : ∀ codec, (inputOpen file start codec mode).plainSize = file.size - start := by
    intro codec
    have hsize : (if start ≤ file.size then file.size - start else 0) = file.size - start := if_pos hinside
    unfold inputOpen
    dsimp only
    rw [hsize]
    cases codec with
    | none => rfl
    | some codec => cases codec <;> rfl
  have hfresh : ∀ codec, (inputOpen file start codec mode).decodePos = 0 ∧
      (inputOpen file start codec mode).decodeBuffer = [] ∧ (inputOpen file start codec mode).source = start ∧
      (inputOpen file start codec mode).logicalOffset = 0 ∧
      (inputOpen file start codec mode).sourceEof = false := by
    intro codec
    unfold inputOpen
    cases codec with
    | none => exact ⟨rfl, rfl, rfl, rfl, rfl⟩
    | some codec => cases codec <;> exact ⟨rfl, rfl, rfl, rfl, rfl⟩
  obtain ⟨hpos, hbuffer, hsource, hlogical, heof⟩ := hfresh requiredCodec
  refine ⟨hinside, ?_, ?_, ?_, hplain requiredCodec, ?_⟩
  · rw [hpos]
    exact Nat.zero_le _
  · rw [hsource, hlogical, hbuffer, hpos]
    rfl
  · rw [hsource]
    exact hinside
  · intro hend
    simp [heof] at hend

variable {mode : SeekMode}

theorem inputOpen_plainSeekable (hinside : start ≤ file.size) (requiredCodec : Option Codec)
    (hmode : mode ≠ .disable) : (inputOpen file start requiredCodec mode).plainSeekable = true := by
  have hseek : (decide (start ≤ file.size) && decide (mode ≠ .disable)) = true := by
    rw [decide_eq_true hinside, decide_eq_true hmode]
    rfl
  unfold inputOpen
  cases requiredCodec with
  | none => exact hseek
  | some codec => cases codec <;> exact hseek

theorem inputOpen_outside (houtside : ¬start ≤ file.size) (requiredCodec : Option Codec) :
    inputOpen file start requiredCodec .auto = inputOpen file start requiredCodec .disable := by
  have hauto : (decide (start ≤ file.size) && decide (SeekMode.auto ≠ .disable)) = false := by
    rw [decide_eq_false houtside]
    rfl
  have hdisable : (decide (start ≤ file.size) && decide (SeekMode.disable ≠ .disable)) = false := Bool.and_false _
  unfold inputOpen
  dsimp only
  rw [hauto, hdisable]
  rfl

theorem session_seeking (hinside : start ≤ file.size) (requiredCodec : Option Codec)
    (hmode : mode ≠ .disable) (requests : List Request) :
    session file (inputOpen file start requiredCodec mode) requests =
      session file (inputOpen file start requiredCodec .disable) requests := by
  rw [inputOpen_disable requiredCodec mode]
  exact (session_agree (inputOpen_good hinside requiredCodec mode)
    (inputOpen_plainSeekable hinside requiredCodec hmode) requests).symm

end

/-- **Main result.** An input that seeks where it can and one that only reads give the same replies at the same
positions, up to the first that fails, and the same total where none does; so does one that is told to seek,
opened inside the file. -/
theorem seeking_reads_alike (file : RegularFile) (start : Nat) (requiredCodec : Option Codec)
    (requests : List Request) :
    session file (inputOpen file start requiredCodec .auto) requests =
        session file (inputOpen file start requiredCodec .disable) requests ∧
      (start ≤ file.size →
        session file (inputOpen file start requiredCodec .force) requests =
          session file (inputOpen file start requiredCodec .disable) requests) := by
  refine ⟨?_, ?_⟩
  · by_cases hinside : start ≤ file.size
    · exact session_seeking hinside requiredCodec SeekMode.noConfusion requests
    · rw [inputOpen_outside hinside]
  · intro hinside
    exact session_seeking hinside requiredCodec SeekMode.noConfusion requests

def threeBytes : RegularFile := ⟨[0x61, 0x62, 0x63], by decide⟩

/-- A skip that is too long leaves one input where it was and the other at the end. One that is told to seek
seeks on from past the end. -/
theorem skip_past_end : (let seeking := answer threeBytes (inputOpen threeBytes 0 none .auto) (.skip 5)
     let reading := answer threeBytes (inputOpen threeBytes 0 none .disable) (.skip 5)
     seeking.2 = reading.2 ∧ totalBytesRead seeking.1 = 0 ∧ totalBytesRead reading.1 = 3 ∧
       (answer threeBytes seeking.1 (.readSome 1)).2 = .bytes [0x61] ∧
       (answer threeBytes reading.1 (.readSome 1)).2 = .bytes []) ∧
    (answer threeBytes (inputOpen threeBytes 4 none .force) (.skip 5)).2 = .skipped ∧
    (answer threeBytes (inputOpen threeBytes 4 none .disable) (.skip 5)).2 = .failed .truncated := by
  decide

end Bx.Tar.CodecInput
