import Bx.Kit.Bytes
import Bx.Kit.Loop

/-!
# Transcoding reader

What `src/search/rg_decode_reader.c` makes of its source: UTF-8, with U+FFFD for a byte that does not belong to a
character. A converter is given by what it finds at the beginning of its input.
-/

namespace Bx.RgDecodeReader

open Kit

/-! ## Conversion -/

inductive Next (σ : Type)
  | char (size : Nat) (out : Bytes) (state : σ)
  | illegal
  | incomplete

structure Decoder (σ : Type) where
  init : σ
  next : σ → Bytes → Next σ
  /-- what is still to be written at the end -/
  flush : σ → Bytes
  next_size : ∀ s input size out t, next s input = .char size out t → 0 < size ∧ size ≤ input.length

/-- Why `iconv` stops before the end of its input -/
inductive Stop
  | tooBig
  | illegal
  | incomplete

structure Converted (σ : Type) where
  state : σ
  rest : Bytes
  out : Bytes
  stop : Option Stop

variable {σ : Type}

def Converted.prepend (out : Bytes) (c : Converted σ) : Converted σ := { c with out := out ++ c.out }

/-- As many characters as the input has and the room holds; `fuel` bounds them. -/
def iconv (d : Decoder σ) : Nat → σ → Bytes → Nat → Converted σ
  | 0, s, input, _ => ⟨s, input, [], none⟩
  | fuel + 1, s, input, room =>
    if input = [] then ⟨s, [], [], none⟩
    else
      match d.next s input with
      | .illegal => ⟨s, input, [], some .illegal⟩
      | .incomplete => ⟨s, input, [], some .incomplete⟩
      | .char size out t =>
        if room < out.length then ⟨s, input, [], some .tooBig⟩
        else (iconv d fuel t (input.drop size) (room - out.length)).prepend out

/-! ## The reader -/

inductive Errno
  | fbig
  | ilseq
  | io

/-- What is left of a source, how many bytes each `read` gets at most, and whether the one at the end fails -/
structure Source where
  rest : Bytes
  splits : List Nat
  failure : Option Errno := none

def Source.read (s : Source) (cap : Nat) : Except Errno Bytes × Source :=
  match s.rest, s.failure with
  | [], some errnum => (.error errnum, s)
  | rest, _ =>
    let count := min cap (max 1 (s.splits.headD cap))
    (.ok (rest.take count), { s with rest := rest.drop count, splits := s.splits.tail })

/-- The bytes up to `input_len`, and how many of them have been converted -/
structure Input where
  bytes : Bytes
  off : Nat
  off_le : off ≤ bytes.length

namespace Input

def empty : Input := ⟨[], 0, Nat.le_refl 0⟩

variable (i : Input)

def unread : Bytes := i.bytes.drop i.off

def compact : Input := ⟨i.unread, 0, Nat.zero_le _⟩

def append (data : Bytes) : Input :=
  ⟨i.bytes ++ data, i.off, by rw [List.length_append]; exact Nat.le_add_right_of_le i.off_le⟩

/-- What `iconv` has left is unread. -/
def leave (rest : Bytes) : Input := ⟨i.bytes, i.bytes.length - rest.length, Nat.sub_le _ _⟩

def skip (i : Input) : Input := if h : i.off < i.bytes.length then ⟨i.bytes, i.off + 1, h⟩ else i

end Input

structure Reader (σ : Type) where
  source : Source
  sourceEof : Bool := false
  iconvFlushed : Bool := false
  cd : σ
  inputLimit : Nat := 0
  inputCount : Nat := 0
  errnum : Option Errno := none
  input : Input := .empty
  /-- what is left of a replacement -/
  replacement : Bytes := []

def inputCap : Nat := 8192 + 16

namespace Reader

variable (r : Reader σ)

def sourceRead (cap : Nat) : Bytes × Reader σ :=
  if cap = 0 then ([], r)
  else
    match r.source.read cap with
    | (.error errnum, source) => ([], { r with source, errnum := some errnum })
    | (.ok data, source) =>
      let r := { r with source }
      if data = [] then ([], { r with sourceEof := true })
      else if 0 < r.inputLimit ∧ (r.inputLimit < r.inputCount ∨ r.inputLimit - r.inputCount < data.length) then
        ([], { r with errnum := some .fbig })
      else (data, { r with inputCount := r.inputCount + data.length })

def refill : Bool × Reader σ :=
  if r.sourceEof || r.errnum.isSome then (false, r)
  else
    let r := { r with input := r.input.compact }
    if r.input.bytes.length = inputCap then (false, { r with errnum := some .ilseq })
    else
      let nread := r.sourceRead (inputCap - r.input.bytes.length)
      (nread.1 ≠ [], { nread.2 with input := nread.2.input.append nread.1 })

def replacementBytes : Bytes := [0xEF, 0xBF, 0xBD]

def queueReplacement : Reader σ := { r with replacement := replacementBytes }

def skipByte : Reader σ := { r with input := r.input.skip }.queueReplacement

def converted (c : Converted σ) : Reader σ := { r with cd := c.state, input := r.input.leave c.rest }

def refillEmpty : Reader σ :=
  let r := { r with input := .empty }
  if !r.sourceEof && r.errnum.isNone then r.refill.2 else r

def refillMore : Reader σ :=
  let refilled := r.refill
  if !refilled.1 && refilled.2.errnum.isNone && !refilled.2.sourceEof then
    { refilled.2 with errnum := some .ilseq }
  else refilled.2

end Reader

/-! ## Reading -/

structure Reading (σ : Type) where
  reader : Reader σ
  output : Bytes := []

section
variable (d : Decoder σ) (cap : Nat)

variable (x : Reading σ)

def copyReplacement : Reading σ :=
  let take := x.reader.replacement.take (cap - x.output.length)
  ⟨{ x.reader with replacement := x.reader.replacement.drop take.length }, x.output ++ take⟩

def convert : Reading σ :=
  let unread := x.reader.input.unread
  let converted := iconv d unread.length x.reader.cd unread (cap - x.output.length)
  let r := x.reader.converted converted
  let output := x.output ++ converted.out
  match converted.stop with
  | none => ⟨r, output⟩
  | some .tooBig => ⟨r, output⟩
  | some .illegal => ⟨r.skipByte, output⟩
  | some .incomplete => if r.sourceEof then ⟨r.skipByte, output⟩ else ⟨r.refillMore, output⟩

def flush : Reading σ :=
  let out := d.flush x.reader.cd
  if cap - x.output.length < out.length then x
  else ⟨{ x.reader with cd := d.init, iconvFlushed := true }, x.output ++ out⟩

def afterReplacement : Reading σ ⊕ Reading σ :=
  let wasEmpty := x.reader.input.off = x.reader.input.bytes.length
  let x : Reading σ := if wasEmpty then ⟨x.reader.refillEmpty, x.output⟩ else x
  if wasEmpty ∧ x.reader.errnum.isSome then .inr x
  else if x.reader.input.off < x.reader.input.bytes.length then .inl (convert d cap x)
  else if !x.reader.sourceEof then .inl x
  else if !x.reader.iconvFlushed then .inl (flush d cap x)
  else .inr x

def readIconvStep : Reading σ ⊕ Reading σ :=
  if cap ≤ x.output.length then .inr x
  else
    let x := copyReplacement cap x
    if x.output.length = cap then .inr x else afterReplacement d cap x

/-- The call ends with what it has produced: nothing at the end of the source or after an error. -/
def ReadIconv (r : Reader σ) (x : Reading σ) : Prop := ∃ fuel, loop (readIconvStep d cap) fuel ⟨r, []⟩ = some x

end

/-! ## UTF-16 -/

variable (bigEndian : Bool)

def unit (first second : UInt8) : Nat :=
  if bigEndian then first.toNat * 256 + second.toNat else second.toNat * 256 + first.toNat

def isHigh (u : Nat) : Prop := 0xD800 ≤ u ∧ u < 0xDC00

def isLow (u : Nat) : Prop := 0xDC00 ≤ u ∧ u < 0xE000

instance (u : Nat) : Decidable (isHigh u) := inferInstanceAs (Decidable (_ ∧ _))

instance (u : Nat) : Decidable (isLow u) := inferInstanceAs (Decidable (_ ∧ _))

def plainChar (u : Nat) : Char := Char.ofNat u

def pairChar (high low : Nat) : Char := Char.ofNat (0x10000 + (high - 0xD800) * 0x400 + (low - 0xDC00))

inductive Found
  | char (size : Nat) (c : Char)
  | illegal
  | incomplete

/-- A low surrogate is illegal where a character begins, and so is a high one without a low one behind it. -/
def utf16Found : Bytes → Found
  | a :: b :: rest =>
    let u := unit bigEndian a b
    if isLow u then .illegal
    else if isHigh u then
      match rest with
      | c :: e :: _ => if isLow (unit bigEndian c e) then .char 4 (pairChar u (unit bigEndian c e)) else .illegal
      | _ => .incomplete
    else .char 2 (plainChar u)
  | _ => .incomplete

theorem utf16Found_size {input : Bytes} {size : Nat} {c : Char}
    (h : utf16Found bigEndian input = .char size c) : 0 < size ∧ size ≤ input.length := by
  unfold utf16Found at h
  split at h
  · dsimp only at h
    split at h
    · cases h
    · split at h
      · split at h
        · split at h
          · cases h
            exact ⟨by decide, by simp⟩
          · cases h
        · cases h
      · cases h
        exact ⟨by decide, by simp⟩
  · cases h

def utf16 : Decoder Unit where
  init := ()
  next := fun _ input =>
    match utf16Found bigEndian input with
    | .char size c => .char size (String.utf8EncodeChar c) ()
    | .illegal => .illegal
    | .incomplete => .incomplete
  flush := fun _ => []
  next_size := by
    intro _ input size out t h
    cases hfound : utf16Found bigEndian input with
    | char size' c =>
      rw [hfound] at h
      cases h
      exact utf16Found_size bigEndian hfound
    | illegal =>
      rw [hfound] at h
      cases h
    | incomplete =>
      rw [hfound] at h
      cases h

/-! ## Opening -/

/-- How many bytes are a byte order mark, and of which UTF-16; anything else is passed through. -/
def sniff (start : Bytes) : Nat × Option Bool :=
  if start.take 3 = [0xEF, 0xBB, 0xBF] then (3, none)
  else if start.take 2 = [0xFF, 0xFE] then (2, some false)
  else if start.take 2 = [0xFE, 0xFF] then (2, some true)
  else (0, none)

def readStart : Nat → Reader Unit → Bytes → Bytes × Reader Unit
  | 0, r, start => (start, r)
  | fuel + 1, r, start =>
    if start.length < 3 ∧ r.sourceEof = false ∧ r.errnum = none then
      let nread := r.sourceRead (3 - start.length)
      readStart fuel nread.2 (start ++ nread.1)
    else (start, r)

def skipMark (start : Bytes) (r : Reader Unit) : Reader Unit :=
  { r with input := ⟨start.drop (sniff start).1, 0, Nat.zero_le _⟩ }

def openAuto (source : Source) (inputLimit : Nat) : Option (Reader Unit × Option Bool) :=
  let opened := readStart 3 { source, cd := (), inputLimit } []
  if opened.2.errnum.isSome then none else some (skipMark opened.1 opened.2, (sniff opened.1).2)

end Bx.RgDecodeReader
