import Bx.Kit.Loop
import Bx.Kit.Odometer
import Bx.Lib.SizeParse

/-!
# split

The input is cut into pieces of so many bytes or lines. Each goes to a file of its own that opening empties if it is
there; a file that nothing was written to is unlinked. The suffix of the name counts up and starts over without a word
when it has run through all its values.
-/

namespace Bx.Split
open Kit

/-! ## Options -/

inductive Alphabet
  | alphabetic
  | numeric
  | hex

/-- `byLines`, and how many bytes or lines go into a piece -/
structure Size where
  byLines : Bool
  count : Nat
  pos : 0 < count

structure Options where
  size : Size
  suffixLength : Nat
  alphabet : Alphabet
  pos : 0 < suffixLength

/-! ## Suffixes -/

def firstChar : Alphabet → UInt8
  | .alphabetic => 97
  | .numeric => 48
  | .hex => 48

def nextChar : Alphabet → UInt8 → Option UInt8
  | .numeric, c => if c < 57 then some (c + 1) else none
  | .hex, c =>
    if c < 57 then some (c + 1)
    else if c = 57 then some 97
    else if c < 102 then some (c + 1)
    else none
  | .alphabetic, c => if c < 122 then some (c + 1) else none

def nextSuffixFrom (alphabet : Alphabet) : Bytes → Bytes × Bool
  | [] => ([], true)
  | c :: suffix =>
    let moved := nextSuffixFrom alphabet suffix
    if moved.2 then
      match nextChar alphabet c with
      | some d => (d :: moved.1, false)
      | none => (firstChar alphabet :: moved.1, true)
    else (c :: moved.1, false)

def nextSuffix (alphabet : Alphabet) (suffix : Bytes) : Bytes := (nextSuffixFrom alphabet suffix).1

variable (opts : Options)

def firstSuffix : Bytes := List.replicate opts.suffixLength (firstChar opts.alphabet)

/-! ## Input -/

/-- What is left of the input: the reads that the stream has made or will make, an empty one at its end -/
abbrev Reads := List Bytes

def getc : Reads → Option (UInt8 × Reads)
  | [] => none
  | [] :: _ => none
  | [ch] :: reads => some (ch, reads)
  | (ch :: next :: buffer) :: reads => some (ch, (next :: buffer) :: reads)

def input : Reads → Bytes
  | [] => []
  | [] :: _ => []
  | (ch :: buffer) :: reads => (ch :: buffer) ++ input reads

theorem input_of_getc_none {reads : Reads} (h : getc reads = none) : input reads = [] := by
  unfold getc at h
  split at h
  · rfl
  · rfl
  · cases h
  · cases h

theorem input_of_getc {reads rest : Reads} {ch : UInt8} (h : getc reads = some (ch, rest)) :
    input reads = ch :: input rest := by
  unfold getc at h
  split at h
  · cases h
  · cases h
  · cases h
    rfl
  · cases h
    rfl

/-! ## Pieces -/

structure Filled where
  bytes : Bytes
  reads : Reads
  eof : Bool

def fillBytes : Nat → Reads → Filled
  | 0, reads => ⟨[], reads, false⟩
  | count + 1, reads =>
    match getc reads with
    | none => ⟨[], reads, true⟩
    | some (ch, rest) =>
      let filled := fillBytes count rest
      ⟨ch :: filled.bytes, filled.reads, filled.eof⟩

def copyLine (reads : Reads) : Filled :=
  match _h : getc reads with
  | none => ⟨[], reads, true⟩
  | some (ch, rest) =>
    if ch = 10 then ⟨[ch], rest, false⟩
    else
      let copied := copyLine rest
      ⟨ch :: copied.bytes, copied.reads, copied.eof⟩
termination_by (input reads).length
decreasing_by rw [input_of_getc _h, List.length_cons]; exact Nat.lt_succ_self _

def fillLines : Nat → Reads → Filled
  | 0, reads => ⟨[], reads, false⟩
  | count + 1, reads =>
    let copied := copyLine reads
    if copied.eof then copied
    else
      let filled := fillLines count copied.reads
      ⟨copied.bytes ++ filled.bytes, filled.reads, filled.eof⟩

def fill (size : Size) (reads : Reads) : Filled :=
  if size.byLines then fillLines size.count reads else fillBytes size.count reads

/-! ## The loop -/

structure Piece where
  name : Bytes
  bytes : Bytes

structure State where
  reads : Reads
  suffix : Bytes
  opened : List Piece

structure Outcome where
  opened : List Piece
  reported : Bool

/-- `fopen` says for each opening whether the system lets the file be opened. -/
structure Target where
  namePrefix : Bytes
  fopen : Nat → Bool

def iteration (target : Target) (s : State) : State ⊕ Outcome :=
  let outName := target.namePrefix ++ s.suffix
  if target.fopen s.opened.length then
    let filled := fill opts.size s.reads
    let opened := s.opened ++ [⟨outName, filled.bytes⟩]
    if filled.eof then .inr ⟨opened, false⟩ else .inl ⟨filled.reads, nextSuffix opts.alphabet s.suffix, opened⟩
  else .inr ⟨s.opened, true⟩

def mainLoop (target : Target) (fuel : Nat) (reads : Reads) : Option Outcome :=
  loop (iteration opts target) fuel ⟨reads, firstSuffix opts, []⟩

def place (files : List Piece) (piece : Piece) : List Piece :=
  let others := files.filter (·.name ≠ piece.name)
  if piece.bytes = [] then others
  else if others.length = files.length then files ++ [piece]
  else files.map fun file => if file.name = piece.name then piece else file

def Outcome.files (outcome : Outcome) : List Piece := outcome.opened.foldl place []

/-- No byte of the input is missing and no file that got one is opened, emptied or unlinked again. -/
structure LosesNothing (bytes : Bytes) (outcome : Outcome) : Prop where
  complete : outcome.reported = true ∨
    (outcome.files.map Piece.name).Nodup ∧ (outcome.files.map Piece.bytes).flatten = bytes
  untouched : outcome.opened.Pairwise fun file later => file.bytes ≠ [] → later.name ≠ file.name

end Bx.Split
