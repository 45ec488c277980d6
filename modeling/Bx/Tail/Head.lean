import Bx.Lib.SizeParse
import Bx.Tail.Tail

/-!
# head

What `src/applets/base/head/head.c` prints of one input is what `tail` leaves out. All but the last bytes come out of a
window that moves over the input, all but the last lines out of a ring of saved lines, and a line is saved as a string.
-/

namespace Bx.Tail

open Kit Lib List

structure HeadOptions where
  lines : Int
  bytes : Int
  zeroTerminated : Bool

/-- `xmalloc` ends the program. What is outside the memory of a ring or of a saved
line is read or written all the same. -/
inductive HeadOutcome
  | printed (out : Bytes)
  | outOfMemory
  | undefined

def headLimit (delimiter : UInt8) : Nat → Bytes → Bytes
  | 0, _ => []
  | _, [] => []
  | count + 1, c :: content => c :: headLimit delimiter (if c = delimiter then count else count + 1) content

def slide : Bytes → Bytes → Bytes
  | _, [] => []
  | [], _ :: _ => []
  | b :: window, c :: rest => b :: slide (window ++ [c]) rest

/-- What `xstrdup` copies of a line and how long the line was -/
structure SavedLine where
  text : Bytes
  len : Nat

def saveLine (line : Bytes) : SavedLine := ⟨line.takeWhile (· ≠ 0), line.length⟩

def SavedLine.write (saved : SavedLine) : Option Bytes :=
  if saved.len ≤ saved.text.length + 1 then some ((saved.text ++ [0]).take saved.len) else none

structure Elision where
  ring : List (Option SavedLine)
  idx : Nat
  full : Bool
  out : Bytes

def Elision.start (skip : Nat) : Elision := ⟨replicate skip none, 0, false, []⟩

def Elision.line (s : Elision) (line : Bytes) : Option Elision :=
  let written := if s.full then s.ring[s.idx]?.join.bind SavedLine.write else some []
  written.map fun bytes =>
    let idx := (s.idx + 1) % s.ring.length
    { ring := s.ring.set s.idx (some (saveLine line))
      idx
      full := if idx = 0 then true else s.full
      out := s.out ++ bytes }

section
-- whether there is memory for so many bytes
variable (alloc : Nat → Bool)

def xmalloc (size : Nat) : Bool := alloc (if size = 0 then 1 else size)

def headFile (options : HeadOptions) (content : Bytes) : HeadOutcome :=
  let delimiter := delimiterOf options.zeroTerminated
  if 0 < options.bytes then .printed (content.take options.bytes.toNat)
  else if options.bytes < 0 then
    let skip := (-options.bytes).toNat
    if !xmalloc alloc skip then .outOfMemory
    else if content.length < skip then .printed []
    else .printed (slide (content.take skip) (content.drop skip))
  else if 0 < options.lines then .printed (headLimit delimiter options.lines.toNat content)
  else if options.lines < 0 then
    let skip := (-options.lines).toNat
    let size := skip * 8 % 2 ^ 64
    if !xmalloc alloc size then .outOfMemory
    else if size < skip * 8 then .undefined
    else
      match (delimited delimiter content).foldlM Elision.line (Elision.start skip) with
      | none => .undefined
      | some s => .printed s.out
  else .printed []

end

/-! ## Counts -/

inductive Measure
  | bytes
  | lines
  deriving DecidableEq

def headParseNum (text : Bytes) : Option Int :=
  if text = [] ∨ text.head? = some 43 then none else parseScaledCount text

def tailParseCountArgument (text : Bytes) : Option Int :=
  let fromStart := text.head? = some 43
  let magnitude := if fromStart ∨ text.head? = some 45 then text.tail else text
  if text = [] ∨ magnitude = [] then none
  else
    (parseScaledCount magnitude).bind fun value =>
      if value < 0 then none else some (if fromStart then value else -value)

def headOptions (measure : Measure) (value : Int) (zeroTerminated : Bool) : HeadOptions :=
  match measure with
  | .bytes => ⟨0, value, zeroTerminated⟩
  | .lines => ⟨value, 0, zeroTerminated⟩

/-- `tail` with one count, as its `main` chooses between bytes and lines -/
def tailFile (alloc : Nat → Bool) (measure : Measure) (value : Int) (zeroTerminated : Bool) (f : Input) : Outcome :=
  let bytes := if measure = .bytes then value else 0
  let lines := if measure = .bytes then 0 else value
  if bytes ≠ 0 then tailBytes alloc f bytes else tailLines alloc f lines (delimiterOf zeroTerminated)

theorem parse_counts {text : Bytes} {elided kept : Int} (hhead : headParseNum (45 :: text) = some elided)
    (htail : tailParseCountArgument text = some kept) :
    ∃ n : Nat, n ≤ intmaxMax ∧ elided = -n ∧ kept = -n := by
  unfold headParseNum at hhead
  rw [if_neg (by simp), parseScaledCount_minus] at hhead
  obtain ⟨n, hscaled, hlimit⟩ := Option.bind_eq_some_iff.mp hhead
  cases text with
  | nil => cases hscaled
  | cons ch text =>
    obtain ⟨hlow, _⟩ := parseScaledUint_head hscaled
    have hplus : ch ≠ 43 := by
      intro heq
      rw [heq] at hlow
      exact absurd hlow (by decide)
    have hminus : ch ≠ 45 := by
      intro heq
      rw [heq] at hlow
      exact absurd hlow (by decide)
    unfold tailParseCountArgument at htail
    simp only [head?_cons, Option.some.injEq, hplus, hminus, or_self, if_false, reduceCtorEq] at htail
    rw [parseScaledCount_unsigned hscaled] at htail
    by_cases hmax : intmaxMax < n
    · simp [hmax] at htail
    · rw [if_neg hmax, Option.bind_some, if_neg (by omega)] at htail
      rw [if_neg (by omega)] at hlimit
      exact ⟨n, by omega, (Option.some.inj hlimit).symm, (Option.some.inj htail).symm⟩

theorem slide_eq {window : Bytes} (h : window ≠ []) (rest : Bytes) :
    slide window rest = (window ++ rest).take rest.length := by
  induction rest generalizing window with
  | nil => rw [slide, length_nil, take_zero]
  | cons c rest ih =>
    obtain ⟨b, window, rfl⟩ := exists_cons_of_ne_nil h
    rw [slide, ih (by simp), append_assoc, singleton_append, cons_append, length_cons, take_succ_cons]

theorem slide_split (content : Bytes) {skip : Nat} (hpos : 0 < skip) (hle : skip ≤ content.length) :
    slide (content.take skip) (content.drop skip) = content.rdrop skip := by
  have hne : content.take skip ≠ [] := by
    intro hnil
    have hlength := congrArg List.length hnil
    rw [length_take, length_nil] at hlength
    omega
  rw [slide_eq hne, take_append_drop, length_drop]
  rfl

/-! ## The ring of saved lines -/

def Saved (line : Bytes) : Prop := 0 ∉ line.dropLast

instance (line : Bytes) : Decidable (Saved line) := inferInstanceAs (Decidable (_ ∉ _))

theorem saveLine_write (line : Bytes) : (saveLine line).write = if Saved line then some line else none := by
  unfold SavedLine.write saveLine
  by_cases hzero : (0 : UInt8) ∈ line
  · obtain ⟨text, rest, rfl, htext⟩ := eq_append_cons_of_mem hzero
    have hcopy : (text ++ 0 :: rest).takeWhile (fun c => decide (c ≠ 0)) = text := by
      rw [takeWhile_append_of_pos, takeWhile_cons_of_neg (by simp), append_nil]
      intro c hc
      rw [decide_eq_true_eq]
      intro heq
      rw [heq] at hc
      exact htext hc
    dsimp only
    rw [hcopy, length_append, length_cons]
    cases rest with
    | nil =>
      have hsaved : Saved (text ++ [0]) := by
        unfold Saved
        rw [dropLast_concat]
        exact htext
      rw [if_pos hsaved, length_nil, if_pos (by omega), take_of_length_le (by simp)]
    | cons c rest =>
      have hnot : ¬Saved (text ++ 0 :: c :: rest) := by
        intro hno
        apply hno
        rw [dropLast_append_of_ne_nil (cons_ne_nil _ _), dropLast_cons_cons]
        exact mem_append_right _ mem_cons_self
      rw [if_neg hnot, length_cons, if_neg (by omega)]
  · have hcopy : line.takeWhile (fun c => decide (c ≠ 0)) = line := by
      rw [takeWhile_eq_self_iff]
      intro c hc
      rw [decide_eq_true_eq]
      intro heq
      rw [heq] at hc
      exact hzero hc
    have hsaved : Saved line := fun hmem => hzero (dropLast_subset _ hmem)
    dsimp only
    rw [hcopy, if_pos (by omega), take_left, if_pos hsaved]

structure Elides (skip : Nat) (read : List Bytes) (s : Elision) : Prop where
  length_eq : s.ring.length = skip
  holds : KeepLast.Holds ⟨s.ring, s.idx, read.length⟩ (read.map saveLine)
  full_eq : s.full = decide (skip ≤ read.length)
  out_eq : s.out = (read.rdrop skip).flatten

variable {skip : Nat}

theorem start_elides (hpos : 0 < skip) : Elides skip [] (Elision.start skip) := by
  refine ⟨length_replicate, KeepLast.empty_holds skip, ?_, ?_⟩
  · show false = decide (skip ≤ 0)
    rw [eq_comm, decide_eq_false_iff_not]
    omega
  · rw [rdrop_nil]
    rfl

variable {α : Type*} {read : List Bytes} {s : Elision}

theorem rdrop_concat (xs : List α) (x : α) (h : xs.length < skip) : (xs ++ [x]).rdrop skip = [] := by
  unfold rdrop
  have hzero : (xs ++ [x]).length - skip = 0 := by
    rw [length_append, length_singleton]
    omega
  rw [hzero, take_zero]

theorem rdrop_concat_of_le (xs : List α) (x : α) (hpos : 0 < skip) (h : skip ≤ xs.length) :
    (xs ++ [x]).rdrop skip = xs.rdrop skip ++ [xs[xs.length - skip]] := by
  unfold rdrop
  have hsucc : (xs ++ [x]).length - skip = xs.length - skip + 1 := by
    rw [length_append, length_singleton]
    omega
  rw [hsucc, take_append_of_le_length (by omega), take_succ_eq_append_getElem (by omega)]

theorem Elides.next {read : List Bytes} {s : Elision} (h : Elides skip read s) (hpos : 0 < skip) {line bytes : Bytes}
    (hout : ((read ++ [line]).rdrop skip).flatten = (read.rdrop skip).flatten ++ bytes) :
    Elides skip (read ++ [line])
      ⟨s.ring.set s.idx (some (saveLine line)), (s.idx + 1) % s.ring.length,
        if (s.idx + 1) % s.ring.length = 0 then true else s.full, s.out ++ bytes⟩ := by
  have hnext := h.holds.push (by rw [h.length_eq]; exact hpos) (saveLine line)
  have hlength : (read ++ [line]).length = read.length + 1 := by
    rw [length_append, length_singleton]
  refine ⟨?_, ?_, ?_, ?_⟩
  · rw [length_set, h.length_eq]
  · rw [map_append, map_singleton, hlength]
    exact hnext
  · have hhead : s.idx = read.length % skip := by
      have heq := h.holds.head_eq
      dsimp only at heq
      rw [h.length_eq] at heq
      exact heq
    dsimp only
    rw [h.length_eq, hhead, Nat.mod_add_mod, h.full_eq, hlength]
    by_cases hround : (read.length + 1) % skip = 0
    · -- the ring is full when its end is reached for the first time
      have hle := Nat.le_of_dvd (Nat.succ_pos _) (Nat.dvd_of_mod_eq_zero hround)
      rw [if_pos hround, eq_comm, decide_eq_true_eq]
      exact hle
    · rw [if_neg hround, decide_eq_decide]
      have hne : skip ≠ read.length + 1 := by
        intro heq
        rw [heq, Nat.mod_self] at hround
        exact hround rfl
      omega
  · rw [hout, h.out_eq]

theorem Elides.line_filling (h : Elides skip read s) (hless : read.length < skip)
    (line : Bytes) : ∃ s', s.line line = some s' ∧ Elides skip (read ++ [line]) s' := by
  have hfull : s.full = false := by
    rw [h.full_eq, decide_eq_false_iff_not]
    omega
  unfold Elision.line
  rw [if_neg (by rw [hfull]; exact Bool.false_ne_true)]
  refine ⟨_, rfl, ?_⟩
  apply h.next (by omega)
  rw [rdrop_concat _ _ hless, append_nil]
  unfold rdrop
  have hzero : read.length - skip = 0 := by omega
  rw [hzero, take_zero]

theorem Elides.line_full (h : Elides skip read s) (hpos : 0 < skip) (hle : skip ≤ read.length) (line : Bytes) :
    if Saved read[read.length - skip] then ∃ s', s.line line = some s' ∧ Elides skip (read ++ [line]) s'
    else s.line line = none := by
  have hfull : s.full = true := by
    rw [h.full_eq, decide_eq_true_eq]
    exact hle
  have hslot : s.ring[s.idx]?.join = some (saveLine read[read.length - skip]) := by
    have hat := h.holds.slot (read.length - skip) (by rw [length_map]; omega)
      (by rw [length_map]; dsimp only; rw [h.length_eq]; omega)
    have hhead := h.holds.head_eq
    dsimp only at hat hhead
    rw [getElem_map, h.length_eq, ← Nat.mod_eq_sub_mod hle] at hat
    rw [hhead, h.length_eq]
    exact hat
  have hwrite : s.ring[s.idx]?.join.bind SavedLine.write =
      if Saved read[read.length - skip] then some read[read.length - skip] else none := by
    rw [hslot, Option.bind_some, saveLine_write]
  unfold Elision.line
  rw [if_pos hfull, hwrite]
  by_cases hsaved : Saved read[read.length - skip]
  · rw [if_pos hsaved, if_pos hsaved]
    refine ⟨_, rfl, ?_⟩
    apply h.next hpos
    rw [rdrop_concat_of_le _ _ hpos hle, flatten_append, flatten_singleton]
  · rw [if_neg hsaved, if_neg hsaved]
    rfl

theorem foldlM_line (hpos : 0 < skip) (read : List Bytes) :
    if ∀ line ∈ read.rdrop skip, Saved line then
      ∃ s, read.foldlM Elision.line (Elision.start skip) = some s ∧ Elides skip read s
    else read.foldlM Elision.line (Elision.start skip) = none := by
  induction read using reverseRecOn with
  | nil =>
    rw [rdrop_nil, if_pos (by simp)]
    exact ⟨_, rfl, start_elides hpos⟩
  | append_singleton read line ih =>
    rw [foldlM_append]
    by_cases hless : read.length < skip
    · rw [rdrop_concat _ _ hless, if_pos (by simp)]
      have hnone : read.rdrop skip = [] := by
        unfold rdrop
        have hzero : read.length - skip = 0 := by omega
        rw [hzero, take_zero]
      rw [hnone, if_pos (by simp)] at ih
      obtain ⟨s, hs, helides⟩ := ih
      obtain ⟨s', hs', helides'⟩ := helides.line_filling hless line
      refine ⟨s', ?_, helides'⟩
      rw [hs]
      show foldlM Elision.line s [line] = some s'
      rw [foldlM_cons, hs']
      rfl
    · have hiff : (∀ line' ∈ (read ++ [line]).rdrop skip, Saved line') ↔
          (∀ line' ∈ read.rdrop skip, Saved line') ∧ Saved read[read.length - skip] := by
        rw [rdrop_concat_of_le _ _ hpos (by omega), forall_mem_append, forall_mem_singleton]
      by_cases hbefore : ∀ line ∈ read.rdrop skip, Saved line
      · rw [if_pos hbefore] at ih
        obtain ⟨s, hs, helides⟩ := ih
        have hstep := helides.line_full hpos (by omega) line
        have hrun : (read.foldlM Elision.line (Elision.start skip)).bind (foldlM Elision.line · [line]) =
            s.line line := by
          rw [hs, Option.bind_some, foldlM_cons]
          exact bind_pure _
        by_cases hsaved : Saved read[read.length - skip]
        · rw [if_pos hsaved] at hstep
          obtain ⟨s', hs', helides'⟩ := hstep
          rw [if_pos (hiff.mpr ⟨hbefore, hsaved⟩)]
          exact ⟨s', hrun.trans hs', helides'⟩
        · rw [if_neg hsaved] at hstep
          rw [if_neg (fun hboth => hsaved (hiff.mp hboth).2)]
          exact hrun.trans hstep
      · rw [if_neg hbefore] at ih
        rw [if_neg (fun hboth => hbefore (hiff.mp hboth).1), ih]
        rfl

/-! ## Both together -/

section
variable {alloc headAlloc tailAlloc : Nat → Bool} {zeroTerminated : Bool} {n : Nat}

theorem xmalloc_of_pos (h : 0 < n) : xmalloc alloc n = alloc n := by
  unfold xmalloc
  rw [if_neg (by omega)]

variable {content out : Bytes}

theorem headFile_bytes (hpos : 0 < n) : headFile alloc (headOptions .bytes (-n) zeroTerminated) content = .printed out ↔
      out = content.rdrop n ∧ alloc n = true := by
  have hskip : (-(-(n : Int))).toNat = n := by omega
  unfold headFile headOptions
  dsimp only
  rw [if_neg (by omega), if_pos (by omega), hskip, xmalloc_of_pos hpos]
  cases alloc n with
  | false => simp
  | true =>
    simp only [Bool.not_true, Bool.false_eq_true, if_false, and_true]
    by_cases hless : content.length < n
    · have hnone : content.rdrop n = [] := by
        unfold rdrop
        have hzero : content.length - n = 0 := by omega
        rw [hzero, take_zero]
      rw [if_pos hless, hnone, HeadOutcome.printed.injEq, eq_comm]
    · rw [if_neg hless, slide_split _ hpos (by omega), HeadOutcome.printed.injEq, eq_comm]

/-- There is memory for the rings of head, and each line that is printed was saved whole. -/
def HeadSaves (alloc : Nat → Bool) (delimiter : UInt8) (n : Nat) (content : Bytes) : Prop :=
  n * 8 ≤ sizeMax ∧ alloc (n * 8) = true ∧ ∀ line ∈ (delimited delimiter content).rdrop n, Saved line

theorem headFile_lines (hpos : 0 < n) : headFile alloc (headOptions .lines (-n) zeroTerminated) content = .printed out ↔
      out = ((delimited (delimiterOf zeroTerminated) content).rdrop n).flatten ∧
        HeadSaves alloc (delimiterOf zeroTerminated) n content := by
  have hskip : (-(-(n : Int))).toNat = n := by omega
  have hrun := foldlM_line hpos (delimited (delimiterOf zeroTerminated) content)
  unfold headFile headOptions HeadSaves
  dsimp only
  rw [if_neg (Int.lt_irrefl 0), if_neg (Int.lt_irrefl 0), if_neg (by omega), if_pos (by omega), hskip]
  by_cases hfits : n * 8 ≤ sizeMax
  · have hsize : n * 8 % 2 ^ 64 = n * 8 := by
      apply Nat.mod_eq_of_lt
      unfold sizeMax at hfits
      omega
    rw [hsize, xmalloc_of_pos (by omega)]
    cases alloc (n * 8) with
    | false => simp
    | true =>
      simp only [Bool.not_true, Bool.false_eq_true, if_false, lt_irrefl, hfits, true_and]
      by_cases hsaved : ∀ line ∈ (delimited (delimiterOf zeroTerminated) content).rdrop n, Saved line
      · rw [if_pos hsaved] at hrun
        obtain ⟨s, hs, helides⟩ := hrun
        rw [hs, ← helides.out_eq, HeadOutcome.printed.injEq, eq_comm]
        exact ⟨fun heq => ⟨heq, hsaved⟩, And.left⟩
      · rw [if_neg hsaved] at hrun
        rw [hrun]
        exact ⟨(nomatch ·), fun h => absurd h.2 hsaved⟩
  · have hwraps : n * 8 % 2 ^ 64 < n * 8 := by
      unfold sizeMax at hfits
      have hlt : n * 8 % 2 ^ 64 < 2 ^ 64 := Nat.mod_lt _ (by decide)
      omega
    rw [if_pos hwraps]
    simp only [hfits, false_and, and_false, iff_false]
    cases xmalloc alloc (n * 8 % 2 ^ 64) <;> exact (nomatch ·)

/-- What head prints of all but the last and what tail prints of the last are the content. -/
def Complements (headAlloc tailAlloc : Nat → Bool) (measure : Measure) (elided kept : Int) (zeroTerminated : Bool)
    (f : Input) : Prop :=
  ∃ first last, headFile headAlloc (headOptions measure elided zeroTerminated) f.content = .printed first ∧
    tailFile tailAlloc measure kept zeroTerminated f = .printed last ∧ first ++ last = f.content

/-- Nothing is elided of an empty input only. Otherwise there is memory, and no line has a
NUL in it that head prints, and no unterminated one is in the way of tail. -/
def ComplementFits (headAlloc tailAlloc : Nat → Bool) (measure : Measure) (n : Nat) (zeroTerminated : Bool)
    (f : Input) : Prop :=
  if n = 0 then f.content = []
  else
    match measure with
    | .bytes =>
      headAlloc n = true ∧ (f.content = [] ∨ (f.seekable = true ∧ n ≤ f.content.length) ∨ tailAlloc n = true)
    | .lines =>
      HeadSaves headAlloc (delimiterOf zeroTerminated) n f.content ∧
        if f.seekable then
          ¬Unterminated (delimiterOf zeroTerminated) f.content ∨ f.content.count (delimiterOf zeroTerminated) < n
        else calloc tailAlloc n 8 = true

theorem complements_zero (measure : Measure) (f : Input) :
    Complements headAlloc tailAlloc measure (-(0 : Nat)) (-(0 : Nat)) zeroTerminated f ↔ f.content = [] := by
  have hhead : headFile headAlloc (headOptions measure 0 zeroTerminated) f.content = .printed [] := by
    cases measure <;> rfl
  have htail : tailFile tailAlloc measure 0 zeroTerminated f = .printed [] := by
    cases measure <;> rfl
  unfold Complements
  rw [Int.natCast_zero, Int.neg_zero, hhead, htail]
  simp [eq_comm]

theorem rdrop_append_eq {content last : List α} : content.rdrop n ++ last = content ↔ last = content.rtake n := by
  have hsplit : content.rdrop n ++ content.rtake n = content := take_append_drop _ _
  refine ⟨?_, ?_⟩
  · intro heq
    exact append_cancel_left (heq.trans hsplit.symm)
  · intro heq
    rw [heq, hsplit]

theorem lastBytes_eq_nil (hpos : 0 < n) : [] = content.rtake n ↔ content = [] := by
  refine ⟨?_, ?_⟩
  · intro heq
    have hlength := congrArg List.length heq
    unfold rtake at hlength
    rw [length_nil, length_drop] at hlength
    apply length_eq_zero_iff.mp
    omega
  · intro heq
    rw [heq, rtake_nil]

theorem complements_bytes (hpos : 0 < n) (f : Input) :
    Complements headAlloc tailAlloc .bytes (-n) (-n) zeroTerminated f ↔
      headAlloc n = true ∧ (f.content = [] ∨ (f.seekable = true ∧ n ≤ f.content.length) ∨ tailAlloc n = true) := by
  have htail : tailFile tailAlloc .bytes (-n) zeroTerminated f = .printed
      (if f.seekable ∧ n ≤ f.content.length ∨ tailAlloc n = true then lastBytes n f.content else []) := by
    obtain ⟨k, rfl⟩ : ∃ k, n = k + 1 := ⟨n - 1, by omega⟩
    unfold tailFile
    dsimp only
    rw [if_pos rfl, if_pos (by omega)]
    exact tailBytes_neg f k
  unfold Complements
  rw [htail]
  simp only [headFile_bytes hpos, Outcome.printed.injEq]
  by_cases hkept : f.seekable ∧ n ≤ f.content.length ∨ tailAlloc n = true
  · rw [if_pos hkept]
    refine ⟨?_, ?_⟩
    · intro h
      obtain ⟨_, _, ⟨_, halloc⟩, _⟩ := h
      exact ⟨halloc, .inr hkept⟩
    · intro h
      exact ⟨_, _, ⟨rfl, h.1⟩, rfl, rdrop_append_eq.mpr rfl⟩
  · rw [if_neg hkept]
    refine ⟨?_, ?_⟩
    · intro h
      obtain ⟨_, _, ⟨hfirst, halloc⟩, hlast, heq⟩ := h
      rw [hfirst, ← hlast] at heq
      exact ⟨halloc, .inl ((lastBytes_eq_nil hpos).mp (rdrop_append_eq.mp heq))⟩
    · intro h
      refine ⟨_, _, ⟨rfl, h.1⟩, rfl, rdrop_append_eq.mpr ?_⟩
      exact (lastBytes_eq_nil hpos).mpr (h.2.resolve_right hkept)

theorem complements_lines (hpos : 0 < n) (f : Input) :
    Complements headAlloc tailAlloc .lines (-n) (-n) zeroTerminated f ↔
      HeadSaves headAlloc (delimiterOf zeroTerminated) n f.content ∧
        if f.seekable then
          ¬Unterminated (delimiterOf zeroTerminated) f.content ∨ f.content.count (delimiterOf zeroTerminated) < n
        else calloc tailAlloc n 8 = true := by
  have htail : tailFile tailAlloc .lines (-n) zeroTerminated f = tailLines tailAlloc f (-n) (delimiterOf zeroTerminated) :=
    rfl
  have hsplit : ∀ last, ((delimited (delimiterOf zeroTerminated) f.content).rdrop n).flatten ++ last = f.content ↔
      last = lastRecords (delimiterOf zeroTerminated) n f.content := by
    intro last
    have hall : ((delimited (delimiterOf zeroTerminated) f.content).rdrop n).flatten ++
        lastRecords (delimiterOf zeroTerminated) n f.content = f.content := by
      unfold lastRecords
      rw [← flatten_append, rdrop_append_eq.mpr rfl, delimited_flatten]
    refine ⟨fun heq => append_cancel_left (heq.trans hall.symm), ?_⟩
    intro heq
    rw [heq, hall]
  unfold Complements
  rw [htail]
  simp only [headFile_lines hpos]
  obtain ⟨k, rfl⟩ : ∃ k, n = k + 1 := ⟨n - 1, by omega⟩
  obtain ⟨content, seekable⟩ := f
  dsimp only at hsplit ⊢
  cases seekable with
  | true =>
    rw [tailLines_seek, if_pos rfl, ← drop_lineStart_iff hpos]
    simp only [Outcome.printed.injEq]
    refine ⟨?_, ?_⟩
    · intro h
      obtain ⟨_, _, ⟨hfirst, hsaves⟩, hlast, heq⟩ := h
      rw [hfirst] at heq
      exact ⟨hsaves, hlast.trans ((hsplit _).mp heq)⟩
    · intro h
      exact ⟨_, _, ⟨rfl, h.1⟩, rfl, (hsplit _).mpr h.2⟩
  | false =>
    rw [tailLines_ring, if_neg Bool.false_ne_true]
    refine ⟨?_, ?_⟩
    · intro h
      obtain ⟨_, _, ⟨_, hsaves⟩, hlast, _⟩ := h
      refine ⟨hsaves, ?_⟩
      by_contra hcalloc
      simp [hcalloc] at hlast
    · intro h
      rw [if_pos h.2]
      exact ⟨_, _, ⟨rfl, h.1⟩, rfl, (hsplit _).mpr rfl⟩

end

/-- **Main result.** For a count that both take, head without the last and tail with the last are
complements exactly where something is elided that fits, or nothing of nothing. -/
theorem complements_iff (headAlloc tailAlloc : Nat → Bool) (measure : Measure) (zeroTerminated : Bool) (f : Input)
    {text : Bytes} {elided kept : Int} (hhead : headParseNum (45 :: text) = some elided)
    (htail : tailParseCountArgument text = some kept) :
    Complements headAlloc tailAlloc measure elided kept zeroTerminated f ↔
      ComplementFits headAlloc tailAlloc measure kept.natAbs zeroTerminated f := by
  obtain ⟨n, _, rfl, rfl⟩ := parse_counts hhead htail
  unfold ComplementFits
  rw [Int.natAbs_neg, Int.natAbs_natCast]
  by_cases hzero : n = 0
  · subst hzero
    rw [if_pos rfl]
    exact complements_zero measure f
  · rw [if_neg hzero]
    cases measure with
    | bytes => exact complements_bytes (by omega) f
    | lines => exact complements_lines (by omega) f

/-- The last of two lines -/
theorem complements_one : Complements (fun _ => true) (fun _ => true) .lines (-1) (-1) false ⟨ascii "a\nb\n", false⟩ ↔
      ComplementFits (fun _ => true) (fun _ => true) .lines 1 false ⟨ascii "a\nb\n", false⟩ :=
  @complements_iff (fun _ => true) (fun _ => true) .lines false ⟨ascii "a\nb\n", false⟩ [49] (-1) (-1)
    (by decide) (by decide)

/-- Without a line to elide, head prints nothing. -/
theorem not_complements_zero :
    ¬∀ (headAlloc tailAlloc : Nat → Bool) (measure : Measure) (zeroTerminated : Bool) (f : Input)
      (text : Bytes) (elided kept : Int), headParseNum (45 :: text) = some elided →
      tailParseCountArgument text = some kept →
      Complements headAlloc tailAlloc measure elided kept zeroTerminated f := by
  intro h
  have hzero := h (fun _ => true) (fun _ => true) .lines false ⟨[97], false⟩ [48] 0 0 (by decide) (by decide)
  have hnil := (complements_zero .lines ⟨[97], false⟩).mp hzero
  cases hnil

end Bx.Tail
