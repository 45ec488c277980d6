import Bx.Kit.Bytes
import Bx.Kit.Delimited
import Bx.Kit.KeepLast

/-!
# tail

What `src/applets/base/tail/tail.c` prints of one input: from a place it can seek to, or from a ring that is as large as
the count. Back from the end of a file, printing starts behind the delimiter that is one too many. Reading and writing
do not fail.
-/

namespace Bx.Tail

open Kit List

structure Input where
  content : Bytes
  seekable : Bool

inductive Outcome
  | printed (out : Bytes)
  | crash
  deriving DecidableEq

def sizeMax : Nat := 2 ^ 64 - 1

section
-- whether there is memory for a ring of so many bytes
variable (alloc : Nat → Bool)

def calloc (count size : Nat) : Bool := count * size ≤ sizeMax && alloc (count * size)

/-! ## Bytes -/

/-- What is behind `fseek (f, -n, SEEK_END)`, which fails in front of the first byte -/
def seekFromEnd (f : Input) (n : Nat) : Option Bytes :=
  if f.seekable ∧ n ≤ f.content.length then some (f.content.drop (f.content.length - n)) else none

/-- A negative count is that of the last bytes, a positive one the place of the first byte. -/
def tailBytes (f : Input) (n : Int) : Outcome :=
  match n with
  | .ofNat 0 => .printed []
  | .ofNat (n + 1) => .printed (f.content.drop n)
  | .negSucc n =>
    let n := n + 1
    match seekFromEnd f n with
    | some rest => .printed rest
    | none =>
      if !alloc n then .printed []
      else .printed (f.content.foldl KeepLast.push (KeepLast.empty n)).contents.reduceOption

/-! ## Lines -/

def skipLines (delimiter : UInt8) : Nat → Bytes → Bytes
  | 0, content => content
  | _, [] => []
  | n + 1, c :: content => if c = delimiter then skipLines delimiter n content else skipLines delimiter (n + 1) content

/-- Back from `pos`, behind which there are `count` delimiters: where printing starts -/
def lineStart (delimiter : UInt8) (content : Bytes) (n : Nat) : Nat → Nat → Nat
  | 0, _ => 0
  | pos + 1, count =>
    if content[pos]? = some delimiter then
      if n < count + 1 then pos + 1 else lineStart delimiter content n pos (count + 1)
    else lineStart delimiter content n pos count

def tailLines (f : Input) (n : Int) (delimiter : UInt8) : Outcome :=
  match n with
  | .ofNat 0 => .printed []
  | .ofNat (n + 1) => .printed (skipLines delimiter n f.content)
  | .negSucc n =>
    let n := n + 1
    if f.seekable then .printed (f.content.drop (lineStart delimiter f.content n f.content.length 0))
    else if !calloc alloc n 8 then .crash
    else .printed ((delimited delimiter f.content).foldl KeepLast.push (KeepLast.empty n)).contents.reduceOption.flatten

end

def delimiterOf (zeroTerminated : Bool) : UInt8 := if zeroTerminated then 0 else 10

def lastBytes (n : Nat) (content : Bytes) : Bytes := content.rtake n

def lastRecords (delimiter : UInt8) (n : Nat) (content : Bytes) : Bytes := ((delimited delimiter content).rtake n).flatten

/-! ## Where the last lines start -/

/-- The end of the content that has `n` delimiters and a delimiter before it, or all of it -/
def EndsWith (delimiter : UInt8) (n : Nat) (content rest : Bytes) : Prop :=
  rest = content ∧ content.count delimiter ≤ n ∨ delimiter :: rest <:+ content ∧ rest.count delimiter = n

variable {delimiter : UInt8} {content : Bytes} {n : Nat}

theorem EndsWith.suffix {rest : Bytes} (h : EndsWith delimiter n content rest) : rest <:+ content := by
  cases h with
  | inl h =>
    obtain ⟨rfl, _⟩ := h
    exact suffix_refl _
  | inr h => exact (suffix_cons _ _).trans h.1

theorem EndsWith.count_le {rest : Bytes} (h : EndsWith delimiter n content rest) : rest.count delimiter ≤ n := by
  cases h with
  | inl h =>
    rw [h.1]
    exact h.2
  | inr h => exact le_of_eq h.2

variable {rest other : Bytes}

section
variable (h : EndsWith delimiter n content rest) (hother : EndsWith delimiter n content other)
include h hother

theorem EndsWith.length_le : other.length ≤ rest.length := by
  cases h with
  | inl h =>
    rw [h.1]
    exact hother.suffix.length_le
  | inr h =>
    -- a longer end has the delimiter in front of this one as well
    by_contra hlt
    have hsuffix : delimiter :: rest <:+ other := by
      apply suffix_of_suffix_length_le h.1 hother.suffix
      rw [length_cons]
      omega
    have hcount := hsuffix.sublist.count_le delimiter
    rw [count_cons_self, h.2] at hcount
    have hle := hother.count_le
    omega

theorem EndsWith.unique : rest = other := by
  have hlength := le_antisymm (hother.length_le h) (h.length_le hother)
  exact (suffix_of_suffix_length_le h.suffix hother.suffix (le_of_eq hlength)).eq_of_length hlength

end

theorem lineStart_endsWith {pos count : Nat} (hpos : pos ≤ content.length)
    (hcount : (content.drop pos).count delimiter = count) (hle : count ≤ n) :
    EndsWith delimiter n content (content.drop (lineStart delimiter content n pos count)) := by
  induction pos generalizing count with
  | zero =>
    rw [drop_zero] at hcount
    refine .inl ⟨rfl, ?_⟩
    rw [hcount]
    exact hle
  | succ pos ih =>
    have hdrop : content.drop pos = content[pos] :: content.drop (pos + 1) := drop_eq_getElem_cons hpos
    have hget : content[pos]? = some content[pos] := getElem?_eq_getElem hpos
    unfold lineStart
    by_cases hhit : content[pos] = delimiter
    · rw [hhit] at hget hdrop
      rw [if_pos hget]
      by_cases hmore : n < count + 1
      · rw [if_pos hmore]
        refine .inr ⟨?_, by omega⟩
        rw [← hdrop]
        exact drop_suffix _ _
      · rw [if_neg hmore]
        apply ih (by omega)
        · rw [hdrop, count_cons_self, hcount]
        · omega
    · rw [hget, if_neg (fun heq => hhit (Option.some.inj heq))]
      apply ih (by omega) _ hle
      rw [hdrop, count_cons_of_ne hhit, hcount]

theorem lastRecords_endsWith (delimiter : UInt8) (content : Bytes) (h : 0 < n) :
    EndsWith delimiter (if Unterminated delimiter content then n - 1 else n) content
      (lastRecords delimiter n content) := by
  have hlength := delimited_length delimiter content
  have hflatten := delimited_flatten delimiter content
  unfold lastRecords rtake
  by_cases hmore : n < (delimited delimiter content).length
  · obtain ⟨j, hj⟩ : ∃ j, (delimited delimiter content).length - n = j + 1 :=
      ⟨(delimited delimiter content).length - n - 1, by omega⟩
    obtain ⟨before, hbefore, hcount⟩ := delimited_take delimiter content (j := j) (by omega)
    rw [hj]
    have hsplit : before ++ [delimiter] ++ ((delimited delimiter content).drop (j + 1)).flatten = content := by
      rw [← hbefore, ← flatten_append, take_append_drop, hflatten]
    refine .inr ⟨⟨before, ?_⟩, ?_⟩
    · rw [append_assoc] at hsplit
      exact hsplit
    · have htotal := congrArg (List.count delimiter) hsplit
      rw [count_append, count_append, hcount, count_singleton_self] at htotal
      split
      · rename_i hu
        rw [if_pos hu] at hlength
        omega
      · rename_i hu
        rw [if_neg hu] at hlength
        omega
  · have hzero : (delimited delimiter content).length - n = 0 := by omega
    rw [hzero, drop_zero, hflatten]
    refine .inl ⟨rfl, ?_⟩
    split
    · rename_i hu
      rw [if_pos hu] at hlength
      omega
    · rename_i hu
      rw [if_neg hu] at hlength
      omega

theorem drop_lineStart_iff (h : 0 < n) :
    content.drop (lineStart delimiter content n content.length 0) = lastRecords delimiter n content ↔
      ¬Unterminated delimiter content ∨ content.count delimiter < n := by
  have hfound : EndsWith delimiter n content (content.drop (lineStart delimiter content n content.length 0)) := by
    apply lineStart_endsWith (le_rfl) _ (Nat.zero_le _)
    rw [drop_length]
    rfl
  have hwanted := lastRecords_endsWith delimiter content h
  by_cases hu : Unterminated delimiter content
  · rw [if_pos hu] at hwanted
    refine ⟨?_, ?_⟩
    · intro heq
      rw [heq] at hfound
      cases hfound with
      | inl hall => exact .inr (by
          have hle := hwanted.count_le
          rw [hall.1] at hle
          omega)
      | inr hpart =>
        have hle := hwanted.count_le
        omega
    · intro hor
      cases hor with
      | inl hnot => exact absurd hu hnot
      | inr hlt =>
        have hall : ∀ m rest, content.count delimiter ≤ m → EndsWith delimiter m content rest → rest = content := by
          intro m rest hle hrest
          exact hrest.unique (.inl ⟨rfl, hle⟩)
        rw [hall _ _ (by omega) hfound, hall _ _ (by omega) hwanted]
  · rw [if_neg hu] at hwanted
    exact ⟨fun _ => .inl hu, fun _ => hfound.unique hwanted⟩

/-! ## Both ways of taking a tail -/

theorem reduceOption_map_some {α : Type*} (xs : List α) : (xs.map some).reduceOption = xs := by
  unfold reduceOption
  rw [filterMap_map]
  exact filterMap_some

theorem lastBytes_of_length_le (h : content.length ≤ n) : lastBytes n content = content := by
  unfold lastBytes rtake
  have hzero : content.length - n = 0 := by omega
  rw [hzero]
  rfl

section
variable {alloc : Nat → Bool}

theorem tailBytes_neg (f : Input) (n : Nat) : tailBytes alloc f (-(n + 1 : Nat)) =
      .printed (if f.seekable ∧ n + 1 ≤ f.content.length ∨ alloc (n + 1) = true then lastBytes (n + 1) f.content
        else []) := by
  show tailBytes alloc f (.negSucc n) = _
  unfold tailBytes seekFromEnd
  by_cases hseek : f.seekable ∧ n + 1 ≤ f.content.length
  · simp only [if_pos hseek, if_pos (Or.inl hseek)]
    rfl
  · simp only [if_neg hseek]
    cases halloc : alloc (n + 1) with
    | false =>
      have hno : ¬((f.seekable ∧ n + 1 ≤ f.content.length) ∨ false = true) := fun hor => hor.elim hseek Bool.false_ne_true
      rw [if_neg hno]
      rfl
    | true =>
      have hyes : (f.seekable ∧ n + 1 ≤ f.content.length) ∨ true = true := .inr rfl
      rw [if_pos hyes]
      show Outcome.printed (f.content.foldl KeepLast.push (KeepLast.empty (n + 1))).contents.reduceOption = _
      rw [KeepLast.contents_foldl_push (Nat.succ_pos n), reduceOption_map_some]
      rfl

theorem tailLines_ring (content : Bytes) (n : Nat) : tailLines alloc ⟨content, false⟩ (-(n + 1 : Nat)) delimiter =
      if calloc alloc (n + 1) 8 = true then .printed (lastRecords delimiter (n + 1) content) else .crash := by
  show tailLines alloc ⟨content, false⟩ (.negSucc n) delimiter = _
  unfold tailLines
  simp only [Bool.false_eq_true, if_false]
  cases calloc alloc (n + 1) 8 with
  | false => rfl
  | true =>
    simp only [Bool.not_true, Bool.false_eq_true, if_false, if_true]
    rw [KeepLast.contents_foldl_push (Nat.succ_pos n), reduceOption_map_some]
    rfl

theorem tailLines_seek (content : Bytes) (n : Nat) : tailLines alloc ⟨content, true⟩ (-(n + 1 : Nat)) delimiter =
      .printed (content.drop (lineStart delimiter content (n + 1) content.length 0)) := rfl

variable (alloc)

structure TakesTail (content : Bytes) (n : Nat) (delimiter : UInt8) : Prop where
  bytes : ∀ seekable, tailBytes alloc ⟨content, seekable⟩ (-n) = .printed (lastBytes n content)
  lines : ∀ seekable, tailLines alloc ⟨content, seekable⟩ (-n) delimiter = .printed (lastRecords delimiter n content)

/-- There is memory for both rings, one only if there is a byte to keep, and a last line
without its delimiter is one of no more lines than are wanted. -/
def TailFits (content : Bytes) (n : Nat) (delimiter : UInt8) : Prop :=
  (content = [] ∨ alloc n = true) ∧ calloc alloc n 8 = true ∧
    (¬Unterminated delimiter content ∨ content.count delimiter < n)

/-- **Main result.** A count takes the tail exactly where it is zero or its rings fit and no
unterminated line is in the way. -/
theorem takesTail_iff (content : Bytes) (n : Nat) (zeroTerminated : Bool) :
    TakesTail alloc content n (delimiterOf zeroTerminated) ↔
      n = 0 ∨ TailFits alloc content n (delimiterOf zeroTerminated) := by
  generalize delimiterOf zeroTerminated = delimiter
  cases n with
  | zero =>
    refine ⟨fun _ => .inl rfl, fun _ => ⟨?_, ?_⟩⟩
    · intro seekable
      unfold lastBytes
      rw [rtake_zero]
      rfl
    · intro seekable
      unfold lastRecords
      rw [rtake_zero]
      rfl
  | succ n =>
    have hbytes : (∀ seekable, tailBytes alloc ⟨content, seekable⟩ (-(n + 1 : Nat)) = .printed (lastBytes (n + 1) content)) ↔
        content = [] ∨ alloc (n + 1) = true := by
      refine ⟨?_, ?_⟩
      · intro hall
        have hpipe := hall false
        rw [tailBytes_neg] at hpipe
        by_cases halloc : alloc (n + 1) = true
        · exact .inr halloc
        · rw [if_neg (by simp [halloc]), Outcome.printed.injEq] at hpipe
          refine .inl ?_
          have hlength := congrArg List.length hpipe
          unfold lastBytes rtake at hlength
          rw [length_nil, length_drop] at hlength
          apply length_eq_zero_iff.mp
          omega
      · intro hor seekable
        rw [tailBytes_neg]
        cases hor with
        | inl hnil =>
          rw [hnil, lastBytes_of_length_le (Nat.zero_le _), ite_self]
        | inr halloc => rw [if_pos (.inr halloc)]
    have hlines : (∀ seekable, tailLines alloc ⟨content, seekable⟩ (-(n + 1 : Nat)) delimiter =
          .printed (lastRecords delimiter (n + 1) content)) ↔
        calloc alloc (n + 1) 8 = true ∧ (¬Unterminated delimiter content ∨ content.count delimiter < n + 1) := by
      rw [Bool.forall_bool, tailLines_ring, tailLines_seek, Outcome.printed.injEq, drop_lineStart_iff (Nat.succ_pos n)]
      by_cases hcalloc : calloc alloc (n + 1) 8 = true
      · simp [hcalloc]
      · simp [hcalloc]
    refine ⟨fun h => .inr ⟨hbytes.mp h.bytes, hlines.mp h.lines⟩, ?_⟩
    intro h
    cases h with
    | inl hzero => cases hzero
    | inr h => exact ⟨hbytes.mpr h.1, hlines.mpr h.2⟩

end

/-- Both lines of a file are printed where the last one is wanted. -/
theorem not_takesTail_of_unterminated : ¬∀ (alloc : Nat → Bool) (content : Bytes) (n : Nat) (zeroTerminated : Bool),
      TakesTail alloc content n (delimiterOf zeroTerminated) := by
  intro h
  have hlines := (h (fun _ => true) (ascii "a\nb") 1 false).lines true
  revert hlines
  decide

end Bx.Tail
