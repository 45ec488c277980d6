import Bx.Kit.Bytes
import Bx.Kit.FdTable
import Mathlib.Data.Nat.Prime.Basic

/-!
# Splitting a `-S` string

`src/applets/base/env/env_split.c`. The string is read byte by byte in two quote modes. Whether a word has been
started is kept apart from its text, so that an empty word is a word. Allocations succeed, and counts are of type `int`.
-/

namespace Bx.Env

open Kit List

/-! ## Words -/

structure Words where
  items : List Bytes
  capacity : Nat
  count_le : items.length ≤ capacity
  capacity_dvd : capacity = 0 ∨ capacity ∣ 2 ^ 30

def Words.empty : Words := ⟨[], 0, le_rfl, .inl rfl⟩

/-- Twice a number that divides `2 ^ 30` does so too, or exceeds `INT_MAX`. -/
theorem dvd_double {n : Nat} (h : n ∣ 2 ^ 30) (hint : n * 2 ≤ intMax) : n * 2 ∣ 2 ^ 30 := by
  obtain ⟨k, hk, rfl⟩ := (Nat.dvd_prime_pow Nat.prime_two).mp h
  refine pow_dvd_pow 2 (lt_of_le_of_ne hk ?_)
  intro hlast
  rw [hlast] at hint
  exact absurd hint (by decide)

def exhausted : Bytes := ascii "memory exhausted"

def pushWord (words : Words) (word : Bytes) : Option Words :=
  have hcount : (words.items ++ [word]).length = words.items.length + 1 := length_append
  have hle := words.count_le
  if words.items.length = intMax then none
  else if hfull : words.items.length = words.capacity then
    -- Doubled past `INT_MAX`, an `int` is smaller than it was.
    if hempty : words.capacity = 0 then some ⟨words.items ++ [word], 8, by omega, .inr (by decide)⟩
    else if hwide : intMax < words.capacity * 2 then none
    else
      some ⟨words.items ++ [word], words.capacity * 2, by omega,
        .inr (dvd_double (words.capacity_dvd.resolve_left hempty) (by omega))⟩
  else some ⟨words.items ++ [word], words.capacity, by omega, words.capacity_dvd⟩

theorem pushWord_some (words : Words) (word : Bytes) (hroom : words.items.length < 2 ^ 30) :
    ∃ words', pushWord words word = some words' ∧ words'.items = words.items ++ [word] := by
  have hint : intMax = 2 ^ 31 - 1 := rfl
  unfold pushWord
  rw [if_neg (by omega)]
  by_cases hfull : words.items.length = words.capacity
  · rw [dif_pos hfull]
    by_cases hempty : words.capacity = 0
    · rw [dif_pos hempty]
      exact ⟨_, rfl, rfl⟩
    · rw [dif_neg hempty, dif_neg (by omega)]
      exact ⟨_, rfl, rfl⟩
  · rw [dif_neg hfull]
    exact ⟨_, rfl, rfl⟩

/-! ## The state machine -/

structure Split where
  words : Words
  word : Bytes
  wordStarted : Bool
  singleQuoted : Bool
  doubleQuoted : Bool
  separator : Bool
  /-- The names looked up, each with the value of `singleQuoted` at that time -/
  lookups : List (Bool × Bytes)

/-- One pass of the loop. With `next`, so many bytes are taken behind the one that was read. -/
inductive Move where
  | next (s : Split) (taken : Nat)
  | stop
  | fail (message : Bytes)

/-- `" \t\n\v\f\r"` -/
def isBlank (c : UInt8) : Bool := c = 32 || (9 ≤ c && c ≤ 13)

def isNameStart (c : UInt8) : Bool := (65 ≤ c && c ≤ 90) || (97 ≤ c && c ≤ 122) || c = 95

/-- The name in braces, where `bx_env_split_var_end` finds the end -/
def varName : Bytes → Option Bytes
  | 123 :: first :: rest =>
    let more := rest.takeWhile fun c => isNameStart c || (48 ≤ c && c ≤ 57)
    if isNameStart first ∧ (rest.drop more.length).head? = some 125 then some (first :: more) else none
  | _ => none

section
variable (getenv : Bytes → Option Bytes) (s : Split)

def append (text : Bytes) : Split := { s with word := s.word ++ text, wordStarted := true, separator := false }

def finishWord : Option Split :=
  if s.wordStarted then
    (pushWord s.words s.word).map fun words => { s with words := words, word := [], wordStarted := false }
  else some s

def endWord (taken : Nat) : Move :=
  match finishWord s with
  | none => .fail exhausted
  | some s => .next { s with separator := true } taken

def escape (escaped : UInt8) : Move :=
  if escaped = 95 ∧ s.doubleQuoted = false then endWord s 1
  else if escaped = 95 then .next (append s [32]) 1
  else if escaped = 99 then
    if s.doubleQuoted then .fail (ascii "'\\c' must not appear in double-quoted -S string") else .stop
  else if escaped = 102 then .next (append s [12]) 1
  else if escaped = 110 then .next (append s [10]) 1
  else if escaped = 114 then .next (append s [13]) 1
  else if escaped = 116 then .next (append s [9]) 1
  else if escaped = 118 then .next (append s [11]) 1
  else if escaped ∈ ascii "\"#$'\\" then .next (append s [escaped]) 1
  else .fail (ascii "invalid sequence '\\" ++ escaped :: ascii "' in -S")

def expand (name : Bytes) : Split :=
  let s := { s with lookups := s.lookups ++ [(s.singleQuoted, name)] }
  match getenv name with
  | none => s
  | some value => append s value

def step (byte : UInt8) (rest : Bytes) : Move :=
  if byte = 39 ∧ s.doubleQuoted = false then
    .next { s with singleQuoted := !s.singleQuoted, wordStarted := true, separator := false } 0
  else if byte = 34 ∧ s.singleQuoted = false then
    .next { s with doubleQuoted := !s.doubleQuoted, wordStarted := true, separator := false } 0
  else if isBlank byte ∧ s.singleQuoted = false ∧ s.doubleQuoted = false then endWord s 0
  else if byte = 35 ∧ s.separator ∧ s.singleQuoted = false ∧ s.doubleQuoted = false then .stop
  else if byte = 92 ∧ ¬(s.singleQuoted ∧ rest.head? ≠ some 92 ∧ rest.head? ≠ some 39) then
    match rest with
    | [] => .fail (ascii "invalid backslash at end of string in -S")
    | escaped :: _ => escape s escaped
  else if byte = 36 ∧ s.singleQuoted = false then
    match varName rest with
    | none => .fail (ascii "only $\x7bVARNAME\x7d expansion is supported, error at: " ++ byte :: rest)
    | some name => .next (expand getenv s name) (name.length + 2)
  else .next (append s [byte]) 0

def loop : Bytes → Split → Split × Option Bytes
  | [], s => (s, none)
  | byte :: rest, s =>
    match step getenv s byte rest with
    | .next s taken => loop (rest.drop taken) s
    | .stop => (s, none)
    | .fail message => (s, some message)
termination_by input => input.length
decreasing_by
  rw [length_drop, length_cons]
  omega

/-- Behind the loop: the names that were looked up, and the words or a message -/
def conclude : Split × Option Bytes → List (Bool × Bytes) × Except Bytes Words
  | (s, some message) => (s.lookups, .error message)
  | (s, none) =>
    (s.lookups,
      if s.singleQuoted || s.doubleQuoted then .error (ascii "no terminating quote in -S string")
      else
        match finishWord s with
        | none => .error exhausted
        | some s => .ok s.words)

end

structure SplitResult where
  argv : List Bytes
  argc : Nat
  ownedWordCount : Nat

/-- The words between `argv[0]` and the arguments that are left -/
def assemble (originalArgv : List Bytes) (originalOptind : Nat) (words : Words) : Except Bytes SplitResult :=
  let trailing := originalArgv.drop originalOptind
  if originalArgv.length < originalOptind ∨ (intMax : Int) - trailing.length - 1 < words.items.length then
    .error exhausted
  else
    .ok ⟨originalArgv.take 1 ++ words.items ++ trailing, 1 + words.items.length + trailing.length, words.items.length⟩

def parse (getenv : Bytes → Option Bytes) (input : Bytes) (originalArgv : List Bytes) (originalOptind : Nat) :
    List (Bool × Bytes) × Except Bytes SplitResult :=
  let split := conclude (loop getenv (cText input) ⟨.empty, [], false, false, false, true, []⟩)
  (split.1, split.2.bind (assemble originalArgv originalOptind))

/-! ## Lookups -/

variable {getenv : Bytes → Option Bytes}

theorem endWord_lookups {s s' : Split} {taken n : Nat} (h : endWord s taken = .next s' n) : s'.lookups = s.lookups := by
  unfold endWord finishWord at h
  cases hpush : pushWord s.words s.word with
  | none => grind
  | some words => grind

theorem escape_lookups {s s' : Split} {escaped : UInt8} {n : Nat} (h : escape s escaped = .next s' n) :
    s'.lookups = s.lookups := by
  unfold escape append at h
  grind [endWord_lookups]

/-- Every lookup is made outside single quotes. -/
theorem step_lookups {s s' : Split} {byte : UInt8} {rest : Bytes} {n : Nat} (h : step getenv s byte rest = .next s' n) :
    s'.lookups = s.lookups ∨ ∃ name, s'.lookups = s.lookups ++ [(false, name)] := by
  unfold step expand append at h
  grind [endWord_lookups, escape_lookups]

theorem loop_lookups (input : Bytes) (s : Split) (hs : ∀ lookup ∈ s.lookups, lookup.1 = false) :
    ∀ lookup ∈ (loop getenv input s).1.lookups, lookup.1 = false := by
  fun_induction loop getenv input s with
  | case1 => exact hs
  | case2 s byte rest s' taken hstep ih =>
    apply ih
    intro lookup hlookup
    obtain hsame | ⟨name, hnew⟩ := step_lookups hstep
    · rw [hsame] at hlookup
      exact hs lookup hlookup
    · rw [hnew, mem_append, mem_singleton] at hlookup
      obtain hold | rfl := hlookup
      · exact hs lookup hold
      · rfl
  | case3 => exact hs
  | case4 => exact hs

/-! ## Encoded words -/

/-- A run of blanks -/
abbrev Gap := { blanks : Bytes // blanks ≠ [] ∧ ∀ c ∈ blanks, isBlank c }

def encodeByte (c : UInt8) : Bytes := if c = 92 ∨ c = 39 then [92, c] else [c]

def encodeWord (word : Bytes) : Bytes := 39 :: (word.flatMap encodeByte ++ [39])

/-- Each word behind its gap -/
def spaced (words : List (Gap × CText)) : Bytes := words.flatMap fun word => word.1.1 ++ encodeWord word.2.1

/-- The gap of the first word is left out. -/
def joined : List (Gap × CText) → Bytes
  | [] => []
  | word :: words => encodeWord word.2.1 ++ spaced words

def idle (words : Words) (separator : Bool) : Split := ⟨words, [], false, false, false, separator, []⟩

def inWord (words : Words) (word : Bytes) (singleQuoted : Bool) : Split :=
  ⟨words, word, true, singleQuoted, false, false, []⟩

section
variable {s : Split} {byte : UInt8} {rest : Bytes} {words : Words} {word : Bytes}

theorem loop_next (s' : Split) (taken : Nat) (h : step getenv s byte rest = .next s' taken) :
    loop getenv (byte :: rest) s = loop getenv (rest.drop taken) s' := by
  rw [loop, h]

theorem loop_encodeByte (c : UInt8) :
    loop getenv (encodeByte c ++ rest) (inWord words word true) = loop getenv rest (inWord words (word ++ [c]) true) := by
  unfold encodeByte
  by_cases hback : c = 92
  · rw [if_pos (.inl hback), hback]
    exact loop_next (inWord words (word ++ [92]) true) 1 rfl
  by_cases hquote : c = 39
  · rw [if_pos (.inr hquote), hquote]
    exact loop_next (inWord words (word ++ [39]) true) 1 rfl
  rw [if_neg (by simp [hback, hquote])]
  apply loop_next _ 0
  unfold step
  simp [inWord, append, hback, hquote]

theorem loop_encodeWord (separator : Bool) (word : Bytes) :
    loop getenv (encodeWord word ++ rest) (idle words separator) = loop getenv rest (inWord words word false) := by
  have hbody : ∀ (start : Bytes), loop getenv (word.flatMap encodeByte ++ 39 :: rest) (inWord words start true) =
      loop getenv (39 :: rest) (inWord words (start ++ word) true) := by
    induction word with
    | nil =>
      intro start
      rw [append_nil]
      rfl
    | cons c word ih =>
      intro start
      rw [flatMap_cons, append_assoc, loop_encodeByte, ih, append_assoc, singleton_append]
  show loop getenv (39 :: (word.flatMap encodeByte ++ [39] ++ rest)) (idle words separator) = _
  rw [loop_next (inWord words [] true) 0 rfl, append_assoc, drop_zero, singleton_append, hbody]
  exact loop_next (inWord words word false) 0 rfl

theorem step_blank (hblank : isBlank byte = true) (hsingle : s.singleQuoted = false) (hdouble : s.doubleQuoted = false) :
    step getenv s byte rest = endWord s 0 := by
  unfold step
  rw [if_neg, if_neg, if_pos ⟨hblank, hsingle, hdouble⟩]
  · intro h
    rw [h.1] at hblank
    cases hblank
  · intro h
    rw [h.1] at hblank
    cases hblank

theorem loop_blanks {blanks : Bytes} (hblanks : ∀ c ∈ blanks, isBlank c) :
    loop getenv (blanks ++ rest) (idle words true) = loop getenv rest (idle words true) := by
  induction blanks with
  | nil => rfl
  | cons c blanks ih =>
    have hstep : step getenv (idle words true) c (blanks ++ rest) = .next (idle words true) 0 :=
      step_blank (hblanks c mem_cons_self) rfl rfl
    rw [cons_append, loop_next _ 0 hstep]
    exact ih fun c hc => hblanks c (mem_cons_of_mem _ hc)

theorem conclude_spaced (ws : List (Gap × CText)) (words : Words) (word : Bytes)
    (hroom : words.items.length + ws.length < 2 ^ 30) :
    ∃ words', conclude (loop getenv (spaced ws) (inWord words word false)) = ([], .ok words') ∧
      words'.items = words.items ++ word :: ws.map (·.2.1) := by
  induction ws generalizing words word with
  | nil =>
    obtain ⟨words', hpush, hitems⟩ := pushWord_some words word hroom
    refine ⟨words', ?_, hitems⟩
    unfold spaced
    rw [flatMap_nil, loop]
    simp [conclude, finishWord, inWord, hpush]
  | cons next ws ih =>
    obtain ⟨⟨blanks, hne, hblanks⟩, next⟩ := next
    obtain ⟨c, blanks, rfl⟩ := exists_cons_of_ne_nil hne
    rw [length_cons] at hroom
    obtain ⟨words', hpush, hitems⟩ := pushWord_some words word (by omega)
    have hend : endWord (inWord words word false) 0 = .next (idle words' true) 0 := by
      simp [endWord, finishWord, inWord, idle, hpush]
    obtain ⟨words'', hrest, hall⟩ := ih words' next.1 (by rw [hitems, length_append, length_singleton]; omega)
    refine ⟨words'', ?_, by rw [hall, hitems, append_assoc]; rfl⟩
    show conclude (loop getenv (c :: (blanks ++ encodeWord next.1) ++ spaced ws) (inWord words word false)) = _
    rw [cons_append, append_assoc, loop_next _ 0 ((step_blank (hblanks c mem_cons_self) rfl rfl).trans hend), drop_zero,
      loop_blanks fun c hc => hblanks c (mem_cons_of_mem _ hc), loop_encodeWord, hrest]

end

theorem zero_notMem_encodeWord (word : CText) : 0 ∉ encodeWord word.1 := by
  intro h
  have hzero : 0 ∈ word.1.flatMap encodeByte := by simpa [encodeWord] using h
  obtain ⟨c, hc, hbyte⟩ := mem_flatMap.mp hzero
  unfold encodeByte at hbyte
  have heq : 0 = c := by
    split at hbyte <;> simpa using hbyte
  exact word.2 (heq ▸ hc)

theorem zero_notMem_joined (ws : List (Gap × CText)) : 0 ∉ joined ws := by
  cases ws with
  | nil => exact not_mem_nil
  | cons word ws =>
    intro h
    obtain hfirst | hmore := mem_append.mp h
    · exact zero_notMem_encodeWord _ hfirst
    · obtain ⟨next, _, hnext⟩ := mem_flatMap.mp hmore
      obtain hgap | hword := mem_append.mp hnext
      · cases next.1.2.2 0 hgap
      · exact zero_notMem_encodeWord _ hword

variable (getenv) in
theorem parse_joined (ws : List (Gap × CText)) (argv : List Bytes) (optind : Nat) (hroom : ws.length ≤ 2 ^ 30) :
    ∃ words, words.items = ws.map (·.2.1) ∧ parse getenv (joined ws) argv optind = ([], assemble argv optind words) := by
  obtain ⟨words, hwords, hitems⟩ : ∃ words, conclude (loop getenv (joined ws) (idle .empty true)) = ([], .ok words) ∧
      words.items = ws.map (·.2.1) := by
    cases ws with
    | nil =>
      unfold joined
      rw [loop]
      exact ⟨_, rfl, rfl⟩
    | cons word ws =>
      unfold joined
      rw [loop_encodeWord]
      exact conclude_spaced ws .empty word.2.1 ((Nat.zero_add _).trans_lt hroom)
  refine ⟨words, hitems, ?_⟩
  unfold idle at hwords
  unfold parse
  rw [cText_of_zero_notMem (zero_notMem_joined ws), hwords]
  rfl

/-- **Main result.** Words in single quotes are split as they were while the counters hold them, no name is looked up
inside single quotes, and whatever the string is, all arguments are there or a message is. -/
theorem env_split_words (getenv : Bytes → Option Bytes) (argv0 : Bytes) :
    (∀ (ws : List (Gap × CText)) (before trailing : List Bytes), ws.length ≤ 2 ^ 30 →
      1 + ws.length + trailing.length ≤ intMax →
      parse getenv (joined ws) (argv0 :: before ++ trailing) (before.length + 1) =
        ([], .ok ⟨argv0 :: ws.map (·.2.1) ++ trailing, 1 + ws.length + trailing.length, ws.length⟩)) ∧
    ∀ (input : Bytes) (argv : List Bytes) (optind : Nat),
      let parsed := parse getenv input (argv0 :: argv) optind
      (∀ lookup ∈ parsed.1, lookup.1 = false) ∧
        ((∃ message, parsed.2 = .error message) ∨
          ∃ result words, parsed.2 = .ok result ∧ result.argv = argv0 :: words ++ (argv0 :: argv).drop optind ∧
            result.argc = result.argv.length ∧ result.ownedWordCount = words.length) := by
  refine ⟨?_, fun input argv optind => ⟨?_, ?_⟩⟩
  · intro ws before trailing hroom hfits
    obtain ⟨words, hitems, hparse⟩ := parse_joined getenv ws (argv0 :: before ++ trailing) (before.length + 1) hroom
    have htrailing : (argv0 :: before ++ trailing).drop (before.length + 1) = trailing := drop_left' rfl
    rw [hparse, assemble, htrailing, hitems, length_map, if_neg]
    · rfl
    · rw [length_append, length_cons]
      omega
  · have hrun := @loop_lookups getenv (cText input) (idle .empty true) (by simp [idle])
    show ∀ lookup ∈ (conclude (loop getenv (cText input) (idle .empty true))).1, lookup.1 = false
    generalize loop getenv (cText input) (idle .empty true) = ended at hrun
    obtain ⟨s, _ | message⟩ := ended
    · exact hrun
    · exact hrun
  · have hparse : (parse getenv input (argv0 :: argv) optind).2 =
        (conclude (loop getenv (cText input) (idle .empty true))).2.bind (assemble (argv0 :: argv) optind) := rfl
    rw [hparse]
    cases (conclude (loop getenv (cText input) (idle .empty true))).2 with
    | error message => exact .inl ⟨message, rfl⟩
    | ok words =>
      show (∃ message, assemble _ _ words = _) ∨ ∃ result names, assemble _ _ words = _ ∧ _
      unfold assemble
      dsimp only
      split
      · exact .inl ⟨_, rfl⟩
      · refine .inr ⟨_, words.items, rfl, rfl, ?_, rfl⟩
        rw [length_append]
        exact congrArg (· + _) (Nat.add_comm 1 _)

def space : Gap := ⟨[32], cons_ne_nil _ _, forall_mem_singleton.mpr rfl⟩

/-- An empty word and one that is not -/
theorem env_split_two : parse (fun _ => none) (ascii "'' '\\\\'") [[], [97], [98]] 2 =
    ([], .ok ⟨[[], [], [92], [98]], 4, 2⟩) :=
  (env_split_words (fun _ => none) []).1 [(space, ⟨[], not_mem_nil⟩), (space, ⟨[92], by decide⟩)] [[97]] [[98]]
    (by decide) (by decide)

/-- Two words do not fit in front of so many arguments. -/
theorem env_split_crowded : ¬∀ (ws : List (Gap × CText)) (trailing : List Bytes),
    parse (fun _ => none) (joined ws) ([] :: [[]] ++ trailing) 2 =
      ([], .ok ⟨[] :: ws.map (·.2.1) ++ trailing, 1 + ws.length + trailing.length, ws.length⟩) := by
  intro h
  obtain ⟨words, hitems, hparse⟩ := parse_joined (fun _ => none) (replicate 2 (space, ⟨[], not_mem_nil⟩))
    ([] :: [[]] ++ replicate (intMax - 2) []) 2 (by decide)
  have hall := hparse.symm.trans (h _ _)
  rw [assemble, hitems, if_pos] at hall
  · cases hall
  · right
    show (intMax : Int) - (replicate (intMax - 2) ([] : Bytes)).length - 1 < 2
    rw [length_replicate]
    decide

end Bx.Env
