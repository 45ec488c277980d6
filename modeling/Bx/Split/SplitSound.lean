import Bx.Split.Split
import Mathlib.Data.List.Nodup

/-!
# split loses nothing

The suffixes count like an odometer, so the names repeat once it has run over. The loop opens one file for each full
piece and one more for what is left.
-/

namespace Bx.Split
open Kit List

/-! ## Suffixes -/

def alphabetSize : Alphabet → Nat
  | .alphabetic => 26
  | .numeric => 10
  | .hex => 16

def charRank : Alphabet → UInt8 → Nat
  | .alphabetic, c => if 97 ≤ c ∧ c ≤ 122 then c.toNat - 97 else 26
  | .numeric, c => if 48 ≤ c ∧ c ≤ 57 then c.toNat - 48 else 10
  | .hex, c =>
    if 48 ≤ c ∧ c ≤ 57 then c.toNat - 48
    else if 97 ≤ c ∧ c ≤ 102 then c.toNat - 87
    else 16

variable (alphabet : Alphabet)

theorem alphabetSize_pos : 0 < alphabetSize alphabet := by
  cases alphabet <;> decide

theorem charRank_firstChar : charRank alphabet (firstChar alphabet) = 0 := by
  cases alphabet <;> decide

set_option maxRecDepth 4000 in
theorem charRank_nextChar (c : UInt8) (hc : charRank alphabet c < alphabetSize alphabet) : ∀ d ∈ nextChar alphabet c,
      charRank alphabet d = charRank alphabet c + 1 ∧ charRank alphabet d < alphabetSize alphabet := by
  have hall : ∀ n, n < 256 → charRank alphabet (UInt8.ofNat n) < alphabetSize alphabet →
      (nextChar alphabet (UInt8.ofNat n)).all (fun d => charRank alphabet d = charRank alphabet (UInt8.ofNat n) + 1 ∧
        charRank alphabet d < alphabetSize alphabet) = true := by
    cases alphabet <;> decide
  intro d hd
  have hc' := forall_byte (P := fun c => charRank alphabet c < alphabetSize alphabet → (nextChar alphabet c).all
    (fun d => charRank alphabet d = charRank alphabet c + 1 ∧ charRank alphabet d < alphabetSize alphabet) = true) hall c hc
  rw [Option.mem_def.mp hd] at hc'
  exact of_decide_eq_true hc'

set_option maxRecDepth 4000 in
theorem charRank_last (c : UInt8) (hc : charRank alphabet c < alphabetSize alphabet)
    (h : nextChar alphabet c = none) : charRank alphabet c + 1 = alphabetSize alphabet := by
  revert c
  apply forall_byte
  cases alphabet <;> decide

def wheel : Wheel UInt8 where
  first := firstChar alphabet
  next := nextChar alphabet
  rank := charRank alphabet
  size := alphabetSize alphabet
  pos := alphabetSize_pos alphabet
  rank_first := charRank_firstChar alphabet
  rank_next := charRank_nextChar alphabet
  rank_last := charRank_last alphabet

theorem nextSuffixFrom_eq (suffix : Bytes) : nextSuffixFrom alphabet suffix = turn (wheel alphabet) suffix := by
  induction suffix with
  | nil => rfl
  | cons c suffix ih =>
    have hnext : (wheel alphabet).next c = nextChar alphabet c := rfl
    simp only [nextSuffixFrom, turn, ih, hnext]
    by_cases hover : (turn (wheel alphabet) suffix).2 = true
    · rw [if_pos hover, if_pos hover]
      cases nextChar alphabet c with
      | some d => rfl
      | none => rfl
    · rw [if_neg hover, if_neg hover]

def suffixAt (opts : Options) (n : Nat) : Bytes := rowAt (wheel opts.alphabet) opts.suffixLength n

theorem nextSuffix_suffixAt (opts : Options) (n : Nat) :
    nextSuffix opts.alphabet (suffixAt opts n) = suffixAt opts (n + 1) := by
  unfold nextSuffix suffixAt
  rw [nextSuffixFrom_eq, rowAt_succ]

def suffixes (opts : Options) : Nat := alphabetSize opts.alphabet ^ opts.suffixLength

theorem suffixes_pos (opts : Options) : 0 < suffixes opts := Nat.pow_pos (alphabetSize_pos opts.alphabet)

theorem suffixAt_inj {opts : Options} {m n : Nat} (hm : m < suffixes opts) (hn : n < suffixes opts)
    (h : suffixAt opts m = suffixAt opts n) : m = n :=
  rowAt_inj (wheel opts.alphabet) hm hn h

theorem suffixAt_suffixes (opts : Options) : suffixAt opts (suffixes opts) = suffixAt opts 0 :=
  rowAt_size (wheel opts.alphabet) opts.suffixLength

/-! ## Pieces -/

variable (size : Size)

def unitsOf (bytes : Bytes) : Nat := if size.byLines then bytes.count 10 else bytes.length

theorem unitsOf_append (a b : Bytes) : unitsOf size (a ++ b) = unitsOf size a + unitsOf size b := by
  unfold unitsOf
  split
  · exact count_append
  · exact length_append

theorem unitsOf_nil : unitsOf size [] = 0 := by
  unfold unitsOf
  split <;> rfl

/-- A piece takes its bytes off the input; it is full, or it took what there was. -/
structure Took (units : Bytes → Nat) (count : Nat) (reads : Reads) (filled : Filled) : Prop where
  split : input reads = filled.bytes ++ input filled.reads
  full : filled.eof = false → units filled.bytes = count
  rest : filled.eof = true → input filled.reads = [] ∧ units filled.bytes < count

theorem took_fillBytes (count : Nat) (reads : Reads) : Took List.length count reads (fillBytes count reads) := by
  induction count generalizing reads with
  | zero => exact ⟨rfl, fun _ => rfl, fun h => Bool.noConfusion h⟩
  | succ count ih =>
    unfold fillBytes
    cases hget : getc reads with
    | none =>
      have hempty := input_of_getc_none hget
      exact ⟨rfl, fun h => Bool.noConfusion h, fun _ => ⟨hempty, Nat.succ_pos _⟩⟩
    | some got =>
      obtain ⟨ch, rest⟩ := got
      obtain ⟨hsplit, hfull, hrest⟩ := ih rest
      refine ⟨?_, ?_, ?_⟩
      · rw [input_of_getc hget, hsplit]
        rfl
      · intro heof
        rw [length_cons, hfull heof]
      · intro heof
        rw [length_cons]
        exact ⟨(hrest heof).1, Nat.succ_lt_succ (hrest heof).2⟩

theorem took_copyLine (reads : Reads) : Took (List.count 10) 1 reads (copyLine reads) := by
  fun_induction copyLine reads with
  | case1 reads hget => exact ⟨rfl, fun h => Bool.noConfusion h, fun _ => ⟨input_of_getc_none hget, Nat.one_pos⟩⟩
  | case2 reads rest hget => exact ⟨input_of_getc hget, fun _ => rfl, fun h => Bool.noConfusion h⟩
  | case3 reads ch rest hget hne copied ih =>
    obtain ⟨hsplit, hfull, hrest⟩ := ih
    have hcount : (ch :: copied.bytes).count 10 = copied.bytes.count 10 := count_cons_of_ne hne
    refine ⟨?_, ?_, ?_⟩
    · rw [input_of_getc hget, hsplit]
      rfl
    · intro heof
      exact hcount.trans (hfull heof)
    · intro heof
      exact ⟨(hrest heof).1, hcount.trans_lt (hrest heof).2⟩

theorem took_fillLines (count : Nat) (reads : Reads) : Took (List.count 10) count reads (fillLines count reads) := by
  induction count generalizing reads with
  | zero => exact ⟨rfl, fun _ => rfl, fun h => Bool.noConfusion h⟩
  | succ count ih =>
    obtain ⟨hline, hlineFull, hlineRest⟩ := took_copyLine reads
    unfold fillLines
    dsimp only
    by_cases heof : (copyLine reads).eof = true
    · rw [if_pos heof]
      obtain ⟨hempty, hlt⟩ := hlineRest heof
      exact ⟨hline, fun h => absurd h (by rw [heof]; decide), fun _ => ⟨hempty, by omega⟩⟩
    · rw [if_neg heof]
      have hone := hlineFull (by simpa using heof)
      obtain ⟨hsplit, hfull, hrest⟩ := ih (copyLine reads).reads
      refine ⟨?_, ?_, ?_⟩
      · rw [hline, hsplit, append_assoc]
      · intro h
        rw [count_append, hone, hfull h, add_comm]
      · intro h
        rw [count_append, hone]
        exact ⟨(hrest h).1, by have := (hrest h).2; omega⟩

theorem took_fill (reads : Reads) : Took (unitsOf size) size.count reads (fill size reads) := by
  unfold fill
  by_cases hlines : size.byLines = true
  · have hunits : unitsOf size = List.count 10 := by
      funext bytes
      unfold unitsOf
      rw [if_pos hlines]
    rw [if_pos hlines, hunits]
    exact took_fillLines size.count reads
  · have hunits : unitsOf size = List.length := by
      funext bytes
      unfold unitsOf
      rw [if_neg hlines]
    rw [if_neg hlines, hunits]
    exact took_fillBytes size.count reads

theorem Took.ne_nil {size : Size} {reads : Reads} {filled : Filled} (h : Took (unitsOf size) size.count reads filled)
    (heof : filled.eof = false) : filled.bytes ≠ [] := by
  intro hnil
  have hfull := h.full heof
  have hpos := size.pos
  rw [hnil, unitsOf_nil] at hfull
  omega

theorem place_new {files : List Piece} {piece : Piece} (h : piece.name ∉ files.map Piece.name) :
    place files piece = files ++ [piece].filter (·.bytes ≠ []) := by
  have hothers : files.filter (·.name ≠ piece.name) = files := by
    apply filter_eq_self.mpr
    intro file hfile
    have hne : file.name ≠ piece.name := fun heq => h (heq ▸ mem_map_of_mem hfile)
    simpa using hne
  unfold place
  dsimp only
  rw [hothers]
  by_cases hempty : piece.bytes = []
  · rw [if_pos hempty]
    simp [hempty]
  · rw [if_neg hempty, if_pos rfl]
    simp [hempty]

theorem foldl_place {files pieces : List Piece} (h : ((files ++ pieces).map Piece.name).Nodup) :
    pieces.foldl place files = files ++ pieces.filter (·.bytes ≠ []) := by
  induction pieces generalizing files with
  | nil => simp
  | cons piece pieces ih =>
    have hsplit : files ++ piece :: pieces = (files ++ [piece]) ++ pieces := by simp
    have hnew : piece.name ∉ files.map Piece.name := by
      rw [map_append, map_cons] at h
      intro hmem
      exact (nodup_append.mp h).2.2 _ hmem _ mem_cons_self rfl
    rw [foldl_cons, place_new hnew]
    have hnodup : (((files ++ [piece].filter (·.bytes ≠ [])) ++ pieces).map Piece.name).Nodup := by
      rw [hsplit] at h
      refine List.Nodup.sublist ?_ h
      exact ((List.Sublist.append_left filter_sublist files).append_right pieces).map _
    rw [ih hnodup, append_assoc, ← filter_append, singleton_append]

theorem flatten_filter_ne_nil (pieces : List Piece) :
    ((pieces.filter (·.bytes ≠ [])).map Piece.bytes).flatten = (pieces.map Piece.bytes).flatten := by
  induction pieces with
  | nil => rfl
  | cons piece pieces ih =>
    by_cases hempty : piece.bytes = []
    · rw [filter_cons_of_neg (by simpa using hempty), ih, map_cons, flatten_cons, hempty]
      rfl
    · rw [filter_cons_of_pos (by simpa using hempty), map_cons, map_cons, flatten_cons,
        flatten_cons, ih]

/-! ## Runs -/

section
variable (opts : Options) (target : Target) (bytes : Bytes)

def fullPieces : Nat := unitsOf opts.size bytes / opts.size.count

def nameAt (n : Nat) : Bytes := target.namePrefix ++ suffixAt opts n

/-- After `k` files the loop has put `k` full pieces on disk. -/
structure Filling (s : State) (k : Nat) : Prop where
  length : s.opened.length = k
  suffix : s.suffix = suffixAt opts k
  names : s.opened.map Piece.name = (List.range k).map (nameAt opts target)
  filled : ∀ file ∈ s.opened, file.bytes ≠ []
  split : (s.opened.map Piece.bytes).flatten ++ input s.reads = bytes
  units : unitsOf opts.size (s.opened.map Piece.bytes).flatten = k * opts.size.count
  opens : ∀ i, i < k → target.fopen i = true

/-- How the loop ends after opening `m` files -/
structure Ran (outcome : Outcome) (m : Nat) : Prop where
  names : outcome.opened.map Piece.name = (List.range m).map (nameAt opts target)
  filled : ∀ file ∈ outcome.opened.dropLast, file.bytes ≠ []
  opens : ∀ i, i < m → target.fopen i = true
  ending : (outcome.reported = true ∧ m ≤ fullPieces opts bytes ∧ target.fopen m = false) ∨
    (outcome.reported = false ∧ m = fullPieces opts bytes + 1 ∧ (outcome.opened.map Piece.bytes).flatten = bytes)

variable {k : Nat} {s : State}

theorem Filling.go {s t : State} (h : Filling opts target bytes s k) (hstep : iteration opts target s = .inl t) :
    Filling opts target bytes t (k + 1) ∧ (input t.reads).length < (input s.reads).length := by
  have htook := took_fill opts.size s.reads
  unfold iteration at hstep
  by_cases hopen : target.fopen s.opened.length = true
  · rw [if_pos hopen] at hstep
    dsimp only at hstep
    by_cases heof : (fill opts.size s.reads).eof = true
    · simp [heof] at hstep
    · rw [if_neg heof, Sum.inl.injEq] at hstep
      have hmore : (fill opts.size s.reads).eof = false := by simpa using heof
      have hne := htook.ne_nil hmore
      subst hstep
      refine ⟨⟨?_, ?_, ?_, ?_, ?_, ?_, ?_⟩, ?_⟩
      · rw [length_append, h.length]
        rfl
      · rw [h.suffix]
        exact nextSuffix_suffixAt opts k
      · rw [map_append, h.names, range_succ, map_append, h.suffix]
        rfl
      · intro file hfile
        cases mem_append.mp hfile with
        | inl hold => exact h.filled file hold
        | inr hnew =>
          rw [mem_singleton.mp hnew]
          exact hne
      · have hsplit := h.split
        rw [htook.split, ← append_assoc] at hsplit
        simpa using hsplit
      · have hunits := htook.full hmore
        simp only [map_append, flatten_append, unitsOf_append, h.units]
        simp only [map_cons, map_nil, flatten_cons, flatten_nil, append_nil, hunits]
        rw [Nat.add_mul, one_mul]
      · intro i hi
        by_cases hlast : i = k
        · rw [hlast, ← h.length]
          exact hopen
        · exact h.opens i (by omega)
      · have hpos := length_pos_iff.mpr hne
        rw [htook.split, length_append]
        exact Nat.lt_add_of_pos_left hpos
  · simp [hopen] at hstep

theorem Filling.le_fullPieces (h : Filling opts target bytes s k) : k ≤ fullPieces opts bytes := by
  apply (Nat.le_div_iff_mul_le opts.size.pos).mpr
  rw [← h.units, ← h.split, unitsOf_append]
  exact Nat.le_add_right _ _

theorem Filling.leave {outcome : Outcome} (h : Filling opts target bytes s k)
    (hstep : iteration opts target s = .inr outcome) : ∃ m, Ran opts target bytes outcome m := by
  have htook := took_fill opts.size s.reads
  unfold iteration at hstep
  by_cases hopen : target.fopen s.opened.length = true
  · rw [if_pos hopen] at hstep
    dsimp only at hstep
    by_cases heof : (fill opts.size s.reads).eof = true
    · rw [if_pos heof, Sum.inr.injEq] at hstep
      obtain ⟨hempty, hlt⟩ := htook.rest heof
      have hsplit := h.split
      rw [htook.split, hempty, append_nil] at hsplit
      subst hstep
      refine ⟨k + 1, ?_, ?_, ?_, .inr ⟨rfl, ?_, ?_⟩⟩
      · rw [map_append, h.names, range_succ, map_append, h.suffix]
        rfl
      · rw [dropLast_concat]
        exact h.filled
      · intro i hi
        by_cases hlast : i = k
        · rw [hlast, ← h.length]
          exact hopen
        · exact h.opens i (by omega)
      · have hunits : unitsOf opts.size bytes = k * opts.size.count + unitsOf opts.size (fill opts.size s.reads).bytes := by
          rw [← hsplit, unitsOf_append, h.units]
        have hdiv : fullPieces opts bytes = k := by
          unfold fullPieces
          rw [hunits, mul_comm, Nat.mul_add_div opts.size.pos, Nat.div_eq_of_lt hlt, add_zero]
        rw [hdiv]
      · simpa using hsplit
    · simp [heof] at hstep
  · rw [if_neg hopen, Sum.inr.injEq] at hstep
    subst hstep
    refine ⟨k, h.names, ?_, h.opens, .inl ⟨rfl, h.le_fullPieces opts target bytes, ?_⟩⟩
    · intro file hfile
      exact h.filled file (dropLast_subset _ hfile)
    · rw [← h.length]
      simpa using hopen

end

theorem mainLoop_ends (opts : Options) (target : Target) (reads : Reads) :
    ∃ fuel outcome m, mainLoop opts target fuel reads = some outcome ∧ Ran opts target (input reads) outcome m := by
  have hstart : Filling opts target (input reads) ⟨reads, firstSuffix opts, []⟩ 0 := by
    refine ⟨rfl, rfl, rfl, ?_, rfl, ?_, ?_⟩
    · intro file hfile
      cases hfile
    · rw [zero_mul]
      exact unitsOf_nil opts.size
    · intro i hi
      exact absurd hi (Nat.not_lt_zero i)
  obtain ⟨outcome, hrun, m, hran⟩ := loop_of_measure (fun s => ∃ k, Filling opts target (input reads) s k)
    (fun outcome => ∃ m, Ran opts target (input reads) outcome m) (fun s => (input s.reads).length)
    (fun s t hs hstep => by
      obtain ⟨k, hk⟩ := hs
      obtain ⟨hnext, hlt⟩ := hk.go opts target (input reads) hstep
      exact ⟨⟨k + 1, hnext⟩, hlt⟩)
    (fun s outcome hs hstep => by
      obtain ⟨k, hk⟩ := hs
      exact hk.leave opts target (input reads) hstep)
    ⟨0, hstart⟩ (Nat.lt_succ_self _)
  exact ⟨_, outcome, m, hrun, hran⟩

/-! ## When nothing is lost -/

section
variable {opts : Options} {target : Target} {bytes : Bytes} {outcome : Outcome} {m : Nat}

theorem nameAt_inj {i j : Nat} (hi : i < suffixes opts) (hj : j < suffixes opts)
    (h : nameAt opts target i = nameAt opts target j) : i = j :=
  suffixAt_inj hi hj (append_cancel_left h)

section
variable (h : Ran opts target bytes outcome m)
include h

section
variable (hle : m ≤ suffixes opts)
include hle

theorem Ran.nodup : (outcome.opened.map Piece.name).Nodup := by
  rw [h.names]
  apply List.Nodup.map_on _ nodup_range
  intro i hi j hj heq
  rw [mem_range] at hi hj
  exact nameAt_inj (by omega) (by omega) heq

theorem Ran.files : outcome.files = outcome.opened.filter (·.bytes ≠ []) :=
  @foldl_place [] outcome.opened (h.nodup hle)

theorem Ran.losesNothing : LosesNothing bytes outcome := by
  refine ⟨?_, ?_⟩
  · cases h.ending with
    | inl hfail => exact .inl hfail.1
    | inr hdone =>
      right
      rw [h.files hle, flatten_filter_ne_nil]
      exact ⟨(h.nodup hle).sublist (filter_sublist.map _), hdone.2.2⟩
  · have hpairs := pairwise_map.mp (h.nodup hle)
    exact hpairs.imp fun hne _ heq => hne heq.symm

end

theorem Ran.reopens (hlt : suffixes opts < m) : ¬LosesNothing bytes outcome := by
  intro hnothing
  have hpos := suffixes_pos opts
  have hlength : outcome.opened.length = m := by
    have hnames := congrArg List.length h.names
    rwa [length_map, length_map, length_range] at hnames
  have hname : ∀ i (hi : i < outcome.opened.length), outcome.opened[i].name = nameAt opts target i := by
    intro i hi
    have hget := getElem_of_eq h.names (by rwa [length_map])
    rwa [getElem_map, getElem_map, getElem_range] at hget
  have hfirst : outcome.opened[0].bytes ≠ [] := by
    apply h.filled
    rw [dropLast_eq_take]
    exact mem_take_iff_getElem.mpr ⟨0, by omega, rfl⟩
  have hpair := pairwise_iff_getElem.mp hnothing.untouched 0 (suffixes opts) (by omega) (by omega) hpos hfirst
  apply hpair
  rw [hname, hname]
  unfold nameAt
  rw [suffixAt_suffixes]

theorem Ran.le_suffixes_iff :
    m ≤ suffixes opts ↔ fullPieces opts bytes < suffixes opts ∨ ∃ i, i ≤ suffixes opts ∧ target.fopen i = false := by
  refine ⟨?_, ?_⟩
  · intro hle
    cases h.ending with
    | inl hfail => exact .inr ⟨m, hle, hfail.2.2⟩
    | inr hdone => exact .inl (by omega)
  · intro hcond
    have hstop : ∀ i, target.fopen i = false → m ≤ i := by
      intro i hi
      by_contra hlt
      simp [h.opens i (by omega)] at hi
    cases hcond with
    | inl hlt =>
      cases h.ending with
      | inl hfail => exact Nat.le_trans hfail.2.1 (le_of_lt hlt)
      | inr hdone => omega
    | inr hex =>
      obtain ⟨i, hi, hclosed⟩ := hex
      exact Nat.le_trans (hstop i hclosed) hi

end

end

theorem mainLoop_unique {opts : Options} {target : Target} {reads : Reads} {fuel fuel' : Nat} {outcome outcome' : Outcome}
    (h : mainLoop opts target fuel reads = some outcome) (h' : mainLoop opts target fuel' reads = some outcome') :
    outcome = outcome' := by
  unfold mainLoop at h h'
  have hmore := loop_mono h (Nat.le_max_left fuel fuel')
  rw [loop_mono h' (Nat.le_max_right fuel fuel'), Option.some.injEq] at hmore
  exact hmore.symm

/-- **Main result.** However the input arrives, the loop ends; it loses nothing exactly when
the full pieces do not use up the suffixes, or an opening fails before they are used up. -/
theorem mainLoop_losesNothing_iff (opts : Options) (target : Target) (reads : Reads) :
    (∃ fuel outcome, mainLoop opts target fuel reads = some outcome ∧ LosesNothing (input reads) outcome) ↔
      fullPieces opts (input reads) < suffixes opts ∨ ∃ i, i ≤ suffixes opts ∧ target.fopen i = false := by
  obtain ⟨fuel, outcome, m, hrun, hran⟩ := mainLoop_ends opts target reads
  rw [← hran.le_suffixes_iff]
  refine ⟨?_, ?_⟩
  · intro hex
    obtain ⟨fuel', outcome', hrun', hnothing⟩ := hex
    rw [mainLoop_unique hrun' hrun] at hnothing
    by_contra hlt
    exact hran.reopens (by omega) hnothing
  · intro hle
    exact ⟨fuel, outcome, hrun, hran.losesNothing hle⟩

/-- `-b 1 -d -a 1` -/
def oneByteOneDigit : Options := ⟨⟨false, 1, by decide⟩, 1, .numeric, by decide⟩

def openTarget : Target := ⟨ascii "x", fun _ => true⟩

/-- The eleventh byte goes to the file of the first. -/
theorem mainLoop_reopens_first :
    ¬∃ fuel outcome, mainLoop oneByteOneDigit openTarget fuel [ascii "0123456789!"] = some outcome ∧
      LosesNothing (ascii "0123456789!") outcome := by
  intro hex
  obtain ⟨fuel, outcome, hrun, hnothing⟩ := hex
  obtain ⟨fuel', outcome', m, hrun', hran⟩ := mainLoop_ends oneByteOneDigit openTarget [ascii "0123456789!"]
  rw [mainLoop_unique hrun hrun'] at hnothing
  have hfew : ¬fullPieces oneByteOneDigit (ascii "0123456789!") < suffixes oneByteOneDigit := by decide
  apply hran.reopens _ hnothing
  by_contra hle
  cases hran.le_suffixes_iff.mp (by omega) with
  | inl hlt => exact hfew hlt
  | inr hex =>
    obtain ⟨i, _, hclosed⟩ := hex
    cases hclosed

end Bx.Split
