import Bx.Kit.Bytes

/-!
# Line-ending translation

`translate_buffer` of `src/lib/zip/format/writer.c`. A carriage return is held
back until the next byte is known, and across calls by `prev_cr`; what is held
back at the end of a call is written at once.
-/

namespace Bx.Zip.LineEndings

open Bx.Kit List

inductive LineMode
  | none
  | lfToCrlf
  | crlfToLf
  deriving DecidableEq

def cr : UInt8 := 13

def lf : UInt8 := 10

/-- What one byte writes, and `prev_cr` after it -/
def translateByte (mode : LineMode) (prevCr : Bool) (b : UInt8) : Bytes × Bool :=
  match mode with
  | .none => ([b], prevCr)
  | .lfToCrlf => (if b = lf ∧ prevCr = false then [cr, lf] else [b], b == cr)
  | .crlfToLf =>
    if prevCr ∧ b = lf then ([lf], false)
    else
      let held := if prevCr then [cr] else []
      if b = cr then (held, true) else (held ++ [b], false)

def translateBytes (mode : LineMode) (prevCr : Bool) : Bytes → Bytes × Bool
  | [] => ([], prevCr)
  | b :: input =>
    let written := translateByte mode prevCr b
    let rest := translateBytes mode written.2 input
    (written.1 ++ rest.1, rest.2)

def translateBuffer (mode : LineMode) (input : Bytes) (prevCr : Bool) : Bytes × Bool :=
  let translated := translateBytes mode prevCr input
  if mode = .crlfToLf ∧ translated.2 = true then (translated.1 ++ [cr], false) else translated

def translateChunks (mode : LineMode) (prevCr : Bool) : List Bytes → Bytes
  | [] => []
  | chunk :: chunks =>
    let translated := translateBuffer mode chunk prevCr
    translated.1 ++ translateChunks mode translated.2 chunks

def Cut (a b : Bytes) : Prop := a.getLast? = some cr ∧ b.head? = some lf

instance (a b : Bytes) : Decidable (Cut a b) := inferInstanceAs (Decidable (_ ∧ _))

def cutPairs : List Bytes → Nat
  | a :: b :: chunks => (if Cut a b then 1 else 0) + cutPairs (b :: chunks)
  | _ => 0

section
variable {mode : LineMode} {prevCr : Bool} {input more : Bytes} {b : UInt8}

theorem translateBytes_append (mode : LineMode) (prevCr : Bool) (input more : Bytes) :
    translateBytes mode prevCr (input ++ more) =
      ((translateBytes mode prevCr input).1 ++ (translateBytes mode (translateBytes mode prevCr input).2 more).1,
        (translateBytes mode (translateBytes mode prevCr input).2 more).2) := by
  induction input generalizing prevCr with
  | nil => rfl
  | cons b input ih =>
    rw [cons_append, translateBytes, ih, translateBytes]
    simp only [append_assoc]

theorem translateBuffer_of_ne (hmode : mode ≠ .crlfToLf) (input : Bytes) (prevCr : Bool) :
    translateBuffer mode input prevCr = translateBytes mode prevCr input := by
  unfold translateBuffer
  dsimp only
  rw [if_neg fun h => hmode h.1]

/-! ## LF to CRLF -/

theorem translateChunks_flatten (hmode : mode ≠ .crlfToLf) (chunks : List Bytes) (prevCr : Bool) :
    translateChunks mode prevCr chunks = (translateBuffer mode chunks.flatten prevCr).1 := by
  induction chunks generalizing prevCr with
  | nil =>
    rw [translateBuffer_of_ne hmode]
    rfl
  | cons chunk chunks ih =>
    simp only [translateChunks, ih, translateBuffer_of_ne hmode, flatten_cons, translateBytes_append]

/-! ## CRLF to LF -/

def joinCrlf : Bytes → Bytes
  | 13 :: 10 :: input => lf :: joinCrlf input
  | b :: input => b :: joinCrlf input
  | [] => []

theorem joinCrlf_pair (input : Bytes) : joinCrlf (cr :: lf :: input) = lf :: joinCrlf input := by
  unfold cr lf
  rw [joinCrlf]
  rfl

theorem joinCrlf_cons (h : ¬(b = cr ∧ input.head? = some lf)) : joinCrlf (b :: input) = b :: joinCrlf input := by
  apply joinCrlf.eq_2
  intro rest hb hinput
  apply h
  rw [hb, hinput]
  exact ⟨rfl, rfl⟩

theorem translateBuffer_cons (mode : LineMode) (b : UInt8) (input : Bytes) (prevCr : Bool) :
    translateBuffer mode (b :: input) prevCr =
      ((translateByte mode prevCr b).1 ++ (translateBuffer mode input (translateByte mode prevCr b).2).1,
        (translateBuffer mode input (translateByte mode prevCr b).2).2) := by
  unfold translateBuffer
  rw [translateBytes]
  dsimp only
  split
  · rw [append_assoc]
  · rfl

theorem translateBuffer_crlf (input : Bytes) (prevCr : Bool) :
    translateBuffer .crlfToLf input prevCr = (joinCrlf (if prevCr then cr :: input else input), false) := by
  induction input generalizing prevCr with
  | nil => cases prevCr <;> rfl
  | cons b input ih =>
    rw [translateBuffer_cons, ih]
    cases prevCr with
    | true =>
      rw [if_pos rfl]
      by_cases hlf : b = lf
      · rw [hlf, joinCrlf_pair]
        rfl
      · have hlone : ¬(cr = cr ∧ (b :: input).head? = some lf) := fun h => hlf (Option.some.inj h.2)
        rw [joinCrlf_cons hlone]
        by_cases hcr : b = cr
        · rw [hcr]
          rfl
        · have hbyte : translateByte .crlfToLf true b = ([cr, b], false) := by
            unfold translateByte
            dsimp only
            rw [if_neg fun h => hlf h.2, if_neg hcr]
            rfl
          rw [hbyte, joinCrlf_cons fun h => hcr h.1]
          rfl
    | false =>
      by_cases hcr : b = cr
      · rw [hcr]
        rfl
      · have hbyte : translateByte .crlfToLf false b = ([b], false) := by
          unfold translateByte
          dsimp only
          rw [if_neg fun h => Bool.false_ne_true h.1, if_neg hcr]
          rfl
        rw [hbyte, if_neg Bool.false_ne_true, if_neg Bool.false_ne_true, joinCrlf_cons fun h => hcr h.1]
        rfl

theorem cut_pair {a b : Bytes} : Cut (cr :: lf :: a) b ↔ Cut a b := by
  unfold Cut
  cases a with
  | nil => simp [cr, lf]
  | cons c a => rw [getLast?_cons_cons, getLast?_cons_cons]

theorem joinCrlf_append {a b : Bytes} (h : ¬Cut a b) : joinCrlf (a ++ b) = joinCrlf a ++ joinCrlf b := by
  induction a using joinCrlf.induct with
  | case1 a ih =>
    have hpair := ih fun hcut => h (cut_pair.mpr hcut)
    exact congrArg (lf :: ·) hpair
  | case2 c a hother ih =>
    have hne : ¬(c = cr ∧ a.head? = some lf) := by
      intro hpair
      cases a with
      | nil => cases hpair.2
      | cons d a =>
        cases Option.some.inj hpair.2
        exact hother a hpair.1 rfl
    rw [cons_append, joinCrlf_cons hne]
    cases a with
    | nil =>
      have hnext : ¬(c = cr ∧ b.head? = some lf) := fun hcut => h ⟨congrArg some hcut.1, hcut.2⟩
      rw [nil_append, joinCrlf_cons hnext]
      rfl
    | cons d a =>
      have hnext : ¬(c = cr ∧ (d :: a ++ b).head? = some lf) := hne
      have hinner : ¬Cut (d :: a) b := by
        intro hcut
        apply h
        refine ⟨?_, hcut.2⟩
        rw [getLast?_cons_cons]
        exact hcut.1
      rw [joinCrlf_cons hnext, ih hinner]
      rfl
  | case3 => rfl

theorem length_joinCrlf_cut {a b : Bytes} (h : Cut a b) :
    (joinCrlf (a ++ b)).length + 1 = (joinCrlf a ++ joinCrlf b).length := by
  obtain ⟨hlast, hhead⟩ := h
  obtain ⟨front, rfl⟩ := getLast?_eq_some_iff.mp hlast
  obtain ⟨rest, rfl⟩ : ∃ rest, b = lf :: rest := by
    cases b with
    | nil => cases hhead
    | cons c rest => exact ⟨rest, congrArg (· :: rest) (Option.some.inj hhead)⟩
  have hfront : joinCrlf (front ++ [cr]) = joinCrlf front ++ [cr] :=
    joinCrlf_append fun hcut => absurd hcut.2 (by decide)
  have hwhole : joinCrlf (front ++ (cr :: lf :: rest)) = joinCrlf front ++ (lf :: joinCrlf rest) := by
    rw [joinCrlf_append fun hcut => absurd hcut.2 (by simp [cr, lf]), joinCrlf_pair]
  have hrest : joinCrlf (lf :: rest) = lf :: joinCrlf rest := joinCrlf_cons fun hpair => absurd hpair.1 (by decide)
  rw [append_assoc, singleton_append, hwhole, hfront, hrest]
  simp only [length_append, length_cons, length_nil]
  omega

/-! ## Chunks -/

theorem translateChunks_crlf (chunks : List Bytes) :
    translateChunks .crlfToLf false chunks = (chunks.map joinCrlf).flatten := by
  induction chunks with
  | nil => rfl
  | cons chunk chunks ih =>
    rw [translateChunks, translateBuffer_crlf]
    dsimp only
    rw [ih]
    rfl

theorem cut_flatten {a b : Bytes} {chunks : List Bytes} (hb : b ≠ []) : Cut a (b :: chunks).flatten ↔ Cut a b := by
  cases b with
  | nil => exact absurd rfl hb
  | cons c b => exact Iff.rfl

variable {chunks : List Bytes}

theorem length_translateChunks (hchunks : ∀ chunk ∈ chunks, chunk ≠ []) :
    (chunks.map joinCrlf).flatten.length = (joinCrlf chunks.flatten).length + cutPairs chunks := by
  induction chunks with
  | nil => rfl
  | cons a chunks ih =>
    cases chunks with
    | nil =>
      rw [flatten_singleton]
      simp [cutPairs]
    | cons b chunks =>
      have hrest := ih fun chunk hchunk => hchunks chunk (mem_cons_of_mem _ hchunk)
      have hcut := @cut_flatten a b chunks (hchunks b (mem_cons_of_mem _ mem_cons_self))
      rw [map_cons, flatten_cons, length_append, hrest, cutPairs, @flatten_cons _ a]
      by_cases hpair : Cut a b
      · have hlength := length_joinCrlf_cut (hcut.mpr hpair)
        rw [length_append] at hlength
        rw [if_pos hpair]
        omega
      · rw [joinCrlf_append fun h => hpair (hcut.mp h), if_neg hpair, length_append]
        omega

theorem joinCrlf_flatten (hchunks : ∀ chunk ∈ chunks, chunk ≠ []) (hwhole : cutPairs chunks = 0) :
    (chunks.map joinCrlf).flatten = joinCrlf chunks.flatten := by
  induction chunks with
  | nil => rfl
  | cons a chunks ih =>
    cases chunks with
    | nil =>
      rw [flatten_singleton]
      exact append_nil _
    | cons b chunks =>
      rw [cutPairs] at hwhole
      have hrest := ih (fun chunk hchunk => hchunks chunk (mem_cons_of_mem _ hchunk)) (by omega)
      have hcut := @cut_flatten a b chunks (hchunks b (mem_cons_of_mem _ mem_cons_self))
      have hpair : ¬Cut a b := by
        intro hpair
        rw [if_pos hpair] at hwhole
        omega
      rw [map_cons, flatten_cons, hrest, @flatten_cons _ a, joinCrlf_append fun h => hpair (hcut.mp h)]

/-! ## There and back -/

theorem joinCrlf_translateBytes (hinput : cr ∉ input) : joinCrlf (translateBytes .lfToCrlf false input).1 = input := by
  induction input with
  | nil => rfl
  | cons b input ih =>
    have hb : b ≠ cr := fun h => hinput (h ▸ mem_cons_self)
    have hrest := ih fun h => hinput (mem_cons_of_mem _ h)
    have hnext : (translateByte .lfToCrlf false b).2 = false := beq_eq_false_iff_ne.mpr hb
    rw [translateBytes]
    dsimp only
    rw [hnext]
    by_cases hlf : b = lf
    · have hbyte : (translateByte .lfToCrlf false b).1 = [cr, lf] := if_pos ⟨hlf, rfl⟩
      rw [hbyte, cons_append, singleton_append, joinCrlf_pair, hrest, hlf]
    · have hbyte : (translateByte .lfToCrlf false b).1 = [b] := if_neg fun h => hlf h.1
      rw [hbyte, singleton_append, joinCrlf_cons fun h => hb h.1, hrest]

end

/-- **Main result.** Translating by chunks is translating the whole text, unless a pair of CR and LF that is to become
one LF is cut between two chunks. Translating back gives a text without CR again. -/
theorem translateChunks_iff (mode : LineMode) (chunks : List Bytes) (hchunks : ∀ chunk ∈ chunks, chunk ≠ []) :
    (translateChunks mode false chunks = (translateBuffer mode chunks.flatten false).1 ↔
        (mode = .crlfToLf → cutPairs chunks = 0)) ∧
      ∀ input : Bytes, cr ∉ input →
        (translateBuffer .crlfToLf (translateBuffer .lfToCrlf input false).1 false).1 = input := by
  refine ⟨?_, ?_⟩
  · by_cases hmode : mode = .crlfToLf
    · rw [hmode, translateChunks_crlf, translateBuffer_crlf, if_neg Bool.false_ne_true]
      refine ⟨?_, ?_⟩
      · intro hsame _
        have hlength := length_translateChunks hchunks
        dsimp only at hsame
        rw [hsame] at hlength
        omega
      · intro hwhole
        exact joinCrlf_flatten hchunks (hwhole rfl)
    · refine ⟨fun _ h => absurd h hmode, ?_⟩
      intro _
      exact translateChunks_flatten hmode chunks false
  · intro input hinput
    have hlf : translateBuffer .lfToCrlf input false = translateBytes .lfToCrlf false input :=
      translateBuffer_of_ne LineMode.noConfusion input false
    rw [hlf, translateBuffer_crlf, if_neg Bool.false_ne_true]
    exact joinCrlf_translateBytes hinput

/-- A text of two chunks that is cut elsewhere -/
theorem translateChunks_iff_whole : translateChunks .crlfToLf false [[0x61, cr, lf], [0x62]] =
      (translateBuffer .crlfToLf [[0x61, cr, lf], [0x62]].flatten false).1 :=
  (translateChunks_iff .crlfToLf [[0x61, cr, lf], [0x62]] (by decide)).1.mpr fun _ => by decide

/-- The pair that is cut comes out as it is. -/
theorem translateChunks_cut : translateChunks .crlfToLf false [[0x61, cr], [lf, 0x62]] = [0x61, cr, lf, 0x62] ∧
      (translateBuffer .crlfToLf [[0x61, cr], [lf, 0x62]].flatten false).1 = [0x61, lf, 0x62] := by
  decide

end Bx.Zip.LineEndings
