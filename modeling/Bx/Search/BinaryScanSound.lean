import Bx.Kit.Lines
import Bx.Search.BinaryScan
import Bx.Search.RecordStreamSound

/-!
# The rest of a binary file does not depend on the chunks

What the scan has kept, with what is still to be read behind it, always comes to the
same verdict.
-/

namespace Bx.BinaryScan

open Kit List
open Bx.RecordStream (Stream File unread)
open Bx.SearchBuffered (Matcher SearchOpts newline nul)

/-! ## The verdict on a text -/

/-- The segments between delimiters; behind the last one there is none if nothing is there. -/
def segments (text : Bytes) : List Bytes :=
  let parts := text.splitOnP isBoundary
  if parts.getLast? = some [] then parts.dropLast else parts

section
variable (limit : Nat) (selected : Bytes → Bool)

def verdictOf : List Bytes → Int
  | [] => 0
  | [last] => if limit < last.length then -1 else asResult (last ≠ [] && selected last)
  | part :: next :: more => if limit < part.length then -1 else if selected part then 1 else verdictOf (next :: more)

def verdict (text : Bytes) : Int := verdictOf limit selected (text.splitOnP isBoundary)

variable {limit selected}

theorem verdictOf_cons {segment : Bytes} {more : List Bytes} (h : more ≠ []) :
    verdictOf limit selected (segment :: more) =
      if limit < segment.length then -1 else if selected segment then 1 else verdictOf limit selected more := by
  cases more with
  | nil => exact absurd rfl h
  | cons next more => rfl

theorem verdict_free {text : Bytes} (h : ∀ b ∈ text, isBoundary b = false) : verdict limit selected text =
      if limit < text.length then -1 else asResult (text ≠ [] && selected text) := by
  unfold verdict
  rw [splitOnP_eq_singleton h]
  rfl

theorem verdict_segment {segment : Bytes} (h : ∀ b ∈ segment, isBoundary b = false) {b : UInt8} (hb : isBoundary b = true)
    (behind : Bytes) :
    verdict limit selected (segment ++ b :: behind) =
      if limit < segment.length then -1 else if selected segment then 1 else verdict limit selected behind := by
  unfold verdict
  rw [splitOnP_append_cons_of_forall_mem h b hb, verdictOf_cons (splitOnP_ne_nil _ _)]

theorem verdict_skip (hempty : selected [] = false) (text behind : Bytes) :
    verdict limit selected (text.dropWhile isBoundary ++ behind) = verdict limit selected (text ++ behind) := by
  induction text with
  | nil => rfl
  | cons b text ih =>
    cases hb : isBoundary b with
    | false => rw [dropWhile_cons_of_neg (by rw [hb]; exact Bool.false_ne_true)]
    | true =>
      rw [dropWhile_cons_of_pos hb, ih]
      have hsegment := @verdict_segment limit selected [] (fun _ h => absurd h not_mem_nil) b hb (text ++ behind)
      rw [hempty, length_nil, if_neg (Nat.not_lt_zero limit), if_neg Bool.false_ne_true] at hsegment
      exact hsegment.symm

theorem verdict_exceeds {segment : Bytes} (h : ∀ b ∈ segment, isBoundary b = false) (hlong : limit < segment.length)
    (behind : Bytes) : verdict limit selected (segment ++ behind) = -1 := by
  obtain ⟨hfree, hcut⟩ := cut_at_first isBoundary behind
  cases hcut with
  | inl hall =>
    rw [hall.1] at hfree
    rw [verdict_free (forall_mem_append.mpr ⟨h, hfree⟩), length_append, if_pos (by omega)]
  | inr hcut =>
    obtain ⟨b, more, hb, _, hsplit⟩ := hcut
    rw [hsplit, ← append_assoc, verdict_segment (forall_mem_append.mpr ⟨h, hfree⟩) hb, length_append,
      if_pos (by omega)]

end

/-! ## Chunks -/

section
variable {m : Matcher} {opts : SearchOpts} {limit : Nat}

/-- What the scan has kept: a segment without delimiters that is not too long; an empty segment that
has been met was not selected. -/
structure Good (m : Matcher) (opts : SearchOpts) (limit : Nat) (s : Scan) : Prop where
  free : ∀ b ∈ s.segment, isBoundary b = false
  fits : s.segment.length ≤ limit
  empty : ∀ known, s.emptySelected = some known → known = false ∧ segmentMatches m opts [] = false

theorem segmentAppend_some {segment data grown : Bytes} (hfits : segment.length ≤ limit)
    (h : segmentAppend limit segment data = some grown) : grown = segment ++ data ∧ grown.length ≤ limit := by
  unfold segmentAppend at h
  by_cases hdata : data = []
  · rw [if_pos hdata, Option.some.injEq] at h
    rw [← h, hdata, append_nil]
    exact ⟨rfl, hfits⟩
  · rw [if_neg hdata] at h
    by_cases hlong : limit < segment.length ∨ limit - segment.length < data.length
    · simp [hlong] at h
    · rw [if_neg hlong, Option.some.injEq] at h
      rw [← h, length_append]
      exact ⟨rfl, by omega⟩

theorem segmentAppend_none {segment data : Bytes} (hfits : segment.length ≤ limit)
    (h : segmentAppend limit segment data = none) : limit < (segment ++ data).length := by
  unfold segmentAppend at h
  by_cases hdata : data = []
  · simp [hdata] at h
  · rw [if_neg hdata] at h
    by_cases hlong : limit < segment.length ∨ limit - segment.length < data.length
    · rw [length_append]
      omega
    · simp [hlong] at h

theorem scanChunk_spec {fuel : Nat} {chunk : Bytes} {s : Scan} (hs : Good m opts limit s) (hfuel : chunk.length ≤ fuel)
    (behind : Bytes) :
    match scanChunk m opts limit fuel chunk s with
    | .inl t => Good m opts limit t ∧ verdict limit (segmentMatches m opts) (s.segment ++ (chunk ++ behind)) =
        verdict limit (segmentMatches m opts) (t.segment ++ behind)
    | .inr result => result = verdict limit (segmentMatches m opts) (s.segment ++ (chunk ++ behind)) := by
  induction fuel generalizing chunk s with
  | zero =>
    rw [length_eq_zero_iff.mp (Nat.le_zero.mp hfuel)]
    exact ⟨hs, rfl⟩
  | succ fuel ih =>
    unfold scanChunk
    by_cases hnil : chunk = []
    · rw [if_pos hnil, hnil]
      exact ⟨hs, rfl⟩
    · rw [if_neg hnil]
      obtain ⟨hfree, hcut⟩ := cut_at_first isBoundary chunk
      dsimp only
      generalize hpiece : (chunk.takeWhile fun b => !isBoundary b) = piece at hfree hcut ⊢
      have hgrown : ∀ b ∈ s.segment ++ piece, isBoundary b = false := forall_mem_append.mpr ⟨hs.free, hfree⟩
      have hlength : piece.length ≤ chunk.length := by
        rw [← hpiece]
        exact (List.takeWhile_prefix _).length_le
      cases happend : segmentAppend limit s.segment piece with
      | none =>
        have hlong := segmentAppend_none hs.fits happend
        dsimp only
        have hsplit : ∃ more, chunk = piece ++ more := by
          rw [← hpiece]
          exact ⟨_, takeWhile_append_dropWhile.symm⟩
        obtain ⟨more, hsplit⟩ := hsplit
        rw [hsplit, append_assoc, ← append_assoc, verdict_exceeds hgrown hlong]
      | some segment =>
        obtain ⟨rfl, hfits⟩ := segmentAppend_some hs.fits happend
        dsimp only
        cases hcut with
        | inl hall =>
          rw [hall.2, ← hall.1]
          exact ⟨⟨hgrown, hfits, hs.empty⟩, by rw [← append_assoc]⟩
        | inr hcut =>
          obtain ⟨b, more, hb, hdrop, hsplit⟩ := hcut
          have hshort : more.length < chunk.length := by
            rw [hsplit, length_append, length_cons]
            omega
          have hverdict : verdict limit (segmentMatches m opts) (s.segment ++ (chunk ++ behind)) =
              if segmentMatches m opts (s.segment ++ piece) then 1
                else verdict limit (segmentMatches m opts) (more ++ behind) := by
            rw [hsplit, append_assoc, ← append_assoc, cons_append, verdict_segment hgrown hb,
              if_neg (Nat.not_lt.mpr hfits)]
          rw [hdrop, hverdict]
          dsimp only
          by_cases hsegment : s.segment ++ piece = []
          · rw [if_neg (not_not_intro hsegment), hsegment]
            have hknown : s.emptySelected.getD (segmentMatches m opts []) = segmentMatches m opts [] := by
              cases hmemo : s.emptySelected with
              | none => rfl
              | some known =>
                obtain ⟨hfalse, hempty⟩ := hs.empty known hmemo
                rw [hempty, hfalse]
                rfl
            rw [hknown]
            cases hempty : segmentMatches m opts [] with
            | true => rfl
            | false =>
              rw [if_neg Bool.false_ne_true, if_neg Bool.false_ne_true]
              have hskip : (more.dropWhile isBoundary).length ≤ fuel := by
                have hle := length_dropWhile_le isBoundary more
                omega
              have hgood : Good m opts limit { segment := [], emptySelected := some false } := by
                refine ⟨fun _ h => absurd h not_mem_nil, Nat.zero_le _, ?_⟩
                intro known h
                exact ⟨(Option.some.inj h).symm, hempty⟩
              have hrest := ih hgood hskip
              rw [nil_append, verdict_skip hempty] at hrest
              exact hrest
          · rw [if_pos hsegment]
            cases hselected : segmentMatches m opts (s.segment ++ piece) with
            | true => rfl
            | false =>
              rw [if_neg Bool.false_ne_true, if_neg Bool.false_ne_true]
              have hgood : Good m opts limit { s with segment := [] } :=
                ⟨fun _ h => absurd h not_mem_nil, Nat.zero_le _, hs.empty⟩
              exact ih hgood (by omega)

theorem readChunk_spec {cap : Nat} (hcap : 0 < cap) (st : Stream) (f : File) :
    (readChunk cap st f).1 ++ unread (readChunk cap st f).2.1 (readChunk cap st f).2.2 = unread st f ∧
      ((readChunk cap st f).1 = [] → unread st f = []) ∧ (readChunk cap st f).2.1.errnum = st.errnum := by
  unfold readChunk
  have havailable : (st.pending.drop st.pendingOff).length = st.pendingAvailable := length_drop
  dsimp only
  generalize hcopied : min st.pendingAvailable cap = copied
  generalize hst : (if 0 < st.pendingAvailable then st.dropPending copied else st) = st'
  have hpending : st'.pending.drop st'.pendingOff = (st.pending.drop st.pendingOff).drop copied := by
    rw [← hst]
    by_cases hpos : 0 < st.pendingAvailable
    · rw [if_pos hpos, RecordStream.dropPending_pending]
    · rw [if_neg hpos, length_eq_zero_iff.mp (by omega : (st.pending.drop st.pendingOff).length = 0), drop_nil]
  have herrnum : st'.errnum = st.errnum := by
    rw [← hst]
    unfold Stream.dropPending
    split
    · split <;> rfl
    · rfl
  by_cases hfull : copied = cap
  · rw [if_pos hfull]
    dsimp only
    refine ⟨?_, ?_, herrnum⟩
    · unfold unread
      rw [hpending, ← append_assoc, take_append_drop]
    · intro hnil
      have hlen := congrArg List.length hnil
      rw [length_take, length_nil] at hlen
      omega
  · rw [if_neg hfull]
    dsimp only
    have hall : copied = (st.pending.drop st.pendingOff).length := by omega
    obtain ⟨hsplit, hend⟩ := RecordStream.fread_split f (by omega : 0 < cap - copied)
    rw [hall, take_length]
    rw [hall] at hsplit hend
    refine ⟨?_, ?_, herrnum⟩
    · unfold unread
      rw [hpending, hall, drop_length, nil_append, append_assoc, hsplit]
    · intro hnil
      obtain ⟨hpend, hread⟩ := append_eq_nil_iff.mp hnil
      unfold unread
      rw [hpend, hend hread]
      rfl

/-- **Main result.** Whatever the chunks, the scan returns the verdict on what had not been read. -/
theorem scanRemaining_eq (m : Matcher) (opts : SearchOpts) (st : Stream) (f : File) (herr : st.errnum = none) :
    scanRemaining m opts st f = some (verdict (segmentLimit st) (segmentMatches m opts) (unread st f)) := by
  unfold scanRemaining
  generalize segmentLimit st = limit
  have hrun : ∃ result, loop (scanStep m opts limit) ((unread st f).length + 1) ⟨st, f, {}⟩ = some result ∧
      result = verdict limit (segmentMatches m opts) (unread st f) := by
    apply loop_of_measure (fun x => Good m opts limit x.scan ∧ x.stream.errnum = none ∧
        verdict limit (segmentMatches m opts) (x.scan.segment ++ unread x.stream x.file) =
          verdict limit (segmentMatches m opts) (unread st f))
      _ (fun x => (unread x.stream x.file).length)
    · intro x y hx hstep
      obtain ⟨hgood, herrx, hverdict⟩ := hx
      obtain ⟨hread, _, herrnum⟩ := readChunk_spec (by decide : 0 < chunkCap) x.stream x.file
      unfold scanStep at hstep
      dsimp only at hstep
      by_cases hnil : (readChunk chunkCap x.stream x.file).1 = []
      · simp [hnil] at hstep
      · rw [if_neg hnil] at hstep
        have hspec := scanChunk_spec hgood (Nat.le_refl (readChunk chunkCap x.stream x.file).1.length)
          (unread (readChunk chunkCap x.stream x.file).2.1 (readChunk chunkCap x.stream x.file).2.2)
        cases hscan : scanChunk m opts limit (readChunk chunkCap x.stream x.file).1.length
            (readChunk chunkCap x.stream x.file).1 x.scan with
        | inr result => rw [hscan] at hstep; cases hstep
        | inl scan =>
          rw [hscan] at hstep hspec
          cases hstep
          obtain ⟨hgood', hsame⟩ := hspec
          rw [hread] at hsame
          refine ⟨⟨hgood', herrnum.trans herrx, hsame.symm.trans hverdict⟩, ?_⟩
          have hlen := congrArg List.length hread
          rw [length_append] at hlen
          have hpos := length_pos_iff.mpr hnil
          dsimp only
          omega
    · intro x result hx hstep
      obtain ⟨hgood, herrx, hverdict⟩ := hx
      obtain ⟨hread, hend, herrnum⟩ := readChunk_spec (by decide : 0 < chunkCap) x.stream x.file
      unfold scanStep at hstep
      dsimp only at hstep
      by_cases hnil : (readChunk chunkCap x.stream x.file).1 = []
      · rw [if_pos hnil, herrnum, herrx, Option.isSome_none, if_neg Bool.false_ne_true] at hstep
        cases hstep
        rw [← hverdict, hend hnil, append_nil, verdict_free hgood.free, if_neg (Nat.not_lt.mpr hgood.fits)]
        by_cases hsegment : x.scan.segment = []
        · rw [if_neg (not_not_intro hsegment), decide_eq_false (not_not_intro hsegment)]
          rfl
        · rw [if_pos hsegment, decide_eq_true hsegment, Bool.true_and]
      · rw [if_neg hnil] at hstep
        have hspec := scanChunk_spec hgood (Nat.le_refl (readChunk chunkCap x.stream x.file).1.length)
          (unread (readChunk chunkCap x.stream x.file).2.1 (readChunk chunkCap x.stream x.file).2.2)
        cases hscan : scanChunk m opts limit (readChunk chunkCap x.stream x.file).1.length
            (readChunk chunkCap x.stream x.file).1 x.scan with
        | inl scan => rw [hscan] at hstep; cases hstep
        | inr result' =>
          rw [hscan] at hstep hspec
          cases hstep
          rw [hread] at hspec
          exact hspec.trans hverdict
    · refine ⟨⟨fun _ h => absurd h not_mem_nil, Nat.zero_le _, ?_⟩, herr, rfl⟩
      intro known h
      cases h
    · exact Nat.lt_succ_self _
  obtain ⟨result, hresult, heq⟩ := hrun
  rw [hresult, heq]

end

/-! ## Selected segments -/

section
variable {limit : Nat} {selected : Bytes → Bool}

theorem asResult_or (a b : Bool) : asResult (a || b) = if a then 1 else asResult b := by
  cases a <;> rfl

theorem verdictOf_eq {parts : List Bytes} (hne : parts ≠ []) (hfits : ∀ part ∈ parts, part.length ≤ limit) :
    verdictOf limit selected parts =
      asResult (parts.dropLast.any selected || parts.getLast?.any fun last => last ≠ [] && selected last) := by
  induction parts with
  | nil => exact absurd rfl hne
  | cons segment more ih =>
    have hshort := Nat.not_lt.mpr (hfits segment mem_cons_self)
    cases more with
    | nil =>
      show (if limit < segment.length then -1 else _) = _
      rw [if_neg hshort]
      rfl
    | cons next more =>
      have hrest := ih (cons_ne_nil _ _) fun part hpart => hfits part (mem_cons_of_mem _ hpart)
      rw [verdictOf_cons (cons_ne_nil _ _), if_neg hshort, hrest, dropLast_cons_of_ne_nil (cons_ne_nil _ _),
        getLast?_cons_cons, any_cons, Bool.or_assoc]
      exact (asResult_or _ _).symm

theorem any_segments (text : Bytes) : (segments text).any selected =
      ((text.splitOnP isBoundary).dropLast.any selected ||
        (text.splitOnP isBoundary).getLast?.any fun last => last ≠ [] && selected last) := by
  unfold segments
  have hne := splitOnP_ne_nil isBoundary text
  generalize text.splitOnP isBoundary = parts at hne ⊢
  dsimp only
  obtain ⟨last, hlast⟩ := Option.isSome_iff_exists.mp (getLast?_isSome.mpr hne)
  rw [hlast]
  by_cases hnil : last = []
  · rw [hnil, if_pos rfl]
    simp
  · rw [if_neg fun h => hnil (Option.some.inj h)]
    have hsplit := dropLast_append_getLast? last hlast
    have hany : parts.any selected = (parts.dropLast ++ [last]).any selected := by rw [hsplit]
    rw [hany, any_append]
    simp [hnil]

end

/-- Where no segment is too long, the result is 1 exactly if one is selected, and 0 otherwise. -/
theorem scanRemaining_selected (m : Matcher) (opts : SearchOpts) (st : Stream) (f : File) (herr : st.errnum = none)
    (hfits : ∀ segment ∈ segments (unread st f), segment.length ≤ segmentLimit st) :
    scanRemaining m opts st f =
      some (if ∃ segment ∈ segments (unread st f), segmentMatches m opts segment = true then 1 else 0) := by
  have hparts : ∀ part ∈ (unread st f).splitOnP isBoundary, part.length ≤ segmentLimit st := by
    intro part hpart
    unfold segments at hfits
    dsimp only at hfits
    by_cases hlast : ((unread st f).splitOnP isBoundary).getLast? = some []
    · rw [if_pos hlast] at hfits
      rw [← dropLast_append_getLast? [] hlast] at hpart
      cases mem_append.mp hpart with
      | inl hin => exact hfits part hin
      | inr hin =>
        rw [mem_singleton.mp hin]
        exact Nat.zero_le _
    · rw [if_neg hlast] at hfits
      exact hfits part hpart
  rw [scanRemaining_eq m opts st f herr]
  unfold verdict
  rw [verdictOf_eq (splitOnP_ne_nil _ _) hparts, ← any_segments]
  unfold asResult
  rw [if_congr any_eq_true rfl rfl]

/-- A segment that two reads have a part of each -/
theorem scanRemaining_selected_small :
    scanRemaining ⟨fun text => text = ascii "ab", fun _ => 0⟩ {} {} ⟨[0, 0, 97, 98], [3, 1]⟩ =
      some (if ∃ segment ∈ segments (unread {} ⟨[0, 0, 97, 98], [3, 1]⟩),
        segmentMatches ⟨fun text => text = ascii "ab", fun _ => 0⟩ {} segment = true then 1 else 0) :=
  scanRemaining_selected ⟨fun text => text = ascii "ab", fun _ => 0⟩ {} {} ⟨[0, 0, 97, 98], [3, 1]⟩ rfl
    (by decide)

end Bx.BinaryScan
