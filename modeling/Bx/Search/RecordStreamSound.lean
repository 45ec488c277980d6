import Bx.Search.RecordStream

/-!
# Framing does not depend on buffering

A stream is cut at the first boundary of what is left of it. The parts of what is left go to the record one after the
other, the pending bytes first: whatever they are, a call returns the first record of the bytes not read before it.
-/

namespace Bx.RecordStream

open Bx.Kit List

variable {s : Bytes} {cut : List (Bytes × Bool)} {limit : Nat} {x : Reading} {st : Stream}

section
variable (delimiter : UInt8) (stop : Option UInt8)

/-! ## Records of a stream -/

def IsBoundary (byte : UInt8) : Prop := byte = delimiter ∨ stop = some byte

instance (byte : UInt8) : Decidable (IsBoundary delimiter stop byte) := inferInstanceAs (Decidable (_ ∨ _))

def frame : Bytes → Bytes × Bool × Bytes
  | [] => ([], false, [])
  | byte :: s =>
    if IsBoundary delimiter stop byte then ([byte], byte ≠ delimiter, s)
    else
      let behind := frame s
      (byte :: behind.1, behind.2.1, behind.2.2)

theorem frame_append (s : Bytes) : (frame delimiter stop s).1 ++ (frame delimiter stop s).2.2 = s := by
  induction s with
  | nil => rfl
  | cons byte s ih =>
    unfold frame
    split
    · rfl
    · exact congrArg (byte :: ·) ih

theorem frame_ne_nil (h : s ≠ []) : (frame delimiter stop s).1 ≠ [] := by
  cases s with
  | nil => exact absurd rfl h
  | cons byte s =>
    unfold frame
    split
    · exact cons_ne_nil _ _
    · exact cons_ne_nil _ _

theorem frame_length_lt (h : s ≠ []) : (frame delimiter stop s).2.2.length < s.length := by
  have happ := congrArg List.length (frame_append delimiter stop s)
  have hpos := length_pos_iff.mpr (frame_ne_nil delimiter stop h)
  rw [length_append] at happ
  omega

def frames : Nat → Bytes → List (Bytes × Bool)
  | 0, _ => []
  | fuel + 1, s =>
    if s = [] then []
    else
      let first := frame delimiter stop s
      (first.1, first.2.1) :: frames fuel first.2.2

theorem firstBoundary_cons (byte : UInt8) (s : Bytes) : firstBoundary (byte :: s) delimiter stop =
      if IsBoundary delimiter stop byte then some (0, decide (byte ≠ delimiter))
      else (firstBoundary s delimiter stop).map fun hit => (hit.1 + 1, hit.2) := by
  unfold firstBoundary IsBoundary
  by_cases hd : byte = delimiter
  · subst hd
    cases stop with
    | none => simp [idxOf?_cons]
    | some other =>
      by_cases ho : byte = other
      · subst ho
        simp [idxOf?_cons]
      · have ho' : ¬other = byte := fun h => ho h.symm
        cases hj : s.idxOf? other with
        | none => simp [idxOf?_cons, ho, hj]
        | some j => simp [idxOf?_cons, ho, hj]
  · cases stop with
    | none => cases hi : s.idxOf? delimiter <;> simp [idxOf?_cons, hd, hi]
    | some other =>
      by_cases ho : byte = other
      · subst ho
        cases hi : s.idxOf? delimiter <;> simp [idxOf?_cons, hd, hi]
      · have ho' : ¬other = byte := fun h => ho h.symm
        cases hi : s.idxOf? delimiter with
        | none => cases hj : s.idxOf? other <;> simp [idxOf?_cons, hd, ho, ho', hi, hj]
        | some i =>
          cases hj : s.idxOf? other with
          | none => simp [idxOf?_cons, hd, ho, ho', hi, hj]
          | some j =>
            by_cases hlt : j < i
            · simp [idxOf?_cons, hd, ho, ho', hi, hj, hlt]
            · simp [idxOf?_cons, hd, ho, ho', hi, hj, hlt]

variable {data : Bytes} {hit : Nat × Bool}

theorem frame_of_none (h : firstBoundary data delimiter stop = none) (s : Bytes) :
    frame delimiter stop (data ++ s) = (data ++ (frame delimiter stop s).1, (frame delimiter stop s).2) := by
  induction data with
  | nil => rfl
  | cons byte data ih =>
    rw [firstBoundary_cons] at h
    split at h
    · cases h
    · rename_i hb
      rw [Option.map_eq_none_iff] at h
      rw [cons_append, frame, if_neg hb, ih h]
      rfl

theorem frame_of_some (h : firstBoundary data delimiter stop = some hit) (s : Bytes) : hit.1 < data.length ∧
      frame delimiter stop (data ++ s) = (data.take (hit.1 + 1), hit.2, data.drop (hit.1 + 1) ++ s) := by
  induction data generalizing hit with
  | nil =>
    unfold firstBoundary at h
    cases stop with
    | none => cases h
    | some byte => cases h
  | cons byte data ih =>
    rw [firstBoundary_cons] at h
    split at h
    · rename_i hb
      cases h
      refine ⟨Nat.zero_lt_succ _, ?_⟩
      rw [cons_append, frame, if_pos hb]
      rfl
    · rename_i hb
      obtain ⟨inner, hinner, heq⟩ := Option.map_eq_some_iff.mp h
      subst heq
      obtain ⟨hlt, hframe⟩ := ih hinner
      refine ⟨Nat.succ_lt_succ hlt, ?_⟩
      rw [cons_append, frame, if_neg hb, hframe]
      rfl

/-! ## One call -/

def Fits (limit : Nat) (record : Bytes) : Prop := limit = 0 ∨ record.length ≤ limit

instance (limit : Nat) (record : Bytes) : Decidable (Fits limit record) := inferInstanceAs (Decidable (_ ∨ _))

/-- What a call returns that has `record` so far and may read `s` -/
def Returns (limit : Nat) (record s : Bytes) (call : Call) : Prop :=
  if record ++ s = [] then call.length = none ∧ call.stream.errnum = none
  else if Fits limit (record ++ (frame delimiter stop s).1) then
    call.length = some (record ++ (frame delimiter stop s).1).length ∧
      call.stream.record = record ++ (frame delimiter stop s).1 ∧ call.stopped = (frame delimiter stop s).2.1 ∧
      unread call.stream call.file = (frame delimiter stop s).2.2 ∧ call.stream.recordLimit = limit
  else call.length = none ∧ call.stream.errnum = some .overflow

variable {record : Bytes} {call : Call}

theorem returns_of_none (h : firstBoundary data delimiter stop = none) (s : Bytes) :
    Returns delimiter stop limit record (data ++ s) call ↔ Returns delimiter stop limit (record ++ data) s call := by
  unfold Returns
  rw [frame_of_none delimiter stop h, append_assoc, append_assoc]

/-- A call under way: it reads on as long as there was no boundary and no excess. -/
structure Good (limit : Nat) (x : Reading) : Prop where
  notStopped : x.stopped = false
  noError : x.stream.errnum = none
  limit_eq : x.stream.recordLimit = limit
  fits : Fits limit x.stream.record

theorem fits_of_append {a b : Bytes} (h : Fits limit (a ++ b)) : Fits limit a := by
  cases h with
  | inl h => exact .inl h
  | inr h =>
    rw [length_append] at h
    exact .inr (by omega)

def grown (st : Stream) (data : Bytes) : Stream := { st with record := st.record ++ data }

theorem appendRecord_fits (h : Fits st.recordLimit (st.record ++ data)) :
    st.appendRecord data = (true, grown st data) := by
  unfold Stream.appendRecord grown
  by_cases hdata : data = []
  · rw [if_pos hdata, hdata, append_nil]
  · rw [if_neg hdata, if_neg]
    intro hlimit
    cases h with
    | inl h => omega
    | inr h =>
      rw [length_append] at h
      omega

theorem appendRecord_exceeds (hst : Fits st.recordLimit st.record) (h : ¬Fits st.recordLimit (st.record ++ data)) :
    st.appendRecord data = (false, { st with errnum := some .overflow }) := by
  unfold Stream.appendRecord
  have hdata : data ≠ [] := by
    intro hnil
    rw [hnil, append_nil] at h
    exact h hst
  unfold Fits at h
  rw [not_or, length_append] at h
  rw [if_neg hdata, if_pos (by omega)]

theorem returns_overflow (hdata : data ≠ [])
    (hpre : data <+: (frame delimiter stop s).1) (hexceeds : ¬Fits limit (record ++ data))
    (hlength : call.length = none) (herrnum : call.stream.errnum = some .overflow) :
    Returns delimiter stop limit record s call := by
  obtain ⟨more, hmore⟩ := hpre
  have hs : record ++ s ≠ [] := by
    intro hnil
    have hs := (append_eq_nil_iff.mp hnil).2
    rw [hs] at hmore
    exact hdata (append_eq_nil_iff.mp hmore).1
  unfold Returns
  rw [if_neg hs, if_neg]
  · exact ⟨hlength, herrnum⟩
  · intro hfits
    rw [← hmore, ← append_assoc] at hfits
    exact hexceeds (fits_of_append hfits)

theorem take_frame (s : Bytes) :
    data.take ((firstBoundary data delimiter stop).elim data.length (·.1 + 1)) <+: (frame delimiter stop (data ++ s)).1 := by
  cases h : firstBoundary data delimiter stop with
  | none =>
    rw [frame_of_none delimiter stop h]
    exact (List.take_prefix _ _).trans (prefix_append _ _)
  | some hit =>
    rw [(frame_of_some delimiter stop h s).2]
    exact prefix_refl _

theorem take_ne_nil (h : data ≠ []) :
    data.take ((firstBoundary data delimiter stop).elim data.length (·.1 + 1)) ≠ [] := by
  intro hnil
  rw [take_eq_nil_iff] at hnil
  cases hnil with
  | inl hzero =>
    cases hb : firstBoundary data delimiter stop with
    | none =>
      rw [hb] at hzero
      exact h (length_eq_zero_iff.mp hzero)
    | some hit => simp [hb] at hzero
  | inr hdata => exact h hdata

theorem returns_done {f : File} (hdata : data ≠ [])
    (h : firstBoundary data delimiter stop = some hit) (hfits : Fits limit (record ++ data.take (hit.1 + 1)))
    (hrecord : st.record = record ++ data.take (hit.1 + 1)) (hlimit : st.recordLimit = limit)
    (hunread : unread st f = data.drop (hit.1 + 1) ++ s) :
    Returns delimiter stop limit record (data ++ s) (Reading.done ⟨st, f, hit.2⟩) := by
  have hne : record ++ (data ++ s) ≠ [] := by
    intro hnil
    exact hdata (append_eq_nil_iff.mp (append_eq_nil_iff.mp hnil).2).1
  unfold Returns
  rw [if_neg hne, (frame_of_some delimiter stop h s).2, if_pos hfits]
  exact ⟨congrArg (fun r => some (List.length r)) hrecord, hrecord, rfl, hunread, hlimit⟩

omit delimiter stop in
theorem dropPending_record (st : Stream) (count : Nat) : (st.dropPending count).record = st.record := by
  unfold Stream.dropPending
  split
  · rfl
  · rfl

omit delimiter stop in
theorem dropPending_recordLimit (st : Stream) (count : Nat) : (st.dropPending count).recordLimit = st.recordLimit := by
  unfold Stream.dropPending
  split
  · rfl
  · rfl

omit delimiter stop in
theorem dropPending_pending (st : Stream) (count : Nat) :
    (st.dropPending count).pending.drop (st.dropPending count).pendingOff =
      (st.pending.drop st.pendingOff).drop count := by
  unfold Stream.dropPending
  rw [drop_drop]
  by_cases heq : st.pendingOff + count = st.pending.length
  · rw [if_pos heq, heq, drop_length]
    rfl
  · rw [if_neg heq]

theorem takePending_spec (hx : Good limit x) :
    match takePending delimiter stop x with
    | .inr call => Returns delimiter stop limit x.stream.record (unread x.stream x.file) call
    | .inl y => Good limit y ∧ y.file = x.file ∧ unread y.stream y.file = x.file.rest ∧
        ∃ data, unread x.stream x.file = data ++ x.file.rest ∧ y.stream.record = x.stream.record ++ data ∧
          firstBoundary data delimiter stop = none := by
  unfold takePending
  by_cases hzero : x.stream.pendingAvailable = 0
  · rw [if_pos hzero]
    have hnil : x.stream.pending.drop x.stream.pendingOff = [] := by
      apply drop_eq_nil_of_le
      unfold Stream.pendingAvailable at hzero
      omega
    have hunread : unread x.stream x.file = x.file.rest := by
      unfold unread
      rw [hnil]
      rfl
    refine ⟨hx, rfl, hunread, [], hunread, (append_nil _).symm, ?_⟩
    unfold firstBoundary
    cases stop with
    | none => rfl
    | some byte => rfl
  · rw [if_neg hzero]
    have hlength : x.stream.pendingAvailable = (x.stream.pending.drop x.stream.pendingOff).length :=
      length_drop.symm
    have hne : x.stream.pending.drop x.stream.pendingOff ≠ [] := by
      intro hnil
      rw [hnil] at hlength
      exact hzero hlength
    dsimp only
    rw [hlength]
    generalize hdata : x.stream.pending.drop x.stream.pendingOff = data at *
    have hunread : unread x.stream x.file = data ++ x.file.rest := by
      unfold unread
      rw [hdata]
    rw [hunread]
    have hlimit := hx.limit_eq
    by_cases hfits : Fits limit (x.stream.record ++
        data.take ((firstBoundary data delimiter stop).elim data.length (·.1 + 1)))
    · rw [appendRecord_fits (by rw [hlimit]; exact hfits)]
      have hwhole : x.stream.pendingOff + data.length = x.stream.pending.length := by
        have hlen := congrArg List.length hdata
        have hpos := length_pos_iff.mpr hne
        rw [length_drop] at hlen
        omega
      cases hb : firstBoundary data delimiter stop with
      | none =>
        rw [hb] at hfits
        have hdrop : (grown x.stream data).dropPending data.length = (grown x.stream data).resetPending :=
          if_pos hwhole
        simp only [Option.elim, Bool.not_true, Bool.false_eq_true, if_false, Option.isSome_none, take_length,
          hdrop] at hfits ⊢
        refine ⟨⟨?_, hx.noError, hlimit, hfits⟩, trivial, rfl, data, rfl, rfl, hb⟩
        rw [hx.notStopped]
        rfl
      | some hit =>
        rw [hb] at hfits
        obtain ⟨hlt, _⟩ := frame_of_some delimiter stop hb []
        simp only [Option.elim, Bool.not_true, Bool.false_eq_true, if_false, Option.isSome_some, if_true,
          hx.notStopped, Bool.false_or]
        refine returns_done delimiter stop hne hb hfits ?_ ?_ ?_
        · rw [dropPending_record]
          rfl
        · rw [dropPending_recordLimit]
          exact hlimit
        · unfold unread
          rw [dropPending_pending]
          show (x.stream.pending.drop x.stream.pendingOff).drop (hit.1 + 1) ++ x.file.rest = _
          rw [hdata]
    · rw [appendRecord_exceeds (by rw [hlimit]; exact hx.fits) (by rw [hlimit]; exact hfits)]
      exact returns_overflow delimiter stop (take_ne_nil delimiter stop hne) (take_frame delimiter stop _) hfits rfl rfl

omit delimiter stop in
theorem fread_split (f : File) {cap : Nat} (hcap : 0 < cap) :
    (f.fread cap).1 ++ (f.fread cap).2.rest = f.rest ∧ ((f.fread cap).1 = [] → f.rest = []) := by
  unfold File.fread
  refine ⟨take_append_drop _ _, ?_⟩
  intro hnil
  rw [take_eq_nil_iff] at hnil
  cases hnil with
  | inl hzero => omega
  | inr hrest => exact hrest

theorem returns_end (hx : Good limit x) (f : File) (hunread : unread x.stream f = []) :
    Returns delimiter stop limit x.stream.record []
      (if x.stream.record = [] then Reading.fail ⟨x.stream, f, x.stopped⟩ else Reading.done ⟨x.stream, f, x.stopped⟩) := by
  unfold Returns
  by_cases hnil : x.stream.record = []
  · rw [if_pos hnil, hnil, if_pos (append_nil [])]
    exact ⟨rfl, hx.noError⟩
  · have hne : x.stream.record ++ [] ≠ [] := by
      rw [append_nil]
      exact hnil
    rw [if_neg hnil, if_neg hne]
    unfold frame
    rw [append_nil, if_pos hx.fits]
    exact ⟨rfl, rfl, hx.notStopped, hunread, hx.limit_eq⟩

omit delimiter stop in
theorem appendPending_unread (st : Stream) (data : Bytes) (f : File) (h : st.pending.drop st.pendingOff = []) :
    unread (st.appendPending data) f = data ++ f.rest ∧ (st.appendPending data).record = st.record ∧
      (st.appendPending data).recordLimit = st.recordLimit ∧ (st.appendPending data).errnum = st.errnum := by
  unfold Stream.appendPending
  by_cases hdata : data = []
  · rw [if_pos hdata, hdata]
    refine ⟨?_, rfl, rfl, rfl⟩
    unfold unread
    rw [h]
  · rw [if_neg hdata]
    unfold unread Stream.compactPending
    by_cases hoff : st.pendingOff = 0
    · rw [hoff, drop_zero] at h
      rw [if_pos hoff]
      refine ⟨?_, rfl, rfl, rfl⟩
      show (st.pending ++ data).drop st.pendingOff ++ f.rest = data ++ f.rest
      rw [hoff, h]
      rfl
    · rw [if_neg hoff]
      refine ⟨?_, rfl, rfl, rfl⟩
      show (st.pending.drop st.pendingOff ++ data).drop 0 ++ f.rest = data ++ f.rest
      rw [h]
      rfl

/-- A step of either reader: what it returns is right, and where it goes on there is less to read. -/
def StepSound (limit : Nat) (x : Reading) (step : Reading ⊕ Call) : Prop :=
  match step with
  | .inr call => Returns delimiter stop limit x.stream.record (unread x.stream x.file) call
  | .inl y => Good limit y ∧ (unread y.stream y.file).length < (unread x.stream x.file).length ∧
      ∀ call, Returns delimiter stop limit y.stream.record (unread y.stream y.file) call →
        Returns delimiter stop limit x.stream.record (unread x.stream x.file) call

theorem readUntilStep_sound (hx : Good limit x) :
    StepSound delimiter stop limit x (readUntilStep delimiter stop x) := by
  unfold readUntilStep
  have hpending := takePending_spec delimiter stop hx
  cases htake : takePending delimiter stop x with
  | inr call =>
    rw [htake] at hpending
    exact hpending
  | inl y =>
    rw [htake] at hpending
    obtain ⟨hy, hfile, hrest, taken, htaken, hrecord, hnone⟩ := hpending
    obtain ⟨hsplit, hend⟩ := fread_split x.file (by decide : 0 < readChunkCap)
    have hback : ∀ call, Returns delimiter stop limit y.stream.record x.file.rest call →
        Returns delimiter stop limit x.stream.record (unread x.stream x.file) call := by
      intro call hcall
      rw [htaken, returns_of_none delimiter stop hnone, ← hrecord]
      exact hcall
    have hnopending : y.stream.pending.drop y.stream.pendingOff = [] := by
      unfold unread at hrest
      rw [hfile] at hrest
      exact append_left_eq_self.mp hrest
    dsimp only
    rw [hfile]
    generalize hread : x.file.fread readChunkCap = read at hsplit hend ⊢
    obtain ⟨chunk, f⟩ := read
    dsimp only at hsplit hend ⊢
    by_cases hchunk : chunk = []
    · have hnil := hend hchunk
      have hf : f.rest = [] := by
        rw [← hsplit] at hnil
        exact (append_eq_nil_iff.mp hnil).2
      simp only [if_pos hchunk]
      apply hback
      rw [hnil]
      apply returns_end delimiter stop hy
      unfold unread
      rw [hnopending, hf]
      rfl
    · simp only [if_neg hchunk]
      have hlimit := hy.limit_eq
      rw [← hsplit] at hback htaken
      by_cases hfits : Fits limit (y.stream.record ++
          chunk.take ((firstBoundary chunk delimiter stop).elim chunk.length (·.1 + 1)))
      · rw [appendRecord_fits (by rw [hlimit]; exact hfits)]
        obtain ⟨hunread, hkept, hkeptLimit, hkeptErrnum⟩ :=
          appendPending_unread (grown y.stream
              (chunk.take ((firstBoundary chunk delimiter stop).elim chunk.length (·.1 + 1))))
            (chunk.drop ((firstBoundary chunk delimiter stop).elim chunk.length (·.1 + 1))) f hnopending
        cases hb : firstBoundary chunk delimiter stop with
        | none =>
          rw [hb] at hfits hunread hkept hkeptLimit hkeptErrnum
          simp only [Option.elim, Bool.not_true, Bool.false_eq_true, if_false, Option.isSome_none, take_length,
            drop_length, nil_append] at hfits hunread hkept hkeptLimit hkeptErrnum ⊢
          refine ⟨⟨?_, hkeptErrnum.trans hy.noError, hkeptLimit.trans hlimit, ?_⟩, ?_, ?_⟩
          · show (y.stopped || false) = false
            rw [hy.notStopped]
            rfl
          · show Fits limit ((grown y.stream chunk).appendPending []).record
            rw [hkept]
            exact hfits
          · show (unread ((grown y.stream chunk).appendPending []) f).length < _
            rw [hunread, htaken, length_append, length_append]
            have hpos := length_pos_iff.mpr hchunk
            omega
          · intro call hcall
            apply hback
            rw [returns_of_none delimiter stop hb]
            have hcall' : Returns delimiter stop limit ((grown y.stream chunk).appendPending []).record
              (unread ((grown y.stream chunk).appendPending []) f) call := hcall
            rw [hunread, hkept] at hcall'
            exact hcall'
        | some hit =>
          rw [hb] at hfits hunread hkept hkeptLimit
          simp only [Option.elim, Bool.not_true, Bool.false_eq_true, if_false, Option.isSome_some, if_true,
            hy.notStopped, Bool.false_or] at hfits hunread hkept hkeptLimit ⊢
          apply hback
          exact returns_done delimiter stop hchunk hb hfits hkept (hkeptLimit.trans hlimit) hunread
      · rw [appendRecord_exceeds (by rw [hlimit]; exact hy.fits) (by rw [hlimit]; exact hfits)]
        apply hback
        exact returns_overflow delimiter stop (take_ne_nil delimiter stop hchunk) (take_frame delimiter stop _) hfits rfl
          rfl

theorem readLiveStep_sound (hx : Good limit x) : StepSound delimiter none limit x (readLiveStep delimiter x) := by
  unfold readLiveStep
  have hpending := takePending_spec delimiter none hx
  cases htake : takePending delimiter none x with
  | inr call =>
    rw [htake] at hpending
    exact hpending
  | inl y =>
    rw [htake] at hpending
    obtain ⟨hy, hfile, hrest, taken, htaken, hrecord, hnone⟩ := hpending
    have hback : ∀ call, Returns delimiter none limit y.stream.record x.file.rest call →
        Returns delimiter none limit x.stream.record (unread x.stream x.file) call := by
      intro call hcall
      rw [htaken, returns_of_none delimiter none hnone, ← hrecord]
      exact hcall
    have hnopending : y.stream.pending.drop y.stream.pendingOff = [] := by
      unfold unread at hrest
      rw [hfile] at hrest
      exact append_left_eq_self.mp hrest
    dsimp only
    rw [hfile]
    unfold File.getc
    cases hbytes : x.file.rest with
    | nil =>
      dsimp only [head?_nil, tail_nil]
      apply hback
      rw [hbytes]
      apply returns_end delimiter none hy
      unfold unread
      rw [hnopending]
      rfl
    | cons byte rest =>
      dsimp only [head?_cons, tail_cons]
      rw [hbytes] at hback htaken
      have hlimit := hy.limit_eq
      have hb := firstBoundary_cons delimiter none byte []
      have hafter : unread (grown y.stream [byte]) ⟨rest, x.file.splits⟩ = rest := by
        unfold unread grown
        rw [hnopending]
        rfl
      by_cases hfits : Fits limit (y.stream.record ++ [byte])
      · rw [appendRecord_fits (by rw [hlimit]; exact hfits)]
        simp only [Bool.not_true, Bool.false_eq_true, if_false]
        by_cases hdelimiter : byte = delimiter
        · rw [if_pos (.inl hdelimiter)] at hb
          rw [if_pos hdelimiter, hy.notStopped]
          apply hback
          have hflag : false = decide (byte ≠ delimiter) := by
            rw [hdelimiter]
            exact (decide_eq_false (fun h => h rfl)).symm
          rw [hflag]
          have hne : [byte] ≠ [] := cons_ne_nil _ _
          exact returns_done delimiter none hne hb hfits rfl hlimit hafter
        · have hnot : ¬IsBoundary delimiter none byte := by
            intro h
            cases h with
            | inl h => exact hdelimiter h
            | inr h => cases h
          rw [if_neg hnot] at hb
          rw [if_neg hdelimiter]
          refine ⟨⟨hy.notStopped, hy.noError, hlimit, hfits⟩, ?_, ?_⟩
          · show (unread (grown y.stream [byte]) ⟨rest, x.file.splits⟩).length < _
            rw [hafter, htaken, length_append, length_cons]
            omega
          · intro call hcall
            apply hback
            have hcall' : Returns delimiter none limit (y.stream.record ++ [byte])
              (unread (grown y.stream [byte]) ⟨rest, x.file.splits⟩) call := hcall
            rw [hafter] at hcall'
            exact (returns_of_none delimiter none hb rest).mpr hcall'
      · rw [appendRecord_exceeds (by rw [hlimit]; exact hy.fits) (by rw [hlimit]; exact hfits)]
        apply hback
        refine returns_overflow delimiter none (cons_ne_nil byte []) ?_ hfits rfl rfl
        have hwhole : [byte].take ((firstBoundary [byte] delimiter none).elim [byte].length (·.1 + 1)) = [byte] := by
          cases firstBoundary [byte] delimiter none with
          | none => rfl
          | some hit => exact take_of_length_le (Nat.succ_le_succ (Nat.zero_le _))
        rw [← hwhole]
        exact take_frame delimiter none rest

theorem call_returns {step : Reading → Reading ⊕ Call}
    (hstep : ∀ (limit : Nat) (x : Reading), Good limit x → StepSound delimiter stop limit x (step x)) (st : Stream) (f : File) :
    Returns delimiter stop st.recordLimit [] (unread st f)
      ((loop step ((unread st f).length + 1) (opened st f)).getD (opened st f).fail) := by
  have hopened : Good st.recordLimit (opened st f) := ⟨rfl, rfl, rfl, .inr (Nat.zero_le _)⟩
  have hrun : ∃ call, loop step ((unread st f).length + 1) (opened st f) = some call ∧
      Returns delimiter stop st.recordLimit [] (unread st f) call := by
    -- what a call returns from here on is what it returns from the beginning
    apply loop_of_measure (fun x => Good st.recordLimit x ∧
        ∀ call, Returns delimiter stop st.recordLimit x.stream.record (unread x.stream x.file) call →
          Returns delimiter stop st.recordLimit [] (unread st f) call)
      _ (fun x => (unread x.stream x.file).length)
    · intro x y hx hgo
      have hsound := hstep st.recordLimit x hx.1
      rw [hgo] at hsound
      exact ⟨⟨hsound.1, fun call hcall => hx.2 call (hsound.2.2 call hcall)⟩, hsound.2.1⟩
    · intro x call hx hleave
      have hsound := hstep st.recordLimit x hx.1
      rw [hleave] at hsound
      exact hx.2 call hsound
    · exact ⟨hopened, fun _ hcall => hcall⟩
    · exact Nat.lt_succ_self _
  obtain ⟨call, hcall, hreturns⟩ := hrun
  rw [hcall]
  exact hreturns

theorem readUntil_returns (st : Stream) (f : File) :
    Returns delimiter stop st.recordLimit [] (unread st f) (readUntil delimiter stop st f) :=
  call_returns delimiter stop (fun _ _ => readUntilStep_sound delimiter stop) st f

theorem readLive_returns (st : Stream) (f : File) :
    Returns delimiter none st.recordLimit [] (unread st f) (readLive delimiter st f) :=
  call_returns delimiter none (fun _ _ => readLiveStep_sound delimiter) st f

/-! ## Successive calls -/

/-- A stream cut into records: each ends at its first boundary, but the last one may have none. -/
inductive Framed : Bytes → List (Bytes × Bool) → Prop
  | nil : Framed [] []
  | last {s : Bytes} : s ≠ [] → (∀ byte ∈ s, ¬IsBoundary delimiter stop byte) → Framed s [(s, false)]
  | cons {body : Bytes} {byte : UInt8} {s : Bytes} {cut : List (Bytes × Bool)} :
      (∀ b ∈ body, ¬IsBoundary delimiter stop b) → IsBoundary delimiter stop byte → Framed s cut →
        Framed (body ++ byte :: s) ((body ++ [byte], decide (byte ≠ delimiter)) :: cut)

theorem frame_cases (h : s ≠ []) :
    (∃ body byte rest, s = body ++ byte :: rest ∧ (∀ b ∈ body, ¬IsBoundary delimiter stop b) ∧
      IsBoundary delimiter stop byte ∧ frame delimiter stop s = (body ++ [byte], decide (byte ≠ delimiter), rest)) ∨
    (∀ b ∈ s, ¬IsBoundary delimiter stop b) ∧ frame delimiter stop s = (s, false, []) := by
  induction s with
  | nil => exact absurd rfl h
  | cons b s ih =>
    by_cases hb : IsBoundary delimiter stop b
    · refine .inl ⟨[], b, s, rfl, ?_, hb, ?_⟩
      · intro c hc
        cases hc
      · unfold frame
        rw [if_pos hb]
        rfl
    · unfold frame
      rw [if_neg hb]
      by_cases hs : s = []
      · refine .inr ⟨?_, ?_⟩
        · intro c hc
          rw [hs, mem_singleton] at hc
          rw [hc]
          exact hb
        · rw [hs]
          rfl
      · cases ih hs with
        | inl hsome =>
          obtain ⟨body, byte, rest, hsplit, hbody, hbyte, hframe⟩ := hsome
          refine .inl ⟨b :: body, byte, rest, congrArg (b :: ·) hsplit, ?_, hbyte, ?_⟩
          · exact forall_mem_cons.mpr ⟨hb, hbody⟩
          · rw [hframe]
            rfl
        | inr hnone =>
          refine .inr ⟨forall_mem_cons.mpr ⟨hb, hnone.1⟩, ?_⟩
          rw [hnone.2]

variable {fuel : Nat}

theorem frames_framed (h : s.length < fuel) : Framed delimiter stop s (frames delimiter stop fuel s) := by
  induction fuel generalizing s with
  | zero => exact absurd h (Nat.not_lt_zero _)
  | succ fuel ih =>
    unfold frames
    by_cases hs : s = []
    · rw [if_pos hs, hs]
      exact .nil
    · rw [if_neg hs]
      have hlt := frame_length_lt delimiter stop hs
      have hmore := ih (s := (frame delimiter stop s).2.2) (by omega)
      cases frame_cases delimiter stop hs with
      | inl hsome =>
        obtain ⟨body, byte, rest, hsplit, hbody, hbyte, hframe⟩ := hsome
        rw [hframe] at hmore ⊢
        rw [hsplit]
        exact .cons hbody hbyte hmore
      | inr hnone =>
        have hnil : frames delimiter stop fuel [] = [] := by
          cases fuel with
          | zero => rfl
          | succ fuel => rfl
        rw [hnone.2]
        dsimp only
        rw [hnil]
        exact .last hs hnone.1

theorem Framed.flatten (h : Framed delimiter stop s cut) : (cut.map (·.1)).flatten = s := by
  induction h with
  | nil => rfl
  | last _ _ => exact append_nil _
  | cons _ _ _ ih =>
    rw [map_cons, flatten_cons, ih]
    exact append_cons _ _ _ |>.symm

def limited (limit : Nat) (cut : List (Bytes × Bool)) : List (Bytes × Bool) × Option Errno :=
  (cut.takeWhile fun r => decide (Fits limit r.1), if ∀ r ∈ cut, Fits limit r.1 then none else some .overflow)

variable {r : Bytes × Bool}

theorem limited_cons (h : Fits limit r.1) :
    limited limit (r :: cut) = (r :: (limited limit cut).1, (limited limit cut).2) := by
  unfold limited
  simp only [takeWhile_cons, h, decide_true, if_true, forall_mem_cons, true_and]

theorem limited_exceeds (h : ¬Fits limit r.1) : limited limit (r :: cut) = ([], some .overflow) := by
  unfold limited
  simp only [takeWhile_cons, h, decide_false, Bool.false_eq_true, if_false, forall_mem_cons, false_and]

theorem records_of_returns {call : Stream → File → Call}
    (hcall : ∀ st f, Returns delimiter stop st.recordLimit [] (unread st f) (call st f)) {f : File}
    (hfuel : (unread st f).length < fuel) :
    records call fuel st f = limited st.recordLimit (frames delimiter stop fuel (unread st f)) := by
  induction fuel generalizing st f with
  | zero => exact absurd hfuel (Nat.not_lt_zero _)
  | succ fuel ih =>
    have hreturns := hcall st f
    unfold Returns at hreturns
    rw [nil_append, nil_append] at hreturns
    unfold records frames
    by_cases hs : unread st f = []
    · rw [if_pos hs] at hreturns
      rw [if_pos hs]
      dsimp only
      rw [hreturns.1, hreturns.2]
      rfl
    · rw [if_neg hs] at hreturns
      rw [if_neg hs]
      dsimp only
      by_cases hfits : Fits st.recordLimit (frame delimiter stop (unread st f)).1
      · rw [if_pos hfits] at hreturns
        obtain ⟨hlength, hrecord, hstopped, hunread, hlimit⟩ := hreturns
        have hlt := frame_length_lt delimiter stop hs
        rw [hlength, limited_cons hfits]
        dsimp only
        rw [ih (by rw [hunread]; omega), hrecord, hstopped, hunread, hlimit]
      · rw [if_neg hfits] at hreturns
        rw [hreturns.1, hreturns.2, limited_exceeds hfits]

end

/-! ## What a look at the beginning keeps -/

theorem compactPending_pending (st : Stream) : st.compactPending.pending = st.pending.drop st.pendingOff := by
  unfold Stream.compactPending
  split
  · rename_i hzero
    rw [hzero]
    rfl
  · rfl

theorem compactPending_pendingOff (st : Stream) : st.compactPending.pendingOff = 0 := by
  unfold Stream.compactPending
  split
  · assumption
  · rfl

theorem compactPending_recordLimit (st : Stream) : st.compactPending.recordLimit = st.recordLimit := by
  unfold Stream.compactPending
  split
  · rfl
  · rfl

theorem fillPending_unread (target fuel : Nat) (st : Stream) (f : File) :
    unread (Stream.fillPending target fuel st f).1 (Stream.fillPending target fuel st f).2 = unread st f ∧
      (Stream.fillPending target fuel st f).1.recordLimit = st.recordLimit := by
  induction fuel generalizing st f with
  | zero => exact ⟨rfl, rfl⟩
  | succ fuel ih =>
    unfold Stream.fillPending
    by_cases hshort : st.pendingAvailable < target
    · rw [if_pos hshort]
      dsimp only
      have hread : ∀ cap,
          unread { st.compactPending with pending := st.compactPending.pending ++ (f.fread cap).1 } (f.fread cap).2 =
            unread st f := by
        intro cap
        unfold unread
        dsimp only
        rw [compactPending_pending, compactPending_pendingOff, drop_zero, append_assoc]
        unfold File.fread
        rw [take_append_drop]
      split
      · exact ⟨hread _, compactPending_recordLimit st⟩
      · obtain ⟨hunread, hlimit⟩ := ih { st.compactPending with
            pending := st.compactPending.pending ++ (f.fread (target - st.compactPending.pendingAvailable)).1 }
          (f.fread (target - st.compactPending.pendingAvailable)).2
        exact ⟨hunread.trans (hread _), hlimit.trans (compactPending_recordLimit st)⟩
    · rw [if_neg hshort]
      exact ⟨rfl, rfl⟩

def lookedAt (probe : Option Bool) (st : Stream) (f : File) : Stream × File :=
  match probe with
  | none => (st, f)
  | some regular => st.probeBinaryPrefix regular f

theorem lookedAt_unread (probe : Option Bool) (st : Stream) (f : File) :
    unread (lookedAt probe st f).1 (lookedAt probe st f).2 = unread st f ∧
      (lookedAt probe st f).1.recordLimit = st.recordLimit := by
  unfold lookedAt Stream.probeBinaryPrefix
  cases probe with
  | none => exact ⟨rfl, rfl⟩
  | some regular =>
    cases regular with
    | true => exact ⟨rfl, rfl⟩
    | false => exact fillPending_unread binaryProbeCap (binaryProbeCap + 1) { st with errnum := none } f

/-- **Main result.** However the chunks fall and whatever was looked at before, the
calls return the records of what is unread, up to one that exceeds the limit. -/
theorem records_framed (delimiter : UInt8) (stop : Option UInt8) (probe : Option Bool) (st : Stream) (f : File) (n : Nat) :
    ∃ cut, Framed delimiter stop (unread st f) cut ∧ (cut.map (·.1)).flatten = unread st f ∧
      records (readUntil delimiter stop) ((unread st f).length + 1 + n) (lookedAt probe st f).1 (lookedAt probe st f).2 =
        limited st.recordLimit cut ∧
      records (readLive delimiter) ((unread st f).length + 1 + n) (lookedAt probe st f).1 (lookedAt probe st f).2 =
        records (read delimiter) ((unread st f).length + 1 + n) (lookedAt probe st f).1 (lookedAt probe st f).2 := by
  obtain ⟨hunread, hlimit⟩ := lookedAt_unread probe st f
  have hfuel : (unread st f).length < (unread st f).length + 1 + n := by omega
  have hframed := frames_framed delimiter stop hfuel
  have hrecords : ∀ {stop : Option UInt8} {call : Stream → File → Call},
      (∀ st f, Returns delimiter stop st.recordLimit [] (unread st f) (call st f)) →
        records call ((unread st f).length + 1 + n) (lookedAt probe st f).1 (lookedAt probe st f).2 =
          limited st.recordLimit (frames delimiter stop ((unread st f).length + 1 + n) (unread st f)) := by
    intro stop call hcall
    rw [records_of_returns delimiter stop hcall (by rw [hunread]; exact hfuel), hunread, hlimit]
  refine ⟨_, hframed, hframed.flatten, hrecords (readUntil_returns delimiter stop), ?_⟩
  rw [hrecords (readLive_returns delimiter)]
  exact (hrecords (readUntil_returns delimiter none)).symm

end Bx.RecordStream
