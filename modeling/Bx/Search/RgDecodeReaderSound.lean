import Bx.Search.RgDecodeReader

/-!
# When a read returns

Every step of the loop takes bytes, writes from a replacement, or sets a flag that stays set, unless the converter is
asked again for what it could not do. Then nothing changes any more, and the read never returns.
-/

namespace Bx.RgDecodeReader

open Kit List

variable {σ : Type}

/-! ## The converter -/

section
variable (d : Decoder σ)

def StopsAt (s : σ) (input : Bytes) (room : Nat) : Stop → Prop
  | .tooBig => ∃ size out t, d.next s input = .char size out t ∧ room < out.length
  | .illegal => d.next s input = .illegal
  | .incomplete => d.next s input = .incomplete

variable {input : Bytes} {s : σ}

theorem iconv_cases (fuel : Nat) (room : Nat) (hne : input ≠ []) :
    (∃ size out t, d.next s input = .char size out t ∧ out.length ≤ room ∧
      iconv d (fuel + 1) s input room = (iconv d fuel t (input.drop size) (room - out.length)).prepend out) ∨
    ∃ stop, StopsAt d s input room stop ∧ iconv d (fuel + 1) s input room = ⟨s, input, [], some stop⟩ := by
  rw [iconv, if_neg hne]
  cases hnext : d.next s input with
  | illegal => exact .inr ⟨.illegal, hnext, rfl⟩
  | incomplete => exact .inr ⟨.incomplete, hnext, rfl⟩
  | char size out t =>
    by_cases hroom : room < out.length
    · refine .inr ⟨.tooBig, ⟨size, out, t, hnext, hroom⟩, ?_⟩
      simp only [if_pos hroom]
    · refine .inl ⟨size, out, t, rfl, Nat.le_of_not_lt hroom, ?_⟩
      simp only [if_neg hroom]

theorem iconv_rest (s : σ) (room : Nat) {fuel : Nat} (hfuel : input.length ≤ fuel) :
    (iconv d fuel s input room).rest <:+ input ∧
      ((iconv d fuel s input room).rest = [] ↔ (iconv d fuel s input room).stop = none) := by
  induction fuel generalizing s input room with
  | zero =>
    have hnil : input = [] := length_eq_zero_iff.mp (Nat.le_zero.mp hfuel)
    subst hnil
    exact ⟨suffix_refl _, Iff.intro (fun _ => rfl) (fun _ => rfl)⟩
  | succ fuel ih =>
    by_cases hnil : input = []
    · subst hnil
      exact ⟨suffix_refl _, Iff.intro (fun _ => rfl) (fun _ => rfl)⟩
    · obtain ⟨size, out, t, hnext, _, heq⟩ | ⟨stop, _, heq⟩ := iconv_cases d fuel room hnil
      · obtain ⟨hpos, hle⟩ := d.next_size _ _ _ _ _ hnext
        have hlength : (input.drop size).length ≤ fuel := by
          rw [length_drop]
          omega
        obtain ⟨hsuffix, hiff⟩ := ih t (room - out.length) hlength
        rw [heq]
        exact ⟨hsuffix.trans (drop_suffix _ _), hiff⟩
      · rw [heq]
        refine ⟨suffix_refl _, Iff.intro (fun h => absurd h hnil) ?_⟩
        intro h
        cases h

theorem iconv_stop (fuel : Nat) (s : σ) (input : Bytes) (room : Nat) (stop : Stop)
    (h : (iconv d fuel s input room).stop = some stop) :
    ∃ room', StopsAt d (iconv d fuel s input room).state (iconv d fuel s input room).rest room' stop := by
  induction fuel generalizing s input room with
  | zero => cases h
  | succ fuel ih =>
    by_cases hnil : input = []
    · simp [iconv, if_pos hnil] at h
    · obtain ⟨size, out, t, _, _, heq⟩ | ⟨stop', hstops, heq⟩ := iconv_cases d (s := s) fuel room hnil
      · rw [heq] at h ⊢
        exact ih _ _ _ h
      · rw [heq] at h ⊢
        cases h
        exact ⟨room, hstops⟩

theorem iconv_progress (room : Nat) (hne : input ≠ []) :
    (iconv d input.length s input room).rest.length < input.length ∨
      ∃ stop, StopsAt d s input room stop ∧ iconv d input.length s input room = ⟨s, input, [], some stop⟩ := by
  obtain ⟨fuel, hfuel⟩ : ∃ n, input.length = n + 1 :=
    ⟨input.length - 1, by have hpos := length_pos_iff.mpr hne; omega⟩
  rw [hfuel]
  obtain ⟨size, out, t, hnext, _, heq⟩ | hstop := iconv_cases d fuel room hne
  · obtain ⟨hpos, hle⟩ := d.next_size _ _ _ _ _ hnext
    have hlength : (input.drop size).length ≤ fuel := by
      rw [length_drop]
      omega
    have hrest := (iconv_rest d t (room - out.length) hlength).1.length_le
    refine .inl ?_
    rw [heq]
    show (iconv d fuel t (input.drop size) (room - out.length)).rest.length < _
    omega
  · exact .inr hstop

end

/-! ## The buffer -/

theorem Input.unread_leave (i : Input) {rest : Bytes} (h : rest <:+ i.unread) : (i.leave rest).unread = rest := by
  have hsuffix : rest <:+ i.bytes := h.trans (drop_suffix _ _)
  exact (suffix_iff_eq_drop.mp hsuffix).symm

variable {i : Input}

theorem Input.unread_skip (h : i.unread ≠ []) : i.skip.unread = i.unread.tail := by
  have hoff : i.off < i.bytes.length := by
    apply Nat.lt_of_not_le
    intro hle
    exact h (drop_eq_nil_of_le hle)
  unfold Input.skip Input.unread
  rw [dif_pos hoff, tail_drop]

theorem Input.unread_append (i : Input) (data : Bytes) : (i.append data).unread = i.unread ++ data :=
  drop_append_of_le_length i.off_le

theorem Input.unread_eq_nil : i.unread = [] ↔ i.off = i.bytes.length := by
  unfold Input.unread
  rw [drop_eq_nil_iff]
  have hle := i.off_le
  omega

theorem Input.unread_ne_nil : i.unread ≠ [] ↔ i.off < i.bytes.length := by
  rw [ne_eq, Input.unread_eq_nil]
  have hle := i.off_le
  omega

/-! ## Refilling -/

structure Kept (r r' : Reader σ) : Prop where
  cd : r'.cd = r.cd
  iconvFlushed : r'.iconvFlushed = r.iconvFlushed
  replacement : r'.replacement = r.replacement
  inputLimit : r'.inputLimit = r.inputLimit
  failure : r'.source.failure = r.source.failure

/-- What there is more after reading for the buffer: bytes, the end of the source or an error -/
inductive Refilled (r r' : Reader σ) : Prop
  | data (data : Bytes) : data ≠ [] → r.source.rest = data ++ r'.source.rest → r'.input.unread = r.input.unread ++ data →
      r'.sourceEof = false → r'.errnum = none → Refilled r r'
  | eof : r.source.rest = [] → r'.source.rest = [] → r'.input.unread = r.input.unread → r'.sourceEof = true →
      r'.errnum = none → Refilled r r'
  | failed : r'.source.rest.length ≤ r.source.rest.length → r'.input.unread = r.input.unread → r'.sourceEof = false →
      r'.errnum.isSome = true →
      (0 < r.inputLimit ∨ r.source.failure.isSome = true ∨ inputCap ≤ r.input.unread.length) → Refilled r r'

variable {r : Reader σ}

theorem sourceRead_cases {cap : Nat} (hcap : 0 < cap) (heof : r.sourceEof = false) (herr : r.errnum = none) :
    Kept r (r.sourceRead cap).2 ∧ (r.sourceRead cap).2.input = r.input ∧
      (((r.sourceRead cap).1 ≠ [] ∧ r.source.rest = (r.sourceRead cap).1 ++ (r.sourceRead cap).2.source.rest ∧
          (r.sourceRead cap).2.sourceEof = false ∧ (r.sourceRead cap).2.errnum = none) ∨
        ((r.sourceRead cap).1 = [] ∧ r.source.rest = [] ∧ (r.sourceRead cap).2.source.rest = [] ∧
          (r.sourceRead cap).2.sourceEof = true ∧ (r.sourceRead cap).2.errnum = none) ∨
        ((r.sourceRead cap).1 = [] ∧ (r.sourceRead cap).2.source.rest.length ≤ r.source.rest.length ∧
          (r.sourceRead cap).2.sourceEof = false ∧ (r.sourceRead cap).2.errnum.isSome = true ∧
          (0 < r.inputLimit ∨ r.source.failure.isSome = true))) := by
  unfold Reader.sourceRead Source.read
  rw [if_neg (ne_of_gt hcap)]
  cases hrest : r.source.rest with
  | nil =>
    cases hfailure : r.source.failure with
    | some errnum =>
      refine ⟨⟨rfl, rfl, rfl, rfl, rfl⟩, rfl, .inr (.inr ⟨rfl, ?_, heof, rfl, .inr rfl⟩)⟩
      show r.source.rest.length ≤ _
      rw [hrest]
    | none =>
      simp only [take_nil, drop_nil, if_pos]
      exact ⟨⟨rfl, rfl, rfl, rfl, hfailure.symm⟩, trivial, .inr (.inl ⟨trivial, trivial, trivial, trivial, herr⟩)⟩
  | cons c rest =>
    have hne : (c :: rest).take (min cap (max 1 (r.source.splits.headD cap))) ≠ [] := by
      intro hnil
      rw [take_eq_nil_iff] at hnil
      cases hnil with
      | inl hzero => omega
      | inr hrest => cases hrest
    simp only [if_neg hne]
    split
    · rename_i hlimit
      refine ⟨⟨rfl, rfl, rfl, rfl, rfl⟩, rfl, .inr (.inr ⟨rfl, ?_, heof, rfl, .inl hlimit.1⟩)⟩
      show ((c :: rest).drop _).length ≤ _
      rw [length_drop]
      exact Nat.sub_le _ _
    · exact ⟨⟨rfl, rfl, rfl, rfl, rfl⟩, rfl, .inl ⟨hne, (take_append_drop _ _).symm, heof, herr⟩⟩

theorem append_cases (hroom : r.input.bytes.length < inputCap) (heof : r.sourceEof = false) (herr : r.errnum = none) :
    let nread := r.sourceRead (inputCap - r.input.bytes.length)
    let r' : Reader σ := { nread.2 with input := nread.2.input.append nread.1 }
    Kept r r' ∧ Refilled r r' ∧ (nread.1 = [] → r'.sourceEof = true ∨ r'.errnum.isSome = true) := by
  obtain ⟨hkept, hinput, hcases⟩ := sourceRead_cases (Nat.sub_pos_of_lt hroom) heof herr
  dsimp only
  generalize r.sourceRead (inputCap - r.input.bytes.length) = nread at hkept hinput hcases ⊢
  have hunread : (nread.2.input.append nread.1).unread = r.input.unread ++ nread.1 := by
    rw [Input.unread_append, hinput]
  refine ⟨⟨hkept.cd, hkept.iconvFlushed, hkept.replacement, hkept.inputLimit, hkept.failure⟩, ?_⟩
  obtain ⟨hne, hrest, hneof, hnerr⟩ | ⟨hnil, hrest, hrest', heof', hnerr⟩ | ⟨hnil, hle, hneof, herr', hwhy⟩ := hcases
  · exact ⟨.data nread.1 hne hrest hunread hneof hnerr, fun hnil => absurd hnil hne⟩
  · rw [hnil, append_nil] at hunread
    rw [hnil]
    exact ⟨.eof hrest hrest' hunread heof' hnerr, fun _ => .inl heof'⟩
  · rw [hnil, append_nil] at hunread
    rw [hnil]
    exact ⟨.failed hle hunread hneof herr' (hwhy.elim .inl fun h => .inr (.inl h)), fun _ => .inr herr'⟩

theorem refill_cases (heof : r.sourceEof = false) (herr : r.errnum = none) : Kept r r.refill.2 ∧
      (Refilled r r.refill.2 ∧ (r.refill.1 = false → r.refill.2.sourceEof = true ∨ r.refill.2.errnum.isSome = true) ∨
        inputCap < r.input.unread.length ∧ r.refill.1 = false ∧ r.refill.2 = { r with input := r.input.compact }) := by
  have hgo : ¬(r.sourceEof || r.errnum.isSome) = true := by
    rw [heof, herr]
    decide
  unfold Reader.refill
  rw [if_neg hgo]
  dsimp only
  by_cases hfull : r.input.compact.bytes.length = inputCap
  · rw [if_pos hfull]
    refine ⟨⟨rfl, rfl, rfl, rfl, rfl⟩, .inl ⟨.failed ?_ ?_ ?_ ?_ ?_, ?_⟩⟩
    · exact le_rfl
    · rfl
    · exact heof
    · rfl
    · exact .inr (.inr (le_of_eq hfull.symm))
    · intro _
      exact .inr rfl
  · rw [if_neg hfull]
    by_cases hroom : r.input.compact.bytes.length < inputCap
    · obtain ⟨hkept, hrefilled, hnone⟩ := append_cases (r := { r with input := r.input.compact }) hroom heof herr
      refine ⟨⟨hkept.cd, hkept.iconvFlushed, hkept.replacement, hkept.inputLimit, hkept.failure⟩, .inl ⟨?_, ?_⟩⟩
      · cases hrefilled with
        | data data hne hrest hread hneof hnerr => exact .data data hne hrest hread hneof hnerr
        | eof hrest hrest' hread heof' hnerr => exact .eof hrest hrest' hread heof' hnerr
        | failed hle hread hneof herr' hwhy => exact .failed hle hread hneof herr' hwhy
      · intro hfalse
        apply hnone
        by_contra hne
        exact Bool.false_ne_true (hfalse.symm.trans (decide_eq_true hne))
    · have hover : inputCap - r.input.compact.bytes.length = 0 := by omega
      unfold Reader.sourceRead
      rw [if_pos hover]
      refine ⟨⟨rfl, rfl, rfl, rfl, rfl⟩, .inr ⟨?_, ?_, ?_⟩⟩
      · show inputCap < r.input.compact.bytes.length
        omega
      · exact decide_eq_false (fun h : ([] : Bytes) ≠ [] => h rfl)
      · have happend : r.input.compact.append [] = r.input.compact := by
          unfold Input.append
          congr 1
          exact append_nil _
        rw [happend]

theorem refillEmpty_cases (hempty : r.input.unread = []) :
    Kept r r.refillEmpty ∧ ((r.sourceEof = false ∧ r.errnum = none ∧ Refilled r r.refillEmpty) ∨
      (r.sourceEof = true ∨ r.errnum.isSome = true) ∧ r.refillEmpty = { r with input := .empty }) := by
  unfold Reader.refillEmpty
  dsimp only
  by_cases hgo : (!r.sourceEof && r.errnum.isNone) = true
  · rw [if_pos hgo]
    rw [Bool.and_eq_true, Bool.not_eq_true', Option.isNone_iff_eq_none] at hgo
    obtain ⟨hkept, hcases⟩ := refill_cases (r := { r with input := .empty }) hgo.1 hgo.2
    refine ⟨⟨hkept.cd, hkept.iconvFlushed, hkept.replacement, hkept.inputLimit, hkept.failure⟩, .inl ⟨hgo.1, hgo.2, ?_⟩⟩
    have hunread : Input.empty.unread = r.input.unread := hempty.symm
    obtain ⟨hrefilled, _⟩ | hover := hcases
    · cases hrefilled with
      | data data hne hrest hread hneof hnerr => exact .data data hne hrest (by rw [hread, hunread]) hneof hnerr
      | eof hrest hrest' hread heof' hnerr => exact .eof hrest hrest' (hread.trans hunread) heof' hnerr
      | failed hle hread hneof herr' hwhy =>
        exact .failed hle (hread.trans hunread) hneof herr' (by rw [← hunread]; exact hwhy)
    · exact absurd hover.1 (Nat.not_lt_zero _)
  · rw [if_neg hgo]
    rw [Bool.and_eq_true, Bool.not_eq_true', Option.isNone_iff_eq_none, not_and_or, Bool.not_eq_false] at hgo
    refine ⟨⟨rfl, rfl, rfl, rfl, rfl⟩, .inr ⟨hgo.imp id Option.isSome_iff_ne_none.mpr, rfl⟩⟩

theorem refillMore_cases (heof : r.sourceEof = false) :
    Kept r r.refillMore ∧ ((r.errnum = none ∧ Refilled r r.refillMore) ∨ r.errnum.isSome = true ∧ r.refillMore = r) := by
  unfold Reader.refillMore
  dsimp only
  by_cases herr : r.errnum = none
  · obtain ⟨hkept, hcases⟩ := refill_cases heof herr
    obtain ⟨hrefilled, hwhy⟩ | ⟨hlt, hnone, heq⟩ := hcases
    · have hno : ¬(!r.refill.1 && r.refill.2.errnum.isNone && !r.refill.2.sourceEof) = true := by
        intro hyes
        rw [Bool.and_eq_true, Bool.and_eq_true, Bool.not_eq_true', Bool.not_eq_true', Option.isNone_iff_eq_none] at hyes
        cases hwhy hyes.1.1 with
        | inl heof' => exact Bool.false_ne_true (hyes.2.symm.trans heof')
        | inr herr' => exact Option.isSome_iff_ne_none.mp herr' hyes.1.2
      rw [if_neg hno]
      exact ⟨hkept, .inl ⟨herr, hrefilled⟩⟩
    · have hyes : (!r.refill.1 && r.refill.2.errnum.isNone && !r.refill.2.sourceEof) = true := by
        rw [heq, hnone]
        show (!false && r.errnum.isNone && !r.sourceEof) = true
        rw [herr, heof]
        decide
      rw [if_pos hyes, heq]
      refine ⟨⟨rfl, rfl, rfl, rfl, rfl⟩, .inl ⟨herr, .failed ?_ ?_ ?_ ?_ ?_⟩⟩
      · exact le_rfl
      · rfl
      · exact heof
      · rfl
      · exact .inr (.inr (le_of_lt hlt))
  · have hsome := Option.isSome_iff_ne_none.mpr herr
    have hstay : r.refill = (false, r) := by
      unfold Reader.refill
      rw [hsome, Bool.or_true, if_pos rfl]
    have hno : ¬(!r.refill.1 && r.refill.2.errnum.isNone && !r.refill.2.sourceEof) = true := by
      rw [hstay]
      intro hyes
      rw [Bool.and_eq_true, Bool.and_eq_true, Option.isNone_iff_eq_none] at hyes
      exact herr hyes.1.2
    rw [if_neg hno, hstay]
    exact ⟨⟨rfl, rfl, rfl, rfl, rfl⟩, .inr ⟨hsome, rfl⟩⟩

/-! ## One step -/

section
variable (d : Decoder σ) (cap : Nat)

/-- The converter is asked for what it could not do: a character or a flush that there is no room
for, or one that is incomplete and that nothing more is read for. -/
def Stuck (x : Reading σ) : Prop :=
  x.output.length < cap ∧ x.reader.replacement = [] ∧
    (x.reader.input.unread ≠ [] ∧
        (StopsAt d x.reader.cd x.reader.input.unread (cap - x.output.length) .tooBig ∨
          StopsAt d x.reader.cd x.reader.input.unread (cap - x.output.length) .incomplete ∧
            x.reader.sourceEof = false ∧ x.reader.errnum.isSome = true) ∨
      x.reader.input.unread = [] ∧ x.reader.sourceEof = true ∧ x.reader.errnum = none ∧ x.reader.iconvFlushed = false ∧
        cap - x.output.length < (d.flush x.reader.cd).length)

structure AtEnd (r : Reader σ) : Prop where
  sourceEof : r.sourceEof = true
  input : r.input.unread = []
  replacement : r.replacement = []
  iconvFlushed : r.iconvFlushed = true

end

/-- Bytes that are to be read count four times, as each may become a replacement; flags that are
not set count once. -/
def toDo (r : Reader σ) : Nat :=
  4 * (r.source.rest.length + r.input.unread.length) + r.source.rest.length + r.replacement.length +
    (if r.sourceEof = true then 0 else 1) + (if r.errnum.isSome = true then 0 else 1) +
    (if r.iconvFlushed = true then 0 else 1)

theorem Refilled.toDo_lt {r' : Reader σ} (hkept : Kept r r') (h : Refilled r r') (heof : r.sourceEof = false)
    (herr : r.errnum = none) : toDo r' < toDo r := by
  unfold toDo
  rw [hkept.replacement, hkept.iconvFlushed, heof, herr]
  cases h with
  | data data hne hrest hread hneof hnerr =>
    have hpos := length_pos_iff.mpr hne
    rw [hrest, hread, hneof, hnerr, length_append, length_append]
    omega
  | eof hrest hrest' hread heof' hnerr =>
    rw [hrest, hrest', hread, heof', hnerr]
    simp
  | failed hle hread hneof herr' _ =>
    rw [hread, hneof, herr']
    simp
    omega

section
variable {d : Decoder σ} {cap : Nat}

theorem Input.leave_unread (i : Input) : i.leave i.unread = i := by
  have hlength : i.unread.length = i.bytes.length - i.off := length_drop
  have hle := i.off_le
  have hoff : i.bytes.length - i.unread.length = i.off := by omega
  unfold Input.leave
  congr 1

theorem toDo_converted (r : Reader σ) (c : Converted σ) (h : c.rest <:+ r.input.unread) :
    toDo (r.converted c) + 4 * r.input.unread.length = toDo r + 4 * c.rest.length := by
  unfold toDo Reader.converted
  dsimp only
  rw [Input.unread_leave _ h]
  omega

theorem toDo_skipByte (hunread : r.input.unread ≠ []) (hreplacement : r.replacement = []) :
    toDo r.skipByte < toDo r := by
  have hpos := length_pos_iff.mpr hunread
  unfold toDo Reader.skipByte Reader.queueReplacement Reader.replacementBytes
  dsimp only
  rw [Input.unread_skip hunread, length_tail, hreplacement]
  simp only [length_cons, length_nil]
  omega

theorem toDo_refillMore (heof : r.sourceEof = false) :
    toDo r.refillMore ≤ toDo r ∧ (r.errnum = none → toDo r.refillMore < toDo r) := by
  obtain ⟨hkept, ⟨herr, hrefilled⟩ | ⟨hsome, heq⟩⟩ := refillMore_cases heof
  · have hlt := hrefilled.toDo_lt hkept heof herr
    exact ⟨le_of_lt hlt, fun _ => hlt⟩
  · rw [heq]
    exact ⟨le_rfl, fun herr => absurd herr (Option.isSome_iff_ne_none.mp hsome)⟩

variable {x : Reading σ}

theorem convert_lt (hroom : x.output.length < cap) (hreplacement : x.reader.replacement = [])
    (hunread : x.reader.input.unread ≠ []) (hstuck : ¬Stuck d cap x) :
    toDo (convert d cap x).reader < toDo x.reader := by
  obtain ⟨hsuffix, hend⟩ := iconv_rest d x.reader.cd (cap - x.output.length) (Nat.le_refl x.reader.input.unread.length)
  have hprogress := iconv_progress d (s := x.reader.cd) (cap - x.output.length) hunread
  unfold convert
  dsimp only
  generalize iconv d x.reader.input.unread.length x.reader.cd x.reader.input.unread (cap - x.output.length) = c
    at hsuffix hend hprogress ⊢
  have hdone := toDo_converted x.reader c hsuffix
  have hle := hsuffix.length_le
  have hskip : c.rest ≠ [] → toDo (x.reader.converted c).skipByte < toDo x.reader := by
    intro hrest
    have hunread' : (x.reader.converted c).input.unread = c.rest := Input.unread_leave _ hsuffix
    have hlt := toDo_skipByte (r := x.reader.converted c) (by rw [hunread']; exact hrest) hreplacement
    omega
  cases hstop : c.stop with
  | none =>
    have hpos := length_pos_iff.mpr hunread
    have hnil := hend.mpr hstop
    rw [hnil, length_nil] at hdone
    show toDo (x.reader.converted c) < _
    omega
  | some stop =>
    have hrest : c.rest ≠ [] := by
      intro hnil
      simp [hend.mp hnil] at hstop
    cases stop with
    | tooBig =>
      show toDo (x.reader.converted c) < _
      cases hprogress with
      | inl hlt => omega
      | inr hstops =>
        obtain ⟨stop, hstops, heq⟩ := hstops
        rw [heq, Option.some.injEq] at hstop
        rw [hstop] at hstops
        exact absurd ⟨hroom, hreplacement, .inl ⟨hunread, .inl hstops⟩⟩ hstuck
    | illegal => exact hskip hrest
    | incomplete =>
      by_cases heof : x.reader.sourceEof = true
      · have hsame : (x.reader.converted c).sourceEof = true := heof
        simp only [hsame, if_true]
        exact hskip hrest
      · rw [Bool.not_eq_true] at heof
        have hsame : (x.reader.converted c).sourceEof = false := heof
        simp only [hsame, Bool.false_eq_true, if_false]
        obtain ⟨hle', hlt'⟩ := toDo_refillMore hsame
        cases hprogress with
        | inl hlt => omega
        | inr hstops =>
          obtain ⟨stop, hstops, heq⟩ := hstops
          rw [heq, Option.some.injEq] at hstop
          rw [hstop] at hstops
          have herr : (x.reader.converted c).errnum = none := by
            by_contra hsome
            exact hstuck ⟨hroom, hreplacement, .inl ⟨hunread, .inr ⟨hstops, heof, Option.isSome_iff_ne_none.mpr hsome⟩⟩⟩
          have hlt := hlt' herr
          omega

theorem convert_of_stuck (hunread : x.reader.input.unread ≠ [])
    (h : StopsAt d x.reader.cd x.reader.input.unread (cap - x.output.length) .tooBig ∨
      StopsAt d x.reader.cd x.reader.input.unread (cap - x.output.length) .incomplete ∧
        x.reader.sourceEof = false ∧ x.reader.errnum.isSome = true) : convert d cap x = x := by
  obtain ⟨fuel, hfuel⟩ : ∃ n, x.reader.input.unread.length = n + 1 :=
    ⟨x.reader.input.unread.length - 1, by have hpos := length_pos_iff.mpr hunread; omega⟩
  have hconverted : ∀ stop, StopsAt d x.reader.cd x.reader.input.unread (cap - x.output.length) stop →
      iconv d x.reader.input.unread.length x.reader.cd x.reader.input.unread (cap - x.output.length) =
        ⟨x.reader.cd, x.reader.input.unread, [], some stop⟩ := by
    intro stop hstops
    rw [hfuel, iconv, if_neg hunread]
    cases stop with
    | tooBig =>
      obtain ⟨size, out, t, hnext, hlt⟩ := hstops
      rw [hnext]
      exact if_pos hlt
    | illegal => rw [show d.next _ _ = _ from hstops]
    | incomplete => rw [show d.next _ _ = _ from hstops]
  have hsame : ∀ stop, x.reader.converted ⟨x.reader.cd, x.reader.input.unread, [], some stop⟩ = x.reader := by
    intro stop
    unfold Reader.converted
    dsimp only
    rw [Input.leave_unread]
  unfold convert
  dsimp only
  cases h with
  | inl htooBig => rw [hconverted _ htooBig, hsame, append_nil]
  | inr hincomplete =>
    obtain ⟨hstops, heof, herr⟩ := hincomplete
    rw [hconverted _ hstops, hsame, append_nil]
    simp only [heof, Bool.false_eq_true, if_false]
    obtain ⟨_, ⟨hnone, _⟩ | ⟨_, heq⟩⟩ := refillMore_cases heof
    · exact absurd hnone (Option.isSome_iff_ne_none.mp herr)
    · rw [heq]

theorem afterReplacement_of_unread (h : x.reader.input.unread ≠ []) :
    afterReplacement d cap x = .inl (convert d cap x) := by
  have hlt := Input.unread_ne_nil.mp h
  have hne := ne_of_lt hlt
  unfold afterReplacement
  simp only [hne, false_and, if_false, if_pos hlt]

theorem afterReplacement_of_empty (h : x.reader.input.unread = []) : afterReplacement d cap x =
      if x.reader.refillEmpty.errnum.isSome then .inr ⟨x.reader.refillEmpty, x.output⟩
      else if x.reader.refillEmpty.input.unread ≠ [] then .inl (convert d cap ⟨x.reader.refillEmpty, x.output⟩)
      else if !x.reader.refillEmpty.sourceEof then .inl ⟨x.reader.refillEmpty, x.output⟩
      else if !x.reader.refillEmpty.iconvFlushed then .inl (flush d cap ⟨x.reader.refillEmpty, x.output⟩)
      else .inr ⟨x.reader.refillEmpty, x.output⟩ := by
  have heq := Input.unread_eq_nil.mp h
  unfold afterReplacement
  simp only [if_true, true_and, Input.unread_ne_nil, heq]

theorem convert_le (hroom : x.output.length < cap) (hreplacement : x.reader.replacement = [])
    (hunread : x.reader.input.unread ≠ []) : toDo (convert d cap x).reader ≤ toDo x.reader := by
  by_cases hstuck : Stuck d cap x
  · obtain ⟨_, _, ⟨_, hstops⟩ | hempty⟩ := hstuck
    · rw [convert_of_stuck hunread hstops]
    · exact absurd hempty.1 hunread
  · exact le_of_lt (convert_lt hroom hreplacement hunread hstuck)

theorem toDo_flush (d : Decoder σ) (cap : Nat) (x : Reading σ) (hflushed : x.reader.iconvFlushed = false) :
    toDo (flush d cap x).reader ≤ toDo x.reader ∧
      ((d.flush x.reader.cd).length ≤ cap - x.output.length → toDo (flush d cap x).reader < toDo x.reader) := by
  unfold flush
  dsimp only
  by_cases hover : cap - x.output.length < (d.flush x.reader.cd).length
  · rw [if_pos hover]
    exact ⟨le_rfl, fun hle => absurd hover (Nat.not_lt_of_le hle)⟩
  · rw [if_neg hover]
    unfold toDo
    simp only [hflushed, if_true, Bool.false_eq_true, if_false]
    omega

theorem toDo_empty (h : r.input.unread = []) : toDo { r with input := .empty } = toDo r := by
  unfold toDo
  rw [h]
  rfl

variable {y : Reading σ}

theorem afterReplacement_go (hroom : x.output.length < cap) (hreplacement : x.reader.replacement = [])
    (hgo : afterReplacement d cap x = .inl y) :
    toDo y.reader ≤ toDo x.reader ∧ (¬Stuck d cap x → toDo y.reader < toDo x.reader) := by
  by_cases hempty : x.reader.input.unread = []
  · rw [afterReplacement_of_empty hempty] at hgo
    obtain ⟨hkept, ⟨heof, herr, hrefilled⟩ | ⟨hwhy, heq⟩⟩ := refillEmpty_cases hempty
    · have hlt := hrefilled.toDo_lt hkept heof herr
      have hle : toDo y.reader ≤ toDo x.reader.refillEmpty := by
        split at hgo
        · cases hgo
        · split at hgo
          · rename_i hunread
            cases hgo
            have hnone : x.reader.refillEmpty.replacement = [] := hkept.replacement.trans hreplacement
            exact convert_le (x := ⟨x.reader.refillEmpty, x.output⟩) hroom hnone hunread
          · split at hgo
            · cases hgo
              exact Nat.le_refl _
            · split at hgo
              · rename_i hflushed
                rw [Bool.not_eq_true'] at hflushed
                cases hgo
                exact (toDo_flush d cap ⟨x.reader.refillEmpty, x.output⟩ hflushed).1
              · cases hgo
      have hless := Nat.lt_of_le_of_lt hle hlt
      exact ⟨Nat.le_of_lt hless, fun _ => hless⟩
    · rw [heq] at hgo
      have hsame := toDo_empty hempty
      split at hgo
      · cases hgo
      · rename_i herr
        have heof : x.reader.sourceEof = true := hwhy.resolve_right herr
        have hno : ¬(!x.reader.sourceEof) = true := by
          rw [heof]
          decide
        rw [if_neg (fun h : Input.empty.unread ≠ [] => h rfl), if_neg hno] at hgo
        split at hgo
        · rename_i hflushed
          rw [Bool.not_eq_true'] at hflushed
          cases hgo
          obtain ⟨hle, hlt⟩ := toDo_flush d cap ⟨{ x.reader with input := .empty }, x.output⟩ hflushed
          rw [hsame] at hle hlt
          refine ⟨hle, ?_⟩
          intro hstuck
          apply hlt
          apply Nat.le_of_not_lt
          intro hover
          rw [Option.not_isSome_iff_eq_none] at herr
          exact hstuck ⟨hroom, hreplacement, .inr ⟨hempty, heof, herr, hflushed, hover⟩⟩
        · cases hgo
  · rw [afterReplacement_of_unread hempty] at hgo
    cases hgo
    exact ⟨convert_le hroom hreplacement hempty, convert_lt hroom hreplacement hempty⟩

theorem afterReplacement_stuck (h : Stuck d cap x) : ∃ y, afterReplacement d cap x = .inl y ∧ Stuck d cap y := by
  have hstuck := h
  obtain ⟨hroom, hreplacement, ⟨hunread, hstops⟩ | ⟨hempty, heof, herr, hflushed, hover⟩⟩ := h
  · refine ⟨x, ?_, hstuck⟩
    rw [afterReplacement_of_unread hunread, convert_of_stuck hunread hstops]
  · refine ⟨⟨{ x.reader with input := .empty }, x.output⟩, ?_,
      hroom, hreplacement, .inr ⟨rfl, heof, herr, hflushed, hover⟩⟩
    rw [afterReplacement_of_empty hempty]
    obtain ⟨_, ⟨hneof, _⟩ | ⟨_, heq⟩⟩ := refillEmpty_cases hempty
    · simp [heof] at hneof
    · rw [heq]
      have hnone : ¬x.reader.errnum.isSome = true := by
        rw [herr]
        decide
      have hnot : ¬(!x.reader.sourceEof) = true := by
        rw [heof]
        decide
      have hnotyet : (!x.reader.iconvFlushed) = true := by
        rw [hflushed]
        rfl
      rw [if_neg hnone, if_neg (fun h : Input.empty.unread ≠ [] => h rfl), if_neg hnot, if_pos hnotyet]
      unfold flush
      dsimp only
      rw [if_pos hover]

theorem afterReplacement_leave (hreplacement : x.reader.replacement = [])
    (hleave : afterReplacement d cap x = .inr y) : y.reader.errnum.isSome = true ∨ AtEnd y.reader := by
  by_cases hempty : x.reader.input.unread = []
  · rw [afterReplacement_of_empty hempty] at hleave
    obtain ⟨hkept, _⟩ := refillEmpty_cases hempty
    split at hleave
    · rename_i herr
      cases hleave
      exact .inl herr
    · split at hleave
      · cases hleave
      · rename_i hunread
        split at hleave
        · cases hleave
        · rename_i heof
          split at hleave
          · cases hleave
          · rename_i hflushed
            cases hleave
            rw [Bool.not_eq_true', Bool.not_eq_false] at heof hflushed
            exact .inr ⟨heof, not_not.mp hunread, hkept.replacement.trans hreplacement, hflushed⟩
  · simp [afterReplacement_of_unread hempty] at hleave

/-! ## A whole call -/

theorem copyReplacement_nil (h : x.reader.replacement = []) : copyReplacement cap x = x := by
  unfold copyReplacement
  rw [h]
  simp only [take_nil, length_nil, drop_nil, append_nil]
  rw [← h]

theorem copyReplacement_spec (hroom : x.output.length < cap) : (copyReplacement cap x).output.length ≤ cap ∧
      ((copyReplacement cap x).output.length ≠ cap → (copyReplacement cap x).reader.replacement = []) ∧
      toDo (copyReplacement cap x).reader ≤ toDo x.reader ∧
      (x.reader.replacement ≠ [] → toDo (copyReplacement cap x).reader < toDo x.reader) := by
  unfold copyReplacement toDo
  simp only [length_append, length_take, length_drop, drop_eq_nil_iff]
  refine ⟨by omega, by omega, by omega, ?_⟩
  intro hne
  have hpos := length_pos_iff.mpr hne
  omega

theorem readIconvStep_go (hstuck : ¬Stuck d cap x) (hgo : readIconvStep d cap x = .inl y) :
    toDo y.reader < toDo x.reader := by
  unfold readIconvStep at hgo
  split at hgo
  · cases hgo
  · rename_i hroom
    dsimp only at hgo
    split at hgo
    · cases hgo
    · rename_i hmore
      obtain ⟨hcap, hnil, hle, hlt⟩ := copyReplacement_spec (Nat.lt_of_not_le hroom)
      by_cases hreplacement : x.reader.replacement = []
      · rw [copyReplacement_nil hreplacement] at hgo
        exact (afterReplacement_go (Nat.lt_of_not_le hroom) hreplacement hgo).2 hstuck
      · have hgo' := (afterReplacement_go (by omega) (hnil hmore) hgo).1
        exact lt_of_le_of_lt hgo' (hlt hreplacement)

theorem readIconvStep_stuck (h : Stuck d cap x) : ∃ y, readIconvStep d cap x = .inl y ∧ Stuck d cap y := by
  obtain ⟨y, hgo, hy⟩ := afterReplacement_stuck h
  refine ⟨y, ?_, hy⟩
  unfold readIconvStep
  rw [if_neg (Nat.not_le_of_lt h.1), copyReplacement_nil h.2.1]
  dsimp only
  rw [if_neg (ne_of_lt h.1)]
  exact hgo

theorem readIconvStep_leave (hleave : readIconvStep d cap x = .inr y) :
    cap ≤ y.output.length ∨ y.reader.errnum.isSome = true ∨ AtEnd y.reader := by
  unfold readIconvStep at hleave
  split at hleave
  · rename_i hfull
    cases hleave
    exact .inl hfull
  · rename_i hroom
    dsimp only at hleave
    split at hleave
    · rename_i hfull
      cases hleave
      exact .inl (le_of_eq hfull.symm)
    · rename_i hmore
      have hnil := (copyReplacement_spec (Nat.lt_of_not_le hroom)).2.1 hmore
      exact .inr (afterReplacement_leave hnil hleave)

theorem leaves_iff (x : Reading σ) :
    Leaves (readIconvStep d cap) x ↔ ∀ y, Visits (readIconvStep d cap) x y → ¬Stuck d cap y :=
  leaves_iff_of_stuck (readIconvStep d cap) (Stuck d cap) (fun x => toDo x.reader) (fun _ => readIconvStep_stuck)
    (fun _ _ => readIconvStep_go)

end

/-- **Main result.** A call returns exactly where it never comes to a converter that is stuck; one
that returns without an error before it has filled the room has come to the end. -/
theorem readIconv_returns_iff (d : Decoder σ) (cap : Nat) (r : Reader σ) :
    ((∃ x, ReadIconv d cap r x) ↔ ∀ x, Visits (readIconvStep d cap) ⟨r, []⟩ x → ¬Stuck d cap x) ∧
      ∀ x, ReadIconv d cap r x → x.output.length < cap → x.reader.errnum = none → AtEnd x.reader := by
  refine ⟨?_, ?_⟩
  · rw [← leaves_iff]
    exact exists_comm
  · intro x hx hroom herr
    obtain ⟨fuel, hrun⟩ := hx
    have hleft : ∀ y : Reading σ, loop (readIconvStep d cap) fuel y = some x →
        cap ≤ x.output.length ∨ x.reader.errnum.isSome = true ∨ AtEnd x.reader := by
      intro y hy
      clear hrun
      induction fuel generalizing y with
      | zero => cases hy
      | succ fuel ih =>
        unfold loop at hy
        cases hstep : readIconvStep d cap y with
        | inl z =>
          rw [hstep] at hy
          exact ih z hy
        | inr z =>
          rw [hstep] at hy
          cases hy
          exact readIconvStep_leave hstep
    obtain hfull | hfailed | hend := hleft _ hrun
    · omega
    · rw [herr] at hfailed
      cases hfailed
    · exact hend

/-- A letter of two bytes never fits where one byte is asked for. -/
theorem not_readIconv_returns :
    ¬∀ (bigEndian : Bool) (r : Reader Unit) (cap : Nat), 1 ≤ cap → ∃ x, ReadIconv (utf16 bigEndian) cap r x := by
  intro h
  obtain ⟨x, fuel, hrun⟩ := h false { source := ⟨[], [], none⟩, cd := (), input := ⟨[0xE9, 0x00], 0, by decide⟩ } 1 (by decide)
  have hstuck : Stuck (utf16 false) 1
      ⟨{ source := ⟨[], [], none⟩, cd := (), input := ⟨[0xE9, 0x00], 0, by decide⟩ }, []⟩ :=
    ⟨by decide, rfl, .inl ⟨by decide, .inl ⟨2, _, (), rfl, by decide⟩⟩⟩
  exact (leaves_iff _).mp ⟨fuel, x, hrun⟩ _ (.refl _) hstuck

end Bx.RgDecodeReader
