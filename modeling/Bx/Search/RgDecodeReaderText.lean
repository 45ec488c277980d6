import Bx.Search.RgDecodeReaderSound

/-!
# What a UTF-16 reader delivers

However the source is split, calls that go on to its end deliver one text: the characters in their order, and a
replacement for every byte that no character begins with.
-/

namespace Bx.RgDecodeReader

open Kit List

/-! ## The text of some bytes -/

def replacementChar : Char := '\uFFFD'

def decodeFrom (bigEndian : Bool) : Nat → Bytes → List Char
  | 0, _ => []
  | fuel + 1, input =>
    if input = [] then []
    else
      match utf16Found bigEndian input with
      | .char size c => c :: decodeFrom bigEndian fuel (input.drop size)
      | .illegal => replacementChar :: decodeFrom bigEndian fuel input.tail
      | .incomplete => replacementChar :: decodeFrom bigEndian fuel input.tail

def decoded (bigEndian : Bool) (input : Bytes) : List Char := decodeFrom bigEndian input.length input

def encode (text : List Char) : Bytes := text.flatMap String.utf8EncodeChar

theorem encode_append (a b : List Char) : encode (a ++ b) = encode a ++ encode b := flatMap_append

theorem encode_injective {a b : List Char} (h : encode a = encode b) : a = b := by
  have hbytes : ∀ l : List Char, l.utf8Encode = (encode l).toByteArray := fun l => by
    simp only [utf8Encode, encode]
  have hdecode := congrArg (fun bytes : Bytes => bytes.toByteArray.utf8Decode?) h
  rw [← hbytes, ← hbytes, utf8Decode?_utf8Encode, utf8Decode?_utf8Encode, Option.some.injEq] at hdecode
  exact toArray_inj hdecode

theorem encode_replacementChar : encode [replacementChar] = Reader.replacementBytes := by decide

def NoChar (bigEndian : Bool) (input : Bytes) : Prop := ∀ size c, utf16Found bigEndian input ≠ .char size c

section
variable {bigEndian : Bool}

variable {input : Bytes} {size : Nat}

theorem decodeFrom_fuel {fuel fuel' : Nat} (h : input.length ≤ fuel) (h' : input.length ≤ fuel') :
    decodeFrom bigEndian fuel input = decodeFrom bigEndian fuel' input := by
  induction fuel generalizing fuel' input with
  | zero =>
    have hnil : input = [] := length_eq_zero_iff.mp (Nat.le_zero.mp h)
    subst hnil
    cases fuel' <;> rfl
  | succ fuel ih =>
    by_cases hnil : input = []
    · subst hnil
      cases fuel' <;> rfl
    · have hpos := length_pos_iff.mpr hnil
      obtain ⟨fuel', rfl⟩ : ∃ n, fuel' = n + 1 := ⟨fuel' - 1, by omega⟩
      unfold decodeFrom
      rw [if_neg hnil, if_neg hnil]
      have htail : decodeFrom bigEndian fuel input.tail = decodeFrom bigEndian fuel' input.tail := by
        apply ih
        · rw [length_tail]
          omega
        · rw [length_tail]
          omega
      cases hfound : utf16Found bigEndian input with
      | char size c =>
        have hsize := utf16Found_size bigEndian hfound
        apply congrArg (c :: ·)
        apply ih
        · rw [length_drop]
          omega
        · rw [length_drop]
          omega
      | illegal => exact congrArg (replacementChar :: ·) htail
      | incomplete => exact congrArg (replacementChar :: ·) htail

theorem decodeFrom_eq {fuel : Nat} (h : input.length ≤ fuel) :
    decodeFrom bigEndian fuel input = decoded bigEndian input :=
  decodeFrom_fuel h (le_rfl)

theorem decoded_char {c : Char} (h : utf16Found bigEndian input = .char size c) :
    decoded bigEndian input = c :: decoded bigEndian (input.drop size) := by
  have hsize := utf16Found_size bigEndian h
  obtain ⟨fuel, hfuel⟩ : ∃ n, input.length = n + 1 := ⟨input.length - 1, by omega⟩
  have hne : input ≠ [] := by
    intro hnil
    simp [hnil] at hfuel
  have hrest : decodeFrom bigEndian fuel (input.drop size) = decoded bigEndian (input.drop size) := by
    apply decodeFrom_eq
    rw [length_drop]
    omega
  rw [← hrest]
  unfold decoded
  rw [hfuel, decodeFrom, if_neg hne, h]

theorem decoded_noChar (hne : input ≠ []) (h : NoChar bigEndian input) :
    decoded bigEndian input = replacementChar :: decoded bigEndian input.tail := by
  obtain ⟨fuel, hfuel⟩ : ∃ n, input.length = n + 1 :=
    ⟨input.length - 1, by have hpos := length_pos_iff.mpr hne; omega⟩
  have htail : decodeFrom bigEndian fuel input.tail = decoded bigEndian input.tail := by
    apply decodeFrom_eq
    rw [length_tail]
    omega
  rw [← htail]
  unfold decoded
  rw [hfuel, decodeFrom, if_neg hne]
  cases hfound : utf16Found bigEndian input with
  | char size c => exact absurd hfound (h size c)
  | illegal => rfl
  | incomplete => rfl

/-! ## More input -/

theorem utf16Found_append {found : Found} (h : utf16Found bigEndian input = found)
    (hfound : found ≠ .incomplete) (more : Bytes) : utf16Found bigEndian (input ++ more) = found := by
  subst h
  unfold utf16Found at hfound ⊢
  cases input with
  | nil => exact absurd rfl hfound
  | cons a input =>
    cases input with
    | nil => exact absurd rfl hfound
    | cons b rest =>
      dsimp only [cons_append] at hfound ⊢
      split
      · rfl
      · rename_i hlow
        rw [if_neg hlow] at hfound
        split
        · rename_i hhigh
          rw [if_pos hhigh] at hfound
          cases rest with
          | nil => exact absurd rfl hfound
          | cons c rest =>
            cases rest with
            | nil => exact absurd rfl hfound
            | cons e rest => rfl
        · rfl

theorem NoChar.of_append {input more : Bytes} (h : NoChar bigEndian (input ++ more)) : NoChar bigEndian input := by
  intro size c hfound
  exact h size c (utf16Found_append hfound (fun heq => by cases heq) more)

theorem length_of_incomplete (h : utf16Found bigEndian input = .incomplete) : input.length < 4 := by
  unfold utf16Found at h
  cases input with
  | nil => exact Nat.zero_lt_succ _
  | cons a input =>
    cases input with
    | nil => exact Nat.succ_lt_succ (Nat.zero_lt_succ _)
    | cons b rest =>
      dsimp only at h
      split at h
      · cases h
      · split at h
        · cases rest with
          | nil => exact Nat.succ_lt_succ (Nat.succ_lt_succ (Nat.zero_lt_succ _))
          | cons c rest =>
            cases rest with
            | nil => exact Nat.lt_succ_self _
            | cons e rest =>
              dsimp only at h
              split at h
              · cases h
              · cases h
        · cases h

theorem utf16_next_char {out : Bytes} {t : Unit} (h : (utf16 bigEndian).next () input = .char size out t) :
    ∃ c, utf16Found bigEndian input = .char size c ∧ out = encode [c] := by
  dsimp only [utf16] at h
  cases hfound : utf16Found bigEndian input with
  | char size' c =>
    rw [hfound] at h
    cases h
    exact ⟨c, rfl, (append_nil _).symm⟩
  | illegal => simp [hfound] at h
  | incomplete => simp [hfound] at h

theorem utf16_next_illegal (h : (utf16 bigEndian).next () input = .illegal) :
    utf16Found bigEndian input = .illegal := by
  dsimp only [utf16] at h
  split at h
  · cases h
  · assumption
  · cases h

theorem utf16_next_incomplete (h : (utf16 bigEndian).next () input = .incomplete) :
    utf16Found bigEndian input = .incomplete := by
  dsimp only [utf16] at h
  split at h
  · cases h
  · cases h
  · assumption

theorem iconv_text (bigEndian : Bool) (fuel : Nat) (input : Bytes) (room : Nat) (more : Bytes) :
    encode (decoded bigEndian (input ++ more)) =
      (iconv (utf16 bigEndian) fuel () input room).out ++
        encode (decoded bigEndian ((iconv (utf16 bigEndian) fuel () input room).rest ++ more)) := by
  induction fuel generalizing input room with
  | zero => rfl
  | succ fuel ih =>
    by_cases hnil : input = []
    · rw [hnil]
      rfl
    · obtain ⟨size, out, t, hnext, _, heq⟩ | ⟨stop, _, heq⟩ := iconv_cases (utf16 bigEndian) (s := ()) fuel room hnil
      · obtain ⟨c, hfound, hout⟩ := utf16_next_char hnext
        have hsize := utf16Found_size bigEndian hfound
        rw [heq, decoded_char (utf16Found_append hfound (fun h => by cases h) more), drop_append_of_le_length hsize.2,
          ← singleton_append, encode_append, ih (input.drop size) (room - out.length), ← hout]
        exact (append_assoc _ _ _).symm
      · rw [heq]
        rfl

theorem iconv_out (bigEndian : Bool) (fuel : Nat) (input : Bytes) (room : Nat) :
    (iconv (utf16 bigEndian) fuel () input room).out.length +
      4 * (iconv (utf16 bigEndian) fuel () input room).rest.length ≤ 4 * input.length := by
  induction fuel generalizing input room with
  | zero => exact le_of_eq (zero_add _)
  | succ fuel ih =>
    by_cases hnil : input = []
    · rw [hnil]
      exact le_rfl
    · obtain ⟨size, out, t, hnext, _, heq⟩ | ⟨stop, _, heq⟩ := iconv_cases (utf16 bigEndian) (s := ()) fuel room hnil
      · obtain ⟨c, hfound, hout⟩ := utf16_next_char hnext
        have hsize := utf16Found_size bigEndian hfound
        have hmore : (iconv (utf16 bigEndian) fuel t (input.drop size) (room - out.length)).out.length +
            4 * (iconv (utf16 bigEndian) fuel t (input.drop size) (room - out.length)).rest.length ≤
              4 * (input.drop size).length := ih (input.drop size) (room - out.length)
        have hlength : out.length ≤ 4 := by
          rw [hout]
          unfold encode
          rw [flatMap_singleton, String.length_utf8EncodeChar]
          exact Char.utf8Size_le_four c
        rw [length_drop] at hmore
        rw [heq]
        unfold Converted.prepend
        dsimp only
        rw [length_append]
        omega
      · rw [heq]
        exact le_of_eq (zero_add _)

end

/-! ## What a reader still has to deliver -/

section
variable (bigEndian : Bool)

/-- What is left of a replacement, and the text of the bytes that have not been converted -/
def left (r : Reader Unit) : Bytes := r.replacement ++ encode (decoded bigEndian (r.input.unread ++ r.source.rest))

def text (x : Reading Unit) : Bytes := x.output ++ left bigEndian x.reader

end

def Steady (r : Reader Unit) : Prop := r.sourceEof = true → r.source.rest = []

structure Unfailing (r : Reader Unit) : Prop where
  errnum : r.errnum = none
  inputLimit : r.inputLimit = 0
  failure : r.source.failure = none

def weight (x : Reading Unit) : Nat :=
  x.output.length + x.reader.replacement.length + 4 * (x.reader.input.unread.length + x.reader.source.rest.length)

/-- What a part of the loop keeps: the text, if there has been no error after it, and a source
that nothing is wrong with. -/
structure Keeps (bigEndian : Bool) (x y : Reading Unit) : Prop where
  text_eq : y.reader.errnum = none → x.reader.errnum = none ∧
    (Steady x.reader → text bigEndian y = text bigEndian x ∧ Steady y.reader)
  unfailing : Unfailing x.reader → Unfailing y.reader ∧ weight y ≤ weight x

variable {bigEndian : Bool} {cap : Nat}

theorem Keeps.refl (x : Reading Unit) : Keeps bigEndian x x :=
  ⟨fun herr => ⟨herr, fun hsteady => ⟨rfl, hsteady⟩⟩, fun h => ⟨h, le_rfl⟩⟩

theorem Keeps.trans {x y z : Reading Unit} (hxy : Keeps bigEndian x y) (hyz : Keeps bigEndian y z) : Keeps bigEndian x z := by
  refine ⟨?_, ?_⟩
  · intro herr
    obtain ⟨herr', htext⟩ := hyz.text_eq herr
    obtain ⟨herr'', htext'⟩ := hxy.text_eq herr'
    refine ⟨herr'', ?_⟩
    intro hsteady
    obtain ⟨heq, hsteady'⟩ := htext' hsteady
    obtain ⟨heq', hsteady''⟩ := htext hsteady'
    exact ⟨heq'.trans heq, hsteady''⟩
  · intro h
    obtain ⟨h', hle⟩ := hxy.unfailing h
    obtain ⟨h'', hle'⟩ := hyz.unfailing h'
    exact ⟨h'', Nat.le_trans hle' hle⟩

theorem copyReplacement_keeps (bigEndian : Bool) (cap : Nat) (x : Reading Unit) : Keeps bigEndian x (copyReplacement cap x) := by
  have hdrop : x.reader.replacement.drop (x.reader.replacement.take (cap - x.output.length)).length =
      x.reader.replacement.drop (cap - x.output.length) := by
    rw [length_take]
    cases le_total (cap - x.output.length) x.reader.replacement.length with
    | inl hle => rw [min_eq_left hle]
    | inr hle => rw [min_eq_right hle, drop_length, drop_eq_nil_of_le hle]
  have hsplit := take_append_drop (cap - x.output.length) x.reader.replacement
  refine ⟨?_, ?_⟩
  · intro herr
    refine ⟨herr, fun hsteady => ⟨?_, hsteady⟩⟩
    unfold text left copyReplacement
    dsimp only
    rw [hdrop, append_assoc, ← append_assoc (x.reader.replacement.take _), hsplit]
  · intro h
    refine ⟨⟨h.errnum, h.inputLimit, h.failure⟩, ?_⟩
    have hlength := congrArg List.length hsplit
    rw [length_append] at hlength
    unfold weight copyReplacement
    dsimp only
    rw [hdrop, length_append]
    omega

theorem Refilled.keeps {r r' : Reader Unit} (hkept : Kept r r') (h : Refilled r r') (herr : r.errnum = none)
    (hshort : r.input.unread.length < inputCap) (output : Bytes) :
    Keeps bigEndian ⟨r, output⟩ ⟨r', output⟩ := by
  have hweight : r'.input.unread.length + r'.source.rest.length ≤ r.input.unread.length + r.source.rest.length →
      weight ⟨r', output⟩ ≤ weight ⟨r, output⟩ := by
    intro hle
    unfold weight
    dsimp only
    rw [hkept.replacement]
    omega
  have hunfailing : r'.errnum = none → Unfailing r → Unfailing r' := by
    intro hnone h
    exact ⟨hnone, hkept.inputLimit.trans h.inputLimit, hkept.failure.trans h.failure⟩
  cases h with
  | data data hne hrest hread hneof hnerr =>
    refine ⟨fun _ => ⟨herr, fun _ => ⟨?_, ?_⟩⟩, fun h => ⟨hunfailing hnerr h, hweight ?_⟩⟩
    · unfold text left
      dsimp only
      rw [hkept.replacement, hread, hrest, append_assoc]
    · intro heof'
      simp [show r'.sourceEof = true from heof'] at hneof
    · rw [hread, hrest, length_append, length_append]
      omega
  | eof hrest hrest' hread heof' hnerr =>
    refine ⟨fun _ => ⟨herr, fun _ => ⟨?_, fun _ => hrest'⟩⟩, fun h => ⟨hunfailing hnerr h, hweight ?_⟩⟩
    · unfold text left
      dsimp only
      rw [hkept.replacement, hread, hrest, hrest']
    · rw [hread, hrest, hrest']
  | failed hle hread hneof herr' hwhy =>
    refine ⟨?_, ?_⟩
    · intro hnone
      simp [show r'.errnum = none from hnone] at herr'
    · intro h
      exfalso
      have hlimit := h.inputLimit
      have hfailure := h.failure
      dsimp only at hlimit hfailure
      obtain hpos | hfails | hfull := hwhy
      · omega
      · simp [hfailure] at hfails
      · omega

variable {x : Reading Unit} {r : Reader Unit}

theorem refillEmpty_keeps (bigEndian : Bool) (hempty : x.reader.input.unread = []) :
    Keeps bigEndian x ⟨x.reader.refillEmpty, x.output⟩ := by
  obtain ⟨hkept, ⟨_, herr, hrefilled⟩ | ⟨_, heq⟩⟩ := refillEmpty_cases hempty
  · apply hrefilled.keeps hkept herr
    rw [hempty]
    decide
  · rw [heq]
    have hunread : Input.empty.unread = x.reader.input.unread := hempty.symm
    refine ⟨fun herr => ⟨herr, fun hsteady => ⟨?_, hsteady⟩⟩, fun h => ⟨⟨h.errnum, h.inputLimit, h.failure⟩, ?_⟩⟩
    · unfold text left
      dsimp only
      rw [hunread]
    · unfold weight
      dsimp only
      rw [hunread]

theorem refillMore_keeps (heof : x.reader.sourceEof = false)
    (hshort : x.reader.input.unread.length < inputCap) : Keeps bigEndian x ⟨x.reader.refillMore, x.output⟩ := by
  obtain ⟨hkept, ⟨herr, hrefilled⟩ | ⟨_, heq⟩⟩ := refillMore_cases heof
  · exact hrefilled.keeps hkept herr hshort _
  · rw [heq]
    exact .refl x

theorem skipByte_keeps (hreplacement : x.reader.replacement = []) (hunread : x.reader.input.unread ≠ [])
    (hbad : Steady x.reader → NoChar bigEndian (x.reader.input.unread ++ x.reader.source.rest)) :
    Keeps bigEndian x ⟨x.reader.skipByte, x.output⟩ := by
  have hskip : x.reader.skipByte.input.unread = x.reader.input.unread.tail := Input.unread_skip hunread
  refine ⟨fun herr => ⟨herr, fun hsteady => ⟨?_, hsteady⟩⟩, fun h => ⟨⟨h.errnum, h.inputLimit, h.failure⟩, ?_⟩⟩
  · have hne : x.reader.input.unread ++ x.reader.source.rest ≠ [] := append_ne_nil_of_left_ne_nil hunread _
    unfold text left
    dsimp only
    rw [hskip, hreplacement, decoded_noChar hne (hbad hsteady), ← singleton_append, encode_append,
      encode_replacementChar, tail_append_of_ne_nil hunread]
    rfl
  · have hpos := length_pos_iff.mpr hunread
    unfold weight
    dsimp only
    rw [hskip, hreplacement, length_tail]
    show x.output.length + Reader.replacementBytes.length + 4 * (_ + x.reader.source.rest.length) ≤ _
    unfold Reader.replacementBytes
    simp only [length_cons, length_nil]
    omega

theorem converted_keeps {c : Converted Unit} (hreplacement : x.reader.replacement = [])
    (hsuffix : c.rest <:+ x.reader.input.unread)
    (htext : encode (decoded bigEndian (x.reader.input.unread ++ x.reader.source.rest)) =
      c.out ++ encode (decoded bigEndian (c.rest ++ x.reader.source.rest)))
    (hout : c.out.length + 4 * c.rest.length ≤ 4 * x.reader.input.unread.length) :
    Keeps bigEndian x ⟨x.reader.converted c, x.output ++ c.out⟩ := by
  have hunread : (x.reader.converted c).input.unread = c.rest := Input.unread_leave _ hsuffix
  refine ⟨fun herr => ⟨herr, fun hsteady => ⟨?_, hsteady⟩⟩, fun h => ⟨⟨h.errnum, h.inputLimit, h.failure⟩, ?_⟩⟩
  · unfold text left
    dsimp only
    rw [hunread, hreplacement, nil_append, htext, append_assoc]
    show x.output ++ (c.out ++ (x.reader.replacement ++ _)) = _
    rw [hreplacement]
    rfl
  · unfold weight
    dsimp only
    rw [hunread, length_append]
    show x.output.length + c.out.length + x.reader.replacement.length + 4 * (c.rest.length + x.reader.source.rest.length) ≤ _
    omega

theorem convert_keeps (hreplacement : x.reader.replacement = []) :
    Keeps bigEndian x (convert (utf16 bigEndian) cap x) := by
  obtain ⟨hsuffix, hend⟩ := iconv_rest (utf16 bigEndian) () (cap - x.output.length)
    (Nat.le_refl x.reader.input.unread.length)
  have htext := iconv_text bigEndian x.reader.input.unread.length x.reader.input.unread
    (cap - x.output.length) x.reader.source.rest
  have hout := iconv_out bigEndian x.reader.input.unread.length x.reader.input.unread (cap - x.output.length)
  have hstops := iconv_stop (utf16 bigEndian) x.reader.input.unread.length () x.reader.input.unread
    (cap - x.output.length)
  unfold convert
  dsimp only
  generalize iconv (utf16 bigEndian) x.reader.input.unread.length () x.reader.input.unread (cap - x.output.length) = c
    at hsuffix hend htext hout hstops ⊢
  have hconverted := converted_keeps hreplacement hsuffix htext hout
  have hunread : (x.reader.converted c).input.unread = c.rest := Input.unread_leave _ hsuffix
  cases hstop : c.stop with
  | none => exact hconverted
  | some stop =>
    have hrest : c.rest ≠ [] := by
      intro hnil
      simp [hend.mp hnil] at hstop
    have hskip : (Steady x.reader → NoChar bigEndian (c.rest ++ x.reader.source.rest)) →
        Keeps bigEndian x ⟨(x.reader.converted c).skipByte, x.output ++ c.out⟩ := by
      intro hbad
      refine hconverted.trans (skipByte_keeps (x := ⟨x.reader.converted c, x.output ++ c.out⟩) hreplacement ?_ ?_)
      · rw [hunread]
        exact hrest
      · rw [hunread]
        exact hbad
    obtain ⟨room, hstopsAt⟩ := hstops stop hstop
    cases stop with
    | tooBig => exact hconverted
    | illegal =>
      apply hskip
      intro _ size ch hfound
      simp [utf16Found_append (utf16_next_illegal hstopsAt) (fun h => by cases h)] at hfound
    | incomplete =>
      have hincomplete := utf16_next_incomplete hstopsAt
      by_cases heof : x.reader.sourceEof = true
      · have hsame : (x.reader.converted c).sourceEof = true := heof
        simp only [hsame, if_true]
        apply hskip
        intro hsteady size ch hfound
        simp [hsteady heof, append_nil, hincomplete] at hfound
      · rw [Bool.not_eq_true] at heof
        have hsame : (x.reader.converted c).sourceEof = false := heof
        simp only [hsame, Bool.false_eq_true, if_false]
        refine hconverted.trans (refillMore_keeps (x := ⟨x.reader.converted c, x.output ++ c.out⟩) hsame ?_)
        rw [hunread]
        exact lt_of_lt_of_le (length_of_incomplete hincomplete) (by decide)

theorem flush_keeps (x : Reading Unit) : Keeps bigEndian x (flush (utf16 bigEndian) cap x) := by
  unfold flush
  dsimp only
  split
  · exact .refl x
  · have hnone : x.output ++ (utf16 bigEndian).flush x.reader.cd = x.output := append_nil _
    rw [hnone]
    exact ⟨fun herr => ⟨herr, fun hsteady => ⟨rfl, hsteady⟩⟩, fun h => ⟨⟨h.errnum, h.inputLimit, h.failure⟩, le_rfl⟩⟩

theorem step_keeps {x y : Reading Unit}
    (h : readIconvStep (utf16 bigEndian) cap x = .inl y ∨ readIconvStep (utf16 bigEndian) cap x = .inr y) :
    Keeps bigEndian x y := by
  unfold readIconvStep at h
  by_cases hfull : cap ≤ x.output.length
  · rw [if_pos hfull] at h
    cases h with
    | inl h => cases h
    | inr h =>
      cases h
      exact .refl x
  · rw [if_neg hfull] at h
    dsimp only at h
    have hcopied := copyReplacement_keeps bigEndian cap x
    by_cases hall : (copyReplacement cap x).output.length = cap
    · rw [if_pos hall] at h
      cases h with
      | inl h => cases h
      | inr h =>
        cases h
        exact hcopied
    · rw [if_neg hall] at h
      have hreplacement := (copyReplacement_spec (Nat.lt_of_not_le hfull)).2.1 hall
      refine hcopied.trans ?_
      generalize copyReplacement cap x = x at hreplacement h
      by_cases hempty : x.reader.input.unread = []
      · rw [afterReplacement_of_empty hempty] at h
        have hrefilled := refillEmpty_keeps bigEndian hempty
        have hkept := (refillEmpty_cases hempty).1
        have hnone : x.reader.refillEmpty.replacement = [] := hkept.replacement.trans hreplacement
        refine hrefilled.trans ?_
        generalize x.reader.refillEmpty = r at hnone h
        split at h
        · cases h with
          | inl h => cases h
          | inr h =>
            cases h
            exact .refl _
        · split at h
          · cases h with
            | inl h =>
              cases h
              exact convert_keeps hnone
            | inr h => cases h
          · split at h
            · cases h with
              | inl h =>
                cases h
                exact .refl _
              | inr h => cases h
            · split at h
              · cases h with
                | inl h =>
                  cases h
                  exact flush_keeps _
                | inr h => cases h
              · cases h with
                | inl h => cases h
                | inr h =>
                  cases h
                  exact .refl _
      · rw [afterReplacement_of_unread hempty] at h
        cases h with
        | inl h =>
          cases h
          exact convert_keeps hreplacement
        | inr h => cases h

theorem readIconv_keeps (h : ReadIconv (utf16 bigEndian) cap r x) : Keeps bigEndian ⟨r, []⟩ x := by
  obtain ⟨fuel, hrun⟩ := h
  generalize (⟨r, []⟩ : Reading Unit) = y at hrun ⊢
  induction fuel generalizing y with
  | zero => cases hrun
  | succ fuel ih =>
    unfold loop at hrun
    cases hstep : readIconvStep (utf16 bigEndian) cap y with
    | inl z =>
      rw [hstep] at hrun
      exact (step_keeps (.inl hstep)).trans (ih z hrun)
    | inr z =>
      rw [hstep] at hrun
      cases hrun
      exact step_keeps (.inr hstep)

/-! ## Calls to the end -/

/-- What calls for some room each deliver, the last of them nothing; after an error there is no call. -/
inductive Delivers (bigEndian : Bool) : Reader Unit → Bytes → Prop
  | done {r : Reader Unit} {cap : Nat} {x : Reading Unit} : r.errnum = none → 0 < cap →
      ReadIconv (utf16 bigEndian) cap r x → x.output = [] → x.reader.errnum = none → Delivers bigEndian r []
  | more {r : Reader Unit} {cap : Nat} {x : Reading Unit} {rest : Bytes} : r.errnum = none → 0 < cap →
      ReadIconv (utf16 bigEndian) cap r x → x.output ≠ [] → Delivers bigEndian x.reader rest →
        Delivers bigEndian r (x.output ++ rest)

theorem AtEnd.left_eq (h : AtEnd r) (hsteady : Steady r) : left bigEndian r = [] := by
  unfold left
  rw [h.replacement, h.input, hsteady h.sourceEof]
  rfl

theorem Delivers.left_eq {out : Bytes} (h : Delivers bigEndian r out) (hsteady : Steady r) :
    out = left bigEndian r := by
  induction h with
  | done herr hcap hread hnil herr' =>
    obtain ⟨htext, hsteady'⟩ := ((readIconv_keeps hread).text_eq herr').2 hsteady
    have hend := (readIconv_returns_iff _ _ _).2 _ hread (by rw [hnil]; exact hcap) herr'
    unfold text at htext
    rw [hnil, hend.left_eq hsteady'] at htext
    exact htext
  | more herr hcap hread hne hmore ih =>
    have herr' : ∀ {r : Reader Unit} {out : Bytes}, Delivers bigEndian r out → r.errnum = none := by
      intro r out h
      cases h with
      | done herr => exact herr
      | more herr => exact herr
    obtain ⟨htext, hsteady'⟩ := ((readIconv_keeps hread).text_eq (herr' hmore)).2 hsteady
    rw [ih hsteady']
    exact htext

theorem not_stuck_of_weight (h : Unfailing x.reader) (hweight : weight x < cap) : ¬Stuck (utf16 bigEndian) cap x := by
  intro hstuck
  obtain ⟨_, _, ⟨hunread, ⟨size, out, t, hnext, hover⟩ | ⟨_, _, herr⟩⟩ | ⟨_, _, _, _, hover⟩⟩ := hstuck
  · obtain ⟨c, _, hout⟩ := utf16_next_char hnext
    have hlength : out.length ≤ 4 := by
      rw [hout]
      unfold encode
      rw [flatMap_singleton, String.length_utf8EncodeChar]
      exact Char.utf8Size_le_four c
    have hpos := length_pos_iff.mpr hunread
    unfold weight at hweight
    omega
  · simp [h.errnum] at herr
  · exact absurd hover (Nat.not_lt_zero _)

theorem exists_readIconv (bigEndian : Bool) (h : Unfailing r) (hweight : weight ⟨r, []⟩ < cap) :
    ∃ x, ReadIconv (utf16 bigEndian) cap r x ∧ AtEnd x.reader ∧ Unfailing x.reader := by
  have hfree : ∀ x, Visits (readIconvStep (utf16 bigEndian) cap) ⟨r, []⟩ x → ¬Stuck (utf16 bigEndian) cap x := by
    intro x hvisits
    have hx : Unfailing x.reader ∧ weight x < cap := by
      apply hvisits.invariant (I := fun x => Unfailing x.reader ∧ weight x < cap) _ ⟨h, hweight⟩
      intro x y hx hstep
      obtain ⟨hy, hle⟩ := (step_keeps (.inl hstep)).unfailing hx.1
      exact ⟨hy, lt_of_le_of_lt hle hx.2⟩
    exact not_stuck_of_weight hx.1 hx.2
  obtain ⟨x, hread⟩ := (readIconv_returns_iff (utf16 bigEndian) cap r).1.mpr hfree
  obtain ⟨hx, hle⟩ := (readIconv_keeps hread).unfailing h
  refine ⟨x, hread, ?_, hx⟩
  apply (readIconv_returns_iff _ _ _).2 _ hread _ hx.errnum
  unfold weight at hle hweight
  omega

theorem readIconv_atEnd (h : AtEnd r) (herr : r.errnum = none) : Delivers bigEndian r [] := by
  have hstep : readIconvStep (utf16 bigEndian) 1 ⟨r, []⟩ = .inr ⟨r.refillEmpty, []⟩ := by
    unfold readIconvStep
    have hroom : ¬1 ≤ (⟨r, []⟩ : Reading Unit).output.length := Nat.not_succ_le_zero 0
    have hmore : ¬(⟨r, []⟩ : Reading Unit).output.length = 1 := Nat.zero_ne_one
    rw [if_neg hroom, copyReplacement_nil h.replacement]
    dsimp only
    rw [if_neg hmore, afterReplacement_of_empty h.input]
    obtain ⟨hkept, ⟨heof, _⟩ | ⟨_, heq⟩⟩ := refillEmpty_cases h.input
    · simp [h.sourceEof] at heof
    · have hnone : ¬r.errnum.isSome = true := by
        rw [herr]
        decide
      have heof : ¬(!r.sourceEof) = true := by
        rw [h.sourceEof]
        decide
      have hflushed : ¬(!r.iconvFlushed) = true := by
        rw [h.iconvFlushed]
        decide
      rw [heq, if_neg hnone, if_neg (fun h : Input.empty.unread ≠ [] => h rfl), if_neg heof, if_neg hflushed]
  have hkept : r.refillEmpty.errnum = none := by
    obtain ⟨_, ⟨heof, _⟩ | ⟨_, heq⟩⟩ := refillEmpty_cases h.input
    · simp [h.sourceEof] at heof
    · rw [heq]
      exact herr
  exact .done herr Nat.zero_lt_one ⟨1, loop_leave hstep 0⟩ rfl hkept

theorem exists_delivers (bigEndian : Bool) (h : Unfailing r) : ∃ out, Delivers bigEndian r out := by
  obtain ⟨x, hread, hend, hx⟩ := exists_readIconv bigEndian h (Nat.lt_succ_self (weight ⟨r, []⟩))
  by_cases hnil : x.output = []
  · exact ⟨[], .done h.errnum (Nat.succ_pos _) hread hnil hx.errnum⟩
  · exact ⟨_, .more h.errnum (Nat.succ_pos _) hread hnil (readIconv_atEnd hend hx.errnum)⟩

/-! ## A stream with a byte order mark -/

def byteOrderMark (bigEndian : Bool) : Bytes := if bigEndian then [0xFE, 0xFF] else [0xFF, 0xFE]

theorem readStart_eof (fuel : Nat) (start : Bytes) (heof : r.sourceEof = true) :
    readStart fuel r start = (start, r) := by
  cases fuel with
  | zero => rfl
  | succ fuel =>
    unfold readStart
    rw [if_neg]
    intro hgo
    rw [heof] at hgo
    cases hgo.2.1

theorem readStart_spec (fuel : Nat) (r : Reader Unit) (start : Bytes) (h : Unfailing r) (hsteady : Steady r)
    (hfuel : 3 ≤ fuel + start.length) :
    Unfailing (readStart fuel r start).2 ∧ Steady (readStart fuel r start).2 ∧
      (readStart fuel r start).2.replacement = r.replacement ∧
      (readStart fuel r start).1 ++ (readStart fuel r start).2.source.rest = start ++ r.source.rest ∧
      (3 ≤ (readStart fuel r start).1.length ∨ (readStart fuel r start).2.source.rest = []) := by
  induction fuel generalizing r start with
  | zero =>
    rw [zero_add] at hfuel
    exact ⟨h, hsteady, rfl, rfl, .inl hfuel⟩
  | succ fuel ih =>
    unfold readStart
    by_cases hgo : start.length < 3 ∧ r.sourceEof = false ∧ r.errnum = none
    · rw [if_pos hgo]
      obtain ⟨hlt, heof, herr⟩ := hgo
      obtain ⟨hkept, _, hcases⟩ := sourceRead_cases (Nat.sub_pos_of_lt hlt) heof herr
      dsimp only
      generalize r.sourceRead (3 - start.length) = nread at hkept hcases ⊢
      have hunfailing : nread.2.errnum = none → Unfailing nread.2 := by
        intro hnerr
        exact ⟨hnerr, hkept.inputLimit.trans h.inputLimit, hkept.failure.trans h.failure⟩
      obtain ⟨hne, hrest, hneof, hnerr⟩ | ⟨hnil, hrest, hrest', heof', hnerr⟩ | ⟨_, _, _, _, hwhy⟩ := hcases
      · have hpos := length_pos_iff.mpr hne
        have hsteady' : Steady nread.2 := by
          intro heof'
          simp [hneof] at heof'
        obtain ⟨h1, h2, h3, h4, h5⟩ := ih nread.2 (start ++ nread.1) (hunfailing hnerr) hsteady'
          (by rw [length_append]; omega)
        refine ⟨h1, h2, h3.trans hkept.replacement, ?_, h5⟩
        rw [h4, hrest, append_assoc]
      · rw [readStart_eof fuel _ heof']
        refine ⟨hunfailing hnerr, fun _ => hrest', hkept.replacement, ?_, .inr hrest'⟩
        dsimp only
        rw [hrest', hnil, hrest, append_nil]
      · exfalso
        cases hwhy with
        | inl hlimit => simp [h.inputLimit] at hlimit
        | inr hfails => simp [h.failure] at hfails
    · rw [if_neg hgo]
      refine ⟨h, hsteady, rfl, rfl, ?_⟩
      by_cases hlt : start.length < 3
      · refine .inr (hsteady ?_)
        by_contra hneof
        rw [Bool.not_eq_true] at hneof
        exact hgo ⟨hlt, hneof, h.errnum⟩
      · exact .inl (Nat.le_of_not_lt hlt)

theorem sniff_byteOrderMark {start : Bytes} (h : byteOrderMark bigEndian <+: start) :
    sniff start = (2, some bigEndian) := by
  obtain ⟨rest, hrest⟩ := h
  rw [← hrest]
  unfold sniff byteOrderMark
  cases bigEndian with
  | false =>
    have hno : ¬([0xFF, 0xFE] ++ rest : Bytes).take 3 = [0xEF, 0xBB, 0xBF] := by simp
    rw [if_neg Bool.false_ne_true, if_neg hno]
    simp
  | true =>
    have hno : ¬([0xFE, 0xFF] ++ rest : Bytes).take 3 = [0xEF, 0xBB, 0xBF] := by simp
    have hno' : ¬([0xFE, 0xFF] ++ rest : Bytes).take 2 = [0xFF, 0xFE] := by simp
    rw [if_pos rfl, if_neg hno, if_neg hno']
    simp

/-- The output of a stream of UTF-16: opened, with whatever splits, and read to its end -/
def Outputs (bigEndian : Bool) (input out : Bytes) : Prop :=
  ∃ splits r, openAuto ⟨byteOrderMark bigEndian ++ input, splits, none⟩ 0 = some (r, some bigEndian) ∧
    Delivers bigEndian r out

theorem openAuto_byteOrderMark (bigEndian : Bool) (input : Bytes) (splits : List Nat) :
    ∃ r, openAuto ⟨byteOrderMark bigEndian ++ input, splits, none⟩ 0 = some (r, some bigEndian) ∧ Unfailing r ∧
      Steady r ∧ left bigEndian r = encode (decoded bigEndian input) := by
  have hfuel : 3 ≤ 3 + ([] : Bytes).length := Nat.le_refl 3
  obtain ⟨h1, h2, h3, h4, h5⟩ := readStart_spec 3
    { source := ⟨byteOrderMark bigEndian ++ input, splits, none⟩, cd := (), inputLimit := 0 } []
    ⟨rfl, rfl, rfl⟩ (fun heof => by cases heof) hfuel
  unfold openAuto
  dsimp only
  generalize readStart 3 { source := ⟨byteOrderMark bigEndian ++ input, splits, none⟩, cd := (), inputLimit := 0 } [] =
    opened at h1 h2 h3 h4 h5 ⊢
  rw [nil_append] at h4
  dsimp only at h3 h4
  have hlength : (byteOrderMark bigEndian).length = 2 := by cases bigEndian <;> rfl
  have hstart : byteOrderMark bigEndian <+: opened.1 := by
    have hmark : byteOrderMark bigEndian <+: byteOrderMark bigEndian ++ input := prefix_append _ _
    have hread : opened.1 <+: byteOrderMark bigEndian ++ input := by
      rw [← h4]
      exact prefix_append _ _
    apply prefix_of_prefix_length_le hmark hread
    · rw [hlength]
      cases h5 with
      | inl hlong => omega
      | inr hall =>
        rw [hall, append_nil] at h4
        rw [h4, length_append, hlength]
        omega
  have hnone : ¬opened.2.errnum.isSome = true := by
    rw [h1.errnum]
    decide
  have hsniff := sniff_byteOrderMark hstart
  have hskip : (skipMark opened.1 opened.2).input.unread = opened.1.drop 2 := by
    show (opened.1.drop (sniff opened.1).1).drop 0 = _
    rw [hsniff, drop_zero]
  rw [if_neg hnone, hsniff]
  refine ⟨_, rfl, ⟨h1.errnum, h1.inputLimit, h1.failure⟩, h2, ?_⟩
  unfold left
  rw [hskip]
  show opened.2.replacement ++ encode (decoded bigEndian (opened.1.drop 2 ++ opened.2.source.rest)) = _
  rw [h3, nil_append]
  obtain ⟨rest, hrest⟩ := hstart
  rw [← hrest, append_assoc] at h4
  have hinput := append_cancel_left h4
  rw [← hrest, ← hlength, drop_left, hinput]

theorem outputs_iff {input out : Bytes} : Outputs bigEndian input out ↔ out = encode (decoded bigEndian input) := by
  refine ⟨?_, ?_⟩
  · intro h
    obtain ⟨splits, r, hopen, hdelivers⟩ := h
    obtain ⟨r', hopen', _, hsteady, hleft⟩ := openAuto_byteOrderMark bigEndian input splits
    rw [hopen, Option.some.injEq, Prod.mk.injEq] at hopen'
    rw [← hopen'.1] at hsteady hleft
    rw [hdelivers.left_eq hsteady, hleft]
  · intro h
    obtain ⟨r, hopen, hunfailing, hsteady, hleft⟩ := openAuto_byteOrderMark bigEndian input []
    obtain ⟨out', hdelivers⟩ := exists_delivers bigEndian hunfailing
    have hout := hdelivers.left_eq hsteady
    rw [hleft, ← h] at hout
    rw [← hout]
    exact ⟨[], r, hopen, hdelivers⟩

end Bx.RgDecodeReader
