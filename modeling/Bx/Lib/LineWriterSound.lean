import Bx.Lib.LineWriter

/-!
# What a line writer delivers

As long as no write was given up, what is delivered and what is in the buffer are together what was written.
-/

namespace Bx.Lib

open Kit List

/-! ## The descriptor -/

variable (answers : List Answer)

theorem xwriteAll_spec (delivered data : Bytes) :
    ∃ taken, taken <+: data ∧ (xwriteAll answers delivered data).2.1 = delivered ++ taken ∧
      ((xwriteAll answers delivered data).2.2 = none → taken = data) := by
  induction answers generalizing delivered data with
  | nil => exact ⟨data, prefix_refl data, rfl, fun _ => rfl⟩
  | cons answer answers ih =>
    unfold xwriteAll
    by_cases hdata : data = []
    · rw [if_pos hdata]
      exact ⟨[], nil_prefix, (append_nil delivered).symm, fun _ => hdata.symm⟩
    · rw [if_neg hdata]
      cases answer with
      | fails errno =>
        dsimp only
        by_cases hretry : errno = eintr
        · rw [if_pos hretry]
          exact ih delivered data
        · rw [if_neg hretry]
          exact ⟨[], nil_prefix, (append_nil delivered).symm, fun h => by cases h⟩
      | takes count =>
        dsimp only
        by_cases hzero : count = 0
        · rw [if_pos hzero]
          exact ⟨[], nil_prefix, (append_nil delivered).symm, fun h => by cases h⟩
        · rw [if_neg hzero]
          obtain ⟨taken, hprefix, hdelivered, hall⟩ := ih (delivered ++ data.take count) (data.drop count)
          refine ⟨data.take count ++ taken, ?_, ?_, ?_⟩
          · obtain ⟨rest, hrest⟩ := hprefix
            refine ⟨rest, ?_⟩
            rw [append_assoc, hrest, take_append_drop]
          · rw [hdelivered, append_assoc]
          · intro h
            rw [hall h, take_append_drop]

theorem xwriteAll_accepts {answers : List Answer} (h : ∀ answer ∈ answers, answer.Accepts) (delivered data : Bytes) :
    (xwriteAll answers delivered data).2.2 = none ∧
      ∀ answer ∈ (xwriteAll answers delivered data).1, answer.Accepts := by
  induction answers generalizing delivered data with
  | nil => exact ⟨rfl, h⟩
  | cons answer answers ih =>
    have hrest : ∀ answer ∈ answers, answer.Accepts := fun a ha => h a (mem_cons_of_mem _ ha)
    have hfirst := h answer mem_cons_self
    unfold xwriteAll
    by_cases hdata : data = []
    · rw [if_pos hdata]
      exact ⟨rfl, h⟩
    · rw [if_neg hdata]
      cases answer with
      | fails errno =>
        have hretry : errno = eintr := hfirst
        dsimp only
        rw [if_pos hretry]
        exact ih hrest delivered data
      | takes count =>
        have htakes : count ≠ 0 := hfirst
        dsimp only
        rw [if_neg htakes]
        exact ih hrest _ _

theorem xwriteAllProfiled_eq (profile : Profile) (delivered data : Bytes) :
    (xwriteAllProfiled answers profile delivered data).2 = xwriteAll answers delivered data := by
  induction answers generalizing profile delivered data with
  | nil => rfl
  | cons answer answers ih =>
    unfold xwriteAllProfiled xwriteAll
    by_cases hdata : data = []
    · rw [if_pos hdata, if_pos hdata]
    · rw [if_neg hdata, if_neg hdata]
      cases answer with
      | fails errno =>
        dsimp only
        by_cases hretry : errno = eintr
        · rw [if_pos hretry, if_pos hretry, ih]
        · rw [if_neg hretry, if_neg hretry]
      | takes count =>
        dsimp only
        by_cases hzero : count = 0
        · rw [if_pos hzero, if_pos hzero]
        · rw [if_neg hzero, if_neg hzero, ih]

namespace LineWriter

variable {writer : LineWriter} {sent data : Bytes}

/-! ## What a writer stands for -/

/-- All of it was written: it is delivered or in the buffer, or a write was given up. -/
structure Represents (writer : LineWriter) (sent : Bytes) : Prop where
  latched : writer.error ≠ 0 ↔ writer.fd.failed = true
  complete : writer.error = 0 → writer.fd.delivered ++ writer.buffer = sent
  delivered : writer.fd.delivered <+: sent
  fits : writer.buffer.length ≤ writer.capacity

theorem represents_init (hasBuffer : Bool) (capacity : Nat) (profile : Option Profile) :
    Represents ((init answers hasBuffer capacity).setProfile profile) [] :=
  ⟨⟨fun h => absurd rfl h, fun h => by cases h⟩, fun _ => rfl, prefix_refl _, Nat.zero_le _⟩

section
variable (h : Represents writer sent)
include h

theorem Represents.setProfile (profile : Option Profile) : Represents (writer.setProfile profile) sent :=
  ⟨h.latched, h.complete, h.delivered, h.fits⟩

theorem Represents.noteFlush : Represents writer.noteFlush sent := h.setProfile _

theorem Represents.not_failed (herror : writer.error = 0) : writer.fd.failed = false := by
  apply Bool.eq_false_iff.mpr
  intro hfailed
  exact h.latched.mpr hfailed herror

end

structure Emptied (result : LineWriter × Bool) (sent : Bytes) : Prop where
  represents : Represents result.1 sent
  done : result.2 = true → result.1.error = 0 ∧ result.1.buffer = []
  gaveUp : result.2 = false → result.1.error ≠ 0

/-! ## Writing past the buffer -/

theorem writeAll_eq (writer : LineWriter) (data : Bytes) : ∃ profile, writer.writeAll data =
      (writer.setProfile profile).finish (xwriteAll writer.fd.answers writer.fd.delivered data) := by
  obtain ⟨fd, buffer, capacity, error, profile⟩ := writer
  cases profile with
  | none => exact ⟨none, rfl⟩
  | some profile =>
    unfold writeAll
    dsimp only
    by_cases henabled : profile.enabled = true
    · rw [if_pos henabled, xwriteAllProfiled_eq]
      exact ⟨_, rfl⟩
    · rw [if_neg henabled]
      exact ⟨some profile, rfl⟩

theorem setError_ne_zero (writer : LineWriter) (errno : Nat) : (writer.setError errno).error ≠ 0 := by
  show (if errno ≠ 0 then errno else eio) ≠ 0
  by_cases h : errno ≠ 0
  · rw [if_pos h]
    exact h
  · rw [if_neg h]
    decide

theorem writeAll_emptied (herror : writer.error = 0) (hlatched : writer.fd.failed = false) (hbuffer : writer.buffer = [])
    (hsent : writer.fd.delivered ++ data = sent) : Emptied (writer.writeAll data) sent := by
  obtain ⟨profile, heq⟩ := writeAll_eq writer data
  obtain ⟨taken, hprefix, hdelivered, hall⟩ := xwriteAll_spec writer.fd.answers writer.fd.delivered data
  have hpart : writer.fd.delivered ++ taken <+: sent := by
    rw [← hsent]
    exact (prefix_append_right_inj _).mpr hprefix
  have hfits : ([] : Bytes).length ≤ writer.capacity := Nat.zero_le _
  rw [heq]
  generalize xwriteAll writer.fd.answers writer.fd.delivered data = r at hdelivered hall ⊢
  obtain ⟨answers, delivered, error⟩ := r
  dsimp only at hdelivered hall
  subst hdelivered
  cases error with
  | none =>
    refine ⟨⟨?_, ?_, hpart, ?_⟩, fun _ => ⟨herror, hbuffer⟩, fun h => by cases h⟩
    · show writer.error ≠ 0 ↔ writer.fd.failed = true
      rw [herror, hlatched]
      decide
    · intro _
      show writer.fd.delivered ++ taken ++ writer.buffer = sent
      rw [hbuffer, append_nil, hall rfl, hsent]
    · show writer.buffer.length ≤ writer.capacity
      rw [hbuffer]
      exact hfits
  | some errno =>
    have hne := setError_ne_zero { writer.setProfile profile with fd := ⟨answers, writer.fd.delivered ++ taken, true⟩ } errno
    refine ⟨⟨⟨fun _ => rfl, fun _ => hne⟩, fun h => absurd h hne, hpart, ?_⟩, fun h => (by cases h), fun _ => hne⟩
    show writer.buffer.length ≤ writer.capacity
    rw [hbuffer]
    exact hfits

theorem writeAll_capacity (writer : LineWriter) (data : Bytes) : (writer.writeAll data).1.capacity = writer.capacity := by
  obtain ⟨profile, heq⟩ := writeAll_eq writer data
  rw [heq]
  generalize xwriteAll writer.fd.answers writer.fd.delivered data = r
  obtain ⟨answers, delivered, error⟩ := r
  cases error <;> rfl

/-! ## One call -/

theorem flush_latched (h : writer.error ≠ 0) : writer.flush = (writer, false) := if_pos h

theorem flush_empty (herror : writer.error = 0) (h : writer.buffer = []) : writer.flush = (writer.noteFlush, true) := by
  rw [flush, if_neg (not_not_intro herror), if_pos h]

theorem flush_nonempty (herror : writer.error = 0) (h : writer.buffer ≠ []) :
    writer.flush = { writer.noteFlush with buffer := [] }.writeAll writer.buffer := by
  rw [flush, if_neg (not_not_intro herror), if_neg h]

theorem flush_emptied (h : Represents writer sent) : Emptied writer.flush sent := by
  by_cases herror : writer.error = 0
  · by_cases hempty : writer.buffer = []
    · rw [flush_empty herror hempty]
      exact ⟨h.noteFlush, fun _ => ⟨herror, hempty⟩, fun hfalse => by cases hfalse⟩
    · rw [flush_nonempty herror hempty]
      exact writeAll_emptied herror (h.not_failed herror) rfl (h.complete herror)
  · rw [flush_latched herror]
    exact ⟨h, fun htrue => (by cases htrue), fun _ => herror⟩

theorem flush_capacity (writer : LineWriter) : writer.flush.1.capacity = writer.capacity := by
  by_cases herror : writer.error = 0
  · by_cases hempty : writer.buffer = []
    · rw [flush_empty herror hempty]
      rfl
    · rw [flush_nonempty herror hempty]
      exact writeAll_capacity _ _
  · rw [flush_latched herror]

theorem write_latched (h : writer.error ≠ 0) (data : Option Bytes) : writer.write data = (writer, false) := by
  cases data with
  | none => rfl
  | some data => exact if_pos h

section
variable (h : Represents writer sent)
include h

theorem Represents.append_of_error (herror : writer.error ≠ 0) (data : Bytes) : Represents writer (sent ++ data) :=
  ⟨h.latched, fun hzero => absurd hzero herror, h.delivered.trans (prefix_append sent data), h.fits⟩

theorem Represents.buffered (herror : writer.error = 0) (hfits : writer.buffer.length + data.length ≤ writer.capacity) :
    Represents { writer with buffer := writer.buffer ++ data } (sent ++ data) := by
  refine ⟨h.latched, ?_, h.delivered.trans (prefix_append sent data), ?_⟩
  · intro _
    show writer.fd.delivered ++ (writer.buffer ++ data) = sent ++ data
    rw [← append_assoc, h.complete herror]
  · show (writer.buffer ++ data).length ≤ writer.capacity
    rwa [length_append]

theorem write_represents (data : Bytes) : Represents (writer.write (some data)).1 (sent ++ data) := by
  have hflush := flush_emptied h
  unfold write
  dsimp only
  by_cases herror : writer.error = 0
  · rw [if_neg (not_not_intro herror)]
    by_cases hnil : data.length = 0
    · rw [if_pos hnil, eq_nil_of_length_eq_zero hnil, append_nil]
      exact h
    · rw [if_neg hnil]
      by_cases hlarge : writer.capacity = 0 ∨ data.length > writer.capacity
      · -- past the buffer, once what is in it is delivered
        rw [if_pos hlarge]
        by_cases hok : writer.flush.2 = true
        · obtain ⟨hzero, hempty⟩ := hflush.done hok
          have hall := hflush.represents.complete hzero
          rw [hempty, append_nil] at hall
          rw [if_pos hok]
          exact (writeAll_emptied hzero (hflush.represents.not_failed hzero) hempty (by rw [hall])).represents
        · rw [if_neg hok]
          exact hflush.represents.append_of_error (hflush.gaveUp (Bool.eq_false_iff.mpr hok)) data
      · rw [if_neg hlarge]
        by_cases hfull : data.length > writer.capacity - writer.buffer.length
        · rw [if_pos hfull]
          by_cases hok : writer.flush.2 = true
          · obtain ⟨hzero, hempty⟩ := hflush.done hok
            rw [if_pos hok]
            apply hflush.represents.buffered hzero
            rw [hempty, flush_capacity]
            simp
            omega
          · rw [if_neg hok]
            exact hflush.represents.append_of_error (hflush.gaveUp (Bool.eq_false_iff.mpr hok)) data
        · rw [if_neg hfull]
          have hfits := h.fits
          exact h.buffered herror (by omega)
  · rw [if_pos herror]
    exact h.append_of_error herror data

theorem call_represents (c : Call) : Represents (writer.call c).1 (sent ++ c.data) := by
  cases c with
  | flush =>
    show Represents writer.flush.1 (sent ++ [])
    rw [append_nil]
    exact (flush_emptied h).represents
  | write data =>
    cases data with
    | none =>
      show Represents writer (sent ++ [])
      rwa [append_nil]
    | some data => exact write_represents h data

end

theorem call_latched (h : writer.error ≠ 0) (c : Call) : writer.call c = (writer, false) := by
  cases c with
  | flush => exact flush_latched h
  | write data => exact write_latched h data

/-! ## A descriptor that accepts everything -/

structure Accepting (writer : LineWriter) : Prop where
  error : writer.error = 0
  answers : ∀ answer ∈ writer.fd.answers, answer.Accepts

section
variable (h : Accepting writer)
include h

theorem writeAll_accepting (data : Bytes) : Accepting (writer.writeAll data).1 ∧ (writer.writeAll data).2 = true := by
  obtain ⟨profile, heq⟩ := writeAll_eq writer data
  obtain ⟨herror, hanswers⟩ := xwriteAll_accepts h.answers writer.fd.delivered data
  rw [heq]
  generalize xwriteAll writer.fd.answers writer.fd.delivered data = r at herror hanswers ⊢
  obtain ⟨answers, delivered, error⟩ := r
  dsimp only at herror hanswers
  subst herror
  exact ⟨⟨h.error, hanswers⟩, rfl⟩

theorem flush_accepting : Accepting writer.flush.1 ∧ writer.flush.2 = true := by
  by_cases hempty : writer.buffer = []
  · rw [flush_empty h.error hempty]
    exact ⟨⟨h.error, h.answers⟩, rfl⟩
  · rw [flush_nonempty h.error hempty]
    have hcounted : Accepting { writer.noteFlush with buffer := [] } := ⟨h.error, h.answers⟩
    exact writeAll_accepting hcounted writer.buffer

theorem write_accepting (data : Bytes) :
    Accepting (writer.write (some data)).1 ∧ (writer.write (some data)).2 = true := by
  obtain ⟨hflush, hok⟩ := flush_accepting h
  unfold write
  dsimp only
  rw [if_neg (not_not_intro h.error), if_pos hok, if_pos hok]
  by_cases hnil : data.length = 0
  · rw [if_pos hnil]
    exact ⟨h, rfl⟩
  · rw [if_neg hnil]
    by_cases hlarge : writer.capacity = 0 ∨ data.length > writer.capacity
    · rw [if_pos hlarge]
      exact writeAll_accepting hflush data
    · rw [if_neg hlarge]
      by_cases hfull : data.length > writer.capacity - writer.buffer.length
      · rw [if_pos hfull]
        exact ⟨⟨hflush.error, hflush.answers⟩, rfl⟩
      · rw [if_neg hfull]
        exact ⟨⟨h.error, h.answers⟩, rfl⟩

theorem call_accepting (c : Call) : Accepting (writer.call c).1 := by
  cases c with
  | flush => exact (flush_accepting h).1
  | write data =>
    cases data with
    | none => exact h
    | some data => exact (write_accepting h data).1

end

/-! ## Runs -/

theorem run_represents (h : Represents writer sent) (calls : List Call) :
    Represents (run writer calls).1 (sent ++ written calls) := by
  induction calls generalizing writer sent with
  | nil =>
    show Represents writer (sent ++ [])
    rwa [append_nil]
  | cons c calls ih =>
    have hrest := ih (call_represents h c)
    rwa [append_assoc] at hrest

theorem run_accepting (h : Accepting writer) (calls : List Call) : Accepting (run writer calls).1 := by
  induction calls generalizing writer with
  | nil => exact h
  | cons c calls ih => exact ih (call_accepting h c)

theorem run_latched (h : writer.error ≠ 0) (calls : List Call) :
    run writer calls = (writer, replicate calls.length false) := by
  induction calls with
  | nil => rfl
  | cons c calls ih =>
    rw [run, call_latched h c, ih]
    rfl

/-- **Main result.** A flush delivers all that was written if everything is accepted; what is
delivered is a prefix of what was written in any case, and once a write was given up every
call fails and delivers nothing. -/
theorem run_refines (answers : List Answer) (hasBuffer : Bool) (capacity : Nat) (profile : Option Profile)
    (calls : List Call) :
    let writer := (run ((init answers hasBuffer capacity).setProfile profile) calls).1
    ((∀ answer ∈ answers, answer.Accepts) → writer.flush.2 = true ∧ writer.flush.1.fd.delivered = written calls) ∧
      writer.fd.delivered <+: written calls ∧
      (writer.fd.failed = true → ∀ later, (run writer later).1.fd.delivered = writer.fd.delivered ∧
        ∀ result ∈ (run writer later).2, result = false) := by
  intro writer
  have hrepresents : Represents writer ([] ++ written calls) :=
    run_represents (represents_init answers hasBuffer capacity profile) calls
  rw [nil_append] at hrepresents
  refine ⟨?_, hrepresents.delivered, ?_⟩
  · intro hanswers
    have haccepting : Accepting writer := run_accepting ⟨rfl, hanswers⟩ calls
    have hok := (flush_accepting haccepting).2
    have hflush := flush_emptied hrepresents
    obtain ⟨hzero, hempty⟩ := hflush.done hok
    have hall := hflush.represents.complete hzero
    rw [hempty, append_nil] at hall
    exact ⟨hok, hall⟩
  · intro hfailed later
    rw [run_latched (hrepresents.latched.mpr hfailed) later]
    exact ⟨rfl, fun result hresult => eq_of_mem_replicate hresult⟩

/-- Six bytes through a buffer of four, to a descriptor that takes one byte and is interrupted or fails then -/
theorem run_refines_small : (run ((init [.takes 1, .fails eintr] true 4).setProfile none)
      [.write (some (ascii "abc")), .write (some (ascii "def"))]).1.flush.1.fd.delivered = ascii "abcdef" ∧
    ∀ result ∈ (run (run ((init [.takes 1, .fails epipe] true 4).setProfile none)
      [.write (some (ascii "abc")), .write (some (ascii "def"))]).1 [.flush]).2, result = false := by
  refine ⟨?_, ?_⟩
  · have hrefines := run_refines [.takes 1, .fails eintr] true 4 none
      [.write (some (ascii "abc")), .write (some (ascii "def"))]
    have haccepts : ∀ answer ∈ [Answer.takes 1, Answer.fails eintr], answer.Accepts := by
      simp [Answer.Accepts]
    exact (hrefines.1 haccepts).2
  · have hrefines := run_refines [.takes 1, .fails epipe] true 4 none
      [.write (some (ascii "abc")), .write (some (ascii "def"))]
    exact (hrefines.2.2 (by decide) [.flush]).2

end LineWriter

end Bx.Lib
