import Bx.Cpio.Written

/-!
# Cpio archives taken apart

The reader again, with a guard at every read, at every sum and difference of offsets and at the bound of its loop. No
guard is ever hit.
-/

namespace Bx.Cpio
open Kit Lib List

/-! ## Guards -/

inductive Fault
  | outside
  | wraps
  | endless

abbrev Guarded (α : Type) := Except (Fault ⊕ Diag) α

def said {α : Type} : Except Diag α → Guarded α
  | .ok a => .ok a
  | .error d => .error (.inr d)

def plus (a b : Nat) : Guarded Nat := if a + b < 2 ^ 64 then .ok (a + b) else .error (.inl .wraps)

def minus (a b : Nat) : Guarded Nat := if b ≤ a then .ok (a - b) else .error (.inl .wraps)

def readInside (s : Spool) (offset len : Nat) : Guarded Bytes :=
  if offset + len ≤ s.bytes.length then .ok (s.readAt offset len) else .error (.inl .outside)

def chunkSize : Nat := 8192

/-- `bx_cpio_zero_range` -/
def guardedZeroRange (s : Spool) (offset len : Nat) : Guarded Bool :=
  if len = 0 then .ok true
  else do
    let chunk ← readInside s offset (min len chunkSize)
    if !zeroPadding chunk then .ok false
    else
      let offset ← plus offset (min len chunkSize)
      guardedZeroRange s offset (len - min len chunkSize)
termination_by len
decreasing_by
  unfold chunkSize
  omega

/-- The chunk that ends the name holds its terminator, which is not looked at with the text. -/
def chunkValid (chunk : Bytes) (last : Bool) : Bool :=
  if last then chunk.getLast? == some 0 && !chunk.dropLast.contains 0 else !chunk.contains 0

/-- `bx_cpio_validate_name` with so many bytes done -/
def guardedName (s : Spool) (offset len done : Nat) (trailer : Bool) : Guarded NameCheck :=
  if done < len then do
    let start ← plus offset done
    let chunk ← readInside s start (min (len - done) chunkSize)
    let next ← plus done (min (len - done) chunkSize)
    if !chunkValid chunk (next == len) then .ok ⟨false, trailer⟩
    else
      guardedName s offset len (done + min (len - done) chunkSize)
        (if len = 11 then chunk == trailerName ++ [0] else trailer)
  else .ok ⟨true, trailer⟩
termination_by len - done
decreasing_by
  unfold chunkSize
  omega

def guardedPayload (s : Spool) (offset : Nat) (entry : Member) : Guarded Member := do
  if isReg entry.mode then .ok ()
  else if isLnk entry.mode then
    let _ ← plus entry.size 1
    let _ ← readInside s offset entry.size
    .ok ()
  else .ok ()
  said (parsePayload s offset entry)

/-- One turn of the loops in `bx_cpio_parse_newc_archive` and `bx_cpio_parse_odc_archive` -/
def guardedMember (format : Format) (s : Spool) (pos count bytes : Nat) : Guarded Step := do
  let header ← readInside s pos format.headerLen
  let h ← said (orFail (diag ("invalid " ++ format.label ++ " header")) (parseHeader format header))
  let pos ← plus pos format.headerLen
  let truncated := diag ("invalid or truncated " ++ format.label ++ " member")
  let bounds ← said (orFail truncated
    (memberBounds s.bytes.length pos h.namesize h.size format.alignment format.alignment))
  let name ← guardedName s pos h.namesize 0 false
  said (check truncated name.valid)
  let nameEnd ← plus pos h.namesize
  let namePadding ← minus bounds.dataOffset nameEnd
  let nameZero ← guardedZeroRange s nameEnd namePadding
  let dataEnd ← plus bounds.dataOffset h.size
  let dataPadding ← minus bounds.nextOffset dataEnd
  let dataZero ← guardedZeroRange s dataEnd dataPadding
  said (check (diag ("invalid " ++ format.label ++ " padding")) (nameZero && dataZero))
  if name.trailer then
    said (check (diag ("invalid " ++ format.label ++ " trailer")) (h.size == 0))
    let rest ← minus s.bytes.length bounds.nextOffset
    let restZero ← guardedZeroRange s bounds.nextOffset rest
    said (check (diag "trailing data after cpio trailer") restZero)
    .ok .trailer
  else
    said (check (diag "unrepresentable cpio metadata") (!unrepresentable h))
    let bytes ← said (orFail (diag "cpio member metadata limit exceeded")
      (memberMetadataBudget count bytes h.mode h.namesize h.size))
    let name ← readInside s pos h.namesize
    let text := cText name
    let rdev ← said (
      if isChr h.mode || isBlk h.mode then
        orFail ⟨some text, "invalid device metadata"⟩ (deviceFromNumbers h.rdevMajor h.rdevMinor)
      else .ok 0)
    let entry ← guardedPayload s bounds.dataOffset
      ⟨text, .reg, h.mode, h.uid, h.gid, h.nlink, h.mtime, h.ino % 2 ^ 32, h.device, rdev, h.size, none, none⟩
    .ok (.member entry bounds.nextOffset bytes)

def guardedEntries (format : Format) (s : Spool) : Nat → Nat → List Member → Nat → Guarded (List Member)
  | 0, _, _, _ => .error (.inl .endless)
  | fuel + 1, pos, entries, bytes =>
    if pos ≤ s.bytes.length ∧ format.headerLen ≤ s.bytes.length - pos then
      match guardedMember format s pos entries.length bytes with
      | .error e => .error e
      | .ok .trailer => .ok entries
      | .ok (.member entry next bytes) => guardedEntries format s fuel next (entries ++ [entry]) bytes
    else .error (.inr (diag ("truncated " ++ format.label ++ " archive")))

def guardedArchive (format : Format) (s : Spool) : Guarded (List Member) :=
  guardedEntries format s (s.bytes.length + 1) 0 [] 0

/-! ## Chunks -/

section
variable {s : Spool}

variable {a b : Nat} {offset len : Nat}

theorem plus_of_lt (h : a + b < 2 ^ 64) : plus a b = .ok (a + b) := if_pos h

theorem minus_of_le (h : b ≤ a) : minus a b = .ok (a - b) := if_pos h

theorem readInside_of_le (h : offset + len ≤ s.bytes.length) :
    readInside s offset len = .ok (s.readAt offset len) := if_pos h

theorem length_readAt {offset len : Nat} (h : offset + len ≤ s.bytes.length) : (s.readAt offset len).length = len := by
  rw [Spool.readAt, length_take, length_drop]
  omega

theorem readAt_split (offset a b : Nat) : s.readAt offset (a + b) = s.readAt offset a ++ s.readAt (offset + a) b := by
  unfold Spool.readAt
  rw [take_add, drop_drop]

theorem guardedZeroRange_eq (h : offset + len ≤ s.bytes.length) :
    guardedZeroRange s offset len = .ok (s.zeroRange offset len) := by
  have hlt := s.length_lt
  induction hn : len using Nat.strongRecOn generalizing offset len with
  | ind n ih =>
    subst hn
    rw [guardedZeroRange]
    by_cases hzero : len = 0
    · rw [if_pos hzero, hzero]
      rfl
    · have hchunk : 0 < min len chunkSize := by
        unfold chunkSize
        omega
      have hrest := @ih (len - min len chunkSize) (by omega) (offset + min len chunkSize) (len - min len chunkSize)
        (by omega) rfl
      have hsplit : s.readAt offset len = s.readAt offset (min len chunkSize) ++
          s.readAt (offset + min len chunkSize) (len - min len chunkSize) := by
        rw [← readAt_split]
        congr 1
        omega
      rw [if_neg hzero, readInside_of_le (by omega), plus_of_lt (by omega)]
      unfold Spool.zeroRange zeroPadding at hrest ⊢
      rw [hsplit, all_append]
      simp only [bind, Except.bind]
      cases hall : (s.readAt offset (min len chunkSize)).all (· == 0) with
      | false => rfl
      | true => exact hrest

theorem chunkValid_append (a : Bytes) {b : Bytes} (hb : b ≠ []) :
    chunkValid (a ++ b) true = (!a.contains 0 && chunkValid b true) := by
  simp only [chunkValid, if_true]
  rw [getLast?_append, getLast?_eq_some_getLast hb, Option.some_or, dropLast_append_of_ne_nil hb, contains_append]
  cases a.contains 0 with
  | true => simp
  | false => rfl

theorem guardedName_end (offset len : Nat) (trailer : Bool) :
    guardedName s offset len len trailer = .ok ⟨true, trailer⟩ := by
  rw [guardedName, if_neg (lt_irrefl len)]

theorem guardedName_long (h : offset + len ≤ s.bytes.length) (hlong : len ≠ 11) (trailer : Bool)
    {done : Nat} (hdone : done < len) : guardedName s offset len done trailer =
      .ok ⟨chunkValid (s.readAt (offset + done) (len - done)) true, trailer⟩ := by
  have hlt := s.length_lt
  induction hn : len - done using Nat.strongRecOn generalizing done with
  | ind n ih =>
    subst hn
    rw [guardedName, if_pos hdone, plus_of_lt (by omega)]
    simp only [bind, Except.bind, if_neg hlong]
    rw [readInside_of_le (by omega)]
    simp only
    by_cases hlast : len - done ≤ chunkSize
    · rw [min_eq_left hlast, plus_of_lt (by omega)]
      have hnext : done + (len - done) = len := by omega
      simp only [hnext, beq_self_eq_true]
      rw [guardedName_end]
      cases chunkValid (s.readAt (offset + done) (len - done)) true with
      | true => rfl
      | false => rfl
    · rw [min_eq_right (by omega), plus_of_lt (by unfold chunkSize at hlast ⊢; omega)]
      have hnext : (done + chunkSize == len) = false := beq_eq_false_iff_ne.mpr (by omega)
      have hchunk : 0 < chunkSize := by decide
      have hrest := @ih (len - (done + chunkSize)) (by omega) (done + chunkSize) (by omega) rfl
      have hsplit : s.readAt (offset + done) (len - done) = s.readAt (offset + done) chunkSize ++
          s.readAt (offset + (done + chunkSize)) (len - (done + chunkSize)) := by
        have heq : len - done = chunkSize + (len - (done + chunkSize)) := by omega
        rw [heq, readAt_split, add_assoc]
      have hsome : s.readAt (offset + (done + chunkSize)) (len - (done + chunkSize)) ≠ [] := by
        intro hnil
        have hlen := @length_readAt s (offset + (done + chunkSize)) (len - (done + chunkSize)) (by omega)
        rw [hnil, length_nil] at hlen
        omega
      have hfront : chunkValid (s.readAt (offset + done) chunkSize) false =
          !(s.readAt (offset + done) chunkSize).contains 0 := rfl
      simp only [hnext, hrest, hsplit, chunkValid_append _ hsome, hfront]
      cases (s.readAt (offset + done) chunkSize).contains 0 with
      | true => rfl
      | false => rw [if_neg (by decide), Bool.not_false, Bool.true_and]

theorem guardedName_eq (h : offset + len ≤ s.bytes.length) (hpos : 0 < len) :
    guardedName s offset len 0 false = .ok (validateName s offset len) := by
  have hlt := s.length_lt
  have hlen := length_readAt h
  by_cases hlong : len = 11
  · subst hlong
    rw [guardedName, if_pos (by decide), plus_of_lt (by omega)]
    simp only [bind, Except.bind]
    rw [readInside_of_le (by exact h)]
    have hnext : 0 + min (11 - 0) chunkSize = 11 := by decide
    simp only [plus_of_lt (show 0 + min (11 - 0) chunkSize < 2 ^ 64 by decide), hnext]
    rw [guardedName_end]
    have hwhole : s.readAt (offset + 0) (min (11 - 0) chunkSize) = s.readAt offset 11 := rfl
    simp only [hwhole, validateName, chunkValid, beq_self_eq_true, if_true]
    cases (s.readAt offset 11).getLast? == some 0 && !(s.readAt offset 11).dropLast.contains 0 with
    | true => rfl
    | false => rfl
  · rw [guardedName_long h hlong false hpos]
    have hother : (s.readAt offset len == trailerName ++ [0]) = false := by
      apply beq_eq_false_iff_ne.mpr
      intro heq
      rw [heq] at hlen
      exact hlong (hlen.symm.trans (by decide))
    simp only [validateName, hother, Bool.and_false, add_zero, Nat.sub_zero, chunkValid, if_true]

end

/-! ## Turns -/

theorem checkedAdd_some {a b c : Nat} (h : checkedAdd a b = some c) : c = a + b := by
  unfold checkedAdd at h
  split at h
  · cases h
  · exact (Option.some.inj h).symm

theorem checkedRoundUp_some {value align rounded : Nat} (hpos : 0 < align) (h : checkedRoundUp value align = some rounded) :
    rounded = value + padding value align := by
  unfold checkedRoundUp at h
  rw [if_neg (by omega)] at h
  dsimp only at h
  by_cases hrem : value % align = 0
  · rw [if_pos hrem] at h
    rw [← Option.some.inj h, padding, hrem, Nat.sub_zero, Nat.mod_self, add_zero]
  · have hlt := Nat.mod_lt value hpos
    have hpad : padding value align = align - value % align := Nat.mod_eq_of_lt (by omega)
    rw [if_neg hrem] at h
    rw [checkedAdd_some h, hpad]

theorem memberBounds_some {length nameOffset nameSize payloadSize align : Nat} (hpos : 0 < align) {bounds : MemberBounds}
    (h : memberBounds length nameOffset nameSize payloadSize align align = some bounds) :
    2 ≤ nameSize ∧ bounds.dataOffset = nameOffset + nameSize + padding (nameOffset + nameSize) align ∧
      bounds.nextOffset = bounds.dataOffset + payloadSize + padding (bounds.dataOffset + payloadSize) align ∧
      bounds.nextOffset ≤ length := by
  unfold memberBounds at h
  split at h
  · cases h
  · rename_i hsize
    simp only [bind, Option.bind_eq_some_iff] at h
    obtain ⟨nameEnd, hname, h⟩ := h
    split at h
    · cases h
    · simp only [Option.bind_eq_some_iff] at h
      obtain ⟨dataOffset, hdata, dataEnd, hend, h⟩ := h
      split at h
      · cases h
      · simp only [Option.bind_eq_some_iff] at h
        obtain ⟨nextOffset, hnext, h⟩ := h
        split at h
        · cases h
        · rename_i hlast
          cases h
          refine ⟨by omega, ?_, ?_, Nat.not_lt.mp hlast⟩
          · rw [checkedRoundUp_some hpos hdata, checkedAdd_some hname]
          · rw [checkedRoundUp_some hpos hnext, checkedAdd_some hend]

section
variable {format : Format} {s : Spool}

theorem guardedPayload_eq {offset : Nat} {entry : Member} (h : offset + entry.size ≤ s.bytes.length) :
    guardedPayload s offset entry = said (parsePayload s offset entry) := by
  have hlt := s.length_lt
  unfold guardedPayload
  rw [plus_of_lt (by omega), readInside_of_le h]
  cases isReg entry.mode with
  | true => rfl
  | false =>
    cases isLnk entry.mode with
    | true => rfl
    | false => rfl

theorem guardedMember_eq {pos : Nat} (hroom : pos + format.headerLen ≤ s.bytes.length) (count bytes : Nat) :
    guardedMember format s pos count bytes = said (parseMember format s pos count bytes) := by
  have hlt := s.length_lt
  unfold guardedMember parseMember
  rw [readInside_of_le hroom]
  simp only [bind, Except.bind]
  cases parseHeader format (s.readAt pos format.headerLen) with
  | none => rfl
  | some h =>
    simp only [orFail, said, plus_of_lt (show pos + format.headerLen < 2 ^ 64 by omega)]
    cases hbounds : memberBounds s.bytes.length (pos + format.headerLen) h.namesize h.size format.alignment
        format.alignment with
    | none => rfl
    | some bounds =>
      obtain ⟨hname, hdata, hnext, hlast⟩ := memberBounds_some format.alignment_pos hbounds
      have hnameEnd : pos + format.headerLen + h.namesize < 2 ^ 64 := by omega
      have hdataEnd : bounds.dataOffset + h.size < 2 ^ 64 := by omega
      have hnamePadding : pos + format.headerLen + h.namesize ≤ bounds.dataOffset := by omega
      have hdataPadding : bounds.dataOffset + h.size ≤ bounds.nextOffset := by omega
      simp only [guardedName_eq (show pos + format.headerLen + h.namesize ≤ s.bytes.length by omega)
        (show 0 < h.namesize by omega)]
      cases (validateName s (pos + format.headerLen) h.namesize).valid with
      | false => rfl
      | true =>
        simp only [check, if_true, plus_of_lt hnameEnd, plus_of_lt hdataEnd, minus_of_le hnamePadding,
          minus_of_le hdataPadding, minus_of_le hlast]
        rw [guardedZeroRange_eq (by omega), guardedZeroRange_eq (by omega), guardedZeroRange_eq (by omega),
          readInside_of_le (by omega)]
        simp only
        cases s.zeroRange (pos + format.headerLen + h.namesize) (bounds.dataOffset - (pos + format.headerLen + h.namesize))
            && s.zeroRange (bounds.dataOffset + h.size) (bounds.nextOffset - (bounds.dataOffset + h.size)) with
        | false => rfl
        | true =>
          cases (validateName s (pos + format.headerLen) h.namesize).trailer with
          | true =>
            cases h.size == 0 with
            | false => rfl
            | true =>
              simp only [if_true]
              cases s.zeroRange bounds.nextOffset (s.bytes.length - bounds.nextOffset) with
              | false => rfl
              | true => rfl
          | false =>
            cases unrepresentable h with
            | true => rfl
            | false =>
              cases memberMetadataBudget count bytes h.mode h.namesize h.size with
              | none => rfl
              | some total =>
                cases isChr h.mode || isBlk h.mode with
                | false =>
                  simp only [Bool.false_eq_true, if_false, Bool.not_false, if_true]
                  rw [guardedPayload_eq (by exact Nat.le_trans hdataPadding hlast)]
                  cases parsePayload s bounds.dataOffset _ with
                  | error d => rfl
                  | ok entry => rfl
                | true =>
                  cases deviceFromNumbers h.rdevMajor h.rdevMinor with
                  | none => rfl
                  | some rdev =>
                    simp only [Bool.false_eq_true, if_false, Bool.not_false, if_true]
                    rw [guardedPayload_eq (by exact Nat.le_trans hdataPadding hlast)]
                    cases parsePayload s bounds.dataOffset _ with
                    | error d => rfl
                    | ok entry => rfl

end

/-! ## The parts of an archive -/

structure Block where
  header : Bytes
  name : Bytes
  namePadding : Nat
  data : Bytes
  dataPadding : Nat

namespace Block

def front (b : Block) : Bytes := b.header ++ b.name ++ replicate b.namePadding 0

def bytes (b : Block) : Bytes := b.front ++ b.data ++ replicate b.dataPadding 0

/-- The header says how long the name and the data are, and the paddings are the shortest there can be. -/
structure Placed (b : Block) (format : Format) (start : Nat) (h : Header) : Prop where
  header_length : b.header.length = format.headerLen
  parsed : parseHeader format b.header = some h
  name_length : b.name.length = h.namesize
  data_length : b.data.length = h.size
  namePadding_eq : b.namePadding = padding (start + format.headerLen + h.namesize) format.alignment
  dataPadding_eq : b.dataPadding = padding (start + b.front.length + h.size) format.alignment

structure Holds (b : Block) (start : Nat) (entry : Member) : Prop where
  name : entry.name ++ [0] = b.name
  noNul : 0 ∉ entry.name
  size : entry.size = b.data.length
  data : ∀ span ∈ entry.data, span = (start + b.front.length, b.data.length)
  linkTarget : ∀ target ∈ entry.linkTarget, target = b.data

end Block

def IsTrailer (b : Block) : Prop := b.name = trailerName ++ [0] ∧ b.data = []

inductive Row (format : Format) : Nat → List Member → List Block → Prop
  | nil (start : Nat) : Row format start [] []
  | cons {start : Nat} {h : Header} {entry : Member} {entries : List Member} {b : Block} {blocks : List Block} :
    b.Placed format start h → b.name ≠ trailerName ++ [0] → b.Holds start entry →
    Row format (start + b.bytes.length) entries blocks → Row format start (entry :: entries) (b :: blocks)

section
variable {format : Format} {s : Spool}

theorem Block.length_bytes (b : Block) : b.bytes.length = b.front.length + b.data.length + b.dataPadding := by
  simp [Block.bytes, add_assoc]

theorem Block.length_front (b : Block) : b.front.length = b.header.length + b.name.length + b.namePadding := by
  simp [Block.front, add_assoc]

theorem drop_split {offset : Nat} (len : Nat) :
    s.bytes.drop offset = s.readAt offset len ++ s.bytes.drop (offset + len) := by
  rw [Spool.readAt, ← drop_drop, take_append_drop]

variable {offset len : Nat} {d : Diag}

theorem readAt_of_zeroRange (h : offset + len ≤ s.bytes.length) (hzero : s.zeroRange offset len = true) :
    s.readAt offset len = replicate len 0 := by
  apply eq_replicate_iff.mpr
  refine ⟨length_readAt h, ?_⟩
  intro c hc
  exact eq_of_beq (all_eq_true.mp hzero c hc)

theorem orFail_ok {α : Type} {x : Option α} {a : α} (h : orFail d x = .ok a) : x = some a := by
  cases x with
  | none => cases h
  | some b =>
    cases h
    rfl

theorem check_ok {holds : Bool} {u : Unit} (h : check d holds = .ok u) : holds = true := by
  cases holds with
  | true => rfl
  | false => cases h

theorem validateName_valid (h : (validateName s offset len).valid = true) :
    cText (s.readAt offset len) ++ [0] = s.readAt offset len ∧ 0 ∉ cText (s.readAt offset len) := by
  simp only [validateName, Bool.and_eq_true, Bool.not_eq_true'] at h
  obtain ⟨hlast, hfront⟩ := h
  obtain ⟨text, htext⟩ := getLast?_eq_some_iff.mp (eq_of_beq hlast)
  rw [htext, dropLast_concat] at hfront
  have hnone : ∀ c ∈ text, (c != 0) = true := by
    intro c hc
    apply bne_iff_ne.mpr
    intro hzero
    rw [hzero] at hc
    rw [contains_iff_mem.mpr hc] at hfront
    cases hfront
  have hcut : cText (s.readAt offset len) = text := by
    unfold cText
    rw [htext, takeWhile_append_of_pos hnone, takeWhile_cons_of_neg (by decide), append_nil]
  rw [hcut]
  refine ⟨htext.symm, ?_⟩
  intro hzero
  rw [contains_iff_mem.mpr hzero] at hfront
  cases hfront

theorem parsePayload_ok {entry made : Member} (hnone : entry.data = none ∧ entry.linkTarget = none)
    (h : parsePayload s offset entry = .ok made) :
    made.name = entry.name ∧ made.size = entry.size ∧ (∀ span ∈ made.data, span = (offset, entry.size)) ∧
      ∀ target ∈ made.linkTarget, target = s.readAt offset entry.size := by
  unfold parsePayload at h
  split at h
  · cases h
    refine ⟨rfl, rfl, ?_, ?_⟩
    · intro span hspan
      exact (Option.some.inj hspan).symm
    · intro target htarget
      simp [Option.mem_def, hnone.2] at htarget
  · split at h
    · dsimp only at h
      split at h
      · cases h
        refine ⟨rfl, rfl, ?_, ?_⟩
        · intro span hspan
          simp [Option.mem_def, hnone.1] at hspan
        · intro target htarget
          exact (Option.some.inj htarget).symm
      · cases h
    · have hjoin : ∀ kind : Kind, (if entry.size ≠ 0 then
          (Except.error ⟨some entry.name, "unexpected payload for cpio file type"⟩ : Except Diag Member)
          else Except.ok { entry with kind := kind }) = Except.ok made → made = { entry with kind := kind } := by
        intro kind hkind
        split at hkind
        · cases hkind
        · exact (Except.ok.inj hkind).symm
      have hkind : ∃ kind, made = { entry with kind := kind } := by
        dsimp only [bind, Except.bind] at h
        split at h
        · exact ⟨_, hjoin _ h⟩
        · split at h
          · exact ⟨_, hjoin _ h⟩
          · split at h
            · exact ⟨_, hjoin _ h⟩
            · split at h
              · exact ⟨_, hjoin _ h⟩
              · cases h
      obtain ⟨kind, hmade⟩ := hkind
      rw [hmade]
      refine ⟨rfl, rfl, ?_, ?_⟩
      · intro span hspan
        simp [Option.mem_def, hnone.1] at hspan
      · intro target htarget
        simp [Option.mem_def, hnone.2] at htarget

def TurnDone (s : Spool) (pos : Nat) (b : Block) : Step → Prop
  | .trailer => IsTrailer b ∧
      s.bytes.drop (pos + b.bytes.length) = replicate (s.bytes.length - (pos + b.bytes.length)) 0
  | .member entry next _ => next = pos + b.bytes.length ∧ b.name ≠ trailerName ++ [0] ∧ b.Holds pos entry

variable {pos fuel : Nat}

theorem parseMember_ok {count bytes : Nat} {step : Step} (hroom : pos + format.headerLen ≤ s.bytes.length)
    (h : parseMember format s pos count bytes = .ok step) :
    ∃ b head, Block.Placed b format pos head ∧ pos + b.bytes.length ≤ s.bytes.length ∧
      s.bytes.drop pos = b.bytes ++ s.bytes.drop (pos + b.bytes.length) ∧ TurnDone s pos b step := by
  unfold parseMember at h
  obtain ⟨head, hhead, h⟩ := bind_ok h
  obtain ⟨bounds, hbounds, h⟩ := bind_ok h
  obtain ⟨_, hvalid, h⟩ := bind_ok h
  obtain ⟨_, hpadding, h⟩ := bind_ok h
  obtain ⟨hname, hdata, hnext, hlast⟩ := memberBounds_some format.alignment_pos (orFail_ok hbounds)
  obtain ⟨hnamePadding, hdataPadding⟩ := Bool.and_eq_true_iff.mp (check_ok hpadding)
  obtain ⟨htext, hnoNul⟩ := validateName_valid (check_ok hvalid)
  -- the parts of the member, from its place on
  let start := pos + format.headerLen
  let b : Block := ⟨s.readAt pos format.headerLen, s.readAt start head.namesize,
    bounds.dataOffset - (start + head.namesize), s.readAt bounds.dataOffset head.size,
    bounds.nextOffset - (bounds.dataOffset + head.size)⟩
  have hheaderLen : b.header.length = format.headerLen := length_readAt hroom
  have hnameLen : b.name.length = head.namesize := length_readAt (by omega)
  have hdataLen : b.data.length = head.size := length_readAt (by omega)
  have hfront : pos + b.front.length = bounds.dataOffset := by
    rw [Block.length_front, hheaderLen, hnameLen]
    show pos + (format.headerLen + head.namesize + (bounds.dataOffset - (pos + format.headerLen + head.namesize))) = _
    omega
  have hend : pos + b.bytes.length = bounds.nextOffset := by
    rw [Block.length_bytes, hdataLen]
    show pos + (b.front.length + head.size + (bounds.nextOffset - (bounds.dataOffset + head.size))) = _
    omega
  have hplaced : b.Placed format pos head := by
    refine ⟨hheaderLen, orFail_ok hhead, hnameLen, hdataLen, ?_, ?_⟩
    · show bounds.dataOffset - (pos + format.headerLen + head.namesize) = _
      omega
    · rw [hfront]
      show bounds.nextOffset - (bounds.dataOffset + head.size) = _
      omega
  have hbytes : s.bytes.drop pos = b.bytes ++ s.bytes.drop (pos + b.bytes.length) := by
    have hzeroName := readAt_of_zeroRange (by omega) hnamePadding
    have hzeroData := readAt_of_zeroRange (by omega) hdataPadding
    have hdataOffset : start + head.namesize + (bounds.dataOffset - (start + head.namesize)) = bounds.dataOffset := by
      show pos + format.headerLen + head.namesize + (bounds.dataOffset - (pos + format.headerLen + head.namesize)) = _
      omega
    have hnextOffset : bounds.dataOffset + head.size + (bounds.nextOffset - (bounds.dataOffset + head.size)) =
        bounds.nextOffset := by omega
    rw [hend, @drop_split s pos format.headerLen, @drop_split s (pos + format.headerLen) head.namesize,
      @drop_split s (pos + format.headerLen + head.namesize) (bounds.dataOffset - (start + head.namesize)), hdataOffset,
      @drop_split s bounds.dataOffset head.size,
      @drop_split s (bounds.dataOffset + head.size) (bounds.nextOffset - (bounds.dataOffset + head.size)), hnextOffset,
      hzeroName, hzeroData]
    simp only [Block.bytes, Block.front, append_assoc]
    rfl
  refine ⟨b, head, hplaced, by omega, hbytes, ?_⟩
  by_cases htrailer : (validateName s (pos + format.headerLen) head.namesize).trailer = true
  · rw [if_pos htrailer] at h
    obtain ⟨_, hsize, h⟩ := bind_ok h
    obtain ⟨_, hrest, h⟩ := bind_ok h
    cases h
    have hzero : head.size = 0 := eq_of_beq (check_ok hsize)
    have htrailerName : b.name = trailerName ++ [0] := by
      simp only [validateName, Bool.and_eq_true] at htrailer
      exact eq_of_beq htrailer.2
    refine ⟨⟨htrailerName, eq_nil_of_length_eq_zero (hdataLen.trans hzero)⟩, ?_⟩
    have hread := readAt_of_zeroRange (by omega) (check_ok hrest)
    rw [hend, @drop_split s bounds.nextOffset (s.bytes.length - bounds.nextOffset), hread,
      drop_of_length_le (by omega), append_nil]
  · rw [if_neg htrailer] at h
    obtain ⟨_, _, h⟩ := bind_ok h
    obtain ⟨total, _, h⟩ := bind_ok h
    have hother : b.name ≠ trailerName ++ [0] := by
      intro heq
      have hvalidName := check_ok hvalid
      apply htrailer
      simp only [validateName] at hvalidName ⊢
      rw [hvalidName, Bool.true_and]
      exact beq_iff_eq.mpr heq
    have hentry : ∀ rdev, (parsePayload s bounds.dataOffset ⟨cText (s.readAt (pos + format.headerLen) head.namesize), .reg,
        head.mode, head.uid, head.gid, head.nlink, head.mtime, head.ino % 2 ^ 32, head.device, rdev, head.size, none,
        none⟩ >>= fun entry => .ok (.member entry bounds.nextOffset total)) = .ok step → TurnDone s pos b step := by
      intro rdev hrdev
      obtain ⟨entry, hpayload, hstep⟩ := bind_ok hrdev
      obtain ⟨hmadeName, hmadeSize, hmadeData, hmadeTarget⟩ := parsePayload_ok ⟨rfl, rfl⟩ hpayload
      cases hstep
      refine ⟨hend.symm, hother, ?_, ?_, ?_, ?_, hmadeTarget⟩
      · rw [hmadeName]
        exact htext
      · rw [hmadeName]
        exact hnoNul
      · rw [hmadeSize, hdataLen]
      · rw [hfront, hdataLen]
        exact hmadeData
    dsimp only at h
    split at h
    · obtain ⟨rdev, _, h⟩ := bind_ok h
      exact hentry rdev h
    · exact hentry 0 h

/-! ## Runs -/

theorem Block.Placed.headerLen_le {b : Block} {start : Nat} {head : Header} (h : b.Placed format start head) :
    format.headerLen ≤ b.bytes.length := by
  rw [Block.length_bytes, Block.length_front, h.header_length]
  omega

theorem headerLen_pos (format : Format) : 0 < format.headerLen := by
  cases format with
  | newc => decide
  | odc => decide

theorem guardedEntries_eq (hfuel : s.bytes.length - pos < fuel) (entries : List Member) (bytes : Nat) :
    guardedEntries format s fuel pos entries bytes = said (parseEntries format s fuel pos entries bytes) := by
  induction fuel generalizing pos entries bytes with
  | zero => exact absurd hfuel (Nat.not_lt_zero _)
  | succ fuel ih =>
    unfold guardedEntries parseEntries
    by_cases hroom : pos ≤ s.bytes.length ∧ format.headerLen ≤ s.bytes.length - pos
    · have hinside : pos + format.headerLen ≤ s.bytes.length := by omega
      rw [if_pos hroom, if_pos hroom, guardedMember_eq hinside]
      cases hstep : parseMember format s pos entries.length bytes with
      | error d => rfl
      | ok step =>
        cases step with
        | trailer => rfl
        | member entry next total =>
          obtain ⟨b, head, hplaced, hle, _, hnext, _⟩ := parseMember_ok hinside hstep
          have hheader := hplaced.headerLen_le
          have hpos := headerLen_pos format
          exact ih (by omega) (entries ++ [entry]) total
    · rw [if_neg hroom, if_neg hroom]
      rfl

theorem parseEntries_ok {bytes : Nat} {entries members : List Member} (hpos : pos ≤ s.bytes.length)
    (h : parseEntries format s fuel pos entries bytes = .ok members) :
    ∃ more blocks trailer head zeros, members = entries ++ more ∧ Row format pos more blocks ∧
      s.bytes.drop pos = (blocks.map Block.bytes).flatten ++ trailer.bytes ++ replicate zeros 0 ∧
      trailer.Placed format (pos + (blocks.map Block.bytes).flatten.length) head ∧ IsTrailer trailer := by
  induction fuel generalizing pos entries bytes with
  | zero => cases h
  | succ fuel ih =>
    unfold parseEntries at h
    by_cases hroom : pos ≤ s.bytes.length ∧ format.headerLen ≤ s.bytes.length - pos
    · have hinside : pos + format.headerLen ≤ s.bytes.length := by omega
      rw [if_pos hroom] at h
      cases hstep : parseMember format s pos entries.length bytes with
      | error d => simp [hstep] at h
      | ok step =>
        rw [hstep] at h
        obtain ⟨b, head, hplaced, hle, hbytes, hdone⟩ := parseMember_ok hinside hstep
        cases step with
        | trailer =>
          obtain ⟨htrailer, hzeros⟩ := hdone
          cases h
          refine ⟨[], [], b, head, s.bytes.length - (pos + b.bytes.length), (append_nil _).symm, Row.nil pos, ?_,
            hplaced, htrailer⟩
          rw [hbytes, hzeros]
          rfl
        | member entry next total =>
          obtain ⟨hnext, hother, hholds⟩ := hdone
          rw [hnext] at h
          obtain ⟨more, blocks, trailer, head', zeros, hmembers, hrow, hrest, hlast, htrailer⟩ := ih hle h
          refine ⟨entry :: more, b :: blocks, trailer, head', zeros, ?_, Row.cons hplaced hother hholds hrow, ?_, ?_,
            htrailer⟩
          · rw [hmembers, append_assoc]
            rfl
          · rw [hbytes, hrest, map_cons, flatten_cons]
            simp only [append_assoc]
          · rw [map_cons, flatten_cons, length_append, ← add_assoc]
            exact hlast
    · simp [hroom] at h

end

/-- **Main result.** The reader comes to an end, reads nothing outside the archive and computes no offset that wraps; and
an archive that it accepts is a row of members that touch each other, a trailer without data, and zeros. -/
theorem archive_partitioned (format : Format) (s : Spool) : guardedArchive format s = said (parseArchive format s) ∧
      ∀ members, parseArchive format s = .ok members → ∃ blocks trailer head zeros, Row format 0 members blocks ∧
        s.bytes = (blocks.map Block.bytes).flatten ++ trailer.bytes ++ replicate zeros 0 ∧
        Block.Placed trailer format (blocks.map Block.bytes).flatten.length head ∧ IsTrailer trailer := by
  refine ⟨guardedEntries_eq (by omega) [] 0, ?_⟩
  intro members h
  obtain ⟨more, blocks, trailer, head, zeros, hmembers, hrow, hbytes, hplaced, htrailer⟩ :=
    parseEntries_ok (Nat.zero_le _) h
  rw [nil_append] at hmembers
  rw [drop_zero] at hbytes
  rw [zero_add] at hplaced
  rw [hmembers]
  exact ⟨blocks, trailer, head, zeros, hrow, hbytes, hplaced, htrailer⟩

end Bx.Cpio
