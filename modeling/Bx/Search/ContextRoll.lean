import Bx.Kit.Bytes
import Mathlib.Data.List.DropRight

/-!
# The roll of records before

`src/search/context_roll.c` keeps the texts of a few records in one buffer, and for each record where its text is. Both
are moved to the front of their buffers now and then. There is memory for it.
-/

namespace Bx.ContextRoll

open Kit List

/-! ## The roll -/

structure Record where
  text : Bytes
  byteOffset : Nat
  lineNumber : Nat
  deriving DecidableEq

structure Entry where
  byteIndex : Nat
  len : Nat
  byteOffset : Nat
  lineNumber : Nat

/-- The bytes up to `bytes_len` and the entries up to `entries_len` -/
structure Roll where
  bytes : Bytes := []
  bytesFront : Nat := 0
  bytesCap : Nat := 0
  entries : List Entry := []
  entriesFront : Nat := 0
  entriesCap : Nat := 0

variable (r : Roll)

def initialByteCap : Nat := 4096
def initialEntryCap : Nat := 8

namespace Roll

def activeBytes : Nat := r.bytes.length - r.bytesFront

def count : Nat := r.entries.length - r.entriesFront

def clear : Roll := { r with bytes := [], bytesFront := 0, entries := [], entriesFront := 0 }

def popFront : Roll :=
  match r.entries[r.entriesFront]? with
  | none => r
  | some entry =>
    let r := { r with entriesFront := r.entriesFront + 1, bytesFront := entry.byteIndex + entry.len }
    if r.entriesFront = r.entries.length then r.clear else r

/-- At least `needed`; doubling that often is enough. -/
def doubleTarget (needed : Nat) : Nat → Nat → Nat
  | 0, target => max needed target
  | fuel + 1, target => if target < needed then doubleTarget needed fuel (target * 2) else target

def compactBytes : Roll :=
  if r.bytesFront = 0 then r
  else
    { r with
      bytes := r.bytes.drop r.bytesFront
      bytesFront := 0
      entries := r.entries.take r.entriesFront ++
        (r.entries.drop r.entriesFront).map fun e => { e with byteIndex := e.byteIndex - r.bytesFront } }

def reserveBytes (appendLen : Nat) : Roll :=
  if appendLen ≤ r.bytesCap - r.bytes.length then r
  else
    let needed := r.activeBytes + appendLen
    if 0 < r.bytesFront ∧ needed ≤ r.bytesCap / 2 then r.compactBytes
    else { r.compactBytes with bytesCap := max (doubleTarget needed needed initialByteCap) (needed * 2) }

def compactEntries : Roll :=
  if r.entriesFront = 0 then r else { r with entries := r.entries.drop r.entriesFront, entriesFront := 0 }

def reserveEntry : Roll :=
  if r.entries.length < r.entriesCap then r
  else
    let needed := r.count + 1
    if 0 < r.entriesFront ∧ needed ≤ r.entriesCap / 2 then r.compactEntries
    else { r.compactEntries with entriesCap := doubleTarget needed needed initialEntryCap }

/-- Records are dropped until there is one less than may be kept; `fuel` is how many there are. -/
def makeRoom (maxRecords : Nat) : Nat → Roll → Roll
  | 0, r => r
  | fuel + 1, r => if maxRecords ≤ r.count then makeRoom maxRecords fuel r.popFront else r

def append (x : Record) : Roll :=
  { r with
    entries := r.entries ++ [⟨r.bytes.length, x.text.length, x.byteOffset, x.lineNumber⟩]
    bytes := r.bytes ++ x.text }

def push (x : Record) (maxRecords : Nat) : Roll :=
  if maxRecords = 0 then r.clear
  else ((makeRoom maxRecords r.count r).reserveEntry.reserveBytes x.text.length).append x

def get (index : Nat) : Option Record :=
  if r.count ≤ index then none
  else (r.entries[r.entriesFront + index]?).map fun e =>
    ⟨(r.bytes.drop e.byteIndex).take e.len, e.byteOffset, e.lineNumber⟩

/-! ## What it holds -/

def record (bytes : Bytes) (e : Entry) : Record := ⟨(bytes.drop e.byteIndex).take e.len, e.byteOffset, e.lineNumber⟩

def records : List Record := (r.entries.drop r.entriesFront).map (record r.bytes)

structure Wf (r : Roll) : Prop where
  front_le : r.entriesFront ≤ r.entries.length
  bytesFront_le : r.bytesFront ≤ r.bytes.length
  after_front : ∀ e ∈ r.entries.drop r.entriesFront, r.bytesFront ≤ e.byteIndex
  in_bytes : ∀ e ∈ r.entries.drop r.entriesFront, e.byteIndex + e.len ≤ r.bytes.length
  in_order : (r.entries.drop r.entriesFront).Pairwise fun a b => a.byteIndex + a.len ≤ b.byteIndex

theorem wf_clear : Wf r.clear :=
  ⟨le_rfl, le_rfl, fun _ h => absurd h not_mem_nil, fun _ h => absurd h not_mem_nil, .nil⟩

theorem wf_empty : Wf {} := wf_clear {}

theorem records_clear : r.clear.records = [] := rfl

theorem length_records : r.records.length = r.count := by
  unfold records count
  rw [length_map, length_drop]

theorem get_eq (index : Nat) : r.get index = r.records[index]? := by
  unfold get records
  rw [getElem?_map, getElem?_drop]
  split
  · rename_i hle
    unfold count at hle
    rw [getElem?_eq_none (by omega)]
    rfl
  · rfl

theorem popFront_spec {r : Roll} (h : Wf r) : Wf r.popFront ∧ r.popFront.records = r.records.tail := by
  unfold popFront
  cases hentry : r.entries[r.entriesFront]? with
  | none =>
    refine ⟨h, ?_⟩
    have hle := List.getElem?_eq_none_iff.mp hentry
    unfold records
    rw [drop_eq_nil_of_le hle]
    rfl
  | some entry =>
    obtain ⟨hlt, hget⟩ := List.getElem?_eq_some_iff.mp hentry
    have hdrop : r.entries.drop r.entriesFront = entry :: r.entries.drop (r.entriesFront + 1) := by
      rw [← hget]
      exact drop_eq_getElem_cons hlt
    dsimp only
    by_cases hlast : r.entriesFront + 1 = r.entries.length
    · rw [if_pos hlast]
      refine ⟨wf_clear _, ?_⟩
      unfold records
      rw [hdrop, hlast, drop_length]
      rfl
    · rw [if_neg hlast]
      have horder := h.in_order
      rw [hdrop, pairwise_cons] at horder
      have hmem : entry ∈ r.entries.drop r.entriesFront := by
        rw [hdrop]
        exact mem_cons_self
      refine ⟨⟨?_, h.in_bytes entry hmem, horder.1, ?_, horder.2⟩, ?_⟩
      · show r.entriesFront + 1 ≤ r.entries.length
        omega
      · intro e he
        apply h.in_bytes e
        rw [hdrop]
        exact mem_cons_of_mem _ he
      · unfold records
        rw [hdrop]
        rfl

theorem makeRoom_spec {maxRecords : Nat} (hpos : 0 < maxRecords) {fuel : Nat} {r : Roll} (h : Wf r) (hfuel : r.count ≤ fuel) :
    Wf (makeRoom maxRecords fuel r) ∧
      (makeRoom maxRecords fuel r).records = r.records.drop (r.records.length + 1 - maxRecords) := by
  induction fuel generalizing r with
  | zero =>
    have hnone : r.records = [] := by
      apply length_eq_zero_iff.mp
      rw [length_records]
      omega
    refine ⟨h, ?_⟩
    rw [makeRoom, hnone, drop_nil]
  | succ fuel ih =>
    unfold makeRoom
    have hlength := length_records r
    by_cases hfull : maxRecords ≤ r.count
    · rw [if_pos hfull]
      obtain ⟨hwf, hrecords⟩ := popFront_spec h
      have hlength' := length_records r.popFront
      rw [hrecords, length_tail] at hlength'
      obtain ⟨hwf', heq⟩ := ih hwf (by omega)
      refine ⟨hwf', ?_⟩
      rw [heq, hrecords, length_tail, ← drop_one, drop_drop]
      congr 1
      omega
    · rw [if_neg hfull]
      refine ⟨h, ?_⟩
      have hzero : r.records.length + 1 - maxRecords = 0 := by omega
      rw [hzero]
      rfl

theorem compactBytes_spec {r : Roll} (h : Wf r) : Wf r.compactBytes ∧ r.compactBytes.records = r.records ∧
      r.compactBytes.count = r.count := by
  unfold compactBytes
  by_cases hfront : r.bytesFront = 0
  · rw [if_pos hfront]
    exact ⟨h, rfl, rfl⟩
  · rw [if_neg hfront]
    have hlen : (r.entries.take r.entriesFront).length = r.entriesFront := length_take_of_le h.front_le
    have hdrop : ∀ moved : List Entry, (r.entries.take r.entriesFront ++ moved).drop r.entriesFront = moved := by
      intro moved
      have happend := @drop_left _ (r.entries.take r.entriesFront) moved
      rw [hlen] at happend
      exact happend
    refine ⟨⟨?_, Nat.zero_le _, fun _ _ => Nat.zero_le _, ?_, ?_⟩, ?_, ?_⟩
    · show r.entriesFront ≤ (r.entries.take r.entriesFront ++ _).length
      rw [length_append, hlen]
      exact Nat.le_add_right _ _
    · dsimp only
      rw [hdrop]
      intro e he
      obtain ⟨e', he', rfl⟩ := mem_map.mp he
      have hafter := h.after_front e' he'
      have hin := h.in_bytes e' he'
      rw [length_drop]
      dsimp only
      omega
    · dsimp only
      rw [hdrop, pairwise_map]
      apply h.in_order.imp_of_mem
      intro a b ha _ hle
      have hafter := h.after_front a ha
      dsimp only
      omega
    · unfold records
      dsimp only
      rw [hdrop, map_map]
      apply map_congr_left
      intro e he
      have hafter := h.after_front e he
      show record (r.bytes.drop r.bytesFront) { e with byteIndex := e.byteIndex - r.bytesFront } = record r.bytes e
      unfold record
      dsimp only
      rw [drop_drop, Nat.add_sub_cancel' hafter]
    · unfold count
      dsimp only
      rw [length_append, length_map, length_drop, hlen]
      omega

theorem wf_setCap {r : Roll} (h : Wf r) (bytesCap entriesCap : Nat) :
    Wf { r with bytesCap := bytesCap, entriesCap := entriesCap } :=
  ⟨h.front_le, h.bytesFront_le, h.after_front, h.in_bytes, h.in_order⟩

theorem reserveBytes_spec {r : Roll} (h : Wf r) (appendLen : Nat) :
    Wf (r.reserveBytes appendLen) ∧ (r.reserveBytes appendLen).records = r.records := by
  obtain ⟨hwf, hrecords, _⟩ := compactBytes_spec h
  unfold reserveBytes
  by_cases hfits : appendLen ≤ r.bytesCap - r.bytes.length
  · rw [if_pos hfits]
    exact ⟨h, rfl⟩
  · rw [if_neg hfits]
    dsimp only
    split
    · exact ⟨hwf, hrecords⟩
    · exact ⟨wf_setCap hwf _ _, hrecords⟩

theorem compactEntries_spec {r : Roll} (h : Wf r) : Wf r.compactEntries ∧ r.compactEntries.records = r.records := by
  unfold compactEntries
  by_cases hfront : r.entriesFront = 0
  · rw [if_pos hfront]
    exact ⟨h, rfl⟩
  · rw [if_neg hfront]
    exact ⟨⟨Nat.zero_le _, h.bytesFront_le, h.after_front, h.in_bytes, h.in_order⟩, rfl⟩

theorem reserveEntry_spec {r : Roll} (h : Wf r) : Wf r.reserveEntry ∧ r.reserveEntry.records = r.records := by
  obtain ⟨hwf, hrecords⟩ := compactEntries_spec h
  unfold reserveEntry
  by_cases hfits : r.entries.length < r.entriesCap
  · rw [if_pos hfits]
    exact ⟨h, rfl⟩
  · rw [if_neg hfits]
    dsimp only
    split
    · exact ⟨hwf, hrecords⟩
    · exact ⟨wf_setCap hwf _ _, hrecords⟩

theorem append_spec {r : Roll} (h : Wf r) (x : Record) : Wf (r.append x) ∧ (r.append x).records = r.records ++ [x] := by
  have hdrop : (r.append x).entries.drop r.entriesFront = r.entries.drop r.entriesFront ++
      [⟨r.bytes.length, x.text.length, x.byteOffset, x.lineNumber⟩] :=
    drop_append_of_le_length h.front_le
  have hlen : (r.append x).bytes.length = r.bytes.length + x.text.length := length_append
  have hends : ∀ e ∈ r.entries.drop r.entriesFront, e.byteIndex + e.len ≤ r.bytes.length := h.in_bytes
  refine ⟨⟨?_, ?_, ?_, ?_, ?_⟩, ?_⟩
  · have hle := h.front_le
    show r.entriesFront ≤ (r.entries ++ [_]).length
    rw [length_append]
    omega
  · have hle := h.bytesFront_le
    rw [hlen]
    exact Nat.le_trans hle (Nat.le_add_right _ _)
  · show ∀ e ∈ (r.append x).entries.drop r.entriesFront, r.bytesFront ≤ e.byteIndex
    rw [hdrop]
    intro e he
    cases mem_append.mp he with
    | inl hold => exact h.after_front e hold
    | inr hnew =>
      rw [mem_singleton.mp hnew]
      exact h.bytesFront_le
  · show ∀ e ∈ (r.append x).entries.drop r.entriesFront, e.byteIndex + e.len ≤ (r.append x).bytes.length
    rw [hdrop, hlen]
    intro e he
    cases mem_append.mp he with
    | inl hold => exact Nat.le_trans (h.in_bytes e hold) (Nat.le_add_right _ _)
    | inr hnew => rw [mem_singleton.mp hnew]
  · show ((r.append x).entries.drop r.entriesFront).Pairwise _
    rw [hdrop, pairwise_append]
    refine ⟨h.in_order, pairwise_singleton _ _, ?_⟩
    intro a ha b hb
    rw [mem_singleton.mp hb]
    exact h.in_bytes a ha
  · unfold records
    show ((r.append x).entries.drop r.entriesFront).map (record (r.append x).bytes) = _
    rw [hdrop, map_append, map_singleton]
    have hnew : record (r.append x).bytes ⟨r.bytes.length, x.text.length, x.byteOffset, x.lineNumber⟩ = x := by
      show (⟨((r.bytes ++ x.text).drop r.bytes.length).take x.text.length, x.byteOffset, x.lineNumber⟩ : Record) = x
      rw [drop_left, take_length]
    rw [hnew]
    congr 1
    apply map_congr_left
    intro e he
    show (⟨((r.bytes ++ x.text).drop e.byteIndex).take e.len, e.byteOffset, e.lineNumber⟩ : Record) = record r.bytes e
    have hin := h.in_bytes e he
    rw [drop_append_of_le_length (by omega), take_append_of_le_length (by rw [length_drop]; omega)]
    rfl

theorem push_spec {r : Roll} (h : Wf r) (x : Record) (maxRecords : Nat) :
    Wf (r.push x maxRecords) ∧ (r.push x maxRecords).records = (r.records ++ [x]).rtake maxRecords := by
  unfold push
  by_cases hzero : maxRecords = 0
  · rw [if_pos hzero, hzero, rtake_zero]
    exact ⟨wf_clear r, records_clear r⟩
  · rw [if_neg hzero]
    obtain ⟨hroom, hkept⟩ := makeRoom_spec (by omega : 0 < maxRecords) h (le_rfl)
    obtain ⟨hentry, hsame⟩ := reserveEntry_spec hroom
    obtain ⟨hbytes, hsame'⟩ := reserveBytes_spec hentry x.text.length
    obtain ⟨hwf, hrecords⟩ := append_spec hbytes x
    refine ⟨hwf, ?_⟩
    rw [hrecords, hsame', hsame, hkept]
    unfold rtake
    rw [length_append, length_singleton, drop_append_of_le_length (by omega)]

end Roll

end Bx.ContextRoll
