import Bx.Search.ContextRoll

/-!
# What the roll hands out over a whole run

However often the texts and the entries are moved or get more room, the roll holds the last records that were pushed,
and what it writes lies inside the room that was asked for.
-/

namespace Bx.ContextRoll

open Kit List

/-! ## The last items of a list -/

theorem rtake_rtake_concat {α : Type*} (n : Nat) (xs : List α) (x : α) :
    (xs.rtake n ++ [x]).rtake n = (xs ++ [x]).rtake n := by
  rw [rtake_eq_reverse_take_reverse, rtake_eq_reverse_take_reverse, rtake_eq_reverse_take_reverse,
    reverse_append, reverse_append, reverse_reverse, reverse_singleton, singleton_append,
    singleton_append]
  cases n with
  | zero => rfl
  | succ n => rw [take_succ_cons, take_succ_cons, take_take, min_eq_left (Nat.le_succ n)]

/-! ## Runs -/

inductive Op where
  | push (x : Record)
  | clear

variable (maxRecords : Nat) (ops : List Op) (r : Roll)

namespace Roll

def apply : Op → Roll
  | .push x => r.push x maxRecords
  | .clear => r.clear

def run : Roll := ops.foldl (apply maxRecords) {}

end Roll

def pushed : List Record :=
  ops.foldl (fun records op => match op with | .push x => records ++ [x] | .clear => []) []

theorem pushed_push (x : Record) : pushed (ops ++ [.push x]) = pushed ops ++ [x] := by
  unfold pushed
  rw [foldl_append]
  rfl

theorem pushed_clear : pushed (ops ++ [.clear]) = [] := by
  unfold pushed
  rw [foldl_append]
  rfl

/-! ## Room -/

structure Roll.Fits (r : Roll) : Prop where
  bytes : r.bytes.length ≤ r.bytesCap
  entries : r.entries.length ≤ r.entriesCap

namespace Roll

theorem le_doubleTarget (needed fuel target : Nat) (h : needed < target * 2 ^ fuel ∨ needed ≤ target) :
    needed ≤ doubleTarget needed fuel target := by
  induction fuel generalizing target with
  | zero => exact Nat.le_max_left _ _
  | succ fuel ih =>
    unfold doubleTarget
    by_cases hsmall : target < needed
    · rw [if_pos hsmall]
      apply ih
      left
      rw [mul_assoc, ← Nat.pow_succ']
      cases h with
      | inl h => exact h
      | inr h => omega
    · rw [if_neg hsmall]
      omega

theorem fits_clear : Fits r.clear := ⟨Nat.zero_le _, Nat.zero_le _⟩

theorem fits_popFront {r : Roll} (h : Fits r) : Fits r.popFront := by
  unfold popFront
  cases r.entries[r.entriesFront]? with
  | none => exact h
  | some entry =>
    dsimp only
    split
    · exact ⟨Nat.zero_le _, Nat.zero_le _⟩
    · exact ⟨h.bytes, h.entries⟩

theorem fits_makeRoom {r : Roll} (h : Fits r) (maxRecords fuel : Nat) : Fits (makeRoom maxRecords fuel r) := by
  induction fuel generalizing r with
  | zero => exact h
  | succ fuel ih =>
    unfold makeRoom
    split
    · exact ih (fits_popFront h)
    · exact h

theorem compactBytes_room :
    r.compactBytes.bytes.length = r.activeBytes ∧ r.compactBytes.entries.length = r.entries.length ∧
      r.compactBytes.bytesCap = r.bytesCap ∧ r.compactBytes.entriesCap = r.entriesCap := by
  unfold compactBytes activeBytes
  by_cases hfront : r.bytesFront = 0
  · rw [if_pos hfront, hfront]
    exact ⟨rfl, rfl, rfl, rfl⟩
  · rw [if_neg hfront]
    refine ⟨length_drop, ?_, rfl, rfl⟩
    dsimp only
    rw [length_append, length_map, ← length_append, take_append_drop]

theorem reserveBytes_room {r : Roll} (h : Fits r) (appendLen : Nat) :
    (r.reserveBytes appendLen).bytes.length + appendLen ≤ (r.reserveBytes appendLen).bytesCap ∧
      (r.reserveBytes appendLen).entries.length = r.entries.length ∧
      (r.reserveBytes appendLen).entriesCap = r.entriesCap := by
  obtain ⟨hbytes, hentries, hcap, hcap'⟩ := compactBytes_room r
  have hfit := h.bytes
  unfold reserveBytes
  by_cases hfits : appendLen ≤ r.bytesCap - r.bytes.length
  · rw [if_pos hfits]
    exact ⟨by omega, rfl, rfl⟩
  · rw [if_neg hfits]
    dsimp only
    by_cases hhalf : 0 < r.bytesFront ∧ r.activeBytes + appendLen ≤ r.bytesCap / 2
    · rw [if_pos hhalf]
      refine ⟨?_, hentries, hcap'⟩
      rw [hbytes, hcap]
      omega
    · rw [if_neg hhalf]
      refine ⟨?_, hentries, hcap'⟩
      show r.compactBytes.bytes.length + appendLen ≤ max _ ((r.activeBytes + appendLen) * 2)
      rw [hbytes]
      omega

theorem reserveEntry_room :
    r.reserveEntry.entries.length + 1 ≤ r.reserveEntry.entriesCap ∧ r.reserveEntry.bytes = r.bytes ∧
      r.reserveEntry.bytesCap = r.bytesCap := by
  have hcompact : r.compactEntries.entries.length = r.count ∧ r.compactEntries.entriesCap = r.entriesCap ∧
      r.compactEntries.bytes = r.bytes ∧ r.compactEntries.bytesCap = r.bytesCap := by
    unfold compactEntries count
    by_cases hfront : r.entriesFront = 0
    · rw [if_pos hfront, hfront]
      exact ⟨rfl, rfl, rfl, rfl⟩
    · rw [if_neg hfront]
      exact ⟨length_drop, rfl, rfl, rfl⟩
  obtain ⟨hlen, hcap, hbytes, hbytesCap⟩ := hcompact
  unfold reserveEntry
  by_cases hfits : r.entries.length < r.entriesCap
  · rw [if_pos hfits]
    exact ⟨hfits, rfl, rfl⟩
  · rw [if_neg hfits]
    dsimp only
    by_cases hhalf : 0 < r.entriesFront ∧ r.count + 1 ≤ r.entriesCap / 2
    · rw [if_pos hhalf]
      refine ⟨?_, hbytes, hbytesCap⟩
      rw [hlen, hcap]
      omega
    · rw [if_neg hhalf]
      refine ⟨?_, hbytes, hbytesCap⟩
      show r.compactEntries.entries.length + 1 ≤ doubleTarget (r.count + 1) (r.count + 1) initialEntryCap
      rw [hlen]
      apply le_doubleTarget
      left
      have hpow := @Nat.lt_two_pow_self (r.count + 1)
      have hmul : 2 ^ (r.count + 1) ≤ initialEntryCap * 2 ^ (r.count + 1) := Nat.le_mul_of_pos_left _ (by decide)
      omega

theorem fits_push {r : Roll} (h : Fits r) (x : Record) (maxRecords : Nat) : Fits (r.push x maxRecords) := by
  unfold push
  by_cases hzero : maxRecords = 0
  · rw [if_pos hzero]
    exact fits_clear r
  · rw [if_neg hzero]
    have hroom := fits_makeRoom h maxRecords r.count
    obtain ⟨hentry, hbytes, hbytesCap⟩ := reserveEntry_room (makeRoom maxRecords r.count r)
    have hfits : Fits (makeRoom maxRecords r.count r).reserveEntry := by
      refine ⟨?_, Nat.le_of_succ_le hentry⟩
      rw [hbytes, hbytesCap]
      exact hroom.bytes
    obtain ⟨htext, hentries, hentriesCap⟩ := reserveBytes_room hfits x.text.length
    refine ⟨?_, ?_⟩
    · unfold append
      dsimp only
      rw [length_append]
      exact htext
    · unfold append
      dsimp only
      rw [length_append, length_singleton, hentries, hentriesCap]
      exact hentry

theorem run_concat (op : Op) : run maxRecords (ops ++ [op]) = (run maxRecords ops).apply maxRecords op := by
  unfold run
  rw [foldl_append]
  rfl

theorem run_spec : Wf (run maxRecords ops) ∧ Fits (run maxRecords ops) ∧
      (run maxRecords ops).records = (pushed ops).rtake maxRecords := by
  induction ops using reverseRecOn with
  | nil =>
    refine ⟨wf_empty, ⟨le_rfl, le_rfl⟩, ?_⟩
    unfold pushed rtake
    rw [foldl_nil, drop_nil]
    rfl
  | append_singleton ops op ih =>
    obtain ⟨hwf, hfits, hrecords⟩ := ih
    rw [run_concat]
    cases op with
    | push x =>
      obtain ⟨hwf', hrecords'⟩ := push_spec hwf x maxRecords
      refine ⟨hwf', fits_push hfits x maxRecords, ?_⟩
      rw [pushed_push, ← rtake_rtake_concat, ← hrecords]
      exact hrecords'
    | clear =>
      refine ⟨wf_clear _, fits_clear _, ?_⟩
      rw [pushed_clear]
      unfold rtake
      rw [drop_nil]
      exact records_clear _

/-- **Main result.** After any run there are as many records as were pushed since the
last clear, but no more than are kept, and the i-th one is the i-th oldest of the last ones. -/
theorem run_count_get (maxRecords : Nat) (ops : List Op) :
    (run maxRecords ops).count = min maxRecords (pushed ops).length ∧
      (∀ i, (run maxRecords ops).get i = ((pushed ops).rtake maxRecords)[i]?) ∧
      Fits (run maxRecords ops) := by
  obtain ⟨_, hfits, hrecords⟩ := run_spec maxRecords ops
  refine ⟨?_, ?_, hfits⟩
  · rw [← length_records, hrecords]
    unfold rtake
    rw [length_drop]
    omega
  · intro i
    rw [get_eq, hrecords]

end Roll

end Bx.ContextRoll
