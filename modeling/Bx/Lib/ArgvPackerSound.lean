import Bx.Lib.ArgvPacker
import Mathlib.Algebra.Order.BigOperators.Group.List

/-!
# The batches are greedy

What a call keeps while it takes items: those it has taken fit, their lines have been
counted, and every size on the way could be measured.
-/

namespace Bx.ArgvPacker

open Kit List

/-! ## Measuring -/

theorem addStrings_eq {args : List Bytes} {total argc : Nat} (htotal : total ≤ sizeMax) (hargc : argc ≤ intMax) :
    addStrings args (total, argc) =
      if total + Request.stringSizes args ≤ sizeMax ∧ argc + args.length ≤ intMax then
        some (total + Request.stringSizes args, argc + args.length)
      else none := by
  induction args generalizing total argc with
  | nil =>
    rw [if_pos ⟨htotal, hargc⟩]
    rfl
  | cons arg args ih =>
    have hsizes : Request.stringSizes (arg :: args) = arg.length + 1 + Request.stringSizes args := sum_cons
    unfold addStrings stringBytes
    rw [hsizes, length_cons]
    by_cases hlength : arg.length = sizeMax
    · rw [if_pos hlength, Option.bind_none, if_neg (by omega)]
    · rw [if_neg hlength, Option.bind_some]
      unfold addSize
      by_cases hover : sizeMax - total < arg.length + 1
      · rw [if_pos hover, Option.bind_none, if_neg (by omega)]
      · rw [if_neg hover, Option.bind_some]
        unfold countOne
        by_cases hfull : argc = intMax
        · rw [if_pos hfull, Option.bind_none, if_neg (by omega)]
        · rw [if_neg hfull, Option.bind_some, ih (by omega) (by omega)]
          have hsum : total + (arg.length + 1) + Request.stringSizes args =
              total + (arg.length + 1 + Request.stringSizes args) := add_assoc _ _ _
          have hcount : argc + 1 + args.length = argc + (args.length + 1) := by omega
          rw [hsum, hcount]

namespace Request

variable {r : Request} {start count : Nat}

theorem bytesWithItems_eq (hcount : 0 < count) (hinside : start + count ≤ r.itemCount) :
    (bytesWithItems r.baseArgv r.items start count = sizeMax ↔ ¬r.Measurable start count) ∧
      (r.Measurable start count → bytesWithItems r.baseArgv r.items start count = r.batchBytes start count) := by
  have hlength : ((r.items.drop start).take count).length = count := by
    unfold itemCount at hinside
    rw [length_take, length_drop]
    omega
  have hmax : sizeMax / sizeofPointer = 2305843009213693951 := by decide
  have hint : intMax = 2147483647 := rfl
  unfold bytesWithItems Measurable batchBytes
  generalize hitems : (r.items.drop start).take count = items at hlength ⊢
  by_cases hplace : 0 < count ∧ intMax - (count - 1) < start
  · rw [if_pos hplace]
    exact ⟨iff_of_true rfl (by omega), fun h => by omega⟩
  · rw [if_neg hplace, addStrings_eq (Nat.zero_le _) (Nat.zero_le _)]
    simp only [zero_add]
    by_cases hbase : stringSizes r.baseArgv ≤ sizeMax ∧ r.baseArgv.length ≤ intMax
    · rw [if_pos hbase, Option.bind_some, addStrings_eq hbase.1 hbase.2, hlength]
      by_cases hboth : stringSizes r.baseArgv + stringSizes items ≤ sizeMax ∧ r.baseArgv.length + count ≤ intMax
      · rw [if_pos hboth, Option.bind_some]
        unfold pointerBytes addSize
        rw [if_neg (by omega), Option.bind_some]
        dsimp only
        by_cases hover : sizeMax - (stringSizes r.baseArgv + stringSizes items) < (r.baseArgv.length + count) * sizeofPointer
        · rw [if_pos hover, Option.getD_none]
          exact ⟨iff_of_true rfl (by omega), fun h => by omega⟩
        · rw [if_neg hover, Option.getD_some]
          exact ⟨by omega, fun _ => rfl⟩
      · rw [if_neg hboth, Option.bind_none, Option.getD_none]
        exact ⟨iff_of_true rfl (by omega), fun h => by omega⟩
    · rw [if_neg hbase, Option.bind_none, Option.bind_none, Option.getD_none]
      exact ⟨iff_of_true rfl (by omega), fun h => by omega⟩

/-! ## More items -/

theorem stringSizes_sublist {args args' : List Bytes} (h : args.Sublist args') : stringSizes args ≤ stringSizes args' :=
  (h.map _).sum_le_sum fun _ _ => Nat.zero_le _

theorem batchBytes_mono {more : Nat} (h : count ≤ more) : r.batchBytes start count ≤ r.batchBytes start more := by
  have hsizes := stringSizes_sublist ((r.items.drop start).take_sublist_take_left h)
  unfold batchBytes sizeofPointer
  omega

theorem lineCount_mono {more : Nat} (h : count ≤ more) : r.lineCount start count ≤ r.lineCount start more := by
  induction more with
  | zero => rw [Nat.le_zero.mp h]
  | succ more ih =>
    by_cases heq : count = more + 1
    · rw [heq]
    · exact Nat.le_trans (ih (by omega)) (Nat.le_add_right _ _)

theorem lineCount_le (start count : Nat) : r.lineCount start count ≤ count := by
  induction count with
  | zero => exact le_rfl
  | succ count ih =>
    unfold lineCount
    split <;> omega

variable {more : Nat}

theorem Allows.mono (h : r.Allows start more) (hle : count ≤ more) : r.Allows start count := by
  have hlines := @lineCount_mono r start count more hle
  refine ⟨?_, ?_⟩
  · intro hpos
    have hargs := h.1 hpos
    omega
  · intro hpos
    have hmax := h.2 hpos
    omega

theorem Fits.mono (h : r.Fits start more) (hle : count ≤ more) : r.Fits start count := by
  refine ⟨h.1.mono hle, ?_⟩
  intro hpos
  exact Nat.le_trans (batchBytes_mono hle) (h.2 hpos)

theorem Measurable.mono (h : r.Measurable start more) (hle : count ≤ more) : r.Measurable start count := by
  have hbytes := @batchBytes_mono r start count more hle
  obtain ⟨hsize, hargc, hplace⟩ := h
  exact ⟨by omega, by omega, by omega⟩

theorem Fits.alone (h : r.Fits start count) {i : Nat} (hi : start ≤ i) (hlt : i < start + count) : r.Fits i 1 := by
  have hone : r.lineCount i 1 = 1 := rfl
  have hfirst : r.lineCount start 1 = 1 := rfl
  have hlines := @lineCount_mono r start 1 count (by omega)
  obtain ⟨⟨hargs, hlimit⟩, hbytes⟩ := h
  refine ⟨⟨?_, ?_⟩, ?_⟩
  · intro hpos
    have hmax := hargs hpos
    omega
  · intro hpos
    have hmax := hlimit hpos
    omega
  · intro hpos
    refine Nat.le_trans ?_ (hbytes hpos)
    have hsub : ((r.items.drop i).take 1).Sublist ((r.items.drop start).take count) := by
      have hdrop : (r.items.drop i).take 1 = ((r.items.drop start).take (i - start + 1)).drop (i - start) := by
        rw [← take_drop, drop_drop, Nat.add_sub_cancel' hi]
      rw [hdrop]
      exact (drop_sublist _ _).trans (take_sublist_take_left (by omega))
    have hsizes := stringSizes_sublist hsub
    unfold batchBytes sizeofPointer
    omega

/-! ## One call -/

structure Taken (r : Request) (start : Nat) (t : Taking) : Prop where
  inside : start + t.take ≤ r.itemCount
  lines : t.usedLines = r.lineCount start t.take
  last : 0 < t.take → t.lastGroup = r.group (start + t.take - 1)
  fits : 0 < t.take → r.Fits start t.take
  measured : 0 < t.take → r.Measurable start t.take

/-- The result of a call: a greedy batch, or nothing where the selection has to stop -/
def Selects (r : Request) (start : Nat) : Option Nat → Prop
  | some count => GreedyBatch r.itemCount r.Fits start count ∧ ¬r.Stops start
  | none => r.Stops start

variable {t : Taking}

theorem finish_selects (ht : Taken r start t) (hstart : start < r.itemCount)
    (hnext : start + t.take < r.itemCount → ¬r.Fits start (t.take + 1) ∧
      (r.Allows start (t.take + 1) → r.Measurable start (t.take + 1))) :
    Selects r start (finish t) := by
  unfold finish
  by_cases hpos : 0 < t.take
  · rw [if_pos hpos]
    refine ⟨⟨hpos, ht.inside, ht.fits hpos, fun h => (hnext h).1⟩, ?_⟩
    intro hstops
    cases hstops with
    | inl hone => exact hone ((ht.fits hpos).mono hpos)
    | inr hover =>
      obtain ⟨count, hinside, hfits, hallows, hunmeasured⟩ := hover
      have hle : t.take ≤ count := by
        apply Nat.le_of_not_lt
        intro hlt
        exact hunmeasured ((ht.measured hpos).mono hlt)
      obtain ⟨hmaximal, hmeasured⟩ := hnext (by omega)
      by_cases heq : count = t.take
      · rw [heq] at hallows hunmeasured
        exact hunmeasured (hmeasured hallows)
      · exact hmaximal ((hfits (by omega)).mono (by omega))
  · rw [if_neg hpos]
    have hzero : t.take = 0 := by omega
    rw [hzero] at hnext
    exact .inl (hnext hstart).1

theorem Taken.newGroup_iff (ht : Taken r start t) : (t.take = 0 ∨ r.group (start + t.take) ≠ t.lastGroup) ↔
      (t.take = 0 ∨ r.group (start + t.take) ≠ r.group (start + t.take - 1)) := by
  by_cases hzero : t.take = 0
  · exact iff_of_true (.inl hzero) (.inl hzero)
  · rw [ht.last (by omega)]

theorem Taken.allows_iff (ht : Taken r start t) (hlt : start + t.take < r.itemCount) :
    r.Allows start (t.take + 1) ↔ t.take < r.cappedArgs start ∧
      ¬((t.take = 0 ∨ r.group (start + t.take) ≠ t.lastGroup) ∧ r.cappedLines start ≤ t.usedLines) := by
  have hlines : r.lineCount start (t.take + 1) = r.lineCount start t.take +
      if t.take = 0 ∨ r.group (start + t.take) ≠ r.group (start + t.take - 1) then 1 else 0 := rfl
  have hle := @lineCount_le r start t.take
  have hused := ht.lines
  have hold : 0 < t.take → 0 < r.maxLines → (r.lineCount start t.take : Int) ≤ r.maxLines :=
    fun hpos => (ht.fits hpos).1.2
  unfold Allows cappedArgs cappedLines
  rw [ht.newGroup_iff, hlines]
  refine and_congr ?_ ?_
  · by_cases hargs : 0 < r.maxArgs
    · rw [if_pos hargs]
      refine ⟨fun h => ?_, fun h _ => ?_⟩
      · have hmax := h hargs
        omega
      · omega
    · rw [if_neg hargs]
      exact iff_of_true (fun h => absurd h hargs) (by omega)
  · by_cases hnew : t.take = 0 ∨ r.group (start + t.take) ≠ r.group (start + t.take - 1)
    · rw [if_pos hnew]
      by_cases hmax : 0 < r.maxLines
      · rw [if_pos hmax]
        refine ⟨fun h hcapped => ?_, fun h _ => ?_⟩
        · have hfits := h hmax
          have hfull := hcapped.2
          omega
        · have hroom : ¬r.maxLines.toNat ≤ t.usedLines := fun hfull => h ⟨hnew, hfull⟩
          omega
      · rw [if_neg hmax]
        refine iff_of_true (fun h => absurd h hmax) (fun hcapped => ?_)
        have hfull := hcapped.2
        omega
    · rw [if_neg hnew, add_zero]
      exact iff_of_true (hold (by omega)) (fun hcapped => hnew hcapped.1)

theorem Taken.next {t : Taking} (ht : Taken r start t) (hlt : start + t.take < r.itemCount)
    (hfits : r.Fits start (t.take + 1)) (hmeasured : r.Measurable start (t.take + 1)) :
    Taken r start (if t.take = 0 ∨ r.group (start + t.take) ≠ t.lastGroup then
      ⟨t.take + 1, t.usedLines + 1, r.group (start + t.take)⟩ else { t with take := t.take + 1 }) := by
  have hlines : r.lineCount start (t.take + 1) = r.lineCount start t.take +
      if t.take = 0 ∨ r.group (start + t.take) ≠ r.group (start + t.take - 1) then 1 else 0 := rfl
  have hused := ht.lines
  have hiff := ht.newGroup_iff
  by_cases hnew : t.take = 0 ∨ r.group (start + t.take) ≠ t.lastGroup
  · rw [if_pos (hiff.mp hnew)] at hlines
    rw [if_pos hnew]
    refine ⟨hlt, ?_, fun _ => rfl, fun _ => hfits, fun _ => hmeasured⟩
    rw [hlines, hused]
  · rw [if_neg fun h => hnew (hiff.mpr h)] at hlines
    rw [if_neg hnew]
    refine ⟨hlt, ?_, ?_, fun _ => hfits, fun _ => hmeasured⟩
    · rw [hlines]
      exact hused
    · intro _
      obtain ⟨_, hsame⟩ := not_or.mp hnew
      exact (not_not.mp hsame).symm

theorem selectFrom_selects (hstart : start < r.itemCount) {fuel : Nat} (ht : Taken r start t)
    (hfuel : r.itemCount - (start + t.take) < fuel) : Selects r start (r.selectFrom start fuel t) := by
  induction fuel generalizing t with
  | zero => exact absurd hfuel (Nat.not_lt_zero _)
  | succ fuel ih =>
    unfold selectFrom
    by_cases hmore : start + t.take < r.itemCount ∧ t.take < r.cappedArgs start
    · obtain ⟨hlt, hargs⟩ := hmore
      have hallowed := ht.allows_iff hlt
      rw [if_pos ⟨hlt, hargs⟩]
      dsimp only
      by_cases hfull : (t.take = 0 ∨ r.group (start + t.take) ≠ t.lastGroup) ∧ r.cappedLines start ≤ t.usedLines
      · have hnot : ¬r.Allows start (t.take + 1) := fun h => (hallowed.mp h).2 hfull
        rw [if_pos hfull]
        exact finish_selects ht hstart fun _ => ⟨fun h => hnot h.1, fun h => absurd h hnot⟩
      · have hallows := hallowed.mpr ⟨hargs, hfull⟩
        obtain ⟨hunmeasured, hbytes⟩ := @bytesWithItems_eq r start (t.take + 1) (Nat.succ_pos _) hlt
        rw [if_neg hfull]
        by_cases hover : bytesWithItems r.baseArgv r.items start (t.take + 1) = sizeMax
        · rw [if_pos hover]
          exact .inr ⟨t.take, hlt, ht.fits, hallows, hunmeasured.mp hover⟩
        · have hmeasured : r.Measurable start (t.take + 1) := not_not.mp fun h => hover (hunmeasured.mpr h)
          rw [if_neg hover, hbytes hmeasured]
          by_cases hlimit : 0 < r.charLimit ∧ r.charLimit < r.batchBytes start (t.take + 1)
          · rw [if_pos hlimit]
            refine finish_selects ht hstart fun _ => ⟨fun h => ?_, fun _ => hmeasured⟩
            have hle := h.2 hlimit.1
            omega
          · rw [if_neg hlimit]
            have hfits : r.Fits start (t.take + 1) := ⟨hallows, fun hpos => by omega⟩
            apply ih (ht.next hlt hfits hmeasured)
            split
            · dsimp only
              omega
            · dsimp only
              omega
    · rw [if_neg hmore]
      refine finish_selects ht hstart fun hlt => ?_
      have hnot : ¬r.Allows start (t.take + 1) := fun h => hmore ⟨hlt, ((ht.allows_iff hlt).mp h).1⟩
      exact ⟨fun h => hnot h.1, fun h => absurd h hnot⟩

theorem selectBatchCount_selects (hstart : start < r.itemCount) : Selects r start (r.selectBatchCount start) := by
  unfold selectBatchCount
  rw [if_neg (by omega)]
  refine selectFrom_selects hstart ⟨le_of_lt hstart, rfl, ?_, ?_, ?_⟩ (by dsimp only; omega)
  · exact fun h => absurd h (lt_irrefl 0)
  · exact fun h => absurd h (lt_irrefl 0)
  · exact fun h => absurd h (lt_irrefl 0)

/-! ## All calls -/

theorem selectAll_packs (r : Request) : Packs r.itemCount r.Fits r.Stops 0 r.selectAll.1 r.selectAll.2 := by
  refine packAll_packs ?_ ?_ (Nat.zero_le _) (le_rfl)
  · intro start count hstart hselect
    have hspec := @selectBatchCount_selects r start hstart
    rw [hselect] at hspec
    exact hspec
  · intro start hstart hselect
    have hspec := @selectBatchCount_selects r start hstart
    rw [hselect] at hspec
    exact hspec

/-- **Main result.** The batches are greedy and cover all items once, up to where the first item of a
batch does not fit alone or a batch cannot be measured; every item in front of that fits alone. -/
theorem selectAll_greedy (r : Request) : Packs r.itemCount r.Fits r.Stops 0 r.selectAll.1 r.selectAll.2 ∧
      r.selectAll.1.sum = r.selectAll.2.getD r.itemCount ∧
      ∀ i < r.selectAll.2.getD r.itemCount, r.Fits i 1 := by
  have hpacks := selectAll_packs r
  refine ⟨hpacks, ?_, ?_⟩
  · have hsum := hpacks.sum
    rwa [zero_add] at hsum
  · intro i hi
    exact hpacks.fits_alone (fun start count j hfits hle hlt => hfits.alone hle hlt) (Nat.zero_le i) hi

theorem not_packs_of_stops (hfits : r.Fits 0 1) (hcount : 0 < r.itemCount) (hstops : r.Stops 0) :
    ¬Packs r.itemCount r.Fits (fun start => ¬r.Fits start 1) 0 r.selectAll.1 r.selectAll.2 := by
  intro hpacks
  have hown := selectAll_packs r
  generalize r.selectAll = out at hpacks hown
  obtain ⟨counts, stop⟩ := out
  generalize r.itemCount = n at hcount hpacks hown
  cases hown with
  | done => exact lt_irrefl _ hcount
  | stop _ _ =>
    cases hpacks with
    | stop _ hnot => exact hnot hfits
  | batch _ _ hgoes _ => exact hgoes hstops

def uniformRequest (count length : Nat) : Request := ⟨[], replicate count (replicate length 97), none, 0, 0, 0⟩

theorem uniformRequest_fits (count length : Nat) (start more : Nat) : (uniformRequest count length).Fits start more :=
  ⟨⟨fun hpos => absurd hpos (Int.lt_irrefl 0), fun hpos => absurd hpos (Int.lt_irrefl 0)⟩,
    fun hpos => absurd hpos (lt_irrefl 0)⟩

theorem uniformRequest_batchBytes (count length : Nat) :
    (uniformRequest count length).batchBytes 0 count = count * (length + 1) + count * sizeofPointer := by
  unfold batchBytes stringSizes uniformRequest
  rw [drop_zero, take_of_length_le (by rw [length_replicate]), map_replicate, length_replicate,
    sum_replicate, map_nil, sum_nil, length_nil, zero_add, zero_add, nsmul_eq_mul, Nat.cast_id]

theorem uniformRequest_stops {count length : Nat} (hover : sizeMax ≤ (count + 1) * (length + 1)) :
    (uniformRequest (count + 1) length).Stops 0 := by
  refine .inr ⟨count, ?_, fun _ => uniformRequest_fits _ _ _ _, (uniformRequest_fits _ _ 0 (count + 1)).1, ?_⟩
  · show 0 + count < (replicate (count + 1) _).length
    rw [length_replicate]
    omega
  · intro hmeasured
    have hlt := hmeasured.1
    rw [uniformRequest_batchBytes] at hlt
    omega

/-- Three items of 2^63 - 2 bytes fit one by one, but cannot be measured together. -/
theorem not_selectAll_greedy :
    ¬∀ r : Request, Packs r.itemCount r.Fits (fun start => ¬r.Fits start 1) 0 r.selectAll.1 r.selectAll.2 := by
  intro h
  have hcount : 0 < (uniformRequest 3 (2 ^ 63 - 2)).itemCount := by
    show 0 < (replicate 3 _).length
    rw [length_replicate]
    decide
  exact not_packs_of_stops (uniformRequest_fits 3 (2 ^ 63 - 2) 0 1) hcount (uniformRequest_stops (by decide))
    (h (uniformRequest 3 (2 ^ 63 - 2)))

end Request

end Bx.ArgvPacker
