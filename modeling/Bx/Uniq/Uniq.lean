import Bx.Kit.Bytes
import Bx.Kit.Delimited
import Mathlib.Data.List.SplitBy

/-!
# uniq

The comparison part of a record and the loop over the records from `src/applets/base/uniq/uniq.c`, where neither reading
nor writing fails. What is reported are the maximal runs of records with equal comparison parts.
-/

namespace Bx.Uniq

open Kit List

structure Opts where
  count : Bool := false
  repeated : Bool := false
  unique : Bool := false
  ignoreCase : Bool := false
  skipFields : Nat := 0
  skipChars : Nat := 0
  checkChars : Nat := 0
  checkCharsSet : Bool := false
  zeroTerminated : Bool := false

-- `tolower` is that of the locale
variable (tolower : UInt8 → UInt8) (opts : Opts)

def delimiter : UInt8 := if opts.zeroTerminated then 0 else 10

variable (content : Bytes)

/-- What `getdelim` returns call by call -/
def readRecords : List Bytes := delimited (delimiter opts) content

/-! ## Comparing records -/

variable (record : Bytes)

def compareLen : Nat :=
  if record.getLast? = some (delimiter opts) then record.length - 1 else record.length

def isBlank (c : UInt8) : Bool := c = 32 || c = 9

def skipFields : Nat → Bytes → Bytes
  | 0, rest => rest
  | fields + 1, rest =>
    if rest = [] then [] else skipFields fields ((rest.dropWhile isBlank).dropWhile fun c => !isBlank c)

/-- What stands from the position of `skip_to_compare` on -/
def skipToCompare (data : Bytes) : Bytes :=
  let rest := skipFields opts.skipFields data
  if rest.length < opts.skipChars then [] else rest.drop opts.skipChars

def comparedPart : Bytes :=
  let remaining := skipToCompare opts (record.take (compareLen opts record))
  if opts.checkCharsSet then remaining.take opts.checkChars else remaining

def foldCase (c : UInt8) : UInt8 := if opts.ignoreCase then tolower c else c

def byteCompare : Bytes → Bytes → Ordering
  | c₁ :: s₁, c₂ :: s₂ =>
    if foldCase tolower opts c₁ = foldCase tolower opts c₂ then byteCompare s₁ s₂
    else if foldCase tolower opts c₁ < foldCase tolower opts c₂ then .lt else .gt
  | _, _ => .eq

def lineCompare (a b : Bytes) : Ordering :=
  let aPart := comparedPart opts a
  let bPart := comparedPart opts b
  let common := min aPart.length bPart.length
  match byteCompare tolower opts (aPart.take common) (bPart.take common) with
  | .eq => if aPart.length = bPart.length then .eq else if aPart.length < bPart.length then .lt else .gt
  | cmp => cmp

/-! ## The loop -/

def shouldPrint (count : Nat) : Bool := !(opts.repeated && count = 1 || opts.unique && 1 < count)

def countPrefix (count : Nat) : Bytes := replicate (7 - (numeral 10 count).length) 32 ++ numeral 10 count ++ [32]

def emitRecord (group : Nat × Bytes) : Bytes := (if opts.count then countPrefix group.1 else []) ++ group.2

structure State where
  prev : Option Bytes := none
  count : Nat := 0
  printed : List (Nat × Bytes) := []

/-- A group that has ended -/
def flush (s : State) : List (Nat × Bytes) :=
  match s.prev with
  | none => s.printed
  | some prev => if shouldPrint opts s.count then s.printed ++ [(s.count, prev)] else s.printed

def readRecord (s : State) (record : Bytes) : State :=
  match s.prev with
  | none => { s with prev := some record, count := 1 }
  | some prev =>
    if lineCompare tolower opts record prev = .eq then { s with count := s.count + 1 }
    else ⟨some record, 1, flush opts s⟩

/-- The groups that are printed for these records -/
def groups (records : List Bytes) : List (Nat × Bytes) := flush opts (records.foldl (readRecord tolower opts) {})

def doUniq : List (Nat × Bytes) := groups tolower opts (readRecords opts content)

def output : Bytes := (doUniq tolower opts content).flatMap (emitRecord opts)

def comparisonKey : Bytes := (comparedPart opts record).map (foldCase tolower opts)

section
variable {tolower : UInt8 → UInt8} {opts : Opts}

variable {a b : Bytes}

theorem byteCompare_eq (h : a.length = b.length) :
    byteCompare tolower opts a b = .eq ↔ a.map (foldCase tolower opts) = b.map (foldCase tolower opts) := by
  induction a generalizing b with
  | nil => rw [eq_nil_of_length_eq_zero h.symm]; exact ⟨fun _ => rfl, fun _ => rfl⟩
  | cons c a ih =>
    obtain ⟨d, b, rfl⟩ := exists_cons_of_length_pos (show 0 < b.length by rw [← h]; exact Nat.succ_pos _)
    rw [map_cons, map_cons, cons_eq_cons, byteCompare]
    by_cases hc : foldCase tolower opts c = foldCase tolower opts d
    · rw [if_pos hc, ih (Nat.succ.inj h), and_iff_right hc]
    · rw [if_neg hc]
      refine ⟨?_, fun heq => absurd heq.1 hc⟩
      split <;> exact (nomatch ·)

theorem lineCompare_eq :
    lineCompare tolower opts a b = .eq ↔ comparisonKey tolower opts a = comparisonKey tolower opts b := by
  unfold lineCompare comparisonKey
  generalize comparedPart opts a = aPart
  generalize comparedPart opts b = bPart
  dsimp only
  by_cases hlength : aPart.length = bPart.length
  · rw [hlength, Nat.min_self, take_length, ← hlength, take_length, ← byteCompare_eq hlength]
    split
    · rw [if_pos rfl]
      exact ⟨fun _ => ‹_›, fun _ => rfl⟩
    · exact Iff.rfl
  · refine ⟨?_, fun heq => absurd (by simpa using congrArg length heq) hlength⟩
    split
    · rw [if_neg hlength]
      split <;> exact (nomatch ·)
    · exact fun h => absurd h ‹_›

end

/-! ## The runs -/

/-- The records are cut where neighbours differ in their keys, and nowhere else. -/
structure MaximalRuns {α κ : Type*} (key : α → κ) (records : List α) (runs : List (List α)) : Prop where
  joined : runs.flatten = records
  nonempty : [] ∉ runs
  alike : ∀ run ∈ runs, ∀ a ∈ run, ∀ b ∈ run, key a = key b
  apart : runs.IsChain fun run next => ∀ a ∈ run, ∀ b ∈ next, key a ≠ key b

section
variable {α κ : Type*} [DecidableEq κ] {key : α → κ} {records : List α} {runs : List (List α)}

def sameKey (key : α → κ) (a b : α) : Bool := key a = key b

theorem key_eq_of_isChain {run : List α} (h : run.IsChain fun a b => sameKey key a b = true) :
    ∀ a ∈ run, ∀ b ∈ run, key a = key b := by
  have htrans : Trans (fun a b : α => key a = key b) (fun a b => key a = key b) (fun a b => key a = key b) := ⟨Eq.trans⟩
  have hpairs := isChain_iff_pairwise.mp (h.imp fun _ _ hab => of_decide_eq_true hab)
  intro a ha b hb
  exact Pairwise.forall_of_forall_of_flip (R := fun a b => key a = key b) (fun _ _ => rfl) hpairs
    (hpairs.imp Eq.symm) ha hb

theorem maximalRuns_splitBy (key : α → κ) (records : List α) :
    MaximalRuns key records (records.splitBy (sameKey key)) := by
  have halike : ∀ run ∈ records.splitBy (sameKey key), ∀ a ∈ run, ∀ b ∈ run, key a = key b :=
    fun run hrun => key_eq_of_isChain (isChain_of_mem_splitBy hrun)
  refine ⟨flatten_splitBy _ _, nil_notMem_splitBy _ _, halike, ?_⟩
  refine (isChain_getLast_head_splitBy (sameKey key) records).imp_of_mem_imp ?_
  intro run next hrun hnext ⟨hlast, hhead, hdiffer⟩ a ha b hb heq
  have hends := of_decide_eq_false hdiffer
  rw [halike run hrun _ (getLast_mem hlast) a ha, heq, halike next hnext b hb _ (head_mem hhead)] at hends
  exact hends rfl

theorem MaximalRuns.eq_splitBy (h : MaximalRuns key records runs) : records.splitBy (sameKey key) = runs := by
  refine splitBy_eq_iff.mpr ⟨h.joined.symm, h.nonempty, ?_, ?_⟩
  · intro run hrun
    exact (pairwise_of_forall_mem_list fun a ha b hb => decide_eq_true (h.alike run hrun a ha b hb)).isChain
  · refine h.apart.imp_of_mem_imp ?_
    intro run next hrun hnext hdiffer
    have hne : ∀ r ∈ runs, r ≠ [] := fun r hr hnil => h.nonempty (hnil ▸ hr)
    exact ⟨hne run hrun, hne next hnext, decide_eq_false (hdiffer _ (getLast_mem _) _ (head_mem _))⟩

end

section
variable {tolower : UInt8 → UInt8} {opts : Opts} {records : List Bytes}

def report (opts : Opts) (runs : List (List Bytes)) : List (Nat × Bytes) :=
  (runs.filter fun run => shouldPrint opts run.length).map fun run => (run.length, run.headD [])

theorem report_append (opts : Opts) (runs others : List (List Bytes)) :
    report opts (runs ++ others) = report opts runs ++ report opts others := by
  unfold report
  rw [filter_append, map_append]

theorem flush_run (opts : Opts) (run : List Bytes) (printed : List (Nat × Bytes)) :
    flush opts ⟨some (run.headD []), run.length, printed⟩ = printed ++ report opts [run] := by
  unfold flush report
  dsimp only
  by_cases hprint : shouldPrint opts run.length = true
  · rw [if_pos hprint, filter_cons_of_pos (by exact hprint)]
    rfl
  · rw [if_neg hprint, filter_cons_of_neg (by exact hprint)]
    exact (append_nil _).symm

theorem splitBy_run {run : List Bytes} (hne : run ≠ [])
    (halike : ∀ a ∈ run, ∀ b ∈ run, comparisonKey tolower opts a = comparisonKey tolower opts b) :
    run.splitBy (sameKey (comparisonKey tolower opts)) = [run] :=
  MaximalRuns.eq_splitBy ⟨by simp, by simpa using hne.symm, by simpa using halike, isChain_singleton _⟩

/-- The loop after a run that has begun, over the records that follow. -/
theorem flush_foldl (run : List Bytes) (hne : run ≠ []) (printed : List (Nat × Bytes))
    (halike : ∀ a ∈ run, ∀ b ∈ run, comparisonKey tolower opts a = comparisonKey tolower opts b) :
    flush opts (records.foldl (readRecord tolower opts) ⟨some (run.headD []), run.length, printed⟩) =
      printed ++ report opts ((run ++ records).splitBy (sameKey (comparisonKey tolower opts))) := by
  induction records generalizing run printed with
  | nil => rw [append_nil, foldl_nil, flush_run, splitBy_run hne halike]
  | cons record records ih =>
    have hhead : run.headD [] ∈ run := by
      obtain ⟨first, rest, rfl⟩ := exists_cons_of_ne_nil hne
      exact mem_cons_self
    have hstep : readRecord tolower opts ⟨some (run.headD []), run.length, printed⟩ record =
        if lineCompare tolower opts record (run.headD []) = .eq then ⟨some (run.headD []), run.length + 1, printed⟩
        else ⟨some record, 1, flush opts ⟨some (run.headD []), run.length, printed⟩⟩ := rfl
    rw [foldl_cons, hstep]
    by_cases hsame : lineCompare tolower opts record (run.headD []) = .eq
    · have hkey := lineCompare_eq.mp hsame
      have hgrown := ih (run ++ [record]) (append_ne_nil_of_left_ne_nil hne _) printed ?_
      · rw [length_append, length_singleton, append_assoc, singleton_append] at hgrown
        rw [if_pos hsame, ← hgrown]
        obtain ⟨first, rest, rfl⟩ := exists_cons_of_ne_nil hne
        rfl
      · have hall : ∀ a ∈ run ++ [record], comparisonKey tolower opts a = comparisonKey tolower opts record := by
          intro a ha
          cases mem_append.mp ha with
          | inl hin => rw [halike a hin _ hhead, hkey]
          | inr hin => rw [mem_singleton.mp hin]
        exact fun a ha b hb => (hall a ha).trans (hall b hb).symm
    · have hnext := ih [record] (cons_ne_nil _ _) (printed ++ report opts [run]) (by simp)
      rw [if_neg hsame, flush_run, splitBy_append_cons, splitBy_run hne halike, report_append, ← append_assoc]
      · exact hnext
      · intro last hlast
        have hdiffer := mt lineCompare_eq.mpr hsame
        exact decide_eq_false fun heq =>
          hdiffer (heq.symm.trans (halike _ (mem_of_getLast? hlast) _ hhead))

theorem groups_eq (tolower : UInt8 → UInt8) (opts : Opts) (records : List Bytes) :
    groups tolower opts records = report opts (records.splitBy (sameKey (comparisonKey tolower opts))) := by
  cases records with
  | nil => rfl
  | cons record records => exact flush_foldl [record] (cons_ne_nil _ _) [] (by simp)

/-! ## What is printed -/

theorem report_plain (hrepeated : opts.repeated = false) (hunique : opts.unique = false) (runs : List (List Bytes)) :
    report opts runs = runs.map fun run => (run.length, run.headD []) := by
  unfold report
  rw [filter_eq_self.mpr]
  intro run _
  unfold shouldPrint
  rw [hrepeated, hunique]
  rfl

variable {runs : List (List Bytes)}

theorem heads_sublist (h : [] ∉ runs) : runs.map (·.headD []) <+ runs.flatten := by
  induction runs with
  | nil => exact Sublist.refl _
  | cons run runs ih =>
    obtain ⟨hne, hrest⟩ := not_or.mp (mem_cons.not.mp h)
    obtain ⟨first, more, rfl⟩ := exists_cons_of_ne_nil (Ne.symm hne)
    exact .cons_cons first ((ih hrest).trans (sublist_append_right more runs.flatten))

theorem dropLast_sublist_dropLast {α : Type*} {l l' : List α} (h : l <+ l') : l.dropLast <+ l'.dropLast := by
  have htail := h.reverse.tail.reverse
  rwa [tail_reverse, tail_reverse, reverse_reverse, reverse_reverse] at htail

theorem readRecords_heads {content : Bytes} (h : [] ∉ runs) (hjoined : runs.flatten = readRecords opts content) :
    readRecords opts (runs.map (·.headD [])).flatten = runs.map (·.headD []) := by
  have hsub := heads_sublist h
  rw [hjoined] at hsub
  apply delimited_join
  · intro record hrecord
    have hmem := hsub.subset hrecord
    exact ⟨fun hnil => nil_notMem_delimited (hnil ▸ hmem), notMem_dropLast_of_mem hmem⟩
  · exact fun record hrecord => getLast?_of_mem_dropLast ((dropLast_sublist_dropLast hsub).subset hrecord)

theorem maximalRuns_heads {key : Bytes → Bytes} (h : MaximalRuns key records runs) :
    MaximalRuns key (runs.map (·.headD [])) (runs.map fun run => [run.headD []]) := by
  refine ⟨?_, ?_, ?_, ?_⟩
  · rw [← flatMap_def]
    exact flatMap_pure_eq_map _ _
  · simp
  · intro run hrun a ha b hb
    obtain ⟨other, -, rfl⟩ := mem_map.mp hrun
    rw [mem_singleton.mp ha, mem_singleton.mp hb]
  · rw [isChain_map]
    refine h.apart.imp_of_mem_imp ?_
    intro run next hrun hnext hdiffer a ha b hb
    have hin : ∀ r ∈ runs, r.headD [] ∈ r := by
      intro r hr
      obtain ⟨first, rest, rfl⟩ := exists_cons_of_ne_nil (fun hnil : r = [] => h.nonempty (hnil ▸ hr))
      exact mem_cons_self
    rw [mem_singleton.mp ha, mem_singleton.mp hb]
    exact hdiffer _ (hin run hrun) _ (hin next hnext)

/-- What `uniq` does with a text. The outputs of `-d` and `-u` merge, in order, into that of neither. -/
structure GroupsRuns (tolower : UInt8 → UInt8) (opts : Opts) (content : Bytes) : Prop where
  reported : ∃ runs, MaximalRuns (comparisonKey tolower opts) (readRecords opts content) runs ∧
    doUniq tolower opts content =
      (runs.filter fun run => shouldPrint opts run.length).map fun run => (run.length, run.headD [])
  counted : opts.repeated = false → opts.unique = false →
    ((doUniq tolower opts content).map (·.1)).sum = (readRecords opts content).length
  merged : ∃ side : List ((Nat × Bytes) × Bool),
    doUniq tolower { opts with repeated := false, unique := false } content = side.map (·.1) ∧
      doUniq tolower { opts with repeated := true, unique := false } content = (side.filter (·.2)).map (·.1) ∧
      doUniq tolower { opts with repeated := false, unique := true } content = (side.filter (!·.2)).map (·.1)
  idempotent : opts.repeated = false → opts.unique = false → opts.count = false →
    output tolower opts (output tolower opts content) = output tolower opts content

/-- **Main result.** The groups that `uniq` reports are the maximal runs. -/
theorem uniq_groups_runs (tolower : UInt8 → UInt8) (opts : Opts) (content : Bytes) : GroupsRuns tolower opts content := by
  have hruns := maximalRuns_splitBy (comparisonKey tolower opts) (readRecords opts content)
  have hgroups : ∀ repeated unique, doUniq tolower { opts with repeated, unique } content =
      report { opts with repeated, unique } ((readRecords opts content).splitBy (sameKey (comparisonKey tolower opts))) :=
    fun repeated unique => groups_eq tolower { opts with repeated, unique } _
  have hown := hgroups opts.repeated opts.unique
  change doUniq tolower opts content = report opts _ at hown
  generalize (readRecords opts content).splitBy (sameKey (comparisonKey tolower opts)) = runs at hruns hgroups hown
  refine ⟨⟨runs, hruns, hown⟩, ?_, ?_, ?_⟩
  · intro hrepeated hunique
    rw [hown, report_plain hrepeated hunique, map_map, ← hruns.joined, length_flatten]
    rfl
  · refine ⟨runs.map fun run => ((run.length, run.headD []), decide (1 < run.length)), ?_, ?_, ?_⟩
    · rw [hgroups, report_plain rfl rfl, map_map]
      rfl
    · rw [hgroups, filter_map, map_map, report]
      congr 1
      apply filter_congr
      intro run hrun
      have hpos := length_pos_iff.mpr fun hnil : run = [] => hruns.nonempty (hnil ▸ hrun)
      simp only [shouldPrint, Function.comp, Bool.true_and, Bool.false_and, Bool.or_false]
      rw [← decide_not]
      exact decide_eq_decide.mpr (by omega)
    · rw [hgroups, filter_map, map_map, report]
      rfl
  · intro hrepeated hunique hcount
    have hout : ∀ groups : List (Nat × Bytes), groups.flatMap (emitRecord opts) = (groups.map (·.2)).flatten := by
      intro groups
      rw [flatMap_def]
      congr 1
      apply map_congr_left
      intro group _
      unfold emitRecord
      rw [hcount]
      rfl
    have hfirst : output tolower opts content = (runs.map (·.headD [])).flatten := by
      rw [output, hown, report_plain hrepeated hunique, hout, map_map]
      rfl
    rw [hfirst, output, hout, doUniq, readRecords_heads hruns.nonempty hruns.joined, groups_eq,
      (maximalRuns_heads hruns).eq_splitBy, report_plain hrepeated hunique, map_map, map_map]
    rfl

end

end Bx.Uniq
