import Bx.Sort.Sort
import Bx.Uniq.Uniq
import Mathlib.Data.List.Perm.Basic

/-!
# Files of sort

The operands are read one after the other; one that does not open is passed over, and a read error ends the reading.
What was read is sorted and written all the same, also to an output file that is one of the operands.
-/

namespace Bx.Sort
open Kit Std List

inductive Operand
  | stdin
  | path (name : Bytes)
  deriving DecidableEq

structure File where
  content : Bytes
  opens : Bool
  readError : Option Nat

structure World where
  stdin : File
  files : Bytes → File

def emptyFile : File := ⟨[], true, none⟩

def openOperand (world : World) (stdinRead : Bool) : Operand → Option File
  | .stdin => some (if stdinRead then emptyFile else world.stdin)
  | .path name => if (world.files name).opens then some (world.files name) else none

def readFile (opts : Opts) (file : File) : List Bytes :=
  splitRecords (delimiter opts) (match file.readError with
    | none => file.content
    | some count => file.content.take count)

def readOperands (opts : Opts) (world : World) : List Operand → Bool → List Bytes × Bool
  | [], _ => ([], false)
  | operand :: operands, stdinRead =>
    match openOperand world stdinRead operand with
    | none => ((readOperands opts world operands stdinRead).1, true)
    | some file =>
      if file.readError.isSome then (readFile opts file, true)
      else
        let rest := readOperands opts world operands (stdinRead || operand == .stdin)
        (readFile opts file ++ rest.1, rest.2)

def recordsRead (opts : Opts) (world : World) (operands : List Operand) : List Bytes × Bool :=
  readOperands opts world (if operands = [] then [.stdin] else operands) false

def writeFile (world : World) (name content : Bytes) : World :=
  { world with files := fun other => if other = name then { world.files other with content := content } else world.files other }

structure Result where
  world : World
  written : Bytes
  hadError : Bool

def sortMain (L : Locale) (opts : Opts) (world : World) (operands : List Operand) (outputPath : Option Bytes) : Result :=
  let read := recordsRead opts world operands
  let lines : List (Line L opts) := pushRecords L opts read.1 0
  let written := writeLines opts (sortedLines lines)
  match outputPath with
  | none => ⟨world, written, read.2⟩
  | some name => ⟨writeFile world name written, written, read.2⟩

/-! ## What sort promises -/

def Completes (world : World) : Operand → Prop
  | .stdin => world.stdin.readError = none
  | .path name => (world.files name).opens = true ∧ (world.files name).readError = none

def allRecords (opts : Opts) (world : World) : List Operand → Bool → List Bytes
  | [], _ => []
  | .stdin :: operands, stdinRead =>
    (if stdinRead then [] else splitRecords (delimiter opts) world.stdin.content) ++ allRecords opts world operands true
  | .path name :: operands, stdinRead =>
    splitRecords (delimiter opts) (world.files name).content ++ allRecords opts world operands stdinRead

def SortedOutput (L : Locale) (opts : Opts) (records : List Bytes) (bytes : Bytes) : Prop :=
  ∃ out : List (Line L opts), IsSorted (pushRecords L opts records 0) out ∧ bytes = writeLines opts out

/-- What is read is written, and an output file that is also read is replaced by all operands or kept. -/
structure LosesNoData (L : Locale) (opts : Opts) (world : World) (operands : List Operand) (outputPath : Option Bytes) :
    Prop where
  records : opts.unique = false → ∃ written : List Bytes, written.Perm (recordsRead opts world operands).1 ∧
    (sortMain L opts world operands outputPath).written = (written.map (writeLine (delimiter opts))).flatten
  output : ∀ name, outputPath = some name → .path name ∈ operands →
    ((∀ operand ∈ operands, Completes world operand) →
      SortedOutput L opts (allRecords opts world operands false)
        ((sortMain L opts world operands outputPath).world.files name).content) ∧
    (¬(∀ operand ∈ operands, Completes world operand) →
      ((sortMain L opts world operands outputPath).world.files name).content = (world.files name).content)

variable {L : Locale} {opts : Opts}

/-! ## There is one sorted output -/

theorem Before.asymm {a b : Line L opts} (hab : Before a b) (hba : Before b a) : a = b := by
  have hlt := qsortCompare_eq_lt.mpr hab
  simp [OrientedCmp.gt_of_lt (qsortCompare_eq_lt.mpr hba)] at hlt

theorem nodup_of_before {out : List (Line L opts)} (h : out.Pairwise Before) : out.Nodup := by
  apply h.imp
  intro a b hab heq
  subst heq
  have hself : qsortCompare a a = .eq := ReflCmp.compare_self
  simp [qsortCompare_eq_lt.mpr hab] at hself

theorem eq_of_originalIndex {lines : List (Line L opts)} (h : lines.Pairwise fun a b => a.originalIndex < b.originalIndex)
    {a b : Line L opts} (ha : a ∈ lines) (hb : b ∈ lines) (heq : a.originalIndex = b.originalIndex) : a = b := by
  have hlt : lines.Pairwise fun a b => compareOn Line.originalIndex a b = .lt :=
    h.imp fun hab => Nat.compare_eq_lt.mpr hab
  exact eq_of_pairwise_lt hlt ha hb (Nat.compare_eq_eq.mpr heq)

section
variable {lines out out' : List (Line L opts)} (h : lines.Pairwise fun a b => a.originalIndex < b.originalIndex)
  (hout : IsSorted lines out) (hout' : IsSorted lines out')
include h hout hout'

theorem IsSorted.subset_of_unique (hunique : opts.unique = true) {a : Line L opts} (ha : a ∈ out) : a ∈ out' := by
  have hlines := hout.subset a ha
  obtain ⟨b, hb, hba, hplace, _⟩ := hout'.classes hunique a hlines
  obtain ⟨c, hc, hcb, hplace', hfirst⟩ := hout.classes hunique b (hout'.subset b hb)
  have hac : a = c := hfirst a ha (OrientedCmp.eq_symm hba)
  rw [← hac] at hplace'
  rw [eq_of_originalIndex h hlines (hout'.subset b hb) (Nat.le_antisymm hplace' hplace)]
  exact hb

theorem IsSorted.perm : out.Perm out' := by
  cases hunique : opts.unique with
  | false => exact (hout.all hunique).trans (hout'.all hunique).symm
  | true =>
    apply (perm_ext_iff_of_nodup (nodup_of_before hout.inOrder) (nodup_of_before hout'.inOrder)).mpr
    intro a
    refine ⟨?_, ?_⟩
    · exact hout.subset_of_unique h hout' hunique
    · exact hout'.subset_of_unique h hout hunique

theorem IsSorted.eq : out = out' :=
  (hout.perm h hout').eq_of_pairwise (fun _ _ _ _ => Before.asymm) hout.inOrder hout'.inOrder

end

theorem sortedOutput_iff (records : List Bytes) (bytes : Bytes) : SortedOutput L opts records bytes ↔
      bytes = writeLines opts (sortedLines (pushRecords L opts records 0 : List (Line L opts))) := by
  have hplaces : (pushRecords L opts records 0).Pairwise fun a b => a.originalIndex < b.originalIndex :=
    pairwise_originalIndex records 0
  have hsorted := isSorted_sortedLines hplaces
  refine ⟨?_, ?_⟩
  · intro ⟨out, hout, hbytes⟩
    rw [hbytes, hout.eq hplaces hsorted]
  · intro hbytes
    exact ⟨_, hsorted, hbytes⟩

/-! ## Records -/

theorem map_text_pushRecords (records : List Bytes) (nextIndex : Nat) :
    (pushRecords L opts records nextIndex).map (fun line => line.text.1) = records.map cText := by
  induction records generalizing nextIndex with
  | nil => rfl
  | cons record records ih =>
    unfold pushRecords
    rw [map_cons, map_cons, ih]
    rfl

theorem length_writeLines (delim : UInt8) (written : List Bytes) :
    (written.map (writeLine delim)).flatten.length = (written.map List.length).sum + written.length := by
  induction written with
  | nil => rfl
  | cons record written ih =>
    simp only [map_cons, flatten_cons, length_append, ih, sum_cons, length_cons]
    unfold writeLine
    rw [length_append, length_singleton]
    omega

theorem cText_length_eq {record : Bytes} (h : (cText record).length = record.length) : 0 ∉ record := by
  have hsame : cText record = record := (List.takeWhile_prefix _).eq_of_length h
  rw [← hsame]
  exact zero_notMem_cText record

theorem sum_cText_le (records : List Bytes) :
    ((records.map cText).map List.length).sum ≤ (records.map List.length).sum := by
  induction records with
  | nil => exact le_rfl
  | cons record records ih =>
    simp only [map_cons, sum_cons]
    exact Nat.add_le_add (length_cText_le record) ih

variable {records : List Bytes} {operands operands' : List Operand} {world world' : World}

theorem zero_notMem_of_sum (h : ((records.map cText).map List.length).sum = (records.map List.length).sum) :
    ∀ record ∈ records, 0 ∉ record := by
  induction records with
  | nil =>
    intro record hrecord
    cases hrecord
  | cons record records ih =>
    have hle := length_cText_le record
    have hrest := sum_cText_le records
    simp only [map_cons, sum_cons] at h
    intro other hother
    cases mem_cons.mp hother with
    | inl heq =>
      rw [heq]
      exact cText_length_eq (by omega)
    | inr hmem => exact ih (by omega) other hmem

theorem map_cText_of_zero_notMem (h : ∀ record ∈ records, 0 ∉ record) : records.map cText = records := by
  have hid : records.map cText = records.map id := map_congr_left fun record hrecord =>
    cText_of_zero_notMem (h record hrecord)
  rw [hid, map_id]

theorem writeLines_eq (lines : List (Line L opts)) :
    writeLines opts lines = ((lines.map fun line => line.text.1).map (writeLine (delimiter opts))).flatten := by
  unfold writeLines
  rw [map_map]
  rfl

theorem texts_perm (L : Locale) (hunique : opts.unique = false) (records : List Bytes) :
    ((sortedLines (pushRecords L opts records 0)).map fun line => line.text.1).Perm (records.map cText) := by
  rw [sortedLines_of_not_unique hunique, ← @map_text_pushRecords L opts records 0]
  exact (sortLines_perm _).map _

theorem written_records_iff (hunique : opts.unique = false) (records : List Bytes) :
    (∃ written : List Bytes, written.Perm records ∧
      writeLines opts (sortedLines (pushRecords L opts records 0 : List (Line L opts))) =
        (written.map (writeLine (delimiter opts))).flatten) ↔
      ∀ record ∈ records, 0 ∉ record := by
  have hperm := texts_perm L hunique records
  rw [writeLines_eq]
  refine ⟨?_, ?_⟩
  · intro ⟨written, hwritten, hbytes⟩
    have hlength := congrArg List.length hbytes
    rw [length_writeLines, length_writeLines, hperm.length_eq, hwritten.length_eq, length_map] at hlength
    apply zero_notMem_of_sum
    rw [← (hperm.map List.length).sum_nat, ← (hwritten.map List.length).sum_nat]
    omega
  · intro hnul
    rw [map_cText_of_zero_notMem hnul] at hperm
    exact ⟨_, hperm, rfl⟩

/-! ## Operands -/

theorem readOperands_of_completes (h : ∀ operand ∈ operands, Completes world operand) (stdinRead : Bool) :
    (readOperands opts world operands stdinRead).1 = allRecords opts world operands stdinRead := by
  induction operands generalizing stdinRead with
  | nil => rfl
  | cons operand operands ih =>
    have hrest := ih fun other hother => h other (mem_cons_of_mem _ hother)
    have hfirst := h operand mem_cons_self
    cases operand with
    | stdin =>
      have hread : world.stdin.readError = none := hfirst
      cases stdinRead with
      | true => simp [readOperands, openOperand, allRecords, emptyFile, readFile, splitRecords, hrest]
      | false => simp [readOperands, openOperand, allRecords, readFile, hread, hrest]
    | path name =>
      obtain ⟨hopens, hread⟩ := hfirst
      have hne : (Operand.path name == Operand.stdin) = false := beq_eq_false_iff_ne.mpr (by simp)
      simp [readOperands, openOperand, allRecords, readFile, hopens, hread, hrest, hne]

theorem recordsRead_of_completes {name : Bytes} (hname : .path name ∈ operands)
    (h : ∀ operand ∈ operands, Completes world operand) :
    (recordsRead opts world operands).1 = allRecords opts world operands false := by
  unfold recordsRead
  rw [if_neg (ne_nil_of_mem hname)]
  exact readOperands_of_completes h false

theorem sortMain_written (world : World) (operands : List Operand) (outputPath : Option Bytes) :
    (sortMain L opts world operands outputPath).written =
      writeLines opts (sortedLines (pushRecords L opts (recordsRead opts world operands).1 0 : List (Line L opts))) := by
  unfold sortMain
  cases outputPath <;> rfl

theorem sortMain_content (world : World) (operands : List Operand) (name : Bytes) :
    ((sortMain L opts world operands (some name)).world.files name).content =
      writeLines opts (sortedLines (pushRecords L opts (recordsRead opts world operands).1 0 : List (Line L opts))) := by
  unfold sortMain writeFile
  dsimp only
  rw [if_pos rfl]

/-- **Main result.** No data is lost exactly when no record of a sort that is not unique has a NUL,
and an output file that is one of the operands is written after no failure, unless it
holds what is written there already. -/
theorem losesNoData_iff (L : Locale) (opts : Opts) (world : World) (operands : List Operand) (outputPath : Option Bytes) :
    LosesNoData L opts world operands outputPath ↔
      (opts.unique = false → ∀ record ∈ (recordsRead opts world operands).1, 0 ∉ record) ∧
      ∀ name, outputPath = some name → .path name ∈ operands →
        (∀ operand ∈ operands, Completes world operand) ∨
          SortedOutput L opts (recordsRead opts world operands).1 (world.files name).content := by
  refine ⟨?_, ?_⟩
  · intro h
    refine ⟨?_, ?_⟩
    · intro hunique
      apply (written_records_iff (L := L) hunique _).mp
      rw [← sortMain_written world operands outputPath]
      exact h.records hunique
    · intro name houtput hname
      by_cases hall : ∀ operand ∈ operands, Completes world operand
      · exact .inl hall
      · right
        have hkept := (h.output name houtput hname).2 hall
        subst houtput
        rw [sortMain_content] at hkept
        exact (sortedOutput_iff _ _).mpr hkept.symm
  · intro ⟨hnul, houtput⟩
    refine ⟨?_, ?_⟩
    · intro hunique
      rw [sortMain_written]
      exact (written_records_iff hunique _).mpr (hnul hunique)
    · intro name hpath hname
      have hcontent := houtput name hpath hname
      subst hpath
      rw [sortMain_content]
      refine ⟨?_, ?_⟩
      · intro hall
        rw [← recordsRead_of_completes hname hall]
        exact (sortedOutput_iff _ _).mpr rfl
      · intro hfails
        cases hcontent with
        | inl hall => exact absurd hall hfails
        | inr hsame => exact ((sortedOutput_iff _ _).mp hsame).symm

/-! ## Sorting again -/

theorem notMem_of_mem_splitRecords {delim : UInt8} {stream record : Bytes} (h : record ∈ splitRecords delim stream) :
    delim ∉ record := by
  fun_induction splitRecords delim stream generalizing record with
  | case1 => cases h
  | case2 stream ih => grind
  | case3 c stream hc hrest => grind
  | case4 c stream hc next records hrest ih => grind

theorem splitRecords_written {delim : UInt8} {texts : List Bytes} (h : ∀ text ∈ texts, delim ∉ text) :
    splitRecords delim (texts.map (writeLine delim)).flatten = texts := by
  induction texts with
  | nil => rfl
  | cons text texts ih =>
    rw [map_cons, flatten_cons, writeLine, append_assoc, singleton_append]
    have hrest := ih fun other hother => h other (mem_cons_of_mem _ hother)
    have htext := h text mem_cons_self
    clear h ih
    induction text with
    | nil => rw [nil_append, splitRecords, if_pos rfl, hrest]
    | cons c text ih =>
      rw [mem_cons, not_or] at htext
      rw [cons_append, splitRecords, if_neg (Ne.symm htext.1), ih htext.2]

theorem notMem_of_mem_readOperands {stdinRead : Bool} {record : Bytes}
    (h : record ∈ (readOperands opts world operands stdinRead).1) : delimiter opts ∉ record := by
  fun_induction readOperands opts world operands stdinRead with
  | case1 => cases h
  | case2 _ _ _ _ ih => exact ih h
  | case3 => exact notMem_of_mem_splitRecords h
  | case4 stdinRead operand operands file _ _ rest ih =>
    cases mem_append.mp h with
    | inl hfile => exact notMem_of_mem_splitRecords hfile
    | inr hrest => exact ih hrest

theorem notMem_of_mem_sortedLines {text : Bytes}
    (h : text ∈ (sortedLines (pushRecords L opts (recordsRead opts world operands).1 0)).map (·.text.1)) :
    delimiter opts ∉ text := by
  obtain ⟨line, hline, rfl⟩ := mem_map.mp h
  have hread : line.text.1 ∈ (recordsRead opts world operands).1.map cText := by
    rw [← @map_text_pushRecords L opts _ 0]
    exact mem_map_of_mem (sortedLines_subset _ hline)
  obtain ⟨record, hrecord, hcut⟩ := mem_map.mp hread
  rw [← hcut]
  exact fun h => notMem_of_mem_readOperands hrecord ((List.takeWhile_prefix _).subset h)

theorem map_text_pushRecords_text (lines : List (Line L opts)) (nextIndex : Nat) :
    (pushRecords L opts (lines.map (·.text.1)) nextIndex).map Line.text = lines.map Line.text := by
  induction lines generalizing nextIndex with
  | nil => rfl
  | cons line lines ih =>
    rw [map_cons, pushRecords, map_cons, map_cons, ih, makeLine]
    exact congrArg (· :: _) (Subtype.ext (cText_of_zero_notMem line.text.2))

/-- **Main result.** What `sort` writes it leaves as it is when it reads it again, and finds it in order. -/
theorem sortMain_again (L : Locale) (opts : Opts) (world : World) (operands : List Operand) (outputPath : Option Bytes) :
    let written := (sortMain L opts world operands outputPath).written
    (sortMain L opts { world with stdin := ⟨written, true, none⟩ } [] none).written = written ∧
      checkStream L opts written = true := by
  rw [sortMain_written]
  have hsorted := textsInOrder_sortedLines (@pairwise_originalIndex L opts (recordsRead opts world operands).1 0)
  have htexts := fun text => @notMem_of_mem_sortedLines L opts operands world text
  generalize sortedLines (pushRecords L opts (recordsRead opts world operands).1 0) = lines at hsorted htexts
  have hsplit : splitRecords (delimiter opts) (writeLines opts lines) = lines.map (·.text.1) := by
    rw [writeLines_eq]
    exact splitRecords_written htexts
  have hpushed := map_text_pushRecords_text lines 0
  have horder : (pushRecords L opts (lines.map (·.text.1)) 0).Pairwise fun a b => textsInOrder L opts a.text b.text := by
    rw [← pairwise_map (f := Line.text) (R := textsInOrder L opts), hpushed, pairwise_map]
    exact hsorted
  refine ⟨?_, ?_⟩
  · show writeLines opts (sortedLines (pushRecords L opts (splitRecords _ (writeLines opts lines) ++ []) 0)) = _
    have hwrite : ∀ ls : List (Line L opts), writeLines opts ls =
        ((ls.map Line.text).map fun text => writeLine (delimiter opts) text.1).flatten := by
      intro ls
      rw [map_map]
      rfl
    rw [append_nil, hsplit, sortedLines_of_inOrder (pairwise_originalIndex _ 0) horder, hwrite, hpushed, ← hwrite]
  · unfold checkStream
    rw [hsplit]
    exact (checkLines_iff _).mpr horder

theorem text_eq_of_textsInOrder (hstable : opts.stable = false) (hunique : opts.unique = false)
    (hstrict : ∀ a b, L.strcoll a b = 0 → a = b) {a b : Line L opts} (hab : textsInOrder L opts a.text b.text)
    (hba : textsInOrder L opts b.text a.text) : a.text = b.text := by
  simp only [textsInOrder, hunique, Bool.false_eq_true, if_false, ← compareForOutput_eq] at hab hba
  have heq : compareForOutput a b = .eq := by
    have hswap : compareForOutput b a = (compareForOutput a b).swap := OrientedCmp.eq_swap
    rw [hswap, Ordering.isLE_swap] at hba
    cases h : compareForOutput a b <;> simp [h] at hab hba ⊢
  have hlast := (Ordering.then_eq_eq.mp heq).2
  rw [hstable, hunique] at hlast
  exact hstrict _ _ (by simpa [compareDefaultLine] using hlast)

/-- **Main result.** Where `strcoll` tells any two texts apart, what is written depends on the records read only, not on
the order or the files in which they stood. -/
theorem sortMain_perm (hstable : opts.stable = false) (hunique : opts.unique = false)
    (hstrict : ∀ a b, L.strcoll a b = 0 → a = b) (outputPath : Option Bytes)
    (h : (recordsRead opts world operands).1.Perm (recordsRead opts world' operands').1) :
    (sortMain L opts world operands outputPath).written = (sortMain L opts world' operands' outputPath).written := by
  have hsorted : ∀ records, ((sortedLines (pushRecords L opts records 0)).map Line.text).Pairwise (textsInOrder L opts) :=
    fun records => pairwise_map.mpr (textsInOrder_sortedLines (pairwise_originalIndex records 0))
  have hperm := (texts_perm L hunique _).trans ((h.map cText).trans (texts_perm L hunique _).symm)
  have hval : ∀ lines : List (Line L opts), (lines.map fun line => line.text.1) = (lines.map Line.text).map Subtype.val :=
    fun lines => map_map.symm
  rw [hval, hval, map_perm_map_iff Subtype.val_injective] at hperm
  have hsame := hperm.eq_of_pairwise ?_ (hsorted _) (hsorted _)
  · rw [sortMain_written, sortMain_written, writeLines_eq, writeLines_eq, hval, hval, hsame]
  · intro a b ha hb hab hba
    obtain ⟨line, _, rfl⟩ := mem_map.mp ha
    obtain ⟨line', _, rfl⟩ := mem_map.mp hb
    exact text_eq_of_textsInOrder hstable hunique hstrict hab hba

theorem comparisonKey_writeLine (tolower : UInt8 → UInt8) (zeroTerminated : Bool) (text : Bytes) :
    Uniq.comparisonKey tolower { zeroTerminated } (writeLine (Uniq.delimiter { zeroTerminated }) text) = text := by
  simp only [Uniq.comparisonKey, Uniq.comparedPart, Uniq.skipToCompare, Uniq.skipFields, Uniq.compareLen, writeLine,
    getLast?_concat]
  simp
  exact map_id text

/-- **Main result.** What `sort -u` writes `uniq` leaves as it is. -/
theorem uniq_sortMain (tolower : UInt8 → UInt8) (hunique : opts.unique = true) (outputPath : Option Bytes) :
    Uniq.output tolower { zeroTerminated := opts.zeroTerminated } (sortMain L opts world operands outputPath).written =
      (sortMain L opts world operands outputPath).written := by
  have hsorted := textsInOrder_sortedLines (@pairwise_originalIndex L opts (recordsRead opts world operands).1 0)
  have htexts := fun text => @notMem_of_mem_sortedLines L opts operands world text
  rw [sortMain_written]
  generalize sortedLines (pushRecords L opts (recordsRead opts world operands).1 0) = lines at hsorted htexts
  let record (line : Line L opts) := writeLine (delimiter opts) line.text.1
  have hrecords : delimited (delimiter opts) (writeLines opts lines) = lines.map record := by
    apply delimited_join
    · intro r hr
      obtain ⟨line, hline, rfl⟩ := mem_map.mp hr
      refine ⟨by simp [writeLine], ?_⟩
      rw [writeLine, dropLast_concat]
      exact htexts _ (mem_map_of_mem hline)
    · intro r hr
      obtain ⟨line, _, rfl⟩ := mem_map.mp (dropLast_subset _ hr)
      exact getLast?_concat
  have hruns : Uniq.MaximalRuns (Uniq.comparisonKey tolower { zeroTerminated := opts.zeroTerminated })
      (lines.map record) (lines.map fun line => [record line]) := by
    refine ⟨by rw [← flatMap_def]; exact flatMap_pure_eq_map _ _, by simp, by simp, ?_⟩
    rw [isChain_map]
    apply (hsorted.imp ?_).isChain
    intro a b hab c hc e he heq
    rw [mem_singleton.mp hc, mem_singleton.mp he] at heq
    have htext : a.text = b.text := Subtype.ext ((comparisonKey_writeLine tolower _ _).symm.trans
      (heq.trans (comparisonKey_writeLine tolower _ _)))
    have hself : compareForOutput b b = .eq := ReflCmp.compare_self
    simp [textsInOrder, if_pos hunique, htext, ← compareForOutput_eq, hself] at hab
  have hgroups := Uniq.groups_eq tolower { zeroTerminated := opts.zeroTerminated } (lines.map record)
  rw [hruns.eq_splitBy, Uniq.report_plain rfl rfl] at hgroups
  have hread : Uniq.readRecords { zeroTerminated := opts.zeroTerminated } (writeLines opts lines) = lines.map record :=
    hrecords
  show (Uniq.groups tolower _ (Uniq.readRecords _ (writeLines opts lines))).flatMap _ = _
  rw [hread, hgroups, map_map, flatMap_map]
  rfl

/-! ## Two inputs that lose data -/

def orderingValue (cmp : Ordering) : Int :=
  match cmp with
  | .lt => -1
  | .eq => 0
  | .gt => 1

theorem compare_orderingValue (cmp : Ordering) : compare (orderingValue cmp) 0 = cmp := by
  cases cmp <;> rfl

def asciiLower (c : UInt8) : UInt8 := if 65 ≤ c ∧ c ≤ 90 then c + 32 else c

set_option maxRecDepth 4000 in
def posix : Locale where
  strcoll a b := orderingValue (compare a.1 b.1)
  strcasecmp a b := orderingValue (compare (a.1.map asciiLower) (b.1.map asciiLower))
  tolower := asciiLower
  isspace c := c == 32 || (9 ≤ c && c ≤ 13)
  isblank c := c == 32 || c == 9
  strcoll_order := by
    simp only [compare_orderingValue]
    exact transCmp_on compare Subtype.val
  strcasecmp_order := by
    simp only [compare_orderingValue]
    exact transCmp_on compare fun text : CText => text.1.map asciiLower
  tolower_digit := by
    apply forall_byte
    decide
  tolower_nondigit := by
    apply forall_byte
    decide
  tolower_zero := by
    apply forall_byte
    decide

def plainOpts : Opts := ⟨.lexicographic, false, false, false, false, false, false, none, []⟩

/-- Standard input has the record `a`, NUL, `b`; the file `f` has the record `c`; no other file is there. -/
def smallWorld : World :=
  ⟨⟨[97, 0, 98, 10], true, none⟩, fun name => if name = ascii "f" then ⟨[99], true, none⟩ else ⟨[], false, none⟩⟩

theorem sortMain_perm_small : (sortMain posix plainOpts smallWorld [.stdin, .path (ascii "f")] none).written =
    (sortMain posix plainOpts smallWorld [.path (ascii "f"), .stdin] none).written := by
  refine sortMain_perm rfl rfl ?_ none (by decide)
  intro a b h
  have hcompare := compare_orderingValue (compare a.1 b.1)
  rw [show orderingValue (compare a.1 b.1) = 0 from h] at hcompare
  exact Subtype.ext (LawfulEqCmp.eq_of_compare hcompare.symm)

theorem uniq_sortMain_small : Uniq.output id {} [97, 10] = [97, 10] :=
  @uniq_sortMain posix { plainOpts with unique := true } [] smallWorld id rfl none

/-- The `b` is not written, and `sort -o f f g` writes `f` although `g` is not there. -/
theorem sort_loses_data : ¬LosesNoData posix plainOpts smallWorld [.stdin] none ∧
      ¬LosesNoData posix plainOpts smallWorld [.path (ascii "f"), .path (ascii "g")] (some (ascii "f")) := by
  refine ⟨?_, ?_⟩
  · intro h
    have hrecords := h.records rfl
    rw [sortMain_written, written_records_iff rfl] at hrecords
    exact hrecords [97, 0, 98] (by decide) (by decide)
  · intro h
    have hkept := (h.output (ascii "f") rfl mem_cons_self).2 fun hall => by
      have hopens := (hall (.path (ascii "g")) (mem_cons_of_mem _ mem_cons_self)).1
      exact absurd hopens (by decide)
    exact absurd hkept (by decide)

end Bx.Sort
