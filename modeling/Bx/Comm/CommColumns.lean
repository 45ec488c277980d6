import Bx.Comm.CommSound

/-!
# The columns that comm prints

Records that `strcmp` takes for equal are paired off in the order of the files, so that the columns are right when one
file's group of such records begins like the other's.
-/

namespace Bx.Comm

open Kit List

/-! ## Lines and records -/

section
variable {delim : UInt8} {zeroTerminated : Bool} {content line : Bytes}

/-- What `strcmp` sees of a record that has its delimiter -/
def recordKey (zeroTerminated : Bool) (c : Bytes) : List Nat := strKey (terminated (recordDelimiter zeroTerminated) c)

theorem record_terminated (delim : UInt8) (c : Bytes) : record delim (terminated delim c) = c := by
  unfold record terminated
  rw [if_pos getLast?_concat, dropLast_concat]

theorem getLast?_terminated (delim : UInt8) (c : Bytes) : (terminated delim c).getLast? = some delim :=
  getLast?_concat

theorem terminated_record (h : line.getLast? = some delim) : terminated delim (record delim line) = line := by
  unfold record terminated
  rw [if_pos h]
  exact dropLast_append_getLast? delim h

theorem map_terminated_record {lines : List Bytes} (h : ∀ line ∈ lines, line.getLast? = some delim) :
    (lines.map (record delim)).map (terminated delim) = lines := by
  rw [map_map]
  refine map_congr_left (g := id) ?_ |>.trans (map_id _)
  intro line hline
  exact terminated_record (h line hline)

theorem map_record_terminated (delim : UInt8) (cs : List Bytes) : (cs.map (terminated delim)).map (record delim) = cs := by
  rw [map_map]
  refine map_congr_left (g := id) ?_ |>.trans (map_id _)
  intro c _
  exact record_terminated delim c

theorem last_of_getLast?_ne (hline : line ∈ readLines zeroTerminated content)
    (h : line.getLast? ≠ some (recordDelimiter zeroTerminated)) :
    (readLines zeroTerminated content).getLast? = some line ∧
      Unterminated (recordDelimiter zeroTerminated) content := by
  unfold readLines at hline ⊢
  obtain ⟨last, hlast⟩ : ∃ last, (delimited (recordDelimiter zeroTerminated) content).getLast? = some last :=
    Option.isSome_iff_exists.mp (by rw [getLast?_isSome]; exact ne_nil_of_mem hline)
  have hsplit := dropLast_append_getLast? last hlast
  have heq : line = last := by
    rw [← hsplit] at hline
    cases mem_append.mp hline with
    | inl hin => exact absurd (getLast?_of_mem_dropLast hin) h
    | inr hin => exact mem_singleton.mp hin
  rw [heq] at h ⊢
  refine ⟨hlast, ?_, ?_⟩
  · intro hnil
    rw [hnil] at hlast
    cases hlast
  · rw [← getLast?_delimited hlast]
    exact h

theorem getLast?_of_not_unterminated (h : ¬ Unterminated (recordDelimiter zeroTerminated) content) :
    ∀ line ∈ readLines zeroTerminated content, line.getLast? = some (recordDelimiter zeroTerminated) := by
  intro line hline
  by_contra hne
  exact h (last_of_getLast?_ne hline hne).2

theorem byteOrder_injective : Function.Injective byteOrder := by
  intro a b hab
  exact map_injective_iff.mpr (fun _ _ h => UInt8.toNat_inj.mp h) hab

theorem beq_bytes : (instBEqOfDecidableEq : BEq Bytes) = instBEq := lawful_beq_subsingleton _ _

instance : Std.Antisymm fun a b : Bytes => byteOrder a ≤ byteOrder b :=
  ⟨fun _ _ hab hba => byteOrder_injective (le_antisymm hab hba)⟩

end

/-! ## When the columns are right -/

structure Agrees (zeroTerminated : Bool) (content1 content2 : Bytes) : Prop where
  terminated : ¬ Unterminated (recordDelimiter zeroTerminated) content1
  sorted1 : SortedBy strKey (readLines zeroTerminated content1)
  sorted2 : SortedBy strKey (readLines zeroTerminated content2)
  alike : ∀ v,
    (ofKey strKey v (readLines zeroTerminated content1)).map (record (recordDelimiter zeroTerminated)) <+:
      (ofKey strKey v (readLines zeroTerminated content2)).map (record (recordDelimiter zeroTerminated)) ∨
    (ofKey strKey v (readLines zeroTerminated content2)).map (record (recordDelimiter zeroTerminated)) <+:
      (ofKey strKey v (readLines zeroTerminated content1)).map (record (recordDelimiter zeroTerminated))
  matched : Unterminated (recordDelimiter zeroTerminated) content2 →
    ∀ line ∈ (readLines zeroTerminated content2).getLast?,
      (ofKey strKey (strKey line) (readLines zeroTerminated content2)).length ≤
        (ofKey strKey (strKey line) (readLines zeroTerminated content1)).length

section
variable {zeroTerminated : Bool} {content1 content2 : Bytes}

variable {entries : List (Column × Bytes)}

/-- Where `strcmp` sees the records as it would see them with their delimiters, the columns are right when records
that it takes for equal are. -/
theorem columns_iff_alike (h1 : SortedBy byteOrder (records zeroTerminated content1))
    (h2 : SortedBy byteOrder (records zeroTerminated content2))
    (hsorted1 : SortedBy strKey (readLines zeroTerminated content1))
    (hsorted2 : SortedBy strKey (readLines zeroTerminated content2))
    (hkey1 : ∀ line ∈ readLines zeroTerminated content1,
      recordKey zeroTerminated (record (recordDelimiter zeroTerminated) line) = strKey line)
    (hkey2 : ∀ line ∈ readLines zeroTerminated content2,
      recordKey zeroTerminated (record (recordDelimiter zeroTerminated) line) = strKey line)
    (hentries : entries = mergeColumns strKey (readLines zeroTerminated content1) (readLines zeroTerminated content2)) :
    ((column .first entries).map (record (recordDelimiter zeroTerminated)) =
        (records zeroTerminated content1).diff (records zeroTerminated content2) ∧
      (column .second entries).map (record (recordDelimiter zeroTerminated)) =
        (records zeroTerminated content2).diff (records zeroTerminated content1) ∧
      (column .both entries).map (record (recordDelimiter zeroTerminated)) =
        (records zeroTerminated content1).bagInter (records zeroTerminated content2)) ↔
    ∀ v, (ofKey strKey v (readLines zeroTerminated content1)).map (record (recordDelimiter zeroTerminated)) <+:
        (ofKey strKey v (readLines zeroTerminated content2)).map (record (recordDelimiter zeroTerminated)) ∨
      (ofKey strKey v (readLines zeroTerminated content2)).map (record (recordDelimiter zeroTerminated)) <+:
        (ofKey strKey v (readLines zeroTerminated content1)).map (record (recordDelimiter zeroTerminated)) := by
  subst hentries
  have hof1 : ∀ v, ofKey (recordKey zeroTerminated) v (records zeroTerminated content1) =
      (ofKey strKey v (readLines zeroTerminated content1)).map (record (recordDelimiter zeroTerminated)) :=
    fun v => ofKey_map hkey1 v
  have hof2 : ∀ v, ofKey (recordKey zeroTerminated) v (records zeroTerminated content2) =
      (ofKey strKey v (readLines zeroTerminated content2)).map (record (recordDelimiter zeroTerminated)) :=
    fun v => ofKey_map hkey2 v
  simp only [← hof1, ← hof2]
  have hpaired := paired_mergeColumns hsorted1 hsorted2
  have hsub1 := @column_first_sublist _ _ _ strKey (readLines zeroTerminated content1) (readLines zeroTerminated content2)
  have hsub2 := @column_second_sublist _ _ _ strKey (readLines zeroTerminated content1) (readLines zeroTerminated content2)
  have hsub3 := @column_both_sublist _ _ _ strKey (readLines zeroTerminated content1) (readLines zeroTerminated content2)
  rw [← beq_bytes]
  apply columns_eq_iff _ _ _ h1 h2 (hsub1.map _) (hsub2.map _) (hsub3.map _)
  · intro v
    rw [ofKey_map (fun line hline => hkey1 line (hsub1.subset hline)), (hpaired v).first, hof1, hof2, map_drop,
      length_map]
  · intro v
    rw [ofKey_map (fun line hline => hkey2 line (hsub2.subset hline)), (hpaired v).second, hof1, hof2, map_drop,
      length_map]
  · intro v
    rw [ofKey_map (fun line hline => hkey1 line (hsub3.subset hline)), (hpaired v).both, hof1, hof2, map_take,
      length_map]

variable {line : Bytes}

theorem recordKey_record (h : line.getLast? = some (recordDelimiter zeroTerminated)) :
    recordKey zeroTerminated (record (recordDelimiter zeroTerminated) line) = strKey line := by
  unfold recordKey
  rw [terminated_record h]

section
variable (h : Agrees zeroTerminated content1 content2)
include h

theorem Agrees.recordKey_record2 : ∀ line ∈ readLines zeroTerminated content2,
      recordKey zeroTerminated (record (recordDelimiter zeroTerminated) line) = strKey line := by
  intro line hline
  by_cases hends : line.getLast? = some (recordDelimiter zeroTerminated)
  · exact recordKey_record hends
  · obtain ⟨hlast, hun⟩ := last_of_getLast?_ne hline hends
    have hle := h.matched hun line hlast
    have hmem : record (recordDelimiter zeroTerminated) line ∈
        (ofKey strKey (strKey line) (readLines zeroTerminated content2)).map (record (recordDelimiter zeroTerminated)) :=
      mem_map_of_mem (mem_ofKey.mpr ⟨hline, rfl⟩)
    have hin : record (recordDelimiter zeroTerminated) line ∈
        (ofKey strKey (strKey line) (readLines zeroTerminated content1)).map (record (recordDelimiter zeroTerminated)) := by
      cases h.alike (strKey line) with
      | inl hbegins =>
        rw [hbegins.eq_of_length_le (by rw [length_map, length_map]; exact hle)]
        exact hmem
      | inr hbegins => exact hbegins.subset hmem
    obtain ⟨other, hother, heq⟩ := mem_map.mp hin
    obtain ⟨hfile, hkey⟩ := mem_ofKey.mp hother
    rw [← heq, recordKey_record (getLast?_of_not_unterminated h.terminated other hfile), hkey]

theorem Agrees.getLast?_second (hline : line ∈ column .second
      (mergeColumns strKey (readLines zeroTerminated content1) (readLines zeroTerminated content2))) :
    line.getLast? = some (recordDelimiter zeroTerminated) := by
  have hfile := (column_second_sublist _ _).subset hline
  by_contra hends
  obtain ⟨hlast, hun⟩ := last_of_getLast?_ne hfile hends
  have hle := h.matched hun line hlast
  have hin : line ∈ ofKey strKey (strKey line) (column .second
      (mergeColumns strKey (readLines zeroTerminated content1) (readLines zeroTerminated content2))) :=
    mem_ofKey.mpr ⟨hline, rfl⟩
  simp [(paired_mergeColumns h.sorted1 h.sorted2 (strKey line)).second, drop_eq_nil_of_le hle] at hin

theorem Agrees.computesMerge (h1 : SortedBy byteOrder (records zeroTerminated content1))
    (h2 : SortedBy byteOrder (records zeroTerminated content2)) : ComputesMerge zeroTerminated content1 content2 := by
  have hends1 := getLast?_of_not_unterminated h.terminated
  obtain ⟨hfirst, hsecond, hboth⟩ := (columns_iff_alike h1 h2 h.sorted1 h.sorted2
    (fun line hline => recordKey_record (hends1 line hline)) h.recordKey_record2 rfl).mpr h.alike
  have hsub1 := @column_first_sublist _ _ _ strKey (readLines zeroTerminated content1) (readLines zeroTerminated content2)
  have hsub3 := @column_both_sublist _ _ _ strKey (readLines zeroTerminated content1) (readLines zeroTerminated content2)
  have hfirst' := map_terminated_record fun line hline => hends1 line (hsub1.subset hline)
  have hsecond' := map_terminated_record fun line hline => h.getLast?_second hline
  have hboth' := map_terminated_record fun line hline => hends1 line (hsub3.subset hline)
  unfold ComputesMerge
  intro delim first second both options hzero
  have hgoing : Going options
      { lines1 := readLines options.zeroTerminated content1, lines2 := readLines options.zeroTerminated content2 } := by
    rw [hzero]
    exact ⟨Or.inr ⟨h.sorted1, h.sorted2⟩, rfl, rfl, rfl⟩
  refine ⟨_, loop_going hgoing (Nat.lt_succ_self _), ?_, ?_, ?_, ?_, rfl, rfl⟩
  · show column .first ([] ++ printedColumns options _) = _
    rw [nil_append, column_printedColumns, hzero, ← hfirst', hfirst]
    rfl
  · show column .second ([] ++ printedColumns options _) = _
    rw [nil_append, column_printedColumns, hzero, ← hsecond', hsecond]
    rfl
  · show column .both ([] ++ printedColumns options _) = _
    rw [nil_append, column_printedColumns, hzero, ← hboth', hboth]
    rfl
  · have hlen1 := congrArg List.length hfirst
    have hlen2 := congrArg List.length hsecond
    have hlen3 := congrArg List.length hboth
    rw [length_map] at hlen1 hlen2 hlen3
    unfold merged
    dsimp only
    rw [hzero, zero_add, zero_add, zero_add, hlen1, hlen2, hlen3]

end

/-! ## When they are not -/

theorem ComputesMerge.columns (h : ComputesMerge zeroTerminated content1 content2)
    (hentries : entries = mergeColumns strKey (readLines zeroTerminated content1) (readLines zeroTerminated content2)) :
    column .first entries = ((records zeroTerminated content1).diff (records zeroTerminated content2)).map
        (terminated (recordDelimiter zeroTerminated)) ∧
      column .second entries = ((records zeroTerminated content2).diff (records zeroTerminated content1)).map
        (terminated (recordDelimiter zeroTerminated)) ∧
      column .both entries = ((records zeroTerminated content1).bagInter (records zeroTerminated content2)).map
        (terminated (recordDelimiter zeroTerminated)) := by
  subst hentries
  obtain ⟨r, hr, hfirst, hsecond, hboth, _⟩ := h { noCheckOrder := true, zeroTerminated := zeroTerminated } rfl
  have hgoing : Going { noCheckOrder := true, zeroTerminated := zeroTerminated }
      { lines1 := readLines zeroTerminated content1, lines2 := readLines zeroTerminated content2 } :=
    ⟨Or.inl ⟨rfl, rfl⟩, rfl, rfl, rfl⟩
  have hrun := loop_going hgoing (Nat.lt_succ_self _)
  have heq := Option.some.inj (hrun.symm.trans hr)
  have hcolumn : ∀ c, column c r.printed = column c
      (mergeColumns strKey (readLines zeroTerminated content1) (readLines zeroTerminated content2)) := by
    intro c
    rw [← heq]
    show column c ([] ++ printedColumns _ _) = _
    rw [nil_append, column_printedColumns]
    cases c <;> rfl
  rw [hcolumn] at hfirst hsecond hboth
  exact ⟨hfirst, hsecond, hboth⟩

theorem ComputesMerge.ordered (h : ComputesMerge zeroTerminated content1 content2) :
    SortedBy strKey (readLines zeroTerminated content1) ∧ SortedBy strKey (readLines zeroTerminated content2) := by
  obtain ⟨r, hr, _, _, _, _, hdiags, _⟩ := h { checkOrder := true, zeroTerminated := zeroTerminated } rfl
  have hordered := ordered_of_no_diags rfl rfl hr hdiags
  exact ⟨hordered.first, hordered.second⟩

theorem getLast?_of_mem_map {cs : List Bytes} {delim : UInt8} (h : line ∈ cs.map (terminated delim)) :
    line.getLast? = some delim := by
  obtain ⟨c, _, rfl⟩ := mem_map.mp h
  exact getLast?_terminated delim c

theorem ComputesMerge.terminated (h : ComputesMerge zeroTerminated content1 content2) :
    ∀ line ∈ readLines zeroTerminated content1, line.getLast? = some (recordDelimiter zeroTerminated) := by
  intro line hline
  obtain ⟨hsorted1, hsorted2⟩ := h.ordered
  obtain ⟨hfirst, _, hboth⟩ := h.columns rfl
  have hpaired := paired_mergeColumns hsorted1 hsorted2 (strKey line)
  have hin : line ∈ ofKey strKey (strKey line) (readLines zeroTerminated content1) := mem_ofKey.mpr ⟨hline, rfl⟩
  rw [← take_append_drop (ofKey strKey (strKey line) (readLines zeroTerminated content2)).length
    (ofKey strKey (strKey line) (readLines zeroTerminated content1)), ← hpaired.both, ← hpaired.first] at hin
  cases mem_append.mp hin with
  | inl hin =>
    have hprinted := (mem_ofKey.mp hin).1
    rw [hboth] at hprinted
    exact getLast?_of_mem_map hprinted
  | inr hin =>
    have hprinted := (mem_ofKey.mp hin).1
    rw [hfirst] at hprinted
    exact getLast?_of_mem_map hprinted

theorem getLast_mem_drop {l : List Bytes} {x : Bytes} (h : l.getLast? = some x) {n : Nat} (hlt : n < l.length) :
    x ∈ l.drop n := by
  apply mem_of_getLast?
  rw [getLast?_drop, if_neg (by omega), h]

theorem ComputesMerge.matched (h : ComputesMerge zeroTerminated content1 content2)
    (hlast : (readLines zeroTerminated content2).getLast? = some line)
    (hends : line.getLast? ≠ some (recordDelimiter zeroTerminated)) :
    (ofKey strKey (strKey line) (readLines zeroTerminated content2)).length ≤
      (ofKey strKey (strKey line) (readLines zeroTerminated content1)).length := by
  obtain ⟨hsorted1, hsorted2⟩ := h.ordered
  obtain ⟨_, hsecond, _⟩ := h.columns rfl
  by_contra hlt
  have hlastOf : (ofKey strKey (strKey line) (readLines zeroTerminated content2)).getLast? = some line := by
    rw [← dropLast_append_getLast? line hlast, ofKey_append, ofKey_cons_self rfl]
    exact getLast?_concat
  have hin := getLast_mem_drop hlastOf (Nat.lt_of_not_le hlt)
  rw [← (paired_mergeColumns hsorted1 hsorted2 (strKey line)).second] at hin
  have hprinted := (mem_ofKey.mp hin).1
  rw [hsecond] at hprinted
  exact hends (getLast?_of_mem_map hprinted)

theorem ComputesMerge.recordKey_record2 (h : ComputesMerge zeroTerminated content1 content2) :
    ∀ line ∈ readLines zeroTerminated content2,
      recordKey zeroTerminated (record (recordDelimiter zeroTerminated) line) = strKey line := by
  intro line hline
  by_cases hends : line.getLast? = some (recordDelimiter zeroTerminated)
  · exact recordKey_record hends
  · by_contra hne
    obtain ⟨hlast, _⟩ := last_of_getLast?_ne hline hends
    have hle := h.matched hlast hends
    obtain ⟨hsorted1, hsorted2⟩ := h.ordered
    obtain ⟨_, _, hboth⟩ := h.columns rfl
    have hpaired := (paired_mergeColumns hsorted1 hsorted2 (strKey line)).both
    have hsub := @column_both_sublist _ _ _ strKey (readLines zeroTerminated content1) (readLines zeroTerminated content2)
    -- as many records of the second file have this key as are paired off
    have hcount : (ofKey (recordKey zeroTerminated) (strKey line) ((records zeroTerminated content1).bagInter
        (records zeroTerminated content2))).length =
        (ofKey strKey (strKey line) (readLines zeroTerminated content2)).length := by
      have hrecords := congrArg (List.map (record (recordDelimiter zeroTerminated))) hboth
      rw [map_record_terminated] at hrecords
      rw [← hrecords, ofKey_map fun line hline => recordKey_record (h.terminated line (hsub.subset hline)),
        length_map, hpaired, length_take_of_le hle]
    have hfew : (ofKey (recordKey zeroTerminated) (strKey line) ((records zeroTerminated content1).bagInter
        (records zeroTerminated content2))).length ≤
        (ofKey (recordKey zeroTerminated) (strKey line) (records zeroTerminated content2)).length := by
      have hperm := List.Perm.bagInter_symm (records zeroTerminated content1) (records zeroTerminated content2)
      rw [beq_bytes] at hperm
      unfold ofKey
      rw [(hperm.filter _).length_eq, ← beq_bytes]
      exact (bagInter_sublist_left.filter _).length_le
    -- but the last line is counted among the lines and not among the records
    have hsplit := dropLast_append_getLast? line hlast
    have hrest : ∀ other ∈ (readLines zeroTerminated content2).dropLast,
        recordKey zeroTerminated (record (recordDelimiter zeroTerminated) other) = strKey other :=
      fun other hother => recordKey_record (getLast?_of_mem_dropLast hother)
    have hless : (ofKey (recordKey zeroTerminated) (strKey line) (records zeroTerminated content2)).length <
        (ofKey strKey (strKey line) (readLines zeroTerminated content2)).length := by
      unfold records
      rw [← hsplit, map_append, ofKey_append, ofKey_append, ofKey_map hrest, map_singleton, ofKey_cons_ne hne,
        ofKey_cons_self rfl, length_append, length_append, length_map]
      exact Nat.lt_succ_self _
    omega

/-- **Main result.** Of files with sorted records, comm computes the merge if and only if the first file ends with
the delimiter, the lines of both are sorted for `strcmp` as well, of any two groups of records that `strcmp` takes
for equal one begins like the other, and a last line of the second file without delimiter is paired off. -/
theorem computesMerge_iff (zeroTerminated : Bool) (content1 content2 : Bytes)
    (h1 : SortedBy byteOrder (records zeroTerminated content1))
    (h2 : SortedBy byteOrder (records zeroTerminated content2)) :
    ComputesMerge zeroTerminated content1 content2 ↔ Agrees zeroTerminated content1 content2 := by
  refine ⟨?_, fun h => h.computesMerge h1 h2⟩
  intro h
  obtain ⟨hsorted1, hsorted2⟩ := h.ordered
  obtain ⟨hfirst, hsecond, hboth⟩ := h.columns rfl
  refine ⟨?_, hsorted1, hsorted2, ?_, ?_⟩
  · intro ⟨hne, hlast⟩
    obtain ⟨last, hlines⟩ : ∃ last, (readLines zeroTerminated content1).getLast? = some last :=
      Option.isSome_iff_exists.mp (by rw [getLast?_isSome]; exact fun hnil => hne (delimited_eq_nil.mp hnil))
    apply hlast
    rw [← getLast?_delimited hlines]
    exact h.terminated last (mem_of_getLast? hlines)
  · apply (columns_iff_alike h1 h2 hsorted1 hsorted2 (fun line hline => recordKey_record (h.terminated line hline))
      h.recordKey_record2 rfl).mp
    rw [hfirst, hsecond, hboth, map_record_terminated, map_record_terminated, map_record_terminated]
    exact ⟨rfl, rfl, rfl⟩
  · intro hun line hlast
    apply h.matched hlast
    rw [getLast?_delimited hlast]
    exact hun.2

theorem computesMerge_iff_small :
    ComputesMerge false [97, 10, 98, 10] [98, 10, 99, 10] ↔ Agrees false [97, 10, 98, 10] [98, 10, 99, 10] :=
  computesMerge_iff false [97, 10, 98, 10] [98, 10, 99, 10] (by decide) (by decide)

/-- `a` and `a`, tab against `a`, tab: a tab sorts before the line end, so that nothing is paired off. -/
theorem not_computesMerge :
    ¬ ∀ (zeroTerminated : Bool) (content1 content2 : Bytes), SortedBy byteOrder (records zeroTerminated content1) →
      SortedBy byteOrder (records zeroTerminated content2) → ComputesMerge zeroTerminated content1 content2 := by
  intro h
  have hmerge := h false [97, 10, 97, 9, 10] [97, 9, 10] (by decide) (by decide)
  have hsorted : ¬ SortedBy strKey (readLines false [97, 10, 97, 9, 10]) := by decide
  exact hsorted hmerge.ordered.1

end

end Bx.Comm
