import Bx.Zip.ModifyRun

/-!
# An update is an update of a map

A run that succeeds leaves each name once, what it wrote under the names it wrote and the other members as they were.
-/

namespace Bx.Zip
open Kit List

variable {existing : List ExistingEntry} {i : Nat} {sel : Selected}

/-! ## Marks -/

def deletedBy (sels : List Selected) (i : Nat) : Bool := sels.any fun sel => sel.found == some i

theorem markSelected_getElem? (existing : List ExistingEntry) (found : Option Nat) (i : Nat) :
    (markSelected existing found)[i]? = existing[i]?.map fun e => if found == some i then markDelete e else e := by
  cases found with
  | none => simp [markSelected]
  | some j =>
    simp only [markSelected, getElem?_modify]
    by_cases hj : j = i
    · simp [hj]
    · simp [hj]

theorem marksAfter_getElem? (existing : List ExistingEntry) (sels : List Selected) (i : Nat) :
    (marksAfter existing sels)[i]? = existing[i]?.map fun e => if deletedBy sels i then markDelete e else e := by
  induction sels generalizing existing with
  | nil => simp [marksAfter, deletedBy]
  | cons sel sels ih =>
    have hstep : marksAfter existing (sel :: sels) = marksAfter (markSelected existing sel.found) sels := rfl
    rw [hstep, ih, markSelected_getElem?, Option.map_map]
    congr 1
    funext e
    have hcons : deletedBy (sel :: sels) i = (sel.found == some i || deletedBy sels i) := rfl
    rw [hcons]
    cases sel.found == some i with
    | true => cases deletedBy sels i <;> rfl
    | false => rfl

theorem marksAfter_append (existing : List ExistingEntry) (a b : List Selected) :
    marksAfter existing (a ++ b) = marksAfter (marksAfter existing a) b := foldl_append

variable {e : ExistingEntry}

theorem getElem?_of_marksAfter {sels : List Selected}
    (h : (marksAfter existing sels)[i]? = some e) (hdelete : e.delete = false) :
    existing[i]? = some e ∧ deletedBy sels i = false := by
  rw [marksAfter_getElem?, Option.map_eq_some_iff] at h
  obtain ⟨a, ha, heq⟩ := h
  cases hby : deletedBy sels i with
  | true =>
    rw [hby, if_pos rfl] at heq
    rw [← heq] at hdelete
    cases hdelete
  | false =>
    rw [hby, if_neg Bool.false_ne_true] at heq
    exact ⟨heq ▸ ha, rfl⟩

/-! ## Names -/

def UniqueNames (existing : List ExistingEntry) : Prop := (existing.map fun e => e.entry.name).Nodup

theorem UniqueNames.index_eq (h : UniqueNames existing) {j : Nat} {a b : ExistingEntry}
    (ha : existing[i]? = some a) (hb : existing[j]? = some b) (hname : a.entry.name = b.entry.name) : i = j := by
  have hi : i < (existing.map fun e => e.entry.name).length := by
    rw [length_map]
    exact (List.getElem?_eq_some_iff.mp ha).1
  apply (getElem?_inj hi h).mp
  rw [getElem?_map, getElem?_map, ha, hb, Option.map_some, Option.map_some, hname]

theorem names_marksAfter (existing : List ExistingEntry) (sels : List Selected) :
    (marksAfter existing sels).map (fun e => e.entry) = existing.map fun e => e.entry := by
  apply ext_getElem?
  intro i
  rw [getElem?_map, getElem?_map, marksAfter_getElem?, Option.map_map]
  congr 1
  funext e
  cases deletedBy sels i <;> rfl

theorem uniqueNames_of_entries {a b : List ExistingEntry} (h : b.map (fun e => e.entry) = a.map fun e => e.entry)
    (hunique : UniqueNames a) : UniqueNames b := by
  unfold UniqueNames at hunique ⊢
  have hnames := congrArg (List.map CentralEntry.name) h
  rw [map_map, map_map] at hnames
  have hb : b.map (fun e => e.entry.name) = a.map fun e => e.entry.name := hnames
  rw [hb]
  exact hunique

theorem nodup_keptEntries (h : UniqueNames existing) : ((keptEntries existing).map CentralEntry.name).Nodup := by
  unfold keptEntries
  rw [map_map]
  exact h.sublist (filter_sublist.map _)

theorem mem_keptEntries {c : CentralEntry} :
    c ∈ keptEntries existing ↔ ∃ (i : Nat) (e : ExistingEntry), existing[i]? = some e ∧ e.delete = false ∧ e.entry = c := by
  unfold keptEntries
  rw [mem_map]
  refine ⟨?_, ?_⟩
  · intro ⟨e, he, heq⟩
    obtain ⟨hmem, hdelete⟩ := mem_filter.mp he
    obtain ⟨i, hi⟩ := getElem?_of_mem hmem
    exact ⟨i, e, hi, by simpa using hdelete, heq⟩
  · intro ⟨i, e, hi, hdelete, heq⟩
    exact ⟨e, mem_filter.mpr ⟨mem_of_getElem? hi, by simp [hdelete]⟩, heq⟩

/-! ## What a selection finds -/

section
variable {opts : Options} {env : Env}

variable {name : CText} {place : Nat}

theorem findExisting_some {j : Nat} (h : findExisting existing name = some j) :
    ∃ e, existing[j]? = some e ∧ e.delete = false ∧ e.entry.name = name := by
  obtain ⟨hlt, hfound, _⟩ := findIdx?_eq_some_iff_getElem.mp h
  rw [Bool.and_eq_true, Bool.not_eq_true', beq_iff_eq] at hfound
  exact ⟨existing[j], getElem?_eq_getElem hlt, hfound.1, hfound.2⟩

theorem findExisting_none (h : findExisting existing name = none)
    (he : existing[i]? = some e) (hdelete : e.delete = false) : e.entry.name ≠ name := by
  have hnot := findIdx?_eq_none_iff.mp h e (mem_of_getElem? he)
  intro hname
  simp [hdelete, hname] at hnot

theorem selectInput_write {path name : CText} {info : InputInfo}
    {found : Option Nat} (h : selectInput opts env place path existing = .write name info found) :
    findExisting existing name = found := by
  unfold selectInput at h
  by_cases hinclude : (!env.shouldInclude path.val) = true
  · rw [if_pos hinclude] at h
    cases h
  · rw [if_neg hinclude] at h
    cases hinfo : env.describeInput place with
    | none => simp [hinfo] at h
    | some i =>
      rw [hinfo] at h
      dsimp only at h
      by_cases hdir : (i.isDir && opts.noDirEntries) = true
      · rw [if_pos hdir] at h
        cases h
      · rw [if_neg hdir] at h
        by_cases htime : (!timeSelected opts i.mtime) = true
        · rw [if_pos htime] at h
          cases h
        · rw [if_neg htime] at h
          cases hfind : findExisting existing (entryName opts path i) with
          | none =>
            rw [hfind] at h
            dsimp only at h
            by_cases hfreshen : opts.freshen = true
            · simp [hfreshen] at h
            · rw [if_neg hfreshen] at h
              cases h
              exact hfind
          | some j =>
            rw [hfind] at h
            dsimp only at h
            by_cases hdate : ((opts.freshen || opts.update) && !(existing[j]?.any (processEntry opts i))) = true
            · rw [if_pos hdate] at h
              cases h
            · rw [if_neg hdate] at h
              cases h
              exact hfind

theorem selectedAt_find {path : CText} (h : sel ∈ selectedAt opts env place path existing) :
    findExisting existing sel.name = sel.found ∧ selectedAt opts env place path existing = [sel] := by
  unfold selectedAt at h ⊢
  cases hselect : selectInput opts env place path existing with
  | skip =>
    rw [hselect] at h
    exact (not_mem_nil h).elim
  | upToDate =>
    rw [hselect] at h
    exact (not_mem_nil h).elim
  | write name info found =>
    rw [hselect] at h
    rw [mem_singleton.mp h]
    exact ⟨selectInput_write hselect, rfl⟩

theorem selections_found {inputs : List CText}
    (hunique : UniqueNames existing) (hsel : sel ∈ selections opts env place inputs existing) :
    (∀ j, sel.found = some j → ∃ e, existing[j]? = some e ∧ e.delete = false ∧ e.entry.name = sel.name)
      ∧ ∀ (i : Nat) (e : ExistingEntry), (marksAfter existing (selections opts env place inputs existing))[i]? = some e → e.delete = false →
        e.entry.name ≠ sel.name := by
  induction inputs generalizing place existing with
  | nil => exact (not_mem_nil hsel).elim
  | cons path inputs ih =>
    unfold selections at hsel ⊢
    cases mem_append.mp hsel with
    | inl hfirst =>
      obtain ⟨hfind, hone⟩ := selectedAt_find hfirst
      refine ⟨fun j hj => findExisting_some (hfind.trans hj), ?_⟩
      intro i e hget hdelete hname
      rw [marksAfter_append] at hget
      obtain ⟨hget, _⟩ := getElem?_of_marksAfter hget hdelete
      obtain ⟨hget, hby⟩ := getElem?_of_marksAfter hget hdelete
      cases hfound : sel.found with
      | none => exact findExisting_none (hfind.trans hfound) hget hdelete hname
      | some j =>
        obtain ⟨a, ha, _, hname'⟩ := findExisting_some (hfind.trans hfound)
        have hij : i = j := hunique.index_eq hget ha (hname.trans hname'.symm)
        rw [hone, hij] at hby
        simp [deletedBy, hfound] at hby
    | inr hrest =>
      have hunique' := uniqueNames_of_entries
        (names_marksAfter existing (selectedAt opts env place path existing)) hunique
      obtain ⟨hfound, hgone⟩ := ih hunique' hrest
      refine ⟨?_, ?_⟩
      · intro j hj
        obtain ⟨e, he, hdelete, hname⟩ := hfound j hj
        exact ⟨e, (getElem?_of_marksAfter he hdelete).1, hdelete, hname⟩
      · intro i e hget hdelete
        rw [marksAfter_append] at hget
        exact hgone i e hget hdelete

end

/-! ## A whole run -/

/-- The new archive as an update of the old one: each name once, the written names with the data of an input of that name,
every other member that is not selected for deletion as it was -/
structure MapUpdate (opts : Options) (env : Env) (f : File) (existing : List ExistingEntry) (sels : List Selected)
    (r : Result) : Prop where
  distinct : (r.entries.map WriterEntry.name).Nodup
  inputs : ∀ sel ∈ written opts sels, ∃ w ∈ r.entries, w.name = sel.name
    ∧ ∃ input ∈ written opts sels, input.name = sel.name ∧ InputEntry env r.archive input w
  kept : ∀ e ∈ existing, (∃ sel ∈ written opts sels, sel.name = e.entry.name)
    ∨ (opts.filesync = true ∧ env.sourceExists e.entry.name.val = false)
    ∨ ∃ w ∈ r.entries, KeptIn opts env f r.archive r.entries e.entry w

variable {w : WriterEntry} {out : Bytes} {α β : Type}

theorem InputEntry.name {env : Env} (h : InputEntry env out sel w) : w.name = sel.name := by
  obtain ⟨_, _, _, _, hentry, _⟩ := h
  rw [hentry]
  rfl

theorem KeptIn.name {opts : Options} {env : Env} {f : File} {entries : List WriterEntry} {e : CentralEntry}
    (h : KeptIn opts env f out entries e w) : w.name = e.name := by
  obtain ⟨_, _, hentry, _, _, _⟩ := h
  rw [hentry]
  rfl

theorem map_eq_of_forall₂ {γ : Type} {R : α → β → Prop} {f : α → γ} {g : β → γ} (hR : ∀ a b, R a b → g b = f a)
    {as : List α} {bs : List β} (h : List.Forall₂ R as bs) : bs.map g = as.map f := by
  induction h with
  | nil => rfl
  | cons hab _ ih => rw [map_cons, map_cons, hR _ _ hab, ih]

variable {R : α → β → Prop} {as : List α} {bs : List β}

theorem exists_left_of_forall₂ (h : List.Forall₂ R as bs) {b : β} (hb : b ∈ bs) : ∃ a ∈ as, R a b := by
  induction h with
  | nil => exact (not_mem_nil hb).elim
  | cons hab _ ih =>
    cases mem_cons.mp hb with
    | inl heq => exact ⟨_, mem_cons_self, heq ▸ hab⟩
    | inr hin =>
      obtain ⟨a, ha, hR⟩ := ih hin
      exact ⟨a, mem_cons_of_mem _ ha, hR⟩

theorem exists_right_of_forall₂ (h : List.Forall₂ R as bs) {a : α} (ha : a ∈ as) : ∃ b ∈ bs, R a b :=
  exists_left_of_forall₂ (R := fun b a => R a b) h.flip ha

section
variable {opts : Options} {env : Env} {inputs : List CText} {f : File} {existing : List ExistingEntry}

theorem modifyArchive_entries (hok : (modifyArchive opts env inputs (some (f, existing))).status = none)
    (hdry : opts.dryRun = false) (hmode : (opts.differenceMode || opts.copyMode) = false) :
    ∃ added copied, (modifyArchive opts env inputs (some (f, existing))).entries = added ++ copied
      ∧ List.Forall₂ (InputEntry env (modifyArchive opts env inputs (some (f, existing))).archive)
        (written opts (selections opts env 0 inputs (preparedMarks opts env inputs existing))) added
      ∧ List.Forall₂ (KeptIn opts env f (modifyArchive opts env inputs (some (f, existing))).archive
          (modifyArchive opts env inputs (some (f, existing))).entries)
        (keptEntries (marksAfter (preparedMarks opts env inputs existing)
          (selections opts env 0 inputs (preparedMarks opts env inputs existing)))) copied := by
  obtain ⟨s₀, s₁, s₂, tail, hprepare, hinputs, hcopy, htail, hrun⟩ := modifyArchive_completed hok hdry
  have hstart := prepareRun_ok hprepare
  obtain ⟨_, hentries, _, harchive⟩ := @finishRun_fields opts env (s₂.out ++ tail) s₂
  rw [hrun, hentries, harchive]
  have hspec := @addInputs_spec opts env 0 inputs s₀
  unfold writeInputs at hinputs
  rw [hmode, if_neg Bool.false_ne_true] at hinputs
  rw [hinputs] at hspec
  obtain ⟨_, hadded⟩ := hspec
  have hcopied := copyEntries_spec hcopy
  obtain ⟨added, hadd, hall⟩ := hadded.entries
  obtain ⟨copied, hcop, hall'⟩ := hcopied.entries
  obtain ⟨more, hmore, _⟩ := hcopied.out
  have hmarks : s₀.existing = preparedMarks opts env inputs existing := by
    rw [hstart]
    rfl
  have hnone : s₀.entries = [] := by
    rw [hstart]
    rfl
  rw [hmarks] at hall
  rw [hadded.existing, hmarks] at hall'
  refine ⟨added, copied, ?_, ?_, ?_⟩
  · rw [hcop, hadd, hnone, nil_append]
  · apply hall.imp
    intro sel w hentry
    rw [hmore, append_assoc]
    exact hentry.append _
  · apply hall'.imp
    intro e w hkept
    exact hkept.keptIn tail

theorem preparedMarks_getElem? (hmode : (opts.differenceMode || opts.copyMode) = false) (i : Nat) :
    (preparedMarks opts env inputs existing)[i]? = existing[i]?.map fun e =>
      if opts.filesync && (!e.delete && !env.sourceExists e.entry.name.val) then markDelete e else e := by
  obtain ⟨hdiff, hcopy⟩ := Bool.or_eq_false_iff.mp hmode
  unfold preparedMarks copyMarks
  rw [hdiff, hcopy, if_neg Bool.false_ne_true]
  cases hsync : opts.filesync with
  | false => simp
  | true => simp [markFilesync]

variable (hok : (modifyArchive opts env inputs (some (f, existing))).status = none) (hdry : opts.dryRun = false)
variable (hmode : (opts.differenceMode || opts.copyMode) = false) (hfresh : ∀ e ∈ existing, e.delete = false)
variable (hunique : UniqueNames existing)
include hok hdry hmode hfresh hunique

/-- **Main result.** A successful run is an update of the archive as a map exactly when the written inputs have different
names and a directory that gets no record replaces no member, unless another input is written under its name. -/
theorem mapUpdate_iff :
    MapUpdate opts env f existing (selections opts env 0 inputs (preparedMarks opts env inputs existing))
        (modifyArchive opts env inputs (some (f, existing)))
      ↔ ((written opts (selections opts env 0 inputs (preparedMarks opts env inputs existing))).map Selected.name).Nodup
        ∧ ∀ sel ∈ selections opts env 0 inputs (preparedMarks opts env inputs existing),
          isWritten opts sel.info = false → sel.found ≠ none →
          ∃ input ∈ written opts (selections opts env 0 inputs (preparedMarks opts env inputs existing)),
            input.name = sel.name := by
  obtain ⟨added, copied, hentries, hadded, hcopied⟩ := modifyArchive_entries hok hdry hmode
  obtain ⟨marks, hmarks⟩ : ∃ m, m = preparedMarks opts env inputs existing := ⟨_, rfl⟩
  obtain ⟨sels, hsels⟩ : ∃ l, l = selections opts env 0 inputs marks := ⟨_, rfl⟩
  rw [← hmarks, ← hsels] at hadded hcopied
  rw [← hmarks, ← hsels]
  have hget : ∀ i : Nat, marks[i]? = existing[i]?.map fun e =>
      if opts.filesync && (!e.delete && !env.sourceExists e.entry.name.val) then markDelete e else e := by
    intro i
    rw [hmarks]
    exact preparedMarks_getElem? hmode i
  have huniqueMarks : UniqueNames marks := by
    apply uniqueNames_of_entries _ hunique
    apply ext_getElem?
    intro i
    rw [getElem?_map, getElem?_map, hget, Option.map_map]
    congr 1
    funext e
    simp only [Function.comp_apply]
    by_cases hsync : (opts.filesync && (!e.delete && !env.sourceExists e.entry.name.val)) = true
    · rw [if_pos hsync]
      rfl
    · rw [if_neg hsync]
  have hfound : ∀ sel ∈ sels,
      (∀ j, sel.found = some j → ∃ e, marks[j]? = some e ∧ e.delete = false ∧ e.entry.name = sel.name)
        ∧ ∀ (i : Nat) (e : ExistingEntry), (marksAfter marks sels)[i]? = some e → e.delete = false →
          e.entry.name ≠ sel.name := by
    rw [hsels]
    intro sel hsel
    exact selections_found huniqueMarks hsel
  have hnamesAdded : added.map WriterEntry.name = (written opts sels).map Selected.name :=
    map_eq_of_forall₂ (fun _ _ h => InputEntry.name h) hadded
  have hnamesCopied : copied.map WriterEntry.name = (keptEntries (marksAfter marks sels)).map CentralEntry.name :=
    map_eq_of_forall₂ (fun _ _ h => KeptIn.name h) hcopied
  -- no kept member has the name of a selection
  have hapart : ∀ sel ∈ sels, ∀ c ∈ keptEntries (marksAfter marks sels), c.name ≠ sel.name := by
    intro sel hsel c hc
    obtain ⟨i, e, hi, hdelete, heq⟩ := mem_keptEntries.mp hc
    rw [← heq]
    exact (hfound sel hsel).2 i e hi hdelete
  have hdistinct : ((modifyArchive opts env inputs (some (f, existing))).entries.map WriterEntry.name).Nodup
      ↔ ((written opts sels).map Selected.name).Nodup := by
    rw [hentries, map_append, hnamesAdded, hnamesCopied, nodup_append]
    refine ⟨fun h => h.1, fun h => ⟨h, ?_, ?_⟩⟩
    · exact nodup_keptEntries (uniqueNames_of_entries (names_marksAfter marks sels) huniqueMarks)
    · intro n hn m hm heq
      obtain ⟨sel, hsel, rfl⟩ := mem_map.mp hn
      obtain ⟨c, hc, rfl⟩ := mem_map.mp hm
      exact hapart sel (mem_filter.mp hsel).1 c hc heq.symm
  refine ⟨?_, ?_⟩
  · intro h
    refine ⟨hdistinct.mp h.distinct, ?_⟩
    intro sel hsel hdropped hne
    obtain ⟨j, hj⟩ := Option.ne_none_iff_exists'.mp hne
    obtain ⟨e, he, hdelete, hname⟩ := (hfound sel hsel).1 j hj
    have hold := hget j
    rw [he] at hold
    obtain ⟨old, holdGet, heq⟩ := Option.map_eq_some_iff.mp hold.symm
    have hplain : (opts.filesync && (!old.delete && !env.sourceExists old.entry.name.val)) = false := by
      cases hsync : opts.filesync && (!old.delete && !env.sourceExists old.entry.name.val) with
      | false => rfl
      | true =>
        rw [hsync, if_pos rfl] at heq
        rw [← heq] at hdelete
        cases hdelete
    rw [hplain, if_neg Bool.false_ne_true] at heq
    subst heq
    cases h.kept old (mem_of_getElem? holdGet) with
    | inl hwritten =>
      obtain ⟨input, hinput, heq⟩ := hwritten
      exact ⟨input, hinput, heq.trans hname⟩
    | inr h =>
      cases h with
      | inl hgone =>
        rw [hgone.1, hgone.2, hdelete] at hplain
        cases hplain
      | inr hkept =>
        obtain ⟨w, hw, hkept⟩ := hkept
        rw [hentries] at hw
        cases mem_append.mp hw with
        | inl hin =>
          obtain ⟨input, hinput, hentry⟩ := exists_left_of_forall₂ hadded hin
          exact ⟨input, hinput, hentry.name.symm.trans (hkept.name.trans hname)⟩
        | inr hin =>
          obtain ⟨c, hc, hcKept⟩ := exists_left_of_forall₂ hcopied hin
          exact absurd (hcKept.name.symm.trans (hkept.name.trans hname)) (hapart sel hsel c hc)
  · intro ⟨hnodup, hreplaced⟩
    refine ⟨hdistinct.mpr hnodup, ?_, ?_⟩
    · intro sel hsel
      obtain ⟨w, hw, hentry⟩ := exists_right_of_forall₂ hadded hsel
      exact ⟨w, by rw [hentries]; exact mem_append_left _ hw, hentry.name, sel, hsel, rfl, hentry⟩
    · intro e he
      obtain ⟨i, hi⟩ := getElem?_of_mem he
      cases hsync : opts.filesync && (!e.delete && !env.sourceExists e.entry.name.val) with
      | true =>
        simp only [Bool.and_eq_true, Bool.not_eq_true'] at hsync
        exact Or.inr (Or.inl ⟨hsync.1, hsync.2.2⟩)
      | false =>
        have hmark : marks[i]? = some e := by
          rw [hget, hi, Option.map_some, hsync, if_neg Bool.false_ne_true]
        cases hby : deletedBy sels i with
        | true =>
          obtain ⟨sel, hsel, heq⟩ := any_eq_true.mp hby
          have hj := eq_of_beq heq
          obtain ⟨a, ha, _, hname⟩ := (hfound sel hsel).1 i hj
          obtain rfl : a = e := Option.some.inj (ha.symm.trans hmark)
          refine Or.inl ?_
          cases hwritten : isWritten opts sel.info with
          | true => exact ⟨sel, mem_filter.mpr ⟨hsel, hwritten⟩, hname.symm⟩
          | false =>
            have hne : sel.found ≠ none := by
              rw [hj]
              exact Option.some_ne_none i
            obtain ⟨input, hinput, heq⟩ := hreplaced sel hsel hwritten hne
            exact ⟨input, hinput, heq.trans hname.symm⟩
        | false =>
          have hfinal : (marksAfter marks sels)[i]? = some e := by
            rw [marksAfter_getElem?, hmark, Option.map_some, hby, if_neg Bool.false_ne_true]
          have hmem := mem_keptEntries.mpr ⟨i, e, hfinal, hfresh e he, rfl⟩
          obtain ⟨w, hw, hkept⟩ := exists_right_of_forall₂ hcopied hmem
          exact Or.inr (Or.inr ⟨w, by rw [hentries]; exact mem_append_right _ hw, hkept⟩)

end

/-! ## Two inputs of one name -/

def emptyArchive : File := ⟨(endCentral 0 0 0 0).bytes, by rw [EndCentral.length_bytes]; decide⟩

def pathA : CText := ⟨ascii "a/x", by decide⟩
def pathB : CText := ⟨ascii "b/x", by decide⟩

theorem mapUpdate_iff_one : MapUpdate junkPaths plainEnv emptyArchive [] (selections junkPaths plainEnv 0 [pathA] [])
        (modifyArchive junkPaths plainEnv [pathA] (some (emptyArchive, [])))
      ↔ ((written junkPaths (selections junkPaths plainEnv 0 [pathA] [])).map Selected.name).Nodup
        ∧ ∀ sel ∈ selections junkPaths plainEnv 0 [pathA] [], isWritten junkPaths sel.info = false → sel.found ≠ none →
          ∃ input ∈ written junkPaths (selections junkPaths plainEnv 0 [pathA] []), input.name = sel.name :=
  mapUpdate_iff (by decide) rfl rfl (fun _ h => (not_mem_nil h).elim) nodup_nil

theorem mapUpdate_repeats_name :
    ¬∀ (opts : Options) (env : Env) (inputs : List CText) (f : File) (existing : List ExistingEntry),
      (modifyArchive opts env inputs (some (f, existing))).status = none → opts.dryRun = false →
      (opts.differenceMode || opts.copyMode) = false → (∀ e ∈ existing, e.delete = false) → UniqueNames existing →
      MapUpdate opts env f existing (selections opts env 0 inputs (preparedMarks opts env inputs existing))
        (modifyArchive opts env inputs (some (f, existing))) := by
  intro hall
  have hupdate := hall junkPaths plainEnv [pathA, pathB] emptyArchive [] (by decide) rfl rfl
    (fun _ h => (not_mem_nil h).elim) nodup_nil
  have htwice : ¬((modifyArchive junkPaths plainEnv [pathA, pathB] (some (emptyArchive, []))).entries.map
      WriterEntry.name).Nodup := by
    decide
  exact htwice hupdate.distinct

end Bx.Zip
