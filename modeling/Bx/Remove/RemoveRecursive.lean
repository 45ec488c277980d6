import Bx.Remove.RemoveSpec

/-!
# The implementation that calls itself

A child's removal leaves its siblings alone, so the children of a directory are
all removed if and only if each of them is clean, in whatever state its turn
comes.
-/

namespace Bx.Remove

open Kit List

section
variable {w : World} {ancestors : List Identity} {q : Loc} {r : Run}

/-- What the calls for some children of `q` do together -/
structure Walked (w : World) (ancestors : List Identity) (q : Loc) (names : List Bytes) (r : Run) (ok : Bool)
    (out : Bool × Run) : Prop where
  removes : ∃ log, out.2.removed = r.removed ++ log ∧ Removes r.fs log out.2.fs ∧
    ∀ x ∈ log, ∃ n ∈ names, q ++ [n] <+: x
  ok_iff : out.1 = true ↔ ok = true ∧ ∀ n ∈ names, AllClean w r.fs ancestors (q ++ [n])
  gone : out.1 = true → ∀ n ∈ names, ∀ x, q ++ [n] <+: x → out.2.fs x = none

theorem Walked.stop (names : List Bytes) (r : Run) : Walked w ancestors q names r false (false, r) :=
  ⟨⟨[], (append_nil _).symm, .nil, fun _ hx => absurd hx not_mem_nil⟩,
    ⟨fun h => absurd h Bool.false_ne_true, fun h => absurd h.1 Bool.false_ne_true⟩,
    fun h => absurd h Bool.false_ne_true⟩

theorem Outcome.same_of_ne {n : Bytes} {first : Bool × Run} (h : Outcome w ancestors (q ++ [n]) r first) {n' : Bytes}
    (hne : n' ≠ n) (x : Loc) (hunder : q ++ [n'] <+: x) : first.2.fs x = r.fs x :=
  h.frame fun hunder' => hne (child_below_inj hunder hunder')

theorem Walked.cons {n : Bytes} {names : List Bytes} {ok : Bool} {first out : Bool × Run}
    (hfirst : Outcome w ancestors (q ++ [n]) r first) (hnotin : n ∉ names)
    (h : Walked w ancestors q names first.2 (ok && first.1) out) : Walked w ancestors q (n :: names) r ok out := by
  obtain ⟨⟨log', hremoved', hlog', hunder'⟩, hok, hgone⟩ := h
  obtain ⟨log, hremoved, hlog, hunder⟩ := hfirst.removes
  have hsame : ∀ n' ∈ names, ∀ x, q ++ [n'] <+: x → first.2.fs x = r.fs x :=
    fun n' hn' => hfirst.same_of_ne fun heq => hnotin (heq ▸ hn')
  refine ⟨⟨log ++ log', ?_, hlog.trans hlog', ?_⟩, ?_, ?_⟩
  · rw [hremoved', hremoved, append_assoc]
  · intro x hx
    cases mem_append.mp hx with
    | inl hin => exact ⟨n, mem_cons_self, hunder x hin⟩
    | inr hin =>
      obtain ⟨n', hn', hx'⟩ := hunder' x hin
      exact ⟨n', mem_cons_of_mem _ hn', hx'⟩
  · rw [hok, Bool.and_eq_true, hfirst.ok_iff]
    refine ⟨?_, ?_⟩
    · intro ⟨⟨hokay, hclean⟩, hrest⟩
      refine ⟨hokay, ?_⟩
      intro n' hn'
      cases mem_cons.mp hn' with
      | inl heq =>
        rw [heq]
        exact hclean
      | inr hin => exact (AllClean.congr (hsame n' hin)).mp (hrest n' hin)
    · intro ⟨hokay, hclean⟩
      refine ⟨⟨hokay, hclean n mem_cons_self⟩, ?_⟩
      intro n' hn'
      exact (AllClean.congr (hsame n' hn')).mpr (hclean n' (mem_cons_of_mem _ hn'))
  · intro hdone n' hn' x hx
    cases mem_cons.mp hn' with
    | inl heq =>
      rw [heq] at hx
      have hfirstOk := (hok.mp hdone).1
      rw [Bool.and_eq_true] at hfirstOk
      have hnone := hfirst.gone hfirstOk.2 x hx
      cases hlog'.eq_or_none x with
      | inl hkept => exact hkept.trans hnone
      | inr hgone' => exact hgone'
    | inr hin => exact hgone hdone n' hin x hx

theorem walked_of_children {child : Bytes → Run → Bool × Run}
    (hchild : ∀ n r, Wf w r.fs → r.fs (q ++ [n]) ≠ none → Outcome w ancestors (q ++ [n]) r (child n r))
    {names : List Bytes} (hnodup : names.Nodup) (hwf : Wf w r.fs) (hthere : ∀ n ∈ names, r.fs (q ++ [n]) ≠ none)
    (ok : Bool) :
    Walked w ancestors q names r ok
      (names.foldl (fun done n => (done.1 && (child n done.2).1, (child n done.2).2)) (ok, r)) := by
  induction names generalizing r ok with
  | nil =>
    refine ⟨⟨[], (append_nil _).symm, .nil, fun x hx => absurd hx not_mem_nil⟩, ?_, ?_⟩
    · exact ⟨fun h => ⟨h, fun n hn => absurd hn not_mem_nil⟩, fun h => h.1⟩
    · exact fun _ n hn => absurd hn not_mem_nil
  | cons n names ih =>
    obtain ⟨hnotin, hnodup'⟩ := nodup_cons.mp hnodup
    have hfirst := hchild n r hwf (hthere n mem_cons_self)
    have hthere' : ∀ n' ∈ names, (child n r).2.fs (q ++ [n']) ≠ none := by
      intro n' hn'
      rw [hfirst.same_of_ne (fun heq => hnotin (heq ▸ hn')) _ (prefix_refl _)]
      exact hthere n' (mem_cons_of_mem _ hn')
    exact Walked.cons hfirst hnotin (ih hnodup' (hfirst.wf hwf) hthere' (ok && (child n r).1))

/-! ## A directory that is open -/

/-- The directory `q` is open, it is found, and it is not one of those above it. -/
structure Opened (w : World) (ancestors : List Identity) (q : Loc) (st : Status) (r : Run) : Prop where
  wf : Wf w r.fs
  st_eq : r.fs q = some st
  dir : st.kind = .directory
  lookup : w.fails .lookup q = false
  fresh : st.id ∉ ancestors
  open_ : w.fails .open q = false

section
variable {st : Status} {names : List Bytes} {out : Bool × Run}

theorem Opened.allClean_iff (h : Opened w ancestors q st r) (hnames : ∀ n, n ∈ names ↔ n ∈ w.readdir r.fs q) :
    AllClean w r.fs ancestors q ↔
      w.fails .rmdir q = false ∧ ∀ n ∈ names, AllClean w r.fs (st.id :: ancestors) (q ++ [n]) := by
  rw [allClean_dir h.st_eq h.dir]
  refine ⟨fun hclean => ⟨hclean.1.2.2.2, fun n _ => hclean.2 n⟩, ?_⟩
  intro ⟨hrmdir, hchildren⟩
  refine ⟨⟨h.lookup, h.fresh, h.open_, hrmdir⟩, ?_⟩
  intro n
  by_cases hn : n ∈ names
  · exact hchildren n hn
  · exact allClean_none h.wf (not_not.mp (mt (fun hthere => (hnames n).mpr (h.wf.mem_readdir.mpr hthere)) hn))

theorem Walked.self (h : Walked w (st.id :: ancestors) q names r true out) (hst : r.fs q = some st) :
    out.2.fs q = some st := by
  obtain ⟨log, _, hlog, hunder⟩ := h.removes
  rw [hlog.left_eq, if_neg, hst]
  intro hmem
  obtain ⟨n, _, hn⟩ := hunder q hmem
  exact ne_of_child_below hn rfl

theorem Walked.frame (h : Walked w ancestors q names r true out) {x : Loc} (hx : ¬ q <+: x) : out.2.fs x = r.fs x := by
  obtain ⟨log, _, hlog, hunder⟩ := h.removes
  apply hlog.frame _ hx
  intro y hy
  obtain ⟨n, _, hn⟩ := hunder y hy
  exact below_of_child_below hn

section
variable (h : Walked w (st.id :: ancestors) q names r true out) (hopened : Opened w ancestors q st r)
  (hnames : ∀ n, n ∈ names ↔ n ∈ w.readdir r.fs q)
include h hopened hnames

theorem Walked.failed (hfalse : out.1 = false) : Outcome w ancestors q r out := by
  obtain ⟨log, hremoved, hlog, hunder⟩ := h.removes
  refine ⟨⟨log, hremoved, hlog, ?_⟩, ?_, fun htrue => absurd (hfalse.symm.trans htrue) Bool.false_ne_true⟩
  · intro x hx
    obtain ⟨n, _, hn⟩ := hunder x hx
    exact below_of_child_below hn
  · refine ⟨fun htrue => absurd (hfalse.symm.trans htrue) Bool.false_ne_true, ?_⟩
    intro hall
    exact h.ok_iff.mpr ⟨rfl, ((hopened.allClean_iff hnames).mp hall).2⟩

theorem Walked.below_none (htrue : out.1 = true) : ∀ x, q <+: x → x ≠ q → out.2.fs x = none := by
  intro x hx hne
  obtain ⟨log, _, hlog, _⟩ := h.removes
  obtain ⟨n, hn⟩ := child_below_of_below hx hne.symm
  by_cases hin : n ∈ names
  · exact h.gone htrue n hin x hn
  · have hnone : r.fs (q ++ [n]) = none :=
      not_not.mp (mt (fun hthere => (hnames n).mpr (hopened.wf.mem_readdir.mpr hthere)) hin)
    cases hlog.eq_or_none x with
    | inl hkept => exact hkept.trans (hopened.wf.none_below hnone hn)
    | inr hgone => exact hgone

theorem Walked.finish (htrue : out.1 = true) : Outcome w ancestors q r (removeWith w.rmdir q out.2) := by
  have hbelow := h.below_none hopened hnames htrue
  have hself := h.self hopened.st_eq
  obtain ⟨log, hremoved, hlog, hunder⟩ := h.removes
  have hlog' : ∀ x ∈ log, q <+: x := by
    intro x hx
    obtain ⟨n, _, hn⟩ := hunder x hx
    exact below_of_child_below hn
  have hempty : w.readdir out.2.fs q = [] := by
    apply eq_nil_iff_forall_not_mem.mpr
    intro n hn
    have hthere := (hopened.wf.of_removes hlog).mem_readdir.mp hn
    exact hthere (hbelow _ (prefix_append q [n]) fun heq => ne_of_child_below (prefix_refl _) heq.symm)
  cases hrmdir : w.fails .rmdir q with
  | false =>
    rw [rmdir_self hrmdir hself hopened.dir hempty, hremoved]
    exact .of_removed hlog hlog' (hself ▸ Option.some_ne_none st) hbelow
      ((hopened.allClean_iff hnames).mpr ⟨hrmdir, (h.ok_iff.mp htrue).2⟩)
  | true =>
    obtain ⟨d, hd⟩ := rmdir_of_fails (r := out.2) hrmdir
    rw [hd]
    refine ⟨⟨log, hremoved, hlog, hlog'⟩, ?_, fun hfalse => absurd hfalse Bool.false_ne_true⟩
    refine ⟨fun hfalse => absurd hfalse Bool.false_ne_true, ?_⟩
    intro hall
    have hfalse := ((hopened.allClean_iff hnames).mp hall).1
    simp [hrmdir] at hfalse

end

theorem openedDir_outcome {child : Loc → Bytes → Run → Bool × Run} (hopened : Opened w ancestors q st r)
    (hchild : ∀ n r, Wf w r.fs → r.fs (q ++ [n]) ≠ none →
      Outcome w (st.id :: ancestors) (q ++ [n]) r (child q n r)) :
    Outcome w ancestors q r (removeRecursiveOpenedDir w child q st q r) := by
  have hwalked := walked_of_children hchild (hopened.wf.nodup_readdir q) hopened.wf
    (fun n hn => hopened.wf.mem_readdir.mp hn) true
  unfold removeRecursiveOpenedDir
  dsimp only
  generalize (w.readdir r.fs q).foldl (fun done name => (done.1 && (child q name done.2).1, (child q name done.2).2))
    (true, r) = walked at hwalked ⊢
  cases hokay : walked.1 with
  | false =>
    rw [if_neg Bool.false_ne_true]
    exact hwalked.failed hopened (fun _ => Iff.rfl) hokay
  | true =>
    rw [if_pos rfl, verifyEntry_self hopened.lookup (hwalked.self hopened.st_eq)]
    dsimp only
    rw [if_pos rfl]
    exact hwalked.finish hopened (fun _ => Iff.rfl) hokay

end

variable {st : Status}

theorem unlink_outcome (hwf : Wf w r.fs) (hst : r.fs q = some st) (hleaf : st.kind ≠ .directory)
    (hlookup : w.fails .lookup q = false) : Outcome w ancestors q r (removeWith w.unlink q r) := by
  cases hunlink : w.fails .unlink q with
  | false =>
    rw [unlink_self hunlink hst hleaf]
    have hout := @Outcome.of_removed w ancestors q r r.fs [] r.diags .nil
      (fun x hx => absurd hx not_mem_nil) (hst ▸ Option.some_ne_none st)
      (fun x hx hne => hwf.below_none (fun st' hst' => by rw [hst] at hst'; cases hst'; exact hleaf) hx hne)
      ((allClean_leaf hwf hst hleaf).mpr ⟨hlookup, hunlink⟩)
    rw [append_nil] at hout
    exact hout
  | true =>
    obtain ⟨d, hd⟩ := unlink_of_fails (r := r) hunlink
    rw [hd]
    apply Outcome.of_diag
    rw [allClean_leaf hwf hst hleaf, hunlink]
    exact fun h => Bool.false_ne_true h.2.symm

variable {name : Bytes} {parent : Loc} {expected : Option Identity}

theorem removeRecursiveChild_outcome {fuel : Nat} (hwf : Wf w r.fs)
    (hthere : r.fs (parent ++ [name]) ≠ none) (hfuel : w.depth < (parent ++ [name]).length + fuel) :
    Outcome w ancestors (parent ++ [name]) r (removeRecursiveChild w fuel ancestors parent name r) := by
  induction fuel generalizing ancestors parent name r with
  | zero =>
    have hdepth := hwf.depth _ hthere
    omega
  | succ fuel ih =>
    obtain ⟨st, hst⟩ := Option.ne_none_iff_exists'.mp hthere
    unfold removeRecursiveChild
    dsimp only
    generalize hq : parent ++ [name] = q at hst hfuel ⊢
    cases hlookup : w.fails .lookup q with
    | true =>
      rw [lstat_of_fails hlookup]
      dsimp only
      rw [if_neg (by decide)]
      apply Outcome.of_diag
      intro hall
      have hfalse := (hall q st (prefix_refl q) hst).lookup
      simp [hlookup] at hfalse
    | false =>
      rw [lstat_of_lookup hlookup hst]
      dsimp only
      by_cases hdir : st.kind = .directory
      · rw [if_neg (not_not_intro hdir)]
        by_cases hcycle : st.id ∈ ancestors
        · rw [if_pos hcycle]
          apply Outcome.of_diag
          rw [allClean_dir hst hdir]
          exact fun h => h.1.2.1 hcycle
        · rw [if_neg hcycle]
          cases hopen : w.fails .open q with
          | true =>
            obtain ⟨d, hd⟩ := openDir_of_fails (r := r) hopen st.id
            rw [hd]
            apply Outcome.of_diag
            rw [allClean_dir hst hdir, hopen]
            exact fun h => Bool.false_ne_true h.1.2.2.1.symm
          | false =>
            rw [openDir_self hopen hst hdir]
            apply openedDir_outcome ⟨hwf, hst, hdir, hlookup, hcycle, hopen⟩
            intro n r' hwf' hthere'
            apply ih hwf' hthere'
            rw [length_append, length_singleton]
            omega
      · rw [if_pos hdir, verifyEntry_self hlookup hst]
        dsimp only
        rw [if_pos rfl]
        exact unlink_outcome hwf hst hdir hlookup

/-! ## The whole subtree -/

theorem removeRecursiveImpl_missing (hlookup : w.fails .lookup q = false) (hnone : r.fs q = none) :
    removeRecursiveImpl w q expected r =
      if expected = none then (true, r) else (false, r.diag (.perror q .noent)) := by
  unfold removeRecursiveImpl
  rw [lstat_noent_iff.mpr ⟨hlookup, hnone⟩]
  simp

theorem removeRecursiveImpl_of_fails (hlookup : w.fails .lookup q = true) :
    removeRecursiveImpl w q expected r = (false, r.diag (.perror q .other)) := by
  unfold removeRecursiveImpl
  rw [lstat_of_fails hlookup]
  rfl

theorem removeRecursiveImpl_other (hlookup : w.fails .lookup q = false)
    (hst : r.fs q = some st) (hother : statMatchesExpected expected st = false) :
    removeRecursiveImpl w q expected r = (false, r.diag (.changed q)) := by
  unfold removeRecursiveImpl checkExpected
  rw [lstat_of_lookup hlookup hst]
  dsimp only
  rw [hother]
  rfl

theorem removeRecursiveImpl_outcome (hwf : Wf w r.fs)
    (hlookup : w.fails .lookup q = false) (hst : r.fs q = some st) (hmatches : statMatchesExpected expected st = true) :
    Outcome w [] q r (removeRecursiveImpl w q expected r) := by
  unfold removeRecursiveImpl checkExpected
  rw [lstat_of_lookup hlookup hst]
  dsimp only
  rw [hmatches, if_pos rfl, Bool.not_true, if_neg Bool.false_ne_true]
  by_cases hdir : st.kind = .directory
  · rw [if_neg (not_not_intro hdir)]
    cases hopen : w.fails .open q with
    | true =>
      obtain ⟨d, hd⟩ := openDir_of_fails (r := r) hopen st.id
      rw [hd]
      apply Outcome.of_diag
      rw [allClean_dir hst hdir, hopen]
      exact fun h => Bool.false_ne_true h.1.2.2.1.symm
    | false =>
      rw [openDir_self hopen hst hdir]
      apply openedDir_outcome ⟨hwf, hst, hdir, hlookup, not_mem_nil, hopen⟩
      intro n r' hwf' hthere'
      apply removeRecursiveChild_outcome hwf' hthere'
      rw [length_append, length_singleton]
      omega
  · rw [if_pos hdir]
    exact unlink_outcome hwf hst hdir hlookup

/-! ## Nothing outside, whatever the file system is -/

def Inside (q : Loc) (r r' : Run) : Prop := ∃ log, r'.removed = r.removed ++ log ∧ ∀ x ∈ log, q <+: x

theorem Inside.of_removed {r' : Run} (h : r'.removed = r.removed) : Inside q r r' :=
  ⟨[], by rw [h, append_nil], fun _ hx => absurd hx not_mem_nil⟩

variable {r' : Run}

theorem Inside.trans {r'' : Run} (h : Inside q r r') (h' : Inside q r' r'') : Inside q r r'' := by
  obtain ⟨log, hremoved, hlog⟩ := h
  obtain ⟨log', hremoved', hlog'⟩ := h'
  refine ⟨log ++ log', by rw [hremoved', hremoved, append_assoc], ?_⟩
  intro x hx
  cases mem_append.mp hx with
  | inl hin => exact hlog x hin
  | inr hin => exact hlog' x hin

theorem Inside.above (h : Inside (q ++ [name]) r r') : Inside q r r' := by
  obtain ⟨log, hremoved, hlog⟩ := h
  exact ⟨log, hremoved, fun x hx => below_of_child_below (hlog x hx)⟩

theorem checkExpected_removed (expected : Option Identity) (actual : Status) :
    (checkExpected q expected actual r).2.removed = r.removed := by
  unfold checkExpected
  split <;> rfl

theorem verifyEntry_removed (expected : Option Identity) : (verifyEntry w q expected r).2.removed = r.removed := by
  unfold verifyEntry
  split
  · rfl
  · exact checkExpected_removed expected _

theorem openDir_removed (expected : Identity) : (openDir w q expected r).2.removed = r.removed := by
  unfold openDir
  split
  · rfl
  · split
    · rfl
    · split
      · rfl
      · split <;> rfl

theorem removeWith_inside (remove : Fs → Loc → Except Errno Fs) : Inside q r (removeWith remove q r).2 := by
  unfold removeWith
  split
  · exact .of_removed rfl
  · refine ⟨[q], rfl, ?_⟩
    intro x hx
    rw [mem_singleton.mp hx]

theorem openDir_place {expected : Identity} {fd : Loc} {opened : Status}
    (h : openDir w q expected r = (some (fd, opened), r')) : fd = q := by
  unfold openDir at h
  cases hopen : w.openDirectory true r.fs q with
  | error e => simp [hopen] at h
  | ok fd' =>
    have hplace : fd' = q := by
      unfold World.openDirectory at hopen
      split at hopen
      · cases hopen
      · split at hopen
        · cases hopen
        · split at hopen
          · cases hopen
            rfl
          · cases hopen
          · cases hopen
    rw [hopen] at h
    dsimp only at h
    split at h
    · cases h
    · split at h
      · cases h
      · split at h
        · cases h
          exact hplace
        · cases h

theorem removeRecursiveOpenedDir_inside {child : Loc → Bytes → Run → Bool × Run}
    (hchild : ∀ name r, Inside (q ++ [name]) r (child q name r).2) (opened : Status) :
    Inside q r (removeRecursiveOpenedDir w child q opened q r).2 := by
  have hwalked : ∀ (names : List Bytes) (ok : Bool) (r : Run), Inside q r
      (names.foldl (fun done name => (done.1 && (child q name done.2).1, (child q name done.2).2)) (ok, r)).2 := by
    intro names
    induction names with
    | nil => exact fun _ r => .of_removed rfl
    | cons name names ih => exact fun _ r => (hchild name r).above.trans (ih _ _)
  unfold removeRecursiveOpenedDir
  dsimp only
  split
  · split
    · apply (hwalked _ true r).trans
      exact (Inside.of_removed (verifyEntry_removed _)).trans (removeWith_inside _)
    · exact (hwalked _ true r).trans (.of_removed (verifyEntry_removed _))
  · exact hwalked _ true r

theorem removeRecursiveChild_inside (fuel : Nat) :
    Inside (parent ++ [name]) r (removeRecursiveChild w fuel ancestors parent name r).2 := by
  induction fuel generalizing ancestors parent name r with
  | zero => exact .of_removed rfl
  | succ fuel ih =>
    unfold removeRecursiveChild
    dsimp only
    split
    · split <;> exact .of_removed rfl
    · split
      · split
        · exact (Inside.of_removed (verifyEntry_removed _)).trans (removeWith_inside _)
        · exact .of_removed (verifyEntry_removed _)
      · split
        · exact .of_removed rfl
        · rename_i st _ _ _
          have hremoved := @openDir_removed w (parent ++ [name]) r st.id
          split
          · rename_i r' hopened
            rw [hopened] at hremoved
            exact .of_removed hremoved
          · rename_i fd opened r' hopened
            rw [hopened] at hremoved
            rw [openDir_place hopened]
            exact (Inside.of_removed hremoved).trans (removeRecursiveOpenedDir_inside (fun _ _ => ih) opened)

theorem removeRecursiveImpl_inside (expected : Option Identity) : Inside q r (removeRecursiveImpl w q expected r).2 := by
  unfold removeRecursiveImpl
  split
  · split <;> exact .of_removed rfl
  · rename_i st _
    dsimp only
    have hchecked : Inside q r (checkExpected q expected st r).2 := .of_removed (checkExpected_removed expected st)
    split
    · exact hchecked
    · split
      · exact hchecked.trans (removeWith_inside _)
      · apply hchecked.trans
        have hremoved := @openDir_removed w q (checkExpected q expected st r).2 st.id
        split
        · rename_i r' hopened
          rw [hopened] at hremoved
          exact .of_removed hremoved
        · rename_i fd opened r' hopened
          rw [hopened] at hremoved
          rw [openDir_place hopened]
          exact (Inside.of_removed hremoved).trans
            (removeRecursiveOpenedDir_inside (fun _ _ => removeRecursiveChild_inside _) opened)

end

end Bx.Remove
