import Bx.Remove.RemoveAt

/-!
# Recursive removal removes the subtree

Whatever fails, either implementation removes only what lies in the subtree, from below. Where a removal starts at all,
success is that the subtree is clean, so both report the same.
-/

namespace Bx.Remove

open Kit List

def start (fs : Fs) : Run := ⟨fs, [], []⟩

/-- What is removed lies in the subtree of `q`, and all of it is removed where that is what is reported. -/
structure SubtreeRemoval (fs : Fs) (q : Loc) (expected : Option Identity) (out : Bool × Run) : Prop where
  gone : ∀ x ∈ out.2.removed, out.2.fs x = none
  kept : ∀ x ∉ out.2.removed, out.2.fs x = fs x
  inside : ∀ x ∈ out.2.removed, q <+: x ∧ fs x ≠ none
  children_first : ∀ before x after, out.2.removed = before ++ x :: after →
    ∀ y, x <+: y → y ≠ x → fs y ≠ none → y ∈ before
  complete : out.1 = true → ∀ x, q <+: x → out.2.fs x = none
  name_kept : ∀ x, q <+: x → out.2.fs x ≠ none → out.2.fs q = fs q ∧ fs q ≠ none
  not_expected : ∀ id st, expected = some id → fs q = some st → st.id ≠ id → out.1 = false ∧ out.2.removed = []

section
variable {w : World} {fs : Fs} {q : Loc} {expected : Option Identity} {out : Bool × Run}

theorem SubtreeRemoval.of_diags (hwf : Wf w fs) (ok : Bool) (diags : List Diag)
    (hcomplete : ok = true → fs q = none) : SubtreeRemoval fs q expected (ok, ⟨fs, [], diags⟩) := by
  refine ⟨fun x hx => absurd hx not_mem_nil, fun _ _ => rfl, fun x hx => absurd hx not_mem_nil, ?_, ?_, ?_, ?_⟩
  · intro before x after heq
    exact absurd heq.symm (append_ne_nil_of_right_ne_nil before (cons_ne_nil x after))
  · exact fun hok x hx => hwf.none_below (hcomplete hok) hx
  · exact fun x hx hthere => ⟨rfl, fun hnone => hthere (hwf.none_below hnone hx)⟩
  · intro id st _ hst _
    refine ⟨?_, rfl⟩
    cases ok with
    | false => rfl
    | true =>
      have hnone := hcomplete rfl
      simp [hst] at hnone

theorem SubtreeRemoval.of_outcome (hwf : Wf w fs) (h : Outcome w [] q (start fs) out) {st : Status}
    (hst : fs q = some st) (hmatches : statMatchesExpected expected st = true) :
    SubtreeRemoval fs q expected out := by
  have hclosed := (h.wf hwf).closed
  obtain ⟨log, hremoved, hlog, hunder⟩ := h.removes
  have heq : out.2.removed = log := hremoved
  refine ⟨?_, ?_, ?_, ?_, h.gone, ?_, ?_⟩
  · intro x hx
    rw [heq] at hx
    rw [hlog.left_eq, if_pos hx]
  · intro x hx
    rw [heq] at hx
    rw [hlog.left_eq, if_neg hx]
    rfl
  · intro x hx
    rw [heq] at hx
    exact ⟨hunder x hx, hlog.there hx⟩
  · intro before x after hsplit y hy hne hthere
    rw [heq] at hsplit
    exact hlog.below_first hsplit hy hne hthere
  · intro x hx hthere
    have hkept : out.2.fs q ≠ none := by
      by_cases hself : q = x
      · exact hself ▸ hthere
      · obtain ⟨o, ho, _⟩ := hclosed.holds_above hx hself hthere
        rw [ho]
        exact Option.some_ne_none o
    cases hlog.eq_or_none q with
    | inl hsame => exact ⟨hsame, fun hnone => hkept (hsame.trans hnone)⟩
    | inr hnone => exact absurd hnone hkept
  · intro id st' hid hst' hne
    rw [hst] at hst'
    cases hst'
    rw [hid] at hmatches
    unfold statMatchesExpected at hmatches
    rw [Option.all_some, decide_eq_true_iff] at hmatches
    exact absurd hmatches hne

structure NoStepFails (w : World) (fs : Fs) : Prop where
  steps : ∀ s x, w.fails s x = false
  acyclic : ∀ a x ast st, a <+: x → a ≠ x → fs a = some ast → fs x = some st → st.kind = .directory → ast.id ≠ st.id

theorem NoStepFails.allClean (h : NoStepFails w fs) (q : Loc) : AllClean w fs [] q := by
  intro x st _ hst
  exact ⟨h.steps _ x, fun _ => h.steps _ x, fun _ => h.steps _ x, fun _ => h.steps _ x,
    fun _ => not_mem_nil, fun hdir a ast _ hax hne hast => h.acyclic a x ast st hax hne hast hst hdir⟩

theorem SubtreeRemoval.removed_iff (h : SubtreeRemoval fs q expected out) (hok : out.1 = true) (x : Loc) :
    x ∈ out.2.removed ↔ q <+: x ∧ fs x ≠ none := by
  refine ⟨h.inside x, ?_⟩
  intro ⟨hx, hthere⟩
  have hnone := h.complete hok x hx
  by_contra hnotin
  rw [h.kept x hnotin] at hnone
  exact hthere hnone

end

/-! ## Both implementations -/

structure Agree (w : World) (fs : Fs) (q : Loc) (expected : Option Identity) (outPath outAt : Bool × Run) : Prop where
  same_result : ¬ (fs q = none ∧ expected ≠ none) → outAt.1 = outPath.1
  missing : fs q = none → expected ≠ none → outPath.1 = false ∧ (w.fails .lookup q = false → outAt.1 = true)
  same_removed : NoStepFails w fs → ∀ x, x ∈ outAt.2.removed ↔ x ∈ outPath.2.removed

section
variable {w : World} {fs : Fs} {parent : Loc} {name : Bytes} {expected : Option Identity}

theorem Agree.of_diags {q : Loc} {okPath okAt : Bool} {diagsPath diagsAt : List Diag}
    (hsame : ¬ (fs q = none ∧ expected ≠ none) → okAt = okPath)
    (hmissing : fs q = none → expected ≠ none → okPath = false ∧ (w.fails .lookup q = false → okAt = true)) :
    Agree w fs q expected (okPath, ⟨fs, [], diagsPath⟩) (okAt, ⟨fs, [], diagsAt⟩) :=
  ⟨hsame, hmissing, fun _ _ => Iff.rfl⟩

theorem removals_agree (hwf : Wf w fs) :
    SubtreeRemoval fs (parent ++ [name]) expected (removeRecursiveExpected w (parent ++ [name]) expected (start fs)) ∧
      ∃ fuel out, removeRecursiveAt w fuel parent name expected (start fs) = some out ∧
        SubtreeRemoval fs (parent ++ [name]) expected out ∧
        Agree w fs (parent ++ [name]) expected (removeRecursiveExpected w (parent ++ [name]) expected (start fs)) out := by
  unfold removeRecursiveExpected
  cases hlookup : w.fails .lookup (parent ++ [name]) with
  | true =>
    rw [removeRecursiveImpl_of_fails hlookup]
    refine ⟨.of_diags hwf false _ nofun, 0, _, removeRecursiveAt_of_fails hlookup 0, .of_diags hwf false _ nofun, ?_⟩
    apply Agree.of_diags fun _ => rfl
    intro _ _
    refine ⟨rfl, ?_⟩
    rw [hlookup]
    exact nofun
  | false =>
    cases hst : fs (parent ++ [name]) with
    | none =>
      rw [removeRecursiveImpl_missing hlookup hst]
      by_cases hexpected : expected = none
      · rw [if_pos hexpected]
        refine ⟨.of_diags hwf true _ fun _ => hst, 0, _, removeRecursiveAt_missing hlookup hst 0,
          .of_diags hwf true _ fun _ => hst, ?_⟩
        exact Agree.of_diags (fun _ => rfl) fun _ hne => absurd hexpected hne
      · rw [if_neg hexpected]
        refine ⟨.of_diags hwf false _ nofun, 0, _, removeRecursiveAt_missing hlookup hst 0,
          .of_diags hwf true _ fun _ => hst, ?_⟩
        exact Agree.of_diags (fun hnot => absurd ⟨hst, hexpected⟩ hnot) fun _ _ => ⟨rfl, fun _ => rfl⟩
    | some st =>
      have hthere : fs (parent ++ [name]) ≠ none := hst ▸ Option.some_ne_none st
      cases hmatches : statMatchesExpected expected st with
      | false =>
        rw [removeRecursiveImpl_other hlookup hst hmatches]
        refine ⟨.of_diags hwf false _ nofun, 0, _, removeRecursiveAt_other hlookup hst hmatches 0,
          .of_diags hwf false _ nofun, ?_⟩
        exact Agree.of_diags (fun _ => rfl) fun hnone => absurd hnone hthere
      | true =>
        have hpath := removeRecursiveImpl_outcome (r := start fs) hwf hlookup hst hmatches
        obtain ⟨fuel, out, hrun, hout⟩ := removeRecursiveAt_outcome (r := start fs) hwf hlookup hst hmatches
        have hremovalPath := SubtreeRemoval.of_outcome hwf hpath hst hmatches
        have hremovalAt := SubtreeRemoval.of_outcome hwf hout hst hmatches
        refine ⟨hremovalPath, fuel, out, hrun, hremovalAt, ?_, fun hnone => absurd hnone hthere, ?_⟩
        · intro _
          exact Bool.eq_iff_iff.mpr (hout.ok_iff.trans hpath.ok_iff.symm)
        · intro hsteps x
          have hclean := hsteps.allClean (parent ++ [name])
          rw [hremovalAt.removed_iff (hout.ok_iff.mpr hclean), hremovalPath.removed_iff (hpath.ok_iff.mpr hclean)]

/-- **Main result.** Whatever steps fail, `bx_remove_recursive`, `bx_remove_recursive_expected` and
`bx_remove_recursive_at` remove the subtree and nothing else. They report the same unless an identity is expected of
a name that does not exist, which is a failure for the former and none for the latter. -/
theorem remove_removes_subtree (hwf : Wf w fs) (parent : Loc) (name : Bytes) (expected : Option Identity) :
    SubtreeRemoval fs (parent ++ [name]) none (removeRecursive w (parent ++ [name]) (start fs)) ∧
      SubtreeRemoval fs (parent ++ [name]) expected (removeRecursiveExpected w (parent ++ [name]) expected (start fs)) ∧
      ∃ fuel out, removeRecursiveAt w fuel parent name expected (start fs) = some out ∧
        SubtreeRemoval fs (parent ++ [name]) expected out ∧
        Agree w fs (parent ++ [name]) expected (removeRecursiveExpected w (parent ++ [name]) expected (start fs)) out :=
  ⟨(@removals_agree w fs parent name none hwf).1, removals_agree hwf⟩

end

/-! ## The operands of rm -/

structure RmOptions where
  recursive : Bool
  removeEmptyDirs : Bool
  force : Bool

section
variable (w : World) (options : RmOptions)

/-- `bx_rm_remove_operand`. Where `-i` asks, `confirmed` is the answer. -/
def removeOperand (confirmed : Bool) (q : Loc) (r : Run) : Bool × Run :=
  match w.lstat r.fs q with
  | .error e => if e = .noent ∧ options.force = true then (true, r) else (false, r.diag (.perror q e))
  | .ok st =>
    if st.kind = .directory then
      if options.recursive then
        if confirmed then removeRecursiveExpected w q (some st.id) r else (true, r)
      else if options.removeEmptyDirs then
        if confirmed then removeWith w.rmdir q r else (true, r)
      else (false, r.diag (.perror q .isdir))
    else if confirmed then removeWith w.unlink q r else (true, r)

def removeOperands : List (Loc × Bool) → Run → Bool × Run
  | [], r => (true, r)
  | (q, confirmed) :: operands, r =>
    let first := removeOperand w options confirmed q r
    let rest := removeOperands operands first.2
    (first.1 && rest.1, rest.2)

end

section
variable {w : World} {options : RmOptions} {operands : List (Loc × Bool)} {q : Loc} {r : Run} {out : Bool × Run}

/-- What is removed is a confirmed operand or lies, with `-r`, below one. On success all of that is gone. -/
structure Removal (options : RmOptions) (operands : List (Loc × Bool)) (r : Run) (out : Bool × Run) : Prop where
  removes : ∃ log, out.2.removed = r.removed ++ log ∧ Removes r.fs log out.2.fs ∧
    ∀ x ∈ log, ∃ q, (q, true) ∈ operands ∧ q <+: x ∧ (x ≠ q → options.recursive = true)
  gone : out.1 = true → ∀ q, (q, true) ∈ operands → ∀ x, q <+: x → out.2.fs x = none

theorem Removal.of_kept {ok : Bool} {diags : List Diag}
    (hgone : ok = true → ∀ q, (q, true) ∈ operands → ∀ x, q <+: x → r.fs x = none) :
    Removal options operands r (ok, { r with diags := diags }) :=
  ⟨⟨[], (append_nil _).symm, .nil, fun _ hx => absurd hx not_mem_nil⟩, hgone⟩

theorem Removal.of_declined : Removal options [(q, false)] r (true, r) := .of_kept (by simp)

theorem Removal.of_failed (d : Diag) : Removal options operands r (false, r.diag d) :=
  .of_kept fun h => absurd h Bool.false_ne_true

theorem Removal.of_removeWith {remove : Fs → Loc → Except Errno Fs}
    (h : ∀ fs, remove r.fs q = .ok fs → fs = removeAt r.fs q ∧ r.fs q ≠ none ∧ ∀ x, q <+: x → x ≠ q → r.fs x = none) :
    Removal options [(q, true)] r (removeWith remove q r) := by
  unfold removeWith
  cases hremove : remove r.fs q with
  | error e => exact .of_failed _
  | ok fs =>
    obtain ⟨rfl, hthere, hbelow⟩ := h fs hremove
    refine ⟨⟨[q], rfl, Removes.nil.snoc hthere hbelow, by simp⟩, ?_⟩
    intro _ q' hq' x hx
    obtain rfl : q' = q := by simpa using hq'
    show removeAt r.fs q' x = none
    unfold removeAt
    split
    · rfl
    · exact hbelow x hx ‹_›

theorem removeOperand_removal (hwf : Wf w r.fs) (confirmed : Bool) (q : Loc) :
    Removal options [(q, confirmed)] r (removeOperand w options confirmed q r) := by
  unfold removeOperand
  cases hlookup : w.fails .lookup q with
  | true =>
    rw [lstat_of_fails hlookup]
    exact .of_failed _
  | false =>
    cases hst : r.fs q with
    | none =>
      rw [lstat_noent_iff.mpr ⟨hlookup, hst⟩]
      dsimp only
      split
      · refine .of_kept fun _ q' hq' x hx => ?_
        obtain rfl : q' = q := by simp at hq'; exact hq'.1
        exact hwf.none_below hst hx
      · exact .of_failed _
    | some st =>
      rw [lstat_of_lookup hlookup hst]
      dsimp only
      cases confirmed with
      | false =>
        split
        · split
          · exact .of_declined
          · split
            · exact .of_declined
            · exact .of_failed _
        · exact .of_declined
      | true =>
        split
        · rename_i hdir
          split
          · rename_i hrecursive
            have hmatches : statMatchesExpected (some st.id) st = true := by simp [statMatchesExpected]
            have hout := removeRecursiveImpl_outcome hwf hlookup hst hmatches
            obtain ⟨log, hremoved, hlog, hunder⟩ := hout.removes
            refine ⟨⟨log, hremoved, hlog, fun x hx => ⟨q, mem_cons_self, hunder x hx, fun _ => hrecursive⟩⟩, ?_⟩
            intro hok q' hq'
            obtain rfl : q' = q := by simpa using hq'
            exact hout.gone hok
          · split
            · apply Removal.of_removeWith
              intro fs hremove
              simp only [World.rmdir, hst, hdir, ne_eq, not_true, if_false] at hremove
              split at hremove
              · cases hremove
              · split at hremove
                · cases hremove
                · rename_i _ hempty
                  refine ⟨(Except.ok.inj hremove).symm, hst ▸ Option.some_ne_none st, ?_⟩
                  exact fun x => hwf.below_none_of_readdir (not_not.mp hempty)
            · exact .of_failed _
        · rename_i hleaf
          apply Removal.of_removeWith
          intro fs hremove
          simp only [World.unlink, hst, hleaf, if_false] at hremove
          split at hremove
          · cases hremove
          · refine ⟨(Except.ok.inj hremove).symm, hst ▸ Option.some_ne_none st, ?_⟩
            exact fun x => hwf.below_none fun st' hst' => by rw [hst] at hst'; cases hst'; exact hleaf

theorem Removal.cons {confirmed : Bool} {first rest : Bool × Run} (h : Removal options [(q, confirmed)] r first)
    (h' : Removal options operands first.2 rest) :
    Removal options ((q, confirmed) :: operands) r (first.1 && rest.1, rest.2) := by
  obtain ⟨⟨log, hremoved, hlog, hwithin⟩, hgone⟩ := h
  obtain ⟨⟨log', hremoved', hlog', hwithin'⟩, hgone'⟩ := h'
  refine ⟨⟨log ++ log', by rw [hremoved', hremoved, append_assoc], hlog.trans hlog', ?_⟩, ?_⟩
  · intro x hx
    cases mem_append.mp hx with
    | inl hin =>
      obtain ⟨q', hq', hbelow⟩ := hwithin x hin
      exact ⟨q', mem_singleton.mp hq' ▸ mem_cons_self, hbelow⟩
    | inr hin =>
      obtain ⟨q', hq', hbelow⟩ := hwithin' x hin
      exact ⟨q', mem_cons_of_mem _ hq', hbelow⟩
  · intro hok q' hq' x hx
    have hboth := Bool.and_eq_true_iff.mp hok
    cases mem_cons.mp hq' with
    | inl heq =>
      cases hlog'.eq_or_none x with
      | inl hsame => exact hsame.trans (hgone hboth.1 q' (heq ▸ mem_cons_self) x hx)
      | inr hnone => exact hnone
    | inr hin => exact hgone' hboth.2 q' hin x hx

/-- **Main result.** Whatever fails and whatever is declined, `rm` removes nothing but its operands and, with `-r`, what
is below them, each thing after what is below it. -/
theorem removeOperands_removal (hwf : Wf w r.fs) (operands : List (Loc × Bool)) :
    Removal options operands r (removeOperands w options operands r) := by
  induction operands generalizing r with
  | nil => exact .of_kept fun _ q hq => absurd hq not_mem_nil
  | cons operand operands ih =>
    have hfirst := @removeOperand_removal w options r hwf operand.2 operand.1
    obtain ⟨log, _, hlog, _⟩ := hfirst.removes
    exact hfirst.cons (ih (hwf.of_removes hlog))

end

/-! ## A directory with one file -/

def smallTree : Fs := fun q =>
  if q = [] then some ⟨⟨0, 1⟩, .directory⟩ else if q = [[97]] then some ⟨⟨0, 2⟩, .file⟩ else none

def smallWorld : World := ⟨fun _ => [[97]], fun _ _ => false, 1⟩

theorem smallTree_wf : Wf smallWorld smallTree := by
  have hchild : ∀ p n, smallTree (p ++ [n]) ≠ none → p = [] ∧ n = [97] := by
    intro p n hthere
    unfold smallTree at hthere
    rw [if_neg (append_ne_nil_of_right_ne_nil p (cons_ne_nil n []))] at hthere
    by_cases heq : p ++ [n] = [[97]]
    · obtain ⟨hp, hn⟩ := append_inj' (show p ++ [n] = [] ++ [[97]] from heq) rfl
      exact ⟨hp, singleton_inj.mp hn⟩
    · rw [if_neg heq] at hthere
      exact absurd rfl hthere
  refine ⟨?_, ?_, fun _ => nodup_singleton _, ?_⟩
  · intro p n hthere
    obtain ⟨hp, _⟩ := hchild p n hthere
    exact ⟨_, by rw [hp]; rfl, rfl⟩
  · intro p n hthere
    exact mem_singleton.mpr (hchild p n hthere).2
  · intro q hthere
    induction q using reverseRecOn with
    | nil => exact Nat.zero_le _
    | append_singleton p n _ =>
      obtain ⟨hp, _⟩ := hchild p n hthere
      rw [hp]
      exact le_rfl

theorem remove_removes_subtree_small :
    SubtreeRemoval smallTree [[97]] none (removeRecursive smallWorld [[97]] (start smallTree)) ∧
      SubtreeRemoval smallTree [[97]] (some ⟨0, 2⟩) (removeRecursiveExpected smallWorld [[97]] (some ⟨0, 2⟩) (start smallTree)) ∧
      ∃ fuel out, removeRecursiveAt smallWorld fuel [] [97] (some ⟨0, 2⟩) (start smallTree) = some out ∧
        SubtreeRemoval smallTree [[97]] (some ⟨0, 2⟩) out ∧
        Agree smallWorld smallTree [[97]] (some ⟨0, 2⟩)
          (removeRecursiveExpected smallWorld [[97]] (some ⟨0, 2⟩) (start smallTree)) out :=
  remove_removes_subtree smallTree_wf [] [97] (some ⟨0, 2⟩)

theorem removeOperands_removal_small : Removal ⟨true, false, false⟩ [([[97]], true)] (start smallTree)
    (removeOperands smallWorld ⟨true, false, false⟩ [([[97]], true)] (start smallTree)) :=
  removeOperands_removal smallTree_wf [([[97]], true)]

/-- There is no `b`: the path-based implementation fails if an identity is expected of it. -/
theorem not_same_result_of_missing :
    ¬ ∀ (w : World) (fs : Fs) (parent : Loc) (name : Bytes) (expected : Option Identity), Wf w fs →
      ∃ fuel out, removeRecursiveAt w fuel parent name expected (start fs) = some out ∧
        out.1 = (removeRecursiveExpected w (parent ++ [name]) expected (start fs)).1 := by
  intro h
  obtain ⟨fuel, out, hrun, hsame⟩ := h smallWorld smallTree [] [98] (some ⟨0, 2⟩) smallTree_wf
  have hmissing : removeRecursiveAt smallWorld fuel [] [98] (some ⟨0, 2⟩) (start smallTree) =
      some (true, start smallTree) := removeRecursiveAt_missing rfl rfl fuel
  have hpath : (removeRecursiveExpected smallWorld [[98]] (some ⟨0, 2⟩) (start smallTree)).1 = false := by decide
  rw [hmissing] at hrun
  cases hrun
  exact absurd (hsame.trans hpath) (by decide)

end Bx.Remove
