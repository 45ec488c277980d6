import Bx.Remove.RemoveOps

/-!
# What removing a subtree takes

A subtree is clean when no step fails that its removal takes: everything in it is
found, directories can be opened and removed and what is no directory unlinked,
and no directory comes again below itself.
-/

namespace Bx.Remove

open Kit List

/-! ## File systems -/

/-- A finite file tree: `readdir` returns everything, and once. -/
structure Wf (w : World) (fs : Fs) : Prop where
  closed : Closed (fun st => st.kind = .directory) fs
  listed : ∀ p n, fs (p ++ [n]) ≠ none → n ∈ w.order p
  nodup : ∀ p, (w.order p).Nodup
  depth : ∀ q, fs q ≠ none → q.length ≤ w.depth

section
variable {w : World} {fs fs' : Fs} {q x : Loc} {name : Bytes}

theorem Wf.of_removes (h : Wf w fs) {log : List Loc} (hremoves : Removes fs log fs') : Wf w fs' := by
  have hsub : ∀ x, fs' x ≠ none → fs x ≠ none := by
    intro x hx hnone
    cases hremoves.eq_or_none x with
    | inl heq => exact hx (heq.trans hnone)
    | inr heq => exact hx heq
  exact ⟨hremoves.closed h.closed, fun p n hn => h.listed p n (hsub _ hn), h.nodup, fun q hq => h.depth q (hsub q hq)⟩

theorem Wf.mem_readdir (h : Wf w fs) : name ∈ w.readdir fs q ↔ fs (q ++ [name]) ≠ none := by
  unfold World.readdir
  rw [mem_filter, Option.isSome_iff_ne_none]
  exact ⟨fun hin => hin.2, fun hthere => ⟨h.listed q name hthere, hthere⟩⟩

theorem Wf.nodup_readdir (h : Wf w fs) (q : Loc) : (w.readdir fs q).Nodup := (h.nodup q).filter _

theorem Wf.below_none (h : Wf w fs) (hnone : ∀ st, fs q = some st → st.kind ≠ .directory) (hunder : q <+: x)
    (hne : x ≠ q) : fs x = none := by
  by_contra hthere
  obtain ⟨st, hst, hdir⟩ := h.closed.holds_above hunder hne.symm hthere
  exact hnone st hst hdir

theorem Wf.none_below (h : Wf w fs) (hnone : fs q = none) (hunder : q <+: x) : fs x = none := by
  by_cases heq : x = q
  · rw [heq, hnone]
  · exact h.below_none (fun st hst => by simp [hnone] at hst) hunder heq

theorem Wf.below_none_of_readdir (h : Wf w fs) (hempty : w.readdir fs q = []) (hunder : q <+: x)
    (hne : x ≠ q) : fs x = none := by
  obtain ⟨n, hn⟩ := child_below_of_below hunder hne.symm
  have hnone : fs (q ++ [n]) = none := by
    by_contra hthere
    simpa [hempty] using h.mem_readdir.mpr hthere
  exact h.none_below hnone hn

end

/-! ## Clean subtrees -/

/-- No step at `x` fails, and no directory from `q` down to `x` is `x` or one of those above `q`. -/
structure Clean (w : World) (fs : Fs) (ancestors : List Identity) (q x : Loc) (st : Status) : Prop where
  lookup : w.fails .lookup x = false
  unlink : st.kind ≠ .directory → w.fails .unlink x = false
  open_ : st.kind = .directory → w.fails .open x = false
  rmdir : st.kind = .directory → w.fails .rmdir x = false
  fresh : st.kind = .directory → st.id ∉ ancestors
  acyclic : st.kind = .directory → ∀ a ast, q <+: a → a <+: x → a ≠ x → fs a = some ast → ast.id ≠ st.id

def AllClean (w : World) (fs : Fs) (ancestors : List Identity) (q : Loc) : Prop :=
  ∀ x st, q <+: x → fs x = some st → Clean w fs ancestors q x st

section
variable {w : World} {fs fs' : Fs} {ancestors : List Identity} {q : Loc} {st : Status}

theorem AllClean.congr (h : ∀ x, q <+: x → fs' x = fs x) : AllClean w fs' ancestors q ↔ AllClean w fs ancestors q := by
  have himp : ∀ fs fs' : Fs, (∀ x, q <+: x → fs' x = fs x) → AllClean w fs ancestors q → AllClean w fs' ancestors q := by
    intro fs fs' h hclean x st hunder hst
    have hown := hclean x st hunder (h x hunder ▸ hst)
    exact ⟨hown.lookup, hown.unlink, hown.open_, hown.rmdir, hown.fresh,
      fun hdir a ast hqa hax hne hast => hown.acyclic hdir a ast hqa hax hne (h a hqa ▸ hast)⟩
  exact ⟨himp fs' fs fun x hx => (h x hx).symm, himp fs fs' h⟩

theorem allClean_leaf (hwf : Wf w fs) (hst : fs q = some st) (hleaf : st.kind ≠ .directory) :
    AllClean w fs ancestors q ↔ w.fails .lookup q = false ∧ w.fails .unlink q = false := by
  refine ⟨?_, ?_⟩
  · intro h
    have hown := h q st (prefix_refl q) hst
    exact ⟨hown.lookup, hown.unlink hleaf⟩
  · intro ⟨hlookup, hunlink⟩ x st' hunder hx
    have heq : x = q := by
      by_contra hne
      have hnone := hwf.below_none (fun st'' hst'' => by rw [hst] at hst''; cases hst''; exact hleaf) hunder hne
      simp [hnone] at hx
    subst heq
    rw [hst] at hx
    cases hx
    exact ⟨hlookup, fun _ => hunlink, fun hdir => absurd hdir hleaf, fun hdir => absurd hdir hleaf,
      fun hdir => absurd hdir hleaf, fun hdir => absurd hdir hleaf⟩

theorem allClean_dir (hst : fs q = some st) (hdir : st.kind = .directory) : AllClean w fs ancestors q ↔
      (w.fails .lookup q = false ∧ st.id ∉ ancestors ∧ w.fails .open q = false ∧ w.fails .rmdir q = false) ∧
        ∀ n, AllClean w fs (st.id :: ancestors) (q ++ [n]) := by
  refine ⟨?_, ?_⟩
  · intro h
    have hown := h q st (prefix_refl q) hst
    refine ⟨⟨hown.lookup, hown.fresh hdir, hown.open_ hdir, hown.rmdir hdir⟩, ?_⟩
    intro n x st' hunder hx
    have hbelow := h x st' (below_of_child_below hunder) hx
    refine ⟨hbelow.lookup, hbelow.unlink, hbelow.open_, hbelow.rmdir, ?_, ?_⟩
    · intro hdir' hmem
      cases mem_cons.mp hmem with
      | inl heq =>
        exact hbelow.acyclic hdir' q st (prefix_refl q) (below_of_child_below hunder) (ne_of_child_below hunder)
          hst heq.symm
      | inr hin => exact hbelow.fresh hdir' hin
    · intro hdir' a ast hqa hax hne hast
      exact hbelow.acyclic hdir' a ast (below_of_child_below hqa) hax hne hast
  · intro ⟨⟨hlookup, hfresh, hopen, hrmdir⟩, hchildren⟩ x st' hunder hx
    by_cases hself : q = x
    · subst hself
      rw [hst] at hx
      cases hx
      refine ⟨hlookup, fun hleaf => absurd hdir hleaf, fun _ => hopen, fun _ => hrmdir, fun _ => hfresh, ?_⟩
      intro _ a _ hqa haq hne
      exact absurd (haq.eq_of_length_le hqa.length_le) hne
    · obtain ⟨n, hn⟩ := child_below_of_below hunder hself
      have hbelow := hchildren n x st' hn hx
      refine ⟨hbelow.lookup, hbelow.unlink, hbelow.open_, hbelow.rmdir, ?_, ?_⟩
      · intro hdir' hmem
        exact hbelow.fresh hdir' (mem_cons_of_mem _ hmem)
      · intro hdir' a ast hqa hax hne hast
        by_cases haq : q = a
        · subst haq
          rw [hst] at hast
          cases hast
          intro heq
          exact hbelow.fresh hdir' (heq ▸ mem_cons_self)
        · obtain ⟨m, hm⟩ := child_below_of_below hqa haq
          have hnm := child_below_inj (hm.trans hax) hn
          rw [hnm] at hm
          exact hbelow.acyclic hdir' a ast hm hax hne hast

theorem allClean_none (hwf : Wf w fs) (hnone : fs q = none) : AllClean w fs ancestors q := by
  intro x st hunder hst
  simp [hwf.none_below hnone hunder] at hst

end

/-! ## Steps -/

section
variable {w : World} {r : Run} {q : Loc} {st : Status}

theorem lstat_of_lookup (hlookup : w.fails .lookup q = false) (hst : r.fs q = some st) : w.lstat r.fs q = .ok st := by
  unfold World.lstat
  rw [hlookup, if_neg Bool.false_ne_true, hst]

theorem lstat_of_fails (hlookup : w.fails .lookup q = true) : w.lstat r.fs q = .error .other := by
  unfold World.lstat
  rw [hlookup, if_pos rfl]

theorem lstat_noent_iff : w.lstat r.fs q = .error .noent ↔ w.fails .lookup q = false ∧ r.fs q = none := by
  unfold World.lstat
  cases hlookup : w.fails .lookup q with
  | true => simp
  | false => cases hst : r.fs q <;> simp

theorem verifyEntry_self (hlookup : w.fails .lookup q = false) (hst : r.fs q = some st) :
    verifyEntry w q (some st.id) r = (true, r) := by
  unfold verifyEntry checkExpected statMatchesExpected
  rw [lstat_of_lookup hlookup hst]
  simp

theorem openDir_self (hopen : w.fails .open q = false) (hst : r.fs q = some st) (hdir : st.kind = .directory) :
    openDir w q st.id r = (some (q, st), r) := by
  have hopened : w.openDirectory true r.fs q = .ok q := by
    unfold World.openDirectory
    rw [hopen, if_neg Bool.false_ne_true, hst]
    dsimp only
    rw [hdir]
  unfold openDir statMatchesExpected
  rw [hopened]
  dsimp only
  rw [hst]
  simp [hdir]

theorem openDir_of_fails (hopen : w.fails .open q = true) (id : Identity) : ∃ d, openDir w q id r = (none, r.diag d) := by
  unfold openDir World.openDirectory
  rw [hopen, if_pos rfl]
  exact ⟨_, rfl⟩

theorem unlink_self (hunlink : w.fails .unlink q = false) (hst : r.fs q = some st) (hleaf : st.kind ≠ .directory) :
    removeWith w.unlink q r = (true, { r with fs := removeAt r.fs q, removed := r.removed ++ [q] }) := by
  unfold removeWith World.unlink
  rw [hunlink, if_neg Bool.false_ne_true, hst]
  dsimp only
  rw [if_neg hleaf]

theorem unlink_of_fails (hunlink : w.fails .unlink q = true) : ∃ d, removeWith w.unlink q r = (false, r.diag d) := by
  unfold removeWith World.unlink
  rw [hunlink, if_pos rfl]
  exact ⟨_, rfl⟩

theorem rmdir_self (hrmdir : w.fails .rmdir q = false) (hst : r.fs q = some st) (hdir : st.kind = .directory)
    (hempty : w.readdir r.fs q = []) :
    removeWith w.rmdir q r = (true, { r with fs := removeAt r.fs q, removed := r.removed ++ [q] }) := by
  unfold removeWith World.rmdir
  rw [hrmdir, if_neg Bool.false_ne_true, hst]
  dsimp only
  rw [if_neg (not_not_intro hdir), if_neg (not_not_intro hempty)]

theorem rmdir_of_fails (hrmdir : w.fails .rmdir q = true) : ∃ d, removeWith w.rmdir q r = (false, r.diag d) := by
  unfold removeWith World.rmdir
  rw [hrmdir, if_pos rfl]
  exact ⟨_, rfl⟩

end

/-! ## What a removal does -/

/-- Things below `q` have been removed, each after what is below it, and all of them if that is what is reported. -/
structure Outcome (w : World) (ancestors : List Identity) (q : Loc) (r : Run) (out : Bool × Run) : Prop where
  removes : ∃ log, out.2.removed = r.removed ++ log ∧ Removes r.fs log out.2.fs ∧ ∀ x ∈ log, q <+: x
  ok_iff : out.1 = true ↔ AllClean w r.fs ancestors q
  gone : out.1 = true → ∀ x, q <+: x → out.2.fs x = none

section
variable {w : World} {ancestors : List Identity} {q : Loc} {r : Run} {out : Bool × Run}

theorem Outcome.of_diag (d : Diag) (h : ¬ AllClean w r.fs ancestors q) : Outcome w ancestors q r (false, r.diag d) :=
  ⟨⟨[], (append_nil _).symm, .nil, fun _ hx => absurd hx not_mem_nil⟩,
    ⟨fun hfalse => absurd hfalse Bool.false_ne_true, fun hclean => absurd hclean h⟩,
    fun hfalse => absurd hfalse Bool.false_ne_true⟩

theorem Outcome.wf (h : Outcome w ancestors q r out) (hwf : Wf w r.fs) : Wf w out.2.fs := by
  obtain ⟨log, _, hremoves, _⟩ := h.removes
  exact hwf.of_removes hremoves

theorem Outcome.frame (h : Outcome w ancestors q r out) {x : Loc} (hx : ¬ q <+: x) : out.2.fs x = r.fs x := by
  obtain ⟨log, _, hremoves, hlog⟩ := h.removes
  exact hremoves.frame hlog hx

theorem Outcome.of_removed {fs : Fs} {log : List Loc} {diags : List Diag} (hremoves : Removes r.fs log fs)
    (hlog : ∀ x ∈ log, q <+: x) (hthere : fs q ≠ none) (hbelow : ∀ x, q <+: x → x ≠ q → fs x = none)
    (hclean : AllClean w r.fs ancestors q) :
    Outcome w ancestors q r (true, ⟨removeAt fs q, r.removed ++ log ++ [q], diags⟩) := by
  refine ⟨⟨log ++ [q], append_assoc _ _ _, hremoves.snoc hthere hbelow, ?_⟩, ⟨fun _ => hclean, fun _ => rfl⟩, ?_⟩
  · intro x hx
    cases mem_append.mp hx with
    | inl hin => exact hlog x hin
    | inr hin => rw [mem_singleton.mp hin]
  · intro _ x hunder
    show removeAt fs q x = none
    unfold removeAt
    by_cases hx : x = q
    · rw [if_pos hx]
    · rw [if_neg hx]
      exact hbelow x hunder hx

end

end Bx.Remove
