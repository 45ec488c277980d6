import Bx.Mv.CopyTreeComplete
import Bx.Mv.Mv

/-!
# The steps of a move

What a rename does, what a backup leaves, and what is there after a copy between
devices: either nothing has changed outside the destination, or the copy is
complete and some of the source has been removed.
-/

namespace Bx.Mv

open Kit List
open Remove (Loc Identity)

/-- The objects at and below `p` are now at and below `q`. -/
def Stands (p q : Loc) (t t' : Tree) : Prop :=
  ∀ rest a, t (p ++ rest) = some a → ∃ b, t' (q ++ rest) = some b ∧ b.id = a.id ∧ b.kind = a.kind

section
variable {w : MoveWorld} {o : Options} {s : State} {src dst p q x : Loc} {t t' : Tree}

theorem Stands.refl (p : Loc) (t : Tree) : Stands p p t t := fun _ a ha => ⟨a, ha, rfl, rfl⟩

theorem Stands.complete (h : Stands p q t t') : Complete p q t t' := by
  intro rest a ha
  obtain ⟨b, hb, _, hkind⟩ := h rest a ha
  exact ⟨b, hb, hkind⟩

theorem Stands.congr {t'' : Tree} (h : Stands p q t t') (hsame : ∀ x, q <+: x → t'' x = t' x) : Stands p q t t'' := by
  intro rest a ha
  obtain ⟨b, hb, hid, hkind⟩ := h rest a ha
  exact ⟨b, (hsame _ (prefix_append q rest)).trans hb, hid, hkind⟩

theorem Stands.of_eq (h : ∀ rest, t' (q ++ rest) = t (p ++ rest)) : Stands p q t t' :=
  fun rest a ha => ⟨a, (h rest).trans ha, rfl, rfl⟩

theorem Stands.there (h : Stands p q t t') (hthere : t p ≠ none) : t' q ≠ none := by
  obtain ⟨a, ha⟩ := Option.ne_none_iff_exists'.mp hthere
  obtain ⟨b, hb, _⟩ := h [] a (by rw [append_nil]; exact ha)
  rw [append_nil] at hb
  rw [hb]
  exact Option.some_ne_none b

theorem Wf.below_none {w : World} (h : Wf w t) (hleaf : ∀ n, t p = some n → isDirectory n = false) (hunder : p <+: x)
    (hne : x ≠ p) : t x = none := by
  by_contra hthere
  obtain ⟨n, hn, hdir⟩ := h.closed.holds_above hunder hne.symm hthere
  exact absurd ((hleaf n hn).symm.trans hdir) Bool.false_ne_true

theorem Wf.below_none_of_readdir {w : World} (h : Wf w t) (hempty : readdir w t p = []) (hunder : p <+: x)
    (hne : x ≠ p) : t x = none := by
  by_contra hthere
  obtain ⟨name, hname⟩ := child_below_of_below hunder hne.symm
  have hchild : t (p ++ [name]) ≠ none := by
    by_cases heq : p ++ [name] = x
    · rw [heq]
      exact hthere
    · obtain ⟨n, hn, _⟩ := h.closed.holds_above hname heq hthere
      rw [hn]
      exact Option.some_ne_none n
  have hmem : name ∈ readdir w t p :=
    mem_filter.mpr ⟨h.listed p name hchild, Option.isSome_iff_ne_none.mpr hchild⟩
  rw [hempty] at hmem
  exact not_mem_nil hmem

/-! ## Renaming -/

/-- Two names for one object stay as they are, and otherwise the first name is given up for the second. -/
inductive Renamed (w : MoveWorld) (t : Tree) (src dst : Loc) (t' : Tree) : Prop
  | same (n d : Node) : t' = t → t src = some n → t dst = some d → d.id = n.id → (isDirectory n = false ∨ src = dst) →
      Renamed w t src dst t'
  | moved (n : Node) : t' = moveAt t src dst → t src = some n → ¬ src <+: dst → ¬ dst <+: src →
      (∀ d, t dst = some d → isDirectory d = true → readdir w.toWorld t dst = []) → Renamed w t src dst t'

theorem rename_renamed {failure : Option Errno} (h : rename w failure t src dst = .ok t') : Renamed w t src dst t' := by
  unfold rename at h
  cases failure with
  | some e => cases h
  | none =>
    dsimp only at h
    cases hn : t src with
    | none =>
      rw [hn] at h
      cases h
    | some n =>
      rw [hn] at h
      obtain ⟨_, h⟩ := of_ite_ne h nofun
      obtain ⟨hinto, h⟩ := of_ite_ne h nofun
      obtain ⟨honto, h⟩ := of_ite_ne h nofun
      cases hd : t dst with
      | none =>
        rw [hd] at h
        cases h
        have hne : src ≠ dst := by
          intro heq
          rw [heq, hd] at hn
          cases hn
        exact .moved n rfl hn (fun hunder => hinto ⟨hunder, hne⟩) (fun hunder => honto ⟨hunder, hne⟩)
          (fun d hd' => by rw [hd] at hd'; cases hd')
      | some d =>
        rw [hd] at h
        dsimp only at h
        split at h
        · rename_i hsame
          cases h
          exact .same n d rfl hn hd hsame.1 hsame.2
        · obtain ⟨hne, h⟩ := of_ite_ne h nofun
          obtain ⟨_, h⟩ := of_ite_ne h nofun
          obtain ⟨_, h⟩ := of_ite_ne h nofun
          obtain ⟨hempty, h⟩ := of_ite_ne h nofun
          cases h
          exact .moved n rfl hn (fun hunder => hinto ⟨hunder, hne⟩) (fun hunder => honto ⟨hunder, hne⟩)
            (fun _ _ _ => not_not.mp hempty)

theorem Renamed.consistent (h : Renamed w s.tree src dst t') (hs : s.Consistent) :
    State.Consistent { s with tree := t' } := by
  apply hs.of_tree
  intro x a ha
  cases h with
  | same n d heq _ _ _ _ =>
    rw [heq] at ha
    exact ⟨x, ha⟩
  | moved n heq _ _ _ _ =>
    rw [heq] at ha
    exact moveAt_old ha

theorem Renamed.stands (h : Renamed w s.tree src dst t') (hwf : Wf w.toWorld s.tree) (hs : s.Consistent) :
    Stands src dst s.tree t' := by
  cases h with
  | same n d heq hn hd hid hleaf =>
    intro rest a ha
    cases hleaf with
    | inr hself =>
      rw [heq, ← hself]
      exact ⟨a, ha, rfl, rfl⟩
    | inl hleaf =>
      have hrest : rest = [] := by
        by_contra hne
        have hnone : s.tree (src ++ rest) = none :=
          hwf.below_none (fun n' hn' => by rw [hn] at hn'; cases hn'; exact hleaf) (prefix_append src rest)
            fun heq' => hne (append_right_eq_self.mp heq')
        rw [hnone] at ha
        cases ha
      rw [hrest, append_nil] at ha ⊢
      rw [hn] at ha
      cases ha
      rw [heq]
      exact ⟨d, hd, hid, hs.shared dst src d n hd hn hid⟩
  | moved n heq _ _ _ _ =>
    apply Stands.of_eq
    intro rest
    rw [heq, moveAt_dest]

theorem Renamed.other (h : Renamed w t src dst t') (hsource : ¬ src <+: x) (hdest : ¬ dst <+: x) : t' x = t x := by
  cases h with
  | same n d heq _ _ _ _ => rw [heq]
  | moved n heq _ _ _ _ => rw [heq, moveAt_other hsource hdest]

/-! ## Backups -/

theorem sibling_inj {parent : Loc} {name name' : Bytes} (h : parent ++ [name] <+: parent ++ [name']) : name = name' :=
  child_below_inj h (prefix_refl _)

/-- The destination has been renamed to another name beside it, which is not the source. -/
structure Backed (w : MoveWorld) (t : Tree) (src parent : Loc) (base : Bytes) (backup : Loc) (t' : Tree) : Prop where
  beside : ∃ name, name ≠ base ∧ backup = parent ++ [name]
  ne_src : backup ≠ src
  src_there : t src ≠ none
  there : t (parent ++ [base]) ≠ none
  renamed : Renamed w t (parent ++ [base]) backup t'

variable {parent : Loc} {base : Bytes} {backup : Loc}

theorem backupCreate_backed (h : backupCreate w o t src parent base = .created backup t') :
    Backed w t src parent base backup t' := by
  unfold backupCreate at h
  obtain ⟨_, h⟩ := of_ite_ne h nofun
  obtain ⟨_, h⟩ := of_ite_ne h nofun
  obtain ⟨hthere, h⟩ := of_ite_ne h nofun
  cases hname : getBackupName w o t parent base with
  | none =>
    rw [hname] at h
    cases h
  | some name =>
    rw [hname] at h
    obtain ⟨hsrc, h⟩ := of_ite_ne h nofun
    obtain ⟨hconflict, h⟩ := of_ite_ne h nofun
    obtain ⟨hdest, h⟩ := of_ite_ne h nofun
    cases hrename : rename w w.backupErrno t (parent ++ [base]) (parent ++ [name]) with
    | error e =>
      rw [hrename] at h
      cases h
    | ok t₁ =>
      rw [hrename] at h
      cases h
      rw [Bool.or_eq_true, not_or, Option.isNone_iff_eq_none] at hconflict
      rw [Option.isNone_iff_eq_none] at hthere
      exact ⟨⟨name, fun heq => hdest (by rw [heq]), rfl⟩, hsrc, hconflict.2, hthere, rename_renamed hrename⟩

theorem backupCreate_skipped (h : backupCreate w o t src parent base = .skipped) (hthere : t (parent ++ [base]) ≠ none) :
    o.backup.enabled = false := by
  unfold backupCreate at h
  by_contra henabled
  rw [if_neg (by simpa using henabled)] at h
  obtain ⟨_, h⟩ := of_ite_ne h nofun
  rw [if_neg (mt Option.isNone_iff_eq_none.mp hthere)] at h
  split at h
  · cases h
  · obtain ⟨_, h⟩ := of_ite_ne h nofun
    obtain ⟨_, h⟩ := of_ite_ne h nofun
    obtain ⟨_, h⟩ := of_ite_ne h nofun
    split at h <;> cases h

theorem Backed.dest_apart (h : Backed w t src parent base backup t') :
    ¬ backup <+: parent ++ [base] ∧ ¬ parent ++ [base] <+: backup := by
  obtain ⟨name, hne, heq⟩ := h.beside
  rw [heq]
  exact ⟨fun hunder => hne (sibling_inj hunder), fun hunder => hne (sibling_inj hunder).symm⟩

theorem Backed.cases (h : Backed w t src parent base backup t') :
    (t' = t ∧ ∃ d b, t (parent ++ [base]) = some d ∧ t backup = some b ∧ b.id = d.id ∧ isDirectory d = false) ∨
      t' = moveAt t (parent ++ [base]) backup := by
  cases h.renamed with
  | same d b heq hd hb hid hleaf =>
    refine Or.inl ⟨heq, d, b, hd, hb, hid, hleaf.resolve_right ?_⟩
    intro hself
    exact h.dest_apart.1 (hself ▸ prefix_refl _)
  | moved d heq _ _ _ _ => exact Or.inr heq

section
variable (h : Backed w s.tree src parent base backup t') (hwf : Wf w.toWorld s.tree) (hs : s.Consistent)
include h hwf hs

theorem Backed.below_none (hunder : backup <+: x) (hne : x ≠ backup) : s.tree x = none := by
  cases h.renamed with
  | same d b heq hd hb hid hleaf =>
    have hdir : isDirectory d = false :=
      hleaf.resolve_right fun hself => h.dest_apart.1 (hself ▸ prefix_refl _)
    apply hwf.below_none _ hunder hne
    intro n hn
    rw [hb] at hn
    cases hn
    have hkind := hs.shared backup (parent ++ [base]) b d hb hd hid
    unfold isDirectory at hdir ⊢
    rw [hkind]
    exact hdir
  | moved d heq _ _ _ hempty =>
    by_cases hleaf : ∀ n, s.tree backup = some n → isDirectory n = false
    · exact hwf.below_none hleaf hunder hne
    · obtain ⟨n, hn⟩ := not_forall.mp hleaf
      obtain ⟨hthere, hdir⟩ := Classical.not_imp.mp hn
      exact hwf.below_none_of_readdir (hempty n hthere (Bool.not_eq_false _ ▸ hdir)) hunder hne

theorem Backed.src_apart : ¬ backup <+: src ∧ (src <+: backup → src <+: parent ++ [base]) := by
  refine ⟨?_, ?_⟩
  · intro hunder
    exact h.src_there (h.below_none hwf hs hunder h.ne_src.symm)
  · intro hunder
    obtain ⟨name, _, heq⟩ := h.beside
    rw [heq] at hunder
    cases (prefix_concat_iff.mp hunder) with
    | inl hself => exact absurd (heq.trans hself.symm) h.ne_src
    | inr habove => exact habove.trans (prefix_append parent [base])

end

theorem beforeRename_cases {st : Node} {s₁ : State} {backup : Option Loc}
    (h : beforeRename w o src parent base s = .inr (st, s₁, backup)) :
    s.tree src = some st ∧
      ((backup = none ∧ s₁ = s ∧ (o.exchange = false → ∀ d, s.tree (parent ++ [base]) = some d → d.id ≠ st.id)) ∨
        ∃ place t₁, backup = some place ∧ s₁ = { s with tree := t₁ } ∧ o.exchange = false ∧ src ≠ parent ++ [base] ∧
          Backed w s.tree src parent base place t₁) := by
  unfold beforeRename at h
  cases hst : lookup w.toWorld .source s.tree src with
  | none =>
    rw [hst] at h
    cases h
  | some found =>
    have hthere := lookup_eq hst
    rw [hst] at h
    unfold collectDestState at h
    dsimp only at h
    by_cases hfails : w.fails .destination (parent ++ [base]) = true
    · rw [if_pos hfails] at h
      cases h
    · rw [if_neg hfails] at h
      cases hd : s.tree (parent ++ [base]) with
      | none =>
        rw [hd] at h
        dsimp only at h
        split at h
        · cases h
        · cases h
          exact ⟨hthere, Or.inl ⟨rfl, rfl, fun _ d hd' => by cases hd'⟩⟩
      | some d =>
        rw [hd] at h
        obtain ⟨_, h⟩ := of_ite_ne h nofun
        obtain ⟨_, h⟩ := of_ite_ne h nofun
        obtain ⟨hsame, h⟩ := of_ite_ne h nofun
        split at h
        · cases h
        · cases h
        · obtain ⟨_, h⟩ := of_ite_ne h nofun
          obtain ⟨_, h⟩ := of_ite_ne h nofun
          split at h
          · rename_i hexchange
            cases h
            exact ⟨hthere, Or.inl ⟨rfl, rfl, fun hno => absurd (hno.symm.trans hexchange) Bool.false_ne_true⟩⟩
          · rename_i hexchange
            cases hbackup : backupCreate w o s.tree src parent base with
            | sourceConflict =>
              rw [hbackup] at h
              cases h
            | failed =>
              rw [hbackup] at h
              cases h
            | created place t₁ =>
              rw [hbackup] at h
              cases h
              refine ⟨hthere, Or.inr ⟨place, t₁, rfl, rfl, Bool.eq_false_iff.mpr hexchange, ?_,
                backupCreate_backed hbackup⟩⟩
              intro heq
              apply hsame
              rw [heq, hd] at hthere
              cases hthere
              unfold pathsAreSameFile
              simp [heq]
            | skipped =>
              rw [hbackup] at h
              cases h
              refine ⟨hthere, Or.inl ⟨rfl, rfl, ?_⟩⟩
              intro _ d' hd' hid
              cases hd'
              apply hsame
              have hdisabled := backupCreate_skipped hbackup (by rw [hd]; exact Option.some_ne_none d)
              unfold pathsAreSameFile
              rw [hid, hdisabled]
              simp

end

end Bx.Mv
