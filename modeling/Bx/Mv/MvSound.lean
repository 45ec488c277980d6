import Bx.Mv.MvFallback
import Mathlib.Algebra.Order.BigOperators.Group.List

/-!
# What a move loses

A move keeps every object: in the source, complete at the destination, or under the name of the backup. The backup goes
back after a failed copy between devices; after another failure of the rename it stays, and the name of the destination
is lost.
-/

namespace Bx.Mv

open Kit List
open Remove (Loc Identity)

/-- What is left of the tree `t` after a call that came to the rename. What stands at or below the destination, or has
the name of the backup, counts as the destination and not as the source. -/
structure Safe (o : Options) (src dest : Loc) (backup : Option Loc) (t : Tree) (out : Bool × State) : Prop where
  removed : out.1 = false → ∀ rest a, ¬ dest <+: src ++ rest → backup ≠ some (src ++ rest) →
    t (src ++ rest) = some a → out.2.tree (src ++ rest) = none →
    ∃ d, out.2.tree (dest ++ rest) = some d ∧ d.kind = a.kind
  restored : out.1 = false → ∀ place, backup = some place →
    Stands dest dest t out.2.tree ∨ (out.2.tree dest ≠ none ∧ Stands dest place t out.2.tree)
  moved : out.1 = true → o.exchange = false →
    Complete src dest t out.2.tree ∧ ∀ place, backup = some place → Stands dest place t out.2.tree

/-- No data is lost: a call that ends before the rename changes nothing, and any other is safe. -/
def MovesSafely (w : MoveWorld) (o : Options) (src parent : Loc) (base : Bytes) (s : State) : Prop :=
  match beforeRename w o src parent base s with
  | .inl _ => (renameFile w o src parent base s).2.tree = s.tree
  | .inr (_, _, backup) => Safe o src (parent ++ [base]) backup s.tree (renameFile w o src parent base s)

/-- Where the name of the destination is given up for the backup, the rename does not fail, or only between devices
where copying is allowed. -/
def RenameAfterBackup (w : MoveWorld) (o : Options) (src parent : Loc) (base : Bytes) (s : State) : Prop :=
  ∀ st s₁ place e, beforeRename w o src parent base s = .inr (st, s₁, some place) → s₁.tree (parent ++ [base]) = none →
    rename w w.renameErrno s₁.tree src (parent ++ [base]) = .error e → e = .xdev ∧ o.noCopy = false

section
variable {w : MoveWorld} {o : Options} {s : State} {src parent : Loc} {base : Bytes} {t : Tree} {st : Node}
  {backup : Option Loc} {out : Bool × State}

/-! ## Ways to end -/

variable {dest : Loc}

theorem Safe.unchanged (hfalse : out.1 = false) (htree : out.2.tree = t) : Safe o src dest backup t out := by
  refine ⟨?_, ?_, fun htrue => absurd (hfalse.symm.trans htrue) Bool.false_ne_true⟩
  · intro _ rest a _ _ ha hgone
    simp [htree, ha] at hgone
  · intro _ place _
    rw [htree]
    exact Or.inl (.refl dest t)

theorem Safe.of_complete (hcomplete : Complete src dest t out.2.tree) (hsrc : t src ≠ none)
    (hbackup : ∀ place, backup = some place → Stands dest place t out.2.tree) : Safe o src dest backup t out := by
  refine ⟨fun _ rest a _ _ ha _ => hcomplete rest a ha, ?_, fun _ _ => ⟨hcomplete, hbackup⟩⟩
  intro _ place hplace
  refine Or.inr ⟨?_, hbackup place hplace⟩
  obtain ⟨a, ha⟩ := Option.ne_none_iff_exists'.mp hsrc
  obtain ⟨d, hd, _⟩ := hcomplete [] a (by rw [append_nil]; exact ha)
  rw [append_nil] at hd
  rw [hd]
  exact Option.some_ne_none d

theorem overwriteRemember_tree (dest : Loc) (s : State) : (overwriteRemember w dest s).2.tree = s.tree := by
  unfold overwriteRemember
  split
  · rfl
  · dsimp only
    split <;> rfl

theorem Safe.remembered (hcomplete : Complete src dest t s.tree) (hsrc : t src ≠ none)
    (hbackup : ∀ place, backup = some place → Stands dest place t s.tree) :
    Safe o src dest backup t (overwriteRemember w dest s) := by
  have htree := @overwriteRemember_tree w dest s
  apply Safe.of_complete _ hsrc
  · intro place hplace
    rw [htree]
    exact hbackup place hplace
  · rw [htree]
    exact hcomplete

/-! ## With a backup -/

section
variable {place : Loc} {t₁ : Tree}

section
variable (h : Backed w s.tree src parent base place t₁)
include h

variable {x : Loc} {s' : State}

section
variable (hwf : Wf w.toWorld s.tree)
include hwf

theorem Backed.kept (hs : s.Consistent)
    {a : Node} (ha : s.tree x = some a) (hdest : ¬ parent ++ [base] <+: x) (hplace : place ≠ x) :
    ¬ place <+: x ∧ t₁ x = some a := by
  have hbelow : ¬ place <+: x := by
    intro hunder
    have hnone := h.below_none hwf hs hunder hplace.symm
    simp [ha] at hnone
  exact ⟨hbelow, (h.renamed.other hdest hbelow).trans ha⟩

theorem Backed.parent_dir : ∃ d, t₁ parent = some d ∧ isDirectory d = true := by
  obtain ⟨d, hd, hdir⟩ := hwf.closed parent base h.there
  refine ⟨d, ?_, hdir⟩
  obtain ⟨name, _, hbeside⟩ := h.beside
  have hshort : ∀ n : Bytes, ¬ parent ++ [n] <+: parent := fun n hunder => ne_of_child_below hunder rfl
  rw [h.renamed.other (hshort base) (by rw [hbeside]; exact hshort name)]
  exact hd

theorem backupRestore_eq (hs : s.Consistent) (hframe : ∀ x, ¬ parent ++ [base] <+: x → s'.tree x = t₁ x)
    (hfree : s'.tree (parent ++ [base]) = none) :
    (backupRestore w (some place) (parent ++ [base]) s').2.tree = moveAt s'.tree place (parent ++ [base]) := by
  obtain ⟨hplaceDest, hdestPlace⟩ := h.dest_apart
  obtain ⟨d, hd, hdir⟩ := h.parent_dir hwf
  have hthere : s'.tree place ≠ none := by
    rw [hframe place hdestPlace]
    exact (h.renamed.stands hwf hs).there h.there
  obtain ⟨n, hn⟩ := Option.ne_none_iff_exists'.mp hthere
  have hin : inDirectory s'.tree (parent ++ [base]) = true := by
    unfold inDirectory
    rw [dropLast_concat, hframe parent fun hunder => ne_of_child_below hunder rfl, hd, Option.any_some, hdir]
    simp
  have hrename : rename w none s'.tree place (parent ++ [base]) = .ok (moveAt s'.tree place (parent ++ [base])) := by
    unfold rename
    dsimp only
    rw [hn]
    dsimp only
    rw [hin, Bool.not_true, if_neg Bool.false_ne_true, if_neg fun h => hplaceDest h.1, if_neg fun h => hdestPlace h.1,
      hfree]
  unfold backupRestore
  dsimp only
  rw [hfree, Option.isSome_none, if_neg Bool.false_ne_true, hrename]

theorem Safe.restored_backup (hs : s.Consistent) (hframe : ∀ x, ¬ parent ++ [base] <+: x → s'.tree x = t₁ x) :
    Safe o src (parent ++ [base]) (some place) s.tree
      (false, (backupRestore w (some place) (parent ++ [base]) s').2) := by
  obtain ⟨hplaceDest, hdestPlace⟩ := h.dest_apart
  have hstands : Stands (parent ++ [base]) place s.tree s'.tree := by
    apply (h.renamed.stands hwf hs).congr
    intro x hx
    apply hframe
    intro hunder
    cases above_or_below hx hunder with
    | inl hbelow => exact hplaceDest hbelow
    | inr habove => exact hdestPlace habove
  by_cases hfree : s'.tree (parent ++ [base]) = none
  · have htree := backupRestore_eq h hwf hs hframe hfree
    refine ⟨?_, ?_, fun hmoved => absurd hmoved Bool.false_ne_true⟩
    · intro _ rest a hdest hplace ha hgone
      obtain ⟨hbelow, hkept⟩ := h.kept hwf hs ha hdest fun heq => hplace (congrArg some heq)
      dsimp only at hgone
      simp [htree, moveAt_other hbelow hdest, hframe _ hdest, hkept] at hgone
    · intro _ place' hplace'
      cases hplace'
      apply Or.inl
      intro rest a ha
      dsimp only
      rw [htree, moveAt_dest]
      exact hstands rest a ha
  · have hrestore : (backupRestore w (some place) (parent ++ [base]) s').2 = s' := by
      unfold backupRestore
      dsimp only
      rw [if_pos (Option.isSome_iff_ne_none.mpr hfree)]
    rw [hrestore]
    refine ⟨?_, ?_, fun hmoved => absurd hmoved Bool.false_ne_true⟩
    · intro _ rest a hdest hplace ha hgone
      obtain ⟨_, hkept⟩ := h.kept hwf hs ha hdest fun heq => hplace (congrArg some heq)
      dsimp only at hgone
      simp [hframe _ hdest, hkept] at hgone
    · intro _ place' hplace'
      cases hplace'
      exact Or.inr ⟨hfree, hstands⟩

theorem Backed.place_apart (hs : s.Consistent) (hsrcDest : ¬ src <+: parent ++ [base]) (hx : place <+: x) :
    ¬ src <+: x ∧ ¬ parent ++ [base] <+: x := by
  obtain ⟨hplaceDest, hdestPlace⟩ := h.dest_apart
  obtain ⟨hplaceSrc, hsrcPlace⟩ := h.src_apart hwf hs
  refine ⟨?_, ?_⟩
  · intro hunder
    cases above_or_below hx hunder with
    | inl hbelow => exact hplaceSrc hbelow
    | inr habove => exact hsrcDest (hsrcPlace habove)
  · intro hunder
    cases above_or_below hx hunder with
    | inl hbelow => exact hplaceDest hbelow
    | inr habove => exact hdestPlace habove

end

theorem Backed.moved (hne : src ≠ parent ++ [base])
    (hwf : Wf w.toWorld s.tree) (hs : s.Consistent) {t₂ : Tree} (hrenamed : Renamed w t₁ src (parent ++ [base]) t₂) :
    Stands src (parent ++ [base]) s.tree t₂ ∧ Stands (parent ++ [base]) place s.tree t₂ := by
  have hbegun := Begun.of_backed h hne hwf hs
  have hstands := h.renamed.stands hwf hs
  refine ⟨?_, hstands.congr ?_⟩
  · cases h.cases with
    | inl hsame =>
      rw [hsame.1] at hrenamed
      exact hrenamed.stands hwf hs
    | inr hmoved =>
      have hgone : t₁ (parent ++ [base]) = none := by
        rw [hmoved, moveAt_source (prefix_refl _) h.dest_apart.1]
      cases hrenamed with
      | same n d _ _ hd _ _ => simp [hgone] at hd
      | moved n heq _ hsrcDest hdestSrc _ =>
        apply Stands.of_eq
        intro rest
        rw [heq, moveAt_dest]
        exact hbegun.apart hsrcDest hdestSrc _ (prefix_append src rest)
  · intro x hx
    cases hrenamed with
    | same n d heq _ _ _ _ => rw [heq]
    | moved n heq _ hsrcDest _ _ =>
      obtain ⟨hsrc, hdest⟩ := h.place_apart hwf hs hsrcDest hx
      rw [heq, moveAt_other hsrc hdest]

end

end

theorem renameFile_safe {s₁ : State} (hwf : Wf w.toWorld s.tree) (hs : s.Consistent) (hbase : base ∈ w.order parent)
    (hbefore : beforeRename w o src parent base s = .inr (st, s₁, backup))
    (hrename : RenameAfterBackup w o src parent base s) :
    Safe o src (parent ++ [base]) backup s.tree (renameFile w o src parent base s) := by
  obtain ⟨hst, hcases⟩ := beforeRename_cases hbefore
  have hsrc : s.tree src ≠ none := hst ▸ Option.some_ne_none st
  unfold renameFile
  rw [hbefore]
  dsimp only
  cases hexchange : o.exchange with
  | true =>
    rw [if_pos rfl]
    have htree : s₁.tree = s.tree := by
      cases hcases with
      | inl hno => rw [hno.2.1]
      | inr hyes =>
        obtain ⟨_, _, _, _, hno, _⟩ := hyes
        exact absurd (hno.symm.trans hexchange) Bool.false_ne_true
    unfold exchange
    split
    · exact .unchanged rfl htree
    · exact ⟨nofun, nofun, fun _ hno => absurd (hno.symm.trans hexchange) Bool.false_ne_true⟩
  | false =>
    rw [if_neg Bool.false_ne_true]
    cases hanswer : rename w w.renameErrno s₁.tree src (parent ++ [base]) with
    | ok t₂ =>
      have hrenamed := rename_renamed hanswer
      dsimp only
      cases hcases with
      | inl hno =>
        obtain ⟨hbackup, hsame, _⟩ := hno
        rw [hsame] at hrenamed ⊢
        rw [hbackup]
        exact .remembered (hrenamed.stands hwf hs).complete hsrc nofun
      | inr hyes =>
        obtain ⟨place, t₁, hbackup, hsame, _, hne, hbacked⟩ := hyes
        rw [hsame] at hrenamed ⊢
        rw [hbackup]
        obtain ⟨hmoved, hold⟩ := hbacked.moved hne hwf hs hrenamed
        apply Safe.remembered hmoved.complete hsrc
        intro place' hplace'
        cases hplace'
        exact hold
    | error e =>
      dsimp only
      by_cases hstop : e ≠ .xdev ∨ o.noCopy = true
      · rw [if_pos hstop]
        apply Safe.unchanged rfl
        cases hcases with
        | inl hno => rw [hno.2.1]
        | inr hyes =>
          obtain ⟨place, t₁, hbackup, hsame, _, hne, hbacked⟩ := hyes
          cases hbacked.cases with
          | inl hkept =>
            rw [hsame]
            exact hkept.1
          | inr hmoved =>
            -- the name is free, so the rename must not have failed like this
            have hfree : s₁.tree (parent ++ [base]) = none := by
              rw [hsame, hmoved]
              exact moveAt_source (prefix_refl _) hbacked.dest_apart.1
            rw [hbackup] at hbefore
            obtain ⟨hxdev, hcopy⟩ := hrename st s₁ place e hbefore hfree hanswer
            cases hstop with
            | inl hother => exact absurd hxdev hother
            | inr hno => exact absurd (hcopy.symm.trans hno) Bool.false_ne_true
      · rw [if_neg hstop]
        have hbegun : Begun s.tree src (parent ++ [base]) s₁ := by
          cases hcases with
          | inl hno =>
            obtain ⟨_, hsame, hid⟩ := hno
            rw [hsame]
            apply Begun.of_same hs hsrc
            intro d hd n hn
            rw [hst] at hn
            cases hn
            exact hid hexchange d hd
          | inr hyes =>
            obtain ⟨place, t₁, _, hsame, _, hne, hbacked⟩ := hyes
            rw [hsame]
            exact Begun.of_backed hbacked hne hwf hs
        cases crossDeviceFallback_moved hbegun hwf hbase hst with
        | unmoved hfalse hframe =>
          rw [hfalse, if_neg Bool.false_ne_true]
          cases hcases with
          | inl hno =>
            obtain ⟨hbackup, hsame, _⟩ := hno
            rw [hbackup]
            refine ⟨?_, nofun, nofun⟩
            intro _ rest a hdest _ ha hgone
            have hkept : (crossDeviceFallback w src (parent ++ [base]) st s₁).2.tree (src ++ rest) = some a :=
              (hframe _ hdest).trans (by rw [hsame]; exact ha)
            exact absurd (hkept.symm.trans hgone) (Option.some_ne_none a)
          | inr hyes =>
            obtain ⟨place, t₁, hbackup, hsame, _, hne, hbacked⟩ := hyes
            rw [hbackup]
            apply Safe.restored_backup hbacked hwf hs
            intro x hx
            rw [hframe x hx, hsame]
        | copied hsrcDest hdestSrc hcomplete hframe =>
          have hold : ∀ place, backup = some place → Stands (parent ++ [base]) place s.tree
              (crossDeviceFallback w src (parent ++ [base]) st s₁).2.tree := by
            intro place hplace
            cases hcases with
            | inl hno => simp [hno.1] at hplace
            | inr hyes =>
              obtain ⟨place', t₁, hbackup, hsame, _, hne, hbacked⟩ := hyes
              rw [hbackup] at hplace
              cases hplace
              apply (hbacked.renamed.stands hwf hs).congr
              intro x hx
              obtain ⟨hsrcX, hdestX⟩ := hbacked.place_apart hwf hs hsrcDest hx
              rw [(hframe x hdestX).resolve_right fun hgone => hsrcX hgone.1, hsame]
          cases hokay : (crossDeviceFallback w src (parent ++ [base]) st s₁).1 with
          | true =>
            rw [if_pos rfl]
            exact .remembered hcomplete hsrc hold
          | false =>
            rw [if_neg Bool.false_ne_true]
            have hrestore : (backupRestore w backup (parent ++ [base])
                (crossDeviceFallback w src (parent ++ [base]) st s₁).2).2.tree =
                  (crossDeviceFallback w src (parent ++ [base]) st s₁).2.tree := by
              obtain ⟨d, hd, _⟩ := hcomplete [] st (by rw [append_nil]; exact hst)
              rw [append_nil] at hd
              unfold backupRestore
              cases backup with
              | none => rfl
              | some place =>
                dsimp only
                rw [hd, Option.isSome_some, if_pos rfl]
            apply Safe.of_complete _ hsrc
            · intro place hplace
              rw [hrestore]
              exact hold place hplace
            · rw [hrestore]
              exact hcomplete

theorem renameAfterBackup_of_safe (h : MovesSafely w o src parent base s) : RenameAfterBackup w o src parent base s := by
  intro st s₁ place e hbefore hfree hanswer
  obtain ⟨_, hcases⟩ := beforeRename_cases hbefore
  unfold MovesSafely at h
  rw [hbefore] at h
  dsimp only at h
  cases hcases with
  | inl hno => cases hno.1
  | inr hyes =>
    obtain ⟨_, _, _, _, hexchange, _, hbacked⟩ := hyes
    by_contra hother
    have hstop : e ≠ .xdev ∨ o.noCopy = true := by
      by_cases hxdev : e = .xdev
      · exact Or.inr (Bool.not_eq_false _ ▸ fun hcopy => hother ⟨hxdev, hcopy⟩)
      · exact Or.inl hxdev
    have hout : renameFile w o src parent base s = (false, s₁) := by
      unfold renameFile
      rw [hbefore]
      dsimp only
      rw [hexchange, if_neg Bool.false_ne_true, hanswer]
      dsimp only
      rw [if_pos hstop]
    rw [hout] at h
    cases h.restored rfl place rfl with
    | inl hback => exact hback.there hbacked.there hfree
    | inr hnew => exact hnew.1 hfree

/-- **Main result.** A move loses no data if and only if, once the name of the destination has been given up for the
backup, the rename succeeds or fails only between devices with copying allowed. -/
theorem movesSafely_iff (w : MoveWorld) (o : Options) (src parent : Loc) (base : Bytes) (s : State)
    (hwf : Wf w.toWorld s.tree) (hs : s.Consistent) (hbase : base ∈ w.order parent) :
    MovesSafely w o src parent base s ↔ RenameAfterBackup w o src parent base s := by
  refine ⟨renameAfterBackup_of_safe, ?_⟩
  intro h
  unfold MovesSafely
  cases hbefore : beforeRename w o src parent base s with
  | inl ok =>
    dsimp only
    unfold renameFile
    rw [hbefore]
  | inr going =>
    obtain ⟨st, s₁, backup⟩ := going
    exact renameFile_safe hwf hs hbase hbefore h

end

/-! ## One call after the other -/

section
variable {w : MoveWorld} {o : Options} {s : State} {src parent : Loc} {base : Bytes} {st : Node} {backup : Option Loc}

variable {dest : Loc}

section
variable (hs : s.Consistent)
include hs

theorem overwriteRemember_consistent : (overwriteRemember w dest s).2.Consistent := by
  unfold overwriteRemember
  split
  · exact hs
  · dsimp only
    split
    · exact hs
    · exact hs.of_tree (fun x _ ha => ⟨x, ha⟩) s.stop _

theorem backupRestore_consistent : (backupRestore w backup dest s).2.Consistent := by
  unfold backupRestore
  split
  · exact hs
  · split
    · exact hs
    · split
      · exact hs
      · rename_i t hrename
        exact (rename_renamed hrename).consistent hs

theorem exchange_consistent : (exchange w src dest s).2.Consistent := by
  unfold exchange
  split
  · exact hs
  · apply hs.of_tree
    intro x a ha
    unfold swapAt at ha
    split at ha
    · exact ⟨_, ha⟩
    · split at ha <;> exact ⟨_, ha⟩

theorem crossDeviceFallback_consistent : (crossDeviceFallback w src dest st s).2.Consistent := by
  have hprepared := (@prepare_within w st dest s).1.consistent hs
  have hcopied := (copyPath_within w.toWorld src dest (hprepared.stop false)).consistent (hprepared.stop false)
  unfold crossDeviceFallback
  dsimp only
  split
  · exact hprepared
  · split
    · exact hcopied.stop false
    · split
      · exact hcopied.stop false
      · apply (hcopied.stop false).of_tree
        intro x a ha
        dsimp only at ha
        split at ha
        · cases ha
        · exact ⟨x, ha⟩

theorem renameFile_consistent : (renameFile w o src parent base s).2.Consistent := by
  unfold renameFile
  cases hbefore : beforeRename w o src parent base s with
  | inl ok => exact hs
  | inr going =>
    obtain ⟨st, s₁, backup⟩ := going
    have hs₁ : s₁.Consistent := by
      cases (beforeRename_cases hbefore).2 with
      | inl hno =>
        rw [hno.2.1]
        exact hs
      | inr hyes =>
        obtain ⟨_, _, _, hsame, _, _, hbacked⟩ := hyes
        rw [hsame]
        exact hbacked.renamed.consistent hs
    dsimp only
    split
    · exact exchange_consistent hs₁
    · split
      · rename_i t hrename
        exact overwriteRemember_consistent ((rename_renamed hrename).consistent hs₁)
      · split
        · exact hs₁
        · split
          · exact overwriteRemember_consistent (crossDeviceFallback_consistent hs₁)
          · exact backupRestore_consistent (crossDeviceFallback_consistent hs₁)

/-- Throughout a run one identity is one object, and a copy that is remembered is a copy of its source. -/
theorem moveAll_consistent (moves : List (MoveWorld × Loc)) : (moveAll o parent moves s).Consistent := by
  induction moves generalizing s with
  | nil => exact hs
  | cons move moves ih => exact ih (renameFile_consistent hs)

end

end

/-! ## A rename that is refused -/

def nextIdentity (used : List Identity) : Identity := ⟨0, (used.map Remove.Identity.ino).sum + 1⟩

theorem nextIdentity_fresh (used : List Identity) : nextIdentity used ∉ used := by
  intro h
  have hle := le_sum_of_mem (mem_map_of_mem h : (nextIdentity used).ino ∈ used.map Remove.Identity.ino)
  unfold nextIdentity at hle
  dsimp only at hle
  omega

/-- Files `a` and `b`, and a directory in which `a` may not be renamed -/
def smallTree : Tree := fun q =>
  if q = [] then some ⟨⟨0, 1⟩, .directory, 2, 0⟩
  else if q = [[97]] then some ⟨⟨0, 2⟩, .regular [1], 1, 0⟩
  else if q = [[98]] then some ⟨⟨0, 3⟩, .regular [2], 1, 0⟩
  else none

def smallWorld (renameErrno : Option Errno) : MoveWorld where
  order := fun _ => [[97], [98]]
  depth := 1
  fails := fun _ _ => false
  leads := fun _ _ => none
  partialData := fun _ => []
  readable := fun _ => 0
  now := 0
  newId := nextIdentity
  newId_fresh := nextIdentity_fresh
  confirm := true
  renameErrno := renameErrno
  backupErrno := none
  remove := ⟨fun _ => [[97], [98]], fun _ _ => false, 1⟩

def smallState : State := { tree := smallTree, used := [⟨0, 1⟩, ⟨0, 2⟩, ⟨0, 3⟩] }

theorem smallTree_cases {q : Loc} {n : Node} (h : smallTree q = some n) :
    (q = [] ∧ n = ⟨⟨0, 1⟩, .directory, 2, 0⟩) ∨ (q = [[97]] ∧ n = ⟨⟨0, 2⟩, .regular [1], 1, 0⟩) ∨
      (q = [[98]] ∧ n = ⟨⟨0, 3⟩, .regular [2], 1, 0⟩) := by
  unfold smallTree at h
  split at h
  · exact Or.inl ⟨‹_›, (Option.some.inj h).symm⟩
  · split at h
    · exact Or.inr (Or.inl ⟨‹_›, (Option.some.inj h).symm⟩)
    · split at h
      · exact Or.inr (Or.inr ⟨‹_›, (Option.some.inj h).symm⟩)
      · cases h

theorem smallTree_wf (renameErrno : Option Errno) : Wf (smallWorld renameErrno).toWorld smallTree := by
  have hchild : ∀ p n, smallTree (p ++ [n]) ≠ none → p = [] ∧ (n = [97] ∨ n = [98]) := by
    intro p n hthere
    obtain ⟨found, hfound⟩ := Option.ne_none_iff_exists'.mp hthere
    have hconcat : ∀ name, p ++ [n] = [name] → p = [] ∧ n = name := by
      intro name heq
      obtain ⟨hp, hn⟩ := append_inj' (show p ++ [n] = [] ++ [name] from heq) rfl
      exact ⟨hp, singleton_inj.mp hn⟩
    cases smallTree_cases hfound with
    | inl hroot => exact absurd hroot.1 (append_ne_nil_of_right_ne_nil p (cons_ne_nil n []))
    | inr hfile =>
      cases hfile with
      | inl ha => exact ⟨(hconcat _ ha.1).1, Or.inl (hconcat _ ha.1).2⟩
      | inr hb => exact ⟨(hconcat _ hb.1).1, Or.inr (hconcat _ hb.1).2⟩
  refine ⟨?_, ?_, ?_⟩
  · intro p n hthere
    rw [(hchild p n hthere).1]
    exact ⟨_, rfl, rfl⟩
  · intro p n hthere
    cases (hchild p n hthere).2 with
    | inl ha =>
      rw [ha]
      exact mem_cons_self
    | inr hb =>
      rw [hb]
      exact mem_cons_of_mem _ mem_cons_self
  · intro q hthere
    obtain ⟨found, hfound⟩ := Option.ne_none_iff_exists'.mp hthere
    show q.length ≤ 1
    obtain ⟨hq, _⟩ | ⟨hq, _⟩ | ⟨hq, _⟩ := smallTree_cases hfound <;> rw [hq] <;> decide

theorem smallState_consistent : smallState.Consistent := by
  refine ⟨?_, ?_, ?_, ?_⟩
  · intro x y a b ha hb
    obtain ⟨_, ha⟩ | ⟨_, ha⟩ | ⟨_, ha⟩ := smallTree_cases ha <;>
      obtain ⟨_, hb⟩ | ⟨_, hb⟩ | ⟨_, hb⟩ := smallTree_cases hb <;> rw [ha, hb] <;> decide
  · intro x a ha
    obtain ⟨_, ha⟩ | ⟨_, ha⟩ | ⟨_, ha⟩ := smallTree_cases ha <;> rw [ha] <;> decide
  · exact fun e he => absurd he not_mem_nil
  · exact fun e he => absurd he not_mem_nil

theorem moveAll_consistent_small : (moveAll {} [] [(smallWorld none, [[97]])] smallState).Consistent :=
  moveAll_consistent smallState_consistent _

theorem movesSafely_iff_small : MovesSafely (smallWorld none) { backup := .simple } [[97]] [] [98] smallState ↔
      RenameAfterBackup (smallWorld none) { backup := .simple } [[97]] [] [98] smallState :=
  movesSafely_iff (smallWorld none) { backup := .simple } [[97]] [] [98] smallState (smallTree_wf none)
    smallState_consistent (by decide)

/-- `b` is backed up, the rename of `a` is refused, and there is no `b` any more. -/
theorem not_movesSafely :
    ¬ ∀ (w : MoveWorld) (o : Options) (src parent : Loc) (base : Bytes) (s : State), Wf w.toWorld s.tree →
      s.Consistent → base ∈ w.order parent → MovesSafely w o src parent base s := by
  intro h
  have hsafe := h (smallWorld (some .other)) { backup := .simple } [[97]] [] [98] smallState (smallTree_wf _)
    smallState_consistent (by decide)
  have hbefore : beforeRename (smallWorld (some .other)) { backup := .simple } [[97]] [] [98] smallState =
      .inr (⟨⟨0, 2⟩, .regular [1], 1, 0⟩, { smallState with tree := moveAt smallTree [[98]] [[98, 126]] },
        some [[98, 126]]) := rfl
  obtain ⟨hxdev, _⟩ := renameAfterBackup_of_safe hsafe _ _ _ .other hbefore rfl rfl
  cases hxdev

end Bx.Mv
