import Bx.Kit.Transition
import Bx.Mv.MvSound

/-!
# Numbered backups

Runs of `bx_backup_create` for one path. Between two backups anything may happen that takes no numbered backup of the
path away. A number is one above the largest one that the scan of the directory has found, and a scan that cannot be
made or breaks off says nothing about the rest.
-/

namespace Bx.Mv

open Kit List
open Remove (Loc)

/-! ## Names and numbers -/

def intMax : Nat := 2147483647

def numberedName (base : Bytes) (version : Nat) : Bytes := base ++ [46, 126] ++ numeral 10 version ++ [126]

theorem parse_numeral {version : Nat} (h : version ≤ intMax) :
    parseNumberedSuffixVersion (numeral 10 version ++ [126]) = some version := by
  have hdigits : (numeral 10 version ++ [126]).takeWhile Mv.isDigit = numeral 10 version := by
    rw [takeWhile_append_of_pos, takeWhile_cons_of_neg (by decide), append_nil]
    intro c hc
    have hdigit := isDigit_iff.mp (isDigit_of_mem_numeral (by decide) (by decide) hc)
    simp only [Mv.isDigit, Bool.and_eq_true, decide_eq_true_eq, UInt8.le_iff_toNat_le]
    exact ⟨hdigit.1, Nat.le_of_lt_succ hdigit.2⟩
  have hvalue : (numeral 10 version).foldl (fun n d => n * 10 + (d.toNat - 48)) 0 = version :=
    numeralValue_numeral (by decide) (by decide) version
  unfold parseNumberedSuffixVersion
  dsimp only
  rw [hdigits, hvalue, drop_left, if_neg]
  intro hbad
  obtain hnil | hlarge | htail := hbad
  · exact numeral_ne_nil version hnil
  · exact Nat.not_lt.mpr h hlarge
  · exact htail rfl

theorem parse_le {text : Bytes} {version : Nat} (h : parseNumberedSuffixVersion text = some version) :
    version ≤ intMax := by
  unfold parseNumberedSuffixVersion at h
  dsimp only at h
  split at h
  · cases h
  · next hgood =>
    cases h
    rw [not_or, not_or] at hgood
    exact Nat.le_of_not_lt hgood.2.1

theorem numberedName_ne (base : Bytes) (version : Nat) : base ≠ numberedName base version := by
  intro heq
  have hlength := congrArg length heq
  unfold numberedName at hlength
  simp only [length_append, length_cons, length_nil] at hlength
  omega

theorem foldl_max_le {bound : Nat} (versions : List Nat) {v : Nat} (hv : v ≤ bound)
    (h : ∀ version ∈ versions, version ≤ bound) : versions.foldl max v ≤ bound := by
  induction versions generalizing v with
  | nil => exact hv
  | cons version rest ih =>
    exact ih (Nat.max_le.mpr ⟨hv, h version mem_cons_self⟩) fun other hother => h other (mem_cons_of_mem _ hother)

theorem le_foldl_max (versions : List Nat) (v : Nat) :
    v ≤ versions.foldl max v ∧ ∀ version ∈ versions, version ≤ versions.foldl max v := by
  induction versions generalizing v with
  | nil => exact ⟨Nat.le_refl v, fun _ h => absurd h not_mem_nil⟩
  | cons version rest ih =>
    obtain ⟨hstart, hrest⟩ := ih (max v version)
    refine ⟨Nat.le_trans (Nat.le_max_left _ _) hstart, ?_⟩
    intro other hother
    cases mem_cons.mp hother with
    | inl heq =>
      rw [heq]
      exact Nat.le_trans (Nat.le_max_right _ _) hstart
    | inr hmem => exact hrest other hmem

section
variable {w : MoveWorld} {o : Options} {t t' : Tree} {src parent place : Loc} {base : Bytes} {version : Nat}

theorem getMaxBackupVersion_le : getMaxBackupVersion w t parent base ≤ intMax := by
  unfold getMaxBackupVersion
  split
  · exact Nat.zero_le _
  · apply foldl_max_le _ (Nat.zero_le _)
    intro version hversion
    obtain ⟨name, -, hparse⟩ := mem_filterMap.mp hversion
    split at hparse
    · exact parse_le hparse
    · cases hparse

/-- The scan returns every name in the directory. -/
def ListedWhole (w : MoveWorld) (t : Tree) (parent : Loc) : Prop :=
  w.fails .versions parent = false ∧ ∀ name, t (parent ++ [name]) ≠ none → name ∈ w.order parent

theorem le_getMaxBackupVersion (hlisted : ListedWhole w t parent) (hversion : version ≤ intMax)
    (hthere : t (parent ++ [numberedName base version]) ≠ none) : version ≤ getMaxBackupVersion w t parent base := by
  unfold getMaxBackupVersion
  rw [if_neg (by rw [hlisted.1]; decide)]
  apply (le_foldl_max _ 0).2
  refine mem_filterMap.mpr ⟨numberedName base version, ?_, ?_⟩
  · exact mem_filter.mpr ⟨hlisted.2 _ hthere, Option.isSome_iff_ne_none.mpr hthere⟩
  · unfold numberedName
    rw [append_assoc _ _ [126], if_pos (prefix_append _ _),
      show base.length + 2 = (base ++ [46, 126]).length by rw [length_append]; rfl, drop_left]
    exact parse_numeral hversion

/-- `get_backup_path` takes a number. -/
def choosesNumber (w : MoveWorld) (o : Options) (t : Tree) (parent : Loc) (base : Bytes) : Bool :=
  o.backup = .numbered ∨ (o.backup = .existing ∧ 0 < getMaxBackupVersion w t parent base)

section
variable (h : backupCreate w o t src parent base = .created place t')
include h

theorem backupCreate_name : ∃ name, getBackupName w o t parent base = some name ∧ place = parent ++ [name] := by
  unfold backupCreate at h
  split at h
  · cases h
  · split at h
    · cases h
    · split at h
      · cases h
      · split at h
        · cases h
        · next name hname =>
          refine ⟨name, hname, ?_⟩
          split at h
          · cases h
          · split at h
            · cases h
            · split at h
              · cases h
              · split at h
                · cases h
                · cases h
                  rfl

theorem backupCreate_numbered (hchooses : choosesNumber w o t parent base = true) :
    getMaxBackupVersion w t parent base + 1 ≤ intMax ∧
      place = parent ++ [numberedName base (getMaxBackupVersion w t parent base + 1)] := by
  obtain ⟨name, hname, hplace⟩ := backupCreate_name h
  unfold getBackupName at hname
  dsimp only at hname
  rw [if_pos (of_decide_eq_true hchooses)] at hname
  split at hname
  · cases hname
  · next hmax =>
    cases hname
    exact ⟨lt_of_le_of_ne getMaxBackupVersion_le hmax, hplace⟩

theorem backupCreate_stands : t' place ≠ none := by
  cases (backupCreate_backed h).renamed with
  | same _ d heq _ hd =>
    rw [heq, hd]
    exact Option.some_ne_none d
  | moved n heq hn =>
    have hdest := moveAt_dest t (parent ++ [base]) place []
    rw [append_nil, append_nil, hn] at hdest
    rw [heq, hdest]
    exact Option.some_ne_none n

/-- A backup takes no numbered backup of the path away. -/
theorem backupCreate_keeps (hthere : t (parent ++ [numberedName base version]) ≠ none) : t' (parent ++ [numberedName base version]) ≠ none := by
  have hbacked := backupCreate_backed h
  obtain ⟨name, -, hplace⟩ := hbacked.beside
  by_cases hdest : place <+: parent ++ [numberedName base version]
  · have hsame : name = numberedName base version := sibling_inj (hplace ▸ hdest)
    rw [← hsame, ← hplace]
    exact backupCreate_stands h
  · rwa [hbacked.renamed.other (fun hsource => numberedName_ne base version (sibling_inj hsource)) hdest]

end

end

/-! ## Runs -/

/-- The numbers that were chosen, each with whether its name existed before -/
structure Backups where
  tree : Tree
  chosen : List (Nat × Bool)

inductive BackupStep
  | backup (w : MoveWorld) (o : Options) (src : Loc)
  | other

def backups (parent : Loc) (base : Bytes) : System Backups BackupStep where
  init s := s.chosen = []
  step s a s' := match a with
    | .backup w o src => ∃ place, backupCreate w o s.tree src parent base = .created place s'.tree ∧
        s'.chosen = if choosesNumber w o s.tree parent base then
          s.chosen ++ [(getMaxBackupVersion w s.tree parent base + 1, (s.tree place).isSome)] else s.chosen
    | .other => s'.chosen = s.chosen ∧ ∀ version, s.tree (parent ++ [numberedName base version]) ≠ none →
        s'.tree (parent ++ [numberedName base version]) ≠ none

structure NeverOverwrites (s : Backups) : Prop where
  fresh : ∀ choice ∈ s.chosen, choice.2 = false
  increasing : s.chosen.Pairwise fun first later => first.1 < later.1

/-- The directory is listed whole whenever its numbers matter. -/
def Listed (parent : Loc) (s : Backups) : BackupStep → Prop
  | .backup w o _ => o.backup = .numbered ∨ o.backup = .existing → ListedWhole w s.tree parent
  | .other => True

section
variable {parent : Loc} {base : Bytes} {s s' : Backups}

structure Standing (parent : Loc) (base : Bytes) (s : Backups) : Prop extends NeverOverwrites s where
  stand : ∀ choice ∈ s.chosen, choice.1 ≤ intMax ∧ s.tree (parent ++ [numberedName base choice.1]) ≠ none

theorem Standing.backup {w : MoveWorld} {o : Options} {src place : Loc} (h : Standing parent base s)
    (hcreated : backupCreate w o s.tree src parent base = .created place s'.tree)
    (hchooses : choosesNumber w o s.tree parent base = true) (hlisted : ListedWhole w s.tree parent)
    (hchosen : s'.chosen = s.chosen ++ [(getMaxBackupVersion w s.tree parent base + 1, (s.tree place).isSome)]) :
    Standing parent base s' := by
  obtain ⟨hmax, hplace⟩ := backupCreate_numbered hcreated hchooses
  have hnew : s.tree place = none := by
    by_contra hthere
    have hle := le_getMaxBackupVersion hlisted hmax (hplace ▸ hthere)
    exact Nat.not_succ_le_self _ hle
  refine ⟨⟨?_, ?_⟩, ?_⟩ <;> rw [hchosen]
  · intro choice hchoice
    cases mem_append.mp hchoice with
    | inl hold => exact h.fresh choice hold
    | inr hlast => rw [mem_singleton.mp hlast, hnew]; rfl
  · refine pairwise_append.mpr ⟨h.increasing, pairwise_singleton _ _, ?_⟩
    intro choice hchoice last hlast
    rw [mem_singleton.mp hlast]
    obtain ⟨hle, hstands⟩ := h.stand choice hchoice
    exact Nat.lt_succ_of_le (le_getMaxBackupVersion hlisted hle hstands)
  · intro choice hchoice
    cases mem_append.mp hchoice with
    | inl hold => exact ⟨(h.stand choice hold).1, backupCreate_keeps hcreated (h.stand choice hold).2⟩
    | inr hlast =>
      rw [mem_singleton.mp hlast]
      exact ⟨hmax, hplace ▸ backupCreate_stands hcreated⟩

theorem Standing.unnumbered (h : Standing parent base s) (hchosen : s'.chosen = s.chosen)
    (hkeeps : ∀ version, s.tree (parent ++ [numberedName base version]) ≠ none →
      s'.tree (parent ++ [numberedName base version]) ≠ none) : Standing parent base s' := by
  refine ⟨⟨?_, ?_⟩, ?_⟩ <;> rw [hchosen]
  · exact h.fresh
  · exact h.increasing
  · exact fun choice hchoice => ⟨(h.stand choice hchoice).1, hkeeps _ (h.stand choice hchoice).2⟩

/-- **Main result.** Where every listing is whole, the name of a numbered backup did not exist before and the numbers
of one path increase. -/
theorem numberedBackups_fresh (h : Kit.Reachable ((backups parent base).guarded (Listed parent)) s) : NeverOverwrites s := by
  refine (h.invariant (I := Standing parent base) ?_ ?_).toNeverOverwrites
  · intro s hnone
    change s.chosen = [] at hnone
    refine ⟨⟨?_, ?_⟩, ?_⟩ <;> rw [hnone]
    · exact fun _ hmem => absurd hmem not_mem_nil
    · exact Pairwise.nil
    · exact fun _ hmem => absurd hmem not_mem_nil
  · intro s a s' _ hs ⟨hlisted, hstep⟩
    cases a with
    | other => exact hs.unnumbered hstep.1 hstep.2
    | backup w o src =>
      obtain ⟨place, hcreated, hchosen⟩ := hstep
      by_cases hchooses : choosesNumber w o s.tree parent base = true
      · rw [if_pos hchooses] at hchosen
        exact hs.backup hcreated hchooses (hlisted ((of_decide_eq_true hchooses).imp_right And.left)) hchosen
      · rw [if_neg hchooses] at hchosen
        exact hs.unnumbered hchosen fun _ => backupCreate_keeps hcreated

end

/-- A directory with `a`, `b` and `b.~1~`, which may not be opened for reading when `locked` -/
def numberedWorld (locked : Bool) : MoveWorld :=
  { smallWorld none with
    order := fun _ => [[97], [98], numberedName [98] 1]
    fails := fun step _ => match step with
      | .versions => locked
      | _ => false }

def numberedTree : Tree := putAt smallTree [numberedName [98] 1] ⟨⟨0, 4⟩, .regular [3], 1, 0⟩

theorem numberedWorld_listed : ListedWhole (numberedWorld false) numberedTree [] := by
  refine ⟨rfl, ?_⟩
  intro name hthere
  change putAt smallTree [numberedName [98] 1] _ [name] ≠ none at hthere
  by_cases hbackup : [name] = [numberedName [98] 1]
  · rw [singleton_inj.mp hbackup]
    exact mem_cons_of_mem _ (mem_cons_of_mem _ mem_cons_self)
  · rw [putAt_of_ne _ _ hbackup] at hthere
    obtain ⟨n, hn⟩ := Option.ne_none_iff_exists'.mp hthere
    obtain ⟨hname, -⟩ | ⟨hname, -⟩ | ⟨hname, -⟩ := smallTree_cases hn
    · cases hname
    · rw [singleton_inj.mp hname]
      exact mem_cons_self
    · rw [singleton_inj.mp hname]
      exact mem_cons_of_mem _ mem_cons_self

theorem numberedBackups_fresh_second :
    NeverOverwrites ⟨moveAt numberedTree [[98]] [numberedName [98] 2], [(2, false)]⟩ := by
  have hstart : Kit.Reachable ((backups [] [98]).guarded (Listed [])) ⟨numberedTree, []⟩ := .init rfl
  have hstep : ((backups [] [98]).guarded (Listed [])).step ⟨numberedTree, []⟩
      (.backup (numberedWorld false) { backup := .numbered } [[97]])
      ⟨moveAt numberedTree [[98]] [numberedName [98] 2], [(2, false)]⟩ :=
    ⟨fun _ => numberedWorld_listed, [numberedName [98] 2], rfl, rfl⟩
  exact numberedBackups_fresh (hstart.step hstep)

/-- The directory cannot be listed, and the first number is chosen again. -/
theorem not_numberedBackups_fresh : ¬ ∀ parent base s, Kit.Reachable (backups parent base) s → NeverOverwrites s := by
  intro h
  have hstart : Kit.Reachable (backups [] [98]) ⟨numberedTree, []⟩ := .init rfl
  have hstep : (backups [] [98]).step ⟨numberedTree, []⟩ (.backup (numberedWorld true) { backup := .numbered } [[97]])
      ⟨moveAt numberedTree [[98]] [numberedName [98] 1], [(1, true)]⟩ := ⟨[numberedName [98] 1], rfl, rfl⟩
  exact absurd ((h _ _ _ (hstart.step hstep)).fresh (1, true) mem_cons_self) (by decide)

end Bx.Mv
