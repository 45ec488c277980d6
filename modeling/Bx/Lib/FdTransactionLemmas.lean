import Bx.Lib.FdTransaction

/-!
# References, backups and their moves

The backups are open on what they stand for, differ from one another and keep away from every number a transaction
refers to. Moving backups keeps this, and the user sees none of it.
-/

namespace Bx.FdTransaction

open Bx.Kit List

variable {File : Type*}

/-! ## References -/

def refFds (references : List Ref) : List Nat := references.map (·.fd)

@[simp] theorem refFds_nil : refFds [] = [] := rfl

@[simp] theorem refFds_cons (r : Ref) (references : List Ref) : refFds (r :: references) = r.fd :: refFds references := rfl

section
variable {references : List Ref} {fd : Nat}

theorem findRef_some {index : Nat} (h : findRef references fd = some index) : (refFds references)[index]? = some fd := by
  unfold findRef at h
  simp only at h
  split_ifs at h with hany
  cases h
  rw [Option.any_eq_true] at hany
  obtain ⟨r, hr, hfd⟩ := hany
  rw [refFds, getElem?_map, hr]
  exact congrArg some (of_decide_eq_true hfd)

theorem findRef_none (hs : (refFds references).Pairwise (· < ·)) (h : findRef references fd = none) :
    fd ∉ refFds references := by
  have hlt : ∀ i j a b : Nat, (refFds references)[i]? = some a → (refFds references)[j]? = some b → i < j → a < b := by
    intro i j a b hi hj hij
    obtain ⟨hi', rfl⟩ := List.getElem?_eq_some_iff.mp hi
    obtain ⟨hj', rfl⟩ := List.getElem?_eq_some_iff.mp hj
    exact pairwise_iff_getElem.mp hs i j hi' hj' hij
  have hbelow : ∀ i, refBelow references fd i = true ↔ ∃ a, (refFds references)[i]? = some a ∧ a < fd := by
    intro i
    rw [refBelow, Option.any_eq_true, refFds, getElem?_map]
    cases references[i]? <;> simp
  obtain ⟨_, hle, hlow, hhigh⟩ := lowerBound_spec (refBelow references fd) 0 references.length (by
      intro i j hij hj
      obtain ⟨b, hb, hbfd⟩ := (hbelow j).mp hj
      have hi : i < (refFds references).length := lt_of_le_of_lt hij (List.getElem?_eq_some_iff.mp hb).1
      refine (hbelow i).mpr ⟨(refFds references)[i], getElem?_eq_getElem hi, ?_⟩
      cases Nat.eq_or_lt_of_le hij with
      | inl e => subst e; rw [getElem?_eq_getElem hi] at hb; cases hb; exact hbfd
      | inr hlt' => exact Nat.lt_trans (hlt i j _ b (getElem?_eq_getElem hi) hb hlt') hbfd)
  unfold findRef at h
  simp only at h
  intro hm
  obtain ⟨k, hk⟩ := mem_iff_getElem?.mp hm
  have hklen : k < references.length := by
    have := (List.getElem?_eq_some_iff.mp hk).1
    rwa [refFds, length_map] at this
  generalize lowerBound (refBelow references fd) 0 references.length = first at h hle hlow hhigh
  have hnotlow : ¬ k < first := fun hlt' => by
    obtain ⟨a, ha, hafd⟩ := (hbelow k).mp (hlow k (Nat.zero_le k) hlt')
    rw [hk] at ha
    cases ha
    exact absurd hafd (lt_irrefl fd)
  -- the number found is neither below nor beyond `fd`
  have hfirst : k = first := by
    by_contra hne
    have hlt' : first < k := by omega
    have hflen : first < (refFds references).length := by
      rw [refFds, length_map]
      omega
    have hafd := hlt first k _ fd (getElem?_eq_getElem hflen) hk hlt'
    have := hhigh first le_rfl (by omega)
    simp [(hbelow first).mpr ⟨_, getElem?_eq_getElem hflen, hafd⟩] at this
  subst hfirst
  split_ifs at h with hany
  refine hany ?_
  rw [refFds, getElem?_map, Option.map_eq_some_iff] at hk
  obtain ⟨r, hr, hfd⟩ := hk
  rw [hr]
  exact decide_eq_true hfd

theorem names_iff {transaction : Transaction} (hs : (refFds transaction.references).Pairwise (· < ·)) :
    transaction.names fd = true ↔ fd ∈ refFds transaction.references := by
  unfold Transaction.names
  cases h : findRef transaction.references fd with
  | none => exact iff_of_false (by simp) (findRef_none hs h)
  | some index => exact iff_of_true rfl (mem_of_getElem? (findRef_some h))

theorem dropRepeats_spec {fds : List Nat} (last : Option Nat) (hs : fds.Pairwise (· ≤ ·))
    (hl : ∀ a ∈ last, ∀ b ∈ fds, a ≤ b) :
    (dropRepeats last fds).Pairwise (· < ·) ∧ (∀ a ∈ last, ∀ b ∈ dropRepeats last fds, a < b) ∧
      ∀ b ∈ dropRepeats last fds, b ∈ fds := by
  induction fds generalizing last with
  | nil => simp [dropRepeats]
  | cons fd fds ih =>
    obtain ⟨hfd, hs'⟩ := pairwise_cons.mp hs
    unfold dropRepeats
    by_cases e : last = some fd
    · rw [if_pos e]
      obtain ⟨h1, h2, h3⟩ := ih last hs' fun a ha b hb => hl a ha b (mem_cons_of_mem _ hb)
      exact ⟨h1, h2, fun b hb => mem_cons_of_mem _ (h3 b hb)⟩
    · rw [if_neg e]
      obtain ⟨h1, h2, h3⟩ := ih (some fd) hs' fun a ha b hb => Option.some.inj ha ▸ hfd b hb
      have hlt : ∀ b ∈ dropRepeats (some fd) fds, fd < b := h2 fd rfl
      refine ⟨pairwise_cons.mpr ⟨hlt, h1⟩, ?_, ?_⟩
      · intro a ha b hb
        have hafd : a < fd := by
          refine lt_of_le_of_ne (hl a ha fd mem_cons_self) ?_
          intro e'
          exact e (e' ▸ ha)
        cases mem_cons.mp hb with
        | inl e' => exact e' ▸ hafd
        | inr hb => exact Nat.lt_trans hafd (hlt b hb)
      · intro b hb
        cases mem_cons.mp hb with
        | inl e' => exact e' ▸ mem_cons_self
        | inr hb => exact mem_cons_of_mem _ (h3 b hb)

theorem sortedReferences_increasing (fds : List Nat) : (refFds (sortedReferences fds)).Pairwise (· < ·) := by
  have hsorted : (fds.insertionSort (· ≤ ·)).Pairwise (· ≤ ·) := pairwise_insertionSort (· ≤ ·) fds
  have h := (dropRepeats_spec none hsorted (by simp)).1
  simpa [refFds, sortedReferences, map_map, Function.comp_def] using h

theorem mem_insertReference {r : Ref} : r ∈ insertReference fd references ↔ r = ⟨fd, false⟩ ∨ r ∈ references := by
  induction references with
  | nil => simp [insertReference]
  | cons q references ih =>
    unfold insertReference
    by_cases h : q.fd < fd
    · rw [if_pos h, mem_cons, mem_cons, ih]
      exact or_left_comm
    · rw [if_neg h, mem_cons]

theorem mem_refFds {n : Nat} : n ∈ refFds references ↔ ∃ r ∈ references, r.fd = n := mem_map

theorem refFds_insertReference {n : Nat} :
    n ∈ refFds (insertReference fd references) ↔ n = fd ∨ n ∈ refFds references := by
  simp only [mem_refFds, mem_insertReference]
  grind

theorem insertReference_increasing (hs : (refFds references).Pairwise (· < ·)) (hnew : fd ∉ refFds references) :
    (refFds (insertReference fd references)).Pairwise (· < ·) := by
  induction references with
  | nil => simp [insertReference]
  | cons r references ih =>
    obtain ⟨hr, hs'⟩ := pairwise_cons.mp hs
    have hne : fd ≠ r.fd := fun e => hnew (by simp [e])
    unfold insertReference
    by_cases h : r.fd < fd
    · rw [if_pos h, refFds_cons, pairwise_cons]
      refine ⟨?_, ih hs' fun hm => hnew (mem_cons_of_mem _ hm)⟩
      intro n hn
      cases refFds_insertReference.mp hn with
      | inl e => exact e ▸ h
      | inr hn => exact hr n hn
    · rw [if_neg h, refFds_cons, pairwise_cons]
      refine ⟨?_, hs⟩
      intro n hn
      have hlt : fd < r.fd := by omega
      cases mem_cons.mp hn with
      | inl e => exact e ▸ hlt
      | inr hn => exact Nat.lt_trans hlt (hr n hn)

end

/-! ## The invariant -/

structure Transaction.Wf (transaction : Transaction) : Prop where
  increasing : (refFds transaction.references).Pairwise (· < ·)
  next_ge : 10 ≤ transaction.nextBackupFd

structure Saves (references : List Ref) (targets : List Nat) : Prop where
  nodup : targets.Nodup
  referenced : ∀ fd ∈ targets, fd ∈ refFds references
  saved : ∀ r ∈ references, r.saved = true ↔ r.fd ∈ targets

/-- The chain of transactions cuts the entries, given by their targets, into
one stretch for each. -/
def FramesWf : List Transaction → List Nat → Prop
  | [], targets => targets = []
  | transaction :: parents, targets =>
    transaction.entryStart ≤ targets.length ∧ transaction.Wf ∧
      Saves transaction.references (targets.drop transaction.entryStart) ∧
      FramesWf parents (targets.take transaction.entryStart)

def Entry.record (entry : Entry File) : Nat × Option (Desc File) := (entry.targetFd, entry.original)

def records (entries : List (Entry File)) : List (Nat × Option (Desc File)) := entries.map Entry.record

def targetFds (entries : List (Entry File)) : List Nat := (records entries).map Prod.fst

def backupFds (entries : List (Entry File)) : List Nat := entries.filterMap (·.savedFd)

def Held (fds : FdTable File) (entry : Entry File) : Prop :=
  match entry.savedFd with
  | none => entry.original = none
  | some savedFd => ∃ desc : Desc File, fds savedFd = some { desc with cloexec := true } ∧
      entry.original = some { desc with cloexec := entry.targetFlags }

structure Backed (fds : FdTable File) (frames : List Transaction) (entries : List (Entry File)) : Prop where
  nodup : (backupFds entries).Nodup
  apart : ∀ fd ∈ backupFds entries, ∀ transaction ∈ frames, fd ∉ refFds transaction.references
  held : ∀ entry ∈ entries, Held fds entry

structure Wf (s : State File) : Prop where
  capacity : s.entries.length ≤ s.entryCapacity
  addresses : (s.active.map (·.address)).Nodup
  frames : FramesWf s.active (targetFds s.entries)
  backed : Backed s.fds s.active s.entries

def visible (fds : FdTable File) (entries : List (Entry File)) : FdTable File :=
  fun fd => if fd ∈ backupFds entries then none else fds fd

variable {entries : List (Entry File)} {targets : List Nat} {savedFd : Nat}

theorem mem_backupFds {fd : Nat} : fd ∈ backupFds entries ↔ ∃ entry ∈ entries, entry.savedFd = some fd := mem_filterMap

theorem mem_backupFds_cons {entry : Entry File} {fd : Nat} :
    fd ∈ backupFds (entry :: entries) ↔ entry.savedFd = some fd ∨ fd ∈ backupFds entries := by
  simp only [mem_backupFds, mem_cons, exists_eq_or_imp]

theorem backupFds_append (l l' : List (Entry File)) : backupFds (l ++ l') = backupFds l ++ backupFds l' :=
  filterMap_append

theorem FramesWf.transaction_wf {frames : List Transaction} (h : FramesWf frames targets) :
    ∀ transaction ∈ frames, transaction.Wf := by
  induction frames generalizing targets with
  | nil => simp
  | cons transaction parents ih =>
    intro t ht
    cases mem_cons.mp ht with
    | inl e => exact e ▸ h.2.1
    | inr ht => exact ih h.2.2.2 t ht

theorem FramesWf.target_named {frames : List Transaction} (h : FramesWf frames targets) :
    ∀ fd ∈ targets, ∃ transaction ∈ frames, fd ∈ refFds transaction.references := by
  induction frames generalizing targets with
  | nil =>
    intro fd hfd
    rw [show targets = [] from h] at hfd
    cases hfd
  | cons transaction parents ih =>
    intro fd hfd
    rw [← take_append_drop transaction.entryStart targets] at hfd
    cases mem_append.mp hfd with
    | inl hfd =>
      obtain ⟨t, ht, hr⟩ := ih h.2.2.2 fd hfd
      exact ⟨t, mem_cons_of_mem _ ht, hr⟩
    | inr hfd => exact ⟨transaction, mem_cons_self, h.2.2.1.referenced fd hfd⟩

theorem Held.open {fds : FdTable File} {entry : Entry File} (h : Held fds entry)
    (hs : entry.savedFd = some savedFd) : ∃ desc : Desc File, fds savedFd = some { desc with cloexec := true } ∧
      entry.original = some { desc with cloexec := entry.targetFlags } := by
  unfold Held at h
  rw [hs] at h
  exact h

theorem Held.congr {fds fds' : FdTable File} {entry : Entry File} (h : Held fds entry)
    (heq : ∀ fd, entry.savedFd = some fd → fds' fd = fds fd) : Held fds' entry := by
  unfold Held at h ⊢
  cases hs : entry.savedFd with
  | none => rw [hs] at h; exact h
  | some savedFd => rw [hs] at h; simp only [heq savedFd hs]; exact h

theorem Backed.open {fds : FdTable File} {frames : List Transaction}
    (h : Backed fds frames entries) {fd : Nat} (hfd : fd ∈ backupFds entries) : fds fd ≠ none := by
  obtain ⟨entry, he, hs⟩ := mem_backupFds.mp hfd
  obtain ⟨desc, hd, _⟩ := (h.held entry he).open hs
  rw [hd]
  simp

theorem Backed.congr {fds fds' : FdTable File} {frames : List Transaction}
    (h : Backed fds frames entries) (heq : ∀ fd ∈ backupFds entries, fds' fd = fds fd) : Backed fds' frames entries :=
  ⟨h.nodup, h.apart, fun entry he => (h.held entry he).congr fun fd hs => heq fd (mem_backupFds.mpr ⟨entry, he, hs⟩)⟩

theorem Backed.frames_subset {fds : FdTable File} {frames frames' : List Transaction} (h : Backed fds frames entries)
    (hsub : ∀ t ∈ frames', ∀ fd ∈ refFds t.references, ∃ t' ∈ frames, fd ∈ refFds t'.references) :
    Backed fds frames' entries := by
  refine ⟨h.nodup, ?_, h.held⟩
  intro fd hfd t ht hr
  obtain ⟨t', ht', hr'⟩ := hsub t ht fd hr
  exact h.apart fd hfd t' ht' hr'

theorem Backed.cons {fds : FdTable File} {frames : List Transaction} {entries : List (Entry File)}
    {transaction : Transaction} (h : Backed fds frames entries)
    (hapart : ∀ fd ∈ backupFds entries, fd ∉ refFds transaction.references) :
    Backed fds (transaction :: frames) entries := by
  refine ⟨h.nodup, ?_, h.held⟩
  intro fd hfd t ht
  cases mem_cons.mp ht with
  | inl e => exact e ▸ hapart fd hfd
  | inr ht => exact h.apart fd hfd t ht

theorem Backed.take {fds : FdTable File} {frames : List Transaction} {entries entries' : List (Entry File)}
    (h : Backed fds frames (entries ++ entries')) : Backed fds frames entries ∧
      ∀ fd ∈ backupFds entries, fd ∉ backupFds entries' := by
  obtain ⟨hnodup, happ, hheld⟩ := h
  rw [backupFds_append] at hnodup happ
  obtain ⟨hn, _, hdis⟩ := nodup_append.mp hnodup
  refine ⟨⟨hn, ?_, ?_⟩, ?_⟩
  · exact fun fd hfd => happ fd (mem_append_left _ hfd)
  · exact fun entry he => hheld entry (mem_append_left _ he)
  · exact fun fd hfd hfd' => hdis fd hfd fd hfd' rfl

theorem Backed.snoc {fds fds' : FdTable File} {frames : List Transaction} {entries : List (Entry File)} {entry : Entry File}
    (h : Backed fds frames entries) (heq : ∀ fd ∈ backupFds entries, fds' fd = fds fd) (hheld : Held fds' entry)
    (hnew : ∀ fd, entry.savedFd = some fd → fds fd = none ∧ ∀ t ∈ frames, fd ∉ refFds t.references) :
    Backed fds' frames (entries ++ [entry]) := by
  have hlast : ∀ fd, fd ∈ backupFds [entry] ↔ entry.savedFd = some fd := by simp [mem_backupFds]
  have h' := h.congr heq
  refine ⟨?_, ?_, ?_⟩
  · rw [backupFds_append, nodup_append]
    refine ⟨h.nodup, ?_, ?_⟩
    · unfold backupFds
      cases hs : entry.savedFd <;> simp [hs]
    · intro a ha b hb e
      exact h.open ha (e ▸ (hnew b ((hlast b).mp hb)).1)
  · intro fd hfd
    rw [backupFds_append, mem_append, hlast] at hfd
    cases hfd with
    | inl hfd => exact h.apart fd hfd
    | inr hs => exact (hnew fd hs).2
  · intro e he
    cases mem_append.mp he with
    | inl he => exact h'.held e he
    | inr he => exact mem_singleton.mp he ▸ hheld

/-- A private duplicate is a free number no transaction names; a failure leaves
the descriptors as they were. -/
def Duplicated (frames : List Transaction) (sourceFd : Nat) (fds : FdTable File) (r : DupPrivate File) : Prop :=
  match r.result with
  | .error _ => r.fds = fds
  | .ok fd => fds fd = none ∧ (∀ frame ∈ frames, frame.names fd = false) ∧
      ∃ desc, fds sourceFd = some desc ∧ r.fds = fds.set fd (some { desc with cloexec := true })

variable (faults : Faults)

theorem dupPrivate_spec (frames : List Transaction) (sourceFd nextBackupFd : Nat)
    (fds : FdTable File) : Duplicated frames sourceFd fds (dupPrivate faults frames sourceFd nextBackupFd fds) ∧
      (10 ≤ nextBackupFd → 10 ≤ (dupPrivate faults frames sourceFd nextBackupFd fds).nextBackupFd) := by
  fun_induction dupPrivate faults frames sourceFd nextBackupFd fds with
  | case1 next fds hf => exact ⟨rfl, id⟩
  | case2 next fds hf hdup => exact ⟨rfl, id⟩
  | case3 next fds hf fds' hdup collision hc =>
    obtain ⟨hfree, _, _, hdesc⟩ := FdTable.dupMin_some hdup
    refine ⟨⟨hfree, ?_, hdesc⟩, fun _ => (by decide : 10 ≤ intMax)⟩
    simpa [collision] using hc
  | case4 next fds hf fds' hdup collision hc =>
    obtain ⟨hfree, _, _, desc, _, rfl⟩ := FdTable.dupMin_some hdup
    exact ⟨FdTable.close_set hfree _, fun _ => (by decide : 10 ≤ intMax)⟩
  | case5 next fds hf duplicate fds' hdup collision hmax hc =>
    obtain ⟨hfree, hle, _, hdesc⟩ := FdTable.dupMin_some hdup
    refine ⟨⟨hfree, ?_, hdesc⟩, fun h => h.trans (hle.trans (Nat.le_succ _))⟩
    simpa [collision] using hc
  | case6 next fds hf duplicate fds' hdup collision hmax hc ih =>
    -- the number is closed again, and lies below the next minimum
    obtain ⟨hfree, hle, _, desc, _, rfl⟩ := FdTable.dupMin_some hdup
    rw [FdTable.close_set hfree] at ih ⊢
    exact ⟨ih.1, fun h => ih.2 (h.trans (hle.trans (Nat.le_succ _)))⟩

/-! ## Moving backups -/

section
variable {frames : List Transaction} {fds : FdTable File} {before after : List (Entry File)} {entry : Entry File}

theorem backupFds_middle (hs : entry.savedFd = some savedFd) :
    backupFds (before ++ entry :: after) = backupFds before ++ savedFd :: backupFds after := by
  rw [backupFds_append, backupFds, backupFds, filterMap_cons_some hs]
  rfl

variable {oldFd newFd : Nat} {desc : Desc File}

section
variable (h : Backed fds frames (before ++ entry :: after)) (hs : entry.savedFd = some oldFd)
  (hfree : fds newFd = none)
include h hs hfree

theorem Backed.move (hapart : ∀ transaction ∈ frames, newFd ∉ refFds transaction.references)
    (hdesc : fds oldFd = some desc) : Backed ((fds.set newFd (some { desc with cloexec := true })).close oldFd) frames
      (before ++ { entry with savedFd := some newFd } :: after) := by
  have hopen : ∀ fd ∈ backupFds (before ++ entry :: after), fd ≠ newFd := fun fd hfd e => h.open hfd (e ▸ hfree)
  have hnodup := h.nodup
  have happ := h.apart
  rw [backupFds_middle hs] at hnodup happ hopen
  rw [nodup_middle, nodup_cons, mem_append] at hnodup
  have hne : oldFd ≠ newFd := hopen oldFd (by simp)
  refine ⟨?_, ?_, ?_⟩
  · rw [backupFds_middle rfl, nodup_middle, nodup_cons]
    refine ⟨fun hm => ?_, hnodup.2⟩
    exact hopen newFd (perm_middle.mem_iff.mpr (mem_cons_of_mem _ hm)) rfl
  · intro fd hfd
    rw [backupFds_middle rfl, perm_middle.mem_iff, mem_cons] at hfd
    cases hfd with
    | inl e => subst e; exact hapart
    | inr hm => exact happ fd (perm_middle.mem_iff.mpr (mem_cons_of_mem _ hm))
  · intro e he
    rw [perm_middle.mem_iff, mem_cons] at he
    cases he with
    | inl heq =>
      subst heq
      obtain ⟨desc', hd, horig⟩ := (h.held entry (by simp)).open hs
      rw [hdesc] at hd
      cases hd
      exact ⟨_, (FdTable.close_of_ne hne.symm).trans (FdTable.set_self ..), horig⟩
    | inr hm =>
      refine (h.held e (perm_middle.mem_iff.mpr (mem_cons_of_mem _ hm))).congr ?_
      intro fd hfd
      have hfd' : fd ∈ backupFds before ++ backupFds after := by
        rw [← backupFds_append]
        exact mem_backupFds.mpr ⟨e, hm, hfd⟩
      have hneOld : fd ≠ oldFd := fun e' => hnodup.1 (mem_append.mp (e' ▸ hfd'))
      have hneNew : fd ≠ newFd := hopen fd (perm_middle.mem_iff.mpr (mem_cons_of_mem _ hfd'))
      rw [FdTable.close_of_ne hneOld, FdTable.set_of_ne hneNew]

theorem Backed.move_visible (desc : Desc File) : visible ((fds.set newFd (some { desc with cloexec := true })).close oldFd)
      (before ++ { entry with savedFd := some newFd } :: after) = visible fds (before ++ entry :: after) := by
  have hopen : ∀ fd ∈ backupFds (before ++ entry :: after), fd ≠ newFd := fun fd hfd e => h.open hfd (e ▸ hfree)
  funext fd
  unfold visible
  have hold : fd ∈ backupFds (before ++ entry :: after) ↔ fd = oldFd ∨ fd ∈ backupFds before ++ backupFds after := by
    rw [backupFds_middle hs, perm_middle.mem_iff, mem_cons]
  have hnew : fd ∈ backupFds (before ++ { entry with savedFd := some newFd } :: after) ↔
      fd = newFd ∨ fd ∈ backupFds before ++ backupFds after := by
    rw [backupFds_middle rfl, perm_middle.mem_iff, mem_cons]
  by_cases hm : fd ∈ backupFds before ++ backupFds after
  · rw [if_pos (hnew.mpr (Or.inr hm)), if_pos (hold.mpr (Or.inr hm))]
  by_cases h1 : fd = newFd
  · subst h1
    rw [if_pos (hnew.mpr (Or.inl rfl)), if_neg fun hf => hopen fd hf rfl, hfree]
  by_cases h2 : fd = oldFd
  · subst h2
    rw [if_pos (hold.mpr (Or.inl rfl)), if_neg fun hf => (hnew.mp hf).elim h1 hm, FdTable.close_self]
  · rw [if_neg fun hf => (hnew.mp hf).elim h1 hm, if_neg fun hf => (hold.mp hf).elim h2 hm, FdTable.close_of_ne h2,
      FdTable.set_of_ne h1]

end

/-- What relocation keeps: the backups, the user's view, and which target and
original each entry is for; on success nothing is left in the way. -/
structure Relocated (frames : List Transaction) (inTheWay : Nat → Bool) (before entries : List (Entry File))
    (fds : FdTable File) (r : Relocate File) : Prop where
  backed : Backed r.fds frames (before ++ r.entries)
  visible_eq : visible r.fds (before ++ r.entries) = visible fds (before ++ entries)
  records_eq : records r.entries = records entries
  clear : r.error = none → ∀ fd ∈ backupFds r.entries, inTheWay fd = false

theorem Relocated.cons {inTheWay : Nat → Bool} {entries : List (Entry File)} {fds' : FdTable File} {entry' : Entry File}
    {r : Relocate File} (hr : Relocated frames inTheWay (before ++ [entry']) entries fds' r)
    (hview : visible fds' (before ++ entry' :: entries) = visible fds (before ++ entry :: entries))
    (hrecord : entry'.record = entry.record) (hclear : ∀ fd, entry'.savedFd = some fd → inTheWay fd = false) :
    Relocated frames inTheWay before (entry :: entries) fds { r with entries := entry' :: r.entries } := by
  refine ⟨?_, ?_, ?_, ?_⟩
  · rw [append_cons]
    exact hr.backed
  · show visible r.fds (before ++ entry' :: r.entries) = _
    rw [← hview, append_cons before entry' r.entries, append_cons before entry' entries]
    exact hr.visible_eq
  · show entry'.record :: records r.entries = entry.record :: records entries
    rw [hrecord, hr.records_eq]
  · intro he fd hfd
    cases mem_backupFds_cons.mp hfd with
    | inl hs => exact hclear fd hs
    | inr hfd => exact hr.clear he fd hfd

theorem relocate_spec {namers : List Transaction} {inTheWay : Nat → Bool} {onlyFirst : Bool}
    (hnamers : ∀ fd, (∀ t ∈ namers, t.names fd = false) →
      inTheWay fd = false ∧ ∀ t ∈ frames, fd ∉ refFds t.references)
    (honly : onlyFirst = true → ∀ a b, inTheWay a = true → inTheWay b = true → a = b) (entries : List (Entry File))
    (next : Nat) (h : Backed fds frames (before ++ entries)) :
    Relocated frames inTheWay before entries fds (relocate faults namers inTheWay onlyFirst entries next fds) := by
  induction entries generalizing before next fds with
  | nil => exact ⟨h, rfl, rfl, fun _ fd hfd => nomatch hfd⟩
  | cons entry entries ih =>
    unfold relocate
    cases hw : entry.savedFd.filter inTheWay with
    | none =>
      refine (ih next ?_).cons rfl rfl fun fd hs => ?_
      · rw [← append_cons]
        exact h
      · simpa [hs] using hw
    | some savedFd =>
      rw [Option.filter_eq_some_iff] at hw
      obtain ⟨hs, hway⟩ := hw
      obtain ⟨hdup, _⟩ := dupPrivate_spec faults namers savedFd next fds
      unfold Duplicated at hdup
      simp only
      cases hres : (dupPrivate faults namers savedFd next fds).result with
      | error error =>
        rw [hres] at hdup
        simp only
        rw [show (dupPrivate faults namers savedFd next fds).fds = fds from hdup]
        exact ⟨h, rfl, rfl, nofun⟩
      | ok fd =>
        rw [hres] at hdup
        obtain ⟨hfree, hnamed, desc, hdesc, hfds⟩ := hdup
        obtain ⟨hclear, hapart⟩ := hnamers fd hnamed
        simp only [hfds]
        have hmove := h.move hs hfree hapart hdesc
        have hview := h.move_visible hs hfree desc
        by_cases hone : onlyFirst = true
        · rw [if_pos hone]
          refine ⟨hmove, hview, rfl, ?_⟩
          intro _ n hn
          cases mem_backupFds_cons.mp hn with
          | inl e => cases e; exact hclear
          | inr hn =>
            -- the number moved away was the only one in the way
            by_contra hne
            have e : n = savedFd := honly hone n savedFd (by simpa using hne) hway
            have hnodup := h.nodup
            rw [backupFds_middle hs] at hnodup
            exact (nodup_cons.mp (nodup_append.mp hnodup).2.1).1 (e ▸ hn)
        · rw [if_neg hone]
          refine (ih _ ?_).cons hview rfl fun n hn => ?_
          · rw [← append_cons]
            exact hmove
          · cases hn
            exact hclear

theorem relocate_next_ge (namers : List Transaction) (inTheWay : Nat → Bool) (onlyFirst : Bool)
    (entries : List (Entry File)) (next : Nat) (fds : FdTable File) (h : 10 ≤ next) :
    10 ≤ (relocate faults namers inTheWay onlyFirst entries next fds).nextBackupFd := by
  induction entries generalizing next fds with
  | nil => exact h
  | cons entry entries ih =>
    unfold relocate
    cases entry.savedFd.filter inTheWay with
    | none => exact ih next fds h
    | some savedFd =>
      have hnext := (dupPrivate_spec faults namers savedFd next fds).2 h
      simp only
      cases (dupPrivate faults namers savedFd next fds).result with
      | error error => exact hnext
      | ok fd =>
        simp only
        by_cases hone : onlyFirst = true
        · rw [if_pos hone]
          exact hnext
        · rw [if_neg hone]
          exact ih _ _ hnext

end

end Bx.FdTransaction
