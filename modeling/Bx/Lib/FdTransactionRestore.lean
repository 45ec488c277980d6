import Bx.Lib.FdTransactionSound

/-!
# Transactions restore exactly

The stack refines nested savepoints on the descriptors the user sees, as long as he changes only what the active
transaction has saved.
-/

namespace Bx.FdTransaction

open Bx.Kit

variable {File : Type*} {s t : State File} {transaction : Transaction} {parents : List Transaction}

def SavedOnly (s : State File) : Action File → Prop
  | .user fd _ => ∀ transaction ∈ s.active.head?, transaction.hasSaved fd = true
  | _ => True

instance (s : State File) (a : Action File) : Decidable (SavedOnly s a) :=
  match a with
  | .user fd _ => inferInstanceAs (Decidable (∀ transaction ∈ s.active.head?, transaction.hasSaved fd = true))
  | .beginTransaction .. | .addReference .. | .save .. | .rollback .. | .commit _ | .discard => instDecidableTrue

def restricted (File : Type*) : System (State File) (Action File) := (system File).guarded SavedOnly

def ownEntries (s : State File) : List (Entry File) :=
  match s.active with
  | [] => []
  | transaction :: _ => s.entries.drop transaction.entryStart

def isOpen (address : Nat) (s : State File) : Prop := address ∈ s.active.map (·.address)

/-! ## Refinement -/

def event (s : State File) : Action File → Savepoints.Event Nat Nat
  | .beginTransaction faults address descriptorReferences =>
    if (beginTransaction faults s address descriptorReferences).2 = none then .enter address else .stay
  | .addReference _ _ _ => .stay
  | .save faults address targetFd =>
    if (save faults s address targetFd).2 = none then
      if s.active.head?.any (·.hasSaved targetFd.toNat) then .stay else .keep targetFd.toNat
    else .stay
  | .rollback faults address =>
    if (rollback faults s address).2 = none then .rollback else if isActive s address then .fail else .stay
  | .commit address => if (commit s address).2 = none then .commit else .stay
  | .discard => .clear
  | .user fd _ => .write fd

variable {fd : Nat} {as : List (Action File)} {v : Option (Desc File)}

theorem Wf.hasSaved (h : Wf s) (hactive : s.active = transaction :: parents) :
    transaction.hasSaved fd = true ↔ fd ∈ targetFds (s.entries.drop transaction.entryStart) := by
  have hframes := h.frames
  rw [hactive] at hframes
  rw [targetFds_drop]
  exact hframes.2.2.1.hasSaved

theorem refines (h : Wf s) {a : Action File} (hstep : (restricted File).step s a t) : Simulates s (event s a) t := by
  obtain ⟨hsaved, hpermitted, rfl⟩ := hstep
  cases a with
  | beginTransaction faults address descriptorReferences => exact beginTransaction_performs faults h _ _
  | addReference faults address fd =>
    have hadd := addReference_performs faults h address fd
    rw [Performs, ite_self] at hadd
    exact hadd
  | save faults address targetFd => exact save_performs faults h _ _
  | rollback faults address => exact rollback_performs faults h _
  | commit address => exact commit_performs h _
  | discard => exact discard_simulates s
  | user fd desc =>
    have hfd : ∀ t ∈ s.active.head?, fd ∈ refFds t.references := fun t ht => by
      obtain ⟨r, hr, hfd⟩ := hpermitted t ht
      exact mem_refFds.mpr ⟨r, hr, hfd⟩
    obtain ⟨hwf, hsame⟩ := h.user hfd desc
    refine ⟨hwf, .write ?_ hsame⟩
    intro f hf
    cases hactive : s.active with
    | nil =>
      rw [savepoints, hactive] at hf
      cases hf
    | cons transaction parents =>
      rw [savepoints_cons hactive] at hf
      cases hf
      rw [keys_records]
      exact (h.hasSaved hactive).mp (hsaved transaction (by simp [hactive]))

theorem reachable_restricted (h : Reachable (restricted File) s) : Wf s := reachable_wf h.of_guarded

theorem saved_of_run {address : Nat} (hrun : Run ((restricted File).within (isOpen address)) s as t) (hwf : Wf s)
    (hsaved : (savepoints s).Saved address fd v) : Wf t ∧ (savepoints t).Saved address fd v := by
  apply hrun.invariant (I := fun s => Wf s ∧ (savepoints s).Saved address fd v) ⟨hwf, hsaved⟩
  intro s a t ⟨hwf, hsaved⟩ ⟨hstep, hopen⟩
  have href := refines hwf hstep
  refine ⟨href.wf, href.step.saved ?_ hsaved ?_⟩
  · rw [names_savepoints]
    exact hwf.addresses
  · rw [names_savepoints]
    exact hopen

def NotSaved (fd : Nat) (s : State File) : Prop := ∃ transaction ∈ s.active.head?, transaction.hasSaved fd = false

theorem visible_of_run (hrun : Run ((restricted File).guarded fun s _ => NotSaved fd s) s as t) (hwf : Wf s) :
    visible t.fds t.entries fd = visible s.fds s.entries fd := by
  have hkeep := hrun.invariant (I := fun t => Wf t ∧ visible t.fds t.entries fd = visible s.fds s.entries fd) ⟨hwf, rfl⟩ ?_
  · exact hkeep.2
  intro u a u' ⟨hu, hview⟩ ⟨⟨T, hT, hnot⟩, hstep⟩
  have href := refines hu hstep
  refine ⟨href.wf, (href.step.view_eq ?_).trans hview⟩
  cases hactive : u.active with
  | nil =>
    rw [hactive] at hT
    cases hT
  | cons transaction parents =>
    rw [hactive] at hT
    cases hT
    refine ⟨_, by rw [savepoints_cons hactive]; rfl, ?_⟩
    rw [keys_records, ← hu.hasSaved hactive, hnot]
    exact Bool.false_ne_true

/-! ## The end of a transaction -/

theorem active_of_ok {rejected : Transaction → Prop} [DecidablePred rejected]
    {run : Transaction → List Transaction → Result File} (h : (match s.active with
      | [] => (s, some .einval)
      | transaction :: parents => if rejected transaction then (s, some .einval) else run transaction parents) = (t, none)) :
    ∃ transaction parents, s.active = transaction :: parents ∧ ¬ rejected transaction ∧
      run transaction parents = (t, none) := by
  cases hactive : s.active with
  | nil => rw [hactive] at h; cases h
  | cons transaction parents =>
    rw [hactive] at h
    simp only at h
    by_cases hrejected : rejected transaction
    · simp [hrejected] at h
    · rw [if_neg hrejected] at h
      exact ⟨transaction, parents, rfl, hrejected, h⟩

variable {faults : Faults} {address : Nat} {targetFd : Int}

theorem rollback_ok (h : rollback faults s address = (t, none)) :
    ∃ transaction parents, s.active = transaction :: parents ∧ transaction.address = address ∧
      (restoreAll faults (s.entries.drop transaction.entryStart).reverse s.fds).2 = none ∧
      t = finish s transaction parents
        (restoreAll faults (s.entries.drop transaction.entryStart).reverse s.fds).1 := by
  obtain ⟨transaction, parents, hactive, haddress, hrun⟩ := active_of_ok h
  obtain ⟨ht, he⟩ := Prod.mk.inj hrun
  exact ⟨transaction, parents, hactive, not_not.mp haddress, he, ht.symm⟩

theorem commit_ok (h : commit s address = (t, none)) : ∃ transaction parents, s.active = transaction :: parents ∧
      t = finish s transaction parents (closeBackups (s.entries.drop transaction.entryStart) s.fds) := by
  obtain ⟨transaction, parents, hactive, _, hrun⟩ := active_of_ok h
  exact ⟨transaction, parents, hactive, (Prod.mk.inj hrun).1.symm⟩

theorem ownEntries_eq (hactive : s.active = transaction :: parents) :
    ownEntries s = s.entries.drop transaction.entryStart := by
  rw [ownEntries, hactive]

theorem mem_of_mem_logs {frames : List Transaction} {rs log : List (Nat × Option (Desc File))} {k : Nat}
    (h : (k, log) ∈ logs frames rs) : ∀ p ∈ log, p ∈ rs := by
  induction frames generalizing rs with
  | nil => cases h
  | cons transaction parents ih =>
    intro p hp
    cases List.mem_cons.mp h with
    | inl e => cases e; exact List.mem_of_mem_drop hp
    | inr h => exact List.mem_of_mem_take (ih h p hp)

theorem Wf.rollback_target (h : Wf s)
    (ht : rollback faults s address = (t, none)) (hsaved : (savepoints s).Saved address fd v) : t.fds fd = v := by
  obtain ⟨transaction, parents, hactive, haddress, _, hfinish⟩ := rollback_ok ht
  have hperform := rollback_performs faults h address
  rw [ht] at hperform
  obtain ⟨hwf, hstep⟩ := (show Simulates s .rollback t from hperform)
  have haddresses := h.addresses
  rw [hactive] at haddresses
  have hleft : address ∉ (savepoints t).names := by
    rw [names_savepoints, hfinish, ← haddress]
    exact (List.nodup_cons.mp haddresses).1
  have hview := hstep.rollback_saved hsaved hleft
  -- the number is a target, so no backup that stays has it
  have htarget : fd ∈ targetFds s.entries := by
    obtain ⟨log, hlog, hv⟩ := hsaved
    exact List.mem_map_of_mem (mem_of_mem_logs hlog _ hv)
  have hbackup : fd ∉ backupFds t.entries := by
    intro hm
    rw [hfinish] at hm
    exact h.backup_not_target ((mem_backupFds_split transaction.entryStart).mpr (Or.inl hm)) htarget
  rw [← hview]
  exact (if_neg hbackup).symm

theorem save_ok (h : save faults s address targetFd = (t, none)) :
    ∃ transaction parents, s.active = transaction :: parents ∧ transaction.address = address ∧
      targetFd.toNat ∈ refFds transaction.references := by
  obtain ⟨transaction, parents, hactive, haddress, hrun⟩ := active_of_ok h
  refine ⟨transaction, parents, hactive, not_not.mp (not_or.mp haddress).1, ?_⟩
  cases hindex : findRef transaction.references targetFd.toNat with
  | none => rw [hindex] at hrun; cases hrun
  | some index => exact List.mem_of_getElem? (findRef_some hindex)

theorem Wf.save_saved (h : Wf s) (hfirst : s.active.head?.any (·.hasSaved targetFd.toNat) = false)
    (hs : save faults s address targetFd = (t, none)) :
    Wf t ∧ (savepoints t).Saved address targetFd.toNat (s.fds targetFd.toNat) := by
  have hperform := save_performs faults h address targetFd
  rw [hfirst, hs] at hperform
  obtain ⟨hwf, hstep⟩ := (show Simulates s (.keep targetFd.toNat) t from hperform)
  refine ⟨hwf, ?_⟩
  obtain ⟨transaction, parents, hactive, haddress, href⟩ := save_ok hs
  obtain ⟨f, hf, hsaved⟩ := hstep.keep_saved
  rw [savepoints_cons hactive] at hf
  cases hf
  rw [← haddress, ← h.visible_eq (by simp [hactive]) href]
  exact hsaved

/-- The transaction 2 saves the number as its parent left it; then the user closes it. -/
def nestedSave : State Nat := (save .none nestedStart 2 0).1

def nestedClose : State Nat := perform nestedSave (.user 0 none)

theorem restricted_perform (h : Reachable (restricted File) s) (a : Action File) (hsaved : SavedOnly s a)
    (ha : Permitted s a) : Reachable (restricted File) (perform s a) := h.step ⟨hsaved, ha, rfl⟩

theorem nestedStart_restricted : Reachable (restricted Nat) nestedStart := by
  have h0 : Reachable (restricted Nat) freshProcess := .init ⟨rfl, rfl, rfl⟩
  have h1 := restricted_perform h0 (.beginTransaction .none 1 [0]) trivial trivial
  have h2 := restricted_perform h1 (.save .none 1 0) trivial trivial
  have h3 := restricted_perform h2 (.user 0 (some ⟨8, true⟩)) (by decide +kernel) (by decide +kernel)
  exact restricted_perform h3 (.beginTransaction .none 2 [10, 0]) trivial trivial

theorem nestedClose_step : (restricted Nat).step nestedSave (.user 0 none) nestedClose :=
  ⟨by decide +kernel, by decide +kernel, rfl⟩

end Bx.FdTransaction
