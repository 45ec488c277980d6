import Bx.Kit.Savepoints
import Bx.Lib.FdTransactionLemmas

/-!
# The invariant of the transaction stack

Every operation keeps `Wf`, whatever fails, and `stackInvariants` says no more than `Wf` does. To the user an operation
is one step of nested savepoints on the descriptors he sees.
-/

namespace Bx.FdTransaction

open Bx.Kit List

variable {File : Type*} {s : State File}

/-! ## Saves -/

section
variable {references : List Ref} {targets : List Nat} {fd : Nat}

theorem Saves.insertReference (h : Saves references targets) (hnew : fd ∉ refFds references) :
    Saves (insertReference fd references) targets := by
  refine ⟨h.nodup, ?_, ?_⟩
  · exact fun n hn => refFds_insertReference.mpr (Or.inr (h.referenced n hn))
  · intro r hr
    cases mem_insertReference.mp hr with
    | inl e =>
      subst e
      exact iff_of_false (by simp) fun hm => hnew (h.referenced fd hm)
    | inr hr => exact h.saved r hr

theorem refFds_modify (references : List Ref) (index : Nat) :
    refFds (references.modify index fun r => { r with saved := true }) = refFds references := by
  apply ext_getElem?
  intro i
  simp only [refFds, getElem?_map, getElem?_modify]
  cases references[i]? with
  | none => rfl
  | some r => by_cases hi : index = i <;> simp [hi]

theorem Saves.modify {index : Nat} {r : Ref} (h : Saves references targets)
    (hs : (refFds references).Pairwise (· < ·)) (hr : references[index]? = some r) (hsaved : r.saved = false) :
    Saves (references.modify index fun r => { r with saved := true }) (targets ++ [r.fd]) := by
  have hnew : r.fd ∉ targets := fun hm => by
    have := (h.saved r (mem_of_getElem? hr)).mpr hm
    simp [hsaved] at this
  refine ⟨?_, ?_, ?_⟩
  · exact nodup_append.mpr ⟨h.nodup, by simp, fun n hn m hm e => hnew (mem_singleton.mp hm ▸ e ▸ hn)⟩
  · intro n hn
    rw [refFds_modify]
    cases mem_append.mp hn with
    | inl hn => exact h.referenced n hn
    | inr hn => exact mem_refFds.mpr ⟨r, mem_of_getElem? hr, (mem_singleton.mp hn).symm⟩
  · intro q hq
    obtain ⟨i, hi⟩ := mem_iff_getElem?.mp hq
    rw [getElem?_modify] at hi
    by_cases hii : index = i
    · subst hii
      rw [hr, Option.map_eq_map, Option.map_some, if_pos rfl] at hi
      cases hi
      exact iff_of_true rfl (by simp)
    · -- references in increasing order have different numbers
      cases hqi : references[i]? with
      | none => rw [hqi] at hi; cases hi
      | some p =>
        rw [hqi, Option.map_eq_map, Option.map_some, if_neg hii] at hi
        cases hi
        have hne : q.fd ≠ r.fd := by
          intro e
          have hnodup : (refFds references).Nodup := hs.imp ne_of_lt
          have h1 : (refFds references)[i]? = some r.fd := by rw [refFds, getElem?_map, hqi, ← e]; rfl
          have h2 : (refFds references)[index]? = some r.fd := by rw [refFds, getElem?_map, hr]; rfl
          obtain ⟨hl, _⟩ := List.getElem?_eq_some_iff.mp h1
          exact hii ((getElem?_inj hl hnodup).mp (h1.trans h2.symm)).symm
        show q.saved = true ↔ _
        rw [h.saved q (mem_of_getElem? hqi), mem_append, mem_singleton, or_iff_left hne]

end

/-! ## Savepoints -/

def logs : List Transaction → List (Nat × Option (Desc File)) → List (Nat × List (Nat × Option (Desc File)))
  | [], _ => []
  | transaction :: parents, rs =>
    (transaction.address, rs.drop transaction.entryStart) :: logs parents (rs.take transaction.entryStart)

def savepoints (s : State File) : Savepoints Nat Nat (Option (Desc File)) :=
  ⟨visible s.fds s.entries, logs s.active (records s.entries)⟩

theorem names_savepoints (s : State File) : (savepoints s).names = s.active.map (·.address) := by
  unfold savepoints Savepoints.names
  simp only
  generalize records s.entries = rs
  induction s.active generalizing rs with
  | nil => rfl
  | cons t parents ih => exact congrArg (t.address :: ·) (ih _)

structure Simulates (s : State File) (event : Savepoints.Event Nat Nat) (t : State File) : Prop where
  wf : Wf t
  step : Savepoints.Step (savepoints s) event (savepoints t)

def Performs (s : State File) (done failed : Savepoints.Event Nat Nat) (r : Result File) : Prop :=
  Simulates s (if r.2 = none then done else failed) r.1

variable {t : State File}

theorem Performs.error {failed : Savepoints.Event Nat Nat} (h : Simulates s failed t)
    (done : Savepoints.Event Nat Nat) (errno : Errno) : Performs s done failed (t, some errno) := h

theorem Performs.none {done : Savepoints.Event Nat Nat} (h : Simulates s done t)
    (failed : Savepoints.Event Nat Nat) : Performs s done failed (t, none) := h

theorem Wf.rejected (h : Wf s) (done : Savepoints.Event Nat Nat) (errno : Errno) : Performs s done .stay (s, some errno) :=
  ⟨h, .stay⟩

theorem Wf.unchanged (h : Wf s) (failed : Savepoints.Event Nat Nat) : Performs s .stay failed (s, none) := ⟨h, .stay⟩

variable {transaction : Transaction} {parents : List Transaction}

variable {fd : Nat}

theorem Wf.visible_eq (h : Wf s) (ht : transaction ∈ s.active) (hfd : fd ∈ refFds transaction.references) :
    visible s.fds s.entries fd = s.fds fd := if_neg fun hm => h.backed.apart fd hm transaction ht hfd

theorem Wf.relocated (h : Wf s) {inTheWay : Nat → Bool} {r : Relocate File}
    (hr : Relocated s.active inTheWay [] s.entries s.fds r) : Wf { s with fds := r.fds, entries := r.entries } ∧
      savepoints { s with fds := r.fds, entries := r.entries } = savepoints s := by
  have hlen : r.entries.length = s.entries.length := by
    simpa [records] using congrArg List.length hr.records_eq
  refine ⟨⟨?_, h.addresses, ?_, hr.backed⟩, ?_⟩
  · show r.entries.length ≤ s.entryCapacity
    rw [hlen]
    exact h.capacity
  · show FramesWf s.active ((records r.entries).map Prod.fst)
    rw [hr.records_eq]
    exact h.frames
  · unfold savepoints
    simp only
    rw [hr.records_eq]
    exact congrArg (Savepoints.mk · _) hr.visible_eq

theorem Wf.unnamed (h : Wf s) (hfd : ∀ t ∈ s.active, t.names fd = false) :
    ∀ t ∈ s.active, fd ∉ refFds t.references := by
  intro t ht hm
  have := hfd t ht
  simp [(names_iff (h.frames.transaction_wf t ht).increasing).mpr hm] at this

/-! ## Begin and references -/

theorem sortedReferences_saved {fds : List Nat} : ∀ r ∈ sortedReferences fds, r.saved = false := by
  intro r hr
  obtain ⟨fd, _, rfl⟩ := mem_map.mp hr
  rfl

theorem Wf.enter (h : Wf s) (ht : transaction.Wf) (haddress : transaction.address ∉ s.active.map (·.address))
    (hstart : transaction.entryStart = s.entries.length) (hsaved : ∀ r ∈ transaction.references, r.saved = false)
    (hapart : ∀ fd ∈ backupFds s.entries, fd ∉ refFds transaction.references) :
    Simulates s (.enter transaction.address) { s with active := transaction :: s.active } := by
  have hlen : (targetFds s.entries).length = transaction.entryStart := by
    rw [hstart, targetFds, records, length_map, length_map]
  have hlen' : (records s.entries).length = transaction.entryStart := by
    rw [hstart, records, length_map]
  refine ⟨⟨h.capacity, nodup_cons.mpr ⟨haddress, h.addresses⟩, ?_, h.backed.cons hapart⟩, ?_⟩
  · refine ⟨le_of_eq hlen.symm, ht, ?_, ?_⟩
    · rw [← hlen, drop_length]
      refine ⟨nodup_nil, nofun, fun r hr => ?_⟩
      exact iff_of_false (by simp [hsaved r hr]) not_mem_nil
    · rw [← hlen, take_length]
      exact h.frames
  · have hlogs : logs (transaction :: s.active) (records s.entries) =
        (transaction.address, []) :: logs s.active (records s.entries) := by
      rw [logs, ← hlen', drop_length, take_length]
    show Savepoints.Step (savepoints s) _ ⟨visible s.fds s.entries, logs (transaction :: s.active) _⟩
    rw [hlogs]
    apply Savepoints.Step.enter
    rw [names_savepoints]
    exact haddress

variable {moved : Relocate File}

theorem Wf.enter_moved (h : Wf s) (faults : Faults) (ht : transaction.Wf)
    (haddress : transaction.address ∉ s.active.map (·.address)) (hstart : transaction.entryStart = s.entries.length)
    (hsaved : ∀ r ∈ transaction.references, r.saved = false)
    (hmoved : relocate faults (transaction :: s.active) transaction.names false s.entries transaction.nextBackupFd s.fds =
      moved) :
    Simulates s .stay { s with fds := moved.fds, entries := moved.entries } ∧
      (moved.error = none → Simulates s (.enter transaction.address)
        { s with
          fds := moved.fds
          entries := moved.entries
          active := { transaction with nextBackupFd := moved.nextBackupFd } :: s.active }) := by
  have hnext := relocate_next_ge faults (transaction :: s.active) transaction.names false s.entries _ s.fds ht.next_ge
  have hr : Relocated s.active transaction.names [] s.entries s.fds moved := by
    rw [← hmoved]
    apply relocate_spec faults _ (by simp) s.entries _ h.backed
    intro fd hfd
    exact ⟨hfd transaction mem_cons_self, h.unnamed fun t ht => hfd t (mem_cons_of_mem _ ht)⟩
  rw [hmoved] at hnext
  obtain ⟨hwf, hsame⟩ := h.relocated hr
  refine ⟨⟨hwf, by rw [hsame]; exact .stay⟩, fun he => ?_⟩
  have hlen : transaction.entryStart = moved.entries.length := by
    rw [hstart]
    simpa [records] using (congrArg List.length hr.records_eq).symm
  have hapart : ∀ fd ∈ backupFds moved.entries, fd ∉ refFds transaction.references := by
    intro fd hfd hm
    have := hr.clear he fd hfd
    simp [(names_iff ht.increasing).mpr hm] at this
  have ht' : Transaction.Wf { transaction with nextBackupFd := moved.nextBackupFd } := ⟨ht.increasing, hnext⟩
  have henter := hwf.enter ht' haddress hlen hsaved hapart
  exact ⟨henter.wf, hsame ▸ henter.step⟩

theorem beginTransaction_performs (faults : Faults) (h : Wf s) (address : Nat) (descriptorReferences : List Int) :
    Performs s (.enter address) .stay (beginTransaction faults s address descriptorReferences) := by
  unfold beginTransaction
  by_cases h1 : (s.active.any (·.address = address) || !stackInvariants s) = true
  · rw [if_pos h1]
    exact h.rejected _ _
  rw [if_neg h1]
  by_cases h2 : descriptorReferences.length > sizeMax / sizeofRef
  · rw [if_pos h2]
    exact h.rejected _ _
  rw [if_neg h2]
  by_cases h3 : (!descriptorReferences.isEmpty && !faults.alloc) = true
  · rw [if_pos h3]
    exact h.rejected _ _
  rw [if_neg h3]
  by_cases h4 : descriptorReferences.any (· < 0) = true
  · rw [if_pos h4]
    exact h.rejected _ _
  rw [if_neg h4]
  have haddress : address ∉ s.active.map (·.address) := by
    intro hm
    obtain ⟨t, ht, ha⟩ := mem_map.mp hm
    exact h1 (by rw [any_eq_true.mpr ⟨t, ht, decide_eq_true ha⟩, Bool.true_or])
  have ht : Transaction.Wf ⟨address, sortedReferences (descriptorReferences.map Int.toNat), s.entries.length, 10⟩ :=
    ⟨sortedReferences_increasing _, Nat.le_refl 10⟩
  obtain ⟨hstay, henter⟩ := h.enter_moved faults ht haddress rfl sortedReferences_saved rfl
  simp only
  cases he : (relocate faults _ _ false s.entries 10 s.fds).error with
  | some error => exact .error hstay _ error
  | none => exact .none (henter he) _

section
variable (h : Wf s) (hactive : s.active = transaction :: parents)
include h hactive

theorem Wf.head_changed {transaction' : Transaction}
    {capacity : Nat} (haddress : transaction'.address = transaction.address)
    (hstart : transaction'.entryStart = transaction.entryStart) (ht : transaction'.Wf)
    (hsaves : ∀ targets, Saves transaction.references targets → Saves transaction'.references targets)
    (hapart : ∀ fd ∈ backupFds s.entries, fd ∉ refFds transaction'.references)
    (hcapacity : s.entries.length ≤ capacity) :
    Simulates s .stay { s with entryCapacity := capacity, active := transaction' :: parents } := by
  have hframes := h.frames
  have haddresses := h.addresses
  have hbacked := h.backed
  rw [hactive] at hframes haddresses hbacked
  obtain ⟨hle, _, hown, hparents⟩ := hframes
  refine ⟨⟨hcapacity, ?_, ?_, ?_⟩, ?_⟩
  · rw [map_cons, haddress]
    exact haddresses
  · unfold FramesWf
    rw [hstart]
    exact ⟨hle, ht, hsaves _ hown, hparents⟩
  · exact (hbacked.frames_subset fun t ht n hn => ⟨t, mem_cons_of_mem _ ht, hn⟩).cons hapart
  · have hlogs : logs (transaction' :: parents) (records s.entries) = logs s.active (records s.entries) := by
      rw [hactive, logs, logs, haddress, hstart]
    show Savepoints.Step (savepoints s) .stay ⟨visible s.fds s.entries, logs (transaction' :: parents) _⟩
    rw [hlogs]
    exact .stay

theorem Wf.addReference {next : Nat}
    (hnew : fd ∉ refFds transaction.references) (hnext : 10 ≤ next) (hapart : fd ∉ backupFds s.entries) :
    Simulates s .stay
      { s with
        active := { transaction with references := insertReference fd transaction.references, nextBackupFd := next } ::
          parents } := by
  have hmem : transaction ∈ s.active := by simp [hactive]
  have hwf := h.frames.transaction_wf transaction hmem
  refine h.head_changed hactive rfl rfl ⟨insertReference_increasing hwf.increasing hnew, hnext⟩
    (fun _ hsaves => hsaves.insertReference hnew) (fun n hn hm => ?_) h.capacity
  cases refFds_insertReference.mp hm with
  | inl e => exact hapart (e ▸ hn)
  | inr hm => exact h.backed.apart n hn transaction hmem hm

theorem Wf.addReference_moved (faults : Faults) (hnew : fd ∉ refFds transaction.references)
    (hmoved : relocate faults ({ transaction with references := insertReference fd transaction.references } :: parents)
      (· = fd) true s.entries transaction.nextBackupFd s.fds = moved) :
    Simulates s .stay { s with fds := moved.fds, entries := moved.entries } ∧
      (moved.error = none → Simulates s .stay
        { s with
          fds := moved.fds
          entries := moved.entries
          active :=
            { transaction with
              references := insertReference fd transaction.references
              nextBackupFd := moved.nextBackupFd } :: parents }) := by
  have hwf := h.frames.transaction_wf transaction (by simp [hactive])
  have hnext := relocate_next_ge faults
    ({ transaction with references := insertReference fd transaction.references } :: parents) (· = fd) true s.entries _ s.fds
    hwf.next_ge
  have hr : Relocated s.active (· = fd) [] s.entries s.fds moved := by
    rw [← hmoved]
    apply relocate_spec faults _ _ s.entries _ h.backed
    · intro n hn
      have hcand : n ∉ refFds (insertReference fd transaction.references) := by
        intro hm
        have := hn _ mem_cons_self
        rw [(names_iff (insertReference_increasing hwf.increasing hnew)).mpr hm] at this
        cases this
      rw [refFds_insertReference, not_or] at hcand
      refine ⟨decide_eq_false hcand.1, fun t ht hm => ?_⟩
      rw [hactive, mem_cons] at ht
      cases ht with
      | inl e => exact hcand.2 (e ▸ hm)
      | inr ht =>
        have := hn t (mem_cons_of_mem _ ht)
        rw [(names_iff (h.frames.transaction_wf t (by simp [hactive, ht])).increasing).mpr hm] at this
        cases this
    · exact fun _ a b ha hb => (of_decide_eq_true ha).trans (of_decide_eq_true hb).symm
  rw [hmoved] at hnext
  obtain ⟨hmovedWf, hsame⟩ := h.relocated hr
  refine ⟨⟨hmovedWf, by rw [hsame]; exact .stay⟩, fun he => ?_⟩
  have hapart : fd ∉ backupFds moved.entries := fun hm => by simpa using hr.clear he fd hm
  have hadd := hmovedWf.addReference hactive hnew hnext hapart
  exact ⟨hadd.wf, hsame ▸ hadd.step⟩

end

theorem addReference_performs (faults : Faults) (h : Wf s) (address : Nat) (fd : Int) :
    Performs s .stay .stay (addReference faults s address fd) := by
  unfold addReference
  cases hactive : s.active with
  | nil => exact h.rejected _ _
  | cons transaction parents =>
    simp only
    have hwf := h.frames.transaction_wf transaction (by simp [hactive])
    by_cases h1 : transaction.address ≠ address ∨ fd < 0
    · rw [if_pos h1]
      exact h.rejected _ _
    rw [if_neg h1]
    by_cases h2 : transaction.names fd.toNat = true
    · rw [if_pos h2]
      exact h.unchanged _
    rw [if_neg h2]
    by_cases h3 : transaction.references.length ≥ sizeMax / sizeofRef
    · rw [if_pos h3]
      exact h.rejected _ _
    rw [if_neg h3]
    by_cases h4 : (!faults.alloc) = true
    · rw [if_pos h4]
      exact h.rejected _ _
    rw [if_neg h4]
    have hnew : fd.toNat ∉ refFds transaction.references := fun hm => h2 ((names_iff hwf.increasing).mpr hm)
    obtain ⟨hstay, hadd⟩ := h.addReference_moved hactive faults hnew rfl
    cases he : (relocate faults _ _ true s.entries transaction.nextBackupFd s.fds).error with
    | some error =>
      rw [hactive] at hstay
      exact .error hstay _ error
    | none => exact .none (hadd he) _

/-! ## Save -/

theorem entriesReserve_some {faults : Faults} {capacity : Nat} (h : Wf s) (hr : entriesReserve faults s = some capacity) :
    s.entries.length + 1 ≤ capacity := by
  have hle := h.capacity
  unfold entriesReserve at hr
  by_cases h1 : s.entries.length ≠ s.entryCapacity
  · simp [h1] at hr
    omega
  · rw [if_neg h1] at hr
    simp only at hr
    split_ifs at hr <;> cases hr <;> omega

variable {fds : FdTable File} {entry : Entry File} {capacity next : Nat} {entries : List (Entry File)}

theorem Wf.saveEntry (h : Wf s) (hactive : s.active = transaction :: parents) {index : Nat} {r : Ref}
    (hr : transaction.references[index]? = some r) (hsaved : r.saved = false)
    (hrecord : entry.record = (r.fd, s.fds r.fd)) (hnext : 10 ≤ next)
    (hcapacity : s.entries.length + 1 ≤ capacity) (hbacked : Backed fds s.active (s.entries ++ [entry]))
    (hview : visible fds (s.entries ++ [entry]) = visible s.fds s.entries) :
    Simulates s (.keep r.fd) (saveEntry { s with fds, entryCapacity := capacity }
      { transaction with nextBackupFd := next } parents index entry) := by
  have hframes := h.frames
  have haddresses := h.addresses
  have hlen : (targetFds s.entries).length = (records s.entries).length := length_map _
  have hmem : r.fd ∈ refFds transaction.references := mem_refFds.mpr ⟨r, mem_of_getElem? hr, rfl⟩
  have hseen : visible s.fds s.entries r.fd = s.fds r.fd := h.visible_eq (by simp [hactive]) hmem
  rw [hactive] at hframes haddresses hbacked
  obtain ⟨hstart, hwf, hsaves, hparents⟩ := hframes
  have htargets : targetFds (s.entries ++ [entry]) = targetFds s.entries ++ [r.fd] := by
    simp [targetFds, records, hrecord]
  have hrecords : records (s.entries ++ [entry]) = records s.entries ++ [(r.fd, s.fds r.fd)] := by
    simp [records, hrecord]
  refine ⟨⟨?_, haddresses, ?_, ?_⟩, ?_⟩
  · show (s.entries ++ [entry]).length ≤ capacity
    rw [length_append]
    exact hcapacity
  · show FramesWf _ (targetFds (s.entries ++ [entry]))
    rw [htargets]
    refine ⟨?_, ⟨?_, hnext⟩, ?_, ?_⟩
    · rw [length_append]
      exact hstart.trans (Nat.le_add_right _ _)
    · rw [refFds_modify]
      exact hwf.increasing
    · rw [drop_append_of_le_length hstart]
      exact hsaves.modify hwf.increasing hr hsaved
    · rw [take_append_of_le_length hstart]
      exact hparents
  · apply hbacked.frames_subset
    intro t ht n hn
    cases mem_cons.mp ht with
    | inl e =>
      subst e
      rw [refFds_modify] at hn
      exact ⟨transaction, mem_cons_self, hn⟩
    | inr ht => exact ⟨t, mem_cons_of_mem _ ht, hn⟩
  · rw [hlen] at hstart
    have hkey : r.fd ∉ Savepoints.keys ((records s.entries).drop transaction.entryStart) := by
      intro hm
      rw [Savepoints.keys, map_drop] at hm
      have := (hsaves.saved r (mem_of_getElem? hr)).mpr hm
      simp [hsaved] at this
    have hstep := Savepoints.Step.keep (m := savepoints s) (by rw [savepoints, hactive, logs]) hkey
    have hlogs : savepoints (FdTransaction.saveEntry { s with fds, entryCapacity := capacity }
        { transaction with nextBackupFd := next } parents index entry) = ⟨visible s.fds s.entries,
          (transaction.address, (records s.entries).drop transaction.entryStart ++ [(r.fd, s.fds r.fd)]) ::
            logs parents ((records s.entries).take transaction.entryStart)⟩ := by
      unfold savepoints FdTransaction.saveEntry
      simp only
      rw [logs, hview, hrecords, drop_append_of_le_length hstart, take_append_of_le_length hstart]
    rw [hlogs, ← hseen]
    exact hstep

theorem visible_duplicate {desc : Desc File} (hs : entry.savedFd = some fd) (hfree : fds fd = none) :
    visible (fds.set fd (some desc)) (entries ++ [entry]) = visible fds entries := by
  funext n
  unfold visible
  have hlast : n ∈ backupFds (entries ++ [entry]) ↔ n ∈ backupFds entries ∨ n = fd := by
    rw [backupFds_append, mem_append, mem_backupFds_cons, hs]
    simp [backupFds, eq_comm]
  by_cases hn : n ∈ backupFds entries
  · rw [if_pos hn, if_pos (hlast.mpr (Or.inl hn))]
  by_cases e : n = fd
  · rw [if_pos (hlast.mpr (Or.inr e)), if_neg hn, e, hfree]
  · rw [if_neg fun hm => (hlast.mp hm).elim hn e, if_neg hn, FdTable.set_of_ne e]

theorem Wf.reserved (h : Wf s) (hactive : s.active = transaction :: parents)
    (hcapacity : s.entries.length + 1 ≤ capacity) (hnext : 10 ≤ next) :
    Simulates s .stay
      { s with entryCapacity := capacity, active := { transaction with nextBackupFd := next } :: parents } := by
  have hmem : transaction ∈ s.active := by simp [hactive]
  have hwf := h.frames.transaction_wf transaction hmem
  exact h.head_changed hactive rfl rfl ⟨hwf.increasing, hnext⟩ (fun _ hsaves => hsaves)
    (fun n hn => h.backed.apart n hn transaction hmem) ((Nat.le_succ _).trans hcapacity)

def Transaction.hasSaved (transaction : Transaction) (fd : Nat) : Bool :=
  transaction.references.any fun r => r.fd = fd && r.saved

theorem Saves.hasSaved {targets : List Nat} (h : Saves transaction.references targets) :
    transaction.hasSaved fd = true ↔ fd ∈ targets := by
  unfold Transaction.hasSaved
  simp only [any_eq_true, Bool.and_eq_true, decide_eq_true_eq]
  refine ⟨?_, fun hm => ?_⟩
  · intro ⟨r, hr, hfd, hsaved⟩
    exact hfd ▸ (h.saved r hr).mp hsaved
  · obtain ⟨r, hr, hfd⟩ := mem_refFds.mp (h.referenced fd hm)
    exact ⟨r, hr, hfd, (h.saved r hr).mpr (hfd ▸ hm)⟩

theorem save_performs (faults : Faults) (h : Wf s) (address : Nat) (targetFd : Int) :
    Performs s (if s.active.head?.any (·.hasSaved targetFd.toNat) then .stay else .keep targetFd.toNat) .stay
      (save faults s address targetFd) := by
  unfold save
  cases hactive : s.active with
  | nil => exact h.rejected _ _
  | cons transaction parents =>
    simp only
    have hwf := h.frames.transaction_wf transaction (by simp [hactive])
    have hsaves := (show FramesWf (transaction :: parents) _ from hactive ▸ h.frames).2.2.1
    by_cases h1 : transaction.address ≠ address ∨ targetFd < 0
    · rw [if_pos h1]
      exact h.rejected _ _
    rw [if_neg h1]
    cases hindex : findRef transaction.references targetFd.toNat with
    | none => exact h.rejected _ _
    | some index =>
      simp only
      obtain ⟨r, hr, hfd⟩ : ∃ r, transaction.references[index]? = some r ∧ r.fd = targetFd.toNat := by
        simpa [refFds] using findRef_some hindex
      have hdone : transaction.hasSaved targetFd.toNat = r.saved := by
        rw [Bool.eq_iff_iff, hsaves.hasSaved, hsaves.saved r (mem_of_getElem? hr), hfd]
      rw [head?_cons, Option.any_some, hdone, hr, Option.any_some]
      by_cases h2 : r.saved = true
      · rw [if_pos h2, if_pos h2]
        exact h.unchanged _
      rw [if_neg h2, if_neg h2, ← hfd]
      cases hcapacity : entriesReserve faults s with
      | none => exact h.rejected _ _
      | some capacity =>
        have hle := entriesReserve_some h hcapacity
        have hsaved : r.saved = false := by simpa using h2
        simp only
        cases hdesc : s.fds r.fd with
        | none =>
          apply Performs.none
          have hnew : Backed s.fds s.active (s.entries ++ [⟨r.fd, none, false, none⟩]) :=
            h.backed.snoc (fun _ _ => rfl) rfl (by intro _ h; cases h)
          refine h.saveEntry hactive hr hsaved ?_ hwf.next_ge hle hnew ?_
          · rw [hdesc]
            rfl
          · unfold visible
            rw [backupFds_append, show backupFds [_] = [] from rfl, append_nil]
        | some desc =>
          obtain ⟨hdup, hnext⟩ := dupPrivate_spec faults s.active r.fd transaction.nextBackupFd s.fds
          have hnext := hnext hwf.next_ge
          unfold Duplicated at hdup
          rw [hactive] at hdup hnext
          generalize dupPrivate faults (transaction :: parents) r.fd transaction.nextBackupFd s.fds = duplicate at hdup hnext
          cases hres : duplicate.result with
          | error error =>
            rw [hres] at hdup
            rw [show duplicate.fds = s.fds from hdup]
            exact .error (h.reserved hactive hle hnext) _ error
          | ok savedFd =>
            rw [hres] at hdup
            obtain ⟨hfree, hnamed, desc', hdesc', hfds⟩ := hdup
            rw [hdesc] at hdesc'
            cases hdesc'
            apply Performs.none
            have hset : ∀ fd ∈ backupFds s.entries, duplicate.fds fd = s.fds fd := by
              intro fd hfd
              have hne : fd ≠ savedFd := fun e => h.backed.open hfd (e ▸ hfree)
              rw [hfds, FdTable.set_of_ne hne]
            have hnew : Backed duplicate.fds s.active (s.entries ++ [⟨r.fd, some savedFd, desc.cloexec, some desc⟩]) := by
              refine h.backed.snoc hset ⟨desc, by rw [hfds, FdTable.set_self], rfl⟩ ?_
              intro fd hfd
              cases hfd
              exact ⟨hfree, h.unnamed (hactive ▸ hnamed)⟩
            refine h.saveEntry hactive hr hsaved ?_ hnext hle hnew ?_
            · rw [hdesc]
              rfl
            · rw [hfds]
              exact visible_duplicate rfl hfree

structure Restored (entries : List (Entry File)) (fds : FdTable File) (r : FdTable File × Option Errno) : Prop where
  other : ∀ fd, fd ∉ backupFds entries → fd ∉ targetFds entries → r.1 fd = fds fd
  closed : ∀ fd ∈ backupFds entries, r.1 fd = none
  back : r.2 = none → ∀ entry ∈ entries, r.1 entry.targetFd = entry.original

theorem restore_spec (faults : Faults) (hheld : Held fds entry)
    (hapart : entry.savedFd ≠ some entry.targetFd) : Restored [entry] fds (restore faults fds entry) := by
  cases hs : entry.savedFd with
  | none =>
    unfold Held at hheld
    rw [hs] at hheld
    unfold restore
    rw [hs]
    refine ⟨?_, ?_, ?_⟩
    · intro fd _ hfd
      exact FdTable.close_of_ne fun e => hfd (by simp [targetFds, records, Entry.record, e])
    · intro fd hfd
      rw [mem_backupFds_cons, hs] at hfd
      exact hfd.elim (by intro h; cases h) (by intro h; cases h)
    · intro _ e he
      rw [mem_singleton.mp he, show entry.original = none from hheld]
      exact FdTable.close_self _
  | some savedFd =>
    obtain ⟨desc, hdesc, horig⟩ := hheld.open hs
    have hne : entry.targetFd ≠ savedFd := fun e => hapart (by rw [hs, e])
    have hmem : ∀ fd, fd ∈ backupFds [entry] ↔ fd = savedFd := by
      intro fd
      rw [mem_backupFds_cons, hs]
      simp [backupFds, eq_comm]
    unfold restore
    rw [hs]
    simp only
    cases hd : (if faults.dup2 entry.targetFd then fds.dup2 savedFd entry.targetFd else none) with
    | none =>
      refine ⟨?_, ?_, by intro h; cases h⟩
      · exact fun fd hfd _ => FdTable.close_of_ne fun e => hfd ((hmem fd).mpr e)
      · intro fd hfd
        rw [(hmem fd).mp hfd]
        exact FdTable.close_self _
    | some fds' =>
      have hdup : fds.dup2 savedFd entry.targetFd = some fds' := by
        split_ifs at hd
        exact hd
      simp only [FdTable.dup2_setCloexec hdesc hdup]
      refine ⟨?_, ?_, ?_⟩
      · intro fd hfd hfd'
        have hother : fd ≠ entry.targetFd := fun e => hfd' (by simp [targetFds, records, Entry.record, e])
        exact (FdTable.close_of_ne fun e => hfd ((hmem fd).mpr e)).trans (FdTable.set_of_ne hother _)
      · intro fd hfd
        rw [(hmem fd).mp hfd]
        exact FdTable.close_self _
      · intro _ e he
        rw [mem_singleton.mp he, horig]
        exact (FdTable.close_of_ne hne).trans (FdTable.set_self _ _)

theorem restoreAll_spec (faults : Faults) (hbackups : (backupFds entries).Nodup) (htargets : (targetFds entries).Nodup)
    (hapart : ∀ fd ∈ backupFds entries, fd ∉ targetFds entries) (hheld : ∀ entry ∈ entries, Held fds entry) :
    Restored entries fds (restoreAll faults entries fds) := by
  induction entries generalizing fds with
  | nil => exact ⟨fun _ _ _ => rfl, nofun, nofun⟩
  | cons entry entries ih =>
    have hself : entry.savedFd ≠ some entry.targetFd := fun e =>
      hapart _ (mem_backupFds_cons.mpr (Or.inl e)) mem_cons_self
    have hfirst := restore_spec faults (hheld entry mem_cons_self) hself
    obtain ⟨htarget, htargets⟩ := nodup_cons.mp (show (entry.targetFd :: targetFds entries).Nodup from htargets)
    have hbackup : ∀ fd, entry.savedFd = some fd → fd ∉ backupFds entries := by
      intro fd hs hm
      rw [backupFds, filterMap_cons_some hs] at hbackups
      exact (nodup_cons.mp hbackups).1 hm
    have hbackups : (backupFds entries).Nodup := hbackups.sublist ((sublist_cons_self _ _).filterMap _)
    have hone : ∀ fd, fd ∈ backupFds [entry] ↔ entry.savedFd = some fd := by simp [mem_backupFds]
    have hkept : ∀ fd ∈ backupFds entries, (restore faults fds entry).1 fd = fds fd := by
      intro fd hfd
      apply hfirst.other
      · exact fun hm => hbackup fd ((hone fd).mp hm) hfd
      · intro hm
        rw [mem_singleton.mp (show fd ∈ [entry.targetFd] from hm)] at hfd
        exact hapart _ (mem_backupFds_cons.mpr (Or.inr hfd)) mem_cons_self
    have hrest : Restored entries (restore faults fds entry).1 (restoreAll faults entries (restore faults fds entry).1) :=
      ih hbackups htargets
      (fun fd hfd hm => hapart fd (mem_backupFds_cons.mpr (Or.inr hfd)) (mem_cons_of_mem _ hm))
      (fun e he => (hheld e (mem_cons_of_mem _ he)).congr fun fd hs => hkept fd (mem_backupFds.mpr ⟨e, he, hs⟩))
    show Restored (entry :: entries) fds (_, (restore faults fds entry).2.or _)
    refine ⟨?_, ?_, ?_⟩
    · intro fd hfd hfd'
      rw [mem_backupFds_cons, not_or] at hfd
      have hne : fd ≠ entry.targetFd ∧ fd ∉ targetFds entries := by
        rw [← not_or]
        exact fun hm => hfd' (mem_cons.mpr hm)
      refine (hrest.other fd hfd.2 hne.2).trans (hfirst.other fd ?_ ?_)
      · exact fun hm => hfd.1 ((hone fd).mp hm)
      · exact fun hm => hne.1 (mem_singleton.mp hm)
    · intro fd hfd
      cases mem_backupFds_cons.mp hfd with
      | inl hs =>
        have hother : fd ∉ targetFds entries := fun hm => hapart fd hfd (mem_cons_of_mem _ hm)
        exact (hrest.other fd (hbackup fd hs) hother).trans (hfirst.closed fd ((hone fd).mpr hs))
      | inr hfd => exact hrest.closed fd hfd
    · intro herror e he
      obtain ⟨herror, hlater⟩ := Option.or_eq_none_iff.mp herror
      cases mem_cons.mp he with
      | inl e' =>
        subst e'
        have hother : e.targetFd ∉ backupFds entries := fun hm =>
          hapart _ (mem_backupFds_cons.mpr (Or.inr hm)) mem_cons_self
        exact (hrest.other _ hother htarget).trans (hfirst.back herror e mem_cons_self)
      | inr he => exact hrest.back hlater e he

/-! ## The end of a transaction -/

theorem closeBackups_apply (entries : List (Entry File)) (fds : FdTable File) (fd : Nat) :
    closeBackups entries fds fd = if fd ∈ backupFds entries then none else fds fd := FdTable.foldl_close _ fd

theorem visible_kept {fds' : FdTable File} {kept own : List (Entry File)}
    (hclosed : fd ∈ backupFds own → fds' fd = none) (hsame : fd ∉ backupFds own → fds' fd = fds fd) :
    visible fds' kept fd = visible fds (kept ++ own) fd := by
  unfold visible
  by_cases hk : fd ∈ backupFds kept
  · rw [if_pos hk, if_pos]
    rw [backupFds_append]
    exact mem_append_left _ hk
  rw [if_neg hk]
  by_cases ho : fd ∈ backupFds own
  · rw [if_pos, hclosed ho]
    rw [backupFds_append]
    exact mem_append_right _ ho
  · rw [if_neg, hsame ho]
    rw [backupFds_append, mem_append, not_or]
    exact ⟨hk, ho⟩

theorem Wf.finish (h : Wf s) (hactive : s.active = transaction :: parents)
    (hkept : ∀ fd ∈ backupFds (s.entries.take transaction.entryStart), fds fd = s.fds fd) :
    Wf (finish s transaction parents fds) ∧ savepoints (finish s transaction parents fds) =
      ⟨visible fds (s.entries.take transaction.entryStart),
        logs parents ((records s.entries).take transaction.entryStart)⟩ := by
  have hframes := h.frames
  have haddresses := h.addresses
  have hbacked := h.backed
  rw [hactive] at hframes haddresses hbacked
  rw [← take_append_drop transaction.entryStart s.entries] at hbacked
  have hrecords : records (s.entries.take transaction.entryStart) = (records s.entries).take transaction.entryStart :=
    map_take
  refine ⟨⟨?_, (nodup_cons.mp haddresses).2, ?_, ?_⟩, ?_⟩
  · exact (length_take_le' _ _).trans h.capacity
  · show FramesWf parents (targetFds (s.entries.take transaction.entryStart))
    rw [targetFds, hrecords, map_take]
    exact hframes.2.2.2
  · apply (hbacked.take.1.congr hkept).frames_subset
    exact fun t ht n hn => ⟨t, mem_cons_of_mem _ ht, hn⟩
  · rw [← hrecords]
    rfl

theorem savepoints_cons (hactive : s.active = transaction :: parents) :
    (savepoints s).stack = (transaction.address, (records s.entries).drop transaction.entryStart) ::
      logs parents ((records s.entries).take transaction.entryStart) := by
  rw [savepoints, hactive, logs]

theorem targetFds_drop (n : Nat) (entries : List (Entry File)) :
    targetFds (entries.drop n) = (targetFds entries).drop n := by
  rw [targetFds, records, map_drop, map_drop]
  rfl

theorem mem_backupFds_split (n : Nat) :
    fd ∈ backupFds entries ↔ fd ∈ backupFds (entries.take n) ∨ fd ∈ backupFds (entries.drop n) := by
  rw [← mem_append, ← backupFds_append, take_append_drop]

theorem Wf.own_apart (h : Wf s) (hactive : s.active = transaction :: parents) :
    (∀ fd ∈ backupFds (s.entries.take transaction.entryStart), fd ∉ backupFds (s.entries.drop transaction.entryStart)) ∧
      ∀ fd ∈ backupFds s.entries, fd ∉ targetFds (s.entries.drop transaction.entryStart) := by
  have hframes := h.frames
  rw [hactive] at hframes
  refine ⟨?_, ?_⟩
  · have hbacked := h.backed
    rw [← take_append_drop transaction.entryStart s.entries] at hbacked
    exact hbacked.take.2
  · intro fd hfd hm
    rw [targetFds_drop] at hm
    exact h.backed.apart fd hfd transaction (by simp [hactive]) (hframes.2.2.1.referenced fd hm)

theorem keys_records (n : Nat) (entries : List (Entry File)) :
    Savepoints.keys ((records entries).drop n) = targetFds (entries.drop n) := by
  rw [targetFds_drop]
  exact map_drop

theorem Wf.restored (h : Wf s) (hactive : s.active = transaction :: parents) (faults : Faults) :
    Restored (s.entries.drop transaction.entryStart) s.fds
      (restoreAll faults (s.entries.drop transaction.entryStart).reverse s.fds) := by
  have hframes := h.frames
  rw [hactive] at hframes
  have htargets := hframes.2.2.1.nodup
  rw [← targetFds_drop] at htargets
  have hapart : ∀ fd ∈ backupFds (s.entries.drop transaction.entryStart), fd ∉ targetFds _ := fun fd hfd =>
    (h.own_apart hactive).2 fd ((mem_backupFds_split _).mpr (Or.inr hfd))
  have hnodup : (backupFds (s.entries.drop transaction.entryStart)).Nodup :=
    h.backed.nodup.sublist ((drop_sublist _ _).filterMap _)
  have hheld : ∀ e ∈ s.entries.drop transaction.entryStart, Held s.fds e := fun e he =>
    h.backed.held e (mem_of_mem_drop he)
  generalize s.entries.drop transaction.entryStart = own at hapart hnodup hheld htargets ⊢
  have hbackup : backupFds own.reverse = (backupFds own).reverse := filterMap_reverse
  have htarget : targetFds own.reverse = (targetFds own).reverse := by simp [targetFds, records]
  have hr : Restored own.reverse s.fds (restoreAll faults own.reverse s.fds) := by
    apply restoreAll_spec
    · rw [hbackup, nodup_reverse]
      exact hnodup
    · rw [htarget, nodup_reverse]
      exact htargets
    · simpa only [hbackup, htarget, mem_reverse] using hapart
    · exact fun e he => hheld e (mem_reverse.mp he)
  refine ⟨?_, ?_, ?_⟩
  · simpa only [hbackup, htarget, mem_reverse] using hr.other
  · simpa only [hbackup, mem_reverse] using hr.closed
  · exact fun he e hm => hr.back he e (mem_reverse.mpr hm)

theorem rollback_performs (faults : Faults) (h : Wf s) (address : Nat) :
    Performs s .rollback (if isActive s address then .fail else .stay) (rollback faults s address) := by
  unfold rollback isActive
  cases hactive : s.active with
  | nil => exact h.rejected _ _
  | cons transaction parents =>
    rw [head?_cons, Option.any_some]
    simp only
    by_cases h1 : transaction.address ≠ address
    · rw [if_pos h1, if_neg (by simpa using h1)]
      exact h.rejected _ _
    rw [if_neg h1, if_pos (by simpa using h1)]
    have hr := h.restored hactive faults
    obtain ⟨hkept, hown⟩ := h.own_apart hactive
    generalize restoreAll faults (s.entries.drop transaction.entryStart).reverse s.fds = r at hr
    have hstay : ∀ fd ∈ backupFds (s.entries.take transaction.entryStart), r.1 fd = s.fds fd := fun fd hfd =>
      hr.other fd (hkept fd hfd) (hown fd ((mem_backupFds_split _).mpr (Or.inl hfd)))
    obtain ⟨hwf, hleft⟩ := h.finish hactive hstay
    have hsame : ∀ fd, fd ∉ Savepoints.keys ((records s.entries).drop transaction.entryStart) →
        visible r.1 (s.entries.take transaction.entryStart) fd = visible s.fds s.entries fd := by
      intro fd hfd
      rw [keys_records] at hfd
      conv => rhs; rw [← take_append_drop transaction.entryStart s.entries]
      exact visible_kept (hr.closed fd) fun hm => hr.other fd hm hfd
    have htop := savepoints_cons hactive
    cases he : r.2 with
    | some error => exact .error ⟨hwf, by rw [hleft]; exact .fail htop hsame⟩ _ error
    | none =>
      apply Performs.none
      refine ⟨hwf, ?_⟩
      rw [hleft]
      refine .rollback htop ?_ hsame
      intro p hp
      rw [records, ← map_drop] at hp
      obtain ⟨e, hm, rfl⟩ := mem_map.mp hp
      have htarget : e.targetFd ∈ targetFds (s.entries.drop transaction.entryStart) := by
        rw [targetFds, records, map_map]
        exact mem_map_of_mem hm
      -- the target is a backup of nothing that stays
      show visible r.1 _ e.targetFd = e.original
      rw [visible, if_neg fun hb => hown _ ((mem_backupFds_split _).mpr (Or.inl hb)) htarget]
      exact hr.back he e hm

theorem commit_performs (h : Wf s) (address : Nat) : Performs s .commit .stay (commit s address) := by
  unfold commit
  cases hactive : s.active with
  | nil => exact h.rejected _ _
  | cons transaction parents =>
    simp only
    by_cases h1 : transaction.address ≠ address
    · rw [if_pos h1]
      exact h.rejected _ _
    rw [if_neg h1]
    have hkept := (h.own_apart hactive).1
    have happly := closeBackups_apply (s.entries.drop transaction.entryStart) s.fds
    obtain ⟨hwf, hleft⟩ := h.finish hactive fun fd hfd => (happly fd).trans (if_neg (hkept fd hfd))
    apply Performs.none
    refine ⟨hwf, ?_⟩
    have hview : visible (closeBackups (s.entries.drop transaction.entryStart) s.fds)
        (s.entries.take transaction.entryStart) = visible s.fds s.entries := by
      funext fd
      conv => rhs; rw [← take_append_drop transaction.entryStart s.entries]
      exact visible_kept (fun hm => (happly fd).trans (if_pos hm)) fun hm => (happly fd).trans (if_neg hm)
    rw [hleft, hview]
    exact .commit (savepoints_cons hactive)

theorem discard_simulates (s : State File) : Simulates s .clear (discard s) := by
  have happly := closeBackups_apply s.entries s.fds
  have hview : visible (closeBackups s.entries s.fds) [] = visible s.fds s.entries := by
    funext fd
    exact visible_kept (fun hm => (happly fd).trans (if_pos hm)) fun hm => (happly fd).trans (if_neg hm)
  refine ⟨⟨Nat.le_refl 0, nodup_nil, rfl, ⟨nodup_nil, nofun, nofun⟩⟩, ?_⟩
  show Savepoints.Step (savepoints s) .clear ⟨visible (closeBackups s.entries s.fds) [], []⟩
  rw [hview]
  exact .clear

/-! ## Runs -/

theorem Wf.user (h : Wf s) (hfd : ∀ t ∈ s.active.head?, fd ∈ refFds t.references) (desc : Option (Desc File)) :
    Wf { s with fds := s.fds.set fd desc } ∧ ∀ n, n ≠ fd → visible (s.fds.set fd desc) s.entries n = visible s.fds s.entries n := by
  have hapart : fd ∉ backupFds s.entries := by
    intro hm
    cases hactive : s.active with
    | nil =>
      have hnil := h.frames
      rw [hactive, FramesWf, targetFds, records, map_eq_nil_iff, map_eq_nil_iff] at hnil
      rw [hnil] at hm
      cases hm
    | cons transaction parents =>
      exact h.backed.apart fd hm transaction (by simp [hactive]) (hfd transaction (by simp [hactive]))
  refine ⟨⟨h.capacity, h.addresses, h.frames, h.backed.congr ?_⟩, ?_⟩
  · intro n hn
    exact FdTable.set_of_ne (by grind) _
  · intro n hn
    unfold visible
    rw [FdTable.set_of_ne hn]

theorem wf_of_init (h : (system File).init s) : Wf s := by
  obtain ⟨he, _, ha⟩ := h
  refine ⟨?_, ?_, ?_, ⟨?_, ?_, ?_⟩⟩ <;> simp [he, ha, FramesWf, targetFds, records, backupFds]

theorem wf_step {a : Action File} (h : Wf s) (hstep : (system File).step s a t) : Wf t := by
  obtain ⟨hpermitted, rfl⟩ := hstep
  cases a with
  | beginTransaction faults address descriptorReferences => exact (beginTransaction_performs faults h _ _).wf
  | addReference faults address fd => exact (addReference_performs faults h _ _).wf
  | save faults address targetFd => exact (save_performs faults h _ _).wf
  | rollback faults address => exact (rollback_performs faults h _).wf
  | commit address => exact (commit_performs h _).wf
  | discard => exact (discard_simulates s).wf
  | user fd desc =>
    refine (h.user ?_ desc).1
    intro t ht
    obtain ⟨r, hr, hfd⟩ := hpermitted t ht
    exact mem_refFds.mpr ⟨r, hr, hfd⟩

theorem reachable_wf (h : Reachable (system File) s) : Wf s :=
  h.invariant (fun _ => wf_of_init) fun _ _ _ _ hwf hstep => wf_step hwf hstep

/-! ## The executable check -/

theorem refsIncreasing_of_pairwise {references : List Ref} (h : (refFds references).Pairwise (· < ·)) :
    refsIncreasing references = true := by
  fun_induction refsIncreasing references with
  | case1 r q references ih =>
    obtain ⟨hr, h'⟩ := pairwise_cons.mp h
    rw [ih h', Bool.and_true]
    exact decide_eq_true (hr q.fd mem_cons_self)
  | case2 references _ => rfl

theorem Wf.backup_not_target (h : Wf s) (hfd : fd ∈ backupFds s.entries) : fd ∉ targetFds s.entries := by
  intro hm
  obtain ⟨t, ht, hr⟩ := h.frames.target_named fd hm
  exact h.backed.apart fd hfd t ht hr

theorem mem_targetFds : fd ∈ targetFds entries ↔ ∃ entry ∈ entries, entry.targetFd = fd := by
  rw [targetFds, records, map_map, mem_map]
  rfl

variable {frames : List Transaction} {stop : Nat}

variable {i start : Nat}

theorem Backed.entry_eq (h : Backed fds frames entries) {j : Nat} {other : Entry File} (hi : entries[i]? = some entry)
    (hj : entries[j]? = some other) (hs : entry.savedFd = some fd) (ho : other.savedFd = some fd) : ¬ j < i := by
  intro hlt
  obtain ⟨hi', rfl⟩ := List.getElem?_eq_some_iff.mp hi
  obtain ⟨hj', rfl⟩ := List.getElem?_eq_some_iff.mp hj
  have hp := pairwise_filterMap.mp h.nodup
  exact pairwise_iff_getElem.mp hp j i hj' hi' hlt fd ho fd hs rfl

theorem Wf.backupInvariant (h : Wf s) (hi : s.entries[i]? = some entry) : backupInvariant s i = true := by
  have hentry := mem_of_getElem? hi
  have hbackup : ∀ {e : Entry File} {fd}, e ∈ s.entries → e.savedFd = some fd → fd ∈ backupFds s.entries := fun he hs =>
    mem_backupFds.mpr ⟨_, he, hs⟩
  have htarget : ∀ {e : Entry File}, e ∈ s.entries → e.targetFd ∈ targetFds s.entries := fun he =>
    mem_targetFds.mpr ⟨_, he, rfl⟩
  unfold FdTransaction.backupInvariant
  rw [hi]
  simp only [Bool.and_eq_true, decide_eq_true_eq]
  refine ⟨⟨?_, ?_⟩, ?_⟩
  · exact fun hs => h.backup_not_target (hbackup hentry hs) (htarget hentry)
  · cases hs : entry.savedFd with
    | none => rfl
    | some savedFd =>
      obtain ⟨desc, hdesc, _⟩ := (h.backed.held entry hentry).open hs
      simp only [Bool.and_eq_true, all_eq_true, mem_range, Option.all_eq_true, decide_eq_true_eq]
      refine ⟨⟨by rw [hdesc]; rfl, ?_⟩, ?_⟩
      · exact fun j hj other ho hs' => h.backed.entry_eq hi ho hs hs' hj
      · intro t ht
        rw [Bool.not_eq_true', ← Bool.not_eq_true, names_iff (h.frames.transaction_wf t ht).increasing]
        exact h.backed.apart savedFd (hbackup hentry hs) t ht
  · simp only [all_eq_true, mem_range, Option.all_eq_true, Bool.and_eq_true, decide_eq_true_eq]
    intro j _ other ho
    have hother := mem_of_getElem? ho
    refine ⟨fun hs => ?_, fun hs => ?_⟩
    · exact h.backup_not_target (hbackup hentry hs.symm) (htarget hother)
    · exact h.backup_not_target (hbackup hother hs) (htarget hentry)

theorem mem_entryRange : i ∈ entryRange start stop ↔ start ≤ i ∧ i < stop := by
  unfold entryRange
  rw [mem_range'_1]
  omega

theorem getElem?_stretch (start stop k : Nat) (entries : List (Entry File)) :
    (((targetFds entries).take stop).drop start)[k]? =
      if start + k < stop then entries[start + k]?.map (·.targetFd) else none := by
  rw [getElem?_drop, getElem?_take, targetFds, records, map_map, getElem?_map]
  rfl

theorem mem_stretch : fd ∈ ((targetFds entries).take stop).drop start ↔
      ∃ i ∈ entryRange start stop, ∃ entry, entries[i]? = some entry ∧ entry.targetFd = fd := by
  rw [mem_iff_getElem?]
  refine ⟨?_, ?_⟩
  · intro ⟨k, hk⟩
    rw [getElem?_stretch] at hk
    by_cases hlt : start + k < stop
    · rw [if_pos hlt, Option.map_eq_some_iff] at hk
      exact ⟨start + k, mem_entryRange.mpr ⟨Nat.le_add_right _ _, hlt⟩, hk⟩
    · simp [hlt] at hk
  · intro ⟨i, hi, hentry⟩
    obtain ⟨hstart, hstop⟩ := mem_entryRange.mp hi
    refine ⟨i - start, ?_⟩
    rw [getElem?_stretch, Nat.add_sub_cancel' hstart, if_pos hstop, Option.map_eq_some_iff]
    exact hentry

theorem Wf.frameInvariant (h : Wf s) (hstop : stop ≤ s.entries.length) (hwf : transaction.Wf)
    (hstart : transaction.entryStart ≤ stop)
    (hsaves : Saves transaction.references (((targetFds s.entries).take stop).drop transaction.entryStart)) :
    frameInvariant s transaction stop = true := by
  unfold FdTransaction.frameInvariant referencesInvariant
  simp only [Bool.and_eq_true, decide_eq_true_eq, all_eq_true]
  refine ⟨⟨⟨hstart, refsIncreasing_of_pairwise hwf.increasing, hwf.next_ge⟩, ?_⟩, ?_⟩
  · intro i hi
    obtain ⟨hlow, hhigh⟩ := mem_entryRange.mp hi
    have hentry : s.entries[i]? = some s.entries[i] := getElem?_eq_getElem (lt_of_lt_of_le hhigh hstop)
    have hmem := mem_stretch.mpr ⟨i, hi, _, hentry, rfl⟩
    rw [hentry, Option.any_some]
    simp only [Bool.and_eq_true, all_eq_true, Option.all_eq_true, decide_eq_true_eq]
    refine ⟨⟨?_, h.backupInvariant hentry⟩, ?_⟩
    · have hnamed := (names_iff hwf.increasing).mpr (hsaves.referenced _ hmem)
      obtain ⟨index, hindex⟩ := Option.isSome_iff_exists.mp hnamed
      have hr := findRef_some hindex
      rw [refFds, getElem?_map, Option.map_eq_some_iff] at hr
      obtain ⟨r, hr, hfd⟩ := hr
      rw [hindex, Option.any_some, hr, Option.any_some, hsaves.saved r (mem_of_getElem? hr), hfd]
      exact hmem
    · intro j hj other hother e
      obtain ⟨hlow', hhigh'⟩ := mem_entryRange.mp hj
      have hi' := getElem?_stretch transaction.entryStart stop (i - transaction.entryStart) s.entries
      have hj' := getElem?_stretch transaction.entryStart stop (j - transaction.entryStart) s.entries
      rw [Nat.add_sub_cancel' hlow, if_pos hhigh, hentry] at hi'
      rw [Nat.add_sub_cancel' hlow', if_pos (hhigh'.trans hhigh), hother] at hj'
      obtain ⟨hlen, _⟩ := List.getElem?_eq_some_iff.mp hi'
      have := (getElem?_inj hlen hsaves.nodup).mp (hi'.trans (hj'.trans (congrArg some e)).symm)
      omega
  · intro r hr
    rw [Bool.eq_iff_iff, hsaves.saved r hr, mem_stretch, any_eq_true]
    simp only [Option.any_eq_true, decide_eq_true_eq]

theorem Wf.framesInvariant (h : Wf s) (hstop : stop ≤ s.entries.length)
    (hframes : FramesWf frames ((targetFds s.entries).take stop)) : framesInvariant s frames stop = true := by
  have hlen : ((targetFds s.entries).take stop).length = stop := by
    rw [length_take, targetFds, records, length_map, length_map, min_eq_left hstop]
  induction frames generalizing stop with
  | nil =>
    rw [show (targetFds s.entries).take stop = [] from hframes] at hlen
    exact decide_eq_true hlen.symm
  | cons transaction parents ih =>
    obtain ⟨hstart, hwf, hsaves, hparents⟩ := hframes
    rw [hlen] at hstart
    rw [take_take, min_eq_left hstart] at hparents
    unfold FdTransaction.framesInvariant
    rw [h.frameInvariant hstop hwf hstart hsaves, Bool.true_and]
    apply ih (hstart.trans hstop) hparents
    rw [length_take, targetFds, records, length_map, length_map, min_eq_left (hstart.trans hstop)]

theorem Wf.stackInvariants (h : Wf s) : stackInvariants s = true := by
  have hlen : (targetFds s.entries).length = s.entries.length := by
    rw [targetFds, records, length_map, length_map]
  have hframes := h.frames
  rw [← take_length (l := targetFds s.entries), hlen] at hframes
  unfold FdTransaction.stackInvariants
  simp only [Bool.and_eq_true, decide_eq_true_eq]
  exact ⟨⟨h.capacity, h.addresses⟩, h.framesInvariant (le_rfl) hframes⟩

/-- **Main result.** Whatever operations ran and wherever they failed, the
check of the stack returns true, and no backup is a target, another backup or a
number that an active transaction refers to. -/
theorem stack_invariants_hold (h : Reachable (system File) s) :
    stackInvariants s = true ∧ (backupFds s.entries).Nodup ∧ (∀ fd ∈ backupFds s.entries, fd ∉ targetFds s.entries) ∧
      ∀ fd ∈ backupFds s.entries, ∀ transaction ∈ s.active, ∀ r ∈ transaction.references, r.fd ≠ fd := by
  have hwf := reachable_wf h
  refine ⟨hwf.stackInvariants, hwf.backed.nodup, fun fd hfd => hwf.backup_not_target hfd, ?_⟩
  intro fd hfd transaction ht r hr e
  exact hwf.backed.apart fd hfd transaction ht (mem_refFds.mpr ⟨r, hr, e⟩)

def freshProcess : State Nat := ⟨fun fd => if fd = 0 then some ⟨7, false⟩ else none, [], 0, []⟩

/-- Inside the transaction 1, which has saved 0, the transaction 2 names the number of its backup. -/
def nestedStart : State Nat :=
  [.beginTransaction .none 1 [0], .save .none 1 0, .user 0 (some ⟨8, true⟩),
    .beginTransaction .none 2 [10, 0]].foldl perform freshProcess

theorem reachable_perform (h : Reachable (system File) s) (a : Action File) (ha : Permitted s a) :
    Reachable (system File) (perform s a) := h.step ⟨ha, rfl⟩

theorem nestedStart_reachable : Reachable (system Nat) nestedStart := by
  have h0 : Reachable (system Nat) freshProcess := .init ⟨rfl, rfl, rfl⟩
  have h1 := reachable_perform h0 (.beginTransaction .none 1 [0]) trivial
  have h2 := reachable_perform h1 (.save .none 1 0) trivial
  have h3 := reachable_perform h2 (.user 0 (some ⟨8, true⟩)) (by decide +kernel)
  exact reachable_perform h3 (.beginTransaction .none 2 [10, 0]) trivial

theorem stack_invariants_hold_nested : stackInvariants nestedStart = true ∧ backupFds nestedStart.entries = [11] :=
  ⟨(stack_invariants_hold nestedStart_reachable).1, by decide +kernel⟩

end Bx.FdTransaction
