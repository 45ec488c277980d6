import Mathlib.Data.List.Pairwise
import Mathlib.Data.List.TakeDrop
import Mathlib.Data.List.TakeWhile
import Bx.Tar.Pax

/-!
# Metadata that waits for the end of an extraction

While members are extracted their metadata is recorded with the device, inode and type of the object. At the end one
live path is chosen for each object, and the objects are finished from the deepest path up. A directory takes its last
record, a regular file replays its records from the latest creation of the inode.
-/

namespace Bx.Archive

open Bx.Kit List

/-! ## The records -/

inductive XattrClass where
  | ordinary
  | aclAccess
  | aclDefault
  | selinux
  | capability
  deriving DecidableEq

def xattrClassify (name : Bytes) : XattrClass :=
  if name = ascii "system.posix_acl_access" then .aclAccess
  else if name = ascii "system.posix_acl_default" then .aclDefault
  else if name = ascii "security.selinux" then .selinux
  else if name = ascii "security.capability" then .capability
  else .ordinary

structure FileRestore where
  metadata : Tar.Metadata := {}
  restoreAcls : BitVec 32 := 0
  uid : Nat := 0
  gid : Nat := 0
  mode : Nat := 0
  mtime : Tar.Timespec := ⟨0, 0⟩
  setOwner : Bool := false
  setGroup : Bool := false
  setMode : Bool := false
  setMtime : Bool := false
  flagsSet : BitVec 32 := 0
  flagsClear : BitVec 32 := 0
  flagsPresent : Bool := false

inductive EntryType where
  | directory
  | regular
  deriving DecidableEq

def EntryType.mode : EntryType → Nat
  | .directory => 0o040000
  | .regular => 0o100000

structure Identity where
  dev : Nat
  ino : Nat
  type : EntryType
  deriving DecidableEq

/-- One record, with what is checked when it is made: an alias belongs to a
regular file, and no inode is created after its record. -/
structure PendingEntry where
  restore : FileRestore
  path : Bytes
  dev : Nat
  ino : Nat
  type : EntryType
  depth : Int
  order : Nat
  origin : Nat
  aliased : Bool
  origin_le : origin ≤ order
  aliased_regular : aliased = true → type = .regular

namespace PendingEntry

def identity (e : PendingEntry) : Identity := ⟨e.dev, e.ino, e.type⟩

def sameObject (a b : PendingEntry) : Bool := b.dev == a.dev && b.ino == a.ino && b.type == a.type

def identityCompare (a b : PendingEntry) : Ordering :=
  if a.dev ≠ b.dev then if a.dev < b.dev then .lt else .gt
  else if a.ino ≠ b.ino then if a.ino < b.ino then .lt else .gt
  else if a.type.mode ≠ b.type.mode then if a.type.mode < b.type.mode then .lt else .gt
  else compare a.order b.order

end PendingEntry

/-- A sort by `identityCompare`, which may leave equal records in any order. -/
structure EntrySort where
  sort : List PendingEntry → List PendingEntry
  perm : ∀ entries, (sort entries).Perm entries
  sorted : ∀ entries, (sort entries).Pairwise fun a b => a.identityCompare b ≠ .gt

/-! ## What is outside -/

inductive Opened where
  | gone
  | failed
  | opened

inductive RestoreResult where
  | ok
  | statError
  | metadataError

/-- The answers of the signal check, the file system and `close`. Each is asked for an index at most once, so an answer
may depend on everything before it. -/
structure Host where
  locateSignal : Nat → Bool
  locateOpen : Nat → Opened
  locateClose : Nat → Bool
  groupSignal : Nat → Bool
  groupOpen : Nat → Opened
  recordSignal : Nat → Bool
  restoreBase : Nat → RestoreResult
  finalSignal : Nat → Bool
  restoreFinal : Nat → RestoreResult
  applyFlags : Nat → Bool
  groupClose : Nat → Bool

inductive Failure where
  | interrupted
  | cannotOpen (path : Bytes)
  | cannotClose (path : Bytes)
  | cannotRestore (path : Bytes) (result : RestoreResult)
  | cannotSetFlags (path : Bytes)

/-! ## One live path for each object -/

structure Group where
  first : Nat
  records : List PendingEntry
  location : PendingEntry

def Group.identity (group : Group) : Identity := group.location.identity

variable (location : Option PendingEntry)

def deeper (e : PendingEntry) : PendingEntry :=
  match location with
  | none => e
  | some chosen => if e.depth ≥ chosen.depth then e else chosen

def locateLive (host : Host) : Nat → List PendingEntry → Option PendingEntry → Except Failure (Option PendingEntry)
  | _, [], location => .ok location
  | i, e :: rest, location =>
    if host.locateSignal i then .error .interrupted
    else
      match host.locateOpen i with
      | .gone => locateLive host (i + 1) rest location
      | .failed => .error (.cannotOpen e.path)
      | .opened =>
        if host.locateClose i then locateLive host (i + 1) rest (some (deeper location e))
        else .error (.cannotClose e.path)

def locate (host : Host) (first : Nat) : List PendingEntry → Except Failure (Option PendingEntry)
  | [e] => .ok (some e)
  | records => locateLive host first records none

def locateGroups (host : Host) (first : Nat) : List PendingEntry → Except Failure (List Group)
  | [] => .ok []
  | e :: rest =>
    let records := e :: rest.takeWhile e.sameObject
    match locate host first records with
    | .error failure => .error failure
    | .ok location =>
      match locateGroups host (first + records.length) (rest.dropWhile e.sameObject) with
      | .error failure => .error failure
      | .ok groups =>
        match location with
        | none => .ok groups
        | some location => .ok (⟨first, records, location⟩ :: groups)
  termination_by entries => entries.length
  decreasing_by
    have h := (dropWhile_suffix (l := rest) e.sameObject).length_le
    rw [length_cons]
    omega

def depthLe (a b : Group) : Bool :=
  if a.location.depth ≠ b.location.depth then decide (a.location.depth < b.location.depth)
  else decide (a.first ≤ b.first)

/-! ## The records of one object -/

structure Replay where
  set : BitVec 32 := 0
  clear : BitVec 32 := 0
  label : Option (Bytes × Bytes) := none
  capabilities : Option (Bytes × Bytes) := none
  final : FileRestore := {}

def overlayFlags (flags : BitVec 32 × BitVec 32) (restore : FileRestore) : BitVec 32 × BitVec 32 :=
  if restore.flagsPresent then
    if restore.flagsSet ||| restore.flagsClear = 0 then (0, 0)
    else
      ((flags.1 &&& ~~~restore.flagsClear) ||| restore.flagsSet,
        (flags.2 &&& ~~~restore.flagsSet) ||| restore.flagsClear)
  else flags

namespace Replay

def noteXattr (replay : Replay) (value : Bytes × Bytes) : Replay :=
  match xattrClassify value.1 with
  | .selinux => { replay with label := some value }
  | .capability => { replay with capabilities := some value }
  | _ => replay

def noteFlags (replay : Replay) (restore : FileRestore) : Replay :=
  { replay with
    set := (overlayFlags (replay.set, replay.clear) restore).1
    clear := (overlayFlags (replay.set, replay.clear) restore).2 }

def noteMtime (replay : Replay) (restore : FileRestore) : Replay :=
  if restore.setMtime then { replay with final := { replay.final with setMtime := true, mtime := restore.mtime } }
  else replay

def record (replay : Replay) (restore : FileRestore) : Replay :=
  (restore.metadata.xattrs.foldl noteXattr (replay.noteFlags restore)).noteMtime restore

def finalRestore (replay : Replay) : FileRestore :=
  { replay.final with metadata := { xattrs := replay.label.toList ++ replay.capabilities.toList } }

end Replay

/-- A call that changes the object: ownership, mode, ACLs and ordinary
attributes of one record, then what was kept for the end, then the flags. -/
inductive Step where
  | base (restore : FileRestore)
  | final (restore : FileRestore)
  | flags (set clear : BitVec 32)

def FileRestore.withoutFlags (restore : FileRestore) : FileRestore :=
  { restore with flagsSet := 0, flagsClear := 0 }

def latestOrigin (records : List PendingEntry) : Nat :=
  records.foldl (fun origin e => if e.origin > origin then e.origin else origin) 0

def replayFrom (type : EntryType) (records : List PendingEntry) : List PendingEntry :=
  match type with
  | .directory => records.drop (records.length - 1)
  | .regular => records.dropWhile fun e => decide (e.order < latestOrigin records)

def replayRecords (host : Host) (path : Bytes) : Nat → List PendingEntry → Replay → List Step × Except Failure Replay
  | _, [], replay => ([], .ok replay)
  | i, e :: rest, replay =>
    if host.recordSignal i then ([], .error .interrupted)
    else if e.aliased then replayRecords host path (i + 1) rest replay
    else
      match host.restoreBase i with
      | .ok =>
        let after := replayRecords host path (i + 1) rest (replay.record e.restore)
        (.base e.restore.withoutFlags :: after.1, after.2)
      | result => ([.base e.restore.withoutFlags], .error (.cannotRestore path result))

def finishObject (host : Host) (group : Group) (replay : Replay) : List Step × Option Failure :=
  if host.finalSignal group.first then ([], some .interrupted)
  else
    match host.restoreFinal group.first with
    | .ok =>
      ([.final replay.finalRestore, .flags replay.set replay.clear],
        if host.applyFlags group.first then none else some (.cannotSetFlags group.location.path))
    | result => ([.final replay.finalRestore], some (.cannotRestore group.location.path result))

def applyObject (host : Host) (group : Group) : List Step × Option Failure :=
  let records := replayFrom group.location.type group.records
  let first := group.first + (group.records.length - records.length)
  match replayRecords host group.location.path first records {} with
  | (steps, .error failure) => (steps, some failure)
  | (steps, .ok replay) => (steps ++ (finishObject host group replay).1, (finishObject host group replay).2)

/-! ## All objects -/

structure Application where
  group : Group
  steps : List Step

def applyGroups (host : Host) : List Group → List Application × Option Failure
  | [] => ([], none)
  | group :: rest =>
    if host.groupSignal group.first then ([], some .interrupted)
    else
      match host.groupOpen group.first with
      | .gone => applyGroups host rest
      | .failed => ([], some (.cannotOpen group.location.path))
      | .opened =>
        let object := applyObject host group
        let closed := if host.groupClose group.first then none else some (.cannotClose group.location.path)
        match object.2.or closed with
        | some failure => ([⟨group, object.1⟩], some failure)
        | none =>
          let after := applyGroups host rest
          (⟨group, object.1⟩ :: after.1, after.2)

structure Outcome where
  applied : List Application
  failure : Option Failure

def pendingMetadataApply (qsort : EntrySort) (host : Host) (dirs : List PendingEntry) : Outcome :=
  match locateGroups host 0 (qsort.sort dirs) with
  | .error failure => ⟨[], some failure⟩
  | .ok groups =>
    let applied := applyGroups host (groups.mergeSort depthLe).reverse
    ⟨applied.1, applied.2⟩

/-! ## Sorted records -/

namespace PendingEntry

variable {a b : PendingEntry}

theorem sameObject_iff : a.sameObject b = true ↔ b.identity = a.identity := by
  unfold sameObject identity
  simp only [Bool.and_eq_true, beq_iff_eq, Identity.mk.injEq, and_assoc]

theorem mode_inj {s t : EntryType} : s.mode = t.mode ↔ s = t := by
  cases s <;> cases t <;> simp [EntryType.mode]

theorem identityCompare_ne_gt : a.identityCompare b ≠ .gt ↔
      a.dev < b.dev ∨ a.dev = b.dev ∧ (a.ino < b.ino ∨ a.ino = b.ino ∧
        (a.type.mode < b.type.mode ∨ a.type.mode = b.type.mode ∧ a.order ≤ b.order)) := by
  unfold identityCompare
  by_cases hdev : a.dev = b.dev
  · rw [if_neg (not_not_intro hdev)]
    by_cases hino : a.ino = b.ino
    · rw [if_neg (not_not_intro hino)]
      by_cases htype : a.type.mode = b.type.mode
      · rw [if_neg (not_not_intro htype), Nat.compare_ne_gt]
        omega
      · rw [if_pos htype]
        by_cases hlt : a.type.mode < b.type.mode
        · simp [hlt, hdev, hino]
        · simp [hlt, hdev, hino, htype]
    · rw [if_pos hino]
      by_cases hlt : a.ino < b.ino
      · simp [hlt, hdev]
      · simp [hlt, hdev, hino]
  · rw [if_pos hdev]
    by_cases hlt : a.dev < b.dev
    · simp [hlt]
    · simp [hlt, hdev]

variable {c : PendingEntry}

section
variable (hab : a.identityCompare b ≠ .gt)
include hab

theorem identity_between (hbc : b.identityCompare c ≠ .gt)
    (hac : c.identity = a.identity) : b.identity = a.identity := by
  rw [identityCompare_ne_gt] at hab hbc
  unfold identity at hac ⊢
  rw [Identity.mk.injEq, ← mode_inj] at hac ⊢
  omega

theorem order_le_of_identity (h : a.identity = b.identity) : a.order ≤ b.order := by
  rw [identityCompare_ne_gt] at hab
  unfold identity at h
  rw [Identity.mk.injEq, ← mode_inj] at h
  omega

theorem identityCompare_trans (hbc : b.identityCompare c ≠ .gt) : a.identityCompare c ≠ .gt := by
  rw [identityCompare_ne_gt] at *
  omega

end

theorem identityCompare_total (a b : PendingEntry) : a.identityCompare b ≠ .gt ∨ b.identityCompare a ≠ .gt := by
  rw [identityCompare_ne_gt, identityCompare_ne_gt]
  omega

end PendingEntry

def mergeEntrySort : EntrySort where
  sort entries := entries.mergeSort fun a b => a.identityCompare b ≠ .gt
  perm entries := mergeSort_perm entries _
  sorted entries := by
    refine (pairwise_mergeSort ?_ ?_ entries).imp ?_
    · intro a b c hab hbc
      rw [decide_eq_true_iff] at *
      exact PendingEntry.identityCompare_trans hab hbc
    · intro a b
      rw [Bool.or_eq_true, decide_eq_true_iff, decide_eq_true_iff]
      exact PendingEntry.identityCompare_total a b
    · intro a b hab
      exact of_decide_eq_true hab

section Runs
variable {e : PendingEntry} {rest : List PendingEntry}

theorem mem_dropWhile_sameObject (hsorted : (e :: rest).Pairwise fun a b => a.identityCompare b ≠ .gt) :
    ∀ x ∈ rest.dropWhile e.sameObject, x.identity ≠ e.identity := by
  induction rest with
  | nil => intro x hx; cases hx
  | cons y rest ih =>
    rw [pairwise_cons, pairwise_cons] at hsorted
    obtain ⟨he, hy, hrest⟩ := hsorted
    by_cases hsame : e.sameObject y = true
    · rw [dropWhile_cons_of_pos hsame]
      exact ih (pairwise_cons.mpr ⟨fun x hx => he x (mem_cons_of_mem y hx), hrest⟩)
    · rw [dropWhile_cons_of_neg hsame]
      rw [PendingEntry.sameObject_iff] at hsame
      intro x hx heq
      cases hx with
      | head => exact hsame heq
      | tail _ hx => exact hsame (PendingEntry.identity_between (he y mem_cons_self) (hy x hx) heq)

theorem mem_takeWhile_sameObject : ∀ x ∈ rest.takeWhile e.sameObject, x.identity = e.identity := by
  intro x hx
  exact PendingEntry.sameObject_iff.mp (mem_takeWhile_imp hx)

theorem takeWhile_sameObject (hsorted : (e :: rest).Pairwise fun a b => a.identityCompare b ≠ .gt) :
    e :: rest.takeWhile e.sameObject = (e :: rest).filter (·.identity = e.identity) := by
  have hdrop := mem_dropWhile_sameObject hsorted
  rw [filter_cons_of_pos (by simp)]
  congr 1
  conv_rhs => rw [← takeWhile_append_dropWhile (p := e.sameObject) (l := rest)]
  rw [filter_append, filter_eq_self.mpr, filter_eq_nil_iff.mpr, append_nil]
  · intro x hx
    simpa using hdrop x hx
  · intro x hx
    simpa using mem_takeWhile_sameObject x hx

theorem filter_dropWhile_sameObject {identity : Identity} (hne : identity ≠ e.identity) :
    (rest.dropWhile e.sameObject).filter (·.identity = identity) = (e :: rest).filter (·.identity = identity) := by
  rw [filter_cons_of_neg (by simpa using Ne.symm hne)]
  conv_rhs => rw [← takeWhile_append_dropWhile (p := e.sameObject) (l := rest)]
  have hnone : (rest.takeWhile e.sameObject).filter (·.identity = identity) = [] := by
    rw [filter_eq_nil_iff]
    intro x hx
    rw [mem_takeWhile_sameObject x hx]
    simpa using Ne.symm hne
  rw [filter_append, hnone, nil_append]

end Runs

/-! ## The chosen path -/

/-- The record at this place was open when its object was looked for, or it is
the only one and was not looked at. -/
def Group.Live (host : Host) (group : Group) (e : PendingEntry) : Prop :=
  ∃ i, group.records[i]? = some e ∧ (group.records.length = 1 ∨ host.locateOpen (group.first + i) = .opened)

structure Group.Located (host : Host) (entries : List PendingEntry) (group : Group) : Prop where
  records_eq : group.records = entries.filter (·.identity = group.identity)
  live : group.Live host group.location
  deepest : ∀ e, group.Live host e → e.depth ≤ group.location.depth

theorem deeper_depth (e : PendingEntry) :
    e.depth ≤ (deeper location e).depth ∧ (∀ p, location = some p → p.depth ≤ (deeper location e).depth) ∧
      (deeper location e = e ∨ location = some (deeper location e)) := by
  cases location with
  | none =>
    refine ⟨le_refl _, ?_, Or.inl rfl⟩
    intro p hp
    cases hp
  | some chosen =>
    unfold deeper
    dsimp only
    by_cases h : e.depth ≥ chosen.depth
    · rw [if_pos h]
      refine ⟨le_refl _, ?_, Or.inl rfl⟩
      intro p hp
      cases hp
      exact h
    · rw [if_neg h]
      refine ⟨by omega, ?_, Or.inr rfl⟩
      intro p hp
      cases hp
      exact le_refl _

variable {host : Host} {records : List PendingEntry} {first : Nat}

theorem locateLive_spec {chosen : PendingEntry} :
    ∀ {entries : List PendingEntry} {i : Nat} {location : Option PendingEntry},
      locateLive host i entries location = .ok (some chosen) →
        (∀ p, location = some p → p.depth ≤ chosen.depth) ∧
        (∀ j x, entries[j]? = some x → host.locateOpen (i + j) = .opened → x.depth ≤ chosen.depth) ∧
        (location = some chosen ∨ ∃ j, entries[j]? = some chosen ∧ host.locateOpen (i + j) = .opened) := by
  intro entries
  induction entries with
  | nil =>
    intro i location h
    cases h
    refine ⟨?_, ?_, Or.inl rfl⟩
    · intro p hp
      cases hp
      exact le_refl _
    · intro j x hx
      cases hx
  | cons e rest ih =>
    intro i location h
    unfold locateLive at h
    by_cases hsignal : host.locateSignal i = true
    · simp [hsignal] at h
    · rw [if_neg hsignal] at h
      cases hopen : host.locateOpen i with
      | gone =>
        rw [hopen] at h
        obtain ⟨hbefore, hlive, hfound⟩ := ih h
        refine ⟨hbefore, ?_, hfound.imp_right ?_⟩
        · intro j x hx hj
          cases j with
          | zero => rw [add_zero, hopen] at hj; cases hj
          | succ j => exact hlive j x hx (by rw [← hj]; congr 1; omega)
        · intro ⟨j, hx, hj⟩
          exact ⟨j + 1, hx, by rw [← hj]; congr 1; omega⟩
      | failed => rw [hopen] at h; cases h
      | opened =>
        rw [hopen] at h
        dsimp only at h
        by_cases hclose : host.locateClose i = true
        · rw [if_pos hclose] at h
          obtain ⟨hbefore, hlive, hfound⟩ := ih h
          obtain ⟨he, hold, hwhich⟩ := deeper_depth location e
          have hchosen := hbefore _ rfl
          refine ⟨fun p hp => le_trans (hold p hp) hchosen, ?_, ?_⟩
          · intro j x hx hj
            cases j with
            | zero => cases hx; exact le_trans he hchosen
            | succ j => exact hlive j x hx (by rw [← hj]; congr 1; omega)
          · cases hfound with
            | inl hsome =>
              cases hsome
              cases hwhich with
              | inl heq => exact Or.inr ⟨0, by rw [heq]; rfl, hopen⟩
              | inr hsame => exact Or.inl hsame
            | inr hlater =>
              obtain ⟨j, hx, hj⟩ := hlater
              exact Or.inr ⟨j + 1, hx, by rw [← hj]; congr 1; omega⟩
        · simp [hclose] at h

theorem locate_spec {location : PendingEntry} (h : locate host first records = .ok (some location)) :
    Group.Live host ⟨first, records, location⟩ location ∧
      ∀ e, Group.Live host ⟨first, records, location⟩ e → e.depth ≤ location.depth := by
  unfold locate at h
  split at h
  case h_1 only =>
    cases h
    refine ⟨⟨0, rfl, Or.inl rfl⟩, ?_⟩
    intro e ⟨i, hi, _⟩
    cases i with
    | zero => cases hi; exact le_refl _
    | succ i => cases hi
  case h_2 hmany =>
    obtain ⟨_, hlive, hfound⟩ := locateLive_spec h
    have hone : records.length ≠ 1 := by
      intro hlength
      obtain ⟨x, hx⟩ := length_eq_one_iff.mp hlength
      exact hmany x hx
    refine ⟨?_, ?_⟩
    · cases hfound with
      | inl hnone => cases hnone
      | inr hlater =>
        obtain ⟨j, hx, hj⟩ := hlater
        exact ⟨j, hx, Or.inr hj⟩
    · intro e ⟨i, hi, hopen⟩
      exact hlive i e hi (hopen.resolve_left hone)

variable {e : PendingEntry}

theorem locateGroups_cons {rest : List PendingEntry} {groups : List Group}
    (h : locateGroups host first (e :: rest) = .ok groups) :
    ∃ location others, locate host first (e :: rest.takeWhile e.sameObject) = .ok location ∧
      locateGroups host (first + (e :: rest.takeWhile e.sameObject).length) (rest.dropWhile e.sameObject) =
        .ok others ∧
      (location = none ∧ groups = others ∨
        ∃ chosen, location = some chosen ∧
          groups = ⟨first, e :: rest.takeWhile e.sameObject, chosen⟩ :: others) := by
  rw [locateGroups] at h
  cases hlocate : locate host first (e :: rest.takeWhile e.sameObject) with
  | error failure => rw [hlocate] at h; cases h
  | ok location =>
    rw [hlocate] at h
    dsimp only at h
    cases hothers : locateGroups host (first + (e :: rest.takeWhile e.sameObject).length)
        (rest.dropWhile e.sameObject) with
    | error failure => rw [hothers] at h; cases h
    | ok others =>
      rw [hothers] at h
      cases location with
      | none => cases h; exact ⟨none, _, rfl, rfl, Or.inl ⟨rfl, rfl⟩⟩
      | some chosen => cases h; exact ⟨some chosen, _, rfl, rfl, Or.inr ⟨chosen, rfl, rfl⟩⟩

theorem Group.Live.mem {group : Group} (h : group.Live host e) : e ∈ group.records := by
  obtain ⟨i, hi, _⟩ := h
  exact mem_of_getElem? hi

theorem locateGroups_spec : ∀ {n : Nat} {entries : List PendingEntry} {first : Nat} {groups : List Group},
    entries.length ≤ n → (entries.Pairwise fun a b => a.identityCompare b ≠ .gt) →
    locateGroups host first entries = .ok groups →
    (∀ group ∈ groups, group.Located host entries) ∧ (groups.map (·.identity)).Nodup := by
  intro n
  induction n with
  | zero =>
    intro entries first groups hn _ h
    rw [Nat.le_zero, length_eq_zero_iff] at hn
    rw [hn, locateGroups] at h
    cases h
    exact ⟨fun group hgroup => (nomatch hgroup), nodup_nil⟩
  | succ n ih =>
    intro entries first groups hn hsorted h
    cases entries with
    | nil =>
      rw [locateGroups] at h
      cases h
      exact ⟨fun group hgroup => (nomatch hgroup), nodup_nil⟩
    | cons e rest =>
      obtain ⟨location, others, hlocate, hothers, hgroups⟩ := locateGroups_cons h
      have hsuffix := dropWhile_suffix (l := rest) e.sameObject
      have hlength : (rest.dropWhile e.sameObject).length ≤ n := by
        have := hsuffix.length_le
        rw [length_cons] at hn
        omega
      have htail := (pairwise_cons.mp hsorted).2.sublist hsuffix.sublist
      obtain ⟨hlocated, hnodup⟩ := ih hlength htail hothers
      have hne : ∀ group ∈ others, group.identity ≠ e.identity := by
        intro group hgroup
        have hmem := (hlocated group hgroup).live.mem
        rw [(hlocated group hgroup).records_eq] at hmem
        exact mem_dropWhile_sameObject hsorted _ (mem_filter.mp hmem).1
      have hothers' : ∀ group ∈ others, group.Located host (e :: rest) := by
        intro group hgroup
        refine { hlocated group hgroup with records_eq := ?_ }
        rw [(hlocated group hgroup).records_eq, filter_dropWhile_sameObject (hne group hgroup)]
      cases hgroups with
      | inl hgone => rw [hgone.2]; exact ⟨hothers', hnodup⟩
      | inr hchosen =>
        obtain ⟨chosen, hlocation, hgroups⟩ := hchosen
        rw [hlocation] at hlocate
        obtain ⟨hlive, hdeepest⟩ := locate_spec hlocate
        have hidentity : chosen.identity = e.identity := by
          cases hlive.mem with
          | head => rfl
          | tail _ hmem => exact mem_takeWhile_sameObject chosen hmem
        rw [hgroups]
        refine ⟨?_, ?_⟩
        · intro group hgroup
          cases hgroup with
          | head =>
            refine ⟨?_, hlive, hdeepest⟩
            unfold Group.identity
            dsimp only
            rw [hidentity]
            exact takeWhile_sameObject hsorted
          | tail _ hgroup => exact hothers' group hgroup
        · rw [map_cons, nodup_cons]
          refine ⟨?_, hnodup⟩
          intro hmem
          obtain ⟨group, hgroup, heq⟩ := mem_map.mp hmem
          exact hne group hgroup (heq.trans hidentity)

/-! ## The order of the objects -/

theorem depthLe_total (a b : Group) : (depthLe a b || depthLe b a) = true := by
  unfold depthLe
  by_cases h : a.location.depth = b.location.depth
  · rw [if_neg (not_not_intro h), if_neg (not_not_intro h.symm), Bool.or_eq_true, decide_eq_true_iff, decide_eq_true_iff]
    omega
  · rw [if_pos h, if_pos (Ne.symm h), Bool.or_eq_true, decide_eq_true_iff, decide_eq_true_iff]
    omega

theorem depthLe_iff {a b : Group} :
    depthLe a b = true ↔ a.location.depth < b.location.depth ∨ a.location.depth = b.location.depth ∧ a.first ≤ b.first := by
  unfold depthLe
  by_cases h : a.location.depth = b.location.depth
  · rw [if_neg (not_not_intro h), decide_eq_true_iff]
    omega
  · rw [if_pos h, decide_eq_true_iff]
    omega

theorem depthLe_trans (a b c : Group) (hab : depthLe a b = true) (hbc : depthLe b c = true) : depthLe a c = true := by
  rw [depthLe_iff] at *
  omega

theorem deepest_first (groups : List Group) :
    (groups.mergeSort depthLe).reverse.Pairwise fun a b => b.location.depth ≤ a.location.depth := by
  rw [pairwise_reverse]
  refine (pairwise_mergeSort depthLe_trans depthLe_total groups).imp ?_
  intro a b hab
  rw [depthLe_iff] at hab
  omega

/-! ## The fold over the records -/

def lastXattr (kind : XattrClass) (records : List PendingEntry) : Option (Bytes × Bytes) :=
  ((records.flatMap (·.restore.metadata.xattrs)).filter (xattrClassify ·.1 = kind)).getLast?

def lastMtime (records : List PendingEntry) : Option Tar.Timespec :=
  ((records.filter (·.restore.setMtime)).getLast?).map (·.restore.mtime)

def foldedFlags (records : List PendingEntry) : BitVec 32 × BitVec 32 :=
  records.foldl (fun flags e => overlayFlags flags e.restore) (0, 0)

def settled (replayed : List PendingEntry) : List Step :=
  replayed.map (fun e => .base e.restore.withoutFlags) ++
    [.final {
      metadata := { xattrs := (lastXattr .selinux replayed).toList ++ (lastXattr .capability replayed).toList }
      setMtime := (lastMtime replayed).isSome
      mtime := (lastMtime replayed).getD ⟨0, 0⟩ },
     .flags (foldedFlags replayed).1 (foldedFlags replayed).2]

namespace Replay
variable (replay : Replay)

theorem foldl_noteXattr (xattrs : List (Bytes × Bytes)) : xattrs.foldl noteXattr replay = { replay with
        label := ((xattrs.filter (xattrClassify ·.1 = .selinux)).getLast?).or replay.label
        capabilities := ((xattrs.filter (xattrClassify ·.1 = .capability)).getLast?).or replay.capabilities } := by
  induction xattrs generalizing replay with
  | nil => rfl
  | cons value xattrs ih =>
    rw [foldl_cons, ih, ← singleton_append, filter_append, filter_append, getLast?_append, getLast?_append]
    unfold noteXattr
    cases h : xattrClassify value.1 <;> simp [h]

end Replay

theorem lastXattr_cons (kind : XattrClass) (e : PendingEntry) (records : List PendingEntry) :
    lastXattr kind (e :: records) =
      (lastXattr kind records).or ((e.restore.metadata.xattrs.filter (xattrClassify ·.1 = kind)).getLast?) := by
  unfold lastXattr
  rw [flatMap_cons, filter_append, getLast?_append]

theorem lastMtime_cons (e : PendingEntry) (records : List PendingEntry) : lastMtime (e :: records) =
      (lastMtime records).or (if e.restore.setMtime then some e.restore.mtime else none) := by
  unfold lastMtime
  by_cases h : e.restore.setMtime = true
  · rw [filter_cons, if_pos h, if_pos h, ← singleton_append, getLast?_append, Option.map_or]
    rfl
  · rw [filter_cons, if_neg h, if_neg h, Option.or_none]

theorem Replay.foldl_record (records : List PendingEntry) (replay : Replay) :
    records.foldl (fun replay e => replay.record e.restore) replay =
      { set := (records.foldl (fun flags e => overlayFlags flags e.restore) (replay.set, replay.clear)).1
        clear := (records.foldl (fun flags e => overlayFlags flags e.restore) (replay.set, replay.clear)).2
        label := (lastXattr .selinux records).or replay.label
        capabilities := (lastXattr .capability records).or replay.capabilities
        final := { replay.final with
          setMtime := (lastMtime records).isSome || replay.final.setMtime
          mtime := (lastMtime records).getD replay.final.mtime } } := by
  induction records generalizing replay with
  | nil => rfl
  | cons e records ih =>
    rw [foldl_cons, ih, foldl_cons, lastXattr_cons, lastXattr_cons, lastMtime_cons]
    unfold record noteMtime
    rw [foldl_noteXattr]
    unfold noteFlags
    by_cases h : e.restore.setMtime = true
    · rw [if_pos h, if_pos h]
      cases lastMtime records <;> simp [Option.or_assoc]
    · rw [if_neg h, if_neg h]
      cases lastMtime records <;> simp [Option.or_assoc]

theorem settled_eq (replayed : List PendingEntry) : settled replayed =
      replayed.map (fun e => .base e.restore.withoutFlags) ++
        [.final (replayed.foldl (fun replay e => replay.record e.restore) ({} : Replay)).finalRestore,
          .flags (replayed.foldl (fun replay e => replay.record e.restore) ({} : Replay)).set
            (replayed.foldl (fun replay e => replay.record e.restore) ({} : Replay)).clear] := by
  rw [Replay.foldl_record]
  unfold settled foldedFlags Replay.finalRestore
  simp

theorem replayRecords_spec {path : Bytes} : ∀ (records : List PendingEntry) (i : Nat) (replay : Replay),
    (replayRecords host path i records replay).1 <+:
        (records.filter (!·.aliased)).map (fun e => .base e.restore.withoutFlags) ∧
      ∀ after, (replayRecords host path i records replay).2 = .ok after →
        (replayRecords host path i records replay).1 =
            (records.filter (!·.aliased)).map (fun e => .base e.restore.withoutFlags) ∧
          after = (records.filter (!·.aliased)).foldl (fun replay e => replay.record e.restore) replay := by
  intro records
  induction records with
  | nil =>
    intro i replay
    refine ⟨List.nil_prefix, ?_⟩
    intro after h
    cases h
    exact ⟨rfl, rfl⟩
  | cons e rest ih =>
    intro i replay
    unfold replayRecords
    by_cases hsignal : host.recordSignal i = true
    · rw [if_pos hsignal]
      exact ⟨List.nil_prefix, fun after h => (nomatch h)⟩
    · rw [if_neg hsignal]
      by_cases haliased : e.aliased = true
      · rw [if_pos haliased, filter_cons_of_neg (by simpa using haliased)]
        exact ih (i + 1) replay
      · rw [if_neg haliased, filter_cons_of_pos (by simpa using haliased), map_cons, foldl_cons]
        have hfail : [Step.base e.restore.withoutFlags] <+: Step.base e.restore.withoutFlags ::
            (rest.filter (!·.aliased)).map (fun e => .base e.restore.withoutFlags) :=
          cons_prefix_cons.mpr ⟨rfl, nil_prefix⟩
        cases host.restoreBase i with
        | ok =>
          obtain ⟨hbegins, hok⟩ := ih (i + 1) (replay.record e.restore)
          refine ⟨cons_prefix_cons.mpr ⟨rfl, hbegins⟩, ?_⟩
          intro after h
          obtain ⟨hsteps, hafter⟩ := hok after h
          exact ⟨congrArg _ hsteps, hafter⟩
        | statError => exact ⟨hfail, fun after h => (nomatch h)⟩
        | metadataError => exact ⟨hfail, fun after h => (nomatch h)⟩

theorem finishObject_spec (host : Host) (group : Group) (replay : Replay) :
    (finishObject host group replay).1 <+: [.final replay.finalRestore, .flags replay.set replay.clear] ∧
      ((finishObject host group replay).2 = none →
        (finishObject host group replay).1 = [.final replay.finalRestore, .flags replay.set replay.clear]) := by
  unfold finishObject
  by_cases hsignal : host.finalSignal group.first = true
  · rw [if_pos hsignal]
    exact ⟨List.nil_prefix, fun h => (nomatch h)⟩
  · rw [if_neg hsignal]
    have hfail : [Step.final replay.finalRestore] <+: [.final replay.finalRestore, .flags replay.set replay.clear] :=
      cons_prefix_cons.mpr ⟨rfl, nil_prefix⟩
    cases host.restoreFinal group.first with
    | ok => exact ⟨prefix_refl _, fun _ => rfl⟩
    | statError => exact ⟨hfail, fun h => (nomatch h)⟩
    | metadataError => exact ⟨hfail, fun h => (nomatch h)⟩

theorem applyObject_spec (host : Host) (group : Group) : (applyObject host group).1 <+:
        settled ((replayFrom group.location.type group.records).filter (!·.aliased)) ∧
      ((applyObject host group).2 = none →
        (applyObject host group).1 = settled ((replayFrom group.location.type group.records).filter (!·.aliased))) := by
  rw [settled_eq]
  unfold applyObject
  dsimp only
  generalize group.first + _ = first
  obtain ⟨hbegins, hok⟩ :=
    replayRecords_spec (replayFrom group.location.type group.records) first {}
  generalize replayRecords host group.location.path first (replayFrom group.location.type group.records) {} = out
    at hbegins hok
  obtain ⟨steps, result⟩ := out
  cases result with
  | error failure => exact ⟨hbegins.trans (prefix_append _ _), fun h => (nomatch h)⟩
  | ok replay =>
    obtain ⟨hsteps, hreplay⟩ := hok replay rfl
    obtain ⟨hfinal, hdone⟩ := finishObject_spec host group replay
    dsimp only at hsteps ⊢
    rw [hsteps, ← hreplay]
    refine ⟨(prefix_append_right_inj _).mpr hfinal, ?_⟩
    intro h
    rw [hdone h]

/-! ## The records that are replayed -/

def IsReplay (records replayed : List PendingEntry) : EntryType → Prop
  | .directory => ∃ r ∈ records, (∀ s ∈ records, s.order ≤ r.order) ∧ replayed = [r]
  | .regular => ∃ latest, (∀ e ∈ records, e.origin ≤ latest) ∧ (∃ e ∈ records, e.origin = latest) ∧
      replayed = records.filter fun e => latest ≤ e.order ∧ e.aliased = false

theorem latestOrigin_spec (records : List PendingEntry) (origin : Nat) :
    let latest := records.foldl (fun origin e => if e.origin > origin then e.origin else origin) origin
    origin ≤ latest ∧ (∀ e ∈ records, e.origin ≤ latest) ∧ (latest = origin ∨ ∃ e ∈ records, e.origin = latest) := by
  induction records generalizing origin with
  | nil => exact ⟨le_refl _, fun e he => (nomatch he), Or.inl rfl⟩
  | cons e records ih =>
    dsimp only
    rw [foldl_cons]
    obtain ⟨hle, hall, hwhich⟩ := ih (if e.origin > origin then e.origin else origin)
    have hnext : origin ≤ (if e.origin > origin then e.origin else origin) ∧
        e.origin ≤ (if e.origin > origin then e.origin else origin) := by
      split <;> omega
    refine ⟨le_trans hnext.1 hle, ?_, ?_⟩
    · intro x hx
      cases hx with
      | head => exact le_trans hnext.2 hle
      | tail _ hx => exact hall x hx
    · cases hwhich with
      | inl hsame =>
        rw [hsame]
        by_cases h : e.origin > origin
        · rw [if_pos h]
          exact Or.inr ⟨e, mem_cons_self, rfl⟩
        · rw [if_neg h]
          exact Or.inl rfl
      | inr hfound =>
        obtain ⟨x, hx, hlatest⟩ := hfound
        exact Or.inr ⟨x, mem_cons_of_mem e hx, hlatest⟩

theorem dropWhile_order (latest : Nat) (hsorted : records.Pairwise fun a b => a.order ≤ b.order) :
    records.dropWhile (fun e => decide (e.order < latest)) = records.filter fun e => latest ≤ e.order := by
  induction records with
  | nil => rfl
  | cons e records ih =>
    obtain ⟨he, hrecords⟩ := pairwise_cons.mp hsorted
    by_cases h : e.order < latest
    · rw [dropWhile_cons_of_pos (by simpa using h), filter_cons_of_neg (by simpa using h)]
      exact ih hrecords
    · rw [dropWhile_cons_of_neg (by simpa using h), filter_eq_self.mpr]
      intro x hx
      cases hx with
      | head => simpa using h
      | tail _ hx =>
        have := he x hx
        rw [decide_eq_true_iff]
        omega

theorem isReplay_replayFrom {identity : Identity} (hne : records ≠ [])
    (hobject : ∀ e ∈ records, e.identity = identity) (hsorted : records.Pairwise fun a b => a.order ≤ b.order) :
    IsReplay records ((replayFrom identity.type records).filter (!·.aliased)) identity.type := by
  cases htype : identity.type with
  | directory =>
    unfold replayFrom
    dsimp only
    rw [drop_length_sub_one hne]
    have hmem := getLast_mem hne
    refine ⟨records.getLast hne, hmem, ?_, ?_⟩
    · intro s hs
      exact hsorted.rel_getLast_of_rel_getLast_getLast hs (le_refl _)
    · rw [filter_cons_of_pos, filter_nil]
      rw [Bool.not_eq_true']
      cases haliased : (records.getLast hne).aliased with
      | false => rfl
      | true =>
        have hregular := (records.getLast hne).aliased_regular haliased
        have hidentity := congrArg Identity.type (hobject _ hmem)
        rw [htype] at hidentity
        cases hidentity.symm.trans hregular
  | regular =>
    obtain ⟨_, hall, hwhich⟩ := latestOrigin_spec records 0
    refine ⟨latestOrigin records, hall, ?_, ?_⟩
    · cases hwhich with
      | inl hzero =>
        obtain ⟨e, he⟩ := exists_mem_of_ne_nil records hne
        have hle := hall e he
        exact ⟨e, he, by unfold latestOrigin; omega⟩
      | inr hfound => exact hfound
    · unfold replayFrom
      dsimp only
      rw [dropWhile_order _ hsorted, filter_filter]
      apply filter_congr
      intro e _
      simp [and_comm]

/-! ## The whole run -/

theorem applyGroups_spec : ∀ (groups : List Group), ((applyGroups host groups).1.map (·.group)).Sublist groups ∧
      ∀ a ∈ (applyGroups host groups).1,
        host.groupOpen a.group.first = .opened ∧ a.steps = (applyObject host a.group).1 ∧
          ((applyGroups host groups).2 = none ∨ a ∈ (applyGroups host groups).1.dropLast →
            (applyObject host a.group).2 = none) := by
  intro groups
  induction groups with
  | nil => exact ⟨nil_sublist _, fun a ha => (nomatch ha)⟩
  | cons group rest ih =>
    unfold applyGroups
    by_cases hsignal : host.groupSignal group.first = true
    · rw [if_pos hsignal]
      exact ⟨nil_sublist _, fun a ha => (nomatch ha)⟩
    · rw [if_neg hsignal]
      cases hopen : host.groupOpen group.first with
      | gone => exact ⟨ih.1.cons group, ih.2⟩
      | failed => exact ⟨nil_sublist _, fun a ha => (nomatch ha)⟩
      | opened =>
        dsimp only
        cases hdone : (applyObject host group).2.or
            (if host.groupClose group.first then none else some (.cannotClose group.location.path)) with
        | some failure =>
          refine ⟨singleton_sublist.mpr mem_cons_self, ?_⟩
          intro a ha
          cases ha with
          | head =>
            refine ⟨hopen, rfl, ?_⟩
            intro h
            cases h with
            | inl h => cases h
            | inr h => cases h
          | tail _ ha => cases ha
        | none =>
          rw [Option.or_eq_none_iff] at hdone
          refine ⟨ih.1.cons_cons group, ?_⟩
          intro a ha
          cases ha with
          | head => exact ⟨hopen, rfl, fun _ => hdone.1⟩
          | tail _ ha =>
            obtain ⟨hlive, hsteps, hrest⟩ := ih.2 a ha
            refine ⟨hlive, hsteps, fun h => ?_⟩
            cases h with
            | inl hnone => exact hrest (Or.inl hnone)
            | inr hmem =>
              rw [dropLast_cons_of_ne_nil (ne_nil_of_mem ha)] at hmem
              cases hmem with
              | head => exact hdone.1
              | tail _ hmem => exact hrest (Or.inr hmem)

structure Application.Follows (host : Host) (dirs : List PendingEntry) (finished : Prop) (a : Application) : Prop where
  opened : host.groupOpen a.group.first = .opened
  live : a.group.Live host a.group.location
  deepest : ∀ e, a.group.Live host e → e.depth ≤ a.group.location.depth
  perm : a.group.records.Perm (dirs.filter (·.identity = a.group.identity))
  sorted : a.group.records.Pairwise fun e f => e.order ≤ f.order
  replay : ∃ replayed, IsReplay a.group.records replayed a.group.identity.type ∧
    a.steps <+: settled replayed ∧ (finished → a.steps = settled replayed)

theorem follows_of_located {qsort : EntrySort} {dirs : List PendingEntry} {finished : Prop} {a : Application}
    (hlocated : a.group.Located host (qsort.sort dirs)) (hopened : host.groupOpen a.group.first = .opened)
    (hsteps : a.steps = (applyObject host a.group).1) (hfinished : finished → (applyObject host a.group).2 = none) :
    a.Follows host dirs finished := by
  have hobject : ∀ e ∈ a.group.records, e.identity = a.group.identity := by
    intro e he
    rw [hlocated.records_eq] at he
    exact of_decide_eq_true (mem_filter.mp he).2
  have hsorted : a.group.records.Pairwise fun e f => e.order ≤ f.order := by
    have hcompare : a.group.records.Pairwise fun e f => e.identityCompare f ≠ .gt := by
      rw [hlocated.records_eq]
      exact (qsort.sorted dirs).filter _
    refine hcompare.imp_of_mem ?_
    intro e f he hf hef
    exact PendingEntry.order_le_of_identity hef ((hobject e he).trans (hobject f hf).symm)
  obtain ⟨hbegins, hdone⟩ := applyObject_spec host a.group
  refine ⟨hopened, hlocated.live, hlocated.deepest, ?_, hsorted, ?_⟩
  · rw [hlocated.records_eq]
    exact (qsort.perm dirs).filter _
  · refine ⟨_, isReplay_replayFrom (ne_nil_of_mem hlocated.live.mem) hobject hsorted, ?_, ?_⟩
    · rw [hsteps]
      exact hbegins
    · intro h
      rw [hsteps]
      exact hdone (hfinished h)

end Bx.Archive
