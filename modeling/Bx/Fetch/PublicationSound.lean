import Bx.Fetch.Publication
import Bx.Kit.Comparison

/-!
# The publication map

A mapping offers a path with a priority for a URL, and the map holds the best offer for each URL.
-/

namespace Bx.Fetch
open List hiding get
open Kit Std

variable {failure : Failure} {calls : List (Call × Allocations)} {mappings : List Mapping}
variable {staged : List StagedMapping} {s : PublicationState}

theorem get_run (s : PublicationState) : (EStateM.get : PublicationM PublicationState) s = .ok s s := rfl

/-! ## Offers -/

abbrev Offer := Bytes × MappingPriority

def compareOffers (a b : Offer) : Ordering := (compare b.2.rank a.2.rank).then (compare a.1 b.1)

instance transCmp_compareOffers : TransCmp compareOffers :=
  have : TransCmp fun a b : Offer => compare a.2.rank b.2.rank :=
    inferInstanceAs (TransCmp (compareOn fun o : Offer => o.2.rank))
  have : TransCmp fun a b : Offer => compare b.2.rank a.2.rank := TransCmp.opposite
  inferInstanceAs (TransCmp (compareLex (fun a b : Offer => compare b.2.rank a.2.rank) (compareOn Prod.fst)))

theorem rank_inj {p q : MappingPriority} (h : p.rank = q.rank) : p = q := by
  cases p <;> cases q <;> first | rfl | cases h

instance lawfulEqCmp_compareOffers : LawfulEqCmp compareOffers where
  eq_of_compare {a b} h := by
    obtain ⟨hrank, hpath⟩ := Ordering.then_eq_eq.mp h
    have hpriority : a.2 = b.2 := (rank_inj (Nat.compare_eq_eq.mp hrank)).symm
    exact Prod.ext (LawfulEqOrd.eq_of_compare hpath) hpriority

def MappingNode.offer (node : MappingNode) : Offer := (node.localPath, node.priority)

theorem shouldReplaceMapping_iff (existing : MappingNode) (localPath : Bytes) (priority : MappingPriority) :
    shouldReplaceMapping existing localPath priority = true ↔ compareOffers (localPath, priority) existing.offer = .lt := by
  unfold shouldReplaceMapping compareOffers MappingNode.offer
  by_cases hsame : priority = existing.priority
  · rw [if_neg (not_not_intro hsame), hsame, Nat.compare_eq_eq.mpr rfl]
    exact beq_iff_eq
  · have hne : existing.priority.rank ≠ priority.rank := fun h => hsame (rank_inj h).symm
    rw [if_pos hsame, decide_eq_true_iff, Ordering.then_eq_lt, Nat.compare_eq_lt, Nat.compare_eq_eq]
    refine ⟨Or.inl, ?_⟩
    intro h
    cases h with
    | inl hlt => exact hlt
    | inr heq => exact absurd heq.1 hne

/-! ## The table and its counts -/

def MappingNode.bytes (node : MappingNode) : Nat := node.publicUrl.length + node.localPath.length

structure Counted (buckets : Buckets MappingNode) (counts : Nat × Nat) : Prop where
  table : IsTable MappingNode.publicUrl publicationHash buckets
  count : counts.1 = buckets.flatten.length
  bytes : counts.2 = (buckets.flatten.map MappingNode.bytes).sum

theorem bytes_le_sum {nodes : List MappingNode} {node : MappingNode} (h : node ∈ nodes) :
    node.bytes ≤ (nodes.map MappingNode.bytes).sum := by
  obtain ⟨before, after, rfl⟩ := append_of_mem h
  simp only [map_append, map_cons, sum_append, sum_cons]
  omega

def Consistent (s : PublicationState) : Prop := Counted s.mappingBuckets (s.mappingCount, s.mappingBytes)

theorem consistent_new : Consistent PublicationState.new := by
  refine ⟨⟨?_, nodup_nil⟩, rfl, rfl⟩
  intro i bucket hi
  cases hi

/-! ## Staging -/

section
variable {s : PublicationState} {publicUrl localPath : Bytes} {priority : MappingPriority} {allocated : Bool}
  {staged : StagedMapping}

/-- What a mapping is staged as: a new entry, or what is done to the entry that is there -/
inductive StagedAs (find : Option MappingNode) (publicUrl localPath : Bytes) (priority : MappingPriority)
    (staged : StagedMapping) : Prop
  | inserted : find = none → staged.insertion = some ⟨publicUrl, localPath, priority⟩ →
      staged.newPathLength = localPath.length → StagedAs find publicUrl localPath priority staged
  | kept (existing : MappingNode) : find = some existing →
      shouldReplaceMapping existing localPath priority = false → staged.insertion = none →
      staged.replacementPath = none → staged.existing = some existing → staged.updatePriority = false →
      StagedAs find publicUrl localPath priority staged
  | raised (existing : MappingNode) : find = some existing →
      shouldReplaceMapping existing localPath priority = true → existing.localPath = localPath →
      staged.insertion = none → staged.replacementPath = none → staged.existing = some existing →
      staged.updatePriority = true → staged.priority = priority → StagedAs find publicUrl localPath priority staged
  | replaced (existing : MappingNode) : find = some existing →
      shouldReplaceMapping existing localPath priority = true → staged.insertion = none →
      staged.replacementPath = some localPath → staged.existing = some existing → staged.priority = priority →
      staged.oldPathLength = existing.localPath.length → staged.newPathLength = localPath.length →
      StagedAs find publicUrl localPath priority staged

theorem rank_le_of_not_replace {existing : MappingNode} (h : shouldReplaceMapping existing localPath priority = false) :
    ¬existing.priority.rank < priority.rank := by
  intro hlt
  have hbetter : shouldReplaceMapping existing localPath priority = true := by
    apply (shouldReplaceMapping_iff existing localPath priority).mpr
    unfold compareOffers MappingNode.offer
    rw [Nat.compare_eq_lt.mpr hlt]
    rfl
  simp [h] at hbetter

theorem stagedAs_of_ok (h : stageMapping s publicUrl localPath priority allocated = .ok staged) :
    StagedAs (findPublicMapping s publicUrl) publicUrl localPath priority staged := by
  unfold stageMapping at h
  split at h
  · rename_i urlLength pathLength hurl hpath
    have hlength := (boundedLength_some hpath).1
    split at h
    · rename_i existing hfind
      rw [hfind]
      dsimp only at h
      cases hreplace : shouldReplaceMapping existing localPath priority with
      | false =>
        rw [hreplace] at h
        cases h
        exact .kept existing rfl hreplace rfl rfl rfl (decide_eq_false (rank_le_of_not_replace hreplace))
      | true =>
        rw [hreplace] at h
        by_cases hpathEq : existing.localPath = localPath
        · rw [if_neg (by decide), if_pos hpathEq] at h
          cases h
          exact .raised existing rfl hreplace hpathEq rfl rfl rfl rfl rfl
        · rw [if_neg (by decide), if_neg hpathEq] at h
          split at h
          · cases h
            exact .replaced existing rfl hreplace rfl rfl rfl rfl rfl hlength
          · cases h
    · rename_i hfind
      rw [hfind]
      split at h
      · cases h
        exact .inserted rfl rfl hlength
      · cases h
  · cases h

theorem stageMapping_error (h : stageMapping s publicUrl localPath priority allocated = .error failure) :
    failure = .exhausted := by
  unfold stageMapping at h
  split at h
  · split at h
    · dsimp only at h
      split at h
      · cases h
      · split at h
        · cases h
        · split at h
          · cases h
          · cases h
            rfl
    · split at h
      · cases h
      · cases h
        rfl
  · cases h
    rfl

end

theorem le_of_desiredBuckets {finalCount fuel desired result : Nat}
    (h : desiredBuckets finalCount fuel desired = some result) : desired ≤ result := by
  induction fuel generalizing desired with
  | zero => cases h
  | succ fuel ih =>
    unfold desiredBuckets at h
    split at h
    · split at h
      · cases h
      · exact Nat.le_trans (by omega) (ih h)
    · cases h
      exact le_rfl

structure Grown (s t : PublicationState) : Prop where
  same : t = { s with mappingBuckets := t.mappingBuckets }
  table : IsTable MappingNode.publicUrl publicationHash t.mappingBuckets
  perm : t.mappingBuckets.flatten.Perm s.mappingBuckets.flatten
  room : 0 < t.mappingBuckets.length

theorem ensureMappingCapacity_cases {finalCount : Nat} {allocated : Bool}
    (htable : IsTable MappingNode.publicUrl publicationHash s.mappingBuckets) :
    (∃ t, (ensureMappingCapacity finalCount allocated).run s = .ok () t ∧ Grown s t) ∨
      (ensureMappingCapacity finalCount allocated).run s = .error .exhausted s := by
  unfold ensureMappingCapacity
  simp only [EStateM.run, bind, EStateM.bind, get, getThe, MonadStateOf.get, get_run]
  cases hdesired : desiredBuckets finalCount 64 (if s.mappingBuckets.length = 0 then 16 else s.mappingBuckets.length) with
  | none => exact Or.inr rfl
  | some desired =>
    have hle := le_of_desiredBuckets hdesired
    have hpos : 0 < desired := by
      split at hle <;> omega
    dsimp only
    split
    · rename_i hsame
      exact Or.inl ⟨s, rfl, rfl, htable, List.Perm.refl _, hsame ▸ hpos⟩
    · split
      · exact Or.inr rfl
      · obtain ⟨hrehash, hlength, hperm⟩ := rehash_spec htable hpos
        exact Or.inl ⟨_, rfl, rfl, hrehash, hperm, hlength.symm ▸ hpos⟩

/-! ## Committing -/

def lookupOffer (s : PublicationState) (publicUrl : Bytes) : Option Offer :=
  (findPublicMapping s publicUrl).map MappingNode.offer

variable {t : PublicationState}

theorem findPublicMapping_grown (htable : IsTable MappingNode.publicUrl publicationHash s.mappingBuckets) (h : Grown s t) (publicUrl : Bytes) :
    findPublicMapping t publicUrl = findPublicMapping s publicUrl :=
  findEntry_of_perm htable h.table h.perm publicUrl

structure Committed (g t : PublicationState) (counts : Nat × Nat) (publicUrl : Bytes) (offer : Offer) : Prop where
  same : t = { g with mappingBuckets := t.mappingBuckets }
  counted : Counted t.mappingBuckets counts
  room : 0 < t.mappingBuckets.length
  others : ∀ url, url ≠ publicUrl → findPublicMapping t url = findPublicMapping g url
  offered : lookupOffer t publicUrl = keepLeast compareOffers (lookupOffer g publicUrl) offer

section
variable {g : PublicationState} {counts counts' : Nat × Nat} {publicUrl localPath : Bytes} {priority : MappingPriority}
  {staged : StagedMapping} (hcounted : Counted g.mappingBuckets counts) (hroom : 0 < g.mappingBuckets.length)
include hcounted hroom

theorem committed_insertion (hfind : findPublicMapping g publicUrl = none)
    (hstaged : staged.insertion = some ⟨publicUrl, localPath, priority⟩) (hlength : staged.newPathLength = localPath.length)
    (hreserve : reserveStaged counts staged = .ok counts') :
    Committed g (commitStagedMapping g staged) counts' publicUrl (localPath, priority) := by
  have hnew : ∀ b ∈ g.mappingBuckets.flatten, b.publicUrl ≠ publicUrl :=
    (findEntry_eq_none_iff hcounted.table).mp hfind
  have hcounts : counts' = (counts.1 + 1, counts.2 + (publicUrl.length + localPath.length)) := by
    unfold reserveStaged at hreserve
    rw [hstaged, hlength] at hreserve
    dsimp only at hreserve
    split at hreserve
    · cases hreserve
    · exact (Except.ok.inj hreserve).symm
  have hcommit : commitStagedMapping g staged = { g with
        mappingBuckets :=
          pushEntry MappingNode.publicUrl publicationHash g.mappingBuckets ⟨publicUrl, localPath, priority⟩ } := by
    unfold commitStagedMapping
    rw [hstaged]
  have hpush := @pushEntry_perm _ _ MappingNode.publicUrl publicationHash _ hroom ⟨publicUrl, localPath, priority⟩
  have hlookup : ∀ url, findPublicMapping (commitStagedMapping g staged) url =
      if publicUrl = url then some ⟨publicUrl, localPath, priority⟩ else findPublicMapping g url := by
    intro url
    rw [hcommit]
    exact findEntry_pushEntry hcounted.table hroom hnew url
  refine ⟨?_, ⟨?_, ?_, ?_⟩, ?_, ?_, ?_⟩
  · rw [hcommit]
  · rw [hcommit]
    exact isTable_pushEntry hcounted.table hroom hnew
  · rw [hcommit, hcounts, hpush.length_eq, hcounted.count]
    rfl
  · rw [hcommit, hcounts, (hpush.map MappingNode.bytes).sum_nat, map_cons, sum_cons, hcounted.bytes]
    exact add_comm _ _
  · rw [hcommit, length_pushEntry]
    exact hroom
  · intro url hurl
    rw [hlookup, if_neg (Ne.symm hurl)]
  · unfold lookupOffer
    rw [hlookup, if_pos rfl, hfind]
    rfl

theorem committed_update {existing : MappingNode} {f : MappingNode → MappingNode}
    (hkey : ∀ node, (f node).publicUrl = node.publicUrl) (hfind : findPublicMapping g publicUrl = some existing)
    (hcommit : t = { g with mappingBuckets := updateEntry MappingNode.publicUrl g.mappingBuckets existing.publicUrl f })
    (hcount : counts'.1 = counts.1) (hbytes : counts'.2 + existing.bytes = counts.2 + (f existing).bytes)
    (hoffer : (f existing).offer = (localPath, priority))
    (hbetter : compareOffers (localPath, priority) existing.offer = .lt) :
    Committed g t counts' publicUrl (localPath, priority) := by
  obtain ⟨hmem, hurl⟩ := (findEntry_eq_some_iff hcounted.table).mp hfind
  have hlookup : ∀ url, findPublicMapping t url =
      if url = existing.publicUrl then (findPublicMapping g url).map f else findPublicMapping g url := by
    intro url
    rw [hcommit]
    exact findEntry_updateEntry hkey hcounted.table existing.publicUrl url
  have hsum := sum_updateEntry MappingNode.bytes f hcounted.table hmem
  refine ⟨?_, ⟨?_, ?_, ?_⟩, ?_, ?_, ?_⟩
  · rw [hcommit]
  · rw [hcommit]
    exact isTable_updateEntry hkey hcounted.table existing.publicUrl
  · rw [hcommit, flatten_updateEntry, length_map, hcount, hcounted.count]
  · rw [hcommit]
    have hold := hcounted.bytes
    dsimp only
    omega
  · rw [hcommit, length_updateEntry]
    exact hroom
  · intro url hne
    rw [hlookup, if_neg (hurl ▸ hne)]
  · unfold lookupOffer
    rw [hlookup, if_pos hurl.symm, hfind]
    simp only [Option.map_some, keepLeast, hbetter, if_pos, hoffer]

theorem committed_of_staged (hstaged : StagedAs (findPublicMapping g publicUrl) publicUrl localPath priority staged)
    (hreserve : reserveStaged counts staged = .ok counts') :
    Committed g (commitStagedMapping g staged) counts' publicUrl (localPath, priority) := by
  cases hstaged with
  | inserted hfind hinsertion hlength => exact committed_insertion hcounted hroom hfind hinsertion hlength hreserve
  | kept existing hfind hreplace hinsertion hpath hexisting hraise =>
    have hcommit : commitStagedMapping g staged = g := by
      unfold commitStagedMapping
      rw [hinsertion, hexisting, hpath, hraise]
      rfl
    have hcounts : counts' = counts := by
      unfold reserveStaged at hreserve
      rw [hinsertion, hpath] at hreserve
      exact (Except.ok.inj hreserve).symm
    have hworse : compareOffers (localPath, priority) existing.offer ≠ .lt := by
      intro hlt
      simp [(shouldReplaceMapping_iff existing localPath priority).mpr hlt] at hreplace
    rw [hcommit, hcounts]
    refine ⟨rfl, hcounted, hroom, fun _ _ => rfl, ?_⟩
    unfold lookupOffer
    rw [hfind]
    simp only [Option.map_some, keepLeast, if_neg hworse]
  | raised existing hfind hreplace hsame hinsertion hpath hexisting hraise hpriority =>
    have hcounts : counts' = counts := by
      unfold reserveStaged at hreserve
      rw [hinsertion, hpath] at hreserve
      exact (Except.ok.inj hreserve).symm
    apply committed_update (f := fun node => { node with priority := priority }) hcounted hroom (fun _ => rfl) hfind
    · unfold commitStagedMapping
      rw [hinsertion, hexisting, hpath, hraise, hpriority]
      rfl
    · rw [hcounts]
    · rw [hcounts]
      rfl
    · rw [← hsame]
      rfl
    · exact (shouldReplaceMapping_iff existing localPath priority).mp hreplace
  | replaced existing hfind hreplace hinsertion hpath hexisting hpriority hold hnew =>
    obtain ⟨hmem, _⟩ := (findEntry_eq_some_iff hcounted.table).mp hfind
    have hcounts : counts'.1 = counts.1 ∧ counts'.2 + existing.localPath.length = counts.2 + localPath.length := by
      unfold reserveStaged at hreserve
      rw [hinsertion, hpath, hold, hnew] at hreserve
      dsimp only at hreserve
      rw [if_pos Option.isSome_some] at hreserve
      split at hreserve
      · cases hreserve
      · split at hreserve
        · cases hreserve
        · have heq := Except.ok.inj hreserve
          rw [← heq]
          refine ⟨rfl, ?_⟩
          dsimp only
          omega
    apply committed_update (f := fun node => { node with localPath := localPath, priority := priority }) hcounted hroom
      (fun _ => rfl) hfind
    · unfold commitStagedMapping
      rw [hinsertion, hexisting, hpath, hpriority]
    · exact hcounts.1
    · unfold MappingNode.bytes
      dsimp only
      omega
    · rfl
    · exact (shouldReplaceMapping_iff existing localPath priority).mp hreplace

omit hroom in
theorem reserveStaged_error (hstaged : StagedAs (findPublicMapping g publicUrl) publicUrl localPath priority staged)
    (h : reserveStaged counts staged = .error failure) : failure = .exhausted := by
  unfold reserveStaged at h
  cases hstaged with
  | inserted hfind hinsertion hlength =>
    rw [hinsertion] at h
    dsimp only at h
    split at h
    · cases h
      rfl
    · cases h
  | kept existing hfind hreplace hinsertion hpath hexisting hraise => simp [hinsertion, hpath] at h
  | raised existing hfind hreplace hsame hinsertion hpath hexisting hraise hpriority =>
    simp [hinsertion, hpath] at h
  | replaced existing hfind hreplace hinsertion hpath hexisting hpriority hold hnew =>
    have hmem := ((findEntry_eq_some_iff hcounted.table).mp hfind).1
    have hle : existing.localPath.length ≤ counts.2 := by
      rw [hcounted.bytes]
      apply Nat.le_trans (Nat.le_add_left _ existing.publicUrl.length)
      exact bytes_le_sum hmem
    rw [hinsertion, hpath, hold] at h
    dsimp only at h
    rw [if_pos Option.isSome_some, if_neg (Nat.not_lt.mpr hle)] at h
    split at h
    · cases h
      rfl
    · cases h

end

/-! ## Several mappings at once -/

structure Mapping where
  publicUrl : Bytes
  offer : Offer

def StagedFrom (s : PublicationState) (mapping : Mapping) (staged : StagedMapping) : Prop :=
  ∃ allocated, stageMapping s mapping.publicUrl mapping.offer.1 mapping.offer.2 allocated = .ok staged

def offersFor (url : Bytes) (mappings : List Mapping) : List Offer :=
  mappings.filterMap fun mapping => if mapping.publicUrl = url then some mapping.offer else none

theorem offersFor_append (url : Bytes) (a b : List Mapping) : offersFor url (a ++ b) = offersFor url a ++ offersFor url b :=
  filterMap_append

structure CommittedAll (g t : PublicationState) (counts : Nat × Nat) (mappings : List Mapping) : Prop where
  same : t = { g with mappingBuckets := t.mappingBuckets }
  counted : Counted t.mappingBuckets counts
  offered : ∀ url, lookupOffer t url = (offersFor url mappings).foldl (keepLeast compareOffers) (lookupOffer g url)

variable {g : PublicationState}

theorem committedAll {counts counts' : Nat × Nat}
    (hcounted : Counted g.mappingBuckets counts) (hroom : 0 < g.mappingBuckets.length)
    (hstaged : List.Forall₂ (StagedFrom s) mappings staged) (hdistinct : (mappings.map Mapping.publicUrl).Nodup)
    (hfind : ∀ mapping ∈ mappings, findPublicMapping g mapping.publicUrl = findPublicMapping s mapping.publicUrl)
    (hreserve : staged.foldlM reserveStaged counts = .ok counts') :
    CommittedAll g (staged.foldl commitStagedMapping g) counts' mappings := by
  induction hstaged generalizing g counts with
  | nil =>
    cases hreserve
    exact ⟨rfl, hcounted, fun _ => rfl⟩
  | @cons mapping first mappings rest hfirst hrest ih =>
    obtain ⟨allocated, hstage⟩ := hfirst
    obtain ⟨between, hone, hmore⟩ := bind_ok hreserve
    rw [map_cons, nodup_cons] at hdistinct
    have has := stagedAs_of_ok hstage
    rw [← hfind mapping mem_cons_self] at has
    have hcommitted := committed_of_staged hcounted hroom has hone
    have hnext : ∀ other ∈ mappings, findPublicMapping (commitStagedMapping g first) other.publicUrl =
        findPublicMapping s other.publicUrl := by
      intro other hother
      have hne : other.publicUrl ≠ mapping.publicUrl := by
        intro heq
        exact hdistinct.1 (heq ▸ mem_map_of_mem hother)
      rw [hcommitted.others _ hne]
      exact hfind other (mem_cons_of_mem _ hother)
    obtain ⟨hsame, hcounted', hoffered⟩ := ih hcommitted.counted hcommitted.room hdistinct.2 hnext hmore
    refine ⟨?_, hcounted', ?_⟩
    · rw [foldl_cons, hsame, hcommitted.same]
    · intro url
      rw [foldl_cons, hoffered url]
      unfold offersFor
      by_cases hurl : mapping.publicUrl = url
      · rw [filterMap_cons, if_pos hurl, ← hurl, hcommitted.offered]
        rfl
      · have hkeep : lookupOffer (commitStagedMapping g first) url = lookupOffer g url := by
          unfold lookupOffer
          rw [hcommitted.others url (Ne.symm hurl)]
        rw [filterMap_cons, if_neg hurl, hkeep]

theorem reservation_error {counts : Nat × Nat}
    (hcounted : Counted g.mappingBuckets counts) (hroom : 0 < g.mappingBuckets.length)
    (hstaged : List.Forall₂ (StagedFrom s) mappings staged) (hdistinct : (mappings.map Mapping.publicUrl).Nodup)
    (hfind : ∀ mapping ∈ mappings, findPublicMapping g mapping.publicUrl = findPublicMapping s mapping.publicUrl)
    (hreserve : staged.foldlM reserveStaged counts = .error failure) : failure = .exhausted := by
  induction hstaged generalizing g counts with
  | nil => cases hreserve
  | @cons mapping first mappings rest hfirst hrest ih =>
    obtain ⟨allocated, hstage⟩ := hfirst
    rw [map_cons, nodup_cons] at hdistinct
    have has := stagedAs_of_ok hstage
    rw [← hfind mapping mem_cons_self] at has
    rw [foldlM_cons] at hreserve
    cases hone : reserveStaged counts first with
    | error failure' =>
      rw [hone] at hreserve
      cases hreserve
      exact reserveStaged_error hcounted has hone
    | ok between =>
      rw [hone] at hreserve
      have hcommitted := committed_of_staged hcounted hroom has hone
      apply ih hcommitted.counted hcommitted.room hdistinct.2 _ hreserve
      intro other hother
      have hne : other.publicUrl ≠ mapping.publicUrl := by
        intro heq
        exact hdistinct.1 (heq ▸ mem_map_of_mem hother)
      rw [hcommitted.others _ hne]
      exact hfind other (mem_cons_of_mem _ hother)

section
variable {s : PublicationState} {counts : Nat × Nat} {mappings : List Mapping} {staged : List StagedMapping}
  (hs : Consistent s) (hstaged : List.Forall₂ (StagedFrom s) mappings staged)
  (hdistinct : (mappings.map Mapping.publicUrl).Nodup)
include hs hstaged hdistinct

theorem transaction_ok {grown : PublicationState} (hreserve : mappingReservation s staged = .ok counts)
    (hgrown : Grown s grown) :
    Consistent (commitAll grown staged counts) ∧ ∀ url, lookupOffer (commitAll grown staged counts) url =
      (offersFor url mappings).foldl (keepLeast compareOffers) (lookupOffer s url) := by
  have hcounted : Counted grown.mappingBuckets (s.mappingCount, s.mappingBytes) := by
    refine ⟨hgrown.table, ?_, ?_⟩
    · rw [hs.count, hgrown.perm.length_eq]
    · rw [hs.bytes, (hgrown.perm.map MappingNode.bytes).sum_nat]
  have hfind := findPublicMapping_grown hs.table hgrown
  have hall := committedAll hcounted hgrown.room hstaged hdistinct (fun mapping _ => hfind mapping.publicUrl) hreserve
  refine ⟨hall.counted, ?_⟩
  intro url
  have hlookup : lookupOffer grown url = lookupOffer s url := by
    unfold lookupOffer
    rw [hfind]
  rw [← hlookup]
  exact hall.offered url

theorem transaction_error (hreserve : mappingReservation s staged = .error failure) : failure = .exhausted := by
  obtain ⟨hrehash, hlength, hperm⟩ := rehash_spec hs.table Nat.one_pos
  have hcounted : Counted (rehash MappingNode.publicUrl publicationHash s.mappingBuckets 1)
      (s.mappingCount, s.mappingBytes) := by
    refine ⟨hrehash, ?_, ?_⟩
    · rw [hs.count, hperm.length_eq]
    · rw [hs.bytes, (hperm.map MappingNode.bytes).sum_nat]
  apply reservation_error
    (g := { s with mappingBuckets := rehash MappingNode.publicUrl publicationHash s.mappingBuckets 1 }) hcounted
    (hlength.symm ▸ Nat.one_pos) hstaged hdistinct _ hreserve
  intro mapping _
  exact findEntry_of_perm hs.table hrehash hperm mapping.publicUrl

end

/-! ## Calls -/

/-- What one attempt does: it goes through and makes its offers, or it runs into a limit and leaves the state. -/
inductive Attempt (s : PublicationState) (mappings : List Mapping) : EStateM.Result Failure PublicationState Unit → Prop
  | done (t : PublicationState) : Consistent t →
      (∀ url, lookupOffer t url = (offersFor url mappings).foldl (keepLeast compareOffers) (lookupOffer s url)) →
      Attempt s mappings (.ok () t)
  | exhausted : Attempt s mappings (.error .exhausted s)

theorem attempt_commitReserved (hs : Consistent s) (hstaged : List.Forall₂ (StagedFrom s) mappings staged)
    (hdistinct : (mappings.map Mapping.publicUrl).Nodup) (allocated : Bool) :
    Attempt s mappings ((commitReserved staged allocated).run s) := by
  unfold commitReserved
  simp only [EStateM.run, bind, EStateM.bind, get, getThe, MonadStateOf.get, get_run]
  cases hreserve : mappingReservation s staged with
  | error failure =>
    rw [transaction_error hs hstaged hdistinct hreserve]
    exact .exhausted
  | ok counts =>
    have hgrow := @ensureMappingCapacity_cases s counts.1 allocated hs.table
    unfold EStateM.run at hgrow
    simp only [ofExcept, pure, EStateM.pure]
    cases hgrow with
    | inl h =>
      obtain ⟨grown, hrun, hgrown⟩ := h
      rw [hrun]
      obtain ⟨hconsistent, hoffered⟩ := transaction_ok hs hstaged hdistinct hreserve hgrown
      exact .done _ hconsistent hoffered
    | inr h =>
      rw [h]
      exact .exhausted

theorem attempt_then {x : PublicationM Unit}
    (h : Attempt s mappings (x.run s)) {finish : PublicationState → PublicationState}
    (hfinish : ∀ t, (finish t).mappingBuckets = t.mappingBuckets ∧ (finish t).mappingCount = t.mappingCount ∧
      (finish t).mappingBytes = t.mappingBytes) :
    Attempt s mappings ((x >>= fun _ => modify finish).run s) := by
  simp only [EStateM.run, bind, EStateM.bind] at h ⊢
  cases hrun : x s with
  | error failure t =>
    rw [hrun] at h
    exact h
  | ok _ t =>
    rw [hrun] at h
    cases h with
    | done _ hconsistent hoffered =>
      obtain ⟨hbuckets, hcount, hbytes⟩ := hfinish t
      refine .done (finish t) ?_ ?_
      · unfold Consistent
        rw [hbuckets, hcount, hbytes]
        exact hconsistent
      · intro url
        rw [← hoffered url]
        unfold lookupOffer findPublicMapping
        rw [hbuckets]

theorem attempt_addPublicMapping (hs : Consistent s) (publicUrl localPath : Bytes)
    (priority : MappingPriority) (allocated tableAllocated : Bool) :
    Attempt s [⟨publicUrl, localPath, priority⟩]
      ((addPublicMapping publicUrl localPath priority allocated tableAllocated).run s) := by
  unfold addPublicMapping
  simp only [EStateM.run, bind, EStateM.bind, get, getThe, MonadStateOf.get, get_run]
  cases hstage : stageMapping s publicUrl localPath priority allocated with
  | error failure =>
    rw [stageMapping_error hstage]
    exact .exhausted
  | ok staged =>
    have hdistinct : ([⟨publicUrl, localPath, priority⟩].map Mapping.publicUrl).Nodup := nodup_singleton _
    have hfirst : StagedFrom s ⟨publicUrl, localPath, priority⟩ staged := ⟨allocated, hstage⟩
    exact attempt_commitReserved hs (.cons hfirst .nil) hdistinct tableAllocated

def completionMappings (requestUrl effectiveUrl localPath : Bytes) : List Mapping :=
  if requestUrl = effectiveUrl then [⟨requestUrl, localPath, .direct⟩]
  else [⟨requestUrl, localPath, .direct⟩, ⟨effectiveUrl, localPath, .redirect⟩]

theorem nodup_completionMappings (requestUrl effectiveUrl localPath : Bytes) :
    ((completionMappings requestUrl effectiveUrl localPath).map Mapping.publicUrl).Nodup := by
  unfold completionMappings
  by_cases hsame : requestUrl = effectiveUrl
  · rw [if_pos hsame]
    exact nodup_singleton _
  · rw [if_neg hsame]
    simpa using hsame

theorem attempt_recordMappings (hs : Consistent s) (completion : TransferCompletion)
    (requestUrl effectiveUrl : Bytes) (allocations : Allocations) :
    Attempt s (completionMappings requestUrl effectiveUrl completion.outputPath)
      ((recordMappings completion requestUrl effectiveUrl allocations).run s) := by
  have hnodup := nodup_completionMappings requestUrl effectiveUrl completion.outputPath
  unfold recordMappings
  simp only [EStateM.run, bind, EStateM.bind, get, getThe, MonadStateOf.get, get_run]
  cases hurl : boundedLength effectiveUrl urlMaxBytes with
  | none => exact .exhausted
  | some urlLength =>
    cases hpath : boundedLength completion.outputPath urlMapMaxFieldBytes with
    | none => exact .exhausted
    | some pathLength =>
      dsimp only
      by_cases hreserve : canReserve s.downloadCount s.downloadBytes 1 (urlLength + pathLength) urlStateMaxEntries
          urlStateMaxBytes = true
      · have hroom : (!canReserve s.downloadCount s.downloadBytes 1 (urlLength + pathLength) urlStateMaxEntries
            urlStateMaxBytes) = false := by rw [hreserve]; rfl
        cases hdownload : allocations.download with
        | false =>
          simp only [hroom]
          exact .exhausted
        | true =>
          simp only [hroom]
          cases hdirect : stageMapping s requestUrl completion.outputPath .direct allocations.direct with
          | error failure =>
            rw [stageMapping_error hdirect]
            exact .exhausted
          | ok direct =>
            have hfirst : StagedFrom s ⟨requestUrl, completion.outputPath, .direct⟩ direct := ⟨_, hdirect⟩
            unfold completionMappings at hnodup ⊢
            by_cases hsame : requestUrl = effectiveUrl
            · rw [if_pos hsame] at hnodup ⊢
              simp only [if_pos hsame]
              have hcommit := attempt_commitReserved hs (.cons hfirst .nil) hnodup allocations.table
              exact attempt_then hcommit fun _ => ⟨rfl, rfl, rfl⟩
            · rw [if_neg hsame] at hnodup ⊢
              cases hredirect : stageMapping s effectiveUrl completion.outputPath .redirect allocations.redirect with
              | error failure =>
                rw [stageMapping_error hredirect]
                simp only [if_neg hsame]
                exact .exhausted
              | ok redirect =>
                have hsecond : StagedFrom s ⟨effectiveUrl, completion.outputPath, .redirect⟩ redirect := ⟨_, hredirect⟩
                simp only [if_neg hsame]
                have hcommit := attempt_commitReserved hs (.cons hfirst (.cons hsecond .nil)) hnodup allocations.table
                exact attempt_then hcommit fun _ => ⟨rfl, rfl, rfl⟩
      · have hfull : (!canReserve s.downloadCount s.downloadBytes 1 (urlLength + pathLength) urlStateMaxEntries
            urlStateMaxBytes) = true := by simpa using hreserve
        simp only [hfull, if_pos]
        exact .exhausted

def offersOf : Call → List Mapping
  | .completion completion =>
    if completionCanPublish completion then
      match completion.requestUrl with
      | none => []
      | some requestUrl =>
        completionMappings requestUrl (completion.effectiveTarget.getD requestUrl) completion.outputPath
    else []
  | .recovered recovered =>
    match recovered.recovery with
    | .present displayUrl => [⟨displayUrl, recovered.localPath, recovered.priority⟩]
    | _ => []

structure Published (s : PublicationState) (mappings : List Mapping) (outcome : PublicationState × PublicationResult) :
    Prop where
  consistent : Consistent outcome.1
  unchanged : ∀ failure, outcome.2 = .failed failure → outcome.1 = s
  offered : outcome.2 ≠ .failed .exhausted → ∀ url,
    lookupOffer outcome.1 url = (offersFor url mappings).foldl (keepLeast compareOffers) (lookupOffer s url)

theorem published_of_attempt (hs : Consistent s)
    {outcome : EStateM.Result Failure PublicationState Unit} (h : Attempt s mappings outcome) :
    Published s mappings (resultOf outcome) := by
  cases h with
  | done t hconsistent hoffered =>
    refine ⟨hconsistent, ?_, fun _ => hoffered⟩
    intro failure hfailed
    cases hfailed
  | exhausted => exact ⟨hs, fun _ _ => rfl, fun hlimit => absurd rfl hlimit⟩

theorem published_nothing (hs : Consistent s) (result : PublicationResult) : Published s [] (s, result) :=
  ⟨hs, fun _ _ => rfl, fun _ _ => rfl⟩

theorem published_publish (hs : Consistent s) (call : Call) (allocations : Allocations) :
    Published s (offersOf call) (publish s call allocations) := by
  cases call with
  | completion completion =>
    unfold publish recordCompletion offersOf
    dsimp only
    cases hpublish : completionCanPublish completion with
    | false => exact published_nothing hs .skipped
    | true =>
      simp only [Bool.not_true, Bool.false_eq_true, if_false, if_true]
      cases completion.requestUrl with
      | none => exact published_nothing hs (.failed .invalid)
      | some requestUrl => exact published_of_attempt hs (attempt_recordMappings hs completion _ _ allocations)
  | recovered recovered =>
    unfold publish loadRecoveredMapping offersOf
    dsimp only
    cases recovered.recovery with
    | refused => exact published_nothing hs (.failed .invalid)
    | missing => exact published_nothing hs .skipped
    | present displayUrl => exact published_of_attempt hs (attempt_addPublicMapping hs _ _ _ _ _)

/-! ## Runs -/

def runPublish (s : PublicationState) (calls : List (Call × Allocations)) : PublicationState :=
  calls.foldl (fun t call => (publish t call.1 call.2).1) s

def Unlimited (s : PublicationState) : List (Call × Allocations) → Prop
  | [] => True
  | call :: rest =>
    (publish s call.1 call.2).2 ≠ .failed .exhausted ∧ Unlimited (publish s call.1 call.2).1 rest

theorem consistent_runPublish (hs : Consistent s) (calls : List (Call × Allocations)) :
    Consistent (runPublish s calls) := by
  induction calls generalizing s with
  | nil => exact hs
  | cons call rest ih => exact ih (published_publish hs call.1 call.2).consistent

def offersOfAll (calls : List (Call × Allocations)) : List Mapping := calls.flatMap fun call => offersOf call.1

theorem lookupOffer_runPublish (hs : Consistent s)
    (hunlimited : Unlimited s calls) (url : Bytes) : lookupOffer (runPublish s calls) url =
      (offersFor url (offersOfAll calls)).foldl (keepLeast compareOffers) (lookupOffer s url) := by
  induction calls generalizing s with
  | nil => rfl
  | cons call rest ih =>
    obtain ⟨hfirst, hrest⟩ := hunlimited
    have hpublished := published_publish hs call.1 call.2
    have hrun : runPublish s (call :: rest) = runPublish (publish s call.1 call.2).1 rest := rfl
    have hoffers : offersOfAll (call :: rest) = offersOf call.1 ++ offersOfAll rest := flatMap_cons
    rw [hrun, ih hpublished.consistent hrest, hpublished.offered hfirst, hoffers, offersFor_append, foldl_append]

theorem lookupOffer_eq_leastOf (hunlimited : Unlimited .new calls) (url : Bytes) :
    lookupOffer (runPublish .new calls) url = leastOf compareOffers (offersFor url (offersOfAll calls)) := by
  rw [lookupOffer_runPublish consistent_new hunlimited]
  rfl

/-! ## Recovered mappings -/

def recoveredCalls (mappings : List (RecoveredMapping × Allocations)) : List (Call × Allocations) :=
  mappings.map fun mapping => (.recovered mapping.1, mapping.2)

theorem loadRecovered_done {candidate loaded : PublicationState} {mappings : List (RecoveredMapping × Allocations)}
    (h : loadRecovered candidate mappings = (loaded, true)) :
    loaded = runPublish candidate (recoveredCalls mappings) ∧ Unlimited candidate (recoveredCalls mappings) := by
  induction mappings generalizing candidate with
  | nil =>
    cases h
    exact ⟨rfl, trivial⟩
  | cons mapping rest ih =>
    have hpublish : publish candidate (.recovered mapping.1) mapping.2 =
        loadRecoveredMapping candidate mapping.1 mapping.2 := rfl
    unfold loadRecovered at h
    split at h
    · cases h
    · rename_i next result hnot hload
      obtain ⟨hloaded, hrest⟩ := ih h
      have hstep : publish candidate (.recovered mapping.1) mapping.2 = (next, result) := hload
      have hnext : (publish candidate (.recovered mapping.1) mapping.2).1 = next := by rw [hstep]
      have hok : (publish candidate (.recovered mapping.1) mapping.2).2 ≠ .failed .exhausted := by
        rw [hstep]
        intro hfailed
        exact hnot _ hfailed
      refine ⟨?_, hok, ?_⟩
      · rw [hloaded, ← hnext]
        rfl
      · rw [← hnext] at hrest
        exact hrest

theorem loadPersistedMappings_cases (s : PublicationState) (convertLinks : Bool) (source : RecoverySource) :
    (loadPersistedMappings s convertLinks source).1 = s ∧ (loadPersistedMappings s convertLinks source).2 ≠ .recorded ∨
      (loadPersistedMappings s convertLinks source).2 = .recorded ∧ ∃ loaded,
        loadRecovered .new source.mappings = (loaded, true) ∧
        (loadPersistedMappings s convertLinks source).1 =
          { s with mappingBuckets := loaded.mappingBuckets, mappingCount := loaded.mappingCount,
                   mappingBytes := loaded.mappingBytes } := by
  unfold loadPersistedMappings
  split
  · exact Or.inl ⟨rfl, PublicationResult.noConfusion⟩
  · split
    · exact Or.inl ⟨rfl, PublicationResult.noConfusion⟩
    · cases hloaded : loadRecovered PublicationState.new source.mappings with
      | mk loaded done =>
        dsimp only
        split
        · exact Or.inl ⟨rfl, PublicationResult.noConfusion⟩
        · rename_i hcomplete
          cases done with
          | false => exact absurd rfl hcomplete
          | true => exact Or.inr ⟨rfl, loaded, rfl, rfl⟩

theorem loadPersistedMappings_recorded {convertLinks : Bool} {source : RecoverySource}
    (h : (loadPersistedMappings s convertLinks source).2 = .recorded) :
    Unlimited .new (recoveredCalls source.mappings) ∧ Consistent (loadPersistedMappings s convertLinks source).1 ∧
      ∀ url, lookupOffer (loadPersistedMappings s convertLinks source).1 url =
        lookupOffer (runPublish .new (recoveredCalls source.mappings)) url := by
  cases loadPersistedMappings_cases s convertLinks source with
  | inl hleft => exact absurd h hleft.2
  | inr htaken =>
    obtain ⟨_, loaded, hloaded, hstate⟩ := htaken
    obtain ⟨hrun, hunlimited⟩ := loadRecovered_done hloaded
    have hconsistent := consistent_runPublish consistent_new (recoveredCalls source.mappings)
    rw [hstate]
    rw [← hrun] at hconsistent ⊢
    exact ⟨hunlimited, hconsistent, fun _ => rfl⟩

inductive Reachable : PublicationState → Prop
  | new : Reachable .new
  | published {s : PublicationState} (call : Call) (allocations : Allocations) :
      Reachable s → Reachable (publish s call allocations).1
  | loaded {s : PublicationState} (convertLinks : Bool) (source : RecoverySource) :
      Reachable s → Reachable (loadPersistedMappings s convertLinks source).1

theorem consistent_of_reachable (h : Reachable s) : Consistent s := by
  induction h with
  | new => exact consistent_new
  | published call allocations _ ih => exact (published_publish ih call allocations).consistent
  | @loaded s convertLinks source _ ih =>
    cases loadPersistedMappings_cases s convertLinks source with
    | inl hleft =>
      rw [hleft.1]
      exact ih
    | inr htaken => exact (loadPersistedMappings_recorded htaken.1).2.1

/-! ## The map -/

/-- One of the offers, with the highest priority and, among those, the smallest path -/
def BestOffer (offers : List Offer) (offer : Offer) : Prop :=
  offer ∈ offers ∧ ∀ other ∈ offers,
    other.2.rank < offer.2.rank ∨ other.2 = offer.2 ∧ (compare offer.1 other.1).isLE = true

theorem isLE_compareOffers_iff (a b : Offer) :
    (compareOffers a b).isLE = true ↔ b.2.rank < a.2.rank ∨ b.2 = a.2 ∧ (compare a.1 b.1).isLE = true := by
  unfold compareOffers
  rw [Ordering.isLE_then_iff_or, Nat.compare_eq_lt, Nat.compare_eq_eq]
  refine ⟨?_, ?_⟩
  · intro h
    cases h with
    | inl hlt => exact Or.inl hlt
    | inr heq => exact Or.inr ⟨rank_inj heq.1, heq.2⟩
  · intro h
    cases h with
    | inl hlt => exact Or.inl hlt
    | inr heq => exact Or.inr ⟨congrArg _ heq.1, heq.2⟩

theorem lookupOffer_eq_some_iff (hunlimited : Unlimited .new calls) (url : Bytes)
    (offer : Offer) : lookupOffer (runPublish .new calls) url = some offer ↔
      BestOffer (offersFor url (offersOfAll calls)) offer := by
  rw [lookupOffer_eq_leastOf hunlimited, leastOf_eq_some_iff]
  unfold BestOffer
  simp only [isLE_compareOffers_iff]

theorem offersFor_perm {calls' : List (Call × Allocations)}
    (h : (calls.map Prod.fst).Perm (calls'.map Prod.fst)) (url : Bytes) :
    (offersFor url (offersOfAll calls)).Perm (offersFor url (offersOfAll calls')) := by
  have hall : ∀ l : List (Call × Allocations), offersOfAll l = (l.map Prod.fst).flatMap offersOf := by
    intro l
    unfold offersOfAll
    rw [flatMap_map]
  rw [hall, hall]
  exact (h.flatMap_right offersOf).filterMap _

theorem bestOffer_perm {offers offers' : List Offer} (h : offers.Perm offers') (offer : Offer) :
    BestOffer offers offer ↔ BestOffer offers' offer := by
  unfold BestOffer
  simp only [h.mem_iff]

def Accounted (s : PublicationState) : Prop :=
  (s.mappingBuckets.flatten.map MappingNode.publicUrl).Nodup ∧ s.mappingCount = s.mappingBuckets.flatten.length ∧
    s.mappingBytes = (s.mappingBuckets.flatten.map fun node => node.publicUrl.length + node.localPath.length).sum ∧
    ∀ node ∈ s.mappingBuckets.flatten, ∀ (displaySafe : Bytes → Option Bytes) (url : Bytes),
      displaySafe url = some node.publicUrl → lookup displaySafe s url = some (node.localPath, node.priority)

theorem accounted_of_consistent (hs : Consistent s) : Accounted s := by
  refine ⟨hs.table.nodup, hs.count, hs.bytes, ?_⟩
  intro node hnode displaySafe url hurl
  have hfind : findPublicMapping s node.publicUrl = some node :=
    (findEntry_eq_some_iff hs.table).mpr ⟨hnode, rfl⟩
  unfold lookup
  rw [hurl, Option.bind_eq_bind, Option.bind_some, hfind]
  rfl

def AllOrNothing (s : PublicationState) : Prop :=
  (∀ call allocations failure, (publish s call allocations).2 = .failed failure → (publish s call allocations).1 = s) ∧
    ∀ convertLinks source failure, (loadPersistedMappings s convertLinks source).2 = .failed failure →
      (loadPersistedMappings s convertLinks source).1 = s

theorem allOrNothing_of_consistent (hs : Consistent s) : AllOrNothing s := by
  refine ⟨fun call allocations failure => (published_publish hs call allocations).unchanged failure, ?_⟩
  intro convertLinks source failure hfailed
  cases loadPersistedMappings_cases s convertLinks source with
  | inl hleft => exact hleft.1
  | inr htaken => simp [htaken.1] at hfailed

/-- **Main result.** In every reachable state the counts are those of the
table, every entry of it is found, and a call that fails changes nothing. Where
no limit is hit, the map holds for each URL the offer of the highest priority
with the smallest path, in whatever order the calls came. -/
theorem publication_order_independent : (∀ s, Reachable s → Accounted s ∧ AllOrNothing s) ∧
    (∀ calls, Unlimited .new calls → ∀ url offer,
      lookupOffer (runPublish .new calls) url = some offer ↔ BestOffer (offersFor url (offersOfAll calls)) offer) ∧
    (∀ s convertLinks source, (loadPersistedMappings s convertLinks source).2 = .recorded → ∀ calls,
      Unlimited (loadPersistedMappings s convertLinks source).1 calls → ∀ url offer,
        lookupOffer (runPublish (loadPersistedMappings s convertLinks source).1 calls) url = some offer ↔
          BestOffer (offersFor url (offersOfAll (recoveredCalls source.mappings ++ calls))) offer) ∧
    (∀ calls calls', (calls.map Prod.fst).Perm (calls'.map Prod.fst) → Unlimited .new calls → Unlimited .new calls' →
      ∀ url, lookupOffer (runPublish .new calls) url = lookupOffer (runPublish .new calls') url) := by
  refine ⟨?_, ?_, ?_, ?_⟩
  · intro s hs
    have hconsistent := consistent_of_reachable hs
    exact ⟨accounted_of_consistent hconsistent, allOrNothing_of_consistent hconsistent⟩
  · intro calls hunlimited url offer
    exact lookupOffer_eq_some_iff hunlimited url offer
  · intro s convertLinks source hload calls hunlimited url offer
    obtain ⟨hrecovered, hconsistent, hlookup⟩ := loadPersistedMappings_recorded hload
    have hoffers : offersOfAll (recoveredCalls source.mappings ++ calls) =
        offersOfAll (recoveredCalls source.mappings) ++ offersOfAll calls := flatMap_append
    rw [lookupOffer_runPublish hconsistent hunlimited, hlookup, lookupOffer_eq_leastOf hrecovered, ← leastOf_append,
      ← offersFor_append, ← hoffers, leastOf_eq_some_iff]
    unfold BestOffer
    simp only [isLE_compareOffers_iff]
  · intro calls calls' hperm hunlimited hunlimited' url
    apply Option.ext
    intro offer
    rw [lookupOffer_eq_some_iff hunlimited, lookupOffer_eq_some_iff hunlimited']
    exact bestOffer_perm (offersFor_perm hperm url) offer

def sidecarFor (localPath : Bytes) : Call × Allocations :=
  (.recovered ⟨.present (ascii "u"), localPath, .sidecar⟩, ⟨true, true, true, true⟩)

theorem publication_order_independent_sidecars :
    lookupOffer (runPublish .new [sidecarFor (ascii "b"), sidecarFor (ascii "a")]) (ascii "u") =
      some (ascii "a", .sidecar) ∧
    lookupOffer (runPublish .new [sidecarFor (ascii "b"), sidecarFor (ascii "a")]) (ascii "u") =
      lookupOffer (runPublish .new [sidecarFor (ascii "a"), sidecarFor (ascii "b")]) (ascii "u") := by
  have hunlimited : Unlimited .new [sidecarFor (ascii "b"), sidecarFor (ascii "a")] :=
    ⟨by decide, by decide, trivial⟩
  have hunlimited' : Unlimited .new [sidecarFor (ascii "a"), sidecarFor (ascii "b")] :=
    ⟨by decide, by decide, trivial⟩
  refine ⟨?_, ?_⟩
  · apply (publication_order_independent.2.1 _ hunlimited (ascii "u") (ascii "a", .sidecar)).mpr
    refine ⟨by decide, ?_⟩
    decide
  · have hperm : ([sidecarFor (ascii "b"), sidecarFor (ascii "a")].map Prod.fst).Perm
        ([sidecarFor (ascii "a"), sidecarFor (ascii "b")].map Prod.fst) := List.Perm.swap _ _ _
    exact publication_order_independent.2.2.2 _ _ hperm hunlimited hunlimited' (ascii "u")

end Bx.Fetch
