import Bx.Cpio.Written
import Mathlib.Data.List.Induction
import Mathlib.Data.List.Nodup
import Mathlib.Data.List.Pairwise
import Mathlib.Data.List.Perm.Subperm

/-!
# The order in which entries are written

The names of one file are held back until all of them have come, and only the last one
gets the data. The total of an inode counts all entries, what has been seen counts
regular files only.
-/

namespace Bx.Cpio
open Kit Lib List

variable {b e : FsEntry} {m : InodeMap} {entries : List FsEntry} {maps : List InodeMap} {i j : Nat}

/-! ## Inodes -/

structure InodeMap where
  dev : UInt64
  ino : UInt64
  syntheticIno : Nat
  totalCount : Nat
  seenCount : Nat

def findInodeMap (maps : List InodeMap) (dev ino : UInt64) : Option Nat :=
  maps.findIdx? fun m => m.dev == dev && m.ino == ino

def getInodeMap (maps : List InodeMap) (dev ino : UInt64) : List InodeMap × Nat :=
  match findInodeMap maps dev ino with
  | some map => (maps, map)
  | none => (maps ++ [⟨dev, ino, maps.length, 0, 0⟩], maps.length)

def countInode (maps : List InodeMap) (entry : FsEntry) : List InodeMap :=
  let (maps, map) := getInodeMap maps entry.dev entry.ino
  maps.modify map fun m => { m with totalCount := m.totalCount + 1 }

def countInodes (entries : List FsEntry) (maps : List InodeMap) : List InodeMap := entries.foldl countInode maps

/-! ## Writing -/

/-- What `bx_cpio_build_archive` has done, with the entries it wrote and their indices -/
structure Progress where
  maps : List InodeMap
  emitted : List Bool
  out : List (Nat × Emission)

namespace Progress

def emit (p : Progress) (i : Nat) (em : Emission) : Progress :=
  { p with emitted := p.emitted.set i true, out := p.out ++ [(i, em)] }

def emission (p : Progress) (map : Nat) (entry : FsEntry) (suppressData : Bool) : Emission :=
  ⟨entry, ((p.maps[map]?.map InodeMap.syntheticIno).getD 0).toUInt64, suppressData⟩

end Progress

/-- One turn of the inner loop: entry `j` goes out if it is of the group that entry `i` completes. -/
def groupTurn (entries : List FsEntry) (i map : Nat) (p : Progress) (j : Nat) : Progress :=
  match entries[j]? with
  | none => p
  | some entry =>
    let (maps, groupMap) := getInodeMap p.maps entry.dev entry.ino
    let p := { p with maps := maps }
    if p.emitted.getD j false || groupMap != map then p
    else p.emit j (p.emission map entry (j != i))

def turn (entries : List FsEntry) (p : Progress) (i : Nat) : Progress :=
  match entries[i]? with
  | none => p
  | some entry =>
    let (maps, map) := getInodeMap p.maps entry.dev entry.ino
    let p := { p with maps := maps }
    if p.emitted.getD i false then p
    else
      match maps[map]? with
      | none => p
      | some m =>
        if isReg entry.mode.toNat && decide (1 < m.totalCount) then
          let p := { p with maps := maps.modify map fun m => { m with seenCount := m.seenCount + 1 } }
          if m.seenCount + 1 < m.totalCount then p
          else (List.range (i + 1)).foldl (groupTurn entries i map) p
        else p.emit i (p.emission map entry false)

def progress (entries : List FsEntry) : Progress :=
  (List.range entries.length).foldl (turn entries)
    ⟨countInodes entries [], replicate entries.length false, []⟩

def emissions (entries : List FsEntry) : List (Nat × Emission) := (progress entries).out

/-! ## What the order is to be -/

def inodeOf (entry : FsEntry) : UInt64 × UInt64 := (entry.dev, entry.ino)

def InodeMap.inode (m : InodeMap) : UInt64 × UInt64 := (m.dev, m.ino)

def inodeAt (entries : List FsEntry) (i : Nat) : Option (UInt64 × UInt64) := (entries[i]?).map inodeOf

def countOf (entries : List FsEntry) (inode : UInt64 × UInt64) : Nat := entries.countP fun e => inodeOf e = inode

def Shared (entries : List FsEntry) (i : Nat) : Prop :=
  ∃ entry, entries[i]? = some entry ∧ isReg entry.mode.toNat = true ∧ 1 < countOf entries (inodeOf entry)

instance (entries : List FsEntry) (i : Nat) : Decidable (Shared entries i) :=
  match h : entries[i]? with
  | none => isFalse (by
      intro ⟨_, hentry, _⟩
      rw [h] at hentry
      cases hentry)
  | some entry =>
    if hshared : isReg entry.mode.toNat = true ∧ 1 < countOf entries (inodeOf entry) then isTrue ⟨entry, h, hshared⟩
    else isFalse (by
      intro ⟨_, hentry, hrest⟩
      rw [h] at hentry
      cases hentry
      exact hshared hrest)

/-- The entries of the inode of entry `i`, in list order -/
def group (entries : List FsEntry) (i : Nat) : List Nat :=
  (List.range entries.length).filter fun j => inodeAt entries j = inodeAt entries i

def place (entries : List FsEntry) (i : Nat) : Nat :=
  if Shared entries i then (group entries i).getLast?.getD i else i

/-- Every entry once, each at its place, the names of one file in list order and in one piece with the data at the last -/
structure Grouped (entries : List FsEntry) (out : List (Nat × Emission)) : Prop where
  entry : ∀ p ∈ out, entries[p.1]? = some p.2.entry
  once : (out.map Prod.fst).Perm (List.range entries.length)
  ordered : (out.map Prod.fst).Pairwise fun i j =>
    place entries i < place entries j ∨ place entries i = place entries j ∧ i < j
  piece : ∀ i, Shared entries i → ∃ before after, out.map Prod.fst = before ++ group entries i ++ after
  payload : ∀ p ∈ out, isReg p.2.entry.mode.toNat = true →
    payloadOf p.2 = if p.1 = place entries p.1 then p.2.entry.contents else []

def Unmixed (entries : List FsEntry) : Prop :=
  ∀ a ∈ entries, ∀ b ∈ entries, isReg a.mode.toNat = true → inodeOf a = inodeOf b → isReg b.mode.toNat = true

/-! ## The maps -/

variable {dev ino : UInt64} {map : Nat}

theorem getInodeMap_of_mem (h : (dev, ino) ∈ maps.map InodeMap.inode) :
    ∃ map m, getInodeMap maps dev ino = (maps, map) ∧ maps[map]? = some m ∧ m.inode = (dev, ino) := by
  obtain ⟨m, hm, hinode⟩ := mem_map.mp h
  cases hfind : findInodeMap maps dev ino with
  | none =>
    have hnone := findIdx?_eq_none_iff.mp hfind m hm
    cases hinode
    simp at hnone
  | some map =>
    obtain ⟨hlt, hhit, _⟩ := findIdx?_eq_some_iff_getElem.mp hfind
    refine ⟨map, maps[map], ?_, getElem?_eq_getElem hlt, ?_⟩
    · unfold getInodeMap
      rw [hfind]
    · simp only [Bool.and_eq_true, beq_iff_eq] at hhit
      exact Prod.ext hhit.1 hhit.2

theorem getInodeMap_of_not_mem (h : (dev, ino) ∉ maps.map InodeMap.inode) :
    getInodeMap maps dev ino = (maps ++ [⟨dev, ino, maps.length, 0, 0⟩], maps.length) := by
  have hfind : findInodeMap maps dev ino = none := by
    apply findIdx?_eq_none_iff.mpr
    intro m hm
    cases hhit : m.dev == dev && m.ino == ino with
    | false => rfl
    | true =>
      simp only [Bool.and_eq_true, beq_iff_eq] at hhit
      exact absurd (mem_map.mpr ⟨m, hm, Prod.ext hhit.1 hhit.2⟩) h
  unfold getInodeMap
  rw [hfind]

theorem modify_eq_map (hnodup : (maps.map InodeMap.inode).Nodup) (hm : maps[map]? = some m) (f : InodeMap → InodeMap) :
    maps.modify map f = maps.map fun x => if x.inode = m.inode then f x else x := by
  apply ext_getElem?
  intro k
  rw [getElem?_modify, getElem?_map]
  cases hk : maps[k]? with
  | none => rfl
  | some x =>
    have hsame : map = k ↔ x.inode = m.inode := by
      refine ⟨?_, ?_⟩
      · intro heq
        rw [heq, hk] at hm
        rw [Option.some.inj hm]
      · intro heq
        have hlt : map < (maps.map InodeMap.inode).length := by
          rw [length_map]
          exact (List.getElem?_eq_some_iff.mp hm).1
        apply (getElem?_inj hlt hnodup).mp
        rw [getElem?_map, getElem?_map, hm, hk]
        exact congrArg some heq.symm
    simp only [Option.map_eq_map, Option.map_some]
    by_cases heq : map = k
    · rw [if_pos heq, if_pos (hsame.mp heq)]
    · rw [if_neg heq, if_neg fun h => heq (hsame.mpr h)]

structure Counted (entries : List FsEntry) (maps : List InodeMap) : Prop where
  nodup : (maps.map InodeMap.inode).Nodup
  covers : ∀ e ∈ entries, inodeOf e ∈ maps.map InodeMap.inode
  total : ∀ m ∈ maps, m.totalCount = countOf entries m.inode

variable {inode : UInt64 × UInt64}

theorem countOf_eq_zero (h : ∀ e ∈ entries, inodeOf e ≠ inode) : countOf entries inode = 0 := by
  apply countP_eq_zero.mpr
  intro e he
  simpa using h e he

theorem getInodeMap_counted (h : Counted entries maps) (e : FsEntry) :
    ∃ next map m, getInodeMap maps e.dev e.ino = (next, map) ∧ Counted entries next ∧ next[map]? = some m ∧
      m.inode = inodeOf e ∧ ∀ m ∈ next, m ∈ maps ∨ m.seenCount = 0 := by
  by_cases hmem : inodeOf e ∈ maps.map InodeMap.inode
  · obtain ⟨map, m, hget, hm, hinode⟩ := getInodeMap_of_mem hmem
    exact ⟨maps, map, m, hget, h, hm, hinode, fun m hm => .inl hm⟩
  · let fresh : InodeMap := ⟨e.dev, e.ino, maps.length, 0, 0⟩
    have hzero : countOf entries fresh.inode = 0 := by
      apply countOf_eq_zero
      intro e' he' heq
      have hcovered := h.covers e' he'
      rw [heq] at hcovered
      exact hmem hcovered
    refine ⟨maps ++ [fresh], maps.length, fresh, getInodeMap_of_not_mem hmem, ⟨?_, ?_, ?_⟩, ?_, rfl, ?_⟩
    · rw [map_append, map_singleton]
      apply nodup_append.mpr
      refine ⟨h.nodup, nodup_singleton _, ?_⟩
      intro a ha b hb heq
      rw [heq, mem_singleton.mp hb] at ha
      exact hmem ha
    · intro e' he'
      rw [map_append]
      exact mem_append_left _ (h.covers e' he')
    · intro m hm
      cases mem_append.mp hm with
      | inl hold => exact h.total m hold
      | inr hnew =>
        rw [mem_singleton.mp hnew]
        exact hzero.symm
    · rw [getElem?_append_right (Nat.le_refl _), Nat.sub_self]
      rfl
    · intro m hm
      cases mem_append.mp hm with
      | inl hold => exact .inl hold
      | inr hnew =>
        rw [mem_singleton.mp hnew]
        exact .inr rfl

theorem countOf_concat (entries : List FsEntry) (e : FsEntry) (inode : UInt64 × UInt64) :
    countOf (entries ++ [e]) inode = countOf entries inode + if inodeOf e = inode then 1 else 0 := by
  unfold countOf
  rw [countP_append, countP_singleton]
  simp only [decide_eq_true_eq]

theorem map_inode_update (maps : List InodeMap) (inode : UInt64 × UInt64) {f : InodeMap → InodeMap}
    (hf : ∀ m, (f m).inode = m.inode) :
    (maps.map fun x => if x.inode = inode then f x else x).map InodeMap.inode = maps.map InodeMap.inode := by
  rw [map_map]
  apply map_congr_left
  intro m _
  show (if m.inode = inode then f m else m).inode = m.inode
  by_cases h : m.inode = inode
  · rw [if_pos h, hf]
  · rw [if_neg h]

theorem countInode_spec (h : Counted entries maps) (hseen : ∀ m ∈ maps, m.seenCount = 0) (e : FsEntry) :
    Counted (entries ++ [e]) (countInode maps e) ∧ ∀ m ∈ countInode maps e, m.seenCount = 0 := by
  obtain ⟨next, map, m, hget, hnext, hm, hinode, hfresh⟩ := getInodeMap_counted h e
  have hcount : countInode maps e =
      next.map fun x => if x.inode = m.inode then { x with totalCount := x.totalCount + 1 } else x := by
    unfold countInode
    rw [hget]
    exact modify_eq_map hnext.nodup hm _
  have hkeys := map_inode_update next m.inode (f := fun x => { x with totalCount := x.totalCount + 1 }) fun _ => rfl
  rw [hcount]
  refine ⟨⟨?_, ?_, ?_⟩, ?_⟩
  · rw [hkeys]
    exact hnext.nodup
  · intro e' he'
    rw [hkeys]
    cases mem_append.mp he' with
    | inl hold => exact hnext.covers e' hold
    | inr hnew =>
      rw [mem_singleton.mp hnew, ← hinode]
      exact mem_map_of_mem (mem_of_getElem? hm)
  · intro x hx
    obtain ⟨y, hy, hyx⟩ := mem_map.mp hx
    rw [← hyx, countOf_concat, ← hinode]
    by_cases hsame : y.inode = m.inode
    · rw [if_pos hsame]
      show y.totalCount + 1 = countOf entries y.inode + if m.inode = y.inode then 1 else 0
      rw [if_pos hsame.symm, hnext.total y hy]
    · rw [if_neg hsame, if_neg fun heq => hsame heq.symm, hnext.total y hy]
      rfl
  · intro x hx
    obtain ⟨y, hy, hyx⟩ := mem_map.mp hx
    have hzero : y.seenCount = 0 := by
      cases hfresh y hy with
      | inl hold => exact hseen y hold
      | inr hnew => exact hnew
    rw [← hyx]
    by_cases hsame : y.inode = m.inode
    · rw [if_pos hsame]
      exact hzero
    · rw [if_neg hsame]
      exact hzero

theorem countInodes_spec (entries : List FsEntry) :
    Counted entries (countInodes entries []) ∧ ∀ m ∈ countInodes entries [], m.seenCount = 0 := by
  induction entries using reverseRecOn with
  | nil =>
    refine ⟨⟨nodup_nil, ?_, ?_⟩, ?_⟩
    · intro e he
      cases he
    · intro m hm
      cases hm
    · intro m hm
      cases hm
  | append_singleton entries e ih =>
    unfold countInodes at ih ⊢
    rw [foldl_append, foldl_cons, foldl_nil]
    exact countInode_spec ih.1 ih.2 e

/-! ## Groups -/

section
variable {entries : List FsEntry}

theorem mem_group : j ∈ group entries i ↔ j < entries.length ∧ inodeAt entries j = inodeAt entries i := by
  unfold group
  rw [mem_filter, mem_range, decide_eq_true_eq]

theorem group_congr (h : inodeAt entries j = inodeAt entries i) : group entries j = group entries i := by
  unfold group
  rw [h]

theorem pairwise_group (i : Nat) : (group entries i).Pairwise (· < ·) := List.Pairwise.filter _ pairwise_lt_range

theorem Shared.mem_group (h : Shared entries i) : i ∈ group entries i := by
  obtain ⟨entry, hentry, _⟩ := h
  exact Bx.Cpio.mem_group.mpr ⟨(List.getElem?_eq_some_iff.mp hentry).1, rfl⟩

theorem Shared.place_spec (h : Shared entries i) :
    place entries i ∈ group entries i ∧ ∀ j ∈ group entries i, j ≤ place entries i := by
  have hne : group entries i ≠ [] := ne_nil_of_mem h.mem_group
  have hplace : place entries i = (group entries i).getLast hne := by
    unfold place
    rw [if_pos h, getLast?_eq_some_getLast hne]
    rfl
  rw [hplace]
  refine ⟨getLast_mem hne, ?_⟩
  intro j hj
  exact ((pairwise_group i).imp le_of_lt).rel_getLast hj

theorem place_of_not_shared (h : ¬Shared entries i) : place entries i = i := if_neg h

end

/-! ## One turn -/

def seenOf (entries : List FsEntry) (k : Nat) (inode : UInt64 × UInt64) : Nat :=
  (entries.take k).countP fun e => inodeOf e = inode && isReg e.mode.toNat

def written (entries : List FsEntry) (i : Nat) : List Nat :=
  match entries[i]? with
  | none => []
  | some entry =>
    if Shared entries i then
      if countOf entries (inodeOf entry) ≤ seenOf entries (i + 1) (inodeOf entry) then group entries i else []
    else [i]

theorem forall_of_countP_le {α : Type} {p q : α → Bool} (hqp : ∀ a, q a = true → p a = true) {l : List α}
    (h : l.countP p ≤ l.countP q) : ∀ a ∈ l, p a = true → q a = true := by
  intro a ha hpa
  rw [countP_eq_length_filter, countP_eq_length_filter] at h
  have hsame : l.filter q = l.filter p := (monotone_filter_right l hqp).eq_of_length_le h
  have hmem : a ∈ l.filter p := mem_filter.mpr ⟨ha, hpa⟩
  rw [← hsame] at hmem
  exact (mem_filter.mp hmem).2

section
variable {entries : List FsEntry}

theorem complete_spec (h : countOf entries inode ≤ seenOf entries (i + 1) inode)
    (hb : entries[j]? = some b) (hinode : inodeOf b = inode) :
    j ≤ i ∧ isReg b.mode.toNat = true := by
  have hsplit : countOf entries inode = (entries.take (i + 1)).countP (fun e => inodeOf e = inode)
      + (entries.drop (i + 1)).countP (fun e => inodeOf e = inode) := by
    unfold countOf
    rw [← countP_append, take_append_drop]
  have hle : seenOf entries (i + 1) inode ≤ (entries.take (i + 1)).countP fun e => inodeOf e = inode := by
    apply countP_mono_left
    intro e _ he
    exact (Bool.and_eq_true_iff.mp he).1
  have hdrop : (entries.drop (i + 1)).countP (fun e => inodeOf e = inode) = 0 := by omega
  have hj : j ≤ i := by
    by_contra hlt
    have hmem : b ∈ entries.drop (i + 1) := by
      apply mem_of_getElem? (i := j - (i + 1))
      rw [getElem?_drop, Nat.add_sub_cancel' (by omega)]
      exact hb
    have hnone := countP_eq_zero.mp hdrop b hmem
    exact hnone (decide_eq_true hinode)
  refine ⟨hj, ?_⟩
  have hall := @forall_of_countP_le _ (fun e => decide (inodeOf e = inode))
    (fun e => decide (inodeOf e = inode) && isReg e.mode.toNat) (fun e he => (Bool.and_eq_true_iff.mp he).1)
    (entries.take (i + 1)) (by
      unfold seenOf at h
      omega)
  have hmem : b ∈ entries.take (i + 1) := by
    apply mem_of_getElem? (i := j)
    rw [getElem?_take_of_lt (by omega)]
    exact hb
  exact (Bool.and_eq_true_iff.mp (hall b hmem (decide_eq_true hinode))).2

theorem exists_of_inodeAt (he : entries[i]? = some e) (h : inodeAt entries j = inodeAt entries i) :
    ∃ b, entries[j]? = some b ∧ inodeOf b = inodeOf e := by
  unfold inodeAt at h
  rw [he, Option.map_some] at h
  exact Option.map_eq_some_iff.mp h

theorem place_of_mem_written (h : j ∈ written entries i) : place entries j = i ∧ j ≤ i := by
  unfold written at h
  cases he : entries[i]? with
  | none => simp [he] at h
  | some e =>
    rw [he] at h
    dsimp only at h
    by_cases hshared : Shared entries i
    · rw [if_pos hshared] at h
      by_cases hcomplete : countOf entries (inodeOf e) ≤ seenOf entries (i + 1) (inodeOf e)
      · rw [if_pos hcomplete] at h
        have hsame := (mem_group.mp h).2
        obtain ⟨b, hb, hinode⟩ := exists_of_inodeAt he hsame
        obtain ⟨hle, hreg⟩ := complete_spec hcomplete hb hinode
        have hsharedJ : Shared entries j := by
          obtain ⟨e', he', _, hcount⟩ := hshared
          rw [he] at he'
          cases he'
          exact ⟨b, hb, hreg, by rw [hinode]; exact hcount⟩
        obtain ⟨hmem, hlast⟩ := hsharedJ.place_spec
        rw [group_congr hsame] at hmem hlast
        obtain ⟨c, hc, hcinode⟩ := exists_of_inodeAt he (mem_group.mp hmem).2
        have hpi := (complete_spec hcomplete hc hcinode).1
        have hip := hlast i hshared.mem_group
        exact ⟨by omega, hle⟩
      · simp [hcomplete] at h
    · rw [if_neg hshared] at h
      rw [mem_singleton.mp h]
      exact ⟨place_of_not_shared hshared, Nat.le_refl i⟩

end

/-! ## Runs -/

def Marked (entries : List FsEntry) (p : Progress) : Prop :=
  p.emitted = (List.range entries.length).map fun j => decide (j ∈ p.out.map Prod.fst)

section
variable {entries : List FsEntry} {p : Progress}

theorem Marked.getD (h : Marked entries p) (hj : j < entries.length) :
    p.emitted.getD j false = decide (j ∈ p.out.map Prod.fst) := by
  rw [h, getD_eq_getElem?_getD, getElem?_map, getElem?_range hj]
  rfl

theorem Marked.emit (h : Marked entries p) (j : Nat) (em : Emission) : Marked entries (p.emit j em) := by
  unfold Marked at h ⊢
  show p.emitted.set j true = (List.range entries.length).map fun k => decide (k ∈ (p.out ++ [(j, em)]).map Prod.fst)
  rw [h]
  apply ext_getElem?
  intro k
  rw [getElem?_set, getElem?_map, getElem?_map, length_map, length_range, map_append, map_singleton]
  by_cases hk : k < entries.length
  · rw [getElem?_range hk, Option.map_some, Option.map_some]
    by_cases hjk : j = k
    · rw [if_pos hjk, if_pos (by omega)]
      simp [hjk]
    · rw [if_neg hjk]
      simp [Ne.symm hjk]
  · rw [getElem?_eq_none (by rw [length_range]; omega), Option.map_none, Option.map_none]
    by_cases hjk : j = k
    · rw [if_pos hjk, if_neg (by omega)]
    · rw [if_neg hjk]

theorem Counted.get (h : Counted entries maps) (hb : entries[j]? = some b) :
    ∃ map m, getInodeMap maps b.dev b.ino = (maps, map) ∧ maps[map]? = some m ∧ m.inode = inodeOf b :=
  getInodeMap_of_mem (h.covers b (mem_of_getElem? hb))

theorem Counted.map_eq_iff (h : Counted entries maps) {map' : Nat} {m' : InodeMap}
    (hm : maps[map]? = some m) (hm' : maps[map']? = some m') : map = map' ↔ m.inode = m'.inode := by
  refine ⟨?_, ?_⟩
  · intro heq
    rw [heq, hm'] at hm
    rw [Option.some.inj hm]
  · intro heq
    have hlt : map < (maps.map InodeMap.inode).length := by
      rw [length_map]
      exact (List.getElem?_eq_some_iff.mp hm).1
    apply (getElem?_inj hlt h.nodup).mp
    rw [getElem?_map, getElem?_map, hm, hm']
    exact congrArg some heq

/-- So many entries more are written, all in the turn of entry `i`. -/
structure Wrote (entries : List FsEntry) (i : Nat) (js : List Nat) (p q : Progress) : Prop where
  maps : q.maps = p.maps
  indices : q.out.map Prod.fst = p.out.map Prod.fst ++ js
  marked : Marked entries q
  added : ∀ e ∈ q.out, e ∈ p.out ∨ e.1 ∈ js ∧ entries[e.1]? = some e.2.entry ∧ e.2.suppressData = (e.1 != i)

theorem Wrote.emit {js : List Nat} {q : Progress} (h : Wrote entries i js p q) (hb : entries[j]? = some b) (map : Nat) :
    Wrote entries i (js ++ [j]) p (q.emit j (q.emission map b (j != i))) := by
  refine ⟨h.maps, ?_, h.marked.emit _ _, ?_⟩
  · show (q.out ++ [(j, _)]).map Prod.fst = _
    rw [map_append, h.indices, append_assoc]
    rfl
  · intro e he
    cases mem_append.mp he with
    | inl hold =>
      cases h.added e hold with
      | inl hfirst => exact .inl hfirst
      | inr hlater => exact .inr ⟨mem_append_left _ hlater.1, hlater.2⟩
    | inr hnew =>
      rw [mem_singleton.mp hnew]
      exact .inr ⟨mem_append_right _ mem_cons_self, hb, rfl⟩

theorem groupTurns (hcounted : Counted entries p.maps)
    (hm : p.maps[map]? = some m) (hinode : inodeAt entries i = some m.inode) (hmarked : Marked entries p)
    (hfresh : ∀ j ∈ group entries i, j ∉ p.out.map Prod.fst) (k : Nat) (hk : k ≤ entries.length) :
    Wrote entries i ((List.range k).filter fun j => inodeAt entries j = inodeAt entries i) p
      ((List.range k).foldl (groupTurn entries i map) p) := by
  induction k with
  | zero => exact ⟨rfl, (append_nil _).symm, hmarked, fun e he => .inl he⟩
  | succ k ih =>
    have hdone := ih (by omega)
    rw [range_succ, foldl_append, filter_append, foldl_cons, foldl_nil]
    -- `q` is the state before the turn of entry `k`
    generalize hq : (List.range k).foldl (groupTurn entries i map) p = q at hdone ⊢
    obtain ⟨b, hb⟩ : ∃ b, entries[k]? = some b := ⟨entries[k], getElem?_eq_getElem (by omega)⟩
    have hcountedQ : Counted entries q.maps := by
      rw [hdone.maps]
      exact hcounted
    obtain ⟨map', m', hget, hm', hinode'⟩ := hcountedQ.get hb
    have hmq : q.maps[map]? = some m := by
      rw [hdone.maps]
      exact hm
    have hsame : (map' != map) = !decide (inodeAt entries k = inodeAt entries i) := by
      have hiff := hcountedQ.map_eq_iff hm' hmq
      have hk' : inodeAt entries k = some m'.inode := by
        unfold inodeAt
        rw [hb, hinode']
        rfl
      rw [hk', hinode]
      by_cases heq : m'.inode = m.inode
      · rw [hiff.mpr heq, heq]
        simp
      · have hne : map' ≠ map := fun h => heq (hiff.mp h)
        simp [hne, heq]
    have hturn : groupTurn entries i map q k = if k ∈ q.out.map Prod.fst ∨ ¬inodeAt entries k = inodeAt entries i then q
        else q.emit k (q.emission map b (k != i)) := by
      unfold groupTurn
      rw [hb]
      dsimp only
      rw [hget]
      dsimp only
      rw [hdone.marked.getD (by omega), hsame]
      simp only [Bool.or_eq_true, decide_eq_true_eq, Bool.not_eq_true', decide_eq_false_iff_not]
    rw [hturn]
    by_cases hin : inodeAt entries k = inodeAt entries i
    · have hout : k ∉ q.out.map Prod.fst := by
        rw [hdone.indices, mem_append, mem_filter, mem_range]
        intro h
        cases h with
        | inl hold => exact hfresh k (mem_group.mpr ⟨by omega, hin⟩) hold
        | inr hnew => omega
      rw [if_neg (by
        intro h
        cases h with
        | inl h => exact hout h
        | inr h => exact h hin)]
      have hfilter : [k].filter (fun j => inodeAt entries j = inodeAt entries i) = [k] :=
        filter_cons_of_pos (decide_eq_true hin)
      rw [hfilter]
      exact hdone.emit hb map
    · rw [if_pos (.inr hin)]
      have hfilter : [k].filter (fun j => inodeAt entries j = inodeAt entries i) = [] :=
        filter_cons_of_neg (by simpa using hin)
      rw [hfilter, append_nil]
      exact hdone

end

/-- What holds when the turn of entry `i` comes -/
structure Reached (entries : List FsEntry) (i : Nat) (p : Progress) : Prop where
  counted : Counted entries p.maps
  seen : ∀ m ∈ p.maps, 1 < m.totalCount → m.seenCount = seenOf entries i m.inode
  marked : Marked entries p
  indices : p.out.map Prod.fst = (List.range i).flatMap (written entries)
  sound : ∀ q ∈ p.out, entries[q.1]? = some q.2.entry ∧
    (isReg q.2.entry.mode.toNat = true → q.2.suppressData = (q.1 != place entries q.1))

section
variable {entries : List FsEntry}

section
variable (he : entries[i]? = some e)
include he

theorem seenOf_succ (inode : UInt64 × UInt64) : seenOf entries (i + 1) inode =
      seenOf entries i inode + if inodeOf e = inode ∧ isReg e.mode.toNat = true then 1 else 0 := by
  unfold seenOf
  rw [take_add_one, he, countP_append]
  simp only [Option.toList_some, countP_singleton, Bool.and_eq_true, decide_eq_true_eq]

theorem shared_iff : Shared entries i ↔ isReg e.mode.toNat = true ∧ 1 < countOf entries (inodeOf e) := by
  refine ⟨?_, fun h => ⟨e, he, h⟩⟩
  intro ⟨e', he', h⟩
  rw [he] at he'
  cases he'
  exact h

theorem written_shared (h : Shared entries i) : written entries i =
    if countOf entries (inodeOf e) ≤ seenOf entries (i + 1) (inodeOf e) then group entries i else [] := by
  unfold written
  rw [he]
  exact if_pos h

theorem written_single (h : ¬Shared entries i) : written entries i = [i] := by
  unfold written
  rw [he]
  exact if_neg h

end

theorem filter_range_of_le {n k : Nat} (hk : k ≤ n) {P : Nat → Bool} (h : ∀ j, k ≤ j → j < n → P j = false) :
    (List.range n).filter P = (List.range k).filter P := by
  obtain ⟨m, rfl⟩ : ∃ m, n = k + m := ⟨n - k, by omega⟩
  have hnone : ((List.range m).map fun x => k + x).filter P = [] := by
    apply filter_eq_nil_iff.mpr
    intro j hj
    obtain ⟨x, hx, hxj⟩ := mem_map.mp hj
    have hlt := mem_range.mp hx
    rw [h j (by omega) (by omega)]
    exact Bool.false_ne_true
  rw [range_add, filter_append, hnone, append_nil]

theorem Counted.see (h : Counted entries maps) (inode : UInt64 × UInt64) : Counted entries
    (maps.map fun x => if x.inode = inode then { x with seenCount := x.seenCount + 1 } else x) := by
  have hkeys := map_inode_update maps inode (f := fun x => { x with seenCount := x.seenCount + 1 }) fun _ => rfl
  refine ⟨?_, ?_, ?_⟩
  · rw [hkeys]
    exact h.nodup
  · rw [hkeys]
    exact h.covers
  · intro x hx
    obtain ⟨y, hy, hyx⟩ := mem_map.mp hx
    rw [← hyx]
    by_cases hsame : y.inode = inode
    · rw [if_pos hsame]
      exact h.total y hy
    · rw [if_neg hsame]
      exact h.total y hy

variable {i : Nat} {p : Progress}

theorem Reached.fresh (h : Reached entries i p) : i ∉ p.out.map Prod.fst := by
  rw [h.indices]
  intro hmem
  obtain ⟨i', hi', hwritten⟩ := mem_flatMap.mp hmem
  have hle := (place_of_mem_written hwritten).2
  have hlt := mem_range.mp hi'
  omega

theorem Reached.indices_succ {indices : List Nat} (h : indices = (List.range i).flatMap (written entries))
    (hp : p.out.map Prod.fst = indices ++ written entries i) :
    p.out.map Prod.fst = (List.range (i + 1)).flatMap (written entries) := by
  rw [hp, h, range_succ, flatMap_append, flatMap_singleton]

theorem Reached.single (h : Reached entries i p) (he : entries[i]? = some e) (hshared : ¬Shared entries i)
    (map : Nat) : Reached entries (i + 1) (p.emit i (p.emission map e false)) := by
  refine ⟨h.counted, ?_, h.marked.emit _ _, ?_, ?_⟩
  · intro m hm htotal
    rw [seenOf_succ he, if_neg, add_zero]
    · exact h.seen m hm htotal
    · intro ⟨hinode, hreg⟩
      have hcount := h.counted.total m hm
      exact hshared ((shared_iff he).mpr ⟨hreg, by rw [hinode]; omega⟩)
  · apply Reached.indices_succ h.indices
    rw [written_single he hshared]
    exact map_append
  · intro q hq
    cases mem_append.mp hq with
    | inl hold => exact h.sound q hold
    | inr hnew =>
      rw [mem_singleton.mp hnew]
      refine ⟨he, ?_⟩
      intro _
      rw [place_of_not_shared hshared]
      exact (bne_self_eq_false i).symm

theorem Reached.shared (h : Reached entries i p) (he : entries[i]? = some e) (hshared : Shared entries i)
    (hm : p.maps[map]? = some m) (hinode : m.inode = inodeOf e) :
    Reached entries (i + 1)
      (let q := { p with maps := p.maps.modify map fun m => { m with seenCount := m.seenCount + 1 } }
      if m.seenCount + 1 < m.totalCount then q else (List.range (i + 1)).foldl (groupTurn entries i map) q) := by
  have hlt : i < entries.length := (List.getElem?_eq_some_iff.mp he).1
  obtain ⟨hreg, hcount⟩ := (shared_iff he).mp hshared
  have hmem := mem_of_getElem? hm
  have htotal := h.counted.total m hmem
  rw [hinode] at htotal
  have hmore : m.seenCount + 1 = seenOf entries (i + 1) (inodeOf e) := by
    rw [seenOf_succ he, if_pos ⟨rfl, hreg⟩, h.seen m hmem (by omega), hinode]
  have hmodify := modify_eq_map h.counted.nodup hm fun m => { m with seenCount := m.seenCount + 1 }
  have hseen : ∀ x ∈ p.maps.map fun x => if x.inode = m.inode then { x with seenCount := x.seenCount + 1 } else x,
      1 < x.totalCount → x.seenCount = seenOf entries (i + 1) x.inode := by
    intro x hx hlarge
    obtain ⟨y, hy, hyx⟩ := mem_map.mp hx
    rw [← hyx] at hlarge ⊢
    rw [seenOf_succ he]
    by_cases hsame : y.inode = m.inode
    · rw [if_pos hsame] at hlarge ⊢
      have hhere : inodeOf e = y.inode ∧ isReg e.mode.toNat = true := ⟨hinode.symm.trans hsame.symm, hreg⟩
      show y.seenCount + 1 = seenOf entries i y.inode + if inodeOf e = y.inode ∧ isReg e.mode.toNat = true then 1 else 0
      rw [if_pos hhere, h.seen y hy hlarge]
    · rw [if_neg hsame] at hlarge ⊢
      have hother : ¬(inodeOf e = y.inode ∧ isReg e.mode.toNat = true) :=
        fun hand => hsame (hand.1.symm.trans hinode.symm)
      rw [if_neg hother, add_zero, h.seen y hy hlarge]
  dsimp only
  rw [hmodify]
  -- `q` is the state with the new count
  generalize hq : ({ p with maps := p.maps.map fun x =>
    if x.inode = m.inode then { x with seenCount := x.seenCount + 1 } else x } : Progress) = q
  have hmaps : q.maps = p.maps.map fun x => if x.inode = m.inode then { x with seenCount := x.seenCount + 1 } else x := by
    rw [← hq]
  have hout : q.out = p.out := by rw [← hq]
  have hcounted : Counted entries q.maps := by
    rw [hmaps]
    exact h.counted.see m.inode
  have hmarked : Marked entries q := by
    rw [← hq]
    exact h.marked
  by_cases hopen : m.seenCount + 1 < m.totalCount
  · rw [if_pos hopen]
    refine ⟨hcounted, by rw [hmaps]; exact hseen, hmarked, ?_, by rw [hout]; exact h.sound⟩
    apply Reached.indices_succ h.indices
    rw [written_shared he hshared, if_neg (by omega), append_nil, hout]
  · rw [if_neg hopen]
    have hcomplete : countOf entries (inodeOf e) ≤ seenOf entries (i + 1) (inodeOf e) := by omega
    have hwritten : written entries i = group entries i := by rw [written_shared he hshared, if_pos hcomplete]
    have hmq : q.maps[map]? = some { m with seenCount := m.seenCount + 1 } := by
      rw [hmaps, getElem?_map, hm, Option.map_some, if_pos rfl]
    have hat : inodeAt entries i = some (inodeOf e) := by
      unfold inodeAt
      rw [he]
      rfl
    have hfresh : ∀ j ∈ group entries i, j ∉ q.out.map Prod.fst := by
      intro j hj hold
      rw [← hwritten] at hj
      rw [hout, h.indices] at hold
      obtain ⟨i', hi', hearlier⟩ := mem_flatMap.mp hold
      have hplace := (place_of_mem_written hj).1
      have hplace' := (place_of_mem_written hearlier).1
      have hless := mem_range.mp hi'
      omega
    have hrun := groupTurns hcounted hmq (hat.trans (congrArg some hinode.symm)) hmarked hfresh (i + 1) hlt
    have hgroup : (List.range (i + 1)).filter (fun j => inodeAt entries j = inodeAt entries i) = group entries i := by
      apply (filter_range_of_le hlt ?_).symm
      intro j hj hjlt
      apply decide_eq_false
      intro hsame
      obtain ⟨b, hb, hbinode⟩ := exists_of_inodeAt he hsame
      have hle := (complete_spec hcomplete hb hbinode).1
      omega
    rw [hgroup] at hrun
    refine ⟨by rw [hrun.maps]; exact hcounted, by rw [hrun.maps, hmaps]; exact hseen, hrun.marked, ?_, ?_⟩
    · apply Reached.indices_succ h.indices
      rw [hrun.indices, hwritten, hout]
    · intro x hx
      cases hrun.added x hx with
      | inl hold =>
        rw [hout] at hold
        exact h.sound x hold
      | inr hnew =>
        obtain ⟨hin, hentry, hsuppress⟩ := hnew
        rw [← hwritten] at hin
        rw [(place_of_mem_written hin).1]
        exact ⟨hentry, fun _ => hsuppress⟩

theorem Reached.turn (h : Reached entries i p) (hi : i < entries.length) :
    Reached entries (i + 1) (Bx.Cpio.turn entries p i) := by
  have he : entries[i]? = some entries[i] := getElem?_eq_getElem hi
  obtain ⟨map, m, hget, hm, hinode⟩ := h.counted.get he
  have hnew : p.emitted.getD i false = false := by
    rw [h.marked.getD hi]
    exact decide_eq_false h.fresh
  have htotal := h.counted.total m (mem_of_getElem? hm)
  rw [hinode] at htotal
  unfold Bx.Cpio.turn
  rw [he]
  dsimp only
  rw [hget]
  dsimp only
  rw [hnew, hm]
  dsimp only
  rw [if_neg Bool.false_ne_true, htotal]
  by_cases hshared : Shared entries i
  · have hcond := (shared_iff he).mp hshared
    rw [if_pos (Bool.and_eq_true_iff.mpr ⟨hcond.1, decide_eq_true hcond.2⟩), ← htotal]
    exact h.shared he hshared hm hinode
  · rw [if_neg]
    · exact h.single he hshared map
    · intro hand
      obtain ⟨hreg, hmany⟩ := Bool.and_eq_true_iff.mp hand
      exact hshared ((shared_iff he).mpr ⟨hreg, of_decide_eq_true hmany⟩)

theorem reached_progress (entries : List FsEntry) : Reached entries entries.length (progress entries) := by
  have hcounted := countInodes_spec entries
  have hrun : ∀ k, k ≤ entries.length → Reached entries k ((List.range k).foldl (Bx.Cpio.turn entries)
      ⟨countInodes entries [], replicate entries.length false, []⟩) := by
    intro k hk
    induction k with
    | zero =>
      refine ⟨hcounted.1, ?_, ?_, rfl, ?_⟩
      · intro m hm _
        rw [hcounted.2 m hm]
        rfl
      · apply ext_getElem?
        intro j
        show (replicate entries.length false)[j]? = _
        rw [getElem?_map, getElem?_replicate]
        by_cases hj : j < entries.length
        · rw [if_pos hj, getElem?_range hj]
          rfl
        · rw [if_neg hj, getElem?_eq_none (by rw [length_range]; omega)]
          rfl
      · intro q hq
        cases hq
    | succ k ih =>
      rw [range_succ, foldl_append]
      exact (ih (by omega)).turn hk
  exact hrun entries.length (le_rfl)

end

/-! ## The order -/

section
variable {entries : List FsEntry}

theorem isLnk_of_isReg {mode : Nat} (h : isReg mode = true) : isLnk mode = false := by
  unfold isReg at h
  unfold isLnk
  rw [eq_of_beq h]
  rfl

theorem one_lt_countP {α : Type} {P : α → Bool} {l : List α} {a b : α} (ha : a ∈ l) (hb : b ∈ l) (hne : a ≠ b)
    (hpa : P a = true) (hpb : P b = true) : 1 < l.countP P := by
  rw [countP_eq_length_filter]
  have hnodup : [a, b].Nodup := by simpa using hne
  have hsub : [a, b] ⊆ l.filter P := by simp [ha, hb, hpa, hpb]
  exact (subperm_of_subset hnodup hsub).length_le

theorem isReg_of_mem_written {a : FsEntry} (ha : entries[j]? = some a) (hb : b ∈ entries)
    (hreg : isReg a.mode.toNat = true) (hinode : inodeOf a = inodeOf b) (h : j ∈ written entries i) :
    isReg b.mode.toNat = true := by
  cases hother : isReg b.mode.toNat with
  | true => rfl
  | false =>
    have hne : a ≠ b := by
      intro heq
      simp [heq, hother] at hreg
    have hmany : 1 < countOf entries (inodeOf a) :=
      one_lt_countP (mem_of_getElem? ha) hb hne (decide_eq_true rfl) (decide_eq_true hinode.symm)
    have hshared : Shared entries j := ⟨a, ha, hreg, hmany⟩
    obtain ⟨k, hk⟩ := getElem?_of_mem hb
    unfold written at h
    cases he : entries[i]? with
    | none => simp [he] at h
    | some e =>
      rw [he] at h
      dsimp only at h
      by_cases hsharedI : Shared entries i
      · rw [if_pos hsharedI] at h
        by_cases hcomplete : countOf entries (inodeOf e) ≤ seenOf entries (i + 1) (inodeOf e)
        · rw [if_pos hcomplete] at h
          obtain ⟨a', ha', hinode'⟩ := exists_of_inodeAt he (mem_group.mp h).2
          rw [ha] at ha'
          cases ha'
          have hsame := (complete_spec hcomplete hk (hinode.symm.trans hinode')).2
          simp [hother] at hsame
        · simp [hcomplete] at h
      · rw [if_neg hsharedI] at h
        rw [mem_singleton.mp h] at hshared
        exact absurd hshared hsharedI

theorem pairwise_written (i : Nat) : (written entries i).Pairwise (· < ·) := by
  unfold written
  cases entries[i]? with
  | none => exact List.Pairwise.nil
  | some e =>
    dsimp only
    split
    · split
      · exact pairwise_group i
      · exact List.Pairwise.nil
    · exact pairwise_singleton _ _

theorem ordered_written : ((List.range entries.length).flatMap (written entries)).Pairwise fun i j =>
    place entries i < place entries j ∨ place entries i = place entries j ∧ i < j := by
  apply pairwise_flatMap.mpr
  refine ⟨?_, ?_⟩
  · intro i _
    apply (pairwise_written i).imp_of_mem
    intro j k hj hk hlt
    exact .inr ⟨(place_of_mem_written hj).1.trans (place_of_mem_written hk).1.symm, hlt⟩
  · apply pairwise_lt_range.imp
    intro i i' hlt j hj k hk
    rw [(place_of_mem_written hj).1, (place_of_mem_written hk).1]
    exact .inl hlt

section
variable (hun : Unmixed entries)
include hun

theorem written_place (hj : Shared entries j) :
    Shared entries (place entries j) ∧ written entries (place entries j) = group entries j := by
  obtain ⟨a, ha, hreg, hmany⟩ := id hj
  obtain ⟨hmem, hlast⟩ := hj.place_spec
  obtain ⟨hlt, hsame⟩ := mem_group.mp hmem
  obtain ⟨e, he, hinode⟩ := exists_of_inodeAt ha hsame
  have hregE : isReg e.mode.toNat = true :=
    hun a (mem_of_getElem? ha) e (mem_of_getElem? he) hreg hinode.symm
  have hshared : Shared entries (place entries j) := ⟨e, he, hregE, by rw [hinode]; exact hmany⟩
  refine ⟨hshared, ?_⟩
  have hsplit : countOf entries (inodeOf e) = (entries.take (place entries j + 1)).countP (fun x => inodeOf x = inodeOf e)
      + (entries.drop (place entries j + 1)).countP (fun x => inodeOf x = inodeOf e) := by
    unfold countOf
    rw [← countP_append, take_append_drop]
  have hdrop : (entries.drop (place entries j + 1)).countP (fun x => inodeOf x = inodeOf e) = 0 := by
    apply countP_eq_zero.mpr
    intro x hx hxinode
    obtain ⟨k, hk⟩ := getElem?_of_mem hx
    rw [getElem?_drop] at hk
    have hin : place entries j + 1 + k ∈ group entries j := by
      refine mem_group.mpr ⟨(List.getElem?_eq_some_iff.mp hk).1, ?_⟩
      unfold inodeAt
      rw [hk, ha, Option.map_some, Option.map_some, of_decide_eq_true hxinode, hinode]
    have hle := hlast _ hin
    omega
  have htake : (entries.take (place entries j + 1)).countP (fun x => inodeOf x = inodeOf e) ≤
      seenOf entries (place entries j + 1) (inodeOf e) := by
    apply countP_mono_left
    intro x hx hxinode
    have hxreg := hun e (mem_of_getElem? he) x (mem_of_mem_take hx) hregE (of_decide_eq_true hxinode).symm
    rw [hxinode, hxreg]
    rfl
  rw [written_shared he hshared, if_pos (by omega), group_congr hsame]

theorem mem_written_place (hj : j < entries.length) :
    place entries j < entries.length ∧ j ∈ written entries (place entries j) := by
  by_cases hshared : Shared entries j
  · rw [(written_place hun hshared).2]
    exact ⟨(mem_group.mp hshared.place_spec.1).1, hshared.mem_group⟩
  · rw [place_of_not_shared hshared, written_single (getElem?_eq_getElem hj) hshared]
    exact ⟨hj, mem_singleton.mpr rfl⟩

theorem once_written : ((List.range entries.length).flatMap (written entries)).Perm (List.range entries.length) := by
  apply (perm_ext_iff_of_nodup ?_ nodup_range).mpr
  · intro j
    rw [mem_flatMap, mem_range]
    refine ⟨?_, fun hj => ⟨place entries j, mem_range.mpr (mem_written_place hun hj).1, (mem_written_place hun hj).2⟩⟩
    intro ⟨i, hi, hj⟩
    have hle := (place_of_mem_written hj).2
    have hlt := mem_range.mp hi
    omega
  · apply ordered_written.imp
    intro j k hjk heq
    subst heq
    omega

theorem piece_written (hi : Shared entries i) : ∃ before after,
    (List.range entries.length).flatMap (written entries) = before ++ group entries i ++ after := by
  obtain ⟨hlt, _⟩ := mem_group.mp hi.place_spec.1
  obtain ⟨m, hm⟩ : ∃ m, entries.length = place entries i + (1 + m) := ⟨entries.length - place entries i - 1, by omega⟩
  have hone : ((List.range 1).map fun x => place entries i + x).flatMap (written entries) = group entries i := by
    rw [← (written_place hun hi).2]
    exact flatMap_singleton _ _
  rw [hm, range_add, range_add, flatMap_append, map_append, flatMap_append, hone, ← append_assoc]
  exact ⟨_, _, rfl⟩

end

end

/-- **Main result.** The archive is written as it is to be exactly when no regular file has its inode in common with an
entry of another type. -/
theorem grouped_iff (entries : List FsEntry) : Grouped entries (emissions entries) ↔ Unmixed entries := by
  have hreached := reached_progress entries
  refine ⟨?_, ?_⟩
  · intro h a ha b hb hreg hinode
    obtain ⟨j, hj⟩ := getElem?_of_mem ha
    have hlt : j < entries.length := (List.getElem?_eq_some_iff.mp hj).1
    have hout : j ∈ (emissions entries).map Prod.fst := h.once.mem_iff.mpr (mem_range.mpr hlt)
    unfold emissions at hout
    rw [hreached.indices] at hout
    obtain ⟨i, _, hwritten⟩ := mem_flatMap.mp hout
    exact isReg_of_mem_written hj hb hreg hinode hwritten
  · intro hun
    refine ⟨fun p hp => (hreached.sound p hp).1, ?_, ?_, ?_, ?_⟩
    · unfold emissions
      rw [hreached.indices]
      exact once_written hun
    · unfold emissions
      rw [hreached.indices]
      exact ordered_written
    · intro i hi
      unfold emissions
      rw [hreached.indices]
      exact piece_written hun hi
    · intro p hp hreg
      have hsuppress := (hreached.sound p hp).2 hreg
      unfold payloadOf
      rw [isLnk_of_isReg hreg, if_neg Bool.false_ne_true, hreg, hsuppress, Bool.true_and]
      by_cases hplace : p.1 = place entries p.1
      · rw [if_pos hplace, ← hplace, bne_self_eq_false p.1]
        rfl
      · rw [if_neg hplace, bne_iff_ne.mpr hplace]
        rfl

def fileAt (name : CText) (mode : UInt32) (h : mode.toNat < 2 ^ 16) : FsEntry :=
  ⟨name, mode, h, 0, 0, 1, 0, 7, 0, 0, [], ⟨[], by decide⟩⟩

def fileThenPipe : List FsEntry :=
  [fileAt ⟨ascii "a", by decide⟩ 0o100644 (by decide), fileAt ⟨ascii "b", by decide⟩ 0o010644 (by decide)]

/-- A file was removed, and by the time its directory is read on a pipe has got its inode. -/
theorem grouped_mixed : ¬∀ entries : List FsEntry, Grouped entries (emissions entries) := by
  intro hall
  have hgrouped := hall fileThenPipe
  have hlength : (emissions fileThenPipe).length = 1 := by decide
  have hperm := hgrouped.once.length_eq
  rw [length_map, hlength] at hperm
  cases hperm

end Bx.Cpio
