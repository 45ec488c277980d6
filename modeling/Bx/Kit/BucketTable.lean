import Mathlib.Data.List.Nodup
import Mathlib.Data.List.Perm.Basic
import Mathlib.Algebra.GroupWithZero.Nat

/-!
# Hash tables with chained buckets

Entries hang in the bucket that the hash of their key names, the newest first.
A table that is built anew with more buckets holds the same entries.
-/

namespace Bx.Kit

open List

variable {α κ : Type*} [DecidableEq κ] (key : α → κ) (hash : κ → Nat)

abbrev Buckets (α : Type*) := List (List α)

def bucketOf (buckets : Buckets α) (k : κ) : List α := (buckets[hash k % buckets.length]?).getD []

def findEntry (buckets : Buckets α) (k : κ) : Option α := (bucketOf hash buckets k).find? fun a => key a = k

def pushEntry (buckets : Buckets α) (a : α) : Buckets α :=
  buckets.modify (hash (key a) % buckets.length) (a :: ·)

def rehash (buckets : Buckets α) (count : Nat) : Buckets α :=
  buckets.flatten.foldl (pushEntry key hash) (replicate count [])

def updateEntry (buckets : Buckets α) (k : κ) (f : α → α) : Buckets α :=
  buckets.map fun bucket => bucket.map fun a => if key a = k then f a else a

def removeEntry (buckets : Buckets α) (k : κ) : Buckets α :=
  buckets.map fun bucket => bucket.filter fun a => key a ≠ k

structure IsTable (buckets : Buckets α) : Prop where
  placed : ∀ i bucket, buckets[i]? = some bucket → ∀ a ∈ bucket, hash (key a) % buckets.length = i
  nodup : (buckets.flatten.map key).Nodup

variable {key hash} {buckets : Buckets α}

omit [DecidableEq κ] in
theorem eq_of_key (h : IsTable key hash buckets) {a b : α} (ha : a ∈ buckets.flatten) (hb : b ∈ buckets.flatten)
    (heq : key a = key b) : a = b :=
  inj_on_of_nodup_map h.nodup ha hb heq

variable {a : α} {k : κ}

omit [DecidableEq κ] in
theorem mem_flatten_of_bucketOf (ha : a ∈ bucketOf hash buckets k) : a ∈ buckets.flatten := by
  unfold bucketOf at ha
  cases hbucket : buckets[hash k % buckets.length]? with
  | none => simp [hbucket] at ha
  | some bucket =>
    rw [hbucket] at ha
    exact mem_flatten.mpr ⟨bucket, mem_of_getElem? hbucket, ha⟩

theorem findEntry_eq_some_iff (h : IsTable key hash buckets) :
    findEntry key hash buckets k = some a ↔ a ∈ buckets.flatten ∧ key a = k := by
  refine ⟨?_, ?_⟩
  · intro hfind
    have hmem := mem_of_find?_eq_some hfind
    have hkey := find?_some hfind
    exact ⟨mem_flatten_of_bucketOf hmem, by simpa using hkey⟩
  · intro ⟨hmem, hkey⟩
    obtain ⟨bucket, hbucket, ha⟩ := mem_flatten.mp hmem
    obtain ⟨i, hi⟩ := getElem?_of_mem hbucket
    have hplace := h.placed i bucket hi a ha
    have hof : bucketOf hash buckets k = bucket := by
      unfold bucketOf
      rw [← hkey, hplace, hi]
      rfl
    unfold findEntry
    rw [hof]
    cases hfind : bucket.find? fun b => key b = k with
    | none =>
      have hnone := find?_eq_none.mp hfind a ha
      exact absurd (by simpa using hkey) hnone
    | some b =>
      have hb := mem_of_find?_eq_some hfind
      have hbkey : key b = k := by simpa using find?_some hfind
      have hsame := eq_of_key h (mem_flatten.mpr ⟨bucket, hbucket, hb⟩) hmem (hbkey.trans hkey.symm)
      rw [hsame]

theorem findEntry_eq_none_iff (h : IsTable key hash buckets) :
    findEntry key hash buckets k = none ↔ ∀ a ∈ buckets.flatten, key a ≠ k := by
  refine ⟨?_, ?_⟩
  · intro hnone a ha hkey
    simp [(findEntry_eq_some_iff h).mpr ⟨ha, hkey⟩] at hnone
  · intro hall
    cases hfind : findEntry key hash buckets k with
    | none => rfl
    | some a =>
      obtain ⟨ha, hkey⟩ := (findEntry_eq_some_iff h).mp hfind
      exact absurd hkey (hall a ha)

/-! ## Keys that are read differently -/

omit [DecidableEq κ] in
theorem IsTable.congr {key' : α → κ} (h : IsTable key hash buckets) (hkey : ∀ a ∈ buckets.flatten, key' a = key a) :
    IsTable key' hash buckets := by
  refine ⟨?_, ?_⟩
  · intro i bucket hi a ha
    rw [hkey a (mem_flatten.mpr ⟨bucket, mem_of_getElem? hi, ha⟩)]
    exact h.placed i bucket hi a ha
  · rw [map_congr_left hkey]
    exact h.nodup

/-! ## A new entry -/

omit [DecidableEq κ] in
theorem flatten_modify_perm {i : Nat} (hi : i < buckets.length) (a : α) :
    (buckets.modify i (a :: ·)).flatten.Perm (a :: buckets.flatten) := by
  induction buckets generalizing i with
  | nil => exact absurd hi (Nat.not_lt_zero i)
  | cons bucket buckets ih =>
    cases i with
    | zero => exact List.Perm.refl _
    | succ i =>
      rw [modify_succ_cons, flatten_cons, flatten_cons]
      have hrest := ih (i := i) (by simpa using hi)
      exact (hrest.append_left bucket).trans perm_middle

omit [DecidableEq κ] in
@[simp] theorem length_pushEntry (buckets : Buckets α) (a : α) :
    (pushEntry key hash buckets a).length = buckets.length :=
  length_modify ..

omit [DecidableEq κ] in
theorem pushEntry_perm (hpos : 0 < buckets.length) (a : α) :
    (pushEntry key hash buckets a).flatten.Perm (a :: buckets.flatten) :=
  flatten_modify_perm (Nat.mod_lt _ hpos) a

omit [DecidableEq κ] in
theorem isTable_pushEntry (h : IsTable key hash buckets) (hpos : 0 < buckets.length)
    (hnew : ∀ b ∈ buckets.flatten, key b ≠ key a) : IsTable key hash (pushEntry key hash buckets a) := by
  refine ⟨?_, ?_⟩
  · intro i bucket hi b hb
    rw [length_pushEntry]
    unfold pushEntry at hi
    rw [getElem?_modify] at hi
    cases hold : buckets[i]? with
    | none => simp [hold] at hi
    | some old =>
      rw [hold, Option.map_eq_map, Option.map_some, Option.some.injEq] at hi
      rw [← hi] at hb
      by_cases hplace : hash (key a) % buckets.length = i
      · rw [if_pos hplace] at hb
        cases mem_cons.mp hb with
        | inl heq => rw [heq]; exact hplace
        | inr hmem => exact h.placed i old hold b hmem
      · rw [if_neg hplace] at hb
        exact h.placed i old hold b hb
  · apply ((pushEntry_perm hpos a).map key).nodup_iff.mpr
    rw [map_cons, nodup_cons]
    refine ⟨?_, h.nodup⟩
    intro hmem
    obtain ⟨b, hb, heq⟩ := mem_map.mp hmem
    exact hnew b hb heq

/-! ## More buckets -/

omit [DecidableEq κ] in
theorem isTable_replicate (count : Nat) : IsTable key hash (replicate count ([] : List α)) := by
  refine ⟨?_, ?_⟩
  · intro i bucket hi a ha
    simp [eq_of_mem_replicate (mem_of_getElem? hi)] at ha
  · rw [flatten_replicate_nil]
    exact nodup_nil

omit [DecidableEq κ] in
theorem foldl_pushEntry (entries : List α) (h : IsTable key hash buckets) (hpos : 0 < buckets.length)
    (hnodup : ((buckets.flatten ++ entries).map key).Nodup) :
    IsTable key hash (entries.foldl (pushEntry key hash) buckets) ∧
      (entries.foldl (pushEntry key hash) buckets).length = buckets.length ∧
      (entries.foldl (pushEntry key hash) buckets).flatten.Perm (buckets.flatten ++ entries) := by
  induction entries generalizing buckets with
  | nil => exact ⟨h, rfl, by rw [append_nil]; exact List.Perm.refl _⟩
  | cons a entries ih =>
    have hperm := @pushEntry_perm _ _ key hash buckets hpos a
    have hmove : ((pushEntry key hash buckets a).flatten ++ entries).Perm (buckets.flatten ++ a :: entries) :=
      (hperm.append_right entries).trans perm_middle.symm
    have hnew : ∀ b ∈ buckets.flatten, key b ≠ key a := by
      intro b hb heq
      rw [map_append, map_cons] at hnodup
      exact (nodup_append.mp hnodup).2.2 (key b) (mem_map_of_mem hb) (key a) mem_cons_self heq
    obtain ⟨htable, hlength, hrest⟩ := ih (isTable_pushEntry h hpos hnew) (by rwa [length_pushEntry])
      ((hmove.map key).nodup_iff.mpr hnodup)
    exact ⟨htable, hlength.trans (length_pushEntry buckets a), hrest.trans hmove⟩

omit [DecidableEq κ] in
theorem foldl_modify {place : α → Nat} {count : Nat} {entries : List α}
    (hplace : ∀ a ∈ entries, place a = hash (key a) % count) (hlen : buckets.length = count) :
    entries.foldl (fun buckets a => buckets.modify (place a) (a :: ·)) buckets =
      entries.foldl (pushEntry key hash) buckets := by
  induction entries generalizing buckets with
  | nil => rfl
  | cons a entries ih =>
    have hpush : buckets.modify (place a) (a :: ·) = pushEntry key hash buckets a := by
      unfold pushEntry
      rw [hplace a mem_cons_self, hlen]
    rw [foldl_cons, foldl_cons, hpush]
    exact ih (fun b hb => hplace b (mem_cons_of_mem _ hb)) ((length_pushEntry buckets a).trans hlen)

omit [DecidableEq κ] in
theorem rehash_spec (h : IsTable key hash buckets) {count : Nat} (hpos : 0 < count) :
    IsTable key hash (rehash key hash buckets count) ∧ (rehash key hash buckets count).length = count ∧
      (rehash key hash buckets count).flatten.Perm buckets.flatten := by
  have hempty : (replicate count ([] : List α)).flatten = [] := flatten_replicate_nil
  have hspec := foldl_pushEntry buckets.flatten (@isTable_replicate _ _ key hash count)
    (by rwa [length_replicate]) (by rw [hempty]; exact h.nodup)
  rw [hempty, length_replicate] at hspec
  exact hspec

theorem findEntry_of_perm {buckets' : Buckets α} (h : IsTable key hash buckets) (h' : IsTable key hash buckets')
    (hperm : buckets'.flatten.Perm buckets.flatten) (k : κ) :
    findEntry key hash buckets' k = findEntry key hash buckets k := by
  apply Option.ext
  intro a
  rw [findEntry_eq_some_iff h', findEntry_eq_some_iff h, hperm.mem_iff]

theorem findEntry_pushEntry (h : IsTable key hash buckets) (hpos : 0 < buckets.length)
    (hnew : ∀ b ∈ buckets.flatten, key b ≠ key a) (k : κ) :
    findEntry key hash (pushEntry key hash buckets a) k = if key a = k then some a else findEntry key hash buckets k := by
  have h' := isTable_pushEntry h hpos hnew
  have hperm := @pushEntry_perm _ _ key hash buckets hpos a
  by_cases hk : key a = k
  · rw [if_pos hk]
    exact (findEntry_eq_some_iff h').mpr ⟨hperm.mem_iff.mpr mem_cons_self, hk⟩
  · rw [if_neg hk]
    apply Option.ext
    intro b
    rw [findEntry_eq_some_iff h', findEntry_eq_some_iff h, hperm.mem_iff, mem_cons]
    refine ⟨?_, fun hb => ⟨.inr hb.1, hb.2⟩⟩
    intro ⟨hb, hkey⟩
    cases hb with
    | inl heq => exact absurd (heq ▸ hkey) hk
    | inr hmem => exact ⟨hmem, hkey⟩

/-! ## An entry that changes -/

omit [DecidableEq κ] in
theorem map_key_map {f : α → α} (hf : ∀ a, key (f a) = key a) (bucket : List α) :
    (bucket.map f).map key = bucket.map key := by
  rw [map_map]
  exact map_congr_left fun a _ => hf a

theorem flatten_updateEntry (buckets : Buckets α) (k : κ) (f : α → α) :
    (updateEntry key buckets k f).flatten = buckets.flatten.map fun a => if key a = k then f a else a := by
  unfold updateEntry
  rw [map_flatten]

@[simp] theorem length_updateEntry (buckets : Buckets α) (k : κ) (f : α → α) :
    (updateEntry key buckets k f).length = buckets.length :=
  length_map _

variable {e : α}

theorem updateEntry_split (f : α → α) (h : IsTable key hash buckets) (he : e ∈ buckets.flatten) :
    ∃ before after, buckets.flatten = before ++ e :: after ∧
      (updateEntry key buckets (key e) f).flatten = before ++ f e :: after := by
  obtain ⟨before, after, hsplit⟩ := append_of_mem he
  refine ⟨before, after, hsplit, ?_⟩
  have hnodup := h.nodup
  rw [hsplit, map_append, map_cons] at hnodup
  obtain ⟨_, hafter, hdisjoint⟩ := nodup_append.mp hnodup
  have hbefore : before.map (fun a => if key a = key e then f a else a) = before.map id := by
    apply map_congr_left
    intro a ha
    exact if_neg (hdisjoint (key a) (mem_map_of_mem ha) (key e) mem_cons_self)
  have hrest : after.map (fun a => if key a = key e then f a else a) = after.map id := by
    apply map_congr_left
    intro a ha
    apply if_neg
    intro heq
    exact (nodup_cons.mp hafter).1 (heq ▸ mem_map_of_mem ha)
  rw [flatten_updateEntry, hsplit, map_append, map_cons, if_pos rfl, hbefore, hrest, map_id, map_id]

theorem sum_updateEntry (g : α → Nat) (f : α → α) (h : IsTable key hash buckets) (he : e ∈ buckets.flatten) :
    ((updateEntry key buckets (key e) f).flatten.map g).sum + g e = (buckets.flatten.map g).sum + g (f e) := by
  obtain ⟨before, after, hsplit, hupdated⟩ := updateEntry_split f h he
  rw [hupdated, hsplit]
  simp only [map_append, map_cons, sum_append, sum_cons]
  omega

section
variable {f : α → α} (hf : ∀ a, key (f a) = key a) (h : IsTable key hash buckets)
include hf h

theorem isTable_updateEntry (k : κ) : IsTable key hash (updateEntry key buckets k f) := by
  have hkeep : ∀ a, key (if key a = k then f a else a) = key a := by
    intro a
    split
    · exact hf a
    · rfl
  refine ⟨?_, ?_⟩
  · intro i bucket hi b hb
    rw [length_updateEntry]
    unfold updateEntry at hi
    rw [getElem?_map] at hi
    cases hold : buckets[i]? with
    | none => simp [hold] at hi
    | some old =>
      rw [hold, Option.map_some, Option.some.injEq] at hi
      rw [← hi] at hb
      obtain ⟨a, ha, hab⟩ := mem_map.mp hb
      rw [← hab, hkeep]
      exact h.placed i old hold a ha
  · rw [flatten_updateEntry, map_key_map hkeep]
    exact h.nodup

theorem findEntry_updateEntry (k k' : κ) : findEntry key hash (updateEntry key buckets k f) k' =
      if k' = k then (findEntry key hash buckets k').map f else findEntry key hash buckets k' := by
  have h' := isTable_updateEntry hf h k
  apply Option.ext
  intro b
  rw [findEntry_eq_some_iff h', flatten_updateEntry]
  by_cases hk : k' = k
  · rw [if_pos hk, Option.map_eq_some_iff]
    refine ⟨?_, ?_⟩
    · intro ⟨hb, hkey⟩
      obtain ⟨a, ha, hab⟩ := mem_map.mp hb
      by_cases hak : key a = k
      · rw [if_pos hak] at hab
        exact ⟨a, (findEntry_eq_some_iff h).mpr ⟨ha, hak.trans hk.symm⟩, hab⟩
      · rw [if_neg hak] at hab
        rw [hab] at hak
        exact absurd (hkey.trans hk) hak
    · intro ⟨a, hfind, hab⟩
      obtain ⟨ha, hak⟩ := (findEntry_eq_some_iff h).mp hfind
      refine ⟨mem_map.mpr ⟨a, ha, ?_⟩, ?_⟩
      · rw [if_pos (hak.trans hk), hab]
      · rw [← hab, hf, hak]
  · rw [if_neg hk, findEntry_eq_some_iff h]
    refine ⟨?_, ?_⟩
    · intro ⟨hb, hkey⟩
      obtain ⟨a, ha, hab⟩ := mem_map.mp hb
      by_cases hak : key a = k
      · rw [if_pos hak] at hab
        rw [← hab, hf] at hkey
        exact absurd (hkey.symm.trans hak) hk
      · rw [if_neg hak] at hab
        rw [← hab] at hkey ⊢
        exact ⟨ha, hkey⟩
    · intro ⟨hb, hkey⟩
      refine ⟨mem_map.mpr ⟨b, hb, ?_⟩, hkey⟩
      rw [if_neg fun hbk => hk (hkey.symm.trans hbk)]

end

/-! ## One chain that changes

An operation goes to the bucket of a key and changes what it finds there. -/

theorem eraseP_eq_filter {chain : List α} (hnodup : (chain.map key).Nodup) (k : κ) :
    chain.eraseP (fun a => key a = k) = chain.filter fun a => key a ≠ k := by
  induction chain with
  | nil => rfl
  | cons a chain ih =>
    rw [map_cons, nodup_cons] at hnodup
    by_cases hk : key a = k
    · rw [eraseP_cons_of_pos (by simpa using hk), filter_cons_of_neg (by simpa using hk)]
      symm
      apply filter_eq_self.mpr
      intro b hb
      have hne : key b ≠ k := fun heq => hnodup.1 ((hk.trans heq.symm) ▸ mem_map_of_mem hb)
      simpa using hne
    · rw [eraseP_cons_of_neg (by simpa using hk), filter_cons_of_pos (by simpa using hk), ih hnodup.2]

section
variable (h : IsTable key hash buckets)
include h

omit [DecidableEq κ] in
theorem nodup_bucket {bucket : List α} (hmem : bucket ∈ buckets) : (bucket.map key).Nodup :=
  h.nodup.sublist ((sublist_flatten_of_mem hmem).map key)

omit [DecidableEq κ] in
theorem modify_eq_map (k : κ) {g f : List α → List α}
    (hsame : ((bucketOf hash buckets k).map key).Nodup → g (bucketOf hash buckets k) = f (bucketOf hash buckets k))
    (hother : ∀ bucket, (∀ a ∈ bucket, key a ≠ k) → f bucket = bucket) :
    buckets.modify (hash k % buckets.length) g = buckets.map f := by
  apply ext_getElem?
  intro i
  rw [getElem?_modify, getElem?_map]
  cases hi : buckets[i]? with
  | none => rfl
  | some bucket =>
    rw [Option.map_eq_map, Option.map_some, Option.map_some]
    have hmem := mem_of_getElem? hi
    by_cases hplace : hash k % buckets.length = i
    · have hof : bucketOf hash buckets k = bucket := by
        unfold bucketOf
        rw [hplace, hi]
        rfl
      rw [hof] at hsame
      rw [if_pos hplace, hsame (nodup_bucket h hmem)]
    · rw [if_neg hplace, hother bucket]
      intro a ha hkey
      exact hplace (hkey ▸ h.placed i bucket hi a ha)

theorem modify_eraseP (k : κ) :
    buckets.modify (hash k % buckets.length) (fun bucket => bucket.eraseP fun a => key a = k) =
      removeEntry key buckets k := by
  refine modify_eq_map h k (fun hnodup => eraseP_eq_filter hnodup k) ?_
  intro bucket hne
  apply filter_eq_self.mpr
  intro a ha
  simpa using hne a ha

end

/-! ## An entry that goes -/

theorem flatten_removeEntry (buckets : Buckets α) (k : κ) :
    (removeEntry key buckets k).flatten = buckets.flatten.filter fun a => key a ≠ k := by
  unfold removeEntry
  rw [filter_flatten]

@[simp] theorem length_removeEntry (buckets : Buckets α) (k : κ) : (removeEntry key buckets k).length = buckets.length :=
  length_map _

section
variable (h : IsTable key hash buckets)
include h

theorem isTable_removeEntry (k : κ) : IsTable key hash (removeEntry key buckets k) := by
  refine ⟨?_, ?_⟩
  · intro i bucket hi a ha
    rw [length_removeEntry]
    unfold removeEntry at hi
    rw [getElem?_map] at hi
    cases hold : buckets[i]? with
    | none => simp [hold] at hi
    | some old =>
      rw [hold, Option.map_some, Option.some.injEq] at hi
      rw [← hi] at ha
      exact h.placed i old hold a (mem_filter.mp ha).1
  · rw [flatten_removeEntry]
    exact h.nodup.sublist (filter_sublist.map key)

theorem findEntry_removeEntry (k k' : κ) :
    findEntry key hash (removeEntry key buckets k) k' = if k' = k then none else findEntry key hash buckets k' := by
  have h' := isTable_removeEntry h k
  by_cases hk : k' = k
  · rw [if_pos hk, findEntry_eq_none_iff h', flatten_removeEntry]
    intro a ha heq
    have hne := (mem_filter.mp ha).2
    exact absurd (heq.trans hk) (by simpa using hne)
  · rw [if_neg hk]
    apply Option.ext
    intro a
    rw [findEntry_eq_some_iff h', findEntry_eq_some_iff h, flatten_removeEntry, mem_filter]
    refine ⟨fun ⟨ha, hkey⟩ => ⟨ha.1, hkey⟩, fun ⟨ha, hkey⟩ => ⟨⟨ha, ?_⟩, hkey⟩⟩
    rw [hkey]
    simpa using hk

theorem removeEntry_perm (he : e ∈ buckets.flatten) :
    buckets.flatten.Perm (e :: (removeEntry key buckets (key e)).flatten) := by
  obtain ⟨before, after, hsplit⟩ := append_of_mem he
  have hnodup := h.nodup
  rw [hsplit, map_append, map_cons] at hnodup
  obtain ⟨_, hafter, hdisjoint⟩ := nodup_append.mp hnodup
  have hbefore : before.filter (fun a => key a ≠ key e) = before := by
    apply filter_eq_self.mpr
    intro a ha
    simpa using hdisjoint (key a) (mem_map_of_mem ha) (key e) mem_cons_self
  have hrest : after.filter (fun a => key a ≠ key e) = after := by
    apply filter_eq_self.mpr
    intro a ha
    have hne : key a ≠ key e := fun heq => (nodup_cons.mp hafter).1 (heq ▸ mem_map_of_mem ha)
    simpa using hne
  rw [flatten_removeEntry, hsplit, filter_append, filter_cons_of_neg (by simp), hbefore, hrest]
  exact perm_middle

theorem flatten_length_removeEntry (he : e ∈ buckets.flatten) :
    (removeEntry key buckets (key e)).flatten.length + 1 = buckets.flatten.length :=
  (removeEntry_perm h he).length_eq.symm

end

end Bx.Kit
