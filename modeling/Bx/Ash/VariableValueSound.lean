import Bx.Ash.VariableValue
import Mathlib.Data.List.Find
import Mathlib.Data.List.Induction

/-!
# Array values are finite maps

One call is looked at next to whatever else is allocated: `Sets` says what it
does to its array and that the rest stays.
-/

namespace Bx.Ash.VariableValue

open Bx.Kit List

/-! ## Setting one key -/

/-- What a call that sets a key does to an array, next to whatever else is allocated -/
structure Sets {κ σ : Type*} [DecidableEq κ] (owned : σ → List Nat) (Ok : Heap → σ → Prop)
    (get : Heap → σ → κ → Option CStr) (mem : Heap) (array : σ) (key : κ) (text : Option CStr) (rest : List Nat)
      (result : Heap × σ × Bool) : Prop where
  owns : Owns result.1 (owned result.2.1 ++ rest)
  agree : Agree mem result.1 rest
  ok : Ok result.1 result.2.1
  get : ∀ k, get result.1 result.2.1 k = if result.2.2 = true ∧ k = key then text else get mem array k

variable {mem mem' : Heap} {rest : List Nat} {text : Option CStr} {env : SetEnv}

theorem Sets.of_unchanged {κ σ : Type*} [DecidableEq κ] {owned : σ → List Nat} {Ok : Heap → σ → Prop}
    {get : Heap → σ → κ → Option CStr} {array : σ} {key : κ} (hlocal : Local mem mem' [] [])
    (howns : Owns mem (owned array ++ rest)) (hok : Ok mem' array) (hget : ∀ k, get mem' array k = get mem array k) :
    Sets owned Ok get mem array key text rest (mem', array, false) := by
  obtain ⟨howns', hagree⟩ := hlocal _ howns
  refine ⟨howns', hagree.mono fun a ha => mem_append_right _ ha, hok, ?_⟩
  intro k
  rw [if_neg fun hk => Bool.false_ne_true hk.1, hget]

theorem valueDuplicate_cases (copied : Bool) (mem : Heap) (text : Option CStr) :
    (∃ b, text = some b ∧ valueDuplicate copied mem text = ((mem.alloc b).1, some (mem.alloc b).2)) ∨
      valueDuplicate copied mem text = (mem, none) := by
  unfold valueDuplicate
  cases text with
  | none => exact .inr rfl
  | some b =>
    dsimp only
    split
    · exact .inr rfl
    · split
      · exact .inl ⟨b, rfl, rfl⟩
      · exact .inr rfl

/-! ## Indexed arrays -/

structure IndexedOk (array : IndexedArray) : Prop where
  sorted : array.elements.Pairwise fun a b => a.index < b.index
  fits : array.elements.length ≤ array.capacity

section
variable {array array' : IndexedArray} {index : Nat} {element found : IndexedElement}

theorem indexedFind_iff (h : IndexedOk array) :
    indexedFind array index = some element ↔ element ∈ array.elements ∧ element.index = index := by
  unfold indexedFind
  rw [Option.filter_eq_some_iff, decide_eq_true_eq]
  exact getElem?_keyBound h.sorted element

theorem indexedFind_none_iff (h : IndexedOk array) :
    indexedFind array index = none ↔ ∀ element ∈ array.elements, element.index ≠ index := by
  refine ⟨?_, ?_⟩
  · intro hnone element hmem hindex
    simp [(indexedFind_iff h).mpr ⟨hmem, hindex⟩] at hnone
  · intro hall
    cases hfind : indexedFind array index with
    | none => rfl
    | some element =>
      obtain ⟨hmem, hindex⟩ := (indexedFind_iff h).mp hfind
      exact absurd hindex (hall element hmem)

theorem indexedGet_agree (h : IndexedOk array) (hagree : Agree mem mem' array.owned) (index : Nat) :
    indexedGet mem' array index = indexedGet mem array index := by
  unfold indexedGet
  cases hfind : indexedFind array index with
  | none => rfl
  | some element => exact hagree element.value (mem_map_of_mem ((indexedFind_iff h).mp hfind).1)

theorem indexedFind_split (hfind : indexedFind array index = some found) :
    ∃ before after, array.elements = before ++ found :: after ∧ before.length = indexedLowerBound array index := by
  unfold indexedFind at hfind
  obtain ⟨hget, _⟩ := Option.filter_eq_some_iff.mp hfind
  obtain ⟨hlt, hat⟩ := List.getElem?_eq_some_iff.mp hget
  refine ⟨array.elements.take (indexedLowerBound array index), array.elements.drop (indexedLowerBound array index + 1),
    ?_, ?_⟩
  · rw [← hat, ← drop_eq_getElem_cons hlt, take_append_drop]
  · rw [length_take, min_eq_left (le_of_lt hlt)]

variable {capacity : Nat}

theorem lt_grownCapacity (h : ¬grownCapacity capacity < capacity) :
    capacity < grownCapacity capacity := by
  unfold grownCapacity at h ⊢
  split at h
  · next hzero =>
    rw [if_pos hzero, hzero]
    decide
  · next hpos =>
    rw [if_neg hpos]
    omega

theorem indexedReserve_spec (h : IndexedOk array) (hres : indexedReserve env array = some array') :
    array'.elements = array.elements ∧ array.elements.length < array'.capacity := by
  unfold indexedReserve at hres
  have hfits := h.fits
  split at hres
  · next hfull =>
    dsimp only at hres
    split at hres
    · cases hres
    · next hroom =>
      split at hres
      · cases hres
        refine ⟨rfl, ?_⟩
        rw [hfull]
        exact lt_grownCapacity fun hlt => hroom (.inl hlt)
      · cases hres
  · cases hres
    exact ⟨rfl, by omega⟩

theorem indexedGet_other (h : IndexedOk array) (h' : IndexedOk array')
    (hother : ∀ e : IndexedElement, e.index ≠ index → (e ∈ array'.elements ↔ e ∈ array.elements))
    (hagree : ∀ e ∈ array.elements, e.index ≠ index → mem'.read e.value = mem.read e.value) {k : Nat} (hk : k ≠ index) :
    indexedGet mem' array' k = indexedGet mem array k := by
  have hfind : indexedFind array' k = indexedFind array k := by
    apply Option.ext
    intro e
    rw [indexedFind_iff h', indexedFind_iff h]
    exact and_congr_left fun he => hother e (he.trans_ne hk)
  unfold indexedGet
  rw [hfind]
  cases hcase : indexedFind array k with
  | none => rfl
  | some e =>
    obtain ⟨hmem, hindex⟩ := (indexedFind_iff h).mp hcase
    exact hagree e hmem (hindex.trans_ne hk)

theorem indexedGet_mem (h : IndexedOk array) (hmem : element ∈ array.elements) :
    indexedGet mem array element.index = mem.read element.value := by
  unfold indexedGet
  rw [(indexedFind_iff h).mpr ⟨hmem, rfl⟩]
  rfl

theorem owned_split {before after : List IndexedElement} (hsplit : array.elements = before ++ element :: after) :
    array.owned.Perm (element.value :: (before ++ after).map (·.value)) := by
  unfold IndexedArray.owned
  rw [hsplit, map_append, map_cons, map_append]
  exact perm_middle

theorem mem_split_iff {before after : List IndexedElement} {e : IndexedElement} (hne : e.index ≠ element.index) :
    e ∈ before ++ element :: after ↔ e ∈ before ++ after := by
  have hother : e ≠ element := fun heq => hne (heq ▸ rfl)
  rw [mem_append, mem_append, mem_cons]
  simp only [hother, false_or]

section
variable (h : IndexedOk array)
include h

section
variable (howns : Owns mem (array.owned ++ rest))
include howns

theorem indexedSet_found (b : CStr) (hfind : indexedFind array index = some found) :
    Sets IndexedArray.owned (fun _ => IndexedOk) indexedGet mem array index (some b) rest
      ((mem.alloc b).1.free found.value,
        { array with elements := array.elements.set (indexedLowerBound array index) { found with value := (mem.alloc b).2 } },
        true) := by
  obtain ⟨before, after, hsplit, hlength⟩ := indexedFind_split hfind
  have hindex := ((indexedFind_iff h).mp hfind).2
  have hset : array.elements.set (indexedLowerBound array index) { found with value := (mem.alloc b).2 } =
      before ++ { found with value := (mem.alloc b).2 } :: after := by
    rw [hsplit, ← hlength, set_append_right _ _ (Nat.le_refl _), Nat.sub_self, set_cons_zero]
  rw [hset]
  have hpre := owned_split hsplit
  have howns' : Owns mem (found.value :: ((before ++ after).map (·.value) ++ rest)) :=
      howns.perm (hpre.append_right rest)
  have hlocal := (Local.replace mem found.value b).frame ((before ++ after).map (·.value))
  have hok : IndexedOk { array with elements := before ++ { found with value := (mem.alloc b).2 } :: after } := by
    refine ⟨?_, ?_⟩
    · have hsorted := h.sorted
      rw [hsplit, pairwise_append, pairwise_cons] at hsorted
      rw [pairwise_append, pairwise_cons]
      refine ⟨hsorted.1, hsorted.2.1, ?_⟩
      intro e he e' he'
      cases mem_cons.mp he' with
      | inl heq =>
        rw [heq]
        exact hsorted.2.2 e he found mem_cons_self
      | inr hmem => exact hsorted.2.2 e he e' (mem_cons_of_mem _ hmem)
    · have hfits := h.fits
      rw [hsplit, length_append, length_cons] at hfits
      rw [length_append, length_cons]
      exact hfits
  have howned : ((mem.alloc b).2 :: (before ++ after).map (·.value)).Perm
      (IndexedArray.owned { array with elements := before ++ { found with value := (mem.alloc b).2 } :: after }) :=
    (@owned_split { array with elements := before ++ { found with value := (mem.alloc b).2 } :: after } _ _ _ rfl).symm
  obtain ⟨hresult, hagree⟩ := (hlocal.perm hpre howned) rest howns
  refine ⟨hresult, hagree, hok, ?_⟩
  intro k
  by_cases hk : k = index
  · rw [if_pos ⟨rfl, hk⟩, hk, ← hindex]
    exact (indexedGet_mem hok (mem_append_right _ mem_cons_self)).trans (read_replace howns' b)
  · rw [if_neg fun hand => hk hand.2]
    apply indexedGet_other h hok _ _ hk
    · intro e he
      rw [hsplit]
      exact (mem_split_iff (hindex.symm ▸ he)).trans (mem_split_iff (hindex.symm ▸ he)).symm
    · intro e he hne
      rw [hsplit, mem_split_iff (hindex.symm ▸ hne)] at he
      exact (Local.replace mem found.value b).agree _ (howns.perm (hpre.append_right rest)) e.value
        (mem_map_of_mem he)

theorem indexedSet_new (b : CStr)
    (hcapacity : array.elements.length < capacity) (hfind : indexedFind array index = none) :
    Sets IndexedArray.owned (fun _ => IndexedOk) indexedGet mem array index (some b) rest
      ((mem.alloc b).1,
        { elements := array.elements.take (indexedLowerBound array index) ++
            { index := index, value := (mem.alloc b).2 } :: array.elements.drop (indexedLowerBound array index)
          capacity := capacity },
        true) := by
  have hnone := (indexedFind_none_iff h).mp hfind
  have hjoin := take_append_drop (indexedLowerBound array index) array.elements
  have hsorted := insert_keyBound h.sorted (b := { index := index, value := (mem.alloc b).2 }) rfl hnone
  have hlocal := (Local.alloc mem b).frame array.owned
  obtain ⟨hresult, hagree⟩ := hlocal rest howns
  have hok : IndexedOk
      { elements := array.elements.take (indexedLowerBound array index) ++
          { index := index, value := (mem.alloc b).2 } :: array.elements.drop (indexedLowerBound array index)
        capacity := capacity } := by
    refine ⟨hsorted, ?_⟩
    dsimp only
    rw [length_append, length_cons, ← Nat.add_assoc, ← length_append, hjoin]
    exact hcapacity
  have howned := @owned_split _ _ _ _ (rfl : (IndexedArray.mk (array.elements.take (indexedLowerBound array index) ++
    { index := index, value := (mem.alloc b).2 } ::
      array.elements.drop (indexedLowerBound array index)) capacity).elements = _)
  rw [hjoin] at howned
  refine ⟨hresult.perm (howned.symm.append_right rest), hagree, hok, ?_⟩
  intro k
  by_cases hk : k = index
  · rw [if_pos ⟨rfl, hk⟩, hk]
    exact (indexedGet_mem hok (mem_append_right _ mem_cons_self)).trans (Memory.read_alloc_self mem b)
  · rw [if_neg fun hand => hk hand.2]
    apply indexedGet_other h hok _ _ hk
    · intro e he
      rw [mem_split_iff he, hjoin]
    · intro e he _
      exact (Local.alloc mem b).agree array.owned howns e.value (mem_map_of_mem he)

theorem indexedSet_sets (env : SetEnv) (text : Option CStr) :
    Sets IndexedArray.owned (fun _ => IndexedOk) indexedGet mem array index text rest
      (indexedSet env mem array index text) := by
  unfold indexedSet
  dsimp only
  cases valueDuplicate_cases env.copied mem text with
  | inr hnone =>
    rw [hnone]
    exact .of_unchanged (Local.refl mem []) howns h fun k => rfl
  | inl hcopy =>
    obtain ⟨b, htext, hdup⟩ := hcopy
    rw [hdup, htext]
    dsimp only
    cases hfind : indexedFind array index with
    | some found => exact indexedSet_found h howns b hfind
    | none =>
      dsimp only
      cases hreserve : indexedReserve env array with
      | none =>
        refine .of_unchanged (Local.discard mem b) howns h ?_
        exact indexedGet_agree h (((Local.discard mem b) _ howns).2.mono fun a ha => mem_append_left _ ha)
      | some grown =>
        obtain ⟨helements, hcapacity⟩ := indexedReserve_spec h hreserve
        dsimp only
        rw [helements]
        exact indexedSet_new h howns b hcapacity hfind

theorem indexedUnset_sets (index : Nat) :
    Sets IndexedArray.owned (fun _ => IndexedOk) indexedGet mem array index none rest
      (indexedUnset mem array index) := by
  unfold indexedUnset
  cases hfind : indexedFind array index with
  | none => exact .of_unchanged (Local.refl mem []) howns h fun k => rfl
  | some found =>
    dsimp only
    obtain ⟨before, after, hsplit, hlength⟩ := indexedFind_split hfind
    have hindex := ((indexedFind_iff h).mp hfind).2
    have herase : array.elements.eraseIdx (indexedLowerBound array index) = before ++ after := by
      rw [hsplit, ← hlength, eraseIdx_append_of_length_le (Nat.le_refl _), Nat.sub_self, eraseIdx_cons_zero]
    rw [herase]
    have hpre := owned_split hsplit
    have hlocal := (Local.free mem found.value).frame ((before ++ after).map (·.value))
    obtain ⟨hresult, hagree⟩ := (hlocal.perm hpre (List.Perm.refl _)) rest howns
    have hok : IndexedOk { array with elements := before ++ after } := by
      have hsub : (before ++ after).Sublist array.elements := by
        rw [hsplit]
        exact (List.Sublist.refl before).append (sublist_cons_self found after)
      exact ⟨h.sorted.sublist hsub, hsub.length_le.trans h.fits⟩
    refine ⟨hresult, hagree, hok, ?_⟩
    have hgone : ∀ e ∈ before ++ after, e.index ≠ index := by
      intro e he heq
      have hsorted := h.sorted
      rw [hsplit] at hsorted
      have hnodup : ((found :: (before ++ after)).map IndexedElement.index).Nodup := by
        apply (perm_middle.map IndexedElement.index).nodup_iff.mp
        rw [nodup_iff_pairwise_ne, pairwise_map]
        exact hsorted.imp fun hlt => ne_of_lt hlt
      rw [map_cons, nodup_cons, hindex] at hnodup
      exact hnodup.1 (heq ▸ mem_map_of_mem he)
    intro k
    by_cases hk : k = index
    · rw [if_pos ⟨rfl, hk⟩, hk]
      unfold indexedGet
      rw [(indexedFind_none_iff hok).mpr hgone]
      rfl
    · rw [if_neg fun hand => hk hand.2]
      apply indexedGet_other h hok _ _ hk
      · intro e he
        rw [hsplit, mem_split_iff (hindex.symm ▸ he)]
      · intro e he hne
        rw [hsplit, mem_split_iff (hindex.symm ▸ hne)] at he
        exact (Local.free mem found.value).agree _ (howns.perm (hpre.append_right rest)) e.value
          (mem_map_of_mem he)

theorem indexedUnset_get (k : Nat) :
    indexedGet (indexedUnset mem array index).1 (indexedUnset mem array index).2.1 k =
      if k = index then none else indexedGet mem array k := by
  have hget := (indexedUnset_sets h howns index).get k
  rw [hget]
  by_cases hk : k = index
  · rw [if_pos hk, hk]
    cases hfind : indexedFind array index with
    | none =>
      unfold indexedUnset indexedGet
      rw [hfind]
      rfl
    | some found =>
      have hdone : (indexedUnset mem array index).2.2 = true := by
        unfold indexedUnset
        rw [hfind]
      rw [if_pos ⟨hdone, rfl⟩]
  · rw [if_neg hk, if_neg fun hand => hk hand.2]

end

theorem indexedGet_eq_find (k : Nat) :
    indexedGet mem array k =
      match array.elements.find? fun element => element.index = k with
      | some element => mem.read element.value
      | none => none := by
  cases hfind : array.elements.find? fun element => element.index = k with
  | some element =>
    have hindex : element.index = k := by simpa using find?_some hfind
    rw [← hindex]
    exact indexedGet_mem h (mem_of_find?_eq_some hfind)
  | none =>
    have hnone : indexedFind array k = none := by
      rw [indexedFind_none_iff h]
      intro element hmem
      simpa using find?_eq_none.mp hfind element hmem
    unfold indexedGet
    rw [hnone]
    rfl

end

end

/-! ## Associative arrays, as they are kept -/

abbrev keyHash (key : CStr) : Nat := (associativeHash key).toNat

structure ItemOk (mem : Heap) (item : AssociativeElement) : Prop where
  read : mem.read item.key = some (keyText mem item)
  nonempty : keyText mem item ≠ []
  hash : item.hash = associativeHash (keyText mem item)

structure AssociativeOk (mem : Heap) (array : AssociativeArray) : Prop where
  items : ∀ item ∈ array.buckets.flatten, ItemOk mem item
  placed : IsTable (keyText mem) keyHash array.buckets
  count : array.count = array.buckets.flatten.length

section
variable {array array' : AssociativeArray} {item item' : AssociativeElement} {key : CStr}

theorem key_mem_owned (hmem : item ∈ array.buckets.flatten) : item.key ∈ array.owned :=
  mem_flatMap.mpr ⟨item, hmem, mem_cons_self⟩

theorem value_mem_owned (hmem : item ∈ array.buckets.flatten) : item.value ∈ array.owned :=
  mem_flatMap.mpr ⟨item, hmem, mem_cons_of_mem _ mem_cons_self⟩

theorem keyText_agree (hagree : mem'.read item.key = mem.read item.key) : keyText mem' item = keyText mem item := by
  unfold keyText
  rw [hagree]

theorem ItemOk.agree (h : ItemOk mem item) (hagree : mem'.read item.key = mem.read item.key) : ItemOk mem' item := by
  refine ⟨?_, ?_, ?_⟩
  · rw [hagree, keyText_agree hagree]
    exact h.read
  · rw [keyText_agree hagree]
    exact h.nonempty
  · rw [keyText_agree hagree]
    exact h.hash

theorem AssociativeOk.agree (h : AssociativeOk mem array)
    (hagree : ∀ item ∈ array.buckets.flatten, mem'.read item.key = mem.read item.key) : AssociativeOk mem' array :=
  ⟨fun item hmem => (h.items item hmem).agree (hagree item hmem),
    h.placed.congr fun item hmem => keyText_agree (hagree item hmem), h.count⟩

theorem holdsKey_iff (h : ItemOk mem item) : holdsKey mem key item = decide (keyText mem item = key) := by
  unfold holdsKey
  rw [h.read, h.hash]
  by_cases hkey : keyText mem item = key
  · simp [hkey]
  · simp [hkey]

section
variable (h : AssociativeOk mem array)
include h

theorem associativeFind_eq (key : CStr) :
    associativeFind mem array key = findEntry (keyText mem) keyHash array.buckets key := by
  unfold associativeFind
  split
  · next hzero =>
    rw [length_eq_zero_iff.mp hzero]
    rfl
  · unfold findEntry
    apply find?_congr
    intro item hitem
    exact holdsKey_iff (h.items item (mem_flatten_of_bucketOf hitem))

theorem associativeFind_iff :
    associativeFind mem array key = some item ↔ item ∈ array.buckets.flatten ∧ keyText mem item = key := by
  rw [associativeFind_eq h, findEntry_eq_some_iff h.placed]

theorem associativeGet_mem (hmem : item ∈ array.buckets.flatten) :
    associativeGet mem array (keyText mem item) = mem.read item.value := by
  unfold associativeGet
  rw [(associativeFind_iff h).mpr ⟨hmem, rfl⟩]
  rfl

theorem associativeGet_other (h' : AssociativeOk mem' array')
    (hother : ∀ item, (item ∈ array'.buckets.flatten ∧ keyText mem' item ≠ key) ↔
      (item ∈ array.buckets.flatten ∧ keyText mem item ≠ key))
    (hagree : ∀ item ∈ array.buckets.flatten, keyText mem item ≠ key →
      mem'.read item.key = mem.read item.key ∧ mem'.read item.value = mem.read item.value)
    {k : CStr} (hk : k ≠ key) : associativeGet mem' array' k = associativeGet mem array k := by
  have hfind : associativeFind mem' array' k = associativeFind mem array k := by
    apply Option.ext
    intro item
    rw [associativeFind_iff h', associativeFind_iff h]
    refine ⟨?_, ?_⟩
    · intro ⟨hmem, hkey⟩
      obtain ⟨hin, hne⟩ := (hother item).mp ⟨hmem, hkey.trans_ne hk⟩
      exact ⟨hin, (keyText_agree (hagree item hin hne).1).symm.trans hkey⟩
    · intro ⟨hmem, hkey⟩
      have hne := hkey.trans_ne hk
      exact ⟨((hother item).mpr ⟨hmem, hne⟩).1, (keyText_agree (hagree item hmem hne).1).trans hkey⟩
  unfold associativeGet
  rw [hfind]
  cases hcase : associativeFind mem array k with
  | none => rfl
  | some item =>
    obtain ⟨hmem, hkey⟩ := (associativeFind_iff h).mp hcase
    exact (hagree item hmem (hkey.trans_ne hk)).2

theorem associativeGet_agree (hagree : Agree mem mem' array.owned) (key : CStr) :
    associativeGet mem' array key = associativeGet mem array key := by
  have hok : AssociativeOk mem' array := h.agree fun item hmem => hagree _ (key_mem_owned hmem)
  have hfind : associativeFind mem' array key = associativeFind mem array key := by
    apply Option.ext
    intro item
    rw [associativeFind_iff hok, associativeFind_iff h]
    apply and_congr_right
    intro hmem
    rw [keyText_agree (hagree _ (key_mem_owned hmem))]
  unfold associativeGet
  rw [hfind]
  cases hcase : associativeFind mem array key with
  | none => rfl
  | some item => exact hagree _ (value_mem_owned ((associativeFind_iff h).mp hcase).1)

end

/-! ### More buckets -/

structure Resized (mem : Heap) (array array' : AssociativeArray) : Prop where
  ok : AssociativeOk mem array'
  perm : array'.buckets.flatten.Perm array.buckets.flatten

theorem associativeResize_spec (h : AssociativeOk mem array) {allocated : Bool} {count : Nat} (hpos : 0 < count)
    (hres : associativeResize allocated array count = some array') :
    Resized mem array array' ∧ array'.bucketCount = count := by
  unfold associativeResize at hres
  split at hres
  · have hplace : ∀ item ∈ array.buckets.flatten, item.hash.toNat % count = keyHash (keyText mem item) % count := by
      intro item hitem
      rw [(h.items item hitem).hash]
    rw [foldl_modify hplace length_replicate] at hres
    cases hres
    obtain ⟨hplaced, hlength, hperm⟩ := rehash_spec h.placed hpos
    refine ⟨⟨⟨?_, hplaced, ?_⟩, hperm⟩, hlength⟩
    · intro item hitem
      exact h.items item (hperm.mem_iff.mp hitem)
    · exact h.count.trans hperm.length_eq.symm
  · cases hres

theorem Resized.trans {array'' : AssociativeArray} (h : Resized mem array array') (h' : Resized mem array' array'') :
    Resized mem array array'' :=
  ⟨h'.ok, h'.perm.trans h.perm⟩

theorem associativeReserve_spec (h : AssociativeOk mem array) (hres : associativeReserve env array = some array') :
    Resized mem array array' ∧ 0 < array'.bucketCount := by
  unfold associativeReserve at hres
  cases hfirst : (if array.bucketCount = 0 then associativeResize env.firstResized array 8 else some array) with
  | none =>
    rw [hfirst] at hres
    cases hres
  | some first =>
    have hstart : Resized mem array first ∧ 0 < first.bucketCount := by
      split at hfirst
      · obtain ⟨hresized, hcount⟩ := associativeResize_spec h (by decide) hfirst
        exact ⟨hresized, by omega⟩
      · next hne =>
        cases hfirst
        exact ⟨⟨h, List.Perm.refl _⟩, Nat.pos_of_ne_zero hne⟩
    rw [hfirst] at hres
    dsimp only at hres
    split at hres
    · split at hres
      · cases hres
      · obtain ⟨hresized, hcount⟩ := associativeResize_spec hstart.1.ok (Nat.mul_pos hstart.2 Nat.two_pos) hres
        exact ⟨hstart.1.trans hresized, hcount ▸ Nat.mul_pos hstart.2 Nat.two_pos⟩
    · cases hres
      exact hstart

section
variable (h : Resized mem array array')
include h

theorem Resized.owned : array'.owned.Perm array.owned := h.perm.flatMap_right _

theorem Resized.find (hok : AssociativeOk mem array) (key : CStr) :
    associativeFind mem array' key = associativeFind mem array key := by
  rw [associativeFind_eq h.ok, associativeFind_eq hok]
  exact findEntry_of_perm hok.placed h.ok.placed h.perm key

theorem Resized.get (hok : AssociativeOk mem array) (key : CStr) :
    associativeGet mem array' key = associativeGet mem array key := by
  unfold associativeGet
  rw [h.find hok]

end

/-! ### One item -/

theorem associativeFind_none_iff (h : AssociativeOk mem array) :
    associativeFind mem array key = none ↔ ∀ item ∈ array.buckets.flatten, keyText mem item ≠ key := by
  rw [associativeFind_eq h, findEntry_eq_none_iff h.placed]

theorem itemsOwned_split (before after : List AssociativeElement) (item : AssociativeElement) :
    ((before ++ item :: after).flatMap AssociativeElement.owned).Perm
      (item.value :: item.key :: (before ++ after).flatMap AssociativeElement.owned) := by
  refine (perm_middle.flatMap_right _).trans ?_
  rw [flatMap_cons]
  exact List.Perm.swap item.value item.key _

variable {chain : List AssociativeElement}

theorem setValue_eq (hitems : ∀ item ∈ chain, ItemOk mem item)
    (hnodup : (chain.map (keyText mem)).Nodup) (copy : Nat) :
    setValue (holdsKey mem key) copy chain =
      chain.map fun item => if keyText mem item = key then { item with value := copy } else item := by
  induction chain with
  | nil => rfl
  | cons item chain ih =>
    rw [map_cons, nodup_cons] at hnodup
    rw [setValue, map_cons, holdsKey_iff (hitems item mem_cons_self)]
    by_cases hkey : keyText mem item = key
    · have hrest : chain.map (fun item => if keyText mem item = key then { item with value := copy } else item) =
          chain.map id := by
        apply map_congr_left
        intro i hi
        apply if_neg
        intro heq
        exact hnodup.1 ((hkey.trans heq.symm) ▸ mem_map_of_mem hi)
      rw [if_pos (by simpa using hkey), if_pos hkey, hrest, map_id]
    · rw [if_neg (by simpa using hkey), if_neg hkey, ih (fun i hi => hitems i (mem_cons_of_mem _ hi)) hnodup.2]

theorem setValue_update (h : AssociativeOk mem array) (key : CStr) (copy : Nat) :
    array.buckets.modify ((associativeHash key).toNat % array.bucketCount) (setValue (holdsKey mem key) copy) =
      updateEntry (keyText mem) array.buckets key fun item => { item with value := copy } := by
  refine modify_eq_map h.placed key ?_ ?_
  · intro hnodup
    exact setValue_eq (fun item hitem => h.items item (mem_flatten_of_bucketOf hitem)) hnodup copy
  · intro bucket hother
    refine (map_congr_left ?_).trans (map_id bucket)
    intro item hitem
    exact if_neg (hother item hitem)

theorem reads_of_kept {items : List AssociativeElement} (kept : List Nat)
    (hkept : Agree mem mem' (kept ++ items.flatMap AssociativeElement.owned)) :
    ∀ item ∈ items, mem'.read item.key = mem.read item.key ∧ mem'.read item.value = mem.read item.value := by
  intro item hitem
  refine ⟨hkept _ (mem_append_right _ ?_), hkept _ (mem_append_right _ ?_)⟩
  · exact mem_flatMap.mpr ⟨item, hitem, mem_cons_self⟩
  · exact mem_flatMap.mpr ⟨item, hitem, mem_cons_of_mem _ mem_cons_self⟩

section
variable (h : AssociativeOk mem array)
include h

theorem associativeSet_found (howns : Owns mem (array.owned ++ rest)) (b : CStr)
    (hfind : associativeFind mem array key = some item) :
    Sets AssociativeArray.owned AssociativeOk associativeGet mem array key (some b) rest
      ((mem.alloc b).1.free item.value,
        { array with
          buckets := array.buckets.modify ((associativeHash key).toNat % array.bucketCount)
            (setValue (holdsKey mem key) (mem.alloc b).2) },
        true) := by
  obtain ⟨hmem, hkey⟩ := (associativeFind_iff h).mp hfind
  rw [setValue_update h]
  have hf : ∀ i : AssociativeElement, keyText mem { i with value := (mem.alloc b).2 } = keyText mem i := fun _ => rfl
  have hplaced := isTable_updateEntry hf h.placed key
  obtain ⟨before, after, hsplit, hupdated⟩ :=
    updateEntry_split (fun i => { i with value := (mem.alloc b).2 }) h.placed hmem
  rw [hkey] at hupdated
  have hpre : array.owned.Perm
      ([item.value] ++ ([item.key] ++ (before ++ after).flatMap AssociativeElement.owned)) := by
    unfold AssociativeArray.owned
    rw [hsplit]
    exact itemsOwned_split before after item
  have howns' := howns.perm (hpre.append_right rest)
  have hkept := (Local.replace mem item.value b).agree _ howns'
  have hreads := reads_of_kept _ hkept
  have hitemKey : ((mem.alloc b).1.free item.value).read item.key = mem.read item.key := hkept _ mem_cons_self
  have hnewKey : keyText ((mem.alloc b).1.free item.value) { item with value := (mem.alloc b).2 } = key :=
    (keyText_agree hitemKey).trans hkey
  have hall : ∀ i ∈ (updateEntry (keyText mem) array.buckets key fun i => { i with value := (mem.alloc b).2 }).flatten,
      i = { item with value := (mem.alloc b).2 } ∨ i ∈ before ++ after := by
    intro i hi
    rw [hupdated, perm_middle.mem_iff, mem_cons] at hi
    exact hi
  have hold : ∀ i ∈ before ++ after, i ∈ array.buckets.flatten := by
    intro i hi
    rw [hsplit, perm_middle.mem_iff]
    exact mem_cons_of_mem _ hi
  have hok : AssociativeOk ((mem.alloc b).1.free item.value)
      { array with buckets := updateEntry (keyText mem) array.buckets key fun i => { i with value := (mem.alloc b).2 } } := by
    apply AssociativeOk.agree
    · refine ⟨?_, hplaced, ?_⟩
      · intro i hi
        cases hall i hi with
        | inl heq =>
          have hitem := h.items item hmem
          rw [heq]
          exact ⟨hitem.read, hitem.nonempty, hitem.hash⟩
        | inr hother => exact h.items i (hold i hother)
      · rw [hupdated, h.count, hsplit, length_append, length_cons, length_append, length_cons]
    · intro i hi
      cases hall i hi with
      | inl heq =>
        rw [heq]
        exact hitemKey
      | inr hother => exact (hreads i hother).1
  have hothers : ∀ i ∈ array.buckets.flatten, keyText mem i ≠ key → i ∈ before ++ after := by
    intro i hi hne
    rw [hsplit, perm_middle.mem_iff, mem_cons] at hi
    exact hi.resolve_left fun heq => hne (heq ▸ hkey)
  obtain ⟨hresult, hagree⟩ := ((Local.replace mem item.value b).frame _) rest howns'
  refine ⟨?_, hagree, hok, ?_⟩
  · refine hresult.perm (List.Perm.append_right rest ?_)
    unfold AssociativeArray.owned
    rw [hupdated]
    exact (itemsOwned_split before after { item with value := (mem.alloc b).2 }).symm
  · intro k
    by_cases hk : k = key
    · have hmem' := (perm_middle.mem_iff).mpr
        (mem_cons_self (a := { item with value := (mem.alloc b).2 }) (l := before ++ after))
      rw [← hupdated] at hmem'
      have hget := associativeGet_mem hok hmem'
      rw [hnewKey] at hget
      rw [if_pos ⟨rfl, hk⟩, hk, hget]
      exact read_replace howns' b
    · rw [if_neg fun hand => hk hand.2]
      apply associativeGet_other h hok _ _ hk
      · intro i
        refine ⟨?_, ?_⟩
        · intro ⟨hi, hne⟩
          cases hall i hi with
          | inl heq =>
            rw [heq] at hne
            exact absurd hnewKey hne
          | inr hother => exact ⟨hold i hother, keyText_agree (hreads i hother).1 ▸ hne⟩
        · intro ⟨hi, hne⟩
          have hother := hothers i hi hne
          refine ⟨?_, (keyText_agree (hreads i hother).1).symm ▸ hne⟩
          rw [hupdated, perm_middle.mem_iff]
          exact mem_cons_of_mem _ hother
      · intro i hi hne
        exact hreads i (hothers i hi hne)

section
variable (hpos : 0 < array.bucketCount) (howns : Owns mem (array.owned ++ rest)) (b : CStr) (hkey : key ≠ [])
  (hfind : associativeFind mem array key = none)
include hpos howns b hkey hfind

theorem associativeSet_new :
    Sets AssociativeArray.owned AssociativeOk associativeGet mem array key (some b) rest
      (((mem.alloc b).1.alloc key).1,
        { buckets := array.buckets.modify ((associativeHash key).toNat % array.bucketCount)
            ({ key := ((mem.alloc b).1.alloc key).2, value := (mem.alloc b).2, hash := associativeHash key } :: ·)
          count := array.count + 1 },
        true) := by
  have hnone := (associativeFind_none_iff h).mp hfind
  have hlocal : Local mem ((mem.alloc b).1.alloc key).1 [] [((mem.alloc b).1.alloc key).2, (mem.alloc b).2] :=
    (Local.alloc mem b).trans ((Local.alloc (mem.alloc b).1 key).frame [(mem.alloc b).2])
  have hkept : Agree mem ((mem.alloc b).1.alloc key).1 array.owned := hlocal.agree _ howns
  have hreads := reads_of_kept [] hkept
  have hold : AssociativeOk ((mem.alloc b).1.alloc key).1 array := h.agree fun i hi => (hreads i hi).1
  have hvalue : ((mem.alloc b).1.alloc key).1.read (mem.alloc b).2 = some b := by
    have hagree := (Local.alloc (mem.alloc b).1 key).agree [(mem.alloc b).2] (howns.alloc b)
    rw [hagree _ mem_cons_self, Memory.read_alloc_self]
  generalize hnew : AssociativeElement.mk ((mem.alloc b).1.alloc key).2 (mem.alloc b).2 (associativeHash key) = item
  have hread : ((mem.alloc b).1.alloc key).1.read item.key = some key := by
    rw [← hnew]
    exact Memory.read_alloc_self _ key
  have hitemKey : keyText ((mem.alloc b).1.alloc key).1 item = key := by
    unfold keyText
    rw [hread]
    rfl
  have hitem : ItemOk ((mem.alloc b).1.alloc key).1 item := by
    refine ⟨by rw [hitemKey, hread], by rw [hitemKey]; exact hkey, ?_⟩
    rw [hitemKey, ← hnew]
  have hfresh : ∀ i ∈ array.buckets.flatten,
      keyText ((mem.alloc b).1.alloc key).1 i ≠ keyText ((mem.alloc b).1.alloc key).1 item := by
    intro i hi
    rw [hitemKey, keyText_agree (hreads i hi).1]
    exact hnone i hi
  have hpush : array.buckets.modify ((associativeHash key).toNat % array.bucketCount) (item :: ·) =
      pushEntry (keyText ((mem.alloc b).1.alloc key).1) keyHash array.buckets item := by
    unfold pushEntry
    rw [hitemKey]
  rw [hpush]
  have hperm := @pushEntry_perm _ _ (keyText ((mem.alloc b).1.alloc key).1) keyHash _ hpos item
  have hok : AssociativeOk ((mem.alloc b).1.alloc key).1
      { buckets := pushEntry (keyText ((mem.alloc b).1.alloc key).1) keyHash array.buckets item,
        count := array.count + 1 } := by
    refine ⟨?_, isTable_pushEntry hold.placed hpos hfresh, ?_⟩
    · intro i hi
      cases mem_cons.mp (hperm.mem_iff.mp hi) with
      | inl heq =>
        rw [heq]
        exact hitem
      | inr hmem => exact hold.items i hmem
    · rw [hperm.length_eq, length_cons, h.count]
  obtain ⟨hresult, hagree⟩ := (hlocal.frame array.owned) rest howns
  refine ⟨?_, hagree, hok, ?_⟩
  · refine hresult.perm (List.Perm.append_right rest ?_)
    refine List.Perm.trans ?_ (hperm.flatMap_right AssociativeElement.owned).symm
    rw [flatMap_cons, ← hnew]
    rfl
  · intro k
    by_cases hk : k = key
    · have hget := associativeGet_mem hok (hperm.mem_iff.mpr mem_cons_self)
      rw [hitemKey] at hget
      rw [if_pos ⟨rfl, hk⟩, hk, hget, ← hnew]
      exact hvalue
    · rw [if_neg fun hand => hk hand.2]
      apply associativeGet_other h hok _ _ hk
      · intro i
        rw [hperm.mem_iff, mem_cons]
        refine ⟨?_, ?_⟩
        · intro ⟨hi, hne⟩
          have hmem := hi.resolve_left fun heq => hne (heq ▸ hitemKey)
          exact ⟨hmem, hnone i hmem⟩
        · intro ⟨hi, hne⟩
          exact ⟨.inr hi, keyText_agree (hreads i hi).1 ▸ hne⟩
      · intro i hi _
        exact hreads i hi

theorem associativeInsert_sets :
    Sets AssociativeArray.owned AssociativeOk associativeGet mem array key (some b) rest
      (associativeInsert env (mem.alloc b).1 array key (mem.alloc b).2) := by
  unfold associativeInsert
  have hundo : ∀ mem', Local mem mem' [] [] →
      Sets AssociativeArray.owned AssociativeOk associativeGet mem array key (some b) rest (mem', array, false) := by
    intro mem' hlocal
    have hagree := hlocal.agree array.owned howns
    refine .of_unchanged hlocal howns (h.agree fun i hi => hagree _ (key_mem_owned hi)) ?_
    exact associativeGet_agree h hagree
  cases valueDuplicate_cases env.keyCopied (mem.alloc b).1 (some key) with
  | inr hnone =>
    rw [hnone]
    cases env.itemAllocated with
    | true => exact hundo _ (Local.discard mem b)
    | false => exact hundo _ (Local.discard mem b)
  | inl hcopy =>
    obtain ⟨k, hk, hdup⟩ := hcopy
    cases hk
    rw [hdup]
    cases env.itemAllocated with
    | true => exact associativeSet_new h hpos howns b hkey hfind
    | false =>
      apply hundo
      have hdiscard := (Local.discard (mem.alloc b).1 key).frame [(mem.alloc b).2]
      exact ((Local.alloc mem b).trans hdiscard).trans (Local.free _ _)

end

end

theorem Sets.of_resized {result : Heap × AssociativeArray × Bool}
    (hresized : Resized mem array array') (h : AssociativeOk mem array)
    (hsets : Sets AssociativeArray.owned AssociativeOk associativeGet mem array' key text rest result) :
    Sets AssociativeArray.owned AssociativeOk associativeGet mem array key text rest result := by
  refine ⟨hsets.owns, hsets.agree, hsets.ok, ?_⟩
  intro k
  rw [hsets.get, hresized.get h]

theorem associativeSet_sets (h : AssociativeOk mem array) (howns : Owns mem (array.owned ++ rest)) (env : SetEnv)
    (text : Option CStr) :
    Sets AssociativeArray.owned AssociativeOk associativeGet mem array key text rest
      (associativeSet env mem array key text) := by
  unfold associativeSet
  split
  · exact .of_unchanged (Local.refl mem []) howns h fun k => rfl
  · next hkey =>
    cases valueDuplicate_cases env.copied mem text with
    | inr hnone =>
      rw [hnone]
      exact .of_unchanged (Local.refl mem []) howns h fun k => rfl
    | inl hcopy =>
      obtain ⟨b, htext, hdup⟩ := hcopy
      rw [hdup, htext]
      dsimp only
      cases hfind : associativeFind mem array key with
      | some item => exact associativeSet_found h howns b hfind
      | none =>
        dsimp only
        cases hreserve : associativeReserve env array with
        | none =>
          have hagree := (Local.discard mem b).agree array.owned howns
          refine .of_unchanged (Local.discard mem b) howns (h.agree fun i hi => hagree _ (key_mem_owned hi)) ?_
          exact associativeGet_agree h hagree
        | some grown =>
          obtain ⟨hresized, hpos⟩ := associativeReserve_spec h hreserve
          apply Sets.of_resized hresized h
          apply associativeInsert_sets hresized.ok hpos (howns.perm (hresized.owned.symm.append_right rest)) b hkey
          rw [hresized.find h]
          exact hfind

theorem eraseP_holdsKey (hitems : ∀ item ∈ chain, ItemOk mem item) :
    chain.eraseP (holdsKey mem key) = chain.eraseP fun item => keyText mem item = key := by
  induction chain with
  | nil => rfl
  | cons item chain ih =>
    rw [eraseP_cons, eraseP_cons, holdsKey_iff (hitems item mem_cons_self),
      ih fun i hi => hitems i (mem_cons_of_mem _ hi)]

section
variable (h : AssociativeOk mem array)
include h

theorem erase_remove (key : CStr) :
    array.buckets.modify ((associativeHash key).toNat % array.bucketCount) (eraseP (holdsKey mem key)) =
      removeEntry (keyText mem) array.buckets key := by
  refine modify_eq_map h.placed key ?_ ?_
  · intro hnodup
    rw [eraseP_holdsKey fun item hitem => h.items item (mem_flatten_of_bucketOf hitem)]
    exact eraseP_eq_filter hnodup key
  · intro bucket hother
    apply filter_eq_self.mpr
    intro item hitem
    simpa using hother item hitem

theorem associativeUnset_sets (howns : Owns mem (array.owned ++ rest)) (key : CStr) :
    Sets AssociativeArray.owned AssociativeOk associativeGet mem array key none rest
      (associativeUnset mem array key) := by
  unfold associativeUnset
  cases hfind : associativeFind mem array key with
  | none => exact .of_unchanged (Local.refl mem []) howns h fun k => rfl
  | some item =>
    dsimp only
    rw [erase_remove h]
    obtain ⟨hmem, hkey⟩ := (associativeFind_iff h).mp hfind
    have hperm := removeEntry_perm h.placed hmem
    rw [hkey] at hperm
    have hlocal : Local mem ((mem.free item.key).free item.value) item.owned [] :=
      ((Local.free mem item.key).frame [item.value]).trans (Local.free _ item.value)
    have hpre : array.owned.Perm
        (item.owned ++ (removeEntry (keyText mem) array.buckets key).flatten.flatMap AssociativeElement.owned) := by
      refine (hperm.flatMap_right _).trans ?_
      rw [flatMap_cons]
    have hkept := hlocal.agree _ (howns.perm (hpre.append_right rest))
    have hreads := reads_of_kept [] hkept
    have hold : ∀ i ∈ (removeEntry (keyText mem) array.buckets key).flatten,
        i ∈ array.buckets.flatten ∧ keyText mem i ≠ key := by
      intro i hi
      rw [flatten_removeEntry, mem_filter, decide_eq_true_eq] at hi
      exact hi
    have hok : AssociativeOk ((mem.free item.key).free item.value)
        { buckets := removeEntry (keyText mem) array.buckets key, count := array.count - 1 } := by
      apply AssociativeOk.agree
      · refine ⟨fun i hi => h.items i (hold i hi).1, isTable_removeEntry h.placed key, ?_⟩
        rw [h.count, hperm.length_eq, length_cons, Nat.add_sub_cancel]
      · intro i hi
        exact (hreads i hi).1
    obtain ⟨hresult, hagree⟩ := (hlocal.frame _) rest (howns.perm (hpre.append_right rest))
    refine ⟨hresult, hagree, hok, ?_⟩
    intro k
    by_cases hk : k = key
    · rw [if_pos ⟨rfl, hk⟩, hk]
      unfold associativeGet
      rw [(associativeFind_none_iff hok).mpr]
      · rfl
      · intro i hi
        rw [keyText_agree (hreads i hi).1]
        exact (hold i hi).2
    · rw [if_neg fun hand => hk hand.2]
      apply associativeGet_other h hok _ _ hk
      · intro i
        refine ⟨fun ⟨hi, _⟩ => hold i hi, ?_⟩
        intro ⟨hi, hne⟩
        have hin : i ∈ (removeEntry (keyText mem) array.buckets key).flatten := by
          rw [flatten_removeEntry, mem_filter, decide_eq_true_eq]
          exact ⟨hi, hne⟩
        exact ⟨hin, keyText_agree (hreads i hin).1 ▸ hne⟩
      · intro i hi hne
        have hin : i ∈ (removeEntry (keyText mem) array.buckets key).flatten := by
          rw [flatten_removeEntry, mem_filter, decide_eq_true_eq]
          exact ⟨hi, hne⟩
        exact hreads i hin

theorem associativeUnset_get (howns : Owns mem (array.owned ++ rest)) (k : CStr) :
    associativeGet (associativeUnset mem array key).1 (associativeUnset mem array key).2.1 k =
      if k = key then none else associativeGet mem array k := by
  have hget := (associativeUnset_sets h howns key).get k
  rw [hget]
  by_cases hk : k = key
  · rw [if_pos hk, hk]
    cases hfind : associativeFind mem array key with
    | none =>
      unfold associativeUnset associativeGet
      rw [hfind]
      rfl
    | some item =>
      have hdone : (associativeUnset mem array key).2.2 = true := by
        unfold associativeUnset
        rw [hfind]
      rw [if_pos ⟨hdone, rfl⟩]
  · rw [if_neg hk, if_neg fun hand => hk hand.2]

theorem associativeGet_eq_find (k : CStr) :
    associativeGet mem array k =
      match array.buckets.flatten.find? fun item => keyText mem item = k with
      | some item => mem.read item.value
      | none => none := by
  cases hfind : array.buckets.flatten.find? fun item => keyText mem item = k with
  | some item =>
    have hkey : keyText mem item = k := by simpa using find?_some hfind
    rw [← hkey]
    exact associativeGet_mem h (mem_of_find?_eq_some hfind)
  | none =>
    have hnone : associativeFind mem array k = none := by
      rw [associativeFind_none_iff h]
      intro item hmem
      simpa using find?_eq_none.mp hfind item hmem
    unfold associativeGet
    rw [hnone]
    rfl

end

end

section
variable {α κ σ : Type*} [DecidableEq κ] {owned : σ → List Nat} {Ok : Heap → σ → Prop}
  {get : Heap → σ → κ → Option CStr} {set : SetEnv → Heap → σ → κ → Option CStr → Heap × σ × Bool} {key : Heap → α → κ}
    {value : α → Nat}

theorem cloneInto_spec (hset : ∀ env mem array k text rest, Ok mem array → Owns mem (owned array ++ rest) →
      Sets owned Ok get mem array k text rest (set env mem array k text))
    (items : List α) (envs : Nat → SetEnv) (mem : Heap) (array : σ) (rest : List Nat) (hok : Ok mem array)
    (howns : Owns mem (owned array ++ rest)) (hnodup : (items.map (key mem)).Nodup)
    (hstable : ∀ mem', Agree mem mem' rest →
      ∀ item ∈ items, key mem' item = key mem item ∧ mem'.read (value item) = mem.read (value item)) :
    let result := cloneInto set key value envs mem array items
    Owns result.1 (owned result.2.1 ++ rest) ∧ Agree mem result.1 rest ∧ Ok result.1 result.2.1 ∧
      (result.2.2 = true → ∀ k, get result.1 result.2.1 k =
        match items.find? fun item => key mem item = k with
        | some item => mem.read (value item)
        | none => get mem array k) := by
  induction items generalizing envs mem array with
  | nil => exact ⟨howns, Agree.refl mem rest, hok, fun _ _ => rfl⟩
  | cons item items ih =>
    have hsets := hset (envs 0) mem array (key mem item) (mem.read (value item)) rest hok howns
    dsimp only
    rw [cloneInto]
    generalize set (envs 0) mem array (key mem item) (mem.read (value item)) = result at hsets ⊢
    obtain ⟨mem', array', done⟩ := result
    cases done with
    | false => exact ⟨hsets.owns, hsets.agree, hsets.ok, fun hfalse => absurd hfalse Bool.false_ne_true⟩
    | true =>
      have hsame := hstable mem' hsets.agree
      rw [map_cons, nodup_cons] at hnodup
      have hkeys : items.map (key mem') = items.map (key mem) :=
        map_congr_left fun i hi => (hsame i (mem_cons_of_mem _ hi)).1
      have hstable' : ∀ mem'', Agree mem' mem'' rest →
          ∀ i ∈ items, key mem'' i = key mem' i ∧ mem''.read (value i) = mem'.read (value i) := by
        intro mem'' hagree i hi
        have hnow := hstable mem'' (hsets.agree.trans hagree) i (mem_cons_of_mem _ hi)
        have hthen := hsame i (mem_cons_of_mem _ hi)
        exact ⟨hnow.1.trans hthen.1.symm, hnow.2.trans hthen.2.symm⟩
      obtain ⟨howns', hagree', hok', hget'⟩ :=
        ih (fun i => envs (i + 1)) mem' array' hsets.ok hsets.owns (hkeys ▸ hnodup.2) hstable'
      refine ⟨howns', hsets.agree.trans hagree', hok', ?_⟩
      intro hdone k
      have hfind : (items.find? fun i => key mem' i = k) = items.find? fun i => key mem i = k :=
        find?_congr fun i hi => by rw [(hsame i (mem_cons_of_mem _ hi)).1]
      rw [hget' hdone k, hfind]
      by_cases hk : key mem item = k
      · have hnone : (items.find? fun i => key mem i = k) = none := by
          rw [find?_eq_none]
          intro i hi heq
          rw [decide_eq_true_eq] at heq
          exact hnodup.1 ((hk.trans heq.symm) ▸ mem_map_of_mem hi)
        rw [hnone, find?_cons_of_pos (by simpa using hk)]
        exact (hsets.get k).trans (if_pos ⟨rfl, hk.symm⟩)
      · rw [find?_cons_of_neg (by simpa using hk)]
        cases hcase : items.find? fun i => key mem i = k with
        | none => exact (hsets.get k).trans (if_neg fun hand => hk hand.2.symm)
        | some i => exact (hsame i (mem_cons_of_mem _ (mem_of_find?_eq_some hcase))).2

end

/-! ## What values mean -/

inductive Meaning
  | scalar (text : Option CStr)
  | indexed (map : Nat → Option CStr)
  | associative (map : CStr → Option CStr)

def meaning (mem : Heap) : Value → Meaning
  | .scalar text => .scalar (text.bind mem.read)
  | .indexed array => .indexed (indexedGet mem array)
  | .associative array => .associative (associativeGet mem array)

def Meaning.setIndexed (index : Nat) (text : Option CStr) : Meaning → Meaning
  | .indexed map => .indexed fun i => if i = index then text else map i
  | m => m

def Meaning.setAssociative (key : CStr) (text : Option CStr) : Meaning → Meaning
  | .associative map => .associative fun k => if k = key then text else map k
  | m => m

def ValueOp.mean (meanings : List Meaning) (op : ValueOp) (ok : Bool) : List Meaning :=
  match op with
  | .initIndexed => meanings ++ [.indexed fun _ => none]
  | .initAssociative => meanings ++ [.associative fun _ => none]
  | .indexedSet slot _ index element => if ok then meanings.modify slot (.setIndexed index element) else meanings
  | .indexedUnset slot index => meanings.modify slot (.setIndexed index none)
  | .associativeSet slot _ key element => if ok then meanings.modify slot (.setAssociative key element) else meanings
  | .associativeUnset slot key => meanings.modify slot (.setAssociative key none)
  | .clone slot _ =>
    match meanings[slot]? with
    | none => meanings
    | some source => meanings ++ [if ok then source else .scalar none]
  | .destroy slot => meanings.modify slot fun _ => .scalar none

def step (s : State × List Meaning) (op : ValueOp) : State × List Meaning :=
  ((op.apply s.1).1, op.mean s.2 (op.apply s.1).2)

def run (ops : List ValueOp) : State × List Meaning := ops.foldl step ({}, [])

def ValueOk (mem : Heap) : Value → Prop
  | .scalar _ => True
  | .indexed array => IndexedOk array
  | .associative array => AssociativeOk mem array

variable {value value' : Value} {s : State}

section
variable (h : ValueOk mem value) (hagree : Agree mem mem' value.owned)
include h hagree

theorem ValueOk.agree : ValueOk mem' value := by
  cases value with
  | scalar text => exact trivial
  | indexed array => exact h
  | associative array => exact AssociativeOk.agree h fun item hmem => hagree _ (key_mem_owned hmem)

theorem meaning_agree :
    meaning mem' value = meaning mem value := by
  cases value with
  | scalar text =>
    cases text with
    | none => rfl
    | some a => exact congrArg Meaning.scalar (hagree a mem_cons_self)
  | indexed array =>
    unfold meaning
    exact congrArg _ (funext (indexedGet_agree h hagree))
  | associative array =>
    unfold meaning
    exact congrArg _ (funext (associativeGet_agree h hagree))

end

structure Turns (mem : Heap) (value : Value) (rest : List Nat) (f : Meaning → Meaning) (mem' : Heap) (value' : Value) :
    Prop where
  owns : Owns mem' (value'.owned ++ rest)
  agree : Agree mem mem' rest
  ok : ValueOk mem' value'
  meaning : meaning mem' value' = f (meaning mem value)

theorem Turns.refl (h : ValueOk mem value) (howns : Owns mem (value.owned ++ rest)) :
    Turns mem value rest id mem value :=
  ⟨howns, Agree.refl mem rest, h, rfl⟩

variable {done : Bool}

theorem Sets.turns_indexed {array array' : IndexedArray} {index : Nat}
    (h : Sets IndexedArray.owned (fun _ => IndexedOk) indexedGet mem array index text rest (mem', array', done)) :
    Turns mem (.indexed array) rest (if done then .setIndexed index text else id) mem' (.indexed array') := by
  refine ⟨h.owns, h.agree, h.ok, ?_⟩
  have hget := h.get
  cases done with
  | true => exact congrArg Meaning.indexed (funext fun k => by simpa using hget k)
  | false => exact congrArg Meaning.indexed (funext fun k => by simpa using hget k)

variable {array : AssociativeArray} {key : CStr}

theorem Sets.turns_associative {array' : AssociativeArray}
    (h : Sets AssociativeArray.owned AssociativeOk associativeGet mem array key text rest (mem', array', done)) :
    Turns mem (.associative array) rest (if done then .setAssociative key text else id) mem' (.associative array') := by
  refine ⟨h.owns, h.agree, h.ok, ?_⟩
  have hget := h.get
  cases done with
  | true => exact congrArg Meaning.associative (funext fun k => by simpa using hget k)
  | false => exact congrArg Meaning.associative (funext fun k => by simpa using hget k)

section
variable (h : ValueOk mem value) (howns : Owns mem (value.owned ++ rest))
include h howns

theorem valueIndexedSet_turns (env : SetEnv) (index : Nat) (text : Option CStr) :
    let result := valueIndexedSet env mem value index text
    Turns mem value rest (if result.2.2 then .setIndexed index text else id) result.1 result.2.1 := by
  cases value with
  | indexed array => exact (indexedSet_sets h howns env text).turns_indexed
  | scalar a => exact Turns.refl h howns
  | associative array => exact Turns.refl h howns

theorem valueAssociativeSet_turns (env : SetEnv) (key : CStr) (text : Option CStr) :
    let result := valueAssociativeSet env mem value key text
    Turns mem value rest (if result.2.2 then .setAssociative key text else id) result.1 result.2.1 := by
  cases value with
  | associative array => exact (associativeSet_sets h howns env text).turns_associative
  | scalar a => exact Turns.refl h howns
  | indexed array => exact Turns.refl h howns

theorem valueIndexedUnset_turns (index : Nat) :
    Turns mem value rest (.setIndexed index none) (valueIndexedUnset mem value index).1
      (valueIndexedUnset mem value index).2.1 := by
  cases value with
  | scalar a => exact ⟨howns, Agree.refl mem rest, h, rfl⟩
  | associative array => exact ⟨howns, Agree.refl mem rest, h, rfl⟩
  | indexed array =>
    have hsets := indexedUnset_sets h howns index
    exact ⟨hsets.owns, hsets.agree, hsets.ok, congrArg Meaning.indexed (funext (indexedUnset_get h howns))⟩

theorem valueAssociativeUnset_turns (key : CStr) :
    Turns mem value rest (.setAssociative key none) (valueAssociativeUnset mem value key).1
      (valueAssociativeUnset mem value key).2.1 := by
  cases value with
  | scalar a => exact ⟨howns, Agree.refl mem rest, h, rfl⟩
  | indexed array => exact ⟨howns, Agree.refl mem rest, h, rfl⟩
  | associative array =>
    have hsets := associativeUnset_sets h howns key
    exact ⟨hsets.owns, hsets.agree, hsets.ok, congrArg Meaning.associative (funext (associativeUnset_get h howns))⟩

end

theorem valueDestroy_turns (howns : Owns mem (value.owned ++ rest)) :
    Turns mem value rest (fun _ => .scalar none) (valueDestroy mem value).1 (valueDestroy mem value).2 := by
  obtain ⟨hresult, hagree⟩ := (Local.freeAll mem value.owned) rest howns
  exact ⟨hresult, hagree, trivial, rfl⟩

/-! ### Clones -/

structure Makes (mem : Heap) (rest : List Nat) (m : Meaning) (result : Heap × Value × Bool) : Prop where
  owns : Owns result.1 (result.2.1.owned ++ rest)
  agree : Agree mem result.1 rest
  ok : ValueOk result.1 result.2.1
  meaning : meaning result.1 result.2.1 = if result.2.2 then m else .scalar none

variable {m : Meaning}

theorem finishClone_makes (howns : Owns mem' (value.owned ++ rest)) (hagree : Agree mem mem' rest)
    (hok : ValueOk mem' value) (hmeaning : done = true → meaning mem' value = m) :
    Makes mem rest m (finishClone mem' value done) := by
  unfold finishClone
  cases done with
  | true => exact ⟨howns, hagree, hok, hmeaning rfl⟩
  | false =>
    have hturns := valueDestroy_turns howns
    exact ⟨hturns.owns, hagree.trans hturns.agree, trivial, rfl⟩

theorem indexedClone_makes {array : IndexedArray} (h : IndexedOk array) (howns : Owns mem rest)
    (hsub : ∀ a ∈ array.owned, a ∈ rest) (envs : Nat → SetEnv) :
    Makes mem rest (meaning mem (.indexed array)) (valueClone envs mem (.indexed array)) := by
  have hempty : IndexedOk {} := ⟨List.Pairwise.nil, le_rfl⟩
  have hnodup : (array.elements.map IndexedElement.index).Nodup := by
    rw [nodup_iff_pairwise_ne, pairwise_map]
    exact h.sorted.imp fun hlt => ne_of_lt hlt
  have hspec := @cloneInto_spec _ _ _ _ IndexedArray.owned (fun _ => IndexedOk) indexedGet indexedSet
    (fun _ => IndexedElement.index) IndexedElement.value
    (fun env mem array k text rest hok howns => indexedSet_sets hok howns env text)
    array.elements envs mem {} rest hempty howns hnodup
    (fun mem' hagree item hitem => ⟨rfl, hagree _ (hsub _ (mem_map_of_mem hitem))⟩)
  obtain ⟨hresult, hagree, hok, hget⟩ := hspec
  refine finishClone_makes hresult hagree hok ?_
  intro hdone
  refine congrArg Meaning.indexed (funext fun k => (hget hdone k).trans ?_)
  have hnothing : indexedGet mem {} k = none := rfl
  rw [hnothing, indexedGet_eq_find h]
  generalize array.elements.find? (fun element => element.index = k) = found
  cases found with
  | none => rfl
  | some element => rfl

theorem associativeClone_makes (h : AssociativeOk mem array) (howns : Owns mem rest)
    (hsub : ∀ a ∈ array.owned, a ∈ rest) (envs : Nat → SetEnv) :
    Makes mem rest (meaning mem (.associative array)) (valueClone envs mem (.associative array)) := by
  have hempty : AssociativeOk mem {} := ⟨fun item hitem => absurd hitem not_mem_nil, isTable_replicate 0, rfl⟩
  have hspec := @cloneInto_spec _ _ _ _ AssociativeArray.owned AssociativeOk associativeGet associativeSet
    keyText AssociativeElement.value
    (fun env mem array k text rest hok howns => associativeSet_sets hok howns env text)
    array.buckets.flatten envs mem {} rest hempty howns h.placed.nodup
    (fun mem' hagree item hitem => ⟨keyText_agree (hagree _ (hsub _ (key_mem_owned hitem))),
      hagree _ (hsub _ (value_mem_owned hitem))⟩)
  obtain ⟨hresult, hagree, hok, hget⟩ := hspec
  refine finishClone_makes hresult hagree hok ?_
  intro hdone
  refine congrArg Meaning.associative (funext fun k => (hget hdone k).trans ?_)
  have hnothing : associativeGet mem {} k = none := rfl
  rw [hnothing, associativeGet_eq_find h]
  generalize array.buckets.flatten.find? (fun item => keyText mem item = k) = found
  cases found with
  | none => rfl
  | some item => rfl

theorem valueClone_makes (h : ValueOk mem value) (howns : Owns mem rest) (hsub : ∀ a ∈ value.owned, a ∈ rest)
    (envs : Nat → SetEnv) : Makes mem rest (meaning mem value) (valueClone envs mem value) := by
  cases value with
  | indexed array => exact indexedClone_makes h howns hsub envs
  | associative array => exact associativeClone_makes h howns hsub envs
  | scalar text =>
    cases text with
    | none => exact ⟨howns, Agree.refl mem rest, trivial, rfl⟩
    | some a =>
      unfold valueClone
      dsimp only
      cases valueDuplicate_cases (envs 0).copied mem (mem.read a) with
      | inr hnone =>
        rw [hnone]
        exact ⟨howns, Agree.refl mem rest, trivial, rfl⟩
      | inl hcopy =>
        obtain ⟨b, htext, hdup⟩ := hcopy
        rw [hdup]
        obtain ⟨hresult, hagree⟩ := (Local.alloc mem b) rest howns
        refine ⟨hresult, hagree, trivial, congrArg Meaning.scalar ?_⟩
        exact (Memory.read_alloc_self mem b).trans htext.symm

/-! ## Runs -/

structure StateOk (s : State) : Prop where
  owns : Owns s.memory (s.values.flatMap Value.owned)
  values : ∀ value ∈ s.values, ValueOk s.memory value

def State.meanings (s : State) : List Meaning := s.values.map (meaning s.memory)

variable {α : Type*}

theorem split_of_getElem? {l : List α} {i : Nat} {a : α} (h : l[i]? = some a) :
    ∃ before after, l = before ++ a :: after ∧ before.length = i := by
  obtain ⟨hlt, hat⟩ := List.getElem?_eq_some_iff.mp h
  refine ⟨l.take i, l.drop (i + 1), ?_, ?_⟩
  · rw [← hat, ← drop_eq_getElem_cons hlt, take_append_drop]
  · rw [length_take, min_eq_left (le_of_lt hlt)]

theorem modify_split (before after : List α) (a : α) (f : α → α) :
    (before ++ a :: after).modify before.length f = before ++ f a :: after := by
  induction before with
  | nil => rfl
  | cons b before ih =>
    rw [cons_append, length_cons, modify_succ_cons, ih]
    rfl

theorem set_split (before after : List α) (a b : α) :
    (before ++ a :: after).set before.length b = before ++ b :: after := by
  rw [set_append_right _ _ (Nat.le_refl _), Nat.sub_self, set_cons_zero]

theorem meanings_agree {values : List Value} (hok : ∀ value ∈ values, ValueOk mem value)
    (hagree : Agree mem mem' (values.flatMap Value.owned)) :
    (∀ value ∈ values, ValueOk mem' value) ∧ values.map (meaning mem') = values.map (meaning mem) := by
  have heach : ∀ value ∈ values, Agree mem mem' value.owned := by
    intro value hvalue
    exact hagree.mono fun a ha => mem_flatMap.mpr ⟨value, hvalue, ha⟩
  refine ⟨fun value hvalue => (hok value hvalue).agree (heach value hvalue), ?_⟩
  exact map_congr_left fun value hvalue => meaning_agree (hok value hvalue) (heach value hvalue)

variable {slot : Nat} {meanings : List Meaning}

theorem turns_slot (hs : StateOk s) (hslot : s.values[slot]? = some value) {f : Meaning → Meaning}
    (hturns : ∀ rest, Owns s.memory (value.owned ++ rest) → Turns s.memory value rest f mem' value') :
    StateOk { memory := mem', values := s.values.set slot value' } ∧
      State.meanings { memory := mem', values := s.values.set slot value' } = s.meanings.modify slot f := by
  obtain ⟨before, after, hsplit, hlength⟩ := split_of_getElem? hslot
  have hperm : ∀ v : Value, ((before ++ v :: after).flatMap Value.owned).Perm
      (v.owned ++ (before ++ after).flatMap Value.owned) := by
    intro v
    refine (perm_middle.flatMap_right _).trans ?_
    rw [flatMap_cons]
  have howns := hs.owns
  rw [hsplit] at howns
  have h := hturns _ (howns.perm (hperm value))
  have hvalues := hs.values
  rw [hsplit] at hvalues
  have hothers : ∀ v ∈ before ++ after, ValueOk s.memory v := by
    intro v hv
    exact hvalues v (perm_middle.mem_iff.mpr (mem_cons_of_mem _ hv))
  obtain ⟨hok, hmeanings⟩ := meanings_agree hothers h.agree
  have hset : s.values.set slot value' = before ++ value' :: after := by
    rw [hsplit, ← hlength, set_split]
  rw [hset]
  refine ⟨⟨h.owns.perm (hperm value').symm, ?_⟩, ?_⟩
  · intro v hv
    cases mem_cons.mp (perm_middle.mem_iff.mp hv) with
    | inl heq =>
      rw [heq]
      exact h.ok
    | inr hmem => exact hok v hmem
  · rw [map_append, map_append] at hmeanings
    obtain ⟨hbefore, hafter⟩ := append_inj' hmeanings (by rw [length_map, length_map])
    unfold State.meanings
    rw [hsplit, map_append, map_append, map_cons, map_cons, hbefore, hafter, h.meaning]
    have hmodify := modify_split (before.map (meaning s.memory)) (after.map (meaning s.memory))
        (meaning s.memory value) f
    rw [length_map, hlength] at hmodify
    exact hmodify.symm

theorem push_value (hs : StateOk s) (result : Heap × Value × Bool)
    (h : Makes s.memory (s.values.flatMap Value.owned) m result) :
    StateOk { memory := result.1, values := s.values ++ [result.2.1] } ∧
      State.meanings { memory := result.1, values := s.values ++ [result.2.1] } =
        s.meanings ++ [if result.2.2 then m else .scalar none] := by
  obtain ⟨hok, hmeanings⟩ := meanings_agree hs.values h.agree
  refine ⟨⟨?_, ?_⟩, ?_⟩
  · refine h.owns.perm ?_
    rw [flatMap_append, flatMap_singleton]
    exact perm_append_comm
  · intro v hv
    cases mem_append.mp hv with
    | inl hmem => exact hok v hmem
    | inr hlast =>
      rw [mem_singleton.mp hlast]
      exact h.ok
  · unfold State.meanings
    rw [map_append, hmeanings, map_singleton, h.meaning]

theorem onSlot_spec (hs : StateOk s) (slot : Nat) (f : Heap → Value → Heap × Value × Bool)
    (g : Bool → Meaning → Meaning) (hf : ∀ value, ValueOk s.memory value → ∀ rest, Owns s.memory (value.owned ++ rest) →
      Turns s.memory value rest (g (f s.memory value).2.2) (f s.memory value).1 (f s.memory value).2.1) :
    StateOk (s.onSlot slot f).1 ∧ (s.onSlot slot f).1.meanings = s.meanings.modify slot (g (s.onSlot slot f).2) := by
  unfold State.onSlot
  cases hslot : s.values[slot]? with
  | none =>
    refine ⟨hs, ?_⟩
    symm
    apply modify_eq_self
    rw [State.meanings, length_map]
    exact List.getElem?_eq_none_iff.mp hslot
  | some value => exact turns_slot hs hslot (hf value (hs.values value (mem_of_getElem? hslot)))

theorem modify_ite (slot : Nat) (ok : Bool) (f : Meaning → Meaning) :
    meanings.modify slot (if ok then f else id) = if ok then meanings.modify slot f else meanings := by
  cases ok with
  | true => rfl
  | false => exact modify_id slot meanings

theorem apply_spec (hs : StateOk s) (op : ValueOp) :
    StateOk (op.apply s).1 ∧ (op.apply s).1.meanings = op.mean s.meanings (op.apply s).2 := by
  cases op with
  | initIndexed =>
    have hok : IndexedOk {} := ⟨List.Pairwise.nil, le_rfl⟩
    exact push_value hs (s.memory, .indexed {}, true) ⟨hs.owns, Agree.refl _ _, hok, rfl⟩
  | initAssociative =>
    have hok : AssociativeOk s.memory {} := ⟨fun item hitem => absurd hitem not_mem_nil, isTable_replicate 0, rfl⟩
    exact push_value hs (s.memory, .associative {}, true) ⟨hs.owns, Agree.refl _ _, hok, rfl⟩
  | indexedSet slot env index element =>
    have hspec := onSlot_spec hs slot (fun mem value => valueIndexedSet env mem value index element)
      (fun ok => if ok then .setIndexed index element else id)
      fun value hvalue rest howns => valueIndexedSet_turns hvalue howns env index element
    rw [modify_ite] at hspec
    exact hspec
  | indexedUnset slot index =>
    exact onSlot_spec hs slot (fun mem value => valueIndexedUnset mem value index) (fun _ => .setIndexed index none)
      fun value hvalue rest howns => valueIndexedUnset_turns hvalue howns index
  | associativeSet slot env key element =>
    have hspec := onSlot_spec hs slot (fun mem value => valueAssociativeSet env mem value key element)
      (fun ok => if ok then .setAssociative key element else id)
      fun value hvalue rest howns => valueAssociativeSet_turns hvalue howns env key element
    rw [modify_ite] at hspec
    exact hspec
  | associativeUnset slot key =>
    exact onSlot_spec hs slot (fun mem value => valueAssociativeUnset mem value key) (fun _ => .setAssociative key none)
      fun value hvalue rest howns => valueAssociativeUnset_turns hvalue howns key
  | clone slot envs =>
    have hmeaning : s.meanings[slot]? = s.values[slot]?.map (meaning s.memory) := getElem?_map
    dsimp only [ValueOp.apply, ValueOp.mean]
    rw [hmeaning]
    cases hslot : s.values[slot]? with
    | none => exact ⟨hs, rfl⟩
    | some source =>
      have hmem := mem_of_getElem? hslot
      exact push_value hs _ (valueClone_makes (hs.values source hmem) hs.owns
        (fun a ha => mem_flatMap.mpr ⟨source, hmem, ha⟩) envs)
  | destroy slot =>
    exact onSlot_spec hs slot (fun mem value => ((valueDestroy mem value).1, (valueDestroy mem value).2, true))
      (fun _ _ => .scalar none) fun value _ rest howns => valueDestroy_turns howns

theorem run_spec (ops : List ValueOp) : StateOk (run ops).1 ∧ (run ops).1.meanings = (run ops).2 := by
  induction ops using reverseRecOn with
  | nil =>
    refine ⟨⟨⟨nodup_nil, ?_⟩, fun value hvalue => absurd hvalue not_mem_nil⟩, rfl⟩
    intro a
    exact ⟨fun hlive => absurd hlive Bool.false_ne_true, fun hmem => absurd hmem not_mem_nil⟩
  | append_singleton ops op ih =>
    obtain ⟨hok, hmeanings⟩ := ih
    obtain ⟨hok', hmeanings'⟩ := apply_spec hok op
    have hrun : run (ops ++ [op]) = step (run ops) op := foldl_concat ..
    rw [hrun]
    refine ⟨hok', ?_⟩
    show ((op.apply (run ops).1).1).meanings = op.mean (run ops).2 (op.apply (run ops).1).2
    rw [hmeanings', hmeanings]

/-! ## The invariants -/

theorem chainDuplicateFree_of_ok {chain : List AssociativeElement} (hitems : ∀ item ∈ chain, ItemOk mem item)
    (hnodup : (chain.map (keyText mem)).Nodup) : chainDuplicateFree mem chain = true := by
  induction chain with
  | nil => rfl
  | cons item chain ih =>
    rw [map_cons, nodup_cons] at hnodup
    rw [chainDuplicateFree, ih (fun i hi => hitems i (mem_cons_of_mem _ hi)) hnodup.2, Bool.and_true,
      all_eq_true]
    intro duplicate hmem
    have hne : mem.read item.key ≠ mem.read duplicate.key := by
      rw [(hitems item mem_cons_self).read, (hitems duplicate (mem_cons_of_mem _ hmem)).read]
      intro heq
      exact hnodup.1 (Option.some.inj heq ▸ mem_map_of_mem hmem)
    simp [hne]

theorem adjacent_of_sorted {elements : List IndexedElement} (h : elements.Pairwise fun a b => a.index < b.index) :
    ((elements.zip elements.tail).all fun pair => pair.1.index < pair.2.index) = true := by
  induction elements with
  | nil => rfl
  | cons element rest ih =>
    obtain ⟨hfirst, hrest⟩ := pairwise_cons.mp h
    cases rest with
    | nil => rfl
    | cons second rest =>
      rw [tail_cons, zip_cons_cons, all_cons, Bool.and_eq_true, decide_eq_true_eq]
      exact ⟨hfirst second mem_cons_self, ih hrest⟩

theorem valueInvariants_of_ok (h : ValueOk mem value) : valueInvariants mem value = true := by
  cases value with
  | scalar text => rfl
  | indexed array =>
    unfold valueInvariants
    dsimp only
    rw [adjacent_of_sorted h.sorted, Bool.and_true, decide_eq_true_eq]
    exact h.fits
  | associative array =>
    unfold valueInvariants
    dsimp only
    rw [← h.count, decide_eq_true rfl, Bool.and_true, all_eq_true]
    intro bucket hbucket
    have hget := mem_zipIdx_iff_getElem?.mp hbucket
    have hmem := mem_of_getElem? hget
    have hitems : ∀ item ∈ bucket.1, ItemOk mem item := fun item hitem =>
      h.items item (mem_flatten.mpr ⟨bucket.1, hmem, hitem⟩)
    rw [chainDuplicateFree_of_ok hitems (nodup_bucket h.placed hmem), Bool.and_true, all_eq_true]
    intro item hitem
    have hitemOk := hitems item hitem
    have hplace := h.placed.placed bucket.2 bucket.1 hget item hitem
    rw [keyHash, ← hitemOk.hash] at hplace
    simp only [Bool.and_eq_true, decide_eq_true_eq]
    exact ⟨⟨hitemOk.nonempty, hitemOk.hash⟩, hplace⟩

theorem countP_flatten (h : AssociativeOk mem array) {item : AssociativeElement}
    (hmem : item ∈ array.buckets.flatten) :
    array.buckets.flatten.countP (holdsKey mem (keyText mem item)) = 1 := by
  have hcount := count_eq_one_of_mem h.placed.nodup (mem_map_of_mem hmem)
  rw [List.count, countP_map] at hcount
  rw [← hcount]
  apply countP_congr
  intro i hi
  rw [holdsKey_iff (h.items i hi), Function.comp_apply, decide_eq_true_eq, beq_iff_eq]

theorem reachable_once (h : AssociativeOk mem array)
    (hget : associativeGet mem array key ≠ none) :
    (array.chain (associativeHash key)).countP (holdsKey mem key) = 1 ∧
      array.buckets.flatten.countP (holdsKey mem key) = 1 := by
  cases hfind : associativeFind mem array key with
  | none =>
    unfold associativeGet at hget
    rw [hfind] at hget
    exact absurd rfl hget
  | some item =>
    obtain ⟨hmem, hkey⟩ := (associativeFind_iff h).mp hfind
    have hall := countP_flatten h hmem
    rw [hkey] at hall
    refine ⟨le_antisymm ?_ ?_, hall⟩
    · have hsub : (array.chain (associativeHash key)).Sublist array.buckets.flatten := by
        unfold AssociativeArray.chain
        cases hbucket : array.buckets[(associativeHash key).toNat % array.bucketCount]? with
        | none => exact nil_sublist _
        | some bucket => exact sublist_flatten_of_mem (mem_of_getElem? hbucket)
      exact hall ▸ hsub.countP_le
    · unfold associativeFind at hfind
      split at hfind
      · cases hfind
      · exact countP_pos_iff.mpr ⟨item, mem_of_find?_eq_some hfind, find?_some hfind⟩

def ValueOp.target : ValueOp → Option Nat
  | .initIndexed => none
  | .initAssociative => none
  | .indexedSet slot _ _ _ => some slot
  | .indexedUnset slot _ => some slot
  | .associativeSet slot _ _ _ => some slot
  | .associativeUnset slot _ => some slot
  | .clone _ _ => none
  | .destroy slot => some slot

theorem mean_other {op : ValueOp} {ok : Bool} (hslot : slot < meanings.length)
    (htarget : op.target ≠ some slot) : (op.mean meanings ok)[slot]? = meanings[slot]? := by
  have hmodify : ∀ (i : Nat) (f : Meaning → Meaning), i ≠ slot → (meanings.modify i f)[slot]? = meanings[slot]? :=
    fun i f hne => getElem?_modify_ne f _ hne
  cases op with
  | initIndexed => exact getElem?_append_left hslot
  | initAssociative => exact getElem?_append_left hslot
  | indexedSet i env index element =>
    cases ok with
    | true => exact hmodify i _ fun heq => htarget (congrArg some heq)
    | false => rfl
  | indexedUnset i index => exact hmodify i _ fun heq => htarget (congrArg some heq)
  | associativeSet i env key element =>
    cases ok with
    | true => exact hmodify i _ fun heq => htarget (congrArg some heq)
    | false => rfl
  | associativeUnset i key => exact hmodify i _ fun heq => htarget (congrArg some heq)
  | clone i envs =>
    unfold ValueOp.mean
    dsimp only
    cases meanings[i]? with
    | none => rfl
    | some source => exact getElem?_append_left hslot
  | destroy i => exact hmodify i _ fun heq => htarget (congrArg some heq)

/-- **Main result.** After any operations the arrays are the maps that the successful operations
describe, indexes ascend, a key is reached from its bucket once, a set that fails changes nothing,
and an operation on one value leaves the others as they are, clones and originals alike; what is
allocated is what the values own. -/
theorem values_refine_maps (ops : List ValueOp) :
    let s := (run ops).1
    s.meanings = (run ops).2 ∧
      (∀ value ∈ s.values, valueInvariants s.memory value = true) ∧
      (∀ array, .indexed array ∈ s.values → array.elements.Pairwise fun a b => a.index < b.index) ∧
      (∀ array key, .associative array ∈ s.values → associativeGet s.memory array key ≠ none →
        (array.chain (associativeHash key)).countP (holdsKey s.memory key) = 1 ∧
          array.buckets.flatten.countP (holdsKey s.memory key) = 1) ∧
      (∀ slot env index element, ((ValueOp.indexedSet slot env index element).apply s).2 = false →
        ((ValueOp.indexedSet slot env index element).apply s).1.meanings = s.meanings) ∧
      (∀ slot env key element, ((ValueOp.associativeSet slot env key element).apply s).2 = false →
        ((ValueOp.associativeSet slot env key element).apply s).1.meanings = s.meanings) ∧
      (∀ (op : ValueOp) (slot : Nat), slot < s.values.length → op.target ≠ some slot →
        (op.apply s).1.meanings[slot]? = s.meanings[slot]?) ∧
      Owns s.memory (s.values.flatMap Value.owned) := by
  intro s
  obtain ⟨hok, hmeanings⟩ := run_spec ops
  refine ⟨hmeanings, ?_, ?_, ?_, ?_, ?_, ?_, hok.owns⟩
  · intro value hvalue
    exact valueInvariants_of_ok (hok.values value hvalue)
  · intro array harray
    exact (show IndexedOk array from hok.values _ harray).sorted
  · intro array key harray hget
    exact reachable_once (hok.values _ harray) hget
  · intro slot env index element hfail
    rw [(apply_spec hok _).2, hfail]
    rfl
  · intro slot env key element hfail
    rw [(apply_spec hok _).2, hfail]
    rfl
  · intro op slot hslot htarget
    rw [(apply_spec hok op).2]
    apply mean_other _ htarget
    rw [State.meanings, length_map]
    exact hslot

end Bx.Ash.VariableValue
