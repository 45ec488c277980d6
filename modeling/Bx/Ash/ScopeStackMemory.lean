import Bx.Ash.ScopeStackSound

/-!
# The memory of positional parameters

Copying reads the array and the strings of the caller, whoever owns them, before
anything is freed. A frame's own memory is freed with it, and no other frame reads
it.
-/

namespace Bx.Ash.Scopes

open Bx.Kit List

/-! ## Reading -/

section
variable {heap heap' : Heap} {values : Option Pointer} {live : List Nat} {left i : Nat} {strings : List Nat}
variable {texts : List CStr}

theorem elementAt_agree {element : Option Nat} (howns : Owns heap live) (hagree : Agree heap heap' live)
    (h : elementAt heap values i = some element) : elementAt heap' values i = some element := by
  unfold elementAt at h ⊢
  cases values with
  | none => cases h
  | some p =>
    dsimp only at h ⊢
    cases hread : heap.read p.base with
    | none => simp [hread] at h
    | some cell =>
      rw [hagree p.base ((howns.live _).mp (by rw [hread]; rfl)), hread]
      rwa [hread] at h

theorem textAt_agree {a : Nat} {text : CStr} (howns : Owns heap live) (hagree : Agree heap heap' live)
    (h : textAt heap a = some text) : textAt heap' a = some text := by
  unfold textAt at h ⊢
  cases hread : heap.read a with
  | none => simp [hread] at h
  | some cell =>
    rw [hagree a ((howns.live _).mp (by rw [hread]; rfl)), hread]
    rwa [hread] at h

theorem valuesFrom_succ : valuesFrom heap values (left + 1) i = some texts ↔
    ∃ a text rest, elementAt heap values i = some (some a) ∧ textAt heap a = some text ∧
      valuesFrom heap values left (i + 1) = some rest ∧ texts = text :: rest := by
  rw [valuesFrom]
  refine ⟨?_, ?_⟩
  · intro h
    obtain ⟨element, helement, h⟩ := Option.bind_eq_some_iff.mp h
    cases element with
    | none => cases h
    | some a =>
      change (textAt heap a).bind _ = _ at h
      obtain ⟨text, htext, h⟩ := Option.bind_eq_some_iff.mp h
      obtain ⟨rest, hrest, h⟩ := Option.bind_eq_some_iff.mp h
      cases h
      exact ⟨a, text, rest, helement, htext, hrest, rfl⟩
  · intro ⟨a, text, rest, helement, htext, hrest, heq⟩
    rw [helement, heq]
    show (textAt heap a).bind _ = _
    rw [htext]
    show (valuesFrom heap values left (i + 1)).bind _ = _
    rw [hrest]
    rfl

theorem valuesFrom_agree (howns : Owns heap live) (hagree : Agree heap heap' live)
    (h : valuesFrom heap values left i = some texts) : valuesFrom heap' values left i = some texts := by
  induction left generalizing i texts with
  | zero => exact h
  | succ left ih =>
    obtain ⟨a, text, rest, helement, htext, hrest, heq⟩ := valuesFrom_succ.mp h
    exact valuesFrom_succ.mpr
      ⟨a, text, rest, elementAt_agree howns hagree helement, textAt_agree howns hagree htext, ih hrest, heq⟩

theorem valuesFrom_later {n : Nat} (hle : n ≤ left) (h : valuesFrom heap values left i = some texts) :
    valuesFrom heap values (left - n) (i + n) = some (texts.drop n) := by
  induction n generalizing left i texts with
  | zero => exact h
  | succ n ih =>
    cases left with
    | zero => omega
    | succ left =>
      obtain ⟨a, text, rest, -, -, hrest, rfl⟩ := valuesFrom_succ.mp h
      rw [Nat.succ_sub_succ, show i + (n + 1) = i + 1 + n by omega]
      exact ih (by omega) hrest

theorem valuesFrom_offset (p : Pointer) (n : Nat) : valuesFrom heap (some { p with offset := p.offset + n }) left i =
    valuesFrom heap (some p) left (i + n) := by
  induction left generalizing i with
  | zero => rfl
  | succ left ih =>
    have helement : elementAt heap (some { p with offset := p.offset + n }) i = elementAt heap (some p) (i + n) := by
      unfold elementAt
      dsimp only
      rw [show p.offset + n + i = p.offset + (i + n) by omega]
    unfold valuesFrom
    rw [helement, ih, show i + 1 + n = i + n + 1 by omega]

theorem elementAt_array {base : Nat} (harray : heap.read base = some (.array (strings.map some))) (i : Nat) :
    elementAt heap (some ⟨base, 0⟩) i = (strings[i]?).map some := by
  unfold elementAt
  dsimp only
  rw [harray]
  dsimp only
  rw [Nat.zero_add, getElem?_map]

theorem valuesFrom_array {base : Nat} (harray : heap.read base = some (.array (strings.map some)))
    (htexts : strings.map (textAt heap) = texts.map some) :
    valuesFrom heap (some ⟨base, 0⟩) strings.length 0 = some texts := by
  have hfrom : ∀ left i, i + left = strings.length → valuesFrom heap (some ⟨base, 0⟩) left i = some (texts.drop i) := by
    intro left
    have hlength : texts.length = strings.length := by simpa using congrArg List.length htexts.symm
    induction left with
    | zero =>
      intro i hi
      rw [drop_of_length_le (by omega)]
      rfl
    | succ left ih =>
      intro i hi
      have hstring : i < strings.length := by omega
      have htext : i < texts.length := by omega
      have hsame := congrArg (·[i]?) htexts
      rw [getElem?_map, getElem?_map, getElem?_eq_getElem hstring, getElem?_eq_getElem htext] at hsame
      refine valuesFrom_succ.mpr ⟨strings[i], texts[i], texts.drop (i + 1), ?_, ?_, ih _ (by omega), ?_⟩
      · rw [elementAt_array harray, getElem?_eq_getElem (by omega)]
        rfl
      · exact Option.some.inj hsame
      · exact drop_eq_getElem_cons (by omega)
  exact hfrom strings.length 0 (Nat.zero_add _)

end

/-! ## Owning -/

/-- The addresses that are freed with the frame -/
def OwnedBy (heap : Heap) (p : PositionalFrame) (own : List Nat) : Prop :=
  match p.ownedValues with
  | none => own = []
  | some base => ∃ strings, own = strings ++ [base] ∧ p.ownedCount = strings.length ∧
      heap.read base = some (.array (strings.map some))

/-- The frame has its values from these cells. -/
def Reads (heap : Heap) (p : PositionalFrame) (cells : List Nat) (texts : List CStr) : Prop :=
  ∀ heap', Agree heap heap' cells → p.texts heap' = some texts

section
variable {heap heap' : Heap} {p : PositionalFrame} {own cells live : List Nat} {texts : List CStr}

theorem OwnedBy.agree (h : OwnedBy heap p own) (hagree : Agree heap heap' own) : OwnedBy heap' p own := by
  unfold OwnedBy at h ⊢
  cases howned : p.ownedValues with
  | none => rwa [howned] at h
  | some base =>
    rw [howned] at h
    obtain ⟨strings, rfl, hcount, harray⟩ := h
    exact ⟨strings, rfl, hcount, (hagree base (by simp)).trans harray⟩

theorem Reads.agree (h : Reads heap p cells texts) (hagree : Agree heap heap' cells) : Reads heap' p cells texts :=
  fun heap'' hagree' => h heap'' (hagree.trans hagree')

theorem Reads.mono {cells' : List Nat} (h : Reads heap p cells texts) (hsub : ∀ a ∈ cells, a ∈ cells') :
    Reads heap p cells' texts := fun heap' hagree => h heap' (hagree.mono hsub)

theorem Reads.now (h : Reads heap p cells texts) : p.texts heap = some texts := h heap (Agree.refl heap cells)

theorem reads_live (howns : Owns heap live) (h : p.texts heap = some texts) : Reads heap p live texts :=
  fun _ hagree => valuesFrom_agree howns hagree h

theorem filterMap_range_getElem? (strings : List Nat) :
    (List.range strings.length).filterMap (fun i => strings[i]?) = strings := by
  induction strings with
  | nil => rfl
  | cons a strings ih =>
    rw [length_cons, range_succ_eq_map, filterMap_cons, filterMap_map]
    exact congrArg (a :: ·) ih

theorem destroy_local (h : OwnedBy heap p own) : Local heap (positionalFrameDestroy heap p) own [] := by
  unfold OwnedBy at h
  unfold positionalFrameDestroy ownedStrings
  cases howned : p.ownedValues with
  | none =>
    rw [howned] at h
    have hstrings : (List.range p.ownedCount).filterMap
        (fun i => (elementAt heap ((none : Option Nat).map (⟨·, 0⟩)) i).join) = [] :=
      filterMap_eq_nil_iff.mpr fun _ _ => rfl
    dsimp only
    rw [hstrings, h]
    exact Local.refl heap []
  | some base =>
    rw [howned] at h
    obtain ⟨strings, rfl, hcount, harray⟩ := h
    have hstrings : (List.range p.ownedCount).filterMap
        (fun i => (elementAt heap ((some base).map (⟨·, 0⟩)) i).join) = strings := by
      rw [hcount]
      refine (filterMap_congr ?_).trans (filterMap_range_getElem? strings)
      intro i _
      rw [Option.map_some, elementAt_array harray]
      cases strings[i]? <;> rfl
    dsimp only
    rw [hstrings]
    exact ((Local.freeAll heap strings).frame [base]).trans (Local.free _ base)

end

/-! ## Copying -/

section
variable {heap₀ heap : Heap} {values : Option Pointer} {live owned : List Nat} {output : Nat} {texts : List CStr}

theorem local_extend (heap : Heap) (text : CStr) (cell : Cell) (owned : List Nat) (output : Nat) :
    Local heap ((heap.alloc (.text text)).1.write output cell) (owned ++ [output])
      (owned ++ [(heap.alloc (.text text)).2] ++ [output]) := by
  have halloc := (Local.alloc heap (.text text)).frame (owned ++ [output])
  have hwrite := (Local.write (heap.alloc (.text text)).1 output cell).frame ((heap.alloc (.text text)).2 :: owned)
  refine halloc.trans (hwrite.perm ?_ ?_)
  · rw [← append_assoc]
    exact perm_append_comm
  · refine perm_append_comm.trans ?_
    rw [append_assoc owned]
    exact perm_middle.symm

theorem copyLoop_spec (succeeds : Nat → Bool) {left i : Nat} (howns : Owns heap₀ live)
    (hread : ∀ j, i ≤ j → j < i + left → ∃ element, elementAt heap₀ values j = some element ∧
      ∀ a, element = some a → (textAt heap₀ a).isSome = true)
    (hlocal : Local heap₀ heap [] (owned ++ [output])) (harray : heap.read output = some (.array (owned.map some)))
    (htexts : owned.map (textAt heap) = texts.map some) :
    ∃ heap' done owned', copyLoop succeeds values output left i owned heap = some (heap', done, owned') ∧
      Local heap₀ heap' [] (owned' ++ [output]) ∧ heap'.read output = some (.array (owned'.map some)) ∧
      (done = true → owned'.length = owned.length + left ∧
        ∃ rest, valuesFrom heap₀ values left i = some rest ∧ owned'.map (textAt heap') = (texts ++ rest).map some) := by
  induction left generalizing i heap owned texts with
  | zero =>
    refine ⟨heap, true, owned, rfl, hlocal, harray, fun _ => ⟨rfl, [], rfl, ?_⟩⟩
    rw [append_nil, htexts]
  | succ left ih =>
    obtain ⟨hnow, hagree⟩ := hlocal live howns
    obtain ⟨element, helement, hvalid⟩ := hread i (le_rfl) (by omega)
    unfold copyLoop
    rw [elementAt_agree howns hagree helement]
    cases element with
    | none => exact ⟨heap, false, owned, rfl, hlocal, harray, (nomatch ·)⟩
    | some a =>
      obtain ⟨text, htext⟩ := Option.isSome_iff_exists.mp (hvalid a rfl)
      dsimp only
      rw [textAt_agree howns hagree htext]
      dsimp only
      by_cases hfails : (!succeeds (i + 1)) = true
      · rw [if_pos hfails]
        exact ⟨heap, false, owned, rfl, hlocal, harray, (nomatch ·)⟩
      · rw [if_neg hfails]
        generalize hcell : Cell.array ((owned ++ [(heap.alloc (.text text)).2]).map some) = cell
        generalize hcopy : (heap.alloc (.text text)).2 = copy
        have hextend := local_extend heap text cell owned output
        rw [hcopy] at hextend hcell
        have hafter := (hextend live hnow).1
        have hdistinct : copy ∉ owned ∧ output ∉ owned ∧ copy ≠ output := by
          have hnodup := (nodup_append.mp hafter.nodup).1
          rw [append_assoc] at hnodup
          have hdisjoint := (nodup_append.mp hnodup).2.2
          refine ⟨fun h => hdisjoint _ h _ (by simp) rfl, fun h => hdisjoint _ h _ (by simp) rfl, ?_⟩
          have hpair := (nodup_append.mp hnodup).2.1
          simpa using hpair
        have hsame : ∀ a ∈ owned, ((heap.alloc (.text text)).1.write output cell).read a = heap.read a := by
          intro a ha
          rw [Memory.read_write_of_ne, Memory.read_alloc_of_ne]
          · rw [hcopy]
            exact fun heq => hdistinct.1 (heq ▸ ha)
          · exact fun heq => hdistinct.2.1 (heq ▸ ha)
        have hlive : ((heap.alloc (.text text)).1.read output).isSome = true := by
          rw [Memory.read_alloc_of_ne, harray]
          · rfl
          · rw [hcopy]
            exact hdistinct.2.2.symm
        obtain ⟨heap', done, owned', hloop, hlocal', harray', hdone⟩ := ih (i := i + 1)
          (fun j hij hj => hread j (by omega) (by omega)) (hlocal.trans hextend)
          (by rw [Memory.read_write_self _ _ hlive, hcell])
          (show _ = (texts ++ [text]).map some by
            rw [map_append, map_append, ← htexts]
            congr 1
            · apply map_congr_left
              intro a ha
              unfold textAt
              rw [hsame a ha]
            · show [textAt _ copy] = [some text]
              unfold textAt
              rw [Memory.read_write_of_ne _ _ hdistinct.2.2, ← hcopy, Memory.read_alloc_self])
        refine ⟨heap', done, owned', hloop, hlocal', harray', ?_⟩
        intro hd
        obtain ⟨hlength, rest, hrest, htexts'⟩ := hdone hd
        refine ⟨?_, text :: rest, valuesFrom_succ.mpr ⟨a, text, rest, helement, htext, hrest, rfl⟩, ?_⟩
        · rw [hlength, length_append, length_singleton]
          omega
        · rw [htexts', append_assoc, singleton_append]

end

/-- What a copy of a frame is, whether it succeeds or not -/
def Copied (heap : Heap) (source : PositionalFrame) (heap' : Heap) : Option PositionalFrame → Prop
  | none => Local heap heap' [] []
  | some copy => ∃ own texts, Local heap heap' [] own ∧ OwnedBy heap' copy own ∧ Reads heap' copy own texts ∧
      source.texts heap = some texts ∧ copy.argv0 = source.argv0 ∧ positionalsInvariants copy = true

theorem positionalFrameCopy_spec (succeeds : Nat → Bool) {heap : Heap} {live : List Nat} {source : PositionalFrame}
    (howns : Owns heap live) (hread : source.values ≠ none → Readable heap source.values source.count) :
    ∃ heap' copy, positionalFrameCopy succeeds heap source = some (heap', copy) ∧ Copied heap source heap' copy := by
  unfold positionalFrameCopy
  by_cases hsource : source.argv0 = none ∨ (source.count ≠ 0 ∧ source.values = none)
  · rw [if_pos hsource]
    exact ⟨heap, none, rfl, Local.refl heap []⟩
  rw [if_neg hsource]
  have hargv0 : source.argv0.isSome = true := Option.isSome_iff_ne_none.mpr fun h => hsource (.inl h)
  by_cases hmany : source.count > maxPointers
  · rw [if_pos hmany]
    exact ⟨heap, none, rfl, Local.refl heap []⟩
  rw [if_neg hmany]
  by_cases hcount : source.count = 0
  · rw [if_pos hcount]
    refine ⟨heap, _, rfl, [], [], Local.refl heap [], rfl, fun _ _ => rfl, ?_, rfl, ?_⟩
    · unfold PositionalFrame.texts
      rw [hcount]
      rfl
    · unfold positionalsInvariants
      rw [hargv0]
      rfl
  rw [if_neg hcount]
  by_cases hfails : (!succeeds 0) = true
  · rw [if_pos hfails]
    exact ⟨heap, none, rfl, Local.refl heap []⟩
  rw [if_neg hfails]
  have hvalid := hread fun h => hsource (.inr ⟨hcount, h⟩)
  obtain ⟨heap', done, owned, hloop, hlocal, harray, hdone⟩ := copyLoop_spec succeeds (i := 0) howns
    (fun j _ (hj : j < 0 + source.count) => hvalid j (by omega)) (Local.alloc heap (.array []))
    (Memory.read_alloc_self heap (.array [])) (show List.map _ [] = [].map some from rfl)
  dsimp only
  rw [hloop]
  cases done with
  | false =>
    refine ⟨_, none, rfl, hlocal.trans (destroy_local ?_)⟩
    exact ⟨owned, rfl, rfl, harray⟩
  | true =>
    obtain ⟨hlength, rest, hrest, htexts⟩ := hdone rfl
    rw [length_nil, Nat.zero_add] at hlength
    rw [nil_append] at htexts
    refine ⟨_, _, rfl, owned ++ [(heap.alloc (.array [])).2], rest, hlocal, ⟨owned, rfl, rfl, harray⟩, ?_, hrest, rfl, ?_⟩
    · intro heap'' hagree
      have hmap : owned.map (textAt heap'') = rest.map some := by
        rw [← htexts]
        apply map_congr_left
        intro a ha
        unfold textAt
        rw [hagree a (mem_append_left _ ha)]
      have htext := valuesFrom_array ((hagree _ (by simp)).trans harray) hmap
      rw [hlength] at htext
      exact htext
    · unfold positionalsInvariants
      dsimp only
      rw [hargv0, hlength]
      simp

/-! ## Frames -/

/-- From the top: what a frame owns, and that it reads nothing above. -/
inductive Held (heap : Heap) (lent : List Nat) : List ScopeFrame → List Nat → Prop
  | nil : Held heap lent [] []
  | cons {frame : ScopeFrame} {frames : List ScopeFrame} {own below : List Nat} {texts : List CStr} :
    (frame.hasPositionals = false → frame.positionals = {}) → OwnedBy heap frame.positionals own →
      Reads heap frame.positionals (own ++ (below ++ lent)) texts → Held heap lent frames below →
      Held heap lent (frame :: frames) (own ++ below)

/-- The frames below the one in use -/
def under : List ScopeFrame → List ScopeFrame
  | [] => []
  | frame :: below => if frame.hasPositionals then below else under below

section
variable {heap heap' : Heap} {lent lent' owned : List Nat} {frames : List ScopeFrame} {p : PositionalFrame}

section
variable (h : Held heap lent frames owned)
include h

theorem Held.agree (hagree : Agree heap heap' (owned ++ lent)) : Held heap' lent frames owned := by
  induction h with
  | nil => exact .nil
  | cons hzero hown hreads _ ih =>
    rw [append_assoc] at hagree
    exact .cons hzero (hown.agree (hagree.mono fun a ha => mem_append_left _ ha)) (hreads.agree hagree)
      (ih (hagree.mono fun a ha => mem_append_right _ ha))

theorem Held.same (hagree : Agree heap heap' (owned ++ lent)) :
    ∀ frame ∈ frames, frame.positionals.texts heap' = frame.positionals.texts heap := by
  induction h with
  | nil => exact fun _ hframe => (nomatch hframe)
  | cons hzero hown hreads _ ih =>
    rw [append_assoc] at hagree
    intro frame hframe
    cases mem_cons.mp hframe with
    | inl heq => rw [heq, hreads.now, (hreads.agree hagree).now]
    | inr hmem => exact ih (hagree.mono fun a ha => mem_append_right _ ha) frame hmem

theorem Held.lend (hsub : ∀ a ∈ lent, a ∈ lent') : Held heap lent' frames owned := by
  induction h with
  | nil => exact .nil
  | cons hzero hown hreads _ ih =>
    refine .cons hzero hown (hreads.mono ?_) ih
    intro a ha
    rw [mem_append, mem_append] at ha ⊢
    exact ha.imp_right (·.imp_right (hsub a))

end

theorem ownedBy_empty {own : List Nat} : OwnedBy heap {} own ↔ own = [] := Iff.rfl

theorem Held.replace (h : Held heap lent frames owned) (hactive : active frames = some p) :
    ∃ own below texts, owned = own ++ below ∧ OwnedBy heap p own ∧ Reads heap p (own ++ (below ++ lent)) texts ∧
      Held heap lent (under frames) below ∧
      ∀ {heap' q own' texts'}, Agree heap heap' (below ++ lent) → OwnedBy heap' q own' →
        Reads heap' q (own' ++ (below ++ lent)) texts' → Held heap' lent (updateActive q frames) (own' ++ below) := by
  induction h with
  | nil => cases hactive
  | @cons frame frames own below texts hzero hown hreads hrest ih =>
    unfold active at hactive
    unfold under updateActive
    by_cases hhas : frame.hasPositionals = true
    · rw [if_pos hhas] at hactive ⊢
      cases hactive
      refine ⟨own, below, texts, rfl, hown, hreads, hrest, ?_⟩
      intro heap' q own' texts' hagree hown' hreads'
      rw [if_pos hhas]
      exact .cons (fun hfalse => absurd hhas (by rw [hfalse]; decide)) hown' hreads' (hrest.agree hagree)
    · rw [if_neg hhas] at hactive ⊢
      have hempty := hzero (Bool.eq_false_iff.mpr hhas)
      rw [hempty, ownedBy_empty] at hown
      subst hown
      obtain ⟨own, below', texts', rfl, hown', hreads', hunder, hnew⟩ := ih hactive
      refine ⟨own, below', texts', rfl, hown', hreads', hunder, ?_⟩
      intro heap' q own'' texts'' hagree hown'' hreads''
      rw [if_neg hhas]
      have hheld := hnew hagree hown'' hreads''
      rw [← nil_append (own'' ++ below')]
      exact .cons hzero (by rw [hempty]; rfl) (fun _ _ => by rw [hempty]; rfl) hheld

end

end Bx.Ash.Scopes
