import Bx.Mv.CopyTree

/-!
# What a copy changes

A copy changes nothing outside its destination, whatever fails. One identity
stands for one object all the time, also for a copy that is linked again.
-/

namespace Bx.Mv

open Kit
open Remove (Loc Identity)

/-! ## One identity, one object -/

structure State.Consistent (s : State) : Prop where
  shared : ∀ x y a b, s.tree x = some a → s.tree y = some b → a.id = b.id → a.kind = b.kind
  inUse : ∀ x a, s.tree x = some a → a.id ∈ s.used
  linksInUse : ∀ e ∈ s.links, e.src ∈ s.used ∧ e.destId ∈ s.used
  /-- A copy that is remembered is a copy of every source with this identity. -/
  truthful : ∀ e ∈ s.links, ∀ x y a b, s.tree x = some a → a.id = e.src → s.tree y = some b → b.id = e.destId →
    b.kind = a.kind

section
variable {w : World} {s s' : State} {q x : Loc} {n : Node}

theorem lookup_eq {step : Step} {t : Tree} (h : lookup w step t q = some n) : t q = some n := by
  unfold lookup at h
  split at h
  · cases h
  · exact h

section
variable (h : s.Consistent)
include h

theorem State.Consistent.of_tree {t : Tree} (hsub : ∀ x a, t x = some a → ∃ y, s.tree y = some a)
    (stop : Bool) (written : List (Loc × Identity)) :
    State.Consistent { s with tree := t, stop := stop, written := written } := by
  refine ⟨?_, ?_, h.linksInUse, ?_⟩
  · intro x y a b ha hb hid
    obtain ⟨x', ha'⟩ := hsub x a ha
    obtain ⟨y', hb'⟩ := hsub y b hb
    exact h.shared x' y' a b ha' hb' hid
  · intro x a ha
    obtain ⟨x', ha'⟩ := hsub x a ha
    exact h.inUse x' a ha'
  · intro e he x y a b ha hsrc hb hdest
    obtain ⟨x', ha'⟩ := hsub x a ha
    obtain ⟨y', hb'⟩ := hsub y b hb
    exact h.truthful e he x' y' a b ha' hsrc hb' hdest

theorem State.Consistent.stop (stop : Bool) : State.Consistent { s with stop := stop } :=
  h.of_tree (fun x _ ha => ⟨x, ha⟩) stop s.written

theorem State.Consistent.removeAt (q : Loc) : State.Consistent { s with tree := removeAt s.tree q } := by
  apply h.of_tree
  intro x a ha
  unfold Kit.removeAt at ha
  split at ha
  · cases ha
  · exact ⟨x, ha⟩

theorem State.Consistent.putOld (hthere : s.tree x = some n) (q : Loc) :
    State.Consistent { s with tree := putAt s.tree q n } := by
  apply h.of_tree
  intro y a ha
  unfold putAt at ha
  split at ha
  · cases ha
    exact ⟨x, hthere⟩
  · exact ⟨y, ha⟩

end

theorem putAt_self (t : Tree) (q : Loc) (n : Node) : putAt t q n q = some n := if_pos rfl

theorem putAt_of_ne (t : Tree) (n : Node) (hne : x ≠ q) : putAt t q n x = t x := if_neg hne

theorem removeAt_of_ne (t : Tree) (hne : x ≠ q) : removeAt t q x = t x := if_neg hne

theorem State.Consistent.putNew (h : s.Consistent) (hnew : n.id ∉ s.used) (q : Loc) :
    State.Consistent { s with tree := putAt s.tree q n, used := n.id :: s.used } := by
  have hcases : ∀ x a, putAt s.tree q n x = some a → a = n ∨ s.tree x = some a := by
    intro x a ha
    unfold putAt at ha
    split at ha
    · cases ha
      exact Or.inl rfl
    · exact Or.inr ha
  have hold : ∀ x a, s.tree x = some a → a.id ≠ n.id := fun x a ha heq => hnew (heq ▸ h.inUse x a ha)
  refine ⟨?_, ?_, ?_, ?_⟩
  · intro x y a b ha hb hid
    cases hcases x a ha with
    | inl han =>
      cases hcases y b hb with
      | inl hbn => rw [han, hbn]
      | inr hb' => exact absurd (hid.symm.trans (congrArg Node.id han)) (hold y b hb')
    | inr ha' =>
      cases hcases y b hb with
      | inl hbn => exact absurd (hid.trans (congrArg Node.id hbn)) (hold x a ha')
      | inr hb' => exact h.shared x y a b ha' hb' hid
  · intro x a ha
    cases hcases x a ha with
    | inl han =>
      rw [han]
      exact List.mem_cons_self
    | inr ha' => exact List.mem_cons_of_mem _ (h.inUse x a ha')
  · intro e he
    obtain ⟨hsrc, hdest⟩ := h.linksInUse e he
    exact ⟨List.mem_cons_of_mem _ hsrc, List.mem_cons_of_mem _ hdest⟩
  · intro e he x y a b ha hsrc hb hdest
    obtain ⟨hsrc', hdest'⟩ := h.linksInUse e he
    cases hcases x a ha with
    | inl han =>
      rw [han] at hsrc
      exact absurd (hsrc ▸ hsrc') hnew
    | inr ha' =>
      cases hcases y b hb with
      | inl hbn =>
        rw [hbn] at hdest
        exact absurd (hdest ▸ hdest') hnew
      | inr hb' => exact h.truthful e he x y a b ha' hsrc hb' hdest

variable {src dst : Loc}

theorem State.Consistent.addLinkEntry (h : s.Consistent) {st d : Node} (hst : s.tree src = some st)
    (hd : s.tree dst = some d) (hkind : d.kind = st.kind) : (addLinkEntry st dst s).Consistent := by
  unfold Mv.addLinkEntry
  rw [hd]
  dsimp only
  by_cases htracks : tracksLinkEntry st s = true
  · rw [if_pos htracks]
    refine ⟨h.shared, h.inUse, ?_, ?_⟩
    · intro e he
      cases List.mem_cons.mp he with
      | inl heq =>
        rw [heq]
        exact ⟨h.inUse src st hst, h.inUse dst d hd⟩
      | inr hin => exact h.linksInUse e hin
    · intro e he x y a b ha hsrc hb hdest
      cases List.mem_cons.mp he with
      | inl heq =>
        rw [heq] at hsrc hdest
        rw [h.shared x src a st ha hst hsrc, h.shared y dst b d hb hd hdest, hkind]
      | inr hin => exact h.truthful e hin x y a b ha hsrc hb hdest
  · rw [if_neg htracks]
    exact h

/-! ## Only below the destination -/

structure Within (q : Loc) (s s' : State) : Prop where
  frame : ∀ x, ¬ q <+: x → s'.tree x = s.tree x
  consistent : s.Consistent → s'.Consistent

theorem Within.refl (q : Loc) (s : State) : Within q s s := ⟨fun _ _ => rfl, id⟩

theorem Within.trans {s'' : State} (h : Within q s s') (h' : Within q s' s'') : Within q s s'' :=
  ⟨fun x hx => (h'.frame x hx).trans (h.frame x hx), fun hs => h'.consistent (h.consistent hs)⟩

theorem Within.above {name : Bytes} (h : Within (q ++ [name]) s s') : Within q s s' :=
  ⟨fun x hx => h.frame x fun hunder => hx (below_of_child_below hunder), h.consistent⟩

theorem Within.stop (stop : Bool) : Within q s { s with stop := stop } := ⟨fun _ _ => rfl, fun h => h.stop stop⟩

theorem Within.of_others (hothers : ∀ x, x ≠ q → s'.tree x = s.tree x) (h : s.Consistent → s'.Consistent) :
    Within q s s' :=
  ⟨fun x hx => hothers x fun heq => hx (heq ▸ List.prefix_refl x), h⟩

/-- What `unlinkExisting` leaves when it succeeds -/
structure Unlinked (q : Loc) (s s' : State) : Prop where
  others : ∀ x, x ≠ q → s'.tree x = s.tree x
  consistent : s.Consistent → s'.Consistent

theorem unlinkExisting_unlinked (h : unlinkExisting w q s = some s') : Unlinked q s s' := by
  unfold unlinkExisting at h
  by_cases hnone : (s.tree q).isNone = true
  · rw [if_pos hnone] at h
    cases h
    exact ⟨fun _ _ => rfl, id⟩
  · rw [if_neg hnone] at h
    by_cases hfails : w.fails .unlink q = true
    · simp [hfails] at h
    · rw [if_neg hfails] at h
      cases h
      exact ⟨fun x hx => removeAt_of_ne _ hx, fun hs => hs.removeAt q⟩

theorem Unlinked.within (h : Unlinked q s s') : Within q s s' := .of_others h.others h.consistent

theorem Unlinked.inDirectory_eq (h : Unlinked q s s') : inDirectory s'.tree q = inDirectory s.tree q := by
  unfold inDirectory
  by_cases hroot : q = []
  · rw [hroot]
    rfl
  · have hne : q.dropLast ≠ q := by
      intro heq
      have hlen := congrArg List.length heq
      have hpos := List.length_pos_iff.mpr hroot
      rw [List.length_dropLast] at hlen
      omega
    rw [h.others _ hne]

/-- What `create` leaves when it succeeds -/
structure Created (w : World) (q : Loc) (kind : NodeKind) (s s' : State) : Prop where
  others : ∀ x, x ≠ q → s'.tree x = s.tree x
  consistent : s.Consistent → s'.Consistent
  there : ∃ n, s'.tree q = some n ∧ n.kind = kind
  inDirectory : inDirectory s.tree q = true

theorem create_created {kind : NodeKind} {mtime : Nat} (h : create w q kind mtime s = some s') :
    Created w q kind s s' := by
  unfold create at h
  by_cases hfails : (w.fails .create q || (s.tree q).isSome || !inDirectory s.tree q) = true
  · rw [if_pos hfails] at h
    cases h
  · rw [if_neg hfails] at h
    cases h
    rw [Bool.or_eq_true, not_or, Bool.not_eq_true', Bool.not_eq_false] at hfails
    exact ⟨fun x hx => putAt_of_ne _ _ hx, fun hs => hs.putNew (w.newId_fresh s.used) q, ⟨_, putAt_self _ _ _, rfl⟩,
      hfails.2⟩

theorem Created.within {kind : NodeKind} (h : Created w q kind s s') : Within q s s' := .of_others h.others h.consistent

/-! ## One object -/

structure Copied (src dst : Loc) (st : Node) (s : State) (out : Bool × State) : Prop where
  within : Within dst s out.2
  there : out.1 = true → ∃ d, out.2.tree dst = some d ∧ d.kind = st.kind
  inDirectory : out.1 = true → inDirectory s.tree dst = true
  noDirectory : out.1 = true → (s.tree dst).any isDirectory = false

variable {st : Node}

theorem Copied.failed (h : Within dst s s') : Copied src dst st s (false, s') :=
  ⟨h, nofun, nofun, nofun⟩

theorem Copied.guard {c : Prop} [Decidable c] {out : Bool × State} (h : Within dst s s')
    (hout : ¬c → Copied src dst st s out) : Copied src dst st s (if c then (false, s') else out) := by
  by_cases hc : c
  · rw [if_pos hc]
    exact .failed h
  · rw [if_neg hc]
    exact hout hc

theorem addLinkEntry_tree (st : Node) (dst : Loc) (s : State) : (addLinkEntry st dst s).tree = s.tree := by
  unfold addLinkEntry
  split
  · rfl
  · split <;> rfl

theorem Copied.created {s₁ s₂ : State} (hst : s.tree src = some st) (hne : src ≠ dst)
    (hdir : (s.tree dst).any isDirectory = false) (hunlinked : Unlinked dst s s₁)
    (hcreated : Created w dst st.kind s₁ s₂) : Copied src dst st s (true, addLinkEntry st dst s₂) := by
  have hwithin := hunlinked.within.trans hcreated.within
  obtain ⟨d, hd, hkind⟩ := hcreated.there
  refine ⟨⟨?_, ?_⟩, ?_, ?_, fun _ => hdir⟩
  · intro x hx
    show (addLinkEntry st dst s₂).tree x = s.tree x
    rw [addLinkEntry_tree]
    exact hwithin.frame x hx
  · intro hs
    apply (hwithin.consistent hs).addLinkEntry _ hd hkind
    · exact src
    · rw [hcreated.others src hne, hunlinked.others src hne]
      exact hst
  · intro _
    refine ⟨d, ?_, hkind⟩
    show (addLinkEntry st dst s₂).tree dst = some d
    rw [addLinkEntry_tree]
    exact hd
  · intro _
    rw [← hunlinked.inDirectory_eq]
    exact hcreated.inDirectory

theorem copyRegularFile_copied {data : Bytes} (hst : s.tree src = some st)
    (hkind : st.kind = .regular data) : Copied src dst st s (copyRegularFile w src dst st s) := by
  unfold copyRegularFile collectDestState
  by_cases hstate : w.fails .destState dst = true
  · rw [if_pos hstate]
    exact .failed (.refl dst s)
  · rw [if_neg hstate]
    refine .guard (.refl dst s) fun hsame => .guard (.refl dst s) fun hdir => .guard (.refl dst s) fun _ => ?_
    cases hunlink : unlinkExisting w dst s with
    | none => exact .failed (.refl dst s)
    | some s₁ =>
      have hunlinked := unlinkExisting_unlinked hunlink
      dsimp only
      cases hcreate : create w dst (if w.fails .data dst then .regular (w.partialData dst) else st.kind)
          (preservedTime w st dst) s₁ with
      | none => exact .failed hunlinked.within
      | some s₂ =>
        have hcreated := create_created hcreate
        refine .guard (hunlinked.within.trans hcreated.within) fun hdata => ?_
        rw [Bool.or_eq_true, not_or] at hdata
        rw [if_neg hdata.1] at hcreated
        apply Copied.created hst _ _ hunlinked hcreated
        · intro heq
          apply hsame
          rw [← heq, hst, Option.bind_some]
          unfold follow
          rw [hkind]
          simp
        · cases hthere : s.tree dst with
          | none => rfl
          | some d =>
            cases hkindOf : d.kind with
            | directory =>
              exfalso
              apply hdir
              rw [hthere, Option.bind_some]
              unfold follow isDirectory
              rw [hkindOf]
              simp [hkindOf]
            | _ => simp [isDirectory, hkindOf]

theorem copyObject_copied {link : Bool} (hst : s.tree src = some st) :
    Copied src dst st s (copyObject w link src dst st s) := by
  unfold copyObject collectDestState
  by_cases hstate : w.fails .destState dst = true
  · rw [if_pos hstate]
    exact .failed (.refl dst s)
  · rw [if_neg hstate]
    refine .guard (.refl dst s) fun hsame => .guard (.refl dst s) fun hdir => ?_
    cases hunlink : unlinkExisting w dst s with
    | none => exact .failed (.refl dst s)
    | some s₁ =>
      have hunlinked := unlinkExisting_unlinked hunlink
      refine .guard hunlinked.within fun _ => ?_
      cases hcreate : create w dst st.kind (preservedTime w st dst) s₁ with
      | none => exact .failed hunlinked.within
      | some s₂ =>
        have hcreated := create_created hcreate
        have hwithin := hunlinked.within.trans hcreated.within
        refine .guard hwithin fun _ => .guard hwithin fun _ => ?_
        apply Copied.created hst _ (Bool.eq_false_iff.mpr hdir) hunlinked hcreated
        intro heq
        apply hsame
        rw [← heq, hst, Option.any_some, decide_eq_true_iff]

theorem createPreservedHardLink_copied {e : Link} (hs : s.Consistent)
    (hst : s.tree src = some st) (he : findLinkEntry st.id s = some e) :
    Copied src dst st s (createPreservedHardLink w e dst s) := by
  unfold createPreservedHardLink collectDestState
  by_cases hstate : w.fails .destState dst = true
  · rw [if_pos hstate]
    exact .failed (.refl dst s)
  · rw [if_neg hstate]
    refine .guard (.refl dst s) fun _ => .guard (.refl dst s) fun hdir => ?_
    cases hunlink : unlinkExisting w dst s with
    | none => exact .failed (.refl dst s)
    | some s₁ =>
      have hunlinked := unlinkExisting_unlinked hunlink
      dsimp only
      cases hlookup : lookup w .lookup s₁.tree e.dest with
      | none => exact .failed hunlinked.within
      | some n =>
        have hn := lookup_eq hlookup
        refine .guard hunlinked.within fun hid => .guard hunlinked.within fun hlink => ?_
        have hput : Within dst s₁ { s₁ with tree := putAt s₁.tree dst n } :=
          .of_others (fun x hx => putAt_of_ne _ _ hx) fun hs₁ => hs₁.putOld hn dst
        refine .guard (hunlinked.within.trans hput) fun _ => ?_
        refine ⟨hunlinked.within.trans hput, ?_, ?_, fun _ => Bool.eq_false_iff.mpr hdir⟩
        · intro _
          refine ⟨n, putAt_self _ _ _, ?_⟩
          have hsrc : e.src = st.id := by
            have hfound := List.find?_some he
            exact decide_eq_true_iff.mp hfound
          have hn' : s.tree e.dest = some n := by
            by_cases heq : e.dest = dst
            · rw [heq] at hn
              rw [hn] at hlink
              simp at hlink
            · rw [← hunlinked.others _ heq]
              exact hn
          exact hs.truthful e (List.mem_of_find?_eq_some he) src e.dest st n hst hsrc.symm hn' (not_not.mp hid)
        · intro _
          rw [← hunlinked.inDirectory_eq]
          rw [Bool.or_eq_true, not_or, Bool.not_eq_true', Bool.not_eq_false] at hlink
          exact hlink.2

end

end Bx.Mv
