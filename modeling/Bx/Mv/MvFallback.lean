import Bx.Mv.MvSteps

/-!
# Moving between devices

The copy is removed from the source only when it is complete, so that after a
failure either nothing but the destination has changed, or what is missing in the
source is in the copy.
-/

namespace Bx.Mv

open Kit
open Remove (Loc Identity)

/-- What is left of the tree `t` when the copy begins: all of it, or all but the destination. -/
structure Begun (t : Tree) (src dest : Loc) (s : State) : Prop where
  consistent : s.Consistent
  above : ∀ q, q <+: dest → q ≠ dest → s.tree q = t q
  there : s.tree dest ≠ none → t dest ≠ none
  below : dest <+: src → s.tree src = none ∨ (s.tree = t ∧ dest ≠ src)
  apart : ¬ src <+: dest → ¬ dest <+: src → ∀ x, src <+: x → s.tree x = t x

section
variable {w : MoveWorld} {o : Options} {s : State} {src parent : Loc} {base : Bytes} {t : Tree} {st : Node}

theorem Begun.of_same (hs : s.Consistent) (hne : s.tree src ≠ none)
    (hid : ∀ d, s.tree (parent ++ [base]) = some d → ∀ n, s.tree src = some n → d.id ≠ n.id) :
    Begun s.tree src (parent ++ [base]) s := by
  refine ⟨hs, fun _ _ _ => rfl, id, ?_, fun _ _ _ _ => rfl⟩
  intro _
  refine Or.inr ⟨rfl, ?_⟩
  intro heq
  obtain ⟨n, hn⟩ := Option.ne_none_iff_exists'.mp hne
  exact hid n (heq ▸ hn) n hn rfl

theorem Begun.of_backed {backup : Loc} {t₁ : Tree} (h : Backed w s.tree src parent base backup t₁)
    (hne : src ≠ parent ++ [base]) (hwf : Wf w.toWorld s.tree) (hs : s.Consistent) :
    Begun s.tree src (parent ++ [base]) { s with tree := t₁ } := by
  obtain ⟨hbackupDest, hdestBackup⟩ := h.dest_apart
  obtain ⟨hbackupSrc, hsrcBackup⟩ := h.src_apart hwf hs
  obtain ⟨name, hname, hbeside⟩ := h.beside
  refine ⟨h.renamed.consistent hs, ?_, fun _ => h.there, ?_, ?_⟩
  · intro q hq hne
    apply h.renamed.other (fun hunder => hne (hq.eq_of_length_le hunder.length_le))
    intro hunder
    exact hbackupDest (hunder.trans hq)
  · intro hunder
    cases h.cases with
    | inl hsame => exact Or.inr ⟨hsame.1, hne.symm⟩
    | inr hmoved =>
      apply Or.inl
      show t₁ src = none
      rw [hmoved, moveAt_source hunder hbackupSrc]
  · intro hsrcDest hdestSrc x hx
    apply h.renamed.other
    · intro hunder
      cases above_or_below hx hunder with
      | inl hbelow => exact hsrcDest hbelow
      | inr habove => exact hdestSrc habove
    · intro hunder
      cases above_or_below hx hunder with
      | inl hbelow => exact hsrcDest (hsrcBackup hbelow)
      | inr habove => exact hbackupSrc habove

/-! ## Before the copy -/

theorem prepare_within (dest : Loc) (s : State) : Within dest s (prepareCrossDeviceDestination w dest st s).2 ∧
      ∀ x, (prepareCrossDeviceDestination w dest st s).2.tree x ≠ none → s.tree x ≠ none := by
  unfold prepareCrossDeviceDestination
  split
  · exact ⟨.refl dest s, fun _ hx => hx⟩
  · split
    · exact ⟨.refl dest s, fun _ hx => hx⟩
    · split
      · exact ⟨.refl dest s, fun _ hx => hx⟩
      · split
        · exact ⟨.refl dest s, fun _ hx => hx⟩
        · split
          · exact ⟨.refl dest s, fun _ hx => hx⟩
          · split
            · exact ⟨.refl dest s, fun _ hx => hx⟩
            · refine ⟨.of_others (fun x hx => removeAt_of_ne _ hx) fun hs => hs.removeAt dest, ?_⟩
              intro x hx
              unfold removeAt at hx
              dsimp only at hx
              split at hx
              · exact absurd rfl hx
              · exact hx

theorem prepare_nonempty {dest : Loc} {d : Node} {name : Bytes} (hdir : isDirectory st = true)
    (hd : s.tree dest = some d) (hdest : isDirectory d = true) (hname : name ∈ readdir w.toWorld s.tree dest) :
    prepareCrossDeviceDestination w dest st s = (false, s) := by
  unfold prepareCrossDeviceDestination collectDestState
  rw [hdir, Bool.not_true, if_neg Bool.false_ne_true]
  split
  · rfl
  · rename_i hcollect
    split at hcollect
    · cases hcollect
    · cases hcollect
      rw [hd, Option.any_some, hdest, Bool.not_true, if_neg Bool.false_ne_true]
      split
      · rfl
      · rw [if_pos (List.ne_nil_of_mem hname)]

/-! ## After the copy -/

theorem removeSource_tree (s : State) (x : Loc) :
    (removeSource w src st s).2.tree x = s.tree x ∨ (src <+: x ∧ (removeSource w src st s).2.tree x = none) := by
  obtain ⟨log, hremoved, hlog⟩ := @Remove.removeRecursiveImpl_inside w.remove src
    (Remove.start (statuses w s.tree)) (some st.id)
  by_cases hx : x ∈ (Remove.removeRecursiveImpl w.remove src (some st.id) (Remove.start (statuses w s.tree))).2.removed
  · refine Or.inr ⟨?_, if_pos hx⟩
    rw [hremoved] at hx
    exact hlog x hx
  · exact Or.inl (if_neg hx)

/-- What a move between devices leaves: the destination may have changed, or the copy is complete. -/
inductive Moved (t : Tree) (src dest : Loc) (s : State) (out : Bool × State) : Prop
  | unmoved : out.1 = false → (∀ x, ¬ dest <+: x → out.2.tree x = s.tree x) → Moved t src dest s out
  | copied : ¬ src <+: dest → ¬ dest <+: src → Complete src dest t out.2.tree →
      (∀ x, ¬ dest <+: x → out.2.tree x = s.tree x ∨ (src <+: x ∧ out.2.tree x = none)) → Moved t src dest s out

theorem copy_into_itself {s' : State} (h : Begun t src (parent ++ [base]) s) (hwf : Wf w.toWorld t)
    (hbase : base ∈ w.order parent) (hbelow : src <+: parent ++ [base]) (hne : src ≠ parent ++ [base])
    (hwithin : Within (parent ++ [base]) s s') (hthere : ∀ x, s'.tree x ≠ none → s.tree x ≠ none) :
    (copyPath w.toWorld src (parent ++ [base]) s').1 = false := by
  have habove : ∀ q, q <+: parent ++ [base] → q ≠ parent ++ [base] → s'.tree q = t q := by
    intro q hq hqne
    rw [hwithin.frame q fun hunder => hqne (hq.eq_of_length_le hunder.length_le), h.above q hq hqne]
  apply copyPath_into_itself hbelow hne (hwithin.consistent h.consistent)
  intro hway
  have hdirs : ∀ q, q <+: parent ++ [base] → q ≠ parent ++ [base] → ∃ n, t q = some n ∧ isDirectory n = true := by
    intro q hq hqne
    cases hway with
    | inl hdest => exact hwf.closed.holds_above hq hqne (h.there (hthere _ hdest))
    | inr hin =>
      have hparentNe : parent ≠ parent ++ [base] := fun heq => List.cons_ne_nil base [] (List.self_eq_append_right.mp heq)
      unfold inDirectory at hin
      rw [List.dropLast_concat, habove parent (List.prefix_append parent [base]) hparentNe, Bool.and_eq_true,
        Option.any_eq_true] at hin
      obtain ⟨_, n, hn, hdir⟩ := hin
      by_cases hself : q = parent
      · rw [hself]
        exact ⟨n, hn, hdir⟩
      · exact hwf.closed.holds_above ((List.prefix_concat_iff.mp hq).resolve_left hqne) hself (hn ▸ Option.some_ne_none n)
  refine ⟨?_, ?_⟩
  · intro q hq hqne
    rw [habove q hq hqne]
    exact hdirs q hq hqne
  · intro q n hq
    by_cases hself : q ++ [n] = parent ++ [base]
    · obtain ⟨hqp, hnb⟩ := List.append_inj' hself rfl
      rw [hqp, List.singleton_inj.mp hnb]
      exact hbase
    · obtain ⟨found, hfound, _⟩ := hdirs _ hq hself
      exact hwf.listed q n (hfound ▸ Option.some_ne_none found)

theorem copy_from_below {dest : Loc} (h : Begun t src dest s) (hwf : Wf w.toWorld t) (hst : t src = some st)
    (hunder : dest <+: src) (hokay : (prepareCrossDeviceDestination w dest st s).1 = true) :
    (copyPath w.toWorld src dest { (prepareCrossDeviceDestination w dest st s).2 with stop := false }).1 = false := by
  obtain ⟨hwithin, hthere⟩ := @prepare_within w st dest s
  cases h.below hunder with
  | inl hnone =>
    have hgone : (prepareCrossDeviceDestination w dest st s).2.tree src = none :=
      not_not.mp (mt (hthere src) (not_not_intro hnone))
    unfold copyPath copyPathSelected lookup
    dsimp only
    rw [hgone, ite_self]
  | inr hsame =>
    obtain ⟨htree, hne⟩ := hsame
    obtain ⟨d, hd, hdir⟩ := hwf.closed.holds_above hunder hne (hst ▸ Option.some_ne_none st)
    cases hleaf : isDirectory st with
    | true =>
      obtain ⟨name, hname⟩ := child_below_of_below hunder hne
      have hchild : t (dest ++ [name]) ≠ none := by
        by_cases hself : dest ++ [name] = src
        · rw [hself, hst]
          exact Option.some_ne_none st
        · obtain ⟨n, hn, _⟩ := hwf.closed.holds_above hname hself (hst ▸ Option.some_ne_none st)
          rw [hn]
          exact Option.some_ne_none n
      have hin : name ∈ readdir w.toWorld s.tree dest := by
        rw [htree]
        exact List.mem_filter.mpr ⟨hwf.listed dest name hchild, Option.isSome_iff_ne_none.mpr hchild⟩
      rw [prepare_nonempty hleaf (by rw [htree]; exact hd) hdir hin] at hokay
      cases hokay
    | false =>
      have hprepared : prepareCrossDeviceDestination w dest st s = (true, s) := by
        unfold prepareCrossDeviceDestination
        rw [hleaf]
        rfl
      rw [hprepared]
      cases hlookup : lookup w.toWorld .lookup s.tree src with
      | none =>
        unfold copyPath copyPathSelected
        dsimp only
        rw [hlookup]
      | some found =>
        have hfound : found = st := by
          have hthere := lookup_eq hlookup
          rw [htree, hst] at hthere
          exact (Option.some.inj hthere).symm
        rw [hfound] at hlookup
        apply Bool.eq_false_iff.mpr
        intro hok
        have hno := (@copyLeaf_copied w.toWorld { s with stop := false } src dest st {} w.depth true none
          (h.consistent.stop false) hlookup hleaf).noDirectory hok
        simp [htree, hd, Option.any_some, hdir] at hno

theorem crossDeviceFallback_moved (h : Begun t src (parent ++ [base]) s) (hwf : Wf w.toWorld t)
    (hbase : base ∈ w.order parent) (hst : t src = some st) :
    Moved t src (parent ++ [base]) s (crossDeviceFallback w src (parent ++ [base]) st s) := by
  obtain ⟨hprepared, hthere⟩ := @prepare_within w st (parent ++ [base]) s
  have hbelow := @copy_from_below w s src t st (parent ++ [base]) h hwf hst
  unfold crossDeviceFallback
  dsimp only
  generalize hprepare : prepareCrossDeviceDestination w (parent ++ [base]) st s = prepared at hprepared hthere hbelow ⊢
  have hs := (hprepared.consistent h.consistent).stop false
  have hwithin : Within (parent ++ [base]) s (copyPath w.toWorld src (parent ++ [base]) { prepared.2 with stop := false }).2 :=
    (hprepared.trans (.stop false)).trans (copyPath_within _ _ _ hs)
  split
  · rename_i hfalse
    exact .unmoved (Bool.not_eq_true' _ ▸ hfalse) hprepared.frame
  · rename_i hokay
    rw [Bool.not_eq_true', Bool.not_eq_false] at hokay
    split
    · rename_i hfalse
      exact .unmoved (Bool.not_eq_true' _ ▸ hfalse) hwithin.frame
    · rename_i hcopied
      rw [Bool.not_eq_true', Bool.not_eq_false] at hcopied
      have hsrcDest : ¬ src <+: parent ++ [base] := by
        intro hunder
        by_cases hne : src = parent ++ [base]
        · have hfalse := hbelow (hne ▸ List.prefix_refl _) hokay
          simp [hfalse] at hcopied
        · have hfalse := copy_into_itself h hwf hbase hunder hne (hprepared.trans (.stop false)) hthere
          simp [hfalse] at hcopied
      have hdestSrc : ¬ parent ++ [base] <+: src := by
        intro hunder
        have hfalse := hbelow hunder hokay
        simp [hfalse] at hcopied
      have hapart : ∀ x, src <+: x → ¬ parent ++ [base] <+: x := by
        intro x hx hunder
        cases above_or_below hx hunder with
        | inl hbelow => exact hsrcDest hbelow
        | inr habove => exact hdestSrc habove
      have huntouched : Untouched t src (parent ++ [base]) { prepared.2 with stop := false } := by
        refine ⟨?_, hapart⟩
        intro x hx
        exact (hprepared.frame x (hapart x hx)).trans (h.apart hsrcDest hdestSrc x hx)
      have hcomplete : Complete src (parent ++ [base]) t
          (copyPath w.toWorld src (parent ++ [base]) { prepared.2 with stop := false }).2.tree :=
        copyPathSelected_complete hwf hs huntouched (fun _ => hsrcDest) (fun h => absurd h.symm Bool.false_ne_true) hcopied
      split
      · exact .copied hsrcDest hdestSrc hcomplete fun x hx => Or.inl (hwithin.frame x hx)
      · refine .copied hsrcDest hdestSrc (hcomplete.congr ?_) ?_
        · intro x hx
          cases @removeSource_tree w src st _ x with
          | inl hsame => exact hsame
          | inr hgone => exact absurd hx (hapart x hgone.1)
        · intro x hx
          cases @removeSource_tree w src st _ x with
          | inl hsame => exact Or.inl (hsame.trans (hwithin.frame x hx))
          | inr hgone => exact Or.inr hgone

end

end Bx.Mv
