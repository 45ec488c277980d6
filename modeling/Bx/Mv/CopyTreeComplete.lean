import Bx.Mv.CopyTreeSound

/-!
# What a copy that succeeds has copied

When the copy of a tree succeeds, everything in the source has a copy below the
destination. It cannot succeed where the destination lies in the source.
-/

namespace Bx.Mv

open Kit List
open Remove (Loc Identity)

/-- A finite tree; `readdir` returns everything. -/
structure Wf (w : World) (t : Tree) : Prop where
  closed : Closed (fun n => isDirectory n = true) t
  listed : ∀ p n, t (p ++ [n]) ≠ none → n ∈ w.order p
  depth : ∀ q, t q ≠ none → q.length ≤ w.depth

def Complete (src dst : Loc) (t t' : Tree) : Prop :=
  ∀ rest a, t (src ++ rest) = some a → ∃ d, t' (dst ++ rest) = some d ∧ d.kind = a.kind

section
variable {w : World} {s : State} {src dst q : Loc}

/-! ## The destination directory -/

structure Made (dst : Loc) (s s' : State) (id : Identity) : Prop where
  within : Within dst s s'
  there : ∃ d, s'.tree dst = some d ∧ isDirectory d = true ∧ d.id = id
  before : (s.tree dst).all isDirectory = true
  inDirectory : s.tree dst = none → inDirectory s.tree dst = true

theorem makeDestination_within (w : World) (dst : Loc) (s : State) : Within dst s (makeDestination w dst s).2 := by
  unfold makeDestination collectDestState
  by_cases hstate : w.fails .destState dst = true
  · rw [if_pos hstate]
    exact .refl dst s
  · rw [if_neg hstate]
    cases hd : s.tree dst with
    | some d =>
      dsimp only
      split <;> exact .refl dst s
    | none =>
      dsimp only
      cases hcreate : create w dst .directory w.now s with
      | none => exact .refl dst s
      | some s' =>
        have hcreated := (create_created hcreate).within
        dsimp only
        split <;> exact hcreated

variable {id : Identity} {s' : State}

theorem makeDestination_made (h : makeDestination w dst s = (some id, s')) : Made dst s s' id := by
  have hwithin := makeDestination_within w dst s
  rw [h] at hwithin
  unfold makeDestination collectDestState at h
  by_cases hstate : w.fails .destState dst = true
  · simp [hstate] at h
  · rw [if_neg hstate] at h
    cases hd : s.tree dst with
    | some d =>
      rw [hd] at h
      dsimp only at h
      by_cases hdir : isDirectory d = true
      · rw [if_pos hdir] at h
        cases h
        exact ⟨hwithin, ⟨d, hd, hdir, rfl⟩, by rw [hd]; exact hdir, fun hnone => by rw [hd] at hnone; cases hnone⟩
      · simp [hdir] at h
    | none =>
      rw [hd] at h
      dsimp only at h
      cases hcreate : create w dst .directory w.now s with
      | none => simp [hcreate] at h
      | some s₁ =>
        have hcreated := create_created hcreate
        obtain ⟨d, hthere, hkind⟩ := hcreated.there
        rw [hcreate] at h
        dsimp only at h
        by_cases hfails : w.fails .created dst = true
        · simp [hfails] at h
        · rw [if_neg hfails, hthere] at h
          cases h
          exact ⟨hwithin, ⟨d, hthere, decide_eq_true hkind, rfl⟩, by rw [hd]; rfl, fun _ => hcreated.inDirectory⟩

/-! ## The children -/

def Local (dst : Loc) (child : Bytes → Node → State → Bool × State) : Prop :=
  ∀ name n s, s.Consistent → Within (dst ++ [name]) s (child name n s).2

structure WithinNames (dst : Loc) (names : List Bytes) (s s' : State) : Prop where
  frame : ∀ x, (∀ n ∈ names, ¬ dst ++ [n] <+: x) → s'.tree x = s.tree x
  consistent : s.Consistent → s'.Consistent

theorem WithinNames.refl (names : List Bytes) (s : State) : WithinNames dst names s s := ⟨fun _ _ => rfl, id⟩

theorem WithinNames.cons {name : Bytes} {names : List Bytes} {s₁ s₂ : State} (h : Within (dst ++ [name]) s s₁)
    (h' : WithinNames dst names s₁ s₂) : WithinNames dst (name :: names) s s₂ := by
  refine ⟨?_, fun hs => h'.consistent (h.consistent hs)⟩
  intro x hx
  rw [h'.frame x fun n hn => hx n (mem_cons_of_mem _ hn), h.frame x (hx name mem_cons_self)]

variable {names : List Bytes} {root : Option Identity} {required : Option Bytes} {ok : Bool} {a : Ancestry}
  {top : Bool} {st : Node} {selected : Option Node} {fuel : Nat}

theorem WithinNames.within (h : WithinNames dst names s s') : Within dst s s' :=
  ⟨fun x hx => h.frame x fun _ _ hunder => hx (below_of_child_below hunder), h.consistent⟩

theorem copyChildren_within {child : Bytes → Node → State → Bool × State} (hchild : Local dst child)
    (hs : s.Consistent) :
    WithinNames dst names s (copyChildren w child root required src dst id names ok s).2 := by
  induction names generalizing ok s with
  | nil => exact .refl [] s
  | cons name names ih =>
    unfold copyChildren
    split
    · exact .cons (.refl _ s) (ih hs)
    · split
      · exact .refl _ s
      · split
        · exact .cons (.refl _ s) (ih hs)
        · split
          · exact .cons (.stop true) (ih (hs.stop true))
          · rename_i n _ _
            have hcopied := hchild name n s hs
            dsimp only
            split
            · exact .cons hcopied (ih (hcopied.consistent hs))
            · split
              · exact .cons hcopied (.refl names _)
              · exact .cons hcopied (ih (hcopied.consistent hs))

theorem copyDirectory_within {child : Ancestry → Loc → Loc → Node → State → Bool × State}
    (hchild : ∀ a src dst n s, s.Consistent → Within dst s (child a src dst n s).2)
    (hs : s.Consistent) : Within dst s (copyDirectory w child a src dst st top s).2 := by
  unfold copyDirectory
  have hmade := makeDestination_within w dst s
  cases hmake : makeDestination w dst s with
  | mk id s₁ =>
    rw [hmake] at hmade
    cases id with
    | none => exact hmade
    | some id =>
      dsimp only
      by_cases hopen : w.fails .opendir src = true
      · rw [if_pos hopen]
        exact hmade
      · rw [if_neg hopen]
        apply hmade.trans
        apply WithinNames.within
        exact copyChildren_within (fun name n s hs => hchild _ _ _ n s hs) (hmade.consistent hs)

theorem copyLeaf_copied {st : Node} {a : Ancestry} {fuel : Nat} {top : Bool} {selected : Option Node} (hs : s.Consistent)
    (hst : lookup w .lookup s.tree src = some st) (hleaf : isDirectory st = false) :
    Copied src dst st s (copyPathSelected w (fuel + 1) a src dst top selected s) := by
  have hthere := lookup_eq hst
  unfold copyPathSelected
  rw [hst]
  dsimp only
  by_cases hselected : (selected.any fun n => n.id ≠ st.id) = true
  · rw [if_pos hselected]
    exact .failed (.refl dst s)
  · rw [if_neg hselected, hleaf, if_neg Bool.false_ne_true]
    cases hlink : findLinkEntry st.id s with
    | some e => exact createPreservedHardLink_copied hs hthere hlink
    | none =>
      dsimp only
      cases hkind : st.kind with
      | directory => exact .failed (.refl dst s)
      | regular data => exact copyRegularFile_copied hthere hkind
      | symlink text => exact copyObject_copied hthere
      | fifo => exact copyObject_copied hthere
      | socket => exact copyObject_copied hthere
      | device rdev => exact copyObject_copied hthere

theorem copyPathSelected_within (hs : s.Consistent) :
    Within dst s (copyPathSelected w fuel a src dst top selected s).2 := by
  induction fuel generalizing a src dst top selected s with
  | zero => exact .refl dst s
  | succ fuel ih =>
    cases hst : lookup w .lookup s.tree src with
    | none =>
      unfold copyPathSelected
      rw [hst]
      exact .refl dst s
    | some st =>
      cases hdir : isDirectory st with
      | false => exact (copyLeaf_copied hs hst hdir).within
      | true =>
        unfold copyPathSelected
        rw [hst]
        dsimp only
        by_cases hselected : (selected.any fun n => n.id ≠ st.id) = true
        · rw [if_pos hselected]
          exact .refl dst s
        · rw [if_neg hselected, hdir, if_pos rfl]
          by_cases hcycle : st.id ∈ a.dirs
          · rw [if_pos hcycle]
            exact .refl dst s
          · rw [if_neg hcycle]
            exact copyDirectory_within (fun a src dst n s hs => ih hs) hs

theorem copyPath_within (w : World) (src dst : Loc) (hs : s.Consistent) : Within dst s (copyPath w src dst s).2 :=
  copyPathSelected_within hs

/-! ## A copy that succeeds -/

theorem Complete.congr {t t' t'' : Tree} (h : Complete src dst t t') (hsame : ∀ x, dst <+: x → t'' x = t' x) :
    Complete src dst t t'' := by
  intro rest a ha
  obtain ⟨d, hd, hkind⟩ := h rest a ha
  exact ⟨d, (hsame _ (prefix_append dst rest)).trans hd, hkind⟩

structure Untouched (t : Tree) (src dst : Loc) (s : State) : Prop where
  same : ∀ x, src <+: x → s.tree x = t x
  apart : ∀ x, src <+: x → ¬ dst <+: x

theorem Untouched.child {t : Tree} (h : Untouched t src dst s) (name : Bytes) :
    Untouched t (src ++ [name]) (dst ++ [name]) s :=
  ⟨fun x hx => h.same x (below_of_child_below hx),
    fun x hx hunder => h.apart x (below_of_child_below hx) (below_of_child_below hunder)⟩

theorem Untouched.within {t : Tree} (h : Untouched t src dst s) (hwithin : Within dst s s') : Untouched t src dst s' :=
  ⟨fun x hx => (hwithin.frame x (h.apart x hx)).trans (h.same x hx), h.apart⟩

theorem copyChildren_complete {t : Tree} {child : Bytes → Node → State → Bool × State} (hlocal : Local dst child)
    (hchild : ∀ name n s, s.Consistent → Untouched t src dst s → (child name n s).1 = true →
      Complete (src ++ [name]) (dst ++ [name]) t (child name n s).2.tree) (hs : s.Consistent)
    (huntouched : Untouched t src dst s) (hok : (copyChildren w child root none src dst id names ok s).1 = true) :
    ok = true ∧ ∀ name ∈ names, Complete (src ++ [name]) (dst ++ [name]) t
      (copyChildren w child root none src dst id names ok s).2.tree := by
  induction names generalizing ok s with
  | nil => exact ⟨hok, fun name hname => absurd hname not_mem_nil⟩
  | cons name names ih =>
    unfold copyChildren at hok ⊢
    rw [if_neg (by rw [Option.any_none]; exact Bool.false_ne_true)] at hok ⊢
    by_cases hverify : (!verifyDestinationDirectory w dst id s) = true
    · rw [if_pos hverify] at hok
      cases hok
    · rw [if_neg hverify] at hok ⊢
      cases hlookup : lookup w .lookup s.tree (src ++ [name]) with
      | none =>
        rw [hlookup] at hok
        exact absurd (ih hs huntouched hok).1 Bool.false_ne_true
      | some n =>
        rw [hlookup] at hok
        dsimp only at hok ⊢
        by_cases hself : (isDirectory n && root = some n.id) = true
        · rw [if_pos hself] at hok
          exact absurd (ih (hs.stop true) ⟨huntouched.same, huntouched.apart⟩ hok).1 Bool.false_ne_true
        · rw [if_neg hself] at hok ⊢
          have hcopied := hlocal name n s hs
          have hs' := hcopied.consistent hs
          have huntouched' := huntouched.within hcopied.above
          by_cases hchildOk : (child name n s).1 = true
          · rw [if_pos hchildOk] at hok ⊢
            obtain ⟨hfirst, hrest⟩ := ih hs' huntouched' hok
            refine ⟨hfirst, ?_⟩
            intro name' hname'
            by_cases hin : name' ∈ names
            · exact hrest name' hin
            · have heq : name' = name := (mem_cons.mp hname').resolve_right hin
              rw [heq] at hin ⊢
              apply (hchild name n s hs huntouched hchildOk).congr
              intro x hx
              apply (copyChildren_within hlocal hs').frame
              intro n' hn' hunder
              exact hin (child_below_inj hunder hx ▸ hn')
          · rw [if_neg hchildOk] at hok
            by_cases hstop : (child name n s).2.stop = true
            · rw [if_pos hstop] at hok
              exact absurd hok hchildOk
            · rw [if_neg hstop] at hok
              exact absurd (ih hs' huntouched' hok).1 Bool.false_ne_true

theorem requiredSelfCopyChild_none {real : Option Loc} (h : ∀ d, real = some d → ¬ src <+: d) :
    requiredSelfCopyChild w real src = none := by
  unfold requiredSelfCopyChild
  cases real with
  | none => rfl
  | some d =>
    rw [Option.bind_some]
    split
    · rfl
    · rw [if_neg (h d rfl)]

theorem Complete.leaf {t t' : Tree} (hwf : Wf w t) (hst : t src = some st) (hleaf : isDirectory st = false)
    (hthere : ∃ d, t' dst = some d ∧ d.kind = st.kind) : Complete src dst t t' := by
  intro rest a ha
  by_cases hself : rest = []
  · rw [hself, append_nil] at ha ⊢
    rw [hst] at ha
    cases ha
    exact hthere
  · obtain ⟨o, ho, hdir⟩ := hwf.closed.holds_above (prefix_append src rest)
      (fun heq => hself (self_eq_append_right.mp heq)) (ha ▸ Option.some_ne_none a)
    rw [hst] at ho
    cases ho
    exact absurd (hleaf.symm.trans hdir) Bool.false_ne_true

theorem Complete.directory {t t' : Tree} (hwf : Wf w t) (hst : t src = some st)
    (hdir : isDirectory st = true) (hthere : ∃ d, t' dst = some d ∧ isDirectory d = true)
    (hchildren : ∀ name ∈ readdir w t src, Complete (src ++ [name]) (dst ++ [name]) t t') : Complete src dst t t' := by
  intro rest a ha
  cases rest with
  | nil =>
    rw [append_nil] at ha ⊢
    rw [hst] at ha
    cases ha
    obtain ⟨d, hd, hkind⟩ := hthere
    refine ⟨d, hd, ?_⟩
    unfold isDirectory at hkind hdir
    exact (of_decide_eq_true hkind).trans (of_decide_eq_true hdir).symm
  | cons name rest =>
    have hname : t (src ++ [name]) ≠ none := by
      by_cases hself : rest = []
      · rw [hself] at ha
        rw [ha]
        exact Option.some_ne_none a
      · have hunder : src ++ [name] <+: src ++ name :: rest := ⟨rest, by rw [append_assoc]; rfl⟩
        have hne : src ++ [name] ≠ src ++ name :: rest := by
          intro heq
          have hlen := congrArg List.length heq
          have hpos := length_pos_iff.mpr hself
          rw [length_append, length_append, length_cons, length_cons, length_nil] at hlen
          omega
        obtain ⟨o, ho, _⟩ := hwf.closed.holds_above hunder hne (ha ▸ Option.some_ne_none a)
        rw [ho]
        exact Option.some_ne_none o
    have hlisted : name ∈ readdir w t src :=
      mem_filter.mpr ⟨hwf.listed src name hname, Option.isSome_iff_ne_none.mpr hname⟩
    have hsplit : ∀ p : Loc, p ++ name :: rest = p ++ [name] ++ rest := fun p => (append_assoc p [name] rest).symm
    rw [hsplit] at ha ⊢
    exact hchildren name hlisted rest a ha

theorem copyPathSelected_complete {t : Tree} (hwf : Wf w t) (hs : s.Consistent) (huntouched : Untouched t src dst s)
    (htop : top = true → ¬ src <+: dst) (hreal : top = false → ∀ d, a.real = some d → ¬ src <+: d)
    (hok : (copyPathSelected w fuel a src dst top selected s).1 = true) :
    Complete src dst t (copyPathSelected w fuel a src dst top selected s).2.tree := by
  induction fuel generalizing a src dst top selected s with
  | zero => cases hok
  | succ fuel ih =>
    cases hst : lookup w .lookup s.tree src with
    | none =>
      unfold copyPathSelected at hok
      simp [hst] at hok
    | some st =>
      have hthere : t src = some st := (huntouched.same src (prefix_refl src)).symm.trans (lookup_eq hst)
      cases hdir : isDirectory st with
      | false => exact .leaf hwf hthere hdir ((copyLeaf_copied hs hst hdir).there hok)
      | true =>
        unfold copyPathSelected at hok ⊢
        rw [hst] at hok ⊢
        dsimp only at hok ⊢
        by_cases hselected : (selected.any fun n => n.id ≠ st.id) = true
        · rw [if_pos hselected] at hok
          cases hok
        · rw [if_neg hselected, hdir, if_pos rfl] at hok ⊢
          by_cases hcycle : st.id ∈ a.dirs
          · simp [hcycle] at hok
          · rw [if_neg hcycle] at hok ⊢
            unfold copyDirectory at hok ⊢
            cases hmake : makeDestination w dst s with
            | mk id s₁ =>
              rw [hmake] at hok
              cases id with
              | none => cases hok
              | some id =>
                have hmade := makeDestination_made hmake
                have hs₁ := hmade.within.consistent hs
                have huntouched₁ := huntouched.within hmade.within
                dsimp only at hok ⊢
                by_cases hopen : w.fails .opendir src = true
                · simp [hopen] at hok
                · rw [if_neg hopen] at hok ⊢
                  have hinner : ∀ d, (a.enter w top st dst id).real = some d → ¬ src <+: d := by
                    intro d hd
                    unfold Ancestry.enter at hd
                    cases top with
                    | false => exact hreal rfl d hd
                    | true =>
                      dsimp only at hd
                      rw [if_pos rfl] at hd
                      split at hd
                      · cases hd
                      · cases hd
                        exact htop rfl
                  rw [requiredSelfCopyChild_none hinner] at hok ⊢
                  rw [Bool.and_eq_true, Bool.and_eq_true] at hok
                  have hlocal : Local dst fun name n s => copyPathSelected w fuel (a.enter w top st dst id)
                      (src ++ [name]) (dst ++ [name]) false (some n) s :=
                    fun name n s hs => copyPathSelected_within hs
                  obtain ⟨hlisted, hchildren⟩ := copyChildren_complete hlocal (t := t) (fun name n s' hs' huntouched' =>
                    ih hs' (huntouched'.child name) nofun fun _ d hd hunder =>
                      hinner d hd (below_of_child_below hunder)) hs₁ huntouched₁ hok.1.1
                  rw [Bool.not_eq_true'] at hlisted
                  rw [hlisted, if_neg Bool.false_ne_true] at hchildren ⊢
                  have hnames : readdir w s₁.tree src = readdir w t src := by
                    unfold readdir
                    apply filter_congr
                    intro name _
                    rw [huntouched₁.same _ (prefix_append src [name])]
                  rw [hnames] at hchildren ⊢
                  apply Complete.directory hwf hthere hdir _ hchildren
                  obtain ⟨d, hd, hdirectory, _⟩ := hmade.there
                  refine ⟨d, ?_, hdirectory⟩
                  rw [(copyChildren_within hlocal hs₁).frame dst]
                  · exact hd
                  · exact fun _ _ hunder => ne_of_child_below hunder rfl

/-! ## A destination in the source -/

theorem copyChildren_ok {child : Bytes → Node → State → Bool × State}
    (h : (copyChildren w child root required src dst id names ok s).1 = true) : ok = true := by
  induction names generalizing ok s with
  | nil => exact h
  | cons name names ih =>
    unfold copyChildren at h
    split at h
    · exact ih h
    · split at h
      · cases h
      · split at h
        · exact absurd (ih h) Bool.false_ne_true
        · split at h
          · exact absurd (ih h) Bool.false_ne_true
          · dsimp only at h
            split at h
            · exact ih h
            · rename_i hchild
              split at h
              · exact absurd h hchild
              · exact absurd (ih h) Bool.false_ne_true

theorem copyChildren_false {child : Bytes → Node → State → Bool × State} :
    (copyChildren w child root required src dst id names false s).1 = false :=
  Bool.eq_false_iff.mpr fun htrue => absurd (copyChildren_ok htrue) Bool.false_ne_true

/-- The directories from the top to the destination are there, and `readdir` returns the way to it. -/
structure Reachable (w : World) (t : Tree) (dest : Loc) : Prop where
  dirs : ∀ q, q <+: dest → ∃ n, t q = some n ∧ isDirectory n = true
  listed : ∀ q n, q ++ [n] <+: dest → n ∈ w.order q

variable {dest : Loc} {t : Tree}

variable {name : Bytes}

theorem Reachable.mem_readdir (h : Reachable w t dest) (hsame : ∀ x, x <+: dest → s.tree x = t x)
    (hname : q ++ [name] <+: dest) : name ∈ readdir w s.tree q := by
  obtain ⟨n, hn, _⟩ := h.dirs _ hname
  refine mem_filter.mpr ⟨h.listed q name hname, ?_⟩
  rw [hsame _ hname, hn]
  rfl

theorem requiredSelfCopyChild_way {real : Option Loc} (hreal : real = none ∨ real = some dest)
    (hname : src ++ [name] <+: dest) :
    requiredSelfCopyChild w real src = none ∨ requiredSelfCopyChild w real src = some name := by
  unfold requiredSelfCopyChild
  cases hreal with
  | inl hnone =>
    rw [hnone]
    exact Or.inl rfl
  | inr hsome =>
    rw [hsome, Option.bind_some]
    split
    · exact Or.inl rfl
    · rw [if_pos (below_of_child_below hname)]
      obtain ⟨rest, rfl⟩ := hname
      rw [append_assoc, drop_left]
      exact Or.inr rfl

theorem copyChildren_way {child : Bytes → Node → State → Bool × State} (hlocal : Local dst child)
    (hin : name ∈ names) (hrequired : required = none ∨ required = some name) (hunder : dest <+: dst)
    (hname : src ++ [name] <+: dest) (hs : s.Consistent) (hsame : ∀ x, x <+: dest → s.tree x = t x)
    (hchild : ∀ n s, s.Consistent → (∀ x, x <+: dest → s.tree x = t x) → t (src ++ [name]) = some n →
      (isDirectory n && root = some n.id) = false → (child name n s).1 = false) :
    (copyChildren w child root required src dst id names ok s).1 = false := by
  have hkept : ∀ (name' : Bytes) (s s' : State), Within (dst ++ [name']) s s' → (∀ x, x <+: dest → s.tree x = t x) →
      ∀ x, x <+: dest → s'.tree x = t x := by
    intro name' s s' hwithin hsame x hx
    rw [hwithin.frame x, hsame x hx]
    intro hbelow
    have hle := hbelow.length_le
    have hle' := hx.length_le
    have hle'' := hunder.length_le
    rw [length_append, length_singleton] at hle
    omega
  induction names generalizing ok s with
  | nil => exact absurd hin not_mem_nil
  | cons first names ih =>
    by_cases heq : first = name
    · subst heq
      have hskip : (required.any fun only => first ≠ only) = false := by
        cases hrequired with
        | inl h =>
          rw [h]
          rfl
        | inr h =>
          rw [h]
          simp
      unfold copyChildren
      rw [hskip, if_neg Bool.false_ne_true]
      by_cases hverify : (!verifyDestinationDirectory w dst id s) = true
      · rw [if_pos hverify]
      · rw [if_neg hverify]
        cases hlookup : lookup w .lookup s.tree (src ++ [first]) with
        | none => exact copyChildren_false
        | some n =>
          dsimp only
          cases hself : (isDirectory n && root = some n.id) with
          | true =>
            rw [if_pos rfl]
            exact copyChildren_false
          | false =>
            have hthere : t (src ++ [first]) = some n := (hsame _ hname).symm.trans (lookup_eq hlookup)
            have hfalse := hchild n s hs hsame hthere hself
            rw [if_neg Bool.false_ne_true, hfalse, if_neg Bool.false_ne_true]
            split
            · exact hfalse
            · exact copyChildren_false
    · have hin' := (mem_cons.mp hin).resolve_left fun h => heq h.symm
      unfold copyChildren
      split
      · exact ih hin' hs hsame
      · split
        · rfl
        · split
          · exact ih hin' hs hsame
          · split
            · exact ih hin' (hs.stop true) hsame
            · rename_i n _ _
              have hcopied := hlocal first n s hs
              have hsame' := hkept first s _ hcopied hsame
              dsimp only
              split
              · exact ih hin' (hcopied.consistent hs) hsame'
              · rename_i hfalse
                split
                · exact Bool.eq_false_iff.mpr hfalse
                · exact ih hin' (hcopied.consistent hs) hsame'

theorem copyDirectory_way {s₁ : State}
    (hreachable : Reachable w t dest) (hbelow : src <+: dest) (hne : src ≠ dest) (hunder : dest <+: dst)
    (hmake : makeDestination w dst s = (some id, s₁)) (hs₁ : s₁.Consistent)
    (hsame : ∀ x, x <+: dest → s₁.tree x = t x)
    (hreal : (a.enter w top st dst id).real = none ∨ (a.enter w top st dst id).real = some dest)
    (hroot : ∃ d, t dest = some d ∧ (a.enter w top st dst id).root = some d.id)
    (hchild : ∀ name n s, s.Consistent → (∀ x, x <+: dest → s.tree x = t x) → src ++ [name] <+: dest →
      src ++ [name] ≠ dest → (copyPathSelected w fuel (a.enter w top st dst id) (src ++ [name]) (dst ++ [name]) false
        (some n) s).1 = false) :
    (copyDirectory w (fun a src dst n => copyPathSelected w fuel a src dst false (some n)) a src dst st top s).1 =
      false := by
  obtain ⟨name, hname⟩ := child_below_of_below hbelow hne
  have hlocal : Local dst fun name n s => copyPathSelected w fuel (a.enter w top st dst id) (src ++ [name])
      (dst ++ [name]) false (some n) s := fun name n s hs => copyPathSelected_within hs
  unfold copyDirectory
  rw [hmake]
  dsimp only
  split
  · rfl
  · rw [Bool.and_assoc, Bool.and_eq_false_iff]
    apply Or.inl
    cases hreaddir : w.fails .readdir src with
    | true => exact copyChildren_false
    | false =>
      rw [if_neg Bool.false_ne_true]
      apply copyChildren_way hlocal (hreachable.mem_readdir hsame hname) (requiredSelfCopyChild_way hreal hname) hunder
        hname hs₁ hsame
      intro n s' hs' hsame' hn hself
      apply hchild name n s' hs' hsame' hname
      intro heq
      obtain ⟨d, hd, hrootId⟩ := hroot
      obtain ⟨d', hd', hdir⟩ := hreachable.dirs dest (prefix_refl dest)
      rw [heq, hd] at hn
      cases hn
      rw [hd] at hd'
      cases hd'
      rw [hdir, hrootId] at hself
      simp at hself

theorem copyPathSelected_way (hreachable : Reachable w t dest)
    (hbelow : src <+: dest) (hne : src ≠ dest) (hunder : dest <+: dst) (hdst : dst ≠ dest) (hs : s.Consistent)
    (hsame : ∀ x, x <+: dest → s.tree x = t x) (hreal : a.real = none ∨ a.real = some dest)
    (hroot : ∃ d, t dest = some d ∧ a.root = some d.id) :
    (copyPathSelected w fuel a src dst false selected s).1 = false := by
  induction fuel generalizing a src dst selected s with
  | zero => rfl
  | succ fuel ih =>
    unfold copyPathSelected
    cases hst : lookup w .lookup s.tree src with
    | none => rfl
    | some st =>
      have hdir : isDirectory st = true := by
        obtain ⟨n, hn, hdir⟩ := hreachable.dirs src hbelow
        have hthere := lookup_eq hst
        rw [hsame src hbelow, hn] at hthere
        cases hthere
        exact hdir
      dsimp only
      rw [hdir, if_pos rfl]
      split
      · rfl
      · split
        · rfl
        · cases hmake : makeDestination w dst s with
          | mk id s₁ =>
            cases id with
            | none =>
              unfold copyDirectory
              rw [hmake]
            | some id =>
              have hmade := makeDestination_made hmake
              have hsame₁ : ∀ x, x <+: dest → s₁.tree x = t x := by
                intro x hx
                rw [hmade.within.frame x, hsame x hx]
                intro hbelow'
                exact hdst (List.IsPrefix.eq_of_length_le hunder (hbelow'.trans hx).length_le).symm
              have hreal' : (a.enter w false st dst id).real = none ∨ (a.enter w false st dst id).real = some dest := hreal
              have hroot' : ∃ d, t dest = some d ∧ (a.enter w false st dst id).root = some d.id := hroot
              apply copyDirectory_way hreachable hbelow hne hunder hmake (hmade.within.consistent hs) hsame₁ hreal' hroot'
              intro name n s' hs' hsame' hbelow' hne'
              apply ih hbelow' hne' (hunder.trans (prefix_append dst [name])) _ hs' hsame' hreal' hroot'
              intro heq
              have hlen := hunder.length_le
              rw [← heq, length_append, length_singleton] at hlen
              omega

theorem copyPath_into_itself (hbelow : src <+: dst) (hne : src ≠ dst) (hs : s.Consistent)
    (habove : (s.tree dst ≠ none ∨ inDirectory s.tree dst = true) →
      (∀ q, q <+: dst → q ≠ dst → ∃ n, s.tree q = some n ∧ isDirectory n = true) ∧
        ∀ q n, q ++ [n] <+: dst → n ∈ w.order q) :
    (copyPath w src dst s).1 = false := by
  unfold copyPath
  cases hst : lookup w .lookup s.tree src with
  | none =>
    unfold copyPathSelected
    rw [hst]
  | some st =>
    have hthere := lookup_eq hst
    cases hdir : isDirectory st with
    | false =>
      apply Bool.eq_false_iff.mpr
      intro hok
      have hin := (copyLeaf_copied hs hst hdir).inDirectory hok
      obtain ⟨n, hn, hdir'⟩ := (habove (Or.inr hin)).1 src hbelow hne
      rw [hthere] at hn
      cases hn
      exact absurd (hdir.symm.trans hdir') Bool.false_ne_true
    | true =>
      unfold copyPathSelected
      rw [hst]
      dsimp only
      rw [Option.any_none, if_neg Bool.false_ne_true, hdir, if_pos rfl]
      split
      · rfl
      · cases hmake : makeDestination w dst s with
        | mk id s₁ =>
          cases id with
          | none =>
            unfold copyDirectory
            rw [hmake]
          | some id =>
            have hmade := makeDestination_made hmake
            obtain ⟨d, hd, hdirectory, hid⟩ := hmade.there
            have hway : s.tree dst ≠ none ∨ inDirectory s.tree dst = true := by
              by_cases hnone : s.tree dst = none
              · exact Or.inr (hmade.inDirectory hnone)
              · exact Or.inl hnone
            have hreachable : Reachable w s₁.tree dst := by
              refine ⟨?_, (habove hway).2⟩
              intro q hq
              by_cases heq : q = dst
              · rw [heq]
                exact ⟨d, hd, hdirectory⟩
              · rw [hmade.within.frame q fun hunder => heq (hq.eq_of_length_le hunder.length_le)]
                exact (habove hway).1 q hq heq
            apply copyDirectory_way hreachable hbelow hne (prefix_refl dst) hmake (hmade.within.consistent hs)
              (fun _ _ => rfl)
            · unfold Ancestry.enter
              dsimp only
              rw [if_pos rfl]
              split
              · exact Or.inl rfl
              · exact Or.inr rfl
            · exact ⟨d, hd, by rw [hid]; rfl⟩
            · intro name n s' hs' hsame' hbelow' hne'
              have hlonger : dst ++ [name] ≠ dst := by
                intro heq
                have hlen := congrArg List.length heq
                rw [length_append, length_singleton] at hlen
                omega
              apply copyPathSelected_way hreachable hbelow' hne' (prefix_append dst [name]) hlonger hs' hsame'
              · unfold Ancestry.enter
                dsimp only
                rw [if_pos rfl]
                split
                · exact Or.inl rfl
                · exact Or.inr rfl
              · exact ⟨d, hd, by rw [hid]; rfl⟩

end

end Bx.Mv
