import Bx.Ash.ScopeStack
import Bx.Ash.VariablesSound

/-!
# The scope stack is kept in order

What an operation does to the scopes keeps the invariants. A frame may read the positional parameters it owns, those the
frames below own, and what callers have lent: replacing the parameters in use never touches a caller's.
-/

namespace Bx.Ash.Scopes

open Bx.Kit List

variable (setenv locale : Name → Bool)

/-! ## Scopes and their frames -/

structure Fits (scope : Scope) (frame : ScopeFrame) : Prop where
  vars : varListInvariants scope.vars = true
  frame : frameInvariants scope.kind frame = true

/-- The global scope is at the bottom, and only there. -/
inductive Stacked : List Scope → List ScopeFrame → Prop
  | global {scope : Scope} {frame : ScopeFrame} : scope.kind = .global → Fits scope frame → Stacked [scope] [frame]
  | push {scope : Scope} {frame : ScopeFrame} {scopes : List Scope} {frames : List ScopeFrame} :
    scope.kind ≠ .global → Fits scope frame → Stacked scopes frames → Stacked (scope :: scopes) (frame :: frames)

section
variable {scopes : List Scope} {frames : List ScopeFrame} {name : Name} {vars : List Var}

section
variable (h : Stacked scopes frames)
include h

theorem Stacked.length : frames.length = scopes.length := by
  induction h with
  | global _ _ => rfl
  | push _ _ _ ih => exact congrArg (· + 1) ih

theorem Stacked.ne_nil : scopes ≠ [] := by
  cases h with
  | global _ _ => exact (nomatch ·)
  | push _ _ _ => exact (nomatch ·)

theorem Stacked.invariants (globalCount : Nat) :
    scopesInvariants scopes frames globalCount = decide (globalCount = 0) := by
  induction h with
  | global hkind hfits =>
    unfold scopesInvariants
    rw [hfits.vars, hkind, ← hkind, hfits.frame, hkind]
    simp [scopesInvariants]
  | @push scope frame scopes frames hkind hfits _ ih =>
    unfold scopesInvariants
    rw [hfits.vars, hfits.frame, decide_eq_true hkind, if_neg hkind, ih]
    rfl

theorem Stacked.active : ∃ p, active frames = some p ∧ positionalsInvariants p = true := by
  have hown {scope : Scope} {frame : ScopeFrame} (hfits : Fits scope frame) (hhas : frame.hasPositionals = true) :
      positionalsInvariants frame.positionals = true := by
    have hframe := hfits.frame
    unfold frameInvariants at hframe
    rw [hhas, if_pos rfl, Bool.and_eq_true] at hframe
    exact hframe.2
  induction h with
  | @global scope frame hkind hfits =>
    have hframe := hfits.frame
    unfold frameInvariants at hframe
    rw [hkind, Bool.and_eq_true] at hframe
    have hhas : frame.hasPositionals = true := by simpa using hframe.1
    unfold Scopes.active
    rw [if_pos hhas]
    exact ⟨_, rfl, hown hfits hhas⟩
  | @push scope frame _ _ _ hfits _ ih =>
    unfold Scopes.active
    by_cases hhas : frame.hasPositionals = true
    · rw [if_pos hhas]
      exact ⟨_, rfl, hown hfits hhas⟩
    · rw [if_neg hhas]
      exact ih

end

theorem argv0_isSome {p : PositionalFrame} (h : positionalsInvariants p = true) : p.argv0.isSome = true := by
  unfold positionalsInvariants at h
  simp only [Bool.and_eq_true] at h
  exact h.1.1.1

theorem Stacked.modify {i : Nat} {f : List Var → List Var}
    (hf : ∀ scope, scopes[i]? = some scope → varListInvariants scope.vars = true → varListInvariants (f scope.vars) = true)
    (h : Stacked scopes frames) : Stacked (modifyScope scopes i f) frames := by
  unfold modifyScope
  induction h generalizing i with
  | global hkind hfits =>
    cases i with
    | zero => exact .global hkind ⟨hf _ rfl hfits.vars, hfits.frame⟩
    | succ i =>
      rw [modify_succ_cons, modify_nil]
      exact .global hkind hfits
  | push hkind hfits h ih =>
    cases i with
    | zero => exact .push hkind ⟨hf _ rfl hfits.vars, hfits.frame⟩ h
    | succ i => exact .push hkind hfits (ih hf)

theorem varListInvariants_iff : varListInvariants vars = true ↔
    (vars.map (·.name)).Nodup ∧ ∀ var ∈ vars, var.attributes.valid = true := by
  unfold varListInvariants
  rw [Bool.and_eq_true, decide_eq_true_iff, all_eq_true]

theorem varListInvariants_create {var : Var} (hnone : vars.find? (·.name = var.name) = none)
    (hvalid : var.attributes.valid = true) (h : varListInvariants vars = true) :
    varListInvariants (var :: vars) = true := by
  rw [varListInvariants_iff] at h ⊢
  rw [find?_eq_none] at hnone
  refine ⟨nodup_cons.mpr ⟨?_, h.1⟩, ?_⟩
  · intro hmem
    obtain ⟨other, hother, heq⟩ := mem_map.mp hmem
    exact hnone other hother (decide_eq_true heq)
  · intro other hother
    cases mem_cons.mp hother with
    | inl heq => exact heq ▸ hvalid
    | inr hother => exact h.2 other hother

theorem map_name_updateVar {f : Var → Var} (hname : ∀ var, (f var).name = var.name) (vars : List Var) :
    (updateVar name f vars).map (·.name) = vars.map (·.name) := by
  induction vars with
  | nil => rfl
  | cons var rest ih =>
    unfold updateVar
    by_cases h : var.name = name
    · rw [if_pos h, map_cons, map_cons, hname]
    · rw [if_neg h, map_cons, map_cons, ih]

theorem varListInvariants_update {f : Var → Var} (hname : ∀ var, (f var).name = var.name)
    (hvalid : ∀ var, var.attributes.valid = true → (f var).attributes.valid = true)
    (h : varListInvariants vars = true) : varListInvariants (updateVar name f vars) = true := by
  rw [varListInvariants_iff] at h ⊢
  rw [map_name_updateVar hname]
  refine ⟨h.1, ?_⟩
  intro var hvar
  cases mem_updateVar hvar with
  | inl hmem => exact h.2 var hmem
  | inr hex =>
    obtain ⟨old, hold, rfl⟩ := hex
    exact hvalid old (h.2 old hold)

theorem varListInvariants_erase (h : varListInvariants vars = true) :
    varListInvariants (vars.eraseP (·.name = name)) = true := by
  rw [varListInvariants_iff] at h ⊢
  refine ⟨h.1.sublist (eraseP_sublist.map _), ?_⟩
  intro var hvar
  exact h.2 var (mem_of_mem_eraseP hvar)

end

/-! ## Variables -/

/-- What an operation on variables may do to the store. -/
structure Kept (s t : Shell) : Prop where
  scopes : ∀ {frames}, Stacked s.scopes frames → Stacked t.scopes frames
  pending : s.pendingExports.Nodup → t.pendingExports.Nodup

section
variable {s t u : Shell} {name : Name}

theorem Kept.refl (s : Shell) : Kept s s := ⟨id, id⟩

theorem Kept.trans (h : Kept s t) (h' : Kept t u) : Kept s u := ⟨fun hs => h'.scopes (h.scopes hs), fun hp => h'.pending (h.pending hp)⟩

theorem Kept.publish (s : Shell) (name : Name) : Kept s (publishEnvironment s name) := ⟨id, id⟩

theorem Kept.defer (s : Shell) (name : Name) : Kept s (deferPublication s name) := by
  unfold deferPublication
  by_cases h : name ∈ s.pendingExports
  · rw [if_pos h]
    exact Kept.refl s
  · rw [if_neg h]
    exact ⟨id, fun hp => nodup_cons.mpr ⟨h, hp⟩⟩

theorem Kept.modify {i : Nat} {f : List Var → List Var}
    (hf : ∀ scope, s.scopes[i]? = some scope → varListInvariants scope.vars = true → varListInvariants (f scope.vars) = true) :
    Kept s { s with scopes := modifyScope s.scopes i f } := ⟨Stacked.modify hf, id⟩

theorem publishVisible_kept (s : Shell) (name : Name) : Kept s (publishVisible setenv locale s name).2 := by
  unfold publishVisible
  split
  · exact Kept.refl s
  · exact Kept.publish s name

theorem publishVisible_scopes (s : Shell) (name : Name) :
    (publishVisible setenv locale s name).2.scopes = s.scopes := by
  unfold publishVisible
  split <;> rfl

theorem deferPublication_scopes (s : Shell) (name : Name) : (deferPublication s name).scopes = s.scopes := by
  unfold deferPublication
  split <;> rfl

variable (names : List Name)

theorem publishRemoved_kept (s : Shell) : Kept s (publishRemoved setenv locale names s).2 := by
  induction names generalizing s with
  | nil => exact Kept.refl s
  | cons name rest ih =>
    unfold publishRemoved
    have hvisible := publishVisible_kept setenv locale s name
    dsimp only
    split
    · exact hvisible.trans (ih _)
    · exact (hvisible.trans (Kept.defer _ name)).trans (ih _)

theorem publishRemoved_scopes (s : Shell) : (publishRemoved setenv locale names s).2.scopes = s.scopes := by
  induction names generalizing s with
  | nil => rfl
  | cons name rest ih =>
    unfold publishRemoved
    dsimp only
    split
    · rw [ih, publishVisible_scopes]
    · rw [ih, deferPublication_scopes, publishVisible_scopes]

theorem publishPending_kept (hnodup : names.Nodup) : Kept s (publishPending setenv locale names s).2 := by
  induction names generalizing s with
  | nil => exact ⟨id, fun _ => nodup_nil⟩
  | cons name rest ih =>
    unfold publishPending
    have hvisible := publishVisible_kept setenv locale s name
    dsimp only
    split
    · exact hvisible.trans (ih (nodup_cons.mp hnodup).2)
    · exact ⟨hvisible.scopes, fun _ => hnodup⟩

theorem unset_kept (s : Shell) (name : Name) : Kept s (unset setenv locale s name).2 := by
  unfold unset
  cases hlookup : lookup s.scopes name with
  | none => exact Kept.refl s
  | some found =>
    obtain ⟨i, var⟩ := found
    dsimp only
    split
    · exact Kept.refl s
    · have herase : Kept s { s with scopes := modifyScope s.scopes i (·.eraseP (·.name = name)) } :=
        Kept.modify fun _ _ h => varListInvariants_erase h
      have hvisible := herase.trans (publishVisible_kept setenv locale _ name)
      split
      · exact hvisible
      · exact hvisible.trans (Kept.defer _ name)

theorem createInScope_kept (scope : Option Nat) (name : Name) (value : Option CStr) {attributes : Attributes}
    (hvalid : attributes.valid = true) (faults : Faults) (hnone : ∀ i, scope = some i → binding s.scopes i name = none) :
    Kept s (createInScope s scope name value attributes faults).2 := by
  unfold createInScope
  cases scope with
  | none => exact Kept.refl s
  | some i =>
    dsimp only
    split
    · exact Kept.refl s
    · have hcreate : Kept s { s with scopes := modifyScope s.scopes i (⟨name, .scalar value, attributes⟩ :: ·) } := by
        apply Kept.modify
        intro scope hscope h
        have hbinding := hnone i rfl
        unfold binding at hbinding
        rw [hscope] at hbinding
        exact varListInvariants_create hbinding hvalid h
      exact hcreate.trans (Kept.publish _ name)

theorem valid_or {a b : Attributes} (ha : a.valid = true) (hupper : b.uppercase = false) (hlower : b.lowercase = false) :
    (a.or b).valid = true := by
  unfold Attributes.valid Attributes.or at *
  rw [hupper, hlower, Bool.or_false, Bool.or_false]
  exact ha

theorem setInScope_kept (scope : Option Nat) (name : Name) (value : Option CStr) (isLocal forceExport : Bool)
    (faults : Faults) : Kept s (setInScope s scope name value { «local» := isLocal } forceExport faults).2 := by
  unfold setInScope
  cases scope with
  | none => exact Kept.refl s
  | some i =>
    dsimp only
    split
    · exact Kept.refl s
    · generalize hattributes : (if forceExport || s.allexport then
        ({ «local» := isLocal, «export» := true } : Attributes) else { «local» := isLocal }) = attributes
      have hcase : attributes.uppercase = false ∧ attributes.lowercase = false := by
        rw [← hattributes]
        split <;> exact ⟨rfl, rfl⟩
      cases hfind : s.scopes[i]?.bind (·.find name) with
      | none =>
        apply createInScope_kept
        · have hor := valid_or (a := {}) rfl hcase.1 hcase.2
          exact hor
        · intro j hj
          cases hj
          exact hfind
      | some var =>
        dsimp only
        split
        · exact Kept.refl s
        · refine Kept.trans ?_ (Kept.publish _ name)
          exact Kept.modify fun _ _ h => varListInvariants_update (fun _ => rfl)
            (fun _ hvalid => valid_or hvalid hcase.1 hcase.2) h

theorem updateAttributes_kept (name : Name) (set clear : Attributes) (faults : Faults) :
    Kept s (Ash.updateAttributes s name set clear faults).2 := by
  unfold Ash.updateAttributes
  cases lookup s.scopes name with
  | none => exact Kept.refl s
  | some found =>
    dsimp only
    split
    · exact Kept.refl s
    · split
      · exact Kept.refl s
      · split
        · exact Kept.refl s
        · next hcandidate =>
          refine Kept.trans ?_ (Kept.publish _ name)
          exact Kept.modify fun _ _ h => varListInvariants_update (fun _ => rfl)
            (fun _ _ => by simpa using hcandidate) h

theorem unlessRefused_kept (name : Name) {r : Bool × Shell} (h : Kept s r.2) :
    Kept s (unlessRefused setenv s name r).2 := by
  unfold unlessRefused
  split
  · exact Kept.refl s
  · exact h

theorem runVarOp_kept (op : StackOp) (hnodup : s.pendingExports.Nodup) : Kept s (runVarOp s op) := by
  cases op with
  | assign scope name value isLocal forceExport faults setenv =>
    exact unlessRefused_kept setenv name (setInScope_kept scope name value isLocal forceExport faults)
  | updateAttributes name set clear faults setenv =>
    exact unlessRefused_kept setenv name (updateAttributes_kept name set clear faults)
  | readonly name faults setenv =>
    apply unlessRefused_kept setenv name
    unfold readonlyVar
    cases hlookup : lookup s.scopes name with
    | none => exact createInScope_kept _ name none rfl faults fun i _ => visible_none_binding hlookup i
    | some found => exact updateAttributes_kept name _ _ faults
  | unset name setenv locale => exact unset_kept setenv locale s name
  | publishPending setenv locale => exact publishPending_kept setenv locale _ hnodup
  | allexport on => exact ⟨id, id⟩
  | _ => exact Kept.refl s

end

end Bx.Ash.Scopes
