import Bx.Ash.Variables

/-!
# The environment mirrors the visible variables

`Touched` says what an operation can do to the store: change the bindings of one name, never the value of a readonly
one, and then publish that name.
-/

namespace Bx.Ash

open Bx.Kit List

variable {i : Nat} {var : Var} {f : Var → Var}

variable {scopes scopes' : List Scope} {name n : Name} {s t : Shell}

variable (locale : Name → Bool) (entries : List (Name × CStr))

def binding (scopes : List Scope) (i : Nat) (name : Name) : Option Var := scopes[i]?.bind (·.find name)

/-! ## What is visible -/

theorem lookup_cons (scope : Scope) (scopes : List Scope) (name : Name) :
    visible (scope :: scopes) name = (scope.find name).or (visible scopes name) := by
  unfold visible
  rw [lookup]
  cases scope.find name with
  | some var => rfl
  | none =>
    simp only [Option.map_map, Option.none_or]
    rfl

theorem visible_congr (hlen : scopes.length = scopes'.length) (h : ∀ i, binding scopes i name = binding scopes' i name) :
    visible scopes name = visible scopes' name := by
  induction scopes generalizing scopes' with
  | nil =>
    cases scopes' with
    | nil => rfl
    | cons scope rest => cases hlen
  | cons scope scopes ih =>
    cases scopes' with
    | nil => cases hlen
    | cons scope' rest =>
      rw [lookup_cons, lookup_cons, show scope.find name = scope'.find name from h 0,
        ih (Nat.succ.inj hlen) fun i => h (i + 1)]

theorem lookup_binding (h : lookup scopes name = some (i, var)) : binding scopes i name = some var := by
  induction scopes generalizing i with
  | nil => cases h
  | cons scope scopes ih =>
    rw [lookup] at h
    cases hfind : scope.find name with
    | some found =>
      rw [hfind] at h
      cases h
      exact hfind
    | none =>
      rw [hfind] at h
      obtain ⟨⟨j, v⟩, hj, heq⟩ := Option.map_eq_some_iff.mp h
      cases heq
      exact ih hj

/-! ## Touching one name -/

structure Touch (scopes : List Scope) (name : Name) (scopes' : List Scope) : Prop where
  length : scopes'.length = scopes.length
  kind : ∀ i : Nat, scopes'[i]?.map (·.kind) = scopes[i]?.map (·.kind)
  other : ∀ i n, n ≠ name → binding scopes' i n = binding scopes i n
  readonly : ∀ i var, binding scopes i name = some var → var.attributes.readonly = true →
    ∃ var', binding scopes' i name = some var' ∧ var'.value = var.value ∧ var'.attributes.readonly = true

theorem Touch.refl (scopes : List Scope) (name : Name) : Touch scopes name scopes :=
  ⟨rfl, fun _ => rfl, fun _ _ _ => rfl, fun _ var h hr => ⟨var, h, rfl, hr⟩⟩

theorem binding_modifyScope (scopes : List Scope) (i j : Nat) (f : List Var → List Var) (n : Name) :
    binding (modifyScope scopes i f) j n =
      if i = j then scopes[j]?.bind fun scope => (f scope.vars).find? (·.name = n) else binding scopes j n := by
  unfold binding modifyScope
  rw [getElem?_modify]
  by_cases h : i = j
  · rw [if_pos h]
    cases scopes[j]? with
    | none => rfl
    | some scope => simp only [if_pos h]; rfl
  · simp [if_neg h]

theorem Touch.modify {f : List Var → List Var}
    (hother : ∀ vars n, n ≠ name → (f vars).find? (·.name = n) = vars.find? (·.name = n))
    (hreadonly : ∀ var, binding scopes i name = some var → var.attributes.readonly = true → ∃ var',
      binding (modifyScope scopes i f) i name = some var' ∧ var'.value = var.value ∧ var'.attributes.readonly = true) :
    Touch scopes name (modifyScope scopes i f) := by
  refine ⟨length_modify .., ?_, ?_, ?_⟩
  · intro j
    unfold modifyScope
    rw [getElem?_modify]
    cases scopes[j]? with
    | none => rfl
    | some scope => by_cases h : i = j <;> simp [h]
  · intro j n hn
    rw [binding_modifyScope]
    by_cases h : i = j
    · rw [if_pos h]
      unfold binding
      cases scopes[j]? with
      | none => rfl
      | some scope => exact hother scope.vars n hn
    · rw [if_neg h]
  · intro j var hvar hr
    by_cases h : i = j
    · subst h
      exact hreadonly var hvar hr
    · refine ⟨var, ?_, rfl, hr⟩
      rw [binding_modifyScope, if_neg h]
      exact hvar

theorem find_updateVar_other (hf : ∀ var, (f var).name = var.name) (vars : List Var) (hn : n ≠ name) :
    (updateVar name f vars).find? (·.name = n) = vars.find? (·.name = n) := by
  induction vars with
  | nil => rfl
  | cons var rest ih =>
    unfold updateVar
    by_cases h : var.name = name
    · rw [if_pos h, find?_cons_of_neg (by simp [hf, h, hn.symm]), find?_cons_of_neg (by simp [h, hn.symm])]
    · rw [if_neg h, find?_cons, find?_cons, ih]

theorem find_updateVar (hf : ∀ var, (f var).name = var.name) (vars : List Var) :
    (updateVar name f vars).find? (·.name = name) = (vars.find? (·.name = name)).map f := by
  induction vars with
  | nil => rfl
  | cons var rest ih =>
    unfold updateVar
    by_cases h : var.name = name
    · rw [if_pos h, find?_cons_of_pos (by simp [hf, h]), find?_cons_of_pos (by simp [h])]
      rfl
    · rw [if_neg h, find?_cons_of_neg (by simp [h]), find?_cons_of_neg (by simp [h]), ih]

theorem Touch.create (hvar : var.name = name) (hnone : binding scopes i name = none) :
    Touch scopes name (modifyScope scopes i (var :: ·)) := by
  refine Touch.modify ?_ ?_
  · intro vars n hn
    rw [find?_cons_of_neg]
    simp [hvar, hn.symm]
  · intro v hv
    simp [hnone] at hv

theorem Touch.update (hf : ∀ var, (f var).name = var.name)
    (hr : ∀ var, binding scopes i name = some var → var.attributes.readonly = true →
      (f var).value = var.value ∧ (f var).attributes.readonly = true) :
    Touch scopes name (modifyScope scopes i (updateVar name f)) := by
  refine Touch.modify (fun vars n hn => find_updateVar_other hf vars hn) ?_
  intro var hvar hread
  refine ⟨f var, ?_, hr var hvar hread⟩
  rw [binding_modifyScope, if_pos rfl]
  obtain ⟨scope, hscope, hfind⟩ := Option.bind_eq_some_iff.mp hvar
  rw [hscope, Option.bind_some, find_updateVar hf]
  rw [show scope.vars.find? (·.name = name) = some var from hfind]
  rfl

theorem Touch.erase (hr : ∀ var, binding scopes i name = some var → var.attributes.readonly = false) :
    Touch scopes name (modifyScope scopes i (·.eraseP (·.name = name))) := by
  refine Touch.modify ?_ ?_
  · intro vars n hn
    induction vars with
    | nil => rfl
    | cons var rest ih =>
      by_cases h : var.name = name
      · rw [eraseP_cons_of_pos (by simp [h]), find?_cons_of_neg (by simp [h, hn.symm])]
      · rw [eraseP_cons_of_neg (by simp [h]), find?_cons, find?_cons, ih]
  · intro var hvar hread
    simp [hr var hvar] at hread

/-! ## What an operation can do to the store -/

inductive Touched (s : Shell) : Shell → Prop
  | refl : Touched s s
  | touch {t : Shell} {name : Name} {scopes : List Scope} : Touched s t → Touch t.scopes name scopes →
      Touched s (publishEnvironment { t with scopes } name)
  | pending {t : Shell} (pendingExports : List Name) : Touched s t → Touched s { t with pendingExports }
  | allexport {t : Shell} (allexport : Bool) : Touched s t → Touched s { t with allexport }

theorem Touched.length (h : Touched s t) : t.scopes.length = s.scopes.length := by
  induction h with
  | refl => rfl
  | touch _ hone ih => exact hone.length.trans ih
  | pending _ _ ih => exact ih
  | allexport _ _ ih => exact ih

theorem Touched.readonly (h : Touched s t) (hvar : binding s.scopes i n = some var)
    (hr : var.attributes.readonly = true) :
    ∃ var', binding t.scopes i n = some var' ∧ var'.value = var.value ∧ var'.attributes.readonly = true := by
  induction h with
  | refl => exact ⟨var, hvar, rfl, hr⟩
  | @touch t name scopes _ hone ih =>
    obtain ⟨var', hvar', hvalue, hr'⟩ := ih
    by_cases hn : n = name
    · rw [hn] at hvar'
      obtain ⟨var'', hvar'', hvalue', hr''⟩ := hone.readonly i var' hvar' hr'
      rw [← hn] at hvar''
      exact ⟨var'', hvar'', hvalue'.trans hvalue, hr''⟩
    · refine ⟨var', ?_, hvalue, hr'⟩
      show binding scopes i n = some var'
      rw [hone.other i n hn]
      exact hvar'
  | pending _ _ ih => exact ih
  | allexport _ _ ih => exact ih

/-! ## Mirroring -/

def Mirrored (s : Shell) (name : Name) : Prop := s.environ name = published (visible s.scopes name)

theorem Mirrored.publish (s : Shell) (name : Name) : Mirrored (publishEnvironment s name) name := by
  show Function.update s.environ name _ name = _
  rw [Function.update_self]
  rfl

theorem Mirrored.publish_other (h : Mirrored s n) (name : Name) : Mirrored (publishEnvironment s name) n := by
  by_cases hn : n = name
  · rw [hn]
    exact Mirrored.publish s name
  · show Function.update s.environ name _ n = _
    rw [Function.update_of_ne hn]
    exact h

theorem Mirrored.touch (h : Mirrored s n ∨ n = name) (hone : Touch s.scopes name scopes') :
    Mirrored (publishEnvironment { s with scopes := scopes' } name) n := by
  by_cases hn : n = name
  · rw [hn]
    exact Mirrored.publish _ name
  · apply Mirrored.publish_other
    show s.environ n = published (visible scopes' n)
    rw [visible_congr hone.length fun i => hone.other i n hn]
    exact h.resolve_right hn

theorem Touched.mirrored (h : Touched s t) (hs : Mirrored s n) : Mirrored t n := by
  induction h with
  | refl => exact hs
  | touch _ hone ih => exact Mirrored.touch (Or.inl ih) hone
  | pending _ _ ih => exact ih
  | allexport _ _ ih => exact ih

/-! ## The operations -/

theorem writable_false (h : writable (some var) = true) : var.attributes.readonly = false := by
  simpa [writable] using h

section
variable (h : Touched s t)
include h

theorem createInScope_touched {scope : Option Nat} (name : Name) (value : Option CStr)
    (attributes : Attributes) (faults : Faults) (hnone : ∀ i, scope = some i → binding t.scopes i name = none) :
    Touched s (createInScope t scope name value attributes faults).2 := by
  unfold createInScope
  split
  · exact h
  · rename_i i
    split
    · exact h
    · exact h.touch (Touch.create rfl (hnone i rfl))

theorem setInScope_touched (scope : Option Nat) (name : Name) (value : Option CStr)
    (attributes : Attributes) (forceExport : Bool) (faults : Faults) :
    Touched s (setInScope t scope name value attributes forceExport faults).2 := by
  unfold setInScope
  split
  · exact h
  · rename_i i
    dsimp only
    split
    · exact h
    · rename_i hwrite
      split
      · rename_i hnone
        apply createInScope_touched h
        intro j hj
        cases hj
        exact hnone
      · rename_i var hvar
        split
        · exact h
        · refine h.touch (Touch.update (fun _ => rfl) ?_)
          intro var' hvar' hr
          have heq : var = var' := Option.some.inj (hvar.symm.trans hvar')
          rw [hvar] at hwrite
          have : var.attributes.readonly = false := by
            apply writable_false
            simpa using (by simpa using hwrite : _ ∧ _).2
          simp [heq, hr] at this

theorem updateAttributes_touched (name : Name) (set clear : Attributes) (faults : Faults) :
    Touched s (updateAttributes t name set clear faults).2 := by
  unfold updateAttributes
  split
  · exact h
  · rename_i i var hfound
    split
    · exact h
    · split
      · exact h
      · rename_i hclear
        dsimp only
        split
        · exact h
        · refine h.touch (Touch.update (fun _ => rfl) ?_)
          intro var' hvar' hr
          rw [lookup_binding hfound] at hvar'
          cases hvar'
          refine ⟨rfl, ?_⟩
          have hkeep : clear.readonly = false := by simpa [hr] using hclear
          show ((var.attributes.readonly || set.readonly) && !clear.readonly) = true
          rw [hr, hkeep]
          rfl

theorem setCaller_touched (name : Name) (value : Option CStr) (forceExport : Bool)
    (outer current : Faults) : Touched s (setCaller t name value forceExport outer current).2 := by
  unfold setCaller
  dsimp only
  split
  · exact setInScope_touched h _ _ _ _ _ _
  · split
    · exact setInScope_touched h _ _ _ _ _ _
    · exact setInScope_touched (setInScope_touched h _ _ _ _ _ _) _ _ _ _ _ _

end

theorem visible_none_binding (h : lookup scopes name = none) (i : Nat) : binding scopes i name = none := by
  induction scopes generalizing i with
  | nil => rfl
  | cons scope scopes ih =>
    rw [lookup] at h
    cases hfind : scope.find name with
    | some var => simp [hfind] at h
    | none =>
      rw [hfind] at h
      cases i with
      | zero => exact hfind
      | succ i => exact ih (Option.map_eq_none_iff.mp h) i

theorem Touched.defer (h : Touched s t) (name : Name) : Touched s (deferPublication t name) := by
  unfold deferPublication
  split
  · exact h
  · exact h.pending _

theorem Touched.publish (h : Touched s t) (name : Name) : Touched s (publishEnvironment t name) :=
  h.touch (Touch.refl t.scopes name)

variable (names : List Name)

theorem publishPending_touched (h : Touched s t) : Touched s (publishPending locale names t).2 := by
  induction names generalizing t with
  | nil => exact h.pending []
  | cons name rest ih =>
    unfold publishPending
    dsimp only
    split
    · exact ih (h.publish name)
    · exact (h.publish name).pending _

theorem runOp_touched (s : Shell) (op : Op) (hpush : ∀ kind faults, op ≠ .push kind faults)
    (hpop : ∀ kind locale, op ≠ .pop kind locale) : Touched s (runOp s op).2 := by
  cases op with
  | set name value forceExport faults => exact setInScope_touched .refl _ _ _ _ _ _
  | setLocal name value forceExport faults => exact setInScope_touched .refl _ _ _ _ _ _
  | setCaller name value forceExport outer current => exact setCaller_touched .refl _ _ _ _ _
  | setTemporary name value forceExport faults =>
    show Touched s (setTemporary s name value forceExport faults).2
    unfold setTemporary
    split
    · exact .refl
    · exact setInScope_touched .refl _ _ _ _ _ _
  | «export» name outer current =>
    show Touched s (exportVar s name outer current).2
    unfold exportVar
    split
    · exact setInScope_touched .refl _ _ _ _ _ _
    · split
      · exact setCaller_touched .refl _ _ _ _ _
      · exact updateAttributes_touched .refl _ _ _ _
  | readonly name faults =>
    show Touched s (readonlyVar s name faults).2
    unfold readonlyVar
    split
    · exact updateAttributes_touched .refl _ _ _ _
    · rename_i hnone
      exact createInScope_touched .refl _ _ _ _ fun i _ => visible_none_binding hnone i
  | updateAttributes name set clear faults => exact updateAttributes_touched .refl _ _ _ _
  | unset name faults =>
    show Touched s (unset s name faults).2
    unfold unset
    split
    · exact .refl
    · rename_i i var hfound
      split
      · exact .refl
      · rename_i hr
        have herase : Touch s.scopes name (modifyScope s.scopes i (·.eraseP (·.name = name))) := by
          apply Touch.erase
          intro var' hvar'
          rw [lookup_binding hfound] at hvar'
          cases hvar'
          simpa using hr
        dsimp only
        split
        · exact Touched.refl.touch herase
        · exact (Touched.refl.touch herase).defer name
  | push kind faults => exact absurd rfl (hpush kind faults)
  | pop kind locale => exact absurd rfl (hpop kind locale)
  | publishPending locale => exact publishPending_touched locale _ .refl
  | allexport on => exact Touched.refl.allexport on

/-! ## Pushing and popping -/

theorem visible_push (kind : ScopeKind) (scopes : List Scope) (name : Name) :
    visible (⟨kind, []⟩ :: scopes) name = visible scopes name := by
  rw [lookup_cons]
  rfl

theorem publishRemoved_scopes (s : Shell) (name : Name) : (publishRemoved locale s name).scopes = s.scopes := by
  unfold publishRemoved deferPublication
  dsimp only
  split
  · rfl
  · split <;> rfl

theorem foldl_publishRemoved_scopes (s : Shell) : (names.foldl (publishRemoved locale) s).scopes = s.scopes := by
  induction names generalizing s with
  | nil => rfl
  | cons name rest ih => rw [foldl_cons, ih, publishRemoved_scopes]

theorem Mirrored.removed (h : Mirrored s n ∨ n = name) (locale : Name → Bool) : Mirrored (publishRemoved locale s name) n := by
  have hpub : Mirrored (publishEnvironment s name) n := by
    cases h with
    | inl hold => exact hold.publish_other name
    | inr hn =>
      rw [hn]
      exact Mirrored.publish s name
  unfold publishRemoved deferPublication
  dsimp only
  split
  · exact hpub
  · split <;> exact hpub

theorem foldl_publishRemoved_mirrored (s : Shell)
    (h : Mirrored s n ∨ n ∈ names) : Mirrored (names.foldl (publishRemoved locale) s) n := by
  induction names generalizing s with
  | nil =>
    cases h with
    | inl hold => exact hold
    | inr hmem => cases hmem
  | cons name rest ih =>
    rw [foldl_cons]
    apply ih
    cases h with
    | inl hold => exact Or.inl (Mirrored.removed (Or.inl hold) locale)
    | inr hmem =>
      cases mem_cons.mp hmem with
      | inl hn => exact Or.inl (Mirrored.removed (Or.inr hn) locale)
      | inr hrest => exact Or.inr hrest

theorem scopePop_scopes (s : Shell) (kind : ScopeKind) (locale : Name → Bool) : (scopePop s kind locale).2 = s ∨
      ∃ removed, s.scopes = removed :: (scopePop s kind locale).2.scopes ∧ removed.kind ≠ .global := by
  unfold scopePop
  split
  · exact Or.inl rfl
  · rename_i removed parents hscopes
    split
    · exact Or.inl rfl
    · rename_i hkind
      simp only [Bool.or_eq_true, decide_eq_true_eq, not_or] at hkind
      refine Or.inr ⟨removed, ?_, hkind.1⟩
      rw [hscopes, foldl_publishRemoved_scopes]

theorem scopePop_mirrored (h : Mirrored s n) (kind : ScopeKind) (locale : Name → Bool) :
    Mirrored (scopePop s kind locale).2 n := by
  unfold scopePop
  split
  · exact h
  · rename_i removed parents hscopes
    split
    · exact h
    · apply foldl_publishRemoved_mirrored
      by_cases hmem : n ∈ removed.vars.map (·.name)
      · exact Or.inr hmem
      · apply Or.inl
        have hnone : removed.find n = none := by
          apply find?_eq_none.mpr
          intro var hvar heq
          exact hmem (mem_map.mpr ⟨var, hvar, of_decide_eq_true heq⟩)
        show s.environ n = published (visible parents n)
        rw [show s.environ n = published (visible s.scopes n) from h, hscopes, lookup_cons, hnone]
        rfl

theorem scopePush_scopes (s : Shell) (kind : ScopeKind) (faults : Faults) : (scopePush s kind faults).2 = s ∨
      (kind ≠ .global ∧ (scopePush s kind faults).2 = { s with scopes := ⟨kind, []⟩ :: s.scopes }) := by
  unfold scopePush
  split
  · exact Or.inl rfl
  · rename_i h
    simp only [Bool.or_eq_true, decide_eq_true_eq, not_or] at h
    exact Or.inr ⟨h.1.2, rfl⟩

theorem scopePush_mirrored (h : Mirrored s n) (kind : ScopeKind) (faults : Faults) :
    Mirrored (scopePush s kind faults).2 n := by
  cases scopePush_scopes s kind faults with
  | inl hsame =>
    rw [hsame]
    exact h
  | inr hpush =>
    rw [hpush.2]
    show s.environ n = published (visible (⟨kind, []⟩ :: s.scopes) n)
    rw [visible_push]
    exact h

theorem runOp_mirrored (h : Mirrored s n) (op : Op) : Mirrored (runOp s op).2 n := by
  by_cases hpush : ∃ kind faults, op = .push kind faults
  · obtain ⟨kind, faults, rfl⟩ := hpush
    exact scopePush_mirrored h kind faults
  · by_cases hpop : ∃ kind locale, op = .pop kind locale
    · obtain ⟨kind, locale, rfl⟩ := hpop
      exact scopePop_mirrored h kind locale
    · refine (runOp_touched s op ?_ ?_).mirrored h
      · intro kind faults heq
        exact hpush ⟨kind, faults, heq⟩
      · intro kind locale heq
        exact hpop ⟨kind, locale, heq⟩

/-! ## Startup -/

def Plain (s : Shell) : Prop :=
  ∃ vars, s.scopes = [⟨.global, vars⟩] ∧ ∀ var ∈ vars, var.attributes.readonly = false

theorem mem_updateVar {vars : List Var} (h : var ∈ updateVar name f vars) : var ∈ vars ∨ ∃ old ∈ vars, var = f old := by
  induction vars with
  | nil => cases h
  | cons first rest ih =>
    unfold updateVar at h
    split at h
    · cases mem_cons.mp h with
      | inl heq => exact Or.inr ⟨first, mem_cons_self .., heq⟩
      | inr hrest => exact Or.inl (mem_cons_of_mem _ hrest)
    · cases mem_cons.mp h with
      | inl heq => exact Or.inl (heq ▸ mem_cons_self ..)
      | inr hrest =>
        cases ih hrest with
        | inl hmem => exact Or.inl (mem_cons_of_mem _ hmem)
        | inr hold =>
          obtain ⟨old, hmem, heq⟩ := hold
          exact Or.inr ⟨old, mem_cons_of_mem _ hmem, heq⟩

theorem setWithExport_plain (h : Plain s) (name : Name) (value : Option CStr) (forceExport : Bool) :
    Plain (setWithExport s name value forceExport ⟨true, true⟩).2 ∧
      Mirrored (setWithExport s name value forceExport ⟨true, true⟩).2 name := by
  obtain ⟨vars, hscopes, hplain⟩ := h
  have hvisible : visible s.scopes name = vars.find? (·.name = name) := by
    rw [hscopes, lookup_cons]
    exact Option.or_none
  have hbinding : s.scopes[0]?.bind (·.find name) = vars.find? (·.name = name) := by
    rw [hscopes]
    rfl
  have howner : ((lookup s.scopes name).map (·.1)).or (scopeGlobal s.scopes) = some 0 := by
    rw [hscopes]
    show ((lookup [⟨.global, vars⟩] name).map (·.1)).or (some 0) = some 0
    rw [lookup]
    split <;> rfl
  have hwrite : writable (vars.find? (·.name = name)) = true := by
    cases hfind : vars.find? (·.name = name) with
    | none => rfl
    | some var =>
      have := hplain var (mem_of_find?_eq_some hfind)
      simp [writable, this]
  have hattributes : (if forceExport || s.allexport then { ({} : Attributes) with «export» := true } else {}).readonly =
      false := by split <;> rfl
  have hmodify : ∀ f, modifyScope s.scopes 0 f = [⟨.global, f vars⟩] := by
    intro f
    rw [hscopes]
    rfl
  unfold setWithExport
  dsimp only
  rw [howner]
  unfold setInScope assignmentAllowed
  dsimp only
  rw [hvisible, hbinding, hwrite]
  simp only [Bool.not_true, Bool.or_self, Bool.false_eq_true, if_false]
  generalize (if forceExport || s.allexport then { ({} : Attributes) with «export» := true } else {}) = attributes
    at hattributes ⊢
  split
  · refine ⟨⟨⟨name, .scalar value, attributes⟩ :: vars, hmodify _, ?_⟩, Mirrored.publish _ name⟩
    intro var hvar
    cases mem_cons.mp hvar with
    | inl heq =>
      rw [heq]
      exact hattributes
    | inr hold => exact hplain var hold
  · refine ⟨⟨_, hmodify _, ?_⟩, Mirrored.publish _ name⟩
    intro var hvar
    cases mem_updateVar hvar with
    | inl hold => exact hplain var hold
    | inr hnew =>
      obtain ⟨old, hold, heq⟩ := hnew
      rw [heq]
      show (old.attributes.readonly || attributes.readonly) = false
      rw [hplain old hold, hattributes]
      rfl

theorem setWithExport_mirrored (h : Mirrored s n) (name : Name) (value : Option CStr) (forceExport : Bool)
    (faults : Faults) : Mirrored (setWithExport s name value forceExport faults).2 n :=
  runOp_mirrored h (.set name value forceExport faults)

theorem import_plain (s : Shell) (hplain : Plain s) : Plain (entries.foldl importEntry s) := by
  induction entries generalizing s with
  | nil => exact hplain
  | cons entry rest ih => exact ih _ (setWithExport_plain hplain entry.1 (some entry.2) true).1

theorem import_mirrored (s : Shell) (hplain : Plain s)
    (h : Mirrored s n ∨ n ∈ entries.map (·.1)) : Mirrored (entries.foldl importEntry s) n := by
  induction entries generalizing s with
  | nil =>
    cases h with
    | inl hold => exact hold
    | inr hmem => cases hmem
  | cons entry rest ih =>
    have hset := setWithExport_plain hplain entry.1 (some entry.2) true
    apply ih _ hset.1
    cases h with
    | inl hold => exact Or.inl (setWithExport_mirrored hold _ _ _ _)
    | inr hmem =>
      cases mem_cons.mp hmem with
      | inl hn =>
        rw [hn]
        exact Or.inl hset.2
      | inr hrest => exact Or.inr hrest

theorem fresh_plain (allexport : Bool) : Plain (fresh entries allexport) := by
  refine ⟨[], rfl, ?_⟩
  intro var hvar
  cases hvar

theorem importEnvironment_mirrored (allexport : Bool) (n : Name) :
    Mirrored (importEnvironment entries (fresh entries allexport)) n := by
  have hplain := fresh_plain entries allexport
  unfold importEnvironment
  dsimp only
  by_cases hn : n = ifs
  · rw [hn]
    refine (setWithExport_plain ?_ ifs _ false).2
    -- Importing keeps the stack plain, whatever name it is asked to mirror.
    exact import_plain _ _ hplain
  · apply setWithExport_mirrored
    have himport := import_mirrored (entries.filter (·.1 ≠ ifs)) _ hplain (n := n) ?_
    · show (Function.update _ ifs none : Name → Option CStr) n = _
      rw [Function.update_of_ne hn]
      exact himport
    · by_cases hmem : n ∈ entries.map (·.1)
      · apply Or.inr
        obtain ⟨entry, hentry, heq⟩ := mem_map.mp hmem
        refine mem_map.mpr ⟨entry, mem_filter.mpr ⟨hentry, ?_⟩, heq⟩
        rw [heq]
        exact decide_eq_true hn
      · apply Or.inl
        show (entries.find? (·.1 = n)).map (·.2) = none
        rw [find?_eq_none.mpr]
        · rfl
        · intro entry hentry heq
          exact hmem (mem_map.mpr ⟨entry, hentry, of_decide_eq_true heq⟩)

/-! ## Runs -/

theorem reachable_mirrored (h : Reachable system s) (n : Name) : Mirrored s n := by
  refine h.invariant (I := fun s => Mirrored s n) ?_ ?_
  · intro s ⟨entries, allexport, hs⟩
    rw [hs]
    exact importEnvironment_mirrored entries allexport n
  · intro s op t _ hs hstep
    rw [show t = (runOp s op).2 from hstep]
    exact runOp_mirrored hs op

/-- The binding of a name in the scope that has `level` scopes below it. -/
def levelBinding (s : Shell) (level : Nat) (name : Name) : Option Var :=
  binding s.scopes (s.scopes.length - 1 - level) name

theorem levelBinding_cons {scope : Scope} {level : Nat} (hs : s.scopes = scope :: t.scopes) (hlevel : level < t.scopes.length) :
    levelBinding s level n = levelBinding t level n := by
  unfold levelBinding
  rw [hs, length_cons, show t.scopes.length + 1 - 1 - level = (t.scopes.length - 1 - level) + 1 by omega]
  rfl

theorem runOp_readonly {level : Nat} (op : Op) (hlevel : level < s.scopes.length)
    (hlevel' : level < (runOp s op).2.scopes.length) (hvar : levelBinding s level n = some var)
    (hr : var.attributes.readonly = true) :
    ∃ var', levelBinding (runOp s op).2 level n = some var' ∧ var'.value = var.value ∧ var'.attributes.readonly = true := by
  by_cases hpush : ∃ kind faults, op = .push kind faults
  · obtain ⟨kind, faults, rfl⟩ := hpush
    refine ⟨var, ?_, rfl, hr⟩
    show levelBinding (scopePush s kind faults).2 level n = some var
    cases scopePush_scopes s kind faults with
    | inl hsame =>
      rw [hsame]
      exact hvar
    | inr hnew =>
      rw [hnew.2, ← hvar]
      exact levelBinding_cons rfl hlevel
  · by_cases hpop : ∃ kind locale, op = .pop kind locale
    · obtain ⟨kind, locale, rfl⟩ := hpop
      refine ⟨var, ?_, rfl, hr⟩
      show levelBinding (scopePop s kind locale).2 level n = some var
      cases scopePop_scopes s kind locale with
      | inl hsame =>
        rw [hsame]
        exact hvar
      | inr hgone =>
        obtain ⟨removed, hscopes, _⟩ := hgone
        rw [← hvar]
        exact (levelBinding_cons hscopes hlevel').symm
    · have htouched : Touched s (runOp s op).2 := by
        apply runOp_touched
        · intro kind faults heq
          exact hpush ⟨kind, faults, heq⟩
        · intro kind locale heq
          exact hpop ⟨kind, locale, heq⟩
      unfold levelBinding at hvar ⊢
      rw [htouched.length]
      exact htouched.readonly hvar hr

/-- The environment holds a name exactly where its visible binding is exported and has a scalar value. -/
def EnvironmentMirrors (s : Shell) : Prop :=
  ∀ n value, s.environ n = some value ↔
    ∃ var, visible s.scopes n = some var ∧ var.attributes.export = true ∧ var.value.getScalar = some value

/-- The operation neither takes away the scopes up to `depth` nor changes their bindings of a name. -/
def KeepsOuter (depth : Nat) (n : Name) (s : Shell) (op : Op) : Prop :=
  depth < (runOp s op).2.scopes.length ∧
    ∀ level, level < depth → levelBinding (runOp s op).2 level n = levelBinding s level n

/-- A scope that is pushed and popped again leaves each name whose outer bindings have been kept as it was. -/
def PopRestores (s : Shell) : Prop :=
  ∀ kind faults, (scopePush s kind faults).1 = true → ∀ n ops t,
    Run (system.guarded (KeepsOuter s.scopes.length n)) (scopePush s kind faults).2 ops t →
    ∀ kind' locale, let u := (scopePop t kind' locale).2
    u.scopes.length = s.scopes.length → visible u.scopes n = visible s.scopes n ∧ u.environ n = s.environ n

def ReadonlyKept (s : Shell) : Prop :=
  ∀ level n var, level < s.scopes.length → levelBinding s level n = some var → var.attributes.readonly = true →
    ∀ ops t, Run (system.guarded fun s op => level < (runOp s op).2.scopes.length) s ops t →
      ∃ var', levelBinding t level n = some var' ∧ var'.value = var.value ∧ var'.attributes.readonly = true

theorem environmentMirrors_of_mirrored (h : ∀ n, Mirrored s n) : EnvironmentMirrors s := by
  intro n value
  rw [show s.environ n = published (visible s.scopes n) from h n]
  unfold published
  cases visible s.scopes n with
  | none => simp
  | some var => simp

theorem readonlyKept (s : Shell) : ReadonlyKept s := by
  intro level n var hlevel hvar hr ops t hrun
  have hkept : level < t.scopes.length ∧
      ∃ var', levelBinding t level n = some var' ∧ var'.value = var.value ∧ var'.attributes.readonly = true := by
    refine hrun.invariant (I := fun t => level < t.scopes.length ∧ ∃ var', levelBinding t level n = some var' ∧
      var'.value = var.value ∧ var'.attributes.readonly = true) ⟨hlevel, var, hvar, rfl, hr⟩ ?_
    intro s op t ⟨hlen, var₁, hvar₁, hvalue₁, hr₁⟩ ⟨hlen', hstep⟩
    rw [show t = (runOp s op).2 from hstep]
    obtain ⟨var₂, hvar₂, hvalue₂, hr₂⟩ := runOp_readonly op hlen hlen' hvar₁ hr₁
    exact ⟨hlen', var₂, hvar₂, hvalue₂.trans hvalue₁, hr₂⟩
  exact hkept.2

theorem levelBinding_reverse (h : i < s.scopes.length) :
    binding s.scopes i n = levelBinding s (s.scopes.length - 1 - i) n := by
  unfold levelBinding
  rw [show s.scopes.length - 1 - (s.scopes.length - 1 - i) = i by omega]

theorem visible_of_levels (hlen : s.scopes.length = t.scopes.length)
    (h : ∀ level, level < s.scopes.length → levelBinding s level n = levelBinding t level n) :
    visible s.scopes n = visible t.scopes n := by
  apply visible_congr hlen
  intro i
  by_cases hi : i < s.scopes.length
  · rw [levelBinding_reverse hi, levelBinding_reverse (hlen ▸ hi), ← hlen]
    exact h _ (by omega)
  · unfold binding
    rw [getElem?_eq_none (Nat.le_of_not_lt hi), getElem?_eq_none (hlen ▸ Nat.le_of_not_lt hi)]

theorem Reachable.of_run (h : Reachable system s) {ok : Shell → Op → Prop} {ops : List Op}
    (hrun : Run (system.guarded ok) s ops t) : Reachable system t := by
  refine hrun.invariant h ?_
  intro s op t hs hstep
  exact .step hs hstep.2

theorem popRestores (h : Reachable system s) : PopRestores s := by
  intro kind faults hok n ops t hrun kind' locale u hlen
  have hpush : (scopePush s kind faults).2.scopes = ⟨kind, []⟩ :: s.scopes := by
    unfold scopePush at hok ⊢
    split at hok
    · cases hok
    · rw [if_neg ‹_›]
  have hkept : s.scopes.length < t.scopes.length ∧
      ∀ level, level < s.scopes.length → levelBinding t level n = levelBinding s level n := by
    refine hrun.invariant (I := fun t => s.scopes.length < t.scopes.length ∧
      ∀ level, level < s.scopes.length → levelBinding t level n = levelBinding s level n) ?_ ?_
    · refine ⟨?_, ?_⟩
      · rw [hpush]
        exact Nat.lt_succ_self _
      · intro level hlevel
        exact levelBinding_cons hpush hlevel
    · intro t op t' ⟨_, hbind⟩ ⟨⟨hlen', hkeep⟩, hstep⟩
      rw [show t' = (runOp t op).2 from hstep]
      refine ⟨hlen', ?_⟩
      intro level hlevel
      rw [hkeep level hlevel, hbind level hlevel]
  have hvisible : visible u.scopes n = visible s.scopes n := by
    apply visible_of_levels hlen
    intro level hlevel
    rw [hlen] at hlevel
    rw [← hkept.2 level hlevel]
    cases scopePop_scopes t kind' locale with
    | inl hsame =>
      have : u.scopes.length = t.scopes.length := by rw [show u = t from hsame]
      omega
    | inr hgone =>
      obtain ⟨removed, hscopes, _⟩ := hgone
      exact (levelBinding_cons hscopes (hlen ▸ hlevel)).symm
  refine ⟨hvisible, ?_⟩
  have hstep : system.step s (.push kind faults) (scopePush s kind faults).2 := rfl
  have ht : Reachable system t := Reachable.of_run (.step h hstep) hrun
  have hu : Mirrored u n := scopePop_mirrored (reachable_mirrored ht n) kind' locale
  rw [show u.environ n = _ from hu, hvisible]
  exact (reachable_mirrored h n).symm

/-- A command runs with `IFS` assigned before it. -/
def assignedBefore : Shell :=
  let s := (scopePush (importEnvironment [] (fresh [] false)) .temporaryAssignment ⟨true, true⟩).2
  (setTemporary s ifs (some [',']) true ⟨true, true⟩).2

end Bx.Ash
