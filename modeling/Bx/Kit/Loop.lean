import Mathlib.Tactic.Ring

/-!
# Loops

A loop goes from state to state until a step leaves it with a result. An invariant that every step keeps while a
measure goes down gives a result that meets the postcondition.
-/

namespace Bx.Kit

variable {σ ρ : Type*}

def loop (step : σ → σ ⊕ ρ) : Nat → σ → Option ρ
  | 0, _ => none
  | fuel + 1, s =>
    match step s with
    | .inl t => loop step fuel t
    | .inr r => some r

theorem loop_of_measure {step : σ → σ ⊕ ρ} (I : σ → Prop) (Q : ρ → Prop) (measure : σ → Nat)
    (hgo : ∀ s t, I s → step s = .inl t → I t ∧ measure t < measure s)
    (hleave : ∀ s r, I s → step s = .inr r → Q r) {s : σ} {fuel : Nat} (hs : I s) (hfuel : measure s < fuel) :
    ∃ r, loop step fuel s = some r ∧ Q r := by
  induction fuel generalizing s with
  | zero => exact absurd hfuel (Nat.not_lt_zero _)
  | succ fuel ih =>
    unfold loop
    cases hstep : step s with
    | inl t =>
      obtain ⟨ht, hlt⟩ := hgo s t hs hstep
      exact ih ht (by omega)
    | inr r => exact ⟨r, rfl, hleave s r hs hstep⟩

variable {step : σ → σ ⊕ ρ} {s : σ} {r : ρ} {τ π : Type*}

theorem loop_go {t : σ} (h : step s = .inl t) (fuel : Nat) : loop step (fuel + 1) s = loop step fuel t := by
  simp [loop, h]

theorem loop_leave (h : step s = .inr r) (fuel : Nat) : loop step (fuel + 1) s = some r := by
  simp [loop, h]

theorem loop_mono {fuel more : Nat} (h : loop step fuel s = some r)
    (hle : fuel ≤ more) : loop step more s = some r := by
  induction fuel generalizing s more with
  | zero => cases h
  | succ fuel ih =>
    obtain ⟨more, rfl⟩ : ∃ m, more = m + 1 := ⟨more - 1, by omega⟩
    unfold loop at h ⊢
    cases hstep : step s with
    | inl t =>
      rw [hstep] at h
      exact ih h (by omega)
    | inr r' =>
      rw [hstep] at h
      exact h

theorem loop_fuel {step : σ → σ ⊕ ρ} (measure : σ → Nat) (hgo : ∀ s t, step s = .inl t → measure t < measure s)
    {s : σ} {fuel fuel' : Nat} (h : measure s < fuel) (h' : measure s < fuel') :
    loop step fuel s = loop step fuel' s := by
  have hrun : ∀ n, measure s < n → ∃ r, loop step n s = some r ∧ True := by
    intro n hn
    apply loop_of_measure (fun _ => True) (fun _ => True) measure _ _ trivial hn
    · intro s t _ hstep
      exact ⟨trivial, hgo s t hstep⟩
    · intro _ _ _ _
      trivial
  obtain ⟨r, hr, _⟩ := hrun fuel h
  obtain ⟨r', hr', _⟩ := hrun fuel' h'
  cases le_total fuel fuel' with
  | inl hle => rw [hr, loop_mono hr hle]
  | inr hle => rw [hr', loop_mono hr' hle]

variable {step' : τ → τ ⊕ π} {t : τ}

theorem loop_rel (R : σ → τ → Prop) (Q : ρ → π → Prop)
    (hstep : ∀ s t, R s t → Sum.LiftRel R Q (step s) (step' t)) (h : R s t) (fuel : Nat) :
    Option.Rel Q (loop step fuel s) (loop step' fuel t) := by
  induction fuel generalizing s t with
  | zero => exact .none
  | succ fuel ih =>
    have hst := hstep s t h
    unfold loop
    cases hs : step s with
    | inl s' =>
      cases ht : step' t with
      | inl t' =>
        rw [hs, ht] at hst
        cases hst with
        | inl hnext => exact ih hnext
      | inr r' => simp [hs, ht] at hst
    | inr r =>
      cases ht : step' t with
      | inl t' => simp [hs, ht] at hst
      | inr r' =>
        rw [hs, ht] at hst
        cases hst with
        | inr hleave => exact .some hleave

/-- How two loops stay together: both go on, both leave, or the first leaves one step late. -/
inductive Together {τ π : Type*} (step : σ → σ ⊕ ρ) (step' : τ → τ ⊕ π) (R : σ → τ → Prop) (Q : ρ → π → Prop)
    (measure : σ → Nat) (s : σ) (t : τ) : Prop
  | go {s' : σ} {t' : τ} : step s = .inl s' → step' t = .inl t' → R s' t' → measure s' < measure s →
      Together step step' R Q measure s t
  | leave {r : ρ} {r' : π} : step s = .inr r → step' t = .inr r' → Q r r' → Together step step' R Q measure s t
  | late {s' : σ} {r : ρ} {r' : π} : step s = .inl s' → measure s' < measure s → step s' = .inr r →
      step' t = .inr r' → Q r r' → Together step step' R Q measure s t

theorem loop_together {R : σ → τ → Prop} {Q : ρ → π → Prop}
    (measure : σ → Nat) (hstep : ∀ s t, R s t → Together step step' R Q measure s t)
    {fuel fuel' : Nat} (h : R s t) (hfuel : measure s < fuel) (hfuel' : measure s < fuel') :
    ∃ r r', loop step fuel s = some r ∧ loop step' fuel' t = some r' ∧ Q r r' := by
  induction fuel generalizing s t fuel' with
  | zero => exact absurd hfuel (Nat.not_lt_zero _)
  | succ fuel ih =>
    obtain ⟨fuel', rfl⟩ : ∃ n, fuel' = n + 1 := ⟨fuel' - 1, by omega⟩
    cases hstep s t h with
    | go hs ht hR hlt =>
      rw [loop_go hs, loop_go ht]
      exact ih hR (by omega) (by omega)
    | leave hs ht hQ => exact ⟨_, _, loop_leave hs fuel, loop_leave ht fuel', hQ⟩
    | late hs hlt hs' ht hQ =>
      obtain ⟨fuel, rfl⟩ : ∃ n, fuel = n + 1 := ⟨fuel - 1, by omega⟩
      rw [loop_go hs]
      exact ⟨_, _, loop_leave hs' fuel, loop_leave ht fuel', hQ⟩

def Leaves (step : σ → σ ⊕ ρ) (s : σ) : Prop := ∃ fuel r, loop step fuel s = some r

inductive Visits (step : σ → σ ⊕ ρ) : σ → σ → Prop
  | refl (s : σ) : Visits step s s
  | go {s t u : σ} : step s = .inl t → Visits step t u → Visits step s u

theorem Visits.invariant {I : σ → Prop} (hstep : ∀ s t, I s → step s = .inl t → I t) {t : σ}
    (h : Visits step s t) (hs : I s) : I t := by
  induction h with
  | refl => exact hs
  | go hgo _ ih => exact ih (hstep _ _ hs hgo)

theorem Visits.trans {t u : σ} (h : Visits step s t) (h' : Visits step t u) : Visits step s u := by
  induction h with
  | refl => exact h'
  | go hgo _ ih => exact .go hgo (ih h')

theorem Visits.loop {t : σ} (h : Visits step s t) {fuel : Nat}
    (hr : loop step fuel t = some r) : ∃ more, Kit.loop step more s = some r := by
  induction h with
  | refl => exact ⟨fuel, hr⟩
  | go hgo _ ih =>
    obtain ⟨more, hmore⟩ := ih hr
    exact ⟨more + 1, (loop_go hgo more).trans hmore⟩

/-- Where a loop that is stuck stays stuck and any other step lowers a measure, being stuck is
all that keeps the loop from being left. -/
theorem leaves_iff_of_stuck (step : σ → σ ⊕ ρ) (stuck : σ → Prop) (measure : σ → Nat)
    (hstuck : ∀ s, stuck s → ∃ t, step s = .inl t ∧ stuck t)
    (hgo : ∀ s t, ¬stuck s → step s = .inl t → measure t < measure s) :
    Leaves step s ↔ ∀ t, Visits step s t → ¬stuck t := by
  refine ⟨?_, ?_⟩
  · intro hleaves t hvisits
    obtain ⟨fuel, r, hrun⟩ := hleaves
    induction hvisits generalizing fuel with
    | refl s =>
      intro hs
      induction fuel generalizing s with
      | zero => cases hrun
      | succ fuel ih =>
        obtain ⟨t, ht, hstuckt⟩ := hstuck s hs
        rw [loop_go ht] at hrun
        exact ih t hrun hstuckt
    | go hst _ ih =>
      cases fuel with
      | zero => cases hrun
      | succ fuel =>
        rw [loop_go hst] at hrun
        exact ih fuel hrun
  · intro hfree
    have hrun : ∃ r, loop step (measure s + 1) s = some r ∧ True := by
      apply loop_of_measure (fun t => ∀ u, Visits step t u → ¬stuck u) (fun _ => True) measure
      · intro t u ht htu
        exact ⟨fun v hv => ht v (.go htu hv), hgo t u (ht t (.refl t)) htu⟩
      · intro _ _ _ _
        trivial
      · exact hfree
      · exact Nat.lt_succ_self _
    obtain ⟨r, hr, _⟩ := hrun
    exact ⟨_, r, hr⟩

theorem join_of_rel {f : ρ → π} {r : Option (Option ρ)} {r' : Option (Option π)}
    (h : Option.Rel (fun a b => b = a.map f) r r') : r'.join = r.join.map f := by
  cases h with
  | none => rfl
  | some hab => exact hab

variable {high high' low' base : Nat}

theorem radix_bound (hhigh : high' < high) (hlow : low' < base) : high' * base + low' < high * base := by
  have hle : (high' + 1) * base ≤ high * base := Nat.mul_le_mul_right base hhigh
  have hsucc : (high' + 1) * base = high' * base + base := by ring
  omega

theorem radix_lt {low : Nat} (hhigh : high' < high) (hlow : low' < base) : high' * base + low' < high * base + low :=
  Nat.lt_add_right low (radix_bound hhigh hlow)

end Bx.Kit
