import Mathlib.Data.List.Basic

/-!
# Transition systems

States, labelled steps and what holds over whole runs: an invariant holds of
every reachable state, a system keeps its invariants when its steps are
guarded, and a measure bounds how often the steps it decreases on can be taken.
-/

namespace Bx.Kit

structure System (σ α : Type*) where
  init : σ → Prop
  step : σ → α → σ → Prop

variable {σ α : Type*}

inductive Reachable (S : System σ α) : σ → Prop
  | init {s : σ} : S.init s → Reachable S s
  | step {s : σ} {a : α} {t : σ} : Reachable S s → S.step s a t → Reachable S t

variable {S : System σ α} {s t u : σ}

variable {I : σ → Prop}

theorem Reachable.invariant (h : Reachable S s) (hinit : ∀ s, S.init s → I s)
    (hstep : ∀ s a t, Reachable S s → I s → S.step s a t → I t) : I s := by
  induction h with
  | init hs => exact hinit _ hs
  | step hr hs ih => exact hstep _ _ _ hr ih hs

def System.guarded (S : System σ α) (ok : σ → α → Prop) : System σ α :=
  { init := S.init, step := fun s a t => ok s a ∧ S.step s a t }

theorem Reachable.of_guarded {ok : σ → α → Prop} (h : Reachable (S.guarded ok) s) : Reachable S s := by
  induction h with
  | init hs => exact .init hs
  | step _ hs ih => exact .step ih hs.2

def System.within (S : System σ α) (inside : σ → Prop) : System σ α :=
  { init := fun s => S.init s ∧ inside s, step := fun s a t => S.step s a t ∧ inside t }

inductive Run (S : System σ α) : σ → List α → σ → Prop
  | nil (s : σ) : Run S s [] s
  | cons {s : σ} {a : α} {t : σ} {as : List α} {u : σ} : S.step s a t → Run S t as u → Run S s (a :: as) u

variable {as : List α}

theorem Run.invariant (h : Run S s as t) (hs : I s) (hstep : ∀ s a t, I s → S.step s a t → I t) : I t := by
  induction h with
  | nil => exact hs
  | cons hst _ ih => exact ih (hstep _ _ _ hs hst)

theorem Run.measure_le {P : σ → Prop} (measure : σ → Nat) (own : α → Bool) (h : Run S s as t)
    (hs : P s) (hP : ∀ s a t, P s → S.step s a t → P t)
    (hown : ∀ s a t, P s → S.step s a t → own a = true → measure t < measure s)
    (hother : ∀ s a t, P s → S.step s a t → measure t ≤ measure s) :
    measure t + as.countP own ≤ measure s := by
  induction h with
  | nil => simp
  | @cons s a t as u hst _ ih =>
    have hle := ih (hP _ _ _ hs hst)
    rw [List.countP_cons]
    by_cases ha : own a = true
    · have hlt := hown _ _ _ hs hst ha
      rw [if_pos ha]
      omega
    · have hge := hother _ _ _ hs hst
      rw [if_neg ha]
      omega

end Bx.Kit
