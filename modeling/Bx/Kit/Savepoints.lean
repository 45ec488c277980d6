import Mathlib.Data.List.Basic

/-!
# Savepoints

What nested transactions on a map are for: a view of the map, and a stack of named savepoints, each with the keys saved
in it and what they were.
-/

namespace Bx.Kit

open List

structure Savepoints (ι κ ν : Type*) where
  view : κ → ν
  stack : List (ι × List (κ × ν))

namespace Savepoints

variable {ι κ ν : Type*}

inductive Event (ι κ : Type*)
  | stay
  | enter (k : ι)
  | keep (key : κ)
  | commit
  | rollback
  /-- A rollback that could not restore every key. -/
  | fail
  | clear
  | write (key : κ)

def keys (log : List (κ × ν)) : List κ := log.map Prod.fst

def names (m : Savepoints ι κ ν) : List ι := m.stack.map Prod.fst

inductive Step (m : Savepoints ι κ ν) : Event ι κ → Savepoints ι κ ν → Prop
  | stay : Step m .stay m
  | enter {k : ι} (hk : k ∉ m.names) : Step m (.enter k) ⟨m.view, (k, []) :: m.stack⟩
  | keep {k : ι} {log : List (κ × ν)} {rest : List (ι × List (κ × ν))} {key : κ} (hm : m.stack = (k, log) :: rest)
      (hkey : key ∉ keys log) : Step m (.keep key) ⟨m.view, (k, log ++ [(key, m.view key)]) :: rest⟩
  | commit {k : ι} {log : List (κ × ν)} {rest : List (ι × List (κ × ν))} (hm : m.stack = (k, log) :: rest) :
      Step m .commit ⟨m.view, rest⟩
  | rollback {k : ι} {log : List (κ × ν)} {rest : List (ι × List (κ × ν))} {view : κ → ν}
      (hm : m.stack = (k, log) :: rest) (hback : ∀ p ∈ log, view p.1 = p.2)
      (hsame : ∀ key, key ∉ keys log → view key = m.view key) : Step m .rollback ⟨view, rest⟩
  | fail {k : ι} {log : List (κ × ν)} {rest : List (ι × List (κ × ν))} {view : κ → ν}
      (hm : m.stack = (k, log) :: rest) (hsame : ∀ key, key ∉ keys log → view key = m.view key) : Step m .fail ⟨view, rest⟩
  | clear : Step m .clear ⟨m.view, []⟩
  | write {key : κ} {view : κ → ν} (hkey : ∀ f ∈ m.stack.head?, key ∈ keys f.2)
      (hsame : ∀ other, other ≠ key → view other = m.view other) : Step m (.write key) ⟨view, m.stack⟩

/-- The savepoint `k` holds the value `v` for the key. -/
def Saved (m : Savepoints ι κ ν) (k : ι) (key : κ) (v : ν) : Prop := ∃ log, (k, log) ∈ m.stack ∧ (key, v) ∈ log

variable {m m' : Savepoints ι κ ν} {e : Event ι κ}

variable {key : κ} {k : ι} {v : ν}

theorem Step.saved (h : Step m e m') (hn : m.names.Nodup) (hs : m.Saved k key v)
    (hk : k ∈ m'.names) : m'.Saved k key v := by
  obtain ⟨log, hlog, hv⟩ := hs
  -- a savepoint that is left has no namesake further down
  have hleft : ∀ {k' : ι} {log' : List (κ × ν)} {rest : List (ι × List (κ × ν))}, m.stack = (k', log') :: rest →
      k ∈ rest.map Prod.fst → (k, log) ∈ rest := by
    intro k' log' rest hm hin
    unfold names at hn
    rw [hm] at hn hlog
    cases mem_cons.mp hlog with
    | inl e => cases e; exact absurd hin (nodup_cons.mp hn).1
    | inr hr => exact hr
  cases h with
  | stay => exact ⟨log, hlog, hv⟩
  | enter _ => exact ⟨log, mem_cons_of_mem _ hlog, hv⟩
  | keep hm _ =>
    rw [hm] at hlog
    cases mem_cons.mp hlog with
    | inl e => cases e; exact ⟨_, mem_cons_self, mem_append_left _ hv⟩
    | inr hr => exact ⟨log, mem_cons_of_mem _ hr, hv⟩
  | commit hm | rollback hm _ _ | fail hm _ => exact ⟨log, hleft hm hk, hv⟩
  | clear => cases hk
  | write _ _ => exact ⟨log, hlog, hv⟩

theorem Step.view_eq (h : Step m e m') (hkey : ∃ f ∈ m.stack.head?, key ∉ keys f.2) : m'.view key = m.view key := by
  obtain ⟨f, hf, hkey⟩ := hkey
  have hlog : ∀ {k : ι} {log : List (κ × ν)} {rest : List (ι × List (κ × ν))}, m.stack = (k, log) :: rest →
      key ∉ keys log := by
    intro k log rest hm
    rw [hm] at hf
    cases hf
    exact hkey
  cases h with
  | stay | enter _ | keep _ _ | commit _ | clear => rfl
  | rollback hm _ hsame => exact hsame key (hlog hm)
  | fail hm hsame => exact hsame key (hlog hm)
  | write hw hsame => exact hsame key fun e => hkey (e ▸ hw f hf)

theorem Step.rollback_saved (h : Step m .rollback m') (hs : m.Saved k key v) (hk : k ∉ m'.names) : m'.view key = v := by
  obtain ⟨log, hlog, hv⟩ := hs
  cases h with
  | rollback hm hback _ =>
    rw [hm] at hlog
    cases mem_cons.mp hlog with
    | inl e => cases e; exact hback _ hv
    | inr hr => exact absurd (mem_map_of_mem hr) hk

theorem Step.keep_saved (h : Step m (.keep key) m') : ∃ f ∈ m.stack.head?, m'.Saved f.1 key (m.view key) := by
  cases h with
  | @keep k log rest key hm hkey =>
    refine ⟨(k, log), by rw [hm]; rfl, _, mem_cons_self, ?_⟩
    exact mem_append_right _ (mem_singleton.mpr rfl)

theorem Step.commit_view (h : Step m .commit m') : m'.view = m.view := by
  cases h with
  | commit _ => rfl

end Savepoints

end Bx.Kit
