import Mathlib.Data.List.Basic
import Mathlib.Algebra.GroupWithZero.Nat

/-!
# Condition variables

A list of threads, of which some sleep on a condition variable. A signal wakes
one sleeper, if there is one, and a broadcast wakes all.
-/

namespace Bx.Kit

open List

/-- The threads asleep on the variable, and a thread after its wake-up; waking
changes no other thread. -/
structure CondVar (Thread : Type*) where
  isAsleep : Thread → Bool
  wake : Thread → Thread

variable {Thread β : Type*}

inductive CondVar.Signalled (c : CondVar Thread) (threads : List Thread) : List Thread → Prop
  | one {i : Nat} {thread : Thread} : threads[i]? = some thread → c.isAsleep thread = true →
      Signalled c threads (threads.set i (c.wake thread))
  | nobody : (∀ thread ∈ threads, c.isAsleep thread = false) → Signalled c threads threads

def CondVar.broadcast (c : CondVar Thread) (threads : List Thread) : List Thread := threads.map c.wake

/-! ## One thread changes -/

section
variable {threads : List Thread} {i : Nat} {t u : Thread}

theorem mem_set_of_getElem? (h : threads[i]? = some t) : u ∈ threads.set i u :=
  mem_set (List.getElem?_eq_some_iff.mp h).1 u

variable {P : Thread → Prop}

theorem exists_mem_set (hi : threads[i]? = some t) (h : ∃ v ∈ threads, P v) (hP : P t → P u) :
    ∃ v ∈ threads.set i u, P v := by
  obtain ⟨v, hv, hPv⟩ := h
  obtain ⟨j, hj⟩ := mem_iff_getElem?.mp hv
  by_cases e : i = j
  · subst e
    rw [hi] at hj
    cases hj
    exact ⟨u, mem_set_of_getElem? hi, hP hPv⟩
  · exact ⟨v, mem_of_getElem? ((getElem?_set_ne e).trans hj), hPv⟩

theorem exists_of_mem_set (h : ∃ v ∈ threads.set i u, P v) (hP : ¬ P u) : ∃ v ∈ threads, P v := by
  obtain ⟨v, hv, hPv⟩ := h
  cases mem_or_eq_of_mem_set hv with
  | inl hv => exact ⟨v, hv, hPv⟩
  | inr e => exact absurd (e ▸ hPv) hP

theorem forall_mem_set (h : ∀ v ∈ threads, P v) (hP : P u) : ∀ v ∈ threads.set i u, P v := by
  intro v hv
  cases mem_or_eq_of_mem_set hv with
  | inl hv => exact h v hv
  | inr e => exact e ▸ hP

theorem set_split (hi : threads[i]? = some t) :
    threads = threads.take i ++ t :: threads.drop (i + 1) ∧ threads.set i u = threads.take i ++ u :: threads.drop (i + 1) := by
  obtain ⟨hlt, rfl⟩ := List.getElem?_eq_some_iff.mp hi
  refine ⟨?_, ?_⟩
  · rw [getElem_cons_drop, take_append_drop]
  · rw [set_eq_take_append_cons_drop, if_pos hlt]

theorem filterMap_set_perm (f : Thread → Option β) (hi : threads[i]? = some t) :
    ((f t).toList ++ (threads.set i u).filterMap f).Perm ((f u).toList ++ threads.filterMap f) := by
  have hone : ∀ (v : Thread) l l', (l ++ v :: l').filterMap f = l.filterMap f ++ ((f v).toList ++ l'.filterMap f) := by
    intro v l l'
    rw [filterMap_append, filterMap_cons]
    cases f v <;> rfl
  obtain ⟨h, hset⟩ := set_split (u := u) hi
  generalize threads.take i = l at h hset
  generalize threads.drop (i + 1) = l' at h hset
  rw [hset, h, hone, hone]
  refine ((perm_append_comm_assoc _ _ _).trans ?_).symm
  refine (List.Perm.append_left _ (perm_append_comm_assoc _ _ _)).trans ?_
  exact perm_append_comm_assoc _ _ _

theorem filterMap_set_eq {f : Thread → Option β} (hi : threads[i]? = some t) (hf : f u = f t) :
    (threads.set i u).filterMap f = threads.filterMap f := by
  obtain ⟨h, hset⟩ := set_split (u := u) hi
  rw [hset]
  conv => rhs; rw [h]
  rw [filterMap_append, filterMap_append, filterMap_cons, filterMap_cons, hf]

theorem countP_set_add (p : Thread → Bool) (hi : threads[i]? = some t) :
    (threads.set i u).countP p + (if p t then 1 else 0) = threads.countP p + if p u then 1 else 0 := by
  obtain ⟨h, hset⟩ := set_split (u := u) hi
  rw [hset]
  conv => rhs; rw [h]
  rw [countP_append, countP_append, countP_cons, countP_cons]
  omega

theorem sum_map_set_add (f : Thread → Nat) (hi : threads[i]? = some t) :
    ((threads.set i u).map f).sum + f t = (threads.map f).sum + f u := by
  obtain ⟨h, hset⟩ := set_split (u := u) hi
  rw [hset]
  conv => rhs; rw [h]
  rw [map_append, map_append, map_cons, map_cons, sum_append, sum_append, sum_cons, sum_cons]
  omega

end

/-! ## Signals -/

namespace CondVar

variable {c : CondVar Thread} {threads threads' : List Thread}

theorem exists_signalled (c : CondVar Thread) (threads : List Thread) : ∃ threads', c.Signalled threads threads' := by
  by_cases h : ∀ t ∈ threads, c.isAsleep t = false
  · exact ⟨threads, .nobody h⟩
  · push Not at h
    obtain ⟨t, ht, hs⟩ := h
    obtain ⟨i, hi⟩ := mem_iff_getElem?.mp ht
    exact ⟨_, .one hi (by simpa using hs)⟩

variable {P : Thread → Prop} {f : Thread → Option β}

section
variable (h : c.Signalled threads threads')
include h

theorem Signalled.forall_mem (hP : ∀ t, P t → P (c.wake t)) (hall : ∀ t ∈ threads, P t) : ∀ t ∈ threads', P t := by
  cases h with
  | one hi _ => exact forall_mem_set hall (hP _ (hall _ (mem_of_getElem? hi)))
  | nobody _ => exact hall

theorem Signalled.exists_mem (hP : ∀ t, P t → P (c.wake t)) (hex : ∃ t ∈ threads, P t) : ∃ t ∈ threads', P t := by
  cases h with
  | one hi _ => exact exists_mem_set hi hex (hP _)
  | nobody _ => exact hex

theorem Signalled.filterMap_eq (hf : ∀ t, f (c.wake t) = f t) : threads'.filterMap f = threads.filterMap f := by
  cases h with
  | one hi _ => exact filterMap_set_eq hi (hf _)
  | nobody _ => rfl

theorem Signalled.awake (hP : ∀ t, c.isAsleep t = true → P (c.wake t)) (hex : ∃ t ∈ threads, c.isAsleep t = true) : ∃ t ∈ threads', P t := by
  cases h with
  | one hi hs => exact ⟨_, mem_set_of_getElem? hi, hP _ hs⟩
  | nobody hn =>
    obtain ⟨t, ht, hs⟩ := hex
    simp [hn t ht] at hs

end

theorem broadcast_exists_mem (hP : ∀ t, P t → P (c.wake t)) (hex : ∃ t ∈ threads, P t) :
    ∃ t ∈ c.broadcast threads, P t := by
  obtain ⟨t, ht, hPt⟩ := hex
  exact ⟨c.wake t, mem_map_of_mem ht, hP t hPt⟩

theorem broadcast_filterMap_eq (hf : ∀ t, f (c.wake t) = f t) :
    (c.broadcast threads).filterMap f = threads.filterMap f := by
  unfold broadcast
  rw [filterMap_map]
  exact congrArg (filterMap · threads) (funext hf)

end CondVar

end Bx.Kit
