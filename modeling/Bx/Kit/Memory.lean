import Mathlib.Data.List.Nodup
import Mathlib.Data.List.Perm.Basic

/-!
# Allocated cells and who owns them

A memory hands out cells, each with a contents until it is freed, at addresses that do not come again. `Owns` says that
addresses are distinct and are the ones that are allocated. `Local` is the frame rule.
-/

namespace Bx.Kit

open List

structure Memory (β : Type*) where
  cells : List (Option β) := []

namespace Memory

variable {β : Type*}

def read (mem : Memory β) (a : Nat) : Option β := mem.cells[a]?.join

def alloc (mem : Memory β) (b : β) : Memory β × Nat := ({ cells := mem.cells ++ [some b] }, mem.cells.length)

def free (mem : Memory β) (a : Nat) : Memory β := { cells := mem.cells.set a none }

def write (mem : Memory β) (a : Nat) (b : β) : Memory β := { cells := mem.cells.set a (some b) }

def freeAll (mem : Memory β) (addresses : List Nat) : Memory β := addresses.foldl free mem

variable (mem : Memory β) (a : Nat) (b : β)

@[simp] theorem read_alloc_self : (mem.alloc b).1.read (mem.alloc b).2 = some b := by
  unfold read alloc
  rw [getElem?_concat_length]
  rfl

theorem read_alloc_of_ne {a : Nat} (h : a ≠ (mem.alloc b).2) : (mem.alloc b).1.read a = mem.read a := by
  have hne : a ≠ mem.cells.length := h
  unfold read alloc
  by_cases hlt : a < mem.cells.length
  · rw [getElem?_append_left hlt]
  · rw [getElem?_eq_none (by rw [length_append, length_singleton]; omega), getElem?_eq_none (by omega)]

theorem read_length : mem.read (mem.alloc b).2 = none := by
  unfold read alloc
  rw [getElem?_eq_none (Nat.le_refl _)]
  rfl

@[simp] theorem read_free_self : (mem.free a).read a = none := by
  unfold read free
  rw [getElem?_set_self']
  cases mem.cells[a]? <;> rfl

theorem read_free_of_ne {a a' : Nat} (h : a' ≠ a) : (mem.free a).read a' = mem.read a' := by
  unfold read free
  rw [getElem?_set_ne (Ne.symm h)]

theorem read_write_self {a : Nat} (h : (mem.read a).isSome = true) : (mem.write a b).read a = some b := by
  unfold read write
  unfold read at h
  rw [getElem?_set_self']
  cases hcell : mem.cells[a]? with
  | none => simp [hcell] at h
  | some cell => rfl

theorem read_write_of_ne {a a' : Nat} (h : a' ≠ a) : (mem.write a b).read a' = mem.read a' := by
  unfold read write
  rw [getElem?_set_ne (Ne.symm h)]

end Memory

variable {β : Type*} {mem mem' mem'' : Memory β} {owned owned' owned'' rest : List Nat} {a : Nat}

/-! ## Owning and agreeing -/

structure Owns (mem : Memory β) (owned : List Nat) : Prop where
  nodup : owned.Nodup
  live : ∀ a, (mem.read a).isSome = true ↔ a ∈ owned

def Agree (mem mem' : Memory β) (owned : List Nat) : Prop := ∀ a ∈ owned, mem'.read a = mem.read a

theorem Agree.refl (mem : Memory β) (owned : List Nat) : Agree mem mem owned := fun _ _ => rfl

theorem Agree.trans (h : Agree mem mem' owned) (h' : Agree mem' mem'' owned) : Agree mem mem'' owned :=
  fun a ha => (h' a ha).trans (h a ha)

theorem Agree.mono (h : Agree mem mem' owned) (hsub : ∀ a ∈ owned', a ∈ owned) : Agree mem mem' owned' :=
  fun a ha => h a (hsub a ha)

theorem Owns.perm (h : Owns mem owned) (hperm : owned.Perm owned') : Owns mem owned' :=
  ⟨hperm.nodup_iff.mp h.nodup, fun a => (h.live a).trans hperm.mem_iff⟩

theorem Owns.alloc (h : Owns mem owned) (b : β) : Owns (mem.alloc b).1 ((mem.alloc b).2 :: owned) := by
  have hfresh : (mem.alloc b).2 ∉ owned := by
    intro hmem
    have hlive := (h.live _).mpr hmem
    simp [mem.read_length b] at hlive
  refine ⟨nodup_cons.mpr ⟨hfresh, h.nodup⟩, ?_⟩
  intro a
  rw [mem_cons]
  by_cases ha : a = (mem.alloc b).2
  · rw [ha, Memory.read_alloc_self]
    exact ⟨fun _ => .inl rfl, fun _ => rfl⟩
  · rw [Memory.read_alloc_of_ne mem b ha, h.live]
    exact ⟨.inr, fun hor => hor.resolve_left ha⟩

theorem Owns.free (h : Owns mem (a :: owned)) : Owns (mem.free a) owned := by
  obtain ⟨hnot, hnodup⟩ := nodup_cons.mp h.nodup
  refine ⟨hnodup, ?_⟩
  intro a'
  by_cases ha : a' = a
  · rw [ha, Memory.read_free_self]
    exact ⟨fun hsome => absurd hsome Bool.false_ne_true, fun hmem => absurd hmem hnot⟩
  · rw [Memory.read_free_of_ne mem ha, h.live, mem_cons]
    exact ⟨fun hor => hor.resolve_left ha, .inr⟩

theorem Owns.write (h : Owns mem owned) (ha : a ∈ owned) (b : β) : Owns (mem.write a b) owned := by
  refine ⟨h.nodup, ?_⟩
  intro a'
  by_cases heq : a' = a
  · rw [heq, Memory.read_write_self mem b ((h.live a).mpr ha)]
    exact ⟨fun _ => ha, fun _ => rfl⟩
  · rw [Memory.read_write_of_ne mem b heq, h.live]

/-! ## The frame rule -/

/-- The cells become others, and whatever else is allocated stays so and keeps its contents. -/
def Local (mem mem' : Memory β) (owned owned' : List Nat) : Prop :=
  ∀ rest, Owns mem (owned ++ rest) → Owns mem' (owned' ++ rest) ∧ Agree mem mem' rest

theorem Local.refl (mem : Memory β) (owned : List Nat) : Local mem mem owned owned :=
  fun rest h => ⟨h, Agree.refl mem rest⟩

section
variable (h : Local mem mem' owned owned')
include h

theorem Local.trans (h' : Local mem' mem'' owned' owned'') : Local mem mem'' owned owned'' := by
  intro rest howns
  obtain ⟨howns', hagree⟩ := h rest howns
  obtain ⟨howns'', hagree'⟩ := h' rest howns'
  exact ⟨howns'', hagree.trans hagree'⟩

theorem Local.perm {held held' : List Nat} (hpre : held.Perm owned)
    (hpost : owned'.Perm held') : Local mem mem' held held' := by
  intro rest howns
  obtain ⟨howns', hagree⟩ := h rest (howns.perm (hpre.append_right rest))
  exact ⟨howns'.perm (hpost.append_right rest), hagree⟩

theorem Local.frame (kept : List Nat) : Local mem mem' (owned ++ kept) (owned' ++ kept) := by
  intro rest howns
  rw [append_assoc] at howns ⊢
  obtain ⟨howns', hagree⟩ := h (kept ++ rest) howns
  exact ⟨howns', hagree.mono fun a ha => mem_append_right _ ha⟩

end

theorem Local.alloc (mem : Memory β) (b : β) : Local mem (mem.alloc b).1 [] [(mem.alloc b).2] := by
  intro rest howns
  refine ⟨howns.alloc b, ?_⟩
  intro a ha
  apply Memory.read_alloc_of_ne
  intro heq
  have hlive := (howns.live a).mpr ha
  simp [heq, mem.read_length b] at hlive

theorem Local.free (mem : Memory β) (a : Nat) : Local mem (mem.free a) [a] [] := by
  intro rest howns
  refine ⟨howns.free, ?_⟩
  intro a' ha'
  apply Memory.read_free_of_ne
  intro heq
  exact (nodup_cons.mp howns.nodup).1 (heq ▸ ha')

theorem Local.write (mem : Memory β) (a : Nat) (b : β) : Local mem (mem.write a b) [a] [a] := by
  intro rest howns
  refine ⟨howns.write mem_cons_self b, ?_⟩
  intro a' ha'
  apply Memory.read_write_of_ne
  intro heq
  exact (nodup_cons.mp howns.nodup).1 (heq ▸ ha')

theorem Local.freeAll (mem : Memory β) (addresses : List Nat) : Local mem (mem.freeAll addresses) addresses [] := by
  induction addresses generalizing mem with
  | nil => exact Local.refl mem []
  | cons a addresses ih => exact ((Local.free mem a).frame addresses).trans (ih (mem.free a))

theorem Local.agree (h : Local mem mem' owned owned') (kept : List Nat) (howns : Owns mem (owned ++ kept ++ rest)) :
    Agree mem mem' kept := by
  rw [append_assoc] at howns
  exact (h _ howns).2.mono fun a ha => mem_append_left _ ha

theorem Local.discard (mem : Memory β) (b : β) : Local mem ((mem.alloc b).1.free (mem.alloc b).2) [] [] :=
  (Local.alloc mem b).trans (Local.free _ _)

theorem Local.replace (mem : Memory β) (a : Nat) (b : β) : Local mem ((mem.alloc b).1.free a) [a] [(mem.alloc b).2] :=
  (((Local.alloc mem b).frame [a]).perm (List.Perm.refl _) (List.Perm.swap a (mem.alloc b).2 [])).trans
    ((Local.free _ a).frame [(mem.alloc b).2])

theorem read_replace (h : Owns mem (a :: owned)) (b : β) : ((mem.alloc b).1.free a).read (mem.alloc b).2 = some b := by
  rw [Memory.read_free_of_ne, Memory.read_alloc_self]
  intro heq
  have hlive := (h.live a).mpr mem_cons_self
  simp [← heq, mem.read_length b] at hlive

end Bx.Kit
