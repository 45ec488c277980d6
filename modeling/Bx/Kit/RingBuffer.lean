import Mathlib.Data.List.Rotate
import Mathlib.Data.Nat.ModEq

/-!
# Ring buffers

A circular buffer of slots, with the slots that are not in use empty. Read from
its head it is a queue: `push` appends to the end of `toList` and `pop` takes
its first element, wherever the head stands.
-/

namespace Bx.Kit

open List

structure RingBuffer (α : Type*) where
  items : List (Option α)
  head : Nat
  tail : Nat
  count : Nat

namespace RingBuffer

variable {α : Type*}

def empty (capacity : Nat) : RingBuffer α := ⟨replicate capacity none, 0, 0, 0⟩

def push (r : RingBuffer α) (x : α) : RingBuffer α :=
  { r with
    items := r.items.set r.tail (some x)
    tail := (r.tail + 1) % r.items.length
    count := r.count + 1 }

def pop (r : RingBuffer α) : Option α × RingBuffer α :=
  (r.items[r.head]?.join,
    { r with
      items := r.items.set r.head none
      head := (r.head + 1) % r.items.length
      count := r.count - 1 })

def toList (r : RingBuffer α) : List α := (r.items.rotate r.head).filterMap id

structure Holds (r : RingBuffer α) (q : List α) : Prop where
  head_lt : r.head < r.items.length
  count_eq : r.count = q.length
  tail_eq : r.tail = (r.head + r.count) % r.items.length
  slots : r.items.rotate r.head = q.map some ++ replicate (r.items.length - q.length) none

variable {r : RingBuffer α} {q : List α}

theorem Holds.length_le (h : Holds r q) : q.length ≤ r.items.length := by
  have := congrArg List.length h.slots
  rw [length_rotate, length_append, length_map, length_replicate] at this
  omega

theorem Holds.toList_eq (h : Holds r q) : r.toList = q := by
  unfold toList
  rw [h.slots, filterMap_append, filterMap_map, filterMap_replicate_of_none rfl, append_nil]
  exact filterMap_some

theorem empty_holds {capacity : Nat} (h : 0 < capacity) : Holds (empty capacity : RingBuffer α) [] := by
  refine ⟨?_, rfl, ?_, ?_⟩
  · show 0 < (replicate capacity none).length
    rw [length_replicate]
    exact h
  · exact (Nat.zero_mod _).symm
  · simp [empty]

theorem set_rotate (l : List α) {n k : Nat} (hk : k < l.length) (x : α) :
    (l.set ((n + k) % l.length) x).rotate n = (l.rotate n).set k x := by
  apply ext_getElem
  · simp
  intro i hi hi'
  rw [length_rotate, length_set] at hi
  simp only [getElem_rotate, getElem_set, length_set]
  have hiff : (n + k) % l.length = (i + n) % l.length ↔ k = i := by
    rw [add_comm i n]
    refine ⟨fun h => ?_, fun h => by rw [h]⟩
    have hki : k ≡ i [MOD l.length] := Nat.ModEq.add_left_cancel (Nat.ModEq.refl n) h
    exact hki.eq_of_lt_of_lt hk hi
  by_cases e : k = i
  · rw [if_pos (hiff.mpr e), if_pos e]
  · rw [if_neg fun h => e (hiff.mp h), if_neg e]

theorem Holds.push (h : Holds r q) (hroom : r.count < r.items.length) (x : α) : Holds (r.push x) (q ++ [x]) := by
  have hq : q.length < r.items.length := h.count_eq ▸ hroom
  refine ⟨?_, ?_, ?_, ?_⟩
  · show r.head < (r.items.set r.tail (some x)).length
    rw [length_set]
    exact h.head_lt
  · show r.count + 1 = _
    rw [h.count_eq, length_append, length_singleton]
  · show (r.tail + 1) % r.items.length = (r.head + (r.count + 1)) % (r.items.set r.tail (some x)).length
    rw [length_set, h.tail_eq, Nat.mod_add_mod, add_assoc]
  · show (r.items.set r.tail (some x)).rotate r.head = _ ++ replicate ((r.items.set r.tail _).length - _) none
    rw [h.tail_eq, set_rotate _ hroom, h.slots, h.count_eq, length_set, length_append, length_singleton]
    obtain ⟨m, hm⟩ := Nat.exists_eq_add_of_lt hq
    have h1 : r.items.length - q.length = m + 1 := by omega
    have h2 : r.items.length - (q.length + 1) = m := by omega
    rw [h1, h2, replicate_succ, set_append_right _ _ (by simp), length_map, Nat.sub_self, set_cons_zero]
    simp

theorem Holds.pop {x : α} (h : Holds r (x :: q)) : r.pop.1 = some x ∧ Holds r.pop.2 q := by
  have hpos : 0 < r.items.length := lt_of_le_of_lt (Nat.zero_le _) h.head_lt
  have hle := h.length_le
  rw [length_cons] at hle
  have hslots := h.slots
  rw [map_cons, cons_append, length_cons] at hslots
  refine ⟨?_, ?_, ?_, ?_, ?_⟩
  · have hfirst : (r.items.rotate r.head)[0]? = some (some x) := by rw [hslots]; rfl
    rw [getElem?_rotate hpos, zero_add, Nat.mod_eq_of_lt h.head_lt] at hfirst
    show r.items[r.head]?.join = some x
    rw [hfirst]
    rfl
  · show (r.head + 1) % r.items.length < (r.items.set r.head none).length
    rw [length_set]
    exact Nat.mod_lt _ hpos
  · show r.count - 1 = q.length
    rw [h.count_eq, length_cons, Nat.add_sub_cancel]
  · show r.tail = ((r.head + 1) % r.items.length + (r.count - 1)) % (r.items.set r.head none).length
    have hcount : 1 + (r.count - 1) = r.count := by
      rw [h.count_eq, length_cons]
      omega
    rw [length_set, Nat.mod_add_mod, add_assoc, hcount]
    exact h.tail_eq
  · show (r.items.set r.head none).rotate ((r.head + 1) % r.items.length) =
      _ ++ replicate ((r.items.set r.head none).length - _) none
    have hset : (r.items.set r.head none).rotate r.head = none :: q.map some ++ replicate (r.items.length - (q.length + 1)) none := by
      have := set_rotate r.items (n := r.head) hpos (none : Option α)
      rw [add_zero, Nat.mod_eq_of_lt h.head_lt, hslots] at this
      exact this
    have hlen : (r.items.set r.head none).length = r.items.length := length_set
    rw [← hlen, rotate_mod, ← rotate_rotate, hset, hlen]
    have hlast : r.items.length - q.length = r.items.length - (q.length + 1) + 1 := by omega
    rw [hlast, replicate_succ']
    simp

theorem toList_of_head (h : r.head = 0) : r.toList = r.items.filterMap id := by
  rw [toList, h, rotate_zero]

theorem toList_perm (r : RingBuffer α) : r.toList.Perm (r.items.filterMap id) := (rotate_perm _ _).filterMap id

end RingBuffer

end Bx.Kit
