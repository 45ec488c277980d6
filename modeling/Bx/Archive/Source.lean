import Bx.Kit.Bytes
import Bx.Kit.Loop

/-!
# A stream that is read

What is left of a stream, and how many bytes each read of it is ready to give.
A read gets at least one byte until the end, and no more than it asks for.
-/

namespace Bx.Archive

open Bx.Kit

structure Source where
  rest : Bytes
  gives : Nat → Nat
  reads : Nat := 0

namespace Source
variable (source : Source) {request : Nat}

def read (request : Nat) : Bytes × Source :=
  let count := min request (max 1 (source.gives source.reads))
  (source.rest.take count, { source with rest := source.rest.drop count, reads := source.reads + 1 })

theorem read_append (request : Nat) : (source.read request).1 ++ (source.read request).2.rest = source.rest :=
  List.take_append_drop _ _

theorem length_read_le (request : Nat) : (source.read request).1.length ≤ request := by
  unfold read
  dsimp only
  rw [List.length_take]
  omega

theorem read_eq_nil (hrequest : 0 < request) : (source.read request).1 = [] ↔ source.rest = [] := by
  unfold read
  dsimp only
  rw [List.take_eq_nil_iff]
  refine ⟨?_, Or.inr⟩
  intro h
  cases h with
  | inl hzero => omega
  | inr hnil => exact hnil

end Source

end Bx.Archive
