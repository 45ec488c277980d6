import Mathlib.Data.List.Basic
import Mathlib.Algebra.GroupWithZero.Nat

/-!
# File descriptor tables

A process's descriptors: which numbers are open, on which file and with which
close-on-exec flag. `dupMin`, `dup2`, `close` and `setCloexec` are the system
calls without their transient failures.
-/

namespace Bx.Kit

structure Desc (File : Type*) where
  file : File
  cloexec : Bool
  deriving DecidableEq

abbrev FdTable (File : Type*) := Nat → Option (Desc File)

def intMax : Nat := 2 ^ 31 - 1

namespace FdTable

variable {File : Type*} (fds : FdTable File)

def set (fd : Nat) (desc : Option (Desc File)) : FdTable File := fun n => if n = fd then desc else fds n

def close (fd : Nat) : FdTable File := fds.set fd none

def firstFree (n : Nat) : Nat → Option Nat
  | 0 => none
  | count + 1 => if (fds n).isNone then some n else firstFree (n + 1) count

/-- `fcntl(source, F_DUPFD_CLOEXEC, minimum)`: the lowest free number from `minimum` on. -/
def dupMin (source minimum : Nat) : Option (Nat × FdTable File) :=
  match fds source with
  | none => none
  | some desc =>
    match fds.firstFree minimum (intMax + 1 - minimum) with
    | none => none
    | some fd => some (fd, fds.set fd (some { desc with cloexec := true }))

def dup2 (source target : Nat) : Option (FdTable File) :=
  match fds source with
  | none => none
  | some desc => some (if source = target then fds else fds.set target (some { desc with cloexec := false }))

def setCloexec (fd : Nat) (cloexec : Bool) : FdTable File :=
  fds.set fd ((fds fd).map fun desc => { desc with cloexec })

variable {fds}

@[simp] theorem set_self (fd : Nat) (desc : Option (Desc File)) : fds.set fd desc fd = desc := if_pos rfl

variable {fd n : Nat} {fds' : FdTable File}

theorem set_of_ne (h : n ≠ fd) (desc : Option (Desc File)) : fds.set fd desc n = fds n := if_neg h

@[simp] theorem close_self (fd : Nat) : fds.close fd fd = none := if_pos rfl

theorem close_of_ne (h : n ≠ fd) : fds.close fd n = fds n := if_neg h

theorem close_set (h : fds fd = none) (desc : Option (Desc File)) : (fds.set fd desc).close fd = fds := by
  funext n
  by_cases e : n = fd
  · subst e
    rw [close_self, h]
  · rw [close_of_ne e, set_of_ne e]

theorem foldl_close (ns : List Nat) (fd : Nat) : ns.foldl close fds fd = if fd ∈ ns then none else fds fd := by
  induction ns generalizing fds with
  | nil => simp
  | cons n ns ih =>
    rw [List.foldl_cons, ih]
    by_cases h : fd ∈ ns
    · rw [if_pos h, if_pos (List.mem_cons_of_mem _ h)]
    rw [if_neg h]
    by_cases e : fd = n
    · rw [if_pos (e ▸ List.mem_cons_self), e, close_self]
    · rw [if_neg fun hm => (List.mem_cons.mp hm).elim e h, close_of_ne e]

theorem firstFree_some {count : Nat} (h : fds.firstFree n count = some fd) :
    fds fd = none ∧ n ≤ fd ∧ fd < n + count := by
  induction count generalizing n with
  | zero => cases h
  | succ count ih =>
    unfold firstFree at h
    by_cases hn : (fds n).isNone = true
    · rw [if_pos hn] at h
      cases h
      exact ⟨Option.isNone_iff_eq_none.mp hn, Nat.le_refl _, by omega⟩
    · rw [if_neg hn] at h
      obtain ⟨h1, h2, h3⟩ := ih h
      exact ⟨h1, by omega, by omega⟩

theorem dupMin_some {source minimum : Nat} (h : fds.dupMin source minimum = some (fd, fds')) :
    fds fd = none ∧ minimum ≤ fd ∧ fd ≤ intMax ∧
      ∃ desc, fds source = some desc ∧ fds' = fds.set fd (some { desc with cloexec := true }) := by
  unfold dupMin at h
  cases hs : fds source with
  | none => rw [hs] at h; cases h
  | some desc =>
    rw [hs] at h
    simp only at h
    cases hf : fds.firstFree minimum (intMax + 1 - minimum) with
    | none => rw [hf] at h; cases h
    | some fd' =>
      rw [hf] at h
      cases h
      obtain ⟨h1, h2, h3⟩ := firstFree_some hf
      exact ⟨h1, h2, by omega, desc, rfl, rfl⟩

theorem dup2_setCloexec {source target : Nat} {desc : Desc File} (hs : fds source = some desc)
    (h : fds.dup2 source target = some fds') (cloexec : Bool) :
    fds'.setCloexec target cloexec = fds.set target (some { desc with cloexec }) := by
  unfold dup2 at h
  rw [hs] at h
  cases h
  funext n
  unfold setCloexec
  by_cases e : n = target
  · subst e
    rw [set_self, set_self]
    by_cases hst : source = n
    · subst hst
      rw [if_pos rfl, hs]
      rfl
    · rw [if_neg hst, set_self]
      rfl
  · rw [set_of_ne e, set_of_ne e]
    by_cases hst : source = target
    · rw [if_pos hst]
    · rw [if_neg hst, set_of_ne e]

end FdTable

end Bx.Kit
