import Bx.Kit.Loop
import Mathlib.Order.Bounds.Basic

/-!
# Searching memory

`memchr` and `memcmp` on a list of bytes, and the loop that looks for one byte, checks what is around it and goes on
behind it. A search answers with the first (or last) element of a set of offsets, if any.
-/

namespace Bx.Kit

/-! ## The first of a set -/

def FirstOf (S : Set Nat) : Option Nat → Prop
  | some n => IsLeast S n
  | none => S = ∅

variable {r : Option Nat} {S T : Set Nat}

theorem FirstOf.congr (h : FirstOf S r) (heq : ∀ n, n ∈ T ↔ n ∈ S) : FirstOf T r := by
  rw [Set.ext heq]
  exact h

theorem FirstOf.iff_of_subset (h : FirstOf S r) (hsub : T ⊆ S) : FirstOf T r ↔ ∀ p ∈ S, ∃ q ∈ T, q ≤ p := by
  cases r with
  | none =>
    have hS : S = ∅ := h
    refine ⟨?_, ?_⟩
    · intro _ p hp
      rw [hS] at hp
      exact hp.elim
    · intro _
      exact Set.subset_empty_iff.mp (hS ▸ hsub)
  | some n =>
    obtain ⟨hn, hleast⟩ : IsLeast S n := h
    refine ⟨?_, ?_⟩
    · intro hT p hp
      exact ⟨n, hT.1, hleast hp⟩
    · intro hbefore
      obtain ⟨q, hq, hle⟩ := hbefore n hn
      have hge : n ≤ q := hleast (hsub hq)
      obtain rfl : n = q := le_antisymm hge hle
      exact ⟨hq, fun p hp => hleast (hsub hp)⟩

theorem FirstOf.shift {P : Nat → Prop} {start k : Nat} (h : FirstOf {i | start + k ≤ i ∧ P i} r) :
    FirstOf {p | start ≤ p ∧ P (p + k)} (r.map (· - k)) := by
  cases r with
  | none =>
    have hempty : {i | start + k ≤ i ∧ P i} = ∅ := h
    apply Set.eq_empty_of_forall_notMem
    intro p ⟨hle, hp⟩
    have hmem : p + k ∈ {i | start + k ≤ i ∧ P i} := ⟨by omega, hp⟩
    rw [hempty] at hmem
    exact hmem
  | some n =>
    obtain ⟨⟨hle, hn⟩, hleast⟩ : IsLeast {i | start + k ≤ i ∧ P i} n := h
    refine ⟨⟨Nat.le_sub_of_add_le hle, ?_⟩, ?_⟩
    · show P (n - k + k)
      rw [Nat.sub_add_cancel (by omega)]
      exact hn
    · intro p ⟨hp, hP⟩
      have : n ≤ p + k := hleast ⟨by omega, hP⟩
      show n - k ≤ p
      omega

/-! ## The last of a set -/

def LastOf (S : Set Nat) : Option Nat → Prop
  | some n => IsGreatest S n
  | none => S = ∅

theorem LastOf.eq_some_iff (h : LastOf S r) {n : Nat} (hn : n ∈ S) : r = some n ↔ ∀ m, n < m → m ∉ S := by
  cases r with
  | none =>
    have hempty : S = ∅ := h
    rw [hempty] at hn
    exact hn.elim
  | some k =>
    obtain ⟨hk, hgreatest⟩ : IsGreatest S k := h
    refine ⟨?_, ?_⟩
    · intro heq m hlt hm
      obtain rfl : k = n := Option.some.inj heq
      have hle : m ≤ k := hgreatest hm
      omega
    · intro hlast
      have hle : n ≤ k := hgreatest hn
      by_contra hne
      have hlt : n < k := lt_of_le_of_ne hle (fun heq => hne (by rw [heq]))
      exact hlast k hlt hk

/-- A search backwards through the places before `n`. -/
def scanBack (accept : Nat → Bool) : Nat → Option Nat
  | 0 => none
  | n + 1 => if accept n then some n else scanBack accept n

theorem scanBack_spec (accept : Nat → Bool) (n : Nat) : LastOf {i | i < n ∧ accept i = true} (scanBack accept n) := by
  induction n with
  | zero =>
    apply Set.eq_empty_of_forall_notMem
    intro i hi
    exact absurd hi.1 (Nat.not_lt_zero i)
  | succ n ih =>
    unfold scanBack
    by_cases haccept : accept n = true
    · rw [if_pos haccept]
      exact ⟨⟨Nat.lt_succ_self n, haccept⟩, fun i hi => Nat.le_of_lt_succ hi.1⟩
    · rw [if_neg haccept]
      have hset : {i | i < n + 1 ∧ accept i = true} = {i | i < n ∧ accept i = true} := by
        apply Set.ext
        intro i
        refine ⟨?_, ?_⟩
        · intro ⟨hlt, hi⟩
          have hne : i ≠ n := fun heq => haccept (heq ▸ hi)
          exact ⟨by omega, hi⟩
        · intro ⟨hlt, hi⟩
          exact ⟨Nat.lt_succ_of_lt hlt, hi⟩
      rw [hset]
      exact ih

/-! ## Bytes -/

variable {α : Type*} [DecidableEq α]

/-- The first place of a byte among `count` bytes from `i` on. -/
def memchr (buf : List α) (byte : α) : (i count : Nat) → Option Nat
  | _, 0 => none
  | i, count + 1 => if buf[i]? = some byte then some i else memchr buf byte (i + 1) count

/-- `memcmp` returning 0 -/
def memEqual (a : List α) (i : Nat) (b : List α) (j count : Nat) : Bool :=
  (List.range count).all fun k => a[i + k]? = b[j + k]?

theorem memEqual_iff {a b : List α} {i j count : Nat} :
    memEqual a i b j count = true ↔ ∀ k, k < count → a[i + k]? = b[j + k]? := by
  simp [memEqual]

theorem memchr_spec (buf : List α) (byte : α) (i count : Nat) :
    FirstOf {k | i ≤ k ∧ k < i + count ∧ buf[k]? = some byte} (memchr buf byte i count) := by
  induction count generalizing i with
  | zero =>
    apply Set.eq_empty_of_forall_notMem
    intro k ⟨hle, hlt, _⟩
    omega
  | succ count ih =>
    unfold memchr
    by_cases hbyte : buf[i]? = some byte
    · rw [if_pos hbyte]
      exact ⟨⟨le_rfl, by omega, hbyte⟩, fun k hk => hk.1⟩
    · rw [if_neg hbyte]
      refine (ih (i + 1)).congr ?_
      intro k
      refine ⟨?_, ?_⟩
      · intro ⟨hle, hlt, hk⟩
        have hne : k ≠ i := fun heq => hbyte (heq ▸ hk)
        exact ⟨by omega, by omega, hk⟩
      · intro ⟨hle, hlt, hk⟩
        exact ⟨by omega, by omega, hk⟩

/-! ## Scanning for a byte -/

section
variable (buf : List α) (byte : α) (stop : Nat) (accept : Nat → Bool)

def scanStep (cursor : Nat) : Nat ⊕ Option Nat :=
  if cursor < stop then
    match memchr buf byte cursor (stop - cursor) with
    | none => .inr none
    | some found => if accept found then .inr (some found) else .inl (found + 1)
  else .inr none

/-- The first place before `stop` of a byte that is accepted there. Only fuel that runs out leaves no answer. -/
def scan (cursor : Nat) : Option (Option Nat) := loop (scanStep buf byte stop accept) (stop + 1) cursor

def ScanHit (i : Nat) : Prop := i < stop ∧ buf[i]? = some byte ∧ accept i = true

variable {buf byte stop accept}

theorem scanStep_spec (cursor : Nat) :
    match scanStep buf byte stop accept cursor with
    | .inl next => cursor < next ∧ next ≤ stop ∧ ∀ i, cursor ≤ i → i < next → ¬ScanHit buf byte stop accept i
    | .inr r => FirstOf {i | cursor ≤ i ∧ ScanHit buf byte stop accept i} r := by
  unfold scanStep
  by_cases hcursor : cursor < stop
  · rw [if_pos hcursor]
    have hfirst := memchr_spec buf byte cursor (stop - cursor)
    rw [Nat.add_sub_cancel' (le_of_lt hcursor)] at hfirst
    cases hfound : memchr buf byte cursor (stop - cursor) with
    | none =>
      rw [hfound] at hfirst
      have hempty : {k | cursor ≤ k ∧ k < stop ∧ buf[k]? = some byte} = ∅ := hfirst
      apply Set.eq_empty_of_forall_notMem
      intro i ⟨hle, hlt, hbyte, _⟩
      have hmem : i ∈ {k | cursor ≤ k ∧ k < stop ∧ buf[k]? = some byte} := ⟨hle, hlt, hbyte⟩
      rw [hempty] at hmem
      exact hmem
    | some found =>
      rw [hfound] at hfirst
      obtain ⟨⟨hle, hlt, hbyte⟩, hleast⟩ := hfirst
      dsimp only
      by_cases haccept : accept found = true
      · rw [if_pos haccept]
        refine ⟨⟨hle, hlt, hbyte, haccept⟩, ?_⟩
        intro i ⟨hi, hit⟩
        exact hleast ⟨hi, hit.1, hit.2.1⟩
      · rw [if_neg haccept]
        refine ⟨by omega, hlt, ?_⟩
        intro i hi hnext hit
        have hge : found ≤ i := hleast ⟨hi, hit.1, hit.2.1⟩
        obtain rfl : found = i := by omega
        exact haccept hit.2.2
  · rw [if_neg hcursor]
    apply Set.eq_empty_of_forall_notMem
    intro i ⟨hle, hlt, _⟩
    omega

theorem scan_spec (start : Nat) :
    ∃ r, scan buf byte stop accept start = some r ∧ FirstOf {i | start ≤ i ∧ ScanHit buf byte stop accept i} r := by
  by_cases hstart : start ≤ stop
  · apply loop_of_measure (fun cursor => start ≤ cursor ∧ ∀ i, start ≤ i → i < cursor → ¬ScanHit buf byte stop accept i)
      (FirstOf {i | start ≤ i ∧ ScanHit buf byte stop accept i}) (fun cursor => stop - cursor)
    · intro cursor next hkept hstep
      obtain ⟨hle, hbefore⟩ := hkept
      have h := @scanStep_spec _ _ buf byte stop accept cursor
      rw [hstep] at h
      obtain ⟨hlt, hstop, hnone⟩ := h
      refine ⟨⟨by omega, ?_⟩, by show stop - next < stop - cursor; omega⟩
      intro i hi hnext
      by_cases hic : i < cursor
      · exact hbefore i hi hic
      · exact hnone i (by omega) hnext
    · intro cursor r hkept hstep
      obtain ⟨hle, hbefore⟩ := hkept
      have h := @scanStep_spec _ _ buf byte stop accept cursor
      rw [hstep] at h
      refine h.congr ?_
      intro i
      refine ⟨?_, ?_⟩
      · intro h
        obtain ⟨hi, hit⟩ := h
        refine ⟨?_, hit⟩
        by_contra hlt
        exact hbefore i hi (by omega) hit
      · intro h
        obtain ⟨hi, hit⟩ := h
        exact ⟨by omega, hit⟩
    · exact ⟨le_rfl, by omega⟩
    · show stop - start < stop + 1
      omega
  · refine ⟨none, ?_, ?_⟩
    · unfold scan loop scanStep
      rw [if_neg (by omega)]
    · apply Set.eq_empty_of_forall_notMem
      intro i h
      obtain ⟨hle, hlt, _⟩ := h
      omega

end

end Bx.Kit
