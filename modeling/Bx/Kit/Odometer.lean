import Bx.Kit.Bytes

/-!
# Odometers

A row of wheels of one kind counts, the last wheel fastest. After as many steps as there are readings it is back at its
start, and no reading comes twice before.
-/

namespace Bx.Kit

open List

variable {δ : Type*}

/-- `next` of the last mark is nothing; `rank` says how many marks come before one. -/
structure Wheel (δ : Type*) where
  first : δ
  next : δ → Option δ
  rank : δ → Nat
  size : Nat
  pos : 0 < size
  rank_first : rank first = 0
  rank_next : ∀ d, rank d < size → ∀ e, next d = some e → rank e = rank d + 1 ∧ rank e < size
  rank_last : ∀ d, rank d < size → next d = none → rank d + 1 = size

variable (W : Wheel δ)

def turn : List δ → List δ × Bool
  | [] => ([], true)
  | d :: row =>
    let turned := turn row
    if turned.2 then
      match W.next d with
      | some e => (e :: turned.1, false)
      | none => (W.first :: turned.1, true)
    else (d :: turned.1, false)

variable (row : List δ)

def reading : Nat := row.foldl (fun r d => r * W.size + W.rank d) 0

variable (length : Nat)

def startRow : List δ := replicate length W.first

def OnWheel : Prop := ∀ d ∈ row, W.rank d < W.size

theorem foldl_reading (r : Nat) :
    row.foldl (fun r d => r * W.size + W.rank d) r = r * W.size ^ row.length + reading W row := by
  unfold reading
  induction row generalizing r with
  | nil => simp
  | cons d row ih =>
    rw [foldl_cons, foldl_cons, ih, ih (0 * W.size + W.rank d), length_cons]
    ring

theorem reading_cons (d : δ) (row : List δ) :
    reading W (d :: row) = W.rank d * W.size ^ row.length + reading W row := by
  unfold reading
  rw [foldl_cons, foldl_reading, zero_mul, zero_add]
  rfl

theorem reading_lt {row : List δ} (h : OnWheel W row) : reading W row < W.size ^ row.length := by
  induction row with
  | nil => simp [reading]
  | cons d row ih =>
    have hd := h d mem_cons_self
    have hrow := ih fun e he => h e (mem_cons_of_mem _ he)
    have hle : (W.rank d + 1) * W.size ^ row.length ≤ W.size * W.size ^ row.length :=
      Nat.mul_le_mul_right _ hd
    rw [reading_cons, length_cons, pow_succ, mul_comm (W.size ^ _)]
    rw [Nat.add_mul, one_mul] at hle
    omega

theorem onWheel_startRow : OnWheel W (startRow W length) := by
  intro d hd
  rw [eq_of_mem_replicate hd, W.rank_first]
  exact W.pos

@[simp] theorem length_startRow (length : Nat) : (startRow W length).length = length := length_replicate

theorem reading_startRow : reading W (startRow W length) = 0 := by
  induction length with
  | zero => rfl
  | succ length ih =>
    have hcons : startRow W (length + 1) = W.first :: startRow W length := rfl
    rw [hcons, reading_cons, ih, W.rank_first, zero_mul]

@[simp] theorem length_turn (row : List δ) : (turn W row).1.length = row.length := by
  induction row with
  | nil => rfl
  | cons d row ih =>
    unfold turn
    dsimp only
    split
    · split <;> simp [ih]
    · simp [ih]

theorem turn_cases {row : List δ} (h : OnWheel W row) : OnWheel W (turn W row).1 ∧
      ((turn W row).2 = false ∧ reading W (turn W row).1 = reading W row + 1 ∨
        (turn W row).2 = true ∧ reading W row + 1 = W.size ^ row.length ∧
          (turn W row).1 = startRow W row.length) := by
  induction row with
  | nil => exact ⟨h, .inr ⟨rfl, rfl, rfl⟩⟩
  | cons d row ih =>
    have hd := h d mem_cons_self
    obtain ⟨hon, hcases⟩ := ih fun e he => h e (mem_cons_of_mem _ he)
    have hcons : ∀ e, W.rank e < W.size → OnWheel W (e :: (turn W row).1) := by
      intro e he e' he'
      cases mem_cons.mp he' with
      | inl heq => rw [heq]; exact he
      | inr hmem => exact hon e' hmem
    cases hcases with
    | inl hstay =>
      obtain ⟨hcarry, hread⟩ := hstay
      have hturn : turn W (d :: row) = (d :: (turn W row).1, false) := by simp [turn, hcarry]
      rw [hturn]
      refine ⟨hcons d hd, .inl ⟨rfl, ?_⟩⟩
      rw [reading_cons, reading_cons, hread, length_turn, add_assoc]
    | inr hover =>
      obtain ⟨hcarry, hread, hstart⟩ := hover
      cases hnext : W.next d with
      | some e =>
        obtain ⟨hrank, hlt⟩ := W.rank_next d hd e hnext
        have hturn : turn W (d :: row) = (e :: (turn W row).1, false) := by simp [turn, hcarry, hnext]
        rw [hturn]
        refine ⟨hcons e hlt, .inl ⟨rfl, ?_⟩⟩
        rw [reading_cons, reading_cons, hstart, reading_startRow, length_startRow, hrank, Nat.add_mul, one_mul, ← hread]
        omega
      | none =>
        have hlast := W.rank_last d hd hnext
        have hturn : turn W (d :: row) = (W.first :: (turn W row).1, true) := by simp [turn, hcarry, hnext]
        rw [hturn]
        refine ⟨hcons W.first (W.rank_first ▸ W.pos), .inr ⟨rfl, ?_, ?_⟩⟩
        · have hpow : W.size ^ (d :: row).length = (W.rank d + 1) * W.size ^ row.length := by
            rw [length_cons, pow_succ, hlast, mul_comm]
          rw [reading_cons, hpow, Nat.add_mul, one_mul]
          omega
        · rw [hstart]
          rfl

/-! ## Turning on from the start -/

def rowAt (length n : Nat) : List δ := (fun row => (turn W row).1)^[n] (startRow W length)

theorem rowAt_succ (length n : Nat) : rowAt W length (n + 1) = (turn W (rowAt W length n)).1 := by
  unfold rowAt
  rw [Function.iterate_succ_apply']

@[simp] theorem length_rowAt (length n : Nat) : (rowAt W length n).length = length := by
  induction n with
  | zero => exact length_startRow W length
  | succ n ih => rw [rowAt_succ, length_turn, ih]

theorem onWheel_rowAt (length n : Nat) : OnWheel W (rowAt W length n) := by
  induction n with
  | zero => exact onWheel_startRow W length
  | succ n ih =>
    rw [rowAt_succ]
    exact (turn_cases W ih).1

theorem reading_rowAt {length n : Nat} (h : n < W.size ^ length) : reading W (rowAt W length n) = n := by
  induction n with
  | zero => exact reading_startRow W length
  | succ n ih =>
    have hn := ih (by omega)
    rw [rowAt_succ]
    cases (turn_cases W (onWheel_rowAt W length n)).2 with
    | inl hstay => rw [hstay.2, hn]
    | inr hover =>
      have hfull := hover.2.1
      rw [hn, length_rowAt] at hfull
      omega

theorem rowAt_inj {length m n : Nat} (hm : m < W.size ^ length) (hn : n < W.size ^ length)
    (h : rowAt W length m = rowAt W length n) : m = n := by
  have hread := congrArg (reading W) h
  rwa [reading_rowAt W hm, reading_rowAt W hn] at hread

theorem rowAt_size : rowAt W length (W.size ^ length) = startRow W length := by
  obtain ⟨n, hn⟩ : ∃ n, W.size ^ length = n + 1 :=
    ⟨W.size ^ length - 1, by have := Nat.pow_pos (n := length) W.pos; omega⟩
  have hread : reading W (rowAt W length n) = n := reading_rowAt W (by omega)
  rw [hn, rowAt_succ]
  have hcases := (turn_cases W (onWheel_rowAt W length n)).2
  rw [length_rowAt] at hcases
  cases hcases with
  | inl hstay =>
    have hlt := reading_lt W (turn_cases W (onWheel_rowAt W length n)).1
    rw [length_turn, length_rowAt, hstay.2, hread, hn] at hlt
    omega
  | inr hover => exact hover.2.2

end Bx.Kit
