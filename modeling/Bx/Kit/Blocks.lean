import Mathlib.Data.List.Basic

/-!
# Lists in blocks

A loop takes a fixed number of elements at a time, while the block is accepted. A loop over wider blocks that agrees
with it on each of them may run first, and two loops whose blocks are inverse to each other undo each other.
-/

namespace Bx.Kit

open List

variable {α β : Type*}

def blockRun (width : Nat) (f : List α → Option (List β)) : Nat → List α → List β × List α
  | 0, input => ([], input)
  | rounds + 1, input =>
    if input.length < width then ([], input)
    else
      match f (input.take width) with
      | none => ([], input)
      | some out =>
        (out ++ (blockRun width f rounds (input.drop width)).1, (blockRun width f rounds (input.drop width)).2)

def blockLoop (width : Nat) (f : List α → Option (List β)) (input : List α) : List β × List α :=
  blockRun width f input.length input

theorem block_induction {width : Nat} (hw : 0 < width) {P : List α → Prop} (short : ∀ l, l.length < width → P l)
    (block : ∀ b rest, b.length = width → P rest → P (b ++ rest)) (l : List α) : P l := by
  induction hn : l.length using Nat.strongRecOn generalizing l with
  | ind n ih =>
    by_cases hlt : l.length < width
    · exact short l hlt
    · have hrest : (l.drop width).length < n := by
        rw [length_drop]
        omega
      have hstep := block (l.take width) (l.drop width) (length_take_of_le (by omega)) (ih _ hrest _ rfl)
      rwa [take_append_drop] at hstep

section
variable {width : Nat} {f : List α → Option (List β)}

variable {input : List α} {out : List β} {block : List α}

theorem blockRun_short (rounds : Nat) (h : input.length < width) : blockRun width f rounds input = ([], input) := by
  cases rounds with
  | zero => rfl
  | succ rounds => rw [blockRun, if_pos h]

theorem blockRun_congr (hw : 0 < width) {rounds more : Nat} (h : input.length ≤ rounds)
    (hmore : input.length ≤ more) : blockRun width f rounds input = blockRun width f more input := by
  induction rounds generalizing more input with
  | zero => rw [blockRun_short 0 (by omega), blockRun_short more (by omega)]
  | succ rounds ih =>
    by_cases hlt : input.length < width
    · rw [blockRun_short _ hlt, blockRun_short _ hlt]
    · obtain ⟨more, rfl⟩ : ∃ m, more = m + 1 := ⟨more - 1, by omega⟩
      rw [blockRun, blockRun, if_neg hlt, if_neg hlt]
      have hdrop : (input.drop width).length = input.length - width := length_drop
      rw [ih (show (input.drop width).length ≤ rounds by omega) (show (input.drop width).length ≤ more by omega)]

theorem blockLoop_short (h : input.length < width) : blockLoop width f input = ([], input) :=
  blockRun_short _ h

theorem blockLoop_refused (h : f (input.take width) = none) : blockLoop width f input = ([], input) := by
  unfold blockLoop
  cases input.length with
  | zero => rfl
  | succ n =>
    rw [blockRun, h]
    exact ite_self _

theorem blockLoop_block (hw : 0 < width) (hlen : block.length = width) (h : f block = some out) (rest : List α) :
    blockLoop width f (block ++ rest) = (out ++ (blockLoop width f rest).1, (blockLoop width f rest).2) := by
  obtain ⟨n, hn⟩ : ∃ n, (block ++ rest).length = n + 1 := ⟨(block ++ rest).length - 1, by
    rw [length_append]
    omega⟩
  rw [blockLoop, hn, blockRun, if_neg (by rw [length_append]; omega), take_left' hlen, h, drop_left' hlen]
  rw [length_append] at hn
  rw [blockRun_congr hw (by omega) (Nat.le_refl rest.length)]
  rfl

theorem blockLoop_single (hw : 0 < width) (hlen : block.length = width)
    (h : f block = some out) : blockLoop width f block = (out, []) := by
  have hnil : blockLoop width f [] = ([], []) := blockLoop_short hw
  have hblock := blockLoop_block hw hlen h []
  rwa [hnil, append_nil, append_nil] at hblock

theorem blockLoop_block_inv (hw : 0 < width) {block rest : List α} (hlen : block.length = width)
    (h : blockLoop width f (block ++ rest) = (out, [])) :
    ∃ first others, f block = some first ∧ out = first ++ others ∧ blockLoop width f rest = (others, []) := by
  cases hf : f block with
  | none =>
    rw [blockLoop_refused (by rwa [take_left' hlen])] at h
    have hnil := append_eq_nil_iff.mp (congrArg Prod.snd h)
    rw [hnil.1] at hlen
    exact absurd hlen (Nat.ne_of_lt hw)
  | some first =>
    rw [blockLoop_block hw hlen hf] at h
    obtain ⟨hout, hdone⟩ := Prod.ext_iff.mp h
    exact ⟨first, (blockLoop width f rest).1, rfl, hout.symm, Prod.ext rfl hdone⟩

theorem blockLoop_append (hw : 0 < width) {front : List α} (h : blockLoop width f front = (out, [])) (rest : List α) :
    blockLoop width f (front ++ rest) = (out ++ (blockLoop width f rest).1, (blockLoop width f rest).2) := by
  induction front using block_induction hw generalizing out with
  | short l hl =>
    rw [blockLoop_short hl] at h
    cases h
    rfl
  | block b l hb ih =>
    obtain ⟨first, others, hf, rfl, hrest⟩ := blockLoop_block_inv hw hb h
    rw [append_assoc, blockLoop_block hw hb hf, ih hrest, append_assoc]

/-- **Main result.** A loop over wider blocks may run first, wherever it gives up. -/
theorem blockLoop_after_wide {wide : Nat} {g : List α → Option (List β)} (hw : 0 < width) (hwide : 0 < wide)
    (hg : ∀ block out, block.length = wide → g block = some out → blockLoop width f block = (out, []))
    (input : List α) :
    ((blockLoop wide g input).1 ++ (blockLoop width f (blockLoop wide g input).2).1,
      (blockLoop width f (blockLoop wide g input).2).2) = blockLoop width f input := by
  induction input using block_induction hwide with
  | short l hl => rw [blockLoop_short hl, nil_append]
  | block b l hb ih =>
    cases hgb : g b with
    | none => rw [blockLoop_refused (by rwa [take_left' hb]), nil_append]
    | some out =>
      rw [blockLoop_block hwide hb hgb, blockLoop_append hw (hg b out hb hgb), ← ih, append_assoc]

theorem blockLoop_done_length (hw : 0 < width) {v : Nat}
    (hv : ∀ block out, block.length = width → f block = some out → out.length = v) (h : blockLoop width f input = (out, [])) :
    ∃ n, input.length = width * n ∧ out.length = v * n := by
  induction input using block_induction hw generalizing out with
  | short l hl =>
    rw [blockLoop_short hl] at h
    cases h
    exact ⟨0, rfl, rfl⟩
  | block b l hb ih =>
    obtain ⟨first, others, hf, rfl, hrest⟩ := blockLoop_block_inv hw hb h
    obtain ⟨n, hin, hout⟩ := ih hrest
    refine ⟨n + 1, ?_, ?_⟩
    · rw [length_append, hb, hin, Nat.mul_succ, Nat.add_comm]
    · rw [length_append, hv b first hb hf, hout, Nat.mul_succ, Nat.add_comm]

theorem blockLoop_of_blocks (hw : 0 < width) {blocks : Nat} (out : Nat → List β) (hlen : input.length = width * blocks)
    (h : ∀ i < blocks, f ((input.drop (width * i)).take width) = some (out i)) :
    blockLoop width f input = ((List.range blocks).flatMap out, []) := by
  induction blocks generalizing input out with
  | zero =>
    obtain rfl := eq_nil_of_length_eq_zero (hlen.trans (Nat.mul_zero width))
    exact blockLoop_short hw
  | succ blocks ih =>
    have hle : width ≤ input.length := by
      rw [hlen]
      exact Nat.le_mul_of_pos_right width (Nat.succ_pos blocks)
    have hfirst := h 0 (Nat.succ_pos blocks)
    rw [Nat.mul_zero, drop_zero] at hfirst
    have hrest : blockLoop width f (input.drop width) = ((List.range blocks).flatMap fun i => out (i + 1), []) := by
      apply ih
      · rw [length_drop, hlen, Nat.mul_succ, Nat.add_sub_cancel]
      · intro i hi
        rw [drop_drop, Nat.add_comm, ← Nat.mul_succ]
        exact h (i + 1) (Nat.succ_lt_succ hi)
    have hsplit := blockLoop_block hw (length_take_of_le hle) hfirst (input.drop width)
    rw [take_append_drop, hrest] at hsplit
    rw [hsplit, range_succ_eq_map, flatMap_cons, flatMap_map]

theorem blockLoop_done (hw : 0 < width) (hf : ∀ block, block.length = width → (f block).isSome)
    (h : input.length % width = 0) : (blockLoop width f input).2 = [] := by
  induction input using block_induction hw with
  | short l hl =>
    rw [blockLoop_short hl]
    rw [Nat.mod_eq_of_lt hl] at h
    exact eq_nil_of_length_eq_zero h
  | block b l hb ih =>
    obtain ⟨out, hout⟩ := Option.isSome_iff_exists.mp (hf b hb)
    rw [blockLoop_block hw hb hout]
    apply ih
    rwa [length_append, hb, Nat.add_mod_left] at h

end

/-- **Main result.** Blocks that undo each other make loops that do. -/
theorem blockLoop_undo {v w : Nat} (hv : 0 < v) (hw : 0 < w) {f : List α → Option (List β)} {g : List β → Option (List α)}
    (h : ∀ a b, a.length = w → f a = some b → b.length = v ∧ g b = some a) {input : List α} {out : List β}
    (hdone : blockLoop w f input = (out, [])) : blockLoop v g out = (input, []) := by
  induction input using block_induction hw generalizing out with
  | short l hl =>
    rw [blockLoop_short hl] at hdone
    cases hdone
    exact blockLoop_short hv
  | block b l hb ih =>
    obtain ⟨first, others, hf, rfl, hrest⟩ := blockLoop_block_inv hw hb hdone
    obtain ⟨hlen, hback⟩ := h b first hb hf
    rw [blockLoop_block hv hlen hback, ih hrest]

end Bx.Kit
