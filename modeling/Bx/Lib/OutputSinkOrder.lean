import Bx.Lib.OutputSink
import Mathlib.Data.List.Range

/-!
# The order of an output sink's records

The records taken from an ordered sink have, up to the close, exactly the numbers below a bound that were not skipped,
and the records still queued come after them. The bound is `nextSeq` without its wrap-around.
-/

namespace Bx.OutputSink

open Bx.Kit List

variable {Record : Type*}

/-! ## The operations -/

theorem insertAfter_eq (node : Node Record) (l : List (Node Record)) :
    insertNode.insertAfter node l = insertByKey Node.seq node l := by
  induction l with
  | nil => rfl
  | cons it rest ih =>
    unfold insertNode.insertAfter insertByKey insertAfter
    rw [ih]
    simp only [decide_eq_true_eq]
    rfl

theorem insertNode_eq (node : Node Record) (l : List (Node Record)) :
    insertNode true node l = insertByKey Node.seq node l := by
  cases l with
  | nil => rfl
  | cons it rest =>
    simp only [insertNode, insertByKey, insertAfter, insertAfter_eq, decide_eq_true_eq]
    by_cases h : node.seq < it.seq
    · rw [if_pos (by simpa using h), if_neg (Nat.not_le.mpr h)]
    · rw [if_neg (by simpa using h), if_pos (Nat.not_lt.mp h)]

variable {seq : Nat} {l : List Nat}

theorem insertSkipped_none (h : insertSkipped seq l = none) : seq ∈ l := by
  induction l with
  | nil => cases h
  | cons s rest ih =>
    unfold insertSkipped at h
    split_ifs at h with hlt heq
    · exact mem_cons_of_mem _ (ih (Option.map_eq_none_iff.mp h))
    · simp [heq]

theorem insertSkipped_some {l' : List Nat} (hl : l.Pairwise (· < ·))
    (h : insertSkipped seq l = some l') : l'.Pairwise (· < ·) ∧ ∀ k, k ∈ l' ↔ k = seq ∨ k ∈ l := by
  induction l generalizing l' with
  | nil =>
    cases h
    simp
  | cons s rest ih =>
    obtain ⟨hs, hrest⟩ := pairwise_cons.mp hl
    unfold insertSkipped at h
    split_ifs at h with hlt heq
    · obtain ⟨rest', hrest', rfl⟩ := Option.map_eq_some_iff.mp h
      obtain ⟨hp, hm⟩ := ih hrest hrest'
      refine ⟨pairwise_cons.mpr ⟨?_, hp⟩, ?_⟩
      · intro k hk
        cases (hm k).mp hk with
        | inl e => exact e ▸ hlt
        | inr hk => exact hs k hk
      · intro k
        rw [mem_cons, hm, mem_cons]
        exact or_left_comm
    · cases h
      have hlt : seq < s := by omega
      refine ⟨pairwise_cons.mpr ⟨?_, hl⟩, fun k => mem_cons⟩
      intro k hk
      cases mem_cons.mp hk with
      | inl e => exact e ▸ hlt
      | inr hk => exact Nat.lt_trans hlt (hs k hk)

theorem insertNode_perm (ordered : Bool) (node : Node Record) (l : List (Node Record)) :
    (insertNode ordered node l).Perm (node :: l) := by
  cases ordered with
  | true =>
    rw [insertNode_eq]
    exact insertByKey_perm Node.seq node l
  | false => cases l <;> exact List.Perm.refl _

theorem consumeSkipped_spec {v : Nat} (hl : l.Pairwise (· < ·)) (hv : v ≤ seqModulus)
    (hb : ∀ k ∈ l, v ≤ k ∧ k < seqModulus) :
    ∃ w, v ≤ w ∧ w ≤ seqModulus ∧ (consumeSkipped l (v % seqModulus)).2 = w % seqModulus ∧
      (∀ k, v ≤ k → k < w → k ∈ l) ∧ (∀ k ∈ (consumeSkipped l (v % seqModulus)).1, w ≤ k ∧ k ∈ l) ∧
      (consumeSkipped l (v % seqModulus)).1.Pairwise (· < ·) := by
  induction l generalizing v with
  | nil => exact ⟨v, Nat.le_refl v, hv, rfl, fun k h h' => absurd h (by omega), by simp [consumeSkipped], by simp [consumeSkipped]⟩
  | cons seq l ih =>
    obtain ⟨hs, hl'⟩ := pairwise_cons.mp hl
    obtain ⟨hvs, hsm⟩ := hb seq mem_cons_self
    have hmod : v % seqModulus = v := Nat.mod_eq_of_lt (lt_of_le_of_lt hvs hsm)
    unfold consumeSkipped
    by_cases heq : seq = v % seqModulus
    · rw [if_pos heq]
      rw [hmod] at heq ⊢
      subst heq
      obtain ⟨w, hw, hwm, hnext, hin, hout, hp⟩ := ih hl' hsm fun k hk => ⟨hs k hk, (hb k (mem_cons_of_mem _ hk)).2⟩
      refine ⟨w, le_of_lt hw, hwm, hnext, ?_, fun k hk => ⟨(hout k hk).1, mem_cons_of_mem _ (hout k hk).2⟩, hp⟩
      intro k hk hkw
      cases Nat.eq_or_lt_of_le hk with
      | inl e => simp [e]
      | inr hlt => exact mem_cons_of_mem _ (hin k hlt hkw)
    · rw [if_neg heq]
      refine ⟨v, Nat.le_refl v, hv, rfl, fun k h h' => absurd h (by omega), ?_, hl⟩
      intro k hk
      exact ⟨(hb k hk).1, hk⟩

section
variable {opts : Opts Record} {sink sink' : Sink Record} {node : Node Record}

theorem takeReadyNode_some (h : takeReadyNode opts sink = some (node, sink')) : ∃ rest, sink.head = node :: rest ∧
      (opts.ordered = true ∧ node.seq = sink.nextSeq ∧
          sink' = advanceTo (dropHead sink node rest) sink.skippedSeqs ((sink.nextSeq + 1) % seqModulus) ∨
        (opts.ordered = true → node.seq ≠ sink.nextSeq ∧ sink.closed = true) ∧ sink' = dropHead sink node rest) := by
  unfold takeReadyNode at h
  cases hh : sink.head with
  | nil => rw [hh] at h; cases h
  | cons n rest =>
    rw [hh] at h
    simp only at h
    split_ifs at h with h1 h2
    · simp only [Bool.and_eq_true, decide_eq_true_eq] at h2
      cases h
      exact ⟨rest, rfl, Or.inl ⟨h2.1, h2.2, rfl⟩⟩
    · cases h
      refine ⟨rest, rfl, Or.inr ⟨?_, rfl⟩⟩
      intro ho
      simp only [ho, Bool.true_and, decide_eq_true_eq] at h2
      refine ⟨h2, ?_⟩
      simpa [ho, h2] using h1

theorem takeReadyNode_none (h : takeReadyNode opts sink = none) :
    sink.head = [] ∨ sink.closed = false ∧ ∃ n ∈ sink.head.head?, n.seq ≠ sink.nextSeq := by
  unfold takeReadyNode at h
  cases hh : sink.head with
  | nil => exact Or.inl rfl
  | cons n rest =>
    rw [hh] at h
    simp only at h
    split_ifs at h with h1
    simp only [Bool.and_eq_true, decide_eq_true_eq, Bool.not_eq_true'] at h1
    exact Or.inr ⟨h1.2, n, rfl, h1.1.2⟩

end

variable {skipped : List Nat}

theorem advanceTo_spec (sink : Sink Record) (hs : skipped.Pairwise (· < ·)) {v : Nat} (hv : v ≤ seqModulus)
    (hb : ∀ k ∈ skipped, v ≤ k ∧ k < seqModulus) :
    ∃ w, v ≤ w ∧ w ≤ seqModulus ∧ (advanceTo sink skipped (v % seqModulus)).nextSeq = w % seqModulus ∧
      (∀ k, v ≤ k → k < w → k ∈ skipped) ∧
      (∀ k ∈ (advanceTo sink skipped (v % seqModulus)).skippedSeqs, w ≤ k ∧ k ∈ skipped) ∧
      (advanceTo sink skipped (v % seqModulus)).skippedSeqs.Pairwise (· < ·) :=
  consumeSkipped_spec hs hv hb

/-- What holds of a call being made holds of a call asleep, so waking changes nothing. -/
def WakeInvariant (p : Call → Prop) : Prop := p .calling ↔ p .asleep

variable {p : Call → Prop}

theorem wake_iff (hp : WakeInvariant p) (c : Call) : p c.wake ↔ p c := by
  cases c with
  | asleep => exact hp
  | idle => rfl
  | calling => rfl
  | returned _ => rfl

structure Distinct (opts : Opts Record) (s : State Record) : Prop where
  used : ∀ r, s.call r ≠ .idle → opts.recordSeq r ∈ s.used ∧ opts.firstSeq ≤ opts.recordSeq r
  injective : ∀ r r', s.call r ≠ .idle → s.call r' ≠ .idle → opts.recordSeq r = opts.recordSeq r' → r = r'
  skipped_used : ∀ k ∈ s.skipped, k ∈ s.used
  not_skipped : ∀ r, s.call r ≠ .idle → opts.recordSeq r ∉ s.skipped

section
variable {opts : Opts Record} {s t : State Record}

theorem Distinct.congr (h : Distinct opts s) (hcall : ∀ r, t.call r ≠ .idle ↔ s.call r ≠ .idle)
    (hused : t.used = s.used) (hskipped : t.skipped = s.skipped) : Distinct opts t := by
  refine ⟨?_, ?_, ?_, ?_⟩
  · intro r hr
    rw [hused]
    exact h.used r ((hcall r).mp hr)
  · intro r r' hr hr' he
    exact h.injective r r' ((hcall r).mp hr) ((hcall r').mp hr') he
  · rw [hused, hskipped]
    exact h.skipped_used
  · intro r hr
    rw [hskipped]
    exact h.not_skipped r ((hcall r).mp hr)

theorem Distinct.skip (h : Distinct opts s) {seq : Nat} (hnew : seq ∉ s.used) (hcall : t.call = s.call)
    (hused : t.used = seq :: s.used) (hskipped : ∀ k ∈ t.skipped, k = seq ∨ k ∈ s.skipped) : Distinct opts t := by
  refine ⟨?_, ?_, ?_, ?_⟩
  · intro r hr
    rw [hcall] at hr
    rw [hused]
    exact ⟨mem_cons_of_mem _ (h.used r hr).1, (h.used r hr).2⟩
  · rw [hcall]
    exact h.injective
  · intro k hk
    rw [hused]
    cases hskipped k hk with
    | inl e => exact e ▸ mem_cons_self
    | inr hk => exact mem_cons_of_mem _ (h.skipped_used k hk)
  · intro r hr hm
    rw [hcall] at hr
    cases hskipped _ hm with
    | inl e => exact hnew (e ▸ (h.used r hr).1)
    | inr hm => exact h.not_skipped r hr hm

end

/-! ## Records in the order of their numbers -/

def inHand : Emitter Record → List Record
  | .emitting node => [node.record]
  | _ => []

def taken (s : State Record) : List Record := s.emitted ++ inHand s.emitter

def accepted (s : State Record) : List Record := taken s ++ s.sink.head.map (·.record)

@[simp] theorem inHand_wake (e : Emitter Record) : inHand e.wake = inHand e := by cases e <;> rfl

theorem wake_ne_asleep (e : Emitter Record) : e.wake ≠ .asleep := by cases e <;> simp [Emitter.wake]

theorem wake_eq_exited {e : Emitter Record} : e.wake = .exited ↔ e = .exited := by cases e <;> simp [Emitter.wake]

def unskipped (skipped : List Nat) (first v : Nat) : List Nat :=
  (range' first (v - first)).filter (· ∉ skipped)

variable {first k w : Nat}

theorem mem_unskipped {v : Nat} (h : first ≤ v) : k ∈ unskipped skipped first v ↔ first ≤ k ∧ k < v ∧ k ∉ skipped := by
  unfold unskipped
  have hlt : k < first + (v - first) ↔ k < v := by omega
  rw [mem_filter, mem_range'_1, decide_eq_true_iff, hlt, and_assoc]

theorem unskipped_congr {skipped' : List Nat} {v : Nat} (hv : first ≤ v)
    (h : ∀ k, first ≤ k → k < v → (k ∈ skipped ↔ k ∈ skipped')) :
    unskipped skipped first v = unskipped skipped' first v := by
  apply filter_congr
  intro k hk
  rw [mem_range'_1] at hk
  simp only [h k hk.1 (by omega)]

theorem unskipped_append {v : Nat} (hv : first ≤ v) (hw : v ≤ w) :
    unskipped skipped first w = unskipped skipped first v ++ unskipped skipped v w := by
  unfold unskipped
  have hlen : w - first = (v - first) + (w - v) := by omega
  have hmid : first + (v - first) = v := by omega
  rw [← filter_append, hlen, ← range'_append_1, hmid]

theorem unskipped_eq_nil {v : Nat} (h : ∀ k, v ≤ k → k < w → k ∈ skipped) : unskipped skipped v w = [] := by
  unfold unskipped
  rw [filter_eq_nil_iff]
  intro k hk
  rw [mem_range'_1] at hk
  simpa using h k hk.1 (by omega)

theorem unskipped_concat {v : Nat} (hv : first ≤ v)
    (h : unskipped skipped first v = l ++ [k]) : l = unskipped skipped first k := by
  obtain ⟨hk, hkv, hks⟩ := (mem_unskipped hv).mp (h ▸ mem_append_right l (mem_singleton_self k))
  have hone : unskipped skipped k (k + 1) = [k] := by simp [unskipped, hks]
  rw [unskipped_append hk (le_of_lt hkv), unskipped_append (Nat.le_succ k) hkv, hone] at h
  cases hrest : unskipped skipped (k + 1) v with
  | nil =>
    rw [hrest] at h
    exact (append_inj_left' h rfl).symm
  | cons b rest =>
    -- the last number would lie beyond `k`
    have hlast := congrArg getLast? h
    obtain ⟨c, hc⟩ := Option.ne_none_iff_exists'.mp (mt getLast?_eq_none_iff.mp (cons_ne_nil b rest))
    rw [hrest, getLast?_append, getLast?_append, hc, getLast?_append] at hlast
    have hmem : k ∈ unskipped skipped (k + 1) v := by
      rw [hrest]
      exact mem_of_getLast? (hc.trans hlast)
    exact absurd ((mem_unskipped hkv).mp hmem).1 (by omega)

/-- `v` is the next number without its wrap-around. -/
structure Ordered (opts : Opts Record) (s : State Record) (v : Nat) : Prop where
  next : s.sink.nextSeq = v % seqModulus
  first_le : opts.firstSeq ≤ v
  le : v ≤ seqModulus
  skippedSeqs : ∀ k ∈ s.sink.skippedSeqs, v ≤ k ∧ k < seqModulus ∧ k ∈ s.skipped
  skippedSeqs_sorted : s.sink.skippedSeqs.Pairwise (· < ·)
  node : ∀ n ∈ s.sink.head, n = makeNode opts n.record
  head_ge : ∀ n ∈ s.sink.head, v ≤ n.seq
  sorted : ((accepted s).map opts.recordSeq).Pairwise (· < ·)
  mem_accepted : ∀ r, r ∈ accepted s ↔ s.call r = .returned true
  passed : ∀ k, opts.firstSeq ≤ k → k < v → k ∈ s.skipped ∨ ∃ r, opts.recordSeq r = k ∧ s.call r = .returned true
  taken_eq : s.sink.closed = false → (taken s).map opts.recordSeq = unskipped s.skipped opts.firstSeq v

section
variable {opts : Opts Record} {s t : State Record} {v : Nat}

section
variable (h : Ordered opts s v)
include h

theorem Ordered.congr (hcall : ∀ r, t.call r = .returned true ↔ s.call r = .returned true)
    (hnext : t.sink.nextSeq = s.sink.nextSeq) (hseqs : t.sink.skippedSeqs = s.sink.skippedSeqs)
    (hhead : t.sink.head = s.sink.head) (htaken : taken t = taken s) (hskipped : t.skipped = s.skipped)
    (hclosed : t.sink.closed = false → s.sink.closed = false) : Ordered opts t v := by
  have hacc : accepted t = accepted s := by unfold accepted; rw [htaken, hhead]
  refine ⟨hnext.trans h.next, h.first_le, h.le, ?_, hseqs ▸ h.skippedSeqs_sorted, hhead ▸ h.node, hhead ▸ h.head_ge,
    hacc ▸ h.sorted, ?_, ?_, ?_⟩
  · rw [hseqs, hskipped]
    exact h.skippedSeqs
  · intro r
    rw [hacc, hcall]
    exact h.mem_accepted r
  · intro k hk hkv
    rw [hskipped]
    simp only [hcall]
    exact h.passed k hk hkv
  · intro ho
    rw [htaken, hskipped]
    exact h.taken_eq (hclosed ho)

variable {n : Node Record}

theorem Ordered.head_call (hn : n ∈ s.sink.head) : s.call n.record = .returned true :=
  (h.mem_accepted n.record).mp (mem_append_right _ (mem_map_of_mem hn))

theorem Ordered.head_seq (hn : n ∈ s.sink.head) : n.seq = opts.recordSeq n.record := congrArg Node.seq (h.node n hn)

theorem Ordered.accepted_seqs :
    (accepted s).map opts.recordSeq = (taken s).map opts.recordSeq ++ s.sink.head.map (·.seq) := by
  unfold accepted
  rw [map_append, map_map]
  congr 1
  apply map_congr_left
  intro n hn
  exact (h.head_seq hn).symm

theorem Ordered.head_sorted : s.sink.head.Pairwise fun b c => b.seq < c.seq := by
  have hs := h.sorted
  rw [h.accepted_seqs, pairwise_append] at hs
  exact pairwise_map.mp hs.2.1

section
variable (hd : Distinct opts s)
include hd

theorem Ordered.ge_of_unused (hk : opts.firstSeq ≤ k) (hnew : k ∉ s.used) : v ≤ k := by
  by_contra hlt
  cases h.passed k hk (Nat.not_le.mp hlt) with
  | inl hs => exact hnew (hd.skipped_used k hs)
  | inr hr =>
    obtain ⟨r, rfl, hr⟩ := hr
    exact hnew (hd.used r (by rw [hr]; simp)).1

theorem Ordered.ge_of_pending {r : Record} (hr : s.call r ≠ .idle)
    (hp : s.call r ≠ .returned true) : v ≤ opts.recordSeq r := by
  by_contra hlt
  cases h.passed _ (hd.used r hr).2 (Nat.not_le.mp hlt) with
  | inl hs => exact hd.not_skipped r hr hs
  | inr hr' =>
    obtain ⟨r', he, hr'⟩ := hr'
    have := hd.injective r' r (by rw [hr']; simp) hr he
    exact hp (this ▸ hr')

theorem skipSeq_unused (ho : opts.ordered = true)
    (hfirst : opts.firstSeq ≤ seq) (hnew : seq ∉ s.used) (allocated : Bool) :
    ∃ skipped, insertSkipped seq s.sink.skippedSeqs = some skipped ∧ skipSeq opts s.sink seq allocated =
      if allocated then ⟨advanceTo s.sink skipped s.sink.nextSeq, true, true⟩ else ⟨s.sink, false, false⟩ := by
  have hge := h.ge_of_unused hd hfirst hnew
  have hnext : ¬ seq < s.sink.nextSeq := by
    rw [h.next]
    exact Nat.not_lt.mpr ((Nat.mod_le v seqModulus).trans hge)
  unfold skipSeq
  rw [ho, if_neg (by simp), if_neg hnext]
  cases hi : insertSkipped seq s.sink.skippedSeqs with
  | none => exact absurd (hd.skipped_used seq (h.skippedSeqs seq (insertSkipped_none hi)).2.2) hnew
  | some skipped =>
    refine ⟨skipped, rfl, ?_⟩
    cases allocated <;> rfl

theorem Ordered.skip (ho : opts.ordered = true) {seq : Nat}
    (hfirst : opts.firstSeq ≤ seq) (hlt : seq < seqModulus) (hnew : seq ∉ s.used) (allocated : Bool) :
    ∃ w, Ordered opts (s.afterSkip opts seq allocated) w := by
  obtain ⟨skipped, hi, hskip⟩ := skipSeq_unused h hd ho hfirst hnew allocated
  unfold State.afterSkip
  rw [hskip]
  cases allocated with
  | false => exact ⟨v, h.congr (fun _ => Iff.rfl) rfl rfl rfl rfl rfl id⟩
  | true =>
    have hge := h.ge_of_unused hd hfirst hnew
    obtain ⟨hp, hm⟩ := insertSkipped_some h.skippedSeqs_sorted hi
    have hin : ∀ k ∈ skipped, v ≤ k ∧ k < seqModulus ∧ k ∈ seq :: s.skipped := by
      intro k hk
      cases (hm k).mp hk with
      | inl e => subst e; exact ⟨hge, hlt, mem_cons_self⟩
      | inr hk =>
        obtain ⟨hvk, hkm, hks⟩ := h.skippedSeqs k hk
        exact ⟨hvk, hkm, mem_cons_of_mem _ hks⟩
    obtain ⟨w, hvw, hwm, hw, hpass, hout, hp'⟩ := advanceTo_spec s.sink hp h.le fun k hk => ⟨(hin k hk).1, (hin k hk).2.1⟩
    rw [← h.next] at hw hout hp'
    have hskip' : ∀ k, v ≤ k → k < w → k ∈ seq :: s.skipped := fun k hk hkw => (hin k (hpass k hk hkw)).2.2
    refine ⟨w, hw, h.first_le.trans hvw, hwm, ?_, hp', h.node, ?_, ?_, ?_, ?_, ?_⟩
    · intro k hk
      obtain ⟨hwk, hks⟩ := hout k hk
      exact ⟨hwk, (hin k hks).2⟩
    · intro n hn
      have hcall := h.head_call hn
      by_contra hlt'
      cases mem_cons.mp (hskip' n.seq (h.head_ge n hn) (Nat.not_le.mp hlt')) with
      | inl e => exact hnew (e ▸ h.head_seq hn ▸ (hd.used n.record (by simp [hcall])).1)
      | inr hks => exact hd.not_skipped n.record (by simp [hcall]) (h.head_seq hn ▸ hks)
    · simp only [accepted, taken, if_true, inHand_wake]
      exact h.sorted
    · simp only [accepted, taken, if_true, inHand_wake]
      exact h.mem_accepted
    · intro k hk hkw
      by_cases hkv : k < v
      · exact (h.passed k hk hkv).imp_left (mem_cons_of_mem seq)
      · exact Or.inl (hskip' k (Nat.not_lt.mp hkv) hkw)
    · intro hopen
      simp only [taken, if_true, inHand_wake]
      rw [unskipped_append h.first_le hvw, unskipped_eq_nil hskip', append_nil]
      refine (h.taken_eq hopen).trans (unskipped_congr h.first_le ?_)
      intro k _ hkv
      rw [mem_cons]
      exact (or_iff_right (by omega)).symm

end

end

end

/-! ## Steps -/

variable [DecidableEq Record]

variable {call : Record → Call}

theorem update_iff {r : Record} {c : Call} (h : p c ↔ p (call r))
    (r' : Record) : p (Function.update call r c r') ↔ p (call r') := by
  by_cases e : r' = r
  · subst e
    rw [Function.update_self]
    exact h
  · rw [Function.update_of_ne e]

theorem signalled_iff (hp : WakeInvariant p) {call' : Record → Call}
    (h : Signalled call call') (r : Record) : p (call' r) ↔ p (call r) := by
  cases h with
  | @one r' hr' => exact update_iff (by rw [hr']; exact hp) r
  | nobody => rfl

section
variable {opts : Opts Record} {s t : State Record} {v : Nat}

theorem Distinct.submit (h : Distinct opts s) {r : Record} {c : Call} (hfirst : opts.firstSeq ≤ opts.recordSeq r)
    (hnew : opts.recordSeq r ∉ s.used) (hc : t.call = Function.update s.call r c)
    (hused : t.used = opts.recordSeq r :: s.used) (hskipped : t.skipped = s.skipped) : Distinct opts t := by
  have hcall : ∀ r', t.call r' ≠ .idle → r' = r ∨ s.call r' ≠ .idle := by
    intro r' hr'
    by_cases e : r' = r
    · exact Or.inl e
    · rw [hc, Function.update_of_ne e] at hr'
      exact Or.inr hr'
  refine ⟨?_, ?_, ?_, ?_⟩
  · intro r' hr'
    rw [hused]
    cases hcall r' hr' with
    | inl e => subst e; exact ⟨mem_cons_self, hfirst⟩
    | inr hr' => exact ⟨mem_cons_of_mem _ (h.used r' hr').1, (h.used r' hr').2⟩
  · intro r₁ r₂ h₁ h₂ he
    cases hcall r₁ h₁ with
    | inl e₁ =>
      cases hcall r₂ h₂ with
      | inl e₂ => rw [e₁, e₂]
      | inr h₂ => exact absurd (e₁ ▸ he ▸ (h.used r₂ h₂).1) hnew
    | inr h₁ =>
      cases hcall r₂ h₂ with
      | inl e₂ => exact absurd (e₂ ▸ he ▸ (h.used r₁ h₁).1) hnew
      | inr h₂ => exact h.injective r₁ r₂ h₁ h₂ he
  · intro k hk
    rw [hused]
    exact mem_cons_of_mem _ (h.skipped_used k (hskipped ▸ hk))
  · intro r' hr'
    rw [hskipped]
    cases hcall r' hr' with
    | inl e => subst e; exact fun hm => hnew (h.skipped_used _ hm)
    | inr hr' => exact h.not_skipped r' hr'

variable {a : Action Record} {rest : List (Node Record)}

theorem distinct_step (h : Distinct opts s) (hstep : Step opts s a t) : Distinct opts t := by
  have hwake : WakeInvariant (· ≠ .idle) := by simp [WakeInvariant]
  cases hstep with
  | submit hidle hfirst hnew => exact h.submit hfirst hnew rfl rfl rfl
  | submitFails hidle hfirst hnew => exact h.submit hfirst hnew rfl rfl rfl
  | refuse hc _ => exact h.congr (update_iff (p := (· ≠ .idle)) (by simp [hc])) rfl rfl
  | wait hc _ => exact h.congr (update_iff (p := (· ≠ .idle)) (by simp [hc])) rfl rfl
  | enqueue hc _ _ => exact h.congr (update_iff (p := (· ≠ .idle)) (by simp [hc])) rfl rfl
  | skip hfirst hlt hnew =>
    refine h.skip hnew rfl rfl ?_
    intro k hk
    simp only [State.afterSkip] at hk
    split at hk
    · exact mem_cons.mp hk
    · exact Or.inr hk
  | close => exact h.congr (fun r => wake_iff hwake (s.call r)) rfl rfl
  | wake => exact h.congr (fun r => wake_iff hwake (s.call r)) rfl rfl
  | take _ _ hsig => exact h.congr (signalled_iff hwake hsig) rfl rfl
  | park _ _ _ => exact h.congr (fun _ => Iff.rfl) rfl rfl
  | exit _ _ _ _ => exact h.congr (fun _ => Iff.rfl) rfl rfl
  | emit _ => exact h.congr (fun _ => Iff.rfl) rfl rfl
  | dispose _ => exact h.congr (fun _ => Iff.rfl) rfl rfl
  | wakeProducer hc => exact h.congr (update_iff (p := (· ≠ .idle)) (by simp [hc])) rfl rfl
  | wakeEmitter _ => exact h.congr (fun _ => Iff.rfl) rfl rfl

section
variable (h : Ordered opts s v)
include h

theorem Ordered.enqueue (hd : Distinct opts s) (ho : opts.ordered = true) {r : Record}
    (hr : s.call r = .calling) (hopen : s.sink.closed = false) : Ordered opts (s.afterEnqueue opts r) v := by
  have hge : v ≤ opts.recordSeq r := h.ge_of_pending hd (by simp [hr]) (by simp [hr])
  have hmem : ∀ n, n ∈ insertNode opts.ordered (makeNode opts r) s.sink.head ↔ n = makeNode opts r ∨ n ∈ s.sink.head := by
    intro n
    rw [ho, insertNode_eq]
    exact mem_insertByKey Node.seq
  have hfresh : ∀ n ∈ s.sink.head, n.seq ≠ (makeNode opts r).seq := by
    intro n hn he
    have hcall := h.head_call hn
    have := hd.injective n.record r (by simp [hcall]) (by simp [hr]) ((h.head_seq hn).symm.trans he)
    simp [this, hr] at hcall
  have hnode : ∀ n ∈ insertNode opts.ordered (makeNode opts r) s.sink.head, n = makeNode opts n.record := by
    intro n hn
    cases (hmem n).mp hn with
    | inl e => subst e; rfl
    | inr hn => exact h.node n hn
  refine ⟨h.next, h.first_le, h.le, h.skippedSeqs, h.skippedSeqs_sorted, hnode, ?_, ?_, ?_, ?_, ?_⟩
  · intro n hn
    cases (hmem n).mp hn with
    | inl e => subst e; exact hge
    | inr hn => exact h.head_ge n hn
  · -- what is taken lies below `v`, what is queued from `v` on
    have hseqs : (insertNode opts.ordered (makeNode opts r) s.sink.head).map (fun n => opts.recordSeq n.record) =
        (insertNode opts.ordered (makeNode opts r) s.sink.head).map (·.seq) := by
      apply map_congr_left
      intro n hn
      exact (congrArg Node.seq (hnode n hn)).symm
    have hold := h.sorted
    rw [h.accepted_seqs, pairwise_append] at hold
    simp only [accepted, taken, State.afterEnqueue, inHand_wake, OutputSink.enqueue, map_append, map_map]
    rw [← map_append, pairwise_append]
    refine ⟨hold.1, ?_, ?_⟩
    · change ((insertNode opts.ordered (makeNode opts r) s.sink.head).map fun n => opts.recordSeq n.record).Pairwise _
      rw [hseqs, pairwise_map, ho, insertNode_eq]
      exact insertByKey_pairwise Node.seq h.head_sorted hfresh
    · intro a ha b hb
      have halt : a < v := ((mem_unskipped h.first_le).mp (h.taken_eq hopen ▸ ha)).2.1
      obtain ⟨n, hn, rfl⟩ := mem_map.mp hb
      have hbge : v ≤ opts.recordSeq n.record := by
        cases (hmem n).mp hn with
        | inl e => subst e; exact hge
        | inr hn => exact h.head_seq hn ▸ h.head_ge n hn
      exact lt_of_lt_of_le halt hbge
  · intro r'
    have hacc : r' ∈ accepted (s.afterEnqueue opts r) ↔ r' = r ∨ r' ∈ accepted s := by
      simp only [accepted, State.afterEnqueue, taken, inHand_wake, OutputSink.enqueue, mem_append, mem_map, hmem]
      constructor
      · rintro (h | ⟨n, rfl | hn, rfl⟩)
        · exact Or.inr (Or.inl h)
        · exact Or.inl rfl
        · exact Or.inr (Or.inr ⟨n, hn, rfl⟩)
      · rintro (rfl | h | ⟨n, hn, rfl⟩)
        · exact Or.inr ⟨_, Or.inl rfl, rfl⟩
        · exact Or.inl h
        · exact Or.inr ⟨n, Or.inr hn, rfl⟩
    rw [hacc, h.mem_accepted]
    by_cases e : r' = r
    · subst e
      simp [State.afterEnqueue]
    · simp [State.afterEnqueue, e]
  · intro k hk hkv
    refine (h.passed k hk hkv).imp_right ?_
    intro ⟨r', he, hr'⟩
    refine ⟨r', he, ?_⟩
    by_cases e : r' = r
    · subst e
      exact Function.update_self ..
    · exact (Function.update_of_ne e ..).trans hr'
  · intro _
    simp only [taken, State.afterEnqueue, inHand_wake]
    exact h.taken_eq hopen

variable {node : Node Record}

theorem Ordered.accepted_afterTake (he : s.emitter = .ready)
    (hh : s.sink.head = node :: rest) (sink : Sink Record) (hrest : sink.head = rest) (hsig : Signalled s.call call) :
    ((accepted (s.afterTake node sink call)).map opts.recordSeq).Pairwise (· < ·) ∧
      ∀ r, r ∈ accepted (s.afterTake node sink call) ↔ call r = .returned true := by
  have hacc : accepted (s.afterTake node sink call) = accepted s := by
    simp [accepted, taken, inHand, State.afterTake, he, hh, hrest]
  rw [hacc]
  refine ⟨h.sorted, fun r => ?_⟩
  rw [signalled_iff (p := (· = .returned true)) (by simp [WakeInvariant]) hsig]
  exact h.mem_accepted r

theorem Ordered.take_in_turn (hd : Distinct opts s) (he : s.emitter = .ready) (hh : s.sink.head = node :: rest)
    (hseq : node.seq = s.sink.nextSeq) (hsig : Signalled s.call call) :
    ∃ w, Ordered opts (s.afterTake node
      (advanceTo (dropHead s.sink node rest) s.sink.skippedSeqs ((s.sink.nextSeq + 1) % seqModulus)) call) w := by
  have hmem : node ∈ s.sink.head := by simp [hh]
  have hlt : node.seq < seqModulus := h.head_seq hmem ▸ opts.recordSeq_lt _
  have hge := h.head_ge node hmem
  have hv : node.seq = v := by rw [hseq, h.next, Nat.mod_eq_of_lt (lt_of_le_of_lt hge hlt)]
  have hvr : opts.recordSeq node.record = v := (h.head_seq hmem).symm.trans hv
  have hcallr := h.head_call hmem
  have hnot : v ∉ s.skipped := hvr ▸ hd.not_skipped node.record (by simp [hcallr])
  have hsorted := h.head_sorted
  rw [hh, pairwise_cons] at hsorted
  have hnext : (s.sink.nextSeq + 1) % seqModulus = (v + 1) % seqModulus := by rw [← hseq, hv]
  have hb : ∀ k ∈ s.sink.skippedSeqs, v + 1 ≤ k ∧ k < seqModulus := by
    intro k hk
    obtain ⟨hvk, hkm, hks⟩ := h.skippedSeqs k hk
    exact ⟨lt_of_le_of_ne hvk fun e => hnot (e ▸ hks), hkm⟩
  obtain ⟨w, hvw, hwm, hw, hin, hout, hp⟩ := advanceTo_spec (dropHead s.sink node rest)
    h.skippedSeqs_sorted (hv ▸ hlt) hb
  rw [← hnext] at hw hout hp
  have hskip : ∀ k, v + 1 ≤ k → k < w → k ∈ s.skipped := fun k hk hkw => (h.skippedSeqs k (hin k hk hkw)).2.2
  have hcall : ∀ r, call r = .returned true ↔ s.call r = .returned true :=
    signalled_iff (p := (· = .returned true)) (by simp [WakeInvariant]) hsig
  obtain ⟨hacc, hmemacc⟩ := h.accepted_afterTake he hh
    (advanceTo (dropHead s.sink node rest) s.sink.skippedSeqs ((s.sink.nextSeq + 1) % seqModulus)) rfl hsig
  refine ⟨w, hw, h.first_le.trans (by omega), hwm, ?_, hp, ?_, ?_, hacc, hmemacc, ?_, ?_⟩
  · intro k hk
    obtain ⟨hwk, hks⟩ := hout k hk
    exact ⟨hwk, (hb k hks).2, (h.skippedSeqs k hks).2.2⟩
  · intro n hn
    exact h.node n (by rw [hh]; exact mem_cons_of_mem _ hn)
  · -- a queued number is not skipped, so the move stops at it
    intro n hn
    have hn' : n ∈ s.sink.head := by rw [hh]; exact mem_cons_of_mem _ hn
    by_contra hlt'
    refine hd.not_skipped n.record (by simp [h.head_call hn']) ?_
    rw [← h.head_seq hn']
    exact hskip n.seq (hv ▸ hsorted.1 n hn) (Nat.not_le.mp hlt')
  · intro k hk hkw
    change k ∈ s.skipped ∨ ∃ r, opts.recordSeq r = k ∧ call r = _
    simp only [hcall]
    by_cases hkv : k < v
    · exact h.passed k hk hkv
    · cases Nat.eq_or_lt_of_le (Nat.not_lt.mp hkv) with
      | inl e => exact Or.inr ⟨node.record, hvr.trans e, hcallr⟩
      | inr hlt' => exact Or.inl (hskip k hlt' hkw)
  · intro ho
    have htake := h.taken_eq ho
    simp only [taken, inHand, he, append_nil] at htake
    have hone : unskipped s.skipped v (v + 1) = [v] := by simp [unskipped, hnot]
    change (s.emitted ++ [node.record]).map opts.recordSeq = unskipped s.skipped opts.firstSeq w
    rw [map_append, htake, unskipped_append h.first_le (le_of_lt hvw),
      unskipped_append (Nat.le_succ v) hvw, unskipped_eq_nil hskip, hone, append_nil, map_singleton, hvr]

theorem Ordered.take_closed (he : s.emitter = .ready) (hh : s.sink.head = node :: rest)
    (hclosed : s.sink.closed = true) (hsig : Signalled s.call call) :
    Ordered opts (s.afterTake node (dropHead s.sink node rest) call) v := by
  have hcall : ∀ r, call r = .returned true ↔ s.call r = .returned true :=
    signalled_iff (p := (· = .returned true)) (by simp [WakeInvariant]) hsig
  obtain ⟨hacc, hmemacc⟩ := h.accepted_afterTake he hh (dropHead s.sink node rest) rfl hsig
  have hsub : ∀ n ∈ rest, n ∈ s.sink.head := fun n hn => by rw [hh]; exact mem_cons_of_mem _ hn
  refine ⟨h.next, h.first_le, h.le, h.skippedSeqs, h.skippedSeqs_sorted, fun n hn => h.node n (hsub n hn),
    fun n hn => h.head_ge n (hsub n hn), hacc, hmemacc, ?_, ?_⟩
  · intro k hk hkv
    change k ∈ s.skipped ∨ ∃ r, opts.recordSeq r = k ∧ call r = _
    simp only [hcall]
    exact h.passed k hk hkv
  · intro ho
    exact absurd (hclosed.symm.trans ho) (by simp)

theorem ordered_step (hd : Distinct opts s) (ho : opts.ordered = true)
    (hstep : Step opts s a t) : ∃ w, Ordered opts t w := by
  have hwake : WakeInvariant (· = .returned true) := by simp [WakeInvariant]
  have htaken : ∀ e, inHand e = inHand s.emitter → s.emitted ++ inHand e = taken s := by
    intro e he
    rw [he, taken]
  cases hstep with
  | submit hidle _ _ => exact ⟨v, h.congr (update_iff (p := (· = .returned true)) (by simp [hidle])) rfl rfl rfl rfl rfl id⟩
  | submitFails hidle _ _ => exact ⟨v, h.congr (update_iff (p := (· = .returned true)) (by simp [hidle])) rfl rfl rfl rfl rfl id⟩
  | refuse hc _ => exact ⟨v, h.congr (update_iff (p := (· = .returned true)) (by simp [hc])) rfl rfl rfl rfl rfl id⟩
  | wait hc _ => exact ⟨v, h.congr (update_iff (p := (· = .returned true)) (by simp [hc])) rfl rfl rfl rfl rfl id⟩
  | enqueue hc hopen _ => exact ⟨v, h.enqueue hd ho hc hopen⟩
  | skip hfirst hlt hnew => exact h.skip hd ho hfirst hlt hnew _
  | close =>
    refine ⟨v, h.congr (fun r => wake_iff hwake (s.call r)) rfl rfl rfl (htaken _ (inHand_wake _)) rfl ?_⟩
    intro hc
    cases hc
  | wake => exact ⟨v, h.congr (fun r => wake_iff hwake (s.call r)) rfl rfl rfl (htaken _ (inHand_wake _)) rfl id⟩
  | take he htake hsig =>
    obtain ⟨rest, hh, hcase⟩ := takeReadyNode_some htake
    cases hcase with
    | inl hturn =>
      obtain ⟨_, hseq, rfl⟩ := hturn
      exact h.take_in_turn hd he hh hseq hsig
    | inr hclosed =>
      obtain ⟨hc, rfl⟩ := hclosed
      exact ⟨v, h.take_closed he hh (hc ho).2 hsig⟩
  | park he _ _ => exact ⟨v, h.congr (fun _ => Iff.rfl) rfl rfl rfl (htaken _ (by rw [he]; rfl)) rfl id⟩
  | exit he _ _ _ => exact ⟨v, h.congr (fun _ => Iff.rfl) rfl rfl rfl (htaken _ (by rw [he]; rfl)) rfl id⟩
  | emit he =>
    refine ⟨v, h.congr (fun _ => Iff.rfl) rfl rfl rfl ?_ rfl id⟩
    simp [taken, inHand, he]
  | dispose he => exact ⟨v, h.congr (fun _ => Iff.rfl) rfl rfl rfl (htaken _ (by rw [he]; rfl)) rfl id⟩
  | wakeProducer hc => exact ⟨v, h.congr (update_iff (p := (· = .returned true)) (by simp [hc])) rfl rfl rfl rfl rfl id⟩
  | wakeEmitter he => exact ⟨v, h.congr (fun _ => Iff.rfl) rfl rfl rfl (htaken _ (by rw [he]; rfl)) rfl id⟩

end

end

end Bx.OutputSink
