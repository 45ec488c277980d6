import Bx.Lib.OutputSinkSound
import Mathlib.Algebra.Order.BigOperators.Group.List
import Mathlib.Algebra.Order.Group.Nat

/-!
# Capacity of the ordered output sink

The queue can fill up with records whose turn has not come, and then the record whose turn it is cannot get in. While
every record queued ahead of its turn leaves room for the outstanding ones before it, it fits.
-/

namespace Bx.OutputSink

open Bx.Kit

variable {Record : Type*}

/-! ## Deadlock -/

/-- The emitter sleeps for want of the next record, and the producer of that
very record sleeps for want of capacity. -/
def CapacityDeadlock (opts : Opts Record) (s : State Record) : Prop :=
  s.sink.closed = false ∧ s.emitter = .asleep ∧ (∀ n ∈ s.sink.head, n.seq ≠ s.sink.nextSeq) ∧
    ∃ r, opts.recordSeq r = s.sink.nextSeq ∧ s.call r = .asleep ∧ mustWait opts s.sink (makeNode opts r) = true

def Outstanding (opts : Opts Record) (s : State Record) (r : Record) : Prop :=
  s.call r = .idle ∧ opts.firstSeq ≤ opts.recordSeq r ∧ opts.recordSeq r ∉ s.used ∨
    s.call r = .calling ∨ s.call r = .asleep

def FitsBeside (opts : Opts Record) (nodes : List (Node Record)) (r : Record) : Prop :=
  nodes.length < opts.maxPending ∧
    (opts.maxPendingBytes = 0 ∨
      canAdd (nodes.map (·.size)).sum (makeNode opts r).size opts.maxPendingBytes = true)

def queuedAfter (opts : Opts Record) (s : State Record) (r : Record) : List (Node Record) :=
  s.sink.head.filter fun n => opts.recordSeq r < n.seq

def LeavesRoom (opts : Opts Record) (s : State Record) (a : Action Record) : Prop :=
  ∀ r, a = .lock r → s.sink.closed = false → mustWait opts s.sink (makeNode opts r) = false →
    ∀ r', Outstanding opts s r' → opts.recordSeq r' < opts.recordSeq r →
      FitsBeside opts (makeNode opts r :: queuedAfter opts s r') r'

/-! ## Room for the outstanding records -/

theorem canAdd_mono {current current' amount limit : Nat} (h : current' ≤ current)
    (hadd : canAdd current amount limit = true) : canAdd current' amount limit = true := by
  unfold canAdd at hadd ⊢
  by_cases h1 : limit = 0 ∨ amount = 0
  · rw [if_pos h1]
  rw [if_neg h1] at hadd ⊢
  by_cases h2 : amount > limit
  · rw [if_pos h2, decide_eq_true_iff] at hadd ⊢
    omega
  · rw [if_neg h2, decide_eq_true_iff] at hadd ⊢
    omega

variable {nodes nodes' : List (Node Record)} {r : Record}

theorem FitsBeside.mono {opts : Opts Record} (h : FitsBeside opts nodes r) (hlen : nodes'.length ≤ nodes.length)
    (hsum : (nodes'.map (·.size)).sum ≤ (nodes.map (·.size)).sum) : FitsBeside opts nodes' r :=
  ⟨lt_of_le_of_lt hlen h.1, h.2.imp_right (canAdd_mono hsum)⟩

theorem FitsBeside.perm {opts : Opts Record}
    (h : FitsBeside opts nodes r) (hp : nodes'.Perm nodes) : FitsBeside opts nodes' r :=
  h.mono (le_of_eq hp.length_eq) (le_of_eq (hp.map _).sum_nat)

theorem FitsBeside.sublist {opts : Opts Record}
    (h : FitsBeside opts nodes r) (hs : nodes'.Sublist nodes) : FitsBeside opts nodes' r :=
  h.mono hs.length_le ((hs.map _).sum_le_sum fun _ _ => Nat.zero_le _)

theorem Outstanding.of_call {opts : Opts Record} {s t : State Record} (h : Outstanding opts t r) (hused : t.used = s.used)
    (hidle : t.call r = .idle → s.call r = .idle)
    (hpending : t.call r = .calling ∨ t.call r = .asleep → s.call r = .calling ∨ s.call r = .asleep) :
    Outstanding opts s r :=
  h.imp (fun hi => ⟨hidle hi.1, hi.2.1, hused ▸ hi.2.2⟩) hpending

theorem Outstanding.of_wake {opts : Opts Record} {s t : State Record} (h : Outstanding opts t r) (hused : t.used = s.used)
    (hcall : ∀ p : Call → Prop, WakeInvariant p → (p (t.call r) ↔ p (s.call r))) : Outstanding opts s r :=
  h.of_call hused (hcall (· = .idle) (by simp [WakeInvariant])).mp
    (hcall (fun c => c = .calling ∨ c = .asleep) (by simp [WakeInvariant])).mp

variable [DecidableEq Record]

section
variable {opts : Opts Record} {s t : State Record} {a : Action Record}

variable {c : Call}

variable {r' : Record}

theorem update_imp {p : Call → Prop} {call : Record → Call} (h : p c → p (call r))
    (hp : p (Function.update call r c r')) : p (call r') := by
  by_cases e : r' = r
  · subst e
    rw [Function.update_self] at hp
    exact h hp
  · rwa [Function.update_of_ne e] at hp

theorem Outstanding.of_update (h : Outstanding opts t r) (hused : t.used = s.used)
    (hc : c ≠ .idle) (hcall : t.call = Function.update s.call r' c)
    (hr' : s.call r' = .calling ∨ s.call r' = .asleep) : Outstanding opts s r := by
  apply h.of_call hused
  · rw [hcall]
    exact update_imp (p := (· = .idle)) fun e => absurd e hc
  · rw [hcall]
    exact update_imp (p := fun c => c = .calling ∨ c = .asleep) fun _ => hr'

theorem Outstanding.of_submit (h : Outstanding opts t r)
    (hused : t.used = opts.recordSeq r' :: s.used) (hcall : t.call = Function.update s.call r' c)
    (hidle : s.call r' = .idle) (hfirst : opts.firstSeq ≤ opts.recordSeq r') (hnew : opts.recordSeq r' ∉ s.used) :
    Outstanding opts s r := by
  by_cases e : r = r'
  · subst e
    exact Or.inl ⟨hidle, hfirst, hnew⟩
  · unfold Outstanding at h
    rw [hcall, hused, Function.update_of_ne e] at h
    exact h.imp_left fun hi => ⟨hi.1, hi.2.1, fun hm => hi.2.2 (List.mem_cons_of_mem _ hm)⟩

theorem outstanding_step (hstep : Step opts s a t) (h : Outstanding opts t r) : Outstanding opts s r := by
  cases hstep with
  | submit hidle hfirst hnew => exact h.of_submit rfl rfl hidle hfirst hnew
  | submitFails hidle hfirst hnew => exact h.of_submit rfl rfl hidle hfirst hnew
  | refuse hc _ => exact h.of_update rfl (by simp) rfl (Or.inl hc)
  | wait hc _ => exact h.of_update rfl (by simp) rfl (Or.inl hc)
  | enqueue hc _ _ => exact h.of_update rfl (by simp) rfl (Or.inl hc)
  | skip _ _ _ => exact h.imp_left fun hi => ⟨hi.1, hi.2.1, fun hm => hi.2.2 (List.mem_cons_of_mem _ hm)⟩
  | close => exact h.of_wake rfl fun p hp => wake_iff hp (s.call r)
  | wake => exact h.of_wake rfl fun p hp => wake_iff hp (s.call r)
  | take _ _ hsig => exact h.of_wake rfl fun p hp => signalled_iff hp hsig r
  | park _ _ _ => exact h
  | exit _ _ _ _ => exact h
  | emit _ => exact h
  | dispose _ => exact h
  | wakeProducer hc => exact h.of_update rfl (by simp) rfl (Or.inr hc)
  | wakeEmitter _ => exact h

theorem head_step (hstep : Step opts s a t) : t.sink.head.Sublist s.sink.head ∨
    ∃ r, a = .lock r ∧ s.sink.closed = false ∧ mustWait opts s.sink (makeNode opts r) = false ∧
      t.sink.head = insertNode opts.ordered (makeNode opts r) s.sink.head := by
  cases hstep with
  | @enqueue r _ hopen hroom => exact Or.inr ⟨r, rfl, hopen, hroom, rfl⟩
  | @skip seq allocated _ _ _ =>
    obtain ⟨_, _, hsink⟩ := skipSeq_sink opts s.sink seq allocated
    refine Or.inl ?_
    simp [State.afterSkip, hsink]
  | take _ htake _ =>
    obtain ⟨rest, _, _, hh, rfl⟩ := takeReadyNode_sink htake
    refine Or.inl ?_
    rw [hh]
    exact List.sublist_cons_self _ rest
  | submit _ _ _ => exact Or.inl (List.Sublist.refl _)
  | submitFails _ _ _ => exact Or.inl (List.Sublist.refl _)
  | refuse _ _ => exact Or.inl (List.Sublist.refl _)
  | wait _ _ => exact Or.inl (List.Sublist.refl _)
  | close => exact Or.inl (List.Sublist.refl _)
  | wake => exact Or.inl (List.Sublist.refl _)
  | park _ _ _ => exact Or.inl (List.Sublist.refl _)
  | exit _ _ _ _ => exact Or.inl (List.Sublist.refl _)
  | emit _ => exact Or.inl (List.Sublist.refl _)
  | dispose _ => exact Or.inl (List.Sublist.refl _)
  | wakeProducer _ => exact Or.inl (List.Sublist.refl _)
  | wakeEmitter _ => exact Or.inl (List.Sublist.refl _)

theorem fits_step (hstep : Step opts s a t) (hroom : LeavesRoom opts s a)
    (h : ∀ r, Outstanding opts s r → FitsBeside opts (queuedAfter opts s r) r) :
    ∀ r, Outstanding opts t r → FitsBeside opts (queuedAfter opts t r) r := by
  intro r' hr'
  have hold := h r' (outstanding_step hstep hr')
  unfold queuedAfter
  cases head_step hstep with
  | inl hsub => exact hold.sublist (hsub.filter _)
  | inr hq =>
    obtain ⟨r, ha, hopen, hfree, hhead⟩ := hq
    have hp := (insertNode_perm opts.ordered (makeNode opts r) s.sink.head).filter fun n => opts.recordSeq r' < n.seq
    rw [← hhead] at hp
    by_cases hlt : opts.recordSeq r' < opts.recordSeq r
    · rw [List.filter_cons_of_pos (by simpa [makeNode] using hlt)] at hp
      exact (hroom r ha hopen hfree r' (outstanding_step hstep hr') hlt).perm hp
    · rw [List.filter_cons_of_neg (by simpa [makeNode] using hlt)] at hp
      exact hold.perm hp

theorem fits_of_leavesRoom (h : Reachable ((system opts).guarded (LeavesRoom opts)) s) :
    ∀ r, Outstanding opts s r → FitsBeside opts (queuedAfter opts s r) r := by
  apply h.invariant
  · rintro s rfl r _
    refine ⟨opts.maxPending_pos, Or.inr ?_⟩
    simp [queuedAfter, initial, canAdd]
  · exact fun s a t _ hs hstep => fits_step hstep.2 hstep.1 hs

end

/-- **No capacity deadlock** in a run in which every record queued leaves room
for the outstanding records before it. -/
theorem no_capacity_deadlock {opts : Opts Record} {s : State Record} (ho : opts.ordered = true)
    (h : Reachable ((system opts).guarded (LeavesRoom opts)) s) : ¬ CapacityDeadlock opts s := by
  rintro ⟨_, _, hnext, r, hr, hasleep, hwait⟩
  obtain ⟨v, hv⟩ := reachable_ordered ho h.of_guarded
  have hb := reachable_books h.of_guarded
  have hge := hv.ge_of_pending (reachable_distinct h.of_guarded) (r := r) (by simp [hasleep]) (by simp [hasleep])
  have hv' : opts.recordSeq r = v := by
    rw [hr, hv.next]
    exact Nat.mod_eq_of_lt (lt_of_le_of_lt hge (opts.recordSeq_lt r))
  -- the whole queue comes after the record whose turn it is
  have hall : queuedAfter opts s r = s.sink.head := by
    refine List.filter_eq_self.mpr ?_
    intro n hn
    have hne := hnext n hn
    have hle := hv.head_ge n hn
    rw [← hr] at hne
    exact decide_eq_true (by omega)
  obtain ⟨hcount, hbytes⟩ := fits_of_leavesRoom h r (Or.inr (Or.inr hasleep))
  rw [hall, ← hb.pending] at hcount
  rw [hall, ← hb.pendingBytes] at hbytes
  have hcap : hasByteCapacity opts s.sink (makeNode opts r) = true := by
    unfold hasByteCapacity
    rw [Bool.or_eq_true, decide_eq_true_iff]
    exact hbytes
  simp only [mustWait, hcap, Bool.not_true, Bool.or_false, Bool.and_eq_true, decide_eq_true_eq] at hwait
  exact absurd hwait.2 (Nat.not_le.mpr hcount)

theorem no_capacity_deadlock_two :
    ∃ s, Reachable ((system (twoRecords 2 (by decide))).guarded (LeavesRoom (twoRecords 2 (by decide)))) s ∧
      s.sink.head ≠ [] ∧ s.call false = .calling ∧ ¬ CapacityDeadlock (twoRecords 2 (by decide)) s := by
  have hsubmit : ∀ (s : State Bool) (a : Action Bool), (∀ r, a ≠ .lock r) → LeavesRoom (twoRecords 2 (by decide)) s a :=
    fun _ _ ha r e => absurd e (ha r)
  have h0 : Reachable ((system (twoRecords 2 (by decide))).guarded (LeavesRoom (twoRecords 2 (by decide))))
      (initial _) := .init rfl
  have h1 := h0.step ⟨hsubmit _ (.submit true) (by simp), Step.submit rfl (Nat.zero_le _) (by simp [initial])⟩
  have h2 := h1.step ⟨?_, Step.enqueue (r := true) rfl rfl rfl⟩
  · have h3 := h2.step ⟨hsubmit _ (.submit false) (by simp), Step.submit rfl (Nat.zero_le _) (by decide)⟩
    exact ⟨_, h3, by simp [State.afterEnqueue, enqueue, initial, insertNode], rfl, no_capacity_deadlock rfl h3⟩
  · rintro r ⟨⟩ _ _ r' _ _
    exact ⟨Nat.lt_succ_self 1, Or.inl rfl⟩

/-- With room for one, record 1 takes it and record 0 never gets in. -/
theorem later_record_fills_queue :
    ¬ ∀ (opts : Opts Bool) (s : State Bool), opts.ordered = true → Reachable (system opts) s →
      ¬ CapacityDeadlock opts s := by
  intro h
  have h0 : Reachable (system (twoRecords 1 (by decide))) (initial _) := .init rfl
  have h1 := h0.step (Step.submit (r := true) rfl (Nat.zero_le _) (by simp [initial]))
  have h2 := h1.step (Step.enqueue (r := true) rfl rfl rfl)
  have h3 := h2.step (Step.submit (r := false) rfl (Nat.zero_le _) (by decide))
  have h4 := h3.step (Step.wait (r := false) rfl rfl)
  have h5 := h4.step (Step.park rfl rfl (by decide))
  refine h _ _ rfl h5 ⟨rfl, rfl, ?_, false, rfl, rfl, rfl⟩
  simp [State.afterEnqueue, enqueue, initial, insertNode, makeNode, twoRecords]

end Bx.OutputSink
