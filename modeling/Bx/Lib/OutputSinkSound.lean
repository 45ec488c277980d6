import Bx.Lib.OutputSinkOrder
import Mathlib.Data.List.Nodup

/-!
# Safety of the ordered output sink

Records are emitted in the order of their numbers, each of them once.
-/

namespace Bx.OutputSink

open Bx.Kit List

variable {Record : Type*}

/-! ## Bookkeeping -/

theorem skipSeq_sink (opts : Opts Record) (sink : Sink Record) (seq : Nat) (allocated : Bool) :
    ∃ skippedSeqs nextSeq, (skipSeq opts sink seq allocated).sink = { sink with skippedSeqs, nextSeq } := by
  unfold skipSeq
  by_cases ho : (!opts.ordered) = true
  · rw [if_pos ho]
    exact ⟨_, _, rfl⟩
  rw [if_neg ho]
  by_cases hlt : seq < sink.nextSeq
  · rw [if_pos hlt]
    exact ⟨_, _, rfl⟩
  rw [if_neg hlt]
  cases insertSkipped seq sink.skippedSeqs with
  | none => exact ⟨_, _, rfl⟩
  | some skipped => cases allocated <;> exact ⟨_, _, rfl⟩

theorem takeReadyNode_sink {opts : Opts Record} {sink sink' : Sink Record} {node : Node Record}
    (h : takeReadyNode opts sink = some (node, sink')) :
    ∃ rest skippedSeqs nextSeq, sink.head = node :: rest ∧
      sink' = { dropHead sink node rest with skippedSeqs, nextSeq } := by
  obtain ⟨rest, hh, hcase⟩ := takeReadyNode_some h
  cases hcase with
  | inl hturn => exact ⟨rest, _, _, hh, hturn.2.2⟩
  | inr hclosed => exact ⟨rest, _, _, hh, hclosed.2⟩

def undisposed : Emitter Record → List Record
  | .disposing node => [node.record]
  | _ => []

@[simp] theorem undisposed_wake (e : Emitter Record) : undisposed e.wake = undisposed e := by cases e <;> rfl

structure Books (opts : Opts Record) (s : State Record) : Prop where
  pending : s.sink.pending = s.sink.head.length
  pendingBytes : s.sink.pendingBytes = (s.sink.head.map (·.size)).sum
  awake : s.sink.closed = true → s.emitter ≠ .asleep
  exited : s.emitter = .exited → s.sink.closed = true ∧ s.sink.head = []
  disposed : if opts.disposeRecord then s.emitted = s.disposed ++ undisposed s.emitter else s.disposed = []

section
variable {opts : Opts Record} {s t : State Record}

theorem Books.congr (h : Books opts s) (hpending : t.sink.pending = s.sink.pending)
    (hbytes : t.sink.pendingBytes = s.sink.pendingBytes) (hhead : t.sink.head = s.sink.head)
    (hawake : t.sink.closed = true → t.emitter ≠ .asleep)
    (hexited : t.emitter = .exited → t.sink.closed = true ∧ t.sink.head = [])
    (hemitted : t.emitted = s.emitted) (hdisposed : t.disposed = s.disposed)
    (hun : undisposed t.emitter = undisposed s.emitter) : Books opts t := by
  refine ⟨?_, ?_, hawake, hexited, ?_⟩
  · rw [hpending, hhead]; exact h.pending
  · rw [hbytes, hhead]; exact h.pendingBytes
  · rw [hemitted, hdisposed, hun]; exact h.disposed

/-! ## Records on either side of the emitter -/

theorem Ordered.nodup {v : Nat} (h : Ordered opts s v) : (accepted s).Nodup :=
  List.Nodup.of_map opts.recordSeq (h.sorted.imp fun hlt => ne_of_lt hlt)

theorem emitted_sublist (s : State Record) : s.emitted.Sublist (accepted s) := by
  unfold accepted taken
  rw [append_assoc]
  exact sublist_append_left ..

theorem disposed_sublist (hb : Books opts s) : (s.disposed ++ leftovers opts s.sink).Sublist (accepted s) := by
  have hd := hb.disposed
  unfold leftovers
  by_cases hdis : opts.disposeRecord = true
  · rw [if_pos hdis] at hd ⊢
    unfold accepted taken
    rw [hd]
    apply List.Sublist.append_right
    rw [append_assoc]
    exact sublist_append_left ..
  · rw [if_neg hdis] at hd ⊢
    rw [hd]
    exact nil_sublist _

theorem emitted_gapless {v : Nat} (h : Ordered opts s v) (hopen : s.sink.closed = false) :
    ∃ w, s.emitted.map opts.recordSeq = unskipped s.skipped opts.firstSeq w := by
  have htaken := h.taken_eq hopen
  unfold taken at htaken
  cases he : s.emitter with
  | emitting node =>
    rw [he, inHand, map_append, map_singleton] at htaken
    exact ⟨_, unskipped_concat h.first_le htaken.symm⟩
  | ready => exact ⟨v, by simpa [he, inHand] using htaken⟩
  | asleep => exact ⟨v, by simpa [he, inHand] using htaken⟩
  | disposing _ => exact ⟨v, by simpa [he, inHand] using htaken⟩
  | exited => exact ⟨v, by simpa [he, inHand] using htaken⟩

theorem accepted_of_exited (hb : Books opts s) (he : s.emitter = .exited) :
    s.emitted = accepted s ∧ s.disposed ++ leftovers opts s.sink = if opts.disposeRecord then accepted s else [] := by
  have hnil := (hb.exited he).2
  have hacc : s.emitted = accepted s := by simp [accepted, taken, he, inHand, hnil]
  refine ⟨hacc, ?_⟩
  have hd := hb.disposed
  rw [he] at hd
  by_cases hdis : opts.disposeRecord = true
  · rw [if_pos hdis] at hd ⊢
    rw [← hacc, hd]
    simp [leftovers, undisposed, hnil]
  · rw [if_neg hdis] at hd ⊢
    rw [hd]
    simp [leftovers, hdis]

end

variable [DecidableEq Record]

section
variable {opts : Opts Record} {s t : State Record}

theorem books_step {a : Action Record} (h : Books opts s) (hstep : Step opts s a t) : Books opts t := by
  have hsame : ∀ e, e = s.emitter.wake ∨ e = s.emitter → undisposed e = undisposed s.emitter ∧
      (s.sink.closed = true → e ≠ .asleep) ∧ (e = .exited → s.sink.closed = true ∧ s.sink.head = []) := by
    intro e he
    cases he with
    | inl he => subst he; exact ⟨undisposed_wake _, fun _ => wake_ne_asleep _, fun hx => h.exited (wake_eq_exited.mp hx)⟩
    | inr he => subst he; exact ⟨rfl, h.awake, h.exited⟩
  cases hstep with
  | submit _ _ _ => exact ⟨h.pending, h.pendingBytes, h.awake, h.exited, h.disposed⟩
  | submitFails _ _ _ => exact ⟨h.pending, h.pendingBytes, h.awake, h.exited, h.disposed⟩
  | refuse _ _ => exact ⟨h.pending, h.pendingBytes, h.awake, h.exited, h.disposed⟩
  | wait _ _ => exact ⟨h.pending, h.pendingBytes, h.awake, h.exited, h.disposed⟩
  | @enqueue r _ hopen _ =>
    obtain ⟨hun, hawake, hexited⟩ := hsame _ (Or.inl rfl)
    have hperm := insertNode_perm opts.ordered (makeNode opts r) s.sink.head
    refine ⟨?_, ?_, hawake, fun hx => absurd ((hexited hx).1.symm.trans hopen) (by simp), ?_⟩
    · exact (congrArg (· + 1) h.pending).trans hperm.length_eq.symm
    · have hsum := (hperm.map (·.size)).sum_nat
      rw [map_cons, sum_cons] at hsum
      simp only [State.afterEnqueue, enqueue]
      rw [hsum, h.pendingBytes, Nat.add_comm]
    · simp only [State.afterEnqueue]
      rw [hun]
      exact h.disposed
  | @skip seq allocated _ _ _ =>
    obtain ⟨_, _, hsink⟩ := skipSeq_sink opts s.sink seq allocated
    have he : (s.afterSkip opts seq allocated).emitter = s.emitter.wake ∨
        (s.afterSkip opts seq allocated).emitter = s.emitter := by
      unfold State.afterSkip
      split
      · exact Or.inl rfl
      · exact Or.inr rfl
    obtain ⟨hun, hawake, hexited⟩ := hsame _ he
    apply h.congr <;> simp only [State.afterSkip, hsink] at *
    · exact hawake
    · exact hexited
    · exact hun
  | close =>
    obtain ⟨hun, _, hexited⟩ := hsame _ (Or.inl rfl)
    exact h.congr rfl rfl rfl (fun _ => wake_ne_asleep _) (fun hx => ⟨rfl, (hexited hx).2⟩) rfl rfl hun
  | wake =>
    obtain ⟨hun, hawake, hexited⟩ := hsame _ (Or.inl rfl)
    exact h.congr rfl rfl rfl hawake hexited rfl rfl hun
  | take he htake _ =>
    obtain ⟨rest, _, _, hh, rfl⟩ := takeReadyNode_sink htake
    have hp := h.pending
    have hb := h.pendingBytes
    rw [hh] at hp hb
    rw [map_cons, sum_cons] at hb
    refine ⟨?_, ?_, fun _ => by simp [State.afterTake], by simp [State.afterTake], ?_⟩
    · simp [State.afterTake, dropHead, hp]
    · simp [State.afterTake, dropHead, hb]
    · have hd := h.disposed
      rw [he] at hd
      exact hd
  | park he htake hnot =>
    refine h.congr rfl rfl rfl (fun hc => ?_) (by simp) rfl rfl (by rw [he]; rfl)
    cases takeReadyNode_none htake with
    | inl hnil => exact absurd ⟨hc, by rw [h.pending, hnil]; rfl⟩ hnot
    | inr hopen => exact absurd (hopen.1.symm.trans hc) (by simp)
  | exit he _ hc hp =>
    refine h.congr rfl rfl rfl (by simp) (fun _ => ⟨hc, ?_⟩) rfl rfl (by rw [he]; rfl)
    exact length_eq_zero_iff.mp (h.pending ▸ hp)
  | @emit node he =>
    refine ⟨h.pending, h.pendingBytes, by simp, by simp, ?_⟩
    have hd := h.disposed
    rw [he] at hd
    by_cases hdis : opts.disposeRecord = true <;> simpa [hdis, undisposed] using hd
  | @dispose node he =>
    refine ⟨h.pending, h.pendingBytes, by simp, by simp, ?_⟩
    have hd := h.disposed
    rw [he] at hd
    by_cases hdis : opts.disposeRecord = true <;> simpa [hdis, undisposed] using hd
  | wakeProducer _ => exact ⟨h.pending, h.pendingBytes, h.awake, h.exited, h.disposed⟩
  | wakeEmitter he => exact h.congr rfl rfl rfl (by simp) (by simp) rfl rfl (by rw [he]; rfl)

theorem reachable_distinct (h : Reachable (system opts) s) : Distinct opts s := by
  apply h.invariant
  · rintro s rfl
    exact ⟨fun r hr => absurd rfl hr, fun r _ hr => absurd rfl hr, by simp [initial], fun r hr => absurd rfl hr⟩
  · exact fun s a t _ hs hstep => distinct_step hs hstep

theorem reachable_books (h : Reachable (system opts) s) : Books opts s := by
  apply h.invariant
  · rintro s rfl
    refine ⟨rfl, rfl, by simp [initial], by simp [initial], ?_⟩
    simp [initial, undisposed]
  · exact fun s a t _ hs hstep => books_step hs hstep

theorem reachable_ordered (ho : opts.ordered = true) (h : Reachable (system opts) s) : ∃ v, Ordered opts s v := by
  apply h.invariant
  · rintro s rfl
    refine ⟨opts.firstSeq, (Nat.mod_eq_of_lt opts.firstSeq_lt).symm, le_rfl, le_of_lt opts.firstSeq_lt,
      by simp [initial], List.Pairwise.nil, by simp [initial], by simp [initial], List.Pairwise.nil, ?_, ?_, ?_⟩
    · simp [initial, accepted, taken, inHand]
    · intro k hk hlt
      exact absurd hlt (Nat.not_lt.mpr hk)
    · simp [initial, taken, inHand, unskipped]
  · intro s a t hr h hstep
    obtain ⟨v, hv⟩ := h
    exact ordered_step hv (reachable_distinct hr) ho hstep

/-! ## After the close -/

def remaining (s : State Record) : Nat :=
  match s.emitter with
  | .ready | .asleep => 3 * s.sink.head.length + 1
  | .emitting _ => 3 * s.sink.head.length + 3
  | .disposing _ => 3 * s.sink.head.length + 2
  | .exited => 0

theorem remaining_step {a : Action Record} (hb : Books opts s) (hc : s.sink.closed = true) (hstep : Step opts s a t) :
    t.sink.closed = true ∧ remaining t ≤ remaining s ∧ (a.isEmitter = true → remaining t < remaining s) := by
  have hwake : ∀ e, e = s.emitter.wake ∨ e = s.emitter → remaining { s with emitter := e } = remaining s := by
    rintro e (rfl | rfl)
    · cases he : s.emitter <;> simp [remaining, Emitter.wake, he]
    · rfl
  cases hstep with
  | submit _ _ _ => exact ⟨hc, le_rfl, by simp [Action.isEmitter]⟩
  | submitFails _ _ _ => exact ⟨hc, le_rfl, by simp [Action.isEmitter]⟩
  | refuse _ _ => exact ⟨hc, le_rfl, by simp [Action.isEmitter]⟩
  | wait _ _ => exact ⟨hc, le_rfl, by simp [Action.isEmitter]⟩
  | enqueue _ hopen _ => exact absurd (hc.symm.trans hopen) (by simp)
  | @skip seq allocated _ _ _ =>
    obtain ⟨_, _, hsink⟩ := skipSeq_sink opts s.sink seq allocated
    have hle : remaining (s.afterSkip opts seq allocated) = remaining s := by
      refine Eq.trans ?_ (hwake (s.afterSkip opts seq allocated).emitter ?_)
      · simp [remaining, State.afterSkip, hsink]
      · unfold State.afterSkip
        split
        · exact Or.inl rfl
        · exact Or.inr rfl
    refine ⟨?_, le_of_eq hle, by simp [Action.isEmitter]⟩
    simp [State.afterSkip, hsink, hc]
  | close => exact ⟨rfl, le_of_eq (hwake _ (Or.inl rfl)), by simp [Action.isEmitter]⟩
  | wake => exact ⟨hc, le_of_eq (hwake _ (Or.inl rfl)), by simp [Action.isEmitter]⟩
  | take he htake _ =>
    obtain ⟨rest, _, _, hh, rfl⟩ := takeReadyNode_sink htake
    have hlt : 3 * rest.length + 3 < 3 * (rest.length + 1) + 1 := by omega
    have hrem : remaining s = 3 * (rest.length + 1) + 1 := by simp [remaining, he, hh]
    exact ⟨hc, le_of_lt (hrem ▸ hlt), fun _ => hrem ▸ hlt⟩
  | park he htake hnot => exact absurd rfl ((books_step hb (.park he htake hnot)).awake hc)
  | exit he _ _ _ =>
    have hrem : 0 < remaining s := by simp [remaining, he]
    exact ⟨hc, Nat.zero_le _, fun _ => hrem⟩
  | emit he =>
    have hrem : remaining s = 3 * s.sink.head.length + 3 := by simp [remaining, he]
    have hlt : 3 * s.sink.head.length + 2 < remaining s := by omega
    exact ⟨hc, le_of_lt hlt, fun _ => hlt⟩
  | dispose he =>
    have hrem : remaining s = 3 * s.sink.head.length + 2 := by simp [remaining, he]
    have hlt : 3 * s.sink.head.length + 1 < remaining s := by omega
    exact ⟨hc, le_of_lt hlt, fun _ => hlt⟩
  | wakeProducer _ => exact ⟨hc, le_rfl, by simp [Action.isEmitter]⟩
  | wakeEmitter he => exact absurd he (hb.awake hc)

theorem emitter_enabled (hb : Books opts s) (hc : s.sink.closed = true) (he : s.emitter ≠ .exited) :
    ∃ a t, a.isEmitter = true ∧ Step opts s a t := by
  cases hem : s.emitter with
  | exited => exact absurd hem he
  | asleep => exact absurd hem (hb.awake hc)
  | emitting node => exact ⟨.emit, _, rfl, .emit hem⟩
  | disposing node => exact ⟨.dispose, _, rfl, .dispose hem⟩
  | ready =>
    cases htake : takeReadyNode opts s.sink with
    | none =>
      by_cases hp : s.sink.pending = 0
      · exact ⟨.exit, _, rfl, .exit hem htake hc hp⟩
      · exact ⟨.park, _, rfl, .park hem htake fun h => hp h.2⟩
    | some taken =>
      by_cases hsleep : ∃ r, s.call r = .asleep
      · obtain ⟨r, hr⟩ := hsleep
        exact ⟨.take, _, rfl, .take hem htake (.one hr)⟩
      · exact ⟨.take, _, rfl, .take hem htake (.nobody fun r hr => hsleep ⟨r, hr⟩)⟩

theorem emitter_exits {as : List (Action Record)} (hr : Reachable (system opts) s) (hc : s.sink.closed = true)
    (hrun : Run (system opts) s as t) (hn : remaining s ≤ as.countP Action.isEmitter) : t.emitter = .exited := by
  have hle := hrun.measure_le (P := fun s => Books opts s ∧ s.sink.closed = true) remaining Action.isEmitter
    ⟨reachable_books hr, hc⟩ (fun s a t h hst => ⟨books_step h.1 hst, (remaining_step h.1 h.2 hst).1⟩)
    (fun s a t h hst => (remaining_step h.1 h.2 hst).2.2) (fun s a t h hst => (remaining_step h.1 h.2 hst).2.1)
  have hzero : remaining t = 0 := by omega
  unfold remaining at hzero
  cases he : t.emitter with
  | exited => rfl
  | ready => rw [he] at hzero; simp at hzero
  | asleep => rw [he] at hzero; simp at hzero
  | emitting _ => rw [he] at hzero; simp at hzero
  | disposing _ => rw [he] at hzero; simp at hzero

/-! ## Safety -/

structure Safe (opts : Opts Record) (s : State Record) : Prop where
  gapless : s.sink.closed = false → ∃ v, s.emitted.map opts.recordSeq = unskipped s.skipped opts.firstSeq v
  increasing : (s.emitted.map opts.recordSeq).Pairwise (· < ·)
  rejected : ∀ r, s.call r ≠ .returned true → r ∉ s.emitted ∧ r ∉ s.disposed ++ leftovers opts s.sink
  once : ∀ r, s.emitted.count r ≤ 1 ∧ (s.disposed ++ leftovers opts s.sink).count r ≤ 1
  complete : s.emitter = .exited → ∀ r, s.call r = .returned true → s.emitted.count r = 1 ∧
    (s.disposed ++ leftovers opts s.sink).count r = if opts.disposeRecord then 1 else 0
  enabled : s.sink.closed = true → s.emitter ≠ .exited → ∃ a t, a.isEmitter = true ∧ Step opts s a t
  exits : s.sink.closed = true → ∀ as t, Run (system opts) s as t → remaining s ≤ as.countP Action.isEmitter →
    t.emitter = .exited

/-- **Safety of the ordered sink**, in every state of every run. -/
theorem ordered_sink_safe (ho : opts.ordered = true) (h : Reachable (system opts) s) : Safe opts s := by
  obtain ⟨v, hv⟩ := reachable_ordered ho h
  have hb := reachable_books h
  have hin : ∀ r, s.call r ≠ .returned true → r ∉ accepted s := fun r hr hm => hr ((hv.mem_accepted r).mp hm)
  have hcount : ∀ {l : List Record}, l.Sublist (accepted s) → ∀ r, l.count r ≤ 1 := fun hl r =>
    nodup_iff_count_le_one.mp (hv.nodup.sublist hl) r
  refine ⟨emitted_gapless hv, ?_, ?_, ?_, ?_, emitter_enabled hb, fun hc as t hrun => emitter_exits h hc hrun⟩
  · exact hv.sorted.sublist ((emitted_sublist s).map _)
  · intro r hr
    exact ⟨fun hm => hin r hr ((emitted_sublist s).subset hm), fun hm => hin r hr ((disposed_sublist hb).subset hm)⟩
  · intro r
    exact ⟨hcount (emitted_sublist s) r, hcount (disposed_sublist hb) r⟩
  · intro he r hr
    obtain ⟨hemitted, hdisposed⟩ := accepted_of_exited hb he
    have hone : (accepted s).count r = 1 :=
      count_eq_one_of_mem hv.nodup ((hv.mem_accepted r).mpr hr)
    rw [hemitted, hdisposed]
    refine ⟨hone, ?_⟩
    by_cases hdis : opts.disposeRecord = true
    · rw [if_pos hdis, if_pos hdis]
      exact hone
    · rw [if_neg hdis, if_neg hdis]
      rfl

end

def twoRecords (maxPending : Nat) (h : 0 < maxPending) : Opts Bool :=
  { maxPending
    maxPendingBytes := 0
    firstSeq := 0
    ordered := true
    recordSeq := Bool.toNat
    recordSize := fun _ => 0
    disposeRecord := true
    maxPending_pos := h
    firstSeq_lt := by decide
    recordSeq_lt := by decide }

/-- The record numbered 1 comes first and is still emitted second. -/
theorem ordered_sink_safe_out_of_order : ∃ s, Reachable (system (twoRecords 2 (by decide))) s ∧
    s.call true = .returned true ∧ s.emitted = [false] ∧ Safe (twoRecords 2 (by decide)) s := by
  have h0 : Reachable (system (twoRecords 2 (by decide))) (initial _) := .init rfl
  have h1 := h0.step (Step.submit (r := true) rfl (Nat.zero_le _) (by simp [initial]))
  have h2 := h1.step (Step.enqueue (r := true) rfl rfl rfl)
  have h3 := h2.step (Step.submit (r := false) rfl (Nat.zero_le _) (by decide))
  have h4 := h3.step (Step.enqueue (r := false) rfl rfl rfl)
  have h5 := h4.step (Step.take rfl rfl (.nobody (by decide)))
  have h6 := h5.step (Step.emit rfl)
  exact ⟨_, h6, rfl, rfl, ordered_sink_safe rfl h6⟩

end Bx.OutputSink
