import Bx.Lib.WorkPool
import Mathlib.Data.List.Perm.Subperm

/-!
# Job accounting of the work pool

Every job accepted is processed once by a worker or, if no worker ever started, disposed of once when the pool is
reclaimed.
-/

namespace Bx.WorkPool

open Bx.Kit List

variable {Job : Type*} {opts : Opts} {s t : State Job}

/-! ## Jobs -/

def Worker.inHand : Worker Job → Option Job
  | .processing job => some job
  | _ => none

def inHand (workers : List (Worker Job)) : List Job := workers.filterMap Worker.inHand

theorem Worker.inHand_wake (w : Worker Job) : w.wake.inHand = w.inHand := by cases w <;> rfl

structure Books (opts : Opts) (s : State Job) : Prop where
  ring : s.ring.Holds s.ring.toList
  capacity : s.ring.items.length = opts.queueCapacity
  accepted : s.accepted = s.taken ++ s.ring.toList
  taken : (s.processed ++ inHand s.workers).Perm s.taken

theorem Books.congr (h : Books opts s) (hring : t.ring = s.ring) (haccepted : t.accepted = s.accepted)
    (htaken : t.taken = s.taken) (hprocessed : t.processed = s.processed) (hhand : inHand t.workers = inHand s.workers) :
    Books opts t := by
  refine ⟨?_, ?_, ?_, ?_⟩
  · rw [hring]; exact h.ring
  · rw [hring]; exact h.capacity
  · rw [haccepted, htaken, hring]; exact h.accepted
  · rw [hprocessed, htaken, hhand]; exact h.taken

theorem refuses_eq_false : refuses opts s = false ↔ s.closed = false ∧ s.failed = false ∧ cancelled opts s = false := by
  unfold refuses
  rw [Bool.or_eq_false_iff, Bool.or_eq_false_iff, and_assoc]

section
variable (h : Books opts s)
include h

theorem not_full (hwait : mustWait opts s = false) (hrefuse : refuses opts s = false) :
    s.ring.count < s.ring.items.length := by
  have hle := h.ring.length_le
  rw [← h.ring.count_eq] at hle
  refine lt_of_le_of_ne hle fun e => ?_
  rw [h.capacity] at e
  obtain ⟨hclosed, hfailed, hcancelled⟩ := refuses_eq_false.mp hrefuse
  simp [mustWait, e, hclosed, hfailed, hcancelled] at hwait

theorem Books.push {i : Nat} {job : Job} {workers : List (Worker Job)}
    (hroom : s.ring.count < s.ring.items.length) (hhand : inHand workers = inHand s.workers) :
    Books opts (s.afterPush i job workers) := by
  have hring := h.ring.push hroom job
  have hlist : (s.ring.push job).toList = s.ring.toList ++ [job] := hring.toList_eq
  refine ⟨?_, ?_, ?_, ?_⟩
  · show (s.ring.push job).Holds (s.ring.push job).toList
    rw [hlist]
    exact hring
  · show (s.ring.items.set _ _).length = opts.queueCapacity
    rw [length_set]
    exact h.capacity
  · show s.accepted ++ [job] = s.taken ++ (s.ring.push job).toList
    rw [hlist, h.accepted, append_assoc]
  · show (s.processed ++ inHand workers).Perm s.taken
    rw [hhand]
    exact h.taken

theorem Books.pop {i : Nat} {job : Job} {producers : List (Producer Job)}
    (hi : s.workers[i]? = some .ready) (hcount : s.ring.count ≠ 0) (hjob : s.ring.pop.1 = some job) :
    (∃ q, s.ring.toList = job :: q ∧ s.ring.pop.2.toList = q) ∧ Books opts (s.afterPop i job producers) := by
  have hring := h.ring
  cases hq : s.ring.toList with
  | nil =>
    rw [hring.count_eq, hq] at hcount
    exact absurd rfl hcount
  | cons first q =>
    rw [hq] at hring
    obtain ⟨hfirst, hrest⟩ := hring.pop
    rw [hjob] at hfirst
    cases hfirst
    refine ⟨⟨q, rfl, hrest.toList_eq⟩, ?_, ?_, ?_, ?_⟩
    · show s.ring.pop.2.Holds s.ring.pop.2.toList
      rw [hrest.toList_eq]
      exact hrest
    · show (s.ring.items.set _ _).length = opts.queueCapacity
      rw [length_set]
      exact h.capacity
    · show s.accepted = s.taken ++ [job] ++ s.ring.pop.2.toList
      rw [h.accepted, hq, hrest.toList_eq, append_assoc]
      rfl
    · show (s.processed ++ inHand (s.workers.set i (.processing job))).Perm (s.taken ++ [job])
      have hset : (inHand (s.workers.set i (.processing job))).Perm ([job] ++ inHand s.workers) :=
        filterMap_set_perm Worker.inHand hi
      refine (List.Perm.append_left _ hset).trans ?_
      refine (perm_append_comm_assoc _ _ _).trans ?_
      exact (List.Perm.append_left _ h.taken).trans perm_append_comm

theorem Books.exists_job (hcount : s.ring.count ≠ 0) : ∃ job, s.ring.pop.1 = some job := by
  cases hq : s.ring.toList with
  | nil =>
    rw [h.ring.count_eq, hq] at hcount
    exact absurd rfl hcount
  | cons job q => exact ⟨job, (hq ▸ h.ring).pop.1⟩

theorem Books.process {i : Nat} {job : Job} (hi : s.workers[i]? = some (.processing job)) :
    Books opts { s with workers := s.workers.set i .ready, processed := s.processed ++ [job] } := by
  refine ⟨h.ring, h.capacity, h.accepted, ?_⟩
  show (s.processed ++ [job] ++ inHand (s.workers.set i .ready)).Perm s.taken
  have hset : ([job] ++ inHand (s.workers.set i .ready)).Perm (inHand s.workers) :=
    filterMap_set_perm Worker.inHand hi
  rw [append_assoc]
  exact (List.Perm.append_left _ hset).trans h.taken

theorem Books.workers {i : Nat} {w w' : Worker Job} (hi : s.workers[i]? = some w)
    (hw : w'.inHand = w.inHand) : Books opts { s with workers := s.workers.set i w' } :=
  h.congr rfl rfl rfl rfl (filterMap_set_eq hi hw)

theorem Books.broadcast : Books opts s.broadcast :=
  h.congr rfl rfl rfl rfl (CondVar.broadcast_filterMap_eq Worker.inHand_wake)

end

variable {i : Nat} {a : Action Job}

theorem broadcast_starting (hi : s.workers[i]? = some .starting) : s.broadcast.workers[i]? = some .starting := by
  show (s.workers.map Worker.wake)[i]? = _
  rw [getElem?_map, hi]
  rfl

theorem books_step (h : Books opts s) (hstep : Step opts s a t) : Books opts t := by
  cases hstep with
  | submit | wait | refuse | wakeProducer | cancel | reclaim => exact h.congr rfl rfl rfl rfl rfl
  | push _ _ hwait hrefuse hworkers =>
    apply h.push (not_full h hwait hrefuse)
    split_ifs at hworkers
    · exact hworkers.filterMap_eq Worker.inHand_wake
    · rw [hworkers]
  | close | wake => exact h.broadcast.congr rfl rfl rfl rfl rfl
  | @initFails i hi _ =>
    refine h.congr rfl rfl rfl rfl ?_
    show inHand (s.broadcast.workers.set i .exited) = inHand s.workers
    have hone : (.exited : Worker Job).inHand = Worker.starting.inHand := rfl
    exact (filterMap_set_eq (broadcast_starting hi) hone).trans (CondVar.broadcast_filterMap_eq Worker.inHand_wake)
  | initOk hi | park hi _ _ | exit hi _ _ | wakeWorker hi => exact h.workers hi rfl
  | pop hi hcount hjob _ => exact (h.pop hi hcount hjob).2
  | process hi => exact h.process hi

theorem reachable_books (h : Reachable (system opts Job) s) : Books opts s := by
  refine h.invariant ?_ fun _ _ _ _ hs hstep => books_step hs hstep
  intro s ⟨n, hs⟩
  subst hs
  have hring := RingBuffer.empty_holds (α := Job) opts.queueCapacity_pos
  refine ⟨?_, ?_, ?_, ?_⟩
  · rw [hring.toList_eq]
    exact hring
  · exact length_replicate
  · show [] = [] ++ (RingBuffer.empty opts.queueCapacity : RingBuffer Job).toList
    rw [hring.toList_eq]
    rfl
  · show (inHand (replicate opts.threadCount .starting)).Perm []
    rw [inHand, filterMap_replicate_of_none rfl]

/-! ## Workers -/

/-- The worker has got through its `worker_init`, and has not left its loop. -/
def Worker.isStarted : Worker Job → Bool
  | .ready | .asleep | .processing _ => true
  | _ => false

def Worker.isAwake : Worker Job → Bool
  | .starting | .ready | .processing _ => true
  | _ => false

theorem Worker.wake_asleep (w : Worker Job) : w.wake.isAsleep = false := by cases w <;> rfl

variable {w : Worker Job}

theorem Worker.wake_started (h : w.isStarted = true) : w.wake.isStarted = true := by
  cases w <;> first | rfl | exact h

theorem Worker.wake_awake (h : w.isAwake = true) : w.wake.isAwake = true := by
  cases w <;> first | rfl | exact h

theorem exited_or_awake {workers : List (Worker Job)} (h : ∀ w ∈ workers, w.isAsleep = false) :
    (∀ w ∈ workers, w = .exited) ∨ ∃ w ∈ workers, w.isAwake = true := by
  by_cases he : ∀ w ∈ workers, w = .exited
  · exact Or.inl he
  · push Not at he
    obtain ⟨w, hw, hne⟩ := he
    refine Or.inr ⟨w, hw, ?_⟩
    have hawake := h w hw
    cases w with
    | exited => exact absurd rfl hne
    | asleep => cases hawake
    | starting | ready | processing _ => rfl

theorem broadcast_not_asleep (s : State Job) : ∀ w ∈ s.broadcast.workers, w.isAsleep = false := by
  intro w hw
  obtain ⟨v, _, rfl⟩ := mem_map.mp hw
  exact v.wake_asleep

structure Lively (s : State Job) : Prop where
  roused : s.closed = true → ∀ w ∈ s.workers, w.isAsleep = false
  /-- Only workers that start turn the ring, and they leave it empty. -/
  turned : (s.ring.head = 0 ∧ s.taken = []) ∨ (∃ w ∈ s.workers, w.isStarted = true) ∨ (s.closed = true ∧ s.ring.toList = [])
  noticed : s.ring.toList ≠ [] → (∀ w ∈ s.workers, w = .exited) ∨ ∃ w ∈ s.workers, w.isAwake = true

theorem Lively.congr (h : Lively s) (hring : t.ring = s.ring) (hclosed : t.closed = s.closed) (htaken : t.taken = s.taken)
    (hworkers : t.workers = s.workers) : Lively t := by
  refine ⟨?_, ?_, ?_⟩
  · rw [hclosed, hworkers]; exact h.roused
  · rw [hring, hclosed, htaken, hworkers]; exact h.turned
  · rw [hring, hworkers]; exact h.noticed

theorem Lively.broadcast (h : Lively s) (closed : Bool) (hclosed : s.closed = true → closed = true) :
    Lively { s.broadcast with closed } := by
  have hnone := broadcast_not_asleep s
  refine ⟨fun _ => hnone, ?_, fun _ => exited_or_awake hnone⟩
  cases h.turned with
  | inl h0 => exact Or.inl h0
  | inr h =>
    cases h with
    | inl hs => exact Or.inr (Or.inl (CondVar.broadcast_exists_mem (fun _ => Worker.wake_started) hs))
    | inr hc => exact Or.inr (Or.inr ⟨hclosed hc.1, hc.2⟩)

theorem Lively.set (h : Lively s) {w w' : Worker Job} (hi : s.workers[i]? = some w)
    (hasleep : w'.isAsleep = true → s.closed = false)
    (hstarted : w.isStarted = true → w'.isStarted = true ∨ (s.closed = true ∧ s.ring.toList = []))
    (hawake : w'.isAwake = true ∨ s.ring.toList = []) : Lively { s with workers := s.workers.set i w' } := by
  refine ⟨?_, ?_, ?_⟩
  · intro hc
    refine forall_mem_set (h.roused hc) ?_
    cases ha : w'.isAsleep with
    | false => rfl
    | true => exact absurd (hasleep ha) (by rw [show s.closed = true from hc]; exact Bool.noConfusion)
  · cases h.turned with
    | inl h0 => exact Or.inl h0
    | inr h =>
      cases h with
      | inr hc => exact Or.inr (Or.inr hc)
      | inl hs =>
        by_cases hempty : s.closed = true ∧ s.ring.toList = []
        · exact Or.inr (Or.inr hempty)
        · exact Or.inr (Or.inl (exists_mem_set hi hs fun hw => (hstarted hw).resolve_right hempty))
  · intro hne
    cases hawake with
    | inl ha => exact Or.inr ⟨w', mem_set_of_getElem? hi, ha⟩
    | inr he => exact absurd he hne

theorem Lively.push (h : Lively s) (hb : Books opts s) {i : Nat} {job : Job} {workers : List (Worker Job)}
    (hrefuse : refuses opts s = false)
    (hworkers : if s.ring.count + 1 ≤ opts.threadCount then (canPop Job).Signalled s.workers workers
      else workers = s.workers) : Lively (s.afterPush i job workers) := by
  have hopen : s.closed = false := (refuses_eq_false.mp hrefuse).1
  have hkeep : ∀ P : Worker Job → Prop, (∀ w, P w → P w.wake) → (∃ w ∈ s.workers, P w) → ∃ w ∈ workers, P w := by
    intro P hP hex
    split_ifs at hworkers
    · exact hworkers.exists_mem hP hex
    · rw [hworkers]
      exact hex
  refine ⟨fun hc => ?_, ?_, fun _ => ?_⟩
  · exact absurd (hopen.symm.trans hc) Bool.noConfusion
  · cases h.turned with
    | inl h0 => exact Or.inl h0
    | inr h =>
      cases h with
      | inl hs => exact Or.inr (Or.inl (hkeep _ (fun _ => Worker.wake_started) hs))
      | inr hc => exact absurd (hopen.symm.trans hc.1) Bool.noConfusion
  · show (∀ w ∈ workers, w = .exited) ∨ _
    by_cases hempty : s.ring.toList = []
    · -- the first job is always signalled
      have hcount : s.ring.count + 1 ≤ opts.threadCount := by
        rw [hb.ring.count_eq, hempty]
        exact opts.threadCount_pos
      rw [if_pos hcount] at hworkers
      by_cases hs : ∃ w ∈ s.workers, w.isAsleep = true
      · refine Or.inr (hworkers.awake (fun w hw => ?_) hs)
        cases w <;> first | rfl | cases hw
      · apply exited_or_awake
        refine hworkers.forall_mem (fun w _ => w.wake_asleep) fun w hw => ?_
        exact Bool.eq_false_iff.mpr fun ha => hs ⟨w, hw, ha⟩
    · cases h.noticed hempty with
      | inr ha => exact Or.inr (hkeep _ (fun _ => Worker.wake_awake) ha)
      | inl he =>
        refine Or.inl ?_
        split_ifs at hworkers
        · exact hworkers.forall_mem (fun w hw => by rw [hw]; rfl) he
        · rw [hworkers]
          exact he

theorem lively_step (hb : Books opts s) (h : Lively s) (hstep : Step opts s a t) : Lively t := by
  have hempty : s.ring.count = 0 → s.ring.toList = [] := fun h0 =>
    length_eq_zero_iff.mp (hb.ring.count_eq.symm.trans h0)
  cases hstep with
  | submit | wait | refuse | wakeProducer | cancel | reclaim => exact h.congr rfl rfl rfl rfl
  | push _ _ _ hrefuse hworkers => exact h.push hb hrefuse hworkers
  | close => exact h.broadcast true fun _ => rfl
  | wake => exact h.broadcast s.closed id
  | @initFails i hi _ =>
    have hall := h.broadcast s.closed id
    have hnone : ∀ w ∈ s.broadcast.workers.set i .exited, w.isAsleep = false :=
      forall_mem_set (P := fun w : Worker Job => w.isAsleep = false) (broadcast_not_asleep s) rfl
    refine ⟨fun _ => hnone, ?_, fun _ => exited_or_awake hnone⟩
    cases hall.turned with
    | inl h0 => exact Or.inl h0
    | inr h =>
      cases h with
      | inl hs => exact Or.inr (Or.inl (exists_mem_set (broadcast_starting hi) hs nofun))
      | inr hc => exact Or.inr (Or.inr hc)
  | initOk hi => exact h.set hi nofun (fun _ => Or.inl rfl) (Or.inl rfl)
  | park hi h0 hopen => exact h.set hi (fun _ => hopen) (fun _ => Or.inl rfl) (Or.inr (hempty h0))
  | exit hi h0 hclosed => exact h.set hi nofun (fun _ => Or.inr ⟨hclosed, hempty h0⟩) (Or.inr (hempty h0))
  | @process i job hi =>
    have hset : Lively { s with workers := s.workers.set i .ready } := h.set hi nofun (fun _ => Or.inl rfl) (Or.inl rfl)
    exact hset.congr rfl rfl rfl rfl
  | wakeWorker hi => exact h.set hi nofun (fun _ => Or.inl rfl) (Or.inl rfl)
  | @pop i job producers hi hcount hjob _ =>
    have hset : Lively { s with workers := s.workers.set i (.processing job) } :=
      h.set hi nofun (fun _ => Or.inl rfl) (Or.inl rfl)
    have hmem : Worker.processing job ∈ s.workers.set i (.processing job) := mem_set_of_getElem? hi
    exact ⟨hset.roused, Or.inr (Or.inl ⟨_, hmem, rfl⟩), fun _ => Or.inr ⟨_, hmem, rfl⟩⟩

theorem reachable_lively (h : Reachable (system opts Job) s) : Lively s := by
  refine h.invariant ?_ fun s a t hr hs hstep => lively_step (reachable_books hr) hs hstep
  intro s ⟨n, hs⟩
  subst hs
  refine ⟨nofun, Or.inl ⟨rfl, rfl⟩, fun hne => ?_⟩
  exact absurd (RingBuffer.empty_holds opts.queueCapacity_pos).toList_eq hne

/-! ## The end of the pool -/

structure Ended (opts : Opts) (s : State Job) : Prop where
  before : s.reclaimed = false → s.disposed = []
  after : s.reclaimed = true → s.disposed = leftovers opts s ∧ (∀ w ∈ s.workers, w = .exited) ∧ ∀ p ∈ s.producers, p = .idle

theorem Ended.step_reclaimed (h : Ended opts s) (hr : s.reclaimed = true) (hstep : Step opts s a t) :
    t = { s with requested := true } := by
  obtain ⟨_, hw, hp⟩ := h.after hr
  have hworker : ∀ {i w}, s.workers[i]? = some w → w = Worker.exited := fun hi => hw _ (mem_of_getElem? hi)
  have hproducer : ∀ {i p}, s.producers[i]? = some p → p = Producer.idle := fun hi => hp _ (mem_of_getElem? hi)
  cases hstep with
  | cancel => rfl
  | submit hno _ | close hno | wake hno | reclaim hno _ _ => exact absurd (hno.symm.trans hr) Bool.noConfusion
  | wait hi hrun _ | refuse hi hrun _ | push hi hrun _ _ _ => rw [hproducer hi] at hrun; cases hrun
  | initFails hi _ | initOk hi | park hi _ _ | exit hi _ _ | pop hi _ _ _ | process hi | wakeWorker hi =>
    cases hworker hi
  | wakeProducer hi => cases hproducer hi

theorem ended_step (h : Ended opts s) (hstep : Step opts s a t) : Ended opts t := by
  cases hr : s.reclaimed with
  | true =>
    rw [h.step_reclaimed hr hstep]
    exact ⟨h.before, h.after⟩
  | false =>
    have hd := h.before hr
    cases hstep with
    | reclaim _ hw hp =>
      refine ⟨nofun, fun _ => ⟨?_, hw, hp⟩⟩
      show s.disposed ++ leftovers opts s = _
      rw [hd, nil_append]
      rfl
    | _ => exact ⟨fun _ => hd, fun ht => absurd (hr.symm.trans ht) Bool.noConfusion⟩

theorem reachable_ended (h : Reachable (system opts Job) s) : Ended opts s := by
  refine h.invariant ?_ fun _ _ _ _ hs hstep => ended_step hs hstep
  intro s ⟨n, hs⟩
  subst hs
  exact ⟨fun _ => rfl, nofun⟩

theorem Lively.leftovers (h : Lively s) (hw : ∀ w ∈ s.workers, w = .exited) :
    s.ring.items.filterMap id = s.ring.toList ∧ (s.ring.toList = [] ∨ s.taken = []) := by
  cases h.turned with
  | inl h0 => exact ⟨(RingBuffer.toList_of_head h0.1).symm, Or.inr h0.2⟩
  | inr h =>
    cases h with
    | inl hs =>
      obtain ⟨w, hm, hs⟩ := hs
      rw [hw w hm] at hs
      cases hs
    | inr hc =>
      have hp := s.ring.toList_perm
      rw [hc.2] at hp ⊢
      exact ⟨hp.symm.eq_nil, Or.inl rfl⟩

/-! ## Termination -/

def Worker.weight : Worker Job → Nat
  | .starting | .processing _ => 2
  | .ready | .asleep => 1
  | .exited => 0

def work (s : State Job) : Nat := 2 * s.ring.count + (s.workers.map Worker.weight).sum

theorem work_set (hi : s.workers[i]? = some w) (w' : Worker Job) :
    2 * s.ring.count + ((s.workers.set i w').map Worker.weight).sum + w.weight = work s + w'.weight := by
  have := sum_map_set_add Worker.weight (u := w') hi
  unfold work
  omega

theorem work_broadcast (h : ∀ w ∈ s.workers, w.isAsleep = false) : s.broadcast.workers = s.workers := by
  refine (map_congr_left fun w hw => ?_).trans (map_id _)
  show w.wake = w
  have hawake := h w hw
  cases w with
  | asleep => cases hawake
  | starting | ready | processing _ | exited => rfl

theorem work_step (hl : Lively s) (hc : s.closed = true) (hstep : Step opts s a t) :
    t.closed = true ∧ work t ≤ work s ∧ (a.isWorker = true → work t < work s) := by
  have hwake := work_broadcast (hl.roused hc)
  have hless : work t < work s → t.closed = true →
      t.closed = true ∧ work t ≤ work s ∧ (a.isWorker = true → work t < work s) :=
    fun hlt hc => ⟨hc, le_of_lt hlt, fun _ => hlt⟩
  cases hstep with
  | submit | wait | refuse | wakeProducer | cancel | reclaim => exact ⟨hc, le_rfl, nofun⟩
  | push _ _ _ hrefuse _ => exact absurd ((refuses_eq_false.mp hrefuse).1.symm.trans hc) Bool.noConfusion
  | close =>
    refine ⟨rfl, ?_, nofun⟩
    show 2 * s.ring.count + (s.broadcast.workers.map Worker.weight).sum ≤ work s
    rw [hwake]
    exact le_rfl
  | wake =>
    refine ⟨hc, ?_, nofun⟩
    show 2 * s.ring.count + (s.broadcast.workers.map Worker.weight).sum ≤ work s
    rw [hwake]
    exact le_rfl
  | @initFails i hi _ =>
    refine hless ?_ hc
    have hset : _ + 2 = work s + 0 := work_set hi .exited
    show 2 * s.ring.count + ((s.broadcast.workers.set i .exited).map Worker.weight).sum < work s
    rw [hwake]
    omega
  | @initOk i hi =>
    refine hless ?_ hc
    have hset : _ + 2 = work s + 1 := work_set hi .ready
    show 2 * s.ring.count + ((s.workers.set i .ready).map Worker.weight).sum < work s
    omega
  | park _ _ hopen => exact absurd (hopen.symm.trans hc) Bool.noConfusion
  | @exit i hi _ _ =>
    refine hless ?_ hc
    have hset : _ + 1 = work s + 0 := work_set hi .exited
    show 2 * s.ring.count + ((s.workers.set i .exited).map Worker.weight).sum < work s
    omega
  | @process i job hi =>
    refine hless ?_ hc
    have hset : _ + 2 = work s + 1 := work_set hi .ready
    show 2 * s.ring.count + ((s.workers.set i .ready).map Worker.weight).sum < work s
    omega
  | wakeWorker hi => exact absurd (hl.roused hc _ (mem_of_getElem? hi)) Bool.noConfusion
  | @pop i job producers hi hcount _ _ =>
    refine hless ?_ hc
    have hset : _ + 1 = work s + 2 := work_set hi (.processing job)
    show 2 * (s.ring.count - 1) + ((s.workers.set i (.processing job)).map Worker.weight).sum < work s
    omega

theorem worker_steps_le {as : List (Action Job)} (h : Reachable (system opts Job) s) (hc : s.closed = true)
    (hrun : Run (system opts Job) s as t) : work t + as.countP Action.isWorker ≤ work s := by
  refine hrun.measure_le (P := fun s => Reachable (system opts Job) s ∧ s.closed = true) work Action.isWorker ⟨h, hc⟩
    ?_ ?_ ?_
  · exact fun s a t hs hst => ⟨hs.1.step hst, (work_step (reachable_lively hs.1) hs.2 hst).1⟩
  · exact fun s a t hs hst => (work_step (reachable_lively hs.1) hs.2 hst).2.2
  · exact fun s a t hs hst => (work_step (reachable_lively hs.1) hs.2 hst).2.1

theorem worker_can_step (hb : Books opts s) (hw : w ∈ s.workers) (hawake : w.isAwake = true) :
    ∃ a t, a.isWorker = true ∧ Step opts s a t := by
  obtain ⟨i, hi⟩ := mem_iff_getElem?.mp hw
  cases w with
  | starting => exact ⟨_, _, rfl, .initOk hi⟩
  | processing job => exact ⟨_, _, rfl, .process hi⟩
  | asleep | exited => cases hawake
  | ready =>
    by_cases h0 : s.ring.count = 0
    · cases hc : s.closed with
      | true => exact ⟨_, _, rfl, .exit hi h0 hc⟩
      | false => exact ⟨_, _, rfl, .park hi h0 hc⟩
    · obtain ⟨job, hjob⟩ := hb.exists_job h0
      obtain ⟨producers, hsignal⟩ := (canPush Job).exists_signalled s.producers
      by_cases hfull : s.ring.count = opts.queueCapacity
      · exact ⟨_, _, rfl, .pop hi h0 hjob (by rw [if_pos hfull]; exact hsignal)⟩
      · exact ⟨_, _, rfl, .pop hi h0 hjob (by rw [if_neg hfull])⟩

/-- **Main result.** Jobs leave the ring in the order of their submission. A job is handed to `process_job` or
`dispose_job` at most once for each submit that returned true, and by the time the pool is reclaimed exactly once.
While a job is queued some worker can step, or all have stopped; after the close the workers have only so many steps to
take before all have stopped. -/
theorem jobs_accounted (h : Reachable (system opts Job) s) :
    s.accepted = s.taken ++ s.ring.toList ∧ (s.processed ++ inHand s.workers).Perm s.taken ∧
    (s.processed ++ s.disposed).Subperm s.accepted ∧
    (s.reclaimed = true → opts.disposeJob = true → (s.processed ++ s.disposed).Perm s.accepted ∧
      s.accepted = s.taken ++ s.disposed ∧ (s.disposed = [] ∨ s.processed = [])) ∧
    (s.ring.toList ≠ [] → (∀ w ∈ s.workers, w = .exited) ∨ ∃ a t, a.isWorker = true ∧ Step opts s a t) ∧
    (s.closed = true → (∀ t as, Run (system opts Job) s as t → work t + as.countP Action.isWorker ≤ work s) ∧
      ((∃ w ∈ s.workers, w ≠ .exited) → ∃ a t, a.isWorker = true ∧ Step opts s a t)) := by
  have hb := reachable_books h
  have hl := reachable_lively h
  have he := reachable_ended h
  have hdone : s.reclaimed = true → inHand s.workers = [] := by
    intro hr
    refine filterMap_eq_nil_iff.mpr fun w hw => ?_
    rw [(he.after hr).2.1 w hw]
    rfl
  have hreclaimed : s.reclaimed = true → opts.disposeJob = true → (s.processed ++ s.disposed).Perm s.accepted ∧
      s.accepted = s.taken ++ s.disposed ∧ (s.disposed = [] ∨ s.processed = []) := by
    intro hr hdispose
    obtain ⟨hdisposed, hw, _⟩ := he.after hr
    obtain ⟨hslots, hnone⟩ := hl.leftovers hw
    rw [leftovers, if_pos hdispose, hslots] at hdisposed
    have htaken := hb.taken
    rw [hdone hr, append_nil] at htaken
    refine ⟨?_, ?_, ?_⟩
    · rw [hb.accepted, hdisposed]
      exact htaken.append_right _
    · rw [hb.accepted, hdisposed]
    · rw [hdisposed]
      exact hnone.imp_right fun hn => (hn ▸ htaken).eq_nil
  refine ⟨hb.accepted, hb.taken, ?_, hreclaimed, ?_, ?_⟩
  · have hprocessed : s.processed.Subperm s.accepted := by
      rw [hb.accepted]
      exact ((sublist_append_left _ _).subperm.trans hb.taken.subperm).trans (sublist_append_left _ _).subperm
    cases hr : s.reclaimed with
    | false =>
      rw [he.before hr, append_nil]
      exact hprocessed
    | true =>
      cases hdispose : opts.disposeJob with
      | true => exact (hreclaimed hr hdispose).1.subperm
      | false =>
        rw [(he.after hr).1, leftovers, hdispose, if_neg Bool.false_ne_true, append_nil]
        exact hprocessed
  · intro hne
    refine (hl.noticed hne).imp_right fun ⟨w, hw, hawake⟩ => worker_can_step hb hw hawake
  · intro hc
    refine ⟨fun t as hrun => worker_steps_le h hc hrun, fun ⟨w, hw, hne⟩ => ?_⟩
    cases exited_or_awake (hl.roused hc) with
    | inl hall => exact absurd (hall w hw) hne
    | inr hex =>
      obtain ⟨w, hw, hawake⟩ := hex
      exact worker_can_step hb hw hawake

def smallPool (queueCapacity : Nat) (h : 0 < queueCapacity) : Opts :=
  { threadCount := 1
    queueCapacity
    cancel := true
    workerInit := true
    disposeJob := true
    threadCount_pos := Nat.one_pos
    queueCapacity_pos := h }

/-- The only worker fails to start, and the job it never saw is disposed of. -/
theorem jobs_accounted_no_worker : ∃ s, Reachable (system (smallPool 2 Nat.two_pos) Nat) s ∧ s.reclaimed = true ∧
    s.disposed = [7] ∧ (s.processed ++ s.disposed).Perm s.accepted := by
  have h0 : Reachable (system (smallPool 2 Nat.two_pos) Nat) _ := .init ⟨1, rfl⟩
  have h1 := h0.step (@Step.submit Nat _ _ 0 7 rfl rfl)
  have h2 := h1.step (Step.push (i := 0) rfl rfl rfl rfl (.nobody (by decide)))
  have h3 := h2.step (Step.initFails (i := 0) rfl rfl)
  have h4 := h3.step (Step.reclaim rfl (by decide) (by decide))
  exact ⟨_, h4, rfl, rfl, ((jobs_accounted h4).2.2.2.1 rfl rfl).1⟩

end Bx.WorkPool
