import Bx.Lib.WorkPoolSound

/-!
# Stranded producers

`can_push` is signalled once, when a job is taken from a full ring, so two jobs taken one after the other wake one
producer. As long as each job taken from a ring that is not full leaves enough wake-ups pending to fill it, no producer
is stranded.
-/

namespace Bx.WorkPool

open Bx.Kit

variable {Job : Type*} {opts : Opts} {s t : State Job}

/-- A producer sleeps in an open pool that has room, no wake-up is on its way
and no worker is about to take a step on the queue. -/
def Stranded (opts : Opts) (s : State Job) : Prop :=
  refuses opts s = false ∧ (∃ p ∈ s.producers, p.isAsleep = true) ∧ s.ring.count < opts.queueCapacity ∧
    (∀ p ∈ s.producers, p.isWoken = false) ∧ ∀ w ∈ s.workers, w = .asleep ∨ ∃ job, w = .processing job

def wakeUps (s : State Job) : Nat := s.producers.countP Producer.isWoken

/-- Condition variables wake on signals only, and in an open pool a job taken from a
ring that is not full while a producer sleeps leaves as many wake-ups as free slots. -/
def Replaced (opts : Opts) (s : State Job) (a : Action Job) : Prop :=
  a.isSpurious = false ∧ ∀ i, a = .pop i → refuses opts s = false → s.ring.count ≠ opts.queueCapacity →
    (∃ p ∈ s.producers, p.isAsleep = true) → opts.queueCapacity ≤ s.ring.count - 1 + wakeUps s

def Covered (opts : Opts) (s : State Job) : Prop :=
  refuses opts s = false → (∃ p ∈ s.producers, p.isAsleep = true) → opts.queueCapacity ≤ s.ring.count + wakeUps s

theorem Covered.congr (h : Covered opts s) (hrefuses : refuses opts t = false → refuses opts s = false)
    (hproducers : t.producers = s.producers) (hcount : t.ring.count = s.ring.count) : Covered opts t := by
  intro hopen hasleep
  rw [hproducers] at hasleep
  have hle := h (hrefuses hopen) hasleep
  unfold wakeUps at hle ⊢
  rw [hproducers, hcount]
  exact hle

theorem Covered.push (h : Covered opts s) {i : Nat} {p : Producer Job} {job : Job} {workers : List (Worker Job)}
    (hi : s.producers[i]? = some p) : Covered opts (s.afterPush i job workers) := by
  intro hopen hasleep
  have hle := h hopen (exists_of_mem_set hasleep Bool.false_ne_true)
  have hset : (s.producers.set i .idle).countP Producer.isWoken + _ = _ + 0 := countP_set_add Producer.isWoken hi
  show opts.queueCapacity ≤ s.ring.count + 1 + (s.producers.set i .idle).countP Producer.isWoken
  unfold wakeUps at hle
  split_ifs at hset <;> omega

theorem covered_pop {i : Nat} {job : Job} {producers : List (Producer Job)}
    (hproducers : if s.ring.count = opts.queueCapacity then (canPush Job).Signalled s.producers producers
      else producers = s.producers) (hreplaced : refuses opts s = false → s.ring.count ≠ opts.queueCapacity →
      (∃ p ∈ s.producers, p.isAsleep = true) → opts.queueCapacity ≤ s.ring.count - 1 + wakeUps s) : Covered opts (s.afterPop i job producers) := by
  intro hopen hasleep
  show opts.queueCapacity ≤ s.ring.count - 1 + producers.countP Producer.isWoken
  by_cases hfull : s.ring.count = opts.queueCapacity
  · rw [if_pos hfull] at hproducers
    cases hproducers with
    | nobody hnone =>
      obtain ⟨p, hp, ha⟩ := hasleep
      exact absurd ((hnone p hp).symm.trans ha) Bool.false_ne_true
    | @one j p hj ha =>
      -- the producer that is woken makes up for the job that is taken
      have hset := countP_set_add Producer.isWoken (u := p.wake) hj
      show opts.queueCapacity ≤ s.ring.count - 1 + (s.producers.set j p.wake).countP Producer.isWoken
      cases p with
      | asleep job =>
        rw [if_neg (by exact Bool.false_ne_true), if_pos (by rfl)] at hset
        omega
      | idle | calling _ | woken _ => cases ha
  · rw [if_neg hfull] at hproducers
    subst hproducers
    exact hreplaced hopen hfull hasleep

theorem covered_step {a : Action Job} (h : Covered opts s) (hguard : Replaced opts s a) (hstep : Step opts s a t) :
    Covered opts t := by
  obtain ⟨hsignal, hreplaced⟩ := hguard
  cases hstep with
  | wakeProducer _ | wakeWorker _ => cases hsignal
  | initOk | park | exit | process | reclaim => exact h.congr id rfl rfl
  | push hi _ _ _ _ => exact h.push hi
  | @pop i job producers _ _ _ hproducers => exact covered_pop hproducers (hreplaced i rfl)
  | @submit i job _ hi =>
    intro hopen hasleep
    have hle := h hopen (exists_of_mem_set hasleep Bool.false_ne_true)
    have hset : (s.producers.set i (.calling job)).countP Producer.isWoken + 0 = _ + 0 :=
      countP_set_add Producer.isWoken hi
    show opts.queueCapacity ≤ s.ring.count + (s.producers.set i (.calling job)).countP Producer.isWoken
    unfold wakeUps at hle
    omega
  | wait _ _ hwait =>
    intro _ _
    have hfull : s.ring.count = opts.queueCapacity := by
      unfold mustWait at hwait
      simp only [Bool.and_eq_true, decide_eq_true_eq] at hwait
      exact hwait.1.2
    exact hfull ▸ Nat.le_add_right _ _
  | refuse _ _ hrefuse => exact fun hopen => absurd (hopen.symm.trans hrefuse) Bool.false_ne_true
  | close => exact fun hopen => absurd (refuses_eq_false.mp hopen).1 Bool.noConfusion
  | initFails => exact fun hopen => absurd (refuses_eq_false.mp hopen).2.1 Bool.noConfusion
  | wake =>
    intro _ hasleep
    obtain ⟨p, hp, ha⟩ := hasleep
    obtain ⟨q, _, rfl⟩ := List.mem_map.mp hp
    cases q <;> cases ha
  | cancel =>
    refine h.congr (fun hopen => ?_) rfl rfl
    obtain ⟨hclosed, hfailed, hcancelled⟩ := refuses_eq_false.mp hopen
    rw [cancelled, Bool.and_true] at hcancelled
    exact refuses_eq_false.mpr ⟨hclosed, hfailed, by rw [cancelled, hcancelled, Bool.false_and]⟩

theorem covered_of_replaced (h : Reachable ((system opts Job).guarded (Replaced opts)) s) : Covered opts s := by
  refine h.invariant ?_ fun s a t _ hs hstep => covered_step hs hstep.1 hstep.2
  intro s ⟨n, hs⟩
  subst hs
  intro _ hasleep
  obtain ⟨p, hp, ha⟩ := hasleep
  rw [List.eq_of_mem_replicate hp] at ha
  cases ha

/-- **Main result.** In a run whose every step meets `Replaced`, no producer is
stranded. -/
theorem no_stranded_producer (h : Reachable ((system opts Job).guarded (Replaced opts)) s) : ¬ Stranded opts s := by
  intro ⟨hopen, hasleep, hroom, hnone, _⟩
  have hle := covered_of_replaced h hopen hasleep
  have hzero : wakeUps s = 0 := List.countP_eq_zero.mpr fun p hp => by rw [hnone p hp]; exact Bool.false_ne_true
  omega

theorem step_replaced {a : Action Job} (h : Reachable ((system opts Job).guarded (Replaced opts)) s)
    (hstep : Step opts s a t) (ha : Replaced opts s a) : Reachable ((system opts Job).guarded (Replaced opts)) t :=
  h.step ⟨ha, hstep⟩

theorem no_stranded_producer_one : ∃ s,
    Reachable ((system (smallPool 1 Nat.one_pos) Nat).guarded (Replaced (smallPool 1 Nat.one_pos))) s ∧
      s.producers = [.woken 2] ∧ ¬ Stranded (smallPool 1 Nat.one_pos) s := by
  have h0 : Reachable ((system (smallPool 1 Nat.one_pos) Nat).guarded (Replaced (smallPool 1 Nat.one_pos))) _ :=
    .init ⟨1, rfl⟩
  have h1 := step_replaced h0 (@Step.submit Nat _ _ 0 1 rfl rfl) ⟨rfl, nofun⟩
  have h2 := step_replaced h1 (.push (i := 0) rfl rfl rfl rfl (.nobody (by decide))) ⟨rfl, nofun⟩
  have h3 := step_replaced h2 (@Step.submit Nat _ _ 0 2 rfl rfl) ⟨rfl, nofun⟩
  have h4 := step_replaced h3 (.wait (i := 0) rfl rfl rfl) ⟨rfl, nofun⟩
  have h5 := step_replaced h4 (.initOk (i := 0) rfl) ⟨rfl, nofun⟩
  have h6 := step_replaced h5 (.pop (i := 0) rfl Nat.one_ne_zero rfl (.one (i := 0) rfl rfl))
    ⟨rfl, fun _ _ _ hne => absurd rfl hne⟩
  exact ⟨_, h6, rfl, no_stranded_producer h6⟩

/-- Two producers sleep on a ring of two. The worker takes both jobs and wakes
one of them; it is served, and the other sleeps on over an empty ring. -/
theorem two_pops_strand_producer :
    ¬ ∀ (opts : Opts) (s : State Nat), Reachable ((system opts Nat).guarded fun _ a => a.isSpurious = false) s →
      ¬ Stranded opts s := by
  intro h
  have h0 : Reachable ((system (smallPool 2 Nat.two_pos) Nat).guarded fun _ a => a.isSpurious = false) _ := .init ⟨2, rfl⟩
  have h1 := h0.step ⟨rfl, @Step.submit Nat _ _ 0 1 rfl rfl⟩
  have h2 := h1.step ⟨rfl, Step.push (i := 0) rfl rfl rfl rfl (.nobody (by decide))⟩
  have h3 := h2.step ⟨rfl, @Step.submit Nat _ _ 0 2 rfl rfl⟩
  have h4 := h3.step ⟨rfl, Step.push (i := 0) rfl rfl rfl rfl rfl⟩
  have h5 := h4.step ⟨rfl, @Step.submit Nat _ _ 0 3 rfl rfl⟩
  have h6 := h5.step ⟨rfl, Step.wait (i := 0) rfl rfl rfl⟩
  have h7 := h6.step ⟨rfl, @Step.submit Nat _ _ 1 4 rfl rfl⟩
  have h8 := h7.step ⟨rfl, Step.wait (i := 1) rfl rfl rfl⟩
  have h9 := h8.step ⟨rfl, Step.initOk (i := 0) rfl⟩
  have h10 := h9.step ⟨rfl, Step.pop (i := 0) rfl two_ne_zero rfl (.one (i := 0) rfl rfl)⟩
  have h11 := h10.step ⟨rfl, Step.process (i := 0) rfl⟩
  have h12 := h11.step ⟨rfl, Step.pop (i := 0) rfl Nat.one_ne_zero rfl rfl⟩
  have h13 := h12.step ⟨rfl, Step.push (i := 0) rfl rfl rfl rfl (.nobody (by decide))⟩
  have h14 := h13.step ⟨rfl, Step.process (i := 0) rfl⟩
  have h15 := h14.step ⟨rfl, Step.pop (i := 0) rfl Nat.one_ne_zero rfl rfl⟩
  have h16 := h15.step ⟨rfl, Step.process (i := 0) rfl⟩
  have h17 := h16.step ⟨rfl, Step.park (i := 0) rfl rfl rfl⟩
  exact h _ _ h17 ⟨rfl, by decide, by decide, by decide, fun w hw => Or.inl (List.mem_singleton.mp hw)⟩

end Bx.WorkPool
