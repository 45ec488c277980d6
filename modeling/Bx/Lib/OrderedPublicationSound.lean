import Bx.Lib.OrderedPublication
import Mathlib.Data.List.Range
import Mathlib.Data.List.Nodup

/-!
# Ordered publication keeps order and count

The slots in flight are those reserved and not yet given back.
-/

namespace Bx.OrderedPublication

open Bx.Kit List

variable {opts : Opts} {s t : State}

/-! ## Slots -/

def Coordinator.inHand : Coordinator → List Packet
  | .publishing _ p => [p]
  | _ => []

def Coordinator.unfinished : Coordinator → List Packet
  | .published _ p _ => [p]
  | _ => []

@[simp] theorem Coordinator.inHand_wake (c : Coordinator) : c.wake.inHand = c.inHand := by cases c <;> rfl

@[simp] theorem Coordinator.unfinished_wake (c : Coordinator) : c.wake.unfinished = c.unfinished := by cases c <;> rfl

def taken (s : State) : List Packet := s.published ++ s.coordinator.inHand

def slots (packets : List Packet) : List Nat := packets.map Packet.slot

def places (s : State) (slot : Nat) : Nat :=
  s.held.count slot + s.released.count slot + (slots s.pendingHead).count slot + (slots (taken s)).count slot

/-- Every slot reserved is in one place, and the packets taken are the next ones in turn. -/
structure Placed (s : State) : Prop where
  places_eq : ∀ slot, places s slot = if slot < s.reserved then 1 else 0
  ofSlot : ∀ p ∈ s.pendingHead ++ taken s, p = .ofSlot p.slot
  submit_eq : s.nextSubmitSeq = s.reserved % seqModulus
  publish_eq : s.nextPublishSeq = (taken s).length % seqModulus
  order : (taken s).map Packet.seq = (List.range (taken s).length).map (· % seqModulus)

structure Counted (opts : Opts) (s : State) : Prop where
  published_eq : s.published = s.finished ++ s.coordinator.unfinished
  inflight_eq : s.inflight = s.held.length + s.pendingHead.length + s.coordinator.inHand.length +
    s.coordinator.unfinished.length
  reserved_eq : s.inflight + s.finished.length + s.released.length = s.reserved
  inflight_le : s.inflight ≤ opts.maxInflight

theorem Placed.moved (h : Placed s) (htaken : taken t = taken s) (hplaces : ∀ slot, places t slot = places s slot)
    (hof : ∀ p ∈ t.pendingHead, p ∈ s.pendingHead ∨ p = .ofSlot p.slot) (hreserved : t.reserved = s.reserved)
    (hsubmit : t.nextSubmitSeq = s.nextSubmitSeq) (hpublish : t.nextPublishSeq = s.nextPublishSeq) : Placed t := by
  refine ⟨?_, ?_, ?_, ?_, ?_⟩
  · intro slot
    rw [hplaces, hreserved]
    exact h.places_eq slot
  · intro p hp
    rw [htaken] at hp
    cases mem_append.mp hp with
    | inl hp => exact (hof p hp).elim (fun hp => h.ofSlot p (mem_append_left _ hp)) id
    | inr hp => exact h.ofSlot p (mem_append_right _ hp)
  · rw [hsubmit, hreserved]; exact h.submit_eq
  · rw [hpublish, htaken]; exact h.publish_eq
  · rw [htaken]; exact h.order

theorem Placed.congr (h : Placed s) (htaken : taken t = taken s) (hpending : t.pendingHead = s.pendingHead)
    (hheld : t.held = s.held) (hreleased : t.released = s.released) (hreserved : t.reserved = s.reserved)
    (hsubmit : t.nextSubmitSeq = s.nextSubmitSeq) (hpublish : t.nextPublishSeq = s.nextPublishSeq) : Placed t := by
  refine h.moved htaken (fun slot => ?_) (fun p hp => Or.inl (hpending ▸ hp)) hreserved hsubmit hpublish
  unfold places
  rw [hheld, hreleased, hpending, htaken]

theorem Placed.take (h : Placed s) {c : Call} {p : Packet} {rest : List Packet} (hc : s.coordinator = .flushing c)
    (hp : s.pendingHead = p :: rest) (hseq : p.seq = s.nextPublishSeq) :
    Placed
      { s with
        pendingHead := rest
        nextPublishSeq := (s.nextPublishSeq + 1) % seqModulus
        coordinator := .publishing c p } := by
  have hhand : taken s = s.published := by simp [taken, hc, Coordinator.inHand]
  obtain ⟨hplaces, hof, hsubmit, hpublish, horder⟩ := h
  rw [hhand] at hof hpublish horder
  refine ⟨?_, ?_, hsubmit, ?_, ?_⟩
  · intro slot
    have := hplaces slot
    unfold places at this ⊢
    rw [hhand, hp] at this
    simp only [taken, slots, Coordinator.inHand, map_append, map_cons, map_nil, count_append,
      count_cons, count_nil] at this ⊢
    omega
  · intro q hq
    apply hof q
    rw [hp]
    simp only [taken, Coordinator.inHand, mem_append, mem_cons, not_mem_nil, or_false] at hq ⊢
    tauto
  · show (s.nextPublishSeq + 1) % seqModulus = (s.published ++ [p]).length % seqModulus
    rw [length_append, length_singleton, hpublish, Nat.mod_add_mod]
  · show (s.published ++ [p]).map Packet.seq = (List.range (s.published ++ [p]).length).map (· % seqModulus)
    rw [length_append, length_singleton, range_succ, map_append, map_append, horder]
    show _ ++ [p.seq] = _ ++ [s.published.length % seqModulus]
    rw [hseq, hpublish]

theorem Placed.grant (h : Placed s) (hc : s.coordinator = .flushed .reserveSlot) (inflight : Nat) : Placed { s with
        inflight
        nextSubmitSeq := (s.nextSubmitSeq + 1) % seqModulus
        coordinator := .idle
        reserved := s.reserved + 1
        held := s.reserved :: s.held } := by
  have hhand : taken s = s.published ++ [] := by simp [taken, hc, Coordinator.inHand]
  obtain ⟨hplaces, hof, hsubmit, hpublish, horder⟩ := h
  refine ⟨?_, ?_, ?_, ?_, ?_⟩
  · intro slot
    have := hplaces slot
    unfold places at this ⊢
    rw [hhand] at this
    show (s.reserved :: s.held).count slot + s.released.count slot + (slots s.pendingHead).count slot +
      (slots (s.published ++ [])).count slot = if slot < s.reserved + 1 then 1 else 0
    rw [count_cons]
    by_cases e : s.reserved = slot
    · subst e
      rw [if_neg (lt_irrefl _)] at this
      rw [if_pos (by simp), if_pos (Nat.lt_succ_self _)]
      omega
    · rw [if_neg (by simpa using e)]
      have hiff : slot < s.reserved + 1 ↔ slot < s.reserved := by omega
      simp only [hiff]
      omega
  · rw [hhand] at hof; exact hof
  · show (s.nextSubmitSeq + 1) % seqModulus = (s.reserved + 1) % seqModulus
    rw [hsubmit, Nat.mod_add_mod]
  · rw [hhand] at hpublish; exact hpublish
  · rw [hhand] at horder; exact horder

theorem count_erase_add {l : List Nat} {a : Nat} (h : a ∈ l) (b : Nat) :
    (l.erase a).count b + (if a = b then 1 else 0) = l.count b := by
  rw [count_erase]
  by_cases e : a = b
  · subst e
    have := count_pos_iff.mpr h
    simp
    omega
  · simp [e]

theorem Placed.publishPacket (h : Placed s) {slot : Nat} (hslot : slot ∈ s.held) : Placed { s with
        pendingHead := insertPending (.ofSlot slot) s.pendingHead
        coordinator := s.coordinator.wake
        held := s.held.erase slot } := by
  have hhand : s.published ++ s.coordinator.wake.inHand = taken s := by rw [Coordinator.inHand_wake]; rfl
  refine h.moved hhand (fun k => ?_) (fun p hp => ?_) rfl rfl rfl
  · have hperm : (slots (insertPending (.ofSlot slot) s.pendingHead)).Perm (slot :: slots s.pendingHead) :=
      (insertAfter_perm _ _ _).map Packet.slot
    have herase := count_erase_add hslot k
    show (s.held.erase slot).count k + s.released.count k + (slots (insertPending _ s.pendingHead)).count k +
      (slots (s.published ++ s.coordinator.wake.inHand)).count k = _
    unfold places
    rw [hhand, hperm.count_eq, count_cons]
    simp only [beq_iff_eq]
    omega
  · cases mem_insertAfter.mp hp with
    | inl e => exact Or.inr (by rw [e]; rfl)
    | inr hp => exact Or.inl hp

theorem Placed.releaseSlot (h : Placed s) {slot : Nat} (hslot : slot ∈ s.held) (inflight : Nat) : Placed { s with
        inflight
        coordinator := s.coordinator.wake
        held := s.held.erase slot
        released := slot :: s.released } := by
  have hhand : s.published ++ s.coordinator.wake.inHand = taken s := by rw [Coordinator.inHand_wake]; rfl
  refine h.moved hhand (fun k => ?_) (fun p hp => Or.inl hp) rfl rfl rfl
  have herase := count_erase_add hslot k
  show (s.held.erase slot).count k + (slot :: s.released).count k + (slots s.pendingHead).count k +
    (slots (s.published ++ s.coordinator.wake.inHand)).count k = _
  unfold places
  rw [hhand, count_cons]
  simp only [beq_iff_eq]
  omega

variable {a : Action} {slot : Nat} {p : Packet}

theorem placed_step (h : Placed s) (hstep : Step opts s a t) : Placed t := by
  have hsame : ∀ c : Coordinator, c.inHand = s.coordinator.inHand → s.published ++ c.inHand = taken s := fun c hc =>
    congrArg (s.published ++ ·) hc
  cases hstep with
  | take hc hp hseq => exact h.take hc hp hseq
  | grant hc _ => exact h.grant hc _
  | publishPacket hslot => exact h.publishPacket hslot
  | releaseSlot hslot => exact h.releaseSlot hslot _
  | publish hc =>
    refine h.congr ?_ rfl rfl rfl rfl rfl rfl
    simp [taken, hc, Coordinator.inHand]
  | @dispose c p ok hc =>
    refine h.congr (hsame _ ?_) rfl rfl rfl rfl rfl rfl
    rw [hc]
    cases ok <;> rfl
  | call hc | giveBack hc | flushed hc _ | waitSlot hc _ | drained hc _ | waitDrain hc _ | park hc _ _ | resume hc _
  | wakeCoordinator hc =>
    refine h.congr (hsame _ ?_) rfl rfl rfl rfl rfl rfl
    rw [hc]
    rfl

theorem counted_step (h : Counted opts s) (hstep : Step opts s a t) : Counted opts t := by
  obtain ⟨hpublished, hinflight, hreserved, hle⟩ := h
  cases hstep with
  | @take c p rest hc hp hseq =>
    rw [hc] at hpublished hinflight
    rw [hp] at hinflight
    refine ⟨hpublished, ?_, hreserved, hle⟩
    show s.inflight = s.held.length + rest.length + 1 + 0
    simp only [length_cons, Coordinator.inHand, Coordinator.unfinished, length_nil] at hinflight
    omega
  | @publish c p ok hc =>
    rw [hc] at hpublished hinflight
    refine ⟨?_, hinflight, hreserved, hle⟩
    show s.published ++ [p] = s.finished ++ [p]
    rw [hpublished]
    exact congrArg (· ++ [p]) (append_nil _)
  | @giveBack c p ok hc =>
    rw [hc] at hpublished hinflight
    have hpos : s.inflight > 0 := by
      rw [hinflight]
      exact Nat.succ_pos _
    have hin : s.inflight = s.held.length + s.pendingHead.length + 0 + 1 := hinflight
    refine ⟨?_, ?_, ?_, ?_⟩
    · show s.published = (s.finished ++ [p]) ++ []
      rw [append_nil]
      exact hpublished
    · show (if s.inflight > 0 then s.inflight - 1 else s.inflight) = s.held.length + s.pendingHead.length + 0 + 0
      rw [if_pos hpos]
      omega
    · show (if s.inflight > 0 then s.inflight - 1 else s.inflight) + (s.finished ++ [p]).length + s.released.length = s.reserved
      rw [if_pos hpos, length_append, length_singleton]
      omega
    · show (if s.inflight > 0 then s.inflight - 1 else s.inflight) ≤ opts.maxInflight
      rw [if_pos hpos]
      omega
  | @grant hc hlt =>
    rw [hc] at hpublished hinflight
    refine ⟨hpublished, ?_, ?_, hlt⟩
    · show s.inflight + 1 = s.held.length + 1 + s.pendingHead.length + 0 + 0
      have hin : s.inflight = s.held.length + s.pendingHead.length + 0 + 0 := hinflight
      omega
    · show s.inflight + 1 + s.finished.length + s.released.length = s.reserved + 1
      omega
  | @publishPacket slot hslot =>
    refine ⟨?_, ?_, hreserved, hle⟩
    · rw [Coordinator.unfinished_wake]
      exact hpublished
    · rw [Coordinator.inHand_wake, Coordinator.unfinished_wake]
      have hlen : (insertPending (.ofSlot slot) s.pendingHead).length = s.pendingHead.length + 1 :=
        (insertAfter_perm _ _ _).length_eq
      have hpos := length_pos_of_mem hslot
      show s.inflight = (s.held.erase slot).length + (insertPending (.ofSlot slot) s.pendingHead).length + _ + _
      rw [hlen, length_erase_of_mem hslot]
      omega
  | @releaseSlot slot hslot =>
    have hlen := length_pos_of_mem hslot
    have hpos : s.inflight > 0 := by omega
    refine ⟨?_, ?_, ?_, ?_⟩
    · rw [Coordinator.unfinished_wake]
      exact hpublished
    · rw [Coordinator.inHand_wake, Coordinator.unfinished_wake]
      show (if s.inflight > 0 then s.inflight - 1 else s.inflight) = (s.held.erase slot).length + s.pendingHead.length + _ + _
      rw [if_pos hpos, length_erase_of_mem hslot]
      omega
    · show (if s.inflight > 0 then s.inflight - 1 else s.inflight) + s.finished.length + (s.released.length + 1) = s.reserved
      rw [if_pos hpos]
      omega
    · show (if s.inflight > 0 then s.inflight - 1 else s.inflight) ≤ opts.maxInflight
      rw [if_pos hpos]
      omega
  | @dispose c p ok hc =>
    rw [hc] at hpublished hinflight
    cases ok <;> exact ⟨hpublished, hinflight, hreserved, hle⟩
  | call hc | flushed hc _ | waitSlot hc _ | drained hc _ | waitDrain hc _ | park hc _ _ | resume hc _ | wakeCoordinator hc =>
    rw [hc] at hpublished hinflight
    exact ⟨hpublished, hinflight, hreserved, hle⟩

theorem reachable_placed (h : Reachable (system opts) s) : Placed s := by
  refine h.invariant ?_ fun _ _ _ _ hs hstep => placed_step hs hstep
  intro s hs
  subst hs
  exact ⟨fun _ => rfl, nofun, rfl, rfl, rfl⟩

theorem reachable_counted (h : Reachable (system opts) s) : Counted opts s := by
  refine h.invariant ?_ fun _ _ _ _ hs hstep => counted_step hs hstep
  intro s hs
  subst hs
  exact ⟨rfl, rfl, rfl, Nat.zero_le _⟩

/-! ## The packets taken -/

section
variable (h : Placed s)
include h

theorem Placed.lt_reserved (hpos : 0 < places s slot) : slot < s.reserved := by
  have hplace := h.places_eq slot
  split_ifs at hplace with hlt
  · exact hlt
  · omega

theorem Placed.pending_lt (hp : p ∈ s.pendingHead) : p.slot < s.reserved := by
  have hpos : 0 < (slots s.pendingHead).count p.slot := count_pos_iff.mpr (mem_map_of_mem hp)
  exact h.lt_reserved (by unfold places; omega)

theorem Placed.taken_lt (hp : p ∈ taken s) : p.slot < s.reserved := by
  have hpos : 0 < (slots (taken s)).count p.slot := count_pos_iff.mpr (mem_map_of_mem hp)
  exact h.lt_reserved (by unfold places; omega)

theorem Placed.held_lt (hslot : slot ∈ s.held) : slot < s.reserved ∧ slot ∉ slots s.pendingHead := by
  have hpos : 0 < s.held.count slot := count_pos_iff.mpr hslot
  have hlt : slot < s.reserved := h.lt_reserved (by unfold places; omega)
  refine ⟨hlt, fun hm => ?_⟩
  have hpending : 0 < (slots s.pendingHead).count slot := count_pos_iff.mpr hm
  have hplace := h.places_eq slot
  unfold places at hplace
  rw [if_pos hlt] at hplace
  omega

theorem Placed.published_order : s.published.map Packet.seq = (List.range s.published.length).map (· % seqModulus) := by
  have horder := h.order
  unfold taken at horder
  rw [length_append, range_add, map_append, map_append] at horder
  exact (append_inj horder (by simp)).1

theorem Placed.published_nodup : (slots s.published).Nodup := by
  rw [nodup_iff_count_le_one]
  intro slot
  have := h.places_eq slot
  unfold places taken slots at this
  rw [map_append, count_append] at this
  have hle : (if slot < s.reserved then 1 else 0) ≤ 1 := by split_ifs <;> omega
  unfold slots
  omega

end

theorem Counted.taken_le (h : Counted opts s) : (taken s).length ≤ s.reserved := by
  have hpublished := congrArg List.length h.published_eq
  have hinflight := h.inflight_eq
  have hreserved := h.reserved_eq
  unfold taken
  rw [length_append] at hpublished ⊢
  omega

theorem Placed.taken_slots (h : Placed s) (hc : Counted opts s) (hreserved : s.reserved ≤ seqModulus) :
    slots (taken s) = List.range (taken s).length := by
  have hseq : slots (taken s) = (taken s).map Packet.seq := by
    refine map_congr_left fun p hp => ?_
    have hof := congrArg Packet.seq (h.ofSlot p (mem_append_right _ hp))
    rw [hof]
    exact (Nat.mod_eq_of_lt (lt_of_lt_of_le (h.taken_lt hp) hreserved)).symm
  have hlen := hc.taken_le
  rw [hseq, h.order]
  refine (map_congr_left fun n hn => ?_).trans (map_id _)
  exact Nat.mod_eq_of_lt (lt_of_lt_of_le (mem_range.mp hn) (hlen.trans hreserved))

/-! ## Waiting -/

/-- The list is sorted until the numbers wrap around, and the coordinator sleeps
only if there is nothing to publish and a slot is taken. -/
structure Watchful (s : State) : Prop where
  sorted : s.reserved ≤ seqModulus → s.pendingHead.Pairwise fun p q => p.slot < q.slot
  asleep : ∀ c, s.coordinator = .asleep c → ready s = none ∧ 0 < s.inflight

theorem Placed.insert_sorted (h : Placed s) (hslot : slot ∈ s.held) (hreserved : s.reserved ≤ seqModulus)
    (hsorted : s.pendingHead.Pairwise fun p q => p.slot < q.slot) :
    (insertPending (.ofSlot slot) s.pendingHead).Pairwise fun p q => p.slot < q.slot := by
  obtain ⟨hlt, hnot⟩ := h.held_lt hslot
  have hseq : ∀ k, k < s.reserved → (Packet.ofSlot k).seq = k := fun k hk =>
    Nat.mod_eq_of_lt (lt_of_lt_of_le hk hreserved)
  have hpending : ∀ p ∈ s.pendingHead, p.seq = p.slot := fun p hp => by
    have hof := congrArg Packet.seq (h.ofSlot p (mem_append_left _ hp))
    rw [hof]
    exact hseq p.slot (h.pending_lt hp)
  apply insertAfter_pairwise Packet.slot hsorted
  · intro p hp hbelow
    rw [decide_eq_true_eq, hpending p hp, hseq slot hlt] at hbelow
    exact hbelow
  · intro p hp hbelow
    rw [decide_eq_false_iff_not, hpending p hp, hseq slot hlt, Nat.not_lt] at hbelow
    refine lt_of_le_of_ne hbelow fun e => hnot ?_
    have hm : p.slot ∈ slots s.pendingHead := mem_map_of_mem hp
    rw [← (show slot = p.slot from e)] at hm
    exact hm

theorem Coordinator.wake_ne_asleep (c : Coordinator) (call : Call) : c.wake ≠ .asleep call := by
  cases c <;> exact Coordinator.noConfusion

theorem watchful_step (hp : Placed s) (h : Watchful s) (hstep : Step opts s a t) : Watchful t := by
  cases hstep with
  | call | flushed | waitSlot | drained | waitDrain | resume | wakeCoordinator | publish | giveBack =>
    exact ⟨h.sorted, nofun⟩
  | park _ hready hpos => exact ⟨h.sorted, fun _ _ => ⟨hready, hpos⟩⟩
  | @dispose c p ok _ => cases ok <;> exact ⟨h.sorted, nofun⟩
  | grant => exact ⟨fun hle => h.sorted ((Nat.le_succ _).trans hle), nofun⟩
  | take _ hhead _ =>
    refine ⟨fun hle => ?_, nofun⟩
    have hsorted := h.sorted hle
    rw [hhead] at hsorted
    exact (pairwise_cons.mp hsorted).2
  | publishPacket hslot =>
    exact ⟨fun hle => hp.insert_sorted hslot hle (h.sorted hle), fun c hc => absurd hc (Coordinator.wake_ne_asleep _ c)⟩
  | releaseSlot hslot => exact ⟨h.sorted, fun c hc => absurd hc (Coordinator.wake_ne_asleep _ c)⟩

theorem reachable_watchful (h : Reachable (system opts) s) : Watchful s := by
  refine h.invariant ?_ fun s a t hr hs hstep => watchful_step (reachable_placed hr) hs hstep
  intro s hs
  subst hs
  exact ⟨fun _ => List.Pairwise.nil, nofun⟩

theorem turn_held (hp : Placed s) (hc : Counted opts s) (hw : Watchful s) (hreserved : s.reserved ≤ seqModulus)
    (hreleased : s.released = []) {c : Call} (hcoord : s.coordinator = .asleep c) : (taken s).length ∈ s.held := by
  obtain ⟨hready, hpos⟩ := hw.asleep c hcoord
  have hslots := hp.taken_slots hc hreserved
  have hcount := hc.reserved_eq
  have hpublished := congrArg List.length hc.published_eq
  have htaken : (taken s).length = s.published.length := by simp [taken, hcoord, Coordinator.inHand]
  rw [hcoord] at hpublished
  rw [hreleased, length_nil] at hcount
  have hlt : (taken s).length < s.reserved := by
    simp only [Coordinator.unfinished, append_nil] at hpublished
    omega
  -- if the packet were in the list it would be at its head, and be published
  have hpending : (taken s).length ∉ slots s.pendingHead := by
    intro hm
    obtain ⟨p, hpm, hpslot⟩ := mem_map.mp hm
    have hsorted := hw.sorted hreserved
    cases hhead : s.pendingHead with
    | nil => rw [hhead] at hpm; cases hpm
    | cons q rest =>
      rw [hhead] at hpm hsorted
      have hq : q ∈ s.pendingHead := by rw [hhead]; exact mem_cons_self
      have hle : q.slot ≤ (taken s).length := by
        rw [← hpslot]
        cases mem_cons.mp hpm with
        | inl e => exact le_of_eq (congrArg Packet.slot e.symm)
        | inr hpm => exact le_of_lt ((pairwise_cons.mp hsorted).1 p hpm)
      have hge : ¬ q.slot < (taken s).length := by
        intro hlt'
        have hone : 0 < (slots s.pendingHead).count q.slot := count_pos_iff.mpr (mem_map_of_mem hq)
        have htwo : 0 < (slots (taken s)).count q.slot := by
          rw [hslots]
          exact count_pos_iff.mpr (mem_range.mpr hlt')
        have hplace := hp.places_eq q.slot
        unfold places at hplace
        split_ifs at hplace <;> omega
      have hof := congrArg Packet.seq (hp.ofSlot q (mem_append_left _ hq))
      have hturn : q.seq = s.nextPublishSeq := by
        rw [hof, hp.publish_eq, show q.slot = (taken s).length by omega]
        rfl
      rw [ready, hhead, head?_cons, Option.filter_some, if_pos (decide_eq_true hturn)] at hready
      cases hready
  have hplace := hp.places_eq (taken s).length
  unfold places at hplace
  rw [if_pos hlt, hreleased, count_eq_zero.mpr hpending, hslots, count_eq_zero.mpr not_mem_range_self] at hplace
  exact count_pos_iff.mp (by simp only [count_nil] at hplace; omega)

/-- **Main result.** The n-th packet published has the sequence number n. The slots in flight are at most
`maxInflight`, and those reserved but for the released and the published. When `drain` returns true every slot reserved
has been published or released. Short of the wrap-around, and with no slot released, the coordinator sleeps only while
a worker has the packet whose turn it is. -/
theorem publication_in_order (h : Reachable (system opts) s) :
    s.published.map Packet.seq = (List.range s.published.length).map (· % seqModulus) ∧
    (slots s.published).Nodup ∧
    s.inflight ≤ opts.maxInflight ∧
    s.inflight = s.reserved - (s.finished.length + s.released.length) ∧
    s.finished.length + s.released.length ≤ s.reserved ∧
    (s.published = s.finished ∨ ∃ call p ok, s.coordinator = .published call p ok ∧ s.published = s.finished ++ [p]) ∧
    (∀ t, Step opts s .drained t → ∀ slot, slot < s.reserved →
      (slots s.published).count slot + s.released.count slot = 1) ∧
    (s.reserved ≤ seqModulus → s.released = [] → ∀ call, s.coordinator = .asleep call → s.published.length ∈ s.held) := by
  have hp := reachable_placed h
  have hc := reachable_counted h
  have hcount := hc.reserved_eq
  refine ⟨hp.published_order, hp.published_nodup, hc.inflight_le, by omega, by omega, ?_, ?_, ?_⟩
  · have hpublished := hc.published_eq
    cases hcoord : s.coordinator with
    | published call p ok =>
      rw [hcoord] at hpublished
      exact Or.inr ⟨call, p, ok, rfl, hpublished⟩
    | idle | flushing _ | publishing _ _ | disposing _ _ _ | flushed _ | waiting _ | asleep _ =>
      rw [hcoord] at hpublished
      exact Or.inl (hpublished.trans (append_nil _))
  · intro t hstep slot hlt
    cases hstep with
    | drained hcoord hzero =>
      have hinflight := hc.inflight_eq
      have hheld : s.held = [] := length_eq_zero_iff.mp (by omega)
      have hpending : s.pendingHead = [] := length_eq_zero_iff.mp (by omega)
      have hplace := hp.places_eq slot
      unfold places taken at hplace
      rw [if_pos hlt, hheld, hpending, hcoord] at hplace
      simp only [Coordinator.inHand, append_nil, slots, map_nil, count_nil] at hplace
      unfold slots
      omega
  · intro hreserved hreleased call hcoord
    have htaken : (taken s).length = s.published.length := by simp [taken, hcoord, Coordinator.inHand]
    rw [← htaken]
    exact turn_held hp hc (reachable_watchful h) hreserved hreleased hcoord

def twoSlots : Opts := { maxInflight := 2, cancel := true, dispose := true, maxInflight_pos := Nat.two_pos }

/-- The second slot is completed first, and published second. -/
theorem publication_in_order_two : ∃ s, Reachable (system twoSlots) s ∧ s.published = [.ofSlot 0, .ofSlot 1] ∧
    (slots s.published).Nodup := by
  have h0 : Reachable (system twoSlots) initial := .init rfl
  have h1 := h0.step (Step.call (c := .reserveSlot) rfl)
  have h2 := h1.step (Step.flushed rfl rfl)
  have h3 := h2.step (Step.grant rfl (by decide))
  have h4 := h3.step (Step.call (c := .reserveSlot) rfl)
  have h5 := h4.step (Step.flushed rfl rfl)
  have h6 := h5.step (Step.grant rfl (by decide))
  have h7 := h6.step (@Step.publishPacket twoSlots _ 1 (by decide))
  have h8 := h7.step (@Step.publishPacket twoSlots _ 0 (by decide))
  have h9 := h8.step (Step.call (c := .drain) rfl)
  have h10 := h9.step (Step.take rfl rfl rfl)
  have h11 := h10.step (@Step.publish twoSlots _ _ _ true rfl)
  have h12 := h11.step (Step.giveBack rfl)
  have h13 := h12.step (Step.dispose rfl)
  have h14 := h13.step (Step.take rfl rfl rfl)
  have h15 := h14.step (@Step.publish twoSlots _ _ _ true rfl)
  exact ⟨_, h15, rfl, (publication_in_order h15).2.1⟩

end Bx.OrderedPublication
