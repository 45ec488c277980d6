import Bx.Ash.ScopeStackMemory
import Bx.Kit.Chain

/-!
# Runs of the scope stack

Every operation keeps the stack in order. While a function runs, nothing reaches
the frames below its own, so that popping it gives the caller its parameters back.
-/

namespace Bx.Ash.Scopes

open Bx.Kit List

structure Ordered (s : ScopeStack) : Prop where
  stacked : Stacked s.shell.scopes s.frames
  pending : s.shell.pendingExports.Nodup
  held : ∃ owned lent, Held s.heap lent s.frames owned ∧ Owns s.heap (owned ++ lent)

/-- The frames have the values that they had before. -/
def SameTexts (frames : List ScopeFrame) (s t : ScopeStack) : Prop :=
  ∀ frame ∈ frames, frame.positionals.texts t.heap = frame.positionals.texts s.heap

section
variable {s t u : ScopeStack} {frames : List ScopeFrame} {scopes : List Scope} {q : PositionalFrame}

theorem Ordered.invariants (h : Ordered s) : scopeStackInvariants s = true := by
  unfold scopeStackInvariants
  rw [h.stacked.invariants, decide_eq_true h.pending]
  cases hscopes : s.shell.scopes with
  | nil => exact absurd hscopes h.stacked.ne_nil
  | cons scope scopes => rfl

theorem frameInvariants_replace {kind : ScopeKind} {frame : ScopeFrame} (hhas : frame.hasPositionals = true)
    (hq : positionalsInvariants q = true) (h : frameInvariants kind frame = true) :
    frameInvariants kind { frame with positionals := q } = true := by
  unfold frameInvariants at h ⊢
  rw [hhas, if_pos rfl, Bool.and_eq_true] at h
  dsimp only
  rw [hhas, if_pos rfl, hq, h.1]
  rfl

theorem Stacked.updateActive (h : Stacked scopes frames) (hq : positionalsInvariants q = true) :
    Stacked scopes (updateActive q frames) := by
  induction h with
  | @global scope frame hkind hfits =>
    unfold Scopes.updateActive
    by_cases hhas : frame.hasPositionals = true
    · rw [if_pos hhas]
      exact .global hkind ⟨hfits.vars, frameInvariants_replace hhas hq hfits.frame⟩
    · rw [if_neg hhas]
      exact .global hkind hfits
  | @push scope frame scopes frames hkind hfits hrest ih =>
    unfold Scopes.updateActive
    by_cases hhas : frame.hasPositionals = true
    · rw [if_pos hhas]
      exact .push hkind ⟨hfits.vars, frameInvariants_replace hhas hq hfits.frame⟩ hrest
    · rw [if_neg hhas]
      exact .push hkind hfits ih

theorem active_updateActive {p : PositionalFrame} (h : active frames = some p) :
    active (updateActive q frames) = some q ∧ under (updateActive q frames) = under frames := by
  induction frames with
  | nil => cases h
  | cons frame below ih =>
    unfold active at h
    unfold updateActive
    by_cases hhas : frame.hasPositionals = true
    · rw [if_pos hhas]
      unfold active under
      rw [if_pos hhas, if_pos hhas]
      exact ⟨rfl, rfl⟩
    · rw [if_neg hhas] at h ⊢
      unfold active under
      rw [if_neg hhas, if_neg hhas, if_neg hhas]
      exact ih h

/-! ## Setting positional parameters -/

/-- A copy that is the frame's own, or everything as it was -/
def Sets (s : ScopeStack) (values : Option Pointer) (count : Nat) (ok : Bool) (t : ScopeStack) : Prop :=
  t.shell = s.shell ∧ SameTexts (under s.frames) s t ∧
    if ok then
      ∃ p own texts, t.frames = updateActive p s.frames ∧ active t.frames = some p ∧
        valuesFrom s.heap values count 0 = some texts ∧ OwnedBy t.heap p own ∧ Reads t.heap p own texts ∧
        p.argv0 = (active s.frames).bind (·.argv0)
    else t.frames = s.frames ∧ SameTexts s.frames s t

theorem setPositionals_spec (h : Ordered s) (values : Option Pointer) (count : Nat) (succeeds : Nat → Bool)
    (hread : values ≠ none → Readable s.heap values count) :
    ∃ ok t, setPositionals s values count succeeds = some (ok, t) ∧ Ordered t ∧ Sets s values count ok t := by
  obtain ⟨p, hactive, -⟩ := h.stacked.active
  obtain ⟨owned, lent, hheld, howns⟩ := h.held
  obtain ⟨own, below, previous, rfl, hown, -, hunder, hnew⟩ := hheld.replace hactive
  obtain ⟨heap, copy, hcopy, hcopied⟩ := positionalFrameCopy_spec succeeds howns (show PositionalFrame.values { argv0 := p.argv0, values, count } ≠ none → _ from hread)
  have howned : ∀ a ∈ own, a ∈ own ++ below ++ lent := fun a ha => mem_append_left _ (mem_append_left _ ha)
  have hrest : ∀ a ∈ below ++ lent, a ∈ own ++ below ++ lent := by
    intro a ha
    rw [append_assoc]
    exact mem_append_right _ ha
  unfold setPositionals
  rw [hactive]
  dsimp only
  rw [hcopy]
  cases copy with
  | none =>
    obtain ⟨howns', hagree⟩ := hcopied (own ++ below ++ lent) howns
    have hsame := hheld.same hagree
    refine ⟨false, _, rfl, ⟨h.stacked, h.pending, _, lent, hheld.agree hagree, howns'⟩, rfl, ?_, rfl, hsame⟩
    exact hunder.same (hagree.mono hrest)
  | some replacement =>
    obtain ⟨own', texts, hlocal, hown', hreads, htexts, hargv0, hinvariants⟩ := hcopied
    obtain ⟨howns', hagree⟩ := hlocal (own ++ below ++ lent) howns
    have hprevious := hown.agree (hagree.mono howned)
    have hperm : (own' ++ (own ++ below ++ lent)).Perm (own ++ (own' ++ (below ++ lent))) := by
      rw [append_assoc own, ← append_assoc, ← append_assoc own]
      exact perm_append_comm.append_right _
    obtain ⟨howns'', hagree'⟩ := destroy_local hprevious (own' ++ (below ++ lent)) (howns'.perm hperm)
    have hbelow : Agree s.heap (positionalFrameDestroy heap p) (below ++ lent) :=
      (hagree.mono hrest).trans (hagree'.mono fun a ha => mem_append_right _ ha)
    have hmine : Agree heap (positionalFrameDestroy heap p) own' := hagree'.mono fun a ha => mem_append_left _ ha
    refine ⟨true, _, rfl, ⟨h.stacked.updateActive hinvariants, h.pending, own' ++ below, lent, ?_, ?_⟩, rfl, ?_, ?_⟩
    · exact hnew hbelow (hown'.agree hmine) ((hreads.agree hmine).mono fun a ha => mem_append_left _ ha)
    · rw [append_assoc]
      exact howns''
    · exact hunder.same hbelow
    · rw [if_pos rfl]
      refine ⟨replacement, own', texts, rfl, (active_updateActive hactive).1, htexts, hown'.agree hmine, hreads.agree hmine, ?_⟩
      rw [hactive, hargv0]
      rfl

/-! ## The other operations -/

section
variable (h : Ordered s)
include h

theorem shift_ordered (count : Nat) : Ordered (shift s count).2 := by
  obtain ⟨p, hactive, hinvariants⟩ := h.stacked.active
  unfold shift
  rw [hactive]
  dsimp only
  by_cases hmany : count > p.count
  · rw [if_pos hmany]
    exact h
  rw [if_neg hmany]
  obtain ⟨owned, lent, hheld, howns⟩ := h.held
  obtain ⟨own, below, texts, rfl, hown, hreads, -, hnew⟩ := hheld.replace hactive
  refine ⟨h.stacked.updateActive ?_, h.pending, own ++ below, lent, ?_, howns⟩
  · unfold positionalsInvariants at hinvariants ⊢
    simp only [Bool.and_eq_true, Bool.or_eq_true, decide_eq_true_iff] at hinvariants ⊢
    obtain ⟨⟨⟨hargv0, hvalues⟩, howned⟩, hcount⟩ := hinvariants
    refine ⟨⟨⟨hargv0, ?_⟩, howned⟩, hcount.imp_right fun hle => Nat.le_trans (Nat.sub_le _ _) hle⟩
    cases hvalues with
    | inl hzero => exact .inl (by omega)
    | inr hsome =>
      refine .inr ?_
      split
      · rwa [Option.isSome_map]
      · exact hsome
  · refine hnew (Agree.refl _ _) hown (show Reads _ _ _ (texts.drop count) from ?_)
    intro heap' hagree
    have hlater := valuesFrom_later (Nat.le_of_not_lt hmany)
      (show valuesFrom heap' p.values p.count 0 = some texts from hreads heap' hagree)
    unfold PositionalFrame.texts
    dsimp only
    by_cases hzero : count ≠ 0
    · rw [if_pos hzero]
      cases hvalues : p.values with
      | none =>
        rw [hvalues] at hlater
        cases hleft : p.count - count with
        | zero =>
          rw [hleft] at hlater
          exact hlater
        | succ left =>
          rw [hleft] at hlater
          obtain ⟨a, text, rest, helement, -⟩ := valuesFrom_succ.mp hlater
          cases helement
      | some pointer =>
        rw [hvalues] at hlater
        rw [Option.map_some, valuesFrom_offset]
        exact hlater
    · rw [if_neg hzero]
      rw [Decidable.not_not.mp hzero] at hlater ⊢
      exact hlater

theorem pushTemporary_ordered (memory : Bool) : Ordered (pushTemporary s memory).2 := by
  unfold pushTemporary
  split
  · exact h
  · obtain ⟨owned, lent, hheld, howns⟩ := h.held
    refine ⟨.push (by decide) ⟨rfl, by decide⟩ h.stacked, h.pending, owned, lent, ?_, howns⟩
    rw [← nil_append owned]
    exact .cons (fun _ => rfl) rfl (fun _ _ => rfl) hheld

theorem pushFunction_ordered (values : Option Pointer) (count : Nat) (memory : Bool)
    (hread : values ≠ none → (valuesFrom s.heap values count 0).isSome = true) :
    Ordered (pushFunction s values count memory).2 := by
  unfold pushFunction
  split
  · exact h
  · next hargs =>
    simp only [Bool.or_eq_true, Bool.and_eq_true, decide_eq_true_iff, not_or, not_and, Bool.not_eq_true] at hargs
    obtain ⟨caller, hactive, hcaller⟩ := h.stacked.active
    rw [hactive]
    dsimp only
    split
    · exact h
    · obtain ⟨owned, lent, hheld, howns⟩ := h.held
      have hvalues : ∃ texts, valuesFrom s.heap values count 0 = some texts := by
        cases hnone : values with
        | none =>
          have hzero : count = 0 := by
            by_cases hpos : count > 0
            · have hsome := hargs.2 hpos
              simp [hnone] at hsome
            · omega
          rw [hzero]
          exact ⟨[], rfl⟩
        | some pointer => exact hnone ▸ Option.isSome_iff_exists.mp (hread (by rw [hnone]; exact (nomatch ·)))
      obtain ⟨texts, htexts⟩ := hvalues
      refine ⟨.push (by decide) ⟨rfl, ?_⟩ h.stacked, h.pending, owned, lent, ?_, howns⟩
      · unfold frameInvariants positionalsInvariants
        dsimp only
        rw [argv0_isSome hcaller]
        cases values with
        | none =>
          have hzero : count = 0 := by
            by_cases hpos : count > 0
            · cases hargs.2 hpos
            · omega
          rw [hzero]
          rfl
        | some pointer => simp
      · rw [← nil_append owned]
        exact .cons (nomatch ·) rfl (reads_live howns htexts) hheld

theorem pop_spec (setenv locale : Name → Bool) (kind : ScopeKind) : let t := (pop setenv locale s kind).2
    Ordered t ∧ ((pop setenv locale s kind).1 = .mismatch ∧ t = s ∨
      (∃ removed frame, s.shell.scopes = removed :: t.shell.scopes ∧ s.frames = frame :: t.frames) ∧ SameTexts t.frames s t) := by
  dsimp only
  unfold pop
  cases hscopes : s.shell.scopes with
  | nil => exact absurd hscopes h.stacked.ne_nil
  | cons removed parents =>
    cases hframes : s.frames with
    | nil => exact ⟨h, .inl ⟨rfl, rfl⟩⟩
    | cons frame frames =>
      dsimp only
      by_cases hmismatch : (removed.kind = .global || removed.kind ≠ kind) = true
      · rw [if_pos hmismatch]
        exact ⟨h, .inl ⟨rfl, rfl⟩⟩
      · rw [if_neg hmismatch]
        have hkept := publishRemoved_kept setenv locale (removed.vars.map (·.name)) { s.shell with scopes := parents }
        have hparents := publishRemoved_scopes setenv locale (removed.vars.map (·.name)) { s.shell with scopes := parents }
        obtain ⟨owned, lent, hheld, howns⟩ := h.held
        have hstacked := h.stacked
        rw [hscopes, hframes] at hstacked
        rw [hframes] at hheld
        cases hheld with
        | @cons frame frames own below texts hzero hown hreads hrest =>
          rw [append_assoc] at howns
          obtain ⟨howns', hagree⟩ := destroy_local hown (below ++ lent) howns
          refine ⟨⟨?_, hkept.pending h.pending, below, lent, hrest.agree hagree, howns'⟩, .inr ⟨⟨removed, frame, ?_, rfl⟩, ?_⟩⟩
          · cases hstacked with
            | global hkind _ => exact absurd (by rw [hkind]; rfl) hmismatch
            | push _ _ hstacked => exact hkept.scopes hstacked
          · dsimp only
            rw [hparents]
          · exact hrest.same hagree

theorem lend_ordered (cell : Cell) :
    Ordered { s with heap := (s.heap.alloc cell).1 } ∧ SameTexts s.frames s { s with heap := (s.heap.alloc cell).1 } := by
  obtain ⟨owned, lent, hheld, howns⟩ := h.held
  obtain ⟨howns', hagree⟩ := Local.alloc s.heap cell (owned ++ lent) howns
  refine ⟨⟨h.stacked, h.pending, owned, (s.heap.alloc cell).2 :: lent, ?_, howns'.perm ?_⟩, hheld.same hagree⟩
  · exact (hheld.agree hagree).lend fun a ha => mem_cons_of_mem _ ha
  · rw [singleton_append]
    exact perm_middle.symm

end

/-- What a step may do to the frames -/
inductive Moved (t u : ScopeStack) : Prop
  | keep : u.frames = t.frames → SameTexts t.frames t u → Moved t u
  | push (frame : ScopeFrame) : u.frames = frame :: t.frames → SameTexts t.frames t u → Moved t u
  | pop (frame : ScopeFrame) : t.frames = frame :: u.frames → SameTexts u.frames t u → Moved t u
  | update (q : PositionalFrame) : u.frames = updateActive q t.frames → SameTexts (under t.frames) t u → Moved t u

theorem Moved.refl (s : ScopeStack) : Moved s s := .keep rfl fun _ _ => rfl

theorem pushTemporary_moved (s : ScopeStack) (memory : Bool) : Moved s (pushTemporary s memory).2 := by
  unfold pushTemporary
  split
  · exact .refl s
  · exact .push _ rfl fun _ _ => rfl

theorem pushFunction_moved (s : ScopeStack) (values : Option Pointer) (count : Nat) (memory : Bool) :
    Moved s (pushFunction s values count memory).2 := by
  unfold pushFunction
  split
  · exact .refl s
  · split
    · exact .refl s
    · split
      · exact .refl s
      · exact .push _ rfl fun _ _ => rfl

theorem shift_moved (s : ScopeStack) (count : Nat) : Moved s (shift s count).2 := by
  unfold shift
  split
  · exact .refl s
  · dsimp only
    split
    · exact .refl s
    · exact .update _ rfl fun _ _ => rfl

variable {values : Option Pointer} {count : Nat}

theorem Sets.moved {ok : Bool} (h : Sets s values count ok t) : Moved s t := by
  obtain ⟨-, hunder, h⟩ := h
  cases ok with
  | true =>
    rw [if_pos rfl] at h
    obtain ⟨p, own, texts, hframes, -⟩ := h
    exact .update p hframes hunder
  | false =>
    rw [if_neg (by decide)] at h
    exact .keep h.1 h.2

theorem runStackOp_ordered (h : Ordered s) {op : StackOp} (hpromised : Promised s op) :
    ∃ t, runStackOp s op = some t ∧ Ordered t ∧ Moved s t := by
  have hkept := runVarOp_kept op h.pending
  cases op with
  | pushTemporary memory => exact ⟨_, rfl, pushTemporary_ordered h memory, pushTemporary_moved s memory⟩
  | pushFunction values count memory =>
    exact ⟨_, rfl, pushFunction_ordered h values count memory hpromised, pushFunction_moved s values count memory⟩
  | pop kind setenv locale =>
    obtain ⟨hordered, hpopped⟩ := pop_spec h setenv locale kind
    refine ⟨_, rfl, hordered, ?_⟩
    cases hpopped with
    | inl hsame =>
      rw [hsame.2]
      exact .refl s
    | inr hpopped =>
      obtain ⟨⟨removed, frame, -, hframes⟩, hsame⟩ := hpopped
      exact .pop frame hframes hsame
  | setPositionals values count succeeds =>
    obtain ⟨ok, t, hset, hordered, hsets⟩ := setPositionals_spec h values count succeeds hpromised
    refine ⟨t, ?_, hordered, hsets.moved⟩
    show (setPositionals s values count succeeds).map (·.2) = some t
    rw [hset]
    rfl
  | shift count => exact ⟨_, rfl, shift_ordered h count, shift_moved s count⟩
  | lend cell => exact ⟨_, rfl, (lend_ordered h cell).1, .keep rfl (lend_ordered h cell).2⟩
  | _ => exact ⟨_, rfl, ⟨hkept.scopes h.stacked, hkept.pending h.pending, h.held⟩, .keep rfl fun _ _ => rfl⟩

theorem fresh_stacked (entries : List (Name × CStr)) (allexport : Bool) (argv0 : CStr)
    (hvalues : count = 0 ∨ values.isSome = true) :
    Stacked (fresh entries allexport).scopes [⟨true, { argv0 := some argv0, values, count }⟩] := by
  refine .global rfl ⟨rfl, ?_⟩
  unfold frameInvariants positionalsInvariants
  simpa [fresh] using hvalues

theorem reachable_ordered (h : Reachable system s) : Ordered s := by
  refine h.invariant ?_ ?_
  · intro s ⟨entries, allexport, heap, lent, argv0, values, count, howns, hread, hs⟩
    obtain ⟨texts, htexts⟩ := Option.isSome_iff_exists.mp hread
    have hvalues : count = 0 ∨ values.isSome = true := by
      cases count with
      | zero => exact .inl rfl
      | succ left =>
        obtain ⟨a, text, rest, helement, -⟩ := valuesFrom_succ.mp htexts
        cases values with
        | none => cases helement
        | some pointer => exact .inr rfl
    rw [hs]
    refine ⟨fresh_stacked entries allexport argv0 hvalues, nodup_nil, [], lent, ?_, howns⟩
    rw [← nil_append []]
    exact .cons (nomatch ·) rfl (reads_live howns htexts) .nil
  · intro s op t _ hs ⟨hpromised, hstep⟩
    obtain ⟨t', hrun, hordered, -⟩ := runStackOp_ordered hs hpromised
    rw [hrun] at hstep
    cases hstep
    exact hordered

end

/-! ## Popping -/

section
variable {base s t u : ScopeStack} {inner rest : List ScopeFrame} {callee : ScopeFrame} {q : PositionalFrame}

/-- A function has been called and has not returned yet. -/
def Inside (base t : ScopeStack) : Prop :=
  ∃ inner callee, t.frames = inner ++ callee :: base.frames ∧ callee.hasPositionals = true ∧ SameTexts base.frames base t

variable {frames : List ScopeFrame}

theorem SameTexts.trans (h : SameTexts frames s t) (h' : SameTexts frames t u) :
    SameTexts frames s u := fun frame hframe => (h' frame hframe).trans (h frame hframe)

theorem updateActive_append (hhas : callee.hasPositionals = true) :
    (∃ inner' callee', updateActive q (inner ++ callee :: rest) = inner' ++ callee' :: rest ∧ callee'.hasPositionals = true) ∧
      ∀ frame ∈ rest, frame ∈ under (inner ++ callee :: rest) := by
  induction inner with
  | nil =>
    rw [nil_append]
    unfold updateActive under
    rw [if_pos hhas, if_pos hhas]
    exact ⟨⟨[], _, rfl, hhas⟩, fun _ => id⟩
  | cons frame inner ih =>
    obtain ⟨⟨inner', callee', hupdate, hhas'⟩, hunder⟩ := ih
    rw [cons_append]
    unfold updateActive under
    by_cases hframe : frame.hasPositionals = true
    · rw [if_pos hframe, if_pos hframe]
      exact ⟨⟨_ :: inner, callee, rfl, hhas⟩, fun _ h => mem_append_right _ (mem_cons_of_mem _ h)⟩
    · rw [if_neg hframe, if_neg hframe, hupdate]
      exact ⟨⟨frame :: inner', callee', rfl, hhas'⟩, hunder⟩

theorem SameTexts.mono {frames' : List ScopeFrame} (h : SameTexts frames s t) (hsub : ∀ frame ∈ frames', frame ∈ frames) :
    SameTexts frames' s t := fun frame hframe => h frame (hsub frame hframe)

theorem Inside.step (h : Inside base t) (hmoved : Moved t u) (hdeep : base.frames.length < u.frames.length) :
    Inside base u := by
  obtain ⟨inner, callee, heq, hhas, hbase⟩ := h
  have hin : ∀ frame ∈ base.frames, frame ∈ inner ++ callee :: base.frames :=
    fun _ h => mem_append_right _ (mem_cons_of_mem _ h)
  cases hmoved with
  | keep hframes hsame =>
    rw [heq] at hframes hsame
    exact ⟨inner, callee, hframes, hhas, hbase.trans (hsame.mono hin)⟩
  | push frame hframes hsame =>
    rw [heq] at hframes hsame
    exact ⟨frame :: inner, callee, hframes, hhas, hbase.trans (hsame.mono hin)⟩
  | pop frame hframes hsame =>
    rw [heq] at hframes
    cases inner with
    | nil =>
      rw [← (cons_eq_cons.mp hframes).2] at hdeep
      exact absurd hdeep (lt_irrefl _)
    | cons other inner =>
      have htail := (cons_eq_cons.mp hframes).2
      refine ⟨inner, callee, htail.symm, hhas, hbase.trans (hsame.mono ?_)⟩
      rw [← htail]
      exact fun _ h => mem_append_right _ (mem_cons_of_mem _ h)
  | update q hframes hsame =>
    rw [heq] at hframes hsame
    obtain ⟨⟨inner', callee', hupdate, hhas'⟩, hunder⟩ := updateActive_append hhas
    exact ⟨inner', callee', hframes.trans hupdate, hhas', hbase.trans (hsame.mono hunder)⟩

/-! ### What a temporary scope leaves -/

def flags (frames : List ScopeFrame) : List Bool := frames.map (·.hasPositionals)

theorem flags_updateActive (q : PositionalFrame) (frames : List ScopeFrame) : flags (updateActive q frames) = flags frames := by
  induction frames with
  | nil => rfl
  | cons frame below ih =>
    unfold updateActive
    split
    · rfl
    · exact congrArg (frame.hasPositionals :: ·) ih

theorem flags_suffix {flags' : List Bool} (hlength : flags'.length ≤ u.frames.length) (hmoved : Moved t u)
    (h : flags' <:+ flags t.frames) : flags' <:+ flags u.frames := by
  cases hmoved with
  | keep hframes _ => rwa [hframes]
  | push frame hframes _ =>
    rw [hframes]
    exact h.trans (suffix_cons _ _)
  | pop frame hframes _ =>
    rw [hframes] at h
    refine (suffix_cons_iff.mp h).resolve_left ?_
    intro heq
    rw [heq, length_cons, length_map] at hlength
    omega
  | update q hframes _ => rwa [hframes, flags_updateActive]

/-- What a push that succeeds makes of the stack -/
inductive Pushed (s : ScopeStack) : ScopeKind → ScopeStack → Prop
  | temporary (memory : Bool) : (pushTemporary s memory).1 = true →
    Pushed s .temporaryAssignment (pushTemporary s memory).2
  | function (values : Option Pointer) (count : Nat) (memory : Bool) : Promised s (.pushFunction values count memory) →
    (pushFunction s values count memory).1 = true → Pushed s .function (pushFunction s values count memory).2

def positionalTexts (s : ScopeStack) : Option (List CStr) := (active s.frames).bind (·.texts s.heap)

/-- The steps that leave the scope there -/
def Body (depth : Nat) (t : ScopeStack) (op : StackOp) : Prop :=
  ∀ u, runStackOp t op = some u → depth < u.frames.length

/-- Popping gives back the bindings that outer scopes have kept, and a function its caller's parameters. -/
def PopRestores (s : ScopeStack) : Prop :=
  ∀ kind pushed, Pushed s kind pushed → ∀ ops t, Run (system.guarded (Body s.frames.length)) pushed ops t →
    ∀ setenv locale kind', let u := (pop setenv locale t kind').2
    u.frames.length = s.frames.length →
      (∀ n, (∀ level, level < s.shell.scopes.length → levelBinding t.shell level n = levelBinding s.shell level n) →
        visible u.shell.scopes n = visible s.shell.scopes n) ∧
      (kind = .function → active u.frames = active s.frames ∧ positionalTexts u = positionalTexts s) ∧
      (kind = .temporaryAssignment → active u.frames = active t.frames ∧ positionalTexts u = positionalTexts t)

theorem positionalTexts_same (ht : t.frames = frames) (hs : s.frames = frames)
    (hsame : SameTexts frames s t) : positionalTexts t = positionalTexts s := by
  unfold positionalTexts
  rw [ht, hs]
  clear ht hs
  induction frames with
  | nil => rfl
  | cons frame below ih =>
    unfold active
    split
    · exact hsame frame mem_cons_self
    · exact ih fun other hother => hsame other (mem_cons_of_mem _ hother)

theorem Pushed.spec {kind : ScopeKind} {pushed : ScopeStack} (hs : Ordered s) (h : Pushed s kind pushed) :
    Ordered pushed ∧ ∃ frame, pushed.frames = frame :: s.frames ∧ pushed.heap = s.heap ∧
      (frame.hasPositionals = true ↔ kind = .function) ∧ (frame.hasPositionals = false ↔ kind = .temporaryAssignment) := by
  cases h with
  | temporary memory hok =>
    refine ⟨pushTemporary_ordered hs memory, ?_⟩
    unfold pushTemporary at hok ⊢
    split at hok
    · cases hok
    · rw [if_neg ‹_›]
      exact ⟨_, rfl, rfl, by simp, by simp⟩
  | function values count memory hpromised hok =>
    refine ⟨pushFunction_ordered hs values count memory hpromised, ?_⟩
    unfold pushFunction at hok ⊢
    split at hok
    · cases hok
    · rw [if_neg ‹_›]
      obtain ⟨caller, hactive, -⟩ := hs.stacked.active
      rw [hactive] at hok ⊢
      dsimp only at hok ⊢
      split at hok
      · cases hok
      · rw [if_neg ‹_›]
        exact ⟨_, rfl, rfl, by simp, by simp⟩

theorem popRestores (hs : Ordered s) : PopRestores s := by
  intro kind pushed hpushed ops t hrun setenv locale kind' u hlength
  obtain ⟨hordered, frame, hframes, hheap, hfunction, htemporary⟩ := hpushed.spec hs
  have hsame : SameTexts s.frames s pushed := by
    intro frame _
    rw [hheap]
  have hbody : Ordered t ∧ s.frames.length < t.frames.length ∧ flags pushed.frames <:+ flags t.frames ∧
      (frame.hasPositionals = true → Inside s t) := by
    refine hrun.invariant (I := fun t => Ordered t ∧ s.frames.length < t.frames.length ∧
      flags pushed.frames <:+ flags t.frames ∧ (frame.hasPositionals = true → Inside s t)) ?_ ?_
    · refine ⟨hordered, by rw [hframes]; exact Nat.lt_succ_self _, suffix_rfl, ?_⟩
      exact fun hhas => ⟨[], frame, hframes, hhas, hsame⟩
    · intro t op u ⟨ht, _, hflags, hinside⟩ ⟨hdeep, hpromised, hstep⟩
      obtain ⟨u', hstep', hu, hmoved⟩ := runStackOp_ordered ht hpromised
      rw [hstep] at hstep'
      cases hstep'
      refine ⟨hu, hdeep u hstep, flags_suffix ?_ hmoved hflags, ?_⟩
      · unfold flags
        rw [length_map, hframes, length_cons]
        exact hdeep u hstep
      · exact fun hhas => (hinside hhas).step hmoved (hdeep u hstep)
  obtain ⟨ht, hdeep, hflags, hinside⟩ := hbody
  obtain ⟨hu, hpopped⟩ := pop_spec ht setenv locale kind'
  cases hpopped with
  | inl hmismatch =>
    rw [show u = t from hmismatch.2] at hlength
    omega
  | inr hpopped =>
    obtain ⟨⟨removed, top, hscopes, htop⟩, hkept⟩ := hpopped
    change t.frames = top :: u.frames at htop
    change t.shell.scopes = removed :: u.shell.scopes at hscopes
    have hdepth : u.shell.scopes.length = s.shell.scopes.length := by
      rw [← hu.stacked.length, ← hs.stacked.length]
      exact hlength
    refine ⟨?_, ?_, ?_⟩
    · intro n hlevels
      apply visible_of_levels hdepth
      intro level hlevel
      rw [← levelBinding_cons hscopes hlevel]
      exact hlevels level (hdepth ▸ hlevel)
    · intro hkind
      obtain ⟨inner, callee, heq, -, hbase⟩ := hinside (hfunction.mpr hkind)
      have hinner : u.frames = s.frames := by
        rw [htop] at heq
        cases inner with
        | nil => exact (cons_eq_cons.mp heq).2
        | cons other inner =>
          have htail : u.frames = inner ++ callee :: s.frames := (cons_eq_cons.mp heq).2
          have hmore := congrArg List.length htail
          rw [length_append, length_cons] at hmore
          omega
      refine ⟨by rw [hinner], positionalTexts_same hinner rfl (hbase.trans ?_)⟩
      rw [← hinner]
      exact hkept
    · intro hkind
      have hflag : top.hasPositionals = false := by
        rw [htop, hframes] at hflags
        have hsuffix := hflags.eq_of_length (by
          unfold flags
          rw [length_map, length_map, length_cons, length_cons, hlength])
        have hhead := (cons_eq_cons.mp (show frame.hasPositionals :: flags s.frames = top.hasPositionals :: flags u.frames
          from hsuffix)).1
        rw [← hhead]
        exact htemporary.mpr hkind
      have hactive : active t.frames = active u.frames := by
        rw [htop]
        exact if_neg (by rw [hflag]; decide)
      refine ⟨hactive.symm, ?_⟩
      unfold positionalTexts
      rw [hactive]
      exact positionalTexts_same (s := { t with frames := u.frames }) (t := u) rfl rfl hkept

end

/-! ## References to names -/

section
variable {scopes : List Scope} {name : CStr} {found : Nat × Var}

/-- Where a reference leads, unless its target is invalid or not set -/
def nextReference (scopes : List Scope) (found : Nat × Var) : Option (Nat × Var) :=
  if found.2.attributes.nameref then
    found.2.value.getScalar.bind fun target =>
      if isValidNameSpan target then lookupRaw scopes target .visible else none
  else none

/-- The references never come to a variable that is none, to a name that is not set or to an invalid target. -/
def Endless (scopes : List Scope) (found : Nat × Var) : Prop := ∀ k, (chain (nextReference scopes) found k).isSome = true

def bindings : List Scope → List (Nat × Var)
  | [] => []
  | scope :: parents => scope.vars.map (0, ·) ++ (bindings parents).map fun found => (found.1 + 1, found.2)

theorem length_bindings (scopes : List Scope) : (bindings scopes).length = scopeVariableCount scopes := by
  induction scopes with
  | nil => rfl
  | cons scope parents ih =>
    unfold bindings scopeVariableCount
    rw [length_append, length_map, length_map, ih, map_cons, sum_cons]
    rfl

theorem mem_bindings {i : Nat} {scope : Scope} {var : Var} (hscope : scopes[i]? = some scope) (hvar : var ∈ scope.vars) :
    (i, var) ∈ bindings scopes := by
  induction scopes generalizing i with
  | nil => cases hscope
  | cons first parents ih =>
    unfold bindings
    cases i with
    | zero =>
      cases hscope
      exact mem_append_left _ (mem_map_of_mem hvar)
    | succ i => exact mem_append_right _ (mem_map.mpr ⟨(i, var), ih hscope, rfl⟩)

theorem searchScopes_mem (h : searchScopes name scopes = some found) : found ∈ bindings scopes := by
  induction scopes generalizing found with
  | nil => cases h
  | cons scope parents ih =>
    unfold searchScopes at h
    unfold bindings
    cases hfind : findInFrame scope name with
    | some var =>
      rw [hfind] at h
      cases h
      exact mem_append_left _ (mem_map_of_mem (mem_of_find?_eq_some hfind))
    | none =>
      rw [hfind] at h
      obtain ⟨below, hbelow, rfl⟩ := Option.map_eq_some_iff.mp h
      exact mem_append_right _ (mem_map_of_mem (ih hbelow))

theorem lookupRaw_mem {mode : LookupMode} (h : lookupRaw scopes name mode = some found) : found ∈ bindings scopes := by
  unfold lookupRaw at h
  cases mode with
  | visible => exact searchScopes_mem h
  | current =>
    cases scopes with
    | nil => cases h
    | cons scope parents =>
      have hmem := searchScopes_mem h
      unfold bindings at hmem ⊢
      simp only [take_succ_cons, take_zero, bindings, map_nil, append_nil] at hmem
      exact mem_append_left _ hmem
  | global =>
    obtain ⟨i, -, h⟩ := Option.bind_eq_some_iff.mp h
    obtain ⟨var, hvar, rfl⟩ := Option.map_eq_some_iff.mp h
    obtain ⟨scope, hscope, hfind⟩ := Option.bind_eq_some_iff.mp hvar
    exact mem_bindings hscope (mem_of_find?_eq_some hfind)
  | outer =>
    obtain ⟨below, hbelow, rfl⟩ := Option.map_eq_some_iff.mp h
    cases scopes with
    | nil => cases hbelow
    | cons scope parents =>
      unfold bindings
      exact mem_append_right _ (mem_map_of_mem (searchScopes_mem hbelow))

theorem nextReference_mem {next : Nat × Var} (h : nextReference scopes found = some next) : next ∈ bindings scopes := by
  unfold nextReference at h
  split at h
  · obtain ⟨target, -, h⟩ := Option.bind_eq_some_iff.mp h
    split at h
    · exact lookupRaw_mem h
    · cases h
  · cases h

theorem followLoop_cycle (scopes : List Scope) (left : Nat) (found : Nat × Var) :
    followLoop scopes left found = .namerefCycle ↔
      ∃ last, chain (nextReference scopes) found left = some last ∧ last.2.attributes.nameref = true := by
  induction left generalizing found with
  | zero =>
    obtain ⟨i, var⟩ := found
    unfold followLoop
    by_cases href : var.attributes.nameref = true
    · rw [if_neg (by rw [href]; decide)]
      exact ⟨fun _ => ⟨_, rfl, href⟩, fun _ => rfl⟩
    · rw [if_pos (by simpa using href)]
      refine ⟨(nomatch ·), ?_⟩
      intro ⟨last, hlast, h⟩
      cases hlast
      exact absurd h href
  | succ left ih =>
    obtain ⟨i, var⟩ := found
    rw [chain_succ]
    unfold followLoop nextReference
    dsimp only
    by_cases href : var.attributes.nameref = true
    · rw [if_neg (by rw [href]; decide), if_pos href]
      cases var.value.getScalar with
      | none => exact ⟨(nomatch ·), fun ⟨_, h, _⟩ => (nomatch h)⟩
      | some target =>
        dsimp only [Option.bind_some]
        by_cases hvalid : isValidNameSpan target = true
        · rw [if_neg (by rw [hvalid]; decide), if_pos hvalid]
          cases lookupRaw scopes target .visible with
          | none => exact ⟨(nomatch ·), fun ⟨_, h, _⟩ => (nomatch h)⟩
          | some next => exact ih next
        · rw [if_pos (by simpa using hvalid), if_neg hvalid]
          exact ⟨(nomatch ·), fun ⟨_, h, _⟩ => (nomatch h)⟩
    · rw [if_pos (by simpa using href), if_neg href]
      exact ⟨(nomatch ·), fun ⟨_, h, _⟩ => (nomatch h)⟩

theorem followLoop_endless (hfound : found ∈ bindings scopes) :
    followLoop scopes (scopeVariableCount scopes) found = .namerefCycle ↔ Endless scopes found := by
  rw [followLoop_cycle, ← length_bindings]
  refine ⟨?_, ?_⟩
  · intro ⟨last, hlast, _⟩
    apply chain_endless (nextReference scopes)
    · intro k b hb
      cases k with
      | zero =>
        cases hb
        exact hfound
      | succ k =>
        obtain ⟨before, -, hnext⟩ := Option.bind_eq_some_iff.mp hb
        exact nextReference_mem hnext
    · rw [hlast]
      rfl
  · intro hendless
    obtain ⟨last, hlast⟩ := Option.isSome_iff_exists.mp (hendless (bindings scopes).length)
    refine ⟨last, hlast, ?_⟩
    obtain ⟨after, hafter⟩ := Option.isSome_iff_exists.mp (hendless ((bindings scopes).length + 1))
    rw [chain, hlast, Option.bind_some] at hafter
    unfold nextReference at hafter
    by_cases href : last.2.attributes.nameref = true
    · exact href
    · simp [href] at hafter

/-- Where a name is found and its references never end, and nowhere else, there is a cycle. -/
def LookupExact (scopes : List Scope) : Prop :=
  ∀ name mode, scopeLookup scopes name mode true = .namerefCycle ↔
    ∃ found, lookupRaw scopes name mode = some found ∧ Endless scopes found

theorem lookupExact (scopes : List Scope) : LookupExact scopes := by
  intro name mode
  unfold scopeLookup
  cases hlookup : lookupRaw scopes name mode with
  | none => exact ⟨(nomatch ·), fun ⟨_, h, _⟩ => (nomatch h)⟩
  | some found =>
    obtain ⟨i, var⟩ := found
    dsimp only
    rw [if_pos rfl, followLoop_endless (lookupRaw_mem hlookup)]
    refine ⟨fun h => ⟨_, rfl, h⟩, ?_⟩
    intro ⟨found, hfound, h⟩
    cases hfound
    exact h

end

/-- The arguments that the process was given -/
def arguments : Heap :=
  ((((⟨[]⟩ : Heap).alloc (.text ['a'])).1.alloc (.text ['b'])).1.alloc (.array [some 0, some 1])).1

/-- `sh a b` -/
def started : ScopeStack := stackInit (fresh [] false) arguments ['s', 'h'] (some ⟨2, 0⟩) 2

end Bx.Ash.Scopes
