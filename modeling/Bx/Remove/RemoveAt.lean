import Bx.Remove.RemoveRecursive
import Mathlib.Data.List.Nodup

/-!
# The implementation with a stack

What is on top of the stack is removed with all that is below it before the rest
of the stack is looked at again, or the loop ends. The entries that have been
scanned are the directories above the one on top.
-/

namespace Bx.Remove

open Kit List

section
variable {w : World} {parent : Loc}

/-- The loop comes from the first stack to the second if all goes well and ends otherwise. -/
def Handles (w : World) (parent : Loc) (stack : List AtEntry) (r : Run) (rest : List AtEntry) (out : Bool × Run) : Prop :=
  (out.1 = true → Visits (removeAtStep w parent) (stack, r) (rest, out.2)) ∧
    (out.1 = false → ∃ fuel, loop (removeAtStep w parent) fuel (stack, r) = some out)

variable {out : Bool × Run}

theorem Handles.of_visits {stack stack' rest : List AtEntry} {r r' : Run}
    (hvisits : Visits (removeAtStep w parent) (stack, r) (stack', r')) (h : Handles w parent stack' r' rest out) :
    Handles w parent stack r rest out := by
  refine ⟨fun htrue => hvisits.trans (h.1 htrue), ?_⟩
  intro hfalse
  obtain ⟨fuel, hfuel⟩ := h.2 hfalse
  exact hvisits.loop hfuel

theorem Handles.of_step {stack rest : List AtEntry} {r : Run}
    (h : removeAtStep w parent (stack, r) = if out.1 then .inl (rest, out.2) else .inr out) :
    Handles w parent stack r rest out := by
  refine ⟨?_, ?_⟩
  · intro htrue
    rw [htrue, if_pos rfl] at h
    exact .go h (.refl _)
  · intro hfalse
    rw [hfalse, if_neg Bool.false_ne_true] at h
    exact ⟨1, loop_leave h 0⟩

/-! ## Opening the parent -/

def Accessible (w : World) (fs : Fs) (parent : Loc) (relative : List Bytes) : Prop :=
  ∀ m, 0 < m → m < relative.length →
    w.fails .lookup (parent ++ relative.take m) = false ∧
      ∃ st, fs (parent ++ relative.take m) = some st ∧ st.kind = .directory

variable {relative : List Bytes} {fs : Fs}

theorem openParent_of_accessible (h : Accessible w fs parent relative) :
    openParent w fs parent relative = .ok (parent ++ relative.dropLast) := by
  induction relative generalizing parent with
  | nil =>
    rw [dropLast_nil, append_nil]
    rfl
  | cons name rest ih =>
    cases rest with
    | nil =>
      rw [dropLast_singleton, append_nil]
      rfl
    | cons name' rest =>
      obtain ⟨hlookup, st, hst, hdir⟩ := h 1 Nat.one_pos (by rw [length_cons, length_cons]; omega)
      rw [take_succ_cons, take_zero] at hlookup hst
      have hopen : w.lstat fs (parent ++ [name]) = .ok st := lstat_of_lookup (r := ⟨fs, [], []⟩) hlookup hst
      rw [openParent, hopen]
      · dsimp only
        rw [if_pos hdir, ih, dropLast_cons_cons, append_assoc]
        · rfl
        · intro m hpos hm
          have hstep := h (m + 1) (Nat.succ_pos m) (by rw [length_cons]; exact Nat.succ_lt_succ hm)
          rw [take_succ_cons, ← singleton_append, ← append_assoc] at hstep
          exact hstep
      · intro heq
        cases heq

theorem Accessible.congr {fs fs' : Fs} (h : Accessible w fs parent relative)
    (hsame : ∀ m, m < relative.length → fs' (parent ++ relative.take m) = fs (parent ++ relative.take m)) :
    Accessible w fs' parent relative := by
  intro m hpos hm
  rw [hsame m hm]
  exact h m hpos hm

theorem not_under_take {m : Nat} (hm : m < relative.length) : ¬ parent ++ relative <+: parent ++ relative.take m := by
  intro hunder
  have hle := hunder.length_le
  rw [length_append, length_append, length_take] at hle
  omega

theorem Accessible.child (h : Accessible w fs parent relative) {st : Status}
    (hlookup : w.fails .lookup (parent ++ relative) = false) (hst : fs (parent ++ relative) = some st)
    (hdir : st.kind = .directory) (name : Bytes) : Accessible w fs parent (relative ++ [name]) := by
  intro m hpos hm
  rw [length_append, length_singleton] at hm
  rw [take_append_of_le_length (by omega)]
  by_cases hlast : m = relative.length
  · rw [hlast, take_length]
    exact ⟨hlookup, st, hst, hdir⟩
  · exact h m hpos (by omega)

/-! ## One step -/

def ancestorIds (stack : List AtEntry) : List Identity := (stack.filter (·.scanned)).map (·.status.id)

theorem mem_ancestorIds {stack : List AtEntry} {id : Identity} :
    id ∈ ancestorIds stack ↔ stack.any (fun ancestor => ancestor.scanned && ancestor.status.id = id) = true := by
  unfold ancestorIds
  rw [mem_map, any_eq_true]
  refine ⟨?_, ?_⟩
  · intro ⟨entry, hentry, heq⟩
    obtain ⟨hmem, hscanned⟩ := mem_filter.mp hentry
    exact ⟨entry, hmem, by rw [hscanned, Bool.true_and, decide_eq_true_iff]; exact heq⟩
  · intro ⟨entry, hmem, hboth⟩
    rw [Bool.and_eq_true, decide_eq_true_iff] at hboth
    exact ⟨entry, mem_filter.mpr ⟨hmem, hboth.1⟩, hboth.2⟩

structure Ready (w : World) (parent : Loc) (entry : AtEntry) (r : Run) : Prop where
  named : entry.relative ≠ []
  accessible : Accessible w r.fs parent entry.relative
  lookup : w.fails .lookup (parent ++ entry.relative) = false
  st_eq : r.fs (parent ++ entry.relative) = some entry.status

theorem Ready.step_eq {entry : AtEntry} {rest : List AtEntry} {r : Run} (h : Ready w parent entry r) :
    removeAtStep w parent (entry :: rest, r) =
      if entry.scanned || entry.status.kind ≠ .directory then
        let removed := removeWith (if entry.scanned then w.rmdir else w.unlink) (parent ++ entry.relative) r
        if removed.1 then .inl (rest, removed.2) else .inr removed
      else if entry.status.id ∈ ancestorIds rest then
        .inr (false, r.diag (.cycle (parent ++ entry.relative)))
      else
        match openDir w (parent ++ entry.relative) entry.status.id r with
        | (none, r) => .inr (false, r)
        | (some (fd, _), r) =>
          match scanChildren w entry fd (w.readdir r.fs fd) ({ entry with scanned := true } :: rest) r with
          | (false, _, r) => .inr (false, r)
          | (true, stack, r) => .inl (stack, r) := by
  have hq : parent ++ entry.relative.dropLast ++ entry.relative.getLast?.toList = parent ++ entry.relative := by
    obtain ⟨last, hlast⟩ := Option.ne_none_iff_exists'.mp (mt getLast?_eq_none_iff.mp h.named)
    rw [hlast, Option.toList_some, append_assoc, dropLast_append_getLast? last hlast]
  unfold removeAtStep
  dsimp only
  rw [openParent_of_accessible h.accessible]
  dsimp only
  rw [hq, verifyEntry_self h.lookup h.st_eq]
  simp only [Bool.not_true, Bool.false_eq_true, if_false]
  by_cases hdone : (entry.scanned || decide (entry.status.kind ≠ .directory)) = true
  · rw [if_pos hdone, if_pos hdone]
  · rw [if_neg hdone, if_neg hdone]
    by_cases hcycle : entry.status.id ∈ ancestorIds rest
    · rw [if_pos hcycle]
      exact if_pos (mem_ancestorIds.mp hcycle)
    · rw [if_neg hcycle]
      exact if_neg (mt mem_ancestorIds.mpr hcycle)

variable {st : Bytes → Status} {entry : AtEntry} {names : List Bytes}

theorem scanChildren_eq {fd : Loc} {r : Run}
    (hlookup : ∀ n ∈ names, w.fails .lookup (fd ++ [n]) = false) (hst : ∀ n ∈ names, r.fs (fd ++ [n]) = some (st n))
    (stack : List AtEntry) :
    scanChildren w entry fd names stack r =
      (true, names.reverse.map (fun n => ⟨entry.relative ++ [n], st n, false⟩) ++ stack, r) := by
  induction names generalizing stack with
  | nil => rfl
  | cons n names ih =>
    unfold scanChildren
    rw [lstat_of_lookup (hlookup n mem_cons_self) (hst n mem_cons_self)]
    dsimp only
    rw [ih (fun n' hn' => hlookup n' (mem_cons_of_mem _ hn')) (fun n' hn' => hst n' (mem_cons_of_mem _ hn')),
      reverse_cons, map_append, append_assoc]
    rfl

theorem scanChildren_of_fails {entry : AtEntry} {fd : Loc} {names : List Bytes} {r : Run}
    (h : ∃ n ∈ names, w.fails .lookup (fd ++ [n]) = true) (hthere : ∀ n ∈ names, r.fs (fd ++ [n]) ≠ none)
    (stack : List AtEntry) :
    ∃ stack' d, scanChildren w entry fd names stack r = (false, stack', r.diag d) := by
  induction names generalizing stack with
  | nil =>
    obtain ⟨n, hn, _⟩ := h
    cases hn
  | cons n names ih =>
    unfold scanChildren
    cases hlookup : w.fails .lookup (fd ++ [n]) with
    | true =>
      rw [lstat_of_fails hlookup]
      dsimp only
      rw [if_neg (by decide)]
      exact ⟨_, _, rfl⟩
    | false =>
      obtain ⟨st, hst⟩ := Option.ne_none_iff_exists'.mp (hthere n mem_cons_self)
      rw [lstat_of_lookup hlookup hst]
      apply ih _ fun n' hn' => hthere n' (mem_cons_of_mem _ hn')
      obtain ⟨n', hn', hfails⟩ := h
      cases mem_cons.mp hn' with
      | inl heq => simp [heq, hlookup] at hfails
      | inr hin => exact ⟨n', hin, hfails⟩

/-! ## One entry with all that is below it -/

def childEntry (relative : List Bytes) (st : Bytes → Status) (name : Bytes) : AtEntry := ⟨relative ++ [name], st name, false⟩

theorem ancestorIds_children (relative : List Bytes) (st : Bytes → Status) (names : List Bytes) (base : List AtEntry) :
    ancestorIds (names.map (childEntry relative st) ++ base) = ancestorIds base := by
  induction names with
  | nil => rfl
  | cons _ _ ih => exact ih

theorem Ready.sibling {name name' : Bytes} {r : Run}
    {ancestors : List Identity} (h : Ready w parent (childEntry relative st name') r)
    (hout : Outcome w ancestors (parent ++ relative ++ [name]) r out) (hne : name' ≠ name) :
    Ready w parent (childEntry relative st name') out.2 := by
  refine ⟨h.named, h.accessible.congr ?_, h.lookup, ?_⟩
  · intro m hm
    apply hout.frame
    intro hunder
    have hle := hunder.length_le
    have hm' : m < relative.length + 1 := by
      have hlen : (relative ++ [name']).length = relative.length + 1 := by rw [length_append, length_singleton]
      exact hlen ▸ hm
    rw [length_append, length_append, length_append, length_take, length_singleton] at hle
    omega
  · rw [← h.st_eq]
    apply hout.same_of_ne hne
    show parent ++ relative ++ [name'] <+: parent ++ (relative ++ [name'])
    rw [append_assoc]

/-- An entry is removed with what is below it when there are at most so many levels. -/
def Removable (w : World) (parent : Loc) (levels : Nat) : Prop :=
  ∀ (entry : AtEntry) (rest : List AtEntry) (r : Run), entry.scanned = false → Ready w parent entry r → Wf w r.fs →
    w.depth < (parent ++ entry.relative).length + levels →
    ∃ out, Outcome w (ancestorIds rest) (parent ++ entry.relative) r out ∧ Handles w parent (entry :: rest) r rest out

variable {levels : Nat} {rest : List AtEntry}

theorem handles_children (hremovable : Removable w parent levels)
    (base : List AtEntry) {r : Run} (hnodup : names.Nodup) (hwf : Wf w r.fs)
    (hdepth : w.depth < (parent ++ relative).length + 1 + levels)
    (hready : ∀ name ∈ names, Ready w parent (childEntry relative st name) r) :
    ∃ out, Walked w (ancestorIds base) (parent ++ relative) names r true out ∧
      Handles w parent (names.map (childEntry relative st) ++ base) r base out := by
  induction names generalizing r with
  | nil =>
    refine ⟨(true, r), ⟨?_, ?_, ?_⟩, ?_⟩
    · exact ⟨[], (append_nil _).symm, .nil, fun x hx => absurd hx not_mem_nil⟩
    · exact ⟨fun h => ⟨h, fun n hn => absurd hn not_mem_nil⟩, fun h => h.1⟩
    · exact fun _ n hn => absurd hn not_mem_nil
    · exact ⟨fun _ => .refl _, fun hfalse => absurd hfalse.symm Bool.false_ne_true⟩
  | cons name names ih =>
    obtain ⟨hnotin, hnodup'⟩ := nodup_cons.mp hnodup
    have hdepth' : w.depth < (parent ++ (childEntry relative st name).relative).length + levels := by
      show w.depth < (parent ++ (relative ++ [name])).length + levels
      rw [← append_assoc, length_append, length_singleton]
      omega
    obtain ⟨first, hfirst, hhandles⟩ := hremovable (childEntry relative st name)
      (names.map (childEntry relative st) ++ base) r rfl (hready name mem_cons_self) hwf hdepth'
    rw [ancestorIds_children] at hfirst
    have hplace : parent ++ (childEntry relative st name).relative = parent ++ relative ++ [name] :=
      (append_assoc _ _ _).symm
    rw [hplace] at hfirst
    cases hokay : first.1 with
    | true =>
      have hready' : ∀ name' ∈ names, Ready w parent (childEntry relative st name') first.2 := by
        intro name' hname'
        exact (hready name' (mem_cons_of_mem _ hname')).sibling hfirst fun heq => hnotin (heq ▸ hname')
      obtain ⟨out, hwalked, hout⟩ := ih hnodup' (hfirst.wf hwf) hready'
      refine ⟨out, Walked.cons hfirst hnotin ?_, hout.of_visits (hhandles.1 hokay)⟩
      rw [hokay]
      exact hwalked
    | false =>
      refine ⟨first, Walked.cons hfirst hnotin ?_, ?_⟩
      · rw [hokay]
        have hstop : Walked w (ancestorIds base) (parent ++ relative) names first.2 false (false, first.2) :=
          .stop names first.2
        rw [← hokay] at hstop ⊢
        exact hstop
      · refine ⟨fun htrue => absurd (hokay.symm.trans htrue) Bool.false_ne_true, hhandles.2⟩

theorem handled_of_diag {r : Run} (d : Diag) (hstep : removeAtStep w parent (entry :: rest, r) = .inr (false, r.diag d))
    (hdirty : ¬ AllClean w r.fs (ancestorIds rest) (parent ++ entry.relative)) :
    ∃ out, Outcome w (ancestorIds rest) (parent ++ entry.relative) r out ∧ Handles w parent (entry :: rest) r rest out :=
  ⟨(false, r.diag d), .of_diag d hdirty, .of_step hstep⟩

theorem Removable.zero : Removable w parent 0 := by
  intro entry rest r _ hready hwf hdepth
  have hle := hwf.depth _ (hready.st_eq ▸ Option.some_ne_none entry.status)
  omega

theorem handles_directory (hremovable : Removable w parent levels)
    {r : Run} (hunscanned : entry.scanned = false) (hready : Ready w parent entry r)
    (hopened : Opened w (ancestorIds rest) (parent ++ entry.relative) entry.status r)
    (hdepth : w.depth < (parent ++ entry.relative).length + 1 + levels) :
    ∃ out, Outcome w (ancestorIds rest) (parent ++ entry.relative) r out ∧ Handles w parent (entry :: rest) r rest out := by
  have hthere : ∀ n ∈ w.readdir r.fs (parent ++ entry.relative), r.fs (parent ++ entry.relative ++ [n]) ≠ none :=
    fun n hn => hopened.wf.mem_readdir.mp hn
  have hstep := @Ready.step_eq w parent entry rest r hready
  rw [hunscanned, Bool.false_or, if_neg (by rw [hopened.dir]; decide), if_neg hopened.fresh,
    openDir_self hopened.open_ hopened.st_eq hopened.dir] at hstep
  dsimp only at hstep
  by_cases hfails : ∃ n ∈ w.readdir r.fs (parent ++ entry.relative),
      w.fails .lookup (parent ++ entry.relative ++ [n]) = true
  · obtain ⟨stack', d, hscan⟩ :=
      @scanChildren_of_fails w entry (parent ++ entry.relative) _ r hfails hthere ({ entry with scanned := true } :: rest)
    rw [hscan] at hstep
    apply handled_of_diag d hstep
    intro hclean
    obtain ⟨n, hn, hlookup⟩ := hfails
    obtain ⟨st, hst⟩ := Option.ne_none_iff_exists'.mp (hthere n hn)
    have hok := (hclean _ st (prefix_append _ [n]) hst).lookup
    rw [hlookup] at hok
    cases hok
  · have hlookup : ∀ n ∈ w.readdir r.fs (parent ++ entry.relative),
        w.fails .lookup (parent ++ entry.relative ++ [n]) = false := by
      intro n hn
      rw [← Bool.not_eq_true]
      exact fun htrue => hfails ⟨n, hn, htrue⟩
    obtain ⟨st, hst⟩ : ∃ st : Bytes → Status, ∀ n ∈ w.readdir r.fs (parent ++ entry.relative),
        r.fs (parent ++ entry.relative ++ [n]) = some (st n) := by
      refine ⟨fun n => (r.fs (parent ++ entry.relative ++ [n])).getD entry.status, ?_⟩
      intro n hn
      obtain ⟨found, hfound⟩ := Option.ne_none_iff_exists'.mp (hthere n hn)
      show _ = some ((r.fs (parent ++ entry.relative ++ [n])).getD entry.status)
      rw [hfound, Option.getD_some]
    rw [scanChildren_eq hlookup hst] at hstep
    have hchildren : ∀ n ∈ (w.readdir r.fs (parent ++ entry.relative)).reverse,
        Ready w parent (childEntry entry.relative st n) r := by
      intro n hn
      rw [mem_reverse] at hn
      have hplace : parent ++ (childEntry entry.relative st n).relative = parent ++ entry.relative ++ [n] :=
        (append_assoc _ _ _).symm
      refine ⟨append_ne_nil_of_right_ne_nil _ (cons_ne_nil n []),
        hready.accessible.child hopened.lookup hopened.st_eq hopened.dir n, ?_, ?_⟩
      · rw [hplace]
        exact hlookup n hn
      · rw [hplace]
        exact hst n hn
    obtain ⟨out, hwalked, hhandles⟩ := handles_children hremovable ({ entry with scanned := true } :: rest)
      (nodup_reverse.mpr (hopened.wf.nodup_readdir (parent ++ entry.relative))) hopened.wf hdepth hchildren
    -- the entry has been scanned, so it counts as a directory above its children
    have hids : ancestorIds ({ entry with scanned := true } :: rest) = entry.status.id :: ancestorIds rest := rfl
    have hnames : ∀ n, n ∈ (w.readdir r.fs (parent ++ entry.relative)).reverse ↔
        n ∈ w.readdir r.fs (parent ++ entry.relative) := fun n => mem_reverse
    rw [hids] at hwalked
    have hdown : Visits (removeAtStep w parent) (entry :: rest, r) _ := .go hstep (.refl _)
    cases hokay : out.1 with
    | false =>
      refine ⟨out, hwalked.failed hopened hnames hokay, ?_⟩
      refine ⟨fun htrue => absurd (hokay.symm.trans htrue) Bool.false_ne_true, ?_⟩
      intro hfalse
      obtain ⟨fuel, hfuel⟩ := hhandles.2 hfalse
      exact hdown.loop hfuel
    | true =>
      refine ⟨_, hwalked.finish hopened hnames hokay, ?_⟩
      apply Handles.of_visits (hdown.trans (hhandles.1 hokay))
      apply Handles.of_step
      have hagain : Ready w parent { entry with scanned := true } out.2 :=
        ⟨hready.named, hready.accessible.congr fun _ hm => hwalked.frame (not_under_take hm), hready.lookup,
          hwalked.self hopened.st_eq⟩
      rw [hagain.step_eq]
      rfl

theorem Removable.succ (h : Removable w parent levels) : Removable w parent (levels + 1) := by
  intro entry rest r hunscanned hready hwf hdepth
  by_cases hdir : entry.status.kind = .directory
  · have hstep := @Ready.step_eq w parent entry rest r hready
    rw [hunscanned, Bool.false_or, if_neg (by rw [hdir]; decide)] at hstep
    by_cases hcycle : entry.status.id ∈ ancestorIds rest
    · rw [if_pos hcycle] at hstep
      apply handled_of_diag _ hstep
      rw [allClean_dir hready.st_eq hdir]
      exact fun hclean => hclean.1.2.1 hcycle
    · rw [if_neg hcycle] at hstep
      cases hopen : w.fails .open (parent ++ entry.relative) with
      | true =>
        obtain ⟨d, hd⟩ := @openDir_of_fails w r _ hopen entry.status.id
        rw [hd] at hstep
        apply handled_of_diag d hstep
        rw [allClean_dir hready.st_eq hdir, hopen]
        exact fun hclean => Bool.false_ne_true hclean.1.2.2.1.symm
      | false =>
        exact handles_directory h hunscanned hready ⟨hwf, hready.st_eq, hdir, hready.lookup, hcycle, hopen⟩ (by omega)
  · refine ⟨_, unlink_outcome hwf hready.st_eq hdir hready.lookup, ?_⟩
    apply Handles.of_step
    rw [hready.step_eq, hunscanned, Bool.false_or, if_pos (decide_eq_true hdir), if_neg Bool.false_ne_true]

theorem removable (levels : Nat) : Removable w parent levels := by
  induction levels with
  | zero => exact .zero
  | succ levels ih => exact ih.succ

/-! ## The whole subtree -/

variable {name : Bytes} {expected : Option Identity} {r : Run}

theorem removeRecursiveAt_missing (hlookup : w.fails .lookup (parent ++ [name]) = false)
    (hnone : r.fs (parent ++ [name]) = none) (fuel : Nat) :
    removeRecursiveAt w fuel parent name expected r = some (true, r) := by
  unfold removeRecursiveAt
  rw [lstat_noent_iff.mpr ⟨hlookup, hnone⟩]
  rfl

theorem removeRecursiveAt_of_fails (hlookup : w.fails .lookup (parent ++ [name]) = true) (fuel : Nat) :
    removeRecursiveAt w fuel parent name expected r = some (false, r.diag (.perror (parent ++ [name]) .other)) := by
  unfold removeRecursiveAt
  rw [lstat_of_fails hlookup]
  rfl

theorem removeRecursiveAt_other {st : Status} (hlookup : w.fails .lookup (parent ++ [name]) = false)
    (hst : r.fs (parent ++ [name]) = some st) (hother : statMatchesExpected expected st = false) (fuel : Nat) :
    removeRecursiveAt w fuel parent name expected r = some (false, r.diag (.changed (parent ++ [name]))) := by
  unfold removeRecursiveAt checkExpected
  rw [lstat_of_lookup hlookup hst]
  dsimp only
  rw [hother]
  rfl

theorem removeRecursiveAt_outcome {st : Status} (hwf : Wf w r.fs) (hlookup : w.fails .lookup (parent ++ [name]) = false)
    (hst : r.fs (parent ++ [name]) = some st) (hmatches : statMatchesExpected expected st = true) :
    ∃ fuel out, removeRecursiveAt w fuel parent name expected r = some out ∧ Outcome w [] (parent ++ [name]) r out := by
  have hready : Ready w parent ⟨[name], st, false⟩ r := by
    refine ⟨cons_ne_nil name [], ?_, hlookup, hst⟩
    intro m hpos hm
    rw [length_singleton] at hm
    omega
  obtain ⟨out, hout, hhandles⟩ := removable (w.depth + 1) ⟨[name], st, false⟩ [] r rfl hready hwf (by omega)
  have hends : ∃ fuel, loop (removeAtStep w parent) fuel ([⟨[name], st, false⟩], r) = some out := by
    cases hokay : out.1 with
    | false => exact hhandles.2 hokay
    | true =>
      have hempty : removeAtStep w parent ([], out.2) = .inr out := by
        unfold removeAtStep
        rw [← hokay]
      exact (hhandles.1 hokay).loop (loop_leave hempty 0)
  obtain ⟨fuel, hfuel⟩ := hends
  refine ⟨fuel, out, ?_, hout⟩
  unfold removeRecursiveAt checkExpected
  rw [lstat_of_lookup hlookup hst]
  dsimp only
  rw [hmatches]
  exact hfuel

end

end Bx.Remove
