import Bx.Lib.LexicalPath

/-!
# The layout of `--parents`

`bx_path_parents_layout_dup` of `src/lib/path_ops.c` takes the dots out of an
operand that stand before a slash or at the end, and doubled slashes. That a
dot begins a component is not asked for.
-/

namespace Bx.PathOps

open Bx.Kit List

/-- `output` has been written, `previousWasSlash` is whether the byte before was a slash. -/
def layoutScan (output : CStr) (previousWasSlash : Bool) : CStr → CStr
  | [] => output
  | ['.'] => output
  | '.' :: '/' :: rest => layoutScan output previousWasSlash rest
  | c :: rest =>
    if c = '/' then layoutScan (if previousWasSlash then output else output ++ [c]) true rest
    else layoutScan (output ++ [c]) false rest

def trimSlashes (output : CStr) : CStr := output.take 1 ++ (output.drop 1).rdropWhile (· = '/')

def parentsLayout (sourceOperand : CStr) : CStr :=
  let output := trimSlashes (layoutScan [] false (sourceOperand.dropWhile (· = '/')))
  if output = [] then dot else output

/-! ## The components that are to be kept -/

def keptComponents (operand : CStr) : List CStr := (componentsAppendRaw operand).filter (· ≠ dot)

def keptLayout (operand : CStr) : CStr := relativeText (keptComponents operand)

/-- No component but `.` ends in a dot. -/
def NoFinalDot (operand : CStr) : Prop := ∀ part ∈ keptComponents operand, part.getLast? ≠ some '.'

/-- `.` components, and then two slashes -/
def dotsThenSlashes : CStr → Bool
  | '/' :: _ => true
  | '.' :: '/' :: rest => dotsThenSlashes rest
  | _ => false

/-- The first components that are `.` have single slashes after them. -/
def PlainStart (operand : CStr) : Prop := dotsThenSlashes (operand.dropWhile (· = '/')) = false

section
variable {output s : CStr} {previousWasSlash : Bool}

def Looks (c : Char) (s : CStr) : Prop := ¬(c = '.' ∧ (s = [] ∨ s.head? = some '/'))

variable {c : Char} {part : CStr}

theorem layoutScan_cons (h : Looks c s) : layoutScan output previousWasSlash (c :: s) =
      if c = '/' then layoutScan (if previousWasSlash then output else output ++ [c]) true s
      else layoutScan (output ++ [c]) false s := by
  apply layoutScan.eq_4
  · intro hc hs
    exact h ⟨hc, .inl hs⟩
  · intro rest hc hs
    apply h
    refine ⟨hc, .inr ?_⟩
    rw [hs]
    rfl

theorem scan_induct {motive : CStr → Prop} (nil : motive []) (lastDot : motive ['.'])
    (dotSlash : ∀ rest, motive rest → motive ('.' :: '/' :: rest))
    (cons : ∀ c rest, Looks c rest → motive rest → motive (c :: rest)) : ∀ s, motive s
  | [] => nil
  | [c] => by
    by_cases hc : c = '.'
    · rw [hc]
      exact lastDot
    · exact cons c [] (fun h => hc h.1) nil
  | c :: d :: rest => by
    by_cases hskip : c = '.' ∧ d = '/'
    · rw [hskip.1, hskip.2]
      exact dotSlash rest (scan_induct nil lastDot dotSlash cons rest)
    · refine cons c (d :: rest) ?_ (scan_induct nil lastDot dotSlash cons (d :: rest))
      intro h
      cases h.2 with
      | inl hnil => exact cons_ne_nil _ _ hnil
      | inr hhead => exact hskip ⟨h.1, Option.some.inj hhead⟩

theorem componentsFrom_slash (part s : CStr) :
    componentsFrom part ('/' :: s) = if part = [] then componentsFrom [] s else part :: componentsFrom [] s := by
  rw [componentsFrom, if_pos rfl]

theorem componentsFrom_cons (part s : CStr) (hc : c ≠ '/') :
    componentsFrom part (c :: s) = componentsFrom (part ++ [c]) s := by
  rw [componentsFrom, if_neg hc]

theorem componentsFrom_end (part : CStr) : componentsFrom part [] = if part = [] then [] else [part] := by
  rw [componentsFrom]

theorem append_dot_ne (h : part ≠ []) : part ++ dot ≠ dot := by
  intro hdot
  exact h (append_left_eq_self.mp hdot)

theorem getLast_append_dot (part : CStr) : (part ++ dot).getLast? = some '.' := by
  unfold dot
  rw [getLast?_append_cons]
  rfl

theorem filter_kept (h : part ≠ dot) (components : List CStr) :
    (part :: components).filter (· ≠ dot) = part :: components.filter (· ≠ dot) :=
  filter_cons_of_pos (decide_eq_true h)

/-! ## Layouts that keep the components -/

def Writes (front : CStr) (components : List CStr) (output : CStr) : Prop :=
  ∃ t : CStr, (t = [] ∨ t = ['/']) ∧ (components = [] → t = []) ∧ output = front ++ joined components ++ t

variable {components : List CStr} {operand : CStr}

theorem Writes.slash {front : CStr}
    (h : Writes (front ++ part ++ ['/']) components output) : Writes front (part :: components) output := by
  obtain ⟨t, hslash, hnone, rfl⟩ := h
  by_cases hnil : components = []
  · refine ⟨['/'], .inr rfl, fun h => absurd h (cons_ne_nil _ _), ?_⟩
    rw [hnil, hnone hnil]
    simp [joined]
  · refine ⟨t, hslash, fun h => absurd h (cons_ne_nil _ _), ?_⟩
    obtain ⟨next, rest, rfl⟩ := exists_cons_of_ne_nil hnil
    unfold joined
    rw [intercalate_cons_cons]
    simp only [append_assoc]

theorem layoutScan_writes (s front part : CStr) (previousWasSlash : Bool) (hstate : part = [] ↔ previousWasSlash = true)
    (hdot : ¬(part = dot ∧ (s = [] ∨ s.head? = some '/')))
    (hgood : ∀ p ∈ (componentsFrom part s).filter (· ≠ dot), p.getLast? ≠ some '.') :
    Writes front ((componentsFrom part s).filter (· ≠ dot)) (layoutScan (front ++ part) previousWasSlash s) := by
  induction s using scan_induct generalizing front part previousWasSlash with
  | nil =>
    rw [componentsFrom_end, layoutScan]
    by_cases hnil : part = []
    · rw [if_pos hnil, hnil]
      exact ⟨[], .inl rfl, fun _ => rfl, by simp [joined]⟩
    · have hkept : part ≠ dot := fun heq => hdot ⟨heq, .inl rfl⟩
      rw [if_neg hnil, filter_kept hkept]
      exact ⟨[], .inl rfl, fun _ => rfl, by simp [joined]⟩
  | lastDot =>
    rw [componentsFrom_cons part [] (by decide), componentsFrom_end, if_neg (by simp)] at hgood ⊢
    rw [layoutScan]
    by_cases hnil : part = []
    · rw [hnil]
      exact ⟨[], .inl rfl, fun _ => rfl, by simp [joined, dot]⟩
    · have hkept := append_dot_ne hnil
      have hlast := hgood (part ++ dot) (mem_filter.mpr ⟨mem_singleton.mpr rfl, decide_eq_true hkept⟩)
      exact absurd (getLast_append_dot part) hlast
  | dotSlash rest ih =>
    rw [componentsFrom_cons part _ (by decide), componentsFrom_slash, if_neg (by simp)] at hgood ⊢
    rw [layoutScan]
    by_cases hnil : part = []
    · have hdropped : ∀ components : List CStr, ((part ++ ['.']) :: components).filter (· ≠ dot) =
          components.filter (· ≠ dot) := by
        intro components
        rw [hnil]
        exact filter_cons_of_neg (by simp [dot])
      rw [hdropped] at hgood ⊢
      rw [hnil] at hstate ⊢
      exact ih front [] previousWasSlash hstate (fun h => absurd h.1 (by decide)) hgood
    · have hkept := append_dot_ne hnil
      have hlast := hgood (part ++ dot) (mem_filter.mpr ⟨mem_cons_self, decide_eq_true hkept⟩)
      exact absurd (getLast_append_dot part) hlast
  | cons c rest hlooks ih =>
    rw [layoutScan_cons hlooks]
    by_cases hslash : c = '/'
    · rw [hslash, componentsFrom_slash] at hgood ⊢
      rw [if_pos rfl]
      by_cases hnil : part = []
      · rw [if_pos hnil] at hgood ⊢
        rw [if_pos (hstate.mp hnil), hnil]
        exact ih front [] true (iff_of_true rfl rfl) (fun h => absurd h.1 (by decide)) hgood
      · have hopen : previousWasSlash = false := by
          rw [← Bool.not_eq_true]
          exact fun h => hnil (hstate.mpr h)
        have hkept : part ≠ dot := fun heq => hdot ⟨heq, .inr (by rw [hslash]; rfl)⟩
        rw [if_neg hnil, filter_kept hkept] at hgood ⊢
        rw [hopen, if_neg Bool.false_ne_true]
        apply Writes.slash
        have hrest := ih (front ++ part ++ ['/']) [] true (iff_of_true rfl rfl)
          (fun h => absurd h.1 (by decide)) (fun p hp => hgood p (mem_cons_of_mem _ hp))
        rw [append_nil] at hrest
        exact hrest
    · rw [componentsFrom_cons part rest hslash] at hgood ⊢
      rw [if_neg hslash, append_assoc]
      apply ih front (part ++ [c]) false (by simp) _ hgood
      intro hpart
      cases part with
      | nil => exact hlooks ⟨(List.cons.inj hpart.1).1, hpart.2⟩
      | cons d part => exact absurd (List.cons.inj hpart.1).2 (by simp)

theorem layoutScan_start (s : CStr) (hplain : dotsThenSlashes s = false)
    (hgood : ∀ p ∈ (componentsAppendRaw s).filter (· ≠ dot), p.getLast? ≠ some '.') :
    Writes [] ((componentsAppendRaw s).filter (· ≠ dot)) (layoutScan [] false s) := by
  unfold componentsAppendRaw at hgood ⊢
  induction s using scan_induct with
  | nil => exact ⟨[], .inl rfl, fun _ => rfl, rfl⟩
  | lastDot => exact ⟨[], .inl rfl, fun _ => rfl, rfl⟩
  | dotSlash rest ih =>
    have hdropped : (componentsFrom [] ('.' :: '/' :: rest)).filter (· ≠ dot) =
        (componentsFrom [] rest).filter (· ≠ dot) := by
      rw [componentsFrom_cons [] _ (by decide), componentsFrom_slash, if_neg (by simp)]
      exact filter_cons_of_neg (by decide)
    rw [hdropped] at hgood ⊢
    rw [layoutScan]
    exact ih hplain hgood
  | cons c rest hlooks ih =>
    have hslash : c ≠ '/' := by
      intro hc
      rw [hc] at hplain
      exact absurd hplain (by rw [dotsThenSlashes]; decide)
    rw [layoutScan_cons hlooks, if_neg hslash]
    rw [componentsFrom_cons [] rest hslash] at hgood ⊢
    exact layoutScan_writes rest [] [c] false (by simp) (fun h => hlooks ⟨(List.cons.inj h.1).1, h.2⟩) hgood

theorem getLast_joined (h : Components components) : (joined components).getLast? ≠ some '/' := by
  induction components with
  | nil => exact fun hnone => nomatch hnone
  | cons part components ih =>
    obtain ⟨hne, hslash⟩ := h part mem_cons_self
    have hrest := ih fun p hp => h p (mem_cons_of_mem _ hp)
    unfold joined at hrest ⊢
    cases components with
    | nil =>
      rw [intercalate_singleton]
      exact fun hlast => hslash (mem_of_getLast? hlast)
    | cons next components =>
      have hnext : intercalate ['/'] (next :: components) ≠ [] := by
        intro hnil
        have hraw := componentsAppendRaw_joined fun p hp => h p (mem_cons_of_mem part hp)
        unfold joined at hraw
        rw [hnil] at hraw
        exact cons_ne_nil _ _ hraw.symm
      rw [intercalate_cons_cons, getLast?_append_of_ne_nil _ hnext]
      exact hrest

theorem joined_ne_nil (h : Components components) (hne : components ≠ []) : joined components ≠ [] := by
  intro hnil
  have hraw := componentsAppendRaw_joined h
  rw [hnil] at hraw
  exact hne hraw.symm

theorem trimSlashes_end (hlast : output.getLast? ≠ some '/') {t : CStr}
    (ht : t = [] ∨ t = ['/']) (hne : output ≠ []) : trimSlashes (output ++ t) = output := by
  obtain ⟨c, rest, rfl⟩ := exists_cons_of_ne_nil hne
  have hrest : rest.rdropWhile (· = '/') = rest := by
    apply rdropWhile_eq_self_iff.mpr
    intro hnil hslash
    apply hlast
    rw [getLast?_cons_of_ne_nil hnil, getLast?_eq_some_getLast hnil, of_decide_eq_true hslash]
  unfold trimSlashes
  cases ht with
  | inl hnone =>
    rw [hnone, append_nil]
    exact congrArg (c :: ·) hrest
  | inr hslash =>
    have hdrop : ((c :: rest ++ ['/']).drop 1).rdropWhile (· = '/') = rest := by
      rw [cons_append, drop_one, tail_cons, rdropWhile_concat_pos _ _ _ (by decide), hrest]
    rw [hslash, hdrop]
    rfl

theorem trimSlashes_writes (h : Components components)
    (hwrites : Writes [] components output) : trimSlashes output = joined components := by
  obtain ⟨t, ht, hnone, rfl⟩ := hwrites
  by_cases hnil : components = []
  · rw [hnone hnil, hnil]
    rfl
  · exact trimSlashes_end (getLast_joined h) ht (joined_ne_nil h hnil)

/-! ## Layouts that lose a dot -/

theorem count_layoutScan (s output part : CStr) (previousWasSlash : Bool) :
    (layoutScan output previousWasSlash s).count '.' +
        (componentsFrom part s).countP (fun p => p.getLast? = some '.') =
      output.count '.' + s.count '.' +
        (if part.getLast? = some '.' ∧ (s = [] ∨ s.head? = some '/') then 1 else 0) := by
  induction s using scan_induct generalizing output part previousWasSlash with
  | nil =>
    rw [layoutScan, componentsFrom_end]
    by_cases hnil : part = []
    · simp [hnil]
    · simp [hnil, countP_cons]
  | lastDot =>
    rw [layoutScan, componentsFrom_cons part [] (by decide), componentsFrom_end, if_neg (by simp)]
    simp
  | dotSlash rest ih =>
    have hrest := ih output [] previousWasSlash
    rw [layoutScan, componentsFrom_cons part _ (by decide), componentsFrom_slash, if_neg (by simp)]
    simp at hrest ⊢
    omega
  | cons c rest hlooks ih =>
    rw [layoutScan_cons hlooks]
    by_cases hslash : c = '/'
    · rw [hslash, if_pos rfl, componentsFrom_slash]
      have hrest := ih (if previousWasSlash then output else output ++ ['/']) [] true
      have hcount : (if previousWasSlash then output else output ++ ['/']).count '.' = output.count '.' := by
        cases previousWasSlash with
        | false => simp [count_append]
        | true => rfl
      rw [hcount] at hrest
      by_cases hnil : part = []
      · simp [hnil] at hrest ⊢
        omega
      · simp [hnil, countP_cons] at hrest ⊢
        omega
    · rw [if_neg hslash, componentsFrom_cons part rest hslash]
      have hrest := ih (output ++ [c]) (part ++ [c]) false
      have hopen : ¬((part ++ [c]).getLast? = some '.' ∧ (rest = [] ∨ rest.head? = some '/')) := by
        rw [getLast?_append_cons]
        intro h
        exact hlooks ⟨Option.some.inj h.1, h.2⟩
      have hahead : ¬(part.getLast? = some '.' ∧ (c :: rest = [] ∨ (c :: rest).head? = some '/')) := by
        intro h
        cases h.2 with
        | inl hnil => exact cons_ne_nil _ _ hnil
        | inr hhead => exact hslash (Option.some.inj hhead)
      have hcount : (c :: rest).count '.' = [c].count '.' + rest.count '.' := by
        rw [← singleton_append, count_append]
      rw [if_neg hopen, count_append] at hrest
      rw [if_neg hahead, hcount]
      omega

theorem count_components (s part : CStr) :
    ((componentsFrom part s).map (List.count '.')).sum = part.count '.' + s.count '.' := by
  induction s generalizing part with
  | nil =>
    rw [componentsFrom_end]
    by_cases hnil : part = []
    · rw [if_pos hnil, hnil]
      rfl
    · rw [if_neg hnil]
      rfl
  | cons c s ih =>
    by_cases hslash : c = '/'
    · rw [hslash, componentsFrom_slash]
      by_cases hnil : part = []
      · rw [if_pos hnil, ih, hnil]
        simp
      · rw [if_neg hnil, map_cons, sum_cons, ih]
        simp
    · have hcount : (c :: s).count '.' = [c].count '.' + s.count '.' := by
        rw [← singleton_append, count_append]
      rw [componentsFrom_cons part s hslash, ih, count_append, hcount]
      omega

theorem count_joined (components : List CStr) : (joined components).count '.' =
    (components.map (List.count '.')).sum := by
  unfold joined
  induction components with
  | nil => rfl
  | cons part components ih =>
    cases components with
    | nil => simp
    | cons next components =>
      have hslash : (['/'] : CStr).count '.' = 0 := rfl
      rw [intercalate_cons_cons, count_append, count_append, ih, hslash, Nat.add_zero]
      rfl

theorem count_trimSlashes (output : CStr) : (trimSlashes output).count '.' = output.count '.' := by
  have hslashes : ((output.drop 1).rtakeWhile (· = '/')).count '.' = 0 := by
    rw [count_eq_zero]
    intro hmem
    have hslash := mem_rtakeWhile_imp hmem
    exact absurd hslash (by decide)
  have hback := congrArg (List.count '.') (@rdropWhile_append_rtakeWhile _ (fun c => decide (c = '/')) (output.drop 1))
  have hall := congrArg (List.count '.') (take_append_drop 1 output)
  rw [count_append] at hback hall
  unfold trimSlashes
  rw [count_append]
  omega

theorem count_filter_kept (components : List CStr) :
    ((components.filter (· ≠ dot)).map (List.count '.')).sum + components.countP (fun p => p.getLast? = some '.') =
      (components.map (List.count '.')).sum +
        (components.filter (· ≠ dot)).countP (fun p => p.getLast? = some '.') := by
  induction components with
  | nil => rfl
  | cons part components ih =>
    by_cases hdot : part = dot
    · have hdropped : (part :: components).filter (· ≠ dot) = components.filter (· ≠ dot) :=
        filter_cons_of_neg (by simp [hdot])
      have hone : dot.count '.' = 1 := rfl
      have hends : (dot :: components).countP (fun p => p.getLast? = some '.') =
          components.countP (fun p => p.getLast? = some '.') + 1 := countP_cons_of_pos rfl
      rw [hdropped, map_cons, sum_cons, hdot, hone, hends]
      omega
    · rw [filter_kept hdot, map_cons, map_cons, sum_cons, sum_cons, countP_cons,
        countP_cons]
      omega

theorem noFinalDot_of_count (h : (layoutScan [] false s).count '.' = (joined ((componentsAppendRaw s).filter (· ≠ dot))).count '.') :
    ∀ p ∈ (componentsAppendRaw s).filter (· ≠ dot), p.getLast? ≠ some '.' := by
  have hscan := count_layoutScan s [] [] false
  have hsum := count_components s []
  have hkept := count_filter_kept (componentsAppendRaw s)
  have hopen : ¬(([] : CStr).getLast? = some '.' ∧ (s = [] ∨ s.head? = some '/')) := fun hand => nomatch hand.1
  rw [count_joined] at h
  rw [if_neg hopen, count_nil] at hscan
  rw [count_nil] at hsum
  unfold componentsAppendRaw at h hkept ⊢
  have hnone : ((componentsFrom [] s).filter (· ≠ dot)).countP (fun p => p.getLast? = some '.') = 0 := by
    omega
  intro p hp hlast
  exact countP_eq_zero.mp hnone p hp (decide_eq_true hlast)

theorem isPrefix_layoutScan (s output : CStr) (previousWasSlash : Bool) :
    output <+: layoutScan output previousWasSlash s := by
  induction s using scan_induct generalizing output previousWasSlash with
  | nil => rw [layoutScan]
  | lastDot => rw [layoutScan]
  | dotSlash rest ih =>
    rw [layoutScan]
    exact ih output previousWasSlash
  | cons c rest hlooks ih =>
    rw [layoutScan_cons hlooks]
    by_cases hslash : c = '/'
    · rw [if_pos hslash]
      cases previousWasSlash with
      | true => exact ih output true
      | false => exact (prefix_append output [c]).trans (ih (output ++ [c]) true)
    · rw [if_neg hslash]
      exact (prefix_append output [c]).trans (ih (output ++ [c]) false)

theorem head_layoutScan (s : CStr) (h : dotsThenSlashes s = true) : (layoutScan [] false s).head? = some '/' := by
  induction s using scan_induct with
  | nil => exact absurd h (by decide)
  | lastDot => exact absurd h (by decide)
  | dotSlash rest ih =>
    rw [layoutScan]
    exact ih h
  | cons c rest hlooks ih =>
    have hslash : c = '/' := by
      apply Classical.byContradiction
      intro hother
      have hnot : dotsThenSlashes (c :: rest) = false := by
        apply dotsThenSlashes.eq_3
        · intro rest' heq
          exact hother (List.cons.inj heq).1
        · intro rest' heq
          apply hlooks
          refine ⟨(List.cons.inj heq).1, .inr ?_⟩
          rw [(List.cons.inj heq).2]
          rfl
      rw [hnot] at h
      exact Bool.false_ne_true h
    obtain ⟨t, ht⟩ := isPrefix_layoutScan rest ['/'] true
    rw [layoutScan_cons hlooks, if_pos hslash, if_neg Bool.false_ne_true, hslash, nil_append, ← ht]
    rfl

theorem head_trimSlashes (output : CStr) : (trimSlashes output).head? = output.head? := by
  cases output with
  | nil => rfl
  | cons c rest => rfl

/-! ## The layout and the components -/

theorem componentsAppendRaw_dropWhile (operand : CStr) :
    componentsAppendRaw (operand.dropWhile (· = '/')) = componentsAppendRaw operand := by
  induction operand with
  | nil => rfl
  | cons c rest ih =>
    by_cases hslash : c = '/'
    · have hdrop : (c :: rest).dropWhile (· = '/') = rest.dropWhile (· = '/') :=
        dropWhile_cons_of_pos (decide_eq_true hslash)
      rw [hdrop, ih, hslash, componentsAppendRaw_slash]
    · rw [dropWhile_cons_of_neg (by simpa using hslash)]

theorem components_kept (operand : CStr) : Components (keptComponents operand) :=
  fun part hpart => components_raw operand part (mem_of_mem_filter hpart)

theorem keptLayout_injective {a b : CStr} (h : keptLayout a = keptLayout b) : keptComponents a = keptComponents b := by
  have hkept : ∀ operand, (componentsAppendRaw (keptLayout operand)).filter (· ≠ dot) = keptComponents operand := by
    intro operand
    unfold keptLayout relativeText
    by_cases hnil : keptComponents operand = []
    · rw [if_pos hnil, hnil]
      decide
    · rw [if_neg hnil, componentsAppendRaw_joined (components_kept operand), filter_eq_self]
      intro part hpart
      exact (mem_filter.mp hpart).2
  rw [← hkept a, h, hkept b]

theorem parentsLayout_of_plain (hgood : NoFinalDot operand) (hplain : PlainStart operand) :
    parentsLayout operand = keptLayout operand := by
  have hsame := componentsAppendRaw_dropWhile operand
  have hstart := layoutScan_start (operand.dropWhile (· = '/')) hplain
  rw [hsame] at hstart
  have htrim := trimSlashes_writes (components_kept operand) (hstart hgood)
  unfold parentsLayout keptLayout relativeText
  dsimp only
  rw [htrim]
  by_cases hnil : keptComponents operand = []
  · rw [if_pos hnil, hnil]
    rfl
  · rw [if_neg hnil, if_neg (joined_ne_nil (components_kept operand) hnil)]

theorem joined_kept_ne_dot (operand : CStr) : joined (keptComponents operand) ≠ dot := by
  intro hdot
  have hraw := componentsAppendRaw_joined (components_kept operand)
  rw [hdot] at hraw
  have hmem : dot ∈ keptComponents operand := by
    rw [← hraw]
    decide
  have hkept := (mem_filter.mp hmem).2
  exact absurd hkept (by decide)

theorem noFinalDot_of_layout (h : parentsLayout operand = keptLayout operand) : NoFinalDot operand := by
  by_cases hnil : keptComponents operand = []
  · unfold NoFinalDot
    rw [hnil]
    exact fun part hpart => absurd hpart not_mem_nil
  · unfold parentsLayout keptLayout relativeText at h
    dsimp only at h
    rw [if_neg hnil] at h
    have hsame := componentsAppendRaw_dropWhile operand
    have htrim : trimSlashes (layoutScan [] false (operand.dropWhile (· = '/'))) = joined (keptComponents operand) := by
      by_cases hempty : trimSlashes (layoutScan [] false (operand.dropWhile (· = '/'))) = []
      · rw [if_pos hempty] at h
        exact absurd h.symm (joined_kept_ne_dot operand)
      · rw [if_neg hempty] at h
        exact h
    have hcount := congrArg (List.count '.') htrim
    unfold keptComponents at hcount
    rw [count_trimSlashes, ← hsame] at hcount
    have hnone := noFinalDot_of_count hcount
    rw [hsame] at hnone
    exact hnone

theorem plainStart_of_layout (h : parentsLayout operand = keptLayout operand) : PlainStart operand := by
  unfold PlainStart
  rw [← Bool.not_eq_true]
  intro hslashes
  have hhead := head_layoutScan _ hslashes
  rw [← head_trimSlashes] at hhead
  have hne : trimSlashes (layoutScan [] false (operand.dropWhile (· = '/'))) ≠ [] := by
    intro hnil
    simp [hnil] at hhead
  unfold parentsLayout keptLayout at h
  dsimp only at h
  rw [if_neg hne] at h
  rw [h] at hhead
  exact head_relativeText (components_kept operand) hhead

end

/-- **Main result.** The layout is the operand's components, without those that are `.` and with single slashes, where
no other component ends in a dot and no two slashes follow the `.` components at the start, and nowhere else; there,
operands of different components have different layouts. -/
theorem parentsLayout_iff (operand : CStr) :
    (parentsLayout operand = keptLayout operand ↔ NoFinalDot operand ∧ PlainStart operand) ∧
      (NoFinalDot operand ∧ PlainStart operand → ∀ other, NoFinalDot other ∧ PlainStart other →
        parentsLayout operand = parentsLayout other → keptComponents operand = keptComponents other) := by
  have hlayout : ∀ path, NoFinalDot path ∧ PlainStart path → parentsLayout path = keptLayout path :=
    fun path h => parentsLayout_of_plain h.1 h.2
  refine ⟨⟨fun h => ⟨noFinalDot_of_layout h, plainStart_of_layout h⟩, hlayout operand⟩, ?_⟩
  intro hoperand other hother hsame
  rw [hlayout operand hoperand, hlayout other hother] at hsame
  exact keptLayout_injective hsame

/-- `dir./x` and `dirx` have one layout, and `..` loses a dot. -/
theorem parentsLayout_drops_dots : parentsLayout ['d', 'i', 'r', '.', '/', 'x'] = ['d', 'i', 'r', 'x'] ∧
      parentsLayout ['d', 'i', 'r', 'x'] = ['d', 'i', 'r', 'x'] ∧
      keptComponents ['d', 'i', 'r', '.', '/', 'x'] = [['d', 'i', 'r', '.'], ['x']] ∧
      keptComponents ['d', 'i', 'r', 'x'] = [['d', 'i', 'r', 'x']] ∧
      parentsLayout dotDot = dot ∧ parentsLayout ['.', '/', '/', 'a'] = ['/', 'a'] := by
  decide

end Bx.PathOps
