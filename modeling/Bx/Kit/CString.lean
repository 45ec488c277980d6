import Mathlib.Data.Char
import Mathlib.Order.Compare
import Mathlib.Data.List.Lex
import Mathlib.Algebra.GroupWithZero.Nat

/-!
# C strings and the C library's matchers

A C string is the list of its characters before the terminating NUL. `Libc` is the part of the C library that name
matching rests on: `tolower`, and `fnmatch` as a predicate known by its documented behaviour on the shapes of pattern
that get a shortcut.
-/

namespace Bx.Kit

open List

abbrev CStr := List Char

/-- `strpbrk(pattern, "*?[\\") != NULL` -/
def hasMeta (pattern : CStr) : Bool :=
  pattern.any fun c => c = '*' || c = '?' || c = '[' || c = '\\'

structure FnmFlags where
  pathname : Bool
  casefold : Bool

def foldWith (tolower : Char → Char) (casefold : Bool) (s : CStr) : CStr :=
  if casefold then s.map tolower else s

/-- `fnmatch pattern string flags` is true where the C function returns 0. -/
structure Libc where
  tolower : Char → Char
  fnmatch : CStr → CStr → FnmFlags → Bool
  /-- Only letters change case. -/
  tolower_dot : ∀ c, tolower c = tolower '.' → c = '.'
  /-- A pattern without metacharacters matches itself only. -/
  fnmatch_literal : ∀ p s flags, hasMeta p = false →
    (fnmatch p s flags = true ↔ foldWith tolower flags.casefold p = foldWith tolower flags.casefold s)
  /-- Without `FNM_PATHNAME` a leading `*` matches any beginning. -/
  fnmatch_star : ∀ p s casefold, hasMeta p = false →
    (fnmatch ('*' :: p) s ⟨false, casefold⟩ = true ↔
      ∃ pre suf, s = pre ++ suf ∧ foldWith tolower casefold p = foldWith tolower casefold suf)
  /-- `FNM_PATHNAME` only concerns slashes. -/
  fnmatch_pathname : ∀ p s casefold, '/' ∉ p → '/' ∉ s →
    fnmatch p s ⟨true, casefold⟩ = fnmatch p s ⟨false, casefold⟩
  /-- With `FNM_PATHNAME` a slash is matched by a slash only. -/
  fnmatch_slash : ∀ p s casefold, '/' ∉ p → '/' ∈ s → fnmatch p s ⟨true, casefold⟩ = false

namespace Libc
variable (L : Libc)

def fold (casefold : Bool) (s : CStr) : CStr := foldWith L.tolower casefold s

/-- `strncmp`/`strncasecmp` returning 0 -/
def prefixEqual (casefold : Bool) (lhs rhs : CStr) (len : Nat) : Bool :=
  (L.fold casefold lhs).take len = (L.fold casefold rhs).take len

@[simp] theorem fold_false (s : CStr) : L.fold false s = s := rfl

@[simp] theorem fold_true (s : CStr) : L.fold true s = s.map L.tolower := rfl

theorem fold_take (casefold : Bool) (s : CStr) (n : Nat) : (L.fold casefold s).take n = L.fold casefold (s.take n) := by
  cases casefold <;> simp

theorem fold_dot {casefold : Bool} {s t : CStr} (h : L.fold casefold ('.' :: t) = L.fold casefold s) :
    s.head? = some '.' := by
  cases s with
  | nil => cases casefold <;> simp at h
  | cons c s =>
    cases casefold with
    | false =>
      simp only [fold_false, List.cons.injEq] at h
      rw [head?_cons, h.1]
    | true =>
      simp only [fold_true, map_cons, List.cons.injEq] at h
      simp [L.tolower_dot c h.1.symm]

theorem prefixEqual_iff (casefold : Bool) (lhs rhs : CStr) : L.prefixEqual casefold lhs rhs rhs.length = true ↔
      L.fold casefold (lhs.take rhs.length) = L.fold casefold rhs := by
  unfold prefixEqual
  rw [decide_eq_true_iff, fold_take, fold_take, take_length]

end Libc

/-! ## A concrete matcher -/

/-- Globbing with `*`, `?` and `\`; bracket expressions are not supported and
stand for themselves. -/
def glob (tolower : Char → Char) (flags : FnmFlags) : CStr → CStr → Bool
  | [], s => s.isEmpty
  | '*' :: p, s => globStar (glob tolower flags p) s
  | '?' :: p, s =>
    match s with
    | [] => false
    | c :: s => !(flags.pathname && c = '/') && glob tolower flags p s
  | '\\' :: p, s =>
    match p, s with
    | c :: p, d :: s =>
      foldWith tolower flags.casefold [c] = foldWith tolower flags.casefold [d] && glob tolower flags p s
    | _, _ => false
  | c :: p, s =>
    match s with
    | [] => false
    | d :: s => foldWith tolower flags.casefold [c] = foldWith tolower flags.casefold [d] && glob tolower flags p s
where
  globStar (rest : CStr → Bool) : CStr → Bool
    | [] => rest []
    | c :: s => rest (c :: s) || (!(flags.pathname && c = '/') && globStar rest s)

section
variable (tolower : Char → Char)

theorem glob_cons (flags : FnmFlags) {c : Char} (p s : CStr) (h1 : c ≠ '*') (h2 : c ≠ '?') (h3 : c ≠ '\\') :
    glob tolower flags (c :: p) s = match s with
      | [] => false
      | d :: s =>
        foldWith tolower flags.casefold [c] = foldWith tolower flags.casefold [d] && glob tolower flags p s := by
  rw [glob.eq_def]
  split
  · rename_i h; cases h
  · rename_i h; cases h; exact absurd rfl h1
  · rename_i h; cases h; exact absurd rfl h2
  · rename_i h; cases h; exact absurd rfl h3
  · rename_i h; cases h; rfl

theorem foldWith_cons (casefold : Bool) (c d : Char) (p s : CStr) :
    foldWith tolower casefold (c :: p) = foldWith tolower casefold (d :: s) ↔
      foldWith tolower casefold [c] = foldWith tolower casefold [d] ∧
        foldWith tolower casefold p = foldWith tolower casefold s := by
  cases casefold <;> simp [foldWith]

theorem glob_literal (flags : FnmFlags) : ∀ p s : CStr, hasMeta p = false →
    (glob tolower flags p s = true ↔ foldWith tolower flags.casefold p = foldWith tolower flags.casefold s)
  | [], s, _ => by cases s <;> cases h : flags.casefold <;> simp [glob, foldWith]
  | c :: p, s, hp => by
    simp only [hasMeta, any_cons, Bool.or_eq_false_iff, decide_eq_false_iff_not] at hp
    obtain ⟨⟨⟨⟨h1, h2⟩, _⟩, h3⟩, hp'⟩ := hp
    rw [glob_cons tolower flags p s h1 h2 h3]
    cases s with
    | nil => cases h : flags.casefold <;> simp [foldWith]
    | cons d s =>
      rw [foldWith_cons]
      simp only [Bool.and_eq_true, decide_eq_true_eq, glob_literal flags p s hp']

theorem globStar_iff (casefold : Bool) (rest : CStr → Bool) : ∀ s : CStr,
    glob.globStar ⟨false, casefold⟩ rest s = true ↔ ∃ pre suf, s = pre ++ suf ∧ rest suf = true
  | [] => by
    simp only [glob.globStar]
    exact ⟨fun h => ⟨[], [], rfl, h⟩, fun ⟨pre, suf, h, hr⟩ => by simp_all⟩
  | c :: s => by
    simp only [glob.globStar, Bool.false_and, Bool.not_false, Bool.true_and, Bool.or_eq_true, globStar_iff casefold rest s]
    constructor
    · rintro (h | ⟨pre, suf, rfl, h⟩)
      · exact ⟨[], c :: s, rfl, h⟩
      · exact ⟨c :: pre, suf, rfl, h⟩
    · rintro ⟨pre, suf, h, hr⟩
      cases pre with
      | nil => exact .inl (by simpa [h] using hr)
      | cons d pre => simp at h; exact .inr ⟨pre, suf, h.2, hr⟩

theorem globStar_pathname (casefold : Bool) {rest rest' : CStr → Bool} : ∀ s : CStr, '/' ∉ s →
    (∀ t, '/' ∉ t → rest t = rest' t) →
    glob.globStar ⟨true, casefold⟩ rest s = glob.globStar ⟨false, casefold⟩ rest' s
  | [], _, h => h [] (by simp)
  | c :: s, hs, h => by
    have hc : c ≠ '/' := fun e => hs (by simp [e])
    have hs' : '/' ∉ s := fun e => hs (mem_cons_of_mem _ e)
    simp only [glob.globStar, hc, h (c :: s) hs, globStar_pathname casefold s hs' h, decide_false, Bool.and_false]

theorem glob_pathname (casefold : Bool) : ∀ p s : CStr, '/' ∉ s →
    glob tolower ⟨true, casefold⟩ p s = glob tolower ⟨false, casefold⟩ p s
  | [], _, _ => by simp [glob]
  | c :: p, s, hs => by
    have ih : ∀ t, '/' ∉ t → glob tolower ⟨true, casefold⟩ p t = glob tolower ⟨false, casefold⟩ p t :=
      fun t ht => glob_pathname casefold p t ht
    by_cases h1 : c = '*'
    · subst h1; simp only [glob]
      exact globStar_pathname casefold s hs ih
    cases s with
    | nil =>
      by_cases h2 : c = '?'
      · subst h2; simp [glob]
      by_cases h3 : c = '\\'
      · subst h3; cases p <;> simp [glob]
      rw [glob_cons tolower _ p _ h1 h2 h3, glob_cons tolower _ p _ h1 h2 h3]
    | cons d s =>
      have hd : d ≠ '/' := fun e => hs (by simp [e])
      have ihs := ih s fun h => hs (mem_cons_of_mem _ h)
      by_cases h2 : c = '?'
      · subst h2; simp [glob, hd, ihs]
      by_cases h3 : c = '\\'
      · subst h3
        cases p with
        | nil => simp [glob]
        | cons e p => simp [glob, glob_pathname casefold p s fun h => hs (mem_cons_of_mem _ h)]
      rw [glob_cons tolower _ p _ h1 h2 h3, glob_cons tolower _ p _ h1 h2 h3]
      simp only [ihs]
termination_by p => p.length

theorem globStar_slash (casefold : Bool) {rest : CStr → Bool} : ∀ s : CStr, '/' ∈ s →
    (∀ t, '/' ∈ t → rest t = false) → glob.globStar ⟨true, casefold⟩ rest s = false
  | [], hs, _ => absurd hs (by simp)
  | c :: s, hs, h => by
    simp only [glob.globStar, h (c :: s) hs, Bool.false_or]
    by_cases hc : c = '/'
    · simp [hc]
    · have hs' : '/' ∈ s := (mem_cons.mp hs).resolve_left fun e => hc e.symm
      simp [globStar_slash casefold s hs' h]

theorem glob_slash (hslash : ∀ c, tolower c = tolower '/' → c = '/') (casefold : Bool) :
    ∀ p s : CStr, '/' ∉ p → '/' ∈ s → glob tolower ⟨true, casefold⟩ p s = false
  | [], s, _, hs => by cases s with
    | nil => exact absurd hs (by simp)
    | cons d s => simp [glob]
  | c :: p, s, hp, hs => by
    have hp' : '/' ∉ p := fun h => hp (mem_cons_of_mem _ h)
    by_cases h1 : c = '*'
    · subst h1; simp only [glob]
      exact globStar_slash casefold s hs fun t ht => glob_slash hslash casefold p t hp' ht
    cases s with
    | nil => exact absurd hs (by simp)
    | cons d s =>
      -- the character at a slash fails, or the slash is further on
      have hlit : ∀ e, e ∈ c :: p → ∀ q : CStr, q.length ≤ p.length → '/' ∉ q →
          (decide (foldWith tolower casefold [e] = foldWith tolower casefold [d]) &&
            glob tolower ⟨true, casefold⟩ q s) = false := by
        intro e he q hq hq'
        by_cases hd : d = '/'
        · have hne : foldWith tolower casefold [e] ≠ foldWith tolower casefold [d] := by
            intro hf
            have : e = '/' := by
              cases casefold with
              | false => simpa [foldWith, hd] using hf
              | true =>
                simp only [foldWith, if_true, map_cons, map_nil, List.cons.injEq, and_true] at hf
                exact hslash e (hd ▸ hf)
            exact hp (this ▸ he)
          simp [hne]
        · have hs' : '/' ∈ s := (mem_cons.mp hs).resolve_left fun e => hd e.symm
          simp [glob_slash hslash casefold q s hq' hs']
      by_cases h2 : c = '?'
      · subst h2
        by_cases hd : d = '/'
        · simp [glob, hd]
        · have hs' : '/' ∈ s := (mem_cons.mp hs).resolve_left fun e => hd e.symm
          simp [glob, glob_slash hslash casefold p s hp' hs']
      by_cases h3 : c = '\\'
      · subst h3
        cases p with
        | nil => simp [glob]
        | cons e p =>
          simp only [glob]
          exact hlit e (by simp) p (by simp) fun h => hp' (mem_cons_of_mem _ h)
      rw [glob_cons tolower _ p _ h1 h2 h3]
      exact hlit c (by simp) p (le_rfl) hp'
termination_by p => p.length

theorem toLower_of_not_upper {c : Char} (h : ¬(c.val ≥ 'A'.val ∧ c.val ≤ 'Z'.val)) : Char.toLower c = c := dif_neg h

theorem toLower_inj_of_not_letter {c d : Char} (hd : d.toNat < 65) (h : Char.toLower c = Char.toLower d) : c = d := by
  have hdl : Char.toLower d = d := by
    apply toLower_of_not_upper
    intro hc
    have : 65 ≤ d.val.toNat := hc.1
    exact absurd hd (Nat.not_lt.mpr this)
  rw [hdl] at h
  by_cases hc : c.val ≥ 'A'.val ∧ c.val ≤ 'Z'.val
  · have h1 : 65 ≤ c.val.toNat := hc.1
    have h2 : c.val.toNat ≤ 90 := hc.2
    have hupper : (Char.toLower c).val = c.val + ('a'.val - 'A'.val) := congrArg Char.val (dif_pos hc)
    have hv : (c.val + ('a'.val - 'A'.val)).toNat = d.toNat := by rw [← hupper, h]; rfl
    rw [UInt32.toNat_add] at hv
    have e1 : ('a'.val - 'A'.val).toNat = 32 := by decide
    omega
  · rw [toLower_of_not_upper hc] at h
    exact h

end

def posixLibc : Libc where
  tolower := Char.toLower
  fnmatch p s flags := glob Char.toLower flags p s
  tolower_dot _ h := toLower_inj_of_not_letter (by decide) h
  fnmatch_literal p s flags hp := glob_literal Char.toLower flags p s hp
  fnmatch_star p s casefold hp := by
    simp only [glob, globStar_iff, glob_literal _ _ p _ hp]
  fnmatch_pathname p s casefold _ hs := glob_pathname Char.toLower casefold p s hs
  fnmatch_slash p s casefold hp hs :=
    glob_slash Char.toLower (fun _ h => toLower_inj_of_not_letter (by decide) h) casefold p s hp hs

end Bx.Kit
