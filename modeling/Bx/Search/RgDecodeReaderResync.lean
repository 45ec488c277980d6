import Bx.Search.RgDecodeReaderText

/-!
# Getting back in step

Only one byte of an unpaired surrogate is skipped. Where no character begins at the second one, that is skipped as well
and the reader is in step again; anywhere else the text that follows is not the one of the code units.
-/

namespace Bx.RgDecodeReader

open Kit List

variable {p s : List UInt16} {u : Nat} {v : UInt16} {a b c : UInt8}

/-! ## Code units -/

section
variable (bigEndian : Bool)

def unitBytes (v : UInt16) : Bytes :=
  let high := UInt8.ofNat (v.toNat / 256)
  let low := UInt8.ofNat (v.toNat % 256)
  if bigEndian then [high, low] else [low, high]

def unitsBytes (u : List UInt16) : Bytes := u.flatMap (unitBytes bigEndian)

/-- A high surrogate that no low one follows, or a low one that follows no high one -/
def Unpaired (p : List UInt16) (v : UInt16) (s : List UInt16) : Prop :=
  isHigh v.toNat ∧ (∀ w, s.head? = some w → ¬isLow w.toNat) ∨
    isLow v.toNat ∧ ∀ w, p.getLast? = some w → ¬isHigh w.toNat

/-- No character begins at the second byte of an unpaired surrogate in `p`, which `t` follows. -/
def Realigns (p t : List UInt16) : Prop :=
  ∀ p' v s, p = p' ++ v :: s → Unpaired p' v (s ++ t) → NoChar bigEndian (unitsBytes bigEndian (v :: (s ++ t))).tail

/-- An unpaired surrogate is replaced, and what comes before and after it is as without it. -/
def Resyncs (u : List UInt16) : Prop :=
  ∀ p v s, u = p ++ v :: s → Unpaired p v s → ∀ out outBefore outAfter,
    Outputs bigEndian (unitsBytes bigEndian u) out → Outputs bigEndian (unitsBytes bigEndian p) outBefore →
      Outputs bigEndian (unitsBytes bigEndian s) outAfter →
        ∃ k, 0 < k ∧ out = outBefore ++ (replicate k Reader.replacementBytes).flatten ++ outAfter

end

variable {bigEndian : Bool}

theorem unitBytes_spec (bigEndian : Bool) (v : UInt16) :
    ∃ a b, unitBytes bigEndian v = [a, b] ∧ unit bigEndian a b = v.toNat := by
  have hv := v.toNat_lt
  have hhigh : (UInt8.ofNat (v.toNat / 256)).toNat = v.toNat / 256 := UInt8.toNat_ofNat_of_lt' (by
    show v.toNat / 256 < 256
    omega)
  have hlow : (UInt8.ofNat (v.toNat % 256)).toNat = v.toNat % 256 := UInt8.toNat_ofNat_of_lt' (by
    show v.toNat % 256 < 256
    omega)
  cases bigEndian with
  | true =>
    refine ⟨_, _, rfl, ?_⟩
    show (UInt8.ofNat (v.toNat / 256)).toNat * 256 + (UInt8.ofNat (v.toNat % 256)).toNat = v.toNat
    omega
  | false =>
    refine ⟨_, _, rfl, ?_⟩
    show (UInt8.ofNat (v.toNat / 256)).toNat * 256 + (UInt8.ofNat (v.toNat % 256)).toNat = v.toNat
    omega

theorem unitsBytes_append (u t : List UInt16) :
    unitsBytes bigEndian (u ++ t) = unitsBytes bigEndian u ++ unitsBytes bigEndian t := flatMap_append

theorem unitsBytes_cons (bigEndian : Bool) (v : UInt16) (s : List UInt16) :
    ∃ a b, unitsBytes bigEndian (v :: s) = a :: b :: unitsBytes bigEndian s ∧ unit bigEndian a b = v.toNat := by
  obtain ⟨a, b, hbytes, hunit⟩ := unitBytes_spec bigEndian v
  refine ⟨a, b, ?_, hunit⟩
  unfold unitsBytes
  rw [flatMap_cons, hbytes]
  rfl

/-! ## Where a character begins -/

theorem not_high_of_low (h : isLow u) : ¬isHigh u := by
  unfold isLow at h
  unfold isHigh
  omega

theorem found_plain (rest : Bytes) (hlow : ¬isLow (unit bigEndian a b)) (hhigh : ¬isHigh (unit bigEndian a b)) :
    utf16Found bigEndian (a :: b :: rest) = .char 2 (plainChar (unit bigEndian a b)) := by
  unfold utf16Found
  dsimp only
  rw [if_neg hlow, if_neg hhigh]

theorem found_pair {e : UInt8} (rest : Bytes) (hhigh : isHigh (unit bigEndian a b))
    (hlow : isLow (unit bigEndian c e)) :
    utf16Found bigEndian (a :: b :: c :: e :: rest) = .char 4 (pairChar (unit bigEndian a b) (unit bigEndian c e)) := by
  unfold utf16Found
  dsimp only
  rw [if_neg (fun h => not_high_of_low h hhigh), if_pos hhigh, if_pos hlow]

theorem noChar_low (rest : Bytes) (hlow : isLow (unit bigEndian a b)) : NoChar bigEndian (a :: b :: rest) := by
  intro size c hfound
  unfold utf16Found at hfound
  dsimp only at hfound
  simp [hlow] at hfound

theorem noChar_high (rest : Bytes) (hhigh : isHigh (unit bigEndian a b))
    (hrest : ∀ c e more, rest = c :: e :: more → ¬isLow (unit bigEndian c e)) : NoChar bigEndian (a :: b :: rest) := by
  intro size ch hfound
  unfold utf16Found at hfound
  dsimp only at hfound
  rw [if_neg (fun h => not_high_of_low h hhigh), if_pos hhigh] at hfound
  split at hfound
  · rename_i c e more
    simp [(hrest c e more rfl)] at hfound
  · cases hfound

theorem noChar_singleton (a : UInt8) : NoChar bigEndian [a] := by
  intro size c hfound
  cases hfound

def Bad (v : UInt16) (s : List UInt16) : Prop :=
  isLow v.toNat ∨ isHigh v.toNat ∧ ∀ w, s.head? = some w → ¬isLow w.toNat

theorem Unpaired.bad (h : Unpaired p v s) : Bad v s := by
  cases h with
  | inl h => exact .inr h
  | inr h => exact .inl h.1

theorem noChar_of_bad (h : Bad v s) : NoChar bigEndian (unitsBytes bigEndian (v :: s)) := by
  obtain ⟨a, b, hbytes, hunit⟩ := unitsBytes_cons bigEndian v s
  rw [hbytes]
  cases h with
  | inl hlow =>
    rw [← hunit] at hlow
    exact noChar_low _ hlow
  | inr h =>
    obtain ⟨hhigh, hnext⟩ := h
    rw [← hunit] at hhigh
    apply noChar_high _ hhigh
    intro c e more hmore
    cases s with
    | nil => cases hmore
    | cons w s =>
      obtain ⟨c', e', hbytes', hunit'⟩ := unitsBytes_cons bigEndian w s
      rw [hbytes'] at hmore
      cases hmore
      rw [hunit']
      exact hnext w rfl

/-! ## In step -/

theorem decoded_plain (s : List UInt16) (hlow : ¬isLow v.toNat) (hhigh : ¬isHigh v.toNat) :
    decoded bigEndian (unitsBytes bigEndian (v :: s)) = plainChar v.toNat :: decoded bigEndian (unitsBytes bigEndian s) := by
  obtain ⟨a, b, hbytes, hunit⟩ := unitsBytes_cons bigEndian v s
  rw [← hunit] at hlow hhigh ⊢
  rw [hbytes, decoded_char (found_plain _ hlow hhigh)]
  rfl

theorem decoded_pair {w : UInt16} (s : List UInt16) (hhigh : isHigh v.toNat) (hlow : isLow w.toNat) :
    decoded bigEndian (unitsBytes bigEndian (v :: w :: s)) =
      pairChar v.toNat w.toNat :: decoded bigEndian (unitsBytes bigEndian s) := by
  obtain ⟨a, b, hbytes, hunit⟩ := unitsBytes_cons bigEndian v (w :: s)
  obtain ⟨c, e, hbytes', hunit'⟩ := unitsBytes_cons bigEndian w s
  rw [← hunit] at hhigh ⊢
  rw [← hunit'] at hlow ⊢
  rw [hbytes, hbytes', decoded_char (found_pair _ hhigh hlow)]
  rfl

theorem decoded_bad (h : Bad v s) : decoded bigEndian (unitsBytes bigEndian (v :: s)) =
      replacementChar :: decoded bigEndian (unitsBytes bigEndian (v :: s)).tail := by
  apply decoded_noChar _ (noChar_of_bad h)
  obtain ⟨a, b, hbytes, _⟩ := unitsBytes_cons bigEndian v s
  rw [hbytes]
  exact cons_ne_nil _ _

theorem decoded_realigned (h : Bad v s) (hsecond : NoChar bigEndian (unitsBytes bigEndian (v :: s)).tail) :
    decoded bigEndian (unitsBytes bigEndian (v :: s)) =
      replacementChar :: replacementChar :: decoded bigEndian (unitsBytes bigEndian s) := by
  rw [decoded_bad h]
  obtain ⟨a, b, hbytes, _⟩ := unitsBytes_cons bigEndian v s
  rw [hbytes] at hsecond ⊢
  exact congrArg (replacementChar :: ·) (decoded_noChar (cons_ne_nil _ _) hsecond)

theorem Realigns.tail {t : List UInt16} (h : Realigns bigEndian (v :: s) t)
    (hv : ∀ w, s.head? = some w → isLow w.toNat → ¬isHigh v.toNat) : Realigns bigEndian s t := by
  intro p' v' s' hsplit hunpaired
  apply h (v :: p') v' s' (congrArg (v :: ·) hsplit)
  cases hunpaired with
  | inl hhigh => exact .inl hhigh
  | inr hlow =>
    refine .inr ⟨hlow.1, ?_⟩
    intro w hw
    cases p' with
    | nil =>
      cases hw
      exact hv v' (by rw [hsplit]; rfl) hlow.1
    | cons x p' =>
      rw [getLast?_cons_cons] at hw
      exact hlow.2 w hw

theorem getLast?_append_some {α : Type*} (before : List α) {s : List α} {w : α} (h : s.getLast? = some w) :
    (before ++ s).getLast? = some w := by
  rw [getLast?_append, h]
  rfl

theorem decoded_append {t : List UInt16} (h : Realigns bigEndian p t)
    (hjoint : ∀ v w, p.getLast? = some v → t.head? = some w → isHigh v.toNat → ¬isLow w.toNat) :
    decoded bigEndian (unitsBytes bigEndian (p ++ t)) =
      decoded bigEndian (unitsBytes bigEndian p) ++ decoded bigEndian (unitsBytes bigEndian t) := by
  obtain ⟨n, hn⟩ : ∃ n, p.length ≤ n := ⟨_, le_rfl⟩
  induction n generalizing p with
  | zero =>
    rw [length_eq_zero_iff.mp (Nat.le_zero.mp hn)]
    rfl
  | succ n ih =>
    cases p with
    | nil => rfl
    | cons v s =>
      rw [length_cons] at hn
      have hrest : ∀ s' : List UInt16, (∀ w, s'.getLast? = some w → (v :: s).getLast? = some w) →
          ∀ w x, s'.getLast? = some w → t.head? = some x → isHigh w.toNat → ¬isLow x.toNat := by
        intro s' hlast w x hw
        exact hjoint w x (hlast w hw)
      have hjoint' := hrest s (fun w hw => getLast?_append_some [v] hw)
      by_cases hpair : ∃ w s', s = w :: s' ∧ isHigh v.toNat ∧ isLow w.toNat
      · obtain ⟨w, s', hs, hhigh, hlow⟩ := hpair
        subst hs
        have htail : Realigns bigEndian s' t := by
          intro p' v' s'' hsplit hunpaired
          apply h (v :: w :: p') v' s'' (by rw [hsplit]; rfl)
          cases hunpaired with
          | inl hhigh' => exact .inl hhigh'
          | inr hlow' =>
            refine .inr ⟨hlow'.1, ?_⟩
            intro x hx
            cases p' with
            | nil =>
              cases hx
              exact not_high_of_low hlow
            | cons y p' =>
              rw [getLast?_cons_cons, getLast?_cons_cons] at hx
              exact hlow'.2 x hx
        rw [length_cons] at hn
        rw [cons_append, cons_append, decoded_pair _ hhigh hlow, decoded_pair _ hhigh hlow,
          ih htail (hrest s' (fun x hx => getLast?_append_some [v, w] hx)) (by omega)]
        rfl
      · have htail : Realigns bigEndian s t := by
          apply h.tail
          intro w hw hlow hhigh
          obtain ⟨s', hs⟩ : ∃ s', s = w :: s' := by
            cases s with
            | nil => cases hw
            | cons x s' =>
              cases hw
              exact ⟨s', rfl⟩
          exact hpair ⟨w, s', hs, hhigh, hlow⟩
        have hmore := ih htail hjoint' (by omega)
        by_cases hplain : ¬isLow v.toNat ∧ ¬isHigh v.toNat
        · rw [cons_append, decoded_plain _ hplain.1 hplain.2, decoded_plain _ hplain.1 hplain.2, hmore]
          rfl
        · -- a surrogate that begins no pair, with what follows or without it
          have hnext : ∀ w, (s ++ t).head? = some w → isHigh v.toNat → ¬isLow w.toNat := by
            intro w hw hhigh hlow
            cases s with
            | nil => exact hjoint v w rfl hw hhigh hlow
            | cons x s' =>
              cases hw
              exact hpair ⟨w, s', rfl, hhigh, hlow⟩
          have hunpaired : Unpaired [] v (s ++ t) := by
            by_cases hlow : isLow v.toNat
            · exact .inr ⟨hlow, fun w hw => by cases hw⟩
            · have hhigh : isHigh v.toNat := by
                by_contra hhigh
                exact hplain ⟨hlow, hhigh⟩
              exact .inl ⟨hhigh, fun w hw => hnext w hw hhigh⟩
          have hbad : Bad v s := by
            cases hunpaired.bad with
            | inl hlow => exact .inl hlow
            | inr hhigh =>
              refine .inr ⟨hhigh.1, ?_⟩
              intro w hw
              cases s with
              | nil => cases hw
              | cons x s' => exact hhigh.2 w hw
          have hsecond := h [] v s rfl hunpaired
          have halone : NoChar bigEndian (unitsBytes bigEndian (v :: s)).tail := by
            obtain ⟨a, b, hbytes, _⟩ := unitsBytes_cons bigEndian v s
            rw [← cons_append, unitsBytes_append, hbytes] at hsecond
            rw [hbytes]
            exact hsecond.of_append
          rw [cons_append, decoded_realigned hunpaired.bad hsecond, decoded_realigned hbad halone, hmore]
          rfl

/-! ## Out of step -/

theorem toNat_ofNat {n : Nat} (h : n.isValidChar) : (Char.ofNat n).toNat = n := by
  unfold Char.ofNat
  rw [dif_pos h]
  rfl

theorem toNat_plainChar (hu : u < 65536) (hlow : ¬isLow u) (hhigh : ¬isHigh u) : (plainChar u).toNat = u := by
  unfold plainChar
  apply toNat_ofNat
  unfold isLow isHigh at *
  unfold Nat.isValidChar
  omega

theorem toNat_pairChar {v : Nat} (hhigh : isHigh u) (hlow : isLow v) :
    (pairChar u v).toNat = 0x10000 + (u - 0xD800) * 0x400 + (v - 0xDC00) := by
  unfold pairChar
  apply toNat_ofNat
  unfold isLow isHigh at *
  unfold Nat.isValidChar
  omega

theorem toNat_replacementChar : replacementChar.toNat = 0xFFFD := by decide

theorem unit_lt (a b : UInt8) : unit bigEndian a b < 65536 := by
  have ha := a.toNat_lt
  have hb := b.toNat_lt
  unfold unit
  split <;> omega

/-- What a text begins with: the character of a unit or of a pair, or a replacement -/
inductive Begins (bigEndian : Bool) : Bytes → Char → List Char → Prop
  | plain {a b : UInt8} {rest : Bytes} {ch : Char} : ¬isLow (unit bigEndian a b) → ¬isHigh (unit bigEndian a b) →
      ch.toNat = unit bigEndian a b → Begins bigEndian (a :: b :: rest) ch (decoded bigEndian rest)
  | pair {a b c e : UInt8} {rest : Bytes} {ch : Char} : isHigh (unit bigEndian a b) → isLow (unit bigEndian c e) →
      ch.toNat = 0x10000 + (unit bigEndian a b - 0xD800) * 0x400 + (unit bigEndian c e - 0xDC00) →
        Begins bigEndian (a :: b :: c :: e :: rest) ch (decoded bigEndian rest)
  | bad {input : Bytes} {ch : Char} : NoChar bigEndian input → ch.toNat = 0xFFFD →
      (∀ a b rest, input = a :: b :: rest → isLow (unit bigEndian a b) ∨ isHigh (unit bigEndian a b)) →
        Begins bigEndian input ch (decoded bigEndian input.tail)

theorem decoded_begins (bigEndian : Bool) {input : Bytes} (hne : input ≠ []) :
    ∃ ch text, decoded bigEndian input = ch :: text ∧ Begins bigEndian input ch text := by
  have hbad : NoChar bigEndian input →
      (∀ a b rest, input = a :: b :: rest → isLow (unit bigEndian a b) ∨ isHigh (unit bigEndian a b)) →
        ∃ ch text, decoded bigEndian input = ch :: text ∧ Begins bigEndian input ch text :=
    fun h hunit => ⟨_, _, decoded_noChar hne h, .bad h toNat_replacementChar hunit⟩
  cases input with
  | nil => exact absurd rfl hne
  | cons a input =>
    cases input with
    | nil => exact hbad (noChar_singleton a) (fun _ _ _ h => by cases h)
    | cons b rest =>
      by_cases hlow : isLow (unit bigEndian a b)
      · apply hbad (noChar_low rest hlow)
        intro _ _ _ h
        cases h
        exact .inl hlow
      · by_cases hhigh : isHigh (unit bigEndian a b)
        · by_cases hpair : ∃ c e more, rest = c :: e :: more ∧ isLow (unit bigEndian c e)
          · obtain ⟨c, e, more, hrest, hlow'⟩ := hpair
            subst hrest
            exact ⟨_, _, decoded_char (found_pair more hhigh hlow'), .pair hhigh hlow' (toNat_pairChar hhigh hlow')⟩
          · apply hbad
            · apply noChar_high rest hhigh
              intro c e more hrest hlow'
              exact hpair ⟨c, e, more, hrest, hlow'⟩
            · intro _ _ _ h
              cases h
              exact .inr hhigh
        · exact ⟨_, _, decoded_char (found_plain rest hlow hhigh),
            .plain hlow hhigh (toNat_plainChar (unit_lt a b) hlow hhigh)⟩

def IsSurrogateByte (b : UInt8) : Prop := 0xD8 ≤ b.toNat ∧ b.toNat < 0xE0

theorem surrogate_iff_true : isLow (unit true a b) ∨ isHigh (unit true a b) ↔ IsSurrogateByte a := by
  have hb := b.toNat_lt
  unfold isLow isHigh IsSurrogateByte unit
  simp only [if_true]
  omega

theorem surrogate_iff_false : isLow (unit false a b) ∨ isHigh (unit false a b) ↔ IsSurrogateByte b := by
  have ha := a.toNat_lt
  unfold isLow isHigh IsSurrogateByte unit
  simp only [Bool.false_eq_true, if_false]
  omega

theorem head_toNat {x y : Char} {xs ys : List Char} {k : Nat} (h : x :: xs = replicate k replacementChar ++ y :: ys) :
    k = 0 ∧ x.toNat = y.toNat ∧ xs = ys ∨ 0 < k ∧ x.toNat = 0xFFFD := by
  cases k with
  | zero =>
    rw [replicate_zero, nil_append, List.cons.injEq] at h
    exact .inl ⟨rfl, congrArg Char.toNat h.1, h.2⟩
  | succ k =>
    rw [replicate_succ, cons_append, List.cons.injEq] at h
    refine .inr ⟨Nat.succ_pos k, ?_⟩
    rw [h.1, toNat_replacementChar]

theorem unit_true (a b : UInt8) : unit true a b = a.toNat * 256 + b.toNat := rfl

theorem unit_false (a b : UInt8) : unit false a b = b.toNat * 256 + a.toNat := rfl

theorem bytes_eq {e : UInt8} (h : a.toNat * 256 + b.toNat = c.toNat * 256 + e.toNat) :
    a.toNat = c.toNat ∧ b.toNat = e.toNat := by
  have hb := b.toNat_lt
  have he := e.toNat_lt
  omega

theorem littleEndian_out_of_step (hc : IsSurrogateByte c) (hchar : ¬NoChar false (c :: unitsBytes false s)) (k : Nat) :
    decoded false (c :: unitsBytes false s) ≠
      replicate k replacementChar ++ decoded false (unitsBytes false s) := by
  intro heq
  cases s with
  | nil => exact hchar (noChar_singleton c)
  | cons x s =>
    obtain ⟨a, b, hbytes, _⟩ := unitsBytes_cons false x s
    rw [hbytes] at heq hchar
    obtain ⟨ch, text, htext, hbegins⟩ := decoded_begins false (cons_ne_nil c (a :: b :: unitsBytes false s))
    obtain ⟨ch', text', htext', hbegins'⟩ := decoded_begins false (cons_ne_nil a (b :: unitsBytes false s))
    rw [htext, htext'] at heq
    have hhead := head_toNat heq
    have ha := a.toNat_lt
    have hb := b.toNat_lt
    have hunit := unit_false c a
    have hunit' := unit_false a b
    unfold IsSurrogateByte at hc
    generalize hrest : unitsBytes false s = rest at hbegins hbegins' hchar
    cases hbegins with
    | plain hlow hhigh hvalue =>
      -- a unit whose low byte is one of a surrogate, and whose high byte is none
      have hnone : ¬IsSurrogateByte a := fun h => (surrogate_iff_false.mpr h).elim hlow hhigh
      unfold IsSurrogateByte at hnone
      cases hbegins' with
      | plain hlow' hhigh' hvalue' =>
        obtain ⟨_, hsame, _⟩ | ⟨_, hreplacement⟩ := hhead
        · have hbytes := bytes_eq (a := a) (b := c) (c := b) (e := a) (by omega)
          omega
        · omega
      | pair hhigh' hlow' hvalue' => omega
      | bad _ hvalue' _ => omega
    | pair hhigh hlow hvalue =>
      -- a pair, whose halves would have to be the bytes one further on
      rename_i e rest
      have he := e.toNat_lt
      have hunit2 := unit_false b e
      unfold isHigh at hhigh
      unfold isLow at hlow
      cases hbegins' with
      | plain hlow' hhigh' hvalue' =>
        have hlt := @unit_lt false a b
        omega
      | pair hhigh' hlow' hvalue' =>
        rename_i g rest
        have hunit3 := unit_false e g
        unfold isHigh at hhigh'
        unfold isLow at hlow'
        obtain ⟨_, hsame, _⟩ | ⟨_, hreplacement⟩ := hhead
        · have hhalves : unit false c a = unit false a b ∧ unit false b e = unit false e g := by omega
          have hfirst := bytes_eq (a := a) (b := c) (c := b) (e := a) (by omega)
          have hsecond := bytes_eq (a := e) (b := b) (c := g) (e := e) (by omega)
          omega
        · omega
      | bad _ hvalue' _ => omega
    | bad hno _ _ => exact hchar hno

theorem bigEndian_same (hc : ¬IsSurrogateByte c) (s : List UInt16) :
    decoded true (c :: unitsBytes true s) ≠ decoded true (unitsBytes true s) := by
  induction s with
  | nil =>
    intro heq
    have hone : decoded true [c] = [replacementChar] := decoded_noChar (cons_ne_nil _ _) (noChar_singleton c)
    rw [show c :: unitsBytes true [] = [c] from rfl, hone] at heq
    cases heq
  | cons x s ih =>
    obtain ⟨a, b, hbytes, _⟩ := unitsBytes_cons true x s
    rw [hbytes]
    have hlow : ¬isLow (unit true c a) := fun h => hc (surrogate_iff_true.mp (.inl h))
    have hhigh : ¬isHigh (unit true c a) := fun h => hc (surrogate_iff_true.mp (.inr h))
    rw [decoded_char (found_plain (b :: unitsBytes true s) hlow hhigh)]
    obtain ⟨ch', text', htext', hbegins'⟩ := decoded_begins true (cons_ne_nil a (b :: unitsBytes true s))
    rw [htext']
    intro heq
    rw [List.cons.injEq] at heq
    have hhead := congrArg Char.toNat heq.1
    rw [toNat_plainChar (unit_lt c a) hlow hhigh] at hhead
    have ha := a.toNat_lt
    have hb := b.toNat_lt
    have hcl := c.toNat_lt
    have hunit := unit_true c a
    have hunit' := unit_true a b
    generalize hrest : unitsBytes true s = rest at hbegins' heq ih
    cases hbegins' with
    | plain _ _ hvalue' =>
      have hbc : b = c := UInt8.toNat_inj.mp (by omega)
      rw [hbc] at heq
      exact ih heq.2
    | pair _ _ hvalue' => omega
    | bad _ hvalue' hsurrogate =>
      have hbyte := surrogate_iff_true.mp (hsurrogate a b rest rfl)
      unfold IsSurrogateByte at hbyte
      omega

def plainChars (w : List (UInt8 × UInt8)) : List Char := w.map fun z => plainChar (unit true z.1 z.2)

theorem toNat_plain_true (ha : ¬IsSurrogateByte a) (b : UInt8) :
    (plainChar (unit true a b)).toNat = a.toNat * 256 + b.toNat :=
  toNat_plainChar (unit_lt a b) (fun h => ha (surrogate_iff_true.mp (.inl h)))
    (fun h => ha (surrogate_iff_true.mp (.inr h)))

theorem bigEndian_behind (s : List UInt16) (w : List (UInt8 × UInt8)) (h c : UInt8)
    (hw : ∀ z ∈ w, ¬IsSurrogateByte z.1 ∧ ¬IsSurrogateByte z.2) (hh : ¬IsSurrogateByte h)
    (hnil : w = [] → h.toNat = 0xFD) :
    decoded true (c :: unitsBytes true s) ≠ plainChars (w ++ [(h, c)]) ++ decoded true (unitsBytes true s) := by
  -- a single replacement is none of these characters
  have hsingle : ∀ (w : List (UInt8 × UInt8)) (h c : UInt8), ¬IsSurrogateByte h → (w = [] → h.toNat = 0xFD) →
      ∀ x, x.toNat = 0xFFFD → [x] ≠ plainChars (w ++ [(h, c)]) := by
    intro w h c hh hnil x hx heq
    cases w with
    | nil =>
      have hchar := congrArg Char.toNat (List.cons.inj heq).1
      have hcl := c.toNat_lt
      have hfd := hnil rfl
      dsimp only at hchar
      rw [toNat_plain_true hh] at hchar
      omega
    | cons z w =>
      have hlength := congrArg List.length heq
      unfold plainChars at hlength
      simp at hlength
  induction s generalizing w h c with
  | nil =>
    intro heq
    have hone : decoded true [c] = [replacementChar] := decoded_noChar (cons_ne_nil _ _) (noChar_singleton c)
    rw [show c :: unitsBytes true [] = [c] from rfl, hone, show decoded true (unitsBytes true []) = [] from rfl,
      append_nil] at heq
    exact hsingle w h c hh hnil _ toNat_replacementChar heq
  | cons x s ih =>
    obtain ⟨a, b, hbytes, _⟩ := unitsBytes_cons true x s
    rw [hbytes]
    obtain ⟨ch, text, htext, hbegins⟩ := decoded_begins true (cons_ne_nil c (a :: b :: unitsBytes true s))
    intro heq
    rw [htext] at heq
    -- the first of the characters that are still to be matched
    obtain ⟨z, more, hz, hfirst, hsecond⟩ : ∃ z more, w ++ [(h, c)] = z :: more ∧ ¬IsSurrogateByte z.1 ∧
        (¬IsSurrogateByte z.2 ∨ z.2 = c) := by
      cases w with
      | nil => exact ⟨_, _, rfl, hh, .inr rfl⟩
      | cons z w => exact ⟨_, _, rfl, (hw z mem_cons_self).1, .inl (hw z mem_cons_self).2⟩
    have hchars : plainChars (w ++ [(h, c)]) = plainChar (unit true z.1 z.2) :: plainChars more := by
      rw [hz]
      rfl
    have hz1 := z.1.toNat_lt
    have hz2 := z.2.toNat_lt
    have hunit := unit_true c a
    generalize hrest : unitsBytes true s = rest at hbegins heq ih
    cases hbegins with
    | plain hlow hhigh hvalue =>
      rw [hchars, cons_append, List.cons.injEq] at heq
      have hhead := congrArg Char.toNat heq.1
      rw [toNat_plain_true hfirst] at hhead
      have hbytes' := bytes_eq (a := c) (b := a) (c := z.1) (e := z.2) (by omega)
      have hc1 : c = z.1 := UInt8.toNat_inj.mp hbytes'.1
      have ha2 : a = z.2 := UInt8.toNat_inj.mp hbytes'.2
      have hc : ¬IsSurrogateByte c := by
        rw [hc1]
        exact hfirst
      have ha : ¬IsSurrogateByte a := by
        rw [ha2]
        cases hsecond with
        | inl h => exact h
        | inr h =>
          rw [h]
          exact hc
      have hlow' : ¬isLow (unit true a b) := fun h => ha (surrogate_iff_true.mp (.inl h))
      have hhigh' : ¬isHigh (unit true a b) := fun h => ha (surrogate_iff_true.mp (.inr h))
      have htail : decoded true (b :: rest) = plainChars (more ++ [(a, b)]) ++ decoded true rest := by
        rw [heq.2, decoded_char (found_plain rest hlow' hhigh')]
        unfold plainChars
        rw [map_append, append_assoc]
        rfl
      refine ih more a b ?_ ha ?_ htail
      · intro y hy
        cases w with
        | nil =>
          cases hz
          cases hy
        | cons z' w =>
          rw [cons_append, List.cons.injEq] at hz
          rw [← hz.2, mem_append, mem_singleton] at hy
          cases hy with
          | inl hmem => exact hw y (mem_cons_of_mem _ hmem)
          | inr hlast =>
            rw [hlast]
            exact ⟨hh, hc⟩
      · intro hmore
        cases w with
        | nil =>
          cases hz
          have hfd := hnil rfl
          rw [ha2]
          dsimp only at hc1 ⊢
          rw [hc1]
          exact hfd
        | cons z' w =>
          rw [cons_append, List.cons.injEq, hmore] at hz
          exact absurd hz.2 (append_ne_nil_of_right_ne_nil _ (cons_ne_nil _ _))
    | pair hhigh hlow hvalue =>
      rw [hchars, cons_append, List.cons.injEq] at heq
      have hhead := congrArg Char.toNat heq.1
      rw [toNat_plain_true hfirst] at hhead
      omega
    | bad hno hvalue _ =>
      have hcancel : [ch] ++ decoded true (a :: b :: rest) = plainChars (w ++ [(h, c)]) ++ decoded true (a :: b :: rest) := heq
      exact hsingle w h c hh hnil ch hvalue (append_cancel_right hcancel)

theorem bigEndian_out_of_step (hchar : ¬NoChar true (c :: unitsBytes true s)) (k : Nat) :
    decoded true (c :: unitsBytes true s) ≠
      replicate k replacementChar ++ decoded true (unitsBytes true s) := by
  intro heq
  cases s with
  | nil => exact hchar (noChar_singleton c)
  | cons x s =>
    obtain ⟨a, b, hbytes, _⟩ := unitsBytes_cons true x s
    have hsame := bigEndian_same (c := c) (s := x :: s)
    rw [hbytes] at heq hchar hsame
    obtain ⟨ch, text, htext, hbegins⟩ := decoded_begins true (cons_ne_nil c (a :: b :: unitsBytes true s))
    obtain ⟨ch', text', htext', hbegins'⟩ := decoded_begins true (cons_ne_nil a (b :: unitsBytes true s))
    have hbehind := bigEndian_behind s
    generalize unitsBytes true s = rest at *
    have ha := a.toNat_lt
    have hb := b.toNat_lt
    have hcl := c.toNat_lt
    have hunit := unit_true c a
    have hunit' := unit_true a b
    cases hbegins with
    | plain hlow hhigh hvalue =>
      have hc : ¬IsSurrogateByte c := fun h => (surrogate_iff_true.mpr h).elim hlow hhigh
      cases k with
      | zero => exact hsame hc heq
      | succ k =>
        rw [htext, replicate_succ, cons_append, List.cons.injEq] at heq
        have hhead := congrArg Char.toNat heq.1
        rw [toNat_replacementChar] at hhead
        have hfd : a.toNat = 0xFD := by omega
        have hff : c.toNat = 0xFF := by omega
        have hsurrogate : ¬IsSurrogateByte a := by
          unfold IsSurrogateByte
          omega
        have hlow' : ¬isLow (unit true a b) := fun h => hsurrogate (surrogate_iff_true.mp (.inl h))
        have hhigh' : ¬isHigh (unit true a b) := fun h => hsurrogate (surrogate_iff_true.mp (.inr h))
        refine hbehind (replicate k (c, a)) a b ?_ hsurrogate (fun _ => hfd) ?_
        · intro z hz
          rw [eq_of_mem_replicate hz]
          exact ⟨hc, hsurrogate⟩
        · rw [heq.2, decoded_char (found_plain rest hlow' hhigh')]
          have hreplacement : plainChar (unit true c a) = replacementChar := by
            have hunit'' : unit true c a = 0xFFFD := by omega
            rw [hunit'']
            rfl
          unfold plainChars
          rw [map_append, map_replicate, hreplacement, append_assoc]
          rfl
    | pair hhigh hlow hvalue =>
      rename_i e rest
      rw [htext, htext'] at heq
      have hhead := head_toNat heq
      unfold isHigh at hhigh
      unfold isLow at hlow
      have hunit2 := unit_true b e
      have he := e.toNat_lt
      cases hbegins' with
      | plain hlow' hhigh' hvalue' =>
        have hlt := @unit_lt true a b
        omega
      | pair hhigh' hlow' hvalue' =>
        unfold isHigh at hhigh'
        unfold isLow at hlow'
        rename_i g rest
        obtain ⟨_, hsame', _⟩ | ⟨_, hreplacement⟩ := hhead
        · have hhalves : unit true c a = unit true a b := by omega
          have hfirst := bytes_eq (a := c) (b := a) (c := a) (e := b) (by omega)
          omega
        · omega
      | bad _ hvalue' _ => omega
    | bad hno _ _ => exact hchar hno

theorem out_of_step (hc : bigEndian = false → IsSurrogateByte c)
    (hchar : ¬NoChar bigEndian (c :: unitsBytes bigEndian s)) (k : Nat) :
    decoded bigEndian (c :: unitsBytes bigEndian s) ≠
      replicate k replacementChar ++ decoded bigEndian (unitsBytes bigEndian s) := by
  cases bigEndian with
  | false => exact littleEndian_out_of_step (hc rfl) hchar k
  | true => exact bigEndian_out_of_step hchar k

/-! ## All unpaired surrogates -/

theorem encode_replicate (k : Nat) :
    encode (replicate k replacementChar) = (replicate k Reader.replacementBytes).flatten := by
  induction k with
  | zero => rfl
  | succ k ih =>
    rw [replicate_succ, replicate_succ, ← singleton_append, encode_append, ih, encode_replacementChar]
    rfl

theorem Unpaired.joint (h : Unpaired p v s) (x w : UInt16) (hx : p.getLast? = some x)
    (hw : (v :: s).head? = some w) (hhigh : isHigh x.toNat) : ¬isLow w.toNat := by
  cases hw
  intro hlow
  cases h with
  | inl h => exact not_high_of_low hlow h.1
  | inr h => exact h.2 x hx hhigh

theorem resyncs_of_realigns {u : List UInt16} (h : Realigns bigEndian u []) : Resyncs bigEndian u := by
  intro p v s hsplit hunpaired out outBefore outAfter hout hbefore hafter
  rw [outputs_iff] at hout hbefore hafter
  have hp : Realigns bigEndian p (v :: s) := by
    intro p' v' s' hsplit' hunpaired'
    have hwhole := h p' v' (s' ++ v :: s) (by rw [hsplit, hsplit', append_assoc]; rfl)
    rw [append_nil] at hwhole
    exact hwhole hunpaired'
  have hsecond := h p v s hsplit
  rw [append_nil] at hsecond
  have htext : decoded bigEndian (unitsBytes bigEndian u) = decoded bigEndian (unitsBytes bigEndian p) ++
      replicate 2 replacementChar ++ decoded bigEndian (unitsBytes bigEndian s) := by
    rw [hsplit, decoded_append hp hunpaired.joint, decoded_realigned hunpaired.bad (hsecond hunpaired), append_assoc]
    rfl
  refine ⟨2, Nat.zero_lt_two, ?_⟩
  rw [hout, hbefore, hafter, htext, encode_append, encode_append, encode_replicate]

theorem realigns_of_resyncs {u : List UInt16} (h : Resyncs bigEndian u) : Realigns bigEndian u [] := by
  intro p v s hsplit hunpaired
  rw [append_nil] at hunpaired ⊢
  obtain ⟨n, hn⟩ : ∃ n, p.length ≤ n := ⟨_, le_rfl⟩
  -- the first that is out of step has everything before it in step
  induction n using Nat.strong_induction_on generalizing p v s with
  | _ n ih =>
    have hp : Realigns bigEndian p (v :: s) := by
      intro p' v' s' hsplit' hunpaired'
      have hlt : p'.length < n := by
        have hlength := congrArg List.length hsplit'
        rw [length_append, length_cons] at hlength
        omega
      exact ih p'.length hlt p' v' (s' ++ v :: s) (by rw [hsplit, hsplit', append_assoc]; rfl) hunpaired' (le_rfl)
    obtain ⟨k, hk, hout⟩ := h p v s hsplit hunpaired _ _ _ (outputs_iff.mpr rfl) (outputs_iff.mpr rfl)
      (outputs_iff.mpr rfl)
    obtain ⟨k, rfl⟩ : ∃ j, k = j + 1 := ⟨k - 1, by omega⟩
    rw [← encode_replicate, ← encode_append, ← encode_append] at hout
    have htext := encode_injective hout
    rw [hsplit, decoded_append hp hunpaired.joint, append_assoc] at htext
    have hcancel := append_cancel_left htext
    rw [decoded_bad hunpaired.bad, replicate_succ, cons_append, List.cons.injEq] at hcancel
    by_contra hchar
    obtain ⟨a, b, hbytes, hunit⟩ := unitsBytes_cons bigEndian v s
    rw [hbytes] at hcancel hchar
    refine out_of_step ?_ hchar k hcancel.2
    intro hfalse
    subst hfalse
    rw [← surrogate_iff_false (a := a), hunit]
    cases hunpaired with
    | inl hhigh => exact .inr hhigh.1
    | inr hlow => exact .inl hlow.1

/-- **Main result.** Unpaired surrogates leave the rest of the text alone exactly where no
character begins at the second byte of one. -/
theorem resyncs_iff (bigEndian : Bool) (u : List UInt16) : Resyncs bigEndian u ↔ Realigns bigEndian u [] :=
  ⟨realigns_of_resyncs, resyncs_of_realigns⟩

/-- An unpaired surrogate before the letters a and b, in little endian -/
theorem not_resyncs : ¬∀ (bigEndian : Bool) (u : List UInt16), Resyncs bigEndian u := by
  intro h
  have hnone := realigns_of_resyncs (h false [0xD800, 0x61, 0x62]) [] 0xD800 [0x61, 0x62] rfl
    (.inl ⟨by decide, fun w hw => by cases hw; decide⟩)
  have hbytes : (unitsBytes false [0xD800, 0x61, 0x62]).tail = [0xD8, 0x61, 0x00, 0x62, 0x00] := by decide
  rw [append_nil, hbytes] at hnone
  exact hnone 2 _ (found_plain [0x00, 0x62, 0x00] (by decide) (by decide))

end Bx.RgDecodeReader
