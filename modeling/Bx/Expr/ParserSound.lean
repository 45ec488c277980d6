import Bx.Expr.ArithmeticSound
import Bx.Expr.Parser

/-!
# expr parses its grammar

The grammar has six levels of operators, all of which associate to the left, above operands. The parser gives the tree
that the grammar has for the arguments, of which there is at most one, and fails where there is none.
-/

namespace Bx.Expr

open Kit List

/-! ## The grammar -/

def BinaryOp.level : BinaryOp → Nat
  | or => 0
  | and => 1
  | compare _ => 2
  | arith .add | arith .sub => 3
  | arith .mul | arith .div | arith .mod => 4
  | colon => 5

def operandLevel : Nat := 7

/-- What arguments mean at a level, where expressions are nested at most `d` deep -/
inductive Derives : Nat → Nat → List Bytes → Node → Prop
  | word {l d : Nat} {t : Bytes} (h : classifyToken t = .word) : Derives l (d + 1) [t] (.literal t)
  | quoted {l d : Nat} {plus : Bytes} (h : classifyToken plus = .op (.arith .add)) (t : Bytes) :
    Derives l (d + 1) [plus, t] (.literal t)
  | paren {l d : Nat} {lp rp : Bytes} {toks : List Bytes} {n : Node} (hl : classifyToken lp = .lparen)
    (hr : classifyToken rp = .rparen) (h : Derives 0 d toks n) : Derives l (d + 1) (lp :: (toks ++ [rp])) n
  | length {l d : Nat} {kw : Bytes} {toks : List Bytes} {a : Node} (hkw : classifyToken kw = .kwLength)
    (h : Derives operandLevel d toks a) : Derives l (d + 1) (kw :: toks) (.prefixLength a)
  | match {l d : Nat} {kw : Bytes} {ta tb : List Bytes} {a b : Node} (hkw : classifyToken kw = .kwMatch)
    (ha : Derives operandLevel d ta a) (hb : Derives operandLevel d tb b) :
    Derives l (d + 1) (kw :: (ta ++ tb)) (.prefixMatch a b)
  | index {l d : Nat} {kw : Bytes} {ta tb : List Bytes} {a b : Node} (hkw : classifyToken kw = .kwIndex)
    (ha : Derives operandLevel d ta a) (hb : Derives operandLevel d tb b) :
    Derives l (d + 1) (kw :: (ta ++ tb)) (.prefixIndex a b)
  | substr {l d : Nat} {kw : Bytes} {ta tb tc : List Bytes} {a b c : Node} (hkw : classifyToken kw = .kwSubstr)
    (ha : Derives operandLevel d ta a) (hb : Derives operandLevel d tb b) (hc : Derives operandLevel d tc c) :
    Derives l (d + 1) (kw :: (ta ++ (tb ++ tc))) (.prefixSubstr a b c)
  | binary {l d : Nat} {o : Bytes} {op : BinaryOp} {left right : List Bytes} {a b : Node}
    (ho : classifyToken o = .op op) (hl : l ≤ op.level) (ha : Derives op.level (d + 1) left a)
    (hb : Derives (op.level + 1) d right b) : Derives l (d + 1) (left ++ o :: right) (.binary op a b)

def IsTree (args : List Bytes) (n : Node) : Prop := ∃ d, Derives 0 d args n

variable {toks : List Bytes} {n : Node} {op : BinaryOp} {rbp : Nat} {tok : Bytes} {l : Nat}

theorem Derives.succ {d : Nat} (h : Derives l d toks n) : Derives l (d + 1) toks n := by
  induction h with
  | word h => exact .word h
  | quoted h t => exact .quoted h t
  | paren hl hr _ ih => exact .paren hl hr ih
  | length hkw _ ih => exact .length hkw ih
  | «match» hkw _ _ iha ihb => exact .match hkw iha ihb
  | index hkw _ _ iha ihb => exact .index hkw iha ihb
  | substr hkw _ _ _ iha ihb ihc => exact .substr hkw iha ihb ihc
  | binary ho hl _ _ iha ihb => exact .binary ho hl iha ihb

theorem Derives.deeper {d d' : Nat} (h : Derives l d toks n) (hd : d ≤ d') : Derives l d' toks n := by
  induction hd with
  | refl => exact h
  | step _ ih => exact ih.succ

theorem Derives.ne_nil {d : Nat} (h : Derives l d toks n) : toks ≠ [] := by
  cases h with
  | binary => exact append_ne_nil_of_right_ne_nil _ (cons_ne_nil _ _)
  | _ => exact cons_ne_nil _ _

/-! ## The operator that comes next -/

theorem BinaryOp.lbp_eq (op : BinaryOp) : op.lbp = 10 * (op.level + 1) := by
  cases op with
  | arith op => cases op <;> rfl
  | _ => rfl

theorem BinaryOp.level_lt (op : BinaryOp) : op.level < 6 := by
  cases op with
  | arith op => cases op <;> decide
  | compare op => exact (by decide : 2 < 6)
  | _ => decide

variable {rest : List Bytes}

theorem nextOp_some (h : nextOp rbp toks = some (op, rest)) :
    ∃ tok, toks = tok :: rest ∧ classifyToken tok = .op op ∧ rbp < op.lbp := by
  cases toks with
  | nil => cases h
  | cons tok toks =>
    rw [nextOp] at h
    cases hkind : classifyToken tok with
    | op o =>
      rw [hkind] at h
      dsimp only at h
      by_cases hlbp : o.lbp ≤ rbp
      · simp [hlbp] at h
      · rw [if_neg hlbp] at h
        cases h
        exact ⟨tok, rfl, hkind, by omega⟩
    | _ => simp [hkind] at h

theorem nextOp_op (h : classifyToken tok = .op op) (rest : List Bytes) :
    nextOp rbp (tok :: rest) = if op.lbp ≤ rbp then none else some (op, rest) := by
  rw [nextOp, h]

theorem nextOp_rparen (h : classifyToken tok = .rparen) (rest : List Bytes) : nextOp rbp (tok :: rest) = none := by
  rw [nextOp, h]

theorem nextOp_none_of_le {rbp' : Nat} (h : nextOp rbp toks = none) (hle : rbp ≤ rbp') : nextOp rbp' toks = none := by
  cases hnext : nextOp rbp' toks with
  | none => rfl
  | some next =>
    obtain ⟨op, rest⟩ := next
    obtain ⟨tok, rfl, htok, hlbp⟩ := nextOp_some hnext
    rw [nextOp_op htok, if_neg (by omega)] at h
    cases h

theorem nextOp_operand (toks : List Bytes) (h : 6 ≤ l) : nextOp (10 * l) toks = none := by
  cases hnext : nextOp (10 * l) toks with
  | none => rfl
  | some next =>
    obtain ⟨op, rest⟩ := next
    obtain ⟨_, _, _, hlbp⟩ := nextOp_some hnext
    rw [op.lbp_eq] at hlbp
    have := op.level_lt
    omega

/-! ## What is parsed is derived -/

theorem bind_eq_ok {α β : Type} {x : Except ParseError α} {f : α → Except ParseError β} {r : β}
    (h : x.bind f = .ok r) : ∃ a, x = .ok a ∧ f a = .ok r := by
  cases x with
  | error e => cases h
  | ok a => exact ⟨a, rfl, h⟩

/-- What `sub` parses has a derivation, and what is left does not go on. -/
def SubSound (sub : Nat → List Bytes → Parse) (d : Nat) : Prop :=
  ∀ {l : Nat} {toks rest : List Bytes} {n : Node}, sub (10 * l) toks = .ok (n, rest) →
    ∃ used, toks = used ++ rest ∧ Derives l d used n ∧ nextOp (10 * l) rest = none

section
variable {sub : Nat → List Bytes → Parse} {d : Nat} (hsub : SubSound sub d)
include hsub

theorem SubSound.length_le (h : sub (10 * l) toks = .ok (n, rest)) : rest.length ≤ toks.length := by
  obtain ⟨used, htoks, _, _⟩ := hsub h
  rw [htoks, length_append]
  exact Nat.le_add_left _ _

theorem SubSound.lbp_length_le (h : sub op.lbp toks = .ok (n, rest)) : rest.length ≤ toks.length := by
  rw [op.lbp_eq] at h
  exact hsub.length_le h

theorem SubSound.operand (h : sub prefixBindingPower toks = .ok (n, rest)) :
    ∃ used, toks = used ++ rest ∧ Derives operandLevel d used n := by
  obtain ⟨used, htoks, hderives, _⟩ := @hsub operandLevel _ _ _ h
  exact ⟨used, htoks, hderives⟩

theorem parseNud_sound (h : parseNud sub tok toks = .ok (n, rest)) :
    ∃ used, tok :: toks = used ++ rest ∧ ∀ l, Derives l (d + 1) used n := by
  unfold parseNud at h
  cases hkind : classifyToken tok with
  | word =>
    rw [hkind] at h
    cases h
    exact ⟨[tok], rfl, fun l => .word hkind⟩
  | lparen =>
    rw [hkind] at h
    obtain ⟨⟨node, rest'⟩, hnode, hclose⟩ := bind_eq_ok h
    obtain ⟨used, rfl, hderives, _⟩ := @hsub 0 _ _ _ hnode
    cases rest' with
    | nil => cases hclose
    | cons next rest' =>
      dsimp only at hclose
      by_cases hnext : classifyToken next = .rparen
      · rw [if_pos hnext] at hclose
        cases hclose
        refine ⟨tok :: (used ++ [next]), ?_, fun l => .paren hkind hnext hderives⟩
        rw [cons_append, append_assoc]
        rfl
      · simp [hnext] at hclose
  | rparen => simp [hkind] at h
  | op op =>
    rw [hkind] at h
    by_cases hadd : op = .arith .add
    · subst hadd
      cases toks with
      | nil => cases h
      | cons quoted toks =>
        cases h
        exact ⟨[tok, quoted], rfl, fun l => .quoted hkind quoted⟩
    · cases op with
      | arith op =>
        cases op with
        | add => exact absurd rfl hadd
        | _ => cases h
      | _ => cases h
  | kwMatch =>
    rw [hkind] at h
    obtain ⟨⟨a, rest₁⟩, ha, h⟩ := bind_eq_ok h
    obtain ⟨⟨b, rest₂⟩, hb, h⟩ := bind_eq_ok h
    cases h
    obtain ⟨ta, rfl, hta⟩ := hsub.operand ha
    obtain ⟨tb, rfl, htb⟩ := hsub.operand hb
    refine ⟨tok :: (ta ++ tb), ?_, fun l => .match hkind hta htb⟩
    rw [cons_append, append_assoc]
  | kwSubstr =>
    rw [hkind] at h
    obtain ⟨⟨a, rest₁⟩, ha, h⟩ := bind_eq_ok h
    obtain ⟨⟨b, rest₂⟩, hb, h⟩ := bind_eq_ok h
    obtain ⟨⟨c, rest₃⟩, hc, h⟩ := bind_eq_ok h
    cases h
    obtain ⟨ta, rfl, hta⟩ := hsub.operand ha
    obtain ⟨tb, rfl, htb⟩ := hsub.operand hb
    obtain ⟨tc, rfl, htc⟩ := hsub.operand hc
    refine ⟨tok :: (ta ++ (tb ++ tc)), ?_, fun l => .substr hkind hta htb htc⟩
    rw [cons_append, append_assoc, append_assoc]
  | kwIndex =>
    rw [hkind] at h
    obtain ⟨⟨a, rest₁⟩, ha, h⟩ := bind_eq_ok h
    obtain ⟨⟨b, rest₂⟩, hb, h⟩ := bind_eq_ok h
    cases h
    obtain ⟨ta, rfl, hta⟩ := hsub.operand ha
    obtain ⟨tb, rfl, htb⟩ := hsub.operand hb
    refine ⟨tok :: (ta ++ tb), ?_, fun l => .index hkind hta htb⟩
    rw [cons_append, append_assoc]
  | kwLength =>
    rw [hkind] at h
    obtain ⟨⟨a, rest₁⟩, ha, h⟩ := bind_eq_ok h
    cases h
    obtain ⟨ta, rfl, hta⟩ := hsub.operand ha
    exact ⟨tok :: ta, rfl, fun l => .length hkind hta⟩

variable {left : Node} {fuel : Nat}

theorem parseLoop_sound {used : List Bytes} (hfuel : toks.length ≤ fuel) (hl : Derives l (d + 1) used left)
    (hop : ∀ op r, nextOp (10 * l) toks = some (op, r) → Derives op.level (d + 1) used left)
    (h : parseLoop sub (10 * l) fuel left toks = .ok (n, rest)) :
    ∃ used', used ++ toks = used' ++ rest ∧ Derives l (d + 1) used' n ∧ nextOp (10 * l) rest = none := by
  induction fuel generalizing left toks used with
  | zero =>
    cases h
    rw [length_eq_zero_iff.mp (Nat.le_zero.mp hfuel)]
    exact ⟨used, rfl, hl, rfl⟩
  | succ fuel ih =>
    rw [parseLoop] at h
    cases hnext : nextOp (10 * l) toks with
    | none =>
      rw [hnext] at h
      cases h
      exact ⟨used, rfl, hl, hnext⟩
    | some next =>
      obtain ⟨op, r⟩ := next
      rw [hnext] at h
      obtain ⟨⟨left', toks'⟩, hled, hgo⟩ := bind_eq_ok h
      obtain ⟨⟨right, r'⟩, hright, hpair⟩ := bind_eq_ok hled
      cases hpair
      obtain ⟨tok, rfl, htok, hlbp⟩ := nextOp_some hnext
      rw [op.lbp_eq] at hright hlbp
      obtain ⟨usedRight, rfl, hderives, hstop⟩ := hsub hright
      have hbinary : ∀ l' ≤ op.level, Derives l' (d + 1) (used ++ tok :: usedRight) (.binary op left right) :=
        fun l' hl' => .binary htok hl' (hop op _ hnext) hderives
      have hlen : toks'.length ≤ fuel := by
        rw [length_cons, length_append] at hfuel
        omega
      have hlevel : ∀ op' r', nextOp (10 * l) toks' = some (op', r') → op'.level ≤ op.level := by
        intro op' r' hnext'
        obtain ⟨tok', rfl, htok', _⟩ := nextOp_some hnext'
        rw [nextOp_op htok'] at hstop
        by_cases hle : op'.lbp ≤ 10 * (op.level + 1)
        · rw [op'.lbp_eq] at hle
          omega
        · simp [hle] at hstop
      obtain ⟨used', hused', hn, hend⟩ :=
        ih hlen (hbinary l (by omega)) (fun op' r' hnext' => hbinary op'.level (hlevel op' r' hnext')) hgo
      refine ⟨used', ?_, hn, hend⟩
      rw [← hused', append_assoc, cons_append]

theorem parseLoop_fuel {fuel' : Nat} (hfuel : toks.length ≤ fuel)
    (hfuel' : toks.length ≤ fuel') : parseLoop sub rbp fuel left toks = parseLoop sub rbp fuel' left toks := by
  induction fuel generalizing left toks fuel' with
  | zero =>
    rw [length_eq_zero_iff.mp (Nat.le_zero.mp hfuel)]
    cases fuel' with
    | zero => rfl
    | succ fuel' => rfl
  | succ fuel ih =>
    cases fuel' with
    | zero =>
      rw [length_eq_zero_iff.mp (Nat.le_zero.mp hfuel')]
      rfl
    | succ fuel' =>
      rw [parseLoop, parseLoop]
      cases hnext : nextOp rbp toks with
      | none => rfl
      | some next =>
        obtain ⟨op, r⟩ := next
        obtain ⟨tok, rfl, _, _⟩ := nextOp_some hnext
        rw [length_cons] at hfuel hfuel'
        dsimp only
        unfold parseLed
        cases hright : sub op.lbp r with
        | error e => rfl
        | ok right =>
          obtain ⟨right, rest⟩ := right
          have hlen := hsub.lbp_length_le hright
          exact ih (Nat.le_trans hlen (Nat.le_of_succ_le_succ hfuel)) (Nat.le_trans hlen (Nat.le_of_succ_le_succ hfuel'))

end

theorem parseExpr_sound (d : Nat) : SubSound (parseExpr d) d := by
  induction d with
  | zero =>
    intro l toks rest n h
    cases h
  | succ d ih =>
    intro l toks rest n h
    cases toks with
    | nil => cases h
    | cons tok toks =>
      obtain ⟨⟨left, rest'⟩, hleft, h⟩ := bind_eq_ok h
      obtain ⟨used, hused, hderives⟩ := parseNud_sound ih hleft
      rw [hused]
      exact parseLoop_sound ih (le_rfl) (hderives l) (fun op _ _ => hderives op.level) h

/-! ## What is derived is parsed -/

variable {left : Node} {args : List Bytes}

variable {fuel : Nat}

theorem parseLoop_stop {sub : Nat → List Bytes → Parse}
    (h : nextOp rbp toks = none) : parseLoop sub rbp fuel left toks = .ok (left, toks) := by
  cases fuel with
  | zero => rfl
  | succ fuel => rw [parseLoop, h]

theorem parseLoop_cons {d : Nat} {right : Node}
    (htok : classifyToken tok = .op op) (hlbp : rbp < op.lbp) (hright : parseExpr d op.lbp toks = .ok (right, rest)) :
    parseLoop (parseExpr d) rbp (tok :: toks).length left (tok :: toks) =
      parseLoop (parseExpr d) rbp rest.length (.binary op left right) rest := by
  rw [length_cons, parseLoop, nextOp_op htok, if_neg (Nat.not_le_of_lt hlbp)]
  dsimp only
  unfold parseLed
  rw [hright]
  exact parseLoop_fuel (parseExpr_sound d) (SubSound.lbp_length_le (parseExpr_sound d) hright) (le_rfl)

theorem parseExpr_cons {d : Nat} (h : parseNud (parseExpr d) tok toks = .ok (left, rest)) :
    parseExpr (d + 1) rbp (tok :: toks) = parseLoop (parseExpr d) rbp rest.length left rest := by
  rw [parseExpr, h]
  rfl

theorem parseExpr_append {m d : Nat} {used : List Bytes} {n : Node} (h : Derives m d used n) {l : Nat} (hl : l ≤ m)
    {rest : List Bytes} (hrest : nextOp (10 * (m + 1)) rest = none) :
    parseExpr d (10 * l) (used ++ rest) = parseLoop (parseExpr (d - 1)) (10 * l) rest.length n rest := by
  -- an operand of a keyword takes nothing of what is behind it
  have hoperand : ∀ {d : Nat} {n : Node} {used rest : List Bytes},
      (∀ {l : Nat}, l ≤ operandLevel → ∀ {rest : List Bytes}, nextOp (10 * (operandLevel + 1)) rest = none →
        parseExpr d (10 * l) (used ++ rest) = parseLoop (parseExpr (d - 1)) (10 * l) rest.length n rest) →
      parseExpr d prefixBindingPower (used ++ rest) = .ok (n, rest) := by
    intro d n used rest ih
    have happend := ih (le_rfl) (nextOp_operand rest (by decide))
    rw [parseLoop_stop (nextOp_operand rest (by decide))] at happend
    exact happend
  induction h generalizing l rest with
  | word h =>
    apply parseExpr_cons
    unfold parseNud
    rw [h]
    rfl
  | quoted h t =>
    apply parseExpr_cons
    unfold parseNud
    rw [h]
    rfl
  | @paren _ d lp rp toks n hlp hrp _ ih =>
    have hstop : ∀ rbp, nextOp rbp (rp :: rest) = none := fun rbp => nextOp_rparen hrp rest
    have hinner := ih (Nat.le_refl 0) (hstop _)
    rw [parseLoop_stop (hstop _)] at hinner
    rw [cons_append, append_assoc]
    apply parseExpr_cons
    unfold parseNud
    rw [hlp]
    dsimp only
    rw [singleton_append, hinner]
    exact if_pos hrp
  | length hkw _ ih =>
    rw [cons_append]
    apply parseExpr_cons
    unfold parseNud
    rw [hkw]
    dsimp only
    rw [hoperand ih]
    rfl
  | «match» hkw _ _ iha ihb =>
    rw [cons_append, append_assoc]
    apply parseExpr_cons
    unfold parseNud
    rw [hkw]
    dsimp only
    rw [hoperand iha, Except.bind, hoperand ihb]
    rfl
  | index hkw _ _ iha ihb =>
    rw [cons_append, append_assoc]
    apply parseExpr_cons
    unfold parseNud
    rw [hkw]
    dsimp only
    rw [hoperand iha, Except.bind, hoperand ihb]
    rfl
  | substr hkw _ _ _ iha ihb ihc =>
    rw [cons_append, append_assoc, append_assoc]
    apply parseExpr_cons
    unfold parseNud
    rw [hkw]
    dsimp only
    rw [hoperand iha, Except.bind, hoperand ihb, Except.bind, hoperand ihc]
    rfl
  | @binary m d o op left right a b ho hm _ _ iha ihb =>
    have hleft : nextOp (10 * (op.level + 1)) (o :: (right ++ rest)) = none := by
      rw [nextOp_op ho, op.lbp_eq]
      exact if_pos (le_rfl)
    have hstop : nextOp (10 * (op.level + 1)) rest = none := nextOp_none_of_le hrest (by omega)
    have hright := ihb (le_rfl) (nextOp_none_of_le hrest (by omega))
    rw [parseLoop_stop hstop, ← op.lbp_eq] at hright
    rw [append_assoc, cons_append, iha (by omega) hleft]
    apply parseLoop_cons ho _ hright
    rw [op.lbp_eq]
    omega

theorem parseWithin_of_derives {d : Nat} (h : Derives 0 d args n) : parseWithin d args = .ok n := by
  have happend := @parseExpr_append 0 d args n h 0 (Nat.le_refl 0) [] rfl
  rw [append_nil] at happend
  rw [parseWithin, happend]
  rfl

theorem derives_of_parseWithin {d : Nat} (h : parseWithin d args = .ok n) : Derives 0 d args n := by
  obtain ⟨⟨root, rest⟩, hroot, h⟩ := bind_eq_ok h
  cases rest with
  | cons arg rest => cases h
  | nil =>
    cases h
    obtain ⟨used, hused, hderives, _⟩ := @parseExpr_sound d 0 _ _ _ hroot
    rw [hused, append_nil]
    exact hderives

/-! ## The limit -/

/-- `x'` is what `x` is, unless that was too deep. -/
def Settles {α : Type} (x x' : Except ParseError α) : Prop := x ≠ .error .tooDeep → x' = x

namespace Settles
variable {α β : Type} {x x' : Except ParseError α}

theorem rfl : Settles x x := fun _ => Eq.refl x

theorem bind {f f' : α → Except ParseError β} (hx : Settles x x') (hf : ∀ a, Settles (f a) (f' a)) :
    Settles (x.bind f) (x'.bind f') := by
  intro hne
  cases x with
  | error e =>
    rw [hx (fun heq => hne (congrArg (Except.bind · f) heq))]
    exact Eq.refl _
  | ok a =>
    rw [hx (nomatch ·)]
    exact hf a hne

end Settles

variable {sub sub' : Nat → List Bytes → Parse}

section
variable (h : ∀ rbp toks, Settles (sub rbp toks) (sub' rbp toks))
include h

theorem parseNud_settles (tok : Bytes) (toks : List Bytes) :
    Settles (parseNud sub tok toks) (parseNud sub' tok toks) := by
  unfold parseNud
  cases classifyToken tok with
  | lparen => exact (h _ _).bind fun _ => .rfl
  | kwLength => exact (h _ _).bind fun _ => .rfl
  | kwMatch => exact (h _ _).bind fun _ => (h _ _).bind fun _ => .rfl
  | kwIndex => exact (h _ _).bind fun _ => (h _ _).bind fun _ => .rfl
  | kwSubstr => exact (h _ _).bind fun _ => (h _ _).bind fun _ => (h _ _).bind fun _ => .rfl
  | op op =>
    cases op with
    | arith op => cases op <;> exact .rfl
    | _ => exact .rfl
  | _ => exact .rfl

theorem parseLoop_settles (rbp fuel : Nat) (left : Node)
    (toks : List Bytes) : Settles (parseLoop sub rbp fuel left toks) (parseLoop sub' rbp fuel left toks) := by
  induction fuel generalizing left toks with
  | zero => exact .rfl
  | succ fuel ih =>
    rw [parseLoop, parseLoop]
    cases nextOp rbp toks with
    | none => exact .rfl
    | some next => exact ((h _ _).bind fun _ => .rfl).bind fun _ => ih _ _

end

theorem parseExpr_settles (d rbp : Nat) (toks : List Bytes) :
    Settles (parseExpr d rbp toks) (parseExpr (d + 1) rbp toks) := by
  induction d generalizing rbp toks with
  | zero => exact fun hne => absurd rfl hne
  | succ d ih =>
    cases toks with
    | nil => exact .rfl
    | cons tok toks => exact (parseNud_settles ih tok toks).bind fun _ => parseLoop_settles ih rbp _ _ _

theorem parseWithin_settles {d d' : Nat} (h : d ≤ d') (args : List Bytes) :
    Settles (parseWithin d args) (parseWithin d' args) := by
  induction h with
  | refl => exact .rfl
  | step _ ih =>
    intro hne
    have hsame := ih hne
    rw [← hsame] at hne ⊢
    exact (parseExpr_settles _ 0 args).bind (fun _ => .rfl) hne

theorem bind_not_tooDeep {α β : Type} {x : Except ParseError α} {f : α → Except ParseError β} (hx : x ≠ .error .tooDeep)
    (hf : ∀ a, x = .ok a → f a ≠ .error .tooDeep) : x.bind f ≠ .error .tooDeep := by
  cases x with
  | error e => exact fun heq => hx (congrArg Except.error (Except.error.inj heq))
  | ok a => exact hf a rfl

section
variable {d k : Nat} (hsub : SubSound sub d)
  (hdeep : ∀ {l : Nat} {toks : List Bytes}, toks.length < k → sub (10 * l) toks ≠ .error .tooDeep)
include hsub hdeep

theorem bindSub_not_tooDeep {β : Type} {f : Node × List Bytes → Except ParseError β}
    (htoks : toks.length < k) (hf : ∀ n rest, rest.length < k → f (n, rest) ≠ .error .tooDeep) :
    (sub (10 * l) toks).bind f ≠ .error .tooDeep := by
  apply bind_not_tooDeep (hdeep htoks)
  intro a ha
  obtain ⟨n, rest⟩ := a
  have hlen := hsub.length_le ha
  exact hf n rest (by omega)

theorem parseNud_not_tooDeep (htoks : toks.length < k) : parseNud sub tok toks ≠ .error .tooDeep := by
  have hoperand : ∀ {toks : List Bytes} {f : Node × List Bytes → Parse}, toks.length < k →
      (∀ n rest, rest.length < k → f (n, rest) ≠ .error .tooDeep) →
      (sub prefixBindingPower toks).bind f ≠ .error .tooDeep :=
    fun htoks hf => bindSub_not_tooDeep hsub hdeep (l := operandLevel) htoks hf
  unfold parseNud
  cases classifyToken tok with
  | word => exact (nomatch ·)
  | rparen => exact (nomatch ·)
  | lparen =>
    apply bindSub_not_tooDeep hsub hdeep (l := 0) htoks
    intro n rest _
    cases rest with
    | nil => exact (nomatch ·)
    | cons next rest =>
      dsimp only
      by_cases hnext : classifyToken next = .rparen
      · rw [if_pos hnext]
        exact (nomatch ·)
      · rw [if_neg hnext]
        exact (nomatch ·)
  | op op =>
    by_cases hadd : op = .arith .add
    · subst hadd
      cases toks with
      | nil => exact (nomatch ·)
      | cons quoted toks => exact (nomatch ·)
    · cases op with
      | arith op =>
        cases op with
        | add => exact absurd rfl hadd
        | _ => exact (nomatch ·)
      | _ => exact (nomatch ·)
  | kwLength => exact hoperand htoks fun _ _ _ => (nomatch ·)
  | kwMatch => exact hoperand htoks fun _ _ h => hoperand h fun _ _ _ => (nomatch ·)
  | kwIndex => exact hoperand htoks fun _ _ h => hoperand h fun _ _ _ => (nomatch ·)
  | kwSubstr => exact hoperand htoks fun _ _ h => hoperand h fun _ _ h => hoperand h fun _ _ _ => (nomatch ·)

theorem parseLoop_not_tooDeep (htoks : toks.length < k) : parseLoop sub rbp fuel left toks ≠ .error .tooDeep := by
  induction fuel generalizing left toks with
  | zero => exact (nomatch ·)
  | succ fuel ih =>
    rw [parseLoop]
    cases hnext : nextOp rbp toks with
    | none => exact (nomatch ·)
    | some next =>
      obtain ⟨op, rest⟩ := next
      obtain ⟨tok, rfl, _, _⟩ := nextOp_some hnext
      rw [length_cons] at htoks
      dsimp only
      unfold parseLed
      rw [op.lbp_eq]
      cases hright : sub (10 * (op.level + 1)) rest with
      | error e =>
        intro heq
        exact hdeep (by omega) (hright.trans (congrArg Except.error (Except.error.inj heq)))
      | ok right =>
        obtain ⟨right, after⟩ := right
        exact ih (lt_of_le_of_lt (hsub.length_le hright) (by omega))

end

theorem parseExpr_not_tooDeep {d : Nat} (h : toks.length < d) : parseExpr d (10 * l) toks ≠ .error .tooDeep := by
  induction d generalizing l toks with
  | zero => exact absurd h (Nat.not_lt_zero _)
  | succ d ih =>
    cases toks with
    | nil => exact (nomatch ·)
    | cons tok toks =>
      rw [length_cons] at h
      apply bind_not_tooDeep (parseNud_not_tooDeep (parseExpr_sound d) ih (by omega))
      intro a ha
      obtain ⟨left, rest⟩ := a
      obtain ⟨used, hused, hderives⟩ := parseNud_sound (parseExpr_sound d) ha
      have hlen := congrArg List.length hused
      rw [length_cons, length_append] at hlen
      have hpos := length_pos_iff.mpr (hderives 0).ne_nil
      exact parseLoop_not_tooDeep (parseExpr_sound d) ih (by omega)

theorem parseWithin_not_tooDeep {d : Nat} (h : args.length < d) : parseWithin d args ≠ .error .tooDeep := by
  apply bind_not_tooDeep (parseExpr_not_tooDeep (l := 0) h)
  intro a _
  obtain ⟨root, rest⟩ := a
  cases rest with
  | nil => exact (nomatch ·)
  | cons arg rest => exact (nomatch ·)

def WithinLimit (args : List Bytes) : Prop := ∀ d, exprParseMaxDepth ≤ d → parseWithin d args = parseArgs args

theorem withinLimit_iff : WithinLimit args ↔ parseArgs args ≠ .error .tooDeep := by
  refine ⟨?_, fun h d hd => parseWithin_settles hd args h⟩
  intro h heq
  have hlarge := h (exprParseMaxDepth + args.length + 1) (by omega)
  exact parseWithin_not_tooDeep (by omega) (hlarge.trans heq)

theorem withinLimit_of_length (h : args.length < exprParseMaxDepth) : WithinLimit args :=
  withinLimit_iff.mpr (parseWithin_not_tooDeep h)

def Parsed (args : List Bytes) (result : Except ParseError Node) : Prop :=
  match result with
  | .ok n => IsTree args n ∧ ∀ m, IsTree args m → m = n
  | .error e => e ≠ .tooDeep ∧ ∀ n, ¬IsTree args n

theorem IsTree.parseArgs_eq (h : IsTree args n) (hlimit : WithinLimit args) : parseArgs args = .ok n := by
  obtain ⟨d, hderives⟩ := h
  rw [← hlimit (max exprParseMaxDepth d) (Nat.le_max_left _ _)]
  exact parseWithin_of_derives (hderives.deeper (Nat.le_max_right _ _))

theorem parseArgs_parsed (h : WithinLimit args) : Parsed args (parseArgs args) := by
  cases hparse : parseArgs args with
  | ok n =>
    refine ⟨⟨_, derives_of_parseWithin hparse⟩, ?_⟩
    intro m hm
    rw [hm.parseArgs_eq h] at hparse
    exact Except.ok.inj hparse
  | error e =>
    refine ⟨?_, ?_⟩
    · intro heq
      rw [heq] at hparse
      exact withinLimit_iff.mp h hparse
    · intro n hn
      simp [hn.parseArgs_eq h] at hparse

/-! ## The logical operators -/

def Value.IsNull (v : Value) : Prop := v.toText = []

def Value.IsZero (v : Value) : Prop := v.Denotes 0

theorem zero_inRange : -2 ^ 63 ≤ (0 : Int) ∧ (0 : Int) < 2 ^ 63 := by decide

def zeroValue : Value := .int ⟨0, zero_inRange⟩

theorem parseDigits_isSome {sign : Int} {p : Bytes} (h : (parseDigits sign p).isSome) :
    p ≠ [] ∧ ∀ c ∈ p, isDigit 10 c = true := by
  unfold parseDigits at h
  dsimp only at h
  by_cases hfirst : p.head?.any (isDigit 10) = true
  · rw [hfirst, if_neg (by decide)] at h
    by_cases hdrop : (p.dropWhile (· == 48)).drop ((p.dropWhile (· == 48)).takeWhile (isDigit 10)).length = []
    · refine ⟨?_, ?_⟩
      · intro hnil
        simp [hnil] at hfirst
      · have hrest : (p.dropWhile (· == 48)).takeWhile (isDigit 10) = p.dropWhile (· == 48) := by
          apply (List.takeWhile_prefix _).eq_of_length_le
          exact drop_eq_nil_iff.mp hdrop
        intro c hc
        rw [← takeWhile_append_dropWhile (p := (· == (48 : UInt8))) (l := p)] at hc
        cases mem_append.mp hc with
        | inl hzero =>
          have heq := mem_takeWhile_imp hzero
          rw [eq_of_beq heq]
          decide
        | inr hin =>
          rw [← hrest] at hin
          exact mem_takeWhile_imp hin
    · rw [if_pos hdrop] at h
      cases h
  · rw [Bool.not_eq_true] at hfirst
    rw [hfirst, if_pos (by decide)] at h
    cases h

theorem parseIntegerView_decimal {s : Bytes} (h : (parseIntegerView s).isSome) : ∃ z, Decimal s z := by
  unfold parseIntegerView at h
  by_cases hminus : s.head? = some 45
  · rw [if_pos hminus] at h
    obtain ⟨hne, hdigits⟩ := parseDigits_isSome h
    have hs : s = 45 :: s.tail := by
      obtain ⟨t, ht⟩ := head?_eq_some_iff.mp hminus
      rw [ht]
      rfl
    exact ⟨_, s.tail, hne, hdigits, .inr ⟨hs, rfl⟩⟩
  · rw [if_neg hminus] at h
    obtain ⟨hne, hdigits⟩ := parseDigits_isSome h
    exact ⟨_, s, hne, hdigits, .inl ⟨rfl, rfl⟩⟩

theorem parseIntegerView_zero (s : Bytes) : (parseIntegerView s).any (·.sign == 0) = true ↔ Decimal s 0 := by
  cases hview : parseIntegerView s with
  | none =>
    refine ⟨(nomatch ·), ?_⟩
    intro hzero
    simp [parseIntegerView_eq hzero] at hview
  | some b =>
    obtain ⟨z, hz⟩ := parseIntegerView_decimal (s := s) (by rw [hview]; rfl)
    rw [parseIntegerView_eq hz] at hview
    have hb : ofInt z = b := Option.some.inj hview
    rw [Option.any_some, beq_iff_eq, ← hb, ofInt_sign_eq_zero]
    refine ⟨fun heq => heq ▸ hz, ?_⟩
    intro hzero
    rw [← ofInt_sign_eq_zero]
    have hboth := (parseIntegerView_eq hz).symm.trans (parseIntegerView_eq hzero)
    rw [Option.some.inj hboth]
    rfl

theorem valueIsNull_iff (v : Value) : valueIsNull v = true ↔ v.IsNull ∨ v.IsZero := by
  cases v with
  | int i =>
    refine ⟨fun h => .inr (eq_of_beq h), ?_⟩
    intro h
    cases h with
    | inl hnull =>
      obtain ⟨digits, hne, _, ⟨htext, _⟩ | ⟨htext, _⟩⟩ := decimal_denotes i.val
      · exact absurd (htext.symm.trans hnull) hne
      · exact absurd (htext.symm.trans hnull) (cons_ne_nil _ _)
    | inr hzero => exact beq_iff_eq.mpr hzero
  | string s =>
    unfold valueIsNull
    rw [Bool.or_eq_true, List.isEmpty_iff, parseIntegerView_zero]
    rfl

/-- `a | b`, where `zeroed` says which values of `b` become zero -/
structure OrMeaning (zeroed : Value → Prop) (libc : Libc) (a b : Node) : Prop where
  left : ∀ v, evalNode libc a = .value v → ¬(v.IsNull ∨ v.IsZero) → evalNode libc (.binary .or a b) = .value v
  right : ∀ v w, evalNode libc a = .value v → v.IsNull ∨ v.IsZero → evalNode libc b = .value w → ¬zeroed w →
    evalNode libc (.binary .or a b) = .value w
  zero : ∀ v w, evalNode libc a = .value v → v.IsNull ∨ v.IsZero → evalNode libc b = .value w → zeroed w →
    evalNode libc (.binary .or a b) = .value zeroValue
  leftFails : (∀ v, evalNode libc a ≠ .value v) → evalNode libc (.binary .or a b) = evalNode libc a
  rightFails : ∀ v, evalNode libc a = .value v → v.IsNull ∨ v.IsZero → (∀ w, evalNode libc b ≠ .value w) →
    evalNode libc (.binary .or a b) = evalNode libc b

/-- `a & b` -/
structure AndMeaning (libc : Libc) (a b : Node) : Prop where
  left : ∀ v w, evalNode libc a = .value v → ¬(v.IsNull ∨ v.IsZero) → evalNode libc b = .value w →
    ¬(w.IsNull ∨ w.IsZero) → evalNode libc (.binary .and a b) = .value v
  leftZero : ∀ v, evalNode libc a = .value v → v.IsNull ∨ v.IsZero →
    evalNode libc (.binary .and a b) = .value zeroValue
  rightZero : ∀ v w, evalNode libc a = .value v → ¬(v.IsNull ∨ v.IsZero) → evalNode libc b = .value w →
    w.IsNull ∨ w.IsZero → evalNode libc (.binary .and a b) = .value zeroValue
  leftFails : (∀ v, evalNode libc a ≠ .value v) → evalNode libc (.binary .and a b) = evalNode libc a
  rightFails : ∀ v, evalNode libc a = .value v → ¬(v.IsNull ∨ v.IsZero) → (∀ w, evalNode libc b ≠ .value w) →
    evalNode libc (.binary .and a b) = evalNode libc b

theorem Outcome.bind_fails {o : Outcome} {f : Value → Outcome} (h : ∀ v, o ≠ .value v) : o.bind f = o := by
  cases o with
  | value v => exact absurd rfl (h v)
  | _ => rfl

variable (libc : Libc) (a b : Node)

variable {v : Value}

theorem evalNode_or (h : evalNode libc a = .value v) : evalNode libc (.binary .or a b) = if !valueIsNull v then .value v
      else (evalNode libc b).bind fun w => if valueIsNull w then .value zeroValue else .value w := by
  rw [evalNode, h]
  rfl

theorem evalNode_and (h : evalNode libc a = .value v) :
    evalNode libc (.binary .and a b) = if valueIsNull v then .value zeroValue
      else (evalNode libc b).bind fun w => if valueIsNull w then .value zeroValue else .value v := by
  rw [evalNode, h]
  rfl

theorem valueIsNull_of_not {v : Value} (h : ¬(v.IsNull ∨ v.IsZero)) : valueIsNull v = false :=
  Bool.eq_false_iff.mpr fun hv => h ((valueIsNull_iff v).mp hv)

theorem orMeaning : OrMeaning (fun w => w.IsNull ∨ w.IsZero) libc a b := by
  refine ⟨?_, ?_, ?_, ?_, ?_⟩
  · intro v ha hv
    rw [evalNode_or libc a b ha, valueIsNull_of_not hv]
    rfl
  · intro v w ha hv hb hw
    rw [evalNode_or libc a b ha, (valueIsNull_iff v).mpr hv, hb, Outcome.bind, valueIsNull_of_not hw]
    rfl
  · intro v w ha hv hb hw
    rw [evalNode_or libc a b ha, (valueIsNull_iff v).mpr hv, hb, Outcome.bind, (valueIsNull_iff w).mpr hw]
    rfl
  · intro ha
    rw [evalNode]
    exact Outcome.bind_fails ha
  · intro v ha hv hb
    rw [evalNode_or libc a b ha, (valueIsNull_iff v).mpr hv]
    exact Outcome.bind_fails hb

theorem andMeaning : AndMeaning libc a b := by
  refine ⟨?_, ?_, ?_, ?_, ?_⟩
  · intro v w ha hv hb hw
    rw [evalNode_and libc a b ha, valueIsNull_of_not hv, hb, Outcome.bind, valueIsNull_of_not hw]
    rfl
  · intro v ha hv
    rw [evalNode_and libc a b ha, (valueIsNull_iff v).mpr hv]
    rfl
  · intro v w ha hv hb hw
    rw [evalNode_and libc a b ha, valueIsNull_of_not hv, hb, Outcome.bind, (valueIsNull_iff w).mpr hw]
    rfl
  · intro ha
    rw [evalNode]
    exact Outcome.bind_fails ha
  · intro v ha hv hb
    rw [evalNode_and libc a b ha, valueIsNull_of_not hv]
    exact Outcome.bind_fails hb

/-- **Main result.** Arguments within the limit are parsed as the grammar has it, and the
logical operators take a null or zero value on either side for false. -/
theorem parse_and_meaning (libc : Libc) {args : List Bytes} (h : WithinLimit args) : Parsed args (parseArgs args) ∧
      ∀ a b, OrMeaning (fun w => w.IsNull ∨ w.IsZero) libc a b ∧ AndMeaning libc a b :=
  ⟨parseArgs_parsed h, fun a b => ⟨orMeaning libc a b, andMeaning libc a b⟩⟩

def plainLibc : Libc where
  strcoll a b := memcmp (a.map UInt8.toNat) (b.map UInt8.toNat)
  regcomp pattern := .ok ⟨0, fun input =>
    .ok (if pattern.tail.isPrefixOf input then some [(0, (pattern.length - 1 : Nat))] else none)⟩
  State := Unit
  initial := ()
  mbrtowc _ _ := (some 1, ())

theorem parse_and_meaning_or : Parsed [ascii "0", ascii "|", ascii "1"] (parseArgs [ascii "0", ascii "|", ascii "1"]) ∧
      ∀ a b, OrMeaning (fun w => w.IsNull ∨ w.IsZero) plainLibc a b ∧ AndMeaning plainLibc a b :=
  parse_and_meaning plainLibc (withinLimit_of_length (by decide))

/-- Zeros on the right of `|` are not kept as they are spelled. -/
theorem not_orMeaning_null :
    parseArgs [[], ascii "|", ascii "000"] = .ok (.binary .or (.literal []) (.literal (ascii "000"))) ∧
      ¬OrMeaning Value.IsNull plainLibc (.literal []) (.literal (ascii "000")) := by
  refine ⟨rfl, ?_⟩
  intro h
  have hset : ¬(Value.string (ascii "000")).IsNull := (nomatch ·)
  have hright := h.right _ _ rfl (.inl rfl) rfl hset
  exact absurd hright (by decide)

end Bx.Expr
