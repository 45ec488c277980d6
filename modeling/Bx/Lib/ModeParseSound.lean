import Bx.Kit.Masks
import Bx.Lib.ModeParse

/-!
# Symbolic modes clause by clause

The parser masks the mode at the ends only. What a clause does to the bits of the result depends on the permission bits
of the mode so far; these are in the mask, so a list of clauses may be cut at any comma.
-/

namespace Bx.ModeParse

open Kit List

section
variable (params : Params)

/-! ## A clause in a text -/

def EndsClause (tail : Bytes) : Prop := tail = [] ∨ ∃ more, tail = comma :: more

variable {tail : Bytes} {text : Bytes} {clause : Bytes}

theorem scanWho_append (htail : EndsClause tail) (who : Who) (specified : Bool) (clause : Bytes) :
    scanWho who specified (clause ++ tail) =
      ((scanWho who specified clause).1, (scanWho who specified clause).2.1, (scanWho who specified clause).2.2 ++ tail) := by
  induction clause generalizing who specified with
  | nil =>
    obtain rfl | ⟨more, rfl⟩ := htail
    · rfl
    · rfl
  | cons ch clause ih =>
    rw [cons_append, scanWho, scanWho]
    by_cases hwho : isWho ch = true
    · rw [if_pos hwho, if_pos hwho, ih]
    · rw [if_neg hwho, if_neg hwho, cons_append]

theorem scanWho_suffix (who : Who) (specified : Bool) (clause : Bytes) : (scanWho who specified clause).2.2 <:+ clause := by
  induction clause generalizing who specified with
  | nil => exact suffix_refl _
  | cons ch clause ih =>
    rw [scanWho]
    by_cases hwho : isWho ch = true
    · rw [if_pos hwho]
      exact (ih _ _).trans (suffix_cons _ _)
    · rw [if_neg hwho]

section
variable (htail : EndsClause tail)
include htail

theorem scanTokens_append (who : Who) (mode : Mode) (bits : ClauseBits) {tokens : Bytes} (hcomma : comma ∉ tokens) :
    scanTokens params who mode bits (tokens ++ tail) = (scanTokens params who mode bits tokens).map fun r => (r.1, tail) := by
  induction tokens generalizing bits with
  | nil =>
    obtain rfl | ⟨more, rfl⟩ := htail
    · rfl
    · rfl
  | cons ch tokens ih =>
    have hne : ch ≠ comma := fun h => hcomma (h ▸ mem_cons_self)
    rw [cons_append, scanTokens, scanTokens, if_neg hne, if_neg hne]
    cases tokenBits params who mode ch with
    | none => rfl
    | some added => exact ih _ fun h => hcomma (mem_cons_of_mem _ h)

theorem refusedAfterOp_append (op : UInt8) (tokens : Bytes) :
    refusedAfterOp op (tokens ++ tail).head? = refusedAfterOp op tokens.head? := by
  cases tokens with
  | nil =>
    obtain rfl | ⟨more, rfl⟩ := htail
    · rfl
    · simp [refusedAfterOp, comma, plus, hyphen, equals]
  | cons ch tokens => rfl

theorem parseOperation_append (mode : Mode) (who : Who) (specified : Bool) (hcomma : comma ∉ text) :
    parseOperation params mode who specified (text ++ tail) =
      (parseOperation params mode who specified text).map fun r => (r.1, tail) := by
  cases text with
  | nil =>
    obtain rfl | ⟨more, rfl⟩ := htail
    · rfl
    · rfl
  | cons op tokens =>
    have htokens : comma ∉ tokens := fun h => hcomma (mem_cons_of_mem _ h)
    rw [cons_append, parseOperation, parseOperation, refusedAfterOp_append htail]
    by_cases hop : op ≠ plus ∧ op ≠ hyphen ∧ op ≠ equals
    · rw [if_pos hop, if_pos hop]
      rfl
    · rw [if_neg hop, if_neg hop]
      by_cases hnext : refusedAfterOp op tokens.head? = true
      · rw [if_pos hnext, if_pos hnext]
        rfl
      · rw [if_neg hnext, if_neg hnext, scanTokens_append params htail who mode _ htokens]
        cases scanTokens params who mode ⟨0, 0, false⟩ tokens with
        | none => rfl
        | some scanned =>
          dsimp only [Option.map_some, Option.bind_some]
          by_cases hsaw : (!scanned.1.sawToken && op ≠ equals) = true
          · rw [if_pos hsaw, if_pos hsaw]
            rfl
          · rw [if_neg hsaw, if_neg hsaw]
            rfl

theorem parseClause_append (mode : Mode) (hcomma : comma ∉ clause) :
    parseClause params mode (clause ++ tail) = (parseClause params mode clause).map fun r => (r.1, tail) := by
  unfold parseClause
  rw [scanWho_append htail]
  exact parseOperation_append params htail mode _ _ fun h => hcomma ((scanWho_suffix _ _ clause).subset h)

end

variable (mode : Mode)

def clauseMode (clause : Bytes) : Option Mode := (parseClause params mode clause).map Prod.fst

/-! ## The clauses of a text -/

def applyClauses (list : List Bytes) : Option Mode := list.foldlM (clauseMode params) mode

theorem applyClauses_cons (clause : Bytes) (list : List Bytes) :
    applyClauses params mode (clause :: list) = (clauseMode params mode clause).bind fun m => applyClauses params m list :=
  rfl

theorem applyClauses_append (first second : List Bytes) : applyClauses params mode (first ++ second) =
      (applyClauses params mode first).bind fun m => applyClauses params m second := by
  unfold applyClauses
  rw [foldlM_append]
  rfl

theorem clauses_singleton (h : comma ∉ clause) : clauses clause = [clause] := by
  apply splitOnP_eq_singleton
  intro ch hch
  exact decide_eq_false fun heq => h (heq ▸ hch)

theorem clauses_cons (h : comma ∉ clause) (text : Bytes) :
    clauses (clause ++ comma :: text) = clause :: clauses text := by
  apply splitOnP_append_cons_of_forall_mem
  · intro ch hch
    exact decide_eq_false fun heq => h (heq ▸ hch)
  · rfl

theorem clauses_append (first second : Bytes) : clauses (first ++ comma :: second) = clauses first ++ clauses second :=
  splitOnP_append_cons first second rfl

theorem applyClauses_refused (h : text.head? = none ∨ text.head? = some comma) (mode : Mode) :
    applyClauses params mode (clauses text) = none := by
  cases text with
  | nil => rfl
  | cons ch text =>
    obtain h | h := h
    · cases h
    · obtain rfl : ch = comma := Option.some.inj h
      rw [← nil_append (comma :: text), clauses_cons not_mem_nil]
      rfl

theorem parseRound_append (hcomma : comma ∉ clause) (htail : EndsClause tail) (hne : clause ++ tail ≠ [])
    (mode : Mode) :
    parseRound params (mode, clause ++ tail) =
      match clauseMode params mode clause with
      | none => .inr none
      | some parsed => afterClause (parsed, tail) := by
  rw [parseRound, if_neg hne, parseClause_append params htail mode hcomma]
  unfold clauseMode
  cases parseClause params mode clause with
  | none => rfl
  | some parsed => rfl

theorem parseLoop_eq {fuel : Nat} (hfuel : text.length < fuel) (hne : text ≠ []) (mode : Mode) :
    (loop (parseRound params) fuel (mode, text)).join =
      (applyClauses params mode (clauses text)).map (· &&& params.resultMask) := by
  induction fuel generalizing text mode with
  | zero => exact absurd hfuel (Nat.not_lt_zero _)
  | succ fuel ih =>
    by_cases hmem : comma ∈ text
    · obtain ⟨clause, more, rfl, hclause⟩ := eq_append_cons_of_mem hmem
      have hround := parseRound_append params hclause (.inr ⟨more, rfl⟩) hne mode
      rw [clauses_cons hclause, applyClauses_cons]
      cases hparsed : clauseMode params mode clause with
      | none =>
        rw [hparsed] at hround
        rw [loop_leave hround]
        rfl
      | some parsed =>
        rw [hparsed] at hround
        dsimp only [afterClause] at hround
        by_cases hnext : more.head? = none ∨ more.head? = some comma
        · rw [if_pos hnext] at hround
          rw [loop_leave hround, Option.bind_some, applyClauses_refused params hnext]
          rfl
        · rw [if_neg hnext] at hround
          have hmore : more ≠ [] := fun hnil => hnext (.inl (by rw [hnil]; rfl))
          have hlen : more.length < fuel := by
            rw [length_append, length_cons] at hfuel
            omega
          rw [loop_go hround, ih hlen hmore parsed, Option.bind_some]
    · have hround := parseRound_append params hmem (.inl rfl) (by rwa [append_nil]) mode
      rw [append_nil] at hround
      rw [clauses_singleton hmem, applyClauses_cons]
      cases hparsed : clauseMode params mode text with
      | none =>
        rw [hparsed] at hround
        rw [loop_leave hround]
        rfl
      | some parsed =>
        rw [hparsed] at hround
        have hend : parseRound params (parsed, []) = .inr (some (parsed &&& params.resultMask)) := rfl
        obtain ⟨fuel, rfl⟩ : ∃ n, fuel = n + 1 := ⟨fuel - 1, by
          have hpos := length_pos_iff.mpr hne
          omega⟩
        rw [loop_go hround, loop_leave hend]
        rfl

theorem parseSymbolic_eq (text : Bytes) : parseSymbolic params mode text =
      (applyClauses params (mode &&& params.resultMask) (clauses text)).map (· &&& params.resultMask) := by
  unfold parseSymbolic
  by_cases hnil : text = []
  · rw [if_pos hnil, hnil]
    rfl
  · rw [if_neg hnil]
    exact parseLoop_eq params (Nat.lt_succ_self _) hnil _

/-! ## Bits outside the mask -/

variable {params} {mask m m' : Mode}

section
variable (hmask : mask &&& rwxAll = rwxAll) (h : m &&& mask = m' &&& mask) (who : Who)
include hmask h who

theorem tokenBits_congr (ch : UInt8) : tokenBits params who m ch = tokenBits params who m' ch := by
  have hrwx := and_part h hmask
  have hu : m &&& irwxu = m' &&& irwxu := and_part hrwx (by decide)
  have hg : m &&& irwxg = m' &&& irwxg := and_part hrwx (by decide)
  have ho : m &&& irwxo = m' &&& irwxo := and_part hrwx (by decide)
  have hx : m &&& anyExec = m' &&& anyExec := and_part hrwx (by decide)
  unfold tokenBits copyPermBits shouldApplyX
  rw [hu, hg, ho, hx]

theorem scanTokens_congr (bits : ClauseBits)
    (text : Bytes) : scanTokens params who m bits text = scanTokens params who m' bits text := by
  induction text generalizing bits with
  | nil => rfl
  | cons ch text ih =>
    rw [scanTokens, scanTokens, tokenBits_congr hmask h]
    by_cases hcomma : ch = comma
    · rw [if_pos hcomma, if_pos hcomma]
    · rw [if_neg hcomma, if_neg hcomma]
      cases tokenBits params who m' ch with
      | none => rfl
      | some added => exact ih _

end

theorem applyClause_eq (params : Params) (who : Who) (specified : Bool) (op : UInt8) (bits : ClauseBits) :
    ∃ clear set, (∀ m, applyClause params who specified op bits m = m &&& ~~~clear ||| set) ∧
      ∀ part, specified = true → rwxMaskFromWho who &&& part = 0#32 → specialMaskFromWho params who &&& part = 0#32 →
        bits.special &&& part = 0#32 → clear &&& part = 0#32 ∧ set &&& part = 0#32 := by
  have happlied : ∀ part, specified = true → rwxMaskFromWho who &&& part = 0#32 → bits.special &&& part = 0#32 →
      (bits.rwx &&& affectedRwxMask params who specified ||| bits.special) &&& part = 0#32 := by
    intro part hspecified hrwx hspecial
    have haffected : affectedRwxMask params who specified = rwxMaskFromWho who := by
      rw [hspecified]
      rfl
    rw [haffected, BitVec.and_comm bits.rwx]
    exact or_and_eq_zero (and_and_eq_zero hrwx bits.rwx) hspecial
  by_cases hplus : op = plus
  · refine ⟨0#32, bits.rwx &&& affectedRwxMask params who specified ||| bits.special, ?_, ?_⟩
    · intro m
      simp only [applyClause]
      rw [if_pos hplus, BitVec.not_zero, BitVec.and_allOnes, BitVec.or_assoc]
    · intro part hspecified hrwx _ hspecial
      exact ⟨BitVec.zero_and, happlied part hspecified hrwx hspecial⟩
  · by_cases hhyphen : op = hyphen
    · refine ⟨bits.rwx &&& affectedRwxMask params who specified ||| bits.special, 0#32, ?_, ?_⟩
      · intro m
        simp only [applyClause]
        rw [if_neg hplus, if_pos hhyphen, BitVec.or_zero, BitVec.not_or, BitVec.and_assoc]
      · intro part hspecified hrwx _ hspecial
        exact ⟨happlied part hspecified hrwx hspecial, BitVec.zero_and⟩
    · refine ⟨(if op = equals && !specified then irwxu ||| irwxg ||| irwxo else affectedRwxMask params who specified) |||
        (if specified then specialMaskFromWho params who else fullSpecialMask params),
        bits.rwx &&& affectedRwxMask params who specified ||| bits.special, ?_, ?_⟩
      · intro m
        simp only [applyClause]
        rw [if_neg hplus, if_neg hhyphen, BitVec.or_assoc, BitVec.and_assoc, ← BitVec.not_or]
      · intro part hspecified hrwx hmask hspecial
        refine ⟨?_, happlied part hspecified hrwx hspecial⟩
        rw [hspecified]
        simp only [Bool.not_true, Bool.and_false, Bool.false_eq_true, if_false, if_true]
        exact or_and_eq_zero hrwx hmask

theorem applyClause_congr (h : m &&& mask = m' &&& mask) (who : Who) (specified : Bool) (op : UInt8) (bits : ClauseBits) :
    applyClause params who specified op bits m &&& mask = applyClause params who specified op bits m' &&& mask := by
  obtain ⟨clear, set, heq, _⟩ := applyClause_eq params who specified op bits
  rw [heq, heq]
  exact update_congr h clear set

section
variable (hmask : mask &&& rwxAll = rwxAll) (h : m &&& mask = m' &&& mask)
include hmask h

theorem parseOperation_congr (who : Who) (specified : Bool) (text : Bytes) :
    (parseOperation params m who specified text).map (fun r => r.1 &&& mask) =
      (parseOperation params m' who specified text).map fun r => r.1 &&& mask := by
  cases text with
  | nil => rfl
  | cons op text =>
    rw [parseOperation, parseOperation, scanTokens_congr hmask h]
    by_cases hop : op ≠ plus ∧ op ≠ hyphen ∧ op ≠ equals
    · rw [if_pos hop, if_pos hop]
    · rw [if_neg hop, if_neg hop]
      by_cases hnext : refusedAfterOp op text.head? = true
      · rw [if_pos hnext, if_pos hnext]
      · rw [if_neg hnext, if_neg hnext]
        cases scanTokens params who m' ⟨0, 0, false⟩ text with
        | none => rfl
        | some scanned =>
          dsimp only [Option.bind_some]
          by_cases hsaw : (!scanned.1.sawToken && op ≠ equals) = true
          · rw [if_pos hsaw, if_pos hsaw]
          · rw [if_neg hsaw, if_neg hsaw]
            exact congrArg some (applyClause_congr h who specified op scanned.1)

theorem clauseMode_congr (clause : Bytes) :
    (clauseMode params m clause).map (· &&& mask) = (clauseMode params m' clause).map (· &&& mask) := by
  unfold clauseMode
  rw [Option.map_map, Option.map_map]
  exact parseOperation_congr hmask h _ _ _

theorem applyClauses_congr (list : List Bytes) :
    (applyClauses params m list).map (· &&& mask) = (applyClauses params m' list).map (· &&& mask) := by
  induction list generalizing m m' with
  | nil => exact congrArg some h
  | cons clause list ih =>
    have hclause : (clauseMode params m clause).map (· &&& mask) = (clauseMode params m' clause).map (· &&& mask) :=
      clauseMode_congr hmask h clause
    rw [applyClauses_cons, applyClauses_cons]
    cases hm : clauseMode params m clause with
    | none =>
      rw [hm] at hclause
      cases hm' : clauseMode params m' clause with
      | none => rfl
      | some x' => simp [hm'] at hclause
    | some x =>
      rw [hm] at hclause
      cases hm' : clauseMode params m' clause with
      | none => simp [hm'] at hclause
      | some x' =>
        rw [hm'] at hclause
        exact ih (Option.some.inj hclause)

end

theorem parseSymbolic_append (hmask : params.resultMask &&& rwxAll = rwxAll) (first second : Bytes) (mode : Mode) :
    parseSymbolic params mode (first ++ comma :: second) =
      (parseSymbolic params mode first).bind fun middle => parseSymbolic params middle second := by
  rw [parseSymbolic_eq, parseSymbolic_eq, clauses_append, applyClauses_append]
  cases applyClauses params (mode &&& params.resultMask) (clauses first) with
  | none => rfl
  | some middle =>
    rw [Option.bind_some, Option.map_some, Option.bind_some, parseSymbolic_eq]
    apply applyClauses_congr hmask
    rw [mask_twice, mask_twice]

/-! ## Classes that are not named -/

def Who.has (who : Who) : PermClass → Bool
  | .user => who.u
  | .group => who.g
  | .other => who.o

variable {ch : UInt8}

theorem has_add {who : Who} {c : PermClass} (hwho : isWho ch = true) (hletter : ch ≠ c.letter) (hall : ch ≠ chA) :
    (who.add ch).has c = who.has c := by
  unfold Who.add
  by_cases hu : ch = chU
  · rw [if_pos hu]
    cases c with
    | user => exact absurd hu hletter
    | group => rfl
    | other => rfl
  · rw [if_neg hu]
    by_cases hg : ch = chG
    · rw [if_pos hg]
      cases c with
      | user => rfl
      | group => exact absurd hg hletter
      | other => rfl
    · rw [if_neg hg]
      by_cases ho : ch = chO
      · rw [if_pos ho]
        cases c with
        | user => rfl
        | group => rfl
        | other => exact absurd ho hletter
      · simp [isWho, hu, hg, ho, hall] at hwho

theorem scanWho_has {c : PermClass} (who : Who) (specified : Bool) (hnames : ¬Names clause c) :
    (scanWho who specified clause).1.has c = who.has c := by
  induction clause generalizing who specified with
  | nil => rfl
  | cons ch clause ih =>
    rw [scanWho]
    by_cases hwho : isWho ch = true
    · have hlist : whoList (ch :: clause) = ch :: whoList clause := takeWhile_cons_of_pos hwho
      unfold Names at hnames
      rw [hlist, mem_cons, mem_cons] at hnames
      rw [if_pos hwho, ih]
      · apply has_add hwho
        · intro heq
          exact hnames (.inl (.inl heq.symm))
        · intro heq
          exact hnames (.inr (.inl heq.symm))
      · intro hmem
        cases hmem with
        | inl hmem => exact hnames (.inl (.inr hmem))
        | inr hmem => exact hnames (.inr (.inr hmem))
    · rw [if_neg hwho]

theorem scanWho_specified (who : Who) (h : whoList clause ≠ []) : (scanWho who false clause).2.1 = true := by
  have hkeep : ∀ (text : Bytes) (who : Who), (scanWho who true text).2.1 = true := by
    intro text
    induction text with
    | nil => exact fun _ => rfl
    | cons ch text ih =>
      intro who
      rw [scanWho]
      by_cases hwho : isWho ch = true
      · rw [if_pos hwho]
        exact ih _
      · rw [if_neg hwho]
  cases clause with
  | nil => exact absurd rfl h
  | cons ch clause =>
    rw [scanWho]
    by_cases hwho : isWho ch = true
    · rw [if_pos hwho]
      exact hkeep clause _
    · exact absurd (takeWhile_cons_of_neg hwho) h

/-- The sticky bit of the callers: `S_ISVTX` or none -/
def StickyOk (params : Params) : Prop := params.stickyBit = 0 ∨ params.stickyBit = isvtx

section
variable {who : Who} {c : PermClass} (hwho : who.has c = false)
include hwho

theorem rwxMask_and_bits : rwxMaskFromWho who &&& c.bits = 0#32 := by
  obtain ⟨u, g, o⟩ := who
  revert hwho
  cases c <;> revert u g o <;> decide

theorem setuid_and_bits (allowed : Bool) : bitsIf (allowed && who.u) isuid &&& c.bits = 0#32 := by
  obtain ⟨u, g, o⟩ := who
  revert hwho
  cases c <;> revert u g o allowed <;> decide

theorem setgid_and_bits (allowed : Bool) : bitsIf (allowed && who.g) isgid &&& c.bits = 0#32 := by
  obtain ⟨u, g, o⟩ := who
  revert hwho
  cases c <;> revert u g o allowed <;> decide

section
variable (hsticky : StickyOk params)
include hsticky

theorem sticky_and_bits (allowed : Bool) : bitsIf (allowed && who.o) params.stickyBit &&& c.bits = 0#32 := by
  obtain ⟨u, g, o⟩ := who
  revert hwho
  obtain hzero | hvtx := hsticky
  · rw [hzero]
    cases c <;> revert u g o allowed <;> decide
  · rw [hvtx]
    cases c <;> revert u g o allowed <;> decide

theorem specialMask_and_bits : specialMaskFromWho params who &&& c.bits = 0#32 :=
  or_and_eq_zero (or_and_eq_zero (setuid_and_bits hwho _) (setgid_and_bits hwho _)) (sticky_and_bits hwho hsticky _)

theorem tokenBits_special {added : Mode × Mode}
    (h : tokenBits params who m ch = some added) : added.2 &&& c.bits = 0#32 := by
  unfold tokenBits at h
  split at h
  · cases h
    exact BitVec.zero_and
  · split at h
    · split at h
      · cases h
      · cases h
        exact BitVec.zero_and
    · split at h
      · split at h
        · cases h
        · cases h
          exact or_and_eq_zero (setuid_and_bits hwho _) (setgid_and_bits hwho _)
      · split at h
        · split at h
          · cases h
          · cases h
            exact sticky_and_bits hwho hsticky true
        · split at h
          · cases h
            exact BitVec.zero_and
          · cases h

theorem scanTokens_special {bits : ClauseBits} {scanned : ClauseBits × Bytes}
    (hbits : bits.special &&& c.bits = 0#32) (h : scanTokens params who m bits text = some scanned) :
    scanned.1.special &&& c.bits = 0#32 := by
  induction text generalizing bits with
  | nil =>
    cases h
    exact hbits
  | cons ch text ih =>
    rw [scanTokens] at h
    by_cases hcomma : ch = comma
    · rw [if_pos hcomma] at h
      cases h
      exact hbits
    · rw [if_neg hcomma] at h
      cases htoken : tokenBits params who m ch with
      | none => simp [htoken] at h
      | some added =>
        rw [htoken] at h
        exact ih (or_and_eq_zero hbits (tokenBits_special hwho hsticky htoken)) h

end

end

theorem parseOperation_inv {who : Who} {specified : Bool} {parsed : Mode × Bytes}
    (h : parseOperation params m who specified text = some parsed) :
    ∃ op tokens scanned, text = op :: tokens ∧ scanTokens params who m ⟨0, 0, false⟩ tokens = some scanned ∧
      parsed = (applyClause params who specified op scanned.1 m, scanned.2) := by
  cases text with
  | nil => cases h
  | cons op tokens =>
    rw [parseOperation] at h
    split at h
    · cases h
    · split at h
      · cases h
      · obtain ⟨scanned, hscanned, h⟩ := Option.bind_eq_some_iff.mp h
        split at h
        · cases h
        · exact ⟨op, tokens, scanned, rfl, hscanned, (Option.some.inj h).symm⟩

theorem clauseMode_keeps (hsticky : StickyOk params) {c : PermClass} (hlist : whoList clause ≠ [])
    (hnames : ¬Names clause c) (h : clauseMode params m clause = some m') : m' &&& c.bits = m &&& c.bits := by
  unfold clauseMode parseClause at h
  obtain ⟨parsed, hparsed, rfl⟩ := Option.map_eq_some_iff.mp h
  have hspecified := scanWho_specified Who.none hlist
  have hhas : (scanWho Who.none false clause).1.has c = false := by
    rw [scanWho_has Who.none false hnames]
    cases c <;> rfl
  dsimp only at hparsed
  rw [hspecified, if_pos rfl] at hparsed
  obtain ⟨op, tokens, scanned, _, hscanned, rfl⟩ := parseOperation_inv hparsed
  obtain ⟨clear, set, heq, hbits⟩ := applyClause_eq params (scanWho Who.none false clause).1 true op scanned.1
  obtain ⟨hclear, hset⟩ := hbits c.bits rfl (rwxMask_and_bits hhas) (specialMask_and_bits hhas hsticky)
    (scanTokens_special hhas hsticky BitVec.zero_and hscanned)
  rw [heq]
  exact update_keeps hclear hset m

theorem applyClauses_keeps (hsticky : StickyOk params) {c : PermClass} {list : List Bytes}
    (hlist : ∀ clause ∈ list, whoList clause ≠ []) (hnames : ∀ clause ∈ list, ¬Names clause c)
    (h : applyClauses params m list = some m') : m' &&& c.bits = m &&& c.bits := by
  induction list generalizing m with
  | nil =>
    cases h
    rfl
  | cons clause list ih =>
    obtain ⟨middle, hmiddle, hrest⟩ := Option.bind_eq_some_iff.mp h
    rw [ih (fun d hd => hlist d (mem_cons_of_mem _ hd)) (fun d hd => hnames d (mem_cons_of_mem _ hd)) hrest]
    exact clauseMode_keeps hsticky (hlist clause mem_cons_self) (hnames clause mem_cons_self) hmiddle

theorem parseSymbolic_keeps (hsticky : StickyOk params) {c : PermClass} {mode result : Mode}
    (hlist : ∀ clause ∈ clauses text, whoList clause ≠ []) (hnames : ∀ clause ∈ clauses text, ¬Names clause c)
    (h : parseSymbolic params mode text = some result) :
    result &&& c.bits = mode &&& params.resultMask &&& c.bits := by
  rw [parseSymbolic_eq] at h
  obtain ⟨final, hfinal, rfl⟩ := Option.map_eq_some_iff.mp h
  rw [mask_right_comm, applyClauses_keeps hsticky hlist hnames hfinal, mask_right_comm, mask_twice]

end

/-- **Main result.** With all permission bits in the mask, clauses may be parsed in two parts at any
comma; and the bits of a class that no clause names stay as they are in the mask. -/
theorem parseSymbolic_clauses (params : Params) : (params.resultMask &&& rwxAll = rwxAll → ∀ first second mode,
      parseSymbolic params mode (first ++ comma :: second) =
        (parseSymbolic params mode first).bind fun middle => parseSymbolic params middle second) ∧
    (StickyOk params → ∀ text mode result, parseSymbolic params mode text = some result →
      (∀ clause ∈ clauses text, whoList clause ≠ []) → ∀ c, (∀ clause ∈ clauses text, ¬Names clause c) →
        result &&& c.bits = mode &&& params.resultMask &&& c.bits) :=
  ⟨fun hmask first second mode => parseSymbolic_append hmask first second mode,
    fun hsticky _ _ _ h hlist _ hnames => parseSymbolic_keeps hsticky hlist hnames h⟩

/-- `u+x,g=u` for `chmod`, from 0640 -/
theorem parseSymbolic_clauses_small :
    let params : Params := ⟨0o7777, 0o022, isvtx, .ifDirectoryOrAnyExec, false, true, true, true, true⟩
    parseSymbolic params 0o640 (ascii "u+x,g=u") =
        (parseSymbolic params 0o640 (ascii "u+x")).bind (fun middle => parseSymbolic params middle (ascii "g=u")) ∧
      (0o770 : Mode) &&& PermClass.other.bits = 0o640 &&& params.resultMask &&& PermClass.other.bits := by
  intro params
  obtain ⟨happend, hkeeps⟩ := parseSymbolic_clauses params
  refine ⟨happend (by decide) (ascii "u+x") (ascii "g=u") 0o640, ?_⟩
  exact hkeeps (.inr rfl) (ascii "u+x,g=u") 0o640 0o770 (by decide) (by decide) .other (by decide)

end Bx.ModeParse
