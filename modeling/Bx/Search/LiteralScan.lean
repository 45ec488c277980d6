import Bx.Kit.Lanes
import Bx.Search.LiteralSound

/-!
# Scanning for the absence of a literal

The scans of `src/search/literal.c` that answer whether a buffer has the needle, on all backends: the vector units look
at many places at a time, and one by one where fewer are left.
-/

namespace Bx.Literal

open Bx.Kit List

/-! ## The plan -/

abbrev SveBytes := { n : Nat // 16 ≤ n ∧ n ≤ 256 }

inductive Backend
  | scalar
  | sse2
  | avx2
  | neon
  | sve (vectorBytes : SveBytes)

/-- The fields of `struct bx_lit_plan` that the finders do not use, too -/
structure ScanPlan extends LitPlan where
  minOverlapLen : Nat
  lastByte : UInt8
  backend : Backend

def scanPlanCompile (needle : List UInt8) (backend : Backend) : ScanPlan :=
  { planCompile needle with
    minOverlapLen := if needle.length > 0 then needle.length - 1 else 0
    lastByte := needle.getD (needle.length - 1) 0
    backend }

/-- Which function `scan_absent` is -/
inductive ScanOps
  | empty
  | byte
  | pair
  | short
  | rarePairScalar
  | longScalar
  | sse2
  | avx2
  | neon
  | sve (vectorBytes : SveBytes)

def rarePairOps : Backend → ScanOps
  | .scalar => .rarePairScalar
  | .sse2 => .sse2
  | .avx2 => .avx2
  | .neon => .neon
  | .sve vectorBytes => .sve vectorBytes

def selectOps (plan : ScanPlan) : ScanOps :=
  match plan.algo with
  | .empty => .empty
  | .byte => .byte
  | .pair => .pair
  | .shortRarePair => if plan.needleLen = 3 then .short else rarePairOps plan.backend
  | .mediumRarePair => rarePairOps plan.backend
  | .longTwoWay => .longScalar

/-! ## The scans -/

section
variable (plan : ScanPlan) (buf : List UInt8)

def scanAbsentByte : Option (Option Nat) :=
  if plan.needleLen ≠ 1 || buf.length = 0 then some none else some (memchr buf plan.firstByte 0 buf.length)

def scanAbsentPair : Option (Option Nat) :=
  if plan.needleLen ≠ 2 || buf.length < 2 then some none
  else scan buf plan.rarePairFirst (buf.length - 1) (fun found => buf[found + 1]? = some plan.rarePairSecond) 0

def scanAbsentShort : Option (Option Nat) :=
  if plan.needleLen ≠ 3 || buf.length < 3 then some none
  else
    scan buf plan.firstByte (buf.length - 2)
      (fun found => buf[found + 1]? = plan.needle[1]? && buf[found + 2]? = some plan.lastByte) 0

def pairLimit : Nat := buf.length - (plan.needleLen - plan.rarePairOffset)

variable (place : Nat)

/-- `memcmp` of the needle with the buffer around the pair at a place -/
def pairConfirmed : Bool := memEqual buf (place - plan.rarePairOffset) plan.needle 0 plan.needleLen

/-- `bx_literal_scan_absent_pair_probe_core` -/
def scanAbsentPairProbe : Option (Option Nat) :=
  if plan.needleLen < 4 || buf.length < plan.needleLen then some none
  else
    (scan buf plan.rarePairFirst (pairLimit plan buf + 1)
      (fun found => buf[found + 1]? = some plan.rarePairSecond && pairConfirmed plan buf found)
      plan.rarePairOffset).map fun found => found.map (· - plan.rarePairOffset)

def scanAbsentRarePairScalar : Option (Option Nat) :=
  if plan.needleLen < 4 || plan.needleLen > 256 || buf.length < plan.needleLen then some none
  else scanAbsentPairProbe plan buf

def scanAbsentLongScalar : Option (Option Nat) :=
  if plan.needleLen ≤ 256 || buf.length < plan.needleLen then some none else scanAbsentPairProbe plan buf

def pairHit : Bool :=
  buf[place]? = some plan.rarePairFirst && buf[place + 1]? = some plan.rarePairSecond && pairConfirmed plan buf place

/-- The vector scans for the pair, which differ in how many lanes they take from a place on -/
def scanAbsentPairLanes (lanes : Nat → Nat) : Option (Option Nat) :=
  if plan.needleLen < 4 || plan.needleLen > 256 || buf.length < plan.needleLen then some none
  else
    (laneScan lanes (pairHit plan buf) (pairLimit plan buf + 1) plan.rarePairOffset).map fun found =>
      found.map (· - plan.rarePairOffset)

def avx2Lanes : Nat := if place + 31 ≤ pairLimit plan buf && place + 32 < buf.length then 32 else 1

def neonLanes : Nat := if place + 15 ≤ pairLimit plan buf && place + 16 < buf.length then 16 else 1

def sveLanes (vectorBytes : SveBytes) (place : Nat) : Nat := min (pairLimit plan buf - place + 1) vectorBytes

def scanAbsentAvx2 : Option (Option Nat) := scanAbsentPairLanes plan buf (avx2Lanes plan buf)

def scanAbsentNeon : Option (Option Nat) := scanAbsentPairLanes plan buf (neonLanes plan buf)

def scanAbsentSve (vectorBytes : SveBytes) : Option (Option Nat) :=
  scanAbsentPairLanes plan buf (sveLanes plan buf vectorBytes)

def firstLastHit : Bool :=
  buf[place]? = some plan.firstByte && buf[place + plan.needleLen - 1]? = some plan.lastByte &&
    memEqual buf (place + 1) plan.needle 1 (plan.needleLen - 2)

def sse2Lanes : Nat := if place + 16 ≤ buf.length - plan.needleLen + 1 then 16 else 1

def scanAbsentSse2 : Option (Option Nat) :=
  if plan.needleLen < 4 || plan.needleLen > 256 || buf.length < plan.needleLen then some none
  else laneScan (sse2Lanes plan buf) (firstLastHit plan buf) (buf.length - plan.needleLen + 1) 0

/-- `bx_literal_scan_absent`: where the needle is found -/
def scanAbsent : Option (Option Nat) :=
  match selectOps plan with
  | .empty => some (some 0)
  | .byte => scanAbsentByte plan buf
  | .pair => scanAbsentPair plan buf
  | .short => scanAbsentShort plan buf
  | .rarePairScalar => scanAbsentRarePairScalar plan buf
  | .longScalar => scanAbsentLongScalar plan buf
  | .sse2 => scanAbsentSse2 plan buf
  | .avx2 => scanAbsentAvx2 plan buf
  | .neon => scanAbsentNeon plan buf
  | .sve vectorBytes => scanAbsentSve plan buf vectorBytes

end

def FindsNeedle (needle buf : List UInt8) (r : Option (Option Nat)) : Prop :=
  ∃ found, r = some found ∧ FirstOf {p | OccursAt needle buf p} found

section
variable {needle buf : List UInt8} {backend : Backend}

theorem FindsNeedle.none_of_short (h : needle ≠ []) (hshort : buf.length < needle.length) :
    FindsNeedle needle buf (some none) := by
  refine ⟨none, rfl, ?_⟩
  apply Set.eq_empty_of_forall_notMem
  intro p hp
  have hle := OccursAt.le_length h hp
  omega

variable {r : Option (Option Nat)}

theorem findsNeedle_of_firstOf {P : Nat → Prop} {offset : Nat}
    (hr : ∃ found, r = some found ∧ FirstOf {i | offset ≤ i ∧ P i} found)
    (hP : ∀ p, P (p + offset) ↔ OccursAt needle buf p) : FindsNeedle needle buf (r.map fun found => found.map (· - offset)) := by
  obtain ⟨found, rfl, hfirst⟩ := hr
  refine ⟨found.map (· - offset), rfl, ?_⟩
  have hzero : FirstOf {i | 0 + offset ≤ i ∧ P i} found := by rwa [zero_add]
  refine hzero.shift.congr ?_
  intro p
  refine ⟨?_, ?_⟩
  · intro hp
    exact ⟨Nat.zero_le p, (hP p).mpr hp⟩
  · intro hp
    exact (hP p).mp hp.2

/-! ## Up to three bytes -/

theorem scanAbsentByte_finds (a : UInt8) : FindsNeedle [a] buf (scanAbsentByte (scanPlanCompile [a] backend) buf) := by
  by_cases hempty : buf.length = 0
  · have hskip : scanAbsentByte (scanPlanCompile [a] backend) buf = some none := if_pos (by simp [hempty])
    rw [hskip]
    apply FindsNeedle.none_of_short (cons_ne_nil a [])
    rw [length_singleton]
    omega
  · have hscan : scanAbsentByte (scanPlanCompile [a] backend) buf = some (memchr buf a 0 buf.length) := by
      refine if_neg ?_
      simp [hempty]
      rfl
    rw [hscan]
    refine ⟨_, rfl, (memchr_spec buf a 0 buf.length).congr ?_⟩
    intro p
    show OccursAt [a] buf p ↔ 0 ≤ p ∧ p < 0 + buf.length ∧ buf[p]? = some a
    rw [occursAt_cons]
    refine ⟨?_, ?_⟩
    · intro h
      obtain ⟨hlt, _⟩ := List.getElem?_eq_some_iff.mp h.1
      exact ⟨Nat.zero_le p, by omega, h.1⟩
    · intro h
      exact ⟨h.2.2, occursAt_nil⟩

theorem findsNeedle_scan {byte : UInt8} {stop : Nat} {accept : Nat → Bool}
    (hhit : ∀ p, ScanHit buf byte stop accept p ↔ OccursAt needle buf p) :
    FindsNeedle needle buf (scan buf byte stop accept 0) := by
  obtain ⟨r, hr, hfirst⟩ := @scan_spec _ _ buf byte stop accept 0
  refine ⟨r, hr, hfirst.congr ?_⟩
  intro p
  refine ⟨?_, ?_⟩
  · intro h
    exact ⟨Nat.zero_le p, (hhit p).mpr h⟩
  · intro h
    exact (hhit p).mp h.2

theorem scanAbsentPair_finds (a b : UInt8) :
    FindsNeedle [a, b] buf (scanAbsentPair (scanPlanCompile [a, b] backend) buf) := by
  by_cases hshort : buf.length < 2
  · have hskip : scanAbsentPair (scanPlanCompile [a, b] backend) buf = some none := if_pos (by simp [hshort])
    rw [hskip]
    exact .none_of_short (cons_ne_nil a [b]) hshort
  · have hscan : scanAbsentPair (scanPlanCompile [a, b] backend) buf =
        scan buf a (buf.length - 1) (fun found => buf[found + 1]? = some b) 0 := by
      refine if_neg ?_
      simp [hshort]
      rfl
    rw [hscan]
    apply findsNeedle_scan
    intro p
    rw [occursAt_cons, occursAt_cons]
    refine ⟨?_, ?_⟩
    · intro ⟨_, ha, hb⟩
      exact ⟨ha, of_decide_eq_true hb, occursAt_nil⟩
    · intro ⟨ha, hb, _⟩
      obtain ⟨hlt, _⟩ := List.getElem?_eq_some_iff.mp hb
      exact ⟨by omega, ha, decide_eq_true hb⟩

theorem scanAbsentShort_finds (a b c : UInt8) :
    FindsNeedle [a, b, c] buf (scanAbsentShort (scanPlanCompile [a, b, c] backend) buf) := by
  by_cases hshort : buf.length < 3
  · have hskip : scanAbsentShort (scanPlanCompile [a, b, c] backend) buf = some none := if_pos (by simp [hshort])
    rw [hskip]
    exact .none_of_short (cons_ne_nil a [b, c]) hshort
  · have hscan : scanAbsentShort (scanPlanCompile [a, b, c] backend) buf =
        scan buf a (buf.length - 2) (fun found => buf[found + 1]? = some b && buf[found + 2]? = some c) 0 := by
      refine if_neg ?_
      simp [hshort]
      rfl
    rw [hscan]
    apply findsNeedle_scan
    intro p
    rw [occursAt_cons, occursAt_cons, occursAt_cons]
    refine ⟨?_, ?_⟩
    · intro ⟨_, ha, hbc⟩
      simp only [Bool.and_eq_true, decide_eq_true_eq] at hbc
      exact ⟨ha, hbc.1, hbc.2, occursAt_nil⟩
    · intro ⟨ha, hb, hc, _⟩
      obtain ⟨hlt, _⟩ := List.getElem?_eq_some_iff.mp hc
      refine ⟨by omega, ha, ?_⟩
      simp only [Bool.and_eq_true, decide_eq_true_eq]
      exact ⟨hb, hc⟩

/-! ## The rare pair -/

theorem rarePair_bytes (h : 2 ≤ needle.length) :
    needle[selectRarePairOffset needle]? = some (scanPlanCompile needle backend).rarePairFirst ∧
      needle[selectRarePairOffset needle + 1]? = some (scanPlanCompile needle backend).rarePairSecond := by
  have hlt := selectRarePairOffset_lt h
  have hfirst : (scanPlanCompile needle backend).rarePairFirst = needle.getD (selectRarePairOffset needle) 0 :=
    if_pos (by omega)
  have hsecond : (scanPlanCompile needle backend).rarePairSecond = needle.getD (selectRarePairOffset needle + 1) 0 :=
    if_pos (by omega)
  rw [hfirst, hsecond]
  exact ⟨getD_byte (by omega), getD_byte hlt⟩

theorem pairConfirmed_iff (p : Nat) :
    pairConfirmed (scanPlanCompile needle backend) buf (p + selectRarePairOffset needle) = true ↔ OccursAt needle buf p := by
  show memEqual buf (p + selectRarePairOffset needle - selectRarePairOffset needle) needle 0 needle.length = true ↔ _
  rw [Nat.add_sub_cancel, memEqual_iff]
  simp only [Nat.zero_add]
  rfl

theorem OccursAt.pair (h : 2 ≤ needle.length) {p : Nat} (hocc : OccursAt needle buf p) :
    p + selectRarePairOffset needle < pairLimit (scanPlanCompile needle backend) buf + 1 ∧
      buf[p + selectRarePairOffset needle]? = some (scanPlanCompile needle backend).rarePairFirst ∧
      buf[p + selectRarePairOffset needle + 1]? = some (scanPlanCompile needle backend).rarePairSecond := by
  have hlt := selectRarePairOffset_lt h
  have hle := hocc.le_length (length_pos_iff.mp (by omega))
  obtain ⟨hfirst, hsecond⟩ := @rarePair_bytes needle backend h
  refine ⟨?_, ?_, ?_⟩
  · show _ < buf.length - (needle.length - selectRarePairOffset needle) + 1
    omega
  · rw [hocc _ (by omega), hfirst]
  · rw [add_assoc, hocc _ hlt, hsecond]

theorem scanAbsentPairProbe_finds (h : 4 ≤ needle.length) :
    FindsNeedle needle buf (scanAbsentPairProbe (scanPlanCompile needle backend) buf) := by
  have hne : needle ≠ [] := length_pos_iff.mp (by omega)
  by_cases hshort : buf.length < needle.length
  · have hskip : scanAbsentPairProbe (scanPlanCompile needle backend) buf = some none :=
      if_pos (by simp [hshort, scanPlanCompile])
    rw [hskip]
    exact .none_of_short hne hshort
  · have hscan : scanAbsentPairProbe (scanPlanCompile needle backend) buf =
        (scan buf (scanPlanCompile needle backend).rarePairFirst (pairLimit (scanPlanCompile needle backend) buf + 1)
          (fun found => buf[found + 1]? = some (scanPlanCompile needle backend).rarePairSecond &&
            pairConfirmed (scanPlanCompile needle backend) buf found)
          (selectRarePairOffset needle)).map fun found => found.map (· - selectRarePairOffset needle) := by
      refine if_neg ?_
      have hlen : (scanPlanCompile needle backend).needleLen = needle.length := rfl
      simp only [hlen, Bool.or_eq_true, decide_eq_true_eq]
      omega
    rw [hscan]
    apply findsNeedle_of_firstOf (scan_spec _)
    intro p
    unfold ScanHit
    simp only [Bool.and_eq_true, decide_eq_true_eq, pairConfirmed_iff]
    refine ⟨?_, ?_⟩
    · intro hit
      exact hit.2.2.2
    · intro hocc
      obtain ⟨hlt, hfirst, hsecond⟩ := hocc.pair (by omega)
      exact ⟨hlt, hfirst, hsecond, hocc⟩

theorem scanAbsent_guard {guard : Prop} [Decidable guard] (hne : needle ≠ [])
    (hguard : guard → buf.length < needle.length) (h : ¬guard → FindsNeedle needle buf r) :
    FindsNeedle needle buf (if guard then some none else r) := by
  by_cases hg : guard
  · rw [if_pos hg]
    exact .none_of_short hne (hguard hg)
  · rw [if_neg hg]
    exact h hg

theorem scanAbsentRarePairScalar_finds (h : 4 ≤ needle.length) (hmedium : needle.length ≤ 256) :
    FindsNeedle needle buf (scanAbsentRarePairScalar (scanPlanCompile needle backend) buf) := by
  have hlen : (scanPlanCompile needle backend).needleLen = needle.length := rfl
  apply scanAbsent_guard (length_pos_iff.mp (by omega))
  · simp only [hlen, Bool.or_eq_true, decide_eq_true_eq]
    omega
  · intro _
    exact scanAbsentPairProbe_finds h

theorem scanAbsentLongScalar_finds (h : 256 < needle.length) :
    FindsNeedle needle buf (scanAbsentLongScalar (scanPlanCompile needle backend) buf) := by
  have hlen : (scanPlanCompile needle backend).needleLen = needle.length := rfl
  apply scanAbsent_guard (length_pos_iff.mp (by omega))
  · simp only [hlen, Bool.or_eq_true, decide_eq_true_eq]
    omega
  · intro _
    exact scanAbsentPairProbe_finds (by omega)

/-! ## The lanes -/

section
variable (h : 4 ≤ needle.length)
include h

theorem pairHit_iff (p : Nat) : p + selectRarePairOffset needle < pairLimit (scanPlanCompile needle backend) buf + 1 ∧
      pairHit (scanPlanCompile needle backend) buf (p + selectRarePairOffset needle) = true ↔ OccursAt needle buf p := by
  unfold pairHit
  simp only [Bool.and_eq_true, decide_eq_true_eq, pairConfirmed_iff]
  refine ⟨?_, ?_⟩
  · intro hit
    exact hit.2.2
  · intro hocc
    obtain ⟨hlt, hfirst, hsecond⟩ := hocc.pair (by omega)
    exact ⟨hlt, ⟨hfirst, hsecond⟩, hocc⟩

section
variable (hmedium : needle.length ≤ 256)
include hmedium

theorem scanAbsentPairLanes_finds {lanes : Nat → Nat}
    (hlanes : ∀ place, place ≤ pairLimit (scanPlanCompile needle backend) buf →
      0 < lanes place ∧ place + lanes place ≤ pairLimit (scanPlanCompile needle backend) buf + 1) :
    FindsNeedle needle buf (scanAbsentPairLanes (scanPlanCompile needle backend) buf lanes) := by
  have hlen : (scanPlanCompile needle backend).needleLen = needle.length := rfl
  apply scanAbsent_guard (length_pos_iff.mp (by omega))
  · simp only [hlen, Bool.or_eq_true, decide_eq_true_eq]
    omega
  · intro hguard
    simp only [hlen, Bool.or_eq_true, decide_eq_true_eq] at hguard
    have hoffset := @selectRarePairOffset_lt needle (by omega)
    have hstart : selectRarePairOffset needle ≤ pairLimit (scanPlanCompile needle backend) buf + 1 := by
      show _ ≤ buf.length - (needle.length - selectRarePairOffset needle) + 1
      omega
    apply findsNeedle_of_firstOf (laneScan_spec (fun place hplace => hlanes place (by omega)) hstart)
    intro p
    exact pairHit_iff h p

theorem scanAbsentAvx2_finds : FindsNeedle needle buf (scanAbsentAvx2 (scanPlanCompile needle backend) buf) := by
  apply scanAbsentPairLanes_finds h hmedium
  intro place hplace
  unfold avx2Lanes
  split
  · rename_i hwide
    simp only [Bool.and_eq_true, decide_eq_true_eq] at hwide
    omega
  · omega

theorem scanAbsentNeon_finds : FindsNeedle needle buf (scanAbsentNeon (scanPlanCompile needle backend) buf) := by
  apply scanAbsentPairLanes_finds h hmedium
  intro place hplace
  unfold neonLanes
  split
  · rename_i hwide
    simp only [Bool.and_eq_true, decide_eq_true_eq] at hwide
    omega
  · omega

theorem scanAbsentSve_finds (vectorBytes : SveBytes) :
    FindsNeedle needle buf (scanAbsentSve (scanPlanCompile needle backend) buf vectorBytes) := by
  apply scanAbsentPairLanes_finds h hmedium
  intro place hplace
  have hbytes := vectorBytes.2.1
  unfold sveLanes
  omega

end

theorem firstLastHit_iff (p : Nat) :
    firstLastHit (scanPlanCompile needle backend) buf p = true ↔ OccursAt needle buf p := by
  have hfirst : needle[0]? = some (scanPlanCompile needle backend).firstByte := getD_byte (by omega)
  have hlast : needle[needle.length - 1]? = some (scanPlanCompile needle backend).lastByte := getD_byte (by omega)
  have hlen : (scanPlanCompile needle backend).needleLen = needle.length := rfl
  have hneedle : (scanPlanCompile needle backend).needle = needle := rfl
  unfold firstLastHit
  simp only [Bool.and_eq_true, decide_eq_true_eq, memEqual_iff]
  rw [hlen, hneedle, ← hfirst, ← hlast]
  refine ⟨?_, ?_⟩
  · intro h i hi
    obtain ⟨⟨hf, hl⟩, hbetween⟩ := h
    by_cases hzero : i = 0
    · rw [hzero, add_zero]
      exact hf
    by_cases hend : i = needle.length - 1
    · rw [hend, ← Nat.add_sub_assoc (by omega)]
      exact hl
    have hi' := hbetween (i - 1) (by omega)
    rw [show p + 1 + (i - 1) = p + i by omega, show 1 + (i - 1) = i by omega] at hi'
    exact hi'
  · intro hocc
    refine ⟨⟨hocc 0 (by omega), ?_⟩, ?_⟩
    · rw [Nat.add_sub_assoc (by omega)]
      exact hocc _ (by omega)
    · intro k hk
      rw [add_assoc]
      exact hocc _ (by omega)

theorem scanAbsentSse2_finds (hmedium : needle.length ≤ 256) :
    FindsNeedle needle buf (scanAbsentSse2 (scanPlanCompile needle backend) buf) := by
  have hlen : (scanPlanCompile needle backend).needleLen = needle.length := rfl
  have hne : needle ≠ [] := length_pos_iff.mp (by omega)
  apply scanAbsent_guard hne
  · simp only [hlen, Bool.or_eq_true, decide_eq_true_eq]
    omega
  · intro _
    have hlanes : ∀ place, place < buf.length - needle.length + 1 →
        0 < sse2Lanes (scanPlanCompile needle backend) buf place ∧
          place + sse2Lanes (scanPlanCompile needle backend) buf place ≤ buf.length - needle.length + 1 := by
      intro place hplace
      unfold sse2Lanes
      rw [hlen]
      split <;> omega
    obtain ⟨found, hfound, hfirst⟩ :=
      @laneScan_spec _ (firstLastHit (scanPlanCompile needle backend) buf) _ hlanes 0 (Nat.zero_le _)
    refine ⟨found, hfound, hfirst.congr ?_⟩
    intro p
    refine ⟨?_, ?_⟩
    · intro hocc
      have hle := OccursAt.le_length hne hocc
      exact ⟨Nat.zero_le p, by omega, (firstLastHit_iff h p).mpr hocc⟩
    · intro hit
      exact (firstLastHit_iff h p).mp hit.2.2

end

/-! ## Every needle -/

theorem rarePairOps_finds (h : 4 ≤ needle.length) (hmedium : needle.length ≤ 256)
    (hops : selectOps (scanPlanCompile needle backend) = rarePairOps backend) :
    FindsNeedle needle buf (scanAbsent (scanPlanCompile needle backend) buf) := by
  unfold scanAbsent
  rw [hops]
  cases backend with
  | scalar => exact scanAbsentRarePairScalar_finds h hmedium
  | sse2 => exact scanAbsentSse2_finds h hmedium
  | avx2 => exact scanAbsentAvx2_finds h hmedium
  | neon => exact scanAbsentNeon_finds h hmedium
  | sve vectorBytes => exact scanAbsentSve_finds h hmedium vectorBytes

theorem selectOps_eq (h : 4 ≤ needle.length) : selectOps (scanPlanCompile needle backend) =
    if needle.length ≤ 256 then rarePairOps backend else .longScalar := by
  have halgo : (scanPlanCompile needle backend).algo = selectAlgo needle.length := rfl
  have hlen : (scanPlanCompile needle backend).needleLen = needle.length := rfl
  unfold selectOps
  rw [halgo, hlen]
  unfold selectAlgo
  rw [if_neg (by omega), if_neg (by omega), if_neg (by omega)]
  by_cases hshort : needle.length ≤ 16
  · have hthree : ¬needle.length = 3 := by omega
    have hmedium : needle.length ≤ 256 := by omega
    rw [if_pos hshort, if_pos hmedium]
    exact if_neg hthree
  · rw [if_neg hshort]
    by_cases hmedium : needle.length ≤ 256
    · rw [if_pos hmedium, if_pos hmedium]
      rfl
    · rw [if_neg hmedium, if_neg hmedium]

/-- **Main result.** Whatever the length of the needle and the backend, the scan finds its first place. -/
theorem scanAbsent_finds (h : needle ≠ []) : FindsNeedle needle buf (scanAbsent (scanPlanCompile needle backend) buf) := by
  by_cases hlong : 4 ≤ needle.length
  · have hops := @selectOps_eq needle backend hlong
    by_cases hmedium : needle.length ≤ 256
    · rw [if_pos hmedium] at hops
      exact rarePairOps_finds hlong hmedium hops
    · rw [if_neg hmedium] at hops
      unfold scanAbsent
      rw [hops]
      exact scanAbsentLongScalar_finds (by omega)
  · match needle, h with
    | [a], _ => exact scanAbsentByte_finds a
    | [a, b], _ => exact scanAbsentPair_finds a b
    | [a, b, c], _ => exact scanAbsentShort_finds a b c
    | _ :: _ :: _ :: _ :: rest, _ =>
      simp only [length_cons] at hlong
      omega

theorem exists_occursAt_iff (h : needle ≠ []) : (∃ p, OccursAt needle buf p) ↔ needle <:+: buf := by
  rw [infix_iff_getElem?]
  refine ⟨?_, ?_⟩
  · intro ⟨p, hocc⟩
    have hle := hocc.le_length h
    refine ⟨p, by omega, ?_⟩
    intro i hi
    rw [add_comm, hocc i hi, getElem?_eq_getElem hi]
  · intro ⟨p, _, hbytes⟩
    refine ⟨p, ?_⟩
    intro i hi
    rw [add_comm, hbytes i hi, getElem?_eq_getElem hi]

theorem FindsNeedle.isSome_iff (h : needle ≠ []) (hr : FindsNeedle needle buf r) :
    ∃ found, r = some found ∧ (found.isSome = true ↔ needle <:+: buf) := by
  obtain ⟨found, hfound, hfirst⟩ := hr
  refine ⟨found, hfound, ?_⟩
  rw [← exists_occursAt_iff h]
  cases found with
  | none =>
    have hempty : {p | OccursAt needle buf p} = ∅ := hfirst
    refine ⟨fun hsome => absurd hsome Bool.false_ne_true, ?_⟩
    intro ⟨p, hocc⟩
    exact absurd hocc (Set.eq_empty_iff_forall_notMem.mp hempty p)
  | some p =>
    have hleast : IsLeast {p | OccursAt needle buf p} p := hfirst
    exact ⟨fun _ => ⟨p, hleast.1⟩, fun _ => rfl⟩

end

end Bx.Literal
