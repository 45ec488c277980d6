import Bx.Zip.Directory
import Bx.Kit.Transition

/-!
# Recovering a directory

`zu_recover_central_directory` goes over the file in chunks, makes an entry of
each local header it finds and goes on behind the member's data. How far that
is, the header says.
-/

namespace Bx.Zip.Recovery
open Kit List

def ioChunk : Nat := 64 * 1024

/-- `calloc` and `realloc` are for the entries, of which so many have been recorded. -/
structure Memory where
  malloc : Nat → Bool
  entryRoom : Nat → Bool

/-! ## Searching -/

def chunkAt (f : File) (offset : Nat) : Bytes := (f.bytes.drop offset).take ioChunk

def hasSig (sig : UInt32) (buf : Bytes) (i : Nat) : Bool := (readU32 (buf.drop i)).map Prod.fst == some sig

def findSig (sig : UInt32) (buf : Bytes) : Option Nat := (List.range (buf.length - 3)).find? (hasSig sig buf)

def readDescriptor (input : Bytes) : Option DataDescriptor := do
  let (signature, input) ← readU32 input
  let (crc32, input) ← readU32 input
  let (compSize, input) ← readU32 input
  let (uncompSize, _) ← readU32 input
  return { signature, crc32, compSize, uncompSize }

def plausibleDescriptor (f : File) (dataStart descPos : Nat) : Option DataDescriptor :=
  (readDescriptor (f.bytes.drop descPos)).filter fun dd => dd.compSize.toNat = descPos - dataStart

def descriptorInChunk (f : File) (dataStart current : Nat) : Option DataDescriptor :=
  let buf := chunkAt f current
  (List.range (buf.length - 3)).findSome? fun i =>
    if hasSig sigDescriptor buf i then plausibleDescriptor f dataStart (current + i) else none

/-- The loop of `find_data_descriptor` -/
def descriptorFrom (f : File) (dataStart : Nat) : Nat → Nat → Option DataDescriptor
  | 0, _ => none
  | guard + 1, current =>
    if (chunkAt f current).length < 4 then none
    else
      match descriptorInChunk f dataStart current with
      | some dd => some dd
      | none => descriptorFrom f dataStart guard (current + ((chunkAt f current).length - 3))

def findDataDescriptor (f : File) (dataStart : Nat) : Option DataDescriptor :=
  descriptorFrom f dataStart 1000000 dataStart

/-! ## Sizes -/

structure Sizes where
  comp : UInt64
  uncomp : UInt64
  crc32 : UInt32

def dataStart (lhoOffset : Nat) (lho : LocalHeader) : Nat := lhoOffset + 30 + lho.nameLen.toNat + lho.extraLen.toNat

/-- The sizes of a local header, or of its Zip64 block where the header has sentinels -/
def headerSizes (memory : Memory) (f : File) (lhoOffset : Nat) (lho : LocalHeader) : Sizes :=
  let plain : Sizes := { comp := lho.compSize.toUInt64, uncomp := lho.uncompSize.toUInt64, crc32 := lho.crc32 }
  let needComp := lho.compSize == 0xffffffff
  let needUncomp := lho.uncompSize == 0xffffffff
  let extra := (f.bytes.drop (lhoOffset + 30 + lho.nameLen.toNat)).take lho.extraLen.toNat
  if ¬(needComp || needUncomp) ∨ ¬memory.malloc lho.extraLen.toNat ∨ extra.length ≠ lho.extraLen.toNat then plain
  else
    match zip64Payload extra.length extra with
    | none => plain
    | some payload =>
      let uncomp := takeField needUncomp plain.uncomp payload
      let comp := takeField needComp plain.comp uncomp.2
      { plain with comp := comp.1, uncomp := uncomp.1 }

def hasDescriptor (lho : LocalHeader) : Bool := lho.flags &&& 8 != 0

def memberSizes (memory : Memory) (f : File) (lhoOffset : Nat) (lho : LocalHeader) : Sizes :=
  let sizes := headerSizes memory f lhoOffset lho
  if hasDescriptor lho then
    match findDataDescriptor f (dataStart lhoOffset lho) with
    | some dd => { comp := dd.compSize.toUInt64, uncomp := dd.uncompSize.toUInt64, crc32 := dd.crc32 }
    | none => { sizes with comp := 0 }
  else sizes

/-- A size taken for an `off_t` -/
def offT (size : UInt64) : Int := size.toInt64.toInt

def addOff (a b : Int) : Option Int := if -2 ^ 63 ≤ a + b ∧ a + b < 2 ^ 63 then some (a + b) else none

def afterMember (start : Nat) (comp : UInt64) (described : Bool) : Option Int :=
  if comp = 0 then some start
  else if described then (addOff start (offT comp)).bind (addOff · 16)
  else addOff start (offT comp)

/-! ## The scan -/

structure RecoveredEntry where
  hdr : CentralHeader
  name : Bytes
  compSize : UInt64
  uncompSize : UInt64
  lhoOffset : UInt64

def recoveredEntry (lhoOffset : Nat) (lho : LocalHeader) (name : Bytes) (sizes : Sizes) : RecoveredEntry where
  hdr := { signature := sigCentral, versionMade := 20, versionNeeded := lho.versionNeeded, flags := lho.flags,
           method := lho.method, modTime := lho.modTime, modDate := lho.modDate, crc32 := sizes.crc32,
           compSize := sizes.comp.toUInt32, uncompSize := sizes.uncomp.toUInt32, nameLen := lho.nameLen,
           extraLen := lho.extraLen, commentLen := 0, diskStart := 0, intAttr := 0, extAttr := 0,
           lhoOffset := lhoOffset.toUInt32 }
  name := cText name
  compSize := sizes.comp
  uncompSize := sizes.uncomp
  lhoOffset := lhoOffset.toUInt64

structure ScanState where
  current : Int
  entries : List RecoveredEntry

inductive ScanResult where
  | finished (entries : List RecoveredEntry)
  | outOfMemory
  /-- A signed addition has overflowed. -/
  | undefined

def WholeHeader (f : File) (lhoOffset : Nat) (lho : LocalHeader) : Prop :=
  lhoOffset + 30 + lho.nameLen.toNat ≤ f.bytes.length ∧ dataStart lhoOffset lho < 2 ^ 63

instance (f : File) (lhoOffset : Nat) (lho : LocalHeader) : Decidable (WholeHeader f lhoOffset lho) :=
  inferInstanceAs (Decidable (_ ∧ _))

def scanMember (memory : Memory) (f : File) (s : ScanState) (lhoOffset : Nat) : ScanState ⊕ ScanResult :=
  match LocalHeader.read (f.bytes.drop lhoOffset) with
  | none => .inr (.finished s.entries)
  | some (lho, rest) =>
    if ¬memory.malloc (lho.nameLen.toNat + 1) then .inr .outOfMemory
    else if ¬WholeHeader f lhoOffset lho then .inl { s with current := (lhoOffset + 1 : Nat) }
    else if ¬memory.entryRoom s.entries.length then .inr .outOfMemory
    else
      let sizes := memberSizes memory f lhoOffset lho
      match afterMember (dataStart lhoOffset lho) sizes.comp (hasDescriptor lho) with
      | none => .inr .undefined
      | some next =>
        .inl { current := next,
               entries := s.entries ++ [recoveredEntry lhoOffset lho (rest.take lho.nameLen.toNat) sizes] }

def scanStep (memory : Memory) (f : File) (s : ScanState) : ScanState ⊕ ScanResult :=
  if s.current < 0 then .inr (.finished s.entries)
  else
    let current := s.current.toNat
    let buf := chunkAt f current
    if buf.length < 4 then .inr (.finished s.entries)
    else
      match findSig sigLocal buf with
      | none => .inl { s with current := (current + (buf.length - 3) : Nat) }
      | some i => scanMember memory f s (current + i)

def scanStart : ScanState := { current := 0, entries := [] }

def loopGuard : Nat := 10000000

/-! ## The sizes after the scan -/

def fixedEntry (e : RecoveredEntry) (nextOffset : UInt64) : RecoveredEntry :=
  if e.hdr.flags &&& 8 ≠ 0 ∧ e.compSize = 0 then
    let startData := e.lhoOffset + 30 + e.hdr.nameLen.toUInt64 + e.hdr.extraLen.toUInt64
    if startData < nextOffset then
      let gap := nextOffset - startData
      let compSize := if 16 < gap then gap - 16 else gap
      { e with compSize, hdr := { e.hdr with compSize := compSize.toUInt32 } }
    else e
  else e

def fixedEntries (fileSize : UInt64) : List RecoveredEntry → List RecoveredEntry
  | [] => []
  | e :: entries =>
    fixedEntry e ((entries.head?.map RecoveredEntry.lhoOffset).getD fileSize) :: fixedEntries fileSize entries

inductive Recovered where
  | entries (entries : List RecoveredEntry)
  | failed (status : Status)
  | undefined

def recoverCentralDirectory (memory : Memory) (f : File) : Recovered :=
  match loop (scanStep memory f) loopGuard scanStart with
  | none => .failed .io
  | some .outOfMemory => .failed .oom
  | some .undefined => .undefined
  | some (.finished entries) =>
    if entries = [] then .failed .io else .entries (fixedEntries f.bytes.length.toUInt64 entries)

/-! ## Where the scan goes on -/

/-- The size in a header that has no descriptor leads behind the header, and to an offset. -/
def AdvancesAt (memory : Memory) (f : File) (lhoOffset : Nat) : Prop :=
  ∀ lho rest, LocalHeader.read (f.bytes.drop lhoOffset) = some (lho, rest) → WholeHeader f lhoOffset lho →
    hasDescriptor lho = false → (headerSizes memory f lhoOffset lho).comp ≠ 0 →
      (lhoOffset : Int) < dataStart lhoOffset lho + offT (headerSizes memory f lhoOffset lho).comp ∧
        dataStart lhoOffset lho + offT (headerSizes memory f lhoOffset lho).comp < 2 ^ 63

def Advances (memory : Memory) (f : File) (s : ScanState) : Prop :=
  ∀ i, findSig sigLocal (chunkAt f s.current.toNat) = some i → AdvancesAt memory f (s.current.toNat + i)

section
variable {memory : Memory} {f : File} {s t : ScanState} {lhoOffset : Nat}

theorem length_chunkAt_le (f : File) (offset : Nat) : (chunkAt f offset).length ≤ f.bytes.length - offset := by
  unfold chunkAt
  rw [length_take, length_drop]
  exact Nat.min_le_right _ _

theorem addOff_eq_some {a b c : Int} : addOff a b = some c ↔ (-2 ^ 63 ≤ a + b ∧ a + b < 2 ^ 63) ∧ a + b = c := by
  unfold addOff
  by_cases hfits : -2 ^ 63 ≤ a + b ∧ a + b < 2 ^ 63
  · rw [if_pos hfits, Option.some.injEq]
    exact (and_iff_right hfits).symm
  · rw [if_neg hfits]
    exact iff_of_false (fun h => nomatch h) (fun h => hfits h.1)

theorem lt_dataStart (lhoOffset : Nat) (lho : LocalHeader) : lhoOffset < dataStart lhoOffset lho := by
  unfold dataStart
  omega

theorem offT_toUInt64 (size : UInt32) : offT size.toUInt64 = size.toNat := by
  have hsize := size.toNat_lt
  have hbits : size.toUInt64.toBitVec.toInt = size.toNat := by
    rw [BitVec.toInt_eq_toNat_of_lt]
    · simp
    · simp
      omega
  exact hbits

variable {lho : LocalHeader} {rest : Bytes}

theorem memberSizes_plain (h : hasDescriptor lho = false) :
    memberSizes memory f lhoOffset lho = headerSizes memory f lhoOffset lho := by
  unfold memberSizes
  dsimp only
  rw [h]
  rfl

theorem memberSizes_described {lho : LocalHeader} (h : hasDescriptor lho = true) :
    ∃ size : UInt32, (memberSizes memory f lhoOffset lho).comp = size.toUInt64 := by
  unfold memberSizes
  dsimp only
  rw [h, if_pos rfl]
  cases findDataDescriptor f (dataStart lhoOffset lho) with
  | none => exact ⟨0, rfl⟩
  | some dd => exact ⟨dd.compSize, rfl⟩

theorem lt_afterMember_iff {next : Int}
    (hread : LocalHeader.read (f.bytes.drop lhoOffset) = some (lho, rest)) (hwhole : WholeHeader f lhoOffset lho)
    (h : afterMember (dataStart lhoOffset lho) (memberSizes memory f lhoOffset lho).comp (hasDescriptor lho) =
      some next) : AdvancesAt memory f lhoOffset ↔ (lhoOffset : Int) < next := by
  have hstart := lt_dataStart lhoOffset lho
  have hadvances : AdvancesAt memory f lhoOffset ↔
      (hasDescriptor lho = false → (headerSizes memory f lhoOffset lho).comp ≠ 0 →
        (lhoOffset : Int) < dataStart lhoOffset lho + offT (headerSizes memory f lhoOffset lho).comp ∧
          dataStart lhoOffset lho + offT (headerSizes memory f lhoOffset lho).comp < 2 ^ 63) := by
    refine ⟨fun h => h lho rest hread hwhole, ?_⟩
    intro hgood lho' rest' hread' _
    rw [hread] at hread'
    cases hread'
    exact hgood
  rw [hadvances]
  unfold afterMember at h
  cases hdescriptor : hasDescriptor lho with
  | true =>
    obtain ⟨size, hsize⟩ := @memberSizes_described memory f lhoOffset lho hdescriptor
    rw [hdescriptor, hsize] at h
    refine iff_of_true (fun h => nomatch h) ?_
    by_cases hzero : size.toUInt64 = 0
    · simp [hzero] at h
      omega
    · rw [if_neg hzero, if_pos rfl] at h
      obtain ⟨sum, hsum, hnext⟩ := Option.bind_eq_some_iff.mp h
      rw [addOff_eq_some] at hsum hnext
      rw [offT_toUInt64] at hsum
      omega
  | false =>
    rw [hdescriptor, memberSizes_plain hdescriptor] at h
    by_cases hzero : (headerSizes memory f lhoOffset lho).comp = 0
    · simp [hzero] at h
      refine iff_of_true (fun _ hne => absurd hzero hne) ?_
      omega
    · rw [if_neg hzero, if_neg Bool.false_ne_true, addOff_eq_some] at h
      obtain ⟨hfits, rfl⟩ := h
      exact ⟨fun hgood => (hgood rfl hzero).1, fun hless _ _ => ⟨hless, hfits.2⟩⟩

theorem scanMember_cases (h : scanMember memory f s lhoOffset = .inl t) :
    t = { s with current := (lhoOffset + 1 : Nat) } ∧ AdvancesAt memory f lhoOffset ∨
      ∃ lho name sizes, lhoOffset < f.bytes.length ∧ (AdvancesAt memory f lhoOffset ↔ (lhoOffset : Int) < t.current) ∧
        t.entries = s.entries ++ [recoveredEntry lhoOffset lho name sizes] := by
  unfold scanMember at h
  cases hread : LocalHeader.read (f.bytes.drop lhoOffset) with
  | none => simp [hread] at h
  | some found =>
    obtain ⟨lho, rest⟩ := found
    rw [hread] at h
    dsimp only at h
    by_cases hname : memory.malloc (lho.nameLen.toNat + 1) = true
    · rw [if_neg (not_not_intro hname)] at h
      by_cases hwhole : WholeHeader f lhoOffset lho
      · rw [if_neg (not_not_intro hwhole)] at h
        by_cases hentry : memory.entryRoom s.entries.length = true
        · rw [if_neg (not_not_intro hentry)] at h
          cases hafter : afterMember (dataStart lhoOffset lho) (memberSizes memory f lhoOffset lho).comp
              (hasDescriptor lho) with
          | none => simp [hafter] at h
          | some next =>
            rw [hafter] at h
            cases h
            refine .inr ⟨lho, _, _, ?_, lt_afterMember_iff hread hwhole hafter, rfl⟩
            have hlength := hwhole.1
            omega
        · rw [if_pos hentry] at h
          cases h
      · rw [if_pos hwhole] at h
        cases h
        refine .inl ⟨rfl, ?_⟩
        intro lho' rest' hread' hwhole'
        rw [hread] at hread'
        cases hread'
        exact absurd hwhole' hwhole
    · rw [if_pos hname] at h
      cases h

theorem scanStep_cases (h : scanStep memory f s = .inl t) : 0 ≤ s.current ∧ s.current + 4 ≤ f.bytes.length ∧
      (t.entries = s.entries ∧ s.current < t.current ∨
        ∃ i, findSig sigLocal (chunkAt f s.current.toNat) = some i ∧
          scanMember memory f s (s.current.toNat + i) = .inl t) := by
  unfold scanStep at h
  by_cases hnegative : s.current < 0
  · simp [hnegative] at h
  · have hchunk := length_chunkAt_le f s.current.toNat
    rw [if_neg hnegative] at h
    dsimp only at h
    by_cases hshort : (chunkAt f s.current.toNat).length < 4
    · simp [hshort] at h
    · rw [if_neg hshort] at h
      refine ⟨by omega, by omega, ?_⟩
      cases hfind : findSig sigLocal (chunkAt f s.current.toNat) with
      | none =>
        rw [hfind] at h
        cases h
        refine .inl ⟨rfl, ?_⟩
        dsimp only
        omega
      | some i =>
        rw [hfind] at h
        exact .inr ⟨i, rfl, h⟩

/-! ## Runs -/

def scanSystem (memory : Memory) (f : File) : System ScanState Unit where
  init := fun s => s = scanStart
  step := fun s _ t => scanStep memory f s = .inl t

def advancing (memory : Memory) (f : File) : System ScanState Unit :=
  (scanSystem memory f).guarded fun s _ => Advances memory f s

def offsets (entries : List RecoveredEntry) : List Nat := entries.map fun e => e.lhoOffset.toNat

structure Ordered (s : ScanState) : Prop where
  nonneg : 0 ≤ s.current
  behind : ∀ offset ∈ offsets s.entries, (offset : Int) < s.current
  increasing : (offsets s.entries).Pairwise (· < ·)

theorem offset_recoveredEntry {name : Bytes} {sizes : Sizes} (h : lhoOffset < f.bytes.length) :
    (recoveredEntry lhoOffset lho name sizes).lhoOffset.toNat = lhoOffset := by
  have hlength := f.length_lt
  have hoffset : (recoveredEntry lhoOffset lho name sizes).lhoOffset.toNat = lhoOffset % 2 ^ 64 :=
    UInt64.toNat_ofNat'
  rw [hoffset]
  omega

theorem Ordered.step (hs : Ordered s) (hadvances : Advances memory f s) (h : scanStep memory f s = .inl t) :
    Ordered t ∧ s.current < t.current := by
  have hnonneg := hs.nonneg
  obtain ⟨_, _, hcases⟩ := scanStep_cases h
  -- the entries there were lie behind the scan, which only goes on
  have hbehind : s.current < t.current → ∀ offset ∈ offsets s.entries, (offset : Int) < t.current :=
    fun hless offset hoffset => Int.lt_trans (hs.behind offset hoffset) hless
  cases hcases with
  | inl hnone =>
    obtain ⟨hentries, hless⟩ := hnone
    refine ⟨⟨by omega, ?_, ?_⟩, hless⟩
    · rw [hentries]
      exact hbehind hless
    · rw [hentries]
      exact hs.increasing
  | inr hfound =>
    obtain ⟨i, hfind, hmember⟩ := hfound
    have hat := hadvances i hfind
    cases scanMember_cases hmember with
    | inl hpassed =>
      obtain ⟨rfl, _⟩ := hpassed
      have hless : s.current < ((s.current.toNat + i + 1 : Nat) : Int) := by omega
      exact ⟨⟨Int.natCast_nonneg _, hbehind hless, hs.increasing⟩, hless⟩
    | inr hrecorded =>
      obtain ⟨lho, name, sizes, hlength, hiff, hentries⟩ := hrecorded
      have hheader := hiff.mp hat
      have hless : s.current < t.current := by omega
      have hoffsets : offsets t.entries = offsets s.entries ++ [s.current.toNat + i] := by
        unfold offsets
        rw [hentries, map_append, map_singleton, offset_recoveredEntry hlength]
      refine ⟨⟨by omega, ?_, ?_⟩, hless⟩
      · intro offset hoffset
        rw [hoffsets] at hoffset
        cases mem_append.mp hoffset with
        | inl hold => exact hbehind hless offset hold
        | inr hnew =>
          rw [mem_singleton.mp hnew]
          exact hheader
      · rw [hoffsets, pairwise_append]
        refine ⟨hs.increasing, pairwise_singleton _ _, ?_⟩
        intro offset hoffset last hlast
        have hold := hs.behind offset hoffset
        rw [mem_singleton.mp hlast]
        omega

theorem ordered_start : Ordered scanStart :=
  ⟨Int.le_refl 0, fun _ h => absurd h not_mem_nil, .nil⟩

theorem ordered_of_reachable (h : Reachable (advancing memory f) s) : Ordered s := by
  apply h.invariant
  · intro s hs
    rw [hs]
    exact ordered_start
  · intro s _ t _ hs hstep
    exact (hs.step hstep.1 hstep.2).1

def left (f : File) (s : ScanState) : Nat := (f.bytes.length - s.current).toNat

variable {input : Bytes}

theorem length_of_readU32 {x : UInt32} (h : readU32 input = some (x, rest)) :
    4 ≤ input.length ∧ rest = input.drop 4 := by
  unfold readU32 readLe at h
  by_cases hshort : input.length < 4
  · simp [hshort] at h
  · rw [if_neg hshort] at h
    cases h
    exact ⟨Nat.not_lt.mp hshort, rfl⟩

variable {dd : DataDescriptor} {r : ScanResult}

theorem length_of_readDescriptor (h : readDescriptor input = some dd) : 16 ≤ input.length := by
  unfold readDescriptor at h
  dsimp only [bind] at h
  obtain ⟨first, hfirst, h⟩ := Option.bind_eq_some_iff.mp h
  obtain ⟨second, hsecond, h⟩ := Option.bind_eq_some_iff.mp h
  obtain ⟨third, hthird, h⟩ := Option.bind_eq_some_iff.mp h
  obtain ⟨fourth, hfourth, h⟩ := Option.bind_eq_some_iff.mp h
  obtain ⟨_, hone⟩ := length_of_readU32 hfirst
  obtain ⟨_, htwo⟩ := length_of_readU32 hsecond
  obtain ⟨_, hthree⟩ := length_of_readU32 hthird
  obtain ⟨hlast, _⟩ := length_of_readU32 hfourth
  rw [hthree, htwo, hone] at hlast
  simp only [length_drop] at hlast
  omega

theorem descriptorFrom_fits {start guard current : Nat} (hle : start ≤ current)
    (h : descriptorFrom f start guard current = some dd) : start + dd.compSize.toNat + 16 ≤ f.bytes.length := by
  induction guard generalizing current with
  | zero => cases h
  | succ guard ih =>
    unfold descriptorFrom at h
    by_cases hshort : (chunkAt f current).length < 4
    · rw [if_pos hshort] at h
      cases h
    · rw [if_neg hshort] at h
      cases hchunk : descriptorInChunk f start current with
      | none =>
        rw [hchunk] at h
        exact ih (by omega) h
      | some found =>
        rw [hchunk] at h
        cases h
        unfold descriptorInChunk at hchunk
        obtain ⟨i, _, hi⟩ := exists_of_findSome?_eq_some hchunk
        by_cases hsig : hasSig sigDescriptor (chunkAt f current) i = true
        · rw [if_pos hsig] at hi
          obtain ⟨hread, hsize⟩ := Option.filter_eq_some_iff.mp hi
          have hlength := length_of_readDescriptor hread
          have hdistance := of_decide_eq_true hsize
          rw [length_drop] at hlength
          omega
        · rw [if_neg hsig] at hi
          cases hi

theorem descriptor_fits {lho : LocalHeader} (h : hasDescriptor lho = true) :
    (memberSizes memory f lhoOffset lho).comp ≠ 0 →
      dataStart lhoOffset lho + offT (memberSizes memory f lhoOffset lho).comp + 16 < 2 ^ 63 := by
  have hfile := f.length_lt
  unfold memberSizes
  dsimp only
  rw [h, if_pos rfl]
  cases hfind : findDataDescriptor f (dataStart lhoOffset lho) with
  | none => exact fun hne => absurd rfl hne
  | some dd =>
    intro _
    have hfits := descriptorFrom_fits (le_rfl) hfind
    dsimp only
    rw [offT_toUInt64]
    omega

theorem offT_ge (size : UInt64) : -2 ^ 63 ≤ offT size := BitVec.le_toInt size.toBitVec

theorem afterMember_ne_none (hat : AdvancesAt memory f lhoOffset)
    (hread : LocalHeader.read (f.bytes.drop lhoOffset) = some (lho, rest)) (hwhole : WholeHeader f lhoOffset lho) :
    afterMember (dataStart lhoOffset lho) (memberSizes memory f lhoOffset lho).comp (hasDescriptor lho) ≠ none := by
  have hlow := offT_ge (memberSizes memory f lhoOffset lho).comp
  unfold afterMember
  by_cases hzero : (memberSizes memory f lhoOffset lho).comp = 0
  · rw [if_pos hzero]
    exact fun h => nomatch h
  · rw [if_neg hzero]
    cases hdescriptor : hasDescriptor lho with
    | true =>
      have hfits := @descriptor_fits memory f lhoOffset lho hdescriptor hzero
      obtain ⟨size, hsize⟩ := @memberSizes_described memory f lhoOffset lho hdescriptor
      rw [hsize, offT_toUInt64] at hfits ⊢
      have hfirst : addOff (dataStart lhoOffset lho) size.toNat =
          some ((dataStart lhoOffset lho : Int) + size.toNat) := addOff_eq_some.mpr ⟨⟨by omega, by omega⟩, rfl⟩
      have hsecond : addOff ((dataStart lhoOffset lho : Int) + size.toNat) 16 =
          some ((dataStart lhoOffset lho : Int) + size.toNat + 16) := addOff_eq_some.mpr ⟨⟨by omega, by omega⟩, rfl⟩
      rw [if_pos rfl, hfirst, Option.bind_some, hsecond]
      exact fun h => nomatch h
    | false =>
      rw [memberSizes_plain hdescriptor] at hzero hlow ⊢
      have hgood := hat lho rest hread hwhole hdescriptor hzero
      have hsum := addOff_eq_some.mpr ⟨⟨(by omega : -2 ^ 63 ≤ (dataStart lhoOffset lho : Int) + _), hgood.2⟩, rfl⟩
      rw [if_neg Bool.false_ne_true, hsum]
      exact fun h => nomatch h

theorem scanMember_inr (hat : AdvancesAt memory f lhoOffset)
    (h : scanMember memory f s lhoOffset = .inr r) : r = .finished s.entries ∨ r = .outOfMemory := by
  unfold scanMember at h
  cases hread : LocalHeader.read (f.bytes.drop lhoOffset) with
  | none =>
    rw [hread] at h
    cases h
    exact .inl rfl
  | some found =>
    rw [hread] at h
    dsimp only at h
    by_cases hname : memory.malloc (found.1.nameLen.toNat + 1) = true
    · rw [if_neg (not_not_intro hname)] at h
      by_cases hwhole : WholeHeader f lhoOffset found.1
      · rw [if_neg (not_not_intro hwhole)] at h
        by_cases hentry : memory.entryRoom s.entries.length = true
        · rw [if_neg (not_not_intro hentry)] at h
          cases hafter : afterMember (dataStart lhoOffset found.1) (memberSizes memory f lhoOffset found.1).comp
              (hasDescriptor found.1) with
          | none => exact absurd hafter (afterMember_ne_none hat hread hwhole)
          | some next =>
            rw [hafter] at h
            cases h
        · rw [if_pos hentry] at h
          cases h
          exact .inr rfl
      · rw [if_pos hwhole] at h
        cases h
    · rw [if_pos hname] at h
      cases h
      exact .inr rfl

theorem scanStep_inr (hadvances : Advances memory f s) (h : scanStep memory f s = .inr r) :
    r = .finished s.entries ∨ r = .outOfMemory := by
  unfold scanStep at h
  by_cases hnegative : s.current < 0
  · rw [if_pos hnegative] at h
    cases h
    exact .inl rfl
  · rw [if_neg hnegative] at h
    dsimp only at h
    by_cases hshort : (chunkAt f s.current.toNat).length < 4
    · rw [if_pos hshort] at h
      cases h
      exact .inl rfl
    · rw [if_neg hshort] at h
      cases hfind : findSig sigLocal (chunkAt f s.current.toNat) with
      | none => simp [hfind] at h
      | some i =>
        rw [hfind] at h
        exact scanMember_inr (hadvances i hfind) h

theorem loop_of_advancing (hall : ∀ s, Reachable (advancing memory f) s → Advances memory f s) {fuel : Nat}
    (hfuel : f.bytes.length < fuel) :
    ∃ r, loop (scanStep memory f) fuel scanStart = some r ∧
      (r = .outOfMemory ∨ ∃ entries, r = .finished entries ∧ (offsets entries).Pairwise (· < ·)) := by
  apply loop_of_measure (fun s => Reachable (advancing memory f) s) _ (left f) _ _ (.init rfl)
  · have hstart : left f scanStart = f.bytes.length := by
      unfold left scanStart
      rw [Int.sub_zero]
      exact Int.toNat_natCast _
    rw [hstart]
    exact hfuel
  · intro s t hs hstep
    have hadvances := hall s hs
    have hless := ((ordered_of_reachable hs).step hadvances hstep).2
    obtain ⟨_, hroom, _⟩ := scanStep_cases hstep
    have hnext : (advancing memory f).step s () t := ⟨hadvances, hstep⟩
    refine ⟨hs.step hnext, ?_⟩
    unfold left
    omega
  · intro s r hs hstep
    cases scanStep_inr (hall s hs) hstep with
    | inl hfinished => exact .inr ⟨s.entries, hfinished, (ordered_of_reachable hs).increasing⟩
    | inr hmemory => exact .inl hmemory

theorem offset_fixedEntry (e : RecoveredEntry) (nextOffset : UInt64) : (fixedEntry e nextOffset).lhoOffset =
    e.lhoOffset := by
  unfold fixedEntry
  dsimp only
  split
  · split <;> rfl
  · rfl

theorem offsets_fixedEntries (fileSize : UInt64) (entries : List RecoveredEntry) :
    offsets (fixedEntries fileSize entries) = offsets entries := by
  unfold offsets
  induction entries with
  | nil => rfl
  | cons e entries ih => rw [fixedEntries, map_cons, map_cons, ih, offset_fixedEntry]

theorem offsets_of_recovered (hall : ∀ s, Reachable (advancing memory f) s → Advances memory f s)
    {entries : List RecoveredEntry} (h : recoverCentralDirectory memory f = .entries entries) :
    (offsets entries).Pairwise (· < ·) := by
  have hfuel : f.bytes.length < loopGuard + f.bytes.length + 1 := by omega
  obtain ⟨r, hr, hgood⟩ := loop_of_advancing hall hfuel
  unfold recoverCentralDirectory at h
  cases hloop : loop (scanStep memory f) loopGuard scanStart with
  | none =>
    rw [hloop] at h
    cases h
  | some found =>
    have hmore := loop_mono hloop (by omega : loopGuard ≤ loopGuard + f.bytes.length + 1)
    rw [hr] at hmore
    cases hmore
    rw [hloop] at h
    cases hgood with
    | inl hmemory =>
      rw [hmemory] at h
      cases h
    | inr hfinished =>
      obtain ⟨es, rfl, hincreasing⟩ := hfinished
      dsimp only at h
      by_cases hnil : es = []
      · rw [if_pos hnil] at h
        cases h
      · rw [if_neg hnil] at h
        cases h
        rw [offsets_fixedEntries]
        exact hincreasing

end

/-- **Main result.** A round goes on behind the header that it records exactly where the size in it leads there. In a
run of which each round does, the offset of the scan goes up with each round and so do the offsets of the headers that
are recorded; where all rounds do, the loop ends by itself within as many rounds as the file has bytes, and one more. -/
theorem recovery_advances (memory : Memory) (f : File) : (∀ s lhoOffset t, scanMember memory f s lhoOffset = .inl t →
      (AdvancesAt memory f lhoOffset ↔ (lhoOffset : Int) < t.current)) ∧
    (∀ s, Reachable (advancing memory f) s → (offsets s.entries).Pairwise (· < ·) ∧
      (∀ offset ∈ offsets s.entries, (offset : Int) < s.current) ∧
      ∀ t, Advances memory f s → scanStep memory f s = .inl t → s.current < t.current) ∧
    ((∀ s, Reachable (advancing memory f) s → Advances memory f s) →
      (∀ fuel, f.bytes.length < fuel → ∃ r, loop (scanStep memory f) fuel scanStart = some r ∧
        (r = .outOfMemory ∨ ∃ entries, r = .finished entries ∧ (offsets entries).Pairwise (· < ·))) ∧
      ∀ entries, recoverCentralDirectory memory f = .entries entries → (offsets entries).Pairwise (· < ·)) := by
  refine ⟨?_, ?_, ?_⟩
  · intro s lhoOffset t h
    cases scanMember_cases h with
    | inl hpassed =>
      obtain ⟨rfl, hadvances⟩ := hpassed
      refine iff_of_true hadvances ?_
      dsimp only
      omega
    | inr hrecorded =>
      obtain ⟨_, _, _, _, hiff, _⟩ := hrecorded
      exact hiff
  · intro s hs
    have hordered := ordered_of_reachable hs
    exact ⟨hordered.increasing, hordered.behind, fun t hadvances hstep => (hordered.step hadvances hstep).2⟩
  · intro hall
    refine ⟨fun fuel hfuel => loop_of_advancing hall hfuel, ?_⟩
    intro entries h
    exact offsets_of_recovered hall h

/-! ## A header that leads back to itself -/

def backwardHeader : LocalHeader where
  signature := sigLocal
  versionNeeded := 45
  flags := 0
  method := 0
  modTime := 0
  modDate := 0
  crc32 := 0
  compSize := 0xffffffff
  uncompSize := 0xffffffff
  nameLen := 0
  extraLen := 20

def backwardFile : File where
  bytes := backwardHeader.bytes ++ pack [.u16 extraZip64, .u16 16, .u64 0, .u64 (0 - 50)]
  length_lt := by decide

def ample : Memory where
  malloc := fun _ => true
  entryRoom := fun _ => true

theorem backward_step (entries : List RecoveredEntry) : ∃ e, e.lhoOffset = 0 ∧
      scanStep ample backwardFile { current := 0, entries } = .inl { current := 0, entries := entries ++ [e] } := by
  have hread : LocalHeader.read (backwardFile.bytes.drop 0) = some (backwardHeader, _) :=
    LocalHeader.read_bytes backwardHeader _
  have hchunk : (chunkAt backwardFile 0).length = 50 := by decide
  have hfind : findSig sigLocal (chunkAt backwardFile 0) = some 0 := by decide
  have hwhole : WholeHeader backwardFile 0 backwardHeader := by decide
  have hafter : afterMember (dataStart 0 backwardHeader) (memberSizes ample backwardFile 0 backwardHeader).comp
      (hasDescriptor backwardHeader) = some 0 := by decide
  have hroom : ample.entryRoom entries.length = true := rfl
  refine ⟨recoveredEntry 0 backwardHeader [] (memberSizes ample backwardFile 0 backwardHeader), rfl, ?_⟩
  unfold scanStep
  dsimp only
  rw [if_neg (by decide), Int.toNat_zero, hchunk, if_neg (by decide), hfind]
  dsimp only
  unfold scanMember
  rw [hread]
  dsimp only
  rw [if_neg (by decide), if_neg (not_not_intro hwhole), if_neg (not_not_intro hroom), hafter]
  rfl

/-- The scan stands still and records the one header in each round. -/
theorem backward_never_ends : (∀ fuel, loop (scanStep ample backwardFile) fuel scanStart = none) ∧
      ∃ s t, scanStep ample backwardFile scanStart = .inl s ∧ scanStep ample backwardFile s = .inl t ∧
        s.current = 0 ∧ t.current = 0 ∧ offsets t.entries = [0, 0] := by
  refine ⟨?_, ?_⟩
  · have hstuck : ∀ fuel entries, loop (scanStep ample backwardFile) fuel { current := 0, entries } = none := by
      intro fuel
      induction fuel with
      | zero => exact fun _ => rfl
      | succ fuel ih =>
        intro entries
        obtain ⟨e, _, hstep⟩ := backward_step entries
        rw [loop_go hstep]
        exact ih _
    exact fun fuel => hstuck fuel []
  · obtain ⟨first, hfirst, hstep⟩ := backward_step []
    obtain ⟨second, hsecond, hagain⟩ := backward_step [first]
    refine ⟨_, _, hstep, hagain, rfl, rfl, ?_⟩
    unfold offsets
    rw [map_append, map_singleton, map_singleton, hfirst, hsecond]
    rfl

end Bx.Zip.Recovery
