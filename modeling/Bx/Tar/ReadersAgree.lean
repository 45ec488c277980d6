import Bx.Tar.BufferReader
import Bx.Tar.StreamPayload

/-!
# The two readers agree

On whole blocks the buffer reader and the stream reader that collects entries go in step. Where the payload of a member
is cut short both fail.
-/

namespace Bx.Tar
open Kit List

/-! ## Entries -/

section
variable {o : ReaderOptions} {header : Bytes} {size : Nat} {type : UInt8} {pax : PaxInfo} {numbers : PaxNumbers}
  {sharedMetadata : Metadata} {long long' : LongTexts} {entry : Entry}

theorem prepareEntry_fresh
    (h : prepareEntryFromHeader o header size type pax numbers sharedMetadata long = some (entry, long')) :
    entry.headerBlockIndex = 0 ∧ entry.sparse = false ∧ entry.data = [] ∧ entry.dataLen = 0 := by
  unfold prepareEntryFromHeader at h
  split at h
  · cases h
  · split at h
    · cases h
    · cases h
      exact ⟨rfl, rfl, rfl, rfl⟩

@[simp] theorem atBlock_kind (index : Nat) : (entry.atBlock index).kind = entry.kind := rfl

@[simp] theorem atBlock_sparse (index : Nat) : (entry.atBlock index).sparse = entry.sparse := rfl

theorem clone_fresh (h : entry.headerBlockIndex = 0) (index : Nat) : cloneEntry (entry.atBlock index) true = entry := by
  cases entry
  simp only at h
  subst h
  rfl

theorem parseSparseMap_map (payload : Bytes) (entry : Entry) (f : Entry → Entry)
    (hf : ∀ extents data dataLen, f { entry with extents := extents, data := data, dataLen := dataLen } =
      { f entry with extents := extents, data := data, dataLen := dataLen }) :
    (parseSparseMap payload entry).map f = parseSparseMap payload (f entry) := by
  unfold parseSparseMap
  cases sparseBufferNumber payload 0 with
  | none => rfl
  | some r =>
    obtain ⟨extentCount, pos⟩ := r
    dsimp only
    by_cases hbad : sparseExtentLimit < extentCount ∨ (payload.length - pos) / 4 < extentCount
    · rw [if_pos hbad, if_pos hbad]
      rfl
    rw [if_neg hbad, if_neg hbad]
    cases parseSparseExtents payload extentCount pos with
    | none => rfl
    | some r =>
      obtain ⟨extents, pos⟩ := r
      dsimp only
      cases checkedSizeRoundUp pos blockSize with
      | none => rfl
      | some dataStart =>
        dsimp only
        by_cases hlong : payload.length < dataStart
        · rw [if_pos hlong, if_pos hlong]
          rfl
        · rw [if_neg hlong, if_neg hlong]
          exact congrArg some (hf _ _ _)

theorem parseSparseMap_keeps {payload : Bytes} {parsed : Entry} (h : parseSparseMap payload entry = some parsed) :
    parsed.headerBlockIndex = entry.headerBlockIndex ∧ parsed.kind = entry.kind ∧ parsed.sparse = entry.sparse := by
  unfold parseSparseMap at h
  split at h
  · cases h
  · split at h
    · cases h
    · split at h
      · cases h
      · split at h
        · cases h
        · split at h
          · cases h
          · cases h
            exact ⟨rfl, rfl, rfl⟩

end

/-! ## Members -/

section
variable {entry : Entry} {pax : PaxInfo} {user : CollectState} {input : Input} {size index : Nat}

def collectMember (pax : PaxInfo) (size : Nat) (entry : Entry) (user : CollectState) (input : Input) :
    Option (CollectState × Input) :=
  match prepareMember collectOps pax size entry input with
  | none => none
  | some (entry, archivePadding, input) =>
    match visitMemberPayload collectOps entry size archivePadding (collectBeginEntry user entry) input with
    | none => none
    | some (user, input) => some (collectEndEntry user entry, input)

theorem prepareMember_sparse (hreg : entry.kind = .reg) (hsparse : sparseMember pax = true) :
    prepareMember collectOps pax size entry input =
      readSparseMember input size (entry.asSparse pax.sparseRealsize) := by
  unfold prepareMember
  rw [if_pos ⟨hreg, hsparse⟩]
  rfl

theorem prepareMember_plain (h : ¬(entry.kind = .reg ∧ sparseMember pax = true)) :
    prepareMember collectOps pax size entry input = some (entry, 0, input) := by
  unfold prepareMember
  rw [if_neg h]

theorem collectMember_truncated (hplain : entry.sparse = false) (h : input.rest.length < roundUp size blockSize) :
    collectMember pax size entry user input = none := by
  unfold collectMember
  by_cases hreg : entry.kind = .reg
  · by_cases hsparse : sparseMember pax = true
    · rw [prepareMember_sparse hreg hsparse, readSparseMember_truncated h]
    · rw [prepareMember_plain (fun hboth => hsparse hboth.2)]
      simp only [visitMemberPayload, hreg, if_true, hplain, visitPayload_truncated h]
      rfl
  · rw [prepareMember_plain (fun hboth => hreg hboth.1)]
    simp only [visitMemberPayload, hreg, if_false, Input.skipPayload, Input.skip_of_lt h]
    rfl

theorem collectEnd_whole (h : (entry.kind == .reg && !entry.sparse) = false) :
    (collectEndEntry (collectBeginEntry user entry) entry).entries = user.entries ++ [cloneEntry entry true] := by
  simp [collectEndEntry, collectBeginEntry, h]

theorem collectEnd_payload (hreg : entry.kind = .reg) (hplain : entry.sparse = false) (payload : Bytes) :
    (collectEndEntry { collectBeginEntry user entry with currentPayload := payload } entry).entries =
      user.entries ++ [{ cloneEntry entry true with data := payload, dataLen := payload.length }] := by
  simp [collectEndEntry, collectBeginEntry, cloneEntry, hreg, hplain]

theorem collectMember_eq (hfresh : entry.headerBlockIndex = 0) (hplain : entry.sparse = false)
    (h : roundUp size blockSize ≤ input.rest.length) :
    Option.Rel (fun e r => r.2 = input.advance (roundUp size blockSize) ∧ r.1.entries = user.entries ++ [e])
      (bufferPayload pax (input.rest.take size) entry)
      (collectMember pax size (entry.atBlock index) user input) := by
  have hplain' : (entry.atBlock index).sparse = false := hplain
  unfold bufferPayload collectMember
  by_cases hreg : entry.kind = .reg
  · have hreg' : (entry.atBlock index).kind = .reg := hreg
    rw [if_neg (not_not_intro hreg)]
    by_cases hsparse : sparseMember pax = true
    · have hparse : (parseSparseMap (input.rest.take size) (entry.asSparse pax.sparseRealsize)).map (·.atBlock index) =
          parseSparseMap (input.rest.take size) ((entry.atBlock index).asSparse pax.sparseRealsize) :=
        parseSparseMap_map _ _ (·.atBlock index) (fun _ _ _ => rfl)
      rw [if_pos hsparse, prepareMember_sparse hreg' hsparse, readSparseMember_eq h, ← hparse]
      cases hmap : parseSparseMap (input.rest.take size) (entry.asSparse pax.sparseRealsize) with
      | none => exact .none
      | some parsed =>
        obtain ⟨hindex, hkind, hmember⟩ := parseSparseMap_keeps hmap
        have hreg'' : (parsed.atBlock index).kind = .reg := hkind.trans hreg
        have hmember' : (parsed.atBlock index).sparse = true := hmember
        simp only [Option.map_some, visitMemberPayload, hreg'', hmember', if_true]
        refine .some ⟨rfl, ?_⟩
        simp only
        rw [collectEnd_whole (by rw [hmember']; simp), clone_fresh (hindex.trans hfresh)]
    · have hvisit := @visitPayload_of_step _ _ (entry.atBlock index) collectOps size
        (collectBeginEntry user (entry.atBlock index)) input
        (fun state seen => state = { collectBeginEntry user (entry.atBlock index) with currentPayload := seen }) rfl
        (by
          intro state seen data hstate
          refine ⟨_, rfl, ?_⟩
          rw [hstate]
          simp [collectVisitPayload, collectBeginEntry, hreg, hplain])
        rfl h
      obtain ⟨next, hvisit, hnext⟩ := hvisit
      have hlength : (input.rest.take size).length = size := by
        rw [length_take, min_eq_left (Nat.le_trans (le_roundUp size blockSize) h)]
      rw [if_neg hsparse, prepareMember_plain (fun hboth => hsparse hboth.2)]
      simp only [visitMemberPayload, hreg', if_true, hplain', hvisit]
      refine .some ⟨rfl, ?_⟩
      simp only
      rw [hnext, collectEnd_payload hreg' hplain', clone_fresh hfresh]
  · have hreg' : ¬(entry.atBlock index).kind = .reg := hreg
    rw [if_pos hreg, prepareMember_plain (fun hboth => hreg' hboth.1)]
    simp only [visitMemberPayload, hreg', if_false, Input.skipPayload, Input.skip_of_le h, Option.map_some]
    refine .some ⟨rfl, ?_⟩
    simp only
    rw [collectEnd_whole (by simp [hreg]), clone_fresh hfresh]

end

/-! ## Blocks -/

/-- Where the two readers are: the same blocks in front, the same records, the same entries. -/
structure ReadersAt (b : BufferState) (v : VisitState CollectState) : Prop where
  blocks : blockSize ∣ b.rest.length
  front : b.rest = v.header.getD [] ++ v.input.rest
  ahead : ∀ header, v.header = some header → header.length = blockSize ∧ blockIsZero header = false
  pax : v.pax = b.pax
  shared : v.shared = b.shared
  long : v.long = b.long
  entries : v.user.entries = b.entries

section
variable {b : BufferState} {v : VisitState CollectState} {header after : Bytes} {index : Nat}

theorem visitEntry_collect (v : VisitState CollectState) (header : Bytes) (index size : Nat) :
    visitEntry collectOps {} v header index size =
      match prepareEntryFromHeader {} header size (typeflag header) (paxEffectiveInfo v.shared v.pax)
          (paxEffectiveInfo v.shared v.pax).numbers v.shared.metadata v.long with
      | none => none
      | some (entry, long) =>
        (collectMember v.pax size (entry.atBlock index) v.user v.input).map fun r =>
          { v with input := r.2, header := none, pax := paxInfoClear v.pax, long := long, user := r.1 } := by
  unfold visitEntry
  simp only
  cases prepareEntryFromHeader {} header size (typeflag header) (paxEffectiveInfo v.shared v.pax)
      (paxEffectiveInfo v.shared v.pax).numbers v.shared.metadata v.long with
  | none => rfl
  | some r =>
    obtain ⟨entry, long⟩ := r
    simp only [collectMember]
    cases prepareMember collectOps v.pax size (entry.atBlock index) v.input with
    | none => rfl
    | some r =>
      obtain ⟨entry, archivePadding, input⟩ := r
      have hbegin : collectOps.beginEntry v.user entry = some (collectBeginEntry v.user entry) := rfl
      simp only [hbegin]
      cases visitMemberPayload collectOps entry size archivePadding (collectBeginEntry v.user entry) input with
      | none => rfl
      | some r => rfl

theorem visitBlock_truncated {size : Nat}
    (hsize : headerPayloadSize header (paxEffectiveInfo v.shared v.pax).numbers = some size)
    (h : v.input.rest.length < roundUp size blockSize) : visitBlock collectOps {} v header index = none := by
  unfold visitBlock
  by_cases hsum : headerChecksumValid header = true
  · rw [if_pos hsum, hsize]
    simp only [readPaxRecords_truncated _ _ _ _ _ h, readTextPayload_truncated h, Option.map_none]
    by_cases hx : typeflag header = 120
    · rw [if_pos hx]
    rw [if_neg hx]
    by_cases hg : typeflag header = 103
    · rw [if_pos hg]
    rw [if_neg hg]
    by_cases hL : typeflag header = 76
    · rw [if_pos hL]
    rw [if_neg hL]
    by_cases hK : typeflag header = 75
    · rw [if_pos hK]
    rw [if_neg hK, visitEntry_collect]
    cases hprepare : prepareEntryFromHeader {} header size (typeflag header) (paxEffectiveInfo v.shared v.pax)
        (paxEffectiveInfo v.shared v.pax).numbers v.shared.metadata v.long with
    | none => rfl
    | some r =>
      obtain ⟨entry, long⟩ := r
      have hplain : (entry.atBlock index).sparse = false := (prepareEntry_fresh hprepare).2.1
      simp only
      rw [collectMember_truncated hplain h]
      rfl
  · rw [if_neg hsum]

theorem visitBlock_agrees (hrest : v.input.rest = after) (hblocks : blockSize ∣ after.length) (hpax : v.pax = b.pax)
    (hshared : v.shared = b.shared) (hlong : v.long = b.long) (hentries : v.user.entries = b.entries) :
    Option.Rel ReadersAt (bufferBlock b header after) (visitBlock collectOps {} v header index) := by
  have hrelated : ∀ {b' : BufferState} {v' : VisitState CollectState} {size : Nat},
      roundUp size blockSize ≤ after.length → b'.rest = after.drop (roundUp size blockSize) →
      v'.input = v.input.advance (roundUp size blockSize) → v'.header = none → v'.pax = b'.pax →
      v'.shared = b'.shared → v'.long = b'.long → v'.user.entries = b'.entries → ReadersAt b' v' := by
    intro b' v' size hle hb hv hheader hp hs hl he
    have hdvd : blockSize ∣ roundUp size blockSize := dvd_roundUp (by decide) size
    refine ⟨?_, ?_, ?_, hp, hs, hl, he⟩
    · rw [hb, length_drop]
      exact Nat.dvd_sub hblocks hdvd
    · rw [hb, hv, hheader, Input.advance_rest, hrest]
      rfl
    · intro header hsome
      simp [hheader] at hsome
  unfold bufferBlock
  by_cases hsum : headerChecksumValid header = true
  · rw [if_pos hsum]
    cases hsize : headerPayloadSize header (paxEffectiveInfo b.shared b.pax).numbers with
    | none =>
      unfold visitBlock
      rw [if_pos hsum, hpax, hshared, hsize]
      exact .none
    | some size =>
      have hsize' := hsize
      rw [← hpax, ← hshared] at hsize'
      by_cases hshort : after.length < roundUp size blockSize
      · rw [visitBlock_truncated hsize' (by rw [hrest]; exact hshort)]
        simp only
        rw [if_pos hshort]
        exact .none
      have hle : roundUp size blockSize ≤ after.length := Nat.le_of_not_lt hshort
      have hle' : roundUp size blockSize ≤ v.input.rest.length := by
        rw [hrest]
        exact hle
      simp only
      rw [if_neg hshort]
      unfold visitBlock bufferMember
      rw [if_pos hsum, hsize']
      simp only [readPaxRecords_eq _ _ _ _ _ hle', readTextPayload_eq hle', Option.map_map, Option.map_some, hrest]
      by_cases hx : typeflag header = 120
      · rw [if_pos hx, if_pos hx, hpax]
        cases parsePaxRecords false false b.pax (after.take size) with
        | none => exact .none
        | some pax => exact .some (hrelated hle rfl rfl rfl rfl hshared hlong hentries)
      rw [if_neg hx, if_neg hx]
      by_cases hg : typeflag header = 103
      · rw [if_pos hg, if_pos hg, hshared]
        cases parsePaxRecords false true b.shared (after.take size) with
        | none => exact .none
        | some shared => exact .some (hrelated hle rfl rfl rfl hpax rfl hlong hentries)
      rw [if_neg hg, if_neg hg]
      by_cases hL : typeflag header = 76
      · rw [if_pos hL, if_pos hL, hlong]
        exact .some (hrelated hle rfl rfl rfl hpax hshared rfl hentries)
      rw [if_neg hL, if_neg hL]
      by_cases hK : typeflag header = 75
      · rw [if_pos hK, if_pos hK, hlong]
        exact .some (hrelated hle rfl rfl rfl hpax hshared rfl hentries)
      rw [if_neg hK, if_neg hK, visitEntry_collect, hpax, hshared, hlong]
      have hlength : (after.take size).length = size := by
        rw [length_take, min_eq_left (Nat.le_trans (le_roundUp size blockSize) hle)]
      rw [hlength]
      cases hprepare : prepareEntryFromHeader {} header size (typeflag header) (paxEffectiveInfo b.shared b.pax)
          (paxEffectiveInfo b.shared b.pax).numbers b.shared.metadata b.long with
      | none => exact .none
      | some r =>
        obtain ⟨entry, long⟩ := r
        have hfresh := prepareEntry_fresh hprepare
        have hmember := @collectMember_eq entry b.pax v.user v.input size index hfresh.1 hfresh.2.1 hle'
        rw [hrest] at hmember
        simp only
        generalize bufferPayload b.pax (after.take size) entry = left at hmember ⊢
        generalize collectMember b.pax size (entry.atBlock index) v.user v.input = right at hmember ⊢
        cases hmember with
        | none => exact .none
        | some hm => exact .some (hrelated hle rfl hm.1 rfl rfl rfl rfl (by simp only; rw [hm.2, hentries]))
  · unfold visitBlock
    rw [if_neg hsum, if_neg hsum]
    exact .none

theorem visitStep_front (h : ReadersAt b v) (hlong : blockSize ≤ b.rest.length) :
    ∃ w : VisitState CollectState, visitStep collectOps {} v = visitHeader collectOps {} w (b.rest.take blockSize) ∧
      w.input.rest = b.rest.drop blockSize ∧ w.pax = v.pax ∧ w.shared = v.shared ∧ w.long = v.long ∧ w.user = v.user := by
  unfold visitStep
  cases hheader : v.header with
  | some header =>
    have hfront := h.front
    obtain ⟨hlength, _⟩ := h.ahead header hheader
    rw [hheader, Option.getD_some] at hfront
    refine ⟨v, ?_, ?_, rfl, rfl, rfl, rfl⟩
    · rw [hfront, ← hlength, take_left']
      rfl
    · rw [hfront, ← hlength, drop_left']
      rfl
  | none =>
    have hfront := h.front
    rw [hheader, Option.getD_none, nil_append] at hfront
    have hread : v.input.readExact blockSize = some (some (b.rest.take blockSize), v.input.advance blockSize) := by
      unfold Input.readExact
      rw [← hfront, if_pos hlong]
    simp only [hread]
    exact ⟨_, rfl, by rw [Input.advance_rest, hfront], rfl, rfl, rfl, rfl⟩

theorem readers_together (h : ReadersAt b v) :
    Together bufferStep (visitStep collectOps {}) ReadersAt (fun r r' => r = r'.map (·.entries))
      (fun b => b.rest.length) b v := by
  have hpos : 0 < blockSize := by decide
  by_cases hshort : b.rest.length < blockSize
  · -- nothing is left of whole blocks
    have hnil : b.rest = [] := length_eq_zero_iff.mp (Nat.eq_zero_of_dvd_of_lt h.blocks hshort)
    have hfront := h.front
    rw [hnil] at hfront
    obtain ⟨hhead, hinput⟩ := append_eq_nil_iff.mp hfront.symm
    have hheader : v.header = none := by
      cases hsome : v.header with
      | none => rfl
      | some header =>
        have hlength := (h.ahead header hsome).1
        rw [hsome, Option.getD_some] at hhead
        rw [hhead] at hlength
        cases hlength
    apply Together.leave
    · unfold bufferStep
      rw [if_pos hshort]
    · simp only [visitStep, hheader, Input.readExact, hinput]
      rfl
    · simp [h.entries, finishArchive, collectOps]
  have hlong : blockSize ≤ b.rest.length := Nat.le_of_not_lt hshort
  obtain ⟨w, hstep, hrest, hpax, hshared, hlongs, huser⟩ := visitStep_front h hlong
  have hafter : (b.rest.drop blockSize).length + blockSize = b.rest.length := by
    rw [length_drop]
    omega
  have hblocks : blockSize ∣ (b.rest.drop blockSize).length := by
    rw [length_drop]
    exact Nat.dvd_sub h.blocks (Nat.dvd_refl _)
  by_cases hzero : blockIsZero (b.rest.take blockSize) = true
  · by_cases hend : b.rest.drop blockSize = []
    · -- a lone zero block at the end: the buffer reader takes one step more
      have hgo : bufferStep b = .inl { b with rest := b.rest.drop blockSize } := by
        simp only [bufferStep]
        rw [if_neg hshort, if_pos hzero, hend, if_neg (by decide)]
      apply Together.late hgo
      · simp only
        omega
      · simp only [bufferStep]
        rw [hend, if_pos (by decide)]
      · rw [hstep]
        simp only [visitHeader, Input.readExact, hrest, hend]
        rw [if_pos hzero]
        rfl
      · simp only [finishArchive, collectOps, Option.map_some, huser, h.entries]
    · have hnext : blockSize ≤ (b.rest.drop blockSize).length :=
        Nat.le_of_dvd (length_pos_iff.mpr hend) hblocks
      have hread : w.input.readExact blockSize =
          some (some ((b.rest.drop blockSize).take blockSize), w.input.advance blockSize) := by
        unfold Input.readExact
        rw [hrest, if_pos hnext]
      by_cases hlast : blockIsZero ((b.rest.drop blockSize).take blockSize) = true
      · apply Together.leave
        · simp only [bufferStep]
          rw [if_neg hshort, if_pos hzero, if_pos ⟨hnext, hlast⟩]
        · rw [hstep]
          simp only [visitHeader, hread]
          rw [if_pos hzero, if_pos hlast]
        · simp only [finishArchive, collectOps, Option.map_some, huser, h.entries]
      · have hgo : bufferStep b = .inl { b with rest := b.rest.drop blockSize } := by
          simp only [bufferStep]
          rw [if_neg hshort, if_pos hzero, if_neg (fun hboth => hlast hboth.2)]
        apply Together.go hgo
        · rw [hstep]
          simp only [visitHeader, hread]
          rw [if_pos hzero, if_neg hlast]
        · refine ⟨hblocks, ?_, ?_, ?_, ?_, ?_, ?_⟩
          · simp only [Option.getD_some, Input.advance_rest, hrest]
            exact (take_append_drop _ _).symm
          · intro header hsome
            cases hsome
            refine ⟨?_, by simpa using hlast⟩
            rw [length_take]
            omega
          · exact hpax.trans h.pax
          · exact hshared.trans h.shared
          · exact hlongs.trans h.long
          · simp only [huser, h.entries]
        · simp only
          omega
  · have hmember := @visitBlock_agrees b w (b.rest.take blockSize) (b.rest.drop blockSize)
      (w.input.totalBytesRead / blockSize - 1) hrest hblocks (hpax.trans h.pax) (hshared.trans h.shared)
      (hlongs.trans h.long) (by rw [huser, h.entries])
    have hleft : bufferStep b =
        (bufferBlock b (b.rest.take blockSize) (b.rest.drop blockSize)).elim (.inr none) .inl := by
      simp only [bufferStep]
      rewrite [if_neg hshort, if_neg hzero]
      cases bufferBlock b (b.rest.take blockSize) (b.rest.drop blockSize) with
      | none => rfl
      | some next => rfl
    have hright : visitStep collectOps {} v =
        (visitBlock collectOps {} w (b.rest.take blockSize) (w.input.totalBytesRead / blockSize - 1)).elim
          (.inr none) .inl := by
      rw [hstep]
      simp only [visitHeader]
      rewrite [if_neg hzero]
      cases visitBlock collectOps {} w (b.rest.take blockSize) (w.input.totalBytesRead / blockSize - 1) with
      | none => rfl
      | some next => rfl
    cases hb : bufferBlock b (b.rest.take blockSize) (b.rest.drop blockSize) with
    | none =>
      rw [hb] at hmember hleft
      generalize visitBlock collectOps {} w (b.rest.take blockSize) (w.input.totalBytesRead / blockSize - 1) = right
        at hmember hright
      cases hmember
      exact .leave hleft hright rfl
    | some next =>
      rw [hb] at hmember hleft
      generalize visitBlock collectOps {} w (b.rest.take blockSize) (w.input.totalBytesRead / blockSize - 1) = right
        at hmember hright
      cases hmember with
      | some hnext =>
        have hshorter := bufferStep_shorter hleft
        apply Together.go hleft hright hnext
        omega

end

/-- **Main result.** Over whole blocks the stream reader collects exactly what
the buffer reader parses, and fails exactly where it fails. -/
theorem collect_eq_parse (archive : Bytes) (h : blockSize ∣ archive.length) :
    collectArchiveStream {} archive = parseArchiveBuffer archive := by
  have hstart : ReadersAt { rest := archive } { input := { rest := archive }, user := {} } :=
    { blocks := h, front := rfl, ahead := fun _ hsome => by cases hsome
      pax := rfl, shared := rfl, long := rfl, entries := rfl }
  obtain ⟨r, r', hr, hr', hrel⟩ := loop_together (fun b : BufferState => b.rest.length)
    (fun _ _ => readers_together) hstart (Nat.lt_succ_self _) (Nat.lt_succ_self _)
  unfold collectArchiveStream visitArchiveStream parseArchiveBuffer
  rw [hr, hr', Option.join_some, Option.join_some, hrel]

/-- The header of an empty file `a` and two zero blocks -/
def emptyFileArchive : Bytes :=
  ascii "a" ++ replicate 147 0 ++ ascii "000621" ++ [0, 32] ++ ascii "0" ++ replicate 355 0
    ++ replicate 1024 0

theorem collect_eq_parse_emptyFile : collectArchiveStream {} emptyFileArchive = parseArchiveBuffer emptyFileArchive ∧
      parseArchiveBuffer emptyFileArchive = some [{ name := ascii "a" }] :=
  ⟨collect_eq_parse emptyFileArchive (by decide +kernel), by decide +kernel⟩

end Bx.Tar
