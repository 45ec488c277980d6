import Bx.Fetch.UrlMapStore

/-!
# The store is read back

Whatever a file holds, what is loaded from it is what it says, up to case and blank lines.
-/

namespace Bx.Fetch
open Kit Std List

variable {content : Bytes} {entry : EntryRef} {pairs : List EntryRef} {storeBytes : Nat}

/-! ## What is saved -/

def entryBytes (entry : EntryRef) : Nat := entry.1.length + entry.2.length

def shownEntries (displaySafe : CText → Option CText) (entries : List UrlMapEntry) : List EntryRef :=
  entries.filterMap fun entry => (displaySafe entry.url).map fun shown => (shown.1, entry.localPath.1)

structure Storable (entry : EntryRef) : Prop where
  url_zero : 0 ∉ entry.1
  path_zero : 0 ∉ entry.2
  url_nonempty : entry.1 ≠ []
  url_length : entry.1.length ≤ urlMapMaxFieldBytes
  path_length : entry.2.length ≤ urlMapMaxFieldBytes

section
variable {displaySafe : CText → Option CText}
  (hshown : ∀ url shown, displaySafe url = some shown → shown.1 ≠ [])
include hshown

theorem stageEntries_ok {i decodedBytes : Nat} {entries : List UrlMapEntry} {staged : List EntryRef}
    (h : stageEntries displaySafe i decodedBytes entries = .ok staged) :
    staged = shownEntries displaySafe entries ∧
      staged.map Prod.snd = entries.map (fun entry => entry.localPath.1) ∧ (∀ entry ∈ staged, Storable entry) ∧
      (i ≤ urlMapMaxEntries → i + staged.length ≤ urlMapMaxEntries) ∧
      (decodedBytes ≤ urlMapMaxDecodedBytes → decodedBytes + (staged.map entryBytes).sum ≤ urlMapMaxDecodedBytes) := by
  induction entries generalizing i decodedBytes staged with
  | nil =>
    cases h
    exact ⟨rfl, rfl, fun _ h => absurd h not_mem_nil, id, id⟩
  | cons entry entries ih =>
    unfold stageEntries at h
    split at h
    · rename_i urlLength pathLength hurl hpath
      obtain ⟨hpathEq, hpathLe⟩ := boundedLength_some hpath
      split at h
      · cases h
      · rename_i shown hdisplay
        split at h
        · cases h
        · rename_i publicUrlLength hpublic
          obtain ⟨hpublicEq, hpublicLe⟩ := boundedLength_some hpublic
          split at h
          · cases h
          · rename_i hreserve
            simp only [Bool.not_eq_true', Bool.not_eq_false] at hreserve
            have hroom := canReserve_iff.mp hreserve
            obtain ⟨rest, hrest, hstaged⟩ := bind_ok h
            obtain ⟨hshownRest, hpaths, hstorable, hcount, hbytes⟩ := ih hrest
            cases hstaged
            refine ⟨?_, ?_, ?_, ?_, ?_⟩
            · unfold shownEntries
              rw [filterMap_cons, hdisplay, hshownRest]
              rfl
            · rw [map_cons, map_cons, hpaths]
            · intro e he
              cases mem_cons.mp he with
              | inl h =>
                rw [h]
                exact ⟨shown.2, entry.localPath.2, hshown _ _ hdisplay, hpublicLe, hpathLe⟩
              | inr h => exact hstorable e h
            · intro _
              have hnext := hcount hroom.1
              rw [length_cons]
              omega
            · intro _
              have hnext := hbytes hroom.2
              rw [map_cons, sum_cons]
              unfold entryBytes at hnext ⊢
              dsimp only
              omega
    · cases h

end

/-! ## One line -/

def lineText (entry : EntryRef) : Bytes := hexText entry.1 ++ tab :: hexText entry.2

theorem encodeLine_eq (entry : EntryRef) : encodeLine entry = lineText entry ++ [newline] := by
  unfold encodeLine lineText
  rw [append_assoc (hexText entry.1)]
  rfl

variable {bytes : Bytes} {c : UInt8} {body : Bytes}

set_option maxRecDepth 4000 in
theorem hexByte_ne (h : c ∈ hexText bytes) : c ≠ tab ∧ c ≠ newline ∧ c ≠ carriageReturn ∧ c ≠ 0 := by
  have hall : ∀ n, n < 256 → IsHexDigit (UInt8.ofNat n) → UInt8.ofNat n ≠ tab ∧ UInt8.ofNat n ≠ newline ∧
      UInt8.ofNat n ≠ carriageReturn ∧ UInt8.ofNat n ≠ 0 := by decide
  exact forall_byte (P := fun c => IsHexDigit c → c ≠ tab ∧ c ≠ newline ∧ c ≠ carriageReturn ∧ c ≠ 0) hall c
    (isHexDigit_of_mem_hexText h)

theorem lineByte_ne (h : c ∈ lineText entry) : c ≠ newline ∧ c ≠ carriageReturn ∧ c ≠ 0 := by
  unfold lineText at h
  cases mem_append.mp h with
  | inl h => exact (hexByte_ne h).2
  | inr h =>
    cases mem_cons.mp h with
    | inl h =>
      rw [h]
      decide
    | inr h => exact (hexByte_ne h).2

theorem length_encodeLine (entry : EntryRef) : (encodeLine entry).length = 2 * entryBytes entry + 2 := by
  unfold encodeLine entryBytes
  simp only [length_append, length_hexText, length_singleton]
  omega

theorem readStoreLine_line (hbody : newline ∉ body ∧ 0 ∉ body) (start rest : Bytes) (storeBytes : Nat)
    (hline : start.length + body.length < urlMapEncodedLineMaxBytes)
    (hstore : storeBytes + body.length < urlMapStoreMaxBytes) :
    readStoreLine start storeBytes (body ++ newline :: rest) =
      .ok (start ++ body ++ [newline]) rest (storeBytes + body.length + 1) := by
  induction body generalizing start storeBytes with
  | nil =>
    rw [length_nil, add_zero] at hline hstore
    rw [nil_append, readStoreLine, if_neg (by simp [hline, hstore]), if_neg (by decide), if_pos rfl, append_nil]
    rfl
  | cons c body ih =>
    have hc : c ≠ 0 := fun h => hbody.2 (h ▸ mem_cons_self)
    have hn : c ≠ newline := fun h => hbody.1 (h ▸ mem_cons_self)
    rw [length_cons] at hline hstore
    have hroom : ¬(urlMapStoreMaxBytes ≤ storeBytes || urlMapEncodedLineMaxBytes ≤ start.length) = true := by
      simp only [Bool.or_eq_true, decide_eq_true_eq, not_or]
      omega
    have hrest := ih ⟨fun h => hbody.1 (mem_cons_of_mem _ h), fun h => hbody.2 (mem_cons_of_mem _ h)⟩
      (start ++ [c]) (storeBytes + 1) (by rw [length_append, length_singleton]; omega) (by omega)
    rw [cons_append, readStoreLine, if_neg hroom, if_neg hc, if_neg hn, hrest]
    have hstart : start ++ [c] ++ body = start ++ c :: body := by
      rw [append_assoc]
      rfl
    have hcount : storeBytes + 1 + body.length + 1 = storeBytes + (c :: body).length + 1 := by
      rw [length_cons]
      omega
    rw [hstart, hcount]

theorem hexDecode_hexText (hzero : 0 ∉ bytes) (hlength : bytes.length ≤ urlMapMaxFieldBytes) :
    hexDecode (hexText bytes) = .ok bytes := by
  have heven : (hexText bytes).length % 2 = 0 := by
    rw [length_hexText]
    omega
  have hhalf : (hexText bytes).length / 2 = bytes.length := by
    rw [length_hexText]
    omega
  unfold hexDecode
  rw [heven, hhalf, unhex_hexText]
  simp only [decide_eq_false (Nat.not_lt.mpr hlength), Bool.or_false]
  rw [if_neg (by decide), if_neg hzero]

theorem decodeFields_lineText (h : Storable entry) :
    decodeFields (lineText entry) = if entry.2 = [] then .error .invalid else .ok entry := by
  have hne : ∀ bytes : Bytes, bytes ≠ [] → hexText bytes ≠ [] := by
    intro bytes hbytes hnil
    exact hbytes (hexText_injective hnil)
  have htake : (lineText entry).takeWhile (· ≠ tab) = hexText entry.1 := by
    unfold lineText
    rw [takeWhile_append_of_pos fun c hc => decide_eq_true (hexByte_ne hc).1,
      takeWhile_cons_of_neg (by simp), append_nil]
  have hdrop : (lineText entry).dropWhile (· ≠ tab) = tab :: hexText entry.2 := by
    unfold lineText
    rw [dropWhile_append_of_pos fun c hc => decide_eq_true (hexByte_ne hc).1, dropWhile_cons_of_neg (by simp)]
  have htab : tab ∉ hexText entry.2 := fun hmem => (hexByte_ne hmem).1 rfl
  unfold decodeFields
  rw [htake, hdrop]
  dsimp only
  by_cases hpath : entry.2 = []
  · rw [if_pos hpath, hpath]
    simp
  · rw [if_neg hpath, if_neg (by simp [hne _ h.url_nonempty, hne _ hpath, htab]),
      hexDecode_hexText h.url_zero h.url_length, hexDecode_hexText h.path_zero h.path_length]
    rfl

theorem trimLine_encodeLine (entry : EntryRef) : trimLine (encodeLine entry) = lineText entry := by
  unfold trimLine
  rw [encodeLine_eq, rdropWhile_concat_pos _ _ _ (by decide)]
  apply rdropWhile_eq_self_iff.mpr
  intro hne hlast
  obtain ⟨hnewline, hreturn, _⟩ := lineByte_ne (getLast_mem hne)
  simp [hnewline, hreturn] at hlast

/-! ## What the callback gets -/

def deliverAll {σ : Type} (cb : σ → Bytes → Bytes → Option σ) (userdata : σ) : List EntryRef → σ × Bool
  | [] => (userdata, true)
  | entry :: rest =>
    match cb userdata entry.1 entry.2 with
    | none => (userdata, false)
    | some next => deliverAll cb next rest

def Delivers {σ : Type} (cb : σ → Bytes → Bytes → Option σ) (userdata : σ) (outcome : LoadState σ × Option Failure)
    (pairs : List EntryRef) : Prop :=
  outcome.1.userdata = (deliverAll cb userdata pairs).1 ∧ (outcome.2 = none ↔ (deliverAll cb userdata pairs).2 = true)

section
variable {σ : Type} {cb : σ → Bytes → Bytes → Option σ} {state : LoadState σ}

theorem loadLines_nil : loadLines cb state [] = (state, none) := by
  rw [loadLines]
  rfl

theorem loadLines_ok {line rest : Bytes} (h : readStoreLine [] state.storeBytes content = .ok line rest storeBytes) :
    loadLines cb state content =
      match loadLine cb { state with storeBytes := storeBytes } line with
      | .error failure => ({ state with storeBytes := storeBytes }, some failure)
      | .ok next => loadLines cb next rest := by
  rw [loadLines]
  split
  · rename_i heof
    simp [h] at heof
  · rename_i herror
    simp [h] at herror
  · rename_i hok
    rw [h] at hok
    cases hok
    rfl

structure Room (state : LoadState σ) (pairs : List EntryRef) : Prop where
  store : state.storeBytes + (pairs.flatMap encodeLine).length ≤ urlMapStoreMaxBytes
  entries : state.entryCount + pairs.length ≤ urlMapMaxEntries
  decoded : state.decodedBytes + (pairs.map entryBytes).sum ≤ urlMapMaxDecodedBytes

theorem loadLines_encodeLine (hentry : Storable entry)
    (hroom : Room state (entry :: pairs)) : loadLines cb state ((entry :: pairs).flatMap encodeLine) =
      if entry.2 = [] then ({ state with storeBytes := state.storeBytes + (encodeLine entry).length }, some .invalid)
      else
        match cb state.userdata entry.1 entry.2 with
        | none => ({ state with storeBytes := state.storeBytes + (encodeLine entry).length }, some .invalid)
        | some userdata =>
          loadLines cb ⟨userdata, state.storeBytes + (encodeLine entry).length, state.entryCount + 1,
            state.decodedBytes + entryBytes entry⟩ (pairs.flatMap encodeLine) := by
  have hlength : (encodeLine entry).length = (lineText entry).length + 1 := by
    rw [encodeLine_eq, length_append, length_singleton]
  have hstore := hroom.store
  rw [flatMap_cons, length_append] at hstore
  have hline : (lineText entry).length < urlMapEncodedLineMaxBytes := by
    have hbytes := length_encodeLine entry
    have hurl := hentry.url_length
    have hpath := hentry.path_length
    unfold entryBytes at hbytes
    unfold urlMapEncodedLineMaxBytes
    omega
  have hread : readStoreLine [] state.storeBytes ((entry :: pairs).flatMap encodeLine) =
      .ok (encodeLine entry) (pairs.flatMap encodeLine) (state.storeBytes + (encodeLine entry).length) := by
    have hplain : newline ∉ lineText entry ∧ 0 ∉ lineText entry :=
      ⟨fun h => (lineByte_ne h).1 rfl, fun h => (lineByte_ne h).2.2 rfl⟩
    have hone := readStoreLine_line hplain [] (pairs.flatMap encodeLine) state.storeBytes
      (by rw [length_nil, zero_add]; exact hline) (by omega)
    rw [flatMap_cons, encodeLine_eq, append_assoc, length_append, length_singleton]
    exact hone
  have hreserve : canReserve state.entryCount state.decodedBytes 1 (entry.1.length + entry.2.length) urlMapMaxEntries
      urlMapMaxDecodedBytes = true := by
    have hentries := hroom.entries
    have hdecoded := hroom.decoded
    rw [length_cons] at hentries
    rw [map_cons, sum_cons] at hdecoded
    unfold entryBytes at hdecoded
    exact canReserve_iff.mpr ⟨by omega, by omega⟩
  have htext : lineText entry ≠ [] := by
    unfold lineText
    simp
  rw [loadLines_ok hread]
  unfold loadLine
  rw [trimLine_encodeLine, if_neg htext, decodeFields_lineText hentry]
  by_cases hpath : entry.2 = []
  · rw [if_pos hpath, if_pos hpath]
    rfl
  · rw [if_neg hpath, if_neg hpath]
    simp only [bind, Except.bind, hreserve, Bool.not_true, Bool.false_eq_true, if_false]
    cases cb state.userdata entry.1 entry.2 with
    | none => rfl
    | some userdata => rfl

theorem room_next (hroom : Room state (entry :: pairs)) (userdata : σ) :
    Room ⟨userdata, state.storeBytes + (encodeLine entry).length, state.entryCount + 1,
      state.decodedBytes + entryBytes entry⟩ pairs := by
  have hstore := hroom.store
  have hentries := hroom.entries
  have hdecoded := hroom.decoded
  rw [flatMap_cons, length_append] at hstore
  rw [length_cons] at hentries
  rw [map_cons, sum_cons] at hdecoded
  exact ⟨by dsimp only; omega, by dsimp only; omega, by dsimp only; omega⟩

theorem loadLines_delivers (hstorable : ∀ entry ∈ pairs, Storable entry)
    (hpaths : ∀ entry ∈ pairs, entry.2 ≠ []) (hroom : Room state pairs) :
    Delivers cb state.userdata (loadLines cb state (pairs.flatMap encodeLine)) pairs := by
  induction pairs generalizing state with
  | nil =>
    rw [flatMap_nil, loadLines_nil]
    exact ⟨rfl, iff_of_true rfl rfl⟩
  | cons entry pairs ih =>
    rw [loadLines_encodeLine (hstorable entry mem_cons_self) hroom, if_neg (hpaths entry mem_cons_self)]
    unfold Delivers deliverAll
    cases cb state.userdata entry.1 entry.2 with
    | none => exact ⟨rfl, iff_of_false (fun h => nomatch h) Bool.false_ne_true⟩
    | some userdata =>
      have hrest : ∀ e ∈ pairs, e ∈ entry :: pairs := fun e he => mem_cons_of_mem _ he
      exact ih (fun e he => hstorable e (hrest e he)) (fun e he => hpaths e (hrest e he)) (room_next hroom userdata)

theorem loadLines_emptyPath (hstorable : ∀ entry ∈ pairs, Storable entry)
    (hempty : ∃ entry ∈ pairs, entry.2 = []) (hroom : Room state pairs) :
    (loadLines cb state (pairs.flatMap encodeLine)).2 ≠ none := by
  induction pairs generalizing state with
  | nil =>
    obtain ⟨entry, hentry, _⟩ := hempty
    cases hentry
  | cons entry pairs ih =>
    rw [loadLines_encodeLine (hstorable entry mem_cons_self) hroom]
    by_cases hpath : entry.2 = []
    · rw [if_pos hpath]
      exact fun h => nomatch h
    · rw [if_neg hpath]
      cases cb state.userdata entry.1 entry.2 with
      | none => exact fun h => nomatch h
      | some userdata =>
        obtain ⟨other, hother, hnil⟩ := hempty
        apply ih (fun e he => hstorable e (mem_cons_of_mem _ he)) _ (room_next hroom userdata)
        cases mem_cons.mp hother with
        | inl h => exact absurd (h ▸ hnil) hpath
        | inr h => exact ⟨other, h, hnil⟩

end

/-! ## What a file says -/

/-- The lines of a file with small letters, without their terminators and without the blank ones -/
def textLines (content : Bytes) : List Bytes :=
  (((content.splitOn newline).map trimLine).filter (· ≠ [])).map fun line => line.map lowerHex

theorem textLines_nil : textLines [] = [] := by decide

def textLine (line : Bytes) : List Bytes := if trimLine line = [] then [] else [(trimLine line).map lowerHex]

theorem textLines_cons (hbody : newline ∉ body) (rest : Bytes) :
    textLines (body ++ newline :: rest) = textLine (body ++ [newline]) ++ textLines rest := by
  have htrim : trimLine (body ++ [newline]) = trimLine body := rdropWhile_concat_pos _ _ _ (by decide)
  unfold textLines textLine
  rw [splitOn_append_cons_self_of_not_mem hbody, map_cons, htrim]
  by_cases hblank : trimLine body = []
  · rw [if_pos hblank, filter_cons_of_neg (by simp [hblank])]
    rfl
  · rw [if_neg hblank, filter_cons_of_pos (by simp [hblank])]
    rfl

theorem textLines_single (h : newline ∉ content) : textLines content = textLine content := by
  unfold textLines textLine
  rw [splitOn_eq_singleton h, map_singleton]
  by_cases hblank : trimLine content = []
  · rw [if_pos hblank, filter_cons_of_neg (by simp [hblank])]
    rfl
  · rw [if_neg hblank, filter_cons_of_pos (by simp [hblank])]
    rfl

theorem hexDecode_ok {encoded : Bytes} (h : hexDecode encoded = .ok bytes) : hexText bytes = encoded.map lowerHex := by
  unfold hexDecode at h
  split at h
  · cases h
  · split at h
    · cases h
    · rename_i decoded hdecoded
      split at h
      · cases h
      · cases h
        exact hexText_of_unhex hdecoded

variable {line : Bytes}

theorem decodeFields_ok (h : decodeFields line = .ok entry) : lineText entry = line.map lowerHex := by
  have hsplit : line = line.takeWhile (· ≠ tab) ++ line.dropWhile (· ≠ tab) := takeWhile_append_dropWhile.symm
  have htab : lowerHex tab = tab := by decide
  unfold decodeFields at h
  split at h
  · cases h
  · rename_i c pathHex hdrop
    have hc : c = tab := by
      have hhead := head?_dropWhile_not (fun c => decide (c ≠ tab)) line
      rw [hdrop] at hhead
      simpa using hhead
    dsimp only at h
    split at h
    · cases h
    · obtain ⟨url, hurl, hmore⟩ := bind_ok h
      obtain ⟨localPath, hpath, hentry⟩ := bind_ok hmore
      cases hentry
      unfold lineText
      dsimp only
      rw [hexDecode_ok hurl, hexDecode_ok hpath]
      conv_rhs => rw [hsplit, hdrop, hc, map_append, map_cons, htab]

section
variable {σ : Type} {cb : σ → Bytes → Bytes → Option σ}

structure Within (state : LoadState σ) : Prop where
  store : state.storeBytes ≤ urlMapStoreMaxBytes
  entries : state.entryCount ≤ urlMapMaxEntries
  decoded : state.decodedBytes ≤ urlMapMaxDecodedBytes

theorem loadLine_ok {state next : LoadState σ} (h : loadLine cb state line = .ok next) (hwithin : Within state) :
    Within next ∧ next.storeBytes = state.storeBytes ∧ ∃ pairs, textLine line = pairs.map lineText ∧
      next.entryCount = state.entryCount + pairs.length ∧
      deliverAll cb state.userdata pairs = (next.userdata, true) := by
  unfold loadLine at h
  dsimp only at h
  unfold textLine
  by_cases hblank : trimLine line = []
  · rw [if_pos hblank] at h ⊢
    cases h
    exact ⟨hwithin, rfl, [], rfl, rfl, rfl⟩
  · rw [if_neg hblank] at h ⊢
    obtain ⟨entry, hfields, hrest⟩ := bind_ok h
    split at hrest
    · cases hrest
    · rename_i hreserve
      simp only [Bool.not_eq_true', Bool.not_eq_false] at hreserve
      obtain ⟨hentries, hdecoded⟩ := canReserve_iff.mp hreserve
      split at hrest
      · cases hrest
      · rename_i userdata hcb
        cases hrest
        refine ⟨⟨hwithin.store, hentries, hdecoded⟩, rfl, [entry], ?_, rfl, ?_⟩
        · rw [map_singleton, decodeFields_ok hfields]
        · unfold deliverAll
          rw [hcb]
          rfl

theorem deliverAll_append {userdata : σ} {next : σ}
    (h : deliverAll cb userdata pairs = (next, true)) (more : List EntryRef) :
    deliverAll cb userdata (pairs ++ more) = deliverAll cb next more := by
  induction pairs generalizing userdata with
  | nil =>
    cases h
    rfl
  | cons entry pairs ih =>
    unfold deliverAll at h
    rw [cons_append, deliverAll]
    cases hcb : cb userdata entry.1 entry.2 with
    | none => simp [hcb] at h
    | some between =>
      rw [hcb] at h
      exact ih h

variable {start : Bytes}

theorem readStoreLine_eof (h : readStoreLine start storeBytes content = .eof) : content = [] := by
  induction content generalizing start storeBytes with
  | nil => rfl
  | cons byte content ih =>
    unfold readStoreLine at h
    split at h
    · cases h
    · split at h
      · cases h
      · split at h
        · cases h
        · have hrest := ih h
          rw [hrest, readStoreLine, if_neg (by simp)] at h
          cases h

theorem readStoreLine_error {storeBytes' : Nat} {failure : Failure}
    (h : readStoreLine start storeBytes content = .error failure storeBytes')
    (hle : storeBytes ≤ urlMapStoreMaxBytes) : storeBytes' ≤ urlMapStoreMaxBytes := by
  induction content generalizing start storeBytes with
  | nil =>
    unfold readStoreLine at h
    split at h <;> cases h
  | cons byte content ih =>
    unfold readStoreLine at h
    split at h
    · cases h
      exact hle
    · rename_i hroom
      simp only [Bool.or_eq_true, decide_eq_true_eq, not_or] at hroom
      split at h
      · cases h
        omega
      · split at h
        · cases h
        · exact ih h (by omega)

theorem loadLines_spec (state : LoadState σ) (content : Bytes) (hwithin : Within state) :
    Within (loadLines cb state content).1 ∧ ((loadLines cb state content).2 = none → ∃ pairs,
      textLines content = pairs.map lineText ∧
      (loadLines cb state content).1.storeBytes = state.storeBytes + content.length ∧
      (loadLines cb state content).1.entryCount = state.entryCount + pairs.length ∧
      deliverAll cb state.userdata pairs = ((loadLines cb state content).1.userdata, true)) := by
  induction hn : content.length using Nat.strong_induction_on generalizing state content with
  | _ n ih =>
    cases hread : readStoreLine [] state.storeBytes content with
    | eof =>
      have hempty := readStoreLine_eof hread
      have hzero : n = 0 := by rw [← hn, hempty]; rfl
      rw [hempty, hzero, loadLines_nil]
      exact ⟨hwithin, fun _ => ⟨[], textLines_nil, rfl, rfl, rfl⟩⟩
    | error failure storeBytes =>
      have hout : loadLines cb state content = ({ state with storeBytes := storeBytes }, some failure) := by
        rw [loadLines]
        split <;> rename_i hcase <;> rw [hread] at hcase <;> cases hcase
        rfl
      rw [hout]
      exact ⟨⟨readStoreLine_error hread hwithin.store, hwithin.entries, hwithin.decoded⟩, by intro h; cases h⟩
    | ok line rest storeBytes =>
      obtain ⟨hbytes, hcontent⟩ := readStoreLine_ok hread
      have hbetween : Within { state with storeBytes := storeBytes } :=
        ⟨hbytes hwithin.store, hwithin.entries, hwithin.decoded⟩
      rw [loadLines_ok hread]
      cases hline : loadLine cb { state with storeBytes := storeBytes } line with
      | error failure => exact ⟨hbetween, by intro h; cases h⟩
      | ok next =>
        dsimp only
        obtain ⟨hnext, hstore, pairs, htext, hcount, hdeliver⟩ := loadLine_ok hline hbetween
        obtain ⟨hwithin', hrest⟩ := ih rest.length (hn ▸ readStoreLine_rest hread) next rest hnext rfl
        refine ⟨hwithin', ?_⟩
        intro hdone
        obtain ⟨more, hmoreText, hmoreStore, hmoreCount, hmoreDeliver⟩ := hrest hdone
        have hwhole : textLines content = textLine line ++ textLines rest ∧
            storeBytes + rest.length = state.storeBytes + content.length := by
          cases hcontent with
          | inl h =>
            obtain ⟨body, hsplit, hlineEq, hbody, hstoreEq⟩ := h
            rw [hsplit, textLines_cons hbody, hlineEq, nil_append, length_append, length_cons, hstoreEq]
            exact ⟨rfl, by omega⟩
          | inr h =>
            obtain ⟨hrestNil, hnewline, hlineEq, _, hstoreEq⟩ := h
            rw [hrestNil, textLines_nil, append_nil, textLines_single hnewline, hlineEq, hstoreEq]
            exact ⟨rfl, rfl⟩
        refine ⟨pairs ++ more, ?_, ?_, ?_, ?_⟩
        · rw [hwhole.1, htext, hmoreText, map_append]
        · rw [hmoreStore, hstore, ← hn]
          exact hwhole.2
        · rw [hmoreCount, hcount, length_append, add_assoc]
        · rw [deliverAll_append hdeliver]
          exact hmoreDeliver

end

/-! ## Round trip -/

instance transCmp_entryRefCmp : TransCmp entryRefCmp :=
  inferInstanceAs (TransCmp (compareLex (compareOn Prod.fst) (compareOn Prod.snd)))

def savedPairs (displaySafe : CText → Option CText) (entries : List UrlMapEntry) : List EntryRef :=
  sortBy entryRefCmp (shownEntries displaySafe entries)

theorem urlMapStoreSave_ok {displaySafe : CText → Option CText}
    (hshown : ∀ url shown, displaySafe url = some shown → shown.1 ≠ []) {entries : List UrlMapEntry}
    {file : Option Bytes} (h : urlMapStoreSave displaySafe entries = .ok file) :
    file.getD [] = (savedPairs displaySafe entries).flatMap encodeLine ∧ (file = none ↔ entries = []) ∧
      (∀ entry ∈ savedPairs displaySafe entries, Storable entry) ∧
      ((savedPairs displaySafe entries).map Prod.snd).Perm (entries.map fun entry => entry.localPath.1) ∧
      entries.length ≤ urlMapMaxEntries ∧
      ((savedPairs displaySafe entries).map entryBytes).sum ≤ urlMapMaxDecodedBytes := by
  unfold urlMapStoreSave at h
  split at h
  · cases h
  · split at h
    · cases h
    · rename_i hentries _ staged hstaged
      obtain ⟨hpairs, hpaths, hstorable, _, hdecoded⟩ := stageEntries_ok hshown hstaged
      have hperm : (savedPairs displaySafe entries).Perm staged := by
        unfold savedPairs
        rw [← hpairs]
        exact sortBy_perm staged
      have hsaved : sortBy entryRefCmp staged = savedPairs displaySafe entries := by
        unfold savedPairs
        rw [hpairs]
      have hsum : ((savedPairs displaySafe entries).map entryBytes).sum ≤ urlMapMaxDecodedBytes := by
        rw [(hperm.map entryBytes).sum_nat]
        have hall := hdecoded (Nat.zero_le _)
        omega
      dsimp only at h
      rw [hsaved] at h
      refine ⟨?_, ?_, fun e he => hstorable e (hperm.mem_iff.mp he), hpaths ▸ hperm.map Prod.snd,
        Nat.le_of_not_lt hentries, hsum⟩
      · split at h
        · rename_i hnil
          cases h
          have hnone : savedPairs displaySafe entries = [] := by
            rw [hnil] at hpaths
            exact perm_nil.mp (map_eq_nil_iff.mp hpaths ▸ hperm)
          rw [hnone]
          rfl
        · cases h
          rfl
      · split at h
        · rename_i hnil
          cases h
          exact iff_of_true rfl hnil
        · rename_i hne
          cases h
          exact iff_of_false (fun h => nomatch h) hne

theorem length_flatMap_encodeLine (pairs : List EntryRef) :
    (pairs.flatMap encodeLine).length = 2 * (pairs.map entryBytes).sum + 2 * pairs.length := by
  induction pairs with
  | nil => rfl
  | cons entry pairs ih =>
    rw [flatMap_cons, length_append, length_encodeLine, ih, map_cons, sum_cons, length_cons]
    omega

/-- A saved file is loaded as the pairs that were saved, whatever the callback makes of them. -/
def ReadsBack (displaySafe : CText → Option CText) (entries : List UrlMapEntry) (file : Option Bytes) : Prop :=
  ∀ (σ : Type) (cb : σ → Bytes → Bytes → Option σ) (userdata : σ),
    Delivers cb userdata (urlMapStoreLoad cb userdata file) (savedPairs displaySafe entries)

section
variable {displaySafe : CText → Option CText}
  (hshown : ∀ url shown, displaySafe url = some shown → shown.1 ≠ []) {entries : List UrlMapEntry}
  {file : Option Bytes} (h : urlMapStoreSave displaySafe entries = .ok file)
include hshown h

theorem saved_within_limits : (file.getD []).length ≤ urlMapStoreMaxBytes ∧
    ∀ entry ∈ savedPairs displaySafe entries, (encodeLine entry).length ≤ urlMapEncodedLineMaxBytes := by
  obtain ⟨hfile, _, hstorable, hpaths, hcount, hdecoded⟩ := urlMapStoreSave_ok hshown h
  have hlength : (savedPairs displaySafe entries).length = entries.length := by
    have hmaps := hpaths.length_eq
    rwa [length_map, length_map] at hmaps
  refine ⟨?_, ?_⟩
  · rw [hfile, length_flatMap_encodeLine]
    unfold urlMapStoreMaxBytes
    omega
  · intro entry hentry
    have hurl := (hstorable entry hentry).url_length
    have hpath := (hstorable entry hentry).path_length
    rw [length_encodeLine]
    unfold entryBytes urlMapEncodedLineMaxBytes
    omega

theorem load_saved {σ : Type} (cb : σ → Bytes → Bytes → Option σ) (userdata : σ) : urlMapStoreLoad cb userdata file =
      loadLines cb ⟨userdata, 0, 0, 0⟩ ((savedPairs displaySafe entries).flatMap encodeLine) := by
  obtain ⟨hfile, _⟩ := urlMapStoreSave_ok hshown h
  rw [← hfile]
  cases file with
  | none => exact loadLines_nil.symm
  | some content => rfl

theorem readsBack_iff : ReadsBack displaySafe entries file ↔ ∀ entry ∈ entries, entry.localPath.1 ≠ [] := by
  obtain ⟨hfile, _, hstorable, hpaths, hcount, hdecoded⟩ := urlMapStoreSave_ok hshown h
  obtain ⟨hbytes, _⟩ := saved_within_limits hshown h
  have hlength : (savedPairs displaySafe entries).length = entries.length := by
    have hmaps := hpaths.length_eq
    rwa [length_map, length_map] at hmaps
  have hroom : ∀ (σ : Type) (userdata : σ), Room (⟨userdata, 0, 0, 0⟩ : LoadState σ) (savedPairs displaySafe entries) := by
    intro σ userdata
    refine ⟨?_, ?_, ?_⟩
    · rw [← hfile, zero_add]
      exact hbytes
    · rw [hlength, zero_add]
      exact hcount
    · rw [zero_add]
      exact hdecoded
  refine ⟨?_, ?_⟩
  · intro hreads entry hentry hempty
    have hmem : entry.localPath.1 ∈ (savedPairs displaySafe entries).map Prod.snd :=
      hpaths.mem_iff.mpr (mem_map_of_mem hentry)
    obtain ⟨pair, hpair, hsnd⟩ := mem_map.mp hmem
    -- A callback that takes everything would get all pairs, but the line with the empty path is refused.
    have hdelivered := (hreads Unit (fun _ _ _ => some ()) ()).2
    have htaken : ∀ pairs : List EntryRef, (deliverAll (fun _ _ _ => some ()) () pairs).2 = true := by
      intro pairs
      induction pairs with
      | nil => rfl
      | cons _ pairs ih => exact ih
    rw [load_saved hshown h] at hdelivered
    exact loadLines_emptyPath hstorable ⟨pair, hpair, hsnd.trans hempty⟩ (hroom Unit ()) (hdelivered.mpr (htaken _))
  · intro hnonempty σ cb userdata
    rw [load_saved hshown h]
    apply loadLines_delivers hstorable _ (hroom σ userdata)
    intro pair hpair hempty
    have hmem : pair.2 ∈ entries.map fun entry => entry.localPath.1 := hpaths.mem_iff.mp (mem_map_of_mem hpair)
    obtain ⟨entry, hentry, heq⟩ := mem_map.mp hmem
    exact hnonempty entry hentry (heq.trans hempty)

end

/-- **Main result.** A saved file is read back if and only if no path is empty:
the pairs come once each, in sorted order, and always fit the limits of loading.
From any content the loading stays within its limits, and where it does not
fail, what it delivers is what the lines of the content say. -/
theorem urlMapStore_readsBack_iff (displaySafe : CText → Option CText)
    (hshown : ∀ url shown, displaySafe url = some shown → shown.1 ≠ []) (entries : List UrlMapEntry)
    (file : Option Bytes) (h : urlMapStoreSave displaySafe entries = .ok file) {σ : Type}
    (cb : σ → Bytes → Bytes → Option σ) (userdata : σ) (content : Bytes) :
    ((ReadsBack displaySafe entries file ↔ ∀ entry ∈ entries, entry.localPath.1 ≠ []) ∧
      (savedPairs displaySafe entries).Perm (shownEntries displaySafe entries) ∧
      (savedPairs displaySafe entries).Pairwise (fun a b => (entryRefCmp a b).isLE = true) ∧
      (file.getD []).length ≤ urlMapStoreMaxBytes ∧
      ∀ entry ∈ savedPairs displaySafe entries, (encodeLine entry).length ≤ urlMapEncodedLineMaxBytes) ∧
    (urlMapStoreLoad cb userdata (some content)).1.storeBytes ≤ urlMapStoreMaxBytes ∧
    (urlMapStoreLoad cb userdata (some content)).1.entryCount ≤ urlMapMaxEntries ∧
    ((urlMapStoreLoad cb userdata (some content)).2 = none → ∃ pairs,
      textLines content = pairs.map lineText ∧
      deliverAll cb userdata pairs = ((urlMapStoreLoad cb userdata (some content)).1.userdata, true)) := by
  refine ⟨?_, ?_⟩
  · obtain ⟨hbytes, hlines⟩ := saved_within_limits hshown h
    exact ⟨readsBack_iff hshown h, sortBy_perm _, pairwise_sortBy _, hbytes, hlines⟩
  · have hwithin : Within (⟨userdata, 0, 0, 0⟩ : LoadState σ) := ⟨Nat.zero_le _, Nat.zero_le _, Nat.zero_le _⟩
    obtain ⟨hout, hdone⟩ := @loadLines_spec σ cb ⟨userdata, 0, 0, 0⟩ content hwithin
    refine ⟨hout.store, hout.entries, ?_⟩
    intro hnone
    obtain ⟨pairs, htext, _, _, hdeliver⟩ := hdone hnone
    exact ⟨pairs, htext, hdeliver⟩

def shownAsIs (url : CText) : Option CText := if url.1 = [] then none else some url

theorem shownAsIs_ne_nil (url shown : CText) (h : shownAsIs url = some shown) : shown.1 ≠ [] := by
  unfold shownAsIs at h
  split at h
  · cases h
  · rename_i hne
    exact Option.some.inj h ▸ hne

def entryU (localPath : CText) : UrlMapEntry := ⟨⟨ascii "u", by decide⟩, localPath⟩

theorem urlMapStoreSave_entryU (localPath : CText) (h : localPath.1.length ≤ 1) :
    ∃ file, urlMapStoreSave shownAsIs [entryU localPath] = .ok file := by
  have hbounded : boundedLength localPath.1 urlMapMaxFieldBytes = some localPath.1.length := by
    unfold boundedLength
    rw [if_neg]
    have hmax : 1 ≤ urlMapMaxFieldBytes := by decide
    omega
  have hreserve : canReserve 0 0 1 (1 + localPath.1.length) urlMapMaxEntries urlMapMaxDecodedBytes = true := by
    have hentries : 1 ≤ urlMapMaxEntries := by decide
    have hdecoded : 2 ≤ urlMapMaxDecodedBytes := by decide
    exact canReserve_iff.mpr ⟨by omega, by omega⟩
  have hstaged : stageEntries shownAsIs 0 0 [entryU localPath] = .ok [(ascii "u", localPath.1)] := by
    have hurl : boundedLength (ascii "u") urlMapMaxFieldBytes = some 1 := by decide
    have hne : ascii "u" ≠ [] := by decide
    have hshow : shownAsIs (entryU localPath).url = some (entryU localPath).url := if_neg hne
    unfold stageEntries
    dsimp only [entryU] at hshow ⊢
    rw [hurl, hbounded, hshow]
    dsimp only
    rw [hurl]
    dsimp only
    rw [hreserve]
    rfl
  have hcount : ¬urlMapMaxEntries < 1 := by decide
  unfold urlMapStoreSave
  rw [length_singleton, if_neg hcount, hstaged]
  exact ⟨_, rfl⟩

/-- An entry without a path is saved, and the file cannot be loaded. -/
theorem urlMapStore_emptyPath : ∃ file, urlMapStoreSave shownAsIs [entryU ⟨[], not_mem_nil⟩] = .ok file ∧
    ¬ReadsBack shownAsIs [entryU ⟨[], not_mem_nil⟩] file := by
  obtain ⟨file, hsave⟩ := urlMapStoreSave_entryU ⟨[], not_mem_nil⟩ (Nat.zero_le _)
  refine ⟨file, hsave, ?_⟩
  rw [readsBack_iff shownAsIs_ne_nil hsave]
  intro hall
  exact hall _ mem_cons_self rfl

theorem urlMapStore_readsBack_one : ∃ file, urlMapStoreSave shownAsIs [entryU ⟨ascii "p", by decide⟩] = .ok file ∧
      ReadsBack shownAsIs [entryU ⟨ascii "p", by decide⟩] file := by
  obtain ⟨file, hsave⟩ := urlMapStoreSave_entryU ⟨ascii "p", by decide⟩ (by decide)
  refine ⟨file, hsave, ?_⟩
  have hall := urlMapStore_readsBack_iff shownAsIs shownAsIs_ne_nil _ file hsave (fun _ _ _ => some ()) () []
  apply hall.1.1.mpr
  intro entry hentry
  rw [mem_singleton.mp hentry]
  decide

end Bx.Fetch
