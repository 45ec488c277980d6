import Bx.Fetch.Publication
import Bx.Kit.Comparison
import Bx.Kit.Hex
import Mathlib.Data.List.DropRight

/-!
# The URL map store

The published URLs are kept in a file with a line for each, the URL and its
path in hexadecimal with a tab between. The file is read back a byte at a time,
and what is too long or malformed ends the reading.
-/

namespace Bx.Fetch
open Kit List

/-! ## Limits -/

def urlMapStoreMaxBytes : Nat := urlMapMaxDecodedBytes * 2 + urlMapMaxEntries * 3

def urlMapEncodedLineMaxBytes : Nat := urlMapMaxFieldBytes * 4 + 3

/-! ## Saving -/

structure UrlMapEntry where
  url : CText
  localPath : CText

def newline : UInt8 := 10

def carriageReturn : UInt8 := 13

def tab : UInt8 := 9

abbrev EntryRef := Bytes × Bytes

def entryRefCmp (lhs rhs : EntryRef) : Ordering := (compare lhs.1 rhs.1).then (compare lhs.2 rhs.2)

/-- The entries that are saved; `displaySafe` is the URL as it is shown. -/
def stageEntries (displaySafe : CText → Option CText) (i decodedBytes : Nat) :
    List UrlMapEntry → Except Failure (List EntryRef)
  | [] => .ok []
  | entry :: rest =>
    match boundedLength entry.url.1 urlMapMaxFieldBytes, boundedLength entry.localPath.1 urlMapMaxFieldBytes with
    | some _, some pathLength =>
      match displaySafe entry.url with
      | none => .error .invalid
      | some shown =>
        match boundedLength shown.1 urlMapMaxFieldBytes with
        | none => .error .exhausted
        | some publicUrlLength =>
          if !canReserve i decodedBytes 1 (publicUrlLength + pathLength) urlMapMaxEntries urlMapMaxDecodedBytes then
            .error .exhausted
          else do
            let staged ← stageEntries displaySafe (i + 1) (decodedBytes + (publicUrlLength + pathLength)) rest
            return (shown.1, entry.localPath.1) :: staged
    | _, _ => .error .exhausted

def encodeLine (entry : EntryRef) : Bytes := hexText entry.1 ++ [tab] ++ hexText entry.2 ++ [newline]

def urlMapStoreSave (displaySafe : CText → Option CText) (entries : List UrlMapEntry) : Except Failure (Option Bytes) :=
  if urlMapMaxEntries < entries.length then .error .exhausted
  else
    match stageEntries displaySafe 0 0 entries with
    | .error failure => .error failure
    | .ok staged =>
      let sorted := sortBy entryRefCmp staged
      if entries = [] then .ok none else .ok (some (sorted.flatMap encodeLine))

/-! ## Loading -/

inductive StoreLineResult
  | ok (line rest : Bytes) (storeBytes : Nat)
  | eof
  | error (failure : Failure) (storeBytes : Nat)

def readStoreLine (line : Bytes) (storeBytes : Nat) : Bytes → StoreLineResult
  | [] => if line = [] then .eof else .ok line [] storeBytes
  | byte :: rest =>
    if urlMapStoreMaxBytes ≤ storeBytes || urlMapEncodedLineMaxBytes ≤ line.length then .error .exhausted storeBytes
    else if byte = 0 then .error .invalid (storeBytes + 1)
    else if byte = newline then .ok (line ++ [byte]) rest (storeBytes + 1)
    else readStoreLine (line ++ [byte]) (storeBytes + 1) rest

def hexDecode (encoded : Bytes) : Except Failure Bytes :=
  if encoded.length % 2 ≠ 0 || urlMapMaxFieldBytes < encoded.length / 2 then
    .error (if urlMapMaxFieldBytes < encoded.length / 2 then .exhausted else .invalid)
  else
    match unhex encoded with
    | none => .error .invalid
    | some decoded => if 0 ∈ decoded then .error .invalid else .ok decoded

def trimLine (line : Bytes) : Bytes := line.rdropWhile fun c => c = newline || c = carriageReturn

def decodeFields (line : Bytes) : Except Failure EntryRef :=
  let urlHex := line.takeWhile (· ≠ tab)
  match line.dropWhile (· ≠ tab) with
  | [] => .error .invalid
  | _ :: pathHex =>
    if urlHex = [] || pathHex = [] || tab ∈ pathHex then .error .invalid
    else do
      let url ← hexDecode urlHex
      let localPath ← hexDecode pathHex
      return (url, localPath)

structure LoadState (σ : Type) where
  userdata : σ
  storeBytes : Nat
  entryCount : Nat
  decodedBytes : Nat

/-- One line that was read; `cb` is none where the callback fails. -/
def loadLine {σ : Type} (cb : σ → Bytes → Bytes → Option σ) (state : LoadState σ) (line : Bytes) :
    Except Failure (LoadState σ) :=
  let text := trimLine line
  if text = [] then .ok state
  else do
    let (url, localPath) ← decodeFields text
    if !canReserve state.entryCount state.decodedBytes 1 (url.length + localPath.length) urlMapMaxEntries
        urlMapMaxDecodedBytes then .error .exhausted
    else
      match cb state.userdata url localPath with
      | none => .error .invalid
      | some userdata =>
        .ok { state with
          userdata := userdata
          entryCount := state.entryCount + 1
          decodedBytes := state.decodedBytes + (url.length + localPath.length) }

variable {storeBytes storeBytes' : Nat}

theorem readStoreLine_ok {start content line rest : Bytes}
    (h : readStoreLine start storeBytes content = .ok line rest storeBytes') :
    (storeBytes ≤ urlMapStoreMaxBytes → storeBytes' ≤ urlMapStoreMaxBytes) ∧
      ((∃ body, content = body ++ newline :: rest ∧ line = start ++ body ++ [newline] ∧ newline ∉ body ∧
          storeBytes' = storeBytes + body.length + 1) ∨
        rest = [] ∧ newline ∉ content ∧ line = start ++ content ∧ line ≠ [] ∧
          storeBytes' = storeBytes + content.length) := by
  induction content generalizing start storeBytes with
  | nil =>
    unfold readStoreLine at h
    split at h
    · cases h
    · rename_i hstart
      cases h
      exact ⟨id, Or.inr ⟨rfl, not_mem_nil, (append_nil _).symm, hstart, rfl⟩⟩
  | cons byte content ih =>
    unfold readStoreLine at h
    split at h
    · cases h
    · rename_i hroom
      split at h
      · cases h
      · split at h
        · rename_i hnewline
          cases h
          rw [hnewline]
          refine ⟨?_, Or.inl ⟨[], rfl, ?_, not_mem_nil, rfl⟩⟩
          · intro _
            simp only [Bool.or_eq_true, decide_eq_true_eq, not_or] at hroom
            omega
          · rw [append_nil]
        · rename_i hnewline
          obtain ⟨hbytes, hcases⟩ := ih h
          refine ⟨?_, ?_⟩
          · intro _
            apply hbytes
            simp only [Bool.or_eq_true, decide_eq_true_eq, not_or] at hroom
            omega
          · cases hcases with
            | inl hline =>
              obtain ⟨body, hcontent, hline, hbody, hcount⟩ := hline
              refine Or.inl ⟨byte :: body, ?_, ?_, ?_, ?_⟩
              · rw [hcontent]
                rfl
              · rw [hline, append_assoc start]
                rfl
              · exact not_mem_cons_of_ne_of_not_mem (Ne.symm hnewline) hbody
              · rw [hcount, length_cons]
                omega
            | inr hlast =>
              obtain ⟨hrest, hcontent, hline, hne, hcount⟩ := hlast
              refine Or.inr ⟨hrest, ?_, ?_, hne, ?_⟩
              · exact not_mem_cons_of_ne_of_not_mem (Ne.symm hnewline) hcontent
              · rw [hline, append_assoc]
                rfl
              · rw [hcount, length_cons]
                omega

theorem readStoreLine_rest {content line rest : Bytes}
    (h : readStoreLine [] storeBytes content = .ok line rest storeBytes') : rest.length < content.length := by
  cases (readStoreLine_ok h).2 with
  | inl hline =>
    obtain ⟨body, hcontent, _⟩ := hline
    rw [hcontent, length_append, length_cons]
    omega
  | inr hlast =>
    obtain ⟨hrest, _, hline, hne, _⟩ := hlast
    rw [nil_append] at hline
    rw [hrest]
    exact length_pos_iff.mpr (hline ▸ hne)

def loadLines {σ : Type} (cb : σ → Bytes → Bytes → Option σ) (state : LoadState σ) (content : Bytes) :
    LoadState σ × Option Failure :=
  match _hline : readStoreLine [] state.storeBytes content with
  | .eof => (state, none)
  | .error failure storeBytes => ({ state with storeBytes := storeBytes }, some failure)
  | .ok line rest storeBytes =>
    match loadLine cb { state with storeBytes := storeBytes } line with
    | .error failure => ({ state with storeBytes := storeBytes }, some failure)
    | .ok next => loadLines cb next rest
termination_by content.length
decreasing_by exact readStoreLine_rest _hline

def urlMapStoreLoad {σ : Type} (cb : σ → Bytes → Bytes → Option σ) (userdata : σ) (file : Option Bytes) :
    LoadState σ × Option Failure :=
  match file with
  | none => (⟨userdata, 0, 0, 0⟩, none)
  | some content => loadLines cb ⟨userdata, 0, 0, 0⟩ content

end Bx.Fetch
