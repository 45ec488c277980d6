import Bx.Archive.Source

/-!
# Name lists

`bx_archive_name_list_read_fd_bounded` of `src/applets/archive/archive_common.c`. Each read is searched for separators,
and what stands before one is put after what earlier reads left of the name. The stream can be read.
-/

namespace Bx.Archive

open Bx.Kit List

inductive NameListError
  | limit
  | nulByte
  deriving DecidableEq

structure NameListOptions where
  separator : UInt8
  countLimit : Nat
  inputByteLimit : Nat

structure NameScan where
  list : List Bytes
  name : Bytes := []

structure NameReadState where
  source : Source
  remaining : Nat
  scan : NameScan

section
variable (o : NameListOptions)

def takeFragment (fragment : Bytes) (s : NameScan) : Except NameListError NameScan :=
  if fragment = [] then .ok s
  else if o.countLimit ≤ s.list.length then .error .limit
  else if o.separator ≠ 0 ∧ fragment.contains 0 = true then .error .nulByte
  else .ok { s with name := s.name ++ fragment }

def endName (s : NameScan) : NameScan :=
  if s.name = [] then s else { list := s.list ++ [cText s.name], name := [] }

/-- `fragment` is what stands after the last separator. -/
def scanChunk (atEof : Bool) (fragment : Bytes) : Bytes → NameScan → Except NameListError NameScan
  | [], s => (takeFragment o fragment s).map fun s => if atEof then endName s else s
  | c :: chunk, s =>
    if c = o.separator then
      match takeFragment o fragment s with
      | .error error => .error error
      | .ok s => scanChunk atEof [] chunk (endName s)
    else scanChunk atEof (fragment ++ [c]) chunk s

def nameReadRequest (remaining : Nat) : Nat := if remaining < 8192 then remaining + 1 else 8192

def nameReadStep (s : NameReadState) : NameReadState ⊕ Except NameListError (List Bytes) :=
  let (chunk, source) := s.source.read (nameReadRequest s.remaining)
  if s.remaining < chunk.length then .inr (.error .limit)
  else
    match scanChunk o chunk.isEmpty [] chunk s.scan with
    | .error error => .inr (.error error)
    | .ok scan =>
      if chunk = [] then .inr (.ok scan.list)
      else .inl { source := source, remaining := s.remaining - chunk.length, scan := scan }

def nameListReadFdBounded (source : Source) (list : List Bytes) : Option (Except NameListError (List Bytes)) :=
  if o.countLimit < list.length then some (.error .limit)
  else
    loop (nameReadStep o) (source.rest.length + 1)
      { source := source, remaining := o.inputByteLimit, scan := { list := list } }

end

def streamNames (separator : UInt8) (stream : Bytes) : List Bytes := (stream.splitOn separator).filter (· ≠ [])

/-! ## One byte at a time -/

def closeName (s : NameScan) : NameScan := if s.name = [] then s else { list := s.list ++ [s.name], name := [] }

def scanByte (separator : UInt8) (s : NameScan) (c : UInt8) : NameScan :=
  if c = separator then closeName s else { s with name := s.name ++ [c] }

def scanBytes (separator : UInt8) (s : NameScan) (bytes : Bytes) : NameScan := bytes.foldl (scanByte separator) s

section
variable {separator : UInt8} {s : NameScan} {bytes : Bytes}

theorem endName_eq (h : 0 ∉ s.name) : endName s = closeName s := by
  unfold endName closeName
  rw [cText_of_zero_notMem h]

theorem scanBytes_append (s : NameScan) (a b : Bytes) :
    scanBytes separator s (a ++ b) = scanBytes separator (scanBytes separator s a) b := foldl_append

theorem scanBytes_of_notMem (h : separator ∉ bytes) :
    scanBytes separator s bytes = { s with name := s.name ++ bytes } := by
  induction bytes generalizing s with
  | nil =>
    rw [append_nil]
    rfl
  | cons c bytes ih =>
    have hc : c ≠ separator := fun heq => h (heq ▸ mem_cons_self)
    have hbyte : scanByte separator s c = { s with name := s.name ++ [c] } := if_neg hc
    have hrest := @ih { s with name := s.name ++ [c] } fun hmem => h (mem_cons_of_mem _ hmem)
    unfold scanBytes at hrest ⊢
    rw [foldl_cons, hbyte, hrest, append_assoc, singleton_append]

theorem length_closeName_le (s : NameScan) (bytes : Bytes) :
    (closeName s).list.length ≤ (closeName (scanBytes separator s bytes)).list.length := by
  induction bytes generalizing s with
  | nil => exact le_rfl
  | cons c bytes ih =>
    apply Nat.le_trans _ (ih (scanByte separator s c))
    unfold scanByte
    split
    · have hclosed : closeName (closeName s) = closeName s := by
        unfold closeName
        by_cases hnil : s.name = []
        · rw [if_pos hnil, if_pos hnil]
        · rw [if_neg hnil, if_pos rfl]
      rw [hclosed]
    · have hopen : (closeName { s with name := s.name ++ [c] }).list = s.list ++ [s.name ++ [c]] := by
        unfold closeName
        rw [if_neg (append_ne_nil_of_right_ne_nil _ (cons_ne_nil c []))]
      rw [hopen, length_append, length_singleton]
      unfold closeName
      split
      · exact Nat.le_succ _
      · dsimp only
        rw [length_append, length_singleton]

theorem closeName_scanBytes (list : List Bytes) {name : Bytes} (hname : separator ∉ name) (bytes : Bytes) :
    (closeName (scanBytes separator { list := list, name := name } bytes)).list =
      list ++ streamNames separator (name ++ bytes) := by
  unfold streamNames
  induction bytes generalizing list name with
  | nil =>
    rw [append_nil, splitOn_eq_singleton hname]
    unfold closeName scanBytes
    by_cases hnil : name = []
    · simp [hnil]
    · simp [hnil]
  | cons c bytes ih =>
    have hcons : scanBytes separator { list := list, name := name } (c :: bytes) =
        scanBytes separator (scanByte separator { list := list, name := name } c) bytes := rfl
    rw [hcons]
    unfold scanByte
    by_cases hc : c = separator
    · rw [if_pos hc, hc, splitOn_append_cons_self_of_not_mem hname]
      unfold closeName
      by_cases hnil : name = []
      · have hrest := @ih list [] (not_mem_nil)
        unfold closeName at hrest
        simp [hnil, hrest]
      · have hrest := @ih (list ++ [name]) [] (not_mem_nil)
        unfold closeName at hrest
        simp [hnil, hrest]
    · have hnext : separator ∉ name ++ [c] := by
        simp [hname, Ne.symm hc]
      have hrest := @ih list (name ++ [c]) hnext
      rw [if_neg hc, hrest, append_assoc, singleton_append]

theorem mem_splitOn_iff {c : UInt8} (hc : c ≠ separator) (bytes : Bytes) :
    (∃ piece ∈ bytes.splitOn separator, c ∈ piece) ↔ c ∈ bytes := by
  induction bytes with
  | nil => simp
  | cons b bytes ih =>
    rw [splitOn_cons_eq_if_modifyHead]
    by_cases hb : b = separator
    · rw [if_pos (beq_iff_eq.mpr hb), hb]
      simp [ih, hc]
    · rw [if_neg (by simpa using hb), mem_cons, ← ih]
      cases hsplit : bytes.splitOn separator with
      | nil => exact absurd hsplit (splitOn_ne_nil _ _)
      | cons head pieces => simp [or_assoc]

theorem mem_streamNames_iff {c : UInt8} (hc : c ≠ separator) (stream : Bytes) :
    (∃ name ∈ streamNames separator stream, c ∈ name) ↔ c ∈ stream := by
  rw [← mem_splitOn_iff hc]
  unfold streamNames
  refine ⟨?_, ?_⟩
  · intro h
    obtain ⟨name, hname, hmem⟩ := h
    exact ⟨name, (mem_filter.mp hname).1, hmem⟩
  · intro h
    obtain ⟨name, hname, hmem⟩ := h
    refine ⟨name, mem_filter.mpr ⟨hname, ?_⟩, hmem⟩
    exact decide_eq_true (ne_nil_of_mem hmem)

end

/-! ## Chunks -/

def Allowed (o : NameListOptions) (s : NameScan) (bytes : Bytes) : Prop :=
  (closeName (scanBytes o.separator s bytes)).list.length ≤ o.countLimit ∧ (o.separator ≠ 0 → 0 ∉ bytes)

structure Ready (o : NameListOptions) (s : NameScan) : Prop where
  within : (closeName s).list.length ≤ o.countLimit
  separator : o.separator ∉ s.name
  nul : 0 ∉ s.name

section
variable {o : NameListOptions} {s : NameScan} {fragment chunk a b : Bytes}

theorem Allowed.of_append (h : Allowed o s (a ++ b)) : Allowed o s a := by
  refine ⟨?_, ?_⟩
  · have hle := @length_closeName_le o.separator (scanBytes o.separator s a) b
    rw [← scanBytes_append] at hle
    exact Nat.le_trans hle h.1
  · intro hseparator hmem
    exact h.2 hseparator (mem_append_left _ hmem)

theorem Ready.takeFragment (h : Ready o s) (hfragment : o.separator ∉ fragment) (hallowed : Allowed o s fragment) :
    Ready o { s with name := s.name ++ fragment } := by
  have hscan := @scanBytes_of_notMem o.separator s fragment hfragment
  refine ⟨?_, ?_, ?_⟩
  · rw [← hscan]
    exact hallowed.1
  · intro hmem
    cases mem_append.mp hmem with
    | inl hold => exact h.separator hold
    | inr hnew => exact hfragment hnew
  · intro hmem
    cases mem_append.mp hmem with
    | inl hold => exact h.nul hold
    | inr hnew =>
      by_cases hzero : o.separator = 0
      · rw [hzero] at hfragment
        exact hfragment hnew
      · exact hallowed.2 hzero hnew

theorem Ready.close (h : Ready o s) : Ready o (closeName s) := by
  have hclosed : (closeName s).name = [] := by
    unfold closeName
    split
    · next hnil => exact hnil
    · rfl
  refine ⟨?_, ?_, ?_⟩
  · have hagain : closeName (closeName s) = closeName s := if_pos hclosed
    rw [hagain]
    exact h.within
  · rw [hclosed]
    exact not_mem_nil
  · rw [hclosed]
    exact not_mem_nil

theorem takeFragment_allowed (hfragment : o.separator ∉ fragment) (hallowed : Allowed o s fragment) :
    takeFragment o fragment s = .ok { s with name := s.name ++ fragment } := by
  unfold takeFragment
  by_cases hnil : fragment = []
  · rw [if_pos hnil, hnil, append_nil]
  · have hroom : ¬o.countLimit ≤ s.list.length := by
      have hlength := hallowed.1
      rw [scanBytes_of_notMem hfragment] at hlength
      unfold closeName at hlength
      rw [if_neg (append_ne_nil_of_right_ne_nil _ hnil), length_append] at hlength
      dsimp only [length_singleton] at hlength
      omega
    have hclean : ¬(o.separator ≠ 0 ∧ fragment.contains 0 = true) := by
      intro hnul
      exact hallowed.2 hnul.1 (contains_iff_mem.mp hnul.2)
    rw [if_neg hnil, if_neg hroom, if_neg hclean]

theorem takeFragment_refused (h : Ready o s) (hfragment : o.separator ∉ fragment) (hrefused : ¬Allowed o s fragment) :
    ∃ error, takeFragment o fragment s = .error error := by
  unfold takeFragment
  by_cases hnil : fragment = []
  · refine absurd ⟨?_, ?_⟩ hrefused
    · rw [hnil]
      exact h.within
    · rw [hnil]
      exact fun _ => not_mem_nil
  · rw [if_neg hnil]
    by_cases hroom : o.countLimit ≤ s.list.length
    · exact ⟨.limit, if_pos hroom⟩
    · rw [if_neg hroom]
      by_cases hnul : o.separator ≠ 0 ∧ fragment.contains 0 = true
      · exact ⟨.nulByte, if_pos hnul⟩
      · refine absurd ⟨?_, ?_⟩ hrefused
        · rw [scanBytes_of_notMem hfragment]
          unfold closeName
          rw [if_neg (append_ne_nil_of_right_ne_nil _ hnil), length_append]
          dsimp only [length_singleton]
          omega
        · intro hseparator hmem
          exact hnul ⟨hseparator, contains_iff_mem.mpr hmem⟩

theorem scanBytes_separator (hfragment : o.separator ∉ fragment) :
    scanBytes o.separator s (fragment ++ o.separator :: chunk) =
      scanBytes o.separator (closeName { s with name := s.name ++ fragment }) chunk := by
  rw [scanBytes_append, scanBytes_of_notMem hfragment]
  unfold scanBytes
  rw [foldl_cons]
  unfold scanByte
  rw [if_pos rfl]

theorem Allowed.after_separator (hfragment : o.separator ∉ fragment)
    (h : Allowed o s (fragment ++ o.separator :: chunk)) :
    Allowed o (closeName { s with name := s.name ++ fragment }) chunk := by
  refine ⟨?_, ?_⟩
  · rw [← scanBytes_separator hfragment]
    exact h.1
  · intro hseparator hmem
    exact h.2 hseparator (mem_append_right _ (mem_cons_of_mem _ hmem))

theorem notMem_fragment {c : UInt8} (hfragment : o.separator ∉ fragment) (hc : c ≠ o.separator) :
    o.separator ∉ fragment ++ [c] := by
  intro hmem
  cases mem_append.mp hmem with
  | inl hold => exact hfragment hold
  | inr hnew => exact hc (mem_singleton.mp hnew).symm

theorem scanChunk_allowed (h : Ready o s) (hfragment : o.separator ∉ fragment)
    (hallowed : Allowed o s (fragment ++ chunk)) :
    scanChunk o false fragment chunk s = .ok (scanBytes o.separator s (fragment ++ chunk)) ∧
      Ready o (scanBytes o.separator s (fragment ++ chunk)) := by
  induction chunk generalizing s fragment with
  | nil =>
    rw [append_nil] at hallowed ⊢
    rw [scanChunk, takeFragment_allowed hfragment hallowed, scanBytes_of_notMem hfragment]
    exact ⟨rfl, h.takeFragment hfragment hallowed⟩
  | cons c chunk ih =>
    rw [scanChunk]
    by_cases hc : c = o.separator
    · rw [hc] at hallowed ⊢
      have htaken := h.takeFragment hfragment hallowed.of_append
      rw [if_pos rfl, takeFragment_allowed hfragment hallowed.of_append, scanBytes_separator hfragment]
      dsimp only
      rw [endName_eq htaken.nul]
      exact ih htaken.close not_mem_nil (hallowed.after_separator hfragment)
    · rw [append_cons fragment c chunk] at hallowed ⊢
      rw [if_neg hc]
      exact ih h (notMem_fragment hfragment hc) hallowed

theorem scanChunk_refused (h : Ready o s) (hfragment : o.separator ∉ fragment)
    (hrefused : ¬Allowed o s (fragment ++ chunk)) :
    ∃ error, scanChunk o false fragment chunk s = .error error := by
  induction chunk generalizing s fragment with
  | nil =>
    rw [append_nil] at hrefused
    obtain ⟨error, htake⟩ := takeFragment_refused h hfragment hrefused
    rw [scanChunk, htake]
    exact ⟨error, rfl⟩
  | cons c chunk ih =>
    rw [scanChunk]
    by_cases hc : c = o.separator
    · rw [hc] at hrefused ⊢
      rw [if_pos rfl]
      by_cases hallowed : Allowed o s fragment
      · have htaken := h.takeFragment hfragment hallowed
        rw [takeFragment_allowed hfragment hallowed]
        dsimp only
        rw [endName_eq htaken.nul]
        apply ih htaken.close not_mem_nil
        intro hrest
        apply hrefused
        refine ⟨?_, ?_⟩
        · rw [scanBytes_separator hfragment]
          exact hrest.1
        · intro hseparator hmem
          cases mem_append.mp hmem with
          | inl hold => exact hallowed.2 hseparator hold
          | inr hnew =>
            cases mem_cons.mp hnew with
            | inl hzero => exact hseparator hzero.symm
            | inr hlater => exact hrest.2 hseparator hlater
      · obtain ⟨error, htake⟩ := takeFragment_refused h hfragment hallowed
        rw [htake]
        exact ⟨error, rfl⟩
    · rw [append_cons] at hrefused
      rw [if_neg hc]
      exact ih h (notMem_fragment hfragment hc) hrefused

end

/-! ## Whole streams -/

def Fits (o : NameListOptions) (list : List Bytes) (stream : Bytes) : Prop :=
  stream.length ≤ o.inputByteLimit ∧ list.length + (streamNames o.separator stream).length ≤ o.countLimit ∧
    (o.separator ≠ 0 → ∀ name ∈ streamNames o.separator stream, 0 ∉ name)

def Reads (o : NameListOptions) (list : List Bytes) (stream : Bytes) (r : Except NameListError (List Bytes)) : Prop :=
  (Fits o list stream → r = .ok (list ++ streamNames o.separator stream)) ∧
    (¬Fits o list stream → ∃ error, r = .error error)

structure Reading (o : NameListOptions) (list : List Bytes) (stream : Bytes) (s : NameReadState) (done : Bytes) :
    Prop where
  split : done ++ s.source.rest = stream
  remaining : done.length + s.remaining = o.inputByteLimit
  scan : s.scan = scanBytes o.separator { list := list } done
  ready : Ready o s.scan
  nul : o.separator ≠ 0 → 0 ∉ done

section
variable {o : NameListOptions} {list : List Bytes} {stream done : Bytes} {s t : NameReadState}

theorem length_names (separator : UInt8) (list : List Bytes) (stream : Bytes) :
    (closeName (scanBytes separator { list := list } stream)).list = list ++ streamNames separator stream :=
  closeName_scanBytes list not_mem_nil stream

theorem nul_names (hseparator : o.separator ≠ 0) :
    (∀ name ∈ streamNames o.separator stream, 0 ∉ name) ↔ 0 ∉ stream := by
  rw [← mem_streamNames_iff (Ne.symm hseparator)]
  simp

theorem Fits.allowed (h : Fits o list stream) : Allowed o { list := list } stream := by
  obtain ⟨_, hcount, hnul⟩ := h
  refine ⟨?_, ?_⟩
  · rw [length_names, length_append]
    exact hcount
  · intro hseparator
    exact (nul_names hseparator).mp (hnul hseparator)

section
variable (h : Reading o list stream s done)
include h

theorem Reading.refuses {chunk rest : Bytes} (hsplit : done ++ (chunk ++ rest) = stream)
    (hrefused : ¬Allowed o s.scan chunk) : ¬Fits o list stream := by
  intro hfits
  have hallowed := hfits.allowed
  rw [← hsplit, ← append_assoc] at hallowed
  apply hrefused
  refine ⟨?_, ?_⟩
  · rw [h.scan, ← scanBytes_append]
    exact hallowed.of_append.1
  · intro hseparator hmem
    exact hallowed.of_append.2 hseparator (mem_append_right _ hmem)

theorem nameReadStep_go (hstep : nameReadStep o s = .inl t) :
    (∃ done, Reading o list stream t done) ∧ t.source.rest.length < s.source.rest.length := by
  unfold nameReadStep at hstep
  have happend := s.source.read_append (nameReadRequest s.remaining)
  generalize s.source.read (nameReadRequest s.remaining) = read at hstep happend
  obtain ⟨chunk, source⟩ := read
  dsimp only at hstep happend
  by_cases hover : s.remaining < chunk.length
  · rw [if_pos hover] at hstep
    cases hstep
  · rw [if_neg hover] at hstep
    by_cases hnil : chunk = []
    · rw [hnil] at hstep
      cases hscan : scanChunk o ([] : Bytes).isEmpty [] [] s.scan with
      | error error =>
        rw [hscan] at hstep
        cases hstep
      | ok scan =>
        rw [hscan] at hstep
        dsimp only at hstep
        rw [if_pos rfl] at hstep
        cases hstep
    · have hopen : chunk.isEmpty = false := isEmpty_eq_false_iff.mpr hnil
      have hpos := length_pos_iff.mpr hnil
      rw [hopen] at hstep
      by_cases hallowed : Allowed o s.scan chunk
      · obtain ⟨hscan, hready⟩ := @scanChunk_allowed o s.scan [] chunk h.ready not_mem_nil hallowed
        rw [nil_append] at hscan hready
        rw [hscan] at hstep
        dsimp only at hstep
        rw [if_neg hnil] at hstep
        cases hstep
        obtain ⟨hsplit, hremaining, hscanned, _, hnul⟩ := h
        refine ⟨⟨done ++ chunk, ?_, ?_, ?_, hready, ?_⟩, ?_⟩
        · rw [← hsplit, ← happend, append_assoc]
        · dsimp only
          rw [length_append]
          omega
        · dsimp only
          rw [hscanned, ← scanBytes_append]
        · intro hseparator hmem
          cases mem_append.mp hmem with
          | inl hold => exact hnul hseparator hold
          | inr hnew => exact hallowed.2 hseparator hnew
        · dsimp only
          rw [← happend, length_append]
          omega
      · obtain ⟨error, hscan⟩ := @scanChunk_refused o s.scan [] chunk h.ready not_mem_nil hallowed
        rw [hscan] at hstep
        cases hstep

theorem nameReadStep_leave {r : Except NameListError (List Bytes)}
    (hstep : nameReadStep o s = .inr r) : Reads o list stream r := by
  have hfail : ∀ error, r = .error error → ¬Fits o list stream → Reads o list stream r := by
    intro error hr hnot
    exact ⟨fun hfits => absurd hfits hnot, fun _ => ⟨error, hr⟩⟩
  unfold nameReadStep at hstep
  have happend := s.source.read_append (nameReadRequest s.remaining)
  have hrequest : 0 < nameReadRequest s.remaining := by
    unfold nameReadRequest
    split
    · exact Nat.succ_pos _
    · decide
  have hend := s.source.read_eq_nil hrequest
  generalize s.source.read (nameReadRequest s.remaining) = read at hstep happend hend
  obtain ⟨chunk, source⟩ := read
  dsimp only at hstep happend hend
  have hsplit := h.split
  have hremaining := h.remaining
  rw [← happend] at hsplit
  by_cases hover : s.remaining < chunk.length
  · rw [if_pos hover] at hstep
    cases hstep
    apply hfail .limit rfl
    intro hfits
    have hlength := hfits.1
    rw [← hsplit, length_append, length_append] at hlength
    omega
  · rw [if_neg hover] at hstep
    by_cases hnil : chunk = []
    · have hrest := hend.mp hnil
      have hstream : done = stream := by
        rw [← h.split, hrest, append_nil]
      have hdone : scanChunk o true [] [] s.scan = .ok (closeName s.scan) := by
        rw [← endName_eq h.ready.nul]
        rfl
      rw [hnil] at hstep
      have hresult : r = .ok (closeName s.scan).list := by
        have hempty : ([] : Bytes).isEmpty = true := rfl
        rw [hempty, hdone] at hstep
        dsimp only at hstep
        rw [if_pos rfl] at hstep
        cases hstep
        rfl
      have hlist : (closeName s.scan).list = list ++ streamNames o.separator stream := by
        rw [h.scan, hstream, length_names]
      have hwithin := h.ready.within
      rw [hlist, length_append] at hwithin
      refine ⟨?_, ?_⟩
      · intro _
        rw [hresult, hlist]
      · intro hnot
        refine absurd ⟨?_, hwithin, ?_⟩ hnot
        · rw [← hstream]
          omega
        · intro hseparator
          rw [nul_names hseparator, ← hstream]
          exact h.nul hseparator
    · have hopen : chunk.isEmpty = false := isEmpty_eq_false_iff.mpr hnil
      rw [hopen] at hstep
      by_cases hallowed : Allowed o s.scan chunk
      · obtain ⟨hscan, _⟩ := @scanChunk_allowed o s.scan [] chunk h.ready not_mem_nil hallowed
        rw [hscan] at hstep
        dsimp only at hstep
        simp [hnil] at hstep
      · obtain ⟨error, hscan⟩ := @scanChunk_refused o s.scan [] chunk h.ready not_mem_nil hallowed
        rw [hscan] at hstep
        cases hstep
        exact hfail error rfl (h.refuses hsplit hallowed)

end

end

/-- **Main result.** However the stream is split into reads, the call succeeds exactly where the stream and its names
fit, and appends the names in order. -/
theorem nameListReadFdBounded_spec (o : NameListOptions) (stream : Bytes) (gives : Nat → Nat) (list : List Bytes) :
    ∃ r, nameListReadFdBounded o { rest := stream, gives := gives } list = some r ∧
      ((∃ list', r = .ok list') ↔
        stream.length ≤ o.inputByteLimit ∧ list.length + (streamNames o.separator stream).length ≤ o.countLimit ∧
          (o.separator ≠ 0 → ∀ name ∈ streamNames o.separator stream, 0 ∉ name)) ∧
      ∀ list', r = .ok list' → list' = list ++ streamNames o.separator stream := by
  have hreads : ∃ r, nameListReadFdBounded o { rest := stream, gives := gives } list = some r ∧
      Reads o list stream r := by
    unfold nameListReadFdBounded
    by_cases hfull : o.countLimit < list.length
    · rw [if_pos hfull]
      refine ⟨.error .limit, rfl, ?_, fun _ => ⟨.limit, rfl⟩⟩
      intro hfits
      have hcount := hfits.2.1
      omega
    · rw [if_neg hfull]
      have hstart : Reading o list stream
          { source := { rest := stream, gives := gives }, remaining := o.inputByteLimit, scan := { list := list } } []
            :=
        ⟨rfl, Nat.zero_add _, rfl, ⟨Nat.le_of_not_lt hfull, not_mem_nil, not_mem_nil⟩,
          fun _ => not_mem_nil⟩
      exact @loop_of_measure _ _ (nameReadStep o) (fun s => ∃ done, Reading o list stream s done) (Reads o list stream)
        (fun s => s.source.rest.length) (fun _ _ h hstep => nameReadStep_go h.choose_spec hstep)
        (fun _ _ h hstep => nameReadStep_leave h.choose_spec hstep) _ _ ⟨[], hstart⟩ (Nat.lt_succ_self stream.length)
  obtain ⟨r, hcall, hok, herror⟩ := hreads
  refine ⟨r, hcall, ⟨?_, ?_⟩, ?_⟩
  · intro h
    obtain ⟨list', hr⟩ := h
    apply Classical.byContradiction
    intro hnot
    obtain ⟨error, hfail⟩ := herror hnot
    rw [hr] at hfail
    cases hfail
  · intro hfits
    exact ⟨_, hok hfits⟩
  · intro list' hr
    by_cases hfits : Fits o list stream
    · have hsame := hok hfits
      rw [hr] at hsame
      exact Except.ok.inj hsame
    · obtain ⟨error, hfail⟩ := herror hfits
      rw [hr] at hfail
      cases hfail

/-- The limit is on the whole list: one name more is too many for a list of one. -/
theorem countLimit_of_list : (streamNames 10 [97]).length ≤ 1 ∧
      nameListReadFdBounded ⟨10, 1, 9⟩ { rest := [97], gives := fun _ => 1 } [[120]] = some (.error .limit) := by
  decide

example : nameListReadFdBounded ⟨10, 3, 9⟩ { rest := [97, 98, 99, 10, 10, 100], gives := fun _ => 2 } [[120]] =
    some (.ok [[120], [97, 98, 99], [100]]) := by
  decide

end Bx.Archive
