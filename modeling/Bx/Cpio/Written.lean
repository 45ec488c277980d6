import Bx.Cpio.Backend
import Mathlib.Data.List.Forall2

/-!
# What the writer assembles

An entry is written exactly when its numbers fit the fields of the format and
the file has room for it; then its record stands behind what was there before,
and ends where the next one may begin.
-/

namespace Bx.Cpio
open Kit Lib List

/-! ## Headers -/

namespace Format

def bits : Format → Nat
  | newc => 4
  | odc => 3

theorem bits_cases (format : Format) : format.bits = 3 ∨ format.bits = 4 := by
  cases format with
  | newc => exact Or.inr rfl
  | odc => exact Or.inl rfl

theorem alignment_pos (format : Format) : 0 < format.alignment := by
  cases format with
  | newc => decide
  | odc => decide

end Format

def layout (format : Format) (h : HeaderFields) (namesize : Nat) : List (Nat × Nat) :=
  match format with
  | .newc => newcLayout (newcFields h namesize)
  | .odc => odcLayout (odcFields h namesize)

def namesize (h : HeaderFields) : Nat := h.name.val.length + 1

def FieldsFit (format : Format) (h : HeaderFields) : Prop :=
  0 ≤ h.mtime ∧ ∀ p ∈ layout format h (namesize h), p.2 < 2 ^ (format.bits * p.1)

def headerBytes (format : Format) (h : HeaderFields) : Bytes :=
  format.magic ++ ((layout format h (namesize h)).map fun p => (formatDigits format.bits p.1 p.2).1).flatten

section
variable (format : Format) (h : HeaderFields) (n : Nat)

theorem layout_width : ∀ p ∈ layout format h n, 0 < p.1 := by
  cases format with
  | newc => simp [layout, newcLayout, newcFields]
  | odc => simp [layout, odcLayout, odcFields]

theorem layout_small : ∀ p ∈ layout format h n, 2 ^ (format.bits * p.1) ≤ 2 ^ 64 := by
  cases format with
  | newc => simp [layout, newcLayout, newcFields, Format.bits]
  | odc => simp [layout, odcLayout, odcFields, Format.bits]

theorem length_headerBytes : (headerBytes format h).length = format.headerLen := by
  have hflat : (((layout format h (namesize h)).map fun p => (formatDigits format.bits p.1 p.2).1).flatten).length
      = ((layout format h (namesize h)).map Prod.fst).sum := by
    rw [length_flatten, map_map]
    congr 1
    apply map_congr_left
    intro p _
    exact length_formatDigits _ _
  rw [headerBytes, length_append, hflat]
  cases format with
  | newc => simp [layout, newcLayout, newcFields, Format.magic, Format.headerLen, ascii]
  | odc => simp [layout, odcLayout, odcFields, Format.magic, Format.headerLen, ascii]

end

theorem emitHeader_eq (format : Format) (s : Spool) (h : HeaderFields) :
    emitHeader format s h = if h.mtime < 0 then none else (checkedAdd h.name.val.length 1).bind fun n =>
      ((encodeFields format.bits (layout format h n)).map (format.magic ++ ·)).bind fun header =>
      (s.append header).bind fun s => (s.append (h.name.val ++ [0])).bind fun s =>
      s.appendZeros (padding s.bytes.length format.alignment) := by
  cases format with
  | newc => rfl
  | odc => rfl

/-! ## Appending -/

theorem append_iff (s s' : Spool) (data : Bytes) :
    s.append data = some s' ↔ s.bytes.length + data.length < 2 ^ 63 ∧ s'.bytes = s.bytes ++ data := by
  unfold Spool.append
  by_cases hlt : s.bytes.length + data.length < 2 ^ 63
  · rw [dif_pos hlt]
    refine ⟨fun h => ⟨hlt, ?_⟩, fun h => ?_⟩
    · rw [← Option.some.inj h]
    · obtain ⟨bytes, hlength⟩ := s'
      obtain ⟨_, hbytes⟩ := h
      subst hbytes
      rfl
  · rw [dif_neg hlt]
    exact ⟨fun h => Option.noConfusion rfl (heq_of_eq h), fun h => absurd h.1 hlt⟩

def front (format : Format) (h : HeaderFields) : Bytes :=
  headerBytes format h ++ (h.name.val ++ [0])
    ++ replicate (padding (format.headerLen + namesize h) format.alignment) 0

def record (format : Format) (h : HeaderFields) (payload : Bytes) : Bytes :=
  front format h ++ payload ++ replicate (padding payload.length format.alignment) 0

section
variable (format : Format) (h : HeaderFields)
include format h

theorem length_front : (front format h).length
    = format.headerLen + namesize h + padding (format.headerLen + namesize h) format.alignment := by
  simp only [front, length_append, length_cons, length_nil, length_replicate, length_headerBytes]
  rfl

theorem dvd_front : format.alignment ∣ (front format h).length := by
  rw [length_front]
  exact dvd_add_padding format.alignment_pos _

theorem length_record (payload : Bytes) : (record format h payload).length
    = (front format h).length + (payload.length + padding payload.length format.alignment) := by
  rw [record, length_append, length_append, length_replicate, add_assoc]

theorem dvd_record (payload : Bytes) : format.alignment ∣ (record format h payload).length := by
  rw [length_record]
  exact Nat.dvd_add (dvd_front format h) (dvd_add_padding format.alignment_pos _)

end

variable {s : Spool}

variable {format : Format}

theorem emitHeader_iff (halign : format.alignment ∣ s.bytes.length) (h : HeaderFields)
    (s' : Spool) : emitHeader format s h = some s'
      ↔ FieldsFit format h ∧ s.bytes.length + (front format h).length < 2 ^ 63
        ∧ s'.bytes = s.bytes ++ front format h := by
  have hencode := encodeFields_iff format.bits_cases (layout_width format h (namesize h))
  have hheader := length_headerBytes format h
  have hfront := length_front format h
  rw [emitHeader_eq]
  by_cases hneg : h.mtime < 0
  · rw [if_pos hneg]
    exact ⟨fun h => Option.noConfusion rfl (heq_of_eq h), fun hfit => absurd hfit.1.1 (by omega)⟩
  · rw [if_neg hneg]
    by_cases hsize : h.name.val.length + 1 < 2 ^ 64
    · rw [checkedAdd_of_lt hsize, Option.bind_some]
      have hn : h.name.val.length + 1 = namesize h := rfl
      rw [hn]
      simp only [Option.bind_eq_some_iff, Option.map_eq_some_iff, append_iff, Spool.appendZeros, length_append,
        length_replicate, length_cons, length_nil, hencode]
      refine ⟨?_, ?_⟩
      · intro ⟨header, ⟨fields, ⟨hall, hfields⟩, hmagic⟩, s₁, ⟨_, hs₁⟩, s₂, ⟨_, hs₂⟩, hlast, hs'⟩
        have hbytes : header = headerBytes format h := by rw [← hmagic, hfields]; rfl
        have hlen₂ : s₂.bytes.length = s.bytes.length + (format.headerLen + namesize h) := by
          rw [hs₂, hs₁, hbytes, length_append, length_append, length_append, hheader]
          simp [namesize, add_assoc]
        rw [hlen₂, padding_add_of_dvd halign] at hlast hs'
        refine ⟨⟨by omega, hall⟩, by omega, ?_⟩
        rw [hs', hs₂, hs₁, hbytes]
        simp only [front, append_assoc]
      · intro ⟨⟨_, hall⟩, hroom, hs'⟩
        refine ⟨headerBytes format h, ⟨_, ⟨hall, rfl⟩, rfl⟩, ⟨s.bytes ++ headerBytes format h, ?_⟩, ⟨?_, rfl⟩,
          ⟨s.bytes ++ headerBytes format h ++ (h.name.val ++ [0]), ?_⟩, ⟨?_, rfl⟩, ?_, ?_⟩
        · rw [length_append]
          omega
        · omega
        · simp only [length_append, length_cons, length_nil]
          omega
        · simp only [length_append]
          omega
        · simp only [length_append, length_cons, length_nil, hheader, add_assoc]
          rw [padding_add_of_dvd halign]
          have hname : format.headerLen + (h.name.val.length + (0 + 1)) = format.headerLen + namesize h := rfl
          rw [hname]
          omega
        · simp only [length_append, length_cons, length_nil, hheader, add_assoc]
          rw [padding_add_of_dvd halign, hs']
          simp only [front, append_assoc]
          rfl
    · have hlarge : checkedAdd h.name.val.length 1 = none := checkedAdd_of_le (by omega) (by omega)
      rw [hlarge, Option.bind_none]
      refine ⟨fun h => Option.noConfusion rfl (heq_of_eq h), ?_⟩
      intro ⟨_, hroom, _⟩
      unfold namesize at hfront
      omega

/-! ## Entries -/

/-- The numbers of an entry fit its header; of a regular file the size does even where its data is held back. -/
def Fits (opts : Options) (em : Emission) : Prop :=
  FieldsFit opts.format (headerOf opts em)
    ∧ (isReg em.entry.mode.toNat = true → em.entry.contents.length ≤ opts.format.wideLimit)

theorem mtime_le_wideLimit {h : HeaderFields} (hfit : FieldsFit format h) : h.mtime.toNat ≤ format.wideLimit := by
  cases format with
  | newc =>
    have hlt := hfit.2 (8, h.mtime.toNat) (by simp [layout, newcLayout, newcFields])
    simp only [Format.bits] at hlt
    simp only [Format.wideLimit]
    omega
  | odc =>
    have hlt := hfit.2 (11, h.mtime.toNat) (by simp [layout, odcLayout, odcFields])
    simp only [Format.bits] at hlt
    simp only [Format.wideLimit]
    omega

section
variable {opts : Options}

theorem emitOneFsEntry_iff (halign : opts.format.alignment ∣ s.bytes.length) (em : Emission) (s' : Spool) :
    emitOneFsEntry opts s em = .ok s'
      ↔ (em.entry.archivePath.val ≠ trailerName ∧ Fits opts em)
        ∧ s.bytes.length + (record opts.format (headerOf opts em) (payloadOf em)).length < 2 ^ 63
        ∧ s'.bytes = s.bytes ++ record opts.format (headerOf opts em) (payloadOf em) := by
  have hlen := length_record opts.format (headerOf opts em) (payloadOf em)
  have hpad : ∀ s₂ : Spool, s₂.bytes = s.bytes ++ front opts.format (headerOf opts em) ++ payloadOf em →
      padding s₂.bytes.length opts.format.alignment = padding (payloadOf em).length opts.format.alignment := by
    intro s₂ hs₂
    rw [hs₂, length_append]
    apply padding_add_of_dvd
    rw [length_append]
    exact Nat.dvd_add halign (dvd_front _ _)
  simp only [emitOneFsEntry]
  by_cases hname : em.entry.archivePath.val = trailerName
  · rw [if_pos hname]
    exact ⟨fun h => Except.noConfusion rfl rfl (heq_of_eq h), fun h => absurd hname h.1.1⟩
  · rw [if_neg hname]
    by_cases hwide : em.entry.mtime.toInt < 0 ∨ opts.format.wideLimit < em.entry.mtime.toInt.toNat
        ∨ (isReg em.entry.mode.toNat = true ∧ opts.format.wideLimit < em.entry.contents.length)
    · rw [if_pos hwide]
      refine ⟨fun h => Except.noConfusion rfl rfl (heq_of_eq h), ?_⟩
      intro ⟨⟨_, hfit, hregular⟩, _⟩
      have hpos : 0 ≤ em.entry.mtime.toInt := hfit.1
      have hmtime : em.entry.mtime.toInt.toNat ≤ opts.format.wideLimit := mtime_le_wideLimit hfit
      cases hwide with
      | inl hneg => omega
      | inr hwide =>
        cases hwide with
        | inl hlate => omega
        | inr hlarge =>
          have hle := hregular hlarge.1
          omega
    · rw [if_neg hwide]
      refine ⟨?_, ?_⟩
      · intro h
        cases hheader : emitHeader opts.format s (headerOf opts em) with
        | none => simp [hheader] at h
        | some s₁ =>
          rw [hheader] at h
          dsimp only at h
          obtain ⟨hfit, _, hs₁⟩ := (emitHeader_iff halign _ _).mp hheader
          cases hpayload : s₁.append (payloadOf em) with
          | none => simp [hpayload] at h
          | some s₂ =>
            rw [hpayload] at h
            dsimp only at h
            obtain ⟨_, hs₂⟩ := (append_iff _ _ _).mp hpayload
            rw [hs₁] at hs₂
            rw [hpad s₂ hs₂] at h
            cases hzeros : s₂.appendZeros (padding (payloadOf em).length opts.format.alignment) with
            | none => simp [hzeros] at h
            | some s₃ =>
              rw [hzeros] at h
              obtain ⟨hroom, hs₃⟩ := (append_iff _ _ _).mp hzeros
              cases h
              rw [hs₂, length_append, length_append, length_replicate] at hroom
              refine ⟨⟨hname, hfit, ?_⟩, by omega, ?_⟩
              · intro hregular
                by_contra hlarge
                exact hwide (Or.inr (Or.inr ⟨hregular, by omega⟩))
              · rw [hs₃, hs₂]
                simp only [record, append_assoc]
      · intro ⟨⟨_, hfit, _⟩, hroom, hs'⟩
        obtain ⟨s₁, hs₁⟩ : ∃ s₁ : Spool, s₁.bytes = s.bytes ++ front opts.format (headerOf opts em) :=
          ⟨⟨_, by rw [length_append]; omega⟩, rfl⟩
        obtain ⟨s₂, hs₂⟩ : ∃ s₂ : Spool, s₂.bytes = s₁.bytes ++ payloadOf em :=
          ⟨⟨_, by rw [length_append, hs₁, length_append]; omega⟩, rfl⟩
        have hheader := (emitHeader_iff halign (headerOf opts em) s₁).mpr ⟨hfit, by omega, hs₁⟩
        have hpayload := (append_iff s₁ s₂ (payloadOf em)).mpr ⟨by rw [hs₁, length_append]; omega, hs₂⟩
        rw [hs₁] at hs₂
        have hzeros := (append_iff s₂ s' (replicate (padding (payloadOf em).length opts.format.alignment) 0)).mpr
          ⟨by rw [hs₂, length_append, length_append, length_replicate]; omega,
            by rw [hs', hs₂]; simp only [record, append_assoc]⟩
        rw [hheader]
        dsimp only
        rw [hpayload]
        dsimp only
        rw [hpad s₂ hs₂, Spool.appendZeros, hzeros]

def records (opts : Options) (ems : List Emission) : Bytes :=
  ems.flatMap fun em => record opts.format (headerOf opts em) (payloadOf em)

theorem dvd_records (ems : List Emission) : opts.format.alignment ∣ (records opts ems).length := by
  induction ems with
  | nil => exact Nat.dvd_zero _
  | cons em ems ih =>
    have hsplit : records opts (em :: ems) = record opts.format (headerOf opts em) (payloadOf em) ++ records opts ems :=
      rfl
    rw [hsplit, length_append]
    exact Nat.dvd_add (dvd_record _ _ _) ih

theorem emitEntries_iff {s : Spool} (halign : opts.format.alignment ∣ s.bytes.length) (ems : List Emission) (s' : Spool) :
    emitEntries opts s ems = .ok s'
      ↔ (∀ em ∈ ems, em.entry.archivePath.val ≠ trailerName ∧ Fits opts em)
        ∧ s.bytes.length + (records opts ems).length < 2 ^ 63 ∧ s'.bytes = s.bytes ++ records opts ems := by
  induction ems generalizing s with
  | nil =>
    have hlt := s.length_lt
    refine ⟨?_, ?_⟩
    · intro h
      cases h
      exact ⟨fun em hem => (not_mem_nil hem).elim, hlt, (append_nil _).symm⟩
    · intro ⟨_, _, hs'⟩
      obtain ⟨bytes, hlength⟩ := s
      obtain ⟨bytes', hlength'⟩ := s'
      have heq : bytes' = bytes := hs'.trans (append_nil _)
      subst heq
      rfl
  | cons em ems ih =>
    have hsplit : records opts (em :: ems) = record opts.format (headerOf opts em) (payloadOf em) ++ records opts ems :=
      rfl
    rw [hsplit, length_append, forall_mem_cons]
    unfold emitEntries
    refine ⟨?_, ?_⟩
    · intro h
      cases hentry : emitOneFsEntry opts s em with
      | error d => simp [hentry] at h
      | ok next =>
        rw [hentry] at h
        obtain ⟨hfits, _, hnext⟩ := (emitOneFsEntry_iff halign em next).mp hentry
        have halign' : opts.format.alignment ∣ next.bytes.length := by
          rw [hnext, length_append]
          exact Nat.dvd_add halign (dvd_record _ _ _)
        obtain ⟨hall, hroom, hs'⟩ := (ih halign').mp h
        rw [hnext, length_append] at hroom
        refine ⟨⟨hfits, hall⟩, by omega, ?_⟩
        rw [hs', hnext, append_assoc]
    · intro ⟨⟨hfits, hall⟩, hroom, hs'⟩
      obtain ⟨next, hnext⟩ : ∃ next : Spool, next.bytes
          = s.bytes ++ record opts.format (headerOf opts em) (payloadOf em) :=
        ⟨⟨_, by rw [length_append]; omega⟩, rfl⟩
      have hentry := (emitOneFsEntry_iff halign em next).mpr ⟨hfits, by omega, hnext⟩
      have halign' : opts.format.alignment ∣ next.bytes.length := by
        rw [hnext, length_append]
        exact Nat.dvd_add halign (dvd_record _ _ _)
      rw [hentry]
      refine (ih halign').mpr ⟨hall, ?_, ?_⟩
      · rw [hnext, length_append]
        omega
      · rw [hs', hnext, append_assoc]

end

/-! ## Whole archives -/

/-- What stands behind the entries: the trailer, and zeros up to the size of a block -/
def trailerBytes (format : Format) (start : Nat) : Bytes :=
  front format trailerFields
    ++ replicate (padding (start + (front format trailerFields).length) format.trailerAlignment) 0

def archiveBytes (opts : Options) (ems : List Emission) : Bytes :=
  records opts ems ++ trailerBytes opts.format (records opts ems).length

theorem fieldsFit_trailer (format : Format) : FieldsFit format trailerFields := by
  cases format with
  | newc => exact ⟨by decide, by decide⟩
  | odc => exact ⟨by decide, by decide⟩

theorem emitTrailer_iff (halign : format.alignment ∣ s.bytes.length) (s' : Spool) : emitTrailer format s = .ok s'
      ↔ s.bytes.length + (trailerBytes format s.bytes.length).length < 2 ^ 63
        ∧ s'.bytes = s.bytes ++ trailerBytes format s.bytes.length := by
  have hlen : (trailerBytes format s.bytes.length).length = (front format trailerFields).length
      + padding (s.bytes.length + (front format trailerFields).length) format.trailerAlignment := by
    rw [trailerBytes, length_append, length_replicate]
  unfold emitTrailer
  refine ⟨?_, ?_⟩
  · intro h
    cases hheader : emitHeader format s trailerFields with
    | none => simp [hheader] at h
    | some s₁ =>
      rw [hheader] at h
      dsimp only at h
      obtain ⟨_, _, hs₁⟩ := (emitHeader_iff halign _ _).mp hheader
      cases hzeros : s₁.appendZeros (padding s₁.bytes.length format.trailerAlignment) with
      | none => simp [hzeros] at h
      | some s₂ =>
        rw [hzeros] at h
        obtain ⟨hroom, hs₂⟩ := (append_iff _ _ _).mp hzeros
        cases h
        rw [hs₁, length_append, length_replicate] at hroom
        refine ⟨by omega, ?_⟩
        rw [hs₂, hs₁, length_append, trailerBytes, append_assoc]
  · intro ⟨hroom, hs'⟩
    obtain ⟨s₁, hs₁⟩ : ∃ s₁ : Spool, s₁.bytes = s.bytes ++ front format trailerFields :=
      ⟨⟨_, by rw [length_append]; omega⟩, rfl⟩
    have hheader := (emitHeader_iff halign trailerFields s₁).mpr ⟨fieldsFit_trailer format, by omega, hs₁⟩
    have hzeros := (append_iff s₁ s' (replicate (padding s₁.bytes.length format.trailerAlignment) 0)).mpr
      ⟨by rw [hs₁, length_append, length_replicate]; omega,
        by rw [hs', hs₁, length_append, trailerBytes, append_assoc]⟩
    rw [hheader]
    dsimp only
    rw [Spool.appendZeros, hzeros]

theorem buildArchive_iff (opts : Options) (ems : List Emission) (s' : Spool) : buildArchive opts ems = .ok s'
      ↔ (∀ em ∈ ems, em.entry.archivePath.val ≠ trailerName ∧ Fits opts em)
        ∧ (archiveBytes opts ems).length < 2 ^ 63 ∧ s'.bytes = archiveBytes opts ems := by
  have hentries := @emitEntries_iff opts Spool.empty (Nat.dvd_zero _) ems
  have hempty : Spool.empty.bytes = [] := rfl
  rw [hempty, length_nil, nil_append, zero_add] at hentries
  have hlen : (archiveBytes opts ems).length
      = (records opts ems).length + (trailerBytes opts.format (records opts ems).length).length := length_append
  unfold buildArchive
  refine ⟨?_, ?_⟩
  · intro h
    cases hemit : emitEntries opts Spool.empty ems with
    | error d => simp [hemit] at h
    | ok s =>
      rw [hemit] at h
      obtain ⟨hall, _, hs⟩ := (hentries s).mp hemit
      have halign : opts.format.alignment ∣ s.bytes.length := by
        rw [hs]
        exact dvd_records ems
      obtain ⟨hroom, hs'⟩ := (emitTrailer_iff halign s').mp h
      rw [hs] at hroom hs'
      exact ⟨hall, by omega, hs'⟩
  · intro ⟨hall, hroom, hs'⟩
    obtain ⟨s, hs⟩ : ∃ s : Spool, s.bytes = records opts ems := ⟨⟨records opts ems, by omega⟩, rfl⟩
    have halign : opts.format.alignment ∣ s.bytes.length := by
      rw [hs]
      exact dvd_records ems
    rw [(hentries s).mpr ⟨hall, by omega, hs⟩]
    refine (emitTrailer_iff halign s').mpr ⟨?_, ?_⟩
    · rw [hs]
      omega
    · rw [hs]
      exact hs'

end Bx.Cpio
