import Bx.Kit.LittleEndian
import Mathlib.Data.List.Induction

/-!
# Streaming digests

The buffer, the block loop, the length counter and the padding of `src/crypto/sha256.c`, `sha512.c`, `sha1.c` and
`md5.c`, one piece of code with other sizes and byte orders. The compression functions are parameters.
-/

namespace Bx.Crypto

open Kit List

/-- What the four copies differ in; `lengthAt` is where the length stands in the last block. -/
structure Digest (σ κ : Type) where
  blockSize : Nat
  lengthAt : Nat
  addLen : κ → Nat → κ
  lengthField : κ → Bytes
  transform : σ → Bytes → σ
  init : σ × κ
  out : σ → Bytes

/-- `buffer` holds the first `buffer_len` bytes of the array. -/
structure Ctx (σ κ : Type) where
  h : σ
  totalLen : κ
  buffer : Bytes

section
variable {σ κ : Type} (d : Digest σ κ)

def transformBlocks : Nat → σ → Bytes → σ
  | 0, h, _ => h
  | blocks + 1, h, data => transformBlocks blocks (d.transform h (data.take d.blockSize)) (data.drop d.blockSize)

/-- The part of an update that completes a block in the buffer, and the data that is left -/
def fillBuffer (ctx : Ctx σ κ) (data : Bytes) : Ctx σ κ × Bytes :=
  if 0 < ctx.buffer.length then
    let take := min (d.blockSize - ctx.buffer.length) data.length
    let filled := ctx.buffer ++ data.take take
    if filled.length = d.blockSize then ({ ctx with h := d.transform ctx.h filled, buffer := [] }, data.drop take)
    else ({ ctx with buffer := filled }, data.drop take)
  else (ctx, data)

/-- The blocks of the data itself, and what goes into the buffer -/
def absorbData (ctx : Ctx σ κ) (data : Bytes) : Ctx σ κ :=
  let blocks := data.length / d.blockSize
  let rest := data.drop (blocks * d.blockSize)
  { ctx with
    h := transformBlocks d blocks ctx.h data
    buffer := if 0 < rest.length then rest else ctx.buffer }

def update (ctx : Ctx σ κ) (data : Bytes) : Ctx σ κ :=
  let filled := fillBuffer d { ctx with totalLen := d.addLen ctx.totalLen data.length } data
  absorbData d filled.1 filled.2

def finalize (ctx : Ctx σ κ) : Ctx σ κ :=
  let pad : Bytes := 128 :: replicate (d.blockSize - 1) 0
  let padLen := if ctx.buffer.length < d.lengthAt then d.lengthAt - ctx.buffer.length
    else d.blockSize + d.lengthAt - ctx.buffer.length
  update d (update d ctx (pad.take padLen)) (d.lengthField ctx.totalLen)

def final (ctx : Ctx σ κ) : Bytes := d.out (finalize d ctx).h

/-- The context after these updates -/
def absorb (chunks : List Bytes) : Ctx σ κ := chunks.foldl (update d) ⟨d.init.1, d.init.2, []⟩

end

/-! ## The four files -/

def storeBe32 (value : UInt32) : Bytes := (leBytes 4 value.toNat).reverse

def storeBe64 (value : UInt64) : Bytes := (leBytes 8 value.toNat).reverse

def storeLe32 (value : UInt32) : Bytes := leBytes 4 value.toNat

def addLen64 (totalLen : UInt64) (len : Nat) : UInt64 := totalLen + UInt64.ofNat len

/-- `bx_sha512_add_len`, the high half first -/
def sha512AddLen (totalLen : UInt64 × UInt64) (len : Nat) : UInt64 × UInt64 :=
  let low := totalLen.2 + UInt64.ofNat len
  (if low < totalLen.2 then totalLen.1 + 1 else totalLen.1, low)

def sha512LengthField (totalLen : UInt64 × UInt64) : Bytes :=
  storeBe64 (totalLen.1 <<< 3 ||| totalLen.2 >>> 61) ++ storeBe64 (totalLen.2 <<< 3)

section
variable (transform32 : List UInt32 → Bytes → List UInt32) (transform64 : List UInt64 → Bytes → List UInt64)

def sha256 : Digest (List UInt32) UInt64 where
  blockSize := 64
  lengthAt := 56
  addLen := addLen64
  lengthField totalLen := storeBe64 (totalLen * 8)
  transform := transform32
  init := ([0x6a09e667, 0xbb67ae85, 0x3c6ef372, 0xa54ff53a, 0x510e527f, 0x9b05688c, 0x1f83d9ab, 0x5be0cd19], 0)
  out h := h.flatMap storeBe32

def sha224 : Digest (List UInt32) UInt64 :=
  { sha256 transform32 with
    init := ([0xc1059ed8, 0x367cd507, 0x3070dd17, 0xf70e5939, 0xffc00b31, 0x68581511, 0x64f98fa7, 0xbefa4fa4], 0)
    out := fun h => (h.take 7).flatMap storeBe32 }

def sha512 : Digest (List UInt64) (UInt64 × UInt64) where
  blockSize := 128
  lengthAt := 112
  addLen := sha512AddLen
  lengthField := sha512LengthField
  transform := transform64
  init := ([0x6a09e667f3bcc908, 0xbb67ae8584caa73b, 0x3c6ef372fe94f82b, 0xa54ff53a5f1d36f1, 0x510e527fade682d1,
    0x9b05688c2b3e6c1f, 0x1f83d9abfb41bd6b, 0x5be0cd19137e2179], 0, 0)
  out h := h.flatMap storeBe64

def sha384 : Digest (List UInt64) (UInt64 × UInt64) :=
  { sha512 transform64 with
    init := ([0xcbbb9d5dc1059ed8, 0x629a292a367cd507, 0x9159015a3070dd17, 0x152fecd8f70e5939, 0x67332667ffc00b31,
      0x8eb44a8768581511, 0xdb0c2e0d64f98fa7, 0x47b5481dbefa4fa4], 0, 0)
    out := fun h => (h.take 6).flatMap storeBe64 }

def sha1 : Digest (List UInt32) UInt64 :=
  { sha256 transform32 with
    init := ([0x67452301, 0xEFCDAB89, 0x98BADCFE, 0x10325476, 0xC3D2E1F0], 0) }

def md5 : Digest (List UInt32) UInt64 :=
  { sha256 transform32 with
    lengthField := fun totalLen => leBytes 8 (totalLen * 8).toNat
    init := ([0x67452301, 0xefcdab89, 0x98badcfe, 0x10325476], 0)
    out := fun h => h.flatMap storeLe32 }

end

/-! ## What has been absorbed -/

section
variable {σ κ : Type} {d : Digest σ κ}

theorem transformBlocks_add (m n : Nat) (h : σ) (data : Bytes) : transformBlocks d (m + n) h data =
      transformBlocks d n (transformBlocks d m h data) (data.drop (m * d.blockSize)) := by
  induction m generalizing h data with
  | zero => rw [zero_add, zero_mul, drop_zero, transformBlocks]
  | succ m ih =>
    rw [Nat.succ_add, transformBlocks, ih, drop_drop, transformBlocks, Nat.succ_mul, add_comm d.blockSize]

theorem transformBlocks_append {n : Nat} {h : σ} {data : Bytes} (hlong : n * d.blockSize ≤ data.length) (more : Bytes) :
    transformBlocks d n h (data ++ more) = transformBlocks d n h data := by
  induction n generalizing h data with
  | zero => rfl
  | succ n ih =>
    rw [Nat.succ_mul] at hlong
    rw [transformBlocks, transformBlocks, take_append_of_le_length (by omega), drop_append_of_le_length (by omega), ih]
    rw [length_drop]
    omega

/-- `blocks` blocks of the message have gone into the state, and the buffer holds what stands after them. -/
structure Absorbed (d : Digest σ κ) (message : Bytes) (blocks : Nat) (ctx : Ctx σ κ) : Prop where
  length : message.length = blocks * d.blockSize + ctx.buffer.length
  short : ctx.buffer.length < d.blockSize
  h : ctx.h = transformBlocks d blocks d.init.1 message
  buffer : ctx.buffer = message.drop (blocks * d.blockSize)

variable {message : Bytes} {blocks : Nat} {ctx : Ctx σ κ}

section
variable (h : Absorbed d message blocks ctx)
include h

theorem Absorbed.fillBuffer (data : Bytes) : ∃ taken blocks', taken ++ (fillBuffer d ctx data).2 = data ∧
      Absorbed d (message ++ taken) blocks' (fillBuffer d ctx data).1 ∧
      ((fillBuffer d ctx data).1.buffer = [] ∨ (fillBuffer d ctx data).2 = []) := by
  unfold Crypto.fillBuffer
  have hshort := h.short
  have hblocks : blocks * d.blockSize ≤ message.length := by rw [h.length]; exact Nat.le_add_right _ _
  by_cases hsome : 0 < ctx.buffer.length
  · rw [if_pos hsome]
    dsimp only
    generalize htake : min (d.blockSize - ctx.buffer.length) data.length = take
    have hlength : (ctx.buffer ++ data.take take).length = ctx.buffer.length + take := by
      rw [length_append, length_take]
      omega
    have hdrop : (message ++ data.take take).drop (blocks * d.blockSize) = ctx.buffer ++ data.take take := by
      rw [drop_append_of_le_length hblocks, ← h.buffer]
    by_cases hfull : (ctx.buffer ++ data.take take).length = d.blockSize
    · rw [if_pos hfull]
      refine ⟨data.take take, blocks + 1, take_append_drop _ _, ⟨?_, ?_, ?_, ?_⟩, .inl rfl⟩
      · rw [length_append, h.length, Nat.succ_mul, ← hfull, length_append]
        exact add_assoc _ _ _
      · exact lt_of_le_of_lt (Nat.zero_le _) hshort
      · rw [transformBlocks_add, transformBlocks_append hblocks, ← h.h, hdrop, transformBlocks, transformBlocks,
          take_of_length_le (le_of_eq hfull)]
      · rw [Nat.succ_mul, ← drop_drop, hdrop, drop_of_length_le (le_of_eq hfull)]
    · rw [if_neg hfull]
      rw [hlength] at hfull
      refine ⟨data.take take, blocks, take_append_drop _ _, ⟨?_, ?_, ?_, hdrop.symm⟩, .inr ?_⟩
      · rw [length_append, h.length, length_append, add_assoc]
      · change (ctx.buffer ++ data.take take).length < d.blockSize
        omega
      · rw [transformBlocks_append hblocks]
        exact h.h
      · apply drop_of_length_le
        omega
  · rw [if_neg hsome]
    refine ⟨[], blocks, rfl, ?_, .inl (eq_nil_of_length_eq_zero (Nat.eq_zero_of_not_pos hsome))⟩
    rw [append_nil]
    exact h

theorem Absorbed.absorbData (hempty : ctx.buffer = []) (data : Bytes) :
    Absorbed d (message ++ data) (blocks + data.length / d.blockSize) (absorbData d ctx data) := by
  have hpos : 0 < d.blockSize := lt_of_le_of_lt (Nat.zero_le _) h.short
  have hmessage : message.length = blocks * d.blockSize := by
    have hlength := h.length
    rwa [hempty] at hlength
  have hrest : (Crypto.absorbData d ctx data).buffer = data.drop (data.length / d.blockSize * d.blockSize) := by
    unfold Crypto.absorbData
    dsimp only
    split
    · rfl
    · next hnone => rw [hempty, eq_nil_of_length_eq_zero (Nat.eq_zero_of_not_pos hnone)]
  have hmod : (data.drop (data.length / d.blockSize * d.blockSize)).length = data.length % d.blockSize := by
    rw [length_drop, mul_comm, Nat.mod_def]
  refine ⟨?_, ?_, ?_, ?_⟩
  · rw [hrest, hmod, length_append, hmessage, Nat.add_mul, add_assoc, mul_comm (_ / _), Nat.div_add_mod]
  · rw [hrest, hmod]
    exact Nat.mod_lt _ hpos
  · rw [transformBlocks_add, transformBlocks_append (le_of_eq hmessage.symm), ← hmessage, drop_left, ← h.h]
    rfl
  · rw [hrest, Nat.add_mul, ← drop_drop, ← hmessage, drop_left]

theorem Absorbed.update (data : Bytes) : ∃ blocks', Absorbed d (message ++ data) blocks' (update d ctx data) := by
  have hcounted : Absorbed d message blocks { ctx with totalLen := d.addLen ctx.totalLen data.length } :=
    ⟨h.length, h.short, h.h, h.buffer⟩
  obtain ⟨taken, blocks', htaken, habsorbed, hdone⟩ := hcounted.fillBuffer data
  unfold Crypto.update
  dsimp only
  generalize Crypto.fillBuffer d _ data = filled at htaken habsorbed hdone
  rw [← htaken, ← append_assoc]
  cases hdone with
  | inl hempty => exact ⟨_, habsorbed.absorbData hempty filled.2⟩
  | inr hnone =>
    refine ⟨blocks', ?_⟩
    rw [hnone, append_nil]
    have hsame : Crypto.absorbData d filled.1 [] = filled.1 := by
      unfold Crypto.absorbData
      simp only [length_nil, Nat.zero_div, drop_nil, lt_irrefl, if_false, transformBlocks]
    rw [hsame]
    exact habsorbed

end

/-- A counter that says `n` bytes, and goes on saying how many as long as the bits fit into 64 -/
structure Counts (d : Digest σ κ) (field : Nat → Bytes) (tells : κ → Nat → Prop) : Prop where
  start : tells d.init.2 0
  add : ∀ c n len, tells c n → n + len < 2 ^ 61 → tells (d.addLen c len) (n + len)
  field : ∀ c n, tells c n → n < 2 ^ 61 → d.lengthField c = field (8 * n)

theorem update_totalLen (ctx : Ctx σ κ) (data : Bytes) :
    (update d ctx data).totalLen = d.addLen ctx.totalLen data.length := by
  unfold Crypto.update Crypto.absorbData Crypto.fillBuffer
  dsimp only
  split
  · split <;> rfl
  · rfl

theorem absorb_absorbed {field : Nat → Bytes} {tells : κ → Nat → Prop} (hcounts : Counts d field tells)
    (hpos : 0 < d.blockSize) (chunks : List Bytes) :
    (∃ blocks, Absorbed d chunks.flatten blocks (absorb d chunks)) ∧
      (chunks.flatten.length < 2 ^ 61 → tells (absorb d chunks).totalLen chunks.flatten.length) := by
  induction chunks using List.reverseRecOn with
  | nil => exact ⟨⟨0, (zero_mul _).symm, hpos, rfl, drop_nil.symm⟩, fun _ => hcounts.start⟩
  | append_singleton chunks chunk ih =>
    obtain ⟨⟨blocks, habsorbed⟩, hcounted⟩ := ih
    have hlast : absorb d (chunks ++ [chunk]) = update d (absorb d chunks) chunk := foldl_append
    rw [hlast, flatten_append, flatten_singleton, length_append]
    refine ⟨habsorbed.update chunk, fun hshort => ?_⟩
    rw [update_totalLen]
    exact hcounts.add _ _ _ (hcounted (by omega)) hshort

/-- The length of the padding from the 0x80 byte up to the length field -/
theorem Absorbed.padding (h : Absorbed d message blocks ctx) {fieldSize : Nat}
    (hfield : d.lengthAt + fieldSize = d.blockSize) :
    ∃ zeros < d.blockSize, IsLeast {k | d.blockSize ∣ message.length + 1 + k + fieldSize} zeros ∧
      (if ctx.buffer.length < d.lengthAt then d.lengthAt - ctx.buffer.length
        else d.blockSize + d.lengthAt - ctx.buffer.length) = zeros + 1 := by
  have hshort := h.short
  have hleast : ∀ zeros rounds, zeros < d.blockSize → ctx.buffer.length + 1 + zeros + fieldSize = rounds * d.blockSize →
      IsLeast {k | d.blockSize ∣ message.length + 1 + k + fieldSize} zeros := by
    intro zeros rounds hlt hsum
    have hwhole : message.length + 1 + zeros + fieldSize = (blocks + rounds) * d.blockSize := by
      rw [h.length, Nat.add_mul, ← hsum]
      omega
    refine ⟨⟨blocks + rounds, by rw [hwhole, mul_comm]⟩, ?_⟩
    intro k hk
    by_contra hless
    have hdiff := Nat.dvd_sub (Dvd.intro_left _ hwhole.symm) hk
    have hvalue : message.length + 1 + zeros + fieldSize - (message.length + 1 + k + fieldSize) = zeros - k := by omega
    rw [hvalue] at hdiff
    have hle := Nat.le_of_dvd (by omega) hdiff
    omega
  by_cases hroom : ctx.buffer.length < d.lengthAt
  · rw [if_pos hroom]
    exact ⟨d.lengthAt - ctx.buffer.length - 1, by omega, hleast _ 1 (by omega) (by omega), by omega⟩
  · rw [if_neg hroom]
    exact ⟨d.blockSize + d.lengthAt - ctx.buffer.length - 1, by omega, hleast _ 2 (by omega) (by omega), by omega⟩

end

/-- A digest of any chunks is that of their whole message, padded with a 0x80 byte, as few zero bytes as complete a
block and the number of bits. -/
def OneShot {σ κ : Type} (d : Digest σ κ) (field : Nat → Bytes) : Prop :=
  ∀ chunks message, chunks.flatten = message → message.length < 2 ^ 61 →
    (absorb d chunks).buffer.length < d.blockSize ∧
      (absorb d chunks).buffer = message.drop (message.length / d.blockSize * d.blockSize) ∧
      (finalize d (absorb d chunks)).buffer = [] ∧
      ∃ zeros padded, IsLeast {k | d.blockSize ∣ message.length + 1 + k + (field (8 * message.length)).length} zeros ∧
        padded = message ++ 128 :: replicate zeros 0 ++ field (8 * message.length) ∧
        final d (absorb d chunks) = d.out (transformBlocks d (padded.length / d.blockSize) d.init.1 padded)

section
variable {σ κ : Type} {d : Digest σ κ}

theorem oneShot {field : Nat → Bytes} {tells : κ → Nat → Prop} (hcounts : Counts d field tells)
    (hfield : ∀ bits, d.lengthAt + (field bits).length = d.blockSize) (hpos : 0 < d.blockSize) : OneShot d field := by
  intro chunks message hmessage hshort
  obtain ⟨⟨blocks, habsorbed⟩, hcounted⟩ := absorb_absorbed hcounts hpos chunks
  rw [hmessage] at habsorbed hcounted
  obtain ⟨zeros, hfew, hleast, hpad⟩ := habsorbed.padding (hfield (8 * message.length))
  have hquot : ∀ {m q} {c : Ctx σ κ}, Absorbed d m q c → m.length / d.blockSize = q := by
    intro m q c h
    rw [h.length, mul_comm, Nat.mul_add_div hpos, Nat.div_eq_of_lt h.short, add_zero]
  obtain ⟨_, hpadded⟩ := habsorbed.update (128 :: replicate zeros 0)
  obtain ⟨last, hlast⟩ := hpadded.update (field (8 * message.length))
  have hfinal : finalize d (absorb d chunks) =
      update d (update d (absorb d chunks) (128 :: replicate zeros 0)) (field (8 * message.length)) := by
    unfold finalize
    dsimp only
    rw [hpad, take_succ_cons, take_replicate, min_eq_left (by omega), hcounts.field _ _ (hcounted hshort) hshort]
  rw [← hfinal] at hlast
  refine ⟨habsorbed.short, ?_, ?_, zeros, _, hleast, rfl, ?_⟩
  · rw [hquot habsorbed]
    exact habsorbed.buffer
  · obtain ⟨rounds, hrounds⟩ := hleast.1
    have hlength := hlast.length
    simp only [length_append, length_cons, length_replicate] at hlength
    have hdvd : d.blockSize ∣ (finalize d (absorb d chunks)).buffer.length :=
      (Nat.dvd_add_right (Dvd.intro_left last rfl)).mp ⟨rounds, by omega⟩
    exact eq_nil_of_length_eq_zero (Nat.eq_zero_of_dvd_of_lt hdvd hlast.short)
  · rw [hquot hlast, final, hlast.h]

end

/-! ## The counters -/

section
variable {σ : Type}

theorem leBytes_add (a b value : Nat) : leBytes (a + b) value = leBytes a value ++ leBytes b (value / 256 ^ a) := by
  induction a generalizing value with
  | zero => rw [zero_add, Nat.pow_zero, Nat.div_one]; rfl
  | succ a ih => rw [Nat.succ_add, leBytes, leBytes, ih, Nat.div_div_eq_div_mul, ← Nat.pow_succ', cons_append]

theorem toNat_addLen {c : UInt64} {n len : Nat} (hc : c.toNat = n) (h : n + len < 2 ^ 61) :
    (c + UInt64.ofNat len).toNat = n + len := by
  rw [UInt64.toNat_add, UInt64.toNat_ofNat', hc, Nat.mod_eq_of_lt (by omega), Nat.mod_eq_of_lt (by omega)]

theorem toNat_bits {c : UInt64} {n : Nat} (hc : c.toNat = n) (h : n < 2 ^ 61) : (c * 8).toNat = 8 * n := by
  rw [UInt64.toNat_mul, hc, mul_comm]
  exact Nat.mod_eq_of_lt (by change 8 * n < 2 ^ 64; omega)

theorem counts64 {d : Digest σ UInt64} {field : Nat → Bytes} (hstart : d.init.2 = 0) (hadd : d.addLen = addLen64)
    (hfield : ∀ c, d.lengthField c = field (c * 8).toNat) : Counts d field (fun c n => c.toNat = n) := by
  refine ⟨?_, ?_, ?_⟩
  · rw [hstart]
    rfl
  · intro c n len hc hshort
    rw [hadd]
    exact toNat_addLen hc hshort
  · intro c n hc hshort
    rw [hfield, toNat_bits hc hshort]

theorem counts128 {d : Digest σ (UInt64 × UInt64)} (hstart : d.init.2 = (0, 0)) (hadd : d.addLen = sha512AddLen)
    (hfield : d.lengthField = sha512LengthField) :
    Counts d (fun bits => (leBytes 16 bits).reverse) (fun c n => c.1 = 0 ∧ c.2.toNat = n) := by
  refine ⟨?_, ?_, ?_⟩
  · rw [hstart]
    exact ⟨rfl, rfl⟩
  · intro c n len hc hshort
    rw [hadd]
    have hlow := toNat_addLen hc.2 hshort
    have hcarry : ¬ c.2 + UInt64.ofNat len < c.2 := by
      rw [UInt64.lt_iff_toNat_lt, hlow, hc.2]
      omega
    unfold sha512AddLen
    dsimp only
    rw [if_neg hcarry]
    exact ⟨hc.1, hlow⟩
  · intro c n hc hshort
    rw [hfield]
    have hlow : (c.2 <<< 3).toNat = 8 * n := by
      rw [UInt64.toNat_shiftLeft, hc.2]
      change n <<< 3 % 2 ^ 64 = 8 * n
      rw [Nat.shiftLeft_eq]
      omega
    have hhigh : (c.1 <<< 3 ||| c.2 >>> 61).toNat = 0 := by
      rw [hc.1, UInt64.toNat_or, UInt64.toNat_shiftRight, hc.2]
      change 0 ||| n >>> 61 = 0
      rw [Nat.zero_or, Nat.shiftRight_eq_div_pow]
      omega
    have hover : 8 * n / 256 ^ 8 = 0 := by omega
    unfold sha512LengthField storeBe64
    rw [hlow, hhigh, leBytes_add 8 8, reverse_append, hover]

end

/-- **Main result.** Streaming is one-shot hashing for each digest, with the number of bits in 64 or 128 bits of the
byte order of the digest. -/
theorem digests_oneShot (transform32 : List UInt32 → Bytes → List UInt32)
    (transform64 : List UInt64 → Bytes → List UInt64) :
    OneShot (sha256 transform32) (fun bits => (leBytes 8 bits).reverse) ∧
      OneShot (sha224 transform32) (fun bits => (leBytes 8 bits).reverse) ∧
      OneShot (sha512 transform64) (fun bits => (leBytes 16 bits).reverse) ∧
      OneShot (sha384 transform64) (fun bits => (leBytes 16 bits).reverse) ∧
      OneShot (sha1 transform32) (fun bits => (leBytes 8 bits).reverse) ∧
      OneShot (md5 transform32) (leBytes 8) := by
  have hbig : ∀ bits, (leBytes 8 bits).reverse.length = 8 := fun bits => by rw [length_reverse, length_leBytes]
  have hwide : ∀ bits, (leBytes 16 bits).reverse.length = 16 := fun bits => by rw [length_reverse, length_leBytes]
  refine ⟨?_, ?_, ?_, ?_, ?_, ?_⟩
  · exact oneShot (counts64 rfl rfl fun _ => rfl) (fun bits => congrArg (56 + ·) (hbig bits)) (Nat.succ_pos _)
  · exact oneShot (counts64 rfl rfl fun _ => rfl) (fun bits => congrArg (56 + ·) (hbig bits)) (Nat.succ_pos _)
  · exact oneShot (counts128 rfl rfl rfl) (fun bits => congrArg (112 + ·) (hwide bits)) (Nat.succ_pos _)
  · exact oneShot (counts128 rfl rfl rfl) (fun bits => congrArg (112 + ·) (hwide bits)) (Nat.succ_pos _)
  · exact oneShot (counts64 rfl rfl fun _ => rfl) (fun bits => congrArg (56 + ·) (hbig bits)) (Nat.succ_pos _)
  · exact oneShot (counts64 rfl rfl fun _ => rfl) (fun bits => congrArg (56 + ·) (length_leBytes 8 bits))
      (Nat.succ_pos _)

end Bx.Crypto
