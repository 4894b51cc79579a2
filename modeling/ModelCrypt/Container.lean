/-
# The container as a grammar

A container is a valid header and, for every chunk, a record that fits its
position: `Container` carries that as fields, so an ill-formed one cannot be
built. Its bytes are the header's and the records', one after the other, and
they determine it (`Container.bytes_inj`).

`readRecord` is a reader of one record off the front of a byte string, without
offsets; it inverts `Record.bytes` (`readRecord_iff`), and so does the reader
of a list of records (`readRecords_iff`). The walk of the chunk table, which
advances an offset through the whole input, computes what this reader does
(`walkLoop_eq`).

Key definitions: `Record`, `Record.Fits`, `Container`, `readRecords`.
Key theorems: `readRecords_iff`, `Container.bytes_inj`, `walkStep_eq`, `walkLoop_eq`.
-/
import ModelCrypt.Codec
import ModelCrypt.Decrypt

namespace ModelCrypt

open Lib Prog

/-! ### Slices of the plaintext -/

/-- The length of slice `i` of the plaintext. -/
def FileHeader.sliceSize (h : FileHeader) (i : ℕ) : ℕ :=
  min h.chunkSize.toNat (h.plaintextSize.toNat - i * h.chunkSize.toNat)

theorem SizeT.cast_of_le {z : SizeT} {n : ℕ} (h : n ≤ z.max) : z.cast n = n :=
  Nat.mod_eq_of_lt (Nat.lt_succ_of_le h)

theorem mul32_lt (a b : UInt32) : a.toNat * b.toNat < 2 ^ 64 := by
  have ha := Nat.le_of_lt_succ a.toNat_lt
  have hb := Nat.le_of_lt_succ b.toNat_lt
  calc a.toNat * b.toNat ≤ (2 ^ 32 - 1) * (2 ^ 32 - 1) := Nat.mul_le_mul ha hb
    _ < 2 ^ 64 := by decide

/-- The product of two 32-bit values does not overflow in 64 bits. -/
theorem mul32_toNat (a b : UInt32) : (a.toUInt64 * b.toUInt64).toNat = a.toNat * b.toNat := by
  rw [UInt64.toNat_mul, UInt32.toNat_toUInt64, UInt32.toNat_toUInt64,
    Nat.mod_eq_of_lt (mul32_lt a b)]

/-- `ChunkPlainSize` is a slice: what is left of the plaintext, up to a chunk. -/
theorem Decrypt.chunkPlainSize_min (z : SizeT) (P : UInt64) (C index : UInt32) :
    chunkPlainSize z P C index = min C.toNat (P.toNat - index.toNat * C.toNat) := by
  have hz := z.max_ge
  have hC := C.toNat_lt
  have hm := mul32_toNat index C
  unfold chunkPlainSize
  by_cases hge : index.toUInt64 * C.toUInt64 ≥ P
  · have hle : P.toNat ≤ index.toNat * C.toNat := by
      rw [← hm]
      exact UInt64.le_iff_toNat_le.mp hge
    rw [if_pos hge, Nat.sub_eq_zero_of_le hle, Nat.min_zero]
  · have hlt : index.toUInt64 * C.toUInt64 ≤ P :=
      UInt64.le_iff_toNat_le.mpr (Nat.le_of_not_le fun hc => hge (UInt64.le_iff_toNat_le.mpr hc))
    have hsub : (P - index.toUInt64 * C.toUInt64).toNat = P.toNat - index.toNat * C.toNat := by
      rw [UInt64.toNat_sub_of_le _ _ hlt, hm]
    rw [if_neg hge]
    dsimp only
    by_cases hr : P - index.toUInt64 * C.toUInt64 < C.toUInt64
    · rw [if_pos hr]
      rw [UInt64.lt_iff_toNat_lt, hsub, UInt32.toNat_toUInt64] at hr
      rw [hsub, SizeT.cast_of_le (by omega)]
      omega
    · rw [if_neg hr]
      rw [UInt64.lt_iff_toNat_lt, hsub, UInt32.toNat_toUInt64] at hr
      omega

theorem Decrypt.chunkPlainSize_eq (z : SizeT) (h : FileHeader) (index : UInt32) :
    chunkPlainSize z h.plaintextSize h.chunkSize index = h.sliceSize index.toNat := chunkPlainSize_min z _ _ index

/-! ### Records -/

/-- A chunk record and the ciphertext that follows it. -/
@[ext]
structure Record where
  chunk : ChunkHeader
  tag : ByteVec kTagSize
  ct : Bytes
  deriving DecidableEq, Repr

def Record.bytes (r : Record) : Bytes := serializeChunkHeader r.chunk r.tag ++ r.ct

/-- The record may stand at position `i` of a container with header `h`. -/
structure Record.Fits (h : FileHeader) (i : ℕ) (r : Record) : Prop where
  size : r.ct.length = r.chunk.storedSize.toNat
  bound : r.chunk.storedSize ≤ maxStoredSizeFor h.chunkSize
  flags : r.chunk.flags = 0 ∨ r.chunk.flags = kChunkFlagCompressed
  raw : r.chunk.compressed = false → r.chunk.storedSize.toNat = h.sliceSize i
  deflated : r.chunk.compressed = true → 0 < r.chunk.storedSize.toNat ∧ h.compressionId = mcCompressZlib

theorem Record.bytes_length {r : Record} : r.bytes.length = kChunkHeaderSize + r.ct.length := by
  rw [Record.bytes, List.length_append, serializeChunkHeader_length]

/-- Read the record of position `i` off the front. -/
def readRecord (h : FileHeader) (i : ℕ) (rest : Bytes) : Option (Record × Bytes) :=
  if rest.length < kChunkHeaderSize then none
  else match parseChunkHeader (.bytes rest) 0 (maxStoredSizeFor h.chunkSize) with
    | .error _ => none
    | .ok (chunk, tag) =>
      let body := rest.drop kChunkHeaderSize
      if body.length < chunk.storedSize.toNat then none
      else if chunk.compressed = false ∧ chunk.storedSize.toNat ≠ h.sliceSize i then none
      else if chunk.compressed = true ∧ chunk.storedSize = 0 then none
      else if chunk.compressed = true ∧ h.compressionId ≠ mcCompressZlib then none
      else some (⟨chunk, tag, body.take chunk.storedSize.toNat⟩, body.drop chunk.storedSize.toNat)

/-- **The reader of a record inverts its bytes.** -/
theorem readRecord_iff {h : FileHeader} {i : ℕ} {rest rest' : Bytes} {r : Record} :
    readRecord h i rest = some (r, rest') ↔ rest = r.bytes ++ rest' ∧ r.Fits h i := by
  unfold readRecord
  constructor
  · intro hr
    split_ifs at hr with hlen
    have hb : 0 + kChunkHeaderSize ≤ rest.length := by rw [Nat.zero_add]; exact Nat.not_lt.mp hlen
    split at hr
    · cases hr
    rename_i chunk tag hp
    dsimp only at hr
    split_ifs at hr with h1 h2 h3 h4
    cases hr
    obtain ⟨hs, hf, hm⟩ := (parseChunkHeader_ok_iff hb).mp hp
    have hz : chunk.compressed = true → 0 < chunk.storedSize.toNat := fun hc => by
      refine Nat.pos_of_ne_zero fun e => h3 ⟨hc, ?_⟩
      exact UInt32.toNat_inj.mp e
    refine ⟨?_, List.length_take_of_le (Nat.not_lt.mp h1), hm, hf, fun hc => ?_, fun hc => ⟨hz hc, ?_⟩⟩
    · rw [Record.bytes, ← hs, slice_take, List.append_assoc, List.take_append_drop, List.take_append_drop]
    · exact not_not.mp fun e => h2 ⟨hc, e⟩
    · exact not_not.mp fun e => h4 ⟨hc, e⟩
  · rintro ⟨rfl, hf⟩
    have hsl := serializeChunkHeader_length r.chunk r.tag
    have hlen : (r.bytes ++ rest').length = kChunkHeaderSize + (r.ct.length + rest'.length) := by
      rw [List.length_append, Record.bytes_length, Nat.add_assoc]
    have hb : 0 + kChunkHeaderSize ≤ (r.bytes ++ rest').length := by omega
    have hs : slice (r.bytes ++ rest') 0 kChunkHeaderSize = serializeChunkHeader r.chunk r.tag := by
      rw [slice_take, Record.bytes, List.append_assoc, List.take_left' hsl]
    have hp := (parseChunkHeader_ok_iff hb).mpr ⟨hs, hf.flags, hf.bound⟩
    have hd : (r.bytes ++ rest').drop kChunkHeaderSize = r.ct ++ rest' := by
      rw [Record.bytes, List.append_assoc, List.drop_left' hsl]
    rw [if_neg (by omega), hp]
    dsimp only
    rw [hd, if_neg (by rw [List.length_append, hf.size]; omega), if_neg, if_neg, if_neg, ← hf.size,
      List.take_left, List.drop_left]
    · rintro ⟨hc, hne⟩
      exact hne (hf.deflated hc).2
    · rintro ⟨hc, he⟩
      have := (hf.deflated hc).1
      rw [he] at this
      exact absurd this (by decide)
    · rintro ⟨hc, hne⟩
      exact hne (hf.raw hc)

/-! ### Lists of records -/

/-- The records may stand at the positions from `i` on. -/
def FitsFrom (h : FileHeader) : ℕ → List Record → Prop
  | _, [] => True
  | i, r :: rs => r.Fits h i ∧ FitsFrom h (i + 1) rs

def recordBytes (rs : List Record) : Bytes := (rs.map Record.bytes).flatten

/-- Read `n` records off the front, the first at position `i`. -/
def readRecords (h : FileHeader) : ℕ → ℕ → Bytes → Option (List Record × Bytes)
  | 0, _, rest => some ([], rest)
  | n + 1, i, rest =>
    match readRecord h i rest with
    | none => none
    | some (r, rest') => (readRecords h n (i + 1) rest').map fun p => (r :: p.1, p.2)

@[simp] theorem recordBytes_nil : recordBytes [] = [] := rfl

theorem recordBytes_cons (r : Record) (rs : List Record) : recordBytes (r :: rs) = r.bytes ++ recordBytes rs := rfl

theorem recordBytes_length_ge : ∀ rs : List Record, rs.length * kChunkHeaderSize ≤ (recordBytes rs).length
  | [] => Nat.zero_le _
  | r :: rs => by
    have ih := recordBytes_length_ge rs
    rw [recordBytes_cons, List.length_append, Record.bytes_length, List.length_cons, Nat.succ_mul]
    omega

theorem fitsFrom_iff {h : FileHeader} : ∀ {i : ℕ} {rs : List Record},
    FitsFrom h i rs ↔ ∀ j (hj : j < rs.length), rs[j].Fits h (i + j)
  | i, [] => by simp [FitsFrom]
  | i, r :: rs => by
    rw [FitsFrom, fitsFrom_iff]
    constructor
    · rintro ⟨h1, h2⟩ j hj
      cases j with
      | zero => exact h1
      | succ j =>
        rw [← Nat.succ_add_eq_add_succ]
        exact h2 j (Nat.lt_of_succ_lt_succ hj)
    · intro hall
      refine ⟨hall 0 (Nat.succ_pos _), fun j hj => ?_⟩
      have := hall (j + 1) (Nat.succ_lt_succ hj)
      rwa [← Nat.succ_add_eq_add_succ] at this

/-- **The reader of records inverts their bytes**: by induction on the count,
one record at a time. -/
theorem readRecords_iff {h : FileHeader} : ∀ {n i : ℕ} {rest rest' : Bytes} {rs : List Record},
    readRecords h n i rest = some (rs, rest') ↔
      rs.length = n ∧ rest = recordBytes rs ++ rest' ∧ FitsFrom h i rs
  | 0, i, rest, rest', rs => by
    rw [readRecords]
    constructor
    · intro hr
      cases hr
      exact ⟨rfl, rfl, trivial⟩
    · rintro ⟨hl, hb, -⟩
      cases List.eq_nil_of_length_eq_zero hl
      rw [hb, recordBytes_nil, List.nil_append]
  | n + 1, i, rest, rest', rs => by
    rw [readRecords]
    constructor
    · intro hr
      split at hr
      · cases hr
      rename_i r rest1 hr1
      rw [Option.map_eq_some_iff] at hr
      obtain ⟨⟨rs1, rest2⟩, h2, he⟩ := hr
      cases he
      obtain ⟨hb1, hf1⟩ := readRecord_iff.mp hr1
      obtain ⟨hl, hb2, hf2⟩ := readRecords_iff.mp h2
      exact ⟨by rw [List.length_cons, hl], by rw [hb1, hb2, recordBytes_cons, List.append_assoc], hf1, hf2⟩
    · rintro ⟨hl, hb, hf⟩
      cases rs with
      | nil => cases hl
      | cons r rs =>
        have h1 : readRecord h i rest = some (r, recordBytes rs ++ rest') :=
          readRecord_iff.mpr ⟨by rw [hb, recordBytes_cons, List.append_assoc], hf.1⟩
        have h2 : readRecords h n (i + 1) (recordBytes rs ++ rest') = some (rs, rest') :=
          readRecords_iff.mpr ⟨Nat.succ.inj hl, rfl, hf.2⟩
        rw [h1]
        dsimp only
        rw [h2]
        rfl

/-! ### Containers -/

/-- A header and the records that fit it. -/
structure Container where
  header : FileHeader
  records : List Record
  valid : header.Valid
  count : records.length = header.chunkCount.toNat
  fits : FitsFrom header 0 records

def Container.bytes (c : Container) : Bytes := serializeFileHeader c.header ++ recordBytes c.records

theorem Container.bytes_length (c : Container) : c.bytes.length = kHeaderSize + (recordBytes c.records).length := by
  rw [Container.bytes, List.length_append, serializeFileHeader_length]

/-- The first bytes are the header's. -/
theorem Container.slice_header (c : Container) : slice c.bytes 0 kHeaderSize = serializeFileHeader c.header := by
  rw [slice_take, Container.bytes, List.take_left' (serializeFileHeader_length _)]

theorem Container.parse (c : Container) : parseFileHeader (.bytes c.bytes) = .ok c.header := by
  have hl := serializeFileHeader_length c.header
  refine parseFileHeader_ok_iff.mpr ⟨?_, c.valid, c.slice_header⟩
  rw [Container.bytes, List.length_append, hl]
  omega

theorem Container.read (c : Container) :
    readRecords c.header c.header.chunkCount.toNat 0 (c.bytes.drop kHeaderSize) = some (c.records, []) := by
  refine readRecords_iff.mpr ⟨c.count, ?_, c.fits⟩
  rw [Container.bytes, List.drop_left' (serializeFileHeader_length c.header), List.append_nil]

/-- **A container is determined by its bytes.** -/
theorem Container.bytes_inj {c c' : Container} (h : c.bytes = c'.bytes) : c = c' := by
  have hh : c.header = c'.header := by
    have h1 := c.parse
    rw [h, c'.parse] at h1
    exact (Except.ok.inj h1).symm
  have hr : c.records = c'.records := by
    have h1 := c.read
    rw [h, hh, c'.read] at h1
    exact (Prod.mk.inj (Option.some.inj h1)).1.symm
  cases c
  cases c'
  simp_all

theorem Container.fits_get {c : Container} {i : ℕ} {r : Record} (hr : c.records[i]? = some r) :
    r.Fits c.header i := by
  obtain ⟨hlt, rfl⟩ := List.getElem?_eq_some_iff.mp hr
  have := fitsFrom_iff.mp c.fits i hlt
  rwa [Nat.zero_add] at this

/-- The running maximum of the stored sizes of compressed records. -/
def maxStep (m : UInt32) (r : Record) : UInt32 :=
  if r.chunk.compressed = true ∧ r.chunk.storedSize > m then r.chunk.storedSize else m

/-- The largest stored size of a compressed record, or 0. -/
def maxCompressed (rs : List Record) : UInt32 := rs.foldl maxStep 0

/-- The table entries of records that start at an offset. -/
def entriesAt : ℕ → List Record → List Decrypt.ChunkEntry
  | _, [] => []
  | off, r :: rs => ⟨off + kChunkHeaderSize, r.chunk, r.tag⟩ :: entriesAt (off + r.bytes.length) rs

theorem recordBytes_append (rs rs' : List Record) : recordBytes (rs ++ rs') = recordBytes rs ++ recordBytes rs' := by
  rw [recordBytes, List.map_append, List.flatten_append]
  rfl

theorem entriesAt_length : ∀ (off : ℕ) (rs : List Record), (entriesAt off rs).length = rs.length
  | _, [] => rfl
  | off, r :: rs => by rw [entriesAt, List.length_cons, List.length_cons, entriesAt_length]

/-- The entry of a record in the middle. -/
theorem entriesAt_get (r : Record) (post : List Record) : ∀ (off : ℕ) (pre : List Record),
    (entriesAt off (pre ++ r :: post))[pre.length]? =
      some ⟨off + (recordBytes pre).length + kChunkHeaderSize, r.chunk, r.tag⟩
  | off, [] => rfl
  | off, q :: pre => by
    have ih := entriesAt_get r post (off + q.bytes.length) pre
    rw [List.cons_append, entriesAt, List.length_cons, List.getElem?_cons_succ, ih, recordBytes_cons,
      List.length_append, Nat.add_assoc off]

/-- The ciphertext of a record in the middle stands where its entry says. -/
theorem ct_at {f : Bytes} {r : Record} {pre post : List Record} {off : ℕ}
    (hf : f.drop off = recordBytes (pre ++ r :: post)) (ho : off ≤ f.length) :
    off + (recordBytes pre).length + kChunkHeaderSize + r.ct.length ≤ f.length ∧
    slice f (off + (recordBytes pre).length + kChunkHeaderSize) r.ct.length = r.ct := by
  rw [recordBytes_append, recordBytes_cons] at hf
  have hl := congrArg List.length hf
  rw [List.length_drop, List.length_append, List.length_append, Record.bytes_length] at hl
  constructor
  · omega
  · rw [slice, Nat.add_assoc off, ← List.drop_drop, hf, ← List.drop_drop, List.drop_left, Record.bytes,
      List.append_assoc, List.drop_left' (serializeChunkHeader_length ..), List.take_left]

/-- The running maximum after one more record. -/
theorem maxStep_ge (m : UInt32) (r : Record) :
    m ≤ maxStep m r ∧ (r.chunk.compressed = true → r.chunk.storedSize ≤ maxStep m r) := by
  unfold maxStep
  split
  · rename_i h
    exact ⟨UInt32.le_of_lt h.2, fun _ => UInt32.le_refl _⟩
  · rename_i h
    exact ⟨UInt32.le_refl _, fun hc => UInt32.not_lt.mp fun hlt => h ⟨hc, hlt⟩⟩

theorem foldl_maxStep_ge : ∀ (rs : List Record) (m : UInt32), m ≤ rs.foldl maxStep m
  | [], m => UInt32.le_refl m
  | r :: rs, m => UInt32.le_trans (maxStep_ge m r).1 (foldl_maxStep_ge rs (maxStep m r))

theorem le_foldl_maxStep {r : Record} (hc : r.chunk.compressed = true) :
    ∀ (rs : List Record) (m : UInt32), r ∈ rs → r.chunk.storedSize ≤ rs.foldl maxStep m
  | q :: rs, m, hr => by
    rcases List.mem_cons.mp hr with rfl | hr
    · exact UInt32.le_trans ((maxStep_ge m r).2 hc) (foldl_maxStep_ge rs _)
    · exact le_foldl_maxStep hc rs _ hr

/-- The scratch sized for the largest compressed record has room for each of them. -/
theorem le_maxCompressed {rs : List Record} {r : Record} (hr : r ∈ rs) (hc : r.chunk.compressed = true) :
    r.chunk.storedSize ≤ maxCompressed rs := le_foldl_maxStep hc rs 0 hr

theorem foldl_maxStep_eq : ∀ (rs : List Record) (m : UInt32), rs.foldl maxStep m = m ∨
    ∃ r ∈ rs, r.chunk.compressed = true ∧ r.chunk.storedSize = rs.foldl maxStep m
  | [], m => .inl rfl
  | r :: rs, m => by
    rcases foldl_maxStep_eq rs (maxStep m r) with h | ⟨q, hq, hc, hs⟩
    · by_cases hr : r.chunk.compressed = true ∧ r.chunk.storedSize > m
      · exact .inr ⟨r, List.mem_cons_self, hr.1, by rw [List.foldl_cons, h, maxStep, if_pos hr]⟩
      · exact .inl (by rw [List.foldl_cons, h, maxStep, if_neg hr])
    · exact .inr ⟨q, List.mem_cons_of_mem _ hq, hc, hs⟩

/-- **The running maximum is the maximum**, 0 if there is no compressed record. -/
theorem maxCompressed_eq (c : Container) :
    (∀ r ∈ c.records, r.chunk.compressed = true → r.chunk.storedSize ≤ maxCompressed c.records) ∧
    (maxCompressed c.records = 0 ∧ (∀ r ∈ c.records, r.chunk.compressed = false) ∨
      ∃ r ∈ c.records, r.chunk.compressed = true ∧ r.chunk.storedSize = maxCompressed c.records) := by
  refine ⟨fun r hr hc => le_maxCompressed hr hc, ?_⟩
  rcases foldl_maxStep_eq c.records 0 with h | h
  · refine .inl ⟨h, fun r hr => Bool.eq_false_of_not_eq_true fun hc => ?_⟩
    obtain ⟨i, hi⟩ := List.getElem?_of_mem hr
    have hle := UInt32.le_iff_toNat_le.mp (le_maxCompressed hr hc)
    have hpos := ((Container.fits_get hi).deflated hc).1
    rw [maxCompressed, h] at hle
    exact absurd hpos (Nat.not_lt.mpr hle)
  · exact .inr h

/-! ### The walk -/

namespace Decrypt

/-- The walk after one more record. -/
def Walk.push (walk : Walk) (r : Record) : Walk where
  entries := walk.entries ++ [⟨walk.offset + kChunkHeaderSize, r.chunk, r.tag⟩]
  offset := walk.offset + r.bytes.length
  maxCompressed := maxStep walk.maxCompressed r

theorem parseChunkHeader_drop {f : Bytes} {off : ℕ} {m : UInt32} (h : off + kChunkHeaderSize ≤ f.length) :
    parseChunkHeader (.bytes f) off m = parseChunkHeader (.bytes (f.drop off)) 0 m := by
  have h0 : 0 + kChunkHeaderSize ≤ (f.drop off).length := by rw [List.length_drop]; omega
  have e (k n : ℕ) : slice (f.drop off) (0 + k) n = slice f (off + k) n := by
    rw [slice, slice, List.drop_drop, Nat.zero_add]
  rw [parseChunkHeader_bytes h, parseChunkHeader_bytes h0, e, e, e]
  rw [show slice (f.drop off) 0 4 = slice f off 4 from e 0 4]

variable {z : SizeT} {f : Bytes} {h : FileHeader} {tableSize : ℕ}

/-- **One iteration of the walk reads one record** at its offset, with every
sum and difference in range. -/
theorem walkStep_eq (hf : f.length ≤ z.max) {i : ℕ} (hi : i < 2 ^ 32)
    (ht : (i + 1) * z.sizeofChunkEntry ≤ tableSize) {walk : Walk} (hw : walk.offset ≤ f.length) :
    walkStep z (.bytes f) h (maxStoredSizeFor h.chunkSize) tableSize (UInt32.ofNat i) walk =
      match readRecord h i (f.drop walk.offset) with
      | none => .error (.status .errFormat)
      | some (r, _) => .ok (walk.push r) := by
  have hix : (UInt32.ofNat i).toNat = i := UInt32.toNat_ofNat_of_lt' hi
  have hlen : (f.drop walk.offset).length = f.length - walk.offset := List.length_drop
  have hps := chunkPlainSize_eq z h (UInt32.ofNat i)
  rw [hix] at hps
  unfold walkStep readRecord
  simp only [returnIf_except, inTable]
  rw [Span.size_bytes, SizeT.sub_ok hw, ok_bind, hlen]
  by_cases h1 : f.length - walk.offset < kChunkHeaderSize
  · rw [if_pos h1, if_pos h1]
  have hroom : walk.offset + kChunkHeaderSize ≤ f.length := by omega
  rw [if_neg h1, if_neg h1, hix, throwIf_except, if_neg (Nat.not_lt.mpr ht), ← parseChunkHeader_drop hroom]
  rcases hp : parseChunkHeader (.bytes f) walk.offset (maxStoredSizeFor h.chunkSize) with e | ⟨chunk, tag⟩
  · rw [parseChunkHeader_error hroom hp]
    rfl
  have hbody : ((f.drop walk.offset).drop kChunkHeaderSize).length = f.length - (walk.offset + kChunkHeaderSize) := by
    rw [List.length_drop, hlen]
    omega
  rw [ok_bind]
  dsimp only
  rw [SizeT.add_ok (by omega), ok_bind, SizeT.sub_ok hroom, ok_bind, hbody]
  by_cases h2 : f.length - (walk.offset + kChunkHeaderSize) < chunk.storedSize.toNat
  · rw [if_pos h2, if_pos h2]
  rw [if_neg h2, if_neg h2, SizeT.add_ok (by omega), ok_bind, hps]
  have hct : (List.take chunk.storedSize.toNat ((f.drop walk.offset).drop kChunkHeaderSize)).length =
      chunk.storedSize.toNat := List.length_take_of_le (by rw [hbody]; omega)
  by_cases h3 : chunk.compressed = false ∧ chunk.storedSize.toNat ≠ h.sliceSize i
  · rw [if_pos h3, if_pos h3]
  rw [if_neg h3, if_neg h3]
  by_cases h4 : chunk.compressed = true ∧ chunk.storedSize = 0
  · rw [if_pos h4, if_pos h4]
  rw [if_neg h4, if_neg h4]
  by_cases h5 : chunk.compressed = true ∧ h.compressionId ≠ mcCompressZlib
  · rw [if_pos h5, if_pos h5]
  rw [if_neg h5, if_neg h5]
  simp only [Walk.push, maxStep, Record.bytes_length, hct, Nat.add_assoc]
  rfl

/-- What a record leaves is the input from the next offset on. -/
theorem readRecord_rest {i : ℕ} {walk : Walk} {r : Record} {rest : Bytes} (hw : walk.offset ≤ f.length)
    (hr : readRecord h i (f.drop walk.offset) = some (r, rest)) :
    rest = f.drop (walk.push r).offset ∧ (walk.push r).offset ≤ f.length := by
  have hb := (readRecord_iff.mp hr).1
  have hl := congrArg List.length hb
  rw [List.length_append, List.length_drop] at hl
  constructor
  · rw [Walk.push, ← List.drop_drop, hb, List.drop_left]
  · show walk.offset + r.bytes.length ≤ f.length
    omega

/-- **The walk reads the records one after the other**: by induction on how
many are left. -/
theorem walkLoop_eq (hf : f.length ≤ z.max) : ∀ (n i : ℕ) (walk : Walk), i + n < 2 ^ 32 →
    (i + n) * z.sizeofChunkEntry ≤ tableSize → walk.offset ≤ f.length →
    walkLoop z (.bytes f) h (maxStoredSizeFor h.chunkSize) tableSize n (UInt32.ofNat i) walk =
      match readRecords h n i (f.drop walk.offset) with
      | none => .error (.status .errFormat)
      | some (rs, _) => .ok (rs.foldl Walk.push walk)
  | 0, i, walk, _, _, _ => rfl
  | n + 1, i, walk, hi, ht, hw => by
    have hstep : (i + 1) * z.sizeofChunkEntry ≤ tableSize :=
      le_trans (Nat.mul_le_mul_right _ (by omega)) ht
    rw [walkLoop, walkStep_eq hf (by omega) hstep hw, readRecords]
    rcases hr : readRecord h i (f.drop walk.offset) with _ | ⟨r, rest⟩
    · rfl
    obtain ⟨hrest, hoff⟩ := readRecord_rest hw hr
    have hnext : UInt32.ofNat i + 1 = UInt32.ofNat (i + 1) := (UInt32.ofNat_add i 1).symm
    dsimp only
    rw [ok_bind, hnext, walkLoop_eq hf n (i + 1) (walk.push r) (by omega) (by rwa [Nat.add_right_comm]) hoff, hrest]
    rcases readRecords h n (i + 1) (f.drop (walk.push r).offset) with _ | ⟨rs, rest'⟩ <;> rfl

/-- What the walk has found after some records. -/
theorem foldl_push (walk : Walk) : ∀ rs : List Record,
    (rs.foldl Walk.push walk).entries = walk.entries ++ entriesAt walk.offset rs ∧
    (rs.foldl Walk.push walk).offset = walk.offset + (recordBytes rs).length
  | [] => by simp [entriesAt]
  | r :: rs => by
    obtain ⟨h1, h2⟩ := foldl_push (walk.push r) rs
    rw [List.foldl_cons, h1, h2, recordBytes_cons, List.length_append]
    constructor
    · rw [Walk.push, entriesAt, List.append_assoc]
      rfl
    · show walk.offset + r.bytes.length + _ = _
      omega

theorem foldl_push_max (walk : Walk) : ∀ rs : List Record,
    (rs.foldl Walk.push walk).maxCompressed = rs.foldl maxStep walk.maxCompressed
  | [] => rfl
  | r :: rs => by
    rw [List.foldl_cons, foldl_push_max (walk.push r) rs]
    rfl

end Decrypt
end ModelCrypt
