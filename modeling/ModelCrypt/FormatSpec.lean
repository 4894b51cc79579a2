/-
# The format, as docs/Format.md gives it

The tables of the header and of the chunk record, the nonce, the associated
data and the chunk, with integers as digits in a byte order and no offsets,
shifts or buffers. A file is a function of the header, the key, the plaintext
and, for each position, the zlib stream that is stored there in place of the
slice, if one is (`Spec.file`). The code's serializers compute these byte
strings (`Spec.header_eq`, `Spec.chunk_eq`).

Key definitions: `Spec.header`, `Spec.chunk`, `Spec.file`, `Spec.OneSize`.
Key theorems: `Spec.header_eq`, `Spec.nonce_eq`, `Spec.aad_eq`, `Spec.chunk_eq`, `Spec.oneSize`.
-/
import ModelCrypt.Writer

namespace ModelCrypt

open Lib

namespace Spec

/-- "File header, 64 bytes". -/
def header (h : FileHeader) : Bytes :=
  kMagic ++ leBytes 2 h.formatVersion.toNat ++ [h.kdfId] ++ [h.aeadId] ++ [h.compressionId] ++ [h.kdfLogN] ++
    leBytes 4 h.kdfR.toNat ++ leBytes 4 h.kdfP.toNat ++ h.salt.1 ++ h.noncePrefix.1 ++ leBytes 4 h.chunkSize.toNat ++
    leBytes 8 h.plaintextSize.toNat ++ leBytes 4 h.chunkCount.toNat ++ [0, 0]

/-- "Nonce": the prefix of the file, then the index, the one big-endian integer. -/
def nonce (h : FileHeader) (i : ℕ) : Bytes := h.noncePrefix.1 ++ beBytes 4 i

/-- "Associated data". -/
def aad (h : FileHeader) (i size : ℕ) (flags : UInt8) : Bytes := header h ++ leBytes 4 i ++ leBytes 4 size ++ [flags]

/-- "Chunk record, 24 bytes". -/
def record (size : ℕ) (flags : UInt8) (tag : Bytes) : Bytes := leBytes 4 size ++ [flags] ++ [0, 0, 0] ++ tag

/-- What is stored for a slice, and its flags: a zlib stream, or the slice itself. -/
def stored (slice : Bytes) : Option Bytes → Bytes × UInt8
  | some stream => (stream, 1)
  | none => (slice, 0)

/-- The arguments of the seal of a chunk. -/
def sealArgs (key : Bytes) (h : FileHeader) (i : ℕ) (payload : Bytes) (flags : UInt8) : SealArgs :=
  ⟨key, nonce h i, aad h i payload.length flags, payload⟩

/-- The chunk at position `i`: "build AAD and nonce, seal, write the record and the ciphertext". -/
def chunk (w : World) (key : Bytes) (h : FileHeader) (i : ℕ) (payload : Bytes) (flags : UInt8) : Bytes :=
  record payload.length flags (w.gcmSeal (sealArgs key h i payload flags)).2.1 ++
    (w.gcmSeal (sealArgs key h i payload flags)).1.1

/-- The slice at position `i`: `chunk_size` bytes, except the last, which holds the remainder. -/
def sliceAt (h : FileHeader) (pt : Bytes) (i : ℕ) : Bytes := slice pt (i * h.chunkSize.toNat) h.chunkSize.toNat

/-- The chunk of a slice that stands at position `i`. -/
def chunkOf (w : World) (key : Bytes) (h : FileHeader) (i : ℕ) (slice : Bytes) (stream : Option Bytes) : Bytes :=
  chunk w key h i (stored slice stream).1 (stored slice stream).2

/-- "Writing a file", with the streams that are stored. -/
def file (w : World) (key : Bytes) (h : FileHeader) (streams : ℕ → Option Bytes) (pt : Bytes) : Bytes :=
  header h ++ (List.range h.chunkCount.toNat).flatMap fun i => chunkOf w key h i (sliceAt h pt i) (streams i)

/-- The record, the associated data and the ciphertext of a chunk give one size, and the first two the same flags. -/
structure OneSize (w : World) (key : Bytes) (h : FileHeader) (i : ℕ) (payload : Bytes) (flags : UInt8) : Prop where
  fits : payload.length < 2 ^ 32
  recordSize : leNat (slice (chunk w key h i payload flags) 0 4) = payload.length
  recordFlags : slice (chunk w key h i payload flags) 4 1 = [flags]
  aadSize : leNat (slice (aad h i payload.length flags) 68 4) = payload.length
  aadFlags : slice (aad h i payload.length flags) 72 1 = [flags]
  ciphertext : ((chunk w key h i payload flags).drop kChunkHeaderSize).length = payload.length

/-- "Compress if it helps": the stream that is kept for a slice, when deflate is asked at `t`. -/
def deflated (w : World) (zlib : Bool) (room t : ℕ) (slice : Bytes) : Option Bytes :=
  if zlib = true ∧ slice ≠ [] ∧ (w.deflate t slice room).rc = .streamEnd ∧
      (w.deflate t slice room).out.length < slice.length then
    some (w.deflate t slice room).out
  else none

/-! ### The code's serializers -/

theorem header_eq (h : FileHeader) : serializeFileHeader h = header h := by
  rw [serializeFileHeader_eq]
  simp only [FileHeader.fields, writeU8, writeU16_eq, writeU32_eq, writeU64_eq, List.flatten_cons, List.flatten_nil,
    List.append_nil, header, List.append_assoc]
  rfl

theorem header_length (h : FileHeader) : (header h).length = kHeaderSize := by
  rw [← header_eq, serializeFileHeader_length]

theorem nonce_eq (h : FileHeader) {i : ℕ} (hi : i < 2 ^ 32) :
    buildNonce h.noncePrefix (UInt32.ofNat i) = nonce h i := by
  rw [buildNonce_eq, UInt32.toNat_ofNat_of_lt' hi, nonce]

theorem aad_eq (h : FileHeader) {i : ℕ} (hi : i < 2 ^ 32) (c : ChunkHeader) :
    buildAad (serializeFileHeader h) (UInt32.ofNat i) c = aad h i c.storedSize.toNat c.flags := by
  rw [buildAad, header_eq, writeU32_eq, writeU32_eq, UInt32.toNat_ofNat_of_lt' hi, aad, List.append_assoc,
    List.append_assoc]
  rfl

theorem record_eq (c : ChunkHeader) (tag : ByteVec kTagSize) :
    serializeChunkHeader c tag = record c.storedSize.toNat c.flags tag.1 := by
  rw [serializeChunkHeader_eq, writeU32_eq]
  simp only [List.flatten_cons, List.flatten_nil, List.append_nil, record, List.append_assoc]
  rfl

/-- **A sealed record is the chunk of its payload.** -/
theorem chunk_eq {w : World} {k : ByteVec kKeySize} {h : FileHeader} {i : ℕ} {r : Record} {payload : Bytes}
    (hi : i < 2 ^ 32) (hs : r.chunk.storedSize.toNat = payload.length)
    (hct : (w.gcmSeal (ModelCrypt.sealArgs k (serializeFileHeader h) h i r.chunk payload)).1.1 = r.ct)
    (htag : (w.gcmSeal (ModelCrypt.sealArgs k (serializeFileHeader h) h i r.chunk payload)).2 = r.tag) :
    r.bytes = chunk w k.1 h i payload r.chunk.flags := by
  have ha : ModelCrypt.sealArgs k (serializeFileHeader h) h i r.chunk payload =
    sealArgs k.1 h i payload r.chunk.flags := by
    rw [ModelCrypt.sealArgs, nonce_eq h hi, aad_eq h hi, hs]
    rfl
  rw [ha] at hct htag
  rw [Record.bytes, record_eq, hs, ← hct, ← htag]
  rfl

theorem record_length (size : ℕ) (flags : UInt8) (tag : ByteVec kTagSize) :
    (record size flags tag.1).length = kChunkHeaderSize := by
  have ht : tag.1.length = kTagSize := tag.2
  simp only [record, List.length_append, leBytes_length, ht]
  rfl

theorem chunk_length (w : World) (key : Bytes) (h : FileHeader) (i : ℕ) (payload : Bytes) (flags : UInt8) :
    (chunk w key h i payload flags).length = kChunkHeaderSize + payload.length := by
  rw [chunk, List.length_append, record_length]
  exact congrArg _ (w.gcmSeal (sealArgs key h i payload flags)).1.2

/-- A chunk gives the size of its payload wherever it gives one. -/
theorem oneSize {payload : Bytes} (hl : payload.length < 2 ^ 32) (w : World) (key : Bytes) (h : FileHeader) (i : ℕ)
    (flags : UInt8) : OneSize w key h i payload flags := by
  have hle : (leBytes 4 payload.length).length = 4 := leBytes_length ..
  have hback : leNat (leBytes 4 payload.length) = payload.length := leNat_leBytes 4 _ (by omega)
  have hfront : (header h ++ leBytes 4 i).length = 68 := by rw [List.length_append, header_length, leBytes_length]
  obtain ⟨rest, hchunk⟩ : ∃ rest, chunk w key h i payload flags = leBytes 4 payload.length ++ ([flags] ++ rest) := by
    simp only [chunk, record, List.append_assoc]
    exact ⟨_, rfl⟩
  have haad : aad h i payload.length flags = (header h ++ leBytes 4 i) ++ (leBytes 4 payload.length ++ [flags]) := by
    rw [aad, List.append_assoc]
  refine ⟨hl, ?_, ?_, ?_, ?_, ?_⟩
  · rw [hchunk, slice_take, List.take_left' hle, hback]
  · rw [hchunk]
    exact slice_at hle.symm rfl
  · rw [haad, slice_at hfront.symm hle.symm, hback]
  · rw [haad, ← List.append_assoc, ← List.append_nil [flags]]
    exact slice_at (by rw [List.length_append, hfront, hle]) rfl
  · rw [List.length_drop, chunk_length, Nat.add_sub_cancel_left]

end Spec
end ModelCrypt
