/-
# The writer without memory

`Ref.encrypt` says what encryption is for: draw a salt and a prefix, derive a
key, seal the pieces of the plaintext in order, each compressed if that made
it smaller, and put header and records one after the other. `decrypt` has
`Ref.decrypt`; this is its counterpart, and `EncryptBuffer` refines it.

Key definitions: `FileHeader.pieces`, `Ref.sealRecord`, `Ref.encrypt`.
Key theorems: `pieces_flatten`, `pieces_slice`.
-/
import ModelCrypt.Encrypt
import ModelCrypt.Container
import ModelCrypt.Calls

namespace ModelCrypt

open Lib Prog

/-- The plaintext in pieces, one for each chunk. -/
def FileHeader.pieces (h : FileHeader) (pt : Bytes) : List Bytes :=
  (List.range' 0 h.chunkCount.toNat).map fun i => slice pt (i * h.chunkSize.toNat) h.chunkSize.toNat

/-- How a piece is stored, and the bytes to seal: compressed if that made it smaller. -/
def Ref.pack (w : World) (compress : Bool) (room : ℕ) (pt : Bytes) : Ref (ChunkHeader × Bytes) := do
  if compress = true ∧ pt.length > 0 then
    let z ← Ref.ask (.deflated pt room) (deflateResult w pt room)
    if z.2 then return (⟨z.1.length.toUInt32, kChunkFlagCompressed⟩, z.1) else return (⟨pt.length.toUInt32, 0⟩, pt)
  else return (⟨pt.length.toUInt32, 0⟩, pt)

/-- What is sealed for the piece at position `i`. -/
def sealArgs (k : ByteVec kKeySize) (sh : Bytes) (h : FileHeader) (i : ℕ) (chunk : ChunkHeader) (payload : Bytes) :
    SealArgs where
  key := k.1
  nonce := buildNonce h.noncePrefix (UInt32.ofNat i)
  aad := buildAad sh (UInt32.ofNat i) chunk
  pt := payload

/-- The record of the piece at position `i`. -/
def Ref.sealRecord (w : World) (k : ByteVec kKeySize) (sh : Bytes) (h : FileHeader) (compress : Bool) (i : ℕ)
    (pt : Bytes) : Ref Record := do
  let p ← Ref.pack w compress (maxStoredSizeFor h.chunkSize).toNat pt
  let c ← Ref.ask (.sealed (sealArgs k sh h i p.1 p.2)) (sealResult w (sealArgs k sh h i p.1 p.2))
  return ⟨p.1, c.2, c.1⟩

/-- The records of the pieces from position `i` on. -/
def Ref.sealRecords (w : World) (k : ByteVec kKeySize) (sh : Bytes) (h : FileHeader) (compress : Bool) :
    ℕ → List Bytes → Ref (List Record)
  | _, [] => return []
  | i, pt :: pts => do
    let r ← Ref.sealRecord w k sh h compress i pt
    let rs ← Ref.sealRecords w k sh h compress (i + 1) pts
    return r :: rs

/-- The size of the output if no piece gets smaller. -/
def FileHeader.worstCase (h : FileHeader) : ℕ :=
  kHeaderSize + h.chunkCount.toNat * kChunkHeaderSize + h.plaintextSize.toNat

def Ref.newScratch (w : World) (compress : Bool) (chunkSize : UInt32) : Ref Unit :=
  if compress then Ref.alloc w .scratch (maxStoredSizeFor chunkSize).toNat else pure ()

def Ref.shrink (w : World) (room size : ℕ) : Ref Unit :=
  if room - size > Encrypt.kShrinkThreshold then Ref.alloc w .exact size else pure ()

/-- The file, once the key is derived. -/
def Ref.sealAll (w : World) (k : ByteVec kKeySize) (h : FileHeader) (compress : Bool) (pt : Bytes) : Ref Bytes := do
  Ref.returnIf (h.worstCase > w.sizeT.max) .errTooLarge
  Ref.alloc w .file h.worstCase
  Ref.newScratch w compress h.chunkSize
  let rs ← Ref.sealRecords w k (serializeFileHeader h) h compress 0 (h.pieces pt)
  let out := serializeFileHeader h ++ recordBytes rs
  Ref.shrink w h.worstCase out.length
  return out

/-- Encryption, without memory. -/
def Ref.encrypt (w : World) (key : Span) (opts : EncryptOptions) (input : Span) : Ref Bytes := do
  Ref.returnIf (key.isNull = true) .errInvalidArg
  Ref.returnIf (key.size < mcMinKeySize) .errInvalidArg
  Ref.returnIf (0 < input.size ∧ input.isNull = true) .errInvalidArg
  Ref.returnIf (input.size > mcMaxPlaintextSize.toNat) .errTooLarge
  Prog.ofExcept (Encrypt.validateOptions opts)
  let salt ← fill w kSaltSize
  let noncePrefix ← fill w kNoncePrefixSize
  let h := Encrypt.headerFor opts input.size salt noncePrefix
  let k ← Ref.deriveKey w key salt.1 opts.kdfLogN opts.kdfR opts.kdfP
  Ref.sealAll w k h (decide (opts.compression = mcCompressZlibOption)) input.toBytes

/-! ### Pieces -/

section Pieces

variable {h : FileHeader} {pt : Bytes}

theorem pieces_length (h : FileHeader) (pt : Bytes) : (h.pieces pt).length = h.chunkCount.toNat := by
  simp [FileHeader.pieces]

/-- The pieces put together are the plaintext. -/
theorem pieces_flatten (hv : h.Valid) (hp : pt.length = h.plaintextSize.toNat) : (h.pieces pt).flatten = pt := by
  have := slices_flatten pt h.chunkSize.toNat h.chunkCount.toNat 0 (by rw [Nat.zero_add, hp]; exact hv.covers)
  rwa [Nat.zero_mul, List.drop_zero] at this

/-- The piece at a position is the slice there. -/
theorem pieces_slice {i : ℕ} {p : Bytes} (hp : (h.pieces pt)[i]? = some p) :
    p = slice pt (i * h.chunkSize.toNat) h.chunkSize.toNat := by
  have hlt : i < h.chunkCount.toNat := by
    rw [← pieces_length h pt]
    exact (List.getElem?_eq_some_iff.mp hp).1
  rw [FileHeader.pieces, List.getElem?_map, List.getElem?_range' hlt] at hp
  simpa using hp.symm

theorem pieces_size {i : ℕ} {p : Bytes} (hl : pt.length = h.plaintextSize.toNat) (hp : (h.pieces pt)[i]? = some p) :
    p.length = h.sliceSize i := by
  rw [pieces_slice hp, slice_length, hl]
  rfl

theorem pieces_get {pre post : List Bytes} {p : Bytes} (he : h.pieces pt = pre ++ p :: post) :
    (h.pieces pt)[pre.length]? = some p := by
  rw [he, List.getElem?_append_right (le_refl _), Nat.sub_self]
  rfl

end Pieces

end ModelCrypt
