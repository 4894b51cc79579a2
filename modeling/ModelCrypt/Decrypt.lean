/-
# Decryption

`decrypt.cc`: the walk of the chunk table, the opening of one chunk and the
three phases of `DecryptBuffer`. The chunk table is memory of its own whose
entries are kept typed: an access to `entries[index]` that is not inside the
allocated table is a fault. `OpenChunk` reads the input through the offset
the walk recorded, without checking it again, so that the bounds are for the
proofs to find.
-/
import ModelCrypt.Primitives

namespace ModelCrypt

open Lib Prog

/-- `static_cast<size_t>`. -/
def SizeT.cast (z : SizeT) (n : ℕ) : ℕ := n % (z.max + 1)

/-- `sizeof(ChunkEntry)`: an offset, a chunk header padded to 8 bytes and a tag. -/
def SizeT.sizeofChunkEntry : SizeT → ℕ
  | bits32 => 28
  | bits64 => 32

/-- The bytes at a pointer, handed on as a pointer and a length. -/
def spanAt (p : Ptr) (n : ℕ) : Run Span := do
  if p = .null then return .null n
  return .bytes (← load p n)

namespace Decrypt

/-- `ChunkEntry`. -/
structure ChunkEntry where
  offset : ℕ
  header : ChunkHeader
  tag : ByteVec kTagSize
  deriving DecidableEq, Repr

/-- `ChunkPlainSize`. -/
def chunkPlainSize (z : SizeT) (plaintextSize : UInt64) (chunkSize index : UInt32) : ℕ :=
  let offset := index.toUInt64 * chunkSize.toUInt64
  if offset ≥ plaintextSize then 0
  else
    let remaining := plaintextSize - offset
    if remaining < chunkSize.toUInt64 then z.cast remaining.toNat else chunkSize.toNat

/-! ### Phase 1 -/

/-- What the walk has filled in and where it stands. -/
structure Walk where
  entries : List ChunkEntry := []
  offset : ℕ := kHeaderSize
  maxCompressed : UInt32 := 0
  deriving DecidableEq, Repr

/-- `entries[index]` is inside a table of `tableSize` bytes. -/
def inTable (z : SizeT) (tableSize : ℕ) (index : UInt32) : Except Stop Unit :=
  throwIf (tableSize < (index.toNat + 1) * z.sizeofChunkEntry) (Stop.fault .tableBounds)

/-- One iteration of the walk. -/
def walkStep (z : SizeT) (input : Span) (header : FileHeader) (maxStoredSize : UInt32) (tableSize : ℕ)
    (index : UInt32) (walk : Walk) : Except Stop Walk := do
  let left ← SizeT.sub input.size walk.offset
  returnIf (left < kChunkHeaderSize) .errFormat
  inTable z tableSize index
  let (chunk, tag) ← parseChunkHeader input walk.offset maxStoredSize
  let offset ← z.add walk.offset kChunkHeaderSize
  -- a subtraction, so that nothing wraps however large stored_size is
  let left ← SizeT.sub input.size offset
  returnIf (left < chunk.storedSize.toNat) .errFormat
  let entry : ChunkEntry := ⟨offset, chunk, tag⟩
  let offset ← z.add offset chunk.storedSize.toNat
  let plainSize := chunkPlainSize z header.plaintextSize header.chunkSize index
  returnIf (chunk.compressed = false ∧ chunk.storedSize.toNat ≠ plainSize) .errFormat
  returnIf (chunk.compressed = true ∧ chunk.storedSize = 0) .errFormat
  returnIf (chunk.compressed = true ∧ header.compressionId ≠ mcCompressZlib) .errFormat
  return { entries := walk.entries ++ [entry], offset,
           maxCompressed := if chunk.compressed = true ∧ chunk.storedSize > walk.maxCompressed then
             chunk.storedSize else walk.maxCompressed }

/-- The walk with `n` records to go. -/
def walkLoop (z : SizeT) (input : Span) (header : FileHeader) (maxStoredSize : UInt32) (tableSize : ℕ) :
    ℕ → UInt32 → Walk → Except Stop Walk
  | 0, _, walk => return walk
  | n + 1, index, walk => do
    let walk ← walkStep z input header maxStoredSize tableSize index walk
    walkLoop z input header maxStoredSize tableSize n (index + 1) walk

/-- `WalkChunkTable`: the storage of the table, and what the walk found. -/
def walkChunkTable (w : World) (input : Span) (header : FileHeader) : Run (SecureBuffer × Walk) := do
  let maxStoredSize := maxStoredSizeFor header.chunkSize
  let minimumInput : UInt64 := kHeaderSize.toUInt64 + header.chunkCount.toUInt64 * kChunkHeaderSize.toUInt64
  returnIf (input.size < minimumInput.toNat) .errFormat
  let tableBytes : UInt64 := header.chunkCount.toUInt64 * w.sizeT.sizeofChunkEntry.toUInt64
  returnIf (tableBytes.toNat > w.sizeT.max) .errTooLarge
  let storage ← newBuffer w .entryStorage (w.sizeT.cast tableBytes.toNat)
  onStop (do
    let walk ← Prog.ofExcept (walkLoop w.sizeT input header maxStoredSize storage.size header.chunkCount.toNat 0 {})
    returnIf (walk.offset ≠ input.size) .errFormat
    emit .walked
    return (storage, walk)) (destroy storage)

/-! ### One chunk -/

/-- `OpenChunk`: a raw chunk is opened in place, a compressed one into `scratch` and inflated. -/
def openChunk (w : World) (derivedKey : SecureBuffer) (serializedHeader : Bytes) (header : FileHeader)
    (index : UInt32) (entry : ChunkEntry) (input : Span) (plainOut : Ptr) (plainSize : ℕ)
    (scratch : SecureBuffer) : Run Unit := do
  let s ← state
  emit (.entered index entry.header plainSize (s.heap.room plainOut) (scratch.data.map fun _ => scratch.size))
  let aad := buildAad serializedHeader index entry.header
  let nonce := buildNonce header.noncePrefix index
  let compressed := entry.header.compressed
  let aeadOut := if compressed then scratch.ptr else plainOut
  let ct ← Prog.ofExcept (input.read entry.offset entry.header.storedSize.toNat)
  onStop (aeadOpen w derivedKey.ptr nonce aad (.bytes ct) entry.tag aeadOut)
    -- the unverified decryption is wiped, not left behind
    (if compressed then secureWipe scratch.ptr entry.header.storedSize.toNat else secureWipe plainOut plainSize)
  if compressed then
    decompressChunk w (← spanAt scratch.ptr entry.header.storedSize.toNat) plainOut plainSize

/-- A read of `entries[index]`. -/
def entryAt (z : SizeT) (storage : SecureBuffer) (entries : List ChunkEntry) (index : UInt32) :
    Except Stop ChunkEntry := do
  inTable z storage.size index
  match entries[index.toNat]? with
  | some entry => return entry
  | none => throw (.fault .tableBounds)

/-! ### DecryptBuffer -/

/-- The loop of phase 3 with `n` chunks to go. -/
def openLoop (w : World) (derivedKey : SecureBuffer) (serializedHeader : Bytes) (header : FileHeader)
    (storage : SecureBuffer) (entries : List ChunkEntry) (input : Span) (plaintext scratch : SecureBuffer) :
    ℕ → UInt32 → Run Unit
  | 0, _ => return ()
  | n + 1, index => do
    let plainSize := chunkPlainSize w.sizeT header.plaintextSize header.chunkSize index
    let plainOut := plaintext.ptr.add (index.toUInt64 * header.chunkSize.toUInt64).toNat
    let entry ← Prog.ofExcept (entryAt w.sizeT storage entries index)
    openChunk w derivedKey serializedHeader header index entry input plainOut plainSize scratch
    openLoop w derivedKey serializedHeader header storage entries input plaintext scratch n (index + 1)

/-- The `memcpy` of chunk 0 into the plaintext; not made for no bytes, where both pointers are null. -/
def copyFirst (firstChunk plaintext : SecureBuffer) (firstPlainSize : ℕ) : Run Unit := do
  if firstPlainSize > 0 then
    store plaintext.ptr (← load firstChunk.ptr firstPlainSize)

/-- Phase 3, once chunk 0 is in `firstChunk`. -/
def finish (w : World) (derivedKey : SecureBuffer) (serializedHeader : Bytes) (header : FileHeader)
    (storage : SecureBuffer) (entries : List ChunkEntry) (input : Span) (firstChunk scratch : SecureBuffer)
    (firstPlainSize : ℕ) : Run (SecureBuffer × ℕ) := do
  returnIf (header.plaintextSize.toNat > w.sizeT.max) .errTooLarge
  let plaintext ← newBuffer w .plaintext (w.sizeT.cast header.plaintextSize.toNat)
  onStop (do
    copyFirst firstChunk plaintext firstPlainSize
    openLoop w derivedKey serializedHeader header storage entries input plaintext scratch
      (header.chunkCount.toNat - 1) 1
    emit (.delivered (w.sizeT.cast header.plaintextSize.toNat))
    return (plaintext, w.sizeT.cast header.plaintextSize.toNat)) (destroy plaintext)

/-- `if (max_compressed > 0 && !scratch.Reset(max_compressed)) return MC_ERR_MEMORY;` -/
def newScratch (w : World) (maxCompressed : UInt32) : Run SecureBuffer :=
  if maxCompressed > 0 then newBuffer w .scratch maxCompressed.toNat else pure {}

/-- `DecryptBuffer`: the plaintext buffer and its size. -/
def decryptBuffer (w : World) (key input : Span) : Run (SecureBuffer × ℕ) := do
  returnIf (key.isNull = true ∨ input.isNull = true) .errInvalidArg
  returnIf (key.size < mcMinKeySize) .errInvalidArg
  -- phase 1: parse, with no key and no large allocation
  let header ← Prog.ofExcept (parseFileHeader input)
  let (entryStorage, walk) ← walkChunkTable w input header
  guarded entryStorage do
    let serializedHeader ← Prog.ofExcept (input.read 0 kHeaderSize)
    let derivedKey ← deriveKey w key header.salt.1 header.kdfLogN header.kdfR header.kdfP
    guarded derivedKey do
      let scratch ← newScratch w walk.maxCompressed
      guarded scratch do
        -- phase 2: authenticate the header through chunk 0
        let firstPlainSize := chunkPlainSize w.sizeT header.plaintextSize header.chunkSize 0
        let firstChunk ← newBuffer w .firstChunk firstPlainSize
        guarded firstChunk do
          let entry ← Prog.ofExcept (entryAt w.sizeT entryStorage walk.entries 0)
          openChunk w derivedKey serializedHeader header 0 entry input firstChunk.ptr firstPlainSize scratch
          -- phase 3: allocate on an authenticated size, then finish
          finish w derivedKey serializedHeader header entryStorage walk.entries input firstChunk scratch
            firstPlainSize

end Decrypt
end ModelCrypt
