/-
# Encryption

`encrypt.cc`: the check of the options, the packing of one chunk (compressed
or as it is), its sealing into the output buffer, and `EncryptBuffer`. The
writer has its own copy of the chunk-size function, which is kept apart here
too. `compression` is the `int` the source reads out of the options, so that
a value outside the enumeration is an input like any other.
-/
import ModelCrypt.Decrypt

namespace ModelCrypt

open Lib Prog

/-- `mc_encrypt_options`. -/
structure EncryptOptions where
  compression : Int32
  chunkSize : UInt32
  kdfLogN : UInt8
  kdfR : UInt32
  kdfP : UInt32
  deriving DecidableEq, Repr

/-- `MC_COMPRESS_NONE` and `MC_COMPRESS_ZLIB`, as an option. -/
def mcCompressNoneOption : Int32 := 0
def mcCompressZlibOption : Int32 := 1

/-- `DefaultOptions`. -/
def defaultOptions : EncryptOptions where
  compression := mcCompressZlibOption
  chunkSize := kDefaultChunkSize
  kdfLogN := kDefaultKdfLogN
  kdfR := kDefaultKdfR
  kdfP := kDefaultKdfP

namespace Encrypt

/-- `kShrinkThreshold`. -/
def kShrinkThreshold : ℕ := 1 <<< 20

/-- `ChunkPlainSize`, the writer's copy. -/
def chunkPlainSize (z : SizeT) (plaintextSize : UInt64) (chunkSize index : UInt32) : ℕ :=
  let offset := index.toUInt64 * chunkSize.toUInt64
  if offset ≥ plaintextSize then 0
  else
    let remaining := plaintextSize - offset
    if remaining < chunkSize.toUInt64 then z.cast remaining.toNat else chunkSize.toNat

/-- `ValidateOptions`. -/
def validateOptions (opts : EncryptOptions) : Except McStatus Unit := do
  failIf (opts.compression ≠ mcCompressNoneOption ∧ opts.compression ≠ mcCompressZlibOption) .errInvalidArg
  failIf (opts.chunkSize < kMinChunkSize ∨ opts.chunkSize > kMaxChunkSize) .errInvalidArg
  failIf (opts.kdfLogN < kMinKdfLogN ∨ opts.kdfLogN > kMaxKdfLogN) .errInvalidArg
  failIf (opts.kdfR < kMinKdfR ∨ opts.kdfR > kMaxKdfR ∨ opts.kdfP < kMinKdfP ∨ opts.kdfP > kMaxKdfP) .errInvalidArg
  -- the same product bound ParseFileHeader applies on the way in
  failIf (kdfMemory opts.kdfLogN opts.kdfR > kMaxKdfMemory) .errInvalidArg

/-- The header of a plaintext of `inSize` bytes. -/
def headerFor (opts : EncryptOptions) (inSize : ℕ) (salt : ByteVec kSaltSize)
    (noncePrefix : ByteVec kNoncePrefixSize) : FileHeader where
  formatVersion := mcFormatVersion
  kdfId := kKdfScrypt
  aeadId := kAeadAes256Gcm
  compressionId := opts.compression.toUInt32.toUInt8
  kdfLogN := opts.kdfLogN
  kdfR := opts.kdfR
  kdfP := opts.kdfP
  salt := salt
  noncePrefix := noncePrefix
  chunkSize := opts.chunkSize
  plaintextSize := inSize.toUInt64
  chunkCount := chunkCountFor inSize.toUInt64 opts.chunkSize

/-- The `size` bytes at `in + off`. -/
def plainAt (input : Span) (off size : ℕ) : Except Stop Span :=
  if input.isNull then .ok (.null size) else (input.read off size).map .bytes

/-- The record and the payload of a chunk: compressed if that made it smaller. -/
def packChunk (w : World) (wantCompression : Bool) (plain : Span) (plainSize : ℕ) (scratch : SecureBuffer) :
    Run (ChunkHeader × Span) := do
  if wantCompression = true ∧ plainSize > 0 then
    let (compressedSize, smaller) ← compressChunk w plain scratch.ptr scratch.size
    if smaller then
      return (⟨compressedSize.toUInt32, kChunkFlagCompressed⟩, ← spanAt scratch.ptr compressedSize.toUInt32.toNat)
    else return (⟨plainSize.toUInt32, 0⟩, plain)
  else return (⟨plainSize.toUInt32, 0⟩, plain)

/-- One iteration of the loop: pack, seal behind the record, write the record. -/
def sealChunk (w : World) (derivedKey : SecureBuffer) (serializedHeader : Bytes) (header : FileHeader)
    (wantCompression : Bool) (input : Span) (file scratch : SecureBuffer) (index : UInt32) (writeOffset : ℕ) :
    Run ℕ := do
  let plainSize := chunkPlainSize w.sizeT header.plaintextSize header.chunkSize index
  let plain ← Prog.ofExcept (plainAt input (index.toUInt64 * header.chunkSize.toUInt64).toNat plainSize)
  let (chunk, payload) ← packChunk w wantCompression plain plainSize scratch
  let ciphertext ← Prog.ofExcept (w.sizeT.add writeOffset kChunkHeaderSize)
  let recordEnd ← Prog.ofExcept (w.sizeT.add ciphertext chunk.storedSize.toNat)
  returnIf (recordEnd > file.size) .errMemory
  let aad := buildAad serializedHeader index chunk
  let nonce := buildNonce header.noncePrefix index
  let tag ← aeadSeal w derivedKey.ptr nonce aad payload (file.ptr.add ciphertext)
  store (file.ptr.add writeOffset) (serializeChunkHeader chunk tag)
  return recordEnd

/-- The loop with `n` chunks to go. -/
def sealLoop (w : World) (derivedKey : SecureBuffer) (serializedHeader : Bytes) (header : FileHeader)
    (wantCompression : Bool) (input : Span) (file scratch : SecureBuffer) : ℕ → UInt32 → ℕ → Run ℕ
  | 0, _, writeOffset => return writeOffset
  | n + 1, index, writeOffset => do
    let writeOffset ← sealChunk w derivedKey serializedHeader header wantCompression input file scratch index writeOffset
    sealLoop w derivedKey serializedHeader header wantCompression input file scratch n (index + 1) writeOffset

/-- The copy down of the output when there is too much slack. -/
def shrink (w : World) (file : SecureBuffer) (writeOffset : ℕ) : Run SecureBuffer := do
  let slack ← Prog.ofExcept (SizeT.sub file.size writeOffset)
  if slack > kShrinkThreshold then
    let exact ← newBuffer w .exact writeOffset
    onStop (do store exact.ptr (← load file.ptr writeOffset)) (destroy exact)
    let (file, _) ← moveAssign file exact
    return file
  else return file

/-- `if (want_compression && !scratch.Reset(..)) return MC_ERR_MEMORY;` -/
def newScratch (w : World) (wantCompression : Bool) (chunkSize : UInt32) : Run SecureBuffer :=
  if wantCompression then newBuffer w .scratch (maxStoredSizeFor chunkSize).toNat else pure {}

/-- `EncryptBuffer`: the file's buffer and the size of the file in it. -/
def encryptBuffer (w : World) (key : Span) (opts : EncryptOptions) (input : Span) : Run (SecureBuffer × ℕ) := do
  returnIf (key.isNull = true) .errInvalidArg
  returnIf (key.size < mcMinKeySize) .errInvalidArg
  returnIf (0 < input.size ∧ input.isNull = true) .errInvalidArg
  returnIf (input.size > mcMaxPlaintextSize.toNat) .errTooLarge
  ofStatus (validateOptions opts)
  let salt ← onTrace (fill w kSaltSize)
  let noncePrefix ← onTrace (fill w kNoncePrefixSize)
  let header := headerFor opts input.size salt noncePrefix
  let serializedHeader := serializeFileHeader header
  let derivedKey ← deriveKey w key header.salt.1 header.kdfLogN header.kdfR header.kdfP
  guarded derivedKey do
    let worstCase : UInt64 :=
      kHeaderSize.toUInt64 + header.chunkCount.toUInt64 * kChunkHeaderSize.toUInt64 + input.size.toUInt64
    returnIf (worstCase.toNat > w.sizeT.max) .errTooLarge
    let file ← newBuffer w .file (w.sizeT.cast worstCase.toNat)
    onStop (do
      store file.ptr serializedHeader
      let wantCompression := decide (opts.compression = mcCompressZlibOption)
      let scratch ← newScratch w wantCompression opts.chunkSize
      guarded scratch do
        let writeOffset ← sealLoop w derivedKey serializedHeader header wantCompression input file scratch
          header.chunkCount.toNat 0 kHeaderSize
        let file ← shrink w file writeOffset
        return (file, writeOffset)) (destroy file)

end Encrypt
end ModelCrypt
