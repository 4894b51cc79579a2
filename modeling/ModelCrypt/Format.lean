/-
# The container's byte layout

`format.h` and `format.cc`: the limits, the file header and the chunk record
with their offsets, the serializers and the parsers in the order of their
checks, the associated data and the nonce. The out-parameters of the source
are results here, and a read of the input that would leave it is a fault
(`Span.read`).
-/
import ModelCrypt.Basic

namespace ModelCrypt

open Lib

/-! ### Limits and layout -/

/-- `MCRYPT02`. -/
def kMagic : Bytes := [77, 67, 82, 89, 80, 84, 48, 50]

@[simp] abbrev kMagicSize : ℕ := 8
@[simp] abbrev kHeaderSize : ℕ := 64
@[simp] abbrev kChunkHeaderSize : ℕ := 24
@[simp] abbrev kSaltSize : ℕ := 16
@[simp] abbrev kNoncePrefixSize : ℕ := 8
@[simp] abbrev kNonceSize : ℕ := 12
@[simp] abbrev kTagSize : ℕ := 16
@[simp] abbrev kKeySize : ℕ := 32
@[simp] abbrev kAadSize : ℕ := kHeaderSize + 4 + 4 + 1

/-- `MC_MIN_KEY_SIZE`. -/
@[simp] abbrev mcMinKeySize : ℕ := 12

/-- `MC_MAX_PLAINTEXT_SIZE`. -/
def mcMaxPlaintextSize : UInt64 := (64 : UInt64) <<< 30

/-- `MC_FORMAT_VERSION`. -/
def mcFormatVersion : UInt16 := 2

def kKdfScrypt : UInt8 := 1
def kAeadAes256Gcm : UInt8 := 1
def kChunkFlagCompressed : UInt8 := 0x01
def kChunkFlagMask : UInt8 := kChunkFlagCompressed

/-- `MC_COMPRESS_NONE` and `MC_COMPRESS_ZLIB`, as the header stores them. -/
def mcCompressNone : UInt8 := 0
def mcCompressZlib : UInt8 := 1

def kDefaultChunkSize : UInt32 := (4 : UInt32) <<< 20
def kMinChunkSize : UInt32 := (4 : UInt32) <<< 10
def kMaxChunkSize : UInt32 := (64 : UInt32) <<< 20

def kDefaultKdfLogN : UInt8 := 15
def kMinKdfLogN : UInt8 := 14
def kMaxKdfLogN : UInt8 := 20
def kDefaultKdfR : UInt32 := 8
def kMinKdfR : UInt32 := 1
def kMaxKdfR : UInt32 := 32
def kDefaultKdfP : UInt32 := 1
def kMinKdfP : UInt32 := 1
def kMaxKdfP : UInt32 := 16

/-- The largest file this build reads: the plaintext limit plus the framing of its smallest chunks. -/
def kMaxFileSize : UInt64 :=
  mcMaxPlaintextSize + (mcMaxPlaintextSize / kMinChunkSize.toUInt64) * 24 + 64

/-- The ceiling on scrypt's working set. -/
def kMaxKdfMemory : UInt64 := (1 : UInt64) <<< 30

@[simp] abbrev kOffMagic : ℕ := 0
@[simp] abbrev kOffVersion : ℕ := 8
@[simp] abbrev kOffKdfId : ℕ := 10
@[simp] abbrev kOffAeadId : ℕ := 11
@[simp] abbrev kOffCompressionId : ℕ := 12
@[simp] abbrev kOffKdfLogN : ℕ := 13
@[simp] abbrev kOffKdfR : ℕ := 14
@[simp] abbrev kOffKdfP : ℕ := 18
@[simp] abbrev kOffSalt : ℕ := 22
@[simp] abbrev kOffNoncePrefix : ℕ := 38
@[simp] abbrev kOffChunkSize : ℕ := 46
@[simp] abbrev kOffPlaintextSize : ℕ := 50
@[simp] abbrev kOffChunkCount : ℕ := 58
@[simp] abbrev kOffHeaderReserved : ℕ := 62

@[simp] abbrev kOffChunkStoredSize : ℕ := 0
@[simp] abbrev kOffChunkFlags : ℕ := 4
@[simp] abbrev kOffChunkReserved : ℕ := 5
@[simp] abbrev kOffChunkTag : ℕ := 8

/-! ### The parsed records -/

/-- `FileHeader`, with the defaults of its declaration. -/
structure FileHeader where
  formatVersion : UInt16 := mcFormatVersion
  kdfId : UInt8 := kKdfScrypt
  aeadId : UInt8 := kAeadAes256Gcm
  compressionId : UInt8 := mcCompressZlib
  kdfLogN : UInt8 := kDefaultKdfLogN
  kdfR : UInt32 := kDefaultKdfR
  kdfP : UInt32 := kDefaultKdfP
  salt : ByteVec kSaltSize := ⟨zeros _, zeros_length _⟩
  noncePrefix : ByteVec kNoncePrefixSize := ⟨zeros _, zeros_length _⟩
  chunkSize : UInt32 := kDefaultChunkSize
  plaintextSize : UInt64 := 0
  chunkCount : UInt32 := 0
  deriving DecidableEq, Repr

/-- `ChunkHeader`: a chunk record without its tag. -/
structure ChunkHeader where
  storedSize : UInt32 := 0
  flags : UInt8 := 0
  deriving DecidableEq, Repr

/-- `(flags & kChunkFlagCompressed) != 0`. -/
def ChunkHeader.compressed (c : ChunkHeader) : Bool := c.flags &&& kChunkFlagCompressed != 0

/-! ### Little-endian by hand -/

def writeU8 (value : UInt8) : Bytes := [value]

def writeU16 (value : UInt16) : Bytes :=
  [(value &&& 0xFF).toUInt8, ((value >>> 8) &&& 0xFF).toUInt8]

def writeU32 (value : UInt32) : Bytes :=
  [(value &&& 0xFF).toUInt8, ((value >>> 8) &&& 0xFF).toUInt8, ((value >>> 16) &&& 0xFF).toUInt8,
    ((value >>> 24) &&& 0xFF).toUInt8]

def writeU64 (value : UInt64) : Bytes :=
  (List.range 8).map fun i => ((value >>> (8 * i).toUInt64) &&& 0xFF).toUInt8

def readU8 (b : Bytes) : UInt8 := b.getD 0 0

def readU16 (b : Bytes) : UInt16 := (b.getD 0 0).toUInt16 ||| ((b.getD 1 0).toUInt16 <<< 8)

def readU32 (b : Bytes) : UInt32 :=
  (b.getD 0 0).toUInt32 ||| ((b.getD 1 0).toUInt32 <<< 8) ||| ((b.getD 2 0).toUInt32 <<< 16) |||
    ((b.getD 3 0).toUInt32 <<< 24)

def readU64 (b : Bytes) : UInt64 :=
  (List.range 8).foldl (fun value i => value ||| ((b.getD i 0).toUInt64 <<< (8 * i).toUInt64)) 0

/-- `memcpy` into an array of `n` bytes. -/
def copyVec (n : ℕ) (b : Bytes) : ByteVec n := ⟨(b ++ zeros n).take n, by simp⟩

/-! ### Sizes -/

/-- `ChunkCountFor`: never 0, so that a tag covers the header of an empty file. -/
def chunkCountFor (plaintextSize : UInt64) (chunkSize : UInt32) : UInt32 :=
  if plaintextSize = 0 then 1
  else ((plaintextSize + chunkSize.toUInt64 - 1) / chunkSize.toUInt64).toUInt32

/-- `MaxStoredSizeFor`: deflate's documented worst case. -/
def maxStoredSizeFor (chunkSize : UInt32) : UInt32 :=
  (chunkSize.toUInt64 + (chunkSize / 1000).toUInt64 + 64).toUInt32

/-- `128ull * (1ull << log_n) * r`. -/
def kdfMemory (kdfLogN : UInt8) (kdfR : UInt32) : UInt64 :=
  128 * ((1 : UInt64) <<< kdfLogN.toUInt64) * kdfR.toUInt64

/-! ### The file header -/

def serializeFileHeader (header : FileHeader) : Bytes :=
  let out := zeros kHeaderSize
  let out := overwrite out kOffMagic kMagic
  let out := overwrite out kOffVersion (writeU16 header.formatVersion)
  let out := overwrite out kOffKdfId (writeU8 header.kdfId)
  let out := overwrite out kOffAeadId (writeU8 header.aeadId)
  let out := overwrite out kOffCompressionId (writeU8 header.compressionId)
  let out := overwrite out kOffKdfLogN (writeU8 header.kdfLogN)
  let out := overwrite out kOffKdfR (writeU32 header.kdfR)
  let out := overwrite out kOffKdfP (writeU32 header.kdfP)
  let out := overwrite out kOffSalt header.salt.1
  let out := overwrite out kOffNoncePrefix header.noncePrefix.1
  let out := overwrite out kOffChunkSize (writeU32 header.chunkSize)
  let out := overwrite out kOffPlaintextSize (writeU64 header.plaintextSize)
  let out := overwrite out kOffChunkCount (writeU32 header.chunkCount)
  overwrite out kOffHeaderReserved (writeU16 0)

def parseFileHeader (input : Span) : Except Stop FileHeader := do
  returnIf (input.isNull = true) .errInvalidArg
  returnIf (input.size < kHeaderSize) .errFormat
  let magic ← input.read kOffMagic kMagicSize
  returnIf (magic ≠ kMagic) .errFormat
  let formatVersion := readU16 (← input.read kOffVersion 2)
  returnIf (formatVersion ≠ mcFormatVersion) .errUnsupported
  let kdfId := readU8 (← input.read kOffKdfId 1)
  let aeadId := readU8 (← input.read kOffAeadId 1)
  returnIf (kdfId ≠ kKdfScrypt ∨ aeadId ≠ kAeadAes256Gcm) .errUnsupported
  let compressionId := readU8 (← input.read kOffCompressionId 1)
  returnIf (compressionId ≠ mcCompressNone ∧ compressionId ≠ mcCompressZlib) .errUnsupported
  let reserved := readU16 (← input.read kOffHeaderReserved 2)
  returnIf (reserved ≠ 0) .errFormat
  let kdfLogN := readU8 (← input.read kOffKdfLogN 1)
  let kdfR := readU32 (← input.read kOffKdfR 4)
  let kdfP := readU32 (← input.read kOffKdfP 4)
  returnIf (kdfLogN < kMinKdfLogN ∨ kdfLogN > kMaxKdfLogN ∨ kdfR < kMinKdfR ∨ kdfR > kMaxKdfR ∨
    kdfP < kMinKdfP ∨ kdfP > kMaxKdfP) .errUnsupported
  -- the ranges bound each parameter, this bounds their product
  returnIf (kdfMemory kdfLogN kdfR > kMaxKdfMemory) .errUnsupported
  let salt := copyVec kSaltSize (← input.read kOffSalt kSaltSize)
  let noncePrefix := copyVec kNoncePrefixSize (← input.read kOffNoncePrefix kNoncePrefixSize)
  let chunkSize := readU32 (← input.read kOffChunkSize 4)
  returnIf (chunkSize < kMinChunkSize ∨ chunkSize > kMaxChunkSize) .errFormat
  let plaintextSize := readU64 (← input.read kOffPlaintextSize 8)
  returnIf (plaintextSize > mcMaxPlaintextSize) .errTooLarge
  let chunkCount := readU32 (← input.read kOffChunkCount 4)
  returnIf (chunkCount ≠ chunkCountFor plaintextSize chunkSize) .errFormat
  return { formatVersion, kdfId, aeadId, compressionId, kdfLogN, kdfR, kdfP, salt, noncePrefix,
           chunkSize, plaintextSize, chunkCount }

/-! ### The chunk record -/

def serializeChunkHeader (chunk : ChunkHeader) (tag : ByteVec kTagSize) : Bytes :=
  let out := zeros kChunkHeaderSize
  let out := overwrite out kOffChunkStoredSize (writeU32 chunk.storedSize)
  let out := overwrite out kOffChunkFlags (writeU8 chunk.flags)
  overwrite out kOffChunkTag tag.1

/-- `ParseChunkHeader(in + offset, ..)`. -/
def parseChunkHeader (input : Span) (offset : ℕ) (maxStoredSize : UInt32) :
    Except Stop (ChunkHeader × ByteVec kTagSize) := do
  returnIf (input.isNull = true) .errInvalidArg
  let storedSize := readU32 (← input.read (offset + kOffChunkStoredSize) 4)
  let flags := readU8 (← input.read (offset + kOffChunkFlags) 1)
  returnIf (flags &&& ~~~kChunkFlagMask ≠ 0) .errFormat
  let reserved ← input.read (offset + kOffChunkReserved) (kOffChunkTag - kOffChunkReserved)
  returnIf (∃ x ∈ reserved, x ≠ 0) .errFormat
  returnIf (storedSize > maxStoredSize) .errFormat
  let tag := copyVec kTagSize (← input.read (offset + kOffChunkTag) kTagSize)
  return (⟨storedSize, flags⟩, tag)

/-! ### Associated data and nonce -/

/-- `BuildAad`: the header bytes as written, the position, the size and the flags. -/
def buildAad (serializedHeader : Bytes) (chunkIndex : UInt32) (chunk : ChunkHeader) : Bytes :=
  serializedHeader ++ (writeU32 chunkIndex ++ (writeU32 chunk.storedSize ++ writeU8 chunk.flags))

/-- `BuildNonce`: the prefix, then a big-endian counter. -/
def buildNonce (noncePrefix : ByteVec kNoncePrefixSize) (chunkIndex : UInt32) : Bytes :=
  noncePrefix.1 ++ [((chunkIndex >>> 24) &&& 0xFF).toUInt8, ((chunkIndex >>> 16) &&& 0xFF).toUInt8,
    ((chunkIndex >>> 8) &&& 0xFF).toUInt8, (chunkIndex &&& 0xFF).toUInt8]

end ModelCrypt
