/-
# The codecs of the container, as mathematics

The byte-level readers and writers are little-endian digits and values
(`writeU32_eq`, `readU32_toNat`), so each undoes the other. The header a
parser accepts is the header whose serialization it read
(`parseFileHeader_ok_iff`): no byte of it is ignored. The same for a chunk
record (`parseChunkHeader_ok_iff`). The associated data and the nonce
determine what they were built from (`buildAad_inj`, `buildNonce_inj`).

Key definitions: `FileHeader.Valid`, `FileHeader.fields`.
-/
import ModelCrypt.Format
import Mathlib.Data.Nat.Bitwise

namespace ModelCrypt

open Lib Prog

/-! ### Integers -/

section Integers

theorem or_shiftLeft {a b k : ℕ} (h : a < 2 ^ k) : a ||| b <<< k = a + b * 2 ^ k := by
  rw [Nat.or_comm, ← Nat.shiftLeft_add_eq_or_of_lt h, Nat.shiftLeft_eq, Nat.add_comm]

/-- A byte shifted inside a word loses nothing. -/
theorem shiftLeft_mod {x k w : ℕ} (hx : x < 256) (hk : k + 8 ≤ w) : x <<< k % 2 ^ w = x <<< k := by
  apply Nat.mod_eq_of_lt
  rw [Nat.shiftLeft_eq]
  calc x * 2 ^ k < 2 ^ 8 * 2 ^ k := Nat.mul_lt_mul_of_pos_right hx (Nat.two_pow_pos k)
    _ = 2 ^ (k + 8) := by rw [Nat.add_comm, Nat.pow_add]
    _ ≤ 2 ^ w := Nat.pow_le_pow_right (by decide) hk

theorem and_255 (n : ℕ) : n &&& 255 = n % 256 := Nat.and_two_pow_sub_one_eq_mod n 8

theorem u16_byte (v k : UInt16) :
    ((v >>> k) &&& 0xFF).toUInt8 = UInt8.ofNat (v.toNat / 2 ^ (k.toNat % 16)) := by
  apply UInt8.toNat_inj.mp
  simp [and_255, Nat.shiftRight_eq_div_pow]

theorem u32_byte (v k : UInt32) :
    ((v >>> k) &&& 0xFF).toUInt8 = UInt8.ofNat (v.toNat / 2 ^ (k.toNat % 32)) := by
  apply UInt8.toNat_inj.mp
  simp [and_255, Nat.shiftRight_eq_div_pow]

theorem u64_byte (v k : UInt64) :
    ((v >>> k) &&& 0xFF).toUInt8 = UInt8.ofNat (v.toNat / 2 ^ (k.toNat % 64)) := by
  apply UInt8.toNat_inj.mp
  simp [and_255, Nat.shiftRight_eq_div_pow]

theorem writeU8_eq (v : UInt8) : writeU8 v = leBytes 1 v.toNat := by
  simp [writeU8, leBytes]

theorem writeU16_eq (v : UInt16) : writeU16 v = leBytes 2 v.toNat := by
  have h0 : (v &&& 0xFF).toUInt8 = UInt8.ofNat v.toNat := by simpa using u16_byte v 0
  simp [writeU16, leBytes, h0, u16_byte v]

theorem writeU32_eq (v : UInt32) : writeU32 v = leBytes 4 v.toNat := by
  have h0 : (v &&& 0xFF).toUInt8 = UInt8.ofNat v.toNat := by simpa using u32_byte v 0
  simp [writeU32, leBytes, h0, u32_byte v, Nat.div_div_eq_div_mul]

theorem writeU64_eq (v : UInt64) : writeU64 v = leBytes 8 v.toNat := by
  simp [writeU64, List.range_succ, leBytes, u64_byte v, Nat.div_div_eq_div_mul]

@[simp] theorem writeU8_length (v : UInt8) : (writeU8 v).length = 1 := rfl
@[simp] theorem writeU16_length (v : UInt16) : (writeU16 v).length = 2 := rfl
@[simp] theorem writeU32_length (v : UInt32) : (writeU32 v).length = 4 := rfl
@[simp] theorem writeU64_length (v : UInt64) : (writeU64 v).length = 8 := rfl
@[simp] theorem kMagic_length : kMagic.length = 8 := rfl

theorem readU8_toNat {b : Bytes} (h : b.length = 1) : (readU8 b).toNat = leNat b := by
  match b, h with
  | [x0], _ => simp [readU8, leNat]

theorem readU16_toNat {b : Bytes} (h : b.length = 2) : (readU16 b).toNat = leNat b := by
  match b, h with
  | [x0, x1], _ =>
    have h0 := x0.toNat_lt
    have h1 := x1.toNat_lt
    simp only [readU16, List.getD_cons_zero, List.getD_cons_succ, UInt16.toNat_or, UInt16.toNat_shiftLeft,
      UInt8.toNat_toUInt16, UInt16.reduceToNat, leNat, Nat.reduceMod]
    rw [shiftLeft_mod h1 (by decide), or_shiftLeft h0]
    omega

theorem readU32_toNat {b : Bytes} (h : b.length = 4) : (readU32 b).toNat = leNat b := by
  match b, h with
  | [x0, x1, x2, x3], _ =>
    have h0 := x0.toNat_lt
    have h1 := x1.toNat_lt
    have h2 := x2.toNat_lt
    have h3 := x3.toNat_lt
    simp only [readU32, List.getD_cons_zero, List.getD_cons_succ, UInt32.toNat_or, UInt32.toNat_shiftLeft,
      UInt8.toNat_toUInt32, UInt32.reduceToNat, leNat, Nat.reduceMod]
    rw [shiftLeft_mod h1 (by decide), shiftLeft_mod h2 (by decide), shiftLeft_mod h3 (by decide),
      or_shiftLeft (k := 8) h0, or_shiftLeft (k := 16) (by omega), or_shiftLeft (k := 24) (by omega)]
    omega

/-- The loop of `ReadU64` after `n` bytes. -/
theorem readU64_fold {b : Bytes} (h : b.length = 8) : ∀ n ≤ 8,
    ((List.range n).foldl (fun value i => value ||| ((b.getD i 0).toUInt64 <<< (8 * i).toUInt64))
      (0 : UInt64)).toNat = leNat (b.take n)
  | 0, _ => rfl
  | n + 1, hn => by
    have ih := readU64_fold h n (by omega)
    have hx := (b.getD n 0).toNat_lt
    have hlt : leNat (b.take n) < 2 ^ (8 * n) := by
      have := leNat_lt (b.take n)
      rwa [List.length_take, Nat.min_eq_left (by omega), show (256 : ℕ) = 2 ^ 8 by rfl,
        ← Nat.pow_mul] at this
    have hmod : 8 * n % 18446744073709551616 % 64 = 8 * n := by omega
    have hget : b.getD n 0 = b[n] := by simp [List.getD_eq_getElem?_getD, h, show n < 8 by omega]
    rw [List.range_succ, List.foldl_append, List.foldl_cons, List.foldl_nil, UInt64.toNat_or, ih,
      UInt64.toNat_shiftLeft, UInt8.toNat_toUInt64]
    simp only [Nat.toUInt64_eq, UInt64.toNat_ofNat', Nat.reducePow, hmod]
    rw [show (18446744073709551616 : ℕ) = 2 ^ 64 by rfl, shiftLeft_mod hx (by omega), or_shiftLeft hlt,
      List.take_add_one, List.getElem?_eq_getElem (by omega), leNat_append, List.length_take,
      Nat.min_eq_left (by omega), hget, show (256 : ℕ) = 2 ^ 8 by rfl, ← Nat.pow_mul]
    simp [leNat, Nat.mul_comm]

theorem readU64_toNat {b : Bytes} (h : b.length = 8) : (readU64 b).toNat = leNat b := by
  rw [readU64, readU64_fold h 8 (by omega), List.take_of_length_le (by omega)]

theorem readU8_writeU8 (v : UInt8) : readU8 (writeU8 v) = v := rfl

theorem readU16_writeU16 (v : UInt16) : readU16 (writeU16 v) = v := by
  apply UInt16.toNat_inj.mp
  rw [readU16_toNat rfl, writeU16_eq, leNat_leBytes 2 _ v.toNat_lt]

theorem readU32_writeU32 (v : UInt32) : readU32 (writeU32 v) = v := by
  apply UInt32.toNat_inj.mp
  rw [readU32_toNat rfl, writeU32_eq, leNat_leBytes 4 _ v.toNat_lt]

theorem readU64_writeU64 (v : UInt64) : readU64 (writeU64 v) = v := by
  apply UInt64.toNat_inj.mp
  rw [readU64_toNat rfl, writeU64_eq, leNat_leBytes 8 _ v.toNat_lt]

theorem writeU8_readU8 {b : Bytes} (h : b.length = 1) : writeU8 (readU8 b) = b := by
  rw [writeU8_eq, readU8_toNat h, ← h, leBytes_leNat]

theorem writeU16_readU16 {b : Bytes} (h : b.length = 2) : writeU16 (readU16 b) = b := by
  rw [writeU16_eq, readU16_toNat h, ← h, leBytes_leNat]

theorem writeU32_readU32 {b : Bytes} (h : b.length = 4) : writeU32 (readU32 b) = b := by
  rw [writeU32_eq, readU32_toNat h, ← h, leBytes_leNat]

theorem writeU64_readU64 {b : Bytes} (h : b.length = 8) : writeU64 (readU64 b) = b := by
  rw [writeU64_eq, readU64_toNat h, ← h, leBytes_leNat]

theorem writeU32_inj {v w : UInt32} (h : writeU32 v = writeU32 w) : v = w := by
  rw [← readU32_writeU32 v, h, readU32_writeU32]

theorem copyVec_eq {n : ℕ} {b : Bytes} (h : b.length = n) : (copyVec n b).1 = b := by
  subst h
  simp [copyVec]

theorem copyVec_val {n : ℕ} (v : ByteVec n) : copyVec n v.1 = v :=
  Subtype.ext (copyVec_eq v.2)

end Integers

/-! ### Sizes -/

theorem mcMaxPlaintextSize_toNat : mcMaxPlaintextSize.toNat = 2 ^ 36 := rfl
theorem kMinChunkSize_toNat : kMinChunkSize.toNat = 2 ^ 12 := rfl
theorem kMaxChunkSize_toNat : kMaxChunkSize.toNat = 2 ^ 26 := rfl
theorem kMaxKdfMemory_toNat : kMaxKdfMemory.toNat = 2 ^ 30 := rfl

/-- The count of chunks is not truncated: it is the exact ceiling, or 1 for an empty plaintext. -/
theorem chunkCountFor_toNat {P : UInt64} {C : UInt32} (hP : P.toNat ≤ 2 ^ 36) (hC : 2 ^ 12 ≤ C.toNat) :
    (chunkCountFor P C).toNat = max 1 ((P.toNat + C.toNat - 1) / C.toNat) := by
  have hC' := C.toNat_lt
  have hle : (P.toNat + C.toNat - 1) / C.toNat ≤ (P.toNat + C.toNat - 1) / 2 ^ 12 :=
    Nat.div_le_div_left hC (by decide)
  unfold chunkCountFor
  by_cases h0 : P = 0
  · have hz : (0 + C.toNat - 1) / C.toNat = 0 := Nat.div_eq_of_lt (by omega)
    rw [if_pos h0, h0, UInt64.toNat_zero, hz]
    rfl
  · have hpos : P.toNat ≠ 0 := fun h => h0 (UInt64.toNat_inj.mp h)
    have h1 : 1 ≤ (P.toNat + C.toNat - 1) / C.toNat := (Nat.le_div_iff_mul_le (by omega)).mpr (by omega)
    have hsum : (P + C.toUInt64 - 1).toNat = P.toNat + C.toNat - 1 := by
      rw [UInt64.toNat_sub, UInt64.toNat_add, UInt32.toNat_toUInt64]
      simp only [UInt64.toNat_one]
      omega
    rw [if_neg h0, UInt64.toNat_toUInt32, UInt64.toNat_div, hsum, UInt32.toNat_toUInt64]
    omega

theorem chunkCountFor_le {P : UInt64} {C : UInt32} (hP : P.toNat ≤ 2 ^ 36) (hC : 2 ^ 12 ≤ C.toNat) :
    (chunkCountFor P C).toNat ≤ 2 ^ 24 := by
  rw [chunkCountFor_toNat hP hC]
  have : (P.toNat + C.toNat - 1) / C.toNat ≤ 2 ^ 24 := by
    rw [Nat.div_le_iff_le_mul_add_pred (by omega)]
    have := Nat.mul_le_mul_right (2 ^ 24) hC
    omega
  omega

theorem maxStoredSizeFor_toNat {C : UInt32} (hC : C.toNat ≤ 2 ^ 26) :
    (maxStoredSizeFor C).toNat = C.toNat + C.toNat / 1000 + 64 := by
  have hd : (C / 1000).toNat = C.toNat / 1000 := UInt32.toNat_div ..
  simp only [maxStoredSizeFor, UInt64.toNat_toUInt32, UInt64.toNat_add, UInt32.toNat_toUInt64, hd,
    UInt64.reduceToNat]
  omega

theorem one_shiftLeft_toNat {n : UInt8} (hn : n.toNat ≤ 20) : ((1 : UInt64) <<< n.toUInt64).toNat = 2 ^ n.toNat := by
  have hp : 2 ^ n.toNat ≤ 2 ^ 20 := Nat.pow_le_pow_right (by decide) hn
  have hsh : n.toUInt64.toNat % 64 = n.toNat := by rw [UInt8.toNat_toUInt64]; omega
  rw [UInt64.toNat_shiftLeft, hsh, UInt64.toNat_one, Nat.one_shiftLeft]
  exact Nat.mod_eq_of_lt (by omega)

/-- The product of the scrypt parameters does not overflow inside their ranges. -/
theorem kdfMemory_toNat {n : UInt8} {r : UInt32} (hn : n.toNat ≤ 20) (hr : r.toNat ≤ 32) :
    (kdfMemory n r).toNat = 128 * 2 ^ n.toNat * r.toNat := by
  have hp : 2 ^ n.toNat ≤ 2 ^ 20 := Nat.pow_le_pow_right (by decide) hn
  have hr' : 128 * 2 ^ n.toNat * r.toNat ≤ 128 * 2 ^ 20 * 32 :=
    Nat.mul_le_mul (Nat.mul_le_mul_left _ hp) hr
  rw [kdfMemory, UInt64.toNat_mul, UInt64.toNat_mul, one_shiftLeft_toNat hn, UInt32.toNat_toUInt64,
    show (128 : UInt64).toNat = 128 by rfl, Nat.mod_eq_of_lt (a := 128 * 2 ^ n.toNat) (by omega),
    Nat.mod_eq_of_lt (by omega)]

/-! ### Valid headers -/

/-- What `ParseFileHeader` promises of a header it accepts. -/
structure FileHeader.Valid (h : FileHeader) : Prop where
  version : h.formatVersion = mcFormatVersion
  kdf : h.kdfId = kKdfScrypt
  aead : h.aeadId = kAeadAes256Gcm
  compression : h.compressionId = mcCompressNone ∨ h.compressionId = mcCompressZlib
  logN : 14 ≤ h.kdfLogN.toNat ∧ h.kdfLogN.toNat ≤ 20
  r : 1 ≤ h.kdfR.toNat ∧ h.kdfR.toNat ≤ 32
  p : 1 ≤ h.kdfP.toNat ∧ h.kdfP.toNat ≤ 16
  memory : 128 * 2 ^ h.kdfLogN.toNat * h.kdfR.toNat ≤ 2 ^ 30
  chunkSize : 2 ^ 12 ≤ h.chunkSize.toNat ∧ h.chunkSize.toNat ≤ 2 ^ 26
  plaintext : h.plaintextSize.toNat ≤ 2 ^ 36
  count : h.chunkCount.toNat =
    max 1 ((h.plaintextSize.toNat + h.chunkSize.toNat - 1) / h.chunkSize.toNat)

namespace FileHeader

variable {h : FileHeader}

theorem Valid.count_pos (hv : h.Valid) : 0 < h.chunkCount.toNat := by
  rw [hv.count]; omega

theorem Valid.chunkSize_pos (hv : h.Valid) : 0 < h.chunkSize.toNat := by
  have := hv.chunkSize.1; omega

theorem Valid.count_eq (hv : h.Valid) : h.chunkCount = chunkCountFor h.plaintextSize h.chunkSize := by
  apply UInt32.toNat_inj.mp
  rw [hv.count, chunkCountFor_toNat hv.plaintext hv.chunkSize.1]

theorem Valid.count_le (hv : h.Valid) : h.chunkCount.toNat ≤ 2 ^ 24 := by
  rw [hv.count_eq]
  exact chunkCountFor_le hv.plaintext hv.chunkSize.1

/-- The chunks cover the plaintext. -/
theorem Valid.covers (hv : h.Valid) : h.plaintextSize.toNat ≤ h.chunkCount.toNat * h.chunkSize.toNat := by
  have hpos := hv.chunkSize_pos
  have hc := hv.count
  have hdm := Nat.div_add_mod (h.plaintextSize.toNat + h.chunkSize.toNat - 1) h.chunkSize.toNat
  have hm := Nat.mod_lt (h.plaintextSize.toNat + h.chunkSize.toNat - 1) hpos
  have hle : (h.plaintextSize.toNat + h.chunkSize.toNat - 1) / h.chunkSize.toNat ≤ h.chunkCount.toNat := by
    omega
  have := Nat.mul_le_mul_left h.chunkSize.toNat hle
  rw [Nat.mul_comm]
  omega

/-- Every chunk but a lone one starts inside the plaintext. -/
theorem Valid.start_lt (hv : h.Valid) {i : ℕ} (hi : i < h.chunkCount.toNat) (h0 : 0 < i) :
    i * h.chunkSize.toNat < h.plaintextSize.toNat := by
  have hpos := hv.chunkSize_pos
  have hc := hv.count
  have hi' : i + 1 ≤ (h.plaintextSize.toNat + h.chunkSize.toNat - 1) / h.chunkSize.toNat := by omega
  have hm := (Nat.le_div_iff_mul_le hpos).mp hi'
  rw [Nat.succ_mul] at hm
  omega

/-- A plaintext of at most one chunk is one chunk. -/
theorem Valid.single (hv : h.Valid) (hle : h.plaintextSize.toNat ≤ h.chunkSize.toNat) : h.chunkCount.toNat = 1 := by
  by_contra hne
  have hpos := hv.count_pos
  have hlt : 1 < h.chunkCount.toNat := by omega
  have hstart := hv.start_lt hlt (by decide)
  omega

/-! ### The header codec -/

/-- The fields of the header in the order of the layout. -/
def fields (h : FileHeader) : List Bytes :=
  [kMagic, writeU16 h.formatVersion, writeU8 h.kdfId, writeU8 h.aeadId, writeU8 h.compressionId,
    writeU8 h.kdfLogN, writeU32 h.kdfR, writeU32 h.kdfP, h.salt.1, h.noncePrefix.1, writeU32 h.chunkSize,
    writeU64 h.plaintextSize, writeU32 h.chunkCount, writeU16 0]

theorem fields_length (h : FileHeader) : h.fields.map List.length = [8, 2, 1, 1, 1, 1, 4, 4, 16, 8, 4, 8, 4, 2] := by
  simp [fields]

end FileHeader

theorem serializeFileHeader_eq (h : FileHeader) : serializeFileHeader h = h.fields.flatten := by
  unfold serializeFileHeader
  rw [show zeros kHeaderSize = [] ++ zeros kHeaderSize by rfl]
  dsimp only
  repeat rw [overwrite_zeros (by simp)]
  simp [FileHeader.fields]

theorem serializeFileHeader_length (h : FileHeader) : (serializeFileHeader h).length = kHeaderSize := by
  rw [serializeFileHeader_eq, List.length_flatten, h.fields_length]
  rfl

/-- Cut at the offsets of the layout, a file that starts with a header gives back its fields. -/
theorem cut_header (h : FileHeader) (rest : Bytes) :
    cut (serializeFileHeader h ++ rest) 0 [8, 2, 1, 1, 1, 1, 4, 4, 16, 8, 4, 8, 4, 2] = h.fields := by
  have := cut_pieces rest [] h.fields
  rwa [List.nil_append, ← serializeFileHeader_eq, h.fields_length] at this

/-- The header fields that stand at the offsets of the layout, whatever they are. -/
def readHeader (b : Bytes) : FileHeader where
  formatVersion := readU16 (slice b kOffVersion 2)
  kdfId := readU8 (slice b kOffKdfId 1)
  aeadId := readU8 (slice b kOffAeadId 1)
  compressionId := readU8 (slice b kOffCompressionId 1)
  kdfLogN := readU8 (slice b kOffKdfLogN 1)
  kdfR := readU32 (slice b kOffKdfR 4)
  kdfP := readU32 (slice b kOffKdfP 4)
  salt := copyVec kSaltSize (slice b kOffSalt kSaltSize)
  noncePrefix := copyVec kNoncePrefixSize (slice b kOffNoncePrefix kNoncePrefixSize)
  chunkSize := readU32 (slice b kOffChunkSize 4)
  plaintextSize := readU64 (slice b kOffPlaintextSize 8)
  chunkCount := readU32 (slice b kOffChunkCount 4)

/-- The parser on an input that has room for a header: its reads are in
bounds, and what is left are its checks, in their order. -/
theorem parseFileHeader_bytes {b : Bytes} (hb : kHeaderSize ≤ b.length) : parseFileHeader (.bytes b) =
    (let h := readHeader b
     if slice b kOffMagic kMagicSize ≠ kMagic then .error (.status .errFormat)
     else if h.formatVersion ≠ mcFormatVersion then .error (.status .errUnsupported)
     else if h.kdfId ≠ kKdfScrypt ∨ h.aeadId ≠ kAeadAes256Gcm then .error (.status .errUnsupported)
     else if h.compressionId ≠ mcCompressNone ∧ h.compressionId ≠ mcCompressZlib then
       .error (.status .errUnsupported)
     else if readU16 (slice b kOffHeaderReserved 2) ≠ 0 then .error (.status .errFormat)
     else if h.kdfLogN < kMinKdfLogN ∨ h.kdfLogN > kMaxKdfLogN ∨ h.kdfR < kMinKdfR ∨ h.kdfR > kMaxKdfR ∨
         h.kdfP < kMinKdfP ∨ h.kdfP > kMaxKdfP then .error (.status .errUnsupported)
     else if kdfMemory h.kdfLogN h.kdfR > kMaxKdfMemory then .error (.status .errUnsupported)
     else if h.chunkSize < kMinChunkSize ∨ h.chunkSize > kMaxChunkSize then .error (.status .errFormat)
     else if h.plaintextSize > mcMaxPlaintextSize then .error (.status .errTooLarge)
     else if h.chunkCount ≠ chunkCountFor h.plaintextSize h.chunkSize then .error (.status .errFormat)
     else .ok h) := by
  have rd {off n : ℕ} (h : off + n ≤ 64) : (Span.bytes b).read off n = .ok (slice b off n) :=
    Span.read_bytes (le_trans h hb)
  have e1 := rd (show kOffMagic + kMagicSize ≤ 64 by decide)
  have e2 := rd (show kOffVersion + 2 ≤ 64 by decide)
  have e3 := rd (show kOffKdfId + 1 ≤ 64 by decide)
  have e4 := rd (show kOffAeadId + 1 ≤ 64 by decide)
  have e5 := rd (show kOffCompressionId + 1 ≤ 64 by decide)
  have e6 := rd (show kOffHeaderReserved + 2 ≤ 64 by decide)
  have e7 := rd (show kOffKdfLogN + 1 ≤ 64 by decide)
  have e8 := rd (show kOffKdfR + 4 ≤ 64 by decide)
  have e9 := rd (show kOffKdfP + 4 ≤ 64 by decide)
  have e10 := rd (show kOffSalt + kSaltSize ≤ 64 by decide)
  have e11 := rd (show kOffNoncePrefix + kNoncePrefixSize ≤ 64 by decide)
  have e12 := rd (show kOffChunkSize + 4 ≤ 64 by decide)
  have e13 := rd (show kOffPlaintextSize + 8 ≤ 64 by decide)
  have e14 := rd (show kOffChunkCount + 4 ≤ 64 by decide)
  unfold parseFileHeader
  simp only [returnIf_except]
  rw [if_neg (by simp), if_neg (show ¬ (Span.bytes b).size < kHeaderSize from Nat.not_lt.mpr hb)]
  simp only [e1, e2, e3, e4, e5, e6, e7, e8, e9, e10, e11, e12, e13, e14, ok_bind]
  rfl

theorem parseFileHeader_short {b : Bytes} (hb : b.length < kHeaderSize) :
    parseFileHeader (.bytes b) = .error (.status .errFormat) := by
  unfold parseFileHeader
  simp only [returnIf_except]
  rw [if_neg (by simp), if_pos (show (Span.bytes b).size < kHeaderSize from hb)]

/-- The parser's ranges are those of a valid header. -/
theorem ranges_iff {n : UInt8} {r p : UInt32} : (¬ (n < kMinKdfLogN ∨ n > kMaxKdfLogN ∨
      r < kMinKdfR ∨ r > kMaxKdfR ∨ p < kMinKdfP ∨ p > kMaxKdfP)) ↔
    (14 ≤ n.toNat ∧ n.toNat ≤ 20) ∧ (1 ≤ r.toNat ∧ r.toNat ≤ 32) ∧ (1 ≤ p.toNat ∧ p.toNat ≤ 16) := by
  simp only [gt_iff_lt, UInt8.lt_iff_toNat_lt, UInt32.lt_iff_toNat_lt, show kMinKdfLogN.toNat = 14 by rfl,
    show kMaxKdfLogN.toNat = 20 by rfl, show kMinKdfR.toNat = 1 by rfl, show kMaxKdfR.toNat = 32 by rfl,
    show kMinKdfP.toNat = 1 by rfl, show kMaxKdfP.toNat = 16 by rfl]
  omega

theorem chunkSize_range_iff {C : UInt32} :
    (¬ (C < kMinChunkSize ∨ C > kMaxChunkSize)) ↔ 2 ^ 12 ≤ C.toNat ∧ C.toNat ≤ 2 ^ 26 := by
  simp only [gt_iff_lt, UInt32.lt_iff_toNat_lt, kMinChunkSize_toNat, kMaxChunkSize_toNat]
  omega

theorem plaintextSize_range_iff {P : UInt64} : (¬ P > mcMaxPlaintextSize) ↔ P.toNat ≤ 2 ^ 36 := by
  simp only [gt_iff_lt, UInt64.lt_iff_toNat_lt, mcMaxPlaintextSize_toNat]
  omega

/-- The product bound, once the ranges hold. -/
theorem memory_iff {n : UInt8} {r : UInt32} (hn : n.toNat ≤ 20) (hr : r.toNat ≤ 32) :
    (¬ kdfMemory n r > kMaxKdfMemory) ↔ 128 * 2 ^ n.toNat * r.toNat ≤ 2 ^ 30 := by
  simp only [gt_iff_lt, UInt64.lt_iff_toNat_lt, kMaxKdfMemory_toNat, kdfMemory_toNat hn hr]
  omega

/-- The header an accepted input starts with, byte for byte. -/
theorem serialize_readHeader {b : Bytes} (hb : kHeaderSize ≤ b.length)
    (hm : slice b kOffMagic kMagicSize = kMagic) (hr : readU16 (slice b kOffHeaderReserved 2) = 0) :
    serializeFileHeader (readHeader b) = slice b 0 kHeaderSize := by
  have len {off n : ℕ} (h : off + n ≤ 64) : (slice b off n).length = n :=
    slice_length_of_le (le_trans h hb)
  have hres : writeU16 0 = slice b kOffHeaderReserved 2 := by rw [← hr, writeU16_readU16 (len (by decide))]
  have hf : (readHeader b).fields = cut b 0 [8, 2, 1, 1, 1, 1, 4, 4, 16, 8, 4, 8, 4, 2] := by
    simp only [FileHeader.fields, readHeader, hres, writeU16_readU16 (len (show kOffVersion + 2 ≤ 64 by decide)),
      writeU8_readU8 (len (show kOffKdfId + 1 ≤ 64 by decide)),
      writeU8_readU8 (len (show kOffAeadId + 1 ≤ 64 by decide)),
      writeU8_readU8 (len (show kOffCompressionId + 1 ≤ 64 by decide)),
      writeU8_readU8 (len (show kOffKdfLogN + 1 ≤ 64 by decide)),
      writeU32_readU32 (len (show kOffKdfR + 4 ≤ 64 by decide)),
      writeU32_readU32 (len (show kOffKdfP + 4 ≤ 64 by decide)),
      copyVec_eq (len (show kOffSalt + kSaltSize ≤ 64 by decide)),
      copyVec_eq (len (show kOffNoncePrefix + kNoncePrefixSize ≤ 64 by decide)),
      writeU32_readU32 (len (show kOffChunkSize + 4 ≤ 64 by decide)),
      writeU64_readU64 (len (show kOffPlaintextSize + 8 ≤ 64 by decide)),
      writeU32_readU32 (len (show kOffChunkCount + 4 ≤ 64 by decide)), ← hm]
    rfl
  rw [serializeFileHeader_eq, hf, cut_flatten]
  rfl

/-- Reading back a serialized header. -/
theorem readHeader_serialize (h : FileHeader) (rest : Bytes) :
    readHeader (serializeFileHeader h ++ rest) = h ∧
    slice (serializeFileHeader h ++ rest) kOffMagic kMagicSize = kMagic ∧
    readU16 (slice (serializeFileHeader h ++ rest) kOffHeaderReserved 2) = 0 := by
  have hc := cut_header h rest
  generalize serializeFileHeader h ++ rest = b at hc
  simp only [cut, FileHeader.fields, List.cons.injEq, Nat.zero_add, Nat.reduceAdd] at hc
  obtain ⟨h1, h2, h3, h4, h5, h6, h7, h8, h9, h10, h11, h12, h13, h14, -⟩ := hc
  refine ⟨?_, h1, by rw [h14, readU16_writeU16]⟩
  rw [readHeader, h2, h3, h4, h5, h6, h7, h8, h9, h10, h11, h12, h13, readU16_writeU16, readU8_writeU8,
    readU8_writeU8, readU8_writeU8, readU8_writeU8, readU32_writeU32, readU32_writeU32, readU32_writeU32,
    readU64_writeU64, readU32_writeU32, copyVec_val, copyVec_val]

theorem serializeFileHeader_inj {h h' : FileHeader} (he : serializeFileHeader h = serializeFileHeader h') : h = h' := by
  rw [← (readHeader_serialize h []).1, he, (readHeader_serialize h' []).1]

/-- **The parser accepts exactly the serialized valid headers**, and returns the one it read. -/
theorem parseFileHeader_ok_iff {b : Bytes} {h : FileHeader} : parseFileHeader (.bytes b) = .ok h ↔
    kHeaderSize ≤ b.length ∧ h.Valid ∧ slice b 0 kHeaderSize = serializeFileHeader h := by
  constructor
  · intro hp
    by_cases hb : kHeaderSize ≤ b.length
    · rw [parseFileHeader_bytes hb] at hp
      dsimp only at hp
      simp only [Prog.ite_error_eq_ok] at hp
      obtain ⟨c1, c2, c3, c4, c5, c6, c7, c8, c9, c10, hp⟩ := hp
      cases hp
      obtain ⟨hn, hr, hp⟩ := ranges_iff.mp c6
      have hk := chunkSize_range_iff.mp c8
      have hq := plaintextSize_range_iff.mp c9
      have hcount := not_not.mp c10
      refine ⟨hb, ⟨not_not.mp c2, ?_, ?_, ?_, hn, hr, hp, (memory_iff hn.2 hr.2).mp c7, hk, hq, ?_⟩,
        (serialize_readHeader hb (not_not.mp c1) (not_not.mp c5)).symm⟩
      · exact not_not.mp fun e => c3 (.inl e)
      · exact not_not.mp fun e => c3 (.inr e)
      · by_contra e
        exact c4 (not_or.mp e)
      · rw [hcount, chunkCountFor_toNat hq hk.1]
    · rw [parseFileHeader_short (Nat.not_le.mp hb)] at hp
      cases hp
  · rintro ⟨hb, hv, hs⟩
    have hsplit : b = serializeFileHeader h ++ b.drop kHeaderSize := by
      rw [← hs, slice_take, List.take_append_drop]
    obtain ⟨r1, r2, r3⟩ := readHeader_serialize h (b.drop kHeaderSize)
    rw [← hsplit] at r1 r2 r3
    rw [parseFileHeader_bytes hb]
    dsimp only
    rw [r1, if_neg (not_not.mpr r2), if_neg (not_not.mpr hv.version),
      if_neg (by rw [hv.kdf, hv.aead]; simp), if_neg (fun e => hv.compression.elim e.1 e.2),
      if_neg (not_not.mpr r3), if_neg (ranges_iff.mpr ⟨hv.logN, hv.r, hv.p⟩),
      if_neg ((memory_iff hv.logN.2 hv.r.2).mpr hv.memory), if_neg (chunkSize_range_iff.mpr hv.chunkSize),
      if_neg (plaintextSize_range_iff.mpr hv.plaintext), if_neg (not_not.mpr hv.count_eq)]

/-- The parser reports one of four statuses or a header, never a fault. -/
theorem parseFileHeader_error {input : Span} {e : Stop} (h : parseFileHeader input = .error e) :
    ∃ s ∈ [McStatus.errInvalidArg, .errFormat, .errUnsupported, .errTooLarge], e = .status s := by
  cases input with
  | null n =>
    unfold parseFileHeader at h
    simp only [returnIf_except] at h
    rw [if_pos (by simp)] at h
    exact ⟨_, by decide, (Except.error.inj h).symm⟩
  | bytes b =>
    by_cases hb : kHeaderSize ≤ b.length
    · rw [parseFileHeader_bytes hb] at h
      generalize readHeader b = header at h
      iterate 10
        obtain he | h := Prog.ite_error_cases h
        · exact ⟨_, by decide, he⟩
      cases h
    · rw [parseFileHeader_short (Nat.not_le.mp hb)] at h
      exact ⟨_, by decide, (Except.error.inj h).symm⟩

/-! ### The chunk record codec -/

theorem serializeChunkHeader_eq (c : ChunkHeader) (t : ByteVec kTagSize) :
    serializeChunkHeader c t = [writeU32 c.storedSize, writeU8 c.flags, zeros 3, t.1].flatten := by
  unfold serializeChunkHeader
  rw [show zeros kChunkHeaderSize = [] ++ zeros kChunkHeaderSize by rfl]
  dsimp only
  rw [overwrite_zeros (by simp), overwrite_zeros (by simp)]
  have hz : zeros (kChunkHeaderSize - (writeU32 c.storedSize).length - (writeU8 c.flags).length) =
      zeros 3 ++ zeros 16 := rfl
  rw [hz, ← List.append_assoc, overwrite_zeros (by simp)]
  simp

theorem serializeChunkHeader_length (c : ChunkHeader) (t : ByteVec kTagSize) :
    (serializeChunkHeader c t).length = kChunkHeaderSize := by
  simp [serializeChunkHeader_eq]

/-- The flag bytes a chunk record may have. -/
theorem flags_iff {x : UInt8} : x &&& ~~~kChunkFlagMask = 0 ↔ x = 0 ∨ x = kChunkFlagCompressed := by
  have all : ∀ n : Fin 256, UInt8.ofNat n &&& ~~~kChunkFlagMask = 0 ↔
      UInt8.ofNat n = 0 ∨ UInt8.ofNat n = kChunkFlagCompressed := by decide +kernel
  simpa using all ⟨x.toNat, x.toNat_lt⟩

/-- The three bytes `b` reads at the layout of a chunk record at `off`. -/
theorem parseChunkHeader_bytes {b : Bytes} {off : ℕ} {m : UInt32} (hb : off + kChunkHeaderSize ≤ b.length) :
    parseChunkHeader (.bytes b) off m =
    if readU8 (slice b (off + kOffChunkFlags) 1) &&& ~~~kChunkFlagMask ≠ 0 then .error (.status .errFormat)
    else if ∃ x ∈ slice b (off + kOffChunkReserved) 3, x ≠ 0 then .error (.status .errFormat)
    else if readU32 (slice b off 4) > m then .error (.status .errFormat)
    else .ok (⟨readU32 (slice b off 4), readU8 (slice b (off + kOffChunkFlags) 1)⟩,
      copyVec kTagSize (slice b (off + kOffChunkTag) kTagSize)) := by
  have rd {o n : ℕ} (h : o + n ≤ 24) : (Span.bytes b).read (off + o) n = .ok (slice b (off + o) n) :=
    Span.read_bytes (by simp only [kChunkHeaderSize] at hb; omega)
  have e1 := rd (show kOffChunkStoredSize + 4 ≤ 24 by decide)
  have e2 := rd (show kOffChunkFlags + 1 ≤ 24 by decide)
  have e3 := rd (show kOffChunkReserved + (kOffChunkTag - kOffChunkReserved) ≤ 24 by decide)
  have e4 := rd (show kOffChunkTag + kTagSize ≤ 24 by decide)
  unfold parseChunkHeader
  simp only [returnIf_except]
  rw [if_neg (by simp)]
  simp only [e1, e2, e3, e4, ok_bind]
  rfl

/-- **A chunk record is accepted exactly if it is the serialization of what the
parser returns**, its flags are known and its size is in bounds. -/
theorem parseChunkHeader_ok_iff {b : Bytes} {off : ℕ} {m : UInt32} (hb : off + kChunkHeaderSize ≤ b.length)
    {c : ChunkHeader} {t : ByteVec kTagSize} : parseChunkHeader (.bytes b) off m = .ok (c, t) ↔
    slice b off kChunkHeaderSize = serializeChunkHeader c t ∧
      (c.flags = 0 ∨ c.flags = kChunkFlagCompressed) ∧ c.storedSize ≤ m := by
  have len {o n : ℕ} (h : o + n ≤ 24) : (slice b (off + o) n).length = n :=
    slice_length_of_le (by simp only [kChunkHeaderSize] at hb; omega)
  have l0 : (slice b off 4).length = 4 := len (show 0 + 4 ≤ 24 by decide)
  have hcut : slice b off kChunkHeaderSize = (cut b off [4, 1, 3, 16]).flatten := by
    rw [cut_flatten]
    rfl
  rw [parseChunkHeader_bytes hb]
  constructor
  · intro hp
    simp only [Prog.ite_error_eq_ok] at hp
    obtain ⟨c1, c2, c3, hp⟩ := hp
    cases hp
    have hz : slice b (off + kOffChunkReserved) 3 = zeros 3 := by
      rw [zeros, List.eq_replicate_iff]
      refine ⟨len (show kOffChunkReserved + 3 ≤ 24 by decide), fun x hx => ?_⟩
      by_contra hne
      exact c2 ⟨x, hx, hne⟩
    refine ⟨?_, flags_iff.mp (not_not.mp c1), Nat.not_lt.mp c3⟩
    rw [hcut, serializeChunkHeader_eq, ← hz, writeU32_readU32 l0,
      writeU8_readU8 (len (show kOffChunkFlags + 1 ≤ 24 by decide)),
      copyVec_eq (len (show kOffChunkTag + kTagSize ≤ 24 by decide))]
    rfl
  · rintro ⟨hs, hf, hm⟩
    have hb' : b = b.take off ++ (serializeChunkHeader c t ++ b.drop (off + kChunkHeaderSize)) := by
      rw [← hs, slice, ← List.drop_drop, List.take_append_drop, List.take_append_drop]
    have ho : (b.take off).length = off := by rw [List.length_take]; omega
    have hc := cut_pieces (b.drop (off + kChunkHeaderSize)) (b.take off)
      [writeU32 c.storedSize, writeU8 c.flags, zeros 3, t.1]
    rw [← serializeChunkHeader_eq, ← hb', ho] at hc
    simp only [cut, List.map_cons, List.map_nil, writeU32_length, writeU8_length, zeros_length,
      List.cons.injEq, Nat.add_assoc, Nat.reduceAdd, byteVec_length] at hc
    obtain ⟨h1, h2, h3, h4, -⟩ := hc
    have hz : ¬ ∃ x ∈ zeros 3, x ≠ 0 := by
      rintro ⟨x, hx, hne⟩
      exact hne (List.eq_of_mem_replicate hx)
    have hle : ¬ c.storedSize > m := Nat.not_lt.mpr hm
    rw [h1, h2, h3, h4, readU8_writeU8, readU32_writeU32, copyVec_val, if_neg (not_not.mpr (flags_iff.mpr hf)),
      if_neg hz, if_neg hle]

/-- Inside the input the parser of a chunk record reports a header or a malformed one. -/
theorem parseChunkHeader_error {b : Bytes} {off : ℕ} {m : UInt32} (hb : off + kChunkHeaderSize ≤ b.length)
    {e : Stop} (h : parseChunkHeader (.bytes b) off m = .error e) : e = .status .errFormat := by
  rw [parseChunkHeader_bytes hb] at h
  iterate 3
    obtain he | h := Prog.ite_error_cases h
    · exact he
  cases h

/-! ### Associated data and nonce -/

theorem buildAad_length {sh : Bytes} (h : sh.length = kHeaderSize) (i : UInt32) (c : ChunkHeader) :
    (buildAad sh i c).length = kAadSize := by
  simp [buildAad, h]

/-- The associated data pins the header bytes, the position, the size and the flags. -/
theorem buildAad_inj {sh sh' : Bytes} {i i' : UInt32} {c c' : ChunkHeader} (hl : sh.length = sh'.length)
    (h : buildAad sh i c = buildAad sh' i' c') : sh = sh' ∧ i = i' ∧ c = c' := by
  obtain ⟨h1, h⟩ := List.append_inj h hl
  obtain ⟨h2, h⟩ := List.append_inj h rfl
  obtain ⟨h3, h4⟩ := List.append_inj h rfl
  refine ⟨h1, writeU32_inj h2, ?_⟩
  have hs := writeU32_inj h3
  have hf : c.flags = c'.flags := List.singleton_inj.mp h4
  cases c
  cases c'
  simp_all

theorem buildNonce_eq (np : ByteVec kNoncePrefixSize) (i : UInt32) :
    buildNonce np i = np.1 ++ beBytes 4 i.toNat := by
  rw [beBytes, ← writeU32_eq]
  rfl

/-- A nonce pins the prefix and the position. -/
theorem buildNonce_inj {np np' : ByteVec kNoncePrefixSize} {i i' : UInt32}
    (h : buildNonce np i = buildNonce np' i') : np = np' ∧ i = i' := by
  rw [buildNonce_eq, buildNonce_eq] at h
  obtain ⟨h1, h2⟩ := List.append_inj h (by simp)
  exact ⟨Subtype.ext h1, UInt32.toNat_inj.mp (beBytes_inj i.toNat_lt i'.toNat_lt h2)⟩

end ModelCrypt
