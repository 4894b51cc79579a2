/-
# The parameters a file may have

The header codec as one statement (`fileHeader_codec`): the parser gives back
every valid header that was serialized, accepts nothing else, writes its
out-parameter only then, and no step of its arithmetic loses a bit
(`ExactReads`, `ExactFields`). Then the two validators, over a caller's
options and over wire bytes: they admit the same parameters
(`parameters_agree`).

Key definitions: `parseFileHeaderTo`, `ExactReads`, `ExactFields`.
Key theorems: `fileHeader_codec`, `accepts_iff`, `parameters_agree`.
-/
import ModelCrypt.DecryptSafety
import ModelCrypt.EncryptSafety

namespace ModelCrypt

open Lib Prog

/-! ### The parser's out-parameter -/

/-- `ParseFileHeader` on a caller's `*header`, which it assigns as the last thing it does. -/
def parseFileHeaderTo (input : Span) (headerNull : Bool) : Prog FileHeader Stop Unit := do
  returnIf (input.isNull = true ∨ headerNull = true) .errInvalidArg
  let parsed ← Prog.ofExcept (parseFileHeader input)
  update fun _ => parsed

theorem parseFileHeaderTo_ok {b : Bytes} {old h : FileHeader} (hp : parseFileHeader (.bytes b) = .ok h) :
    parseFileHeaderTo (.bytes b) false old = (.ok (), h) := by
  unfold parseFileHeaderTo returnIf
  rw [throwIf_neg (by simp), hp]
  rfl

/-- Whatever it is given, the parser reports an error and leaves `*header`, or accepts the bytes. -/
theorem parseFileHeaderTo_cases (input : Span) (headerNull : Bool) (old : FileHeader) :
    (∃ e ≠ McStatus.ok, parseFileHeaderTo input headerNull old = (.error (.status e), old)) ∨
    ∃ b h, input = .bytes b ∧ headerNull = false ∧ parseFileHeader (.bytes b) = .ok h := by
  by_cases hn : input.isNull = true ∨ headerNull = true
  · refine .inl ⟨.errInvalidArg, by decide, ?_⟩
    unfold parseFileHeaderTo returnIf
    rw [throwIf_pos hn]
    rfl
  · obtain ⟨h1, h2⟩ := not_or.mp hn
    have hin := Span.eq_bytes (Bool.eq_false_iff.mpr h1)
    cases hp : parseFileHeader input with
    | ok h => exact .inr ⟨input.toBytes, h, hin, Bool.eq_false_iff.mpr h2, by rw [← hin]; exact hp⟩
    | error e =>
      obtain ⟨m, hm, rfl⟩ := parseFileHeader_error hp
      refine .inl ⟨m, by rintro rfl; simp at hm, ?_⟩
      unfold parseFileHeaderTo returnIf
      rw [throwIf_neg hn, hp]
      rfl

/-! ### The parser's arithmetic -/

/-- The shifts of the readers move a byte inside the word. -/
structure ExactShifts : Prop where
  u16 : ∀ x : UInt8, (x.toUInt16 <<< 8).toNat = x.toNat * 2 ^ 8
  u32 : ∀ x : UInt8, ∀ k ∈ [(8 : UInt32), 16, 24], (x.toUInt32 <<< k).toNat = x.toNat * 2 ^ k.toNat
  u64 : ∀ x : UInt8, ∀ i < 8, (x.toUInt64 <<< (8 * i).toUInt64).toNat = x.toNat * 2 ^ (8 * i)

/-- Every integer the parser reads is the value of its bytes. -/
structure ExactReads (b : Bytes) : Prop where
  version : (readHeader b).formatVersion.toNat = leNat (slice b kOffVersion 2)
  kdfId : (readHeader b).kdfId.toNat = leNat (slice b kOffKdfId 1)
  aeadId : (readHeader b).aeadId.toNat = leNat (slice b kOffAeadId 1)
  compressionId : (readHeader b).compressionId.toNat = leNat (slice b kOffCompressionId 1)
  reserved : (readU16 (slice b kOffHeaderReserved 2)).toNat = leNat (slice b kOffHeaderReserved 2)
  logN : (readHeader b).kdfLogN.toNat = leNat (slice b kOffKdfLogN 1)
  r : (readHeader b).kdfR.toNat = leNat (slice b kOffKdfR 4)
  p : (readHeader b).kdfP.toNat = leNat (slice b kOffKdfP 4)
  chunkSize : (readHeader b).chunkSize.toNat = leNat (slice b kOffChunkSize 4)
  plaintextSize : (readHeader b).plaintextSize.toNat = leNat (slice b kOffPlaintextSize 8)
  chunkCount : (readHeader b).chunkCount.toNat = leNat (slice b kOffChunkCount 4)

/-- The scrypt parameters passed the check of their ranges. -/
def FileHeader.InRanges (h : FileHeader) : Prop :=
  ¬ (h.kdfLogN < kMinKdfLogN ∨ h.kdfLogN > kMaxKdfLogN ∨ h.kdfR < kMinKdfR ∨ h.kdfR > kMaxKdfR ∨
    h.kdfP < kMinKdfP ∨ h.kdfP > kMaxKdfP)

/-- The sizes passed the checks before the count of chunks is computed. -/
def FileHeader.InSizes (h : FileHeader) : Prop :=
  ¬ (h.chunkSize < kMinChunkSize ∨ h.chunkSize > kMaxChunkSize) ∧ ¬ h.plaintextSize > mcMaxPlaintextSize

/-- What the parser computes from the fields is what the integers give: behind the
checks that come before it, no shift, product, sum, difference or cast loses a bit. -/
structure FileHeader.ExactFields (h : FileHeader) : Prop where
  amount : h.InRanges → h.kdfLogN.toUInt64.toNat < 64
  shift : h.InRanges → ((1 : UInt64) <<< h.kdfLogN.toUInt64).toNat = 2 ^ h.kdfLogN.toNat
  product : h.InRanges → (128 * ((1 : UInt64) <<< h.kdfLogN.toUInt64)).toNat = 128 * 2 ^ h.kdfLogN.toNat
  memory : h.InRanges → (kdfMemory h.kdfLogN h.kdfR).toNat = 128 * 2 ^ h.kdfLogN.toNat * h.kdfR.toNat
  sum : h.InSizes → (h.plaintextSize + h.chunkSize.toUInt64).toNat = h.plaintextSize.toNat + h.chunkSize.toNat
  pred : h.InSizes → (h.plaintextSize + h.chunkSize.toUInt64 - 1).toNat = h.plaintextSize.toNat + h.chunkSize.toNat - 1
  quotient : h.InSizes → ((h.plaintextSize + h.chunkSize.toUInt64 - 1) / h.chunkSize.toUInt64).toNat =
    (h.plaintextSize.toNat + h.chunkSize.toNat - 1) / h.chunkSize.toNat
  cast : h.InSizes → ((h.plaintextSize + h.chunkSize.toUInt64 - 1) / h.chunkSize.toUInt64).toUInt32.toNat =
    ((h.plaintextSize + h.chunkSize.toUInt64 - 1) / h.chunkSize.toUInt64).toNat

theorem exactShifts : ExactShifts where
  u16 x := by
    have hx := x.toNat_lt
    rw [UInt16.toNat_shiftLeft, UInt8.toNat_toUInt16, show (8 : UInt16).toNat % 16 = 8 by rfl,
      shiftLeft_mod hx (by decide), Nat.shiftLeft_eq]
  u32 x k hk := by
    have hx := x.toNat_lt
    have hkn : k.toNat % 32 = k.toNat ∧ k.toNat + 8 ≤ 32 := by
      simp only [List.mem_cons, List.not_mem_nil, or_false] at hk
      rcases hk with rfl | rfl | rfl <;> decide
    rw [UInt32.toNat_shiftLeft, UInt8.toNat_toUInt32, hkn.1, shiftLeft_mod hx hkn.2, Nat.shiftLeft_eq]
  u64 x i hi := by
    have hx := x.toNat_lt
    have hmod : (8 * i).toUInt64.toNat % 64 = 8 * i := by
      rw [Nat.toUInt64_eq, UInt64.toNat_ofNat_of_lt' (by simp only [UInt64.size]; omega)]
      omega
    rw [UInt64.toNat_shiftLeft, UInt8.toNat_toUInt64, hmod, shiftLeft_mod hx (by omega), Nat.shiftLeft_eq]

theorem exactReads {b : Bytes} (hb : kHeaderSize ≤ b.length) : ExactReads b := by
  have len {off n : ℕ} (h : off + n ≤ 64) : (slice b off n).length = n := slice_length_of_le (le_trans h hb)
  exact {
    version := readU16_toNat (len (by decide))
    kdfId := readU8_toNat (len (by decide))
    aeadId := readU8_toNat (len (by decide))
    compressionId := readU8_toNat (len (by decide))
    reserved := readU16_toNat (len (by decide))
    logN := readU8_toNat (len (by decide))
    r := readU32_toNat (len (by decide))
    p := readU32_toNat (len (by decide))
    chunkSize := readU32_toNat (len (by decide))
    plaintextSize := readU64_toNat (len (by decide))
    chunkCount := readU32_toNat (len (by decide)) }

theorem FileHeader.exactFields (h : FileHeader) : h.ExactFields := by
  have hr (hi : h.InRanges) : h.kdfLogN.toNat ≤ 20 ∧ h.kdfR.toNat ≤ 32 :=
    ⟨(ranges_iff.mp hi).1.2, (ranges_iff.mp hi).2.1.2⟩
  have hsum (hi : h.InSizes) :
      (h.plaintextSize + h.chunkSize.toUInt64).toNat = h.plaintextSize.toNat + h.chunkSize.toNat := by
    have hp := plaintextSize_range_iff.mp hi.2
    have hc := (chunkSize_range_iff.mp hi.1).2
    rw [UInt64.toNat_add, UInt32.toNat_toUInt64]
    omega
  have hpred (hi : h.InSizes) : (h.plaintextSize + h.chunkSize.toUInt64 - 1).toNat =
      h.plaintextSize.toNat + h.chunkSize.toNat - 1 := by
    have hp := plaintextSize_range_iff.mp hi.2
    have hc := chunkSize_range_iff.mp hi.1
    rw [UInt64.toNat_sub, hsum hi, UInt64.toNat_one]
    omega
  have hquot (hi : h.InSizes) : ((h.plaintextSize + h.chunkSize.toUInt64 - 1) / h.chunkSize.toUInt64).toNat =
      (h.plaintextSize.toNat + h.chunkSize.toNat - 1) / h.chunkSize.toNat := by
    rw [UInt64.toNat_div, hpred hi, UInt32.toNat_toUInt64]
  refine ⟨fun hi => ?_, fun hi => one_shiftLeft_toNat (hr hi).1, fun hi => ?_,
    fun hi => kdfMemory_toNat (hr hi).1 (hr hi).2, hsum, hpred, hquot, fun hi => ?_⟩
  · rw [UInt8.toNat_toUInt64]
    have := (hr hi).1
    omega
  · have hp : 2 ^ h.kdfLogN.toNat ≤ 2 ^ 20 := Nat.pow_le_pow_right (by decide) (hr hi).1
    rw [UInt64.toNat_mul, one_shiftLeft_toNat (hr hi).1, show (128 : UInt64).toNat = 128 by rfl]
    exact Nat.mod_eq_of_lt (by omega)
  · have hp := plaintextSize_range_iff.mp hi.2
    have hc := chunkSize_range_iff.mp hi.1
    have hle : (h.plaintextSize.toNat + h.chunkSize.toNat - 1) / h.chunkSize.toNat ≤ 2 ^ 24 := by
      rw [Nat.div_le_iff_le_mul_add_pred (by omega)]
      have := Nat.mul_le_mul_right (2 ^ 24) hc.1
      omega
    rw [UInt64.toNat_toUInt32, hquot hi]
    exact Nat.mod_eq_of_lt (Nat.lt_of_le_of_lt hle (by decide))

/-! ### The codec -/

theorem take_serialize (h : FileHeader) (rest : Bytes) :
    slice (serializeFileHeader h ++ rest) 0 kHeaderSize = serializeFileHeader h := by
  rw [slice_take, List.take_append_of_le_length (serializeFileHeader_length h).ge,
    List.take_of_length_le (serializeFileHeader_length h).le]

/-- A valid header comes back from any input that starts with it. -/
theorem parse_serialize {h : FileHeader} (hv : h.Valid) (rest : Bytes) :
    parseFileHeader (.bytes (serializeFileHeader h ++ rest)) = .ok h := by
  refine parseFileHeader_ok_iff.mpr ⟨?_, hv, take_serialize h rest⟩
  rw [List.length_append, serializeFileHeader_length]
  exact Nat.le_add_right _ _

/-- The parser accepts a serialized header exactly if it is valid. -/
theorem accepts_iff {h : FileHeader} :
    (∃ h', parseFileHeader (.bytes (serializeFileHeader h)) = .ok h') ↔ h.Valid := by
  constructor
  · rintro ⟨h', hp⟩
    obtain ⟨-, hv, hs⟩ := parseFileHeader_ok_iff.mp hp
    have ht := take_serialize h []
    rw [List.append_nil, hs] at ht
    rwa [serializeFileHeader_inj ht] at hv
  · intro hv
    have hp := parse_serialize hv []
    rw [List.append_nil] at hp
    exact ⟨h, hp⟩

/-- **The header codec is a bijection between the valid headers and the accepted
64 bytes**, the out-parameter is written only on success, and no step of the
parser's arithmetic loses a bit on any input. -/
theorem fileHeader_codec :
    (∀ (h : FileHeader) (rest : Bytes) (old : FileHeader), h.Valid →
      parseFileHeaderTo (.bytes (serializeFileHeader h ++ rest)) false old = (.ok (), h)) ∧
    (∀ (b : Bytes) (old h : FileHeader), parseFileHeaderTo (.bytes b) false old = (.ok (), h) →
      kHeaderSize ≤ b.length ∧ h.Valid ∧ serializeFileHeader h = b.take kHeaderSize) ∧
    (∀ (input : Span) (headerNull : Bool) (old : FileHeader),
      (∀ b h, input = .bytes b → headerNull = false → h.Valid → ¬ serializeFileHeader h <+: b) →
      ∃ e ≠ McStatus.ok, parseFileHeaderTo input headerNull old = (.error (.status e), old)) ∧
    ExactShifts ∧ (∀ b : Bytes, kHeaderSize ≤ b.length → ExactReads b ∧ (readHeader b).ExactFields) := by
  refine ⟨fun h rest old hv => parseFileHeaderTo_ok (parse_serialize hv rest), ?_, ?_, exactShifts,
    fun b hb => ⟨exactReads hb, FileHeader.exactFields _⟩⟩
  · intro b old h ht
    rcases parseFileHeaderTo_cases (.bytes b) false old with ⟨e, -, he⟩ | ⟨b', h', hb, -, hp⟩
    · rw [he] at ht
      cases ht
    · cases hb
      rw [parseFileHeaderTo_ok hp] at ht
      cases ht
      obtain ⟨hl, hv, hs⟩ := parseFileHeader_ok_iff.mp hp
      rw [slice_take] at hs
      exact ⟨hl, hv, hs.symm⟩
  · intro input headerNull old hno
    rcases parseFileHeaderTo_cases input headerNull old with he | ⟨b, h, hb, hn, hp⟩
    · exact he
    · obtain ⟨-, hv, hs⟩ := parseFileHeader_ok_iff.mp hp
      rw [slice_take] at hs
      exact absurd (hs ▸ List.take_prefix _ b) (hno b h hb hn hv)

theorem sampleHeader_codec :
    parseFileHeaderTo (.bytes (serializeFileHeader Decrypt.sampleFile.header ++ [7])) false {} =
      (.ok (), Decrypt.sampleFile.header) :=
  fileHeader_codec.1 Decrypt.sampleFile.header [7] {} Decrypt.sampleFile.valid

/-! ### The parameters of the writer and of the reader -/

namespace Encrypt

/-- The header `EncryptBuffer` assembles, with `count` for the count of chunks
when the chunk size is 0: `ChunkCountFor` divides by it. -/
def headerWith (opts : EncryptOptions) (n : ℕ) (salt : ByteVec kSaltSize) (np : ByteVec kNoncePrefixSize)
    (count : UInt32) : FileHeader :=
  if opts.chunkSize = 0 then { headerFor opts n salt np with chunkCount := count } else headerFor opts n salt np

/-- The compression option is a byte before it is narrowed to one. -/
def InByte (opts : EncryptOptions) : Prop := 0 ≤ opts.compression.toInt ∧ opts.compression.toInt ≤ 255

theorem compressionId_toNat {opts : EncryptOptions} (hb : InByte opts) :
    (opts.compression.toUInt32.toUInt8.toNat : ℤ) = opts.compression.toInt := by
  obtain ⟨h0, h1⟩ := hb
  have hint : opts.compression.toInt = opts.compression.toBitVec.toInt := rfl
  have hnat : opts.compression.toUInt32.toNat = opts.compression.toBitVec.toNat := rfl
  have hlt := opts.compression.toBitVec.isLt
  rw [hint, BitVec.toInt_eq_toNat_cond] at h0 h1 ⊢
  rw [UInt32.toNat_toUInt8, hnat]
  split_ifs at h0 h1 ⊢ <;> omega

/-- Narrowed, an option inside a byte names a compression exactly if it is one. -/
theorem compressionId_iff {opts : EncryptOptions} (hb : InByte opts) :
    (opts.compression.toUInt32.toUInt8 = mcCompressNone ∨ opts.compression.toUInt32.toUInt8 = mcCompressZlib) ↔
    (opts.compression = mcCompressNoneOption ∨ opts.compression = mcCompressZlibOption) := by
  have hn := compressionId_toNat hb
  have id (x : UInt8) (y : Int32) (hxy : (x.toNat : ℤ) = y.toInt) :
      opts.compression.toUInt32.toUInt8 = x ↔ opts.compression = y := by
    rw [← UInt8.toNat_inj, ← Int32.toInt_inj, ← hxy, ← hn]
    exact Int.ofNat_inj.symm
  rw [id mcCompressNone mcCompressNoneOption rfl, id mcCompressZlib mcCompressZlibOption rfl]

theorem Options.inByte {opts : EncryptOptions} (ho : Options opts) : InByte opts := by
  rcases ho.compression with h | h <;> rw [InByte, h] <;> decide

/-- Accepted options are those whose header is valid. -/
theorem headerWith_valid_iff {opts : EncryptOptions} {n : ℕ} (salt : ByteVec kSaltSize) (np : ByteVec kNoncePrefixSize)
    (count : UInt32) (hn : n ≤ 2 ^ 36) : Options opts ↔ InByte opts ∧ (headerWith opts n salt np count).Valid := by
  constructor
  · intro ho
    have hne : opts.chunkSize ≠ 0 := by
      intro h0
      have := ho.chunkSize.1
      rw [h0] at this
      simp at this
    refine ⟨ho.inByte, ?_⟩
    rw [headerWith, if_neg hne]
    exact headerFor_valid salt np ho hn
  · rintro ⟨hb, hv⟩
    have hne : opts.chunkSize ≠ 0 := by
      intro h0
      rw [headerWith, if_pos h0] at hv
      have : 0 < opts.chunkSize.toNat := hv.chunkSize_pos
      rw [h0] at this
      simp at this
    rw [headerWith, if_neg hne] at hv
    exact ⟨(compressionId_iff hb).mp hv.compression, hv.chunkSize, hv.logN, hv.r, hv.p, hv.memory⟩

/-- The options that give a header its parameters. -/
def optionsOf (h : FileHeader) : EncryptOptions where
  compression := if h.compressionId = mcCompressNone then mcCompressNoneOption else mcCompressZlibOption
  chunkSize := h.chunkSize
  kdfLogN := h.kdfLogN
  kdfR := h.kdfR
  kdfP := h.kdfP

theorem optionsOf_options {h : FileHeader} (hv : h.Valid) : Options (optionsOf h) where
  compression := by
    unfold optionsOf
    dsimp only
    split
    · exact .inl rfl
    · exact .inr rfl
  chunkSize := hv.chunkSize
  logN := hv.logN
  r := hv.r
  p := hv.p
  memory := hv.memory

theorem headerFor_optionsOf {h : FileHeader} (hv : h.Valid) :
    headerFor (optionsOf h) h.plaintextSize.toNat h.salt h.noncePrefix = h := by
  have hc : (optionsOf h).compression.toUInt32.toUInt8 = h.compressionId := by
    unfold optionsOf
    dsimp only
    rcases hv.compression with e | e <;> rw [e] <;> decide
  have hp : h.plaintextSize.toNat.toUInt64 = h.plaintextSize := by rw [Nat.toUInt64_eq, UInt64.ofNat_toNat]
  have hcount : chunkCountFor h.plaintextSize (optionsOf h).chunkSize = h.chunkCount := hv.count_eq.symm
  have hver := hv.version
  have hkdf := hv.kdf
  have haead := hv.aead
  unfold headerFor
  rw [hc, hp, hcount]
  cases h
  simp only at hver hkdf haead
  subst hver hkdf haead
  rfl

/-- **The writer's check of the options and the reader's check of the header
admit the same parameters**, for any length: accepted options give an accepted
header, refused ones none, and every accepted header is that of some accepted
options. -/
theorem parameters_agree :
    (∀ (opts : EncryptOptions) (n : ℕ) (salt : ByteVec kSaltSize) (np : ByteVec kNoncePrefixSize) (count : UInt32),
      n ≤ mcMaxPlaintextSize.toNat →
      (validateOptions opts = .ok () ↔
        InByte opts ∧ ∃ h, parseFileHeader (.bytes (serializeFileHeader (headerWith opts n salt np count))) = .ok h)) ∧
    (∀ (b : Bytes) (h : FileHeader), parseFileHeader (.bytes b) = .ok h →
      ∃ (opts : EncryptOptions) (n : ℕ), validateOptions opts = .ok () ∧ n ≤ mcMaxPlaintextSize.toNat ∧
        headerFor opts n h.salt h.noncePrefix = h) := by
  constructor
  · intro opts n salt np count hn
    rw [validateOptions_ok_iff, accepts_iff]
    exact headerWith_valid_iff salt np count hn
  · intro b h hp
    have hv := (parseFileHeader_ok_iff.mp hp).2.1
    exact ⟨optionsOf h, h.plaintextSize.toNat, validateOptions_ok_iff.mpr (optionsOf_options hv), hv.plaintext,
      headerFor_optionsOf hv⟩

theorem sampleOptions_agree : validateOptions sampleOptions = .ok () ↔ InByte sampleOptions ∧
    ∃ h, parseFileHeader (.bytes (serializeFileHeader (headerWith sampleOptions 3 ⟨zeros 16, rfl⟩ ⟨zeros 8, rfl⟩ 0))) =
      .ok h :=
  parameters_agree.1 sampleOptions 3 _ _ 0 (by decide)

end Encrypt

end ModelCrypt
