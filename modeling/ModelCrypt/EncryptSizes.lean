/-
# The sizes in EncryptBuffer

`EncryptBuffer` is cut before its loop (`prepare`, `conclude`), so that one
can speak of every iteration that a run comes to (`Iterates`). At each of them
the record has room (`Fits`): what is left of the output, with the worst case
for the chunks to come, is an invariant of the loop (`Standing`), and so the
capacity check before the seal never fires. The size of the finished file
follows from its records.

Key definitions: `prepare`, `Iterates`, `Fits`, `Standing`.
Key theorems: `encryptBuffer_eq_conclude`, `prepare_ready`, `Standing.fits`, `encryptBuffer_sizes`.
-/
import ModelCrypt.RoundTrip
import ModelCrypt.FileLive

namespace ModelCrypt
namespace Encrypt

open Lib Prog

/-! ### The loop and what comes before it -/

/-- What `EncryptBuffer` has made when it comes to its loop. -/
structure Prepared where
  header : FileHeader
  derivedKey : SecureBuffer
  file : SecureBuffer
  scratch : SecureBuffer

/-- `opts.compression == MC_COMPRESS_ZLIB`. -/
abbrev wantCompression (opts : EncryptOptions) : Bool := decide (opts.compression = mcCompressZlibOption)

/-- `EncryptBuffer` up to its loop. -/
def prepare (w : World) (key : Span) (opts : EncryptOptions) (input : Span) : Run Prepared := do
  returnIf (key.isNull = true) .errInvalidArg
  returnIf (key.size < mcMinKeySize) .errInvalidArg
  returnIf (0 < input.size ∧ input.isNull = true) .errInvalidArg
  returnIf (input.size > mcMaxPlaintextSize.toNat) .errTooLarge
  ofStatus (validateOptions opts)
  let salt ← onTrace (fill w kSaltSize)
  let noncePrefix ← onTrace (fill w kNoncePrefixSize)
  let header := headerFor opts input.size salt noncePrefix
  let derivedKey ← deriveKey w key header.salt.1 header.kdfLogN header.kdfR header.kdfP
  let worstCase : UInt64 :=
    kHeaderSize.toUInt64 + header.chunkCount.toUInt64 * kChunkHeaderSize.toUInt64 + input.size.toUInt64
  returnIf (worstCase.toNat > w.sizeT.max) .errTooLarge
  let file ← newBuffer w .file (w.sizeT.cast worstCase.toNat)
  store file.ptr (serializeFileHeader header)
  let scratch ← newScratch w (wantCompression opts) opts.chunkSize
  return ⟨header, derivedKey, file, scratch⟩

/-- One iteration of the loop. -/
def Prepared.sealAt (c : Prepared) (w : World) (opts : EncryptOptions) (input : Span) (i writeOffset : ℕ) : Run ℕ :=
  sealChunk w c.derivedKey (serializeFileHeader c.header) c.header (wantCompression opts) input c.file c.scratch
    (UInt32.ofNat i) writeOffset

/-- `EncryptBuffer` from its loop on, with the ends of the scopes it is in. -/
def conclude (w : World) (opts : EncryptOptions) (input : Span) (c : Prepared) : Run (SecureBuffer × ℕ) :=
  guarded c.derivedKey (onStop (guarded c.scratch do
    let writeOffset ← sealLoop w c.derivedKey (serializeFileHeader c.header) c.header (wantCompression opts) input
      c.file c.scratch c.header.chunkCount.toNat 0 kHeaderSize
    let file ← shrink w c.file writeOffset
    return (file, writeOffset)) (destroy c.file))

variable {w : World} {key input : Span} {opts : EncryptOptions} {s s1 : St} {c : Prepared}

/-- A run that comes to the loop goes on with it. -/
theorem encryptBuffer_eq_conclude (h : prepare w key opts input s = (.ok c, s1)) :
    encryptBuffer w key opts input s = conclude w opts input c s1 := by
  unfold prepare at h
  simp only [bind_eq_ok] at h
  obtain ⟨_, a1, e1, _, a2, e2, _, a3, e3, _, a4, e4, _, a5, e5, salt, a6, e6, np, a7, e7, dk, a8, e8, _, a9, e9, file,
    a10, e10, _, a11, e11, scratch, a12, e12, e13⟩ := h
  cases e13
  unfold encryptBuffer
  rw [bind_ok e1, bind_ok e2, bind_ok e3, bind_ok e4, bind_ok e5, bind_ok e6, bind_ok e7, bind_ok e8]
  refine always_run ?_
  rw [bind_ok e9, bind_ok e10]
  refine onStop_run ?_
  rw [bind_ok e11]
  exact bind_ok e12

/-- A run that ends with a file came to the loop. -/
theorem prepare_of_ok {a : SecureBuffer × ℕ} {s' : St} (h : encryptBuffer w key opts input s = (.ok a, s')) :
    ∃ c s1, prepare w key opts input s = (.ok c, s1) := by
  unfold encryptBuffer at h
  simp only [bind_eq_ok] at h
  obtain ⟨_, a1, e1, _, a2, e2, _, a3, e3, _, a4, e4, _, a5, e5, salt, a6, e6, np, a7, e7, dk, a8, e8, h⟩ := h
  obtain ⟨s2, h⟩ := always_eq_ok h
  simp only [bind_eq_ok] at h
  obtain ⟨_, a9, e9, file, a10, e10, h⟩ := h
  have h := onStop_eq_ok h
  simp only [bind_eq_ok] at h
  obtain ⟨_, a11, e11, scratch, a12, e12, -⟩ := h
  refine ⟨⟨headerFor opts input.size salt np, dk, file, scratch⟩, a12, ?_⟩
  unfold prepare
  rw [bind_ok e1, bind_ok e2, bind_ok e3, bind_ok e4, bind_ok e5, bind_ok e6, bind_ok e7, bind_ok e8, bind_ok e9,
    bind_ok e10, bind_ok e11, bind_ok e12]
  rfl

/-- The loop, entered in `s1`, comes to position `i` at `writeOffset`, in the state given last. -/
inductive Iterates (w : World) (opts : EncryptOptions) (input : Span) (c : Prepared) (s1 : St) : ℕ → ℕ → St → Prop
  | first : Iterates w opts input c s1 0 kHeaderSize s1
  | next {i off off' : ℕ} {s s' : St} : Iterates w opts input c s1 i off s → i < c.header.chunkCount.toNat →
      c.sealAt w opts input i off s = (.ok off', s') → Iterates w opts input c s1 (i + 1) off' s'

/-! ### What is in place when the loop starts -/

/-- What holds of what was made before the loop, all through it. -/
structure Ready (w : World) (opts : EncryptOptions) (input : Span) (c : Prepared) : Prop where
  options : Options opts
  valid : c.header.Valid
  chunkSize : c.header.chunkSize = opts.chunkSize
  count : c.header.chunkCount = chunkCountFor input.size.toUInt64 opts.chunkSize
  size : input.size = c.header.plaintextSize.toNat
  denotes : input.Denotes input.toBytes
  room : c.header.worstCase ≤ w.sizeT.max
  fileSize : c.file.size = c.header.worstCase

/-- **The loop's invariant**: `off` bytes of the output are written, there are zeros behind
them, and room for the pieces that are left if none gets smaller. -/
def Standing (opts : EncryptOptions) (input : Span) (c : Prepared) (i off : ℕ) (s : St) : Prop :=
  ∃ (k : ByteVec kKeySize) (y done : Bytes) (m : ℕ), done.length = off ∧ off + m = c.header.worstCase ∧
    need ((c.header.pieces input.toBytes).drop i) ≤ m ∧
    SecureBuffer.Apart c.derivedKey c.scratch c.file k.1 y (done ++ zeros m) s.heap.get ∧
    (wantCompression opts = true → y.length = (maxStoredSizeFor c.header.chunkSize).toNat)

/-- **What is made before the loop** is ready for it. -/
theorem prepare_ready (h : prepare w key opts input s = (.ok c, s1)) :
    Ready w opts input c ∧ Standing opts input c 0 kHeaderSize s1 := by
  unfold prepare at h
  simp only [bind_eq_ok] at h
  obtain ⟨_, a1, e1, _, a2, e2, _, a3, e3, _, a4, e4, _, a5, e5, salt, a6, e6, np, a7, e7, dk, a8, e8, _, a9, e9, file,
    a10, e10, _, a11, e11, scratch, a12, e12, e13⟩ := h
  cases e13
  obtain ⟨-, rfl⟩ := throwIf_eq_ok.mp e1
  obtain ⟨-, rfl⟩ := throwIf_eq_ok.mp e2
  obtain ⟨hnull, rfl⟩ := throwIf_eq_ok.mp e3
  obtain ⟨hsize, rfl⟩ := throwIf_eq_ok.mp e4
  rw [mcMaxPlaintextSize_toNat] at hsize
  have hden : input.Denotes input.toBytes := .of_input hnull
  have hopts : Options opts := by
    refine validateOptions_ok_iff.mp ?_
    rcases hv : validateOptions opts with e | u
    · rw [ofStatus, hv] at e5
      cases e5
    · rfl
  have hv := headerFor_valid salt np hopts (Nat.not_lt.mp hsize)
  have hn : input.size = (headerFor opts input.size salt np).plaintextSize.toNat := by
    rw [plaintextSize_toNat (Nat.not_lt.mp hsize)]
  have hp : input.toBytes.length = (headerFor opts input.size salt np).plaintextSize.toNat := by
    rw [← hn, hden.size]
  obtain ⟨k, -, h8⟩ := (sim_deriveKey _ _ _ _ _ (Heap.Becomes.refl _)).of_ok e8
  obtain ⟨hw, rfl⟩ := throwIf_eq_ok.mp e9
  rw [worstCase_toNat hv hn] at hw e10
  rw [SizeT.cast_of_le (Nat.not_lt.mp hw)] at e10
  obtain ⟨-, -, h10⟩ := (sim_newBuffer w .file _ h8.becomes).of_ok e10
  have hsh := serializeFileHeader_length (headerFor opts input.size salt np)
  obtain ⟨s2, e2, -, h2⟩ := InScope.storeFront h10 (x := serializeFileHeader (headerFor opts input.size salt np))
    (by rw [hsh, FileHeader.worstCase]; omega)
  cases e11.symm.trans e2
  obtain ⟨-, -, h12⟩ := (sim_newScratch (wantCompression opts) opts.chunkSize h2.becomes).of_ok e12
  have hback := h8.holds.put_back a7.heap.get
  have hfile := h2.holds.put_back (dk.over k.1 a7.heap.get)
  have ha := apart_of_scope hback hfile (h10.fresh.ne hback) h12
  have hneed := need_pieces hv hp
  refine ⟨⟨hopts, hv, rfl, rfl, hn, hden, Nat.not_lt.mp hw, ?_⟩, k, _, _, _, hsh, ?_, ?_, ha, ?_⟩
  · rw [h10.holds.size, zeros_length]
  · rw [hsh, FileHeader.worstCase]
    omega
  · rw [List.drop_zero, hsh]
    dsimp only
    omega
  · intro hc
    rw [scratchZeros, if_pos hc, zeros_length]
    rfl

/-! ### What an iteration keeps to -/

/-- The sizes of the iteration at position `i` and `writeOffset = off`, from the state `s`, with
the slice `plain` of `n` bytes: none is lost in a cast or exceeds what it is passed to, and
whatever the chunk is packed to, the record fits behind `off`. -/
structure Fits (w : World) (opts : EncryptOptions) (input : Span) (c : Prepared) (i off : ℕ) (s : St) (n : ℕ)
    (plain : Span) : Prop where
  plainSize : chunkPlainSize w.sizeT c.header.plaintextSize c.header.chunkSize (UInt32.ofNat i) = n
  read : plainAt input ((UInt32.ofNat i).toUInt64 * c.header.chunkSize.toUInt64).toNat n = .ok plain
  slice : plain.size = n ∧ i * opts.chunkSize.toNat + n ≤ input.size ∧ n ≤ opts.chunkSize.toNat
  raw : n.toUInt32.toNat = n
  /-- The arguments of `CompressChunk` are within `uInt`. -/
  deflate : wantCompression opts = true → n ≤ uint32Max ∧ c.scratch.size ≤ uint32Max
  compressed : wantCompression opts = true → 0 < n → ∀ z s',
    compressChunk w plain c.scratch.ptr c.scratch.size s = (.ok (z, true), s') → z < n ∧ z.toUInt32.toNat = z
  /-- The arguments of `Seal` are within `int`. -/
  aead : ∀ chunk payload s', packChunk w (wantCompression opts) plain n c.scratch s = (.ok (chunk, payload), s') →
    payload.size = chunk.storedSize.toNat ∧ chunk.storedSize.toNat ≤ int32Max ∧ kAadSize ≤ int32Max
  stored : ∀ chunk payload s', packChunk w (wantCompression opts) plain n c.scratch s = (.ok (chunk, payload), s') →
    chunk.storedSize.toNat ≤ n ∧ chunk.storedSize ≤ maxStoredSizeFor opts.chunkSize
  /-- The sums do not wrap, the check does not fire, and the record is inside the block. -/
  room : ∀ chunk payload s', packChunk w (wantCompression opts) plain n c.scratch s = (.ok (chunk, payload), s') →
    off + kChunkHeaderSize + chunk.storedSize.toNat ≤ worstCase opts input.size ∧
    off + kChunkHeaderSize + chunk.storedSize.toNat ≤ w.sizeT.max ∧
    ¬ off + kChunkHeaderSize + chunk.storedSize.toNat > c.file.size ∧
    (c.file.ptr.add off).Fits (kChunkHeaderSize + chunk.storedSize.toNat) s'.heap.get
  /-- So the status of the check is never returned, unless zlib had no memory before it. -/
  unchecked : ∀ s', c.sealAt w opts input i off s = (.error (.status .errMemory), s') →
    packChunk w (wantCompression opts) plain n c.scratch s = (.error (.status .errMemory), s')

/-! ### One iteration -/

section Iteration

variable {i off off' n : ℕ} {s' : St} {plain : Span}

/-- The piece an iteration is about, and the pieces behind it. -/
theorem piece_at {h : FileHeader} (pt : Bytes) (hi : i < h.chunkCount.toNat) :
    ∃ p, h.pieces pt = (h.pieces pt).take i ++ p :: (h.pieces pt).drop (i + 1) ∧ ((h.pieces pt).take i).length = i ∧
      (h.pieces pt).drop i = p :: (h.pieces pt).drop (i + 1) := by
  have hlt : i < (h.pieces pt).length := by rwa [pieces_length]
  have hdrop := List.drop_eq_getElem_cons hlt
  refine ⟨(h.pieces pt)[i], ?_, by rw [List.length_take]; omega, hdrop⟩
  rw [← hdrop, List.take_append_drop]

/-- The invariant at an iteration that is taken, with its piece. -/
theorem Standing.turn (hr : Ready w opts input c) (hs : Standing opts input c i off s)
    (hi : i < c.header.chunkCount.toNat) :
    ∃ (k : ByteVec kKeySize) (y done p : Bytes) (m : ℕ) (plain : Span), done.length = off ∧
      off + m = c.header.worstCase ∧
      kChunkHeaderSize + p.length + need ((c.header.pieces input.toBytes).drop (i + 1)) ≤ m ∧
      SecureBuffer.Apart c.derivedKey c.scratch c.file k.1 y (done ++ zeros m) s.heap.get ∧
      (wantCompression opts = true → y.length = (maxStoredSizeFor c.header.chunkSize).toNat) ∧
      plainAt input (i * c.header.chunkSize.toNat) (c.header.sliceSize i) = .ok plain ∧ plain.Denotes p ∧
      p.length = c.header.sliceSize i := by
  obtain ⟨k, y, done, m, hd, hm, hneed, ha, hy⟩ := hs
  have hl : input.toBytes.length = c.header.plaintextSize.toNat := by rw [← hr.size, hr.denotes.size]
  obtain ⟨p, hp, hlen, hdrop⟩ := piece_at input.toBytes hi
  obtain ⟨plain, hplain, hden⟩ := plainAt_piece hr.denotes hr.valid hl hp
  have hsize := pieces_size hl (pieces_get hp)
  rw [hlen] at hplain hsize
  rw [hdrop] at hneed
  exact ⟨k, y, done, p, m, plain, hd, hm, hneed, ha, hy, hplain, hden, hsize⟩

/-- **The invariant is kept** by an iteration. -/
theorem Standing.next (hr : Ready w opts input c) (hs : Standing opts input c i off s)
    (hi : i < c.header.chunkCount.toNat)
    (h : c.sealAt w opts input i off s = (.ok off', s')) : Standing opts input c (i + 1) off' s' := by
  obtain ⟨k, y, done, p, m, plain, rfl, hm, hneed, ha, hy, hplain, hden, hl⟩ := hs.turn hr hi
  have hcount := hr.valid.count_le
  have hmax : c.file.size ≤ w.sizeT.max := by rw [hr.fileSize]; exact hr.room
  obtain ⟨r, -, rfl, hle, y', hy', hb⟩ := (sim_sealChunk hr.valid (serializeFileHeader_length c.header) ha (by omega)
    hplain hden hl (by omega) hmax hy).of_ok h
  have hlen : ((done ++ r.bytes) ++ zeros (m - r.bytes.length)).length = (done ++ zeros m).length := by
    simp only [List.length_append, zeros_length]
    omega
  have ha' := ha.write hy' hlen
  rw [← hb.get_eq] at ha'
  exact ⟨k, y', done ++ r.bytes, m - r.bytes.length, List.length_append, by omega, by omega, ha', fun hc =>
    hy'.trans (hy hc)⟩

/-- Every iteration that a run comes to stands in the invariant. -/
theorem Iterates.standing (hr : Ready w opts input c) (h0 : Standing opts input c 0 kHeaderSize s1)
    (h : Iterates w opts input c s1 i off s) : Standing opts input c i off s := by
  induction h with
  | first => exact h0
  | next _ hi hseal ih => exact ih.next hr hi hseal

theorem aeadBegin_error {t : ℕ} {aad : Bytes} {e : McStatus} (h : aeadBegin w t aad = .error e) : e = .errCrypto := by
  simp only [aeadBegin, failIf_bind] at h
  rw [failIf_eq] at h
  split_ifs at h <;> cases h <;> rfl

theorem sealResult_error {a : SealArgs} {t : ℕ} {e : McStatus} (h : sealResult w a t = .error e) : e = .errCrypto := by
  unfold sealResult at h
  simp only [failIf_bind] at h
  split at h
  · cases h
    rfl
  rcases hb : aeadBegin w t a.aad with e' | u <;> rw [hb] at h
  · cases h
    exact aeadBegin_error hb
  · change (if _ then _ else _) = _ at h
    split_ifs at h <;> cases h <;> rfl

/-- A record that was packed is not out of memory. -/
theorem sealRecord_ne_memory {k : ByteVec kKeySize} {sh p : Bytes} {h : FileHeader} {compress : Bool}
    {tr tr1 tr' : List Event}
    {b : ChunkHeader × Bytes} (hp : Ref.pack w compress (maxStoredSizeFor h.chunkSize).toNat p tr = (.ok b, tr1)) :
    Ref.sealRecord w k sh h compress i p tr ≠ (.error .errMemory, tr') := by
  intro hr
  rw [Ref.sealRecord, bind_ok hp, bind_apply, Ref.ask] at hr
  rcases hs : sealResult w (sealArgs k sh h i b.1 b.2) tr1.length with e | c <;> rw [hs] at hr <;> cases hr
  cases sealResult_error hs

/-- **An iteration that ends for want of memory** ended where its chunk was compressed. -/
theorem Standing.unchecked (hr : Ready w opts input c) (hs : Standing opts input c i off s)
    (hi : i < c.header.chunkCount.toNat)
    (hn : chunkPlainSize w.sizeT c.header.plaintextSize c.header.chunkSize (UInt32.ofNat i) = n)
    (hread : plainAt input ((UInt32.ofNat i).toUInt64 * c.header.chunkSize.toUInt64).toNat n = .ok plain)
    (h : c.sealAt w opts input i off s = (.error (.status .errMemory), s')) :
    packChunk w (wantCompression opts) plain n c.scratch s = (.error (.status .errMemory), s') := by
  obtain ⟨k, y, done, p, m, plain', rfl, hm, hneed, ha, hy, hplain, hden, hl⟩ := hs.turn hr hi
  have hcount := hr.valid.count_le
  have hix : (UInt32.ofNat i).toNat = i := UInt32.toNat_ofNat_of_lt' (show i < 2 ^ 32 by omega)
  have hmax : c.file.size ≤ w.sizeT.max := by rw [hr.fileSize]; exact hr.room
  have hslice : p.length ≤ c.header.chunkSize.toNat := by
    rw [hl]
    exact Nat.min_le_left ..
  have hC := hr.valid.chunkSize
  have hstored := maxStoredSizeFor_toNat hC.2
  have hseal := sim_sealChunk hr.valid (serializeFileHeader_length c.header) ha (by omega) hplain hden hl (by omega)
    hmax hy
  have hpack := sim_packChunk (w := w) hden (by omega) ha.holdsScratch
    fun hc => ⟨hy hc, by omega, by simp only [uint32Max]; omega⟩
  rw [chunkPlainSize_eq, hix, ← hl] at hn
  rw [mul32_toNat, hix, ← hn, hl, hplain] at hread
  cases hread
  subst hn
  rcases hp : packChunk w (wantCompression opts) plain p.length c.scratch s with ⟨e | a, s1⟩
  · have hrun : c.sealAt w opts input i done.length s = (.error e, s1) := by
      unfold Prepared.sealAt sealChunk
      simp only [mul32_toNat, hix, chunkPlainSize_eq, hplain]
      rw [bind_ok (show Prog.ofExcept (.ok plain) s = (.ok plain, s) from rfl), ← hl, bind_error hp]
    cases hrun.symm.trans h
    rfl
  · obtain ⟨b, hb, -⟩ := hpack.of_ok hp
    obtain ⟨_, _, _, h1, -⟩ | ⟨e, s2, h1, h2, -⟩ := hseal <;> cases h1.symm.trans h
    exact absurd h2 (sealRecord_ne_memory hb)

theorem Ready.worstCase_eq (hr : Ready w opts input c) : c.header.worstCase = worstCase opts input.size := by
  rw [FileHeader.worstCase, worstCase, hr.count, hr.size]

/-- **An iteration that the invariant holds at keeps to its sizes.** -/
theorem Standing.fits (hr : Ready w opts input c) (hs : Standing opts input c i off s)
    (hi : i < c.header.chunkCount.toNat) :
    ∃ n plain, Fits w opts input c i off s n plain := by
  obtain ⟨k, y, done, p, m, plain, rfl, hm, hneed, ha, hy, hplain, hden, hl⟩ := hs.turn hr hi
  have hcount := hr.valid.count_le
  have hix : (UInt32.ofNat i).toNat = i := UInt32.toNat_ofNat_of_lt' (show i < 2 ^ 32 by omega)
  have hC := hr.valid.chunkSize
  have hstored := maxStoredSizeFor_toNat hC.2
  have hle : p.length ≤ c.header.chunkSize.toNat := by
    rw [hl]
    exact Nat.min_le_left ..
  have hsize : plain.size = p.length := hden.size
  have h32 : p.length < 2 ^ 32 := by omega
  have hroom : c.file.size = done.length + m := by rw [hr.fileSize, hm]
  have h24 : kChunkHeaderSize = 24 := rfl
  have hpack {chunk : ChunkHeader} {payload : Span} {s' : St}
      (he : packChunk w (wantCompression opts) plain p.length c.scratch s = (.ok (chunk, payload), s')) :
      payload.size = chunk.storedSize.toNat ∧ chunk.storedSize.toNat ≤ p.length ∧
        ∃ y', y'.length = y.length ∧ Heap.Becomes s.heap s'.heap (c.scratch.over y' s.heap.get) := by
    obtain ⟨b, -, h1, h2, h3, h4, h5⟩ := (sim_packChunk hden (by omega) ha.holdsScratch
      fun hc => ⟨hy hc, by omega, by simp only [uint32Max]; omega⟩).of_ok he
    dsimp only at h1 h2
    rw [h1, h3]
    exact ⟨h2.size, h4, h5⟩
  have hin : i * c.header.chunkSize.toNat + p.length ≤ input.size := by
    rw [hl, hr.size, FileHeader.sliceSize]
    rcases Nat.eq_zero_or_pos i with h0 | hpos
    · rw [h0]
      omega
    · have := hr.valid.start_lt hi hpos
      omega
  have hplainSize : chunkPlainSize w.sizeT c.header.plaintextSize c.header.chunkSize (UInt32.ofNat i) = p.length := by
    rw [chunkPlainSize_eq, hix, hl]
  have hread : plainAt input ((UInt32.ofNat i).toUInt64 * c.header.chunkSize.toUInt64).toNat p.length = .ok plain := by
    rw [mul32_toNat, hix, hl]
    exact hplain
  refine ⟨p.length, plain, hplainSize, hread, ⟨hsize, ?_, ?_⟩, UInt32.toNat_ofNat_of_lt' h32, fun hc => ⟨?_, ?_⟩, ?_,
    ?_, ?_, ?_, fun s' => hs.unchecked hr hi hplainSize hread⟩
  · rw [← hr.chunkSize]
    exact hin
  · rw [← hr.chunkSize]
    exact hle
  · simp only [uint32Max]
    omega
  · rw [ha.holdsScratch.size, hy hc]
    simp only [uint32Max]
    omega
  · intro hc hpos z s' he
    have hyl := hy hc
    obtain ⟨b, -, hptr, -⟩ := ha.holdsScratch.ptr (by
      rintro rfl
      rw [List.length_nil] at hyl
      omega)
    rw [hden.eq_bytes (by rintro rfl; simp at hpos), ha.holdsScratch.size] at he
    obtain ⟨r, -, hz, -, hsm⟩ := (sim_compressChunk (by simp only [uint32Max]; omega) (by simp only [uint32Max]; omega)
      (ha.holdsScratch.fits (le_refl _)) (by rw [hptr]; simp)).of_ok he
    obtain ⟨hz1, hz2⟩ := Prod.mk.inj hz
    obtain ⟨hlt, -, -⟩ := hsm hz2.symm
    rw [hz1]
    have hz32 : r.1.length < 2 ^ 32 := by omega
    exact ⟨hlt, UInt32.toNat_ofNat_of_lt' hz32⟩
  · intro chunk payload s' he
    obtain ⟨h1, h2, -⟩ := hpack he
    exact ⟨h1, by simp only [int32Max]; omega, by decide⟩
  · intro chunk payload s' he
    obtain ⟨-, h2, -⟩ := hpack he
    rw [UInt32.le_iff_toNat_le, ← hr.chunkSize, hstored]
    exact ⟨h2, by omega⟩
  · intro chunk payload s' he
    obtain ⟨-, h2, y', hy', hb⟩ := hpack he
    have hbound : done.length + kChunkHeaderSize + chunk.storedSize.toNat ≤ done.length + m := by omega
    rw [← hr.worstCase_eq, ← hm]
    refine ⟨hbound, ?_, ?_, ?_⟩
    · have := hr.room
      omega
    · rw [hroom]
      exact Nat.not_lt.mpr hbound
    · have hfile := ha.holdsOut.over (fun b hb hs => ha.scratch_ne b hs hb) y'
      rw [← hb.get_eq] at hfile
      obtain ⟨b, -, hptr, hget⟩ := hfile.ptr (by
        intro e
        have := congrArg List.length e
        rw [List.length_append, zeros_length, List.length_nil] at this
        omega)
      rw [hptr]
      refine Ptr.fits_into hget ?_
      rw [List.length_append, zeros_length]
      omega

end Iteration

/-! ### The sizes of a call -/

theorem worstCase_le {n : ℕ} (ho : Options opts) (hn : n ≤ 2 ^ 36) : worstCase opts n ≤ kMaxFileSize.toNat := by
  have h64 : n < 2 ^ 64 := by omega
  have hsize : n.toUInt64.toNat = n := UInt64.toNat_ofNat_of_lt' h64
  have hcount : (chunkCountFor n.toUInt64 opts.chunkSize).toNat ≤ 2 ^ 24 := chunkCountFor_le (by omega) ho.chunkSize.1
  have hmax : kMaxFileSize.toNat = 2 ^ 36 + 2 ^ 24 * 24 + 64 := by decide
  rw [hmax, worstCase]
  simp only [kHeaderSize, kChunkHeaderSize]
  omega

/-- The sizes of a returned file: `outSize` bytes in a block that holds `x`. -/
structure OutSizes (opts : EncryptOptions) (n : ℕ) (outSize : ℕ) (x : Bytes) : Prop where
  lower : kHeaderSize + (chunkCountFor n.toUInt64 opts.chunkSize).toNat * kChunkHeaderSize ≤ outSize
  upper : outSize ≤ kHeaderSize + (chunkCountFor n.toUInt64 opts.chunkSize).toNat * kChunkHeaderSize + n
  readable : kHeaderSize + (chunkCountFor n.toUInt64 opts.chunkSize).toNat * kChunkHeaderSize + n ≤ kMaxFileSize.toNat
  slack : ∃ j ≤ kShrinkThreshold, x.length = outSize + j ∧ x.drop outSize = zeros j

/-- **The sizes in a call of `EncryptBuffer`.** Every iteration of a run that comes to the
loop keeps to its sizes; the file that is returned has its header, its records' headers and
at most the plaintext besides, can be read by this build, and has a few zeros behind it. -/
theorem encryptBuffer_sizes (w : World) (key : Span) (opts : EncryptOptions) (input : Span) (s : St) :
    (∀ c s1, prepare w key opts input s = (.ok c, s1) →
      encryptBuffer w key opts input s = conclude w opts input c s1 ∧
      (kHeaderSize.toUInt64 + c.header.chunkCount.toUInt64 * kChunkHeaderSize.toUInt64 + input.size.toUInt64).toNat =
        worstCase opts input.size ∧
      worstCase opts input.size ≤ w.sizeT.max ∧ c.file.size = worstCase opts input.size ∧
      ∀ i off s2, Iterates w opts input c s1 i off s2 → i < c.header.chunkCount.toNat →
        ∃ n plain, Fits w opts input c i off s2 n plain) ∧
    (∀ a s', encryptBuffer w key opts input s = (.ok a, s') → (∃ c s1, prepare w key opts input s = (.ok c, s1)) ∧
      ∃ x, a.1.Holds s'.heap.get x ∧ OutSizes opts input.size a.2 x ∧
        ∀ (w' : World) (os : Os) (m : Machine) (path : Path), Readable os m path (x.take a.2) →
          a.2 ≤ w'.sizeT.max → w'.alloc m.st.trace.length a.2 = true →
          ∃ steps buf m', Steps (Fileio.readFile os w' path kMaxFileSize) m steps (.ok (buf, a.2)) m') ∧
    ∀ f, (encryptBuffer w key opts input s).1 ≠ .error (.fault f) := by
  refine ⟨fun c s1 h => ?_, fun a s' h => ⟨prepare_of_ok h, ?_⟩, fun f h => ?_⟩
  · obtain ⟨hr, h0⟩ := prepare_ready h
    rw [worstCase_toNat hr.valid hr.size, ← hr.worstCase_eq]
    exact ⟨encryptBuffer_eq_conclude h, rfl, hr.room, hr.fileSize, fun i off s2 hi hlt =>
      (hi.standing hr h0).fits hr hlt⟩
  · obtain ⟨hist, -, -, hout⟩ := encryptBuffer_ends w key opts input s
    obtain ⟨k, header, rs, x, hf, ⟨⟨j, hj, hx⟩, hsize⟩, hs⟩ := hout a s' h
    have hcount : rs.length = (chunkCountFor input.size.toUInt64 opts.chunkSize).toNat := by
      rw [hf.count, hf.header]
      rfl
    have hworst : header.worstCase = worstCase opts input.size := by
      rw [hf.header]
      exact headerFor_worstCase _ _ hf.bound
    have hupper := hf.size_le
    have hlower := recordBytes_length_ge rs
    have hmax := worstCase_le hf.options hf.bound
    rw [hworst, ← hsize] at hupper
    refine ⟨_, hs.holds, ⟨?_, hupper, hmax, j, hj, ?_, ?_⟩, ?_⟩
    · rw [hsize, List.length_append, serializeFileHeader_length, ← hcount]
      omega
    · rw [hx, List.length_append, zeros_length, hsize]
    · rw [hx, hsize, List.drop_left]
    · intro w' os m path hread hle halloc
      rw [hx, hsize, List.take_left] at hread
      rw [hsize] at hle halloc hupper ⊢
      obtain ⟨steps, buf, m', hrun, -⟩ := readFile_steps hread (hupper.trans hmax) hle fun _ => halloc
      exact ⟨steps, buf, m', hrun⟩
  · rcases encryptBuffer_refines w key opts input s with ⟨a, b, s1, h1, -⟩ | ⟨e, s1, h1, -⟩ <;> rw [h1] at h <;> cases h

/-- The conclusion at a run that ends with `MC_OK`. -/
theorem sampleText_sizes : ∃ s1, encryptBuffer sampleWorld sampleKey zlibOptions (.bytes sampleText) ⟨[], []⟩ =
    (.ok (⟨some 1, 98⟩, 94), s1) ∧ ∃ x, (⟨some 1, 98⟩ : SecureBuffer).Holds s1.heap.get x ∧
      OutSizes zlibOptions 10 94 x := by
  have hrun : (encryptBuffer sampleWorld sampleKey zlibOptions (.bytes sampleText) ⟨[], []⟩).1 =
    .ok (⟨some 1, 98⟩, 94) := by
    decide +kernel
  obtain ⟨-, x, hholds, hsizes, -⟩ :=
    (encryptBuffer_sizes sampleWorld sampleKey zlibOptions (.bytes sampleText) ⟨[], []⟩).2.1
    _ _ (run_eq hrun)
  exact ⟨_, run_eq hrun, x, hholds, hsizes⟩

end Encrypt
end ModelCrypt
