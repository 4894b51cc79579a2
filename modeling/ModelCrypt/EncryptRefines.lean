/-
# EncryptBuffer refines the writer

First the packing of a piece (`sim_packChunk`), then one chunk: with the file
so far at the front of the output and zeros behind it, the record is written
at the frontier and nothing else but the scratch changes (`sim_sealChunk`).
The loop's invariant is that there is room for what is left if no piece gets
smaller (`sim_sealLoop`), so the check before the seal never fires. Then the
copy down and the scopes (`encryptBuffer_refines`).

Key theorems: `headerFor_valid`, `sim_sealChunk`, `sim_sealLoop`, `encryptBuffer_refines`.
-/
import ModelCrypt.Writer
import ModelCrypt.Reader

namespace ModelCrypt

open Lib Prog Function

namespace Encrypt

variable {w : World} {s : St}

/-! ### The header -/

/-- What `ValidateOptions` promises of options it accepts. -/
structure Options (opts : EncryptOptions) : Prop where
  compression : opts.compression = mcCompressNoneOption ∨ opts.compression = mcCompressZlibOption
  chunkSize : 2 ^ 12 ≤ opts.chunkSize.toNat ∧ opts.chunkSize.toNat ≤ 2 ^ 26
  logN : 14 ≤ opts.kdfLogN.toNat ∧ opts.kdfLogN.toNat ≤ 20
  r : 1 ≤ opts.kdfR.toNat ∧ opts.kdfR.toNat ≤ 32
  p : 1 ≤ opts.kdfP.toNat ∧ opts.kdfP.toNat ≤ 16
  memory : 128 * 2 ^ opts.kdfLogN.toNat * opts.kdfR.toNat ≤ 2 ^ 30

theorem validateOptions_ok_iff {opts : EncryptOptions} : validateOptions opts = .ok () ↔ Options opts := by
  unfold validateOptions
  simp only [failIf_bind]
  rw [failIf_eq]
  constructor
  · intro h
    split_ifs at h with h1 h2 h3 h4 h5
    obtain ⟨hn, hr, hp⟩ := ranges_iff.mp (not_or.mpr ⟨fun e => h3 (.inl e), not_or.mpr ⟨fun e => h3 (.inr e), h4⟩⟩)
    refine ⟨?_, chunkSize_range_iff.mp h2, hn, hr, hp, (memory_iff hn.2 hr.2).mp h5⟩
    by_contra hne
    exact h1 (not_or.mp hne)
  · intro h
    have hr := ranges_iff.mpr ⟨h.logN, h.r, h.p⟩
    rw [if_neg fun e => h.compression.elim e.1 e.2, if_neg (chunkSize_range_iff.mpr h.chunkSize), if_neg, if_neg,
      if_neg ((memory_iff h.logN.2 h.r.2).mpr h.memory)]
    · exact fun e => hr (.inr (.inr e))
    · exact fun e => hr (e.elim .inl fun e => .inr (.inl e))

/-- **The header of an accepted call is valid.** -/
theorem headerFor_valid {opts : EncryptOptions} {n : ℕ} (salt : ByteVec kSaltSize) (np : ByteVec kNoncePrefixSize)
    (ho : Options opts) (hn : n ≤ 2 ^ 36) : (headerFor opts n salt np).Valid where
  version := rfl
  kdf := rfl
  aead := rfl
  compression := by
    show opts.compression.toUInt32.toUInt8 = _ ∨ opts.compression.toUInt32.toUInt8 = _
    rcases ho.compression with h | h <;> rw [h]
    · exact .inl rfl
    · exact .inr rfl
  logN := ho.logN
  r := ho.r
  p := ho.p
  memory := ho.memory
  chunkSize := ho.chunkSize
  plaintext := by
    show n.toUInt64.toNat ≤ 2 ^ 36
    rw [Nat.toUInt64_eq, UInt64.toNat_ofNat_of_lt' (by simp only [UInt64.size]; omega)]
    exact hn
  count := by
    have hsize : n.toUInt64.toNat = n := by
      rw [Nat.toUInt64_eq, UInt64.toNat_ofNat_of_lt' (by simp only [UInt64.size]; omega)]
    show (chunkCountFor n.toUInt64 opts.chunkSize).toNat = _
    exact chunkCountFor_toNat (by omega) ho.chunkSize.1

/-! ### One chunk -/

/-- The writer slices as the reader does. -/
theorem chunkPlainSize_eq (z : SizeT) (h : FileHeader) (index : UInt32) :
    chunkPlainSize z h.plaintextSize h.chunkSize index = h.sliceSize index.toNat :=
  Decrypt.chunkPlainSize_eq z h index

variable {pt d : Bytes} {plain input : Span} {compress : Bool} {dk scratch file : SecureBuffer} {k : ByteVec kKeySize}
  {y : Bytes}

/-- What was written into a buffer is a change of what it holds. -/
theorem written_over {h' : Heap} {n : ℕ} (hs : scratch.Holds s.heap.get y) (hn : n ≤ y.length)
    (hw : Written s.heap scratch.ptr n h') :
    ∃ y', y'.length = y.length ∧ Heap.Becomes s.heap h' (scratch.over y' s.heap.get) := by
  obtain ⟨x, hx, hb⟩ := hw
  rw [hs.put (by omega)] at hb
  exact ⟨_, overwrite_length (by omega), hb⟩

/-- **Packing**: the record and payload are the writer's, and only the scratch changes. -/
theorem sim_packChunk {room : ℕ} (hp : plain.Denotes pt) (hl : pt.length ≤ 2 ^ 26)
    (hs : scratch.Holds s.heap.get y) (hy : compress = true → y.length = room ∧ 0 < room ∧ room ≤ uint32Max) :
    Refines (packChunk w compress plain pt.length scratch) (Ref.pack w compress room pt) s
      (fun a b s1 => a.1 = b.1 ∧ a.2.Denotes b.2 ∧ b.1.storedSize.toNat = b.2.length ∧ b.2.length ≤ pt.length ∧
        ∃ y', y'.length = y.length ∧ Heap.Becomes s.heap s1.heap (scratch.over y' s.heap.get))
      (fun s1 => ∃ y', y'.length = y.length ∧ Heap.Becomes s.heap s1.heap (scratch.over y' s.heap.get)) := by
  have hnat {n : ℕ} (hn : n ≤ 2 ^ 26) : n.toUInt32.toNat = n := by
    have h32 : n < 2 ^ 32 := by omega
    exact UInt32.toNat_ofNat_of_lt' h32
  have hsame : Heap.Becomes s.heap s.heap (scratch.over y s.heap.get) := (Heap.Becomes.refl _).cast hs.over_eq.symm
  unfold packChunk Ref.pack
  by_cases hc : compress = true ∧ pt.length > 0
  · rw [if_pos hc, if_pos hc]
    obtain ⟨hroom, hpos, hmax⟩ := hy hc.1
    have hne : y ≠ [] := by
      rintro rfl
      simp only [List.length_nil] at hroom
      omega
    obtain ⟨b, hd, hptr, hget⟩ := hs.ptr hne
    rw [hp.eq_bytes (by rintro rfl; simp at hc), hs.size.trans hroom]
    refine Sim.bind
      (sim_compressChunk (by simp only [uint32Max]; omega) hmax (hs.fits (by omega)) (by rw [hptr]; simp)) ?_
      (fun s1 h1 => written_over hs (by omega) h1)
    rintro _ ⟨z, smaller⟩ s1 ⟨rfl, hw, hsm⟩
    cases smaller with
    | false =>
      obtain ⟨y', hy', hb⟩ := written_over hs (by omega) hw
      exact Sim.pure ⟨rfl, .bytes pt, hnat hl, le_refl _, y', hy', hb⟩
    | true =>
      obtain ⟨hlt, hle, hb⟩ := hsm rfl
      dsimp only at hlt hle hb ⊢
      rw [hs.put (by omega)] at hb
      have hload : spanAt scratch.ptr z.length.toUInt32.toNat s1 = (.ok (.bytes z), s1) := by
        have hg : s1.heap.get b = some (overwrite y 0 z) := by
          rw [hb.get_eq, SecureBuffer.over_data hd, update_self]
        unfold spanAt
        rw [hnat (by omega), if_neg (by rw [hptr]; simp), hptr,
          bind_ok (load_run hg (by rw [overwrite_length (by omega)]; omega)), overwrite_prefix (by omega)]
        rfl
      refine Sim.skip hload rfl (Sim.pure ⟨rfl, .bytes z, hnat (by omega), Nat.le_of_lt hlt, _, ?_, hb⟩)
      exact overwrite_length (by omega)
  · rw [if_neg hc, if_neg hc]
    exact Sim.pure ⟨rfl, hp, hnat hl, le_refl _, y, rfl, hsame⟩

/-- A null pointer with no bytes is sealed like no bytes. -/
theorem aeadSeal_denotes {key ct : Ptr} {nonce aad : Bytes} {payload : Span} (hp : payload.Denotes d) :
    aeadSeal w key nonce aad payload ct = aeadSeal w key nonce aad (.bytes d) ct := by
  cases hp with
  | null => simp [aeadSeal, Span.size, Span.toBytes]
  | bytes => rfl

/-- **One chunk**: the record is written at the frontier of the output. -/
theorem sim_sealChunk {h : FileHeader} {sh done : Bytes} {i m : ℕ} (hv : h.Valid) (hsh : sh.length = kHeaderSize)
    (ha : SecureBuffer.Apart dk scratch file k.1 y (done ++ zeros m) s.heap.get) (hi : i < 2 ^ 32)
    (hplain : plainAt input (i * h.chunkSize.toNat) (h.sliceSize i) = .ok plain) (hp : plain.Denotes pt)
    (hl : pt.length = h.sliceSize i) (hroom : kChunkHeaderSize + pt.length ≤ m) (hmax : file.size ≤ w.sizeT.max)
    (hy : compress = true → y.length = (maxStoredSizeFor h.chunkSize).toNat) :
    Refines (sealChunk w dk sh h compress input file scratch (UInt32.ofNat i) done.length)
      (Ref.sealRecord w k sh h compress i pt) s
      (fun a r s1 => a = done.length + r.bytes.length ∧ r.bytes.length ≤ kChunkHeaderSize + pt.length ∧
        ∃ y', y'.length = y.length ∧ Heap.Becomes s.heap s1.heap
          (file.over ((done ++ r.bytes) ++ zeros (m - r.bytes.length)) (scratch.over y' s.heap.get)))
      (fun s1 => ∃ y' x', y'.length = y.length ∧ x'.length = (done ++ zeros m).length ∧
        Heap.Becomes s.heap s1.heap (file.over x' (scratch.over y' s.heap.get))) := by
  have h24 : kChunkHeaderSize = 24 := rfl
  have hslice : h.sliceSize i ≤ 2 ^ 26 := le_trans (Nat.min_le_left ..) hv.chunkSize.2
  have hix : (UInt32.ofNat i).toNat = i := UInt32.toNat_ofNat_of_lt' hi
  have hstored := maxStoredSizeFor_toNat hv.chunkSize.2
  have hCmax := hv.chunkSize.2
  have hfile : file.size = done.length + m := by rw [ha.holdsOut.size, List.length_append, zeros_length]
  have hlen : (done ++ zeros m).length = done.length + m := by rw [List.length_append, zeros_length]
  obtain ⟨kb, hkd, hkp, -⟩ := ha.holdsKey.ptr (fun e => by simpa [e] using k.2)
  obtain ⟨b, hd, hptr, -⟩ := ha.holdsOut.ptr (fun e => by
    have := congrArg List.length e
    rw [hlen, List.length_nil] at this
    omega)
  have hnext {n : ℕ} (hn : done.length + n ≤ file.size) :
      w.sizeT.add done.length n = .ok (done.length + n) := SizeT.add_ok (le_trans hn hmax)
  unfold sealChunk Ref.sealRecord
  simp only [mul32_toNat, hix, chunkPlainSize_eq, hplain]
  refine Sim.skip (show Prog.ofExcept (.ok plain) s = (.ok plain, s) from rfl) rfl ?_
  rw [← hl]
  refine Sim.bind (sim_packChunk hp (by omega) ha.holdsScratch fun hc =>
    ⟨hy hc, by omega, by simp only [uint32Max]; omega⟩)
    ?_ ?_
  · rintro ⟨chunk, payload⟩ ⟨_, d⟩ s1 ⟨rfl, hpay, hsz, hle, y1, hy1, hb1⟩
    dsimp only at hpay hsz hle ⊢
    have ha1 := ha.write hy1 (rfl : (done ++ zeros m).length = _)
    have hsame : file.over (done ++ zeros m) (scratch.over y1 s.heap.get) = scratch.over y1 s.heap.get :=
      (ha.holdsOut.over (fun c hc hs => ha.scratch_ne c hs hc) y1).over_eq
    rw [hsame, ← hb1.get_eq] at ha1
    rw [hnext (by omega)]
    refine Sim.skip (show Prog.ofExcept (.ok _) s1 = (.ok _, s1) from rfl) rfl ?_
    rw [hsz, SizeT.add_ok (by omega)]
    refine Sim.skip (show Prog.ofExcept (.ok _) s1 = (.ok _, s1) from rfl) rfl ?_
    refine Sim.checked (by omega) ?_
    rw [aeadSeal_denotes hpay, hkp, hptr, Ptr.add, Ptr.add, Nat.zero_add, Nat.zero_add]
    have hout := ha1.holdsOut.of_data hd
    have hput {off : ℕ} {q x : Bytes} {s' : St} (hg : s'.heap.get b = some x) :
        (Ptr.into b off).put q s'.heap.get = file.over (overwrite x off q) s'.heap.get := by
      rw [Ptr.put_into hg, SecureBuffer.over_data hd]
    have haad := buildAad_length hsh (UInt32.ofNat i) chunk
    refine Sim.bind (sim_aeadSeal (ha1.holdsKey.of_data hkd) k.2 (by simp only [int32Max]; omega)
      (by rw [haad]; decide) (Ptr.fits_into hout (by omega)) (by simp)) ?_ ?_
    · rintro tag ⟨ct, _⟩ s2 ⟨rfl, hct, hb2⟩
      dsimp only at hct hb2 ⊢
      rw [hput hout] at hb2
      have hout2 : s2.heap.get b = some (overwrite (done ++ zeros m) (done.length + kChunkHeaderSize) ct) := by
        rw [hb2.get_eq, SecureBuffer.over_data hd, update_self]
      have hhdr := serializeChunkHeader_length chunk tag
      have hx : (overwrite (done ++ zeros m) (done.length + kChunkHeaderSize) ct).length = done.length + m := by
        rw [overwrite_length (by omega), hlen]
      have hfit : (Ptr.into b done.length).Fits (serializeChunkHeader chunk tag).length s2.heap.get :=
        Ptr.fits_into hout2 (by omega)
      obtain ⟨s3, e3, t3, b3⟩ := store_run hfit
      have hrec : (Record.mk chunk tag ct).bytes.length = kChunkHeaderSize + ct.length := Record.bytes_length
      refine Sim.skip e3 t3 (Sim.pure ⟨by omega, by omega, y1, hy1, ?_⟩)
      rw [hput hout2, hb2.get_eq, SecureBuffer.over_over, hb1.get_eq] at b3
      refine (hb1.trans (hb2.trans b3)).cast ?_
      rw [overwrite_record hhdr (by omega)]
      rfl
    · rintro s2 ⟨q, hq, hb2⟩
      rw [hput hout, hb1.get_eq] at hb2
      exact ⟨y1, _, hy1, overwrite_length (by omega), hb1.trans hb2⟩
  · rintro s1 ⟨y1, hy1, hb1⟩
    refine ⟨y1, done ++ zeros m, hy1, rfl, hb1.cast ?_⟩
    exact (ha.holdsOut.over (fun c hc hs => ha.scratch_ne c hs hc) y1).over_eq.symm

/-! ### The loop -/

/-- The slice of the input at a chunk is its piece. -/
theorem plainAt_piece {h : FileHeader} {pre post : List Bytes} {p : Bytes} (hin : input.Denotes pt) (hv : h.Valid)
    (hp : pt.length = h.plaintextSize.toNat) (he : h.pieces pt = pre ++ p :: post) :
    ∃ plain, plainAt input (pre.length * h.chunkSize.toNat) (h.sliceSize pre.length) = .ok plain ∧ plain.Denotes p := by
  have hl := pieces_size hp (pieces_get he)
  have hs := pieces_slice (pieces_get he)
  cases hin with
  | null =>
    have hnil : p = [] := by
      rw [hs]
      simp [slice]
    rw [hnil] at hl ⊢
    rw [List.length_nil] at hl
    exact ⟨.null 0, by rw [plainAt, if_pos (Span.isNull_null 0), ← hl], .null⟩
  | bytes =>
    have hlt : pre.length < h.chunkCount.toNat := by
      rw [← pieces_length h pt, he, List.length_append, List.length_cons]
      omega
    have hle : pre.length * h.chunkSize.toNat + h.sliceSize pre.length ≤ pt.length := by
      rw [hp, FileHeader.sliceSize]
      rcases Nat.eq_zero_or_pos pre.length with h0 | hpos
      · rw [h0]
        omega
      · have := hv.start_lt hlt hpos
        omega
    refine ⟨.bytes p, ?_, .bytes p⟩
    have hslice : slice pt (pre.length * h.chunkSize.toNat) (h.sliceSize pre.length) = p := by
      rw [hs, FileHeader.sliceSize, ← hp, slice_min]
    rw [plainAt, if_neg (by simp), Span.read_bytes hle, hslice]
    rfl

/-- The room the pieces need if none gets smaller. -/
def need (pts : List Bytes) : ℕ := (pts.map fun p => kChunkHeaderSize + p.length).sum

/-- **The loop** writes the records of the pieces that are left at the frontier: by
induction on them, with room for them all. -/
theorem sim_sealLoop {h : FileHeader} {sh : Bytes} (hv : h.Valid) (hsh : sh.length = kHeaderSize)
    (hin : input.Denotes pt) (hp : pt.length = h.plaintextSize.toNat) (hmax : file.size ≤ w.sizeT.max) :
    ∀ (rest pre : List Bytes) (s : St) (y done : Bytes) (m : ℕ), h.pieces pt = pre ++ rest →
    SecureBuffer.Apart dk scratch file k.1 y (done ++ zeros m) s.heap.get → need rest ≤ m →
    (compress = true → y.length = (maxStoredSizeFor h.chunkSize).toNat) →
    Refines (sealLoop w dk sh h compress input file scratch rest.length (UInt32.ofNat pre.length) done.length)
      (Ref.sealRecords w k sh h compress pre.length rest) s
      (fun a rs s1 => a = done.length + (recordBytes rs).length ∧ (recordBytes rs).length ≤ m ∧
        ∃ y', y'.length = y.length ∧ Heap.Becomes s.heap s1.heap
          (file.over ((done ++ recordBytes rs) ++ zeros (m - (recordBytes rs).length)) (scratch.over y' s.heap.get)))
      (fun s1 => ∃ y' x', y'.length = y.length ∧ x'.length = (done ++ zeros m).length ∧
        Heap.Becomes s.heap s1.heap (file.over x' (scratch.over y' s.heap.get)))
  | [], pre, s, y, done, m, _, ha, _, _ => by
    refine Sim.pure ⟨rfl, Nat.zero_le _, y, rfl, (Heap.Becomes.refl _).cast ?_⟩
    rw [recordBytes_nil, List.append_nil, List.length_nil, Nat.sub_zero, ha.same]
  | p :: rest, pre, s, y, done, m, he, ha, hm, hy => by
    obtain ⟨plain, hplain, hden⟩ := plainAt_piece hin hv hp he
    have hl := pieces_size hp (pieces_get he)
    have hlt : pre.length < h.chunkCount.toNat := by
      rw [← pieces_length h pt, he, List.length_append, List.length_cons]
      omega
    have hcount := hv.count_le
    have hneed : need (p :: rest) = kChunkHeaderSize + p.length + need rest := rfl
    rw [List.length_cons, sealLoop, Ref.sealRecords]
    refine Sim.bind (sim_sealChunk hv hsh ha (by omega) hplain hden hl (by omega) hmax hy) ?_ fun _ h => h
    rintro _ r s1 ⟨rfl, hr, y1, hy1, hb1⟩
    have hlen : ((done ++ r.bytes) ++ zeros (m - r.bytes.length)).length = (done ++ zeros m).length := by
      simp only [List.length_append, zeros_length]
      omega
    have ha1 := ha.write hy1 hlen
    rw [← hb1.get_eq] at ha1
    have ih := sim_sealLoop hv hsh hin hp hmax rest (pre ++ [p]) s1 y1 (done ++ r.bytes) (m - r.bytes.length)
      (by rw [he, List.append_assoc]; rfl) ha1 (by omega) (fun hc => by rw [hy1, hy hc])
    rw [List.length_append, List.length_singleton, UInt32.ofNat_add, List.length_append] at ih
    refine Sim.map ih ?_ ?_
    · rintro _ rs s2 ⟨rfl, hrs, y2, hy2, hb2⟩
      rw [hb1.get_eq, ha.twice] at hb2
      have hbytes : (recordBytes (r :: rs)).length = r.bytes.length + (recordBytes rs).length := by
        rw [recordBytes_cons, List.length_append]
      refine ⟨by omega, by omega, y2, hy2.trans hy1, (hb1.trans hb2).cast ?_⟩
      rw [hbytes, recordBytes_cons, List.append_assoc done, Nat.sub_sub]
    · rintro s2 ⟨y2, x2, hy2, hx2, hb2⟩
      rw [hb1.get_eq, ha.twice] at hb2
      exact ⟨y2, x2, hy2.trans hy1, hx2.trans hlen, hb1.trans hb2⟩

/-- All the pieces need the worst case less the header. -/
theorem need_pieces {h : FileHeader} (hv : h.Valid) (hp : pt.length = h.plaintextSize.toNat) :
    kHeaderSize + need (h.pieces pt) = h.worstCase := by
  have hf := congrArg List.length (pieces_flatten hv hp)
  rw [List.length_flatten] at hf
  have hsum : ∀ l : List Bytes, need l = l.length * kChunkHeaderSize + (l.map List.length).sum := by
    intro l
    induction l with
    | nil => rfl
    | cons a l ih =>
      show kChunkHeaderSize + a.length + need l =
        (l.length + 1) * kChunkHeaderSize + (a.length + (l.map List.length).sum)
      rw [ih, Nat.succ_mul]
      omega
  rw [hsum, hf, hp, pieces_length, FileHeader.worstCase]
  omega

/-! ### The copy down and the scopes -/

variable {h0 : Heap} {g : ℕ → Option Bytes}

/-- **The copy down** leaves the same bytes in a buffer of the exact size, and wipes the old one. -/
theorem sim_shrink {out rest : Bytes} (hne : out ≠ []) (hs : InScope h0 g file (out ++ rest) s) :
    Refines (shrink w file out.length) (Ref.shrink w (out.length + rest.length) out.length) s
      (fun a _ s1 => ∃ rest', (rest' = [] ∨ rest' = rest ∧ rest.length ≤ kShrinkThreshold) ∧
        InScope h0 g a (out ++ rest') s1)
      (fun s1 => InScope h0 g file (out ++ rest) s1) := by
  have hsize : file.size = out.length + rest.length := by rw [hs.holds.size, List.length_append]
  have hsub : out.length + rest.length - out.length = rest.length := Nat.add_sub_cancel_left ..
  unfold shrink Ref.shrink
  rw [hsize, SizeT.sub_ok (Nat.le_add_right ..), hsub]
  refine Sim.skip (show Prog.ofExcept (.ok rest.length) s = (.ok rest.length, s) from rfl) rfl ?_
  by_cases hm : rest.length > kShrinkThreshold
  swap
  · rw [if_neg hm, if_neg hm]
    exact Sim.pure ⟨rest, .inr ⟨rfl, Nat.not_lt.mp hm⟩, hs⟩
  rw [if_pos hm, if_pos hm]
  refine Sim.tail (sim_newBuffer w .exact out.length hs.becomes) ?_ fun s1 hb => hs.of_becomes hb
  intro exact _ s1 h1
  have hfile : file.Holds (file.over (out ++ rest) g) (out ++ rest) := hs.holds.put_back g
  have hapart := h1.fresh.ne hfile
  have hfile1 : file.Holds s1.heap.get (out ++ rest) := by
    rw [h1.becomes.get_eq]
    exact hfile.over hapart _
  obtain ⟨b, hd, hptr, hget⟩ := hfile1.ptr (by simp [hne])
  have hload : load file.ptr out.length s1 = (.ok out, s1) := by
    rw [hptr, load_run hget (by rw [List.length_append]; omega), slice_take, List.take_left]
  have hfit : exact.ptr.Fits out.length s1.heap.get := h1.holds.fits (by rw [zeros_length])
  obtain ⟨s2, e2, t2, b2⟩ := store_run hfit
  have hover : overwrite (zeros out.length) 0 out = out := by simp [overwrite]
  rw [h1.holds.put (by rw [zeros_length]), hover, h1.becomes.get_eq, SecureBuffer.over_over] at b2
  have hfile2 : file.Holds s2.heap.get (out ++ rest) := by
    rw [b2.get_eq]
    exact hfile.over hapart _
  obtain ⟨s3, e3, t3, b3⟩ := wipeAndFree_run hfile2
  have hfresh : exact.Fresh g := fun c hc => by
    have := h1.fresh c hc
    rwa [SecureBuffer.over_other fun e => hapart c e hc] at this
  have hgone : file.Fresh (exact.over out g) := fun c hc => by
    rw [SecureBuffer.over_other (hapart c hc)]
    exact hs.fresh c hc
  have hb := b3 (exact.over out g) hgone (by rw [b2.get_eq, SecureBuffer.over_comm file exact hapart])
  refine ⟨exact, s3, ?_, by rw [t3, t2], [], .inl rfl, ?_⟩
  · have hcopy : (do store exact.ptr (← load file.ptr out.length) : Run Unit) s1 = (.ok (), s2) := by
      rw [bind_ok hload, e2]
    have hon : onStop (do store exact.ptr (← load file.ptr out.length) : Run Unit) (destroy exact) s1 =
      (.ok (), s2) := by
      rw [onStop, hcopy]
    rw [bind_ok hon, moveAssign, bind_assoc, bind_ok e3]
    rfl
  · rw [List.append_nil]
    refine ⟨(h1.becomes.trans b2).trans hb, ?_, hfresh⟩
    rw [hb.get_eq]
    exact (h1.holds.change (by rw [zeros_length])).put_back g

/-- What the scratch holds at first. -/
def scratchZeros (compress : Bool) (chunkSize : UInt32) : Bytes :=
  if compress then zeros (maxStoredSizeFor chunkSize).toNat else []

theorem sim_newScratch (compress : Bool) (chunkSize : UInt32) (hs : Heap.Becomes h0 s.heap g) :
    Refines (newScratch w compress chunkSize) (Ref.newScratch w compress chunkSize) s
      (fun buf _ s1 => InScope h0 g buf (scratchZeros compress chunkSize) s1)
      (fun s1 => Heap.Becomes h0 s1.heap g) := by
  cases compress with
  | false => exact .inl ⟨{}, (), s, rfl, rfl, hs, .empty, fun b hb => by cases hb⟩
  | true => exact sim_newBuffer w .scratch _ hs

/-- The header at the front of the new output. -/
theorem InScope.storeFront {n : ℕ} {x : Bytes} (hs : InScope h0 g file (zeros n) s) (hx : x.length ≤ n) :
    ∃ s', store file.ptr x s = (.ok (), s') ∧ s'.trace = s.trace ∧
      InScope h0 g file (x ++ zeros (n - x.length)) s' := by
  have hempty : 0 = ([] : Bytes).length := rfl
  have hfront := overwrite_zeros (d := x) (n := n) hempty
  have hfit : 0 + x.length ≤ (zeros n).length := by rw [zeros_length]; omega
  obtain ⟨s', h1, h2, h3⟩ := hs.store hfit
  rw [List.nil_append, List.nil_append] at hfront
  rw [hfront] at h3
  have hptr : file.ptr.add 0 = file.ptr := by cases file.ptr <;> rfl
  exact ⟨s', by rw [← hptr, h1], h2, h3⟩

/-- A scratch made next to the output and the key is apart from both. -/
theorem apart_of_scope {x z k' : Bytes} (hk : dk.Holds g k') (hfile : file.Holds (file.over x g) x)
    (hne : ∀ b, dk.data = some b → file.data ≠ some b) (hs : InScope h0 (file.over x g) scratch z s) :
    SecureBuffer.Apart dk scratch file k' z x s.heap.get := by
  have hk2 := hk.over hne x
  rw [hs.becomes.get_eq]
  exact ⟨hk2.over (hs.fresh.ne hk2) z, hs.holds.put_back _, hfile.over (hs.fresh.ne hfile) z, hs.fresh.ne hk2, hne,
    fun c hc hf => hs.fresh.ne hfile c hf hc⟩

/-- What `EncryptBuffer` returns: the file, and maybe a few zeros behind it. -/
def Returned (a : SecureBuffer × ℕ) (b x : Bytes) : Prop :=
  (∃ j ≤ kShrinkThreshold, x = b ++ zeros j) ∧ a.2 = b.length

theorem Returned.front {a : SecureBuffer × ℕ} {b x : Bytes} (h : Returned a b x) : b <+: x := by
  obtain ⟨⟨j, -, hx⟩, -⟩ := h
  exact hx ▸ List.prefix_append b (zeros j)

/-- **The records and the copy down**, with the header at the front of the output and the scratch next to it. -/
theorem sim_sealRest {h : FileHeader} {sh z : Bytes} (hv : h.Valid) (hsh : sh.length = kHeaderSize)
    (hin : input.Denotes pt) (hp : pt.length = h.plaintextSize.toNat) (hw : h.worstCase ≤ w.sizeT.max)
    (hb : Heap.Becomes h0 s.heap (scratch.over z (file.over (sh ++ zeros (h.worstCase - kHeaderSize)) g)))
    (ha : SecureBuffer.Apart dk scratch file k.1 z (sh ++ zeros (h.worstCase - kHeaderSize)) s.heap.get)
    (hfile : file.Fresh g) (hy : compress = true → z.length = (maxStoredSizeFor h.chunkSize).toNat) :
    Refines (do
        let writeOffset ← sealLoop w dk sh h compress input file scratch h.chunkCount.toNat 0 kHeaderSize
        let file ← shrink w file writeOffset
        return (file, writeOffset))
      (do
        let rs ← Ref.sealRecords w k sh h compress 0 (h.pieces pt)
        let out := sh ++ recordBytes rs
        Ref.shrink w h.worstCase out.length
        return out) s
      (fun a b s1 => ∃ y' x, scratch.Holds (scratch.over y' g) y' ∧ Returned a b x ∧
        InScope h0 (scratch.over y' g) a.1 x s1)
      (fun s1 => ∃ y' x, scratch.Holds (scratch.over y' (file.over x g)) y' ∧ file.Holds (file.over x g) x ∧
        Heap.Becomes h0 s1.heap (scratch.over y' (file.over x g))) := by
  have hneed := need_pieces hv hp
  have hsf := ha.scratch_ne
  have hlen : (sh ++ zeros (h.worstCase - kHeaderSize)).length = h.worstCase := by
    rw [List.length_append, zeros_length, hsh]
    omega
  have hput {x : Bytes} (hx : x.length = h.worstCase) (g' : ℕ → Option Bytes) : file.Holds (file.over x g') x :=
    (ha.holdsOut.change (hx.trans hlen.symm)).put_back g'
  have hscr {y' : Bytes} (hy' : y'.length = z.length) (g' : ℕ → Option Bytes) : scratch.Holds (scratch.over y' g') y' :=
    (ha.holdsScratch.change hy').put_back g'
  -- the memory with the file and the scratch changed, seen from outside of both
  have hview (x y' : Bytes) : file.over x (scratch.over y' s.heap.get) = scratch.over y' (file.over x g) := by
    rw [hb.get_eq, SecureBuffer.over_over, SecureBuffer.over_comm scratch file hsf, SecureBuffer.over_over,
      ← SecureBuffer.over_comm scratch file hsf]
  have hnext : Heap.Becomes h0 s.heap s.heap.get := hb.cast hb.get_eq.symm
  have hroom : file.size ≤ w.sizeT.max := by rw [ha.holdsOut.size, hlen]; exact hw
  have hloop : Refines (sealLoop w dk _ h compress input file scratch _ _ _)
      (Ref.sealRecords w k _ h compress _ _) s _ _ :=
    sim_sealLoop hv hsh hin hp hroom (h.pieces pt) [] s z sh (h.worstCase - kHeaderSize) rfl ha (by omega) hy
  rw [pieces_length, hsh] at hloop
  refine Sim.bind hloop ?_ ?_
  · rintro _ rs s4 ⟨rfl, hle, y', hy', hb4⟩
    rw [hview] at hb4
    have hout : kHeaderSize + (recordBytes rs).length = (sh ++ recordBytes rs).length := by
      rw [List.length_append, hsh]
    have hrest : h.worstCase = (sh ++ recordBytes rs).length + (h.worstCase - kHeaderSize - (recordBytes rs).length) := by
      rw [← hout]
      omega
    have hfl : (sh ++ recordBytes rs ++ zeros (h.worstCase - kHeaderSize - (recordBytes rs).length)).length =
        h.worstCase := by
      rw [List.length_append, zeros_length]
      exact hrest.symm
    have hin4 : InScope h0 (scratch.over y' g) file
        (sh ++ recordBytes rs ++ zeros (h.worstCase - kHeaderSize - (recordBytes rs).length)) s4 := by
      have hb5 := hnext.trans hb4
      rw [← SecureBuffer.over_comm scratch file hsf] at hb5
      refine ⟨hb5, ?_, fun c hc => ?_⟩
      · rw [hb5.get_eq]
        exact hput hfl _
      · rw [SecureBuffer.over_other fun e => hsf c e hc]
        exact hfile c hc
    have hne : sh ++ recordBytes rs ≠ [] := by
      intro e
      rw [e, List.length_nil] at hout
      exact absurd hout (by simp [kHeaderSize])
    have hsim := sim_shrink (w := w) hne hin4
    rw [zeros_length, ← hrest] at hsim
    rw [hout]
    refine Sim.bind hsim ?_ ?_
    · rintro a _ s5 ⟨rest', hcase, h5⟩
      refine Sim.pure ⟨y', _, hscr hy' g, ⟨?_, rfl⟩, h5⟩
      rcases hcase with rfl | ⟨rfl, hj⟩
      · exact ⟨0, Nat.zero_le _, rfl⟩
      · exact ⟨_, hj, rfl⟩
    · intro s5 h5
      refine ⟨y', _, hscr hy' _, hput hfl g, h5.becomes.cast ?_⟩
      exact SecureBuffer.over_comm scratch file hsf ..
  · rintro s4 ⟨y', x', hy', hx', hb4⟩
    rw [hview] at hb4
    exact ⟨y', x', hscr hy' _, hput (hx'.trans hlen) g, hnext.trans hb4⟩

/-- **The file**, in memory `g` with the derived key. -/
theorem sim_sealAll {h : FileHeader} {sh : Bytes} (hv : h.Valid) (hsh : sh = serializeFileHeader h)
    (hin : input.Denotes pt) (hp : pt.length = h.plaintextSize.toNat) (hs : Heap.Becomes h0 s.heap g)
    (hk : dk.Holds g k.1) (hw : h.worstCase ≤ w.sizeT.max) :
    Refines (do
        let file ← newBuffer w .file h.worstCase
        onStop (do
          store file.ptr sh
          let scratch ← newScratch w compress h.chunkSize
          guarded scratch do
            let writeOffset ← sealLoop w dk sh h compress input file scratch h.chunkCount.toNat 0 kHeaderSize
            let file ← shrink w file writeOffset
            return (file, writeOffset)) (destroy file))
      (do
        Ref.alloc w .file h.worstCase
        Ref.newScratch w compress h.chunkSize
        let rs ← Ref.sealRecords w k sh h compress 0 (h.pieces pt)
        let out := sh ++ recordBytes rs
        Ref.shrink w h.worstCase out.length
        return out) s
      (fun a b s1 => ∃ x, Returned a b x ∧ InScope h0 g a.1 x s1) (fun s1 => Heap.Becomes h0 s1.heap g) := by
  have hsize : sh.length = kHeaderSize := by rw [hsh, serializeFileHeader_length]
  have hneed := need_pieces hv hp
  refine Sim.bind (sim_newBuffer w .file _ hs) (fun file _ s1 h1 => ?_) fun _ h => h
  -- the file is destroyed on a stop, whatever it holds by then
  refine sim_onStop h0 (E := fun s2 => ∃ x, file.Holds (file.over x g) x ∧ Heap.Becomes h0 s2.heap (file.over x g)) ?_
    fun s2 ⟨x, hx, hb⟩ => ⟨g, x, ⟨hb, by rw [hb.get_eq]; exact hx, h1.fresh⟩, fun _ h => h⟩
  obtain ⟨s2, e2, t2, h2⟩ := InScope.storeFront h1 (x := sh) (by omega)
  rw [hsize] at h2
  have hfile : file.Holds (file.over (sh ++ zeros (h.worstCase - kHeaderSize)) g) _ := h2.holds.put_back g
  refine Sim.skip e2 t2 ?_
  refine Sim.bind (sim_newScratch compress h.chunkSize h2.becomes) (fun scratch _ s3 h3 => ?_) fun s3 hb =>
    ⟨_, hfile, hb⟩
  have ha := apart_of_scope hk hfile (h1.fresh.ne hk) h3
  have hfresh : scratch.Fresh g := fun c hc => by
    have := h3.fresh c hc
    rwa [SecureBuffer.over_other (ha.scratch_ne c hc)] at this
  have hz : compress = true → (scratchZeros compress h.chunkSize).length = (maxStoredSizeFor h.chunkSize).toNat := by
    rintro rfl
    rw [scratchZeros, if_pos rfl, zeros_length]
  refine (sim_scopeOf h0 Prod.fst (K := Returned) (G := (· = g))
    (F := fun g' => ∃ x, file.Holds (file.over x g) x ∧ g' = file.over x g) (by rintro _ rfl; exact hfresh) ?_
    ((sim_sealRest hv hsize hin hp hw h3.becomes ha h1.fresh hz).mono ?_ ?_)).mono ?_ ?_
  · rintro _ ⟨x, hx, rfl⟩ c hc
    rw [SecureBuffer.over_other (ha.scratch_ne c hc)]
    exact hfresh c hc
  · rintro a b s4 ⟨y', x, hy', hr, h4⟩
    exact ⟨g, y', x, rfl, hy', hr, h4⟩
  · rintro s4 ⟨y', x, hy', hx, hb⟩
    exact ⟨_, y', ⟨x, hx, rfl⟩, hy', hb⟩
  · rintro a b s4 ⟨_, x, rfl, hr, h4⟩
    exact ⟨x, hr, h4⟩
  · rintro s4 ⟨_, ⟨x, hx, rfl⟩, hb⟩
    exact ⟨x, hx, hb⟩

theorem worstCase_toNat {h : FileHeader} {n : ℕ} (hv : h.Valid) (hn : n = h.plaintextSize.toNat) :
    (kHeaderSize.toUInt64 + h.chunkCount.toUInt64 * kChunkHeaderSize.toUInt64 + n.toUInt64).toNat = h.worstCase := by
  have hP := hv.plaintext
  have hc := hv.count_le
  have h64 : n < 2 ^ 64 := by omega
  have hsize : n.toUInt64.toNat = n := UInt64.toNat_ofNat_of_lt' h64
  rw [UInt64.toNat_add, minimumInput_toNat, hsize, hn, FileHeader.worstCase]
  simp only [kHeaderSize, kChunkHeaderSize]
  omega

theorem plaintextSize_toNat {opts : EncryptOptions} {n : ℕ} {salt : ByteVec kSaltSize}
    {np : ByteVec kNoncePrefixSize} (hn : n ≤ 2 ^ 36) : (headerFor opts n salt np).plaintextSize.toNat = n := by
  have h64 : n < 2 ^ 64 := by omega
  exact UInt64.toNat_ofNat_of_lt' h64

/-- **EncryptBuffer refines the writer**: it ends as the writer does with the same
trace, without a fault, and leaves memory as it was but for the file it returns. -/
theorem encryptBuffer_refines (w : World) (key : Span) (opts : EncryptOptions) (input : Span) (s : St) :
    Refines (encryptBuffer w key opts input) (Ref.encrypt w key opts input) s
      (fun a b s1 => ∃ x, Returned a b x ∧ InScope s.heap s.heap.get a.1 x s1)
      (fun s1 => Heap.Becomes s.heap s1.heap s.heap.get) := by
  have hs := Heap.Becomes.refl s.heap
  unfold encryptBuffer Ref.encrypt
  refine Sim.throwIf (fun _ => hs) fun hkey => Sim.throwIf (fun _ => hs) fun hks =>
    Sim.throwIf (fun _ => hs) fun hnull => ?_
  refine Sim.throwIf (fun _ => hs) fun hsize => ?_
  rw [mcMaxPlaintextSize_toNat] at hsize
  have hden : input.Denotes input.toBytes := .of_input hnull
  refine Sim.bind (R := fun _ _ s1 => s1 = s ∧ Options opts)
    (Sim.ofExcept rfl (fun a ha => ⟨rfl, validateOptions_ok_iff.mp ha⟩) hs) ?_ fun _ h => h
  rintro _ _ s1 ⟨rfl, hopts⟩
  refine Sim.bind (Sim.zoom fun _ _ => rfl) ?_ (by rintro _ ⟨tr, rfl⟩; exact hs)
  rintro salt _ _ ⟨rfl, tr, rfl⟩
  refine Sim.bind (Sim.zoom fun _ _ => rfl) ?_ (by rintro _ ⟨tr, rfl⟩; exact hs)
  rintro np _ _ ⟨rfl, tr, rfl⟩
  have hv := headerFor_valid salt np hopts (Nat.not_lt.mp hsize)
  have hp : input.toBytes.length = (headerFor opts input.size salt np).plaintextSize.toNat := by
    rw [plaintextSize_toNat (Nat.not_lt.mp hsize), hden.size]
  have hn : input.size = (headerFor opts input.size salt np).plaintextSize.toNat := by
    rw [← hp, hden.size]
  refine Sim.bind (sim_deriveKey _ _ _ _ _ (s := ⟨s1.heap, tr⟩) hs) (fun dk k s2 h2 => ?_) fun _ h => h
  refine (sim_scopeOf s1.heap Prod.fst (K := Returned) (G := (· = s1.heap.get)) (F := (· = s1.heap.get))
    (by rintro _ rfl; exact h2.fresh) (by rintro _ rfl; exact h2.fresh) ?_).mono ?_ ?_
  · have hback := h2.holds.put_back s1.heap.get
    dsimp only
    rw [worstCase_toNat hv hn]
    refine Sim.throwIf (fun _ => ⟨_, _, rfl, hback, h2.becomes⟩) fun hw => ?_
    rw [SizeT.cast_of_le (Nat.not_lt.mp hw)]
    refine (sim_sealAll hv rfl hden hp h2.becomes hback (Nat.not_lt.mp hw)).mono ?_ ?_
    · rintro a b s3 ⟨x, hr, h3⟩
      exact ⟨_, _, x, rfl, hback, hr, h3⟩
    · intro s3 hb
      exact ⟨_, _, rfl, hback, hb⟩
  · rintro a b s3 ⟨_, x, rfl, hr, h3⟩
    exact ⟨x, hr, h3⟩
  · rintro s3 ⟨_, rfl, hb⟩
    exact hb

end Encrypt
end ModelCrypt
