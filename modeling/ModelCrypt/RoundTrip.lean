/-
# A file is opened by the key it was sealed with

What encryption returns is a container (`Finished.container`), and decryption
under the same key gives the plaintext back: the same key is derived, every
record opens to the payload that was sealed for it, every payload is the piece
or inflates to it, and the pieces put together are the plaintext. This is
proved of the writer and the reader (`yields_decrypt`), whose pieces and
records correspond one to one, and carried to the buffers and to the C calls
by the two refinements.

Key theorems: `Finished.container`, `yields_openRecord`, `yields_decrypt`,
`encryptBuffer_decryptBuffer`.
-/
import ModelCrypt.Api
import ModelCrypt.EncryptSafety

namespace ModelCrypt
namespace Encrypt

open Lib Prog

variable {w : World} {k : ByteVec kKeySize} {h : FileHeader} {compress : Bool} {t : ℕ}

/-! ### What is stored -/

section Packed

variable {room : ℕ} {p payload : Bytes} {c : ChunkHeader}

/-- A payload is stored uncompressed as the piece it is, or compressed as a finished stream of it. -/
theorem Packed.cases (hp : Packed w compress room p c payload) : (c.flags = 0 ∧ c.compressed = false ∧ payload = p) ∨
    (c.flags = kChunkFlagCompressed ∧ c.compressed = true ∧ compress = true ∧
      ∃ t, (w.deflate t p room).rc = .streamEnd ∧ (w.deflate t p room).out = payload ∧ payload.length < p.length) := by
  cases hp with
  | raw =>
    have hc : ((0 : UInt8) &&& kChunkFlagCompressed != 0) = false := by decide
    exact .inl ⟨rfl, hc, rfl⟩
  | deflated t hz hrc hlt =>
    have hc : (kChunkFlagCompressed &&& kChunkFlagCompressed != 0) = true := by decide
    exact .inr ⟨rfl, hc, hz, t, hrc, rfl, hlt⟩

/-- The stored size is that of the payload, which is no longer than the piece. -/
theorem Packed.stored (hp : Packed w compress room p c payload) (hl : p.length ≤ 2 ^ 26) :
    c.storedSize.toNat = payload.length ∧ payload.length ≤ p.length := by
  cases hp with
  | raw =>
    have h32 : p.length < 2 ^ 32 := by omega
    exact ⟨UInt32.toNat_ofNat_of_lt' h32, le_refl _⟩
  | deflated t hc hrc hlt =>
    have h32 : (w.deflate t p room).out.length < 2 ^ 32 := by omega
    exact ⟨UInt32.toNat_ofNat_of_lt' h32, le_of_lt hlt⟩

end Packed

section Sealed

variable {pt : Bytes} {rs : List Record} {log : List (SealArgs × Except McStatus (Bytes × ByteVec kTagSize))}

/-- **A sealed record fits its place.** -/
theorem Sealed.fits (hs : Sealed w k h compress (h.pieces pt) rs log) (hw : w.Zlib) (hv : h.Valid)
    (hl : pt.length = h.plaintextSize.toNat) (hz : compress = true → h.compressionId = mcCompressZlib) {i : ℕ}
    {r : Record} (hr : rs[i]? = some r) : r.Fits h i := by
  obtain ⟨p, payload, hp, hpack, -, hct, -⟩ := hs.made i r hr
  have hsize := pieces_size hl hp
  have hC := hv.chunkSize.2
  have hle : p.length ≤ h.chunkSize.toNat := by
    rw [hsize, FileHeader.sliceSize]
    omega
  obtain ⟨hst, hpl⟩ := hpack.stored (hle.trans hC)
  have hlen : r.ct.length = payload.length := by
    rw [← hct]
    exact (w.gcmSeal _).1.2
  have hM := maxStoredSizeFor_toNat hC
  have hbound : r.chunk.storedSize ≤ maxStoredSizeFor h.chunkSize := UInt32.le_iff_toNat_le.mpr (by omega)
  rcases hpack.cases with ⟨hf, hc, rfl⟩ | ⟨hf, hc, hcomp, t, hrc, rfl, -⟩
  · exact ⟨hlen.trans hst.symm, hbound, .inl hf, fun _ => hst.trans hsize,
      fun h1 => absurd (hc.symm.trans h1) Bool.false_ne_true⟩
  · refine ⟨hlen.trans hst.symm, hbound, .inr hf, fun h1 => absurd (h1.symm.trans hc) Bool.false_ne_true, fun _ =>
      ⟨?_, hz hcomp⟩⟩
    rw [hst]
    exact List.length_pos_iff.mpr (hw.stream_ne t p _ hrc)

end Sealed

/-! ### What a finished call returns -/

section Finished

variable {key input : Span} {opts : EncryptOptions} {rs : List Record} {hist : List Event}

theorem Finished.valid (hf : Finished w key opts input k h rs hist) : h.Valid := by
  rw [hf.header]
  exact headerFor_valid _ _ hf.options hf.bound

theorem Finished.length (hf : Finished w key opts input k h rs hist) :
    input.toBytes.length = h.plaintextSize.toNat := by
  rw [hf.header, plaintextSize_toNat hf.bound, hf.denotes.size]

/-- **What a finished call returns is a container.** -/
theorem Finished.container (hf : Finished w key opts input k h rs hist) (hw : w.Zlib) :
    ∃ c : Container, c.header = h ∧ c.records = rs ∧ c.bytes = serializeFileHeader h ++ recordBytes rs := by
  have hv := hf.valid
  have hl := hf.length
  refine ⟨⟨h, rs, hv, hf.count, fitsFrom_iff.mpr fun j hj => ?_⟩, rfl, rfl, rfl⟩
  rw [Nat.zero_add]
  refine hf.made.fits hw hv hl (fun hc => ?_) (List.getElem?_eq_getElem hj)
  rw [hf.header]
  show opts.compression.toUInt32.toUInt8 = mcCompressZlib
  rw [of_decide_eq_true hc]
  rfl

/-- Records whose ciphertexts are no longer than the pieces need no more room than these. -/
theorem recordBytes_le : ∀ (rs : List Record) (ps : List Bytes), rs.length = ps.length →
    (∀ (i : ℕ) (r : Record) (p : Bytes), rs[i]? = some r → ps[i]? = some p → r.ct.length ≤ p.length) →
    (recordBytes rs).length ≤ need ps
  | [], _, _, _ => Nat.zero_le _
  | r :: rs, [], hl, _ => by cases hl
  | r :: rs, p :: ps, hl, hle => by
    have ih := recordBytes_le rs ps (Nat.succ.inj hl) fun i r p hr hp => hle (i + 1) r p hr hp
    have h0 := hle 0 r p rfl rfl
    rw [recordBytes_cons, List.length_append, Record.bytes_length, need, List.map_cons, List.sum_cons]
    rw [need] at ih
    omega

/-- A finished file is no longer than the worst case. -/
theorem Finished.size_le (hf : Finished w key opts input k h rs hist) :
    (serializeFileHeader h ++ recordBytes rs).length ≤ h.worstCase := by
  have hv := hf.valid
  have hl := hf.length
  have hle := recordBytes_le rs (h.pieces input.toBytes) (by rw [hf.count, pieces_length]) fun i r p hr hp => by
    obtain ⟨p', payload, hp', hpack, -, hct, -⟩ := hf.made.made i r hr
    cases hp.symm.trans hp'
    have hC := hv.chunkSize.2
    have hsize := pieces_size hl hp
    rw [FileHeader.sliceSize] at hsize
    rw [← hct]
    exact (le_of_eq (w.gcmSeal _).1.2).trans (hpack.stored (by omega)).2
  rw [List.length_append, serializeFileHeader_length, ← need_pieces hv hl]
  omega

end Finished

/-! ### Opening what was sealed -/

section Opening

variable {room : ℕ} {scratch : Option ℕ} {p payload pt : Bytes} {c : ChunkHeader} {a : OpenArgs} {rs : List Record}
  {log : List (SealArgs × Except McStatus (Bytes × ByteVec kTagSize))}

theorem openResult_eq (he : ∀ c, w.evp t c = true) :
    openResult w a t = if (w.gcmOpen a).2 = false then .error .errAuth else .ok (w.gcmOpen a).1.1 := by
  simp only [openResult, failIf_bind, he, aeadBegin_ok he]
  simp
  rfl

theorem inflateResult_ok {x : Bytes} (hi : w.inflateInit t = true) (hrc : (w.inflate t x room).rc = .streamEnd)
    (hlen : (w.inflate t x room).out.length = room) (hrem : (w.inflate t x room).remaining = 0) :
    inflateResult w x room t = .ok (w.inflate t x room).out := by
  simp only [inflateResult, failIf_bind, hi, hrc, hlen, hrem]
  simp
  rfl

/-- A compressed payload inflates to its piece. -/
theorem Packed.inflates (hp : Packed w compress room p c payload) (hw : w.Zlib) (hc : c.compressed = true)
    (hi : w.inflateInit t = true) : inflateResult w payload p.length t = .ok p := by
  rcases hp.cases with ⟨-, h0, -⟩ | ⟨-, -, -, t0, hrc, rfl, -⟩
  · exact absurd (h0.symm.trans hc) Bool.false_ne_true
  · obtain ⟨h1, h2, h3⟩ := hw.inflate_deflate t0 t p room hrc
    rw [inflateResult_ok hi h1 (by rw [h2]) h3, h2]

/-- From time `t` on, what was sealed opens again. -/
def Opens (w : World) (t : ℕ) (log : List (SealArgs × Except McStatus (Bytes × ByteVec kTagSize))) : Prop :=
  ∀ t' a ct tag, t ≤ t' → (a, Except.ok (ct, tag)) ∈ log → openResult w ⟨a.key, a.nonce, a.aad, ct, tag⟩ t' = .ok a.pt

/-- If opening undoes sealing, all the records of a run open. -/
theorem Sealed.opens (hs : Sealed w k h compress (h.pieces pt) rs log) (hw : w.Lawful) (hr : w.Reads t) :
    Opens w t log := by
  intro t' a ct tag ht hm
  obtain ⟨i, hi⟩ := List.mem_iff_getElem?.mp hm
  have hlt := (List.getElem?_eq_some_iff.mp hi).1
  rw [hs.length] at hlt
  obtain ⟨p, payload, -, -, hlog, hct, htag⟩ := hs.made i _ (List.getElem?_eq_getElem hlt)
  rw [hi] at hlog
  cases hlog
  obtain ⟨hopen, hok⟩ := hw.open_seal (sealArgs k (serializeFileHeader h) h i rs[i].chunk payload)
  rw [hct, htag] at hopen hok
  rw [openResult_eq fun c => hr.evp t' c ht, if_neg]
  · exact congrArg _ hopen
  · exact fun h0 => absurd (h0.symm.trans hok) Bool.false_ne_true

/-- **One record** opens to its payload, and its payload gives the piece. -/
theorem yields_openRecord (hw : w.Zlib) (hr : w.Allocates t) (hs : Sealed w k h compress (h.pieces pt) rs log)
    (ho : Opens w t log) (hl : pt.length = h.plaintextSize.toNat) {i : ℕ} {r : Record} (hi : rs[i]? = some r) :
    Yields t (Ref.openRecord w k (serializeFileHeader h) h scratch i room r) fun p => (h.pieces pt)[i]? = some p := by
  obtain ⟨p, payload, hp, hpack, hlog, -, -⟩ := hs.made i r hi
  have hsize := pieces_size hl hp
  refine Yields.andThen yields_emit fun _ => ?_
  refine Yields.bind (R := (· = payload)) (yields_ask fun t' ht => ?_) ?_
  · have hopen : openResult w (openArgs k (serializeFileHeader h) h i r) t' = .ok payload :=
      ho t' (sealArgs k (serializeFileHeader h) h i r.chunk payload) r.ct r.tag ht (List.mem_of_getElem? hlog)
    exact ⟨payload, hopen, rfl⟩
  · rintro _ rfl
    cases hc : r.chunk.compressed with
    | false =>
      rcases hpack.cases with ⟨-, -, rfl⟩ | ⟨-, h1, -⟩
      · exact Yields.pure hp
      · exact absurd (hc.symm.trans h1) Bool.false_ne_true
    | true =>
      refine yields_ask fun t' ht => ⟨p, ?_, hp⟩
      rw [← hsize]
      exact hpack.inflates hw hc (hr.inflateInit t' ht)

/-- **The records from a position on** give the pieces from there on: by induction on the records left. -/
theorem yields_openRecords (hw : w.Zlib) (hr : w.Allocates t) (hs : Sealed w k h compress (h.pieces pt) rs log)
    (ho : Opens w t log) (hl : pt.length = h.plaintextSize.toNat) (hcount : rs.length = (h.pieces pt).length) :
    ∀ (rest pre : List Record), rs = pre ++ rest →
    Yields t (Ref.openRecords w k (serializeFileHeader h) h scratch pre.length rest) (· = (h.pieces pt).drop pre.length)
  | [], pre, he => by
    refine Yields.pure (List.drop_of_length_le ?_).symm
    rw [← hcount, he, List.append_nil]
  | r :: rest, pre, he => by
    have hi : rs[pre.length]? = some r := by
      rw [he, List.getElem?_append_right (le_refl _), Nat.sub_self]
      rfl
    have ih := yields_openRecords hw hr hs ho hl hcount rest (pre ++ [r]) (by simp [he])
    rw [List.length_append, List.length_singleton] at ih
    refine Yields.bind (yields_openRecord hw hr hs ho hl hi) fun p hp => Yields.bind ih fun ps hps => Yields.pure ?_
    rw [hps]
    rw [List.drop_eq_getElem?_toList_append (i := pre.length), hp]
    rfl

/-- **All of it**: chunk 0, then the others, put together. -/
theorem yields_openAll (hw : w.Zlib) (hr : w.Allocates t) (hs : Sealed w k h compress (h.pieces pt) rs log)
    (ho : Opens w t log) (hv : h.Valid) (hl : pt.length = h.plaintextSize.toNat)
      (hcount : rs.length = h.chunkCount.toNat)
    (hroom : h.plaintextSize.toNat ≤ w.sizeT.max) :
    Yields t (Ref.openAll w k (serializeFileHeader h) h rs) (· = pt) := by
  have halloc {name : BufName} {n : ℕ} : Yields t (Ref.alloc w name n) fun _ => True :=
    yields_alloc fun t' ht => hr.alloc t' n ht
  rcases hrs : rs with _ | ⟨r, rest⟩
  · have := hv.count_pos
    rw [← hcount, hrs, List.length_nil] at this
    omega
  refine Yields.andThen halloc fun _ => Yields.andThen halloc fun _ => ?_
  refine Yields.bind (yields_openRecord hw hr hs ho hl (by rw [hrs]; rfl)) fun p hp => ?_
  refine Yields.throwIf (Nat.not_lt.mpr hroom) (Yields.andThen halloc fun _ => ?_)
  refine Yields.bind (yields_openRecords hw hr hs ho hl (by rw [hcount, pieces_length]) rest [r] hrs) fun ps hps => ?_
  refine Yields.andThen yields_emit fun _ => Yields.pure ?_
  have hall := pieces_flatten hv hl
  rcases hpc : h.pieces pt with _ | ⟨q, qs⟩ <;> rw [hpc] at hp hps hall <;> cases hp
  rw [hps]
  exact hall

end Opening

section Decryption

variable {key input : Span} {opts : EncryptOptions} {rs : List Record} {hist : List Event}

theorem yields_table (c : Container) (hr : w.Allocates t) :
    Yields t (Ref.table w c.header c.bytes) (· = c.records) := by
  intro tr ht
  refine ⟨c.records, _, ?_, Decrypt.table_ok c (hr.alloc _ _ ht), rfl⟩
  rw [List.length_append, List.length_append]
  omega

/-- **The reader gives back what the writer was given**, under any key from which it derives the same one. -/
theorem yields_decrypt (hf : Finished w key opts input k h rs hist) (hw : w.Zlib) (hr : w.Allocates t)
    (ho : Opens w t (sealings hist)) {key' : Span} (hk : key'.isNull = false) (hks : mcMinKeySize ≤ key'.size)
    (hkdf : ∀ t', t ≤ t' → w.scrypt t' (scryptArgs key'.toBytes h.salt.1 h.kdfLogN h.kdfR h.kdfP) = some k) :
    Yields t (Ref.decrypt w key' (.bytes (serializeFileHeader h ++ recordBytes rs))) (· = input.toBytes) := by
  obtain ⟨c, rfl, rfl, hb⟩ := hf.container hw
  have hroom := hf.room
  rw [FileHeader.worstCase] at hroom
  rw [← hb, Ref.decrypt_parsed hk hks c.parse, c.slice_header, Ref.deriveKey_eq hk hks c.header.salt.2]
  refine Yields.bind (yields_table c hr) ?_
  rintro _ rfl
  refine Yields.bind (R := (· = k)) (Yields.andThen (yields_alloc fun t' ht => hr.alloc t' _ ht) fun _ => ?_) ?_
  · exact yields_scrypt fun t' ht => ⟨k, hkdf t' ht, rfl⟩
  · rintro _ rfl
    exact yields_openAll hw hr hf.made ho c.valid hf.length hf.count (by omega)

/-- The key of the call itself derives the same key, if scrypt is a function. -/
theorem Finished.derives (hf : Finished w key opts input k h rs hist) (hw : w.Lawful) (t' : ℕ) :
    w.scrypt t' (scryptArgs key.toBytes h.salt.1 h.kdfLogN h.kdfR h.kdfP) = some k := by
  obtain ⟨t0, ht0⟩ := hf.derived
  rw [hw.scrypt_eq t' t0, ← ht0]
  congr 1
  rw [hf.header]
  rfl

end Decryption

/-! ### The calls -/

/-- What a run that ends well returns: the file is at its block. -/
theorem encryptBuffer_file {w : World} {key input : Span} {opts : EncryptOptions} {s s1 : St} {a : SecureBuffer × ℕ}
    (henc : encryptBuffer w key opts input s = (.ok a, s1)) :
    ∃ k h rs hist, Finished w key opts input k h rs hist ∧ s1.trace = s.trace ++ hist ∧
      (serializeFileHeader h ++ recordBytes rs).length = a.2 ∧
      s1.At a.1.data (serializeFileHeader h ++ recordBytes rs) := by
  obtain ⟨hist, ht, -, hout⟩ := encryptBuffer_ends w key opts input s
  obtain ⟨k, h, rs, x, hf, hr, hmem⟩ := hout a s1 henc
  rw [henc] at ht
  exact ⟨k, h, rs, hist, hf, ht, hr.2.symm, St.at_of_holds hmem.holds hr.front⟩

/-- **What `EncryptBuffer` returned, `DecryptBuffer` turns back into the plaintext** under the same key, from
any memory, if nothing it asks for fails from then on. -/
theorem encryptBuffer_decryptBuffer {w : World} (hw : w.Lawful) {key input : Span} {opts : EncryptOptions} {s s1 : St}
    {buffer : SecureBuffer} {outSize : ℕ} (henc : encryptBuffer w key opts input s = (.ok (buffer, outSize), s1)) :
    ∃ k h rs hist, Finished w key opts input k h rs hist ∧ (serializeFileHeader h ++ recordBytes rs).length = outSize ∧
      s1.At buffer.data (serializeFileHeader h ++ recordBytes rs) ∧ ∀ s2 : St, w.Reads s2.trace.length →
        ∃ out s3, Decrypt.decryptBuffer w key (.bytes (serializeFileHeader h ++ recordBytes rs)) s2 =
          (.ok (out, input.size), s3) ∧ s3.At out.data input.toBytes := by
  obtain ⟨k, h, rs, hist, hf, -, hlen, hat⟩ := encryptBuffer_file henc
  refine ⟨k, h, rs, hist, hf, hlen, hat, fun s2 hr => ?_⟩
  obtain ⟨pt, tr, -, hdec, rfl⟩ := yields_decrypt hf hw.toZlib hr.toAllocates (hf.made.opens hw hr) hf.accepted.1
    hf.accepted.2 (fun t' _ => hf.derives hw t') s2.trace (le_refl _)
  have hsize : (Span.bytes (serializeFileHeader h ++ recordBytes rs)).size ≤ w.sizeT.max := hf.size_le.trans hf.room
  rcases Decrypt.decryptBuffer_refines w key _ s2 hsize with ⟨⟨out, n⟩, b, s3, h1, h2, hm, hlen⟩ | ⟨e, s3, h1, h2, -⟩
  · rw [hdec] at h2
    cases h2
    refine ⟨out, s3, ?_, St.at_of_holds hm.holds List.prefix_rfl⟩
    rw [h1, hf.denotes.size, ← hlen]
  · rw [hdec] at h2
    cases h2

/-- **Whole-file round trip**: what `mc_encrypt_buffer` returned, `mc_decrypt_buffer` turns back into the
plaintext under the same key, from any memory, if nothing it asks for fails from then on. -/
theorem mcEncryptBuffer_mcDecryptBuffer (w : World) (hw : w.Lawful) (key : Span) (opts : Option EncryptOptions)
    (input : Span) (outNull outSizeNull : Bool) (s s1 : St) (out : Option ℕ) (outSize : ℕ)
    (hrun : mcEncryptBuffer w key opts input outNull outSizeNull s = (.ok (out, outSize), s1)) :
    ∃ file : Bytes, file.length = outSize ∧ s1.At out file ∧ ∀ s2 : St, w.Reads s2.trace.length →
      ∃ out' s3, mcDecryptBuffer w key (.bytes file) false false s2 = (.ok (out', input.size), s3) ∧
        s3.At out' input.toBytes := by
  obtain ⟨-, buffer, rfl, henc⟩ := mcEncryptBuffer_ok.mp hrun
  obtain ⟨k, h, rs, hist, -, hlen, hat, hdec⟩ := encryptBuffer_decryptBuffer hw henc
  refine ⟨_, hlen, hat, fun s2 hr => ?_⟩
  obtain ⟨out, s3, hrun', hat'⟩ := hdec s2 hr
  refine ⟨out.data, s3, ?_, hat'⟩
  rw [mcDecryptBuffer_eq, bind_ok hrun']
  rfl

/-- Ten equal bytes, which get smaller. -/
def sampleText : Bytes := List.replicate 10 7

def zlibOptions : EncryptOptions := { sampleOptions with compression := mcCompressZlibOption }

def sampleCrypt : Run (Option ℕ × ℕ) :=
  mcEncryptBuffer sampleWorld sampleKey (some zlibOptions) (.bytes sampleText) false false

theorem sampleText_roundTrip : ∃ file : Bytes, file.length = 94 ∧ (sampleCrypt ⟨[], []⟩).2.At (some 1) file ∧
    ∀ s2 : St, ∃ out s3, mcDecryptBuffer sampleWorld sampleKey (.bytes file) false false s2 = (.ok (out, 10), s3) ∧
      s3.At out sampleText := by
  have hrun : (sampleCrypt ⟨[], []⟩).1 = .ok (some 1, 94) := by decide +kernel
  obtain ⟨file, hlen, hat, hdec⟩ := mcEncryptBuffer_mcDecryptBuffer sampleWorld sampleWorld_lawful sampleKey
    (some zlibOptions) (.bytes sampleText) false false ⟨[], []⟩ _ (some 1) 94 (run_eq hrun)
  exact ⟨file, hlen, hat, fun s2 => hdec s2 (sampleWorld_reads _)⟩

end Encrypt

/-- The file that the sample call returns. -/
def sampleCipher : Lib.Bytes := (((Encrypt.sampleCrypt ⟨[], []⟩).2.heap.get 1).getD []).take 94

end ModelCrypt
