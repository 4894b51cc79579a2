/-
# Safety of decryption

What holds of every run of `DecryptBuffer`, for any key, any input, both
widths of `size_t` and every outcome of the allocations and the primitives:
no run leaves its buffers (`decryptBuffer_in_bounds`), phase 1 accepts exactly
the containers (`structuralPhase_iff`), nothing is used before it is
authenticated (`decryptBuffer_order`), and what is allocated before that is
bounded (`decryptBuffer_allocations`). The runs are those of the reader, whose
histories are orderly; each result reads off what `Allowed` says of one kind
of event.

Key definitions: `structuralPhase`, `sampleFile`, `twoChunks`.
Key theorems: `decryptBuffer_ends`, `decryptBuffer_in_bounds`, `structuralPhase_iff`,
`decryptBuffer_order`, `decryptBuffer_allocations`.
-/
import ModelCrypt.DecryptRefines
import ModelCrypt.DecryptTrace
import ModelCrypt.Sample

namespace ModelCrypt
namespace Decrypt

open Lib Prog

variable {w : World} {key input : Span} {s : St}

/-- **How a run ends**: with an orderly history, and without a fault. -/
theorem decryptBuffer_ends (w : World) (key input : Span) (s : St) (hin : input.size ≤ w.sizeT.max) :
    ∃ hist, (decryptBuffer w key input s).2.trace = s.trace ++ hist ∧
      Orderly (Allowed w input.toBytes) hist ∧
      ((∃ a b, (decryptBuffer w key input s).1 = .ok a ∧ Ended (.ok b) hist) ∨
        ∃ e, (decryptBuffer w key input s).1 = .error (.status e) ∧ Ended (.error e) hist) := by
  obtain ⟨hist, ht, -, ho, he⟩ := decrypt_logs w key input s.trace Orderly.nil
  rw [List.append_nil] at ht he
  rcases decryptBuffer_refines w key input s hin with ⟨a, b, s1, h1, h2, -⟩ | ⟨e, s1, h1, h2, -⟩
  · rw [h2] at ht he
    rw [h1]
    exact ⟨hist, ht, ho, .inl ⟨a, b, rfl, he⟩⟩
  · rw [h2] at ht he
    rw [h1]
    exact ⟨hist, ht, ho, .inr ⟨e, rfl, he⟩⟩

/-- The trace and the failures are the reader's. -/
theorem decryptBuffer_ref (w : World) (key input : Span) (s : St) (hin : input.size ≤ w.sizeT.max) :
    (decryptBuffer w key input s).2.trace = (Ref.decrypt w key input s.trace).2 ∧
    ∀ e, (Ref.decrypt w key input s.trace).1 = .error e → (decryptBuffer w key input s).1 = .error (.status e) := by
  rcases decryptBuffer_refines w key input s hin with ⟨a, b, s1, h1, h2, -⟩ | ⟨e, s1, h1, h2, -⟩
  · rw [h1, h2]
    exact ⟨rfl, fun e he => by cases he⟩
  · rw [h1, h2]
    exact ⟨rfl, fun e' he => by cases he; rfl⟩

/-! ### Files to run it on -/

/-- Three bytes in one raw chunk. -/
def sampleFile : Container where
  header := { chunkSize := 4096, plaintextSize := 3, chunkCount := 1 }
  records := [⟨⟨3, 0⟩, ⟨zeros kTagSize, zeros_length _⟩, [1, 2, 3]⟩]
  valid := by constructor <;> decide
  count := rfl
  fits := ⟨by constructor <;> decide, trivial⟩

theorem sampleFile_size : (Span.bytes sampleFile.bytes).size ≤ sampleWorld.sizeT.max := by
  rw [Span.size_bytes, sampleFile.bytes_length]
  decide

/-- Two chunks, the first compressed and stored in as many bytes as the whole plaintext has. -/
def twoChunks : Container where
  header := { chunkSize := 4096, plaintextSize := 4097, chunkCount := 2 }
  records := [⟨⟨4097, 1⟩, ⟨zeros kTagSize, zeros_length _⟩, zeros 4097⟩,
    ⟨⟨1, 0⟩, ⟨zeros kTagSize, zeros_length _⟩, [0]⟩]
  valid := by constructor <;> decide
  count := rfl
  fits := by
    refine ⟨⟨zeros_length _, ?_, ?_, ?_, ?_⟩, ⟨?_, ?_, ?_, ?_, ?_⟩, trivial⟩ <;> decide

/-! ### Bounds -/

/-- The pieces of the plaintext lie one after the other inside it. -/
theorem slice_le {c : Container} {i : ℕ} {r : Record} (hr : c.records[i]? = some r) (hi : i ≠ 0) :
    i * c.header.chunkSize.toNat + c.header.sliceSize i ≤ c.header.plaintextSize.toNat := by
  obtain ⟨hlt, -⟩ := List.getElem?_eq_some_iff.mp hr
  rw [c.count] at hlt
  have := c.valid.start_lt hlt (Nat.pos_of_ne_zero hi)
  rw [FileHeader.sliceSize]
  omega

theorem Container.index_toNat {c : Container} {i : ℕ} {r : Record} (hr : c.records[i]? = some r) :
    (UInt32.ofNat i).toNat = i := by
  obtain ⟨hlt, -⟩ := List.getElem?_eq_some_iff.mp hr
  have := c.valid.count_le
  rw [c.count] at hlt
  have h32 : i < 2 ^ 32 := by omega
  exact UInt32.toNat_ofNat_of_lt' h32

/-- **Decryption never leaves its buffers.** No run ends in a fault (a read outside
the input, the table or a block, a null pointer, a size_t that wraps), and
whenever `OpenChunk` is entered its chunk fits the space it is given. -/
theorem decryptBuffer_in_bounds (w : World) (key input : Span) (s : St) (hin : input.size ≤ w.sizeT.max) :
    (∀ fault, (decryptBuffer w key input s).1 ≠ .error (.fault fault)) ∧
    ∃ hist, (decryptBuffer w key input s).2.trace = s.trace ++ hist ∧
      ∀ pre index chunk plainSize room scratch post,
        hist = pre ++ .entered index chunk plainSize room scratch :: post →
        ∃ h, parseFileHeader (.bytes input.toBytes) = .ok h ∧
          plainSize = chunkPlainSize w.sizeT h.plaintextSize h.chunkSize index ∧ plainSize ≤ room ∧
          (chunk.compressed = true → ∃ n, scratch = some n ∧ chunk.storedSize.toNat ≤ n) ∧
          (chunk.compressed = false → chunk.storedSize.toNat = plainSize) ∧
          (index ≠ 0 → index.toNat * h.chunkSize.toNat + plainSize ≤ h.plaintextSize.toNat) := by
  obtain ⟨hist, ht, ho, he⟩ := decryptBuffer_ends w key input s hin
  refine ⟨fun fault hf => ?_, hist, ht, ?_⟩
  · rcases he with ⟨a, -, h1, -⟩ | ⟨e, h1, -⟩ <;> rw [h1] at hf <;> cases hf
  intro pre index chunk plainSize room scratch post hs
  obtain ⟨c, i, r, hf, hr, rfl, rfl, rfl, hroom, hscr⟩ := ho _ _ _ hs
  have hix := Container.index_toNat hr
  have hfit := Container.fits_get hr
  refine ⟨c.header, hf ▸ c.parse, by rw [chunkPlainSize_eq, hix], ?_, fun hc => ?_, fun hc => hfit.raw hc, fun h0 => ?_⟩
  · rw [hroom]
    split
    · rename_i h0
      rw [h0]
    · rw [FileHeader.sliceSize]
      omega
  · have hle := UInt32.le_iff_toNat_le.mp (le_maxCompressed (List.mem_of_getElem? hr) hc)
    have hpos := (hfit.deflated hc).1
    exact ⟨_, by rw [hscr, if_neg (by omega)], hle⟩
  · rw [hix]
    refine slice_le hr ?_
    rintro rfl
    exact h0 rfl

theorem sampleFile_in_bounds :
    (decryptBuffer sampleWorld sampleKey (.bytes sampleFile.bytes) ⟨[], []⟩).1 ≠ .error (.fault .inputBounds) ∧
    (decryptBuffer sampleWorld sampleKey (.bytes sampleFile.bytes) ⟨[], []⟩).1 ≠ .error (.fault .blockBounds) :=
  have h := (decryptBuffer_in_bounds sampleWorld sampleKey (.bytes sampleFile.bytes) ⟨[], []⟩ sampleFile_size).1
  ⟨h .inputBounds, h .blockBounds⟩

/-! ### Phase 1 -/

/-- `ParseFileHeader` followed by `WalkChunkTable`. -/
def structuralPhase (w : World) (input : Span) : Run (FileHeader × SecureBuffer × Walk) := do
  let header ← Prog.ofExcept (parseFileHeader input)
  let (storage, walk) ← walkChunkTable w input header
  return (header, storage, walk)

/-- The table of a container is accepted. -/
theorem table_ok (c : Container) {tr : List Event}
    (hal : w.alloc tr.length (c.header.chunkCount.toNat * w.sizeT.sizeofChunkEntry) = true) :
    Ref.table w c.header c.bytes tr = (.ok c.records,
      tr ++ [.alloc .entryStorage (c.header.chunkCount.toNat * w.sizeT.sizeofChunkEntry) true] ++ [.walked]) := by
  have hge := recordBytes_length_ge c.records
  have hlen := c.bytes_length
  have hcount := c.valid.count_le
  have hpos := c.valid.count_pos
  have hmax := w.sizeT.max_ge
  have hsz : c.header.chunkCount.toNat * w.sizeT.sizeofChunkEntry ≤ 2 ^ 24 * 32 :=
    Nat.mul_le_mul hcount (sizeofChunkEntry_le _)
  have hne : c.header.chunkCount.toNat * w.sizeT.sizeofChunkEntry ≠ 0 :=
    Nat.mul_ne_zero (by omega) (by cases w.sizeT <;> decide)
  have ht : tableOf c.header c.bytes = .ok c.records := by rw [tableOf, c.read]
  rw [c.count] at hge
  unfold Ref.table Ref.returnIf
  rw [throwIf_neg (by omega), throwIf_neg (by omega)]
  have halloc : Ref.alloc w .entryStorage _ tr = _ := Ref.alloc_eq hne
  rw [if_pos hal] at halloc
  rw [bind_ok halloc, ht]
  rfl

/-- **Phase 1 accepts exactly the containers**, each in one way, and what it finds
is the records: where each ciphertext stands, in order, and the largest compressed one. -/
theorem structuralPhase_iff (w : World) (f : Bytes) (s : St) (hf : f.length ≤ w.sizeT.max)
    (hal : ∀ n, w.alloc s.trace.length n = true) :
    ((∃ a s', structuralPhase w (.bytes f) s = (.ok a, s')) ↔ ∃ c : Container, c.bytes = f) ∧
    (∀ c c' : Container, c.bytes = f → c'.bytes = f → c = c') ∧
    ∀ header storage walk s' (c : Container),
      structuralPhase w (.bytes f) s = (.ok (header, storage, walk), s') → c.bytes = f → header = c.header ∧
        walk.entries.length = c.records.length ∧
      (∀ i r, c.records[i]? = some r → ∃ off, walk.entries[i]? = some ⟨off, r.chunk, r.tag⟩ ∧
        off = kHeaderSize + (recordBytes (c.records.take i)).length + kChunkHeaderSize ∧
        slice f off r.ct.length = r.ct) ∧
      (∀ r ∈ c.records, r.chunk.compressed = true → r.chunk.storedSize ≤ walk.maxCompressed) ∧
      (walk.maxCompressed = 0 ∧ (∀ r ∈ c.records, r.chunk.compressed = false) ∨
        ∃ r ∈ c.records, r.chunk.compressed = true ∧ r.chunk.storedSize = walk.maxCompressed) := by
  have hinj (c c' : Container) (hc : c.bytes = f) (hc' : c'.bytes = f) : c = c' :=
    Container.bytes_inj (hc.trans hc'.symm)
  have hrun (h : FileHeader) (hp : parseFileHeader (.bytes f) = .ok h) :=
    sim_walkChunkTable (w := w) hf (parseFileHeader_ok_iff.mp hp).1 (parseFileHeader_ok_iff.mp hp).2.1
      (Heap.Becomes.refl s.heap)
  have hok {header storage walk s'} (hs : structuralPhase w (.bytes f) s = (.ok (header, storage, walk), s')) :
      ∃ c : Container, c.bytes = f ∧ c.header = header ∧ walk = walkOf c.records := by
    unfold structuralPhase at hs
    rcases hp : parseFileHeader (.bytes f) with e | h
    · rw [hp] at hs
      cases hs
    rw [hp] at hs
    replace hs : (walkChunkTable w (.bytes f) h >>= fun x => pure (h, x.1, x.2)) s = _ := hs
    rcases hrun h hp with ⟨⟨st, wk⟩, rs, s1, h1, -, -, hw, ht⟩ | ⟨e, s1, h1, -⟩
    · rw [bind_ok h1] at hs
      cases hs
      obtain ⟨c, rfl, rfl, rfl⟩ := Container.of_table hp ht
      exact ⟨c, rfl, rfl, hw⟩
    · rw [bind_error h1] at hs
      cases hs
  refine ⟨⟨?_, ?_⟩, hinj, ?_⟩
  · rintro ⟨⟨header, storage, walk⟩, s', hs⟩
    obtain ⟨c, hc, -⟩ := hok hs
    exact ⟨c, hc⟩
  · rintro ⟨c, rfl⟩
    have ht := table_ok c (hal _)
    rcases hrun c.header c.parse with ⟨a, rs, s1, h1, -⟩ | ⟨e, s1, -, h2, -⟩
    · refine ⟨(c.header, a.1, a.2), s1, ?_⟩
      unfold structuralPhase
      rw [c.parse]
      show (walkChunkTable w (.bytes c.bytes) c.header >>= fun x => pure (c.header, x.1, x.2)) s = _
      rw [bind_ok h1]
      rfl
    · rw [ht] at h2
      cases h2
  · intro header storage walk s' c hs hc
    obtain ⟨c', hc', rfl, rfl⟩ := hok hs
    cases hinj c c' hc hc'
    have hdrop : f.drop kHeaderSize = recordBytes c.records := by
      rw [← hc, Container.bytes, List.drop_left' (serializeFileHeader_length c.header)]
    refine ⟨rfl, ?_, ?_, ?_⟩
    · rw [walkOf_entries, entriesAt_length]
    · intro i r hr
      obtain ⟨hlt, hget⟩ := List.getElem?_eq_some_iff.mp hr
      have hsplit : c.records = c.records.take i ++ r :: c.records.drop (i + 1) := by
        rw [← hget, List.getElem_cons_drop, List.take_append_drop]
      have hlen : (c.records.take i).length = i := List.length_take_of_le (Nat.le_of_lt hlt)
      refine ⟨_, ?_, rfl, ?_⟩
      · have := entriesAt_get r (c.records.drop (i + 1)) kHeaderSize (c.records.take i)
        rwa [← hsplit, hlen, ← walkOf_entries] at this
      · rw [hsplit] at hdrop
        exact (ct_at hdrop (parseFileHeader_ok_iff.mp (hc ▸ c.parse)).1).2
    · rw [walkOf_max]
      exact maxCompressed_eq c

theorem sampleFile_structural :
    ∃ a s', structuralPhase sampleWorld (.bytes sampleFile.bytes) ⟨[], []⟩ = (.ok a, s') :=
  (structuralPhase_iff sampleWorld sampleFile.bytes ⟨[], []⟩ sampleFile_size fun _ => rfl).1.mpr ⟨sampleFile, rfl⟩

/-! ### Order -/

/-- The structural verdict does not depend on the key: either every key stops before
the table is accepted, in the same way, or with every key it is accepted. -/
theorem decrypt_verdict (w : World) (input : Span) (tr0 : List Event) :
    (∃ e hist, .walked ∉ hist ∧ ∀ key : Span, key.isNull = false → mcMinKeySize ≤ key.size →
      Ref.decrypt w key input tr0 = (.error e, tr0 ++ hist)) ∨
    ∀ key : Span, key.isNull = false → mcMinKeySize ≤ key.size →
      ∃ r hist, Ref.decrypt w key input tr0 = (r, tr0 ++ hist) ∧ .walked ∈ hist := by
  have hkey {key : Span} (hk : key.isNull = false) (hn : input.isNull = false) :
      ¬ (key.isNull = true ∨ input.isNull = true) := by simp [hk, hn]
  cases hn : input.isNull with
  | true =>
    refine .inl ⟨.errInvalidArg, [], by simp, fun key _ _ => ?_⟩
    rw [Ref.decrypt, Ref.returnIf, throwIf_pos (by simp [hn]), List.append_nil]
    rfl
  | false =>
  have hbytes := Span.eq_bytes hn
  generalize input.toBytes = f at hbytes
  subst hbytes
  rcases hp : parseFileHeader (.bytes f) with e | h
  · obtain ⟨st, -, rfl⟩ := parseFileHeader_error hp
    refine .inl ⟨st, [], by simp, fun key hk hs => ?_⟩
    rw [Ref.decrypt, Ref.returnIf, throwIf_neg (hkey hk hn), Ref.returnIf, throwIf_neg (Nat.not_lt.mpr hs), hp,
      List.append_nil]
    rfl
  have htable : Logs (Allowed w f) tr0 (Ref.table w h f) [] _ := logs_table hp
  obtain ⟨hist1, ht, -, ho, hl, hq⟩ := htable Orderly.nil
  rw [List.append_nil] at ht hq
  rcases hrun : Ref.table w h f tr0 with ⟨e | rs, tr1⟩
  · rw [hrun] at ht hq
    dsimp only at ht
    subst ht
    refine .inl ⟨e, hist1, hq, fun key hk hs => ?_⟩
    rw [Ref.decrypt_parsed hk hs hp]
    exact bind_error hrun
  · rw [hrun] at ht hq
    dsimp only at ht
    subst ht
    obtain ⟨hw, c, rfl, rfl, rfl⟩ := hq
    refine .inr fun key hk hs => ?_
    rw [Ref.decrypt_parsed hk hs hp, bind_ok hrun]
    have hderive : Logs (Allowed w c.bytes) tr0 (Ref.deriveKey w key _ _ _ _) hist1 _ := logs_deriveKey hw hl
    obtain ⟨hist2, ht2, hpre, -⟩ := hderive.bind (fun k hist2 h2 => logs_openAll (w := w) (h2.2 k rfl))
      (fun e hist2 h2 => h2.1.2) ho
    exact ⟨_, hist2, Prod.ext rfl ht2, hpre.subset hw⟩

/-- The same of `DecryptBuffer`. -/
theorem decryptBuffer_verdict {key' : Span} {hist hist' : List Event} (hin : input.size ≤ w.sizeT.max)
    (hk : key.isNull = false) (hks : mcMinKeySize ≤ key.size) (hk' : key'.isNull = false)
    (hks' : mcMinKeySize ≤ key'.size) (ht : (decryptBuffer w key input s).2.trace = s.trace ++ hist)
    (ht' : (decryptBuffer w key' input s).2.trace = s.trace ++ hist') :
    (.walked ∈ hist ↔ .walked ∈ hist') ∧
    (.walked ∉ hist → (decryptBuffer w key' input s).1 = (decryptBuffer w key input s).1 ∧ hist' = hist) := by
  obtain ⟨h1, h2⟩ := decryptBuffer_ref w key input s hin
  obtain ⟨h1', h2'⟩ := decryptBuffer_ref w key' input s hin
  rw [ht] at h1
  rw [ht'] at h1'
  rcases decrypt_verdict w input s.trace with ⟨e, hist0, hw, hr⟩ | hr
  · have e1 := hr key hk hks
    have e1' := hr key' hk' hks'
    rw [e1] at h1 h2
    rw [e1'] at h1' h2'
    cases List.append_cancel_left h1
    cases List.append_cancel_left h1'
    exact ⟨Iff.rfl, fun _ => ⟨by rw [h2 e rfl, h2' e rfl], rfl⟩⟩
  · obtain ⟨r, hist0, e1, hw⟩ := hr key hk hks
    obtain ⟨r', hist0', e1', hw'⟩ := hr key' hk' hks'
    rw [e1] at h1
    rw [e1'] at h1'
    cases List.append_cancel_left h1
    cases List.append_cancel_left h1'
    exact ⟨iff_of_true hw hw', fun h => absurd hw h⟩

theorem openings_length {c : Container} {k : ByteVec kKeySize} {i : ℕ} {pre : List Event} {a : OpenArgs}
    (h : Opened c k i pre) (ha : (c.openArgs k)[i]? = some a) : (openings pre).length = i := by
  obtain ⟨hlt, -⟩ := List.getElem?_eq_some_iff.mp ha
  rw [h.opens, List.length_map, List.length_take_of_le (Nat.le_of_lt hlt)]

/-- The record that is opened. -/
theorem openArgs_record {c : Container} {k : ByteVec kKeySize} {i : ℕ} {a : OpenArgs}
    (ha : (c.openArgs k)[i]? = some a) : ∃ q, c.records[i]? = some q ∧
      a = openArgs k (slice c.bytes 0 kHeaderSize) c.header i q := by
  rw [Container.openArgs, List.getElem?_mapIdx, Option.map_eq_some_iff] at ha
  obtain ⟨q, hq, rfl⟩ := ha
  exact ⟨q, hq, rfl⟩

/-- What is delivered is delivered last. -/
theorem Ended.last {res : Except McStatus Bytes} {pre post : List Event} {size : ℕ}
    (h : Ended res (pre ++ .delivered size :: post)) : post = [] := by
  have hmem : Event.delivered size ∈ pre ++ .delivered size :: post := by simp
  rcases res with e | b
  · exact absurd hmem (h size)
  obtain ⟨pre0, size0, he, hs⟩ := h
  rcases List.eq_nil_or_concat post with rfl | ⟨post', y, rfl⟩
  · rfl
  · rw [List.concat_eq_append, ← List.cons_append, ← List.append_assoc] at he
    have := (List.append_inj' he rfl).1
    exact absurd (this ▸ by simp : Event.delivered size ∈ pre0) (hs size)

/-- **Nothing is trusted before it is authenticated.** In the history of any run: the
key is derived only once the table was accepted, and whether it is accepted does
not depend on the key; only what the open just before it verified is inflated, into
the room of the authenticated header; the plaintext is allocated only after chunk 0
was opened; each open covers the header as it stands in the file and the position
and record of its chunk; the result is delivered only after every chunk was opened
and verified, once and in order. -/
theorem decryptBuffer_order (w : World) (key input : Span) (s : St) (hin : input.size ≤ w.sizeT.max) :
    ∃ hist, (decryptBuffer w key input s).2.trace = s.trace ++ hist ∧
      (∀ pre a k post, hist = pre ++ .derived a k :: post → .walked ∈ pre) ∧
      (∀ key' hist', key.isNull = false → mcMinKeySize ≤ key.size → key'.isNull = false → mcMinKeySize ≤ key'.size →
        (decryptBuffer w key' input s).2.trace = s.trace ++ hist' → (.walked ∈ hist ↔ .walked ∈ hist') ∧
        (.walked ∉ hist → (decryptBuffer w key' input s).1 = (decryptBuffer w key input s).1 ∧ hist' = hist)) ∧
      (∀ pre d room r post, hist = pre ++ .inflated d room r :: post →
        ∃ (c : Container) (k : ByteVec kKeySize) (i : ℕ) (q : Record) (pre' : List Event),
          c.bytes = input.toBytes ∧ c.records[i]? = some q ∧ q.chunk.compressed = true ∧
          pre = pre' ++ [.opened (openArgs k (slice input.toBytes 0 kHeaderSize) c.header i q) (.ok d)] ∧
          room = c.header.sliceSize i) ∧
      (∀ pre size ok post, hist = pre ++ .alloc .plaintext size ok :: post →
        ∃ (c : Container) (k : ByteVec kKeySize), c.bytes = input.toBytes ∧ Opened c k 1 pre ∧
          size = c.header.plaintextSize.toNat) ∧
      (∀ pre a r post, hist = pre ++ .opened a r :: post →
        ∃ (c : Container) (k : ByteVec kKeySize) (i : ℕ) (q : Record), c.bytes = input.toBytes ∧
          c.records[i]? = some q ∧ (openings pre).length = i ∧ Opened c k i pre ∧ a.key = k.1 ∧
          a.aad = buildAad (slice input.toBytes 0 kHeaderSize) (UInt32.ofNat i) q.chunk ∧
          a.nonce = buildNonce c.header.noncePrefix (UInt32.ofNat i) ∧ a.ct = q.ct ∧ a.tag = q.tag) ∧
      (∀ pre size post, hist = pre ++ .delivered size :: post → post = [] ∧
        ∃ (c : Container) (k : ByteVec kKeySize), c.bytes = input.toBytes ∧
          Opened c k c.records.length pre ∧ openings pre = (c.openArgs k).map (fun a => (a, true)) ∧
          size = c.header.plaintextSize.toNat) ∧
      ((∃ a, (decryptBuffer w key input s).1 = .ok a) ↔ ∃ size, .delivered size ∈ hist) := by
  obtain ⟨hist, ht, ho, he⟩ := decryptBuffer_ends w key input s hin
  refine ⟨hist, ht, fun pre a k post hs => (ho _ _ _ hs).1, ?_, ?_, ?_, ?_, ?_, ?_⟩
  · exact fun key' hist' hk hks hk' hks' ht' => decryptBuffer_verdict hin hk hks hk' hks' ht ht'
  · intro pre d room r post hs
    exact ho _ _ _ hs
  · intro pre size ok post hs
    exact ho _ _ _ hs
  · intro pre a r post hs
    obtain ⟨c, k, i, hf, hopened, ha⟩ := ho _ _ _ hs
    obtain ⟨q, hq, rfl⟩ := openArgs_record ha
    exact ⟨c, k, i, q, hf, hq, openings_length hopened ha, hopened, rfl, by rw [← hf]; rfl, rfl, rfl, rfl⟩
  · intro pre size post hs
    obtain ⟨c, k, hf, hopened, hsize⟩ := ho _ _ _ hs
    have hall : (c.openArgs k).take c.records.length = c.openArgs k :=
      List.take_of_length_le (by rw [Container.openArgs, List.length_mapIdx])
    refine ⟨?_, c, k, hf, hopened, by rw [hopened.opens, hall], hsize⟩
    rw [hs] at he
    rcases he with ⟨a, b, -, he⟩ | ⟨e, -, he⟩ <;> exact Ended.last he
  · rcases he with ⟨a, b, h1, pre, size, he, -⟩ | ⟨e, h1, he⟩
    · exact iff_of_true ⟨a, h1⟩ ⟨size, by simp [he]⟩
    · refine iff_of_false ?_ ?_
      · rintro ⟨a, ha⟩
        rw [h1] at ha
        cases ha
      · rintro ⟨size, hm⟩
        exact he size hm

theorem sampleFile_order : ∃ hist, (decryptBuffer sampleWorld sampleKey (.bytes sampleFile.bytes) ⟨[], []⟩).2.trace =
    [] ++ hist ∧ ∀ pre a k post, hist = pre ++ .derived a k :: post → .walked ∈ pre := by
  obtain ⟨hist, ht, h1, -⟩ :=
    decryptBuffer_order sampleWorld sampleKey (.bytes sampleFile.bytes) ⟨[], []⟩ sampleFile_size
  exact ⟨hist, ht, h1⟩

/-! ### Allocations -/

/-- The bound on an allocation made before chunk 0 has opened, for `n` bytes of input with header `h`. -/
def PreAuthBound (z : SizeT) (n : ℕ) (h : FileHeader) (size : ℕ) : BufName → Prop
  | .entryStorage => size * kChunkHeaderSize ≤ z.sizeofChunkEntry * (n - kHeaderSize) ∧
      (size = h.plaintextSize.toNat → h.chunkCount.toNat = 1)
  | .derived => size = kKeySize ∧ (size = h.plaintextSize.toNat → h.chunkCount.toNat = 1)
  | .scratch => size + kChunkHeaderSize + kHeaderSize ≤ n
  | .firstChunk => size ≤ min h.plaintextSize.toNat h.chunkSize.toNat ∧ h.chunkSize ≤ kMaxChunkSize ∧
      (size = h.plaintextSize.toNat → h.chunkCount.toNat = 1)
  | _ => False

theorem bytes_length_ge (c : Container) {r : Record} (hr : r ∈ c.records) :
    kHeaderSize + kChunkHeaderSize + r.ct.length ≤ c.bytes.length := by
  obtain ⟨pre, post, he⟩ := List.append_of_mem hr
  rw [c.bytes_length, he, recordBytes_append, recordBytes_cons, List.length_append, List.length_append,
    Record.bytes_length]
  omega

/-- The scratch is backed by bytes of the input. -/
theorem scratch_le (c : Container) (h0 : (maxCompressed c.records).toNat ≠ 0) :
    (maxCompressed c.records).toNat + kChunkHeaderSize + kHeaderSize ≤ c.bytes.length := by
  rcases (maxCompressed_eq c).2 with ⟨hz, -⟩ | ⟨r, hr, -, hs⟩
  · rw [hz] at h0
    exact absurd rfl h0
  · have hle := bytes_length_ge c hr
    obtain ⟨i, hi⟩ := List.getElem?_of_mem hr
    rw [(Container.fits_get hi).size, hs] at hle
    omega

/-- The table is smaller than a plaintext of more than one chunk. -/
theorem table_ne {h : FileHeader} (hv : h.Valid) (z : SizeT)
    (he : h.chunkCount.toNat * z.sizeofChunkEntry = h.plaintextSize.toNat) : h.chunkCount.toNat = 1 := by
  by_contra hne
  have hpos := hv.count_pos
  have hlt : h.chunkCount.toNat - 1 < h.chunkCount.toNat := by omega
  have hstart := hv.start_lt hlt (by omega)
  have hC := Nat.mul_le_mul_left (h.chunkCount.toNat - 1) hv.chunkSize.1
  have hz := Nat.mul_le_mul_left h.chunkCount.toNat (sizeofChunkEntry_le z)
  omega

/-- The products and casts that size the buffers of a file with header `h` are exact. -/
structure Exact (z : SizeT) (h : FileHeader) : Prop where
  minimumInput : (kHeaderSize.toUInt64 + h.chunkCount.toUInt64 * kChunkHeaderSize.toUInt64).toNat =
    kHeaderSize + h.chunkCount.toNat * kChunkHeaderSize
  tableBytes : (h.chunkCount.toUInt64 * z.sizeofChunkEntry.toUInt64).toNat = h.chunkCount.toNat * z.sizeofChunkEntry
  tableCast : z.cast (h.chunkCount.toNat * z.sizeofChunkEntry) = h.chunkCount.toNat * z.sizeofChunkEntry
  storedSize : (maxStoredSizeFor h.chunkSize).toNat = h.chunkSize.toNat + h.chunkSize.toNat / 1000 + 64
  firstChunk : chunkPlainSize z h.plaintextSize h.chunkSize 0 = min h.chunkSize.toNat h.plaintextSize.toNat
  kdf : (kdfMemory h.kdfLogN h.kdfR).toNat = 128 * 2 ^ h.kdfLogN.toNat * h.kdfR.toNat

theorem exact_of_valid {h : FileHeader} (hv : h.Valid) (z : SizeT) : Exact z h where
  minimumInput := minimumInput_toNat _
  tableBytes := tableBytes_toNat _ _
  tableCast := by
    have hle : h.chunkCount.toNat * z.sizeofChunkEntry ≤ 2 ^ 24 * 32 :=
      Nat.mul_le_mul hv.count_le (sizeofChunkEntry_le z)
    have hmax := z.max_ge
    exact SizeT.cast_of_le (by omega)
  storedSize := maxStoredSizeFor_toNat hv.chunkSize.2
  firstChunk := by
    rw [chunkPlainSize_eq, FileHeader.sliceSize, UInt32.toNat_zero, Nat.zero_mul, Nat.sub_zero]
  kdf := kdfMemory_toNat hv.logN.2 hv.r.2

/-- **What is allocated before chunk 0 has opened** is the table, the derived key, the
scratch or the first chunk, each bounded by the input or by one chunk; scrypt is
asked for no more than the ceiling; and of these only the scratch, which the input
backs byte by byte, can be as large as a plaintext of several chunks. -/
theorem decryptBuffer_allocations (w : World) (key input : Span) (s : St) (hin : input.size ≤ w.sizeT.max) :
    ∃ hist, (decryptBuffer w key input s).2.trace = s.trace ++ hist ∧
      (∀ pre name size ok post, hist = pre ++ .alloc name size ok :: post →
        (name = .plaintext ∧ ∃ (c : Container) (k : ByteVec kKeySize), c.bytes = input.toBytes ∧ Opened c k 1 pre) ∨
        ∃ h, parseFileHeader (.bytes input.toBytes) = .ok h ∧ PreAuthBound w.sizeT input.size h size name) ∧
      (∀ pre a k post, hist = pre ++ .derived a k :: post → 128 * a.n.toNat * a.r.toNat ≤ kMaxKdfMemory.toNat) ∧
      ∀ h, parseFileHeader (.bytes input.toBytes) = .ok h → Exact w.sizeT h := by
  obtain ⟨hist, ht, ho, -⟩ := decryptBuffer_ends w key input s hin
  have hsize {c : Container} (hf : c.bytes = input.toBytes) : c.bytes.length ≤ input.size := by
    rw [hf]
    cases input with
    | null n => exact Nat.zero_le _
    | bytes b => exact le_refl _
  refine ⟨hist, ht, ?_, ?_, fun h hp => exact_of_valid (parseFileHeader_ok_iff.mp hp).2.1 _⟩
  · intro pre name size ok post hs
    have hA := ho _ _ _ hs
    cases name with
    | entryStorage =>
      obtain ⟨h, hp, rfl, hle⟩ := hA
      refine .inr ⟨h, hp, ?_, table_ne (parseFileHeader_ok_iff.mp hp).2.1 _⟩
      have hlen : input.toBytes.length ≤ input.size := by
        cases input with
        | null n => exact Nat.zero_le _
        | bytes b => exact le_refl _
      rw [Nat.mul_right_comm, Nat.mul_comm _ w.sizeT.sizeofChunkEntry]
      exact Nat.mul_le_mul_left _ (by omega)
    | derived =>
      obtain ⟨-, rfl, c, hf⟩ := hA
      have hC := c.valid.chunkSize.1
      refine .inr ⟨c.header, hf ▸ c.parse, rfl, fun he => c.valid.single ?_⟩
      rw [← he]
      exact le_trans (by decide) hC
    | scratch =>
      obtain ⟨c, k, hf, -, rfl, h0⟩ := hA
      exact .inr ⟨c.header, hf ▸ c.parse, le_trans (scratch_le c h0) (hsize hf)⟩
    | firstChunk =>
      obtain ⟨c, k, hf, -, rfl⟩ := hA
      have hmin : c.header.sliceSize 0 = min c.header.chunkSize.toNat c.header.plaintextSize.toNat := by
        rw [FileHeader.sliceSize, Nat.zero_mul, Nat.sub_zero]
      refine .inr ⟨c.header, hf ▸ c.parse, by rw [hmin, Nat.min_comm], ?_, fun he => c.valid.single (by omega)⟩
      exact UInt32.le_iff_toNat_le.mpr c.valid.chunkSize.2
    | plaintext =>
      obtain ⟨c, k, hf, hopened, -⟩ := hA
      exact .inl ⟨rfl, c, k, hf, hopened⟩
    | file => exact hA.elim
    | exact => exact hA.elim
    | fileContents => exact hA.elim
  · intro pre a k post hs
    obtain ⟨-, c, -, -, pass, rfl⟩ := ho _ _ _ hs
    have hn : (scryptArgs pass c.header.salt.1 c.header.kdfLogN c.header.kdfR c.header.kdfP).n.toNat =
        2 ^ c.header.kdfLogN.toNat := one_shiftLeft_toNat c.valid.logN.2
    rw [hn]
    exact c.valid.memory

theorem sampleFile_allocations :
    ∃ hist, (decryptBuffer sampleWorld sampleKey (.bytes sampleFile.bytes) ⟨[], []⟩).2.trace = [] ++ hist ∧
      ∀ pre a k post, hist = pre ++ .derived a k :: post → 128 * a.n.toNat * a.r.toNat ≤ kMaxKdfMemory.toNat := by
  obtain ⟨hist, ht, -, h1, -⟩ :=
    decryptBuffer_allocations sampleWorld sampleKey (.bytes sampleFile.bytes) ⟨[], []⟩ sampleFile_size
  exact ⟨hist, ht, h1⟩

/-- A machine that has no room for the first chunk of `twoChunks`. -/
def smallWorld : World := { sampleWorld with alloc := fun _ n => n != 4096 }

theorem twoChunks_run : ∃ a k, (decryptBuffer smallWorld sampleKey (.bytes twoChunks.bytes) ⟨[], []⟩).2.trace =
    [.alloc .entryStorage 64 true, .walked, .alloc .derived 32 true, .derived a (some k),
      .alloc .scratch 4097 true, .alloc .firstChunk 4096 false] := by
  have hin : (Span.bytes twoChunks.bytes).size ≤ smallWorld.sizeT.max := by
    rw [Span.size_bytes, twoChunks.bytes_length]
    simp only [twoChunks, recordBytes_cons, recordBytes_nil, List.length_append, Record.bytes_length, zeros_length]
    decide
  have hmax : (maxCompressed twoChunks.records).toNat = 4097 := by decide
  have hslice : twoChunks.header.sliceSize 0 = 4096 := by decide
  generalize ha : scryptArgs sampleKey.toBytes twoChunks.header.salt.1 twoChunks.header.kdfLogN twoChunks.header.kdfR
    twoChunks.header.kdfP = a
  have hacc : a.Accepted := by
    subst ha
    constructor <;> decide
  have hk (tr : List Event) : Ref.scrypt smallWorld a tr = (.ok (checksum kKeySize (a.pass ++ a.salt)),
      tr ++ [.derived a (some (checksum kKeySize (a.pass ++ a.salt)))]) := by
    rw [Ref.scrypt_eq, show smallWorld.scrypt tr.length a = some _ from if_pos hacc]
    rfl
  have hrecords : twoChunks.records = _ :: [_] := rfl
  refine ⟨a, checksum kKeySize (a.pass ++ a.salt), ?_⟩
  rw [(decryptBuffer_ref _ _ _ _ hin).1, Ref.decrypt_parsed rfl (by decide) twoChunks.parse,
    bind_ok (table_ok twoChunks rfl), Ref.deriveKey_eq rfl (by decide) twoChunks.header.salt.2, bind_assoc,
    bind_ok (Ref.alloc_eq (by decide)), ha, bind_ok (hk _), hrecords, Ref.openAll, ← hrecords, hmax, hslice,
    bind_ok (Ref.alloc_eq (by decide)), bind_error (Ref.alloc_eq (by decide))]
  rfl

/-- A scratch as large as a plaintext of two chunks is allocated before chunk 0 has opened. -/
theorem scratch_as_large_as_plaintext : ¬ ∀ pre name size ok post,
    (decryptBuffer smallWorld sampleKey (.bytes twoChunks.bytes) ⟨[], []⟩).2.trace =
      pre ++ .alloc name size ok :: post →
    openings pre = [] → size = twoChunks.header.plaintextSize.toNat → twoChunks.header.chunkCount.toNat = 1 := by
  intro hall
  obtain ⟨a, k, ht⟩ := twoChunks_run
  have := hall [.alloc .entryStorage 64 true, .walked, .alloc .derived 32 true, .derived a (some k)] .scratch 4097 true
    [.alloc .firstChunk 4096 false] ht rfl rfl
  exact absurd this (by decide)

end Decrypt
end ModelCrypt
