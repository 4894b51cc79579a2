/-
# DecryptBuffer refines the reader

One chunk first: with the record inside the input, room for its piece and a
scratch that holds a compressed record, `OpenChunk` opens the record and
writes its piece, and nothing faults (`sim_openChunk`). Then the loop of
phase 3, whose invariant is that the pieces so far fill the front of the
plaintext buffer (`sim_openLoop`). The phases in their order are `sim_openFirst`
and `sim_finish`; the scopes of the five buffers are put around them last
(`decryptBuffer_refines`).

Key theorems: `sim_openChunk`, `sim_openLoop`, `sim_finish`, `decryptBuffer_refines`.
-/
import ModelCrypt.Reader

namespace ModelCrypt

open Lib Prog Function

namespace Decrypt

variable {w : World} {f sh : Bytes} {h : FileHeader} {s : St}

/-! ### One chunk -/

theorem storedSize_le (hv : h.Valid) {i : ℕ} {r : Record} (hr : r.Fits h i) : r.ct.length ≤ 2 ^ 27 := by
  have hC := hv.chunkSize.2
  have hb := UInt32.le_iff_toNat_le.mp hr.bound
  rw [maxStoredSizeFor_toNat hC] at hb
  rw [hr.size]
  omega

theorem sliceSize_le (hv : h.Valid) (i : ℕ) : h.sliceSize i ≤ 2 ^ 26 :=
  le_trans (Nat.min_le_left ..) hv.chunkSize.2

/-- A chunk is opened into memory that is wiped if it does not verify. -/
theorem sim_openWiped {kb n : ℕ} {k nonce aad c : Bytes} {tag : ByteVec kTagSize} {out : Ptr}
    (hk : s.heap.get kb = some k) (hl : k.length = kKeySize) (hc : c.length ≤ int32Max) (ha : aad.length ≤ int32Max)
    (hout : out.Fits c.length s.heap.get) (hn : n = c.length) :
    Refines (onStop (aeadOpen w (.into kb 0) nonce aad (.bytes c) tag out) (secureWipe out n))
      (Ref.ask (.opened ⟨k, nonce, aad, c, tag⟩) (openResult w ⟨k, nonce, aad, c, tag⟩)) s
      (fun _ p s1 => p.length = c.length ∧ Heap.Becomes s.heap s1.heap (out.put p s.heap.get))
      (fun s1 => Heap.Becomes s.heap s1.heap (out.put (zeros n) s.heap.get)) := by
  subst hn
  refine Sim.onStop (sim_aeadOpen hk hl hc ha hout) ?_
  rintro s2 ⟨q, hq, hb⟩
  have hfit : out.Fits c.length s2.heap.get := by
    rw [hb.get_eq]
    exact hout.put hout hq
  obtain ⟨s3, e3, t3, b3⟩ := secureWipe_run hfit
  refine ⟨s3, e3, t3, (hb.trans b3).cast ?_⟩
  rw [hb.get_eq, Ptr.put_put hout (by rw [zeros_length]; omega) (by rw [zeros_length])]

/-- What was opened into the scratch is inflated from there. -/
theorem sim_inflate {scratch : SecureBuffer} {y p : Bytes} {n room : ℕ} {plainOut : Ptr} (hpos : 0 < y.length)
    (hsc : scratch.Holds s.heap.get (overwrite y 0 p)) (hle : p.length ≤ y.length) (hn : n = p.length)
    (hp32 : p.length ≤ uint32Max) (hroom : room ≤ uint32Max) (hp : plainOut.Fits room s.heap.get) :
    Refines (do decompressChunk w (← spanAt scratch.ptr n) plainOut room)
      (Ref.ask (.inflated p room) (inflateResult w p room)) s
      (fun _ q s1 => q.length = room ∧ Heap.Becomes s.heap s1.heap (plainOut.put q s.heap.get))
      (fun s1 => Written s.heap plainOut room s1.heap) := by
  subst hn
  have hlen : (overwrite y 0 p).length = y.length := overwrite_length (by omega)
  obtain ⟨b, -, hptr, hget⟩ := hsc.ptr fun e => by
    rw [e, List.length_nil] at hlen
    omega
  have hload : spanAt scratch.ptr p.length s = (.ok (.bytes p), s) := by
    unfold spanAt
    rw [if_neg (by rw [hptr]; simp), hptr, bind_ok (load_run hget (by rw [hlen]; omega)), overwrite_prefix hle]
    rfl
  exact Sim.skip hload rfl (sim_decompressChunk hp32 hroom hp)

/-- **One chunk**: the record is opened, its piece is written where it belongs,
and nothing else but the scratch changes. -/
theorem sim_openChunk {dk scratch : SecureBuffer} {k : ByteVec kKeySize} {y : Bytes} {i off room : ℕ}
    {plainOut : Ptr} {r : Record} {scr : Option ℕ} (hv : h.Valid) (hsh : sh.length = kHeaderSize)
    (hk : dk.Holds s.heap.get k.1) (hr : r.Fits h i) (hct : off + r.ct.length ≤ f.length)
    (hcts : slice f off r.ct.length = r.ct) (hp : plainOut.Fits (h.sliceSize i) s.heap.get)
    (hroom : s.heap.room plainOut = room) (hsc : scratch.Holds s.heap.get y)
    (hscr : (scratch.data.map fun _ => scratch.size) = scr) (hy : r.chunk.compressed = true → r.ct.length ≤ y.length) :
    Refines (openChunk w dk sh h (UInt32.ofNat i) ⟨off, r.chunk, r.tag⟩ (.bytes f) plainOut (h.sliceSize i) scratch)
      (Ref.openRecord w k sh h scr i room r) s
      (fun _ p s1 => p.length = h.sliceSize i ∧ ∃ y', y'.length = y.length ∧
        Heap.Becomes s.heap s1.heap (plainOut.put p (scratch.over y' s.heap.get)))
      (fun s1 => ∃ y' q, y'.length = y.length ∧ q.length ≤ h.sliceSize i ∧
        Heap.Becomes s.heap s1.heap (plainOut.put q (scratch.over y' s.heap.get))) := by
  have hread : (Span.bytes f).read off r.chunk.storedSize.toNat = .ok r.ct := by
    rw [← hr.size, Span.read_bytes hct, hcts]
  have hstored := storedSize_le hv hr
  have hslice := sliceSize_le hv i
  have haad := buildAad_length hsh (UInt32.ofNat i) r.chunk
  obtain ⟨kb, hkd, hkp, hkg⟩ := hk.ptr (fun e => by simpa [e] using k.2)
  unfold openChunk Ref.openRecord
  refine Sim.skip (show state s = (.ok s, s) from rfl) rfl ?_
  rw [hroom, hscr]
  refine Sim.bind (sim_emit _ s) ?_ (fun _ h => h.elim)
  rintro _ _ s1 rfl
  rw [hread]
  refine Sim.skip (show Prog.ofExcept (.ok r.ct) _ = (.ok r.ct, _) from rfl) rfl ?_
  rw [hkp]
  cases hc : r.chunk.compressed with
  | false =>
    -- a raw chunk: opened in place
    have hsz : h.sliceSize i = r.ct.length := by rw [hr.size, hr.raw hc]
    have hpt : plainOut.Fits r.ct.length s.heap.get := hsz ▸ hp
    simp only [Bool.false_eq_true, if_false]
    refine Sim.bind (sim_openWiped hkg k.2 (by simp only [int32Max]; omega) (by rw [haad]; decide) hpt hsz) ?_ ?_
    · rintro _ p s2 ⟨hl, hb⟩
      exact Sim.pure ⟨by rw [hl, hsz], y, rfl, by rw [hsc.over_eq]; exact hb⟩
    · intro s2 hb
      exact ⟨y, _, rfl, le_of_eq (zeros_length _), by rw [hsc.over_eq]; exact hb⟩
  | true =>
    -- a compressed chunk: opened into the scratch, inflated from there
    have hle := hy hc
    have hpos := (hr.deflated hc).1
    rw [← hr.size] at hpos
    have hcomp {d : Bytes} (hd : d.length ≤ y.length) : (overwrite y 0 d).length = y.length :=
      overwrite_length (by omega)
    simp only [if_true]
    refine Sim.bind (sim_openWiped hkg k.2 (by simp only [int32Max]; omega) (by rw [haad]; decide) (hsc.fits hle)
      hr.size.symm) ?_ ?_
    · rintro _ p s2 ⟨hl, hb⟩
      have hpy : p.length ≤ y.length := by omega
      rw [hsc.put hpy] at hb
      have hs2 : scratch.Holds s2.heap.get (overwrite y 0 p) := by
        rw [hb.get_eq]
        exact hsc.change (hcomp hpy)
      have hp2 : plainOut.Fits (h.sliceSize i) s2.heap.get := by
        rw [hb.get_eq, ← hsc.put hpy]
        exact hp.put (hsc.fits hle) (by omega)
      refine (sim_inflate (by omega) hs2 hpy (by rw [hl, hr.size]) (by simp only [uint32Max]; omega)
        (by simp only [uint32Max]; omega) hp2).mono ?_ ?_
      · rintro _ q s3 ⟨hq, hb3⟩
        rw [hb.get_eq] at hb3
        exact ⟨hq, _, hcomp hpy, hb.trans hb3⟩
      · rintro s3 ⟨q, hq, hb3⟩
        rw [hb.get_eq] at hb3
        exact ⟨_, q, hcomp hpy, hq, hb.trans hb3⟩
    · intro s2 hb
      have hz : (zeros r.chunk.storedSize.toNat).length ≤ y.length := by rwa [zeros_length, ← hr.size]
      rw [hsc.put hz] at hb
      exact ⟨_, [], hcomp hz, Nat.zero_le _, by rwa [Ptr.put_nil]⟩

/-! ### The loop of phase 3 -/

/-- What phase 1 promises of the records of the file and of the table. -/
structure Table (w : World) (f sh : Bytes) (h : FileHeader) (storage : SecureBuffer) (rs : List Record) : Prop where
  valid : h.Valid
  size : kHeaderSize ≤ f.length
  header : sh = slice f 0 kHeaderSize
  records : tableOf h f = .ok rs
  storage : storage.size = h.chunkCount.toNat * w.sizeT.sizeofChunkEntry

theorem Table.length {storage : SecureBuffer} {rs : List Record} (ht : Table w f sh h storage rs) :
    rs.length = h.chunkCount.toNat := (tableOf_ok_iff.mp ht.records).1

theorem Table.header_length {storage : SecureBuffer} {rs : List Record} (ht : Table w f sh h storage rs) :
    sh.length = kHeaderSize := by
  rw [ht.header]
  exact slice_length_of_le (by rw [Nat.zero_add]; exact ht.size)

/-- The record at a position: it fits, its entry is in the table, its ciphertext in the input. -/
theorem Table.record {storage : SecureBuffer} (pre : List Record) {post : List Record} {r : Record}
    (ht : Table w f sh h storage (pre ++ r :: post)) :
    (UInt32.ofNat pre.length).toNat = pre.length ∧ r.Fits h pre.length ∧ ∃ off,
      entryAt w.sizeT storage (entriesAt kHeaderSize (pre ++ r :: post)) (UInt32.ofNat pre.length) =
        .ok ⟨off, r.chunk, r.tag⟩ ∧
      off + r.ct.length ≤ f.length ∧ slice f off r.ct.length = r.ct := by
  obtain ⟨hl, hb, hf⟩ := tableOf_ok_iff.mp ht.records
  have hn := ht.valid.count_le
  have hlt : pre.length < h.chunkCount.toNat := by
    rw [← hl, List.length_append, List.length_cons]
    omega
  have h32 : pre.length < 2 ^ 32 := by omega
  have hix : (UInt32.ofNat pre.length).toNat = pre.length := UInt32.toNat_ofNat_of_lt' h32
  refine ⟨hix, ?_, _, ?_, ct_at hb ht.size⟩
  · have := fitsFrom_iff.mp hf pre.length (by rw [hl]; exact hlt)
    rwa [Nat.zero_add, List.getElem_append_right (le_refl _), getElem_congr_idx (Nat.sub_self _)] at this
  · have hin : ¬ storage.size < (pre.length + 1) * w.sizeT.sizeofChunkEntry := by
      rw [ht.storage, Nat.not_lt]
      exact Nat.mul_le_mul_right _ hlt
    rw [entryAt, inTable, hix, throwIf_except, if_neg hin, entriesAt_get]
    rfl

theorem scratch_room {g : ℕ → Option Bytes} {scratch : SecureBuffer} {y : Bytes} (hs : scratch.Holds g y) :
    (scratch.data.map fun _ => scratch.size) = if y.length = 0 then none else some y.length := by
  cases hs with
  | empty => rfl
  | block hne _ => rw [if_neg (fun e => hne (List.eq_nil_of_length_eq_zero e))]; rfl

/-- The buffers phase 3 works on. -/
structure Working (h : FileHeader) (rs : List Record) (k : ByteVec kKeySize) (dk scratch plaintext : SecureBuffer)
    (y p : Bytes) (g : ℕ → Option Bytes) : Prop extends SecureBuffer.Apart dk scratch plaintext k.1 y p g where
  room : y.length = (maxCompressed rs).toNat
  size : p.length = h.plaintextSize.toNat

variable {rs : List Record} {k : ByteVec kKeySize} {dk scratch plaintext : SecureBuffer} {y y' p p' : Bytes}
  {g : ℕ → Option Bytes}

theorem Working.write (hw : Working h rs k dk scratch plaintext y p g) (hy : y'.length = y.length)
    (hp : p'.length = p.length) :
    Working h rs k dk scratch plaintext y' p' (plaintext.over p' (scratch.over y' g)) :=
  ⟨hw.toApart.write hy hp, by rw [hy, hw.room], by rw [hp, hw.size]⟩

/-- The front of the plaintext buffer grows by the piece just written. -/
theorem take_overwrite {p q : Bytes} {C i : ℕ} (hi : i * C ≤ p.length) (hq : q.length = min C (p.length - i * C)) :
    (overwrite p (i * C) q).take ((i + 1) * C) = p.take (i * C) ++ q := by
  have hs : (i + 1) * C = i * C + C := Nat.succ_mul i C
  have hl : (p.take (i * C) ++ q).length = i * C + q.length := by
    rw [List.length_append, List.length_take]
    omega
  rw [overwrite, ← List.append_assoc]
  by_cases hC : C ≤ p.length - i * C
  · exact List.take_left' (by rw [hl]; omega)
  · have hd : p.drop (i * C + q.length) = [] := List.drop_of_length_le (by omega)
    rw [hd, List.append_nil, List.take_of_length_le (by rw [hl]; omega)]

/-- **The loop of phase 3**: with the first chunks in place, the rest are opened in
order and the plaintext buffer is completed with their pieces. By induction on
the records that are left. -/
theorem sim_openLoop {storage : SecureBuffer} (ht : Table w f sh h storage rs) : ∀ (rest pre : List Record)
    (s : St) (y p : Bytes), rs = pre ++ rest → 1 ≤ pre.length →
    Working h rs k dk scratch plaintext y p s.heap.get →
    Refines (openLoop w dk sh h storage (entriesAt kHeaderSize rs) (.bytes f) plaintext scratch rest.length
        (UInt32.ofNat pre.length))
      (Ref.openRecords w k sh h (if (maxCompressed rs).toNat = 0 then none else some (maxCompressed rs).toNat)
        pre.length rest) s
      (fun _ ps s1 => ∃ y' p', y'.length = y.length ∧ p'.length = p.length ∧
        p' = p.take (pre.length * h.chunkSize.toNat) ++ ps.flatten ∧
        Heap.Becomes s.heap s1.heap (plaintext.over p' (scratch.over y' s.heap.get)))
      (fun s1 => ∃ y' p', y'.length = y.length ∧ p'.length = p.length ∧
        Heap.Becomes s.heap s1.heap (plaintext.over p' (scratch.over y' s.heap.get)))
  | [], pre, s, y, p, he, _, hw => by
    have hcov := ht.valid.covers
    have hlen := ht.length
    rw [he, List.append_nil] at hlen
    refine Sim.pure ⟨y, p, rfl, rfl, ?_, (Heap.Becomes.refl _).cast hw.same.symm⟩
    rw [List.flatten_nil, List.append_nil, List.take_of_length_le]
    rw [hw.size, hlen]
    exact hcov
  | r :: rest, pre, s, y, p, he, h1, hw => by
    have hmid : Table w f sh h storage (pre ++ r :: rest) := he ▸ ht
    obtain ⟨hix, hr, off, hentry, hct, hcts⟩ := Table.record pre hmid
    rw [← he] at hentry
    have hlt : pre.length < h.chunkCount.toNat := by
      rw [← hmid.length, List.length_append, List.length_cons]
      omega
    have hstart := ht.valid.start_lt hlt h1
    have hsz := hw.size
    have hslice : h.sliceSize pre.length = min h.chunkSize.toNat (p.length - pre.length * h.chunkSize.toNat) := by
      rw [hw.size]
      rfl
    obtain ⟨b, hd, hptr, hget⟩ := hw.holdsOut.ptr fun e => by
      have := hw.size
      rw [e] at this
      simp only [List.length_nil] at this
      omega
    have hout : plaintext.ptr.add ((UInt32.ofNat pre.length).toUInt64 * h.chunkSize.toUInt64).toNat =
        .into b (pre.length * h.chunkSize.toNat) := by
      rw [hptr, Ptr.add, mul32_toNat, hix, Nat.zero_add]
    have hroom : s.heap.room (.into b (pre.length * h.chunkSize.toNat)) =
        h.plaintextSize.toNat - pre.length * h.chunkSize.toNat := by
      rw [Heap.room, hget, Option.getD_some, hw.size]
    have hfit : (Ptr.into b (pre.length * h.chunkSize.toNat)).Fits (h.sliceSize pre.length) s.heap.get :=
      Ptr.fits_into hget (by omega)
    have hscr := scratch_room hw.holdsScratch
    rw [hw.room] at hscr
    have hy : r.chunk.compressed = true → r.ct.length ≤ y.length := fun hc => by
      rw [hr.size, hw.room]
      exact UInt32.le_iff_toNat_le.mp (le_maxCompressed (by simp [he]) hc)
    -- the piece goes to the front of what is not filled yet
    have hput {q z : Bytes} : (Ptr.into b (pre.length * h.chunkSize.toNat)).put q (scratch.over z s.heap.get) =
        plaintext.over (overwrite p (pre.length * h.chunkSize.toNat) q) (scratch.over z s.heap.get) := by
      have hg : (scratch.over z s.heap.get) b = some p := by
        rw [SecureBuffer.over_other (fun e => hw.scratch_ne b e hd)]
        exact hget
      rw [Ptr.put_into hg, SecureBuffer.over_data hd]
    have hlen {q : Bytes} (hq : q.length ≤ h.sliceSize pre.length) :
        (overwrite p (pre.length * h.chunkSize.toNat) q).length = p.length := overwrite_length (by omega)
    rw [List.length_cons, openLoop, Ref.openRecords]
    simp only [chunkPlainSize_eq, hix, hout, hentry]
    refine Sim.skip (show Prog.ofExcept (.ok _) s = (.ok _, s) from rfl) rfl ?_
    refine Sim.bind
      (sim_openChunk ht.valid ht.header_length hw.holdsKey hr hct hcts hfit hroom hw.holdsScratch hscr hy) ?_ ?_
    · rintro _ q s1 ⟨hq, y1, hy1, hb1⟩
      rw [hput] at hb1
      have hw1 := hw.write hy1 (hlen (le_of_eq hq))
      rw [← hb1.get_eq] at hw1
      have ih := sim_openLoop ht rest (pre ++ [r]) s1 y1 _ (by simp [he]) (by simp) hw1
      rw [List.length_append, List.length_singleton, UInt32.ofNat_add] at ih
      refine Sim.map ih ?_ ?_
      · rintro _ ps s2 ⟨y2, p2, hy2, hp2, he2, hb2⟩
        rw [hb1.get_eq, hw.twice] at hb2
        refine ⟨y2, p2, hy2.trans hy1, hp2.trans (hlen (le_of_eq hq)), ?_, hb1.trans hb2⟩
        rw [he2, take_overwrite (by rw [hw.size]; omega) (by rw [hq, hslice]), List.flatten_cons, List.append_assoc]
      · rintro s2 ⟨y2, p2, hy2, hp2, hb2⟩
        rw [hb1.get_eq, hw.twice] at hb2
        exact ⟨y2, p2, hy2.trans hy1, hp2.trans (hlen (le_of_eq hq)), hb1.trans hb2⟩
    · rintro s1 ⟨y1, q, hy1, hq, hb1⟩
      rw [hput] at hb1
      exact ⟨y1, _, hy1, hlen hq, hb1⟩

/-! ### The scopes around it -/

/-- The scope of a buffer around a run that returns another: `G` says what memory
may be outside of the scope. -/
theorem sim_scope (h0 : Heap) {buf : SecureBuffer} {body : Run (SecureBuffer × ℕ)} {m' : Ref Bytes}
    {G : (ℕ → Option Bytes) → Prop} (hG : ∀ g, G g → buf.Fresh g)
    (hr : Refines body m' s
      (fun a b s1 => ∃ g x, G g ∧ buf.Holds (buf.over x g) x ∧ InScope h0 (buf.over x g) a.1 b s1 ∧ a.2 = b.length)
      (fun s1 => ∃ g x, G g ∧ buf.Holds (buf.over x g) x ∧ Heap.Becomes h0 s1.heap (buf.over x g))) :
    Refines (guarded buf body) m' s (fun a b s1 => ∃ g, G g ∧ InScope h0 g a.1 b s1 ∧ a.2 = b.length)
      (fun s1 => ∃ g, G g ∧ Heap.Becomes h0 s1.heap g) := by
  refine (sim_scopeOf h0 Prod.fst (K := fun a b y => y = b ∧ a.2 = b.length) hG hG (hr.mono ?_ fun _ h => h)).mono ?_
    fun _ h => h
  · rintro a b s1 ⟨g, x, hg, hx, hs, hl⟩
    exact ⟨g, x, b, hg, hx, ⟨rfl, hl⟩, hs⟩
  · rintro a b s1 ⟨g, _, hg, ⟨rfl, hl⟩, hs⟩
    exact ⟨g, hg, hs, hl⟩

/-- The first piece is copied to the front of the plaintext buffer. -/
theorem copyFirst_run {s : St} {first plaintext : SecureBuffer} {p0 x : Bytes} (hf : first.Holds s.heap.get p0)
    (hp : plaintext.Holds s.heap.get x) (hle : p0.length ≤ x.length) : ∃ s',
    copyFirst first plaintext p0.length s = (.ok (), s') ∧ s'.trace = s.trace ∧
      Heap.Becomes s.heap s'.heap (plaintext.over (overwrite x 0 p0) s.heap.get) := by
  unfold copyFirst
  by_cases h0 : p0.length > 0
  · rw [if_pos h0]
    obtain ⟨b, hd, hptr, hget⟩ := hf.ptr (fun e => by simp [e] at h0)
    have hl : load first.ptr p0.length s = (.ok p0, s) := by
      rw [hptr, load_run hget (by omega), slice_all]
    obtain ⟨s', e', t', b'⟩ := store_run (hp.fits hle)
    exact ⟨s', by rw [bind_ok hl, e'], t', b'.cast (hp.put hle)⟩
  · rw [if_neg h0]
    have hnil : p0 = [] := List.eq_nil_of_length_eq_zero (by omega)
    refine ⟨s, rfl, rfl, (Heap.Becomes.refl _).cast ?_⟩
    rw [hnil, overwrite_nil, hp.over_eq]

/-- A buffer made next to the key and the scratch is apart from both. -/
theorem apart_of_scope {h0 : Heap} {buf : SecureBuffer} {x : Bytes} (hk : dk.Holds g k.1) (hsc : scratch.Holds g y)
    (hne : ∀ b, dk.data = some b → scratch.data ≠ some b) (hs : InScope h0 g buf x s) :
    SecureBuffer.Apart dk scratch buf k.1 y x s.heap.get := by
  rw [hs.becomes.get_eq]
  exact ⟨hk.over (hs.fresh.ne hk) x, hsc.over (hs.fresh.ne hsc) x, hs.holds.put_back _, hne, hs.fresh.ne hk,
    hs.fresh.ne hsc⟩

/-- With the first piece in place, the loop can begin. -/
theorem copyFirst_working {h0 : Heap} {first : SecureBuffer} {p0 : Bytes}
    (ha : SecureBuffer.Apart dk scratch first k.1 y p0 g) (hy : y.length = (maxCompressed rs).toNat)
    (hp0 : p0.length = h.sliceSize 0) (h1 : InScope h0 g plaintext (zeros h.plaintextSize.toNat) s) : ∃ p s',
    copyFirst first plaintext (h.sliceSize 0) s = (.ok (), s') ∧ s'.trace = s.trace ∧ p.take h.chunkSize.toNat = p0 ∧
      Working h rs k dk scratch plaintext y p s'.heap.get ∧ Heap.Becomes h0 s'.heap (plaintext.over p g) := by
  have hg1 := h1.becomes.get_eq
  have ha1 := apart_of_scope ha.holdsKey ha.holdsScratch ha.key_ne_scratch h1
  have hf1 : first.Holds s.heap.get p0 := by
    rw [hg1]
    exact ha.holdsOut.over (h1.fresh.ne ha.holdsOut) _
  have hle : p0.length ≤ (zeros h.plaintextSize.toNat).length := by
    rw [hp0, zeros_length, FileHeader.sliceSize]
    omega
  have hlen : (overwrite (zeros h.plaintextSize.toNat) 0 p0).length = (zeros h.plaintextSize.toNat).length :=
    overwrite_length (by omega)
  obtain ⟨s2, e2, t2, b2⟩ := copyFirst_run hf1 h1.holds hle
  rw [hp0] at e2
  refine ⟨_, s2, e2, t2, ?_, ⟨?_, hy, hlen.trans (zeros_length _)⟩, ?_⟩
  · have := take_overwrite (p := zeros h.plaintextSize.toNat) (q := p0) (C := h.chunkSize.toNat) (i := 0)
      (by simp) (by rw [hp0, zeros_length]; rfl)
    simpa using this
  · have hw := ha1.write rfl hlen
    rw [ha1.holdsScratch.over_eq] at hw
    rw [b2.get_eq]
    exact hw
  · refine (h1.becomes.trans b2).cast ?_
    rw [hg1, SecureBuffer.over_over]

/-- **Phase 3** completes the plaintext, in a buffer of its own. -/
theorem sim_finish {h0 : Heap} {storage first : SecureBuffer} {r : Record} {rest : List Record} {p0 : Bytes}
    (ht : Table w f sh h storage (r :: rest)) (hs : Heap.Becomes h0 s.heap g)
    (ha : SecureBuffer.Apart dk scratch first k.1 y p0 g) (hp0 : p0.length = h.sliceSize 0)
    (hy : y.length = (maxCompressed (r :: rest)).toNat) :
    Refines (finish w dk sh h storage (entriesAt kHeaderSize (r :: rest)) (.bytes f) first scratch (h.sliceSize 0))
      (Ref.finish w k sh h (if (maxCompressed (r :: rest)).toNat = 0 then none else
        some (maxCompressed (r :: rest)).toNat) p0 rest) s
      (fun a b s1 => ∃ y', y'.length = y.length ∧ InScope h0 (scratch.over y' g) a.1 b s1 ∧ a.2 = b.length)
      (fun s1 => ∃ y', y'.length = y.length ∧ Heap.Becomes h0 s1.heap (scratch.over y' g)) := by
  have hsame : scratch.over y g = g := ha.holdsScratch.over_eq
  have hstop {s1 : St} (hb : Heap.Becomes h0 s1.heap g) :
      ∃ y', y'.length = y.length ∧ Heap.Becomes h0 s1.heap (scratch.over y' g) := ⟨y, rfl, by rwa [hsame]⟩
  unfold finish Ref.finish
  refine Sim.throwIf (fun _ => hstop hs) fun hmax => ?_
  rw [SizeT.cast_of_le (Nat.not_lt.mp hmax)]
  refine Sim.bind (sim_newBuffer w .plaintext _ hs) (fun plaintext _ s1 h1 => ?_) fun _ hb => hstop hb
  have hfresh (y' : Bytes) : plaintext.Fresh (scratch.over y' g) := by
    have := h1.fresh
    rw [← hsame] at this
    exact this.over y'
  refine sim_onStop h0 (E := fun s2 => ∃ y' p', y'.length = y.length ∧
    Heap.Becomes h0 s2.heap (plaintext.over p' (scratch.over y' g)) ∧ plaintext.Holds s2.heap.get p') ?_ ?_
  · obtain ⟨p, s2, e2, t2, hfront, hw, hb2⟩ := copyFirst_working ha hy hp0 h1
    refine Sim.skip e2 t2 ?_
    have hagain (y' p' : Bytes) : plaintext.over p' (scratch.over y' s2.heap.get) =
        plaintext.over p' (scratch.over y' g) := by
      rw [hb2.get_eq, ← SecureBuffer.over_comm scratch plaintext hw.scratch_ne, SecureBuffer.over_over]
    have hcount : h.chunkCount.toNat - 1 = rest.length := by
      rw [← ht.length, List.length_cons]
      omega
    rw [hcount, show (1 : UInt32) = UInt32.ofNat ([r] : List Record).length from rfl]
    refine Sim.bind (sim_openLoop ht rest [r] s2 y p rfl (le_refl _) hw) ?_ ?_
    · rintro _ ps s3 ⟨y', p', hy', hp', he, hb⟩
      rw [hagain] at hb
      rw [List.length_singleton, Nat.one_mul, hfront] at he
      refine Sim.bind (sim_emit _ s3) ?_ (fun _ h => h.elim)
      rintro _ _ s4 rfl
      refine Sim.pure ⟨y', hy', ?_, by rw [← he, hp', hw.size]⟩
      rw [← he]
      refine ⟨hb2.trans hb, ?_, hfresh y'⟩
      have := (hw.write hy' hp').holdsOut
      rw [hagain] at this
      exact hb.get_eq ▸ this
    · rintro s3 ⟨y', p', hy', hp', hb⟩
      rw [hagain] at hb
      have := (hw.write hy' hp').holdsOut
      rw [hagain, ← hb.get_eq] at this
      exact ⟨y', p', hy', hb2.trans hb, this⟩
  · rintro s2 ⟨y', p', hy', hb, hh⟩
    exact ⟨scratch.over y' g, p', ⟨hb, hh, hfresh y'⟩, fun s3 h3 => ⟨y', hy', h3⟩⟩

/-! ### DecryptBuffer -/

/-- The scratch is allocated only if there is a compressed chunk. -/
theorem sim_scratch {h0 : Heap} (m : UInt32) (hs : Heap.Becomes h0 s.heap g) :
    Refines (newScratch w m) (Ref.alloc w .scratch m.toNat) s
      (fun buf _ s1 => InScope h0 g buf (zeros m.toNat) s1) (fun s1 => Heap.Becomes h0 s1.heap g) := by
  unfold newScratch
  by_cases hm : m > 0
  · rw [if_pos hm]
    exact sim_newBuffer w .scratch _ hs
  · have h0 : m = 0 := UInt32.not_lt.mp hm |> fun h => UInt32.le_antisymm h (UInt32.zero_le)
    subst h0
    rw [if_neg hm]
    exact .inl ⟨{}, (), s, rfl, rfl, hs, .empty, fun b hb => by cases hb⟩

/-- The room of a new buffer is its size. -/
theorem room_of_holds {buf : SecureBuffer} {x : Bytes} (hb : buf.Holds s.heap.get x) :
    s.heap.room buf.ptr = x.length := by
  rcases x with _ | ⟨c, x⟩
  · rw [hb.ptr_null]
    rfl
  · obtain ⟨b, -, hptr, hget⟩ := hb.ptr (List.cons_ne_nil c x)
    rw [hptr, Heap.room, hget]
    rfl

/-- **Phase 2**: the first record is opened into a buffer of its own. -/
theorem sim_openFirst {storage first : SecureBuffer} {r : Record} {rest : List Record} {off : ℕ}
    (ht : Table w f sh h storage (r :: rest)) (hr : r.Fits h 0) (hct : off + r.ct.length ≤ f.length)
    (hcts : slice f off r.ct.length = r.ct) (ha : SecureBuffer.Apart dk scratch first k.1 y p s.heap.get)
    (hy : y.length = (maxCompressed (r :: rest)).toNat) (hp : p.length = h.sliceSize 0) :
    Refines (openChunk w dk sh h 0 ⟨off, r.chunk, r.tag⟩ (.bytes f) first.ptr (h.sliceSize 0) scratch)
      (Ref.openRecord w k sh h (if (maxCompressed (r :: rest)).toNat = 0 then none else
        some (maxCompressed (r :: rest)).toNat) 0 (h.sliceSize 0) r) s
      (fun _ p0 s1 => p0.length = h.sliceSize 0 ∧ ∃ y', y'.length = y.length ∧
        Heap.Becomes s.heap s1.heap (first.over p0 (scratch.over y' s.heap.get)))
      (fun s1 => ∃ y' p', y'.length = y.length ∧ p'.length = p.length ∧
        Heap.Becomes s.heap s1.heap (first.over p' (scratch.over y' s.heap.get))) := by
  have hscr := scratch_room ha.holdsScratch
  rw [hy] at hscr
  have hput {q y' : Bytes} (hq : q.length ≤ h.sliceSize 0) : first.ptr.put q (scratch.over y' s.heap.get) =
      first.over (overwrite p 0 q) (scratch.over y' s.heap.get) :=
    (ha.holdsOut.over (fun c hc hs => ha.scratch_ne c hs hc) y').put (by omega)
  refine (sim_openChunk ht.valid ht.header_length ha.holdsKey hr hct hcts (ha.holdsOut.fits (by omega))
    ((room_of_holds ha.holdsOut).trans hp) ha.holdsScratch hscr fun hc => ?_).mono ?_ ?_
  · rw [hr.size, hy]
    exact UInt32.le_iff_toNat_le.mp (le_maxCompressed (by simp) hc)
  · rintro _ p0 s1 ⟨hp0, y', hy', hb⟩
    have hall : overwrite p 0 p0 = p0 := by simp [overwrite, hp0, hp]
    rw [hput (le_of_eq hp0), hall] at hb
    exact ⟨hp0, y', hy', hb⟩
  · rintro s1 ⟨y', q, hy', hq, hb⟩
    rw [hput hq] at hb
    exact ⟨y', _, hy', overwrite_length (by omega), hb⟩

/-- **Phases 2 and 3**, in memory `g` with the derived key. -/
theorem sim_openAll {h0 : Heap} {storage : SecureBuffer} (ht : Table w f sh h storage rs)
    (hs : Heap.Becomes h0 s.heap g) (hk : dk.Holds g k.1) :
    Refines (do
        let scratch ← newScratch w (walkOf rs).maxCompressed
        guarded scratch do
          let firstPlainSize := chunkPlainSize w.sizeT h.plaintextSize h.chunkSize 0
          let firstChunk ← newBuffer w .firstChunk firstPlainSize
          guarded firstChunk do
            let entry ← Prog.ofExcept (entryAt w.sizeT storage (walkOf rs).entries 0)
            openChunk w dk sh h 0 entry (.bytes f) firstChunk.ptr firstPlainSize scratch
            finish w dk sh h storage (walkOf rs).entries (.bytes f) firstChunk scratch firstPlainSize)
      (Ref.openAll w k sh h rs) s
      (fun a b s1 => ∃ g', g' = g ∧ InScope h0 g' a.1 b s1 ∧ a.2 = b.length)
      (fun s1 => ∃ g', g' = g ∧ Heap.Becomes h0 s1.heap g') := by
  obtain ⟨r, rest, rfl⟩ : ∃ r rest, rs = r :: rest := by
    cases rs with
    | nil => exact absurd ht.length (by have := ht.valid.count_pos; simp only [List.length_nil]; omega)
    | cons r rest => exact ⟨r, rest, rfl⟩
  obtain ⟨-, hr, off, hentry, hct, hcts⟩ := Table.record [] ht
  simp only [walkOf_max, walkOf_entries, chunkPlainSize_eq, UInt32.toNat_zero]
  unfold Ref.openAll
  refine Sim.bind (sim_scratch _ hs) (fun scratch _ s1 h1 => ?_) fun _ hb => ⟨g, rfl, hb⟩
  have hm := zeros_length (maxCompressed (r :: rest)).toNat
  generalize zeros (maxCompressed (r :: rest)).toNat = z at h1 hm
  have hback (y' : Bytes) (hy' : y'.length = z.length) : scratch.Holds (scratch.over y' g) y' :=
    (h1.holds.change hy').put_back g
  refine sim_scope h0 (by rintro _ rfl; exact h1.fresh) ?_
  refine Sim.bind (sim_newBuffer w .firstChunk _ h1.becomes) (fun first _ s2 h2 => ?_)
    fun s2 hb => ⟨g, z, rfl, hback z rfl, hb⟩
  have ha := apart_of_scope (hk.over (h1.fresh.ne hk) z) (hback z rfl) (h1.fresh.ne hk) h2
  -- inside the scope of the first chunk, memory outside of it is `g` but for the scratch
  have hview (p' y' : Bytes) : first.over p' (scratch.over y' s2.heap.get) = first.over p' (scratch.over y' g) := by
    rw [h2.becomes.get_eq, ← SecureBuffer.over_comm scratch first ha.scratch_ne, SecureBuffer.over_over,
      SecureBuffer.over_over]
  have hfirst {p' : Bytes} (hp' : p'.length = (zeros (h.sliceSize 0)).length) (y' : Bytes) :
      first.Holds (first.over p' (scratch.over y' g)) p' := (h2.holds.change hp').put_back _
  refine (sim_scope h0 (G := fun g' => ∃ y', y'.length = z.length ∧ g' = scratch.over y' g)
    (by rintro _ ⟨y', -, rfl⟩; exact h2.fresh.over y') ?_).mono ?_ ?_
  · rw [List.nil_append] at hentry
    rw [show (0 : UInt32) = UInt32.ofNat ([] : List Record).length from rfl, hentry]
    refine Sim.skip (show Prog.ofExcept (.ok _) s2 = (.ok _, s2) from rfl) rfl ?_
    refine Sim.bind (sim_openFirst ht hr hct hcts ha hm (zeros_length _)) ?_ ?_
    · rintro _ p0 s3 ⟨hp0, y', hy', hb3⟩
      have hp : p0.length = (zeros (h.sliceSize 0)).length := hp0.trans (zeros_length _).symm
      have ha3 := ha.write hy' hp
      rw [← hb3.get_eq] at ha3
      rw [hview] at hb3
      have hagain (y2 : Bytes) : scratch.over y2 s3.heap.get = first.over p0 (scratch.over y2 g) := by
        rw [hb3.get_eq, ← SecureBuffer.over_comm scratch first ha.scratch_ne, SecureBuffer.over_over]
      have hs3 : Heap.Becomes h0 s3.heap s3.heap.get := (h2.becomes.trans hb3).cast hb3.get_eq.symm
      refine (sim_finish ht hs3 ha3 hp0 (hy'.trans hm)).mono ?_ ?_
      · rintro a b s4 ⟨y2, hy2, hs4, hl⟩
        rw [hagain] at hs4
        exact ⟨_, p0, ⟨y2, hy2.trans hy', rfl⟩, hfirst hp y2, hs4, hl⟩
      · rintro s4 ⟨y2, hy2, hb4⟩
        rw [hagain] at hb4
        exact ⟨_, p0, ⟨y2, hy2.trans hy', rfl⟩, hfirst hp y2, hb4⟩
    · rintro s3 ⟨y', p', hy', hp', hb3⟩
      rw [hview] at hb3
      exact ⟨_, p', ⟨y', hy', rfl⟩, hfirst hp' y', h2.becomes.trans hb3⟩
  · rintro a b s3 ⟨_, ⟨y', hy', rfl⟩, hs3, hl⟩
    exact ⟨g, y', rfl, hback y' hy', hs3, hl⟩
  · rintro s3 ⟨_, ⟨y', hy', rfl⟩, hb⟩
    exact ⟨g, y', rfl, hback y' hy', hb⟩

/-- **DecryptBuffer refines the reader**: it ends as the reader does with the same
trace, without a fault, and leaves memory as it was but for the plaintext it
returns. -/
theorem decryptBuffer_refines (w : World) (key input : Span) (s : St) (hin : input.size ≤ w.sizeT.max) :
    Refines (decryptBuffer w key input) (Ref.decrypt w key input) s
      (fun a b s1 => InScope s.heap s.heap.get a.1 b s1 ∧ a.2 = b.length)
      (fun s1 => Heap.Becomes s.heap s1.heap s.heap.get) := by
  have hs := Heap.Becomes.refl s.heap
  unfold decryptBuffer Ref.decrypt
  refine Sim.throwIf (fun _ => hs) fun hnull => Sim.throwIf (fun _ => hs) fun _ => ?_
  have hbytes : input = .bytes input.toBytes := Span.eq_bytes (by simpa using (not_or.mp hnull).2)
  generalize input.toBytes = f at hbytes
  subst hbytes
  refine Sim.bind (R := fun a b s1 => a = b ∧ s1 = s ∧ parseFileHeader (.bytes f) = .ok b)
    (Sim.ofExcept (parseFileHeader_status _) (fun a ha => ⟨rfl, rfl, ?_⟩) hs) ?_ (fun _ h => h)
  · rw [parseFileHeader_status, ha]
    rfl
  rintro h _ s1 ⟨rfl, rfl, hparse⟩
  obtain ⟨hlen, hv, -⟩ := parseFileHeader_ok_iff.mp hparse
  refine Sim.bind (sim_walkChunkTable hin hlen hv hs) ?_ (fun _ h => h)
  rintro ⟨storage, walk⟩ rs s2 ⟨h2, hwalk, hrec⟩
  dsimp only at h2 hwalk ⊢
  subst hwalk
  generalize hz : zeros (h.chunkCount.toNat * w.sizeT.sizeofChunkEntry) = z at h2
  have ht : Table w f (slice f 0 kHeaderSize) h storage rs :=
    ⟨hv, hlen, rfl, hrec, by rw [h2.holds.size, ← hz, zeros_length]⟩
  have hhdr : (Span.bytes f).read 0 kHeaderSize = .ok (slice f 0 kHeaderSize) :=
    Span.read_bytes (by rw [Nat.zero_add]; exact hlen)
  refine (sim_scope s1.heap (G := (· = s1.heap.get)) (by rintro _ rfl; exact h2.fresh) ?_).mono ?_ ?_
  · rw [hhdr]
    refine Sim.skip (show Prog.ofExcept (.ok _) s2 = (.ok _, s2) from rfl) rfl ?_
    have hback := h2.holds.put_back s1.heap.get
    refine Sim.bind (sim_deriveKey _ _ _ _ _ h2.becomes) (fun dk k s3 h3 => ?_) fun s3 hb => ⟨_, _, rfl, hback, hb⟩
    refine (sim_scope s1.heap (G := (· = storage.over z s1.heap.get)) (by rintro _ rfl; exact h3.fresh) ?_).mono ?_ ?_
    · have hk : dk.Holds (dk.over k.1 (storage.over z s1.heap.get)) k.1 := h3.holds.put_back _
      refine (sim_openAll ht h3.becomes hk).mono ?_ ?_
      · rintro a b s4 ⟨_, rfl, hs4, hl⟩
        exact ⟨_, k.1, rfl, hk, hs4, hl⟩
      · rintro s4 ⟨_, rfl, hb⟩
        exact ⟨_, k.1, rfl, hk, hb⟩
    · rintro a b s4 ⟨_, rfl, hs4, hl⟩
      exact ⟨_, _, rfl, hback, hs4, hl⟩
    · rintro s4 ⟨_, rfl, hb⟩
      exact ⟨_, _, rfl, hback, hb⟩
  · rintro a b s3 ⟨_, rfl, hs3, hl⟩
    exact ⟨hs3, hl⟩
  · rintro s3 ⟨_, rfl, hb⟩
    exact hb

end Decrypt
end ModelCrypt
