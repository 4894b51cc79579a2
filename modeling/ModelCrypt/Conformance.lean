/-
# The writer conforms to the format

A run of `EncryptBuffer` that ends well is read off call by call: the first
two draws are the salt and the prefix, then the key is derived, then deflate
is asked once for each slice (`deflateTime`), if it is asked at all. What is
returned is the file of the format document with the streams that helped
(`encryptBuffer_conforms`), whether or not it was copied down.

Key definitions: `deflateTime`, `streams`, `Conforms`.
Key theorems: `sealRecords_ok`, `encrypt_ok`, `encryptBuffer_conforms`.
-/
import ModelCrypt.FormatSpec
import ModelCrypt.EncryptSizes

namespace ModelCrypt
namespace Encrypt

open Lib Prog

/-! ### When deflate is asked -/

def isDeflated : Event → Bool
  | .deflated .. => true
  | _ => false

/-- When the call from `s` to `s1` asked deflate about the slice at position `i`. -/
def deflateTime (s s1 : St) : ℕ → ℕ := timeSince isDeflated s.trace s1.trace

section Calls

variable {w : World}

theorem keeps_newScratch (compress : Bool) (size : UInt32) :
    Keeps (times isDeflated) (Ref.newScratch w compress size) := by
  cases compress with
  | false => exact Keeps.pure
  | true => exact Ref.keeps_alloc (fun _ _ _ => rfl) _ _

theorem keeps_shrink (room size : ℕ) : Keeps (times isDeflated) (Ref.shrink w room size) := by
  unfold Ref.shrink
  split
  · exact Ref.keeps_alloc (fun _ _ _ => rfl) _ _
  · exact Keeps.pure

end Calls

/-! ### The records of a run that ends well -/

section Records

variable {w : World} {k : ByteVec kKeySize} {h : FileHeader} {compress : Bool} {room i : ℕ} {p : Bytes}
  {tr tr' : List Event}

theorem ask_ok {α : Type} {ev : Except McStatus α → Event} {r : ℕ → Except McStatus α} {a : α}
    (h : Ref.ask ev r tr = (.ok a, tr')) : r tr.length = .ok a ∧ tr' = tr ++ [ev (.ok a)] := by
  obtain ⟨h1, h2⟩ := Prod.mk.inj h
  rw [← h2, h1]
  exact ⟨rfl, rfl⟩

theorem deflateResult_not_smaller {d z : Bytes} {t : ℕ} (hz : deflateResult w d room t = .ok (z, false)) :
    ¬ ((w.deflate t d room).rc = .streamEnd ∧ (w.deflate t d room).out.length < d.length) := by
  rintro ⟨hrc, hlt⟩
  unfold deflateResult at hz
  simp only [failIf_bind, hrc, ne_eq, not_true_eq_false, if_false] at hz
  split at hz
  · cases hz
  · exact of_decide_eq_false (Prod.mk.inj (Except.ok.inj hz)).2 hlt

/-- **A packed slice** is stored as the stream deflate answers at that time, if that helps. -/
theorem pack_ok {a : ChunkHeader × Bytes} (hr : Ref.pack w compress room p tr = (.ok a, tr')) :
    a.2 = (Spec.stored p (Spec.deflated w compress room tr.length p)).1 ∧
    a.1 = ⟨a.2.length.toUInt32, (Spec.stored p (Spec.deflated w compress room tr.length p)).2⟩ ∧
    times isDeflated tr' = times isDeflated tr ++ if compress = true ∧ p ≠ [] then [tr.length] else [] := by
  unfold Ref.pack at hr
  have hpos : p.length > 0 ↔ p ≠ [] := List.length_pos_iff
  by_cases hc : compress = true ∧ p ≠ []
  · rw [if_pos (by rwa [hpos]), bind_eq_ok] at hr
    obtain ⟨⟨z, smaller⟩, tr1, h1, h2⟩ := hr
    obtain ⟨hz, rfl⟩ := ask_ok h1
    rw [if_pos hc]
    cases smaller with
    | true =>
      cases h2
      obtain ⟨hrc, hout, hlt⟩ := deflateResult_smaller hz
      have hd : Spec.deflated w compress room tr.length p = some z := by
        rw [← hout] at hlt ⊢
        exact if_pos ⟨hc.1, hc.2, hrc, hlt⟩
      rw [hd]
      exact ⟨rfl, rfl, times_snoc ..⟩
    | false =>
      cases h2
      have hd : Spec.deflated w compress room tr.length p = none :=
        if_neg fun e => deflateResult_not_smaller hz e.2.2
      rw [hd]
      exact ⟨rfl, rfl, times_snoc ..⟩
  · rw [if_neg (by rwa [hpos])] at hr
    cases hr
    have hd : Spec.deflated w compress room tr.length p = none := if_neg fun e => hc ⟨e.1, e.2.1⟩
    rw [hd, if_neg hc, List.append_nil]
    exact ⟨rfl, rfl, rfl⟩

/-- What is stored is no longer than the slice. -/
theorem stored_le (w : World) (compress : Bool) (room t : ℕ) (p : Bytes) :
    (Spec.stored p (Spec.deflated w compress room t p)).1.length ≤ p.length := by
  unfold Spec.deflated
  split_ifs with hz
  · exact le_of_lt hz.2.2.2
  · exact le_refl _

/-- **The record of a slice** is its chunk. -/
theorem sealRecord_ok {r : Record} (hi : i < 2 ^ 32) (hl : p.length < 2 ^ 32)
    (hr : Ref.sealRecord w k (serializeFileHeader h) h compress i p tr = (.ok r, tr')) :
    r.bytes = Spec.chunkOf w k.1 h i p (Spec.deflated w compress (maxStoredSizeFor h.chunkSize).toNat tr.length p) ∧
    times isDeflated tr' = times isDeflated tr ++ if compress = true ∧ p ≠ [] then [tr.length] else [] := by
  unfold Ref.sealRecord at hr
  simp only [bind_eq_ok] at hr
  obtain ⟨a, tr1, h1, b, tr2, h2, h3⟩ := hr
  obtain ⟨hp, hc, ht⟩ := pack_ok h1
  obtain ⟨hs, rfl⟩ := ask_ok h2
  obtain ⟨hct, htag⟩ := sealResult_ok hs
  obtain ⟨hrec, rfl⟩ := Prod.mk.inj h3
  have hrec : r = ⟨a.1, b.2, b.1⟩ := (Except.ok.inj hrec).symm
  have hle := stored_le w compress (maxStoredSizeFor h.chunkSize).toNat tr.length p
  rw [← hp] at hle
  have h32 : a.2.length < 2 ^ 32 := by omega
  have hsize : a.1.storedSize.toNat = a.2.length := by
    rw [hc]
    exact UInt32.toNat_ofNat_of_lt' h32
  have hflags : a.1.flags =
      (Spec.stored p (Spec.deflated w compress (maxStoredSizeFor h.chunkSize).toNat tr.length p)).2 := by
    rw [hc]
  refine ⟨?_, by rw [times_snoc, ht]; simp [isDeflated]⟩
  subst hrec
  have hbytes := Spec.chunk_eq (r := ⟨a.1, b.2, b.1⟩) hi hsize hct htag
  rw [hbytes, Spec.chunkOf, ← hp, ← hflags]

/-- **The records of the slices** from a position on are their chunks: by induction on the slices. -/
theorem sealRecords_ok : ∀ (ps : List Bytes) (i : ℕ) (tr tr' : List Event) (rs : List Record),
    (compress = true → ∀ p ∈ ps, p ≠ []) → (∀ p ∈ ps, p.length < 2 ^ 32) → i + ps.length ≤ 2 ^ 32 →
    Ref.sealRecords w k (serializeFileHeader h) h compress i ps tr = (.ok rs, tr') →
    ∃ ts, times isDeflated tr' = times isDeflated tr ++ ts ∧ recordBytes rs = (List.range ps.length).flatMap fun j =>
      Spec.chunkOf w k.1 h (i + j) (ps.getD j [])
        (Spec.deflated w compress (maxStoredSizeFor h.chunkSize).toNat (ts.getD j 0) (ps.getD j []))
  | [], i, tr, tr', rs, _, _, _, hr => by
    cases hr
    exact ⟨[], by rw [List.append_nil], rfl⟩
  | p :: ps, i, tr, tr', rs, hne, hl, hi, hr => by
    rw [Ref.sealRecords] at hr
    simp only [bind_eq_ok] at hr
    obtain ⟨r, tr1, h1, rs', tr2, h2, h3⟩ := hr
    obtain ⟨hrs, rfl⟩ := Prod.mk.inj h3
    obtain rfl : r :: rs' = rs := Except.ok.inj hrs
    rw [List.length_cons] at hi ⊢
    obtain ⟨hbytes, ht⟩ := sealRecord_ok (by omega) (hl p List.mem_cons_self) h1
    obtain ⟨ts, ht', hrest⟩ := sealRecords_ok ps (i + 1) tr1 tr2 rs' (fun hc q hq =>
      hne hc q (List.mem_cons_of_mem p hq))
      (fun q hq => hl q (List.mem_cons_of_mem p hq)) (by omega) h2
    have hcons : recordBytes (r :: rs') = r.bytes ++ recordBytes rs' := rfl
    have hstep (j : ℕ) : i + 1 + j = i + (j + 1) := by omega
    simp only [hcons, hbytes, hrest, List.range_succ_eq_map, List.flatMap_cons, List.flatMap_map]
    cases compress with
    | true =>
      have hp := hne rfl p List.mem_cons_self
      rw [if_pos ⟨rfl, hp⟩] at ht
      exact ⟨tr.length :: ts, by rw [ht', ht, List.append_assoc]; rfl, by simp only [hstep]; rfl⟩
    | false =>
      rw [if_neg (by simp), List.append_nil] at ht
      refine ⟨ts, by rw [ht', ht], ?_⟩
      have hnone (t : ℕ) (q : Bytes) : Spec.deflated w false (maxStoredSizeFor h.chunkSize).toNat t q = none :=
        if_neg (by simp)
      simp only [hnone, hstep]
      rfl

end Records

/-! ### The file of a run that ends well -/

section File

variable {w : World} {key input : Span} {opts : EncryptOptions} {tr tr' : List Event}

theorem fill_ok {n : ℕ} {b : ByteVec n} (h0 : n ≠ 0) (hn : n ≤ int32Max) (hr : fill w n tr = (.ok b, tr')) :
    w.rand tr.length n = some b ∧ tr' = tr ++ [.drawn n (some b.1)] := by
  rw [fill_eq h0 hn] at hr
  rcases hb : w.rand tr.length n with _ | x <;> rw [hb] at hr <;> cases hr
  exact ⟨rfl, rfl⟩

theorem deriveKey_ok {salt : Bytes} {logN : UInt8} {r p : UInt32} {k : ByteVec kKeySize}
    (hsalt : salt.length = kSaltSize)
    (hk : key.isNull = false) (hs : mcMinKeySize ≤ key.size)
      (hr : Ref.deriveKey w key salt logN r p tr = (.ok k, tr')) :
    w.scrypt (tr.length + 1) (scryptArgs key.toBytes salt logN r p) = some k ∧
      times isDeflated tr' = times isDeflated tr := by
  rw [Ref.deriveKey_eq hk hs hsalt, bind_eq_ok] at hr
  obtain ⟨_, tr1, h1, h2⟩ := hr
  rw [Ref.alloc_eq (by decide)] at h1
  split at h1 <;> cases h1
  rw [Ref.scrypt_eq, List.length_append, List.length_singleton] at h2
  rcases hk : w.scrypt (tr.length + 1) (scryptArgs key.toBytes salt logN r p) with _ | x <;> rw [hk] at h2 <;> cases h2
  refine ⟨rfl, ?_⟩
  rw [times_snoc, times_snoc]
  simp [isDeflated]

theorem pieces_getD {h : FileHeader} {pt : Bytes} {i : ℕ} (hi : i < h.chunkCount.toNat) :
    (h.pieces pt).getD i [] = Spec.sliceAt h pt i := by
  rw [List.getD_eq_getElem?_getD, FileHeader.pieces, List.getElem?_map, List.getElem?_range' hi, Nat.zero_add,
    Nat.one_mul]
  rfl

/-- A slice of a plaintext that is not empty is not empty. -/
theorem sliceAt_ne {h : FileHeader} {pt : Bytes} {i : ℕ} (hv : h.Valid) (hl : pt.length = h.plaintextSize.toNat)
    (hpt : pt ≠ []) (hi : i < h.chunkCount.toNat) : Spec.sliceAt h pt i ≠ [] := by
  have hpos := hv.chunkSize_pos
  have hlen := List.length_pos_iff.mpr hpt
  have hstart : i * h.chunkSize.toNat < pt.length := by
    rcases Nat.eq_zero_or_pos i with rfl | h0
    · omega
    · rw [hl]
      exact hv.start_lt hi h0
  refine List.length_pos_iff.mp ?_
  rw [Spec.sliceAt, slice_length]
  omega

theorem sliceAt_le (h : FileHeader) (pt : Bytes) (i : ℕ) : (Spec.sliceAt h pt i).length ≤ h.chunkSize.toNat := by
  rw [Spec.sliceAt, slice_length]
  exact Nat.min_le_left ..

/-- Empty slices are never deflated. -/
theorem sealRecords_empty {k : ByteVec kKeySize} {h : FileHeader} {sh : Bytes} {compress : Bool} :
    ∀ (ps : List Bytes) (i : ℕ), (∀ p ∈ ps, p = []) →
      Ref.sealRecords w k sh h compress i ps = Ref.sealRecords w k sh h false i ps
  | [], _, _ => rfl
  | p :: ps, i, hp => by
    obtain rfl := hp p List.mem_cons_self
    have hpack (room : ℕ) : Ref.pack w compress room [] = Ref.pack w false room [] := by
      simp [Ref.pack]
    simp only [Ref.sealRecords, Ref.sealRecord, hpack, sealRecords_empty ps (i + 1) fun q hq =>
      hp q (List.mem_cons_of_mem _ hq)]

/-- The streams that are stored when deflate is asked at the times `ts`. -/
def streams (w : World) (opts : EncryptOptions) (h : FileHeader) (times : ℕ → ℕ) (pt : Bytes) (i : ℕ) : Option Bytes :=
  Spec.deflated w (wantCompression opts) (maxStoredSizeFor h.chunkSize).toNat (times i) (Spec.sliceAt h pt i)

/-- The records of all the slices. -/
theorem allRecords_ok {k : ByteVec kKeySize} {h : FileHeader} {pt : Bytes} {rs : List Record} (hv : h.Valid)
    (hl : pt.length = h.plaintextSize.toNat)
    (hr : Ref.sealRecords w k (serializeFileHeader h) h (wantCompression opts) 0 (h.pieces pt) tr = (.ok rs, tr')) :
    ∃ ts, times isDeflated tr' = times isDeflated tr ++ ts ∧
      recordBytes rs = (List.range h.chunkCount.toNat).flatMap fun i =>
      Spec.chunkOf w k.1 h i (Spec.sliceAt h pt i) (streams w opts h (fun i => ts.getD i 0) pt i) := by
  have hcount := hv.count_le
  have hC := hv.chunkSize.2
  have hmem {q : Bytes} (hq : q ∈ h.pieces pt) : ∃ i < h.chunkCount.toNat, q = Spec.sliceAt h pt i := by
    obtain ⟨i, hi, rfl⟩ := List.mem_map.mp hq
    exact ⟨i, by simpa using hi, rfl⟩
  have hsize : ∀ q ∈ h.pieces pt, q.length < 2 ^ 32 := by
    intro q hq
    obtain ⟨i, -, rfl⟩ := hmem hq
    have := sliceAt_le h pt i
    omega
  have hdone {compress : Bool} {ts : List ℕ} (hst : ∀ i, streams w opts h (fun i => ts.getD i 0) pt i =
      Spec.deflated w compress (maxStoredSizeFor h.chunkSize).toNat (ts.getD i 0) (Spec.sliceAt h pt i)) :
      ((List.range (h.pieces pt).length).flatMap fun j => Spec.chunkOf w k.1 h (0 + j) ((h.pieces pt).getD j [])
        (Spec.deflated w compress (maxStoredSizeFor h.chunkSize).toNat (ts.getD j 0) ((h.pieces pt).getD j []))) =
      (List.range h.chunkCount.toNat).flatMap fun i =>
        Spec.chunkOf w k.1 h i (Spec.sliceAt h pt i) (streams w opts h (fun i => ts.getD i 0) pt i) := by
    rw [pieces_length]
    refine List.flatMap_congr fun i hi => ?_
    rw [pieces_getD (List.mem_range.mp hi), Nat.zero_add, hst]
  by_cases hpt : pt = []
  · have hempty (q : Bytes) (hq : q ∈ h.pieces pt) : q = [] := by
      obtain ⟨i, -, rfl⟩ := hmem hq
      rw [hpt, Spec.sliceAt, slice, List.drop_nil, List.take_nil]
    rw [sealRecords_empty _ _ hempty] at hr
    obtain ⟨ts, ht, hrs⟩ := sealRecords_ok _ _ _ _ _ (by simp) hsize (by rw [pieces_length]; omega) hr
    refine ⟨ts, ht, hrs.trans (hdone fun i => ?_)⟩
    have hnil : Spec.sliceAt h pt i = [] := by rw [hpt, Spec.sliceAt, slice, List.drop_nil, List.take_nil]
    rw [streams, hnil, Spec.deflated, if_neg (by simp), Spec.deflated, if_neg (by simp)]
  · have hne : wantCompression opts = true → ∀ q ∈ h.pieces pt, q ≠ [] := by
      intro _ q hq
      obtain ⟨i, hi, rfl⟩ := hmem hq
      exact sliceAt_ne hv hl hpt hi
    obtain ⟨ts, ht, hrs⟩ := sealRecords_ok _ _ _ _ _ hne hsize (by rw [pieces_length]; omega) hr
    exact ⟨ts, ht, hrs.trans (hdone fun i => rfl)⟩

/-- **The writer's output is the file of the format**, with the streams that helped. -/
theorem encrypt_ok {out : Bytes} (hr : Ref.encrypt w key opts input tr = (.ok out, tr')) :
    ∃ (salt : ByteVec kSaltSize) (np : ByteVec kNoncePrefixSize) (k : ByteVec kKeySize) (ts : List ℕ),
      w.rand tr.length kSaltSize = some salt ∧ w.rand (tr.length + 1) kNoncePrefixSize = some np ∧
      w.scrypt (tr.length + 3) (scryptArgs key.toBytes salt.1 opts.kdfLogN opts.kdfR opts.kdfP) = some k ∧
      (Options opts ∧ input.size ≤ 2 ^ 36 ∧ input.Denotes input.toBytes) ∧
        times isDeflated tr' = times isDeflated tr ++ ts ∧
      out = Spec.file w k.1 (headerFor opts input.size salt np)
        (streams w opts (headerFor opts input.size salt np) (fun i => ts.getD i 0) input.toBytes) input.toBytes := by
  unfold Ref.encrypt at hr
  simp only [bind_eq_ok] at hr
  obtain ⟨_, _, e1, _, _, e2, _, _, e3, _, tr, e4, _, _, e5, salt, _, e6, np, _, e7, k, _, e8, e9⟩ := hr
  obtain ⟨hkey, rfl⟩ := throwIf_eq_ok.mp e1
  obtain ⟨hks, rfl⟩ := throwIf_eq_ok.mp e2
  obtain ⟨hnull, rfl⟩ := throwIf_eq_ok.mp e3
  obtain ⟨hsize, rfl⟩ := throwIf_eq_ok.mp e4
  obtain ⟨hopts, rfl⟩ := Prod.mk.inj e5
  have ho := validateOptions_ok_iff.mp hopts
  have hden : input.Denotes input.toBytes := .of_input hnull
  rw [mcMaxPlaintextSize_toNat, Nat.not_lt] at hsize
  obtain ⟨hsalt, rfl⟩ := fill_ok (by decide) (by decide) e6
  obtain ⟨hnp, rfl⟩ := fill_ok (by decide) (by decide) e7
  obtain ⟨hk, ht3⟩ := deriveKey_ok salt.2 (by simpa using hkey) (Nat.not_lt.mp hks) e8
  rw [List.length_append, List.length_append] at hk
  rw [List.length_append] at hnp
  have hv := headerFor_valid salt np ho hsize
  have hl : input.toBytes.length = (headerFor opts input.size salt np).plaintextSize.toNat := by
    rw [plaintextSize_toNat hsize, hden.size]
  unfold Ref.sealAll at e9
  simp only [bind_eq_ok] at e9
  obtain ⟨_, t1, f1, _, t2, f2, _, t3, f3, rs, t4, f4, _, t5, f5, f6⟩ := e9
  obtain ⟨-, rfl⟩ := throwIf_eq_ok.mp f1
  obtain ⟨ts, ht, hrs⟩ := allRecords_ok hv hl f4
  obtain ⟨hout, rfl⟩ := Prod.mk.inj f6
  have g2 := (Ref.keeps_alloc (p := isDeflated) (fun _ _ _ => rfl) _ _).of_run f2
  have g3 := (keeps_newScratch _ _).of_run f3
  have g5 := (keeps_shrink _ _).of_run f5
  have g0 : times isDeflated t1 = times isDeflated tr := by
    rw [ht3, times_snoc, times_snoc]
    simp [isDeflated]
  refine ⟨salt, np, k, ts, hsalt, hnp, hk, ⟨ho, hsize, hden⟩, ?_, ?_⟩
  · rw [g5, ht, g3, g2, g0]
  · rw [← Except.ok.inj hout, Spec.header_eq, hrs]
    rfl

end File

/-! ### Conformance -/

/-- A run of `EncryptBuffer` from `s` to `s1` with this salt, prefix and derived key left `x`
in the buffer it returned, and the first `outSize` bytes of it are the file of the format. -/
structure Conforms (w : World) (key : Span) (opts : EncryptOptions) (input : Span) (s s1 : St)
    (salt : ByteVec kSaltSize)
    (np : ByteVec kNoncePrefixSize) (k : ByteVec kKeySize) (x : Bytes) (outSize : ℕ) : Prop where
  drawnSalt : w.rand s.trace.length kSaltSize = some salt
  drawnPrefix : w.rand (s.trace.length + 1) kNoncePrefixSize = some np
  derivedKey : w.scrypt (s.trace.length + 3) (scryptArgs key.toBytes salt.1 opts.kdfLogN opts.kdfR opts.kdfP) = some k
  valid : (headerFor opts input.size salt np).Valid
  size : (headerFor opts input.size salt np).plaintextSize.toNat = input.size
  within : outSize ≤ x.length
  file : x.take outSize = Spec.file w k.1 (headerFor opts input.size salt np)
    (streams w opts (headerFor opts input.size salt np) (deflateTime s s1) input.toBytes) input.toBytes
  oneSize : ∀ i, Spec.OneSize w k.1 (headerFor opts input.size salt np) i
    (Spec.stored (Spec.sliceAt (headerFor opts input.size salt np) input.toBytes i)
      (streams w opts (headerFor opts input.size salt np) (deflateTime s s1) input.toBytes i)).1
    (Spec.stored (Spec.sliceAt (headerFor opts input.size salt np) input.toBytes i)
      (streams w opts (headerFor opts input.size salt np) (deflateTime s s1) input.toBytes i)).2

/-- A run that returns a file conforms. -/
theorem Conforms.of_run {w : World} {key : Span} {opts : EncryptOptions} {input : Span} {s s1 : St} {a : SecureBuffer × ℕ}
    (h : encryptBuffer w key opts input s = (.ok a, s1)) :
    ∃ salt np k x, a.1.Holds s1.heap.get x ∧ Conforms w key opts input s s1 salt np k x a.2 := by
  obtain ⟨out, hr, x, ⟨⟨j, -, rfl⟩, hsize⟩, hs⟩ := (encryptBuffer_refines w key opts input s).of_ok h
  obtain ⟨salt, np, k, ts, hsalt, hnp, hk, ⟨ho, hbound, hden⟩, ht, rfl⟩ := encrypt_ok hr
  have htimes : deflateTime s s1 = fun i => ts.getD i 0 := timeSince_eq ht
  rw [← htimes] at hs hsize
  have hv := headerFor_valid salt np ho hbound
  refine ⟨salt, np, k, _, hs.holds, hsalt, hnp, hk, hv, plaintextSize_toNat hbound, ?_, ?_, fun i =>
    Spec.oneSize ?_ ..⟩
  · rw [hsize, List.length_append]
    exact Nat.le_add_right ..
  · rw [hsize, List.take_left]
  · have hC := hv.chunkSize.2
    have hslice := sliceAt_le (headerFor opts input.size salt np) input.toBytes i
    exact lt_of_le_of_lt ((stored_le w _ _ _ _).trans hslice) (by omega)

/-- The copy down keeps the bytes it is about. -/
theorem shrink_keeps {w : World} {file file' : SecureBuffer} {x : Bytes} {n : ℕ} {st st' : St}
    (hh : file.Holds st.heap.get x) (hpos : 0 < n) (hle : n ≤ x.length) (h : shrink w file n st = (.ok file', st')) :
    ∃ x', file'.Holds st'.heap.get x' ∧ x'.take n = x.take n := by
  obtain ⟨g, hs⟩ := InScope.of_holds hh
  have hn : (x.take n).length = n := by
    rw [List.length_take]
    exact Nat.min_eq_left hle
  have hne : x.take n ≠ [] := List.length_pos_iff.mp (hn.symm ▸ hpos)
  rw [← List.take_append_drop n x] at hs
  have hsim := sim_shrink (w := w) hne hs
  rw [hn] at hsim
  obtain ⟨_, -, rest', -, h'⟩ := hsim.of_ok h
  exact ⟨_, h'.holds, List.take_left' hn⟩

/-- **The writer conforms to the format.** The bytes of the returned file are those the format
gives for the draws, the derived key and deflate's answers; and the copy down to the exact
size, from any buffer, keeps the bytes it is about. -/
theorem encryptBuffer_conforms (w : World) (key : Span) (opts : EncryptOptions) (input : Span) (s : St) :
    (∀ a s1, encryptBuffer w key opts input s = (.ok a, s1) →
      ∃ salt np k x, a.1.Holds s1.heap.get x ∧ Conforms w key opts input s s1 salt np k x a.2) ∧
    ∀ (file : SecureBuffer) (x : Bytes) (n : ℕ) (st : St) (file' : SecureBuffer) (st' : St),
      file.Holds st.heap.get x → 0 < n → n ≤ x.length → shrink w file n st = (.ok file', st') →
      ∃ x', file'.Holds st'.heap.get x' ∧ x'.take n = x.take n :=
  ⟨fun _ _ h => Conforms.of_run h, fun _ _ _ _ _ _ hh hpos hle h => shrink_keeps hh hpos hle h⟩

/-- The conclusion at a run that ends with `MC_OK`. -/
theorem sampleText_conforms : ∃ s1 salt np k x,
    encryptBuffer sampleWorld sampleKey zlibOptions (.bytes sampleText) ⟨[], []⟩ = (.ok (⟨some 1, 98⟩, 94), s1) ∧
    (⟨some 1, 98⟩ : SecureBuffer).Holds s1.heap.get x ∧
    Conforms sampleWorld sampleKey zlibOptions (.bytes sampleText) ⟨[], []⟩ s1 salt np k x 94 ∧
    ∃ x' : Bytes, x'.take 94 = x.take 94 := by
  have hrun : (encryptBuffer sampleWorld sampleKey zlibOptions (.bytes sampleText) ⟨[], []⟩).1 =
    .ok (⟨some 1, 98⟩, 94) := by
    decide +kernel
  obtain ⟨h1, h2⟩ := encryptBuffer_conforms sampleWorld sampleKey zlibOptions (.bytes sampleText) ⟨[], []⟩
  obtain ⟨salt, np, k, x, hh, hc⟩ := h1 _ _ (run_eq hrun)
  obtain ⟨x', -, hx'⟩ := h2 ⟨some 1, 98⟩ x 94 _ ⟨some 1, 98⟩ _ hh (by decide) hc.within rfl
  exact ⟨_, salt, np, k, x, run_eq hrun, hh, hc, x', hx'⟩

end Encrypt
end ModelCrypt
