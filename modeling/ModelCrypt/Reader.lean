/-
# The reader without memory, and that DecryptBuffer refines it

`Ref.decrypt` says what decryption is for: parse the file into a header and
records, derive a key, open the records in order and put the pieces together.
It has no buffers, pointers or offsets, only the trace of what it asks and
the points of the code it passes. `decryptBuffer_refines` is the connection:
from every memory, `DecryptBuffer` ends as the reader ends, with the same
trace, without a fault, and leaves memory as it was but for the plaintext it
returns. Everything else about decryption is proved of the reader.

Key definitions: `tableOf`, `Ref.openRecord`, `Ref.decrypt`.
Key theorems: `sim_walkChunkTable`, `sim_openChunk`, `decryptBuffer_refines`.
-/
import ModelCrypt.Container
import ModelCrypt.Calls

namespace ModelCrypt

open Lib Prog Function

/-! ### The reader -/

/-- The records of a file, if they end where the file ends. -/
def tableOf (h : FileHeader) (f : Bytes) : Except McStatus (List Record) :=
  match readRecords h h.chunkCount.toNat 0 (f.drop kHeaderSize) with
  | some (rs, []) => .ok rs
  | _ => .error .errFormat

def Ref.table (w : World) (h : FileHeader) (f : Bytes) : Ref (List Record) := do
  Ref.returnIf (f.length < kHeaderSize + h.chunkCount.toNat * kChunkHeaderSize) .errFormat
  Ref.returnIf (h.chunkCount.toNat * w.sizeT.sizeofChunkEntry > w.sizeT.max) .errTooLarge
  Ref.alloc w .entryStorage (h.chunkCount.toNat * w.sizeT.sizeofChunkEntry)
  let rs ← Prog.ofExcept (tableOf h f)
  Ref.emit .walked
  return rs

/-- What is opened for the record at position `i`. -/
def openArgs (k : ByteVec kKeySize) (sh : Bytes) (h : FileHeader) (i : ℕ) (r : Record) : OpenArgs where
  key := k.1
  nonce := buildNonce h.noncePrefix (UInt32.ofNat i)
  aad := buildAad sh (UInt32.ofNat i) r.chunk
  ct := r.ct
  tag := r.tag

/-- Open the record at position `i`, with `room` bytes for its piece. -/
def Ref.openRecord (w : World) (k : ByteVec kKeySize) (sh : Bytes) (h : FileHeader) (scratch : Option ℕ)
    (i room : ℕ) (r : Record) : Ref Bytes := do
  Ref.emit (.entered (UInt32.ofNat i) r.chunk (h.sliceSize i) room scratch)
  let pt ← Ref.ask (.opened (openArgs k sh h i r)) (openResult w (openArgs k sh h i r))
  if r.chunk.compressed then Ref.ask (.inflated pt (h.sliceSize i)) (inflateResult w pt (h.sliceSize i))
  else return pt

/-- Open the records from position `i` on. -/
def Ref.openRecords (w : World) (k : ByteVec kKeySize) (sh : Bytes) (h : FileHeader) (scratch : Option ℕ) :
    ℕ → List Record → Ref (List Bytes)
  | _, [] => return []
  | i, r :: rs => do
    let p ← Ref.openRecord w k sh h scratch i (h.plaintextSize.toNat - i * h.chunkSize.toNat) r
    let ps ← Ref.openRecords w k sh h scratch (i + 1) rs
    return p :: ps

/-- Phase 3, with the piece of chunk 0. -/
def Ref.finish (w : World) (k : ByteVec kKeySize) (sh : Bytes) (h : FileHeader) (scratch : Option ℕ)
    (p : Bytes) (rs : List Record) : Ref Bytes := do
  Ref.returnIf (h.plaintextSize.toNat > w.sizeT.max) .errTooLarge
  Ref.alloc w .plaintext h.plaintextSize.toNat
  let ps ← Ref.openRecords w k sh h scratch 1 rs
  Ref.emit (.delivered h.plaintextSize.toNat)
  return p ++ ps.flatten

/-- Phases 2 and 3, with the records of the file. -/
def Ref.openAll (w : World) (k : ByteVec kKeySize) (sh : Bytes) (h : FileHeader) : List Record → Ref Bytes
  | [] => throw .errFormat
  | r :: rs => do
    let m := (maxCompressed (r :: rs)).toNat
    let scratch := if m = 0 then none else some m
    Ref.alloc w .scratch m
    Ref.alloc w .firstChunk (h.sliceSize 0)
    let p ← Ref.openRecord w k sh h scratch 0 (h.sliceSize 0) r
    Ref.finish w k sh h scratch p rs

/-- Decryption, without memory. -/
def Ref.decrypt (w : World) (key input : Span) : Ref Bytes := do
  Ref.returnIf (key.isNull = true ∨ input.isNull = true) .errInvalidArg
  Ref.returnIf (key.size < mcMinKeySize) .errInvalidArg
  let h ← Prog.ofExcept (toStatus (parseFileHeader input))
  let rs ← Ref.table w h input.toBytes
  let k ← Ref.deriveKey w key h.salt.1 h.kdfLogN h.kdfR h.kdfP
  Ref.openAll w k (slice input.toBytes 0 kHeaderSize) h rs

/-! ### Phase 1 -/

theorem parseFileHeader_status (input : Span) :
    parseFileHeader input = (toStatus (parseFileHeader input)).mapError Stop.status := by
  rcases hp : parseFileHeader input with e | a
  · rcases parseFileHeader_error hp with ⟨st, -, rfl⟩
    rfl
  · rfl

section Phase1

variable {w : World} {f : Bytes} {h : FileHeader} {rs : List Record}

/-- Decryption with the checks of the arguments and the header behind it. -/
theorem Ref.decrypt_parsed {key : Span} (hk : key.isNull = false) (hs : mcMinKeySize ≤ key.size)
    (hp : parseFileHeader (.bytes f) = .ok h) : Ref.decrypt w key (.bytes f) = (do
      let rs ← Ref.table w h f
      let k ← Ref.deriveKey w key h.salt.1 h.kdfLogN h.kdfR h.kdfP
      Ref.openAll w k (slice f 0 kHeaderSize) h rs) := by
  rw [Ref.decrypt, Ref.returnIf, throwIf_neg (by simp [hk]), Ref.returnIf, throwIf_neg (Nat.not_lt.mpr hs), hp]
  rfl

theorem tableOf_ok_iff :
    tableOf h f = .ok rs ↔ rs.length = h.chunkCount.toNat ∧ f.drop kHeaderSize = recordBytes rs ∧ FitsFrom h 0 rs := by
  unfold tableOf
  constructor
  · intro hr
    split at hr
    · rename_i rs' he
      cases hr
      have := readRecords_iff.mp he
      rwa [List.append_nil] at this
    · cases hr
  · intro hr
    have : readRecords h h.chunkCount.toNat 0 (f.drop kHeaderSize) = some (rs, []) :=
      readRecords_iff.mpr (by rwa [List.append_nil])
    rw [this]

theorem tableOf_error {e : McStatus} (he : tableOf h f = .error e) : e = .errFormat := by
  unfold tableOf at he
  split at he <;> cases he
  rfl

/-- A file whose header and table are accepted is a container. -/
theorem Container.of_table (hp : parseFileHeader (.bytes f) = .ok h) (ht : tableOf h f = .ok rs) :
    ∃ c : Container, c.bytes = f ∧ c.header = h ∧ c.records = rs := by
  obtain ⟨-, hv, hs⟩ := parseFileHeader_ok_iff.mp hp
  obtain ⟨hn, hb, hf⟩ := tableOf_ok_iff.mp ht
  refine ⟨⟨h, rs, hv, hn, hf⟩, ?_, rfl, rfl⟩
  rw [Container.bytes, ← hs, ← hb, slice_take, List.take_append_drop]

theorem sizeofChunkEntry_le (z : SizeT) : z.sizeofChunkEntry ≤ 32 := by cases z <;> decide

/-- The products that size the table do not overflow, for any chunk count. -/
theorem minimumInput_toNat (n : UInt32) : (kHeaderSize.toUInt64 + n.toUInt64 * kChunkHeaderSize.toUInt64).toNat =
    kHeaderSize + n.toNat * kChunkHeaderSize := by
  have hn := n.toNat_lt
  rw [UInt64.toNat_add, UInt64.toNat_mul, UInt32.toNat_toUInt64, show kHeaderSize.toUInt64.toNat = 64 by rfl,
    show kChunkHeaderSize.toUInt64.toNat = 24 by rfl]
  simp only [kHeaderSize, kChunkHeaderSize]
  omega

theorem tableBytes_toNat (z : SizeT) (n : UInt32) :
    (n.toUInt64 * z.sizeofChunkEntry.toUInt64).toNat = n.toNat * z.sizeofChunkEntry := by
  have hn := n.toNat_lt
  rw [UInt64.toNat_mul, UInt32.toNat_toUInt64]
  cases z
  · rw [show SizeT.bits32.sizeofChunkEntry.toUInt64.toNat = 28 by rfl]
    simp only [SizeT.sizeofChunkEntry]
    omega
  · rw [show SizeT.bits64.sizeofChunkEntry.toUInt64.toNat = 32 by rfl]
    simp only [SizeT.sizeofChunkEntry]
    omega

/-- What the walk leaves when it has read all the records of the file. -/
def walkOf (rs : List Record) : Decrypt.Walk := rs.foldl Decrypt.Walk.push {}

theorem walkOf_max (rs : List Record) : (walkOf rs).maxCompressed = maxCompressed rs :=
  Decrypt.foldl_push_max {} rs

theorem walkOf_entries (rs : List Record) : (walkOf rs).entries = entriesAt kHeaderSize rs :=
  (Decrypt.foldl_push {} rs).1

theorem walkOf_offset (rs : List Record) : (walkOf rs).offset = kHeaderSize + (recordBytes rs).length :=
  (Decrypt.foldl_push {} rs).2

/-- **The walk accepts what the reader of records accepts**, and its table is theirs. -/
theorem sim_walkChunkTable {h0 : Heap} {g : ℕ → Option Bytes} {s : St} (hf : f.length ≤ w.sizeT.max)
    (hh : kHeaderSize ≤ f.length) (hv : h.Valid) (hs : Heap.Becomes h0 s.heap g) :
    Refines (Decrypt.walkChunkTable w (.bytes f) h) (Ref.table w h f) s
      (fun a rs s1 => InScope h0 g a.1 (zeros (h.chunkCount.toNat * w.sizeT.sizeofChunkEntry)) s1 ∧
        a.2 = walkOf rs ∧ tableOf h f = .ok rs)
      (fun s1 => Heap.Becomes h0 s1.heap g) := by
  have hn := hv.count_le
  have hsz := sizeofChunkEntry_le w.sizeT
  have hmax := w.sizeT.max_ge
  have htb : h.chunkCount.toNat * w.sizeT.sizeofChunkEntry ≤ 2 ^ 24 * 32 := Nat.mul_le_mul hn hsz
  unfold Decrypt.walkChunkTable Ref.table
  simp only [Span.size_bytes, minimumInput_toNat, tableBytes_toNat]
  refine Sim.throwIf (fun _ => hs) fun _ => Sim.throwIf (fun _ => hs) fun _ => ?_
  rw [SizeT.cast_of_le (by omega)]
  refine Sim.bind (sim_newBuffer w .entryStorage _ hs) (fun storage _ s1 h1 => ?_) (fun _ h => h)
  refine sim_onStop h0 (E := fun s2 => InScope h0 g storage (zeros (h.chunkCount.toNat * w.sizeT.sizeofChunkEntry)) s2)
    ?_ (fun s2 h2 => ⟨g, _, h2, fun _ h => h⟩)
  have hsize : storage.size = h.chunkCount.toNat * w.sizeT.sizeofChunkEntry := by
    rw [h1.holds.size, zeros_length]
  have htab : (0 + h.chunkCount.toNat) * w.sizeT.sizeofChunkEntry ≤ storage.size := by rw [hsize, Nat.zero_add]
  have hloop := Decrypt.walkLoop_eq (h := h) hf h.chunkCount.toNat 0 {} (by omega) htab hh
  rw [show UInt32.ofNat 0 = 0 from rfl] at hloop
  rw [hloop]
  rcases hr : readRecords h h.chunkCount.toNat 0 (f.drop kHeaderSize) with _ | ⟨rs, rest⟩
  · have ht : tableOf h f = .error .errFormat := by rw [tableOf, hr]
    rw [ht]
    exact .inr ⟨.errFormat, s1, rfl, rfl, h1⟩
  have hlen := congrArg List.length (readRecords_iff.mp hr).2.1
  rw [List.length_drop, List.length_append] at hlen
  have hoff := walkOf_offset rs
  cases rest with
  | nil =>
    have ht : tableOf h f = .ok rs := by rw [tableOf, hr]
    rw [ht]
    have hend : ¬ ((walkOf rs).offset ≠ f.length) := by
      rw [hoff, not_not]
      simp only [List.length_nil] at hlen
      omega
    refine .inl ⟨(storage, walkOf rs), rs, { s1 with trace := s1.trace ++ [.walked] }, ?_, rfl, ?_, rfl, rfl⟩
    · show ((returnIf ((walkOf rs).offset ≠ f.length) .errFormat : Run Unit) >>= _) s1 = _
      rw [returnIf, throwIf_neg hend]
      rfl
    · exact ⟨h1.becomes, h1.holds, h1.fresh⟩
  | cons x rest =>
    have ht : tableOf h f = .error .errFormat := by rw [tableOf, hr]
    rw [ht]
    have hend : (walkOf rs).offset ≠ f.length := by
      rw [hoff]
      simp only [List.length_cons] at hlen
      omega
    refine .inr ⟨.errFormat, s1, ?_, rfl, h1⟩
    show ((returnIf ((walkOf rs).offset ≠ f.length) .errFormat : Run Unit) >>= _) s1 = _
    rw [returnIf, throwIf_pos hend]
    rfl

end Phase1

end ModelCrypt
