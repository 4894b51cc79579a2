/-
# What the clear part of a file shows

A file is a layout: the header in the clear, then chunk records whose first
eight bytes are in the clear, with the tag and the ciphertext behind them. The
mask of that layout is a function of the header and of deflate's answers
about sizes (`Spec.clear`), and it shows every file that is written
(`encryptBuffer_shows`). So two calls with the same options, draws, plaintext
length and answers return files of one length that agree outside of the tags
and ciphertexts (`encryptBuffer_clear`), whatever the keys, the plaintexts
and the memories are.

Key definitions: `Spec.clear`, `Spec.Hidden`, `deflatedSize`.
Key theorems: `Spec.clear_hidden`, `encryptBuffer_shows`, `encryptBuffer_clear`.
-/
import ModelCrypt.Lib.Mask
import ModelCrypt.Conformance

namespace ModelCrypt

open Lib Prog Mask

namespace Spec

/-- The clear part of a chunk record: size, flags and the reserved bytes. -/
def clearRecord (size : ℕ) (flags : UInt8) : Bytes := leBytes 4 size ++ [flags] ++ [0, 0, 0]

/-- What is stored for a slice of `n` bytes whose stream, if it helps, has the size `answer`. -/
def storedSize (n : ℕ) (answer : Option ℕ) : ℕ := answer.getD n

def storedFlags (answer : Option ℕ) : UInt8 := if answer.isSome then 1 else 0

/-- What the header and the sizes of the streams say about a file. -/
def clear (h : FileHeader) (answers : ℕ → Option ℕ) : Mask UInt8 :=
  layout (header h) (fun i => clearRecord (storedSize (h.sliceSize i) (answers i)) (storedFlags (answers i)))
    (fun i => kTagSize + storedSize (h.sliceSize i) (answers i)) h.chunkCount.toNat

/-- Where the chunk at a position starts, when `stored` bytes are stored for each. -/
def chunkStart (stored : ℕ → ℕ) : ℕ → ℕ
  | 0 => kHeaderSize
  | i + 1 => chunkStart stored i + kChunkHeaderSize + stored i

/-- The position is inside of a tag or a ciphertext. -/
def Hidden (stored : ℕ → ℕ) (count pos : ℕ) : Prop :=
  ∃ i < count, chunkStart stored i + 8 ≤ pos ∧ pos < chunkStart stored i + kChunkHeaderSize + stored i

theorem clearRecord_length (size : ℕ) (flags : UInt8) : (clearRecord size flags).length = 8 := by
  simp [clearRecord]

/-- **The holes of the clear part are the tags and the ciphertexts.** -/
theorem clear_hidden {h : FileHeader} {answers : ℕ → Option ℕ} {pos : ℕ} : (clear h answers)[pos]? = some none ↔
    Hidden (fun i => storedSize (h.sliceSize i) (answers i)) h.chunkCount.toNat pos := by
  have hstart : ∀ n, (layout (header h) (fun i => clearRecord (storedSize (h.sliceSize i) (answers i))
      (storedFlags (answers i))) (fun i => kTagSize + storedSize (h.sliceSize i) (answers i)) n).length =
      chunkStart (fun i => storedSize (h.sliceSize i) (answers i)) n := by
    intro n
    induction n with
    | zero => rw [layout, List.length_map, header_length, chunkStart]
    | succ n ih =>
      rw [layout_length_succ, ih, clearRecord_length, chunkStart]
      simp only [kTagSize, kChunkHeaderSize]
      omega
  rw [clear, layout_hole, Hidden]
  refine exists_congr fun i => and_congr_right fun _ => ?_
  rw [InHole, hstart, clearRecord_length]
  simp only [kTagSize, kChunkHeaderSize]
  constructor <;> rintro ⟨h1, h2⟩ <;> constructor <;> omega

/-- What is stored has the size and the flags the answer gives. -/
theorem stored_answer (slice : Bytes) (stream : Option Bytes) :
    (stored slice stream).1.length = storedSize slice.length (stream.map List.length) ∧
    (stored slice stream).2 = storedFlags (stream.map List.length) := by
  cases stream <;> exact ⟨rfl, rfl⟩

/-- **A file shows its clear part**, whatever the key and the plaintext are. -/
theorem file_shows {w : World} {key pt : Bytes} {h : FileHeader} {streams : ℕ → Option Bytes}
    (hp : pt.length = h.plaintextSize.toNat) :
    Shows (clear h fun i => (streams i).map List.length) (file w key h streams pt) := by
  refine layout_shows fun i _ => ?_
  have hslice : (sliceAt h pt i).length = h.sliceSize i := by
    rw [sliceAt, slice_length, hp]
    rfl
  obtain ⟨hsize, hflags⟩ := stored_answer (sliceAt h pt i) (streams i)
  rw [hslice] at hsize
  rw [← hsize, ← hflags, chunkOf, chunk, record]
  refine ⟨_, List.append_assoc .., ?_⟩
  rw [List.length_append]
  congr 1
  · exact (w.gcmSeal _).2.2
  · exact (w.gcmSeal _).1.2

end Spec

namespace Encrypt

/-- What deflate answered about the slice at position `i`: the size of the stream, if it is smaller. -/
def deflatedSize (w : World) (opts : EncryptOptions) (input : Span) (s s1 : St) (i : ℕ) : Option ℕ :=
  (Spec.deflated w (wantCompression opts) (maxStoredSizeFor opts.chunkSize).toNat (deflateTime s s1 i)
    (slice input.toBytes (i * opts.chunkSize.toNat) opts.chunkSize.toNat)).map List.length

/-- The sizes stored in the chunks, as options, the plaintext length and deflate's answers give them. -/
def storedSizes (opts : EncryptOptions) (n : ℕ) (answers : ℕ → Option ℕ) (i : ℕ) : ℕ :=
  Spec.storedSize (min opts.chunkSize.toNat (n - i * opts.chunkSize.toNat)) (answers i)

section Runs

variable {w w' : World} {key key' p q : Span} {opts : EncryptOptions} {s s1 t t1 : St} {a b : SecureBuffer × ℕ}

/-- **A returned file shows its clear part**, which is a function of the options, the draws,
the plaintext length and deflate's answers. -/
theorem encryptBuffer_shows (h : encryptBuffer w key opts p s = (.ok a, s1)) :
    ∃ salt np x, w.rand s.trace.length kSaltSize = some salt ∧ w.rand (s.trace.length + 1) kNoncePrefixSize = some np ∧
      p.size ≤ 2 ^ 36 ∧ a.1.Holds s1.heap.get x ∧ a.2 ≤ x.length ∧
      Shows (Spec.clear (headerFor opts p.size salt np) (deflatedSize w opts p s s1)) (x.take a.2) := by
  obtain ⟨salt, np, k, x, hh, hc⟩ := Conforms.of_run h
  obtain ⟨out, hr, -⟩ := (encryptBuffer_refines w key opts p s).of_ok h
  obtain ⟨-, -, -, -, -, -, -, ⟨-, hbound, hden⟩, -, -⟩ := encrypt_ok hr
  refine ⟨salt, np, x, hc.drawnSalt, hc.drawnPrefix, hbound, hh, hc.within, ?_⟩
  have hp : p.toBytes.length = (headerFor opts p.size salt np).plaintextSize.toNat := by rw [hc.size, hden.size]
  rw [hc.file]
  exact Spec.file_shows hp

/-- Without compression there is nothing to answer. -/
theorem deflatedSize_none (hc : wantCompression opts = false) (i : ℕ) : deflatedSize w opts p s s1 i = none := by
  rw [deflatedSize, Spec.deflated, if_neg (by simp [hc])]
  rfl

/-- The clear part reads only the answers about the chunks there are. -/
theorem clear_congr {h : FileHeader} {answers answers' : ℕ → Option ℕ}
    (ha : ∀ i < h.chunkCount.toNat, answers i = answers' i) : Spec.clear h answers = Spec.clear h answers' := by
  unfold Spec.clear
  exact layout_congr fun i hi => by rw [ha i hi]; exact ⟨rfl, rfl⟩

/-- The positions that are hidden in a file with the header of a call. -/
theorem headerFor_hidden {n : ℕ} (hn : n ≤ 2 ^ 36) (salt : ByteVec kSaltSize) (np : ByteVec kNoncePrefixSize)
    (answers : ℕ → Option ℕ) (pos : ℕ) : (Spec.clear (headerFor opts n salt np) answers)[pos]? = some none ↔
      Spec.Hidden (storedSizes opts n answers) (chunkCountFor n.toUInt64 opts.chunkSize).toNat pos := by
  have hstored : (fun i => Spec.storedSize ((headerFor opts n salt np).sliceSize i) (answers i)) =
      storedSizes opts n answers := by
    funext i
    rw [FileHeader.sliceSize, plaintextSize_toNat hn, storedSizes]
    rfl
  have h : (Spec.clear (headerFor opts n salt np) answers)[pos]? = some none ↔ Spec.Hidden _ _ pos := Spec.clear_hidden
  rw [hstored] at h
  exact h

/-- **The clear part of a file leaks only lengths.** Two calls with the same options and draws, on
plaintexts of one length about whose slices deflate gives the same answers, return files of one
length that show the same clear part, a function of the options, the draws, the length and the
answers; so they agree on every byte outside of the tags and the ciphertexts. Without
compression nothing is asked of the plaintexts but their length. -/
theorem encryptBuffer_clear (ha : encryptBuffer w key opts p s = (.ok a, s1))
    (hb : encryptBuffer w' key' opts q t = (.ok b, t1))
    (hsalt : w.rand s.trace.length kSaltSize = w'.rand t.trace.length kSaltSize)
    (hnonce : w.rand (s.trace.length + 1) kNoncePrefixSize = w'.rand (t.trace.length + 1) kNoncePrefixSize)
    (hsize : p.size = q.size)
    (hsame : opts.compression = mcCompressZlibOption → ∀ i < (chunkCountFor p.size.toUInt64 opts.chunkSize).toNat,
      deflatedSize w opts p s s1 i = deflatedSize w' opts q t t1 i) :
    a.2 = b.2 ∧ ∃ salt np x y, w.rand s.trace.length kSaltSize = some salt ∧
      w.rand (s.trace.length + 1) kNoncePrefixSize = some np ∧ a.1.Holds s1.heap.get x ∧ b.1.Holds t1.heap.get y ∧
      Shows (Spec.clear (headerFor opts p.size salt np) (deflatedSize w opts p s s1)) (x.take a.2) ∧
      Shows (Spec.clear (headerFor opts p.size salt np) (deflatedSize w opts p s s1)) (y.take b.2) ∧
      ∀ pos < a.2, ¬ Spec.Hidden (storedSizes opts p.size (deflatedSize w opts p s s1))
        (chunkCountFor p.size.toUInt64 opts.chunkSize).toNat pos → x[pos]? = y[pos]? := by
  obtain ⟨salt, np, x, hs1, hn1, hP, hx, hxle, hshow⟩ := encryptBuffer_shows ha
  obtain ⟨salt', np', y, hs2, hn2, -, hy, hyle, hshow'⟩ := encryptBuffer_shows hb
  obtain rfl : salt = salt' := Option.some.inj (hs1.symm.trans (hsalt.trans hs2))
  obtain rfl : np = np' := Option.some.inj (hn1.symm.trans (hnonce.trans hn2))
  have hanswers : Spec.clear (headerFor opts q.size salt np) (deflatedSize w' opts q t t1) =
      Spec.clear (headerFor opts p.size salt np) (deflatedSize w opts p s s1) := by
    rw [← hsize]
    refine clear_congr fun i hi => ?_
    by_cases hz : opts.compression = mcCompressZlibOption
    · exact (hsame hz i hi).symm
    · have hw : wantCompression opts = false := decide_eq_false hz
      rw [deflatedSize_none hw, deflatedSize_none hw]
  rw [hanswers] at hshow'
  have hab : a.2 = b.2 := by
    have hlen := hshow.length.symm.trans hshow'.length
    rwa [List.length_take_of_le hxle, List.length_take_of_le hyle] at hlen
  refine ⟨hab, salt, np, x, y, hs1, hn1, hx, hy, hshow, hshow', fun pos hpos hnot => ?_⟩
  have hagree := hshow.agree hshow' (mt (headerFor_hidden hP salt np _ pos).mp hnot)
  rwa [List.getElem?_take_of_lt hpos, List.getElem?_take_of_lt (hab ▸ hpos)] at hagree

end Runs

def otherKey : Span := .bytes (List.replicate mcMinKeySize 9)

def otherText : Bytes := List.replicate 10 8

theorem sampleText_clear : ∃ s1 t1 x y,
    encryptBuffer sampleWorld sampleKey zlibOptions (.bytes sampleText) ⟨[], []⟩ = (.ok (⟨some 1, 98⟩, 94), s1) ∧
    encryptBuffer sampleWorld otherKey zlibOptions (.bytes otherText) ⟨[], []⟩ = (.ok (⟨some 1, 98⟩, 94), t1) ∧
    SecureBuffer.Holds s1.heap.get ⟨some 1, 98⟩ x ∧ SecureBuffer.Holds t1.heap.get ⟨some 1, 98⟩ y ∧
    ∀ pos < 94, ¬ Spec.Hidden (fun _ => 6) 1 pos → x[pos]? = y[pos]? := by
  have hrun : (encryptBuffer sampleWorld sampleKey zlibOptions (.bytes sampleText) ⟨[], []⟩).1 =
      .ok (⟨some 1, 98⟩, 94) := by decide +kernel
  have hother : (encryptBuffer sampleWorld otherKey zlibOptions (.bytes otherText) ⟨[], []⟩).1 =
      .ok (⟨some 1, 98⟩, 94) := by decide +kernel
  have hanswer : deflatedSize sampleWorld zlibOptions (.bytes sampleText) ⟨[], []⟩
      (encryptBuffer sampleWorld sampleKey zlibOptions (.bytes sampleText) ⟨[], []⟩).2 0 = some 6 := by decide +kernel
  have hsame : deflatedSize sampleWorld zlibOptions (.bytes otherText) ⟨[], []⟩
      (encryptBuffer sampleWorld otherKey zlibOptions (.bytes otherText) ⟨[], []⟩).2 0 = some 6 := by decide +kernel
  have hcount : (chunkCountFor (10 : ℕ).toUInt64 zlibOptions.chunkSize).toNat = 1 := by decide
  obtain ⟨-, salt, np, x, y, -, -, hx, hy, -, -, hagree⟩ :=
    encryptBuffer_clear (run_eq hrun) (run_eq hother) rfl rfl rfl
    (fun _ i hi => by
      obtain rfl : i = 0 := Nat.lt_one_iff.mp (hcount ▸ hi)
      exact hanswer.trans hsame.symm)
  refine ⟨_, _, x, y, run_eq hrun, run_eq hother, hx, hy, fun pos hpos hnot => hagree pos hpos (mt ?_ hnot)⟩
  rintro ⟨i, hi, h1, h2⟩
  obtain rfl : i = 0 := Nat.lt_one_iff.mp (hcount ▸ hi)
  refine ⟨0, Nat.zero_lt_one, h1, ?_⟩
  have hstored : storedSizes zlibOptions 10 (deflatedSize sampleWorld zlibOptions (.bytes sampleText) ⟨[], []⟩
      (encryptBuffer sampleWorld sampleKey zlibOptions (.bytes sampleText) ⟨[], []⟩).2) 0 = 6 := by
    rw [storedSizes, hanswer]
    rfl
  exact hstored ▸ h2

end Encrypt
end ModelCrypt
