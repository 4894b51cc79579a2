/-
# The calls on files agree with the call on buffers

`mc_decrypt_file` and `mc_decrypt_file_to_buffer` hand the bytes that `ReadFile`
read to the same `DecryptBuffer` as `mc_decrypt_buffer`, in a buffer of their own.
A buffer of no bytes has a null pointer, and that is the one difference: all
three agree on every file but the empty one (`files_agree`).

Key definitions: `Returns`, `Agree`.
Key theorems: `cryptFile_returns`, `decryptFileToBuffer_returns`, `files_agree`.
-/
import ModelCrypt.Authenticity
import ModelCrypt.FileLive
import ModelCrypt.FileSafety

namespace ModelCrypt

open Lib Prog Fileio

variable {os : Os} {w : World} {m m1 : Machine}

/-! ### Calls that return -/

/-- With enough system calls left, the call ends with `r`, at `m'`. -/
def Returns {α : Type} (p : Sys α) (m : Machine) (r : Except Stop α) (m' : Machine) : Prop := ∃ c, Steps p m c r m'

/-- A call returns in one way. -/
theorem Returns.unique {α : Type} {p : Sys α} {r r' : Except Stop α} {m1 m2 : Machine} (h : Returns p m r m1)
    (h' : Returns p m r' m2) : r = r' := by
  obtain ⟨c, hc⟩ := h
  obtain ⟨c', hc'⟩ := h'
  have h1 := hc c'
  rw [Nat.add_comm c c', hc' c] at h1
  exact (Prod.mk.inj h1).1.symm

/-- Leaving the scope of a buffer makes no system call. -/
theorem withBuffer_steps {α : Type} {buf : SecureBuffer} {body : Sys α} {h0 : Heap} {g : ℕ → Option Bytes} {x : Bytes}
    {c : ℕ} {r : Except Stop α} (hb : Steps body m c r m1) (hs : InScope h0 g buf x m1.st) :
    ∃ m', Steps (withBuffer buf body) m c r m' ∧ m'.disk = m1.disk ∧ Heap.Becomes h0 m'.st.heap g := by
  obtain ⟨s', hd, -, hg⟩ := hs.destroy
  have hfin := Steps.onSt (destroy buf) m1
  rw [hd] at hfin
  exact ⟨_, Steps.always hb hfin, rfl, hg⟩

/-! ### The calls on files -/

section Calls

variable {i o : Path} {f : Bytes} {maxSize : UInt64}

theorem toPaths_steps (hi : os.string m.time .inputPath i.length = true)
    (ho : os.string m.time .outputPath o.length = true) : toPaths os (some i) (some o) m = (.ok (i, o), m) := by
  unfold toPaths catchBadAlloc
  rw [catch_apply, toPath, bind_assoc, bind_ok (newString_ok hi), pure_bind, toPath, bind_assoc,
    bind_ok (newString_ok ho), pure_bind]
  rfl

/-- A buffer of no bytes is a null pointer to `DecryptBuffer`. -/
theorem span_null {buf : SecureBuffer} {s : St} {input : Span} (hh : buf.Holds s.heap.get [])
    (h : spanAt buf.ptr 0 s = (.ok input, s)) : input = .null 0 := by
  cases hh.ptr_null
  replace h : ((.ok (.null 0), s) : Except Stop Span × St) = (.ok input, s) := h
  exact (Except.ok.inj (Prod.mk.inj h).1).symm

/-- What `crypt` makes of the file, once `ReadFile` has it: with the input and the state it is called with. -/
structure Input (w : World) (os : Os) (path : Path) (maxSize : UInt64) (m : Machine) (f : Bytes) (buf : SecureBuffer)
    (input : Span) (m1 : Machine) : Prop where
  read : FileRead w os path maxSize m buf f m1
  returns : Returns (readFile os w path maxSize) m (.ok (buf, f.length)) m1
  span : spanAt buf.ptr f.length m1.st = (.ok input, m1.st)
  denotes : input.Denotes f
  null : f = [] → input = .null 0

theorem input_of_readable (h : Readable os m i f) (hmax : f.length ≤ maxSize.toNat) (hsize : f.length ≤ w.sizeT.max)
    (hmem : f ≠ [] → w.alloc m.st.trace.length f.length = true) :
    ∃ buf input m1, Input w os i maxSize m f buf input m1 := by
  obtain ⟨c, buf, m1, hrun, hread⟩ := readFile_steps (w := w) h hmax hsize hmem
  obtain ⟨input, hspan, hden⟩ := spanAt_run hread.scope.holds
  refine ⟨buf, input, m1, hread, ⟨c, hrun⟩, hspan, hden, ?_⟩
  rintro rfl
  exact span_null hread.scope.holds hspan

/-- **How a call from file to file returns**, when the one file can be read and the other written: with the status of
`crypt`, or with what it made in the file. -/
theorem cryptFile_returns {crypt : Span → Run (SecureBuffer × ℕ)} (hc : Crypts w crypt) (mode : UInt32)
    {buf : SecureBuffer}
    {input : Span} (hi : os.string m.time .inputPath i.length = true) (ho : os.string m.time .outputPath o.length = true)
    (h : Input w os i maxSize m f buf input m1) (hw : Writable os m.disk o) :
    (∃ e m', (crypt input m1.st).1 = .error (.status e) ∧
      Returns (cryptFile w os crypt maxSize mode (some i) (some o)) m (.error (.status e)) m') ∨
    ∃ out data m', (crypt input m1.st).1 = .ok (out, data.length) ∧ (crypt input m1.st).2.At out.data data ∧
      Returns (cryptFile w os crypt maxSize mode (some i) (some o)) m (.ok ()) m' ∧
      Leaves os m.disk o data mode (.ok ()) m'.disk := by
  obtain ⟨c, hread⟩ := h.returns
  have hspan := Steps.onSt (spanAt buf.ptr f.length) m1
  rw [h.span] at hspan
  have hcrypt := Steps.onSt (crypt input) m1
  -- the body runs from `m1`, in the scope of the input
  have scope {c' : ℕ} {r : Except Stop Unit} {m2 : Machine}
      (hbody : Steps (onSt (crypt input) >>= fun a => withBuffer a.1 (writeFileAtomically os o a.1.ptr a.2 mode))
        m1 c' r m2)
      (hb : Heap.Becomes m1.st.heap m2.st.heap m1.st.heap.get) :
      ∃ m', m'.disk = m2.disk ∧ Returns (cryptFile w os crypt maxSize mode (some i) (some o)) m r m' := by
    have hall : Steps (onSt (spanAt buf.ptr f.length) >>= fun input => onSt (crypt input) >>= fun a =>
        withBuffer a.1 (writeFileAtomically os o a.1.ptr a.2 mode)) m1 (0 + c') r m2 := hspan.bind hbody
    obtain ⟨m3, h3, hd, -⟩ := withBuffer_steps hall (h.read.scope.after hb)
    exact ⟨m3, hd, _, (Steps.of_eq fun _ => toPaths_steps hi ho).bind (hread.bind h3)⟩
  have hends := hc input m1.st (h.denotes.size.trans_le h.read.le_size)
  unfold Ends at hends
  rcases hends with ⟨out, data, y, hr, hpre, hs⟩ | ⟨e, hr, hb⟩
  · rw [hr] at hcrypt
    have hsup := supplies_of_holds hs.holds hpre
    have hnull : data ≠ [] → out.ptr ≠ .null := by
      intro hne
      obtain ⟨b, -, hptr, -⟩ := hs.holds.ptr (List.ne_nil_of_length_pos
        ((List.length_pos_iff.mpr hne).trans_le hpre.length_le))
      rw [hptr]
      simp
    have hw' : Writable os ({ m1 with st := (crypt input m1.st).2 } : Machine).disk o := by
      show Writable os m1.disk o
      rw [h.read.disk]
      exact hw
    obtain ⟨c4, m4, hwrite⟩ := writeFileAtomically_steps mode hw' hsup hnull
    obtain ⟨hst, hl⟩ := hwrite.ends (Q := fun r m' => m'.st = (crypt input m1.st).2 ∧
      Leaves os m1.disk o data mode r m'.disk)
      fun k => writeFileAtomically_ends mode hsup
    obtain ⟨m5, h5, hd5, hb5⟩ := withBuffer_steps (x := y) hwrite (by rw [show m4.st = _ from hst]; exact hs)
    obtain ⟨m6, hd6, h6⟩ := scope (hcrypt.bind h5) hb5
    refine .inr ⟨out, data, m6, hr, St.at_of_holds hs.holds hpre, h6, ?_⟩
    rw [hd6, hd5, ← h.read.disk]
    exact hl
  · rw [hr] at hcrypt
    obtain ⟨m6, -, h6⟩ := scope hcrypt.bind_error hb
    exact .inl ⟨e, m6, hr, h6⟩

/-- **How `mc_decrypt_file_to_buffer` returns**: with the status of `DecryptBuffer`, or with its plaintext. -/
theorem decryptFileToBuffer_returns (key : Span) {input : Span} {buf : SecureBuffer}
    (hi : os.string m.time .inputPath i.length = true)
    (h : Input w os i kMaxFileSize m f buf input m1) :
    (∃ e m', (Decrypt.decryptBuffer w key input m1.st).1 = .error (.status e) ∧
      Returns (mcDecryptFileToBuffer w os key (some i) false false) m (.error (.status e)) m') ∨
    ∃ out data m', (Decrypt.decryptBuffer w key input m1.st).1 = .ok (out, data.length) ∧
      (Decrypt.decryptBuffer w key input m1.st).2.At out.data data ∧
      Returns (mcDecryptFileToBuffer w os key (some i) false false) m (.ok (out.data, data.length)) m' ∧
      m'.st.At out.data data := by
  obtain ⟨c, hread⟩ := h.returns
  have hspan := Steps.onSt (spanAt buf.ptr f.length) m1
  rw [h.span] at hspan
  have hdec := Steps.onSt (Decrypt.decryptBuffer w key input) m1
  have hpath {m : Machine} (hi : os.string m.time .inputPath i.length = true) :
      catchBadAlloc (toPath os .inputPath (some i)) m = (.ok i, m) := by
    unfold catchBadAlloc
    rw [catch_apply, toPath, bind_ok (newString_ok hi)]
    rfl
  have scope {r : Except Stop (Option ℕ × ℕ)} {h0 : Heap} {g : ℕ → Option Bytes} {x : Bytes} {m2 : Machine}
      (hbody : Steps (onSt (Decrypt.decryptBuffer w key input) >>= fun a => pure (handOff a.1 a.2)) m1 0 r m2)
      (hs : InScope h0 g buf x m2.st) : ∃ m', Heap.Becomes h0 m'.st.heap g ∧
        Returns (mcDecryptFileToBuffer w os key (some i) false false) m r m' := by
    have hall : Steps (onSt (spanAt buf.ptr f.length) >>= fun input =>
      onSt (Decrypt.decryptBuffer w key input) >>= fun a =>
        pure (handOff a.1 a.2)) m1 (0 + 0) r m2 := hspan.bind hbody
    obtain ⟨m3, h3, -, hb⟩ := withBuffer_steps hall hs
    exact ⟨m3, hb, _, Steps.throwIf (by simp) ((Steps.of_eq fun _ => hpath hi).bind (hread.bind h3))⟩
  rcases Decrypt.decryptBuffer_refines w key input m1.st (h.denotes.size.trans_le h.read.le_size) with
    ⟨⟨out, n⟩, data, s2, hr, -, hs, hn⟩ | ⟨e, s2, hr, -, hb⟩
  · subst hn
    rw [hr] at hdec ⊢
    obtain ⟨hin, hfresh⟩ := (h.read.scope.since hs).swap (h.read.scope.holds.put_back _) h.read.scope.fresh
    obtain ⟨m3, hb3, h3⟩ := scope (hdec.bind (Steps.of_eq fun _ => rfl)) hin
    refine .inr ⟨out, data, m3, rfl, St.at_of_holds hs.holds List.prefix_rfl, h3, St.at_of_holds ?_ List.prefix_rfl⟩
    rw [hb3.get_eq]
    exact hs.holds.put_back _
  · rw [hr] at hdec ⊢
    obtain ⟨m3, -, h3⟩ := scope hdec.bind_error (h.read.scope.after hb)
    exact .inl ⟨e, m3, rfl, h3⟩

end Calls

/-! ### Agreement -/

/-- The three calls end with the same status, and if that is `MC_OK`, with the same plaintext: in memory for the one and
the other, in the file for the third. -/
def Agree (w : World) (os : Os) (key : Bytes) (i o : Path) (f : Bytes) (s : St) (m : Machine) : Prop :=
  (∃ e m1 m2, (mcDecryptBuffer w (.bytes key) (.bytes f) false false s).1 = .error (.status e) ∧
    Returns (mcDecryptFileToBuffer w os (.bytes key) (some i) false false) m (.error (.status e)) m1 ∧
    Returns (mcDecryptFile w os (.bytes key) (some i) (some o)) m (.error (.status e)) m2) ∨
  ∃ data out out' m1 m2, (mcDecryptBuffer w (.bytes key) (.bytes f) false false s).1 = .ok (out, data.length) ∧
    (mcDecryptBuffer w (.bytes key) (.bytes f) false false s).2.At out data ∧
    Returns (mcDecryptFileToBuffer w os (.bytes key) (some i) false false) m (.ok (out', data.length)) m1 ∧
    m1.st.At out' data ∧ Returns (mcDecryptFile w os (.bytes key) (some i) (some o)) m (.ok ()) m2 ∧
    m2.holds os (some o) = some ⟨data, 0o600⟩

/-- All three calls end with the status. -/
def AllReport (w : World) (os : Os) (key : Bytes) (i o : Path) (f : Bytes) (s : St) (m : Machine)
    (e : McStatus) : Prop :=
  (mcDecryptBuffer w (.bytes key) (.bytes f) false false s).1 = .error (.status e) ∧
    (∃ m', Returns (mcDecryptFileToBuffer w os (.bytes key) (some i) false false) m (.error (.status e)) m') ∧
    ∃ m', Returns (mcDecryptFile w os (.bytes key) (some i) (some o)) m (.error (.status e)) m'

/-- A file that can be read in full, a path that can be written, and a call on the same bytes in memory, with the same
outcomes of what the three calls ask for: that of `s` starts after the one allocation that `ReadFile` makes. -/
structure Alike (w : World) (os : Os) (key : Bytes) (i o : Path) (f : Bytes) (s : St) (m : Machine) : Prop where
  key : mcMinKeySize ≤ key.length
  fits : f.length ≤ kMaxFileSize.toNat
  size : f.length ≤ w.sizeT.max
  readable : Readable os m i f
  writable : Writable os m.disk o
  inputPath : os.string m.time .inputPath i.length = true
  outputPath : os.string m.time .outputPath o.length = true
  memory : f ≠ [] → w.alloc m.st.trace.length f.length = true
  trace : s.trace = m.st.trace ++ readEvents f.length

/-- From two memories with the same trace, decryption ends in the same way. -/
theorem decryptBuffer_same (key : Span) {input : Span} {s s' : St} (hin : input.size ≤ w.sizeT.max)
    (ht : s.trace = s'.trace) :
    (∃ e, (Decrypt.decryptBuffer w key input s).1 = .error (.status e) ∧
      (Decrypt.decryptBuffer w key input s').1 = .error (.status e)) ∨
    ∃ out out' data, (Decrypt.decryptBuffer w key input s).1 = .ok (out, data.length) ∧
      (Decrypt.decryptBuffer w key input s).2.At out.data data ∧
      (Decrypt.decryptBuffer w key input s').1 = .ok (out', data.length) ∧
      (Decrypt.decryptBuffer w key input s').2.At out'.data data := by
  rcases Decrypt.decryptBuffer_refines w key input s hin with
    ⟨⟨out, n⟩, data, s1, h1, h2, hs, hn⟩ | ⟨e, s1, h1, h2, -⟩ <;>
    rcases Decrypt.decryptBuffer_refines w key input s' hin with
      ⟨⟨out', n'⟩, data', s1', h1', h2', hs', hn'⟩ | ⟨e', s1', h1', h2', -⟩ <;>
    rw [ht, h2'] at h2 <;> cases (Prod.mk.inj h2).1 <;> rw [h1, h1']
  · subst hn
    subst hn'
    exact .inr ⟨out, out', data, rfl, St.at_of_holds hs.holds List.prefix_rfl, rfl,
      St.at_of_holds hs'.holds List.prefix_rfl⟩
  · exact .inl ⟨e, rfl, rfl⟩

section Agree

variable {i o : Path} {key f : Bytes} {s : St}

/-- The status of `DecryptBuffer` is that of `mc_decrypt_buffer`. -/
theorem mcDecryptBuffer_status {key input : Span} {e : Stop} (h : (Decrypt.decryptBuffer w key input s).1 = .error e) :
    (mcDecryptBuffer w key input false false s).1 = .error e := by
  rw [mcDecryptBuffer_eq, bind_error (run_eq h)]

theorem mcDecryptBuffer_delivers {key input : Span} {out : SecureBuffer} {n : ℕ}
    (h : (Decrypt.decryptBuffer w key input s).1 = .ok (out, n)) : mcDecryptBuffer w key input false false s =
      (.ok (out.data, n), (Decrypt.decryptBuffer w key input s).2) := by
  rw [mcDecryptBuffer_eq, bind_ok (run_eq h)]
  rfl

/-- **The three calls agree on a file that is not empty.** -/
theorem agree_of_nonempty (h : Alike w os key i o f s m) (hne : f ≠ []) : Agree w os key i o f s m := by
  obtain ⟨buf, input, m1, hin⟩ := input_of_readable (w := w) h.readable h.fits h.size h.memory
  obtain rfl := hin.denotes.eq_bytes hne
  have hsame := decryptBuffer_same (.bytes key) (show (Span.bytes f).size ≤ w.sizeT.max from
    h.size) (h.trace.trans hin.read.trace.symm)
  have hfile := cryptFile_returns (crypts_decrypt w (.bytes key)) 0o600 h.inputPath h.outputPath hin h.writable
  have hbuf := decryptFileToBuffer_returns (.bytes key) h.inputPath hin
  rcases hsame with ⟨e, h1, h2⟩ | ⟨out, out', data, h1, hat, h2, hat'⟩ <;> rw [h2] at hfile hbuf
  · rcases hfile with ⟨_, m2, he, hr2⟩ | ⟨_, _, _, he, -⟩ <;> cases he
    rcases hbuf with ⟨_, m3, he, hr3⟩ | ⟨_, _, _, he, -⟩ <;> cases he
    exact .inl ⟨e, m3, m2, mcDecryptBuffer_status h1, hr3, hr2⟩
  · rcases hfile with ⟨_, _, he, -⟩ | ⟨_, data2, m2, he, hat2, hr2, hl⟩
    · cases he
    rcases hbuf with ⟨_, _, he', -⟩ | ⟨_, data3, m3, he', hat3, hr3, hd3⟩
    · cases he'
    obtain ⟨rfl, hl2⟩ := Prod.mk.inj (Except.ok.inj he)
    obtain ⟨rfl, hl3⟩ := Prod.mk.inj (Except.ok.inj he')
    obtain rfl := Encrypt.At.inj hat' hat2 hl2
    obtain rfl := Encrypt.At.inj hat' hat3 hl3
    have hrun := mcDecryptBuffer_delivers h1
    exact .inr ⟨data, out.data, out'.data, m3, m2, by rw [hrun], by rw [hrun]; exact hat, hr3, hd3, hr2, hl.holds⟩

/-- A file shorter than a header is refused. -/
theorem decrypt_short {key : Span} {tr : List Event} (hk : key.isNull = false) (hs : mcMinKeySize ≤ key.size)
    (hf : f.length < kHeaderSize) : (Ref.decrypt w key (.bytes f) tr).1 = .error .errFormat := by
  rw [Ref.decrypt, Ref.returnIf, throwIf_neg (by simp [hk]), Ref.returnIf, throwIf_neg (Nat.not_lt.mpr hs),
    parseFileHeader_short hf]
  rfl

/-- The table of a truncated container does not end where the file ends. -/
theorem tableOf_truncated (c : Container) {n : ℕ} (hn : n < c.bytes.length) (hge : kHeaderSize ≤ n) :
    tableOf c.header (c.bytes.take n) = .error .errFormat := by
  rcases ht : tableOf c.header (c.bytes.take n) with e | rs
  · rw [tableOf_error ht]
  obtain ⟨hcount, hb, hfit⟩ := tableOf_ok_iff.mp ht
  have hsplit : c.bytes.drop kHeaderSize = recordBytes rs ++ c.bytes.drop n := by
    rw [← hb]
    nth_rewrite 1 [← List.take_append_drop n c.bytes]
    rw [List.drop_append_of_le_length (by rw [List.length_take]; omega)]
  have hread := readRecords_iff.mpr ⟨hcount, hsplit, hfit⟩
  rw [c.read] at hread
  have hnil := congrArg List.length (Prod.mk.inj (Option.some.inj hread)).2
  rw [List.length_nil, List.length_drop] at hnil
  omega

/-- **A truncated container is refused.** -/
theorem decrypt_truncated (c : Container) {key : Span} {tr : List Event} {n : ℕ} (hk : key.isNull = false)
    (hs : mcMinKeySize ≤ key.size) (hn : n < c.bytes.length) (halloc : ∀ k, w.alloc tr.length k = true) :
    (Ref.decrypt w key (.bytes (c.bytes.take n)) tr).1 = .error .errFormat := by
  have hlen : (c.bytes.take n).length = n := List.length_take_of_le (le_of_lt hn)
  by_cases hge : n < kHeaderSize
  · exact decrypt_short hk hs (by rwa [hlen])
  rw [Nat.not_lt] at hge
  obtain ⟨-, hv, hh⟩ := parseFileHeader_ok_iff.mp c.parse
  have hp : parseFileHeader (.bytes (c.bytes.take n)) = .ok c.header := by
    refine parseFileHeader_ok_iff.mpr ⟨by rwa [hlen], hv, ?_⟩
    rw [slice_take, List.take_take, Nat.min_eq_left hge, ← slice_take, hh]
  have hcount := hv.count_le
  have hpos := hv.count_pos
  have hmax := w.sizeT.max_ge
  have hsz : c.header.chunkCount.toNat * w.sizeT.sizeofChunkEntry ≤ 2 ^ 24 * 32 :=
    Nat.mul_le_mul hcount (sizeofChunkEntry_le _)
  have hne : c.header.chunkCount.toNat * w.sizeT.sizeofChunkEntry ≠ 0 :=
    Nat.mul_ne_zero (by omega) (by cases w.sizeT <;> decide)
  have htable : (Ref.table w c.header (c.bytes.take n) tr).1 = .error .errFormat := by
    unfold Ref.table Ref.returnIf
    by_cases hmin : (c.bytes.take n).length < kHeaderSize + c.header.chunkCount.toNat * kChunkHeaderSize
    · rw [throwIf_pos hmin]
      rfl
    have hal : Ref.alloc w .entryStorage _ tr = _ := Ref.alloc_eq hne
    rw [if_pos (halloc _)] at hal
    rw [throwIf_neg hmin, throwIf_neg (by omega), bind_ok hal, tableOf_truncated c hn hge]
    rfl
  rw [Ref.decrypt_parsed hk hs hp, bind_error (run_eq htable)]

/-- On the empty file the calls on files refuse the pointer, and the call on a buffer refuses the file. -/
theorem reports_of_empty (h : Alike w os key i o [] s m) :
    (mcDecryptBuffer w (.bytes key) (.bytes []) false false s).1 = .error (.status .errFormat) ∧
    (∃ m', Returns (mcDecryptFileToBuffer w os (.bytes key) (some i) false false) m
      (.error (.status .errInvalidArg)) m') ∧
    ∃ m', Returns (mcDecryptFile w os (.bytes key) (some i) (some o)) m (.error (.status .errInvalidArg)) m' := by
  obtain ⟨buf, input, m1, hin⟩ := input_of_readable (w := w) h.readable h.fits h.size h.memory
  obtain rfl := hin.null rfl
  have hrefused (s' : St) : Decrypt.decryptBuffer w (.bytes key) (.null 0) s' =
    (.error (.status .errInvalidArg), s') := rfl
  have hfile := cryptFile_returns (crypts_decrypt w (.bytes key)) 0o600 h.inputPath h.outputPath hin h.writable
  have hbuf := decryptFileToBuffer_returns (.bytes key) h.inputPath hin
  rw [hrefused] at hfile hbuf
  refine ⟨mcDecryptBuffer_status ?_, ?_, ?_⟩
  · exact (Decrypt.decryptBuffer_ref w (.bytes key) (.bytes []) s (Nat.zero_le _)).2 _
      (decrypt_short rfl h.key (by simp))
  · rcases hbuf with ⟨_, m3, he, hr3⟩ | ⟨_, _, _, he, -⟩ <;> cases he
    exact ⟨m3, hr3⟩
  · rcases hfile with ⟨_, m2, he, hr2⟩ | ⟨_, _, _, he, -⟩ <;> cases he
    exact ⟨m2, hr2⟩

/-- A truncated output of `EncryptBuffer`. -/
def Truncated (f : Bytes) : Prop :=
  ∃ (c : Encrypt.Call) (out : Bytes), c.world.Zlib ∧ c.Makes out ∧ f.length < out.length ∧ f <+: out

theorem Truncated.refused (ht : Truncated f) (h : Alike w os key i o f s m)
    (halloc : ∀ k, w.alloc s.trace.length k = true) :
    (Decrypt.decryptBuffer w (.bytes key) (.bytes f) s).1 = .error (.status .errFormat) := by
  obtain ⟨call, out, hz, hm, hlt, hpre⟩ := ht
  obtain ⟨k, hd, rs, hout, rfl⟩ := Encrypt.Call.output hm
  obtain ⟨c, -, -, hc⟩ := hout.finished.container hz
  rw [← hc] at hlt hpre
  refine (Decrypt.decryptBuffer_ref w (.bytes key) (.bytes f) s h.size).2 _ ?_
  rw [List.prefix_iff_eq_take.mp hpre]
  exact decrypt_truncated c rfl h.key hlt halloc

end Agree

/-- **The calls on files agree with the call on buffers, on all files but the empty one**: they return the same
status, and on `MC_OK` deliver the same plaintext. So do they report a truncated output, unless nothing is left of it.
-/
theorem files_agree (w : World) (os : Os) (key : Bytes) (i o : Path) (f : Bytes) (s : St) (m : Machine)
    (h : Alike w os key i o f s m) : (Agree w os key i o f s m ↔ f ≠ []) ∧
      (Truncated f → (∀ k, w.alloc s.trace.length k = true) → (AllReport w os key i o f s m .errFormat ↔ f ≠ [])) := by
  refine ⟨⟨?_, agree_of_nonempty h⟩, fun ht halloc => ⟨?_, fun hne => ?_⟩⟩
  · rintro hagree rfl
    obtain ⟨h1, ⟨m2, h2⟩, -⟩ := reports_of_empty h
    rcases hagree with ⟨e, m1, -, he, hr, -⟩ | ⟨_, _, _, _, _, he, -⟩
    · rw [h1] at he
      cases he
      cases hr.unique h2
    · rw [h1] at he
      cases he
  · rintro ⟨-, ⟨m1, hr⟩, -⟩ rfl
    obtain ⟨-, ⟨m2, h2⟩, -⟩ := reports_of_empty h
    cases hr.unique h2
  · have hst := mcDecryptBuffer_status (ht.refused h halloc)
    rcases agree_of_nonempty h hne with ⟨e, m1, m2, he, h1, h2⟩ | ⟨_, _, _, _, _, he, -⟩
    · rw [hst] at he
      cases he
      exact ⟨hst, ⟨m1, h1⟩, m2, h2⟩
    · rw [hst] at he
      cases he

/-- Any short file, where every call succeeds. -/
theorem sample_alike (f : Bytes) (hf : f.length ≤ 2 ^ 32) : Alike sampleWorld (sampleOs f.length) (zeros mcMinKeySize)
    sampleIn sampleOut f ⟨[], readEvents f.length⟩ (sampleMachine ⟨f, 0o644⟩) where
  key := le_refl _
  fits := hf.trans (by decide)
  size := hf.trans (by decide)
  readable := ⟨⟨0, rfl, rfl⟩, fun _ => rfl, fun _ => rfl, fun _ => ⟨by simp [sampleOs], by simp [sampleOs]⟩,
    fun t => ⟨t, le_refl t, by simp [sampleOs]⟩⟩
  writable := ⟨fun _ => ⟨rfl, fun _ => rfl, rfl, rfl⟩, ⟨_, rfl⟩, fun _ => ⟨sampleSuffix, _, rfl, rfl, rfl⟩, fun _ => rfl,
    fun _ => by simp [sampleOs], fun t => ⟨t, le_refl t, 4095, rfl⟩, fun _ => rfl, fun _ => rfl, fun _ => rfl⟩
  inputPath := rfl
  outputPath := rfl
  memory _ := rfl
  trace := rfl

theorem sampleCipher_agree : sampleCipher.length = 94 ∧
    Agree sampleWorld (sampleOs sampleCipher.length) (zeros mcMinKeySize) sampleIn sampleOut sampleCipher
    ⟨[], readEvents sampleCipher.length⟩ (sampleMachine ⟨sampleCipher, 0o644⟩) := by
  have hlen : sampleCipher.length = 94 := by decide +kernel
  exact ⟨hlen, (files_agree sampleWorld (sampleOs sampleCipher.length) (zeros mcMinKeySize) sampleIn sampleOut
    sampleCipher _ _
    (sample_alike sampleCipher (by rw [hlen]; decide))).1.mpr (List.ne_nil_of_length_pos (by rw [hlen]; decide))⟩

/-- **On the empty file the calls differ**: a wrong file to the one, a wrong argument to the others. -/
theorem emptyFile_disagrees : Alike sampleWorld (sampleOs 0) (zeros mcMinKeySize) sampleIn sampleOut [] ⟨[], []⟩
      (sampleMachine ⟨[], 0o644⟩) ∧
    (mcDecryptBuffer sampleWorld sampleKey (.bytes []) false false ⟨[], []⟩).1 = .error (.status .errFormat) ∧
    (mcDecryptFileToBuffer sampleWorld (sampleOs 0) sampleKey (some sampleIn) false false
      (sampleMachine ⟨[], 0o644⟩)).1 =
      .error (.status .errInvalidArg) ∧
    (mcDecryptFile sampleWorld (sampleOs 0) sampleKey (some sampleIn) (some sampleOut) (sampleMachine ⟨[], 0o644⟩)).1 =
      .error (.status .errInvalidArg) :=
  ⟨sample_alike [] (by decide), by decide +kernel, by decide +kernel, by decide +kernel⟩

end ModelCrypt
