/-
# An encrypted file decrypts, wherever the decrypter gets it

What `mc_encrypt_file` leaves at its output path opens under the key it was
given (`OpensTo`), and every call that reads the file back gets the plaintext:
`mc_decrypt_file_to_buffer` in memory, `mc_decrypt_file` in a file of mode 0600.

Key definitions: `OpensTo`.
Key theorems: `mcEncryptFile_opens`, `OpensTo.fileToBuffer`, `OpensTo.file`.
-/
import ModelCrypt.EncryptSizes
import ModelCrypt.FileAgree

namespace ModelCrypt

open Lib Prog Fileio

variable {w : World} {os : Os} {key : Span} {m m' : Machine} {i o : Path} {f pt : Bytes}

/-- From every memory, `DecryptBuffer` turns the file into the plaintext, if nothing it asks for fails. The file
can be read by this build. -/
structure OpensTo (w : World) (key : Span) (f pt : Bytes) : Prop where
  nonempty : f ≠ []
  fits : f.length ≤ kMaxFileSize.toNat
  size : f.length ≤ w.sizeT.max
  decrypts : ∀ s : St, w.Reads s.trace.length → ∃ out s', Decrypt.decryptBuffer w key (.bytes f) s =
    (.ok (out, pt.length), s') ∧ s'.At out.data pt

/-! ### What encryption leaves -/

/-- The size that `ReadFile` returns is the one that `fstat` reports. -/
theorem readFile_size {maxSize : UInt64} {st : Stat} {a : SecureBuffer × ℕ} (hst : ∀ t, os.fstat t = some st)
    (h : readFile os w i maxSize m = (.ok a, m')) : a.2 = st.size.toNat := by
  unfold readFile at h
  obtain ⟨_ | fd, m1, -, h⟩ := bind_eq_ok.mp h
  · cases h
  obtain ⟨_ | st', m2, hstat, h⟩ := bind_eq_ok.mp h
  · obtain ⟨_, _, -, h⟩ := bind_eq_ok.mp h
    cases h
  have heq : st' = st := by
    unfold sysFstat syscall at hstat
    split at hstat
    · cases hstat
    · obtain ⟨hr, -⟩ := Prod.mk.inj hstat
      obtain ⟨_, -, hr⟩ := Option.bind_eq_some_iff.mp (Except.ok.inj hr)
      exact Option.some.inj (hr.symm.trans (hst _))
  subst heq
  obtain ⟨_, _, -, h⟩ := bind_eq_ok.mp h
  obtain ⟨_, _, -, h⟩ := bind_eq_ok.mp h
  obtain ⟨_, _, -, h⟩ := bind_eq_ok.mp h
  obtain ⟨⟨ok, buf⟩, _, -, h⟩ := bind_eq_ok.mp h
  have hbody := onStop_eq_ok h
  obtain ⟨_, _, -, h⟩ := bind_eq_ok.mp hbody
  obtain ⟨_, _, -, h⟩ := bind_eq_ok.mp h
  obtain ⟨_, _, -, h⟩ := bind_eq_ok.mp h
  cases h
  rfl

/-- **What `mc_encrypt_file` left at its output path opens to the contents of its input**, under the same key. -/
theorem mcEncryptFile_opens (hw : w.Lawful) (opts : Option EncryptOptions)
    (hfile : ∃ inode, (os.follow i).bind m.disk.entry = some inode ∧ m.contents inode = pt)
    (hst : ∀ t, os.fstat t = some ⟨true, pt.length⟩)
    (hrun : mcEncryptFile w os key opts (some i) (some o) m = (.ok (), m')) :
    ∃ f, m'.holds os (some o) = some ⟨f, 0o644⟩ ∧ OpensTo w key f pt := by
  obtain ⟨inode, hentry, rfl⟩ := hfile
  have hends := cryptFile_ends w os (crypts_encrypt w key (opts.getD defaultOptions)) mcMaxPlaintextSize 0o644
    (some i) (some o) m
  unfold Ends at hends
  rw [show cryptFile w os (Encrypt.encryptBuffer w key (opts.getD defaultOptions)) mcMaxPlaintextSize 0o644 (some i)
    (some o) m = (.ok (), m') from hrun] at hends
  rcases hends.1 with ⟨hne, -⟩ | ⟨f, path, hpath, hmakes, hl⟩
  · exact absurd rfl hne
  cases hpath
  obtain ⟨path, buf, x, m1, input, out, s2, hp, hread, hfr, hden, henc, hat⟩ := hmakes
  cases hp
  have hlen : x.length = (m.contents inode).length := readFile_size hst hread
  obtain ⟨inode', hentry', hpre⟩ := hfr.start
  cases hentry.symm.trans hentry'
  obtain rfl := hpre.eq_of_length hlen
  obtain ⟨k, h, rs, hist, hf, hsize, hat', hdec⟩ := Encrypt.encryptBuffer_decryptBuffer hw henc
  obtain rfl := Encrypt.At.inj hat hat' hsize.symm
  refine ⟨_, hl.holds, ?_, ?_, ?_, ?_⟩
  · intro hnil
    have := congrArg List.length hnil
    rw [List.length_append, serializeFileHeader_length, List.length_nil, kHeaderSize] at this
    omega
  · have hworst : h.worstCase = Encrypt.worstCase (opts.getD defaultOptions) input.size := by
      rw [hf.header]
      exact Encrypt.headerFor_worstCase _ _ hf.bound
    exact hf.size_le.trans (hworst ▸ Encrypt.worstCase_le hf.options hf.bound)
  · exact hf.size_le.trans hf.room
  · rwa [hden.size, hden.toBytes] at hdec

/-! ### What decryption makes of it -/

/-- Reading the file leaves a memory from which nothing fails either. -/
theorem OpensTo.input (h : OpensTo w key f pt) (hread : Readable os m i f) (hr : w.Reads m.st.trace.length) :
    ∃ buf m1 out s', Input w os i kMaxFileSize m f buf (.bytes f) m1 ∧
      Decrypt.decryptBuffer w key (.bytes f) m1.st = (.ok (out, pt.length), s') ∧ s'.At out.data pt := by
  obtain ⟨buf, input, m1, hin⟩ := input_of_readable (w := w) hread h.fits h.size fun _ => hr.alloc _ _ (le_refl _)
  obtain rfl := hin.denotes.eq_bytes h.nonempty
  have hle : m.st.trace.length ≤ m1.st.trace.length := by
    rw [hin.read.trace, List.length_append]
    omega
  have hr1 : w.Reads m1.st.trace.length :=
    ⟨⟨fun t n ht => hr.alloc t n (hle.trans ht), fun t ht => hr.inflateInit t (hle.trans ht)⟩,
      fun t c ht => hr.evp t c (hle.trans ht)⟩
  obtain ⟨out, s', hdec, hat⟩ := h.decrypts m1.st hr1
  exact ⟨buf, m1, out, s', hin, hdec, hat⟩

/-- **`mc_decrypt_file_to_buffer` returns the plaintext.** -/
theorem OpensTo.fileToBuffer (h : OpensTo w key f pt) (hread : Readable os m i f)
    (hi : os.string m.time .inputPath i.length = true) (hr : w.Reads m.st.trace.length) :
    ∃ out m', Returns (mcDecryptFileToBuffer w os key (some i) false false) m (.ok (out, pt.length)) m' ∧
      m'.st.At out pt := by
  obtain ⟨buf, m1, out, s', hin, hdec, hat⟩ := h.input hread hr
  rcases decryptFileToBuffer_returns key hi hin with ⟨e, m2, he, -⟩ | ⟨out', data, m2, hd, hat', hret, hat2⟩
  · rw [hdec] at he
    cases he
  · rw [hdec] at hd hat'
    obtain ⟨rfl, hlen⟩ := Prod.mk.inj (Except.ok.inj hd)
    obtain rfl := Encrypt.At.inj hat hat' hlen
    exact ⟨_, m2, hret, hat2⟩

/-- **`mc_decrypt_file` writes the plaintext**, readable by its owner alone. -/
theorem OpensTo.file (h : OpensTo w key f pt) (hread : Readable os m i f) (hwrite : Writable os m.disk o)
    (hi : os.string m.time .inputPath i.length = true) (ho : os.string m.time .outputPath o.length = true)
    (hr : w.Reads m.st.trace.length) : ∃ m', Returns (mcDecryptFile w os key (some i) (some o)) m (.ok ()) m' ∧
      m'.holds os (some o) = some ⟨pt, 0o600⟩ := by
  obtain ⟨buf, m1, out, s', hin, hdec, hat⟩ := h.input hread hr
  rcases cryptFile_returns (crypts_decrypt w key) 0o600 hi ho hin hwrite with
    ⟨e, m2, he, -⟩ | ⟨out', data, m2, hd, hat', hret, hl⟩
  · rw [hdec] at he
    cases he
  · rw [hdec] at hd hat'
    obtain ⟨rfl, hlen⟩ := Prod.mk.inj (Except.ok.inj hd)
    obtain rfl := Encrypt.At.inj hat hat' hlen
    exact ⟨m2, hret, hl.holds⟩

end ModelCrypt
