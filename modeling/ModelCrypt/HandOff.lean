/-
# What a call hands off

A call that hands a buffer to its caller ends in one of two ways: with one new
block, which holds what was made and then zeros, or with a status and the memory
as it was. What was made is the file that the format gives for the draws of the
call, or what the plain reader reads of the input. `mc_decrypt_file_to_buffer`
reads the input at the path; its buffer dies before the call is over.

Key definitions: `HandsOff`, `Encrypt.Wrote`, `Plain.ReadsBack`, `ReadsFile`.
Key theorems: `mcEncryptBuffer_handsOff`, `mcDecryptBuffer_handsOff`, `mcDecryptFileToBuffer_handsOff`.
-/
import ModelCrypt.Atomic
import ModelCrypt.Conformance
import ModelCrypt.PlainReader

namespace ModelCrypt

open Lib Prog Fileio

/-- How a call ends that began with the memory `h`: with one new block, which holds what was made and
then zeros, or with a status. -/
inductive HandsOff (h : Heap) (made : Bytes → Prop) : Except Stop (Option ℕ × ℕ) → St → Prop
  | handed {buf : SecureBuffer} {x : Bytes} {j : ℕ} {s : St} (hx : made x) (tight : x = [] → j = 0)
    (scope : InScope h h.get buf (x ++ zeros j) s) : HandsOff h made (.ok (buf.data, x.length)) s
  | failed {e : McStatus} {s : St} (same : Heap.Becomes h s.heap h.get) : HandsOff h made (.error (.status e)) s

theorem HandsOff.imp {h : Heap} {made made' : Bytes → Prop} {r : Except Stop (Option ℕ × ℕ)} {s : St}
    (hh : HandsOff h made r s) (hi : ∀ x, made x → made' x) : HandsOff h made' r s := by
  cases hh with
  | handed hx tight scope => exact .handed (hi _ hx) tight scope
  | failed same => exact .failed same

variable {w : World} {os : Os} {key input : Span} {outNull outSizeNull : Bool}

/-! ### A file -/

/-- `x` is the file of the format for what a call that began after `t` events drew and derived, with
the streams that deflate answered with at some times. -/
def Encrypt.Wrote (w : World) (key : Span) (opts : EncryptOptions) (input : Span) (t : ℕ) (x : Bytes) : Prop :=
  ∃ (salt : ByteVec kSaltSize) (np : ByteVec kNoncePrefixSize) (k : ByteVec kKeySize) (times : ℕ → ℕ),
    w.rand t kSaltSize = some salt ∧ w.rand (t + 1) kNoncePrefixSize = some np ∧
    w.scrypt (t + 3) (scryptArgs key.toBytes salt.1 opts.kdfLogN opts.kdfR opts.kdfP) = some k ∧
    x = Spec.file w k.1 (headerFor opts input.size salt np)
      (streams w opts (headerFor opts input.size salt np) times input.toBytes) input.toBytes

theorem Encrypt.Wrote.ne_nil {opts : EncryptOptions} {t : ℕ} {x : Bytes} (h : Encrypt.Wrote w key opts input t x) :
    x ≠ [] := by
  obtain ⟨salt, np, k, times, -, -, -, rfl⟩ := h
  rw [Spec.file, ← Spec.header_eq, serializeFileHeader_eq]
  simp [FileHeader.fields, kMagic]

/-- **What `mc_encrypt_buffer` hands off** is a file of the format. -/
theorem mcEncryptBuffer_handsOff (opts : Option EncryptOptions) (s : St) :
    Ends (mcEncryptBuffer w key opts input outNull outSizeNull) s fun r s' => HandsOff s.heap (fun x =>
      Encrypt.Wrote w key (opts.getD defaultOptions) input s.trace.length x ∧
        Turns (Encrypt.encryptBuffer w key (opts.getD defaultOptions)) input.toBytes x) r s' := by
  refine Ends.throwIf (fun _ => .failed (.refl _)) fun _ => ?_
  rcases Encrypt.encryptBuffer_refines w key (opts.getD defaultOptions) input s with
    ⟨⟨buf, n⟩, b, s1, h1, h2, x, ⟨⟨j, -, rfl⟩, hn⟩, hs⟩ | ⟨e, s1, h1, -, hb⟩
  · obtain rfl : n = b.length := hn
    obtain ⟨salt, np, k, ts, hsalt, hnp, hk, ⟨-, -, hden⟩, -, hfile⟩ := Encrypt.encrypt_ok h2
    have hwrote : Encrypt.Wrote w key (opts.getD defaultOptions) input s.trace.length b :=
      ⟨salt, np, k, _, hsalt, hnp, hk, hfile⟩
    refine Ends.of_eq (bind_ok h1) (.handed ⟨hwrote, ?_⟩ (fun hx => absurd hx hwrote.ne_nil) hs)
    exact ⟨input, s, buf, s1, hden, h1, St.at_of_holds hs.holds (List.prefix_append ..)⟩
  · exact Ends.of_eq (bind_error h1) (.failed hb)

/-! ### A plaintext -/

/-- `x` is what the plain reader reads of the file `y` in a call that began after `t` events, when it
opens the chunks at some times. -/
def Plain.ReadsBack (w : World) (key : Span) (y : Bytes) (t : ℕ) (x : Bytes) : Prop :=
  ∃ times, Plain.read w (t + 3) times key.toBytes y = .ok x

theorem Ref.decrypt_denotes {x : Bytes} {tr tr' : List Event} (h : Ref.decrypt w key input tr = (.ok x, tr')) :
    input.Denotes input.toBytes := by
  unfold Ref.decrypt at h
  rw [bind_eq_ok] at h
  obtain ⟨_, _, e, -⟩ := h
  obtain ⟨hnull, -⟩ := throwIf_eq_ok.mp e
  cases input with
  | null => exact absurd rfl (not_or.mp hnull).2
  | bytes b => exact .bytes b

/-- How the decryption inside of a call ends. -/
theorem ends_decrypt (hin : input.size ≤ w.sizeT.max) (s : St) : Ends (Decrypt.decryptBuffer w key input) s fun r s' =>
    (∃ (buf : SecureBuffer) (x : Bytes), r = .ok (buf, x.length) ∧
      (Plain.ReadsBack w key input.toBytes s.trace.length x ∧ Turns (Decrypt.decryptBuffer w key) input.toBytes x) ∧
      InScope s.heap s.heap.get buf x s') ∨
    ∃ e, r = .error (.status e) ∧ Heap.Becomes s.heap s'.heap s.heap.get := by
  rcases Decrypt.decryptBuffer_refines w key input s hin with ⟨⟨buf, n⟩, x, s1, h1, h2, hs, hn⟩ | ⟨e, s1, h1, -, hb⟩
  · obtain rfl : n = x.length := hn
    refine Ends.of_eq h1 (.inl ⟨buf, x, rfl, ⟨⟨_, Plain.decrypt_ok h2⟩, ?_⟩, hs⟩)
    exact ⟨input, s, buf, s1, Ref.decrypt_denotes h2, h1, St.at_of_holds hs.holds List.prefix_rfl⟩
  · exact Ends.of_eq h1 (.inr ⟨e, rfl, hb⟩)

/-- A buffer that is handed off as it is. -/
theorem HandsOff.whole {h : Heap} {made : Bytes → Prop} {buf : SecureBuffer} {x : Bytes} {s : St} (hx : made x)
    (hs : InScope h h.get buf x s) : HandsOff h made (.ok (buf.data, x.length)) s := by
  refine .handed (j := 0) hx (fun _ => rfl) ?_
  rwa [zeros_zero, List.append_nil]

/-- **What `mc_decrypt_buffer` hands off** is what the plain reader reads. -/
theorem mcDecryptBuffer_handsOff (hin : input.size ≤ w.sizeT.max) (s : St) :
    Ends (mcDecryptBuffer w key input outNull outSizeNull) s fun r s' => HandsOff s.heap (fun x =>
      Plain.ReadsBack w key input.toBytes s.trace.length x ∧
        Turns (Decrypt.decryptBuffer w key) input.toBytes x) r s' := by
  refine Ends.throwIf (fun _ => .failed (.refl _)) fun _ => Ends.bind (ends_decrypt hin s) ?_ ?_
  · rintro _ s1 (⟨buf, x, hr, hx, hs⟩ | ⟨_, hr, -⟩) <;> cases hr
    exact .whole hx hs
  · rintro _ s1 (⟨_, _, hr, -⟩ | ⟨e, hr, hb⟩) <;> cases hr
    exact .failed hb

/-! ### The plaintext of a file at a path -/

theorem toPath_ends (path : Option Path) (m : Machine) : ∃ r, catchBadAlloc (toPath os .inputPath path) m = (r, m) ∧
    ((∃ i, path = some i ∧ r = .ok i) ∨ ∃ e, r = .error (.status e)) := by
  unfold catchBadAlloc
  rw [catch_apply]
  rcases path with _ | i
  · exact ⟨_, rfl, .inr ⟨_, rfl⟩⟩
  by_cases hi : os.string m.time .inputPath i.length = true
  · rw [toPath, bind_ok (newString_ok hi)]
    exact ⟨_, rfl, .inl ⟨_, rfl, rfl⟩⟩
  · rw [toPath, bind_error (newString_bad hi)]
    exact ⟨_, rfl, .inr ⟨_, rfl⟩⟩

/-- The scope of the ciphertext: the plaintext is made next to it, or it is all there is. -/
theorem ends_inCiphertext {i : Path} {m m1 : Machine} {buf : SecureBuffer} {y : Bytes}
    (h : FileRead w os i kMaxFileSize m buf y m1) :
    Ends (do
      let input ← onSt (spanAt buf.ptr y.length)
      let (plaintext, plaintextSize) ← onSt (Decrypt.decryptBuffer w key input)
      return handOff plaintext plaintextSize) m1 fun r m2 =>
    (∃ (p : SecureBuffer) (x : Bytes), r = .ok (p.data, x.length) ∧
      (Plain.ReadsBack w key y m1.st.trace.length x ∧ Turns (Decrypt.decryptBuffer w key) y x) ∧
      InScope m.st.heap (p.over x m.st.heap.get) buf y m2.st ∧ p.Fresh m.st.heap.get ∧
      p.Holds (p.over x m.st.heap.get) x) ∨
    ∃ e, r = .error (.status e) ∧ InScope m.st.heap m.st.heap.get buf y m2.st := by
  obtain ⟨input, hspan, hden⟩ := spanAt_run h.scope.holds
  have hspan' : onSt (spanAt buf.ptr y.length) m1 = (.ok input, m1) := by rw [onSt_run, hspan]
  refine Ends.step hspan' (Ends.bind (ends_onSt_st (ends_decrypt (hden.size.trans_le h.le_size) m1.st)) ?_ ?_)
  · rintro _ m2 (⟨p, x, hr, hx, hs⟩ | ⟨_, hr, -⟩) <;> cases hr
    rw [hden.toBytes] at hx
    have hs' := h.scope.since hs
    obtain ⟨hbuf, hp⟩ := hs'.swap (h.scope.holds.put_back _) h.scope.fresh
    exact .inl ⟨p, x, rfl, hx, hbuf, hp, hs'.holds.put_back _⟩
  · rintro _ m2 (⟨_, _, hr, -⟩ | ⟨e, hr, hb⟩) <;> cases hr
    exact .inr ⟨e, rfl, h.scope.after hb⟩

/-- A call read the file at a path, and handed off what the plain reader reads of it. -/
def ReadsFile (w : World) (os : Os) (key : Span) (path : Option Path) (m : Machine) (x : Bytes) : Prop :=
  ∃ i f y, path = some i ∧ (os.follow i).bind (fun n => m.disk.look n) = some f ∧ Reads os f y ∧
    Plain.ReadsBack w key y (m.st.trace ++ readEvents y.length).length x

/-- **What `mc_decrypt_file_to_buffer` hands off** is what the plain reader reads of the file at the
path, unless the power is lost. -/
theorem mcDecryptFileToBuffer_handsOff (path : Option Path) (m : Machine) :
    Ends (mcDecryptFileToBuffer w os key path outNull outSizeNull) m fun r m' => r = .error .powerLoss ∨
      HandsOff m.st.heap (fun x => ReadsFile w os key path m x ∧
        ∃ y, Turns (Decrypt.decryptBuffer w key) y x) r m'.st := by
  refine Ends.throwIf (fun _ => .inr (.failed (.refl _))) fun _ => ?_
  obtain ⟨r, hpath, ⟨i, rfl, rfl⟩ | ⟨e, rfl⟩⟩ := @toPath_ends os path m
  swap
  · exact Ends.of_eq (bind_error hpath) (.inr (.failed (.refl _)))
  refine Ends.step hpath (Ends.bind (R := fun r m1 => readFile os w i kMaxFileSize m = (r, m1) ∧
    ((∃ (buf : SecureBuffer) (y : Bytes), r = .ok (buf, y.length) ∧ FileRead w os i kMaxFileSize m buf y m1) ∨
      ∃ e, r = .error e ∧ ReadFailed m e m1)) ⟨rfl, readFile_ends i kMaxFileSize m⟩ ?_ ?_)
  swap
  · rintro _ m1 ⟨-, ⟨_, _, hr, -⟩ | ⟨e, hr, hf⟩⟩ <;> cases hr
    rcases hf.kind with rfl | hk
    · exact .inl rfl
    · obtain ⟨st, -, rfl⟩ := List.mem_map.mp hk
      exact .inr (.failed hf.memory)
  rintro _ m1 ⟨hread, ⟨buf, y, hr, h1⟩ | ⟨_, hr, -⟩⟩ <;> cases hr
  -- the ciphertext dies, and the plaintext stays
  refine Ends.always (ends_inCiphertext h1) ?_
  rintro r m2 (⟨p, x, rfl, ⟨hx, hturns⟩, hbuf, hp, hholds⟩ | ⟨e, rfl, hs⟩)
  · refine (ends_destroy hbuf).mono ?_
    rintro _ m3 ⟨rfl, -, -, hb⟩
    obtain ⟨f, hf, hreads⟩ := h1.reads hread
    rw [h1.trace] at hx
    refine ⟨fun e he => (by cases he), fun _ => .inr (.whole ⟨⟨i, f, y, rfl, hf, hreads, hx⟩, y, hturns⟩ ⟨hb, ?_, hp⟩)⟩
    rwa [hb.get_eq]
  · refine (ends_destroy hs).mono ?_
    rintro _ m3 ⟨rfl, -, -, hb⟩
    exact ⟨fun e he => (by cases he), fun _ => .inr (.failed hb)⟩

end ModelCrypt
