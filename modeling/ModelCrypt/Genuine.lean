/-
# What decrypts of a genuine file

Two files that are accepted, by any build under any keys, are never one the
beginning of the other: an accepted file cannot be cut short or carried on. This
is a matter of the format, and rests on no cryptography.

Decryption of what an encryption made may fail, whenever memory or a primitive
fails it. But if it ends well, in whichever state it was called, it returns the
plaintext, and so it does from no proper part of the file.

Key theorems: `accepted_prefix_free`, `genuine_plaintext`.
-/
import ModelCrypt.Authenticity
import ModelCrypt.OutParams

namespace ModelCrypt

open Lib Prog

/-! ### Accepted files are prefix-free -/

/-- **A container cannot be carried on**: what is behind its records is too much. -/
theorem Container.of_prefix {c c' : Container} (h : c.bytes <+: c'.bytes) : c = c' := by
  obtain ⟨rest, hr⟩ := h
  have hle : 0 + kHeaderSize ≤ c.bytes.length := by
    rw [c.bytes_length]
    omega
  have hhead : c.header = c'.header := by
    apply serializeFileHeader_inj
    rw [← c.slice_header, ← c'.slice_header, ← hr, slice_append_left hle]
  have hread : readRecords c.header c.header.chunkCount.toNat 0 (c'.bytes.drop kHeaderSize) = some (c.records, rest) := by
    refine readRecords_iff.mpr ⟨c.count, ?_, c.fits⟩
    rw [← hr, Container.bytes, List.append_assoc, List.drop_left' (serializeFileHeader_length c.header)]
  have hboth := c'.read
  rw [← hhead, hread] at hboth
  have hrest : rest = [] := (Prod.mk.inj (Option.some.inj hboth)).2
  rw [hrest, List.append_nil] at hr
  exact Container.bytes_inj hr

section Accepted

variable {w w' : World} {key key' : Span} {f f' : Bytes} {s s' s1 s1' : St} {a a' : SecureBuffer × ℕ}

/-- The reader on a file: what follows from its parts when it ends well. -/
theorem gives_parts {G : Bytes → Prop}
    (h : ∀ (c : Container) (k : ByteVec kKeySize), c.bytes = f → key.isNull = false → mcMinKeySize ≤ key.size →
      (∃ t, w.scrypt t (scryptArgs key.toBytes c.header.salt.1 c.header.kdfLogN c.header.kdfR c.header.kdfP) = some k) →
      Gives (Ref.openAll w k (serializeFileHeader c.header) c.header c.records) G fun _ => True) :
    Gives (Ref.decrypt w key (.bytes f)) G fun _ => True := by
  refine Gives.throwIf (fun _ => trivial) fun hnull => Gives.throwIf (fun _ => trivial) fun hsize => ?_
  have hk : key.isNull = false := Bool.eq_false_iff.mpr (not_or.mp hnull).1
  have hks : mcMinKeySize ≤ key.size := Nat.not_lt.mp hsize
  refine Gives.bind (F := fun h => parseFileHeader (.bytes f) = .ok h)
    (Gives.ofExcept (fun h hp => ?_) fun _ _ => trivial) fun hd hp => ?_
  · rw [parseFileHeader_status, hp]
    rfl
  refine Gives.bind Encrypt.gives_table.any fun rs hr => ?_
  obtain ⟨c, hc, rfl, rfl⟩ := Container.of_table hp hr
  rw [Ref.deriveKey_eq hk hks c.header.salt.2, Span.toBytes_bytes, ← hc, c.slice_header]
  exact Gives.bind (Gives.bind (gives_alloc trivial) fun _ _ => gives_scrypt trivial) fun k hkdf => h c k hc hk hks hkdf

/-- What `DecryptBuffer` returns is what the reader gives. -/
theorem decryptBuffer_gives {G : Bytes → Prop} (hf : f.length ≤ w.sizeT.max)
    (hG : Gives (Ref.decrypt w key (.bytes f)) G fun _ => True)
    (hrun : Decrypt.decryptBuffer w key (.bytes f) s = (.ok a, s1)) : ∃ b, G b ∧ a.2 = b.length ∧ s1.At a.1.data b := by
  rcases Decrypt.decryptBuffer_refines w key (.bytes f) s hf with ⟨a', b, s2, h1, h2, hm, hlen⟩ | ⟨e, s2, h1, -, -⟩
  · cases h1.symm.trans hrun
    have := hG s.trace
    rw [h2] at this
    exact ⟨b, this, hlen, St.at_of_holds hm.holds List.prefix_rfl⟩
  · cases h1.symm.trans hrun

theorem decryptBuffer_container (hf : f.length ≤ w.sizeT.max)
    (hrun : Decrypt.decryptBuffer w key (.bytes f) s = (.ok a, s1)) : ∃ c : Container, c.bytes = f := by
  have hG : Gives (Ref.decrypt w key (.bytes f)) (fun _ => ∃ c : Container, c.bytes = f) fun _ => True :=
    gives_parts fun c k hc _ _ _ _ => by
      cases (Ref.openAll w k (serializeFileHeader c.header) c.header c.records _).1 with
      | error e => trivial
      | ok b => exact ⟨c, hc⟩
  obtain ⟨b, hc, -⟩ := decryptBuffer_gives hf hG hrun
  exact hc

/-- **Accepted files are prefix-free**: no file that is accepted, anywhere, under any key, is the beginning of another. -/
theorem accepted_prefix_free (w w' : World) (key key' : Span) (f f' : Bytes) (s s' : St) (r r' : Option ℕ × ℕ)
    (hf : f.length ≤ w.sizeT.max) (hf' : f'.length ≤ w'.sizeT.max)
    (hrun : (mcDecryptBuffer w key (.bytes f) false false s).1 = .ok r)
    (hrun' : (mcDecryptBuffer w' key' (.bytes f') false false s').1 = .ok r') (hpre : f <+: f') : f = f' := by
  have hdec : ∀ {w : World} {key : Span} {f : Bytes} {s : St} {r : Option ℕ × ℕ}, f.length ≤ w.sizeT.max →
      (mcDecryptBuffer w key (.bytes f) false false s).1 = .ok r → ∃ c : Container, c.bytes = f := by
    intro w key f s r hf hrun
    rw [mcDecryptBuffer_eq] at hrun
    obtain ⟨a, s1, h1, -⟩ := bind_eq_ok.mp (show _ = (Except.ok r, _) from Prod.ext hrun rfl)
    exact decryptBuffer_container hf h1
  obtain ⟨c, rfl⟩ := hdec hf hrun
  obtain ⟨c', rfl⟩ := hdec hf' hrun'
  rw [Container.of_prefix hpre]

/-- The theorem at a file of 94 bytes and its first 94. -/
theorem sampleFile_prefix_free : ∃ (file : Bytes) (r : Option ℕ × ℕ), file.length = 94 ∧
    (mcDecryptBuffer sampleWorld sampleKey (.bytes file) false false ⟨[], []⟩).1 = .ok r ∧ file.take 94 = file := by
  have hlen : sampleCipher.length = 94 := by decide +kernel
  have hok : (mcDecryptBuffer sampleWorld sampleKey (.bytes sampleCipher) false false ⟨[], []⟩).1 = .ok (some 4, 10) := by
    decide +kernel
  have hfits : sampleCipher.length ≤ sampleWorld.sizeT.max := by rw [hlen]; decide
  have htake : sampleCipher.take 94 = sampleCipher := List.take_of_length_le (by rw [hlen])
  exact ⟨sampleCipher, _, hlen, hok, accepted_prefix_free sampleWorld sampleWorld sampleKey sampleKey
    (sampleCipher.take 94) sampleCipher ⟨[], []⟩ ⟨[], []⟩ _ _ (htake.symm ▸ hfits) hfits (htake.symm ▸ hok) hok
    (List.take_prefix ..)⟩

end Accepted

/-! ### Genuine files give their plaintext -/

section Genuine

variable {w : World} {k : ByteVec kKeySize} {h : FileHeader} {compress : Bool} {room : ℕ} {scratch : Option ℕ}
  {pt : Bytes} {rs : List Record} {log : List (SealArgs × Except McStatus (Bytes × ByteVec kTagSize))}

/-- What opens is what the cipher says. -/
theorem openResult_value {a : OpenArgs} {t : ℕ} {b : Bytes} (h : openResult w a t = .ok b) : b = (w.gcmOpen a).1.1 := by
  simp only [openResult, failIf_bind] at h
  split at h
  · cases h
  rcases hb : aeadBegin w t a.aad with e | u <;> rw [hb] at h
  · cases h
  simp only [ok_bind] at h
  split at h
  · cases h
  split at h
  · cases h
  split at h
  · cases h
  cases h
  rfl

/-- What was sealed opens to what it was, or not at all. -/
theorem genuine_openRecord (hw : w.Lawful) (hs : Encrypt.Sealed w k h compress (h.pieces pt) rs log)
    (hl : pt.length = h.plaintextSize.toNat) {i : ℕ} {r : Record} (hi : rs[i]? = some r) :
    Gives (Ref.openRecord w k (serializeFileHeader h) h scratch i room r) (fun p => (h.pieces pt)[i]? = some p)
      fun _ => True := by
  obtain ⟨p, payload, hp, hpack, -, hct, htag⟩ := hs.made i r hi
  refine Gives.bind gives_emit fun _ _ => ?_
  refine Gives.bind (F := (· = payload)) (gives_ask (fun t b hb => ?_) fun _ _ _ => trivial) ?_
  · have hopen := (hw.open_seal (sealArgs k (serializeFileHeader h) h i r.chunk payload)).1
    rw [hct, htag] at hopen
    exact (openResult_value hb).trans hopen
  rintro _ rfl
  cases hc : r.chunk.compressed with
  | false =>
    rcases hpack.cases with ⟨-, -, rfl⟩ | ⟨-, h1, -⟩
    · exact Gives.pure hp
    · exact absurd (hc.symm.trans h1) Bool.false_ne_true
  | true =>
    refine gives_ask (fun t b hb => ?_) fun _ _ _ => trivial
    rw [← pieces_size hl hp] at hb
    rcases Encrypt.inflateResult_sealed (t := t) hw.toZlib hpack hc with h1 | h1 <;> rw [h1] at hb <;> cases hb
    exact hp

/-- By induction on the records left. -/
theorem genuine_openRecords (hw : w.Lawful) (hs : Encrypt.Sealed w k h compress (h.pieces pt) rs log)
    (hl : pt.length = h.plaintextSize.toNat) (hcount : rs.length = (h.pieces pt).length) :
    ∀ (rest pre : List Record), rs = pre ++ rest →
      Gives (Ref.openRecords w k (serializeFileHeader h) h scratch pre.length rest)
        (· = (h.pieces pt).drop pre.length) fun _ => True
  | [], pre, he => by
    refine Gives.pure (List.drop_of_length_le ?_).symm
    rw [← hcount, he, List.append_nil]
  | r :: rest, pre, he => by
    have hi : rs[pre.length]? = some r := by
      rw [he, List.getElem?_append_right (le_refl _), Nat.sub_self]
      rfl
    have ih := genuine_openRecords hw hs hl hcount rest (pre ++ [r]) (by simp [he])
    rw [List.length_append, List.length_singleton] at ih
    refine Gives.bind (genuine_openRecord hw hs hl hi) fun p hp => Gives.bind ih fun ps hps => Gives.pure ?_
    rw [hps, List.drop_eq_getElem?_toList_append (i := pre.length), hp]
    rfl

theorem genuine_openAll (hw : w.Lawful) (hs : Encrypt.Sealed w k h compress (h.pieces pt) rs log) (hv : h.Valid)
    (hl : pt.length = h.plaintextSize.toNat) (hcount : rs.length = h.chunkCount.toNat) :
    Gives (Ref.openAll w k (serializeFileHeader h) h rs) (· = pt) fun _ => True := by
  have halloc {name : BufName} {n : ℕ} : Gives (Ref.alloc w name n) (fun _ => True) fun _ => True := gives_alloc trivial
  rcases hrs : rs with _ | ⟨r, rest⟩
  · exact Gives.throw trivial
  refine Gives.bind halloc fun _ _ => Gives.bind halloc fun _ _ => ?_
  refine Gives.bind (genuine_openRecord hw hs hl (by rw [hrs]; rfl)) fun p hp => ?_
  refine Gives.throwIf (fun _ => trivial) fun _ => Gives.bind halloc fun _ _ => ?_
  refine Gives.bind (genuine_openRecords hw hs hl (by rw [hcount, pieces_length]) rest [r] hrs) fun ps hps => ?_
  refine Gives.bind gives_emit fun _ _ => Gives.pure ?_
  have hall := pieces_flatten hv hl
  rcases hpc : h.pieces pt with _ | ⟨q, qs⟩ <;> rw [hpc] at hp hps hall <;> cases hp
  rw [hps]
  exact hall

/-- Decryption of a part of what a run of the writer made: of all of it, and then it gives the plaintext. -/
theorem genuine_decrypt {key input : Span} {opts : EncryptOptions} {hist : List Event} {f : Bytes} (hw : w.Lawful)
    (hf : Encrypt.Finished w key opts input k h rs hist) (hpre : f <+: serializeFileHeader h ++ recordBytes rs) :
    Gives (Ref.decrypt w key (.bytes f)) (fun b => b = input.toBytes ∧ f = serializeFileHeader h ++ recordBytes rs)
      fun _ => True := by
  obtain ⟨c0, rfl, rfl, hb⟩ := hf.container hw.toZlib
  rw [← hb] at hpre ⊢
  refine gives_parts fun c k' hc _ _ hkdf => ?_
  obtain ⟨t, ht⟩ := hkdf
  subst hc
  obtain rfl := Container.of_prefix hpre
  rw [hf.derives hw t] at ht
  cases ht
  exact (genuine_openAll hw hf.made c.valid hf.length hf.count).mono fun b hb => ⟨hb, rfl⟩

/-- **What decrypts of what `mc_encrypt_buffer` made is its plaintext**: in every state of memory and with every failure
on the way, and of the whole file only. -/
theorem genuine_plaintext (w : World) (hw : w.Lawful) (key : Span) (opts : Option EncryptOptions) (input : Span)
    (outNull outSizeNull : Bool) (s s1 : St) (out : Option ℕ) (outSize : ℕ)
    (hrun : mcEncryptBuffer w key opts input outNull outSizeNull s = (.ok (out, outSize), s1)) :
    ∃ file : Bytes, file.length = outSize ∧ s1.At out file ∧ ∀ f s2 r s3, f <+: file →
      mcDecryptBuffer w key (.bytes f) false false s2 = (.ok r, s3) →
        f = file ∧ r.2 = input.size ∧ s3.At r.1 input.toBytes := by
  obtain ⟨-, buffer, rfl, henc⟩ := mcEncryptBuffer_ok.mp hrun
  obtain ⟨k, h, rs, hist, hf, -, hlen, hat⟩ := Encrypt.encryptBuffer_file henc
  refine ⟨_, hlen, hat, fun f s2 r s3 hpre hdec => ?_⟩
  rw [mcDecryptBuffer_eq] at hdec
  obtain ⟨a, s4, h1, h2⟩ := bind_eq_ok.mp hdec
  cases h2
  have hsize : f.length ≤ w.sizeT.max := hpre.length_le.trans (hf.size_le.trans hf.room)
  obtain ⟨b, ⟨rfl, hfile⟩, hn, hat'⟩ := decryptBuffer_gives hsize (genuine_decrypt hw hf hpre) h1
  exact ⟨hfile, hn.trans hf.denotes.size.symm, hat'⟩

/-- From every memory, no part of the sample file but the whole decrypts. -/
theorem sampleText_genuine : ∃ file : Bytes, file.length = 94 ∧ (Encrypt.sampleCrypt ⟨[], []⟩).2.At (some 1) file ∧
    ∀ f s2 r s3, f <+: file → mcDecryptBuffer sampleWorld sampleKey (.bytes f) false false s2 = (.ok r, s3) →
      f = file ∧ r.2 = 10 ∧ s3.At r.1 Encrypt.sampleText := by
  have hrun : (Encrypt.sampleCrypt ⟨[], []⟩).1 = .ok (some 1, 94) := by decide +kernel
  exact genuine_plaintext sampleWorld sampleWorld_lawful sampleKey (some Encrypt.zlibOptions)
    (.bytes Encrypt.sampleText) false false ⟨[], []⟩ _ (some 1) 94 (run_eq hrun)

end Genuine

end ModelCrypt
