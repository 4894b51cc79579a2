/-
# Which other keys open a file

`DeriveKey` hands the bytes of the key to scrypt as they are, and scrypt reads
them as the key of an HMAC: filled up with zeros to a block, and replaced by
their digest first if they are longer than one. So two keys with the same block
(`hmacKey`) are one key, and the file of the one opens under the other; a key
with another block derives another key, and chunk 0 does not open under it
(`otherKey_fails`). Short keys have the same block exactly if they differ in
zeros at the end (`hmacKey_eq_iff`).

Key definitions: `hmacKey`, `World.Rfc7914`, `Binds`.
Key theorems: `hmacKey_eq_iff`, `fails_decrypt`, `otherKey_fails`.
-/
import ModelCrypt.Authenticity

namespace ModelCrypt

open Lib Prog

/-! ### What scrypt sees of a key -/

/-- The block size of SHA-256. -/
def kHmacBlockSize : ℕ := 64

/-- The key block of HMAC-SHA-256, with `digest` for SHA-256. -/
def hmacKey (digest : Bytes → ByteVec 32) (key : Bytes) : Bytes :=
  padded kHmacBlockSize (if key.length ≤ kHmacBlockSize then key else (digest key).1)

section Block

variable {digest : Bytes → ByteVec 32} {k k' : Bytes}

theorem hmacKey_short (h : k.length ≤ kHmacBlockSize) : hmacKey digest k = padded kHmacBlockSize k := by
  rw [hmacKey, if_pos h]

/-- Short keys have the same block exactly if they differ in zeros at the end. -/
theorem hmacKey_eq_iff (h : k.length ≤ kHmacBlockSize) (h' : k'.length ≤ kHmacBlockSize) :
    hmacKey digest k = hmacKey digest k' ↔ ∃ j, k' = k ++ zeros j ∨ k = k' ++ zeros j := by
  rw [hmacKey_short h, hmacKey_short h', padded_eq_iff h h']

/-- A long key has the block of its digest. -/
theorem hmacKey_digest (h : kHmacBlockSize < k.length) : hmacKey digest (digest k).1 = hmacKey digest k := by
  have hshort : (digest k).1.length ≤ kHmacBlockSize := by
    rw [byteVec_length]
    decide
  rw [hmacKey_short hshort, hmacKey, if_neg (Nat.not_le.mpr h)]

end Block

/-- The same call with another passphrase. -/
def ScryptArgs.withPass (a : ScryptArgs) (pass : Bytes) : ScryptArgs := { a with pass := pass }

/-- `EVP_PBE_scrypt` is the scrypt of RFC 7914: it answers what it accepts, and of the passphrase it sees the HMAC
key. -/
structure World.Rfc7914 (w : World) (digest : Bytes → ByteVec 32) (core : ScryptArgs → ByteVec kKeySize) : Prop where
  answer : ∀ t a, w.scrypt t a = if a.Accepted then some (core (a.withPass (hmacKey digest a.pass))) else none

/-- What was sealed in a history opens under the key it was sealed under, and under no other. -/
structure Binds (w : World) (hist : List Event) : Prop where
  own : ∀ a ct tag, .sealed a (.ok (ct, tag)) ∈ hist →
    (w.gcmOpen ⟨a.key, a.nonce, a.aad, ct, tag⟩).1.1 = a.pt ∧ (w.gcmOpen ⟨a.key, a.nonce, a.aad, ct, tag⟩).2 = true
  other : ∀ a ct tag (k : ByteVec kKeySize), .sealed a (.ok (ct, tag)) ∈ hist → k.1 ≠ a.key →
    (w.gcmOpen ⟨k.1, a.nonce, a.aad, ct, tag⟩).2 = false

namespace Encrypt

section Keys

variable {w : World} {digest : Bytes → ByteVec 32} {core : ScryptArgs → ByteVec kKeySize} {k k' : ByteVec kKeySize}
  {h : FileHeader} {rs : List Record} {hist : List Event} {t : ℕ}

/-! ### Derived keys -/

section Derived

variable {key : Bytes} (key' : Bytes) {salt : Bytes} {logN : UInt8} {r p : UInt32}

/-- Whether scrypt accepts its parameters does not depend on the passphrase. -/
theorem accepted_key (h : (scryptArgs key salt logN r p).Accepted) : (scryptArgs key' salt logN r p).Accepted :=
  ⟨h.r_ne, h.p_ne, h.two_le, h.pow_two, h.product, h.bound, h.memory⟩

/-- What scrypt answers for one key, it answers for every key, from its block. -/
theorem derives_of_rfc (hw : w.Rfc7914 digest core) (hk : w.scrypt t (scryptArgs key salt logN r p) = some k) (t' : ℕ) :
    k = core (scryptArgs (hmacKey digest key) salt logN r p) ∧
    w.scrypt t' (scryptArgs key' salt logN r p) = some (core (scryptArgs (hmacKey digest key') salt logN r p)) := by
  rw [hw.answer] at hk ⊢
  by_cases ha : (scryptArgs key salt logN r p).Accepted
  · rw [if_pos ha] at hk
    rw [if_pos (accepted_key key' ha)]
    exact ⟨(Option.some.inj hk).symm, rfl⟩
  · rw [if_neg ha] at hk
    cases hk

end Derived

/-! ### Opening under another key -/

section Opening

variable {key input : Span} {opts : EncryptOptions} {key' : Span}

theorem opens_of_binds (hb : Binds w hist) (hr : w.Reads t) : Opens w t (sealings hist) := by
  intro t' a ct tag ht ha
  obtain ⟨hpt, hok⟩ := hb.own a ct tag (mem_sealings.mp ha)
  rw [openResult_eq fun c => hr.evp t' c ht, if_neg (by rw [hok]; decide), hpt]

/-- A record does not open under another key. -/
theorem fails_openRecord (hf : Finished w key opts input k h rs hist) (hr : w.Reads t) (hb : Binds w hist)
    (hne : k' ≠ k)
    {i room : ℕ} {scratch : Option ℕ} {r : Record} (hi : rs[i]? = some r) :
    Fails t (Ref.openRecord w k' (serializeFileHeader h) h scratch i room r) .errAuth := by
  obtain ⟨p, payload, -, -, hlog, -, -⟩ := hf.made.made i r hi
  have hsealed := mem_sealings.mp (List.mem_of_getElem? hlog)
  refine Fails.after yields_emit fun _ _ => Fails.bind (fails_ask fun t' ht => ?_)
  rw [openResult_eq fun c => hr.evp t' c ht, if_pos]
  exact hb.other _ r.ct r.tag k' hsealed fun he => hne (Subtype.ext he)

/-- **Under a key that derives another one**, decryption fails in chunk 0. -/
theorem fails_decrypt (hf : Finished w key opts input k h rs hist) (hw : w.Zlib) (hr : w.Reads t) (hb : Binds w hist)
    (hk : key'.isNull = false) (hks : mcMinKeySize ≤ key'.size)
    (hkdf : ∀ t', t ≤ t' → w.scrypt t' (scryptArgs key'.toBytes h.salt.1 h.kdfLogN h.kdfR h.kdfP) = some k')
      (hne : k' ≠ k) :
    Fails t (Ref.decrypt w key' (.bytes (serializeFileHeader h ++ recordBytes rs))) .errAuth := by
  obtain ⟨c, rfl, rfl, hc⟩ := hf.container hw
  have halloc {name : BufName} {n : ℕ} : Yields t (Ref.alloc w name n) fun _ => True :=
    yields_alloc fun t' ht => hr.alloc t' n ht
  rw [← hc, Ref.decrypt_parsed hk hks c.parse, c.slice_header, Ref.deriveKey_eq hk hks c.header.salt.2]
  refine Fails.after (yields_table c hr.toAllocates) ?_
  rintro _ rfl
  refine Fails.after (R := (· = k')) (Yields.andThen halloc fun _ => yields_scrypt fun t' ht =>
    ⟨k', hkdf t' ht, rfl⟩) ?_
  rintro _ rfl
  rcases hrs : c.records with _ | ⟨r, rest⟩
  · have hpos := c.valid.count_pos
    rw [← hf.count, hrs, List.length_nil] at hpos
    omega
  exact Fails.after halloc fun _ _ => Fails.after halloc fun _ _ =>
    Fails.bind (fails_openRecord hf hr hb hne (by rw [hrs]; rfl))

end Opening

end Keys

/-- **The key of a file is a block.** What `mc_encrypt_buffer` returned under one key,
`mc_decrypt_buffer` refuses under another with `MC_ERR_AUTH` exactly if the two have different
blocks, where scrypt tells the two blocks apart and GCM the two derived keys; under a key with the
same block the file opens. -/
theorem otherKey_fails (w : World) (digest : Bytes → ByteVec 32) (core : ScryptArgs → ByteVec kKeySize)
    (key key' : Bytes)
    (opts : Option EncryptOptions) (input : Span) (outNull outSizeNull : Bool) (s s1 : St) (out : Option ℕ)
      (outSize : ℕ)
    (hz : w.Zlib) (hscrypt : w.Rfc7914 digest core)
    (hinj : ∀ a : ScryptArgs, core (a.withPass (hmacKey digest key)) = core (a.withPass (hmacKey digest key')) →
      hmacKey digest key = hmacKey digest key')
    (hks : mcMinKeySize ≤ key'.length)
    (hrun : mcEncryptBuffer w (.bytes key) opts input outNull outSizeNull s = (.ok (out, outSize), s1))
    (hb : Binds w (s1.trace.drop s.trace.length)) :
    ∃ file : Bytes, file.length = outSize ∧ s1.At out file ∧ ∀ s2 : St, w.Reads s2.trace.length →
      ((mcDecryptBuffer w (.bytes key') (.bytes file) false false s2).1 = .error (.status .errAuth) ↔
        hmacKey digest key ≠ hmacKey digest key') ∧
      (hmacKey digest key = hmacKey digest key' →
        ∃ out' s3, mcDecryptBuffer w (.bytes key') (.bytes file) false false s2 = (.ok (out', input.size), s3) ∧
          s3.At out' input.toBytes) := by
  obtain ⟨-, buffer, rfl, henc⟩ := mcEncryptBuffer_ok.mp hrun
  obtain ⟨k, h, rs, hist, hf, ht, hlen, hat⟩ := encryptBuffer_file henc
  rw [ht, List.drop_left] at hb
  refine ⟨_, hlen, hat, fun s2 hr => ?_⟩
  have hsize : (Span.bytes (serializeFileHeader h ++ recordBytes rs)).size ≤ w.sizeT.max := hf.size_le.trans hf.room
  obtain ⟨t0, hderived⟩ := hf.derived
  have hargs {pass : Bytes} : scryptArgs pass h.salt.1 (opts.getD defaultOptions).kdfLogN (opts.getD defaultOptions).kdfR
      (opts.getD defaultOptions).kdfP = scryptArgs pass h.salt.1 h.kdfLogN h.kdfR h.kdfP := by
    rw [hf.header]
    rfl
  rw [hargs, Span.toBytes_bytes] at hderived
  obtain ⟨hk, -⟩ := derives_of_rfc key' hscrypt hderived 0
  have hkdf (t' : ℕ) := (derives_of_rfc key' hscrypt hderived t').2
  have hopens : hmacKey digest key = hmacKey digest key' → ∃ out' s3, mcDecryptBuffer w (.bytes key')
      (.bytes (serializeFileHeader h ++ recordBytes rs)) false false s2 = (.ok (out', input.size), s3) ∧
        s3.At out' input.toBytes := by
    intro he
    have hsame (t' : ℕ) : w.scrypt t' (scryptArgs (Span.bytes key').toBytes h.salt.1 h.kdfLogN h.kdfR h.kdfP) =
      some k := by
      rw [hk, he]
      exact hkdf t'
    have hyields : Yields s2.trace.length (Ref.decrypt w (.bytes key') _) (· = input.toBytes) :=
      yields_decrypt hf hz hr.toAllocates (opens_of_binds hb hr) rfl hks fun t' _ => hsame t'
    obtain ⟨pt, tr, -, hdec, rfl⟩ := hyields s2.trace (le_refl _)
    rcases Decrypt.decryptBuffer_refines w (.bytes key') _ s2 hsize with
      ⟨a, b, s3, h1, h2, hm, hlen⟩ | ⟨e, s3, h1, h2, -⟩
    · rw [hdec] at h2
      cases h2
      refine ⟨a.1.data, s3, ?_, St.at_of_holds hm.holds List.prefix_rfl⟩
      rw [mcDecryptBuffer_eq, bind_ok h1, hf.denotes.size, ← hlen]
      rfl
    · rw [hdec] at h2
      cases h2
  refine ⟨⟨fun he hsame => ?_, fun hne => ?_⟩, hopens⟩
  · obtain ⟨out', s3, hok, -⟩ := hopens hsame
    rw [hok] at he
    cases he
  · have hstop : Fails s2.trace.length (Ref.decrypt w (.bytes key') _) .errAuth :=
      fails_decrypt hf hz hr hb rfl hks (fun t' _ => hkdf t') (fun he =>
        hne (hinj (scryptArgs [] h.salt.1 h.kdfLogN h.kdfR h.kdfP) (hk.symm.trans he.symm)))
    have hdec := (Decrypt.decryptBuffer_ref w (.bytes key') _ s2 hsize).2 _ (hstop s2.trace (le_refl _))
    rw [mcDecryptBuffer_eq, bind_error (run_eq hdec)]

/-! ### A key and zeros -/

def sampleCore (a : ScryptArgs) : ByteVec kKeySize :=
  ⟨(a.pass ++ zeros kKeySize).take kKeySize, List.length_take_of_le (by rw [List.length_append, zeros_length]; omega)⟩

/-- A world with a scrypt that answers the first bytes of the block, and a cipher that opens what was sealed from `e`
only. -/
def blockWorld (e : SealArgs) : World :=
  { recallWorld e with scrypt := fun _ a =>
      if a.Accepted then some (sampleCore (a.withPass (hmacKey (checksum 32) a.pass))) else none }

/-- Encryption under the twelve zeros. -/
def blockCrypt (e : SealArgs) : Run (Option ℕ × ℕ) :=
  mcEncryptBuffer (blockWorld e) sampleKey (some sampleOptions) (.bytes [1, 2, 3]) false false

/-- What its one chunk is sealed from. -/
def blockSealed : SealArgs :=
  ((sealings (blockCrypt ⟨[], [], [], []⟩ ⟨[], []⟩).2.trace).map Prod.fst).headD ⟨[], [], [], []⟩

theorem blockCrypt_sealings : sealings (blockCrypt blockSealed ⟨[], []⟩).2.trace =
    [(blockSealed, .ok ((sealedAs blockSealed).ct, (sealedAs blockSealed).tag))] := by
  decide +kernel

theorem blockWorld_zlib (e : SealArgs) : (blockWorld e).Zlib :=
  ⟨sampleWorld_lawful.stream_ne, sampleWorld_lawful.inflate_deflate⟩

/-- If one chunk was sealed, a cipher that opens it and nothing else binds its key. -/
theorem blockWorld_binds {e : SealArgs} {hist : List Event}
    (h : sealings hist = [(e, .ok ((sealedAs e).ct, (sealedAs e).tag))]) : Binds (blockWorld e) hist := by
  have honly {a : SealArgs} {ct : Bytes} {tag : ByteVec kTagSize} (ha : .sealed a (.ok (ct, tag)) ∈ hist) :
      a = e ∧ ct = (sealedAs e).ct ∧ tag = (sealedAs e).tag := by
    rw [← mem_sealings, h, List.mem_singleton] at ha
    obtain ⟨rfl, hr⟩ := Prod.mk.inj ha
    obtain ⟨rfl, rfl⟩ := Prod.mk.inj (Except.ok.inj hr)
    exact ⟨rfl, rfl, rfl⟩
  constructor
  · intro a ct tag ha
    obtain ⟨rfl, rfl, rfl⟩ := honly ha
    show (recallOpen a (sealedAs a)).1.1 = a.pt ∧ (recallOpen a (sealedAs a)).2 = true
    rw [recallOpen, dif_pos rfl]
    exact ⟨rfl, rfl⟩
  · intro a ct tag k ha hk
    obtain ⟨rfl, rfl, rfl⟩ := honly ha
    show (recallOpen a _).2 = false
    rw [recallOpen, dif_neg]
    intro he
    exact hk (congrArg OpenArgs.key he)

/-- The file of the call. -/
def blockFile : Bytes := (((blockCrypt blockSealed ⟨[], []⟩).2.heap.get 1).getD []).take 91

theorem blockCrypt_ok : (blockCrypt blockSealed ⟨[], []⟩).1 = .ok (some 1, 91) := by decide +kernel

/-- Another key of the same length does not open the file. -/
theorem otherKey_refused : ∃ file : Bytes, file.length = 91 ∧ (blockCrypt blockSealed ⟨[], []⟩).2.At (some 1) file ∧
    (mcDecryptBuffer (blockWorld blockSealed) (.bytes (1 :: zeros 11)) (.bytes file) false false ⟨[], []⟩).1 =
      .error (.status .errAuth) := by
  have hne : hmacKey (checksum 32) (zeros mcMinKeySize) ≠ hmacKey (checksum 32) (1 :: zeros 11) := by decide
  have hinj : ∀ a : ScryptArgs, sampleCore (a.withPass (hmacKey (checksum 32) (zeros mcMinKeySize))) =
      sampleCore (a.withPass (hmacKey (checksum 32) (1 :: zeros 11))) →
        hmacKey (checksum 32) (zeros mcMinKeySize) = hmacKey (checksum 32) (1 :: zeros 11) := by
    intro a he
    have hfirst : (hmacKey (checksum 32) (zeros mcMinKeySize) ++ zeros kKeySize).take kKeySize ≠
        (hmacKey (checksum 32) (1 :: zeros 11) ++ zeros kKeySize).take kKeySize := by decide +kernel
    exact absurd (congrArg Subtype.val he) hfirst
  have hb : Binds (blockWorld blockSealed)
      ((blockCrypt blockSealed ⟨[], []⟩).2.trace.drop (⟨[], []⟩ : St).trace.length) :=
    blockWorld_binds (by rw [List.length_nil, List.drop_zero, blockCrypt_sealings])
  have hrun : blockCrypt blockSealed ⟨[], []⟩ = (.ok (some 1, 91), (blockCrypt blockSealed ⟨[], []⟩).2) :=
    run_eq blockCrypt_ok
  obtain ⟨file, hlen, hat, hdec⟩ := otherKey_fails (blockWorld blockSealed) (checksum 32) sampleCore (zeros mcMinKeySize)
    (1 :: zeros 11) (some sampleOptions) (.bytes [1, 2, 3]) false false ⟨[], []⟩ (blockCrypt blockSealed ⟨[], []⟩).2
    (some 1) 91 (blockWorld_zlib _) ⟨fun _ _ => rfl⟩ hinj (by decide) hrun hb
  exact ⟨file, hlen, hat, (hdec ⟨[], []⟩ ⟨⟨fun _ _ _ => rfl, fun _ _ => rfl⟩, fun _ _ _ => rfl⟩).1.mpr hne⟩

/-- **A key with a zero at the end opens the file of the key without.** -/
theorem paddedKey_opens : (blockWorld blockSealed).Rfc7914 (checksum 32) sampleCore ∧
    (blockCrypt blockSealed ⟨[], []⟩).1 = .ok (some 1, 91) ∧ blockFile.length = 91 ∧
    (blockCrypt blockSealed ⟨[], []⟩).2.At (some 1) blockFile ∧
    Binds (blockWorld blockSealed) (blockCrypt blockSealed ⟨[], []⟩).2.trace ∧
      zeros mcMinKeySize ≠ zeros (mcMinKeySize + 1) ∧
    ∃ out, (mcDecryptBuffer (blockWorld blockSealed) (.bytes (zeros (mcMinKeySize + 1))) (.bytes blockFile) false false
      ⟨[], []⟩).1 = .ok (out, 3) := by
  refine ⟨⟨fun _ _ => rfl⟩, blockCrypt_ok, by decide +kernel, ?_, blockWorld_binds blockCrypt_sealings, by decide,
    some 3, ?_⟩
  · have hsome : ((blockCrypt blockSealed ⟨[], []⟩).2.heap.get 1).isSome = true := by decide +kernel
    obtain ⟨x, hx⟩ := Option.isSome_iff_exists.mp hsome
    refine ⟨x, hx, ?_⟩
    rw [blockFile, hx]
    exact List.take_prefix 91 x
  · decide +kernel

end Encrypt
end ModelCrypt
