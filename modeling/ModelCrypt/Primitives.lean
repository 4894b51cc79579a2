/-
# Random bytes, key derivation, AEAD and compression

`random.cc`, `kdf.cc`, `aead.cc` and `compress.cc`: the argument checks, the
order of the calls to OpenSSL and zlib, what is written where and when, and
the status each failure becomes. What a call answers apart from memory is a
function of its own (`sealResult`, `openResult`, `deflateResult`,
`inflateResult`), and each primitive refines the call that just gives that
answer (`sim_deriveKey`, `sim_aeadSeal`, `sim_aeadOpen`, `sim_compressChunk`,
`sim_decompressChunk`).
-/
import ModelCrypt.SecureBuffer

namespace ModelCrypt

open Lib Prog Function

/-! ### random_bytes -/

/-- `INT32_MAX`, what OpenSSL's `int` lengths can hold. -/
@[simp] abbrev int32Max : ℕ := 2 ^ 31 - 1

/-- `UINT32_MAX`, what zlib's `uInt` lengths can hold. -/
@[simp] abbrev uint32Max : ℕ := 2 ^ 32 - 1

/-- `Fill`, into an array of `size` bytes. -/
def fill (w : World) (size : ℕ) : Ref (ByteVec size) := do
  Ref.returnIf (size = 0) .errInvalidArg
  Ref.returnIf (size > int32Max) .errInvalidArg
  let t ← Ref.clock
  Ref.emit (.drawn size ((w.rand t size).map Subtype.val))
  match w.rand t size with
  | some b => return b
  | none => throw .errCrypto

/-! ### kdf -/

/-- The arguments `DeriveKey` passes on: a working set up to the ceiling and 1 MiB of slack. -/
def scryptArgs (key salt : Bytes) (logN : UInt8) (r p : UInt32) : ScryptArgs where
  pass := key
  salt := salt
  n := (1 : UInt64) <<< logN.toUInt64
  r := r.toUInt64
  p := p.toUInt64
  maxMem := kMaxKdfMemory + ((1 : UInt64) <<< 20)

def Ref.scrypt (w : World) (a : ScryptArgs) : Ref (ByteVec kKeySize) := do
  let t ← Ref.clock
  Ref.emit (.derived a (w.scrypt t a))
  match w.scrypt t a with
  | some k => return k
  | none => throw .errCrypto

/-- `DeriveKey`. -/
def deriveKey (w : World) (key : Span) (salt : Bytes) (logN : UInt8) (r p : UInt32) : Run SecureBuffer := do
  returnIf (key.isNull = true) .errInvalidArg
  returnIf (key.size < mcMinKeySize ∨ salt.length ≠ kSaltSize) .errInvalidArg
  let derived ← newBuffer w .derived kKeySize
  onStop (do
    let k ← onTrace (Ref.scrypt w (scryptArgs key.toBytes salt logN r p))
    store derived.ptr k.1
    return derived) (destroy derived)

def Ref.deriveKey (w : World) (key : Span) (salt : Bytes) (logN : UInt8) (r p : UInt32) :
    Ref (ByteVec kKeySize) := do
  Ref.returnIf (key.isNull = true) .errInvalidArg
  Ref.returnIf (key.size < mcMinKeySize ∨ salt.length ≠ kSaltSize) .errInvalidArg
  Ref.alloc w .derived kKeySize
  Ref.scrypt w (scryptArgs key.toBytes salt logN r p)

/-! ### aead -/

/-- `Begin`. -/
def aeadBegin (w : World) (t : ℕ) (aad : Bytes) : Except McStatus Unit := do
  failIf (w.evp t .initCipher = false) .errCrypto
  failIf (w.evp t .setIvLen = false) .errCrypto
  failIf (w.evp t .initKey = false) .errCrypto
  failIf (0 < aad.length ∧ w.evp t .updateAad = false) .errCrypto

/-- What `Seal` answers: the ciphertext and the tag, or the call that failed. -/
def sealResult (w : World) (a : SealArgs) (t : ℕ) : Except McStatus (Bytes × ByteVec kTagSize) := do
  failIf (w.evp t .newCtx = false) .errCrypto
  aeadBegin w t a.aad
  failIf (0 < a.pt.length ∧ w.evp t .update = false) .errCrypto
  failIf (w.evp t .final = false) .errCrypto
  failIf (w.evp t .getTag = false) .errCrypto
  return ((w.gcmSeal a).1.1, (w.gcmSeal a).2)

/-- What `Open` answers; the tag is compared last. -/
def openResult (w : World) (a : OpenArgs) (t : ℕ) : Except McStatus Bytes := do
  failIf (w.evp t .newCtx = false) .errCrypto
  aeadBegin w t a.aad
  failIf (0 < a.ct.length ∧ w.evp t .update = false) .errCrypto
  failIf (w.evp t .setTag = false) .errCrypto
  failIf ((w.gcmOpen a).2 = false) .errAuth
  return (w.gcmOpen a).1.1

/-- `if (size > 0)` the one `EVP_CipherUpdate` over the data, with what it writes. -/
def cipherUpdate (w : World) (t size : ℕ) (out : Ptr) (bytes : Bytes) : Run Unit := do
  if 0 < size then
    returnIf (w.evp t .update = false) .errCrypto
    store out bytes

/-- `Seal`. -/
def aeadSeal (w : World) (key : Ptr) (nonce aad : Bytes) (pt : Span) (ct : Ptr) : Run (ByteVec kTagSize) := do
  returnIf (key = .null) .errInvalidArg
  returnIf (0 < pt.size ∧ (pt.isNull = true ∨ ct = .null)) .errInvalidArg
  returnIf (int32Max < pt.size ∨ int32Max < aad.length) .errInvalidArg
  let t ← clock
  let a : SealArgs := ⟨← load key kKeySize, nonce, aad, pt.toBytes⟩
  let r ← logged (.sealed a) do
    returnIf (w.evp t .newCtx = false) .errCrypto
    ofStatus (aeadBegin w t aad)
    cipherUpdate w t pt.size ct (w.gcmSeal a).1.1
    returnIf (w.evp t .final = false) .errCrypto
    returnIf (w.evp t .getTag = false) .errCrypto
    return ((w.gcmSeal a).1.1, (w.gcmSeal a).2)
  return r.2

/-- `Open`: the unverified decryption is in `pt` before the tag is compared. -/
def aeadOpen (w : World) (key : Ptr) (nonce aad : Bytes) (ct : Span) (tag : ByteVec kTagSize) (pt : Ptr) :
    Run Unit := do
  returnIf (key = .null) .errInvalidArg
  returnIf (0 < ct.size ∧ (ct.isNull = true ∨ pt = .null)) .errInvalidArg
  returnIf (int32Max < ct.size ∨ int32Max < aad.length) .errInvalidArg
  let t ← clock
  let a : OpenArgs := ⟨← load key kKeySize, nonce, aad, ct.toBytes, tag⟩
  let _ ← logged (.opened a) do
    returnIf (w.evp t .newCtx = false) .errCrypto
    ofStatus (aeadBegin w t aad)
    cipherUpdate w t ct.size pt (w.gcmOpen a).1.1
    returnIf (w.evp t .setTag = false) .errCrypto
    returnIf ((w.gcmOpen a).2 = false) .errAuth
    return (w.gcmOpen a).1.1
  return ()

/-! ### compression -/

/-- What `CompressChunk` answers: a stream, empty if it ran out of room, and whether it helps. -/
def deflateResult (w : World) (input : Bytes) (room t : ℕ) : Except McStatus (Bytes × Bool) := do
  failIf (w.deflateInit t = false) .errMemory
  let z := w.deflate t input room
  if z.rc ≠ .streamEnd then
    failIf (z.rc ≠ .ok ∧ z.rc ≠ .bufError) .errCompress
    return ([], false)
  return (z.out, decide (z.out.length < input.length))

/-- What `DecompressChunk` answers. -/
def inflateResult (w : World) (input : Bytes) (room t : ℕ) : Except McStatus Bytes := do
  failIf (w.inflateInit t = false) .errMemory
  let z := w.inflate t input room
  failIf (z.rc ≠ .streamEnd ∨ z.out.length ≠ room ∨ z.remaining ≠ 0) .errCompress
  return z.out

/-- `CompressChunk`: `*out_size` and `*smaller`. -/
def compressChunk (w : World) (input : Span) (out : Ptr) (outCapacity : ℕ) : Run (ℕ × Bool) := do
  returnIf (input.isNull = true ∨ out = .null) .errInvalidArg
  returnIf (uint32Max < input.size ∨ uint32Max < outCapacity) .errInvalidArg
  let t ← clock
  let r ← logged (.deflated input.toBytes outCapacity) do
    returnIf (w.deflateInit t = false) .errMemory
    let z := w.deflate t input.toBytes outCapacity
    store out z.out
    if z.rc ≠ .streamEnd then
      returnIf (z.rc ≠ .ok ∧ z.rc ≠ .bufError) .errCompress
      return ([], false)
    return (z.out, decide (z.out.length < input.size))
  return (r.1.length, r.2)

/-- `DecompressChunk`. -/
def decompressChunk (w : World) (input : Span) (out : Ptr) (outSize : ℕ) : Run Unit := do
  returnIf (input.isNull = true ∨ (0 < outSize ∧ out = .null)) .errInvalidArg
  returnIf (uint32Max < input.size ∨ uint32Max < outSize) .errInvalidArg
  let t ← clock
  let _ ← logged (.inflated input.toBytes outSize) do
    returnIf (w.inflateInit t = false) .errMemory
    let z := w.inflate t input.toBytes outSize
    store out z.out
    returnIf (z.rc ≠ .streamEnd ∨ z.out.length ≠ outSize ∨ z.remaining ≠ 0) .errCompress
    return z.out
  return ()

/-! ### Refinement -/

section Refinement

variable {α β : Type} {s : St} {w : World}

theorem ofExcept_failIf {c : Prop} [Decidable c] {e : McStatus} :
    (Prog.ofExcept (failIf c e) : Ref Unit) = Ref.returnIf c e := ofExcept_throwIf

/-- A logged call gives the answer and logs it. -/
theorem sim_logged {ev : Except McStatus α → Event} {r : ℕ → Except McStatus α} {m : Run α}
    {Q : α → Heap → Prop} {F : Heap → Prop}
    (h : Refines m (Prog.ofExcept (r s.trace.length)) s (fun a b s1 => a = b ∧ Q a s1.heap) (fun s1 => F s1.heap)) :
    Refines (logged ev m) (Ref.ask ev r) s (fun a b s1 => a = b ∧ Q a s1.heap) (fun s1 => F s1.heap) := by
  rcases h with ⟨a, b, s1, h1, h2, rfl, hq⟩ | ⟨e, s1, h1, h2, hf⟩
  · obtain ⟨hr, ht⟩ := Prod.mk.inj h2
    refine .inl ⟨a, a, ⟨s1.heap, s.trace ++ [ev (.ok a)]⟩, ?_, ?_, rfl, hq⟩
    · simp [logged, report, h1, toStatus, ← ht]
    · simp [Ref.ask, hr]
  · obtain ⟨hr, ht⟩ := Prod.mk.inj h2
    refine .inr ⟨e, ⟨s1.heap, s.trace ++ [ev (.error e)]⟩, ?_, ?_, hf⟩
    · simp [logged, report, h1, toStatus, ← ht]
    · simp [Ref.ask, hr]

/-- `DeriveKey` gives a buffer with the key scrypt answers. -/
theorem sim_deriveKey {h0 : Heap} {g : ℕ → Option Bytes} (key : Span) (salt : Bytes) (logN : UInt8)
    (r p : UInt32) (hs : Heap.Becomes h0 s.heap g) :
    Refines (deriveKey w key salt logN r p) (Ref.deriveKey w key salt logN r p) s
      (fun buf k s1 => InScope h0 g buf k.1 s1) (fun s1 => Heap.Becomes h0 s1.heap g) := by
  unfold deriveKey Ref.deriveKey
  refine Sim.throwIf (fun _ => hs) fun _ => Sim.throwIf (fun _ => hs) fun _ => ?_
  refine Sim.bind (sim_newBuffer w .derived kKeySize hs) (fun buf _ s1 h1 => ?_) (fun _ h => h)
  refine sim_onStop h0 (E := fun s2 => InScope h0 g buf (zeros kKeySize) s2) ?_
    (fun s2 h2 => ⟨g, _, h2, fun _ h => h⟩)
  refine Sim.tail (Sim.zoom fun _ _ => rfl) ?_ ?_
  · rintro k _ s2 ⟨rfl, tr, rfl⟩
    obtain ⟨b, hd, hp, hb⟩ := h1.holds.ptr (by simp [zeros])
    have hfit : buf.ptr.Fits k.1.length s1.heap.get := by
      rw [hp]
      exact Ptr.fits_into hb (by simp)
    obtain ⟨s3, e3, t3, b3⟩ := store_run (s := { s1 with trace := tr }) hfit
    have hk : buf.ptr.put k.1 s1.heap.get = buf.over k.1 g := by
      have hw : overwrite (zeros kKeySize) 0 k.1 = k.1 := by simp [overwrite, zeros]
      rw [hp, Ptr.put_into hb, hw, h1.becomes.get_eq, ← SecureBuffer.over_data hd, SecureBuffer.over_over]
    refine ⟨buf, s3, bind_ok e3, t3, h1.becomes.trans (b3.cast hk), ?_, h1.fresh⟩
    have hsz : buf.size = k.1.length := by rw [h1.holds.size, zeros_length, k.2]
    have hbuf : buf = ⟨some b, k.1.length⟩ := by rw [← hd, ← hsz]
    rw [b3.get_eq, hk, SecureBuffer.over_data hd, hbuf]
    exact .block (fun e => by simpa [e] using k.2) (update_self ..)
  · rintro s2 ⟨tr, rfl⟩
    exact ⟨h1.becomes, h1.holds, h1.fresh⟩

/-- Up to `n` bytes were written at `p`, and nothing else. -/
def Written (h : Heap) (p : Ptr) (n : ℕ) (h' : Heap) : Prop :=
  ∃ y : Bytes, y.length ≤ n ∧ Heap.Becomes h h' (p.put y h.get)

theorem Written.refl (h : Heap) (p : Ptr) (n : ℕ) : Written h p n h :=
  ⟨[], Nat.zero_le n, (Heap.Becomes.refl h).cast (Ptr.put_nil ..).symm⟩

theorem sim_cipherUpdate {t size : ℕ} {out : Ptr} {bytes : Bytes} (hp : out.Fits bytes.length s.heap.get)
    (hn : bytes.length = size) : Refines (cipherUpdate w t size out bytes)
      (Ref.returnIf (0 < size ∧ w.evp t .update = false) .errCrypto) s
      (fun _ _ s1 => Heap.Becomes s.heap s1.heap (out.put bytes s.heap.get)) (fun s1 => s1 = s) := by
  unfold cipherUpdate
  by_cases h0 : 0 < size
  · rw [if_pos h0]
    by_cases h1 : w.evp t .update = false
    · refine .inr ⟨.errCrypto, s, ?_, ?_, rfl⟩
      · rw [returnIf, throwIf_pos h1]
        rfl
      · rw [Ref.returnIf, throwIf, if_pos ⟨h0, h1⟩]
        rfl
    · obtain ⟨s1, e1, t1, b1⟩ := store_run hp
      refine .inl ⟨(), (), s1, ?_, ?_, b1⟩
      · rw [returnIf, throwIf_neg h1, e1]
      · rw [Ref.returnIf, throwIf, if_neg (fun h => h1 h.2), t1]
        rfl
  · have hnil : bytes = [] := List.eq_nil_of_length_eq_zero (by omega)
    subst hnil
    rw [if_neg h0, Ref.returnIf, throwIf, if_neg (fun h => h0 h.1)]
    exact Sim.pure ((Heap.Becomes.refl _).cast (Ptr.put_nil ..).symm)

/-- `Seal` writes the ciphertext it answers; a failure leaves up to that many bytes there. -/
theorem sim_aeadSeal {kb : ℕ} {k nonce aad d : Bytes} {ct : Ptr} (hk : s.heap.get kb = some k)
    (hl : k.length = kKeySize) (hd : d.length ≤ int32Max) (ha : aad.length ≤ int32Max)
    (hct : ct.Fits d.length s.heap.get) (hn : ct ≠ .null) :
    Refines (aeadSeal w (.into kb 0) nonce aad (.bytes d) ct)
      (Ref.ask (.sealed ⟨k, nonce, aad, d⟩) (sealResult w ⟨k, nonce, aad, d⟩)) s
      (fun tag r s1 => tag = r.2 ∧ r.1.length = d.length ∧ Heap.Becomes s.heap s1.heap (ct.put r.1 s.heap.get))
      (fun s1 => Written s.heap ct d.length s1.heap) := by
  have hload : load (.into kb 0) kKeySize s = (.ok k, s) := by
    rw [load_run hk (by rw [hl]; simp), ← hl, slice_all]
  have hlen := (w.gcmSeal ⟨k, nonce, aad, d⟩).1.2
  have h0 := Written.refl s.heap ct d.length
  unfold aeadSeal
  refine Sim.checked (by simp) (Sim.checked (by simp [hn]) (Sim.checked ?_ ?_))
  · exact not_or.mpr ⟨Nat.not_lt.mpr hd, Nat.not_lt.mpr ha⟩
  refine Sim.skip (clock_run s) rfl (Sim.skip hload rfl ?_)
  refine Sim.tail (sim_logged (Q := fun r h => r.1.length = d.length ∧ Heap.Becomes s.heap h (ct.put r.1 s.heap.get))
    (F := fun h => Written s.heap ct d.length h) ?_) ?_ (fun _ h => h)
  · simp only [sealResult, ofExcept_bind, ofExcept_failIf, ofExcept_pure]
    refine Sim.throwIf (fun _ => h0) fun _ => ?_
    refine Sim.bind (R := fun _ _ s1 => s1 = s) (Sim.ofExcept rfl (fun _ _ => rfl) h0) ?_ fun _ h => h
    rintro _ _ s1 rfl
    refine Sim.bind (sim_cipherUpdate (hct.le (le_of_eq hlen)) hlen) ?_ (by rintro _ rfl; exact h0)
    intro _ _ s2 h2
    have hw : Written s1.heap ct d.length s2.heap := ⟨_, le_of_eq hlen, h2⟩
    exact Sim.throwIf (fun _ => hw) fun _ => Sim.throwIf (fun _ => hw) fun _ => Sim.pure ⟨rfl, hlen, h2⟩
  · rintro r _ s1 ⟨rfl, h1⟩
    exact ⟨_, s1, rfl, rfl, rfl, h1⟩

/-- `Open` writes what it answers; a failure may leave unverified bytes there. -/
theorem sim_aeadOpen {kb : ℕ} {k nonce aad c : Bytes} {tag : ByteVec kTagSize} {pt : Ptr}
    (hk : s.heap.get kb = some k) (hl : k.length = kKeySize) (hc : c.length ≤ int32Max)
    (ha : aad.length ≤ int32Max) (hpt : pt.Fits c.length s.heap.get) :
    Refines (aeadOpen w (.into kb 0) nonce aad (.bytes c) tag pt)
      (Ref.ask (.opened ⟨k, nonce, aad, c, tag⟩) (openResult w ⟨k, nonce, aad, c, tag⟩)) s
      (fun _ r s1 => r.length = c.length ∧ Heap.Becomes s.heap s1.heap (pt.put r s.heap.get))
      (fun s1 => Written s.heap pt c.length s1.heap) := by
  have hload : load (.into kb 0) kKeySize s = (.ok k, s) := by
    rw [load_run hk (by rw [hl]; simp), ← hl, slice_all]
  have hlen := (w.gcmOpen ⟨k, nonce, aad, c, tag⟩).1.2
  have h0 := Written.refl s.heap pt c.length
  have hnull : ¬ (0 < c.length ∧ ((Span.bytes c).isNull = true ∨ pt = .null)) := by
    rintro ⟨hpos, hn | rfl⟩
    · cases hn
    · have : c.length = 0 := hpt
      omega
  unfold aeadOpen
  refine Sim.checked (by simp) (Sim.checked hnull (Sim.checked ?_ ?_))
  · exact not_or.mpr ⟨Nat.not_lt.mpr hc, Nat.not_lt.mpr ha⟩
  refine Sim.skip (clock_run s) rfl (Sim.skip hload rfl ?_)
  refine Sim.tail (sim_logged (Q := fun r h => r.length = c.length ∧ Heap.Becomes s.heap h (pt.put r s.heap.get))
    (F := fun h => Written s.heap pt c.length h) ?_) ?_ (fun _ h => h)
  · simp only [openResult, ofExcept_bind, ofExcept_failIf, ofExcept_pure]
    refine Sim.throwIf (fun _ => h0) fun _ => ?_
    refine Sim.bind (R := fun _ _ s1 => s1 = s) (Sim.ofExcept rfl (fun _ _ => rfl) h0) ?_ fun _ h => h
    rintro _ _ s1 rfl
    refine Sim.bind (sim_cipherUpdate (hpt.le (le_of_eq hlen)) hlen) ?_ (by rintro _ rfl; exact h0)
    intro _ _ s2 h2
    have hw : Written s1.heap pt c.length s2.heap := ⟨_, le_of_eq hlen, h2⟩
    exact Sim.throwIf (fun _ => hw) fun _ => Sim.throwIf (fun _ => hw) fun _ => Sim.pure ⟨rfl, hlen, h2⟩
  · rintro r _ s1 ⟨rfl, h1⟩
    exact ⟨_, s1, rfl, rfl, h1⟩

/-- `CompressChunk` writes up to the room it has; when it helps, what it wrote is the stream. -/
theorem sim_compressChunk {d : Bytes} {out : Ptr} {room : ℕ} (hd : d.length ≤ uint32Max)
    (hr : room ≤ uint32Max) (hp : out.Fits room s.heap.get) (hn : out ≠ .null) :
    Refines (compressChunk w (.bytes d) out room) (Ref.ask (.deflated d room) (deflateResult w d room)) s
      (fun a r s1 => a = (r.1.length, r.2) ∧ Written s.heap out room s1.heap ∧ (r.2 = true →
        r.1.length < d.length ∧ r.1.length ≤ room ∧ Heap.Becomes s.heap s1.heap (out.put r.1 s.heap.get)))
      (fun s1 => Written s.heap out room s1.heap) := by
  have hnull : ¬ ((Span.bytes d).isNull = true ∨ out = .null) := by simp [hn]
  unfold compressChunk
  refine Sim.checked hnull (Sim.checked (not_or.mpr ⟨Nat.not_lt.mpr hd, Nat.not_lt.mpr hr⟩) ?_)
  refine Sim.skip (clock_run s) rfl ?_
  refine Sim.tail (sim_logged (F := fun h => Written s.heap out room h)
    (Q := fun r h => Written s.heap out room h ∧ (r.2 = true →
      r.1.length < d.length ∧ r.1.length ≤ room ∧ Heap.Becomes s.heap h (out.put r.1 s.heap.get))) ?_) ?_
    (fun _ h => h)
  · simp only [deflateResult, ofExcept_bind, ofExcept_failIf]
    refine Sim.throwIf (fun _ => Written.refl ..) fun _ => ?_
    have hfit := (w.deflate s.trace.length d room).fits
    obtain ⟨s1, e1, t1, b1⟩ := store_run (hp.le hfit)
    have hw : Written s.heap out room s1.heap := ⟨_, hfit, b1⟩
    refine Sim.skip e1 t1 ?_
    by_cases hrc : (w.deflate s.trace.length d room).rc = .streamEnd
    · simp only [Span.toBytes_bytes, Span.size_bytes, hrc, ne_eq, not_true, if_false]
      exact Sim.pure ⟨rfl, hw, fun h => ⟨of_decide_eq_true h, hfit, b1⟩⟩
    · simp only [Span.toBytes_bytes, hrc, ne_eq, not_false_eq_true, if_true, ofExcept_bind, ofExcept_failIf]
      exact Sim.throwIf (fun _ => hw) fun _ => Sim.pure ⟨rfl, hw, fun h => by cases h⟩
  · rintro r _ s1 ⟨rfl, h1⟩
    exact ⟨_, s1, rfl, rfl, rfl, h1⟩

/-- `DecompressChunk` fills the room exactly. -/
theorem sim_decompressChunk {d : Bytes} {out : Ptr} {room : ℕ} (hd : d.length ≤ uint32Max)
    (hr : room ≤ uint32Max) (hp : out.Fits room s.heap.get) :
    Refines (decompressChunk w (.bytes d) out room) (Ref.ask (.inflated d room) (inflateResult w d room)) s
      (fun _ r s1 => r.length = room ∧ Heap.Becomes s.heap s1.heap (out.put r s.heap.get))
      (fun s1 => Written s.heap out room s1.heap) := by
  have hnull : ¬ ((Span.bytes d).isNull = true ∨ (0 < room ∧ out = .null)) := by
    rintro (hn | ⟨hpos, rfl⟩)
    · cases hn
    · have : room = 0 := hp
      omega
  unfold decompressChunk
  refine Sim.checked hnull (Sim.checked (not_or.mpr ⟨Nat.not_lt.mpr hd, Nat.not_lt.mpr hr⟩) ?_)
  refine Sim.skip (clock_run s) rfl ?_
  refine Sim.tail (sim_logged (Q := fun r h => r.length = room ∧ Heap.Becomes s.heap h (out.put r s.heap.get))
    (F := fun h => Written s.heap out room h) ?_) ?_ (fun _ h => h)
  · simp only [inflateResult, ofExcept_bind, ofExcept_failIf, ofExcept_pure]
    refine Sim.throwIf (fun _ => Written.refl ..) fun _ => ?_
    have hfit := (w.inflate s.trace.length d room).fits
    obtain ⟨s1, e1, t1, b1⟩ := store_run (hp.le hfit)
    refine Sim.skip e1 t1 (Sim.throwIf (fun _ => ⟨_, hfit, b1⟩) fun h => ?_)
    exact Sim.pure ⟨rfl, not_not.mp (not_or.mp (not_or.mp h).2).1, b1⟩
  · rintro r _ s1 ⟨rfl, h1⟩
    exact ⟨_, s1, rfl, rfl, h1⟩

end Refinement

end ModelCrypt
