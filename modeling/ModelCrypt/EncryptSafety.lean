/-
# Safety of encryption

What holds of every run of `EncryptBuffer`. It ends as the writer ends, with
what it returns in memory (`encryptBuffer_ends`). No key and nonce are used
twice, over any calls that differ in key or prefix (`encryptBuffer_nonces`).
Options that are accepted work, but for those `EVP_PBE_scrypt` refuses: with
`r = 1` it takes `N` below `2^16` only, and neither `ValidateOptions` nor
`ParseFileHeader` checks that (`accepted_iff`, `accepted_options_work`).

Key definition: `Call`.
Key theorems: `encryptBuffer_ends`, `encryptBuffer_nonces`, `accepted_iff`, `accepted_options_work`.
-/
import Mathlib.Data.List.Nodup
import ModelCrypt.EncryptTrace
import ModelCrypt.DecryptSafety

namespace ModelCrypt
namespace Encrypt

open Lib Prog

/-- **How a run ends**: what it sealed is counted, and what it returns is a finished file. -/
theorem encryptBuffer_ends (w : World) (key : Span) (opts : EncryptOptions) (input : Span) (s : St) :
    ∃ hist, (encryptBuffer w key opts input s).2.trace = s.trace ++ hist ∧ Counted hist ∧
      ∀ a s1, encryptBuffer w key opts input s = (.ok a, s1) → ∃ k h rs x, Finished w key opts input k h rs hist ∧
        Returned a (serializeFileHeader h ++ recordBytes rs) x ∧ InScope s.heap s.heap.get a.1 x s1 := by
  obtain ⟨hist, ht, -, -, hc, hout⟩ := encrypt_logs w key opts input s.trace Orderly.nil
  rw [List.append_nil] at ht hout
  rcases encryptBuffer_refines w key opts input s with ⟨a, b, s1, h1, h2, x, hr, hm⟩ | ⟨e, s1, h1, h2, -⟩
  · rw [h2] at ht hout
    rw [h1]
    refine ⟨hist, ht, hc, fun a' s1' he => ?_⟩
    cases he
    obtain ⟨k, h, rs, hf, rfl⟩ := hout b rfl
    exact ⟨k, h, rs, x, hf, hr, hm⟩
  · rw [h2] at ht
    rw [h1]
    exact ⟨hist, ht, hc, fun a' s1' he => by cases he⟩

/-! ### Nonces -/

/-- A call of `EncryptBuffer`, and the surroundings, memory and trace it starts with. -/
structure Call where
  world : World
  key : Span
  opts : EncryptOptions
  input : Span
  start : St

/-- What a call adds to the trace, however it ends. -/
def Call.hist (c : Call) : List Event :=
  (encryptBuffer c.world c.key c.opts c.input c.start).2.trace.drop c.start.trace.length

theorem Call.counted (c : Call) : Counted c.hist := by
  obtain ⟨hist, ht, hc, -⟩ := encryptBuffer_ends c.world c.key c.opts c.input c.start
  rwa [Call.hist, ht, List.drop_left]

theorem ofNat_inj {i j : ℕ} (hi : i < 2 ^ 32) (hj : j < 2 ^ 32) (h : UInt32.ofNat i = UInt32.ofNat j) : i = j := by
  rw [← UInt32.toNat_ofNat_of_lt' hi, h, UInt32.toNat_ofNat_of_lt' hj]

/-- As many nonces as a file has chunks at most are different. -/
theorem counted_nodup (k : ByteVec kKeySize) (np : ByteVec kNoncePrefixSize) {n : ℕ} (hn : n ≤ 2 ^ 24) :
    (counted k np n).Nodup := by
  refine List.Nodup.map_on (fun i hi j hj he => ?_) List.nodup_range
  rw [List.mem_range] at hi hj
  exact ofNat_inj (by omega) (by omega) (buildNonce_inj (Prod.mk.inj he).2).2

/-- What is sealed in a call is sealed under the key and the prefix of the call. -/
theorem Counted.uses {hist : List Event} (hc : Counted hist) {x : Bytes × Bytes} (hx : x ∈ nonces hist) :
    ∃ k np i, Uses hist k np ∧ x = (k.1, buildNonce np i) := by
  rcases hc with h0 | ⟨k, np, n, hu, -, hn⟩
  · rw [h0] at hx
    cases hx
  · rw [hn] at hx
    obtain ⟨i, -, rfl⟩ := List.mem_map.mp hx
    exact ⟨k, np, _, hu, rfl⟩

theorem Counted.nodup {hist : List Event} (hc : Counted hist) : (nonces hist).Nodup := by
  rcases hc with h0 | ⟨k, np, n, -, hn, hh⟩
  · rw [h0]
    exact List.nodup_nil
  · rw [hh]
    exact counted_nodup k np hn

/-- **Nonces never repeat under a key**: not within a call, and not between calls of
which any two differ in derived key or in nonce prefix. -/
theorem encryptBuffer_nonces (calls : List Call) : (∀ c ∈ calls, (nonces c.hist).Nodup) ∧
    (calls.Pairwise (fun c c' => ∀ k np, Uses c.hist k np → ¬ Uses c'.hist k np) →
      (calls.flatMap fun c => nonces c.hist).Nodup) := by
  refine ⟨fun c _ => c.counted.nodup, fun hp => List.nodup_flatMap.mpr ⟨fun c _ => c.counted.nodup, ?_⟩⟩
  refine hp.imp fun {c c'} hne x hx hx' => ?_
  obtain ⟨k, np, i, hu, rfl⟩ := c.counted.uses hx
  obtain ⟨k', np', i', hu', he⟩ := c'.counted.uses hx'
  obtain ⟨hk, hn⟩ := Prod.mk.inj he
  obtain rfl := Subtype.ext hk
  obtain ⟨rfl, -⟩ := buildNonce_inj hn
  exact hne k np hu hu'

/-- Options without compression, with the smallest chunks. -/
def sampleOptions : EncryptOptions where
  compression := mcCompressNoneOption
  chunkSize := kMinChunkSize
  kdfLogN := kMinKdfLogN
  kdfR := kDefaultKdfR
  kdfP := kDefaultKdfP

def sampleCall (s : St) : Call := ⟨sampleWorld, sampleKey, sampleOptions, .bytes [1, 2, 3], s⟩

/-- The next call of one sequence: it starts with what the first left. -/
def secondCall : Call := sampleCall (encryptBuffer sampleWorld sampleKey sampleOptions (.bytes [1, 2, 3]) ⟨[], []⟩).2

theorem sampleCalls_nonces : ([sampleCall ⟨[], []⟩, secondCall].flatMap fun c => nonces c.hist).Nodup := by
  have hne : ∀ e ∈ (sampleCall ⟨[], []⟩).hist, e ∈ secondCall.hist → e matches .alloc .. := by decide +kernel
  refine (encryptBuffer_nonces [sampleCall ⟨[], []⟩, secondCall]).2 ?_
  refine List.pairwise_pair.mpr fun k np hu hu' => ?_
  have := hne _ hu.2 hu'.2
  cases this

/-! ### What accepted parameters lead to -/

/-- **What scrypt accepts** of parameters in range: all, but for `N ≥ 2^16` with `r = 1`. -/
theorem accepted_iff {pass salt : Bytes} {logN : UInt8} {r p : UInt32} (hn : 14 ≤ logN.toNat ∧ logN.toNat ≤ 20)
    (hr : 1 ≤ r.toNat ∧ r.toNat ≤ 32) (hp : 1 ≤ p.toNat ∧ p.toNat ≤ 16)
    (hm : 128 * 2 ^ logN.toNat * r.toNat ≤ 2 ^ 30) :
    (scryptArgs pass salt logN r p).Accepted ↔ ¬ (r = 1 ∧ 16 ≤ logN) := by
  have hN : (scryptArgs pass salt logN r p).n.toNat = 2 ^ logN.toNat := one_shiftLeft_toNat hn.2
  have hR : (scryptArgs pass salt logN r p).r.toNat = r.toNat := UInt32.toNat_toUInt64 r
  have hP : (scryptArgs pass salt logN r p).p.toNat = p.toNat := UInt32.toNat_toUInt64 p
  have hM : (scryptArgs pass salt logN r p).maxMem.toNat = 2 ^ 30 + 2 ^ 20 := rfl
  have h1 : r = 1 ↔ r.toNat = 1 := UInt32.toNat_inj.symm
  have h16 : 16 ≤ logN ↔ 16 ≤ logN.toNat := UInt8.le_iff_toNat_le
  rw [h1, h16]
  constructor
  · rintro ha ⟨he, hge⟩
    have hb := ha.bound (by rw [hR]; omega)
    rw [hN, hR, he] at hb
    exact absurd ((Nat.pow_lt_pow_iff_right (by decide)).mp hb) (by omega)
  · intro hne
    have h14 : 2 ^ 1 ≤ 2 ^ logN.toNat := Nat.pow_le_pow_right (by decide) (by omega)
    have hpr : p.toNat * r.toNat ≤ 16 * 32 := Nat.mul_le_mul hp.2 hr.2
    refine ⟨by omega, by omega, by omega, ?_, by rw [hP, hR]; omega, fun h63 => ?_, ?_⟩
    · rw [hN]
      exact (Nat.and_two_pow_sub_one_eq_mod _ _).trans (Nat.mod_self _)
    · rw [hN, hR]
      exact Nat.pow_lt_pow_right (by decide) (by omega)
    · rw [hM, hN, hR, hP]
      nlinarith

/-! ### What does not fail -/

section Yields

variable {w : World} {t : ℕ} {k : ByteVec kKeySize} {sh : Bytes} {h : FileHeader} {compress : Bool}

theorem aeadBegin_ok {aad : Bytes} (he : ∀ c, w.evp t c = true) : aeadBegin w t aad = .ok () := by
  simp [aeadBegin, he, failIf_eq]

theorem sealResult_total {a : SealArgs} (he : ∀ c, w.evp t c = true) :
    sealResult w a t = .ok ((w.gcmSeal a).1.1, (w.gcmSeal a).2) := by
  simp only [sealResult, failIf_bind, he, aeadBegin_ok he]
  simp

theorem deflateResult_total {x : Bytes} {room : ℕ} (hi : w.deflateInit t = true)
    (hd : (w.deflate t x room).rc ≠ .failed) : ∃ z, deflateResult w x room t = .ok z := by
  simp only [deflateResult, failIf_bind, hi]
  cases hrc : (w.deflate t x room).rc with
  | streamEnd => exact ⟨_, rfl⟩
  | ok => exact ⟨_, rfl⟩
  | bufError => exact ⟨_, rfl⟩
  | failed => exact absurd hrc hd

theorem yields_pack (hw : w.Writes t) {room : ℕ} {p : Bytes} :
    Yields t (Ref.pack w compress room p) fun _ => True := by
  unfold Ref.pack
  split
  · refine Yields.andThen (yields_ask fun t' ht => ?_) fun z => ?_
    · obtain ⟨z, hz⟩ := deflateResult_total (hw.deflateInit t' ht) (hw.deflate t' p room ht)
      exact ⟨z, hz, trivial⟩
    · split <;> exact Yields.pure trivial
  · exact Yields.pure trivial

theorem yields_sealRecords (hw : w.Writes t) : ∀ (i : ℕ) (ps : List Bytes),
    Yields t (Ref.sealRecords w k sh h compress i ps) fun _ => True
  | _, [] => Yields.pure trivial
  | i, p :: ps => by
    refine Yields.andThen (Yields.andThen (yields_pack hw) fun q => ?_) fun r =>
      Yields.andThen (yields_sealRecords hw (i + 1) ps) fun rs => Yields.pure trivial
    refine Yields.andThen (yields_ask fun t' ht => ?_) fun c => Yields.pure trivial
    exact ⟨_, sealResult_total fun c => hw.evp t' c ht, trivial⟩

theorem yields_sealAll (hw : w.Writes t) {pt : Bytes} (hr : h.worstCase ≤ w.sizeT.max) :
    Yields t (Ref.sealAll w k h compress pt) fun _ => True := by
  have halloc {name : BufName} {n : ℕ} : Yields t (Ref.alloc w name n) fun _ => True :=
    yields_alloc fun t' ht => hw.alloc t' n ht
  refine Yields.throwIf (Nat.not_lt.mpr hr) (Yields.andThen halloc fun _ => Yields.andThen ?_ fun _ => ?_)
  · unfold Ref.newScratch
    split
    · exact halloc
    · exact Yields.pure trivial
  · refine Yields.andThen (yields_sealRecords hw 0 _) fun rs => Yields.andThen ?_ fun _ => Yields.pure trivial
    unfold Ref.shrink
    split
    · exact halloc
    · exact Yields.pure trivial

end Yields

/-- The size of the output if no chunk gets smaller. -/
def worstCase (opts : EncryptOptions) (n : ℕ) : ℕ :=
  kHeaderSize + (chunkCountFor n.toUInt64 opts.chunkSize).toNat * kChunkHeaderSize + n

theorem headerFor_worstCase {opts : EncryptOptions} {n : ℕ} (salt : ByteVec kSaltSize) (np : ByteVec kNoncePrefixSize)
    (hn : n ≤ 2 ^ 36) : (headerFor opts n salt np).worstCase = worstCase opts n := by
  rw [FileHeader.worstCase, plaintextSize_toNat hn]
  rfl

/-- **Encryption with accepted options** ends well exactly if scrypt takes the parameters and the output can have a
size. -/
theorem encryptBuffer_works {w : World} (hscrypt : ∀ t a, (w.scrypt t a).isSome = true ↔ a.Accepted)
    {key input : Span} {opts : EncryptOptions} {s : St} (hk : key.isNull = false) (hks : mcMinKeySize ≤ key.size)
    (hin : ¬ (0 < input.size ∧ input.isNull = true)) (hsize : input.size ≤ mcMaxPlaintextSize.toNat)
    (hopts : validateOptions opts = .ok ()) (hw : w.Writes s.trace.length) :
    (∃ a, (encryptBuffer w key opts input s).1 = .ok a) ↔
      ¬ (opts.kdfR = 1 ∧ 16 ≤ opts.kdfLogN) ∧ worstCase opts input.size ≤ w.sizeT.max := by
  have ho := validateOptions_ok_iff.mp hopts
  have hacc (salt : Bytes) : (scryptArgs key.toBytes salt opts.kdfLogN opts.kdfR opts.kdfP).Accepted ↔ _ :=
    accepted_iff ho.logN ho.r ho.p ho.memory
  constructor
  · rintro ⟨a, ha⟩
    obtain ⟨hist, -, -, hout⟩ := encryptBuffer_ends w key opts input s
    obtain ⟨k, h, rs, x, hf, -⟩ := hout a _ (Prod.ext ha rfl)
    obtain ⟨t, ht⟩ := hf.derived
    have hroom := hf.room
    rw [hf.header, headerFor_worstCase _ _ hf.bound] at hroom
    exact ⟨(hacc h.salt.1).mp ((hscrypt t _).mp (by rw [ht]; rfl)), hroom⟩
  · rintro ⟨hne, hroom⟩
    have hy : Yields s.trace.length (Ref.encrypt w key opts input) fun _ => True := by
      refine Yields.throwIf (by simp [hk]) (Yields.throwIf (Nat.not_lt.mpr hks) (Yields.throwIf hin ?_))
      refine Yields.throwIf (Nat.not_lt.mpr hsize) ?_
      rw [hopts]
      refine Yields.ofExcept (Yields.andThen (yields_fill (by decide) (by decide) fun t' ht =>
        hw.rand t' _ ht) fun salt => ?_)
      refine Yields.andThen (yields_fill (by decide) (by decide) fun t' ht => hw.rand t' _ ht) fun np => ?_
      rw [Ref.deriveKey_eq hk hks salt.2]
      refine Yields.andThen (Yields.andThen (yields_alloc fun t' ht => hw.alloc t' _ ht) fun _ => ?_) fun k =>
        yields_sealAll hw (by rwa [headerFor_worstCase _ _ hsize])
      refine yields_scrypt fun t' _ => ?_
      obtain ⟨k, hk'⟩ := Option.isSome_iff_exists.mp ((hscrypt t' _).mpr ((hacc salt.1).mpr hne))
      exact ⟨k, hk', trivial⟩
    obtain ⟨b, tr, -, hrun, -⟩ := hy s.trace (le_refl _)
    rcases encryptBuffer_refines w key opts input s with ⟨a, b', s1, h1, h2, -⟩ | ⟨e, s1, h1, h2, -⟩
    · exact ⟨a, by rw [h1]⟩
    · rw [hrun] at h2
      cases h2

/-- **What decryption derives** from an accepted header, it derives unless scrypt refuses the parameters. -/
theorem decryptBuffer_derives {w : World} (hscrypt : ∀ t a, (w.scrypt t a).isSome = true ↔ a.Accepted)
    {key input : Span} {s : St} {h : FileHeader} {hist : List Event} (hin : input.size ≤ w.sizeT.max)
    (hp : parseFileHeader input = .ok h) (ht : (Decrypt.decryptBuffer w key input s).2.trace = s.trace ++ hist)
    {a : ScryptArgs} {k : Option (ByteVec kKeySize)} (hk : .derived a k ∈ hist) :
    k = none ↔ h.kdfR = 1 ∧ 16 ≤ h.kdfLogN := by
  obtain ⟨hist', ht', ho, -⟩ := Decrypt.decryptBuffer_ends w key input s hin
  rw [ht', List.append_cancel_left_eq] at ht
  subst ht
  obtain ⟨pre, post, hs⟩ := List.append_of_mem hk
  obtain ⟨-, c, hc, ⟨t, rfl⟩, pass, rfl⟩ := ho _ _ _ hs
  have hn : input.isNull = false := by
    cases input with
    | null n => rw [parseFileHeader] at hp; cases hp
    | bytes b => rfl
  rw [Span.eq_bytes hn, ← hc, c.parse] at hp
  cases hp
  have hacc : (scryptArgs pass c.header.salt.1 c.header.kdfLogN c.header.kdfR c.header.kdfP).Accepted ↔ _ :=
    accepted_iff c.valid.logN c.valid.r c.valid.p c.valid.memory
  rw [← not_iff_not, ← hacc, ← hscrypt t, Option.isSome_iff_ne_none]

/-- **Accepted parameters work, and exactly when**: encryption ends well unless `r` is 1 and
`N` at least `2^16` (or the output has no size in `size_t`), and under the same
condition a key derivation of `DecryptBuffer` succeeds. -/
theorem accepted_options_work (w : World) (hscrypt : ∀ t a, (w.scrypt t a).isSome = true ↔ a.Accepted) :
    (∀ (key input : Span) (opts : EncryptOptions) (s : St), key.isNull = false → mcMinKeySize ≤ key.size →
      ¬ (0 < input.size ∧ input.isNull = true) → input.size ≤ mcMaxPlaintextSize.toNat →
      validateOptions opts = .ok () → w.Writes s.trace.length →
      ((∃ a, (encryptBuffer w key opts input s).1 = .ok a) ↔
        ¬ (opts.kdfR = 1 ∧ 16 ≤ opts.kdfLogN) ∧ worstCase opts input.size ≤ w.sizeT.max)) ∧
    ∀ (key input : Span) (s : St) (h : FileHeader) (hist : List Event), input.size ≤ w.sizeT.max →
      parseFileHeader input = .ok h → (Decrypt.decryptBuffer w key input s).2.trace = s.trace ++ hist →
      ∀ a k, .derived a k ∈ hist → (k.isSome = true ↔ ¬ (h.kdfR = 1 ∧ 16 ≤ h.kdfLogN)) := by
  refine ⟨fun key input opts s hk hks hin hsize hopts hw => encryptBuffer_works hscrypt hk hks hin hsize hopts hw, ?_⟩
  intro key input s h hist hin hp ht a k hm
  rw [← decryptBuffer_derives hscrypt hin hp ht hm, Option.isSome_iff_ne_none]

theorem sampleWorld_scrypt (t : ℕ) (a : ScryptArgs) : (sampleWorld.scrypt t a).isSome = true ↔ a.Accepted := by
  show (if a.Accepted then some _ else none : Option (ByteVec kKeySize)).isSome = true ↔ _
  split <;> simp [*]

theorem sampleOptions_work :
    ∃ a, (encryptBuffer sampleWorld sampleKey sampleOptions (.bytes [1, 2, 3]) ⟨[], []⟩).1 = .ok a :=
  ((accepted_options_work sampleWorld sampleWorld_scrypt).1 sampleKey (.bytes [1, 2, 3]) sampleOptions ⟨[], []⟩ rfl
    (by decide) (by decide) (by decide) (by decide)
    (sampleWorld_writes 0)).mpr ⟨by decide, by decide⟩

/-- Accepted options with `r = 1` and `N = 2^16`. -/
def refusedOptions : EncryptOptions := { sampleOptions with kdfLogN := 16, kdfR := 1 }

/-- An empty file under such a header. -/
def refusedFile : Container where
  header := { chunkSize := 4096, plaintextSize := 0, chunkCount := 1, kdfLogN := 16, kdfR := 1 }
  records := [⟨⟨0, 0⟩, ⟨zeros kTagSize, zeros_length _⟩, []⟩]
  valid := by constructor <;> decide
  count := rfl
  fits := ⟨by constructor <;> decide, trivial⟩

/-- Nothing else fails, and both calls stop with `MC_ERR_CRYPTO`. -/
theorem accepted_options_refused : validateOptions refusedOptions = .ok () ∧
    parseFileHeader (.bytes refusedFile.bytes) = .ok refusedFile.header ∧ sampleWorld.Writes 0 ∧ sampleWorld.Reads 0 ∧
    (∀ t a, (sampleWorld.scrypt t a).isSome = true ↔ a.Accepted) ∧
    (encryptBuffer sampleWorld sampleKey refusedOptions (.bytes []) ⟨[], []⟩).1 = .error (.status .errCrypto) ∧
    (Decrypt.decryptBuffer sampleWorld sampleKey (.bytes refusedFile.bytes) ⟨[], []⟩).1 = .error (.status .errCrypto) :=
  ⟨by decide, refusedFile.parse, sampleWorld_writes 0, sampleWorld_reads 0, sampleWorld_scrypt, by decide +kernel,
    by decide +kernel⟩

end Encrypt
end ModelCrypt
