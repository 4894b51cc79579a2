/-
# What is relied on of the primitives, and a world that keeps it

`World.Lawful` is all that the results about whole files assume of scrypt,
AES-GCM and zlib, `World.Writes` and `World.Reads` that they do not fail, and
`ScryptArgs.Accepted` when `EVP_PBE_scrypt` takes its arguments. `sampleWorld`
has executable stand-ins with these properties: a cipher that flips bits under
a checksum of everything it covers, a compressor that knows runs of one byte,
and a generator that counts.

Key definitions: `World.Lawful`, `ScryptArgs.Accepted`, `sampleWorld`.
Key theorem: `sampleWorld_lawful`.
-/
import ModelCrypt.Primitives

namespace ModelCrypt

open Lib

/-- What is relied on of zlib. -/
structure World.Zlib (w : World) : Prop where
  /-- A finished deflate stream is at least its own header. -/
  stream_ne : ∀ t x room, (w.deflate t x room).rc = .streamEnd → (w.deflate t x room).out ≠ []
  /-- Inflating a finished stream into the exact room gives the bytes back and leaves none of it. -/
  inflate_deflate : ∀ t t' x room, (w.deflate t x room).rc = .streamEnd →
    (w.inflate t' (w.deflate t x room).out x.length).rc = .streamEnd ∧
    (w.inflate t' (w.deflate t x room).out x.length).out = x ∧
    (w.inflate t' (w.deflate t x room).out x.length).remaining = 0

/-- What is relied on of all the third-party primitives. -/
structure World.Lawful (w : World) : Prop extends World.Zlib w where
  /-- scrypt is a function of its inputs. -/
  scrypt_eq : ∀ t t' a, w.scrypt t a = w.scrypt t' a
  /-- Opening undoes sealing under the same key, nonce and associated data. -/
  open_seal : ∀ a : SealArgs,
    (w.gcmOpen ⟨a.key, a.nonce, a.aad, (w.gcmSeal a).1.1, (w.gcmSeal a).2⟩).1.1 = a.pt ∧
    (w.gcmOpen ⟨a.key, a.nonce, a.aad, (w.gcmSeal a).1.1, (w.gcmSeal a).2⟩).2 = true

/-- What is derived is a function of the inputs. -/
def World.Derives (w : World) (kdf : ScryptArgs → ByteVec kKeySize) : Prop := ∀ t a k, w.scrypt t a = some k → k = kdf a

/-- From time `t` on nothing that encryption asks for fails, but maybe the key derivation. -/
structure World.Writes (w : World) (t : ℕ) : Prop where
  alloc : ∀ t' n, t ≤ t' → w.alloc t' n = true
  rand : ∀ t' n, t ≤ t' → (w.rand t' n).isSome = true
  evp : ∀ t' c, t ≤ t' → w.evp t' c = true
  deflateInit : ∀ t', t ≤ t' → w.deflateInit t' = true
  deflate : ∀ t' x room, t ≤ t' → (w.deflate t' x room).rc ≠ .failed

/-- From time `t` on there is the memory that decryption asks for. -/
structure World.Allocates (w : World) (t : ℕ) : Prop where
  alloc : ∀ t' n, t ≤ t' → w.alloc t' n = true
  inflateInit : ∀ t', t ≤ t' → w.inflateInit t' = true

/-- From time `t` on nothing that decryption asks for fails; whether a tag verifies is not a failure. -/
structure World.Reads (w : World) (t : ℕ) : Prop extends World.Allocates w t where
  evp : ∀ t' c, t ≤ t' → w.evp t' c = true

/-- `EVP_PBE_scrypt` accepts the parameters under the memory limit it is given. -/
structure ScryptArgs.Accepted (a : ScryptArgs) : Prop where
  r_ne : a.r.toNat ≠ 0
  p_ne : a.p.toNat ≠ 0
  two_le : 2 ≤ a.n.toNat
  pow_two : a.n.toNat &&& (a.n.toNat - 1) = 0
  product : a.p.toNat * a.r.toNat < 2 ^ 30
  bound : 16 * a.r.toNat ≤ 63 → a.n.toNat < 2 ^ (16 * a.r.toNat)
  memory : 128 * a.p.toNat * a.r.toNat + 128 * a.r.toNat * (a.n.toNat + 2) ≤ a.maxMem.toNat

instance (a : ScryptArgs) : Decidable a.Accepted :=
  decidable_of_iff (a.r.toNat ≠ 0 ∧ a.p.toNat ≠ 0 ∧ 2 ≤ a.n.toNat ∧ a.n.toNat &&& (a.n.toNat - 1) = 0 ∧
      a.p.toNat * a.r.toNat < 2 ^ 30 ∧ (16 * a.r.toNat ≤ 63 → a.n.toNat < 2 ^ (16 * a.r.toNat)) ∧
      128 * a.p.toNat * a.r.toNat + 128 * a.r.toNat * (a.n.toNat + 2) ≤ a.maxMem.toNat)
    ⟨fun ⟨h1, h2, h3, h4, h5, h6, h7⟩ => ⟨h1, h2, h3, h4, h5, h6, h7⟩,
      fun ⟨h1, h2, h3, h4, h5, h6, h7⟩ => ⟨h1, h2, h3, h4, h5, h6, h7⟩⟩

/-! ### A cipher -/

def flip (x : Bytes) : Bytes := x.map (~~~ ·)

theorem flip_flip (x : Bytes) : flip (flip x) = x := by
  simp [flip, Function.comp_def]

/-- `n` bytes that depend on all of `x`. -/
def checksum (n : ℕ) (x : Bytes) : ByteVec n := ⟨leBytes n (leNat x % (2 ^ 127 - 1) + x.length), leBytes_length ..⟩

def sampleTag (key nonce aad pt : Bytes) : ByteVec kTagSize := checksum kTagSize (key ++ nonce ++ aad ++ pt)

def sampleSeal (a : SealArgs) : ByteVec a.pt.length × ByteVec kTagSize :=
  (⟨flip a.pt, List.length_map ..⟩, sampleTag a.key a.nonce a.aad a.pt)

def sampleOpen (a : OpenArgs) : ByteVec a.ct.length × Bool :=
  (⟨flip a.ct, List.length_map ..⟩, decide (a.tag = sampleTag a.key a.nonce a.aad (flip a.ct)))

/-! ### A compressor -/

/-- One byte and how often it stands there, or the bytes as they are. -/
def sampleStream : Bytes → Bytes
  | [] => [0]
  | b :: x => if x = List.replicate x.length b ∧ x.length + 1 < 256 ^ 4 then
    1 :: b :: leBytes 4 (x.length + 1) else 0 :: b :: x

def readStream : Bytes → Option Bytes
  | 0 :: x => some x
  | 1 :: b :: n => some (List.replicate (leNat n) b)
  | _ => none

theorem readStream_sampleStream (x : Bytes) : readStream (sampleStream x) = some x := by
  cases x with
  | nil => rfl
  | cons b x =>
    rw [sampleStream]
    split_ifs with h
    · rw [readStream, leNat_leBytes 4 _ h.2, List.replicate_succ, ← h.1]
    · rfl

def sampleDeflate (x : Bytes) (room : ℕ) : Deflated room :=
  if h : (sampleStream x).length ≤ room then ⟨.streamEnd, sampleStream x, h⟩ else ⟨.ok, [], Nat.zero_le _⟩

def sampleInflate (x : Bytes) (room : ℕ) : Inflated room :=
  match readStream x with
  | some y => if h : y.length ≤ room then ⟨.streamEnd, y, 0, h⟩ else ⟨.bufError, [], 0, Nat.zero_le _⟩
  | none => ⟨.failed, [], 0, Nat.zero_le _⟩

/-! ### The world -/

def sampleKey : Span := .bytes (zeros mcMinKeySize)

def sampleWorld : World where
  sizeT := .bits64
  alloc _ _ := true
  rand t n := some ⟨leBytes n t, leBytes_length ..⟩
  scrypt _ a := if a.Accepted then some (checksum kKeySize (a.pass ++ a.salt)) else none
  evp _ _ := true
  gcmSeal := sampleSeal
  gcmOpen := sampleOpen
  deflateInit _ := true
  deflate _ := sampleDeflate
  inflateInit _ := true
  inflate _ := sampleInflate

theorem sampleDeflate_end {x : Bytes} {room : ℕ} (h : (sampleDeflate x room).rc = .streamEnd) :
    (sampleDeflate x room).out = sampleStream x := by
  unfold sampleDeflate at h ⊢
  split at h
  · rename_i hle
    rw [dif_pos hle]
  · cases h

theorem sampleWorld_writes (t : ℕ) : sampleWorld.Writes t where
  alloc _ _ _ := rfl
  rand _ _ _ := rfl
  evp _ _ _ := rfl
  deflateInit _ _ := rfl
  deflate t' x room _ := by
    show (sampleDeflate x room).rc ≠ .failed
    unfold sampleDeflate
    split <;> simp

theorem sampleWorld_reads (t : ℕ) : sampleWorld.Reads t := ⟨⟨fun _ _ _ => rfl, fun _ _ => rfl⟩, fun _ _ _ => rfl⟩

theorem sampleWorld_lawful : sampleWorld.Lawful where
  scrypt_eq _ _ _ := rfl
  open_seal a := by
    have h : flip (flip a.pt) = a.pt := flip_flip a.pt
    exact ⟨h, decide_eq_true (by rw [show (sampleWorld.gcmSeal a).1.1 = flip a.pt from rfl, h]; rfl)⟩
  stream_ne t x room h := by
    rw [show sampleWorld.deflate t x room = sampleDeflate x room from rfl] at h ⊢
    rw [sampleDeflate_end h]
    cases x with
    | nil => simp [sampleStream]
    | cons b x =>
      rw [sampleStream]
      split_ifs <;> simp
  inflate_deflate t t' x room h := by
    rw [show sampleWorld.deflate t x room = sampleDeflate x room from rfl] at h ⊢
    rw [sampleDeflate_end h]
    show (sampleInflate (sampleStream x) x.length).rc = _ ∧ (sampleInflate (sampleStream x) x.length).out = _ ∧
      (sampleInflate (sampleStream x) x.length).remaining = _
    unfold sampleInflate
    rw [readStream_sampleStream]
    simp

end ModelCrypt
