/-
# What opens under an ideal cipher was written as a whole

A history of finished calls of `EncryptBuffer` whose random draws differ, and
a cipher that opens exactly what was sealed in it (`Ideal`). Then a file that
opens is the file of one of these calls, byte for byte: what a chunk opens to
was sealed by some call at the same position, under the same header and with
the same record (`opened_origin`), the header has the draws of the call in it,
so all chunks are of one call (`Output.call_eq`), and they are all it has. On
every other file decryption fails, and not in zlib, which only sees streams
that deflate finished (`gives_openAll`).

Key definitions: `Call.Makes`, `Call.Output`, `Ideal`.
Key theorems: `opened_origin`, `gives_openRecord`, `gives_openAll`, `decryptBuffer_authentic`.
-/
import Mathlib.Data.List.Pairwise
import ModelCrypt.RoundTrip

namespace ModelCrypt
namespace Encrypt

open Lib Prog

/-! ### The files of a history -/

/-- The bytes at a pointer are determined by how many they are. -/
theorem At.inj {s : St} {p : Option ℕ} {f g : Bytes} (hf : s.At p f) (hg : s.At p g) (hl : f.length = g.length) :
    f = g := by
  cases p with
  | none => exact hf.trans hg.symm
  | some b =>
    obtain ⟨x, hx, hp⟩ := hf
    obtain ⟨y, hy, hq⟩ := hg
    cases hx.symm.trans hy
    exact (List.prefix_of_prefix_length_le hp hq (le_of_eq hl)).eq_of_length hl

/-- The call ends well, and `f` is the file it returns. -/
def Call.Makes (c : Call) (f : Bytes) : Prop :=
  ∃ a s1, encryptBuffer c.world c.key c.opts c.input c.start = (.ok a, s1) ∧ f.length = a.2 ∧ s1.At a.1.data f

/-- The derived key, the header and the records of a call that ends well. -/
structure Call.Output (c : Call) (k : ByteVec kKeySize) (h : FileHeader) (rs : List Record) : Prop where
  finished : Finished c.world c.key c.opts c.input k h rs c.hist
  makes : c.Makes (serializeFileHeader h ++ recordBytes rs)

theorem Call.output {c : Call} {f : Bytes} (hm : c.Makes f) :
    ∃ k h rs, c.Output k h rs ∧ f = serializeFileHeader h ++ recordBytes rs := by
  obtain ⟨a, s1, hrun, hlen, hat⟩ := hm
  obtain ⟨k, h, rs, hist, hf, ht, hsize, hat'⟩ := encryptBuffer_file hrun
  have hhist : c.hist = hist := by rw [Call.hist, hrun, ht, List.drop_left]
  exact ⟨k, h, rs, ⟨hhist ▸ hf, a, s1, hrun, hsize, hat'⟩, At.inj hat hat' (hlen.trans hsize.symm)⟩

/-- The salt and the prefix were drawn. -/
def Draws (hist : List Event) (salt : ByteVec kSaltSize) (np : ByteVec kNoncePrefixSize) : Prop :=
  .drawn kSaltSize (some salt.1) ∈ hist ∧ .drawn kNoncePrefixSize (some np.1) ∈ hist

/-- No two calls drew the same salt and prefix. -/
def Distinct (calls : List Call) : Prop :=
  calls.Pairwise fun c c' => ∀ salt np, Draws c.hist salt np → ¬ Draws c'.hist salt np

/-- `Open` ends in `MC_OK` with `pt` exactly if what it is given was sealed as `pt` in the history. -/
def Ideal (w : World) (calls : List Call) : Prop :=
  ∀ t a pt, openResult w a t = .ok pt ↔
    ∃ c ∈ calls, .sealed ⟨a.key, a.nonce, a.aad, pt⟩ (.ok (a.ct, a.tag)) ∈ c.hist

theorem mem_sealings {hist : List Event} {a : SealArgs} {r : Except McStatus (Bytes × ByteVec kTagSize)} :
    (a, r) ∈ sealings hist ↔ .sealed a r ∈ hist := by
  rw [sealings, List.mem_filterMap]
  constructor
  · rintro ⟨e, he, hx⟩
    cases e <;> cases hx
    exact he
  · intro he
    exact ⟨_, he, rfl⟩

section Output

variable {calls : List Call} {c c' : Call} {k k' : ByteVec kKeySize} {h : FileHeader} {rs rs' : List Record}

/-- Calls with the same header are the same call. -/
theorem Output.call_eq (hd : Distinct calls) (hc : c ∈ calls) (hc' : c' ∈ calls) (ho : c.Output k h rs)
    (ho' : c'.Output k' h rs') : c = c' := by
  by_contra hne
  have hsymm : Std.Symm fun c c' : Call => ∀ salt np, Draws c.hist salt np → ¬ Draws c'.hist salt np :=
    ⟨fun _ _ hn salt np h1 h2 => hn salt np h2 h1⟩
  exact hd.forall hc hc' hne h.salt h.noncePrefix ⟨ho.finished.salt, ho.finished.noncePrefix⟩
    ⟨ho'.finished.salt, ho'.finished.noncePrefix⟩

/-- What was sealed at a position determines the record there. -/
theorem sealArgs_inj {sh sh' : Bytes} {h' : FileHeader} {i j : ℕ} {chunk chunk' : ChunkHeader} {d d' : Bytes}
    (hl : sh.length = sh'.length) (he : sealArgs k sh h i chunk d = sealArgs k' sh' h' j chunk' d') :
    k = k' ∧ sh = sh' ∧ UInt32.ofNat i = UInt32.ofNat j ∧ chunk = chunk' ∧ d = d' := by
  obtain ⟨hk, -, ha, hd⟩ := SealArgs.mk.inj he
  obtain ⟨h1, h2, h3⟩ := buildAad_inj hl ha
  exact ⟨Subtype.ext hk, h1, h2, h3, hd⟩

/-- The records of a call are determined by its header and what it sealed. -/
theorem Output.records_eq (ho : c.Output k h rs) (ho' : c.Output k' h rs') : rs = rs' := by
  refine List.ext_getElem? fun i => ?_
  have hlen : rs.length = rs'.length := ho.finished.count.trans ho'.finished.count.symm
  rcases Nat.lt_or_ge i rs.length with hlt | hge
  · have hr := List.getElem?_eq_getElem hlt
    have hr' := List.getElem?_eq_getElem (hlen ▸ hlt)
    obtain ⟨p, d, -, -, hlog, -⟩ := ho.finished.made.made i _ hr
    obtain ⟨p', d', -, -, hlog', -⟩ := ho'.finished.made.made i _ hr'
    obtain ⟨ha, hres⟩ := Prod.mk.inj (Option.some.inj (hlog.symm.trans hlog'))
    obtain ⟨-, -, -, hchunk, -⟩ := sealArgs_inj rfl ha
    obtain ⟨hct, htag⟩ := Prod.mk.inj (Except.ok.inj hres)
    rw [hr, hr']
    exact congrArg some (Record.ext hchunk htag hct)
  · rw [List.getElem?_eq_none hge, List.getElem?_eq_none (hlen ▸ hge)]

end Output

/-! ### A file that is not of the history -/

section Hostile

variable {w : World} {calls : List Call} {k : ByteVec kKeySize} {h : FileHeader} {rs : List Record} {scratch : Option ℕ}

/-- The failures of decryption on any file. -/
def Failed (e : McStatus) : Prop := e ≠ .ok ∧ e ≠ .errCompress

/-- `p` is the piece and `r` the record at position `i` of some call under this key and header. -/
def From (calls : List Call) (k : ByteVec kKeySize) (h : FileHeader) (i : ℕ) (r : Record) (p : Bytes) : Prop :=
  ∃ c ∈ calls, ∃ rs, c.Output k h rs ∧ rs[i]? = some r ∧ (h.pieces c.input.toBytes)[i]? = some p

/-- **What a chunk opens to** was sealed by a call at that position, with that record, under that header. -/
theorem opened_origin (hc : ∀ c ∈ calls, c.world = w ∧ ∃ f, c.Makes f) (hi : Ideal w calls) {i t : ℕ} {r : Record}
    {d : Bytes} (h32 : i < 2 ^ 32) (ho : openResult w (openArgs k (serializeFileHeader h) h i r) t = .ok d) :
    ∃ p room, From calls k h i r p ∧ p.length = h.sliceSize i ∧ ∃ compress, Packed w compress room p r.chunk d := by
  obtain ⟨c, hm, hsealed⟩ := (hi t _ d).mp ho
  obtain ⟨rfl, f, hmakes⟩ := hc c hm
  obtain ⟨k', h', rs, hout, -⟩ := Call.output hmakes
  obtain ⟨j, hj⟩ := List.mem_iff_getElem?.mp (mem_sealings.mpr hsealed)
  have hlt := (List.getElem?_eq_some_iff.mp hj).1
  rw [hout.finished.made.length] at hlt
  obtain ⟨p, d', hp, hpack, hlog, -⟩ := hout.finished.made.made j _ (List.getElem?_eq_getElem hlt)
  obtain ⟨ha, hres⟩ := Prod.mk.inj (Option.some.inj (hj.symm.trans hlog))
  have hsh : (serializeFileHeader h).length = (serializeFileHeader h').length := by
    rw [serializeFileHeader_length, serializeFileHeader_length]
  obtain ⟨rfl, hh, hij, hchunk, rfl⟩ := sealArgs_inj (h := h) hsh ha
  obtain ⟨hct, htag⟩ := Prod.mk.inj (Except.ok.inj hres)
  cases serializeFileHeader_inj hh
  have hjc : j < 2 ^ 32 := by
    have := hout.finished.valid.count_le
    rw [← hout.finished.count] at this
    omega
  obtain rfl := ofNat_inj h32 hjc hij
  have hr : rs[i] = r := Record.ext hchunk.symm htag.symm hct.symm
  rw [hr] at hpack
  refine ⟨p, _, ⟨c, hm, rs, hout, ?_, hp⟩, pieces_size hout.finished.length hp, _, hpack⟩
  rw [List.getElem?_eq_getElem hlt, hr]

theorem openResult_failed {a : OpenArgs} {t : ℕ} {e : McStatus} (he : openResult w a t = .error e) : Failed e := by
  unfold openResult at he
  simp only [failIf_bind] at he
  split at he
  · cases he
    exact ⟨by decide, by decide⟩
  rcases hb : aeadBegin w t a.aad with e' | u <;> rw [hb] at he
  · cases he
    unfold aeadBegin at hb
    simp only [failIf_bind] at hb
    rw [failIf_eq] at hb
    split_ifs at hb <;> cases hb <;> exact ⟨by decide, by decide⟩
  · change (if _ then _ else _) = _ at he
    split_ifs at he <;> cases he <;> exact ⟨by decide, by decide⟩

/-- A stream that deflate finished inflates, unless there is no memory for it. -/
theorem inflateResult_sealed {compress : Bool} {room t : ℕ} {p d : Bytes} {c : ChunkHeader} (hw : w.Zlib)
    (hp : Packed w compress room p c d) (hc : c.compressed = true) :
    inflateResult w d p.length t = .ok p ∨ inflateResult w d p.length t = .error .errMemory := by
  cases hi : w.inflateInit t with
  | true => exact .inl (hp.inflates hw hc hi)
  | false =>
    refine .inr ?_
    rw [inflateResult, failIf_bind, if_pos hi]

/-- **One chunk**: it gives the piece of a call, or fails, and not in zlib. -/
theorem gives_openRecord (hc : ∀ c ∈ calls, c.world = w ∧ ∃ f, c.Makes f) (hi : Ideal w calls) (hw : w.Zlib)
    {i room : ℕ} {r : Record} (h32 : i < 2 ^ 32) :
    Gives (Ref.openRecord w k (serializeFileHeader h) h scratch i room r) (From calls k h i r) Failed := by
  refine Gives.bind gives_emit fun _ _ => ?_
  refine Gives.bind (F := fun d => ∃ p room, From calls k h i r p ∧ p.length = h.sliceSize i ∧
    ∃ compress, Packed w compress room p r.chunk d)
    (gives_ask (fun t d ho => opened_origin hc hi h32 ho) fun t e he => openResult_failed he) ?_
  rintro d ⟨p, room', hfrom, hsize, compress, hpack⟩
  cases hz : r.chunk.compressed with
  | false =>
    rcases hpack.cases with ⟨-, -, rfl⟩ | ⟨-, h1, -⟩
    · exact Gives.pure hfrom
    · exact absurd (hz.symm.trans h1) Bool.false_ne_true
  | true =>
    have hinf (t : ℕ) := inflateResult_sealed (t := t) hw hpack hz
    rw [hsize] at hinf
    refine gives_ask (fun t x hx => ?_) fun t e he => ?_
    · rcases hinf t with h1 | h1 <;> rw [h1] at hx <;> cases hx
      exact hfrom
    · rcases hinf t with h1 | h1 <;> rw [h1] at he <;> cases he
      exact ⟨by decide, by decide⟩

/-- **The chunks from a position on**, each from some call: by induction on the records left. -/
theorem gives_openRecords (hc : ∀ c ∈ calls, c.world = w ∧ ∃ f, c.Makes f) (hi : Ideal w calls) (hw : w.Zlib) :
    ∀ (rest : List Record) (i : ℕ), i + rest.length ≤ 2 ^ 24 →
    Gives (Ref.openRecords w k (serializeFileHeader h) h scratch i rest) (fun ps => ps.length = rest.length ∧
      ∀ (j : ℕ) (r : Record) (p : Bytes), rest[j]? = some r → ps[j]? = some p → From calls k h (i + j) r p) Failed
  | [], i, _ => Gives.pure ⟨rfl, fun j r p hr => by simp at hr⟩
  | r :: rest, i, hle => by
    rw [List.length_cons] at hle
    refine Gives.bind (gives_openRecord hc hi hw (by omega)) fun p hp => ?_
    refine Gives.bind (gives_openRecords hc hi hw rest (i + 1) (by omega)) fun ps hps => ?_
    refine Gives.pure ⟨by rw [List.length_cons, List.length_cons, hps.1], fun j r' p' hr' hp' => ?_⟩
    cases j with
    | zero =>
      cases hr'
      cases hp'
      exact hp
    | succ j =>
      have := hps.2 j r' p' hr' hp'
      rwa [Nat.succ_add_eq_add_succ] at this

/-- **All chunks are of one call**, and they are all it has. -/
theorem from_one_call (hd : Distinct calls) (hpos : 0 < rs.length) (hcount : rs.length = h.chunkCount.toNat)
    {ps : List Bytes} (hlen : ps.length = rs.length)
    (hall : ∀ (j : ℕ) (r : Record) (p : Bytes), rs[j]? = some r → ps[j]? = some p → From calls k h j r p) :
    ∃ c ∈ calls, c.Output k h rs ∧ ps.flatten = c.input.toBytes := by
  obtain ⟨c, hm, rs0, hout, -⟩ := hall 0 _ _ (List.getElem?_eq_getElem hpos)
    (List.getElem?_eq_getElem (by rw [hlen]; exact hpos))
  -- every other chunk has the header of this call, so its draws
  have hone (j : ℕ) (hj : j < rs.length) : rs0[j]? = rs[j]? ∧ (h.pieces c.input.toBytes)[j]? = ps[j]? := by
    have hr := List.getElem?_eq_getElem hj
    have hp := List.getElem?_eq_getElem (l := ps) (hlen ▸ hj)
    obtain ⟨c', hm', rs', hout', hr', hp'⟩ := hall j _ _ hr hp
    obtain rfl := Output.call_eq hd hm hm' hout hout'
    obtain rfl := Output.records_eq hout hout'
    exact ⟨hr'.trans hr.symm, hp'.trans hp.symm⟩
  have hsame {α : Type} {l l' : List α} {n : ℕ} (hl : l.length = n) (hl' : l'.length = n)
      (he : ∀ j < n, l[j]? = l'[j]?) : l = l' := by
    refine List.ext_getElem? fun j => ?_
    rcases Nat.lt_or_ge j n with hlt | hge
    · exact he j hlt
    · rw [List.getElem?_eq_none (hl ▸ hge), List.getElem?_eq_none (hl' ▸ hge)]
  have hrs : rs0 = rs := hsame (hout.finished.count.trans hcount.symm) rfl fun j hj => (hone j hj).1
  have hps : h.pieces c.input.toBytes = ps :=
    hsame ((pieces_length h _).trans hcount.symm) hlen fun j hj => (hone j hj).2
  subst hrs
  rw [← hps, pieces_flatten hout.finished.valid hout.finished.length]
  exact ⟨c, hm, hout, rfl⟩

/-- **What opens as a whole is the file of a call**, with its plaintext; all else fails, and not in zlib. -/
theorem gives_openAll (hc : ∀ c ∈ calls, c.world = w ∧ ∃ f, c.Makes f) (hi : Ideal w calls) (hw : w.Zlib)
    (hd : Distinct calls) (hv : h.Valid) (hcount : rs.length = h.chunkCount.toNat) :
    Gives (Ref.openAll w k (serializeFileHeader h) h rs)
      (fun out => ∃ c ∈ calls, c.Output k h rs ∧ out = c.input.toBytes) Failed := by
  have hpos := hv.count_pos
  have hle := hv.count_le
  have hmem : Failed .errMemory := ⟨by decide, by decide⟩
  rw [← hcount] at hpos hle
  rcases hrs : rs with _ | ⟨r, rest⟩
  · rw [hrs] at hpos
    cases hpos
  rw [hrs, List.length_cons] at hle
  refine Gives.bind (gives_alloc hmem) fun _ _ => Gives.bind (gives_alloc hmem) fun _ _ => ?_
  refine Gives.bind (gives_openRecord hc hi hw (by decide)) fun p hp => ?_
  refine Gives.throwIf (fun _ => ⟨by decide, by decide⟩) fun _ => Gives.bind (gives_alloc hmem) fun _ _ => ?_
  refine Gives.bind (gives_openRecords hc hi hw rest 1 (by omega)) fun ps hps => Gives.bind gives_emit fun _ _ => ?_
  refine Gives.pure ?_
  have hall : ∃ c ∈ calls, c.Output k h (r :: rest) ∧ (p :: ps).flatten = c.input.toBytes := by
    refine from_one_call hd (hrs ▸ hpos) (hrs ▸ hcount) (by rw [List.length_cons, List.length_cons, hps.1]) ?_
    intro j r' p' hr' hp'
    cases j with
    | zero =>
      cases hr'
      cases hp'
      exact hp
    | succ j =>
      have := hps.2 j r' p' hr' hp'
      rwa [Nat.add_comm] at this
  exact hall

/-- The failures of the header's parser. -/
theorem parseFileHeader_failed {f : Bytes} {e : McStatus} (he : toStatus (parseFileHeader (.bytes f)) = .error e) :
    Failed e := by
  rcases hp : parseFileHeader (.bytes f) with e' | h <;> rw [hp] at he
  · obtain ⟨st, hst, rfl⟩ := parseFileHeader_error hp
    cases he
    have hall : ∀ st ∈ [McStatus.errInvalidArg, .errFormat, .errUnsupported, .errTooLarge], st ≠ .ok ∧
      st ≠ .errCompress := by
      decide
    exact hall e hst
  · cases he

theorem gives_table {f : Bytes} : Gives (Ref.table w h f) (fun rs => tableOf h f = .ok rs) Failed := by
  refine Gives.throwIf (fun _ => ⟨by decide, by decide⟩) fun _ =>
    Gives.throwIf (fun _ => ⟨by decide, by decide⟩) fun _ => ?_
  refine Gives.bind (gives_alloc ⟨by decide, by decide⟩) fun _ _ => ?_
  refine Gives.bind (Gives.ofExcept (fun rs hr => hr) fun e he => ?_) fun rs hr => Gives.bind gives_emit fun _ _ =>
    Gives.pure hr
  rw [tableOf_error he]
  exact ⟨by decide, by decide⟩

/-- The file is that of the call, and the key derives for it what the call derived. -/
def Matches (kdf : ScryptArgs → ByteVec kKeySize) (key : Span) (f : Bytes) (c : Call) : Prop :=
  (key.isNull = false ∧ mcMinKeySize ≤ key.size) ∧ ∃ h rs, f = serializeFileHeader h ++ recordBytes rs ∧
    c.Output (kdf (scryptArgs key.toBytes h.salt.1 h.kdfLogN h.kdfR h.kdfP)) h rs

/-- **The reader on any file**: the plaintext of a call that matches, or a failure outside zlib. -/
theorem gives_decrypt {kdf : ScryptArgs → ByteVec kKeySize} (hc : ∀ c ∈ calls, c.world = w ∧ ∃ f, c.Makes f)
    (hi : Ideal w calls) (hw : w.Zlib) (hd : Distinct calls) (hkdf : w.Derives kdf) (key : Span) (f : Bytes) :
    Gives (Ref.decrypt w key (.bytes f)) (fun out => ∃ c ∈ calls, Matches kdf key f c ∧
      out = c.input.toBytes) Failed := by
  refine Gives.throwIf (fun _ => ⟨by decide, by decide⟩) fun hnull => ?_
  refine Gives.throwIf (fun _ => ⟨by decide, by decide⟩) fun hsize => ?_
  have hkey : key.isNull = false ∧ mcMinKeySize ≤ key.size :=
    ⟨Bool.eq_false_iff.mpr (not_or.mp hnull).1, Nat.not_lt.mp hsize⟩
  refine Gives.bind (Gives.ofExcept (fun h hp => hp) fun e he => parseFileHeader_failed he) fun h hp => ?_
  replace hp : parseFileHeader (.bytes f) = .ok h := by rw [parseFileHeader_status, hp]; rfl
  refine Gives.bind gives_table fun rs hr => ?_
  obtain ⟨c0, rfl, rfl, rfl⟩ := Container.of_table hp hr
  rw [Ref.deriveKey_eq hkey.1 hkey.2 c0.header.salt.2, Span.toBytes_bytes, c0.slice_header]
  refine Gives.bind (Gives.bind (gives_alloc ⟨by decide, by decide⟩) fun _ _ => gives_scrypt ⟨by decide, by decide⟩) ?_
  rintro k ⟨t, hk⟩
  obtain rfl := hkdf t _ _ hk
  refine (gives_openAll hc hi hw hd c0.valid c0.count).mono ?_
  rintro out ⟨c, hm, hout, rfl⟩
  exact ⟨c, hm, ⟨hkey, c0.header, c0.records, rfl, hout⟩, rfl⟩

end Hostile

/-- **Authenticity of whole files**: in a history of calls with different draws and with a cipher
that opens what was sealed in it and nothing else, decryption of any bytes under any key gives
the plaintext of a call whose file and derived key these are, or if there is none it fails, and
not in zlib. Memory and the key that is derived for the file are there. -/
theorem decryptBuffer_authentic (w : World) (calls : List Call) (kdf : ScryptArgs → ByteVec kKeySize) (s : St)
    (hc : ∀ c ∈ calls, c.world = w ∧ ∃ f, c.Makes f) (hd : Distinct calls) (hi : Ideal w calls) (hw : w.Zlib)
    (hr : w.Allocates s.trace.length) (hkdf : w.Derives kdf) (key : Span) (f : Bytes) (hf : f.length ≤ w.sizeT.max)
    (hk : ∀ t h, s.trace.length ≤ t → parseFileHeader (.bytes f) = .ok h →
      ∃ k, w.scrypt t (scryptArgs key.toBytes h.salt.1 h.kdfLogN h.kdfR h.kdfP) = some k) :
    (∃ c ∈ calls, Matches kdf key f c ∧ ∃ a s1, Decrypt.decryptBuffer w key (.bytes f) s = (.ok a, s1) ∧
      a.2 = c.input.size ∧ s1.At a.1.data c.input.toBytes) ∨
    (¬ ∃ c ∈ calls, Matches kdf key f c) ∧
      ∃ e, (Decrypt.decryptBuffer w key (.bytes f) s).1 = .error (.status e) ∧ e ≠ .ok ∧ e ≠ .errCompress := by
  have hgives := gives_decrypt hc hi hw hd hkdf key f s.trace
  rcases Decrypt.decryptBuffer_refines w key (.bytes f) s hf with ⟨a, b, s1, h1, h2, hm, hlen⟩ | ⟨e, s1, h1, h2, -⟩
  · rw [h2] at hgives
    obtain ⟨c, hcm, hmatch, rfl⟩ := hgives
    have hden : c.input.Denotes c.input.toBytes := by
      obtain ⟨-, h, rs, -, hout⟩ := hmatch
      exact hout.finished.denotes
    refine .inl ⟨c, hcm, hmatch, a, s1, h1, ?_, St.at_of_holds hm.holds List.prefix_rfl⟩
    rw [hlen, hden.size]
  · rw [h2] at hgives
    refine .inr ⟨?_, e, by rw [h1], hgives.1, hgives.2⟩
    rintro ⟨c, hcm, ⟨hnull, hks⟩, h, rs, rfl, hout⟩
    obtain ⟨rfl, -⟩ := hc c hcm
    -- the file of a call that matches does open, since the cipher opens all that was sealed
    have hopens : Opens c.world s.trace.length (sealings c.hist) := fun t' a ct tag _ ha =>
      (hi t' _ _).mpr ⟨c, hcm, mem_sealings.mp ha⟩
    have hparse : parseFileHeader (.bytes (serializeFileHeader h ++ recordBytes rs)) = .ok h := by
      obtain ⟨c0, rfl, -, hbytes⟩ := hout.finished.container hw
      rw [← hbytes]
      exact c0.parse
    have hderives (t : ℕ) (ht : s.trace.length ≤ t) :
        c.world.scrypt t (scryptArgs key.toBytes h.salt.1 h.kdfLogN h.kdfR h.kdfP) =
          some (kdf (scryptArgs key.toBytes h.salt.1 h.kdfLogN h.kdfR h.kdfP)) := by
      obtain ⟨k, hrun⟩ := hk t h ht hparse
      rw [hrun, hkdf t _ _ hrun]
    obtain ⟨pt, tr, -, hrun, -⟩ := yields_decrypt hout.finished hw hr hopens hnull hks hderives s.trace (le_refl _)
    rw [hrun] at h2
    cases h2

/-! ### A history and its cipher -/

theorem Call.makes {c : Call} {a : SecureBuffer × ℕ}
    (hrun : (encryptBuffer c.world c.key c.opts c.input c.start).1 = .ok a) : ∃ f, c.Makes f := by
  obtain ⟨k, h, rs, hist, -, -, hsize, hat⟩ := encryptBuffer_file (run_eq hrun)
  exact ⟨_, a, _, run_eq hrun, hsize, hat⟩

/-- What opens to what was sealed, in the sample cipher. -/
def sealedAs (e : SealArgs) : OpenArgs := ⟨e.key, e.nonce, e.aad, (sampleSeal e).1.1, (sampleSeal e).2⟩

/-- A cipher that opens this and nothing else. -/
def recallOpen (e : SealArgs) (a : OpenArgs) : ByteVec a.ct.length × Bool :=
  if h : a = sealedAs e then (⟨e.pt, by rw [h]; exact (sampleSeal e).1.2.symm⟩, true)
  else (⟨zeros _, zeros_length _⟩, false)

def sampleKdf (a : ScryptArgs) : ByteVec kKeySize := checksum kKeySize (a.pass ++ a.salt)

def recallWorld (e : SealArgs) : World :=
  { sampleWorld with gcmOpen := recallOpen e, scrypt := fun _ a => some (sampleKdf a) }

theorem recallWorld_derives {e : SealArgs} : (recallWorld e).Derives sampleKdf := fun _ _ _ h => (Option.some.inj h).symm

theorem recallWorld_open {e : SealArgs} {a : OpenArgs} {t : ℕ} {pt : Bytes} :
    openResult (recallWorld e) a t = .ok pt ↔ a = sealedAs e ∧ pt = e.pt := by
  have hopen : openResult (recallWorld e) a t = if (recallOpen e a).2 = false then
    .error .errAuth else .ok (recallOpen e a).1.1 :=
    openResult_eq fun _ => rfl
  rw [hopen, recallOpen]
  by_cases h : a = sealedAs e
  · simp [h, eq_comm]
  · simp [h]

/-- What the first chunk of a call is sealed from, and the call in the world that recalls it. -/
def Call.sealedFrom (c : Call) : SealArgs := ((sealings c.hist).map Prod.fst).headD ⟨[], [], [], []⟩

def Call.recalled (c : Call) : Call := { c with world := recallWorld c.sealedFrom }

def sampleSealed : SealArgs := (sampleCall ⟨[], []⟩).sealedFrom

def recallCall : Call := (sampleCall ⟨[], []⟩).recalled

theorem recallCall_sealings :
    sealings recallCall.hist = [(sampleSealed, .ok ((sealedAs sampleSealed).ct, (sealedAs sampleSealed).tag))] := by
  decide +kernel

/-- The cipher is ideal for a call of one chunk. -/
theorem recallWorld_ideal {c : Call} {e : SealArgs}
    (h : sealings c.hist = [(e, .ok ((sealedAs e).ct, (sealedAs e).tag))]) :
    Ideal (recallWorld e) [c] := by
  intro t a pt
  have hmem (x : SealArgs) (r : Except McStatus (Bytes × ByteVec kTagSize)) : .sealed x r ∈ c.hist ↔
      x = e ∧ r = .ok ((sealedAs e).ct, (sealedAs e).tag) := by
    rw [← mem_sealings, h, List.mem_singleton, Prod.mk.injEq]
  rw [recallWorld_open]
  simp only [List.mem_singleton, exists_eq_left, hmem]
  constructor
  · rintro ⟨rfl, rfl⟩
    exact ⟨rfl, rfl⟩
  · rintro ⟨rfl, hr⟩
    obtain ⟨hct, htag⟩ := Prod.mk.inj (Except.ok.inj hr)
    obtain ⟨key, nonce, aad, ct, tag⟩ := a
    dsimp only at hct htag
    subst hct htag
    exact ⟨rfl, rfl⟩

/-- A call matches its own file under its own key. -/
theorem Call.matches_own {c : Call} {f : Bytes} {kdf : ScryptArgs → ByteVec kKeySize}
    (hkdf : c.world.Derives kdf) (hm : c.Makes f) : Matches kdf c.key f c := by
  obtain ⟨k, h, rs, hout, rfl⟩ := Call.output hm
  obtain ⟨t, ht⟩ := hout.finished.derived
  refine ⟨hout.finished.accepted, h, rs, rfl, ?_⟩
  have hargs : scryptArgs c.key.toBytes h.salt.1 h.kdfLogN h.kdfR h.kdfP =
      scryptArgs c.key.toBytes h.salt.1 c.opts.kdfLogN c.opts.kdfR c.opts.kdfP := by
    rw [hout.finished.header]
    rfl
  rw [hargs, ← hkdf t _ _ ht]
  exact hout

/-- The file of the sample call decrypts, in a world that opens nothing else. -/
theorem recallCall_authentic : ∃ f, recallCall.Makes f ∧ ∃ a s1,
    Decrypt.decryptBuffer (recallWorld sampleSealed) sampleKey (.bytes f) ⟨[], []⟩ = (.ok a, s1) ∧
      s1.At a.1.data [1, 2, 3] := by
  have hrun : (encryptBuffer (recallWorld sampleSealed) sampleKey sampleOptions (.bytes [1, 2, 3]) ⟨[], []⟩).1 =
      .ok (⟨some 1, 91⟩, 91) := by decide +kernel
  obtain ⟨f, hf⟩ := Call.makes (c := recallCall) hrun
  have hsize : f.length ≤ (recallWorld sampleSealed).sizeT.max := by
    obtain ⟨a, s1, ha, hlen, -⟩ := hf
    cases (run_eq hrun).symm.trans ha
    rw [hlen]
    decide
  rcases decryptBuffer_authentic (recallWorld sampleSealed) [recallCall] sampleKdf ⟨[], []⟩
      (fun c hc => ⟨by rw [List.mem_singleton.mp hc]; rfl, f, by rw [List.mem_singleton.mp hc]; exact hf⟩)
      (List.pairwise_singleton ..) (recallWorld_ideal recallCall_sealings)
      ⟨sampleWorld_lawful.stream_ne, sampleWorld_lawful.inflate_deflate⟩ ⟨fun _ _ _ => rfl, fun _ _ => rfl⟩
      recallWorld_derives sampleKey f hsize (fun _ _ _ _ => ⟨_, rfl⟩) with ⟨c, hc, -, a, s1, h1, -, h2⟩ | ⟨hno, -⟩
  · rw [List.mem_singleton.mp hc] at h2
    exact ⟨f, hf, a, s1, h1, h2⟩
  · exact absurd ⟨recallCall, List.mem_singleton_self _, Call.matches_own recallWorld_derives hf⟩ hno

end Encrypt
end ModelCrypt
