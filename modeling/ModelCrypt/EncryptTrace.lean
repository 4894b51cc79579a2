/-
# What encryption seals, and what a finished file is made of

`sealings hist` are the calls of `Seal` in a history. However a run ends, it
has sealed under one derived key and one drawn prefix, with the positions from
0 on for counters (`Counted`). If it ends well, the records are what these
calls answered (`Sealed`): the pieces of the plaintext in order, each stored
as it is or as a finished stream that is shorter (`Packed`). `encrypt_logs`
says both of every run of the writer, for any outcome of the primitives.

Key definitions: `sealings`, `Packed`, `Sealed`, `Counted`, `Finished`.
Key theorems: `logs_sealRecord`, `logs_sealRecords`, `encrypt_logs`.
-/
import ModelCrypt.EncryptRefines

namespace ModelCrypt
namespace Encrypt

open Lib Prog

/-! ### The calls of Seal -/

/-- The calls of `Seal` in a history, and what they answered. -/
def sealings (hist : List Event) : List (SealArgs × Except McStatus (Bytes × ByteVec kTagSize)) :=
  hist.filterMap fun
    | .sealed a r => some (a, r)
    | _ => none

/-- The key and the nonce of each call of `Seal`. -/
def nonces (hist : List Event) : List (Bytes × Bytes) := (sealings hist).map fun x => (x.1.key, x.1.nonce)

/-- A key with the first `n` nonces of a prefix. -/
def counted (k : ByteVec kKeySize) (np : ByteVec kNoncePrefixSize) (n : ℕ) : List (Bytes × Bytes) :=
  (List.range n).map fun i => (k.1, buildNonce np (UInt32.ofNat i))

/-- The key was derived and the prefix drawn. -/
def Uses (hist : List Event) (k : ByteVec kKeySize) (np : ByteVec kNoncePrefixSize) : Prop :=
  (∃ a, .derived a (some k) ∈ hist) ∧ .drawn kNoncePrefixSize (some np.1) ∈ hist

/-- What was sealed, was sealed under one key and one prefix, with the positions from 0 on. -/
def Counted (hist : List Event) : Prop :=
  nonces hist = [] ∨ ∃ k np n, Uses hist k np ∧ n ≤ 2 ^ 24 ∧ nonces hist = counted k np n

theorem sealings_append (hist more : List Event) : sealings (hist ++ more) = sealings hist ++ sealings more :=
  List.filterMap_append

/-- Events that are no call of `Seal` leave the calls as they are. -/
theorem sealings_snoc {hist : List Event} {e : Event} (he : sealings [e] = []) :
    sealings (hist ++ [e]) = sealings hist := by
  rw [sealings_append, he, List.append_nil]

/-! ### Records and the calls that made them -/

/-- How a piece is stored: as it is, or as a finished stream that is shorter. -/
inductive Packed (w : World) (compress : Bool) (room : ℕ) (p : Bytes) : ChunkHeader → Bytes → Prop
  | raw : Packed w compress room p ⟨p.length.toUInt32, 0⟩ p
  | deflated (t : ℕ) : compress = true → (w.deflate t p room).rc = .streamEnd →
      (w.deflate t p room).out.length < p.length →
      Packed w compress room p ⟨(w.deflate t p room).out.length.toUInt32, kChunkFlagCompressed⟩ (w.deflate t p room).out

/-- The records of the first pieces, and the calls of `Seal` that made them. -/
structure Sealed (w : World) (k : ByteVec kKeySize) (h : FileHeader) (compress : Bool) (ps : List Bytes)
    (rs : List Record) (log : List (SealArgs × Except McStatus (Bytes × ByteVec kTagSize))) : Prop where
  length : log.length = rs.length
  made : ∀ (i : ℕ) (r : Record), rs[i]? = some r → ∃ p payload, ps[i]? = some p ∧
    Packed w compress (maxStoredSizeFor h.chunkSize).toNat p r.chunk payload ∧
    log[i]? = some (sealArgs k (serializeFileHeader h) h i r.chunk payload, .ok (r.ct, r.tag)) ∧
    (w.gcmSeal (sealArgs k (serializeFileHeader h) h i r.chunk payload)).1.1 = r.ct ∧
    (w.gcmSeal (sealArgs k (serializeFileHeader h) h i r.chunk payload)).2 = r.tag

section Sealed

variable {w : World} {k : ByteVec kKeySize} {h : FileHeader} {compress : Bool} {ps : List Bytes} {rs : List Record}
  {log : List (SealArgs × Except McStatus (Bytes × ByteVec kTagSize))}

theorem Sealed.nil : Sealed w k h compress ps [] [] := ⟨rfl, fun _ _ hr => by simp at hr⟩

/-- What was sealed for the records so far has the positions so far for counters. -/
theorem Sealed.counters (hs : Sealed w k h compress ps rs log) :
    (log.map fun x => (x.1.key, x.1.nonce)) = counted k h.noncePrefix rs.length := by
  refine List.ext_getElem? fun i => ?_
  rw [counted, List.getElem?_map, List.getElem?_map]
  rcases hr : rs[i]? with _ | r
  · have hle := List.getElem?_eq_none_iff.mp hr
    rw [List.getElem?_eq_none (by rwa [hs.length]), List.getElem?_eq_none (by rwa [List.length_range])]
    rfl
  · obtain ⟨p, payload, -, -, hlog, -⟩ := hs.made i r hr
    have hlt := (List.getElem?_eq_some_iff.mp hr).1
    rw [hlog, List.getElem?_range hlt]
    rfl

/-- One more record. -/
theorem Sealed.snoc {r : Record} {p payload : Bytes} (hs : Sealed w k h compress ps rs log)
    (hp : ps[rs.length]? = some p)
    (hpack : Packed w compress (maxStoredSizeFor h.chunkSize).toNat p r.chunk payload)
    (hct : (w.gcmSeal (sealArgs k (serializeFileHeader h) h rs.length r.chunk payload)).1.1 = r.ct)
    (htag : (w.gcmSeal (sealArgs k (serializeFileHeader h) h rs.length r.chunk payload)).2 = r.tag) :
    Sealed w k h compress ps (rs ++ [r])
      (log ++ [(sealArgs k (serializeFileHeader h) h rs.length r.chunk payload, .ok (r.ct, r.tag))]) where
  length := by rw [List.length_append, List.length_append, hs.length]; rfl
  made i q hq := by
    rcases Nat.lt_or_ge i rs.length with hlt | hge
    · rw [List.getElem?_append_left hlt] at hq
      obtain ⟨p', payload', h1, h2, h3, h4⟩ := hs.made i q hq
      exact ⟨p', payload', h1, h2, by rw [List.getElem?_append_left (by rwa [hs.length])]; exact h3, h4⟩
    · have hi : i = rs.length := by
        have := (List.getElem?_eq_some_iff.mp hq).1
        rw [List.length_append, List.length_singleton] at this
        omega
      subst hi
      rw [List.getElem?_append_right (le_refl _), Nat.sub_self] at hq
      cases hq
      refine ⟨p, payload, hp, hpack, ?_, hct, htag⟩
      rw [List.getElem?_append_right (le_of_eq hs.length), hs.length, Nat.sub_self]
      rfl

end Sealed

/-! ### The writer's runs -/

section Writer

variable {w : World} {k : ByteVec kKeySize} {h : FileHeader} {compress : Bool} {ps : List Bytes} {rs : List Record}
  {tr0 hist : List Event}

theorem deflateResult_smaller {d z : Bytes} {room t : ℕ} (hz : deflateResult w d room t = .ok (z, true)) :
    (w.deflate t d room).rc = .streamEnd ∧ (w.deflate t d room).out = z ∧ z.length < d.length := by
  unfold deflateResult at hz
  simp only [failIf_bind] at hz
  split at hz
  · cases hz
  split at hz
  · split at hz <;> cases hz
  · rename_i hrc
    obtain ⟨hout, hlt⟩ := Prod.mk.inj (Except.ok.inj hz)
    subst hout
    exact ⟨not_not.mp hrc, rfl, of_decide_eq_true hlt⟩

/-- **Packing** seals nothing. -/
theorem logs_pack {room : ℕ} {p : Bytes} :
    Logs (fun _ _ => True) tr0 (Ref.pack w compress room p) hist fun res hist' =>
      sealings hist' = sealings hist ∧ ∀ c payload, res = .ok (c, payload) → Packed w compress room p c payload := by
  unfold Ref.pack
  by_cases hc : compress = true ∧ p.length > 0
  · rw [if_pos hc]
    refine Logs.bind (logs_ask fun _ => trivial) ?_ ?_
    · rintro ⟨z, smaller⟩ _ ⟨rfl, t, hz⟩
      cases smaller with
      | false =>
        refine Logs.pure ⟨sealings_snoc rfl, fun c payload hx => ?_⟩
        cases hx
        exact .raw
      | true =>
        refine Logs.pure ⟨sealings_snoc rfl, fun c payload hx => ?_⟩
        cases hx
        obtain ⟨hrc, rfl, hlt⟩ := deflateResult_smaller hz.symm
        exact .deflated t hc.1 hrc hlt
    · rintro e _ ⟨rfl, -⟩
      exact ⟨sealings_snoc rfl, fun _ _ hx => by cases hx⟩
  · rw [if_neg hc]
    refine Logs.pure ⟨rfl, fun c payload hx => ?_⟩
    cases hx
    exact .raw

theorem sealResult_ok {a : SealArgs} {ct : Bytes} {tag : ByteVec kTagSize} {t : ℕ}
    (hr : sealResult w a t = .ok (ct, tag)) :
    (w.gcmSeal a).1.1 = ct ∧ (w.gcmSeal a).2 = tag := by
  unfold sealResult at hr
  simp only [failIf_bind] at hr
  split at hr
  · cases hr
  rcases hb : aeadBegin w t a.aad with e | u <;> rw [hb] at hr
  · cases hr
  change (if _ then _ else _) = _ at hr
  split_ifs at hr
  cases hr
  exact ⟨rfl, rfl⟩

/-- **One record**: however it ends, at most one more nonce was used, and if it ends well the record was sealed. -/
theorem logs_sealRecord {p : Bytes} (hp : ps[rs.length]? = some p) (hs : Sealed w k h compress ps rs (sealings hist)) :
    Logs (fun _ _ => True) tr0 (Ref.sealRecord w k (serializeFileHeader h) h compress rs.length p) hist fun res hist' =>
      (∃ n ≤ rs.length + 1, nonces hist' = counted k h.noncePrefix n) ∧
      ∀ r, res = .ok r → Sealed w k h compress ps (rs ++ [r]) (sealings hist') := by
  unfold Ref.sealRecord
  refine Logs.bind logs_pack ?_ ?_
  · rintro ⟨c, payload⟩ hist1 ⟨h1, hpack⟩
    rw [← h1] at hs
    have hnext (x : Except McStatus (Bytes × ByteVec kTagSize)) :
        nonces (hist1 ++ [.sealed (sealArgs k (serializeFileHeader h) h rs.length c payload) x]) =
          counted k h.noncePrefix (rs.length + 1) := by
      rw [nonces, sealings_append, List.map_append, hs.counters, counted, counted, List.range_succ, List.map_append]
      rfl
    refine Logs.bind (logs_ask fun _ => trivial) ?_ ?_
    · rintro ⟨ct, tag⟩ _ ⟨rfl, t, hr⟩
      obtain ⟨hct, htag⟩ := sealResult_ok hr.symm
      refine Logs.pure ⟨⟨_, le_refl _, hnext _⟩, fun r hx => ?_⟩
      cases hx
      rw [sealings_append]
      exact hs.snoc hp (hpack c payload rfl) hct htag
    · rintro e _ ⟨rfl, -⟩
      exact ⟨⟨_, le_refl _, hnext _⟩, fun r hx => by cases hx⟩
  · rintro e hist1 ⟨h1, -⟩
    refine ⟨⟨rs.length, Nat.le_succ _, ?_⟩, fun r hx => by cases hx⟩
    rw [nonces, h1, hs.counters]

/-- **The records from a position on**: by induction on the pieces left. -/
theorem logs_sealRecords : ∀ (rest : List Bytes) (rs : List Record) (hist : List Event),
    ps.drop rs.length = rest → Sealed w k h compress ps rs (sealings hist) →
    Logs (fun _ _ => True) tr0 (Ref.sealRecords w k (serializeFileHeader h) h compress rs.length rest) hist
      fun res hist' =>
      (∃ n ≤ rs.length + rest.length, nonces hist' = counted k h.noncePrefix n) ∧
      ∀ rs', res = .ok rs' → Sealed w k h compress ps (rs ++ rs') (sealings hist') ∧ rs'.length = rest.length
  | [], rs, hist, _, hs => by
    refine Logs.pure ⟨⟨rs.length, le_refl _, hs.counters⟩, fun rs' hx => ?_⟩
    cases hx
    exact ⟨by rwa [List.append_nil], rfl⟩
  | p :: rest, rs, hist, he, hs => by
    have hp : ps[rs.length]? = some p := by
      rw [← Nat.add_zero rs.length, ← List.getElem?_drop, he]
      rfl
    have hlen (r : Record) : (rs ++ [r]).length = rs.length + 1 := List.length_append
    rw [Ref.sealRecords]
    refine Logs.bind (logs_sealRecord hp hs) ?_ ?_
    · rintro r hist1 ⟨-, hr⟩
      have ih := logs_sealRecords rest (rs ++ [r]) hist1 (by rw [hlen, ← List.drop_drop, he]; rfl) (hr r rfl)
      rw [hlen] at ih
      refine Logs.bind ih ?_ ?_
      · rintro rs' hist2 ⟨⟨n, hn, h2⟩, hrs⟩
        refine Logs.pure ⟨⟨n, by rw [List.length_cons]; omega, h2⟩, fun rs'' hx => ?_⟩
        cases hx
        obtain ⟨h3, h4⟩ := hrs rs' rfl
        rw [List.append_assoc] at h3
        exact ⟨h3, by rw [List.length_cons, List.length_cons, h4]⟩
      · rintro e hist2 ⟨⟨n, hn, h2⟩, -⟩
        exact ⟨⟨n, by rw [List.length_cons]; omega, h2⟩, fun _ hx => by cases hx⟩
    · rintro e hist1 ⟨⟨n, hn, h1⟩, -⟩
      exact ⟨⟨n, by rw [List.length_cons]; omega, h1⟩, fun _ hx => by cases hx⟩

/-- An allocation seals nothing. -/
theorem sealings_alloc {hist' : List Event} {name : BufName} {size : ℕ}
    (h : hist' = hist ∨ ∃ ok, hist' = hist ++ [.alloc name size ok]) : sealings hist' = sealings hist := by
  rcases h with rfl | ⟨ok, rfl⟩
  · rfl
  · exact sealings_snoc rfl

theorem logs_newScratch {size : UInt32} :
    Logs (fun _ _ => True) tr0 (Ref.newScratch w compress size) hist fun _ hist' => sealings hist' = sealings hist := by
  cases compress with
  | false => exact Logs.pure rfl
  | true => exact (logs_alloc fun _ _ => trivial).mono fun _ _ h => sealings_alloc h

theorem logs_shrink {room size : ℕ} :
    Logs (fun _ _ => True) tr0 (Ref.shrink w room size) hist fun _ hist' => sealings hist' = sealings hist := by
  unfold Ref.shrink
  split
  · exact (logs_alloc fun _ _ => trivial).mono fun _ _ h => sealings_alloc h
  · exact Logs.pure rfl

/-- **Key derivation** seals nothing. -/
theorem logs_deriveKey {key : Span} {salt : Bytes} {logN : UInt8} {r p : UInt32} (hk : key.isNull = false)
    (hs : mcMinKeySize ≤ key.size) (hsalt : salt.length = kSaltSize) :
    Logs (fun _ _ => True) tr0 (Ref.deriveKey w key salt logN r p) hist fun res hist' =>
      sealings hist' = sealings hist ∧ ∀ k, res = .ok k →
        .derived (scryptArgs key.toBytes salt logN r p) (some k) ∈ hist' ∧
        ∃ t, w.scrypt t (scryptArgs key.toBytes salt logN r p) = some k := by
  rw [Ref.deriveKey_eq hk hs hsalt]
  refine Logs.bind (logs_alloc fun _ _ => trivial) ?_ fun e hist1 h1 => ⟨sealings_alloc h1, fun _ hx => by cases hx⟩
  intro _ hist1 h1
  refine (logs_scrypt fun _ => trivial).mono ?_
  rintro res _ ⟨t, rfl, hx⟩
  refine ⟨(sealings_snoc rfl).trans (sealings_alloc h1), fun k hk => ?_⟩
  rw [hx k hk]
  exact ⟨List.mem_append_right _ (List.mem_singleton_self _), t, hx k hk⟩

/-- **The file**, once the key is derived. -/
theorem logs_sealAll {pt : Bytes} (hv : h.Valid) (h0 : sealings hist = []) :
    Logs (fun _ _ => True) tr0 (Ref.sealAll w k h compress pt) hist fun res hist' =>
      (∃ n ≤ 2 ^ 24, nonces hist' = counted k h.noncePrefix n) ∧
      ∀ out, res = .ok out → h.worstCase ≤ w.sizeT.max ∧ ∃ rs, out = serializeFileHeader h ++ recordBytes rs ∧
        rs.length = h.chunkCount.toNat ∧ Sealed w k h compress (h.pieces pt) rs (sealings hist') := by
  have hnone {hist' : List Event} (h1 : sealings hist' = []) : ∃ n ≤ 2 ^ 24, nonces hist' = counted k h.noncePrefix n :=
    ⟨0, Nat.zero_le _, by rw [nonces, h1]; rfl⟩
  unfold Ref.sealAll
  refine Logs.throwIf (fun _ => ⟨hnone h0, fun _ hx => by cases hx⟩) fun hw => ?_
  refine Logs.bind (logs_alloc fun _ _ => trivial) ?_ fun e hist1 h1 =>
    ⟨hnone ((sealings_alloc h1).trans h0), fun _ hx => by cases hx⟩
  intro _ hist1 h1
  replace h1 := (sealings_alloc h1).trans h0
  refine Logs.bind logs_newScratch ?_ fun e hist2 h2 => ⟨hnone (h2.trans h1), fun _ hx => by cases hx⟩
  intro _ hist2 h2
  have hcount : (h.pieces pt).length ≤ 2 ^ 24 := by rw [pieces_length]; exact hv.count_le
  refine Logs.bind (logs_sealRecords (h.pieces pt) [] hist2 rfl (by rw [h2, h1]; exact Sealed.nil)) ?_ ?_
  · rintro rs hist3 ⟨⟨n, hn, h3⟩, hrs⟩
    obtain ⟨hmade, hlen⟩ := hrs rs rfl
    rw [List.length_nil, Nat.zero_add] at hn
    refine Logs.bind logs_shrink ?_ ?_
    · intro _ hist4 h4
      refine Logs.pure ⟨⟨n, hn.trans hcount, by rw [nonces, h4]; exact h3⟩, fun out hx => ?_⟩
      cases hx
      exact ⟨Nat.not_lt.mp hw, rs, rfl, by rw [hlen, pieces_length], by rw [h4]; exact hmade⟩
    · intro e hist4 h4
      exact ⟨⟨n, hn.trans hcount, by rw [nonces, h4]; exact h3⟩, fun _ hx => by cases hx⟩
  · rintro e hist3 ⟨⟨n, hn, h3⟩, -⟩
    rw [List.length_nil, Nat.zero_add] at hn
    exact ⟨⟨n, hn.trans hcount, h3⟩, fun _ hx => by cases hx⟩

/-- What a call that ended well drew, derived and sealed for its header and records. -/
structure Finished (w : World) (key : Span) (opts : EncryptOptions) (input : Span) (k : ByteVec kKeySize)
    (h : FileHeader) (rs : List Record) (hist : List Event) : Prop where
  accepted : key.isNull = false ∧ mcMinKeySize ≤ key.size
  denotes : input.Denotes input.toBytes
  bound : input.size ≤ 2 ^ 36
  options : Options opts
  header : h = headerFor opts input.size h.salt h.noncePrefix
  salt : .drawn kSaltSize (some h.salt.1) ∈ hist
  noncePrefix : .drawn kNoncePrefixSize (some h.noncePrefix.1) ∈ hist
  derived : ∃ t, w.scrypt t (scryptArgs key.toBytes h.salt.1 opts.kdfLogN opts.kdfR opts.kdfP) = some k
  logged : .derived (scryptArgs key.toBytes h.salt.1 opts.kdfLogN opts.kdfR opts.kdfP) (some k) ∈ hist
  room : h.worstCase ≤ w.sizeT.max
  count : rs.length = h.chunkCount.toNat
  made : Sealed w k h (decide (opts.compression = mcCompressZlibOption)) (h.pieces input.toBytes) rs (sealings hist)

/-- **Every run of the writer** seals under one key and one prefix, counting from 0, and what it returns is finished. -/
theorem encrypt_logs (w : World) (key : Span) (opts : EncryptOptions) (input : Span) (tr0 : List Event) :
    Logs (fun _ _ => True) tr0 (Ref.encrypt w key opts input) [] fun res hist => Counted hist ∧
      ∀ out, res = .ok out → ∃ k h rs, Finished w key opts input k h rs hist ∧
        out = serializeFileHeader h ++ recordBytes rs := by
  have hstop {e : McStatus} {hist : List Event} (h0 : sealings hist = []) : Counted hist ∧
      ∀ out, (Except.error e : Except McStatus Bytes) = .ok out → ∃ k h rs,
        Finished w key opts input k h rs hist ∧ out = serializeFileHeader h ++ recordBytes rs :=
    ⟨.inl (by rw [nonces, h0]; rfl), fun _ hx => by cases hx⟩
  unfold Ref.encrypt
  refine Logs.throwIf (fun _ => hstop rfl) fun hnull => Logs.throwIf (fun _ => hstop rfl) fun hsize => ?_
  refine Logs.throwIf (fun _ => hstop rfl) fun hin => Logs.throwIf (fun _ => hstop rfl) fun hbound => ?_
  refine Logs.ofExcept (fun _ hopts => ?_) fun _ _ => hstop rfl
  replace hopts := validateOptions_ok_iff.mp hopts
  rw [mcMaxPlaintextSize_toNat] at hbound
  have hkey : key.isNull = false ∧ mcMinKeySize ≤ key.size := ⟨by simpa using hnull, Nat.not_lt.mp hsize⟩
  refine Logs.bind (logs_fill (by decide) (by decide) fun _ => trivial) ?_ ?_
  rotate_left
  · rintro e _ ⟨b, rfl, -⟩
    exact hstop rfl
  rintro salt _ ⟨b, rfl, hb⟩
  cases hb salt rfl
  refine Logs.bind (logs_fill (by decide) (by decide) fun _ => trivial) ?_ ?_
  rotate_left
  · rintro e _ ⟨b, rfl, -⟩
    exact hstop rfl
  rintro np _ ⟨b, rfl, hb⟩
  cases hb np rfl
  have hv := headerFor_valid salt np hopts (Nat.not_lt.mp hbound)
  refine Logs.bind (logs_deriveKey hkey.1 hkey.2 salt.2).grows ?_ fun e hist1 h1 => hstop h1.2.1
  rintro k hist1 ⟨hp1, h1, hk⟩
  obtain ⟨hlog, ht⟩ := hk k rfl
  refine (logs_sealAll hv h1).grows.mono ?_
  rintro res hist2 ⟨hp2, ⟨n, hn, h2⟩, hout⟩
  have hdrawn : .drawn kNoncePrefixSize (some np.1) ∈ hist2 := hp2.subset (hp1.subset (by simp))
  refine ⟨.inr ⟨k, np, n, ⟨⟨_, hp2.subset hlog⟩, hdrawn⟩, hn, h2⟩, fun out hx => ?_⟩
  obtain ⟨hw, rs, rfl, hlen, hmade⟩ := hout out hx
  exact ⟨k, _, rs, ⟨hkey, .of_input hin, Nat.not_lt.mp hbound, hopts, rfl,
    hp2.subset (hp1.subset (by simp [headerFor])),
    hdrawn, ht, hp2.subset hlog, hw, hlen, hmade⟩, rfl⟩

end Writer

end Encrypt
end ModelCrypt
