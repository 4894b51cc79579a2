/-
# The reader conforms to a plain one

`Plain.read` is decryption as a reader of the format document would write it:
parse, derive the key, open every chunk on its own, and return the status of
the first that failed or all of them put together. It knows nothing of a
chunk 0 that goes first, of buffers or of the order in which things are made.
With memory to be had, `DecryptBuffer` returns what it returns
(`decryptBuffer_reads`), when a question to the AEAD or to zlib is answered as
it was at the time the run asked it. So it reads what any other writer of the
format wrote (`Plain.read_file`).

Key definitions: `Plain.together`, `Plain.openChunk`, `Plain.read`.
Key theorems: `Plain.openRecords_run`, `Plain.decrypt_run`, `Plain.decrypt_ok`, `Plain.read_file`,
`decryptBuffer_reads`.
-/
import ModelCrypt.FormatSpec
import ModelCrypt.RoundTrip

namespace ModelCrypt

open Lib Prog
open Encrypt (openResult_eq inflateResult_ok)

namespace Plain

/-! ### The plain reader -/

def failure : Except McStatus Bytes → Option McStatus
  | .error e => some e
  | .ok _ => none

def value : Except McStatus Bytes → Bytes
  | .error _ => []
  | .ok b => b

/-- The status of the first that failed, or all of them put together. -/
def together (results : List (Except McStatus Bytes)) : Except McStatus Bytes :=
  match results.findSome? failure with
  | some e => .error e
  | none => .ok (results.flatMap value)

/-- The chunk at position `i` on its own, opened at time `t` and inflated at the next. -/
def openChunk (w : World) (k : ByteVec kKeySize) (sh : Bytes) (h : FileHeader) (t i : ℕ) (r : Record) :
    Except McStatus Bytes := do
  let pt ← openResult w (openArgs k sh h i r) t
  if r.chunk.compressed then inflateResult w pt (h.sliceSize i) (t + 1) else return pt

/-- "Reading a file", when scrypt is asked at `kdfTime` and the chunk at position `i` is opened at `openTimes i`. -/
def read (w : World) (kdfTime : ℕ) (openTimes : ℕ → ℕ) (key f : Bytes) : Except McStatus Bytes := do
  let h ← toStatus (parseFileHeader (.bytes f))
  let rs ← tableOf h f
  let k ← (w.scrypt kdfTime (scryptArgs key h.salt.1 h.kdfLogN h.kdfR h.kdfP)).elim (.error .errCrypto) .ok
  together (rs.mapIdx fun i r => openChunk w k (slice f 0 kHeaderSize) h (openTimes i) i r)

/-- No allocation of a call on `f` fails: there is memory, and the plaintext is an object that fits into it. -/
structure Memory (w : World) (f : Bytes) : Prop where
  alloc : ∀ t n, w.alloc t n = true
  plaintext : ∀ h, parseFileHeader (.bytes f) = .ok h → h.plaintextSize.toNat ≤ w.sizeT.max

@[simp] theorem together_nil : together [] = .ok [] := rfl

@[simp] theorem together_error (e : McStatus) (l : List (Except McStatus Bytes)) : together (.error e :: l) =
  .error e := rfl

@[simp] theorem together_ok (b : Bytes) (l : List (Except McStatus Bytes)) :
    together (.ok b :: l) = (together l).map (b ++ ·) := by
  unfold together
  rw [List.findSome?_cons]
  simp only [failure]
  cases l.findSome? failure with
  | some e => rfl
  | none => rfl

/-! ### The reader's run, chunk by chunk -/

def isOpened : Event → Bool
  | .opened .. => true
  | _ => false

section Run

variable (w : World) (k : ByteVec kKeySize) (sh : Bytes) (h : FileHeader) (scratch : Option ℕ)

/-- **A record** is opened as the plain reader opens it, one event after the record is entered. -/
theorem openRecord_run (i room : ℕ) (r : Record) (tr : List Event) : ∃ tr',
    Ref.openRecord w k sh h scratch i room r tr = (openChunk w k sh h (tr.length + 1) i r, tr') ∧
    times isOpened tr' = times isOpened tr ++ [tr.length + 1] := by
  unfold Ref.openRecord openChunk
  have hemit (e : Event) : Ref.emit e tr = (.ok (), tr ++ [e]) := rfl
  have hentered (c : ChunkHeader) (n : ℕ) : times isOpened (tr ++ [.entered (UInt32.ofNat i) c n room scratch]) =
      times isOpened tr := times_snoc_of_not rfl
  have hlen (e : Event) : (tr ++ [e]).length = tr.length + 1 := by rw [List.length_append, List.length_singleton]
  rw [bind_ok (hemit _)]
  set tr1 := tr ++ [.entered (UInt32.ofNat i) r.chunk (h.sliceSize i) room scratch] with htr1
  have hask : Ref.ask (.opened (openArgs k sh h i r)) (openResult w (openArgs k sh h i r)) tr1 =
      (openResult w (openArgs k sh h i r) (tr.length + 1), tr1 ++ [.opened (openArgs k sh h i r)
        (openResult w (openArgs k sh h i r) (tr.length + 1))]) := by
    rw [Ref.ask, htr1, hlen]
  have htimes (x : Except McStatus Bytes) : times isOpened (tr1 ++ [.opened (openArgs k sh h i r) x]) =
      times isOpened tr ++ [tr.length + 1] := by
    rw [times_snoc_of rfl, htr1, hentered, hlen]
  rcases hopen : openResult w (openArgs k sh h i r) (tr.length + 1) with e | pt <;> rw [hopen] at hask
  · exact ⟨_, bind_error hask, htimes _⟩
  rw [bind_ok hask]
  by_cases hc : r.chunk.compressed = true
  · simp only [hc, if_true, ok_bind]
    refine ⟨tr1 ++ [.opened (openArgs k sh h i r) (.ok pt)] ++ [.inflated pt (h.sliceSize i)
      (inflateResult w pt (h.sliceSize i) (tr.length + 1 + 1))], ?_, ?_⟩
    · rw [Ref.ask, List.length_append, List.length_singleton, htr1, hlen]
    · rw [times_snoc_of_not rfl, htimes]
  · simp only [hc, ok_bind]
    exact ⟨_, rfl, htimes _⟩

/-- **The records from a position on**: the first failure of the plain reader's, or all its pieces; by
induction on the records. -/
theorem openRecords_run : ∀ (rs : List Record) (i : ℕ) (tr : List Event), ∃ r ts tr',
    Ref.openRecords w k sh h scratch i rs tr = (r, tr') ∧ times isOpened tr' = times isOpened tr ++ ts ∧
    r.map List.flatten = together (rs.mapIdx fun j r => openChunk w k sh h (ts.getD j 0) (i + j) r)
  | [], i, tr => ⟨.ok [], [], tr, rfl, by rw [List.append_nil], rfl⟩
  | r :: rs, i, tr => by
    obtain ⟨tr1, h1, ht1⟩ := openRecord_run w k sh h scratch i (h.plaintextSize.toNat - i * h.chunkSize.toNat) r tr
    rw [Ref.openRecords]
    rcases hopen : openChunk w k sh h (tr.length + 1) i r with e | p <;> rw [hopen] at h1
    · refine ⟨.error e, [tr.length + 1], tr1, bind_error h1, ht1, ?_⟩
      have hfirst : openChunk w k sh h ([tr.length + 1].getD 0 0) (i + 0) r = .error e := hopen
      rw [List.mapIdx_cons, hfirst, together_error]
      rfl
    · obtain ⟨res, ts, tr2, h2, ht2, hres⟩ := openRecords_run rs (i + 1) tr1
      have hfirst : openChunk w k sh h (((tr.length + 1) :: ts).getD 0 0) (i + 0) r = .ok p := hopen
      have hstep :
          together ((r :: rs).mapIdx fun j r => openChunk w k sh h (((tr.length + 1) :: ts).getD j 0) (i + j) r) =
          (res.map List.flatten).map (p ++ ·) := by
        rw [List.mapIdx_cons, hfirst, together_ok, hres]
        simp only [List.getD_cons_succ, Nat.add_assoc, Nat.add_comm 1]
      rw [bind_ok h1]
      have ht : times isOpened tr2 = times isOpened tr ++ ((tr.length + 1) :: ts) := by
        rw [ht2, ht1, List.append_assoc]
        rfl
      cases res with
      | error e => exact ⟨.error e, _, tr2, bind_error h2, ht, hstep.symm⟩
      | ok ps => exact ⟨.ok (p :: ps), _, tr2, bind_ok h2, ht, hstep.symm⟩

variable {w h}

theorem alloc_run {f : Bytes} (hm : Memory w f) (name : BufName) (n : ℕ) (tr : List Event) :
    ∃ tr', Ref.alloc w name n tr = (.ok (), tr') ∧ times isOpened tr' = times isOpened tr := by
  have hyields : Yields tr.length (Ref.alloc w name n) fun _ => True := yields_alloc fun t _ => hm.alloc t n
  obtain ⟨⟨⟩, tr', -, h, -⟩ := hyields tr (le_refl _)
  exact ⟨tr', h, (Ref.keeps_alloc (p := isOpened) (fun _ _ _ => rfl) name n).of_run h⟩

/-- **All of the chunks**: that chunk 0 goes first, into a buffer of its own, makes no difference. -/
theorem openAll_run {f : Bytes} (hm : Memory w f) (hroom : h.plaintextSize.toNat ≤ w.sizeT.max) (rs : List Record)
    (hne : rs ≠ []) (tr : List Event) : ∃ ts tr', times isOpened tr' = times isOpened tr ++ ts ∧
    Ref.openAll w k sh h rs tr = (together (rs.mapIdx fun i r => openChunk w k sh h (ts.getD i 0) i r), tr') := by
  rcases rs with _ | ⟨r, rs⟩
  · exact absurd rfl hne
  obtain ⟨tr1, e1, t1⟩ := alloc_run hm .scratch (maxCompressed (r :: rs)).toNat tr
  obtain ⟨tr2, e2, t2⟩ := alloc_run hm .firstChunk (h.sliceSize 0) tr1
  obtain ⟨tr3, e3, t3⟩ := openRecord_run w k sh h
    (if (maxCompressed (r :: rs)).toNat = 0 then none else some (maxCompressed (r :: rs)).toNat) 0 (h.sliceSize 0) r tr2
  rw [Ref.openAll, bind_ok e1, bind_ok e2]
  rw [t2, t1] at t3
  rcases hopen : openChunk w k sh h (tr2.length + 1) 0 r with e | p <;> rw [hopen] at e3
  · refine ⟨[tr2.length + 1], tr3, t3, ?_⟩
    have hfirst : openChunk w k sh h ([tr2.length + 1].getD 0 0) 0 r = .error e := hopen
    rw [bind_error e3, List.mapIdx_cons, hfirst, together_error]
  · obtain ⟨tr4, e4, t4⟩ := alloc_run hm .plaintext h.plaintextSize.toNat tr3
    obtain ⟨res, ts, tr5, e5, t5, hres⟩ := openRecords_run w k sh h
      (if (maxCompressed (r :: rs)).toNat = 0 then none else some (maxCompressed (r :: rs)).toNat) rs 1 tr4
    have hfirst : openChunk w k sh h (((tr2.length + 1) :: ts).getD 0 0) 0 r = .ok p := hopen
    have hall : together ((r :: rs).mapIdx fun i r => openChunk w k sh h (((tr2.length + 1) :: ts).getD i 0) i r) =
        (res.map List.flatten).map (p ++ ·) := by
      rw [List.mapIdx_cons, hfirst, together_ok, hres]
      simp only [List.getD_cons_succ, Nat.add_comm 1]
    have ht : times isOpened tr5 = times isOpened tr ++ ((tr2.length + 1) :: ts) := by
      rw [t5, t4, t3, List.append_assoc]
      rfl
    rw [bind_ok e3, Ref.finish, Ref.returnIf, throwIf_neg (Nat.not_lt.mpr hroom), bind_ok e4]
    cases res with
    | error e => exact ⟨_, tr5, ht, by rw [bind_error e5, hall]; rfl⟩
    | ok ps =>
      refine ⟨_, tr5 ++ [.delivered h.plaintextSize.toNat], (times_snoc_of_not rfl).trans ht, ?_⟩
      rw [bind_ok e5, hall]
      rfl

/-- **The table** is the plain reader's; when it is accepted, two events happened. -/
theorem table_run {f : Bytes} (hm : Memory w f) (hp : parseFileHeader (.bytes f) = .ok h) (tr : List Event) : ∃ tr',
    Ref.table w h f tr = (tableOf h f, tr') ∧ times isOpened tr' = times isOpened tr ∧
    ∀ rs, tableOf h f = .ok rs → tr'.length = tr.length + 2 := by
  rcases ht : tableOf h f with e | rs
  · obtain rfl := tableOf_error ht
    have hv := (parseFileHeader_ok_iff.mp hp).2.1
    have hcount := hv.count_le
    have hmax := w.sizeT.max_ge
    have hsz : h.chunkCount.toNat * w.sizeT.sizeofChunkEntry ≤ 2 ^ 24 * 32 :=
      Nat.mul_le_mul hcount (sizeofChunkEntry_le _)
    rw [Ref.table, Ref.returnIf]
    by_cases hshort : f.length < kHeaderSize + h.chunkCount.toNat * kChunkHeaderSize
    · exact ⟨tr, by rw [throwIf_pos hshort]; rfl, rfl, fun rs hrs => by cases hrs⟩
    · obtain ⟨tr1, e1, t1⟩ := alloc_run hm .entryStorage (h.chunkCount.toNat * w.sizeT.sizeofChunkEntry) tr
      refine ⟨tr1, ?_, t1, fun rs hrs => by cases hrs⟩
      rw [throwIf_neg hshort, Ref.returnIf, throwIf_neg (by omega), bind_ok e1, ht]
      rfl
  · obtain ⟨c, rfl, rfl, rfl⟩ := Container.of_table hp ht
    refine ⟨_, Decrypt.table_ok c (hm.alloc _ _), ?_, fun _ _ => ?_⟩
    · rw [times_snoc_of_not rfl, times_snoc_of_not rfl]
    · rw [List.length_append, List.length_append, List.length_singleton, List.length_singleton]

end Run

theorem read_parsed {w : World} {t : ℕ} {times : ℕ → ℕ} {key f : Bytes} {h : FileHeader} {rs : List Record}
    (hp : parseFileHeader (.bytes f) = .ok h) (ht : tableOf h f = .ok rs) : read w t times key f =
      (w.scrypt t (scryptArgs key h.salt.1 h.kdfLogN h.kdfR h.kdfP)).elim (.error .errCrypto) fun k =>
        together (rs.mapIdx fun i r => openChunk w k (slice f 0 kHeaderSize) h (times i) i r) := by
  rw [read, hp]
  show (tableOf h f >>= _) = _
  rw [ht, ok_bind]
  cases w.scrypt t (scryptArgs key h.salt.1 h.kdfLogN h.kdfR h.kdfP) <;> rfl

/-- **The reader ends as the plain one**, when the key is long enough and there is memory. -/
theorem decrypt_run {w : World} {key f : Bytes} (hm : Memory w f) (hk : mcMinKeySize ≤ key.length) (tr : List Event) :
    ∃ tr', Ref.decrypt w (.bytes key) (.bytes f) tr =
      (read w (tr.length + 3) (timeSince isOpened tr tr') key f, tr') := by
  have hks : mcMinKeySize ≤ (Span.bytes key).size := hk
  rcases hp : parseFileHeader (.bytes f) with e | h
  · obtain ⟨st, -, rfl⟩ := parseFileHeader_error hp
    refine ⟨tr, ?_⟩
    rw [Ref.decrypt, Ref.returnIf, throwIf_neg (by simp), Ref.returnIf, throwIf_neg (Nat.not_lt.mpr hks), read, hp]
    rfl
  have hv := (parseFileHeader_ok_iff.mp hp).2.1
  obtain ⟨tr1, e1, t1, hlen⟩ := table_run hm hp tr
  rw [Ref.decrypt_parsed rfl hks hp]
  rcases ht : tableOf h f with e | rs <;> rw [ht] at e1
  · refine ⟨tr1, ?_⟩
    rw [bind_error e1, read, hp]
    show _ = (tableOf h f >>= _, _)
    rw [ht]
    rfl
  have hne : rs ≠ [] := by
    rintro rfl
    have hpos := hv.count_pos
    have hcount := (tableOf_ok_iff.mp ht).1
    rw [List.length_nil] at hcount
    omega
  have e2 : Ref.alloc w .derived kKeySize tr1 = (.ok (), tr1 ++ [.alloc .derived kKeySize true]) := by
    rw [Ref.alloc_eq (by decide), if_pos (hm.alloc ..)]
  have hlen2 : (tr1 ++ [Event.alloc .derived kKeySize true]).length = tr.length + 3 := by
    rw [List.length_append, hlen rs ht, List.length_singleton]
  rw [bind_ok e1, Ref.deriveKey_eq rfl hks h.salt.2, bind_assoc, bind_ok e2]
  have e3 : Ref.scrypt w (scryptArgs key h.salt.1 h.kdfLogN h.kdfR h.kdfP)
      (tr1 ++ [.alloc .derived kKeySize true]) = _ :=
    Ref.scrypt_eq
  rw [hlen2] at e3
  generalize htr2 : tr1 ++ [Event.alloc .derived kKeySize true] = tr2 at *
  have t2 : times isOpened tr2 = times isOpened tr := by rw [← htr2, times_snoc_of_not rfl, t1]
  rcases hkdf : w.scrypt (tr.length + 3) (scryptArgs key h.salt.1 h.kdfLogN h.kdfR h.kdfP) with
    _ | k <;> rw [hkdf] at e3
  · refine ⟨tr2 ++ [.derived (scryptArgs key h.salt.1 h.kdfLogN h.kdfR h.kdfP) none], ?_⟩
    rw [read_parsed hp ht, hkdf]
    exact bind_error e3
  · obtain ⟨ts, tr4, t4, e4⟩ := openAll_run k (slice f 0 kHeaderSize) hm (hm.plaintext h hp) rs hne
      (tr2 ++ [.derived (scryptArgs key h.salt.1 h.kdfLogN h.kdfR h.kdfP) (some k)])
    rw [times_snoc_of_not rfl, t2] at t4
    refine ⟨tr4, ?_⟩
    rw [read_parsed hp ht, hkdf, timeSince_eq t4]
    exact (bind_ok e3).trans e4

/-! ### What was decrypted -/

section Decrypted

variable {w : World} {k : ByteVec kKeySize} {sh : Bytes} {h : FileHeader} {rs : List Record} {f x : Bytes}
  {tr tr' : List Event}

theorem alloc_ok {name : BufName} {n : ℕ} (hr : Ref.alloc w name n tr = (.ok (), tr')) :
    times isOpened tr' = times isOpened tr :=
  (Ref.keeps_alloc (p := isOpened) (fun _ _ _ => rfl) name n).of_run hr

/-- **All of the chunks**, when they could all be opened. -/
theorem openAll_ok (hr : Ref.openAll w k sh h rs tr = (.ok x, tr')) : ∃ ts, times isOpened tr' = times isOpened tr ++ ts ∧
    together (rs.mapIdx fun i r => openChunk w k sh h (ts.getD i 0) i r) = .ok x := by
  rcases rs with _ | ⟨r, rs⟩
  · cases hr
  simp only [Ref.openAll, Ref.finish, bind_eq_ok] at hr
  obtain ⟨_, tr1, e1, _, tr2, e2, p, tr3, e3, _, _, e4, _, tr4, e5, ps, tr5, e6, _, _, e7, e8⟩ := hr
  obtain ⟨-, rfl⟩ := throwIf_eq_ok.mp e4
  obtain ⟨tr3', h3, t3⟩ := openRecord_run w k sh h
    (if (maxCompressed (r :: rs)).toNat = 0 then none else some (maxCompressed (r :: rs)).toNat) 0 (h.sliceSize 0) r tr2
  obtain ⟨hfirst, rfl⟩ := Prod.mk.inj (h3.symm.trans e3)
  obtain ⟨res, ts, tr5', h5, t5, hres⟩ := openRecords_run w k sh h
    (if (maxCompressed (r :: rs)).toNat = 0 then none else some (maxCompressed (r :: rs)).toNat) rs 1 tr4
  obtain ⟨rfl, rfl⟩ := Prod.mk.inj (h5.symm.trans e6)
  cases e7
  cases e8
  refine ⟨(tr2.length + 1) :: ts, ?_, ?_⟩
  · rw [times_snoc_of_not rfl, t5, alloc_ok e5, t3, alloc_ok e2, alloc_ok e1, List.append_assoc]
    rfl
  · have hopen : openChunk w k sh h (((tr2.length + 1) :: ts).getD 0 0) 0 r = .ok p := hfirst
    simp only [Nat.add_comm 1] at hres
    simp only [List.mapIdx_cons, hopen, together_ok, List.getD_cons_succ]
    rw [← hres]
    rfl

/-- **The table**, when it was accepted. -/
theorem table_ok (hp : parseFileHeader (.bytes f) = .ok h) (hr : Ref.table w h f tr = (.ok rs, tr')) :
    tableOf h f = .ok rs ∧ times isOpened tr' = times isOpened tr ∧ tr'.length = tr.length + 2 := by
  have hne : h.chunkCount.toNat * w.sizeT.sizeofChunkEntry ≠ 0 :=
    Nat.mul_ne_zero (parseFileHeader_ok_iff.mp hp).2.1.count_pos.ne' (by cases w.sizeT <;> decide)
  simp only [Ref.table, bind_eq_ok] at hr
  obtain ⟨_, _, e1, _, _, e2, _, tr1, e3, _, _, e4, _, _, e5, e6⟩ := hr
  obtain ⟨-, rfl⟩ := throwIf_eq_ok.mp e1
  obtain ⟨-, rfl⟩ := throwIf_eq_ok.mp e2
  obtain ⟨ht, rfl⟩ := Prod.mk.inj e4
  cases e5
  cases e6
  refine ⟨ht, (times_snoc_of_not rfl).trans (alloc_ok e3), ?_⟩
  rw [Ref.alloc_eq hne] at e3
  split at e3 <;> cases e3
  simp

/-- **What was decrypted is what the plain reader reads**, whatever memory there is. -/
theorem decrypt_ok {key input : Span} (hr : Ref.decrypt w key input tr = (.ok x, tr')) :
    read w (tr.length + 3) (timeSince isOpened tr tr') key.toBytes input.toBytes = .ok x := by
  simp only [Ref.decrypt, bind_eq_ok] at hr
  obtain ⟨_, _, e1, _, tr0, e2, h, _, e3, rs, tr1, e4, k, tr2, e5, e6⟩ := hr
  obtain ⟨hnull, rfl⟩ := throwIf_eq_ok.mp e1
  obtain ⟨hsize, rfl⟩ := throwIf_eq_ok.mp e2
  obtain ⟨hparse, rfl⟩ := Prod.mk.inj e3
  obtain ⟨hkey, hinput⟩ := not_or.mp hnull
  rcases input with _ | f
  · exact absurd rfl hinput
  rw [Span.toBytes_bytes] at e4 e6 ⊢
  have hp : parseFileHeader (.bytes f) = .ok h := by
    rw [parseFileHeader_status, hparse]
    rfl
  obtain ⟨ht, t1, hlen⟩ := table_ok hp e4
  rw [Ref.deriveKey_eq (Bool.eq_false_iff.mpr hkey) (Nat.not_lt.mp hsize) h.salt.2, bind_eq_ok] at e5
  obtain ⟨_, tr3, e7, e8⟩ := e5
  have t3 := alloc_ok e7
  rw [Ref.alloc_eq (by decide)] at e7
  split at e7 <;> cases e7
  rw [Ref.scrypt_eq, List.length_append, List.length_singleton, hlen] at e8
  obtain ⟨ts, t6, hall⟩ := openAll_ok e6
  rw [read_parsed hp ht]
  rcases hkdf : w.scrypt (tr0.length + 3) (scryptArgs key.toBytes h.salt.1 h.kdfLogN h.kdfR h.kdfP) with _ | k' <;>
    rw [hkdf] at e8 <;> cases e8
  rw [times_snoc_of_not rfl, t3, t1] at t6
  rw [timeSince_eq t6]
  exact hall

end Decrypted

/-! ### The size of what is read -/

theorem together_pieces {l : List (Except McStatus Bytes)} {b : Bytes} (h : together l = .ok b) :
    ∃ ps : List Bytes, l = ps.map .ok ∧ b = ps.flatten := by
  induction l generalizing b with
  | nil =>
    cases h
    exact ⟨[], rfl, rfl⟩
  | cons x l ih =>
    rcases x with e | p
    · cases h
    · rw [together_ok] at h
      rcases hl : together l with e | q <;> rw [hl] at h <;> cases h
      obtain ⟨ps, rfl, rfl⟩ := ih hl
      exact ⟨p :: ps, rfl, rfl⟩

theorem together_map (ps : List Bytes) : together (ps.map .ok) = .ok ps.flatten := by
  induction ps with
  | nil => rfl
  | cons p ps ih =>
    rw [List.map_cons, together_ok, ih]
    rfl

theorem openResult_length {w : World} {a : OpenArgs} {t : ℕ} {b : Bytes} (h : openResult w a t = .ok b) :
    b.length = a.ct.length := by
  simp only [openResult, failIf_bind] at h
  split at h
  · cases h
  rcases hb : aeadBegin w t a.aad with e | u <;> rw [hb] at h
  · cases h
  simp only [ok_bind] at h
  split at h
  · cases h
  split at h
  · cases h
  split at h
  · cases h
  cases h
  exact (w.gcmOpen a).1.2

theorem inflateResult_length {w : World} {x : Bytes} {room t : ℕ} {b : Bytes} (h : inflateResult w x room t = .ok b) :
    b.length = room := by
  simp only [inflateResult, failIf_bind] at h
  split at h
  · cases h
  split at h
  · cases h
  rename_i hz
  cases h
  exact not_not.mp fun hne => hz (.inr (.inl hne))

/-- A chunk that opens has the size of its slice. -/
theorem openChunk_length {w : World} {k : ByteVec kKeySize} {sh p : Bytes} {h : FileHeader} {t i : ℕ} {r : Record}
    (hr : r.Fits h i) (ho : openChunk w k sh h t i r = .ok p) : p.length = h.sliceSize i := by
  unfold openChunk at ho
  rcases hopen : openResult w (openArgs k sh h i r) t with e | d <;> rw [hopen] at ho
  · cases ho
  rw [ok_bind] at ho
  by_cases hc : r.chunk.compressed = true
  · rw [if_pos hc] at ho
    exact inflateResult_length ho
  · rw [if_neg hc] at ho
    cases ho
    rw [openResult_length hopen, openArgs, hr.size, hr.raw (Bool.eq_false_of_not_eq_true hc)]

/-- The slices have the size of the plaintext together. -/
theorem sliceSize_sum {h : FileHeader} (hv : h.Valid) :
    ((List.range h.chunkCount.toNat).map h.sliceSize).sum = h.plaintextSize.toNat := by
  have hz : (zeros h.plaintextSize.toNat).length = h.plaintextSize.toNat := zeros_length _
  have hall := congrArg List.length (pieces_flatten hv hz)
  rw [List.length_flatten, hz] at hall
  rw [← hall, FileHeader.pieces, List.range_eq_range', List.map_map]
  refine congrArg List.sum (List.map_congr_left fun i _ => ?_)
  rw [Function.comp_apply, slice_length, hz]
  rfl

/-- **What is read is as long as the header says.** -/
theorem read_length {w : World} {t : ℕ} {times : ℕ → ℕ} {key f pt : Bytes} {h : FileHeader}
    (hp : parseFileHeader (.bytes f) = .ok h) (hr : read w t times key f = .ok pt) :
      pt.length = h.plaintextSize.toNat := by
  have hv := (parseFileHeader_ok_iff.mp hp).2.1
  rcases ht : tableOf h f with e | rs
  · rw [read, hp] at hr
    change (tableOf h f >>= _) = _ at hr
    rw [ht] at hr
    cases hr
  obtain ⟨hcount, -, hfits⟩ := tableOf_ok_iff.mp ht
  rw [read_parsed hp ht] at hr
  rcases hk : w.scrypt t (scryptArgs key h.salt.1 h.kdfLogN h.kdfR h.kdfP) with _ | k <;> rw [hk] at hr
  · cases hr
  obtain ⟨ps, hps, rfl⟩ := together_pieces hr
  have hlen : ps.length = h.chunkCount.toNat := by
    have := congrArg List.length hps
    rwa [List.length_mapIdx, List.length_map, hcount, eq_comm] at this
  rw [List.length_flatten, ← sliceSize_sum hv]
  refine congrArg List.sum (List.ext_getElem (by simp [hlen]) fun i hi hi' => ?_)
  rw [List.getElem_map, List.getElem_map, List.getElem_range]
  rw [List.length_map] at hi
  have hir : i < rs.length := by omega
  have hopen : openChunk w k (slice f 0 kHeaderSize) h (times i) i rs[i] = .ok ps[i] := by
    have hget := congrArg (fun l => l[i]?) hps
    simp only [List.getElem?_mapIdx, List.getElem?_map, List.getElem?_eq_getElem hir, Option.map_some,
      List.getElem?_eq_getElem hi] at hget
    exact Option.some.inj hget
  have hfit := fitsFrom_iff.mp hfits i hir
  rw [Nat.zero_add] at hfit
  exact openChunk_length hfit hopen

/-! ### What another writer wrote -/

/-- A file of the format by any writer: for each slice it stored the slice or any complete
zlib stream of it, smaller or not. The primitives answer. -/
structure Foreign (w : World) (key : Bytes) (k : ByteVec kKeySize) (h : FileHeader) (streams : ℕ → Option Bytes)
    (pt : Bytes) : Prop where
  valid : h.Valid
  zlib : h.compressionId = mcCompressZlib
  size : pt.length = h.plaintextSize.toNat
  derives : ∀ t, w.scrypt t (scryptArgs key h.salt.1 h.kdfLogN h.kdfR h.kdfP) = some k
  evp : ∀ t c, w.evp t c = true
  open_seal : ∀ a : SealArgs,
    (w.gcmOpen ⟨a.key, a.nonce, a.aad, (w.gcmSeal a).1.1, (w.gcmSeal a).2⟩).1.1 = a.pt ∧
    (w.gcmOpen ⟨a.key, a.nonce, a.aad, (w.gcmSeal a).1.1, (w.gcmSeal a).2⟩).2 = true
  inflateInit : ∀ t, w.inflateInit t = true
  stored : ∀ i z, i < h.chunkCount.toNat → streams i = some z → 0 < z.length ∧
    z.length ≤ (maxStoredSizeFor h.chunkSize).toNat
  inflates : ∀ i z, i < h.chunkCount.toNat → streams i = some z → ∀ t,
    (w.inflate t z (h.sliceSize i)).rc = .streamEnd ∧ (w.inflate t z (h.sliceSize i)).out = Spec.sliceAt h pt i ∧
    (w.inflate t z (h.sliceSize i)).remaining = 0

namespace Foreign

variable {w : World} {key pt : Bytes} {k : ByteVec kKeySize} {h : FileHeader} {streams : ℕ → Option Bytes} {i : ℕ}

/-- The arguments of the seal of the chunk at position `i`. -/
def sealed (k : ByteVec kKeySize) (h : FileHeader) (streams : ℕ → Option Bytes) (pt : Bytes) (i : ℕ) : SealArgs :=
  ModelCrypt.sealArgs k (serializeFileHeader h) h i
    ⟨(Spec.stored (Spec.sliceAt h pt i) (streams i)).1.length.toUInt32,
      (Spec.stored (Spec.sliceAt h pt i) (streams i)).2⟩
    (Spec.stored (Spec.sliceAt h pt i) (streams i)).1

/-- The record at position `i`. -/
def record (w : World) (k : ByteVec kKeySize) (h : FileHeader) (streams : ℕ → Option Bytes) (pt : Bytes)
    (i : ℕ) : Record where
  chunk := ⟨(Spec.stored (Spec.sliceAt h pt i) (streams i)).1.length.toUInt32,
    (Spec.stored (Spec.sliceAt h pt i) (streams i)).2⟩
  tag := (w.gcmSeal (sealed k h streams pt i)).2
  ct := (w.gcmSeal (sealed k h streams pt i)).1.1

theorem slice_length (hf : Foreign w key k h streams pt) : (Spec.sliceAt h pt i).length = h.sliceSize i := by
  rw [Spec.sliceAt, Lib.slice_length, hf.size]
  rfl

/-- What is stored fits into the record's size field and into the bound of the reader. -/
theorem stored_le (hf : Foreign w key k h streams pt) (hi : i < h.chunkCount.toNat) :
    (Spec.stored (Spec.sliceAt h pt i) (streams i)).1.length ≤ (maxStoredSizeFor h.chunkSize).toNat := by
  have hC := hf.valid.chunkSize.2
  have hM := maxStoredSizeFor_toNat hC
  cases hz : streams i with
  | none =>
    have hle : (Spec.sliceAt h pt i).length ≤ h.chunkSize.toNat := by
      rw [hf.slice_length, FileHeader.sliceSize]
      exact Nat.min_le_left ..
    exact hle.trans (by omega)
  | some z => exact (hf.stored i z hi hz).2

theorem storedSize_toNat (hf : Foreign w key k h streams pt) (hi : i < h.chunkCount.toNat) :
    (record w k h streams pt i).chunk.storedSize.toNat = (Spec.stored (Spec.sliceAt h pt i) (streams i)).1.length :=
  UInt32.toNat_ofNat_of_lt' (lt_of_le_of_lt (hf.stored_le hi) (maxStoredSizeFor h.chunkSize).toNat_lt)

theorem compressed_eq : (record w k h streams pt i).chunk.compressed = (streams i).isSome := by
  show ((Spec.stored (Spec.sliceAt h pt i) (streams i)).2 &&& kChunkFlagCompressed != 0) = _
  cases streams i with
  | none => exact (by decide : ((0 : UInt8) &&& kChunkFlagCompressed != 0) = false)
  | some z => exact (by decide : ((1 : UInt8) &&& kChunkFlagCompressed != 0) = true)

theorem record_fits (hf : Foreign w key k h streams pt) (hi : i < h.chunkCount.toNat) :
    (record w k h streams pt i).Fits h i := by
  have hsize := hf.storedSize_toNat hi
  refine ⟨(w.gcmSeal (sealed k h streams pt i)).1.2.trans hsize.symm, ?_, ?_, fun hc => ?_, fun hc => ⟨?_, hf.zlib⟩⟩
  · rw [UInt32.le_iff_toNat_le, hsize]
    exact hf.stored_le hi
  · show (Spec.stored (Spec.sliceAt h pt i) (streams i)).2 = 0 ∨ (Spec.stored (Spec.sliceAt h pt i) (streams i)).2 = 1
    cases streams i with
    | none => exact .inl rfl
    | some z => exact .inr rfl
  · rw [compressed_eq] at hc
    have hz : streams i = none := Option.isNone_iff_eq_none.mp (Option.isSome_eq_false_iff.mp hc)
    rw [hsize, hz]
    exact hf.slice_length
  · rw [compressed_eq] at hc
    obtain ⟨z, hz⟩ := Option.isSome_iff_exists.mp hc
    rw [hsize, hz]
    exact (hf.stored i z hi hz).1

theorem record_bytes (hf : Foreign w key k h streams pt) (hi : i < h.chunkCount.toNat) :
    (record w k h streams pt i).bytes = Spec.chunkOf w k.1 h i (Spec.sliceAt h pt i) (streams i) := by
  have hcount := hf.valid.count_le
  exact Spec.chunk_eq (by omega) (hf.storedSize_toNat hi) rfl rfl

/-- **The file is a container.** -/
def container (hf : Foreign w key k h streams pt) : Container where
  header := h
  records := (List.range h.chunkCount.toNat).map (record w k h streams pt)
  valid := hf.valid
  count := by rw [List.length_map, List.length_range]
  fits := by
    refine fitsFrom_iff.mpr fun j hj => ?_
    rw [List.length_map, List.length_range] at hj
    rw [List.getElem_map, List.getElem_range, Nat.zero_add]
    exact hf.record_fits hj

theorem container_bytes (hf : Foreign w key k h streams pt) : hf.container.bytes = Spec.file w k.1 h streams pt := by
  rw [Container.bytes, Spec.file, ← Spec.header_eq]
  show serializeFileHeader h ++ recordBytes ((List.range h.chunkCount.toNat).map (record w k h streams pt)) = _
  rw [recordBytes, List.map_map, ← List.flatMap_def]
  exact congrArg _ (List.flatMap_congr fun i hi => hf.record_bytes (List.mem_range.mp hi))

/-- **A chunk of another writer opens to its slice**, whenever it is opened. -/
theorem openChunk_record (hf : Foreign w key k h streams pt) (hi : i < h.chunkCount.toNat) (t : ℕ) :
    openChunk w k (serializeFileHeader h) h t i (record w k h streams pt i) = .ok (Spec.sliceAt h pt i) := by
  obtain ⟨hpt, hok⟩ := hf.open_seal (sealed k h streams pt i)
  have hopen : openResult w (openArgs k (serializeFileHeader h) h i (record w k h streams pt i)) t =
      .ok (Spec.stored (Spec.sliceAt h pt i) (streams i)).1 := by
    rw [openResult_eq (hf.evp t), if_neg]
    · exact congrArg _ hpt
    · exact fun h0 => absurd (h0.symm.trans hok) Bool.false_ne_true
  rw [openChunk, hopen, ok_bind]
  rw [compressed_eq]
  cases hz : streams i with
  | none => rfl
  | some z =>
    obtain ⟨hrc, hout, hrem⟩ := hf.inflates i z hi hz (t + 1)
    show inflateResult w z (h.sliceSize i) (t + 1) = _
    rw [inflateResult_ok (hf.inflateInit _) hrc (by rw [hout, hf.slice_length]) hrem, hout]

end Foreign

/-- **The plain reader reads what another writer wrote.** -/
theorem read_file {w : World} {key pt : Bytes} {k : ByteVec kKeySize} {h : FileHeader} {streams : ℕ → Option Bytes}
    (hf : Foreign w key k h streams pt) (t : ℕ) (times : ℕ → ℕ) :
    read w t times key (Spec.file w k.1 h streams pt) = .ok pt := by
  have hparse : parseFileHeader (.bytes hf.container.bytes) = .ok h := hf.container.parse
  have hheader : slice hf.container.bytes 0 kHeaderSize = serializeFileHeader h := hf.container.slice_header
  have htable : tableOf h hf.container.bytes =
      .ok ((List.range h.chunkCount.toNat).map (Foreign.record w k h streams pt)) := by
    refine tableOf_ok_iff.mpr ⟨hf.container.count, ?_, hf.container.fits⟩
    rw [Container.bytes, List.drop_left' (serializeFileHeader_length _)]
    rfl
  rw [hf.container_bytes] at hparse htable hheader
  have hopen : ((List.range h.chunkCount.toNat).map (Foreign.record w k h streams pt)).mapIdx
      (fun i r => openChunk w k (serializeFileHeader h) h (times i) i r) = (h.pieces pt).map .ok := by
    refine List.ext_getElem (by simp [pieces_length]) fun i hi hi' => ?_
    have hlt : i < h.chunkCount.toNat := by simpa using hi
    rw [List.getElem_mapIdx, List.getElem_map, List.getElem_range, hf.openChunk_record hlt, List.getElem_map]
    simp [FileHeader.pieces, Spec.sliceAt]
  rw [read_parsed hparse htable, hf.derives t, hheader]
  show together _ = _
  rw [hopen, together_map, pieces_flatten hf.valid hf.size]

end Plain

namespace Decrypt

/-- A run ended as the plain reader did: with the status, or with the plaintext in the buffer it returned. -/
inductive Reads : Except Stop (SecureBuffer × ℕ) × St → Except McStatus Bytes → Prop
  | stop {e : McStatus} {s1 : St} : Reads (.error (.status e), s1) (.error e)
  | ok {buf : SecureBuffer} {pt : Bytes} {s1 : St} (hh : buf.Holds s1.heap.get pt) :
    Reads (.ok (buf, pt.length), s1) (.ok pt)

/-- When the call from `s` to `s1` opened the chunk at position `i`. -/
def openTime (s s1 : St) : ℕ → ℕ := timeSince Plain.isOpened s.trace s1.trace

/-- **The reader conforms to the plain one**: for every key that is long enough and every file, with
memory to be had, `DecryptBuffer` returns what the plain reader does, and as many bytes as the
header says. What another writer of the format wrote, it reads. -/
theorem decryptBuffer_reads (w : World) (key f : Bytes) (s : St) (hk : mcMinKeySize ≤ key.length)
    (hf : f.length ≤ w.sizeT.max) (hm : Plain.Memory w f) : ∃ s1,
    (decryptBuffer w (.bytes key) (.bytes f) s).2 = s1 ∧
    Reads (decryptBuffer w (.bytes key) (.bytes f) s) (Plain.read w (s.trace.length + 3) (openTime s s1) key f) ∧
    (∀ h pt, parseFileHeader (.bytes f) = .ok h → Plain.read w (s.trace.length + 3) (openTime s s1) key f = .ok pt →
      pt.length = h.plaintextSize.toNat) ∧
    ∀ k h streams pt, Plain.Foreign w key k h streams pt → f = Spec.file w k.1 h streams pt →
      ∃ buf, decryptBuffer w (.bytes key) (.bytes f) s = (.ok (buf, pt.length), s1) ∧ buf.Holds s1.heap.get pt := by
  obtain ⟨tr', hrun⟩ := Plain.decrypt_run hm hk s.trace
  have hreads : ∃ s1, (decryptBuffer w (.bytes key) (.bytes f) s).2 = s1 ∧
      Reads (decryptBuffer w (.bytes key) (.bytes f) s) (Plain.read w (s.trace.length + 3) (openTime s s1) key f) := by
    rcases decryptBuffer_refines w (.bytes key) (.bytes f) s hf with ⟨a, b, s1, h1, h2, hs, hl⟩ | ⟨e, s1, h1, h2, -⟩
    · rw [hrun] at h2
      obtain ⟨hread, rfl⟩ := Prod.mk.inj h2
      refine ⟨s1, by rw [h1], ?_⟩
      rw [h1, openTime, hread]
      obtain ⟨buf, n⟩ := a
      obtain rfl : n = b.length := hl
      exact .ok hs.holds
    · rw [hrun] at h2
      obtain ⟨hread, rfl⟩ := Prod.mk.inj h2
      refine ⟨s1, by rw [h1], ?_⟩
      rw [h1, openTime, hread]
      exact .stop
  obtain ⟨s1, hs1, hr⟩ := hreads
  refine ⟨s1, hs1, hr, fun h pt => Plain.read_length, ?_⟩
  rintro k h streams pt hforeign rfl
  rw [Plain.read_file hforeign] at hr
  rcases hd : decryptBuffer w (.bytes key) (.bytes (Spec.file w k.1 h streams pt)) s with ⟨r, s2⟩
  rw [hd] at hr hs1
  obtain rfl : s2 = s1 := hs1
  cases hr with
  | ok hh => exact ⟨_, rfl, hh⟩

def foreignHeader : FileHeader :=
  Encrypt.headerFor Encrypt.zlibOptions 10 ⟨zeros _, zeros_length _⟩ ⟨zeros _, zeros_length _⟩

/-- A stream that is longer than what it inflates to. -/
def foreignStreams (_ : ℕ) : Option Bytes := some (0 :: Encrypt.sampleText)

/-- The key that is derived from `sampleKey`. -/
def foreignKey : ByteVec kKeySize := checksum kKeySize (zeros mcMinKeySize ++ foreignHeader.salt.1)

theorem foreignFile : Plain.Foreign sampleWorld (zeros mcMinKeySize) foreignKey foreignHeader foreignStreams
    Encrypt.sampleText where
  valid := Encrypt.headerFor_valid _ _ (Encrypt.validateOptions_ok_iff.mp (by decide)) (by decide)
  zlib := by decide
  size := by decide
  derives t := by
    have hscrypt {a : ScryptArgs} (ha : a.Accepted) : sampleWorld.scrypt t a =
      some (checksum kKeySize (a.pass ++ a.salt)) :=
      if_pos ha
    exact hscrypt (by decide)
  evp _ _ := rfl
  open_seal := sampleWorld_lawful.open_seal
  inflateInit _ := rfl
  stored i z _ hz := by
    cases hz
    decide
  inflates i z hi hz t := by
    have hcount : foreignHeader.chunkCount.toNat = 1 := by decide
    rw [hcount] at hi
    obtain rfl : i = 0 := by omega
    cases hz
    show (sampleInflate (0 :: Encrypt.sampleText) (foreignHeader.sliceSize 0)).rc = .streamEnd ∧
      (sampleInflate (0 :: Encrypt.sampleText) (foreignHeader.sliceSize 0)).out =
        Spec.sliceAt foreignHeader Encrypt.sampleText 0 ∧
      (sampleInflate (0 :: Encrypt.sampleText) (foreignHeader.sliceSize 0)).remaining = 0
    decide

theorem foreignFile_reads : ∃ buf s1, decryptBuffer sampleWorld (.bytes (zeros mcMinKeySize))
    (.bytes (Spec.file sampleWorld foreignKey.1 foreignHeader foreignStreams Encrypt.sampleText)) ⟨[], []⟩ =
      (.ok (buf, 10), s1) ∧ buf.Holds s1.heap.get Encrypt.sampleText := by
  have hparse : parseFileHeader (.bytes (Spec.file sampleWorld foreignKey.1 foreignHeader foreignStreams
      Encrypt.sampleText)) = .ok foreignHeader := foreignFile.container_bytes ▸ foreignFile.container.parse
  have hlen : (Spec.file sampleWorld foreignKey.1 foreignHeader foreignStreams Encrypt.sampleText).length ≤
      sampleWorld.sizeT.max := by decide +kernel
  obtain ⟨s1, -, -, -, h⟩ := decryptBuffer_reads sampleWorld (zeros mcMinKeySize) _ ⟨[], []⟩ (by decide) hlen
    ⟨fun _ _ => rfl, fun h hp => by cases hparse.symm.trans hp; decide⟩
  obtain ⟨buf, hrun, hh⟩ := h _ _ _ _ foreignFile rfl
  exact ⟨buf, s1, hrun, hh⟩

end Decrypt
end ModelCrypt
