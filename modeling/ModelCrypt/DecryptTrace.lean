/-
# What decryption may do, and when

`Allowed w f pre e`: decrypting `f`, the event `e` may happen after the events
`pre`. The rules are the order of the three phases: no key before the table
is accepted, an inflation only of what the open just before it verified, the
plaintext only after chunk 0, the result only after every chunk. `Opened c k n
hist` is where a run stands: the first `n` chunks of the container `c` were
opened in order under the key `k`, and verified. Every run of the reader is
orderly (`decrypt_logs`), from any trace and for any outcome of the primitives.

Key definitions: `openings`, `Opened`, `Allowed`.
Key theorems: `logs_openRecord`, `logs_openRecords`, `decrypt_logs`.
-/
import ModelCrypt.Reader

namespace ModelCrypt

open Lib Prog

/-! ### Where a run stands -/

/-- The calls of `Open` in a history, and whether they verified. -/
def openings (hist : List Event) : List (OpenArgs × Bool) :=
  hist.filterMap fun
    | .opened a (.ok _) => some (a, true)
    | .opened a (.error _) => some (a, false)
    | _ => none

/-- What `Open` is called with for each record of a container, in order. -/
def Container.openArgs (c : Container) (k : ByteVec kKeySize) : List OpenArgs :=
  c.records.mapIdx fun i r => ModelCrypt.openArgs k (slice c.bytes 0 kHeaderSize) c.header i r

/-- Nothing was delivered. -/
def Silent (hist : List Event) : Prop := ∀ size, Event.delivered size ∉ hist

/-- Nothing was opened or delivered. -/
def Locked (hist : List Event) : Prop := openings hist = [] ∧ Silent hist

/-- The first `n` chunks were opened in order and verified, and nothing was delivered. -/
structure Opened (c : Container) (k : ByteVec kKeySize) (n : ℕ) (hist : List Event) : Prop where
  walked : .walked ∈ hist
  derived : ∃ a, .derived a (some k) ∈ hist
  opens : openings hist = ((c.openArgs k).take n).map fun a => (a, true)
  inflated : ∀ (i : ℕ) (r : Record), i < n → c.records[i]? = some r → r.chunk.compressed = true →
    ∃ d p, Event.inflated d (c.header.sliceSize i) (.ok p) ∈ hist
  silent : Silent hist

/-- The event may follow the history. -/
def Allowed (w : World) (f : Bytes) (pre : List Event) : Event → Prop
  | .alloc .entryStorage size _ => ∃ h, parseFileHeader (.bytes f) = .ok h ∧
      size = h.chunkCount.toNat * w.sizeT.sizeofChunkEntry ∧
        kHeaderSize + h.chunkCount.toNat * kChunkHeaderSize ≤ f.length
  | .walked => ∃ c : Container, c.bytes = f
  | .alloc .derived size _ => .walked ∈ pre ∧ size = kKeySize ∧ ∃ c : Container, c.bytes = f
  | .derived a k => .walked ∈ pre ∧ ∃ c : Container, c.bytes = f ∧ (∃ t, k = w.scrypt t a) ∧
      ∃ pass, a = scryptArgs pass c.header.salt.1 c.header.kdfLogN c.header.kdfR c.header.kdfP
  | .alloc .scratch size _ => ∃ (c : Container) (k : ByteVec kKeySize), c.bytes = f ∧ Opened c k 0 pre ∧
      size = (maxCompressed c.records).toNat ∧ size ≠ 0
  | .alloc .firstChunk size _ => ∃ (c : Container) (k : ByteVec kKeySize), c.bytes = f ∧ Opened c k 0 pre ∧
    size = c.header.sliceSize 0
  | .entered index chunk plainSize room scratch => ∃ (c : Container) (i : ℕ) (r : Record), c.bytes = f ∧
      c.records[i]? = some r ∧ index = UInt32.ofNat i ∧ chunk = r.chunk ∧ plainSize = c.header.sliceSize i ∧
      room = (if i = 0 then c.header.sliceSize 0 else c.header.plaintextSize.toNat - i * c.header.chunkSize.toNat) ∧
      scratch = if (maxCompressed c.records).toNat = 0 then none else some (maxCompressed c.records).toNat
  | .opened a _ => ∃ (c : Container) (k : ByteVec kKeySize) (i : ℕ), c.bytes = f ∧ Opened c k i pre ∧
    (c.openArgs k)[i]? = some a
  | .inflated d room _ => ∃ (c : Container) (k : ByteVec kKeySize) (i : ℕ) (r : Record) (pre' : List Event),
      c.bytes = f ∧ c.records[i]? = some r ∧ r.chunk.compressed = true ∧
        pre = pre' ++ [.opened (openArgs k (slice f 0 kHeaderSize) c.header i r) (.ok d)] ∧
      room = c.header.sliceSize i
  | .alloc .plaintext size _ => ∃ (c : Container) (k : ByteVec kKeySize), c.bytes = f ∧ Opened c k 1 pre ∧
    size = c.header.plaintextSize.toNat
  | .delivered size => ∃ (c : Container) (k : ByteVec kKeySize), c.bytes = f ∧ Opened c k c.records.length pre ∧
    size = c.header.plaintextSize.toNat
  | _ => False

/-! ### Opened -/

section Opened

variable {c : Container} {k : ByteVec kKeySize} {n : ℕ} {hist : List Event} {r : Record}

theorem Silent.append {more : List Event} (h : Silent hist) (hm : Silent more) : Silent (hist ++ more) :=
  fun size he => (List.mem_append.mp he).elim (h size) (hm size)

theorem Container.openArgs_get (hr : c.records[n]? = some r) :
    (c.openArgs k)[n]? = some (ModelCrypt.openArgs k (slice c.bytes 0 kHeaderSize) c.header n r) := by
  rw [Container.openArgs, List.getElem?_mapIdx, hr]
  rfl

/-- Events that neither open nor deliver change nothing about where the run stands. -/
theorem Opened.snoc {e : Event} (h : Opened c k n hist) (he : Locked [e]) : Opened c k n (hist ++ [e]) where
  walked := List.mem_append_left _ h.walked
  derived := h.derived.imp fun _ => List.mem_append_left _
  opens := by
    have : openings (hist ++ [e]) = openings hist ++ openings [e] := List.filterMap_append
    rw [this, he.1, List.append_nil, h.opens]
  inflated i r hi hr hc := by
    obtain ⟨d, p, hm⟩ := h.inflated i r hi hr hc
    exact ⟨d, p, List.mem_append_left _ hm⟩
  silent := h.silent.append he.2

/-- One more chunk was opened, and inflated if it is compressed. -/
theorem Opened.succ {a : OpenArgs} {pt : Bytes} {more : List Event} (h : Opened c k n hist)
    (hr : c.records[n]? = some r) (ha : (c.openArgs k)[n]? = some a) (ho : openings more = [])
    (hd : Silent more)
    (hc : r.chunk.compressed = true → ∃ d p, Event.inflated d (c.header.sliceSize n) (.ok p) ∈ more) :
    Opened c k (n + 1) (hist ++ [.opened a (.ok pt)] ++ more) where
  walked := List.mem_append_left _ (List.mem_append_left _ h.walked)
  derived := h.derived.imp fun _ hm => List.mem_append_left _ (List.mem_append_left _ hm)
  opens := by
    have : openings (hist ++ [.opened a (.ok pt)] ++ more) =
        openings hist ++ [(a, true)] ++ openings more := by
      simp [openings]
    rw [this, ho, h.opens, List.append_nil, List.take_add_one, ha, List.map_append]
    rfl
  inflated i q hi hq hqc := by
    rcases Nat.lt_succ_iff_lt_or_eq.mp hi with hlt | rfl
    · obtain ⟨d, p, hm⟩ := h.inflated i q hlt hq hqc
      exact ⟨d, p, List.mem_append_left _ (List.mem_append_left _ hm)⟩
    · rw [hr] at hq
      cases hq
      obtain ⟨d, p, hm⟩ := hc hqc
      exact ⟨d, p, List.mem_append_right _ hm⟩
  silent := (h.silent.append (by simp [Silent])).append hd

theorem Locked.snoc {e : Event} (h : Locked hist) (he : Locked [e]) : Locked (hist ++ [e]) := by
  refine ⟨?_, h.2.append he.2⟩
  have : openings (hist ++ [e]) = openings hist ++ openings [e] := List.filterMap_append
  rw [this, h.1, he.1]
  rfl

theorem Locked.opened (h : Locked hist) (hw : .walked ∈ hist) (hk : ∃ a, .derived a (some k) ∈ hist) :
    Opened c k 0 hist :=
  ⟨hw, hk, by simpa using h.1, fun i r hi => absurd hi (Nat.not_lt_zero i), h.2⟩

end Opened

/-! ### The reader is orderly -/

section Reader

variable {w : World} {c : Container} {k : ByteVec kKeySize} {tr0 hist : List Event}

/-- **One chunk**: it is opened after all the chunks before it, and inflated only once it is verified. -/
theorem logs_openRecord {i room : ℕ} {scratch : Option ℕ} {r : Record} (h : Opened c k i hist)
    (hr : c.records[i]? = some r)
    (hroom : room = if i = 0 then c.header.sliceSize 0 else c.header.plaintextSize.toNat - i * c.header.chunkSize.toNat)
    (hscr : scratch = if (maxCompressed c.records).toNat = 0 then none else some (maxCompressed c.records).toNat) :
    Logs (Allowed w c.bytes) tr0 (Ref.openRecord w k (slice c.bytes 0 kHeaderSize) c.header scratch i room r) hist
      fun res hist' => Silent hist' ∧ ∀ p, res = .ok p → Opened c k (i + 1) hist' := by
  have ha := Container.openArgs_get (k := k) hr
  unfold Ref.openRecord
  refine Logs.bind (logs_emit ⟨c, i, r, rfl, hr, rfl, rfl, rfl, hroom, hscr⟩) ?_ (by rintro e _ ⟨he, -⟩; cases he)
  rintro _ _ ⟨-, rfl⟩
  have h1 := h.snoc (e := .entered (UInt32.ofNat i) r.chunk (c.header.sliceSize i) room scratch)
    ⟨rfl, by simp [Silent]⟩
  refine Logs.bind (logs_ask fun x => ⟨c, k, i, rfl, h1, ha⟩) ?_ ?_
  · rintro pt _ ⟨rfl, -⟩
    cases hc : r.chunk.compressed with
    | false =>
      have h2 : Opened c k (i + 1) (_ ++ [.opened _ (.ok pt)] ++ []) :=
        h1.succ hr ha rfl (by simp [Silent]) (by simp [hc])
      rw [List.append_nil] at h2
      exact Logs.pure ⟨h2.silent, fun _ _ => h2⟩
    | true =>
      refine (logs_ask fun x => ⟨c, k, i, r, _, rfl, hr, hc, rfl, rfl⟩).mono ?_
      rintro x _ ⟨rfl, -⟩
      refine ⟨(h1.silent.append (by simp [Silent])).append (by simp [Silent]), fun p hx => ?_⟩
      refine h1.succ hr ha (by rw [hx]; rfl) (by simp [Silent]) fun _ => ⟨pt, p, ?_⟩
      rw [hx]
      exact List.mem_singleton_self _
  · rintro e _ ⟨rfl, -⟩
    exact ⟨h1.silent.append (by simp [Silent]), fun _ hx => by cases hx⟩

/-- **The chunks from one on**: by induction on what is left, each after those before it. -/
theorem logs_openRecords {scratch : Option ℕ}
    (hscr : scratch = if (maxCompressed c.records).toNat = 0 then none else some (maxCompressed c.records).toNat) :
    ∀ (rest pre : List Record) (hist : List Event), c.records = pre ++ rest → 1 ≤ pre.length →
    Opened c k pre.length hist →
    Logs (Allowed w c.bytes) tr0
      (Ref.openRecords w k (slice c.bytes 0 kHeaderSize) c.header scratch pre.length rest) hist
      fun res hist' => Silent hist' ∧ ∀ ps, res = .ok ps → Opened c k c.records.length hist'
  | [], pre, hist, he, _, h => by
    rw [List.append_nil] at he
    rw [← he] at h
    exact Logs.pure ⟨h.silent, fun _ _ => h⟩
  | r :: rest, pre, hist, he, h1, h => by
    have hr : c.records[pre.length]? = some r := by rw [he, List.getElem?_append_right (le_refl _), Nat.sub_self]; rfl
    rw [Ref.openRecords]
    refine Logs.bind (logs_openRecord h hr (by rw [if_neg (by omega)]) hscr) ?_ ?_
    · rintro p hist1 ⟨-, hp⟩
      have h2 := hp p rfl
      have ih := logs_openRecords hscr rest (pre ++ [r]) hist1 (by simp [he]) (by simp)
        (by rwa [List.length_append, List.length_singleton])
      rw [List.length_append, List.length_singleton] at ih
      refine Logs.bind ih ?_ ?_
      · rintro ps hist2 ⟨hs, hps⟩
        exact Logs.pure ⟨hs, fun _ _ => hps ps rfl⟩
      · rintro e hist2 ⟨hs, -⟩
        exact ⟨hs, fun _ hx => by cases hx⟩
    · rintro e hist1 ⟨hs, -⟩
      exact ⟨hs, fun _ hx => by cases hx⟩

/-- How a run may end: it delivers last, or stops without delivering. -/
def Ended (res : Except McStatus Bytes) (hist : List Event) : Prop :=
  match res with
  | .ok _ => ∃ pre size, hist = pre ++ [.delivered size] ∧ Silent pre
  | .error _ => Silent hist

/-- The history gains nothing but an allocation. -/
theorem Opened.alloc {n : ℕ} {hist' : List Event} {name : BufName} {size : ℕ} (h : Opened c k n hist)
    (he : hist' = hist ∨ ∃ ok, hist' = hist ++ [.alloc name size ok]) : Opened c k n hist' := by
  rcases he with rfl | ⟨ok, rfl⟩
  · exact h
  · exact h.snoc ⟨rfl, by simp [Silent]⟩

theorem logs_finish {scratch : Option ℕ} {p : Bytes} {r : Record} {rest : List Record} (he : c.records = r :: rest)
    (hscr : scratch = if (maxCompressed c.records).toNat = 0 then none else some (maxCompressed c.records).toNat)
    (h : Opened c k 1 hist) :
    Logs (Allowed w c.bytes) tr0 (Ref.finish w k (slice c.bytes 0 kHeaderSize) c.header scratch p rest) hist Ended := by
  unfold Ref.finish
  refine Logs.throwIf (fun _ => h.silent) fun _ => ?_
  refine Logs.bind (logs_alloc fun ok _ => ⟨c, k, rfl, h, rfl⟩) ?_ fun e hist1 h1 => (h.alloc h1).silent
  intro _ hist1 h1
  refine Logs.bind (logs_openRecords hscr rest [r] hist1 he (le_refl _) (h.alloc h1)) ?_ fun e hist2 h2 => h2.1
  rintro ps hist2 ⟨hs, hps⟩
  refine Logs.bind (logs_emit ⟨c, k, rfl, hps ps rfl, rfl⟩) ?_ (by rintro e _ ⟨he, -⟩; cases he)
  rintro _ _ ⟨-, rfl⟩
  exact Logs.pure ⟨hist2, _, rfl, hs⟩

theorem logs_openAll (h : Opened c k 0 hist) :
    Logs (Allowed w c.bytes) tr0 (Ref.openAll w k (slice c.bytes 0 kHeaderSize) c.header c.records) hist Ended := by
  rcases hrs : c.records with _ | ⟨r, rest⟩
  · exact Logs.throw h.silent
  rw [Ref.openAll, ← hrs]
  refine Logs.bind (logs_alloc fun ok h0 => ⟨c, k, rfl, h, rfl, h0⟩) ?_ fun e hist1 h1 => (h.alloc h1).silent
  intro _ hist1 h1
  replace h1 := h.alloc h1
  refine Logs.bind (logs_alloc fun ok _ => ⟨c, k, rfl, h1, rfl⟩) ?_ fun e hist2 h2 => (h1.alloc h2).silent
  intro _ hist2 h2
  replace h2 := h1.alloc h2
  refine Logs.bind (logs_openRecord h2 (by rw [hrs]; rfl) (by rw [if_pos rfl]) rfl) ?_ fun e hist3 h3 => h3.1
  rintro p hist3 ⟨-, h3⟩
  exact logs_finish hrs rfl (h3 p rfl)

/-- **Phase 1**: the table is accepted last, and exactly if the file is a container. -/
theorem logs_table {f : Bytes} {h : FileHeader} (hp : parseFileHeader (.bytes f) = .ok h) :
    Logs (Allowed w f) tr0 (Ref.table w h f) [] fun res hist' => Locked hist' ∧ match res with
      | .ok rs => .walked ∈ hist' ∧ ∃ c : Container, c.bytes = f ∧ c.header = h ∧ c.records = rs
      | .error _ => .walked ∉ hist' := by
  have h0 : Locked [] := ⟨rfl, by simp [Silent]⟩
  unfold Ref.table
  refine Logs.throwIf (fun _ => ⟨h0, by simp⟩) fun hmin => Logs.throwIf (fun _ => ⟨h0, by simp⟩) fun _ => ?_
  have hone (hist1 : List Event) {size : ℕ} (h1 : hist1 = [] ∨ ∃ ok, hist1 = [] ++ [.alloc .entryStorage size ok]) :
      Locked hist1 ∧ .walked ∉ hist1 := by
    rcases h1 with rfl | ⟨ok, rfl⟩
    · exact ⟨h0, by simp⟩
    · exact ⟨⟨rfl, by simp [Silent]⟩, by simp⟩
  refine Logs.bind (logs_alloc fun ok _ => ⟨h, hp, rfl, Nat.not_lt.mp hmin⟩) ?_ ?_
  · intro _ hist1 h1
    obtain ⟨hl, hw⟩ := hone hist1 h1
    refine Logs.ofExcept (fun rs hrs => ?_) fun e _ => ⟨hl, hw⟩
    obtain ⟨c, rfl, rfl, rfl⟩ := Container.of_table hp hrs
    refine Logs.bind (logs_emit ⟨c, rfl⟩) ?_ (by rintro e _ ⟨he, -⟩; cases he)
    rintro _ _ ⟨-, rfl⟩
    exact Logs.pure ⟨hl.snoc ⟨rfl, by simp [Silent]⟩, by simp, c, rfl, rfl, rfl⟩
  · exact fun e hist1 h1 => hone hist1 h1

/-- **Key derivation** comes after the table was accepted. -/
theorem logs_deriveKey {key : Span} (hw : .walked ∈ hist) (hl : Locked hist) :
    Logs (Allowed w c.bytes) tr0 (Ref.deriveKey w key c.header.salt.1 c.header.kdfLogN c.header.kdfR c.header.kdfP) hist
      fun res hist' => Locked hist' ∧ ∀ k, res = .ok k → Opened c k 0 hist' := by
  have hstop {e : McStatus} : ∀ k, (Except.error e : Except McStatus (ByteVec kKeySize)) = .ok k → Opened c k 0 hist :=
    fun k hk => by cases hk
  unfold Ref.deriveKey
  refine Logs.throwIf (fun _ => ⟨hl, hstop⟩) fun _ => Logs.throwIf (fun _ => ⟨hl, hstop⟩) fun _ => ?_
  have hone {hist1 : List Event} (h1 : hist1 = hist ∨ ∃ ok, hist1 = hist ++ [.alloc .derived kKeySize ok]) :
      Locked hist1 ∧ .walked ∈ hist1 := by
    rcases h1 with rfl | ⟨ok, rfl⟩
    · exact ⟨hl, hw⟩
    · exact ⟨hl.snoc ⟨rfl, by simp [Silent]⟩, List.mem_append_left _ hw⟩
  refine Logs.bind (logs_alloc fun ok _ => ⟨hw, rfl, c, rfl⟩) ?_ fun e hist1 h1 =>
    ⟨(hone h1).1, fun k hk => by cases hk⟩
  intro _ hist1 h1
  obtain ⟨hl1, hw1⟩ := hone h1
  refine (logs_scrypt fun t => ⟨hw1, c, rfl, ⟨t, rfl⟩, key.toBytes, rfl⟩).mono ?_
  rintro res _ ⟨t, rfl, hx⟩
  generalize scryptArgs key.toBytes c.header.salt.1 c.header.kdfLogN c.header.kdfR c.header.kdfP = a at hx ⊢
  have hl2 : Locked (hist1 ++ [.derived a (w.scrypt t a)]) := hl1.snoc ⟨rfl, by simp [Silent]⟩
  refine ⟨hl2, fun k hk => ?_⟩
  rw [hx k hk] at hl2 ⊢
  exact hl2.opened (List.mem_append_left _ hw1) ⟨_, List.mem_append_right _ (List.mem_singleton_self _)⟩

/-- **Every run of the reader is orderly**, for any file, key and outcome of the primitives. -/
theorem decrypt_logs (w : World) (key input : Span) (tr0 : List Event) :
    Logs (Allowed w input.toBytes) tr0 (Ref.decrypt w key input) [] Ended := by
  have h0 : Silent [] := by simp [Silent]
  unfold Ref.decrypt
  refine Logs.throwIf (fun _ => h0) fun hnull => Logs.throwIf (fun _ => h0) fun _ => ?_
  have hbytes : input = .bytes input.toBytes := Span.eq_bytes (by simpa using (not_or.mp hnull).2)
  generalize input.toBytes = f at hbytes
  subst hbytes
  refine Logs.ofExcept (fun h hp => ?_) fun e _ => h0
  replace hp : parseFileHeader (.bytes f) = .ok h := by rw [parseFileHeader_status, hp]; rfl
  refine Logs.bind (logs_table hp) ?_ fun e hist1 h1 => h1.1.2
  rintro _ hist1 ⟨hl, hw, c, rfl, rfl, rfl⟩
  refine Logs.bind (logs_deriveKey hw hl) ?_ fun e hist2 h2 => h2.1.2
  rintro k hist2 ⟨-, h2⟩
  exact logs_openAll (h2 k rfl)

end Reader

end ModelCrypt
