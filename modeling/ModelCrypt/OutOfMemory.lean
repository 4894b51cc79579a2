/-
# When there is no memory

An allocation may fail in two ways: a `new (std::nothrow)` returns null, which
the trace shows, or a string operation throws `std::bad_alloc`. A call is
contained (`Contained`) if it ends with a status whatever fails, and with
`MC_ERR_MEMORY` if an allocation did. The calls on buffers are, and so is
`mc_decrypt_file_to_buffer`; `mc_encrypt_file` and `mc_decrypt_file` are exactly
if `WriteFileAtomically`, once they reach it, has memory for its strings, which
are made outside of any `try`.

Key definitions: `Contained`, `Starved`, `Reaches`, `StringFails`.
Key theorems: `careful_encrypt`, `careful_decrypt`, `writeFileAtomically_stays`, `calls_contained`.
-/
import ModelCrypt.FileSafety

namespace ModelCrypt

open Lib Prog Fileio

/-- An allocation that failed. -/
inductive Event.NoMemory : Event → Prop
  | alloc (name : BufName) (n : ℕ) : Event.NoMemory (.alloc name n false)

/-! ### Which allocations stop the programs without memory -/

section Heeds

variable {w : World} {key : Span} {k : ByteVec kKeySize} {sh : Bytes} {h : FileHeader} {compress : Bool}

theorem heeds_emit {x : Event} (hx : ¬ x.NoMemory) : Heeds Event.NoMemory .errMemory (Ref.emit x) :=
  Heeds.step fun _ => ⟨x, rfl, fun h => absurd h hx⟩

theorem heeds_ask {α : Type} {ev : Except McStatus α → Event} {r : ℕ → Except McStatus α}
    (hx : ∀ a, ¬ (ev a).NoMemory) :
    Heeds Event.NoMemory .errMemory (Ref.ask ev r) :=
  Heeds.step fun _ => ⟨_, rfl, fun h => absurd h (hx _)⟩

theorem heeds_alloc {name : BufName} {size : ℕ} : Heeds Event.NoMemory .errMemory (Ref.alloc w name size) := by
  by_cases h0 : size = 0
  · subst h0
    exact Heeds.pure
  refine Heeds.step fun tr => ?_
  rw [Ref.alloc_eq h0]
  by_cases ha : w.alloc tr.length size = true
  · rw [if_pos ha]
    exact ⟨_, rfl, fun h => (by cases h)⟩
  · rw [if_neg ha]
    exact ⟨_, rfl, fun _ => rfl⟩

theorem heeds_scrypt {a : ScryptArgs} : Heeds Event.NoMemory .errMemory (Ref.scrypt w a) := by
  refine Heeds.step fun tr => ?_
  rw [Ref.scrypt_eq]
  exact ⟨_, rfl, fun h => (by cases h)⟩

theorem heeds_fill {n : ℕ} (h0 : n ≠ 0) (hn : n ≤ int32Max) : Heeds Event.NoMemory .errMemory (fill w n) := by
  refine Heeds.step fun tr => ?_
  rw [fill_eq h0 hn]
  exact ⟨_, rfl, fun h => (by cases h)⟩

theorem heeds_deriveKey {salt : Bytes} {logN : UInt8} {r p : UInt32} :
    Heeds Event.NoMemory .errMemory (Ref.deriveKey w key salt logN r p) :=
  Heeds.throwIf.bind fun _ => Heeds.throwIf.bind fun _ => heeds_alloc.bind fun _ => heeds_scrypt

/-! The writer -/

theorem heeds_pack {room : ℕ} {pt : Bytes} :
    Heeds Event.NoMemory .errMemory (Ref.pack w compress room pt) := by
  unfold Ref.pack
  split
  · refine (heeds_ask fun _ h => (by cases h)).bind fun z => ?_
    split <;> exact Heeds.pure
  · exact Heeds.pure

theorem heeds_sealRecord {i : ℕ} {pt : Bytes} :
    Heeds Event.NoMemory .errMemory (Ref.sealRecord w k sh h compress i pt) := by
  exact heeds_pack.bind fun p => (heeds_ask fun _ h => (by cases h)).bind fun c => Heeds.pure

theorem heeds_sealRecords (pts : List Bytes) :
    ∀ i, Heeds Event.NoMemory .errMemory (Ref.sealRecords w k sh h compress i pts) := by
  induction pts with
  | nil => exact fun i => Heeds.pure
  | cons pt pts ih => exact fun i => heeds_sealRecord.bind fun r => (ih (i + 1)).bind fun rs => Heeds.pure

theorem heeds_sealAll {pt : Bytes} :
    Heeds Event.NoMemory .errMemory (Ref.sealAll w k h compress pt) := by
  refine Heeds.throwIf.bind fun _ => heeds_alloc.bind fun _ => Heeds.bind ?_ fun _ =>
    (heeds_sealRecords _ 0).bind fun rs => Heeds.bind ?_ fun _ => Heeds.pure
  · unfold Ref.newScratch
    split
    · exact heeds_alloc
    · exact Heeds.pure
  · unfold Ref.shrink
    split
    · exact heeds_alloc
    · exact Heeds.pure

theorem heeds_encrypt {opts : EncryptOptions} {input : Span} :
    Heeds Event.NoMemory .errMemory (Ref.encrypt w key opts input) := by
  refine Heeds.throwIf.bind fun _ => Heeds.throwIf.bind fun _ => Heeds.throwIf.bind fun _ =>
    Heeds.throwIf.bind fun _ => ?_
  refine Heeds.ofExcept.bind fun _ => (heeds_fill ?_ ?_).bind fun salt => (heeds_fill ?_ ?_).bind fun np =>
    heeds_deriveKey.bind fun k => heeds_sealAll
  all_goals decide

/-! The reader -/

theorem heeds_openRecord {scratch : Option ℕ} {i room : ℕ} {r : Record} :
    Heeds Event.NoMemory .errMemory (Ref.openRecord w k sh h scratch i room r) := by
  refine (heeds_emit fun h => (by cases h)).bind fun _ => (heeds_ask fun _ h => (by cases h)).bind fun pt => ?_
  split
  · exact heeds_ask fun _ h => (by cases h)
  · exact Heeds.pure

theorem heeds_openRecords {scratch : Option ℕ} (rs : List Record) :
    ∀ i, Heeds Event.NoMemory .errMemory (Ref.openRecords w k sh h scratch i rs) := by
  induction rs with
  | nil => exact fun i => Heeds.pure
  | cons r rs ih => exact fun i => heeds_openRecord.bind fun p => (ih (i + 1)).bind fun ps => Heeds.pure

theorem heeds_openAll (rs : List Record) :
    Heeds Event.NoMemory .errMemory (Ref.openAll w k sh h rs) := by
  cases rs with
  | nil => exact Heeds.throw
  | cons r rs =>
    refine heeds_alloc.bind fun _ => heeds_alloc.bind fun _ => heeds_openRecord.bind fun p => ?_
    exact Heeds.throwIf.bind fun _ => heeds_alloc.bind fun _ => (heeds_openRecords _ 1).bind fun ps =>
      (heeds_emit fun h => (by cases h)).bind fun _ => Heeds.pure

theorem heeds_table {f : Bytes} : Heeds Event.NoMemory .errMemory (Ref.table w h f) := by
  exact Heeds.throwIf.bind fun _ => Heeds.throwIf.bind fun _ => heeds_alloc.bind fun _ =>
    Heeds.ofExcept.bind fun rs => (heeds_emit fun h => (by cases h)).bind fun _ => Heeds.pure

theorem heeds_decrypt {input : Span} : Heeds Event.NoMemory .errMemory (Ref.decrypt w key input) :=
  Heeds.throwIf.bind fun _ => Heeds.throwIf.bind fun _ => Heeds.ofExcept.bind fun _ => heeds_table.bind fun _ =>
    heeds_deriveKey.bind fun _ => heeds_openAll _

end Heeds

/-! ### The calls on buffers -/

/-- An allocation failed between two states. -/
def Starved (s s' : St) : Prop := ∃ x ∈ s'.trace.drop s.trace.length, Event.NoMemory x

/-- How a call ends: with a status, and with `MC_ERR_MEMORY` if an allocation failed. -/
structure Contained {α : Type} (failed : Prop) (r : Except Stop α) : Prop where
  status : ∀ e, r = .error e → ∃ s, e = .status s
  memory : failed → r = .error (.status .errMemory)

theorem starved_iff {s s' : St} {hist : List Event} (h : s'.trace = s.trace ++ hist) :
    Starved s s' ↔ ∃ x ∈ hist, Event.NoMemory x := by rw [Starved, h, List.drop_left]

theorem not_starved {s : St} : ¬ Starved s s := by
  intro hs
  obtain ⟨x, hx, -⟩ := (starved_iff (List.append_nil _).symm).mp hs
  cases hx

/-- A run of the process that reports a buffer it has no memory for. -/
def Careful (w : World) {α : Type} (crypt : Span → Run α) : Prop := ∀ input s, input.size ≤ w.sizeT.max →
  ∃ hist, (crypt input s).2.trace = s.trace ++ hist ∧
    ((∃ x ∈ hist, Event.NoMemory x) → (crypt input s).1 = .error (.status .errMemory))

section Buffers

variable {α β : Type} {w : World} {m : Run α} {m' : Ref β} {s : St} {R : α → β → St → Prop} {E : St → Prop}

/-- What refines a program that heeds failed allocations heeds them too. -/
theorem Refines.heeds (h : Refines m m' s R E) (hm : Heeds Event.NoMemory .errMemory m') :
    ∃ hist, (m s).2.trace = s.trace ++ hist ∧ ((∃ x ∈ hist, Event.NoMemory x) →
      (m s).1 = .error (.status .errMemory)) := by
  obtain ⟨hist, ht, hbad⟩ := hm s.trace
  rcases h with ⟨a, b, s1, h1, h2, -⟩ | ⟨e, s1, h1, h2, -⟩ <;> rw [h2] at ht hbad <;> rw [h1]
  · exact ⟨hist, ht, fun h => by cases hbad h⟩
  · exact ⟨hist, ht, fun h => by cases hbad h; rfl⟩

theorem careful_encrypt (key : Span) (opts : EncryptOptions) : Careful w (Encrypt.encryptBuffer w key opts) :=
  fun input s _ => (Encrypt.encryptBuffer_refines w key opts input s).heeds heeds_encrypt

theorem careful_decrypt (key : Span) : Careful w (Decrypt.decryptBuffer w key) :=
  fun input s hin => (Decrypt.decryptBuffer_refines w key input s hin).heeds heeds_decrypt

/-- A call with out-parameters reports what the library's call reports. -/
theorem contained_call {γ : Type} {crypt : Span → Run (SecureBuffer × ℕ)} {input : Span} {c : Prop} [Decidable c]
    {e : McStatus} {f : SecureBuffer × ℕ → γ} (hc : Crypts w crypt) (hq : Careful w crypt)
    (hin : input.size ≤ w.sizeT.max) : Ends (returnIf c e >>= fun _ => crypt input >>= fun a => pure (f a)) s
      fun r s' => Contained (Starved s s') r := by
  refine Ends.throwIf (fun _ => ⟨fun e' he => ?_, fun hs => absurd hs not_starved⟩) fun _ => ?_
  · cases he
    exact ⟨e, rfl⟩
  obtain ⟨hist, ht, hbad⟩ := hq input s hin
  refine Ends.bind (R := fun r s' => (∀ e, r = .error e → ∃ x, e = .status x) ∧
    (Starved s s' → r = .error (.status .errMemory))) ⟨?_, fun hs => hbad ((starved_iff ht).mp hs)⟩ ?_ ?_
  · rcases hc input s hin with ⟨_, _, _, hr, -⟩ | ⟨e', hr, -⟩ <;> rw [hr]
    · exact fun e he => (by cases he)
    · exact fun e he => (by cases he; exact ⟨e', rfl⟩)
  · rintro a s' ⟨-, hmem⟩
    exact ⟨fun e he => (by cases he), fun hs => (by cases hmem hs)⟩
  · rintro e' s' ⟨hst, hmem⟩
    exact ⟨fun e he => (by cases he; exact hst e' rfl), fun hs => (by cases hmem hs; rfl)⟩

end Buffers

/-! ### WriteFileAtomically -/

/-- The stops of a call that throws nothing: a status, or the machine's own. -/
def Reported (e : Stop) : Prop := e = .powerLoss ∨ ∃ s, e = .status s

section Write

variable {os : Os} {s : St} {fd : ℕ} {path mp : Path}

theorem stays_syscall {α : Type} {f : ℕ → Machine → α × Machine} (hf : ∀ t m, (f t m).2.st = m.st) :
    Stays (fun m => m.st = s) Reported (syscall f) := .of_ends fun m hm =>
  ends_syscall ⟨hm, fun e he => (by cases he; exact .inl rfl)⟩ fun _ _ => ⟨(hf _ m).trans hm, fun e he => (by cases he)⟩

theorem stays_throw {α : Type} (e : McStatus) : Stays (fun m => m.st = s) Reported (throw (.status e) : Sys α) :=
  Stays.throw (.inr ⟨e, rfl⟩)

theorem stays_sysClose : Stays (fun m => m.st = s) Reported (sysClose os fd) := stays_syscall fun _ _ => rfl

theorem stays_sysUnlink : Stays (fun m => m.st = s) Reported (sysUnlink os mp) := stays_syscall fun _ _ => by
  split
  · split <;> rfl
  · rfl

theorem stays_sysFchmod {mode : UInt32} : Stays (fun m => m.st = s) Reported (sysFchmod os fd mode) :=
  stays_syscall fun _ _ => by
    split
    · split <;> rfl
    · rfl

theorem stays_sysFsync : Stays (fun m => m.st = s) Reported (sysFsync os fd) := stays_syscall fun _ _ => by
  split
  · split <;> rfl
  · rfl

theorem stays_sysRename : Stays (fun m => m.st = s) Reported (sysRename os mp path) := stays_syscall fun _ _ => by
  split
  · split <;> rfl
  · rfl

theorem stays_sysMkstemp : Stays (fun m => m.st = s) Reported (sysMkstemp os path) := stays_syscall fun _ _ => by
  split
  · rfl
  · split
    · rfl
    · split <;> rfl

theorem stays_discardIf {c : Prop} [Decidable c] : Stays (fun m => m.st = s) Reported (discardIf os fd mp c) := by
  unfold discardIf
  split
  · exact stays_sysClose.bind fun _ => stays_sysUnlink.bind fun _ => stays_throw _
  · exact Stays.pure

theorem stays_unlinkIf {c : Prop} [Decidable c] : Stays (fun m => m.st = s) Reported (unlinkIf os mp c) := by
  unfold unlinkIf
  split
  · exact stays_sysUnlink.bind fun _ => stays_throw _
  · exact Stays.pure

/-- Each round of `WriteFully` has its bytes in the buffer. -/
theorem stays_writeFully {p : Ptr} {x : Bytes} (hp : Supplies s p x) :
    Stays (fun m => m.st = s) Reported (writeFully os fd p x.length) := by
  refine .of_ends fun m hm => transferFully_ends (I := fun _ m' => m'.st = s) hm ?_ ?_ ?_
  · intro done m1 hlt h1
    have hload : onSt (load (p.add done) (x.length - done)) m1 = (.ok (slice x done (x.length - done)), m1) := by
      rw [onSt_run, h1, hp done (x.length - done) (by omega), ← h1]
    have hcall : Ends (sysWrite os fd (p.add done) (x.length - done)) m1 fun r m2 =>
        m2.st = s ∧ ∀ e, r = .error e → Reported e := by
      refine Ends.step hload ((stays_syscall fun _ _ => ?_).ends h1)
      unfold writeTransfer
      split <;> rfl
    refine hcall.mono fun r m2 h2 => ⟨fun e he => ⟨h2.1, fun e' he' => ?_⟩, fun _ => h2.1, fun _ => ⟨h2.1, ?_⟩,
      fun n _ => ?_⟩
    · cases he'
      exact h2.2 e he
    · exact fun e he => (by cases he)
    · exact ⟨fun _ => ⟨h2.1, fun e he => (by cases he)⟩, fun _ => h2.1⟩
  · exact fun _ _ _ h1 => ⟨h1, fun e he => (by cases he)⟩
  · exact fun _ _ h1 => ⟨h1, fun e he => (by cases he; exact .inl rfl)⟩

/-- **With memory for its strings, `WriteFileAtomically` throws nothing**, whatever the system calls answer. -/
theorem writeFileAtomically_stays {mode : UInt32} {p : Ptr} {x : Bytes} (h : Strings os m.time path)
    (hp : Supplies m.st p x) : Ends (writeFileAtomically os path p x.length mode) m fun r m' =>
      m'.st = m.st ∧ ∀ e, r = .error e → Reported e := by
  refine Ends.throwIf (fun _ => ⟨rfl, fun e he => (by cases he; exact .inr ⟨_, rfl⟩)⟩) fun _ =>
    Ends.step (temporaryFor_ok h) (Stays.ends (I := fun m' : Machine => m'.st = m.st) ?_ rfl)
  refine stays_sysMkstemp.bind fun made => ?_
  rcases made with _ | ⟨fd, mp⟩
  · exact stays_throw _
  refine stays_sysFchmod.bind fun moded => stays_discardIf.bind fun _ => Stays.bind ?_ fun _ =>
    stays_sysFsync.bind fun synced =>
    stays_discardIf.bind fun _ => stays_sysClose.bind fun closed => stays_unlinkIf.bind fun _ =>
      stays_sysRename.bind fun renamed =>
      stays_unlinkIf
  unfold writeAll
  split
  · exact (stays_writeFully hp).bind fun whole => stays_discardIf
  · exact Stays.pure

end Write

/-! ### The calls on files -/

section Files

variable {w : World} {os : Os} {crypt : Span → Run (SecureBuffer × ℕ)} {maxSize : UInt64} {m : Machine}

/-- Leaving the scope of a buffer, as far as the trace shows it. -/
theorem ends_scopeEnd {α : Type} {buf : SecureBuffer} {body : Sys α} {Q R : Except Stop α → Machine → Prop}
    (hm : Ends body m R) (hq : ∀ r m', R r m' → (∃ x, buf.Holds m'.st.heap.get x) ∧
      ∀ m'', m''.st.trace = m'.st.trace → Q r m'') : Ends (withBuffer buf body) m Q := by
  refine Ends.always hm fun r m' hr => ?_
  obtain ⟨⟨x, hx⟩, h⟩ := hq r m' hr
  obtain ⟨g, hs⟩ := InScope.of_holds hx
  refine (ends_destroy hs).mono ?_
  rintro _ m2 ⟨rfl, -, ht, -⟩
  exact ⟨fun e he => (by cases he), fun _ => h m2 ht⟩

/-- Reading a file and making something of it: an allocation that fails is reported, and how the
rest ends is left to `k`. -/
theorem ends_readCrypt {α : Type} {i : Path} {k : SecureBuffer × ℕ → Sys α} {X : Except Stop α → Prop}
    (hc : Crypts w crypt) (hq : Careful w crypt)
    (unread : ∀ e m1, readFile os w i maxSize m = (.error (.status e), m1) → X (.error (.status e)))
    (failed : ∀ buf n m1 input e s2, readFile os w i maxSize m = (.ok (buf, n), m1) →
      spanAt buf.ptr n m1.st = (.ok input, m1.st) → crypt input m1.st = (.error (.status e), s2) →
        X (.error (.status e)))
    (made : ∀ buf n m1 input out b y s2, readFile os w i maxSize m = (.ok (buf, n), m1) →
      spanAt buf.ptr n m1.st = (.ok input, m1.st) → crypt input m1.st = (.ok (out, List.length b), s2) → b <+: y →
      InScope m1.st.heap m1.st.heap.get out y s2 → Ends (k (out, b.length)) { m1 with st := s2 } fun r m' =>
        m'.st.trace = s2.trace ∧ (Heap.Becomes m1.st.heap m'.st.heap m1.st.heap.get ∨ m'.st = s2) ∧
          (r ≠ .error .powerLoss → X r)) :
    Ends (readFile os w i maxSize >>= fun a => withBuffer a.1 (onSt (spanAt a.1.ptr a.2) >>= fun input =>
      onSt (crypt input) >>= k)) m fun r m' => r ≠ .error .powerLoss →
        (Starved m.st m'.st → r = .error (.status .errMemory)) ∧ X r := by
  refine Ends.bind (R := fun r m1 => readFile os w i maxSize m = (r, m1) ∧
    ((∃ (buf : SecureBuffer) (x : Bytes), r = .ok (buf, x.length) ∧ FileRead w os i maxSize m buf x m1) ∨
      ∃ e, r = .error e ∧ ReadFailed m e m1)) ⟨rfl, readFile_ends i maxSize m⟩ ?_ ?_
  swap
  · rintro e m1 ⟨hread, ⟨_, _, hr, -⟩ | ⟨_, hr, hf⟩⟩ hne <;> cases hr
    rcases hf.kind with rfl | hk
    · exact absurd rfl hne
    obtain ⟨st, -, rfl⟩ := List.mem_map.mp hk
    refine ⟨fun hs => ?_, unread st m1 hread⟩
    obtain ⟨hist, ht, hev⟩ := hf.trace
    obtain ⟨x, hx, hbad⟩ := (starved_iff ht).mp hs
    obtain ⟨n, ok, rfl, hmem⟩ := hev x hx
    cases hbad with
    | alloc => rcases hmem rfl with h | h <;> cases h; rfl
  rintro ⟨buf, n⟩ m1 ⟨hread, ⟨_, x, hr, h1⟩ | ⟨_, hr, -⟩⟩ <;> cases hr
  obtain ⟨input, hspan, hden⟩ := spanAt_run h1.scope.holds
  have hin : input.size ≤ w.sizeT.max := hden.size.trans_le h1.le_size
  obtain ⟨hist, ht, hbad⟩ := hq input m1.st hin
  refine ends_scopeEnd (R := fun r m' => m'.st.trace = m1.st.trace ++ hist ∧ (∃ z, buf.Holds m'.st.heap.get z) ∧
    (r ≠ .error .powerLoss → ((∃ x ∈ hist, Event.NoMemory x) → r = .error (.status .errMemory)) ∧ X r)) ?_ ?_
  swap
  · rintro r m2 ⟨ht2, hz, hr⟩
    refine ⟨hz, fun m3 ht3 hne => ⟨fun hs => (hr hne).1 ?_, (hr hne).2⟩⟩
    have htrace : m3.st.trace = m.st.trace ++ (readEvents x.length ++ hist) := by
      rw [ht3, ht2, h1.trace, List.append_assoc]
    obtain ⟨ev, hev, hb⟩ := (starved_iff htrace).mp hs
    rcases List.mem_append.mp hev with hev | hev
    · -- the buffer of the input was there
      unfold readEvents at hev
      split at hev
      · cases hev
      · rw [List.mem_singleton.mp hev] at hb
        cases hb
    · exact ⟨ev, hev, hb⟩
  have hspan' : onSt (spanAt buf.ptr x.length) m1 = (.ok input, m1) := by rw [onSt_run, hspan]
  refine Ends.step hspan' (Ends.bind (R := fun r m2 => crypt input m1.st = (r, m2.st) ∧ m2 = { m1 with st := m2.st } ∧
    ((∃ (out : SecureBuffer) (b y : Bytes), r = .ok (out, b.length) ∧ b <+: y ∧
      InScope m1.st.heap m1.st.heap.get out y m2.st) ∨
      ∃ e, r = .error (.status e) ∧ Heap.Becomes m1.st.heap m2.st.heap m1.st.heap.get))
    (ends_onSt ⟨rfl, rfl, hc input m1.st hin⟩) ?_ ?_)
  swap
  · rintro e m2 ⟨hrun, -, ⟨_, _, _, hr, -⟩ | ⟨e', hr, hb⟩⟩ <;> cases hr
    rw [hrun] at ht hbad
    exact ⟨ht, ⟨x, (h1.scope.after hb).holds⟩, fun _ => ⟨fun h => congrArg _ (Except.error.inj (hbad h)),
      failed buf x.length m1 input e' m2.st hread hspan hrun⟩⟩
  rintro a m2 ⟨hrun, hm2, ⟨out, b, y, hr, hpre, hs⟩ | ⟨_, hr, -⟩⟩ <;> cases hr
  rw [hrun] at ht hbad
  rw [hm2]
  refine (made buf x.length m1 input out b y m2.st hread hspan hrun hpre hs).mono ?_
  rintro r m3 ⟨ht3, hst, hX⟩
  refine ⟨ht3.trans ht, ⟨x, ?_⟩, fun hne => ⟨fun h => (by cases hbad h), hX hne⟩⟩
  rcases hst with hb | hst
  · exact (h1.scope.after hb).holds
  · rw [hst]
    exact ((h1.scope.since hs).swap (h1.scope.holds.put_back _) h1.scope.fresh).1.holds

/-- A string that the call makes and that there is no memory for. -/
inductive StringFails (w : World) (os : Os) (crypt : Span → Run (SecureBuffer × ℕ)) (maxSize : UInt64)
    (inPath outPath : Option Path) (m : Machine) : Prop
  | input {i} (hi : inPath = some i) (h : os.string m.time .inputPath i.length = false)
  | output {i o} (hi : inPath = some i) (h : os.string m.time .inputPath i.length = true) (ho : outPath = some o)
      (h' : os.string m.time .outputPath o.length = false)
  | temporary {m2 o} (hr : Reaches w os crypt maxSize inPath outPath m m2 o) (h : ¬ Strings os m2.time o)

variable {inPath outPath : Option Path} {mode : UInt32}

/-- The copies of the path arguments are made inside of the `try`. -/
theorem toPaths_starved (h : (∃ i, inPath = some i ∧ os.string m.time .inputPath i.length = false) ∨
    ∃ i o, inPath = some i ∧ os.string m.time .inputPath i.length = true ∧ outPath = some o ∧
      os.string m.time .outputPath o.length = false)
    : toPaths os inPath outPath m = (.error (.status .errMemory), m) := by
  unfold toPaths catchBadAlloc
  rw [catch_apply]
  rcases h with ⟨i, rfl, hi⟩ | ⟨i, o, rfl, hi, rfl, ho⟩
  · rw [toPath, bind_assoc, bind_error (newString_bad (by rw [hi]; decide))]
    rfl
  · rw [toPath, bind_assoc, bind_ok (newString_ok hi), pure_bind, toPath, bind_assoc,
      bind_error (newString_bad (by rw [ho]; decide))]
    rfl

/-- The last step of `cryptFile`, from the buffer that was made. -/
theorem ends_writeOutput {out : SecureBuffer} {b y : Bytes} {o : Path} {m1 : Machine} {s2 : St} (hpre : b <+: y)
    (hs : InScope m1.st.heap m1.st.heap.get out y s2) :
    Ends (withBuffer out (writeFileAtomically os o out.ptr b.length mode))
      { m1 with st := s2 } fun r m' => m'.st.trace = s2.trace ∧ Heap.Becomes m1.st.heap m'.st.heap m1.st.heap.get ∧
        (¬ Strings os m1.time o → r = .error .badAlloc) ∧
          (Strings os m1.time o → ∀ e, r = .error e → Reported e) := by
  have hsup := supplies_of_holds hs.holds hpre
  refine Ends.always (R := fun r m' => m'.st = s2 ∧ (¬ Strings os m1.time o → r = .error .badAlloc) ∧
    (Strings os m1.time o → ∀ e, r = .error e → Reported e)) ?_ ?_
  · by_cases hstr : Strings os m1.time o
    · refine (writeFileAtomically_stays (m := { m1 with st := s2 }) hstr hsup).mono fun r m' h =>
        ⟨h.1, fun hn => absurd hstr hn, fun _ => h.2⟩
    · refine Ends.throwIf (fun hnull => ?_) fun _ => ?_
      · have hne : y ≠ [] := List.ne_nil_of_length_pos (lt_of_lt_of_le hnull.1 hpre.length_le)
        obtain ⟨_, -, hptr, -⟩ := hs.holds.ptr hne
        rw [hptr] at hnull
        cases hnull.2
      · exact Ends.of_eq (bind_error (temporaryFor_bad hstr)) ⟨rfl, fun _ => rfl, fun h => absurd h hstr⟩
  · rintro r m2 ⟨hst, hr⟩
    refine (ends_destroy (hst ▸ hs)).mono ?_
    rintro _ m3 ⟨rfl, -, ht, hb⟩
    exact ⟨fun e he => (by cases he), fun _ => ⟨ht.trans (by rw [hst]), hb, hr⟩⟩

/-- The string that fails is of a path that could not be copied, or the call got to `WriteFileAtomically`. -/
theorem StringFails.paths {r : Except Stop (Path × Path)} (h : StringFails w os crypt maxSize inPath outPath m)
    (hp : toPaths os inPath outPath m = (r, m)) : r = .error (.status .errMemory) ∨
      ∃ m2 o, Reaches w os crypt maxSize inPath outPath m m2 o ∧ ¬ Strings os m2.time o := by
  have copied (hs : (∃ i, inPath = some i ∧ os.string m.time .inputPath i.length = false) ∨
      ∃ i o, inPath = some i ∧ os.string m.time .inputPath i.length = true ∧ outPath = some o ∧
        os.string m.time .outputPath o.length = false) : r = .error (.status .errMemory) :=
    (Prod.mk.inj (hp.symm.trans (toPaths_starved hs))).1
  cases h with
  | input hi h => exact .inl (copied (.inl ⟨_, hi, h⟩))
  | output hi h ho h' => exact .inl (copied (.inr ⟨_, _, hi, h, ho, h'⟩))
  | temporary hr h => exact .inr ⟨_, _, hr, h⟩

section Reached

variable {i o : Path} {m2 : Machine}

/-- A call whose paths are copied gets to `WriteFileAtomically` with the second one, from what it read and made. -/
theorem Reaches.of_paths {o' : Path} (hr : Reaches w os crypt maxSize inPath outPath m m2 o')
    (hp : toPaths os inPath outPath m = (.ok (i, o), m)) : o' = o ∧ ∃ buf n m1 input a s2,
      readFile os w i maxSize m = (.ok (buf, n), m1) ∧ spanAt buf.ptr n m1.st = (.ok input, m1.st) ∧
        crypt input m1.st = (.ok a, s2) ∧ m2 = { m1 with st := s2 } := by
  obtain ⟨i', buf, n, m1, input, a, s2, hp', hrest⟩ := hr
  rw [hp] at hp'
  cases hp'
  exact ⟨rfl, buf, n, m1, input, a, s2, hrest⟩

theorem not_reaches_unread {e : Stop} {m1 : Machine} (hp : toPaths os inPath outPath m = (.ok (i, o), m))
    (hread : readFile os w i maxSize m = (.error e, m1)) : ¬ Reaches w os crypt maxSize inPath outPath m m2 o := by
  intro hr
  obtain ⟨-, _, _, _, _, _, _, hread', -⟩ := hr.of_paths hp
  rw [hread] at hread'
  cases hread'

theorem not_reaches_failed {buf : SecureBuffer} {n : ℕ} {m1 : Machine} {input : Span} {e : Stop} {s2 : St}
    (hp : toPaths os inPath outPath m = (.ok (i, o), m)) (hread : readFile os w i maxSize m = (.ok (buf, n), m1))
    (hspan : spanAt buf.ptr n m1.st = (.ok input, m1.st)) (hcrypt : crypt input m1.st = (.error e, s2)) :
    ¬ Reaches w os crypt maxSize inPath outPath m m2 o := by
  intro hr
  obtain ⟨-, _, _, _, _, _, _, hread', hspan', hcrypt', -⟩ := hr.of_paths hp
  rw [hread] at hread'
  cases hread'
  rw [hspan] at hspan'
  cases hspan'
  rw [hcrypt] at hcrypt'
  cases hcrypt'

end Reached

/-- **`mc_encrypt_file` and `mc_decrypt_file` are contained exactly if `WriteFileAtomically` has
memory for its strings**, if they get that far. -/
theorem cryptFile_contained (hc : Crypts w crypt) (hq : Careful w crypt) :
    Ends (cryptFile w os crypt maxSize mode inPath outPath) m fun r m' => r ≠ .error .powerLoss →
      (Contained (Starved m.st m'.st ∨ StringFails w os crypt maxSize inPath outPath m) r ↔
        ∀ m2 o, Reaches w os crypt maxSize inPath outPath m m2 o → Strings os m2.time o) := by
  rcases toPaths_run os inPath outPath m with ⟨i, o, hi, ho, hp⟩ | ⟨e, hp, -⟩
  swap
  · -- a path is null or was not copied
    have hnot : ∀ m2 o, ¬ Reaches w os crypt maxSize inPath outPath m m2 o := by
      rintro m2 o ⟨i, _, _, _, _, _, _, hp', -⟩
      rw [hp] at hp'
      cases hp'
    refine Ends.of_eq (bind_error hp) fun _ => ⟨fun _ m2 o hr => absurd hr (hnot m2 o), fun _ => ⟨?_, ?_⟩⟩
    · exact fun e' he => (by cases he; exact ⟨e, rfl⟩)
    · rintro (hs | hf)
      · exact absurd hs not_starved
      · obtain hr | ⟨m2, o, hr, -⟩ := hf.paths hp
        · cases hr
          rfl
        · exact absurd hr (hnot m2 o)
  have kind {e : McStatus} (hn : ∀ m2, ¬ Reaches w os crypt maxSize inPath outPath m m2 o) :
      (∀ m2, Reaches w os crypt maxSize inPath outPath m m2 o → ¬ Strings os m2.time o →
        (.error (.status e) : Except Stop Unit) = .error .badAlloc) ∧
      ((∀ m2, Reaches w os crypt maxSize inPath outPath m m2 o → Strings os m2.time o) →
        ∀ e', (.error (.status e) : Except Stop Unit) = .error e' → ∃ s, e' = .status s) :=
    ⟨fun m2 hr => absurd hr (hn m2), fun _ e' he => (by cases he; exact ⟨e, rfl⟩)⟩
  refine Ends.step hp ((ends_readCrypt (X := fun r => (∀ m2, Reaches w os crypt maxSize inPath outPath m m2 o →
      ¬ Strings os m2.time o → r = .error .badAlloc) ∧
      ((∀ m2, Reaches w os crypt maxSize inPath outPath m m2 o → Strings os m2.time o) →
        ∀ e, r = .error e → ∃ s, e = .status s))
    (k := fun b => withBuffer b.1 (writeFileAtomically os o b.1.ptr b.2 mode)) hc hq ?_ ?_ ?_).mono ?_)
  · exact fun e m1 hread => kind fun m2 => not_reaches_unread hp hread
  · exact fun buf n m1 input e s2 hread hspan hcrypt => kind fun m2 => not_reaches_failed hp hread hspan hcrypt
  · intro buf n m1 input out b y s2 hread hspan hcrypt hpre hs
    refine (ends_writeOutput hpre hs).mono ?_
    rintro r m3 ⟨ht, hb, hbad, hrep⟩
    refine ⟨ht, .inl hb, fun hne => ⟨fun m2 hr => ?_, fun hstr e he => ?_⟩⟩
    · obtain ⟨-, _, _, _, _, _, _, hread', -, -, rfl⟩ := hr.of_paths hp
      rw [hread] at hread'
      cases hread'
      exact hbad
    have hr : Reaches w os crypt maxSize inPath outPath m { m1 with st := s2 } o :=
      ⟨i, buf, n, m1, input, _, s2, hp, hread, hspan, hcrypt, rfl⟩
    rcases hrep (hstr { m1 with st := s2 } hr) e he with rfl | h
    · exact absurd he hne
    · exact h
  · intro r m' h hne
    obtain ⟨hmem, hbad, hok⟩ := h hne
    constructor
    · rintro hcont m2 o' hr
      obtain rfl := (hr.of_paths hp).1
      by_contra hstr
      obtain ⟨_, he⟩ := hcont.status _ (hbad m2 hr hstr)
      cases he
    · refine fun hall => ⟨hok fun m2 => hall m2 o, ?_⟩
      rintro (hs | hf)
      · exact hmem hs
      · obtain hpaths | ⟨m2, o', hr, h⟩ := hf.paths hp
        · cases hpaths
        · exact absurd (hall m2 o' hr) h

/-- `mc_decrypt_file_to_buffer` makes one string, inside of a `try`. -/
theorem mcDecryptFileToBuffer_contained {key : Span} {outNull outSizeNull : Bool} :
    Ends (mcDecryptFileToBuffer w os key inPath outNull outSizeNull) m fun r m' => r ≠ .error .powerLoss →
      Contained (Starved m.st m'.st ∨ (outNull = false ∧ outSizeNull = false ∧
        ∃ i, inPath = some i ∧ os.string m.time .inputPath i.length = false)) r := by
  refine Ends.throwIf (fun hnull _ => ⟨fun e he => (by cases he; exact ⟨_, rfl⟩), ?_⟩) fun _ => ?_
  · rintro (hs | ⟨rfl, rfl, -⟩)
    · exact absurd hs not_starved
    · simp at hnull
  have hstop {e : McStatus} (hp : catchBadAlloc (toPath os .inputPath inPath) m = (.error (.status e), m))
      (he : ∀ i, inPath = some i → e = .errMemory) :
      Ends (catchBadAlloc (toPath os .inputPath inPath) >>= fun inputPath =>
        readFile os w inputPath kMaxFileSize >>= fun a => withBuffer a.1 (onSt (spanAt a.1.ptr a.2) >>= fun input =>
          onSt (Decrypt.decryptBuffer w key input) >>= fun b => pure (handOff b.1 b.2))) m fun r m' =>
            r ≠ .error .powerLoss →
      Contained (Starved m.st m'.st ∨ (outNull = false ∧ outSizeNull = false ∧
        ∃ i, inPath = some i ∧ os.string m.time .inputPath i.length = false)) r := by
    refine Ends.of_eq (bind_error hp) fun _ => ⟨fun e' he' => (by cases he'; exact ⟨e, rfl⟩), ?_⟩
    rintro (hs | ⟨-, -, i, hi, -⟩)
    · exact absurd hs not_starved
    · rw [he i hi]
  rcases inPath with _ | i
  · exact hstop rfl fun i hi => (by cases hi)
  by_cases hi : os.string m.time .inputPath i.length = true
  swap
  · refine hstop (e := .errMemory) ?_ fun _ _ => rfl
    rw [catchBadAlloc, catch_apply, toPath, bind_error (newString_bad hi)]
    rfl
  have hp : catchBadAlloc (toPath os .inputPath (some i)) m = (.ok i, m) := by
    rw [catchBadAlloc, catch_apply, toPath, bind_ok (newString_ok hi)]
    rfl
  refine Ends.step hp ((ends_readCrypt (X := fun r => ∀ e, r = .error e → ∃ s, e = .status s)
    (k := fun b => pure (handOff b.1 b.2)) (crypts_decrypt w key) (careful_decrypt key) ?_ ?_ ?_).mono ?_)
  · exact fun e _ _ e' he => (by cases he; exact ⟨e, rfl⟩)
  · exact fun _ _ _ _ e _ _ _ _ e' he => (by cases he; exact ⟨e, rfl⟩)
  · exact fun _ _ _ _ _ _ _ s2 _ _ _ _ _ => ⟨rfl, .inr rfl, fun _ e he => (by cases he)⟩
  · intro r m' h hne
    refine ⟨(h hne).2, ?_⟩
    rintro (hs | ⟨-, -, i', hi', hf⟩)
    · exact (h hne).1 hs
    · cases hi'
      rw [hi] at hf
      cases hf

end Files

/-- **No exception crosses the C boundary, but for the strings of `WriteFileAtomically`.** The calls
on buffers and `mc_decrypt_file_to_buffer` are contained whatever fails; `mc_encrypt_file` and
`mc_decrypt_file` are exactly if there is memory for the strings of `WriteFileAtomically`, once
they get there. -/
theorem calls_contained (w : World) (os : Os) (key input : Span) (opts : Option EncryptOptions)
    (inPath outPath : Option Path) (outNull outSizeNull : Bool) (hin : input.size ≤ w.sizeT.max) :
    (∀ s, Ends (mcEncryptBuffer w key opts input outNull outSizeNull) s fun r s' => Contained (Starved s s') r) ∧
    (∀ s, Ends (mcDecryptBuffer w key input outNull outSizeNull) s fun r s' => Contained (Starved s s') r) ∧
    (∀ m, Ends (mcDecryptFileToBuffer w os key inPath outNull outSizeNull) m fun r m' => r ≠ .error .powerLoss →
      Contained (Starved m.st m'.st ∨ (outNull = false ∧ outSizeNull = false ∧
        ∃ i, inPath = some i ∧ os.string m.time .inputPath i.length = false)) r) ∧
    (∀ m, Ends (mcEncryptFile w os key opts inPath outPath) m fun r m' => r ≠ .error .powerLoss →
      (Contained (Starved m.st m'.st ∨ StringFails w os (Encrypt.encryptBuffer w key (opts.getD defaultOptions))
        mcMaxPlaintextSize inPath outPath m) r ↔
        ∀ m2 o, Reaches w os (Encrypt.encryptBuffer w key (opts.getD defaultOptions)) mcMaxPlaintextSize inPath outPath
          m m2 o → Strings os m2.time o)) ∧
    ∀ m, Ends (mcDecryptFile w os key inPath outPath) m fun r m' => r ≠ .error .powerLoss →
      (Contained (Starved m.st m'.st ∨ StringFails w os (Decrypt.decryptBuffer w key) kMaxFileSize inPath outPath m) r ↔
        ∀ m2 o, Reaches w os (Decrypt.decryptBuffer w key) kMaxFileSize inPath outPath m m2 o → Strings os m2.time o) :=
  ⟨fun _ => contained_call (crypts_encrypt w key _) (careful_encrypt key _) hin,
    fun _ => contained_call (crypts_decrypt w key) (careful_decrypt key) hin,
    fun _ => mcDecryptFileToBuffer_contained,
    fun _ => cryptFile_contained (crypts_encrypt w key _) (careful_encrypt key _),
    fun _ => cryptFile_contained (crypts_decrypt w key) (careful_decrypt key)⟩

/-- A call that has no memory for the file it reads reports that. -/
theorem emptyMemory_contained :
    (mcEncryptFile { sampleWorld with alloc := fun _ _ => false } (sampleOs 3) sampleKey (some rawOptions) (some sampleIn)
      (some sampleOut) (sampleMachine sampleFile)).1 = .error (.status .errMemory) := by
  obtain ⟨-, -, -, hencrypt, -⟩ := calls_contained { sampleWorld with alloc := fun _ _ => false } (sampleOs 3) sampleKey
    (.bytes []) (some rawOptions) (some sampleIn) (some sampleOut) false false (by decide)
  have hcont := (hencrypt (sampleMachine sampleFile) (by decide +kernel)).mpr fun _ _ _ => ⟨rfl, fun _ => rfl, rfl, rfl⟩
  exact hcont.memory (.inl ⟨.alloc .fileContents 3 false, by decide +kernel, .alloc _ _⟩)

/-- **An exception crosses the boundary.** Every call succeeds and there is memory for all but one string,
the path of the temporary file, which is made in `WriteFileAtomically`: `std::bad_alloc` leaves
`mc_encrypt_file`. -/
theorem template_throws :
    (mcEncryptFile sampleWorld { sampleOs 3 with string := fun _ site _ => decide (site ≠ .template) } sampleKey
      (some rawOptions) (some sampleIn) (some sampleOut) (sampleMachine sampleFile)).1 = .error .badAlloc ∧
    ∀ failed, ¬ Contained failed
      (mcEncryptFile sampleWorld { sampleOs 3 with string := fun _ site _ => decide (site ≠ .template) } sampleKey
        (some rawOptions) (some sampleIn) (some sampleOut) (sampleMachine sampleFile)).1 := by
  have hrun : (mcEncryptFile sampleWorld { sampleOs 3 with string := fun _ site _ => decide (site ≠ .template) } sampleKey
      (some rawOptions) (some sampleIn) (some sampleOut) (sampleMachine sampleFile)).1 = .error .badAlloc := by
        decide +kernel
  refine ⟨hrun, fun failed hcont => ?_⟩
  obtain ⟨_, he⟩ := hcont.status _ hrun
  cases he

end ModelCrypt
