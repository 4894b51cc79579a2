/-
# What is given back

A call on files, and each part of the tool, opens one file at a time and closes it
on every path before it returns: when it is back, every descriptor that it opened
is closed, and those that were there before are as they were, open or closed and
at their positions. Only a run that does not come back leaves one open. The memory
of the library is given back in the same way, and zero.

Key definitions: `Closed`, `OneOpen`, `Releases`, `Wipes`.
Key theorems: `releases_readFile`, `releases_writeFileAtomically`, `calls_release`, `tool_releases`, `tool_wipes`.
-/
import ModelCrypt.Lib.Triple
import ModelCrypt.ToolSafety
import ModelCrypt.Linearization

namespace ModelCrypt

open Lib Prog Fileio

/-- The first descriptors are `fds`, and all others are closed. -/
def Closed (fds now : List Descriptor) : Prop := ∃ new, now = fds ++ new ∧ ∀ e ∈ new, e.isOpen = false

/-- The same, but for the last one, number `fd`. -/
def OneOpen (fds : List Descriptor) (fd : ℕ) (now : List Descriptor) : Prop :=
  ∃ l e, now = l ++ [e] ∧ fd = l.length ∧ Closed fds l

/-- A stop that does not come back: the power is gone, or an access went astray. -/
def Halted (e : Stop) : Prop := e = .powerLoss ∨ ∃ f, e = .fault f

/-- Where a stop leaves the descriptors. -/
def Left (fds : List Descriptor) (e : Stop) (m : Machine) : Prop := Halted e ∨ Closed fds m.fds

/-- It closes what it opens. -/
def Releases (fds : List Descriptor) {α : Type} (p : Sys α) : Prop :=
  Triple (fun m => Closed fds m.fds) p (fun _ m => Closed fds m.fds) (Left fds)

/-- It closes the descriptor `fd`, with what else it opens. -/
def Shuts (fds : List Descriptor) (fd : ℕ) {α : Type} (p : Sys α) : Prop :=
  Triple (fun m => OneOpen fds fd m.fds) p (fun _ m => Closed fds m.fds) (Left fds)

/-- It uses the descriptor `fd`, and comes back with it open. -/
def Uses (fds : List Descriptor) (fd : ℕ) {α : Type} (p : Sys α) : Prop :=
  Triple (fun m => OneOpen fds fd m.fds) p (fun _ m => OneOpen fds fd m.fds) fun e _ => Halted e

/-- A run of the process that stops early only where an access goes astray. -/
def Astray {α : Type} (r : Run α) : Prop := Stays (fun _ => True) Halted r

/-! ### Descriptors -/

theorem modify_last {α : Type} (l : List α) (e : α) (f : α → α) : (l ++ [e]).modify l.length f = l ++ [f e] := by
  induction l with
  | nil => rfl
  | cons a l ih => exact congrArg (a :: ·) ih

section Lists

variable {fds now : List Descriptor} {fd : ℕ} {m : Machine}

theorem Closed.refl (fds : List Descriptor) : Closed fds fds := ⟨[], (List.append_nil fds).symm, fun _ h => by cases h⟩

theorem Closed.push (h : Closed fds m.fds) (inode : ℕ) : OneOpen fds m.fds.length (m.push inode).fds :=
  ⟨m.fds, _, rfl, rfl, h⟩

theorem OneOpen.seek (h : OneOpen fds fd m.fds) (n : ℕ) : OneOpen fds fd (m.seek fd n).fds := by
  obtain ⟨l, e, hl, rfl, hc⟩ := h
  exact ⟨l, _, by rw [Machine.seek, hl, modify_last], rfl, hc⟩

theorem OneOpen.shut (h : OneOpen fds fd m.fds) : Closed fds (m.shut fd).fds := by
  obtain ⟨l, e, hl, rfl, new, rfl, hnew⟩ := h
  refine ⟨new ++ [{ e with isOpen := false }], by rw [Machine.shut, hl, modify_last, List.append_assoc], ?_⟩
  intro e' he
  rcases List.mem_append.mp he with he | he
  · exact hnew e' he
  · rw [List.mem_singleton.mp he]

end Lists

/-! ### The rules -/

section Rules

variable {α β : Type} {fds : List Descriptor} {fd : ℕ} {p : Sys α} {f : α → Sys β} {e : Stop}

theorem Releases.bind (hp : Releases fds p) (hf : ∀ a, Releases fds (f a)) : Releases fds (p >>= f) := Triple.bind hp hf

theorem Shuts.bind (hp : Shuts fds fd p) (hf : ∀ a, Releases fds (f a)) : Shuts fds fd (p >>= f) := Triple.bind hp hf

theorem Uses.bind (hp : Uses fds fd p) (hf : ∀ a, Shuts fds fd (f a)) : Shuts fds fd (p >>= f) :=
  Triple.bind (hp.stop_mono fun _ _ h => .inl h) hf

theorem Uses.and_then (hp : Uses fds fd p) (hf : ∀ a, Uses fds fd (f a)) : Uses fds fd (p >>= f) := Triple.bind hp hf

theorem releases_pure (a : α) : Releases fds (pure a : Sys α) :=
    Triple.pure (Q := fun _ (m : Machine) => Closed fds m.fds)

theorem releases_throw (e : Stop) : Releases fds (throw e : Sys α) :=
  Triple.throw.conseq (fun _ h => .inr h) (fun _ _ h => h) fun _ _ h => h

theorem releases_throw_bind (e : Stop) : Releases fds ((throw e : Sys α) >>= f) :=
  Triple.bind (R := fun _ _ => False) (Triple.throw.conseq (fun _ h => .inr h) (fun _ _ h => h) fun _ _ h => h)
    fun _ _ h => h.elim

theorem uses_pure (a : α) : Uses fds fd (pure a : Sys α) := Triple.pure (Q := fun _ (m : Machine) => OneOpen fds fd m.fds)

theorem releases_keeps (h : Keeps Machine.fds p) : Releases fds p :=
  (Triple.of_keeps h (Closed fds)).stop_mono fun _ _ h => .inr h

theorem releases_syscall {f : ℕ → Machine → α × Machine} (hf : ∀ t m, (f t m).2.fds = m.fds) : Releases fds (syscall f) :=
  releases_keeps (keeps_syscall (fun _ _ _ => rfl) hf)

theorem uses_syscall {f : ℕ → Machine → α × Machine}
    (hf : ∀ t m, OneOpen fds fd m.fds → OneOpen fds fd (f t m).2.fds) : Uses fds fd (syscall f) := fun m hm =>
  ends_syscall ⟨fun _ h => (by cases h), fun _ h => (by cases h; exact .inl rfl)⟩
    fun _ _ => ⟨fun _ _ => hf _ m hm, fun _ h => by cases h⟩

theorem releases_onSt (r : Run α) : Releases fds (onSt r) := releases_keeps (keeps_onSt fun _ _ => rfl)

/-- A run of the process that can only fail by going astray. -/
theorem uses_onSt {r : Run α} (hr : Astray r) : Uses fds fd (onSt r) := by
  intro m hm
  rw [Ends, onSt_run]
  exact ⟨fun _ _ => hm, (hr m.st trivial).2⟩

theorem shuts_sysClose (os : Os) : Shuts fds fd (sysClose os fd) := fun m hm =>
  ends_syscall ⟨fun _ h => (by cases h), fun _ h => (by cases h; exact .inl (.inl rfl))⟩
    fun _ _ => ⟨fun _ _ => hm.shut, fun _ h => by cases h⟩

end Rules

/-! ### Memory -/

section Memory

theorem astray_load (p : Ptr) (n : ℕ) : Astray (load p n) := fun s _ => by
  refine ⟨trivial, fun e he => ?_⟩
  unfold load inBlock at he
  rcases hl : s.heap.load p n with _ | x <;> rw [hl] at he <;> cases he
  exact .inr ⟨_, rfl⟩

theorem astray_store (p : Ptr) (x : Bytes) : Astray (store p x) := fun s _ => by
  refine ⟨trivial, fun e he => ?_⟩
  unfold store at he
  split at he <;> cases he
  exact .inr ⟨_, rfl⟩

theorem astray_deleteBlock (b : ℕ) : Astray (deleteBlock b) := fun s _ => by
  refine ⟨trivial, fun e he => ?_⟩
  unfold deleteBlock at he
  split at he <;> cases he
  exact .inr ⟨_, rfl⟩

theorem astray_destroy (buf : SecureBuffer) : Astray (destroy buf) := by
  refine Stays.bind ?_ fun _ => Stays.pure
  unfold wipeAndFree
  split
  · exact Stays.pure
  · refine Stays.bind ?_ fun _ => (astray_deleteBlock _).bind fun _ => Stays.pure
    unfold secureWipe
    split
    · exact Stays.pure
    · exact astray_store _ _

end Memory

/-! ### Reading a file -/

section Read

variable {α : Type} {fds : List Descriptor} {fd : ℕ} {os : Os} {w : World} {f : Unit → Sys α}

/-- A buffer dies after a stop; the descriptors are as they were. -/
theorem destroy_left (buf : SecureBuffer) (e : Stop) :
    Triple (Left fds e) (onSt (destroy buf)) (fun _ => Left fds e) (Left fds) := by
  intro m hm
  rw [Ends, onSt_run]
  exact ⟨fun _ _ => hm, fun e' he => .inl ((astray_destroy buf m.st trivial).2 e' he)⟩

theorem releases_withBuffer {buf : SecureBuffer} {body : Sys α} (h : Releases fds body) :
    Releases fds (withBuffer buf body) :=
  Triple.always h (fun _ => releases_onSt _) fun e => destroy_left buf e

theorem shuts_onStop {buf : SecureBuffer} {body : Sys α} (h : Shuts fds fd body) :
    Shuts fds fd (onStop body (onSt (destroy buf))) := Triple.onStop h fun e => destroy_left buf e

theorem shuts_close_throw (s : McStatus) : Shuts fds fd (do let _ ← sysClose os fd; throw (.status s) : Sys α) :=
  (shuts_sysClose os).bind fun _ => releases_throw _

theorem shuts_closeIf {c : Prop} [Decidable c] {s : McStatus} (hf : ¬ c → Shuts fds fd (f ())) :
    Shuts fds fd (closeIf os fd c s >>= f) := by
  unfold closeIf
  split
  · rw [bind_assoc]
    exact (shuts_sysClose os).bind fun _ => releases_throw_bind _
  · rename_i hc
    exact hf hc

theorem uses_transferFully {call : ℕ → Sys Transfer} {stopAtZero : Bool} {size : ℕ}
    (h : ∀ done, Uses fds fd (call done)) :
    Uses fds fd (transferFully call stopAtZero size) := by
  intro m hm
  refine transferFully_ends (I := fun _ m => OneOpen fds fd m.fds) hm (fun done m1 _ h1 => ?_) ?_ ?_
  · refine (h done m1 h1).mono fun r m2 h2 => ⟨fun e he => ⟨fun _ ha => (by cases ha), fun _ h' => ?_⟩,
      fun hr => h2.1 _ hr, fun hr => ⟨fun _ _ => h2.1 _ hr, fun _ h' => by cases h'⟩,
      fun n hr => ⟨fun _ => ⟨fun _ _ => h2.1 _ hr, fun _ h' => by cases h'⟩, fun _ => h2.1 _ hr⟩⟩
    cases h'
    exact h2.2 e he
  · exact fun _ _ _ h1 => ⟨fun _ _ => h1, fun _ h' => by cases h'⟩
  · exact fun _ _ _ => ⟨fun _ h' => (by cases h'), fun _ h' => (by cases h'; exact .inl rfl)⟩

theorem readTransfer_open (n t : ℕ) {m : Machine} (h : OneOpen fds fd m.fds) :
    OneOpen fds fd (readTransfer os fd n t m).2.fds := by
  unfold readTransfer
  split
  · exact h
  · exact h.seek _
  · exact h

theorem uses_sysRead (out : Ptr) (n : ℕ) : Uses fds fd (sysRead os fd out n) := by
  refine (uses_syscall fun t m h => readTransfer_open n t h).and_then fun r => ?_
  exact (uses_onSt (astray_store _ _)).and_then fun _ => uses_pure r.1

theorem triple_sysOpen (path : Path) : Triple (fun m => Closed fds m.fds) (sysOpen os path)
    (fun r m => r.elim (Closed fds m.fds) fun fd => OneOpen fds fd m.fds) (Left fds) := fun m hm =>
  ends_syscall ⟨fun _ h => (by cases h), fun _ h => (by cases h; exact .inl (.inl rfl))⟩ fun _ _ => by
    split
    · split
      · exact ⟨fun _ h => (by cases h; exact hm.push _), fun _ h => by cases h⟩
      · exact ⟨fun _ h => (by cases h; exact hm), fun _ h => by cases h⟩
    · exact ⟨fun _ h => (by cases h; exact hm), fun _ h => by cases h⟩

theorem releases_readFile (path : Path) (maxSize : UInt64) : Releases fds (readFile os w path maxSize) := by
  refine Triple.bind (triple_sysOpen path) fun fd => ?_
  rcases fd with _ | fd
  · exact releases_throw _
  change Shuts fds fd _
  refine (uses_syscall fun _ _ h => h).bind fun st => ?_
  rcases st with _ | st
  · exact shuts_close_throw _
  refine shuts_closeIf fun _ => shuts_closeIf fun _ => shuts_closeIf fun _ => ?_
  refine (uses_onSt fun s _ => ⟨trivial, fun e he => ?_⟩).bind fun r => shuts_onStop (shuts_closeIf fun _ => ?_)
  · obtain ⟨_, _, hok, -⟩ := ends_reset w st.size.toNat s
    rw [hok] at he
    cases he
  · unfold readAll
    split
    · rw [bind_assoc]
      refine (uses_transferFully fun _ => uses_sysRead _ _).bind fun _ => shuts_closeIf fun _ => ?_
      exact (shuts_sysClose os).bind fun _ => releases_pure _
    · exact (uses_pure ()).bind fun _ => (shuts_sysClose os).bind fun _ => releases_pure _

end Read

/-! ### Writing a file -/

section Write

variable {fds : List Descriptor} {fd : ℕ} {os : Os} {path : Path}

theorem keeps_newString (site : StringSite) (n : ℕ) : Keeps Machine.fds (newString os site n) := fun m => by
  rw [newString_run]

theorem keeps_temporaryFor (path : Path) : Keeps Machine.fds (temporaryFor os path) := fun m => by
  by_cases h : Strings os m.time path
  · rw [temporaryFor_ok h]
  · rw [temporaryFor_bad h]

theorem releases_sysUnlink (path : Path) : Releases fds (sysUnlink os path) := releases_syscall fun _ _ => by
  split
  · split <;> rfl
  · rfl

theorem releases_sysRename (source target : Path) : Releases fds (sysRename os source target) :=
  releases_syscall fun _ _ => by
    split
    · split <;> rfl
    · rfl

theorem releases_unlinkIf {c : Prop} [Decidable c] : Releases fds (unlinkIf os path c) := by
  unfold unlinkIf
  split
  · exact (releases_sysUnlink path).bind fun _ => releases_throw _
  · exact releases_pure ()

theorem shuts_discardIf {α : Type} {c : Prop} [Decidable c] {f : Unit → Sys α} (hf : ¬ c → Shuts fds fd (f ())) :
    Shuts fds fd (discardIf os fd path c >>= f) := by
  unfold discardIf
  split
  · rw [bind_assoc]
    refine (shuts_sysClose os).bind fun _ => ?_
    rw [bind_assoc]
    exact (releases_sysUnlink path).bind fun _ => releases_throw_bind _
  · rename_i hc
    exact hf hc

theorem uses_sysFchmod (mode : UInt32) : Uses fds fd (sysFchmod os fd mode) := uses_syscall fun _ _ h => by
  split
  · split <;> exact h
  · exact h

theorem uses_sysFsync : Uses fds fd (sysFsync os fd) := uses_syscall fun _ _ h => by
  split
  · split <;> exact h
  · exact h

theorem writeTransfer_open (x : Bytes) (t : ℕ) {m : Machine} (h : OneOpen fds fd m.fds) :
    OneOpen fds fd (writeTransfer os fd x t m).2.fds := by
  unfold writeTransfer
  split
  · exact h
  · exact OneOpen.seek (m := Machine.touch _ _ _) h _
  · exact h

theorem triple_sysMkstemp (template : Path) : Triple (fun m => Closed fds m.fds) (sysMkstemp os template)
    (fun r m => r.elim (Closed fds m.fds) fun made => OneOpen fds made.1 m.fds) (Left fds) := fun m hm =>
  ends_syscall ⟨fun _ h => (by cases h), fun _ h => (by cases h; exact .inl (.inl rfl))⟩ fun _ _ => by
    have hkept : Closed fds m.fds := hm
    split
    · exact ⟨fun _ h => (by cases h; exact hkept), fun _ h => by cases h⟩
    split
    · exact ⟨fun _ h => (by cases h; exact hkept), fun _ h => by cases h⟩
    split
    · exact ⟨fun _ h => (by cases h; exact Closed.push (m := { m with disk := _ }) hkept _), fun _ h => by cases h⟩
    · exact ⟨fun _ h => (by cases h; exact hkept), fun _ h => by cases h⟩

theorem releases_writeFileAtomically (path : Path) (data : Ptr) (size : ℕ) (mode : UInt32) :
    Releases fds (writeFileAtomically os path data size mode) := by
  refine (releases_keeps Keeps.throwIf).bind fun _ => (releases_keeps (keeps_temporaryFor path)).bind fun t => ?_
  refine Triple.bind (triple_sysMkstemp t) fun made => ?_
  rcases made with _ | ⟨fd, mutablePath⟩
  · exact releases_throw _
  change Shuts fds fd _
  refine (uses_sysFchmod mode).bind fun _ => shuts_discardIf fun _ => ?_
  have hrest : Shuts fds fd (do
      let synced ← sysFsync os fd
      discardIf os fd mutablePath (synced = false)
      let closed ← sysClose os fd
      unlinkIf os mutablePath (closed = false)
      let renamed ← sysRename os mutablePath path
      unlinkIf os mutablePath (renamed = false)) :=
    uses_sysFsync.bind fun _ => shuts_discardIf fun _ => (shuts_sysClose os).bind fun _ => releases_unlinkIf.bind fun _ =>
      (releases_sysRename _ _).bind fun _ => releases_unlinkIf
  unfold writeAll
  split
  · rw [bind_assoc]
    refine (uses_transferFully fun _ => ?_).bind fun _ => shuts_discardIf fun _ => hrest
    exact (uses_onSt (astray_load _ _)).and_then fun x => uses_syscall fun t m h => writeTransfer_open x t h
  · exact (uses_pure ()).bind fun _ => hrest

end Write

/-! ### The calls on files -/

section Calls

variable {fds : List Descriptor} {w : World} {os : Os}

theorem releases_toPath (site : StringSite) (path : Option Path) : Releases fds (toPath os site path) := by
  rcases path with _ | path
  · exact releases_throw _
  · exact (releases_keeps (keeps_newString _ _)).bind fun _ => releases_pure _

/-- A handler that lets through what does not come back. -/
theorem releases_catch {α : Type} {p : Sys α} {handler : Stop → Sys α} (h : Releases fds p)
    (hh : ∀ e, Releases fds (handler e)) (hthrow : ∀ e, Halted e → handler e = throw e) :
    Releases fds (tryCatchThe Stop p handler) := by
  refine Triple.tryCatch h fun e => ?_
  rintro m (he | hm)
  · rw [hthrow e he]
    exact ⟨fun _ h => (by cases h), fun _ h => (by cases h; exact .inl he)⟩
  · exact hh e m hm

theorem releases_catchBadAlloc {α : Type} {p : Sys α} (h : Releases fds p) : Releases fds (catchBadAlloc p) := by
  refine releases_catch h (fun e => ?_) fun e he => ?_
  · rcases e with _ | _ | _ | _ <;> exact releases_throw _
  · rcases he with rfl | ⟨_, rfl⟩ <;> rfl

theorem releases_cryptFile (crypt : Span → Run (SecureBuffer × ℕ)) (maxSize : UInt64) (mode : UInt32)
    (inPath outPath : Option Path) : Releases fds (cryptFile w os crypt maxSize mode inPath outPath) := by
  refine (releases_catchBadAlloc ((releases_toPath _ inPath).bind fun _ => (releases_toPath _ outPath).bind fun _ =>
    releases_pure _)).bind fun paths => (releases_readFile paths.1 maxSize).bind fun source => releases_withBuffer ?_
  exact (releases_onSt _).bind fun input => (releases_onSt _).bind fun result =>
    releases_withBuffer (releases_writeFileAtomically _ _ _ _)

theorem releases_decryptFileToBuffer (key : Span) (inPath : Option Path) (outNull outSizeNull : Bool) :
    Releases fds (mcDecryptFileToBuffer w os key inPath outNull outSizeNull) := by
  refine (releases_keeps Keeps.throwIf).bind fun _ => (releases_catchBadAlloc (releases_toPath _ inPath)).bind fun path =>
    (releases_readFile path kMaxFileSize).bind fun source => releases_withBuffer ?_
  exact (releases_onSt _).bind fun input => (releases_onSt _).bind fun result => releases_pure _

end Calls

/-- A run that does not go astray comes back with everything closed, or the power is lost. -/
theorem Releases.ends {α : Type} {p : Sys α} {m : Machine} (h : Releases m.fds p)
    (hp : Ends p m fun x _ => ∀ f, x ≠ .error (.fault f)) :
    Ends p m fun x m' => x ≠ .error .powerLoss → Closed m.fds m'.fds := by
  have h1 := h m (.refl m.fds)
  unfold Ends at h1 hp ⊢
  rcases hx : p m with ⟨e | a, m'⟩ <;> rw [hx] at h1 hp
  · intro hne
    rcases h1.2 e rfl with (rfl | ⟨f, rfl⟩) | hc
    · exact absurd rfl hne
    · exact absurd rfl (hp f)
    · exact hc
  · exact fun _ => h1.1 a rfl

theorem not_fault {e : Stop} (h : Cli.Called e) (f : Fault) : e ≠ .fault f := by
  rintro rfl
  rcases h with (h | h) | ⟨_, h⟩ <;> cases h

/-- **A call on files closes what it opens**: unless the power is lost, every descriptor that was made is closed when it
is back, and those of the caller are as they were. -/
theorem calls_release (w : World) (os : Os) (key : Span) (inPath : Option Path) (r : Request) (m : Machine) :
    Ends (r.call w os key inPath) m fun x m' => x ≠ .error .powerLoss → Closed m.fds m'.fds := by
  have hcrypt {crypt : Span → Run (SecureBuffer × ℕ)} (hc : Crypts w crypt) (hq : Careful w crypt) (maxSize : UInt64)
      (mode : UInt32) (o : Option Path) : Ends (cryptFile w os crypt maxSize mode inPath o) m fun x m' =>
        x ≠ .error .powerLoss → Closed m.fds m'.fds :=
    (releases_cryptFile crypt maxSize mode inPath o).ends ((Cli.cryptFile_called hc hq maxSize mode inPath o m).mono
      fun x _ h f hx => not_fault (h _ hx) f rfl)
  cases r with
  | encrypt opts o => exact hcrypt (crypts_encrypt w key _) (careful_encrypt key _) _ _ o
  | decrypt o => exact hcrypt (crypts_decrypt w key) (careful_decrypt key) _ _ o
  | decryptToBuffer a b =>
    refine (releases_decryptFileToBuffer key inPath a b).ends (mcDecryptFileToBuffer_contained.mono fun x _ h f hx => ?_)
    obtain ⟨s, hs⟩ := (h (by rw [hx]; exact fun he => by cases he)).status _ hx
    cases hs

/-! ### The tool -/

section Tool

open Cli

variable {fds : List Descriptor} {fd : ℕ} {w : World} {os : Os} {con : Console} {args : Args}

theorem uses_freadLoop (size rounds : ℕ) (x : Bytes) : Uses fds fd (freadLoop os fd size rounds x) :=
  Sequenced.freadLoop ⟨uses_pure, Uses.and_then⟩ (fun n => uses_syscall fun t _ h => readTransfer_open n t h) rounds x

theorem releases_attempt {α : Type} {p : Sys α} (h : Releases fds p) : Releases fds (attempt p) := by
  refine releases_catch (h.bind fun _ => releases_pure _) (fun e => ?_) fun e he => ?_
  · rcases e with _ | _ | _ | _
    · exact releases_pure _
    · exact releases_throw _
    · exact releases_throw _
    · exact releases_throw _
  · rcases he with rfl | ⟨_, rfl⟩ <;> rfl

theorem interactive_releases (fds : List Descriptor) : Interactive (Releases fds) where
  pure := releases_pure
  bind := Releases.bind
  badAlloc _ := releases_keeps (Keeps.bind (fun _ => rfl) fun _ => Keeps.throwIf)
  ask _ := releases_syscall fun _ _ => rfl

theorem releases_readKeyFile (path : Path) (key : KeyBytes) : Releases fds (readKeyFile os con path key) := by
  refine Triple.bind (triple_sysOpen path) fun fd => ?_
  rcases fd with _ | fd
  · exact releases_pure _
  change Shuts fds fd _
  refine (uses_freadLoop _ _ []).bind fun read => (shuts_sysClose os).bind fun _ => ?_
  split
  · exact releases_pure _
  · exact ((interactive_releases fds).assign con key _).bind fun _ => releases_pure _

theorem triple_sysCreate (path : Path) (mode : UInt32) : Triple (fun m => Closed fds m.fds) (sysCreate os path mode)
    (fun r m => r.elim (Closed fds m.fds) fun fd => OneOpen fds fd m.fds) (Left fds) := fun m hm =>
  ends_syscall ⟨fun _ h => (by cases h), fun _ h => (by cases h; exact .inl (.inl rfl))⟩ fun _ _ => by
    have hkept : Closed fds m.fds := hm
    split
    · exact ⟨fun _ h => (by cases h; exact hkept), fun _ h => by cases h⟩
    split
    · exact ⟨fun _ h => (by cases h; exact Closed.push (m := { m with disk := _ }) hkept _), fun _ h => by cases h⟩
    · exact ⟨fun _ h => (by cases h; exact hkept), fun _ h => by cases h⟩

theorem releases_runKeygen : Releases fds (runKeygen w os con args) := by
  unfold runKeygen
  split
  · exact releases_pure _
  refine (releases_attempt (releases_onSt _)).bind fun raw => ?_
  rcases raw with _ | raw
  · exact releases_pure _
  refine Triple.bind (triple_sysCreate args.out 0o600) fun fd => ?_
  rcases fd with _ | fd
  · exact releases_pure _
  change Shuts fds fd _
  refine (uses_syscall fun t m h => writeTransfer_open _ t h).bind fun written => (shuts_sysClose os).bind fun _ => ?_
  split <;> exact releases_pure _

theorem releases_runInspect : Releases fds (runInspect os con args) := by
  unfold runInspect
  split
  · exact releases_pure _
  refine Triple.bind (triple_sysOpen args.input) fun fd => ?_
  rcases fd with _ | fd
  · exact releases_pure _
  change Shuts fds fd _
  refine (uses_freadLoop _ _ []).bind fun read => (shuts_sysClose os).bind fun _ => ?_
  refine (releases_attempt (releases_onSt _)).bind fun rc => ?_
  rcases rc with _ | _ <;> exact releases_pure _

/-- **The tool closes what it opens**, with every exit code. -/
theorem tool_releases (w : World) (os : Os) (con : Console) (mem : ℕ → ℕ → Bool) (argv : List Text) (m : Machine) :
    Ends (main w os con mem argv) m fun r m' => r ≠ .error .powerLoss → Closed m.fds m'.fds := by
  have hrun : Releases m.fds (run w os con mem argv) := (interactive_releases m.fds).run releases_readKeyFile
    (fun _ _ _ _ => releases_attempt (releases_cryptFile _ _ _ _ _))
    (fun _ _ _ => releases_attempt (releases_cryptFile _ _ _ _ _)) (fun _ => releases_runKeygen)
    (fun _ => releases_runInspect) mem argv
  have hends := hrun.ends (run_exits.mono fun r _ h f hf => by rcases h.stop _ hf with he | he <;> cases he)
  unfold Ends at hends ⊢
  rw [main, catch_apply]
  rcases hr : run w os con mem argv m with ⟨(_ | _ | _ | _) | o, m'⟩ <;> rw [hr] at hends
  · exact fun _ => hends fun h => by cases h
  · exact fun _ => hends fun h => by cases h
  · exact fun _ => hends fun h => by cases h
  · exact fun hne => absurd rfl hne
  · exact fun _ => hends fun h => by cases h

end Tool

/-! ### Memory -/

/-- It leaves the blocks in use as they were, and what it frees is zero then. -/
def Wipes {α : Type} (p : Sys α) : Prop := ∀ m, Ends p m fun _ m' => Heap.Becomes m.st.heap m'.st.heap m.st.heap.get

section Wipes

open Cli

variable {α β : Type} {p : Sys α} {f : α → Sys β} {w : World} {os : Os} {con : Console} {args : Args}

theorem wipes_keeps (h : Keeps (fun m : Machine => m.st.heap) p) : Wipes p := by
  intro m
  have hsame : (p m).2.st.heap = m.st.heap := h m
  show Heap.Becomes m.st.heap (p m).2.st.heap m.st.heap.get
  rw [hsame]
  exact .refl _

theorem Wipes.bind (hp : Wipes p) (hf : ∀ a, Wipes (f a)) : Wipes (p >>= f) := by
  intro m
  refine Ends.bind (hp m) (fun a m1 h1 => (hf a m1).mono fun _ m2 h2 => ?_) fun _ _ h1 => h1
  exact (h1.trans h2).cast h1.get_eq

theorem wipes_syscall {f : ℕ → Machine → α × Machine} (hf : ∀ t m, (f t m).2.st = m.st) : Wipes (syscall f) :=
  wipes_keeps (keeps_syscall (fun _ _ _ => rfl) fun t m => by rw [hf])

theorem interactive_wipes : Interactive Wipes where
  pure _ := wipes_keeps Keeps.pure
  bind := Wipes.bind
  badAlloc _ := wipes_keeps (Keeps.bind (fun _ => rfl) fun _ => Keeps.throwIf)
  ask _ := wipes_syscall fun _ _ => rfl

theorem wipes_attempt (h : Wipes p) : Wipes (attempt p) := fun m => by
  have h1 := h m
  unfold Ends at h1 ⊢
  rwa [attempt_run]

theorem wipes_looks (h : Looks p) : Wipes p := wipes_keeps fun m => congrArg St.heap (h.ends m).1

theorem wipes_cryptFile {crypt : Span → Run (SecureBuffer × ℕ)} (hc : Crypts w crypt) (maxSize : UInt64) (mode : UInt32)
    (inPath outPath : Option Path) : Wipes (cryptFile w os crypt maxSize mode inPath outPath) := fun m =>
  (cryptFile_ends w os hc maxSize mode inPath outPath m).mono fun _ _ h => h.2

theorem wipes_runKeygen : Wipes (runKeygen w os con args) := by
  unfold runKeygen
  split
  · exact interactive_wipes.pure _
  have hgen : Keeps St.heap (mcGenerateKey w 32) := Keeps.zoom fun _ _ => rfl
  refine (wipes_attempt (wipes_keeps fun m => ?_)).bind fun raw => ?_
  · show (onSt (mcGenerateKey w 32) m).2.st.heap = m.st.heap
    rw [onSt_run]
    exact hgen m.st
  rcases raw with _ | raw
  · exact interactive_wipes.pure _
  refine (wipes_syscall fun _ _ => ?_).bind fun fd => ?_
  · split
    · rfl
    · split <;> rfl
  rcases fd with _ | fd
  · exact interactive_wipes.pure _
  refine (wipes_syscall fun _ _ => ?_).bind fun written => (wipes_looks (looks_sysClose fd)).bind fun _ => ?_
  · unfold writeTransfer
    split <;> rfl
  split <;> exact interactive_wipes.pure _

theorem wipes_runInspect : Wipes (runInspect os con args) := by
  unfold runInspect
  split
  · exact interactive_wipes.pure _
  refine (wipes_looks (looks_sysOpen _)).bind fun fd => ?_
  rcases fd with _ | fd
  · exact interactive_wipes.pure _
  refine (wipes_looks (looks_freadLoop fd _ _ [])).bind fun read => (wipes_looks (looks_sysClose fd)).bind fun _ => ?_
  refine (wipes_attempt (wipes_keeps fun m => ?_)).bind fun rc => ?_
  · rcases hp : parseFileHeader (.bytes ((overwrite (con.garbage kHeaderSize).1 0 read).take read.length)) with e | h
    · rw [inspectInto_error hp]
    · rw [inspectInto_ok hp]
  · rcases rc with _ | _ <;> exact interactive_wipes.pure _

/-- **The tool gives back all memory of the library, and wiped**, with every exit code: no block is left in use, and
each that was made was zero on its whole length when it was freed. What there was before is as it was. -/
theorem tool_wipes (w : World) (os : Os) (con : Console) (mem : ℕ → ℕ → Bool) (argv : List Text) (m : Machine) :
    Ends (main w os con mem argv) m fun r m' => r ≠ .error .powerLoss → Heap.Tidy m.st.heap m'.st.heap none := by
  have hrun : Wipes (run w os con mem argv) :=
    interactive_wipes.run (fun path key => wipes_looks (looks_readKeyFile path key))
      (fun key _ _ _ => wipes_attempt (wipes_cryptFile (crypts_encrypt w key _) _ _ _ _))
      (fun key _ _ => wipes_attempt (wipes_cryptFile (crypts_decrypt w key) _ _ _ _)) (fun _ => wipes_runKeygen)
      (fun _ => wipes_runInspect) mem argv
  have hends := hrun m
  unfold Ends at hends ⊢
  have htidy (m' : Machine) (h : Heap.Becomes m.st.heap m'.st.heap m.st.heap.get) : Heap.Tidy m.st.heap m'.st.heap none :=
    h.tidy (fun _ _ => rfl) fun _ hb => by cases hb
  rw [main, catch_apply]
  rcases hr : run w os con mem argv m with ⟨(_ | _ | _ | _) | o, m'⟩ <;> rw [hr] at hends <;>
    exact fun _ => htidy _ hends

end Wipes

end ModelCrypt
