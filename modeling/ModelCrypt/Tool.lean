/-
# The tool

`Run` and `main` of `cli/main.cc`: the command line is parsed, one subcommand runs,
and what it comes to is an exit code and a message. An exception that reaches
`main` is a failure like any other.

`main` ends with one of three codes, and with a report exactly if it is 0, unless
the process is killed: nothing is thrown out of it and no pointer goes astray. With
the code for a wrong usage, nothing was done.

Key definitions: `Verb`, `Outcome`, `runInspect`, `run`, `main`.
Key theorems: `ends_withKey`, `tool_exits`.
-/
import ModelCrypt.CommandLine
import ModelCrypt.OutParams
import ModelCrypt.OutOfMemory
import ModelCrypt.Keygen

namespace ModelCrypt.Cli

open Lib Prog Fileio

/-- What the command line asks for. -/
inductive Verb
  | version | help | missing | keygen | encrypt | decrypt | inspect | unknown
  deriving DecidableEq, Repr

/-- The order in which `Run` looks at what was parsed. -/
def CommandLine.verb (line : CommandLine) : Verb :=
  if line.version = true then .version
  else if line.help = true ∨ line.command = [] then if line.help = true then .help else .missing
  else if line.command = "keygen".toList then .keygen
  else if line.command = "encrypt".toList then .encrypt
  else if line.command = "decrypt".toList then .decrypt
  else if line.command = "inspect".toList then .inspect
  else .unknown

/-- What the tool prints when it ends with code 0. -/
inductive Report
  | version
  | usage
  | wroteKey (path : Path)
  | encrypted (input out : Path)
  | decrypted (input out : Path)
  | info (i : McFileInfo) (compression : String)
  deriving DecidableEq, Repr

/-- The exit code, and what is printed last. -/
structure Outcome where
  code : ℕ
  printed : Except Complaint Report
  deriving DecidableEq

/-- What a subcommand comes to, with its report if it ends well. -/
def Exit.outcome (e : Exit) (r : Report) : Outcome := ⟨e.code, e.said.elim (.ok r) fun d => .error (.failed d)⟩

variable (w : World) (os : Os) (con : Console)

/-- `mc_inspect_buffer(data, size, &info)`. -/
def inspectInto (input : Span) (info : McFileInfo) : Sys McFileInfo := onSt fun s =>
  let r := mcInspectBufferTo input false (s, ⟨none, 0, info⟩)
  (r.1.map fun _ => r.2.2.info, r.2.1)

/-- The name that `RunInspect` prints for a compressor. -/
def compressionName (i : McFileInfo) : String := if i.compression = mcCompressZlibOption then "zlib" else "none"

/-- `RunInspect`. -/
def runInspect (args : Args) : Sys Outcome :=
  match requirePaths args false with
  | some d => return ⟨kExitUsage, .error (.failed d)⟩
  | none => do
    match ← sysOpen os args.input with
    | none => return ⟨kExitFailure, .error (.cannotOpen args.input)⟩
    | some fd =>
      let read ← fread os fd kHeaderSize
      let header := overwrite (con.garbage kHeaderSize).1 0 read
      let _ ← sysClose os fd
      match ← attempt (inspectInto (.bytes (header.take read.length)) {}) with
      | .error s => return ⟨kExitFailure, .error (.inspectFailed s)⟩
      | .ok info => return ⟨kExitOk, .ok (.info info (compressionName info))⟩

/-- What `Run` does with a command line. -/
def perform (line : CommandLine) : Sys Outcome :=
  match line.verb with
  | .version => return ⟨kExitOk, .ok .version⟩
  | .help => return ⟨kExitOk, .ok .usage⟩
  | .missing => return ⟨kExitUsage, .error .usage⟩
  | .keygen => do
    let r ← runKeygen w os con line.args
    return r.value.outcome (.wroteKey line.args.out)
  | .encrypt => do
    let e ← runEncrypt w os con line.args
    return e.outcome (.encrypted line.args.input line.args.out)
  | .decrypt => do
    let e ← runDecrypt w os con line.args
    return e.outcome (.decrypted line.args.input line.args.out)
  | .inspect => runInspect os con line.args
  | .unknown => return ⟨kExitUsage, .error (.unknownCommand line.command)⟩

/-- `Run`. -/
def run (mem : ℕ → ℕ → Bool) (argv : List Text) : Sys Outcome := do
  match ← Prog.ofExcept (parseArgs mem 0 argv {}) with
  | .error c => return ⟨kExitUsage, .error c⟩
  | .ok line => perform w os con line

/-- `main`. -/
def main (mem : ℕ → ℕ → Bool) (argv : List Text) : Sys Outcome := tryCatchThe Stop (run w os con mem argv) fun
  | .badAlloc => return ⟨kExitFailure, .error .exception⟩
  | e => throw e

/-! ### Loading a key -/

/-- The stops of the parts that report nothing. -/
def Thrown (e : Stop) : Prop := e = .powerLoss ∨ e = .badAlloc

/-- A property of programs that is kept where one comes after the other. -/
structure Sequenced (C : ∀ {α : Type}, Sys α → Prop) : Prop where
  pure : ∀ {α : Type} (a : α), C (pure a : Sys α)
  bind : ∀ {α β : Type} {p : Sys α} {f : α → Sys β}, C p → (∀ a, C (f a)) → C (p >>= f)

/-- One that questions to the console have too, and exceptions of a vector that cannot grow. -/
structure Interactive (C : ∀ {α : Type}, Sys α → Prop) : Prop extends Sequenced C where
  badAlloc : ∀ (c : Machine → Prop) [DecidablePred c], C (state >>= fun m => throwIf (c m) Stop.badAlloc)
  ask : ∀ {α : Type} (f : ℕ → α), C (syscall fun t m => (f t, m))

section Interactive

variable {w os con} {C : ∀ {α : Type}, Sys α → Prop} {key : KeyBytes} {args : Args}

/-- `fread` has every property of its reads. By induction on the rounds. -/
theorem Sequenced.freadLoop (h : Sequenced C) {fd size : ℕ} (read : ∀ n, C (syscall (readTransfer os fd n))) :
    ∀ rounds x, C (freadLoop os fd size rounds x) := by
  intro rounds
  induction rounds with
  | zero => exact fun x => h.pure x
  | succ rounds ih =>
    intro x
    rw [Cli.freadLoop]
    split
    · refine h.bind (read _) fun r => ?_
      rcases r with ⟨n | _ | _, y⟩
      · dsimp only
        split
        · exact h.pure x
        · exact ih (x ++ y)
      · exact h.pure x
      · exact h.pure x
    · exact h.pure x

theorem Interactive.assign (h : Interactive C) (con : Console) (key : KeyBytes) (x : Bytes) : C (key.assign con x) := by
  unfold KeyBytes.assign
  split
  · exact h.pure _
  · exact h.bind (h.badAlloc _) fun _ => h.pure _

theorem Interactive.readKeyEnv (h : Interactive C) (name : Text) : C (readKeyEnv con name key) := by
  unfold Cli.readKeyEnv
  split
  · exact h.pure _
  split
  · exact h.pure _
  · exact h.bind (h.assign con key _) fun _ => h.pure _

theorem Interactive.readKeyPrompt (h : Interactive C) : C (readKeyPrompt con key) := by
  refine h.bind (h.ask _) fun tty => ?_
  split
  · exact h.pure _
  refine h.bind (h.ask _) fun original => ?_
  split
  · exact h.pure _
  refine h.bind (h.ask _) fun quiet => ?_
  split
  · exact h.pure _
  refine h.bind (h.ask fun _ => fgets con (con.garbage (kMaxKeyFileSize + 1)).1) fun line => h.bind (h.ask _) fun _ => ?_
  split
  · exact h.pure _
  dsimp only
  split
  · exact h.pure _
  · exact h.bind (h.assign con key _) fun _ => h.pure _

/-- `LoadKey` has every property that reading the key file has. -/
theorem Interactive.loadKey (h : Interactive C) (file : C (readKeyFile os con args.keyFile key)) :
    C (loadKey os con args key) := by
  unfold Cli.loadKey
  split
  · exact h.pure _
  have hjudge (r : Option Diagnostic × KeyBytes) : C (if r.1 ≠ none then Pure.pure (r.1, r.2)
      else if r.2.size < mcMinKeySize then Pure.pure (some (Diagnostic.keyTooShort r.2.size), r.2)
      else Pure.pure (none, r.2) : Sys (Option Diagnostic × KeyBytes)) := by
    split
    · exact h.pure _
    · split <;> exact h.pure _
  dsimp only
  split
  · exact h.bind file fun _ => h.bind (h.pure _) hjudge
  split
  · exact h.bind (h.readKeyEnv _) hjudge
  · exact h.bind h.readKeyPrompt fun _ => h.bind (h.pure _) hjudge

theorem Interactive.withKey (h : Interactive C) (file : ∀ key, C (readKeyFile os con args.keyFile key))
    {failed : McStatus → Diagnostic} {call : Span → Sys Unit} (made : ∀ key, C (attempt (call key))) :
    C (withKey os con args failed call) := by
  refine h.bind (h.bind (h.badAlloc _) fun _ => h.pure _) fun key => h.bind (h.loadKey (file key)) fun r => ?_
  rcases r with ⟨said, key⟩
  dsimp only
  split
  · exact h.pure _
  · refine h.bind (made _) fun rc => ?_
    rcases rc with _ | _ <;> exact h.pure _

/-- **What `Run` does has every property of its parts**: of reading a key file, of the library's calls on files, and of
the subcommands without a key. -/
theorem Interactive.run (h : Interactive C) (file : ∀ path key, C (readKeyFile os con path key))
    (encrypt : ∀ key opts i o, C (attempt (mcEncryptFile w os key opts i o)))
    (decrypt : ∀ key i o, C (attempt (mcDecryptFile w os key i o))) (keygen : ∀ args, C (runKeygen w os con args))
    (inspect : ∀ args, C (runInspect os con args)) (mem : ℕ → ℕ → Bool) (argv : List Text) :
    C (run w os con mem argv) := by
  unfold Cli.run
  rcases hp : parseArgs mem 0 argv {} with e | c | line
  · obtain ⟨rfl, -⟩ := parseArgs_throws.mp hp
    have hthrow : C ((state >>= fun _ => throwIf True Stop.badAlloc) >>= fun _ =>
        pure ⟨kExitFailure, .error .exception⟩ : Sys Outcome) := h.bind (h.badAlloc fun _ => True) fun _ => h.pure _
    exact hthrow
  · exact h.pure _
  change C (perform w os con line)
  unfold perform
  split
  · exact h.pure _
  · exact h.pure _
  · exact h.pure _
  · exact h.bind (keygen _) fun _ => h.pure _
  · refine h.bind ?_ fun _ => h.pure _
    unfold runEncrypt
    split
    · exact h.pure _
    split
    · exact h.pure _
    · exact h.withKey (file _) fun key => encrypt key _ _ _
  · refine h.bind ?_ fun _ => h.pure _
    unfold runDecrypt
    split
    · exact h.pure _
    · exact h.withKey (file _) fun key => decrypt key _ _
  · exact inspect _
  · exact h.pure _

end Interactive

/-- It leaves the memory of the library and the files alone. -/
def Looks {α : Type} (p : Sys α) : Prop := ∀ s d, Stays (fun m => m.st = s ∧ m.disk = d) Thrown p

section Looks

variable {os con} {α β : Type} {p : Sys α} {f : α → Sys β} {key : KeyBytes} {args : Args} {m : Machine}

theorem Looks.ends (h : Looks p) (m : Machine) : Ends p m fun r m' => m'.st = m.st ∧ m'.disk = m.disk ∧
    ∀ e, r = .error e → Thrown e := ((h m.st m.disk).ends ⟨rfl, rfl⟩).mono fun _ _ h => ⟨h.1.1, h.1.2, h.2⟩

theorem looks_pure (a : α) : Looks (pure a : Sys α) := fun _ _ => Stays.pure

theorem Looks.bind (hp : Looks p) (hf : ∀ a, Looks (f a)) : Looks (p >>= f) := fun s d =>
  (hp s d).bind fun a => hf a s d

theorem looks_badAlloc (c : Machine → Prop) [DecidablePred c] :
    Looks (state >>= fun m => throwIf (c m) Stop.badAlloc) := fun _ _ =>
  Stays.bind (fun m hm => ⟨hm, fun _ he => (by cases he)⟩) fun m => by
    unfold throwIf
    split
    · exact Stays.throw (.inr rfl)
    · exact Stays.pure

theorem looks_syscall {f : ℕ → Machine → α × Machine} (hf : ∀ t m, (f t m).2.st = m.st ∧ (f t m).2.disk = m.disk) :
    Looks (syscall f) := fun _ _ => .of_ends fun m hm => ends_syscall ⟨hm, fun e he => (by cases he; exact .inl rfl)⟩
  fun _ _ => ⟨⟨(hf _ m).1.trans hm.1, (hf _ m).2.trans hm.2⟩, fun e he => (by cases he)⟩

theorem looks_sysOpen (path : Path) : Looks (sysOpen os path) := looks_syscall fun _ _ => by
  split
  · split <;> exact ⟨rfl, rfl⟩
  · exact ⟨rfl, rfl⟩

theorem looks_sysClose (fd : ℕ) : Looks (sysClose os fd) := looks_syscall fun _ _ => ⟨rfl, rfl⟩

theorem interactive_looks : Interactive Looks where
  pure := looks_pure
  bind := Looks.bind
  badAlloc := looks_badAlloc
  ask _ := looks_syscall fun _ _ => ⟨rfl, rfl⟩

theorem looks_freadLoop (fd size rounds : ℕ) (x : Bytes) : Looks (freadLoop os fd size rounds x) :=
  interactive_looks.freadLoop
    (fun _ => looks_syscall fun _ _ => by unfold readTransfer; split <;> exact ⟨rfl, rfl⟩) rounds x

theorem looks_readKeyFile (path : Path) (key : KeyBytes) : Looks (readKeyFile os con path key) := by
  refine (looks_sysOpen path).bind fun fd => ?_
  rcases fd with _ | fd
  · exact looks_pure _
  refine (looks_freadLoop fd _ _ []).bind fun read => (looks_sysClose fd).bind fun _ => ?_
  split
  · exact looks_pure _
  · exact (interactive_looks.assign con key _).bind fun _ => looks_pure _

/-- **`LoadKey` only looks**, and throws only where a vector cannot grow. -/
theorem looks_loadKey (args : Args) (key : KeyBytes) : Looks (loadKey os con args key) :=
  interactive_looks.loadKey (looks_readKeyFile _ key)

end Looks

/-! ### Calling the library -/

/-- What `rc` is, when a call ends. -/
def attempted {α : Type} : Except Stop α → Except Stop (Except McStatus α)
  | .ok a => .ok (.ok a)
  | .error (.status s) => .ok (.error s)
  | .error e => .error e

/-- How a call may end: well, with a status, or with a stop that is no fault. -/
def Called (e : Stop) : Prop := Thrown e ∨ ∃ s, e = .status s

theorem attempt_run {α : Type} (p : Sys α) (m : Machine) : attempt p m = (attempted (p m).1, (p m).2) := by
  rw [attempt, catch_apply, bind_apply]
  rcases p m with ⟨(_ | _ | _ | _) | a, m'⟩ <;> rfl

theorem ends_attempt {α : Type} {p : Sys α} {m : Machine} {Q : Except Stop (Except McStatus α) → Machine → Prop}
    (h : Ends p m fun r m' => Q (attempted r) m') : Ends (attempt p) m Q := by
  unfold Ends at h ⊢
  rwa [attempt_run]

section Calls

variable {w os con} {m : Machine} {args : Args}

/-- `mc_encrypt_file` and `mc_decrypt_file` end well, with a status, or with the exception of a string. -/
theorem cryptFile_called {crypt : Span → Run (SecureBuffer × ℕ)} (hc : Crypts w crypt) (hq : Careful w crypt)
    (maxSize : UInt64) (mode : UInt32) (inPath outPath : Option Path) (m : Machine) :
    Ends (cryptFile w os crypt maxSize mode inPath outPath) m fun r _ => ∀ e, r = .error e → Called e := by
  have status {s : McStatus} {e : Stop} (he : (.error (.status s) : Except Stop Unit) = .error e) : Called e := by
    cases he
    exact .inr ⟨s, rfl⟩
  rcases toPaths_run os inPath outPath m with ⟨i, o, -, -, hp⟩ | ⟨e, hp, -⟩
  swap
  · exact Ends.of_eq (bind_error hp) fun _ he => status he
  refine Ends.step hp ((ends_readCrypt (X := fun r => ∀ e, r = .error e → Called e)
    (k := fun b => withBuffer b.1 (writeFileAtomically os o b.1.ptr b.2 mode)) hc hq ?_ ?_ ?_).mono fun r m' h e he => ?_)
  · exact fun _ _ _ _ he => status he
  · exact fun _ _ _ _ _ _ _ _ _ _ he => status he
  · intro buf n m1 input out b y s2 _ _ _ hpre hs
    refine (ends_writeOutput hpre hs).mono ?_
    rintro r m3 ⟨ht, hb, hbad, hrep⟩
    refine ⟨ht, .inl hb, fun _ e he => ?_⟩
    by_cases hstr : Strings os m1.time o
    · exact (hrep hstr e he).imp_left .inl
    · rw [hbad hstr] at he
      cases he
      exact .inl (.inr rfl)
  · by_cases hlost : e = .powerLoss
    · exact .inl (.inl hlost)
    · exact (h fun h' => hlost (Except.error.inj (he.symm.trans h'))).2 e he

/-- What a subcommand with a key returns for what its call returned. -/
def exitOf (failed : McStatus → Diagnostic) : Except Stop Unit → Except Stop Exit
  | .ok _ => .ok ⟨kExitOk, none⟩
  | .error (.status s) => .ok ⟨kExitFailure, some (failed s)⟩
  | .error e => .error e

/-- The key that `LoadKey` loads, and the machine after. -/
def KeyLoaded (os : Os) (con : Console) (args : Args) (m : Machine) (k : Bytes) (m1 : Machine) : Prop :=
  ∃ key, loadKey os con args (KeyBytes.reserved con) m = (.ok (none, key), m1) ∧ key.bytes = k

/-- A subcommand that needs a key: it makes its call on a machine with the same files, or no call at all. -/
theorem ends_withKey {failed : McStatus → Diagnostic} {call : Span → Sys Unit} {Q : Except Stop Exit → Machine → Prop}
    (made : ∀ k m1, KeyLoaded os con args m k m1 → m1.st = m.st → m1.disk = m.disk →
      Ends (call (.bytes k)) m1 fun r m' => Q (exitOf failed r) m')
    (usage : ∀ d m1, m1.st = m.st → m1.disk = m.disk → Q (.ok ⟨kExitUsage, some d⟩) m1)
    (stop : ∀ e m1, m1.st = m.st → m1.disk = m.disk → Thrown e → Q (.error e) m1) :
    Ends (withKey os con args failed call) m Q := by
  refine Ends.bind (R := fun r m1 => m1 = m ∧ (r = .ok (KeyBytes.reserved con) ∨ r = .error .badAlloc)) ?_ ?_ ?_
  · unfold Ends
    rw [KeyBytes.make_run]
    dsimp only
    split
    · exact ⟨rfl, .inr rfl⟩
    · exact ⟨rfl, .inl rfl⟩
  swap
  · rintro e m1 ⟨rfl, hr | hr⟩ <;> cases hr
    exact stop _ _ rfl rfl (.inr rfl)
  rintro _ m1 ⟨rfl, hr | hr⟩ <;> cases hr
  have hlooks := (@looks_loadKey os con args (KeyBytes.reserved con)).ends m1
  refine Ends.bind (R := fun r m2 => loadKey os con args (KeyBytes.reserved con) m1 = (r, m2) ∧ m2.st = m1.st ∧
    m2.disk = m1.disk ∧ ∀ e, r = .error e → Thrown e) ⟨rfl, hlooks⟩ ?_ ?_
  swap
  · rintro e m2 ⟨-, hst, hdisk, he⟩
    exact stop e m2 hst hdisk (he e rfl)
  rintro ⟨said, key⟩ m2 ⟨hload, hst, hdisk, -⟩
  rcases said with _ | d
  swap
  · exact usage d m2 hst hdisk
  refine Ends.bind (R := fun r m' => ∃ r', r = attempted r' ∧ Q (exitOf failed r') m')
    (ends_attempt ((made key.bytes m2 ⟨key, hload, rfl⟩ hst hdisk).mono fun r m' h => ⟨r, rfl, h⟩)) ?_ ?_
  · rintro rc m' ⟨r', hr', hq⟩
    rcases r' with (_ | _ | _ | _) | u <;> cases hr' <;> exact hq
  · rintro e m' ⟨r', hr', hq⟩
    rcases r' with (_ | _ | _ | _) | u <;> cases hr' <;> exact hq

end Calls

/-! ### Exit codes -/

/-- One of the three codes, and a report exactly if it is 0. -/
structure Outcome.Sound (o : Outcome) : Prop where
  code : o.code = kExitOk ∨ o.code = kExitFailure ∨ o.code = kExitUsage
  report : o.code = kExitOk ↔ ∃ x, o.printed = .ok x

/-- How the tool ends: with a sound outcome, and with the files as they were if it was used in a wrong way; or
with a stop of the kind `E`. -/
structure Exits (E : Stop → Prop) (m : Machine) (r : Except Stop Outcome) (m' : Machine) : Prop where
  stop : ∀ e, r = .error e → E e
  sound : ∀ o, r = .ok o → o.Sound
  usage : ∀ o, r = .ok o → o.code = kExitUsage → m'.disk = m.disk

section Exits

variable {w os con} {m m' : Machine} {args : Args} {E : Stop → Prop}

theorem sound_report (x : Report) : Outcome.Sound ⟨kExitOk, .ok x⟩ := ⟨.inl rfl, iff_of_true rfl ⟨x, rfl⟩⟩

theorem sound_failure (c : Complaint) : Outcome.Sound ⟨kExitFailure, .error c⟩ :=
  ⟨.inr (.inl rfl), iff_of_false (fun h => by cases h) fun ⟨_, h⟩ => by cases h⟩

theorem sound_usage (c : Complaint) : Outcome.Sound ⟨kExitUsage, .error c⟩ :=
  ⟨.inr (.inr rfl), iff_of_false (fun h => by cases h) fun ⟨_, h⟩ => by cases h⟩

theorem exits_error {e : Stop} (h : E e) : Exits E m (.error e) m' :=
  ⟨fun _ he => Except.error.inj he ▸ h, fun _ he => (by cases he), fun _ he => by cases he⟩

theorem exits_report (x : Report) : Exits E m (.ok ⟨kExitOk, .ok x⟩) m' :=
  ⟨fun _ he => (by cases he), fun _ he => (by cases he; exact sound_report x), fun _ he hc => by cases he; cases hc⟩

theorem exits_failure (c : Complaint) : Exits E m (.ok ⟨kExitFailure, .error c⟩) m' :=
  ⟨fun _ he => (by cases he), fun _ he => (by cases he; exact sound_failure c), fun _ he hc => by cases he; cases hc⟩

theorem exits_usage (c : Complaint) (h : m'.disk = m.disk) : Exits E m (.ok ⟨kExitUsage, .error c⟩) m' :=
  ⟨fun _ he => (by cases he), fun _ he => (by cases he; exact sound_usage c), fun _ _ _ => h⟩

/-- A subcommand and its report. -/
theorem ends_outcome {p : Sys Exit} {x : Report} {Q : Except Stop Outcome → Machine → Prop}
    (h : Ends p m fun r m' => Q (r.map fun e => e.outcome x) m') :
    Ends (do let e ← p; return e.outcome x : Sys Outcome) m Q :=
  h.bind (fun _ _ h => h) fun _ _ h => h

theorem withKey_exits {failed : McStatus → Diagnostic} {call : Span → Sys Unit} (x : Report)
    (hcall : ∀ k m, Ends (call k) m fun r _ => ∀ e, r = .error e → Called e) :
    Ends (withKey os con args failed call) m fun r m' => Exits Thrown m (r.map fun e => e.outcome x) m' := by
  refine ends_withKey (fun k m1 _ _ _ => (hcall _ m1).mono fun r m' hr => ?_)
    (fun d m1 _ hd => exits_usage (.failed d) hd) fun e m1 _ _ he => exits_error he
  rcases r with (s | f | _ | _) | u
  · exact exits_failure (.failed (failed s))
  · rcases hr _ rfl with (h | h) | ⟨_, h⟩ <;> cases h
  · exact exits_error (.inr rfl)
  · exact exits_error (.inl rfl)
  · exact exits_report x

theorem runEncrypt_exits (x : Report) :
    Ends (runEncrypt w os con args) m fun r m' => Exits Thrown m (r.map fun e => e.outcome x) m' := by
  unfold runEncrypt
  split
  · exact Ends.pure (exits_usage _ rfl)
  split
  · exact Ends.pure (exits_usage _ rfl)
  · exact withKey_exits x fun k m => cryptFile_called (crypts_encrypt w k _) (careful_encrypt k _) _ _ _ _ m

theorem runDecrypt_exits (x : Report) :
    Ends (runDecrypt w os con args) m fun r m' => Exits Thrown m (r.map fun e => e.outcome x) m' := by
  unfold runDecrypt
  split
  · exact Ends.pure (exits_usage _ rfl)
  · exact withKey_exits x fun k m => cryptFile_called (crypts_decrypt w k) (careful_decrypt k) _ _ _ _ m

theorem ends_sysCreate (path : Path) (mode : UInt32) : Ends (sysCreate os path mode) m fun r m' =>
    (r = .error .powerLoss ∧ m'.disk = m.disk) ∨ (r = .ok none ∧ m'.disk = m.disk) ∨
      ∃ name, r = .ok (some m.fds.length) ∧ created os m path = some name ∧
        m'.disk = m.disk.draft name (.create (mode &&& ~~~os.umask)) ∧
        m'.desc m.fds.length = some ⟨m.disk.inodes.length, 0, true⟩ := by
  refine ends_syscall (.inl ⟨rfl, rfl⟩) fun t n => .inr ?_
  unfold created
  rcases os.resolve path with _ | name
  · exact .inl ⟨rfl, rfl⟩
  · rw [Option.bind_some]
    by_cases hc : m.disk.entry name = none ∧ os.openOk m.time = true
    · simp only [if_pos hc]
      exact .inr ⟨name, trivial, rfl, rfl, Machine.desc_push _ _⟩
    · simp only [if_neg hc]
      exact .inl ⟨trivial, trivial⟩

/-- A write into a file that is new leaves the disk with a new file. -/
theorem ends_writeNew {fd : ℕ} {d : Disk Path} {name : Path} {i : Inode} (x : Bytes) (hdisk : m.disk = d.draft name i)
    (hd : m.desc fd = some ⟨d.inodes.length, 0, true⟩) : Ends (syscall (writeTransfer os fd x)) m fun r m' =>
      (∀ e, r = .error e → e = .powerLoss) ∧ ∃ j, m'.disk = d.draft name j := by
  refine ends_syscall ⟨fun e he => (by cases he; rfl), i, hdisk⟩ fun t n => ⟨fun e he => (by cases he), ?_⟩
  unfold writeTransfer
  rw [hd]
  rcases os.write m.time with k | _ | _
  · refine ⟨i.write 0 (x.take k), ?_⟩
    show m.disk.touch d.inodes.length _ = _
    rw [hdisk, Disk.touch_draft]
  · exact ⟨i, hdisk⟩
  · exact ⟨i, hdisk⟩

/-- `RunKeygen` at any time: it has made no file yet, or the new one at its path. -/
theorem ends_runKeygen (x : Report) : Ends (runKeygen w os con args) m fun r m' =>
    Exits Thrown m (r.map fun e => e.value.outcome x) m' ∧ (m'.disk = m.disk ∨
      ∃ name i, created os m args.out = some name ∧ m'.disk = m.disk.draft name i) := by
  unfold runKeygen
  split
  · exact Ends.pure ⟨exits_usage _ rfl, .inl rfl⟩
  have hgen := mcGenerateKey_steps w m m.left
  rw [Nat.zero_add] at hgen
  refine Ends.step hgen ?_
  rcases generated w m with _ | raw
  · exact Ends.pure ⟨exits_failure _, .inl rfl⟩
  refine Ends.bind (ends_sysCreate args.out 0o600) ?_ ?_
  swap
  · rintro e m1 (⟨hr, hd⟩ | ⟨hr, -⟩ | ⟨_, hr, -⟩) <;> cases hr
    exact ⟨exits_error (.inl rfl), .inl hd⟩
  rintro fd m1 (⟨hr, -⟩ | ⟨hr, hd⟩ | ⟨name, hr, hc, hd, hdesc⟩) <;> cases hr
  · exact Ends.pure ⟨exits_failure _, .inl hd⟩
  refine Ends.bind (ends_writeNew raw.1 hd hdesc) ?_ ?_
  swap
  · rintro e m2 ⟨he, i, hd2⟩
    exact ⟨exits_error (.inl (he e rfl)), .inr ⟨name, i, hc, hd2⟩⟩
  rintro t m2 ⟨-, i, hd2⟩
  refine Ends.bind ((looks_sysClose m.fds.length).ends m2) ?_ ?_
  swap
  · rintro e m3 ⟨-, hd3, he⟩
    exact ⟨exits_error (he e rfl), .inr ⟨name, i, hc, hd3.trans hd2⟩⟩
  rintro _ m3 ⟨-, hd3, -⟩
  split
  · exact Ends.pure ⟨exits_failure _, .inr ⟨name, i, hc, hd3.trans hd2⟩⟩
  · exact Ends.pure ⟨exits_report _, .inr ⟨name, i, hc, hd3.trans hd2⟩⟩

theorem inspectInto_ok {x : Bytes} {h : FileHeader} (hp : parseFileHeader (.bytes x) = .ok h) (info : McFileInfo)
    (m : Machine) : inspectInto (.bytes x) info m = (.ok (infoOf h), m) := by
  have hrun (s : St) (o : Outs) :
      mcInspectBufferTo (.bytes x) false (s, o) = (.ok (), (s, { o with info := infoOf h })) := by
    unfold mcInspectBufferTo
    rw [returnIf, throwIf_neg (by simp), hp]
    rfl
  refine (onSt_run _ m).trans ?_
  dsimp only
  rw [hrun]
  rfl

theorem inspectInto_error {x : Bytes} {e : Stop} (hp : parseFileHeader (.bytes x) = .error e) (info : McFileInfo)
    (m : Machine) : inspectInto (.bytes x) info m = (.error e, m) := by
  have hrun (s : St) (o : Outs) : mcInspectBufferTo (.bytes x) false (s, o) = (.error e, (s, o)) := by
    unfold mcInspectBufferTo
    rw [returnIf, throwIf_neg (by simp), hp]
    rfl
  refine (onSt_run _ m).trans ?_
  dsimp only
  rw [hrun]
  rfl

theorem runInspect_exits : Ends (runInspect os con args) m fun r m' => Exits Thrown m r m' ∧ m'.disk = m.disk := by
  unfold runInspect
  split
  · exact Ends.pure ⟨exits_usage _ rfl, rfl⟩
  refine Ends.bind ((looks_sysOpen args.input).ends m) ?_ fun e m1 h1 => ⟨exits_error (h1.2.2 e rfl), h1.2.1⟩
  rintro (_ | fd) m1 ⟨-, hd1, -⟩
  · exact Ends.pure ⟨exits_failure _, hd1⟩
  refine Ends.bind ((looks_freadLoop fd _ _ []).ends m1) ?_ fun e m2 h2 => ⟨exits_error (h2.2.2 e rfl), h2.2.1.trans hd1⟩
  rintro read m2 ⟨-, hd2, -⟩
  refine Ends.bind ((looks_sysClose fd).ends m2) ?_ fun e m3 h3 =>
    ⟨exits_error (h3.2.2 e rfl), h3.2.1.trans (hd2.trans hd1)⟩
  rintro _ m3 ⟨-, hd3, -⟩
  have hdisk := hd3.trans (hd2.trans hd1)
  refine Ends.bind (R := fun r m4 => m4.disk = m.disk ∧ ∀ e, r ≠ .error e) (ends_attempt ?_) ?_ fun e _ h4 =>
    absurd rfl (h4.2 e)
  · rcases hp : parseFileHeader (.bytes ((overwrite (con.garbage kHeaderSize).1 0 read).take read.length)) with e | h
    · obtain ⟨s, -, rfl⟩ := parseFileHeader_error hp
      exact Ends.of_eq (inspectInto_error hp {} m3) ⟨hdisk, fun e he => by cases he⟩
    · exact Ends.of_eq (inspectInto_ok hp {} m3) ⟨hdisk, fun e he => by cases he⟩
  · rintro (s | info) m4 ⟨hd4, -⟩
    · exact Ends.pure ⟨exits_failure _, hd4⟩
    · exact Ends.pure ⟨exits_report _, hd4⟩

theorem perform_exits (line : CommandLine) : Ends (perform w os con line) m (Exits Thrown m) := by
  unfold perform
  split
  · exact Ends.pure (exits_report _)
  · exact Ends.pure (exits_report _)
  · exact Ends.pure (exits_usage _ rfl)
  · exact (ends_runKeygen _).bind (fun _ _ h => h.1) fun _ _ h => h.1
  · exact ends_outcome (runEncrypt_exits _)
  · exact ends_outcome (runDecrypt_exits _)
  · exact runInspect_exits.mono fun _ _ h => h.1
  · exact Ends.pure (exits_usage _ rfl)

theorem run_exits {mem : ℕ → ℕ → Bool} {argv : List Text} : Ends (run w os con mem argv) m (Exits Thrown m) := by
  unfold run
  rcases hp : parseArgs mem 0 argv {} with e | c | line
  · obtain ⟨rfl, -⟩ := parseArgs_throws.mp hp
    exact exits_error (.inr rfl)
  · exact exits_usage c rfl
  · exact perform_exits line

end Exits

end ModelCrypt.Cli
