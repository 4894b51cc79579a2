/-
# What the tool leaves on the disk

Whatever the command line is, and wherever the tool is killed or the power lost:
`encrypt` and `decrypt` put a whole file at `--out` or leave what was there, unless
`mkstemp` picks that very name, and with an exit code they leave nothing else;
`keygen` replaces nothing; and the rest leaves every file alone.

What `encrypt` writes, `decrypt` turns back into what `encrypt` read: when both exit
with 0 and load the same key, and whatever fails on the way.

Key definitions: `WritesOut`, `Encrypts`, `Decrypts`.
Key theorems: `tool_all_or_nothing`, `tool_round_trip`.
-/
import ModelCrypt.Tool
import ModelCrypt.Pipeline

namespace ModelCrypt.Cli

open Lib Prog Fileio

/-! ### The calls on files -/

section Calls

variable {w : World} {os : Os} {m m' : Machine}

/-- An exception leaves `mc_encrypt_file` and `mc_decrypt_file` before they have made a file. -/
theorem cryptFile_thrown {crypt : Span → Run (SecureBuffer × ℕ)} (hc : Crypts w crypt) (hq : Careful w crypt)
    (maxSize : UInt64) (mode : UInt32) (inPath outPath : Option Path) (m : Machine) :
    Ends (cryptFile w os crypt maxSize mode inPath outPath) m fun r m' => r = .error .badAlloc → m'.disk = m.disk := by
  by_cases hbad : ∃ m2 o, Reaches w os crypt maxSize inPath outPath m m2 o ∧ ¬ Strings os m2.time o
  swap
  · refine (cryptFile_contained hc hq).mono fun r m' h hr => ?_
    have hcont := (h (by rw [hr]; exact fun h => by cases h)).mpr fun m2 o hreach =>
      by_contra fun hstr => hbad ⟨m2, o, hreach, hstr⟩
    obtain ⟨_, he⟩ := hcont.status _ hr
    cases he
  obtain ⟨m2, o, hreach, hstr⟩ := hbad
  -- the strings are made before the first system call of `WriteFileAtomically`
  refine (hreach.ends hc (Q := fun _ d => d = m.disk) fun p x _ hnull hd => ?_).mono fun r m' h _ => h
  exact Ends.throwIf (fun hp => absurd hp hnull) fun _ => Ends.of_eq (bind_error (temporaryFor_bad hstr)) ⟨rfl, hd⟩

/-- What a call made of a file: it read one, as much as it was told, and turned that into the output. -/
theorem Makes.turns {crypt : Span → Run (SecureBuffer × ℕ)} {maxSize : UInt64} {path : Path} {data : Bytes}
    (h : Makes w os crypt maxSize (some path) m data) :
    ∃ f y, (os.follow path).bind (fun n => m.disk.look n) = some f ∧ Reads os f y ∧ Turns crypt y data := by
  obtain ⟨p, buf, x, m1, input, out, s2, hp, hread, hfr, hden, hrun, hat⟩ := h
  cases hp
  obtain ⟨f, hf, hreads⟩ := hfr.reads hread
  exact ⟨f, x, hf, hreads, input, m1.st, out, s2, hden, hrun, hat⟩

end Calls

/-! ### All or nothing -/

/-- How a run may end, with an exit code or without, that is to write the file `made` with a mode to a path. -/
structure WritesOut (os : Os) (out : Path) (mode : UInt32) (made : Bytes → Prop) (m : Machine) (r : Except Stop ℕ)
    (m' : Machine) : Prop where
  /-- With 0 the path holds the new file, after a power loss that or what it would have held before. -/
  ok : r = .ok kExitOk → ∃ data, made data ∧ m'.holds os (some out) = some ⟨data, mode⟩ ∧
    (Apart os m.disk (some out) → ∀ v, m'.MayHold os (some out) v → m.MayHold os (some out) v ∨ v = some ⟨data, mode⟩)
  /-- Else the path holds what it held, wherever the run was stopped. -/
  stop : r ≠ .ok kExitOk → Apart os m.disk (some out) → m'.holds os (some out) = m.holds os (some out) ∧
    ∀ v, m'.MayHold os (some out) v → m.MayHold os (some out) v
  /-- With an exit code no temporary file is left, unless it could not be unlinked; with another one than 0 nothing is
  new, whatever name `mkstemp` picked. -/
  clean : ∀ c, r = .ok c → (∀ t, os.unlinkOk t = true) → ∀ n, (c = kExitOk → os.resolve out ≠ some n) →
    m'.disk.look n = m.disk.look n
  /-- No other file is touched. -/
  others : ∀ n f, m.disk.look n = some f → os.resolve out ≠ some n → m'.disk.look n = some f
  /-- What is new on the disk has the mode, or the one that `mkstemp` makes files with. -/
  adds : m.disk.Adds (Tentative os mode) m'.disk

section Writes

variable {w : World} {os : Os} {con : Console} {args : Args} {out : Path} {mode : UInt32} {made : Bytes → Prop}
  {m m' m1 : Machine} {r : Except Stop ℕ}

theorem WritesOut.untouched (hr : r ≠ .ok kExitOk) (hd : m'.disk = m.disk) : WritesOut os out mode made m r m' where
  ok h := absurd h hr
  stop _ _ := by
    unfold Machine.holds Machine.MayHold
    rw [hd]
    exact ⟨rfl, fun v hv => hv⟩
  clean _ _ _ n _ := by rw [hd]
  others n f hf _ := by rwa [hd]
  adds := hd ▸ Disk.Adds.refl _ _

theorem WritesOut.imp {made' : Bytes → Prop} (h : WritesOut os out mode made m r m')
    (hm : ∀ data, made data → made' data) :
    WritesOut os out mode made' m r m' :=
  ⟨fun hr => (h.ok hr).imp fun data h => ⟨hm data h.1, h.2⟩, h.stop, h.clean, h.others, h.adds⟩

theorem exitOf_ok {failed : McStatus → Diagnostic} {rc : Except Stop Unit} :
    (exitOf failed rc).map (·.code) = .ok kExitOk ↔ rc = .ok () := by
  rcases rc with (_ | _ | _ | _) | u
  · exact iff_of_false (fun h => by cases h) fun h => by cases h
  · exact iff_of_false (fun h => by cases h) fun h => by cases h
  · exact iff_of_false (fun h => by cases h) fun h => by cases h
  · exact iff_of_false (fun h => by cases h) fun h => by cases h
  · exact iff_of_true rfl rfl

theorem exitOf_returned {failed : McStatus → Diagnostic} {rc : Except Stop Unit} {c : ℕ}
    (h : (exitOf failed rc).map (·.code) = .ok c) : rc = .ok () ∨ ∃ s, rc = .error (.status s) := by
  rcases rc with (s | _ | _ | _) | u
  · exact .inr ⟨s, rfl⟩
  · cases h
  · cases h
  · cases h
  · exact .inl rfl

/-- The exit code of a call that came to write a file, made on the same files. -/
theorem writesOut_call {failed : McStatus → Diagnostic} {rc : Except Stop Unit} {data : Bytes} (hm : made data)
    (hl : Leaves os m1.disk out data mode rc m'.disk) (hd : m1.disk = m.disk) :
    WritesOut os out mode made m ((exitOf failed rc).map (·.code)) m' := by
  have hholds : m1.holds os (some out) = m.holds os (some out) := by rw [Machine.holds, Machine.holds, hd]
  have hmay : m1.MayHold os (some out) = m.MayHold os (some out) := by
    funext v
    rw [Machine.MayHold, Machine.MayHold, hd]
  have hall (ha : Apart os m.disk (some out)) : AllOrNothing os (some out) mode (· = data) m1 rc m' :=
    hl.allOrNothing (hd.symm ▸ ha) rfl
  refine ⟨fun hr => ?_, fun hr ha => ?_, fun c hr hu n hn => ?_, fun n f hf hn => ?_, hd ▸ hl.adds⟩
  · obtain rfl := exitOf_ok.mp hr
    refine ⟨data, hm, hl.holds, fun ha v hv => ?_⟩
    obtain ⟨_, rfl, -, hlater, -⟩ := (hall ha).ok rfl
    rw [← hmay]
    exact hlater v hv
  · obtain ⟨hnow, hlater⟩ := (hall ha).stop (mt exitOf_ok.mpr hr)
    exact ⟨hnow.trans hholds, hmay ▸ hlater⟩
  · rw [← hd]
    exact hl.clean (exitOf_returned hr) hu fun hok => hn (Except.ok.inj (hr.symm.trans (exitOf_ok.mpr hok)))
  · exact hl.others (hd ▸ hf) hn

/-- The same, before `main` has caught an exception. -/
structure Writes (os : Os) (out : Path) (mode : UInt32) (made : Bytes → Prop) (m : Machine) (r : Except Stop ℕ)
    (m' : Machine) : Prop extends WritesOut os out mode made m r m' where
  thrown : r = .error .badAlloc → m'.disk = m.disk

theorem writes_untouched (hr : r ≠ .ok kExitOk) (hd : m'.disk = m.disk) : Writes os out mode made m r m' :=
  ⟨.untouched hr hd, fun _ => hd⟩

/-- A subcommand with a key, around `mc_encrypt_file` or `mc_decrypt_file`. -/
theorem withKey_writes {failed : McStatus → Diagnostic} {crypt : Span → Span → Run (SecureBuffer × ℕ)} {maxSize : UInt64}
    (hc : ∀ k, Crypts w (crypt k)) (hq : ∀ k, Careful w (crypt k)) :
    Ends (withKey os con args failed fun key => cryptFile w os (crypt key) maxSize mode (some args.input) (some args.out))
      m fun r m' => Writes os args.out mode (fun data => ∃ k m1, KeyLoaded os con args m k m1 ∧
        Makes w os (crypt (.bytes k)) maxSize (some args.input) m1 data) m (r.map (·.code)) m' := by
  refine ends_withKey (fun k m1 hk _ hd => ?_) (fun d m1 _ hd => writes_untouched (fun h => by cases h) hd)
    fun e m1 _ hd _ => writes_untouched (fun h => by cases h) hd
  have hran := cryptFile_ends w os (hc (.bytes k)) maxSize mode (some args.input) (some args.out) m1
  have hthrown := @cryptFile_thrown w os _ (hc (.bytes k)) (hq _) maxSize mode (some args.input) (some args.out) m1
  unfold Ends at hran hthrown ⊢
  generalize cryptFile w os (crypt (.bytes k)) maxSize mode (some args.input) (some args.out) m1 = p at hran hthrown ⊢
  refine ⟨?_, fun hr => ?_⟩
  · obtain ⟨hne, hsame⟩ | ⟨data, _, ⟨⟩, hm, hl⟩ := hran.1
    · exact .untouched (mt exitOf_ok.mp hne) (hsame.trans hd)
    · refine writesOut_call ?_ hl hd
      exact ⟨k, m1, hk, hm⟩
  · rcases hrc : p.1 with (_ | _ | _ | _) | u <;> rw [hrc] at hr <;> cases hr
    exact (hthrown hrc).trans hd

/-- What `RunEncrypt` makes: the encryption of a file at `--in`, under the key that is loaded. -/
def Encrypts (w : World) (os : Os) (con : Console) (args : Args) (m : Machine) (data : Bytes) : Prop :=
  ∃ opts, encryptOptions args = .ok opts ∧ ∃ k m1, KeyLoaded os con args m k m1 ∧
    Encrypted w os (.bytes k) (some opts) (some args.input) m1 data

/-- What `RunDecrypt` makes. -/
def Decrypts (w : World) (os : Os) (con : Console) (args : Args) (m : Machine) (data : Bytes) : Prop :=
  ∃ k m1, KeyLoaded os con args m k m1 ∧ Decrypted w os (.bytes k) (some args.input) m1 data

theorem runEncrypt_writes : Ends (runEncrypt w os con args) m fun r m' =>
    Writes os args.out 0o644 (Encrypts w os con args m) m (r.map (·.code)) m' := by
  unfold runEncrypt
  rcases requirePaths args true with _ | d
  swap
  · exact Ends.pure (writes_untouched (fun h => by cases h) rfl)
  rcases ho : encryptOptions args with d | opts
  · exact Ends.pure (writes_untouched (fun h => by cases h) rfl)
  have h := @withKey_writes w os con args 0o644 m .encryptFailed _ mcMaxPlaintextSize
    (fun k => crypts_encrypt w k opts) (fun k => careful_encrypt k opts)
  exact h.mono fun r m' h => ⟨h.toWritesOut.imp fun data hm => ⟨opts, ho, hm⟩, h.thrown⟩

theorem runDecrypt_writes : Ends (runDecrypt w os con args) m fun r m' =>
    Writes os args.out 0o600 (Decrypts w os con args m) m (r.map (·.code)) m' := by
  unfold runDecrypt
  rcases requirePaths args true with _ | d
  swap
  · exact Ends.pure (writes_untouched (fun h => by cases h) rfl)
  · exact withKey_writes (crypts_decrypt w) careful_decrypt

theorem run_parsed {mem : ℕ → ℕ → Bool} {argv : List Text} {line : CommandLine}
    (hp : parseArgs mem 0 argv {} = .ok (.ok line))
    (m : Machine) : run w os con mem argv m = perform w os con line m := by
  rw [run, hp]
  rfl

/-- What `main` does around `Run`. -/
theorem ends_caught {mem : ℕ → ℕ → Bool} {argv : List Text} {Q : Except Stop Outcome → Machine → Prop}
    (h : Ends (run w os con mem argv) m Q)
    (caught : ∀ m', Q (.error .badAlloc) m' → Q (.ok ⟨kExitFailure, .error .exception⟩) m') :
    Ends (main w os con mem argv) m Q := by
  unfold Ends at h ⊢
  rw [main, catch_apply]
  rcases hr : run w os con mem argv m with ⟨(_ | _ | _ | _) | o, m'⟩ <;> rw [hr] at h
  · exact h
  · exact h
  · exact caught m' h
  · exact h
  · exact h

/-- What `main` does after `ParseArgs`. -/
theorem ends_main {mem : ℕ → ℕ → Bool} {argv : List Text} {line : CommandLine} {Q : Except Stop Outcome → Machine → Prop}
    (hp : parseArgs mem 0 argv {} = .ok (.ok line)) (h : Ends (perform w os con line) m Q)
    (caught : ∀ m', Q (.error .badAlloc) m' → Q (.ok ⟨kExitFailure, .error .exception⟩) m') :
    Ends (main w os con mem argv) m Q := by
  refine ends_caught ?_ caught
  unfold Ends at h ⊢
  rwa [run_parsed hp]

theorem ends_writes {p : Sys Exit} {x : Report} (h : Ends p m fun r m' => Writes os out mode made m (r.map (·.code)) m') :
    Ends (do let e ← p; return e.outcome x : Sys Outcome) m fun r m' =>
      Writes os out mode made m (r.map (·.code)) m' := by
  refine ends_outcome (h.mono fun r m' h => ?_)
  rcases r with _ | _ <;> exact h

/-- Catching an exception keeps what the subcommand left. -/
theorem Writes.caught (h : Writes os out mode made m (.error .badAlloc) m') :
    Writes os out mode made m (.ok kExitFailure) m' := writes_untouched (fun h => by cases h) (h.thrown rfl)

end Writes

section Main

variable {w : World} {os : Os} {con : Console} {mem : ℕ → ℕ → Bool} {argv : List Text} {line : CommandLine} {m : Machine}

theorem main_encrypts (hp : parseArgs mem 0 argv {} = .ok (.ok line)) (hv : line.verb = .encrypt) :
    Ends (main w os con mem argv) m fun r m' =>
      WritesOut os line.args.out 0o644 (Encrypts w os con line.args m) m (r.map (·.code)) m' := by
  refine (ends_main (Q := fun r m' => Writes os line.args.out 0o644 (Encrypts w os con line.args m) m
    (r.map Outcome.code) m') hp ?_ fun m' h => h.caught).mono fun r m' h => h.toWritesOut
  unfold perform
  rw [hv]
  exact ends_writes runEncrypt_writes

theorem main_decrypts (hp : parseArgs mem 0 argv {} = .ok (.ok line)) (hv : line.verb = .decrypt) :
    Ends (main w os con mem argv) m fun r m' =>
      WritesOut os line.args.out 0o600 (Decrypts w os con line.args m) m (r.map (·.code)) m' ∧
        m.disk.Adds Private m'.disk := by
  refine (ends_main (Q := fun r m' => Writes os line.args.out 0o600 (Decrypts w os con line.args m) m
    (r.map Outcome.code) m') hp ?_ fun m' h => h.caught).mono fun r m' h => ⟨h.toWritesOut, ?_⟩
  · unfold perform
    rw [hv]
    exact ends_writes runDecrypt_writes
  · obtain ⟨new, hnew, hall⟩ := h.adds
    exact ⟨new, hnew, fun i hi => (hall i hi).private⟩

/-- A new key replaces no file. -/
theorem main_keygen (hp : parseArgs mem 0 argv {} = .ok (.ok line)) (hv : line.verb = .keygen) :
    Ends (main w os con mem argv) m fun _ m' => ∀ n f, m.disk.look n = some f → m'.disk.look n = some f := by
  refine ends_main hp ?_ fun _ h => h
  unfold perform
  rw [hv]
  refine (ends_runKeygen (.wroteKey line.args.out)).bind ?_ ?_ <;>
  · rintro _ m' ⟨-, hd | ⟨name, i, hc, hd⟩⟩ n f hf
    · exact hd ▸ hf
    · show m'.disk.look n = some f
      rw [hd, Disk.look_draft, hf]
      rintro rfl
      rw [Disk.look_absent (created_entry hc).2] at hf
      cases hf

/-- All other command lines change no file: those of the other commands, and those that are no command line at all. -/
theorem main_reads (hv : ∀ line, parseArgs mem 0 argv {} = .ok (.ok line) →
    line.verb ∉ [Verb.encrypt, .decrypt, .keygen]) :
    Ends (main w os con mem argv) m fun _ m' => m'.disk = m.disk := by
  refine ends_caught ?_ fun _ h => h
  rcases hp : parseArgs mem 0 argv {} with e | c | line
  · unfold Ends run
    rw [hp]
    rfl
  · unfold Ends run
    rw [hp]
    rfl
  · have hline := hv line hp
    unfold Ends
    rw [run_parsed hp]
    unfold perform
    rcases hverb : line.verb <;> rw [hverb] at hline <;> first | rfl | exact absurd hline (by decide) | skip
    exact runInspect_exits.mono fun _ _ h => h.2

end Main

/-- **What the tool leaves on the disk**, whatever fails and wherever it is stopped. -/
theorem tool_all_or_nothing (w : World) (os : Os) (con : Console) (mem : ℕ → ℕ → Bool) (argv : List Text) (m : Machine) :
    (∀ line, parseArgs mem 0 argv {} = .ok (.ok line) →
      (line.verb = .encrypt → Ends (main w os con mem argv) m fun r m' =>
        WritesOut os line.args.out 0o644 (Encrypts w os con line.args m) m (r.map (·.code)) m') ∧
      (line.verb = .decrypt → Ends (main w os con mem argv) m fun r m' =>
        WritesOut os line.args.out 0o600 (Decrypts w os con line.args m) m (r.map (·.code)) m' ∧
          m.disk.Adds Private m'.disk) ∧
      (line.verb = .keygen → Ends (main w os con mem argv) m fun _ m' => ∀ n f, m.disk.look n = some f →
        m'.disk.look n = some f)) ∧
    ((∀ line, parseArgs mem 0 argv {} = .ok (.ok line) → line.verb ∉ [Verb.encrypt, .decrypt, .keygen]) →
      Ends (main w os con mem argv) m fun _ m' => m'.disk = m.disk) :=
  ⟨fun _ hp => ⟨main_encrypts hp, main_decrypts hp, main_keygen hp⟩, main_reads⟩

/-- A console with a key in the environment. -/
def envConsole : Console := { sampleConsole with getenv := fun _ => some ⟨List.replicate 16 7, by decide⟩ }

def encryptArgv : List Text := ["encrypt".toList, "--in".toList, sampleIn, "--out".toList, sampleOut,
  "--key-env".toList, "KEY".toList, "--compression".toList, "none".toList, "--chunk-size".toList, "4096".toList]

def encryptLine : CommandLine := { command := "encrypt".toList, args := ⟨sampleIn, sampleOut, [], "KEY".toList,
  "none".toList, "4096".toList, [], [], []⟩ }

/-- An encryption that exits with 0. -/
def encryption : Except Stop Outcome × Machine :=
  main sampleWorld (sampleOs 3) envConsole (fun _ _ => true) encryptArgv (sampleMachine sampleFile)

theorem encryption_ok : encryption.1 = .ok ⟨kExitOk, .ok (.encrypted sampleIn sampleOut)⟩ := by decide +kernel

/-- The conclusion at that run. -/
theorem encryption_writes :
    Ends (main sampleWorld (sampleOs 3) envConsole (fun _ _ => true) encryptArgv) (sampleMachine sampleFile) fun r m' =>
      WritesOut (sampleOs 3) sampleOut 0o644 (Encrypts sampleWorld (sampleOs 3) envConsole encryptLine.args
        (sampleMachine sampleFile)) (sampleMachine sampleFile) (r.map (·.code)) m' :=
  ((tool_all_or_nothing sampleWorld (sampleOs 3) envConsole (fun _ _ => true) encryptArgv (sampleMachine sampleFile)).1
    encryptLine rfl).1 rfl

/-! ### Round trip -/

theorem KeyLoaded.disk {os : Os} {con : Console} {args : Args} {m m1 : Machine} {k : Bytes}
    (h : KeyLoaded os con args m k m1) : m1.disk = m.disk := by
  obtain ⟨key, hload, -⟩ := h
  have hlooks := ((@looks_loadKey os con args (KeyBytes.reserved con)).ends m).2.1
  rwa [hload] at hlooks

/-- **What the tool encrypts, the tool decrypts.** When both runs exit with 0, the second one on the file that the first
one wrote and with the same key, what is at its `--out` then is what the first one read at its `--in`. -/
theorem tool_round_trip (w : World) (os os' : Os) (con con' : Console) (mem mem' : ℕ → ℕ → Bool) (argv argv' : List Text)
    (line line' : CommandLine) (m m1 m' m2 : Machine) (o o' : Outcome) (hw : w.Lawful)
    (hp : parseArgs mem 0 argv {} = .ok (.ok line)) (hv : line.verb = .encrypt)
    (hrun : main w os con mem argv m = (.ok o, m1)) (hok : o.code = kExitOk)
    (hp' : parseArgs mem' 0 argv' {} = .ok (.ok line')) (hv' : line'.verb = .decrypt)
    (hrun' : main w os' con' mem' argv' m' = (.ok o', m2)) (hok' : o'.code = kExitOk)
    (hfile : (os'.follow line'.args.input).bind (fun n => m'.disk.look n) = m1.holds os (some line.args.out))
    (hkey : ∀ k mk k' mk', KeyLoaded os con line.args m k mk → KeyLoaded os' con' line'.args m' k' mk' → k' = k) :
    ∃ f y, (os.follow line.args.input).bind (fun n => m.disk.look n) = some f ∧ Reads os f y ∧
      m2.holds os' (some line'.args.out) = some ⟨y, 0o600⟩ := by
  have henc := @main_encrypts w os con mem argv line m hp hv
  have hdec := @main_decrypts w os' con' mem' argv' line' m' hp' hv'
  unfold Ends at henc hdec
  rw [hrun] at henc
  rw [hrun'] at hdec
  obtain ⟨data, ⟨opts, -, k, mk, hk, hmakes⟩, hholds, -⟩ := henc.ok (congrArg Except.ok hok)
  obtain ⟨data', ⟨k', mk', hk', hmakes'⟩, hholds', -⟩ := hdec.1.ok (congrArg Except.ok hok')
  obtain ⟨f, y, hf, hreads, hturns⟩ := Makes.turns hmakes
  obtain ⟨f', z, hf', hreads', hturns'⟩ := Makes.turns hmakes'
  obtain rfl := hkey k mk k' mk' hk hk'
  rw [hk.disk] at hf
  rw [hk'.disk, hfile, hholds] at hf'
  cases hf'
  obtain rfl := hturns.genuine hw hturns' hreads'.1
  exact ⟨f, _, hf, hreads, hholds'⟩

def decryptArgv : List Text := ["decrypt".toList, "--in".toList, sampleOut, "--out".toList, sampleOut,
  "--key-env".toList, "KEY".toList]

def decryptLine : CommandLine := { command := "decrypt".toList, args := ⟨sampleOut, sampleOut, [], "KEY".toList,
  [], [], [], [], []⟩ }

/-- The decryption in place of what the encryption left. -/
def decryption : Except Stop Outcome × Machine :=
  main sampleWorld (sampleOs 91) envConsole (fun _ _ => true) decryptArgv encryption.2

/-- A key that is loaded from the environment is the value of the variable. -/
theorem KeyLoaded.env {os : Os} {con : Console} {args : Args} {m m1 : Machine} {k : Bytes} {v : CString}
    (h : KeyLoaded os con args m k m1) (hs : args.source = some .env) (hv : con.getenv args.keyEnv = some v) :
    k = v.bytes := by
  obtain ⟨key, hload, rfl⟩ := h
  obtain ⟨hf, he⟩ := source_env hs
  unfold loadKey at hload
  rw [if_neg fun hb => hb.1 hf, if_neg (not_not.mpr hf), if_pos he] at hload
  obtain ⟨r, m2, hread, hjudge⟩ := bind_eq_ok.mp hload
  have hr : r = (none, key) := by
    obtain ⟨_ | d, key'⟩ := r
    · dsimp only at hjudge
      rw [if_neg (not_not.mpr rfl)] at hjudge
      split at hjudge <;> cases hjudge
      rfl
    · cases hjudge
  subst hr
  unfold readKeyEnv at hread
  rw [hv] at hread
  dsimp only at hread
  split at hread
  · cases hread
  · obtain ⟨key', hfilled, hassign⟩ := @assign_filled v.bytes (KeyBytes.reserved con) con
      (by rw [reserved_length]; omega)
    rw [bind_ok (hassign m)] at hread
    cases hread
    exact hfilled.bytes

theorem sampleTool_round_trip : ∃ f y, sampleFile = f ∧ Reads (sampleOs 3) f y ∧
    decryption.2.holds (sampleOs 91) (some sampleOut) = some ⟨y, 0o600⟩ := by
  have hrun : encryption = (.ok ⟨kExitOk, .ok (.encrypted sampleIn sampleOut)⟩, encryption.2) := by
    rw [← encryption_ok]
  have hok : decryption.1 = .ok ⟨kExitOk, .ok (.decrypted sampleOut sampleOut)⟩ := by decide +kernel
  have hrun' : decryption = (.ok ⟨kExitOk, .ok (.decrypted sampleOut sampleOut)⟩, decryption.2) := by
    rw [← hok]
  obtain ⟨f, y, hf, hreads, hholds⟩ := tool_round_trip sampleWorld (sampleOs 3) (sampleOs 91) envConsole envConsole
    (fun _ _ => true) (fun _ _ => true) encryptArgv decryptArgv encryptLine decryptLine (sampleMachine sampleFile)
    encryption.2 encryption.2 decryption.2 _ _ sampleWorld_lawful rfl rfl hrun rfl rfl rfl
    hrun' rfl (by rw [Machine.holds]; rfl) fun k mk k' mk' hk hk' =>
      (hk'.env (by decide) rfl).trans (hk.env (by decide) rfl).symm
  exact ⟨f, y, Option.some.inj hf, hreads, hholds⟩

end ModelCrypt.Cli
