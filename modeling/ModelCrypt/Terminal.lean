/-
# The terminal

The tool once more, with the terminal that it asks for a key at: its settings, and
what it has shown of what was typed. `ReadKeyPrompt` turns the echo off, reads a
line and puts the settings back; nothing else is done to the terminal, and but for
it the tool is what it was.

However the tool ends, no key was shown, and the settings are as they were, unless
it was killed at the prompt, or the call that was to put them back failed. The prompt
comes first in a run, so its calls are known by the time that the run starts at.

Key definitions: `Terminal`, `Tty.readKeyPrompt`, `Tty.main`, `Unrestored`, `Discreet`.
Key theorems: `Discreet.bind`, `discreet_readKeyPrompt`, `terminal_restored`.
-/
import ModelCrypt.Tool
import ModelCrypt.Lib.Triple

namespace ModelCrypt.Cli

open Lib Prog

/-- A `termios`, with all but `c_lflag` in one piece. -/
structure Termios where
  cLflag : UInt32
  rest : Bytes
  deriving DecidableEq, Repr

/-- `ECHO`. -/
def echoFlag : UInt32 := 0o10

/-- `quiet.c_lflag &= ~ECHO`. -/
def Termios.quiet (x : Termios) : Termios := { x with cLflag := x.cLflag &&& ~~~echoFlag }

/-- A terminal, and what it has shown of the lines that were typed, without their newlines. -/
structure Terminal where
  settings : Termios
  shown : Bytes
  deriving DecidableEq, Repr

/-- What shows when a line is typed. -/
def Terminal.type (x : Bytes) (t : Terminal) : Terminal :=
  { t with shown := t.shown ++ if t.settings.cLflag &&& echoFlag = 0 then [] else x }

namespace Tty

/-- A program of the tool, at its terminal. -/
abbrev Seen := Prog (Machine × Terminal) Stop

/-- What is no matter to the terminal. -/
def aside {α : Type} (p : Sys α) : Seen α := zoom Prod.fst (fun m s => (m, s.2)) id p

variable (w : World) (os : Os) (con : Console)

/-- `tcgetattr(STDIN_FILENO, ..)`. -/
def tcgetattr : Seen (Option Termios) := do
  let ok ← aside (answer con.tcgetattrOk)
  let s ← state
  return if ok = true then some s.2.settings else none

/-- `tcsetattr(STDIN_FILENO, TCSAFLUSH, ..)`. -/
def tcsetattr (x : Termios) : Seen Bool := do
  let ok ← aside (answer con.tcsetattrOk)
  update fun s => (s.1, if ok = true then { s.2 with settings := x } else s.2)
  return ok

/-- `ReadKeyPrompt`. -/
def readKeyPrompt (key : KeyBytes) : Seen (Frame (Option Diagnostic × KeyBytes)) := do
  let tty ← aside (answer con.isatty)
  if tty = false then return ⟨(some .notATerminal, key), none⟩
  match ← tcgetattr con with
  | none => return ⟨(some .noTerminalSettings, key), none⟩
  | some original =>
    let quiet ← tcsetattr con original.quiet
    if quiet = false then return ⟨(some .cannotDisableEcho, key), none⟩
    -- what is typed may show before the line is complete
    update fun s => (s.1, s.2.type (con.typed.takeWhile (· ≠ newline)))
    let (line, buffer) ← aside (syscall fun _ m => (fgets con (con.garbage (kMaxKeyFileSize + 1)).1, m))
    let _ ← tcsetattr con original
    if line = false then return ⟨(some .noKeyRead, key), some buffer⟩
    let length := strlen buffer
    if length = buffer.length - 1 ∧ buffer[length - 1]? ≠ some newline then
      return ⟨(some .keyTooLong, key), some (secureZero buffer)⟩
    let key ← aside (key.assign con (buffer.take length))
    return ⟨(none, stripOneTrailingNewline key), some (secureZero buffer)⟩

/-- `LoadKey`. -/
def loadKey (args : Args) (key : KeyBytes) : Seen (Option Diagnostic × KeyBytes) :=
  if args.keyFile ≠ [] ∧ args.keyEnv ≠ [] then return (some .twoSources, key)
  else do
    let (said, key) ←
      if args.keyFile ≠ [] then do
        let r ← aside (readKeyFile os con args.keyFile key)
        pure r.value
      else if args.keyEnv ≠ [] then aside (readKeyEnv con args.keyEnv key)
      else do
        let r ← readKeyPrompt con key
        pure r.value
    if said ≠ none then return (said, key)
    if key.size < mcMinKeySize then return (some (.keyTooShort key.size), key)
    return (none, key)

def withKey (args : Args) (failed : McStatus → Diagnostic) (call : Span → Sys Unit) : Seen Exit := do
  let key ← aside (KeyBytes.make con)
  let (said, key) ← loadKey os con args key
  if said ≠ none then return ⟨kExitUsage, said⟩
  match ← aside (attempt (call (.bytes key.bytes))) with
  | .error s => return ⟨kExitFailure, some (failed s)⟩
  | .ok _ => return ⟨kExitOk, none⟩

/-- `RunEncrypt`. -/
def runEncrypt (args : Args) : Seen Exit :=
  match requirePaths args true with
  | some d => return ⟨kExitUsage, some d⟩
  | none =>
    match encryptOptions args with
    | .error d => return ⟨kExitUsage, some d⟩
    | .ok opts => withKey os con args .encryptFailed fun key =>
        mcEncryptFile w os key (some opts) (some args.input) (some args.out)

/-- `RunDecrypt`. -/
def runDecrypt (args : Args) : Seen Exit :=
  match requirePaths args true with
  | some d => return ⟨kExitUsage, some d⟩
  | none => withKey os con args .decryptFailed fun key => mcDecryptFile w os key (some args.input) (some args.out)

def perform (line : CommandLine) : Seen Outcome :=
  match line.verb with
  | .encrypt => do
    let e ← runEncrypt w os con line.args
    return e.outcome (.encrypted line.args.input line.args.out)
  | .decrypt => do
    let e ← runDecrypt w os con line.args
    return e.outcome (.decrypted line.args.input line.args.out)
  | _ => aside (Cli.perform w os con line)

/-- `Run`. -/
def run (mem : ℕ → ℕ → Bool) (argv : List Text) : Seen Outcome := do
  match ← aside (Prog.ofExcept (parseArgs mem 0 argv {})) with
  | .error c => return ⟨kExitUsage, .error c⟩
  | .ok line => perform w os con line

/-- `main`. -/
def main (mem : ℕ → ℕ → Bool) (argv : List Text) : Seen Outcome := tryCatchThe Stop (run w os con mem argv) fun
  | .badAlloc => return ⟨kExitFailure, .error .exception⟩
  | e => throw e

end Tty

/-! ### But for the terminal -/

theorem Termios.quiet_quiet (x : Termios) : x.quiet.quiet = x.quiet := by
  simp [Termios.quiet, UInt32.and_assoc]

theorem Terminal.type_quiet (x : Bytes) (t : Terminal) :
    Terminal.type x { t with settings := t.settings.quiet } = { t with settings := t.settings.quiet } := by
  have h : t.settings.cLflag &&& ~~~echoFlag &&& echoFlag = 0 := by simp [UInt32.and_assoc]
  simp [Terminal.type, Termios.quiet, h]

/-- No more was shown, and no more is changed than the echo. -/
structure Terminal.Left (t t' : Terminal) : Prop where
  shown : t'.shown = t.shown
  settings : t'.settings = t.settings ∨ t'.settings = t.settings.quiet

theorem Terminal.Left.refl (t : Terminal) : t.Left t := ⟨rfl, .inl rfl⟩

theorem Terminal.Left.trans {t t' t'' : Terminal} (h : t.Left t') (h' : t'.Left t'') : t.Left t'' := by
  refine ⟨h'.shown.trans h.shown, ?_⟩
  rcases h'.settings with h2 | h2 <;> rcases h.settings with h1 | h1 <;> rw [h1] at h2
  · exact .inl h2
  · exact .inr h2
  · exact .inr h2
  · exact .inr (h2.trans t.settings.quiet_quiet)

/-- Of the calls of a prompt that starts at a time, the one that turns the echo off does, and the one that is to put the
settings back fails. -/
def Unrestored (con : Console) (time : ℕ) : Prop :=
  con.tcsetattrOk (time + 2) = true ∧ con.tcsetattrOk (time + 4) = false

/-- The key is typed in, as neither other source is given. -/
def Args.Typed (args : Args) : Prop := args.keyFile = [] ∧ args.keyEnv = []

/-- A prompt was asked for, and it did not put the settings back. -/
def LeftQuiet (con : Console) (args : Args) (time : ℕ) : Prop := args.Typed ∧ Unrestored con time

/-- The command line asks for a key at the terminal. -/
def CommandLine.Prompts (line : CommandLine) : Prop := (line.verb = .encrypt ∨ line.verb = .decrypt) ∧ line.args.Typed

/-- From `s` on, `p` does what `q` does, and leaves the terminal as `t` was, but where it is killed or with `U`. -/
def Agrees {α : Type} (U : Prop) (t : Terminal) (p : Tty.Seen α) (q : Sys α) (s : Machine × Terminal) : Prop :=
  Ends p s fun r s' => (r, s'.1) = q s.1 ∧ t.Left s'.2 ∧ (s'.2 = t ∨ r = .error .powerLoss ∨ U)

/-- At the terminal `p` does what `q` does, and changes it at most with what `U` says of the time it starts at. -/
def Discreet {α : Type} (U : ℕ → Prop) (p : Tty.Seen α) (q : Sys α) : Prop := ∀ m t, Agrees (U m.time) t p q (m, t)

section Agrees

variable {w : World} {os : Os} {con : Console} {α β : Type} {U : Prop} {V : ℕ → Prop} {t t' : Terminal}
  {p : Tty.Seen α} {q : Sys α} {f : α → Tty.Seen β} {g : α → Sys β} {m : Machine} {key : KeyBytes} {args : Args}

theorem Agrees.pure {a : α} (h : t.Left t') (hr : t' = t ∨ U) :
    Agrees U t (Pure.pure a) (Pure.pure a) (m, t') :=
  ⟨rfl, h, hr.imp_right .inr⟩

/-- A system call that is no matter to the terminal, wherever it is made. -/
theorem Agrees.call {c : ℕ → Machine → α × Machine} (h : t.Left t') (hr : ∀ n, m.left = n + 1 →
    Agrees U t (f (c m.time m).1) (g (c m.time m).1) ({ (c m.time m).2 with time := m.time + 1, left := n }, t')) :
    Agrees U t (Tty.aside (syscall c) >>= f) (syscall c >>= g) (m, t') := by
  unfold Agrees Ends
  rw [bind_apply, bind_apply]
  unfold Tty.aside zoom syscall
  rcases hl : m.left with _ | n
  · exact ⟨rfl, h, .inr (.inl rfl)⟩
  · exact hr n hl

/-- `tcgetattr` is one that gives the settings. -/
theorem Agrees.tcgetattr {f : Option Termios → Tty.Seen β} {g : Bool → Sys β} (h : t.Left t')
    (hr : ∀ n, m.left = n + 1 →
      Agrees U t (f (if con.tcgetattrOk m.time = true then some t'.settings else none)) (g (con.tcgetattrOk m.time))
        ({ m with time := m.time + 1, left := n }, t')) :
    Agrees U t (Tty.tcgetattr con >>= f) (answer con.tcgetattrOk >>= g) (m, t') := by
  unfold Tty.tcgetattr
  rw [bind_assoc]
  exact Agrees.call h hr

/-- `tcsetattr` is one that sets them, if it does anything. -/
theorem Agrees.tcsetattr {x : Termios} {f g} (h : t.Left t') (hr : ∀ n, m.left = n + 1 →
    Agrees U t (f (con.tcsetattrOk m.time)) (g (con.tcsetattrOk m.time)) ({ m with time := m.time + 1, left := n },
      if con.tcsetattrOk m.time = true then { t' with settings := x } else t')) :
    Agrees U t (Tty.tcsetattr con x >>= f) (answer con.tcsetattrOk >>= g : Sys β) (m, t') := by
  unfold Tty.tcsetattr
  rw [bind_assoc]
  exact Agrees.call h hr

theorem Discreet.pure (a : α) : Discreet V (Pure.pure a) (Pure.pure a) := fun _ t => Agrees.pure (.refl t) (.inl rfl)

theorem Discreet.aside (q : Sys α) : Discreet V (Tty.aside q) q := by
  intro m t
  unfold Agrees Ends Tty.aside zoom
  rcases q m with ⟨e | a, m'⟩ <;> exact ⟨rfl, .refl t, .inl rfl⟩

/-- What leaves the terminal alone may come when it is as it was, or never will be. -/
theorem Discreet.agrees (hp : Discreet (fun _ => False) p q) (h : t.Left t') (hr : t' = t ∨ U) :
    Agrees U t p q (m, t') := by
  obtain ⟨heq, hleft, hback⟩ := hp m t'
  refine ⟨heq, h.trans hleft, ?_⟩
  rcases hr with rfl | hr
  · exact hback.imp_right (Or.imp_right False.elim)
  · exact .inr (.inr hr)

/-- **What comes after another is as discreet as that**, if it leaves the terminal alone. -/
theorem Discreet.bind (hp : Discreet V p q) (hf : ∀ a, Discreet (fun _ => False) (f a) (g a)) :
    Discreet V (p >>= f) (q >>= g) := by
  intro m t
  obtain ⟨heq, hleft, hback⟩ := hp m t
  unfold Agrees Ends
  rw [bind_apply, bind_apply, ← heq]
  rcases hr : p (m, t) with ⟨e | a, m', t'⟩ <;> rw [hr] at hleft hback
  · refine ⟨rfl, hleft, hback.imp_right (Or.imp_left fun he => ?_)⟩
    cases he
    rfl
  · exact (hf a).agrees hleft (hback.imp_right fun h => h.resolve_left nofun)

/-- What comes at once is as discreet as it would be alone. -/
theorem Discreet.after (hq : ∀ m, (q m).2.time = m.time)
    (hf : ∀ a m m', q m = (.ok a, m') → Discreet V (f a) (g a)) : Discreet V (Tty.aside q >>= f) (q >>= g) := by
  intro m t
  have htime := hq m
  unfold Agrees Ends
  rw [bind_apply, bind_apply]
  unfold Tty.aside zoom
  dsimp only
  rcases hr : q m with ⟨e | a, m'⟩ <;> rw [hr] at htime
  · exact ⟨rfl, .refl t, .inl rfl⟩
  · have hall := hf a m m' hr m' t
    rwa [show m'.time = m.time from htime] at hall

theorem Discreet.mono {V' : ℕ → Prop} (hp : Discreet V p q) (hV : ∀ time, V time → V' time) : Discreet V' p q :=
  fun m t => (hp m t).imp_right (And.imp_right (Or.imp_right (Or.imp_right (hV m.time))))

/-- Two calls after the echo was turned off, the settings are put back. -/
theorem left_restore {time : ℕ} (quiet : con.tcsetattrOk (time + 2) = true) (t : Terminal) :
    t.Left (if con.tcsetattrOk (time + 4) = true then t else { t with settings := t.settings.quiet }) ∧
      ((if con.tcsetattrOk (time + 4) = true then t else { t with settings := t.settings.quiet }) = t ∨
        Unrestored con time) := by
  by_cases hback : con.tcsetattrOk (time + 4) = true
  · rw [if_pos hback]
    exact ⟨.refl t, .inl rfl⟩
  · rw [if_neg hback]
    exact ⟨⟨rfl, .inr rfl⟩, .inr ⟨quiet, eq_false_of_ne_true hback⟩⟩

/-- **The settings are put back on every path out of the prompt**, but for the path where that fails. -/
theorem discreet_readKeyPrompt (key : KeyBytes) :
    Discreet (Unrestored con) (Tty.readKeyPrompt con key) (readKeyPrompt con key) := by
  intro m t
  refine Agrees.call (.refl t) fun n hn => ?_
  split
  · exact Agrees.pure (.refl t) (.inl rfl)
  refine Agrees.tcgetattr (.refl t) fun n hn => ?_
  cases con.tcgetattrOk _ with
  | false => exact Agrees.pure (.refl t) (.inl rfl)
  | true =>
  refine Agrees.tcsetattr (.refl t) fun n hn => ?_
  cases hquiet : con.tcsetattrOk _ with
  | false => exact Agrees.pure (.refl t) (.inl rfl)
  | true =>
  -- from here to the second `tcsetattr` there is no echo
  have hleft : t.Left { t with settings := t.settings.quiet } := ⟨rfl, .inr rfl⟩
  change Agrees _ t (Tty.aside (syscall _) >>= _) (syscall _ >>= _)
    (_, Terminal.type _ { t with settings := t.settings.quiet })
  rw [Terminal.type_quiet]
  refine Agrees.call hleft fun n hn => ?_
  generalize fgets con _ = line
  refine Agrees.tcsetattr hleft fun n hn => ?_
  obtain ⟨hleft, hback⟩ := left_restore hquiet t
  refine Discreet.agrees ?_ hleft hback
  dsimp only
  split
  · exact .pure _
  split
  · exact .pure _
  · exact (Discreet.aside _).bind fun _ => .pure _

/-- `LoadKey` at the terminal is `LoadKey`. -/
theorem discreet_loadKey (args : Args) (key : KeyBytes) :
    Discreet (LeftQuiet con args) (Tty.loadKey os con args key) (loadKey os con args key) := by
  unfold Tty.loadKey loadKey
  split
  · exact .pure _
  have hjudge (r : Option Diagnostic × KeyBytes) : Discreet (fun _ => False)
      (if r.1 ≠ none then Pure.pure (r.1, r.2) else if r.2.size < mcMinKeySize then
        Pure.pure (some (Diagnostic.keyTooShort r.2.size), r.2) else Pure.pure (none, r.2))
      (if r.1 ≠ none then Pure.pure (r.1, r.2) else if r.2.size < mcMinKeySize then
        Pure.pure (some (Diagnostic.keyTooShort r.2.size), r.2) else Pure.pure (none, r.2)) := by
    split
    · exact .pure _
    · split <;> exact .pure _
  dsimp only
  split
  · exact (Discreet.aside _).bind fun _ => (Discreet.pure _).bind hjudge
  split
  · exact (Discreet.aside _).bind hjudge
  rename_i hfile henv
  refine ((discreet_readKeyPrompt key).mono fun time h => ?_).bind fun _ => (Discreet.pure _).bind hjudge
  exact ⟨⟨not_not.mp hfile, not_not.mp henv⟩, h⟩

theorem discreet_withKey {failed : McStatus → Diagnostic} {call : Span → Sys Unit} :
    Discreet (LeftQuiet con args) (Tty.withKey os con args failed call) (withKey os con args failed call) := by
  refine Discreet.after (KeyBytes.make_time con) fun key _ _ _ => (discreet_loadKey args key).bind fun r => ?_
  rcases r with ⟨said, key⟩
  dsimp only
  split
  · exact .pure _
  · refine (Discreet.aside _).bind fun rc => ?_
    rcases rc with _ | _ <;> exact .pure _

theorem discreet_runEncrypt :
    Discreet (LeftQuiet con args) (Tty.runEncrypt w os con args) (runEncrypt w os con args) := by
  unfold Tty.runEncrypt runEncrypt
  rcases requirePaths args true with _ | d
  · rcases encryptOptions args with d | opts
    · exact .pure _
    · exact discreet_withKey
  · exact .pure _

theorem discreet_runDecrypt :
    Discreet (LeftQuiet con args) (Tty.runDecrypt w os con args) (runDecrypt w os con args) := by
  unfold Tty.runDecrypt runDecrypt
  rcases requirePaths args true with _ | d
  · exact discreet_withKey
  · exact .pure _

theorem discreet_perform (line : CommandLine) :
    Discreet (fun time => line.Prompts ∧ Unrestored con time) (Tty.perform w os con line) (perform w os con line) := by
  unfold Tty.perform
  split <;> rename_i hv
  · rw [perform, hv]
    exact (discreet_runEncrypt.mono fun _ h => ⟨⟨.inl hv, h.1⟩, h.2⟩).bind fun _ => .pure _
  · rw [perform, hv]
    exact (discreet_runDecrypt.mono fun _ h => ⟨⟨.inr hv, h.1⟩, h.2⟩).bind fun _ => .pure _
  · exact .aside _

theorem discreet_run (mem : ℕ → ℕ → Bool) (argv : List Text) :
    Discreet (fun time => (∃ line, parseArgs mem 0 argv {} = .ok (.ok line) ∧ line.Prompts) ∧ Unrestored con time)
      (Tty.run w os con mem argv) (run w os con mem argv) := by
  refine Discreet.after (fun _ => rfl) fun r m m' hr => ?_
  rcases r with c | line
  · exact .pure _
  · obtain ⟨hp, -⟩ := Prod.mk.inj hr
    exact (discreet_perform line).mono fun _ h => ⟨⟨line, hp, h.1⟩, h.2⟩

end Agrees

/-- **The terminal is left as it was found.** However the tool ends, it does what it does without a terminal, nothing
of a key was shown, and nothing but the echo can have changed; and the settings are what they were, unless the process
was killed, or it asked for a key, turned the echo off, and failed to turn it on again. -/
theorem terminal_restored (w : World) (os : Os) (con : Console) (mem : ℕ → ℕ → Bool) (argv : List Text) (m : Machine)
    (t : Terminal) : Ends (Tty.main w os con mem argv) (m, t) fun r s =>
      (r, s.1) = main w os con mem argv m ∧ s.2.shown = t.shown ∧
        (s.2.settings = t.settings ∨ s.2.settings = t.settings.quiet) ∧
        (s.2 = t ∨ r = .error .powerLoss ∨
          (∃ line, parseArgs mem 0 argv {} = .ok (.ok line) ∧ line.Prompts) ∧ Unrestored con m.time) := by
  have hrun : Discreet _ (Tty.run w os con mem argv) (run w os con mem argv) := discreet_run mem argv
  obtain ⟨heq, hleft, hback⟩ := hrun m t
  unfold Ends Tty.main main
  rw [catch_apply, catch_apply, ← heq]
  rcases hr : Tty.run w os con mem argv (m, t) with ⟨e | a, m', t'⟩ <;> rw [hr] at hleft hback
  · have hstop := hback.imp_right (Or.imp_left Except.error.inj)
    cases e with
    | badAlloc => exact ⟨rfl, hleft.shown, hleft.settings, hback.imp_right fun h => .inr (h.resolve_left nofun)⟩
    | _ => exact ⟨rfl, hleft.shown, hleft.settings, hstop.imp_right (Or.imp_left (congrArg _))⟩
  · exact ⟨rfl, hleft.shown, hleft.settings, hback.imp_right fun h => .inr (h.resolve_left nofun)⟩

end ModelCrypt.Cli
