/-
# The file calls as processes

The calls of `FileIo` once more, cut into their system calls: processes that
share a disk and have everything else to themselves. Between two system calls
of one of them others may make theirs; a process that has no calls left is
killed where it is. Alone, each process is the call it is named after
(`run_readFile`, `run_writeFileAtomically`, `run_cryptFile`).

Key definitions: `Process`, `diskView`, `Conc.readFile`, `Conc.writeFileAtomically`, `Conc.cryptFile`.
Key theorems: `run_readFile`, `run_writeFileAtomically`, `run_cryptFile`.
-/
import ModelCrypt.FileIo
import ModelCrypt.Lib.Pool

namespace ModelCrypt

open Lib Prog Fileio

/-- A process: it shares the disk. -/
abbrev Process := Proc Machine Stop

/-- The disk of a machine. -/
def diskView : View Machine (Disk Path) := ⟨Machine.disk, fun d m => { m with disk := d }, fun _ _ => rfl, fun _ => rfl⟩

namespace Conc

variable (os : Os)

/-! ### The transfer loops -/

/-- `Fileio.transferLoop`, with a step for each system call. -/
def transferLoop (c : ℕ → Sys Transfer) (stopAtZero : Bool) (size : ℕ) : ℕ → ℕ → Process Bool
  | 0, _ => .stop .powerLoss
  | fuel + 1, done =>
    if done < size then do
      match ← .call (c done) with
      | .eintr => transferLoop c stopAtZero size fuel done
      | .error => return false
      | .count n =>
        if stopAtZero = true ∧ n = 0 then return false
        else transferLoop c stopAtZero size fuel (done + n)
    else return true

def transferFully (c : ℕ → Sys Transfer) (stopAtZero : Bool) (size : ℕ) : Process Bool := do
  let m ← .call state
  transferLoop c stopAtZero size (m.left + 1) 0

/-- `ReadFully`. -/
def readFully (fd : ℕ) (out : Ptr) (size : ℕ) : Process Bool :=
  transferFully (fun done => sysRead os fd (out.add done) (size - done)) true size

/-- `WriteFully`. -/
def writeFully (fd : ℕ) (inp : Ptr) (size : ℕ) : Process Bool :=
  transferFully (fun done => sysWrite os fd (inp.add done) (size - done)) false size

/-! ### ReadFile -/

def closeIf (fd : ℕ) (c : Prop) [Decidable c] (s : McStatus) : Process Unit :=
  if c then do
    let _ ← .call (sysClose os fd)
    .stop (.status s)
  else return ()

def readAll (fd : ℕ) (out : Ptr) (size : ℕ) : Process Unit :=
  if size > 0 then do
    let whole ← readFully os fd out size
    closeIf os fd (whole = false) .errIo
  else return ()

/-- `ReadFile`. -/
def readFile (w : World) (path : Path) (maxSize : UInt64) : Process (SecureBuffer × ℕ) := do
  match ← .call (sysOpen os path) with
  | none => .stop (.status .errIo)
  | some fd =>
    match ← .call (sysFstat os fd) with
    | none =>
      let _ ← .call (sysClose os fd)
      .stop (.status .errIo)
    | some st =>
      closeIf os fd (st.regular = false) .errIo
      closeIf os fd (st.size < 0) .errIo
      let size := st.size.toNat
      closeIf os fd (size > maxSize.toNat ∨ size > w.sizeT.max) .errTooLarge
      let (ok, buffer) ← .call (onSt (reset w .fileContents {} size))
      Proc.onStop (do
        closeIf os fd (ok = false) .errMemory
        readAll os fd buffer.ptr size
        let _ ← .call (sysClose os fd)
        return (buffer, size)) (.call (onSt (destroy buffer)))

/-! ### WriteFileAtomically -/

def discardIf (fd : ℕ) (path : Path) (c : Prop) [Decidable c] : Process Unit :=
  if c then do
    let _ ← .call (sysClose os fd)
    let _ ← .call (sysUnlink os path)
    .stop (.status .errIo)
  else return ()

def unlinkIf (path : Path) (c : Prop) [Decidable c] : Process Unit :=
  if c then do
    let _ ← .call (sysUnlink os path)
    .stop (.status .errIo)
  else return ()

def writeAll (fd : ℕ) (path : Path) (data : Ptr) (size : ℕ) : Process Unit :=
  if size > 0 then do
    let whole ← writeFully os fd data size
    discardIf os fd path (whole = false)
  else return ()

/-- `WriteFileAtomically`. -/
def writeFileAtomically (path : Path) (data : Ptr) (size : ℕ) (mode : UInt32) : Process Unit := do
  .call (returnIf (size > 0 ∧ data = .null) .errInvalidArg)
  let mutablePath ← .call (temporaryFor os path)
  match ← .call (sysMkstemp os mutablePath) with
  | none => .stop (.status .errIo)
  | some (fd, mutablePath) =>
    let moded ← .call (sysFchmod os fd mode)
    discardIf os fd mutablePath (moded = false)
    writeAll os fd mutablePath data size
    let synced ← .call (sysFsync os fd)
    discardIf os fd mutablePath (synced = false)
    let closed ← .call (sysClose os fd)
    unlinkIf os mutablePath (closed = false)
    let renamed ← .call (sysRename os mutablePath path)
    unlinkIf os mutablePath (renamed = false)

/-! ### The entry points on files -/

def withBuffer {α : Type} (buf : SecureBuffer) (body : Process α) : Process α :=
  body.always (.call (onSt (destroy buf)))

/-- `mc_encrypt_file` and `mc_decrypt_file`. -/
def cryptFile (w : World) (crypt : Span → Run (SecureBuffer × ℕ)) (maxSize : UInt64) (mode : UInt32)
    (inPath outPath : Option Path) : Process Unit := do
  let (inputPath, outputPath) ← .call (toPaths os inPath outPath)
  let (source, sourceSize) ← readFile os w inputPath maxSize
  withBuffer source do
    let input ← .call (onSt (spanAt source.ptr sourceSize))
    let (result, resultSize) ← .call (onSt (crypt input))
    withBuffer result (writeFileAtomically os outputPath result.ptr resultSize mode)

/-- `mc_decrypt_file_to_buffer`. -/
def decryptFileToBuffer (w : World) (key : Span) (inPath : Option Path) (outNull outSizeNull : Bool) :
    Process (Option ℕ × ℕ) := do
  .call (returnIf (outNull = true ∨ outSizeNull = true) .errInvalidArg)
  let inputPath ← .call (catchBadAlloc (toPath os .inputPath inPath))
  let (ciphertext, ciphertextSize) ← readFile os w inputPath kMaxFileSize
  withBuffer ciphertext do
    let input ← .call (onSt (spanAt ciphertext.ptr ciphertextSize))
    let (plaintext, plaintextSize) ← .call (onSt (Decrypt.decryptBuffer w key input))
    return handOff plaintext plaintextSize

/-! ### Alone -/

section Alone

variable {os}

theorem run_transferLoop (c : ℕ → Sys Transfer) (stopAtZero : Bool) (size : ℕ) : ∀ fuel done,
    (transferLoop c stopAtZero size fuel done).run = Fileio.transferLoop c stopAtZero size fuel done := by
  intro fuel
  induction fuel with
  | zero => exact fun _ => rfl
  | succ fuel ih =>
    intro done
    rw [transferLoop, Fileio.transferLoop]
    split
    · rw [Proc.run_bind]
      refine congrArg _ (funext fun r => ?_)
      cases r with
      | eintr => exact ih done
      | error => rfl
      | count n =>
        dsimp only
        split
        · rfl
        · exact ih (done + n)
    · rfl

theorem run_transferFully (c : ℕ → Sys Transfer) (stopAtZero : Bool) (size : ℕ) :
    (transferFully c stopAtZero size).run = Fileio.transferFully c stopAtZero size := by
  unfold transferFully Fileio.transferFully
  simp only [Proc.run_bind, Proc.run_call, run_transferLoop]

theorem run_closeIf (fd : ℕ) (c : Prop) [Decidable c] (s : McStatus) :
    (closeIf os fd c s).run = Fileio.closeIf os fd c s := by
  unfold closeIf Fileio.closeIf
  split <;> simp

theorem run_readAll (fd : ℕ) (out : Ptr) (size : ℕ) : (readAll os fd out size).run = Fileio.readAll os fd out size := by
  unfold readAll Fileio.readAll readFully Fileio.readFully
  split
  · simp only [Proc.run_bind, run_transferFully, run_closeIf]
  · rfl

/-- **Alone, `ReadFile` is `ReadFile`.** -/
theorem run_readFile (w : World) (path : Path) (maxSize : UInt64) :
    (readFile os w path maxSize).run = Fileio.readFile os w path maxSize := by
  unfold readFile Fileio.readFile
  rw [Proc.run_bind]
  refine congrArg _ (funext fun fd => ?_)
  rcases fd with _ | fd
  · rfl
  dsimp only
  rw [Proc.run_bind]
  refine congrArg _ (funext fun st => ?_)
  rcases st with _ | st
  · simp
  · simp only [Proc.run_bind, Proc.run_call, Proc.run_onStop, run_closeIf, run_readAll, Proc.run_pure]

theorem run_discardIf (fd : ℕ) (path : Path) (c : Prop) [Decidable c] :
    (discardIf os fd path c).run = Fileio.discardIf os fd path c := by
  unfold discardIf Fileio.discardIf
  split <;> simp

theorem run_unlinkIf (path : Path) (c : Prop) [Decidable c] : (unlinkIf os path c).run = Fileio.unlinkIf os path c := by
  unfold unlinkIf Fileio.unlinkIf
  split <;> simp

theorem run_writeAll (fd : ℕ) (path : Path) (data : Ptr) (size : ℕ) :
    (writeAll os fd path data size).run = Fileio.writeAll os fd path data size := by
  unfold writeAll Fileio.writeAll writeFully Fileio.writeFully
  split
  · simp only [Proc.run_bind, run_transferFully, run_discardIf]
  · rfl

/-- **Alone, `WriteFileAtomically` is `WriteFileAtomically`.** -/
theorem run_writeFileAtomically (path : Path) (data : Ptr) (size : ℕ) (mode : UInt32) :
    (writeFileAtomically os path data size mode).run = Fileio.writeFileAtomically os path data size mode := by
  unfold writeFileAtomically Fileio.writeFileAtomically
  simp only [Proc.run_bind, Proc.run_call]
  refine congrArg _ (funext fun _ => congrArg _ (funext fun mp => congrArg _ (funext fun r => ?_)))
  rcases r with _ | ⟨fd, mp⟩
  · rfl
  · simp only [Proc.run_bind, Proc.run_call, run_discardIf, run_writeAll, run_unlinkIf]

/-- **Alone, `mc_encrypt_file` and `mc_decrypt_file` are what they are.** -/
theorem run_cryptFile (w : World) (crypt : Span → Run (SecureBuffer × ℕ)) (maxSize : UInt64) (mode : UInt32)
    (inPath outPath : Option Path) :
    (cryptFile os w crypt maxSize mode inPath outPath).run =
      ModelCrypt.cryptFile w os crypt maxSize mode inPath outPath := by
  unfold cryptFile ModelCrypt.cryptFile withBuffer ModelCrypt.withBuffer
  simp only [Proc.run_bind, Proc.run_call, Proc.run_always, run_readFile, run_writeFileAtomically]

theorem run_decryptFileToBuffer (w : World) (key : Span) (inPath : Option Path) (outNull outSizeNull : Bool) :
    (decryptFileToBuffer os w key inPath outNull outSizeNull).run =
      mcDecryptFileToBuffer w os key inPath outNull outSizeNull := by
  unfold decryptFileToBuffer mcDecryptFileToBuffer withBuffer ModelCrypt.withBuffer
  simp only [Proc.run_bind, Proc.run_call, Proc.run_always, run_readFile, Proc.run_pure]

end Alone

end Conc

end ModelCrypt
