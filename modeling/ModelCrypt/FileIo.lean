/-
# Whole files in and out

`file_io.cc` and the entry points of `c_api.cc` on files. `ReadFully` and
`WriteFully` are one loop, but for a transfer of no bytes, which ends the one
and not the other. A loop makes at least one system call each time round, so
it is given as many rounds as the machine has calls left and one more; that it
needs no more is for the proofs to find. The clean-up on the error paths is
that of the source, call for call.

Key definitions: `transferLoop`, `readFile`, `writeFileAtomically`,
`mcEncryptFile`, `mcDecryptFile`, `mcDecryptFileToBuffer`.
-/
import ModelCrypt.Os
import ModelCrypt.Api

namespace ModelCrypt

open Lib Prog

namespace Fileio

/-! ### The transfer loops -/

/-- `while (done < size)` around a system call, with `fuel` rounds. -/
def transferLoop (call : ℕ → Sys Transfer) (stopAtZero : Bool) (size : ℕ) : ℕ → ℕ → Sys Bool
  | 0, _ => throw .powerLoss
  | fuel + 1, done =>
    if done < size then do
      match ← call done with
      | .eintr => transferLoop call stopAtZero size fuel done
      | .error => return false
      | .count n =>
        if stopAtZero = true ∧ n = 0 then return false
        else transferLoop call stopAtZero size fuel (done + n)
    else return true

/-- The loop, with a round for each system call left and one more. -/
def transferFully (call : ℕ → Sys Transfer) (stopAtZero : Bool) (size : ℕ) : Sys Bool := do
  let m ← state
  transferLoop call stopAtZero size (m.left + 1) 0

variable (os : Os)

/-- `ReadFully`: the end of the file before `size` bytes is a failure. -/
def readFully (fd : ℕ) (out : Ptr) (size : ℕ) : Sys Bool :=
  transferFully (fun done => sysRead os fd (out.add done) (size - done)) true size

/-- `WriteFully`: a write of no bytes is tried again. -/
def writeFully (fd : ℕ) (inp : Ptr) (size : ℕ) : Sys Bool :=
  transferFully (fun done => sysWrite os fd (inp.add done) (size - done)) false size

/-! ### ReadFile -/

/-- `if (c) { ::close(fd); return s; }` -/
def closeIf (fd : ℕ) (c : Prop) [Decidable c] (s : McStatus) : Sys Unit :=
  if c then do
    let _ ← sysClose os fd
    throw (.status s)
  else return ()

/-- `if (size > 0 && !ReadFully(..)) { ::close(fd); return MC_ERR_IO; }` -/
def readAll (fd : ℕ) (out : Ptr) (size : ℕ) : Sys Unit :=
  if size > 0 then do
    let whole ← readFully os fd out size
    closeIf os fd (whole = false) .errIo
  else return ()

/-- `ReadFile`: the buffer and its size. -/
def readFile (w : World) (path : Path) (maxSize : UInt64) : Sys (SecureBuffer × ℕ) := do
  match ← sysOpen os path with
  | none => throw (.status .errIo)
  | some fd =>
    match ← sysFstat os fd with
    | none =>
      let _ ← sysClose os fd
      throw (.status .errIo)
    | some st =>
      closeIf os fd (st.regular = false) .errIo
      closeIf os fd (st.size < 0) .errIo
      let size := st.size.toNat
      closeIf os fd (size > maxSize.toNat ∨ size > w.sizeT.max) .errTooLarge
      let (ok, buffer) ← onSt (reset w .fileContents {} size)
      onStop (do
        closeIf os fd (ok = false) .errMemory
        readAll os fd buffer.ptr size
        let _ ← sysClose os fd
        return (buffer, size)) (onSt (destroy buffer))

/-! ### WriteFileAtomically -/

/-- The directory component of a path, or "." when there is none. -/
def directoryName (path : Path) : Path :=
  -- `find_last_of('/')` is what is left of the length without the last component
  let slash := path.length - 1 - (path.reverse.takeWhile (· ≠ '/')).length
  if '/' ∉ path then ['.'] else if slash = 0 then ['/'] else path.take slash

/-- `DirectoryOf`. -/
def directoryOf (path : Path) : Sys Path := do
  newString os .directory (directoryName path).length
  return directoryName path

/-- `".model-crypt-XXXXXX"`. -/
def kTemplate : Path := ['.', 'm', 'o', 'd', 'e', 'l', '-', 'c', 'r', 'y', 'p', 't', '-', 'X', 'X', 'X', 'X', 'X', 'X']

/-- `s += t`. -/
def append (site : StringSite) (s t : Path) : Sys Path := do
  newString os site (s ++ t).length
  return s ++ t

/-- `if (c) { ::close(fd); ::unlink(path); return MC_ERR_IO; }` -/
def discardIf (fd : ℕ) (path : Path) (c : Prop) [Decidable c] : Sys Unit :=
  if c then do
    let _ ← sysClose os fd
    let _ ← sysUnlink os path
    throw (.status .errIo)
  else return ()

/-- `if (c) { ::unlink(path); return MC_ERR_IO; }` -/
def unlinkIf (path : Path) (c : Prop) [Decidable c] : Sys Unit :=
  if c then do
    let _ ← sysUnlink os path
    throw (.status .errIo)
  else return ()

/-- `if (size > 0 && !WriteFully(..)) { ::close(fd); ::unlink(path); return MC_ERR_IO; }` -/
def writeAll (fd : ℕ) (path : Path) (data : Ptr) (size : ℕ) : Sys Unit :=
  if size > 0 then do
    let whole ← writeFully os fd data size
    discardIf os fd path (whole = false)
  else return ()

/-- The template of the temporary file for a path. -/
def templateFor (path : Path) : Path :=
  (if (directoryName path).getLast? = some '/' then directoryName path else directoryName path ++ ['/']) ++ kTemplate

/-- The string that `mkstemp` is to fill in. -/
def temporaryFor (path : Path) : Sys Path := do
  let temporary ← directoryOf os path
  let temporary ← if temporary.getLast? = some '/' then pure temporary else append os .slash temporary ['/']
  let temporary ← append os .template temporary kTemplate
  newString os .mutablePath temporary.length
  return temporary

/-- `WriteFileAtomically`. -/
def writeFileAtomically (path : Path) (data : Ptr) (size : ℕ) (mode : UInt32) : Sys Unit := do
  returnIf (size > 0 ∧ data = .null) .errInvalidArg
  let mutablePath ← temporaryFor os path
  match ← sysMkstemp os mutablePath with
  | none => throw (.status .errIo)
  | some (fd, mutablePath) =>
    let moded ← sysFchmod os fd mode
    discardIf os fd mutablePath (moded = false)
    writeAll os fd mutablePath data size
    -- fsync before rename: the new name never points at data that is not on the disk
    let synced ← sysFsync os fd
    discardIf os fd mutablePath (synced = false)
    let closed ← sysClose os fd
    unlinkIf os mutablePath (closed = false)
    let renamed ← sysRename os mutablePath path
    unlinkIf os mutablePath (renamed = false)

end Fileio

/-! ### The entry points on files -/

open Fileio

variable (w : World) (os : Os)

/-- `if (!ToPath(path, &s)) return MC_ERR_INVALID_ARG;` -/
def toPath (site : StringSite) : Option Path → Sys Path
  | none => throw (.status .errInvalidArg)
  | some path => do
    newString os site path.length
    return path

/-- `try { .. } catch (const std::bad_alloc&) { return MC_ERR_MEMORY; }` -/
def catchBadAlloc {α : Type} (m : Sys α) : Sys α := tryCatchThe Stop m fun
  | .badAlloc => throw (.status .errMemory)
  | e => throw e

/-- The two path arguments, copied into strings. -/
def toPaths (inPath outPath : Option Path) : Sys (Path × Path) := catchBadAlloc do
  let inputPath ← toPath os .inputPath inPath
  let outputPath ← toPath os .outputPath outPath
  return (inputPath, outputPath)

/-- The scope of a buffer that dies with it. After a power loss there is no memory left, and
what the model does to it then is not seen. -/
def withBuffer {α : Type} (buf : SecureBuffer) (body : Sys α) : Sys α := always body (onSt (destroy buf))

/-- `mc_encrypt_file` and `mc_decrypt_file` differ in what they make of the input, the largest
input and the mode of the output. -/
def cryptFile (crypt : Span → Run (SecureBuffer × ℕ)) (maxSize : UInt64) (mode : UInt32)
    (inPath outPath : Option Path) : Sys Unit := do
  let (inputPath, outputPath) ← toPaths os inPath outPath
  let (source, sourceSize) ← readFile os w inputPath maxSize
  withBuffer source do
    let input ← onSt (spanAt source.ptr sourceSize)
    let (result, resultSize) ← onSt (crypt input)
    withBuffer result do
      writeFileAtomically os outputPath result.ptr resultSize mode

/-- `mc_encrypt_file`. -/
def mcEncryptFile (key : Span) (opts : Option EncryptOptions) : Option Path → Option Path → Sys Unit :=
  cryptFile w os (Encrypt.encryptBuffer w key (opts.getD defaultOptions)) mcMaxPlaintextSize 0o644

/-- `mc_decrypt_file`: the input is bounded by what `mc_encrypt_file` can write. -/
def mcDecryptFile (key : Span) : Option Path → Option Path → Sys Unit :=
  cryptFile w os (Decrypt.decryptBuffer w key) kMaxFileSize 0o600

/-- `mc_decrypt_file_to_buffer`. -/
def mcDecryptFileToBuffer (key : Span) (inPath : Option Path) (outNull outSizeNull : Bool) :
    Sys (Option ℕ × ℕ) := do
  returnIf (outNull = true ∨ outSizeNull = true) .errInvalidArg
  let inputPath ← catchBadAlloc (toPath os .inputPath inPath)
  let (ciphertext, ciphertextSize) ← readFile os w inputPath kMaxFileSize
  withBuffer ciphertext do
    let input ← onSt (spanAt ciphertext.ptr ciphertextSize)
    let (plaintext, plaintextSize) ← onSt (Decrypt.decryptBuffer w key input)
    return handOff plaintext plaintextSize

end ModelCrypt
