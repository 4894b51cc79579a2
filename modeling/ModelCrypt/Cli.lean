/-
# The command line

`cli/main.cc`, from the parsed arguments on: the three key sources, the
conversion of numbers, and the subcommands that make a key or take one. A
function of the source that returns `false` after a message returns the message
here (`Diagnostic`), and `none` where it returns `true`. A function that key
bytes pass through in an array of its own returns the array too, as it is left on
the stack (`Frame`).

`Console` is what the tool gets besides from its terminal, its environment and
the allocator of its vectors.

Key definitions: `Console`, `KeyBytes`, `readKeyFile`, `readKeyEnv`,
`readKeyPrompt`, `loadKey`, `parseU32`, `runKeygen`, `runEncrypt`, `runDecrypt`.
-/
import ModelCrypt.FileIo
import ModelCrypt.Lib.Strto

namespace ModelCrypt.Cli

open Lib Prog Fileio

abbrev Text := List Char

def kExitOk : ℕ := 0
def kExitUsage : ℕ := 2
def kExitFailure : ℕ := 1

/-- The largest key file the tool reads. -/
def kMaxKeyFileSize : ℕ := 4096

/-- The message that a function prints before it fails. -/
inductive Diagnostic
  | required (option : String)
  | keygenFailed (s : McStatus)
  | cannotCreate (path : Path)
  | failedToWrite (path : Path)
  | cannotOpenKeyFile (path : Path)
  | keyFileTooLarge (path : Path)
  | notSet (name : Text)
  | holdsTooMuch (name : Text)
  | notATerminal
  | noTerminalSettings
  | cannotDisableEcho
  | noKeyRead
  | keyTooLong
  | twoSources
  | keyTooShort (size : ℕ)
  | badCompression
  | notANumber (option : String) (text : Text)
  | outOfRange (option : String) (min max : UInt32) (value : UInt64)
  | encryptFailed (s : McStatus)
  | decryptFailed (s : McStatus)
  deriving DecidableEq, Repr

/-- A C string, without the NUL at its end. -/
structure CString where
  bytes : Bytes
  noNul : 0 ∉ bytes

/-- What the tool gets from outside besides system calls on files. -/
structure Console where
  /-- What an array holds before anything is stored in it. -/
  garbage : (n : ℕ) → ByteVec n
  /-- Whether there is memory for a vector of a size, at a time. -/
  vector : ℕ → ℕ → Bool
  getenv : Text → Option CString
  isatty : ℕ → Bool
  tcgetattrOk : ℕ → Bool
  tcsetattrOk : ℕ → Bool
  /-- What can be read from the terminal. -/
  typed : Bytes
  /-- Whether reading on fails then; else the input ends. -/
  broken : Bool

/-- A call that is answered with yes or no. -/
def answer (f : ℕ → Bool) : Sys Bool := syscall fun t m => (f t, m)

/-- What a function returns, and its array as it was then, if it had come to it. -/
structure Frame (α : Type) where
  value : α
  array : Option Bytes

/-- `SecureZero(x, sizeof(x))`. -/
def secureZero (x : Bytes) : Bytes := zeros x.length

/-! ### KeyBytes -/

def newline : UInt8 := 10
def carriageReturn : UInt8 := 13

/-- `KeyBytes`: the block of the vector, whose length is the capacity, and how many bytes of it are in use. -/
structure KeyBytes where
  block : Bytes
  size : ℕ
  size_le : size ≤ block.length
  /-- The blocks that the vector outgrew, as they were when it gave them back. -/
  outgrown : List Bytes

namespace KeyBytes

/-- The bytes from `data()` on. -/
def bytes (key : KeyBytes) : Bytes := key.block.take key.size

/-- Memory for a block of the vector, or `std::bad_alloc`. -/
def newBlock (con : Console) (size : ℕ) : Sys Unit := do
  let m ← state
  throwIf (con.vector m.time size = false) Stop.badAlloc

/-- `reserve(kMaxKeyFileSize)` of an empty vector. -/
def reserved (con : Console) : KeyBytes := ⟨(con.garbage kMaxKeyFileSize).1, 0, Nat.zero_le _, []⟩

/-- The constructor. -/
def make (con : Console) : Sys KeyBytes := do
  newBlock con kMaxKeyFileSize
  return reserved con

/-- `assign`: into the block, if it is large enough. -/
def assign (con : Console) (key : KeyBytes) (x : Bytes) : Sys KeyBytes :=
  if h : x.length ≤ key.block.length then
    return ⟨overwrite key.block 0 x, x.length, by rw [overwrite_length (by omega)]; exact h, key.outgrown⟩
  else do
    newBlock con x.length
    return ⟨x, x.length, le_refl _, key.outgrown ++ [key.block]⟩

def popBack (key : KeyBytes) : KeyBytes :=
  { key with size := key.size - 1, size_le := le_trans (Nat.sub_le _ _) key.size_le }

/-- The destructor: the block as it is given back. -/
def destroy (key : KeyBytes) : Bytes :=
  if key.size > 0 then overwrite key.block 0 (zeros key.size) else key.block

end KeyBytes

/-- `StripOneTrailingNewline`. -/
def stripOneTrailingNewline (key : KeyBytes) : KeyBytes :=
  if key.bytes.getLast? = some newline then
    if key.popBack.bytes.getLast? = some carriageReturn then key.popBack.popBack else key.popBack
  else key

/-! ### Where a key comes from -/

/-- `fread`, that reads on until it has `size` bytes, or a read fails or finds the end. Every round gets a byte, so
there are no more rounds than bytes. -/
def freadLoop (os : Os) (fd size : ℕ) : ℕ → Bytes → Sys Bytes
  | 0, x => return x
  | rounds + 1, x =>
    if x.length < size then do
      match ← syscall (readTransfer os fd (size - x.length)) with
      | (.count n, y) => if n = 0 then return x else freadLoop os fd size rounds (x ++ y)
      | _ => return x
    else return x

/-- `fread(.., 1, size, file)`: the bytes that were read. -/
def fread (os : Os) (fd size : ℕ) : Sys Bytes := freadLoop os fd size size []

/-- `ReadKeyFile`. -/
def readKeyFile (os : Os) (con : Console) (path : Path) (key : KeyBytes) :
    Sys (Frame (Option Diagnostic × KeyBytes)) := do
  match ← sysOpen os path with
  | none => return ⟨(some (.cannotOpenKeyFile path), key), none⟩
  | some fd =>
    let read ← fread os fd (kMaxKeyFileSize + 1)
    let buffer := overwrite (con.garbage (kMaxKeyFileSize + 1)).1 0 read
    let _ ← sysClose os fd
    if read.length > kMaxKeyFileSize then return ⟨(some (.keyFileTooLarge path), key), some buffer⟩
    let key ← key.assign con (buffer.take read.length)
    return ⟨(none, stripOneTrailingNewline key), some (secureZero buffer)⟩

/-- `ReadKeyEnv`. -/
def readKeyEnv (con : Console) (name : Text) (key : KeyBytes) : Sys (Option Diagnostic × KeyBytes) :=
  match con.getenv name with
  | none => return (some (.notSet name), key)
  | some value =>
    if value.bytes.length > kMaxKeyFileSize then return (some (.holdsTooMuch name), key)
    else do
      let key ← key.assign con value.bytes
      return (none, key)

/-- The first line, with its newline if there is one. -/
def firstLine (x : Bytes) : Bytes :=
  x.takeWhile (· ≠ newline) ++ if newline ∈ x then [newline] else []

/-- `fgets(buffer, sizeof(buffer), stdin)`: whether it returns a line, and the array. A line that does not fill the
array and has no newline goes to the end of the input, or to where reading fails. -/
def fgets (con : Console) (buffer : Bytes) : Bool × Bytes :=
  let line := (firstLine con.typed).take (buffer.length - 1)
  if line.length < buffer.length - 1 ∧ line.getLast? ≠ some newline ∧ con.broken = true then
    (false, overwrite buffer 0 line)
  else if line = [] then (false, buffer)
  else (true, overwrite buffer 0 (line ++ [0]))

/-- `strlen`. -/
def strlen (x : Bytes) : ℕ := (x.takeWhile (· ≠ 0)).length

/-- `ReadKeyPrompt`. -/
def readKeyPrompt (con : Console) (key : KeyBytes) : Sys (Frame (Option Diagnostic × KeyBytes)) := do
  let tty ← answer con.isatty
  if tty = false then return ⟨(some .notATerminal, key), none⟩
  let original ← answer con.tcgetattrOk
  if original = false then return ⟨(some .noTerminalSettings, key), none⟩
  let quiet ← answer con.tcsetattrOk
  if quiet = false then return ⟨(some .cannotDisableEcho, key), none⟩
  let (line, buffer) ← syscall fun _ m => (fgets con (con.garbage (kMaxKeyFileSize + 1)).1, m)
  let _ ← answer con.tcsetattrOk
  if line = false then return ⟨(some .noKeyRead, key), some buffer⟩
  let length := strlen buffer
  if length = buffer.length - 1 ∧ buffer[length - 1]? ≠ some newline then
    return ⟨(some .keyTooLong, key), some (secureZero buffer)⟩
  let key ← key.assign con (buffer.take length)
  return ⟨(none, stripOneTrailingNewline key), some (secureZero buffer)⟩

/-- What `ParseArgs` makes of the command line, all strings still. -/
structure Args where
  input : Path
  out : Path
  keyFile : Path
  keyEnv : Text
  compression : Text
  chunkSize : Text
  kdfLogN : Text
  kdfR : Text
  kdfP : Text

/-- `LoadKey`. -/
def loadKey (os : Os) (con : Console) (args : Args) (key : KeyBytes) : Sys (Option Diagnostic × KeyBytes) :=
  if args.keyFile ≠ [] ∧ args.keyEnv ≠ [] then return (some .twoSources, key)
  else do
    let (said, key) ←
      if args.keyFile ≠ [] then do
        let r ← readKeyFile os con args.keyFile key
        pure r.value
      else if args.keyEnv ≠ [] then readKeyEnv con args.keyEnv key
      else do
        let r ← readKeyPrompt con key
        pure r.value
    if said ≠ none then return (said, key)
    if key.size < mcMinKeySize then return (some (.keyTooShort key.size), key)
    return (none, key)

/-! ### Numbers -/

/-- `ParseU32`, with what is in `*out` afterwards. -/
def parseU32 (text : Text) (name : String) (min max out : UInt32) : Option Diagnostic × UInt32 :=
  if text = [] ∨ text.head? = some '-' ∨ text.head? = some '+' then (some (.notANumber name text), out)
  else
    -- `c_str()` ends at the first NUL
    let r := strtoull (text.takeWhile (· ≠ '\x00'))
    if r.erange = true ∨ r.rest ≠ [] then (some (.notANumber name text), out)
    else if r.value < min.toUInt64 ∨ r.value > max.toUInt64 then (some (.outOfRange name min max r.value), out)
    else (none, r.value.toUInt32)

/-- `if (!text.empty() && !ParseU32(text, name, min, max, &out)) return kExitUsage;` -/
def optionU32 (text : Text) (name : String) (min max out : UInt32) : Except Diagnostic UInt32 :=
  if text = [] then .ok out
  else match parseU32 text name min max out with
    | (none, v) => .ok v
    | (some d, _) => .error d

/-- The options of `RunEncrypt`. -/
def encryptOptions (args : Args) : Except Diagnostic EncryptOptions := do
  let opts := defaultOptions
  let compression ←
    if args.compression = [] then pure opts.compression
    else if args.compression = ['n', 'o', 'n', 'e'] then pure mcCompressNoneOption
    else if args.compression = ['z', 'l', 'i', 'b'] then pure mcCompressZlibOption
    else throw .badCompression
  let chunkSize ← optionU32 args.chunkSize "--chunk-size" ((4 : UInt32) <<< 10) ((64 : UInt32) <<< 20) opts.chunkSize
  let logN ← optionU32 args.kdfLogN "--kdf-log-n" 14 20 opts.kdfLogN.toUInt32
  let r ← optionU32 args.kdfR "--kdf-r" 1 32 opts.kdfR
  let p ← optionU32 args.kdfP "--kdf-p" 1 16 opts.kdfP
  return ⟨compression, chunkSize, logN.toUInt8, r, p⟩

/-! ### The subcommands -/

/-- What a subcommand returns, and its message if it fails. -/
structure Exit where
  code : ℕ
  said : Option Diagnostic
  deriving DecidableEq, Repr

/-- `const mc_status rc = ..`: a call of the library, with what it delivers. -/
def attempt {α : Type} (m : Sys α) : Sys (Except McStatus α) := tryCatchThe Stop (do return .ok (← m)) fun
  | .status s => return .error s
  | e => throw e

/-- `mc_generate_key`, into an array of `size` bytes. -/
def mcGenerateKey (w : World) (size : ℕ) : Run (ByteVec size) := onTrace (fill w size)

/-- `RequirePaths`. -/
def requirePaths (args : Args) (needOut : Bool) : Option Diagnostic :=
  if args.input = [] then some (.required "--in")
  else if needOut = true ∧ args.out = [] then some (.required "--out")
  else none

variable (w : World) (os : Os) (con : Console)

/-- `RunKeygen`, with the array `raw`. -/
def runKeygen (args : Args) : Sys (Frame Exit) :=
  if args.out = [] then return ⟨⟨kExitUsage, some (.required "--out")⟩, none⟩
  else do
    match ← attempt (onSt (mcGenerateKey w 32)) with
    | .error s => return ⟨⟨kExitFailure, some (.keygenFailed s)⟩, some (con.garbage 32).1⟩
    | .ok raw =>
      -- O_EXCL: an existing key is never replaced
      match ← sysCreate os args.out 0o600 with
      | none => return ⟨⟨kExitFailure, some (.cannotCreate args.out)⟩, some raw.1⟩
      | some fd =>
        let written ← syscall (writeTransfer os fd raw.1)
        let _ ← sysClose os fd
        if written ≠ .count 32 then
          return ⟨⟨kExitFailure, some (.failedToWrite args.out)⟩, some (secureZero raw.1)⟩
        return ⟨⟨kExitOk, none⟩, some (secureZero raw.1)⟩

/-- What `RunEncrypt` and `RunDecrypt` do once the arguments are checked: load a key, make the call, and report how
it ended. -/
def withKey (args : Args) (failed : McStatus → Diagnostic) (call : Span → Sys Unit) : Sys Exit := do
  let key ← KeyBytes.make con
  let (said, key) ← loadKey os con args key
  if said ≠ none then return ⟨kExitUsage, said⟩
  match ← attempt (call (.bytes key.bytes)) with
  | .error s => return ⟨kExitFailure, some (failed s)⟩
  | .ok _ => return ⟨kExitOk, none⟩

/-- `RunEncrypt`. -/
def runEncrypt (args : Args) : Sys Exit :=
  match requirePaths args true with
  | some d => return ⟨kExitUsage, some d⟩
  | none =>
    match encryptOptions args with
    | .error d => return ⟨kExitUsage, some d⟩
    | .ok opts => withKey os con args .encryptFailed fun key =>
        mcEncryptFile w os key (some opts) (some args.input) (some args.out)

/-- `RunDecrypt`. -/
def runDecrypt (args : Args) : Sys Exit :=
  match requirePaths args true with
  | some d => return ⟨kExitUsage, some d⟩
  | none => withKey os con args .decryptFailed fun key => mcDecryptFile w os key (some args.input) (some args.out)

end ModelCrypt.Cli
