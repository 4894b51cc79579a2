/-
# The operating system and what it is asked

`Os` is everything a run depends on that the file layer does not decide: which
directory entry a path names, what each system call answers, and whether there
is memory for a string. An answer may depend on how many system calls were made
before, so that every sequence of outcomes is some `Os`. What a successful call
does is the machine's part: a `read` transfers the bytes of the file behind the
descriptor, never more than were asked for, and `mkstemp` only creates a name
that was absent.

A machine completes `left` more system calls and then loses power. A run from a
machine is thus a run up to some crash point, and what is said about all
machines is said about all crash points.

Key definitions: `Os`, `Machine`, `Sys`, `syscall`.
-/
import ModelCrypt.SecureBuffer
import ModelCrypt.Lib.Disk

namespace ModelCrypt

open Lib Prog

abbrev Path := List Char

/-- What `mkstemp` puts in place of the six X. -/
structure Suffix where
  chars : List Char
  length : chars.length = 6
  alphanum : ∀ c ∈ chars, c.isAlphanum = true

/-- What `read` and `write` return: a count, or -1 with `errno`. -/
inductive Transfer
  | count (n : ℕ)
  | eintr
  | error
  deriving DecidableEq, Repr

/-- What the code looks at in a `struct stat`. -/
structure Stat where
  regular : Bool
  size : ℤ
  deriving DecidableEq, Repr

/-- The strings made on the way to a temporary file, and the copies of the path arguments. -/
inductive StringSite
  | inputPath | outputPath | directory | slash | template | mutablePath
  deriving DecidableEq, Repr

/-- Everything a run depends on that the file layer does not decide. -/
structure Os where
  umask : UInt32
  /-- The directory entry a path names, if its directory exists. -/
  resolve : Path → Option Path
  /-- The same, with symbolic links at the end followed. -/
  follow : Path → Option Path
  /-- Whether there is memory for a string of a length, at a time. -/
  string : ℕ → StringSite → ℕ → Bool
  openOk : ℕ → Bool
  fstat : ℕ → Option Stat
  read : ℕ → Transfer
  write : ℕ → Transfer
  mkstemp : ℕ → Option Suffix
  fchmodOk : ℕ → Bool
  fsyncOk : ℕ → Bool
  closeOk : ℕ → Bool
  renameOk : ℕ → Bool
  unlinkOk : ℕ → Bool

/-- An open file. -/
structure Descriptor where
  inode : ℕ
  pos : ℕ
  isOpen : Bool
  deriving DecidableEq, Repr

/-- The process, the disk, and the system calls made and left to make. -/
structure Machine where
  st : St
  disk : Disk Path
  fds : List Descriptor
  time : ℕ
  left : ℕ

abbrev Sys := Prog Machine Stop

/-- A program of the process, which makes no system call. -/
def onSt {α : Type} (m : Run α) : Sys α := zoom Machine.st (fun s m => { m with st := s }) id m

/-- One system call, with the number of calls before it. -/
def syscall {α : Type} (f : ℕ → Machine → α × Machine) : Sys α := fun m =>
  match m.left with
  | 0 => (.error .powerLoss, m)
  | n + 1 => (.ok (f m.time m).1, { (f m.time m).2 with time := m.time + 1, left := n })

/-- Memory for a string, or `std::bad_alloc`. -/
def newString (os : Os) (site : StringSite) (size : ℕ) : Sys Unit := do
  let m ← state
  throwIf (os.string m.time site size = false) Stop.badAlloc

namespace Machine

/-- The open file behind a descriptor. -/
def desc (m : Machine) (fd : ℕ) : Option Descriptor := m.fds[fd]?.filter (·.isOpen)

/-- A new descriptor at the start of a file. -/
def push (m : Machine) (inode : ℕ) : Machine := { m with fds := m.fds ++ [⟨inode, 0, true⟩] }

/-- Move the position of a descriptor. -/
def seek (m : Machine) (fd n : ℕ) : Machine := { m with fds := m.fds.modify fd fun e => { e with pos := e.pos + n } }

def shut (m : Machine) (fd : ℕ) : Machine := { m with fds := m.fds.modify fd fun e => { e with isOpen := false } }

/-- What a file holds. -/
def contents (m : Machine) (inode : ℕ) : Bytes := m.disk.inodes[inode]?.elim [] (·.now.data)

def touch (m : Machine) (inode : ℕ) (f : Inode → Inode) : Machine := { m with disk := m.disk.touch inode f }

end Machine

/-! ### The system calls -/

variable (os : Os)

/-- `open(path, O_RDONLY)`. -/
def sysOpen (path : Path) : Sys (Option ℕ) := syscall fun t m =>
  match (os.follow path).bind m.disk.entry with
  | some inode => if os.openOk t then (some m.fds.length, m.push inode) else (none, m)
  | none => (none, m)

/-- `open(path, O_WRONLY | O_CREAT | O_EXCL, mode)`: only a name that was absent is made. -/
def sysCreate (path : Path) (mode : UInt32) : Sys (Option ℕ) := syscall fun t m =>
  match os.resolve path with
  | none => (none, m)
  | some name =>
    if m.disk.entry name = none ∧ os.openOk t = true then
      (some m.fds.length, { m with disk := m.disk.draft name (.create (mode &&& ~~~os.umask)) }.push m.disk.inodes.length)
    else (none, m)

/-- `fstat`. -/
def sysFstat (fd : ℕ) : Sys (Option Stat) := syscall fun t m => ((m.desc fd).bind fun _ => os.fstat t, m)

/-- What the kernel copies for a `read` of up to `n` bytes, and the position after. -/
def readTransfer (fd n t : ℕ) (m : Machine) : (Transfer × Bytes) × Machine :=
  match m.desc fd, os.read t with
  | none, _ => ((.error, []), m)
  | some e, .count k =>
    let x := slice (m.contents e.inode) e.pos (min k n)
    ((.count x.length, x), m.seek fd x.length)
  | some _, r => ((r, []), m)

/-- `read(fd, out, n)`. -/
def sysRead (fd : ℕ) (out : Ptr) (n : ℕ) : Sys Transfer := do
  let (r, x) ← syscall (readTransfer os fd n)
  onSt (store out x)
  return r

/-- What a `write` of the bytes `x` does. -/
def writeTransfer (fd : ℕ) (x : Bytes) (t : ℕ) (m : Machine) : Transfer × Machine :=
  match m.desc fd, os.write t with
  | none, _ => (.error, m)
  | some e, .count k => (.count (min k x.length), (m.touch e.inode (·.write e.pos (x.take k))).seek fd (min k x.length))
  | some _, r => (r, m)

/-- `write(fd, in, n)`. -/
def sysWrite (fd : ℕ) (inp : Ptr) (n : ℕ) : Sys Transfer := do
  let x ← onSt (load inp n)
  syscall (writeTransfer os fd x)

/-- `close`. -/
def sysClose (fd : ℕ) : Sys Bool := syscall fun t m => (os.closeOk t, m.shut fd)

/-- The template with its six X replaced. -/
def withSuffix (template : Path) (s : Suffix) : Path := template.take (template.length - 6) ++ s.chars

/-- `mkstemp(template)`: the descriptor and the path that was made. -/
def sysMkstemp (template : Path) : Sys (Option (ℕ × Path)) := syscall fun t m =>
  match os.mkstemp t with
  | none => (none, m)
  | some s =>
    match os.resolve (withSuffix template s) with
    | none => (none, m)
    | some name =>
      if m.disk.entry name = none then
        (some (m.fds.length, withSuffix template s),
          { m with disk := m.disk.draft name (.create (0o600 &&& ~~~os.umask)) }.push m.disk.inodes.length)
      else (none, m)

/-- `fchmod`. -/
def sysFchmod (fd : ℕ) (mode : UInt32) : Sys Bool := syscall fun t m =>
  match m.desc fd with
  | some e => if os.fchmodOk t then (true, m.touch e.inode (·.chmod mode)) else (false, m)
  | none => (false, m)

/-- `fsync`. -/
def sysFsync (fd : ℕ) : Sys Bool := syscall fun t m =>
  match m.desc fd with
  | some e => if os.fsyncOk t then (true, m.touch e.inode .sync) else (false, m)
  | none => (false, m)

/-- `rename`. -/
def sysRename (source target : Path) : Sys Bool := syscall fun t m =>
  match os.resolve source, os.resolve target with
  | some a, some b =>
    if os.renameOk t then (true, { m with disk := m.disk.rename a b }) else (false, m)
  | _, _ => (false, m)

/-- `unlink`. -/
def sysUnlink (path : Path) : Sys Bool := syscall fun t m =>
  match os.resolve path with
  | some a => if os.unlinkOk t then (true, { m with disk := m.disk.unlink a }) else (false, m)
  | none => (false, m)

end ModelCrypt
