/-
# What the code asks of others, and what can be seen of a run

`World` is everything a run depends on that the code does not decide: which
allocations succeed, what the random generator returns, what scrypt, the EVP
calls, GCM, deflate and inflate answer. An answer may depend on when it is
asked, the number of events so far, so that every pattern of failures is some
world. A run leaves a trace: the calls it made to these, and the points of
`DecryptBuffer` the properties speak about.

`St` is the memory and the trace. `Run` is a program over it; `Ref` is a
program that has no memory and only the trace, which `onTrace` runs in place.

Key definitions: `World`, `Event`, `St`, `Run`, `Ref`.
-/
import ModelCrypt.Format
import ModelCrypt.Lib.Heap

namespace ModelCrypt

open Lib Prog

/-! ### Questions and answers -/

/-- The arguments of `EVP_PBE_scrypt`; the length asked for is `kKeySize`. -/
structure ScryptArgs where
  pass : Bytes
  salt : Bytes
  n : UInt64
  r : UInt64
  p : UInt64
  maxMem : UInt64
  deriving DecidableEq, Repr

/-- The arguments of `aead::Seal`. -/
structure SealArgs where
  key : Bytes
  nonce : Bytes
  aad : Bytes
  pt : Bytes
  deriving DecidableEq, Repr

/-- The arguments of `aead::Open`. -/
structure OpenArgs where
  key : Bytes
  nonce : Bytes
  aad : Bytes
  ct : Bytes
  tag : ByteVec kTagSize
  deriving DecidableEq, Repr

/-- The EVP calls of `aead.cc`, by what they do. -/
inductive EvpCall
  | newCtx | initCipher | setIvLen | initKey | updateAad | update | setTag | getTag | final
  deriving DecidableEq, Repr

/-- What `deflate` and `inflate` return, as far as the code tells it apart. -/
inductive ZReturn
  | streamEnd | ok | bufError | failed
  deriving DecidableEq, Repr

/-- The answer of `deflate(.., Z_FINISH)` with `room` bytes of output space. -/
structure Deflated (room : ℕ) where
  rc : ZReturn
  out : Bytes
  fits : out.length ≤ room

/-- The answer of `inflate(.., Z_FINISH)`, with what is left of the input. -/
structure Inflated (room : ℕ) where
  rc : ZReturn
  out : Bytes
  remaining : ℕ
  fits : out.length ≤ room

/-- What an allocation is for: the name of the variable that owns it. -/
inductive BufName
  | entryStorage | derived | scratch | firstChunk | plaintext | file | exact | fileContents
  deriving DecidableEq, Repr

/-- Everything a run depends on that the code does not decide. -/
structure World where
  sizeT : SizeT
  alloc : ℕ → ℕ → Bool
  rand : ℕ → (n : ℕ) → Option (ByteVec n)
  scrypt : ℕ → ScryptArgs → Option (ByteVec kKeySize)
  evp : ℕ → EvpCall → Bool
  gcmSeal : (a : SealArgs) → ByteVec a.pt.length × ByteVec kTagSize
  gcmOpen : (a : OpenArgs) → ByteVec a.ct.length × Bool
  deflateInit : ℕ → Bool
  deflate : ℕ → Bytes → (room : ℕ) → Deflated room
  inflateInit : ℕ → Bool
  inflate : ℕ → Bytes → (room : ℕ) → Inflated room

/-- What can be seen of a run. -/
inductive Event
  | alloc (buf : BufName) (size : ℕ) (ok : Bool)
  | drawn (size : ℕ) (bytes : Option Bytes)
  | derived (a : ScryptArgs) (key : Option (ByteVec kKeySize))
  | sealed (a : SealArgs) (r : Except McStatus (Bytes × ByteVec kTagSize))
  | opened (a : OpenArgs) (r : Except McStatus Bytes)
  | deflated (input : Bytes) (room : ℕ) (r : Except McStatus (Bytes × Bool))
  | inflated (input : Bytes) (room : ℕ) (r : Except McStatus Bytes)
  /-- `WalkChunkTable` accepted the table. -/
  | walked
  /-- `OpenChunk` was entered: the space at `plain_out` and in `scratch`. -/
  | entered (index : UInt32) (chunk : ChunkHeader) (plainSize room : ℕ) (scratch : Option ℕ)
  /-- `*out` and `*out_size` were written. -/
  | delivered (size : ℕ)
  deriving DecidableEq

/-! ### Programs -/

structure St where
  heap : Heap
  trace : List Event

abbrev Run := Prog St Stop

/-- A program without memory. -/
abbrev Ref := Prog (List Event) McStatus

namespace Ref

/-- The number of events so far, by which a world tells one question from another. -/
def clock : Ref ℕ := fun tr => (.ok tr.length, tr)

def emit (e : Event) : Ref Unit := fun tr => (.ok (), tr ++ [e])

/-- A call that ends in `r`, which may depend on when it is made, and is logged. -/
def ask {α : Type} (ev : Except McStatus α → Event) (r : ℕ → Except McStatus α) : Ref α := fun tr =>
  (r tr.length, tr ++ [ev (r tr.length)])

/-- `if (c) return s;` -/
def returnIf (c : Prop) [Decidable c] (s : McStatus) : Ref Unit := throwIf c s

end Ref

/-- A program of the trace, run on the whole state. -/
def onTrace {α : Type} (m : Ref α) : Run α := zoom St.trace (fun tr s => { s with trace := tr }) Stop.status m

def clock : Run ℕ := onTrace Ref.clock

def emit (e : Event) : Run Unit := onTrace (Ref.emit e)

theorem clock_run (s : St) : clock s = (.ok s.trace.length, s) := rfl

theorem emit_run (e : Event) (s : St) : emit e s = (.ok (), { s with trace := s.trace ++ [e] }) := rfl

/-- `if (rc != MC_OK) return rc;` for a call that touches no memory. -/
def ofStatus {α : Type} (r : Except McStatus α) : Run α := Prog.ofExcept (r.mapError Stop.status)

/-- `if (c) return s;` in a call that touches no memory. -/
def failIf (c : Prop) [Decidable c] (s : McStatus) : Except McStatus Unit := throwIf c s

theorem failIf_bind {β : Type} {c : Prop} [Decidable c] {s : McStatus} (f : Unit → Except McStatus β) :
    (failIf c s >>= f) = if c then .error s else f () := throwIf_except f

theorem failIf_eq {c : Prop} [Decidable c] {s : McStatus} : failIf c s = if c then .error s else .ok () := rfl

/-- What a caller sees of how a call ended. -/
def toStatus {α : Type} : Except Stop α → Except McStatus α
  | .ok a => .ok a
  | .error (.status s) => .error s
  | .error _ => .error .errFormat

/-- Run a call and log how it ended. -/
def logged {α : Type} (ev : Except McStatus α → Event) (m : Run α) : Run α :=
  report m fun r s => { s with trace := s.trace ++ [ev (toStatus r)] }

/-! ### Memory -/

/-- An access that must be inside a block in use. -/
def inBlock {α : Type} (r : Option α) : Except Stop α := r.elim (.error (.fault .blockBounds)) .ok

def load (p : Ptr) (n : ℕ) : Run Bytes := fun s => (inBlock (s.heap.load p n), s)

def store (p : Ptr) (d : Bytes) : Run Unit := fun s =>
  match s.heap.store p d with
  | some h => (.ok (), { s with heap := h })
  | none => (.error (.fault .blockBounds), s)

end ModelCrypt
