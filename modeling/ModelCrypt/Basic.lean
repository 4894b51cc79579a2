/-
# Statuses, faults and what a caller passes

`McStatus` is `mc_status` of `model_crypt.h`. A run of the library stops
early with a status other than `MC_OK`, or with a fault: a memory access
outside its buffer, or a size_t computation that would wrap. The code never
reports a fault (it is undefined behaviour, or a wrong offset), so in the
model a run that would commit one stops there, and "no run faults" is a
statement to prove.

`Span` is a pointer and a length as a caller passes them.
-/
import ModelCrypt.Lib.Bytes
import ModelCrypt.Lib.Prog

namespace ModelCrypt

open Lib

/-- `mc_status`. -/
inductive McStatus
  | ok | errInvalidArg | errFormat | errUnsupported | errAuth | errCompress | errCrypto | errMemory
  | errIo | errTooLarge
  deriving DecidableEq, Repr

/-- What the code relies on never happening. -/
inductive Fault
  | nullPointer          -- a dereference of a null pointer
  | inputBounds          -- a read outside the input bytes
  | tableBounds          -- `entries[index]` outside the chunk table
  | blockBounds          -- an access outside a live heap block, or to a dead one
  | sizeWraps            -- a size_t sum or difference out of range
  deriving DecidableEq, Repr

/-- Why a run ends before its last statement. -/
inductive Stop
  | status (s : McStatus)
  | fault (f : Fault)
  | badAlloc             -- a `std::bad_alloc` in flight
  | powerLoss            -- the machine stops between two system calls
  deriving DecidableEq, Repr

/-- `if (c) return s;` -/
def returnIf {m : Type → Type} [Monad m] [MonadExceptOf Stop m] (c : Prop) [Decidable c] (s : McStatus) :
    m Unit := Prog.throwIf c (Stop.status s)

theorem returnIf_except {β : Type} {c : Prop} [Decidable c] {s : McStatus} (f : Unit → Except Stop β) :
    (returnIf c s >>= f) = if c then .error (.status s) else f () := Prog.throwIf_except f

/-- The width of `size_t`. -/
inductive SizeT
  | bits32 | bits64
  deriving DecidableEq, Repr

/-- `SIZE_MAX`. -/
def SizeT.max : SizeT → ℕ
  | bits32 => 2 ^ 32 - 1
  | bits64 => 2 ^ 64 - 1

theorem SizeT.max_ge (z : SizeT) : 2 ^ 32 - 1 ≤ z.max := by cases z <;> decide

/-- `a + b` of two `size_t`. The code's sum wraps; the model stops instead, so
that a run without a fault is one in which no sum wrapped. -/
def SizeT.add (z : SizeT) (a b : ℕ) : Except Stop ℕ :=
  if a + b ≤ z.max then .ok (a + b) else .error (.fault .sizeWraps)

/-- `a - b` of two `size_t`, with the same convention. -/
def SizeT.sub (a b : ℕ) : Except Stop ℕ :=
  if b ≤ a then .ok (a - b) else .error (.fault .sizeWraps)

theorem SizeT.add_ok {z : SizeT} {a b : ℕ} (h : a + b ≤ z.max) : z.add a b = .ok (a + b) := if_pos h

theorem SizeT.sub_ok {a b : ℕ} (h : b ≤ a) : SizeT.sub a b = .ok (a - b) := if_pos h

/-- A pointer and a length: null with any length, or a pointer to that many bytes. -/
inductive Span
  | null (size : ℕ)
  | bytes (b : Bytes)
  deriving DecidableEq, Repr

namespace Span

def isNull : Span → Bool
  | null _ => true
  | bytes _ => false

def size : Span → ℕ
  | null n => n
  | bytes b => b.length

/-- What the pointer points to. -/
def toBytes : Span → Bytes
  | null _ => []
  | bytes b => b

/-- Read `n` bytes at `in + off`. -/
def read : Span → ℕ → ℕ → Except Stop Bytes
  | null _, _, _ => .error (.fault .nullPointer)
  | bytes b, off, n => if off + n ≤ b.length then .ok (slice b off n) else .error (.fault .inputBounds)

@[simp] theorem isNull_bytes (b : Bytes) : (bytes b).isNull = false := rfl
@[simp] theorem isNull_null (n : ℕ) : (null n).isNull = true := rfl
@[simp] theorem size_bytes (b : Bytes) : (bytes b).size = b.length := rfl
@[simp] theorem toBytes_bytes (b : Bytes) : (bytes b).toBytes = b := rfl

theorem read_bytes {b : Bytes} {off n : ℕ} (h : off + n ≤ b.length) :
    (bytes b).read off n = .ok (slice b off n) := if_pos h

theorem eq_bytes {s : Span} (h : s.isNull = false) : s = bytes s.toBytes := by
  cases s with
  | null => cases h
  | bytes b => rfl

/-- The pointer and length stand for the bytes; no bytes may also be null. -/
inductive Denotes : Span → Bytes → Prop
  | null : Denotes (null 0) []
  | bytes (b : Bytes) : Denotes (bytes b) b

/-- A null pointer with a length above 0 is the only pointer and length that stand for nothing. -/
theorem Denotes.of_input {s : Span} (h : ¬ (0 < s.size ∧ s.isNull = true)) : s.Denotes s.toBytes := by
  cases s with
  | null n =>
    have : n = 0 := Nat.eq_zero_of_not_pos fun h0 => h ⟨h0, rfl⟩
    subst this
    exact .null
  | bytes b => exact .bytes b

theorem Denotes.size {s : Span} {d : Bytes} (h : s.Denotes d) : s.size = d.length := by
  cases h <;> rfl

theorem Denotes.toBytes {s : Span} {d : Bytes} (h : s.Denotes d) : s.toBytes = d := by
  cases h <;> rfl

theorem Denotes.eq_bytes {s : Span} {d : Bytes} (h : s.Denotes d) (hne : d ≠ []) : s = Span.bytes d := by
  cases h with
  | null => exact absurd rfl hne
  | bytes => rfl

end Span
end ModelCrypt
