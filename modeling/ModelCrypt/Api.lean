/-
# The C entry points on buffers

`c_api.cc`: the checks of the out-parameters, the default options, and the
hand-over of the finished buffer to the caller. What is written to `*out` and
`*out_size` is the value of the call; a call that fails writes neither.
-/
import ModelCrypt.Encrypt

namespace ModelCrypt

open Lib Prog

/-- `HandOff`: the buffer lets go of its block, and the caller has the pointer and the size. -/
def handOff (buffer : SecureBuffer) (size : ℕ) : Option ℕ × ℕ := (buffer.data, size)

/-- `mc_encrypt_buffer`. -/
def mcEncryptBuffer (w : World) (key : Span) (opts : Option EncryptOptions) (input : Span)
    (outNull outSizeNull : Bool) : Run (Option ℕ × ℕ) := do
  returnIf (outNull = true ∨ outSizeNull = true) .errInvalidArg
  let effective := opts.getD defaultOptions
  let (buffer, size) ← Encrypt.encryptBuffer w key effective input
  return handOff buffer size

/-- `mc_decrypt_buffer`. -/
def mcDecryptBuffer (w : World) (key input : Span) (outNull outSizeNull : Bool) : Run (Option ℕ × ℕ) := do
  returnIf (outNull = true ∨ outSizeNull = true) .errInvalidArg
  let (buffer, size) ← Decrypt.decryptBuffer w key input
  return handOff buffer size

/-- A call with out-parameters is the library's call and the hand-over. -/
theorem mcEncryptBuffer_ok {w : World} {key input : Span} {opts : Option EncryptOptions} {outNull outSizeNull : Bool}
    {s s1 : St} {out : Option ℕ} {outSize : ℕ} :
    mcEncryptBuffer w key opts input outNull outSizeNull s = (.ok (out, outSize), s1) ↔
      (outNull = false ∧ outSizeNull = false) ∧ ∃ buffer, buffer.data = out ∧
        Encrypt.encryptBuffer w key (opts.getD defaultOptions) input s = (.ok (buffer, outSize), s1) := by
  unfold mcEncryptBuffer
  by_cases hnull : outNull = true ∨ outSizeNull = true
  · rw [returnIf, throwIf_pos hnull]
    constructor
    · intro h
      cases h
    · rintro ⟨⟨rfl, rfl⟩, -⟩
      simp at hnull
  · rw [returnIf, throwIf_neg hnull, bind_eq_ok]
    rw [not_or, Bool.not_eq_true, Bool.not_eq_true] at hnull
    constructor
    · rintro ⟨⟨buffer, size⟩, s', h, he⟩
      cases he
      exact ⟨hnull, buffer, rfl, h⟩
    · rintro ⟨-, buffer, rfl, h⟩
      exact ⟨_, _, h, rfl⟩

theorem mcDecryptBuffer_eq {w : World} {key input : Span} : mcDecryptBuffer w key input false false =
    Decrypt.decryptBuffer w key input >>= fun a => pure (handOff a.1 a.2) := by
  unfold mcDecryptBuffer
  rw [returnIf, throwIf_neg (by simp)]

/-- The bytes are the first ones at the pointer; there are none at a null pointer. -/
def St.At (s : St) : Option ℕ → Bytes → Prop
  | none, d => d = []
  | some b, d => ∃ x, s.heap.get b = some x ∧ d <+: x

/-- What a buffer holds is at its block. -/
theorem St.at_of_holds {s : St} {buf : SecureBuffer} {d x : Bytes} (h : buf.Holds s.heap.get x) (hd : d <+: x) :
    s.At buf.data d := by
  cases h with
  | empty => exact List.prefix_nil.mp hd
  | block _ hb => exact ⟨x, hb, hd⟩

end ModelCrypt
