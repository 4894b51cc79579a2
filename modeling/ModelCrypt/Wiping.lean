/-
# What is left of a key on the stack

`RunKeygen`, `ReadKeyFile` and `ReadKeyPrompt` each have an array that key bytes
pass through. They wipe it at the end, but not where they return early after the
bytes have come: when the file is not created, when too much was read, and when
reading the terminal fails (`cli_wipes_iff`). The vector is filled once, into the
block it reserved, so that its destructor wipes all of the key there is.

Key definitions: `Zeroed`, `CliWipes`, `StackClean`.
Key theorems: `Took.vector`, `cli_wipes_iff`.
-/
import ModelCrypt.Keygen

namespace ModelCrypt.Cli

open Lib Prog Fileio

variable {w : World} {os : Os} {con : Console} {args : Args} {path : Path} {m m' : Machine} {x : Bytes}

/-- Every byte is zero. -/
def Zeroed (x : Bytes) : Prop := ∀ b ∈ x, b = 0

theorem zeroed_zeros (n : ℕ) : Zeroed (zeros n) := fun _ hb => List.eq_of_mem_replicate hb

/-- The array of a function is wiped when it returns. -/
def Frame.Wiped {α : Type} (r : Frame α) : Prop := ∀ x, r.array = some x → Zeroed x

theorem wiped_some {α : Type} {a : α} : Frame.Wiped ⟨a, some x⟩ ↔ Zeroed x :=
  ⟨fun h => h x rfl, fun h _ hy => Option.some.inj hy ▸ h⟩

/-- What may be left of a key in the vector: its line ending. -/
def LineEnding (x : Bytes) : Prop := x = [] ∨ x = [newline] ∨ x = [carriageReturn, newline]

/-- The vector never grew, and what it gives back is zeros where the key was, and what was in its block before. -/
def VectorWiped (con : Console) (key : KeyBytes) : Prop :=
  key.outgrown = [] ∧
  ∃ e, LineEnding e ∧ key.destroy = overwrite (con.garbage kMaxKeyFileSize).1 0 (zeros key.size ++ e)

/-- Where key bytes have been placed in the array of a function, the array is wiped when it returns; and the vector is
wiped by its destructor. -/
structure CliWipes (w : World) (os : Os) (con : Console) (args : Args) (path : Path) (m : Machine) : Prop where
  keygen : args.out ≠ [] → ∀ raw, generated w m = some raw →
    ∀ r m', Returns (runKeygen w os con args) m (.ok r) m' → r.Wiped
  file : ∀ f, opened os m path = some f → fileBytes os m f ≠ [] →
    ∀ r m', Returns (readKeyFile os con path (KeyBytes.reserved con)) m (.ok r) m' → r.Wiped
  prompt : Asked con m.time → line con ≠ [] →
    ∀ r m', Returns (readKeyPrompt con (KeyBytes.reserved con)) m (.ok r) m' → r.Wiped
  vector : ∀ said key m', Returns (loadKey os con args (KeyBytes.reserved con)) m (.ok (said, key)) m' →
    VectorWiped con key

/-- No function returns between the fill and the wipe of its array, unless all it has there is zeros: the file of a new
key is created, what arrives of a key file is not too large, and a typed line is read to its end. -/
structure StackClean (w : World) (os : Os) (con : Console) (args : Args) (path : Path) (m : Machine) : Prop where
  keygen : args.out ≠ [] → ∀ raw, generated w m = some raw → (created os m args.out).isSome = true ∨ Zeroed raw.1
  file : ∀ f, opened os m path = some f → (fileBytes os m f).length ≤ kMaxKeyFileSize ∨ Zeroed (fileBytes os m f)
  prompt : Asked con m.time → line con ≠ [] →
    ¬ Unread con ∨ Zeroed (overwrite (con.garbage (kMaxKeyFileSize + 1)).1 0 (line con))

/-! ### The arrays -/

theorem Made.wiped {r : Frame Exit} {d : Disk Path} {raw : ByteVec 32} (h : Made w os con args m r d)
    (h0 : args.out ≠ [])
    (hg : generated w m = some raw) : r.Wiped ↔ (created os m args.out).isSome = true ∨ Zeroed raw.1 := by
  rcases h with h | ⟨-, h⟩ | ⟨-, h, hc⟩ | ⟨-, h, hc, -, -⟩ | ⟨-, h, hc, -, -⟩
  · exact absurd h h0
  · cases hg.symm.trans h
  · cases hg.symm.trans h
    rw [wiped_some, hc]
    simp
  · rw [wiped_some, hc]
    exact iff_of_true (zeroed_zeros 32) (.inl rfl)
  · rw [wiped_some, hc]
    exact iff_of_true (zeroed_zeros 32) (.inl rfl)

theorem Prompted.wiped {key : KeyBytes} {r} (h : Prompted con key r) :
    r.Wiped ↔ ¬ Unread con ∨ Zeroed (overwrite (con.garbage (kMaxKeyFileSize + 1)).1 0 (line con)) := by
  rcases h with hu | ⟨hu, -⟩ | ⟨hu, -, -⟩
  · rw [wiped_some]
    exact ⟨.inr, fun h => h.resolve_left (not_not.mpr hu)⟩
  · rw [wiped_some]
    exact iff_of_true (zeroed_zeros _) (.inl hu)
  · rw [wiped_some]
    exact iff_of_true (zeroed_zeros _) (.inl hu)

/-! ### The vector -/

theorem Complete.ending {k : Bytes} (h : Complete x k) : ∃ e, LineEnding e ∧ x = k ++ e := by
  rcases h with rfl | rfl | rfl
  · exact ⟨[], .inl rfl, (List.append_nil x).symm⟩
  · exact ⟨[newline], .inr (.inl rfl), rfl⟩
  · exact ⟨[carriageReturn, newline], .inr (.inr rfl), rfl⟩

theorem destroy_eq (key : KeyBytes) : key.destroy = overwrite key.block 0 (zeros key.size) := by
  unfold KeyBytes.destroy
  split
  · rfl
  · rename_i h
    rw [Nat.eq_zero_of_not_pos h]
    exact (overwrite_nil key.block 0).symm

theorem reserved_vectorWiped (con : Console) : VectorWiped con (KeyBytes.reserved con) := by
  refine ⟨rfl, [], .inl rfl, ?_⟩
  rw [destroy_eq, List.append_nil]
  rfl

/-- The destructor wipes the key, and leaves the line ending that was taken off it. -/
theorem Filled.vectorWiped {k : Bytes} {key : KeyBytes} (h : Filled (KeyBytes.reserved con) x k key)
    (hk : Complete x k) :
    VectorWiped con key := by
  obtain ⟨e, he, rfl⟩ := hk.ending
  refine ⟨h.outgrown, e, he, ?_⟩
  have hsize : key.size = k.length := by rw [← h.bytes, key.bytes_length]
  have hblock : key.block = overwrite (con.garbage kMaxKeyFileSize).1 0 (k ++ e) := h.block
  rw [destroy_eq, hblock, hsize]
  simp [overwrite, zeros_length]

/-- **The vector is wiped**, whatever the source gave. -/
theorem Took.vector {r} (h : Took os con args (KeyBytes.reserved con) m r) : VectorWiped con r.2 := by
  rcases h with hs | ⟨hs, h⟩ | ⟨hs, h, hx⟩ | ⟨hs, h, hx, hf⟩ | ⟨hs, h⟩ | ⟨hs, h, hv⟩ | ⟨hs, h, hv, hf⟩ |
    ⟨hs, h, hd⟩ | ⟨hs, h, hr⟩
  · exact reserved_vectorWiped con
  · exact reserved_vectorWiped con
  · exact reserved_vectorWiped con
  · exact hf.vectorWiped (complete_stripped _)
  · exact reserved_vectorWiped con
  · exact reserved_vectorWiped con
  · exact hf.vectorWiped (.inl rfl)
  · exact reserved_vectorWiped con
  · rcases hr with hu | ⟨hu, ho⟩ | ⟨hu, ho, hf⟩
    · exact reserved_vectorWiped con
    · exact reserved_vectorWiped con
    · exact hf.vectorWiped (complete_stripped _)

/-! ### All of it -/

theorem keygen_wiped_iff {raw : ByteVec 32} (h0 : args.out ≠ []) (hg : generated w m = some raw) :
    (∀ r m', Returns (runKeygen w os con args) m (.ok r) m' → r.Wiped) ↔
      (created os m args.out).isSome = true ∨ Zeroed raw.1 := by
  obtain ⟨r, m', h, hmade⟩ := runKeygen_returns w os con args m
  rw [← hmade.wiped h0 hg]
  refine ⟨fun hall => hall r m' h, fun hw r' m1 h' => ?_⟩
  cases h.unique h'
  exact hw

theorem file_wiped_iff {f : Bytes} (ho : opened os m path = some f) :
    (∀ r m', Returns (readKeyFile os con path (KeyBytes.reserved con)) m (.ok r) m' → r.Wiped) ↔
      (fileBytes os m f).length ≤ kMaxKeyFileSize ∨ Zeroed (fileBytes os m f) := by
  obtain ⟨r, m', h, -, -, hr⟩ := readKeyFile_opened con (reserved_length con) ho
  have hiff : r.Wiped ↔ (fileBytes os m f).length ≤ kMaxKeyFileSize ∨ Zeroed (fileBytes os m f) := by
    rcases hr with ⟨hx, rfl⟩ | ⟨hx, key, -, rfl⟩
    · rw [wiped_some]
      exact ⟨.inr, fun h => h.resolve_left (Nat.not_le.mpr hx)⟩
    · rw [wiped_some]
      exact iff_of_true (zeroed_zeros _) (.inl hx)
  rw [← hiff]
  refine ⟨fun hall => hall r m' h, fun hw r' m1 h' => ?_⟩
  cases h.unique h'
  exact hw

theorem prompt_wiped_iff (ha : Asked con m.time) :
    (∀ r m', Returns (readKeyPrompt con (KeyBytes.reserved con)) m (.ok r) m' → r.Wiped) ↔
      ¬ Unread con ∨ Zeroed (overwrite (con.garbage (kMaxKeyFileSize + 1)).1 0 (line con)) := by
  obtain ⟨r, m', h, -, -, hr⟩ := readKeyPrompt_asked (reserved_length con) ha
  rw [← hr.wiped]
  refine ⟨fun hall => hall r m' h, fun hw r' m1 h' => ?_⟩
  cases h.unique h'
  exact hw

/-- **When no key is left.** Every array that key bytes were placed in is zeros when its function returns, and the
vector is wiped by its destructor, exactly if no function returns early after the fill of its array. -/
theorem cli_wipes_iff (w : World) (os : Os) (con : Console) (args : Args) (path : Path) (m : Machine) :
    CliWipes w os con args path m ↔ StackClean w os con args path m := by
  constructor
  · intro h
    refine ⟨fun h0 raw hg => (keygen_wiped_iff h0 hg).mp (h.keygen h0 raw hg), fun f ho => ?_, fun ha hl =>
      (prompt_wiped_iff ha).mp (h.prompt ha hl)⟩
    by_cases hx : fileBytes os m f = []
    · rw [hx]
      exact .inl (Nat.zero_le _)
    · exact (file_wiped_iff ho).mp (h.file f ho hx)
  · intro h
    refine ⟨fun h0 raw hg => (keygen_wiped_iff h0 hg).mpr (h.keygen h0 raw hg), fun f ho _ =>
      (file_wiped_iff ho).mpr (h.file f ho), fun ha hl => (prompt_wiped_iff ha).mpr (h.prompt ha hl),
        fun said key m' hload => ?_⟩
    obtain ⟨r, hr, ht⟩ := loadKey_took hload
    have hkey : key = r.2 := by rw [← judged_snd r, hr]
    exact hkey ▸ ht.vector

/-- A generator that returns newlines. -/
def newlineWorld : World :=
  { sampleWorld with rand := fun _ n => some ⟨List.replicate n newline, List.length_replicate⟩ }

/-- Arguments that name a file to make that exists. -/
def takenArgs : Args := { sampleArgs with out := sampleIn }

/-- The file exists, so `RunKeygen` returns with the key it made in its array. -/
theorem takenArgs_left : ∃ r m',
    Returns (runKeygen newlineWorld (sampleOs 0) sampleConsole takenArgs) (sampleMachine sampleFile) (.ok r) m' ∧
    r.array = some (List.replicate 32 newline) ∧
    ¬ CliWipes newlineWorld (sampleOs 0) sampleConsole takenArgs sampleIn (sampleMachine sampleFile) := by
  obtain ⟨r, m', h, hmade⟩ :=
    runKeygen_returns newlineWorld (sampleOs 0) sampleConsole takenArgs (sampleMachine sampleFile)
  have hg : generated newlineWorld (sampleMachine sampleFile) =
    some ⟨List.replicate 32 newline, List.length_replicate⟩ := rfl
  have harray : r.array = some (List.replicate 32 newline) := by
    generalize m'.disk = d at hmade
    rcases hmade with h0 | ⟨-, hg'⟩ | ⟨-, hg', -⟩ | ⟨-, -, hc, -, -⟩ | ⟨-, -, hc, -, -⟩
    · cases h0
    · cases hg.symm.trans hg'
    · cases hg.symm.trans hg'
      rfl
    · cases hc
    · cases hc
  refine ⟨r, m', h, harray, fun hw => ?_⟩
  have := hw.keygen (by decide) _ hg r m' h _ harray newline (by simp)
  cases this

end ModelCrypt.Cli
