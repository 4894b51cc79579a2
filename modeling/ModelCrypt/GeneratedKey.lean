/-
# A generated key is not always the key that is used

`RunKeygen` writes the 32 bytes of the generator as they are, and `ReadKeyFile`
takes a newline off the end of what it reads. So the key that the tool uses is
the key in the file exactly if its last byte is no newline; then what the tool
encrypts is decrypted by the library under the bytes of the file, and the other
way round (`generated_key_iff`).

Key definitions: `KeyUsed`.
Key theorems: `opened_holds`, `runEncrypt_opens`, `runDecrypt_opens`, `generated_key_iff`.
-/
import ModelCrypt.Wiping
import ModelCrypt.FileRoundTrip

namespace ModelCrypt.Cli

open Lib Prog Fileio

variable {w : World} {os : Os} {con : Console} {args : Args} {m m' m1 m2 : Machine} {key : KeyBytes} {k pt : Bytes}

/-! ### The key file -/

/-- What is opened at a path is what the path holds. -/
theorem opened_holds {path : Path} (hf : os.follow path = os.resolve path) (hok : os.openOk m.time = true) :
    opened os m path = (m.holds os (some path)).map (·.data) := by
  unfold opened Machine.holds
  rw [hf, Option.bind_some]
  rcases os.resolve path with _ | name
  · rfl
  · rw [Option.bind_some, Option.bind_some, Disk.look]
    rcases he : m.disk.entry name with _ | id
    · rfl
    · rw [Option.bind_some, Option.bind_some, if_pos hok, Machine.contents,
        List.getElem?_eq_getElem (m.disk.entry_lt name id he)]
      rfl

/-! ### The key in a call -/

section WithKey

variable {failed : McStatus → Diagnostic} {call : Span → Sys Unit} {c c1 : ℕ}

theorem attempt_eq_ok {α : Type} {p : Sys α} {a : α} (h : attempt p m = (.ok (.ok a), m')) : p m = (.ok a, m') := by
  rw [attempt, catch_apply, bind_apply] at h
  rcases hp : p m with ⟨(_ | _ | _ | _) | b, m1⟩ <;> rw [hp] at h <;> cases h
  rfl

theorem make_eq_ok (h : KeyBytes.make con m = (.ok key, m')) : key = KeyBytes.reserved con ∧ m' = m := by
  rw [KeyBytes.make_run] at h
  split at h <;> cases h
  exact ⟨rfl, rfl⟩

theorem make_steps (hv : con.vector m.time kMaxKeyFileSize = true) :
    Steps (KeyBytes.make con) m 0 (.ok (KeyBytes.reserved con)) m := Steps.of_eq fun _ => by
  rw [KeyBytes.make_run, if_neg (by simp [hv])]

/-- The subcommand, if a key is loaded and the call goes well. -/
theorem withKey_steps (hv : con.vector m.time kMaxKeyFileSize = true)
    (hload : Steps (loadKey os con args (KeyBytes.reserved con)) m c1 (.ok (none, key)) m1)
    (hcall : Steps (call (.bytes key.bytes)) m1 c (.ok ()) m2) :
    Steps (withKey os con args failed call) m (0 + (c1 + (c + 0))) (.ok ⟨kExitOk, none⟩) m2 := by
  refine (make_steps hv).bind (hload.bind ?_)
  show Steps (if (none : Option Diagnostic) ≠ none then _ else _ : Sys Exit) _ _ _ _
  rw [if_neg (not_not.mpr rfl)]
  exact (attempt_ok hcall).bind (Steps.of_eq fun _ => rfl)

/-- Where the subcommand goes well, the call did. -/
theorem withKey_call (hload : Steps (loadKey os con args (KeyBytes.reserved con)) m c1 (.ok (none, key)) m1)
    (h : Returns (withKey os con args failed call) m (.ok ⟨kExitOk, none⟩) m2) :
    ∃ a b, call (.bytes key.bytes) { m1 with left := a } = (.ok (), { m2 with left := b }) := by
  obtain ⟨c, h⟩ := h
  have hrun := h c1
  rw [Nat.add_comm c c1] at hrun
  obtain ⟨key', m', hmake, hrun⟩ := bind_eq_ok.mp hrun
  obtain ⟨rfl, rfl⟩ := make_eq_ok hmake
  rw [bind_ok (hload c)] at hrun
  change (if (none : Option Diagnostic) ≠ none then _ else _ : Sys Exit) _ = _ at hrun
  rw [if_neg (not_not.mpr rfl)] at hrun
  obtain ⟨e | u, m3, hcall, hrun⟩ := bind_eq_ok.mp hrun
  · cases hrun
  · cases hrun
    exact ⟨c, c1, attempt_eq_ok hcall⟩

end WithKey

/-- A key that is loaded, with the machine after. -/
theorem Loads.steps (h : Loads os con args m k) : ∃ key m' c, key.bytes = k ∧
    Steps (loadKey os con args (KeyBytes.reserved con)) m c (.ok (none, key)) m' ∧ m'.st = m.st ∧ m'.disk = m.disk := by
  obtain ⟨key, m1, hret, hk⟩ := h
  obtain ⟨r, m', ⟨c, hs⟩, hst, hdisk, -⟩ := loadKey_returns os con args (reserved_length con) m
  have heq := Returns.unique ⟨c, hs⟩ hret
  rw [heq] at hs
  exact ⟨key, m', c, hk, hs, hst, hdisk⟩

/-- What `RunEncrypt` leaves opens to its input, under the key that was loaded. -/
theorem runEncrypt_opens (hw : w.Lawful) (hload : Loads os con args m k)
    (hfile : ∃ inode, (os.follow args.input).bind m.disk.entry = some inode ∧ m.contents inode = pt)
    (hst : ∀ t, os.fstat t = some ⟨true, pt.length⟩)
    (h : Returns (runEncrypt w os con args) m (.ok ⟨kExitOk, none⟩) m2) :
    ∃ f, m2.holds os (some args.out) = some ⟨f, 0o644⟩ ∧ OpensTo w (.bytes k) f pt := by
  unfold runEncrypt at h
  rcases hp : requirePaths args true with _ | d <;> rw [hp] at h <;> dsimp only at h
  swap
  · obtain ⟨c, hs⟩ := h
    cases hs 0
  rcases ho : encryptOptions args with d | opts <;> rw [ho] at h <;> dsimp only at h
  · obtain ⟨c, hs⟩ := h
    cases hs 0
  obtain ⟨key, m1, c, rfl, hs, -, hdisk⟩ := hload.steps
  obtain ⟨a, b, hcall⟩ := withKey_call hs h
  have hfile1 : ∃ inode, (os.follow args.input).bind ({ m1 with left := a } : Machine).disk.entry = some inode ∧
      ({ m1 with left := a } : Machine).contents inode = pt := by
    obtain ⟨inode, hentry, hpt⟩ := hfile
    refine ⟨inode, ?_, ?_⟩
    · show (os.follow args.input).bind m1.disk.entry = some inode
      rw [hdisk, hentry]
    · show m1.disk.inodes[inode]?.elim [] _ = pt
      rw [hdisk]
      exact hpt
  obtain ⟨f, hf, hopens⟩ := mcEncryptFile_opens hw (some opts) hfile1 hst hcall
  exact ⟨f, hf, hopens⟩

/-- `RunDecrypt` gets the plaintext of a file that opens under the key that is loaded. -/
theorem runDecrypt_opens {f : Bytes} (hload : Loads os con args m k) (hv : con.vector m.time kMaxKeyFileSize = true)
    (hin : args.input ≠ []) (hout : args.out ≠ []) (hopens : OpensTo w (.bytes k) f pt)
      (hread : Readable os m args.input f)
    (hwrite : Writable os m.disk args.out) (hi : ∀ t, os.string t .inputPath args.input.length = true)
    (ho : ∀ t, os.string t .outputPath args.out.length = true) (hr : w.Reads m.st.trace.length) :
    ∃ m', Returns (runDecrypt w os con args) m (.ok ⟨kExitOk, none⟩) m' ∧
      m'.holds os (some args.out) = some ⟨pt, 0o600⟩ := by
  obtain ⟨key, m1, c, rfl, hs, hst, hdisk⟩ := hload.steps
  have hread1 : Readable os m1 args.input f := by
    refine ⟨?_, hread.openOk, hread.fstat, hread.read, hread.goesOn⟩
    obtain ⟨inode, hentry, hpt⟩ := hread.file
    unfold Machine.contents at hpt ⊢
    rw [hdisk]
    exact ⟨inode, hentry, hpt⟩
  obtain ⟨m2, ⟨c2, hcall⟩, hholds⟩ := hopens.file hread1 (hdisk ▸ hwrite) (hi _) (ho _) (hst ▸ hr)
  refine ⟨m2, ⟨0 + (c + (c2 + 0)), ?_⟩, hholds⟩
  have hp : requirePaths args true = none := by rw [requirePaths, if_neg hin, if_neg fun h => hout h.2]
  unfold runDecrypt
  rw [hp]
  exact withKey_steps hv hs hcall

/-! ### The generated key -/

/-- The key `raw` is what `LoadKey` loads; what `RunEncrypt` encrypts then, `mc_decrypt_file_to_buffer` decrypts under
`raw`; and what `mc_encrypt_file` encrypted under `raw`, `RunDecrypt` decrypts. -/
structure KeyUsed (w : World) (os : Os) (con : Console) (args : Args) (m : Machine) (raw : Bytes) : Prop where
  loads : Loads os con args m raw
  encrypts : ∀ pt m2 file, (∃ inode, (os.follow args.input).bind m.disk.entry = some inode ∧ m.contents inode = pt) →
    (∀ t, os.fstat t = some ⟨true, pt.length⟩) → Returns (runEncrypt w os con args) m (.ok ⟨kExitOk, none⟩) m2 →
    m2.holds os (some args.out) = some file → ∀ (os' : Os) m' i, Readable os' m' i file.data →
    os'.string m'.time .inputPath i.length = true → w.Reads m'.st.trace.length →
    ∃ out m3, Returns (mcDecryptFileToBuffer w os' (.bytes raw) (some i) false false) m' (.ok (out, pt.length)) m3 ∧
      m3.st.At out pt
  decrypts : ∀ pt opts (os' : Os) m' m2 i o file,
    (∃ inode, (os'.follow i).bind m'.disk.entry = some inode ∧ m'.contents inode = pt) →
    (∀ t, os'.fstat t = some ⟨true, pt.length⟩) →
    mcEncryptFile w os' (.bytes raw) opts (some i) (some o) m' = (.ok (), m2) →
    m2.holds os' (some o) = some file → con.vector m.time kMaxKeyFileSize = true → args.input ≠ [] → args.out ≠ [] →
    Readable os m args.input file.data → Writable os m.disk args.out →
    (∀ t, os.string t .inputPath args.input.length = true) → (∀ t, os.string t .outputPath args.out.length = true) →
    w.Reads m.st.trace.length →
    ∃ m3, Returns (runDecrypt w os con args) m (.ok ⟨kExitOk, none⟩) m3 ∧ m3.holds os (some args.out) = some ⟨pt, 0o600⟩

/-- A key that is loaded is used. -/
theorem Loads.keyUsed (hw : w.Lawful) (h : Loads os con args m k) : KeyUsed w os con args m k := by
  refine ⟨h, ?_, ?_⟩
  · intro pt m2 file hfile hst hrun hholds os' m' i hread hi hr
    obtain ⟨f, hf, hopens⟩ := runEncrypt_opens hw h hfile hst hrun
    cases hf.symm.trans hholds
    exact hopens.fileToBuffer hread hi hr
  · intro pt opts os' m' m2 i o file hfile hst hrun hholds hv hin hout hread hwrite hi ho hr
    obtain ⟨f, hf, hopens⟩ := mcEncryptFile_opens hw opts hfile hst hrun
    cases hf.symm.trans hholds
    exact runDecrypt_opens h hv hin hout hopens hread hwrite hi ho hr

/-- What a run of `RunKeygen` that ended well left at its path. -/
theorem runKeygen_holds {w0 : World} {r : Frame Exit} {raw : ByteVec 32} (hgen : generated w0 m = some raw)
    (h : Returns (runKeygen w0 os con args) m (.ok r) m1) (hok : r.value.code = kExitOk) :
    ∃ mode, m1.holds os (some args.out) = some ⟨raw.1, mode⟩ := by
  obtain ⟨r', m', hret, hmade⟩ := runKeygen_returns w0 os con args m
  cases hret.unique h
  rw [Returns.disk hret h] at hmade
  generalize hd : m1.disk = d at hmade
  rcases hmade with h0 | ⟨-, hg⟩ | ⟨-, -, hc⟩ | ⟨-, -, hc, -, -⟩ | ⟨-, hg, hc, -, hi⟩
  · cases hok
  · cases hok
  · cases hok
  · cases hok
  · cases hgen.symm.trans hg
    refine ⟨0o600 &&& ~~~os.umask, ?_⟩
    rw [Machine.holds, Option.bind_some, (created_entry hc).1, Option.bind_some, hd, Disk.look_draft_self, hi]

/-- What is loaded from the file of a generated key. -/
theorem loads_generated (raw : ByteVec 32) (hs : args.source = some .file)
    (hread : ∀ t, ∃ n, os.read t = .count (n + 1))
    (h : opened os m args.keyFile = some raw.1) : Loads os con args m k ↔ k = stripped raw.1 := by
  have hlen : raw.1.length = 32 := byteVec_length raw
  have hle := (complete_stripped raw.1).length
  have hmin : mcMinKeySize + 2 ≤ 32 := by decide
  have hmax : 32 ≤ kMaxKeyFileSize := by decide
  rw [loads_file_read hs hread h]
  exact ⟨fun h => h.2.2, fun h => ⟨by omega, by omega, h⟩⟩

theorem stripped_eq_iff {x : Bytes} : stripped x = x ↔ x.getLast? ≠ some newline := by
  refine ⟨fun h hn => ?_, stripped_of_ne⟩
  rw [stripped, if_pos hn] at h
  have hpos : 0 < x.length := List.length_pos_iff.mpr fun h0 => by rw [h0] at hn; cases hn
  have hlen := congrArg List.length h
  split at hlen <;> simp only [List.length_dropLast] at hlen <;> omega

/-- **When a generated key is the key that is used.** After `RunKeygen` reported success, `LoadKey` loads the 32 bytes
of the generator from the file, and the tool and the library decrypt what the other encrypted, exactly if the last
of the 32 bytes is no newline. -/
theorem generated_key_iff (w0 : World) (os0 : Os) (con0 : Console) (args0 : Args) (m0 : Machine) (raw : ByteVec 32)
    (r : Frame Exit)
    (hw : w.Lawful) (hgen : generated w0 m0 = some raw) (hmake : Returns (runKeygen w0 os0 con0 args0) m0 (.ok r) m1)
    (hok : r.value.code = kExitOk) (hfile : args.keyFile ≠ []) (henv : args.keyEnv = [])
    (hread : ∀ t, ∃ n, os.read t = .count (n + 1))
    (hkey : opened os m args.keyFile = (m1.holds os0 (some args0.out)).map (·.data)) :
    KeyUsed w os con args m raw.1 ↔ raw.1.getLast? ≠ some newline := by
  have hs : args.source = some .file := by rw [Args.source, if_pos hfile, if_neg (not_not.mpr henv)]
  obtain ⟨mode, hholds⟩ := runKeygen_holds hgen hmake hok
  rw [hholds, Option.map_some] at hkey
  have hiff : Loads os con args m raw.1 ↔ raw.1.getLast? ≠ some newline := by
    rw [loads_generated raw hs hread hkey, eq_comm, stripped_eq_iff]
  exact ⟨fun h => hiff.mp h.loads, fun h => (hiff.mpr h).keyUsed hw⟩

/-- `RunKeygen` ends well, if it gets as far as to make the name and the `write` takes the key. -/
theorem runKeygen_ok (w : World) (os : Os) (con : Console) (args : Args) (m : Machine) (hm : MakesName w os args m)
    (ht : TakesKey os (m.time + 1)) : ∃ r m', Returns (runKeygen w os con args) m (.ok r) m' ∧
      r.value.code = kExitOk := by
  obtain ⟨r, m', h, hmade⟩ := runKeygen_returns w os con args m
  refine ⟨r, m', h, ?_⟩
  obtain ⟨h0, hg, hc⟩ := hm
  generalize m'.disk = d at hmade
  rcases hmade with h0' | ⟨-, hg'⟩ | ⟨-, -, hc'⟩ | ⟨-, -, -, hw, -⟩ | ⟨-, -, -, -, -⟩
  · exact absurd h0' h0
  · rw [hg'] at hg
    cases hg
  · rw [hc'] at hc
    cases hc
  · exact absurd ht hw
  · rfl

/-- Arguments that name the file that `sampleArgs` makes as the key file. -/
def keyArgs : Args := { sampleArgs with keyFile := sampleOut }

/-- A generated key of zeros. -/
theorem sample_generated_key : ∃ r m1, Returns (runKeygen sampleWorld (sampleOs 0) sampleConsole sampleArgs)
      (sampleMachine sampleFile) (.ok r) m1 ∧ r.value.code = kExitOk ∧
    (KeyUsed sampleWorld (sampleOs 0) sampleConsole keyArgs m1 (zeros 32) ↔ (zeros 32).getLast? ≠ some newline) := by
  obtain ⟨r, m1, h, hok⟩ := runKeygen_ok sampleWorld (sampleOs 0) sampleConsole sampleArgs (sampleMachine sampleFile)
    ⟨by decide, rfl, by decide⟩ (by decide)
  exact ⟨r, m1, h, hok, generated_key_iff sampleWorld (sampleOs 0) sampleConsole sampleArgs (sampleMachine sampleFile)
    ⟨zeros 32, zeros_length 32⟩ r sampleWorld_lawful (by decide) h hok (by decide) rfl (fun _ => ⟨4095, rfl⟩)
    (opened_holds rfl rfl)⟩

/-- Of a generated key that ends in a newline, `LoadKey` loads 31 bytes. -/
theorem newline_key_lost : ∃ r m1, Returns (runKeygen newlineWorld (sampleOs 0) sampleConsole sampleArgs)
      (sampleMachine sampleFile) (.ok r) m1 ∧ r.value.code = kExitOk ∧
    Loads (sampleOs 0) sampleConsole keyArgs m1 (List.replicate 31 newline) ∧
    ¬ KeyUsed sampleWorld (sampleOs 0) sampleConsole keyArgs m1 (List.replicate 32 newline) := by
  obtain ⟨r, m1, h, hok⟩ := runKeygen_ok newlineWorld (sampleOs 0) sampleConsole sampleArgs (sampleMachine sampleFile)
    ⟨by decide, rfl, by decide⟩ (by decide)
  have hgen : generated newlineWorld (sampleMachine sampleFile) =
    some ⟨List.replicate 32 newline, List.length_replicate⟩ := rfl
  obtain ⟨mode, hholds⟩ := runKeygen_holds hgen h hok
  have hkey : opened (sampleOs 0) m1 keyArgs.keyFile = some (List.replicate 32 newline) := by
    rw [opened_holds rfl rfl, show keyArgs.keyFile = sampleArgs.out from rfl, hholds]
    rfl
  have hloads (k : Bytes) : Loads (sampleOs 0) sampleConsole keyArgs m1 k ↔ k = stripped (List.replicate 32 newline) :=
    loads_generated ⟨List.replicate 32 newline, List.length_replicate⟩ (by decide) (fun _ => ⟨4095, rfl⟩) hkey
  refine ⟨r, m1, h, hok, (hloads _).mpr (by decide), fun hu => ?_⟩
  exact absurd ((hloads _).mp hu.loads) (by decide)

end ModelCrypt.Cli
