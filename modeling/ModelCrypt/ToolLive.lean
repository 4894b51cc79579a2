/-
# The tool works

What can fail is named in `Served`: the arguments, the memory of the tool, a key, a file
to read and a place to write. Where none of it fails, the numbers of the command line
decide whether `encrypt` exits with 0 (`Feasible`): the options are in range as they were
converted, and are refused only for the memory that the key derivation needs, for the
parameters that scrypt does not take, and for a size that `size_t` cannot hold. What it
wrote then, `decrypt` writes back, and exits with 0.

Key definitions: `Served`, `Feasible`.
Key theorems: `encryptOptions_valid_iff`, `mcEncryptFile_returns`, `tool_works`.
-/
import ModelCrypt.ToolSafety
import ModelCrypt.GeneratedKey

namespace ModelCrypt.Cli

open Lib Prog Fileio

variable {w : World} {os : Os} {con : Console} {args : Args} {m m' m1 : Machine} {k x : Bytes}

/-! ### The options -/

/-- What `ParseU32` stores is in the range. -/
theorem parseU32_range {text : Text} {name : String} {min max out v : UInt32}
    (h : parseU32 text name min max out = (none, v)) : min ≤ v ∧ v ≤ max := by
  unfold parseU32 at h
  split at h
  · cases h
  dsimp only at h
  split at h
  · cases h
  split at h
  · cases h
  rename_i hrange
  obtain ⟨hmin, hmax⟩ := not_or.mp hrange
  generalize (strtoull (text.takeWhile (· ≠ '\x00'))).value = value at hmin hmax h
  obtain rfl : value.toUInt32 = v := congrArg Prod.snd h
  rw [UInt64.not_lt, UInt64.le_iff_toNat_le, UInt32.toNat_toUInt64] at hmin hmax
  have hlt := max.toNat_lt
  rw [UInt32.le_iff_toNat_le, UInt32.le_iff_toNat_le, UInt64.toNat_toUInt32, Nat.mod_eq_of_lt (by omega)]
  exact ⟨hmin, hmax⟩

theorem optionU32_range {text : Text} {name : String} {min max out v : UInt32}
    (h : optionU32 text name min max out = .ok v) (hout : min ≤ out ∧ out ≤ max) : min ≤ v ∧ v ≤ max := by
  unfold optionU32 at h
  split at h
  · cases h
    exact hout
  · rcases hp : parseU32 text name min max out with ⟨_ | d, v'⟩ <;> rw [hp] at h <;> cases h
    exact parseU32_range hp

theorem except_bind_ok {ε α β : Type} {p : Except ε α} {f : α → Except ε β} {b : β} (h : (p >>= f) = .ok b) :
    ∃ a, p = .ok a ∧ f a = .ok b := by
  rcases p with e | a
  · cases h
  · exact ⟨a, rfl, h⟩

/-- The numbers that `RunEncrypt` converts, with a compression that `ValidateOptions` accepts. -/
theorem numbers_valid {compression : Int32} {opts : EncryptOptions}
    (hc : compression = mcCompressNoneOption ∨ compression = mcCompressZlibOption)
    (hmem : 128 * 2 ^ opts.kdfLogN.toNat * opts.kdfR.toNat ≤ 2 ^ 30)
    (h : (do
      let chunkSize ← optionU32 args.chunkSize "--chunk-size" ((4 : UInt32) <<< 10) ((64 : UInt32) <<< 20)
        defaultOptions.chunkSize
      let logN ← optionU32 args.kdfLogN "--kdf-log-n" 14 20 defaultOptions.kdfLogN.toUInt32
      let r ← optionU32 args.kdfR "--kdf-r" 1 32 defaultOptions.kdfR
      let p ← optionU32 args.kdfP "--kdf-p" 1 16 defaultOptions.kdfP
      return ⟨compression, chunkSize, logN.toUInt8, r, p⟩ : Except Diagnostic EncryptOptions) = .ok opts) :
    Encrypt.Options opts := by
  obtain ⟨chunkSize, hchunk, h⟩ := except_bind_ok h
  obtain ⟨logN, hlogN, h⟩ := except_bind_ok h
  obtain ⟨r, hr, h⟩ := except_bind_ok h
  obtain ⟨p, hp, h⟩ := except_bind_ok h
  cases h
  obtain ⟨hchunk0, hchunk1⟩ := optionU32_range hchunk (by decide)
  obtain ⟨hlogN0, hlogN1⟩ := optionU32_range hlogN (by decide)
  obtain ⟨hr0, hr1⟩ := optionU32_range hr (by decide)
  obtain ⟨hp0, hp1⟩ := optionU32_range hp (by decide)
  rw [UInt32.le_iff_toNat_le] at hchunk0 hchunk1 hlogN0 hlogN1 hr0 hr1 hp0 hp1
  have hbyte : logN.toUInt8.toNat = logN.toNat := by
    rw [UInt32.toNat_toUInt8, Nat.mod_eq_of_lt (lt_of_le_of_lt hlogN1 (by decide))]
  refine ⟨hc, ⟨hchunk0, hchunk1⟩, ?_, ⟨hr0, hr1⟩, ⟨hp0, hp1⟩, hmem⟩
  show 14 ≤ logN.toUInt8.toNat ∧ logN.toUInt8.toNat ≤ 20
  rw [hbyte]
  exact ⟨hlogN0, hlogN1⟩

/-- **Options that were converted are in range**: `ValidateOptions` refuses them for the memory that they need only. -/
theorem encryptOptions_valid_iff {opts : EncryptOptions} (h : encryptOptions args = .ok opts) :
    Encrypt.validateOptions opts = .ok () ↔ 128 * 2 ^ opts.kdfLogN.toNat * opts.kdfR.toNat ≤ 2 ^ 30 := by
  rw [Encrypt.validateOptions_ok_iff]
  refine ⟨fun ho => ho.memory, fun hmem => ?_⟩
  unfold encryptOptions at h
  dsimp only at h
  split at h
  · exact numbers_valid (.inr rfl) hmem h
  split at h
  · exact numbers_valid (.inl rfl) hmem h
  split at h
  · exact numbers_valid (.inr rfl) hmem h
  · cases h

/-! ### The calls -/

/-- What `EncryptBuffer` can do with options of the command line: the memory is admitted, scrypt takes the parameters,
and the size of the output is a `size_t` even if nothing gets smaller. -/
structure Feasible (w : World) (opts : EncryptOptions) (n : ℕ) : Prop where
  memory : 128 * 2 ^ opts.kdfLogN.toNat * opts.kdfR.toNat ≤ 2 ^ 30
  scrypt : ¬ (opts.kdfR = 1 ∧ 16 ≤ opts.kdfLogN)
  size : Encrypt.worstCase opts n ≤ w.sizeT.max

/-- Nothing fails that a subcommand with a key needs: it has its arguments, memory, the key `k`, a file at `--in` that
holds `x`, and a place to write. -/
structure Served (os : Os) (con : Console) (args : Args) (m : Machine) (k x : Bytes) : Prop where
  input : args.input ≠ []
  out : args.out ≠ []
  vector : con.vector m.time kMaxKeyFileSize = true
  loads : Loads os con args m k
  readable : Readable os m args.input x
  writable : Writable os m.disk args.out
  inputPath : ∀ t, os.string t .inputPath args.input.length = true
  outputPath : ∀ t, os.string t .outputPath args.out.length = true

theorem Served.paths (h : Served os con args m k x) : requirePaths args true = none := by
  rw [requirePaths, if_neg h.input, if_neg fun ho => h.out ho.2]

/-- A key that is loaded is long enough. -/
theorem Loads.length (h : Loads os con args m k) : mcMinKeySize ≤ k.length := by
  obtain ⟨key, m', hret, rfl⟩ := h
  obtain ⟨r, hj, -⟩ := loadKey_took hret
  have hsize := (judged_none.mp (congrArg Prod.fst hj)).2
  rw [key.bytes_length, show key = r.2 from (congrArg Prod.snd hj).symm.trans (judged_snd r)]
  exact hsize

/-- The same file can be read from the same disk. -/
theorem readable_of_disk {path : Path} (h : Readable os m path x) (hd : m1.disk = m.disk) : Readable os m1 path x := by
  refine ⟨?_, h.openOk, h.fstat, h.read, h.goesOn⟩
  obtain ⟨inode, hentry, hx⟩ := h.file
  unfold Machine.contents at hx ⊢
  rw [hd]
  exact ⟨inode, hentry, hx⟩

/-- Accepted options, and what `EncryptBuffer` does with them. -/
theorem encryptBuffer_ok_iff (hscrypt : ∀ t a, (w.scrypt t a).isSome = true ↔ a.Accepted) {opts : EncryptOptions}
    (hopts : encryptOptions args = .ok opts) {input : Span} {s : St} (hk : mcMinKeySize ≤ k.length)
    (hin : input.Denotes x) (hmax : x.length ≤ mcMaxPlaintextSize.toNat) (hw : w.Writes s.trace.length) :
    (∃ a, (Encrypt.encryptBuffer w (.bytes k) opts input s).1 = .ok a) ↔ Feasible w opts x.length := by
  have hnull : ¬ (0 < input.size ∧ input.isNull = true) := by
    rintro ⟨hpos, hnull⟩
    cases hin
    · cases hpos
    · cases hnull
  have hworks (hvalid : Encrypt.validateOptions opts = .ok ()) :=
    @Encrypt.encryptBuffer_works w hscrypt (.bytes k) input opts s rfl hk hnull (hin.size.symm ▸ hmax) hvalid hw
  rw [← hin.size]
  constructor
  · rintro ⟨a, ha⟩
    obtain ⟨_, _, _, _, hf, -⟩ := Encrypt.encryptBuffer_file (Prod.ext ha rfl)
    obtain ⟨hne, hsize⟩ := (hworks (Encrypt.validateOptions_ok_iff.mpr hf.options)).mp ⟨a, ha⟩
    exact ⟨hf.options.memory, hne, hsize⟩
  · exact fun h => (hworks ((encryptOptions_valid_iff hopts).mpr h.memory)).mpr ⟨h.scrypt, h.size⟩

/-- The subcommand, if a key is loaded and the call fails. -/
theorem withKey_failed {failed : McStatus → Diagnostic} {call : Span → Sys Unit} {key : KeyBytes} {c c1 : ℕ}
    {s : McStatus}
    (hv : con.vector m.time kMaxKeyFileSize = true)
    (hload : Steps (loadKey os con args (KeyBytes.reserved con)) m c1 (.ok (none, key)) m1)
    (hcall : Steps (call (.bytes key.bytes)) m1 c (.error (.status s)) m') :
    Steps (withKey os con args failed call) m (0 + (c1 + (c + 0))) (.ok ⟨kExitFailure, some (failed s)⟩) m' := by
  refine (make_steps hv).bind (hload.bind ?_)
  show Steps (if (none : Option Diagnostic) ≠ none then _ else _ : Sys Exit) _ _ _ _
  rw [if_neg (not_not.mpr rfl)]
  exact (attempt_status hcall).bind (Steps.of_eq fun _ => rfl)

/-- **`RunEncrypt` returns**, with 0 exactly if `EncryptBuffer` can do it. -/
theorem runEncrypt_returns (hscrypt : ∀ t a, (w.scrypt t a).isSome = true ↔ a.Accepted) {opts : EncryptOptions}
    (hopts : encryptOptions args = .ok opts) (h : Served os con args m k x)
    (hmax : x.length ≤ mcMaxPlaintextSize.toNat) (hsize : x.length ≤ w.sizeT.max) (hw : w.Writes m.st.trace.length) :
    ∃ e m', Returns (runEncrypt w os con args) m (.ok e) m' ∧ (Feasible w opts x.length → e = ⟨kExitOk, none⟩) ∧
      (¬ Feasible w opts x.length → e.code = kExitFailure) := by
  obtain ⟨key, m1, c1, rfl, hload, hst, hdisk⟩ := h.loads.steps
  have hw1 : w.Writes m1.st.trace.length := hst ▸ hw
  obtain ⟨buf, input, m2, hin⟩ := input_of_readable (w := w) (readable_of_disk h.readable hdisk) hmax hsize
    fun _ => hw1.alloc _ _ (le_refl _)
  have hle : m1.st.trace.length ≤ m2.st.trace.length := by
    rw [hin.read.trace, List.length_append]
    exact Nat.le_add_right ..
  have hw2 : w.Writes m2.st.trace.length :=
    ⟨fun t n ht => hw1.alloc t n (hle.trans ht), fun t n ht => hw1.rand t n (hle.trans ht),
      fun t c ht => hw1.evp t c (hle.trans ht), fun t ht => hw1.deflateInit t (hle.trans ht),
      fun t y room ht => hw1.deflate t y room (hle.trans ht)⟩
  have hiff := encryptBuffer_ok_iff hscrypt hopts (s := m2.st) h.loads.length hin.denotes hmax hw2
  have hrun : runEncrypt w os con args = withKey os con args .encryptFailed fun key =>
      mcEncryptFile w os key (some opts) (some args.input) (some args.out) := by
    unfold runEncrypt
    rw [h.paths, hopts]
  rw [hrun]
  rcases cryptFile_returns (crypts_encrypt w (.bytes key.bytes) opts) 0o644 (h.inputPath _) (h.outputPath _) hin
    (hdisk ▸ h.writable) with ⟨e, m3, he, c, hcall⟩ | ⟨out, data, m3, hok, -, ⟨c, hcall⟩, -⟩
  · refine ⟨_, m3, ⟨_, withKey_failed h.vector hload hcall⟩, fun hf => ?_, fun _ => rfl⟩
    obtain ⟨a, ha⟩ := hiff.mpr hf
    rw [he] at ha
    cases ha
  · refine ⟨_, m3, ⟨_, withKey_steps h.vector hload hcall⟩, fun _ => rfl, fun hf => ?_⟩
    exact absurd (hiff.mp ⟨_, hok⟩) hf

/-- The value of a variable is loaded, if it has the length of a key. -/
theorem loads_env {v : CString} (hs : args.source = some .env) (hv : con.getenv args.keyEnv = some v)
    (hmin : mcMinKeySize ≤ v.bytes.length) (hmax : v.bytes.length ≤ kMaxKeyFileSize) : Loads os con args m v.bytes := by
  obtain ⟨key, hfilled, hassign⟩ := @assign_filled v.bytes (KeyBytes.reserved con) con (by rwa [reserved_length])
  have hread : Returns (readKeyEnv con args.keyEnv (KeyBytes.reserved con)) m (.ok (none, key)) m := by
    refine ⟨0, Steps.of_eq fun _ => ?_⟩
    unfold readKeyEnv
    rw [hv]
    dsimp only
    rw [if_neg (Nat.not_lt.mpr hmax), bind_ok (hassign _)]
    rfl
  have hload := @loadKey_env os con args m m _ _ hs hread
  have hsize : ¬ key.size < mcMinKeySize := by
    rw [← key.bytes_length, hfilled.bytes]
    exact Nat.not_lt.mpr hmin
  rw [show judged (none, key) = (none, key) by rw [judged, if_neg (not_not.mpr rfl), if_neg hsize]] at hload
  exact ⟨key, m, hload, hfilled.bytes⟩

/-! ### The tool -/

/-- What `main` does after `ParseArgs`, if it returns. -/
theorem main_returns {mem : ℕ → ℕ → Bool} {argv : List Text} {line : CommandLine} {o : Outcome}
    (hp : parseArgs mem 0 argv {} = .ok (.ok line)) (h : Returns (perform w os con line) m (.ok o) m') :
    Returns (main w os con mem argv) m (.ok o) m' := by
  obtain ⟨c, hs⟩ := h
  refine ⟨c, fun left => ?_⟩
  rw [main, catch_apply, run_parsed hp, hs left]

/-- A subcommand that returns, with its report. -/
theorem returns_outcome {p : Sys Exit} {e : Exit} {r : Report} (h : Returns p m (.ok e) m') :
    Returns (do let e ← p; return e.outcome r : Sys Outcome) m (.ok (e.outcome r)) m' := by
  obtain ⟨c, hs⟩ := h
  exact ⟨c + 0, hs.bind (Steps.of_eq fun _ => rfl)⟩

/-- **The tool works.** Where nothing fails, `encrypt` returns, and exits with 0 exactly if `EncryptBuffer` can do
what the command line asks for. Then the file at `--out` is one that every `decrypt` with the same key, where
nothing fails, turns back into what was read, and exits with 0. -/
theorem tool_works (w : World) (os : Os) (con : Console) (mem : ℕ → ℕ → Bool) (argv : List Text) (line : CommandLine)
    (m : Machine) (k x : Bytes) (opts : EncryptOptions) (hw : w.Lawful)
    (hscrypt : ∀ t a, (w.scrypt t a).isSome = true ↔ a.Accepted) (hp : parseArgs mem 0 argv {} = .ok (.ok line))
    (hv : line.verb = .encrypt) (hopts : encryptOptions line.args = .ok opts) (h : Served os con line.args m k x)
    (hmax : x.length ≤ mcMaxPlaintextSize.toNat) (hsize : x.length ≤ w.sizeT.max) (hwrites : w.Writes m.st.trace.length) :
    ∃ o m1, Returns (main w os con mem argv) m (.ok o) m1 ∧ (o.code = kExitOk ↔ Feasible w opts x.length) ∧
      (o.code = kExitOk → ∃ f, m1.holds os (some line.args.out) = some ⟨f, 0o644⟩ ∧
        ∀ (os' : Os) (con' : Console) (mem' : ℕ → ℕ → Bool) (argv' : List Text) (line' : CommandLine) (m' : Machine),
          parseArgs mem' 0 argv' {} = .ok (.ok line') → line'.verb = .decrypt → Served os' con' line'.args m' k f →
          w.Reads m'.st.trace.length → ∃ m2, Returns (main w os' con' mem' argv') m'
            (.ok ⟨kExitOk, .ok (.decrypted line'.args.input line'.args.out)⟩) m2 ∧
            m2.holds os' (some line'.args.out) = some ⟨x, 0o600⟩) := by
  obtain ⟨e, m1, hret, hyes, hno⟩ := runEncrypt_returns hscrypt hopts h hmax hsize hwrites
  have hmain : Returns (main w os con mem argv) m (.ok (e.outcome (.encrypted line.args.input line.args.out))) m1 := by
    refine main_returns hp ?_
    unfold perform
    rw [hv]
    exact returns_outcome hret
  have hiff : e.code = kExitOk ↔ Feasible w opts x.length := by
    refine ⟨fun hok => ?_, fun hf => by rw [hyes hf]⟩
    by_contra hf
    rw [hno hf] at hok
    cases hok
  refine ⟨_, m1, hmain, hiff, fun hok => ?_⟩
  rw [hyes (hiff.mp hok)] at hret
  obtain ⟨f, hholds, hopens⟩ := runEncrypt_opens hw h.loads h.readable.file h.readable.fstat hret
  refine ⟨f, hholds, fun os' con' mem' argv' line' m' hp' hv' h' hreads => ?_⟩
  obtain ⟨m2, hret', hholds'⟩ := runDecrypt_opens h'.loads h'.vector h'.input h'.out hopens h'.readable h'.writable
    h'.inputPath h'.outputPath hreads
  refine ⟨m2, main_returns hp' ?_, hholds'⟩
  unfold perform
  rw [hv']
  exact returns_outcome hret'

/-- Where every call succeeds, from `in` to `out` and with the key of the environment. -/
theorem sample_served {args : Args} (x : Bytes) (hin : args.input = sampleIn) (hout : args.out = sampleOut)
    (hs : args.source = some .env) : Served (sampleOs x.length) envConsole args (sampleMachine ⟨x, 0o644⟩)
      (List.replicate 16 7) x where
  input := by rw [hin]; decide
  out := by rw [hout]; decide
  vector := rfl
  loads := @loads_env _ envConsole _ _ ⟨List.replicate 16 7, by decide⟩ hs rfl (by decide) (by decide)
  readable := ⟨⟨0, by rw [hin]; rfl, rfl⟩, fun _ => rfl, fun _ => rfl, fun _ => ⟨by simp [sampleOs], by simp [sampleOs]⟩,
    fun t => ⟨t, le_refl t, by simp [sampleOs]⟩⟩
  writable := by
    rw [hout]
    exact ⟨fun _ => ⟨rfl, fun _ => rfl, rfl, rfl⟩, ⟨_, rfl⟩, fun _ => ⟨sampleSuffix, _, rfl, rfl, rfl⟩, fun _ => rfl,
      fun _ => by simp [sampleOs], fun t => ⟨t, le_refl t, 4095, rfl⟩, fun _ => rfl, fun _ => rfl, fun _ => rfl⟩
  inputPath _ := rfl
  outputPath _ := rfl

def sampleArgv : List Text := ["decrypt".toList, "--in".toList, sampleIn, "--out".toList, sampleOut,
  "--key-env".toList, "KEY".toList]

def sampleLine : CommandLine := { command := "decrypt".toList, args := ⟨sampleIn, sampleOut, [], "KEY".toList,
  [], [], [], [], []⟩ }

/-- The bytes 1, 2, 3 are encrypted, and what is written is decrypted elsewhere. -/
theorem sampleTool_works : ∃ (m1 : Machine) (f : Bytes) (m2 : Machine),
    m1.holds (sampleOs 3) (some sampleOut) = some ⟨f, 0o644⟩ ∧
    Returns (main sampleWorld (sampleOs f.length) envConsole (fun _ _ => true) sampleArgv) (sampleMachine ⟨f, 0o644⟩)
      (.ok ⟨kExitOk, .ok (.decrypted sampleIn sampleOut)⟩) m2 ∧
    m2.holds (sampleOs f.length) (some sampleOut) = some ⟨[1, 2, 3], 0o600⟩ := by
  obtain ⟨o, m1, -, hiff, hworks⟩ := tool_works sampleWorld (sampleOs 3) envConsole (fun _ _ => true) encryptArgv
    encryptLine (sampleMachine ⟨[1, 2, 3], 0o644⟩) (List.replicate 16 7) [1, 2, 3] ⟨mcCompressNoneOption, 4096, 15, 8, 1⟩
    sampleWorld_lawful Encrypt.sampleWorld_scrypt rfl (by decide) rfl (sample_served [1, 2, 3] rfl rfl rfl) (by decide)
    (by decide) (sampleWorld_writes _)
  obtain ⟨f, hf, hback⟩ := hworks (hiff.mpr ⟨by decide, by decide, by decide⟩)
  obtain ⟨m2, hret, hholds⟩ := hback (sampleOs f.length) envConsole (fun _ _ => true) sampleArgv sampleLine
    (sampleMachine ⟨f, 0o644⟩) rfl (by decide) (sample_served f rfl rfl rfl) (sampleWorld_reads _)
  exact ⟨m1, f, m2, hf, hret, hholds⟩

end ModelCrypt.Cli
