/-
# What `inspect` tells

`inspect` reads 64 bytes, without a key. It exits with 0 only after a whole valid
header, and prints the fields of that. What it prints is declared, and bears what
the file turns out to be: for a file that `EncryptBuffer` made, these are its
options and the size of its input; and if a file decrypts at all, under any key,
then to as many bytes as were printed.

Key definitions: `infoFor`, `Told`.
Key theorems: `told_header`, `tool_inspect`.
-/
import ModelCrypt.ToolSafety

namespace ModelCrypt.Cli

open Lib Prog Fileio

/-! ### What a header declares -/

/-- What `mc_inspect_buffer` reports of a file with `n` bytes of plaintext, encrypted with these options. -/
def infoFor (opts : EncryptOptions) (n : ℕ) : McFileInfo :=
  ⟨mcFormatVersion, opts.compression, n.toUInt64, opts.chunkSize, chunkCountFor n.toUInt64 opts.chunkSize, opts.kdfLogN,
    opts.kdfR, opts.kdfP⟩

/-- What is reported of a file bears what is in it. -/
structure Told (data : Bytes) (i : McFileInfo) : Prop where
  header : ∃ h, parseFileHeader (.bytes data) = .ok h ∧ i = infoOf h
  encrypted : ∀ w key opts y, Turns (Encrypt.encryptBuffer w key opts) y data → i = infoFor opts y.length
  decrypted : ∀ w key x, Turns (Decrypt.decryptBuffer w key) data x → i.plaintextSize.toNat = x.length

section Headers

variable {w : World} {key input : Span} {opts : EncryptOptions} {h : FileHeader} {a : SecureBuffer × ℕ} {s s1 : St}
  {b f x y : Bytes}

/-- A header is read at the beginning. -/
theorem header_of_prefix (hp : parseFileHeader (.bytes b) = .ok h) (hb : b <+: f) :
    parseFileHeader (.bytes f) = .ok h := by
  obtain ⟨hlen, hv, hs⟩ := parseFileHeader_ok_iff.mp hp
  obtain ⟨rest, rfl⟩ := hb
  refine parseFileHeader_ok_iff.mpr ⟨?_, hv, ?_⟩
  · rw [List.length_append]
    omega
  · rw [← hs, slice_take, slice_take, List.take_append_of_le_length hlen]

/-- The options that were accepted are the ones that are reported. -/
theorem infoOf_headerFor (ho : Encrypt.Options opts) (n : ℕ) (salt : ByteVec kSaltSize) (np : ByteVec kNoncePrefixSize) :
    infoOf (Encrypt.headerFor opts n salt np) = infoFor opts n := by
  have hc : opts.compression.toUInt32.toUInt8.toUInt32.toInt32 = opts.compression := by
    rcases ho.compression with hc | hc <;> rw [hc] <;> rfl
  unfold infoOf infoFor Encrypt.headerFor
  dsimp only
  rw [hc]

/-- The beginning of what `EncryptBuffer` makes is the header of its input. -/
theorem encrypted_info (hrun : Turns (Encrypt.encryptBuffer w key opts) y f) (hp : parseFileHeader (.bytes f) = .ok h) :
    infoOf h = infoFor opts y.length := by
  obtain ⟨input, s, out, s', hden, hrun, hat⟩ := hrun
  obtain ⟨k, h', rs, hist, hf, -, hlen, hat'⟩ := Encrypt.encryptBuffer_file hrun
  obtain rfl := Encrypt.At.inj hat hat' hlen.symm
  obtain ⟨-, -, hs⟩ := parseFileHeader_ok_iff.mp hp
  rw [slice_take, List.take_append_of_le_length (serializeFileHeader_length h').ge,
    List.take_of_length_le (serializeFileHeader_length h').le] at hs
  obtain rfl := serializeFileHeader_inj hs
  rw [hf.header, infoOf_headerFor hf.options, hden.size]

/-- What `DecryptBuffer` returns has the size that the header declares. -/
theorem decryptBuffer_declared (hrun : Decrypt.decryptBuffer w key input s = (.ok a, s1)) :
    ∃ h, parseFileHeader input = .ok h ∧ a.2 = h.plaintextSize.toNat := by
  unfold Decrypt.decryptBuffer at hrun
  obtain ⟨_, _, -, hrun⟩ := bind_eq_ok.mp hrun
  obtain ⟨_, _, -, hrun⟩ := bind_eq_ok.mp hrun
  obtain ⟨h, _, hparse, hrun⟩ := bind_eq_ok.mp hrun
  refine ⟨h, (Prod.mk.inj hparse).1, ?_⟩
  obtain ⟨walk, _, -, hrun⟩ := bind_eq_ok.mp hrun
  obtain ⟨_, hrun⟩ := always_eq_ok hrun
  obtain ⟨_, _, -, hrun⟩ := bind_eq_ok.mp hrun
  obtain ⟨_, _, -, hrun⟩ := bind_eq_ok.mp hrun
  obtain ⟨_, hrun⟩ := always_eq_ok hrun
  obtain ⟨_, _, -, hrun⟩ := bind_eq_ok.mp hrun
  obtain ⟨_, hrun⟩ := always_eq_ok hrun
  obtain ⟨_, _, -, hrun⟩ := bind_eq_ok.mp hrun
  obtain ⟨_, hrun⟩ := always_eq_ok hrun
  obtain ⟨_, _, -, hrun⟩ := bind_eq_ok.mp hrun
  obtain ⟨_, _, -, hrun⟩ := bind_eq_ok.mp hrun
  -- `finish`: the guard before the allocation, and what is returned at the end
  obtain ⟨_, _, hguard, hrun⟩ := bind_eq_ok.mp hrun
  obtain ⟨hle, -⟩ := throwIf_eq_ok.mp hguard
  obtain ⟨_, _, -, hrun⟩ := bind_eq_ok.mp hrun
  have hbody := onStop_eq_ok hrun
  obtain ⟨_, _, -, hrun⟩ := bind_eq_ok.mp hbody
  obtain ⟨_, _, -, hrun⟩ := bind_eq_ok.mp hrun
  obtain ⟨_, _, -, hrun⟩ := bind_eq_ok.mp hrun
  cases hrun
  exact Nat.mod_eq_of_lt (by omega)

/-- **What a header declares** is what the file was made of, and what it decrypts to. -/
theorem told_header (hp : parseFileHeader (.bytes f) = .ok h) : Told f (infoOf h) where
  header := ⟨h, hp, rfl⟩
  encrypted _ _ _ _ ht := encrypted_info ht hp
  decrypted _ _ _ ht := by
    obtain ⟨input, s, out, s', hden, hrun, -⟩ := ht
    obtain ⟨h', hp', hsize⟩ := decryptBuffer_declared hrun
    cases hden with
    | null => cases hp'
    | bytes =>
      cases hp.symm.trans hp'
      exact hsize.symm

end Headers

/-! ### Runs of `inspect` -/

section Runs

variable {w : World} {os : Os} {con : Console} {args : Args} {m : Machine} {fd inode size : ℕ} {c : Bytes} {f : File}

theorem ends_readTransfer (n : ℕ) {pos : ℕ} (hd : m.desc fd = some ⟨inode, pos, true⟩) :
    Ends (syscall (readTransfer os fd n)) m fun r m' => m'.disk = m.disk ∧ ∀ k y, r = .ok (.count k, y) →
      y = slice (m.contents inode) pos y.length ∧ k = y.length ∧ y.length ≤ n ∧
        m'.desc fd = some ⟨inode, pos + k, true⟩ := by
  refine ends_syscall ⟨rfl, fun _ _ h => by cases h⟩ fun t left => ?_
  unfold readTransfer
  rw [hd]
  rcases os.read m.time with k | _ | _
  · refine ⟨rfl, fun k' y h => ?_⟩
    cases h
    refine ⟨?_, rfl, ?_, Machine.desc_seek hd _⟩
    · simp [slice]
    · simp only [slice, List.length_take]
      omega
  · exact ⟨rfl, fun _ _ h => by cases h⟩
  · exact ⟨rfl, fun _ _ h => by cases h⟩

/-- What `fread` stores is a beginning of the file. By induction on the rounds. -/
theorem ends_freadLoop (os : Os) : ∀ rounds x m, m.desc fd = some ⟨inode, x.length, true⟩ → m.contents inode = c →
    x <+: c → x.length ≤ size →
    Ends (freadLoop os fd size rounds x) m fun r _ => ∀ y, r = .ok y → y <+: c ∧ y.length ≤ size := by
  intro rounds
  induction rounds with
  | zero =>
    rintro x m - - hx hlen _ ⟨⟩
    exact ⟨hx, hlen⟩
  | succ rounds ih =>
    intro x m hd hc hx hlen
    have hstop {m : Machine} : Ends (pure x : Sys Bytes) m fun r _ => ∀ y, r = .ok y → y <+: c ∧ y.length ≤ size := by
      rintro _ ⟨⟩
      exact ⟨hx, hlen⟩
    rw [freadLoop]
    split
    swap
    · exact hstop
    refine Ends.bind (ends_readTransfer (size - x.length) hd) ?_ fun e _ _ _ h => by cases h
    rintro ⟨n | _ | _, y⟩ m1 ⟨hdisk, hgot⟩
    · dsimp only
      split
      · exact hstop
      obtain ⟨hy, rfl, hle, hd1⟩ := hgot _ _ rfl
      refine ih (x ++ y) m1 ?_ ?_ ?_ ?_
      · rw [hd1, List.length_append]
      · rw [← hc, Machine.contents, Machine.contents, hdisk]
      · obtain ⟨rest, rfl⟩ := hx
        rw [hc, slice, List.drop_left] at hy
        rw [hy]
        exact (List.prefix_append_right_inj x).mpr (List.take_prefix ..)
      · rw [List.length_append]
        omega
    · exact hstop
    · exact hstop

/-- The end of an inspection that goes well. -/
def described (i : McFileInfo) : Outcome := ⟨kExitOk, .ok (.info i (compressionName i))⟩

theorem described_inj {i j : McFileInfo} (h : described i = described j) : i = j := by
  cases h
  rfl

theorem attempt_inspect_ok {x : Bytes} {h : FileHeader} (hp : parseFileHeader (.bytes x) = .ok h) :
    attempt (inspectInto (.bytes x) {}) m = (.ok (.ok (infoOf h)), m) := by
  rw [attempt_run, inspectInto_ok hp]
  rfl

theorem attempt_inspect_error {x : Bytes} {s : McStatus} (hp : parseFileHeader (.bytes x) = .error (.status s)) :
    attempt (inspectInto (.bytes x) {}) m = (.ok (.error s), m) := by
  rw [attempt_run, inspectInto_error hp]
  rfl

/-- `RunInspect` exits with 0 after a header only. -/
theorem runInspect_described : Ends (runInspect os con args) m fun r _ => ∀ o, r = .ok o → o.code = kExitOk →
    ∃ f h, (os.follow args.input).bind (fun n => m.disk.look n) = some f ∧ parseFileHeader (.bytes f.data) = .ok h ∧
      o = described (infoOf h) := by
  unfold runInspect
  split
  · rintro _ ⟨⟩ hok
    cases hok
  refine Ends.bind ends_sysOpen ?_ fun e _ _ _ h => by cases h
  rintro fd m1 ⟨-, hd1, hr | hr | ⟨fd, inode, hr, hentry, hdesc⟩⟩ <;> cases hr
  · rintro _ ⟨⟩ hok
    cases hok
  obtain ⟨f, hf, hdata⟩ := Machine.look_of_entry hentry
  have hcontents : m1.contents inode = f.data := by rw [hdata, Machine.contents, Machine.contents, hd1]
  refine Ends.bind (ends_freadLoop os _ [] m1 hdesc hcontents List.nil_prefix (Nat.zero_le _)) ?_
    fun e _ _ _ h => by cases h
  intro read m2 hread
  obtain ⟨hpre, hle⟩ := hread read rfl
  refine Ends.bind ((looks_sysClose fd).ends m2) ?_ fun e _ _ _ h => by cases h
  rintro _ m3 -
  have hheader : (overwrite (con.garbage kHeaderSize).1 0 read).take read.length = read := by
    rw [← slice_take]
    exact overwrite_prefix (by rw [byteVec_length]; exact hle)
  rw [hheader]
  rcases hp : parseFileHeader (.bytes read) with e | h
  · obtain ⟨s, -, rfl⟩ := parseFileHeader_error hp
    refine Ends.step (attempt_inspect_error hp) ?_
    rintro _ ⟨⟩ hok
    cases hok
  · refine Ends.step (attempt_inspect_ok hp) ?_
    rintro _ ⟨⟩ -
    exact ⟨f, h, hf, header_of_prefix hp hpre, rfl⟩

/-- Of a file that can be read, a valid header is described. -/
theorem runInspect_returns {h : FileHeader} (hin : args.input ≠ []) (hopen : os.openOk m.time = true)
    (hread : ∀ t, ∃ n, os.read t = .count (n + 1))
    (hf : (os.follow args.input).bind (fun n => m.disk.look n) = some f) (hp : parseFileHeader (.bytes f.data) = .ok h) :
    ∃ m', Returns (runInspect os con args) m (.ok (described (infoOf h))) m' := by
  obtain ⟨n, hn, hlook⟩ := Option.bind_eq_some_iff.mp hf
  obtain ⟨inode, hentry, hlook⟩ := Option.bind_eq_some_iff.mp hlook
  obtain ⟨k, hk, rfl⟩ := Option.map_eq_some_iff.mp hlook
  have hopened : opened os m args.input = some k.now.data := by
    unfold opened
    rw [hn, Option.bind_some, hentry, Option.bind_some, if_pos hopen, Machine.contents, hk]
    rfl
  obtain ⟨i, hi, hcall⟩ := sysOpen_opened hopened
  have hdesc : ({ m.push i with time := m.time + 1 } : Machine).desc m.fds.length = some ⟨i, 0, true⟩ :=
    Machine.desc_push m i
  have hstream : ({ m.push i with time := m.time + 1 } : Machine).stream m.fds.length = k.now.data := by
    rw [Machine.stream, hdesc, ← hi]
    rfl
  obtain ⟨c, m1, hsteps, -⟩ := freadLoop_steps os kHeaderSize kHeaderSize [] _ ⟨_, hdesc⟩
  rw [hstream, List.nil_append, List.length_nil, Nat.sub_zero, arriving_all hread _ _ _ _ (le_refl _)] at hsteps
  have hhead : parseFileHeader (.bytes (k.now.data.take kHeaderSize)) = .ok h := by
    obtain ⟨hlen, hv, hs⟩ := parseFileHeader_ok_iff.mp hp
    refine parseFileHeader_ok_iff.mpr ⟨by rw [List.length_take]; omega, hv, ?_⟩
    rw [← hs, slice_take, slice_take, List.take_take, Nat.min_self]
  have hheader : (overwrite (con.garbage kHeaderSize).1 0 (k.now.data.take kHeaderSize)).take
      (k.now.data.take kHeaderSize).length = k.now.data.take kHeaderSize := by
    rw [← slice_take]
    exact overwrite_prefix (by rw [byteVec_length]; exact List.length_take_le ..)
  refine ⟨{ m1.shut m.fds.length with time := m1.time + 1 }, 1 + (c + (1 + 0)), ?_⟩
  rw [runInspect, requirePaths, if_neg hin]
  refine hcall.bind (hsteps.bind ((sysClose_steps os m.fds.length m1).bind (Steps.of_eq fun left => ?_)))
  rw [hheader, bind_ok (attempt_inspect_ok hhead)]
  rfl

end Runs

/-- An inspection that exits with 0 tells of the file at `--in`. -/
theorem main_inspects {w : World} {os : Os} {con : Console} {mem : ℕ → ℕ → Bool} {argv : List Text} {line : CommandLine}
    {m : Machine} (hp : parseArgs mem 0 argv {} = .ok (.ok line)) (hv : line.verb = .inspect) :
    Ends (main w os con mem argv) m fun r m' => m'.disk = m.disk ∧ ∀ o, r = .ok o → o.code = kExitOk →
      ∃ f i, (os.follow line.args.input).bind (fun n => m.disk.look n) = some f ∧ Told f.data i ∧ o = described i := by
  have hperform : perform w os con line = runInspect os con line.args := by rw [perform, hv]
  have hsame := @main_reads w os con mem argv m fun line' hp' => by cases hp.symm.trans hp'; rw [hv]; decide
  have htold : Ends (main w os con mem argv) m fun r _ => ∀ o, r = .ok o → o.code = kExitOk →
      ∃ f h, (os.follow line.args.input).bind (fun n => m.disk.look n) = some f ∧
        parseFileHeader (.bytes f.data) = .ok h ∧
        o = described (infoOf h) := by
    refine ends_main hp (hperform ▸ runInspect_described) ?_
    rintro m' - _ ⟨⟩ hok
    cases hok
  refine ⟨hsame, fun o ho hok => ?_⟩
  obtain ⟨f, h, hf, hparse, rfl⟩ := htold o ho hok
  exact ⟨f, _, hf, told_header hparse, rfl⟩

/-- **What `inspect` tells.** It changes no file, and when it exits with 0 the report bears what the file at `--in`
is. A valid header in a file that can be read is reported. -/
theorem tool_inspect (w : World) (os : Os) (con : Console) (mem : ℕ → ℕ → Bool) (argv : List Text) (line : CommandLine)
    (m : Machine) (hp : parseArgs mem 0 argv {} = .ok (.ok line)) (hv : line.verb = .inspect) :
    (Ends (main w os con mem argv) m fun r m' => m'.disk = m.disk ∧ ∀ o, r = .ok o → o.code = kExitOk →
      ∃ f i, (os.follow line.args.input).bind (fun n => m.disk.look n) = some f ∧ Told f.data i ∧ o = described i) ∧
    ∀ f h, line.args.input ≠ [] → (os.follow line.args.input).bind (fun n => m.disk.look n) = some f →
      parseFileHeader (.bytes f.data) = .ok h → os.openOk m.time = true → (∀ t, ∃ n, os.read t = .count (n + 1)) →
      ∃ m', Returns (main w os con mem argv) m (.ok (described (infoOf h))) m' := by
  refine ⟨main_inspects hp hv, fun f h hin hf hparse hopen hread => ?_⟩
  have hperform : perform w os con line = runInspect os con line.args := by rw [perform, hv]
  obtain ⟨m', c, hsteps⟩ := @runInspect_returns os con line.args m f h hin hopen hread hf hparse
  refine ⟨m', c, fun left => ?_⟩
  rw [main, catch_apply, run_parsed hp, hperform, hsteps left]

def inspectArgv : List Text := ["inspect".toList, "--in".toList, sampleOut]

def inspectLine : CommandLine := { command := "inspect".toList, args := ⟨sampleOut, [], [], [], [], [], [], [], []⟩ }

/-- The inspection of what the encryption left. -/
def inspection : Except Stop Outcome × Machine :=
  main sampleWorld (sampleOs 91) envConsole (fun _ _ => true) inspectArgv encryption.2

theorem inspection_ok : inspection.1 = .ok (described ⟨2, 0, 3, 4096, 1, 15, 8, 1⟩) := by decide +kernel

theorem encryption_told : ∃ f i, encryption.2.holds (sampleOs 91) (some sampleOut) = some f ∧ Told f.data i ∧
    inspection.1 = .ok (described i) ∧ i.plaintextSize = 3 := by
  have htells := (tool_inspect sampleWorld (sampleOs 91) envConsole (fun _ _ => true) inspectArgv inspectLine encryption.2
    rfl rfl).1
  unfold Ends at htells
  obtain ⟨f, i, hf, htold, ho⟩ := htells.2 (described ⟨2, 0, 3, 4096, 1, 15, 8, 1⟩)
    inspection_ok rfl
  obtain rfl := described_inj ho
  exact ⟨f, _, by rw [Machine.holds]; exact hf, htold, inspection_ok, rfl⟩

/-- **What the command line asks for is what `inspect` tells.** When an encryption and an inspection of what it wrote
both exit with 0, the report has the options of the first command line, and the size of the file that was read. -/
theorem tool_inspects_encryption (w w' : World) (os os' : Os) (con con' : Console) (mem mem' : ℕ → ℕ → Bool)
    (argv argv' : List Text) (line line' : CommandLine) (m m1 m' m2 : Machine) (o o' : Outcome)
    (hp : parseArgs mem 0 argv {} = .ok (.ok line)) (hv : line.verb = .encrypt)
    (hrun : main w os con mem argv m = (.ok o, m1)) (hok : o.code = kExitOk)
    (hp' : parseArgs mem' 0 argv' {} = .ok (.ok line')) (hv' : line'.verb = .inspect)
    (hrun' : main w' os' con' mem' argv' m' = (.ok o', m2)) (hok' : o'.code = kExitOk)
    (hfile : (os'.follow line'.args.input).bind (fun n => m'.disk.look n) = m1.holds os (some line.args.out)) :
    ∃ opts f y, encryptOptions line.args = .ok opts ∧ (os.follow line.args.input).bind (fun n => m.disk.look n) = some f ∧
      Reads os f y ∧ o' = described (infoFor opts y.length) := by
  have henc := @main_encrypts w os con mem argv line m hp hv
  have htells := @main_inspects w' os' con' mem' argv' line' m' hp' hv'
  unfold Ends at henc htells
  rw [hrun] at henc
  rw [hrun'] at htells
  obtain ⟨data, ⟨opts, hopts, k, mk, hk, hmakes⟩, hholds, -⟩ := henc.ok (congrArg Except.ok hok)
  obtain ⟨f, y, hf, hreads, hturns⟩ := Makes.turns hmakes
  rw [hk.disk] at hf
  obtain ⟨f', i, hf', htold, rfl⟩ := htells.2 o' rfl hok'
  rw [hfile, hholds] at hf'
  cases hf'
  exact ⟨opts, f, y, hopts, hf, hreads, congrArg described (htold.encrypted _ _ _ _ hturns)⟩

/-- The inspection of what the encryption left. -/
theorem encryption_inspected : ∃ opts f y, encryptOptions encryptLine.args = .ok opts ∧ sampleFile = f ∧
    Reads (sampleOs 3) f y ∧ described ⟨2, 0, 3, 4096, 1, 15, 8, 1⟩ = described (infoFor opts y.length) := by
  have hrun : encryption = (.ok ⟨kExitOk, .ok (.encrypted sampleIn sampleOut)⟩, encryption.2) := by
    rw [← encryption_ok]
  have hrun' : inspection = (.ok (described ⟨2, 0, 3, 4096, 1, 15, 8, 1⟩), inspection.2) := by
    rw [← inspection_ok]
  obtain ⟨opts, f, y, hopts, hf, hreads, ho⟩ := tool_inspects_encryption sampleWorld sampleWorld (sampleOs 3)
    (sampleOs 91) envConsole envConsole (fun _ _ => true) (fun _ _ => true) encryptArgv inspectArgv encryptLine inspectLine
    (sampleMachine sampleFile) encryption.2 encryption.2 inspection.2 _ _ rfl rfl hrun rfl rfl rfl hrun'
    rfl (by rw [Machine.holds]; rfl)
  exact ⟨opts, f, y, hopts, Option.some.inj hf, hreads, ho⟩

end ModelCrypt.Cli
