/-
# A hostile file

Whatever is at `--in`, `decrypt` writes a plaintext that was encrypted, or nothing. With
a history of encryptions and a cipher that opens what was sealed in it and nothing else,
what it may write is the plaintext of a call of the history whose whole file it read,
under a key that derives what the call derived. It makes no difference who wrote the
file, of what parts it was put together, or what fails on the way.

Key theorems: `Makes.authentic`, `tool_authentic`.
-/
import ModelCrypt.ToolLive
import ModelCrypt.Authenticity

namespace ModelCrypt

open Lib Prog

variable {w : World} {calls : List Encrypt.Call} {kdf : ScryptArgs → ByteVec kKeySize} {os : Os} {path : Path}
  {m : Machine} {k data : Bytes}

/-- What `mc_decrypt_file` makes of a file is the plaintext of a call whose file it read. -/
theorem Makes.authentic (hc : ∀ c ∈ calls, c.world = w ∧ ∃ f, c.Makes f) (hd : Encrypt.Distinct calls)
    (hi : Encrypt.Ideal w calls) (hw : w.Zlib) (hkdf : w.Derives kdf)
    (h : Decrypted w os (.bytes k) (some path) m data) : ∃ f y c, c ∈ calls ∧
      (os.follow path).bind (fun n => m.disk.look n) = some f ∧ Reads os f y ∧ Encrypt.Matches kdf (.bytes k) y c ∧
        data = c.input.toBytes := by
  obtain ⟨p, buf, y, m1, input, out, s2, hp, hread, hfr, hden, hrun, hat⟩ := h
  cases hp
  obtain ⟨f, hf, hreads⟩ := hfr.reads hread
  cases hden with
  | null => cases hrun
  | bytes =>
    have hgives := Gives.any (Encrypt.gives_decrypt hc hi hw hd hkdf (.bytes k) y)
    obtain ⟨b, ⟨c, hcm, hmatch, rfl⟩, hlen, hat'⟩ := decryptBuffer_gives hfr.le_size hgives hrun
    obtain rfl := Encrypt.At.inj hat hat' hlen
    exact ⟨f, y, c, hcm, hf, hreads, hmatch, rfl⟩

namespace Cli

/-- **What `decrypt` writes was encrypted**, whatever file it is given: the plaintext of a call of the history, whose
whole file it read, under a key that derives what the call derived. -/
theorem tool_authentic (w : World) (calls : List Encrypt.Call) (kdf : ScryptArgs → ByteVec kKeySize) (os : Os)
    (con : Console) (mem : ℕ → ℕ → Bool) (argv : List Text) (line : CommandLine) (m : Machine)
    (hc : ∀ c ∈ calls, c.world = w ∧ ∃ f, c.Makes f) (hd : Encrypt.Distinct calls) (hi : Encrypt.Ideal w calls)
    (hw : w.Zlib) (hkdf : w.Derives kdf) (hp : parseArgs mem 0 argv {} = .ok (.ok line)) (hv : line.verb = .decrypt) :
    Ends (main w os con mem argv) m fun r m' => WritesOut os line.args.out 0o600 (fun data => ∃ k m1 f y c,
      KeyLoaded os con line.args m k m1 ∧ c ∈ calls ∧
        (os.follow line.args.input).bind (fun n => m.disk.look n) = some f ∧ Reads os f y ∧
        Encrypt.Matches kdf (.bytes k) y c ∧ data = c.input.toBytes) m (r.map (·.code)) m' := by
  refine (main_decrypts hp hv).mono fun r m' h => h.1.imp ?_
  rintro data ⟨k, m1, hk, hmakes⟩
  obtain ⟨f, y, c, hcm, hf, hreads, hmatch, rfl⟩ := Makes.authentic hc hd hi hw hkdf hmakes
  rw [hk.disk] at hf
  exact ⟨k, m1, f, y, c, hk, hcm, hf, hreads, hmatch, rfl⟩

/-- A call under the key in the environment. -/
def envCall : Encrypt.Call :=
  ⟨sampleWorld, .bytes (List.replicate 16 7), Encrypt.sampleOptions, .bytes [1, 2, 3], ⟨[], []⟩⟩

theorem envCall_run : (Encrypt.encryptBuffer envCall.recalled.world envCall.recalled.key envCall.recalled.opts
    envCall.recalled.input envCall.recalled.start).1 = .ok (⟨some 1, 91⟩, 91) := by decide +kernel

theorem envCall_sealings : Encrypt.sealings envCall.recalled.hist =
    [(envCall.sealedFrom,
      .ok ((Encrypt.sealedAs envCall.sealedFrom).ct, (Encrypt.sealedAs envCall.sealedFrom).tag))] := by
  decide +kernel

/-- The file of the call, in a world that opens nothing else. -/
def envFile : File := ⟨(((Encrypt.encryptBuffer envCall.recalled.world envCall.key envCall.opts envCall.input
  envCall.start).2.heap.get 1).getD []).take 91, 0o644⟩

/-- The file is decrypted with `--in in --out out --key-env KEY`. -/
def envDecryption : Except Stop Outcome × Machine :=
  main envCall.recalled.world (sampleOs 91) envConsole (fun _ _ => true) sampleArgv (sampleMachine envFile)

/-- What it wrote is the plaintext of that call. -/
theorem envDecryption_authentic : envDecryption.1.map (·.code) = .ok kExitOk ∧
    envDecryption.2.holds (sampleOs 91) (some sampleOut) = some ⟨[1, 2, 3], 0o600⟩ := by
  have hok : envDecryption.1.map (·.code) = .ok kExitOk := by decide +kernel
  have h := tool_authentic envCall.recalled.world [envCall.recalled] Encrypt.sampleKdf (sampleOs 91) envConsole
    (fun _ _ => true) sampleArgv sampleLine (sampleMachine envFile)
    (fun c hc => by rw [List.mem_singleton.mp hc]; exact ⟨rfl, Encrypt.Call.makes envCall_run⟩)
    (List.pairwise_singleton ..) (Encrypt.recallWorld_ideal envCall_sealings)
    ⟨sampleWorld_lawful.stream_ne, sampleWorld_lawful.inflate_deflate⟩ Encrypt.recallWorld_derives rfl (by decide)
  unfold Ends at h
  rw [← envDecryption] at h
  obtain ⟨data, ⟨_, _, _, _, c, -, hc, -, -, -, hdata⟩, hholds, -⟩ := h.ok hok
  rw [List.mem_singleton.mp hc] at hdata
  obtain rfl : data = [1, 2, 3] := hdata
  exact ⟨hok, hholds⟩

end Cli

end ModelCrypt
