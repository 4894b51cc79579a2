/-
# keygen makes a key file or leaves one that is not a key

`Made` is what `RunKeygen` returns and what is on the disk then, in each of the
ways it can end. The name is made before the bytes are written, with one
`write`, and nothing takes the name back: `RunKeygen` makes a whole key file or
leaves the disk alone exactly where no file is made, or that `write` takes all
the bytes (`keygen_allOrNothing_iff`).

Key definitions: `generated`, `created`, `Made`, `KeyFileOrNothing`.
Key theorems: `runKeygen_returns`, `keygen_allOrNothing_iff`.
-/
import ModelCrypt.LoadKey

namespace ModelCrypt.Cli

open Lib Prog Fileio

variable {w : World} {os : Os} {con : Console} {args : Args} {m m' : Machine} {r : Frame Exit}

/-! ### Calls of the library -/

section Attempt

variable {α : Type} {p : Sys α} {c : ℕ}

theorem attempt_ok {a : α} (h : Steps p m c (.ok a) m') : Steps (attempt p) m c (.ok (.ok a)) m' := by
  intro k
  rw [attempt, catch_apply, bind_ok (h k)]
  rfl

theorem attempt_status {s : McStatus} (h : Steps p m c (.error (.status s)) m') :
    Steps (attempt p) m c (.ok (.error s)) m' := by
  intro k
  rw [attempt, catch_apply, bind_error (h k)]
  rfl

/-- A call returns in one way, and leaves one machine. -/
theorem Returns.disk {a b : Except Stop α} {m1 m2 : Machine} (h : Returns p m a m1) (h' : Returns p m b m2) :
    m1.disk = m2.disk := by
  obtain ⟨c, hc⟩ := h
  obtain ⟨c', hc'⟩ := h'
  have h1 := hc c'
  rw [Nat.add_comm c c', hc' c] at h1
  exact (congrArg Machine.disk (Prod.mk.inj h1).2).symm

end Attempt

/-! ### How `RunKeygen` ends -/

/-- The 32 bytes that the generator returns. -/
def generated (w : World) (m : Machine) : Option (ByteVec 32) := w.rand m.st.trace.length 32

/-- The name that `open(path, .. | O_CREAT | O_EXCL)` makes, if it makes one. -/
def created (os : Os) (m : Machine) (path : Path) : Option Path :=
  (os.resolve path).bind fun name => if m.disk.entry name = none ∧ os.openOk m.time = true then some name else none

/-- A `write` takes all of a key. -/
def TakesKey (os : Os) (t : ℕ) : Prop := 32 ≤ (os.write t).bytes

instance (os : Os) (t : ℕ) : Decidable (TakesKey os t) := inferInstanceAs (Decidable (_ ≤ _))

/-- What `RunKeygen` returns, and the disk then. -/
inductive Made (w : World) (os : Os) (con : Console) (args : Args) (m : Machine) : Frame Exit → Disk Path → Prop
  | noOut (h : args.out = []) : Made w os con args m ⟨⟨kExitUsage, some (.required "--out")⟩, none⟩ m.disk
  | notGenerated (h0 : args.out ≠ []) (h : generated w m = none) :
      Made w os con args m ⟨⟨kExitFailure, some (.keygenFailed .errCrypto)⟩, some (con.garbage 32).1⟩ m.disk
  | notCreated (h0 : args.out ≠ []) {raw} (h : generated w m = some raw) (hc : created os m args.out = none) :
      Made w os con args m ⟨⟨kExitFailure, some (.cannotCreate args.out)⟩, some raw.1⟩ m.disk
  | failed (h0 : args.out ≠ []) {raw} (h : generated w m = some raw) {name} (hc : created os m args.out = some name)
      (hw : ¬ TakesKey os (m.time + 1)) {i : Inode}
      (hi : i.now = ⟨raw.1.take (os.write (m.time + 1)).bytes, 0o600 &&& ~~~os.umask⟩) :
      Made w os con args m ⟨⟨kExitFailure, some (.failedToWrite args.out)⟩, some (zeros 32)⟩ (m.disk.draft name i)
  | written (h0 : args.out ≠ []) {raw} (h : generated w m = some raw) {name} (hc : created os m args.out = some name)
      (hw : TakesKey os (m.time + 1)) {i : Inode} (hi : i.now = ⟨raw.1, 0o600 &&& ~~~os.umask⟩) :
      Made w os con args m ⟨⟨kExitOk, none⟩, some (zeros 32)⟩ (m.disk.draft name i)

/-- The generator makes no system call. -/
theorem mcGenerateKey_steps (w : World) (m : Machine) :
    Steps (attempt (onSt (mcGenerateKey w 32))) m 0 (.ok ((generated w m).elim (.error .errCrypto) .ok))
      { m with st := (mcGenerateKey w 32 m.st).2 } := by
  have hrun := Steps.onSt (mcGenerateKey w 32) m
  have hr : (mcGenerateKey w 32 m.st).1 = (generated w m).elim (.error (.status .errCrypto)) .ok := by
    unfold mcGenerateKey onTrace zoom generated
    rw [fill_eq (by decide) (by decide)]
    cases w.rand m.st.trace.length 32 <;> rfl
  rw [hr] at hrun
  rcases hg : generated w m with _ | raw <;> rw [hg] at hrun
  · exact attempt_status hrun
  · exact attempt_ok hrun

theorem sysCreate_none {path : Path} (h : created os m path = none) :
    Steps (sysCreate os path 0o600) m 1 (.ok none) { m with time := m.time + 1 } := by
  intro k
  rw [sysCreate, syscall, Nat.add_comm 1 k]
  unfold created at h
  rcases hr : os.resolve path with _ | name
  · simp only
  · rw [hr, Option.bind_some] at h
    by_cases hc : m.disk.entry name = none ∧ os.openOk m.time = true
    · rw [if_pos hc] at h
      cases h
    · simp only [if_neg hc]

/-- The machine that `open` leaves when it made the name. -/
def Machine.made (os : Os) (m : Machine) (name : Path) : Machine :=
  { m with disk := m.disk.draft name (.create (0o600 &&& ~~~os.umask)), time := m.time + 1 }.push m.disk.inodes.length

theorem sysCreate_some {path name : Path} (h : created os m path = some name) :
    Steps (sysCreate os path 0o600) m 1 (.ok (some m.fds.length)) (Machine.made os m name) := by
  intro k
  rw [sysCreate, syscall, Nat.add_comm 1 k]
  unfold created at h
  obtain ⟨name', hr, h⟩ := Option.bind_eq_some_iff.mp h
  by_cases hc : m.disk.entry name' = none ∧ os.openOk m.time = true
  · rw [if_pos hc] at h
    cases h
    simp only [hr, if_pos hc]
    rfl
  · rw [if_neg hc] at h
    cases h

/-- One `write` into the new file, of which the file has then what was taken. -/
theorem writeKey_steps (os : Os) (m : Machine) (name : Path) (raw : ByteVec 32) : ∃ t i m',
    Steps (syscall (writeTransfer os m.fds.length raw.1)) (Machine.made os m name) 1 (.ok t) m' ∧
      m'.disk = m.disk.draft name i ∧ (t = .count 32 ↔ TakesKey os (m.time + 1)) ∧
      i.now = ⟨raw.1.take (os.write (m.time + 1)).bytes, 0o600 &&& ~~~os.umask⟩ := by
  have hd : (Machine.made os m name).desc m.fds.length = some ⟨m.disk.inodes.length, 0, true⟩ :=
    Machine.desc_push _ m.disk.inodes.length
  have ht : os.write (Machine.made os m name).time = os.write (m.time + 1) := rfl
  have hlen : raw.1.length = 32 := byteVec_length raw
  have hcall := Steps.syscall (writeTransfer_left os m.fds.length raw.1) (Machine.made os m name)
  rw [writeTransfer, hd, ht] at hcall
  unfold TakesKey
  rcases hw : os.write (m.time + 1) with k | _ | _ <;> rw [hw] at hcall <;> dsimp only [Transfer.bytes] at hcall ⊢
  · refine ⟨_, (Inode.create (0o600 &&& ~~~os.umask)).write 0 (raw.1.take k), _, hcall, Disk.touch_draft _, ?_,
      Inode.write_now_end (raw.1.take k) (.create (0o600 &&& ~~~os.umask))⟩
    rw [hlen, Transfer.count.injEq]
    omega
  · exact ⟨_, _, _, hcall, rfl, iff_of_false (fun h => (by cases h)) (by decide), rfl⟩
  · exact ⟨_, _, _, hcall, rfl, iff_of_false (fun h => (by cases h)) (by decide), rfl⟩

/-- **`RunKeygen` returns**, in one of the ways of `Made`. -/
theorem runKeygen_returns (w : World) (os : Os) (con : Console) (args : Args) (m : Machine) :
    ∃ r m', Returns (runKeygen w os con args) m (.ok r) m' ∧ Made w os con args m r m'.disk := by
  by_cases h0 : args.out = []
  · refine ⟨_, m, ⟨0, Steps.of_eq fun _ => ?_⟩, .noOut h0⟩
    rw [runKeygen, if_pos h0]
    rfl
  have hgen := mcGenerateKey_steps w m
  generalize (mcGenerateKey w 32 m.st).2 = st at hgen
  rcases hg : generated w m with _ | raw <;> rw [hg] at hgen
  · refine ⟨_, { m with st := st }, ⟨0 + 0, ?_⟩, .notGenerated h0 hg⟩
    rw [runKeygen, if_neg h0]
    exact hgen.bind (Steps.of_eq fun _ => rfl)
  rcases hc : created os m args.out with _ | name
  · refine ⟨_, { m with st := st, time := m.time + 1 }, ⟨0 + (1 + 0), ?_⟩, .notCreated h0 hg hc⟩
    rw [runKeygen, if_neg h0]
    exact hgen.bind ((sysCreate_none (m := { m with st := st }) hc).bind (Steps.of_eq fun _ => rfl))
  have hcreate := sysCreate_some (m := { m with st := st }) hc
  obtain ⟨t, i, m1, hwrite, hdisk, hall, hnow⟩ := writeKey_steps os { m with st := st } name raw
  have hclose := sysClose_steps os m.fds.length m1
  have hzero : secureZero raw.1 = zeros 32 := by rw [secureZero, byteVec_length]
  by_cases hw : TakesKey os (m.time + 1)
  · have hkey : i.now = ⟨raw.1, 0o600 &&& ~~~os.umask⟩ := by
      rw [hnow, List.take_of_length_le (by rw [byteVec_length]; exact hw)]
    have hmade : Made w os con args m _ m1.disk := hdisk ▸ Made.written h0 hg hc hw hkey
    refine ⟨_, { m1.shut m.fds.length with time := m1.time + 1 }, ⟨0 + (1 + (1 + (1 + 0))), ?_⟩, hmade⟩
    rw [runKeygen, if_neg h0]
    refine hgen.bind (hcreate.bind (hwrite.bind (hclose.bind ?_)))
    rw [if_neg (not_not.mpr (hall.mpr hw)), hzero]
    exact Steps.of_eq fun _ => rfl
  · have hmade : Made w os con args m _ m1.disk := hdisk ▸ Made.failed h0 hg hc hw hnow
    refine ⟨_, { m1.shut m.fds.length with time := m1.time + 1 }, ⟨0 + (1 + (1 + (1 + 0))), ?_⟩, hmade⟩
    rw [runKeygen, if_neg h0]
    refine hgen.bind (hcreate.bind (hwrite.bind (hclose.bind ?_)))
    rw [if_pos (mt hall.mp hw), hzero]
    exact Steps.of_eq fun _ => rfl

/-! ### All or nothing -/

/-- A success leaves a file, where there was none, with the 32 bytes and for the owner alone, and the other files as
they were; a failure leaves the file system as it was. -/
structure KeyFileOrNothing (w : World) (os : Os) (args : Args) (m : Machine) (r : Exit) (d : Disk Path) : Prop where
  absent : r.code = kExitOk → ∃ name, os.resolve args.out = some name ∧ m.disk.entry name = none
  made : r.code = kExitOk → ∃ name raw, os.resolve args.out = some name ∧ generated w m = some raw ∧
    d.look name = some ⟨raw.1, 0o600⟩
  kept : ∀ n, m.disk.entry n ≠ none → d.look n = m.disk.look n
  nothing : r.code ≠ kExitOk → d = m.disk

/-- `RunKeygen` gets as far as to make the name. -/
def MakesName (w : World) (os : Os) (args : Args) (m : Machine) : Prop :=
  args.out ≠ [] ∧ (generated w m).isSome = true ∧ (created os m args.out).isSome = true

theorem created_entry {path name : Path} (h : created os m path = some name) :
    os.resolve path = some name ∧ m.disk.entry name = none := by
  unfold created at h
  obtain ⟨name', hr, h⟩ := Option.bind_eq_some_iff.mp h
  split at h
  · rename_i hc
    cases h
    exact ⟨hr, hc.1⟩
  · cases h

theorem draft_ne {name : Path} (h : m.disk.entry name = none) (i : Inode) : m.disk.draft name i ≠ m.disk := fun he => by
  have := Disk.entry_draft_self (d := m.disk) (n := name) (i := i)
  rw [he, h] at this
  cases this

theorem failure_ne : kExitFailure ≠ kExitOk := by decide

theorem nothing_allOrNothing {e : Exit} (h : e.code ≠ kExitOk) : KeyFileOrNothing w os args m e m.disk :=
  ⟨fun h' => absurd h' h, fun h' => absurd h' h, fun _ _ => rfl, fun _ => rfl⟩

theorem Made.allOrNothing {d : Disk Path} (h : Made w os con args m r d) :
    KeyFileOrNothing w os args m r.value d ↔
      (MakesName w os args m → TakesKey os (m.time + 1) ∧ 0o600 &&& ~~~os.umask = 0o600) := by
  rcases h with h | ⟨h0, h⟩ | ⟨h0, h, hc⟩ | ⟨h0, h, hc, hw, hi⟩ | ⟨h0, h, hc, hw, hi⟩
  · exact iff_of_true (nothing_allOrNothing (by decide : kExitUsage ≠ kExitOk)) fun hm => absurd h hm.1
  · refine iff_of_true (nothing_allOrNothing failure_ne) fun hm => ?_
    have := hm.2.1
    rw [h] at this
    cases this
  · refine iff_of_true (nothing_allOrNothing failure_ne) fun hm => ?_
    have := hm.2.2
    rw [hc] at this
    cases this
  · refine iff_of_false (fun hk => ?_) fun hm => hw (hm ⟨h0, by rw [h]; rfl, by rw [hc]; rfl⟩).1
    exact draft_ne (created_entry hc).2 _ (hk.nothing failure_ne)
  · rename_i raw name i
    obtain ⟨hr, hentry⟩ := created_entry hc
    have hlook : (m.disk.draft name i).look name = some ⟨raw.1, 0o600 &&& ~~~os.umask⟩ := by
      rw [Disk.look_draft_self, hi]
    constructor
    · intro hk _
      obtain ⟨name', raw', hr', -, hl⟩ := hk.made rfl
      cases hr.symm.trans hr'
      exact ⟨hw, congrArg File.mode (Option.some.inj (hlook.symm.trans hl))⟩
    · intro hm
      obtain ⟨-, hmode⟩ := hm ⟨h0, by rw [h]; rfl, by rw [hc]; rfl⟩
      rw [hmode] at hlook
      refine ⟨fun _ => ⟨name, hr, hentry⟩, fun _ => ⟨name, raw, hr, h, hlook⟩, fun n hn => ?_, fun hne =>
        absurd rfl hne⟩
      exact Disk.look_draft fun hname => hn (hname ▸ hentry)

/-- **When keygen is all or nothing.** A success leaves the whole key in a new file with mode 0600, and a failure the
file system as it was, exactly if the name is not made, or the one `write` takes all 32 bytes and the umask leaves
the mode as it is. -/
theorem keygen_allOrNothing_iff (h : Returns (runKeygen w os con args) m (.ok r) m') :
    KeyFileOrNothing w os args m r.value m'.disk ↔
      (MakesName w os args m → TakesKey os (m.time + 1) ∧ 0o600 &&& ~~~os.umask = 0o600) := by
  obtain ⟨r', m1, hret, hmade⟩ := runKeygen_returns w os con args m
  cases hret.unique h
  rw [← Returns.disk hret h]
  exact hmade.allOrNothing

/-- A call that returns. -/
theorem sample_allOrNothing_iff : ∃ r m', Returns (runKeygen sampleWorld (sampleOs 0) sampleConsole sampleArgs)
    (sampleMachine sampleFile) (.ok r) m' ∧
    (KeyFileOrNothing sampleWorld (sampleOs 0) sampleArgs (sampleMachine sampleFile) r.value m'.disk ↔
      (MakesName sampleWorld (sampleOs 0) sampleArgs (sampleMachine sampleFile) →
        TakesKey (sampleOs 0) 1 ∧ 0o600 &&& ~~~(sampleOs 0).umask = 0o600)) := by
  obtain ⟨r, m', h, -⟩ := runKeygen_returns sampleWorld (sampleOs 0) sampleConsole sampleArgs (sampleMachine sampleFile)
  exact ⟨r, m', h, keygen_allOrNothing_iff h⟩

/-- Every `write` takes 16 bytes. -/
def shortOs : Os := { sampleOs 0 with write := fun _ => .count 16 }

/-- After a short `write`, `RunKeygen` fails and leaves half a key, which is long enough to be loaded; and another
`RunKeygen` cannot create the file. -/
theorem shortOs_leaves_half : ∃ m',
    Returns (runKeygen sampleWorld shortOs sampleConsole sampleArgs) (sampleMachine sampleFile)
      (.ok ⟨⟨kExitFailure, some (.failedToWrite sampleOut)⟩, some (zeros 32)⟩) m' ∧
    (sampleMachine sampleFile).holds shortOs (some sampleOut) = none ∧
    m'.holds shortOs (some sampleOut) = some ⟨zeros 16, 0o600⟩ ∧
    created shortOs m' sampleOut = none ∧
    ¬ KeyFileOrNothing sampleWorld shortOs sampleArgs (sampleMachine sampleFile)
      ⟨kExitFailure, some (.failedToWrite sampleOut)⟩ m'.disk := by
  obtain ⟨r, m', h, hmade⟩ := runKeygen_returns sampleWorld shortOs sampleConsole sampleArgs (sampleMachine sampleFile)
  have hshort : ¬ TakesKey shortOs ((sampleMachine sampleFile).time + 1) := by decide
  have hg : generated sampleWorld (sampleMachine sampleFile) = some ⟨zeros 32, zeros_length 32⟩ := by decide
  have hmakes : created shortOs (sampleMachine sampleFile) sampleArgs.out = some sampleOut := by decide
  generalize hd : m'.disk = d at hmade
  rcases hmade with h0 | ⟨-, hg'⟩ | ⟨-, -, hc⟩ | ⟨-, hg', hc, -, hi⟩ | ⟨-, -, -, hw, -⟩
  · cases h0
  · cases hg.symm.trans hg'
  · cases hmakes.symm.trans hc
  · cases hg.symm.trans hg'
    cases hmakes.symm.trans hc
    refine ⟨m', h, by decide, ?_, ?_, fun hk => ?_⟩
    · show m'.disk.look sampleOut = _
      rw [hd, Disk.look_draft_self, hi]
      decide
    · show (if m'.disk.entry sampleOut = none ∧ true = true then some sampleOut else none) = none
      rw [hd, Disk.entry_draft_self]
      rfl
    · exact draft_ne (by decide) _ (hd ▸ hk.nothing (by decide))
  · exact absurd hw hshort

end ModelCrypt.Cli
