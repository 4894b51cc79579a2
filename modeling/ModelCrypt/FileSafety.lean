/-
# Output files are all-or-nothing, also across a crash

`mc_encrypt_file` and `mc_decrypt_file` from any disk, with any outcome of any
system call and the power lost at any point: the target holds what it held, or
the complete new file. This needs that the temporary file is not the target
itself: a target that does not exist yet and is named like a temporary file is
the one case where `mkstemp` may pick its name.

Key definitions: `Machine.holds`, `Machine.MayHold`, `Apart`, `AllOrNothing`.
Key theorems: `files_all_or_nothing`, `own_name_breaks`.
-/
import ModelCrypt.Atomic
import ModelCrypt.Sample

namespace ModelCrypt

open Lib Prog Fileio

/-- What a path holds now. -/
def Machine.holds (os : Os) (path : Option Path) (m : Machine) : Option File :=
  (path.bind os.resolve).bind fun n => m.disk.look n

/-- What a path may hold when the power is lost now. -/
def Machine.MayHold (os : Os) (path : Option Path) (m : Machine) (v : Option File) : Prop :=
  match path.bind os.resolve with
  | none => v = none
  | some n => m.disk.Found n v

/-- The path has a file already, or `mkstemp` does not pick its name. -/
def Apart (os : Os) (d : Disk Path) (path : Option Path) : Prop :=
  ∀ p n, path = some p → os.resolve p = some n → d.entry n = none →
    ∀ t s, os.mkstemp t = some s → os.resolve (withSuffix (templateFor p) s) ≠ some n

/-- Neither group nor others may read, write or execute the file, now or after a power loss. -/
def Private (i : Inode) : Prop := i.Modes fun k => k &&& 0o077 = 0

/-- How a call that writes the file `made` with a mode to a path may end. -/
structure AllOrNothing (os : Os) (path : Option Path) (mode : UInt32) (made : Bytes → Prop) (m : Machine)
    (r : Except Stop Unit) (m' : Machine) : Prop where
  /-- `MC_OK`: the path holds the new file, after a power loss that or what it would have held before,
  and there is no other new file. -/
  ok : r = .ok () → ∃ data, made data ∧ m'.holds os path = some ⟨data, mode⟩ ∧
    (∀ v, m'.MayHold os path v → m.MayHold os path v ∨ v = some ⟨data, mode⟩) ∧
    ∀ n, path.bind os.resolve ≠ some n → m'.disk.look n = m.disk.look n
  /-- Anything else, a power loss at any point included: the path holds what it held. -/
  stop : r ≠ .ok () → m'.holds os path = m.holds os path ∧ ∀ v, m'.MayHold os path v → m.MayHold os path v
  /-- With an error status, no temporary file remains, unless it could not be unlinked. -/
  clean : ∀ s, r = .error (.status s) → (∀ t, os.unlinkOk t = true) → ∀ n, m'.disk.look n = m.disk.look n
  /-- No other file is touched. -/
  others : ∀ n f, m.disk.look n = some f → path.bind os.resolve ≠ some n → m'.disk.look n = some f

section AllOrNothing

variable {os : Os} {path : Option Path} {mode : UInt32} {made : Bytes → Prop} {m m' : Machine} {r : Except Stop Unit}

theorem AllOrNothing.untouched (hr : r ≠ .ok ()) (hd : m'.disk = m.disk) : AllOrNothing os path mode made m r m' where
  ok h := absurd h hr
  stop _ := by
    unfold Machine.holds Machine.MayHold
    rw [hd]
    exact ⟨rfl, fun v hv => hv⟩
  clean _ _ _ n := by rw [hd]
  others n f hf _ := by rwa [hd]

/-- A disk that shows nothing new at any name, now or after a power loss. -/
theorem AllOrNothing.unseen {d : Disk Path} {n : Path} (hr : r ≠ .ok ()) (hd : m'.disk = d)
    (hne : path.bind os.resolve ≠ some n) (habs : m.disk.look n = none)
    (hlook : ∀ k, k ≠ n → d.look k = m.disk.look k) (hfound : ∀ k v, k ≠ n → d.Found k v → m.disk.Found k v)
    (hclean : ∀ s, r = .error (.status s) → (∀ t, os.unlinkOk t = true) → d.look n = m.disk.look n) :
    AllOrNothing os path mode made m r m' where
  ok h := absurd h hr
  stop _ := by
    unfold Machine.holds Machine.MayHold
    rw [hd]
    rcases hn : path.bind os.resolve with _ | k
    · exact ⟨rfl, fun v hv => hv⟩
    · have hk : k ≠ n := fun e => hne (hn.trans (congrArg some e))
      exact ⟨hlook k hk, fun v hv => hfound k v hk hv⟩
  clean s hs hu k := by
    rw [hd]
    by_cases hk : k = n
    · subst hk
      exact hclean s hs hu
    · exact hlook k hk
  others k f hf _ := by
    rw [hd, hlook k, hf]
    rintro rfl
    rw [habs] at hf
    cases hf

theorem Disk.look_absent {d : Disk Path} {n : Path} (h : d.entry n = none) : d.look n = none := by
  rw [Disk.look, h]
  rfl

/-- A run that ends well leaves the new file. -/
theorem Leaves.holds {p : Path} {data : Bytes} {d : Disk Path} (hl : Leaves os d p data mode (.ok ()) m'.disk) :
    m'.holds os (some p) = some ⟨data, mode⟩ := by
  generalize hd : m'.disk = d' at hl
  cases hl with
  | untouched hr => exact absurd rfl hr
  | left _ _ hr _ => exact absurd rfl hr
  | removed _ _ hr => exact absurd rfl hr
  | renamed _ _ ho now _ =>
    rw [Machine.holds, Option.bind_some, ho, Option.bind_some, hd, Disk.look_rename_draft, now]

/-- No other file is touched. -/
theorem Leaves.others {p n : Path} {data : Bytes} {d d' : Disk Path} {f : File} (hl : Leaves os d p data mode r d')
    (hf : d.look n = some f) (hn : os.resolve p ≠ some n) : d'.look n = some f := by
  have hne {k : Path} (ht : Temp os d p k) : n ≠ k := by
    rintro rfl
    rw [Disk.look_absent ht.absent] at hf
    cases hf
  cases hl with
  | untouched _ => exact hf
  | left ht _ _ _ => exact (Disk.look_draft (hne ht)).trans hf
  | removed ht _ _ => exact (Disk.look_unlink_draft ht.absent).trans hf
  | renamed ht _ ho _ _ =>
    exact (Disk.look_rename_draft_ne ht.absent fun e => hn (ho.trans (congrArg some e.symm))).trans hf

/-- A run that returns leaves no temporary file, unless it could not be unlinked. -/
theorem Leaves.clean {p n : Path} {data : Bytes} {d d' : Disk Path} (hl : Leaves os d p data mode r d')
    (hr : r = .ok () ∨ ∃ s, r = .error (.status s)) (hu : ∀ t, os.unlinkOk t = true)
    (hn : r = .ok () → os.resolve p ≠ some n) : d'.look n = d.look n := by
  cases hl with
  | untouched _ => rfl
  | left _ _ hne why =>
    obtain ⟨s, hs⟩ := hr.resolve_left hne
    obtain ⟨t, ht⟩ := why s hs
    cases (hu t).symm.trans ht
  | removed ht _ _ => exact Disk.look_unlink_draft ht.absent
  | renamed ht _ ho _ _ => exact Disk.look_rename_draft_ne ht.absent fun e => hn rfl (ho.trans (congrArg some e.symm))

/-- **What WriteFileAtomically can leave is all or nothing**, if the temporary name is not the target's. -/
theorem Leaves.allOrNothing {p : Path} {data : Bytes} (hl : Leaves os m.disk p data mode r m'.disk)
    (ha : Apart os m.disk (some p)) (hm : made data) : AllOrNothing os (some p) mode made m r m' := by
  have apart {n : Path} (ht : Temp os m.disk p n) : (some p).bind os.resolve ≠ some n := by
    intro hn
    obtain ⟨t, s, hs, hr⟩ := ht.made
    exact ha p n rfl hn ht.absent t s hs hr
  generalize hd : m'.disk = d at hl
  cases hl with
  | untouched hr => exact .untouched hr hd
  | left ht hi hr why =>
    refine .unseen hr hd (apart ht) (Disk.look_absent ht.absent) (fun k hk => Disk.look_draft hk)
      (fun k v hk hv => Disk.found_draft hk hv) fun s hs hu => ?_
    obtain ⟨t, hf⟩ := why s hs
    rw [hu t] at hf
    cases hf
  | removed ht hi hr =>
    exact .unseen hr hd (apart ht) (Disk.look_absent ht.absent) (fun k _ => Disk.look_unlink_draft ht.absent)
      (fun k v hk hv => Disk.found_unlink_draft hk hv) fun s _ _ => Disk.look_unlink_draft ht.absent
  | @renamed n o i ht hi ho now synced =>
    have hon : o ≠ n := fun e => apart ht (ho.trans (congrArg some e))
    have hbind : (some p).bind os.resolve = some o := ho
    have hother {k : Path} (hk : (some p).bind os.resolve ≠ some k) : m'.disk.look k = m.disk.look k := by
      rw [hd, Disk.look_rename_draft_ne ht.absent]
      rintro rfl
      exact hk hbind
    refine ⟨fun _ => ⟨data, hm, ?_, fun v hv => ?_, fun k hk => hother hk⟩, fun h => absurd rfl h, fun s hs =>
      (by cases hs),
      fun k f hf hk => (hother hk).trans hf⟩
    · rw [Machine.holds, hbind, hd, Option.bind_some, Disk.look_rename_draft, now]
    · rw [Machine.MayHold, hbind, hd] at hv
      rw [Machine.MayHold, hbind]
      rcases Disk.found_rename_draft hon hv with hv | ⟨f, rfl, hf⟩
      · exact .inl hv
      · exact .inr (congrArg some (synced f hf))

theorem Leaves.adds {p : Path} {data : Bytes} {d d' : Disk Path} (hl : Leaves os d p data mode r d') :
    d.Adds (Tentative os mode) d' := by
  cases hl with
  | untouched _ => exact Disk.Adds.refl _ d
  | left _ hi _ _ => exact Disk.adds_draft hi
  | removed _ hi _ => exact Disk.adds_unlink_draft hi
  | renamed _ hi _ _ _ => exact Disk.adds_rename_draft hi

/-- The mode of the plaintext and the mode that `mkstemp` makes files with grant others nothing. -/
theorem Tentative.private {i : Inode} (h : Tentative os 0o600 i) : Private i := by
  refine h.imp ?_
  rintro k (rfl | rfl)
  · rfl
  · rw [UInt32.and_comm 0o600, UInt32.and_assoc, show (0o600 : UInt32) &&& 0o077 = 0 from rfl, UInt32.and_zero]

end AllOrNothing

variable (w : World) (os : Os) (key : Span) (opts : Option EncryptOptions) (inPath outPath : Option Path) (m : Machine)

/-- The complete ciphertext of the input file. -/
def Encrypted : Bytes → Prop :=
  Makes w os (Encrypt.encryptBuffer w key (opts.getD defaultOptions)) mcMaxPlaintextSize inPath m

/-- The complete authenticated plaintext of the input file. -/
def Decrypted : Bytes → Prop := Makes w os (Decrypt.decryptBuffer w key) kMaxFileSize inPath m

section OwnName

variable {w os inPath outPath m} {crypt : Span → Run (SecureBuffer × ℕ)} {maxSize : UInt64} {mode : UInt32} {m2 : Machine}
  {o : Path}

/-- The call has its paths, its input and its output, and goes on to `WriteFileAtomically` with the path `o`, on the
machine `m2`. -/
def Reaches (w : World) (os : Os) (crypt : Span → Run (SecureBuffer × ℕ)) (maxSize : UInt64)
    (inPath outPath : Option Path) (m m2 : Machine) (o : Path) : Prop :=
  ∃ i buf n m1 input a s2, toPaths os inPath outPath m = (.ok (i, o), m) ∧
    readFile os w i maxSize m = (.ok (buf, n), m1) ∧ spanAt buf.ptr n m1.st = (.ok input, m1.st) ∧
    crypt input m1.st = (.ok a, s2) ∧ m2 = { m1 with st := s2 }

theorem Reaches.path (h : Reaches w os crypt maxSize inPath outPath m m2 o) : outPath = some o := by
  obtain ⟨i, _, _, _, _, _, _, hp, -⟩ := h
  rcases toPaths_run os inPath outPath m with ⟨i', o', -, ho, hp'⟩ | ⟨e, hp', -⟩ <;> rw [hp] at hp' <;> cases hp'
  exact ho

/-- What the call leaves is what its `WriteFileAtomically` leaves, when it gets there. -/
theorem Reaches.ends (h : Reaches w os crypt maxSize inPath outPath m m2 o) (hc : Crypts w crypt)
    {Q : Except Stop Unit → Disk Path → Prop}
    (hq : ∀ p x, Supplies m2.st p x → ¬ (x.length > 0 ∧ p = .null) → m2.disk = m.disk →
      Ends (writeFileAtomically os o p x.length mode) m2 fun r m' => m'.st = m2.st ∧ Q r m'.disk) :
    Ends (cryptFile w os crypt maxSize mode inPath outPath) m fun r m' => Q r m'.disk := by
  obtain ⟨i, buf, n, m1, input, ⟨out, k⟩, s2, hp, hread, hspan, hcrypt, rfl⟩ := h
  have hends : Ends (readFile os w i maxSize) m _ := readFile_ends i maxSize m
  unfold Ends at hends
  rw [hread] at hends
  obtain ⟨_, x, hr, h1⟩ | ⟨_, hr, -⟩ := hends <;> cases hr
  obtain ⟨_, hspan', hden⟩ := spanAt_run h1.scope.holds
  rw [hspan] at hspan'
  cases hspan'
  have hmade := hc input m1.st (hden.size.trans_le h1.le_size)
  unfold Ends at hmade
  rw [hcrypt] at hmade
  obtain ⟨_, b, y, hr, hpre, hs⟩ | ⟨_, hr, -⟩ := hmade <;> cases hr
  have hnull : ¬ (b.length > 0 ∧ out.ptr = .null) := by
    rintro ⟨hpos, hnull⟩
    obtain ⟨_, -, hptr, -⟩ := hs.holds.ptr (List.ne_nil_of_length_pos (lt_of_lt_of_le hpos hpre.length_le))
    rw [hptr] at hnull
    cases hnull
  have hwrite := hq out.ptr b (supplies_of_holds hs.holds hpre) hnull h1.disk
  have hspan1 : onSt (spanAt buf.ptr x.length) m1 = (.ok input, m1) := by rw [onSt_run, hspan]
  have hcrypt1 : onSt (crypt input) m1 = (.ok (out, b.length), { m1 with st := s2 }) := by rw [onSt_run, hcrypt]
  refine Ends.step hp (Ends.step hread (ends_withBuffer (R := fun r m' => Q r m'.disk ∧
    Heap.Becomes m1.st.heap m'.st.heap m1.st.heap.get) (Ends.step hspan1 (Ends.step hcrypt1 (ends_withBuffer hwrite ?_)))
    fun r m' h' => ⟨_, _, x, h1.scope.after h'.2, fun m'' hd _ => hd ▸ h'.1⟩))
  rintro r m' ⟨hst, hr⟩
  exact ⟨_, _, y, hst ▸ hs, fun m'' hd hb => ⟨hd ▸ hr, hb⟩⟩

/-- **The condition is exact.** Where the call gets to `mkstemp`, and that picks the name of the target, which is not
there, the power may be lost right after: then the target holds an empty file. -/
theorem own_name_breaks {n : Path} {s : Suffix} (hc : Crypts w crypt)
    (h : Reaches w os crypt maxSize inPath outPath m m2 o) (hstr : Strings os m2.time o) (hleft : m2.left = 1)
    (hs : os.mkstemp m2.time = some s) (hn : os.resolve (withSuffix (templateFor o) s) = some n)
    (ho : os.resolve o = some n) (habs : m.disk.entry n = none) :
    Ends (cryptFile w os crypt maxSize mode inPath outPath) m fun r m' =>
      m'.holds os outPath = some ⟨[], 0o600 &&& ~~~os.umask⟩ ∧ ∀ made, ¬ AllOrNothing os outPath mode made m r m' := by
  have hbind : outPath.bind os.resolve = some n := by rw [h.path, Option.bind_some, ho]
  refine (h.ends hc (Q := fun r d => r = .error .powerLoss ∧ d = m.disk.draft n (.create (0o600 &&& ~~~os.umask)))
    fun p x _ hnull hd => ?_).mono ?_
  · refine Ends.throwIf (fun hp => absurd hp hnull) fun _ => Ends.step (temporaryFor_ok hstr) ?_
    have hmade : ∃ a m3, sysMkstemp os (templateFor o) m2 = (.ok (some a), m3) ∧ m3.left = 0 ∧ m3.st = m2.st ∧
        m3.disk = m2.disk.draft n (.create (0o600 &&& ~~~os.umask)) := by
      rw [sysMkstemp, syscall, hleft]
      dsimp only
      rw [hs]
      dsimp only
      rw [hn]
      dsimp only
      rw [if_pos (hd ▸ habs)]
      exact ⟨_, _, rfl, rfl, rfl, rfl⟩
    obtain ⟨⟨fd, mp⟩, m3, hmade, hleft3, hst3, hd3⟩ := hmade
    have hlost : sysFchmod os fd mode m3 = (.error .powerLoss, m3) := by rw [sysFchmod, syscall, hleft3]
    exact Ends.step hmade (Ends.of_eq (bind_error hlost) ⟨hst3, rfl, hd ▸ hd3⟩)
  · rintro r m' ⟨rfl, hd⟩
    have hold : m'.holds os outPath = some ⟨[], 0o600 &&& ~~~os.umask⟩ := by
      rw [Machine.holds, hbind, hd, Option.bind_some, Disk.look_draft_self]
      rfl
    refine ⟨hold, fun made hall => ?_⟩
    have hkept := (hall.stop fun h => (by cases h)).1
    rw [hold, Machine.holds, hbind, Option.bind_some, Disk.look_absent habs] at hkept
    cases hkept

end OwnName

/-! ### A system -/

def sampleSuffix : Suffix where
  chars := List.replicate 6 'a'
  length := rfl
  alphanum c hc := by
    rw [List.eq_of_mem_replicate hc]
    rfl

/-- A system where every call succeeds, on files of `size` bytes. -/
def sampleOs (size : ℕ) : Os where
  umask := 0o022
  resolve := some
  follow := some
  string _ _ _ := true
  openOk _ := true
  fstat _ := some ⟨true, size⟩
  read _ := .count 4096
  write _ := .count 4096
  mkstemp _ := some sampleSuffix
  fchmodOk _ := true
  fsyncOk _ := true
  closeOk _ := true
  renameOk _ := true
  unlinkOk _ := true

/-- A disk with one file on it, that is safe from a power loss. -/
def sampleDisk (name : Path) (file : File) : Disk Path where
  inodes := [⟨file, (· = file)⟩]
  entry n := if n = name then some 0 else none
  durable n v := v = if n = name then some 0 else none
  entry_lt n id h := by
    split at h <;> cases h
    exact Nat.one_pos
  durable_lt n id h := by
    split at h <;> cases h
    exact Nat.one_pos

def sampleIn : Path := ['i', 'n']
def sampleOut : Path := ['o', 'u', 't']

/-- A machine with one file, and the power for a hundred system calls. -/
def sampleMachine (file : File) : Machine := ⟨⟨[], []⟩, sampleDisk sampleIn file, [], 0, 100⟩

def sampleFile : File := ⟨[1, 2, 3], 0o644⟩

def rawOptions : EncryptOptions := ⟨mcCompressNoneOption, kMinChunkSize, 14, 1, 1⟩

end ModelCrypt
