/-
# An output file is there as a whole or not at all

`WriteFileAtomically` drafts a file under a name that was absent, and the draft
is all it changes until the rename. `Leaves` is what its run can leave of a
disk, whichever system call fails, with whichever count, and wherever the power
is lost: the disk as it was, the draft, the draft unlinked, or the draft under
the new name with all of its data and its mode on the disk.

`cryptFile_ends` puts this behind `ReadFile` and the call that makes the data:
what a run of `mc_encrypt_file` or `mc_decrypt_file` can end in.

Key definitions: `Drafting`, `Leaves`, `Makes`, `Ran`.
Key theorems: `ends_writeFully`, `writeFileAtomically_ends`, `cryptFile_ends`.
-/
import ModelCrypt.FileRead
import ModelCrypt.DecryptRefines
import ModelCrypt.EncryptRefines

namespace ModelCrypt

open Lib Prog Fileio

variable {os : Os} {m : Machine}

/-! ### A draft that is open -/

/-- A mode that the temporary file has at some time: the one asked for, or the one it is made with. -/
def Tentative (os : Os) (mode : UInt32) (i : Inode) : Prop := i.Modes fun k => k = mode ∨ k = 0o600 &&& ~~~os.umask

/-- The disk is `d` and a draft that a descriptor has open at its end. -/
structure Drafting (d : Disk Path) (n : Path) (fd : ℕ) (s : St) (i : Inode) (m : Machine) : Prop where
  st : m.st = s
  disk : m.disk = d.draft n i
  desc : m.desc fd = some ⟨d.inodes.length, i.now.data.length, true⟩

section Draft

variable {d : Disk Path} {n : Path} {fd : ℕ} {s : St} {i : Inode}

/-- What happens to the draft happens to it alone. -/
theorem Drafting.touch (h : Drafting d n fd s i m) (f : Inode → Inode) :
    (m.touch d.inodes.length f).disk = d.draft n (f i) := by
  show m.disk.touch _ f = _
  rw [h.disk, Disk.touch_draft]

theorem Drafting.touched (h : Drafting d n fd s i m) {f : Inode → Inode}
    (hf : (f i).now.data.length = i.now.data.length) : Drafting d n fd s (f i) (m.touch d.inodes.length f) :=
  ⟨h.st, h.touch f, by rw [hf]; exact h.desc⟩

theorem ends_sysFchmod (h : Drafting d n fd s i m) (mode : UInt32) : Ends (sysFchmod os fd mode) m fun r m' =>
    (r = .ok true ∧ Drafting d n fd s (i.chmod mode) m') ∨
      ((r = .ok false ∨ r = .error .powerLoss) ∧ Drafting d n fd s i m') := by
  refine ends_syscall (.inr ⟨.inr rfl, h⟩) fun t k => ?_
  rw [h.desc]
  by_cases hok : os.fchmodOk m.time = true
  · simp only [hok, if_true]
    obtain ⟨h1, h2, h3⟩ := h.touched (f := .chmod mode) rfl
    exact .inl ⟨trivial, h1, h2, h3⟩
  · simp only [hok]
    exact .inr ⟨.inl rfl, h.st, h.disk, h.desc⟩

theorem ends_sysFsync (h : Drafting d n fd s i m) : Ends (sysFsync os fd) m fun r m' =>
    (r = .ok true ∧ Drafting d n fd s i.sync m') ∨
      ((r = .ok false ∨ r = .error .powerLoss) ∧ Drafting d n fd s i m') := by
  refine ends_syscall (.inr ⟨.inr rfl, h⟩) fun t k => ?_
  rw [h.desc]
  by_cases hok : os.fsyncOk m.time = true
  · simp only [hok, if_true]
    obtain ⟨h1, h2, h3⟩ := h.touched (f := .sync) rfl
    exact .inl ⟨trivial, h1, h2, h3⟩
  · simp only [hok]
    exact .inr ⟨.inl rfl, h.st, h.disk, h.desc⟩

/-- A write appends some of the bytes at the pointer, or changes nothing. -/
theorem ends_sysWrite {p : Ptr} {k : ℕ} {x : Bytes} (h : Drafting d n fd s i m) (hx : load p k s = (.ok x, s))
    (hk : x.length = k) : Ends (sysWrite os fd p k) m fun r m' =>
      (Drafting d n fd s i m' ∧ (r = .error .powerLoss ∨ r = .ok .eintr ∨ r = .ok .error)) ∨
        ∃ c ≤ k, r = .ok (.count c) ∧ Drafting d n fd s (i.write i.now.data.length (x.take c)) m' := by
  refine Ends.bind (ends_onSt (Q := fun r m' => r = .ok x ∧ m' = m) ?_) ?_ fun e m' h' => by cases h'.1
  · rw [h.st]
    refine Ends.of_eq hx ⟨rfl, ?_⟩
    rw [← h.st]
  rintro a m1 ⟨ha, rfl⟩
  cases ha
  refine ends_syscall (.inl ⟨h, .inl rfl⟩) fun t l => ?_
  rw [writeTransfer, h.desc]
  rcases hw : os.write m1.time with c | _ | _
  · subst hk
    refine .inr ⟨min c x.length, Nat.min_le_right c _, rfl, ?_⟩
    have htake : x.take (min c x.length) = x.take c := List.take_eq_take_min.symm
    refine ⟨h.st, ?_, ?_⟩
    · rw [htake]
      exact h.touch _
    · have hdesc : (m1.touch d.inodes.length (·.write i.now.data.length (x.take c))).desc fd = _ := h.desc
      rw [Inode.write_now_end, List.length_append, List.length_take, Nat.min_assoc, Nat.min_self]
      exact Machine.desc_seek hdesc _
  · exact .inl ⟨⟨h.st, h.disk, h.desc⟩, .inr (.inl rfl)⟩
  · exact .inl ⟨⟨h.st, h.disk, h.desc⟩, .inr (.inr rfl)⟩

/-- The bytes are at the pointer, all of them and only them. -/
def Supplies (s : St) (p : Ptr) (x : Bytes) : Prop :=
  ∀ off k, off + k ≤ x.length → load (p.add off) k s = (.ok (slice x off k), s)

/-- **WriteFully appends all the bytes or stops**: the draft holds what was written
so far, with the modes it had, and no byte is lost, repeated or out of place. -/
theorem ends_writeFully (os : Os) {p : Ptr} {x : Bytes} {P : UInt32 → Prop} (h : Drafting d n fd s i m)
    (hp : Supplies s p x)
    (hi : i.Modes P) (h0 : i.now.data = []) : Ends (writeFully os fd p x.length) m fun r m' =>
      ∃ j, Drafting d n fd s j m' ∧ j.Modes P ∧ j.now.mode = i.now.mode ∧ j.now.data <+: x ∧
        (r = .ok true ∧ j.now.data = x ∨ r = .ok false ∨ r = .error .powerLoss) := by
  refine transferFully_ends (I := fun done m' => ∃ j, Drafting d n fd s j m' ∧ j.Modes P ∧
    j.now.mode = i.now.mode ∧ j.now.data = x.take done ∧ done ≤ x.length) ?_ ?_ ?_ ?_
  · exact ⟨i, h, hi, rfl, by rw [h0, List.take_zero], Nat.zero_le _⟩
  · rintro done m1 hlt ⟨j, hj, hm, hmode, hdata, hle⟩
    have hpre : j.now.data <+: x := hdata ▸ List.take_prefix done x
    refine (ends_sysWrite hj (hp done (x.length - done) (by omega)) (slice_length_of_le (by omega))).mono
      fun r m2 h2 => ?_
    rcases h2 with ⟨h2, hr⟩ | ⟨c, hc, hr, h2⟩
    · refine ⟨fun e he => ?_, fun _ => ⟨j, h2, hm, hmode, hdata, hle⟩, fun _ =>
        ⟨j, h2, hm, hmode, hpre, .inr (.inl rfl)⟩,
        fun c hc => ?_⟩
      · rcases hr with hr | hr | hr <;> rw [hr] at he <;> cases he
        exact ⟨j, h2, hm, hmode, hpre, .inr (.inr rfl)⟩
      · rcases hr with hr | hr | hr <;> rw [hr] at hc <;> cases hc
    · subst hr
      refine ⟨fun e he => (by cases he), fun he => (by cases he), fun he => (by cases he), fun c' hc' => ?_⟩
      cases hc'
      refine ⟨fun hz => absurd hz.1 (by decide), fun _ => ⟨_, h2, hm.write _ _, ?_, ?_, by omega⟩⟩
      · rw [Inode.write_now_end]
        exact hmode
      · rw [Inode.write_now_end]
        show j.now.data ++ _ = _
        have hnext := slice_append_slice x 0 done c
        rw [Nat.zero_add, slice_take, slice_take] at hnext
        have hpart : (slice x done (x.length - done)).take c = slice x done c := by
          rw [slice, slice, List.take_take, Nat.min_eq_left hc]
        rw [hdata, hpart, hnext]
  · rintro done m1 hge ⟨j, hj, hm, hmode, hdata, -⟩
    rw [List.take_of_length_le hge] at hdata
    exact ⟨j, hj, hm, hmode, hdata ▸ List.prefix_refl x, .inl ⟨rfl, hdata⟩⟩
  · rintro done m1 ⟨j, hj, hm, hmode, hdata, -⟩
    exact ⟨j, hj, hm, hmode, hdata ▸ List.take_prefix done x, .inr (.inr rfl)⟩

end Draft

/-! ### What WriteFileAtomically can leave of a disk -/

/-- A name that `mkstemp` makes for a path: absent, and named by the template that it filled in. -/
structure Temp (os : Os) (d : Disk Path) (path n : Path) : Prop where
  made : ∃ t s, os.mkstemp t = some s ∧ os.resolve (withSuffix (templateFor path) s) = some n
  absent : d.entry n = none

/-- What a run of `WriteFileAtomically` from the disk `d` can end in. -/
inductive Leaves (os : Os) (d : Disk Path) (path : Path) (x : Bytes) (mode : UInt32) :
    Except Stop Unit → Disk Path → Prop
  | untouched {r} (hr : r ≠ .ok ()) : Leaves os d path x mode r d
  /-- The power is lost, or an `unlink` fails. -/
  | left {r n i} (ht : Temp os d path n) (hi : Tentative os mode i) (hr : r ≠ .ok ())
      (why : ∀ s, r = .error (.status s) → ∃ t, os.unlinkOk t = false) : Leaves os d path x mode r (d.draft n i)
  | removed {r n i} (ht : Temp os d path n) (hi : Tentative os mode i) (hr : r ≠ .ok ()) :
      Leaves os d path x mode r ((d.draft n i).unlink n)
  | renamed {n o i} (ht : Temp os d path n) (hi : Tentative os mode i) (ho : os.resolve path = some o)
      (now : i.now = ⟨x, mode⟩) (synced : ∀ f, i.durable f → f = ⟨x, mode⟩) :
      Leaves os d path x mode (.ok ()) ((d.draft n i).rename n o)

section Leaves

variable {d : Disk Path} {path n mp : Path} {x : Bytes} {mode : UInt32} {fd : ℕ} {s : St} {i : Inode}

/-- The memory is as it was and the disk is what a stopped run can leave. -/
def GaveUp (os : Os) (d : Disk Path) (path : Path) (x : Bytes) (mode : UInt32) (s : St) (e : Stop)
    (m : Machine) : Prop :=
  m.st = s ∧ Leaves os d path x mode (.error e) m.disk

theorem Drafting.lost (h : Drafting d n fd s i m) (ht : Temp os d path n) (hi : Tentative os mode i) :
    GaveUp os d path x mode s .powerLoss m :=
  ⟨h.st, h.disk ▸ .left ht hi (fun e => (by cases e)) fun s hs => (by cases hs)⟩

/-- `::unlink(path); return MC_ERR_IO;` -/
theorem ends_unlink_throw (hs : m.st = s) (hd : m.disk = d.draft n i) (ht : Temp os d path n) (hi : Tentative os mode i)
    (hmp : os.resolve mp = some n) : Ends (do let _ ← sysUnlink os mp; throw (.status .errIo) : Sys Unit) m
      fun r m' => ∃ e, r = .error e ∧ GaveUp os d path x mode s e m' := by
  refine Ends.bind (R := fun r m' => m'.st = s ∧ (m'.disk = (d.draft n i).unlink n ∨ m'.disk = d.draft n i ∧
    (r = .error .powerLoss ∨ ∃ t, os.unlinkOk t = false)) ∧ ∀ e, r = .error e → e = .powerLoss) ?_ ?_ ?_
  · refine ends_syscall ⟨hs, .inr ⟨hd, .inl rfl⟩, fun e he => (by cases he; rfl)⟩ fun t k => ?_
    rw [hmp]
    by_cases hok : os.unlinkOk m.time = true
    · simp only [hok, if_true]
      exact ⟨hs, .inl (by rw [hd]), fun e he => (by cases he)⟩
    · simp only [hok]
      exact ⟨hs, .inr ⟨hd, .inr ⟨_, Bool.eq_false_of_not_eq_true hok⟩⟩, fun e he => (by cases he)⟩
  · rintro a m' ⟨hs', hd' | ⟨hd', hr⟩, -⟩
    · exact ⟨_, rfl, hs', hd' ▸ .removed ht hi fun e => (by cases e)⟩
    · refine ⟨_, rfl, hs', hd' ▸ .left ht hi (fun e => (by cases e)) fun _ _ => ?_⟩
      rcases hr with hr | hr
      · cases hr
      · exact hr
  · rintro e m' ⟨hs', hd', he⟩
    cases he e rfl
    refine ⟨_, rfl, hs', ?_⟩
    rcases hd' with hd' | ⟨hd', -⟩
    · exact hd' ▸ .removed ht hi fun e => (by cases e)
    · exact hd' ▸ .left ht hi (fun e => (by cases e)) fun s hs => (by cases hs)

theorem ends_unlinkIf {c : Prop} [Decidable c] (hs : m.st = s) (hd : m.disk = d.draft n i) (ht : Temp os d path n)
    (hi : Tentative os mode i) (hmp : os.resolve mp = some n) : Ends (unlinkIf os mp c) m
      fun r m' => (r = .ok () → ¬ c ∧ m' = m) ∧ ∀ e, r = .error e → GaveUp os d path x mode s e m' := by
  unfold unlinkIf
  split
  · refine (ends_unlink_throw (x := x) hs hd ht hi hmp).mono ?_
    rintro r m' ⟨e, rfl, h⟩
    exact ⟨fun h => (by cases h), fun e' he => (by cases he; exact h)⟩
  · rename_i hc
    exact ⟨fun _ => ⟨hc, rfl⟩, fun e he => (by cases he)⟩

theorem ends_sysClose (h : Drafting d n fd s i m) : Ends (sysClose os fd) m fun r m' =>
    m'.st = s ∧ m'.disk = d.draft n i ∧ ∀ e, r = .error e → e = .powerLoss :=
  ends_syscall ⟨h.st, h.disk, fun e he => (by cases he; rfl)⟩ fun t k => ⟨h.st, h.disk, fun e he => (by cases he)⟩

theorem ends_sysRename (hs : m.st = s) (hd : m.disk = d.draft n i) (hmp : os.resolve mp = some n) (path : Path) :
    Ends (sysRename os mp path) m fun r m' =>
      (m'.st = s ∧ r = .ok true ∧ ∃ o, os.resolve path = some o ∧ m'.disk = (d.draft n i).rename n o) ∨
        (m'.st = s ∧ m'.disk = d.draft n i ∧ (r = .ok false ∨ r = .error .powerLoss)) := by
  refine ends_syscall (.inr ⟨hs, hd, .inr rfl⟩) fun t k => ?_
  rw [hmp]
  rcases ho : os.resolve path with _ | o
  · exact .inr ⟨hs, hd, .inl rfl⟩
  by_cases hok : os.renameOk m.time = true
  · simp only [hok, if_true]
    exact .inl ⟨hs, trivial, o, rfl, by rw [hd]⟩
  · simp only [hok]
    exact .inr ⟨hs, hd, .inl rfl⟩

/-- `::close(fd); ::unlink(path); return MC_ERR_IO;` on a condition. -/
theorem ends_discardIf {c : Prop} [Decidable c] (h : Drafting d n fd s i m) (ht : Temp os d path n)
    (hi : Tentative os mode i) (hmp : os.resolve mp = some n) : Ends (discardIf os fd mp c) m
      fun r m' => (r = .ok () → ¬ c ∧ m' = m) ∧ ∀ e, r = .error e → GaveUp os d path x mode s e m' := by
  unfold discardIf
  split
  · refine Ends.bind (ends_sysClose h) ?_ ?_
    · rintro a m' ⟨hs', hd', -⟩
      refine (ends_unlink_throw (x := x) hs' hd' ht hi hmp).mono ?_
      rintro r m2 ⟨e, rfl, h2⟩
      exact ⟨fun h => (by cases h), fun e' he => (by cases he; exact h2)⟩
    · rintro e m' ⟨hs', hd', he⟩
      cases he e rfl
      refine ⟨fun h => (by cases h), fun e' he' => ?_⟩
      cases he'
      exact ⟨hs', hd' ▸ .left ht hi (fun e => (by cases e)) fun s hs => (by cases hs)⟩
  · rename_i hc
    exact ⟨fun _ => ⟨hc, rfl⟩, fun e he => (by cases he)⟩

theorem ends_sysMkstemp (path : Path) (m : Machine) : Ends (sysMkstemp os (templateFor path)) m fun r m' =>
    (m'.st = m.st ∧ m'.disk = m.disk ∧ (r = .ok none ∨ r = .error .powerLoss)) ∨
      ∃ fd mp n, r = .ok (some (fd, mp)) ∧ os.resolve mp = some n ∧ Temp os m.disk path n ∧
        Drafting m.disk n fd m.st (.create (0o600 &&& ~~~os.umask)) m' := by
  refine ends_syscall (.inl ⟨rfl, rfl, .inr rfl⟩) fun t k => ?_
  rcases hs : os.mkstemp m.time with _ | sfx
  · exact .inl ⟨rfl, rfl, .inl rfl⟩
  dsimp only
  rcases hn : os.resolve (withSuffix (templateFor path) sfx) with _ | n
  · exact .inl ⟨rfl, rfl, .inl rfl⟩
  dsimp only
  by_cases ha : m.disk.entry n = none
  · simp only [ha, if_true]
    exact .inr ⟨_, _, n, rfl, hn, ⟨⟨m.time, sfx, hs, hn⟩, ha⟩, rfl, rfl,
      Machine.desc_push { m with disk := m.disk.draft n (.create (0o600 &&& ~~~os.umask)) } _⟩
  · simp only [ha]
    exact .inl ⟨rfl, rfl, .inl rfl⟩

theorem ends_writeAll {p : Ptr} (h : Drafting d n fd s i m) (hp : Supplies s p x) (ht : Temp os d path n)
    (hi : Tentative os mode i) (h0 : i.now = ⟨[], mode⟩) (hmp : os.resolve mp = some n) :
    Ends (writeAll os fd mp p x.length) m fun r m' =>
      (r = .ok () → ∃ j, Drafting d n fd s j m' ∧ Tentative os mode j ∧ j.now = ⟨x, mode⟩) ∧
        ∀ e, r = .error e → GaveUp os d path x mode s e m' := by
  unfold writeAll
  split
  · have hmode0 : i.now.mode = mode := by rw [h0]
    refine Ends.bind (ends_writeFully os h hp hi (by rw [h0])) ?_ ?_
    · rintro whole m' ⟨j, hj, hm, hmode, -, hr⟩
      refine (ends_discardIf (x := x) hj ht hm hmp).mono fun r m2 h2 => ⟨fun hok => ?_, h2.2⟩
      obtain ⟨hc, rfl⟩ := h2.1 hok
      refine ⟨j, hj, hm, ?_⟩
      rcases hr with ⟨-, hx⟩ | hr | hr
      · rw [← hx, ← hmode0, ← hmode]
      · cases hr
        exact absurd rfl hc
      · cases hr
    · rintro e m' ⟨j, hj, hm, -, -, hr⟩
      refine ⟨fun hok => (by cases hok), fun e' he' => ?_⟩
      cases he'
      rcases hr with ⟨hr, -⟩ | hr | hr <;> cases hr
      exact hj.lost ht hm
  · rename_i h1
    refine ⟨fun _ => ⟨i, h, hi, ?_⟩, fun e he => by cases he⟩
    rw [h0, List.eq_nil_of_length_eq_zero (Nat.eq_zero_of_not_pos h1)]

/-- **What a run of WriteFileAtomically can leave**, for every outcome of every system
call and every point where the power is lost. -/
theorem writeFileAtomically_ends (mode : UInt32) {p : Ptr} (hp : Supplies m.st p x) :
    Ends (writeFileAtomically os path p x.length mode) m fun r m' =>
      m'.st = m.st ∧ Leaves os m.disk path x mode r m'.disk := by
  refine Ends.throwIf (fun _ => ⟨rfl, .untouched fun h => by cases h⟩) fun _ => ?_
  by_cases hstr : Strings os m.time path
  swap
  · exact Ends.of_eq (bind_error (temporaryFor_bad hstr)) ⟨rfl, .untouched fun h => by cases h⟩
  refine Ends.step (temporaryFor_ok hstr) ?_
  refine Ends.bind (ends_sysMkstemp path m) ?_ ?_
  swap
  · rintro e m1 (⟨hs, hd, -⟩ | ⟨_, _, _, hr, -⟩)
    · exact ⟨hs, hd ▸ .untouched fun h => by cases h⟩
    · cases hr
  rintro a m1 (⟨hs, hd, hr | hr⟩ | ⟨fd, mp, n, hr, hmp, ht, h1⟩)
  · cases hr
    exact ⟨hs, hd ▸ .untouched fun h => by cases h⟩
  · cases hr
  cases hr
  have hcreate : Tentative os mode (.create (0o600 &&& ~~~os.umask)) := Inode.modes_create (.inr rfl)
  -- the mode
  refine Ends.bind (R := fun r m2 => ∃ j, Drafting m.disk n fd m.st j m2 ∧ Tentative os mode j ∧
    (r = .ok true → j.now = ⟨[], mode⟩) ∧ ∀ e, r = .error e → e = .powerLoss) ?_ ?_ ?_
  · refine (ends_sysFchmod h1 mode).mono fun r m2 h2 => ?_
    rcases h2 with ⟨rfl, h2⟩ | ⟨rfl | rfl, h2⟩
    · exact ⟨_, h2, hcreate.chmod (.inl rfl), fun _ => rfl, fun e he => by cases he⟩
    · exact ⟨_, h2, hcreate, fun h => (by cases h), fun e he => by cases he⟩
    · exact ⟨_, h2, hcreate, fun h => (by cases h), fun e he => by cases he; rfl⟩
  swap
  · rintro e m2 ⟨j, h2, hj, -, he⟩
    cases he e rfl
    exact h2.lost ht hj
  rintro moded m2 ⟨j, h2, hj, hnow, -⟩
  refine Ends.bind (ends_discardIf (x := x) h2 ht hj hmp) ?_ fun e _ h => h.2 e rfl
  rintro _ _ ⟨hok, -⟩
  obtain ⟨hc, rfl⟩ := hok rfl
  have hnow' := hnow (by rw [Bool.eq_true_of_not_eq_false hc])
  -- the data
  refine Ends.bind (ends_writeAll h2 hp ht hj hnow' hmp) ?_ fun e _ h => h.2 e rfl
  rintro _ m3 ⟨hok, -⟩
  obtain ⟨j3, h3, hj3, hx⟩ := hok rfl
  refine Ends.bind (R := fun r m4 => ∃ j, Drafting m.disk n fd m.st j m4 ∧ Tentative os mode j ∧
    (r = .ok true → j.now = ⟨x, mode⟩ ∧ ∀ f, j.durable f → f = ⟨x, mode⟩) ∧ ∀ e, r = .error e → e = .powerLoss) ?_ ?_ ?_
  · refine (ends_sysFsync h3).mono fun r m4 h4 => ?_
    rcases h4 with ⟨rfl, h4⟩ | ⟨rfl | rfl, h4⟩
    · exact ⟨_, h4, hj3.sync, fun _ => ⟨hx, fun f hf => hf.trans hx⟩, fun e he => by cases he⟩
    · exact ⟨_, h4, hj3, fun h => (by cases h), fun e he => by cases he⟩
    · exact ⟨_, h4, hj3, fun h => (by cases h), fun e he => by cases he; rfl⟩
  swap
  · rintro e m4 ⟨j4, h4, hj4, -, he⟩
    cases he e rfl
    exact h4.lost ht hj4
  rintro synced m4 ⟨j4, h4, hj4, hsync, -⟩
  refine Ends.bind (ends_discardIf (x := x) h4 ht hj4 hmp) ?_ fun e _ h => h.2 e rfl
  rintro _ _ ⟨hok, -⟩
  obtain ⟨hc, rfl⟩ := hok rfl
  obtain ⟨hx4, hdur⟩ := hsync (by rw [Bool.eq_true_of_not_eq_false hc])
  -- the name
  refine Ends.bind (ends_sysClose h4) ?_ ?_
  swap
  · rintro e m5 ⟨hs5, hd5, he⟩
    cases he e rfl
    exact ⟨hs5, hd5 ▸ .left ht hj4 (fun e => by cases e) fun s hs => by cases hs⟩
  rintro closed m5 ⟨hs5, hd5, -⟩
  refine Ends.bind (ends_unlinkIf (x := x) hs5 hd5 ht hj4 hmp) ?_ fun e _ h => h.2 e rfl
  rintro _ _ ⟨hok, -⟩
  obtain ⟨-, rfl⟩ := hok rfl
  refine Ends.bind (ends_sysRename hs5 hd5 hmp path) ?_ ?_
  swap
  · rintro e m6 (⟨-, hr, -⟩ | ⟨hs6, hd6, hr⟩)
    · cases hr
    · rcases hr with hr | hr <;> cases hr
      exact ⟨hs6, hd6 ▸ .left ht hj4 (fun e => by cases e) fun s hs => by cases hs⟩
  rintro renamed m6 (⟨hs6, hr, o, ho, hd6⟩ | ⟨hs6, hd6, hr⟩)
  · cases hr
    exact ⟨hs6, hd6 ▸ .renamed ht hj4 ho hx4 hdur⟩
  · rcases hr with hr | hr <;> cases hr
    refine (ends_unlink_throw (x := x) hs6 hd6 ht hj4 hmp).mono ?_
    rintro _ m7 ⟨e, rfl, h7⟩
    exact h7

end Leaves

/-! ### From a buffer to a file and back -/

/-- What makes one buffer of another: it ends with a buffer that holds `b` and maybe more, or with a
status, and leaves memory as it was otherwise. -/
def Crypts (w : World) (crypt : Span → Run (SecureBuffer × ℕ)) : Prop := ∀ input s, input.size ≤ w.sizeT.max →
  Ends (crypt input) s fun r s' => (∃ (buf : SecureBuffer) (b y : Bytes), r = .ok (buf, b.length) ∧ b <+: y ∧
    InScope s.heap s.heap.get buf y s') ∨
    ∃ e, r = .error (.status e) ∧ Heap.Becomes s.heap s'.heap s.heap.get

theorem crypts_encrypt (w : World) (key : Span) (opts : EncryptOptions) :
    Crypts w (Encrypt.encryptBuffer w key opts) := by
  intro input s _
  rcases Encrypt.encryptBuffer_refines w key opts input s with
    ⟨⟨buf, n⟩, b, s1, h1, -, x, ⟨⟨j, -, hx⟩, hn⟩, hs⟩ | ⟨e, s1, h1, -, hb⟩
  · subst hn
    exact Ends.of_eq h1 (.inl ⟨buf, b, x, rfl, hx ▸ List.prefix_append b _, hs⟩)
  · exact Ends.of_eq h1 (.inr ⟨e, rfl, hb⟩)

theorem crypts_decrypt (w : World) (key : Span) : Crypts w (Decrypt.decryptBuffer w key) := by
  intro input s hin
  rcases Decrypt.decryptBuffer_refines w key input s hin with ⟨⟨buf, n⟩, b, s1, h1, -, hs, hn⟩ | ⟨e, s1, h1, -, hb⟩
  · subst hn
    exact Ends.of_eq h1 (.inl ⟨buf, b, b, rfl, List.prefix_refl b, hs⟩)
  · exact Ends.of_eq h1 (.inr ⟨e, rfl, hb⟩)

/-- A buffer's bytes as a pointer and a length. -/
theorem spanAt_run {buf : SecureBuffer} {x : Bytes} {s : St} (hh : buf.Holds s.heap.get x) :
    ∃ input, spanAt buf.ptr x.length s = (.ok input, s) ∧ input.Denotes x := by
  by_cases hne : x = []
  · subst hne
    cases hh.ptr_null
    exact ⟨.null 0, rfl, .null⟩
  · obtain ⟨b, -, hptr, hget⟩ := hh.ptr hne
    refine ⟨.bytes x, ?_, .bytes x⟩
    unfold spanAt
    rw [if_neg (by rw [hptr]; simp), hptr, bind_ok (load_run hget (by omega)), slice_all]
    rfl

/-- A buffer has what was put into it to give. -/
theorem supplies_of_holds {buf : SecureBuffer} {x y : Bytes} {s : St} (hh : buf.Holds s.heap.get y) (hx : x <+: y) :
    Supplies s buf.ptr x := by
  intro off k hk
  by_cases hne : y = []
  · subst hne
    cases hh.ptr_null
    cases List.prefix_nil.mp hx
    have : k = 0 := by simp at hk; omega
    subst this
    rfl
  · obtain ⟨b, -, hptr, hget⟩ := hh.ptr hne
    rw [hptr, Ptr.add, Nat.zero_add, load_run hget (le_trans hk hx.length_le)]
    obtain ⟨z, rfl⟩ := hx
    rw [slice_append_left hk]

/-- Leaving the scope of a buffer. -/
theorem ends_withBuffer {α : Type} {buf : SecureBuffer} {body : Sys α} {m : Machine}
    {Q R : Except Stop α → Machine → Prop} (hm : Ends body m R)
    (hq : ∀ r m', R r m' → ∃ h0 g x, InScope h0 g buf x m'.st ∧ ∀ m'', m''.disk = m'.disk →
      Heap.Becomes h0 m''.st.heap g → Q r m'') : Ends (withBuffer buf body) m Q := by
  refine Ends.always hm fun r m' hr => ?_
  obtain ⟨h0, g, x, hs, h⟩ := hq r m' hr
  refine (ends_destroy hs).mono ?_
  rintro _ m2 ⟨rfl, hd, -, hb⟩
  exact ⟨fun e he => (by cases he), fun _ => h m2 hd hb⟩

/-- What a call makes of a buffer. -/
def Turns (crypt : Span → Run (SecureBuffer × ℕ)) (y x : Bytes) : Prop :=
  ∃ input s out s', input.Denotes y ∧ crypt input s = (.ok (out, x.length), s') ∧ s'.At out.data x

/-- What `crypt` makes of the bytes that `ReadFile` reads at a path. -/
def Makes (w : World) (os : Os) (crypt : Span → Run (SecureBuffer × ℕ)) (maxSize : UInt64) (inPath : Option Path)
    (m : Machine) (data : Bytes) : Prop :=
  ∃ path buf x m1 input out s2, inPath = some path ∧ readFile os w path maxSize m = (.ok (buf, x.length), m1) ∧
    FileRead w os path maxSize m buf x m1 ∧ input.Denotes x ∧
    crypt input m1.st = (.ok (out, data.length), s2) ∧ s2.At out.data data

/-- How `cryptFile` can end: nothing was written, or the output was made and `WriteFileAtomically` ran. -/
def Ran (w : World) (os : Os) (crypt : Span → Run (SecureBuffer × ℕ)) (maxSize : UInt64) (mode : UInt32)
    (inPath outPath : Option Path) (m : Machine) (r : Except Stop Unit) (m' : Machine) : Prop :=
  (r ≠ .ok () ∧ m'.disk = m.disk) ∨ ∃ data path, outPath = some path ∧ Makes w os crypt maxSize inPath m data ∧
    Leaves os m.disk path data mode r m'.disk

theorem toPaths_run (os : Os) (inPath outPath : Option Path) (m : Machine) :
    (∃ i o, inPath = some i ∧ outPath = some o ∧ toPaths os inPath outPath m = (.ok (i, o), m)) ∨
      ∃ e, toPaths os inPath outPath m = (.error (.status e), m) ∧ (e = .errInvalidArg ∨ e = .errMemory) := by
  unfold toPaths catchBadAlloc
  rw [catch_apply]
  rcases inPath with _ | i
  · exact .inr ⟨_, rfl, .inl rfl⟩
  by_cases hi : os.string m.time .inputPath i.length = true
  swap
  · rw [toPath, bind_assoc, bind_error (newString_bad hi)]
    exact .inr ⟨_, rfl, .inr rfl⟩
  rw [toPath, bind_assoc, bind_ok (newString_ok hi), pure_bind]
  rcases outPath with _ | o
  · exact .inr ⟨_, rfl, .inl rfl⟩
  by_cases ho : os.string m.time .outputPath o.length = true
  swap
  · rw [toPath, bind_assoc, bind_error (newString_bad ho)]
    exact .inr ⟨_, rfl, .inr rfl⟩
  rw [toPath, bind_assoc, bind_ok (newString_ok ho), pure_bind]
  exact .inl ⟨i, o, rfl, rfl, rfl⟩

/-- **What a run of `mc_encrypt_file` or `mc_decrypt_file` can end in.** The memory is as it was. -/
theorem cryptFile_ends {crypt : Span → Run (SecureBuffer × ℕ)} (w : World) (os : Os) (hc : Crypts w crypt)
    (maxSize : UInt64) (mode : UInt32) (inPath outPath : Option Path) (m : Machine) :
    Ends (cryptFile w os crypt maxSize mode inPath outPath) m fun r m' =>
      Ran w os crypt maxSize mode inPath outPath m r m' ∧ Heap.Becomes m.st.heap m'.st.heap m.st.heap.get := by
  have hsame := Heap.Becomes.refl m.st.heap
  rcases toPaths_run os inPath outPath m with ⟨i, o, rfl, rfl, hp⟩ | ⟨e, hp, -⟩
  swap
  · exact Ends.of_eq (bind_error hp) ⟨.inl ⟨fun h => (by cases h), rfl⟩, hsame⟩
  refine Ends.step hp (Ends.bind (R := fun r m1 => readFile os w i maxSize m = (r, m1) ∧
    ((∃ (buf : SecureBuffer) (x : Bytes), r = .ok (buf, x.length) ∧ FileRead w os i maxSize m buf x m1) ∨
      ∃ e, r = .error e ∧ ReadFailed m e m1)) ⟨rfl, readFile_ends i maxSize m⟩ ?_ ?_)
  swap
  · rintro e m1 ⟨-, ⟨_, _, hr, -⟩ | ⟨_, hr, hf⟩⟩
    · cases hr
    · exact ⟨.inl ⟨fun h => (by cases h), hf.disk⟩, hf.memory⟩
  rintro _ m1 ⟨hread, ⟨buf, x, hr, h1⟩ | ⟨_, hr, -⟩⟩
  swap
  · cases hr
  cases hr
  obtain ⟨input, hspan, hden⟩ := spanAt_run h1.scope.holds
  refine ends_withBuffer (R := fun r m' => Ran w os crypt maxSize mode (some i) (some o) m r m' ∧
    Heap.Becomes m1.st.heap m'.st.heap m1.st.heap.get) ?_ fun r m' h => ⟨_, _, x, h1.scope.after h.2, ?_⟩
  swap
  · rintro m2 hd hb
    refine ⟨?_, hb⟩
    rcases h.1 with ⟨hr, hd'⟩ | ⟨data, path, hp, hm, hl⟩
    · exact .inl ⟨hr, hd.trans hd'⟩
    · exact .inr ⟨data, path, hp, hm, hd ▸ hl⟩
  have hspan' : onSt (spanAt buf.ptr x.length) m1 = (.ok input, m1) := by rw [onSt_run, hspan]
  refine Ends.step hspan' (Ends.bind (ends_onSt (Q := fun r m2 => crypt input m1.st = (r, m2.st) ∧ m2.disk = m1.disk ∧
    ((∃ (buf : SecureBuffer) (b y : Bytes), r = .ok (buf, b.length) ∧ b <+: y ∧
      InScope m1.st.heap m1.st.heap.get buf y m2.st) ∨
      ∃ e, r = .error (.status e) ∧ Heap.Becomes m1.st.heap m2.st.heap m1.st.heap.get))
    ⟨rfl, rfl, hc input m1.st (hden.size.trans_le h1.le_size)⟩) ?_ ?_)
  swap
  · rintro e m2 ⟨-, hd, ⟨_, _, _, hr, -⟩ | ⟨_, hr, hb⟩⟩
    · cases hr
    · exact ⟨.inl ⟨fun h => (by cases h), hd.trans h1.disk⟩, hb⟩
  rintro _ m2 ⟨hrun, hd2, ⟨out, b, y, hr, hpre, hs2⟩ | ⟨_, hr, -⟩⟩
  swap
  · cases hr
  cases hr
  have hmakes : Makes w os crypt maxSize (some i) m b :=
    ⟨i, buf, x, m1, input, out, m2.st, rfl, hread, h1, hden, hrun, St.at_of_holds hs2.holds hpre⟩
  refine ends_withBuffer (writeFileAtomically_ends mode (supplies_of_holds hs2.holds hpre)) ?_
  rintro r m3 ⟨hst3, hl⟩
  refine ⟨_, _, y, hst3 ▸ hs2, fun m4 hd4 hb4 => ⟨.inr ⟨b, o, rfl, hmakes, ?_⟩, hb4⟩⟩
  rw [hd4]
  rwa [hd2, h1.disk] at hl

end ModelCrypt
