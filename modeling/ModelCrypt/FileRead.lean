/-
# What ReadFile reads

`readFile_ends`: whatever the system calls answer, `ReadFile` changes no file
and ends in one of three ways. It returns a buffer with the first bytes of the
file, as many as `fstat` told, no more than the limit or than a size_t holds;
or it returns a status or loses power, and memory is as it was. Short reads and
interruptions neither lose nor repeat a byte.

Key definition: `FileRead`.
Key theorems: `ends_readFully`, `readFile_ends`.
-/
import ModelCrypt.FileCalls

namespace ModelCrypt

open Lib Prog Fileio

variable {os : Os} {w : World} {m m0 : Machine}

/-! ### The loop -/

/-- The descriptor has the file open at a position, and no file was changed since `m0`. -/
structure Reading (m0 : Machine) (fd inode pos : ℕ) (tr : List Event) (m : Machine) : Prop where
  disk : m.disk = m0.disk
  desc : m.desc fd = some ⟨inode, pos, true⟩
  trace : m.st.trace = tr

section Loop

variable {h0 : Heap} {g : ℕ → Option Bytes} {buf : SecureBuffer} {fd inode done size : ℕ} {tr : List Event} {c : Bytes}

/-- A read puts the next bytes of the file behind the ones that are there, or changes nothing. -/
theorem ends_sysRead (os : Os) (hr : Reading m0 fd inode done tr m) (hc : m0.contents inode = c) (hd : done ≤ c.length)
    (hle : done ≤ size) (hs : InScope h0 g buf (c.take done ++ zeros (size - done)) m.st) :
    Ends (sysRead os fd (buf.ptr.add done) (size - done)) m fun r m' =>
      (Reading m0 fd inode done tr m' ∧ InScope h0 g buf (c.take done ++ zeros (size - done)) m'.st ∧
        (r = .error .powerLoss ∨ r = .ok .eintr ∨ r = .ok .error)) ∨
      ∃ k, r = .ok (.count k) ∧ Reading m0 fd inode (done + k) tr m' ∧ done + k ≤ c.length ∧ done + k ≤ size ∧
        InScope h0 g buf (c.take (done + k) ++ zeros (size - (done + k))) m'.st := by
  refine Ends.bind (R := fun r m' => (Reading m0 fd inode done tr m' ∧ m'.st = m.st ∧
      (r = .error .powerLoss ∨ r = .ok (.eintr, []) ∨ r = .ok (.error, []))) ∨
    ∃ x, r = .ok (.count x.length, x) ∧ Reading m0 fd inode (done + x.length) tr m' ∧ m'.st = m.st ∧
      c.take done ++ x <+: c ∧ x.length ≤ size - done) ?_ ?_ ?_
  · refine ends_syscall (.inl ⟨hr, rfl, .inl rfl⟩) fun t k => ?_
    rw [readTransfer, hr.desc]
    rcases hread : os.read m.time with n | _ | _
    · have hcont : m.contents inode = c := by rw [← hc, Machine.contents, hr.disk, Machine.contents]
      subst hcont
      refine .inr ⟨slice (m.contents inode) done (min n (size - done)), rfl, ⟨hr.disk, ?_, hr.trace⟩, rfl, ?_, ?_⟩
      · exact Machine.desc_seek hr.desc _
      · have hnext := slice_append_slice (m.contents inode) 0 done (min n (size - done))
        rw [Nat.zero_add, slice_take, slice_take] at hnext
        rw [hnext]
        exact List.take_prefix _ _
      · rw [slice_length]
        omega
    · exact .inl ⟨⟨hr.disk, hr.desc, hr.trace⟩, rfl, .inr (.inl rfl)⟩
    · exact .inl ⟨⟨hr.disk, hr.desc, hr.trace⟩, rfl, .inr (.inr rfl)⟩
  · rintro ⟨r, x⟩ m1 h1
    have hlen : (c.take done).length = done := List.length_take_of_le hd
    have hx : done + x.length ≤ size := by
      rcases h1 with ⟨-, -, hr | hr | hr⟩ | ⟨y, hr, -, -, -, hy⟩ <;> cases hr
      · exact hle
      · exact hle
      · omega
    have hs1 : m1.st = m.st := by rcases h1 with ⟨-, h, -⟩ | ⟨y, -, -, h, -⟩ <;> exact h
    have hroom : done + x.length ≤ (c.take done ++ zeros (size - done)).length := by
      rw [List.length_append, hlen, zeros_length]
      omega
    obtain ⟨s2, hst, htr, h2⟩ := (hs1 ▸ hs : InScope h0 g buf _ m1.st).store hroom
    rw [overwrite_zeros hlen.symm] at h2
    have hrun : onSt (store (buf.ptr.add done) x) m1 = (.ok (), { m1 with st := s2 }) := by rw [onSt_run, hst]
    refine Ends.step hrun ?_
    rcases h1 with ⟨h1, -, hr | hr | hr⟩ | ⟨y, hr, h1, -, hpre, -⟩ <;> cases hr
    · rw [List.append_nil] at h2
      exact .inl ⟨⟨h1.disk, h1.desc, htr.trans h1.trace⟩, h2, .inr (.inl rfl)⟩
    · rw [List.append_nil] at h2
      exact .inl ⟨⟨h1.disk, h1.desc, htr.trans h1.trace⟩, h2, .inr (.inr rfl)⟩
    · have htake := List.prefix_iff_eq_take.mp hpre
      rw [List.length_append, hlen] at htake
      have hle' := hpre.length_le
      rw [List.length_append, hlen] at hle'
      refine .inr ⟨x.length, rfl, ⟨h1.disk, h1.desc, htr.trans h1.trace⟩, hle', hx, ?_⟩
      rw [← htake, Nat.sub_add_eq]
      exact h2
  · rintro e m1 (⟨h1, hs1, hr | hr | hr⟩ | ⟨y, hr, -⟩) <;> cases hr
    exact .inl ⟨h1, hs1 ▸ hs, .inl rfl⟩

/-- **ReadFully reads the next `size` bytes or stops**, whatever the counts and
interruptions on the way. -/
theorem ends_readFully (os : Os) (hr : Reading m0 fd inode 0 tr m) (hc : m0.contents inode = c)
    (hs : InScope h0 g buf (zeros size) m.st) : Ends (readFully os fd buf.ptr size) m fun r m' =>
      ∃ pos y, Reading m0 fd inode pos tr m' ∧ InScope h0 g buf y m'.st ∧
        (r = .ok true ∧ y = c.take size ∧ size ≤ c.length ∨ r = .ok false ∨ r = .error .powerLoss) := by
  refine transferFully_ends (I := fun done m' => Reading m0 fd inode done tr m' ∧ done ≤ c.length ∧ done ≤ size ∧
    InScope h0 g buf (c.take done ++ zeros (size - done)) m'.st) ⟨hr, Nat.zero_le _, Nat.zero_le _, hs⟩ ?_ ?_ ?_
  · rintro done m1 hlt ⟨h1, hd, hle, hs1⟩
    refine (ends_sysRead os h1 hc hd hle hs1).mono fun r m2 h2 => ?_
    rcases h2 with ⟨h2, hs2, hr⟩ | ⟨k, rfl, h2, hd2, hle2, hs2⟩
    · refine ⟨fun e he => ?_, fun _ => ⟨h2, hd, hle, hs2⟩, fun _ => ⟨_, _, h2, hs2, .inr (.inl rfl)⟩, fun k hk => ?_⟩
      · rcases hr with hr | hr | hr <;> rw [hr] at he <;> cases he
        exact ⟨_, _, h2, hs2, .inr (.inr rfl)⟩
      · rcases hr with hr | hr | hr <;> rw [hr] at hk <;> cases hk
    · refine ⟨fun e he => (by cases he), fun he => (by cases he), fun he => (by cases he), fun k' hk' => ?_⟩
      cases hk'
      exact ⟨fun _ => ⟨_, _, h2, hs2, .inr (.inl rfl)⟩, fun _ => ⟨h2, hd2, hle2, hs2⟩⟩
  · rintro done m1 hge ⟨h1, hd, hle, hs1⟩
    have : done = size := by omega
    subst this
    rw [Nat.sub_self, zeros_zero, List.append_nil] at hs1
    exact ⟨_, _, h1, hs1, .inl ⟨rfl, rfl, hd⟩⟩
  · rintro done m1 ⟨h1, -, -, hs1⟩
    exact ⟨_, _, h1, hs1, .inr (.inr rfl)⟩

end Loop

/-! ### ReadFile -/

/-- What reading `n` bytes into a new buffer logs. -/
def readEvents (n : ℕ) : List Event := if n = 0 then [] else [.alloc .fileContents n true]

/-- The buffer holds the first bytes `x` of the file at the path, and nothing else was changed. -/
structure FileRead (w : World) (os : Os) (path : Path) (maxSize : UInt64) (m : Machine) (buf : SecureBuffer) (x : Bytes)
    (m' : Machine) : Prop where
  disk : m'.disk = m.disk
  scope : InScope m.st.heap m.st.heap.get buf x m'.st
  le_max : x.length ≤ maxSize.toNat
  le_size : x.length ≤ w.sizeT.max
  start : ∃ inode, (os.follow path).bind m.disk.entry = some inode ∧ x <+: m.contents inode
  trace : m'.st.trace = m.st.trace ++ readEvents x.length

/-- A stopped read: memory is as it was, and a buffer that there was no memory for is the only reason
to report that. -/
structure ReadFailed (m : Machine) (e : Stop) (m' : Machine) : Prop where
  disk : m'.disk = m.disk
  memory : Heap.Becomes m.st.heap m'.st.heap m.st.heap.get
  trace : ∃ hist, m'.st.trace = m.st.trace ++ hist ∧
    ∀ ev ∈ hist, ∃ n ok, ev = .alloc .fileContents n ok ∧ (ok = false → e = .status .errMemory ∨ e = .powerLoss)
  kind : e = .powerLoss ∨ e ∈ [McStatus.errIo, .errTooLarge, .errMemory].map Stop.status

section ReadFile

variable {path : Path} {maxSize : UInt64} {fd inode : ℕ} {tr : List Event}

/-- `::close(fd); return s;` leaves the memory and the files. -/
theorem ends_close_throw {α : Type} (s : McStatus) :
    Ends (do let _ ← sysClose os fd; throw (.status s) : Sys α) m fun r m' =>
    m'.st = m.st ∧ m'.disk = m.disk ∧ (r = .error .powerLoss ∨ r = .error (.status s)) :=
  Ends.bind (R := fun r m' => m'.st = m.st ∧ m'.disk = m.disk ∧ ∀ e, r = .error e → e = .powerLoss)
    (ends_syscall ⟨rfl, rfl, fun e he => by cases he; rfl⟩ fun _ _ => ⟨rfl, rfl, fun e he => by cases he⟩)
    (fun _ _ h => ⟨h.1, h.2.1, .inr rfl⟩) (fun e _ h => ⟨h.1, h.2.1, .inl (by rw [h.2.2 e rfl])⟩)

theorem ends_closeIf {c : Prop} [Decidable c] (s : McStatus) : Ends (closeIf os fd c s) m fun r m' =>
    (r = .ok () ∧ ¬ c ∧ m' = m) ∨
      (m'.st = m.st ∧ m'.disk = m.disk ∧ c ∧ (r = .error .powerLoss ∨ r = .error (.status s))) := by
  unfold closeIf
  split
  · rename_i hc
    exact (ends_close_throw s).mono fun r m' h => .inr ⟨h.1, h.2.1, hc, h.2.2⟩
  · rename_i hc
    exact .inl ⟨rfl, hc, rfl⟩

theorem ends_closeIf_bind {α : Type} {c : Prop} [Decidable c] {s : McStatus} {f : Unit → Sys α}
    {Q : Except Stop α → Machine → Prop}
    (pos : c → ∀ m' e, m'.st = m.st → m'.disk = m.disk → (e = .powerLoss ∨ e = .status s) → Q (.error e) m')
    (neg : ¬ c → Ends (f ()) m Q) : Ends (closeIf os fd c s >>= f) m Q := by
  refine Ends.bind (ends_closeIf s) ?_ ?_
  · rintro _ m' (⟨-, hc, rfl⟩ | ⟨-, -, -, hr | hr⟩)
    · exact neg hc
    · cases hr
    · cases hr
  · rintro e m' (⟨hr, -⟩ | ⟨hs, hd, hc, hr⟩)
    · cases hr
    · exact pos hc m' e hs hd (by rcases hr with hr | hr <;> cases hr <;> simp)

theorem ends_sysOpen : Ends (sysOpen os path) m fun r m' => m'.st = m.st ∧ m'.disk = m.disk ∧
    (r = .ok none ∨ r = .error .powerLoss ∨ ∃ fd inode, r = .ok (some fd) ∧
      (os.follow path).bind m.disk.entry = some inode ∧ m'.desc fd = some ⟨inode, 0, true⟩) := by
  refine ends_syscall ⟨rfl, rfl, .inr (.inl rfl)⟩ fun t k => ?_
  rcases hi : (os.follow path).bind m.disk.entry with _ | inode
  · exact ⟨rfl, rfl, .inl rfl⟩
  dsimp only
  split
  · exact ⟨rfl, rfl, .inr (.inr ⟨_, inode, rfl, rfl, Machine.desc_push m inode⟩)⟩
  · exact ⟨rfl, rfl, .inl rfl⟩

theorem ends_readAll (os : Os) {h0 : Heap} {g : ℕ → Option Bytes} {buf : SecureBuffer} {size : ℕ} {c : Bytes}
    (hr : Reading m0 fd inode 0 tr m) (hc : m0.contents inode = c) (hs : InScope h0 g buf (zeros size) m.st) :
    Ends (readAll os fd buf.ptr size) m fun r m' => ∃ y, InScope h0 g buf y m'.st ∧ m'.disk = m0.disk ∧
      m'.st.trace = tr ∧ (r = .ok () ∧ y = c.take size ∧ size ≤ c.length ∨
        r = .error .powerLoss ∨ r = .error (.status .errIo)) := by
  unfold readAll
  split
  · refine Ends.bind (ends_readFully os hr hc hs) ?_ ?_
    · rintro whole m1 ⟨pos, y, h1, hs1, hwhole⟩
      refine (ends_closeIf .errIo).mono fun r m2 h2 => ?_
      rcases h2 with ⟨rfl, hne, rfl⟩ | ⟨hst, hd, -, hr2⟩
      · rcases hwhole with ⟨-, hy⟩ | hw | hw
        · exact ⟨y, hs1, h1.disk, h1.trace, .inl ⟨rfl, hy⟩⟩
        · cases hw
          exact absurd rfl hne
        · cases hw
      · exact ⟨y, hst ▸ hs1, hd.trans h1.disk, hst ▸ h1.trace, .inr hr2⟩
    · rintro e m1 ⟨pos, y, h1, hs1, hwhole⟩
      refine ⟨y, hs1, h1.disk, h1.trace, .inr (.inl ?_)⟩
      rcases hwhole with ⟨hw, -⟩ | hw | hw <;> cases hw
      rfl
  · rename_i h0
    have : size = 0 := Nat.eq_zero_of_not_pos h0
    subst this
    exact ⟨_, hs, hr.disk, hr.trace, .inl ⟨rfl, rfl, Nat.zero_le _⟩⟩

/-- A buffer dies: the memory is as it was without it. -/
theorem ends_destroy {h0 : Heap} {g : ℕ → Option Bytes} {buf : SecureBuffer} {x : Bytes}
    (hs : InScope h0 g buf x m.st) :
    Ends (onSt (destroy buf)) m fun r m' => r = .ok () ∧ m'.disk = m.disk ∧ m'.st.trace = m.st.trace ∧
      Heap.Becomes h0 m'.st.heap g := by
  obtain ⟨s', hd, htr, hb⟩ := hs.destroy
  exact ends_onSt (Ends.of_eq hd ⟨rfl, rfl, htr, hb⟩)

/-- From the buffer on: it is filled and returned, or wiped and freed. -/
theorem ends_fillBuffer {h0 : Heap} {g : ℕ → Option Bytes} {buf : SecureBuffer} {size : ℕ} {c : Bytes}
    (hr : Reading m0 fd inode 0 tr m) (hc : m0.contents inode = c) (hs : InScope h0 g buf (zeros size) m.st) :
    Ends (onStop (do
        closeIf os fd (true = false) .errMemory
        readAll os fd buf.ptr size
        let _ ← sysClose os fd
        return (buf, size)) (onSt (destroy buf))) m fun r m' => m'.disk = m0.disk ∧ m'.st.trace = tr ∧
      (r = .ok (buf, size) ∧ InScope h0 g buf (c.take size) m'.st ∧ size ≤ c.length ∨
        (r = .error .powerLoss ∨ r = .error (.status .errIo)) ∧ Heap.Becomes h0 m'.st.heap g) := by
  refine Ends.onStop (R := fun r m' => ∃ y, InScope h0 g buf y m'.st ∧ m'.disk = m0.disk ∧ m'.st.trace = tr ∧
    (r = .ok (buf, size) ∧ y = c.take size ∧ size ≤ c.length ∨ r = .error .powerLoss ∨ r = .error (.status .errIo)))
    ?_ ?_ ?_
  · refine ends_closeIf_bind (fun h => by cases h) fun _ => Ends.bind (ends_readAll os hr hc hs) ?_ ?_
    swap
    · rintro e m1 ⟨y, hs1, hd1, ht1, ⟨hr1, -⟩ | hr1⟩
      · cases hr1
      · refine ⟨y, hs1, hd1, ht1, .inr ?_⟩
        rcases hr1 with hr1 | hr1 <;> cases hr1 <;> simp
    rintro _ m1 ⟨y, hs1, hd1, ht1, ⟨-, hy⟩ | hr1 | hr1⟩
    · refine Ends.bind (R := fun r m' => m'.st = m1.st ∧ m'.disk = m1.disk ∧ ∀ e, r = .error e → e = .powerLoss)
        (ends_syscall ⟨rfl, rfl, fun e he => (by cases he; rfl)⟩ fun _ _ => ⟨rfl, rfl, fun e he => by cases he⟩) ?_ ?_
      · rintro _ m2 ⟨hs2, hd2, -⟩
        exact ⟨y, hs2 ▸ hs1, hd2.trans hd1, hs2 ▸ ht1, .inl ⟨rfl, hy⟩⟩
      · rintro e m2 ⟨hs2, hd2, he⟩
        cases he e rfl
        exact ⟨y, hs2 ▸ hs1, hd2.trans hd1, hs2 ▸ ht1, .inr (.inl rfl)⟩
    · cases hr1
    · cases hr1
  · rintro a m1 ⟨y, hs1, hd1, ht1, ⟨hr1, rfl, hle⟩ | hr1 | hr1⟩
    · exact ⟨hd1, ht1, .inl ⟨hr1, hs1, hle⟩⟩
    · cases hr1
    · cases hr1
  · rintro e m1 ⟨y, hs1, hd1, ht1, ⟨hr1, -⟩ | hr1⟩
    · cases hr1
    refine (ends_destroy hs1).mono ?_
    rintro _ m2 ⟨rfl, hd2, ht2, hb2⟩
    refine ⟨fun e he => (by cases he), fun _ => ⟨hd2.trans hd1, ht2.trans ht1, .inr ⟨?_, hb2⟩⟩⟩
    rcases hr1 with hr1 | hr1 <;> cases hr1 <;> simp

/-- A stop before anything is read. -/
theorem ReadFailed.early {e : Stop} {m' : Machine} (hs : m'.st = m.st) (hd : m'.disk = m.disk)
    (hk : e = .powerLoss ∨ e ∈ [McStatus.errIo, .errTooLarge, .errMemory].map Stop.status) : ReadFailed m e m' where
  disk := hd
  memory := hs ▸ Heap.Becomes.refl _
  trace := ⟨[], by rw [hs, List.append_nil], by simp⟩
  kind := hk

/-- With a buffer, the bytes are read, or it is given back. -/
theorem ends_contents {buf : SecureBuffer} {size : ℕ} (hr : Reading m0 fd inode 0 (m0.st.trace ++ readEvents size) m)
    (hinode : (os.follow path).bind m0.disk.entry = some inode) (hsize : size ≤ maxSize.toNat ∧ size ≤ w.sizeT.max)
    (hs : InScope m0.st.heap m0.st.heap.get buf (zeros size) m.st) :
    Ends (onStop (do
        closeIf os fd (true = false) .errMemory
        readAll os fd buf.ptr size
        let _ ← sysClose os fd
        return (buf, size)) (onSt (destroy buf))) m fun r m' =>
      (∃ buf x, r = .ok (buf, x.length) ∧ FileRead w os path maxSize m0 buf x m') ∨
        ∃ e, r = .error e ∧ ReadFailed m0 e m' := by
  refine (ends_fillBuffer hr rfl hs).mono ?_
  rintro r m4 ⟨hd4, ht4, ⟨rfl, hs4, hle⟩ | ⟨hr4, hb4⟩⟩
  · have hlen : ((m0.contents inode).take size).length = size := List.length_take_of_le hle
    exact .inl ⟨buf, (m0.contents inode).take size, by rw [hlen], hd4, hs4, by rw [hlen]; exact hsize.1,
      by rw [hlen]; exact hsize.2, ⟨inode, hinode, List.take_prefix _ _⟩, by rw [hlen]; exact ht4⟩
  · have hist : ∀ e : Stop, ∃ hist, m4.st.trace = m0.st.trace ++ hist ∧ ∀ ev ∈ hist, ∃ n ok,
        ev = .alloc .fileContents n ok ∧ (ok = false → e = .status .errMemory ∨ e = .powerLoss) := by
      refine fun e => ⟨_, ht4, fun ev hev => ?_⟩
      unfold readEvents at hev
      split at hev
      · cases hev
      · exact ⟨size, true, List.mem_singleton.mp hev, fun h => by cases h⟩
    rcases hr4 with rfl | rfl
    · exact .inr ⟨_, rfl, hd4, hb4, hist _, .inl rfl⟩
    · exact .inr ⟨_, rfl, hd4, hb4, hist _, .inr (by simp)⟩

/-- Without memory for a buffer, the file is closed. -/
theorem ends_noBuffer {size : ℕ} (hd : m.disk = m0.disk) (hb : Heap.Becomes m0.st.heap m.st.heap m0.st.heap.get)
    (ht : m.st.trace = m0.st.trace ++ [.alloc .fileContents size false]) :
    Ends (onStop (do
        closeIf os fd (false = false) .errMemory
        readAll os fd ({} : SecureBuffer).ptr size
        let _ ← sysClose os fd
        return ({}, size)) (onSt (destroy {}))) m fun r m' =>
      (∃ buf x, r = .ok (buf, x.length) ∧ FileRead w os path maxSize m0 buf x m') ∨
        ∃ e, r = .error e ∧ ReadFailed m0 e m' := by
  refine Ends.onStop (R := fun r m' => ∃ e, r = .error e ∧ m'.st = m.st ∧ m'.disk = m.disk ∧
    (e = .powerLoss ∨ e = .status .errMemory)) ?_ ?_ ?_
  · exact ends_closeIf_bind (fun _ m' e hs hd he => ⟨e, rfl, hs, hd, he⟩) fun h => absurd rfl h
  · rintro a m4 ⟨e, hr, -⟩
    cases hr
  rintro e m4 ⟨_, hr, hs4, hd4, he⟩
  cases hr
  refine ends_onSt (Ends.of_eq (show destroy {} m4.st = (.ok (), m4.st) from rfl) ⟨fun e he => (by cases he),
    fun _ => .inr ⟨e, rfl, hd4.trans hd, ?_, ⟨[.alloc .fileContents size false], ?_, ?_⟩, ?_⟩⟩)
  · show Heap.Becomes _ m4.st.heap _
    rwa [hs4]
  · show m4.st.trace = _
    rw [hs4, ht]
  · intro ev hev
    exact ⟨size, false, List.mem_singleton.mp hev, fun _ => he.symm⟩
  · rcases he with rfl | rfl <;> simp

/-- A buffer for the contents is made, or there is no memory for it. -/
theorem reset_contents (size : ℕ) (hst : m.st = m0.st) (hb : Heap.Becomes m0.st.heap m.st.heap m0.st.heap.get) :
    (∃ buf s', reset w .fileContents {} size m.st = (.ok (true, buf), s') ∧
      s'.trace = m0.st.trace ++ readEvents size ∧ InScope m0.st.heap m0.st.heap.get buf (zeros size) s') ∨
    reset w .fileContents {} size m.st =
      (.ok (false, {}), ⟨m.st.heap, m.st.trace ++ [.alloc .fileContents size false]⟩) := by
  have hreset := reset_run w .fileContents size m.st
  by_cases hz : size = 0
  · subst hz
    rw [if_pos rfl] at hreset
    exact .inl ⟨_, _, hreset, by rw [hst]; simp [readEvents], inScope_empty hb⟩
  rw [if_neg hz] at hreset
  rcases ha : w.alloc m.st.trace.length size with _ | _ <;> rw [ha] at hreset
  · exact .inr hreset
  · refine .inl ⟨_, _, hreset, ?_, inScope_alloc hb hz _⟩
    rw [hst, readEvents, if_neg hz]

/-- From the size on: a buffer of that size is made, and filled. -/
theorem ends_readSize {size : ℕ} (hst : m.st = m0.st) (hd : m.disk = m0.disk) (hdesc : m.desc fd = some ⟨inode, 0, true⟩)
    (hinode : (os.follow path).bind m0.disk.entry = some inode) (hsize : size ≤ maxSize.toNat ∧ size ≤ w.sizeT.max) :
    Ends (onSt (reset w .fileContents {} size) >>= fun a => onStop (do
        closeIf os fd (a.1 = false) .errMemory
        readAll os fd a.2.ptr size
        let _ ← sysClose os fd
        return (a.2, size)) (onSt (destroy a.2))) m fun r m' =>
      (∃ buf x, r = .ok (buf, x.length) ∧ FileRead w os path maxSize m0 buf x m') ∨
        ∃ e, r = .error e ∧ ReadFailed m0 e m' := by
  have hbec : Heap.Becomes m0.st.heap m.st.heap m0.st.heap.get := hst ▸ Heap.Becomes.refl _
  obtain ⟨buf, s', hres, ht, hs⟩ | hres := reset_contents (w := w) size hst hbec
  · exact Ends.step ((onSt_run _ m).trans (by rw [hres]))
      (ends_contents (m := { m with st := s' }) ⟨hd, hdesc, ht⟩ hinode hsize hs)
  · exact Ends.step ((onSt_run _ m).trans (by rw [hres]))
      (ends_noBuffer (m := { m with st := ⟨m.st.heap, m.st.trace ++ [.alloc .fileContents size false]⟩ }) hd hbec
        (by rw [hst]))

/-- **ReadFile**, for every answer of every system call. -/
theorem readFile_ends (path : Path) (maxSize : UInt64) (m : Machine) : Ends (readFile os w path maxSize) m fun r m' =>
    (∃ buf x, r = .ok (buf, x.length) ∧ FileRead w os path maxSize m buf x m') ∨
      ∃ e, r = .error e ∧ ReadFailed m e m' := by
  have stop {s : McStatus} (hk : s ∈ [McStatus.errIo, .errTooLarge, .errMemory]) (m' : Machine) (e : Stop)
      (hs : m'.st = m.st) (hd : m'.disk = m.disk) (he : e = .powerLoss ∨ e = .status s) : ReadFailed m e m' := by
    rcases he with rfl | rfl
    · exact .early hs hd (.inl rfl)
    · exact .early hs hd (.inr (List.mem_map_of_mem hk))
  refine Ends.bind ends_sysOpen ?_ ?_
  swap
  · rintro e m1 ⟨hs, hd, hr | hr | ⟨_, _, hr, -⟩⟩ <;> cases hr
    exact .inr ⟨_, rfl, .early hs hd (.inl rfl)⟩
  rintro fd m1 ⟨hs1, hd1, hr | hr | ⟨fd, inode, hr, hinode, hdesc⟩⟩ <;> cases hr
  · exact .inr ⟨_, rfl, .early hs1 hd1 (.inr (by simp))⟩
  refine Ends.bind (R := fun r m' => m'.st = m.st ∧ m'.disk = m.disk ∧ m'.desc fd = some ⟨inode, 0, true⟩ ∧
    ∀ e, r = .error e → e = .powerLoss) (ends_syscall ⟨hs1, hd1, hdesc, fun e he => (by cases he; rfl)⟩
      fun t k => ⟨hs1, hd1, hdesc, fun e he => by cases he⟩) ?_ ?_
  swap
  · rintro e m2 ⟨hs2, hd2, -, he⟩
    exact .inr ⟨_, rfl, .early hs2 hd2 (.inl (he e rfl))⟩
  rintro (_ | st) m2 ⟨hs2, hd2, hdesc2, -⟩
  · show Ends (do let _ ← sysClose os fd; throw (.status .errIo)) m2 _
    refine (ends_close_throw .errIo).mono ?_
    rintro r m3 ⟨hs3, hd3, hr3⟩
    rcases hr3 with rfl | rfl
    · exact .inr ⟨_, rfl, .early (hs3.trans hs2) (hd3.trans hd2) (.inl rfl)⟩
    · exact .inr ⟨_, rfl, .early (hs3.trans hs2) (hd3.trans hd2) (.inr (by simp))⟩
  have close {s : McStatus} (hk : s ∈ [McStatus.errIo, .errTooLarge, .errMemory]) (m' : Machine) (e : Stop)
      (hs : m'.st = m2.st) (hd : m'.disk = m2.disk) (he : e = .powerLoss ∨ e = .status s) : ReadFailed m e m' :=
    stop hk m' e (hs.trans hs2) (hd.trans hd2) he
  refine ends_closeIf_bind (fun _ m' e hs hd he => .inr ⟨e, rfl, close (by simp) m' e hs hd he⟩) fun _ => ?_
  refine ends_closeIf_bind (fun _ m' e hs hd he => .inr ⟨e, rfl, close (by simp) m' e hs hd he⟩) fun _ => ?_
  refine ends_closeIf_bind (fun _ m' e hs hd he => .inr ⟨e, rfl, close (by simp) m' e hs hd he⟩) fun hsize => ?_
  rw [not_or, Nat.not_lt, Nat.not_lt] at hsize
  exact ends_readSize hs2 hd2 hdesc2 hinode hsize

end ReadFile

/-! ### The file that was read -/

/-- The first bytes of a file, as many as an `fstat` of it told. -/
def Reads (os : Os) (f : File) (x : Bytes) : Prop :=
  x <+: f.data ∧ ∃ t st, os.fstat t = some st ∧ st.regular = true ∧ st.size = x.length

/-- The size that `ReadFile` returns is one that `fstat` told of a regular file. -/
theorem readFile_told {path : Path} {maxSize : UInt64} {a : SecureBuffer × ℕ} {m' : Machine}
    (h : readFile os w path maxSize m = (.ok a, m')) : ∃ t st, os.fstat t = some st ∧ st.regular = true ∧
      st.size = a.2 := by
  have guard {fd : ℕ} {c : Prop} [Decidable c] {s : McStatus} {m m' : Machine} {u : Unit}
      (h : closeIf os fd c s m = (.ok u, m')) : ¬ c := by
    unfold closeIf at h
    split at h
    · obtain ⟨_, _, -, h⟩ := bind_eq_ok.mp h
      cases h
    · assumption
  unfold readFile at h
  obtain ⟨_ | fd, m1, -, h⟩ := bind_eq_ok.mp h
  · cases h
  obtain ⟨_ | st, m2, hstat, h⟩ := bind_eq_ok.mp h
  · obtain ⟨_, _, -, h⟩ := bind_eq_ok.mp h
    cases h
  have htold : os.fstat m1.time = some st := by
    unfold sysFstat syscall at hstat
    split at hstat
    · cases hstat
    · obtain ⟨hr, -⟩ := Prod.mk.inj hstat
      exact (Option.bind_eq_some_iff.mp (Except.ok.inj hr)).elim fun _ h => h.2
  obtain ⟨_, _, hregular, h⟩ := bind_eq_ok.mp h
  obtain ⟨_, _, hsize, h⟩ := bind_eq_ok.mp h
  obtain ⟨_, _, -, h⟩ := bind_eq_ok.mp h
  obtain ⟨_, _, -, h⟩ := bind_eq_ok.mp h
  have hbody := onStop_eq_ok h
  obtain ⟨_, _, -, h⟩ := bind_eq_ok.mp hbody
  obtain ⟨_, _, -, h⟩ := bind_eq_ok.mp h
  obtain ⟨_, _, -, h⟩ := bind_eq_ok.mp h
  cases h
  refine ⟨_, st, htold, by simpa using guard hregular, ?_⟩
  exact (Int.toNat_of_nonneg (Int.not_lt.mp (guard hsize))).symm

theorem Machine.look_of_entry {path : Path} {inode : ℕ} (h : (os.follow path).bind m.disk.entry = some inode) :
    ∃ f, (os.follow path).bind (fun n => m.disk.look n) = some f ∧ f.data = m.contents inode := by
  obtain ⟨n, hn, hentry⟩ := Option.bind_eq_some_iff.mp h
  obtain ⟨k, hk⟩ := Disk.inode_of_entry hentry
  have hlook : m.disk.look n = some k.now := Disk.look_of_inode hentry hk
  refine ⟨k.now, by rw [hn]; exact hlook, ?_⟩
  rw [Machine.contents, hk]
  rfl

/-- What `ReadFile` returns is what a file held that was there. -/
theorem FileRead.reads {path : Path} {maxSize : UInt64} {buf : SecureBuffer} {x : Bytes} {m' : Machine}
    (h : FileRead w os path maxSize m buf x m') (hrun : readFile os w path maxSize m = (.ok (buf, x.length), m')) :
    ∃ f, (os.follow path).bind (fun n => m.disk.look n) = some f ∧ Reads os f x := by
  obtain ⟨inode, hentry, hpre⟩ := h.start
  obtain ⟨f, hf, hdata⟩ := Machine.look_of_entry hentry
  exact ⟨f, hf, hdata ▸ hpre, readFile_told hrun⟩

end ModelCrypt
