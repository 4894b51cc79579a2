/-
# File calls that return

`Steps p m c r m'`: from `m` the program makes `c` system calls and ends with `r`
at `m'`, however many more calls the machine could complete. A transfer loop
that is interrupted or gets nowhere only for a while returns: the bytes left
decrease with each transfer, and between two transfers the time to the next one
does.

Key definitions: `Steps`, `Readable`, `Writable`.
Key theorems: `transferLoop_steps`, `readFile_steps`, `writeFileAtomically_steps`.
-/
import ModelCrypt.Atomic

namespace ModelCrypt

open Lib Prog Fileio

/-- From `m` the program makes `c` system calls and ends with `r` at `m'`. -/
def Steps {α : Type} (p : Sys α) (m : Machine) (c : ℕ) (r : Except Stop α) (m' : Machine) : Prop :=
  ∀ k, p { m with left := c + k } = (r, { m' with left := k })

section Rules

variable {α β : Type} {p : Sys α} {f : α → Sys β} {m m1 m2 : Machine} {c c1 c2 : ℕ} {a : α}

theorem Steps.of_eq {r : Except Stop α} {m' : Machine} (h : ∀ k, p { m with left := k } = (r, { m' with left := k })) :
    Steps p m 0 r m' := fun k => by rw [Nat.zero_add, h]

theorem Steps.bind {r : Except Stop β} (hp : Steps p m c1 (.ok a) m1) (hf : Steps (f a) m1 c2 r m2) :
    Steps (p >>= f) m (c1 + c2) r m2 := by
  intro k
  rw [Nat.add_assoc, bind_ok (hp (c2 + k)), hf k]

theorem Steps.bind_error {e : Stop} (hp : Steps p m c (.error e) m1) : Steps (p >>= f) m c (.error e) m1 := by
  intro k
  rw [Prog.bind_error (hp k)]

/-- After a program that makes no system call and changes nothing. -/
theorem Steps.after {r : Except Stop β} (hp : ∀ m, p m = (.ok a, m)) (hf : Steps (f a) m c r m2) :
    Steps (p >>= f) m c r m2 := by
  intro k
  rw [bind_ok (hp _), hf k]

theorem Steps.throwIf {c' : Prop} [Decidable c'] {e : Stop} {g : Unit → Sys β} {r : Except Stop β} (h : ¬ c')
    (hg : Steps (g ()) m c r m2) : Steps (throwIf c' e >>= g) m c r m2 := by rwa [throwIf_neg h]

theorem Steps.onSt (q : Run α) (m : Machine) : Steps (onSt q) m 0 (q m.st).1 { m with st := (q m.st).2 } :=
  Steps.of_eq fun k => by rw [onSt_run]

/-- A system call is one call, if what it does does not depend on how many are left. -/
theorem Steps.syscall {f : ℕ → Machine → α × Machine}
    (hf : ∀ t m k, f t { m with left := k } = ((f t m).1, { (f t m).2 with left := k })) (m : Machine) :
    Steps (syscall f) m 1 (.ok (f m.time m).1) { (f m.time m).2 with time := m.time + 1 } := by
  intro k
  unfold ModelCrypt.syscall
  rw [Nat.add_comm 1 k]
  dsimp only
  rw [hf]

/-- What every run from `m` ends in, this one does. -/
theorem Steps.ends {r : Except Stop α} {m' : Machine} {Q : Except Stop α → Machine → Prop} (hp : Steps p m c r m')
    (h : ∀ k, Ends p { m with left := k } Q) : Q r { m' with left := 0 } := by
  have := h (c + 0)
  unfold Ends at this
  rwa [hp 0] at this

theorem Steps.always {fin : Sys Unit} {r : Except Stop α} (hp : Steps p m c1 r m1) (hf : Steps fin m1 c2 (.ok ()) m2) :
    Steps (always p fin) m (c1 + c2) r m2 := by
  intro k
  unfold Prog.always
  rw [Nat.add_assoc, hp (c2 + k)]
  dsimp only
  rw [hf k]

theorem Steps.onStop {fin : Sys Unit} (hp : Steps p m c (.ok a) m1) : Steps (onStop p fin) m c (.ok a) m1 := by
  intro k
  unfold Prog.onStop
  rw [hp k]

end Rules

/-! ### The transfer loops -/

section Loop

variable {call : ℕ → Sys Transfer} {stopAtZero : Bool} {size : ℕ} {I : ℕ → Machine → Prop}

/-- The loop ends well from here, whatever the number of calls left. -/
def Loops (call : ℕ → Sys Transfer) (stopAtZero : Bool) (size : ℕ) (I : ℕ → Machine → Prop) (done : ℕ)
    (m : Machine) : Prop :=
  ∃ c m', I size m' ∧ ∀ fuel k, c < fuel →
    transferLoop call stopAtZero size fuel done { m with left := c + k } = (.ok true, { m' with left := k })

/-- One round before a loop that ends well. -/
theorem Loops.round {done n : ℕ} {m m1 : Machine} (hlt : done < size)
    (hrun : Steps (call done) m 1 (.ok (.count n)) m1 ∧ (stopAtZero = true → 0 < n) ∨ n = 0 ∧
      Steps (call done) m 1 (.ok .eintr) m1)
    (h : Loops call stopAtZero size I (done + n) m1) : Loops call stopAtZero size I done m := by
  obtain ⟨c, m', hi, hl⟩ := h
  refine ⟨1 + c, m', hi, fun fuel k hf => ?_⟩
  obtain ⟨fuel, rfl⟩ : ∃ j, fuel = j + 1 := ⟨fuel - 1, by omega⟩
  rw [transferLoop, if_pos hlt, Nat.add_assoc]
  rcases hrun with ⟨hs, hz⟩ | ⟨rfl, hs⟩
  · rw [bind_ok (hs (c + k))]
    show (if stopAtZero = true ∧ n = 0 then _ else _ : Sys Bool) _ = _
    rw [if_neg fun h0 => absurd h0.2 (Nat.pos_iff_ne_zero.mp (hz h0.1))]
    exact hl fuel k (by omega)
  · rw [bind_ok (hs (c + k))]
    exact hl fuel k (by omega)

/-- **A transfer loop returns**, if each call transfers something or leaves the loop where it is, and
calls at times in `moves`, of which there is always one to come, do transfer something. By
induction on the bytes left, and for each on the time until the next transfer. -/
theorem transferLoop_steps (moves : ℕ → Prop) (later : ∀ t, ∃ t', t ≤ t' ∧ moves t')
    (step : ∀ done m, done < size → I done m → ∃ n m', m'.time = m.time + 1 ∧ I (done + n) m' ∧ done + n ≤ size ∧
      (moves m.time → 0 < n) ∧ (Steps (call done) m 1 (.ok (.count n)) m' ∧ (stopAtZero = true → 0 < n) ∨
        n = 0 ∧ Steps (call done) m 1 (.ok .eintr) m')) :
    ∀ d done m, size - done = d → done ≤ size → I done m → Loops call stopAtZero size I done m := by
  intro d
  induction d using Nat.strong_induction_on with
  | _ d ih =>
    intro done m hd hle hi
    by_cases hlt : done < size
    swap
    · have : done = size := by omega
      subst this
      refine ⟨0, m, hi, fun fuel k hf => ?_⟩
      obtain ⟨fuel, rfl⟩ : ∃ n, fuel = n + 1 := ⟨fuel - 1, by omega⟩
      rw [Nat.zero_add, transferLoop, if_neg hlt]
      rfl
    obtain ⟨t', ht', hm⟩ := later m.time
    obtain ⟨wait, rfl⟩ := Nat.exists_eq_add_of_le ht'
    clear ht'
    induction wait generalizing m with
    | zero =>
      obtain ⟨n, m1, -, hi1, hle1, hpos, hrun⟩ := step done m hlt hi
      have hn := hpos hm
      exact Loops.round hlt hrun (ih (size - (done + n)) (by omega) _ m1 rfl hle1 hi1)
    | succ wait ihw =>
      obtain ⟨n, m1, htime, hi1, hle1, -, hrun⟩ := step done m hlt hi
      refine Loops.round hlt hrun ?_
      by_cases h0 : n = 0
      · subst h0
        exact ihw m1 hi1 (by rw [htime, Nat.add_assoc, Nat.add_comm 1 wait]; exact hm)
      · exact ih (size - (done + n)) (by omega) _ m1 rfl hle1 hi1

theorem transferFully_steps {m : Machine} (h : Loops call stopAtZero size I 0 m) :
    ∃ c m', I size m' ∧ Steps (transferFully call stopAtZero size) m c (.ok true) m' := by
  obtain ⟨c, m', hi, hl⟩ := h
  exact ⟨c, m', hi, fun k => hl (c + k + 1) k (by omega)⟩

end Loop

/-! ### Reading -/

variable {os : Os} {w : World} {m m0 : Machine}

/-- A regular file at the path, that holds `f` and can be opened and read in full: no read fails
or finds an early end, and none is interrupted forever. -/
structure Readable (os : Os) (m : Machine) (path : Path) (f : Bytes) : Prop where
  file : ∃ inode, (os.follow path).bind m.disk.entry = some inode ∧ m.contents inode = f
  openOk : ∀ t, os.openOk t = true
  fstat : ∀ t, os.fstat t = some ⟨true, f.length⟩
  read : ∀ t, os.read t ≠ .error ∧ os.read t ≠ .count 0
  goesOn : ∀ t, ∃ t', t ≤ t' ∧ os.read t' ≠ .eintr

theorem store_error {p : Ptr} {d : Bytes} {s s' : St} {e : Stop} (h : store p d s = (.error e, s')) :
    e ≠ .powerLoss := by
  unfold store at h
  split at h <;> cases h
  simp

theorem readTransfer_left (os : Os) (fd n t : ℕ) (m : Machine) (k : ℕ) : readTransfer os fd n t { m with left := k } =
    ((readTransfer os fd n t m).1, { (readTransfer os fd n t m).2 with left := k }) := by
  have hd : ({ m with left := k } : Machine).desc fd = m.desc fd := rfl
  unfold readTransfer
  rw [hd]
  rcases m.desc fd with _ | e
  · rfl
  · cases os.read t <;> rfl

/-- A read is one call; it is interrupted, or it reads something if there is something to read. -/
theorem sysRead_steps {h0 : Heap} {g : ℕ → Option Bytes} {buf : SecureBuffer} {fd inode done size : ℕ} {tr : List Event}
    {c : Bytes} (hos : ∀ t, os.read t ≠ .error ∧ os.read t ≠ .count 0) (hr : Reading m0 fd inode done tr m)
    (hc : m0.contents inode = c) (hlt : done < size) (hd : size ≤ c.length)
    (hs : InScope h0 g buf (c.take done ++ zeros (size - done)) m.st) :
    ∃ n m', m'.time = m.time + 1 ∧ (Reading m0 fd inode (done + n) tr m' ∧
        InScope h0 g buf (c.take (done + n) ++ zeros (size - (done + n))) m'.st) ∧ done + n ≤ size ∧
      (os.read m.time ≠ .eintr → 0 < n) ∧
      (Steps (sysRead os fd (buf.ptr.add done) (size - done)) m 1 (.ok (.count n)) m' ∧ (true = true → 0 < n) ∨
        n = 0 ∧ Steps (sysRead os fd (buf.ptr.add done) (size - done)) m 1 (.ok .eintr) m') := by
  have hcont : m.contents inode = c := by rw [← hc, Machine.contents, hr.disk, Machine.contents]
  have hends (k : ℕ) : Ends (sysRead os fd (buf.ptr.add done) (size - done)) { m with left := k } _ :=
    ends_sysRead os ⟨hr.disk, hr.desc, hr.trace⟩ hc (by omega) (le_of_lt hlt) hs
  have hcall := Steps.syscall (readTransfer_left os fd (size - done)) m
  generalize hcr : readTransfer os fd (size - done) m.time m = res at hcall
  obtain ⟨⟨r, x⟩, m1⟩ := res
  have hread : os.read m.time = .eintr ∧ r = .eintr ∨ os.read m.time ≠ .eintr ∧ ∃ n, 0 < n ∧ r = .count n := by
    rw [readTransfer, hr.desc] at hcr
    rcases hot : os.read m.time with k | _ | _ <;> rw [hot] at hcr <;> cases hcr
    · have hk : k ≠ 0 := fun h => (hos m.time).2 (by rw [hot, h])
      refine .inr ⟨by simp, _, ?_, rfl⟩
      rw [slice_length, hcont]
      show 0 < min (min k (size - done)) (c.length - done)
      omega
    · exact .inl ⟨rfl, rfl⟩
    · exact absurd hot (hos m.time).1
  have hstore := Steps.onSt (store (buf.ptr.add done) x) { m1 with time := m.time + 1 }
  rcases hst : store (buf.ptr.add done) x m1.st with ⟨e | _, s2⟩ <;> rw [hst] at hstore
  · -- a fault, which the rule for reads excludes
    have hstop : Steps (sysRead os fd (buf.ptr.add done) (size - done)) m (1 + 0) (.error e) _ :=
      hcall.bind hstore.bind_error
    rcases hstop.ends hends with ⟨-, -, he | he | he⟩ | ⟨n, he, -⟩ <;> cases he
    exact absurd rfl (store_error hst)
  · have hrun : Steps (sysRead os fd (buf.ptr.add done) (size - done)) m (1 + (0 + 0)) (.ok r)
        { m1 with time := m.time + 1, st := s2, left := 0 } :=
      hcall.bind (hstore.bind (Steps.of_eq fun _ => rfl))
    rcases hrun.ends hends with ⟨hr2, hs2, he | he | he⟩ | ⟨n, he, hr2, -, hle2, hs2⟩
    · cases he
    · cases he
      refine ⟨0, _, rfl, ⟨hr2, hs2⟩, le_of_lt hlt, fun hne => ?_, .inr ⟨rfl, hrun⟩⟩
      rcases hread with ⟨h, -⟩ | ⟨-, n, -, h⟩
      · exact absurd h hne
      · cases h
    · cases he
      rcases hread with ⟨-, h⟩ | ⟨-, n, -, h⟩ <;> cases h
    · cases he
      rcases hread with ⟨-, h⟩ | ⟨-, n', hpos, h⟩ <;> cases h
      exact ⟨n, _, rfl, ⟨hr2, hs2⟩, hle2, fun _ => hpos, .inl ⟨hrun, fun _ => hpos⟩⟩

theorem closeIf_steps {fd : ℕ} {c : Prop} [Decidable c] {s : McStatus} (h : ¬ c) (m : Machine) :
    closeIf os fd c s m = (.ok (), m) := by rw [closeIf, if_neg h]; rfl

theorem sysClose_steps (os : Os) (fd : ℕ) (m : Machine) :
    Steps (sysClose os fd) m 1 (.ok (os.closeOk m.time)) { m.shut fd with time := m.time + 1 } :=
  Steps.syscall (fun _ _ _ => rfl) m

theorem sysOpen_steps {path : Path} {inode : ℕ} (h : (os.follow path).bind m.disk.entry = some inode)
    (hok : ∀ t, os.openOk t = true) :
    Steps (sysOpen os path) m 1 (.ok (some m.fds.length)) { m.push inode with time := m.time + 1 } := by
  intro k
  rw [sysOpen, syscall, Nat.add_comm 1 k]
  simp only [h, hok, if_true]
  rfl

theorem sysFstat_steps {fd : ℕ} {e : Descriptor} {st : Stat} (hd : m.desc fd = some e) (h : ∀ t, os.fstat t = some st) :
    Steps (sysFstat os fd) m 1 (.ok (some st)) { m with time := m.time + 1 } := by
  intro k
  rw [sysFstat, syscall, Nat.add_comm 1 k]
  have hd' : ({ m with left := k + 1 } : Machine).desc fd = some e := hd
  simp only [hd', h, Option.bind_some]

theorem readAll_steps {h0 : Heap} {g : ℕ → Option Bytes} {buf : SecureBuffer} {fd inode size : ℕ} {tr : List Event}
    {c : Bytes} (hos : ∀ t, os.read t ≠ .error ∧ os.read t ≠ .count 0) (hgo : ∀ t, ∃ t', t ≤ t' ∧ os.read t' ≠ .eintr)
    (hr : Reading m0 fd inode 0 tr m) (hc : m0.contents inode = c) (hd : size ≤ c.length)
    (hs : InScope h0 g buf (zeros size) m.st) : ∃ n m', Steps (readAll os fd buf.ptr size) m n (.ok ()) m' := by
  unfold readAll
  split
  · have hloop : Loops (fun done => sysRead os fd (buf.ptr.add done) (size - done)) true size (fun done m =>
        Reading m0 fd inode done tr m ∧ InScope h0 g buf (c.take done ++ zeros (size - done)) m.st) 0 m :=
      transferLoop_steps (fun t => os.read t ≠ .eintr) hgo (fun done m hlt hi =>
        sysRead_steps hos hi.1 hc hlt hd hi.2) size 0 m rfl (Nat.zero_le _) ⟨hr, hs⟩
    obtain ⟨n, m', -, hrun⟩ := transferFully_steps hloop
    exact ⟨_, _, Steps.bind hrun (Steps.of_eq fun k => closeIf_steps (by simp) _)⟩
  · exact ⟨0, m, Steps.of_eq fun _ => rfl⟩

/-- **ReadFile returns the whole file**, if it can be read in full and there is memory for it. -/
theorem readFile_steps {path : Path} {f : Bytes} {maxSize : UInt64} (h : Readable os m path f)
    (hmax : f.length ≤ maxSize.toNat) (hsize : f.length ≤ w.sizeT.max)
    (hmem : f ≠ [] → w.alloc m.st.trace.length f.length = true) : ∃ c buf m',
      Steps (readFile os w path maxSize) m c (.ok (buf, f.length)) m' ∧ FileRead w os path maxSize m buf f m' := by
  obtain ⟨inode, hinode, hfile⟩ := h.file
  suffices hrun : ∃ c buf m', Steps (readFile os w path maxSize) m c (.ok (buf, f.length)) m' by
    obtain ⟨c, buf, m', hs⟩ := hrun
    have hend (k : ℕ) : Ends (readFile os w path maxSize) { m with left := k } fun r m' =>
        (∃ (buf : SecureBuffer) (x : Bytes), r = .ok (buf, x.length) ∧ FileRead w os path maxSize m buf x m') ∨
          ∃ e, r = .error e := by
      refine (readFile_ends path maxSize { m with left := k }).mono ?_
      rintro r m2 (⟨b, x, hr, h2⟩ | ⟨e, hr, -⟩)
      · exact .inl ⟨b, x, hr, h2.disk, h2.scope, h2.le_max, h2.le_size, h2.start, h2.trace⟩
      · exact .inr ⟨e, hr⟩
    rcases hs.ends hend with ⟨b, x, hr, h1⟩ | ⟨e, hr⟩
    swap
    · cases hr
    obtain ⟨rfl, hlen⟩ := Prod.mk.inj (Except.ok.inj hr)
    obtain ⟨i, hi, hpre⟩ := h1.start
    rw [hinode] at hi
    cases hi
    rw [hfile] at hpre
    obtain rfl := hpre.eq_of_length hlen.symm
    exact ⟨c, buf, { m' with left := 0 }, fun k => hs k, h1⟩
  have hopen := sysOpen_steps hinode h.openOk
  generalize hm1 : ({ m.push inode with time := m.time + 1 } : Machine) = m1 at hopen
  have hd1 : m1.desc m.fds.length = some ⟨inode, 0, true⟩ := hm1 ▸ Machine.desc_push m inode
  have hst1 : m1.st = m.st := hm1 ▸ rfl
  have hdisk1 : m1.disk = m.disk := hm1 ▸ rfl
  have hstat := sysFstat_steps hd1 h.fstat
  generalize hm2 : ({ m1 with time := m1.time + 1 } : Machine) = m2 at hstat
  have hd2 : m2.desc m.fds.length = some ⟨inode, 0, true⟩ := hm2 ▸ hd1
  have hst2 : m2.st = m.st := hm2 ▸ hst1
  have hdisk2 : m2.disk = m.disk := hm2 ▸ hdisk1
  have hnat : (f.length : ℤ).toNat = f.length := Int.toNat_natCast _
  have hreset := reset_run w .fileContents f.length m2.st
  have hbec : Heap.Becomes m.st.heap m2.st.heap m.st.heap.get := hst2 ▸ Heap.Becomes.refl _
  -- with a buffer, the rest is the loop and a `close`
  have fill {buf : SecureBuffer} {s' : St} (hres : reset w .fileContents {} f.length m2.st = (.ok (true, buf), s'))
      (hs : InScope m.st.heap m.st.heap.get buf (zeros f.length) s') :
      ∃ c buf m', Steps (onSt (reset w .fileContents {} f.length) >>= fun a => onStop (do
        closeIf os m.fds.length (a.1 = false) .errMemory
        readAll os m.fds.length a.2.ptr f.length
        let _ ← sysClose os m.fds.length
        return (a.2, f.length)) (onSt (destroy a.2))) m2 c (.ok (buf, f.length)) m' := by
    have h3 : Reading m m.fds.length inode 0 s'.trace { m2 with st := s' } := ⟨hdisk2, hd2, rfl⟩
    obtain ⟨n, m4, hread⟩ := readAll_steps h.read h.goesOn h3 hfile (le_refl _) hs
    have hres' : Steps (onSt (reset w .fileContents {} f.length)) m2 0 (.ok (true, buf)) { m2 with st := s' } := by
      have := Steps.onSt (reset w .fileContents {} f.length) m2
      rwa [hres] at this
    have hbody : Steps (do
        closeIf os m.fds.length (true = false) .errMemory
        readAll os m.fds.length buf.ptr f.length
        let _ ← sysClose os m.fds.length
        return (buf, f.length)) { m2 with st := s' } (n + (1 + 0)) (.ok (buf, f.length))
          { m4.shut m.fds.length with time := m4.time + 1 } := by
      refine Steps.after (closeIf_steps (by simp)) (hread.bind ((sysClose_steps os m.fds.length m4).bind ?_))
      exact Steps.of_eq fun _ => rfl
    exact ⟨_, buf, _, hres'.bind hbody.onStop⟩
  have hrest : ∃ c buf m', Steps (onSt (reset w .fileContents {} f.length) >>= fun a => onStop (do
        closeIf os m.fds.length (a.1 = false) .errMemory
        readAll os m.fds.length a.2.ptr f.length
        let _ ← sysClose os m.fds.length
        return (a.2, f.length)) (onSt (destroy a.2))) m2 c (.ok (buf, f.length)) m' := by
    by_cases hz : f.length = 0
    · rw [if_pos hz] at hreset
      exact fill hreset (by rw [hz]; exact inScope_empty hbec)
    · have ha : w.alloc m2.st.trace.length f.length = true := hst2 ▸ hmem fun e => hz (by rw [e]; rfl)
      rw [if_neg hz, ha, if_pos rfl] at hreset
      exact fill hreset (inScope_alloc hbec hz _)
  obtain ⟨c, buf, m', hrest⟩ := hrest
  refine ⟨1 + (1 + c), buf, m', hopen.bind (hstat.bind ?_)⟩
  refine Steps.after (closeIf_steps (by simp)) (Steps.after (closeIf_steps (by simp)) ?_)
  dsimp only
  rw [hnat]
  exact Steps.after (closeIf_steps (by omega)) hrest

/-! ### Writing -/

/-- The path can be written: there is memory for the strings, the temporary name is absent, no call fails, and the
writes get on. -/
structure Writable (os : Os) (d : Disk Path) (path : Path) : Prop where
  strings : ∀ t, Strings os t path
  target : ∃ o, os.resolve path = some o
  mkstemp : ∀ t, ∃ sfx n, os.mkstemp t = some sfx ∧ os.resolve (withSuffix (templateFor path) sfx) = some n ∧
    d.entry n = none
  fchmodOk : ∀ t, os.fchmodOk t = true
  write : ∀ t, os.write t ≠ .error
  goesOn : ∀ t, ∃ t', t ≤ t' ∧ ∃ n, os.write t' = .count (n + 1)
  fsyncOk : ∀ t, os.fsyncOk t = true
  closeOk : ∀ t, os.closeOk t = true
  renameOk : ∀ t, os.renameOk t = true

/-- A descriptor is open, and the memory of the process is `s`. -/
def Writing (s : St) (fd : ℕ) (m : Machine) : Prop := m.st = s ∧ ∃ e, m.desc fd = some e

section Write

variable {s : St} {fd : ℕ} {p : Ptr} {x : Bytes} {path : Path}

/-- A write is one call; it is interrupted, or it takes some of the bytes. -/
theorem sysWrite_steps {done : ℕ} (hos : ∀ t, os.write t ≠ .error) (hw : Writing s fd m) (hp : Supplies s p x)
    (hlt : done < x.length) : ∃ n m', m'.time = m.time + 1 ∧ Writing s fd m' ∧ done + n ≤ x.length ∧
      ((∃ k, os.write m.time = .count (k + 1)) → 0 < n) ∧
      (Steps (sysWrite os fd (p.add done) (x.length - done)) m 1 (.ok (.count n)) m' ∧ (false = true → 0 < n) ∨
        n = 0 ∧ Steps (sysWrite os fd (p.add done) (x.length - done)) m 1 (.ok .eintr) m') := by
  obtain ⟨rfl, e, hd⟩ := hw
  have hone (t : Transfer) (m1 : Machine) (h : ∀ k, writeTransfer os fd (slice x done (x.length - done)) m.time
      { m with left := k } = (t, { m1 with left := k })) :
      Steps (sysWrite os fd (p.add done) (x.length - done)) m 1 (.ok t) { m1 with time := m.time + 1 } := by
    intro k
    have hrun : onSt (load (p.add done) (x.length - done)) { m with left := 1 + k } =
        (.ok (slice x done (x.length - done)), { m with left := 1 + k }) := by
      rw [onSt_run]
      show ((load _ _ m.st).1, ({ m with st := (load _ _ m.st).2, left := 1 + k } : Machine)) = _
      rw [hp done _ (by omega)]
    rw [sysWrite, bind_ok hrun, syscall, Nat.add_comm 1 k]
    dsimp only
    rw [h]
  have hd' (k : ℕ) : ({ m with left := k } : Machine).desc fd = some e := hd
  rcases hw : os.write m.time with c | _ | _
  · refine ⟨min c (x.length - done), _, rfl, ⟨?_, ?_⟩, by omega, ?_, .inl ⟨hone _ ((m.touch e.inode (·.write e.pos
      ((slice x done (x.length - done)).take c))).seek fd (min c (x.length - done))) fun k => ?_, fun h => by cases h⟩⟩
    · rfl
    · exact ⟨_, Machine.desc_seek (m := m.touch e.inode _) hd _⟩
    · rintro ⟨k, hk⟩
      cases hk
      omega
    · rw [writeTransfer, hd', hw]
      dsimp only
      rw [slice_length_of_le (by omega)]
      rfl
  · refine ⟨0, { m with time := m.time + 1 }, rfl, ⟨rfl, e, hd⟩, by omega, ?_, .inr ⟨rfl, hone _ m fun k => ?_⟩⟩
    · rintro ⟨k, hk⟩
      cases hk
    · rw [writeTransfer, hd', hw]
  · exact absurd hw (hos m.time)

theorem discardIf_steps {path : Path} {c : Prop} [Decidable c] (h : ¬ c) (m : Machine) :
    discardIf os fd path c m = (.ok (), m) := by rw [discardIf, if_neg h]; rfl

theorem unlinkIf_steps {path : Path} {c : Prop} [Decidable c] (h : ¬ c) (m : Machine) :
    unlinkIf os path c m = (.ok (), m) := by rw [unlinkIf, if_neg h]; rfl

theorem writeAll_steps {d : Disk Path} (h : Writable os d path) (mp : Path) (hw : Writing s fd m)
    (hp : Supplies s p x) :
    ∃ c m', Writing s fd m' ∧ Steps (writeAll os fd mp p x.length) m c (.ok ()) m' := by
  unfold writeAll
  split
  · have hloop : Loops (fun done => sysWrite os fd (p.add done) (x.length - done)) false x.length
        (fun _ => Writing s fd) 0 m :=
      transferLoop_steps (fun t => ∃ k, os.write t = .count (k + 1)) h.goesOn (fun done m hlt hi =>
        sysWrite_steps h.write hi hp hlt) x.length 0 m rfl (Nat.zero_le _) hw
    obtain ⟨c, m', hw', hrun⟩ := transferFully_steps hloop
    exact ⟨_, m', hw', hrun.bind (Steps.of_eq fun k => discardIf_steps (by simp) _)⟩
  · exact ⟨0, m, hw, Steps.of_eq fun _ => rfl⟩

theorem sysMkstemp_steps (h : Writable os m.disk path) : ∃ fd mp m', (∃ n, os.resolve mp = some n) ∧
    Writing m.st fd m' ∧
    Steps (sysMkstemp os (templateFor path)) m 1 (.ok (some (fd, mp))) m' := by
  obtain ⟨sfx, n, hs, hn, ha⟩ := h.mkstemp m.time
  refine ⟨m.fds.length, _, { ({ m with disk := m.disk.draft n (.create (0o600 &&& ~~~os.umask)) }.push
    m.disk.inodes.length) with time := m.time + 1 }, ⟨n, hn⟩, ⟨rfl, _, Machine.desc_push _ _⟩, fun k => ?_⟩
  rw [sysMkstemp, syscall, Nat.add_comm 1 k]
  simp only [hs, hn, ha, if_true]
  rfl

theorem sysFchmod_steps (mode : UInt32) (hok : ∀ t, os.fchmodOk t = true) (hw : Writing s fd m) :
    ∃ m', Writing s fd m' ∧ Steps (sysFchmod os fd mode) m 1 (.ok true) m' := by
  obtain ⟨hs, e, hd⟩ := hw
  refine ⟨{ m.touch e.inode (·.chmod mode) with time := m.time + 1 }, ⟨hs, e, hd⟩, fun k => ?_⟩
  have hd' (k : ℕ) : ({ m with left := k } : Machine).desc fd = some e := hd
  rw [sysFchmod, syscall, Nat.add_comm 1 k]
  simp only [hd', hok, if_true]
  rfl

theorem sysFsync_steps (hok : ∀ t, os.fsyncOk t = true) (hw : Writing s fd m) :
    ∃ m', Writing s fd m' ∧ Steps (sysFsync os fd) m 1 (.ok true) m' := by
  obtain ⟨hs, e, hd⟩ := hw
  refine ⟨{ m.touch e.inode .sync with time := m.time + 1 }, ⟨hs, e, hd⟩, fun k => ?_⟩
  have hd' (k : ℕ) : ({ m with left := k } : Machine).desc fd = some e := hd
  rw [sysFsync, syscall, Nat.add_comm 1 k]
  simp only [hd', hok, if_true]
  rfl

theorem sysRename_steps {source target a b : Path} (ha : os.resolve source = some a) (hb : os.resolve target = some b)
    (hok : ∀ t, os.renameOk t = true) : ∃ m', Steps (sysRename os source target) m 1 (.ok true) m' := by
  refine ⟨{ m with disk := m.disk.rename a b, time := m.time + 1 }, fun k => ?_⟩
  rw [sysRename, syscall, Nat.add_comm 1 k]
  simp only [ha, hb, hok, if_true]

/-- **WriteFileAtomically returns**, if the path can be written. -/
theorem writeFileAtomically_steps (mode : UInt32) (h : Writable os m.disk path) (hp : Supplies m.st p x)
    (hnull : x ≠ [] → p ≠ .null) : ∃ c m', Steps (writeFileAtomically os path p x.length mode) m c (.ok ()) m' := by
  have hdata : ¬ (x.length > 0 ∧ p = .null) := fun hc => hnull (List.length_pos_iff.mp hc.1) hc.2
  obtain ⟨fd, mp, m1, ⟨n, hn⟩, hw1, h1⟩ := sysMkstemp_steps h
  obtain ⟨o, ho⟩ := h.target
  obtain ⟨m2, hw2, h2⟩ := sysFchmod_steps mode h.fchmodOk hw1
  obtain ⟨c, m3, hw3, h3⟩ := writeAll_steps h mp hw2 hp
  obtain ⟨m4, -, h4⟩ := sysFsync_steps h.fsyncOk hw3
  have h5 := sysClose_steps os fd m4
  rw [h.closeOk] at h5
  obtain ⟨m6, h6⟩ := sysRename_steps (m := { m4.shut fd with time := m4.time + 1 }) hn ho h.renameOk
  refine ⟨1 + (1 + (c + (1 + (1 + (1 + 0))))), m6, Steps.throwIf hdata ?_⟩
  refine Steps.after (fun _ => temporaryFor_ok (h.strings _)) (h1.bind (h2.bind ?_))
  refine Steps.after (discardIf_steps (by simp)) (h3.bind (h4.bind ?_))
  refine Steps.after (discardIf_steps (by simp)) (h5.bind ?_)
  refine Steps.after (unlinkIf_steps (by simp)) (h6.bind ?_)
  exact Steps.of_eq fun k => unlinkIf_steps (by simp) _

end Write

end ModelCrypt
