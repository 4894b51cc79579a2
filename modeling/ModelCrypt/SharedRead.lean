/-
# Reading a file of a shared disk

How `ReadFile` keeps its part of the protocol of `Lib.Drafts`, whatever others do
to the disk between two of its system calls, whatever its own calls answer, and
wherever it is killed: what it reads is one file as it was under the path at one
time, and none of the bytes is another's or of another time.

`Shares` is the protocol of a process. There is a rule for each system call, and
the calls are put together as in `FileRead`.

Key definitions: `Shares`, `Reads`, `ReadEnds`.
Key theorems: `shares_transferLoop`, `shares_readFully`, `shares_readFile`.
-/
import ModelCrypt.Atomic
import ModelCrypt.Processes
import ModelCrypt.Lib.Drafts

namespace ModelCrypt

open Lib Prog Conc

section Sharing

variable {ι : Type} [DecidableEq ι] {T : Path → Prop} {S : ι → List (Access Path) → Prop} {P : ι → Inode → Prop}
  {d0 : Disk Path} {i : ι} {α β : Type} {os : Os} {w : World} {g : Holding Path} {m : Machine}

variable (T S P d0 i) in
/-- A process on the shared disk. -/
abbrev Shares (Q : Except Stop α → Holding Path → Machine → Prop) (p : Process α) (g : Holding Path) (m : Machine) :
    Prop :=
  Follows diskView (Shared T S P d0) i Q p g m

variable {Q : Except Stop α → Holding Path → Machine → Prop}

/-- A step that is no matter to the disk. -/
theorem shares_own {p : Sys α} (h : ∀ d, Ends p { m with disk := d } fun r m' => m'.disk = d ∧ Q r g m') :
    Shares T S P d0 i Q (.call p) g m := Follows.own fun _ _ d _ _ => h d

theorem shares_onSt {r : Run α} (h : Ends r m.st fun x s => ∀ d, Q x g { m with disk := d, st := s }) :
    Shares T S P d0 i Q (.call (onSt r)) g m :=
  shares_own fun d => ends_onSt (h.mono fun _ _ hq => ⟨rfl, hq d⟩)

/-- A step that changes nothing at all. -/
theorem shares_quiet {p : Sys α} {R : Except Stop α → Prop} (h : ∀ m, Ends p m fun r m' => m' = m ∧ R r) :
    Shares T S P d0 i (fun r g' m' => g' = g ∧ m'.st = m.st ∧ R r) (.call p) g m :=
  shares_own fun _ => (h _).mono fun _ _ h' => ⟨h'.1 ▸ rfl, rfl, h'.1 ▸ rfl, h'.2⟩

/-! ### The transfer loops -/

section Loop

variable {c : ℕ → Sys Transfer} {stopAtZero : Bool} {size : ℕ}

/-- **The invariant rule of the transfer loops**, by induction on the rounds. -/
theorem shares_transferLoop {I : ℕ → Holding Path → Machine → Prop} {Q : Except Stop Bool → Holding Path → Machine → Prop}
    (step : ∀ done g m, done < size → I done g m → Shares T S P d0 i (fun r g' m' =>
      (∀ e, r = .error e → Q (.error e) g' m') ∧ (r = .ok .eintr → I done g' m') ∧
      (r = .ok .error → Q (.ok false) g' m') ∧
      ∀ n, r = .ok (.count n) → (stopAtZero = true ∧ n = 0 → Q (.ok false) g' m') ∧
        (¬ (stopAtZero = true ∧ n = 0) → I (done + n) g' m')) (.call (c done)) g m)
    (whole : ∀ done g m, size ≤ done → I done g m → Q (.ok true) g m)
    (lost : ∀ done g m, I done g m → Q (.error .powerLoss) g m) :
    ∀ (fuel done : ℕ) (g : Holding Path) (m : Machine), I done g m →
      Shares T S P d0 i Q (Conc.transferLoop c stopAtZero size fuel done) g m
  | 0, done, g, m, hi => lost done g m hi
  | fuel + 1, done, g, m, hi => by
    rw [Conc.transferLoop]
    split
    · rename_i hlt
      refine Follows.bind (step done g m hlt hi) ?_ fun e g' m' h => h.1 e rfl
      rintro (n | _ | _) g' m' ⟨-, heintr, herror, hcount⟩
      · obtain ⟨hz, hn⟩ := hcount n rfl
        show Shares T S P d0 i Q (if stopAtZero = true ∧ n = 0 then _ else _) g' m'
        split
        · rename_i h0
          exact hz h0
        · rename_i h0
          exact shares_transferLoop step whole lost fuel _ g' m' (hn h0)
      · exact shares_transferLoop step whole lost fuel done g' m' (heintr rfl)
      · exact herror rfl
    · rename_i hge
      exact whole done g m (Nat.not_lt.mp hge) hi

theorem shares_transferFully {I : ℕ → Holding Path → Machine → Prop}
    {Q : Except Stop Bool → Holding Path → Machine → Prop}
    (start : ∀ d, I 0 g { m with disk := d })
    (step : ∀ done g m, done < size → I done g m → Shares T S P d0 i (fun r g' m' =>
      (∀ e, r = .error e → Q (.error e) g' m') ∧ (r = .ok .eintr → I done g' m') ∧
      (r = .ok .error → Q (.ok false) g' m') ∧
      ∀ n, r = .ok (.count n) → (stopAtZero = true ∧ n = 0 → Q (.ok false) g' m') ∧
        (¬ (stopAtZero = true ∧ n = 0) → I (done + n) g' m')) (.call (c done)) g m)
    (whole : ∀ done g m, size ≤ done → I done g m → Q (.ok true) g m)
    (lost : ∀ done g m, I done g m → Q (.error .powerLoss) g m) :
    Shares T S P d0 i Q (Conc.transferFully c stopAtZero size) g m := by
  refine Follows.bind (R := fun r g' m' => I 0 g' m' ∧ ∃ a, r = .ok a) (shares_own fun d => ⟨rfl, start d, _, rfl⟩) ?_ ?_
  · rintro a g' m' ⟨hi, -⟩
    exact shares_transferLoop step whole lost _ 0 g' m' hi
  · rintro e g' m' ⟨-, a, ha⟩
    cases ha

end Loop

/-! ### ReadFile -/

section Read

variable {fd id : ℕ} {f : File} {h0 : Heap} {k : ℕ → Option Bytes} {buf : SecureBuffer}

theorem shares_sysClose (fd : ℕ) : Shares T S P d0 i (fun r g' m' => g' = g ∧ m'.st = m.st ∧
    ∀ e, r = .error e → e = .powerLoss) (.call (sysClose os fd)) g m :=
  shares_own fun _ => ends_syscall ⟨rfl, rfl, rfl, fun e he => (by cases he; rfl)⟩
    fun _ _ => ⟨rfl, rfl, rfl, fun e he => by cases he⟩

/-- `::close(fd); return s;` -/
theorem shares_close_stop (s : McStatus) : Shares T S P d0 i (fun (r : Except Stop α) g' m' => g' = g ∧ m'.st = m.st ∧
    (r = .error .powerLoss ∨ r = .error (.status s)))
    (do let _ ← .call (sysClose os fd); .stop (.status s)) g m :=
  Follows.bind (shares_sysClose fd) (fun _ _ _ h => ⟨h.1, h.2.1, .inr rfl⟩)
    fun e _ _ h => ⟨h.1, h.2.1, .inl (by rw [h.2.2 e rfl])⟩

theorem shares_closeIf {c : Prop} [Decidable c] (s : McStatus) : Shares T S P d0 i (fun r g' m' => g' = g ∧
    ((r = .ok () ∧ ¬ c ∧ m' = m) ∨ (m'.st = m.st ∧ c ∧ (r = .error .powerLoss ∨ r = .error (.status s)))))
    (Conc.closeIf os fd c s) g m := by
  unfold Conc.closeIf
  split
  · rename_i hc
    exact (shares_close_stop s).mono fun r g' m' h => ⟨h.1, .inr ⟨h.2.1, hc, h.2.2⟩⟩
  · rename_i hc
    exact ⟨rfl, .inl ⟨rfl, hc, rfl⟩⟩

theorem shares_closeIf_bind {c : Prop} [Decidable c] {s : McStatus} {p : Unit → Process α}
    (pos : c → ∀ m' e, m'.st = m.st → Q (.error e) g m') (neg : ¬ c → Shares T S P d0 i Q (p ()) g m) :
    Shares T S P d0 i Q (Conc.closeIf os fd c s >>= p) g m := by
  refine Follows.bind (shares_closeIf s) ?_ ?_
  · rintro _ g' m' ⟨rfl, ⟨-, hc, rfl⟩ | ⟨-, -, hr | hr⟩⟩
    · exact neg hc
    · cases hr
    · cases hr
  · rintro e g' m' ⟨rfl, ⟨hr, -⟩ | ⟨hs, hc, -⟩⟩
    · cases hr
    · exact pos hc m' e hs

theorem shares_sysOpen {path : Path} (hT : ∀ n, os.follow path = some n → ¬ T n)
    (hS : ∀ n f, os.follow path = some n → S i (g.did ++ [.read n f])) : Shares T S P d0 i (fun r g' m' =>
      m'.st = m.st ∧ ((g' = g ∧ (r = .ok none ∨ r = .error .powerLoss)) ∨ ∃ fd n id f, r = .ok (some fd) ∧
        os.follow path = some n ∧ g' = g.read n id f ∧ m'.desc fd = some ⟨id, 0, true⟩))
      (.call (sysOpen os path)) g m := by
  refine Follows.call fun G h d hg hs => ?_
  refine (ends_sysOpen (m := { m with disk := d })).mono fun r m' h' => ?_
  obtain ⟨hst, hd, hr⟩ := h'
  have same : Function.update G i g = G := by rw [← hg, Function.update_eq_self]
  have stays : ∃ g' es, Shared T S P d0 (Function.update G i g') (h ++ acts i es) m'.disk ∧ g' = g := by
    refine ⟨g, [], ?_, rfl⟩
    rw [same, hd, acts_nil, List.append_nil]
    exact hs
  rcases hr with hr | hr | ⟨fd, id, hr, hid, hdesc⟩
  · obtain ⟨g', es, hs', rfl⟩ := stays
    exact ⟨g', es, hs', hst, .inl ⟨rfl, .inl hr⟩⟩
  · obtain ⟨g', es, hs', rfl⟩ := stays
    exact ⟨g', es, hs', hst, .inl ⟨rfl, .inr hr⟩⟩
  · obtain ⟨n, hn, hid⟩ := Option.bind_eq_some_iff.mp hid
    obtain ⟨k, hk⟩ := Disk.inode_of_entry hid
    have hs' := hs.opens (i := i) (hT n hn) hid hk (by rw [hg]; exact hS n k.now hn)
    rw [hg] at hs'
    refine ⟨g.read n id k.now, [.read n k.now], ?_, hst, .inr ⟨fd, n, id, k.now, hr, hn, rfl, hdesc⟩⟩
    show Shared T S P d0 _ _ m'.disk
    rwa [hd]

theorem shares_sysFstat (fd : ℕ) : Shares T S P d0 i (fun r g' m' => g' = g ∧ m'.st = m.st ∧
    (∀ fd', m'.desc fd' = m.desc fd') ∧ (∀ e, r = .error e → e = .powerLoss) ∧
      ∀ st, r = .ok (some st) → ∃ t, os.fstat t = some st) (.call (sysFstat os fd)) g m := by
  refine shares_own fun d => ends_syscall ⟨rfl, rfl, rfl, fun _ => rfl, fun e he => (by cases he; rfl),
    fun st hst => (by cases hst)⟩ fun t n => ⟨rfl, rfl, rfl, fun _ => rfl, fun e he => (by cases he), fun st hst => ?_⟩
  obtain ⟨_, -, h⟩ := Option.bind_eq_some_iff.mp (Except.ok.inj hst)
  exact ⟨_, h⟩

/-- The file behind the descriptor is the one that was opened, up to a position, and so far it is in the buffer. -/
structure Filling (h0 : Heap) (k : ℕ → Option Bytes) (buf : SecureBuffer) (f : File) (fd id size done : ℕ) (m : Machine) :
    Prop where
  desc : m.desc fd = some ⟨id, done, true⟩
  le_file : done ≤ f.data.length
  le_size : done ≤ size
  scope : InScope h0 k buf (f.data.take done ++ zeros (size - done)) m.st

/-- What is opened is on the disk as it was. -/
theorem contents_of_opened {G : ι → Holding Path} {h : List (ι × Access Path)} {d : Disk Path}
    (hs : Shared T S P d0 G h d) (hg : G i = g) (ho : g.opened = some (id, f)) :
    Machine.contents { m with disk := d } id = f.data := by
  obtain ⟨h1, -⟩ := hs.opened i id f (by rw [hg, ho])
  obtain ⟨k, hk, rfl⟩ := Option.map_eq_some_iff.mp h1
  rw [Machine.contents, hk]
  rfl

theorem shares_sysRead {size done : ℕ} (ho : g.opened = some (id, f)) (hf : Filling h0 k buf f fd id size done m) :
    Shares T S P d0 i (fun r g' m' => g' = g ∧ ((Filling h0 k buf f fd id size done m' ∧
        (r = .error .powerLoss ∨ r = .ok .eintr ∨ r = .ok .error)) ∨
      ∃ n, r = .ok (.count n) ∧ Filling h0 k buf f fd id size (done + n) m'))
      (.call (sysRead os fd (buf.ptr.add done) (size - done))) g m := by
  refine Follows.own fun G h d hg hs => ?_
  have hr : Reading { m with disk := d } fd id done m.st.trace { m with disk := d } := ⟨rfl, hf.desc, rfl⟩
  refine (ends_sysRead os hr (contents_of_opened hs hg ho) hf.le_file hf.le_size hf.scope).mono fun r m' h' => ?_
  rcases h' with ⟨h1, h2, hr⟩ | ⟨n, hr, h1, h2, h3, h4⟩
  · exact ⟨h1.disk, rfl, .inl ⟨⟨h1.desc, hf.le_file, hf.le_size, h2⟩, hr⟩⟩
  · exact ⟨h1.disk, rfl, .inr ⟨n, hr, h1.desc, h2, h3, h4⟩⟩

/-- **ReadFully reads the file that was opened**, whatever is done to the disk meanwhile. -/
theorem shares_readFully {size : ℕ} (ho : g.opened = some (id, f)) (hdesc : m.desc fd = some ⟨id, 0, true⟩)
    (hs : InScope h0 k buf (zeros size) m.st) : Shares T S P d0 i (fun r g' m' => g' = g ∧ ∃ y, InScope h0 k buf y m'.st ∧
      (r = .ok true ∧ y = f.data.take size ∧ size ≤ f.data.length ∨ r = .ok false ∨ r = .error .powerLoss))
      (Conc.readFully os fd buf.ptr size) g m := by
  refine shares_transferFully (I := fun done g' m' => g' = g ∧ Filling h0 k buf f fd id size done m')
    (fun d => ⟨rfl, hdesc, Nat.zero_le _, Nat.zero_le _, hs⟩) ?_ ?_ ?_
  · rintro done g1 m1 - ⟨rfl, h1⟩
    refine (shares_sysRead ho h1).mono fun r g2 m2 h2 => ?_
    obtain ⟨rfl, ⟨h2, hr⟩ | ⟨n, rfl, h2⟩⟩ := h2
    · refine ⟨fun e he => ?_, fun _ => ⟨rfl, h2⟩, fun _ => ⟨rfl, _, h2.scope, .inr (.inl rfl)⟩, fun n hn => ?_⟩
      · rcases hr with hr | hr | hr <;> rw [hr] at he <;> cases he
        exact ⟨rfl, _, h2.scope, .inr (.inr rfl)⟩
      · rcases hr with hr | hr | hr <;> rw [hr] at hn <;> cases hn
    · refine ⟨fun e he => (by cases he), fun he => (by cases he), fun he => (by cases he), fun n' hn' => ?_⟩
      cases hn'
      exact ⟨fun _ => ⟨rfl, _, h2.scope, .inr (.inl rfl)⟩, fun _ => ⟨rfl, h2⟩⟩
  · rintro done g1 m1 hge ⟨rfl, h1⟩
    obtain rfl : done = size := Nat.le_antisymm h1.le_size hge
    have hs1 := h1.scope
    rw [Nat.sub_self, zeros_zero, List.append_nil] at hs1
    exact ⟨rfl, _, hs1, .inl ⟨rfl, rfl, h1.le_file⟩⟩
  · rintro done g1 m1 ⟨rfl, h1⟩
    exact ⟨rfl, _, h1.scope, .inr (.inr rfl)⟩

theorem shares_readAll {size : ℕ} (ho : g.opened = some (id, f)) (hdesc : m.desc fd = some ⟨id, 0, true⟩)
    (hs : InScope h0 k buf (zeros size) m.st) : Shares T S P d0 i (fun r g' m' => g' = g ∧ ∃ y, InScope h0 k buf y m'.st ∧
      (r = .ok () ∧ y = f.data.take size ∧ size ≤ f.data.length ∨ ∃ e, r = .error e))
      (Conc.readAll os fd buf.ptr size) g m := by
  unfold Conc.readAll
  split
  · refine Follows.bind (shares_readFully ho hdesc hs) ?_ ?_
    · rintro whole g1 m1 ⟨rfl, y, hs1, hw⟩
      refine (shares_closeIf .errIo).mono fun r g2 m2 h2 => ?_
      obtain ⟨rfl, ⟨rfl, hne, rfl⟩ | ⟨hst, -, hr | hr⟩⟩ := h2
      · rcases hw with ⟨-, hy⟩ | hw | hw
        · exact ⟨rfl, y, hs1, .inl ⟨rfl, hy⟩⟩
        · cases hw
          exact absurd rfl hne
        · cases hw
      · exact ⟨rfl, y, hst ▸ hs1, .inr ⟨_, hr⟩⟩
      · exact ⟨rfl, y, hst ▸ hs1, .inr ⟨_, hr⟩⟩
    · rintro e g1 m1 ⟨rfl, y, hs1, -⟩
      exact ⟨rfl, y, hs1, .inr ⟨e, rfl⟩⟩
  · rename_i h
    obtain rfl := Nat.eq_zero_of_not_pos h
    exact ⟨rfl, _, hs, .inl ⟨rfl, rfl, Nat.zero_le _⟩⟩

theorem shares_destroy {x : Bytes} (hs : InScope h0 k buf x m.st) :
    Shares T S P d0 i (fun r g' m' => g' = g ∧ r = .ok () ∧ Heap.Becomes h0 m'.st.heap k)
      (.call (onSt (destroy buf))) g m := by
  obtain ⟨s', hd, -, hb⟩ := hs.destroy
  exact shares_onSt (Ends.of_eq hd fun _ => ⟨rfl, rfl, hb⟩)

/-- From the buffer on: it is filled and returned, or wiped and freed. -/
theorem shares_fillBuffer {size : ℕ} (ho : g.opened = some (id, f)) (hdesc : m.desc fd = some ⟨id, 0, true⟩) {ok : Bool}
    (hs : InScope h0 k buf (if ok then zeros size else []) m.st) : Shares T S P d0 i (fun r g' m' => g' = g ∧
      (r = .ok (buf, size) ∧ InScope h0 k buf (f.data.take size) m'.st ∧ size ≤ f.data.length ∨
        ∃ e, r = .error e ∧ Heap.Becomes h0 m'.st.heap k)) (Proc.onStop (do
        Conc.closeIf os fd (ok = false) .errMemory
        Conc.readAll os fd buf.ptr size
        let _ ← .call (sysClose os fd)
        return (buf, size)) (.call (onSt (destroy buf)))) g m := by
  refine Follows.onStop (R := fun r g' m' => g' = g ∧ ∃ y, InScope h0 k buf y m'.st ∧
    (r = .ok (buf, size) ∧ y = f.data.take size ∧ size ≤ f.data.length ∨ ∃ e, r = .error e)) ?_ ?_ ?_
  · refine shares_closeIf_bind (fun _ m' e hst => ⟨rfl, _, hst ▸ hs, .inr ⟨e, rfl⟩⟩) fun hok => ?_
    rw [if_pos (Bool.eq_true_of_not_eq_false hok)] at hs
    refine Follows.bind (shares_readAll ho hdesc hs) ?_ ?_
    · rintro _ g1 m1 ⟨rfl, y, hs1, ⟨-, hy⟩ | ⟨e, he⟩⟩
      swap
      · cases he
      refine Follows.bind (shares_sysClose fd) ?_ ?_
      · rintro _ g2 m2 ⟨rfl, hst, -⟩
        exact ⟨rfl, y, hst ▸ hs1, .inl ⟨rfl, hy⟩⟩
      · rintro e g2 m2 ⟨rfl, hst, -⟩
        exact ⟨rfl, y, hst ▸ hs1, .inr ⟨e, rfl⟩⟩
    · rintro e g1 m1 ⟨rfl, y, hs1, -⟩
      exact ⟨rfl, y, hs1, .inr ⟨e, rfl⟩⟩
  · rintro a g1 m1 ⟨rfl, y, hs1, ⟨hr, rfl, hle⟩ | ⟨e, he⟩⟩
    · exact ⟨rfl, .inl ⟨hr, hs1, hle⟩⟩
    · cases he
  · rintro e g1 m1 ⟨rfl, y, hs1, -⟩
    refine (shares_destroy hs1).mono ?_
    rintro r g2 m2 ⟨rfl, rfl, hb⟩
    exact ⟨fun e' he' => (by cases he'), fun _ => ⟨rfl, .inr ⟨e, rfl, hb⟩⟩⟩

/-- A new buffer, if there is memory for it. -/
theorem ends_reset (w : World) (size : ℕ) (s : St) : Ends (reset w .fileContents {} size) s fun r s' =>
    ∃ ok buf, r = .ok (ok, buf) ∧ InScope s.heap s.heap.get buf (if ok then zeros size else []) s' := by
  have hrun := reset_run w .fileContents size s
  have hbec := Heap.Becomes.refl s.heap
  by_cases hz : size = 0
  · subst hz
    rw [if_pos rfl] at hrun
    exact Ends.of_eq hrun ⟨true, {}, rfl, inScope_empty hbec⟩
  · rw [if_neg hz] at hrun
    rcases ha : w.alloc s.trace.length size with _ | _ <;> rw [ha] at hrun
    · exact Ends.of_eq hrun ⟨false, {}, rfl, inScope_empty hbec⟩
    · exact Ends.of_eq hrun ⟨true, _, rfl, inScope_alloc hbec hz _⟩

/-- How `ReadFile` may end: the buffer holds the first bytes of one file that was at the path at one time, or memory is
as it was. -/
def ReadEnds (w : World) (os : Os) (path : Path) (g : Holding Path) (m : Machine) (r : Except Stop (SecureBuffer × ℕ))
    (g' : Holding Path) (m' : Machine) : Prop :=
  (∃ buf x n id f, r = .ok (buf, x.length) ∧ os.follow path = some n ∧ g' = g.read n id f ∧ Reads os f x ∧
    x.length ≤ w.sizeT.max ∧ InScope m.st.heap m.st.heap.get buf x m'.st) ∨
  ∃ e, r = .error e ∧ Heap.Becomes m.st.heap m'.st.heap m.st.heap.get ∧
    (g' = g ∨ ∃ n id f, os.follow path = some n ∧ g' = g.read n id f)

/-- **ReadFile among others** reads one file as a whole, as it was at one time. -/
theorem shares_readFile {path : Path} (maxSize : UInt64) (hT : ∀ n, os.follow path = some n → ¬ T n)
    (hS : ∀ n f, os.follow path = some n → S i (g.did ++ [.read n f])) :
    Shares T S P d0 i (ReadEnds w os path g m) (Conc.readFile os w path maxSize) g m := by
  have early {g' : Holding Path} {m' : Machine} {e : Stop} (hst : m'.st = m.st)
      (hg : g' = g ∨ ∃ n id f, os.follow path = some n ∧ g' = g.read n id f) :
      ReadEnds w os path g m (.error e) g' m' := .inr ⟨e, rfl, hst ▸ Heap.Becomes.refl _, hg⟩
  refine Follows.bind (shares_sysOpen hT hS) ?_ ?_
  swap
  · rintro e g1 m1 ⟨hst, ⟨rfl, -⟩ | ⟨_, _, _, _, hr, -⟩⟩
    · exact early hst (.inl rfl)
    · cases hr
  rintro _ g1 m1 ⟨hst1, ⟨rfl, hr | hr⟩ | ⟨fd, n, id, f, hr, hn, rfl, hdesc1⟩⟩ <;> cases hr
  · exact early hst1 (.inl rfl)
  have hg1 : g.read n id f = g ∨ ∃ n' id' f', os.follow path = some n' ∧ g.read n id f = g.read n' id' f' :=
    .inr ⟨n, id, f, hn, rfl⟩
  refine Follows.bind (shares_sysFstat fd) ?_ ?_
  swap
  · rintro e g2 m2 ⟨rfl, hst2, -⟩
    exact early (hst2.trans hst1) hg1
  rintro (_ | st) g2 m2 ⟨rfl, hst2, hdesc2, -, hfstat⟩
  · refine (shares_close_stop .errIo).mono fun r g3 m3 h3 => ?_
    obtain ⟨rfl, hst3, rfl | rfl⟩ := h3 <;> exact early (hst3.trans (hst2.trans hst1)) hg1
  obtain ⟨t, ht⟩ := hfstat st rfl
  have hst := hst2.trans hst1
  refine shares_closeIf_bind (fun _ m' e hs => early (hs.trans hst) hg1) fun hreg => ?_
  refine shares_closeIf_bind (fun _ m' e hs => early (hs.trans hst) hg1) fun hneg => ?_
  refine shares_closeIf_bind (fun _ m' e hs => early (hs.trans hst) hg1) fun hsize => ?_
  rw [not_or, Nat.not_lt, Nat.not_lt] at hsize
  obtain ⟨size, hsz⟩ := Int.eq_ofNat_of_zero_le (Int.not_lt.mp hneg)
  rw [hsz, Int.toNat_natCast] at hsize ⊢
  refine Follows.bind (R := fun r g' m' => g' = g.read n id f ∧ m'.desc fd = m2.desc fd ∧ ∃ ok buf, r = .ok (ok, buf) ∧
    InScope m2.st.heap m2.st.heap.get buf (if ok then zeros size else []) m'.st)
    (shares_onSt ((ends_reset w size m2.st).mono fun r s' h d => ⟨rfl, rfl, h⟩)) ?_ ?_
  swap
  · rintro e g3 m3 ⟨-, -, ok, buf, hr, -⟩
    cases hr
  rintro _ g3 m3 ⟨rfl, hdesc3, ok, buf, hr, hs3⟩
  cases hr
  rw [hst] at hs3
  refine (shares_fillBuffer rfl (hdesc3.trans ((hdesc2 fd).trans hdesc1)) hs3).mono fun r g4 m4 h4 => ?_
  obtain ⟨rfl, ⟨rfl, hs4, hle⟩ | ⟨e, rfl, hb⟩⟩ := h4
  · have hlen : (f.data.take size).length = size := List.length_take_of_le hle
    refine .inl ⟨buf, f.data.take size, n, id, f, by rw [hlen], hn, rfl,
      ⟨List.take_prefix _ _, t, st, ht, ?_, ?_⟩, ?_, hs4⟩
    · exact Bool.eq_true_of_not_eq_false hreg
    · rw [hlen]
      exact hsz
    · rw [hlen]
      exact hsize.2
  · exact .inr ⟨e, rfl, hb, hg1⟩

end Read

end Sharing

end ModelCrypt
