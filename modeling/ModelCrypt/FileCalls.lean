/-
# Rules for system calls and transfer loops

What a run of one system call ends in, and the invariant rule for the transfer
loops. A system call that is not made because the power is gone, and a loop that
is out of rounds, both stop with a power loss, so the rules for what holds at
every stop need not count.

Key theorems: `ends_syscall`, `keeps_syscall`, `transferLoop_ends`.
-/
import ModelCrypt.FileIo

namespace ModelCrypt

open Lib Prog Fileio

variable {os : Os} {w : World} {m : Machine} {α β : Type}

/-! ### Runs of the process -/

theorem onSt_run (r : Run α) (m : Machine) : onSt r m = ((r m.st).1, { m with st := (r m.st).2 }) := by
  unfold onSt zoom
  rcases r m.st with ⟨e | a, s⟩ <;> rfl

theorem ends_onSt {r : Run α} {Q : Except Stop α → Machine → Prop}
    (h : Ends r m.st fun x s => Q x { m with st := s }) : Ends (onSt r) m Q := by
  unfold Ends at h ⊢
  rw [onSt_run]
  exact h

/-- What is said of the memory alone. -/
theorem ends_onSt_st {r : Run α} {Q : Except Stop α → St → Prop} (h : Ends r m.st Q) :
    Ends (onSt r) m fun x m' => Q x m'.st := ends_onSt h

theorem keeps_onSt {β : Type} {v : Machine → β} {r : Run α} (hv : ∀ m s, v { m with st := s } = v m) :
    Keeps v (onSt r) := Keeps.zoom fun s m => hv m s

theorem newString_run (site : StringSite) (n : ℕ) (m : Machine) :
    newString os site n m = (if os.string m.time site n = false then .error .badAlloc else .ok (), m) := by
  unfold newString throwIf
  rw [bind_ok (show state m = (.ok m, m) from rfl)]
  split <;> rfl

/-- There is memory for all the strings that `WriteFileAtomically` makes for a path, at a time. -/
structure Strings (os : Os) (t : ℕ) (path : Path) : Prop where
  directory : os.string t .directory (directoryName path).length = true
  slash : (directoryName path).getLast? ≠ some '/' → os.string t .slash (directoryName path ++ ['/']).length = true
  template : os.string t .template (templateFor path).length = true
  mutablePath : os.string t .mutablePath (templateFor path).length = true

theorem newString_ok {site : StringSite} {n : ℕ} (h : os.string m.time site n = true) :
    newString os site n m = (.ok (), m) := by rw [newString_run, h]; rfl

theorem newString_bad {site : StringSite} {n : ℕ} (h : ¬ os.string m.time site n = true) :
    newString os site n m = (.error .badAlloc, m) := by rw [newString_run, Bool.eq_false_of_not_eq_true h]; rfl

/-- The template is made, if there is memory for all the strings. -/
theorem temporaryFor_ok {path : Path} (h : Strings os m.time path) :
    temporaryFor os path m = (.ok (templateFor path), m) := by
  have htemp := h.template
  have hmut := h.mutablePath
  unfold temporaryFor directoryOf append
  unfold templateFor at htemp hmut ⊢
  simp only [bind_assoc, pure_bind]
  rw [bind_ok (newString_ok h.directory)]
  by_cases hlast : (directoryName path).getLast? = some '/'
  · simp only [if_pos hlast] at htemp hmut ⊢
    rw [bind_ok (newString_ok htemp), bind_ok (newString_ok hmut)]
    rfl
  · simp only [if_neg hlast] at htemp hmut ⊢
    rw [bind_ok (newString_ok (h.slash hlast)), bind_ok (newString_ok htemp), bind_ok (newString_ok hmut)]
    rfl

theorem temporaryFor_bad {path : Path} (h : ¬ Strings os m.time path) :
    temporaryFor os path m = (.error .badAlloc, m) := by
  unfold temporaryFor directoryOf append
  simp only [bind_assoc, pure_bind]
  by_cases hdir : os.string m.time .directory (directoryName path).length = true
  swap
  · exact bind_error (newString_bad hdir)
  rw [bind_ok (newString_ok hdir)]
  have hrest : ∀ t, t = templateFor path → ((directoryName path).getLast? ≠ some '/' →
      os.string m.time .slash (directoryName path ++ ['/']).length = true) →
      (newString os .template t.length >>= fun _ => newString os .mutablePath t.length >>= fun _ => pure t) m =
        (.error .badAlloc, m) := by
    rintro _ rfl hslash
    by_cases htemp : os.string m.time .template (templateFor path).length = true
    swap
    · exact bind_error (newString_bad htemp)
    rw [bind_ok (newString_ok htemp)]
    exact bind_error (newString_bad (fun hmut => h ⟨hdir, hslash, htemp, hmut⟩))
  by_cases hlast : (directoryName path).getLast? = some '/'
  · simp only [if_pos hlast]
    exact hrest _ (by rw [templateFor, if_pos hlast]) fun hne => absurd hlast hne
  simp only [if_neg hlast]
  by_cases hslash : os.string m.time .slash (directoryName path ++ ['/']).length = true
  swap
  · exact bind_error (newString_bad hslash)
  rw [bind_ok (newString_ok hslash)]
  exact hrest _ (by rw [templateFor, if_neg hlast]) fun _ => hslash

/-! ### System calls -/

/-- A system call is made, or the power is gone. -/
theorem ends_syscall {f : ℕ → Machine → α × Machine} {Q : Except Stop α → Machine → Prop}
    (lost : Q (.error .powerLoss) m)
    (made : ∀ t n, Q (.ok (f m.time m).1) { (f m.time m).2 with time := t, left := n }) : Ends (syscall f) m Q := by
  unfold Ends syscall
  split
  · exact lost
  · exact made _ _

theorem keeps_syscall {v : Machine → β} {f : ℕ → Machine → α × Machine}
    (hv : ∀ m t n, v { m with time := t, left := n } = v m) (hf : ∀ t m, v (f t m).2 = v m) : Keeps v (syscall f) := by
  intro m
  unfold syscall
  split
  · rfl
  · exact (hv _ _ _).trans (hf _ _)

/-! ### Descriptors -/

namespace Machine

variable {fd : ℕ} {e : Descriptor}

theorem desc_push (m : Machine) (inode : ℕ) : (m.push inode).desc m.fds.length = some ⟨inode, 0, true⟩ := by
  rw [desc, push, List.getElem?_concat_length]
  rfl

theorem desc_seek (h : m.desc fd = some e) (k : ℕ) : (m.seek fd k).desc fd = some { e with pos := e.pos + k } := by
  unfold desc at h ⊢
  obtain ⟨hget, hopen⟩ := Option.filter_eq_some_iff.mp h
  rw [seek, List.getElem?_modify_eq, hget]
  simpa using hopen

end Machine

/-! ### Transfer loops -/

section Loop

variable {call : ℕ → Sys Transfer} {stopAtZero : Bool} {size : ℕ}

/-- **The invariant rule of the transfer loops**, by induction on the rounds. -/
theorem transferLoop_ends {I : ℕ → Machine → Prop} {Q : Except Stop Bool → Machine → Prop}
    (step : ∀ done m, done < size → I done m → Ends (call done) m fun r m' =>
      (∀ e, r = .error e → Q (.error e) m') ∧ (r = .ok .eintr → I done m') ∧ (r = .ok .error → Q (.ok false) m') ∧
      ∀ n, r = .ok (.count n) → (stopAtZero = true ∧ n = 0 → Q (.ok false) m') ∧
        (¬ (stopAtZero = true ∧ n = 0) → I (done + n) m'))
    (whole : ∀ done m, size ≤ done → I done m → Q (.ok true) m)
    (lost : ∀ done m, I done m → Q (.error .powerLoss) m) :
    ∀ (fuel done : ℕ) (m : Machine), I done m → Ends (transferLoop call stopAtZero size fuel done) m Q
  | 0, done, m, hi => lost done m hi
  | fuel + 1, done, m, hi => by
    rw [transferLoop]
    split
    · rename_i hlt
      refine Ends.bind (step done m hlt hi) ?_ fun e m' h => h.1 e rfl
      rintro (n | _ | _) m' ⟨-, heintr, herror, hcount⟩
      · obtain ⟨hz, hn⟩ := hcount n rfl
        show Ends (if stopAtZero = true ∧ n = 0 then _ else _) m' Q
        split
        · rename_i h0
          exact hz h0
        · rename_i h0
          exact transferLoop_ends step whole lost fuel _ m' (hn h0)
      · exact transferLoop_ends step whole lost fuel done m' (heintr rfl)
      · exact herror rfl
    · rename_i hge
      exact whole done m (Nat.not_lt.mp hge) hi

theorem transferFully_ends {I : ℕ → Machine → Prop} {Q : Except Stop Bool → Machine → Prop} (start : I 0 m)
    (step : ∀ done m, done < size → I done m → Ends (call done) m fun r m' =>
      (∀ e, r = .error e → Q (.error e) m') ∧ (r = .ok .eintr → I done m') ∧ (r = .ok .error → Q (.ok false) m') ∧
      ∀ n, r = .ok (.count n) → (stopAtZero = true ∧ n = 0 → Q (.ok false) m') ∧
        (¬ (stopAtZero = true ∧ n = 0) → I (done + n) m'))
    (whole : ∀ done m, size ≤ done → I done m → Q (.ok true) m)
    (lost : ∀ done m, I done m → Q (.error .powerLoss) m) : Ends (transferFully call stopAtZero size) m Q :=
  transferLoop_ends step whole lost (m.left + 1) 0 m start

end Loop

end ModelCrypt
