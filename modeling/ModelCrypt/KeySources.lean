/-
# What the key sources give

`arriving` is what `fread` gets of a file: the bytes that the reads move until one
of them fails or finds the end. Each reader returns, whatever its calls do, and
what it returns is said case by case: what arrived or was typed, or the message.
A reader that succeeds puts what it read into the block that was reserved
(`Filled`), so the vector never grows.

Key definitions: `arriving`, `stripped`, `opened`, `Filled`, `Asked`, `Prompted`.
Key theorems: `freadLoop_steps`, `readKeyFile_opened`, `readKeyPrompt_asked`.
-/
import ModelCrypt.Cli
import ModelCrypt.Transfers

namespace ModelCrypt.Cli

open Lib Prog Fileio

variable {os : Os} {con : Console} {m m' : Machine} {fd size : ℕ} {x : Bytes} {key : KeyBytes}

/-! ### What arrives -/

/-- How many bytes a read moves that may return up to `k`, of as many as are wanted and left. -/
def got (k want : ℕ) (rest : Bytes) : ℕ := min (min k want) rest.length

/-- What `fread` gets, from time `t` on, of as many bytes as it wants from the rest of a file. -/
def arriving (os : Os) : ℕ → ℕ → ℕ → Bytes → Bytes
  | 0, _, _, _ => []
  | rounds + 1, t, want, rest =>
    match os.read t with
    | .count k =>
      if got k want rest = 0 then []
      else rest.take (got k want rest) ++
        arriving os rounds (t + 1) (want - got k want rest) (rest.drop (got k want rest))
    | .eintr => []
    | .error => []

/-- What arrives is the beginning of the file, and no more than was wanted. -/
theorem arriving_le (os : Os) :
    ∀ rounds t want rest, arriving os rounds t want rest <+: rest ∧ (arriving os rounds t want rest).length ≤ want := by
  intro rounds
  induction rounds with
  | zero => exact fun t want rest => ⟨List.nil_prefix, Nat.zero_le _⟩
  | succ rounds ih =>
    intro t want rest
    rw [arriving]
    rcases os.read t with k | _ | _
    · dsimp only
      split
      · exact ⟨List.nil_prefix, Nat.zero_le _⟩
      have hgot : got k want rest ≤ want ∧ got k want rest ≤ rest.length := by
        unfold got
        omega
      obtain ⟨hpre, hle⟩ := ih (t + 1) (want - got k want rest) (rest.drop (got k want rest))
      generalize arriving os rounds _ _ _ = y at hpre hle ⊢
      refine ⟨?_, ?_⟩
      · have := (List.prefix_append_right_inj (rest.take (got k want rest))).mpr hpre
        rwa [List.take_append_drop] at this
      · rw [List.length_append, List.length_take]
        omega
    · exact ⟨List.nil_prefix, Nat.zero_le _⟩
    · exact ⟨List.nil_prefix, Nat.zero_le _⟩

/-- If every read gets something, everything arrives. -/
theorem arriving_all (hos : ∀ t, ∃ n, os.read t = .count (n + 1)) :
    ∀ rounds t want rest, want ≤ rounds → arriving os rounds t want rest = rest.take want := by
  intro rounds
  induction rounds with
  | zero =>
    intro t want rest hle
    rw [Nat.le_zero.mp hle]
    rfl
  | succ rounds ih =>
    intro t want rest hle
    obtain ⟨n, hn⟩ := hos t
    rw [arriving, hn]
    dsimp only
    by_cases h0 : got (n + 1) want rest = 0
    · have hnone : want = 0 ∨ rest.length = 0 := by
        unfold got at h0
        omega
      rw [if_pos h0]
      rcases hnone with rfl | hnil
      · rfl
      · rw [List.eq_nil_of_length_eq_zero hnil, List.take_nil]
    · have hle' : got (n + 1) want rest ≤ want := by
        unfold got
        omega
      rw [if_neg h0, ih _ _ _ (by omega)]
      have := List.take_add (l := rest) (i := got (n + 1) want rest) (j := want - got (n + 1) want rest)
      rw [Nat.add_sub_cancel' hle'] at this
      exact this.symm

/-- **What `fread` reads is what arrives.** By induction on the rounds. -/
theorem freadLoop_steps (os : Os) (size : ℕ) : ∀ rounds x m, (∃ e, m.desc fd = some e) → ∃ c m',
    Steps (freadLoop os fd size rounds x) m c
      (.ok (x ++ arriving os rounds m.time (size - x.length) (m.stream fd))) m' ∧
      m'.st = m.st ∧ m'.disk = m.disk := by
  intro rounds
  induction rounds with
  | zero =>
    intro x m _
    refine ⟨0, m, ?_, rfl, rfl⟩
    rw [arriving, List.append_nil]
    exact Steps.of_eq fun _ => rfl
  | succ rounds ih =>
    rintro x m ⟨e, hd⟩
    rw [freadLoop]
    by_cases hlt : x.length < size
    swap
    · have hnil : arriving os (rounds + 1) m.time (size - x.length) (m.stream fd) = [] :=
        List.eq_nil_of_length_eq_zero (by
          have := (arriving_le os (rounds + 1) m.time (size - x.length) (m.stream fd)).2
          omega)
      rw [if_neg hlt, hnil, List.append_nil]
      exact ⟨0, m, Steps.of_eq fun _ => rfl, rfl, rfl⟩
    rw [if_pos hlt]
    have hcall := Steps.syscall (readTransfer_left os fd (size - x.length)) m
    have hs : m.stream fd = (m.contents e.inode).drop e.pos := by rw [Machine.stream, hd, Option.elim_some]
    rw [readTransfer, hd] at hcall
    rw [arriving]
    rcases hr : os.read m.time with k | _ | _ <;> rw [hr] at hcall <;> dsimp only at hcall ⊢
    · have hy : slice (m.contents e.inode) e.pos (min k (size - x.length)) =
        (m.stream fd).take (got k (size - x.length) (m.stream fd)) := by
        rw [hs, got, slice, ← List.take_eq_take_min]
      have hlen : (slice (m.contents e.inode) e.pos (min k (size - x.length))).length =
        got k (size - x.length) (m.stream fd) := by
        rw [slice_length, hs, got, List.length_drop]
      rw [hlen, hy] at hcall
      generalize hn : got k (size - x.length) (m.stream fd) = n at hcall hlen hy ⊢
      by_cases h0 : n = 0
      · rw [if_pos h0, List.append_nil]
        refine ⟨1 + 0, { m.seek fd n with time := m.time + 1 }, hcall.bind (Steps.of_eq fun _ => ?_), rfl, rfl⟩
        show (if n = 0 then pure x else _ : Sys Bytes) _ = _
        rw [if_pos h0]
        rfl
      · rw [if_neg h0, ← List.append_assoc]
        have hd1 : ({ m.seek fd n with time := m.time + 1 } : Machine).desc fd = some { e with pos := e.pos + n } :=
          Machine.desc_seek hd n
        have hs1 : ({ m.seek fd n with time := m.time + 1 } : Machine).stream fd = (m.stream fd).drop n := by
          rw [Machine.stream, hd1, hs, List.drop_drop]
          rfl
        have hlen1 : size - (x ++ (m.stream fd).take n).length = size - x.length - n := by
          rw [← hy, List.length_append, hlen]
          omega
        obtain ⟨c, m', hrest, hst, hdisk⟩ := ih (x ++ (m.stream fd).take n) _ ⟨_, hd1⟩
        rw [hs1, hlen1] at hrest
        refine ⟨1 + c, m', hcall.bind ?_, hst, hdisk⟩
        show Steps (if n = 0 then pure x else _ : Sys Bytes) _ c _ m'
        rw [if_neg h0]
        exact hrest
    · rw [List.append_nil]
      exact ⟨1 + 0, _, hcall.bind (Steps.of_eq fun _ => rfl), rfl, rfl⟩
    · rw [List.append_nil]
      exact ⟨1 + 0, _, hcall.bind (Steps.of_eq fun _ => rfl), rfl, rfl⟩

/-- The contents of the file at a path, if it can be opened. -/
def opened (os : Os) (m : Machine) (path : Path) : Option Bytes :=
  ((os.follow path).bind m.disk.entry).bind fun inode =>
    if os.openOk m.time = true then some (m.contents inode) else none

/-- The bytes without one newline at the end, and without a carriage return before it. -/
def stripped (x : Bytes) : Bytes :=
  if x.getLast? = some newline then
    if x.dropLast.getLast? = some carriageReturn then x.dropLast.dropLast else x.dropLast
  else x

/-- What a reader leaves of a key: the bytes `x` in its block, of which `k` are the key. -/
structure Filled (key : KeyBytes) (x k : Bytes) (key' : KeyBytes) : Prop where
  block : key'.block = overwrite key.block 0 x
  bytes : key'.bytes = k
  outgrown : key'.outgrown = key.outgrown

theorem KeyBytes.bytes_length (key : KeyBytes) : key.bytes.length = key.size := by
  rw [bytes, List.length_take]
  exact Nat.min_eq_left key.size_le

theorem popBack_bytes (key : KeyBytes) : key.popBack.bytes = key.bytes.dropLast := by
  rw [List.dropLast_eq_take, key.bytes_length, KeyBytes.bytes, KeyBytes.bytes, List.take_take,
    Nat.min_eq_left (Nat.sub_le _ _)]
  rfl

theorem strip_filled {k : Bytes} {key' : KeyBytes} (h : Filled key x k key') :
    Filled key x (stripped k) (stripOneTrailingNewline key') := by
  unfold stripOneTrailingNewline stripped
  rw [popBack_bytes, h.bytes]
  split
  · split
    · exact ⟨h.block, by rw [popBack_bytes, popBack_bytes, h.bytes], h.outgrown⟩
    · exact ⟨h.block, by rw [popBack_bytes, h.bytes], h.outgrown⟩
  · exact h

theorem KeyBytes.make_run (con : Console) (m : Machine) : KeyBytes.make con m =
    (if con.vector m.time kMaxKeyFileSize = false then .error .badAlloc else .ok (KeyBytes.reserved con), m) := by
  unfold KeyBytes.make KeyBytes.newBlock throwIf
  rw [bind_assoc, bind_ok (show state m = (.ok m, m) from rfl)]
  split <;> rfl

theorem KeyBytes.make_time (con : Console) (m : Machine) : (KeyBytes.make con m).2.time = m.time := by
  rw [KeyBytes.make_run]

/-- What fits into the block is put there. -/
theorem assign_filled (con : Console) (hx : x.length ≤ key.block.length) :
    ∃ key', Filled key x x key' ∧ ∀ m, key.assign con x m = (.ok key', m) := by
  refine ⟨⟨overwrite key.block 0 x, x.length, by rw [overwrite_length (by omega)]; exact hx, key.outgrown⟩,
    ⟨rfl, by rw [KeyBytes.bytes, ← slice_take]; exact overwrite_prefix hx, rfl⟩, fun m => ?_⟩
  rw [KeyBytes.assign, dif_pos hx]
  rfl

/-! ### The readers -/

section Reads

variable {path : Path} {f : Bytes}

theorem sysOpen_closed (h : opened os m path = none) :
    Steps (sysOpen os path) m 1 (.ok none) { m with time := m.time + 1 } := by
  intro k
  rw [sysOpen, syscall, Nat.add_comm 1 k]
  unfold opened at h
  rcases he : (os.follow path).bind m.disk.entry with _ | inode
  · simp only
  · rw [he, Option.bind_some] at h
    by_cases hok : os.openOk m.time = true
    · rw [if_pos hok] at h
      cases h
    · simp only [if_neg hok]

theorem sysOpen_opened (h : opened os m path = some f) : ∃ inode, m.contents inode = f ∧
    Steps (sysOpen os path) m 1 (.ok (some m.fds.length)) { m.push inode with time := m.time + 1 } := by
  unfold opened at h
  obtain ⟨inode, he, h⟩ := Option.bind_eq_some_iff.mp h
  by_cases hok : os.openOk m.time = true
  · rw [if_pos hok] at h
    refine ⟨inode, Option.some.inj h, fun k => ?_⟩
    rw [sysOpen, syscall, Nat.add_comm 1 k]
    simp only [he, if_pos hok]
    rfl
  · rw [if_neg hok] at h
    cases h

/-- `ReadKeyFile` of a path that cannot be opened. -/
theorem readKeyFile_closed (con : Console) (key : KeyBytes) (h : opened os m path = none) :
    ∃ m', Returns (readKeyFile os con path key) m (.ok ⟨(some (.cannotOpenKeyFile path), key), none⟩) m' ∧
      m'.st = m.st ∧ m'.disk = m.disk :=
  ⟨{ m with time := m.time + 1 }, ⟨1 + 0, (sysOpen_closed h).bind (Steps.of_eq fun _ => rfl)⟩, rfl, rfl⟩

/-- What `ReadKeyFile` gets, up to one byte more than a key may have. -/
def fileBytes (os : Os) (m : Machine) (f : Bytes) : Bytes :=
  arriving os (kMaxKeyFileSize + 1) (m.time + 1) (kMaxKeyFileSize + 1) f

theorem fileBytes_le (os : Os) (m : Machine) (f : Bytes) :
    fileBytes os m f <+: f ∧ (fileBytes os m f).length ≤ kMaxKeyFileSize + 1 := arriving_le ..

/-- `ReadKeyFile` of a file that can be opened: too much arrives, or what arrives is the key. -/
theorem readKeyFile_opened (con : Console) (hkey : key.block.length = kMaxKeyFileSize) (h : opened os m path = some f) :
    ∃ r m', Returns (readKeyFile os con path key) m (.ok r) m' ∧ m'.st = m.st ∧ m'.disk = m.disk ∧
      ((fileBytes os m f).length > kMaxKeyFileSize ∧
        r = ⟨(some (.keyFileTooLarge path), key), some (fileBytes os m f)⟩ ∨
        (fileBytes os m f).length ≤ kMaxKeyFileSize ∧
        ∃ key', Filled key (fileBytes os m f) (stripped (fileBytes os m f)) key' ∧
          r = ⟨(none, key'), some (zeros (kMaxKeyFileSize + 1))⟩) := by
  obtain ⟨inode, hf, hopen⟩ := sysOpen_opened h
  have hdesc : ({ m.push inode with time := m.time + 1 } : Machine).desc m.fds.length = some ⟨inode, 0, true⟩ :=
    Machine.desc_push m inode
  have hstream : ({ m.push inode with time := m.time + 1 } : Machine).stream m.fds.length = f := by
    rw [Machine.stream, hdesc, ← hf]
    rfl
  obtain ⟨c, m1, hread, hst, hdisk⟩ := freadLoop_steps os (kMaxKeyFileSize + 1) (kMaxKeyFileSize + 1) [] _ ⟨_, hdesc⟩
  rw [hstream, List.nil_append, List.length_nil, Nat.sub_zero] at hread
  change Steps _ _ _ (.ok (fileBytes os m f)) m1 at hread
  have hle := (fileBytes_le os m f).2
  generalize fileBytes os m f = x at hread hle ⊢
  have hclose := sysClose_steps os m.fds.length m1
  by_cases hlarge : x.length > kMaxKeyFileSize
  · have hall : overwrite (con.garbage (kMaxKeyFileSize + 1)).1 0 x = x := by
      have hlen : (con.garbage (kMaxKeyFileSize + 1)).1.length = x.length := by
        rw [byteVec_length]
        omega
      rw [overwrite, Nat.zero_add, ← hlen, List.drop_length]
      simp
    refine ⟨_, { m1.shut m.fds.length with time := m1.time + 1 },
      ⟨1 + (c + (1 + 0)), hopen.bind (hread.bind (hclose.bind (Steps.of_eq fun k => ?_)))⟩, hst, hdisk,
        .inl ⟨hlarge, rfl⟩⟩
    rw [hall, if_pos hlarge]
    rfl
  · have hfits : x.length ≤ kMaxKeyFileSize := Nat.le_of_not_lt hlarge
    have htake : (overwrite (con.garbage (kMaxKeyFileSize + 1)).1 0 x).take x.length = x := by
      rw [← slice_take]
      exact overwrite_prefix (by rw [byteVec_length]; omega)
    have hlen : (overwrite (con.garbage (kMaxKeyFileSize + 1)).1 0 x).length = kMaxKeyFileSize + 1 := by
      rw [overwrite_length (by rw [byteVec_length]; omega), byteVec_length]
    obtain ⟨key', hfilled, hassign⟩ := assign_filled con (hkey ▸ hfits : x.length ≤ key.block.length)
    refine ⟨_, { m1.shut m.fds.length with time := m1.time + 1 },
      ⟨1 + (c + (1 + 0)), hopen.bind (hread.bind (hclose.bind (Steps.of_eq fun k => ?_)))⟩, hst, hdisk,
        .inr ⟨hfits, _, strip_filled hfilled, rfl⟩⟩
    rw [if_neg hlarge, htake, bind_ok (hassign _), secureZero, hlen]
    rfl

end Reads

section Prompt

/-- What `fgets` stores of the line, but for the NUL after it. -/
def line (con : Console) : Bytes := (firstLine con.typed).take kMaxKeyFileSize

/-- `fgets` returns no line: there is none, or reading fails before its end. -/
def Unread (con : Console) : Prop :=
  line con = [] ∨ (line con).length < kMaxKeyFileSize ∧ (line con).getLast? ≠ some newline ∧ con.broken = true

/-- The terminal answers. -/
structure Asked (con : Console) (t : ℕ) : Prop where
  isatty : con.isatty t = true
  tcgetattrOk : con.tcgetattrOk (t + 1) = true
  tcsetattrOk : con.tcsetattrOk (t + 2) = true

theorem fgets_unread {buffer : Bytes} (hb : buffer.length = kMaxKeyFileSize + 1) (h : Unread con) :
    fgets con buffer = (false, overwrite buffer 0 (line con)) := by
  have hline : (firstLine con.typed).take (buffer.length - 1) = line con := by rw [hb]; rfl
  have hlen : buffer.length - 1 = kMaxKeyFileSize := by rw [hb]; rfl
  unfold fgets
  rw [hline, hlen]
  dsimp only
  split
  · rfl
  · rename_i hend
    have hnil : line con = [] := h.resolve_right hend
    rw [if_pos hnil, hnil, overwrite_nil]

theorem fgets_read {buffer : Bytes} (hb : buffer.length = kMaxKeyFileSize + 1) (h : ¬ Unread con) :
    fgets con buffer = (true, overwrite buffer 0 (line con ++ [0])) := by
  have hline : (firstLine con.typed).take (buffer.length - 1) = line con := by rw [hb]; rfl
  have hlen : buffer.length - 1 = kMaxKeyFileSize := by rw [hb]; rfl
  obtain ⟨hnil, hend⟩ := not_or.mp h
  unfold fgets
  rw [hline, hlen]
  dsimp only
  rw [if_neg hend, if_neg hnil]

/-- The line up to its first NUL. -/
def typedKey (con : Console) : Bytes := (line con).takeWhile (· ≠ 0)

theorem takeWhile_overwrite {b x : Bytes} : (overwrite b 0 (x ++ [0])).takeWhile (· ≠ 0) = x.takeWhile (· ≠ 0) := by
  rw [overwrite, List.take_zero, List.nil_append, List.append_assoc, List.takeWhile_append]
  split
  · rename_i hall
    rw [List.singleton_append, List.takeWhile_cons_of_neg (by simp), List.append_nil]
    exact ((List.takeWhile_prefix _).eq_of_length hall).symm
  · rfl

theorem line_length_le (con : Console) : (line con).length ≤ kMaxKeyFileSize := by
  rw [line, List.length_take]
  exact Nat.min_le_left ..

/-- The line has no NUL, fills the array, and does not end there. -/
def Overlong (con : Console) : Prop := (typedKey con).length = kMaxKeyFileSize ∧ (line con).getLast? ≠ some newline

theorem answer_steps (f : ℕ → Bool) (m : Machine) :
    Steps (answer f) m 1 (.ok (f m.time)) { m with time := m.time + 1 } :=
  Steps.syscall (fun _ _ _ => rfl) m

/-- A line as long as the array, up to its NUL, has no NUL. -/
theorem typedKey_full (h : (typedKey con).length = kMaxKeyFileSize) : typedKey con = line con := by
  have hpre : typedKey con <+: line con := List.takeWhile_prefix _
  exact hpre.eq_of_length (Nat.le_antisymm hpre.length_le (h ▸ line_length_le con))

/-- The check that `ReadKeyPrompt` makes of its array finds the lines that are too long. -/
theorem overlong_iff (con : Console) {buffer : Bytes} (hb : buffer.length = kMaxKeyFileSize + 1) {b : Bytes}
    (he : b = overwrite buffer 0 (line con ++ [0])) :
    (strlen b = b.length - 1 ∧ b[strlen b - 1]? ≠ some newline) ↔ Overlong con := by
  have hle := line_length_le con
  have hlen : b.length = kMaxKeyFileSize + 1 := by
    rw [he, overwrite_length (by rw [List.length_append, List.length_singleton, hb]; omega), hb]
  have hstrlen : strlen b = (typedKey con).length := by rw [strlen, he, takeWhile_overwrite, typedKey]
  rw [hstrlen, hlen, Nat.add_sub_cancel, Overlong]
  refine and_congr_right fun hfull => ?_
  have hline : (line con).length = kMaxKeyFileSize := by rw [← typedKey_full hfull, hfull]
  have hget : b[kMaxKeyFileSize - 1]? = (line con).getLast? := by
    rw [he, overwrite, List.take_zero, List.nil_append, List.append_assoc,
      List.getElem?_append_left (by rw [hline]; decide), List.getLast?_eq_getElem?, hline]
  rw [hfull, hget]

/-- What `ReadKeyPrompt` returns, once it has asked. -/
inductive Prompted (con : Console) (key : KeyBytes) : Frame (Option Diagnostic × KeyBytes) → Prop
  | unread (h : Unread con) : Prompted con key
      ⟨(some .noKeyRead, key), some (overwrite (con.garbage (kMaxKeyFileSize + 1)).1 0 (line con))⟩
  | overlong (hr : ¬ Unread con) (h : Overlong con) :
      Prompted con key ⟨(some .keyTooLong, key), some (zeros (kMaxKeyFileSize + 1))⟩
  | read (hr : ¬ Unread con) (h : ¬ Overlong con) {key'}
      (hf : Filled key (typedKey con) (stripped (typedKey con)) key') :
      Prompted con key ⟨(none, key'), some (zeros (kMaxKeyFileSize + 1))⟩

/-- `ReadKeyPrompt` where the terminal does not answer. -/
theorem readKeyPrompt_unasked (con : Console) (key : KeyBytes) (h : ¬ Asked con m.time) :
    ∃ d m', Returns (readKeyPrompt con key) m (.ok ⟨(some d, key), none⟩) m' ∧ m'.st = m.st ∧ m'.disk = m.disk ∧
      d ∈ [Diagnostic.notATerminal, .noTerminalSettings, .cannotDisableEcho] := by
  have h1 := answer_steps con.isatty m
  have h2 := answer_steps con.tcgetattrOk { m with time := m.time + 1 }
  have h3 := answer_steps con.tcsetattrOk { m with time := m.time + 1 + 1 }
  rcases ha : con.isatty m.time with _ | _ <;> rw [ha] at h1
  · exact ⟨_, _, ⟨1 + 0, h1.bind (Steps.of_eq fun _ => rfl)⟩, rfl, rfl, by simp⟩
  rcases hb : con.tcgetattrOk (m.time + 1) with _ | _ <;> rw [hb] at h2
  · exact ⟨_, _, ⟨1 + (1 + 0), h1.bind (h2.bind (Steps.of_eq fun _ => rfl))⟩, rfl, rfl, by simp⟩
  rcases hc : con.tcsetattrOk (m.time + 1 + 1) with _ | _ <;> rw [hc] at h3
  · exact ⟨_, _, ⟨1 + (1 + (1 + 0)), h1.bind (h2.bind (h3.bind (Steps.of_eq fun _ => rfl)))⟩, rfl, rfl, by simp⟩
  · exact absurd ⟨ha, hb, hc⟩ h

/-- Where the terminal answers, what comes after the questions is run. -/
theorem Asked.steps {α : Type} {p q r f : Sys α} {c : ℕ} {a : Except Stop α} (h : Asked con m.time)
    (hf : Steps f { m with time := m.time + 1 + 1 + 1 } c a m') :
    Steps (do
      let tty ← answer con.isatty
      if tty = false then p else do
      let original ← answer con.tcgetattrOk
      if original = false then q else do
      let quiet ← answer con.tcsetattrOk
      if quiet = false then r else f) m (1 + (1 + (1 + c))) a m' := by
  have h1 := answer_steps con.isatty m
  have h2 := answer_steps con.tcgetattrOk { m with time := m.time + 1 }
  have h3 := answer_steps con.tcsetattrOk { m with time := m.time + 1 + 1 }
  rw [h.isatty] at h1
  rw [show con.tcgetattrOk (m.time + 1) = true from h.tcgetattrOk] at h2
  rw [show con.tcsetattrOk (m.time + 1 + 1) = true from h.tcsetattrOk] at h3
  refine h1.bind ?_
  rw [if_neg (by decide)]
  refine h2.bind ?_
  rw [if_neg (by decide)]
  refine h3.bind ?_
  rw [if_neg (by decide)]
  exact hf

/-- **What `ReadKeyPrompt` makes of the line that is typed.** -/
theorem readKeyPrompt_asked (hkey : key.block.length = kMaxKeyFileSize) (h : Asked con m.time) :
    ∃ r m', Returns (readKeyPrompt con key) m (.ok r) m' ∧ m'.st = m.st ∧ m'.disk = m.disk ∧ Prompted con key r := by
  have hgets : ∀ {p}, fgets con (con.garbage (kMaxKeyFileSize + 1)).1 = p →
      Steps (syscall fun _ m => (fgets con (con.garbage (kMaxKeyFileSize + 1)).1, m))
        { m with time := m.time + 1 + 1 + 1 } 1 (.ok p) { m with time := m.time + 1 + 1 + 1 + 1 } := by
    rintro p rfl
    exact Steps.syscall (fun _ _ _ => rfl) _
  have h5 := answer_steps con.tcsetattrOk { m with time := m.time + 1 + 1 + 1 + 1 }
  have hg : (con.garbage (kMaxKeyFileSize + 1)).1.length = kMaxKeyFileSize + 1 := byteVec_length _
  by_cases hu : Unread con
  · exact ⟨_, { m with time := m.time + 1 + 1 + 1 + 1 + 1 },
      ⟨1 + (1 + (1 + (1 + (1 + 0)))), h.steps ((hgets (fgets_unread hg hu)).bind (h5.bind (Steps.of_eq fun _ => rfl)))⟩,
        rfl, rfl, .unread hu⟩
  have hread := hgets (fgets_read hg hu)
  have hover := overlong_iff con hg rfl
  have hlen : (overwrite (con.garbage (kMaxKeyFileSize + 1)).1 0 (line con ++ [0])).length = kMaxKeyFileSize + 1 := by
    rw [overwrite_length (by rw [List.length_append, List.length_singleton, hg]; have := line_length_le con; omega), hg]
  have htake : (overwrite (con.garbage (kMaxKeyFileSize + 1)).1 0 (line con ++ [0])).take
      (strlen (overwrite (con.garbage (kMaxKeyFileSize + 1)).1 0 (line con ++ [0]))) = typedKey con := by
    rw [strlen, ← List.prefix_iff_eq_take.mp (List.takeWhile_prefix _), takeWhile_overwrite, typedKey]
  generalize overwrite (con.garbage (kMaxKeyFileSize + 1)).1 0 (line con ++ [0]) = b at hread hover hlen htake
  by_cases ho : Overlong con
  · refine ⟨_, { m with time := m.time + 1 + 1 + 1 + 1 + 1 },
      ⟨1 + (1 + (1 + (1 + (1 + 0)))), h.steps (hread.bind (h5.bind ?_))⟩, rfl, rfl, .overlong hu ho⟩
    rw [if_neg (by decide), if_pos (hover.mpr ho), secureZero, hlen]
    exact Steps.of_eq fun _ => rfl
  · have hfits : (typedKey con).length ≤ key.block.length := by
      rw [hkey]
      exact le_trans (List.takeWhile_prefix _).length_le (line_length_le con)
    obtain ⟨key', hfilled, hassign⟩ := assign_filled con hfits
    refine ⟨_, { m with time := m.time + 1 + 1 + 1 + 1 + 1 },
      ⟨1 + (1 + (1 + (1 + (1 + 0)))), h.steps (hread.bind (h5.bind ?_))⟩, rfl, rfl,
      .read hu ho (strip_filled hfilled)⟩
    rw [if_neg (by decide), if_neg (mt hover.mp ho), secureZero, hlen, htake]
    exact Steps.of_eq fun _ => by rw [bind_ok (hassign _)]; rfl

end Prompt

end ModelCrypt.Cli
