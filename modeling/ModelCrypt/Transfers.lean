/-
# The transfer loops call by call

`Calls` is the history of the calls a loop made: what each was offered and how
it ended. `ReadFully` and `WriteFully` lose no byte and move none twice: what
their calls moved, put together, is what they were to move, or its beginning
when they stop (`transfers_exact`).

`ReadFully` returns if interruptions end at some time; the bytes left and the
time until then decrease. `WriteFully` need not: a `write` that returns 0 is
neither an error nor progress, so the loop returns exactly if there is an error
at some time, or the counts add up to the size (`transfers_return`).

Key definitions: `Calls`, `moved`, `Machine.stream`, `Wrote`, `Halts`, `GetsThrough`.
Key theorems: `Calls.wrote`, `ends_readFully_calls`, `ends_writeFully_calls`, `transfers_exact`,
`readFully_halts`, `writeFully_returns_iff`, `transfers_return`.
-/
import Mathlib.Algebra.BigOperators.Group.Finset.Basic
import Mathlib.Algebra.BigOperators.Intervals
import ModelCrypt.FileAgree

namespace ModelCrypt

open Lib Prog Fileio

variable {os : Os} {m m' m0 : Machine} {fd k done size : ℕ} {x y : Bytes} {p q : Ptr}

/-! ### Calls -/

/-- What is left to read at a descriptor. -/
def Machine.stream (m : Machine) (fd : ℕ) : Bytes := (m.desc fd).elim [] fun e => (m.contents e.inode).drop e.pos

/-- A history of calls, each with the bytes it was offered and how it ended. -/
inductive Calls (call : Machine → Bytes × Transfer → Machine → Prop) (m : Machine) : List (Bytes × Transfer) →
    Machine → Prop
  | nil : Calls call m [] m
  | snoc {hist c m1 m2} (h : Calls call m hist m1) (hc : call m1 c m2) : Calls call m (hist ++ [c]) m2

/-- The bytes that a call moved: as many as it counts, of those it was offered. -/
def moved : Bytes × Transfer → Bytes
  | (x, .count n) => x.take n
  | (_, .eintr) => []
  | (_, .error) => []

/-- What the calls moved, put together. -/
def movedAll (hist : List (Bytes × Transfer)) : Bytes := (hist.map moved).flatten

theorem movedAll_snoc (hist : List (Bytes × Transfer)) (c : Bytes × Transfer) :
    movedAll (hist ++ [c]) = movedAll hist ++ moved c := by
  simp [movedAll]

theorem moved_start (c : Bytes × Transfer) : moved c <+: c.1 := by
  rcases c with ⟨x, n | _ | _⟩
  · exact List.take_prefix n x
  · exact List.nil_prefix
  · exact List.nil_prefix

/-- A call of `read`, which is offered the rest of the stream. -/
def ReadCall (os : Os) (fd : ℕ) (m : Machine) (c : Bytes × Transfer) (m' : Machine) : Prop :=
  c.1 = m.stream fd ∧ ∃ q k, sysRead os fd q k m = (.ok c.2, m')

/-- A call of `write`, which is offered the bytes at its pointer. -/
def WriteCall (os : Os) (fd : ℕ) (m : Machine) (c : Bytes × Transfer) (m' : Machine) : Prop :=
  ∃ q k, load q k m.st = (.ok c.1, m.st) ∧ sysWrite os fd q k m = (.ok c.2, m')

/-- The last call of a history ended in one of these ways. -/
def EndsIn (hist : List (Bytes × Transfer)) (ts : List Transfer) : Prop := ∃ hist' c, hist = hist' ++ [c] ∧ c.2 ∈ ts

/-! ### One call -/

/-- A write is one call, and leaves the memory. -/
theorem ends_writeCall (hl : load q k m.st = (.ok y, m.st)) : Ends (sysWrite os fd q k) m fun r m' =>
    m'.st = m.st ∧ (r = .error .powerLoss ∧ m' = m ∨ ∃ t, r = .ok t ∧ WriteCall os fd m (y, t) m' ∧
      ∀ n, t = .count n → n ≤ y.length) := by
  have hrun : Ends (sysWrite os fd q k) m fun r m' => m'.st = m.st ∧ (r = .error .powerLoss ∧ m' = m ∨
      ∃ t, r = .ok t ∧ ∀ n, t = .count n → n ≤ y.length) := by
    refine Ends.bind (ends_onSt (Q := fun r m' => r = .ok y ∧ m' = m) ?_) ?_ fun e m' h' => by cases h'.1
    · exact Ends.of_eq hl ⟨rfl, rfl⟩
    rintro a m1 ⟨ha, rfl⟩
    cases ha
    refine ends_syscall ⟨rfl, .inl ⟨rfl, rfl⟩⟩ fun t l => ?_
    rw [writeTransfer]
    rcases m1.desc fd with _ | e
    · exact ⟨rfl, .inr ⟨_, rfl, fun n hn => by cases hn⟩⟩
    rcases os.write m1.time with c | _ | _
    · exact ⟨rfl, .inr ⟨_, rfl, fun n hn => by cases hn; exact Nat.min_le_right c _⟩⟩
    · exact ⟨rfl, .inr ⟨_, rfl, fun n hn => by cases hn⟩⟩
    · exact ⟨rfl, .inr ⟨_, rfl, fun n hn => by cases hn⟩⟩
  obtain ⟨hst, hr⟩ := hrun
  refine ⟨hst, hr.imp id ?_⟩
  rintro ⟨t, ht, hn⟩
  exact ⟨t, ht, ⟨q, k, hl, run_eq ht⟩, hn⟩

/-- A read is one call: it takes the next bytes of the stream and stores them at its pointer. -/
theorem ends_readCall (hq : q.Fits k m.st.heap.get) : Ends (sysRead os fd q k) m fun r m' =>
    m'.disk = m.disk ∧ (r = .error .powerLoss ∧ m' = m ∨ ∃ t, r = .ok t ∧ ReadCall os fd m (m.stream fd, t) m' ∧
      (moved (m.stream fd, t)).length ≤ k ∧ (∀ n, t = .count n → n = (moved (m.stream fd, t)).length) ∧
      m'.stream fd = (m.stream fd).drop (moved (m.stream fd, t)).length ∧
      Heap.Becomes m.st.heap m'.st.heap (q.put (moved (m.stream fd, t)) m.st.heap.get)) := by
  have hrun : Ends (sysRead os fd q k) m fun r m' => m'.disk = m.disk ∧
    (r = .error .powerLoss ∧ m' = m ∨ ∃ t, r = .ok t ∧
      (moved (m.stream fd, t)).length ≤ k ∧ (∀ n, t = .count n → n = (moved (m.stream fd, t)).length) ∧
      m'.stream fd = (m.stream fd).drop (moved (m.stream fd, t)).length ∧
      Heap.Becomes m.st.heap m'.st.heap (q.put (moved (m.stream fd, t)) m.st.heap.get)) := by
    refine Ends.bind (R := fun r m' => m'.disk = m.disk ∧ m'.st = m.st ∧ (r = .error .powerLoss ∧ m' = m ∨
      ∃ t, r = .ok (t, moved (m.stream fd, t)) ∧ (moved (m.stream fd, t)).length ≤ k ∧
        (∀ n, t = .count n → n = (moved (m.stream fd, t)).length) ∧
        m'.stream fd = (m.stream fd).drop (moved (m.stream fd, t)).length)) ?_ ?_ ?_
    · refine ends_syscall ⟨rfl, rfl, .inl ⟨rfl, rfl⟩⟩ fun t l => ?_
      rw [readTransfer]
      rcases hd : m.desc fd with _ | e
      · exact ⟨rfl, rfl, .inr ⟨.error, rfl, Nat.zero_le _, fun n hn => (by cases hn), rfl⟩⟩
      have hs : m.stream fd = (m.contents e.inode).drop e.pos := by rw [Machine.stream, hd, Option.elim_some]
      rcases os.read m.time with n | _ | _
      · have hmoved : moved (m.stream fd, .count (slice (m.contents e.inode) e.pos (min n k)).length) =
            slice (m.contents e.inode) e.pos (min n k) := by
          rw [hs]
          exact (List.prefix_iff_eq_take.mp (List.take_prefix (min n k) _)).symm
        refine ⟨rfl, rfl, .inr ⟨_, by rw [hmoved], ?_, ?_, ?_⟩⟩
        · rw [hmoved, slice_length]
          omega
        · intro n' hn'
          cases hn'
          rw [hmoved]
        · rw [hmoved, hs, List.drop_drop, Machine.stream, show ({ m.seek fd (slice (m.contents e.inode) e.pos
            (min n k)).length with time := t, left := l } : Machine).desc fd = _ from Machine.desc_seek hd _]
          rfl
      · exact ⟨rfl, rfl, .inr ⟨.eintr, rfl, Nat.zero_le _, fun n hn => (by cases hn), rfl⟩⟩
      · exact ⟨rfl, rfl, .inr ⟨.error, rfl, Nat.zero_le _, fun n hn => (by cases hn), rfl⟩⟩
    · rintro ⟨t, z⟩ m1 ⟨hd1, hst1, hr⟩
      rcases hr with ⟨hr, -⟩ | ⟨t', hr, h1, h2, h3⟩ <;> cases hr
      rw [← hst1] at hq
      obtain ⟨s2, hst, -, hb⟩ := store_run (hq.le h1)
      have hrun : onSt (store q (moved (m.stream fd, t))) m1 = (.ok (), { m1 with st := s2 }) := by rw [onSt_run, hst]
      refine Ends.step hrun ⟨hd1, .inr ⟨t, rfl, h1, h2, h3, ?_⟩⟩
      rw [← hst1]
      exact hb
    · rintro e m1 ⟨hd1, hst1, ⟨hr, rfl⟩ | ⟨t, hr, -⟩⟩ <;> cases hr
      exact ⟨rfl, .inl ⟨rfl, rfl⟩⟩
  obtain ⟨hd, hr⟩ := hrun
  refine ⟨hd, hr.imp id ?_⟩
  rintro ⟨t, ht, h1, h2, h3, h4⟩
  exact ⟨t, ht, ⟨rfl, q, k, run_eq ht⟩, h1, h2, h3, h4⟩

/-- The file behind a descriptor that was `e` is what it was, `f`, with `x` written over it there. -/
structure Wrote (fd : ℕ) (e : Descriptor) (f x : Bytes) (m : Machine) : Prop where
  desc : m.desc fd = some { e with pos := e.pos + x.length }
  contents : m.contents e.inode = overwrite f e.pos x
  lt : e.inode < m.disk.inodes.length

/-- A write writes what it moves where the last one ended. -/
theorem Wrote.call {e : Descriptor} {f : Bytes} {c : Bytes × Transfer} (h : Wrote fd e f x m) (hpos : e.pos ≤ f.length)
    (hc : WriteCall os fd m c m') : Wrote fd e f (x ++ moved c) m' := by
  obtain ⟨y, t⟩ := c
  obtain ⟨q, k, hl, hrun⟩ := hc
  have hload : onSt (load q k) m = (.ok y, m) := by rw [onSt_run, hl]
  rw [sysWrite, bind_ok hload, syscall] at hrun
  rcases hleft : m.left with _ | n <;> rw [hleft] at hrun
  · cases hrun
  dsimp only at hrun
  rw [writeTransfer, h.desc] at hrun
  rcases hw : os.write m.time with k | _ | _ <;> rw [hw] at hrun <;> cases hrun
  · obtain ⟨i, hi⟩ : ∃ i, m.disk.inodes[e.inode]? = some i := ⟨_, List.getElem?_eq_getElem h.lt⟩
    have hdata : i.now.data = overwrite f e.pos x := by rw [← h.contents, Machine.contents, hi, Option.elim_some]
    have hlen : (overwrite f e.pos x).length = max f.length (e.pos + x.length) := by
      simp only [overwrite, List.length_append, List.length_take, List.length_drop]
      omega
    have htake : moved (y, .count (min k y.length)) = y.take k := List.take_eq_take_min.symm
    rw [htake]
    refine ⟨?_, ?_, ?_⟩
    · have hseek := Machine.desc_seek (m := m.touch e.inode (·.write (e.pos + x.length) (y.take k))) h.desc
        (min k y.length)
      rw [List.length_append, List.length_take, ← Nat.add_assoc]
      exact hseek
    · show (Option.elim ((m.disk.inodes.modify e.inode _)[e.inode]?) [] _ : Bytes) = _
      rw [List.getElem?_modify_eq, hi]
      show overwrite (i.now.data ++ zeros (e.pos + x.length - i.now.data.length)) (e.pos + x.length) (y.take k) = _
      rw [hdata, hlen, Nat.sub_eq_zero_of_le (Nat.le_max_right _ _), zeros_zero, List.append_nil, overwrite_append hpos]
    · show e.inode < (m.disk.inodes.modify e.inode _).length
      rw [List.length_modify]
      exact h.lt
  · exact (List.append_nil x).symm ▸ ⟨h.desc, h.contents, h.lt⟩
  · exact (List.append_nil x).symm ▸ ⟨h.desc, h.contents, h.lt⟩

/-- **What the calls moved, put together, is what the file got.** By induction on the history. -/
theorem Calls.wrote {hist : List (Bytes × Transfer)} (h : Calls (WriteCall os fd) m hist m') {e : Descriptor}
    (he : m.desc fd = some e) (hlt : e.inode < m.disk.inodes.length) (hpos : e.pos ≤ (m.contents e.inode).length) :
    Wrote fd e (m.contents e.inode) (movedAll hist) m' := by
  induction h with
  | nil => exact ⟨he, (overwrite_nil ..).symm, hlt⟩
  | snoc h hc ih =>
    rw [movedAll_snoc]
    exact ih.call hpos hc

/-! ### The loops -/

/-- What `WriteFully` did: it offered the bytes `x` until all of them were taken, or a call failed. -/
structure WroteFully (os : Os) (fd : ℕ) (x : Bytes) (m : Machine) (r : Except Stop Bool) (m' : Machine)
    (hist : List (Bytes × Transfer)) : Prop where
  calls : Calls (WriteCall os fd) m hist m'
  start : movedAll hist <+: x
  returned : r = .error .powerLoss ∨ r = .ok true ∧ movedAll hist = x ∨ r = .ok false ∧ EndsIn hist [.error]

/-- What `ReadFully` did: it moved the next bytes of the stream to the pointer, until there were `size` of them, or
a call failed or found the end of the file. -/
structure ReadFullyDid (os : Os) (fd : ℕ) (p : Ptr) (size : ℕ) (m : Machine) (r : Except Stop Bool) (m' : Machine)
    (hist : List (Bytes × Transfer)) : Prop where
  calls : Calls (ReadCall os fd) m hist m'
  start : movedAll hist <+: m.stream fd
  le_size : (movedAll hist).length ≤ size
  rest : m'.stream fd = (m.stream fd).drop (movedAll hist).length
  disk : m'.disk = m.disk
  /-- Nothing is written but these bytes at the pointer. -/
  memory : Heap.Becomes m.st.heap m'.st.heap (p.put (movedAll hist) m.st.heap.get)
  returned : r = .error .powerLoss ∨ r = .ok true ∧ (movedAll hist).length = size ∨
    r = .ok false ∧ (movedAll hist).length < size ∧ EndsIn hist [.error, .count 0]

/-- **WriteFully writes the bytes in order, each of them once.** The invariant: what was moved so far is the first
`done` bytes. -/
theorem ends_writeFully_calls (os : Os) (fd : ℕ) (hx : Supplies m.st p x) :
    Ends (writeFully os fd p x.length) m fun r m' => ∃ hist, WroteFully os fd x m r m' hist := by
  refine transferFully_ends (I := fun done m1 => m1.st = m.st ∧ done ≤ x.length ∧ ∃ hist,
    Calls (WriteCall os fd) m hist m1 ∧ movedAll hist = x.take done) ⟨rfl, Nat.zero_le _, [], .nil, rfl⟩ ?_ ?_ ?_
  · rintro done m1 hlt ⟨hst, hle, hist, hc, hm⟩
    have hload := hx done (x.length - done) (by omega)
    rw [← hst] at hload
    have hlen : (slice x done (x.length - done)).length = x.length - done := slice_length_of_le (by omega)
    refine (ends_writeCall hload).mono fun r m2 h2 => ?_
    obtain ⟨hst2, ⟨rfl, rfl⟩ | ⟨t, rfl, hcall, hn⟩⟩ := h2
    · refine ⟨fun e he => ?_, fun he => (by cases he), fun he => (by cases he), fun n he => (by cases he)⟩
      cases he
      exact ⟨hist, hc, hm ▸ List.take_prefix .., .inl rfl⟩
    have hsnoc := hc.snoc hcall
    have hmoved := movedAll_snoc hist (slice x done (x.length - done), t)
    refine ⟨fun e he => (by cases he), fun he => ?_, fun he => ?_, fun n he =>
      ⟨fun h0 => absurd h0.1 (by decide), fun _ => ?_⟩⟩
    · cases he
      exact ⟨hst2.trans hst, hle, _, hsnoc, by rw [hmoved, hm]; exact List.append_nil _⟩
    · cases he
      refine ⟨_, hsnoc, ?_, .inr (.inr ⟨rfl, hist, _, rfl, List.mem_singleton_self _⟩)⟩
      rw [hmoved, hm]
      exact (List.append_nil _).symm ▸ List.take_prefix ..
    · cases he
      have hle' := hn n rfl
      rw [hlen] at hle'
      refine ⟨hst2.trans hst, by omega, _, hsnoc, ?_⟩
      have hnext := slice_append_slice x 0 done n
      rw [Nat.zero_add, slice_take, slice_take] at hnext
      rw [hmoved, hm, ← hnext, moved, slice, slice, List.take_take, Nat.min_eq_left hle']
  · rintro done m1 hge ⟨-, hle, hist, hc, hm⟩
    rw [List.take_of_length_le hge] at hm
    exact ⟨hist, hc, hm ▸ List.prefix_rfl, .inr (.inl ⟨rfl, hm⟩)⟩
  · rintro done m1 ⟨-, -, hist, hc, hm⟩
    exact ⟨hist, hc, hm ▸ List.take_prefix .., .inl rfl⟩

/-- **ReadFully reads the next bytes in order, each of them once.** The invariant: what was moved so far is the first
`done` bytes of the stream, and is all that was written to memory. -/
theorem ends_readFully_calls (os : Os) (fd : ℕ) (hp : p.Fits size m.st.heap.get) :
    Ends (readFully os fd p size) m fun r m' => ∃ hist, ReadFullyDid os fd p size m r m' hist := by
  refine transferFully_ends (I := fun done m1 => ∃ hist, (movedAll hist).length = done ∧ done ≤ size ∧
    ReadFullyDid os fd p size m (.error .powerLoss) m1 hist) ⟨[], rfl, Nat.zero_le _, .nil, List.nil_prefix,
      Nat.zero_le _, rfl, rfl,
      (Heap.Becomes.refl _).cast (Ptr.put_nil ..).symm, .inl rfl⟩ ?_ ?_ ?_
  · rintro done m1 hlt ⟨hist, rfl, hle, h⟩
    have hfits : (p.add (movedAll hist).length).Fits (size - (movedAll hist).length) m1.st.heap.get := by
      rw [h.memory.get_eq]
      exact (hp.add hle).put (hp.le hle) (le_refl _)
    refine (ends_readCall hfits).mono fun r m2 h2 => ?_
    obtain ⟨hd2, ⟨rfl, rfl⟩ | ⟨t, rfl, hcall, hsz, hn, hrest, hmem⟩⟩ := h2
    · refine ⟨fun e he => ?_, fun he => (by cases he), fun he => (by cases he), fun n he => (by cases he)⟩
      cases he
      exact ⟨hist, h⟩
    have hmoved := movedAll_snoc hist (m1.stream fd, t)
    have hlen : (movedAll (hist ++ [(m1.stream fd, t)])).length =
      (movedAll hist).length + (moved (m1.stream fd, t)).length := by
      rw [hmoved, List.length_append]
    -- one more call, whatever it moved
    have hnext (r : Except Stop Bool) (hr : r = .error .powerLoss ∨ r = .ok true ∧
      (movedAll (hist ++ [(m1.stream fd, t)])).length = size ∨
        r = .ok false ∧ (movedAll (hist ++ [(m1.stream fd, t)])).length < size ∧
          EndsIn (hist ++ [(m1.stream fd, t)]) [.error, .count 0]) :
        ReadFullyDid os fd p size m r m2 (hist ++ [(m1.stream fd, t)]) := by
      have hle2 : (movedAll (hist ++ [(m1.stream fd, t)])).length ≤ size := by omega
      refine ⟨h.calls.snoc hcall, ?_, hle2, ?_, hd2.trans h.disk, ?_, hr⟩
      · obtain ⟨z, hz⟩ := h.start
        have hz' : z = m1.stream fd := by rw [h.rest, ← hz, List.drop_left]
        rw [hmoved, ← hz, hz']
        exact (List.prefix_append_right_inj _).mpr (moved_start _)
      · rw [hlen, ← List.drop_drop, ← h.rest]
        exact hrest
      · rw [hmoved]
        rw [h.memory.get_eq, Ptr.put_add hp (by omega)] at hmem
        exact h.memory.trans hmem
    refine ⟨fun e he => (by cases he), fun he => ?_, fun he => ?_, fun n he => ⟨fun h0 => ?_, fun h0 => ?_⟩⟩
    · cases he
      exact ⟨_, hlen, hle, hnext _ (.inl rfl)⟩
    · cases he
      exact ⟨_, hnext _ (.inr (.inr ⟨rfl, by rw [hlen]; exact hlt, hist, _, rfl, by simp⟩))⟩
    · cases he
      obtain ⟨-, rfl⟩ := h0
      exact ⟨_, hnext _ (.inr (.inr ⟨rfl, by rw [hlen]; exact hlt, hist, _, rfl, by simp⟩))⟩
    · cases he
      have hcount := hn n rfl
      exact ⟨_, by rw [hlen, ← hcount], by omega, hnext _ (.inl rfl)⟩
  · rintro done m1 hge ⟨hist, rfl, hle, h⟩
    exact ⟨hist, { h with returned := .inr (.inl ⟨rfl, by omega⟩) }⟩
  · rintro done m1 ⟨hist, -, -, h⟩
    exact ⟨hist, h⟩

/-- **The transfer loops lose no byte and move none twice.** Whatever the calls do, where `WriteFully` stops the file
has got what it offered, or the beginning of it, and where `ReadFully` stops the buffer has got the next bytes of the
file. -/
theorem transfers_exact (os : Os) (fd : ℕ) (m : Machine) (p q : Ptr) (x : Bytes) (size : ℕ) (hx : Supplies m.st p x)
    (hq : q.Fits size m.st.heap.get) :
    Ends (writeFully os fd p x.length) m (fun r m' => ∃ hist, WroteFully os fd x m r m' hist ∧
      ∀ e, m.desc fd = some e → e.inode < m.disk.inodes.length → e.pos ≤ (m.contents e.inode).length →
        Wrote fd e (m.contents e.inode) (movedAll hist) m') ∧
    Ends (readFully os fd q size) m (fun r m' => ∃ hist, ReadFullyDid os fd q size m r m' hist) := by
  refine ⟨(ends_writeFully_calls os fd hx).mono fun r m' h => ?_, ends_readFully_calls os fd hq⟩
  obtain ⟨hist, h⟩ := h
  exact ⟨hist, h, fun e he hlt hpos => h.calls.wrote he hlt hpos⟩

/-- Every other call is interrupted, and the others move one byte. -/
def choppyOs : Os :=
  let step (t : ℕ) : Transfer := if t % 2 = 0 then .eintr else .count 1
  { sampleOs 3 with read := step, write := step }

/-- The sample file is open, and there are two bytes of memory. -/
def openMachine : Machine :=
  { sampleMachine sampleFile with st := ⟨[⟨true, [7, 8]⟩], []⟩, fds := [⟨0, 0, true⟩] }

theorem openMachine_supplies : Supplies openMachine.st (.into 0 0) [7, 8] := fun off k hle => by
  rw [Ptr.add, Nat.zero_add]
  exact load_run rfl hle

/-- The conclusion at runs that end well. -/
theorem choppy_exact : (writeFully choppyOs 0 (.into 0 0) 2 openMachine).1 = .ok true ∧
    (readFully choppyOs 0 (.into 0 0) 2 openMachine).1 = .ok true ∧
    Ends (writeFully choppyOs 0 (.into 0 0) 2) openMachine (fun r m' => ∃ hist,
      WroteFully choppyOs 0 [7, 8] openMachine r m' hist ∧ ∀ e, openMachine.desc 0 = some e →
        e.inode < openMachine.disk.inodes.length → e.pos ≤ (openMachine.contents e.inode).length →
        Wrote 0 e (openMachine.contents e.inode) (movedAll hist) m') ∧
    Ends (readFully choppyOs 0 (.into 0 0) 2) openMachine (fun r m' => ∃ hist,
      ReadFullyDid choppyOs 0 (.into 0 0) 2 openMachine r m' hist) :=
  ⟨by decide +kernel, by decide +kernel, transfers_exact choppyOs 0 openMachine (.into 0 0) (.into 0 0) [7, 8] 2
    openMachine_supplies ⟨[7, 8], rfl, le_refl _⟩⟩

/-! ### Loops that return -/

section Loop

variable {call : ℕ → Sys Transfer} {stopAtZero : Bool} {t : Transfer} {m1 : Machine}

/-- The loop returns from here, whatever the number of calls left. -/
def Halts (call : ℕ → Sys Transfer) (stopAtZero : Bool) (size done : ℕ) (m : Machine) : Prop :=
  ∃ (c : ℕ) (r : Bool) (m' : Machine), ∀ fuel k, c < fuel →
    transferLoop call stopAtZero size fuel done { m with left := c + k } = (.ok r, { m' with left := k })

theorem Halts.whole (hge : size ≤ done) : Halts call stopAtZero size done m := by
  refine ⟨0, true, m, fun fuel k hf => ?_⟩
  obtain ⟨fuel, rfl⟩ : ∃ n, fuel = n + 1 := ⟨fuel - 1, by omega⟩
  rw [Nat.zero_add, transferLoop, if_neg (Nat.not_lt.mpr hge)]
  rfl

/-- One round: a call that ends the loop, or after which the loop returns. -/
theorem Halts.round (hlt : done < size) (hs : Steps (call done) m 1 (.ok t) m1)
    (heintr : t = .eintr → Halts call stopAtZero size done m1)
    (hcount : ∀ n, t = .count n → ¬ (stopAtZero = true ∧ n = 0) → Halts call stopAtZero size (done + n) m1) :
    Halts call stopAtZero size done m := by
  suffices h : ∃ (c : ℕ) (r : Bool) (m' : Machine), ∀ fuel k, c < fuel →
      transferLoop call stopAtZero size (fuel + 1) done { m with left := 1 + (c + k) } =
        (.ok r, { m' with left := k }) by
    obtain ⟨c, r, m', hl⟩ := h
    refine ⟨1 + c, r, m', fun fuel k hf => ?_⟩
    obtain ⟨fuel, rfl⟩ : ∃ n, fuel = n + 1 := ⟨fuel - 1, by omega⟩
    rw [Nat.add_assoc]
    exact hl fuel k (by omega)
  simp only [transferLoop, if_pos hlt, bind_ok (hs _)]
  rcases t with n | _ | _
  · by_cases h0 : stopAtZero = true ∧ n = 0
    · exact ⟨0, false, m1, fun fuel k _ => by simp only [if_pos h0, Nat.zero_add]; rfl⟩
    · obtain ⟨c, r, m', hl⟩ := hcount n rfl h0
      exact ⟨c, r, m', fun fuel k hf => by simp only [if_neg h0]; exact hl fuel k hf⟩
  · obtain ⟨c, r, m', hl⟩ := heintr rfl
    exact ⟨c, r, m', fun fuel k hf => hl fuel k hf⟩
  · exact ⟨0, false, m1, fun fuel k _ => by rw [Nat.zero_add]; rfl⟩

theorem Halts.returns (h : Halts call stopAtZero size 0 m) :
    ∃ r m', Returns (transferFully call stopAtZero size) m (.ok r) m' := by
  obtain ⟨c, r, m', hl⟩ := h
  exact ⟨r, m', c, fun k => hl (c + k + 1) k (by omega)⟩

end Loop

/-- Reading is one call, that is interrupted only where the system says so, and moves no more than was asked for. -/
theorem sysRead_one {k : ℕ} (os : Os) (fd : ℕ) (hq : q.Fits k m.st.heap.get) : ∃ t m',
    Steps (sysRead os fd q k) m 1 (.ok t) m' ∧ m'.time = m.time + 1 ∧ (t = .eintr → os.read m.time = .eintr) ∧
      (∀ n, t = .count n → n ≤ k) ∧ ∃ d, d.length ≤ k ∧ m'.st.heap.get = q.put d m.st.heap.get := by
  have hcall := Steps.syscall (readTransfer_left os fd k) m
  have hread : (readTransfer os fd k m.time m).2.st = m.st ∧
      ((readTransfer os fd k m.time m).1.1 = .eintr → os.read m.time = .eintr) ∧
      (∀ n, (readTransfer os fd k m.time m).1.1 = .count n → n ≤ k) ∧
        (readTransfer os fd k m.time m).1.2.length ≤ k := by
    rw [readTransfer]
    rcases m.desc fd with _ | e
    · exact ⟨rfl, fun h => (by cases h), fun n h => (by cases h), Nat.zero_le _⟩
    rcases os.read m.time with c | _ | _
    · have hle : (slice (m.contents e.inode) e.pos (min c k)).length ≤ k := by
        rw [slice_length]
        omega
      exact ⟨rfl, fun h => (by cases h), fun n h => (by cases h; exact hle), hle⟩
    · exact ⟨rfl, fun _ => rfl, fun n h => (by cases h), Nat.zero_le _⟩
    · exact ⟨rfl, fun h => (by cases h), fun n h => (by cases h), Nat.zero_le _⟩
  obtain ⟨hst, heintr, hcount, hle⟩ := hread
  generalize readTransfer os fd k m.time m = a at hcall hst heintr hcount hle
  obtain ⟨⟨t, d⟩, m1⟩ := a
  have hst1 : m1.st = m.st := hst
  have hfits : q.Fits d.length m1.st.heap.get := by
    rw [hst1]
    exact hq.le hle
  obtain ⟨s2, hs2, -, hb⟩ := store_run hfits
  have hstore := Steps.onSt (store q d) { m1 with time := m.time + 1 }
  rw [hs2] at hstore
  have hrun : Steps (sysRead os fd q k) m (1 + (0 + 0)) (.ok t) { m1 with time := m.time + 1, st := s2 } :=
    hcall.bind (hstore.bind (Steps.of_eq fun _ => rfl))
  refine ⟨t, _, hrun, rfl, heintr, hcount, d, hle, ?_⟩
  rw [← hst1]
  exact hb.get_eq

/-- **ReadFully returns, if interruptions end at some time**: a call that does not end the loop brings that time nearer,
or leaves fewer bytes to read. -/
theorem readFully_halts (os : Os) (fd : ℕ) (hp : p.Fits size m.st.heap.get) {T : ℕ}
    (hT : ∀ t, T ≤ t → os.read t ≠ .eintr) :
    ∃ r m', Returns (readFully os fd p size) m (.ok r) m' := by
  suffices h : ∀ k done m, T - m.time + (size - done) = k → done ≤ size → p.Fits size m.st.heap.get →
      Halts (fun done => sysRead os fd (p.add done) (size - done)) true size done m from
    (h _ 0 m rfl (Nat.zero_le _) hp).returns
  intro k
  induction k using Nat.strong_induction_on with
  | _ k ih =>
    intro done m hk hle hp
    by_cases hlt : done < size
    swap
    · exact Halts.whole (Nat.not_lt.mp hlt)
    obtain ⟨t, m1, hs, htime, heintr, hcount, d, hd, hget⟩ := sysRead_one os fd (hp.add hle)
    have hp1 : p.Fits size m1.st.heap.get := by
      rw [hget]
      exact hp.put (hp.add hle) hd
    refine Halts.round hlt hs (fun he => ?_) fun n hn h0 => ?_
    · have hlate : m.time < T := Nat.lt_of_not_le fun hge => hT m.time hge (heintr he)
      exact ih _ (by omega) done m1 rfl hle hp1
    · have hpos : n ≠ 0 := fun hz => h0 ⟨rfl, hz⟩
      have := hcount n hn
      exact ih _ (by omega) (done + n) m1 rfl (by omega) hp1

/-! ### What `WriteFully` waits for -/

/-- The bytes a call would take, if there were so many. -/
def Transfer.bytes : Transfer → ℕ
  | .count n => n
  | .eintr => 0
  | .error => 0

/-- There is an error at some time from `t` on, or the writes until then take `size` bytes. -/
def GetsThrough (os : Os) (t size : ℕ) : Prop :=
  ∃ j, os.write (t + j) = .error ∨ size ≤ ∑ i ∈ Finset.range j, (os.write (t + i)).bytes

theorem writeTransfer_left (os : Os) (fd : ℕ) (y : Bytes) (t : ℕ) (m : Machine) (k : ℕ) :
    writeTransfer os fd y t { m with left := k } =
      ((writeTransfer os fd y t m).1, { (writeTransfer os fd y t m).2 with left := k }) := by
  have hd : ({ m with left := k } : Machine).desc fd = m.desc fd := rfl
  rw [writeTransfer, writeTransfer, hd]
  rcases m.desc fd with _ | e
  · rfl
  · cases os.write t <;> rfl

/-- Writing is one call: what the system says of it, up to the bytes offered, if the descriptor is open. -/
theorem sysWrite_one (os : Os) {k : ℕ} {e : Descriptor} (hl : load q k m.st = (.ok y, m.st)) (hd : m.desc fd = some e) :
    ∃ t m',
    Steps (sysWrite os fd q k) m 1 (.ok t) m' ∧ m'.time = m.time + 1 ∧ m'.st = m.st ∧ (∃ e', m'.desc fd = some e') ∧
      (os.write m.time = .error ∧ t = .error ∨ os.write m.time = .eintr ∧ t = .eintr ∨
        ∃ n, os.write m.time = .count n ∧ t = .count (min n y.length)) := by
  have hload := Steps.onSt (load q k) m
  rw [hl] at hload
  have hrun : Steps (sysWrite os fd q k) m (0 + 1) (.ok (writeTransfer os fd y m.time m).1)
      { (writeTransfer os fd y m.time m).2 with time := m.time + 1 } :=
        hload.bind (Steps.syscall (writeTransfer_left os fd y) m)
  refine ⟨_, _, hrun, rfl, ?_⟩
  show (writeTransfer os fd y m.time m).2.st = m.st ∧ (∃ e', (writeTransfer os fd y m.time m).2.desc fd = some e') ∧ _
  rw [writeTransfer, hd]
  rcases os.write m.time with c | _ | _
  · exact ⟨rfl, ⟨_, Machine.desc_seek (m := m.touch e.inode _) hd _⟩, .inr (.inr ⟨c, rfl, rfl⟩)⟩
  · exact ⟨rfl, ⟨e, hd⟩, .inr (.inl ⟨rfl, rfl⟩)⟩
  · exact ⟨rfl, ⟨e, hd⟩, .inl ⟨rfl, rfl⟩⟩

/-- A program that makes one call stops where none is left, or ends in the way of that call. -/
theorem Steps.ends_one {α : Type} {a : Sys α} {r : Except Stop α} {Q : Except Stop α → Machine → Prop}
    (hs : Steps a m 1 r m')
    (lost : m.left = 0 → Ends a m Q) (h : ∀ k, Q r { m' with left := k }) : Ends a m Q := by
  rcases hleft : m.left with _ | n
  · exact lost hleft
  · have hrun : a m = (r, { m' with left := n }) := by
      rw [← hs n, Nat.add_comm, ← hleft]
    exact Ends.of_eq hrun (h n)

/-- The time of the first write counts first. -/
theorem sum_bytes_succ (os : Os) (t j : ℕ) : ∑ i ∈ Finset.range (j + 1), (os.write (t + i)).bytes =
    (∑ i ∈ Finset.range j, (os.write (t + 1 + i)).bytes) + (os.write t).bytes := by
  rw [Finset.sum_range_succ']
  simp only [Nat.add_zero, Nat.add_assoc, Nat.add_comm 1]

/-- **WriteFully returns, if the writes get through.** By induction on the number of calls until then. -/
theorem writeFully_halts (hx : Supplies m.st p x) {e : Descriptor} (hd : m.desc fd = some e)
    (h : GetsThrough os m.time x.length) : ∃ r m', Returns (writeFully os fd p x.length) m (.ok r) m' := by
  obtain ⟨j, hj⟩ := h
  suffices hall : ∀ j done m, (∃ e, m.desc fd = some e) → done ≤ x.length → Supplies m.st p x →
      (os.write (m.time + j) = .error ∨ x.length ≤ done + ∑ i ∈ Finset.range j, (os.write (m.time + i)).bytes) →
      Halts (fun done => sysWrite os fd (p.add done) (x.length - done)) false x.length done m from
    (hall j 0 m ⟨e, hd⟩ (Nat.zero_le _) hx (by rwa [Nat.zero_add])).returns
  clear hj hd hx
  intro j
  induction j with
  | zero =>
    rintro done m ⟨e, hd⟩ hle hx hj
    by_cases hlt : done < x.length
    swap
    · exact Halts.whole (Nat.not_lt.mp hlt)
    obtain ⟨t, m1, hs, -, -, -, ht⟩ := sysWrite_one os (hx done (x.length - done) (by omega)) hd
    have herror : os.write m.time = .error :=
      hj.resolve_right (by simp only [Finset.range_zero, Finset.sum_empty]; omega)
    rw [herror] at ht
    rcases ht with ⟨-, rfl⟩ | ⟨h, -⟩ | ⟨n, h, -⟩
    · exact Halts.round hlt hs (fun he => (by cases he)) fun n hn => (by cases hn)
    · cases h
    · cases h
  | succ j ih =>
    rintro done m ⟨e, hd⟩ hle hx hj
    by_cases hlt : done < x.length
    swap
    · exact Halts.whole (Nat.not_lt.mp hlt)
    obtain ⟨t, m1, hs, htime, hst, hd1, ht⟩ := sysWrite_one os (hx done (x.length - done) (by omega)) hd
    rw [slice_length_of_le (by omega)] at ht
    rw [← hst] at hx
    have hj1 : os.write (m1.time + j) = .error ∨ x.length ≤ done +
        ((∑ i ∈ Finset.range j, (os.write (m1.time + i)).bytes) + (os.write m.time).bytes) := by
      rw [htime, ← sum_bytes_succ, Nat.add_right_comm m.time 1 j]
      exact hj
    rcases ht with ⟨-, rfl⟩ | ⟨hw, rfl⟩ | ⟨n, hw, rfl⟩
    · exact Halts.round hlt hs (fun he => (by cases he)) fun n hn => (by cases hn)
    · rw [hw, Transfer.bytes, Nat.add_zero] at hj1
      exact Halts.round hlt hs (fun _ => ih done m1 hd1 hle hx hj1) fun n hn => (by cases hn)
    · rw [hw, Transfer.bytes] at hj1
      refine Halts.round hlt hs (fun he => (by cases he)) fun n' hn _ => ?_
      cases hn
      exact ih _ m1 hd1 (by omega) hx (hj1.imp_right fun h => by omega)

/-- **If the writes do not get through, WriteFully does not return**: it stops with the power only. The invariant:
what was done so far is no more than the writes so far took. -/
theorem ends_writeFully_stuck (hx : Supplies m.st p x) {e : Descriptor} (hd : m.desc fd = some e)
    (h : ¬ GetsThrough os m.time x.length) : Ends (writeFully os fd p x.length) m fun r _ => r = .error .powerLoss := by
  have hnot (j : ℕ) : os.write (m.time + j) ≠ .error ∧ ∑ i ∈ Finset.range j, (os.write (m.time + i)).bytes < x.length :=
    ⟨fun he => h ⟨j, .inl he⟩, Nat.lt_of_not_le fun hle => h ⟨j, .inr hle⟩⟩
  refine transferFully_ends (I := fun done m1 => m1.st = m.st ∧ (∃ e, m1.desc fd = some e) ∧ ∃ j, m1.time = m.time + j ∧
    done ≤ ∑ i ∈ Finset.range j, (os.write (m.time + i)).bytes) ⟨rfl, ⟨e, hd⟩, 0, rfl, Nat.zero_le _⟩ ?_ ?_
    fun _ _ _ => rfl
  · rintro done m1 hlt ⟨hst, ⟨e1, hd1⟩, j, htime, hle⟩
    have hload := hx done (x.length - done) (by omega)
    rw [← hst] at hload
    obtain ⟨t, m2, hs, htime2, hst2, hd2, ht⟩ := sysWrite_one os hload hd1
    have hsum := Finset.sum_range_succ (fun i => (os.write (m.time + i)).bytes) j
    refine hs.ends_one (fun h0 => ?_) fun k => ⟨fun e he => (by cases he), fun he => ?_, fun he => ?_, fun n he => ?_⟩
    · have hl1 : onSt (load (p.add done) (x.length - done)) m1 = (.ok (slice x done (x.length - done)), m1) := by
        rw [onSt_run, hload]
      have hrun : sysWrite os fd (p.add done) (x.length - done) m1 = (.error .powerLoss, m1) := by
        rw [sysWrite, bind_ok hl1, syscall, h0]
      refine Ends.of_eq hrun ⟨fun e he => (by cases he; rfl), fun he => (by cases he), fun he => (by cases he),
        fun n he => (by cases he)⟩
    · cases he
      exact ⟨hst2.trans hst, hd2, j + 1, by rw [htime2, htime, Nat.add_assoc], by omega⟩
    · cases he
      rcases ht with ⟨h, -⟩ | ⟨-, h⟩ | ⟨n, -, h⟩
      · exact absurd (htime ▸ h) (hnot j).1
      · cases h
      · cases h
    · cases he
      refine ⟨fun h0 => absurd h0.1 (by decide), fun _ => ⟨hst2.trans hst, hd2, j + 1,
        by rw [htime2, htime, Nat.add_assoc], ?_⟩⟩
      rcases ht with ⟨-, h⟩ | ⟨-, h⟩ | ⟨c, h, hn⟩
      · cases h
      · cases h
      · cases hn
        rw [htime] at h
        rw [h, Transfer.bytes] at hsum
        omega
  · rintro done m1 hge ⟨-, -, j, -, hle⟩
    exact absurd (hge.trans hle) (Nat.not_le.mpr (hnot j).2)

theorem writeFully_returns_iff (hx : Supplies m.st p x) {e : Descriptor} (hd : m.desc fd = some e) :
    (∃ r m', Returns (writeFully os fd p x.length) m (.ok r) m') ↔ GetsThrough os m.time x.length := by
  refine ⟨?_, writeFully_halts hx hd⟩
  rintro ⟨r, m', c, hs⟩
  by_contra h
  have hstuck (k : ℕ) : Ends (writeFully os fd p x.length) { m with left := k } fun r _ => r = .error .powerLoss :=
    ends_writeFully_stuck (m := { m with left := k }) hx hd h
  cases hs.ends hstuck

/-- **ReadFully returns if interruptions end, and WriteFully if the writes get through**: both do exactly if, besides,
there is an error at some time or the writes take all the bytes. A `write` of no bytes is neither. -/
theorem transfers_return (os : Os) (fd : ℕ) (e : Descriptor) (m : Machine) (p q : Ptr) (x : Bytes) (size : ℕ)
    (hd : m.desc fd = some e) (hx : Supplies m.st p x) (hq : q.Fits size m.st.heap.get)
    (heintr : ∃ T, ∀ t, T ≤ t → os.read t ≠ .eintr ∧ os.write t ≠ .eintr) :
    ((∃ r m', Returns (readFully os fd q size) m (.ok r) m') ∧
      ∃ r m', Returns (writeFully os fd p x.length) m (.ok r) m') ↔
      GetsThrough os m.time x.length := by
  obtain ⟨T, hT⟩ := heintr
  rw [writeFully_returns_iff hx hd]
  exact ⟨fun h => h.2, fun h => ⟨readFully_halts os fd hq fun t ht => (hT t ht).1, h⟩⟩

theorem openMachine_returns : ((∃ r m', Returns (readFully (sampleOs 3) 0 (.into 0 0) 2) openMachine (.ok r) m') ∧
    ∃ r m', Returns (writeFully (sampleOs 3) 0 (.into 0 0) 2) openMachine (.ok r) m') ↔ GetsThrough (sampleOs 3) 0 2 :=
  transfers_return (sampleOs 3) 0 ⟨0, 0, true⟩ openMachine (.into 0 0) (.into 0 0) [7, 8] 2 rfl openMachine_supplies
    ⟨[7, 8], rfl, le_refl _⟩ ⟨0, fun t _ => ⟨by simp [sampleOs], by simp [sampleOs]⟩⟩

/-- Every `write` returns 0. -/
def zeroOs : Os := { sampleOs 3 with write := fun _ => .count 0 }

/-- No call is interrupted, and `WriteFully` does not return. -/
theorem zeroOs_never_returns : (∀ t, zeroOs.read t ≠ .eintr ∧ zeroOs.write t ≠ .eintr) ∧
    ¬ ∃ r m', Returns (writeFully zeroOs 0 (.into 0 0) 2) openMachine (.ok r) m' := by
  refine ⟨fun t => ⟨by simp [zeroOs, sampleOs], by simp [zeroOs]⟩, fun h => ?_⟩
  obtain ⟨j, he | hle⟩ := (writeFully_returns_iff (e := ⟨0, 0, true⟩) openMachine_supplies rfl).mp h
  · cases he
  · simp [zeroOs, Transfer.bytes] at hle

end ModelCrypt
