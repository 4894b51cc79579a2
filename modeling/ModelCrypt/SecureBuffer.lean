/-
# SecureBuffer

`secure_buffer.cc`: a handle to at most one block, allocated zeroed and wiped
before it is freed. A C++ variable of this type is a handle passed along, and
its destructor is `guarded`: whatever the rest of the scope ends in, the block
is wiped and freed. `onStop` in its place is a scope that moves the buffer out
when it succeeds.

`Holds` says what a buffer holds in a memory, `InScope` that memory is as it
was but for one buffer. `sim_newBuffer` and `sim_guarded` are the rules for
entering and leaving a scope: a program with buffers refines one without.

Key definitions: `reset`, `wipeAndFree`, `guarded`, `SecureBuffer.Holds`, `InScope`.
Key theorems: `wipeAndFree_run`, `sim_newBuffer`, `sim_guarded`.
-/
import ModelCrypt.World

namespace ModelCrypt

open Lib Prog Function

/-- `SecureBuffer`: `data_` and `size_`. -/
structure SecureBuffer where
  data : Option ℕ := none
  size : ℕ := 0
  deriving DecidableEq, Repr

/-- `data()`. -/
def SecureBuffer.ptr (buf : SecureBuffer) : Ptr := buf.data.elim .null (Ptr.into · 0)

/-! ### The operations -/

/-- `SecureWipe`. -/
def secureWipe (p : Ptr) (size : ℕ) : Run Unit := if p = .null ∨ size = 0 then pure () else store p (zeros size)

/-- `delete[]`. -/
def deleteBlock (b : ℕ) : Run Unit := fun s =>
  match s.heap.free b with
  | some h => (.ok (), { s with heap := h })
  | none => (.error (.fault .blockBounds), s)

/-- `WipeAndFree`. -/
def wipeAndFree (buf : SecureBuffer) : Run SecureBuffer :=
  match buf.data with
  | none => pure buf
  | some b => do
    secureWipe buf.ptr buf.size
    deleteBlock b
    return {}

/-- A new block of zeros. -/
def newBlock (size : ℕ) : Run ℕ := fun s => (.ok s.heap.length, { s with heap := s.heap.alloc (zeros size) })

/-- `new (std::nothrow) uint8_t[size]()`. -/
def newBytes (w : World) (name : BufName) (size : ℕ) : Run (Option ℕ) := do
  let t ← clock
  emit (.alloc name size (w.alloc t size))
  if w.alloc t size then return some (← newBlock size) else return none

/-- `Reset`, with the buffer it leaves. -/
def reset (w : World) (name : BufName) (buf : SecureBuffer) (size : ℕ) : Run (Bool × SecureBuffer) := do
  let buf ← wipeAndFree buf
  if size = 0 then return (true, buf)
  match ← newBytes w name size with
  | none => return (false, buf)
  | some b => return (true, ⟨some b, size⟩)

/-- `SecureBuffer b; if (!b.Reset(size)) return MC_ERR_MEMORY;` -/
def newBuffer (w : World) (name : BufName) (size : ℕ) : Run SecureBuffer := do
  let (ok, buf) ← reset w name {} size
  returnIf (ok = false) .errMemory
  return buf

/-- The destructor. -/
def destroy (buf : SecureBuffer) : Run Unit := do
  let _ ← wipeAndFree buf

/-- The scope of a buffer that dies with it. -/
def guarded {α : Type} (buf : SecureBuffer) (body : Run α) : Run α := always body (destroy buf)

/-- `buf = std::move(other)`: the new `buf` and the new `other`. -/
def moveAssign (buf other : SecureBuffer) : Run (SecureBuffer × SecureBuffer) := do
  let _ ← wipeAndFree buf
  return (other, {})

/-- `new` as seen in the trace, with the check that follows it. -/
def Ref.alloc (w : World) (name : BufName) (size : ℕ) : Ref Unit := do
  if size = 0 then return ()
  let t ← Ref.clock
  Ref.emit (.alloc name size (w.alloc t size))
  Ref.returnIf (w.alloc t size = false) .errMemory

/-! ### What a buffer holds -/

/-- In the memory `g` the buffer holds `x`; it has no block exactly if `x` is empty. -/
inductive SecureBuffer.Holds (g : ℕ → Option Bytes) : SecureBuffer → Bytes → Prop
  | empty : Holds g {} []
  | block {b : ℕ} {x : Bytes} (hne : x ≠ []) (hb : g b = some x) : Holds g ⟨some b, x.length⟩ x

/-- The memory `g`, but for the buffer's block, which holds `x`. -/
def SecureBuffer.over (buf : SecureBuffer) (x : Bytes) (g : ℕ → Option Bytes) : ℕ → Option Bytes :=
  match buf.data with
  | none => g
  | some b => update g b (some x)

/-- The buffer's block is not in use in `g`. -/
def SecureBuffer.Fresh (buf : SecureBuffer) (g : ℕ → Option Bytes) : Prop := ∀ b, buf.data = some b → g b = none

namespace SecureBuffer

variable {g g' : ℕ → Option Bytes} {buf other : SecureBuffer} {x y : Bytes} {b : ℕ}

theorem Holds.size (hh : Holds g buf x) : buf.size = x.length := by
  cases hh <;> rfl

theorem Holds.of_data (hh : Holds g buf x) (hd : buf.data = some b) : g b = some x := by
  cases hh with
  | empty => cases hd
  | block hne hb =>
    cases hd
    exact hb

theorem Holds.ptr (hh : Holds g buf x) (hne : x ≠ []) :
    ∃ b, buf.data = some b ∧ buf.ptr = .into b 0 ∧ g b = some x := by
  cases hh with
  | empty => exact absurd rfl hne
  | block _ hb => exact ⟨_, rfl, rfl, hb⟩

theorem Holds.ptr_null (hh : Holds g buf []) : buf = {} := by
  cases hh with
  | empty => rfl
  | block hne _ => exact absurd rfl hne

theorem Holds.over_eq (hh : Holds g buf x) : buf.over x g = g := by
  cases hh with
  | empty => rfl
  | block _ hb => exact update_eq_iff.mpr ⟨hb.symm, fun _ _ => rfl⟩

/-- What a buffer holds, it holds wherever its block is put back. -/
theorem Holds.put_back (hh : Holds g buf x) (g' : ℕ → Option Bytes) : Holds (buf.over x g') buf x := by
  cases hh with
  | empty => exact .empty
  | block hne _ => exact .block hne (update_self ..)

theorem over_data (hd : buf.data = some b) (x : Bytes) (g : ℕ → Option Bytes) :
    buf.over x g = update g b (some x) := by
  simp [SecureBuffer.over, hd]

theorem over_over (x y : Bytes) (g : ℕ → Option Bytes) : buf.over y (buf.over x g) = buf.over y g := by
  unfold SecureBuffer.over
  split
  · rfl
  · exact update_idem ..

theorem over_other (hd : buf.data ≠ some b) (x : Bytes) (g : ℕ → Option Bytes) : buf.over x g b = g b := by
  rcases hc : buf.data with _ | c
  · simp [SecureBuffer.over, hc]
  · rw [over_data hc, update_of_ne]
    rintro rfl
    exact hd hc

/-- What a buffer holds does not depend on a block that is not its own. -/
theorem Holds.over (hh : Holds g buf x) (hne : ∀ b, buf.data = some b → other.data ≠ some b) (y : Bytes) :
    Holds (other.over y g) buf x := by
  cases hh with
  | empty => exact .empty
  | block hx hb => exact .block hx (by rw [over_other (hne _ rfl)]; exact hb)

/-- Writes to two buffers with different blocks commute. -/
theorem over_comm (buf other : SecureBuffer) (hne : ∀ b, buf.data = some b → other.data ≠ some b) (x y : Bytes)
    (g : ℕ → Option Bytes) : other.over y (buf.over x g) = buf.over x (other.over y g) := by
  unfold SecureBuffer.over
  rcases hb : buf.data with _ | b
  · rfl
  · rcases ho : other.data with _ | c
    · rfl
    · have : b ≠ c := fun e => hne b hb (e ▸ ho)
      exact update_comm this ..

/-- A buffer of the right length holds what is written over it. -/
theorem Holds.change (hh : Holds g buf x) (hl : y.length = x.length) : Holds (buf.over y g) buf y := by
  cases hh with
  | empty =>
    cases List.eq_nil_of_length_eq_zero hl
    exact .empty
  | block hne hb =>
    rw [← hl]
    refine .block (fun e => hne (List.eq_nil_of_length_eq_zero ?_)) (update_self ..)
    rw [← hl, e]
    rfl

theorem Holds.fits (hh : Holds g buf x) {n : ℕ} (hn : n ≤ x.length) : buf.ptr.Fits n g := by
  cases hh with
  | empty => exact Nat.le_zero.mp hn
  | block _ hb => exact ⟨x, hb, by omega⟩

theorem Holds.put (hh : Holds g buf x) {d : Bytes} (hd : d.length ≤ x.length) :
    buf.ptr.put d g = buf.over (overwrite x 0 d) g := by
  cases hh with
  | empty =>
    cases List.eq_nil_of_length_eq_zero (Nat.le_zero.mp hd)
    rfl
  | block _ hb => exact Ptr.put_into hb

theorem Fresh.ne (hf : Fresh other g) (hh : Holds g buf x) (b : ℕ) (hb : buf.data = some b) :
    other.data ≠ some b := by
  intro e
  have h1 := hf b e
  rw [hh.of_data hb] at h1
  cases h1

/-- Being fresh next to a buffer does not depend on what it holds. -/
theorem Fresh.over (hf : Fresh other (buf.over x g)) (y : Bytes) : Fresh other (buf.over y g) := by
  intro b hb
  have h1 := hf b hb
  rcases hd : buf.data with _ | c
  · simpa [SecureBuffer.over, hd] using h1
  · rw [over_data hd] at h1 ⊢
    by_cases hc : b = c
    · subst hc
      rw [update_self] at h1
      cases h1
    · rwa [update_of_ne hc] at h1 ⊢

/-- Three buffers that share no block: a key that is read, and a scratch and an output that are written. -/
structure Apart (key scratch out : SecureBuffer) (k y p : Bytes) (g : ℕ → Option Bytes) : Prop where
  holdsKey : key.Holds g k
  holdsScratch : scratch.Holds g y
  holdsOut : out.Holds g p
  key_ne_scratch : ∀ b, key.data = some b → scratch.data ≠ some b
  key_ne_out : ∀ b, key.data = some b → out.data ≠ some b
  scratch_ne : ∀ b, scratch.data = some b → out.data ≠ some b

namespace Apart

variable {key scratch out : SecureBuffer} {k y y' p p' : Bytes}

/-- Writes to the scratch and the output keep the buffers apart and in place. -/
theorem write (ha : Apart key scratch out k y p g) (hy : y'.length = y.length) (hp : p'.length = p.length) :
    Apart key scratch out k y' p' (out.over p' (scratch.over y' g)) where
  holdsKey := (ha.holdsKey.over ha.key_ne_scratch y').over ha.key_ne_out p'
  holdsScratch := (ha.holdsScratch.change hy).over ha.scratch_ne p'
  holdsOut := (ha.holdsOut.over (fun b hb hs => ha.scratch_ne b hs hb) y').change hp
  key_ne_scratch := ha.key_ne_scratch
  key_ne_out := ha.key_ne_out
  scratch_ne := ha.scratch_ne

/-- Two rounds of such writes are one. -/
theorem twice (ha : Apart key scratch out k y p g) {y1 p1 y2 p2 : Bytes} :
    out.over p2 (scratch.over y2 (out.over p1 (scratch.over y1 g))) = out.over p2 (scratch.over y2 g) := by
  rw [← over_comm scratch out ha.scratch_ne, over_over, over_over]

theorem same (ha : Apart key scratch out k y p g) : out.over p (scratch.over y g) = g := by
  rw [ha.holdsScratch.over_eq, ha.holdsOut.over_eq]

end Apart

end SecureBuffer

/-! ### Runs of the operations -/

section Runs

variable {s : St} {p : Ptr} {b off n : ℕ} {x d : Bytes} {buf : SecureBuffer}

theorem load_run (hb : s.heap.get b = some x) (hle : off + n ≤ x.length) :
    load (.into b off) n s = (.ok (slice x off n), s) := by
  simp [load, inBlock, Heap.load_into hb hle]

theorem store_run (hp : p.Fits d.length s.heap.get) :
    ∃ s', store p d s = (.ok (), s') ∧ s'.trace = s.trace ∧ Heap.Becomes s.heap s'.heap (p.put d s.heap.get) := by
  obtain ⟨h', hs, hb⟩ := Heap.becomes_store hp
  exact ⟨{ s with heap := h' }, by simp [store, hs], rfl, hb⟩

/-- A wipe writes zeros and frees nothing. -/
theorem secureWipe_run (hp : p.Fits n s.heap.get) : ∃ s', secureWipe p n s = (.ok (), s') ∧
    s'.trace = s.trace ∧ Heap.Becomes s.heap s'.heap (p.put (zeros n) s.heap.get) := by
  unfold secureWipe
  by_cases h0 : p = .null ∨ n = 0
  · rw [if_pos h0]
    refine ⟨s, rfl, rfl, (Heap.Becomes.refl _).cast ?_⟩
    rcases h0 with rfl | rfl
    · rfl
    · rw [zeros_zero, Ptr.put_nil]
  · rw [if_neg h0]
    exact store_run (by rwa [zeros_length])

/-- **A buffer is wiped on its whole length, then freed.** -/
theorem wipeAndFree_run (hh : buf.Holds s.heap.get x) : ∃ s',
    wipeAndFree buf s = (.ok {}, s') ∧ s'.trace = s.trace ∧
      ∀ g, buf.Fresh g → s.heap.get = buf.over x g → Heap.Becomes s.heap s'.heap g := by
  cases hh with
  | empty => exact ⟨s, rfl, rfl, fun g _ hg => (Heap.Becomes.refl _).cast hg⟩
  | @block b x hne hb =>
    have hfit : (Ptr.into b 0).Fits x.length s.heap.get := Ptr.fits_into hb (by omega)
    obtain ⟨s1, h1, ht1, hb1⟩ := secureWipe_run hfit
    have hw : overwrite x 0 (zeros x.length) = zeros x.length := by
      simp [overwrite]
    rw [Ptr.put_into hb, hw] at hb1
    have hget : s1.heap.get b = some (zeros x.length) := by rw [hb1.get_eq, update_self]
    obtain ⟨h', hf, hb2⟩ := Heap.becomes_free hget (zeroed_zeros _)
    refine ⟨{ s1 with heap := h' }, ?_, ht1, fun g hfresh hg => ?_⟩
    · show (secureWipe (.into b 0) x.length >>= _) s = _
      rw [bind_ok h1, bind_apply]
      simp [deleteBlock, hf, pure_apply]
    · refine (hb1.trans hb2).cast ?_
      rw [hb1.get_eq, update_idem, hg, SecureBuffer.over_data rfl, update_idem]
      exact update_eq_iff.mpr ⟨(hfresh b rfl).symm, fun _ _ => rfl⟩

theorem destroy_run (hh : buf.Holds s.heap.get x) : ∃ s',
    destroy buf s = (.ok (), s') ∧ s'.trace = s.trace ∧
      ∀ g, buf.Fresh g → s.heap.get = buf.over x g → Heap.Becomes s.heap s'.heap g := by
  obtain ⟨s', h1, h2⟩ := wipeAndFree_run hh
  exact ⟨s', bind_ok h1, h2⟩

end Runs

/-! ### Scopes -/

/-- From `h0` on, memory became `g` but for one buffer, which holds `x`. -/
structure InScope (h0 : Heap) (g : ℕ → Option Bytes) (buf : SecureBuffer) (x : Bytes) (s : St) : Prop where
  becomes : Heap.Becomes h0 s.heap (buf.over x g)
  holds : buf.Holds s.heap.get x
  fresh : buf.Fresh g

/-- Leaving the scope of a buffer leaves memory as it was without it. -/
theorem InScope.destroy {h0 : Heap} {g : ℕ → Option Bytes} {buf : SecureBuffer} {x : Bytes} {s : St}
    (hs : InScope h0 g buf x s) :
    ∃ s', destroy buf s = (.ok (), s') ∧ s'.trace = s.trace ∧ Heap.Becomes h0 s'.heap g := by
  obtain ⟨s', h1, h2, h3⟩ := destroy_run hs.holds
  exact ⟨s', h1, h2, hs.becomes.trans (h3 g hs.fresh hs.becomes.get_eq)⟩

/-- A buffer is in scope in the memory around it. -/
theorem InScope.of_holds {buf : SecureBuffer} {x : Bytes} {s : St} (hh : buf.Holds s.heap.get x) :
    ∃ g, InScope s.heap g buf x s := by
  cases hh with
  | empty => exact ⟨s.heap.get, .refl _, .empty, fun b hb => by cases hb⟩
  | @block b x hne hb =>
    refine ⟨update s.heap.get b none, (Heap.Becomes.refl _).cast ?_, .block hne hb, ?_⟩
    · rw [SecureBuffer.over_data rfl, update_idem]
      exact (update_eq_iff.mpr ⟨hb.symm, fun _ _ => rfl⟩).symm
    · rintro c hc
      cases hc
      exact update_self ..

theorem InScope.of_becomes {h0 : Heap} {g : ℕ → Option Bytes} {buf : SecureBuffer} {x : Bytes} {s s' : St}
    (hs : InScope h0 g buf x s) (hb : Heap.Becomes h0 s'.heap (buf.over x g)) : InScope h0 g buf x s' := by
  refine ⟨hb, ?_, hs.fresh⟩
  rw [hb.get_eq, ← hs.becomes.get_eq]
  exact hs.holds

/-- What leaves memory as it was leaves the buffer in scope. -/
theorem InScope.after {h0 : Heap} {g : ℕ → Option Bytes} {buf : SecureBuffer} {x : Bytes} {s s' : St}
    (hs : InScope h0 g buf x s) (hb : Heap.Becomes s.heap s'.heap s.heap.get) : InScope h0 g buf x s' :=
  hs.of_becomes ((hs.becomes.trans hb).cast hs.becomes.get_eq)

/-- A buffer made next to one in scope: either may be left first. -/
theorem InScope.swap {h0 : Heap} {g : ℕ → Option Bytes} {buf out : SecureBuffer} {x y : Bytes} {s : St}
    (hs : InScope h0 (buf.over x g) out y s) (hx : buf.Holds (buf.over x g) x) (hf : buf.Fresh g) :
    InScope h0 (out.over y g) buf x s ∧ out.Fresh g := by
  have hne : ∀ c, buf.data = some c → out.data ≠ some c := hs.fresh.ne hx
  refine ⟨⟨hs.becomes.cast (SecureBuffer.over_comm buf out hne ..), ?_, fun c hc => ?_⟩, fun c hc => ?_⟩
  · rw [hs.becomes.get_eq]
    exact hx.over hne y
  · rw [SecureBuffer.over_other (hne c hc)]
    exact hf c hc
  · have := hs.fresh c hc
    rwa [SecureBuffer.over_other fun e => hne c e hc] at this

/-- What was made since a buffer is in scope, next to that buffer. -/
theorem InScope.since {h0 : Heap} {g : ℕ → Option Bytes} {buf out : SecureBuffer} {x y : Bytes} {s s' : St}
    (hs : InScope h0 g buf x s) (h' : InScope s.heap s.heap.get out y s') : InScope h0 (buf.over x g) out y s' := by
  have hg := hs.becomes.get_eq
  exact ⟨hs.becomes.trans (h'.becomes.cast (by rw [hg])), h'.holds, hg ▸ h'.fresh⟩

/-- A write into the buffer changes what it holds. -/
theorem InScope.store {h0 : Heap} {g : ℕ → Option Bytes} {buf : SecureBuffer} {x d : Bytes} {s : St} {off : ℕ}
    (hs : InScope h0 g buf x s) (hd : off + d.length ≤ x.length) :
    ∃ s', store (buf.ptr.add off) d s = (.ok (), s') ∧ s'.trace = s.trace ∧
      InScope h0 g buf (overwrite x off d) s' := by
  by_cases hne : x = []
  · subst hne
    have h0 : off = 0 ∧ d = [] := by
      rw [List.length_nil] at hd
      exact ⟨by omega, List.eq_nil_of_length_eq_zero (by omega)⟩
    obtain ⟨rfl, rfl⟩ := h0
    cases hs.holds.ptr_null
    exact ⟨s, rfl, rfl, hs⟩
  obtain ⟨b, hdata, hptr, hget⟩ := hs.holds.ptr hne
  have hfit : (Ptr.into b off).Fits d.length s.heap.get := Ptr.fits_into hget hd
  obtain ⟨s', hst, htr, hb⟩ := store_run hfit
  refine ⟨s', by rw [hptr, Ptr.add, Nat.zero_add]; exact hst, htr, ?_⟩
  have hget' : s'.heap.get = buf.over (overwrite x off d) s.heap.get := by
    rw [hb.get_eq, Ptr.put_into hget, SecureBuffer.over_data hdata]
  refine ⟨(hs.becomes.trans hb).cast ?_, ?_, hs.fresh⟩
  · rw [← hb.get_eq, hget', hs.becomes.get_eq, SecureBuffer.over_over]
  · rw [hget']
    exact hs.holds.change (overwrite_length hd)

/-- Programs over memory refine programs of the trace. -/
abbrev Refines {α β : Type} (m : Run α) (m' : Ref β) (s : St) (R : α → β → St → Prop) (E : St → Prop) :
    Prop := Sim St.trace Stop.status m m' s R E

theorem sim_emit (e : Event) (s : St) :
    Refines (emit e) (Ref.emit e) s (fun _ _ s1 => s1 = { s with trace := s.trace ++ [e] }) (fun _ => False) :=
  .inl ⟨(), (), _, rfl, rfl, rfl⟩

theorem newBytes_run (w : World) (name : BufName) (size : ℕ) (s : St) : newBytes w name size s =
    if w.alloc s.trace.length size then
      (.ok (some s.heap.length), ⟨s.heap.alloc (zeros size), s.trace ++ [.alloc name size true]⟩)
    else (.ok none, ⟨s.heap, s.trace ++ [.alloc name size false]⟩) := by
  unfold newBytes
  rw [bind_ok (clock_run s), bind_ok (emit_run _ s)]
  by_cases ha : w.alloc s.trace.length size = true
  · rw [if_pos ha, if_pos ha, ha]
    rfl
  · rw [if_neg ha, if_neg ha, Bool.eq_false_of_not_eq_true ha]
    rfl

/-- A buffer without a block is in scope anywhere. -/
theorem inScope_empty {h0 : Heap} {g : ℕ → Option Bytes} {s : St} (hs : Heap.Becomes h0 s.heap g) :
    InScope h0 g {} [] s := ⟨hs, .empty, fun b hb => by cases hb⟩

/-- A new block is the buffer's alone. -/
theorem inScope_alloc {h0 : Heap} {g : ℕ → Option Bytes} {s : St} {size : ℕ} (hs : Heap.Becomes h0 s.heap g)
    (hz : size ≠ 0) (tr : List Event) :
    InScope h0 g ⟨some s.heap.length, size⟩ (zeros size) ⟨s.heap.alloc (zeros size), tr⟩ := by
  have hne : zeros size ≠ [] := fun e => hz (by simpa using congrArg List.length e)
  refine ⟨?_, ?_, ?_⟩
  · rw [SecureBuffer.over_data rfl, ← hs.get_eq]
    exact hs.trans (Heap.becomes_alloc _ _)
  · have hb : (s.heap.alloc (zeros size)).get s.heap.length = some (zeros size) := by
      rw [Heap.get_alloc, update_self]
    simpa using SecureBuffer.Holds.block hne hb
  · rintro b hb
    cases hb
    rw [← hs.get_eq]
    exact Heap.get_fresh (le_refl _)

/-- `Reset` of a buffer without a block. -/
theorem reset_run (w : World) (name : BufName) (size : ℕ) (s : St) : reset w name {} size s =
    if size = 0 then (.ok (true, {}), s)
    else if w.alloc s.trace.length size then
      (.ok (true, ⟨some s.heap.length, size⟩), ⟨s.heap.alloc (zeros size), s.trace ++ [.alloc name size true]⟩)
    else (.ok (false, {}), ⟨s.heap, s.trace ++ [.alloc name size false]⟩) := by
  have hn := newBytes_run w name size s
  unfold reset
  simp only [wipeAndFree, pure_bind]
  by_cases hz : size = 0
  · rw [if_pos hz, if_pos hz]
    rfl
  · rw [if_neg hz, if_neg hz]
    rcases ha : w.alloc s.trace.length size with _ | _ <;> rw [ha] at hn <;> rw [bind_ok hn] <;> rfl

theorem sim_newBuffer {h0 : Heap} {g : ℕ → Option Bytes} {s : St} (w : World) (name : BufName) (size : ℕ)
    (hs : Heap.Becomes h0 s.heap g) : Refines (newBuffer w name size) (Ref.alloc w name size) s
      (fun buf _ s1 => InScope h0 g buf (zeros size) s1) (fun s1 => Heap.Becomes h0 s1.heap g) := by
  have hr := reset_run w name size s
  unfold newBuffer Ref.alloc
  by_cases hz : size = 0
  · subst hz
    exact .inl ⟨{}, (), s, rfl, rfl, inScope_empty hs⟩
  rw [if_neg hz] at hr ⊢
  rcases ha : w.alloc s.trace.length size with _ | _
  · rw [ha] at hr
    refine .inr ⟨.errMemory, ⟨s.heap, s.trace ++ [.alloc name size false]⟩, ?_, ?_, hs⟩
    · rw [bind_ok hr]
      rfl
    · show Ref.returnIf (w.alloc s.trace.length size = false) .errMemory _ = _
      rw [ha]
      rfl
  · rw [ha] at hr
    refine .inl ⟨⟨some s.heap.length, size⟩, (), ⟨s.heap.alloc (zeros size), s.trace ++ [.alloc name size true]⟩,
      ?_, ?_, inScope_alloc hs hz _⟩
    · rw [bind_ok hr]
      rfl
    · show Ref.returnIf (w.alloc s.trace.length size = false) .errMemory _ = _
      rw [ha]
      rfl

/-- The scope of a buffer that dies with it. -/
theorem sim_guarded {α β : Type} (h0 : Heap) {buf : SecureBuffer} {body : Run α} {m' : Ref β} {s : St}
    {R R' : α → β → St → Prop} {E E' : St → Prop} (h : Refines body m' s R E)
    (ok : ∀ a b s1, R a b s1 → ∃ g x, InScope h0 g buf x s1 ∧
      ∀ s2, Heap.Becomes h0 s2.heap g → R' a b s2)
    (stop : ∀ s1, E s1 → ∃ g x, InScope h0 g buf x s1 ∧ ∀ s2, Heap.Becomes h0 s2.heap g → E' s2) :
    Refines (guarded buf body) m' s R' E' := by
  refine Sim.always h ?_ ?_
  · intro a b s1 h1
    obtain ⟨g, x, hs, hR⟩ := ok a b s1 h1
    obtain ⟨s2, hd, ht, hb⟩ := hs.destroy
    exact ⟨s2, hd, ht, hR s2 hb⟩
  · intro s1 h1
    obtain ⟨g, x, hs, hE⟩ := stop s1 h1
    obtain ⟨s2, hd, ht, hb⟩ := hs.destroy
    exact ⟨s2, hd, ht, hE s2 hb⟩

/-- The scope of a buffer that is moved out on success. -/
theorem sim_onStop {α β : Type} (h0 : Heap) {buf : SecureBuffer} {body : Run α} {m' : Ref β} {s : St}
    {R : α → β → St → Prop} {E E' : St → Prop} (h : Refines body m' s R E)
    (stop : ∀ s1, E s1 → ∃ g x, InScope h0 g buf x s1 ∧ ∀ s2, Heap.Becomes h0 s2.heap g → E' s2) :
    Refines (onStop body (destroy buf)) m' s R E' := by
  refine Sim.onStop h fun s1 h1 => ?_
  obtain ⟨g, x, hs, hE⟩ := stop s1 h1
  obtain ⟨s2, hd, ht, hb⟩ := hs.destroy
  exact ⟨s2, hd, ht, hE s2 hb⟩

/-- The scope of a buffer around a run that returns another, `out a`, which holds what
`K` says: `G` and `F` say what memory may be outside of the scope, at the end and on a stop. -/
theorem sim_scopeOf {α β : Type} (h0 : Heap) {buf : SecureBuffer} {body : Run α} {m' : Ref β} {s : St}
    (out : α → SecureBuffer) {K : α → β → Bytes → Prop} {G F : (ℕ → Option Bytes) → Prop}
    (hG : ∀ g, G g → buf.Fresh g) (hF : ∀ g, F g → buf.Fresh g)
    (hr : Refines body m' s
      (fun a b s1 => ∃ g x y, G g ∧ buf.Holds (buf.over x g) x ∧ K a b y ∧ InScope h0 (buf.over x g) (out a) y s1)
      (fun s1 => ∃ g x, F g ∧ buf.Holds (buf.over x g) x ∧ Heap.Becomes h0 s1.heap (buf.over x g))) :
    Refines (guarded buf body) m' s (fun a b s1 => ∃ g y, G g ∧ K a b y ∧ InScope h0 g (out a) y s1)
      (fun s1 => ∃ g, F g ∧ Heap.Becomes h0 s1.heap g) := by
  refine sim_guarded h0 hr ?_ ?_
  · rintro a b s1 ⟨g, x, y, hg, hx, hk, hs⟩
    obtain ⟨hbuf, hfresh⟩ := hs.swap hx (hG g hg)
    refine ⟨(out a).over y g, x, hbuf, fun s2 hb => ⟨g, y, hg, hk, hb, ?_, hfresh⟩⟩
    rw [hb.get_eq]
    exact hs.holds.put_back g
  · rintro s1 ⟨g, x, hg, hx, hb⟩
    exact ⟨g, x, ⟨hb, by rw [hb.get_eq]; exact hx, hF g hg⟩, fun s2 h2 => ⟨g, hg, h2⟩⟩

end ModelCrypt
