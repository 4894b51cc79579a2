/-
# Who owns a block of memory

A program that uses `SecureBuffer` has variables of that type and pointers that
it got from `Release()`; `Owners` is such a program's state, and `Op` what it can
do next. `Op.exec` is made of the operations of `secure_buffer.cc` and `mc_free`.
An operation is `Permitted` if C++ allows it: on a variable that is alive, inside
the buffer, and on a pointer that was not freed.

In every state that is reached so (`Reachable`) each block in use has one owner, and
a buffer has a block exactly if its size is not 0 (`Owned`). No operation faults;
what the class frees is zero then, and what was released it never touches again
(`Changes`).

Key definitions: `Owners`, `Op.exec`, `Permitted`, `Owned`, `Changes`, `Reachable`.
Key theorems: `Owned.exec`, `Reachable.owned`, `buffers_own_and_wipe`.
-/
import ModelCrypt.Sample
import ModelCrypt.Lib.Owns

namespace ModelCrypt

open Lib Prog Function

/-! ### The operations -/

/-- `Release`: the pointer, and the buffer without it. -/
def release (buf : SecureBuffer) : Option ℕ × SecureBuffer := (buf.data, {})

/-- `mc_free`, of a block or of a null pointer. -/
def mcFree (ptr : Option ℕ) (size : ℕ) : Run Unit :=
  match ptr with
  | none => pure ()
  | some b => do
    secureWipe (.into b 0) size
    deleteBlock b

/-- The memory, the variables that are alive, and the pointers that were released. -/
structure Owners where
  st : St
  vars : ℕ → Option SecureBuffer
  ptrs : ℕ → Option ℕ

/-- What a program does with its buffers and pointers, by their names. -/
inductive Op
  | construct (v : ℕ)
  | constructSized (v : ℕ) (name : BufName) (size : ℕ)
  | reset (v : ℕ) (name : BufName) (size : ℕ)
  | moveConstruct (v other : ℕ)
  | moveAssign (v other : ℕ)
  | write (v off : ℕ) (x : Bytes)
  | release (v p : ℕ)
  | destroy (v : ℕ)
  | free (p size : ℕ)
  deriving DecidableEq

namespace Owners

/-- The buffer of a variable. -/
def var (v : ℕ) : Prog Owners Stop SecureBuffer := do
  match (← state).vars v with
  | some buf => return buf
  | none => throw (.fault .nullPointer)

def withSt (s : St) (o : Owners) : Owners := { o with st := s }

def withVar (v : ℕ) (buf : Option SecureBuffer) (o : Owners) : Owners := { o with vars := update o.vars v buf }

def withPtr (p : ℕ) (ptr : Option ℕ) (o : Owners) : Owners := { o with ptrs := update o.ptrs p ptr }

/-- A program of the memory. -/
def inMemory {α : Type} (m : Run α) : Prog Owners Stop α := zoom Owners.st withSt id m

end Owners

open Owners in
/-- What an operation does. -/
def Op.exec (w : World) : Op → Prog Owners Stop Unit
  | .construct v => update (withVar v (some {}))
  | .constructSized v name size => do
    let (_, buf) ← inMemory (ModelCrypt.reset w name {} size)
    update (withVar v (some buf))
  | .reset v name size => do
    let (_, buf) ← inMemory (ModelCrypt.reset w name (← var v) size)
    update (withVar v (some buf))
  | .moveConstruct v other => do
    let buf ← var other
    update (withVar v (some buf))
    update (withVar other (some {}))
  | .moveAssign v other =>
    -- `if (this != &other)`
    if v = other then pure ()
    else do
      let (buf, rest) ← inMemory (ModelCrypt.moveAssign (← var v) (← var other))
      update (withVar v (some buf))
      update (withVar other (some rest))
  | .write v off x => do
    let buf ← var v
    inMemory (store (buf.ptr.add off) x)
  | .release v p => do
    let (ptr, buf) := ModelCrypt.release (← var v)
    update (withVar v (some buf))
    update (withPtr p ptr)
  | .destroy v => do
    inMemory (ModelCrypt.destroy (← var v))
    update (withVar v none)
  | .free p size => do
    inMemory (mcFree ((← state).ptrs p) size)
    update (withPtr p none)

/-! ### Owners -/

/-- Who may own a block: a variable, or whoever has a pointer. -/
inductive Owner
  | var (v : ℕ)
  | ptr (p : ℕ)
  deriving DecidableEq

namespace Owners

/-- The block of an owner. -/
def own (o : Owners) : Owner → Option ℕ
  | .var v => (o.vars v).bind (·.data)
  | .ptr p => o.ptrs p

/-- A block in use. -/
def Live (o : Owners) (b : ℕ) : Prop := (o.st.heap.get b).isSome = true

end Owners

/-- Every block in use has one owner, and every buffer has a block exactly if its size is not 0, of that size. -/
structure Owned (o : Owners) : Prop where
  holds : ∀ v buf, o.vars v = some buf → ∃ x, buf.Holds o.st.heap.get x
  owns : Owns o.own o.Live

/-- What C++ allows. A pointer is passed to `mc_free` with no more than the size of its block. -/
def Permitted (o : Owners) : Op → Prop
  | .construct v => o.vars v = none
  | .constructSized v _ _ => o.vars v = none
  | .reset v _ _ => o.vars v ≠ none
  | .moveConstruct v other => o.vars v = none ∧ o.vars other ≠ none
  | .moveAssign v other => o.vars v ≠ none ∧ o.vars other ≠ none
  | .write v off x => ∃ buf, o.vars v = some buf ∧ off + x.length ≤ buf.size
  | .release v p => o.vars v ≠ none ∧ o.ptrs p = none
  | .destroy v => o.vars v ≠ none
  | .free p size => ∀ b x, o.ptrs p = some b → o.st.heap.get b = some x → size ≤ x.length

/-- The operation frees the block through a pointer. -/
def Op.Frees (o : Owners) (op : Op) (b : ℕ) : Prop := ∃ p size, op = .free p size ∧ o.ptrs p = some b

/-- What an operation does to memory. -/
structure Changes (o : Owners) (op : Op) (o' : Owners) : Prop where
  /-- A block that was freed stays as it was then. -/
  dead : ∀ (b : ℕ) (x : Bytes), o.st.heap[b]? = some ⟨false, x⟩ → o'.st.heap[b]? = some ⟨false, x⟩
  /-- What the class frees is zero on its whole length. -/
  wiped : ∀ (b : ℕ) (x : Bytes), o'.st.heap[b]? = some ⟨false, x⟩ →
    o.st.heap[b]? = some ⟨false, x⟩ ∨ Zeroed x ∨ op.Frees o b
  /-- What was released stays where it is, until it is freed through its pointer. -/
  released : ∀ p b, o.ptrs p = some b → (∀ size, op ≠ .free p size) →
    o'.ptrs p = some b ∧ o'.st.heap.get b = o.st.heap.get b

/-- The states that a program reaches from an empty memory. -/
inductive Reachable (w : World) : Owners → Prop
  | start (tr : List Event) : Reachable w ⟨⟨[], tr⟩, fun _ => none, fun _ => none⟩
  | next {o o'} (op : Op) (h : Reachable w o) (ha : Permitted o op) (he : op.exec w o = (.ok (), o')) : Reachable w o'

/-! ### Names -/

section Owned

variable {w : World} {o o' : Owners} {v v' p : ℕ} {buf : SecureBuffer} {s : St}

/-- What a variable owns is its block. -/
theorem own_withVar (o : Owners) (v : ℕ) (buf : Option SecureBuffer) :
    (o.withVar v buf).own = update o.own (.var v) (buf.bind (·.data)) := by
  funext a
  rcases a with u | q
  · by_cases hu : u = v
    · subst hu
      simp [Owners.own, Owners.withVar]
    · rw [update_of_ne (by simpa using hu)]
      simp only [Owners.own, Owners.withVar, update_of_ne hu]
  · rw [update_of_ne (by simp)]
    rfl

theorem withVar_withVar (o : Owners) (v : ℕ) (b c : Option SecureBuffer) (s s' : St) :
    (((o.withSt s).withVar v b).withSt s').withVar v c = (o.withSt s').withVar v c := by
  simp [Owners.withVar, Owners.withSt, update_idem]

theorem own_withPtr (o : Owners) (p : ℕ) (b : Option ℕ) : (o.withPtr p b).own = update o.own (.ptr p) b := by
  funext a
  rcases a with u | q
  · rw [update_of_ne (by simp)]
    rfl
  · by_cases hq : q = p
    · subst hq
      simp [Owners.own, Owners.withPtr]
    · rw [update_of_ne (by simpa using hq)]
      simp only [Owners.own, Owners.withPtr, update_of_ne hq]

/-- Whether a block is in use is a matter of memory. -/
theorem live_iff {b : ℕ} (h : o'.st.heap.get b = o.st.heap.get b) : o'.Live b ↔ o.Live b := by
  rw [Owners.Live, h, Owners.Live]

theorem own_var (hv : o.vars v = some buf) : o.own (.var v) = buf.data := by rw [Owners.own, hv, Option.bind_some]

theorem withVar_eq_some {u : ℕ} {c : Option SecureBuffer} (h : (o.withVar v c).vars u = some buf) :
    u = v ∧ c = some buf ∨ u ≠ v ∧ o.vars u = some buf := by
  replace h : update o.vars v c u = some buf := h
  by_cases hu : u = v
  · rw [hu, update_self] at h
    exact .inl ⟨hu, h⟩
  · rw [update_of_ne hu] at h
    exact .inr ⟨hu, h⟩

/-- A buffer holds what it held wherever its block is the same. -/
theorem SecureBuffer.Holds.congr {g g' : ℕ → Option Bytes} {x : Bytes} (h : buf.Holds g x)
    (hg : ∀ b, buf.data = some b → g' b = g b) : buf.Holds g' x := by
  cases h with
  | empty => exact .empty
  | block hne hb => exact .block hne ((hg _ rfl).trans hb)

/-! ### What keeps the owners -/

/-- The class did no more than it may: what it freed was zero, and what is released stays. -/
structure Kept (o o' : Owners) : Prop where
  becomes : Heap.Becomes o.st.heap o'.st.heap o'.st.heap.get
  released : ∀ p b, o.ptrs p = some b → o'.ptrs p = some b ∧ o'.st.heap.get b = o.st.heap.get b

theorem Kept.of_heap (hs : o'.st.heap = o.st.heap) (hp : ∀ p b, o.ptrs p = some b → o'.ptrs p = some b) : Kept o o' :=
  ⟨hs ▸ .refl _, fun p b hb => ⟨hp p b hb, by rw [hs]⟩⟩

/-- The trace does not matter. -/
theorem Owned.retrace (h : Owned o) (hs : s.heap = o.st.heap) : Owned (o.withSt s) := by
  have hlive (b : ℕ) : (o.withSt s).Live b ↔ o.Live b := live_iff (by rw [← hs]; rfl)
  refine ⟨fun u c hu => ?_, h.owns.congr hlive⟩
  obtain ⟨x, hx⟩ := h.holds u c hu
  exact ⟨x, hx.congr fun b _ => by rw [← hs]; rfl⟩

theorem Kept.trans {o'' : Owners} (h1 : Kept o o') (h2 : Kept o' o'') : Kept o o'' := by
  refine ⟨h1.becomes.trans h2.becomes, fun p b hb => ?_⟩
  obtain ⟨hp, hg⟩ := h1.released p b hb
  obtain ⟨hp', hg'⟩ := h2.released p b hp
  exact ⟨hp', hg'.trans hg⟩

theorem Kept.changes (h : Kept o o') (op : Op) : Changes o op o' where
  dead := h.becomes.dead
  wiped b x hb := (h.becomes.wiped b x hb).imp id .inl
  released p b hb _ := h.released p b hb

/-- A variable that holds nothing may come and go. -/
theorem Owned.setEmpty (h : Owned o) (hv : o.own (.var v) = none) (buf : Option SecureBuffer)
    (hbuf : ∀ b, buf = some b → b = {}) : Owned (o.withVar v buf) := by
  have hnone : buf.bind (·.data) = none := by
    cases buf with
    | none => rfl
    | some b => rw [hbuf b rfl]; rfl
  refine ⟨fun u b hu => ?_, ?_⟩
  · rcases withVar_eq_some hu with ⟨-, hc⟩ | ⟨-, hu⟩
    · exact ⟨[], hbuf b hc ▸ .empty⟩
    · exact h.holds u b hu
  · rw [own_withVar, hnone, ← hv, update_eq_self]
    exact h.owns

/-- **A buffer that is wiped and freed leaves the other owners as they were.** -/
theorem Owned.wipe (h : Owned o) (hv : o.vars v = some buf) : ∃ s', wipeAndFree buf o.st = (.ok {}, s') ∧
    s'.trace = o.st.trace ∧ Owned ((o.withSt s').withVar v (some {})) ∧ Kept o ((o.withSt s').withVar v (some {})) := by
  obtain ⟨x, hx⟩ := h.holds v buf hv
  obtain ⟨g, hs⟩ := InScope.of_holds hx
  obtain ⟨s', hrun, htr, hb⟩ := wipeAndFree_run hx
  have hbec := hb g hs.fresh hs.becomes.get_eq
  have hget := hs.becomes.get_eq
  have hsame (b : ℕ) (hne : buf.data ≠ some b) : s'.heap.get b = o.st.heap.get b := by
    rw [hbec.get_eq, hget, SecureBuffer.over_other hne]
  have hother (a : Owner) (b : ℕ) (ha : a ≠ .var v) (hab : o.own a = some b) : buf.data ≠ some b := fun hd =>
    ha (h.owns.inj a (.var v) b hab ((own_var hv).trans hd))
  refine ⟨s', hrun, htr, ⟨fun u c hu => ?_, ?_⟩, hbec.cast hbec.get_eq.symm, fun p b hp =>
    ⟨hp, hsame b (hother (.ptr p) b (by simp) hp)⟩⟩
  · rcases withVar_eq_some hu with ⟨-, hc⟩ | ⟨huv, hu⟩
    · cases hc
      exact ⟨[], .empty⟩
    · obtain ⟨y, hy⟩ := h.holds u c hu
      exact ⟨y, hy.congr fun b hd => hsame b (hother (.var u) b (by simpa using huv) ((own_var hu).trans hd))⟩
  · rw [own_withVar]
    show Owns (update o.own (.var v) none) _
    rcases hd : buf.data with _ | b
    · rw [← hd, ← own_var hv, update_eq_self]
      exact h.owns.congr fun b => live_iff (hsame b (by simp [hd]))
    · refine h.owns.drop ((own_var hv).trans hd) fun b' => ?_
      by_cases hb' : b' = b
      · subst hb'
        have hnone : s'.heap.get b' = none := by rw [hbec.get_eq, hs.fresh b' hd]
        simp [Owners.Live, Owners.withVar, Owners.withSt, hnone]
      · rw [live_iff (hsame b' (by rw [hd]; simpa using Ne.symm hb'))]
        simp [hb']

/-- **A new block goes to a variable that held nothing.** -/
theorem Owned.alloc (h : Owned o) (hv : o.own (.var v) = none) {size : ℕ} (hz : size ≠ 0) (tr : List Event) :
    Owned ((o.withSt ⟨o.st.heap.alloc (zeros size), tr⟩).withVar v (some ⟨some o.st.heap.length, size⟩)) ∧
    Kept o ((o.withSt ⟨o.st.heap.alloc (zeros size), tr⟩).withVar v (some ⟨some o.st.heap.length, size⟩)) := by
  have hbec := Heap.becomes_alloc o.st.heap (zeros size)
  have hfresh : ¬ o.Live o.st.heap.length := by
    rw [Owners.Live, Heap.get_fresh (le_refl _)]
    simp
  have hsame (b : ℕ) (hb : b ≠ o.st.heap.length) : (o.st.heap.alloc (zeros size)).get b = o.st.heap.get b := by
    rw [Heap.get_alloc, update_of_ne hb]
  have hheld (a : Owner) (b : ℕ) (ha : o.own a = some b) : b ≠ o.st.heap.length := fun hb =>
    hfresh (hb ▸ h.owns.live_of ha)
  refine ⟨⟨fun u c hu => ?_, ?_⟩, hbec.cast hbec.get_eq.symm, fun p b hp => ⟨hp, hsame b (hheld (.ptr p) b hp)⟩⟩
  · rcases withVar_eq_some hu with ⟨-, hc⟩ | ⟨-, hu⟩
    · cases hc
      have hne : zeros size ≠ [] := fun e => hz (by simpa using congrArg List.length e)
      have hget : (o.st.heap.alloc (zeros size)).get o.st.heap.length = some (zeros size) := by
        rw [Heap.get_alloc, update_self]
      have hholds := SecureBuffer.Holds.block hne hget
      rw [zeros_length] at hholds
      exact ⟨zeros size, hholds⟩
    · obtain ⟨y, hy⟩ := h.holds u c hu
      exact ⟨y, hy.congr fun b hd => hsame b (hheld (.var u) b ((own_var hu).trans hd))⟩
  · rw [own_withVar]
    refine h.owns.take hv hfresh fun b => ?_
    by_cases hb : b = o.st.heap.length
    · subst hb
      simp [Owners.Live, Owners.withVar, Owners.withSt, Heap.get_alloc]
    · rw [live_iff (hsame b hb)]
      simp [hb]

/-- **A variable that held nothing gets what another one held.** -/
theorem Owned.move (h : Owned o) (hv : o.own (.var v) = none) (hv' : o.vars v' = some buf) :
    Owned ((o.withVar v (some buf)).withVar v' (some {})) := by
  refine ⟨fun u c hu => ?_, ?_⟩
  · rcases withVar_eq_some hu with ⟨-, hc⟩ | ⟨-, hu⟩
    · cases hc
      exact ⟨[], .empty⟩
    · rcases withVar_eq_some hu with ⟨-, hc⟩ | ⟨-, hu⟩
      · cases hc
        exact h.holds v' buf hv'
      · exact h.holds u c hu
  · rw [own_withVar, own_withVar, Option.bind_some, ← own_var hv']
    exact h.owns.pass (.var v') hv

/-- **A pointer gets what a variable held.** -/
theorem Owned.give (h : Owned o) (hp : o.ptrs p = none) (hv : o.vars v = some buf) :
    Owned ((o.withVar v (some {})).withPtr p buf.data) := by
  refine ⟨fun u c hu => ?_, ?_⟩
  · rcases withVar_eq_some hu with ⟨-, hc⟩ | ⟨-, hu⟩
    · cases hc
      exact ⟨[], .empty⟩
    · exact h.holds u c hu
  · rw [own_withPtr, own_withVar, ← own_var hv]
    have hcomm : Owner.var v ≠ Owner.ptr p := by simp
    rw [update_comm hcomm]
    exact h.owns.pass (.var v) hp

/-- A write into a buffer. -/
theorem Owned.write (h : Owned o) (hv : o.vars v = some buf) {off : ℕ} {x : Bytes} (hx : off + x.length ≤ buf.size) :
    ∃ s', store (buf.ptr.add off) x o.st = (.ok (), s') ∧ Owned (o.withSt s') ∧ Kept o (o.withSt s') := by
  obtain ⟨y, hy⟩ := h.holds v buf hv
  obtain ⟨g, hs⟩ := InScope.of_holds hy
  rw [hy.size] at hx
  obtain ⟨s', hrun, -, hs'⟩ := hs.store hx
  have hsame (b : ℕ) (hne : buf.data ≠ some b) : s'.heap.get b = o.st.heap.get b := by
    rw [hs'.becomes.get_eq, hs.becomes.get_eq, SecureBuffer.over_other hne, SecureBuffer.over_other hne]
  have hother (a : Owner) (b : ℕ) (ha : a ≠ .var v) (hab : o.own a = some b) : buf.data ≠ some b := fun hd =>
    ha (h.owns.inj a (.var v) b hab ((own_var hv).trans hd))
  refine ⟨s', hrun, ⟨fun u c hu => ?_, h.owns.congr fun b => ?_⟩, hs'.becomes.cast hs'.becomes.get_eq.symm,
    fun p b hp => ⟨hp, hsame b (hother (.ptr p) b (by simp) hp)⟩⟩
  · by_cases huv : u = v
    · subst huv
      cases hv.symm.trans hu
      exact ⟨_, hs'.holds⟩
    · obtain ⟨z, hz⟩ := h.holds u c hu
      exact ⟨z, hz.congr fun b hd => hsame b (hother (.var u) b (by simpa using huv) ((own_var hu).trans hd))⟩
  · by_cases hd : buf.data = some b
    · have hget : s'.heap.get b = some (overwrite y off x) := hs'.holds.of_data hd
      simp [Owners.Live, Owners.withSt, hget, hy.of_data hd]
    · exact live_iff (hsame b hd)

/-- **What `mc_free` does**: it frees the block, which is not touched again. -/
theorem mcFree_run {b size : ℕ} {x : Bytes} (hb : s.heap.get b = some x) (hsize : size ≤ x.length) : ∃ s',
    mcFree (some b) size s = (.ok (), s') ∧ s'.heap.get = update s.heap.get b none ∧
      (∀ (b' : ℕ) (y : Bytes), s.heap[b']? = some ⟨false, y⟩ → s'.heap[b']? = some ⟨false, y⟩) ∧
      ∀ (b' : ℕ) (y : Bytes), b' ≠ b → s'.heap[b']? = some ⟨false, y⟩ → s.heap[b']? = some ⟨false, y⟩ ∨ Zeroed y := by
  have hfit : (Ptr.into b 0).Fits size s.heap.get := Ptr.fits_into hb (by omega)
  obtain ⟨s1, h1, -, hb1⟩ := secureWipe_run hfit
  have hget : s1.heap.get b = some (overwrite x 0 (zeros size)) := by rw [hb1.get_eq, Ptr.put_into hb, update_self]
  have hfree : s1.heap.free b = some (s1.heap.set b ⟨false, overwrite x 0 (zeros size)⟩) := by rw [Heap.free, hget]; rfl
  refine ⟨{ s1 with heap := s1.heap.set b ⟨false, overwrite x 0 (zeros size)⟩ }, ?_, ?_, fun b' y hy => ?_,
    fun b' y hne hy => ?_⟩
  · rw [mcFree, bind_ok h1, deleteBlock, hfree]
  · show Heap.get (s1.heap.set b _) = _
    rw [Heap.get_free hget, hb1.get_eq, Ptr.put_into hb, update_idem]
  · exact Heap.dead_set hget (hb1.dead b' y hy)
  · rw [List.getElem?_set_ne hne.symm] at hy
    exact hb1.wiped b' y hy

/-- **What `mc_free` frees has no owner any more.** -/
theorem Owned.free (h : Owned o) {size : ℕ} (ha : Permitted o (.free p size)) : ∃ s',
    mcFree (o.ptrs p) size o.st = (.ok (), s') ∧
    Owned ((o.withSt s').withPtr p none) ∧ Changes o (.free p size) ((o.withSt s').withPtr p none) := by
  rcases hp : o.ptrs p with _ | b
  · have hown : (o.withPtr p none).own = o.own := by
      rw [own_withPtr, ← hp]
      exact update_eq_self (Owner.ptr p) o.own
    refine ⟨o.st, rfl, ⟨h.holds, ?_⟩, ?_⟩
    · show Owns (o.withPtr p none).own o.Live
      rw [hown]
      exact h.owns
    · have hkept : Kept o ((o.withSt o.st).withPtr p none) := by
        refine .of_heap rfl fun q b hq => ?_
        have hne : q ≠ p := by
          rintro rfl
          rw [hp] at hq
          cases hq
        exact (update_of_ne hne ..).trans hq
      exact hkept.changes _
  have hpo : o.own (.ptr p) = some b := hp
  obtain ⟨x, hx⟩ := Option.isSome_iff_exists.mp (h.owns.live_of hpo)
  obtain ⟨s', hrun, hget, hdead, hfreed⟩ := mcFree_run hx (ha b x hp hx)
  have hsame (b' : ℕ) (hne : b' ≠ b) : s'.heap.get b' = o.st.heap.get b' := by rw [hget, update_of_ne hne]
  have hother (a : Owner) (b' : ℕ) (hne : a ≠ .ptr p) (hab : o.own a = some b') : b' ≠ b := by
    rintro rfl
    exact hne (h.owns.inj a (.ptr p) b' hab hp)
  refine ⟨s', hrun, ⟨fun u c hu => ?_, ?_⟩, hdead, fun b' y hy => ?_, fun q b' hq hne => ?_⟩
  · obtain ⟨y, hy⟩ := h.holds u c hu
    exact ⟨y, hy.congr fun b' hd => hsame b' (hother (.var u) b' (by simp) ((own_var hu).trans hd))⟩
  · rw [own_withPtr]
    refine h.owns.drop hpo fun b' => ?_
    by_cases hb' : b' = b
    · subst hb'
      have hnone : s'.heap.get b' = none := by rw [hget, update_self]
      simp [Owners.Live, Owners.withPtr, Owners.withSt, hnone]
    · rw [live_iff (hsame b' hb')]
      simp [hb']
  · by_cases hb' : b' = b
    · exact .inr (.inr ⟨p, size, rfl, hb' ▸ hp⟩)
    · exact (hfreed b' y hb' hy).imp id .inl
  · have hqp : q ≠ p := fun e => hne size (by rw [e])
    exact ⟨(update_of_ne hqp ..).trans hq, hsame b' (hother (.ptr q) b' (by simpa using hqp) hq)⟩

/-! ### What each operation does -/

/-- `Reset`: a variable whose buffer was wiped gets a block of zeros, if there is memory and the size is not 0. -/
theorem Owned.reset (h : Owned o) (hv : o.vars v = some buf) (w : World) (name : BufName) (size : ℕ) :
    ∃ ok c s', ModelCrypt.reset w name buf size o.st = (.ok (ok, c), s') ∧ Owned ((o.withSt s').withVar v (some c)) ∧
      Kept o ((o.withSt s').withVar v (some c)) ∧
      (ok = true ∧ size ≠ 0 ∧ (∃ b, c = ⟨some b, size⟩ ∧ s'.heap.get b = some (zeros size)) ∨ c = {} ∧
        (ok = true ↔ size = 0)) := by
  obtain ⟨s1, h1, -, hown, hkept⟩ := h.wipe hv
  have hrun : ModelCrypt.reset w name buf size o.st = ModelCrypt.reset w name {} size s1 := by
    unfold ModelCrypt.reset
    rw [bind_ok h1]
    rfl
  rw [hrun, reset_run]
  by_cases hz : size = 0
  · rw [if_pos hz]
    exact ⟨true, {}, s1, rfl, hown, hkept, .inr ⟨rfl, by simp [hz]⟩⟩
  rw [if_neg hz]
  by_cases ha : w.alloc s1.trace.length size = true
  · rw [if_pos ha]
    have hempty : ((o.withSt s1).withVar v (some {})).own (.var v) = none := by
      rw [own_withVar, update_self]
      rfl
    obtain ⟨hown', hkept'⟩ := hown.alloc hempty hz (s1.trace ++ [.alloc name size true])
    rw [withVar_withVar] at hown' hkept'
    refine ⟨true, _, _, rfl, hown', hkept.trans hkept', .inl ⟨rfl, hz, s1.heap.length, rfl, ?_⟩⟩
    show (s1.heap.alloc (zeros size)).get s1.heap.length = _
    rw [Heap.get_alloc, update_self]
  · rw [if_neg ha]
    have hown' := hown.retrace (s := ⟨s1.heap, s1.trace ++ [.alloc name size false]⟩) rfl
    exact ⟨false, {}, _, rfl, hown', hkept.trans (.of_heap rfl fun _ _ hp => hp), .inr ⟨rfl, by simp [hz]⟩⟩

/-- After `Reset` or construction with a size, a variable has a block of zeros of that size, or none. -/
def GivesZeros (op : Op) (o : Owners) : Prop := ∀ v name size, op = .reset v name size ∨
    op = .constructSized v name size →
  o.vars v = some {} ∨ ∃ b, o.vars v = some ⟨some b, size⟩ ∧ o.st.heap.get b = some (zeros size)

theorem var_run (hv : o.vars v = some buf) : Owners.var v o = (.ok buf, o) := by
  rw [Owners.var, bind_ok (rfl : state o = (.ok o, o)), hv]
  rfl

theorem inMemory_run {α : Type} {m : Run α} {a : α} (h : m o.st = (.ok a, s)) :
    Owners.inMemory m o = (.ok a, o.withSt s) := by
  rw [Owners.inMemory, zoom, h]

/-- What `Reset` leaves in a variable. -/
theorem givesZeros_of_reset {c : SecureBuffer} {size : ℕ} (op : Op)
    (hc : (∃ b, c = ⟨some b, size⟩ ∧ s.heap.get b = some (zeros size)) ∨ c = {})
    (hop : ∀ v' name' size', op = .reset v' name' size' ∨ op = .constructSized v' name' size' → v' = v ∧ size' = size) :
    GivesZeros op ((o.withSt s).withVar v (some c)) := by
  intro v' name' size' he
  obtain ⟨rfl, rfl⟩ := hop v' name' size' he
  have hvar : ((o.withSt s).withVar v' (some c)).vars v' = some c := update_self ..
  rw [hvar]
  rcases hc with ⟨b, rfl, hb⟩ | rfl
  · exact .inr ⟨b, rfl, hb⟩
  · exact .inl rfl

/-- **Every operation that is allowed runs, and keeps the owners.** One case for each operation. -/
theorem Owned.exec (h : Owned o) (w : World) {op : Op} (ha : Permitted o op) :
    ∃ o', op.exec w o = (.ok (), o') ∧ Owned o' ∧ Changes o op o' ∧ GivesZeros op o' := by
  have dead {v : ℕ} (hv : o.vars v = none) : o.own (.var v) = none := by rw [Owners.own, hv]; rfl
  cases op with
  | construct v =>
    have hkept : Kept o (o.withVar v (some {})) := .of_heap rfl fun _ _ hp => hp
    exact ⟨_, rfl, h.setEmpty (dead ha) _ (by simp), hkept.changes _, fun _ _ _ he => (by simp at he)⟩
  | constructSized v name size =>
    -- as if declared without a size first
    have hkept : Kept o (o.withVar v (some {})) := .of_heap rfl fun _ _ hp => hp
    have hnew : (o.withVar v (some {})).vars v = some {} := update_self ..
    obtain ⟨ok, c, s', hrun, hown, hkept', hc⟩ := (h.setEmpty (dead ha) (some {}) (by simp)).reset hnew w name size
    rw [show ((o.withVar v (some {})).withSt s').withVar v (some c) = _ from
      withVar_withVar o v _ _ o.st s'] at hown hkept'
    refine ⟨_, ?_, hown, (hkept.trans hkept').changes _, givesZeros_of_reset _ (hc.imp (·.2.2) (·.1)) (by simp)⟩
    replace hrun : ModelCrypt.reset w name {} size o.st = (.ok (ok, c), s') := hrun
    rw [Op.exec, bind_ok (inMemory_run hrun)]
    rfl
  | reset v name size =>
    obtain ⟨buf, hv⟩ := Option.ne_none_iff_exists'.mp ha
    obtain ⟨ok, c, s', hrun, hown, hkept, hc⟩ := h.reset hv w name size
    refine ⟨_, ?_, hown, hkept.changes _, givesZeros_of_reset _ (hc.imp (·.2.2) (·.1)) (by simp)⟩
    rw [Op.exec, bind_ok (var_run hv), bind_ok (inMemory_run hrun)]
    rfl
  | moveConstruct v other =>
    obtain ⟨buf, hother⟩ := Option.ne_none_iff_exists'.mp ha.2
    have hkept : Kept o ((o.withVar v (some buf)).withVar other (some {})) := .of_heap rfl fun _ _ hp => hp
    refine ⟨_, ?_, h.move (dead ha.1) hother, hkept.changes _, fun _ _ _ he => (by simp at he)⟩
    rw [Op.exec, bind_ok (var_run hother)]
    rfl
  | moveAssign v other =>
    obtain ⟨buf, hv⟩ := Option.ne_none_iff_exists'.mp ha.1
    obtain ⟨rest, hother⟩ := Option.ne_none_iff_exists'.mp ha.2
    by_cases hself : v = other
    · have hkept : Kept o o := .of_heap rfl fun _ _ hp => hp
      refine ⟨o, ?_, h, hkept.changes _, fun _ _ _ he => (by simp at he)⟩
      rw [Op.exec, if_pos hself]
      rfl
    obtain ⟨s', hrun, -, hown, hkept⟩ := h.wipe hv
    have hother' : ((o.withSt s').withVar v (some {})).vars other = some rest :=
      (update_of_ne (Ne.symm hself) ..).trans hother
    have hempty : ((o.withSt s').withVar v (some {})).own (.var v) = none := by
      rw [own_withVar, update_self]
      rfl
    have hmove := hown.move hempty hother'
    rw [show ((o.withSt s').withVar v (some {})).withVar v (some rest) = _ from withVar_withVar o v _ _ s' s'] at hmove
    have hrun' : ModelCrypt.moveAssign buf rest o.st = (.ok (rest, {}), s') := by
      rw [ModelCrypt.moveAssign, bind_ok hrun]
      rfl
    have hkept' : Kept o (((o.withSt s').withVar v (some rest)).withVar other (some {})) :=
      ⟨hkept.becomes, hkept.released⟩
    refine ⟨_, ?_, hmove, hkept'.changes _, fun _ _ _ he => (by simp at he)⟩
    rw [Op.exec, if_neg hself, bind_ok (var_run hv), bind_ok (var_run hother), bind_ok (inMemory_run hrun')]
    rfl
  | write v off x =>
    obtain ⟨buf, hv, hx⟩ := ha
    obtain ⟨s', hrun, hown, hkept⟩ := h.write hv hx
    refine ⟨_, ?_, hown, hkept.changes _, fun _ _ _ he => (by simp at he)⟩
    rw [Op.exec, bind_ok (var_run hv), inMemory_run hrun]
  | release v p =>
    obtain ⟨buf, hv⟩ := Option.ne_none_iff_exists'.mp ha.1
    have hkept : Kept o ((o.withVar v (some {})).withPtr p buf.data) := by
      refine .of_heap rfl fun q b hq => ?_
      have hne : q ≠ p := by
        rintro rfl
        rw [ha.2] at hq
        cases hq
      exact (update_of_ne hne ..).trans hq
    refine ⟨_, ?_, h.give ha.2 hv, hkept.changes _, fun _ _ _ he => (by simp at he)⟩
    rw [Op.exec, bind_ok (var_run hv)]
    rfl
  | destroy v =>
    obtain ⟨buf, hv⟩ := Option.ne_none_iff_exists'.mp ha
    obtain ⟨s', hrun, -, hown, hkept⟩ := h.wipe hv
    have hempty : ((o.withSt s').withVar v (some {})).own (.var v) = none := by
      rw [own_withVar, update_self]
      rfl
    have hgone := hown.setEmpty hempty none (by simp)
    rw [show ((o.withSt s').withVar v (some {})).withVar v none = _ from withVar_withVar o v _ _ s' s'] at hgone
    have hrun' : ModelCrypt.destroy buf o.st = (.ok (), s') := by
      rw [ModelCrypt.destroy, bind_ok hrun]
      rfl
    have hkept' : Kept o ((o.withSt s').withVar v none) := ⟨hkept.becomes, hkept.released⟩
    refine ⟨_, ?_, hgone, hkept'.changes _, fun _ _ _ he => (by simp at he)⟩
    rw [Op.exec, bind_ok (var_run hv), bind_ok (inMemory_run hrun')]
    rfl
  | free p size =>
    obtain ⟨s', hrun, hown, hch⟩ := h.free ha
    refine ⟨_, ?_, hown, hch, fun _ _ _ he => (by simp at he)⟩
    rw [Op.exec, bind_ok (rfl : state o = (.ok o, o)), bind_ok (inMemory_run hrun)]
    rfl

/-! ### Runs -/

/-- **In every state that is reached, each block in use has one owner.** By induction on the run. -/
theorem Reachable.owned (h : Reachable w o) : Owned o := by
  induction h with
  | start tr =>
    have hnone (a : Owner) : Owners.own ⟨⟨[], tr⟩, fun _ => none, fun _ => none⟩ a = none := by cases a <;> rfl
    refine ⟨fun v buf hv => (by cases hv), fun b => ?_, fun a a' b hab => absurd hab (by rw [hnone]; simp)⟩
    have hfree : Heap.get [] b = none := Heap.get_fresh (Nat.zero_le _)
    simp [Owners.Live, hfree, hnone]
  | next op h ha he ih =>
    obtain ⟨o', hrun, hown, -⟩ := ih.exec w ha
    rw [he] at hrun
    cases hrun
    exact hown

/-- A buffer has no block exactly if its size is 0, and else one of its size. -/
theorem Owned.sizes (h : Owned o) (hv : o.vars v = some buf) :
    (buf.data = none ↔ buf.size = 0) ∧ ∀ b, buf.data = some b → ∃ x, o.st.heap.get b = some x ∧
      x.length = buf.size := by
  obtain ⟨x, hx⟩ := h.holds v buf hv
  refine ⟨?_, fun b hb => ⟨x, hx.of_data hb, hx.size.symm⟩⟩
  cases hx with
  | empty => simp
  | block hne _ => simp [hne]

end Owned

/-- **SecureBuffer owns and wipes.** In every state that a program reaches, each block in use has one owner, a
variable or a released pointer; a buffer has a block exactly if its size is not 0, of that size; what C++ allows runs
without a fault, which a block freed twice would be; what the class frees is zero then, what was released stays as it
is, and `Reset` gives zeros; and when there are no variables and pointers left, no block is in use. -/
theorem buffers_own_and_wipe (w : World) (o : Owners) (h : Reachable w o) :
    (∀ b, o.Live b → ∃! a, o.own a = some b) ∧
    (∀ v buf, o.vars v = some buf → (buf.data = none ↔ buf.size = 0) ∧
      ∀ b, buf.data = some b → ∃ x, o.st.heap.get b = some x ∧ x.length = buf.size) ∧
    (∀ op, Permitted o op → ∃ o', op.exec w o = (.ok (), o') ∧ Changes o op o' ∧ GivesZeros op o') ∧
    ((∀ v, o.vars v = none) → (∀ p, o.ptrs p = none) → ∀ b, ¬ o.Live b) := by
  have hown := h.owned
  refine ⟨fun b hb => hown.owns.unique hb, fun v buf hv => hown.sizes hv, fun op ha => ?_, fun hv hp => ?_⟩
  · obtain ⟨o', hrun, -, hch, hz⟩ := hown.exec w ha
    exact ⟨o', hrun, hch, hz⟩
  · refine hown.owns.nothing fun a => ?_
    rcases a with v | p
    · rw [Owners.own, hv]
      rfl
    · exact hp p

/-- A block that is written, moved, released and freed. -/
def sampleOps : List Op :=
  [.constructSized 0 .derived 2, .write 0 0 [7, 8], .moveConstruct 1 0, .moveAssign 1 1, .release 1 0, .free 0 2]

/-- The state after some operations. -/
def afterOps (w : World) (ops : List Op) (o : Owners) : Owners := ops.foldl (fun o op => (op.exec w o).2) o

def noOwners : Owners := ⟨⟨[], []⟩, fun _ => none, fun _ => none⟩

theorem sampleOps_reachable : Reachable sampleWorld (afterOps sampleWorld sampleOps noOwners) := by
  have h0 : Reachable sampleWorld noOwners := .start []
  have h1 := h0.next (.constructSized 0 .derived 2) rfl rfl
  have h2 := h1.next (.write 0 0 [7, 8]) ⟨_, rfl, le_refl _⟩ rfl
  have h3 := h2.next (.moveConstruct 1 0) ⟨rfl, Option.some_ne_none _⟩ rfl
  have h4 := h3.next (.moveAssign 1 1) ⟨Option.some_ne_none _, Option.some_ne_none _⟩ rfl
  have h5 := h4.next (.release 1 0) ⟨Option.some_ne_none _, rfl⟩ rfl
  refine h5.next (.free 0 2) (fun b x hp hx => ?_) rfl
  cases hp
  cases hx
  exact le_refl 2

/-- The conclusion at that state, where the block is free and was wiped. -/
theorem sampleOps_own_and_wipe : (afterOps sampleWorld sampleOps noOwners).st.heap = [⟨false, [0, 0]⟩] ∧
    (∀ b, (afterOps sampleWorld sampleOps noOwners).Live b →
      ∃! a, (afterOps sampleWorld sampleOps noOwners).own a = some b) :=
  ⟨by decide +kernel, (buffers_own_and_wipe sampleWorld _ sampleOps_reachable).1⟩

end ModelCrypt
