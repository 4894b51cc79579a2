/-
# A heap of byte blocks that are freed once and never reused

A heap is the list of all the blocks there ever were, in the order of their
allocation; a block is in use or freed, and a freed one keeps the bytes it
had when it was freed, so that "wiped before it is freed" can be said. An
access through a pointer gives nothing when it would leave its block or the
block is not in use.

`get` is the heap as a map from blocks in use to their bytes. `Becomes h h' g`:
from `h` to `h'` the map became `g`, and every block freed on the way was all
zero then. Each operation is one update of the map, so what a program does to
memory is an equation about maps.

Key definitions: `Heap.get`, `Heap.Becomes`, `Heap.Tidy`.
Key theorems: `Becomes.trans`, `becomes_alloc`, `becomes_store`, `becomes_free`, `Becomes.tidy`.
-/
import ModelCrypt.Lib.Bytes
import Mathlib.Logic.Function.Basic

namespace Lib

open Function

/-- A block: in use, or freed with the bytes it had then. -/
structure Cell where
  live : Bool
  bytes : Bytes
  deriving DecidableEq, Repr

abbrev Heap := List Cell

/-- The null pointer, or a position in a block. -/
inductive Ptr
  | null
  | into (block off : ℕ)
  deriving DecidableEq, Repr

/-- Pointer arithmetic; null stays null. -/
def Ptr.add : Ptr → ℕ → Ptr
  | null, _ => null
  | into b off, k => into b (off + k)

/-- There are `n` bytes at the pointer in the memory `g`. -/
def Ptr.Fits (n : ℕ) (g : ℕ → Option Bytes) : Ptr → Prop
  | null => n = 0
  | into b off => ∃ x, g b = some x ∧ off + n ≤ x.length

/-- The memory `g` with `d` written at the pointer. -/
def Ptr.put (d : Bytes) (g : ℕ → Option Bytes) : Ptr → ℕ → Option Bytes
  | null => g
  | into b off => update g b ((g b).map (overwrite · off d))

/-- All its bytes are zero. -/
def Zeroed (x : Bytes) : Prop := ∀ y ∈ x, y = 0

theorem zeroed_zeros (n : ℕ) : Zeroed (zeros n) := fun _ => List.eq_of_mem_replicate

namespace Ptr

variable {p : Ptr} {g : ℕ → Option Bytes} {n m : ℕ} {d e x : Bytes} {b off : ℕ}

theorem fits_into (hb : g b = some x) (hle : off + n ≤ x.length) : (into b off).Fits n g := ⟨x, hb, hle⟩

theorem Fits.le (hp : p.Fits n g) (hle : m ≤ n) : p.Fits m g := by
  cases p with
  | null =>
    have : n = 0 := hp
    show m = 0
    omega
  | into b off =>
    obtain ⟨x, hb, hx⟩ := hp
    exact ⟨x, hb, by omega⟩

theorem put_into (hb : g b = some x) : (into b off).put d g = update g b (some (overwrite x off d)) := by
  rw [put, hb]
  rfl

theorem put_nil (p : Ptr) (g : ℕ → Option Bytes) : p.put [] g = g := by
  cases p with
  | null => rfl
  | into b off =>
    rw [put]
    rcases hb : g b with _ | x
    · exact update_eq_iff.mpr ⟨hb.symm, fun _ _ => rfl⟩
    · rw [Option.map_some, overwrite_nil]
      exact update_eq_iff.mpr ⟨hb.symm, fun _ _ => rfl⟩

/-- Writing keeps the lengths of the blocks. -/
theorem Fits.put {q : Ptr} (hq : q.Fits m g) (hp : p.Fits n g) (hd : d.length ≤ n) : q.Fits m (p.put d g) := by
  cases p with
  | null => exact hq
  | into b off =>
    obtain ⟨x, hb, hx⟩ := hp
    rw [put_into hb]
    cases q with
    | null => exact hq
    | into b' off' =>
      obtain ⟨x', hb', hx'⟩ := hq
      by_cases hne : b' = b
      · subst hne
        rw [hb] at hb'
        cases hb'
        exact ⟨_, update_self .., by rw [overwrite_length (by omega)]; exact hx'⟩
      · exact ⟨x', by rw [update_of_ne hne]; exact hb', hx'⟩

/-- The later of two writes to one place is what stays, if it is the longer one. -/
theorem put_put (hp : p.Fits n g) (hd : d.length ≤ e.length) (he : e.length ≤ n) :
    p.put e (p.put d g) = p.put e g := by
  cases p with
  | null => rfl
  | into b off =>
    obtain ⟨x, hb, hx⟩ := hp
    rw [put_into hb, put_into hb, put_into (update_self ..), update_idem, overwrite_overwrite (by omega) hd]

/-- Writing on, right after what was written. -/
theorem put_add (hp : p.Fits n g) (h : d.length + e.length ≤ n) :
    (p.add d.length).put e (p.put d g) = p.put (d ++ e) g := by
  cases p with
  | null => rfl
  | into b off =>
    obtain ⟨x, hb, hx⟩ := hp
    rw [put_into hb, put_into hb, add, put_into (update_self ..), update_idem, overwrite_append (by omega)]

theorem Fits.add (hp : p.Fits n g) (h : m ≤ n) : (p.add m).Fits (n - m) g := by
  cases p with
  | null =>
    have : n = 0 := hp
    show n - m = 0
    omega
  | into b off =>
    obtain ⟨x, hb, hx⟩ := hp
    exact ⟨x, hb, by omega⟩

end Ptr

namespace Heap

/-- The bytes of a block in use. -/
def get (h : Heap) (b : ℕ) : Option Bytes := h[b]?.bind fun c => if c.live then some c.bytes else none

/-- Take a new block into use; it is block number `h.length`. -/
def alloc (h : Heap) (x : Bytes) : Heap := h ++ [⟨true, x⟩]

def load (h : Heap) (p : Ptr) (n : ℕ) : Option Bytes :=
  match p with
  | .null => if n = 0 then some [] else none
  | .into b off => (h.get b).bind fun x => if off + n ≤ x.length then some (slice x off n) else none

def store (h : Heap) (p : Ptr) (d : Bytes) : Option Heap :=
  match p with
  | .null => if d = [] then some h else none
  | .into b off => (h.get b).bind fun x =>
    if off + d.length ≤ x.length then some (h.set b ⟨true, overwrite x off d⟩) else none

def free (h : Heap) (b : ℕ) : Option Heap := (h.get b).map fun x => h.set b ⟨false, x⟩

/-- How many bytes there are at a pointer. -/
def room (h : Heap) : Ptr → ℕ
  | .null => 0
  | .into b off => ((h.get b).getD []).length - off

variable {h h' h'' : Heap} {g g' : ℕ → Option Bytes} {b : ℕ} {x : Bytes}

theorem get_eq_some : h.get b = some x ↔ h[b]? = some ⟨true, x⟩ := by
  unfold get
  rcases h[b]? with _ | ⟨_ | _, y⟩ <;> simp

theorem lt_of_get (hb : h.get b = some x) : b < h.length := by
  by_contra hle
  rw [get_eq_some, List.getElem?_eq_none (Nat.not_lt.mp hle)] at hb
  cases hb

theorem get_fresh (hb : h.length ≤ b) : h.get b = none := by
  rw [get, List.getElem?_eq_none hb]
  rfl

theorem get_set_self (hb : b < h.length) (c : Cell) :
    get (h.set b c) b = if c.live then some c.bytes else none := by
  rw [get, List.getElem?_set_self hb]
  rfl

theorem get_set_ne {b' : ℕ} (hne : b' ≠ b) (c : Cell) : get (h.set b c) b' = h.get b' := by
  rw [get, List.getElem?_set_ne hne.symm, get]

theorem get_alloc (x : Bytes) : (h.alloc x).get = update h.get h.length (some x) := by
  funext b
  by_cases hb : b = h.length
  · subst hb
    rw [update_self, get_eq_some, alloc, List.getElem?_concat_length]
  · rw [update_of_ne hb]
    by_cases hlt : b < h.length
    · rw [get, alloc, List.getElem?_append_left hlt, get]
    · rw [get_fresh (Nat.not_lt.mp hlt), get_fresh]
      simp only [alloc, List.length_append, List.length_singleton]
      omega

theorem get_store_into {off : ℕ} (hb : h.get b = some x) (d : Bytes) :
    get (h.set b ⟨true, overwrite x off d⟩) = update h.get b (some (overwrite x off d)) := by
  funext b'
  by_cases hne : b' = b
  · subst hne
    rw [update_self, get_set_self (lt_of_get hb)]
    rfl
  · rw [update_of_ne hne, get_set_ne hne]

theorem get_free (hb : h.get b = some x) : get (h.set b ⟨false, x⟩) = update h.get b none := by
  funext b'
  by_cases hne : b' = b
  · subst hne
    rw [update_self, get_set_self (lt_of_get hb)]
    rfl
  · rw [update_of_ne hne, get_set_ne hne]

theorem load_into {off n : ℕ} (hb : h.get b = some x) (hle : off + n ≤ x.length) :
    h.load (.into b off) n = some (slice x off n) := by
  simp [load, hb, hle]

/-! ### What a run of operations does to memory -/

/-- From `h` to `h'` the blocks in use became `g`, what was freed was all zero then, and what was freed
before stayed as it was. -/
structure Becomes (h h' : Heap) (g : ℕ → Option Bytes) : Prop where
  length_le : h.length ≤ h'.length
  get_eq : h'.get = g
  dead : ∀ (b : ℕ) (x : Bytes), h[b]? = some ⟨false, x⟩ → h'[b]? = some ⟨false, x⟩
  wiped : ∀ (b : ℕ) (x : Bytes), h'[b]? = some ⟨false, x⟩ → h[b]? = some ⟨false, x⟩ ∨ Zeroed x

theorem Becomes.refl (h : Heap) : Becomes h h h.get := ⟨le_refl _, rfl, fun _ _ hb => hb, fun _ _ hb => .inl hb⟩

theorem Becomes.trans (h1 : Becomes h h' g) (h2 : Becomes h' h'' g') : Becomes h h'' g' where
  length_le := le_trans h1.length_le h2.length_le
  get_eq := h2.get_eq
  dead b x hb := h2.dead b x (h1.dead b x hb)
  wiped b x hb := (h2.wiped b x hb).elim (h1.wiped b x) .inr

theorem Becomes.cast (h1 : Becomes h h' g) (hg : g = g') : Becomes h h' g' := hg ▸ h1

theorem becomes_alloc (h : Heap) (x : Bytes) :
    Becomes h (h.alloc x) (update h.get h.length (some x)) where
  length_le := by simp [alloc]
  get_eq := get_alloc x
  dead b y hb := by
    rw [alloc, List.getElem?_append_left (List.getElem?_eq_some_iff.mp hb).1]
    exact hb
  wiped b y hb := by
    refine .inl ?_
    unfold alloc at hb
    rw [List.getElem?_append] at hb
    split at hb
    · exact hb
    · rcases hn : b - h.length with _ | n
      · rw [hn] at hb
        cases hb
      · rw [hn] at hb
        simp at hb

/-- A change to a block in use leaves the freed ones. -/
theorem dead_set {c : Cell} {b' : ℕ} {y : Bytes} (hb : h.get b = some x) (hd : h[b']? = some ⟨false, y⟩) :
    (h.set b c)[b']? = some ⟨false, y⟩ := by
  have hne : b ≠ b' := by
    rintro rfl
    rw [get_eq_some.mp hb] at hd
    cases hd
  rw [List.getElem?_set_ne hne, hd]

theorem becomes_store {p : Ptr} {d : Bytes} (hp : p.Fits d.length h.get) :
    ∃ h', h.store p d = some h' ∧ Becomes h h' (p.put d h.get) := by
  cases p with
  | null => exact ⟨h, by simp [store, List.eq_nil_of_length_eq_zero hp], Becomes.refl h⟩
  | into b off =>
    obtain ⟨x, hb, hle⟩ := hp
    refine ⟨h.set b ⟨true, overwrite x off d⟩, by simp [store, hb, hle], by simp, ?_, fun b' y => dead_set hb, ?_⟩
    · rw [get_store_into hb d, Ptr.put, hb]
      rfl
    intro b' y hy
    by_cases hne : b = b'
    · subst hne
      rw [List.getElem?_set_self (lt_of_get hb)] at hy
      cases hy
    · rw [List.getElem?_set_ne hne] at hy
      exact .inl hy

theorem becomes_free (hb : h.get b = some x) (hz : Zeroed x) :
    ∃ h', h.free b = some h' ∧ Becomes h h' (update h.get b none) := by
  refine ⟨h.set b ⟨false, x⟩, by simp [free, hb], by simp, get_free hb, fun b' y => dead_set hb, ?_⟩
  intro b' y hy
  by_cases hne : b = b'
  · subst hne
    rw [List.getElem?_set_self (lt_of_get hb)] at hy
    cases hy
    exact .inr hz
  · rw [List.getElem?_set_ne hne] at hy
    exact .inl hy

/-! ### What a run leaves behind -/

/-- The block was freed, and it was zero on its whole length then. -/
def Gone (h : Heap) (b : ℕ) : Prop := ∃ x, h[b]? = some ⟨false, x⟩ ∧ Zeroed x

/-- From `h` to `h'`: what there was is as it was, `keep` is a new block in use, if it is one at all, and
every other new block was wiped and freed. -/
structure Tidy (h h' : Heap) (keep : Option ℕ) : Prop where
  before : ∀ b < h.length, h'[b]? = h[b]?
  kept : ∀ b, keep = some b → h.length ≤ b ∧ (h'.get b).isSome = true
  gone : ∀ b, h.length ≤ b → b < h'.length → keep ≠ some b → Gone h' b

theorem get_eq_none : h.get b = none ↔ h[b]? = none ∨ ∃ x, h[b]? = some ⟨false, x⟩ := by
  unfold get
  rcases h[b]? with _ | ⟨_ | _, y⟩ <;> simp

/-- A run after which memory is as it was but for a block that was not in use is tidy. -/
theorem Becomes.tidy {keep : Option ℕ} (hb : Becomes h h' g) (hsame : ∀ b, keep ≠ some b → g b = h.get b)
    (hnew : ∀ b, keep = some b → h.get b = none ∧ (g b).isSome = true) : Tidy h h' keep := by
  have hkept : ∀ b, keep = some b → h.length ≤ b := by
    intro b hk
    by_contra hlt
    obtain ⟨hn, hs⟩ := hnew b hk
    rcases get_eq_none.mp hn with he | ⟨x, he⟩
    · exact hlt (List.getElem?_eq_none_iff.mp he)
    · rw [← hb.get_eq, get_eq_none.mpr (.inr ⟨x, hb.dead b x he⟩)] at hs
      cases hs
  refine ⟨fun b hlt => ?_, fun b hk => ⟨hkept b hk, hb.get_eq ▸ (hnew b hk).2⟩, fun b hle hlt hk => ?_⟩
  · have hk : keep ≠ some b := fun e => Nat.not_lt.mpr (hkept b e) hlt
    rcases hc : h[b]? with _ | ⟨_ | _, x⟩
    · exact absurd (List.getElem?_eq_none_iff.mp hc) (Nat.not_le.mpr hlt)
    · exact hb.dead b x hc
    · rw [← get_eq_some] at hc ⊢
      rw [hb.get_eq, hsame b hk, hc]
  · have hn : h'.get b = none := by rw [hb.get_eq, hsame b hk, get_fresh hle]
    rcases get_eq_none.mp hn with he | ⟨x, he⟩
    · exact absurd (List.getElem?_eq_none_iff.mp he) (Nat.not_le.mpr hlt)
    · refine ⟨x, he, (hb.wiped b x he).resolve_left fun e => ?_⟩
      rw [List.getElem?_eq_none hle] at e
      cases e

end Heap
end Lib
