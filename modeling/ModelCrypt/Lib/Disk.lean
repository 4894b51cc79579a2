/-
# Files that may be lost with the power

A disk has inodes and a directory of names. What a file holds now and what of
it is found after a power loss are two things: `durable` says what may be
found. The data written and the modes set since the last `sync` may be found
or not, in any mixture; so may the changes of each directory entry, which no
sync makes certain.

`look` is what a name holds now and `Found` what it may hold after a power
loss. A `draft` is a new file that one name was given to: what is done to it
until it is renamed or unlinked is an equation about drafts, and what the
other names hold, now or after a power loss, does not depend on it.

Key definitions: `Inode`, `Disk`, `Disk.look`, `Disk.Found`, `Disk.draft`.
Key theorems: `look_draft`, `look_unlink_draft`, `look_rename_draft`, `found_rename_draft`.
-/
import ModelCrypt.Lib.Bytes
import Mathlib.Logic.Function.Basic

namespace Lib

open Function

/-- The contents of a file and its permission bits. -/
structure File where
  data : Bytes
  mode : UInt32
  deriving DecidableEq, Repr

/-- A file: what it holds, and what of it may be found after a power loss. -/
structure Inode where
  now : File
  durable : File → Prop

namespace Inode

/-- A new file. -/
def create (mode : UInt32) : Inode := ⟨⟨[], mode⟩, (· = ⟨[], mode⟩)⟩

def chmod (mode : UInt32) (i : Inode) : Inode where
  now := { i.now with mode := mode }
  durable f := i.durable f ∨ ∃ g, i.durable g ∧ f = { g with mode := mode }

/-- Write at a position, past the end behind zeros; nothing is known of the
durable data until the next sync. -/
def write (pos : ℕ) (x : Bytes) (i : Inode) : Inode where
  now := { i.now with data := overwrite (i.now.data ++ zeros (pos - i.now.data.length)) pos x }
  durable f := ∃ g, i.durable g ∧ f.mode = g.mode

def sync (i : Inode) : Inode := ⟨i.now, (· = i.now)⟩

/-- Writing at the end appends. -/
theorem write_now_end (x : Bytes) (i : Inode) :
    (i.write i.now.data.length x).now = { i.now with data := i.now.data ++ x } := by
  simp [write, overwrite]

/-- All the modes of the file, also those that may be found after a power loss, are in `P`. -/
def Modes (P : UInt32 → Prop) (i : Inode) : Prop := P i.now.mode ∧ ∀ f, i.durable f → P f.mode

section Modes

variable {P Q : UInt32 → Prop} {i : Inode} {mode : UInt32}

theorem Modes.imp (h : i.Modes P) (hq : ∀ m, P m → Q m) : i.Modes Q := ⟨hq _ h.1, fun f hf => hq _ (h.2 f hf)⟩

theorem modes_create (h : P mode) : (create mode).Modes P := ⟨h, by rintro _ rfl; exact h⟩

theorem Modes.chmod (h : i.Modes P) (hm : P mode) : (i.chmod mode).Modes P := by
  refine ⟨hm, ?_⟩
  rintro f (hf | ⟨g, -, rfl⟩)
  · exact h.2 f hf
  · exact hm

theorem Modes.write (h : i.Modes P) (pos : ℕ) (x : Bytes) : (i.write pos x).Modes P := by
  refine ⟨h.1, ?_⟩
  rintro f ⟨g, hg, hm⟩
  rw [hm]
  exact h.2 g hg

theorem Modes.sync (h : i.Modes P) : i.sync.Modes P := ⟨h.1, by rintro _ rfl; exact h.1⟩

end Modes
end Inode

/-- Inodes and a directory, whose entries are all among the inodes. -/
structure Disk (Name : Type) where
  inodes : List Inode
  entry : Name → Option ℕ
  durable : Name → Option ℕ → Prop
  entry_lt : ∀ n id, entry n = some id → id < inodes.length
  durable_lt : ∀ n id, durable n (some id) → id < inodes.length

namespace Disk

variable {Name : Type}

/-! ### What a name holds -/

/-- What a name holds now. -/
def look (n : Name) (d : Disk Name) : Option File := (d.entry n).bind fun id => d.inodes[id]?.map (·.now)

/-- What a name may hold after a power loss. -/
def Found (n : Name) (d : Disk Name) : Option File → Prop
  | none => d.durable n none
  | some f => ∃ id i, d.durable n (some id) ∧ d.inodes[id]? = some i ∧ i.durable f

theorem inode_of_entry {d : Disk Name} {n : Name} {id : ℕ} (h : d.entry n = some id) : ∃ i, d.inodes[id]? = some i :=
  ⟨_, List.getElem?_eq_getElem (d.entry_lt n id h)⟩

theorem look_of_inode {d : Disk Name} {n : Name} {id : ℕ} {i : Inode} (h : d.entry n = some id)
    (hi : d.inodes[id]? = some i) : d.look n = some i.now := by
  rw [look, h, Option.bind_some, hi]
  rfl

/-- The old inodes are as they were, and the new ones are in `P`. -/
def Adds (P : Inode → Prop) (d d' : Disk Name) : Prop := ∃ new, d'.inodes = d.inodes ++ new ∧ ∀ i ∈ new, P i

theorem Adds.refl (P : Inode → Prop) (d : Disk Name) : Adds P d d := ⟨[], by simp, by simp⟩

/-- A name with the same entry holds what it held, whatever inodes are new. -/
theorem look_of_entry {d d' : Disk Name} {m : Name} (new : List Inode) (hi : d'.inodes = d.inodes ++ new)
    (he : d'.entry m = d.entry m) :
    d'.look m = d.look m := by
  unfold look
  rw [he, hi]
  rcases hid : d.entry m with _ | id
  · rfl
  · rw [Option.bind_some, Option.bind_some, List.getElem?_append_left (d.entry_lt m id hid)]

/-- A name with the same durable entries finds what it would have found. -/
theorem found_of_durable {d : Disk Name} (d' : Disk Name) {m : Name} {new : List Inode} {v : Option File}
    (hi : d'.inodes = d.inodes ++ new)
    (hd : ∀ v, d'.durable m v → d.durable m v) (h : d'.Found m v) : d.Found m v := by
  cases v with
  | none => exact hd _ h
  | some f =>
    obtain ⟨id, j, hid, hj, hf⟩ := h
    have := hd _ hid
    rw [hi, List.getElem?_append_left (d.durable_lt m id this)] at hj
    exact ⟨id, j, this, hj, hf⟩

/-! ### The operations -/

/-- Change one inode. -/
def touch (id : ℕ) (f : Inode → Inode) (d : Disk Name) : Disk Name where
  inodes := d.inodes.modify id f
  entry := d.entry
  durable := d.durable
  entry_lt n i h := by
    rw [List.length_modify]
    exact d.entry_lt n i h
  durable_lt n i h := by
    rw [List.length_modify]
    exact d.durable_lt n i h

variable [DecidableEq Name]

/-- A new inode under a name. -/
def draft (n : Name) (i : Inode) (d : Disk Name) : Disk Name where
  inodes := d.inodes ++ [i]
  entry := update d.entry n (some d.inodes.length)
  durable m v := d.durable m v ∨ m = n ∧ v = some d.inodes.length
  entry_lt m id h := by
    rw [List.length_append, List.length_singleton]
    by_cases hm : m = n
    · subst hm
      rw [update_self] at h
      cases h
      omega
    · rw [update_of_ne hm] at h
      exact Nat.lt_succ_of_lt (d.entry_lt m id h)
  durable_lt m id h := by
    rw [List.length_append, List.length_singleton]
    rcases h with h | ⟨-, h⟩
    · exact Nat.lt_succ_of_lt (d.durable_lt m id h)
    · cases h
      omega

def unlink (n : Name) (d : Disk Name) : Disk Name where
  inodes := d.inodes
  entry := update d.entry n none
  durable m v := d.durable m v ∨ m = n ∧ v = none
  entry_lt m id h := by
    by_cases hm : m = n
    · subst hm
      rw [update_self] at h
      cases h
    · rw [update_of_ne hm] at h
      exact d.entry_lt m id h
  durable_lt m id h := by
    rcases h with h | ⟨-, h⟩
    · exact d.durable_lt m id h
    · cases h

/-- Move the file of one name to another. -/
def relink (a b : Name) (d : Disk Name) : Disk Name where
  inodes := d.inodes
  entry := update (update d.entry a none) b (d.entry a)
  durable m v := d.durable m v ∨ m = a ∧ v = none ∨ m = b ∧ v = d.entry a
  entry_lt m id h := by
    by_cases hb : m = b
    · subst hb
      rw [update_self] at h
      exact d.entry_lt a id h
    · rw [update_of_ne hb] at h
      by_cases ha : m = a
      · subst ha
        rw [update_self] at h
        cases h
      · rw [update_of_ne ha] at h
        exact d.entry_lt m id h
  durable_lt m id h := by
    rcases h with h | ⟨-, h⟩ | ⟨-, h⟩
    · exact d.durable_lt m id h
    · cases h
    · exact d.entry_lt a id h.symm

/-- `rename`: nothing is moved if both names have the same file already. -/
def rename (a b : Name) (d : Disk Name) : Disk Name :=
  if d.entry a = none ∨ d.entry b = d.entry a then d else d.relink a b

/-! ### Drafts -/

variable {d : Disk Name} {n m o : Name} {i : Inode}

theorem touch_draft (g : Inode → Inode) : (d.draft n i).touch d.inodes.length g = d.draft n (g i) := by
  have h : (d.inodes ++ [i]).modify d.inodes.length g = d.inodes ++ [g i] :=
    List.modifyTailIdx_add (List.modifyHead g) 0 d.inodes [i]
  unfold touch draft
  congr 1

theorem entry_draft_ne (hm : m ≠ n) : (d.draft n i).entry m = d.entry m := update_of_ne hm ..

theorem entry_draft_self : (d.draft n i).entry n = some d.inodes.length := update_self ..

theorem look_draft_self : (d.draft n i).look n = some i.now := by
  rw [look, entry_draft_self, Option.bind_some, draft, List.getElem?_concat_length]
  rfl

/-- The other names hold what they held. -/
theorem look_draft (hm : m ≠ n) : (d.draft n i).look m = d.look m := look_of_entry [i] rfl (entry_draft_ne hm)

theorem look_unlink_draft (hn : d.entry n = none) : ((d.draft n i).unlink n).look m = d.look m := by
  refine look_of_entry [i] rfl ?_
  by_cases hm : m = n
  · subst hm
    rw [hn]
    exact update_self ..
  · exact (update_of_ne hm ..).trans (entry_draft_ne hm)

/-- Under another name, a draft is always moved: that name has no inode that is new. -/
theorem rename_draft_ne (ho : o ≠ n) : (d.draft n i).rename n o = (d.draft n i).relink n o := by
  have hne : d.entry o ≠ some d.inodes.length := fun h => absurd (d.entry_lt o _ h) (Nat.lt_irrefl _)
  refine if_neg ?_
  rw [entry_draft_self, entry_draft_ne ho]
  simp [hne]

theorem entry_relink_draft :
    ((d.draft n i).relink n o).entry = update (update d.entry n none) o (some d.inodes.length) := by
  show update (update (d.draft n i).entry n none) o ((d.draft n i).entry n) = _
  rw [entry_draft_self, draft, update_idem]

/-- Renamed, the draft is what the new name holds. -/
theorem look_rename_draft : ((d.draft n i).rename n o).look o = some i.now := by
  by_cases ho : o = n
  · subst ho
    rw [rename, if_pos (.inr rfl)]
    exact look_draft_self
  · rw [rename_draft_ne ho, look, entry_relink_draft, update_self, Option.bind_some]
    show (d.inodes ++ [i])[d.inodes.length]?.map (·.now) = _
    rw [List.getElem?_concat_length]
    rfl

theorem look_rename_draft_ne (hn : d.entry n = none) (hm : m ≠ o) :
    ((d.draft n i).rename n o).look m = d.look m := by
  by_cases ho : o = n
  · subst ho
    rw [rename, if_pos (.inr rfl)]
    exact look_draft hm
  · rw [rename_draft_ne ho]
    refine look_of_entry [i] rfl ?_
    rw [entry_relink_draft, update_of_ne hm]
    by_cases hmn : m = n
    · subst hmn
      rw [update_self, hn]
    · rw [update_of_ne hmn]

/-! ### Drafts and power losses -/

theorem found_draft {v : Option File} (hm : m ≠ n) (h : (d.draft n i).Found m v) : d.Found m v :=
  found_of_durable (d.draft n i) rfl (fun _ hv => hv.resolve_right fun h => hm h.1) h

theorem found_unlink_draft {v : Option File} (hm : m ≠ n) (h : ((d.draft n i).unlink n).Found m v) : d.Found m v :=
  found_of_durable ((d.draft n i).unlink n) rfl
    (fun _ hv => (hv.resolve_right fun h => hm h.1).resolve_right fun h => hm h.1) h

/-- Renamed, the draft is all that the new name may hold besides what it held. -/
theorem found_rename_draft {v : Option File} (ho : o ≠ n) (h : ((d.draft n i).rename n o).Found o v) :
    d.Found o v ∨ ∃ f, v = some f ∧ i.durable f := by
  rw [rename_draft_ne ho] at h
  have hd : ∀ w, ((d.draft n i).relink n o).durable o w → d.durable o w ∨ w = some d.inodes.length := by
    rintro w ((hw | hw) | hw | hw)
    · exact .inl hw
    · exact absurd hw.1 ho
    · exact absurd hw.1 ho
    · exact .inr (hw.2.trans entry_draft_self)
  cases v with
  | none => exact .inl ((hd _ h).resolve_right fun hw => by cases hw)
  | some f =>
    obtain ⟨id, j, hid, hj, hf⟩ := h
    rcases hd _ hid with hid | hid
    · exact .inl ⟨id, j, hid, (List.getElem?_append_left (d.durable_lt o id hid)).symm.trans hj, hf⟩
    · cases hid
      cases List.getElem?_concat_length.symm.trans hj
      exact .inr ⟨f, rfl, hf⟩

theorem adds_draft {P : Inode → Prop} (hi : P i) : Adds P d (d.draft n i) := ⟨[i], rfl, by simpa using hi⟩

theorem adds_unlink_draft {P : Inode → Prop} (hi : P i) : Adds P d ((d.draft n i).unlink n) :=
  ⟨[i], rfl, by simpa using hi⟩

theorem adds_rename_draft {P : Inode → Prop} (hi : P i) : Adds P d ((d.draft n i).rename n o) := by
  refine ⟨[i], ?_, by simpa using hi⟩
  unfold rename
  split <;> rfl

end Disk
end Lib
