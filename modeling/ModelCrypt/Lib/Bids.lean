/-
# Names that one of many gets

Several make files on one disk, each a new one under a name that is absent, and
write them in place, at the end. Of all that bid for one name the first one gets
it, and the others find it taken; a name that was taken stays taken. Who reads a
file meanwhile may find a part of it: the beginning of what it comes to hold.

Key definitions: `Bid`, `Once`, `Bids`.
Key theorems: `Bids.gets`, `Bids.writes`, `Bids.reads`, `Bids.once`, `Bids.winner`.
-/
import ModelCrypt.Lib.Drafts

namespace Lib

open Function

/-- What somebody has to do with the names: nothing yet, or a new file under one, or one that was found taken. Or the
file under one is open, and was read up to a position. -/
inductive Bid (Name : Type)
  | waiting
  | got (x : Draft Name)
  | missed (n : Name)
  | reading (n : Name) (id : ℕ) (y : Bytes)

section Bidding

variable {Name ι : Type} {P : ι → Draft Name → Prop} {d0 d : Disk Name} {G : ι → Bid Name} {i j : ι} {g : Bid Name}
  {x y : Draft Name} {n : Name} {f : File}

/-- A name held a file at one time: it did at the start, or one of those that may make it did make it; `P` is what each
may make. -/
def Once (P : ι → Draft Name → Prop) (d0 : Disk Name) (n : Name) (f : File) : Prop :=
  d0.look n = some f ∨ d0.entry n = none ∧ ∃ i x, P i x ∧ x.name = n ∧ x.inode.now = f

/-- The disk `d` that was `d0` before the bids. -/
structure Bids (P : ι → Draft Name → Prop) (d0 : Disk Name) (G : ι → Bid Name) (d : Disk Name) : Prop where
  makes : ∀ i x, G i = .got x → P i x
  absent : ∀ i x, G i = .got x → d0.entry x.name = none
  entry : ∀ i x, G i = .got x → d.entry x.name = some x.id
  inode : ∀ i x, G i = .got x → d.inodes[x.id]? = some x.inode
  alone : ∀ i j x y, G i = .got x → G j = .got y → x.id = y.id → i = j
  fresh : ∀ i x, G i = .got x → d0.inodes.length ≤ x.id
  taken : ∀ i n, G i = .missed n → d.entry n ≠ none
  seen : ∀ i n id y, G i = .reading n id y → d.entry n = some id ∧ ∃ k, d.inodes[id]? = some k ∧ y <+: k.now.data
  old : ∀ (id : ℕ) k, d0.inodes[id]? = some k → d.inodes[id]? = some k
  kept : ∀ n id, d0.entry n = some id → d.entry n = some id
  entries : ∀ n id, d.entry n = some id → d0.entry n = some id ∨ ∃ i x, G i = .got x ∧ x.name = n ∧ x.id = id
  durable : ∀ n v, d.durable n v → d0.durable n v ∨ ∃ i x, G i = .got x ∧ x.name = n ∧ v = some x.id

namespace Bids

/-! ### What it says of the names -/

theorem start (hg : ∀ i, G i = .waiting) : Bids P d G d where
  makes i x h := by rw [hg] at h; cases h
  absent i x h := by rw [hg] at h; cases h
  entry i x h := by rw [hg] at h; cases h
  inode i x h := by rw [hg] at h; cases h
  alone i j x y h := by rw [hg] at h; cases h
  fresh i x h := by rw [hg] at h; cases h
  taken i n h := by rw [hg] at h; cases h
  seen i n id y h := by rw [hg] at h; cases h
  old _ _ h := h
  kept _ _ h := h
  entries _ _ h := .inl h
  durable _ _ h := .inl h

/-- A name that was there holds what it held. -/
theorem look_kept (hb : Bids P d0 G d) (hn : d0.entry n ≠ none) : d.look n = d0.look n := by
  obtain ⟨id, hid⟩ := Option.ne_none_iff_exists'.mp hn
  obtain ⟨k, hk⟩ := Disk.inode_of_entry hid
  rw [Disk.look_of_inode hid hk, Disk.look_of_inode (hb.kept n id hid) (hb.old id k hk)]

theorem look_got (hb : Bids P d0 G d) (hx : G i = .got x) : d.look x.name = some x.inode.now :=
  Disk.look_of_inode (hb.entry i x hx) (hb.inode i x hx)

/-- A new name is somebody's. -/
theorem owner (hb : Bids P d0 G d) (h0 : d0.entry n = none) (hn : d.entry n ≠ none) :
    ∃ i x, G i = .got x ∧ x.name = n := by
  obtain ⟨id, hid⟩ := Option.ne_none_iff_exists'.mp hn
  rcases hb.entries n id hid with h | ⟨i, x, hx, hxn, -⟩
  · rw [h0] at h
    cases h
  · exact ⟨i, x, hx, hxn⟩

/-- **Who missed a new name lost it to somebody.** -/
theorem winner (hb : Bids P d0 G d) (h0 : d0.entry n = none) (hm : G i = .missed n) :
    ∃ j x, G j = .got x ∧ x.name = n :=
  hb.owner h0 (hb.taken i n hm)

/-- **Nobody else got the same name.** -/
theorem one (hb : Bids P d0 G d) (hx : G i = .got x) (hy : G j = .got y) (hn : x.name = y.name) : i = j := by
  refine hb.alone i j x y hx hy (Option.some.inj ?_)
  rw [← hb.entry i x hx, ← hb.entry j y hy, hn]

/-- **What a name holds is what it held or what somebody made.** -/
theorem once (hb : Bids P d0 G d) (hf : d.look n = some f) : Once P d0 n f := by
  by_cases h0 : d0.entry n = none
  · obtain ⟨i, x, hx, rfl⟩ := hb.owner h0 fun h => by rw [Disk.look, h] at hf; cases hf
    rw [hb.look_got hx] at hf
    exact .inr ⟨h0, i, x, hb.makes i x hx, rfl, Option.some.inj hf⟩
  · exact .inl ((hb.look_kept h0).symm.trans hf)

/-- After a power loss, a name holds what it may have held, or what may be left of a file that somebody made. -/
theorem found (hb : Bids P d0 G d) (hf : d.Found n (some f)) :
    d0.Found n (some f) ∨ d0.entry n = none ∧ ∃ i x, P i x ∧ x.name = n ∧ x.inode.durable f := by
  obtain ⟨id, k, hid, hk, hd⟩ := hf
  rcases hb.durable n _ hid with h | ⟨i, x, hx, hxn, he⟩
  · obtain ⟨k0, hk0⟩ : ∃ k0, d0.inodes[id]? = some k0 := ⟨_, List.getElem?_eq_getElem (d0.durable_lt n id h)⟩
    cases hk.symm.trans (hb.old id k0 hk0)
    exact .inl ⟨id, _, h, hk0, hd⟩
  · cases he
    cases hk.symm.trans (hb.inode i x hx)
    exact .inr ⟨hxn ▸ hb.absent i x hx, i, x, hb.makes i x hx, hxn, hd⟩

/-! ### What keeps it -/

variable [DecidableEq ι]

/-- Somebody without a file does something that leaves the disk alone. -/
theorem quiet (hb : Bids P d0 G d) (hi : ∀ x, G i ≠ .got x) (hg : ∀ x, g ≠ .got x)
    (taken : ∀ n, g = .missed n → d.entry n ≠ none)
    (seen : ∀ n id y, g = .reading n id y → d.entry n = some id ∧ ∃ k, d.inodes[id]? = some k ∧ y <+: k.now.data) :
    Bids P d0 (update G i g) d := by
  have hgot : ∀ j x, update G i g j = .got x ↔ G j = .got x := by
    intro j x
    by_cases hj : j = i
    · subst hj
      rw [update_self]
      exact iff_of_false (hg x) (hi x)
    · rw [update_of_ne hj]
  refine ⟨?_, ?_, ?_, ?_, ?_, ?_, fun j m hm => ?_, fun j m id y hy => ?_, hb.old, hb.kept, ?_, ?_⟩
  · simpa only [hgot] using hb.makes
  · simpa only [hgot] using hb.absent
  · simpa only [hgot] using hb.entry
  · simpa only [hgot] using hb.inode
  · simpa only [hgot] using hb.alone
  · simpa only [hgot] using hb.fresh
  · by_cases hj : j = i
    · subst hj
      rw [update_self] at hm
      exact taken m hm
    · rw [update_of_ne hj] at hm
      exact hb.taken j m hm
  · by_cases hj : j = i
    · subst hj
      rw [update_self] at hy
      exact seen m id y hy
    · rw [update_of_ne hj] at hy
      exact hb.seen j m id y hy
  · simpa only [hgot] using hb.entries
  · simpa only [hgot] using hb.durable

/-- A bid for a name that is taken. -/
theorem misses (hb : Bids P d0 G d) (hi : G i = .waiting) (hn : d.entry n ≠ none) :
    Bids P d0 (update G i (.missed n)) d := by
  refine hb.quiet (fun x h => ?_) (fun x h => ?_) (fun m h => ?_) fun m id y h => ?_
  · rw [hi] at h
    cases h
  · cases h
  · cases h
    exact hn
  · cases h

/-- Opening a file, or reading on in it, up to a position where it is as long. -/
theorem reads (hb : Bids P d0 G d) (hi : ∀ x, G i ≠ .got x) {id : ℕ} {k : Inode} {z : Bytes} (hid : d.entry n = some id)
    (hk : d.inodes[id]? = some k) (hz : z <+: k.now.data) : Bids P d0 (update G i (.reading n id z)) d := by
  refine hb.quiet hi (fun x h => ?_) (fun m h => ?_) fun m id' y h => ?_
  · cases h
  · cases h
  · cases h
    exact ⟨hid, k, hk, hz⟩

/-- A file is the one in the hands of `i`, or another's. -/
theorem got_update (h : update G i (.got x) j = .got y) : (j = i ∧ y = x) ∨ (j ≠ i ∧ G j = .got y) := by
  by_cases hj : j = i
  · subst hj
    rw [update_self] at h
    cases h
    exact .inl ⟨rfl, rfl⟩
  · rw [update_of_ne hj] at h
    exact .inr ⟨hj, h⟩

/-- Another has what it had. -/
theorem other_update (hg : g ≠ .got x) (h : update G i (.got x) j = g) : G j = g := by
  by_cases hj : j = i
  · subst hj
    rw [update_self] at h
    exact absurd h.symm hg
  · rwa [update_of_ne hj] at h

/-- **Who has a file adds to it**, and to no other. -/
theorem writes (hb : Bids P d0 G d) (hx : G i = .got x) (f : Inode → Inode) (hP : P i (x.set (f x.inode)))
    (hf : x.inode.now.data <+: (f x.inode).now.data) :
    Bids P d0 (update G i (.got (x.set (f x.inode)))) (d.touch x.id f) := by
  have holds : ∀ (id : ℕ) k, id ≠ x.id → d.inodes[id]? = some k → (d.touch x.id f).inodes[id]? = some k :=
    fun id k hid hk => (List.getElem?_modify_ne _ _ (Ne.symm hid)).trans hk
  have mine : (d.touch x.id f).inodes[x.id]? = some (f x.inode) := by
    show (d.inodes.modify x.id f)[x.id]? = _
    rw [List.getElem?_modify_eq, hb.inode i x hx]
    rfl
  -- a file has the name and the number that it had
  have back : ∀ j y, update G i (.got (x.set (f x.inode))) j = .got y →
      ∃ z, G j = .got z ∧ z.name = y.name ∧ z.id = y.id := by
    intro j y hy
    rcases got_update hy with ⟨rfl, rfl⟩ | ⟨-, hy⟩
    · exact ⟨x, hx, rfl, rfl⟩
    · exact ⟨y, hy, rfl, rfl⟩
  have forth : ∀ j y, G j = .got y →
      ∃ z, update G i (.got (x.set (f x.inode))) j = .got z ∧ z.name = y.name ∧ z.id = y.id := by
    intro j y hy
    by_cases hj : j = i
    · subst hj
      cases hx.symm.trans hy
      exact ⟨_, update_self .., rfl, rfl⟩
    · exact ⟨y, (update_of_ne hj ..).trans hy, rfl, rfl⟩
  constructor
  case makes =>
    intro j y hy
    rcases got_update hy with ⟨rfl, rfl⟩ | ⟨-, hy⟩
    · exact hP
    · exact hb.makes j y hy
  case absent =>
    intro j y hy
    obtain ⟨z, hz, hn, -⟩ := back j y hy
    exact hn ▸ hb.absent j z hz
  case entry =>
    intro j y hy
    obtain ⟨z, hz, hn, hid⟩ := back j y hy
    rw [← hn, ← hid]
    exact hb.entry j z hz
  case inode =>
    intro j y hy
    rcases got_update hy with ⟨rfl, rfl⟩ | ⟨hj, hy⟩
    · exact mine
    · exact holds _ _ (fun h => hj (hb.alone j i y x hy hx h)) (hb.inode j y hy)
  case alone =>
    intro j j' y y' hy hy' he
    obtain ⟨z, hz, -, hid⟩ := back j y hy
    obtain ⟨z', hz', -, hid'⟩ := back j' y' hy'
    exact hb.alone j j' z z' hz hz' (hid.trans (he.trans hid'.symm))
  case fresh =>
    intro j y hy
    obtain ⟨z, hz, -, hid⟩ := back j y hy
    exact hid ▸ hb.fresh j z hz
  case taken => exact fun j m hm => hb.taken j m (other_update (by simp) hm)
  case seen =>
    intro j m id y hy
    obtain ⟨hid, k, hk, hpre⟩ := hb.seen j m id y (other_update (by simp) hy)
    refine ⟨hid, ?_⟩
    by_cases hix : id = x.id
    · subst hix
      cases hk.symm.trans (hb.inode i x hx)
      exact ⟨_, mine, hpre.trans hf⟩
    · exact ⟨k, holds id k hix hk, hpre⟩
  case old =>
    intro id k hk
    refine holds id k ?_ (hb.old id k hk)
    rintro rfl
    exact absurd (List.getElem?_eq_some_iff.mp hk).1 (Nat.not_lt_of_ge (hb.fresh i x hx))
  case kept => exact hb.kept
  case entries =>
    intro m id hm
    refine (hb.entries m id hm).imp_right ?_
    rintro ⟨j, y, hy, hn, hid⟩
    obtain ⟨z, hz, hzn, hzid⟩ := forth j y hy
    exact ⟨j, z, hz, hzn.trans hn, hzid.trans hid⟩
  case durable =>
    intro m v hv
    refine (hb.durable m v hv).imp_right ?_
    rintro ⟨j, y, hy, hn, rfl⟩
    obtain ⟨z, hz, hzn, hzid⟩ := forth j y hy
    exact ⟨j, z, hz, hzn.trans hn, by rw [hzid]⟩

variable [DecidableEq Name]

/-- **A bid for a name that is absent gets it.** -/
theorem gets (hb : Bids P d0 G d) {k : Inode} (hi : G i = .waiting) (hn : d.entry n = none)
    (hP : P i ⟨n, d.inodes.length, k⟩) : Bids P d0 (update G i (.got ⟨n, d.inodes.length, k⟩)) (d.draft n k) := by
  have hlt : ∀ j y, G j = .got y → y.id < d.inodes.length := fun j y hy => d.entry_lt _ _ (hb.entry j y hy)
  have hne : ∀ m id, d.entry m = some id → m ≠ n := by
    rintro m id hm rfl
    rw [hn] at hm
    cases hm
  have stays : ∀ m id, d.entry m = some id → (d.draft n k).entry m = some id := fun m id hm =>
    (Disk.entry_draft_ne (hne m id hm)).trans hm
  have holds : ∀ (id : ℕ) k', d.inodes[id]? = some k' → (d.draft n k).inodes[id]? = some k' := fun id k' hk =>
    (List.getElem?_append_left (List.getElem?_eq_some_iff.mp hk).1).trans hk
  have mine : update G i (.got ⟨n, d.inodes.length, k⟩) i = .got ⟨n, d.inodes.length, k⟩ := update_self ..
  have yours : ∀ j y, G j = .got y → update G i (.got ⟨n, d.inodes.length, k⟩) j = .got y := by
    intro j y hy
    refine (update_of_ne ?_ ..).trans hy
    rintro rfl
    rw [hi] at hy
    cases hy
  constructor
  case makes =>
    intro j y hy
    rcases got_update hy with ⟨rfl, rfl⟩ | ⟨-, hy⟩
    · exact hP
    · exact hb.makes j y hy
  case absent =>
    intro j y hy
    rcases got_update hy with ⟨rfl, rfl⟩ | ⟨-, hy⟩
    · by_contra h0
      obtain ⟨id, hid⟩ := Option.ne_none_iff_exists'.mp h0
      exact hne n id (hb.kept n id hid) rfl
    · exact hb.absent j y hy
  case entry =>
    intro j y hy
    rcases got_update hy with ⟨rfl, rfl⟩ | ⟨-, hy⟩
    · exact Disk.entry_draft_self
    · exact stays _ _ (hb.entry j y hy)
  case inode =>
    intro j y hy
    rcases got_update hy with ⟨rfl, rfl⟩ | ⟨-, hy⟩
    · exact List.getElem?_concat_length
    · exact holds _ _ (hb.inode j y hy)
  case alone =>
    intro j j' y y' hy hy' he
    rcases got_update hy with ⟨hj, rfl⟩ | ⟨-, hz⟩ <;> rcases got_update hy' with ⟨hj', rfl⟩ | ⟨-, hz'⟩
    · exact hj.trans hj'.symm
    · exact absurd he (Nat.ne_of_gt (hlt j' y' hz'))
    · exact absurd he (Nat.ne_of_lt (hlt j y hz))
    · exact hb.alone j j' y y' hz hz' he
  case fresh =>
    intro j y hy
    rcases got_update hy with ⟨rfl, rfl⟩ | ⟨-, hy⟩
    · by_contra hle
      obtain ⟨k0, hk0⟩ : ∃ k0, d0.inodes[d.inodes.length]? = some k0 :=
        ⟨_, List.getElem?_eq_getElem (Nat.lt_of_not_le hle)⟩
      exact absurd (List.getElem?_eq_some_iff.mp (hb.old _ k0 hk0)).1 (Nat.lt_irrefl _)
    · exact hb.fresh j y hy
  case taken =>
    intro j m hm h
    obtain ⟨id, hid⟩ := Option.ne_none_iff_exists'.mp (hb.taken j m (other_update (by simp) hm))
    rw [stays m id hid] at h
    cases h
  case seen =>
    intro j m id y hy
    obtain ⟨hid, k', hk', hpre⟩ := hb.seen j m id y (other_update (by simp) hy)
    exact ⟨stays m id hid, k', holds id k' hk', hpre⟩
  case old => exact fun id k' hk' => holds id k' (hb.old id k' hk')
  case kept => exact fun m id hm => stays m id (hb.kept m id hm)
  case entries =>
    intro m id hm
    by_cases hmn : m = n
    · subst hmn
      rw [Disk.entry_draft_self] at hm
      exact .inr ⟨i, _, mine, rfl, Option.some.inj hm⟩
    · rw [Disk.entry_draft_ne hmn] at hm
      refine (hb.entries m id hm).imp_right ?_
      rintro ⟨j, y, hy, h⟩
      exact ⟨j, y, yours j y hy, h⟩
  case durable =>
    rintro m v (hv | ⟨rfl, rfl⟩)
    · refine (hb.durable m v hv).imp_right ?_
      rintro ⟨j, y, hy, h⟩
      exact ⟨j, y, yours j y hy, h⟩
    · exact .inr ⟨i, _, mine, rfl, rfl⟩

end Bids

end Bidding

end Lib
