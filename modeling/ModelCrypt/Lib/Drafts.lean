/-
# A disk that many write to at once

A store of files is read and published to, both at once. `after` is what a
history of these leaves in a store, and in a `Legal` history every read reads
what was there.

On a disk, a file is written piece by piece. Each owner writes a draft, under a
name that only drafts have, and then moves it to a public name. `Shared` is what
holds of the disk between any two operations of any owners: the public names hold
what a legal history leaves in the store, and may hold no more than that and what
was published after a power loss; a draft is its owner's alone; and what an owner
has open is never a draft. Each operation keeps it: `Shared.opens`,
`Shared.drafts`, `Shared.touches`, `Shared.publishes`, `Shared.unlinks`.

Key definitions: `Access`, `after`, `Legal`, `Holding`, `Shared`.
Key theorems: `Shared.opens`, `Shared.publishes`, `Shared.look_eq`.
-/
import ModelCrypt.Lib.Disk
import ModelCrypt.Lib.Pool
import Mathlib.Data.List.Induction

namespace Lib

open Function

/-! ### Stores and histories -/

/-- What is done to a store of files at once. -/
inductive Access (Name : Type)
  | read (o : Name) (f : File)
  | publish (o : Name) (f : File)

abbrev Store (Name : Type) := Name → Option File

section Histories

variable {Name ι : Type} [DecidableEq Name]

def Access.apply (s : Store Name) : Access Name → Store Name
  | read _ _ => s
  | publish o f => update s o (some f)

/-- A read reads what is there. -/
def Access.Allowed (s : Store Name) : Access Name → Prop
  | read o f => s o = some f
  | publish _ _ => True

/-- What a history leaves in a store. -/
def after (s : Store Name) (h : List (ι × Access Name)) : Store Name := h.foldl (fun s e => e.2.apply s) s

/-- Every read read what was there. -/
def Legal (s : Store Name) : List (ι × Access Name) → Prop
  | [] => True
  | e :: h => e.2.Allowed s ∧ Legal (e.2.apply s) h

variable {s : Store Name} {h h' : List (ι × Access Name)} {o : Name} {f : File} {i : ι}

@[simp] theorem after_nil (s : Store Name) : after s ([] : List (ι × Access Name)) = s := rfl

@[simp] theorem after_append (s : Store Name) (h h' : List (ι × Access Name)) :
    after s (h ++ h') = after (after s h) h' := List.foldl_append ..

theorem legal_append : Legal s (h ++ h') ↔ Legal s h ∧ Legal (after s h) h' := by
  induction h generalizing s with
  | nil => exact ⟨fun h => ⟨trivial, h⟩, fun h => h.2⟩
  | cons e h ih => exact (and_congr_right fun _ => ih).trans and_assoc.symm

/-- What a read reads is what the history before it left. -/
theorem Legal.read (hl : Legal s (h ++ (i, .read o f) :: h')) : after s h o = some f := (legal_append.mp hl).2.1

/-- A name that nothing was published under holds what it held. -/
theorem after_of_unpublished (hn : ∀ e ∈ h, ∀ f, e.2 ≠ .publish o f) : after s h o = s o := by
  induction h generalizing s with
  | nil => rfl
  | cons e h ih =>
    refine (ih fun e' he' => hn e' (List.mem_cons_of_mem _ he')).trans ?_
    rcases e with ⟨i, o' | ⟨o', f'⟩⟩
    · rfl
    · show update s o' (some f') o = s o
      refine update_of_ne ?_ ..
      rintro rfl
      exact hn _ (List.mem_cons_self ..) f' rfl

/-- What is read of a name that nothing is published under any more is what the history before left there. -/
theorem Legal.of_unpublished [DecidableEq ι] (hl : Legal s (h ++ h')) (hr : .read o f ∈ own i h')
    (hn : ∀ e ∈ h', ∀ f, e.2 ≠ .publish o f) : after s h o = some f := by
  obtain ⟨a, b, rfl⟩ := List.append_of_mem (mem_own.mp hr)
  rw [← List.append_assoc] at hl
  have hread := hl.read
  rw [after_append] at hread
  rwa [after_of_unpublished fun e he => hn e (List.mem_append_left _ he)] at hread

/-- A name that only one publishes under holds what that published last. By induction on the history, from its end. -/
theorem after_of_last [DecidableEq ι] {es : List (Access Name)} (hown : own i h = es ++ [.publish o f])
    (hn : ∀ e ∈ h, e.1 ≠ i → ∀ f, e.2 ≠ .publish o f) : after s h o = some f := by
  induction h using List.reverseRecOn with
  | nil => simp at hown
  | append_singleton h e ih =>
    have hmem : e ∈ h ++ [e] := List.mem_append_right _ (List.mem_singleton_self e)
    rw [own_append] at hown
    rw [after_append]
    by_cases he : e.1 = i
    · have hlast : own i [e] = [e.2] := by simp [own, he]
      rw [hlast] at hown
      have hpub := (List.append_inj' hown rfl).2
      show e.2.apply (after s h) o = some f
      rw [List.singleton_inj.mp hpub]
      exact update_self ..
    · have hnil : own i [e] = [] := by simp [own, he]
      rw [hnil, List.append_nil] at hown
      refine (after_of_unpublished fun e' he' => ?_).trans (ih hown fun e' he' => hn e' (List.mem_append_left _ he'))
      rw [List.mem_singleton.mp he']
      exact hn e hmem he

end Histories

/-! ### The disk between two operations -/

/-- A new file, under the name it was made with. -/
structure Draft (Name : Type) where
  name : Name
  id : ℕ
  inode : Inode

/-- The draft, after more was done to its file. -/
def Draft.set {Name : Type} (x : Draft Name) (k : Inode) : Draft Name := { x with inode := k }

/-- What an owner has on the disk, what it has open, and what it did. -/
structure Holding (Name : Type) where
  draft : Option (Draft Name) := none
  opened : Option (ℕ × File) := none
  did : List (Access Name) := []

namespace Holding

variable {Name : Type}

/-- Without or with a draft. -/
def hold (g : Holding Name) (x : Option (Draft Name)) : Holding Name := { g with draft := x }

def read (g : Holding Name) (o : Name) (id : ℕ) (f : File) : Holding Name :=
  { g with opened := some (id, f), did := g.did ++ [.read o f] }

def publish (g : Holding Name) (o : Name) (f : File) : Holding Name :=
  { g with draft := none, did := g.did ++ [.publish o f] }

end Holding

namespace Disk

variable {Name : Type} {d : Disk Name} {o : Name} {id : ℕ} {k : Inode}

theorem look_touch (f : Inode → Inode) (h : d.entry o ≠ some id) : (d.touch id f).look o = d.look o := by
  unfold look touch
  rcases he : d.entry o with _ | id'
  · rfl
  · have hne : id ≠ id' := fun e => h (e ▸ he)
    rw [Option.bind_some, Option.bind_some, List.getElem?_modify_ne _ _ hne]

theorem found_touch {v : Option File} (f : Inode → Inode) (h : ¬ d.durable o (some id))
    (hv : (d.touch id f).Found o v) : d.Found o v := by
  rcases v with _ | g
  · exact hv
  · obtain ⟨id', j, hd, hj, hg⟩ := hv
    have hne : id ≠ id' := by
      rintro rfl
      exact h hd
    rw [touch, List.getElem?_modify_ne _ _ hne] at hj
    exact ⟨id', j, hd, hj, hg⟩

end Disk

section Sharing

variable {Name ι : Type}

/-- A draft on the disk `d`: its file is under its name, and under no public name, now or after a power loss. -/
structure Draft.On (T : Name → Prop) (d0 d : Disk Name) (x : Draft Name) : Prop where
  temp : T x.name
  absent : d0.look x.name = none
  entry : d.entry x.name = some x.id
  inode : d.inodes[x.id]? = some x.inode
  alone : ∀ o, d.entry o = some x.id → o = x.name
  hidden : ∀ o, d.durable o (some x.id) → T o

variable {T : Name → Prop} {d0 d d' : Disk Name} {x y : Draft Name}

/-- What is done elsewhere leaves a draft where it is. -/
theorem Draft.On.frame (hy : y.On T d0 d) (entry : d'.entry y.name = d.entry y.name)
    (inode : d'.inodes[y.id]? = d.inodes[y.id]?) (alone : ∀ o, d'.entry o = some y.id → d.entry o = some y.id)
    (hidden : ∀ o, d'.durable o (some y.id) → d.durable o (some y.id) ∨ T o) : y.On T d0 d' :=
  ⟨hy.temp, hy.absent, entry.trans hy.entry, inode.trans hy.inode, fun o ho => hy.alone o (alone o ho),
    fun o ho => (hidden o ho).elim (hy.hidden o) fun h => h⟩

theorem Draft.On.lt (hx : x.On T d0 d) : x.id < d.inodes.length := d.entry_lt _ _ hx.entry

/-- Two drafts under two names are two files. -/
theorem Draft.On.id_ne (hx : x.On T d0 d) (hy : y.On T d0 d) (hne : x.name ≠ y.name) : x.id ≠ y.id := fun h =>
  hne (hy.alone _ (h ▸ hx.entry))

/-- A draft's file is not the one under another name. -/
theorem Draft.On.entry_ne (hx : x.On T d0 d) {o : Name} (ho : o ≠ x.name) : d.entry o ≠ some x.id := fun h =>
  ho (hx.alone o h)

theorem ne_of_not_temp {o n : Name} (ho : ¬ T o) (hn : T n) : o ≠ n := fun h => ho (h ▸ hn)

theorem Draft.On.ne_of_public (hx : x.On T d0 d) {o : Name} (ho : ¬ T o) : o ≠ x.name := fun h => ho (h ▸ hx.temp)

/-- What was published stays so. -/
theorem found_later {h h' : List (ι × Access Name)} {o : Name} {v : Option File} {p : Prop}
    (hf : p ∨ ∃ e ∈ h, ∃ f, e.2 = .publish o f ∧ v = some f) :
    p ∨ ∃ e ∈ h ++ h', ∃ f, e.2 = .publish o f ∧ v = some f := by
  refine hf.imp_right ?_
  rintro ⟨e, hm, h⟩
  exact ⟨e, List.mem_append_left _ hm, h⟩

variable [DecidableEq ι] {S : ι → List (Access Name) → Prop} {P : ι → Inode → Prop}
  {G : ι → Holding Name} {h : List (ι × Access Name)} {i : ι} {g : Holding Name}

/-- A part that is not changed is as it was. -/
theorem proj_update {γ β : Type} (p : γ → β) (G : ι → γ) (g : γ) (hg : p g = p (G i)) (j : ι) :
    p (update G i g j) = p (G j) := by
  by_cases hj : j = i
  · subst hj
    rw [update_self, hg]
  · rw [update_of_ne hj]

/-- A draft is the one in the hands of `i`, or another's. -/
theorem draft_update {j : ι} (hx : (update G i g j).draft = some x) :
    (j = i ∧ g.draft = some x) ∨ (j ≠ i ∧ (G j).draft = some x) := by
  by_cases hj : j = i
  · subst hj
    rw [update_self] at hx
    exact .inl ⟨rfl, hx⟩
  · rw [update_of_ne hj] at hx
    exact .inr ⟨hj, hx⟩

/-- Without a draft in the hands of `i`, it is another's. -/
theorem draft_update_none {j : ι} (hg : g.draft = none) (hx : (update G i g j).draft = some x) :
    j ≠ i ∧ (G j).draft = some x := (draft_update hx).resolve_left fun h => by
  rw [hg] at h
  cases h.2

theorem draft_read {o : Name} {id : ℕ} {f : File} (j : ι) :
    (update G i ((G i).read o id f) j).draft = (G j).draft := proj_update Holding.draft G ((G i).read o id f) rfl j

theorem opened_hold {x : Option (Draft Name)} (j : ι) : (update G i ((G i).hold x) j).opened = (G j).opened :=
  proj_update Holding.opened G ((G i).hold x) rfl j

theorem did_hold {x : Option (Draft Name)} (j : ι) : (update G i ((G i).hold x) j).did = (G j).did :=
  proj_update Holding.did G ((G i).hold x) rfl j

theorem opened_publish {o : Name} {f : File} (j : ι) :
    (update G i ((G i).publish o f) j).opened = (G j).opened := proj_update Holding.opened G ((G i).publish o f) rfl j

theorem did_acts (hd : ∀ i, own i h = (G i).did) {es : List (Access Name)} (hg : g.did = (G i).did ++ es) (j : ι) :
    own j (h ++ acts i es) = (update G i g j).did := by
  rw [own_append]
  by_cases hj : j = i
  · subst hj
    rw [own_acts, update_self, hg, hd]
  · rw [own_acts_ne (Ne.symm hj), update_of_ne hj, List.append_nil, hd]

theorem allowed_update (ha : ∀ i, S i (G i).did) (hs : S i g.did) (j : ι) : S j (update G i g j).did := by
  by_cases hj : j = i
  · subst hj
    rwa [update_self]
  · rw [update_of_ne hj]
    exact ha j

variable [DecidableEq Name]

/-- The disk `d` that was `d0` before the history `h`. The names in `T` are for drafts, the others are public; `S` is
what an owner may do, and `P` what its files may be. -/
structure Shared (T : Name → Prop) (S : ι → List (Access Name) → Prop) (P : ι → Inode → Prop) (d0 : Disk Name)
    (G : ι → Holding Name) (h : List (ι × Access Name)) (d : Disk Name) : Prop where
  legal : Legal d0.look h
  did : ∀ i, own i h = (G i).did
  allowed : ∀ i, S i (G i).did
  targets : ∀ e ∈ h, ∀ o f, e.2 = .publish o f → ¬ T o
  look : ∀ o, ¬ T o → d.look o = after d0.look h o
  found : ∀ o v, ¬ T o → d.Found o v → d0.Found o v ∨ ∃ e ∈ h, ∃ f, e.2 = .publish o f ∧ v = some f
  drafts : ∀ i x, (G i).draft = some x → x.On T d0 d
  names : ∀ i j x y, (G i).draft = some x → (G j).draft = some y → x.name = y.name → i = j
  temps : ∀ n, T n → d.look n = d0.look n ∨ ∃ i x, (G i).draft = some x ∧ x.name = n
  opened : ∀ i id f, (G i).opened = some (id, f) → (d.inodes[id]?.map (·.now)) = some f ∧
    ∀ j x, (G j).draft = some x → x.id ≠ id
  kinds : ∀ (id : ℕ) k, d.inodes[id]? = some k → d0.inodes[id]? = some k ∨ ∃ i, P i k

/-! ### What keeps it -/

namespace Shared

/-- Opening the file under a public name reads it. -/
theorem opens (hs : Shared T S P d0 G h d) {o : Name} {id : ℕ} {k : Inode} (ho : ¬ T o) (he : d.entry o = some id)
    (hk : d.inodes[id]? = some k) (hS : S i ((G i).did ++ [.read o k.now])) :
    Shared T S P d0 (update G i ((G i).read o id k.now))
      (h ++ acts i [.read o k.now]) d where
  legal := legal_append.mpr ⟨hs.legal, (hs.look o ho).symm.trans (Disk.look_of_inode he hk), trivial⟩
  did := did_acts hs.did rfl
  allowed := allowed_update hs.allowed hS
  targets e hm o' f hf := by
    rcases List.mem_append.mp hm with hm | hm
    · exact hs.targets e hm o' f hf
    · cases List.mem_singleton.mp hm
      cases hf
  look o' ho' := by
    rw [after_append]
    exact hs.look o' ho'
  found o' v ho' hv := found_later (hs.found o' v ho' hv)
  drafts j y hy := by
    rw [draft_read] at hy
    exact hs.drafts j y hy
  names j j' y y' hy hy' := by
    rw [draft_read] at hy hy'
    exact hs.names j j' y y' hy hy'
  temps n hn := by
    refine (hs.temps n hn).imp_right ?_
    rintro ⟨j, y, hy, hyn⟩
    exact ⟨j, y, (draft_read j).trans hy, hyn⟩
  opened j id' f hf := by
    have hold : ∀ j' y, (G j').draft = some y → y.id ≠ id := by
      rintro j' y hy rfl
      exact (hs.drafts j' y hy).entry_ne ((hs.drafts j' y hy).ne_of_public ho) he
    by_cases hj : j = i
    · subst hj
      rw [update_self] at hf
      cases hf
      exact ⟨by rw [hk]; rfl, fun j' y hy => hold j' y ((draft_read j').symm.trans hy)⟩
    · rw [update_of_ne hj] at hf
      exact (hs.opened j id' f hf).imp_right fun hne j' y hy => hne j' y ((draft_read j').symm.trans hy)
  kinds := hs.kinds

/-- A new draft, under a name that was absent. -/
theorem makes (hs : Shared T S P d0 G h d) {n : Name} {k : Inode} (hn : T n) (ha : d.entry n = none)
    (hi : (G i).draft = none) (hP : P i k) :
    Shared T S P d0 (update G i ((G i).hold (some ⟨n, d.inodes.length, k⟩))) h (d.draft n k) where
  legal := hs.legal
  did j := (hs.did j).trans (did_hold j).symm
  allowed j := (did_hold j).symm ▸ hs.allowed j
  targets := hs.targets
  look o ho := (Disk.look_draft (ne_of_not_temp ho hn)).trans (hs.look o ho)
  found o v ho hv := hs.found o v ho (Disk.found_draft (ne_of_not_temp ho hn) hv)
  drafts j y hy := by
    rcases draft_update hy with ⟨rfl, hy⟩ | ⟨-, hy⟩
    · cases hy
      refine ⟨hn, ?_, Disk.entry_draft_self, List.getElem?_concat_length, fun o ho => ?_, fun o ho => ?_⟩
      · rcases hs.temps n hn with h0 | ⟨j', z, hz, rfl⟩
        · rw [← h0, Disk.look, ha]
          rfl
        · exact absurd ((hs.drafts j' z hz).entry.symm.trans ha) (by simp)
      · by_contra hne
        rw [Disk.entry_draft_ne hne] at ho
        exact absurd (d.entry_lt o _ ho) (Nat.lt_irrefl _)
      · rcases ho with ho | ⟨rfl, -⟩
        · exact absurd (d.durable_lt o _ ho) (Nat.lt_irrefl _)
        · exact hn
    · have hon := hs.drafts j y hy
      have hne : y.name ≠ n := by
        rintro rfl
        rw [hon.entry] at ha
        cases ha
      refine hon.frame (Disk.entry_draft_ne hne) (List.getElem?_append_left hon.lt) (fun o ho => ?_) fun o ho => ?_
      · by_cases hon' : o = n
        · subst hon'
          rw [Disk.entry_draft_self] at ho
          exact absurd hon.lt (Nat.not_lt_of_ge (Option.some.inj ho).le)
        · rwa [Disk.entry_draft_ne hon'] at ho
      · refine ho.imp_right ?_
        rintro ⟨rfl, -⟩
        exact hn
  names j j' y y' hy hy' he := by
    have hne : ∀ j y, (G j).draft = some y → y.name ≠ n := fun j y hz e => by
      rw [← e, (hs.drafts j y hz).entry] at ha
      cases ha
    rcases draft_update hy with ⟨hj, hz⟩ | ⟨-, hz⟩ <;> rcases draft_update hy' with ⟨hj', hz'⟩ | ⟨-, hz'⟩
    · exact hj.trans hj'.symm
    · cases hz
      exact absurd he.symm (hne j' y' hz')
    · cases hz'
      exact absurd he (hne j y hz)
    · exact hs.names j j' y y' hz hz' he
  temps m hm := by
    by_cases hmn : m = n
    · exact .inr ⟨i, ⟨n, d.inodes.length, k⟩, congrArg Holding.draft (update_self i _ G), hmn.symm⟩
    · rw [Disk.look_draft hmn]
      refine (hs.temps m hm).imp_right ?_
      rintro ⟨j, y, hy, hym⟩
      refine ⟨j, y, ?_, hym⟩
      rw [update_of_ne, hy]
      rintro rfl
      rw [hi] at hy
      cases hy
  opened j id f hf := by
    rw [opened_hold] at hf
    obtain ⟨h1, h2⟩ := hs.opened j id f hf
    obtain ⟨k', hk', -⟩ := Option.map_eq_some_iff.mp h1
    have hlt : id < d.inodes.length := (List.getElem?_eq_some_iff.mp hk').1
    refine ⟨(congrArg _ (List.getElem?_append_left hlt)).trans h1, fun j' y hy => ?_⟩
    rcases draft_update hy with ⟨rfl, hy⟩ | ⟨-, hy⟩
    · cases hy
      exact Nat.ne_of_gt hlt
    · exact h2 j' y hy
  kinds id k' hk' := by
    by_cases hlt : id < d.inodes.length
    · exact hs.kinds id k' ((List.getElem?_append_left hlt).symm.trans hk')
    · have hmem : k' ∈ [k] := List.mem_of_getElem? ((List.getElem?_append_right (Nat.not_lt.mp hlt)).symm.trans hk')
      cases List.mem_singleton.mp hmem
      exact .inr ⟨i, hP⟩

/-- What is done to a draft is done to it alone. -/
theorem touches (hs : Shared T S P d0 G h d) (hx : (G i).draft = some x) (f : Inode → Inode) (hP : P i (f x.inode)) :
    Shared T S P d0 (update G i ((G i).hold (some (x.set (f x.inode))))) h (d.touch x.id f) where
  legal := hs.legal
  did j := (hs.did j).trans (did_hold j).symm
  allowed j := (did_hold j).symm ▸ hs.allowed j
  targets := hs.targets
  look o ho := by
    have hon := hs.drafts i x hx
    exact (Disk.look_touch f (hon.entry_ne (hon.ne_of_public ho))).trans (hs.look o ho)
  found o v ho hv := hs.found o v ho (Disk.found_touch f (fun hd => ho ((hs.drafts i x hx).hidden o hd)) hv)
  drafts j y hy := by
    have hon := hs.drafts i x hx
    rcases draft_update hy with ⟨rfl, hy⟩ | ⟨hj, hy⟩
    · cases hy
      refine ⟨hon.temp, hon.absent, hon.entry, ?_, hon.alone, hon.hidden⟩
      show (d.inodes.modify x.id f)[x.id]? = _
      rw [List.getElem?_modify_eq, hon.inode]
      rfl
    · have hony := hs.drafts j y hy
      refine hony.frame rfl (List.getElem?_modify_ne _ _ ?_) (fun o ho => ho) fun o ho => .inl ho
      exact hon.id_ne hony fun e => hj (hs.names j i y x hy hx e.symm)
  names j j' y y' hy hy' he := by
    rcases draft_update hy with ⟨hj, hz⟩ | ⟨-, hz⟩ <;> rcases draft_update hy' with ⟨hj', hz'⟩ | ⟨-, hz'⟩
    · exact hj.trans hj'.symm
    · cases hz
      exact hj.trans (hs.names i j' x y' hx hz' he)
    · cases hz'
      exact (hs.names j i y x hz hx he).trans hj'.symm
    · exact hs.names j j' y y' hz hz' he
  temps m hm := by
    by_cases hmx : m = x.name
    · exact .inr ⟨i, x.set (f x.inode), congrArg Holding.draft (update_self i _ G), hmx.symm⟩
    · rw [Disk.look_touch f ((hs.drafts i x hx).entry_ne hmx)]
      refine (hs.temps m hm).imp_right ?_
      rintro ⟨j, y, hy, hym⟩
      refine ⟨j, y, ?_, hym⟩
      rw [update_of_ne, hy]
      rintro rfl
      cases hx.symm.trans hy
      exact hmx hym.symm
  opened j id g hg := by
    rw [opened_hold] at hg
    obtain ⟨h1, h2⟩ := hs.opened j id g hg
    refine ⟨(congrArg _ (List.getElem?_modify_ne _ _ (h2 i x hx))).trans h1, fun j' y hy => ?_⟩
    rcases draft_update hy with ⟨rfl, hy⟩ | ⟨-, hy⟩
    · cases hy
      exact h2 j' x hx
    · exact h2 j' y hy
  kinds id k hk := by
    by_cases hid : x.id = id
    · subst hid
      replace hk : (d.inodes.modify x.id f)[x.id]? = some k := hk
      rw [List.getElem?_modify_eq, (hs.drafts i x hx).inode] at hk
      cases hk
      exact .inr ⟨i, hP⟩
    · exact hs.kinds id k ((List.getElem?_modify_ne _ _ hid).symm.trans hk)

/-- A draft that is gone leaves the names of the drafts as they were. -/
theorem temps_gone (hs : Shared T S P d0 G h d) (hx : (G i).draft = some x) (hgone : d'.look x.name = none)
    (hlook : ∀ m, T m → m ≠ x.name → d'.look m = d.look m) (g : Holding Name) {m : Name} (hm : T m) :
    d'.look m = d0.look m ∨ ∃ j y, (update G i g j).draft = some y ∧ y.name = m := by
  by_cases hmx : m = x.name
  · rw [hmx, hgone, (hs.drafts i x hx).absent]
    exact .inl rfl
  · rw [hlook m hm hmx]
    refine (hs.temps m hm).imp_right ?_
    rintro ⟨j, y, hy, hym⟩
    refine ⟨j, y, ?_, hym⟩
    rw [update_of_ne, hy]
    rintro rfl
    cases hx.symm.trans hy
    exact hmx hym.symm

/-- A draft under a public name is what that name holds, at once. -/
theorem publishes (hs : Shared T S P d0 G h d) (hx : (G i).draft = some x) {o : Name} (ho : ¬ T o)
    (hsync : ∀ f, x.inode.durable f → f = x.inode.now) (hS : S i ((G i).did ++ [.publish o x.inode.now])) :
    Shared T S P d0 (update G i ((G i).publish o x.inode.now)) (h ++ acts i [.publish o x.inode.now])
      (d.rename x.name o) := by
  have hon := hs.drafts i x hx
  have hox := hon.ne_of_public ho
  have hmove : d.rename x.name o = d.relink x.name o := by
    refine if_neg ?_
    rw [hon.entry]
    simp [hon.entry_ne hox]
  have hentry : (d.relink x.name o).entry = update (update d.entry x.name none) o (some x.id) := by
    rw [← hon.entry]
    rfl
  have hlook : ∀ m, m ≠ o → m ≠ x.name → (d.relink x.name o).look m = d.look m := fun m hmo hmx =>
    Disk.look_of_entry [] (List.append_nil _).symm (by rw [hentry, update_of_ne hmo, update_of_ne hmx])
  have hself : (d.relink x.name o).look o = some x.inode.now :=
    Disk.look_of_inode (by rw [hentry, update_self]) hon.inode
  have hgone : (d.relink x.name o).look x.name = none := by
    rw [Disk.look, hentry, update_of_ne hox.symm, update_self]
    rfl
  rw [hmove]
  refine ⟨legal_append.mpr ⟨hs.legal, trivial, trivial⟩, did_acts hs.did rfl, allowed_update hs.allowed hS, ?targets,
    ?look, ?found, ?drafts, ?names, ?temps, ?opened, hs.kinds⟩
  case targets =>
    intro e hm o' f hf
    rcases List.mem_append.mp hm with hm | hm
    · exact hs.targets e hm o' f hf
    · cases List.mem_singleton.mp hm
      cases hf
      exact ho
  case look =>
    intro o' ho'
    show _ = after d0.look (h ++ [(i, .publish o x.inode.now)]) o'
    rw [after_append]
    show _ = update (after d0.look h) o (some x.inode.now) o'
    by_cases hoo : o' = o
    · rw [hoo, hself, update_self]
    · rw [hlook o' hoo (hon.ne_of_public ho'), update_of_ne hoo, hs.look o' ho']
  case found =>
    have hdur : ∀ o' v, ¬ T o' → (d.relink x.name o).durable o' v → d.durable o' v ∨ o' = o ∧ v = some x.id := by
      rintro o' v ho' (hv | ⟨rfl, -⟩ | ⟨rfl, rfl⟩)
      · exact .inl hv
      · exact absurd hon.temp ho'
      · exact .inr ⟨rfl, hon.entry⟩
    have hold : ∀ o' v, ¬ T o' → d.Found o' v → d0.Found o' v ∨
        ∃ e ∈ h ++ acts i [.publish o x.inode.now], ∃ f, e.2 = .publish o' f ∧ v = some f := fun o' v ho' hv =>
      found_later (hs.found o' v ho' hv)
    rintro o' (_ | f) ho' hv
    · exact hold o' none ho' ((hdur o' none ho' hv).resolve_right fun e => by cases e.2)
    · obtain ⟨id, j, hid, hj, hf⟩ := hv
      rcases hdur o' _ ho' hid with hd | ⟨hoo, he⟩
      · exact hold o' _ ho' ⟨id, j, hd, hj, hf⟩
      · cases hoo
        cases Option.some.inj he
        obtain rfl := Option.some.inj (hon.inode.symm.trans hj)
        exact .inr ⟨_, List.mem_append_right _ (List.mem_singleton_self _), _, rfl, congrArg some (hsync f hf)⟩
  case drafts =>
    intro j y hy
    obtain ⟨hj, hy⟩ := draft_update_none rfl hy
    have hony := hs.drafts j y hy
    have hid := hon.id_ne hony fun e => hj (hs.names j i y x hy hx e.symm)
    have hyx : y.name ≠ x.name := fun e => hj (hs.names j i y x hy hx e)
    refine hony.frame ?_ rfl (fun o' he => ?_) fun o' hd => ?_
    · rw [hentry, update_of_ne (hony.ne_of_public ho).symm, update_of_ne hyx]
    · rw [hentry] at he
      by_cases hoo : o' = o
      · subst hoo
        rw [update_self] at he
        exact absurd (Option.some.inj he) hid
      · rw [update_of_ne hoo] at he
        by_cases hox' : o' = x.name
        · subst hox'
          rw [update_self] at he
          cases he
        · rwa [update_of_ne hox'] at he
    · rcases hd with hd | ⟨-, hd⟩ | ⟨-, hd⟩
      · exact .inl hd
      · cases hd
      · exact absurd (Option.some.inj (hon.entry.symm.trans hd.symm)) hid
  case names =>
    intro j j' y y' hy hy' he
    exact hs.names j j' y y' (draft_update_none rfl hy).2 (draft_update_none rfl hy').2 he
  case temps =>
    intro m hm
    exact hs.temps_gone hx hgone (fun m hm hmx => hlook m (fun e => ho (e ▸ hm)) hmx) _ hm
  case opened =>
    intro j id f hf
    rw [opened_publish] at hf
    obtain ⟨h1, h2⟩ := hs.opened j id f hf
    exact ⟨h1, fun j' y hy => h2 j' y (draft_update_none rfl hy).2⟩

/-- A draft that is unlinked leaves nothing behind. -/
theorem unlinks (hs : Shared T S P d0 G h d) (hx : (G i).draft = some x) :
    Shared T S P d0 (update G i ((G i).hold none)) h (d.unlink x.name) := by
  have hon := hs.drafts i x hx
  have hlook : ∀ m, m ≠ x.name → (d.unlink x.name).look m = d.look m := fun m hm =>
    Disk.look_of_entry [] (List.append_nil _).symm (update_of_ne hm ..)
  have hentry : (d.unlink x.name).entry = update d.entry x.name none := rfl
  have hgone : (d.unlink x.name).look x.name = none := by
    rw [Disk.look, hentry, update_self]
    rfl
  refine ⟨hs.legal, fun j => (hs.did j).trans (did_hold j).symm, fun j => (did_hold j).symm ▸ hs.allowed j, hs.targets,
    fun o ho => (hlook o (hon.ne_of_public ho)).trans (hs.look o ho), ?found, ?drafts, ?names, ?temps, ?opened,
    hs.kinds⟩
  case found =>
    refine fun o v ho hv => hs.found o v ho (Disk.found_of_durable (d.unlink x.name) (List.append_nil _).symm ?_ hv)
    exact fun w hw => hw.resolve_right fun e => hon.ne_of_public ho e.1
  case drafts =>
    intro j y hy
    obtain ⟨hj, hy⟩ := draft_update_none rfl hy
    have hyx : y.name ≠ x.name := fun e => hj (hs.names j i y x hy hx e)
    refine (hs.drafts j y hy).frame (update_of_ne hyx ..) rfl (fun o he => ?_) fun o hd => ?_
    · by_cases hox : o = x.name
      · subst hox
        rw [hentry, update_self] at he
        cases he
      · exact (update_of_ne hox ..).symm.trans he
    · exact .inl (hd.resolve_right fun e => by cases e.2)
  case names =>
    intro j j' y y' hy hy' he
    exact hs.names j j' y y' (draft_update_none rfl hy).2 (draft_update_none rfl hy').2 he
  case temps =>
    intro m hm
    exact hs.temps_gone hx hgone (fun m _ hmx => hlook m hmx) _ hm
  case opened =>
    intro j id f hf
    rw [opened_hold] at hf
    obtain ⟨h1, h2⟩ := hs.opened j id f hf
    exact ⟨h1, fun j' y hy => h2 j' y (draft_update_none rfl hy).2⟩

/-! ### What follows from it -/

/-- At the start, nothing was done. -/
theorem start (hg : ∀ i, G i = {}) (hS : ∀ i, S i []) : Shared T S P d G ([] : List (ι × Access Name)) d where
  legal := trivial
  did i := by rw [hg]; rfl
  allowed i := by rw [hg]; exact hS i
  targets e he := by cases he
  look _ _ := rfl
  found _ _ _ hv := .inl hv
  drafts i x hx := by rw [hg] at hx; cases hx
  names i _ x _ hx := by rw [hg] at hx; cases hx
  temps _ _ := .inl rfl
  opened i id f hf := by rw [hg] at hf; cases hf
  kinds _ _ hk := .inl hk

/-- When nobody has a draft, all names hold what the history left. -/
theorem look_eq (hs : Shared T S P d0 G h d) (hn : ∀ i, (G i).draft = none) (o : Name) :
    d.look o = after d0.look h o := by
  by_cases ho : T o
  · rw [after_of_unpublished fun e he f hf => hs.targets e he o f hf ho]
    refine (hs.temps o ho).resolve_right ?_
    rintro ⟨i, x, hx, -⟩
    rw [hn] at hx
    cases hx
  · exact hs.look o ho

end Shared

end Sharing

end Lib
