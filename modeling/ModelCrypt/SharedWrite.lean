/-
# Writing a file of a shared disk

How `WriteFileAtomically` and the calls around it keep their part of the protocol
of `Lib.Drafts`, whatever others do to the disk between two of their system calls
and wherever they are killed: the temporary file is a draft that no other process
touches, and it is published as a whole, or it stays out of sight.

Key definitions: `Turns`, `Story`, `CallEnds`.
Key theorems: `shares_writeFully`, `shares_writeFileAtomically`, `shares_cryptFile`.
-/
import ModelCrypt.SharedRead

namespace ModelCrypt

open Lib Prog Fileio

section Sharing

variable {ι : Type} [DecidableEq ι] {T : Path → Prop} {S : ι → List (Access Path) → Prop} {P : ι → Inode → Prop}
  {d0 : Disk Path} {i : ι} {α β : Type} {os : Os} {w : World} {g : Holding Path} {m : Machine}
  {Q : Except Stop α → Holding Path → Machine → Prop}

/-! ### A draft that is open -/

/-- A descriptor has the draft open at its end. -/
structure DraftOpen (fd : ℕ) (s : St) (x : Draft Path) (m : Machine) : Prop where
  st : m.st = s
  desc : m.desc fd = some ⟨x.id, x.inode.now.data.length, true⟩

section Draft

variable {x : Draft Path} {fd : ℕ} {s : St} {mode : UInt32}

/-- The process has the draft and nothing else, with the file `k` in one of its two modes. -/
structure Draws (os : Os) (mode : UInt32) (x : Draft Path) (fd : ℕ) (s : St) (g g' : Holding Path) (k : Inode)
    (m : Machine) : Prop where
  draft : g' = g.hold (some (x.set k))
  isOpen : DraftOpen fd s (x.set k) m
  modes : Tentative os mode k

/-- A step on a draft changes its file or nothing on the disk. -/
theorem shares_touch {p : Sys α} (h : ∀ d, Ends p { m with disk := d } fun r m' =>
      (m'.disk = d ∧ Q r (g.hold (some x)) m') ∨ ∃ f, P i (f x.inode) ∧ m'.disk = d.touch x.id f ∧
        Q r (g.hold (some (x.set (f x.inode)))) m') : Shares T S P d0 i Q (.call p) (g.hold (some x)) m := by
  refine Follows.call fun G hist d hg hs => (h d).mono fun r m' h' => ?_
  rcases h' with ⟨hd, hq⟩ | ⟨f, hP, hd, hq⟩
  · refine ⟨g.hold (some x), [], ?_, hq⟩
    show Shared T S P d0 _ _ m'.disk
    rw [hd, ← hg, Function.update_eq_self, acts_nil, List.append_nil]
    exact hs
  · refine ⟨g.hold (some (x.set (f x.inode))), [], ?_, hq⟩
    have hx : (G i).draft = some x := by rw [hg]; rfl
    have hs' := hs.touches hx f hP
    rw [hg] at hs'
    show Shared T S P d0 _ _ m'.disk
    rw [hd, acts_nil, List.append_nil]
    exact hs'

/-- `fchmod` and `fsync` change the file of the draft, or fail. -/
theorem shares_change {c : ℕ → Machine → Bool × Machine} {okAt : ℕ → Bool} {f : Inode → Inode} {k : Inode}
    {g' : Holding Path} (h : Draws os mode x fd s g g' k m)
    (hc : ∀ t m' e, m'.desc fd = some e → c t m' = if okAt t then (true, m'.touch e.inode f) else (false, m'))
    (hf : (f k).now.data.length = k.now.data.length) (hm : Tentative os mode (f k))
    (hP : ∀ k, Tentative os mode k → P i k) :
    Shares T S P d0 i (fun r g' m' => ∃ k', Draws os mode x fd s g g' k' m' ∧ (r = .ok true → k' = f k) ∧
      ∀ e, r = .error e → e = .powerLoss) (.call (syscall c)) g' m := by
  have hdraft := h.draft
  subst hdraft
  have same {m' : Machine} (hst : m'.st = m.st) (hd : m'.desc fd = m.desc fd) :
      Draws os mode x fd s g (g.hold (some (x.set k))) k m' :=
    ⟨rfl, ⟨hst.trans h.isOpen.st, hd.trans h.isOpen.desc⟩, h.modes⟩
  refine shares_touch fun d => ends_syscall (.inl ⟨rfl, k, same rfl rfl, fun hr => (by cases hr),
    fun e he => (by cases he; rfl)⟩) fun t n => ?_
  rw [hc _ { m with disk := d } _ h.isOpen.desc]
  by_cases hok : okAt m.time = true
  · rw [if_pos hok]
    refine .inr ⟨f, hP _ hm, rfl, f k, ⟨rfl, ⟨h.isOpen.st, h.isOpen.desc.trans ?_⟩, hm⟩, fun _ => rfl,
      fun e he => (by cases he)⟩
    show some (Descriptor.mk x.id k.now.data.length true) = some ⟨x.id, (f k).now.data.length, true⟩
    rw [hf]
  · rw [if_neg hok]
    exact .inl ⟨rfl, k, same rfl rfl, fun hr => (by cases hr), fun e he => (by cases he)⟩

/-- A write appends some of the bytes at the pointer, or changes nothing. -/
theorem shares_sysWrite {p : Ptr} {n : ℕ} {y : Bytes} (h : DraftOpen fd s x m) (hy : load p n s = (.ok y, s))
    (hn : y.length = n) (hP : ∀ z, P i (x.inode.write x.inode.now.data.length z)) : Shares T S P d0 i (fun r g' m' =>
      (g' = g.hold (some x) ∧ DraftOpen fd s x m' ∧ (r = .error .powerLoss ∨ r = .ok .eintr ∨ r = .ok .error)) ∨
      ∃ c ≤ n, r = .ok (.count c) ∧ g' = g.hold (some (x.set (x.inode.write x.inode.now.data.length (y.take c)))) ∧
        DraftOpen fd s (x.set (x.inode.write x.inode.now.data.length (y.take c))) m')
      (.call (sysWrite os fd p n)) (g.hold (some x)) m := by
  subst hn
  refine shares_touch fun d => ?_
  refine Ends.bind (ends_onSt (Q := fun r m' => r = .ok y ∧ m' = { m with disk := d }) ?_) ?_ fun e m' h' => by cases h'.1
  · rw [show ({ m with disk := d } : Machine).st = s from h.st]
    refine Ends.of_eq hy ⟨rfl, ?_⟩
    rw [← h.st]
  rintro a m1 ⟨ha, rfl⟩
  cases ha
  refine ends_syscall (.inl ⟨rfl, .inl ⟨rfl, ⟨h.st, h.desc⟩, .inl rfl⟩⟩) fun t l => ?_
  have hdesc : Machine.desc { m with disk := d } fd = _ := h.desc
  rw [writeTransfer, hdesc]
  rcases hw : os.write m.time with c | _ | _
  · have htake : y.take (min c y.length) = y.take c := List.take_eq_take_min.symm
    refine .inr ⟨fun k => k.write x.inode.now.data.length (y.take c), hP _, rfl, .inr ⟨min c y.length,
      Nat.min_le_right c _, rfl, by rw [htake], h.st, ?_⟩⟩
    rw [htake]
    show Machine.desc _ fd = some ⟨x.id, (x.inode.write x.inode.now.data.length (y.take c)).now.data.length, true⟩
    rw [Inode.write_now_end, List.length_append, List.length_take]
    exact Machine.desc_seek (m := { m with disk := d.touch x.id (·.write x.inode.now.data.length (y.take c)) }) h.desc _
  · exact .inl ⟨rfl, .inl ⟨rfl, ⟨h.st, h.desc⟩, .inr (.inl rfl)⟩⟩
  · exact .inl ⟨rfl, .inl ⟨rfl, ⟨h.st, h.desc⟩, .inr (.inr rfl)⟩⟩

/-- **WriteFully appends all the bytes or stops**, whatever is done to the disk meanwhile. -/
theorem shares_writeFully {p : Ptr} {y : Bytes} {k : Inode} {g0 : Holding Path} (h : Draws os mode x fd s g0 g k m)
    (hp : Supplies s p y) (h0 : k.now.data = []) (hP : ∀ k, Tentative os mode k → P i k) :
    Shares T S P d0 i (fun r g' m' => ∃ k', Draws os mode x fd s g0 g' k' m' ∧
      (r = .ok true ∧ k'.now = ⟨y, k.now.mode⟩ ∨ r = .ok false ∨ r = .error .powerLoss))
      (Conc.writeFully os fd p y.length) g m := by
  refine shares_transferFully (I := fun done g' m' => ∃ k', Draws os mode x fd s g0 g' k' m' ∧
    k'.now = ⟨y.take done, k.now.mode⟩ ∧ done ≤ y.length) (fun d => ⟨k, ⟨h.draft, ⟨h.isOpen.st, h.isOpen.desc⟩, h.modes⟩,
      by rw [List.take_zero, ← h0], Nat.zero_le _⟩) ?_ ?_ ?_
  · rintro done g1 m1 hlt ⟨k1, ⟨rfl, ho, hm⟩, hnow, hle⟩
    have hload : load (p.add done) (y.length - done) s = (.ok (slice y done (y.length - done)), s) := hp _ _ (by omega)
    have hlen : (slice y done (y.length - done)).length = y.length - done := by rw [slice_length]; omega
    refine (shares_sysWrite ho hload hlen fun z => hP _ (hm.write _ z)).mono fun r g2 m2 h2 => ?_
    rcases h2 with ⟨rfl, ho2, hr⟩ | ⟨c, hc, rfl, rfl, ho2⟩
    · have same : ∃ k', Draws os mode x fd s g0 (g0.hold (some (x.set k1))) k' m2 ∧
          k'.now = ⟨y.take done, k.now.mode⟩ ∧ done ≤ y.length := ⟨k1, ⟨rfl, ho2, hm⟩, hnow, hle⟩
      refine ⟨fun e he => ?_, fun _ => same, fun _ => ⟨k1, ⟨rfl, ho2, hm⟩, .inr (.inl rfl)⟩, fun c hc => ?_⟩
      · rcases hr with hr | hr | hr <;> rw [hr] at he <;> cases he
        exact ⟨k1, ⟨rfl, ho2, hm⟩, .inr (.inr rfl)⟩
      · rcases hr with hr | hr | hr <;> rw [hr] at hc <;> cases hc
    · refine ⟨fun e he => (by cases he), fun he => (by cases he), fun he => (by cases he), fun c' hc' => ?_⟩
      cases hc'
      refine ⟨fun hz => absurd hz.1 (by decide), fun _ => ⟨_, ⟨rfl, ho2, hm.write _ _⟩, ?_, by omega⟩⟩
      show (k1.write k1.now.data.length _).now = _
      rw [Inode.write_now_end, hnow]
      have hnext := slice_append_slice y 0 done c
      rw [Nat.zero_add, slice_take, slice_take] at hnext
      have hpart : (slice y done (y.length - done)).take c = slice y done c := by
        rw [slice, slice, List.take_take, Nat.min_eq_left hc]
      rw [hpart, hnext]
  · rintro done g1 m1 hge ⟨k1, h1, hnow, -⟩
    rw [List.take_of_length_le hge] at hnow
    exact ⟨k1, h1, .inl ⟨rfl, hnow⟩⟩
  · rintro done g1 m1 ⟨k1, h1, -, -⟩
    exact ⟨k1, h1, .inr (.inr rfl)⟩

/-! ### WriteFileAtomically -/

/-- A temporary file is a draft from the start. -/
theorem shares_sysMkstemp {path : Path} (hn : g.draft = none)
    (hT : ∀ t sfx n, os.mkstemp t = some sfx → os.resolve (withSuffix (templateFor path) sfx) = some n → T n)
    (mode : UInt32)
    (hP : ∀ k, Tentative os mode k → P i k) : Shares T S P d0 i (fun r g' m' =>
      (m'.st = m.st ∧ g' = g ∧ (r = .ok none ∨ r = .error .powerLoss)) ∨ ∃ fd mp x k, r = .ok (some (fd, mp)) ∧
        os.resolve mp = some x.name ∧ k.now.data = [] ∧ Draws os mode x fd m.st g g' k m')
      (.call (sysMkstemp os (templateFor path))) g m := by
  refine Follows.call fun G h d hg hs => (ends_sysMkstemp path { m with disk := d }).mono fun r m' h' => ?_
  rcases h' with ⟨hst, hd, hr⟩ | ⟨fd, mp, n, rfl, hmp, ⟨⟨t, sfx, hsfx, hres⟩, ha⟩, h1⟩
  · refine ⟨g, [], ?_, .inl ⟨hst, rfl, hr.symm.symm⟩⟩
    show Shared T S P d0 _ _ m'.disk
    rw [← hg, Function.update_eq_self, acts_nil, List.append_nil, hd]
    exact hs
  · have hk : Tentative os mode (.create (0o600 &&& ~~~os.umask)) := Inode.modes_create (.inr rfl)
    have hs' := hs.makes (hT t sfx n hsfx hres) ha (by rw [hg, hn]) (hP _ hk)
    rw [hg] at hs'
    refine ⟨g.hold (some ⟨n, d.inodes.length, .create (0o600 &&& ~~~os.umask)⟩), [], ?_, .inr ⟨fd, mp,
      ⟨n, d.inodes.length, .create (0o600 &&& ~~~os.umask)⟩, _, rfl, hmp, rfl, rfl, ⟨h1.st, h1.desc⟩, hk⟩⟩
    show Shared T S P d0 _ _ m'.disk
    rw [h1.disk, acts_nil, List.append_nil]
    exact hs'

/-- What a stopped `WriteFileAtomically` leaves: no draft, or one that could not be unlinked. -/
def Gave (os : Os) (g : Holding Path) (s : St) (e : Stop) (g' : Holding Path) (m' : Machine) : Prop :=
  m'.st = s ∧ (g' = g ∨ ∃ x, g' = g.hold (some x) ∧ (e = .powerLoss ∨ ∃ t, os.unlinkOk t = false))

theorem Draws.lost {k : Inode} {g0 : Holding Path} (h : Draws os mode x fd s g0 g k m) : Gave os g0 s .powerLoss g m :=
  ⟨h.isOpen.st, .inr ⟨_, h.draft, .inl rfl⟩⟩

theorem hold_none (hn : g.draft = none) : g.hold none = g := by
  unfold Holding.hold
  rw [← hn]

theorem ends_unlinks {mp n : Path} (hmp : os.resolve mp = some n) : Ends (sysUnlink os mp) m fun r m' =>
    m'.st = m.st ∧ (m'.disk = m.disk.unlink n ∧ r = .ok true ∨
      m'.disk = m.disk ∧ (r = .error .powerLoss ∨ r = .ok false ∧ ∃ t, os.unlinkOk t = false)) := by
  refine ends_syscall ⟨rfl, .inr ⟨rfl, .inl rfl⟩⟩ fun t k => ?_
  rw [hmp]
  by_cases hok : os.unlinkOk m.time = true
  · simp only [hok, if_true]
    exact ⟨trivial, .inl ⟨trivial, trivial⟩⟩
  · simp only [hok]
    exact ⟨rfl, .inr ⟨rfl, .inr ⟨rfl, _, Bool.eq_false_of_not_eq_true hok⟩⟩⟩

theorem ends_renames {mp n : Path} (hmp : os.resolve mp = some n) (path : Path) :
    Ends (sysRename os mp path) m fun r m' =>
    m'.st = m.st ∧ ((∃ o, os.resolve path = some o ∧ m'.disk = m.disk.rename n o ∧ r = .ok true) ∨
      m'.disk = m.disk ∧ (r = .error .powerLoss ∨ r = .ok false)) := by
  refine ends_syscall ⟨rfl, .inr ⟨rfl, .inl rfl⟩⟩ fun t k => ?_
  rw [hmp]
  rcases ho : os.resolve path with _ | o
  · exact ⟨rfl, .inr ⟨rfl, .inr rfl⟩⟩
  by_cases hok : os.renameOk m.time = true
  · simp only [hok, if_true]
    exact ⟨trivial, .inl ⟨o, rfl, rfl, trivial⟩⟩
  · simp only [hok]
    exact ⟨rfl, .inr ⟨rfl, .inr rfl⟩⟩

/-- Without a step of its own, an owner keeps the protocol. -/
theorem shared_same {G : ι → Holding Path} {h : List (ι × Access Path)} {d d' : Disk Path} (hs : Shared T S P d0 G h d)
    (hg : G i = g) (hd : d' = d) : Shared T S P d0 (Function.update G i g) (h ++ acts i []) d' := by
  rw [← hg, Function.update_eq_self, acts_nil, List.append_nil, hd]
  exact hs

/-- `::unlink(path); return MC_ERR_IO;` -/
theorem shares_unlink_stop {mp : Path} (hn : g.draft = none) (hmp : os.resolve mp = some x.name) (hst : m.st = s) :
    Shares T S P d0 i (fun (r : Except Stop Unit) g' m' => ∃ e, r = .error e ∧ Gave os g s e g' m')
      (do let _ ← .call (sysUnlink os mp); .stop (.status .errIo)) (g.hold (some x)) m := by
  refine Follows.bind (R := fun r g' m' => m'.st = s ∧ (g' = g ∨ g' = g.hold (some x) ∧
    (r = .error .powerLoss ∨ ∃ t, os.unlinkOk t = false)) ∧ ∀ e, r = .error e → e = .powerLoss) ?_ ?_ ?_
  · refine Follows.call fun G h d hg hs => (ends_unlinks (m := { m with disk := d }) hmp).mono fun r m' h' => ?_
    have hx : (G i).draft = some x := by rw [hg]; rfl
    obtain ⟨hst', ⟨hd, rfl⟩ | ⟨hd, hr⟩⟩ := h'
    · have hs' := hs.unlinks hx
      rw [hg, show (g.hold (some x)).hold none = g from hold_none hn] at hs'
      refine ⟨g, [], ?_, hst'.trans hst, .inl rfl, fun e he => (by cases he)⟩
      show Shared T S P d0 _ _ m'.disk
      rw [hd, acts_nil, List.append_nil]
      exact hs'
    · refine ⟨_, [], shared_same hs hg hd, hst'.trans hst, .inr ⟨rfl, hr.imp_right (·.2)⟩, fun e he => ?_⟩
      rcases hr with rfl | ⟨rfl, -⟩ <;> cases he
      rfl
  · rintro a g' m' ⟨hs', h', -⟩
    refine ⟨_, rfl, hs', h'.imp_right ?_⟩
    rintro ⟨rfl, hr | ht⟩
    · cases hr
    · exact ⟨x, rfl, .inr ht⟩
  · rintro e g' m' ⟨hs', h', he⟩
    cases he e rfl
    refine ⟨_, rfl, hs', h'.imp_right ?_⟩
    rintro ⟨rfl, -⟩
    exact ⟨x, rfl, .inl rfl⟩

theorem shares_unlinkIf {mp : Path} {c : Prop} [Decidable c] (hn : g.draft = none) (hmp : os.resolve mp = some x.name)
    (hst : m.st = s) : Shares T S P d0 i (fun r g' m' => (r = .ok () ∧ ¬ c ∧ g' = g.hold (some x) ∧ m' = m) ∨
      ∃ e, r = .error e ∧ Gave os g s e g' m') (Conc.unlinkIf os mp c) (g.hold (some x)) m := by
  unfold Conc.unlinkIf
  split
  · exact (shares_unlink_stop hn hmp hst).mono fun r g' m' h => .inr h
  · rename_i hc
    exact .inl ⟨rfl, hc, rfl, rfl⟩

/-- `::close(fd); ::unlink(path); return MC_ERR_IO;` on a condition. -/
theorem shares_discardIf {mp : Path} {c : Prop} [Decidable c] {k : Inode} {g' : Holding Path} (hn : g.draft = none)
    (hmp : os.resolve mp = some x.name) (h : Draws os mode x fd s g g' k m) :
    Shares T S P d0 i (fun r g2 m' => (r = .ok () ∧ ¬ c ∧ Draws os mode x fd s g g2 k m') ∨
      ∃ e, r = .error e ∧ Gave os g s e g2 m') (Conc.discardIf os fd mp c) g' m := by
  unfold Conc.discardIf
  split
  · refine Follows.bind (shares_sysClose fd) ?_ ?_
    · rintro _ g2 m2 ⟨rfl, hst, -⟩
      rw [h.draft]
      exact (shares_unlink_stop (x := x.set k) hn hmp (hst.trans h.isOpen.st)).mono fun r g' m' h => .inr h
    · rintro e g2 m2 ⟨rfl, hst, he⟩
      cases he e rfl
      exact .inr ⟨_, rfl, hst.trans h.isOpen.st, .inr ⟨_, h.draft, .inl rfl⟩⟩
  · rename_i hc
    exact .inl ⟨rfl, hc, h⟩

theorem shares_writeAll {p : Ptr} {y : Bytes} {mp : Path} {k : Inode} {g' : Holding Path} (hn : g.draft = none)
    (hmp : os.resolve mp = some x.name) (h : Draws os mode x fd s g g' k m) (hp : Supplies s p y)
    (h0 : k.now = ⟨[], mode⟩) (hP : ∀ k, Tentative os mode k → P i k) : Shares T S P d0 i (fun r g2 m' =>
      (r = .ok () ∧ ∃ k', Draws os mode x fd s g g2 k' m' ∧ k'.now = ⟨y, mode⟩) ∨
        ∃ e, r = .error e ∧ Gave os g s e g2 m') (Conc.writeAll os fd mp p y.length) g' m := by
  unfold Conc.writeAll
  split
  · refine Follows.bind (shares_writeFully h hp (by rw [h0]) hP) ?_ ?_
    · rintro whole g1 m1 ⟨k1, h1, hw⟩
      refine (shares_discardIf hn hmp h1).mono fun r g2 m2 h2 => h2.imp_left ?_
      rintro ⟨rfl, hne, h2⟩
      rcases hw with ⟨-, hk⟩ | hw | hw
      · exact ⟨rfl, k1, h2, by rw [hk, h0]⟩
      · cases hw
        exact absurd rfl hne
      · cases hw
    · rintro e g1 m1 ⟨k1, h1, ⟨hr, -⟩ | hr | hr⟩ <;> cases hr
      exact .inr ⟨_, rfl, h1.lost⟩
  · rename_i hy
    refine .inl ⟨rfl, k, h, ?_⟩
    rw [h0, List.eq_nil_of_length_eq_zero (Nat.eq_zero_of_not_pos hy)]

/-- The draft is published, or it is where it was. -/
theorem shares_sysRename {mp path : Path} {f : File} (hmp : os.resolve mp = some x.name) (hst : m.st = s)
    (hnow : x.inode.now = f) (hsync : ∀ f', x.inode.durable f' → f' = f)
    (hpub : ∀ o, os.resolve path = some o → ¬ T o ∧ S i (g.did ++ [.publish o f])) :
    Shares T S P d0 i (fun r g' m' => m'.st = s ∧
      ((r = .ok true ∧ ∃ o, os.resolve path = some o ∧ g' = g.publish o f) ∨
        (g' = g.hold (some x) ∧ (r = .error .powerLoss ∨ r = .ok false))))
      (.call (sysRename os mp path)) (g.hold (some x)) m := by
  refine Follows.call fun G h d hg hs => (ends_renames (m := { m with disk := d }) hmp path).mono fun r m' h' => ?_
  have hx : (G i).draft = some x := by rw [hg]; rfl
  obtain ⟨hst', ⟨o, ho, hd, rfl⟩ | ⟨hd, hr⟩⟩ := h'
  · obtain ⟨hT, hS⟩ := hpub o ho
    have hs' := hs.publishes hx hT (fun f' hf => (hsync f' hf).trans hnow.symm) (by rw [hg, hnow]; exact hS)
    rw [hg, hnow] at hs'
    refine ⟨g.publish o f, [.publish o f], ?_, hst'.trans hst, .inl ⟨rfl, o, ho, rfl⟩⟩
    show Shared T S P d0 _ _ m'.disk
    rw [hd]
    exact hs'
  · exact ⟨_, [], shared_same hs hg hd, hst'.trans hst, .inr ⟨rfl, hr⟩⟩

/-- What `WriteFileAtomically` may end in: the file is published as a whole, or nothing is. -/
def WriteEnds (os : Os) (path : Path) (f : File) (g : Holding Path) (s : St) (r : Except Stop Unit) (g' : Holding Path)
    (m' : Machine) : Prop :=
  (r = .ok () ∧ m'.st = s ∧ ∃ o, os.resolve path = some o ∧ g' = g.publish o f) ∨
    ∃ e, r = .error e ∧ Gave os g s e g' m'

/-- **WriteFileAtomically among others**: the file is published as a whole, once, or not at all. -/
theorem shares_writeFileAtomically {path : Path} {p : Ptr} {y : Bytes} (mode : UInt32) (hn : g.draft = none)
    (hp : Supplies m.st p y)
    (hT : ∀ t sfx n, os.mkstemp t = some sfx → os.resolve (withSuffix (templateFor path) sfx) = some n → T n)
    (hP : ∀ k, Tentative os mode k → P i k)
    (hpub : ∀ o, os.resolve path = some o → ¬ T o ∧ S i (g.did ++ [.publish o ⟨y, mode⟩])) :
    Shares T S P d0 i (WriteEnds os path ⟨y, mode⟩ g m.st) (Conc.writeFileAtomically os path p y.length mode) g m := by
  have early {m' : Machine} {e : Stop} (hst : m'.st = m.st) : WriteEnds os path ⟨y, mode⟩ g m.st (.error e) g m' :=
    .inr ⟨e, rfl, hst, .inl rfl⟩
  refine Follows.bind (shares_quiet (R := fun _ => True) fun m => ?_) ?_ fun e g1 m1 h1 => h1.1 ▸ early h1.2.1
  · unfold returnIf throwIf
    split <;> exact ⟨rfl, trivial⟩
  rintro _ g1 m1 ⟨rfl, hst1, -⟩
  refine Follows.bind (shares_quiet (R := fun r => ∀ a, r = .ok a → a = templateFor path) fun m => ?_) ?_
    fun e g2 m2 h2 => h2.1 ▸ early (h2.2.1.trans hst1)
  · by_cases hstr : Strings os m.time path
    · exact Ends.of_eq (temporaryFor_ok hstr) ⟨rfl, fun a ha => (by cases ha; rfl)⟩
    · exact Ends.of_eq (temporaryFor_bad hstr) ⟨rfl, fun a ha => (by cases ha)⟩
  rintro _ g2 m2 ⟨rfl, hst2, hr⟩
  cases hr _ rfl
  have hst := hst2.trans hst1
  refine Follows.bind (shares_sysMkstemp hn hT mode hP) ?_ ?_
  swap
  · rintro e g3 m3 (⟨hst3, rfl, -⟩ | ⟨_, _, _, _, hr, -⟩)
    · exact early (hst3.trans hst)
    · cases hr
  rintro _ g3 m3 (⟨hst3, rfl, hr | hr⟩ | ⟨fd, mp, x, k, hr, hmp, hk, h3⟩) <;> cases hr
  · exact early (hst3.trans hst)
  rw [hst] at h3
  have hgave {e : Stop} {g' : Holding Path} {m' : Machine} (h : Gave os g2 m.st e g' m') :
      WriteEnds os path ⟨y, mode⟩ g2 m.st (.error e) g' m' := .inr ⟨e, rfl, h⟩
  have hstop {g' : Holding Path} {m' : Machine} {e : Stop} {R : Prop}
      (h : Except.error e = (.ok () : Except Stop Unit) ∧ R ∨ ∃ e', (Except.error e : Except Stop Unit) = .error e' ∧
        Gave os g2 m.st e' g' m') : WriteEnds os path ⟨y, mode⟩ g2 m.st (.error e) g' m' := by
    rcases h with ⟨hr, -⟩ | ⟨e', hr, h⟩ <;> cases hr
    exact hgave h
  -- the mode
  have hk3 : (k.chmod mode).now = ⟨[], mode⟩ := by rw [← hk]; rfl
  refine Follows.bind
    (shares_change (f := .chmod mode) h3 (fun t m' e he => by rw [he]) rfl (h3.modes.chmod (.inl rfl)) hP) ?_ ?_
  swap
  · rintro e g4 m4 ⟨k4, h4, -, he⟩
    cases he e rfl
    exact hgave h4.lost
  rintro moded g4 m4 ⟨k4, h4, hmoded, -⟩
  refine Follows.bind (shares_discardIf hn hmp h4) ?_ fun e _ _ h => hstop h
  rintro _ g5 m5 (⟨-, hc5, h5⟩ | ⟨e, he, -⟩)
  swap
  · cases he
  cases hmoded (by rw [Bool.eq_true_of_not_eq_false hc5])
  -- the data
  refine Follows.bind (shares_writeAll hn hmp h5 hp hk3 hP) ?_ fun e _ _ h => hstop h
  rintro _ g6 m6 (⟨-, k6, h6, hk6⟩ | ⟨e, he, -⟩)
  swap
  · cases he
  refine Follows.bind (shares_change (f := .sync) h6 (fun t m' e he => by rw [he]) rfl h6.modes.sync hP) ?_ ?_
  swap
  · rintro e g7 m7 ⟨k7, h7, -, he⟩
    cases he e rfl
    exact hgave h7.lost
  rintro synced g7 m7 ⟨k7, h7, hsynced, -⟩
  refine Follows.bind (shares_discardIf hn hmp h7) ?_ fun e _ _ h => hstop h
  rintro _ g8 m8 (⟨-, hc8, h8⟩ | ⟨e, he, -⟩)
  swap
  · cases he
  cases hsynced (by rw [Bool.eq_true_of_not_eq_false hc8])
  -- the name
  refine Follows.bind (shares_sysClose fd) ?_ ?_
  swap
  · rintro e g9 m9 ⟨rfl, hst9, he⟩
    cases he e rfl
    exact hgave ⟨hst9.trans h8.isOpen.st, .inr ⟨_, h8.draft, .inl rfl⟩⟩
  rintro closed g9 m9 ⟨rfl, hst9, -⟩
  rw [h8.draft]
  have hst9 := hst9.trans h8.isOpen.st
  refine Follows.bind (shares_unlinkIf (x := x.set k6.sync) hn hmp hst9) ?_ fun e _ _ h => hstop h
  rintro _ g10 m10 (⟨-, -, rfl, rfl⟩ | ⟨e, he, -⟩)
  swap
  · cases he
  refine Follows.bind (shares_sysRename (x := x.set k6.sync) hmp hst9 hk6 (fun f' hf => hf.trans hk6) hpub) ?_ ?_
  swap
  · rintro e g11 m11 ⟨hst11, ⟨hr, -⟩ | ⟨rfl, hr⟩⟩
    · cases hr
    · rcases hr with hr | hr <;> cases hr
      exact hgave ⟨hst11, .inr ⟨_, rfl, .inl rfl⟩⟩
  rintro renamed g11 m11 ⟨hst11, ⟨hr, o, ho, rfl⟩ | ⟨rfl, hr⟩⟩
  · cases hr
    exact .inl ⟨rfl, hst11, o, ho, rfl⟩
  · rcases hr with hr | hr <;> cases hr
    exact (shares_unlink_stop (x := x.set k6.sync) hn hmp hst11).mono fun r g' m' h => .inr h

end Draft

/-! ### The calls on files -/

/-- What a call may do to the files, and in which order: read one, and then publish what it made of that. -/
inductive Story (os : Os) (crypt : Span → Run (SecureBuffer × ℕ)) (mode : UInt32) (inPath outPath : Option Path) :
    List (Access Path) → Prop
  | idle : Story os crypt mode inPath outPath []
  | read {n f} (hn : inPath.bind os.follow = some n) : Story os crypt mode inPath outPath [.read n f]
  | wrote {n f y x t} (hn : inPath.bind os.follow = some n) (hr : Reads os f y) (hx : Turns crypt y x)
      (ht : outPath.bind os.resolve = some t) : Story os crypt mode inPath outPath [.read n f, .publish t ⟨x, mode⟩]

/-- How `mc_encrypt_file` or `mc_decrypt_file` ends. -/
structure CallEnds (os : Os) (s : St) (r : Except Stop Unit) (g' : Holding Path) (m' : Machine) : Prop where
  /-- With `MC_OK`, its story is told to the end. -/
  ok : r = .ok () → ∃ n f t x, g'.did = [.read n f, .publish t x]
  /-- With anything else, no file was published. -/
  stop : r ≠ .ok () → ∀ t x, .publish t x ∉ g'.did
  /-- Unless it is killed, no temporary file is left, or one could not be unlinked. -/
  clean : r ≠ .error .powerLoss → (∀ t, os.unlinkOk t = true) → g'.draft = none
  memory : Heap.Becomes s.heap m'.st.heap s.heap.get

/-- Leaving the scope of a buffer. -/
theorem shares_withBuffer {buf : SecureBuffer} {body : Process α} {R : Except Stop α → Holding Path → Machine → Prop}
    (hb : Shares T S P d0 i R body g m) (hq : ∀ r g' m', R r g' m' → ∃ h0 k x, InScope h0 k buf x m'.st ∧
      ∀ m'', Heap.Becomes h0 m''.st.heap k → Q r g' m'') : Shares T S P d0 i Q (Conc.withBuffer buf body) g m := by
  refine Follows.always hb fun r g' m' hr => ?_
  obtain ⟨h0, k, x, hs, h⟩ := hq r g' m' hr
  refine (shares_destroy hs).mono ?_
  rintro _ g2 m2 ⟨rfl, rfl, hb⟩
  exact ⟨fun e he => (by cases he), fun _ => h m2 hb⟩

/-- What a call has in its hands after `ReadFile`: the bytes of one file, in a buffer that can be crypted. -/
theorem shares_crypt {crypt : Span → Run (SecureBuffer × ℕ)} (hc : Crypts w crypt) {buf : SecureBuffer} {y : Bytes}
    {h0 : Heap} {k : ℕ → Option Bytes} (hs : InScope h0 k buf y m.st) (hle : y.length ≤ w.sizeT.max)
    {rest : SecureBuffer × ℕ → Process α}
    (ok : ∀ out x z m', Turns crypt y x → x <+: z → InScope m.st.heap m.st.heap.get out z m'.st →
      Shares T S P d0 i Q (rest (out, x.length)) g m')
    (stop : ∀ e m', Heap.Becomes m.st.heap m'.st.heap m.st.heap.get → Q (.error (.status e)) g m') :
    Shares T S P d0 i Q (do
      let input ← .call (onSt (spanAt buf.ptr y.length))
      let a ← .call (onSt (crypt input))
      rest a) g m := by
  obtain ⟨input, hspan, hden⟩ := spanAt_run hs.holds
  refine Follows.bind (R := fun r g' m' => g' = g ∧ m'.st = m.st ∧ r = .ok input)
    (shares_onSt (Ends.of_eq hspan fun _ => ⟨rfl, rfl, rfl⟩)) ?_ ?_
  swap
  · rintro e g1 m1 ⟨-, -, hr⟩
    cases hr
  rintro _ g1 m1 ⟨rfl, hst1, hr⟩
  cases hr
  refine Follows.bind (R := fun r g' m' => g' = g1 ∧ crypt input m.st = (r, m'.st) ∧
    ((∃ (out : SecureBuffer) (x z : Bytes), r = .ok (out, x.length) ∧ x <+: z ∧
      InScope m.st.heap m.st.heap.get out z m'.st) ∨
      ∃ e, r = .error (.status e) ∧ Heap.Becomes m.st.heap m'.st.heap m.st.heap.get)) (shares_onSt ?_) ?_ ?_
  · rw [hst1]
    have hrun : Ends (crypt input) m.st fun r s' => crypt input m.st = (r, s') ∧
        ((∃ (out : SecureBuffer) (x z : Bytes), r = .ok (out, x.length) ∧ x <+: z ∧
          InScope m.st.heap m.st.heap.get out z s') ∨
          ∃ e, r = .error (.status e) ∧ Heap.Becomes m.st.heap s'.heap m.st.heap.get) :=
      ⟨rfl, hc input m.st (hden.size.trans_le hle)⟩
    exact hrun.mono fun r s' h d => ⟨rfl, h⟩
  · rintro _ g2 m2 ⟨rfl, hrun, ⟨out, x, z, hr, hpre, hs2⟩ | ⟨e, hr, -⟩⟩ <;> cases hr
    exact ok out x z m2 ⟨input, m.st, out, m2.st, hden, hrun, St.at_of_holds hs2.holds hpre⟩ hpre hs2
  · rintro e g2 m2 ⟨rfl, -, ⟨_, _, _, hr, -⟩ | ⟨st, hr, hb⟩⟩ <;> cases hr
    exact stop st m2 hb

/-- **`mc_encrypt_file` and `mc_decrypt_file` among others**: one file is read, and what was made of it is published, at
once, or nothing is. -/
theorem shares_cryptFile {crypt : Span → Run (SecureBuffer × ℕ)} (hc : Crypts w crypt) (maxSize : UInt64) (mode : UInt32)
    (inPath outPath : Option Path) (hin : ∀ n, inPath.bind os.follow = some n → ¬ T n)
    (hout : ∀ o, outPath.bind os.resolve = some o → ¬ T o)
    (htemp : ∀ p t sfx n, outPath = some p → os.mkstemp t = some sfx →
      os.resolve (withSuffix (templateFor p) sfx) = some n → T n)
    (hP : ∀ k, Tentative os mode k → P i k) (hS : ∀ l, Story os crypt mode inPath outPath l → S i l) :
    Shares T S P d0 i (CallEnds os m.st) (Conc.cryptFile os w crypt maxSize mode inPath outPath) {} m := by
  -- nothing was done yet, or a file was read and no more
  have early {e : Stop} {g' : Holding Path} {m' : Machine} (hg : g'.draft = none)
      (hd : g'.did = [] ∨ ∃ n f, g'.did = [.read n f]) (hm : Heap.Becomes m.st.heap m'.st.heap m.st.heap.get) :
      CallEnds os m.st (.error e) g' m' := by
    refine ⟨fun h => (by cases h), fun _ t x hx => ?_, fun _ _ => hg, hm⟩
    rcases hd with hd | ⟨n, f, hd⟩ <;> rw [hd] at hx
    · cases hx
    · cases List.mem_singleton.mp hx
  refine Follows.bind (R := fun r g' m' => g' = {} ∧ m'.st = m.st ∧
    ∀ a, r = .ok a → inPath = some a.1 ∧ outPath = some a.2) (shares_quiet fun m => ?_) ?_ ?_
  · rcases toPaths_run os inPath outPath m with ⟨a, b, ha, hb, hp⟩ | ⟨e, hp, -⟩
    · exact Ends.of_eq hp ⟨rfl, fun c hc => (by cases hc; exact ⟨ha, hb⟩)⟩
    · exact Ends.of_eq hp ⟨rfl, fun c hc => (by cases hc)⟩
  swap
  · rintro e g1 m1 ⟨rfl, hst1, -⟩
    exact early rfl (.inl rfl) (hst1 ▸ Heap.Becomes.refl _)
  rintro ⟨inp, outp⟩ g1 m1 ⟨rfl, hst1, hr⟩
  obtain ⟨rfl, rfl⟩ := hr _ rfl
  refine Follows.bind (shares_readFile maxSize (fun n hn => hin n hn) fun n f hn => hS _ (.read hn)) ?_ ?_
  swap
  · rintro e g2 m2 (⟨_, _, _, _, _, hr, -⟩ | ⟨_, hr, hb, hg⟩) <;> cases hr
    rw [hst1] at hb
    rcases hg with rfl | ⟨n, id, f, -, rfl⟩
    · exact early rfl (.inl rfl) hb
    · exact early rfl (.inr ⟨n, f, rfl⟩) hb
  rintro _ g2 m2 (⟨buf, y, n, id, f, hr, hn, rfl, hreads, hle, hs2⟩ | ⟨_, hr, -⟩) <;> cases hr
  rw [hst1] at hs2
  refine shares_withBuffer (R := fun r g' m' => Heap.Becomes m2.st.heap m'.st.heap m2.st.heap.get ∧ ∀ m'',
    Heap.Becomes m.st.heap m''.st.heap m.st.heap.get → CallEnds os m.st r g' m'') ?_
    fun r g' m' h => ⟨_, _, _, hs2.after h.1, h.2⟩
  refine shares_crypt hc hs2 hle ?_ fun e m3 hb => ⟨hb, fun m4 hb4 => early rfl (.inr ⟨n, f, rfl⟩) hb4⟩
  intro out x z m3 hturns hpre hs3
  refine shares_withBuffer (shares_writeFileAtomically mode rfl (supplies_of_holds hs3.holds hpre)
    (fun t sfx n hsfx hn => htemp _ t sfx n rfl hsfx hn) hP fun o ho => ⟨hout o ho, hS _ (.wrote hn hreads hturns ho)⟩) ?_
  rintro r g4 m4 (⟨rfl, hst4, o, ho, rfl⟩ | ⟨e, rfl, hst4, hg4⟩)
  · refine ⟨_, _, z, hst4 ▸ hs3, fun m5 hb5 => ⟨hb5, fun m6 hb6 => ⟨fun _ => ⟨n, f, o, _, rfl⟩, fun h => absurd rfl h,
      fun _ _ => rfl, hb6⟩⟩⟩
  · refine ⟨_, _, z, hst4 ▸ hs3, fun m5 hb5 => ⟨hb5, fun m6 hb6 => ?_⟩⟩
    rcases hg4 with rfl | ⟨d, rfl, hclean⟩
    · exact early rfl (.inr ⟨n, f, rfl⟩) hb6
    · refine ⟨fun h => (by cases h), fun _ t x hx => (by cases List.mem_singleton.mp hx), fun hr hu => ?_, hb6⟩
      rcases hclean with rfl | ⟨t, ht⟩
      · exact absurd rfl hr
      · rw [hu t] at ht
        cases ht

/-- How `mc_decrypt_file_to_buffer` ends: with the plaintext of one file that was at the path at one time, or without
anything. -/
structure BufferEnds (w : World) (os : Os) (key : Span) (r : Except Stop (Option ℕ × ℕ)) (g' : Holding Path)
    (m' : Machine) :
    Prop where
  ok : ∀ a, r = .ok a → ∃ n f y x, g'.did = [.read n f] ∧ Reads os f y ∧ Turns (Decrypt.decryptBuffer w key) y x ∧
    a.2 = x.length ∧ m'.st.At a.1 x
  draft : g'.draft = none

/-- **`mc_decrypt_file_to_buffer` among others.** -/
theorem shares_decryptFileToBuffer (key : Span) (inPath : Option Path) (outNull outSizeNull : Bool)
    (hin : ∀ n, inPath.bind os.follow = some n → ¬ T n) (hS : ∀ n f, inPath.bind os.follow = some n → S i [.read n f]) :
    Shares T S P d0 i (BufferEnds w os key) (Conc.decryptFileToBuffer os w key inPath outNull outSizeNull) {} m := by
  have early {e : Stop} {g' : Holding Path} {m' : Machine} (hg : g'.draft = none) :
    BufferEnds w os key (.error e) g' m' :=
    ⟨fun a ha => (by cases ha), hg⟩
  refine Follows.bind (shares_quiet (R := fun _ => True) fun m => ?_) ?_ fun e g1 m1 h1 => early (by rw [h1.1])
  · unfold returnIf throwIf
    split <;> exact ⟨rfl, trivial⟩
  rintro _ g1 m1 ⟨rfl, hst1, -⟩
  refine Follows.bind (shares_quiet (R := fun r => ∀ a, r = .ok a → inPath = some a) fun m => ?_) ?_
    fun e g2 m2 h2 => early (by rw [h2.1])
  · unfold catchBadAlloc Ends
    rw [catch_apply]
    rcases inPath with _ | p
    · exact ⟨rfl, fun a ha => by cases ha⟩
    · by_cases hp : os.string m.time .inputPath p.length = true
      · rw [toPath, bind_ok (newString_ok hp)]
        exact ⟨rfl, fun a ha => by cases ha; rfl⟩
      · rw [toPath, bind_error (newString_bad hp)]
        exact ⟨rfl, fun a ha => by cases ha⟩
  rintro p g2 m2 ⟨rfl, hst2, hr⟩
  cases hr _ rfl
  refine Follows.bind (shares_readFile kMaxFileSize (fun n hn => hin n hn) fun n f hn => hS n f hn) ?_ ?_
  swap
  · rintro e g3 m3 (⟨_, _, _, _, _, hr, -⟩ | ⟨_, hr, -, rfl | ⟨n, id, f, -, rfl⟩⟩) <;> cases hr
    · exact early rfl
    · exact early rfl
  rintro _ g3 m3 (⟨buf, y, n, id, f, hr, hn, rfl, hreads, hle, hs3⟩ | ⟨_, hr, -⟩) <;> cases hr
  refine shares_withBuffer (R := fun r g' m' => ∃ h0 k, InScope h0 k buf y m'.st ∧ ∀ m'', Heap.Becomes h0 m''.st.heap k →
    BufferEnds w os key r g' m'') ?_ ?_
  swap
  · rintro r g' m' ⟨h0, k, hs, h⟩
    exact ⟨h0, k, y, hs, h⟩
  refine shares_crypt (crypts_decrypt w key) hs3 hle ?_ fun e m4 hb => ⟨_, _, hs3.after hb, fun m5 _ => early rfl⟩
  intro out x z m4 hturns hpre hs4
  obtain ⟨hin4, hfresh⟩ := (hs3.since hs4).swap (hs3.holds.put_back _) hs3.fresh
  refine ⟨_, _, hin4, fun m5 hb5 => ⟨fun a ha => ?_, rfl⟩⟩
  cases ha
  refine ⟨n, f, y, x, rfl, hreads, hturns, rfl, St.at_of_holds ?_ hpre⟩
  rw [hb5.get_eq]
  exact hs4.holds.put_back _

end Sharing

end ModelCrypt
