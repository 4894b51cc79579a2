/-
# Making and loading keys at once

`RunKeygen` and `LoadKey` once more, cut into their system calls, as `Processes`
does it with the file calls. What touches no file is one step. Alone, each process
is the function it is named after (`run_runKeygen`, `run_loadKey`).

A process that makes a key bids for the name of the key file, and one that loads a
key reads a file that may not be written yet: `Tried` and `FromFile` are how they
end, whatever others do meanwhile.

Key definitions: `Conc.runKeygen`, `Conc.loadKey`, `KeyMade`, `Tried`, `FromFile`.
Key theorems: `bids_runKeygen`, `bids_freadLoop`, `bids_loadKey`.
-/
import ModelCrypt.Processes
import ModelCrypt.Tool
import ModelCrypt.Lib.Bids

namespace ModelCrypt.Cli

open Lib Prog Fileio

/-! ### In steps -/

namespace Conc

variable (os : Os) (con : Console)

/-- `RunKeygen`. -/
def runKeygen (w : World) (args : Args) : Process (Frame Exit) :=
  if args.out = [] then return ⟨⟨kExitUsage, some (.required "--out")⟩, none⟩
  else do
    match ← .call (attempt (onSt (mcGenerateKey w 32))) with
    | .error s => return ⟨⟨kExitFailure, some (.keygenFailed s)⟩, some (con.garbage 32).1⟩
    | .ok raw =>
      match ← .call (sysCreate os args.out 0o600) with
      | none => return ⟨⟨kExitFailure, some (.cannotCreate args.out)⟩, some raw.1⟩
      | some fd =>
        let written ← .call (syscall (writeTransfer os fd raw.1))
        let _ ← .call (sysClose os fd)
        if written ≠ .count 32 then
          return ⟨⟨kExitFailure, some (.failedToWrite args.out)⟩, some (secureZero raw.1)⟩
        return ⟨⟨kExitOk, none⟩, some (secureZero raw.1)⟩

def freadLoop (fd size : ℕ) : ℕ → Bytes → Process Bytes
  | 0, x => return x
  | rounds + 1, x =>
    if x.length < size then do
      match ← .call (syscall (readTransfer os fd (size - x.length))) with
      | (.count n, y) => if n = 0 then return x else freadLoop fd size rounds (x ++ y)
      | _ => return x
    else return x

/-- `ReadKeyFile`. -/
def readKeyFile (path : Path) (key : KeyBytes) : Process (Frame (Option Diagnostic × KeyBytes)) := do
  match ← .call (sysOpen os path) with
  | none => return ⟨(some (.cannotOpenKeyFile path), key), none⟩
  | some fd =>
    let read ← freadLoop os fd (kMaxKeyFileSize + 1) (kMaxKeyFileSize + 1) []
    let buffer := overwrite (con.garbage (kMaxKeyFileSize + 1)).1 0 read
    let _ ← .call (sysClose os fd)
    if read.length > kMaxKeyFileSize then return ⟨(some (.keyFileTooLarge path), key), some buffer⟩
    let key ← .call (key.assign con (buffer.take read.length))
    return ⟨(none, stripOneTrailingNewline key), some (secureZero buffer)⟩

/-- `LoadKey`. -/
def loadKey (args : Args) (key : KeyBytes) : Process (Option Diagnostic × KeyBytes) :=
  if args.keyFile ≠ [] ∧ args.keyEnv ≠ [] then return (some .twoSources, key)
  else do
    let (said, key) ←
      if args.keyFile ≠ [] then do
        let r ← readKeyFile os con args.keyFile key
        pure r.value
      else if args.keyEnv ≠ [] then .call (readKeyEnv con args.keyEnv key)
      else do
        let r ← .call (readKeyPrompt con key)
        pure r.value
    if said ≠ none then return (said, key)
    if key.size < mcMinKeySize then return (some (.keyTooShort key.size), key)
    return (none, key)

/-! ### Alone -/

section Alone

variable {os con}

/-- **Alone, `RunKeygen` is `RunKeygen`.** -/
theorem run_runKeygen (w : World) (args : Args) : (runKeygen os con w args).run = Cli.runKeygen w os con args := by
  unfold runKeygen Cli.runKeygen
  split
  · rfl
  rw [Proc.run_bind]
  refine congrArg _ (funext fun r => ?_)
  rcases r with s | raw
  · rfl
  dsimp only
  rw [Proc.run_bind]
  refine congrArg _ (funext fun fd => ?_)
  rcases fd with _ | fd
  · rfl
  dsimp only
  rw [Proc.run_bind]
  refine congrArg _ (funext fun written => ?_)
  rw [Proc.run_bind]
  refine congrArg _ (funext fun _ => ?_)
  split <;> rfl

theorem run_freadLoop (fd size : ℕ) : ∀ rounds x,
    (freadLoop os fd size rounds x).run = Cli.freadLoop os fd size rounds x := by
  intro rounds
  induction rounds with
  | zero => exact fun _ => rfl
  | succ rounds ih =>
    intro x
    rw [freadLoop, Cli.freadLoop]
    split
    · rw [Proc.run_bind]
      refine congrArg _ (funext fun r => ?_)
      rcases r with ⟨n | _ | _, y⟩
      · dsimp only
        split
        · rfl
        · exact ih (x ++ y)
      · rfl
      · rfl
    · rfl

theorem run_readKeyFile (path : Path) (key : KeyBytes) :
    (readKeyFile os con path key).run = Cli.readKeyFile os con path key := by
  unfold readKeyFile Cli.readKeyFile fread
  rw [Proc.run_bind]
  refine congrArg _ (funext fun fd => ?_)
  rcases fd with _ | fd
  · rfl
  dsimp only
  rw [Proc.run_bind, run_freadLoop]
  refine congrArg _ (funext fun read => ?_)
  rw [Proc.run_bind]
  refine congrArg _ (funext fun _ => ?_)
  split
  · rfl
  · rw [Proc.run_bind]
    rfl

/-- **Alone, `LoadKey` is `LoadKey`.** -/
theorem run_loadKey (args : Args) (key : KeyBytes) : (loadKey os con args key).run = Cli.loadKey os con args key := by
  unfold loadKey Cli.loadKey
  split
  · rfl
  have hjudge (r : Option Diagnostic × KeyBytes) : (if r.1 ≠ none then pure (r.1, r.2)
      else if r.2.size < mcMinKeySize then pure (some (Diagnostic.keyTooShort r.2.size), r.2)
      else pure (none, r.2) : Process (Option Diagnostic × KeyBytes)).run = (if r.1 ≠ none then pure (r.1, r.2)
      else if r.2.size < mcMinKeySize then pure (some (Diagnostic.keyTooShort r.2.size), r.2)
      else pure (none, r.2) : Sys (Option Diagnostic × KeyBytes)) := by
    split
    · rfl
    · split <;> rfl
  dsimp only
  split
  · rw [Proc.run_bind, run_readKeyFile]
    exact congrArg _ (funext fun r => hjudge r.value)
  split
  · rw [Proc.run_bind]
    exact congrArg _ (funext hjudge)
  · rw [Proc.run_bind]
    exact congrArg _ (funext fun r => hjudge r.value)

end Alone

end Conc

/-! ### Bids for a key file -/

section Bidding

variable {ι : Type} [DecidableEq ι] {P : ι → Draft Path → Prop} {d0 : Disk Path} {i : ι} {α : Type} {w : World}
  {os : Os} {con : Console} {args : Args} {g : Bid Path} {m : Machine}

variable (P d0 i) in
/-- A process among others that make files and read them. -/
abbrev Bidding (Q : Except Stop α → Bid Path → Machine → Prop) (p : Process α) (g : Bid Path) (m : Machine) : Prop :=
  Follows diskView (fun G (_ : List (ι × Empty)) d => Bids P d0 G d) i Q p g m

variable {Q : Except Stop α → Bid Path → Machine → Prop}

/-- A step that is no matter to the disk. -/
theorem bidding_own {p : Sys α} (h : ∀ d, Ends p { m with disk := d } fun r m' => m'.disk = d ∧ Q r g m') :
    Bidding P d0 i Q (.call p) g m := Follows.own fun _ _ d _ _ => h d

theorem bidding_call {p : Sys α} (h : ∀ G d, G i = g → Bids P d0 G d → Ends p { m with disk := d } fun r m' =>
    ∃ g', Bids P d0 (Function.update G i g') m'.disk ∧ Q r g' m') : Bidding P d0 i Q (.call p) g m := by
  refine Follows.call fun G hist d hg hb => (h G d hg hb).mono fun r m' hq => ?_
  obtain ⟨g', hb', hq'⟩ := hq
  exact ⟨g', [], hb', hq'⟩

/-- What `RunKeygen` may have made so far. -/
structure KeyMade (w : World) (os : Os) (args : Args) (m : Machine) (x : Draft Path) : Prop where
  out : args.out ≠ []
  name : os.resolve args.out = some x.name
  modes : x.inode.Modes (· = 0o600 &&& ~~~os.umask)
  data : ∃ raw, generated w m = some raw ∧
    (x.inode.now.data = [] ∨ ∃ t, x.inode.now.data = raw.1.take (os.write t).bytes)

/-- It is the beginning of the key, and the whole key if there is something and no `write` comes short. -/
theorem KeyMade.key {x : Draft Path} (h : KeyMade w os args m x) : ∃ raw, generated w m = some raw ∧
    x.inode.now.data <+: raw.1 ∧ (x.inode.now.data ≠ [] → (∀ t, TakesKey os t) → x.inode.now.data = raw.1) := by
  obtain ⟨raw, hraw, hnil | ⟨t, ht⟩⟩ := h.data
  · exact ⟨raw, hraw, hnil ▸ List.nil_prefix, fun hne => absurd hnil hne⟩
  · refine ⟨raw, hraw, ht ▸ List.take_prefix .., fun _ hall => ?_⟩
    rw [ht, List.take_of_length_le]
    rw [byteVec_length]
    exact hall t

/-- How `RunKeygen` ends, with what became of its bid. -/
inductive Tried (w : World) (os : Os) (args : Args) (m : Machine) : Exit → Bid Path → Prop
  | nothing (h : args.out = [] ∨ generated w m = none ∨ os.resolve args.out = none ∨ ∃ t, os.openOk t = false) {e : Exit}
      (he : e.code ≠ kExitOk) : Tried w os args m e .waiting
  | missed (h : args.out ≠ []) {n} (hn : os.resolve args.out = some n) :
      Tried w os args m ⟨kExitFailure, some (.cannotCreate args.out)⟩ (.missed n)
  | got {x : Draft Path} {raw t} (hx : KeyMade w os args m x) (hr : generated w m = some raw)
      (hd : x.inode.now = ⟨raw.1.take (os.write t).bytes, 0o600 &&& ~~~os.umask⟩) :
      Tried w os args m
        (if TakesKey os t then ⟨kExitOk, none⟩ else ⟨kExitFailure, some (.failedToWrite args.out)⟩) (.got x)

/-- How `open(path, .. | O_CREAT | O_EXCL)` ends: the name is got or missed, or no bid is made. -/
theorem bidding_sysCreate {path : Path} (hP : ∀ n id, os.resolve path = some n →
    P i ⟨n, id, .create (0o600 &&& ~~~os.umask)⟩) : Bidding P d0 i (fun r g' m' => ∀ fd, r = .ok fd →
      (fd = none ∧ ((g' = .waiting ∧ (os.resolve path = none ∨ ∃ t, os.openOk t = false)) ∨
        ∃ n, g' = .missed n ∧ os.resolve path = some n)) ∨
      ∃ k n id, fd = some k ∧ os.resolve path = some n ∧ g' = .got ⟨n, id, .create (0o600 &&& ~~~os.umask)⟩ ∧
        m'.desc k = some ⟨id, 0, true⟩) (.call (sysCreate os path 0o600)) .waiting m := by
  refine bidding_call fun G d hg hb => ?_
  have same : Bids P d0 (Function.update G i .waiting) d := by rwa [← hg, Function.update_eq_self]
  refine ends_syscall ⟨.waiting, same, fun fd h => by cases h⟩ fun t l => ?_
  rcases hr : os.resolve path with _ | n
  · exact ⟨.waiting, same, fun fd h => by cases h; exact .inl ⟨rfl, .inl ⟨rfl, .inl rfl⟩⟩⟩
  dsimp only
  by_cases hn : d.entry n = none
  · by_cases hok : os.openOk m.time = true
    · rw [if_pos ⟨hn, hok⟩]
      exact ⟨_, hb.gets hg hn (hP n _ hr), fun fd h => by
        cases h; exact .inr ⟨_, n, _, rfl, rfl, rfl, Machine.desc_push _ _⟩⟩
    · rw [if_neg fun h => hok h.2]
      exact ⟨.waiting, same, fun fd h => by
        cases h; exact .inl ⟨rfl, .inl ⟨rfl, .inr ⟨_, Bool.eq_false_of_not_eq_true hok⟩⟩⟩⟩
  · rw [if_neg fun h => hn h.1]
    exact ⟨_, hb.misses hg hn, fun fd h => by cases h; exact .inl ⟨rfl, .inr ⟨n, rfl, rfl⟩⟩⟩

/-- The one `write` adds what it takes to the new file. -/
theorem bidding_write {x : Draft Path} {fd : ℕ} {raw : ByteVec 32} (hd : m.desc fd = some ⟨x.id, 0, true⟩)
    (hx : x.inode = .create (0o600 &&& ~~~os.umask))
    (hP : ∀ k t, k.now.data = raw.1.take (os.write t).bytes → k.Modes (· = 0o600 &&& ~~~os.umask) → P i (x.set k)) :
    Bidding P d0 i (fun r g' _ => ∀ written, r = .ok written → ∃ k t, g' = .got (x.set k) ∧
        k.now = ⟨raw.1.take (os.write t).bytes, 0o600 &&& ~~~os.umask⟩ ∧ k.Modes (· = 0o600 &&& ~~~os.umask) ∧
        (written = .count 32 ↔ TakesKey os t)) (.call (syscall (writeTransfer os fd raw.1))) (.got x) m := by
  have hlen : raw.1.length = 32 := byteVec_length raw
  have hnew : (Inode.create (0o600 &&& ~~~os.umask)).Modes (· = 0o600 &&& ~~~os.umask) := Inode.modes_create rfl
  refine bidding_call fun G d hg hb => ?_
  have same : Bids P d0 (Function.update G i (.got x)) d := by rwa [← hg, Function.update_eq_self]
  refine ends_syscall ⟨_, same, fun written h => by cases h⟩ fun t l => ?_
  have hdesc : Machine.desc { m with disk := d } fd = _ := hd
  rw [writeTransfer, hdesc]
  rcases hw : os.write m.time with k | _ | _
  · have hnow : ((Inode.create (0o600 &&& ~~~os.umask)).write 0 (raw.1.take k)).now =
        ⟨raw.1.take k, 0o600 &&& ~~~os.umask⟩ := Inode.write_now_end (raw.1.take k) (.create (0o600 &&& ~~~os.umask))
    have hb' := hb.writes hg (·.write 0 (raw.1.take k)) (hP _ m.time (by rw [hx, hnow, hw]; rfl) (hx ▸ hnew.write _ _))
      (by rw [hx]; exact List.nil_prefix)
    refine ⟨_, hb', fun written h => ⟨_, m.time, rfl, by rw [hx, hnow, hw]; rfl, hx ▸ hnew.write _ _, ?_⟩⟩
    cases h
    rw [TakesKey, hw, hlen, Transfer.count.injEq]
    show min k 32 = 32 ↔ 32 ≤ k
    omega
  · refine ⟨_, same, fun written h => ⟨x.inode, m.time, rfl, by rw [hx, hw]; rfl, hx ▸ hnew, ?_⟩⟩
    cases h
    rw [TakesKey, hw]
    exact iff_of_false (fun h => by cases h) (by decide)
  · refine ⟨_, same, fun written h => ⟨x.inode, m.time, rfl, by rw [hx, hw]; rfl, hx ▸ hnew, ?_⟩⟩
    cases h
    rw [TakesKey, hw]
    exact iff_of_false (fun h => by cases h) (by decide)

theorem bidding_sysClose (fd : ℕ) : Bidding P d0 i (fun _ g' _ => g' = g) (.call (sysClose os fd)) g m :=
  bidding_own fun _ => ends_syscall ⟨rfl, rfl⟩ fun _ _ => ⟨rfl, rfl⟩

/-- **`RunKeygen` makes one bid for its name**, and ends as that went. -/
theorem bids_runKeygen (hP : ∀ x, KeyMade w os args m x → P i x) :
    Bidding P d0 i (fun r g' _ => ∀ f, r = .ok f → Tried w os args m f.value g') (Conc.runKeygen os con w args)
      .waiting m := by
  unfold Conc.runKeygen
  by_cases h0 : args.out = []
  · rw [if_pos h0]
    rintro f ⟨⟩
    exact .nothing (.inl h0) (by decide)
  rw [if_neg h0]
  refine Follows.bind (R := fun r g' m' => g' = .waiting ∧ r = .ok ((generated w m).elim (.error .errCrypto) .ok))
    (bidding_own fun d => ?_) ?_ fun _ _ _ _ f h => by cases h
  · have hgen := mcGenerateKey_steps w { m with disk := d } m.left
    rw [Nat.zero_add] at hgen
    exact Ends.of_eq hgen ⟨rfl, rfl, rfl⟩
  rintro r g1 m1 ⟨rfl, hr⟩
  rcases hg : generated w m with _ | raw <;> rw [hg] at hr <;> cases hr
  · rintro f ⟨⟩
    exact .nothing (.inr (.inl hg)) failure_ne
  have hnew : ∀ n id, os.resolve args.out = some n → KeyMade w os args m ⟨n, id, .create (0o600 &&& ~~~os.umask)⟩ :=
    fun n id hn => ⟨h0, hn, Inode.modes_create rfl, raw, hg, .inl rfl⟩
  refine Follows.bind (bidding_sysCreate fun n id hn => hP _ (hnew n id hn)) ?_ fun _ _ _ _ f h => by cases h
  rintro fd g2 m2 hfd
  obtain ⟨rfl, ⟨rfl, hn⟩ | ⟨n, rfl, hn⟩⟩ | ⟨k, n, id, rfl, hn, rfl, hdesc⟩ := hfd fd rfl
  · rintro f ⟨⟩
    exact .nothing (.inr (.inr hn)) failure_ne
  · rintro f ⟨⟩
    exact .missed h0 hn
  dsimp only
  have hmade : ∀ k' t, k'.now.data = raw.1.take (os.write t).bytes → k'.Modes (· = 0o600 &&& ~~~os.umask) →
      KeyMade w os args m (Draft.set ⟨n, id, .create (0o600 &&& ~~~os.umask)⟩ k') :=
    fun k' t hd hm => ⟨h0, hn, hm, raw, hg, .inr ⟨t, hd⟩⟩
  refine Follows.bind (bidding_write hdesc rfl fun k' t hd hm => hP _ (hmade k' t hd hm)) ?_ fun _ _ _ _ f h => by cases h
  rintro written g3 m3 hw
  obtain ⟨k', t, rfl, hnow, hmodes, hall⟩ := hw written rfl
  refine Follows.bind (bidding_sysClose k) ?_ fun _ _ _ _ f h => by cases h
  rintro _ g4 m4 rfl
  have htried := Tried.got (hmade k' t (by rw [hnow]) hmodes) hg hnow
  by_cases ht : TakesKey os t
  · rw [if_neg (not_not.mpr (hall.mpr ht))]
    rw [if_pos ht] at htried
    rintro f ⟨⟩
    exact htried
  · rw [if_pos (mt hall.mp ht)]
    rw [if_neg ht] at htried
    rintro f ⟨⟩
    exact htried

/-! ### Reading a key file -/

/-- Every read gets something, if there is something. -/
def Unfailing (os : Os) : Prop := ∀ t, ∃ k, os.read t = .count (k + 1)

variable (P d0) in
/-- What is read of a file that a name held at one time: a beginning, and all of it if no read fails and the room is
large enough. -/
def ReadOnce (os : Os) (n : Path) (size : ℕ) (y : Bytes) : Prop :=
  ∃ f, Once P d0 n f ∧ y <+: f.data ∧ (Unfailing os → y = f.data ∨ size ≤ y.length)

/-- A read gets what comes next in the file, as it is then. -/
theorem bidding_read {n : Path} {id fd size : ℕ} {x : Bytes} (hd : m.desc fd = some ⟨id, x.length, true⟩)
    (hx : x.length < size) : Bidding P d0 i (fun r g' m' => ∀ tr y, r = .ok (tr, y) →
      (ReadOnce P d0 os n size x ∧ ∀ k, tr = .count k → k = 0) ∨
      (tr = .count y.length ∧ y ≠ [] ∧ g' = .reading n id (x ++ y) ∧ m'.desc fd = some ⟨id, (x ++ y).length, true⟩ ∧
        ∃ f, Once P d0 n f ∧ x ++ y <+: f.data))
      (.call (syscall (readTransfer os fd (size - x.length)))) (.reading n id x) m := by
  refine bidding_call fun G d hg hb => ?_
  obtain ⟨hid, k, hk, hpre⟩ := hb.seen i n id x hg
  have same : Bids P d0 (Function.update G i (.reading n id x)) d := by rwa [← hg, Function.update_eq_self]
  have honce : Once P d0 n k.now := hb.once (Disk.look_of_inode hid hk)
  have hcont : Machine.contents { m with disk := d } id = k.now.data := by
    rw [Machine.contents, hk]
    rfl
  have hdesc : Machine.desc { m with disk := d } fd = _ := hd
  refine ends_syscall ⟨_, same, fun tr y h => by cases h⟩ fun t l => ?_
  rw [readTransfer, hdesc]
  rcases hr : os.read m.time with c | _ | _
  · dsimp only
    rw [hcont]
    have hnext : x ++ slice k.now.data x.length (min c (size - x.length)) <+: k.now.data := by
      have := slice_append_slice k.now.data 0 x.length (min c (size - x.length))
      rw [slice_take, slice_take, ← List.prefix_iff_eq_take.mp hpre, Nat.zero_add] at this
      rw [this]
      exact List.take_prefix ..
    have hlen := slice_length k.now.data x.length (min c (size - x.length))
    generalize hy : slice k.now.data x.length (min c (size - x.length)) = y at hnext hlen ⊢
    by_cases hnil : y = []
    · refine ⟨_, same, fun tr y' h => ?_⟩
      cases h
      refine .inl ⟨⟨k.now, honce, hpre, fun hos => .inl (hpre.eq_of_length ?_)⟩, fun j hj => ?_⟩
      · -- the read could have got something, so there was nothing left
        obtain ⟨c', hc⟩ := hos m.time
        cases hr.symm.trans hc
        have := hpre.length_le
        rw [hnil, List.length_nil] at hlen
        omega
      · cases hj
        rw [hnil]
        rfl
    · refine ⟨_, hb.reads (fun z h => by rw [hg] at h; cases h) hid hk hnext, fun tr y' h => ?_⟩
      cases h
      refine .inr ⟨rfl, hnil, rfl, ?_, k.now, honce, hnext⟩
      rw [List.length_append]
      exact Machine.desc_seek (m := { m with disk := d }) hdesc y.length
  · refine ⟨_, same, fun tr y h => .inl ⟨⟨k.now, honce, hpre, fun hos => ?_⟩, fun j hj => by cases h; cases hj⟩⟩
    obtain ⟨c', hc⟩ := hos m.time
    cases hr.symm.trans hc
  · refine ⟨_, same, fun tr y h => .inl ⟨⟨k.now, honce, hpre, fun hos => ?_⟩, fun j hj => by cases h; cases hj⟩⟩
    obtain ⟨c', hc⟩ := hos m.time
    cases hr.symm.trans hc

/-- **`fread` gets a part of one file**, though others add to it between two reads. By induction on the rounds. -/
theorem bids_freadLoop {n : Path} {id fd size : ℕ} : ∀ rounds x m, size ≤ x.length + rounds →
    m.desc fd = some ⟨id, x.length, true⟩ → (∃ f, Once P d0 n f ∧ x <+: f.data) →
    Bidding P d0 i (fun r _ _ => ∀ y, r = .ok y → ReadOnce P d0 os n size y) (Conc.freadLoop os fd size rounds x)
      (.reading n id x) m := by
  have full {x : Bytes} (hle : size ≤ x.length) (hf : ∃ f, Once P d0 n f ∧ x <+: f.data) :
      ReadOnce P d0 os n size x := by
    obtain ⟨f, ho, hpre⟩ := hf
    exact ⟨f, ho, hpre, fun _ => .inr hle⟩
  intro rounds
  induction rounds with
  | zero =>
    rintro x m hle - hf y ⟨⟩
    exact full hle hf
  | succ rounds ih =>
    intro x m hle hd hf
    rw [Conc.freadLoop]
    by_cases hlt : x.length < size
    swap
    · rw [if_neg hlt]
      rintro y ⟨⟩
      exact full (Nat.le_of_not_lt hlt) hf
    rw [if_pos hlt]
    refine Follows.bind (bidding_read hd hlt) ?_ fun _ _ _ _ y h => by cases h
    rintro ⟨tr, y⟩ g1 m1 hread
    rcases hread tr y rfl with ⟨hpart, h0⟩ | ⟨rfl, hy, rfl, hd1, hf1⟩
    · have stop : Bidding P d0 i (fun r _ _ => ∀ y, r = .ok y → ReadOnce P d0 os n size y) (pure x) g1 m1 := by
        rintro y ⟨⟩
        exact hpart
      rcases tr with k | _ | _
      · obtain rfl := h0 k rfl
        exact stop
      · exact stop
      · exact stop
    · have hpos : y.length ≠ 0 := fun h => hy (List.eq_nil_of_length_eq_zero h)
      show Bidding P d0 i _ (if y.length = 0 then pure x else Conc.freadLoop os fd size rounds (x ++ y)) _ m1
      rw [if_neg hpos]
      refine ih (x ++ y) m1 ?_ hd1 hf1
      rw [List.length_append]
      omega

variable (P d0) in
/-- A key that was read of a file that the path named at one time. -/
def FromFile (os : Os) (path : Path) (k : Bytes) : Prop :=
  ∃ n f y, os.follow path = some n ∧ Once P d0 n f ∧ y <+: f.data ∧ k = stripped y ∧ (Unfailing os → y = f.data)

theorem bidding_sysOpen {path : Path} : Bidding P d0 i (fun r g' m' => ∀ fd, r = .ok (some fd) →
      ∃ n id f, os.follow path = some n ∧ Once P d0 n f ∧ g' = .reading n id [] ∧ m'.desc fd = some ⟨id, 0, true⟩)
      (.call (sysOpen os path)) .waiting m := by
  refine bidding_call fun G d hg hb => ?_
  have same : Bids P d0 (Function.update G i .waiting) d := by rwa [← hg, Function.update_eq_self]
  refine (ends_sysOpen (m := { m with disk := d })).mono fun r m' h' => ?_
  obtain ⟨-, hd, hr⟩ := h'
  rw [show m'.disk = d from hd]
  rcases hr with rfl | rfl | ⟨fd, id, rfl, hid, hdesc⟩
  · exact ⟨_, same, fun fd h => by cases h⟩
  · exact ⟨_, same, fun fd h => by cases h⟩
  · obtain ⟨n, hn, hid⟩ := Option.bind_eq_some_iff.mp hid
    obtain ⟨k, hk⟩ := Disk.inode_of_entry hid
    refine ⟨_, hb.reads (fun z h => by rw [hg] at h; cases h) hid hk List.nil_prefix, fun fd' h => ?_⟩
    cases h
    exact ⟨n, id, k.now, hn, hb.once (Disk.look_of_inode hid hk), rfl, hdesc⟩

theorem bids_readKeyFile {path : Path} {key : KeyBytes} (hkey : key.block.length = kMaxKeyFileSize) :
    Bidding P d0 i (fun r _ _ => ∀ f, r = .ok f → f.value.1 = none → FromFile P d0 os path f.value.2.bytes)
      (Conc.readKeyFile os con path key) .waiting m := by
  refine Follows.bind bidding_sysOpen ?_ fun _ _ _ _ f h => by cases h
  rintro (_ | fd) g1 m1 hopen
  · rintro f ⟨⟩ hsaid
    cases hsaid
  obtain ⟨n, id, f0, hn, ho, rfl, hd⟩ := hopen fd rfl
  refine Follows.bind (bids_freadLoop (kMaxKeyFileSize + 1) [] m1 (by simp) hd ⟨f0, ho, List.nil_prefix⟩) ?_
    fun _ _ _ _ f h => by cases h
  intro y g2 m2 hy
  obtain ⟨f, hf, hpre, hall⟩ := hy y rfl
  refine Follows.bind (bidding_sysClose fd) ?_ fun _ _ _ _ f h => by cases h
  rintro _ g3 m3 rfl
  by_cases hlarge : y.length > kMaxKeyFileSize
  · rw [if_pos hlarge]
    rintro f ⟨⟩ hsaid
    cases hsaid
  rw [if_neg hlarge]
  have htake : (overwrite (con.garbage (kMaxKeyFileSize + 1)).1 0 y).take y.length = y := by
    rw [← slice_take]
    exact overwrite_prefix (by rw [byteVec_length]; omega)
  rw [htake]
  obtain ⟨key', hfilled, hassign⟩ := assign_filled con (hkey ▸ Nat.le_of_not_lt hlarge : y.length ≤ key.block.length)
  refine Follows.bind (R := fun r _ _ => r = .ok key') (bidding_own fun d => Ends.of_eq (hassign _) ⟨rfl, rfl⟩) ?_
    fun _ _ _ h => by cases h
  rintro _ g4 m4 ⟨⟩ fr ⟨⟩ -
  exact ⟨n, f, y, hn, hf, hpre, (strip_filled hfilled).bytes, fun hos =>
    (hall hos).resolve_right fun h => hlarge (Nat.lt_of_lt_of_le (Nat.lt_succ_self _) h)⟩

/-- **`LoadKey` takes a key of one file**, whatever others do to it meanwhile, and none that is too short. -/
theorem bids_loadKey : Bidding P d0 i (fun r _ _ => ∀ key, r = .ok (none, key) →
      mcMinKeySize ≤ key.bytes.length ∧ (args.keyFile ≠ [] → FromFile P d0 os args.keyFile key.bytes))
      (Conc.loadKey os con args (KeyBytes.reserved con)) .waiting m := by
  unfold Conc.loadKey
  split
  · rintro key ⟨⟩
  have hjudge (r : Option Diagnostic × KeyBytes) {g' : Bid Path} {m' : Machine}
      (hr : r.1 = none → args.keyFile ≠ [] → FromFile P d0 os args.keyFile r.2.bytes) :
      Bidding P d0 i (fun r _ _ => ∀ key, r = .ok (none, key) →
        mcMinKeySize ≤ key.bytes.length ∧ (args.keyFile ≠ [] → FromFile P d0 os args.keyFile key.bytes))
        (if r.1 ≠ none then pure (r.1, r.2)
          else if r.2.size < mcMinKeySize then pure (some (Diagnostic.keyTooShort r.2.size), r.2)
          else pure (none, r.2)) g' m' := by
    split
    · rename_i hsaid
      intro key h
      exact absurd (congrArg Prod.fst (Except.ok.inj h)) hsaid
    · rename_i hsaid
      split
      · rintro key ⟨⟩
      · rename_i hle
        rintro key ⟨⟩
        exact ⟨by rw [KeyBytes.bytes_length]; exact Nat.le_of_not_lt hle, hr (not_not.mp hsaid)⟩
  dsimp only
  split
  · refine Follows.bind (bids_readKeyFile (reserved_length con)) ?_ fun _ _ _ _ key h => by cases h
    intro fr g1 m1 hread
    exact hjudge fr.value fun hsaid _ => hread fr rfl hsaid
  rename_i hfile
  have nofile {k : Bytes} : args.keyFile ≠ [] → FromFile P d0 os args.keyFile k := fun h => absurd h hfile
  split
  · refine Follows.bind (R := fun _ _ _ => True) (bidding_own fun d => ?_) ?_ fun _ _ _ _ key h => by cases h
    · exact ((interactive_looks.readKeyEnv args.keyEnv).ends _).mono fun _ _ h => ⟨h.2.1, trivial⟩
    · exact fun r g1 m1 _ => hjudge r fun _ => nofile
  · refine Follows.bind (R := fun _ _ _ => True) (bidding_own fun d => ?_) ?_ fun _ _ _ _ key h => by cases h
    · exact (interactive_looks.readKeyPrompt.ends _).mono fun _ _ h => ⟨h.2.1, trivial⟩
    · exact fun r g1 m1 _ => hjudge r.value fun _ => nofile

end Bidding

end ModelCrypt.Cli
