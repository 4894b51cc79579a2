/-
# Who makes a key, and who loads it

Any number of processes run `RunKeygen` and `LoadKey` on one disk, in any order of
their system calls; any of them may be killed, and the power lost.

With `O_EXCL` a key file is one process's: it replaces nothing, of several that
want one name exactly one makes the file, and who reports success has its whole
key there (`keygen_exclusive`, `one_keygen_wins`). Nothing is synced: of a new file
a power loss leaves the name and the mode, but maybe not its bytes. The key is
written in place, after the name was made; still nobody loads a part of it, if no
call comes short (`no_torn_key`).

Key definitions: `KeyTask`, `KeyJob`, `Exclusive`.
Key theorems: `alone_keys`, `keygen_exclusive`, `one_keygen_wins`, `no_torn_key`.
-/
import ModelCrypt.KeyProcesses
import ModelCrypt.Linearization

namespace ModelCrypt.Cli

open Lib Prog

/-! ### Jobs -/

/-- What a process does with a key file. -/
inductive KeyTask
  | keygen
  | load
  deriving DecidableEq

namespace KeyTask

def Result : KeyTask → Type
  | keygen => Frame Exit
  | load => Option Diagnostic × KeyBytes

/-- How `RunKeygen` exited, if it did. -/
def exit : (t : KeyTask) → Process t.Result → Option Exit
  | keygen, .ret (.ok f) => some (Frame.value f)
  | _, _ => none

/-- The key that `LoadKey` returned, if it did. -/
def loaded : (t : KeyTask) → Process t.Result → Option Bytes
  | load, .ret (.ok (none, key)) => some (KeyBytes.bytes key)
  | _, _ => none

end KeyTask

/-- A process that makes or loads a key, and the system that it runs on. -/
structure KeyJob where
  world : World
  os : Os
  con : Console
  args : Args
  task : KeyTask
  machine : Machine

namespace KeyJob

variable (j : KeyJob)

def proc : (t : KeyTask) → Process t.Result
  | .keygen => Conc.runKeygen j.os j.con j.world j.args
  | .load => Conc.loadKey j.os j.con j.args (KeyBytes.reserved j.con)

def call : (t : KeyTask) → Sys t.Result
  | .keygen => runKeygen j.world j.os j.con j.args
  | .load => loadKey j.os j.con j.args (KeyBytes.reserved j.con)

/-- Alone, the process is the function. -/
theorem run_proc (t : KeyTask) : (j.proc t).run = j.call t := by
  cases t with
  | keygen => exact Conc.run_runKeygen ..
  | load => exact Conc.run_loadKey ..

/-- The name that it makes a key file under. -/
def target : Option Path :=
  match j.task with
  | .keygen => if j.args.out = [] then none else j.os.resolve j.args.out
  | .load => none

/-- The key that it generates. -/
def key : Option (ByteVec 32) := generated j.world j.machine

/-- The mode that it makes the file with. -/
def mode : UInt32 := 0o600 &&& ~~~j.os.umask

/-- What it may have made. -/
def Makes (x : Draft Path) : Prop := j.task = .keygen ∧ Cli.KeyMade j.world j.os j.args j.machine x

theorem Makes.target {j : KeyJob} {x : Draft Path} (h : j.Makes x) : j.target = some x.name := by
  rw [KeyJob.target, h.1]
  exact (if_neg h.2.out).trans h.2.name

theorem target_eq_some {j : KeyJob} {n : Path} (h : j.target = some n) :
    j.task = .keygen ∧ j.args.out ≠ [] ∧ j.os.resolve j.args.out = some n := by
  unfold KeyJob.target at h
  split at h
  · split_ifs at h with h0
    exact ⟨‹_›, h0, h⟩
  · cases h

end KeyJob

section Jobs

variable {ι : Type} [DecidableEq ι] (jobs : ι → KeyJob)

/-- The processes before their first step. -/
def launchKeys (d : Disk Path) : Pool (Disk Path) Machine Stop fun i => (jobs i).task.Result where
  shared := d
  threads i := ⟨(jobs i).machine, (jobs i).proc (jobs i).task⟩

variable {jobs}

/-- How process `i` exited. -/
def exited (p : Pool (Disk Path) Machine Stop fun i => (jobs i).task.Result) (i : ι) : Option Exit :=
  (jobs i).task.exit (p.threads i).prog

/-- The key that process `i` loaded. -/
def loaded (p : Pool (Disk Path) Machine Stop fun i => (jobs i).task.Result) (i : ι) : Option Bytes :=
  (jobs i).task.loaded (p.threads i).prog

variable (jobs)

/-- Key files are made once, each by one process. -/
structure Exclusive (d : Disk Path) (p : Pool (Disk Path) Machine Stop fun i => (jobs i).task.Result) : Prop where
  /-- What was there is not replaced. -/
  kept : ∀ n, d.entry n ≠ none → p.shared.look n = d.look n
  /-- A new file has the beginning of a key that one process generated for this name, and the mode it was to have. -/
  new : ∀ n f, d.entry n = none → p.shared.look n = some f → ∃ i raw, (jobs i).target = some n ∧
    (jobs i).key = some raw ∧ f.data <+: raw.1 ∧ f.mode = (jobs i).mode
  /-- After a power loss a name has nothing that it would not have had, but for a new file of that mode. -/
  found : ∀ n f, p.shared.Found n (some f) → d.Found n (some f) ∨ d.entry n = none ∧ ∃ i, (jobs i).target = some n ∧
    f.mode = (jobs i).mode
  /-- A process that reports success made the file, and it holds the whole key. -/
  whole : ∀ i e, exited p i = some e → e.code = kExitOk → ∃ n raw, (jobs i).target = some n ∧
    (jobs i).key = some raw ∧ d.entry n = none ∧ p.shared.look n = some ⟨raw.1, (jobs i).mode⟩
  /-- No two report success for one name. -/
  one : ∀ i j e e', exited p i = some e → exited p j = some e' → e.code = kExitOk → e'.code = kExitOk →
    (jobs i).target = (jobs j).target → i = j

/-- How a process ends, for its bid. -/
def KeyEnds (d : Disk Path) (i : ι) : (t : KeyTask) → Except Stop t.Result → Bid Path → Prop
  | .keygen, r, g => ∀ f : Frame Exit, r = .ok f →
    Tried (jobs i).world (jobs i).os (jobs i).args (jobs i).machine f.value g
  | .load, r, _ => ∀ key : KeyBytes, r = .ok (none, key) → mcMinKeySize ≤ key.bytes.length ∧
    ((jobs i).args.keyFile ≠ [] →
      FromFile (fun i => (jobs i).Makes) d (jobs i).os (jobs i).args.keyFile key.bytes)

/-- The processes keep to `Bids`. -/
abbrev KeysFollowed (d : Disk Path) (G : ι → Bid Path) (h : List (ι × Empty))
    (p : Pool (Disk Path) Machine Stop fun i => (jobs i).task.Result) : Prop :=
  p.Follow diskView (fun G _ d' => Bids (fun i => (jobs i).Makes) d G d')
    (fun i r g _ => KeyEnds jobs d i (jobs i).task r g) G h

variable {jobs} {d : Disk Path} {G : ι → Bid Path} {h : List (ι × Empty)} {i j : ι} {n : Path}
  {p : Pool (Disk Path) Machine Stop fun i => (jobs i).task.Result}

theorem KeysFollowed.start (jobs : ι → KeyJob) (d : Disk Path) :
    KeysFollowed jobs d (fun _ => .waiting) [] (launchKeys jobs d) where
  inv := Bids.start fun _ => rfl
  each i := by
    have hmakes : ∀ x, (jobs i).task = .keygen →
        KeyMade (jobs i).world (jobs i).os (jobs i).args (jobs i).machine x → (jobs i).Makes x := fun x ht hx => ⟨ht, hx⟩
    show Follows _ _ i _ ((jobs i).proc (jobs i).task) _ (jobs i).machine
    generalize (jobs i).task = t at hmakes
    cases t with
    | keygen => exact bids_runKeygen fun x hx => hmakes x rfl hx
    | load => exact bids_loadKey

/-- What exited was a `RunKeygen`, in one of the ways that there are. -/
theorem KeysFollowed.tried {e : Exit} (hf : KeysFollowed jobs d G h p) (he : exited p i = some e) :
    (jobs i).task = .keygen ∧ Tried (jobs i).world (jobs i).os (jobs i).args (jobs i).machine e (G i) := by
  have hend : ∀ r, (p.threads i).prog = .ret r → KeyEnds jobs d i (jobs i).task r (G i) := fun r hr => hf.ended hr
  unfold exited at he
  generalize (p.threads i).prog = q at he hend
  generalize (jobs i).task = t at q he hend ⊢
  cases t with
  | load => cases he
  | keygen =>
    rcases q with (e' | f) | _
    · cases he
    · cases he
      exact ⟨rfl, hend _ rfl f rfl⟩
    · cases he

theorem KeysFollowed.loads {k : Bytes} (hf : KeysFollowed jobs d G h p) (hk : loaded p i = some k) :
    mcMinKeySize ≤ k.length ∧ ((jobs i).args.keyFile ≠ [] →
      FromFile (fun i => (jobs i).Makes) d (jobs i).os (jobs i).args.keyFile k) := by
  have hend : ∀ r, (p.threads i).prog = .ret r → KeyEnds jobs d i (jobs i).task r (G i) := fun r hr => hf.ended hr
  unfold loaded at hk
  generalize (p.threads i).prog = q at hk hend
  generalize (jobs i).task = t at q hk hend
  cases t with
  | keygen => cases hk
  | load =>
    rcases q with (e | ⟨_ | said, key⟩) | _
    · cases hk
    · cases hk
      exact hend _ rfl key rfl
    · cases hk
    · cases hk

/-- A success has its file with the whole key. -/
theorem Tried.success {w : World} {os : Os} {args : Args} {m : Machine} {e : Exit} {g : Bid Path}
    (ht : Tried w os args m e g) (he : e.code = kExitOk) : ∃ x raw, g = .got x ∧ KeyMade w os args m x ∧
      generated w m = some raw ∧ x.inode.now = ⟨raw.1, 0o600 &&& ~~~os.umask⟩ := by
  cases ht with
  | nothing _ hne => exact absurd he hne
  | missed _ _ => exact absurd he failure_ne
  | got hx hr hd =>
    rename_i x raw t
    split at he
    · rename_i hall
      refine ⟨x, raw, rfl, hx, hr, hd.trans ?_⟩
      rw [List.take_of_length_le (by rw [byteVec_length]; exact hall)]
    · exact absurd he failure_ne

omit [DecidableEq ι] in
/-- What a new name holds is what one process made. -/
theorem made_of_once {f : File} (ho : Once (fun i => (jobs i).Makes) d n f) (h0 : d.entry n = none) :
    ∃ i x, (jobs i).Makes x ∧ x.name = n ∧ x.inode.now = f := by
  rcases ho with hf | ⟨-, hx⟩
  · rw [Disk.look, h0] at hf
    cases hf
  · exact hx

theorem KeysFollowed.exclusive (hf : KeysFollowed jobs d G h p) : Exclusive jobs d p where
  kept n hn := hf.inv.look_kept hn
  new n f h0 hl := by
    obtain ⟨i, x, hx, rfl, rfl⟩ := made_of_once (hf.inv.once hl) h0
    obtain ⟨raw, hraw, hpre, -⟩ := hx.2.key
    exact ⟨i, raw, hx.target, hraw, hpre, hx.2.modes.1⟩
  found n f hl := by
    refine (hf.inv.found hl).imp_right ?_
    rintro ⟨h0, i, x, hx, rfl, hd⟩
    exact ⟨h0, i, hx.target, hx.2.modes.2 f hd⟩
  whole i e he h0 := by
    obtain ⟨htask, ht⟩ := hf.tried he
    obtain ⟨x, raw, hg, hx, hr, hnow⟩ := ht.success h0
    have hlook := hf.inv.look_got hg
    rw [hnow] at hlook
    exact ⟨x.name, raw, KeyJob.Makes.target ⟨htask, hx⟩, hr, hf.inv.absent i x hg, hlook⟩
  one i j e e' he he' h0 h0' hn := by
    obtain ⟨htask, ht⟩ := hf.tried he
    obtain ⟨htask', ht'⟩ := hf.tried he'
    obtain ⟨x, -, hg, hx, -, -⟩ := ht.success h0
    obtain ⟨y, -, hg', hy, -, -⟩ := ht'.success h0'
    rw [KeyJob.Makes.target ⟨htask, hx⟩, KeyJob.Makes.target ⟨htask', hy⟩] at hn
    exact hf.inv.one hg hg' (Option.some.inj hn)

theorem KeysFollowed.runs (jobs : ι → KeyJob) (d : Disk Path) (l : List ι) :
    ∃ G h, KeysFollowed jobs d G h ((launchKeys jobs d).exec diskView l) := by
  obtain ⟨G, h, hf, -⟩ := (KeysFollowed.start jobs d).exec l
  exact ⟨G, _, hf⟩

/-- **Scheduled alone, a process is the function** that it runs, on the disk as it is, and the others wait. -/
theorem alone_keys (jobs : ι → KeyJob) (d : Disk Path) (i : ι) : ∃ n r m',
    (jobs i).call (jobs i).task { (jobs i).machine with disk := d } = (r, m') ∧
    (((launchKeys jobs d).exec diskView (List.replicate n i)).threads i).prog = .ret r ∧
    ((launchKeys jobs d).exec diskView (List.replicate n i)).shared = m'.disk ∧
    ∀ j, j ≠ i → ((launchKeys jobs d).exec diskView (List.replicate n i)).threads j = (launchKeys jobs d).threads j := by
  obtain ⟨n, h1, h2, h3⟩ := Pool.exec_alone diskView i (launchKeys jobs d)
  have hrun : ((launchKeys jobs d).threads i).prog.run = (jobs i).call (jobs i).task := (jobs i).run_proc _
  rw [hrun] at h1 h2
  exact ⟨n, _, _, rfl, h1, h2, h3⟩

/-- **Key files are exclusive**, after every number of steps in every order: what was there stays, a new file is one
process's, and who reports success has its whole key there. -/
theorem keygen_exclusive (jobs : ι → KeyJob) (d : Disk Path) (l : List ι) :
    Exclusive jobs d ((launchKeys jobs d).exec diskView l) := by
  obtain ⟨G, h, hf⟩ := KeysFollowed.runs jobs d l
  exact hf.exclusive

/-- **Of all that want one new name, one makes the file.** When they have exited, and each had a key and could open what
is there to be opened, one of them made it, and succeeds if its one `write` takes the whole key; all others report
that they cannot create the file. -/
theorem one_keygen_wins (hn : d.entry n = none) {l : List ι} {i : ι} (hi : (jobs i).target = some n)
    (hkey : ∀ j, (jobs j).target = some n → (jobs j).key ≠ none)
    (hopen : ∀ j, (jobs j).target = some n → ∀ t, (jobs j).os.openOk t = true)
    (hexit : ∀ j, (jobs j).target = some n → exited ((launchKeys jobs d).exec diskView l) j ≠ none) :
    ∃ j raw t, (jobs j).target = some n ∧ (jobs j).key = some raw ∧
      ((launchKeys jobs d).exec diskView l).shared.look n =
        some ⟨raw.1.take ((jobs j).os.write t).bytes, (jobs j).mode⟩ ∧
      exited ((launchKeys jobs d).exec diskView l) j = some (if TakesKey (jobs j).os t then ⟨kExitOk, none⟩
        else ⟨kExitFailure, some (.failedToWrite (jobs j).args.out)⟩) ∧
      ∀ k, (jobs k).target = some n → k ≠ j → exited ((launchKeys jobs d).exec diskView l) k =
        some ⟨kExitFailure, some (.cannotCreate (jobs k).args.out)⟩ := by
  obtain ⟨G, h, hf⟩ := KeysFollowed.runs jobs d l
  generalize (launchKeys jobs d).exec diskView l = p at hf hexit ⊢
  -- each of them made a bid
  have bid : ∀ k, (jobs k).target = some n → (∃ x raw t, G k = .got x ∧ x.name = n ∧ (jobs k).key = some raw ∧
      x.inode.now = ⟨raw.1.take ((jobs k).os.write t).bytes, (jobs k).mode⟩ ∧ exited p k = some
        (if TakesKey (jobs k).os t then ⟨kExitOk, none⟩ else ⟨kExitFailure, some (.failedToWrite (jobs k).args.out)⟩)) ∨
      G k = .missed n ∧ exited p k = some ⟨kExitFailure, some (.cannotCreate (jobs k).args.out)⟩ := by
    intro k hk
    obtain ⟨e, he⟩ := Option.ne_none_iff_exists'.mp (hexit k hk)
    obtain ⟨-, h0, hres⟩ := KeyJob.target_eq_some hk
    have ht := (hf.tried he).2
    generalize hg : G k = g at ht
    cases ht with
    | nothing hwhy _ =>
      rcases hwhy with h1 | h1 | h1 | ⟨t, h1⟩
      · exact absurd h1 h0
      · exact absurd h1 (hkey k hk)
      · rw [hres] at h1
        cases h1
      · rw [hopen k hk t] at h1
        cases h1
    | missed _ hm =>
      cases hres.symm.trans hm
      exact .inr ⟨rfl, he⟩
    | got hx hr hd => exact .inl ⟨_, _, _, rfl, Option.some.inj (hx.name.symm.trans hres), hr, hd, he⟩
  -- one of them won
  obtain ⟨j, x, hg, hx⟩ : ∃ j x, G j = .got x ∧ x.name = n := by
    rcases bid i hi with ⟨x, -, -, hg, hx, -⟩ | ⟨hg, -⟩
    · exact ⟨i, x, hg, hx⟩
    · exact hf.inv.winner hn hg
  have hj : (jobs j).target = some n := hx ▸ (hf.inv.makes j x hg).target
  rcases bid j hj with ⟨y, raw, t, hy, -, hraw, hnow, he⟩ | ⟨hm, -⟩
  · cases hg.symm.trans hy
    refine ⟨j, raw, t, hj, hraw, ?_, he, fun k hk hne => ?_⟩
    · rw [← hx, hf.inv.look_got hg, hnow]
    · rcases bid k hk with ⟨z, -, -, hz, hzn, -⟩ | ⟨-, hmiss⟩
      · exact absurd (hf.inv.one hz hg (hzn.trans hx.symm)) hne
      · exact hmiss
  · rw [hg] at hm
    cases hm

/-- **No key is loaded in part.** A key that is loaded from a file, while it may be in the making, is the beginning of a
file that was there before, or of a key that was generated for this name, but for a line ending; and it is all of
that if no read fails and every `write` takes a whole key. -/
theorem no_torn_key {l : List ι} {k : Bytes} (hk : loaded ((launchKeys jobs d).exec diskView l) i = some k)
    (hfile : (jobs i).args.keyFile ≠ []) : ∃ n y, (jobs i).os.follow (jobs i).args.keyFile = some n ∧ k = stripped y ∧
      ((∃ f, d.look n = some f ∧ y <+: f.data ∧ (Unfailing (jobs i).os → y = f.data)) ∨
        d.entry n = none ∧ ∃ j raw, (jobs j).target = some n ∧ (jobs j).key = some raw ∧ y <+: raw.1 ∧
          (Unfailing (jobs i).os → (∀ t, TakesKey (jobs j).os t) → y = raw.1)) := by
  obtain ⟨G, h, hf⟩ := KeysFollowed.runs jobs d l
  obtain ⟨hmin, hfrom⟩ := hf.loads hk
  obtain ⟨n, f, y, hn, ho, hpre, rfl, hall⟩ := hfrom hfile
  refine ⟨n, y, hn, rfl, ?_⟩
  rcases ho with hl | ⟨h0, j, x, hx, rfl, rfl⟩
  · exact .inl ⟨f, hl, hpre, hall⟩
  obtain ⟨raw, hraw, hkey, hwhole⟩ := hx.2.key
  refine .inr ⟨h0, j, raw, hx.target, hraw, hpre.trans hkey, fun hos htakes => ?_⟩
  rw [hall hos] at hmin ⊢
  refine hwhole (fun hnil => ?_) htakes
  rw [hnil] at hmin
  exact absurd hmin (by decide)

end Jobs

/-! ### Two processes -/

/-- Two that make a key under one name. -/
def raceJobs (b : Bool) : KeyJob :=
  ⟨sampleWorld, sampleOs 0, sampleConsole, sampleArgs, .keygen,
    ⟨⟨[], if b then [] else [.walked]⟩, sharedDisk, [], 0, 100⟩⟩

/-- The second one is faster. -/
theorem raceJobs_one_wins : ∃ j raw t, (raceJobs j).target = some sampleOut ∧ (raceJobs j).key = some raw ∧
    ((launchKeys raceJobs sharedDisk).exec diskView [true, false, false, true, false, false]).shared.look sampleOut =
      some ⟨raw.1.take ((raceJobs j).os.write t).bytes, (raceJobs j).mode⟩ ∧
    exited ((launchKeys raceJobs sharedDisk).exec diskView [true, false, false, true, false, false]) j =
      some (if TakesKey (raceJobs j).os t then ⟨kExitOk, none⟩
        else ⟨kExitFailure, some (.failedToWrite (raceJobs j).args.out)⟩) ∧
    ∀ k, (raceJobs k).target = some sampleOut → k ≠ j →
      exited ((launchKeys raceJobs sharedDisk).exec diskView [true, false, false, true, false, false]) k =
        some ⟨kExitFailure, some (.cannotCreate (raceJobs k).args.out)⟩ :=
  @one_keygen_wins Bool _ raceJobs sharedDisk sampleOut (by decide) _ true rfl (fun j _ => by cases j <;> decide)
    (fun _ _ _ => rfl) fun j _ => by cases j <;> decide +kernel

/-- One that makes a key, and one that loads it. -/
def tornJobs : Bool → KeyJob
  | true => raceJobs true
  | false => { raceJobs true with task := .load, args := { sampleArgs with keyFile := sampleOut } }

/-- The file is opened before the key is in it, and read after. -/
theorem tornJobs_load : loaded ((launchKeys tornJobs sharedDisk).exec diskView
      [true, true, false, true, false, false, false, false]) false = some (zeros 32) ∧
    ∃ n y, (tornJobs false).os.follow (tornJobs false).args.keyFile = some n ∧ zeros 32 = stripped y ∧
      ((∃ f, sharedDisk.look n = some f ∧ y <+: f.data ∧ (Unfailing (tornJobs false).os → y = f.data)) ∨
        sharedDisk.entry n = none ∧ ∃ j raw, (tornJobs j).target = some n ∧ (tornJobs j).key = some raw ∧ y <+: raw.1 ∧
          (Unfailing (tornJobs false).os → (∀ t, TakesKey (tornJobs j).os t) → y = raw.1)) := by
  have hk : loaded ((launchKeys tornJobs sharedDisk).exec diskView
      [true, true, false, true, false, false, false, false]) false = some (zeros 32) := by decide +kernel
  exact ⟨hk, no_torn_key hk (by decide)⟩

end ModelCrypt.Cli
