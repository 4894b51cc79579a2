/-
# Processes that share a disk

Any number of processes call `mc_encrypt_file`, `mc_decrypt_file` and
`mc_decrypt_file_to_buffer` on one disk. Each has its own memory, its own answers
from the operating system, and may be killed between any two of its system calls;
they take their system calls in any order, and the power may be lost at any time.

All that anybody sees of this is a history of reads and publications of whole
files, each at one moment (`Linear`): a process reads one file and publishes what
it made of that, in this order, once, and exactly if it returns `MC_OK`.

Key definitions: `Request`, `Job`, `Temporary`, `Public`, `Linear`.
Key theorems: `linearizable`, `leaves_no_temporary`, `new_files_private`.
-/
import ModelCrypt.SharedWrite
import ModelCrypt.FileSafety

namespace ModelCrypt

open Lib Prog Fileio

/-! ### Jobs -/

/-- A call on files, without its input. -/
inductive Request
  | encrypt (opts : Option EncryptOptions) (outPath : Option Path)
  | decrypt (outPath : Option Path)
  | decryptToBuffer (outNull outSizeNull : Bool)

namespace Request

/-- What the call returns besides its status. -/
def Result : Request → Type
  | encrypt _ _ => Unit
  | decrypt _ => Unit
  | decryptToBuffer _ _ => Option ℕ × ℕ

instance : (r : Request) → DecidableEq r.Result
  | encrypt _ _ => inferInstanceAs (DecidableEq Unit)
  | decrypt _ => inferInstanceAs (DecidableEq Unit)
  | decryptToBuffer _ _ => inferInstanceAs (DecidableEq (Option ℕ × ℕ))

def outPath : Request → Option Path
  | encrypt _ o => o
  | decrypt o => o
  | decryptToBuffer _ _ => none

/-- The mode of the file that it makes. -/
def mode : Request → UInt32
  | encrypt _ _ => 0o644
  | _ => 0o600

/-- What it makes of its input. -/
def crypt (w : World) (key : Span) : Request → Span → Run (SecureBuffer × ℕ)
  | encrypt opts _ => Encrypt.encryptBuffer w key (opts.getD defaultOptions)
  | _ => Decrypt.decryptBuffer w key

/-- The call as a process. -/
def proc (w : World) (os : Os) (key : Span) (inPath : Option Path) : (r : Request) → Process r.Result
  | encrypt opts o => Conc.cryptFile os w (crypt w key (encrypt opts o)) mcMaxPlaintextSize 0o644 inPath o
  | decrypt o => Conc.cryptFile os w (crypt w key (decrypt o)) kMaxFileSize 0o600 inPath o
  | decryptToBuffer a b => Conc.decryptFileToBuffer os w key inPath a b

/-- The call by itself. -/
def call (w : World) (os : Os) (key : Span) (inPath : Option Path) : (r : Request) → Sys r.Result
  | encrypt opts o => mcEncryptFile w os key opts inPath o
  | decrypt o => mcDecryptFile w os key inPath o
  | decryptToBuffer a b => mcDecryptFileToBuffer w os key inPath a b

/-- Alone, the process is the call. -/
theorem run_proc (w : World) (os : Os) (key : Span) (inPath : Option Path) (r : Request) :
    (r.proc w os key inPath).run = r.call w os key inPath := by
  cases r with
  | encrypt opts o => exact Conc.run_cryptFile ..
  | decrypt o => exact Conc.run_cryptFile ..
  | decryptToBuffer a b => exact Conc.run_decryptFileToBuffer ..

end Request

/-- A process that makes one call: its key, paths and memory, and the system it runs on. -/
structure Job where
  world : World
  os : Os
  key : Span
  inPath : Option Path
  request : Request
  machine : Machine

namespace Job

variable (j : Job)

/-- The name of the file that it reads. -/
def source : Option Path := j.inPath.bind j.os.follow

/-- The name that it publishes under. -/
def target : Option Path := j.request.outPath.bind j.os.resolve

def crypt : Span → Run (SecureBuffer × ℕ) := j.request.crypt j.world j.key

/-- What it may have done so far. -/
def Story : List (Access Path) → Prop := ModelCrypt.Story j.os j.crypt j.request.mode j.inPath j.request.outPath

/-- What it did and has in memory when it returns `MC_OK`. -/
def Done : (r : Request) → r.Result → Machine → List (Access Path) → Prop
  | .decryptToBuffer _ _, a, m, l => ∃ n f y x, l = [.read n f] ∧ Reads j.os f y ∧
      Turns (Decrypt.decryptBuffer j.world j.key) y x ∧ a.2 = x.length ∧ m.st.At a.1 x
  | _, _, _, l => ∃ n f t x, l = [.read n f, .publish t x]

/-- How it ends, for the protocol. -/
def Ended : (r : Request) → Except Stop r.Result → Holding Path → Machine → Prop
  | .encrypt _ _, r, g, m => CallEnds j.os j.machine.st r g m
  | .decrypt _, r, g, m => CallEnds j.os j.machine.st r g m
  | .decryptToBuffer _ _, r, g, m => BufferEnds j.world j.os j.key r g m

/-- Each job keeps its part of the protocol. -/
theorem shares {ι : Type} [DecidableEq ι] {T : Path → Prop} {S : ι → List (Access Path) → Prop} {P : ι → Inode → Prop}
    {d0 : Disk Path} {i : ι} (j : Job) (hin : ∀ n, j.source = some n → ¬ T n) (hout : ∀ n, j.target = some n → ¬ T n)
    (htemp : ∀ p t sfx n, j.request.outPath = some p → j.os.mkstemp t = some sfx →
      j.os.resolve (withSuffix (templateFor p) sfx) = some n → T n)
    (hP : ∀ k, Tentative j.os j.request.mode k → P i k) (hS : ∀ l, j.Story l → S i l) :
    Shares T S P d0 i (j.Ended j.request) (j.request.proc j.world j.os j.key j.inPath) {} j.machine := by
  obtain ⟨w, os, key, inPath, request, machine⟩ := j
  cases request with
  | encrypt opts o =>
    exact shares_cryptFile (crypts_encrypt w key _) mcMaxPlaintextSize 0o644 inPath o hin hout htemp hP hS
  | decrypt o => exact shares_cryptFile (crypts_decrypt w key) kMaxFileSize 0o600 inPath o hin hout htemp hP hS
  | decryptToBuffer a b =>
    exact shares_decryptFileToBuffer key inPath a b hin fun n f hn => hS _ (.read hn)

theorem Ended.done {r : Request} {a : r.Result} {g : Holding Path} {m : Machine} (h : j.Ended r (.ok a) g m) :
    j.Done r a m g.did := by
  cases r with
  | encrypt opts o => exact CallEnds.ok h rfl
  | decrypt o => exact CallEnds.ok h rfl
  | decryptToBuffer b c => exact BufferEnds.ok h a rfl

/-- With anything but `MC_OK`, no file was published. -/
theorem Ended.stop {r : Request} {e : Stop} {g : Holding Path} {m : Machine} (h : j.Ended r (.error e) g m)
    (hs : r.outPath = none → ∀ t x, .publish t x ∉ g.did) (t : Path) (x : File) : .publish t x ∉ g.did := by
  cases r with
  | encrypt opts o => exact CallEnds.stop h (fun he => by cases he) t x
  | decrypt o => exact CallEnds.stop h (fun he => by cases he) t x
  | decryptToBuffer b c => exact hs rfl t x

theorem Ended.clean {r : Request} {x : Except Stop r.Result} {g : Holding Path} {m : Machine} (h : j.Ended r x g m)
    (hx : x ≠ .error .powerLoss) (hu : ∀ t, j.os.unlinkOk t = true) : g.draft = none := by
  cases r with
  | encrypt opts o => exact CallEnds.clean h hx hu
  | decrypt o => exact CallEnds.clean h hx hu
  | decryptToBuffer b c => exact BufferEnds.draft h

/-- Without an output path, nothing is published. -/
theorem Story.unpublished {l : List (Access Path)} (h : j.Story l) (ho : j.request.outPath = none) (t : Path) (x : File) :
    .publish t x ∉ l := by
  rcases h with _ | _ | ⟨-, -, -, ht⟩
  · simp
  · simp
  · rw [ho] at ht
    cases ht

end Job

section Jobs

variable {ι : Type} [DecidableEq ι] (jobs : ι → Job)

/-- A name that `mkstemp` picks for a temporary file of some process. -/
def Temporary (n : Path) : Prop :=
  ∃ i p t sfx, (jobs i).request.outPath = some p ∧ (jobs i).os.mkstemp t = some sfx ∧
    (jobs i).os.resolve (withSuffix (templateFor p) sfx) = some n

/-- No process reads or replaces a file that is named like a temporary file. -/
structure Public : Prop where
  sources : ∀ i n, (jobs i).source = some n → ¬ Temporary jobs n
  targets : ∀ i n, (jobs i).target = some n → ¬ Temporary jobs n

/-- The processes before their first step. -/
def launch (d : Disk Path) : Pool (Disk Path) Machine Stop fun i => (jobs i).request.Result where
  shared := d
  threads i := ⟨(jobs i).machine, (jobs i).request.proc (jobs i).world (jobs i).os (jobs i).key (jobs i).inPath⟩

/-- What anybody sees of the processes is the history `h` of whole files read and published, each at one moment. -/
structure Linear (d : Disk Path) (h : List (ι × Access Path))
    (p : Pool (Disk Path) Machine Stop fun i => (jobs i).request.Result) : Prop where
  /-- What was read was there. -/
  legal : Legal d.look h
  /-- Each process reads one file, and publishes what it made of that. -/
  story : ∀ i, (jobs i).Story (own i h)
  /-- All names but those of temporary files hold what the history left. -/
  look : ∀ o, ¬ Temporary jobs o → p.shared.look o = after d.look h o
  /-- After a power loss, they hold what they may have held before, or a whole file that was published. -/
  found : ∀ o v, ¬ Temporary jobs o → p.shared.Found o v → d.Found o v ∨ ∃ e ∈ h, ∃ f, e.2 = .publish o f ∧ v = some f
  /-- A process that returned `MC_OK` did all that it was to do. -/
  ok : ∀ i a, (p.threads i).prog = .ret (.ok a) → (jobs i).Done (jobs i).request a (p.threads i).state (own i h)
  /-- One that ended in any other way published nothing. -/
  stop : ∀ i e t x, (p.threads i).prog = .ret (.error e) → .publish t x ∉ own i h

variable {jobs}

omit [DecidableEq ι] in
/-- Fewer processes have fewer temporary files. -/
theorem Public.comp {κ : Type} (hp : Public jobs) (f : κ → ι) : Public (jobs ∘ f) where
  sources i n hn := fun ⟨k, p, t, sfx, ht⟩ => hp.sources (f i) n hn ⟨f k, p, t, sfx, ht⟩
  targets i n hn := fun ⟨k, p, t, sfx, ht⟩ => hp.targets (f i) n hn ⟨f k, p, t, sfx, ht⟩

/-- The protocol of the processes. -/
def Followed (jobs : ι → Job) (d : Disk Path) (G : ι → Holding Path) (h : List (ι × Access Path))
    (p : Pool (Disk Path) Machine Stop fun i => (jobs i).request.Result) : Prop :=
  p.Follow diskView (Shared (Temporary jobs) (fun i => (jobs i).Story)
    (fun i => Tentative (jobs i).os (jobs i).request.mode) d) (fun i => (jobs i).Ended (jobs i).request) G h

theorem Followed.start (hp : Public jobs) (d : Disk Path) : Followed jobs d (fun _ => {}) [] (launch jobs d) where
  inv := Shared.start (fun _ => rfl) fun _ => .idle
  each i := (jobs i).shares (hp.sources i) (hp.targets i) (fun p t sfx _ ho hs hn => ⟨i, p, t, sfx, ho, hs, hn⟩)
    (fun _ hk => hk) fun _ hl => hl

theorem Followed.linear {d : Disk Path} {G : ι → Holding Path} {h : List (ι × Access Path)}
    {p : Pool (Disk Path) Machine Stop fun i => (jobs i).request.Result} (hf : Followed jobs d G h p) :
    Linear jobs d h p where
  legal := hf.inv.legal
  story i := by
    rw [hf.inv.did]
    exact hf.inv.allowed i
  look := hf.inv.look
  found := hf.inv.found
  ok i a ha := by
    rw [hf.inv.did]
    exact Job.Ended.done _ (hf.ended ha)
  stop i e t x he := by
    rw [hf.inv.did]
    exact Job.Ended.stop _ (hf.ended he) (fun ho t x => Job.Story.unpublished _ (hf.inv.allowed i) ho t x) t x

/-- Two runs, the second one from where the first one ended, follow the protocol, with one history. -/
theorem Followed.runs (hp : Public jobs) (d : Disk Path) (l l' : List ι) : ∃ G h G' h',
    Followed jobs d G h ((launch jobs d).exec diskView l) ∧
    Followed jobs d G' (h ++ h') ((launch jobs d).exec diskView (l ++ l')) ∧ (∀ e ∈ h, e.1 ∈ l) ∧
      ∀ e ∈ h', e.1 ∈ l' ∧ ¬ (((launch jobs d).exec diskView l).threads e.1).Ended := by
  obtain ⟨G, h, hf, hl⟩ := (Followed.start hp d).exec l
  obtain ⟨G', h', hf', hl'⟩ := hf.exec l'
  rw [← Pool.exec_append] at hf'
  exact ⟨G, h, G', h', hf, hf', fun e he => (hl e he).1, hl'⟩

/-- **File calls are linearizable, in any number, any order, and with any kills and power losses.** The history only
grows, by what the processes do that are scheduled and have not ended. -/
theorem linearizable (hp : Public jobs) (d : Disk Path) (l l' : List ι) : ∃ h h',
    Linear jobs d h ((launch jobs d).exec diskView l) ∧
    Linear jobs d (h ++ h') ((launch jobs d).exec diskView (l ++ l')) ∧ (∀ e ∈ h, e.1 ∈ l) ∧
      ∀ e ∈ h', e.1 ∈ l' ∧ ¬ (((launch jobs d).exec diskView l).threads e.1).Ended := by
  obtain ⟨_, h, _, h', hf, hf', hl, hl'⟩ := Followed.runs hp d l l'
  exact ⟨h, h', Followed.linear hf, Followed.linear hf', hl, hl'⟩

/-- **When all processes have ended and none was killed, no temporary file is left**: every name holds what the history
left, and no other name is on the disk. -/
theorem leaves_no_temporary (hp : Public jobs) (d : Disk Path) (l : List ι)
    (hend : ∀ i, ∃ r, (((launch jobs d).exec diskView l).threads i).prog = .ret r ∧ r ≠ .error .powerLoss)
    (hu : ∀ i t, (jobs i).os.unlinkOk t = true) : ∃ h, Linear jobs d h ((launch jobs d).exec diskView l) ∧
      ∀ o, ((launch jobs d).exec diskView l).shared.look o = after d.look h o := by
  obtain ⟨G, h, hf, -⟩ := (Followed.start hp d).exec l
  refine ⟨h, Followed.linear hf, fun o => ?_⟩
  have hnone : ∀ i, (G i).draft = none := by
    intro i
    obtain ⟨r, hr, hne⟩ := hend i
    exact Job.Ended.clean _ (hf.ended hr) hne (hu i)
  exact hf.inv.look_eq hnone o

/-- **At no time is a file on the disk that was not there before and has another mode than its maker gave it**, now or
after a power loss: that of the output, or the one that `mkstemp` makes files with. -/
theorem new_files_tentative (hp : Public jobs) (d : Disk Path) (l : List ι) (id : ℕ) (k : Inode)
    (hk : ((launch jobs d).exec diskView l).shared.inodes[id]? = some k) :
    d.inodes[id]? = some k ∨ ∃ i, Tentative (jobs i).os (jobs i).request.mode k := by
  obtain ⟨G, h, hf, -⟩ := (Followed.start hp d).exec l
  exact hf.inv.kinds id k hk

/-- **Processes that only decrypt make no file that group or others may use**, at any time. -/
theorem new_files_private (hp : Public jobs) (hdec : ∀ i, (jobs i).request.mode = 0o600) (d : Disk Path) (l : List ι)
    (id : ℕ) (k : Inode) (hk : ((launch jobs d).exec diskView l).shared.inodes[id]? = some k) :
    d.inodes[id]? = some k ∨ Private k := by
  refine (new_files_tentative hp d l id k hk).imp_right ?_
  rintro ⟨i, hi⟩
  rw [hdec i] at hi
  exact hi.private

/-- **Scheduled alone, a process makes the call** that it is of, on the disk as it is, and the others wait. -/
theorem alone_calls (d : Disk Path) (i : ι) : ∃ n r m', (jobs i).request.call (jobs i).world (jobs i).os (jobs i).key
      (jobs i).inPath { (jobs i).machine with disk := d } = (r, m') ∧
    (((launch jobs d).exec diskView (List.replicate n i)).threads i).prog = .ret r ∧
    ((launch jobs d).exec diskView (List.replicate n i)).shared = m'.disk ∧
    ∀ j, j ≠ i → ((launch jobs d).exec diskView (List.replicate n i)).threads j = (launch jobs d).threads j := by
  obtain ⟨n, h1, h2, h3⟩ := Pool.exec_alone diskView i (launch jobs d)
  have hrun : ((launch jobs d).threads i).prog.run = _ := Request.run_proc ..
  rw [hrun] at h1 h2
  exact ⟨n, _, _, rfl, h1, h2, h3⟩

end Jobs

/-! ### Two processes -/

def sampleBack : Path := ['b', 'a', 'c', 'k']

/-- One that encrypts `in` to `out`, and one that decrypts `out` to `back`. -/
def sampleJobs : Bool → Job
  | true => ⟨sampleWorld, sampleOs 3, sampleKey, some sampleIn, .encrypt (some rawOptions) (some sampleOut),
    sampleMachine sampleFile⟩
  | false => ⟨sampleWorld, sampleOs 91, sampleKey, some sampleOut, .decrypt (some sampleBack), sampleMachine sampleFile⟩

theorem sampleJobs_temporary {n : Path} (h : Temporary sampleJobs n) : 6 ≤ n.length := by
  obtain ⟨i, p, t, sfx, -, -, hn⟩ := h
  have hlen : n = withSuffix (templateFor p) sfx := by
    cases i <;> exact (Option.some.inj hn).symm
  rw [hlen, withSuffix, List.length_append, sfx.length]
  exact Nat.le_add_left ..

theorem sampleJobs_public : Public sampleJobs where
  sources i n hn ht := by
    have := sampleJobs_temporary ht
    cases i <;> cases hn <;> exact absurd this (by decide)
  targets i n hn ht := by
    have := sampleJobs_temporary ht
    cases i <;> cases hn <;> exact absurd this (by decide)

/-- The disk that both start on. -/
def sharedDisk : Disk Path := sampleDisk sampleIn sampleFile

/-- A history of them at work at once. -/
theorem sampleJobs_linear : ∃ h h',
    Linear sampleJobs sharedDisk h ((launch sampleJobs sharedDisk).exec diskView [true, false, true]) ∧
    Linear sampleJobs sharedDisk (h ++ h') ((launch sampleJobs sharedDisk).exec diskView
      ([true, false, true] ++ List.replicate 20 true)) ∧ (∀ e ∈ h, e.1 ∈ [true, false, true]) ∧
      ∀ e ∈ h', e.1 ∈ List.replicate 20 true ∧
        ¬ (((launch sampleJobs sharedDisk).exec diskView [true, false, true]).threads e.1).Ended :=
  linearizable sampleJobs_public sharedDisk [true, false, true] (List.replicate 20 true)

/-- One after the other, until both have ended. -/
theorem sampleJobs_leave_no_temporary : ∃ h,
    Linear sampleJobs sharedDisk h ((launch sampleJobs sharedDisk).exec diskView
      (List.replicate 20 true ++ List.replicate 20 false)) ∧
    ∀ o, ((launch sampleJobs sharedDisk).exec diskView
        (List.replicate 20 true ++ List.replicate 20 false)).shared.look o =
      after sharedDisk.look h o := by
  refine leaves_no_temporary sampleJobs_public sharedDisk _ (fun i => ?_) fun i t => by cases i <;> rfl
  cases i
  · exact ⟨.ok (), Proc.result_eq_some.mp (by decide +kernel), by decide⟩
  · exact ⟨.ok (), Proc.result_eq_some.mp (by decide +kernel), by decide⟩

/-- The disk after the first one. -/
def encryptedDisk : Disk Path := ((launch sampleJobs sharedDisk).exec diskView (List.replicate 20 true)).shared

/-- The second one by itself, before it is done: its temporary file is there, and its own. -/
theorem sampleJobs_private :
    ((launch (sampleJobs ∘ fun _ : Unit => false) encryptedDisk).exec diskView
      (List.replicate 16 ())).shared.inodes.length = encryptedDisk.inodes.length + 1 ∧
    ∀ (id : ℕ) (k : Inode), ((launch (sampleJobs ∘ fun _ : Unit => false) encryptedDisk).exec diskView
      (List.replicate 16 ())).shared.inodes[id]? = some k → encryptedDisk.inodes[id]? = some k ∨ Private k :=
  ⟨by decide +kernel, new_files_private (sampleJobs_public.comp _) (fun _ => rfl) encryptedDisk (List.replicate 16 ())⟩

end ModelCrypt
