/-
# One process decrypts what another encrypted

A process encrypts to a name that no other process writes to, and returns
`MC_OK`. From then on, whoever decrypts that name under the same key gets what
the first one read, or fails: from any memory, among any number of other
processes, and with any kills and power losses.

Both processes have the primitives and the failures of one world, each at times
of its own: the histories that they start with may have any lengths.

Key definitions: `Delivers`.
Key theorem: `decrypts_what_was_encrypted`.
-/
import ModelCrypt.Linearization
import ModelCrypt.Genuine

namespace ModelCrypt

open Lib Prog Fileio

/-- Every part of an encryption that decrypts is all of it, and gives what was encrypted. -/
theorem Turns.genuine {w : World} (hw : w.Lawful) {key : Span} {opts : EncryptOptions} {y file z x : Bytes}
    (henc : Turns (Encrypt.encryptBuffer w key opts) y file) (hdec : Turns (Decrypt.decryptBuffer w key) z x)
    (hz : z <+: file) : x = y := by
  obtain ⟨input, s, out, s', hin, hrun, hat⟩ := henc
  obtain ⟨k, h, rs, hist, hf, -, hlen, hat'⟩ := Encrypt.encryptBuffer_file hrun
  obtain rfl := Encrypt.At.inj hat hat' hlen.symm
  obtain ⟨input', s2, out', s3, hin', hrun', hatx⟩ := hdec
  cases hin' with
  | null =>
    unfold Decrypt.decryptBuffer at hrun'
    rw [returnIf, throwIf_pos (.inr rfl)] at hrun'
    cases hrun'
  | bytes =>
    have hsize : z.length ≤ w.sizeT.max := hz.length_le.trans (hf.size_le.trans hf.room)
    obtain ⟨b, ⟨rfl, -⟩, hn, hat2⟩ := decryptBuffer_gives hsize (genuine_decrypt hw hf hz) hrun'
    rw [hin.toBytes] at hn hat2
    exact Encrypt.At.inj hatx hat2 hn

/-- What a call that decrypts hands over, in memory or in a file that its owner alone may use. -/
def Delivers (y : Bytes) : (r : Request) → r.Result → Machine → List (Access Path) → Prop
  | .encrypt _ _, _, _, _ => False
  | .decrypt _, _, _, l => ∃ n f t, l = [.read n f, .publish t ⟨y, 0o600⟩]
  | .decryptToBuffer _ _, a, m, _ => a.2 = y.length ∧ m.st.At a.1 y

namespace Job

variable {j : Job} {l : List (Access Path)}

/-- What a call publishes goes to its target. -/
theorem Story.target_eq (h : j.Story l) {t : Path} {f : File} (hm : .publish t f ∈ l) : j.target = some t := by
  rcases h with _ | _ | ⟨-, -, -, ht⟩
  · cases hm
  · simp at hm
  · simp only [List.mem_cons, reduceCtorEq, Access.publish.injEq, List.not_mem_nil, false_or, or_false] at hm
    obtain ⟨rfl, -⟩ := hm
    exact ht

/-- What an encryption did that returned `MC_OK`. -/
theorem Done.encrypted {opts : Option EncryptOptions} {o : Option Path} {a : j.request.Result} {m : Machine}
    (hj : j.request = .encrypt opts o) (hd : j.Done j.request a m l) (h : j.Story l) : ∃ n f y x t, j.source = some n ∧
      j.target = some t ∧ l = [.read n f] ++ [.publish t ⟨x, 0o644⟩] ∧ Reads j.os f y ∧
      Turns (Encrypt.encryptBuffer j.world j.key (opts.getD defaultOptions)) y x := by
  obtain ⟨w, os, key, inPath, request, machine⟩ := j
  subst hj
  obtain ⟨n, f, t, x, rfl⟩ := hd
  rcases h with _ | _ | ⟨hn, hr, hx, ht⟩
  exact ⟨n, f, _, _, t, hn, ht, rfl, hr, hx⟩

/-- What a decryption did that returned `MC_OK`, and what it made of each file that it may have read. -/
theorem Done.decrypted {a : j.request.Result} {m : Machine} (hj : ∀ opts o, j.request ≠ .encrypt opts o)
    (hd : j.Done j.request a m l) (h : j.Story l) : ∃ n f, j.source = some n ∧ .read n f ∈ l ∧
      ∀ y, (∀ z x, z <+: f.data → Turns (Decrypt.decryptBuffer j.world j.key) z x → x = y) →
        Delivers y j.request a m l := by
  obtain ⟨w, os, key, inPath, request, machine⟩ := j
  cases request with
  | encrypt opts o => exact absurd rfl (hj opts o)
  | decrypt o =>
    obtain ⟨n, f, t, x, rfl⟩ := hd
    rcases h with _ | _ | ⟨hn, hr, hx, ht⟩
    refine ⟨n, f, hn, List.mem_cons_self .., fun y hy => ⟨n, f, t, ?_⟩⟩
    rw [hy _ _ hr.1 hx]
    rfl
  | decryptToBuffer b c =>
    obtain ⟨n, f, z, x, rfl, hr, hx, hlen, hat⟩ := hd
    rcases h with _ | hn | _
    refine ⟨n, f, hn, List.mem_cons_self .., fun y hy => ?_⟩
    obtain rfl := hy z x hr.1 hx
    exact ⟨hlen, hat⟩

end Job

section Jobs

variable {ι : Type} [DecidableEq ι] {jobs : ι → Job}

/-- **One process decrypts what another encrypted.** Process `i` alone encrypts to `t`, and has returned `MC_OK` after
`l`. Process `j` decrypts `t` under the same key, and starts after that. If it returns `MC_OK` it delivers what `i` read,
whatever the others do. -/
theorem decrypts_what_was_encrypted (hp : Public jobs) (d : Disk Path) (l l' : List ι) (i j : ι) (t : Path)
    (opts : Option EncryptOptions) (o : Option Path) (a : (jobs i).request.Result) (b : (jobs j).request.Result)
    (hw : (jobs i).world.Lawful) (hworld : (jobs j).world = (jobs i).world) (hkey : (jobs j).key = (jobs i).key)
    (hi : (jobs i).request = .encrypt opts o) (hj : ∀ opts o, (jobs j).request ≠ .encrypt opts o)
    (htarget : (jobs i).target = some t) (hsource : (jobs j).source = some t)
    (honly : ∀ k, k ≠ i → (jobs k).target ≠ some t) (hnew : j ∉ l)
    (hendi : (((launch jobs d).exec diskView l).threads i).prog = .ret (.ok a))
    (hendj : (((launch jobs d).exec diskView (l ++ l')).threads j).prog = .ret (.ok b)) :
    ∃ h h' n f y, Linear jobs d h ((launch jobs d).exec diskView l) ∧
      Linear jobs d (h ++ h') ((launch jobs d).exec diskView (l ++ l')) ∧
      (jobs i).source = some n ∧ .read n f ∈ own i h ∧ Reads (jobs i).os f y ∧
      Delivers y (jobs j).request b (((launch jobs d).exec diskView (l ++ l')).threads j).state (own j (h ++ h')) := by
  obtain ⟨_, h, _, h', hf1, hf2, hl, hl'⟩ := Followed.runs hp d l l'
  have h1 := Followed.linear hf1
  have h2 := Followed.linear hf2
  obtain ⟨n, f, y, x, t', hn, ht, hdid, hreads, hturns⟩ := Job.Done.encrypted hi (h1.ok i a hendi) (h1.story i)
  cases htarget.symm.trans ht
  -- nobody else publishes under the name, and the first has ended
  have honce (e : ι × Access Path) (he : e ∈ h ++ h') (f : File) (hpub : e.2 = .publish t f) : e.1 = i := by
    by_contra hne
    exact honly e.1 hne ((h2.story e.1).target_eq (hpub ▸ mem_own.mpr he))
  have hleft : after d.look h t = some ⟨x, 0o644⟩ :=
    after_of_last hdid fun e he hne f hpub => hne (honce e (List.mem_append_left _ he) f hpub)
  obtain ⟨n', f', hn', hread, hgives⟩ := Job.Done.decrypted hj (h2.ok j b hendj) (h2.story j)
  cases hsource.symm.trans hn'
  have hnone : own j h = [] := own_eq_nil fun e he hej => hnew (hej ▸ hl e he)
  rw [own_append, hnone, List.nil_append] at hread
  have hsame := h2.legal.of_unpublished hread fun e he f hpub =>
    (hl' e he).2 (honce e (List.mem_append_right _ he) f hpub ▸ ⟨_, hendi⟩)
  cases hleft.symm.trans hsame
  refine ⟨h, h', n, f, y, h1, h2, hn, ?_, hreads, hgives y fun z x' hz hx' => ?_⟩
  · rw [hdid]
    exact List.mem_cons_self ..
  · rw [hworld, hkey] at hx'
    exact hturns.genuine hw hx' hz

end Jobs

/-- The second of the two processes delivers what the first one read: the bytes 1, 2, 3. -/
theorem sampleJobs_delivers : ∃ h h' n f y,
    Linear sampleJobs sharedDisk h ((launch sampleJobs sharedDisk).exec diskView (List.replicate 20 true)) ∧
    Linear sampleJobs sharedDisk (h ++ h')
      ((launch sampleJobs sharedDisk).exec diskView (List.replicate 20 true ++ List.replicate 20 false)) ∧
    (sampleJobs true).source = some n ∧ .read n f ∈ own true h ∧ Reads (sampleJobs true).os f y ∧
    Delivers y (sampleJobs false).request ()
      (((launch sampleJobs sharedDisk).exec diskView
        (List.replicate 20 true ++ List.replicate 20 false)).threads false).state (own false (h ++ h')) := by
  refine decrypts_what_was_encrypted sampleJobs_public sharedDisk _ _ true false sampleOut (some rawOptions)
    (some sampleOut) () () sampleWorld_lawful rfl rfl rfl (fun _ _ h => by cases h) rfl rfl (fun k hk ht => ?_) (by decide) ?_ ?_
  · cases k
    · exact absurd ht (by decide)
    · exact hk rfl
  · exact Proc.result_eq_some.mp (by decide +kernel)
  · exact Proc.result_eq_some.mp (by decide +kernel)

end ModelCrypt
