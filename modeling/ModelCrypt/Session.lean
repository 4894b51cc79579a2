/-
# A program that uses the library

A caller makes any number of calls that hand off a buffer, keeps the pointers and
sizes it gets, and gives each to `mc_free`, when it likes or never. `Held` is what
it has of one call; `Use` is what it does next.

At every moment the memory in use is what it was before the first call, and next to
it one block for each pointer that is held, each with the bytes that were handed off
(`Keeping`): no call leaks, changes what another handed off, or hands off a block
twice. Every block that was freed was zero on its whole length. What a caller
decrypts of what it encrypted is what it encrypted, whatever it did in between.

Key definitions: `Call`, `Held`, `Use.exec`, `session`, `Keeping`.
Key theorems: `Call.hands`, `Keeping.use`, `session_keeps`.
-/
import ModelCrypt.Lib.Triple
import ModelCrypt.Inspect
import ModelCrypt.Ownership

namespace ModelCrypt

open Lib Prog Function

variable {w : World}

/-! ### What a caller does -/

/-- A call that hands off a buffer. The size of an input is a `size_t`. -/
inductive Call (w : World)
  | encrypt (key : Span) (opts : Option EncryptOptions) (input : Span)
  | decrypt (key input : Span) (fits : input.size ≤ w.sizeT.max)
  | decryptFile (key : Span) (path : Option Path)

namespace Call

/-- The call, with variables for the pointer and the size. -/
def exec (os : Os) : Call w → Sys (Option ℕ × ℕ)
  | encrypt key opts input => onSt (mcEncryptBuffer w key opts input false false)
  | decrypt key input _ => onSt (mcDecryptBuffer w key input false false)
  | decryptFile key path => mcDecryptFileToBuffer w os key path false false

/-- What the call makes of its input. -/
def crypt : Call w → Span → Run (SecureBuffer × ℕ)
  | encrypt key opts _ => Encrypt.encryptBuffer w key (opts.getD defaultOptions)
  | decrypt key _ _ => Decrypt.decryptBuffer w key
  | decryptFile key _ => Decrypt.decryptBuffer w key

/-- Its input, unless that is in a file. -/
def input : Call w → Option Span
  | encrypt _ _ input => some input
  | decrypt _ input _ => some input
  | decryptFile _ _ => none

end Call

/-- What the caller has of a call: the pointer and the size, and, for the proofs, what the block held. -/
structure Held (w : World) where
  call : Call w
  out : Option ℕ
  outSize : ℕ
  block : Bytes

/-- What was handed off. -/
def Held.data (x : Held w) : Bytes := x.block.take x.outSize

/-- A process that uses the library. -/
structure Caller (w : World) where
  machine : Machine
  held : List (Held w)

/-- What it does next. -/
inductive Use (w : World)
  | call (c : Call w)
  | free (i : ℕ)

/-- One use. A call that fails hands off nothing; what is freed is no longer held. -/
def Use.exec (os : Os) : Use w → Prog (Caller w) Stop Unit
  | .call c => fun s =>
    match c.exec os s.machine with
    | (.ok a, m) => (.ok (), ⟨m, s.held ++ [⟨c, a.1, a.2, (a.1.bind m.st.heap.get).getD []⟩]⟩)
    | (.error (.status _), m) => (.ok (), { s with machine := m })
    | (.error e, m) => (.error e, { s with machine := m })
  | .free i => fun s =>
    match s.held[i]? with
    | none => (.ok (), s)
    | some x =>
      let r := onSt (mcFree x.out x.outSize) s.machine
      (r.1, ⟨r.2, s.held.eraseIdx i⟩)

section Exec

variable {os : Os} {s : Caller w} {c : Call w} {m : Machine}

theorem exec_handed {a : Option ℕ × ℕ} (h : c.exec os s.machine = (.ok a, m)) : (Use.call c).exec os s =
    (.ok (), ⟨m, s.held ++ [⟨c, a.1, a.2, (a.1.bind m.st.heap.get).getD []⟩]⟩) := by
  unfold Use.exec
  dsimp only
  rw [h]

theorem exec_failed {e : McStatus} (h : c.exec os s.machine = (.error (.status e), m)) :
    (Use.call c).exec os s = (.ok (), { s with machine := m }) := by
  unfold Use.exec
  dsimp only
  rw [h]

theorem exec_lost (h : c.exec os s.machine = (.error .powerLoss, m)) :
    (Use.call c).exec os s = (.error .powerLoss, { s with machine := m }) := by
  unfold Use.exec
  dsimp only
  rw [h]

theorem exec_none {i : ℕ} (h : s.held[i]? = none) : (Use.free i).exec os s = (.ok (), s) := by
  unfold Use.exec
  dsimp only
  rw [h]

theorem exec_free {i : ℕ} {x : Held w} (h : s.held[i]? = some x)
    (hf : onSt (mcFree x.out x.outSize) s.machine = (.ok (), m)) :
    (Use.free i).exec os s = (.ok (), ⟨m, s.held.eraseIdx i⟩) := by
  unfold Use.exec
  dsimp only
  rw [h]
  dsimp only
  rw [hf]

end Exec

/-- One use after the other. -/
def session (os : Os) : List (Use w) → Prog (Caller w) Stop Unit
  | [] => pure ()
  | u :: uses => do
    u.exec os
    session os uses

/-! ### What a call hands off -/

/-- What a call can make: what the library makes of its input. -/
def Call.Made (c : Call w) (x : Bytes) : Prop :=
  ∃ y, (∀ input, c.input = some input → y = input.toBytes) ∧ Turns c.crypt y x

/-- **What each call hands off**, unless the power is lost. -/
theorem Call.hands (c : Call w) (os : Os) (m : Machine) : Ends (c.exec os) m fun r m' =>
    r = .error .powerLoss ∨ HandsOff m.st.heap c.Made r m'.st := by
  cases c with
  | encrypt key opts input =>
    refine ends_onSt ((mcEncryptBuffer_handsOff opts m.st).mono fun _ _ h => .inr (h.imp ?_))
    rintro x ⟨-, hturns⟩
    exact ⟨input.toBytes, fun _ h => (by cases h; rfl), hturns⟩
  | decrypt key input fits =>
    refine ends_onSt ((mcDecryptBuffer_handsOff fits m.st).mono fun _ _ h => .inr (h.imp ?_))
    rintro x ⟨-, hturns⟩
    exact ⟨input.toBytes, fun _ h => (by cases h; rfl), hturns⟩
  | decryptFile key path =>
    refine (mcDecryptFileToBuffer_handsOff path m).mono fun _ _ h => h.imp_right fun h => h.imp ?_
    rintro x ⟨-, y, hturns⟩
    exact ⟨y, fun _ h => (by cases h), hturns⟩

/-! ### What holds between two uses -/

/-- What a caller has at any moment, if the memory was `h` before the first call. -/
structure Keeping (h : Heap) (s : Caller w) : Prop where
  /-- What was freed before is as it was, and what was freed since was zero. -/
  memory : Heap.Becomes h s.machine.st.heap s.machine.st.heap.get
  /-- A pointer that is held is to a new block, with what was handed off. -/
  live : ∀ x ∈ s.held, ∀ b, x.out = some b → s.machine.st.heap.get b = some x.block ∧ h.get b = none
  distinct : s.held.Pairwise fun x y => ∀ b, x.out = some b → y.out ≠ some b
  /-- All other blocks in use are the ones from before. -/
  others : ∀ b, (∀ x ∈ s.held, x.out ≠ some b) → s.machine.st.heap.get b = h.get b
  /-- What is not handed off of a block is zero. -/
  padded : ∀ x ∈ s.held, x.outSize ≤ x.block.length ∧ Zeroed (x.block.drop x.outSize)
  made : ∀ x ∈ s.held, x.call.Made x.data

section Keeping

variable {h : Heap} {s : Caller w} {os : Os} {m : Machine}

theorem Keeping.start (m : Machine) : Keeping m.st.heap (⟨m, []⟩ : Caller w) where
  memory := .refl _
  live _ hx := by cases hx
  distinct := .nil
  others _ _ := rfl
  padded _ hx := by cases hx
  made _ hx := by cases hx

/-- A call that hands off nothing leaves the blocks as they are. -/
theorem Keeping.same (hk : Keeping h s) (hb : Heap.Becomes s.machine.st.heap m.st.heap s.machine.st.heap.get) :
    Keeping h { s with machine := m } where
  memory := (hk.memory.trans hb).cast hb.get_eq.symm
  live x hx b hxb := by
    show m.st.heap.get b = _ ∧ _
    rw [hb.get_eq]
    exact hk.live x hx b hxb
  distinct := hk.distinct
  others b hn := (congrFun hb.get_eq b).trans (hk.others b hn)
  padded := hk.padded
  made := hk.made

/-- A block that was not in use is held by nobody, and was not in use before. -/
theorem Keeping.fresh (hk : Keeping h s) {b : ℕ} (hb : s.machine.st.heap.get b = none) :
    (∀ x ∈ s.held, x.out ≠ some b) ∧ h.get b = none := by
  have hn : ∀ x ∈ s.held, x.out ≠ some b := by
    intro x hx hxb
    rw [(hk.live x hx b hxb).1] at hb
    cases hb
  exact ⟨hn, (hk.others b hn).symm.trans hb⟩

/-- What a buffer holds is what the caller finds at the pointer. -/
theorem Holds.found {g : ℕ → Option Bytes} {buf : SecureBuffer} {x : Bytes} (hh : buf.Holds g x) :
    (buf.data.bind g).getD [] = x := by
  cases hh with
  | empty => rfl
  | block _ hb => rw [Option.bind_some, hb, Option.getD_some]

/-- A call that hands off a buffer. -/
theorem Keeping.add (hk : Keeping h s) {c : Call w} {buf : SecureBuffer} {x : Bytes} {j : ℕ}
    (hs : InScope s.machine.st.heap s.machine.st.heap.get buf (x ++ zeros j) m.st) (hx : c.Made x) :
    Keeping h ⟨m, s.held ++ [⟨c, buf.data, x.length, (buf.data.bind m.st.heap.get).getD []⟩]⟩ := by
  have hget (b : ℕ) (hb : buf.data ≠ some b) : m.st.heap.get b = s.machine.st.heap.get b := by
    rw [hs.becomes.get_eq, SecureBuffer.over_other hb]
  rw [Holds.found hs.holds]
  refine ⟨(hk.memory.trans hs.becomes).cast hs.becomes.get_eq.symm, fun z hz b hzb => ?_, ?_, fun b hn => ?_,
    fun z hz => ?_, fun z hz => ?_⟩
  · rcases List.mem_append.mp hz with hz | hz
    · have hlive := hk.live z hz b hzb
      refine ⟨(hget b fun hb => ?_).trans hlive.1, hlive.2⟩
      rw [hs.fresh b hb] at hlive
      cases hlive.1
    · cases List.mem_singleton.mp hz
      exact ⟨hs.holds.of_data hzb, (hk.fresh (hs.fresh b hzb)).2⟩
  · refine List.pairwise_append.mpr ⟨hk.distinct, List.pairwise_singleton .., fun z hz z' hz' b hzb hb => ?_⟩
    cases List.mem_singleton.mp hz'
    exact (hk.fresh (hs.fresh b hb)).1 z hz hzb
  · refine (hget b fun hb => ?_).trans (hk.others b fun z hz => hn z (List.mem_append_left _ hz))
    exact hn _ (List.mem_append_right _ (List.mem_singleton_self _)) hb
  · rcases List.mem_append.mp hz with hz | hz
    · exact hk.padded z hz
    · cases List.mem_singleton.mp hz
      refine ⟨by rw [List.length_append]; exact Nat.le_add_right .., ?_⟩
      show Zeroed ((x ++ zeros j).drop x.length)
      rw [List.drop_left]
      exact zeroed_zeros j
  · rcases List.mem_append.mp hz with hz | hz
    · exact hk.made z hz
    · cases List.mem_singleton.mp hz
      show c.Made ((x ++ zeros j).take x.length)
      rwa [List.take_left]

/-- `mc_free` of a block with zeros after the size. -/
theorem mcFree_becomes {s : St} {b n : ℕ} {x : Bytes} (hb : s.heap.get b = some x) (hn : n ≤ x.length)
    (hz : Zeroed (x.drop n)) :
    ∃ s', mcFree (some b) n s = (.ok (), s') ∧ Heap.Becomes s.heap s'.heap (update s.heap.get b none) := by
  have hfit : (Ptr.into b 0).Fits n s.heap.get := Ptr.fits_into hb (by omega)
  obtain ⟨s1, h1, -, hb1⟩ := secureWipe_run hfit
  have hget : s1.heap.get b = some (overwrite x 0 (zeros n)) := by rw [hb1.get_eq, Ptr.put_into hb, update_self]
  have hzero : Zeroed (overwrite x 0 (zeros n)) := by
    rw [overwrite, zeros_length, Nat.zero_add, List.take_zero, List.nil_append]
    intro y hy
    rcases List.mem_append.mp hy with hy | hy
    · exact zeroed_zeros n y hy
    · exact hz y hy
  obtain ⟨h', hf, hb2⟩ := Heap.becomes_free hget hzero
  refine ⟨{ s1 with heap := h' }, by rw [mcFree, bind_ok h1, deleteBlock, hf], (hb1.trans hb2).cast ?_⟩
  rw [hb1.get_eq, Ptr.put_into hb, update_idem]

/-- A pointer that is given back. -/
theorem Keeping.free (hk : Keeping h s) {x : Held w} {l l' : List (Held w)} (hl : s.held = l ++ x :: l') :
    ∃ m, onSt (mcFree x.out x.outSize) s.machine = (.ok (), m) ∧ Keeping h ⟨m, l ++ l'⟩ := by
  have hsub : (l ++ l').Sublist s.held := hl ▸ (List.sublist_cons_self x l').append_left l
  have hx : x ∈ s.held := by rw [hl]; exact List.mem_append_right _ (List.mem_cons_self ..)
  have hmem : ∀ z ∈ s.held, z = x ∨ z ∈ l ++ l' := by
    rw [hl]
    intro z hz
    rcases List.mem_append.mp hz with hz | hz
    · exact .inr (List.mem_append_left _ hz)
    · exact (List.mem_cons.mp hz).imp_right (List.mem_append_right _)
  have hapart : ∀ z ∈ l ++ l', ∀ b, x.out = some b → z.out ≠ some b := by
    have hpw := hk.distinct
    rw [hl] at hpw
    obtain ⟨-, hcons, hleft⟩ := List.pairwise_append.mp hpw
    intro z hz b hxb hzb
    rcases List.mem_append.mp hz with hz | hz
    · exact hleft z hz x (List.mem_cons_self ..) b hzb hxb
    · exact (List.pairwise_cons.mp hcons).1 z hz b hxb hzb
  rcases hout : x.out with _ | b
  · refine ⟨s.machine, onSt_run _ _, ⟨hk.memory, fun z hz => hk.live z (hsub.subset hz), hk.distinct.sublist hsub,
      fun b hn => hk.others b fun z hz => ?_, fun z hz => hk.padded z (hsub.subset hz),
      fun z hz => hk.made z (hsub.subset hz)⟩⟩
    rcases hmem z hz with rfl | hz
    · rw [hout]
      exact fun h => by cases h
    · exact hn z hz
  · obtain ⟨hget, hnew⟩ := hk.live x hx b hout
    obtain ⟨hn, hz⟩ := hk.padded x hx
    obtain ⟨s', hfree, hb⟩ := mcFree_becomes hget hn hz
    refine ⟨{ s.machine with st := s' }, by rw [onSt_run, hfree], ⟨(hk.memory.trans hb).cast hb.get_eq.symm,
      fun z hz b' hzb => ?_, hk.distinct.sublist hsub, fun b' hn => ?_, fun z hz => hk.padded z (hsub.subset hz),
      fun z hz => hk.made z (hsub.subset hz)⟩⟩
    · have hne : b' ≠ b := fun e => hapart z hz b hout (e ▸ hzb)
      refine ⟨?_, (hk.live z (hsub.subset hz) b' hzb).2⟩
      show s'.heap.get b' = _
      rw [hb.get_eq, update_of_ne hne]
      exact (hk.live z (hsub.subset hz) b' hzb).1
    · show s'.heap.get b' = _
      rw [hb.get_eq]
      by_cases hne : b' = b
      · rw [hne, update_self, hnew]
      · rw [update_of_ne hne]
        refine hk.others b' fun z hz => ?_
        rcases hmem z hz with rfl | hz
        · rw [hout]
          exact fun h => hne (Option.some.inj h).symm
        · exact hn z hz

/-- **Each use keeps what the caller has**: it comes back, or the power is lost. -/
theorem Keeping.use (h : Heap) (os : Os) (u : Use w) :
    Triple (Keeping h) (u.exec os) (fun _ => Keeping h) fun e _ => e = .powerLoss := by
  intro s hk
  have hcome {s' : Caller w} (hk' : Keeping h s') : (∀ a, (Except.ok () : Except Stop Unit) = .ok a → Keeping h s') ∧
      ∀ e, (Except.ok () : Except Stop Unit) = .error e → e = .powerLoss := ⟨fun _ _ => hk', fun _ h => by cases h⟩
  cases u with
  | call c =>
    have hands := c.hands os s.machine
    unfold Ends at hands
    rcases hr : c.exec os s.machine with ⟨r, m⟩
    rw [hr] at hands
    rcases hands with rfl | hands
    · exact Ends.of_eq (exec_lost hr) ⟨fun _ h => (by cases h), fun _ h => (by cases h; rfl)⟩
    cases hands with
    | handed hx _ hs => exact Ends.of_eq (exec_handed hr) (hcome (hk.add hs hx))
    | failed hb => exact Ends.of_eq (exec_failed hr) (hcome (hk.same hb))
  | free i =>
    rcases hi : s.held[i]? with _ | x
    · exact Ends.of_eq (exec_none hi) (hcome hk)
    obtain ⟨hlt, hx⟩ := List.getElem?_eq_some_iff.mp hi
    have hl : s.held = s.held.take i ++ x :: s.held.drop (i + 1) := by
      rw [← hx, List.getElem_cons_drop, List.take_append_drop]
    obtain ⟨m, hfree, hk'⟩ := hk.free hl
    refine Ends.of_eq (exec_free hi hfree) (hcome ?_)
    rwa [List.eraseIdx_eq_take_drop_succ]

/-- By induction on the uses. -/
theorem Keeping.session (h : Heap) (os : Os) (uses : List (Use w)) :
    Triple (Keeping h) (session os uses) (fun _ => Keeping h) fun e _ => e = .powerLoss := by
  induction uses with
  | nil => exact Triple.pure (Q := fun _ => Keeping h)
  | cons u uses ih => exact (Keeping.use h os u).bind fun _ => ih

end Keeping

/-- **What a caller has is its own, and stays**: after any uses of the library, in any order and whatever fails, each
pointer that is held is to a block of its own that holds what was handed off; the other blocks in use are those from
before; and what was freed was zero. When all is given back, nothing is left. What was decrypted of what was encrypted is
what was encrypted. -/
theorem session_keeps (os : Os) (uses : List (Use w)) (m : Machine) : Ends (session os uses) ⟨m, []⟩ fun r s =>
    (∀ e, r = .error e → e = .powerLoss) ∧ (r = .ok () → Keeping m.st.heap s ∧
      (s.held = [] → Heap.Tidy m.st.heap s.machine.st.heap none) ∧
      (w.Lawful → ∀ x ∈ s.held, ∀ x' ∈ s.held, ∀ key opts input fits, x.call = .encrypt key opts input →
        x'.call = .decrypt key (.bytes x.data) fits → x'.data = input.toBytes)) := by
  have hrun := Keeping.session m.st.heap os uses ⟨m, []⟩ (.start m)
  unfold Ends at hrun ⊢
  refine ⟨hrun.2, fun hr => ?_⟩
  have hk := hrun.1 () hr
  refine ⟨hk, fun hnil => hk.memory.tidy (fun b _ => hk.others b ?_) fun b hb => (by cases hb), ?_⟩
  · rw [hnil]
    exact fun _ hx => by cases hx
  · intro hw x hx x' hx' key opts input fits hcall hcall'
    obtain ⟨y, hy, hturns⟩ := hk.made x hx
    obtain ⟨z, hz, hturns'⟩ := hk.made x' hx'
    rw [hcall] at hy hturns
    rw [hcall'] at hz hturns'
    obtain rfl := hy input rfl
    obtain rfl := hz _ rfl
    exact hturns.genuine hw hturns' List.prefix_rfl

end ModelCrypt
