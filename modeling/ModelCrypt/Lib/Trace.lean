/-
# Programs whose state is their trace

A history is orderly when each of its events is allowed after the events
before it. `Logs A tr0 m hist Q`: run after the orderly history `hist`, the
program `m` only adds events that `A` allows, and ends in `Q` of its result
and the whole history. The rules follow the program, so an ordering property
is proved by saying what is allowed when and what is known at each point.
`Yields t m Q`: started at any time from `t` on, the program succeeds, with a
value in `Q`; `Fails t m e`: it stops with `e`. `Heeds bad e m`: a run that logs
a bad event stops with `e`. `times p tr`: when the events that `p` picks happened.

Key definitions: `Orderly`, `Logs`, `Yields`, `Fails`, `Heeds`, `times`.
Key theorems: `Orderly.snoc`, `Logs.step`, `Logs.bind`, `Yields.bind`, `Fails.after`, `Heeds.bind`, `times_snoc`.
-/
import Mathlib.Data.Nat.Notation
import ModelCrypt.Lib.Prog

namespace Lib

open Prog

variable {E ε α β : Type} {A : List E → E → Prop}

/-- Every event is allowed after the events before it. -/
def Orderly (A : List E → E → Prop) (hist : List E) : Prop :=
  ∀ pre e post, hist = pre ++ e :: post → A pre e

theorem Orderly.nil : Orderly A [] := by
  rintro pre e post h
  simp at h

theorem Orderly.snoc {hist : List E} {e : E} (h : Orderly A hist) (he : A hist e) : Orderly A (hist ++ [e]) := by
  intro pre x post hs
  rcases List.eq_nil_or_concat post with rfl | ⟨post', y, rfl⟩
  · obtain ⟨h1, h2⟩ := List.append_inj' hs rfl
    cases h2
    rwa [← h1]
  · rw [List.concat_eq_append, ← List.cons_append, ← List.append_assoc] at hs
    exact h pre x post' (List.append_inj' hs rfl).1

/-- After the orderly history `hist`, the run of `m` extends it, is orderly and ends in `Q`. -/
def Logs (A : List E → E → Prop) (tr0 : List E) (m : Prog (List E) ε α) (hist : List E)
    (Q : Except ε α → List E → Prop) : Prop :=
  Orderly A hist → Ends m (tr0 ++ hist) fun r tr =>
    ∃ hist', tr = tr0 ++ hist' ∧ hist <+: hist' ∧ Orderly A hist' ∧ Q r hist'

namespace Logs

variable {tr0 hist : List E} {Q R : Except ε α → List E → Prop}

theorem pure {a : α} (h : Q (.ok a) hist) : Logs A tr0 (Pure.pure a : Prog (List E) ε α) hist Q :=
  fun ho => ⟨hist, rfl, List.prefix_rfl, ho, h⟩

theorem throw {e : ε} (h : Q (.error e) hist) : Logs A tr0 (MonadExcept.throw e : Prog (List E) ε α) hist Q :=
  fun ho => ⟨hist, rfl, List.prefix_rfl, ho, h⟩

theorem mono {m : Prog (List E) ε α} (h : Logs A tr0 m hist R) (hq : ∀ r hist', R r hist' → Q r hist') :
    Logs A tr0 m hist Q := by
  intro ho
  obtain ⟨hist', ht, hp, ho', hr⟩ := h ho
  exact ⟨hist', ht, hp, ho', hq _ _ hr⟩

/-- The end of a run may be said to extend the history. -/
theorem grows {m : Prog (List E) ε α} (h : Logs A tr0 m hist Q) :
    Logs A tr0 m hist fun r hist' => hist <+: hist' ∧ Q r hist' := by
  intro ho
  obtain ⟨hist', ht, hp, ho', hq⟩ := h ho
  exact ⟨hist', ht, hp, ho', hp, hq⟩

/-- A program that logs one event. -/
theorem step {m : Prog (List E) ε α} {r : Except ε α} {e : E} (h : m (tr0 ++ hist) = (r, tr0 ++ hist ++ [e]))
    (hA : A hist e) (hq : Q r (hist ++ [e])) : Logs A tr0 m hist Q := by
  intro ho
  refine Ends.of_eq h ⟨hist ++ [e], ?_, List.prefix_append .., ho.snoc hA, hq⟩
  rw [List.append_assoc]

theorem bind {m : Prog (List E) ε α} {f : α → Prog (List E) ε β} {Q : Except ε β → List E → Prop}
    (hm : Logs A tr0 m hist R) (ok : ∀ a hist', R (.ok a) hist' → Logs A tr0 (f a) hist' Q)
    (stop : ∀ e hist', R (.error e) hist' → Q (.error e) hist') : Logs A tr0 (m >>= f) hist Q := by
  intro ho
  refine Ends.bind (hm ho) ?_ ?_
  · rintro a _ ⟨hist', rfl, hp, ho', hr⟩
    refine (ok a hist' hr ho').mono ?_
    rintro r _ ⟨hist'', ht, hp', ho'', hq⟩
    exact ⟨hist'', ht, hp.trans hp', ho'', hq⟩
  · rintro e _ ⟨hist', rfl, hp, ho', hr⟩
    exact ⟨hist', rfl, hp, ho', stop e hist' hr⟩

theorem throwIf {c : Prop} [Decidable c] {e : ε} {f : Unit → Prog (List E) ε α} (pos : c → Q (.error e) hist)
    (neg : ¬ c → Logs A tr0 (f ()) hist Q) : Logs A tr0 (Prog.throwIf c e >>= f) hist Q := by
  intro ho
  exact Ends.throwIf (fun hc => ⟨hist, rfl, List.prefix_rfl, ho, pos hc⟩) (fun hc => neg hc ho)

theorem ofExcept {r : Except ε α} {f : α → Prog (List E) ε β} {Q : Except ε β → List E → Prop}
    (ok : ∀ a, r = .ok a → Logs A tr0 (f a) hist Q) (stop : ∀ e, r = .error e → Q (.error e) hist) :
    Logs A tr0 (Prog.ofExcept r >>= f) hist Q := by
  cases r with
  | error e => exact fun ho => ⟨hist, rfl, List.prefix_rfl, ho, stop e rfl⟩
  | ok a => exact ok a rfl

end Logs

/-- Started when at least `t` events have happened, the program succeeds with a value in `Q`. -/
def Yields (t : ℕ) (m : Prog (List E) ε α) (Q : α → Prop) : Prop :=
  ∀ tr, t ≤ tr.length → ∃ a tr', t ≤ tr'.length ∧ m tr = (.ok a, tr') ∧ Q a

namespace Yields

variable {t : ℕ} {Q R : α → Prop}

theorem pure {a : α} (h : Q a) : Yields t (Pure.pure a : Prog (List E) ε α) Q := fun tr ht => ⟨a, tr, ht, rfl, h⟩

theorem bind {m : Prog (List E) ε α} {f : α → Prog (List E) ε β} {Q : β → Prop} (hm : Yields t m R)
    (hf : ∀ a, R a → Yields t (f a) Q) : Yields t (m >>= f) Q := by
  intro tr ht
  obtain ⟨a, tr', ht', hrun, hr⟩ := hm tr ht
  obtain ⟨b, tr'', ht'', hrun', hq⟩ := hf a hr tr' ht'
  exact ⟨b, tr'', ht'', by rw [bind_ok hrun, hrun'], hq⟩

/-- Whatever the first part yields. -/
theorem andThen {m : Prog (List E) ε α} {f : α → Prog (List E) ε β} {Q : β → Prop} (hm : Yields t m fun _ => True)
    (hf : ∀ a, Yields t (f a) Q) : Yields t (m >>= f) Q := hm.bind fun a _ => hf a

theorem throwIf {c : Prop} [Decidable c] {e : ε} {f : Unit → Prog (List E) ε α} (hc : ¬ c) (hf : Yields t (f ()) Q) :
    Yields t (Prog.throwIf c e >>= f) Q := by
  rwa [throwIf_neg hc]

theorem ofExcept {a : α} {f : α → Prog (List E) ε β} {Q : β → Prop} (hf : Yields t (f a) Q) :
    Yields t (Prog.ofExcept (.ok a) >>= f) Q := hf

end Yields

/-! ### Programs that fail -/

/-- Started when at least `t` events have happened, the program stops with `e`. -/
def Fails (t : ℕ) (m : Prog (List E) ε α) (e : ε) : Prop := ∀ tr, t ≤ tr.length → (m tr).1 = .error e

namespace Fails

variable {t : ℕ} {e : ε}

theorem bind {m : Prog (List E) ε α} {f : α → Prog (List E) ε β} (hm : Fails t m e) : Fails t (m >>= f) e := by
  intro tr ht
  rw [bind_error (run_eq (hm tr ht))]

/-- What fails may come after what succeeds. -/
theorem after {m : Prog (List E) ε α} {f : α → Prog (List E) ε β} {R : α → Prop} (hm : Yields t m R)
    (hf : ∀ a, R a → Fails t (f a) e) : Fails t (m >>= f) e := by
  intro tr ht
  obtain ⟨a, tr', ht', hrun, hr⟩ := hm tr ht
  rw [bind_ok hrun]
  exact hf a hr tr' ht'

end Fails

/-! ### Which events stop a program -/

/-- A run of `m` that logs an event in `bad` stops with `e`. -/
def Heeds (bad : E → Prop) (e : ε) (m : Prog (List E) ε α) : Prop :=
  ∀ tr, ∃ hist, (m tr).2 = tr ++ hist ∧ ((∃ x ∈ hist, bad x) → (m tr).1 = .error e)

namespace Heeds

variable {bad : E → Prop} {e : ε}

/-- A program that logs nothing. -/
theorem silent {m : Prog (List E) ε α} (h : ∀ tr, (m tr).2 = tr) : Heeds bad e m :=
  fun tr => ⟨[], by rw [h, List.append_nil], by simp⟩

theorem pure {a : α} : Heeds bad e (Pure.pure a : Prog (List E) ε α) := silent fun _ => rfl

theorem throw {e' : ε} : Heeds bad e (MonadExcept.throw e' : Prog (List E) ε α) := silent fun _ => rfl

theorem ofExcept {r : Except ε α} : Heeds bad e (Prog.ofExcept r) := silent fun _ => rfl

theorem throwIf {c : Prop} [Decidable c] {e' : ε} : Heeds bad e (Prog.throwIf c e') := by
  unfold Prog.throwIf
  split
  · exact throw
  · exact pure

/-- A program that logs one event. -/
theorem step {m : Prog (List E) ε α} (h : ∀ tr, ∃ x, (m tr).2 = tr ++ [x] ∧ (bad x → (m tr).1 = .error e)) :
    Heeds bad e m := by
  intro tr
  obtain ⟨x, hx, hbad⟩ := h tr
  refine ⟨[x], hx, ?_⟩
  rintro ⟨y, hy, hb⟩
  exact hbad (List.mem_singleton.mp hy ▸ hb)

/-- The first part logs nothing bad if the second one is reached. -/
theorem bind {m : Prog (List E) ε α} {f : α → Prog (List E) ε β} (hm : Heeds bad e m) (hf : ∀ a, Heeds bad e (f a)) :
    Heeds bad e (m >>= f) := by
  intro tr
  obtain ⟨hist, ht, hbad⟩ := hm tr
  rw [bind_apply]
  rcases hrun : m tr with ⟨e' | a, tr'⟩ <;> rw [hrun] at ht hbad <;> obtain rfl : tr' = tr ++ hist := ht
  · exact ⟨hist, rfl, fun h => by cases hbad h; rfl⟩
  · obtain ⟨more, ht', hbad'⟩ := hf a (tr ++ hist)
    refine ⟨hist ++ more, by rw [ht', List.append_assoc], ?_⟩
    rintro ⟨x, hx, hb⟩
    rcases List.mem_append.mp hx with hx | hx
    · cases hbad ⟨x, hx, hb⟩
    · exact hbad' ⟨x, hx, hb⟩

end Heeds

/-! ### When events happened -/

section Times

variable {p : E → Bool} {tr tr' : List E}

/-- When the events that `p` picks happened. -/
def times (p : E → Bool) (tr : List E) : List ℕ := (tr.zipIdx.filter fun x => p x.1).map Prod.snd

/-- When the event at position `i` of those that `p` picks happened, in what `tr'` adds to `tr`. -/
def timeSince (p : E → Bool) (tr tr' : List E) (i : ℕ) : ℕ := ((times p tr').drop (times p tr).length).getD i 0

theorem times_snoc (p : E → Bool) (tr : List E) (e : E) :
    times p (tr ++ [e]) = times p tr ++ if p e then [tr.length] else [] := by
  rw [times, List.zipIdx_append, List.filter_append, List.map_append, Nat.zero_add]
  cases he : p e <;> simp [times, he]

theorem times_snoc_of_not {e : E} (he : p e = false) : times p (tr ++ [e]) = times p tr := by
  rw [times_snoc, he, if_neg Bool.false_ne_true, List.append_nil]

theorem times_snoc_of {e : E} (he : p e = true) : times p (tr ++ [e]) = times p tr ++ [tr.length] := by
  rw [times_snoc, if_pos he]

theorem timeSince_eq {ts : List ℕ} (h : times p tr' = times p tr ++ ts) :
    timeSince p tr tr' = fun i => ts.getD i 0 := by
  funext i
  rw [timeSince, h, List.drop_left]

end Times
end Lib
