/-
# Programs that take their steps in any order

A `Proc` is a program cut into its steps: each changes the state at once, and
others may take theirs between two of them. `run` is the program alone. A `Pool`
has a program for each index, with a state of its own of which one part, seen
through a `View`, is shared by all of them; a schedule is the list of those that
take the next step.

A protocol gives each program a value that no step of another changes (its
ghost), and an invariant over all of these, a common history of what was done by
whom, and the shared part. `Follows`: each step of a program, taken wherever the
invariant holds and whatever the others have left, can change its own ghost and
append what it did to the history so that the invariant holds again. If all
programs follow the protocol, the invariant holds after every schedule, and the
history only grows by what the scheduled ones do (`Pool.Follow.exec`).

Key definitions: `Proc`, `Proc.run`, `Pool.exec`, `own`, `Follows`.
Key theorems: `Proc.run_andThen`, `Pool.exec_alone`, `Follows.andThen`, `Pool.Follow.exec`.
-/
import ModelCrypt.Lib.Prog
import Mathlib.Logic.Function.Basic

namespace Lib

open Function

/-! ### Programs in steps -/

/-- How a program ended, or its next step and what it does then. -/
inductive Proc (σ ε α : Type) : Type 1
  | ret (r : Except ε α)
  | step {β : Type} (f : σ → β × σ) (k : β → Proc σ ε α)

namespace Proc

variable {σ ε α β : Type}

/-- The program alone, from a state. -/
def run : Proc σ ε α → Prog σ ε α
  | ret r => Prog.ofExcept r
  | step f k => fun s => (k (f s).1).run (f s).2

/-- What it ended with, if it did. -/
def result : Proc σ ε α → Option (Except ε α)
  | ret r => some r
  | step _ _ => none

theorem result_eq_some {p : Proc σ ε α} {r : Except ε α} : p.result = some r ↔ p = ret r := by
  cases p <;> simp [result]

/-- A program that is one step. -/
def call (m : Prog σ ε α) : Proc σ ε α := step m ret

/-- Go on, however it ended. -/
def andThen (f : Except ε α → Proc σ ε β) : Proc σ ε α → Proc σ ε β
  | ret r => f r
  | step g k => step g fun b => (k b).andThen f

instance : Monad (Proc σ ε) where
  pure a := ret (.ok a)
  bind p f := p.andThen fun
    | .ok a => f a
    | .error e => ret (.error e)

/-- Stop early. -/
def stop (e : ε) : Proc σ ε α := ret (.error e)

/-- Take the steps of `fin` on every way out of `p`; a stop of `fin` itself wins. -/
def always (p : Proc σ ε α) (fin : Proc σ ε Unit) : Proc σ ε α := p.andThen fun r => fin.andThen fun
  | .ok _ => ret r
  | .error e => ret (.error e)

/-- Take the steps of `fin` when `p` stops early. -/
def onStop (p : Proc σ ε α) (fin : Proc σ ε Unit) : Proc σ ε α := p.andThen fun
  | .ok a => ret (.ok a)
  | .error e => fin.andThen fun
    | .ok _ => ret (.error e)
    | .error e' => ret (.error e')

@[simp] theorem run_ret (r : Except ε α) : (ret r : Proc σ ε α).run = Prog.ofExcept r := rfl

@[simp] theorem run_call (m : Prog σ ε α) : (call m).run = m := rfl

@[simp] theorem run_pure (a : α) : (pure a : Proc σ ε α).run = pure a := rfl

@[simp] theorem run_stop (e : ε) : (stop e : Proc σ ε α).run = throw e := rfl

/-- One after the other. By induction on the steps of the first. -/
theorem run_andThen (f : Except ε α → Proc σ ε β) (p : Proc σ ε α) (s : σ) :
    (p.andThen f).run s = (f (p.run s).1).run (p.run s).2 := by
  induction p generalizing s with
  | ret r => rfl
  | step g k ih => exact ih _ _

@[simp] theorem run_bind (p : Proc σ ε α) (f : α → Proc σ ε β) : (p >>= f).run = p.run >>= fun a => (f a).run := by
  funext s
  refine (run_andThen _ p s).trans ?_
  rw [Prog.bind_apply]
  rcases p.run s with ⟨e | a, s'⟩ <;> rfl

@[simp] theorem run_always (p : Proc σ ε α) (fin : Proc σ ε Unit) :
    (p.always fin).run = Prog.always p.run fin.run := by
  funext s
  refine (run_andThen _ p s).trans ?_
  rw [run_andThen, Prog.always]
  rcases fin.run (p.run s).2 with ⟨e | u, s'⟩ <;> rfl

@[simp] theorem run_onStop (p : Proc σ ε α) (fin : Proc σ ε Unit) :
    (p.onStop fin).run = Prog.onStop p.run fin.run := by
  funext s
  refine (run_andThen _ p s).trans ?_
  rw [Prog.onStop]
  rcases p.run s with ⟨e | a, s'⟩
  · dsimp only
    rw [run_andThen]
    rcases fin.run s' with ⟨e' | u, s''⟩ <;> rfl
  · rfl

end Proc

/-! ### Pools -/

/-- The part of a state that is shared. -/
structure View (σ D : Type) where
  get : σ → D
  set : D → σ → σ
  get_set : ∀ d s, get (set d s) = d
  set_get : ∀ s, set (get s) s = s

/-- A program with its own state; of what is shared, that has what was there at the last step. -/
structure Thread (σ ε α : Type) where
  state : σ
  prog : Proc σ ε α

/-- It has no step left. -/
def Thread.Ended {σ ε α : Type} (t : Thread σ ε α) : Prop := ∃ r, t.prog = .ret r

structure Pool (D : Type) {ι : Type} (σ ε : Type) (α : ι → Type) where
  shared : D
  threads : (i : ι) → Thread σ ε (α i)

section Pools

variable {σ ε D ι γ E : Type} {α : ι → Type} (v : View σ D)

namespace Pool

variable [DecidableEq ι]

/-- Program `i` takes its next step, if it has one. -/
def step (i : ι) (p : Pool D σ ε α) : Pool D σ ε α :=
  match (p.threads i).prog with
  | .ret _ => p
  | .step f k =>
    let r := f (v.set p.shared (p.threads i).state)
    ⟨v.get r.2, update p.threads i ⟨r.2, k r.1⟩⟩

/-- A schedule. -/
def exec (l : List ι) (p : Pool D σ ε α) : Pool D σ ε α := l.foldl (fun p i => p.step v i) p

theorem exec_append (l l' : List ι) (p : Pool D σ ε α) : p.exec v (l ++ l') = (p.exec v l).exec v l' :=
  List.foldl_append ..

variable {v}

theorem step_ret {i : ι} {p : Pool D σ ε α} {r : Except ε (α i)} (h : (p.threads i).prog = .ret r) : p.step v i = p := by
  rw [step, h]

theorem step_step {i : ι} {p : Pool D σ ε α} {β : Type} {f : σ → β × σ} {k : β → Proc σ ε (α i)}
    (h : (p.threads i).prog = .step f k) : p.step v i =
      ⟨v.get (f (v.set p.shared (p.threads i).state)).2, update p.threads i
        ⟨(f (v.set p.shared (p.threads i).state)).2, k (f (v.set p.shared (p.threads i).state)).1⟩⟩ := by
  rw [step, h]

/-- What has ended stays as it is. -/
theorem ended_step {p : Pool D σ ε α} {i : ι} (h : (p.threads i).Ended) (j : ι) : ((p.step v j).threads i).Ended := by
  rcases hq : (p.threads j).prog with r | ⟨f, k⟩
  · rwa [step_ret hq]
  · have hij : i ≠ j := by
      rintro rfl
      obtain ⟨r, hr⟩ := h
      rw [hq] at hr
      cases hr
    rw [step_step hq]
    exact h.imp fun r hr => (congrArg _ (update_of_ne hij ..)).trans hr

variable (v)

/-- **Scheduled alone, a program ends as it runs**: in what `run` gives, with the shared part that `run` leaves. -/
theorem exec_alone (i : ι) (p : Pool D σ ε α) : ∃ n, ((p.exec v (List.replicate n i)).threads i).prog =
      .ret ((p.threads i).prog.run (v.set p.shared (p.threads i).state)).1 ∧
    (p.exec v (List.replicate n i)).shared = v.get ((p.threads i).prog.run (v.set p.shared (p.threads i).state)).2 ∧
    ∀ j, j ≠ i → (p.exec v (List.replicate n i)).threads j = p.threads j := by
  generalize hq : (p.threads i).prog = q
  induction q generalizing p with
  | ret r => exact ⟨0, hq, (v.get_set ..).symm, fun _ _ => rfl⟩
  | step f k ih =>
    have hs := step_step (v := v) hq
    obtain ⟨n, h1, h2, h3⟩ := ih (f (v.set p.shared (p.threads i).state)).1 (p.step v i) (by
      rw [hs]
      simp only [update_self])
    have hset : v.set (p.step v i).shared ((p.step v i).threads i).state =
        (f (v.set p.shared (p.threads i).state)).2 := by
      rw [hs]
      simp only [update_self]
      exact v.set_get _
    rw [hset] at h1 h2
    refine ⟨n + 1, h1, h2, fun j hj => (h3 j hj).trans ?_⟩
    rw [hs]
    exact update_of_ne hj ..

end Pool

/-! ### Protocols -/

/-- What `i` does at once. -/
def acts (i : ι) (es : List E) : List (ι × E) := es.map (Prod.mk i)

@[simp] theorem acts_nil (i : ι) : acts i ([] : List E) = [] := rfl

variable [DecidableEq ι]

/-- What `i` did in a history. -/
def own (i : ι) (h : List (ι × E)) : List E := (h.filter fun e => e.1 = i).map (·.2)

@[simp] theorem own_nil (i : ι) : own i ([] : List (ι × E)) = [] := rfl

@[simp] theorem own_append (i : ι) (h h' : List (ι × E)) : own i (h ++ h') = own i h ++ own i h' := by simp [own]

@[simp] theorem own_acts (i : ι) (es : List E) : own i (acts i es) = es := by
  have h : (acts i es).filter (fun e => e.1 = i) = acts i es := List.filter_eq_self.mpr (by simp [acts])
  rw [own, h, acts, List.map_map]
  exact List.map_id es

theorem own_acts_ne {i j : ι} (h : j ≠ i) (es : List E) : own i (acts j es) = [] := by simp [own, acts, h]

theorem mem_own {i : ι} {e : E} {h : List (ι × E)} : e ∈ own i h ↔ (i, e) ∈ h := by simp [own]

theorem own_eq_nil {i : ι} {h : List (ι × E)} (hn : ∀ e ∈ h, e.1 ≠ i) : own i h = [] :=
  List.eq_nil_iff_forall_not_mem.mpr fun _ he => hn _ (mem_own.mp he) rfl

variable (Inv : (ι → γ) → List (ι × E) → D → Prop)

/-- Program `i` keeps the invariant with each of its steps, from the ghost `g` on, and ends in `Q`. What a step finds of
the shared part is anything that the invariant allows. -/
def Follows {α : Type} (i : ι) (Q : Except ε α → γ → σ → Prop) : Proc σ ε α → γ → σ → Prop
  | .ret r, g, s => Q r g s
  | .step f k, g, s => ∀ G h d, G i = g → Inv G h d → ∃ g' es,
      Inv (update G i g') (h ++ acts i es) (v.get (f (v.set d s)).2) ∧
        Follows i Q (k (f (v.set d s)).1) g' (f (v.set d s)).2

section Rules

variable {v Inv} {i : ι} {β δ : Type} {g : γ} {s : σ} {Q : Except ε β → γ → σ → Prop}

/-- A program that is one step. -/
theorem Follows.call {m : Prog σ ε β} (h : ∀ G h d, G i = g → Inv G h d → Prog.Ends m (v.set d s) fun r s' =>
      ∃ g' es, Inv (update G i g') (h ++ acts i es) (v.get s') ∧ Q r g' s') : Follows v Inv i Q (.call m) g s := h

/-- A step that leaves the shared part alone. -/
theorem Follows.own {m : Prog σ ε β} (h : ∀ G h d, G i = g → Inv G h d →
      Prog.Ends m (v.set d s) fun r s' => v.get s' = d ∧ Q r g s') : Follows v Inv i Q (.call m) g s := by
  intro G hist d hg hi
  obtain ⟨h1, h2⟩ := h G hist d hg hi
  refine ⟨g, [], ?_, h2⟩
  rw [h1, ← hg, update_eq_self, acts_nil, List.append_nil]
  exact hi

theorem Follows.mono {Q' : Except ε β → γ → σ → Prop} {p : Proc σ ε β} (h : Follows v Inv i Q p g s)
    (hq : ∀ r g s, Q r g s → Q' r g s) : Follows v Inv i Q' p g s := by
  induction p generalizing g s with
  | ret r => exact hq _ _ _ h
  | step f k ih =>
    intro G hist d hg hi
    obtain ⟨g', es, hi', hk⟩ := h G hist d hg hi
    exact ⟨g', es, hi', ih _ hk⟩

/-- One after the other. -/
theorem Follows.andThen {R : Except ε δ → γ → σ → Prop} {p : Proc σ ε δ} {f : Except ε δ → Proc σ ε β}
    (hp : Follows v Inv i R p g s) (hf : ∀ r g s, R r g s → Follows v Inv i Q (f r) g s) :
    Follows v Inv i Q (p.andThen f) g s := by
  induction p generalizing g s with
  | ret r => exact hf _ _ _ hp
  | step f' k ih =>
    intro G hist d hg hi
    obtain ⟨g', es, hi', hk⟩ := hp G hist d hg hi
    exact ⟨g', es, hi', ih _ hk⟩

theorem Follows.bind {R : Except ε δ → γ → σ → Prop} {p : Proc σ ε δ} {f : δ → Proc σ ε β}
    (hp : Follows v Inv i R p g s) (ok : ∀ a g s, R (.ok a) g s → Follows v Inv i Q (f a) g s)
    (stop : ∀ e g s, R (.error e) g s → Q (.error e) g s) : Follows v Inv i Q (p >>= f) g s := by
  refine hp.andThen ?_
  rintro (e | a) g' s' h
  · exact stop e g' s' h
  · exact ok a g' s' h

theorem Follows.always {R : Except ε β → γ → σ → Prop} {p : Proc σ ε β} {fin : Proc σ ε Unit}
    (hp : Follows v Inv i R p g s) (hf : ∀ r g s, R r g s → Follows v Inv i (fun r' g' s' =>
      (∀ e, r' = .error e → Q (.error e) g' s') ∧ (r' = .ok () → Q r g' s')) fin g s) :
    Follows v Inv i Q (p.always fin) g s := by
  refine hp.andThen fun r g' s' h => (hf r g' s' h).andThen ?_
  rintro (e | u) g2 s2 ⟨h1, h2⟩
  · exact h1 e rfl
  · exact h2 rfl

theorem Follows.onStop {R : Except ε β → γ → σ → Prop} {p : Proc σ ε β} {fin : Proc σ ε Unit}
    (hp : Follows v Inv i R p g s) (ok : ∀ a g s, R (.ok a) g s → Q (.ok a) g s)
    (stop : ∀ e g s, R (.error e) g s → Follows v Inv i (fun r' g' s' =>
      (∀ e', r' = .error e' → Q (.error e') g' s') ∧ (r' = .ok () → Q (.error e) g' s')) fin g s) :
    Follows v Inv i Q (p.onStop fin) g s := by
  refine hp.andThen ?_
  rintro (e | a) g' s' h
  · refine (stop e g' s' h).andThen ?_
    rintro (e' | u) g2 s2 ⟨h1, h2⟩
    · exact h1 e' rfl
    · exact h2 rfl
  · exact ok a g' s' h

end Rules

/-- All the programs of a pool follow the protocol, and the invariant holds. -/
structure Pool.Follow (Q : (i : ι) → Except ε (α i) → γ → σ → Prop) (G : ι → γ) (h : List (ι × E))
    (p : Pool D σ ε α) : Prop where
  inv : Inv G h p.shared
  each : ∀ i, Follows v Inv i (Q i) (p.threads i).prog (G i) (p.threads i).state

namespace Pool.Follow

variable {v Inv} {Q : (i : ι) → Except ε (α i) → γ → σ → Prop} {G : ι → γ} {h : List (ι × E)} {p : Pool D σ ε α}

theorem step (hp : p.Follow v Inv Q G h) (j : ι) : ∃ G' es, (p.step v j).Follow v Inv Q G' (h ++ acts j es) ∧
    ((p.threads j).Ended → es = []) := by
  have hj := hp.each j
  rcases hq : (p.threads j).prog with r | ⟨f, k⟩
  · rw [Pool.step_ret hq]
    refine ⟨G, [], ?_, fun _ => rfl⟩
    rwa [acts_nil, List.append_nil]
  · rw [hq] at hj
    obtain ⟨g', es, hi, hk⟩ := hj G h p.shared rfl hp.inv
    rw [Pool.step_step hq]
    refine ⟨update G j g', es, ⟨hi, fun i => ?_⟩, ?_⟩
    · by_cases hij : i = j
      · subst hij
        simpa using hk
      · simpa [update_of_ne hij] using hp.each i
    · rintro ⟨r, hr⟩
      rw [hq] at hr
      cases hr

/-- **Whatever the order of the steps, the protocol is followed.** What is new in the history was done by programs that
were scheduled and had not ended. -/
theorem exec (hp : p.Follow v Inv Q G h) (l : List ι) : ∃ G' new, (p.exec v l).Follow v Inv Q G' (h ++ new) ∧
    ∀ e ∈ new, e.1 ∈ l ∧ ¬ (p.threads e.1).Ended := by
  induction l generalizing p G h with
  | nil => exact ⟨G, [], by rwa [List.append_nil], by simp⟩
  | cons j l ih =>
    obtain ⟨G1, es, h1, hes⟩ := hp.step j
    obtain ⟨G2, new, h2, hnew⟩ := ih h1
    refine ⟨G2, acts j es ++ new, by rwa [← List.append_assoc], fun e he => ?_⟩
    rcases List.mem_append.mp he with he | he
    · obtain ⟨x, hx, rfl⟩ := List.mem_map.mp he
      exact ⟨List.mem_cons_self .., fun hend => by rw [hes hend] at hx; cases hx⟩
    · obtain ⟨h3, h4⟩ := hnew e he
      exact ⟨List.mem_cons_of_mem _ h3, fun hend => h4 (Pool.ended_step hend j)⟩

/-- A program that ended did so as it was to. -/
theorem ended (hp : p.Follow v Inv Q G h) {i : ι} {r : Except ε (α i)} (hr : (p.threads i).prog = .ret r) :
    Q i r (G i) (p.threads i).state := by
  have := hp.each i
  rwa [hr] at this

end Pool.Follow

end Pools

end Lib
