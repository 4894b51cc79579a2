/-
# Programs that change a state and may stop early

`Prog σ ε α` is a run from a state: it ends with a value or stops with an
`ε`, and leaves a state either way. `always m fin` runs `fin` on both ways out
of `m` (a destructor), `onStop m fin` only on the early one (ownership moved
out on success). `zoom` runs a program of a part of the state on the whole.

Five ways to reason about a run. `Ends m s Q`: the run of `m` from `s` ends in
`Q`. `Gives m G E`: every run of `m` ends with a value in `G` or stops with one
in `E`. `Keeps v m`: no run of `m` changes what `v` sees. `Stays I E m`: no run
of `m` leaves `I`, and one that stops early does so with one in `E`. `Sim`: a
program over a big state refines a program over a view of it, step by step with
the same result and the same view; a step of the big program that the view does
not show is dropped (`Sim.skip`).

Key definitions: `Prog`, `Prog.Ends`, `Prog.Gives`, `Prog.Keeps`, `Prog.Stays`, `Prog.Sim`.
Key theorems: `Ends.bind`, `Gives.bind`, `Keeps.bind`, `Stays.bind`, `Sim.bind`, `Sim.always`, `Sim.zoom`.
-/
import Mathlib.Tactic.Basic

namespace Lib

instance exceptDecidableEq {ε α : Type} [DecidableEq ε] [DecidableEq α] : DecidableEq (Except ε α)
  | .ok a, .ok b => decidable_of_iff (a = b) ⟨congrArg _, Except.ok.inj⟩
  | .error a, .error b => decidable_of_iff (a = b) ⟨congrArg _, Except.error.inj⟩
  | .ok _, .error _ => isFalse fun h => nomatch h
  | .error _, .ok _ => isFalse fun h => nomatch h

/-- A run from a state: a value or an early stop, and the state left. -/
def Prog (σ ε α : Type) : Type := σ → Except ε α × σ

namespace Prog

variable {σ τ ε ε' α β γ δ : Type}

instance : Monad (Prog σ ε) where
  pure a := fun s => (.ok a, s)
  bind m f := fun s => match m s with
    | (.ok a, s') => f a s'
    | (.error e, s') => (.error e, s')

instance : MonadExceptOf ε (Prog σ ε) where
  throw e := fun s => (.error e, s)
  tryCatch m h := fun s => match m s with
    | (.ok a, s') => (.ok a, s')
    | (.error e, s') => h e s'

/-- The state as it is. -/
def state : Prog σ ε σ := fun s => (.ok s, s)

/-- Change the state. -/
def update (f : σ → σ) : Prog σ ε Unit := fun s => (.ok (), f s)

/-- A computation that touches no state. -/
def ofExcept (r : Except ε α) : Prog σ ε α := fun s => (r, s)

/-- Run `fin` on every way out of `m`; a stop of `fin` itself wins. -/
def always (m : Prog σ ε α) (fin : Prog σ ε Unit) : Prog σ ε α := fun s =>
  match fin (m s).2 with
  | (.ok _, s') => ((m s).1, s')
  | (.error e, s') => (.error e, s')

/-- Run `fin` when `m` stops early. -/
def onStop (m : Prog σ ε α) (fin : Prog σ ε Unit) : Prog σ ε α := fun s =>
  match m s with
  | (.ok a, s') => (.ok a, s')
  | (.error e, s') =>
    match fin s' with
    | (.ok _, s'') => (.error e, s'')
    | (.error e', s'') => (.error e', s'')

/-- Run `m`, then change the state by what it ended with. -/
def report (m : Prog σ ε α) (f : Except ε α → σ → σ) : Prog σ ε α := fun s => ((m s).1, f (m s).1 (m s).2)

/-- A program of a part of the state, run on the whole. -/
def zoom (get : σ → τ) (set : τ → σ → σ) (lift : ε' → ε) (m : Prog τ ε' α) : Prog σ ε α := fun s =>
  match m (get s) with
  | (.ok a, t) => (.ok a, set t s)
  | (.error e, t) => (.error (lift e), set t s)

theorem pure_apply (a : α) (s : σ) : (pure a : Prog σ ε α) s = (.ok a, s) := rfl

theorem throw_apply (e : ε) (s : σ) : (throw e : Prog σ ε α) s = (.error e, s) := rfl

theorem bind_apply (m : Prog σ ε α) (f : α → Prog σ ε β) (s : σ) : (m >>= f) s =
    match m s with
    | (.ok a, s') => f a s'
    | (.error e, s') => (.error e, s') := rfl

theorem catch_apply (m : Prog σ ε α) (h : ε → Prog σ ε α) (s : σ) : tryCatchThe ε m h s =
    match m s with
    | (.ok a, s') => (.ok a, s')
    | (.error e, s') => h e s' := rfl

theorem bind_ok {m : Prog σ ε α} {f : α → Prog σ ε β} {s s' : σ} {a : α} (h : m s = (.ok a, s')) :
    (m >>= f) s = f a s' := by rw [bind_apply, h]

theorem bind_error {m : Prog σ ε α} {f : α → Prog σ ε β} {s s' : σ} {e : ε}
    (h : m s = (.error e, s')) : (m >>= f) s = (.error e, s') := by rw [bind_apply, h]

/-- A run is how it ended and what it left. -/
theorem run_eq {m : Prog σ ε α} {s : σ} {r : Except ε α} (h : (m s).1 = r) : m s = (r, (m s).2) := by
  rw [← h]

/-- A sequence ends with a value only if both its parts do. -/
theorem bind_eq_ok {m : Prog σ ε α} {f : α → Prog σ ε β} {s s' : σ} {b : β} :
    (m >>= f) s = (.ok b, s') ↔ ∃ a s1, m s = (.ok a, s1) ∧ f a s1 = (.ok b, s') := by
  rw [bind_apply]
  constructor
  · intro h
    rcases hm : m s with ⟨_ | a, s1⟩ <;> rw [hm] at h
    · cases h
    · exact ⟨a, s1, rfl, h⟩
  · rintro ⟨a, s1, hm, hf⟩
    rw [hm]
    exact hf

theorem always_eq_ok {m : Prog σ ε α} {fin : Prog σ ε Unit} {s s' : σ} {a : α} (h : always m fin s = (.ok a, s')) :
    ∃ s1, m s = (.ok a, s1) := by
  unfold always at h
  rcases hf : fin (m s).2 with ⟨e | u, s''⟩ <;> rw [hf] at h
  · cases h
  · exact ⟨(m s).2, run_eq (Prod.ext_iff.mp h).1⟩

theorem onStop_eq_ok {m : Prog σ ε α} {fin : Prog σ ε Unit} {s s' : σ} {a : α} (h : onStop m fin s = (.ok a, s')) :
    m s = (.ok a, s') := by
  unfold onStop at h
  rcases hm : m s with ⟨e | b, s1⟩ <;> rw [hm] at h
  · dsimp only at h
    rcases hf : fin s1 with ⟨e' | u, s''⟩ <;> rw [hf] at h <;> cases h
  · exact h

/-- A clean-up comes after a run that is known. -/
theorem always_run {m m' : Prog σ ε α} {fin : Prog σ ε Unit} {s s' : σ} (h : m s = m' s') :
    always m fin s = always m' fin s' := by
  unfold always
  rw [h]

theorem onStop_run {m m' : Prog σ ε α} {fin : Prog σ ε Unit} {s s' : σ} (h : m s = m' s') :
    onStop m fin s = onStop m' fin s' := by
  unfold onStop
  rw [h]

instance : LawfulMonad (Prog σ ε) := LawfulMonad.mk' _
  (fun m => by
    funext s
    show (m >>= fun a => pure (id a)) s = m s
    rw [bind_apply]
    rcases m s with ⟨_ | _, _⟩ <;> rfl)
  (fun _ _ => rfl)
  (fun m f g => by
    funext s
    simp only [bind_apply]
    rcases m s with ⟨_ | _, _⟩ <;> rfl)

/-- Stop with `e` if `c` holds. -/
def throwIf {m : Type → Type} [Monad m] [MonadExceptOf ε m] (c : Prop) [Decidable c] (e : ε) : m Unit :=
  if c then throw e else pure ()

theorem throwIf_pos {c : Prop} [Decidable c] {e : ε} (h : c) (f : Unit → Prog σ ε β) :
    (throwIf c e >>= f) = throw e := by
  funext s; simp [throwIf, h, bind_apply, throw_apply]

theorem throwIf_neg {c : Prop} [Decidable c] {e : ε} (h : ¬ c) (f : Unit → Prog σ ε β) :
    (throwIf c e >>= f) = f () := by
  simp [throwIf, h]

theorem throwIf_eq_ok {c : Prop} [Decidable c] {e : ε} {s s' : σ} {u : Unit} :
    (throwIf c e : Prog σ ε Unit) s = (.ok u, s') ↔ ¬ c ∧ s' = s := by
  unfold throwIf
  by_cases h : c
  · rw [if_pos h]
    exact ⟨fun he => (by cases he), fun he => absurd h he.1⟩
  · rw [if_neg h]
    exact ⟨fun he => ⟨h, (congrArg Prod.snd he).symm⟩, fun he => by rw [he.2]; rfl⟩

@[simp] theorem ok_bind (a : α) (f : α → Except ε β) : (Except.ok a >>= f) = f a := rfl

@[simp] theorem error_bind (e : ε) (f : α → Except ε β) : (Except.error e >>= f) = .error e := rfl

/-- `throwIf` in a computation without state. -/
theorem throwIf_except {c : Prop} [Decidable c] {e : ε} (f : Unit → Except ε β) :
    (throwIf c e >>= f) = if c then .error e else f () := by
  unfold throwIf; split <;> rfl

/-- A guarded computation returns exactly if its guard lets it through. -/
theorem ite_error_eq_ok {c : Prop} [Decidable c] {e : ε} {x : Except ε α} {a : α} :
    (if c then .error e else x) = .ok a ↔ ¬ c ∧ x = .ok a := by
  by_cases h : c <;> simp [h]

/-- An error of a guarded computation is the guard's or one behind it. -/
theorem ite_error_cases {c : Prop} [Decidable c] {e e' : ε} {x : Except ε α}
    (h : (if c then .error e else x) = .error e') : e' = e ∨ x = .error e' := by
  by_cases hc : c
  · rw [if_pos hc] at h
    exact .inl (Except.error.inj h).symm
  · rw [if_neg hc] at h
    exact .inr h

theorem ofExcept_bind (r : Except ε α) (f : α → Except ε β) :
    (ofExcept (r >>= f) : Prog σ ε β) = ofExcept r >>= fun a => ofExcept (f a) := by
  cases r <;> rfl

theorem ofExcept_pure (a : α) : (ofExcept (pure a) : Prog σ ε α) = pure a := rfl

theorem ofExcept_throwIf {c : Prop} [Decidable c] {e : ε} :
    (ofExcept (throwIf c e) : Prog σ ε Unit) = throwIf c e := by
  unfold throwIf; split <;> rfl

/-! ### What a run ends in -/

/-- The run of `m` from `s` ends in `Q`. -/
def Ends (m : Prog σ ε α) (s : σ) (Q : Except ε α → σ → Prop) : Prop := Q (m s).1 (m s).2

theorem Ends.of_eq {m : Prog σ ε α} {s s' : σ} {r : Except ε α} {Q : Except ε α → σ → Prop}
    (h : m s = (r, s')) (hq : Q r s') : Ends m s Q := by
  rw [Ends, h]; exact hq

theorem Ends.mono {m : Prog σ ε α} {s : σ} {Q Q' : Except ε α → σ → Prop} (h : Ends m s Q)
    (hq : ∀ r s', Q r s' → Q' r s') : Ends m s Q' := hq _ _ h

theorem Ends.pure {a : α} {s : σ} {Q : Except ε α → σ → Prop} (h : Q (.ok a) s) :
    Ends (Pure.pure a) s Q := h

/-- Sequencing: an early stop is an early stop of the whole. -/
theorem Ends.bind {m : Prog σ ε α} {f : α → Prog σ ε β} {s : σ} {Q : Except ε β → σ → Prop}
    {R : Except ε α → σ → Prop} (hm : Ends m s R) (ok : ∀ a s', R (.ok a) s' → Ends (f a) s' Q)
    (stop : ∀ e s', R (.error e) s' → Q (.error e) s') : Ends (m >>= f) s Q := by
  unfold Ends at hm ⊢
  rw [bind_apply]
  rcases h : m s with ⟨e | a, s'⟩ <;> rw [h] at hm
  · exact stop e s' hm
  · exact ok a s' hm

/-- Sequencing after a run that is known. -/
theorem Ends.step {m : Prog σ ε α} {f : α → Prog σ ε β} {s s' : σ} {a : α} {Q : Except ε β → σ → Prop}
    (h : m s = (.ok a, s')) (hf : Ends (f a) s' Q) : Ends (m >>= f) s Q := by
  unfold Ends at hf ⊢
  rwa [bind_ok h]

theorem Ends.throwIf {c : Prop} [Decidable c] {e : ε} {f : Unit → Prog σ ε β} {s : σ}
    {Q : Except ε β → σ → Prop} (pos : c → Q (.error e) s) (neg : ¬ c → Ends (f ()) s Q) :
    Ends (throwIf c e >>= f) s Q := by
  by_cases h : c
  · rw [throwIf_pos h]; exact pos h
  · rw [throwIf_neg h]; exact neg h

theorem Ends.always {m : Prog σ ε α} {fin : Prog σ ε Unit} {s : σ} {Q : Except ε α → σ → Prop}
    {R : Except ε α → σ → Prop} (hm : Ends m s R)
    (hf : ∀ r s', R r s' → Ends fin s' fun r' s'' => (∀ e, r' = .error e → Q (.error e) s'') ∧
      (r' = .ok () → Q r s'')) : Ends (always m fin) s Q := by
  have h := hf _ _ hm
  unfold Ends at h ⊢
  unfold Prog.always
  rcases he : fin (m s).2 with ⟨e | a, s''⟩ <;> rw [he] at h
  · exact h.1 e rfl
  · exact h.2 rfl

theorem Ends.onStop {m : Prog σ ε α} {fin : Prog σ ε Unit} {s : σ} {Q R : Except ε α → σ → Prop}
    (hm : Ends m s R) (ok : ∀ a s', R (.ok a) s' → Q (.ok a) s')
    (stop : ∀ e s', R (.error e) s' → Ends fin s' fun r s'' => (∀ e', r = .error e' → Q (.error e') s'') ∧
      (r = .ok () → Q (.error e) s'')) : Ends (onStop m fin) s Q := by
  unfold Ends at hm ⊢
  unfold Prog.onStop
  rcases hr : m s with ⟨e | a, s'⟩ <;> rw [hr] at hm
  · have h := stop e s' hm
    unfold Ends at h
    dsimp only
    rcases he : fin s' with ⟨e' | u, s''⟩ <;> rw [he] at h
    · exact h.1 e' rfl
    · exact h.2 rfl
  · exact ok a s' hm

/-! ### What any run gives -/

/-- A value in `G`, or a stop in `E`. -/
def Outcome (G : α → Prop) (E : ε → Prop) : Except ε α → Prop
  | .ok a => G a
  | .error e => E e

/-- Whatever state it is started in, `m` ends with a value in `G` or stops with one in `E`. -/
def Gives (m : Prog σ ε α) (G : α → Prop) (E : ε → Prop) : Prop := ∀ s, Outcome G E (m s).1

section Gives

variable {F : α → Prop} {G : β → Prop} {E : ε → Prop}

theorem Gives.pure {a : α} (h : F a) : Gives (Pure.pure a : Prog σ ε α) F E := fun _ => h

theorem Gives.throw {e : ε} (h : E e) : Gives (MonadExcept.throw e : Prog σ ε α) F E := fun _ => h

theorem Gives.mono {F' : α → Prop} {m : Prog σ ε α} (h : Gives m F E) (hf : ∀ a, F a → F' a) : Gives m F' E := by
  intro s
  have hs := h s
  cases hr : (m s).1 with
  | error e => rwa [hr] at hs
  | ok a =>
    rw [hr] at hs
    exact hf a hs

/-- Whatever it stops with. -/
theorem Gives.any {m : Prog σ ε α} (h : Gives m F E) : Gives m F fun _ => True := by
  intro s
  have hs := h s
  cases hr : (m s).1 with
  | error e => trivial
  | ok a => rwa [hr] at hs

theorem Gives.bind {m : Prog σ ε α} {f : α → Prog σ ε β} (hm : Gives m F E) (hf : ∀ a, F a → Gives (f a) G E) :
    Gives (m >>= f) G E := by
  intro s
  have h := hm s
  rw [bind_apply]
  rcases hms : m s with ⟨e | a, s'⟩ <;> rw [hms] at h
  · exact h
  · exact hf a h s'

theorem Gives.throwIf {c : Prop} [Decidable c] {e : ε} {f : Unit → Prog σ ε β} (pos : c → E e)
    (neg : ¬ c → Gives (f ()) G E) : Gives (throwIf c e >>= f) G E := by
  by_cases h : c
  · rw [throwIf_pos h]
    exact Gives.throw (pos h)
  · rw [throwIf_neg h]
    exact neg h

theorem Gives.ofExcept {r : Except ε α} (ok : ∀ a, r = .ok a → F a) (stop : ∀ e, r = .error e → E e) :
    Gives (ofExcept r : Prog σ ε α) F E := by
  intro s
  cases r with
  | error e => exact stop e rfl
  | ok a => exact ok a rfl

end Gives

/-! ### What no run changes -/

/-- No run of `m` changes what `v` sees of the state. -/
def Keeps (v : σ → τ) (m : Prog σ ε α) : Prop := ∀ s, v (m s).2 = v s

section Keeps

variable {v : σ → τ} {m : Prog σ ε α} {f : α → Prog σ ε β} {fin : Prog σ ε Unit}

theorem Keeps.of_run {s s' : σ} {r : Except ε α} (hm : Keeps v m) (h : m s = (r, s')) : v s' = v s := by
  have hs := hm s
  rwa [h] at hs

theorem Keeps.pure {a : α} : Keeps v (Pure.pure a : Prog σ ε α) := fun _ => rfl

theorem Keeps.throw {e : ε} : Keeps v (MonadExcept.throw e : Prog σ ε α) := fun _ => rfl

theorem Keeps.bind (hm : Keeps v m) (hf : ∀ a, Keeps v (f a)) : Keeps v (m >>= f) := by
  intro s
  have h := hm s
  rw [bind_apply]
  rcases hms : m s with ⟨e | a, s'⟩ <;> rw [hms] at h
  · exact h
  · exact (hf a s').trans h

theorem Keeps.throwIf {c : Prop} [Decidable c] {e : ε} : Keeps v (throwIf c e : Prog σ ε Unit) := by
  unfold Prog.throwIf
  split
  · exact Keeps.throw
  · exact Keeps.pure

/-- A run of a part of the state changes nothing outside of it. -/
theorem Keeps.zoom {ρ : Type} {get : σ → ρ} {set : ρ → σ → σ} {lift : ε' → ε} {m : Prog ρ ε' α}
    (hset : ∀ t s, v (set t s) = v s) : Keeps v (Prog.zoom get set lift m) := by
  intro s
  unfold Prog.zoom
  rcases m (get s) with ⟨e | a, t⟩ <;> exact hset t s

end Keeps

/-! ### What every run stays in -/

/-- Every run of `m` from `I` ends in `I`, and stops early with one in `E` only. -/
def Stays (I : σ → Prop) (E : ε → Prop) (m : Prog σ ε α) : Prop :=
  ∀ s, I s → I (m s).2 ∧ ∀ e, (m s).1 = .error e → E e

section Stays

variable {I : σ → Prop} {E : ε → Prop} {m : Prog σ ε α} {f : α → Prog σ ε β}

theorem Stays.of_ends (h : ∀ s, I s → Ends m s fun r s' => I s' ∧ ∀ e, r = .error e → E e) : Stays I E m := h

theorem Stays.pure {a : α} : Stays I E (Pure.pure a : Prog σ ε α) := fun _ hs => ⟨hs, fun _ he => (by cases he)⟩

theorem Stays.throw {e : ε} (h : E e) : Stays I E (MonadExcept.throw e : Prog σ ε α) :=
  fun _ hs => ⟨hs, fun _ he => Except.error.inj he ▸ h⟩

theorem Stays.bind (hm : Stays I E m) (hf : ∀ a, Stays I E (f a)) : Stays I E (m >>= f) := by
  intro s hs
  have h := hm s hs
  rw [bind_apply]
  rcases hms : m s with ⟨e | a, s'⟩ <;> rw [hms] at h
  · exact ⟨h.1, fun e' he => Except.error.inj he ▸ h.2 e rfl⟩
  · exact hf a s' h.1

theorem Stays.ends {s : σ} (hm : Stays I E m) (hs : I s) :
    Ends m s fun r s' => I s' ∧ ∀ e, r = .error e → E e := hm s hs

end Stays

/-! ### Refinement -/

/-- `m` over a big state refines `m'` over the view `v` of it, from `s` on: both
end with values related by `R` or both stop, `m` with the image of what `m'`
stops with, and the view of the state `m` leaves is the state `m'` leaves. -/
def Sim (v : σ → τ) (lift : ε' → ε) (m : Prog σ ε α) (m' : Prog τ ε' β) (s : σ)
    (R : α → β → σ → Prop) (E : σ → Prop) : Prop :=
  (∃ a b s1, m s = (.ok a, s1) ∧ m' (v s) = (.ok b, v s1) ∧ R a b s1) ∨
  (∃ e s1, m s = (.error (lift e), s1) ∧ m' (v s) = (.error e, v s1) ∧ E s1)

variable {v : σ → τ} {lift : ε' → ε} {s : σ}

theorem Sim.pure {a : α} {b : β} {R : α → β → σ → Prop} {E : σ → Prop} (h : R a b s) :
    Sim v lift (Pure.pure a) (Pure.pure b) s R E := .inl ⟨a, b, s, rfl, rfl, h⟩

theorem Sim.throw {e : ε'} {R : α → β → σ → Prop} {E : σ → Prop} (h : E s) :
    Sim v lift (MonadExcept.throw (lift e)) (MonadExcept.throw e) s R E := .inr ⟨e, s, rfl, rfl, h⟩

theorem Sim.mono {m : Prog σ ε α} {m' : Prog τ ε' β} {R R' : α → β → σ → Prop} {E E' : σ → Prop}
    (h : Sim v lift m m' s R E) (hR : ∀ a b s1, R a b s1 → R' a b s1) (hE : ∀ s1, E s1 → E' s1) :
    Sim v lift m m' s R' E' := by
  rcases h with ⟨a, b, s1, h1, h2, h3⟩ | ⟨e, s1, h1, h2, h3⟩
  · exact .inl ⟨a, b, s1, h1, h2, hR _ _ _ h3⟩
  · exact .inr ⟨e, s1, h1, h2, hE _ h3⟩

theorem Sim.bind {m : Prog σ ε α} {m' : Prog τ ε' β} {f : α → Prog σ ε γ} {f' : β → Prog τ ε' δ}
    {R : α → β → σ → Prop} {R' : γ → δ → σ → Prop} {E E' : σ → Prop} (h : Sim v lift m m' s R E)
    (ok : ∀ a b s1, R a b s1 → Sim v lift (f a) (f' b) s1 R' E') (stop : ∀ s1, E s1 → E' s1) :
    Sim v lift (m >>= f) (m' >>= f') s R' E' := by
  rcases h with ⟨a, b, s1, h1, h2, h3⟩ | ⟨e, s1, h1, h2, h3⟩
  · have := ok a b s1 h3
    unfold Sim
    rw [bind_ok h1, bind_ok h2]
    exact this
  · exact .inr ⟨e, s1, bind_error h1, bind_error h2, stop s1 h3⟩

theorem Sim.throwIf {c : Prop} [Decidable c] {e : ε'} {f : Unit → Prog σ ε γ} {f' : Unit → Prog τ ε' δ}
    {R : γ → δ → σ → Prop} {E : σ → Prop} (pos : c → E s)
    (neg : ¬ c → Sim v lift (f ()) (f' ()) s R E) :
    Sim v lift (throwIf c (lift e) >>= f) (throwIf c e >>= f') s R E := by
  by_cases h : c
  · rw [throwIf_pos h, throwIf_pos h]; exact Sim.throw (pos h)
  · rw [throwIf_neg h, throwIf_neg h]; exact neg h

/-- A check of the big program that never fires. -/
theorem Sim.checked {c : Prop} [Decidable c] {e : ε} {f : Unit → Prog σ ε γ} {m' : Prog τ ε' δ}
    {R : γ → δ → σ → Prop} {E : σ → Prop} (h : ¬ c) (hf : Sim v lift (f ()) m' s R E) :
    Sim v lift (Prog.throwIf c e >>= f) m' s R E := by
  rwa [throwIf_neg h]

/-- A step of the big program that the view does not show. -/
theorem Sim.skip {m : Prog σ ε α} {f : α → Prog σ ε γ} {m' : Prog τ ε' δ} {a : α} {s1 : σ}
    {R : γ → δ → σ → Prop} {E : σ → Prop} (h : m s = (.ok a, s1)) (hv : v s1 = v s)
    (hf : Sim v lift (f a) m' s1 R E) : Sim v lift (m >>= f) m' s R E := by
  unfold Sim at hf ⊢
  rwa [bind_ok h, ← hv]

/-- What is left of the big program is not shown by the view and does not stop. -/
theorem Sim.tail {m : Prog σ ε α} {f : α → Prog σ ε γ} {m' : Prog τ ε' β} {R : α → β → σ → Prop}
    {R' : γ → β → σ → Prop} {E E' : σ → Prop} (h : Sim v lift m m' s R E)
    (ok : ∀ a b s1, R a b s1 → ∃ c s2, f a s1 = (.ok c, s2) ∧ v s2 = v s1 ∧ R' c b s2)
    (stop : ∀ s1, E s1 → E' s1) : Sim v lift (m >>= f) m' s R' E' := by
  rcases h with ⟨a, b, s1, h1, h2, h3⟩ | ⟨e, s1, h1, h2, h3⟩
  · obtain ⟨c, s2, h4, h5, h6⟩ := ok a b s1 h3
    exact .inl ⟨c, b, s2, by rw [bind_ok h1, h4], by rw [h2, h5], h6⟩
  · exact .inr ⟨e, s1, bind_error h1, h2, stop s1 h3⟩

/-- When the big program ends with a value, so does the small one, with a related one. -/
theorem Sim.of_ok {m : Prog σ ε α} {m' : Prog τ ε' β} {R : α → β → σ → Prop} {E : σ → Prop} {a : α} {s1 : σ}
    (h : Sim v lift m m' s R E) (he : m s = (.ok a, s1)) : ∃ b, m' (v s) = (.ok b, v s1) ∧ R a b s1 := by
  rcases h with ⟨a', b, s1', h1, h2, h3⟩ | ⟨e, s1', h1, -, -⟩ <;> rw [h1] at he <;> cases he
  exact ⟨b, h2, h3⟩

/-- The small program changes its value at the end. -/
theorem Sim.map {m : Prog σ ε α} {m' : Prog τ ε' β} {f : β → δ} {R : α → β → σ → Prop}
    {R' : α → δ → σ → Prop} {E E' : σ → Prop} (h : Sim v lift m m' s R E)
    (ok : ∀ a b s1, R a b s1 → R' a (f b) s1) (stop : ∀ s1, E s1 → E' s1) :
    Sim v lift m (m' >>= fun b => Pure.pure (f b)) s R' E' := by
  rcases h with ⟨a, b, s1, h1, h2, h3⟩ | ⟨e, s1, h1, h2, h3⟩
  · exact .inl ⟨a, f b, s1, h1, bind_ok h2, ok a b s1 h3⟩
  · exact .inr ⟨e, s1, h1, bind_error h2, stop s1 h3⟩

/-- A step that both programs take, the small one on the view. -/
theorem Sim.zoom {set : τ → σ → σ} {m : Prog τ ε' α} (hset : ∀ t s, v (set t s) = t) :
    Sim v lift (Prog.zoom v set lift m) m s (fun a b s1 => a = b ∧ ∃ t, s1 = set t s)
      (fun s1 => ∃ t, s1 = set t s) := by
  unfold Sim Prog.zoom
  rcases m (v s) with ⟨e | a, t⟩
  · exact .inr ⟨e, set t s, rfl, by rw [hset], t, rfl⟩
  · exact .inl ⟨a, a, set t s, rfl, by rw [hset], rfl, t, rfl⟩

/-- A computation that touches no state on either side. -/
theorem Sim.ofExcept {r : Except ε α} {r' : Except ε' α} {R : α → α → σ → Prop} {E : σ → Prop}
    (h : r = r'.mapError lift) (hR : ∀ a, r' = .ok a → R a a s) (hE : E s) :
    Sim v lift (Prog.ofExcept r) (Prog.ofExcept r') s R E := by
  subst h
  cases r' with
  | error e => exact .inr ⟨e, s, rfl, rfl, hE⟩
  | ok a => exact .inl ⟨a, a, s, rfl, rfl, hR a rfl⟩

/-- A clean-up that the view does not show. -/
theorem Sim.always {m : Prog σ ε α} {m' : Prog τ ε' β} {fin : Prog σ ε Unit}
    {R R' : α → β → σ → Prop} {E E' : σ → Prop} (h : Sim v lift m m' s R E)
    (ok : ∀ a b s1, R a b s1 → ∃ s2, fin s1 = (.ok (), s2) ∧ v s2 = v s1 ∧ R' a b s2)
    (stop : ∀ s1, E s1 → ∃ s2, fin s1 = (.ok (), s2) ∧ v s2 = v s1 ∧ E' s2) :
    Sim v lift (Prog.always m fin) m' s R' E' := by
  rcases h with ⟨a, b, s1, h1, h2, h3⟩ | ⟨e, s1, h1, h2, h3⟩
  · obtain ⟨s2, f1, f2, h4⟩ := ok a b s1 h3
    exact .inl ⟨a, b, s2, by simp [Prog.always, h1, f1], by rw [h2, f2], h4⟩
  · obtain ⟨s2, f1, f2, h4⟩ := stop s1 h3
    exact .inr ⟨e, s2, by simp [Prog.always, h1, f1], by rw [h2, f2], h4⟩

theorem Sim.onStop {m : Prog σ ε α} {m' : Prog τ ε' β} {fin : Prog σ ε Unit}
    {R : α → β → σ → Prop} {E E' : σ → Prop} (h : Sim v lift m m' s R E)
    (stop : ∀ s1, E s1 → ∃ s2, fin s1 = (.ok (), s2) ∧ v s2 = v s1 ∧ E' s2) :
    Sim v lift (Prog.onStop m fin) m' s R E' := by
  rcases h with ⟨a, b, s1, h1, h2, h3⟩ | ⟨e, s1, h1, h2, h3⟩
  · exact .inl ⟨a, b, s1, by simp [Prog.onStop, h1], by rw [h2], h3⟩
  · obtain ⟨s2, f1, f2, h4⟩ := stop s1 h3
    exact .inr ⟨e, s2, by simp [Prog.onStop, h1, f1], by rw [h2, f2], h4⟩

end Prog
end Lib
