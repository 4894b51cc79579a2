/-
# Triples with two ways out

`Triple P m Q E`: from a state in `P`, the program `m` ends with a value and a
state in `Q`, or stops early in `E`. There is one rule for each way that programs
are put together, and a program that is given by its parts is traversed by the
rules, with the condition between two parts named.

Key definitions: `Triple`.
Key theorems: `Triple.bind`, `Triple.always`, `Triple.onStop`, `Triple.tryCatch`.
-/
import ModelCrypt.Lib.Prog

namespace Lib.Prog

variable {σ ε α β γ : Type}

/-- From `P`, a run of `m` ends with a value in `Q` or stops in `E`. -/
def Triple (P : σ → Prop) (m : Prog σ ε α) (Q : α → σ → Prop) (E : ε → σ → Prop) : Prop :=
  ∀ s, P s → Ends m s fun r s' => (∀ a, r = .ok a → Q a s') ∧ ∀ e, r = .error e → E e s'

namespace Triple

variable {P P' : σ → Prop} {m : Prog σ ε α} {f : α → Prog σ ε β} {fin : Prog σ ε Unit} {Q Q' R : α → σ → Prop}
  {S : β → σ → Prop} {E E' F : ε → σ → Prop}

theorem pure {a : α} : Triple (Q a) (Pure.pure a : Prog σ ε α) Q E := fun _ hs =>
  ⟨fun _ ha => Except.ok.inj ha ▸ hs, fun _ he => by cases he⟩

theorem throw {e : ε} : Triple (E e) (MonadExcept.throw e : Prog σ ε α) Q E := fun _ hs =>
  ⟨fun _ ha => (by cases ha), fun _ he => Except.error.inj he ▸ hs⟩

/-- A stronger condition before, and weaker ones after. -/
theorem conseq (h : Triple P m Q E) (hp : ∀ s, P' s → P s) (hq : ∀ a s, Q a s → Q' a s) (he : ∀ e s, E e s → E' e s) :
    Triple P' m Q' E' := fun s hs => (h s (hp s hs)).mono fun _ s' hr =>
  ⟨fun a ha => hq a s' (hr.1 a ha), fun e h' => he e s' (hr.2 e h')⟩

theorem stop_mono (h : Triple P m Q E) (he : ∀ e s, E e s → E' e s) : Triple P m Q E' :=
  h.conseq (fun _ hs => hs) (fun _ _ hq => hq) he

theorem bind (hm : Triple P m R E) (hf : ∀ a, Triple (R a) (f a) S E) : Triple P (m >>= f) S E := by
  intro s hs
  refine Ends.bind (hm s hs) ?_ ?_
  · intro a s' h
    exact hf a s' (h.1 a rfl)
  · intro e s' h
    exact ⟨fun _ hb => (by cases hb), fun e' he => Except.error.inj he ▸ h.2 e rfl⟩

/-- What is done at the end is done after either way out. -/
theorem always (hm : Triple P m R F) (ok : ∀ a, Triple (R a) fin (fun _ => Q a) E)
    (stop : ∀ e, Triple (F e) fin (fun _ => E e) E) : Triple P (Prog.always m fin) Q E := by
  intro s hs
  refine Ends.always (hm s hs) ?_
  rintro (e | a) s' ⟨hok, hstop⟩
  · refine (stop e s' (hstop e rfl)).mono fun r s'' h => ⟨fun e' he => ?_, fun hr => ?_⟩
    · exact ⟨fun _ ha => (by cases ha), fun _ h' => Except.error.inj h' ▸ h.2 e' he⟩
    · exact ⟨fun _ ha => (by cases ha), fun _ h' => Except.error.inj h' ▸ h.1 () hr⟩
  · refine (ok a s' (hok a rfl)).mono fun r s'' h => ⟨fun e' he => ?_, fun hr => ?_⟩
    · exact ⟨fun _ ha => (by cases ha), fun _ h' => Except.error.inj h' ▸ h.2 e' he⟩
    · exact ⟨fun _ ha => Except.ok.inj ha ▸ h.1 () hr, fun _ h' => by cases h'⟩

theorem onStop (hm : Triple P m Q F) (stop : ∀ e, Triple (F e) fin (fun _ => E e) E) :
    Triple P (Prog.onStop m fin) Q E := by
  intro s hs
  refine Ends.onStop (hm s hs) ?_ ?_
  · intro a s' h
    exact ⟨fun _ ha => Except.ok.inj ha ▸ h.1 a rfl, fun _ he => by cases he⟩
  · intro e s' h
    refine (stop e s' (h.2 e rfl)).mono fun r s'' h' => ⟨fun e' he => ?_, fun hr => ?_⟩
    · exact ⟨fun _ ha => (by cases ha), fun _ h'' => Except.error.inj h'' ▸ h'.2 e' he⟩
    · exact ⟨fun _ ha => (by cases ha), fun _ h'' => Except.error.inj h'' ▸ h'.1 () hr⟩

theorem tryCatch {handler : ε → Prog σ ε α} (hm : Triple P m Q F) (hh : ∀ e, Triple (F e) (handler e) Q E) :
    Triple P (tryCatchThe ε m handler) Q E := by
  intro s hs
  have h := hm s hs
  unfold Ends at h ⊢
  rw [catch_apply]
  rcases hr : m s with ⟨e | a, s'⟩ <;> rw [hr] at h
  · exact hh e s' (h.2 e rfl)
  · exact ⟨h.1, fun _ he => by cases he⟩

/-- What a program leaves alone still holds. -/
theorem of_keeps {v : σ → γ} (h : Keeps v m) (I : γ → Prop) :
    Triple (fun s => I (v s)) m (fun _ s => I (v s)) fun _ s => I (v s) := by
  intro s hs
  have hv : I (v (m s).2) := (h s).symm ▸ hs
  exact ⟨fun _ _ => hv, fun _ _ => hv⟩

end Triple

end Lib.Prog
