/-
# The calls of the programs without memory

The reader and the writer are made of the same few calls: an allocation, a
draw, a derivation, and what is asked of the AEAD and of zlib. Each has one
rule for what it logs (`logs_alloc`, `logs_fill`, `logs_scrypt`, `logs_ask`),
one for what it can end in (`gives_alloc`, `gives_scrypt`, `gives_ask`), and
one for what it answers where nothing fails (`yields_alloc`, `yields_fill`,
`yields_scrypt`, `yields_ask`).

Key theorems: `logs_alloc`, `logs_ask`, `gives_ask`, `yields_alloc`, `yields_ask`.
-/
import ModelCrypt.Primitives
import ModelCrypt.Lib.Trace

namespace ModelCrypt

open Lib Prog

/-! ### How each call runs -/

section Runs

variable {w : World} {tr : List Event}

theorem Ref.alloc_eq {name : BufName} {size : ℕ} (h0 : size ≠ 0) :
    Ref.alloc w name size tr = if w.alloc tr.length size then (.ok (), tr ++ [.alloc name size true])
      else (.error .errMemory, tr ++ [.alloc name size false]) := by
  unfold Ref.alloc
  rw [if_neg h0]
  show Ref.returnIf (w.alloc tr.length size = false) .errMemory (tr ++ [.alloc name size (w.alloc tr.length size)]) = _
  cases w.alloc tr.length size <;> rfl

theorem Ref.scrypt_eq {a : ScryptArgs} : Ref.scrypt w a tr =
    ((w.scrypt tr.length a).elim (.error .errCrypto) .ok, tr ++ [.derived a (w.scrypt tr.length a)]) := by
  have hclock : Ref.clock tr = (.ok tr.length, tr) := rfl
  have hemit : Ref.emit (.derived a (w.scrypt tr.length a)) tr =
    (.ok (), tr ++ [.derived a (w.scrypt tr.length a)]) := rfl
  rw [Ref.scrypt, bind_ok hclock, bind_ok hemit]
  cases w.scrypt tr.length a <;> rfl

theorem fill_eq {n : ℕ} (h0 : n ≠ 0) (hn : n ≤ int32Max) : fill w n tr =
    ((w.rand tr.length n).elim (.error .errCrypto) .ok, tr ++ [.drawn n ((w.rand tr.length n).map Subtype.val)]) := by
  have hclock : Ref.clock tr = (.ok tr.length, tr) := rfl
  have hemit : Ref.emit (.drawn n ((w.rand tr.length n).map Subtype.val)) tr =
      (.ok (), tr ++ [.drawn n ((w.rand tr.length n).map Subtype.val)]) := rfl
  rw [fill, Ref.returnIf, throwIf_neg h0, Ref.returnIf, throwIf_neg (Nat.not_lt.mpr hn), bind_ok hclock, bind_ok hemit]
  cases w.rand tr.length n <;> rfl

theorem Ref.deriveKey_eq {key : Span} {salt : Bytes} {logN : UInt8} {r p : UInt32}
    (hk : key.isNull = false) (hs : mcMinKeySize ≤ key.size) (hsalt : salt.length = kSaltSize) :
    Ref.deriveKey w key salt logN r p =
      Ref.alloc w .derived kKeySize >>= fun _ => Ref.scrypt w (scryptArgs key.toBytes salt logN r p) := by
  rw [Ref.deriveKey, Ref.returnIf, throwIf_neg (by simp [hk]), Ref.returnIf, throwIf_neg]
  rintro (h | h)
  · exact absurd h (Nat.not_lt.mpr hs)
  · exact h hsalt

/-- An allocation happens at no time that `p` picks, if `p` picks no allocation. -/
theorem Ref.keeps_alloc {p : Event → Bool} (hp : ∀ name n ok, p (.alloc name n ok) = false) (name : BufName)
    (size : ℕ) :
    Keeps (times p) (Ref.alloc w name size) := by
  intro tr
  by_cases h0 : size = 0
  · subst h0
    rfl
  · rw [Ref.alloc_eq h0]
    split
    · exact times_snoc_of_not (hp ..)
    · exact times_snoc_of_not (hp ..)

end Runs

/-! ### What each call logs -/

section Logs

variable {w : World} {A : List Event → Event → Prop} {tr0 hist : List Event}

theorem logs_emit {e : Event} (hA : A hist e) :
    Logs A tr0 (Ref.emit e) hist fun r hist' => r = .ok () ∧ hist' = hist ++ [e] :=
  Logs.step rfl hA ⟨rfl, rfl⟩

theorem logs_ask {α : Type} {ev : Except McStatus α → Event} {r : ℕ → Except McStatus α} (hA : ∀ x, A hist (ev x)) :
    Logs A tr0 (Ref.ask ev r) hist fun x hist' => hist' = hist ++ [ev x] ∧ ∃ t, x = r t :=
  Logs.step rfl (hA _) ⟨rfl, _, rfl⟩

theorem logs_alloc {name : BufName} {size : ℕ} (hA : ∀ ok, size ≠ 0 → A hist (.alloc name size ok)) :
    Logs A tr0 (Ref.alloc w name size) hist fun _ hist' =>
      hist' = hist ∨ ∃ ok, hist' = hist ++ [.alloc name size ok] := by
  by_cases h0 : size = 0
  · subst h0
    exact Logs.pure (.inl rfl)
  have hrun : Ref.alloc w name size (tr0 ++ hist) = _ := Ref.alloc_eq h0
  split at hrun
  · exact Logs.step hrun (hA _ h0) (.inr ⟨_, rfl⟩)
  · exact Logs.step hrun (hA _ h0) (.inr ⟨_, rfl⟩)

theorem logs_scrypt {a : ScryptArgs} (hA : ∀ t, A hist (.derived a (w.scrypt t a))) :
    Logs A tr0 (Ref.scrypt w a) hist fun r hist' =>
      ∃ t, hist' = hist ++ [.derived a (w.scrypt t a)] ∧ ∀ x, r = .ok x → w.scrypt t a = some x := by
  refine Logs.step Ref.scrypt_eq (hA _) ⟨_, rfl, fun x hx => ?_⟩
  rcases hk : w.scrypt (tr0 ++ hist).length a with _ | k <;> rw [hk] at hx <;> cases hx
  rfl

theorem logs_fill {n : ℕ} (h0 : n ≠ 0) (hn : n ≤ int32Max) (hA : ∀ b, A hist (.drawn n b)) :
    Logs A tr0 (fill w n) hist fun r hist' =>
      ∃ b : Option (ByteVec n), hist' = hist ++ [.drawn n (b.map Subtype.val)] ∧ ∀ x, r = .ok x → b = some x := by
  refine Logs.step (fill_eq h0 hn) (hA _) ⟨w.rand (tr0 ++ hist).length n, rfl, fun x hx => ?_⟩
  rcases hb : w.rand (tr0 ++ hist).length n with _ | b <;> rw [hb] at hx <;> cases hx
  rfl

end Logs

/-! ### What each call gives -/

section Gives

variable {w : World} {E : McStatus → Prop}

theorem gives_emit {e : Event} : Gives (Ref.emit e) (fun _ => True) E := fun _ => trivial

theorem gives_ask {α : Type} {ev : Except McStatus α → Event} {r : ℕ → Except McStatus α} {F : α → Prop}
    (ok : ∀ t a, r t = .ok a → F a) (stop : ∀ t e, r t = .error e → E e) : Gives (Ref.ask ev r) F E := by
  intro tr
  show Outcome F E (r tr.length)
  rcases hr : r tr.length with e | a
  · exact stop _ e hr
  · exact ok _ a hr

theorem gives_alloc {name : BufName} {size : ℕ} (he : E .errMemory) :
    Gives (Ref.alloc w name size) (fun _ => True) E := by
  by_cases h0 : size = 0
  · subst h0
    exact fun _ => trivial
  · intro tr
    rw [Ref.alloc_eq h0]
    split
    · trivial
    · exact he

theorem gives_scrypt {a : ScryptArgs} (he : E .errCrypto) :
    Gives (Ref.scrypt w a) (fun k => ∃ t, w.scrypt t a = some k) E := by
  intro tr
  rw [Ref.scrypt_eq]
  rcases hk : w.scrypt tr.length a with _ | k
  · exact he
  · exact ⟨_, hk⟩

end Gives

/-! ### What each call answers where nothing fails -/

section Yields

variable {w : World} {t : ℕ}

theorem yields_step {α : Type} {m : Ref α} {Q : α → Prop}
    (h : ∀ tr, t ≤ tr.length → ∃ a e, m tr = (.ok a, tr ++ [e]) ∧ Q a) : Yields t m Q := by
  intro tr ht
  obtain ⟨a, e, hm, hq⟩ := h tr ht
  refine ⟨a, tr ++ [e], ?_, hm, hq⟩
  rw [List.length_append]
  omega

theorem yields_emit {e : Event} : Yields t (Ref.emit e) fun _ => True :=
  yields_step fun _ _ => ⟨(), e, rfl, trivial⟩

theorem yields_ask {α : Type} {ev : Except McStatus α → Event} {r : ℕ → Except McStatus α} {Q : α → Prop}
    (h : ∀ t', t ≤ t' → ∃ a, r t' = .ok a ∧ Q a) : Yields t (Ref.ask ev r) Q := by
  refine yields_step fun tr ht => ?_
  obtain ⟨a, ha, hq⟩ := h _ ht
  refine ⟨a, ev (r tr.length), ?_, hq⟩
  rw [Ref.ask, ha]

theorem fails_ask {α : Type} {ev : Except McStatus α → Event} {r : ℕ → Except McStatus α} {e : McStatus}
    (h : ∀ t', t ≤ t' → r t' = .error e) : Fails t (Ref.ask ev r) e := fun tr ht => h tr.length ht

theorem yields_alloc {name : BufName} {size : ℕ} (h : ∀ t', t ≤ t' → w.alloc t' size = true) :
    Yields t (Ref.alloc w name size) fun _ => True := by
  by_cases h0 : size = 0
  · subst h0
    exact Yields.pure trivial
  · refine yields_step fun tr ht => ⟨(), .alloc name size true, ?_, trivial⟩
    rw [Ref.alloc_eq h0, if_pos (h _ ht)]

theorem yields_scrypt {a : ScryptArgs} {Q : ByteVec kKeySize → Prop}
    (h : ∀ t', t ≤ t' → ∃ k, w.scrypt t' a = some k ∧ Q k) : Yields t (Ref.scrypt w a) Q := by
  refine yields_step fun tr ht => ?_
  obtain ⟨k, hk, hq⟩ := h _ ht
  refine ⟨k, .derived a (some k), ?_, hq⟩
  rw [Ref.scrypt_eq, hk]
  rfl

theorem yields_fill {n : ℕ} (h0 : n ≠ 0) (hn : n ≤ int32Max) (h : ∀ t', t ≤ t' → (w.rand t' n).isSome = true) :
    Yields t (fill w n) fun _ => True := by
  refine yields_step fun tr ht => ?_
  obtain ⟨b, hb⟩ := Option.isSome_iff_exists.mp (h _ ht)
  refine ⟨b, .drawn n (some b.1), ?_, trivial⟩
  rw [fill_eq h0 hn, hb]
  rfl

end Yields

end ModelCrypt
