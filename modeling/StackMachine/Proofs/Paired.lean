import Mathlib
import StackMachine.Fault

/-!
# Results of actions, and pairs of them

An action gives a result or fails. `Ensures` says something of both outcomes, and `Ensures.bind` is
the rule by which what is known of the parts of a program is put together.

Two machines are compared step by step: an action of one and an action of the other either both
give a result or both fail with the same fault. `Paired` says so of two results, and
`Paired.bind` is the rule by which the comparison of two programs is put together from the
comparisons of their parts. Where the two programs are the same, `Carries` and `Respects` say that
they keep related states related.
-/

namespace StackMachine

variable {σ τ α β γ δ : Type}

theorem bind_of_ok {x : EStateM Fault σ α} {f : α → EStateM Fault σ γ} {s s' : σ} {a : α}
    (h : x s = .ok a s') : (x >>= f) s = f a s' := by
  change EStateM.bind x f s = _
  rw [EStateM.bind, h]

theorem bind_of_error {x : EStateM Fault σ α} {f : α → EStateM Fault σ γ} {s s' : σ} {e : Fault}
    (h : x s = .error e s') : (x >>= f) s = .error e s' := by
  change EStateM.bind x f s = _
  rw [EStateM.bind, h]

/-- A result is a value, which satisfies `ok` along with the state that is left, or a fault, which
    satisfies `failed`. -/
def Ensures (ok : α → σ → Prop) (failed : Fault → σ → Prop) : EStateM.Result Fault σ α → Prop
  | .ok a s => ok a s
  | .error e s => failed e s

namespace Ensures

variable {ok : α → σ → Prop} {ok' : β → σ → Prop} {failed : Fault → σ → Prop}

theorem bind {x : EStateM Fault σ α} {f : α → EStateM Fault σ β} {s : σ}
    (h : Ensures ok failed (x s)) (k : ∀ a s, ok a s → Ensures ok' failed (f a s)) :
    Ensures ok' failed ((x >>= f) s) := by
  cases hx : x s with
  | ok a s' =>
    rw [hx] at h
    rw [bind_of_ok hx]
    exact k a s' h
  | error e s' =>
    rw [hx] at h
    rw [bind_of_error hx]
    exact h

/-- Two programs that go on in the same way do the same. -/
theorem bind_congr {x : EStateM Fault σ α} {f g : α → EStateM Fault σ β} {s : σ}
    (h : Ensures ok failed (x s)) (k : ∀ a s, ok a s → f a s = g a s) :
    (x >>= f) s = (x >>= g) s := by
  cases hx : x s with
  | ok a s' =>
    rw [hx] at h
    rw [bind_of_ok hx, bind_of_ok hx]
    exact k a s' h
  | error e s' => rw [bind_of_error hx, bind_of_error hx]

theorem mono {ok' : α → σ → Prop} {x : EStateM.Result Fault σ α} (h : Ensures ok failed x)
    (k : ∀ a s, ok a s → ok' a s) : Ensures ok' failed x := by
  cases x with
  | ok a s => exact k a s h
  | error e s => exact h

theorem weaken {failed' : Fault → σ → Prop} {x : EStateM.Result Fault σ α}
    (h : Ensures ok failed x) (k : ∀ e s, failed e s → failed' e s) : Ensures ok failed' x := by
  cases x with
  | ok a s => exact h
  | error e s => exact k e s h

/-- What is known of the values from one side and of the faults from another. -/
theorem withFailed {failed' : Fault → σ → Prop} {ok' : α → σ → Prop}
    {x : EStateM.Result Fault σ α} (h : Ensures ok failed x) (h' : Ensures ok' failed' x) :
    Ensures ok failed' x := by
  cases x with
  | ok a s => exact h
  | error e s => exact h'

end Ensures

/-- Two results go together: both are values, related by `ok` along with the states they leave,
    or both are the same fault, and `failed` relates the states. -/
def Paired (ok : α → β → σ → τ → Prop) (failed : σ → τ → Prop) :
    EStateM.Result Fault σ α → EStateM.Result Fault τ β → Prop
  | .ok a s, .ok b t => ok a b s t
  | .error e s, .error e' t => e = e' ∧ failed s t
  | _, _ => False

namespace Paired

variable {ok : α → β → σ → τ → Prop} {ok' : γ → δ → σ → τ → Prop} {failed : σ → τ → Prop}

/-- What the first parts leave behind is where the second parts start. -/
theorem bind {x : EStateM Fault σ α} {y : EStateM Fault τ β} {f : α → EStateM Fault σ γ}
    {g : β → EStateM Fault τ δ} {s : σ} {t : τ} (h : Paired ok failed (x s) (y t))
    (k : ∀ a b s t, ok a b s t → Paired ok' failed (f a s) (g b t)) :
    Paired ok' failed ((x >>= f) s) ((y >>= g) t) := by
  change Paired ok' failed (EStateM.bind x f s) (EStateM.bind y g t)
  unfold EStateM.bind
  cases hx : x s with
  | ok a s' =>
    cases hy : y t with
    | ok b t' => rw [hx, hy] at h; exact k a b s' t' h
    | error e t' => rw [hx, hy] at h; exact h.elim
  | error e s' =>
    cases hy : y t with
    | ok b t' => rw [hx, hy] at h; exact h.elim
    | error e' t' => rw [hx, hy] at h; exact h

theorem mono {ok' : α → β → σ → τ → Prop} {x : EStateM.Result Fault σ α}
    {y : EStateM.Result Fault τ β} (h : Paired ok failed x y)
    (k : ∀ a b s t, ok a b s t → ok' a b s t) : Paired ok' failed x y := by
  cases x with
  | ok a s =>
    cases y with
    | ok b t => exact k a b s t h
    | error e t => exact h.elim
  | error e s =>
    cases y with
    | ok b t => exact h.elim
    | error e' t => exact h

theorem weaken {failed' : σ → τ → Prop} {x : EStateM.Result Fault σ α}
    {y : EStateM.Result Fault τ β} (h : Paired ok failed x y)
    (k : ∀ s t, failed s t → failed' s t) : Paired ok failed' x y := by
  cases x with
  | ok a s =>
    cases y with
    | ok b t => exact h
    | error e t => exact h.elim
  | error e s =>
    cases y with
    | ok b t => exact h.elim
    | error e' t => exact ⟨h.1, k s t h.2⟩

/-- A pair is a pair of values or a pair of faults. -/
theorem cases {x : EStateM.Result Fault σ α} {y : EStateM.Result Fault τ β}
    (h : Paired ok failed x y) :
    (∃ a b s t, x = .ok a s ∧ y = .ok b t ∧ ok a b s t) ∨
      ∃ e s t, x = .error e s ∧ y = .error e t ∧ failed s t := by
  cases x with
  | ok a s =>
    cases y with
    | ok b t => exact .inl ⟨a, b, s, t, rfl, rfl, h⟩
    | error e t => exact h.elim
  | error e s =>
    cases y with
    | ok b t => exact h.elim
    | error e' t =>
      obtain ⟨rfl, h⟩ := h
      exact .inr ⟨e, s, t, rfl, rfl, h⟩

end Paired

/-- From states that `R` relates the action gives the same result and leaves such states, or it
    fails with the same fault and leaves states that `F` relates. -/
def Carries (R F : σ → σ → Prop) (act : EStateM Fault σ α) : Prop :=
  ∀ ⦃s t⦄, R s t → Paired (fun a b s t => a = b ∧ R s t) F (act s) (act t)

namespace Carries

variable {R F : σ → σ → Prop}

theorem pure (a : α) : Carries R F (Pure.pure a) := fun _ _ h => ⟨rfl, h⟩

theorem bind {x : EStateM Fault σ α} {f : α → EStateM Fault σ β} (hx : Carries R F x)
    (hf : ∀ a, Carries R F (f a)) : Carries R F (x >>= f) := by
  intro s t h
  refine (hx h).bind ?_
  rintro a _ s' t' ⟨rfl, h'⟩
  exact hf a h'

end Carries

/-- From related states the action gives the same result, or the same fault, and leaves related
    states. -/
abbrev Respects (R : σ → σ → Prop) (act : EStateM Fault σ α) : Prop := Carries R R act

theorem Respects.throw {R : σ → σ → Prop} (e : Fault) :
    Respects R (MonadExcept.throw e : EStateM Fault σ α) := fun _ _ h => ⟨rfl, h⟩

/-- Two lookups go together: both give values, related by `R`, or both the same error. -/
inductive Lookups {ε : Type} (R : α → β → Prop) : Except ε α → Except ε β → Prop
  | found {a b} (h : R a b) : Lookups R (.ok a) (.ok b)
  | missing (e) : Lookups R (.error e) (.error e)

theorem Lookups.cases {ε : Type} {R : α → β → Prop} {x : Except ε α} {y : Except ε β}
    (h : Lookups R x y) :
    (∃ a b, x = .ok a ∧ y = .ok b ∧ R a b) ∨ ∃ e, x = .error e ∧ y = .error e := by
  cases h with
  | found hab => exact .inl ⟨_, _, rfl, rfl, hab⟩
  | missing e => exact .inr ⟨e, rfl, rfl⟩

theorem Lookups.refl {ε : Type} (x : Except ε α) : Lookups (· = ·) x x := by
  cases x with
  | ok a => exact .found rfl
  | error e => exact .missing e

end StackMachine
