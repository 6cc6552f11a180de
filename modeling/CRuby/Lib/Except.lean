import Mathlib.Logic.Basic

/-!
# Successful computations in `Except`

Functions that can raise are modelled in `Except`. A bind or a map that succeeds succeeded at
its first step: `bind_eq_ok` and `map_eq_ok` take such a computation apart, so that a proof
about a function built with `do` can follow its steps with `obtain` and never unfold `bind`.
-/

namespace Except

/-- A bind after a step that succeeded is its next step. -/
theorem ok_bind {ε α β : Type} (a : α) (f : α → Except ε β) : (Except.ok a >>= f) = f a := rfl

theorem bind_eq_ok {ε α β : Type} {x : Except ε α} {f : α → Except ε β} {r : β}
    (h : x >>= f = .ok r) : ∃ a, x = .ok a ∧ f a = .ok r := by
  cases x with
  | error e => cases h
  | ok a => exact ⟨a, rfl, h⟩

theorem map_eq_ok {ε α β : Type} {x : Except ε α} {f : α → β} {r : β}
    (h : f <$> x = .ok r) : ∃ a, x = .ok a ∧ f a = r := by
  cases x with
  | error e => cases h
  | ok a => exact ⟨a, rfl, Except.ok.inj h⟩

/-- A bind that raises raised at its first step or at the second. -/
theorem bind_eq_error {ε α β : Type} {x : Except ε α} {f : α → Except ε β} {e : ε} :
    x >>= f = .error e ↔ x = .error e ∨ ∃ a, x = .ok a ∧ f a = .error e := by
  cases x with
  | error e' => simp [bind, Except.bind]
  | ok a => simp [bind, Except.bind]

/-- A map after a map, as one: the step of a loop that conses what it read onto the rest. -/
theorem map_map_of_eq {ε α β γ : Type} {f : α → γ} {g : β → γ} {k : α → β} (x : Except ε α)
    (h : ∀ a, f a = g (k a)) : f <$> x = g <$> (k <$> x) := by
  cases x with
  | error e => rfl
  | ok a => exact congrArg Except.ok (h a)

/-- A bind does not raise `e` when neither of its steps does. -/
theorem bind_ne_error {ε α β : Type} {x : Except ε α} {f : α → Except ε β} {e : ε}
    (hx : x ≠ .error e) (hf : ∀ a, x = .ok a → f a ≠ .error e) : x >>= f ≠ .error e := by
  cases x with
  | error e' => simpa [bind, Except.bind] using hx
  | ok a => exact hf a rfl

@[simp] theorem mapError_ok {ε ε' α : Type} (f : ε → ε') (a : α) :
    (Except.ok a : Except ε α).mapError f = .ok a := rfl

@[simp] theorem mapError_error {ε ε' α : Type} (f : ε → ε') (e : ε) :
    (Except.error e : Except ε α).mapError f = .error (f e) := rfl

theorem mapError_eq_ok {ε ε' α : Type} {f : ε → ε'} {x : Except ε α} {a : α} :
    x.mapError f = .ok a ↔ x = .ok a := by
  cases x <;> simp

/-- A relabelled computation raises none of the errors outside the relabelling's image. -/
theorem mapError_ne_error {ε ε' α : Type} {f : ε → ε'} {x : Except ε α} {e : ε'}
    (hf : ∀ e₀, f e₀ ≠ e) : x.mapError f ≠ .error e := by
  cases x with
  | error e₀ => simpa using hf e₀
  | ok a => simp

end Except
