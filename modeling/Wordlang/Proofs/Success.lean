import Wordlang.Error

/-! # Success of computations

When work made of several steps succeeds: exactly when each step does, from the
result and the state of the one before.
-/

namespace Wordlang

section Except

variable {ε α β : Type}

theorem bind_eq_ok {x : Except ε α} {f : α → Except ε β} {b : β} :
    (x >>= f) = .ok b ↔ ∃ a, x = .ok a ∧ f a = .ok b := by
  cases x <;> simp [bind, Except.bind]

theorem throw_ne_ok {error : ε} {a : α} : (throw error : Except ε α) ≠ .ok a := by
  simp [throw, throwThe, MonadExceptOf.throw]

theorem exists_ok_of_any {x : Except ε α} {p : α → Bool} (h : x.toOption.any p = true) :
    ∃ a, x = .ok a ∧ p a = true := by
  cases x with
  | error error => exact absurd h nofun
  | ok a => exact ⟨a, rfl, h⟩

/-- Whatever is made of a result, an error stays. -/
theorem eq_error_of_map {x : Except ε α} {f : α → β} {error : ε} (h : x.map f = .error error) :
    x = .error error := by
  cases x with
  | error error' => exact congrArg _ (Except.error.inj h)
  | ok a => exact absurd h nofun

end Except

section State

variable {ε σ α β : Type} {s s' : σ}

theorem run_bind_eq_ok {x : EStateM ε σ α} {f : α → EStateM ε σ β} {b : β} :
    (x >>= f) s = .ok b s' ↔ ∃ a s₁, x s = .ok a s₁ ∧ f a s₁ = .ok b s' := by
  change EStateM.bind x f s = .ok b s' ↔ _
  unfold EStateM.bind
  cases x s with
  | error => simp
  | ok a s₁ => simp [and_assoc]

theorem run_bind_of_ok {x : EStateM ε σ α} {f : α → EStateM ε σ β} {a : α} (h : x s = .ok a s') :
    (x >>= f) s = f a s' := by
  change EStateM.bind x f s = f a s'
  simp only [EStateM.bind, h]

theorem run_bind_of_error {x : EStateM ε σ α} {f : α → EStateM ε σ β} {error : ε}
    (h : x s = .error error s') : (x >>= f) s = .error error s' := by
  change EStateM.bind x f s = .error error s'
  simp only [EStateM.bind, h]

theorem run_pure_eq_ok {a b : α} :
    (pure a : EStateM ε σ α) s = .ok b s' ↔ a = b ∧ s = s' := by
  change EStateM.Result.ok a s = .ok b s' ↔ _
  simp only [EStateM.Result.ok.injEq]

end State

end Wordlang
