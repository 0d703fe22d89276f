import SexprCompiler.Draft.Emit

/-!
# Computations that may fail

A computation that succeeds is taken apart into steps that all have to succeed, also when it changes
a scope on its way. When values and errors are given another form, it is done step by step.
-/
namespace SexprCompiler

namespace Outcome

variable {ε ε' α α' β β' : Type}

theorem bind_eq_ok {x : Except ε α} {f : α → Except ε β} {b : β} :
    x >>= f = .ok b ↔ ∃ a, x = .ok a ∧ f a = .ok b := by
  cases x <;> simp [bind, Except.bind]

theorem map_eq_ok {x : Except ε α} {f : α → β} {b : β} :
    f <$> x = .ok b ↔ ∃ a, x = .ok a ∧ f a = b := by
  cases x <;> simp [Functor.map, Except.map]

theorem pure_eq_ok {a b : α} : (pure a : Except ε α) = .ok b ↔ a = b := by
  simp [pure, Except.pure]

theorem eq_ok_of_toOption {x : Except ε α} {a : α} (h : x.toOption = some a) : x = .ok a := by
  cases x with
  | error error => cases h
  | ok b => exact congrArg Except.ok (Option.some.inj h)

/-- Applies a function to the value that a computation gives and another one to its error. -/
def both (onError : ε → ε') (onValue : α → β) : Except ε α → Except ε' β
  | .ok a => .ok (onValue a)
  | .error error => .error (onError error)

/-- A computation in steps may have each step replaced by one with another form of value. -/
theorem bind_both {onError : ε → ε'} {onValue : α → α'} {onResult : β → β'} {x : Except ε α}
    {f : α → Except ε β} {f' : α' → Except ε' β'}
    (h : ∀ a, f' (onValue a) = both onError onResult (f a)) :
    both onError onValue x >>= f' = both onError onResult (x >>= f) := by
  cases x with
  | error error => rfl
  | ok a => exact h a

theorem map_both {onError : ε → ε'} {onValue : α → α'} {onResult : β → β'} {x : Except ε α}
    {f : α → β} {f' : α' → β'} (h : ∀ a, f' (onValue a) = onResult (f a)) :
    f' <$> both onError onValue x = both onError onResult (f <$> x) := by
  cases x with
  | error error => rfl
  | ok a => exact congrArg Except.ok (h a)

/-- The error with which a computation ends, if it does. -/
def error? : Except ε α → Option ε
  | .ok _ => none
  | .error error => some error

theorem error?_eq_none_iff {x : Except ε α} : error? x = none ↔ ∃ a, x = .ok a := by
  cases x <;> simp [error?]

theorem error?_eq_some_iff {x : Except ε α} {error : ε} :
    error? x = some error ↔ x = .error error := by
  cases x <;> simp [error?]

theorem error?_map (f : α → β) (x : Except ε α) : error? (f <$> x) = error? x := by
  cases x <;> rfl

/-- If the error of the second step does not depend on the value of the first, it comes after. -/
theorem error?_bind (x : Except ε α) {f : α → Except ε β} (second : Option ε)
    (h : ∀ a, error? (f a) = second) : error? (x >>= f) = (error? x).or second := by
  cases x with
  | error error => rfl
  | ok a => exact h a

end Outcome

namespace Emit

variable {α β : Type} {scope scope' : Scope}

@[simp] theorem pure_eq_ok {a b : α} :
    (pure a : Emit α) scope = .ok b scope' ↔ a = b ∧ scope = scope' := by
  change EStateM.Result.ok a scope = .ok b scope' ↔ _
  simp

@[simp] theorem throw_ne_ok {error : TypeError} {a : α} :
    (throw error : Emit α) scope ≠ .ok a scope' := by
  change EStateM.Result.error error scope ≠ .ok a scope'
  simp

@[simp] theorem get_eq_ok {found : Scope} :
    (get : Emit Scope) scope = .ok found scope' ↔ scope = found ∧ scope = scope' := by
  change EStateM.Result.ok scope scope = .ok found scope' ↔ _
  simp

@[simp] theorem set_eq_ok {next : Scope} {u : PUnit} :
    (set next : Emit PUnit) scope = .ok u scope' ↔ next = scope' := by
  change EStateM.Result.ok PUnit.unit next = .ok u scope' ↔ _
  simp

@[simp] theorem modify_eq_ok {f : Scope → Scope} {u : PUnit} :
    (modify f : Emit PUnit) scope = .ok u scope' ↔ f scope = scope' := by
  change EStateM.Result.ok PUnit.unit (f scope) = .ok u scope' ↔ _
  simp

theorem get_bind (f : Scope → Emit α) (scope : Scope) : (get >>= f) scope = f scope scope := rfl

theorem bind_eq_ok {x : Emit α} {f : α → Emit β} {b : β} :
    (x >>= f) scope = .ok b scope' ↔
      ∃ a scope₁, x scope = .ok a scope₁ ∧ f a scope₁ = .ok b scope' := by
  simp only [bind, EStateM.bind]
  cases x scope <;> simp [and_assoc]

end Emit

end SexprCompiler
