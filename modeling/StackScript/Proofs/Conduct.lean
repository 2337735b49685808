import Mathlib.Logic.Basic

/-!
What actions do to a state. A conduct says how an action may change the state where it goes through, and how where it fails.
Actions that keep to it can be put together.
-/

namespace StackScript

/-- What an action may do to the state where it goes through, and where it fails with an error. -/
structure Conduct (ε σ : Type) where
  goes : σ → σ → Prop
  fails : σ → ε → σ → Prop
  refl : ∀ state, goes state state
  trans : ∀ {first second third}, goes first second → goes second third → goes first third
  fails_after : ∀ {first second third error}, goes first second → fails second error third → fails first error third

namespace Conduct

variable {ε σ α β : Type}

def Allows (conduct : Conduct ε σ) (before : σ) : EStateM.Result ε σ α → Prop
  | .ok _ after => conduct.goes before after
  | .error error after => conduct.fails before error after

def Obeys (conduct : Conduct ε σ) (action : EStateM ε σ α) : Prop :=
  ∀ state, conduct.Allows state (action state)

structure Within (narrow wide : Conduct ε σ) : Prop where
  goes : ∀ {before after}, narrow.goes before after → wide.goes before after
  fails : ∀ {before error after}, narrow.fails before error after → wide.fails before error after

/-- A conduct under which actions change the state alike where they go through and where they fail. -/
def alike (change : σ → σ → Prop) (refl : ∀ state, change state state)
    (trans : ∀ {first second third}, change first second → change second third → change first third) : Conduct ε σ :=
  ⟨change, fun before _ after => change before after, refl, trans, trans⟩

variable {conduct wide : Conduct ε σ} {action : EStateM ε σ α} {next : α → EStateM ε σ β}

theorem Allows.after {before between : σ} {result : EStateM.Result ε σ α} (first : conduct.goes before between)
    (second : conduct.Allows between result) : conduct.Allows before result := by
  cases result with
  | ok value after => exact conduct.trans first second
  | error error after => exact conduct.fails_after first second

theorem Obeys.bind (one : conduct.Obeys action) (two : ∀ value, conduct.Obeys (next value)) :
    conduct.Obeys (action >>= next) := by
  intro state
  have first := one state
  change conduct.Allows state (EStateM.bind action next state)
  unfold EStateM.bind
  cases done : action state with
  | error error after =>
    rw [done] at first
    exact first
  | ok value between =>
    rw [done] at first
    exact (two value between).after first

theorem Obeys.pure (value : α) : conduct.Obeys (Pure.pure value : EStateM ε σ α) := conduct.refl

theorem Obeys.ite {condition : Prop} [Decidable condition] {other : EStateM ε σ α} (yes : conduct.Obeys action)
    (no : conduct.Obeys other) : conduct.Obeys (if condition then action else other) := by
  split
  · exact yes
  · exact no

theorem Obeys.within (obeys : conduct.Obeys action) (within : conduct.Within wide) : wide.Obeys action := by
  intro state
  have allowed := obeys state
  cases done : action state with
  | ok value after =>
    rw [done] at allowed
    exact within.goes allowed
  | error error after =>
    rw [done] at allowed
    exact within.fails allowed

end Conduct

end StackScript
