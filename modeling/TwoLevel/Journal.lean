/-
# TwoLevel.Journal — computations that report what they do

A `Journaled` computation is the list of events it reported and how it ended: in a
value or in a failure. Running one after the other appends the reports; after a
failure nothing more happens. `outcome_bind` says that reports never change an
outcome.
-/
import TwoLevel.Event

namespace TwoLevel

set_option autoImplicit false

/-- A finished computation and its reports, in order. -/
structure Journaled (α : Type) where
  events : List Event
  outcome : Except Failure α

namespace Journaled

variable {α β : Type}

/-- Go on with the value of a computation, if it has one. -/
def andThen (first : Journaled α) (next : α → Journaled β) : Journaled β :=
  match first.outcome with
  | .error failure => ⟨first.events, .error failure⟩
  | .ok value =>
      let last := next value
      ⟨first.events ++ last.events, last.outcome⟩

instance : Monad Journaled where
  pure value := ⟨[], .ok value⟩
  bind := andThen

/-- Report events and go on. -/
def note (events : List Event) : Journaled Unit := ⟨events, .ok ()⟩

/-- A computation that may end in an error and reports nothing. -/
def ofError (result : Except Error α) : Journaled α :=
  ⟨[], match result with
    | .error cause => .error (.error cause)
    | .ok value => .ok value⟩

/-- A computation that may end in a misuse and reports nothing. -/
def ofMisuse (result : Except Misuse α) : Journaled α :=
  ⟨[], match result with
    | .error cause => .error (.misuse cause)
    | .ok value => .ok value⟩

@[simp] theorem outcome_pure (value : α) : (pure value : Journaled α).outcome = .ok value := rfl

@[simp] theorem events_pure (value : α) : (pure value : Journaled α).events = [] := rfl

@[simp] theorem outcome_note (events : List Event) : (note events).outcome = .ok () := rfl

@[simp] theorem events_note (events : List Event) : (note events).events = events := rfl

/-- Reports never change an outcome. -/
theorem outcome_bind (first : Journaled α) (next : α → Journaled β) :
    (first >>= next).outcome = first.outcome.bind fun value => (next value).outcome := by
  show (andThen first next).outcome = _
  unfold andThen
  cases first.outcome <;> rfl

end Journaled

end TwoLevel
