import CircuitSat.Fault

/-! # Outcomes

What an operation did, in order, and what it ended with. Events that came before a fault are kept,
and nothing follows one.
-/

namespace CircuitSat

/-- Events of type `β` in order, and a value or the fault that ended the operation. -/
structure Outcome (β α : Type) where
  trace : List β
  result : Except Fault α

namespace Outcome

variable {α β γ : Type}

def value (value : α) : Outcome β α := ⟨[], .ok value⟩

def fault (fault : Fault) : Outcome β α := ⟨[], .error fault⟩

/-- Records one event. -/
def emit (event : β) : Outcome β Unit := ⟨[event], .ok ()⟩

/-- Runs the second operation on the value of the first, unless that one ended in a fault. -/
def andThen (first : Outcome β α) (second : α → Outcome β γ) : Outcome β γ :=
  match first.result with
  | .ok value =>
    let next := second value
    ⟨first.trace ++ next.trace, next.result⟩
  | .error fault => ⟨first.trace, .error fault⟩

instance : Monad (Outcome β) where
  pure := value
  bind := andThen

instance : MonadLift (Except Fault) (Outcome β) where
  monadLift result := ⟨[], result⟩

/-- The same outcome with every event replaced by its image. -/
def mapTrace (view : β → γ) (outcome : Outcome β α) : Outcome γ α :=
  ⟨outcome.trace.map view, outcome.result⟩

end Outcome

end CircuitSat
