import CircuitSat.Seconds

/-! # Session settings -/

namespace CircuitSat

/-- What a session asks of its engine. -/
structure Settings where
  threads : Nat
  /-- Whether the engine may eliminate variables. -/
  elimination : Bool
  /-- Bound on the time of each solve. -/
  maxTime : Option Seconds
  /-- Bound on the conflicts of each solve. -/
  maxConflicts : Option Nat
deriving BEq, Repr

namespace Settings

/-- No bounds on a solve. -/
def unbounded (threads : Nat) (elimination : Bool) : Settings :=
  ⟨threads, elimination, none, none⟩

/-- One thread, elimination allowed, no bounds. -/
def standard : Settings := unbounded 1 true

end Settings

end CircuitSat
