import CircuitSat.Log
import CircuitSat.Outcome
import CircuitSat.Seconds

/-! # Search engines

An engine keeps clauses over variables numbered from one and solves them under assumptions. Nothing
is assumed here of what it answers. Whoever uses an engine records each call, so that the calls of a
run can be read off its trace whatever the engine does with them.
-/

namespace CircuitSat

/-- An incremental engine with states of type `ε`. -/
class Engine (ε : Type) where
  /-- Number of declared variables. -/
  numVars : ε → Nat
  /-- Declares more variables. -/
  newVars : ε → Nat → Outcome LogEntry ε
  /-- Adds a clause for good. -/
  addClause : ε → Clause → Outcome LogEntry ε
  /-- Whether all clauses and the assumptions can hold together. -/
  solve : ε → List Literal → Outcome LogEntry (Except Failure Bool × ε)
  /-- Values of all declared variables after a satisfiable solve; the entry at zero is unused. -/
  model : ε → Outcome LogEntry (Array Bool)
  setMaxTime : ε → Option Seconds → Outcome LogEntry ε
  setMaxConflicts : ε → Option Nat → Outcome LogEntry ε
  setThreads : ε → Nat → Outcome LogEntry ε

/-- The number of variables once more are declared; an engine counts them in 64 bits. -/
def Engine.countVars (declared count : Nat) : Except Fault Nat :=
  if declared + count < UInt64.size then .ok (declared + count) else .error .additionOverflow

/-- A call to an engine, other than the question how many variables it has. -/
inductive Call where
  | newVars (count : Nat)
  | clause (literals : Clause)
  | solve (assumptions : List Literal)
  | model
  | maxTime (bound : Option Seconds)
  | maxConflicts (bound : Option Nat)
  | threads (count : Nat)
deriving DecidableEq, Repr

/-- What a run shows to the outside: engine calls and log entries. -/
inductive Event where
  | call (made : Call)
  | log (entry : LogEntry)
deriving DecidableEq, Repr

namespace Event

def call? : Event → Option Call
  | call made => some made
  | log _ => none

def log? : Event → Option LogEntry
  | call _ => none
  | log entry => some entry

end Event

/-- Records the call and gives the engine's reply, whose log entries follow it. -/
def Call.record {α : Type} (call : Call) (reply : Outcome LogEntry α) : Outcome Event α := do
  Outcome.emit (.call call)
  reply.mapTrace .log

end CircuitSat
