import CircuitSat.Signal

/-! # Verdicts and errors

A solve ends in a verdict; the lack of one has a cause. Requests that a session turns down are
errors, and a verdict never is one.
-/

namespace CircuitSat

/-- What is known after a solve. -/
inductive Verdict where
  | satisfiable
  | unsatisfiable
  /-- Nothing was solved yet, or the engine gave up. -/
  | unknown
deriving DecidableEq, Repr, Inhabited

namespace Verdict

def isSat (verdict : Verdict) : Bool := verdict = .satisfiable

def isUnsat (verdict : Verdict) : Bool := verdict = .unsatisfiable

def isUnknown (verdict : Verdict) : Bool := verdict = .unknown

/-- Satisfiability, where it is known. -/
def toBool? : Verdict → Option Bool
  | satisfiable => some true
  | unsatisfiable => some false
  | unknown => none

def text : Verdict → String
  | satisfiable => "SAT"
  | unsatisfiable => "UNSAT"
  | unknown => "UNKNOWN"

/-- The form used in diagnostics. -/
def diagnostic : Verdict → String
  | satisfiable => "Satisfiable"
  | unsatisfiable => "Unsatisfiable"
  | unknown => "Unknown"

end Verdict

/-- Why an engine returned without a verdict. -/
inductive Failure where
  | timeLimit
  | conflictLimit
  | engine (reason : String)
deriving DecidableEq, Repr

namespace Failure

def kind : Failure → String
  | timeLimit => "TimeLimit"
  | conflictLimit => "ConflictLimit"
  | engine _ => "Engine"

def message : Failure → String
  | timeLimit => "wall-clock limit exceeded"
  | conflictLimit => "conflict limit exceeded"
  | engine reason => "solver engine failure: " ++ reason

end Failure

/-- Why a session turned a request down. -/
inductive SessionError where
  | zeroVariable
  | unknownVariable (signal : Signal)
  | notSatisfiable (verdict : Verdict)
  | unassigned (signal : Signal)
  | noVariables
deriving DecidableEq, Repr

namespace SessionError

def kind : SessionError → String
  | zeroVariable => "ZeroVariable"
  | unknownVariable _ => "UnknownVariable"
  | notSatisfiable _ => "NotSatisfiable"
  | unassigned _ => "Unassigned"
  | noVariables => "NoVariables"

def message : SessionError → String
  | zeroVariable => "variable id 0 is not a valid reference"
  | unknownVariable signal =>
    "variable " ++ toString signal.code.toInt ++ " was never allocated"
  | notSatisfiable verdict => "no solution available: last solve returned " ++ verdict.text
  | unassigned signal =>
    "variable " ++ toString signal.code.toInt ++ " has no value in the current solution"
  | noVariables => "expected at least one variable"

/-- The kind, followed by what the error is about. -/
def diagnostic (error : SessionError) : String :=
  match error with
  | zeroVariable | noVariables => error.kind
  | unknownVariable signal | unassigned signal =>
    error.kind ++ "(" ++ toString signal.code.toInt ++ ")"
  | notSatisfiable verdict => error.kind ++ "(" ++ verdict.diagnostic ++ ")"

end SessionError

end CircuitSat
