/-! # Size counters -/

namespace CircuitSat

/-- How large a circuit is, and how much of it is in clauses. -/
structure Statistics where
  circuitVars : Nat
  gates : Nat
  cnfVars : Nat
  cnfClauses : Nat
deriving DecidableEq, Repr

namespace Statistics

def zero : Statistics := ⟨0, 0, 0, 0⟩

def text (statistics : Statistics) : String :=
  toString statistics.circuitVars ++ " circuit vars, " ++ toString statistics.gates ++ " gates, " ++
    toString statistics.cnfVars ++ " cnf vars, " ++ toString statistics.cnfClauses ++ " cnf clauses"

/-- The form used in diagnostics. -/
def diagnostic (statistics : Statistics) : String :=
  "Stats \x7b circuit_vars: " ++ toString statistics.circuitVars ++
    ", gates: " ++ toString statistics.gates ++
    ", cnf_vars: " ++ toString statistics.cnfVars ++
    ", cnf_clauses: " ++ toString statistics.cnfClauses ++ " \x7d"

end Statistics

end CircuitSat
