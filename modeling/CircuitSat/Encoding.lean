import CircuitSat.Circuit
import CircuitSat.Tseitin

/-! # Circuits in clauses

A circuit together with the engine that holds the clauses of a part of it. That part grows by whole
cones: a signal is covered once every gate below it is in clauses.
-/

namespace CircuitSat

structure Encoding (ε : Type) where
  circuit : Circuit
  /-- Number of clauses handed to the engine. -/
  numClauses : Nat
  engine : ε

namespace Encoding

variable {ε : Type}

/-- The empty circuit on an engine. -/
def start (engine : ε) : Encoding ε := ⟨.empty, 0, engine⟩

def statistics (encoding : Encoding ε) : Statistics where
  circuitVars := encoding.circuit.numbering.numCircuit
  gates := encoding.circuit.netlist.size
  cnfVars := encoding.circuit.numbering.numCnf
  cnfClauses := encoding.numClauses

variable [Engine ε]

/-- Declares more variables to the engine. -/
def declare (encoding : Encoding ε) (count : Nat) : Outcome Event (Encoding ε) := do
  let engine ← (Call.newVars count).record (Engine.newVars encoding.engine count)
  return { encoding with engine }

/-- Hands one clause to the engine. -/
def submit (encoding : Encoding ε) (clause : Clause) : Outcome Event (Encoding ε) := do
  let engine ← (Call.clause clause).record (Engine.addClause encoding.engine clause)
  return { encoding with engine, numClauses := encoding.numClauses + 1 }

/-- Hands the clauses of a gate to the engine. -/
def submitGate (encoding : Encoding ε) (connective : Connective) (literals : Triple) :
    Outcome Event (Encoding ε) :=
  (Tseitin.templates connective).foldlM (fun encoding template => do
    encoding.submit (← Tseitin.instantiate literals template)) encoding

/-- Declares the clause variables that the engine does not have yet. -/
def declareMinted (encoding : Encoding ε) : Outcome Event (Encoding ε) :=
  let needed := encoding.circuit.numbering.numCnf
  let present := Engine.numVars encoding.engine
  if present < needed then encoding.declare (needed - present) else pure encoding

/-- Puts every gate below the signal into clauses that is not there yet, and gives their number. The
engine hears of the new variables first and then of the clauses. -/
def cover (encoding : Encoding ε) (origin : Signal) : Outcome Event (Nat × Encoding ε) := do
  let (_, circuit) ← encoding.circuit.literalOf origin
  let (fresh, circuit) ← circuit.reach [origin.var]
  let declared ← { encoding with circuit }.declareMinted
  let done ← fresh.foldlM (fun encoding (connective, literals) =>
    encoding.submitGate connective literals) declared
  Outcome.emit (.log (.covered origin fresh.length circuit.numbering.numCnf))
  return (fresh.length, done)

end Encoding

end CircuitSat
