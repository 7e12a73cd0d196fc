import CircuitSat.Encoding
import CircuitSat.Settings
import CircuitSat.Valuation.Propagation

/-! # Sessions

A session builds a circuit, asserts and assumes signals of it, and solves. Here are its state, the
questions about it, and the building of the circuit. A request that is turned down leaves the
session as it was.
-/

namespace CircuitSat

structure Session (ε : Type) where
  encoding : Encoding ε
  settings : Settings
  /-- Asserted literals whose unit clauses the engine has, oldest first. -/
  submitted : List Literal
  /-- Asserted literals that the next solve hands to the engine, oldest first. -/
  pending : List Literal
  /-- Active assumptions, oldest first. -/
  assumptions : List Literal
  /-- Values after the last satisfiable solve. -/
  valuation : Valuation
  /-- What the last solve came to. -/
  verdict : Verdict
  /-- Why the last solve came to nothing. -/
  cause : Option Failure

/-- What a request comes to: a value or an error, and the session after it. -/
abbrev Reply (ε α : Type) : Type := Except SessionError α × Session ε

namespace Session

variable {ε α β : Type}

/-- Goes on with the value and the session of a request that was not turned down. -/
def andThen (first : Outcome Event (Reply ε α))
    (second : α → Session ε → Outcome Event (Reply ε β)) : Outcome Event (Reply ε β) := do
  let (reply, session) ← first
  match reply with
  | .ok value => second value session
  | .error error => return (.error error, session)

def circuit (session : Session ε) : Circuit := session.encoding.circuit

/-- All asserted literals in the order of their first assertion. -/
def asserted (session : Session ε) : List Literal := session.submitted ++ session.pending

def statistics (session : Session ε) : Statistics := session.encoding.statistics

/-- The form used in diagnostics. -/
def diagnostic (session : Session ε) : String :=
  "Session \x7b stats: " ++ session.statistics.diagnostic ++
    ", asserts: " ++ toString session.asserted.length ++
    ", assumptions: " ++ toString session.assumptions.length ++
    ", status: " ++ session.verdict.diagnostic ++ " \x7d"

def check (session : Session ε) (signal : Signal) : Except SessionError Unit :=
  session.circuit.check signal

/-- The gate that defines the signal's variable. -/
def gate? (session : Session ε) (signal : Signal) : Option Gate := session.circuit.gate? signal

/-- The literal of the signal, if the engine was ever told of its variable. -/
def literal? (session : Session ε) (signal : Signal) :
    Except Fault (Except SessionError (Option Literal)) :=
  match session.check signal with
  | .error error => .ok (.error error)
  | .ok () => .ok <$> session.circuit.numbering.lookup signal

/-- The active assumptions as signals. -/
def assumedSignals (session : Session ε) : Except Fault (List Signal) := do
  let signals ← session.assumptions.mapM session.circuit.numbering.signalOf
  return signals.filterMap id

/-- Value of the signal after a satisfiable solve. -/
def value (session : Session ε) (signal : Signal) : Except SessionError Bool :=
  match session.check signal with
  | .error error => .error error
  | .ok () =>
    if session.verdict.isSat then
      match session.valuation.value? signal with
      | some value => .ok value
      | none => .error (.unassigned signal)
    else
      .error (.notSatisfiable session.verdict)

/-- Adds an input variable. -/
def addInput (session : Session ε) : Outcome Event (Signal × Session ε) := do
  let (signal, circuit) ← session.circuit.allocate
  return (signal, { session with encoding.circuit := circuit })

/-- Adds the gate of a signature on a fresh variable, with its value if the operands have one. -/
def insertGate (session : Session ε) (signature : Signature) :
    Outcome Event (Signal × Session ε) := do
  let (output, circuit) ← session.circuit.allocate
  let (_, circuit) ← circuit.insert signature output
  let valuation :=
    match session.valuation.infer? ⟨signature, output, none⟩ with
    | some value => session.valuation.assign output.var value
    | none => session.valuation
  return (output, { session with encoding.circuit := circuit, valuation })

/-- Output of the gate with the given connective and operands, built unless there is one. -/
def addGate (session : Session ε) (connective : Connective) (left right : Signal) :
    Outcome Event (Reply ε Signal) :=
  match (do session.check left; session.check right) with
  | .error error => return (.error error, session)
  | .ok () =>
    let signature := Signature.of left connective right
    match session.circuit.netlist.find? signature >>= (session.circuit.netlist.gates[·]?) with
    | some gate => do
      Outcome.emit (.log (.gateBuilt connective left right gate.output true))
      return (.ok gate.output, session)
    | none => do
      let (output, session) ← session.insertGate signature
      Outcome.emit (.log (.gateBuilt connective left right output false))
      return (.ok output, session)

end Session

end CircuitSat
