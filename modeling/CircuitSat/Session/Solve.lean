import CircuitSat.Session.Facts

/-! # Solving

A solve hands over the waiting unit clauses, makes sure that all assumptions are covered, and asks
the engine. Only a model changes the values; every answer sets the verdict and the cause.
-/

namespace CircuitSat.Session

variable {ε : Type} [Engine ε]

/-- A session on a new engine, which is told the settings. -/
def start (engine : ε) (settings : Settings) : Outcome Event (Session ε) := do
  let engine ← (Call.threads settings.threads).record (Engine.setThreads engine settings.threads)
  let engine ← (Call.maxTime settings.maxTime).record (Engine.setMaxTime engine settings.maxTime)
  let engine ← (Call.maxConflicts settings.maxConflicts).record
    (Engine.setMaxConflicts engine settings.maxConflicts)
  return {
    encoding := .start engine
    settings
    submitted := []
    pending := []
    assumptions := []
    valuation := .empty
    verdict := .unknown
    cause := none }

/-- Bounds the time of every later solve. -/
def setMaxTime (session : Session ε) (bound : Seconds) : Outcome Event (Session ε) := do
  let engine ← (Call.maxTime (some bound)).record
    (Engine.setMaxTime session.encoding.engine (some bound))
  return { session with encoding.engine := engine, settings.maxTime := some bound }

/-- Bounds the conflicts of every later solve. -/
def setMaxConflicts (session : Session ε) (bound : Nat) : Outcome Event (Session ε) := do
  let engine ← (Call.maxConflicts (some bound)).record
    (Engine.setMaxConflicts session.encoding.engine (some bound))
  return { session with encoding.engine := engine, settings.maxConflicts := some bound }

/-- Hands the waiting unit clauses to the engine. -/
def submitPending (session : Session ε) : Outcome Event (Session ε) := do
  let encoding ← session.pending.foldlM (fun encoding literal => encoding.submit [literal])
    session.encoding
  return { session with encoding, submitted := session.asserted, pending := [] }

/-- Covers the circuit variable of an assumption. -/
def coverAssumption (session : Session ε) (literal : Literal) : Outcome Event (Session ε) :=
  match session.circuit.numbering.originOf? literal.var with
  | none => .fault (.untracedAssumption literal)
  | some origin => session.cover origin

/-- Takes in the engine's answer; values change only if it comes with a model. -/
def conclude (session : Session ε) : Except Failure Bool → Outcome Event (Session ε)
  | .ok true => do
    let model ← Call.model.record (Engine.model session.encoding.engine)
    let valuation ← Valuation.ofModel session.circuit model
    return { session with valuation, verdict := .satisfiable, cause := none }
  | .ok false => return { session with verdict := .unsatisfiable, cause := none }
  | .error failure => do
    Outcome.emit (.log (.noVerdict failure))
    return { session with verdict := .unknown, cause := some failure }

/-- Solves the asserted and assumed signals together with the gates below them. -/
def solve (session : Session ε) : Outcome Event (Verdict × Session ε) := do
  let session ← session.submitPending
  let session ← session.assumptions.foldlM coverAssumption session
  let (answer, engine) ← (Call.solve session.assumptions).record
    (Engine.solve session.encoding.engine session.assumptions)
  let session ← { session with encoding.engine := engine }.conclude answer
  Outcome.emit (.log (.solved session.verdict session.statistics))
  return (session.verdict, session)

end CircuitSat.Session
