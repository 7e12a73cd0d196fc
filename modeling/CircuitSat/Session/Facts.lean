import CircuitSat.Session.Basic

/-! # Assertions and assumptions

An asserted signal stays so for good, an assumed one until it is retracted. Both are covered at
once, so that the engine has all clauses below them by the time of the next solve.
-/

namespace CircuitSat.Session

variable {ε : Type} [Engine ε]

/-- Puts the gates below a signal into clauses. -/
def cover (session : Session ε) (signal : Signal) : Outcome Event (Session ε) := do
  let (_, encoding) ← session.encoding.cover signal
  return { session with encoding }

/-- Requires the signal to be true for good. -/
def assert (session : Session ε) (signal : Signal) : Outcome Event (Reply ε Unit) :=
  match session.check signal with
  | .error error => return (.error error, session)
  | .ok () => do
    let (literal, circuit) ← session.circuit.literalOf signal
    let session := { session with encoding.circuit := circuit }
    if literal ∈ session.asserted then
      return (.ok (), ← session.cover signal)
    else
      Outcome.emit (.log (.asserted signal literal))
      let session := { session with pending := session.pending ++ [literal] }
      return (.ok (), ← session.cover signal)

/-- Asserts the signals one by one. -/
def assertEach (session : Session ε) : List Signal → Outcome Event (Reply ε Unit)
  | [] => return (.ok (), session)
  | signal :: rest => andThen (session.assert signal) fun () session => session.assertEach rest

/-- Asserts all signals, or none if one of them is invalid. -/
def assertAll (session : Session ε) (signals : List Signal) : Outcome Event (Reply ε Unit) :=
  match signals.forM session.check with
  | .error error => return (.error error, session)
  | .ok () => session.assertEach signals

/-- Requires the signal to be true until it is retracted. -/
def assume (session : Session ε) (signal : Signal) : Outcome Event (Reply ε Unit) :=
  match session.check signal with
  | .error error => return (.error error, session)
  | .ok () => do
    let (literal, circuit) ← session.circuit.literalOf signal
    let session := { session with encoding.circuit := circuit }
    if literal ∈ session.assumptions then
      return (.ok (), ← session.cover signal)
    else
      Outcome.emit (.log (.assumed signal literal))
      let session := { session with assumptions := session.assumptions ++ [literal] }
      return (.ok (), ← session.cover signal)

omit [Engine ε] in
/-- Drops the assumptions on the signal's variable, of either polarity. -/
def retract (session : Session ε) (signal : Signal) : Outcome Event (Reply ε Unit) :=
  match session.check signal with
  | .error error => return (.error error, session)
  | .ok () => do
    match ← session.circuit.numbering.lookup signal with
    | none => return (.ok (), session)
    | some literal =>
      let assumptions := session.assumptions.filter (·.var ≠ literal.var)
      return (.ok (), { session with assumptions })

end CircuitSat.Session
