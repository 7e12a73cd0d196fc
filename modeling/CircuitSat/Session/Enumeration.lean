import CircuitSat.Session.Solve

/-! # Enumerating solutions

A blocker is a signal that is true exactly if given signals do not all have the values that they
have now. Asserting it rules those values out, and solving again gives others.
-/

namespace CircuitSat.Session

variable {ε : Type}

/-- For each signal the one of its two polarities that is false now. -/
def differing (session : Session ε) :
    List Signal → Except Fault (Except SessionError (List Signal))
  | [] => .ok (.ok [])
  | signal :: rest =>
    match session.value signal with
    | .error error => .ok (.error error)
    | .ok value => do
      let opposed ← if value then signal.negate else pure signal
      let later ← session.differing rest
      return later.map (opposed :: ·)

/-- Disjunction of a signal with further ones, from the left. -/
def disjoin (session : Session ε) (signal : Signal) :
    List Signal → Outcome Event (Reply ε Signal)
  | [] => return (.ok signal, session)
  | next :: rest => andThen (session.addGate .or signal next) fun signal session =>
    session.disjoin signal rest

/-- A signal that is true exactly if one of the signals differs from its value now. -/
def blocker (session : Session ε) (signals : List Signal) : Outcome Event (Reply ε Signal) := do
  match ← session.differing signals with
  | .error error => return (.error error, session)
  | .ok [] => return (.error .noVariables, session)
  | .ok (first :: rest) => session.disjoin first rest

variable [Engine ε]

/-- Records the values of the signals and rules them out, until no solution is left or as many are
recorded as asked for. -/
def enumerateFrom (session : Session ε) (signals : List Signal) :
    Nat → Outcome Event (Reply ε (List (List Bool)))
  | 0 => return (.ok [], session)
  | limit + 1 =>
    if session.verdict.isSat then
      match signals.mapM session.value with
      | .error error => return (.error error, session)
      | .ok values =>
        andThen (session.blocker signals) fun blocker session =>
        andThen (session.assert blocker) fun () session => do
          let (_, session) ← session.solve
          let (reply, session) ← session.enumerateFrom signals limit
          return (reply.map (values :: ·), session)
    else
      return (.ok [], session)

/-- Solves again and again, each time without the values that the signals had before, and lists
those values in the order found. -/
def enumerate (session : Session ε) (signals : List Signal) (limit : Nat) :
    Outcome Event (Reply ε (List (List Bool))) := do
  let (_, session) ← session.solve
  session.enumerateFrom signals limit

end CircuitSat.Session
