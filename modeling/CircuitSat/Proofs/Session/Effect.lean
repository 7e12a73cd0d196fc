import CircuitSat.Proofs.Session.Requests

/-! # What one request can do

The plain requests to a well-formed circuit have ten effects. What every request keeps up is shown
by going through these, and not by opening the requests once more.
-/

namespace CircuitSat

/-- The signals that a request is about. -/
def Operation.operands : Operation → List Signal
  | gate _ left right => [left, right]
  | assert signal | assume signal | retract signal => [signal]
  | assertAll signals | block signals => signals
  | input | solve | maxTime _ | maxConflicts _ => []

namespace Session

variable {ε : Type} [Engine ε]

/-- A request, its reply and its calls, with the session after it. Solves are left as they are. -/
inductive Effect (session : Session ε) : Entry → Session ε → Prop
  | input (room : session.circuit.numbering.numCircuit < maxVar) :
      Effect session
        ⟨.input, .ok (.signal (.ofVar (session.circuit.numbering.numCircuit + 1))), []⟩
        { session with encoding.circuit := session.circuit.allot }
  | refused {operation : Operation} {error : SessionError}
      (invalid : ¬∀ signal ∈ operation.operands,
        session.circuit.numbering.contains signal = true) :
      Effect session ⟨operation, .error error, []⟩ session
  | found {connective : Connective} {left right : Signal} {gate : Gate} {trace : List Event}
      (silent : callsOf trace = []) (member : gate ∈ session.circuit.netlist.gates)
      (same : gate.signature = .of left connective right) :
      Effect session ⟨.gate connective left right, .ok (.signal gate.output), trace⟩ session
  | built {connective : Connective} {left right output : Signal} {circuit : Circuit}
      {trace : List Event} (silent : callsOf trace = [])
      (contained : session.circuit.numbering.contains left = true ∧
        session.circuit.numbering.contains right = true)
      (missing : ∀ gate ∈ session.circuit.netlist.gates,
        gate.signature ≠ .of left connective right)
      (adds : session.circuit.Adds (.of left connective right) output circuit) :
      Effect session ⟨.gate connective left right, .ok (.signal output), trace⟩
        { session with
          encoding.circuit := circuit
          valuation := session.valuation.withGate ⟨.of left connective right, output, none⟩ }
  | asserted {signal : Signal} {literal : Literal} {covered trace : List Event}
      {encoding : Encoding ε} (contained : session.circuit.numbering.contains signal = true)
      (mentions : session.encoding.Mentions signal literal covered encoding)
      (made : callsOf trace = callsOf covered) :
      Effect session ⟨.assert signal, .ok .done, trace⟩
        { session with
          encoding
          pending := if literal ∈ session.asserted then session.pending
            else session.pending ++ [literal] }
  | assumed {signal : Signal} {literal : Literal} {covered trace : List Event}
      {encoding : Encoding ε} (contained : session.circuit.numbering.contains signal = true)
      (mentions : session.encoding.Mentions signal literal covered encoding)
      (made : callsOf trace = callsOf covered) :
      Effect session ⟨.assume signal, .ok .done, trace⟩
        { session with
          encoding
          assumptions := if literal ∈ session.assumptions then session.assumptions
            else session.assumptions ++ [literal] }
  | retracted {signal : Signal} {found : Option Literal}
      (looked : session.circuit.numbering.lookup signal = .ok found) :
      Effect session ⟨.retract signal, .ok .done, []⟩
        { session with assumptions := without session.assumptions found }
  | solved {next : Session ε} {verdict : Verdict} {trace : List Event}
      (returned : session.solve.Returns trace (verdict, next)) :
      Effect session ⟨.solve, .ok (.verdict verdict), trace⟩ next
  | maxTime {bound : Seconds} {trace : List Event} {engine : ε}
      (made : callsOf trace = [.maxTime (some bound)])
      (takes : Engine.Takes session.encoding.engine (.maxTime (some bound)) engine) :
      Effect session ⟨.maxTime bound, .ok .done, trace⟩
        { session with encoding.engine := engine, settings.maxTime := some bound }
  | maxConflicts {bound : Nat} {trace : List Event} {engine : ε}
      (made : callsOf trace = [.maxConflicts (some bound)])
      (takes : Engine.Takes session.encoding.engine (.maxConflicts (some bound)) engine) :
      Effect session ⟨.maxConflicts bound, .ok .done, trace⟩
        { session with encoding.engine := engine, settings.maxConflicts := some bound }

variable {session next : Session ε}

/-- A request for a gate is turned down, finds its gate, or builds it on the newest variable. -/
theorem addGate_effect (valid : session.circuit.WellFormed)
    (small : next.circuit.numbering.numCircuit ≤ maxVar) {connective : Connective}
    {left right : Signal} {reply : Except SessionError Signal} {trace : List Event}
    (returned : (session.addGate connective left right).Returns trace (reply, next)) :
    Effect session ⟨.gate connective left right, reply.map .signal, trace⟩ next := by
  by_cases contained : session.circuit.numbering.contains left = true ∧
      session.circuit.numbering.contains right = true
  · cases found : session.gateOf? (.of left connective right) with
    | some gate =>
      obtain ⟨rfl, rfl, rfl⟩ := (addGate_returns_of_some contained found).mp returned
      obtain ⟨member, same⟩ := (gateOf?_eq_some_iff valid).mp found
      exact .found rfl member same
    | none =>
      obtain ⟨output, rfl, rfl, inserted⟩ := (addGate_returns_of_none contained found).mp returned
      have missing (gate : Gate) (member : gate ∈ session.circuit.netlist.gates) :
          gate.signature ≠ .of left connective right := fun same => by
        rw [(gateOf?_eq_some_iff valid).mpr ⟨member, same⟩] at found
        contradiction
      obtain ⟨circuit, adds, rfl⟩ := insertGate_adds valid small contained found inserted
      exact .built rfl contained missing adds
  · obtain ⟨error, refused⟩ := addGate_of_invalid connective contained
    rw [refused] at returned
    obtain ⟨rfl, same⟩ := Outcome.returns_pure.mp returned
    cases same
    refine .refused fun both => contained ?_
    exact ⟨both _ (by simp [Operation.operands]), both _ (by simp [Operation.operands])⟩

/-- Every plain request has one of the effects. -/
theorem Step.effect {entry : Entry} (step : Step session entry next)
    (valid : session.circuit.WellFormed) (plain : entry.operation.isPlain = true)
    (small : next.circuit.numbering.numCircuit ≤ maxVar) : Effect session entry next := by
  obtain ⟨operation, reply, trace⟩ := entry
  have refused {operation : Operation} {signal : Signal} {error : SessionError}
      (operand : operation.operands = [signal])
      (invalid : session.circuit.numbering.contains signal = false) :
      Effect session ⟨operation, .error error, []⟩ session := by
    refine .refused fun all => ?_
    rw [all signal (by simp [operand])] at invalid
    contradiction
  cases operation with
  | input =>
    obtain ⟨_, added, rfl⟩ := step_input.mp step
    obtain ⟨rfl, rfl, rfl⟩ := addInput_returns added
    change session.circuit.allot.numbering.numCircuit ≤ maxVar at small
    rw [Circuit.numCircuit_allot] at small
    exact .input small
  | gate connective left right =>
    obtain ⟨_, added, rfl⟩ := (returns_reply _).mp step
    exact addGate_effect valid small added
  | assert signal =>
    obtain ⟨_, returned, rfl⟩ := (returns_reply _).mp step
    rcases assert_returns returned with ⟨invalid, ⟨error, rfl⟩, rfl, rfl⟩ |
      ⟨contained, rfl, literal, covered, encoding, mentions, made, rfl⟩
    · exact refused rfl invalid
    · exact .asserted contained mentions made
  | assume signal =>
    obtain ⟨_, returned, rfl⟩ := (returns_reply _).mp step
    rcases assume_returns returned with ⟨invalid, ⟨error, rfl⟩, rfl, rfl⟩ |
      ⟨contained, rfl, literal, covered, encoding, mentions, made, rfl⟩
    · exact refused rfl invalid
    · exact .assumed contained mentions made
  | retract signal =>
    obtain ⟨_, returned, rfl⟩ := (returns_reply _).mp step
    obtain ⟨rfl, ⟨invalid, ⟨error, rfl⟩, rfl⟩ | ⟨_, rfl, _, looked, rfl⟩⟩ :=
      retract_returns returned
    · exact refused rfl invalid
    · exact .retracted looked
  | solve =>
    obtain ⟨_, solved, rfl⟩ := step_solve.mp step
    exact .solved solved
  | maxTime bound =>
    obtain ⟨returned, rfl⟩ := returns_done.mp step
    obtain ⟨_, made, takes, rfl⟩ := setMaxTime_returns returned
    exact .maxTime made takes
  | maxConflicts bound =>
    obtain ⟨returned, rfl⟩ := returns_done.mp step
    obtain ⟨_, made, takes, rfl⟩ := setMaxConflicts_returns returned
    exact .maxConflicts made takes
  | assertAll | block => contradiction

end Session

end CircuitSat
