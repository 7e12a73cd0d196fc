import CircuitSat.Proofs.Engine.Scripted
import CircuitSat.Proofs.Session.Delivery

/-! # What a solve tells the engine and what it changes

The engine hears of the assertions that are new, of the question, and after a positive answer it is
asked for the model. The walk over the assumptions in between finds each of them covered, whatever
was built since. Apart from the engine a solve changes the answer and what waits, and the values
only if there is a model.
-/

namespace CircuitSat

open List (Forall₂)

/-- The signals asserted since the last solve and never before, in the order of first assertion. -/
def newlyAsserted (entries : List Entry) : List Signal :=
  ((everAsserted (sinceSolve entries)).removeAll (everAsserted (upToSolve entries))).eraseDups

/-- What is asserted was so by the last solve or is new. -/
theorem Facts.asserted_of_solve (entries : List Entry) : (Facts.of entries).asserted =
    (everAsserted (upToSolve entries)).eraseDups ++ newlyAsserted entries := by
  have both : everAsserted entries =
      everAsserted (upToSolve entries) ++ everAsserted (sinceSolve entries) :=
    (congrArg everAsserted (upToSolve_append_sinceSolve entries)).symm.trans List.flatMap_append
  rw [asserted_of, both, List.eraseDups_append, newlyAsserted]

namespace Session

variable {ε : Type} [Engine ε] {calls : List Call} {session next : Session ε} {trace : List Event}
  {verdict : Verdict}

/-- What waits are the literals of what was newly asserted. -/
theorem Transcript.pending {engine : ε} {settings : Settings} {entries : List Entry}
    {last : Session ε} (transcript : Transcript engine settings entries calls last)
    (small : last.circuit.numbering.numCircuit ≤ maxVar) :
    Forall₂ last.circuit.numbering.Denotes last.pending (newlyAsserted entries) := by
  have settled := (transcript.sound small).asserted
  have submitted := transcript.submitted small
  rw [Facts.asserted_of_solve, Session.asserted] at settled
  have later := List.forall₂_drop_append _ _ _ settled
  rwa [← submitted.length_eq, List.drop_left] at later

/-- A solve hands over one unit clause for each new assertion, in the order of first assertion, asks
under the literals of the active assumptions in their order, and wants the model after a positive
answer. No variable and no gate is put into clauses, and the assertions and assumptions stay. -/
theorem solve_transition {engine : ε} (counting : Engine.Counting engine) {settings : Settings}
    {entries : List Entry} (run : Run engine settings entries session)
    (small : session.circuit.numbering.numCircuit ≤ maxVar)
    (returned : session.solve.Returns trace (verdict, next)) :
    Forall₂ (fun signal literal => session.literal? signal = .ok (.ok (some literal)))
        (newlyAsserted entries) session.pending ∧
      Forall₂ (fun signal literal => session.literal? signal = .ok (.ok (some literal)))
        (Facts.of entries).assumed session.assumptions ∧
      ∃ answer, verdict = verdictOf answer ∧ session.Consults answer trace next := by
  obtain ⟨calls, transcript⟩ := run_iff_transcript.mp run
  have sound := transcript.sound small
  have read {literals : List Literal} {signals : List Signal}
      (both : Forall₂ session.circuit.numbering.Denotes literals signals) :
      Forall₂ (fun signal literal => session.literal? signal = .ok (.ok (some literal)))
        signals literals :=
    both.flip.imp fun _ _ denotes => literal?_of_denotes sound.circuit denotes
  exact ⟨read (transcript.pending small), read sound.assumed, sound.consults counting returned⟩

/-- A signal is asserted again after a solve, two are new, and one assumption gave way to another
before the engine gives up. -/
theorem solve_transition_of_timeout : ∃ entries session trace next,
    Run (Scripted.create [.check [true, true, true], .fail .timeLimit]) .standard entries session ∧
    entries.map Entry.operation = [.input, .input, .gate .and ⟨1⟩ ⟨2⟩, .assert ⟨3⟩, .assume ⟨1⟩,
      .solve, .gate .xor ⟨3⟩ ⟨-2⟩, .assert ⟨3⟩, .assertAll [⟨-4⟩, ⟨2⟩, ⟨-4⟩], .retract ⟨1⟩,
      .assume ⟨-4⟩] ∧
    session.circuit.numbering.numCircuit ≤ maxVar ∧
    session.solve.Returns trace (.unknown, next) ∧
    newlyAsserted entries = [⟨-4⟩, ⟨2⟩] ∧
    callsOf trace = [.clause [⟨-4⟩], .clause [⟨3⟩], .solve [⟨-4⟩]] ∧
    next.cause = some .timeLimit ∧
    Forall₂ (fun signal literal => session.literal? signal = .ok (.ok (some literal)))
      (newlyAsserted entries) session.pending ∧
    Forall₂ (fun signal literal => session.literal? signal = .ok (.ok (some literal)))
      (Facts.of entries).assumed session.assumptions ∧
    ∃ answer, .unknown = verdictOf answer ∧ session.Consults answer trace next := by
  obtain ⟨entries, session, run, operations, small, fresh, made, solved⟩ :=
    exists_run (Scripted.create [.check [true, true, true], .fail .timeLimit]) .standard
      [.input, .input, .gate .and ⟨1⟩ ⟨2⟩, .assert ⟨3⟩, .assume ⟨1⟩, .solve, .gate .xor ⟨3⟩ ⟨-2⟩,
        .assert ⟨3⟩, .assertAll [⟨-4⟩, ⟨2⟩, ⟨-4⟩], .retract ⟨1⟩, .assume ⟨-4⟩]
      (fun entries session => session.circuit.numbering.numCircuit ≤ maxVar ∧
        newlyAsserted entries = [⟨-4⟩, ⟨2⟩] ∧
        callsOf session.solve.trace = [.clause [⟨-4⟩], .clause [⟨3⟩], .solve [⟨-4⟩]] ∧
        session.solve.result.toOption.any fun solved =>
          solved.1 = .unknown ∧ solved.2.cause = some .timeLimit) (by decide +kernel)
  obtain ⟨⟨_, next⟩, returned, rfl, cause⟩ := Outcome.exists_returns solved
  exact ⟨entries, session, _, next, run, operations, small, returned, fresh, made, cause,
    solve_transition (Scripted.counting _) run small returned⟩

end Session

end CircuitSat
