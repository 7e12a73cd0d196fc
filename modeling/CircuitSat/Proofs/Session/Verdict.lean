import CircuitSat.Proofs.Engine.Lexicographic
import CircuitSat.Proofs.Session.Solving

/-! # Verdicts are right

The clauses speak of a part of the circuit only. A model of them gives values to the variables with
images; below a gate in clauses all gates are in clauses, so these values extend to the gates that
were left out. Conversely a consistent assignment is read off as a model along the images.
-/

namespace CircuitSat

/-- Values of the images as values of the variables that have one. -/
def Numbering.pull (numbering : Numbering) (values : Nat → Bool) (var : Nat) : Option Bool :=
  (numbering.image? var).map values

/-- Any assignment of the circuit variables can be carried over to their images. -/
theorem Numbering.WellFormed.exists_values {numbering : Numbering} (valid : numbering.WellFormed)
    (assignment : Nat → Bool) : ∃ values : Nat → Bool,
      ∀ var image, numbering.image? var = some image → values image = assignment var := by
  refine ⟨fun image => assignment (numbering.origins[image - 1]?.getD 0), ?_⟩
  intro var image mapped
  have positive := (valid.image_bound mapped).1
  obtain ⟨index, rfl⟩ : ∃ index, image = index + 1 := ⟨image - 1, by omega⟩
  dsimp only
  rw [Nat.add_sub_cancel, (valid.inverse var index).mp mapped, Option.getD_some]

namespace Circuit

variable {circuit : Circuit} {values assignment : Nat → Bool}

/-- A model of the clauses respects every gate whose output has an image. -/
theorem WellFormed.supported_of_clauses (valid : circuit.WellFormed) (closed : circuit.Closed [])
    (holds : ∀ clause ∈ circuit.netlist.clauses, clause.eval values = true) :
    ∀ gate ∈ circuit.netlist.gates, gate.Supported (circuit.numbering.pull values) := by
  intro gate member value known
  obtain ⟨image, mapped, rfl⟩ := Option.map_eq_some_iff.mp known
  obtain waiting | ⟨literals, encoded⟩ := closed gate member image mapped
  · contradiction
  · have carries := valid.carried member encoded
    have code : (gate.connective, literals) ∈ circuit.netlist.codes :=
      List.mem_filterMap.mpr ⟨gate, Array.mem_toList_iff.mpr member, by rw [encoded]; rfl⟩
    have gatewise := (Tseitin.clausesFor_hold_iff (valid.proper_of_carries carries)
      gate.connective values).mp fun clause among =>
        holds clause (List.mem_flatMap.mpr ⟨_, code, among⟩)
    obtain rfl := Option.some.inj (mapped.symm.trans carries.output.1)
    refine ⟨values literals.left.var, values literals.right.var, ?_, ?_, ?_⟩
    · rw [Numbering.pull, carries.left.1, Option.map_some]
    · rw [Numbering.pull, carries.right.1, Option.map_some]
    · simpa only [Literal.eval, carries.left.2, carries.right.2, carries.output.2,
        (valid.wired member).positive, Bool.bne_false] using gatewise

/-- A consistent assignment satisfies the clauses of all gates. -/
theorem WellFormed.clauses_of_consistent (valid : circuit.WellFormed)
    (consistent : circuit.Consistent assignment)
    (same : ∀ var image, circuit.numbering.image? var = some image →
      values image = assignment var) :
    ∀ clause ∈ circuit.netlist.clauses, clause.eval values = true := by
  intro clause member
  obtain ⟨⟨connective, literals⟩, code, among⟩ := List.mem_flatMap.mp member
  obtain ⟨gate, present, rfl, _, carries⟩ := valid.exists_of_mem_codes code
  refine (Tseitin.clausesFor_hold_iff (valid.proper_of_carries carries) gate.connective values).mpr
    ?_ clause among
  rw [carries.left.eval (same _ _ carries.left.1), carries.right.eval (same _ _ carries.right.1),
    carries.output.eval (same _ _ carries.output.1)]
  exact consistent gate present

/-- Putting gates into clauses does not change what is consistent. -/
theorem Encodes.consistent_iff {old new : Circuit} (encodes : old.Encodes new) :
    new.Consistent assignment ↔ old.Consistent assignment := by
  refine ⟨encodes.grows.consistent, fun consistent gate member => ?_⟩
  obtain ⟨before, present, alike⟩ := encodes.exists_old member
  exact alike.consistent (consistent before present)

end Circuit

namespace Session

variable {ε : Type} [Engine ε]

namespace Sound

variable {start : ε} {calls : List Call} {facts : Facts} {session next : Session ε}
  {values assignment : Nat → Bool}

/-- Once nothing waits, a model of what the engine has makes all facts true. -/
theorem holds_of_satisfies (sound : session.Sound start calls facts) (idle : session.pending = [])
    (satisfies : Engine.Satisfies values (clausesOf calls) session.assumptions)
    (same : ∀ var value, session.circuit.numbering.pull values var = some value →
      assignment var = value) : facts.Holds assignment := by
  have agree {literal : Literal} {signal : Signal}
      (denotes : session.circuit.numbering.Denotes literal signal) :
      literal.eval values = signal.eval assignment :=
    denotes.eval (same _ _ (by rw [Numbering.pull, denotes.1, Option.map_some])).symm
  constructor
  · intro signal member
    obtain ⟨literal, among, denotes⟩ := exists_of_forall₂ sound.asserted.flip member
    rw [Session.asserted, idle, List.append_nil] at among
    have unit : [literal] ∈ clausesOf calls := sound.faithful.clauses.mem_iff.mpr
      (List.mem_append_right _ (List.mem_map_of_mem among))
    have holds := satisfies.1 _ unit
    rw [Clause.eval, List.any_cons, List.any_nil, Bool.or_false] at holds
    rw [← agree denotes, holds]
  · intro signal member
    obtain ⟨literal, among, denotes⟩ := exists_of_forall₂ sound.assumed.flip member
    rw [← agree denotes, satisfies.2 literal among]

theorem supported_of_satisfies (sound : session.Sound start calls facts)
    (satisfies : Engine.Satisfies values (clausesOf calls) session.assumptions) :
    ∀ gate ∈ session.circuit.netlist.gates,
      gate.Supported (session.circuit.numbering.pull values) :=
  sound.circuit.supported_of_clauses sound.closed fun _ member =>
    satisfies.1 _ (sound.faithful.clauses.mem_iff.mpr (List.mem_append_left _ member))

/-- A consistent assignment for the facts is a model of what the engine has. -/
theorem satisfies_of_consistent (sound : session.Sound start calls facts)
    (consistent : session.circuit.Consistent assignment) (holds : facts.Holds assignment)
    (same : ∀ var image, session.circuit.numbering.image? var = some image →
      values image = assignment var) :
    Engine.Satisfies values (clausesOf calls) session.assumptions := by
  constructor
  · intro clause member
    rcases List.mem_append.mp (sound.faithful.clauses.mem_iff.mp member) with gate | unit
    · exact sound.circuit.clauses_of_consistent consistent same clause gate
    · obtain ⟨literal, among, rfl⟩ := List.mem_map.mp unit
      obtain ⟨signal, noted, denotes⟩ := sound.exists_asserted (List.mem_append_left _ among)
      rw [Clause.eval, List.any_cons, List.any_nil, Bool.or_false,
        denotes.eval (same _ _ denotes.1)]
      exact holds.1 signal noted
  · intro literal among
    obtain ⟨signal, noted, denotes⟩ := sound.exists_assumed among
    rw [denotes.eval (same _ _ denotes.1)]
    exact holds.2 signal noted

/-- The engine can satisfy what it has exactly if the circuit can satisfy the facts. -/
theorem satisfiable_iff (sound : session.Sound start calls facts) (idle : session.pending = []) :
    (∃ values, Engine.Satisfies values (clausesOf calls) session.assumptions) ↔
      ∃ assignment, session.circuit.Consistent assignment ∧ facts.Holds assignment := by
  constructor
  · rintro ⟨values, satisfies⟩
    obtain ⟨assignment, consistent, same⟩ :=
      sound.circuit.exists_consistent _ (sound.supported_of_satisfies satisfies)
    exact ⟨assignment, consistent, sound.holds_of_satisfies idle satisfies same⟩
  · rintro ⟨assignment, consistent, holds⟩
    obtain ⟨values, same⟩ := sound.circuit.numbering.exists_values assignment
    exact ⟨values, sound.satisfies_of_consistent consistent holds same⟩

/-- The verdict is the engine's answer about the gates in clauses and the facts, none of which
waits any longer. -/
theorem answer (sound : session.Sound start calls facts) {trace : List Event} {verdict : Verdict}
    (returned : session.solve.Returns trace (verdict, next)) :
    ∃ (calls : List Call) (covered : Session ε) (entries : List LogEntry)
        (answer : Except Failure Bool) (engine : ε), covered.Sound start calls facts ∧
      session.circuit.Encodes covered.circuit ∧ covered.pending = [] ∧
      (Engine.solve covered.encoding.engine covered.assumptions).Returns entries
        (answer, engine) ∧
      (verdict = .satisfiable ↔ answer = .ok true) ∧
      (verdict = .unsatisfiable ↔ answer = .ok false) := by
  obtain ⟨before, covered, entries, answer, engine, after, asked, encodes, same, solved, concluded,
    rfl, _⟩ := sound.solve_asks returned
  refine ⟨_, covered, entries, answer, engine, asked, encodes, by rw [same], solved, ?_⟩
  rcases conclude_returns concluded with ⟨rfl, _, _, _, _, _, _, _, rfl⟩ | ⟨rfl, _, rfl⟩ |
    ⟨failure, rfl, _, rfl⟩ <;> simp

/-- On a correct engine a solve that comes to a verdict comes to the right one. -/
theorem verdict_right (sound : session.Sound start calls facts) (correct : Engine.Correct start)
    {trace : List Event} {verdict : Verdict}
    (returned : session.solve.Returns trace (verdict, next)) :
    (verdict = .satisfiable →
      ∃ assignment, session.circuit.Consistent assignment ∧ facts.Holds assignment) ∧
    (verdict = .unsatisfiable →
      ¬∃ assignment, session.circuit.Consistent assignment ∧ facts.Holds assignment) := by
  obtain ⟨_, covered, _, _, _, asked, encodes, idle, solved, positive, negative⟩ :=
    sound.answer returned
  have counting := correct.toCounting
  have right {satisfiable : Bool} {entries : List LogEntry} {engine : ε}
      (solved : (Engine.solve covered.encoding.engine covered.assumptions).Returns entries
        (.ok satisfiable, engine)) : satisfiable = true ↔
      ∃ assignment, session.circuit.Consistent assignment ∧ facts.Holds assignment := by
    have decided := correct.answered asked.faithful.after (asked.declares counting)
      (asked.declares_assumptions counting) solved
    rw [asked.satisfiable_iff idle] at decided
    simpa only [encodes.consistent_iff] using decided
  refine ⟨fun sat => ?_, fun unsat => ?_⟩
  · rw [positive.mp sat] at solved
    exact (right solved).mp rfl
  · rw [negative.mp unsat] at solved
    exact fun found => Bool.false_ne_true ((right solved).mpr found)

/-- An honest engine leads to the right verdict. -/
theorem verdict (sound : session.Sound start calls facts) (honest : Engine.Honest start)
    {trace : List Event} {verdict : Verdict}
    (returned : session.solve.Returns trace (verdict, next)) :
    (verdict = .satisfiable ↔
      ∃ assignment, session.circuit.Consistent assignment ∧ facts.Holds assignment) ∧
      (verdict ≠ .satisfiable → verdict = .unsatisfiable) := by
  obtain ⟨_, _, _, _, _, asked, _, _, solved, positive, negative⟩ := sound.answer returned
  have counting := honest.toCounting
  obtain ⟨satisfiable, rfl⟩ := honest.decided asked.faithful.after (asked.declares counting)
    (asked.declares_assumptions counting) solved
  have other : verdict ≠ .satisfiable → verdict = .unsatisfiable := by
    intro differs
    cases satisfiable with
    | false => exact negative.mpr rfl
    | true => exact absurd (positive.mpr rfl) differs
  obtain ⟨holds, fails⟩ := sound.verdict_right honest.toCorrect returned
  refine ⟨⟨holds, fun found => ?_⟩, other⟩
  by_contra differs
  exact fails (other differs) found

end Sound

/-- On an honest engine every solve of a run returns, with the right verdict: satisfiable exactly if
some assignment respects all gates, encoded or not, and makes all facts of the run true. -/
theorem solve_verdict {engine : ε} (honest : Engine.Honest engine) {settings : Settings}
    {entries : List Entry} {session : Session ε} (run : Run engine settings entries session)
    (small : session.circuit.numbering.numCircuit ≤ maxVar) :
    ∃ trace verdict next, session.solve.Returns trace (verdict, next) ∧
      (verdict = .satisfiable ↔ ∃ assignment, session.circuit.Consistent assignment ∧
        (Facts.of entries).Holds assignment) ∧
      (verdict ≠ .satisfiable → verdict = .unsatisfiable) := by
  obtain ⟨calls, sound⟩ := run.sound small
  obtain ⟨trace, verdict, next, returned⟩ := sound.exists_solve honest.toWilling
  exact ⟨trace, verdict, next, returned, sound.verdict honest returned⟩

/-- On a correct engine, which may give up, the verdicts of a run are right. -/
theorem verdict_sound {engine : ε} (correct : Engine.Correct engine) {settings : Settings}
    {entries : List Entry} {session next : Session ε} (run : Run engine settings entries session)
    (small : session.circuit.numbering.numCircuit ≤ maxVar) {trace : List Event}
    {verdict : Verdict} (returned : session.solve.Returns trace (verdict, next)) :
    (verdict = .satisfiable → ∃ assignment, session.circuit.Consistent assignment ∧
      (Facts.of entries).Holds assignment) ∧
    (verdict = .unsatisfiable → ¬∃ assignment, session.circuit.Consistent assignment ∧
      (Facts.of entries).Holds assignment) := by
  obtain ⟨calls, sound⟩ := run.sound small
  exact sound.verdict_right correct returned

/-- A conjunction without one of its inputs has no model, and has one once it may be as it is. -/
theorem solve_verdict_of_conjunction : ∃ entries session,
    Run (Lexicographic.create true) .standard entries session ∧
    entries.map Entry.operation = [.input, .input, .gate .and ⟨1⟩ ⟨2⟩, .assert ⟨3⟩, .assume ⟨-1⟩,
      .solve, .retract ⟨1⟩] ∧
    entries.map Entry.reply = [.ok (.signal ⟨1⟩), .ok (.signal ⟨2⟩), .ok (.signal ⟨3⟩), .ok .done,
      .ok .done, .ok (.verdict .unsatisfiable), .ok .done] ∧
    session.circuit.numbering.numCircuit ≤ maxVar ∧
    ∃ trace verdict next, session.solve.Returns trace (verdict, next) ∧ verdict = .satisfiable ∧
      next.value ⟨1⟩ = .ok true ∧
      (verdict = .satisfiable ↔ ∃ assignment, session.circuit.Consistent assignment ∧
        (Facts.of entries).Holds assignment) ∧
      (verdict ≠ .satisfiable → verdict = .unsatisfiable) := by
  obtain ⟨entries, session, run, operations, replies, small, solved⟩ :=
    exists_run (Lexicographic.create true) .standard
      [.input, .input, .gate .and ⟨1⟩ ⟨2⟩, .assert ⟨3⟩, .assume ⟨-1⟩, .solve, .retract ⟨1⟩]
      (fun entries session => entries.map Entry.reply = [.ok (.signal ⟨1⟩), .ok (.signal ⟨2⟩),
        .ok (.signal ⟨3⟩), .ok .done, .ok .done, .ok (.verdict .unsatisfiable), .ok .done] ∧
        session.circuit.numbering.numCircuit ≤ maxVar ∧
        session.solve.result.toOption.any fun solved =>
          solved.1 = .satisfiable ∧ solved.2.value ⟨1⟩ = .ok true) (by decide +kernel)
  obtain ⟨⟨_, next⟩, computed, rfl, value⟩ := Outcome.exists_returns solved
  obtain ⟨trace, verdict, other, returned, right⟩ :=
    solve_verdict (Lexicographic.honest true) run small
  obtain ⟨_, same⟩ := returned.unique computed
  cases same
  exact ⟨entries, session, run, operations, replies, small, trace, _, next, returned, rfl, value,
    right⟩

end Session

end CircuitSat
