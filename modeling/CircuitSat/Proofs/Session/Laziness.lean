import CircuitSat.Engine.Scripted
import CircuitSat.Proofs.Circuit.Cone
import CircuitSat.Proofs.Session.Solving

/-! # A circuit gets into clauses as far as it matters

Of all that was built, just the cone of what was ever asserted or assumed is numbered and in
clauses. Requests for inputs, gates and verdicts change nothing of that, a new fact adds its cone,
and a retracted assumption takes nothing away.
-/

namespace CircuitSat

theorem mem_stated_append {entries more : List Entry} {signal : Signal} :
    signal ∈ stated (entries ++ more) ↔ signal ∈ stated entries ++ stated more := by
  simp only [stated, everAsserted, everAssumed, List.flatMap_append, List.mem_append]
  tauto

namespace Session

variable {ε : Type} [Engine ε] {start : ε} {calls : List Call} {facts : Facts}
  {roots : List Signal}

/-- A plain request numbers what it states, and what this is computed from. -/
theorem Sound.spans_step {session next : Session ε} (sound : session.Sound start calls facts)
    (spans : session.circuit.Spans roots) {entry : Entry} (plain : entry.operation.isPlain = true)
    (small : next.circuit.numbering.numCircuit ≤ maxVar) (step : Step session entry next) :
    next.circuit.Spans (roots ++ stated [entry]) := by
  have idle {circuit : Circuit} (spans : circuit.Spans roots) : circuit.Spans (roots ++ []) := by
    rwa [List.append_nil]
  cases step.effect sound.circuit plain small with
  | input => exact idle (spans.grows (Circuit.grows_allot _) (Circuit.image?_allot _))
  | built _ _ _ adds => exact idle (spans.grows adds.grows adds.image?)
  | asserted contained mentions | assumed contained mentions =>
    obtain ⟨_, encodes, denotes⟩ := sound.withEncoding contained mentions
    exact mentions.spans sound.circuit contained encodes denotes spans
  | solved returned =>
    rw [sound.solve_circuit returned]
    exact idle spans
  | refused | found | retracted | maxTime | maxConflicts => exact idle spans

/-- What is numbered at the end of a run, and what is in clauses. -/
theorem Run.spans {engine : ε} {settings : Settings} {entries : List Entry} {session : Session ε}
    (run : Run engine settings entries session)
    (small : session.circuit.numbering.numCircuit ≤ maxVar) :
    session.circuit.Spans (stated entries) := by
  obtain ⟨details, same, spans⟩ := run.plain_induction small
    (motive := fun front session => session.circuit.Spans (stated front))
    (fun started => by
      obtain ⟨_, _, _, rfl⟩ := start_returns started
      exact .empty)
    fun sound plain small step spans =>
      (sound.spans_step spans plain small step).congr fun _ => mem_stated_append.symm
  rwa [stated, same.asserts, same.assumes] at spans

/-- In every state of a run exactly the gates are in clauses whose output lies in the cone of what
was ever asserted or assumed, exactly the variables of this cone have literals, and the literals
stored with a gate are those of its signals. -/
theorem lazy_exact {engine : ε} {settings : Settings} {entries : List Entry} {session : Session ε}
    (run : Run engine settings entries session)
    (small : session.circuit.numbering.numCircuit ≤ maxVar) :
    (∀ gate ∈ session.circuit.netlist.gates,
      gate.isEncoded = true ↔
        session.circuit.netlist.InCone (stated entries) gate.output.var) ∧
    (∀ signal, session.circuit.numbering.contains signal = true →
      ∃ found, session.literal? signal = .ok (.ok found) ∧
        (found.isSome = true ↔ session.circuit.netlist.InCone (stated entries) signal.var)) ∧
    ∀ gate ∈ session.circuit.netlist.gates, ∀ literals, gate.literals = some literals →
      session.literal? gate.left = .ok (.ok (some literals.left)) ∧
      session.literal? gate.right = .ok (.ok (some literals.right)) ∧
      session.literal? gate.output = .ok (.ok (some literals.output)) := by
  obtain ⟨calls, sound⟩ := run.sound small
  have spans := run.spans small
  refine ⟨?_, ?_, ?_⟩
  · intro gate member
    exact spans.encoded_iff sound.circuit sound.closed member
  · intro signal contained
    obtain ⟨found, looked, mapped⟩ := exists_literal? sound.circuit contained
    rw [← spans.mapped_iff sound.circuit sound.closed]
    exact ⟨found, looked, mapped⟩
  · intro gate member literals encoded
    have carries := sound.circuit.carried member encoded
    exact ⟨literal?_of_denotes sound.circuit carries.left,
      literal?_of_denotes sound.circuit carries.right,
      literal?_of_denotes sound.circuit carries.output⟩

/-- Three gates, of which the two below a retracted assumption are in clauses. -/
theorem lazy_exact_of_retraction : ∃ entries session,
    Run (Scripted.create [.refute]) .standard entries session ∧
    entries.map Entry.operation = [.input, .input, .input, .gate .and ⟨1⟩ ⟨2⟩, .assume ⟨-4⟩,
      .gate .or ⟨-4⟩ ⟨3⟩, .gate .xor ⟨4⟩ ⟨2⟩, .solve, .assert ⟨-5⟩, .retract ⟨4⟩] ∧
    (session.circuit.numbering.numCircuit ≤ maxVar ∧
      session.circuit.netlist.gates.toList.map Gate.isEncoded = [true, true, false]) ∧
    (∀ gate ∈ session.circuit.netlist.gates,
      gate.isEncoded = true ↔
        session.circuit.netlist.InCone (stated entries) gate.output.var) ∧
    (∀ signal, session.circuit.numbering.contains signal = true →
      ∃ found, session.literal? signal = .ok (.ok found) ∧
        (found.isSome = true ↔ session.circuit.netlist.InCone (stated entries) signal.var)) ∧
    ∀ gate ∈ session.circuit.netlist.gates, ∀ literals, gate.literals = some literals →
      session.literal? gate.left = .ok (.ok (some literals.left)) ∧
      session.literal? gate.right = .ok (.ok (some literals.right)) ∧
      session.literal? gate.output = .ok (.ok (some literals.output)) := by
  refine exists_run_of (by decide +kernel) fun entries session run _ found => ?_
  exact lazy_exact run found.1

end Session

end CircuitSat
