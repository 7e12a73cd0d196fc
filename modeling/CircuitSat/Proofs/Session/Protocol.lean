import CircuitSat.Proofs.Engine.Scripted
import CircuitSat.Proofs.Session.Solving

/-! # Variables are declared before they are used

A literal is given its variable long before a unit clause or a solve uses it. Still a counting
engine is told of the variable in between, whatever the order of the requests, because a request
that numbers variables also declares them.
-/

namespace CircuitSat

namespace Session

variable {ε : Type} [Engine ε] {start : ε} {calls : List Call} {facts : Facts}
  {session next last : Session ε}

namespace Sound

theorem numVars (sound : session.Sound start calls facts) (counting : Engine.Counting start) :
    Engine.numVars session.encoding.engine = session.circuit.numbering.numCnf :=
  sound.faithful.counted counting

/-- A solve uses variables that are known already. -/
theorem declaredFirst_solve (sound : session.Sound start calls facts)
    (counting : Engine.Counting start) {verdict : Verdict} {trace : List Event}
    (returned : session.solve.Returns trace (verdict, next)) :
    DeclaredFirst session.circuit.numbering.numCnf (callsOf trace) := by
  obtain ⟨answer, _, consults⟩ := sound.consults counting returned
  rw [consults.calls]
  apply DeclaredFirst.of_known
  intro call member
  rw [← sound.numVars counting]
  rcases List.mem_append.mp member with waiting | later
  · obtain ⟨literal, among, rfl⟩ := List.mem_map.mp waiting
    obtain ⟨signal, _, denotes⟩ := sound.exists_asserted (List.mem_append_right _ among)
    exact sound.declares_of_denotes counting (List.forall_mem_singleton.mpr ⟨signal, denotes⟩)
  · rcases List.mem_cons.mp later with rfl | shown
    · exact sound.declares_assumptions counting
    · rw [eq_model_of_mem_callsAfter shown]
      exact List.forall_mem_nil _

/-- No plain request uses a variable before it is declared. -/
theorem declaredFirst_step (sound : session.Sound start calls facts)
    (counting : Engine.Counting start) {entry : Entry} (plain : entry.operation.isPlain = true)
    (small : next.circuit.numbering.numCircuit ≤ maxVar) (step : Step session entry next) :
    DeclaredFirst session.circuit.numbering.numCnf (callsOf entry.trace) := by
  have unused {trace : List Event} (none : ∀ call ∈ callsOf trace, call.literals = []) :
      DeclaredFirst session.circuit.numbering.numCnf (callsOf trace) := by
    refine .of_known fun call member => ?_
    rw [none call member]
    exact List.forall_mem_nil _
  cases step.effect sound.circuit plain small with
  | input | refused | retracted => exact unused (List.forall_mem_nil _)
  | found silent | built silent => exact unused (by simp [silent])
  | asserted contained mentions made | assumed contained mentions made =>
    rw [made]
    exact sound.faithful.declaredFirst_mentions counting sound.circuit sound.closed contained
      mentions
  | solved returned => exact sound.declaredFirst_solve counting returned
  | maxTime made | maxConflicts made => exact unused (by simp [made, Call.literals])

end Sound

/-- No call of a run uses a variable before it is declared. -/
theorem Transcript.declaredFirst {engine : ε} (counting : Engine.Counting engine)
    {settings : Settings} {entries : List Entry}
    (transcript : Transcript engine settings entries calls last)
    (small : last.circuit.numbering.numCircuit ≤ maxVar) : DeclaredFirst 0 calls := by
  obtain @⟨opening, first, _, started, path⟩ := transcript
  have sound := Sound.initial started
  have opened : DeclaredFirst 0 (callsOf opening) := by
    obtain ⟨_, _, made, _⟩ := start_returns started
    rw [made]
    exact .of_known (by simp [Call.literals])
  obtain ⟨details, same, declared⟩ := path.plain_induction small sound
    (motive := fun front _ => DeclaredFirst 0 (callsOf opening ++ callsOfEntries front))
    (by rwa [callsOfEntries_nil, List.append_nil])
    fun sound plain small step before => by
      rw [callsOfEntries_append, ← List.append_assoc, callsOfEntries_cons, callsOfEntries_nil,
        List.append_nil]
      refine DeclaredFirst.append_iff.mpr ⟨before, ?_⟩
      rw [Nat.zero_add, ← counting.numVars_after sound.faithful.after, sound.numVars counting]
      exact sound.declaredFirst_step counting plain small step
  rwa [same.calls] at declared

/-- At every call the engine has declared what the call uses, and after every request it has all
variables of the session, so that a model of the right length can be taken in. -/
theorem declared_before_use {engine : ε} (counting : Engine.Counting engine) {settings : Settings}
    {entries : List Entry} (transcript : Transcript engine settings entries calls last)
    (small : last.circuit.numbering.numCircuit ≤ maxVar) :
    (∀ before call later, calls = before ++ call :: later →
      ∃ moment, Engine.After engine before moment ∧
        Engine.After moment (call :: later) last.encoding.engine ∧
        Engine.Declares moment call.literals) ∧
    Engine.numVars last.encoding.engine = last.statistics.cnfVars ∧
    ∀ model : Array Bool, model.size = Engine.numVars last.encoding.engine + 1 →
      ∃ log valuation, (Valuation.ofModel last.circuit model).Returns log valuation := by
  have sound := transcript.sound small
  have declared := transcript.declaredFirst counting small
  refine ⟨?_, sound.numVars counting, ?_⟩
  · rintro before call later rfl
    exact counting.exists_moment sound.faithful.after declared
  · intro model size
    rw [sound.numVars counting] at size
    obtain ⟨log, valuation, spread, _⟩ := Valuation.ofModel_spec sound.circuit.numbering
      sound.circuit.small sound.circuit.indexed (by omega : _ < model.size)
    exact ⟨log, valuation, spread⟩

/-- An assumption and an assertion, each with a gate that is put into clauses for it. -/
theorem declared_before_use_of_choice : ∃ entries calls last,
    Transcript (Scripted.create [.claim [true, true, true], .refute]) .standard entries calls last ∧
    entries.map Entry.operation = [.input, .input, .gate .or ⟨1⟩ ⟨-2⟩, .assert ⟨3⟩, .assume ⟨2⟩,
      .solve, .gate .xor ⟨1⟩ ⟨3⟩, .assume ⟨-4⟩, .solve] ∧
    (last.circuit.numbering.numCircuit ≤ maxVar ∧
      calls.drop 3 = [.newVars 3, .clause [⟨-2⟩, ⟨3⟩, ⟨-1⟩], .clause [⟨2⟩, ⟨1⟩],
        .clause [⟨-3⟩, ⟨1⟩], .clause [⟨1⟩], .solve [⟨2⟩], .model, .newVars 1,
        .clause [⟨-3⟩, ⟨-1⟩, ⟨-4⟩], .clause [⟨3⟩, ⟨1⟩, ⟨-4⟩], .clause [⟨3⟩, ⟨-1⟩, ⟨4⟩],
        .clause [⟨-3⟩, ⟨1⟩, ⟨4⟩], .solve [⟨2⟩, ⟨-4⟩]]) ∧
    Engine.Counting (Scripted.create [.claim [true, true, true], .refute]) ∧
    (∀ before call later, calls = before ++ call :: later →
      ∃ moment, Engine.After (Scripted.create [.claim [true, true, true], .refute]) before moment ∧
        Engine.After moment (call :: later) last.encoding.engine ∧
        Engine.Declares moment call.literals) ∧
    Engine.numVars last.encoding.engine = last.statistics.cnfVars ∧
    ∀ model : Array Bool, model.size = Engine.numVars last.encoding.engine + 1 →
      ∃ log valuation, (Valuation.ofModel last.circuit model).Returns log valuation := by
  refine exists_transcript_of (by decide +kernel) fun entries calls last transcript _ found => ?_
  have counting := Scripted.counting [.claim [true, true, true], .refute]
  exact ⟨counting, declared_before_use counting transcript found.1⟩

end Session

end CircuitSat
