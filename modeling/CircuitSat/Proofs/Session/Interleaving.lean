import CircuitSat.Proofs.Circuit.Blueprint
import CircuitSat.Proofs.Session.Delivery
import CircuitSat.Proofs.Session.Laziness

/-! # The order of facts and solves does not matter

Two runs that build the same circuit and state the same facts, in whatever order and with whatever
solves in between, come to the same clauses. Only the names of the clause variables depend on the
order, and so do the positions of the clauses.
-/

namespace CircuitSat

open List (Forall₂)

/-- The blueprint after a request; only inputs and gates are drawn in. -/
def Blueprint.after (plan : Blueprint) : Operation → Blueprint
  | .input => plan.addInput
  | .gate connective left right => plan.addGate connective left right
  | _ => plan

theorem foldl_constructions_append (plan : Blueprint) (front : List Entry) (entry : Entry) :
    (constructions (front ++ [entry])).foldl Blueprint.after plan =
      ((constructions front).foldl Blueprint.after plan).after entry.operation := by
  obtain ⟨operation, _, _⟩ := entry
  rw [constructions, List.map_append, List.filter_append, List.foldl_append]
  cases operation <;> rfl

namespace Session

section Blueprint

variable {ε : Type} [Engine ε] {start : ε} {calls : List Call} {facts : Facts}
  {session next last : Session ε}

/-- A plain request changes the blueprint as it says, whatever was in clauses. -/
theorem Sound.blueprint_step (sound : session.Sound start calls facts) {entry : Entry}
    (plain : entry.operation.isPlain = true)
    (small : next.circuit.numbering.numCircuit ≤ maxVar) (step : Step session entry next) :
    next.circuit.blueprint = session.circuit.blueprint.after entry.operation := by
  cases step.effect sound.circuit plain small with
  | input => exact Circuit.blueprint_allot _
  | @refused operation _ invalid =>
    cases operation with
    | gate connective left right =>
      refine (Circuit.addGate_of_invalid fun both => invalid ?_).symm
      simpa [Operation.operands] using both
    | input => exact absurd (List.forall_mem_nil _) invalid
    | _ => rfl
  | found _ member same => exact (Circuit.addGate_of_built ⟨_, member, same⟩).symm
  | built _ contained missing adds => exact adds.blueprint contained missing
  | asserted contained mentions | assumed contained mentions =>
    exact (sound.withEncoding contained mentions).2.1.blueprint
  | solved returned => exact (sound.solve returned).2.blueprint
  | retracted | maxTime | maxConflicts => rfl

/-- The blueprint of a run is drawn from its inputs and gates alone. -/
theorem Transcript.blueprint {engine : ε} {settings : Settings} {entries : List Entry}
    (transcript : Transcript engine settings entries calls last)
    (small : last.circuit.numbering.numCircuit ≤ maxVar)
    (unblocked : ∀ entry ∈ entries, ∀ signals, entry.operation ≠ .block signals) :
    last.circuit.blueprint = (constructions entries).foldl Blueprint.after .empty := by
  obtain ⟨started, path⟩ := transcript
  have sound := Sound.initial started
  obtain ⟨_, _, _, rfl⟩ := start_returns started
  obtain ⟨details, same, drawn⟩ := path.plain_induction small sound
    (motive := fun front session =>
      session.circuit.blueprint = (constructions front).foldl Blueprint.after .empty)
    Circuit.blueprint_empty fun sound plain small step drawn => by
      rw [foldl_constructions_append, ← drawn, sound.blueprint_step plain small step]
  rwa [same.built unblocked] at drawn

end Blueprint

section TwoRuns

variable {ε δ : Type} [Engine ε] [Engine δ] {engine : ε} {other : δ} {left : Session ε}
  {right : Session δ} {calls received : List Call} {names : Nat → Nat}

omit [Engine ε] [Engine δ] in
/-- The literals of signals are renamed, and invalid signals are refused alike. -/
theorem literal?_of_renames (renames : left.circuit.Renames names right.circuit)
    (leftValid : left.circuit.WellFormed) (rightValid : right.circuit.WellFormed)
    (signal : Signal) : right.literal? signal =
      (left.literal? signal).map (·.map (·.map (·.rename names))) := by
  have checks : right.check signal = left.check signal := by
    simp only [check, Circuit.check, Numbering.contains_congr renames.numCircuit]
  rw [literal?, literal?, checks]
  cases left.check signal with
  | error error => rfl
  | ok =>
    obtain ⟨found, looked, denoted, unmapped⟩ :=
      Numbering.lookup_spec leftValid.numbering leftValid.small signal
    obtain ⟨other, again, renamed, _⟩ :=
      Numbering.lookup_spec rightValid.numbering rightValid.small signal
    rw [looked, again]
    cases found with
    | none =>
      have bare := renames.numbering signal.var
      rw [unmapped rfl, Option.map_none] at bare
      cases other with
      | none => rfl
      | some literal =>
        have mapped := ((renamed literal).mp rfl).1
        rw [bare] at mapped
        contradiction
    | some literal =>
      have denotes := (denoted literal).mp rfl
      rw [(renamed _).mpr (renames.numbering.denotes rightValid.numbering rightValid.small denotes)]
      rfl

omit [Engine ε] [Engine δ] in
/-- Unit clauses for the same signals are the same, renamed, in whatever order. -/
theorem submitted_of_renames (renames : left.circuit.Renames names right.circuit)
    (valid : right.circuit.WellFormed) {signals others : List Signal}
    (first : Forall₂ left.circuit.numbering.Denotes left.submitted signals)
    (second : Forall₂ right.circuit.numbering.Denotes right.submitted others)
    (same : signals.Perm others) :
    (left.submitted.map (·.rename names)).Perm right.submitted := by
  have renamed : Forall₂ right.circuit.numbering.Denotes (left.submitted.map (·.rename names))
      signals :=
    List.forall₂_map_left_iff.mpr
      (first.imp fun _ _ denotes => renames.numbering.denotes valid.numbering valid.small denotes)
  obtain ⟨units, both, perm⟩ := List.perm_comp_forall₂ same second.flip
  have unique : Relator.LeftUnique right.circuit.numbering.Denotes :=
    fun _ _ _ head other => head.unique other
  rwa [List.left_unique_forall₂' unique renamed both.flip]

/-- With the same unit clauses the engines have the same clauses, renamed, in whatever order. -/
theorem Sound.clauses_of_renames {facts others : Facts} (first : left.Sound engine calls facts)
    (second : right.Sound other received others)
    (renames : left.circuit.Renames names right.circuit)
    (units : (left.submitted.map (·.rename names)).Perm right.submitted) :
    ((clausesOf calls).map (·.rename names)).Perm (clausesOf received) := by
  have gates : right.encoding.circuit.netlist.clauses =
      left.encoding.circuit.netlist.clauses.map (·.rename names) := renames.clauses first.circuit
  have singles := units.map ([·])
  rw [List.map_map] at singles
  refine (first.faithful.clauses.map _).trans (.trans ?_ second.faithful.clauses.symm)
  rw [List.map_append, gates, List.map_map]
  exact singles.append_left _

theorem Sound.statistics_of_renames {facts others : Facts} (first : left.Sound engine calls facts)
    (second : right.Sound other received others)
    (renames : left.circuit.Renames names right.circuit)
    (clauses : ((clausesOf calls).map (·.rename names)).Perm (clausesOf received)) :
    right.statistics = left.statistics := by
  have gates : right.circuit.netlist.size = left.circuit.netlist.size := by
    rw [Netlist.size, renames.gates, Array.size_map]
    rfl
  have count : right.encoding.numClauses = left.encoding.numClauses := by
    rw [second.faithful.count, first.faithful.count, ← clauses.length_eq, List.length_map]
  rw [statistics, statistics, Encoding.statistics, Encoding.statistics, Statistics.mk.injEq]
  exact ⟨renames.numCircuit, gates,
    renames.numbering.numCnf first.circuit.numbering second.circuit.numbering, count⟩

theorem eq_upToSolve {entries : List Entry}
    (solved : entries.getLast?.map Entry.operation = some .solve) :
    upToSolve entries = entries := by
  obtain ⟨entry, last, solves⟩ := Option.map_eq_some_iff.mp solved
  obtain ⟨front, rfl⟩ := List.getLast?_eq_some_iff.mp last
  exact upToSolve_append_solve front solves

/-- Two runs that build the same and state the same facts, and that end with a solve, come to the
same gates in clauses and to the same clauses under other names, whatever their orders, engines and
settings are. -/
theorem interleaving_immaterial {settings custom : Settings} {entries others : List Entry}
    (first : Transcript engine settings entries calls left)
    (second : Transcript other custom others received right)
    (leftSmall : left.circuit.numbering.numCircuit ≤ maxVar)
    (rightSmall : right.circuit.numbering.numCircuit ≤ maxVar)
    (unblocked : ∀ entry ∈ entries ++ others, ∀ signals, entry.operation ≠ .block signals)
    (built : constructions entries = constructions others)
    (asserted : ∀ signal, signal ∈ everAsserted entries ↔ signal ∈ everAsserted others)
    (assumed : ∀ signal, signal ∈ everAssumed entries ↔ signal ∈ everAssumed others)
    (leftSolved : entries.getLast?.map Entry.operation = some .solve)
    (rightSolved : others.getLast?.map Entry.operation = some .solve) :
    ∃ names : Nat → Nat,
      Set.BijOn names (Set.Icc 1 left.statistics.cnfVars) (Set.Icc 1 right.statistics.cnfVars) ∧
      right.statistics = left.statistics ∧
      right.circuit.netlist.gates = left.circuit.netlist.gates.map (·.rename names) ∧
      (∀ signal, right.literal? signal =
        (left.literal? signal).map (·.map (·.map (·.rename names)))) ∧
      ((clausesOf calls).map (·.rename names)).Perm (clausesOf received) := by
  obtain ⟨here, there⟩ := List.forall_mem_append.mp unblocked
  have leftSound := first.sound leftSmall
  have rightSound := second.sound rightSmall
  have blueprint : left.circuit.blueprint = right.circuit.blueprint := by
    rw [first.blueprint leftSmall here, second.blueprint rightSmall there, built]
  have roots (signal : Signal) : signal ∈ stated entries ↔ signal ∈ stated others := by
    simp only [stated, List.mem_append, asserted, assumed]
  obtain ⟨names, renames⟩ := (first.run.spans leftSmall).exists_renames
    (second.run.spans rightSmall) leftSound.circuit rightSound.circuit leftSound.closed
    rightSound.closed blueprint roots
  have order : (everAsserted entries).eraseDups.Perm (everAsserted others).eraseDups := by
    rw [List.perm_ext_iff_of_nodup (nodup_eraseDups _) (nodup_eraseDups _)]
    simp only [List.mem_eraseDups, asserted, implies_true]
  rw [← eq_upToSolve leftSolved, ← eq_upToSolve rightSolved] at order
  have units := submitted_of_renames renames rightSound.circuit (first.submitted leftSmall)
    (second.submitted rightSmall) order
  have clauses := leftSound.clauses_of_renames rightSound renames units
  exact ⟨names,
    renames.numbering.bijOn leftSound.circuit.numbering rightSound.circuit.numbering,
    leftSound.statistics_of_renames rightSound renames clauses, renames.gates,
    literal?_of_renames renames leftSound.circuit rightSound.circuit, clauses⟩

end TwoRuns

/-- All facts at the end, and facts in between, with clauses under two numberings. -/
theorem interleaving_immaterial_of_batch : ∃ entries calls left,
    Transcript (Scripted.create [.refute]) .standard entries calls left ∧
    entries.map Entry.operation = [.input, .input, .gate .and ⟨1⟩ ⟨2⟩, .gate .xor ⟨3⟩ ⟨-1⟩,
      .assertAll [⟨4⟩, ⟨-2⟩], .assume ⟨3⟩, .solve] ∧
    (left.circuit.numbering.numCircuit ≤ maxVar ∧ everAsserted entries = [⟨4⟩, ⟨-2⟩] ∧
      everAssumed entries = [⟨3⟩] ∧
      clausesOf calls = [[⟨2⟩, ⟨-3⟩, ⟨-1⟩], [⟨-2⟩, ⟨3⟩, ⟨-1⟩], [⟨-2⟩, ⟨-3⟩, ⟨1⟩], [⟨2⟩, ⟨3⟩, ⟨1⟩],
        [⟨-2⟩, ⟨-4⟩, ⟨3⟩], [⟨2⟩, ⟨-3⟩], [⟨4⟩, ⟨-3⟩], [⟨1⟩], [⟨-4⟩]]) ∧
    ∃ others received right,
      Transcript (Scripted.create [.claim [true, true, true], .refute]) .standard others received
        right ∧
      others.map Entry.operation = [.input, .input, .assert ⟨-2⟩, .gate .and ⟨1⟩ ⟨2⟩, .assume ⟨3⟩,
        .solve, .gate .xor ⟨3⟩ ⟨-1⟩, .retract ⟨3⟩, .assert ⟨4⟩, .assert ⟨-2⟩, .solve] ∧
      (right.circuit.numbering.numCircuit ≤ maxVar ∧
        everAsserted others = [⟨-2⟩, ⟨4⟩, ⟨-2⟩] ∧ everAssumed others = [⟨3⟩] ∧
        clausesOf received = [[⟨-3⟩, ⟨-1⟩, ⟨2⟩], [⟨3⟩, ⟨-2⟩], [⟨1⟩, ⟨-2⟩], [⟨-1⟩],
          [⟨3⟩, ⟨-2⟩, ⟨-4⟩], [⟨-3⟩, ⟨2⟩, ⟨-4⟩], [⟨-3⟩, ⟨-2⟩, ⟨4⟩], [⟨3⟩, ⟨2⟩, ⟨4⟩], [⟨4⟩]]) ∧
      (∀ entry ∈ entries ++ others, ∀ signals, entry.operation ≠ .block signals) ∧
      constructions entries = constructions others ∧
      (∀ signal, signal ∈ everAsserted entries ↔ signal ∈ everAsserted others) ∧
      (∀ signal, signal ∈ everAssumed entries ↔ signal ∈ everAssumed others) ∧
      ∃ names : Nat → Nat,
        Set.BijOn names (Set.Icc 1 left.statistics.cnfVars)
          (Set.Icc 1 right.statistics.cnfVars) ∧
        right.statistics = left.statistics ∧
        right.circuit.netlist.gates = left.circuit.netlist.gates.map (·.rename names) ∧
        (∀ signal, right.literal? signal =
          (left.literal? signal).map (·.map (·.map (·.rename names)))) ∧
        ((clausesOf calls).map (·.rename names)).Perm (clausesOf received) := by
  refine exists_transcript_of (by decide +kernel)
    fun entries calls left first operations found => ?_
  refine exists_transcript_of (by decide +kernel)
    fun others received right second requests more => ?_
  obtain ⟨small, asserted, assumed, _⟩ := found
  obtain ⟨fits, alsoAsserted, alsoAssumed, _⟩ := more
  have unblocked : ∀ entry ∈ entries ++ others, ∀ signals, entry.operation ≠ .block signals :=
    List.forall_mem_append.mpr
      ⟨Entry.forall_of_operations operations (∀ signals, · ≠ .block signals) (by simp),
        Entry.forall_of_operations requests (∀ signals, · ≠ .block signals) (by simp)⟩
  have built : constructions entries = constructions others := by
    rw [constructions, constructions, operations, requests]
    rfl
  have sameAsserted (signal : Signal) :
      signal ∈ everAsserted entries ↔ signal ∈ everAsserted others := by
    rw [asserted, alsoAsserted]
    simp [or_comm]
  have sameAssumed (signal : Signal) :
      signal ∈ everAssumed entries ↔ signal ∈ everAssumed others := by
    rw [assumed, alsoAssumed]
  refine ⟨unblocked, built, sameAsserted, sameAssumed, ?_⟩
  refine interleaving_immaterial first second small fits unblocked built sameAsserted sameAssumed
    ?_ ?_
  · rw [← List.getLast?_map, operations]
    rfl
  · rw [← List.getLast?_map, requests]
    rfl

end Session

end CircuitSat
