import CircuitSat.Engine.Scripted
import CircuitSat.Proofs.Circuit.Blueprint
import CircuitSat.Proofs.Session.Solving

/-! # Gates define their outputs

Nothing looks for cycles while a circuit is built, and nothing has to: operands are checked before
the output is handed out, so that each gate is on a newer variable than all it is computed from.
Hence the values of the inputs determine all others, and any values will do.
-/

namespace CircuitSat

/-- The variables that gates define, in the order of the gates. -/
def Netlist.outputs (netlist : Netlist) : List Nat := netlist.gates.toList.map (·.output.var)

theorem Netlist.mem_outputs_iff {netlist : Netlist} {var : Nat} :
    var ∈ netlist.outputs ↔ ∃ gate ∈ netlist.gates, gate.output.var = var := by
  simp only [outputs, List.mem_map, Array.mem_toList_iff]

namespace Circuit

/-- The assignments agree on the inputs, which are the variables without a gate. -/
def SameInputs (circuit : Circuit) (left right : Nat → Bool) : Prop :=
  ∀ var, 0 < var → var ≤ circuit.numbering.numCircuit → var ∉ circuit.netlist.outputs →
    left var = right var

/-- Every gate is computed from older variables, and the inputs determine all there is. -/
structure WellFounded (circuit : Circuit) : Prop where
  older {gate : Gate} (member : gate ∈ circuit.netlist.gates) {signal : Signal}
    (input : signal ∈ gate.inputs) :
    circuit.numbering.contains signal = true ∧ signal.var < gate.output.var
  handedOut {gate : Gate} (member : gate ∈ circuit.netlist.gates) :
    circuit.numbering.contains gate.output = true ∧ gate.output.negated = false
  increasing : circuit.netlist.outputs.Pairwise (· < ·)
  single {left right : Nat} {gate other : Gate} (first : circuit.netlist.gates[left]? = some gate)
    (second : circuit.netlist.gates[right]? = some other)
    (same : gate.output.var = other.output.var) : left = right
  determined (inputs : Nat → Bool) : ∃ assignment, circuit.Consistent assignment ∧
    circuit.SameInputs assignment inputs ∧
    ∀ other, circuit.Consistent other → circuit.SameInputs other inputs →
      ∀ var, 0 < var → var ≤ circuit.numbering.numCircuit → other var = assignment var

variable {old new circuit : Circuit}

/-- Putting gates into clauses moves no gate. -/
theorem Encodes.outputs (encodes : old.Encodes new) :
    new.netlist.outputs = old.netlist.outputs := by
  have same := congrArg (fun plan => plan.gates.toList.map (·.output.var)) encodes.blueprint
  simp only [Circuit.blueprint, Array.toList_map, List.map_map] at same
  exact same

/-- A new gate is on a newer variable than all others. -/
theorem Adds.increasing {signature : Signature} {output : Signal}
    (adds : old.Adds signature output new) (valid : old.WellFormed)
    (increasing : old.netlist.outputs.Pairwise (· < ·)) :
    new.netlist.outputs.Pairwise (· < ·) := by
  have appended : new.netlist.outputs = old.netlist.outputs ++ [output.var] := by
    simp only [Netlist.outputs, adds.gates, Array.toList_push, List.map_append, List.map_cons,
      List.map_nil]
  rw [appended, List.pairwise_append]
  refine ⟨increasing, List.pairwise_singleton _ _, fun var member newest last => ?_⟩
  obtain ⟨gate, present, rfl⟩ := Netlist.mem_outputs_iff.mp member
  obtain rfl := List.mem_singleton.mp last
  have bound := (valid.wired present).output
  rw [adds.var_output]
  omega

namespace WellFormed

/-- Two consistent assignments that agree on the inputs agree on all variables. -/
theorem eq_of_sameInputs (valid : circuit.WellFormed) {left right : Nat → Bool}
    (first : circuit.Consistent left) (second : circuit.Consistent right)
    (same : circuit.SameInputs left right) {var : Nat} (positive : 0 < var)
    (bound : var ≤ circuit.numbering.numCircuit) : left var = right var := by
  -- The induction is on the variable: the operands of its gate are older than itself.
  induction var using Nat.strong_induction_on with
  | _ var ih =>
    by_cases defined : var ∈ circuit.netlist.outputs
    · obtain ⟨gate, member, rfl⟩ := Netlist.mem_outputs_iff.mp defined
      have wired := valid.wired member
      have onLeft := ih _ wired.left.2 wired.left.1 (Nat.le_trans (Nat.le_of_lt wired.left.2) bound)
      have onRight :=
        ih _ wired.right.2 wired.right.1 (Nat.le_trans (Nat.le_of_lt wired.right.2) bound)
      rw [(Gate.consistent_iff wired.positive).mp (first gate member),
        (Gate.consistent_iff wired.positive).mp (second gate member), onLeft, onRight]
    · exact same var positive bound defined

/-- Any values of the inputs extend to a consistent assignment, which leaves them as they are. -/
theorem exists_of_inputs (valid : circuit.WellFormed) (inputs : Nat → Bool) :
    ∃ assignment, circuit.Consistent assignment ∧ circuit.SameInputs assignment inputs := by
  obtain ⟨assignment, consistent, kept⟩ := valid.exists_consistent
    (fun var => if var ∈ circuit.netlist.outputs then none else some (inputs var))
    fun gate member value known => by
      dsimp only at known
      rw [if_pos (Netlist.mem_outputs_iff.mpr ⟨gate, member, rfl⟩)] at known
      contradiction
  exact ⟨assignment, consistent, fun var _ _ input => kept var _ (if_neg input)⟩

theorem wellFounded (valid : circuit.WellFormed)
    (increasing : circuit.netlist.outputs.Pairwise (· < ·)) : circuit.WellFounded where
  older {gate} member {signal} input := by
    have wired := valid.wired member
    simp only [Gate.inputs, List.mem_cons, List.not_mem_nil, or_false] at input
    rcases input with rfl | rfl
    · exact ⟨wired.contains_left, wired.left.2⟩
    · exact ⟨wired.contains_right, wired.right.2⟩
  handedOut member := ⟨(valid.wired member).contains_output, (valid.wired member).positive⟩
  increasing := increasing
  single {left right gate other} first second same := by
    have equal := valid.indexed.eq_of_output (Netlist.mem_of_getElem? first)
      (Netlist.mem_of_getElem? second) same
    exact valid.indexed.distinct first second (congrArg Gate.signature equal)
  determined inputs := by
    obtain ⟨assignment, consistent, kept⟩ := valid.exists_of_inputs inputs
    refine ⟨assignment, consistent, kept, fun other respects agrees var positive bound => ?_⟩
    refine valid.eq_of_sameInputs respects consistent (fun var positive bound input => ?_) positive
      bound
    rw [agrees var positive bound input, kept var positive bound input]

end WellFormed

end Circuit

namespace Session

variable {ε : Type} [Engine ε]

/-- No plain request puts a gate on an older variable than a gate before it. -/
theorem Sound.increasing_step {start : ε} {calls : List Call} {facts : Facts}
    {session next : Session ε} (sound : session.Sound start calls facts) {entry : Entry}
    (plain : entry.operation.isPlain = true)
    (small : next.circuit.numbering.numCircuit ≤ maxVar) (step : Step session entry next)
    (increasing : session.circuit.netlist.outputs.Pairwise (· < ·)) :
    next.circuit.netlist.outputs.Pairwise (· < ·) := by
  cases step.effect sound.circuit plain small with
  | built _ _ _ adds => exact adds.increasing sound.circuit increasing
  | asserted contained mentions | assumed contained mentions =>
    exact (sound.withEncoding contained mentions).2.1.outputs ▸ increasing
  | solved returned => exact (sound.solve returned).2.outputs ▸ increasing
  | input | refused | found | retracted | maxTime | maxConflicts => exact increasing

/-- In every state of a run each gate is computed from older variables that were handed out, the
gates are on newer and newer variables, each on its own, and any values of the variables without a
gate extend to exactly one assignment of all variables that respects every gate. -/
theorem definitions_well_founded {engine : ε} {settings : Settings} {entries : List Entry}
    {session : Session ε} (run : Run engine settings entries session)
    (small : session.circuit.numbering.numCircuit ≤ maxVar) : session.circuit.WellFounded := by
  obtain ⟨calls, sound⟩ := run.sound small
  obtain ⟨_, _, increasing⟩ := run.plain_induction small
    (motive := fun _ session => session.circuit.netlist.outputs.Pairwise (· < ·))
    (fun started => by
      obtain ⟨_, _, _, rfl⟩ := start_returns started
      exact .nil)
    fun sound plain small step increasing => sound.increasing_step plain small step increasing
  exact sound.circuit.wellFounded increasing

/-- Gates over gates, an input between them, and a solve in the middle. -/
theorem definitions_well_founded_of_parity : ∃ entries session,
    Run (Scripted.create [.refute]) .standard entries session ∧
    entries.map Entry.operation = [.input, .input, .gate .xor ⟨-2⟩ ⟨1⟩, .assert ⟨3⟩, .solve, .input,
      .gate .xor ⟨3⟩ ⟨4⟩, .gate .nor ⟨-5⟩ ⟨-5⟩] ∧
    (session.circuit.numbering.numCircuit ≤ maxVar ∧
      session.circuit.netlist.outputs = [3, 5, 6]) ∧
    session.circuit.WellFounded := by
  refine exists_run_of (by decide +kernel) fun entries session run _ found => ?_
  exact definitions_well_founded run found.1

end Session

end CircuitSat
