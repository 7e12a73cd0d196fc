import CircuitSat.Circuit
import CircuitSat.Proofs.Netlist
import CircuitSat.Proofs.Numbering

/-! # Consistent assignments

In a well-formed circuit the operands of a gate are older than its output. Hence values of some
variables that respect the gates among them extend to an assignment that respects every gate, and no
gate that was left out of the clauses can rule out a model of the others.
-/

namespace CircuitSat

/-- Both operands are allocated variables older than the output, which is positive. -/
structure Gate.Wired (numCircuit : Nat) (gate : Gate) : Prop where
  left : 0 < gate.left.var ∧ gate.left.var < gate.output.var
  right : 0 < gate.right.var ∧ gate.right.var < gate.output.var
  output : gate.output.var ≤ numCircuit
  positive : gate.output.negated = false

namespace Gate.Wired

variable {numbering : Numbering} {gate : Gate}

theorem contains_left (wired : gate.Wired numbering.numCircuit) :
    numbering.contains gate.left = true := by
  have bound := wired.output
  have older := wired.left
  exact Numbering.contains_iff.mpr ⟨older.1, by omega⟩

theorem contains_right (wired : gate.Wired numbering.numCircuit) :
    numbering.contains gate.right = true := by
  have bound := wired.output
  have older := wired.right
  exact Numbering.contains_iff.mpr ⟨older.1, by omega⟩

theorem contains_output (wired : gate.Wired numbering.numCircuit) :
    numbering.contains gate.output = true := by
  have older := wired.left
  exact Numbering.contains_iff.mpr ⟨by omega, wired.output⟩

end Gate.Wired

/-- The literals are those of the operands and of the output. -/
structure Numbering.Carries (numbering : Numbering) (literals : Triple) (gate : Gate) : Prop where
  left : numbering.Denotes literals.left gate.left
  right : numbering.Denotes literals.right gate.right
  output : numbering.Denotes literals.output gate.output

theorem Numbering.Extends.carries {old new : Numbering} (extension : Extends old new)
    {literals : Triple} {gate : Gate} (carries : old.Carries literals gate) :
    new.Carries literals gate :=
  ⟨extension.denotes carries.left, extension.denotes carries.right,
    extension.denotes carries.output⟩

namespace Circuit

/-- What every request keeps: exact indices, gates over older variables, and literals of gates that
agree with the numbering. -/
structure WellFormed (circuit : Circuit) : Prop where
  numbering : circuit.numbering.WellFormed
  small : circuit.numbering.numCircuit ≤ maxVar
  indexed : circuit.netlist.Indexed
  wired {gate : Gate} (member : gate ∈ circuit.netlist.gates) :
    gate.Wired circuit.numbering.numCircuit
  carried {gate : Gate} {literals : Triple} (member : gate ∈ circuit.netlist.gates)
    (encoded : gate.literals = some literals) : circuit.numbering.Carries literals gate

/-- A gate whose output has an image is in clauses, or its turn is yet to come. -/
def Closed (circuit : Circuit) (pending : List Nat) : Prop :=
  ∀ gate ∈ circuit.netlist.gates, ∀ image,
    circuit.numbering.image? gate.output.var = some image →
      gate.output.var ∈ pending ∨ ∃ literals, gate.literals = some literals

/-- The assignment respects every gate. -/
def Consistent (circuit : Circuit) (assignment : Nat → Bool) : Prop :=
  ∀ gate ∈ circuit.netlist.gates, gate.Consistent assignment

end Circuit

namespace Gate

/-- If the output is known, then so are the operands, and its value is the one they call for. -/
def Supported (gate : Gate) (known : Nat → Option Bool) : Prop :=
  ∀ value, known gate.output.var = some value →
    ∃ left right, known gate.left.var = some left ∧ known gate.right.var = some right ∧
      value = gate.connective.eval (left != gate.left.negated) (right != gate.right.negated)

theorem consistent_iff {gate : Gate} (positive : gate.output.negated = false)
    {assignment : Nat → Bool} : gate.Consistent assignment ↔
      assignment gate.output.var = gate.connective.eval
        (assignment gate.left.var != gate.left.negated)
        (assignment gate.right.var != gate.right.negated) := by
  simp only [Consistent, Signal.eval, positive, Bool.bne_false, Signature.eval, connective, left,
    right]

theorem Alike.consistent {gate other : Gate} (alike : gate.Alike other) {assignment : Nat → Bool}
    (consistent : gate.Consistent assignment) : other.Consistent assignment := by
  simpa only [Consistent, alike.1, alike.2] using consistent

/-- A consistent gate is supported by the values of any set of variables below its output. -/
theorem supported_of_consistent {gate : Gate} {numCircuit : Nat} (wired : gate.Wired numCircuit)
    {assignment : Nat → Bool} (consistent : gate.Consistent assignment) (bound : Nat) :
    gate.Supported fun var => if var ≤ bound then some (assignment var) else none := by
  intro value known
  dsimp only at known ⊢
  split at known
  · next inside =>
    refine ⟨assignment gate.left.var, assignment gate.right.var, ?_, ?_, ?_⟩
    · exact if_pos (Nat.le_trans (Nat.le_of_lt wired.left.2) inside)
    · exact if_pos (Nat.le_trans (Nat.le_of_lt wired.right.2) inside)
    · rw [← Option.some.inj known]
      exact (consistent_iff wired.positive).mp consistent
  · contradiction

end Gate

namespace Circuit

/-- Known values are kept, gates are evaluated from their operands, other variables are false. -/
def complete (circuit : Circuit) (known : Nat → Option Bool) (var : Nat) : Bool :=
  match known var with
  | some value => value
  | none =>
    match circuit.netlist.definition? var with
    | none => false
    | some gate =>
      if _ : gate.left.var < var ∧ gate.right.var < var then
        gate.connective.eval (circuit.complete known gate.left.var != gate.left.negated)
          (circuit.complete known gate.right.var != gate.right.negated)
      else false

theorem complete_of_known (circuit : Circuit) {known : Nat → Option Bool} {var : Nat} {value : Bool}
    (found : known var = some value) : circuit.complete known var = value := by
  rw [complete, found]

namespace WellFormed

variable {circuit : Circuit}

theorem complete_consistent (valid : circuit.WellFormed) {known : Nat → Option Bool}
    (supported : ∀ gate ∈ circuit.netlist.gates, gate.Supported known) :
    circuit.Consistent (circuit.complete known) := by
  intro gate member
  have wired := valid.wired member
  rw [Gate.consistent_iff wired.positive]
  cases found : known gate.output.var with
  | some value =>
    obtain ⟨left, right, atLeft, atRight, same⟩ := supported gate member value found
    rw [complete_of_known circuit found, complete_of_known circuit atLeft,
      complete_of_known circuit atRight, same]
  | none =>
    rw [complete, found, valid.indexed.definition?_eq_some_iff.mpr ⟨member, rfl⟩]
    exact dif_pos ⟨wired.left.2, wired.right.2⟩

/-- Supported values are those of some consistent assignment. -/
theorem exists_consistent (valid : circuit.WellFormed) (known : Nat → Option Bool)
    (supported : ∀ gate ∈ circuit.netlist.gates, gate.Supported known) :
    ∃ assignment, circuit.Consistent assignment ∧
      ∀ var value, known var = some value → assignment var = value :=
  ⟨circuit.complete known, valid.complete_consistent supported,
    fun _ _ found => complete_of_known circuit found⟩

end WellFormed

end Circuit

end CircuitSat
