import CircuitSat.Gate
import CircuitSat.Proofs.Polarity
import CircuitSat.Tseitin

/-! # The clauses of a gate say what the gate says

On proper literals no template faults, and an assignment satisfies the clauses of a gate exactly if
the literal of the output is worth the connective of the literals of the operands, whether or not
these literals share variables.
-/

namespace CircuitSat

/-- All three literals are proper. -/
def Triple.Proper (literals : Triple) : Prop :=
  literals.left.proper = true ∧ literals.right.proper = true ∧ literals.output.proper = true

theorem Triple.Proper.of_toList {literals : Triple}
    (proper : ∀ literal ∈ literals.toList, literal.proper = true) : literals.Proper := by
  obtain ⟨left, rest⟩ := List.forall_mem_cons.mp proper
  obtain ⟨right, last⟩ := List.forall_mem_cons.mp rest
  exact ⟨left, right, last _ List.mem_cons_self⟩

namespace Tseitin

/-- The literal that a pin stands for. -/
def Pin.on (literals : Triple) (pin : Pin) : Literal :=
  if pin.negated then (literalOn literals pin.wire).opposite else literalOn literals pin.wire

/-- The clauses that tie the output to its operands, in the order of submission. -/
def clausesFor (connective : Connective) (literals : Triple) : List Clause :=
  (templates connective).map fun template => template.map (·.on literals)

theorem length_clausesFor (connective : Connective) (literals : Triple) :
    (clausesFor connective literals).length = if connective = .xor then 4 else 3 := by
  cases connective <;> rfl

theorem one_lt_length_of_mem_clausesFor {connective : Connective} {literals : Triple}
    {clause : Clause} (member : clause ∈ clausesFor connective literals) : 1 < clause.length := by
  obtain ⟨template, among, rfl⟩ := List.mem_map.mp member
  have long : ∀ template ∈ templates connective, 1 < template.length := by
    cases connective <;> decide
  rw [List.length_map]
  exact long template among

theorem literalOn_proper {literals : Triple} (proper : literals.Proper) (wire : Wire) :
    (literalOn literals wire).proper = true := by
  obtain ⟨left, right, output⟩ := proper
  cases wire with
  | left => exact left
  | right => exact right
  | output => exact output

theorem instantiate_eq_ok {literals : Triple} (proper : literals.Proper) (template : Template) :
    instantiate literals template = .ok (template.map (·.on literals)) := by
  induction template with
  | nil => rfl
  | cons pin rest ih =>
    rw [instantiate] at ih
    simp only [instantiate, List.mapM_cons, ih,
      Literal.withSign_of_proper (literalOn_proper proper pin.wire)]
    rfl

theorem eval_on {literals : Triple} (proper : literals.Proper) (pin : Pin) (values : Nat → Bool) :
    (pin.on literals).eval values =
      pin.eval fun wire => (literalOn literals wire).eval values := by
  rw [Pin.on, Pin.eval]
  cases pin.negated
  · simp
  · simp [Literal.eval_opposite (literalOn_proper proper pin.wire)]

theorem eval_template {literals : Triple} (proper : literals.Proper) (template : Template)
    (values : Nat → Bool) : Clause.eval (template.map (·.on literals)) values =
      template.eval fun wire => (literalOn literals wire).eval values := by
  rw [Clause.eval, Template.eval, List.any_map]
  congr 1
  funext pin
  exact eval_on proper pin values

/-- The clauses hold exactly for the value that the gate gives to its output. -/
theorem clausesFor_hold_iff {literals : Triple} (proper : literals.Proper) (connective : Connective)
    (values : Nat → Bool) : (∀ clause ∈ clausesFor connective literals, clause.eval values = true) ↔
      literals.output.eval values =
        connective.eval (literals.left.eval values) (literals.right.eval values) := by
  have ties := templates_all_eval connective fun wire => (literalOn literals wire).eval values
  simp only [List.all_eq_true] at ties
  simp only [clausesFor, List.forall_mem_map, eval_template proper]
  exact ties

theorem literalOn_mem (literals : Triple) (wire : Wire) :
    literalOn literals wire ∈ literals.toList := by
  cases wire <;> simp [literalOn, Triple.toList]

/-- Only the variables of the literals occur in the clauses, and only properly. -/
theorem proper_of_mem_clausesFor {literals : Triple} (allowed : Nat → Prop)
    (within : ∀ literal ∈ literals.toList, literal.proper = true ∧ allowed literal.var)
    {connective : Connective} {clause : Clause} (member : clause ∈ clausesFor connective literals)
    {literal : Literal} (among : literal ∈ clause) :
    literal.proper = true ∧ allowed literal.var := by
  obtain ⟨template, _, rfl⟩ := List.mem_map.mp member
  obtain ⟨pin, _, rfl⟩ := List.mem_map.mp among
  obtain ⟨fine, known⟩ := within _ (literalOn_mem literals pin.wire)
  rw [Pin.on]
  split
  · rw [Literal.var_opposite fine]
    exact ⟨Literal.proper_opposite fine, known⟩
  · exact ⟨fine, known⟩

end Tseitin

end CircuitSat
