import CircuitSat.Proofs.Circuit.Cone
import CircuitSat.Proofs.Renaming

/-! # One blueprint, other names

The blueprint of a circuit is what inputs and gates make of it, whatever of it is in clauses. Two
circuits of one blueprint that span the same roots have the same gates in clauses, and they differ
in the names of their clause variables only.
-/

namespace CircuitSat

/-- The number of variables, and the gates without their literals. -/
structure Blueprint where
  numCircuit : Nat
  gates : Array Gate
deriving DecidableEq, Repr

namespace Blueprint

def empty : Blueprint := ⟨0, #[]⟩

/-- Whether the variable of the signal was handed out. -/
def contains (plan : Blueprint) (signal : Signal) : Bool :=
  !signal.isZero && signal.var ≤ plan.numCircuit

/-- One variable more. -/
def addInput (plan : Blueprint) : Blueprint := { plan with numCircuit := plan.numCircuit + 1 }

/-- One gate more, on a new variable, unless the gate is there already or an operand is not. -/
def addGate (plan : Blueprint) (connective : Connective) (left right : Signal) : Blueprint :=
  let signature := Signature.of left connective right
  if (plan.contains left && plan.contains right) && !plan.gates.any (·.signature = signature) then
    ⟨plan.numCircuit + 1, plan.gates.push ⟨signature, .ofVar (plan.numCircuit + 1), none⟩⟩
  else plan

end Blueprint

namespace Circuit

def blueprint (circuit : Circuit) : Blueprint :=
  ⟨circuit.numbering.numCircuit, circuit.netlist.gates.map (·.withLiterals none)⟩

theorem blueprint_empty : Circuit.empty.blueprint = .empty :=
  congrArg (Blueprint.mk 0) Array.map_empty

theorem blueprint_allot (circuit : Circuit) :
    circuit.allot.blueprint = circuit.blueprint.addInput :=
  congrArg (Blueprint.mk · _) circuit.numCircuit_allot

theorem blueprint_has_iff {circuit : Circuit} {signature : Signature} :
    circuit.blueprint.gates.any (·.signature = signature) = true ↔
      ∃ gate ∈ circuit.netlist.gates, gate.signature = signature := by
  simp only [blueprint, Array.any_map, Array.any_eq_true', Function.comp, decide_eq_true_eq]
  rfl

variable {old new left right : Circuit} {connective : Connective} {first second : Signal}

theorem addGate_of_built (built : ∃ gate ∈ old.netlist.gates,
    gate.signature = .of first connective second) :
    old.blueprint.addGate connective first second = old.blueprint := by
  refine if_neg ?_
  rw [blueprint_has_iff.mpr built]
  simp

theorem addGate_of_invalid (invalid : ¬(old.numbering.contains first = true ∧
    old.numbering.contains second = true)) :
    old.blueprint.addGate connective first second = old.blueprint := by
  refine if_neg fun both => ?_
  exact invalid (Bool.and_eq_true_iff.mp (Bool.and_eq_true_iff.mp both).1)

/-- Literals are no part of the blueprint. -/
theorem Encodes.blueprint (encodes : old.Encodes new) : new.blueprint = old.blueprint := by
  rw [Circuit.blueprint, Circuit.blueprint, encodes.numbering.numCircuit]
  congr 1
  refine Array.ext_getElem? fun index => ?_
  rw [Array.getElem?_map, Array.getElem?_map]
  exact encodes.gates index

/-- A gate more is drawn at the end. -/
theorem Adds.blueprint_push {signature : Signature} {output : Signal}
    (adds : old.Adds signature output new) : new.blueprint =
      ⟨old.blueprint.numCircuit + 1, old.blueprint.gates.push ⟨signature, output, none⟩⟩ := by
  simp only [Circuit.blueprint, adds.numCircuit, adds.gates, Array.map_push]
  rfl

/-- A gate that is new is added to the blueprint. -/
theorem Adds.blueprint {output : Signal}
    (adds : old.Adds (.of first connective second) output new)
    (contained : old.numbering.contains first = true ∧ old.numbering.contains second = true)
    (missing : ∀ gate ∈ old.netlist.gates, gate.signature ≠ .of first connective second) :
    new.blueprint = old.blueprint.addGate connective first second := by
  have unbuilt : ¬old.blueprint.gates.any (·.signature = .of first connective second) = true := by
    rw [blueprint_has_iff]
    rintro ⟨gate, member, same⟩
    exact missing gate member same
  have operands : (old.blueprint.contains first && old.blueprint.contains second) = true :=
    Bool.and_eq_true_iff.mpr contained
  rw [Blueprint.addGate, operands, Bool.eq_false_iff.mpr unbuilt, adds.blueprint_push, adds.newest]
  rfl

theorem exists_alike_of_blueprint (same : left.blueprint = right.blueprint) {index : Nat}
    {gate : Gate} (present : left.netlist.gates[index]? = some gate) :
    ∃ other, right.netlist.gates[index]? = some other ∧ other.Alike gate := by
  have gates := congrArg (·.gates[index]?) same
  simp only [blueprint, Array.getElem?_map, present, Option.map_some] at gates
  obtain ⟨other, found, alike⟩ := Option.map_eq_some_iff.mp gates.symm
  injection alike with signature output
  exact ⟨other, found, signature, output⟩

/-- A cone is known by the blueprint. -/
theorem inCone_of_blueprint (same : left.blueprint = right.blueprint) {roots more : List Signal}
    (kept : ∀ signal ∈ roots, signal ∈ more) {var : Nat} (inside : left.netlist.InCone roots var) :
    right.netlist.InCone more var := by
  refine inside.mono (fun gate member => ?_) kept
  obtain ⟨index, present⟩ := Array.mem_iff_getElem?.mp member
  obtain ⟨other, found, alike⟩ := exists_alike_of_blueprint same present
  exact ⟨other, Array.mem_of_getElem? found, alike⟩

end Circuit

/-! ## Names -/

namespace Numbering

variable {numbering left right : Numbering} {literals others : Triple} {gate : Gate}

theorem Carries.unique (first : numbering.Carries literals gate)
    (second : numbering.Carries others gate) : literals = others := by
  obtain ⟨left, right, output⟩ := literals
  obtain rfl := first.left.unique second.left
  obtain rfl := first.right.unique second.right
  obtain rfl := first.output.unique second.output
  rfl

theorem Renames.carries {names : Nat → Nat} (renames : Renames names left right)
    (valid : right.WellFormed) (small : right.numCircuit ≤ maxVar)
    (carries : left.Carries literals gate) : right.Carries (literals.rename names) gate :=
  ⟨renames.denotes valid small carries.left, renames.denotes valid small carries.right,
    renames.denotes valid small carries.output⟩

end Numbering

namespace Circuit

/-- The circuits differ in the names of their clause variables only. -/
structure Renames (names : Nat → Nat) (left right : Circuit) : Prop where
  numCircuit : right.numbering.numCircuit = left.numbering.numCircuit
  numbering : Numbering.Renames names left.numbering right.numbering
  gates : right.netlist.gates = left.netlist.gates.map (·.rename names)

variable {left right : Circuit} {names : Nat → Nat} {roots more : List Signal}

/-- A gate in clauses in both circuits has the same literals, renamed. -/
theorem rename_of_alike (first : left.WellFormed) (second : right.WellFormed)
    (renames : Numbering.Renames names left.numbering right.numbering) {gate other : Gate}
    (here : gate ∈ left.netlist.gates) (there : other ∈ right.netlist.gates)
    (alike : other.Alike gate) (encoded : other.isEncoded = true ↔ gate.isEncoded = true) :
    other = gate.rename names := by
  obtain ⟨signature, output, others⟩ := other
  obtain ⟨rfl, rfl⟩ := alike
  rw [Gate.rename]
  cases stored : gate.literals with
  | none =>
    cases others with
    | none => rfl
    | some literals =>
      have known := encoded.mp rfl
      rw [Gate.isEncoded, stored] at known
      contradiction
  | some literals =>
    cases others with
    | none =>
      have known := encoded.mpr (by rw [Gate.isEncoded, stored]; rfl)
      contradiction
    | some others =>
      obtain ⟨onLeft, onRight, onOutput⟩ := second.carried there rfl
      have carries : right.numbering.Carries others gate := ⟨onLeft, onRight, onOutput⟩
      have renamed := renames.carries second.numbering second.small (first.carried here stored)
      rw [carries.unique renamed]
      rfl

/-- Circuits of one blueprint that span the same signals differ in names only. -/
theorem Spans.exists_renames (first : left.Spans roots) (second : right.Spans more)
    (leftValid : left.WellFormed) (rightValid : right.WellFormed) (leftClosed : left.Closed [])
    (rightClosed : right.Closed []) (same : left.blueprint = right.blueprint)
    (members : ∀ signal, signal ∈ roots ↔ signal ∈ more) :
    ∃ names, left.Renames names right := by
  have cones (var : Nat) : left.netlist.InCone roots var ↔ right.netlist.InCone more var :=
    ⟨inCone_of_blueprint same fun signal => (members signal).mp,
      inCone_of_blueprint same.symm fun signal => (members signal).mpr⟩
  have images (var : Nat) :
      (left.numbering.image? var).isSome = (right.numbering.image? var).isSome := by
    rw [Bool.eq_iff_iff, Option.isSome_iff_exists, Option.isSome_iff_exists,
      first.mapped_iff leftValid leftClosed, second.mapped_iff rightValid rightClosed, cones]
  obtain ⟨names, numbering⟩ := leftValid.numbering.exists_renames images
  refine ⟨names, congrArg Blueprint.numCircuit same.symm, numbering,
    Array.ext_getElem? fun index => ?_⟩
  rw [Array.getElem?_map]
  cases present : left.netlist.gates[index]? with
  | none =>
    cases found : right.netlist.gates[index]? with
    | none => rfl
    | some other =>
      obtain ⟨_, here, _⟩ := exists_alike_of_blueprint same.symm found
      rw [present] at here
      contradiction
  | some gate =>
    obtain ⟨other, found, alike⟩ := exists_alike_of_blueprint same present
    have here := Array.mem_of_getElem? present
    have there := Array.mem_of_getElem? found
    rw [found, Option.map_some, rename_of_alike leftValid rightValid numbering here there alike]
    rw [first.encoded_iff leftValid leftClosed here,
      second.encoded_iff rightValid rightClosed there, cones, alike.2]

namespace Renames

theorem codes (renames : left.Renames names right) : right.netlist.codes =
    left.netlist.codes.map fun (connective, literals) => (connective, literals.rename names) := by
  rw [Netlist.codes, Netlist.codes, renames.gates, Array.toList_map, List.filterMap_map,
    List.map_filterMap]
  congr 1
  funext gate
  cases stored : gate.literals <;> simp [Gate.rename, Gate.withLiterals, Gate.connective, stored]

/-- The clauses of all gates in clauses are the same, renamed. -/
theorem clauses (renames : left.Renames names right) (valid : left.WellFormed) :
    right.netlist.clauses = left.netlist.clauses.map (·.rename names) := by
  rw [Netlist.clauses, Netlist.clauses, clausesOfCodes, clausesOfCodes, renames.codes,
    List.flatMap_map, List.map_flatMap, List.flatMap_def, List.flatMap_def]
  congr 1
  refine List.map_congr_left ?_
  rintro ⟨connective, literals⟩ member
  exact Tseitin.clausesFor_rename (valid.proper_of_mem_codes member) connective

end Renames

end Circuit

end CircuitSat
