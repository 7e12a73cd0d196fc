import CircuitSat.Engine
import CircuitSat.Netlist.Basic
import CircuitSat.Numbering

/-! # Circuits

The two numberings together with the gates between the circuit variables. A gate is put into clauses
only when the walk backward from a signal that matters comes to it; gates that already are in
clauses end the walk.
-/

namespace CircuitSat

structure Circuit where
  numbering : Numbering
  netlist : Netlist

namespace Circuit

def empty : Circuit := ⟨.empty, .empty⟩

/-- Hands out a variable that no gate defines. -/
def allocate (circuit : Circuit) : Except Fault (Signal × Circuit) := do
  let (signal, numbering) ← circuit.numbering.allocate
  return (signal, { circuit with numbering })

/-- Refuses the zero word and variables that were not handed out. -/
def check (circuit : Circuit) (signal : Signal) : Except SessionError Unit :=
  if signal.isZero then .error .zeroVariable
  else if circuit.numbering.contains signal then .ok ()
  else .error (.unknownVariable signal)

/-- The gate that defines the signal's variable. -/
def gate? (circuit : Circuit) (signal : Signal) : Option Gate :=
  circuit.netlist.definition? signal.var

/-- Adds a gate on a given output variable and gives its position. -/
def insert (circuit : Circuit) (signature : Signature) (output : Signal) :
    Except Fault (Nat × Circuit) := do
  let (index, netlist) ← circuit.netlist.insert signature output
  return (index, { circuit with netlist })

/-- The literal of a signal; its variable gets one on first use. -/
def literalOf (circuit : Circuit) (signal : Signal) : Except Fault (Literal × Circuit) := do
  let (literal, numbering) ← circuit.numbering.literalOf signal
  return (literal, { circuit with numbering })

/-- Gives the gate at a position the literals of its operands and of its output. -/
def encode (circuit : Circuit) (index : Nat) (gate : Gate) : Except Fault (Triple × Circuit) := do
  let (left, numbering) ← circuit.numbering.literalOf gate.left
  let (right, numbering) ← numbering.literalOf gate.right
  let (output, numbering) ← numbering.literalOf gate.output
  let netlist ← circuit.netlist.setLiterals index ⟨left, right, output⟩
  return (⟨left, right, output⟩, ⟨numbering, netlist⟩)

theorem unencoded_encode {circuit next : Circuit} {index : Nat} {gate : Gate} {literals : Triple}
    (present : circuit.netlist.gates[index]? = some gate)
    (done : circuit.encode index gate = .ok (literals, next)) :
    next.netlist.unencoded < circuit.netlist.unencoded := by
  simp only [encode, bind, Except.bind, pure, Except.pure] at done
  repeat' split at done
  all_goals cases done
  rename_i stored
  exact Netlist.unencoded_setLiterals present stored

/-- Walks backward from the queued variables, first come first served, and gives literals to every
gate on the way that has none. The gates come out in the order in which the walk met them. -/
def reach (circuit : Circuit) (queue : List Nat) :
    Outcome Event (List (Connective × Triple) × Circuit) :=
  match queue with
  | [] => pure ([], circuit)
  | var :: rest =>
    match circuit.netlist.definer? var with
    | none => circuit.reach rest
    | some index =>
      match _ : circuit.netlist.gates[index]? with
      | none => circuit.reach rest
      | some gate =>
        if gate.isEncoded then circuit.reach rest
        else
          match _ : circuit.encode index gate with
          | .error fault => .fault fault
          | .ok (literals, next) => do
            Outcome.emit (.log (.encoded gate literals))
            let (later, last) ← next.reach (rest ++ gate.inputs.map Signal.var)
            return ((gate.connective, literals) :: later, last)
termination_by 3 * circuit.netlist.unencoded + queue.length
decreasing_by
  · simp
  · simp
  · simp
  · have fewer := unencoded_encode (by assumption) (by assumption)
    simp only [List.length_append, List.length_map, Gate.inputs, List.length_cons, List.length_nil]
    omega

end Circuit

end CircuitSat
