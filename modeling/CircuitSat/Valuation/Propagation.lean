import CircuitSat.Circuit
import CircuitSat.Valuation.Basic

/-! # Spreading values

A gate with two valued operands values its output, which in turn may complete the operands of
others. In this way a model comes to value every variable that it determines through the gates.
-/

namespace CircuitSat

namespace Valuation

/-- The value that a gate passes on now that one of its operands has one: none if the output is
valued already or the other operand is not. -/
def derive? (valuation : Valuation) (operand : Nat) (gate : Gate) : Except Fault (Option Bool) :=
  if (valuation.get? gate.output.var).isSome then .ok none
  else do
    let other ← gate.other operand
    if (valuation.value? other).isNone then .ok none else .ok (valuation.infer? gate)

theorem get?_of_derive? {valuation : Valuation} {operand : Nat} {gate : Gate} {value : Bool}
    (derived : valuation.derive? operand gate = .ok (some value)) :
    valuation.get? gate.output.var = none := by
  unfold derive? at derived
  split at derived
  · cases derived
  · rename_i plain
    simpa using plain

end Valuation

/-- A variable that has a value, and the position of a gate that uses it. -/
structure Visit where
  operand : Nat
  user : Nat

namespace Netlist

/-- The gates to look at once a variable has a value. -/
def visits (netlist : Netlist) (var : Nat) : List Visit :=
  (netlist.dependents var).map (⟨var, ·⟩)

end Netlist

namespace Valuation

/-- The gates whose output has no value. -/
def waiting (valuation : Valuation) (netlist : Netlist) : List Gate :=
  netlist.gates.toList.filter fun gate => (valuation.get? gate.output.var).isNone

/-- What the outputs of the gates may still lead to, one visit at the gate itself included. -/
def ahead (netlist : Netlist) (gates : List Gate) : Nat :=
  (gates.flatMap fun gate => gate.output.var :: netlist.dependents gate.output.var).length

theorem ahead_filter_le (netlist : Netlist) (gates : List Gate) (kept : Gate → Bool) :
    ahead netlist (gates.filter kept) ≤ ahead netlist gates := by
  induction gates with
  | nil => exact Nat.le_refl _
  | cons gate rest ih =>
    rw [List.filter_cons]
    split <;> simp only [ahead, List.flatMap_cons, List.length_append] at ih ⊢ <;> omega

/-- Valuing the output of a gate takes away more visits than it leads to. -/
theorem ahead_assign {valuation : Valuation} {netlist : Netlist} {index : Nat} {gate : Gate}
    (value : Bool) (present : netlist.gates[index]? = some gate)
    (unset : valuation.get? gate.output.var = none) :
    ahead netlist ((valuation.assign gate.output.var value).waiting netlist) +
      (netlist.visits gate.output.var).length < ahead netlist (valuation.waiting netlist) := by
  obtain ⟨bound, entry⟩ := Array.getElem?_eq_some_iff.mp present
  have member : gate ∈ valuation.waiting netlist := by
    refine List.mem_filter.mpr ⟨Array.mem_toList_iff.mpr (entry ▸ Array.getElem_mem bound), ?_⟩
    rw [unset, Option.isNone_none]
  have fewer : (valuation.assign gate.output.var value).waiting netlist =
      (valuation.waiting netlist).filter (gate.output.var ≠ ·.output.var) := by
    rw [waiting, waiting, List.filter_filter]
    refine List.filter_congr fun other _ => ?_
    rw [get?_assign]
    split <;> simp [*]
  obtain ⟨before, after, split⟩ := List.append_of_mem member
  have left := ahead_filter_le netlist before (gate.output.var ≠ ·.output.var)
  have right := ahead_filter_le netlist after (gate.output.var ≠ ·.output.var)
  have here : (gate :: after).filter (gate.output.var ≠ ·.output.var) =
      after.filter (gate.output.var ≠ ·.output.var) := List.filter_cons_of_neg (by simp)
  rw [fewer, split, List.filter_append, here]
  simp only [ahead, Netlist.visits, List.length_map, List.flatMap_append, List.flatMap_cons,
    List.length_append, List.length_cons] at left right ⊢
  omega

/-- Values the outputs of the gates to be visited, first come first served, and of those that come
to be visited because of it. -/
def visit (valuation : Valuation) (netlist : Netlist) (queue : List Visit) :
    Except Fault Valuation :=
  match queue with
  | [] => .ok valuation
  | next :: rest =>
    match _ : netlist.gates[next.user]? with
    | none => valuation.visit netlist rest
    | some gate =>
      match _ : valuation.derive? next.operand gate with
      | .error fault => .error fault
      | .ok none => valuation.visit netlist rest
      | .ok (some value) =>
        let output := gate.output.var
        (valuation.assign output value).visit netlist (rest ++ netlist.visits output)
termination_by ahead netlist (valuation.waiting netlist) + queue.length
decreasing_by
  · simp
  · simp
  · have fewer := ahead_assign value (by assumption) (get?_of_derive? (by assumption))
    simp only [List.length_append, List.length_cons]
    omega

/-- Spreads values forward from the variables of the frontier. -/
def propagate (valuation : Valuation) (netlist : Netlist) (frontier : List Nat) :
    Except Fault Valuation :=
  valuation.visit netlist (frontier.flatMap netlist.visits)

/-- The values that a model gives to the variables with clause variables. -/
def seed (numbering : Numbering) (model : Array Bool) : Valuation :=
  numbering.mapped.foldl (fun valuation (image, origin) =>
    valuation.assign origin.var (model.getD image false)) empty

/-- The values that a model entails, forward through all gates. The model has an entry for every
clause variable beside the unused one at zero. -/
def ofModel (circuit : Circuit) (model : Array Bool) : Outcome Event Valuation :=
  let { numbering, netlist } := circuit
  if model.size ≤ numbering.numCnf then .fault (.shortModel (model.size - 1) numbering.numCnf)
  else do
    let seeded := seed numbering model
    let valuation ← seeded.propagate netlist (numbering.mapped.map (·.2.var))
    Outcome.emit (.log (.extended seeded.size (valuation.size - seeded.size)))
    return valuation

end Valuation

end CircuitSat
