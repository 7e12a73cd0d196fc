import CircuitSat.Netlist.Basic
import Std.Data.TreeSet

/-! # Cones

The cone of some signals holds their variables and all that these are computed from.
-/

namespace CircuitSat

namespace Netlist

/-- Number of defined variables that are not among the given ones. -/
def unseen (netlist : Netlist) (seen : Std.TreeSet Nat) : Nat :=
  netlist.definers.keys.countP (!seen.contains ·)

private theorem unseen_insert_le_of (vars : List Nat) (seen : Std.TreeSet Nat) (var : Nat) :
    vars.countP (fun other => !(seen.insert var).contains other) ≤
      vars.countP fun other => !seen.contains other :=
  List.countP_mono_left fun other _ missing => by
    simp only [Std.TreeSet.contains_insert, Bool.not_or, Bool.and_eq_true] at missing
    exact missing.2

theorem unseen_insert_le (netlist : Netlist) (seen : Std.TreeSet Nat) (var : Nat) :
    netlist.unseen (seen.insert var) ≤ netlist.unseen seen :=
  unseen_insert_le_of _ _ _

theorem unseen_insert_lt (netlist : Netlist) (seen : Std.TreeSet Nat) {var : Nat} {gate : Gate}
    (defined : netlist.definition? var = some gate) (fresh : ¬seen.contains var) :
    netlist.unseen (seen.insert var) < netlist.unseen seen := by
  have member : var ∈ netlist.definers := by
    obtain ⟨index, found, _⟩ := Option.bind_eq_some_iff.mp defined
    exact Std.TreeMap.mem_iff_isSome_getElem?.mpr (Option.isSome_of_eq_some found)
  obtain ⟨before, after, split⟩ := List.append_of_mem (Std.TreeMap.mem_keys.mpr member)
  have left := unseen_insert_le_of before seen var
  have right := unseen_insert_le_of after seen var
  simp only [Bool.not_eq_true] at fresh
  simp only [unseen, split, List.countP_append, List.countP_cons, Std.TreeSet.contains_insert_self,
    fresh, Bool.not_true, Bool.not_false, if_true, Bool.false_eq_true, if_false]
  omega

/-- The seen variables together with the queued ones and those below them. -/
def below (netlist : Netlist) (seen : Std.TreeSet Nat) (queue : List Nat) : Std.TreeSet Nat :=
  match queue with
  | [] => seen
  | var :: rest =>
    if _ : seen.contains var then netlist.below seen rest
    else
      match _ : netlist.definition? var with
      | none => netlist.below (seen.insert var) rest
      | some gate => netlist.below (seen.insert var) (gate.inputs.map Signal.var ++ rest)
termination_by 3 * netlist.unseen seen + queue.length
decreasing_by
  · simp only [List.length_cons]; omega
  · have := netlist.unseen_insert_le seen var
    simp only [List.length_cons]; omega
  · have := netlist.unseen_insert_lt seen (by assumption) (by assumption)
    simp only [List.length_append, List.length_map, Gate.inputs, List.length_cons, List.length_nil]
    omega

/-- The variables from which the roots are computed, and those of the roots, in ascending order. -/
def cone (netlist : Netlist) (roots : List Signal) : List Nat :=
  (netlist.below ∅ (roots.map Signal.var)).toList

end Netlist

end CircuitSat
