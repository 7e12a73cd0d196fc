import CircuitSat.Fault
import Std.Data.TreeMap

/-! # Gate netlists

Gates are kept in the order of their insertion and refer to each other by variables only. Two
indices answer which gate defines a variable and which gates use it. No two gates have one
signature, and a request for a signature is answered from the shorter of its operands' lists of
users.
-/

namespace CircuitSat

structure Netlist where
  gates : Array Gate
  /-- Position of the gate that defines a variable. -/
  definers : Std.TreeMap Nat Nat
  /-- Positions of the gates that use a variable, oldest first. -/
  users : Std.TreeMap Nat (List Nat)

namespace Netlist

def empty : Netlist := ⟨#[], ∅, ∅⟩

def size (netlist : Netlist) : Nat := netlist.gates.size

/-- Position of the gate that defines the variable. -/
def definer? (netlist : Netlist) (var : Nat) : Option Nat := netlist.definers[var]?

/-- The gate that defines the variable. -/
def definition? (netlist : Netlist) (var : Nat) : Option Gate :=
  netlist.definer? var |>.bind (netlist.gates[·]?)

/-- Positions of the gates that use the variable in either polarity, oldest first. -/
def dependents (netlist : Netlist) (var : Nat) : List Nat := netlist.users.getD var []

/-- Whether the gate at a position has the signature. -/
def hasSignature (netlist : Netlist) (signature : Signature) (index : Nat) : Bool :=
  (netlist.gates[index]?).any (·.signature = signature)

/-- Position of the gate of a signature. It is a user of both operands, so one list is enough. -/
def find? (netlist : Netlist) (signature : Signature) : Option Nat :=
  let left := netlist.dependents signature.left.var
  let right := netlist.dependents signature.right.var
  (if left.length ≤ right.length then left else right).find? (netlist.hasSignature signature)

/-- Adds a position to the users of a variable. -/
def addUser (users : Std.TreeMap Nat (List Nat)) (var index : Nat) : Std.TreeMap Nat (List Nat) :=
  users.insert var (users.getD var [] ++ [index])

/-- Adds a gate; its signature must be new, and its output positive and not defined yet. -/
def insert (netlist : Netlist) (signature : Signature) (output : Signal) :
    Except Fault (Nat × Netlist) :=
  let index := netlist.size
  if (netlist.find? signature).isSome then .error (.duplicateGate signature)
  else if output.negated then .error .negatedOutput
  else if netlist.definers.contains output.var then .error (.alreadyDefined output)
  else
    let users := addUser netlist.users signature.left.var index
    .ok (index,
      { gates := netlist.gates.push ⟨signature, output, none⟩
        definers := netlist.definers.insert output.var index
        users :=
          if signature.right.var = signature.left.var then users
          else addUser users signature.right.var index })

/-- Stores the literals of the gate at a position, which can have none before. -/
def setLiterals (netlist : Netlist) (index : Nat) (literals : Triple) : Except Fault Netlist :=
  match netlist.gates[index]? with
  | none => .ok netlist
  | some gate =>
    if gate.isEncoded then .error (.alreadyEncoded gate)
    else
      .ok { netlist with
        gates := netlist.gates.setIfInBounds index { gate with literals := some literals } }

/-- Number of gates that are not in clauses. -/
def unencoded (netlist : Netlist) : Nat := netlist.gates.countP (!·.isEncoded)

/-- Storing literals of a gate leaves one gate less to be put into clauses. -/
theorem unencoded_setLiterals {netlist next : Netlist} {index : Nat} {gate : Gate}
    {literals : Triple} (present : netlist.gates[index]? = some gate)
    (stored : netlist.setLiterals index literals = .ok next) :
    next.unencoded < netlist.unencoded := by
  obtain ⟨bound, entry⟩ := Array.getElem?_eq_some_iff.mp present
  simp only [setLiterals, present] at stored
  split at stored
  · cases stored
  · rename_i plain
    cases stored
    have waiting : 0 < netlist.gates.countP (!·.isEncoded) :=
      Array.countP_pos_iff.mpr ⟨gate, entry ▸ Array.getElem_mem bound, by simpa using plain⟩
    have done : ({ gate with literals := some literals } : Gate).isEncoded = true := rfl
    simp only [unencoded, Array.setIfInBounds, dif_pos bound, Array.countP_set, entry, done]
    simp only [Bool.not_eq_true] at plain
    simp only [plain, Bool.not_false, Bool.not_true, if_true, Bool.false_eq_true, if_false]
    omega

end Netlist

end CircuitSat
