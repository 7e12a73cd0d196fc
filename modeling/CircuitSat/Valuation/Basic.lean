import CircuitSat.Gate
import Std.Data.TreeMap

/-! # Valuations

A valuation gives values to some circuit variables, and with them to their signals and to gates
whose operands are among these.
-/

namespace CircuitSat

/-- Values of some circuit variables. -/
structure Valuation where
  values : Std.TreeMap Nat Bool

namespace Valuation

def empty : Valuation := ⟨∅⟩

def ofList (entries : List (Nat × Bool)) : Valuation := ⟨.ofList entries⟩

/-- The entries in the order of their variables. -/
def toList (valuation : Valuation) : List (Nat × Bool) := valuation.values.toList

/-- Number of valued variables. -/
def size (valuation : Valuation) : Nat := valuation.values.size

def isEmpty (valuation : Valuation) : Bool := valuation.values.isEmpty

/-- Value of a variable. -/
def get? (valuation : Valuation) (var : Nat) : Option Bool := valuation.values[var]?

/-- Gives a variable a value, which replaces an earlier one. -/
def assign (valuation : Valuation) (var : Nat) (value : Bool) : Valuation :=
  ⟨valuation.values.insert var value⟩

theorem get?_assign (valuation : Valuation) (var : Nat) (value : Bool) (other : Nat) :
    (valuation.assign var value).get? other =
      if var = other then some value else valuation.get? other := by
  simp [get?, assign, Std.TreeMap.getElem?_insert]

/-- Value of a signal, if its variable has one. -/
def value? (valuation : Valuation) (signal : Signal) : Option Bool :=
  (valuation.get? signal.var).map (· != signal.negated)

/-- Value that the gate calls for, if both operands have one. -/
def infer? (valuation : Valuation) (gate : Gate) : Option Bool := do
  let left ← valuation.value? gate.left
  let right ← valuation.value? gate.right
  return gate.connective.eval left right

end Valuation

end CircuitSat
