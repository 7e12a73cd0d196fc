import CircuitSat.Connective
import CircuitSat.Literal
import CircuitSat.Signal

/-! # Gates

A gate computes one connective of two signals into an output variable. Its signature, the connective
with its operands in ascending order, identifies it up to the output, so that both operand orders of
one request name the same gate.
-/

namespace CircuitSat

/-- A connective with its two operands, the smaller signed word first. -/
structure Signature where
  left : Signal
  connective : Connective
  right : Signal
deriving DecidableEq, Repr, Inhabited

namespace Signature

/-- All connectives are symmetric, so ordering the operands loses nothing. -/
def of (left : Signal) (connective : Connective) (right : Signal) : Signature :=
  if left ≤ right then ⟨left, connective, right⟩ else ⟨right, connective, left⟩

/-- Value of the connective under a total assignment of the circuit variables. -/
def eval (signature : Signature) (assignment : Nat → Bool) : Bool :=
  signature.connective.eval (signature.left.eval assignment) (signature.right.eval assignment)

/-- The form used in diagnostics. -/
def diagnostic (signature : Signature) : String :=
  "GateKey \x7b left: " ++ signature.left.diagnostic ++ ", op: " ++
    signature.connective.diagnostic ++ ", right: " ++ signature.right.diagnostic ++ " \x7d"

end Signature

/-- The literals of a gate's two operands and of its output. -/
structure Triple where
  left : Literal
  right : Literal
  output : Literal
deriving DecidableEq, Repr, Inhabited

namespace Triple

def toList (triple : Triple) : List Literal := [triple.left, triple.right, triple.output]

/-- The form used in diagnostics. -/
def diagnostic (triple : Triple) : String :=
  "[" ++ ", ".intercalate (triple.toList.map Literal.diagnostic) ++ "]"

end Triple

/-- A gate, with its literals once it has been put into clauses. -/
structure Gate where
  signature : Signature
  output : Signal
  literals : Option Triple
deriving DecidableEq, Repr, Inhabited

namespace Gate

def left (gate : Gate) : Signal := gate.signature.left

def right (gate : Gate) : Signal := gate.signature.right

def connective (gate : Gate) : Connective := gate.signature.connective

def inputs (gate : Gate) : List Signal := [gate.left, gate.right]

/-- Whether the gate has been put into clauses. -/
def isEncoded (gate : Gate) : Bool := gate.literals.isSome

/-- Whether the variable, in either polarity, is an operand. -/
def uses (gate : Gate) (var : Nat) : Bool := gate.left.var = var || gate.right.var = var

/-- The operand beside the one on the given variable; the left operand is looked at first. -/
def other? (gate : Gate) (var : Nat) : Option Signal :=
  if gate.left.var = var then some gate.right
  else if gate.right.var = var then some gate.left
  else none

/-- Whether the assignment gives the output the value that the operands call for. -/
def Consistent (gate : Gate) (assignment : Nat → Bool) : Prop :=
  gate.output.eval assignment = gate.signature.eval assignment

def text (gate : Gate) : String :=
  gate.output.text ++ " = " ++ gate.connective.name ++ "(" ++ gate.left.text ++ ", " ++
    gate.right.text ++ ")"

end Gate

end CircuitSat
