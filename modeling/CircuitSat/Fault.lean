import CircuitSat.Gate

/-! # Faults

A fault is a broken precondition of an operation, as opposed to an error that a caller may expect
and handle. Each cause carries what its message names.
-/

namespace CircuitSat

inductive Fault where
  /-- The least 32-bit word was to be negated. -/
  | negationOverflow
  /-- A counter would pass the largest word it may hold. -/
  | additionOverflow
  | zeroVariable
  | zeroLiteral
  | neverAllocated (signal : Signal)
  | negatedOutput
  | duplicateGate (signature : Signature)
  | alreadyDefined (output : Signal)
  | alreadyEncoded (gate : Gate)
  /-- A variable was taken for an operand of a gate that does not use it. -/
  | foreignOperand
  | untracedAssumption (literal : Literal)
  | shortModel (covered mapped : Nat)
  | undeclaredLiteral (clause : Clause) (literal : Literal)
  /-- A solver was given zero or the least word for a literal. -/
  | improperLiteral
  /-- A solver was asked for a value while it has no model. -/
  | noModel
  /-- An array would be longer than any may be. -/
  | capacityOverflow
deriving DecidableEq, Repr

namespace Fault

def message : Fault → String
  | negationOverflow => "attempt to negate with overflow"
  | additionOverflow => "attempt to add with overflow"
  | zeroVariable => "Variable IDs must be >= 1"
  | zeroLiteral => "Literal must be non-zero"
  | neverAllocated signal => "Circuit variable " ++ signal.text ++ " was never allocated"
  | negatedOutput => "Gate output must be a positive reference"
  | duplicateGate signature => "Duplicate gate " ++ signature.diagnostic
  | alreadyDefined output => "Variable " ++ output.text ++ " already defined by a gate"
  | alreadyEncoded gate => "Gate " ++ gate.text ++ " is already compiled"
  | foreignOperand => "assertion \x60left == right\x60 failed"
  | untracedAssumption literal => "Assumption " ++ literal.text ++ " has no circuit variable"
  | shortModel covered mapped =>
    "Model covers " ++ toString covered ++ " variables, but " ++ toString mapped ++
      " CNF variables are mapped"
  | undeclaredLiteral clause literal =>
    "Malformed clause " ++ clause.text ++ ": literal " ++ literal.dimacsText ++ " is not declared"
  | improperLiteral => "assertion failed: lit != 0 && lit != i32::MIN"
  | noModel => "assertion failed: self.status() == Some(true)"
  | capacityOverflow => "capacity overflow"

/-- The value, or this fault where there is none. -/
def require {α : Type} (fault : Fault) : Option α → Except Fault α
  | some value => .ok value
  | none => .error fault

end Fault

def Signal.negate (signal : Signal) : Except Fault Signal :=
  Fault.negationOverflow.require signal.negate?

def Signal.abs (signal : Signal) : Except Fault Signal :=
  Fault.negationOverflow.require signal.abs?

namespace Literal

def ofDimacs (code : Int32) : Except Fault Literal := Fault.zeroLiteral.require (ofDimacs? code)

def negate (literal : Literal) : Except Fault Literal :=
  Fault.negationOverflow.require literal.negate?

def withSign (literal : Literal) (negate : Bool) : Except Fault Literal :=
  Fault.negationOverflow.require (literal.withSign? negate)

end Literal

/-- The operand beside the one on the given variable. -/
def Gate.other (gate : Gate) (var : Nat) : Except Fault Signal :=
  Fault.foreignOperand.require (gate.other? var)

end CircuitSat
