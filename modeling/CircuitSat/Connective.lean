/-! # Two-input connectives -/

namespace CircuitSat

/-- The operators that a gate can compute. -/
inductive Connective where
  | and | nand | or | nor | xor
deriving DecidableEq, Repr, Inhabited

namespace Connective

def all : List Connective := [.and, .nand, .or, .nor, .xor]

def eval : Connective → Bool → Bool → Bool
  | .and, left, right => left && right
  | .nand, left, right => !(left && right)
  | .or, left, right => left || right
  | .nor, left, right => !(left || right)
  | .xor, left, right => left != right

def name : Connective → String
  | .and => "and"
  | .nand => "nand"
  | .or => "or"
  | .nor => "nor"
  | .xor => "xor"

/-- Reads a name without regard to the case of ASCII letters; no other letters are folded. -/
def ofName? (text : String) : Option Connective :=
  all.find? (·.name = text.map Char.toLower)

/-- What is said of a text that names no connective. -/
def unknownMessage (text : String) : String := "Unknown operator: " ++ text

/-- Values on the operand pairs in binary order, from false, false to true, true. -/
def truthTable (connective : Connective) : List Bool :=
  [connective.eval false false, connective.eval false true,
    connective.eval true false, connective.eval true true]

/-- The form used in diagnostics. -/
def diagnostic : Connective → String
  | .and => "And"
  | .nand => "Nand"
  | .or => "Or"
  | .nor => "Nor"
  | .xor => "Xor"

end Connective

end CircuitSat
