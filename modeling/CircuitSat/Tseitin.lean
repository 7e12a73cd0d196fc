import CircuitSat.Fault

/-! # Clauses of a gate

Each connective has a short list of clause templates over the three wires of a gate. Together they
say that the output equals the connective of the operands, and nothing more.
-/

namespace CircuitSat.Tseitin

inductive Wire where
  | left | right | output
deriving DecidableEq, Repr

/-- A wire of a gate or its negation. -/
inductive Pin where
  | pos (wire : Wire)
  | neg (wire : Wire)
deriving DecidableEq, Repr

namespace Pin

def wire : Pin → Wire
  | pos wire => wire
  | neg wire => wire

def negated : Pin → Bool
  | pos _ => false
  | neg _ => true

/-- Value of the pin under given values of the wires. -/
def eval (pin : Pin) (values : Wire → Bool) : Bool := values pin.wire != pin.negated

end Pin

abbrev Template := List Pin

/-- A template holds when one of its pins does. -/
def Template.eval (template : Template) (values : Wire → Bool) : Bool :=
  template.any (·.eval values)

open Pin Wire in
/-- The clauses that tie the output to its operands, in the order of submission. -/
def templates : Connective → List Template
  | .and => [[neg left, neg right, pos output], [pos left, neg output], [pos right, neg output]]
  | .nand => [[neg left, neg right, neg output], [pos left, pos output], [pos right, pos output]]
  | .or => [[pos left, pos right, neg output], [neg left, pos output], [neg right, pos output]]
  | .nor => [[pos left, pos right, pos output], [neg left, neg output], [neg right, neg output]]
  | .xor =>
    [[neg left, neg right, neg output], [pos left, pos right, neg output],
      [pos left, neg right, pos output], [neg left, pos right, pos output]]

def literalOn (literals : Triple) : Wire → Literal
  | .left => literals.left
  | .right => literals.right
  | .output => literals.output

/-- The clause that a template stands for on given literals. -/
def instantiate (literals : Triple) (template : Template) : Except Fault Clause :=
  template.mapM fun pin => (literalOn literals pin.wire).withSign pin.negated

/-- The templates of a connective hold exactly for its value on the output. -/
theorem templates_all_eval (connective : Connective) (values : Wire → Bool) :
    (templates connective).all (·.eval values) = true ↔
      values .output = connective.eval (values .left) (values .right) := by
  cases connective <;> cases hl : values .left <;> cases hr : values .right <;>
    cases ho : values .output <;>
    simp [templates, Template.eval, Pin.eval, Pin.wire, Pin.negated, Connective.eval, hl, hr, ho]

end CircuitSat.Tseitin
