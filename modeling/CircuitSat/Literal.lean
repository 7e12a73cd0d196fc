/-! # Clause literals

The clause side numbers its variables from one, independently of the circuit. A literal is a signed
32-bit word as in the DIMACS convention; zero, which ends a clause there, is no proper literal.
-/

namespace CircuitSat

/-- A clause variable or its negation, as a signed word. -/
structure Literal where
  code : Int32
deriving DecidableEq, Repr, Inhabited

/-- A disjunction of literals, in the order in which it is handed to an engine. -/
abbrev Clause := List Literal

namespace Literal

/-- Accepts every word but zero. -/
def ofDimacs? (code : Int32) : Option Literal :=
  if code = 0 then none else some ⟨code⟩

/-- The positive literal of a variable, reduced to 32 bits in two's complement. -/
def ofVar (var : Nat) : Literal := ⟨Int32.ofNat var⟩

def var (literal : Literal) : Nat := literal.code.toInt.natAbs

def positive (literal : Literal) : Bool := 0 < literal.code

def negative (literal : Literal) : Bool := literal.code < 0

/-- Whether the word names a variable and has an opposite. -/
def proper (literal : Literal) : Bool := literal.code ≠ 0 && literal.code ≠ Int32.minValue

/-- The opposite literal; the least word has none. -/
def negate? (literal : Literal) : Option Literal :=
  if literal.code = Int32.minValue then none else some ⟨-literal.code⟩

/-- The literal itself, or its opposite if a negation is asked for. -/
def withSign? (literal : Literal) (negate : Bool) : Option Literal :=
  if negate then literal.negate? else some literal

instance : LE Literal := ⟨fun left right => left.code ≤ right.code⟩

instance (left right : Literal) : Decidable (left ≤ right) :=
  inferInstanceAs (Decidable (left.code ≤ right.code))

/-- Value of the literal under a total assignment of the clause variables. -/
def eval (literal : Literal) (assignment : Nat → Bool) : Bool :=
  assignment literal.var != literal.negative

def varText (var : Nat) : String := "x" ++ toString var

def text (literal : Literal) : String :=
  (if literal.negative then "~" else "") ++ varText literal.var

/-- The signed word in decimal, as clause files write it. -/
def dimacsText (literal : Literal) : String := toString literal.code.toInt

/-- The form used in diagnostics. -/
def diagnostic (literal : Literal) : String := "Lit(" ++ literal.dimacsText ++ ")"

end Literal

/-- A clause holds when one of its literals does. -/
def Clause.eval (clause : Clause) (assignment : Nat → Bool) : Bool :=
  clause.any (·.eval assignment)

/-- Bracketed signed words, separated by commas. -/
def Clause.text (clause : Clause) : String :=
  "[" ++ ", ".intercalate (clause.map Literal.dimacsText) ++ "]"

end CircuitSat
