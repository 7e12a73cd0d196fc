/-! # Signals

A circuit variable is a number from one upwards, and a signal is such a variable or its negation,
packed into one signed 32-bit word. The word zero names no variable, and the least word is the one
signal whose opposite does not fit.
-/

namespace CircuitSat

/-- A signed reference to a circuit variable: the magnitude is the variable, the sign a negation. -/
structure Signal where
  code : Int32
deriving DecidableEq, Repr, Inhabited

namespace Signal

/-- The positive signal of a variable, reduced to 32 bits in two's complement. -/
def ofVar (var : Nat) : Signal := ⟨Int32.ofNat var⟩

/-- The variable that the signal names, whatever its sign. -/
def var (signal : Signal) : Nat := signal.code.toInt.natAbs

def isZero (signal : Signal) : Bool := signal.code = 0

def negated (signal : Signal) : Bool := signal.code < 0

/-- The opposite signal; the least word has none. -/
def negate? (signal : Signal) : Option Signal :=
  if signal.code = Int32.minValue then none else some ⟨-signal.code⟩

/-- The unnegated signal of the same variable; the least word has none. -/
def abs? (signal : Signal) : Option Signal :=
  if signal.negated then signal.negate? else some signal

/-- Signals are ordered as signed words, so every negated one comes before the others. -/
instance : LE Signal := ⟨fun left right => left.code ≤ right.code⟩

instance (left right : Signal) : Decidable (left ≤ right) :=
  inferInstanceAs (Decidable (left.code ≤ right.code))

/-- Value of the signal under a total assignment of the circuit variables. -/
def eval (signal : Signal) (assignment : Nat → Bool) : Bool :=
  assignment signal.var != signal.negated

def text (signal : Signal) : String :=
  (if signal.negated then "~v" else "v") ++ toString signal.var

/-- The form used in diagnostics, which shows the signed word itself. -/
def diagnostic (signal : Signal) : String :=
  "Ref(" ++ toString signal.code.toInt ++ ")"

end Signal

end CircuitSat
