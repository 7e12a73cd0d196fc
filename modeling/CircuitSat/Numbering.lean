import CircuitSat.Fault

/-! # The two numberings of variables

Circuit variables are handed out in order, and a clause variable is minted when its circuit variable
first needs one. Signs are carried over, so the literal of an opposite signal is the opposite
literal.
-/

namespace CircuitSat

/-- Circuit variables, clause variables, and which stand for each other. Both kinds count from one.
-/
structure Numbering where
  /-- Clause variable of each circuit variable that has one. -/
  images : Array (Option Nat)
  /-- Circuit variable of each clause variable. -/
  origins : Array Nat
deriving DecidableEq, Repr

namespace Numbering

def empty : Numbering := ⟨#[], #[]⟩

/-- Number of circuit variables, and the largest of them. -/
def numCircuit (numbering : Numbering) : Nat := numbering.images.size

/-- Number of clause variables, and the largest of them. -/
def numCnf (numbering : Numbering) : Nat := numbering.origins.size

/-- The counter of circuit variables runs ahead by one and must fit into 32 bits. -/
def maxCircuit : Nat := UInt32.size - 2

/-- Hands out the next circuit variable. -/
def allocate (numbering : Numbering) : Except Fault (Signal × Numbering) :=
  if numbering.numCircuit < maxCircuit then
    .ok (.ofVar (numbering.numCircuit + 1), { numbering with images := numbering.images.push none })
  else
    .error .additionOverflow

/-- Whether the variable of the signal was handed out. -/
def contains (numbering : Numbering) (signal : Signal) : Bool :=
  !signal.isZero && signal.var ≤ numbering.numCircuit

/-- Clause variable of a circuit variable. -/
def image? (numbering : Numbering) : Nat → Option Nat
  | 0 => none
  | index + 1 => (numbering.images[index]?).join

/-- Clause variable of a circuit variable, minted if there is none yet. -/
def mint (numbering : Numbering) (var : Nat) : Nat × Numbering :=
  match numbering.image? var with
  | some image => (image, numbering)
  | none =>
    let image := numbering.numCnf + 1
    (image,
      { images := numbering.images.setIfInBounds (var - 1) (some image)
        origins := numbering.origins.push var })

/-- The literal of a signal; its variable gets one on first use. -/
def literalOf (numbering : Numbering) (signal : Signal) : Except Fault (Literal × Numbering) :=
  if numbering.contains signal then do
    let (image, next) := numbering.mint signal.var
    let literal ← (Literal.ofVar image).withSign signal.negated
    return (literal, next)
  else
    .error (.neverAllocated signal)

/-- The literal of a signal, if its variable has one. -/
def lookup (numbering : Numbering) (signal : Signal) : Except Fault (Option Literal) :=
  match numbering.image? signal.var with
  | some image => some <$> (Literal.ofVar image).withSign signal.negated
  | none => .ok none

/-- The circuit variable of a clause variable, as a positive signal. -/
def originOf? (numbering : Numbering) : Nat → Option Signal
  | 0 => none
  | index + 1 => (numbering.origins[index]?).map .ofVar

/-- The circuit variable of a clause variable; zero is no clause variable. -/
def originOf (numbering : Numbering) (var : Nat) : Except Fault (Option Signal) :=
  if var = 0 then .error .zeroVariable else .ok (numbering.originOf? var)

/-- The signal that a literal stands for, if its variable stands for one. -/
def signalOf (numbering : Numbering) (literal : Literal) : Except Fault (Option Signal) :=
  match numbering.originOf? literal.var with
  | none => .ok none
  | some origin => some <$> if literal.negative then origin.negate else .ok origin

/-- All clause variables in order, each with its circuit variable. -/
def mapped (numbering : Numbering) : List (Nat × Signal) :=
  numbering.origins.toList.zipIdx.map fun (origin, index) => (index + 1, .ofVar origin)

end Numbering

end CircuitSat
