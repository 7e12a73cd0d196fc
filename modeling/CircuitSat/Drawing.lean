import CircuitSat.Netlist.Cone
import CircuitSat.Session.Basic

/-! # Drawings

The cone of some roots as a graph in the DOT language: inputs at the bottom, gates with an edge to
each operand, and a marker for each root at the top. A drawing is a list of lines, whose texts make
up its text.
-/

namespace CircuitSat

namespace Drawing

/-- How the parts of a drawing look. -/
structure Style where
  gateShape : String
  inputShape : String
  rootShape : String
  negatedEdge : String
  /-- Whether known values are shown. -/
  showValues : Bool
deriving DecidableEq, Repr

def Style.standard : Style := ⟨"ellipse", "box", "rect", "dotted", true⟩

inductive Line where
  | openGraph
  | openSink
  | openSource
  | close
  | input (var : Nat) (value : Option Bool)
  | gate (var : Nat) (value : Option Bool) (connective : Connective)
  /-- An edge from a gate to an operand. -/
  | wire (var : Nat) (operand : Signal)
  | root (index : Nat) (signal : Signal)
  /-- An edge from the marker of a root to its variable. -/
  | target (index : Nat) (signal : Signal)
deriving DecidableEq, Repr

/-- Name of a variable, with its value if it is shown. -/
def label (var : Nat) (value : Option Bool) : String :=
  "v" ++ toString var ++
    match value with
    | some true => " = 1"
    | some false => " = 0"
    | none => ""

/-- A node with its shape and its label. -/
def node (name shape label : String) : String :=
  name ++ " [shape=" ++ shape ++ ", label=\"" ++ label ++ "\"];"

/-- An edge with its attributes. -/
def edge (source target attributes : String) : String :=
  source ++ " -> " ++ target ++ attributes ++ ";"

def Line.text (style : Style) : Line → String
  | openGraph => "digraph \x7b"
  | openSink => "\x7b rank=sink"
  | openSource => "\x7b rank=source"
  | close => "\x7d"
  | input var value => node (toString var) style.inputShape (label var value)
  | gate var value connective =>
    node (toString var) style.gateShape (label var value ++ "\\n" ++ connective.name)
  | wire var operand =>
    edge (toString var) (toString operand.var)
      (if operand.negated then " [style=" ++ style.negatedEdge ++ ", arrowhead=odot]" else "")
  | root index signal => node ("r" ++ toString index) style.rootShape signal.text
  | target index signal =>
    edge ("r" ++ toString index) (toString signal.var)
      (if signal.negated then " [arrowhead=odot]" else "")

end Drawing

namespace Session

open Drawing

variable {ε : Type}

/-- The value shown beside a variable. -/
def shownValue (session : Session ε) (style : Style) (var : Nat) : Option Bool :=
  if style.showValues then (session.value (.ofVar var)).toOption else none

/-- A variable of the sink block, unless a gate defines it. -/
def inputLines (session : Session ε) (style : Style) (var : Nat) : List Line :=
  match session.gate? (.ofVar var) with
  | none => [.input var (session.shownValue style var)]
  | some _ => []

/-- A gate with the edges to its left and its right operand, for a variable that one defines. -/
def gateLines (session : Session ε) (style : Style) (var : Nat) : List Line :=
  match session.gate? (.ofVar var) with
  | none => []
  | some gate =>
    [.gate var (session.shownValue style var) gate.connective, .wire var gate.left,
      .wire var gate.right]

/-- The cone of the valid ones among the roots; others are left out. -/
def drawing (session : Session ε) (roots : List Signal) (style : Style) : List Line :=
  let valid := roots.filter fun root => (session.check root).isOk
  let cone := session.circuit.netlist.cone valid
  [.openGraph, .openSink] ++ cone.flatMap (session.inputLines style) ++ [.close] ++
    cone.flatMap (session.gateLines style) ++
    [.openSource] ++ valid.mapIdx .root ++ [.close] ++
    valid.mapIdx .target ++ [.close]

/-- The drawing as text, each line ended. -/
def drawn (session : Session ε) (roots : List Signal) (style : Style) : String :=
  String.join ((session.drawing roots style).map fun line => line.text style ++ "\n")

end Session

end CircuitSat
