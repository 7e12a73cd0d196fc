import CircuitSat.Engine
import CircuitSat.Search

/-! # The first model in order

An engine without limits that answers with the first model in lexicographic order, the least
variable counting most and the preferred value coming first.
-/

namespace CircuitSat

structure Lexicographic where
  /-- The value that comes first. -/
  preferred : Bool
  numVars : Nat
  clauses : Array Clause
  /-- The last model found. -/
  found : Array Bool

namespace Lexicographic

def create (preferred : Bool) : Lexicographic := ⟨preferred, 0, #[], #[false]⟩

/-- Values up to the last variable after the unused entry at zero. A variable left free has the
preferred value. -/
def complete (engine : Lexicographic) (values : Search.Values) : Array Bool :=
  (Array.range (engine.numVars + 1)).map fun var => var ≠ 0 && values.getD var engine.preferred

/-- Whether there is a model; it is kept if so. -/
def solve (engine : Lexicographic) (assumptions : List Literal) :
    Except Failure Bool × Lexicographic :=
  let clauses := assumptions.map ([·]) ++ engine.clauses.toList
  match (Search.run (fun _ => false) engine.preferred clauses).1 with
  | .model values => (.ok true, { engine with found := engine.complete values })
  | _ => (.ok false, engine)

instance : Engine Lexicographic where
  numVars := numVars
  newVars engine count := do
    return { engine with numVars := ← Engine.countVars engine.numVars count }
  addClause engine clause := pure { engine with clauses := engine.clauses.push clause }
  solve engine assumptions := pure (engine.solve assumptions)
  model engine := pure engine.found
  setMaxTime engine _ := pure engine
  setMaxConflicts engine _ := pure engine
  setThreads engine _ := pure engine

end Lexicographic

end CircuitSat
