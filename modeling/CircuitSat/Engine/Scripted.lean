import CircuitSat.Engine

/-! # Answers by script

An engine that gives prepared answers, one for each solve, whether they are right or not.
-/

namespace CircuitSat

/-- A prepared answer. The first value of a model belongs to the first variable. -/
inductive ScriptAnswer where
  /-- Satisfiable, with this model, however long it is. -/
  | claim (values : List Bool)
  /-- Satisfiable with this model if it is one. -/
  | check (values : List Bool)
  | refute
  | fail (failure : Failure)
deriving Repr

structure Scripted where
  answers : List ScriptAnswer
  numVars : Nat
  clauses : Array Clause
  /-- The last model given. -/
  given : Array Bool

namespace Scripted

def create (answers : List ScriptAnswer) : Scripted := ⟨answers, 0, #[], #[false]⟩

/-- The assignment with these values for the variables from one on, and false after them. -/
def assignmentOf (values : List Bool) (var : Nat) : Bool := (false :: values).getD var false

/-- Gives the next answer; there is a failure when none is left. -/
def solve (engine : Scripted) (assumptions : List Literal) : Except Failure Bool × Scripted :=
  match engine.answers with
  | [] => (.error (.engine "script exhausted"), engine)
  | answer :: answers =>
    let engine := { engine with answers }
    match answer with
    | .claim values => (.ok true, { engine with given := (false :: values).toArray })
    | .check values =>
      let holds := engine.clauses.all (·.eval (assignmentOf values)) &&
        assumptions.all (·.eval (assignmentOf values))
      let given := Array.ofFn fun index : Fin (engine.numVars + 1) => assignmentOf values index
      (.ok holds, { engine with given })
    | .refute => (.ok false, engine)
    | .fail failure => (.error failure, engine)

instance : Engine Scripted where
  numVars := numVars
  newVars engine count := do
    return { engine with numVars := ← Engine.countVars engine.numVars count }
  addClause engine clause := pure { engine with clauses := engine.clauses.push clause }
  solve engine assumptions := pure (engine.solve assumptions)
  model engine := pure engine.given
  setMaxTime engine _ := pure engine
  setMaxConflicts engine _ := pure engine
  setThreads engine _ := pure engine

end Scripted

end CircuitSat
