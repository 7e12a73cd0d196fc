import CircuitSat.Engine.Bounded
import CircuitSat.Search

/-! # The backtracking solver

A solver that searches for the first model anew at each solve. Its clock is nominal: a nanosecond
goes by with each decision, so that the answers do not depend on the machine.
-/

namespace CircuitSat

structure Backtracking where
  clauses : Array Clause
  maxVar : Nat
  /-- The values of a model of all clauses, while there is one. -/
  found : Option Search.Values

namespace Backtracking

def empty : Backtracking := ⟨#[], 0, none⟩

/-- The largest variable of some literals, and at least the given one. -/
def largest (least : Nat) (literals : List Literal) : Nat :=
  literals.foldl (fun largest literal => max largest literal.var) least

/-- Takes proper literals only. A model found before is no longer one of all clauses. -/
def addClause (solver : Backtracking) (clause : Clause) : Except Fault Backtracking :=
  if clause.all Literal.proper then
    .ok ⟨solver.clauses.push clause, largest solver.maxVar clause, none⟩
  else
    .error .improperLiteral

/-- Searches until there is an answer, the conflicts are used up, or the deadline fires. -/
def run (solver : Backtracking) (conflicts : Option Nat) (deadline : Deadline)
    (assumptions : List Literal) : Option Bool × Deadline × Backtracking :=
  let stop (meter : Search.Meter) : Bool :=
    (deadline.poll meter.decisions).fired || conflicts.any (· ≤ meter.conflicts)
  let maxVar := largest solver.maxVar assumptions
  let clauses := assumptions.map ([·]) ++ solver.clauses.toList
  let (result, meter) := Search.run stop false clauses
  let polled := deadline.poll meter.decisions
  match result with
  | .model values => (some true, polled, { solver with maxVar, found := some values })
  | .refuted => (some false, polled, { solver with maxVar, found := none })
  | .stopped => (none, polled, { solver with maxVar, found := none })

/-- Takes proper assumptions only. -/
def solve (solver : Backtracking) (conflicts : Option Nat) (deadline : Deadline)
    (assumptions : List Literal) : Except Fault (Option Bool × Deadline × Backtracking) :=
  if assumptions.all Literal.proper then .ok (solver.run conflicts deadline assumptions)
  else .error .improperLiteral

/-- Value in the model found by the last solve, to which no clause has been added since. -/
def value (solver : Backtracking) (var : Nat) : Except Fault (Option Bool) :=
  match solver.found with
  | some values => .ok values[var]?
  | none => .error .noModel

instance : Solver Backtracking where
  addClause := addClause
  solve := solve
  maxVar := maxVar
  value := value

end Backtracking

/-- An engine within bounds on the backtracking solver. -/
abbrev BoundedSearch : Type := Bounded Backtracking

def BoundedSearch.create (elimination : Bool) : BoundedSearch := Bounded.create .empty elimination

end CircuitSat
