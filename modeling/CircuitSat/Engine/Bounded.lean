import CircuitSat.Engine

/-! # Bounded engines

An engine on top of an incremental solver that declares its variables by using them and that forgets
its limits after each solve. The engine counts the declared variables itself, refuses clauses beyond
them, sets the limits anew for every solve, and gives a model of all declared variables.
-/

namespace CircuitSat

/-- A time limit in nanoseconds, and whether it was found to be over. -/
structure Deadline where
  limit : Option Nat
  fired : Bool
deriving DecidableEq, Repr

namespace Deadline

/-- Starts anew with a limit. -/
def arm (limit : Option Nat) : Deadline := ⟨limit, false⟩

/-- Looks at the time since the start; a deadline that has fired stays so. -/
def poll (deadline : Deadline) (elapsed : Nat) : Deadline :=
  { deadline with fired := deadline.fired || deadline.limit.any (· ≤ elapsed) }

end Deadline

/-- An incremental solver with states of type `β`. -/
class Solver (β : Type) where
  addClause : β → Clause → Except Fault β
  /-- Solves under assumptions, with a limit on the conflicts and a deadline to be looked at on the
  way. There is no answer if the solver gave up. -/
  solve : β → Option Nat → Deadline → List Literal → Except Fault (Option Bool × Deadline × β)
  /-- The largest variable that was ever used. -/
  maxVar : β → Nat
  /-- Value of a used variable, right after a satisfiable solve. -/
  value : β → Nat → Except Fault (Option Bool)

structure Bounded (β : Type) where
  solver : β
  /-- Whether the solver may eliminate variables. -/
  elimination : Bool
  declared : Nat
  maxTime : Option Seconds
  maxConflicts : Option Nat
  threads : Nat

namespace Bounded

variable {β : Type}

def create (solver : β) (elimination : Bool) : Bounded β :=
  ⟨solver, elimination, 0, none, none, 1⟩

/-- Whether the literal is proper and its variable declared. -/
def declares (engine : Bounded β) (literal : Literal) : Bool :=
  literal.code ≠ 0 && literal.var ≤ engine.declared

def newVars (engine : Bounded β) (count : Nat) : Except Fault (Bounded β) := do
  return { engine with declared := ← Engine.countVars engine.declared count }

variable [Solver β]

/-- Hands the clause on, unless one of its literals is not declared. -/
def addClause (engine : Bounded β) (clause : Clause) : Except Fault (Bounded β) :=
  match clause.find? (!engine.declares ·) with
  | some literal => .error (.undeclaredLiteral clause literal)
  | none => do return { engine with solver := ← Solver.addClause engine.solver clause }

omit [Solver β] in
/-- The limit on conflicts that the solver is given; it takes no larger number than this. -/
def conflictLimit (engine : Bounded β) : Option Nat :=
  engine.maxConflicts.map (min · 0x7FFFFFFF)

omit [Solver β] in
/-- The deadline of the next solve. -/
def deadline (engine : Bounded β) : Deadline := .arm (engine.maxTime.bind Seconds.nanoseconds?)

omit [Solver β] in
/-- What a solve comes to. If there is no answer, a deadline that fired is the cause, and else a
bound on the conflicts. -/
def verdict (engine : Bounded β) (answer : Option Bool) (deadline : Deadline) :
    Except Failure Bool :=
  match answer with
  | some satisfiable => .ok satisfiable
  | none =>
    if deadline.fired then .error .timeLimit
    else if engine.maxConflicts.isSome then .error .conflictLimit
    else .error (.engine "solver stopped without a verdict")

/-- Solves within the bounds. -/
def solve (engine : Bounded β) (assumptions : List Literal) :
    Except Fault (Except Failure Bool × Bounded β) := do
  let (answer, deadline, solver) ←
    Solver.solve engine.solver engine.conflictLimit engine.deadline assumptions
  return (engine.verdict answer deadline, { engine with solver })

/-- Value of a declared variable. One that the solver never used is false, and so is one to which it
gives no value. -/
def value (engine : Bounded β) (var : Nat) : Except Fault Bool :=
  if var = 0 || Solver.maxVar engine.solver < var then .ok false
  else do return (← Solver.value engine.solver var).getD false

/-- Values of all declared variables after the unused entry at zero. Their number must fit into 64
bits, and into 63 bits for an array of them. -/
def model (engine : Bounded β) : Except Fault (Array Bool) :=
  let length := engine.declared + 1
  if UInt64.size ≤ length then .error .additionOverflow
  else if UInt64.size / 2 ≤ length then .error .capacityOverflow
  else do return (← (List.range length).mapM engine.value).toArray

omit [Solver β] in
/-- A number below zero or not finite is no bound. -/
def setMaxTime (engine : Bounded β) (bound : Option Seconds) : Bounded β :=
  { engine with maxTime := bound.filter Seconds.isBound }

omit [Solver β] in
/-- Only one thread is ever run; a larger request is kept and logged. -/
def setThreads (engine : Bounded β) (count : Nat) : Outcome LogEntry (Bounded β) := do
  if 1 < count then Outcome.emit (.singleThreaded count)
  return { engine with threads := max count 1 }

instance : Engine (Bounded β) where
  numVars := declared
  newVars engine count := engine.newVars count
  addClause engine clause := engine.addClause clause
  solve engine assumptions := engine.solve assumptions
  model engine := engine.model
  setMaxTime engine bound := pure (engine.setMaxTime bound)
  setMaxConflicts engine bound := pure { engine with maxConflicts := bound }
  setThreads := setThreads

end Bounded

end CircuitSat
