import CircuitSat.Gate
import CircuitSat.Statistics
import CircuitSat.Verdict

/-! # The log

Entries are kept as data; a line of the log is made of the level, the topic and the text of an
entry.
-/

namespace CircuitSat

inductive LogEntry where
  /-- A gate was asked for; `reused` if one of its signature was there. -/
  | gateBuilt (connective : Connective) (left right output : Signal) (reused : Bool)
  | asserted (signal : Signal) (literal : Literal)
  | assumed (signal : Signal) (literal : Literal)
  | encoded (gate : Gate) (literals : Triple)
  /-- The gates below a signal are in clauses. -/
  | covered (origin : Signal) (newGates cnfVars : Nat)
  | extended (seeded inferred : Nat)
  | noVerdict (failure : Failure)
  | solved (verdict : Verdict) (statistics : Statistics)
  /-- More threads were asked for than the engine can run. -/
  | singleThreaded (requested : Nat)
deriving DecidableEq, Repr

namespace LogEntry

def level : LogEntry → String
  | encoded .. => "TRACE"
  | gateBuilt .. | asserted .. | assumed .. | covered .. | extended .. => "DEBUG"
  | singleThreaded .. => "DEBUG"
  | solved .. => "INFO"
  | noVerdict .. => "WARN"

def topic : LogEntry → String
  | gateBuilt .. | asserted .. | assumed .. | noVerdict .. | solved .. => "session"
  | encoded .. | covered .. => "compile"
  | extended .. => "extend"
  | singleThreaded .. => "cadical"

def text : LogEntry → String
  | gateBuilt connective left right output reused =>
    "gate(" ++ connective.name ++ ", " ++ left.text ++ ", " ++ right.text ++ ") -> " ++
      output.text ++ (if reused then " (existing)" else "")
  | asserted signal literal => "assert(" ++ signal.text ++ ") as " ++ literal.text
  | assumed signal literal => "assume(" ++ signal.text ++ ") as " ++ literal.text
  | encoded gate literals => "compile: " ++ gate.text ++ " as " ++ literals.diagnostic
  | covered origin newGates cnfVars =>
    "add_reachable(from = " ++ origin.text ++ "): " ++ toString newGates ++ " new gates, " ++
      toString cnfVars ++ " cnf vars"
  | extended seeded inferred =>
    "extend_solution: " ++ toString seeded ++ " seeded from model, " ++ toString inferred ++
      " inferred"
  | noVerdict failure => "solve: no verdict: " ++ failure.message
  | solved verdict statistics => "solve: " ++ verdict.text ++ " (" ++ statistics.text ++ ")"
  | singleThreaded requested =>
    "cadical: engine is single-threaded, ignoring request for " ++ toString requested ++ " threads"

def line (entry : LogEntry) : String := entry.level ++ " " ++ entry.topic ++ ": " ++ entry.text

end LogEntry

end CircuitSat
