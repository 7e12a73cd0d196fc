import CircuitSat.Engine.Scripted
import CircuitSat.Proofs.Engine.Contract

/-! # Scripted engines count

Whatever the script says, an engine that follows it declares variables as it is asked to and keeps
every clause.
-/

namespace CircuitSat

namespace Scripted

open Engine

theorem solve_numVars (engine : Scripted) (assumptions : List Literal) :
    (engine.solve assumptions).2.numVars = engine.numVars := by
  unfold solve
  split
  · rfl
  · split <;> rfl

/-- Declarations alone change the number of variables. -/
theorem takes_numVars {engine next : Scripted} {call : Call} (takes : Takes engine call next) :
    next.numVars = engine.numVars + call.declared := by
  cases takes with
  | @newVars count _ _ reply =>
    change (do return { engine with numVars := ← Engine.countVars engine.numVars count } :
      Outcome LogEntry Scripted).Returns _ next at reply
    simp only [Outcome.returns_bind, Outcome.returns_lift, Outcome.returns_pure] at reply
    obtain ⟨_, total, _, ⟨_, counted⟩, ⟨_, rfl⟩, _⟩ := reply
    exact countVars_of_ok counted
  | clause reply | maxTime reply | maxConflicts reply | threads reply =>
    obtain ⟨_, rfl⟩ := Outcome.returns_pure.mp reply
    rfl
  | @solve assumptions _ _ _ reply =>
    obtain ⟨_, same⟩ := Outcome.returns_pure.mp reply
    have kept := engine.solve_numVars assumptions
    rwa [← same] at kept
  | model => rfl

/-- Scripted engines take every clause and as many variables as they can count. -/
theorem obliging (engine : Scripted) : Obliging engine where
  counts _ takes := takes_numVars takes
  declares {_ count last} _ fits := by
    have counted : Engine.countVars last.numVars count = .ok (last.numVars + count) := if_pos fits
    let next : Scripted := { last with numVars := last.numVars + count }
    have reply : (Engine.newVars last count).Returns [] next := by
      change (do return { last with numVars := ← Engine.countVars last.numVars count } :
        Outcome LogEntry Scripted).Returns [] next
      rw [counted]
      rfl
    exact ⟨next, .newVars reply⟩
  submits {_ last} _ clause :=
    have reply : (Engine.addClause last clause).Returns []
        { last with clauses := last.clauses.push clause } :=
      Outcome.returns_pure.mpr ⟨rfl, rfl⟩
    ⟨_, .clause reply⟩

/-- Scripted engines keep the clauses that they took, over whichever variables. -/
theorem recording (answers : List ScriptAnswer) :
    Recording (create answers) (fun _ => True) (·.clauses.toList) where
  nothing := rfl
  taken {_ _} after {clause} _ := (obliging (create answers)).submits after clause
  recorded _ takes := by
    cases takes with
    | clause reply =>
      obtain ⟨_, rfl⟩ := Outcome.returns_pure.mp reply
      exact Array.toList_push

theorem counting (answers : List ScriptAnswer) : Counting (create answers) :=
  .of_takes rfl takes_numVars

end Scripted

end CircuitSat
