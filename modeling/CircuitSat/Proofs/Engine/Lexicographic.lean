import CircuitSat.Engine.Lexicographic
import CircuitSat.Proofs.Engine.Contract
import CircuitSat.Proofs.Search

/-! # The engine of first models is honest

Its clauses are the ones that it was given, its answers are those of a search that is never stopped,
and a model of the declared variables is what that search found, with the preferred value for the
variables that it left free.
-/

namespace CircuitSat

theorem Clause.eval_congr {clause : Clause} {values other : Nat → Bool}
    (same : ∀ literal ∈ clause, values literal.var = other literal.var) :
    clause.eval values = clause.eval other := by
  rw [Clause.eval, Clause.eval, Bool.eq_iff_iff, List.any_eq_true, List.any_eq_true]
  refine exists_congr fun literal => and_congr_right fun member => ?_
  rw [Literal.eval, Literal.eval, same literal member]

theorem Literal.code_ne_zero {literal : Literal} (proper : literal.proper = true) :
    literal.code ≠ 0 := by
  simp only [Literal.proper, Bool.and_eq_true, decide_eq_true_eq] at proper
  exact proper.1

theorem Literal.var_pos {literal : Literal} (nonzero : literal.code ≠ 0) : 0 < literal.var := by
  rw [ne_eq, Word.eq_zero_iff] at nonzero
  exact Int.natAbs_pos.mpr nonzero

theorem Literal.var_ne_zero {literal : Literal} (proper : literal.proper = true) :
    literal.var ≠ 0 :=
  Nat.ne_of_gt (Literal.var_pos (Literal.code_ne_zero proper))

namespace Engine

/-- The clauses that are searched for an answer under some assumptions. -/
def searched (clauses : List Clause) (assumptions : List Literal) : List Clause :=
  assumptions.map ([·]) ++ clauses

variable {clauses : List Clause} {assumptions : List Literal}

theorem holds_searched_iff {values : Nat → Bool} :
    (⟨∅, searched clauses assumptions⟩ : Search.Residue).Holds values ↔
      Satisfies values clauses assumptions := by
  have agrees : Search.Agrees ∅ values := fun var value valued => by simp at valued
  have single (literal : Literal) : Clause.eval [literal] values = literal.eval values := by
    simp [Clause.eval]
  simp only [Search.Residue.Holds, agrees, true_and, searched, List.forall_mem_append,
    List.forall_mem_map, single, Satisfies]
  exact and_comm

theorem nonzero_searched
    (proper : ∀ clause ∈ clauses, ∀ literal ∈ clause, literal.proper = true)
    (assumed : ∀ literal ∈ assumptions, literal.proper = true) :
    Search.Nonzero (searched clauses assumptions) := by
  intro clause member literal among
  rcases List.mem_append.mp member with unit | given
  · obtain ⟨single, present, rfl⟩ := List.mem_map.mp unit
    obtain rfl := List.mem_singleton.mp among
    exact Literal.var_ne_zero (assumed literal present)
  · exact Literal.var_ne_zero (proper clause given literal among)

/-- Whether clauses and assumptions hold depends on their variables alone. -/
theorem Satisfies.congr {values other : Nat → Bool}
    (satisfies : Satisfies values clauses assumptions)
    (given : ∀ clause ∈ clauses, ∀ literal ∈ clause, other literal.var = values literal.var)
    (assumed : ∀ literal ∈ assumptions, other literal.var = values literal.var) :
    Satisfies other clauses assumptions := by
  refine ⟨fun clause member => ?_, fun literal member => ?_⟩
  · rw [Clause.eval_congr (given clause member)]
    exact satisfies.1 clause member
  · rw [Literal.eval, assumed literal member]
    exact satisfies.2 literal member

end Engine

namespace Lexicographic

open Engine

/-- The values that were found, and the preferred one for all other variables. -/
def filled (engine : Lexicographic) (values : Search.Values) (var : Nat) : Bool :=
  values.getD var engine.preferred

theorem agrees_filled (engine : Lexicographic) (values : Search.Values) :
    Search.Agrees values (engine.filled values) := by
  intro var value valued
  rw [filled, Std.TreeMap.getD_eq_getD_getElem?, valued, Option.getD_some]

theorem reading_complete {engine : Lexicographic} {values : Search.Values} {var : Nat}
    (nonzero : var ≠ 0) (declared : var ≤ engine.numVars) :
    reading (engine.complete values) var = engine.filled values var := by
  have present : (Array.range (engine.numVars + 1))[var]? = some var := by
    rw [Array.getElem?_range, if_pos (by omega)]
  simp [reading, complete, filled, present, nonzero]

/-- On declared literals the model is worth what the filled values are worth. -/
theorem satisfies_complete {engine : Lexicographic} {assumptions : List Literal}
    (clauses : ∀ clause ∈ engine.clauses.toList, Declares engine clause)
    (assumed : Declares engine assumptions) {values : Search.Values}
    (holds : Satisfies (engine.filled values) engine.clauses.toList assumptions) :
    Satisfies (reading (engine.complete values)) engine.clauses.toList assumptions := by
  have same {literals : List Literal} (declared : Declares engine literals) (literal : Literal)
      (member : literal ∈ literals) :
      reading (engine.complete values) literal.var = engine.filled values literal.var :=
    reading_complete (Literal.var_ne_zero (declared literal member).1) (declared literal member).2
  exact holds.congr (fun clause member => same (clauses clause member)) (same assumed)

theorem solve_eq (engine : Lexicographic) (assumptions : List Literal) :
    engine.solve assumptions =
      match (Search.run (fun _ => false) engine.preferred
          (searched engine.clauses.toList assumptions)).1 with
      | .model values => (.ok true, { engine with found := engine.complete values })
      | _ => (.ok false, engine) := rfl

/-- A solve changes nothing but the model that is kept. -/
theorem solve_kept (engine : Lexicographic) (assumptions : List Literal) :
    (engine.solve assumptions).2.numVars = engine.numVars ∧
      (engine.solve assumptions).2.clauses = engine.clauses := by
  rw [solve_eq]
  split <;> exact ⟨rfl, rfl⟩

theorem solve_right {engine : Lexicographic} {assumptions : List Literal}
    (clauses : ∀ clause ∈ engine.clauses.toList, Declares engine clause)
    (assumed : Declares engine assumptions) :
    (∃ next, engine.solve assumptions = (.ok true, next) ∧
      next.found.size = next.numVars + 1 ∧
      Satisfies (reading next.found) engine.clauses.toList assumptions) ∨
    (engine.solve assumptions = (.ok false, engine) ∧
      ∀ values, ¬Satisfies values engine.clauses.toList assumptions) := by
  have right := Search.run_right engine.preferred
    (nonzero_searched (fun clause member literal among => (clauses clause member literal among).1)
      fun literal member => (assumed literal member).1)
  rw [solve_eq]
  split
  · next values found =>
    rw [found] at right
    refine .inl ⟨_, rfl, by simp [complete], satisfies_complete clauses assumed ?_⟩
    exact holds_searched_iff.mp (right _ (agrees_filled engine values))
  · next other =>
    refine .inr ⟨rfl, fun values holds => ?_⟩
    cases result :
      (Search.run (fun _ => false) engine.preferred
        (searched engine.clauses.toList assumptions)).1 with
    | model values => exact other values result
    | refuted =>
      rw [result] at right
      exact right values (holds_searched_iff.mpr holds)
    | stopped => rwa [result] at right

/-! ## Calls -/

theorem newVars_returns {engine next : Lexicographic} {count : Nat} {entries : List LogEntry}
    (reply : (Engine.newVars engine count).Returns entries next) :
    next = { engine with numVars := engine.numVars + count } := by
  change (do return { engine with numVars := ← Engine.countVars engine.numVars count } :
    Outcome LogEntry Lexicographic).Returns entries next at reply
  simp only [Outcome.returns_bind, Outcome.returns_lift, Outcome.returns_pure] at reply
  obtain ⟨_, total, _, ⟨_, counted⟩, ⟨_, rfl⟩, _⟩ := reply
  rw [countVars_of_ok counted]

/-- Each call adds its clause and its variables, and nothing else changes. -/
theorem takes_kept {engine next : Lexicographic} {call : Call}
    (takes : Takes engine call next) :
    next.clauses.toList = engine.clauses.toList ++ clausesOf [call] ∧
      next.numVars = engine.numVars + call.declared := by
  cases takes with
  | newVars reply =>
    obtain rfl := newVars_returns reply
    exact ⟨(List.append_nil _).symm, rfl⟩
  | clause reply =>
    obtain ⟨_, rfl⟩ := Outcome.returns_pure.mp reply
    exact ⟨Array.toList_push, rfl⟩
  | solve reply =>
    obtain ⟨_, same⟩ := Outcome.returns_pure.mp reply
    obtain ⟨numVars, clauses⟩ := solve_kept engine _
    rw [← same] at numVars clauses
    exact ⟨by rw [clauses]; exact (List.append_nil _).symm, numVars⟩
  | model => exact ⟨(List.append_nil _).symm, rfl⟩
  | maxTime reply | maxConflicts reply | threads reply =>
    obtain ⟨_, rfl⟩ := Outcome.returns_pure.mp reply
    exact ⟨(List.append_nil _).symm, rfl⟩

theorem clauses_of_after {preferred : Bool} {calls : List Call} {last : Lexicographic}
    (after : After (create preferred) calls last) : last.clauses.toList = clausesOf calls := by
  induction after with
  | none => rfl
  | one _ takes ih => rw [(takes_kept takes).1, ih, clausesOf_append]

theorem exists_takes {engine : Lexicographic} {call : Call} (accepted : Accepts engine call) :
    ∃ next, Takes engine call next := by
  cases call with
  | newVars count =>
    have counted : Engine.countVars engine.numVars count = .ok (engine.numVars + count) :=
      if_pos accepted
    have reply : (Engine.newVars engine count).Returns []
        { engine with numVars := engine.numVars + count } := by
      change (do return { engine with numVars := ← Engine.countVars engine.numVars count } :
        Outcome LogEntry Lexicographic).Returns _ _
      rw [counted]
      rfl
    exact ⟨_, .newVars reply⟩
  | clause literals =>
    have reply : (Engine.addClause engine literals).Returns [] _ := rfl
    exact ⟨_, .clause reply⟩
  | solve assumptions =>
    have reply : (Engine.solve engine assumptions).Returns [] (_, _) := rfl
    exact ⟨_, .solve reply⟩
  | model => contradiction
  | maxTime bound =>
    have reply : (Engine.setMaxTime engine bound).Returns [] engine := rfl
    exact ⟨engine, .maxTime reply⟩
  | maxConflicts bound =>
    have reply : (Engine.setMaxConflicts engine bound).Returns [] engine := rfl
    exact ⟨engine, .maxConflicts reply⟩
  | threads count =>
    have reply : (Engine.setThreads engine count).Returns [] engine := rfl
    exact ⟨engine, .threads reply⟩

/-- An answer is right, and a positive one comes with a model of the declared variables. -/
theorem answer_right {preferred : Bool} {calls : List Call} {last next : Lexicographic}
    {assumptions : List Literal} {entries : List LogEntry} {answer : Except Failure Bool}
    (after : After (create preferred) calls last)
    (clauses : ∀ clause ∈ clausesOf calls, Declares last clause)
    (assumed : Declares last assumptions)
    (solved : (Engine.solve last assumptions).Returns entries (answer, next)) :
    (answer = .ok true ∧ next.found.size = next.numVars + 1 ∧
      Satisfies (reading next.found) (clausesOf calls) assumptions) ∨
    (answer = .ok false ∧ ∀ values, ¬Satisfies values (clausesOf calls) assumptions) := by
  rw [← clauses_of_after after] at clauses ⊢
  obtain ⟨_, same⟩ := Outcome.returns_pure.mp solved
  rcases solve_right clauses assumed with ⟨found, positive, right⟩ | ⟨refuted, none⟩
  · rw [positive] at same
    cases same
    exact .inl ⟨rfl, right⟩
  · rw [refuted] at same
    cases same
    exact .inr ⟨rfl, none⟩

theorem honest (preferred : Bool) : Honest (create preferred) where
  toCounting := .of_takes rfl fun takes => (takes_kept takes).2
  shown after clauses assumed solved reply := by
    obtain ⟨_, rfl⟩ := Outcome.returns_pure.mp reply
    rcases answer_right after clauses assumed solved with ⟨_, right⟩ | ⟨refuted, _⟩
    · exact right
    · contradiction
  answered after clauses assumed solved := by
    rcases answer_right after clauses assumed solved with ⟨⟨⟩, _, satisfies⟩ | ⟨⟨⟩, none⟩
    · exact iff_of_true rfl ⟨_, satisfies⟩
    · exact iff_of_false Bool.false_ne_true fun ⟨values, holds⟩ => none values holds
  taken _ accepted _ := exists_takes accepted
  modelled after clauses assumed _ solved := by
    rcases answer_right after clauses assumed solved with ⟨_, size, _⟩ | ⟨refuted, _⟩
    · exact ⟨[], _, rfl, Nat.lt_of_lt_of_eq (Nat.lt_succ_self _) size.symm⟩
    · contradiction
  decided after clauses assumed solved := by
    rcases answer_right after clauses assumed solved with ⟨answered, _⟩ | ⟨answered, _⟩
    · exact ⟨true, answered⟩
    · exact ⟨false, answered⟩

end Lexicographic

end CircuitSat
