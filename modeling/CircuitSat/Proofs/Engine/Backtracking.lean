import CircuitSat.Engine.Backtracking
import CircuitSat.Proofs.Engine.Lexicographic
import CircuitSat.Proofs.Engine.Solver

/-! # The backtracking solver is lawful

Its clauses are the ones that it was given, its largest variable is kept along with them, and what a
search that was not stopped comes to is right. The values found may leave variables open, and then
any value will do for these.
-/

namespace CircuitSat

namespace Backtracking

open Engine

theorem largest_le_iff {least bound : Nat} {literals : List Literal} :
    largest least literals ≤ bound ↔
      least ≤ bound ∧ ∀ literal ∈ literals, literal.var ≤ bound := by
  induction literals generalizing least with
  | nil => simp [largest]
  | cons literal rest ih =>
    rw [List.forall_mem_cons, ← and_assoc, ← Nat.max_le]
    exact ih

/-- The solver after some calls. -/
structure Keeps (calls : List Call) (solver : Backtracking) : Prop where
  clauses : solver.clauses.toList = clausesOf calls
  proper : ∀ clause ∈ solver.clauses.toList, ∀ literal ∈ clause, literal.proper = true
  largest (bound : Nat) :
    solver.maxVar ≤ bound ↔ ∀ literal ∈ literalsOf calls, literal.var ≤ bound

variable {calls : List Call} {solver next : Backtracking}

theorem addClause_eq_ok {clause : Clause} (added : solver.addClause clause = .ok next) :
    (∀ literal ∈ clause, literal.proper = true) ∧
      next = ⟨solver.clauses.push clause, largest solver.maxVar clause, none⟩ := by
  rw [addClause] at added
  split at added
  · next proper =>
    cases added
    exact ⟨List.all_eq_true.mp proper, rfl⟩
  · contradiction

/-- Whether a search under these limits is to stop. -/
def stops (conflicts : Option Nat) (deadline : Deadline) (meter : Search.Meter) : Bool :=
  (deadline.poll meter.decisions).fired || conflicts.any (· ≤ meter.conflicts)

/-- The search for an answer, and what it took. -/
def searching (solver : Backtracking) (conflicts : Option Nat) (deadline : Deadline)
    (assumptions : List Literal) : Search.Result × Search.Meter :=
  Search.run (stops conflicts deadline) false (searched solver.clauses.toList assumptions)

/-- What a solve answers and keeps, by what its search came to. -/
def answered : Search.Result → Option Bool × Option Search.Values
  | .model values => (some true, some values)
  | .refuted => (some false, none)
  | .stopped => (none, none)

/-- A solve keeps the clauses and takes note of the variables of its assumptions. -/
theorem run_eq (solver : Backtracking) (conflicts : Option Nat) (deadline : Deadline)
    (assumptions : List Literal) :
    solver.run conflicts deadline assumptions =
      let (result, meter) := solver.searching conflicts deadline assumptions
      ((answered result).1, deadline.poll meter.decisions,
        ⟨solver.clauses, largest solver.maxVar assumptions, (answered result).2⟩) := by
  cases searched : solver.searching conflicts deadline assumptions with
  | mk result meter =>
    unfold searching stops Engine.searched at searched
    simp only [run, searched]
    cases result <;> rfl

theorem solve_eq_ok {conflicts : Option Nat} {deadline polled : Deadline}
    {assumptions : List Literal} {answer : Option Bool}
    (solved : solver.solve conflicts deadline assumptions = .ok (answer, polled, next)) :
    (∀ literal ∈ assumptions, literal.proper = true) ∧
      answered (solver.searching conflicts deadline assumptions).1 = (answer, next.found) ∧
      next.clauses = solver.clauses ∧ next.maxVar = largest solver.maxVar assumptions ∧
      polled = deadline.poll (solver.searching conflicts deadline assumptions).2.decisions := by
  rw [solve] at solved
  split at solved
  · next proper =>
    rw [run_eq, Except.ok.injEq, Prod.mk.injEq, Prod.mk.injEq] at solved
    obtain ⟨rfl, rfl, rfl⟩ := solved
    exact ⟨List.all_eq_true.mp proper, rfl, rfl, rfl, rfl⟩
  · contradiction

theorem Keeps.takes {call : Call} (keeps : Keeps calls solver)
    (takes : Solver.Takes solver call next) : Keeps (calls ++ [call]) next := by
  have noted (literals : List Literal) (bound : Nat) :
      Backtracking.largest solver.maxVar literals ≤ bound ↔
        ∀ literal ∈ literalsOf calls ++ literals, literal.var ≤ bound := by
    rw [largest_le_iff, keeps.largest, List.forall_mem_append]
  cases takes with
  | @clause literals _ reply =>
    obtain ⟨proper, rfl⟩ := addClause_eq_ok reply
    refine ⟨?_, ?_, fun bound => ?_⟩
    · rw [Array.toList_push, keeps.clauses, clausesOf_append]
      rfl
    · rw [Array.toList_push]
      exact List.forall_mem_append.mpr ⟨keeps.proper, List.forall_mem_singleton.mpr proper⟩
    · rw [literalsOf_append, literalsOf_one]
      exact noted literals bound
  | @solve _ _ _ assumptions _ _ reply =>
    obtain ⟨_, _, clauses, maxVar, _⟩ := solve_eq_ok reply
    refine ⟨?_, clauses ▸ keeps.proper, fun bound => ?_⟩
    · rw [clauses, keeps.clauses, clausesOf_append]
      exact (List.append_nil _).symm
    · rw [maxVar, literalsOf_append, literalsOf_one]
      exact noted assumptions bound

theorem keeps_of_after (after : Solver.After empty calls solver) : Keeps calls solver := by
  induction after with
  | none => exact ⟨rfl, List.forall_mem_nil _, fun bound => iff_of_true (Nat.zero_le _) nofun⟩
  | one _ takes _ ih => exact ih.takes takes

/-- An answer comes from a search that was not stopped, and so it is right. -/
theorem Keeps.answer_right {conflicts : Option Nat} {deadline polled : Deadline}
    {assumptions : List Literal} {answer : Bool} (keeps : Keeps calls solver)
    (solved : solver.solve conflicts deadline assumptions = .ok (some answer, polled, next)) :
    ∃ result : Search.Result, result.Right ⟨∅, searched (clausesOf calls) assumptions⟩ ∧
      answered result = (some answer, next.found) := by
  obtain ⟨proper, search, _⟩ := solve_eq_ok solved
  refine ⟨_, ?_, search⟩
  rw [← keeps.clauses]
  refine Search.run_right_of_ne_stopped (nonzero_searched keeps.proper proper) fun stopped => ?_
  rw [searching, stopped] at search
  cases search

theorem Keeps.refuted {conflicts : Option Nat} {deadline polled : Deadline}
    {assumptions : List Literal} (keeps : Keeps calls solver)
    (solved : solver.solve conflicts deadline assumptions = .ok (some false, polled, next))
    (values : Nat → Bool) : ¬Satisfies values (clausesOf calls) assumptions := by
  obtain ⟨result, right, search⟩ := keeps.answer_right solved
  cases result with
  | refuted => exact fun satisfies => right values (holds_searched_iff.mpr satisfies)
  | _ => cases search

/-- A positive answer comes with values under which everything holds, whatever the others are. -/
theorem Keeps.found {conflicts : Option Nat} {deadline polled : Deadline}
    {assumptions : List Literal} (keeps : Keeps calls solver)
    (solved : solver.solve conflicts deadline assumptions = .ok (some true, polled, next)) :
    ∃ found, next.found = some found ∧
      ∀ values, Search.Agrees found values → Satisfies values (clausesOf calls) assumptions := by
  obtain ⟨result, right, search⟩ := keeps.answer_right solved
  cases result with
  | model found =>
    exact ⟨found, (Prod.mk.inj search).2.symm, fun values agrees =>
      holds_searched_iff.mp (right values agrees)⟩
  | _ => cases search

/-- The values that were found, and others for the variables that they leave open. -/
def completed (values : Search.Values) (others : Nat → Bool) (var : Nat) : Bool :=
  values[var]?.getD (others var)

theorem agrees_completed (values : Search.Values) (others : Nat → Bool) :
    Search.Agrees values (completed values others) := by
  intro var value valued
  rw [completed, valued, Option.getD_some]

theorem value_of_found {values : Search.Values} (found : solver.found = some values) (var : Nat) :
    Solver.value solver var = .ok values[var]? := by
  change solver.value var = _
  rw [value, found]

/-- An assignment that shows the values found for the variables that were used is, on these, one
that agrees with the values found. -/
theorem completed_of_shows {values : Search.Values} (found : solver.found = some values)
    {shown : Nat → Bool} (shows : Solver.Shows solver shown) {var : Nat} (positive : 0 < var)
    (used : var ≤ solver.maxVar) : shown var = completed values shown var := by
  have here := shows var positive used
  rw [Solver.shown_of_value (value_of_found found var)] at here
  rw [completed]
  cases valued : values[var]? with
  | none => rfl
  | some value => rw [here, valued, Option.getD_some, Option.getD_some]

theorem Keeps.satisfied {conflicts : Option Nat} {deadline polled : Deadline}
    {assumptions : List Literal} (keeps : Keeps calls solver)
    (solved : solver.solve conflicts deadline assumptions = .ok (some true, polled, next))
    {shown : Nat → Bool} (shows : Solver.Shows next shown) :
    Satisfies shown (clausesOf calls) assumptions := by
  have later : Keeps (calls ++ [.solve assumptions]) next := keeps.takes (.solve solved)
  have used := (later.largest next.maxVar).mp (Nat.le_refl _)
  rw [literalsOf_append, literalsOf_one, List.forall_mem_append] at used
  obtain ⟨found, kept, satisfies⟩ := keeps.found solved
  have same {literal : Literal} (proper : literal.proper = true)
      (bounded : literal.var ≤ next.maxVar) :
      shown literal.var = completed found shown literal.var :=
    completed_of_shows kept shows (Literal.var_pos (Literal.code_ne_zero proper)) bounded
  refine (satisfies _ (agrees_completed found shown)).congr (fun clause member literal among => ?_)
    fun literal member => same ((solve_eq_ok solved).1 literal member) (used.2 literal member)
  have proper := keeps.proper clause (keeps.clauses ▸ member) literal among
  exact same proper (used.1 literal (mem_literalsOf_of_clause member among))

/-- The solver takes what is proper, and its search is sound and complete. -/
theorem lawful : Solver.Lawful empty where
  accepts _ _ proper := ⟨_, if_pos (List.all_eq_true.mpr proper)⟩
  replies _ _ proper _ _ := ⟨_, if_pos (List.all_eq_true.mpr proper)⟩
  largest after := (keeps_of_after after).largest
  refuted after _ solved := (keeps_of_after after).refuted solved
  valued after _ solved var _ _ := by
    obtain ⟨_, kept, _⟩ := (keeps_of_after after).found solved
    exact ⟨_, value_of_found kept var⟩
  satisfied after _ solved := (keeps_of_after after).satisfied solved

theorem guarded : Solver.Guarded empty where
  nonzero {_ _} _ {_ _ _ reply} solved := by
    obtain ⟨_, _, _⟩ := reply
    exact fun literal member => Literal.code_ne_zero ((solve_eq_ok solved).1 literal member)

/-- A search looks at the time once more when it is over. -/
theorem punctual : Solver.Punctual empty where
  polled {_ _ _} _ {_ _ _ _ _} solved := by
    obtain ⟨_, _, _, _, same⟩ := solve_eq_ok solved
    exact ⟨[_], same⟩

end Backtracking

end CircuitSat
