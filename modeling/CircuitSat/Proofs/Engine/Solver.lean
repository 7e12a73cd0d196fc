import CircuitSat.Engine.Bounded
import CircuitSat.Proofs.Engine.Contract

/-! # What may be expected of a solver

A solver under an engine is known by the clauses that it was given and by the questions that were
put to it. The laws below are about every state that such calls lead to, whatever limits the
questions came with. They ask for nothing once a zero literal was used, and they never ask for an
answer: a solver may give up at any time. What it does with zero literals and with its deadline are
laws of their own, which not every user of a solver depends on.
-/

namespace CircuitSat

/-- A deadline has fired exactly if it had before or some look at the time came after the limit. -/
theorem Deadline.fired_foldl_poll {deadline : Deadline} {times : List Nat} :
    (times.foldl poll deadline).fired = true ↔
      deadline.fired = true ∨
        ∃ limit, deadline.limit = some limit ∧ ∃ elapsed ∈ times, limit ≤ elapsed := by
  induction times generalizing deadline with
  | nil => simp
  | cons elapsed rest ih =>
    rw [List.foldl_cons, ih]
    simp only [poll, Bool.or_eq_true, Option.any_eq_true, decide_eq_true_eq, List.mem_cons,
      or_and_right, exists_or, exists_eq_left, and_or_left, or_assoc]

/-- Whether the call is one that a solver takes too. -/
def Call.passed : Call → Bool
  | .clause _ | .solve _ => true
  | _ => false

/-- The literals that some calls use. -/
def literalsOf (calls : List Call) : List Literal := calls.flatMap Call.literals

@[simp] theorem literalsOf_append (before after : List Call) :
    literalsOf (before ++ after) = literalsOf before ++ literalsOf after := List.flatMap_append

@[simp] theorem literalsOf_one (call : Call) : literalsOf [call] = call.literals :=
  List.flatMap_singleton ..

/-- Clauses and questions are all that uses literals. -/
theorem literalsOf_filter_passed (calls : List Call) :
    literalsOf (calls.filter Call.passed) = literalsOf calls := by
  induction calls with
  | nil => rfl
  | cons call rest ih =>
    cases call with
    | clause literals | solve literals => exact congrArg (literals ++ ·) ih
    | _ => exact ih

theorem clausesOf_filter_passed (calls : List Call) :
    clausesOf (calls.filter Call.passed) = clausesOf calls := by
  induction calls with
  | nil => rfl
  | cons call rest ih =>
    cases call with
    | clause literals => exact congrArg (literals :: ·) ih
    | _ => exact ih

theorem mem_literalsOf_of_clause {calls : List Call} {clause : Clause}
    (member : clause ∈ clausesOf calls) {literal : Literal} (among : literal ∈ clause) :
    literal ∈ literalsOf calls := by
  obtain ⟨call, made, adds⟩ := List.mem_filterMap.mp member
  refine List.mem_flatMap.mpr ⟨call, made, ?_⟩
  cases call with
  | clause literals =>
    cases adds
    exact among
  | _ => contradiction

namespace Solver

variable {β : Type} [Solver β]

/-- The solver takes a clause or a question, within any limits, and is in another state after it. -/
inductive Takes (solver : β) : Call → β → Prop
  | clause {literals : Clause} {next : β} (reply : Solver.addClause solver literals = .ok next) :
      Takes solver (.clause literals) next
  | solve {conflicts : Option Nat} {deadline polled : Deadline} {assumptions : List Literal}
      {answer : Option Bool} {next : β}
      (reply : Solver.solve solver conflicts deadline assumptions = .ok (answer, polled, next)) :
      Takes solver (.solve assumptions) next

/-- The states that a solver is in after some calls without a zero literal. -/
inductive After (start : β) : List Call → β → Prop
  | none : After start [] start
  | one {calls : List Call} {call : Call} {last next : β} (before : After start calls last)
      (takes : Takes last call next) (nonzero : ∀ literal ∈ call.literals, literal.code ≠ 0) :
      After start (calls ++ [call]) next

/-- Value that the solver shows for a variable; one that it leaves open is false. -/
def shown (solver : β) (var : Nat) : Bool :=
  match Solver.value solver var with
  | .ok value => value.getD false
  | .error _ => false

theorem shown_of_value {solver : β} {var : Nat} {value : Option Bool}
    (valued : Solver.value solver var = .ok value) : shown solver var = value.getD false := by
  rw [shown, valued]

/-- The assignment has the values that the solver shows for the variables that it used. -/
def Shows (solver : β) (values : Nat → Bool) : Prop :=
  ∀ var, 0 < var → var ≤ maxVar solver → values var = shown solver var

theorem shows_shown (solver : β) : Shows solver (shown solver) := fun _ _ _ => rfl

/-- The solver keeps its clauses and takes those of proper literals, it answers rightly if at all,
and after a positive answer it shows values under which all clauses and assumptions hold. -/
structure Lawful (start : β) : Prop where
  accepts {calls : List Call} {last : β} (after : After start calls last) {clause : Clause}
    (proper : ∀ literal ∈ clause, literal.proper = true) :
    ∃ next, Solver.addClause last clause = .ok next
  replies {calls : List Call} {last : β} (after : After start calls last)
    {assumptions : List Literal} (proper : ∀ literal ∈ assumptions, literal.proper = true)
    (conflicts : Option Nat) (deadline : Deadline) :
    ∃ reply, Solver.solve last conflicts deadline assumptions = .ok reply
  largest {calls : List Call} {last : β} (after : After start calls last) (bound : Nat) :
    maxVar last ≤ bound ↔ ∀ literal ∈ literalsOf calls, literal.var ≤ bound
  refuted {calls : List Call} {last next : β} {conflicts : Option Nat} {deadline polled : Deadline}
    {assumptions : List Literal} (after : After start calls last)
    (nonzero : ∀ literal ∈ assumptions, literal.code ≠ 0)
    (solved : Solver.solve last conflicts deadline assumptions = .ok (some false, polled, next))
    (values : Nat → Bool) : ¬Engine.Satisfies values (clausesOf calls) assumptions
  valued {calls : List Call} {last next : β} {conflicts : Option Nat} {deadline polled : Deadline}
    {assumptions : List Literal} (after : After start calls last)
    (nonzero : ∀ literal ∈ assumptions, literal.code ≠ 0)
    (solved : Solver.solve last conflicts deadline assumptions = .ok (some true, polled, next))
    {var : Nat} (positive : 0 < var) (used : var ≤ maxVar next) :
    ∃ value, Solver.value next var = .ok value
  satisfied {calls : List Call} {last next : β} {conflicts : Option Nat}
    {deadline polled : Deadline} {assumptions : List Literal} (after : After start calls last)
    (nonzero : ∀ literal ∈ assumptions, literal.code ≠ 0)
    (solved : Solver.solve last conflicts deadline assumptions = .ok (some true, polled, next))
    {values : Nat → Bool} (shows : Shows next values) :
    Engine.Satisfies values (clausesOf calls) assumptions

/-- The solver never takes a question about a zero literal. -/
structure Guarded (start : β) : Prop where
  nonzero {calls : List Call} {last : β} (after : After start calls last) {conflicts : Option Nat}
    {deadline : Deadline} {assumptions : List Literal} {reply : Option Bool × Deadline × β}
    (solved : Solver.solve last conflicts deadline assumptions = .ok reply) :
    ∀ literal ∈ assumptions, literal.code ≠ 0

/-- All that a solve does with its deadline is to look at the time now and then. -/
structure Punctual (start : β) : Prop where
  polled {calls : List Call} {last next : β} (after : After start calls last)
    {conflicts : Option Nat} {deadline polled : Deadline} {assumptions : List Literal}
    {answer : Option Bool}
    (solved : Solver.solve last conflicts deadline assumptions = .ok (answer, polled, next)) :
    ∃ times : List Nat, polled = times.foldl Deadline.poll deadline

end Solver

end CircuitSat
