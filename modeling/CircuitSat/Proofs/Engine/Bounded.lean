import CircuitSat.Proofs.Engine.Backtracking
import Mathlib.Tactic.SplitIfs

/-! # A bounded engine is reliable if its solver is lawful

The engine hands clauses and questions on as they are and counts the declared variables on its own,
while the solver counts those that it was shown. A model of the declared variables is put together
across the gap between the two. Limits are those of the last settings, and each solve starts with
them anew.
-/

namespace CircuitSat

/-- The time bound that a call sets. -/
def Call.maxTime? : Call → Option (Option Seconds)
  | .maxTime bound => some bound
  | _ => none

/-- The bound on conflicts that a call sets. -/
def Call.maxConflicts? : Call → Option (Option Nat)
  | .maxConflicts bound => some bound
  | _ => none

/-- The time bound after some calls: the last one set, if it bounds anything. -/
def timeBoundOf (calls : List Call) : Option Seconds :=
  (calls.filterMap Call.maxTime?).getLast?.join.filter Seconds.isBound

/-- The bound on conflicts after some calls. -/
def conflictBoundOf (calls : List Call) : Option Nat :=
  (calls.filterMap Call.maxConflicts?).getLast?.join

theorem timeBoundOf_concat (calls : List Call) (call : Call) :
    timeBoundOf (calls ++ [call]) =
      (call.maxTime?.map (·.filter Seconds.isBound)).getD (timeBoundOf calls) := by
  rw [timeBoundOf, List.filterMap_append]
  cases call with
  | maxTime bound => simp [Call.maxTime?]
  | _ => simp [Call.maxTime?, timeBoundOf]

theorem conflictBoundOf_concat (calls : List Call) (call : Call) :
    conflictBoundOf (calls ++ [call]) = call.maxConflicts?.getD (conflictBoundOf calls) := by
  rw [conflictBoundOf, List.filterMap_append]
  cases call with
  | maxConflicts bound => simp [Call.maxConflicts?]
  | _ => simp [Call.maxConflicts?, conflictBoundOf]

namespace Bounded

open Engine

variable {β : Type} [Solver β] {start : β} {engine next : Bounded β} {calls : List Call}
  {entries : List LogEntry} {assumptions : List Literal}

/-! ## Calls -/

omit [Solver β] in
theorem declares_iff {literal : Literal} :
    engine.declares literal = true ↔ literal.code ≠ 0 ∧ literal.var ≤ engine.declared := by
  simp [declares]

theorem newVars_returns {count : Nat} (reply : (Engine.newVars engine count).Returns entries next) :
    next = { engine with declared := engine.declared + count } := by
  have counted := (Outcome.returns_lift.mp reply).2
  simp only [newVars, bind_eq_ok_iff, pure_eq_ok_iff] at counted
  obtain ⟨total, counted, rfl⟩ := counted
  rw [countVars_of_ok counted]

/-- A clause with a literal that is not declared never gets to the solver. -/
theorem addClause_of_undeclared {front back : Clause} {literal : Literal}
    (fine : ∀ earlier ∈ front, engine.declares earlier = true)
    (undeclared : engine.declares literal = false) :
    engine.addClause (front ++ literal :: back) =
      .error (.undeclaredLiteral (front ++ literal :: back) literal) := by
  have first : (front ++ literal :: back).find? (!engine.declares ·) = some literal := by
    refine List.find?_eq_some_iff_append.mpr ⟨by simp [undeclared], front, back, rfl, ?_⟩
    exact fun earlier member => by simp [fine earlier member]
  rw [addClause, first]

theorem addClause_of_declared {clause : Clause}
    (fine : ∀ literal ∈ clause, engine.declares literal = true) :
    engine.addClause clause =
      (do return { engine with solver := ← Solver.addClause engine.solver clause }) := by
  have none : clause.find? (!engine.declares ·) = none :=
    List.find?_eq_none.mpr fun literal member => by simp [fine literal member]
  rw [addClause, none]

theorem addClause_returns {clause : Clause}
    (reply : (Engine.addClause engine clause).Returns entries next) :
    (∀ literal ∈ clause, engine.declares literal = true) ∧
      ∃ solver, Solver.addClause engine.solver clause = .ok solver ∧
        next = { engine with solver } := by
  have added : engine.addClause clause = .ok next := (Outcome.returns_lift.mp reply).2
  rw [addClause] at added
  split at added
  · contradiction
  · next none =>
    simp only [bind_eq_ok_iff, pure_eq_ok_iff] at added
    obtain ⟨solver, passed, rfl⟩ := added
    refine ⟨fun literal member => ?_, solver, passed, rfl⟩
    simpa using List.find?_eq_none.mp none literal member

theorem solve_returns_iff {answer : Except Failure Bool} :
    (Engine.solve engine assumptions).Returns entries (answer, next) ↔
      entries = [] ∧ ∃ reply polled solver,
        Solver.solve engine.solver engine.conflictLimit engine.deadline assumptions =
          .ok (reply, polled, solver) ∧
        engine.verdict reply polled = answer ∧ { engine with solver } = next := by
  change (liftM (engine.solve assumptions) :
    Outcome LogEntry (Except Failure Bool × Bounded β)).Returns entries (answer, next) ↔ _
  simp only [Outcome.returns_lift, solve, bind_eq_ok_iff, Prod.exists, pure_eq_ok_iff,
    Prod.mk.injEq]

omit [Solver β] in
theorem verdict_eq_ok_iff {answer : Option Bool} {deadline : Deadline} {satisfiable : Bool} :
    engine.verdict answer deadline = .ok satisfiable ↔ answer = some satisfiable := by
  unfold verdict
  split
  · simp
  · simp only [reduceCtorEq, iff_false]
    split_ifs <;> nofun

omit [Solver β] in
theorem verdict_eq_error {answer : Option Bool} {deadline : Deadline} {failure : Failure}
    (failed : engine.verdict answer deadline = .error failure) :
    answer = none ∧ failure =
      if deadline.fired then .timeLimit
      else if engine.maxConflicts.isSome then .conflictLimit
      else .engine "solver stopped without a verdict" := by
  unfold verdict at failed
  split at failed
  · contradiction
  · refine ⟨rfl, ?_⟩
    split_ifs at failed ⊢ <;> cases failed <;> rfl

theorem setThreads_returns {count : Nat}
    (reply : (Engine.setThreads engine count).Returns entries next) :
    next = { engine with threads := max count 1 } := by
  change (engine.setThreads count).Returns entries next at reply
  rw [setThreads] at reply
  split_ifs at reply
  · simp only [Outcome.returns_bind, Outcome.returns_pure] at reply
    obtain ⟨_, _, _, _, ⟨_, rfl⟩, _⟩ := reply
    rfl
  · exact (Outcome.returns_pure.mp reply).2

theorem exists_setThreads (engine : Bounded β) (count : Nat) :
    ∃ entries, (Engine.setThreads engine count).Returns entries
      { engine with threads := max count 1 } := by
  change ∃ entries, (engine.setThreads count).Returns entries _
  rw [setThreads]
  split_ifs
  · exact ⟨_, (Outcome.returns_emit_self _).bind rfl⟩
  · exact ⟨[], rfl⟩

/-- Everything that a call changes. -/
structure Moves (engine : Bounded β) (call : Call) (next : Bounded β) : Prop where
  declared : next.declared = engine.declared + call.declared
  passed : call.passed = true → Solver.Takes engine.solver call next.solver
  kept : call.passed = false → next.solver = engine.solver
  maxTime : next.maxTime = (call.maxTime?.map (·.filter Seconds.isBound)).getD engine.maxTime
  maxConflicts : next.maxConflicts = call.maxConflicts?.getD engine.maxConflicts
  within : ∀ clause, call.clause? = some clause →
    ∀ literal ∈ clause, literal.code ≠ 0 ∧ literal.var ≤ engine.declared

theorem moves_of_takes {call : Call} (takes : Takes engine call next) :
    Moves engine call next := by
  cases takes with
  | newVars reply =>
    obtain rfl := newVars_returns reply
    exact ⟨rfl, nofun, fun _ => rfl, rfl, rfl, nofun⟩
  | clause reply =>
    obtain ⟨fine, solver, added, rfl⟩ := addClause_returns reply
    refine ⟨rfl, fun _ => .clause added, nofun, rfl, rfl, ?_⟩
    rintro _ ⟨⟩ literal member
    exact declares_iff.mp (fine literal member)
  | solve reply =>
    obtain ⟨_, _, _, _, solved, _, rfl⟩ := solve_returns_iff.mp reply
    exact ⟨rfl, fun _ => .solve solved, nofun, rfl, rfl, nofun⟩
  | model => exact ⟨rfl, nofun, fun _ => rfl, rfl, rfl, nofun⟩
  | maxTime reply =>
    obtain ⟨_, rfl⟩ := Outcome.returns_pure.mp reply
    exact ⟨rfl, nofun, fun _ => rfl, rfl, rfl, nofun⟩
  | maxConflicts reply =>
    obtain ⟨_, rfl⟩ := Outcome.returns_pure.mp reply
    exact ⟨rfl, nofun, fun _ => rfl, rfl, rfl, nofun⟩
  | threads reply =>
    obtain rfl := setThreads_returns reply
    exact ⟨rfl, nofun, fun _ => rfl, rfl, rfl, nofun⟩

/-! ## Runs -/

/-- No question so far was about a zero literal. -/
def Asked (calls : List Call) : Prop :=
  ∀ question ∈ questionsOf calls, ∀ literal ∈ question, literal.code ≠ 0

instance (calls : List Call) : Decidable (Asked calls) :=
  inferInstanceAs
    (Decidable (∀ question ∈ questionsOf calls, ∀ literal ∈ question, literal.code ≠ 0))

/-- The engine after some calls. -/
structure Tracks (start : β) (calls : List Call) (engine : Bounded β) : Prop where
  declared : engine.declared = declaredBy calls
  solver : Solver.After start (calls.filter Call.passed) engine.solver
  maxTime : engine.maxTime = timeBoundOf calls
  maxConflicts : engine.maxConflicts = conflictBoundOf calls
  within : ∀ clause ∈ clausesOf calls,
    ∀ literal ∈ clause, literal.code ≠ 0 ∧ literal.var ≤ engine.declared

theorem Tracks.move {call : Call} (tracks : Tracks start calls engine)
    (moves : Moves engine call next)
    (asked : ∀ question, call.question? = some question →
      ∀ literal ∈ question, literal.code ≠ 0) :
    Tracks start (calls ++ [call]) next where
  declared := by rw [moves.declared, tracks.declared, declaredBy_append]; rfl
  maxTime := by rw [moves.maxTime, tracks.maxTime, timeBoundOf_concat]
  maxConflicts := by rw [moves.maxConflicts, tracks.maxConflicts, conflictBoundOf_concat]
  within := by
    have more : engine.declared ≤ next.declared := moves.declared ▸ Nat.le_add_right _ _
    rw [clausesOf_append]
    refine List.forall_mem_append.mpr ⟨fun clause member literal among => ?_,
      fun clause member literal among => ?_⟩
    · obtain ⟨nonzero, bounded⟩ := tracks.within clause member literal among
      exact ⟨nonzero, Nat.le_trans bounded more⟩
    · obtain ⟨_, here, adds⟩ := List.mem_filterMap.mp member
      obtain rfl := List.mem_singleton.mp here
      obtain ⟨nonzero, bounded⟩ := moves.within clause adds literal among
      exact ⟨nonzero, Nat.le_trans bounded more⟩
  solver := by
    rw [List.filter_append]
    cases passed : call.passed with
    | false =>
      rw [moves.kept passed, List.filter_cons_of_neg (by simp [passed]), List.filter_nil,
        List.append_nil]
      exact tracks.solver
    | true =>
      rw [List.filter_cons_of_pos passed]
      refine tracks.solver.one (moves.passed passed) ?_
      cases call with
      | clause literals => exact fun literal member => (moves.within _ rfl literal member).1
      | solve assumptions => exact asked _ rfl
      | _ => contradiction

theorem tracks_of_after {elimination : Bool} (after : After (create start elimination) calls engine)
    (asked : Asked calls) : Tracks start calls engine := by
  induction after with
  | none => exact ⟨rfl, .none, rfl, rfl, nofun⟩
  | @one calls call _ _ _ takes ih =>
    rw [Asked, questionsOf_append, List.forall_mem_append] at asked
    refine (ih asked.1).move (moves_of_takes takes) fun question asks => asked.2 question ?_
    rw [questionsOf, List.filterMap_cons_some asks]
    exact List.mem_cons_self

/-! ## Models -/

/-- What a model says of a variable: false unless the solver used it. -/
def entry (engine : Bounded β) (var : Nat) : Bool :=
  if var = 0 || Solver.maxVar engine.solver < var then false
  else Solver.shown engine.solver var

theorem entry_of_used {var : Nat} (positive : 0 < var)
    (used : var ≤ Solver.maxVar engine.solver) :
    engine.entry var = Solver.shown engine.solver var := by
  rw [entry, if_neg]
  simp only [Bool.or_eq_true, decide_eq_true_eq]
  omega

theorem entry_of_unused {var : Nat} (unused : var = 0 ∨ Solver.maxVar engine.solver < var) :
    engine.entry var = false := by
  rw [entry, if_pos]
  simpa only [Bool.or_eq_true, decide_eq_true_eq] using unused

/-- The solver has a value for each variable that it used. -/
def Valued (solver : β) : Prop :=
  ∀ var, 0 < var → var ≤ Solver.maxVar solver → ∃ value, Solver.value solver var = .ok value

theorem value_eq (valued : Valued engine.solver) (var : Nat) :
    engine.value var = .ok (engine.entry var) := by
  rw [value, entry]
  split_ifs with unused
  · rfl
  · simp only [Bool.or_eq_true, decide_eq_true_eq, not_or] at unused
    obtain ⟨value, found⟩ := valued var (by omega) (by omega)
    rw [found, Solver.shown_of_value found]
    rfl

theorem mapM_value_eq (valued : Valued engine.solver) (vars : List Nat) :
    vars.mapM engine.value = .ok (vars.map engine.entry) := by
  induction vars with
  | nil => rfl
  | cons var rest ih =>
    rw [List.mapM_cons, value_eq valued, ih]
    rfl

theorem model_eq (valued : Valued engine.solver) (fits : engine.declared + 1 < UInt64.size / 2) :
    engine.model = .ok ((List.range (engine.declared + 1)).map engine.entry).toArray := by
  have small : engine.declared + 1 < UInt64.size := by omega
  rw [model, if_neg (Nat.not_le.mpr small), if_neg (Nat.not_le.mpr fits), mapM_value_eq valued]
  rfl

/-- A model whose length does not fit into 63 bits is not given. -/
theorem model_of_large (large : UInt64.size / 2 ≤ engine.declared + 1) :
    engine.model =
      .error (if UInt64.size ≤ engine.declared + 1 then .additionOverflow
        else .capacityOverflow) := by
  rw [model, if_pos large]
  split_ifs <;> rfl

omit [Solver β] in
theorem reading_map_range (entry : Nat → Bool) {declared var : Nat} (within : var ≤ declared) :
    reading ((List.range (declared + 1)).map entry).toArray var = entry var := by
  have present : (List.range (declared + 1))[var]? = some var :=
    List.getElem?_range (Nat.lt_succ_of_le within)
  simp [reading, present]

omit [Solver β] in
theorem reading_map_range_of_lt (entry : Nat → Bool) {declared var : Nat}
    (beyond : declared < var) :
    reading ((List.range (declared + 1)).map entry).toArray var = false := by
  simp [reading, Array.getD, show ¬var < declared + 1 by omega]

/-- A model of the declared variables with the solver's values for those that were used. -/
structure Models (solver : β) (calls : List Call) (assumptions : List Literal)
    (model : Array Bool) : Prop where
  size : model.size = declaredBy calls + 1
  satisfies : Satisfies (reading model) (clausesOf calls) assumptions
  zero : reading model 0 = false
  used (var : Nat) (positive : 0 < var) (declared : var ≤ declaredBy calls)
    (known : var ≤ Solver.maxVar solver) : reading model var = Solver.shown solver var
  unused (var : Nat) (beyond : ∀ literal ∈ literalsOf calls ++ assumptions, literal.var < var) :
    reading model var = false

variable {solver : β} {conflicts : Option Nat} {deadline polled : Deadline}

/-- The solver's state after a question that follows some calls. -/
theorem Tracks.after_solve (tracks : Tracks start calls engine)
    (nonzero : ∀ literal ∈ assumptions, literal.code ≠ 0) {answer : Option Bool}
    (solved : Solver.solve engine.solver conflicts deadline assumptions =
      .ok (answer, polled, solver)) :
    Solver.After start (calls.filter Call.passed ++ [.solve assumptions]) solver :=
  tracks.solver.one (.solve solved) nonzero

/-- The solver used exactly the variables up to the largest one in a literal so far. -/
theorem Tracks.maxVar_le_iff (tracks : Tracks start calls engine) (lawful : Solver.Lawful start)
    (nonzero : ∀ literal ∈ assumptions, literal.code ≠ 0) {answer : Option Bool}
    (solved : Solver.solve engine.solver conflicts deadline assumptions =
      .ok (answer, polled, solver)) (bound : Nat) :
    Solver.maxVar solver ≤ bound ↔
      ∀ literal ∈ literalsOf calls ++ assumptions, literal.var ≤ bound := by
  rw [lawful.largest (tracks.after_solve nonzero solved), literalsOf_append, literalsOf_one,
    literalsOf_filter_passed]
  rfl

theorem Tracks.satisfied (tracks : Tracks start calls engine) (lawful : Solver.Lawful start)
    (nonzero : ∀ literal ∈ assumptions, literal.code ≠ 0)
    (solved : Solver.solve engine.solver conflicts deadline assumptions =
      .ok (some true, polled, solver)) :
    Satisfies (Solver.shown solver) (clausesOf calls) assumptions := by
  have satisfies := lawful.satisfied tracks.solver nonzero solved (Solver.shows_shown solver)
  rwa [clausesOf_filter_passed] at satisfies

theorem Tracks.decided (tracks : Tracks start calls engine) (lawful : Solver.Lawful start)
    (nonzero : ∀ literal ∈ assumptions, literal.code ≠ 0) {satisfiable : Bool}
    (solved : Solver.solve engine.solver conflicts deadline assumptions =
      .ok (some satisfiable, polled, solver)) :
    satisfiable = true ↔ ∃ values, Satisfies values (clausesOf calls) assumptions := by
  cases satisfiable with
  | true => exact iff_of_true rfl ⟨_, tracks.satisfied lawful nonzero solved⟩
  | false =>
    refine iff_of_false Bool.false_ne_true fun ⟨values, satisfies⟩ => ?_
    rw [← clausesOf_filter_passed] at satisfies
    exact lawful.refuted tracks.solver nonzero solved values satisfies

/-- The entries of a model bridge the gap between what is declared and what the solver used: clauses
and assumptions speak of variables below both counts, and there they are the solver's values. -/
theorem Tracks.models (tracks : Tracks start calls engine) (lawful : Solver.Lawful start)
    (asked : ∀ literal ∈ assumptions, literal.code ≠ 0 ∧ literal.var ≤ declaredBy calls)
    (solved : Solver.solve engine.solver conflicts deadline assumptions =
      .ok (some true, polled, solver)) :
    Models solver calls assumptions
      ((List.range (engine.declared + 1)).map (entry { engine with solver })).toArray := by
  have nonzero : ∀ literal ∈ assumptions, literal.code ≠ 0 := fun literal member =>
    (asked literal member).1
  have largest := tracks.maxVar_le_iff lawful nonzero solved
  have known := (largest _).mp (Nat.le_refl _)
  rw [List.forall_mem_append] at known
  have same {literal : Literal} (nonzero : literal.code ≠ 0)
      (declared : literal.var ≤ engine.declared) (known : literal.var ≤ Solver.maxVar solver) :
      reading ((List.range (engine.declared + 1)).map (entry { engine with solver })).toArray
        literal.var = Solver.shown solver literal.var := by
    rw [reading_map_range _ declared]
    exact entry_of_used (Literal.var_pos nonzero) known
  constructor
  case size => simp [tracks.declared]
  case satisfies =>
    refine (tracks.satisfied lawful nonzero solved).congr
      (fun clause member literal among => ?_) fun literal member => ?_
    · obtain ⟨nonzero, declared⟩ := tracks.within clause member literal among
      exact same nonzero declared (known.1 literal (mem_literalsOf_of_clause member among))
    · obtain ⟨nonzero, declared⟩ := asked literal member
      exact same nonzero (tracks.declared ▸ declared) (known.2 literal member)
  case zero =>
    rw [reading_map_range _ (Nat.zero_le _)]
    exact entry_of_unused (.inl rfl)
  case used =>
    intro var positive declared used
    rw [reading_map_range _ (tracks.declared ▸ declared)]
    exact entry_of_used positive used
  case unused =>
    intro var beyond
    rcases Nat.lt_or_ge engine.declared var with outside | inside
    · exact reading_map_range_of_lt _ outside
    · rw [reading_map_range _ inside]
      refine entry_of_unused (Or.imp_right (fun positive => ?_) (Nat.eq_zero_or_pos var))
      have below : Solver.maxVar solver ≤ var - 1 := (largest _).mpr fun literal member =>
        Nat.le_sub_one_of_lt (beyond literal member)
      exact Nat.lt_of_le_of_lt below (Nat.sub_one_lt_of_lt positive)

/-! ## Reliability -/

/-- What the engine does after some calls. Its own part is to refuse literals that are not declared,
to pass everything else on, and to give models of the declared variables; the rest is up to the
solver, which may also give up. -/
structure Reliable (start : β) (calls : List Call) (engine : Bounded β) : Prop where
  counted : Engine.numVars engine = declaredBy calls
  /-- Nothing but the clauses and the questions got to the solver, unchanged and in order. -/
  passed : Solver.After start (calls.filter Call.passed) engine.solver
  /-- The first literal that is zero or not declared is named, whatever solver there is. -/
  refused {front back : Clause} {literal : Literal}
    (fine : ∀ earlier ∈ front, earlier.code ≠ 0 ∧ earlier.var ≤ declaredBy calls)
    (undeclared : literal.code = 0 ∨ declaredBy calls < literal.var) (other : β) :
    Engine.addClause { engine with solver := other } (front ++ literal :: back) =
      Outcome.fault (.undeclaredLiteral (front ++ literal :: back) literal)
  /-- Any other clause comes to what the solver makes of it. -/
  handed {clause : Clause}
    (fine : ∀ literal ∈ clause, literal.code ≠ 0 ∧ literal.var ≤ declaredBy calls) :
    Engine.addClause engine clause =
      (do return { engine with solver := ← Solver.addClause engine.solver clause })
  taken {call : Call} (accepted : Accepts engine call) : ∃ next, Takes engine call next
  decided {assumptions : List Literal} {entries : List LogEntry} {satisfiable : Bool}
    {next : Bounded β} (asked : ∀ literal ∈ assumptions, literal.code ≠ 0)
    (solved : (Engine.solve engine assumptions).Returns entries (.ok satisfiable, next)) :
    satisfiable = true ↔ ∃ values, Satisfies values (clausesOf calls) assumptions
  /-- A solve fails only if the solver gave up within the limits last set, and it is the deadline of
  this solve that tells why. -/
  failed {assumptions : List Literal} {entries : List LogEntry} {failure : Failure}
    {next : Bounded β}
    (solved : (Engine.solve engine assumptions).Returns entries (.error failure, next)) :
    ∃ polled, Solver.solve engine.solver ((conflictBoundOf calls).map (min · 2147483647))
        (.arm ((timeBoundOf calls).bind Seconds.nanoseconds?)) assumptions =
          .ok (none, polled, next.solver) ∧
      failure = if polled.fired then .timeLimit
        else if (conflictBoundOf calls).isSome then .conflictLimit
        else .engine "solver stopped without a verdict"
  /-- After a positive answer there is a model of the declared variables. -/
  modelled {assumptions : List Literal} {entries : List LogEntry} {next : Bounded β}
    (asked : ∀ literal ∈ assumptions, literal.code ≠ 0 ∧ literal.var ≤ declaredBy calls)
    (solved : (Engine.solve engine assumptions).Returns entries (.ok true, next))
    (fits : declaredBy calls + 1 < 2 ^ 63) :
    ∃ model, (Engine.model next).Returns [] model ∧ Models next.solver calls assumptions model
  /-- A model that would be too long for an array is not given, whatever the answer was. -/
  oversized {assumptions : List Literal} {entries : List LogEntry} {answer : Except Failure Bool}
    {next : Bounded β} (solved : (Engine.solve engine assumptions).Returns entries (answer, next))
    (large : 2 ^ 63 ≤ declaredBy calls + 1) :
    Engine.model next = Outcome.fault
      (if 2 ^ 64 ≤ declaredBy calls + 1 then .additionOverflow else .capacityOverflow)

theorem Tracks.exists_takes {call : Call} (tracks : Tracks start calls engine)
    (lawful : Solver.Lawful start) (accepted : Accepts engine call) :
    ∃ next, Takes engine call next := by
  cases call with
  | newVars count =>
    have counted : Engine.countVars engine.declared count = .ok (engine.declared + count) :=
      if_pos accepted
    have reply : (Engine.newVars engine count).Returns []
        { engine with declared := engine.declared + count } := by
      refine Outcome.returns_lift.mpr ⟨rfl, ?_⟩
      rw [newVars, counted]
      rfl
    exact ⟨_, .newVars reply⟩
  | clause literals =>
    obtain ⟨solver, added⟩ := lawful.accepts tracks.solver fun literal member =>
      (accepted literal member).1
    have fine : ∀ literal ∈ literals, engine.declares literal = true := fun literal member =>
      declares_iff.mpr ((accepted literal member).imp_left Literal.code_ne_zero)
    have reply : (Engine.addClause engine literals).Returns [] { engine with solver } := by
      refine Outcome.returns_lift.mpr ⟨rfl, ?_⟩
      rw [addClause_of_declared fine, added]
      rfl
    exact ⟨_, .clause reply⟩
  | solve assumptions =>
    obtain ⟨⟨answer, polled, solver⟩, solved⟩ := lawful.replies tracks.solver
      (fun literal member => (accepted literal member).1) engine.conflictLimit engine.deadline
    exact ⟨_, .solve (solve_returns_iff.mpr ⟨rfl, _, _, _, solved, rfl, rfl⟩)⟩
  | model => contradiction
  | maxTime bound =>
    have reply : (Engine.setMaxTime engine bound).Returns [] (engine.setMaxTime bound) := rfl
    exact ⟨_, .maxTime reply⟩
  | maxConflicts bound =>
    have reply : (Engine.setMaxConflicts engine bound).Returns []
        { engine with maxConflicts := bound } := rfl
    exact ⟨_, .maxConflicts reply⟩
  | threads count =>
    obtain ⟨_, reply⟩ := exists_setThreads engine count
    exact ⟨_, .threads reply⟩

theorem Tracks.modelled (tracks : Tracks start calls engine) (lawful : Solver.Lawful start)
    (asked : ∀ literal ∈ assumptions, literal.code ≠ 0 ∧ literal.var ≤ declaredBy calls)
    (solved : (Engine.solve engine assumptions).Returns entries (.ok true, next))
    (fits : declaredBy calls + 1 < 2 ^ 63) :
    ∃ model, (Engine.model next).Returns [] model ∧
      Models next.solver calls assumptions model := by
  obtain ⟨_, reply, polled, solver, answered, positive, rfl⟩ := solve_returns_iff.mp solved
  obtain rfl := verdict_eq_ok_iff.mp positive
  have valued : Valued solver := fun var positive used =>
    lawful.valued tracks.solver (fun literal member => (asked literal member).1) answered
      positive used
  refine ⟨_, Outcome.returns_lift.mpr ⟨rfl, model_eq valued ?_⟩,
    tracks.models lawful asked answered⟩
  rw [← tracks.declared] at fits
  exact fits

theorem Tracks.oversized (tracks : Tracks start calls engine) {answer : Except Failure Bool}
    (solved : (Engine.solve engine assumptions).Returns entries (answer, next))
    (large : 2 ^ 63 ≤ declaredBy calls + 1) :
    Engine.model next = Outcome.fault
      (if 2 ^ 64 ≤ declaredBy calls + 1 then .additionOverflow else .capacityOverflow) := by
  obtain ⟨_, _, _, solver, _, _, rfl⟩ := solve_returns_iff.mp solved
  rw [← tracks.declared] at large ⊢
  exact congrArg (Outcome.mk []) (model_of_large large)

/-- An engine that is where its calls lead on a lawful solver is reliable. -/
theorem Tracks.reliable (tracks : Tracks start calls engine) (lawful : Solver.Lawful start) :
    Reliable start calls engine := by
  have declares {literal : Literal} : engine.declares literal = true ↔
      literal.code ≠ 0 ∧ literal.var ≤ declaredBy calls := by
    rw [declares_iff, tracks.declared]
  exact {
    counted := tracks.declared
    passed := tracks.solver
    refused := by
      intro front back literal fine undeclared other
      have beyond : engine.declares literal = false := by
        rw [Bool.eq_false_iff, ne_eq, declares, not_and_or, not_not, Nat.not_le]
        exact undeclared
      have refusal : Bounded.addClause { engine with solver := other } (front ++ literal :: back) =
          .error (.undeclaredLiteral (front ++ literal :: back) literal) :=
        addClause_of_undeclared (fun earlier member => declares.mpr (fine earlier member)) beyond
      exact congrArg (Outcome.mk []) refusal
    handed := by
      intro clause fine
      change (liftM (engine.addClause clause) : Outcome LogEntry (Bounded β)) = _
      rw [addClause_of_declared fun literal member => declares.mpr (fine literal member)]
      cases Solver.addClause engine.solver clause <;> rfl
    taken := tracks.exists_takes lawful
    decided := by
      intro assumptions entries satisfiable next asked solved
      obtain ⟨_, reply, _, _, answered, verdict, _⟩ := solve_returns_iff.mp solved
      obtain rfl := verdict_eq_ok_iff.mp verdict
      exact tracks.decided lawful asked answered
    failed := by
      intro assumptions entries failure next solved
      obtain ⟨_, reply, polled, solver, answered, verdict, rfl⟩ := solve_returns_iff.mp solved
      obtain ⟨rfl, cause⟩ := verdict_eq_error verdict
      rw [conflictLimit, deadline, tracks.maxTime, tracks.maxConflicts] at answered
      rw [tracks.maxConflicts] at cause
      exact ⟨polled, answered, cause⟩
    modelled := tracks.modelled lawful
    oversized := tracks.oversized }

/-- An engine on a lawful solver is reliable after any calls that it took, as long as no question
was about a zero literal. -/
theorem reliable_of_lawful (lawful : Solver.Lawful start) {elimination : Bool}
    (after : After (create start elimination) calls engine) (asked : Asked calls) :
    Reliable start calls engine :=
  (tracks_of_after after asked).reliable lawful

/-- Within limits, a question with a negative answer comes before one with a model. The solver never
saw the last of the declared variables. -/
theorem reliable_of_lawful_search : ∃ (calls : List Call) (engine next : BoundedSearch),
    calls = [.newVars 3, .clause [⟨-1⟩, ⟨2⟩], .maxTime (some ⟨0x4024000000000000⟩),
      .maxConflicts (some 100), .solve [⟨1⟩, ⟨-2⟩]] ∧
    After (BoundedSearch.create true) calls engine ∧ Solver.Lawful Backtracking.empty ∧
    Asked calls ∧ timeBoundOf calls = some ⟨0x4024000000000000⟩ ∧
    conflictBoundOf calls = some 100 ∧ Reliable Backtracking.empty calls engine ∧
    (Engine.solve engine [⟨1⟩]).Returns [] (.ok true, next) ∧
    (Engine.model next).Returns [] #[false, true, true, false] := by
  obtain ⟨engine, after, solved⟩ := exists_after (BoundedSearch.create true)
    [.newVars 3, .clause [⟨-1⟩, ⟨2⟩], .maxTime (some ⟨0x4024000000000000⟩),
      .maxConflicts (some 100), .solve [⟨1⟩, ⟨-2⟩]]
    (fun engine => (Engine.solve engine [⟨1⟩]).result.toOption.any fun solved =>
      solved.1 = .ok true ∧
        (Engine.model solved.2).result.toOption.any (· = #[false, true, true, false]))
    (by decide +kernel)
  obtain ⟨⟨_, next⟩, answered, rfl, shown⟩ := Outcome.exists_returns solved
  obtain ⟨_, reply, rfl⟩ := Outcome.exists_returns shown
  have asked : Asked [.newVars 3, .clause [⟨-1⟩, ⟨2⟩], .maxTime (some ⟨0x4024000000000000⟩),
    .maxConflicts (some 100), .solve [⟨1⟩, ⟨-2⟩]] := by decide
  exact ⟨_, engine, next, rfl, after, Backtracking.lawful, asked, by decide +kernel, rfl,
    reliable_of_lawful Backtracking.lawful after asked, answered, reply⟩

/-- With as many variables as can be declared there is no model, though the verdict is right. -/
theorem model_of_full_count : Solver.Lawful Backtracking.empty ∧
    ∃ engine next : BoundedSearch,
      After (BoundedSearch.create true) [.newVars 18446744073709551615, .clause [⟨1⟩]] engine ∧
      (Engine.solve engine []).Returns [] (.ok true, next) ∧
      ∀ entries model, ¬(Engine.model next).Returns entries model := by
  obtain ⟨engine, after, solved⟩ := exists_after (BoundedSearch.create true)
    [.newVars 18446744073709551615, .clause [⟨1⟩]]
    (fun engine => (Engine.solve engine []).result.toOption.any fun solved =>
      solved.1 = .ok true ∧ (Engine.model solved.2).result.toOption = none) (by decide +kernel)
  obtain ⟨⟨_, next⟩, answered, rfl, none⟩ := Outcome.exists_returns solved
  refine ⟨Backtracking.lawful, engine, next, after, answered, fun entries model returned => ?_⟩
  rw [show Engine.model next = ⟨entries, .ok model⟩ from returned] at none
  contradiction

end Bounded

end CircuitSat
