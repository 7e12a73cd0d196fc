import CircuitSat.Proofs.Engine.Bounded

/-! # A bounded engine meets its contract

On a lawful solver that never takes a zero literal, a bounded engine counts its variables, never
shows a wrong model, never gives a wrong answer, and takes every proper call. Only honest it is not:
its solver may give up. It says that the time was up only if a bound on the time was set and passed.
-/

namespace CircuitSat

namespace Bounded

open Engine

variable {β : Type} [Solver β] {start : β} {elimination : Bool} {engine next : Bounded β}
  {calls : List Call} {entries : List LogEntry} {assumptions : List Literal}

/-- Whatever its solver does, the engine counts the variables itself. -/
theorem counting (start : β) (elimination : Bool) : Counting (create start elimination) :=
  .of_takes rfl fun takes => (moves_of_takes takes).declared

/-- A solver that never takes a zero literal was never asked about one. -/
theorem tracks_of_guarded (guarded : Solver.Guarded start)
    (after : After (create start elimination) calls engine) : Tracks start calls engine := by
  induction after with
  | none => exact ⟨rfl, .none, rfl, rfl, nofun⟩
  | @one calls call last next before takes ih =>
    have moves := moves_of_takes takes
    refine ih.move moves fun question asks => ?_
    cases call with
    | solve assumptions =>
      cases asks
      cases moves.passed rfl with
      | solve reply => exact guarded.nonzero ih.solver reply
    | _ => contradiction

theorem reliable_of_guarded (lawful : Solver.Lawful start) (guarded : Solver.Guarded start)
    (after : After (create start elimination) calls engine) : Reliable start calls engine :=
  (tracks_of_guarded guarded after).reliable lawful

namespace Reliable

theorem declares (reliable : Reliable start calls engine) {literals : List Literal}
    (declared : Declares engine literals) :
    ∀ literal ∈ literals, literal.code ≠ 0 ∧ literal.var ≤ declaredBy calls := by
  intro literal member
  obtain ⟨proper, within⟩ := declared literal member
  rw [reliable.counted] at within
  exact ⟨Literal.code_ne_zero proper, within⟩

/-- Whatever is shown after a positive answer is a model: one that is too long is not shown. -/
theorem shown (reliable : Reliable start calls engine) (declared : Declares engine assumptions)
    (solved : (Engine.solve engine assumptions).Returns entries (.ok true, next))
    {log : List LogEntry} {model : Array Bool} (reply : (Engine.model next).Returns log model) :
    Models next.solver calls assumptions model := by
  by_cases fits : declaredBy calls + 1 < 2 ^ 63
  · obtain ⟨_, given, models⟩ := reliable.modelled (reliable.declares declared) solved fits
    obtain ⟨_, rfl⟩ := reply.unique given
    exact models
  · rw [reliable.oversized solved (Nat.not_lt.mp fits)] at reply
    cases reply

/-- The time is up only if a bound on it was set, and some look of the solver came too late. -/
theorem overrun (reliable : Reliable start calls engine) (punctual : Solver.Punctual start)
    (solved : (Engine.solve engine assumptions).Returns entries (.error .timeLimit, next)) :
    ∃ (bound : Seconds) (limit : Nat) (times : List Nat),
      timeBoundOf calls = some bound ∧ bound.nanoseconds? = some limit ∧
      Solver.solve engine.solver ((conflictBoundOf calls).map (min · 2147483647))
        (.arm (some limit)) assumptions =
          .ok (none, times.foldl Deadline.poll (.arm (some limit)), next.solver) ∧
      ∃ elapsed ∈ times, limit ≤ elapsed := by
  obtain ⟨polled, answered, cause⟩ := reliable.failed solved
  have fired : polled.fired = true := by
    by_contra waiting
    rw [if_neg waiting] at cause
    split at cause <;> contradiction
  obtain ⟨times, rfl⟩ := punctual.polled reliable.passed answered
  rcases Deadline.fired_foldl_poll.mp fired with before | ⟨limit, limited, late⟩
  · contradiction
  · obtain ⟨bound, set, whole⟩ := Option.bind_eq_some_iff.mp limited
    rw [set, Option.bind_some, whole] at answered
    exact ⟨bound, limit, times, set, whole, answered, late⟩

/-- A bound of no time at all has passed when the search first looks. -/
example :
    let solved : Outcome LogEntry (Except Failure Bool × BoundedSearch) := do
      let counted ← Engine.newVars (BoundedSearch.create true) 2
      let given ← Engine.addClause counted [⟨1⟩, ⟨2⟩]
      let bounded ← Engine.setMaxTime given (some ⟨0⟩)
      Engine.solve bounded []
    solved.result.toOption.map Prod.fst = some (.error .timeLimit) := by
  decide +kernel

/-- The conflicts are used up only if there was a bound on them. -/
theorem exhausted (reliable : Reliable start calls engine)
    (solved : (Engine.solve engine assumptions).Returns entries (.error .conflictLimit, next)) :
    ∃ bound, conflictBoundOf calls = some bound := by
  obtain ⟨polled, _, cause⟩ := reliable.failed solved
  split at cause
  · contradiction
  · split at cause
    · exact Option.isSome_iff_exists.mp (by assumption)
    · contradiction

end Reliable

theorem truthful_of_lawful (lawful : Solver.Lawful start) (guarded : Solver.Guarded start) :
    Truthful (create start elimination) where
  toCounting := counting start elimination
  shown after _ assumed solved reply := by
    have models := (reliable_of_guarded lawful guarded after).shown assumed solved reply
    have numVars := (counting start elimination).numVars_after (after.one (.solve solved))
    refine ⟨?_, models.satisfies⟩
    rw [models.size, numVars, declaredBy_append]
    rfl

theorem correct_of_lawful (lawful : Solver.Lawful start) (guarded : Solver.Guarded start) :
    Correct (create start elimination) where
  toCounting := counting start elimination
  answered after _ assumed solved := by
    have reliable := reliable_of_guarded lawful guarded after
    exact reliable.decided (fun literal member => (reliable.declares assumed literal member).1)
      solved

theorem willing_of_lawful (lawful : Solver.Lawful start) (guarded : Solver.Guarded start) :
    Willing (create start elimination) where
  toCounting := counting start elimination
  taken after accepted _ := (reliable_of_guarded lawful guarded after).taken accepted
  modelled {calls _ _ _ _} after _ assumed few solved := by
    have reliable := reliable_of_guarded lawful guarded after
    have numVars := (counting start elimination).numVars_after (after.one (.solve solved))
    have fits : declaredBy calls + 1 < 2 ^ 63 := by
      rw [reliable.counted, maxVar] at few
      omega
    obtain ⟨model, reply, models⟩ := reliable.modelled (reliable.declares assumed) solved fits
    refine ⟨[], model, reply, ?_⟩
    rw [models.size, numVars, declaredBy_append]
    exact Nat.lt_succ_self _

end Bounded

namespace BoundedSearch

theorem truthful (elimination : Bool) : Engine.Truthful (create elimination) :=
  Bounded.truthful_of_lawful Backtracking.lawful Backtracking.guarded

theorem correct (elimination : Bool) : Engine.Correct (create elimination) :=
  Bounded.correct_of_lawful Backtracking.lawful Backtracking.guarded

theorem willing (elimination : Bool) : Engine.Willing (create elimination) :=
  Bounded.willing_of_lawful Backtracking.lawful Backtracking.guarded

end BoundedSearch

end CircuitSat
