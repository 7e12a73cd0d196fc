import CircuitSat.Proofs.Session.Blocking
import Mathlib.Data.Fintype.BigOperators
import Mathlib.Data.Set.Card
import Mathlib.Data.Set.Finite.List

/-! # Enumeration is exact

Each turn records the values of one solution, rules these values out, and leaves all others. There
are finitely many, so that the loop comes to an end, and then what was recorded is all there is.
-/

namespace CircuitSat

theorem Facts.holds_noted {facts : Facts} {signal : Signal} {assignment : Nat → Bool} :
    ({ facts with asserted := noted facts.asserted signal } : Facts).Holds assignment ↔
      facts.Holds assignment ∧ signal.eval assignment = true := by
  simp only [Holds, mem_noted]
  constructor
  · rintro ⟨asserted, assumed⟩
    exact ⟨⟨fun other member => asserted other (.inl member), assumed⟩, asserted signal (.inr rfl)⟩
  · rintro ⟨⟨asserted, assumed⟩, here⟩
    refine ⟨?_, assumed⟩
    rintro other (member | rfl)
    · exact asserted other member
    · exact here

/-- The values of the signals in the consistent assignments in which the facts hold. -/
def Circuit.projections (circuit : Circuit) (facts : Facts) (signals : List Signal) :
    Set (List Bool) :=
  {values | ∃ assignment, circuit.Consistent assignment ∧ facts.Holds assignment ∧
    signals.map (·.eval assignment) = values}

theorem Circuit.projections_subset (circuit : Circuit) (facts : Facts) (signals : List Signal) :
    circuit.projections facts signals ⊆ {values | values.length = signals.length} := by
  rintro _ ⟨_, _, _, rfl⟩
  exact List.length_map _

theorem Circuit.finite_projections (circuit : Circuit) (facts : Facts) (signals : List Signal) :
    (circuit.projections facts signals).Finite :=
  (List.finite_length_eq Bool signals.length).subset (circuit.projections_subset facts signals)

/-- There are no more values of signals than lists of bits that are as long. -/
theorem Circuit.ncard_projections_le (circuit : Circuit) (facts : Facts) (signals : List Signal) :
    (circuit.projections facts signals).ncard ≤ 2 ^ signals.length := by
  have within := Set.ncard_le_ncard (circuit.projections_subset facts signals)
    (List.finite_length_eq Bool signals.length)
  have vectors : Nat.card (List.Vector Bool signals.length) = 2 ^ signals.length := by
    rw [Nat.card_eq_fintype_card, card_vector, Fintype.card_bool]
  exact Nat.le_trans within (Nat.le_of_eq vectors)

/-- With a blocker of some values asserted, these values are gone and all others are left. -/
theorem Circuit.projections_noted {old new : Circuit} (grows : old.Grows new)
    (valid : new.WellFormed) {facts : Facts} {signals : List Signal} {output : Signal}
    {values : List Bool}
    (blocks : ∀ assignment, new.Consistent assignment →
      (output.eval assignment = true ↔ signals.map (·.eval assignment) ≠ values))
    (inside : ∀ signal ∈ signals ++ (facts.asserted ++ facts.assumed),
      old.numbering.contains signal = true) :
    new.projections { facts with asserted := noted facts.asserted output } signals =
      old.projections facts signals \ {values} := by
  ext vector
  constructor
  · rintro ⟨assignment, consistent, holds, rfl⟩
    obtain ⟨before, here⟩ := Facts.holds_noted.mp holds
    exact ⟨⟨assignment, grows.consistent consistent, before, rfl⟩,
      (blocks assignment consistent).mp here⟩
  · rintro ⟨⟨assignment, consistent, holds, rfl⟩, differs⟩
    obtain ⟨extended, respects, same⟩ := grows.exists_consistent valid consistent
    have stable (signal : Signal)
        (member : signal ∈ signals ++ (facts.asserted ++ facts.assumed)) :
        signal.eval extended = signal.eval assignment :=
      Signal.eval_congr (same _ (Numbering.contains_iff.mp (inside signal member)).2)
    have values : signals.map (·.eval extended) = signals.map (·.eval assignment) :=
      List.map_congr_left fun signal member => stable signal (List.mem_append_left _ member)
    refine ⟨extended, respects, Facts.holds_noted.mpr ⟨⟨fun signal member => ?_,
      fun signal member => ?_⟩, (blocks extended respects).mpr (values ▸ differs)⟩, values⟩
    · rw [stable signal (by simp [member]), holds.1 signal member]
    · rw [stable signal (by simp [member]), holds.2 signal member]

namespace Session

variable {ε : Type} [Engine ε]

/-- The last solve came to the right verdict about the facts, a positive one with a model that
agrees with what the engine has. -/
structure Decided (session : Session ε) (facts : Facts) : Prop where
  sat_iff : session.verdict = .satisfiable ↔
    ∃ assignment, session.circuit.Consistent assignment ∧ facts.Holds assignment
  unsat : session.verdict ≠ .satisfiable → session.verdict = .unsatisfiable
  taken : session.verdict = .satisfiable → ∃ model,
    session.Solved session.circuit.numbering model ∧
      Agrees session.circuit facts (Valuation.known session.circuit.numbering model)

/-! ## Turns of the loop -/

/-- Without a solution the loop stops. -/
theorem enumerateFrom_of_ne {session : Session ε} (other : session.verdict ≠ .satisfiable)
    (signals : List Signal) (limit : Nat) :
    session.enumerateFrom signals limit = pure (.ok [], session) := by
  cases limit with
  | zero => rfl
  | succ limit =>
    have isSat : ¬session.verdict.isSat = true := by simpa [Verdict.isSat] using other
    rw [enumerateFrom, if_neg isSat]

/-- With a solution the loop goes on after a turn. -/
theorem enumerateFrom_of_turn {session blocked asserted next last : Session ε}
    {signals : List Signal} {values : List Bool} {output : Signal} {verdict : Verdict}
    {limit : Nat} {first second third later : List Event}
    {reply : Except SessionError (List (List Bool))} (sat : session.verdict = .satisfiable)
    (read : signals.mapM session.value = .ok values)
    (built : (session.blocker signals).Returns first (.ok output, blocked))
    (done : (blocked.assert output).Returns second (.ok (), asserted))
    (solved : asserted.solve.Returns third (verdict, next))
    (loop : (next.enumerateFrom signals limit).Returns later (reply, last)) :
    (session.enumerateFrom signals (limit + 1)).Returns (first ++ second ++ third ++ later)
      (reply.map (values :: ·), last) := by
  have isSat : session.verdict.isSat = true := by rw [sat]; rfl
  rw [enumerateFrom, if_pos isSat, read, List.append_assoc, List.append_assoc]
  refine andThen_returns_iff.mpr (.inr ⟨first, output, blocked, _, built, ?_, rfl⟩)
  refine andThen_returns_iff.mpr (.inr ⟨second, (), asserted, _, done, ?_, rfl⟩)
  refine Outcome.returns_bind.mpr ⟨third, (verdict, next), _, solved, ?_, rfl⟩
  exact Outcome.returns_bind.mpr ⟨later, (reply, last), [], loop,
    Outcome.returns_pure.mpr ⟨rfl, rfl⟩, (List.append_nil _).symm⟩

/-- What a turn comes to: the values of a solution are recorded and ruled out, and the next session
is decided about the rest. -/
structure Turns (session : Session ε) (facts : Facts) (signals : List Signal) (values : List Bool)
    (trace : List Event) (next : Session ε) (known : Facts) : Prop where
  recorded : values ∈ session.circuit.projections facts signals
  rest : next.circuit.projections known signals =
    session.circuit.projections facts signals \ {values}
  solves : solvesOf (callsOf trace) = 1
  decided : next.Decided known
  valued : next.verdict = .satisfiable →
    ∀ signal ∈ signals, ∃ value, next.value signal = .ok value
  grown : next.circuit.numbering.numCircuit ≤
    session.circuit.numbering.numCircuit + (signals.length - 1)
  continues (limit : Nat) (later : List Event) (reply : Except SessionError (List (List Bool)))
    (last : Session ε) (loop : (next.enumerateFrom signals limit).Returns later (reply, last)) :
    (session.enumerateFrom signals (limit + 1)).Returns (trace ++ later)
      (reply.map (values :: ·), last)

/-- What the loop comes to from a session on: the values of all solutions were recorded, each once,
and each of them took one turn. -/
structure Enumerates (session : Session ε) (facts : Facts) (signals : List Signal)
    (vectors : List (List Bool)) : Prop where
  distinct : vectors.Nodup
  complete (vector : List Bool) :
    vector ∈ vectors ↔ vector ∈ session.circuit.projections facts signals
  ends (limit : Nat) (enough : vectors.length ≤ limit) : ∃ trace last,
    (session.enumerateFrom signals limit).Returns trace (.ok vectors, last) ∧
    last.verdict = .unsatisfiable ∧ solvesOf (callsOf trace) = vectors.length ∧
    last.circuit.numbering.numCircuit ≤
      session.circuit.numbering.numCircuit + vectors.length * (signals.length - 1)

section

variable {session next : Session ε} {facts known : Facts} {signals : List Signal}
  {values : List Bool} {trace : List Event} {vectors : List (List Bool)}

theorem Enumerates.length_eq (enumerates : session.Enumerates facts signals vectors) :
    vectors.length = (session.circuit.projections facts signals).ncard := by
  have same : session.circuit.projections facts signals = ↑vectors.toFinset := by
    ext vector
    rw [← enumerates.complete, List.coe_toFinset, Set.mem_ofPred_eq]
  rw [same, Set.ncard_coe_finset, List.toFinset_card_of_nodup enumerates.distinct]

/-- Where there is no solution, nothing is recorded. -/
theorem Decided.enumerates_nil (decided : session.Decided facts)
    (other : session.verdict ≠ .satisfiable) : session.Enumerates facts signals [] where
  distinct := .nil
  complete vector := by
    refine iff_of_false List.not_mem_nil ?_
    rintro ⟨assignment, consistent, holds, _⟩
    exact other (decided.sat_iff.mpr ⟨assignment, consistent, holds⟩)
  ends limit _ := by
    refine ⟨[], session, ?_, decided.unsat other, rfl, Nat.le_add_right _ _⟩
    rw [enumerateFrom_of_ne other]
    exact Outcome.returns_pure.mpr ⟨rfl, rfl⟩

/-- A turn leaves one vector less to be recorded. -/
theorem Turns.ncard_succ (turns : session.Turns facts signals values trace next known) :
    (next.circuit.projections known signals).ncard + 1 =
      (session.circuit.projections facts signals).ncard := by
  rw [turns.rest]
  exact Set.ncard_sdiff_singleton_add_one turns.recorded (Circuit.finite_projections _ _ _)

/-- What a turn records comes before what is recorded later. -/
theorem Turns.enumerates_cons (turns : session.Turns facts signals values trace next known)
    (later : next.Enumerates known signals vectors) :
    session.Enumerates facts signals (values :: vectors) where
  distinct := by
    refine List.nodup_cons.mpr ⟨fun again => ?_, later.distinct⟩
    rw [later.complete, turns.rest] at again
    exact again.2 rfl
  complete vector := by
    rw [List.mem_cons, later.complete, turns.rest]
    by_cases same : vector = values
    · subst same
      exact iff_of_true (.inl rfl) turns.recorded
    · exact ⟨fun recorded => (recorded.resolve_left same).1, fun found => .inr ⟨found, same⟩⟩
  ends limit enough := by
    rw [List.length_cons] at enough ⊢
    obtain ⟨fuel, rfl⟩ : ∃ fuel, limit = fuel + 1 := ⟨limit - 1, by omega⟩
    obtain ⟨events, last, loop, final, solves, grown⟩ := later.ends fuel (by omega)
    have taken := turns.grown
    refine ⟨trace ++ events, last, turns.continues fuel events _ last loop, final, ?_, ?_⟩
    · rw [callsOf_append, solvesOf_append, turns.solves, solves, Nat.add_comm]
    · rw [Nat.add_mul]
      omega

end

namespace Sound

variable {start : ε} {calls : List Call} {facts : Facts} {session next : Session ε}
  {signals : List Signal}

theorem decided (sound : session.Sound start calls facts) (honest : Engine.Honest start)
    {trace : List Event} {verdict : Verdict}
    (returned : session.solve.Returns trace (verdict, next)) : next.Decided facts := by
  obtain ⟨_, encodes⟩ := sound.solve returned
  obtain ⟨right, other⟩ := sound.verdict honest returned
  obtain ⟨_, _, _, _, _, _, _, _, _, _, _, rfl, _⟩ := sound.solve_asks returned
  refine ⟨?_, other, fun sat => ?_⟩
  · rw [right]
    simp only [encodes.consistent_iff]
  · rw [sat] at returned
    obtain ⟨_, model, _, _, solved, agrees⟩ := sound.solved returned
    exact ⟨model, solved, agrees honest.toTruthful⟩

theorem contains_facts (sound : session.Sound start calls facts) :
    ∀ signal ∈ facts.asserted ++ facts.assumed,
      session.circuit.numbering.contains signal = true := by
  refine List.forall_mem_append.mpr ⟨fun signal member => ?_, fun signal member => ?_⟩
  · obtain ⟨_, _, denotes⟩ := exists_of_forall₂ sound.asserted.flip member
    exact Numbering.Denotes.contained denotes
  · obtain ⟨_, _, denotes⟩ := exists_of_forall₂ sound.assumed.flip member
    exact Numbering.Denotes.contained denotes

/-- Where a disjunction is asserted, a solution has values for the signals in it. -/
theorem valued_of_disjoins (sound : session.Sound start calls facts)
    (decided : session.Decided facts) (sat : session.verdict = .satisfiable) {former : Circuit}
    {output : Signal} (disjoins : former.Disjoins signals output)
    (grows : former.Grows session.circuit) (asserted : output ∈ facts.asserted) {signal : Signal}
    (among : signal.var ∈ signals.map Signal.var) : ∃ value, session.value signal = .ok value := by
  obtain ⟨model, taken, _⟩ := decided.taken sat
  obtain ⟨literal, _, denotes⟩ := exists_of_forall₂ sound.asserted.flip asserted
  have images := disjoins.mapped grows sound.circuit sound.closed
    (Option.isSome_of_eq_some denotes.1)
  obtain ⟨opponent, given, same⟩ := List.mem_map.mp among
  obtain ⟨image, mapped⟩ := Option.isSome_iff_exists.mp (images opponent given)
  exact ⟨_, (taken.follows sound.circuit).mapped (same ▸ mapped)⟩

/-- A solution is recorded, its values are ruled out, and the next solve decides about the rest. -/
theorem turn (sound : session.Sound start calls facts) (honest : Engine.Honest start)
    (decided : session.Decided facts) (sat : session.verdict = .satisfiable)
    (nonempty : signals ≠ [])
    (valued : ∀ signal ∈ signals, ∃ value, session.value signal = .ok value)
    (room : session.circuit.numbering.numCircuit + session.blockDemand signals ≤ maxVar) :
    ∃ (values : List Bool) (trace : List Event) (next : Session ε) (calls : List Call)
        (known : Facts), next.Sound start calls known ∧
      session.Turns facts signals values trace next known := by
  obtain ⟨model, solved, agrees⟩ := decided.taken sat
  obtain ⟨values, opposed, first, output, blocked, opposes, built, silent, after, grows,
    disjoins⟩ := sound.blocker solved nonempty valued room
  obtain ⟨second, asserted, done⟩ := after.exists_assert honest.toWilling disjoins.contained
  have step : Step blocked ⟨.assert output, .ok .done, second⟩ asserted :=
    (returns_reply _).mpr ⟨_, done, rfl⟩
  obtain ⟨asserts, wider⟩ := after.step rfl (assert_numCircuit done ▸ after.circuit.small) step
  obtain ⟨third, verdict, next, returned⟩ := asserts.exists_solve honest.toWilling
  obtain ⟨final, more⟩ := asserts.solve returned
  have further := wider.trans more.grows
  refine ⟨values, first ++ second ++ third, next, _, _, final, ?_⟩
  constructor
  case recorded =>
    obtain ⟨assignment, consistent, holds, same⟩ :=
      solved.exists_consistent sound.circuit (.refl _) agrees
    exact ⟨assignment, consistent, holds, opposes.respects same⟩
  case rest =>
    refine Circuit.projections_noted (grows.trans further) final.circuit
      (fun assignment consistent => opposes.eval_iff disjoins (further.consistent consistent))
      (List.forall_mem_append.mpr ⟨fun signal member => ?_, sound.contains_facts⟩)
    obtain ⟨_, found⟩ := valued signal member
    exact (solved.value_eq_ok_iff.mp found).1
  case solves =>
    simp only [callsOf_append, solvesOf_append, silent, solvesOf_nil, after.assert_solves done,
      asserts.solve_solves honest.toCounting returned]
  case decided => exact asserts.decided honest returned
  case valued =>
    intro again signal member
    have among : signal.var ∈ opposed.map Signal.var :=
      opposes.vars ▸ List.mem_map_of_mem member
    exact final.valued_of_disjoins (asserts.decided honest returned) again disjoins further
      (show output ∈ noted facts.asserted output from mem_noted.mpr (.inr rfl)) among
  case grown =>
    rw [solve_numCircuit returned, assert_numCircuit done, blocker_numCircuit built]
    exact Nat.add_le_add_left (session.blockDemand_le signals) _
  case continues =>
    intro limit later reply last loop
    exact enumerateFrom_of_turn sat opposes.read built done returned loop

/-- From a decided session on, the loop records the values of all solutions, each once. All that it
needs is room for as many turns as there are such values, and each turn takes its share. -/
theorem enumerateFrom (sound : session.Sound start calls facts) (honest : Engine.Honest start)
    (decided : session.Decided facts) (nonempty : signals ≠ [])
    (valued : session.verdict = .satisfiable →
      ∀ signal ∈ signals, ∃ value, session.value signal = .ok value)
    (room : ∀ limit ≤ (session.circuit.projections facts signals).ncard, ∀ trace reply last,
      (session.enumerateFrom signals limit).Returns trace (reply, last) →
      last.circuit.numbering.numCircuit + last.blockDemand signals ≤ maxVar) :
    ∃ vectors, session.Enumerates facts signals vectors := by
  -- Each turn takes one vector away from those that solutions still have.
  induction size : (session.circuit.projections facts signals).ncard
    using Nat.strong_induction_on generalizing session calls facts with
  | _ size ih =>
    subst size
    by_cases sat : session.verdict = .satisfiable
    · have demand := room 0 (Nat.zero_le _) [] (.ok []) session
        (Outcome.returns_pure.mpr ⟨rfl, rfl⟩)
      obtain ⟨values, trace, next, _, known, after, turns⟩ :=
        sound.turn honest decided sat nonempty (valued sat) demand
      have fewer := turns.ncard_succ
      have space (limit : Nat) (within : limit ≤ (next.circuit.projections known signals).ncard)
          (later : List Event) (reply : Except SessionError (List (List Bool)))
          (last : Session ε)
          (loop : (next.enumerateFrom signals limit).Returns later (reply, last)) :
          last.circuit.numbering.numCircuit + last.blockDemand signals ≤ maxVar :=
        room (limit + 1) (by omega) _ _ _ (turns.continues limit later reply last loop)
      obtain ⟨vectors, rest⟩ := ih _ (by omega) after turns.decided turns.valued space rfl
      exact ⟨values :: vectors, turns.enumerates_cons rest⟩
    · exact ⟨[], decided.enumerates_nil sat⟩

end Sound

/-- Each turn takes at most a variable for each signal but the first. -/
theorem enumerateFrom_numCircuit_le {session last : Session ε} {signals : List Signal}
    {limit : Nat} {trace : List Event} {reply : Except SessionError (List (List Bool))}
    (returned : (session.enumerateFrom signals limit).Returns trace (reply, last)) :
    last.circuit.numbering.numCircuit ≤
      session.circuit.numbering.numCircuit + limit * (signals.length - 1) := by
  induction limit generalizing session trace reply with
  | zero =>
    obtain ⟨_, same⟩ := Outcome.returns_pure.mp returned
    cases same
    exact Nat.le_add_right _ _
  | succ limit ih =>
    have stops {result : Except SessionError (List (List Bool))}
        (same : (reply, last) = (result, session)) : last.circuit.numbering.numCircuit ≤
          session.circuit.numbering.numCircuit + (limit + 1) * (signals.length - 1) := by
      cases same
      exact Nat.le_add_right _ _
    have taken := session.blockDemand_le signals
    rw [enumerateFrom] at returned
    split at returned
    · split at returned
      · exact stops (Outcome.returns_pure.mp returned).2
      · rcases andThen_returns_iff.mp returned with ⟨_, refused, _⟩ |
          ⟨_, output, blocked, _, built, turn, _⟩
        · have grown := blocker_numCircuit refused
          rw [Nat.add_mul]
          omega
        · have grown := blocker_numCircuit built
          rcases andThen_returns_iff.mp turn with ⟨_, refused, _⟩ |
            ⟨_, _, asserted, _, done, solving, _⟩
          · have kept := assert_numCircuit refused
            rw [Nat.add_mul]
            omega
          · simp only [Outcome.returns_bind, Outcome.returns_pure, Prod.mk.injEq] at solving
            obtain ⟨_, ⟨_, next⟩, _, solved, ⟨_, ⟨_, _⟩, _, later, ⟨_, _, rfl⟩, _⟩, _⟩ := solving
            have kept := assert_numCircuit done
            have same := solve_numCircuit solved
            have others : last.circuit.numbering.numCircuit ≤
              next.circuit.numbering.numCircuit + limit * (signals.length - 1) := ih later
            rw [Nat.add_mul]
            omega
    · exact stops (Outcome.returns_pure.mp returned).2

/-- There is room for all turns if there is for one more than there are values to record. -/
theorem Sound.enumerateFrom_room {start : ε} {calls : List Call} {facts : Facts}
    {session : Session ε} {signals : List Signal} (sound : session.Sound start calls facts)
    (honest : Engine.Honest start) (decided : session.Decided facts) (nonempty : signals ≠ [])
    (valued : session.verdict = .satisfiable →
      ∀ signal ∈ signals, ∃ value, session.value signal = .ok value)
    (few : session.circuit.numbering.numCircuit +
      ((session.circuit.projections facts signals).ncard + 1) * (signals.length - 1) ≤ maxVar)
    {limit : Nat} {trace : List Event} {reply : Except SessionError (List (List Bool))}
    {last : Session ε} (loop : (session.enumerateFrom signals limit).Returns trace (reply, last)) :
    last.circuit.numbering.numCircuit + last.blockDemand signals ≤ maxVar := by
  rw [Nat.add_mul, Nat.one_mul] at few
  have fits {last : Session ε} {turns : Nat}
      (enough : turns ≤ (session.circuit.projections facts signals).ncard)
      (grown : last.circuit.numbering.numCircuit ≤
        session.circuit.numbering.numCircuit + turns * (signals.length - 1)) :
      last.circuit.numbering.numCircuit + last.blockDemand signals ≤ maxVar := by
    have share := Nat.mul_le_mul_right (signals.length - 1) enough
    have demand := last.blockDemand_le signals
    omega
  have short (turns : Nat) (enough : turns ≤ (session.circuit.projections facts signals).ncard)
      (trace : List Event) (reply : Except SessionError (List (List Bool))) (last : Session ε)
      (loop : (session.enumerateFrom signals turns).Returns trace (reply, last)) :
      last.circuit.numbering.numCircuit + last.blockDemand signals ≤ maxVar :=
    fits enough (enumerateFrom_numCircuit_le loop)
  rcases Nat.le_total limit (session.circuit.projections facts signals).ncard with within | beyond
  · exact short limit within trace reply last loop
  · obtain ⟨vectors, enumerates⟩ := sound.enumerateFrom honest decided nonempty valued short
    obtain ⟨_, _, done, _, _, grown⟩ := enumerates.ends limit (enumerates.length_eq ▸ beyond)
    obtain ⟨_, same⟩ := loop.unique done
    cases same
    exact fits (Nat.le_of_eq enumerates.length_eq) grown

/-- Whatever the facts are, a run has room for an enumeration if there are variables for a blocker
of each list of bits and for one more. -/
theorem enumerate_room {engine : ε} (honest : Engine.Honest engine) {settings : Settings}
    {entries : List Entry} {session : Session ε} (run : Run engine settings entries session)
    {signals : List Signal} (nonempty : signals ≠ [])
    (valued : ∀ trace next, session.solve.Returns trace (.satisfiable, next) →
      ∀ signal ∈ signals, ∃ value, next.value signal = .ok value)
    (few : session.circuit.numbering.numCircuit +
      (2 ^ signals.length + 1) * (signals.length - 1) ≤ maxVar)
    {limit : Nat} {trace : List Event} {reply : Except SessionError (List (List Bool))}
    {last : Session ε} (loop : (session.enumerate signals limit).Returns trace (reply, last)) :
    last.circuit.numbering.numCircuit + last.blockDemand signals ≤ maxVar := by
  obtain ⟨calls, sound⟩ := run.sound (Nat.le_of_add_right_le few)
  obtain ⟨_, ⟨verdict, first⟩, _, returned, later, _⟩ := Outcome.returns_bind.mp loop
  obtain ⟨after, _⟩ := sound.solve returned
  have same := solve_numCircuit returned
  obtain ⟨_, _, _, _, _, _, _, _, _, _, _, rfl, _⟩ := sound.solve_asks returned
  refine after.enumerateFrom_room honest (sound.decided honest returned) nonempty
    (fun sat => valued _ _ (sat ▸ returned)) ?_ later
  have share := Nat.mul_le_mul_right (signals.length - 1)
    (Nat.succ_le_succ (first.circuit.ncard_projections_le (Facts.of entries) signals))
  rw [same]
  exact Nat.le_trans (Nat.add_le_add_left share _) few

/-- On an honest engine the loop of solving, recording the values of the signals, and ruling these
values out ends by itself, once the values of every solution of the run were recorded, each once. It
takes one solve more than there are such values. All that is asked for is that the signals have
values after the first solve, and that no turn needs more variables than there are. -/
theorem enumerate_exact {engine : ε} (honest : Engine.Honest engine) {settings : Settings}
    {entries : List Entry} {session : Session ε} (run : Run engine settings entries session)
    (small : session.circuit.numbering.numCircuit ≤ maxVar) {signals : List Signal}
    (nonempty : signals ≠ [])
    (valued : ∀ trace next, session.solve.Returns trace (.satisfiable, next) →
      ∀ signal ∈ signals, ∃ value, next.value signal = .ok value)
    (room : ∀ limit trace reply last,
      (session.enumerate signals limit).Returns trace (reply, last) →
      last.circuit.numbering.numCircuit + last.blockDemand signals ≤ maxVar) :
    ∃ vectors : List (List Bool), vectors.Nodup ∧
      (∀ vector, vector ∈ vectors ↔ ∃ assignment, session.circuit.Consistent assignment ∧
        (Facts.of entries).Holds assignment ∧ signals.map (·.eval assignment) = vector) ∧
      ∀ limit, vectors.length ≤ limit → ∃ trace last,
        (session.enumerate signals limit).Returns trace (.ok vectors, last) ∧
        last.verdict = .unsatisfiable ∧ solvesOf (callsOf trace) = vectors.length + 1 := by
  obtain ⟨calls, sound⟩ := run.sound small
  obtain ⟨first, verdict, next, returned⟩ := sound.exists_solve honest.toWilling
  obtain ⟨after, encodes⟩ := sound.solve returned
  obtain ⟨_, _, _, _, _, _, _, _, _, _, _, rfl, _⟩ := sound.solve_asks returned
  have starts {limit : Nat} {later : List Event} {reply : Except SessionError (List (List Bool))}
      {last : Session ε} (loop : (next.enumerateFrom signals limit).Returns later (reply, last)) :
      (session.enumerate signals limit).Returns (first ++ later) (reply, last) :=
    returned.bind loop
  have known : next.verdict = .satisfiable →
      ∀ signal ∈ signals, ∃ value, next.value signal = .ok value := fun sat =>
    valued first next (sat ▸ returned)
  obtain ⟨vectors, enumerates⟩ := after.enumerateFrom honest (sound.decided honest returned)
    nonempty known fun _ _ _ _ _ loop => room _ _ _ _ (starts loop)
  refine ⟨vectors, enumerates.distinct, fun vector => ?_, fun limit enough => ?_⟩
  · rw [enumerates.complete]
    simp only [Circuit.projections, Set.mem_ofPred_eq, encodes.consistent_iff]
  · obtain ⟨later, last, loop, final, count, _⟩ := enumerates.ends limit enough
    refine ⟨first ++ later, last, starts loop, final, ?_⟩
    rw [callsOf_append, solvesOf_append, sound.solve_solves honest.toCounting returned, count,
      Nat.add_comm]

/-- The values of two inputs under their disjunction. The blockers are three more gates. -/
theorem enumerate_exact_of_disjunction : ∃ entries session,
    Run (Lexicographic.create true) .standard entries session ∧
    entries.map Entry.operation = [.input, .input, .gate .or ⟨1⟩ ⟨2⟩, .assert ⟨3⟩] ∧
    session.circuit.numbering.numCircuit = 3 ∧
    (∃ trace last, (session.enumerate [⟨1⟩, ⟨2⟩] 4).Returns trace
        (.ok [[true, true], [true, false], [false, true]], last) ∧
      last.circuit.numbering.numCircuit = 6) ∧
    ∃ vectors : List (List Bool), vectors.Nodup ∧
      (∀ vector, vector ∈ vectors ↔ ∃ assignment, session.circuit.Consistent assignment ∧
        (Facts.of entries).Holds assignment ∧
        ([⟨1⟩, ⟨2⟩] : List Signal).map (·.eval assignment) = vector) ∧
      ∀ limit, vectors.length ≤ limit → ∃ trace last,
        (session.enumerate [⟨1⟩, ⟨2⟩] limit).Returns trace (.ok vectors, last) ∧
        last.verdict = .unsatisfiable ∧ solvesOf (callsOf trace) = vectors.length + 1 := by
  obtain ⟨entries, session, run, operations, size, solved, looped⟩ :=
    exists_run (Lexicographic.create true) .standard
      [.input, .input, .gate .or ⟨1⟩ ⟨2⟩, .assert ⟨3⟩]
      (fun _ session => session.circuit.numbering.numCircuit = 3 ∧
        (session.solve.result.toOption.any fun solved =>
          [⟨1⟩, ⟨2⟩].map solved.2.value = [.ok true, .ok true]) ∧
        (session.enumerate [⟨1⟩, ⟨2⟩] 4).result.toOption.any fun looped =>
          looped.1 = .ok [[true, true], [true, false], [false, true]] ∧
          looped.2.circuit.numbering.numCircuit = 6) (by decide +kernel)
  obtain ⟨⟨_, last⟩, recorded, rfl, grown⟩ := Outcome.exists_returns looped
  have valued (trace : List Event) (next : Session Lexicographic)
      (returned : session.solve.Returns trace (.satisfiable, next)) :
      ∀ signal ∈ ([⟨1⟩, ⟨2⟩] : List Signal), ∃ value, next.value signal = .ok value := by
    obtain ⟨_, computed, values⟩ := Outcome.exists_returns solved
    obtain ⟨_, rfl⟩ := returned.unique computed
    simp only [List.map_cons, List.cons.injEq] at values
    simp [values]
  have honest := Lexicographic.honest true
  have few : session.circuit.numbering.numCircuit + (2 ^ 2 + 1) * (2 - 1) ≤ maxVar := by
    rw [size]
    decide
  exact ⟨entries, session, run, operations, size, ⟨_, last, recorded, grown⟩,
    enumerate_exact honest run (Nat.le_of_add_right_le few) (by simp) valued
      fun limit trace reply last loop => enumerate_room honest run (by simp) valued few loop⟩

end Session

end CircuitSat
