import CircuitSat.Proofs.Engine.Adapter
import CircuitSat.Proofs.Session.Delivery
import CircuitSat.Proofs.Session.Refusals
import CircuitSat.Proofs.Session.Sharing
import Mathlib.Data.Int.Interval

/-! # No check ever fires

On an engine that takes proper calls every request returns, whatever its arguments are, as long as
there are variables for it. What the invariant says of the numbering, the indices and the gates in
clauses is just what the checks on the way ask for.
-/

namespace CircuitSat

/-- No gate takes more than four clauses. -/
theorem Netlist.length_clauses_le (netlist : Netlist) :
    netlist.clauses.length ≤ 4 * netlist.size := by
  have split : netlist.gates.size = _ := Array.size_eq_countP_add_countP
    (p := fun gate => gate.isEncoded && gate.connective != .xor)
  have exclusive : (netlist.gates.countP fun gate => gate.isEncoded && gate.connective == .xor) ≤
      netlist.gates.countP fun gate => decide ¬(gate.isEncoded && gate.connective != .xor) = true :=
    Array.countP_mono_left fun gate _ => by cases gate.isEncoded <;> simp
  rw [netlist.length_clauses, size]
  omega

/-- There are not many different signals. -/
theorem Numbering.length_le_of_contained {numbering : Numbering} {signals : List Signal}
    (distinct : signals.Nodup)
    (contained : ∀ signal ∈ signals, numbering.contains signal = true) :
    signals.length ≤ 2 * numbering.numCircuit + 1 := by
  have words : (signals.map fun signal => signal.code.toInt).Nodup :=
    distinct.map fun left right same => by
      obtain ⟨left⟩ := left
      obtain ⟨right⟩ := right
      exact congrArg Signal.mk (Int32.toInt_inj.mp same)
  have within : (signals.map fun signal => signal.code.toInt).toFinset ⊆
      Finset.Icc (-(numbering.numCircuit : Int)) numbering.numCircuit := by
    intro word member
    obtain ⟨signal, among, rfl⟩ := List.mem_map.mp (List.mem_toFinset.mp member)
    have range := (contains_iff.mp (contained signal among)).2
    rw [Signal.var] at range
    rw [Finset.mem_Icc]
    omega
  have count := Finset.card_le_card within
  rw [List.toFinset_card_of_nodup words, List.length_map, Int.card_Icc] at count
  omega

namespace Circuit.WellFormed

variable {circuit : Circuit}

/-- The walk below a valid signal ends, and what it reports is stored with the gates by then. -/
theorem exists_walk (valid : circuit.WellFormed) (closed : circuit.Closed []) {signal : Signal}
    (contained : circuit.numbering.contains signal = true) :
    ∃ literal middle trace fresh last, circuit.literalOf signal = .ok (literal, middle) ∧
      (middle.reach [signal.var]).Returns trace (fresh, last) ∧
      ∀ connective literals, (connective, literals) ∈ fresh →
        ∃ gate ∈ last.netlist.gates, gate.connective = connective ∧
          gate.literals = some literals := by
  obtain ⟨literal, middle, found, mapped, _, _, _, closes⟩ := valid.literalOf_spec contained
  obtain ⟨trace, fresh, last, walked, _, final, _, _, codes⟩ := mapped.reach_spec (closes _ closed)
  refine ⟨literal, middle, trace, fresh, last, found, walked, fun connective literals member => ?_⟩
  obtain ⟨gate, present, same, encoded, _⟩ :=
    final.exists_of_mem_codes (codes.mem_iff.mpr (List.mem_append_left _ member))
  exact ⟨gate, present, same, encoded⟩

end Circuit.WellFormed

namespace Session

variable {ε : Type} [Engine ε] {start : ε} {calls : List Call} {facts : Facts}
  {session next : Session ε}

omit [Engine ε] in
theorem exists_reply {α : Type} {request : Outcome Event (Reply ε α)} {view : α → Answer}
    (returned : ∃ trace reply next, request.Returns trace (reply, next)) :
    ∃ trace reply next, (do
      let (reply, session) ← request
      return (reply.map view, session) : Outcome Event (Reply ε Answer)).Returns
        trace (reply, next) := by
  obtain ⟨trace, reply, next, done⟩ := returned
  exact ⟨trace, _, next, (returns_reply (Except.map view)).mpr ⟨reply, done, rfl⟩⟩

namespace Sound

/-- The active assumptions are read back as the signals that were assumed. -/
theorem assumedSignals_eq (sound : session.Sound start calls facts) :
    session.assumedSignals = .ok facts.assumed := by
  have read : session.assumptions.mapM session.circuit.numbering.signalOf =
      .ok (facts.assumed.map some) :=
    Numbering.mapM_signalOf sound.circuit.numbering sound.circuit.small sound.assumed
  have signals : (facts.assumed.map some).filterMap id = facts.assumed := by
    rw [List.filterMap_map]
    exact List.filterMap_some
  rw [assumedSignals, read]
  exact congrArg Except.ok signals

/-- Asking for a literal ends well, and it can be negated. -/
theorem exists_proper (sound : session.Sound start calls facts) (signal : Signal) :
    ∃ reply, session.literal? signal = .ok reply ∧
      ∀ literal, reply = .ok (some literal) → literal.proper = true := by
  have valid := sound.circuit.numbering
  have small := sound.circuit.small
  cases objection : session.circuit.objection? signal with
  | some error => exact ⟨_, literal?_error_iff.mpr objection, fun _ same => nomatch same⟩
  | none =>
    have contained := Circuit.objection?_eq_none_iff.mp objection
    obtain ⟨found, looked, denoted, _⟩ := Numbering.lookup_spec valid small signal
    refine ⟨.ok found, by rw [literal?_of_contained contained, looked]; rfl, ?_⟩
    rintro literal ⟨⟩
    exact (Numbering.Denotes.proper valid small ((denoted literal).mp rfl)).1

/-! ## Every request returns -/

theorem exists_assertEach (sound : session.Sound start calls facts)
    (willing : Engine.Willing start) {signals : List Signal}
    (contained : ∀ signal ∈ signals, session.circuit.numbering.contains signal = true) :
    ∃ trace next, (session.assertEach signals).Returns trace (.ok (), next) := by
  induction signals generalizing session calls facts with
  | nil => exact ⟨[], session, Outcome.returns_pure.mpr ⟨rfl, rfl⟩⟩
  | cons signal rest ih =>
    obtain ⟨here, others⟩ := List.forall_mem_cons.mp contained
    obtain ⟨before, middle, first⟩ := sound.exists_assert willing here
    have same := assert_numCircuit first
    have step : Step session ⟨.assert signal, .ok .done, before⟩ middle :=
      (returns_reply _).mpr ⟨_, first, rfl⟩
    have within : middle.circuit.numbering.numCircuit ≤ maxVar := same ▸ sound.circuit.small
    obtain ⟨after, last, later⟩ := ih (sound.step rfl within step).1 fun other member =>
      (Numbering.contains_congr same).trans (others other member)
    exact ⟨before ++ after, last,
      andThen_returns_iff.mpr (.inr ⟨before, (), middle, after, first, later, rfl⟩)⟩

/-- A blocker is built or turned down. -/
theorem exists_blocker (sound : session.Sound start calls facts) {signals : List Signal}
    (room : session.circuit.numbering.numCircuit + session.blockDemand signals ≤ maxVar) :
    ∃ trace reply next, (session.blocker signals).Returns trace (reply, next) := by
  rw [Session.blocker]
  rcases session.differing_spec sound.circuit.small signals with ⟨error, _, found⟩ |
    ⟨_, opposed, found, inside⟩
  · rw [found]
    exact ⟨[], .error error, session, rfl⟩
  · rcases opposed with _ | ⟨first, rest⟩
    · rw [found]
      exact ⟨[], .error .noVariables, session, rfl⟩
    · obtain ⟨here, others⟩ := List.forall_mem_cons.mp inside
      rw [blockDemand, found] at room
      obtain ⟨trace, output, last, built, _⟩ := sound.disjoin (.one here) others room
      rw [found]
      exact ⟨trace, .ok output, last, .bind (Outcome.returns_lift.mpr ⟨rfl, rfl⟩) built⟩

theorem exists_setMaxTime (sound : session.Sound start calls facts)
    (willing : Engine.Willing start) (bound : Seconds) :
    ∃ trace next, (session.setMaxTime bound).Returns trace next := by
  have accepted : Engine.Accepts session.encoding.engine (.maxTime (some bound)) := trivial
  obtain ⟨_, takes⟩ := willing.taken sound.faithful.after accepted
    (sound.few_declared willing.toCounting)
  cases takes with
  | maxTime reply =>
    exact ⟨_, _, .bind (Call.returns_record.mpr ⟨_, reply, rfl⟩)
      (Outcome.returns_pure.mpr ⟨rfl, rfl⟩)⟩

theorem exists_setMaxConflicts (sound : session.Sound start calls facts)
    (willing : Engine.Willing start) (bound : Nat) :
    ∃ trace next, (session.setMaxConflicts bound).Returns trace next := by
  have accepted : Engine.Accepts session.encoding.engine (.maxConflicts (some bound)) := trivial
  obtain ⟨_, takes⟩ := willing.taken sound.faithful.after accepted
    (sound.few_declared willing.toCounting)
  cases takes with
  | maxConflicts reply =>
    exact ⟨_, _, .bind (Call.returns_record.mpr ⟨_, reply, rfl⟩)
      (Outcome.returns_pure.mpr ⟨rfl, rfl⟩)⟩

omit [Engine ε] in
/-- A request for one valid signal is granted, and any other is turned down. -/
theorem exists_of_contained {request : Outcome Event (Reply ε Unit)} {signal : Signal}
    (refused : ∀ {error}, session.circuit.objection? signal = some error →
      request.Returns [] (.error error, session))
    (granted : session.circuit.numbering.contains signal = true →
      ∃ trace next, request.Returns trace (.ok (), next)) :
    ∃ trace reply next, request.Returns trace (reply, next) := by
  cases objection : session.circuit.objection? signal with
  | some error => exact ⟨[], _, _, refused objection⟩
  | none =>
    obtain ⟨trace, next, returned⟩ := granted (Circuit.objection?_eq_none_iff.mp objection)
    exact ⟨trace, _, next, returned⟩

/-- A request returns, turned down or not, if there are as many variables as it takes. -/
theorem exists_run (sound : session.Sound start calls facts) (willing : Engine.Willing start)
    {operation : Operation}
    (room : session.circuit.numbering.numCircuit + session.demand operation ≤ maxVar) :
    ∃ trace reply next, (operation.run session).Returns trace (reply, next) := by
  cases operation with
  | input =>
    obtain ⟨signal, next, added⟩ := exists_addInput (show _ < maxVar from room)
    exact ⟨[], _, next, step_input.mpr ⟨signal, added, rfl⟩⟩
  | gate connective left right =>
    refine exists_reply ?_
    by_cases contained : session.circuit.numbering.contains left = true ∧
        session.circuit.numbering.contains right = true
    · obtain ⟨trace, output, next, added, _⟩ :=
        exists_addGate sound.circuit connective contained room
      exact ⟨trace, _, next, added⟩
    · obtain ⟨error, refused⟩ := addGate_of_invalid connective contained
      exact ⟨[], .error error, session, refused⟩
  | assert signal =>
    exact exists_reply (exists_of_contained
      (fun objection => assert_error_iff.mpr ⟨objection, rfl, rfl⟩) (sound.exists_assert willing))
  | assertAll signals =>
    refine exists_reply ?_
    cases objection : signals.findSome? session.circuit.objection? with
    | some error => exact ⟨[], _, _, assertAll_error_iff.mpr ⟨objection, rfl, rfl⟩⟩
    | none =>
      have contained : ∀ signal ∈ signals, session.circuit.numbering.contains signal = true := by
        simpa [Circuit.objection?_eq_none_iff] using objection
      obtain ⟨trace, next, asserted⟩ := sound.exists_assertEach willing contained
      rw [assertAll, forM_check_eq, objection]
      exact ⟨trace, _, next, asserted⟩
  | assume signal =>
    exact exists_reply (exists_of_contained
      (fun objection => assume_error_iff.mpr ⟨objection, rfl, rfl⟩) (sound.exists_assume willing))
  | retract signal =>
    exact exists_reply (exists_of_contained
      (fun objection => retract_error_iff.mpr ⟨objection, rfl, rfl⟩)
      fun contained => ⟨[], exists_retract sound.circuit contained⟩)
  | block signals => exact exists_reply (sound.exists_blocker room)
  | solve =>
    obtain ⟨trace, verdict, next, solved⟩ := sound.exists_solve willing
    exact ⟨trace, _, next, step_solve.mpr ⟨verdict, solved, rfl⟩⟩
  | maxTime bound =>
    obtain ⟨trace, next, returned⟩ := sound.exists_setMaxTime willing bound
    exact ⟨trace, _, next, returns_done.mpr ⟨returned, rfl⟩⟩
  | maxConflicts bound =>
    obtain ⟨trace, next, returned⟩ := sound.exists_setMaxConflicts willing bound
    exact ⟨trace, _, next, returns_done.mpr ⟨returned, rfl⟩⟩

end Sound

/-- A new session is set up. -/
theorem exists_start (willing : Engine.Willing start) (settings : Settings) :
    ∃ opening first, (Session.start start settings).Returns opening first := by
  have none {calls : List Call} {last : ε} (after : Engine.After start calls last)
      (silent : declaredBy calls = 0) : Engine.numVars last ≤ maxVar := by
    rw [willing.numVars_after after, silent]
    exact Nat.zero_le _
  have first : Engine.Accepts start (.threads settings.threads) := trivial
  obtain ⟨threaded, takes⟩ := willing.taken .none first (none .none rfl)
  have second : Engine.Accepts threaded (.maxTime settings.maxTime) := trivial
  obtain ⟨timed, follows⟩ := willing.taken takes.after second (none takes.after rfl)
  have third : Engine.Accepts timed (.maxConflicts settings.maxConflicts) := trivial
  obtain ⟨ready, ends⟩ := willing.taken (takes.after.one follows) third
    (none (takes.after.one follows) rfl)
  cases takes with
  | threads threads =>
    cases follows with
    | maxTime time =>
      cases ends with
      | maxConflicts conflicts =>
        exact ⟨_, _, Outcome.Returns.bind (Call.returns_record.mpr ⟨_, threads, rfl⟩)
          (Outcome.Returns.bind (Call.returns_record.mpr ⟨_, time, rfl⟩)
            (Outcome.Returns.bind (Call.returns_record.mpr ⟨_, conflicts, rfl⟩)
              (Outcome.returns_pure.mpr ⟨rfl, rfl⟩)))⟩

/-! ## What the checks ask for -/

/-- All clauses of gates and all unit clauses of facts fit into the counter of clauses. -/
theorem Run.numClauses_lt {entries : List Entry} {settings : Settings}
    (run : Run start settings entries session)
    (small : session.circuit.numbering.numCircuit ≤ maxVar) :
    session.statistics.cnfClauses < UInt64.size := by
  obtain ⟨calls, sound⟩ := run.sound small
  have count : session.statistics.cnfClauses = (clausesOf calls).length := sound.faithful.count
  have clauses := sound.faithful.clauses.length_eq
  have gates := session.circuit.netlist.length_clauses_le
  have counted := (run.supplies small).numCircuit
  -- Unit clauses are of different asserted signals, and there are only two for each variable.
  have units : session.submitted.length ≤ 2 * session.circuit.numbering.numCircuit + 1 := by
    have distinct : (Facts.of entries).asserted.Nodup :=
      Facts.asserted_of entries ▸ nodup_eraseDups _
    have among := Numbering.length_le_of_contained distinct fun signal member => by
      obtain ⟨_, _, denotes⟩ := exists_of_forall₂ sound.asserted.flip member
      exact Numbering.Denotes.contained denotes
    rw [← sound.asserted.length_eq, asserted, List.length_append] at among
    omega
  simp only [Circuit.blueprint, Array.size_map] at counted
  rw [List.length_append, List.length_map] at clauses
  rw [count, clauses, ← circuit]
  rw [Netlist.size] at gates
  simp only [maxVar] at small
  simp only [UInt64.size]
  omega

/-- Nothing in the session can end in a fault: requests return if there are as many variables as
they take, literals and assumptions can be read, positions of gates are in range, what a walk
reports is stored, and the counters are far from their limits. Values and drawings have no checks
but for those positions. -/
structure Faultless (session : Session ε) : Prop where
  requests {operation : Operation}
    (room : session.circuit.numbering.numCircuit + session.demand operation ≤ maxVar) :
    ∃ trace reply next, (operation.run session).Returns trace (reply, next) ∧
      next.circuit.numbering.numCircuit =
        session.circuit.numbering.numCircuit + session.demand operation
  literals (signal : Signal) : ∃ reply, session.literal? signal = .ok reply ∧
    ∀ literal, reply = .ok (some literal) → literal.proper = true
  assumed : ∃ signals, session.assumedSignals = .ok signals
  definers {var index : Nat} (defined : session.circuit.netlist.definer? var = some index) :
    index < session.circuit.netlist.size
  users {var index : Nat} (listed : index ∈ session.circuit.netlist.dependents var) :
    index < session.circuit.netlist.size
  walks {signal : Signal} (contained : session.circuit.numbering.contains signal = true) :
    ∃ literal middle trace fresh last, session.circuit.literalOf signal = .ok (literal, middle) ∧
      (middle.reach [signal.var]).Returns trace (fresh, last) ∧
      ∀ connective literals, (connective, literals) ∈ fresh →
        ∃ gate ∈ last.netlist.gates, gate.connective = connective ∧
          gate.literals = some literals
  counters : session.statistics.cnfVars ≤ maxVar ∧ session.statistics.cnfClauses < UInt64.size

/-- On an engine that takes proper calls and gives long enough models, a session is set up without a
fault, and no state of a run leads to one, whatever the arguments and the verdicts are. -/
theorem never_faults (willing : Engine.Willing start) (settings : Settings) :
    (∃ opening first, (Session.start start settings).Returns opening first) ∧
    ∀ entries (session : Session ε), Run start settings entries session →
      session.circuit.numbering.numCircuit ≤ maxVar → session.Faultless := by
  refine ⟨exists_start willing settings, fun entries session run small => ?_⟩
  obtain ⟨calls, sound⟩ := run.sound small
  have indexed := sound.circuit.indexed
  refine ⟨fun room => ?_, fun signal => ?_, ⟨_, sound.assumedSignals_eq⟩, fun defined => ?_,
    fun listed => ?_, sound.circuit.exists_walk sound.closed, ?_, run.numClauses_lt small⟩
  · obtain ⟨trace, reply, next, returned⟩ := sound.exists_run willing room
    have step : Step session ⟨_, reply, trace⟩ next := returned
    exact ⟨trace, reply, next, returned, step.numCircuit⟩
  · exact sound.exists_proper signal
  · obtain ⟨gate, present, _⟩ := (indexed.definer _ _).mp defined
    exact Netlist.size_of_getElem? present
  · obtain ⟨gate, present, _⟩ := indexed.mem_dependents_iff.mp listed
    exact Netlist.size_of_getElem? present
  · exact Nat.le_trans sound.circuit.numbering.numCnf_le small

/-- Invalid signals of all kinds between facts about a gate with one variable in both polarities. -/
theorem never_faults_of_misuse : Engine.Willing (BoundedSearch.create true) ∧
    ∃ entries session, Run (BoundedSearch.create true) .standard entries session ∧
      entries.map Entry.operation = [.input, .gate .xor ⟨1⟩ ⟨-1⟩, .gate .and ⟨0⟩ ⟨-2147483648⟩,
        .assert ⟨-2⟩, .assertAll [⟨1⟩, ⟨3⟩], .assume ⟨-2147483648⟩, .assume ⟨-1⟩, .block [⟨1⟩],
        .retract ⟨-5⟩, .maxConflicts 0, .solve, .assert ⟨2⟩] ∧
      (entries.map Entry.reply = [.ok (.signal ⟨1⟩), .ok (.signal ⟨2⟩), .error .zeroVariable,
        .ok .done, .error (.unknownVariable ⟨3⟩), .error (.unknownVariable ⟨-2147483648⟩),
        .ok .done, .error (.notSatisfiable .unknown), .error (.unknownVariable ⟨-5⟩), .ok .done,
        .ok (.verdict .unsatisfiable), .ok .done] ∧
      session.circuit.numbering.numCircuit ≤ maxVar) ∧
      (∃ opening first, (Session.start (BoundedSearch.create true) .standard).Returns opening
        first) ∧ session.Faultless := by
  have willing := BoundedSearch.willing true
  refine ⟨willing, exists_run_of (by decide +kernel) fun entries session run _ found => ?_⟩
  obtain ⟨opens, faultless⟩ := never_faults willing .standard
  exact ⟨opens, faultless entries session run found.2⟩

end Session

end CircuitSat
