import CircuitSat.Engine.Scripted
import CircuitSat.Proofs.Session.Blocking

/-! # What is turned down

A request is turned down exactly if something is wrong with an argument, and for the first thing
that is. Then it leaves the session as it was and shows nothing to the outside; in particular, the
gates of a blocker cannot be turned down once its signals have values.
-/

namespace CircuitSat

/-- What is wrong with a signal: zero names no variable, and others may not be handed out yet. -/
def Circuit.objection? (circuit : Circuit) (signal : Signal) : Option SessionError :=
  if signal.var = 0 then some .zeroVariable
  else if circuit.numbering.numCircuit < signal.var then some (.unknownVariable signal)
  else none

theorem Circuit.objection?_eq_none_iff {circuit : Circuit} {signal : Signal} :
    circuit.objection? signal = none ↔ circuit.numbering.contains signal = true := by
  rw [objection?, Numbering.contains_iff]
  split
  · next zero => simp [zero]
  · split
    · next unknown => simp [unknown]
    · next nonzero known => simp only [true_iff]; omega

namespace Session

variable {ε : Type} {session next : Session ε} {trace : List Event}

/-- What is wrong with a signal whose value is asked for, when the last solve gave the verdict. -/
def valueObjection? (session : Session ε) (verdict : Verdict) (signal : Signal) :
    Option SessionError :=
  session.circuit.objection? signal <|>
    if verdict ≠ .satisfiable then some (.notSatisfiable verdict)
    else if session.valuation.get? signal.var = none then some (.unassigned signal)
    else none

/-- The first thing that is wrong with the arguments of a request. -/
def objection? (session : Session ε) (verdict : Verdict) : Operation → Option SessionError
  | .gate _ left right => [left, right].findSome? session.circuit.objection?
  | .assert signal | .assume signal | .retract signal => session.circuit.objection? signal
  | .assertAll signals => signals.findSome? session.circuit.objection?
  | .block [] => some .noVariables
  | .block signals => signals.findSome? (session.valueObjection? verdict)
  | .input | .solve | .maxTime _ | .maxConflicts _ => none

/-- An objection as an error, and none as consent. -/
def objecting : Option SessionError → Except SessionError Unit
  | some error => .error error
  | none => .ok ()

theorem check_eq (signal : Signal) :
    session.check signal = objecting (session.circuit.objection? signal) := by
  simp only [check, Circuit.check, Circuit.objection?, Signal.isZero_iff]
  split
  · rfl
  · next nonzero =>
    by_cases known : signal.var ≤ session.circuit.numbering.numCircuit
    · rw [if_pos (Numbering.contains_iff.mpr ⟨by omega, known⟩), if_neg (by omega)]
      rfl
    · rw [if_neg fun contained => known (Numbering.contains_iff.mp contained).2,
        if_pos (by omega)]
      rfl

theorem forM_check_eq (signals : List Signal) : signals.forM session.check =
    objecting (signals.findSome? session.circuit.objection?) := by
  induction signals with
  | nil => rfl
  | cons signal rest ih =>
    change (do session.check signal; rest.forM session.check) = _
    rw [check_eq, ih, List.findSome?_cons]
    cases session.circuit.objection? signal <;> rfl

theorem checks_eq (left right : Signal) :
    (do session.check left; session.check right : Except SessionError Unit) =
      objecting ([left, right].findSome? session.circuit.objection?) := by
  rw [check_eq, check_eq, List.findSome?_cons, List.findSome?_cons, List.findSome?_nil]
  cases session.circuit.objection? left with
  | some => rfl
  | none => cases session.circuit.objection? right <;> rfl

/-- A request that is turned down for an objection and else granted. -/
theorem returns_error_iff {α : Type} {objection : Option SessionError}
    {request : Outcome Event (Reply ε α)} {error : SessionError}
    (refused : ∀ {error}, objection = some error → request = pure (.error error, session))
    (granted : objection = none → ∀ {trace reply next}, request.Returns trace (reply, next) →
      ∃ value, reply = .ok value) :
    request.Returns trace (.error error, next) ↔
      objection = some error ∧ trace = [] ∧ next = session := by
  cases objection with
  | none =>
    refine iff_of_false (fun returned => ?_) fun impossible => by cases impossible.1
    obtain ⟨_, same⟩ := granted rfl returned
    contradiction
  | some other =>
    rw [refused rfl, Outcome.returns_pure, Prod.mk.injEq, Except.error.injEq, Option.some.injEq]
    constructor
    · rintro ⟨rfl, rfl, rfl⟩
      exact ⟨rfl, rfl, rfl⟩
    · rintro ⟨rfl, rfl, rfl⟩
      exact ⟨rfl, rfl, rfl⟩

/-! ## Values -/

theorem check_of_none {signal : Signal} (none : session.circuit.objection? signal = none) :
    session.check signal = .ok () := by
  rw [check_eq, none]
  rfl

/-- A value is given, or there is an objection. -/
theorem value_spec (signal : Signal) :
    (∃ error, session.valueObjection? session.verdict signal = some error ∧
      session.value signal = .error error) ∨
    session.valueObjection? session.verdict signal = none ∧
      session.circuit.numbering.contains signal = true ∧
      ∃ value, session.value signal = .ok value := by
  unfold valueObjection? value
  cases known : session.circuit.objection? signal with
  | some error =>
    rw [check_eq, known]
    exact .inl ⟨error, rfl, rfl⟩
  | none =>
    rw [check_of_none known]
    have contained := Circuit.objection?_eq_none_iff.mp known
    by_cases sat : session.verdict = .satisfiable
    · have isSat : session.verdict.isSat = true := by rw [sat]; rfl
      simp only [sat, Valuation.value?]
      cases session.valuation.get? signal.var with
      | none => exact .inl ⟨.unassigned signal, rfl, rfl⟩
      | some value => exact .inr ⟨rfl, contained, _, rfl⟩
    · have unsat : session.verdict.isSat = false := decide_eq_false sat
      simp only [unsat, Bool.false_eq_true, if_false]
      exact .inl ⟨.notSatisfiable session.verdict, by rw [if_pos sat]; rfl, rfl⟩

theorem value_error_iff {signal : Signal} {error : SessionError} :
    session.value signal = .error error ↔
      session.valueObjection? session.verdict signal = some error := by
  rcases session.value_spec signal with ⟨other, objection, failed⟩ | ⟨none, _, value, valued⟩
  · rw [objection, failed, Except.error.injEq, Option.some.injEq]
  · rw [none, valued]
    exact iff_of_false nofun nofun

/-- Signals with values are opposed; the first without one is objected to. -/
theorem differing_spec (small : session.circuit.numbering.numCircuit ≤ maxVar)
    (signals : List Signal) :
    (∃ error, signals.findSome? (session.valueObjection? session.verdict) = some error ∧
      session.differing signals = .ok (.error error)) ∨
    signals.findSome? (session.valueObjection? session.verdict) = none ∧
      ∃ opposed, session.differing signals = .ok (.ok opposed) ∧
        ∀ signal ∈ opposed, session.circuit.numbering.contains signal = true := by
  induction signals with
  | nil => exact .inr ⟨rfl, [], rfl, List.forall_mem_nil _⟩
  | cons signal rest ih =>
    rw [List.findSome?_cons]
    rcases session.value_spec signal with ⟨error, objection, failed⟩ |
      ⟨none, contained, value, valued⟩
    · rw [objection, differing, failed]
      exact .inl ⟨error, rfl, rfl⟩
    · have range := Numbering.contains_iff.mp contained
      obtain ⟨opponent, same, _, opposes⟩ :=
        exists_opponent valued (by omega) (Nat.le_trans range.2 small)
      have inside : session.circuit.numbering.contains opponent = true := by
        rwa [Numbering.contains_iff, same]
      rw [none, opposes]
      rcases ih with ⟨error, objection, failed⟩ | ⟨none, opposed, found, among⟩
      · rw [failed]
        exact .inl ⟨error, objection, rfl⟩
      · rw [found]
        exact .inr ⟨none, opponent :: opposed, rfl, List.forall_mem_cons.mpr ⟨inside, among⟩⟩

theorem literal?_error_iff {signal : Signal} {error : SessionError} :
    session.literal? signal = .ok (.error error) ↔
      session.circuit.objection? signal = some error := by
  rw [literal?]
  cases objection : session.circuit.objection? signal with
  | some other =>
    rw [check_eq, objection]
    simp [objecting]
  | none =>
    rw [check_of_none objection]
    cases session.circuit.numbering.lookup signal <;> simp

/-! ## Gates -/

/-- A request for a gate over valid signals gives the output of a gate, or ends in a fault. -/
theorem addGate_granted (valid : session.circuit.WellFormed) {connective : Connective}
    {left right : Signal} {reply : Except SessionError Signal}
    (contained : session.circuit.numbering.contains left = true ∧
      session.circuit.numbering.contains right = true)
    (returned : (session.addGate connective left right).Returns trace (reply, next)) :
    next.circuit.WellFormed ∧ session.circuit.Grows next.circuit ∧
      ∃ output, reply = .ok output ∧ next.circuit.numbering.contains output = true := by
  cases found : session.gateOf? (.of left connective right) with
  | some gate =>
    obtain ⟨_, rfl, rfl⟩ := (addGate_returns_of_some contained found).mp returned
    obtain ⟨built, _⟩ := (gateOf?_eq_some_iff valid).mp found
    exact ⟨valid, .refl _, gate.output, rfl, (valid.wired built).contains_output⟩
  | none =>
    obtain ⟨output, _, rfl, inserted⟩ := (addGate_returns_of_none contained found).mp returned
    have room := insertGate_room valid.small inserted
    have taken := insertGate_numCircuit inserted
    obtain ⟨circuit, adds, rfl⟩ :=
      insertGate_adds valid (by omega) contained found inserted
    exact ⟨adds.wellFormed, adds.grows, output, rfl,
      (adds.wellFormed.wired (adds.mem_iff.mpr (.inr rfl))).contains_output⟩

/-- No gate of a disjunction is turned down. -/
theorem disjoin_granted (valid : session.circuit.WellFormed) {signal : Signal}
    {rest : List Signal} (here : session.circuit.numbering.contains signal = true)
    (others : ∀ other ∈ rest, session.circuit.numbering.contains other = true)
    {reply : Except SessionError Signal}
    (returned : (session.disjoin signal rest).Returns trace (reply, next)) :
    ∃ output, reply = .ok output := by
  induction rest generalizing session signal trace with
  | nil => exact ⟨signal, (Prod.mk.inj (Outcome.returns_pure.mp returned).2).1⟩
  | cons head rest ih =>
    obtain ⟨there, later⟩ := List.forall_mem_cons.mp others
    rcases andThen_returns_iff.mp returned with ⟨error, refused, _⟩ |
      ⟨_, _, middle, _, first, continued, _⟩
    · obtain ⟨_, _, _, same, _⟩ := addGate_granted valid ⟨here, there⟩ refused
      contradiction
    · obtain ⟨grown, grows, output, same, contained⟩ := addGate_granted valid ⟨here, there⟩ first
      cases same
      exact ih grown contained (fun other member => grows.contains (later other member)) continued

/-! ## Requests -/

theorem addGate_error_iff (valid : session.circuit.WellFormed) {connective : Connective}
    {left right : Signal} {error : SessionError} :
    (session.addGate connective left right).Returns trace (.error error, next) ↔
      [left, right].findSome? session.circuit.objection? = some error ∧ trace = [] ∧
        next = session := by
  refine returns_error_iff (fun objection => ?_) fun none _ _ _ returned => ?_
  · simp only [addGate, checks_eq, objection]
    rfl
  · have contained : session.circuit.numbering.contains left = true ∧
        session.circuit.numbering.contains right = true := by
      simpa [Circuit.objection?_eq_none_iff] using none
    obtain ⟨_, _, output, same, _⟩ := addGate_granted valid contained returned
    exact ⟨output, same⟩

/-- A request that is about one signal and fails only if its check does. -/
theorem checked_error_iff {request : Outcome Event (Reply ε Unit)} {signal : Signal}
    {error : SessionError} (refused : ∀ {error}, session.check signal = .error error →
      request = pure (.error error, session))
    (granted : ∀ {trace reply next}, request.Returns trace (reply, next) →
      session.circuit.numbering.contains signal = false ∨ reply = .ok ()) :
    request.Returns trace (.error error, next) ↔
      session.circuit.objection? signal = some error ∧ trace = [] ∧ next = session := by
  refine returns_error_iff (fun objection => refused ?_) fun none _ _ _ returned => ?_
  · rw [check_eq, objection]
    rfl
  · rcases granted returned with invalid | same
    · rw [Circuit.objection?_eq_none_iff.mp none] at invalid
      contradiction
    · exact ⟨(), same⟩

theorem retract_error_iff {signal : Signal} {error : SessionError} :
    (session.retract signal).Returns trace (.error error, next) ↔
      session.circuit.objection? signal = some error ∧ trace = [] ∧ next = session :=
  checked_error_iff (fun failed => by rw [retract, failed]) fun returned =>
    (retract_returns returned).2.imp And.left fun granted => granted.2.1

theorem blocker_error_iff (valid : session.circuit.WellFormed) {signals : List Signal}
    {error : SessionError} : (session.blocker signals).Returns trace (.error error, next) ↔
      session.objection? session.verdict (.block signals) = some error ∧ trace = [] ∧
        next = session := by
  cases signals with
  | nil =>
    refine returns_error_iff (fun objection => ?_) fun none => ?_
    · cases objection
      rfl
    · contradiction
  | cons signal rest =>
    have spec := session.differing_spec valid.small (signal :: rest)
    refine returns_error_iff (fun objection => ?_) fun none _ _ _ returned => ?_
    · obtain ⟨other, first, found⟩ | ⟨none, _⟩ := spec
      · cases first.symm.trans objection
        rw [blocker, found]
        rfl
      · cases none.symm.trans objection
    · obtain ⟨_, first, _⟩ | ⟨_, opposed, found, inside⟩ := spec
      · cases first.symm.trans none
      · have vars := differing_vars found
        simp only [blocker, found, Outcome.returns_bind, Outcome.returns_lift] at returned
        obtain ⟨_, _, _, ⟨_, same⟩, continued, _⟩ := returned
        cases same
        rcases opposed with _ | ⟨head, others⟩
        · contradiction
        · obtain ⟨here, later⟩ := List.forall_mem_cons.mp inside
          exact disjoin_granted valid here later continued

variable [Engine ε]

theorem assert_error_iff {signal : Signal} {error : SessionError} :
    (session.assert signal).Returns trace (.error error, next) ↔
      session.circuit.objection? signal = some error ∧ trace = [] ∧ next = session :=
  checked_error_iff (fun failed => by rw [assert, failed]) fun returned =>
    (assert_returns returned).imp And.left fun granted => granted.2.1

theorem assume_error_iff {signal : Signal} {error : SessionError} :
    (session.assume signal).Returns trace (.error error, next) ↔
      session.circuit.objection? signal = some error ∧ trace = [] ∧ next = session :=
  checked_error_iff (fun failed => by rw [assume, failed]) fun returned =>
    (assume_returns returned).imp And.left fun granted => granted.2.1

theorem assertAll_error_iff {signals : List Signal} {error : SessionError} :
    (session.assertAll signals).Returns trace (.error error, next) ↔
      signals.findSome? session.circuit.objection? = some error ∧ trace = [] ∧
        next = session := by
  refine returns_error_iff (fun objection => ?_) fun none _ _ _ returned => ?_
  · rw [assertAll, forM_check_eq, objection]
    rfl
  · have contained : ∀ signal ∈ signals, session.circuit.numbering.contains signal = true := by
      simpa [Circuit.objection?_eq_none_iff] using none
    rw [assertAll, forM_check_eq, none] at returned
    exact ⟨(), (exists_path_assertEach contained returned).1⟩

omit [Engine ε] in
theorem returns_reply_error {α : Type} {request : Outcome Event (Reply ε α)} {view : α → Answer}
    {error : SessionError} :
    (do
      let (reply, session) ← request
      return (reply.map view, session) : Outcome Event (Reply ε Answer)).Returns
        trace (.error error, next) ↔ request.Returns trace (.error error, next) := by
  rw [returns_reply (Except.map view)]
  constructor
  · rintro ⟨_ | _, returned, same⟩
    · cases same
      exact returned
    · contradiction
  · intro returned
    exact ⟨_, returned, rfl⟩

/-- A request is turned down exactly for the first objection to it, and nothing comes of it. -/
theorem run_error_iff (valid : session.circuit.WellFormed) {operation : Operation}
    {error : SessionError} : (operation.run session).Returns trace (.error error, next) ↔
      session.objection? session.verdict operation = some error ∧ trace = [] ∧
        next = session := by
  -- A request without an objection to it must not be turned down.
  have never {request : Outcome Event (Reply ε Answer)} {operation : Operation}
      (other : session.objection? session.verdict operation = none)
      (granted : ∀ {reply : Except SessionError Answer}, request.Returns trace (reply, next) →
        ∃ answer, reply = .ok answer) : request.Returns trace (.error error, next) ↔
      session.objection? session.verdict operation = some error ∧ trace = [] ∧
        next = session := by
    rw [other]
    refine iff_of_false (fun returned => ?_) (by simp)
    obtain ⟨_, same⟩ := granted returned
    contradiction
  cases operation with
  | gate => exact returns_reply_error.trans (addGate_error_iff valid)
  | assert => exact returns_reply_error.trans assert_error_iff
  | assertAll => exact returns_reply_error.trans assertAll_error_iff
  | assume => exact returns_reply_error.trans assume_error_iff
  | retract => exact returns_reply_error.trans retract_error_iff
  | block => exact returns_reply_error.trans (blocker_error_iff valid)
  | input =>
    refine never rfl fun returned => ?_
    obtain ⟨_, _, same⟩ := step_input.mp returned
    exact ⟨_, same⟩
  | solve =>
    refine never rfl fun returned => ?_
    obtain ⟨_, _, same⟩ := step_solve.mp returned
    exact ⟨_, same⟩
  | maxTime => exact never rfl fun returned => ⟨_, (returns_done.mp returned).2⟩
  | maxConflicts => exact never rfl fun returned => ⟨_, (returns_done.mp returned).2⟩

/-! ## Runs -/

omit [Engine ε] in
theorem lastVerdict_concat (front : List Entry) (entry : Entry) :
    lastVerdict (front ++ [entry]) = entry.verdict?.getD (lastVerdict front) := by
  rw [lastVerdict, List.filterMap_append]
  cases given : entry.verdict? with
  | none => simp [given, lastVerdict]
  | some verdict => simp [given]

/-- The verdict changes with solves alone. -/
theorem Sound.verdict_step {start : ε} {calls : List Call} {facts : Facts}
    (sound : session.Sound start calls facts) {entry : Entry}
    (plain : entry.operation.isPlain = true)
    (small : next.circuit.numbering.numCircuit ≤ maxVar) (step : Step session entry next) :
    next.verdict = entry.verdict?.getD session.verdict := by
  cases step.effect sound.circuit plain small with
  | @refused operation => cases operation <;> rfl
  | solved returned =>
    obtain ⟨_, _, _, _, _, _, _, _, _, _, _, _, same, _⟩ := solve_returns returned
    exact same.symm
  | _ => rfl

theorem Run.verdict {engine : ε} {settings : Settings} {entries : List Entry}
    (run : Run engine settings entries session)
    (small : session.circuit.numbering.numCircuit ≤ maxVar) :
    session.verdict = lastVerdict entries := by
  obtain ⟨details, same, verdict⟩ := run.plain_induction small
    (motive := fun front session => session.verdict = lastVerdict front)
    (fun started => by
      obtain ⟨_, _, _, rfl⟩ := start_returns started
      rfl)
    fun sound plain small step verdict => by
      rw [lastVerdict_concat, ← verdict, sound.verdict_step plain small step]
  rwa [lastVerdict, same.verdicts] at verdict

/-- What a session turns down when the last solve gave the verdict, and what becomes of it then. A
list of assertions is refused as a whole, and a blocker before its first gate. -/
structure RefusesJust (session : Session ε) (verdict : Verdict) : Prop where
  requests {operation : Operation} {trace : List Event} {error : SessionError}
    {next : Session ε} : (operation.run session).Returns trace (.error error, next) ↔
      session.objection? verdict operation = some error ∧ trace = [] ∧ next = session
  literals {signal : Signal} {error : SessionError} :
    session.literal? signal = .ok (.error error) ↔
      session.circuit.objection? signal = some error
  values {signal : Signal} {error : SessionError} : session.value signal = .error error ↔
    session.valueObjection? verdict signal = some error
  together {signals : List Signal} {signal : Signal} (member : signal ∈ signals)
    (invalid : session.circuit.numbering.contains signal = false) :
    ∃ error, session.assertAll signals = pure (.error error, session)
  afterGate {signals : List Signal} {trace : List Event} {reply : Except SessionError Signal}
    {next : Session ε} (returned : (session.blocker signals).Returns trace (reply, next))
    (built : trace.filterMap Event.grant? ≠ []) : ∃ output, reply = .ok output

/-- In every state of a run, whatever the engine does, requests are turned down exactly when
something is wrong with them, and then nothing comes of them. -/
theorem refusal_exact {engine : ε} {settings : Settings} {entries : List Entry}
    (run : Run engine settings entries session)
    (small : session.circuit.numbering.numCircuit ≤ maxVar) :
    session.RefusesJust (lastVerdict entries) := by
  obtain ⟨calls, sound⟩ := run.sound small
  rw [← run.verdict small]
  refine ⟨run_error_iff sound.circuit, literal?_error_iff, value_error_iff,
    fun {signals signal} member invalid => ?_, fun {signals trace reply next} returned built => ?_⟩
  · cases objection : signals.findSome? session.circuit.objection? with
    | none =>
      have none := List.findSome?_eq_none_iff.mp objection signal member
      rw [Circuit.objection?_eq_none_iff.mp none] at invalid
      contradiction
    | some error => exact ⟨error, assertAll_error_iff.mpr ⟨objection, rfl, rfl⟩⟩
  · cases reply with
    | ok output => exact ⟨output, rfl⟩
    | error error =>
      obtain ⟨_, rfl, _⟩ := (blocker_error_iff sound.circuit).mp returned
      contradiction

/-- After a satisfiable solve, and with an input more, which has no value. -/
theorem refusal_exact_of_input : ∃ entries session,
    Run (Scripted.create [.claim [true, true, true]]) .standard entries session ∧
    entries.map Entry.operation = [.input, .input, .gate .and ⟨1⟩ ⟨-2⟩, .assert ⟨3⟩, .assert ⟨4⟩,
      .solve, .input] ∧
    (session.circuit.numbering.numCircuit ≤ maxVar ∧
      [.gate .or ⟨0⟩ ⟨9⟩, .gate .or ⟨4⟩ ⟨-9⟩, .assert ⟨-2147483648⟩, .assertAll [⟨1⟩, ⟨5⟩, ⟨0⟩],
        .block [⟨1⟩, ⟨-4⟩, ⟨0⟩], .block [⟨-1⟩, ⟨3⟩], .block []].map
          (session.objection? (lastVerdict entries)) =
        [some .zeroVariable, some (.unknownVariable ⟨-9⟩), some (.unknownVariable ⟨-2147483648⟩),
          some (.unknownVariable ⟨5⟩), some (.unassigned ⟨-4⟩), none, some .noVariables]) ∧
    session.RefusesJust (lastVerdict entries) := by
  refine exists_run_of (by decide +kernel) fun entries session run _ found => ?_
  exact refusal_exact run found.1

end Session

end CircuitSat
