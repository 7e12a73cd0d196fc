import CircuitSat.Proofs.Session.Effect
import CircuitSat.Proofs.Session.Invariant
import Mathlib.Data.List.Induction

/-! # Solves and whole runs

A solve hands over what waits, finds the assumptions covered, and asks the engine. The invariant
lasts through every run, and an engine that takes proper calls lets every solve return.
-/

namespace CircuitSat

open List (Forall₂)

namespace Session

variable {ε : Type} [Engine ε]

/-- What a solve with this answer tells the engine, and what becomes of each part of the session. -/
structure Consults (session : Session ε) (answer : Except Failure Bool) (trace : List Event)
    (next : Session ε) : Prop where
  calls : callsOf trace = session.pending.map (fun literal => .clause [literal]) ++
    .solve session.assumptions :: callsAfter answer
  engine : Engine.After session.encoding.engine (callsOf trace) next.encoding.engine
  answered : ∃ moment entries last,
    Engine.After session.encoding.engine
      (session.pending.map fun literal => .clause [literal]) moment ∧
    (Engine.solve moment session.assumptions).Returns entries (answer, last)
  /-- The walk over the assumptions comes back to where it started. -/
  walked : ∃ units handed walk, session.submitPending.Returns units handed ∧
    (handed.assumptions.foldlM coverAssumption handed).Returns walk handed ∧ callsOf walk = []
  circuit : next.circuit = session.circuit
  numClauses : next.encoding.numClauses = session.encoding.numClauses + session.pending.length
  settings : next.settings = session.settings
  asserted : next.asserted = session.asserted
  pending : next.pending = []
  assumptions : next.assumptions = session.assumptions
  verdict : next.verdict = verdictOf answer
  cause : next.cause = causeOf answer
  valuation (other : answer ≠ .ok true) : next.valuation = session.valuation

namespace Sound

variable {start : ε} {calls : List Call} {facts : Facts} {session next : Session ε}
  {trace : List Event}

theorem exists_asserted (sound : session.Sound start calls facts) {literal : Literal}
    (member : literal ∈ session.asserted) :
    ∃ signal ∈ facts.asserted, session.circuit.numbering.Denotes literal signal :=
  exists_of_forall₂ sound.asserted member

theorem exists_assumed (sound : session.Sound start calls facts) {literal : Literal}
    (member : literal ∈ session.assumptions) :
    ∃ signal ∈ facts.assumed, session.circuit.numbering.Denotes literal signal :=
  exists_of_forall₂ sound.assumed member

/-- Every clause is over declared variables. -/
theorem declares (sound : session.Sound start calls facts) (counting : Engine.Counting start) :
    ∀ clause ∈ clausesOf calls, Engine.Declares session.encoding.engine clause := by
  refine sound.faithful.declares counting sound.circuit fun literal member => ?_
  obtain ⟨signal, _, denotes⟩ := sound.exists_asserted (List.mem_append_left _ member)
  exact ⟨signal, denotes⟩

/-- Literals of signals are over declared variables. -/
theorem declares_of_denotes (sound : session.Sound start calls facts)
    (counting : Engine.Counting start) {literals : List Literal}
    (denoted : ∀ literal ∈ literals, ∃ signal, session.circuit.numbering.Denotes literal signal) :
    Engine.Declares session.encoding.engine literals := by
  intro literal member
  obtain ⟨signal, denotes⟩ := denoted literal member
  have numVars : Engine.numVars session.encoding.engine = session.circuit.numbering.numCnf :=
    sound.faithful.counted counting
  rw [numVars]
  exact denotes.proper sound.circuit.numbering sound.circuit.small

theorem declares_assumptions (sound : session.Sound start calls facts)
    (counting : Engine.Counting start) :
    Engine.Declares session.encoding.engine session.assumptions :=
  sound.declares_of_denotes counting fun _ member =>
    (sound.exists_assumed member).imp fun _ found => found.2

/-- No more variables are declared than there are words for. -/
theorem few_declared (sound : session.Sound start calls facts)
    (counting : Engine.Counting start) : Engine.numVars session.encoding.engine ≤ maxVar := by
  have numVars : Engine.numVars session.encoding.engine = session.circuit.numbering.numCnf :=
    sound.faithful.counted counting
  rw [numVars]
  exact Nat.le_trans sound.circuit.numbering.numCnf_le sound.circuit.small

/-! ## Before the engine is asked -/

theorem submitPending (sound : session.Sound start calls facts) {encoding : Encoding ε}
    (returned : (session.encoding.submitAll (session.pending.map ([·]))).Returns trace encoding) :
    ({ session with encoding, submitted := session.asserted, pending := [] } : Session ε).Sound
      start (calls ++ callsOf trace) facts ∧ encoding.circuit = session.circuit := by
  have same : encoding.circuit = session.circuit := (Encoding.submitAll_returns returned).2.2.1
  have faithful := sound.faithful.submitUnits returned
  refine ⟨⟨?_, ?_, faithful, ?_, ?_⟩, same⟩
  · change encoding.circuit.WellFormed
    exact same ▸ sound.circuit
  · change encoding.circuit.Closed []
    exact same ▸ sound.closed
  · change Forall₂ encoding.circuit.numbering.Denotes (session.asserted ++ []) facts.asserted
    rw [same, List.append_nil]
    exact sound.asserted
  · change Forall₂ encoding.circuit.numbering.Denotes session.assumptions facts.assumed
    exact same ▸ sound.assumed

/-- An assumption is traced back to a signal that has a literal. -/
theorem exists_origin (sound : session.Sound start calls facts) {literal : Literal}
    {signal : Signal} (denotes : session.circuit.numbering.Denotes literal signal) :
    ∃ origin positive, session.circuit.numbering.originOf? literal.var = some origin ∧
      session.circuit.numbering.Denotes positive origin := by
  have range := Numbering.bound_of_image? denotes.1
  have positive := sound.circuit.numbering.image_bound denotes.1
  have fewer := sound.circuit.numbering.numCnf_le
  have small := sound.circuit.small
  refine ⟨.ofVar signal.var, .ofVar literal.var, ?_, ?_, ?_⟩
  · exact Numbering.originOf?_of_denotes sound.circuit.numbering denotes
  · rw [Signal.var_ofVar (by omega), Literal.var_ofVar (by omega)]
    exact denotes.1
  · rw [Literal.negative_ofVar (by omega), Signal.negated_ofVar (by omega)]

/-- Below a signal that has a literal the circuit holds all gates already, whatever the engine knows
of them. -/
theorem cover (sound : session.Sound start calls facts) {literal : Literal} {signal : Signal}
    (denotes : session.circuit.numbering.Denotes literal signal)
    (returned : (session.cover signal).Returns trace next) :
    next.Sound start (calls ++ callsOf trace) facts ∧ next.circuit = session.circuit ∧
      next = { session with encoding := next.encoding } ∧ solvesOf (callsOf trace) = 0 := by
  obtain ⟨count, encoding, covered, rfl⟩ := cover_returns returned
  have closed : session.circuit.Closed [signal.var] := sound.closed.mono (by simp)
  obtain ⟨_, covers, _, faithful⟩ :=
    sound.faithful.cover sound.circuit closed denotes.contained covered
  have image {var image : Nat} (mapped : session.circuit.numbering.image? var = some image) :
      encoding.circuit.numbering.image? var = some image := covers.encodes.numbering.image mapped
  have same : encoding.circuit = session.circuit :=
    Encoding.cover_circuit_of_denotes sound.circuit sound.closed denotes covered
  refine ⟨⟨covers.wellFormed, covers.closed, faithful, ?_, ?_⟩, same, rfl, ?_⟩
  · exact Numbering.forall₂_mono image sound.asserted
  · exact Numbering.forall₂_mono image sound.assumed
  · exact Encoding.cover_solves sound.circuit closed denotes.contained covered

/-- Going through the assumptions numbers nothing, puts no gate into clauses and asks for no
verdict. -/
theorem coverAssumptions (sound : session.Sound start calls facts) {literals : List Literal}
    (denoted : ∀ literal ∈ literals, ∃ signal, session.circuit.numbering.Denotes literal signal)
    (returned : (literals.foldlM coverAssumption session).Returns trace next) :
    next.Sound start (calls ++ callsOf trace) facts ∧ next.circuit = session.circuit ∧
      next = { session with encoding := next.encoding } ∧ solvesOf (callsOf trace) = 0 := by
  induction literals generalizing session calls trace with
  | nil =>
    obtain ⟨rfl, rfl⟩ := Outcome.returns_pure.mp returned
    rw [callsOf_nil, List.append_nil]
    exact ⟨sound, rfl, rfl, rfl⟩
  | cons literal rest ih =>
    rw [List.foldlM_cons, Outcome.returns_bind] at returned
    obtain ⟨before, middle, after, first, later, rfl⟩ := returned
    obtain ⟨⟨signal, denotes⟩, others⟩ := List.forall_mem_cons.mp denoted
    obtain ⟨origin, _, traced, found⟩ := sound.exists_origin denotes
    simp only [coverAssumption, traced] at first
    obtain ⟨covered, circuit, same, silent⟩ := sound.cover found first
    rw [← circuit] at others
    obtain ⟨done, kept, unchanged, quiet⟩ := ih covered others later
    rw [callsOf_append, ← List.append_assoc, solvesOf_append, silent, quiet]
    refine ⟨done, kept.trans circuit, ?_, rfl⟩
    rw [same] at unchanged
    exact unchanged

/-- For a counting engine there is nothing to be covered below a signal that has a literal. -/
theorem cover_idle (sound : session.Sound start calls facts) (counting : Engine.Counting start)
    {literal : Literal} {signal : Signal}
    (denotes : session.circuit.numbering.Denotes literal signal)
    (returned : (session.cover signal).Returns trace next) :
    callsOf trace = [] ∧ next = session := by
  obtain ⟨count, encoding, covered, rfl⟩ := cover_returns returned
  have idle := Encoding.cover_of_denotes sound.circuit sound.closed denotes
    (sound.faithful.counted counting)
  obtain ⟨rfl, same⟩ := covered.unique idle
  cases same
  exact ⟨rfl, rfl⟩

theorem coverAssumptions_idle (sound : session.Sound start calls facts)
    (counting : Engine.Counting start) {literals : List Literal}
    (denoted : ∀ literal ∈ literals, ∃ signal, session.circuit.numbering.Denotes literal signal)
    (returned : (literals.foldlM coverAssumption session).Returns trace next) :
    callsOf trace = [] ∧ next = session := by
  induction literals generalizing trace with
  | nil =>
    obtain ⟨rfl, rfl⟩ := Outcome.returns_pure.mp returned
    exact ⟨rfl, rfl⟩
  | cons literal rest ih =>
    rw [List.foldlM_cons, Outcome.returns_bind] at returned
    obtain ⟨before, middle, after, first, later, rfl⟩ := returned
    obtain ⟨⟨signal, denotes⟩, others⟩ := List.forall_mem_cons.mp denoted
    obtain ⟨origin, _, traced, found⟩ := sound.exists_origin denotes
    simp only [coverAssumption, traced] at first
    obtain ⟨quiet, rfl⟩ := sound.cover_idle counting found first
    obtain ⟨silent, rfl⟩ := ih others later
    exact ⟨by rw [callsOf_append, quiet, silent]; rfl, rfl⟩

/-- A solve numbers nothing and puts no gate into clauses. -/
theorem solve_circuit (sound : session.Sound start calls facts) {verdict : Verdict}
    (returned : session.solve.Returns trace (verdict, next)) : next.circuit = session.circuit := by
  obtain ⟨_, encoding, _, covered, _, _, _, _, submitted, walked, _, concluded, _⟩ :=
    solve_returns returned
  obtain ⟨handed, same⟩ := sound.submitPending submitted
  obtain ⟨_, walk, _⟩ := handed.coverAssumptions (fun literal member =>
    (handed.exists_assumed member).imp fun _ found => found.2) walked
  rw [Session.circuit, conclude_circuit concluded]
  exact walk.trans same

/-- When the engine is asked, nothing waits, and at most some gates have been put into clauses. -/
theorem solve_asks (sound : session.Sound start calls facts) {verdict : Verdict}
    (returned : session.solve.Returns trace (verdict, next)) :
    ∃ (before : List Call) (covered : Session ε) (entries : List LogEntry)
        (answer : Except Failure Bool) (engine : ε) (after : List Event),
      covered.Sound start (calls ++ before) facts ∧ session.circuit.Encodes covered.circuit ∧
      covered = { session with
        encoding := covered.encoding, submitted := session.asserted, pending := [] } ∧
      (Engine.solve covered.encoding.engine covered.assumptions).Returns entries
        (answer, engine) ∧
      (({ covered with encoding.engine := engine } : Session ε).conclude answer).Returns
        after next ∧
      verdict = next.verdict ∧
      callsOf trace = before ++ .solve covered.assumptions :: callsOf after := by
  obtain ⟨first, encoding, second, covered, entries, answer, engine, third, submitted, walked,
    solved, concluded, rfl, made⟩ := solve_returns returned
  obtain ⟨handed, same⟩ := sound.submitPending submitted
  obtain ⟨done, walk, unchanged, _⟩ := handed.coverAssumptions (fun literal member =>
    (handed.exists_assumed member).imp fun _ found => found.2) walked
  refine ⟨callsOf first ++ callsOf second, covered, entries, answer, engine, third, ?_, ?_,
    unchanged, solved, concluded, rfl, made⟩
  · rw [← List.append_assoc]
    exact done
  · rw [walk.trans same]
    exact .refl _

theorem solve (sound : session.Sound start calls facts) {verdict : Verdict}
    (returned : session.solve.Returns trace (verdict, next)) :
    next.Sound start (calls ++ callsOf trace) facts ∧ session.circuit.Encodes next.circuit := by
  obtain ⟨before, covered, entries, answer, engine, after, asked, encodes, _, solved, concluded, _,
    made⟩ := sound.solve_asks returned
  have answered := (Engine.Takes.solve solved).after
  rw [made, ← List.append_assoc]
  rcases conclude_returns concluded with ⟨_, shown, _, _, _, _, reply, _, rfl⟩ | ⟨_, silent, rfl⟩ |
    ⟨_, _, silent, rfl⟩
  · rw [shown]
    exact ⟨⟨asked.circuit, asked.closed,
      asked.faithful.idle (answered.one (.model reply)) rfl (by simp), asked.asserted,
      asked.assumed⟩, encodes⟩
  · rw [silent]
    exact ⟨⟨asked.circuit, asked.closed, asked.faithful.idle answered rfl (by simp),
      asked.asserted, asked.assumed⟩, encodes⟩
  · rw [silent]
    exact ⟨⟨asked.circuit, asked.closed, asked.faithful.idle answered rfl (by simp),
      asked.asserted, asked.assumed⟩, encodes⟩

/-- A counting engine hears of the waiting unit clauses, of the question, and of nothing else unless
it is asked for a model. -/
theorem consults (sound : session.Sound start calls facts)
    (counting : Engine.Counting start) {verdict : Verdict}
    (returned : session.solve.Returns trace (verdict, next)) :
    ∃ answer, verdict = verdictOf answer ∧ session.Consults answer trace next := by
  obtain ⟨first, encoding, second, covered, entries, answer, engine, third, submitted, walk,
    solved, concluded, reported, made⟩ := solve_returns returned
  obtain ⟨handed, same⟩ := sound.submitPending submitted
  have denoted (literal : Literal) (member : literal ∈ session.assumptions) :=
    (handed.exists_assumed member).imp fun _ found => found.2
  -- The walk is over the session as it is after the unit clauses, and these number no variable.
  obtain ⟨silent, rfl⟩ := handed.coverAssumptions_idle counting denoted walk
  obtain ⟨units, before, _, count⟩ := Encoding.submitAll_returns submitted
  obtain ⟨shown, after, kept, values⟩ := conclude_keeps concluded
  rw [List.map_map] at units before
  rw [units, silent, List.append_nil, shown] at made
  have waiting := returns_submitPending submitted
  have asked : Engine.After session.encoding.engine (callsOf trace) next.encoding.engine := by
    rw [made, ← shown, ← List.singleton_append]
    exact before.append ((Engine.Takes.solve solved).after.append after)
  refine ⟨answer, reported.trans (congrArg Session.verdict kept), ?_⟩
  exact {
    calls := made
    engine := asked
    answered := ⟨_, _, _, before, solved⟩
    walked := ⟨_, _, _, waiting, walk, silent⟩
    circuit := by rw [kept]; exact same
    numClauses := by rw [kept]; rwa [List.length_map] at count
    settings := by rw [kept]
    asserted := by rw [kept]; exact List.append_nil _
    pending := by rw [kept]
    assumptions := by rw [kept]
    verdict := by rw [kept]
    cause := by rw [kept]
    valuation := values }

theorem solve_solves (sound : session.Sound start calls facts) (counting : Engine.Counting start)
    {verdict : Verdict} (returned : session.solve.Returns trace (verdict, next)) :
    solvesOf (callsOf trace) = 1 := by
  have units (literals : List Literal) :
      solvesOf (literals.map fun literal => .clause [literal]) = 0 := by
    have none := solvesOf_map_clause (literals.map ([·]))
    rwa [List.map_map] at none
  obtain ⟨answer, _, consults⟩ := sound.consults counting returned
  have last : solvesOf (.solve session.assumptions :: callsAfter answer) = 1 := by
    rw [solvesOf, List.countP_cons_of_pos rfl]
    exact congrArg (· + 1) (solvesOf_callsAfter answer)
  rw [consults.calls, solvesOf_append, units, last]

theorem assert_solves (sound : session.Sound start calls facts) {signal : Signal}
    {reply : Except SessionError Unit}
    (returned : (session.assert signal).Returns trace (reply, next)) :
    solvesOf (callsOf trace) = 0 := by
  rcases assert_returns returned with ⟨_, _, _, rfl⟩ |
    ⟨contained, _, _, covered, _, mentions, made, _⟩
  · rfl
  · rw [made]
    exact mentions.solves sound.circuit sound.closed contained

/-! ## A willing engine -/

/-- An engine that takes proper calls lets every valid signal be asserted. -/
theorem exists_assert (sound : session.Sound start calls facts) (willing : Engine.Willing start)
    {signal : Signal} (contained : session.circuit.numbering.contains signal = true) :
    ∃ trace next, (session.assert signal).Returns trace (.ok (), next) := by
  obtain ⟨literal, trace, encoding, mentions⟩ :=
    sound.faithful.exists_mentions willing sound.circuit sound.closed contained
  exact exists_assert_of_mentions contained mentions

/-- An engine that takes proper calls lets every valid signal be assumed. -/
theorem exists_assume (sound : session.Sound start calls facts) (willing : Engine.Willing start)
    {signal : Signal} (contained : session.circuit.numbering.contains signal = true) :
    ∃ trace next, (session.assume signal).Returns trace (.ok (), next) := by
  obtain ⟨literal, trace, encoding, mentions⟩ :=
    sound.faithful.exists_mentions willing sound.circuit sound.closed contained
  exact exists_assume_of_mentions contained mentions

theorem exists_submitPending (sound : session.Sound start calls facts)
    (willing : Engine.Willing start) : ∃ trace encoding,
      (session.encoding.submitAll (session.pending.map ([·]))).Returns trace encoding := by
  refine Encoding.exists_submitAll_of_willing willing sound.faithful.after
    (sound.few_declared willing.toCounting) fun clause member => ?_
  obtain ⟨literal, waiting, rfl⟩ := List.mem_map.mp member
  obtain ⟨signal, _, denotes⟩ := sound.exists_asserted (List.mem_append_right _ waiting)
  exact sound.declares_of_denotes willing.toCounting
    (List.forall_mem_singleton.mpr ⟨signal, denotes⟩)

theorem exists_coverAssumptions (sound : session.Sound start calls facts)
    (willing : Engine.Willing start) {literals : List Literal}
    (denoted : ∀ literal ∈ literals, ∃ signal, session.circuit.numbering.Denotes literal signal) :
    ∃ trace next, (literals.foldlM coverAssumption session).Returns trace next := by
  induction literals generalizing session calls with
  | nil => exact ⟨[], session, Outcome.returns_pure.mpr ⟨rfl, rfl⟩⟩
  | cons literal rest ih =>
    obtain ⟨⟨signal, denotes⟩, others⟩ := List.forall_mem_cons.mp denoted
    obtain ⟨origin, _, traced, found⟩ := sound.exists_origin denotes
    obtain ⟨before, count, encoding, covered⟩ := sound.faithful.exists_cover willing sound.circuit
      (sound.closed.mono (by simp)) found.contained
    have traces : session.coverAssumption literal = session.cover origin := by
      simp only [coverAssumption, traced]
    have first : (session.cover origin).Returns before { session with encoding } := by
      simp only [Session.cover, Outcome.returns_bind, Outcome.returns_pure]
      exact ⟨before, (count, encoding), [], covered, ⟨rfl, rfl⟩, by rw [List.append_nil]⟩
    obtain ⟨done, same, _⟩ := sound.cover found first
    rw [← same] at others
    obtain ⟨after, next, later⟩ := ih done others
    exact ⟨before ++ after, next, (traces ▸ first).bind later⟩

/-- A positive answer comes with a model that is long enough to be taken in. -/
theorem exists_conclude (sound : session.Sound start calls facts) (willing : Engine.Willing start)
    {entries : List LogEntry} {answer : Except Failure Bool} {engine : ε}
    (solved : (Engine.solve session.encoding.engine session.assumptions).Returns entries
      (answer, engine)) :
    ∃ trace next, (({ session with encoding.engine := engine } : Session ε).conclude
      answer).Returns trace next := by
  rcases answer with failure | _ | _
  · exact ⟨_, _, (Outcome.returns_emit_self _).bind (Outcome.returns_pure.mpr ⟨rfl, rfl⟩)⟩
  · exact ⟨[], _, Outcome.returns_pure.mpr ⟨rfl, rfl⟩⟩
  · have counting := willing.toCounting
    obtain ⟨shown, model, reply, long⟩ := willing.modelled sound.faithful.after
      (sound.declares counting) (sound.declares_assumptions counting)
      (sound.few_declared counting) solved
    have numVars : Engine.numVars session.encoding.engine = session.circuit.numbering.numCnf :=
      sound.faithful.counted counting
    rw [counting.kept sound.faithful.after (.solve solved) (by simp), numVars] at long
    obtain ⟨log, valuation, spread, _⟩ := Valuation.ofModel_spec sound.circuit.numbering
      sound.circuit.small sound.circuit.indexed long
    have told : (Call.model.record (Engine.model engine)).Returns _ model :=
      Call.returns_record.mpr ⟨shown, reply, rfl⟩
    exact ⟨_, _, told.bind (spread.bind (Outcome.returns_pure.mpr ⟨rfl, rfl⟩))⟩

/-- An engine that takes proper calls lets every solve return. -/
theorem exists_solve (sound : session.Sound start calls facts) (willing : Engine.Willing start) :
    ∃ trace verdict next, session.solve.Returns trace (verdict, next) := by
  obtain ⟨first, encoding, submitted⟩ := sound.exists_submitPending willing
  obtain ⟨handed, _⟩ := sound.submitPending submitted
  have denoted (literal : Literal) (member : literal ∈ session.assumptions) :=
    (handed.exists_assumed member).imp fun _ found => found.2
  obtain ⟨second, covered, walked⟩ := handed.exists_coverAssumptions willing denoted
  obtain ⟨asked, _, same, _⟩ := handed.coverAssumptions denoted walked
  have accepted : Engine.Accepts covered.encoding.engine (.solve covered.assumptions) :=
    asked.declares_assumptions willing.toCounting
  obtain ⟨engine, takes⟩ := willing.taken asked.faithful.after accepted
    (asked.few_declared willing.toCounting)
  cases takes with
  | @solve _ entries answer _ solved =>
    obtain ⟨third, next, concluded⟩ := asked.exists_conclude willing solved
    have waiting := returns_submitPending submitted
    have asks : ((Call.solve covered.assumptions).record
        (Engine.solve covered.encoding.engine covered.assumptions)).Returns _ (answer, engine) :=
      Call.returns_record.mpr ⟨entries, solved, rfl⟩
    exact ⟨_, next.verdict, next, waiting.bind (walked.bind (asks.bind (concluded.bind
      ((Outcome.returns_emit_self _).bind (Outcome.returns_pure.mpr ⟨rfl, rfl⟩)))))⟩

/-! ## Requests one after the other -/

/-- A call that only sets a bound. -/
theorem idle (sound : session.Sound start calls facts) {call : Call} {engine : ε}
    (takes : Engine.Takes session.encoding.engine call engine) (silent : clausesOf [call] = [])
    (other : ∀ count, call ≠ .newVars count) (settings : Settings) :
    ({ session with encoding.engine := engine, settings } : Session ε).Sound start
      (calls ++ [call]) facts :=
  ⟨sound.circuit, sound.closed, sound.faithful.idle takes.after silent (by simpa using other),
    sound.asserted, sound.assumed⟩

/-- What a plain request keeps up. -/
theorem step (sound : session.Sound start calls facts) {entry : Entry}
    (plain : entry.operation.isPlain = true)
    (small : next.circuit.numbering.numCircuit ≤ maxVar) (step : Step session entry next) :
    next.Sound start (calls ++ callsOf entry.trace) (facts.after entry) ∧
      session.circuit.Grows next.circuit := by
  have unasked {trace : List Event} (silent : callsOf trace = []) {known : Facts}
      {next : Session ε} (after : next.Sound start calls known) :
      next.Sound start (calls ++ callsOf trace) known := by
    rwa [silent, List.append_nil]
  cases step.effect sound.circuit plain small with
  | input room =>
    have grows := Circuit.grows_allot session.circuit
    have valid := sound.circuit.allot room
    exact ⟨unasked rfl (sound.withCircuit valid sound.closed.allot grows rfl rfl _), grows⟩
  | refused => exact ⟨unasked rfl sound, .refl _⟩
  | found silent => exact ⟨unasked silent sound, .refl _⟩
  | built silent _ _ adds =>
    exact ⟨unasked silent (sound.withCircuit adds.wellFormed (adds.closed sound.closed) adds.grows
      adds.codes adds.numCnf _), adds.grows⟩
  | asserted contained mentions made =>
    rw [made]
    exact ⟨sound.assert contained mentions, (sound.withEncoding contained mentions).2.1.grows⟩
  | assumed contained mentions made =>
    rw [made]
    exact ⟨sound.assume contained mentions, (sound.withEncoding contained mentions).2.1.grows⟩
  | retracted looked => exact ⟨unasked rfl (sound.retract looked), .refl _⟩
  | solved returned => exact (sound.solve returned).imp_right Circuit.Encodes.grows
  | maxTime made takes | maxConflicts made takes =>
    rw [made]
    exact ⟨sound.idle takes rfl (by simp) _, .refl _⟩

end Sound

/-- What plain requests keep up one by one they keep up together. -/
theorem Path.sound_of_plain {first last : Session ε} {entries : List Entry}
    (path : Path first entries last) (plain : ∀ entry ∈ entries, entry.operation.isPlain = true)
    (small : last.circuit.numbering.numCircuit ≤ maxVar) {start : ε} {calls : List Call}
    {facts : Facts} (sound : first.Sound start calls facts) :
    last.Sound start (calls ++ callsOfEntries entries) (entries.foldl Facts.after facts) ∧
      first.circuit.Grows last.circuit := by
  induction path generalizing calls facts with
  | nil =>
    rw [callsOfEntries_nil, List.append_nil]
    exact ⟨sound, .refl _⟩
  | cons step path ih =>
    obtain ⟨head, others⟩ := List.forall_mem_cons.mp plain
    obtain ⟨after, grows⟩ :=
      sound.step head (Nat.le_trans path.numCircuit_le small) step
    obtain ⟨done, more⟩ := ih others small after
    rw [callsOfEntries_cons, ← List.append_assoc]
    exact ⟨done, grows.trans more⟩

/-- What holds at first and lasts through plain requests, lasts through all. It may speak of the
plain requests that were made so far; these come to the same as the requests themselves. -/
theorem Path.plain_induction {first last : Session ε} {entries : List Entry}
    (path : Path first entries last) (small : last.circuit.numbering.numCircuit ≤ maxVar)
    {start : ε} {calls : List Call} {facts : Facts} (sound : first.Sound start calls facts)
    {motive : List Entry → Session ε → Prop} (nil : motive [] first)
    (step : ∀ {front : List Entry} {session next : Session ε} {entry : Entry},
      session.Sound start (calls ++ callsOfEntries front) (front.foldl Facts.after facts) →
      entry.operation.isPlain = true → next.circuit.numbering.numCircuit ≤ maxVar →
      Step session entry next → motive front session → motive (front ++ [entry]) next) :
    ∃ details, Details entries details ∧ motive details last := by
  obtain ⟨details, refined, same⟩ := path.refine
  refine ⟨details, same, ?_⟩
  have plain := same.plain
  clear path same
  induction details using List.reverseRecOn generalizing last with
  | nil =>
    cases refined
    exact nil
  | append_singleton front entry ih =>
    obtain ⟨session, before, ending⟩ := append_iff.mp refined
    have taken := one_iff.mp ending
    obtain ⟨earlier, here⟩ := List.forall_mem_append.mp plain
    have now := List.forall_mem_singleton.mp here
    have fewer := Nat.le_trans ending.numCircuit_le small
    exact step (before.sound_of_plain earlier fewer sound).1 now small taken
      (ih fewer before earlier)

/-- What lasts through plain requests other than solves, lasts where nothing is solved. -/
theorem Path.quiet_induction {first last : Session ε} {entries : List Entry}
    (path : Path first entries last) (small : last.circuit.numbering.numCircuit ≤ maxVar)
    {start : ε} {calls : List Call} {facts : Facts} (sound : first.Sound start calls facts)
    (quiet : ∀ entry ∈ entries, entry.operation ≠ .solve)
    {motive : List Entry → Session ε → Prop} (nil : motive [] first)
    (step : ∀ {calls : List Call} {facts : Facts} {front : List Entry}
      {session next : Session ε} {entry : Entry}, session.Sound start calls facts →
      entry.operation.isPlain = true → entry.operation ≠ .solve →
      next.circuit.numbering.numCircuit ≤ maxVar → Step session entry next →
      motive front session → motive (front ++ [entry]) next) :
    ∃ details, Details entries details ∧ motive details last := by
  obtain ⟨details, same, kept⟩ := path.plain_induction small sound
    (motive := fun front session =>
      (∀ entry ∈ front, entry.operation ≠ .solve) → motive front session)
    (fun _ => nil) fun sound plain small taken kept quiet => by
      obtain ⟨before, here⟩ := List.forall_mem_append.mp quiet
      exact step sound plain (here _ List.mem_cons_self) small taken (kept before)
  exact ⟨details, same, kept (same.quiet quiet)⟩

/-- What every path of requests keeps up. -/
theorem Path.sound {first last : Session ε} {entries : List Entry}
    (path : Path first entries last) (small : last.circuit.numbering.numCircuit ≤ maxVar)
    {start : ε} {calls : List Call} {facts : Facts} (sound : first.Sound start calls facts) :
    last.Sound start (calls ++ callsOfEntries entries) (entries.foldl Facts.after facts) ∧
      first.circuit.Grows last.circuit := by
  obtain ⟨_, refined, details⟩ := path.refine
  rw [← details.calls, ← details.facts]
  exact refined.sound_of_plain details.plain small sound

/-- A run ends in a session with the calls that it made and the facts that it stated. -/
theorem Transcript.sound {engine : ε} {settings : Settings} {entries : List Entry}
    {calls : List Call} {session : Session ε}
    (transcript : Transcript engine settings entries calls session)
    (small : session.circuit.numbering.numCircuit ≤ maxVar) :
    session.Sound engine calls (Facts.of entries) := by
  obtain ⟨started, path⟩ := transcript
  exact (path.sound small (.initial started)).1

/-- What holds of new sessions and lasts through plain requests, holds in every state of a run. -/
theorem Run.plain_induction {start : ε} {settings : Settings} {entries : List Entry}
    {last : Session ε} (run : Run start settings entries last)
    (small : last.circuit.numbering.numCircuit ≤ maxVar) {motive : List Entry → Session ε → Prop}
    (opened : ∀ {opening : List Event} {first : Session ε},
      (Session.start start settings).Returns opening first → motive [] first)
    (step : ∀ {calls : List Call} {facts : Facts} {front : List Entry} {session next : Session ε}
      {entry : Entry}, session.Sound start calls facts → entry.operation.isPlain = true →
      next.circuit.numbering.numCircuit ≤ maxVar → Step session entry next →
      motive front session → motive (front ++ [entry]) next) :
    ∃ details, Details entries details ∧ motive details last := by
  obtain ⟨started, path⟩ := run
  exact path.plain_induction small (.initial started) (opened started) step

/-- Every run ends in a session with the facts that it asserted and assumed. -/
theorem Run.sound {engine : ε} {settings : Settings} {entries : List Entry} {session : Session ε}
    (run : Run engine settings entries session)
    (small : session.circuit.numbering.numCircuit ≤ maxVar) :
    ∃ calls, session.Sound engine calls (Facts.of entries) :=
  (run_iff_transcript.mp run).imp fun _ transcript => transcript.sound small

end Session

end CircuitSat
