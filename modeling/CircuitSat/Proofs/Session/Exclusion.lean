import CircuitSat.Proofs.Engine.Lexicographic
import CircuitSat.Proofs.Session.Refusals

/-! # Blockers exclude the values that there are

After a satisfiable solve, whatever was built since, a blocker is true exactly where one of its
signals has another value than now, and so it is false now. Building it adds gates at most. The
engine is not told of them, and no value changes.
-/

namespace CircuitSat

namespace Session

variable {ε : Type}

/-! ## Sessions that only got gates -/

/-- Gates were added, each on a variable of its own that has no image, and perhaps their values.
Nothing else changed. -/
structure Appends (old : Session ε) (added : List Gate) (new : Session ε) : Prop where
  rest : new = { old with encoding.circuit := new.circuit, valuation := new.valuation }
  gates : new.circuit.netlist.gates.toList = old.circuit.netlist.gates.toList ++ added
  unencoded : ∀ gate ∈ added, gate.isEncoded = false
  numCircuit : new.circuit.numbering.numCircuit =
    old.circuit.numbering.numCircuit + added.length
  numCnf : new.circuit.numbering.numCnf = old.circuit.numbering.numCnf
  image? (var : Nat) : new.circuit.numbering.image? var = old.circuit.numbering.image? var

namespace Appends

variable {old middle new : Session ε} {first second : List Gate}

theorem refl (session : Session ε) : session.Appends [] session :=
  ⟨rfl, (List.append_nil _).symm, List.forall_mem_nil _, rfl, rfl, fun _ => rfl⟩

theorem trans (left : old.Appends first middle) (right : middle.Appends second new) :
    old.Appends (first ++ second) new where
  rest := by
    rw [right.rest, left.rest]
    rfl
  gates := by rw [right.gates, left.gates, List.append_assoc]
  unencoded := List.forall_mem_append.mpr ⟨left.unencoded, right.unencoded⟩
  numCircuit := by rw [right.numCircuit, left.numCircuit, List.length_append, Nat.add_assoc]
  numCnf := right.numCnf.trans left.numCnf
  image? var := (right.image? var).trans (left.image? var)

end Appends

/-! ## Values of solved sessions -/

section Values

variable {session next : Session ε} {numbering : Numbering} {model : Array Bool}

/-- What has a value keeps it when the circuit grows. -/
theorem Solved.value_kept (solved : session.Solved numbering model)
    (later : next.Solved numbering model) (grows : session.circuit.Grows next.circuit)
    {signal : Signal} {value : Bool} (valued : session.value signal = .ok value) :
    next.value signal = .ok value := by
  obtain ⟨contained, found⟩ := solved.value_eq_ok_iff.mp valued
  have entailed := solved.completes.least (Option.isSome_of_eq_some found)
  have same := solved.completes.get?_eq later.completes (fun _ => grows.gate) entailed
  exact later.value_eq_ok_iff.mpr ⟨grows.contains contained, same ▸ found⟩

/-- Signals have other values than those read off exactly if one of them has. -/
theorem map_eval_ne_iff {signals : List Signal} {values : List Bool}
    (read : signals.mapM session.value = .ok values) (assignment : Nat → Bool) :
    signals.map (·.eval assignment) ≠ values ↔
      ∃ signal ∈ signals, ∃ value, session.value signal = .ok value ∧
        signal.eval assignment ≠ value := by
  induction signals generalizing values with
  | nil =>
    cases read
    simp
  | cons signal rest ih =>
    simp only [List.mapM_cons, bind_eq_ok_iff, pure_eq_ok_iff] at read
    obtain ⟨value, found, others, later, rfl⟩ := read
    rw [List.map_cons, Ne, List.cons.injEq, not_and_or, ← Ne, ← Ne, ih later,
      List.exists_mem_cons_iff]
    simp only [found, Except.ok.injEq, exists_eq_left']

/-- A disjunction of opponents of signals that keep their values is false. -/
theorem Solved.value_of_opposes {first : Circuit} {facts : Facts}
    (solved : next.Solved first.numbering model) (valid : next.circuit.WellFormed)
    (grows : first.Grows next.circuit)
    (agrees : Agrees first facts (Valuation.known first.numbering model))
    (kept : ∀ signal value, session.value signal = .ok value → next.value signal = .ok value)
    {signals opposed : List Signal} {values : List Bool}
    (valued : ∀ signal ∈ signals, ∃ value, session.value signal = .ok value)
    (opposes : session.Opposes signals values opposed) {output : Signal}
    (disjoins : next.circuit.Disjoins opposed output) : next.value output = .ok false := by
  have entailed : ∀ opponent ∈ opposed,
      next.circuit.netlist.Entailed (Valuation.known first.numbering model) opponent.var := by
    intro opponent member
    obtain ⟨signal, given, same⟩ := opposes.exists_signal member
    obtain ⟨value, found⟩ := valued signal given
    have known := kept signal value found
    have contained := (solved.value_eq_ok_iff.mp known).1
    exact same ▸ (solved.valued_iff contained).mp ⟨value, known⟩
  obtain ⟨value, found⟩ :=
    (solved.valued_iff disjoins.contained).mpr (disjoins.entailed (.refl _) entailed)
  -- In the assignment that the values are from, none of the signals differs.
  obtain ⟨assignment, consistent, _, same⟩ := solved.exists_consistent valid grows agrees
  have equal : signals.map (·.eval assignment) = values :=
    opposes.respects fun signal value valued => same signal value (kept signal value valued)
  have silent : ¬output.eval assignment = true := fun differs =>
    (opposes.eval_iff disjoins consistent).mp differs equal
  rw [same output value found, Bool.not_eq_true] at silent
  rw [found, silent]

end Values

variable [Engine ε]

/-! ## What a blocker leaves behind -/

section Building

variable {session next : Session ε}

/-- A request for a gate adds at most this gate. -/
theorem Effect.appends {connective : Connective} {left right : Signal}
    {reply : Except SessionError Answer} {trace : List Event}
    (effect : session.Effect ⟨.gate connective left right, reply, trace⟩ next) :
    ∃ added, session.Appends added next := by
  cases effect with
  | refused | found => exact ⟨[], .refl session⟩
  | @built _ _ _ output circuit _ _ _ _ adds =>
    refine ⟨[⟨.of left connective right, output, none⟩], rfl, ?_, List.forall_mem_singleton.mpr rfl,
      adds.numCircuit, adds.numCnf, adds.image?⟩
    exact (congrArg Array.toList adds.gates).trans Array.toList_push

variable {start : ε} {calls : List Call} {facts : Facts}

/-- Requests for gates add nothing but gates. -/
theorem Path.appends {entries : List Entry} (path : Path session entries next)
    (gates : ∀ entry ∈ entries, ∃ connective left right,
      entry.operation = .gate connective left right)
    (sound : session.Sound start calls facts)
    (small : next.circuit.numbering.numCircuit ≤ maxVar) :
    ∃ added, session.Appends added next := by
  induction path generalizing calls facts with
  | nil session => exact ⟨[], .refl session⟩
  | @cons session middle next entry entries step path ih =>
    obtain ⟨⟨connective, left, right, same⟩, others⟩ := List.forall_mem_cons.mp gates
    obtain ⟨operation, reply, trace⟩ := entry
    obtain rfl : operation = _ := same
    have fewer := Nat.le_trans path.numCircuit_le small
    obtain ⟨first, here⟩ := (step.effect sound.circuit rfl fewer).appends
    obtain ⟨second, there⟩ := ih others (sound.step rfl fewer step).1 small
    exact ⟨first ++ second, here.trans there⟩

/-- A blocker adds at most a gate for each signal but the first. -/
theorem Sound.blocker_appends (sound : session.Sound start calls facts) {signals : List Signal}
    {trace : List Event} {reply : Except SessionError Signal}
    (returned : (session.blocker signals).Returns trace (reply, next))
    (small : next.circuit.numbering.numCircuit ≤ maxVar) :
    ∃ added, added.length ≤ signals.length - 1 ∧ session.Appends added next := by
  obtain ⟨entries, path, gates, _⟩ := exists_path_blocker returned
  obtain ⟨added, appends⟩ :=
    path.appends (fun entry member => ⟨.or, gates entry member⟩) sound small
  refine ⟨added, ?_, appends⟩
  have taken := blocker_numCircuit returned
  have bound := session.blockDemand_le signals
  have more := appends.numCircuit
  omega

end Building

/-! ## Runs that ended satisfiable -/

/-- In a run whose last solve was satisfiable, on a truthful engine, the values are still those
entailed by the model of that solve, which agreed with all that the engine had. -/
theorem Run.exists_solved {engine : ε} (truthful : Engine.Truthful engine) {settings : Settings}
    {entries : List Entry} {session : Session ε} (run : Run engine settings entries session)
    (small : session.circuit.numbering.numCircuit ≤ maxVar)
    (sat : lastVerdict entries = .satisfiable) : ∃ first facts model,
      session.Solved first.numbering model ∧ first.Grows session.circuit ∧
      Agrees first facts (Valuation.known first.numbering model) := by
  obtain ⟨_, _, solved⟩ := run.plain_induction small
    (motive := fun _ session => session.verdict = .satisfiable → ∃ first facts model,
      session.Solved first.numbering model ∧ first.Grows session.circuit ∧
      Agrees first facts (Valuation.known first.numbering model))
    (fun started sat => by
      obtain ⟨_, _, _, rfl⟩ := start_returns started
      contradiction)
    fun {calls facts front session next entry} sound plain small step before sat => by
      obtain ⟨operation, reply, trace⟩ := entry
      by_cases again : operation = .solve
      · -- The model is a new one.
        subst again
        obtain ⟨verdict, returned, rfl⟩ := step_solve.mp step
        obtain ⟨_, _, _, _, _, _, _, _, _, _, _, rfl, _⟩ := sound.solve_asks returned
        rw [sat] at returned
        obtain ⟨_, model, _, _, solved, agrees⟩ := sound.solved returned
        exact ⟨next.circuit, facts, model, solved, .refl _, agrees truthful⟩
      · have same := sound.verdict_step plain small step
        rw [Entry.verdict?_of_quiet again, Option.getD_none, sat] at same
        obtain ⟨first, stated, model, solved, grows, agrees⟩ := before same.symm
        exact ⟨first, stated, model, solved.step sound plain again small step,
          grows.trans (sound.step plain small step).2, agrees⟩
  exact solved ((run.verdict small).trans sat)

/-- A signal that excludes the values that some others have now, and what building it came to. -/
structure Excludes (session : Session ε) (signals : List Signal) (output : Signal)
    (next : Session ε) : Prop where
  differs {assignment : Nat → Bool} (consistent : next.circuit.Consistent assignment) :
    output.eval assignment = true ↔ ∃ signal ∈ signals, ∃ value,
      session.value signal = .ok value ∧ signal.eval assignment ≠ value
  now : next.value output = .ok false
  kept {signal : Signal} {value : Bool} (valued : session.value signal = .ok value) :
    next.value signal = .ok value
  appends : ∃ added, added.length ≤ signals.length - 1 ∧ session.Appends added next

/-- After a run on a truthful engine whose last solve was satisfiable, a blocker of signals with
values is built whenever there are variables for it. It is true in just the consistent assignments
in which one of the signals has another value than now; so it is false now, all values stay, and
the engine is not called. -/
theorem blocker_exact {engine : ε} (truthful : Engine.Truthful engine) {settings : Settings}
    {entries : List Entry} {session : Session ε} (run : Run engine settings entries session)
    (sat : lastVerdict entries = .satisfiable) {signals : List Signal} (nonempty : signals ≠ [])
    (valued : ∀ signal ∈ signals, ∃ value, session.value signal = .ok value)
    (room : session.circuit.numbering.numCircuit + session.blockDemand signals ≤ maxVar) :
    ∃ trace output next, (session.blocker signals).Returns trace (.ok output, next) ∧
      callsOf trace = [] ∧ session.Excludes signals output next := by
  have small : session.circuit.numbering.numCircuit ≤ maxVar := by omega
  obtain ⟨calls, sound⟩ := run.sound small
  obtain ⟨first, facts, model, solved, grown, agrees⟩ := run.exists_solved truthful small sat
  obtain ⟨values, opposed, trace, output, next, opposes, returned, silent, after, grows,
    disjoins⟩ := sound.blocker solved nonempty valued room
  have within : next.circuit.numbering.numCircuit ≤ maxVar :=
    blocker_numCircuit returned ▸ room
  have step : Step session ⟨.block signals, .ok (.signal output), trace⟩ next :=
    (returns_reply _).mpr ⟨_, returned, rfl⟩
  have later : next.Solved first.numbering model :=
    (Path.one step).solved (by simp) within sound solved
  have kept (signal : Signal) (value : Bool) (found : session.value signal = .ok value) :
      next.value signal = .ok value := solved.value_kept later grows found
  refine ⟨trace, output, next, returned, silent, ⟨fun consistent => ?_, ?_, kept _ _,
    sound.blocker_appends returned within⟩⟩
  · rw [opposes.eval_iff disjoins consistent, map_eval_ne_iff opposes.read]
  · exact later.value_of_opposes after.circuit (grown.trans grows) agrees kept valued opposes
      disjoins

/-- A blocker of four signals, one of them repeated and one in both polarities. -/
theorem blocker_exact_of_conjunction : ∃ entries session,
    Run (Lexicographic.create true) .standard entries session ∧
    entries.map Entry.operation = [.input, .input, .gate .and ⟨1⟩ ⟨2⟩, .assert ⟨3⟩, .solve] ∧
    (lastVerdict entries = .satisfiable ∧
      session.circuit.numbering.numCircuit + session.blockDemand [⟨3⟩, ⟨1⟩, ⟨-1⟩, ⟨3⟩] ≤ maxVar ∧
      [⟨3⟩, ⟨1⟩, ⟨-1⟩, ⟨3⟩].map session.value =
        [.ok true, .ok true, .ok false, .ok true]) ∧
    ∃ trace output next,
      (session.blocker [⟨3⟩, ⟨1⟩, ⟨-1⟩, ⟨3⟩]).Returns trace (.ok output, next) ∧
      callsOf trace = [] ∧ session.Excludes [⟨3⟩, ⟨1⟩, ⟨-1⟩, ⟨3⟩] output next := by
  refine exists_run_of (by decide +kernel) fun entries session run _ found => ?_
  obtain ⟨sat, room, values⟩ := found
  have valued : ∀ signal ∈ ([⟨3⟩, ⟨1⟩, ⟨-1⟩, ⟨3⟩] : List Signal),
      ∃ value, session.value signal = .ok value := by
    simp only [List.map_cons, List.cons.injEq] at values
    simp [values]
  exact blocker_exact (Lexicographic.honest true).toTruthful run sat (by simp) valued room

end Session

end CircuitSat
