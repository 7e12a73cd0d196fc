import CircuitSat.Engine.Scripted
import CircuitSat.Proofs.Engine.Adapter
import CircuitSat.Proofs.Session.Verdict

/-! # Values after a solve

A satisfiable solve takes in a model of the variables that have images by then. From there on the
values are those that this model entails through all gates there are, whether a gate was there when
the model came or was built later. If the model satisfies what the engine has, then the values are
those of one consistent assignment.
-/

namespace CircuitSat

namespace Session

variable {ε : Type}

/-- The values are those that a model of the numbered variables entails. -/
structure Solved (numbering : Numbering) (model : Array Bool) (session : Session ε) : Prop where
  verdict : session.verdict = .satisfiable
  bounded (var : Nat) (found : (Valuation.known numbering model var).isSome) :
    var ≤ session.circuit.numbering.numCircuit
  completes : Valuation.Completes session.circuit.netlist (Valuation.known numbering model)
    session.valuation

namespace Solved

variable {session next : Session ε} {numbering : Numbering} {model : Array Bool} {signal : Signal}

/-- At most literals of gates changed, and variables may have come. -/
theorem congr (solved : session.Solved numbering model)
    (grows : session.circuit.Grows next.circuit)
    (old : ∀ gate ∈ next.circuit.netlist.gates,
      ∃ before ∈ session.circuit.netlist.gates, before.Alike gate)
    (valuation : next.valuation = session.valuation) (verdict : next.verdict = session.verdict) :
    next.Solved numbering model where
  verdict := verdict.trans solved.verdict
  bounded var found := Nat.le_trans (solved.bounded var found) grows.numCircuit
  completes := by
    rw [valuation]
    exact solved.completes.congr (fun _ => grows.gate) old

theorem encodes (solved : session.Solved numbering model)
    (encodes : session.circuit.Encodes next.circuit)
    (valuation : next.valuation = session.valuation) (verdict : next.verdict = session.verdict) :
    next.Solved numbering model :=
  solved.congr encodes.grows (fun _ => encodes.exists_old) valuation verdict

/-- A gate is built, with its value if the operands have one. -/
theorem built (solved : session.Solved numbering model) (valid : session.circuit.WellFormed)
    {signature : Signature} {output : Signal} {circuit : Circuit}
    (adds : session.circuit.Adds signature output circuit) :
    ({ session with
      encoding.circuit := circuit
      valuation := session.valuation.withGate ⟨signature, output, none⟩ } : Session ε).Solved
      numbering model where
  verdict := solved.verdict
  bounded var found := Nat.le_trans (solved.bounded var found) adds.grows.numCircuit
  completes := solved.completes.withGate valid solved.bounded adds

/-! ## Reading values off -/

theorem value_eq (solved : session.Solved numbering model)
    (contained : session.circuit.numbering.contains signal = true) :
    session.value signal = match session.valuation.value? signal with
      | some value => .ok value
      | none => .error (.unassigned signal) := by
  have sat : session.verdict.isSat = true := by rw [solved.verdict]; rfl
  rw [value, check_eq_ok_iff.mpr contained]
  exact if_pos sat

theorem value_eq_ok_iff (solved : session.Solved numbering model) {value : Bool} :
    session.value signal = .ok value ↔
      session.circuit.numbering.contains signal = true ∧
        session.valuation.get? signal.var = some (value != signal.negated) := by
  by_cases contained : session.circuit.numbering.contains signal = true
  · rw [solved.value_eq contained, ← Valuation.value?_eq_some_iff, and_iff_right contained]
    cases session.valuation.value? signal <;> simp
  · refine iff_of_false (fun valued => contained ?_) (fun found => contained found.1)
    unfold Session.value at valued
    split at valued
    · contradiction
    · next valid => exact check_eq_ok_iff.mp valid

/-- With a value on a variable there is one on each of its signals. -/
theorem value_of_get? (solved : session.Solved numbering model)
    (contained : session.circuit.numbering.contains signal = true) {value : Bool}
    (found : session.valuation.get? signal.var = some value) :
    session.value signal = .ok (value != signal.negated) := by
  refine solved.value_eq_ok_iff.mpr ⟨contained, ?_⟩
  rw [found, Bool.bne_assoc, bne_self_eq_false, Bool.bne_false]

end Solved

/-- What the values are: those of the model on the variables with images at the time of the solve,
those that gates call for on the others, and none outside of what these entail. -/
structure Follows (numbering : Numbering) (model : Array Bool) (session : Session ε) : Prop where
  valued_iff {signal : Signal} (contained : session.circuit.numbering.contains signal = true) :
    (∃ value, session.value signal = .ok value) ↔
      session.circuit.netlist.Entailed (Valuation.known numbering model) signal.var
  outside {signal : Signal} (contained : session.circuit.numbering.contains signal = true)
    (missing : ¬session.circuit.netlist.Entailed (Valuation.known numbering model) signal.var) :
    session.value signal = .error (.unassigned signal)
  mapped {signal : Signal} {image : Nat} (found : numbering.image? signal.var = some image) :
    session.value signal = .ok (model.getD image false != signal.negated)
  called {signal : Signal}
    (entailed : session.circuit.netlist.Entailed (Valuation.known numbering model) signal.var)
    (unmapped : numbering.image? signal.var = none) :
    ∃ gate left right, session.gate? signal = some gate ∧ session.value gate.left = .ok left ∧
      session.value gate.right = .ok right ∧
      session.value signal = .ok (gate.connective.eval left right != signal.negated)
  opposite {signal negation : Signal} {value : Bool} (negated : signal.negate? = some negation)
    (valued : session.value signal = .ok value) : session.value negation = .ok (!value)

theorem Solved.valued_iff {session : Session ε} {numbering : Numbering} {model : Array Bool}
    (solved : session.Solved numbering model) {signal : Signal}
    (contained : session.circuit.numbering.contains signal = true) :
    (∃ value, session.value signal = .ok value) ↔
      session.circuit.netlist.Entailed (Valuation.known numbering model) signal.var := by
  rw [← solved.completes.isSome_iff, Option.isSome_iff_exists]
  constructor
  · rintro ⟨value, valued⟩
    exact ⟨_, (solved.value_eq_ok_iff.mp valued).2⟩
  · rintro ⟨value, found⟩
    exact ⟨_, solved.value_of_get? contained found⟩

theorem Solved.follows {session : Session ε} {numbering : Numbering} {model : Array Bool}
    (solved : session.Solved numbering model) (valid : session.circuit.WellFormed) :
    session.Follows numbering model where
  valued_iff contained := solved.valued_iff contained
  outside {signal} contained missing := by
    rw [← solved.completes.isSome_iff, Option.not_isSome_iff_eq_none] at missing
    rw [solved.value_eq contained, Valuation.value?, missing, Option.map_none]
  mapped {signal image} found := by
    have known : Valuation.known numbering model signal.var = some (model.getD image false) := by
      rw [Valuation.known, found, Option.map_some]
    have bound := solved.bounded _ (Option.isSome_of_eq_some known)
    refine solved.value_of_get? ?_ (solved.completes.kept known)
    exact Numbering.contains_iff.mpr ⟨(Numbering.bound_of_image? found).1, bound⟩
  called {signal} entailed unmapped := by
    have unknown : Valuation.known numbering model signal.var = none := by
      rw [Valuation.known, unmapped, Option.map_none]
    obtain ⟨gate, member, output, left, right⟩ := entailed.exists_gate unknown
    have wired := valid.wired member
    obtain ⟨atLeft, leftValue⟩ := (solved.valued_iff wired.contains_left).mpr left
    obtain ⟨atRight, rightValue⟩ := (solved.valued_iff wired.contains_right).mpr right
    have inferred := solved.completes.inferred member (output ▸ unknown)
    have called : session.valuation.infer? gate = some (gate.connective.eval atLeft atRight) := by
      refine Valuation.infer?_eq_some_iff.mpr ⟨_, _, (solved.value_eq_ok_iff.mp leftValue).2,
        (solved.value_eq_ok_iff.mp rightValue).2, ?_⟩
      simp only [Bool.bne_assoc, bne_self_eq_false, Bool.bne_false]
    rw [called, output] at inferred
    have contained : session.circuit.numbering.contains signal = true :=
      Numbering.contains_iff.mpr (output ▸ Numbering.contains_iff.mp wired.contains_output)
    exact ⟨gate, atLeft, atRight, valid.indexed.definition?_eq_some_iff.mpr ⟨member, output⟩,
      leftValue, rightValue, solved.value_of_get? contained inferred⟩
  opposite {signal negation value} negated valued := by
    obtain ⟨contained, found⟩ := solved.value_eq_ok_iff.mp valued
    obtain ⟨var, polarity⟩ := Signal.negate?_spec negated
    have range := Numbering.contains_iff.mp contained
    have same := polarity (by omega)
    have there : session.circuit.numbering.contains negation = true :=
      Numbering.contains_iff.mpr (var ▸ range)
    rw [solved.value_of_get? there (var ▸ found), same]
    cases value <;> cases signal.negated <;> rfl

variable [Engine ε]

/-- No plain request but a solve makes the values other than what the model entails. -/
theorem Solved.step {session next : Session ε} {numbering : Numbering} {model : Array Bool}
    (solved : session.Solved numbering model) {start : ε} {calls : List Call} {facts : Facts}
    (sound : session.Sound start calls facts) {entry : Entry}
    (plain : entry.operation.isPlain = true) (quiet : entry.operation ≠ .solve)
    (small : next.circuit.numbering.numCircuit ≤ maxVar) (step : Step session entry next) :
    next.Solved numbering model := by
  cases step.effect sound.circuit plain small with
  | input =>
    exact solved.congr (Circuit.grows_allot _) (fun gate member => ⟨gate, member, .refl _⟩) rfl rfl
  | refused | found => exact solved
  | built _ _ _ adds => exact solved.built sound.circuit adds
  | asserted contained mentions | assumed contained mentions =>
    exact solved.encodes (sound.withEncoding contained mentions).2.1 rfl rfl
  | retracted | maxTime | maxConflicts => exact solved.encodes (.refl _) rfl rfl
  | solved => contradiction

/-- Without another solve the values stay those that the model entails. -/
theorem Path.solved {first last : Session ε} {entries : List Entry}
    (path : Path first entries last) (quiet : ∀ entry ∈ entries, entry.operation ≠ .solve)
    (small : last.circuit.numbering.numCircuit ≤ maxVar) {start : ε} {calls : List Call}
    {facts : Facts} (sound : first.Sound start calls facts) {numbering : Numbering}
    {model : Array Bool} (solved : first.Solved numbering model) :
    last.Solved numbering model := by
  obtain ⟨_, _, kept⟩ := path.quiet_induction small sound quiet
    (motive := fun _ session => session.Solved numbering model) solved
    fun sound plain other small step solved => solved.step sound plain other small step
  exact kept

/-- Known values that agree with what the engine has: they respect the gates among them, and all
facts hold in whatever assignment extends them. -/
structure Agrees (circuit : Circuit) (facts : Facts) (known : Nat → Option Bool) :
    Prop where
  supported : ∀ gate ∈ circuit.netlist.gates, gate.Supported known
  holds {assignment : Nat → Bool}
    (same : ∀ var value, known var = some value → assignment var = value) :
    facts.Holds assignment

/-- A satisfiable solve took in a model that is long enough, and a truthful engine one that agrees
with all it has. -/
theorem Sound.solved {session next : Session ε} {start : ε} {calls : List Call} {facts : Facts}
    (sound : session.Sound start calls facts) {trace : List Event}
    (returned : session.solve.Returns trace (.satisfiable, next)) :
    ∃ shown model, (Engine.model next.encoding.engine).Returns shown model ∧
      next.circuit.numbering.numCnf < model.size ∧ next.Solved next.circuit.numbering model ∧
      (Engine.Truthful start →
        Agrees next.circuit facts (Valuation.known next.circuit.numbering model)) := by
  obtain ⟨before, covered, entries, answer, engine, after, asked, _, same, solved, concluded,
    verdict, _⟩ := sound.solve_asks returned
  rcases conclude_returns concluded with
    ⟨rfl, _, shown, model, log, valuation, reply, spread, rfl⟩ | ⟨_, _, rfl⟩ | ⟨_, _, _, rfl⟩
  · have long := (Valuation.ofModel_returns_iff.mp spread).1
    obtain ⟨_, other, again, completes⟩ := Valuation.ofModel_spec asked.circuit.numbering
      asked.circuit.small asked.circuit.indexed long
    obtain ⟨_, rfl⟩ := spread.unique again
    refine ⟨shown, model, reply, long, ⟨rfl, fun var found => ?_, completes⟩, fun truthful => ?_⟩
    · rw [Valuation.known, Option.isSome_map] at found
      obtain ⟨image, mapped⟩ := Option.isSome_iff_exists.mp found
      exact (Numbering.bound_of_image? mapped).2
    · have counting := truthful.toCounting
      have satisfies := (truthful.shown asked.faithful.after (asked.declares counting)
        (asked.declares_assumptions counting) solved reply).2
      have idle : covered.pending = [] := by rw [same]
      exact ⟨asked.supported_of_satisfies satisfies,
        asked.holds_of_satisfies idle satisfies⟩
  · contradiction
  · contradiction

/-- What a satisfiable solve of a run leaves behind, after any further requests but solves. -/
theorem Run.solved {engine : ε} {settings : Settings} {entries more : List Entry}
    {session next last : Session ε} (run : Run engine settings entries session)
    {trace : List Event} (returned : session.solve.Returns trace (.satisfiable, next))
    (path : Path next more last) (quiet : ∀ entry ∈ more, entry.operation ≠ .solve)
    (small : last.circuit.numbering.numCircuit ≤ maxVar) :
    ∃ calls shown model, next.Sound engine calls (Facts.of entries) ∧
      last.circuit.WellFormed ∧ next.circuit.Grows last.circuit ∧
      (Engine.model next.encoding.engine).Returns shown model ∧
      next.circuit.numbering.numCnf < model.size ∧ last.Solved next.circuit.numbering model ∧
      (Engine.Truthful engine → Agrees next.circuit (Facts.of entries)
        (Valuation.known next.circuit.numbering model)) := by
  have before : session.circuit.numbering.numCircuit ≤ maxVar := by
    have kept := solve_numCircuit returned
    have later := path.numCircuit_le
    omega
  obtain ⟨calls, sound⟩ := run.sound before
  obtain ⟨after, _⟩ := sound.solve returned
  obtain ⟨shown, model, reply, long, solved, agrees⟩ := sound.solved returned
  obtain ⟨final, grows⟩ := path.sound small after
  exact ⟨_, shown, model, after, final.circuit, grows, reply, long,
    path.solved quiet small after solved, agrees⟩

/-- After a satisfiable solve of a run and any further requests but solves, the values are the model
on the variables that had images then, and its consequences through all gates there are now: just
those that a new start from the model through these gates would give. -/
theorem values_exact {engine : ε} {settings : Settings} {entries more : List Entry}
    {session next last : Session ε} (run : Run engine settings entries session)
    {trace : List Event} (returned : session.solve.Returns trace (.satisfiable, next))
    (path : Path next more last) (quiet : ∀ entry ∈ more, entry.operation ≠ .solve)
    (small : last.circuit.numbering.numCircuit ≤ maxVar) :
    ∃ shown model, (Engine.model next.encoding.engine).Returns shown model ∧
      next.circuit.numbering.numCnf < model.size ∧
      last.Follows next.circuit.numbering model ∧
      ∃ log valuation,
        (Valuation.ofModel ⟨next.circuit.numbering, last.circuit.netlist⟩ model).Returns
          log valuation ∧
        ∀ signal, ({ last with valuation } : Session ε).value signal = last.value signal := by
  obtain ⟨_, shown, model, after, valid, _, reply, long, final, _⟩ :=
    run.solved returned path quiet small
  obtain ⟨log, valuation, spread, completes⟩ := Valuation.ofModel_spec after.circuit.numbering
    after.circuit.small valid.indexed long
  have again : ({ last with valuation } : Session ε).Solved next.circuit.numbering model :=
    ⟨final.verdict, final.bounded, completes⟩
  refine ⟨shown, model, reply, long, final.follows valid, log, valuation, spread, fun signal => ?_⟩
  by_cases contained : last.circuit.numbering.contains signal = true
  · rw [again.value_eq contained, final.value_eq contained, Valuation.value?, Valuation.value?,
      completes.unique final.completes]
  · have invalid : ({ last with valuation } : Session ε).check signal = last.check signal := rfl
    simp only [value, invalid]
    cases checked : last.check signal with
    | error error => rfl
    | ok => exact absurd (check_eq_ok_iff.mp checked) contained

/-- Values after a claimed model that contradicts a gate, with two gates built after it. -/
theorem values_exact_of_claim : ∃ entries session trace next more last,
    Run (Scripted.create [.claim [false, true, true]]) .standard entries session ∧
    entries.map Entry.operation = [.input, .input, .input, .gate .and ⟨1⟩ ⟨2⟩, .assert ⟨4⟩] ∧
    session.solve.Returns trace (.satisfiable, next) ∧ Path next more last ∧
    more.map Entry.operation = [.gate .or ⟨1⟩ ⟨3⟩, .gate .xor ⟨4⟩ ⟨1⟩] ∧
    last.circuit.numbering.numCircuit ≤ maxVar ∧
    [⟨1⟩, ⟨2⟩, ⟨3⟩, ⟨4⟩, ⟨5⟩, ⟨-6⟩].map last.value =
      [.ok true, .ok true, .error (.unassigned ⟨3⟩), .ok false, .error (.unassigned ⟨5⟩),
        .ok false] ∧
    ∃ shown model, (Engine.model next.encoding.engine).Returns shown model ∧
      next.circuit.numbering.numCnf < model.size ∧
      last.Follows next.circuit.numbering model ∧
      ∃ log valuation,
        (Valuation.ofModel ⟨next.circuit.numbering, last.circuit.netlist⟩ model).Returns
          log valuation ∧
        ∀ signal,
          ({ last with valuation } : Session Scripted).value signal = last.value signal := by
  obtain ⟨entries, session, run, operations, solved⟩ :=
    exists_run (Scripted.create [.claim [false, true, true]]) .standard
      [.input, .input, .input, .gate .and ⟨1⟩ ⟨2⟩, .assert ⟨4⟩]
      (fun _ session => session.solve.result.toOption.any fun solved => solved.1 = .satisfiable ∧
        (solved.2.replay [.gate .or ⟨1⟩ ⟨3⟩, .gate .xor ⟨4⟩ ⟨1⟩]).toOption.any fun later =>
          later.2.circuit.numbering.numCircuit ≤ maxVar ∧
          [⟨1⟩, ⟨2⟩, ⟨3⟩, ⟨4⟩, ⟨5⟩, ⟨-6⟩].map later.2.value =
            [.ok true, .ok true, .error (.unassigned ⟨3⟩), .ok false, .error (.unassigned ⟨5⟩),
              .ok false]) (by decide +kernel)
  obtain ⟨⟨_, next⟩, returned, rfl, later⟩ := Outcome.exists_returns solved
  obtain ⟨⟨more, last⟩, replayed, small, values⟩ := exists_ok_of_any later
  obtain ⟨path, requests⟩ := replay_eq_ok_iff.mp replayed
  have quiet : ∀ entry ∈ more, entry.operation ≠ .solve :=
    Entry.forall_of_operations requests (· ≠ .solve) (by decide)
  exact ⟨entries, session, _, next, more, last, run, operations, returned, path, requests, small,
    values, values_exact run returned path quiet small⟩

/-! ## Truthful engines -/

omit [Engine ε] in
/-- The values of a solved session are those of one consistent assignment, in which all facts at the
time of the solve hold. -/
theorem Solved.exists_consistent {first : Circuit} {last : Session ε} {facts : Facts}
    {model : Array Bool} (solved : last.Solved first.numbering model)
    (valid : last.circuit.WellFormed) (grows : first.Grows last.circuit)
    (agrees : Agrees first facts (Valuation.known first.numbering model)) :
    ∃ assignment, last.circuit.Consistent assignment ∧ facts.Holds assignment ∧
      ∀ signal value, last.value signal = .ok value → signal.eval assignment = value := by
  have bounded (var : Nat)
      (found : (Valuation.known first.numbering model var).isSome) :
      var ≤ first.numbering.numCircuit := by
    rw [Valuation.known, Option.isSome_map] at found
    obtain ⟨image, mapped⟩ := Option.isSome_iff_exists.mp found
    exact (Numbering.bound_of_image? mapped).2
  obtain ⟨assignment, consistent, same⟩ := valid.exists_consistent last.valuation.get?
    (solved.completes.supported grows bounded agrees.supported)
  refine ⟨assignment, consistent, agrees.holds fun var value known =>
    same var value (solved.completes.kept known), fun signal value valued => ?_⟩
  rw [Signal.eval, same _ _ (solved.value_eq_ok_iff.mp valued).2]
  cases value <;> cases signal.negated <;> rfl

/-- On a truthful engine the values after a satisfiable solve of a run and any further requests but
solves are those of one assignment that respects all gates there are now, and what was asserted or
assumed at the solve is true. -/
theorem values_sound {engine : ε} (truthful : Engine.Truthful engine) {settings : Settings}
    {entries more : List Entry} {session next last : Session ε}
    (run : Run engine settings entries session) {trace : List Event}
    (returned : session.solve.Returns trace (.satisfiable, next)) (path : Path next more last)
    (quiet : ∀ entry ∈ more, entry.operation ≠ .solve)
    (small : last.circuit.numbering.numCircuit ≤ maxVar) :
    (∃ assignment, last.circuit.Consistent assignment ∧
      ∀ signal value, last.value signal = .ok value → signal.eval assignment = value) ∧
    ∀ signal, signal ∈ (Facts.of entries).asserted ∨ signal ∈ (Facts.of entries).assumed →
      last.value signal = .ok true := by
  obtain ⟨_, _, model, after, valid, grows, _, _, final, agrees⟩ :=
    run.solved returned path quiet small
  obtain ⟨assignment, consistent, holds, same⟩ :=
    final.exists_consistent valid grows (agrees truthful)
  refine ⟨⟨assignment, consistent, same⟩, fun signal noted => ?_⟩
  have denoted : ∃ literal, next.circuit.numbering.Denotes literal signal := by
    rcases noted with asserted | assumed
    · obtain ⟨literal, _, denotes⟩ := exists_of_forall₂ after.asserted.flip asserted
      exact ⟨literal, denotes⟩
    · obtain ⟨literal, _, denotes⟩ := exists_of_forall₂ after.assumed.flip assumed
      exact ⟨literal, denotes⟩
  obtain ⟨literal, denotes⟩ := denoted
  have valued := (final.follows valid).mapped denotes.1
  have right : signal.eval assignment = true := noted.elim (holds.1 signal) (holds.2 signal)
  rw [valued, ← same _ _ valued, right]

/-- A conjunction with a negated input, and a disjunction that is built only after the solve. -/
theorem values_sound_of_conjunction : ∃ entries session trace next more last,
    Run (BoundedSearch.create true) .standard entries session ∧
    entries.map Entry.operation = [.input, .input, .gate .and ⟨1⟩ ⟨-2⟩, .assert ⟨3⟩,
      .assume ⟨1⟩] ∧
    entries.map Entry.reply = [.ok (.signal ⟨1⟩), .ok (.signal ⟨2⟩), .ok (.signal ⟨3⟩), .ok .done,
      .ok .done] ∧
    session.solve.Returns trace (.satisfiable, next) ∧ Path next more last ∧
    more.map Entry.operation = [.gate .or ⟨2⟩ ⟨-3⟩, .retract ⟨1⟩] ∧
    more.map Entry.reply = [.ok (.signal ⟨4⟩), .ok .done] ∧
    last.circuit.numbering.numCircuit ≤ maxVar ∧
    [⟨1⟩, ⟨2⟩, ⟨3⟩, ⟨4⟩].map last.value = [.ok true, .ok false, .ok true, .ok false] ∧
    (∃ assignment, last.circuit.Consistent assignment ∧
      ∀ signal value, last.value signal = .ok value → signal.eval assignment = value) ∧
    ∀ signal, signal ∈ (Facts.of entries).asserted ∨ signal ∈ (Facts.of entries).assumed →
      last.value signal = .ok true := by
  obtain ⟨entries, session, run, operations, replies, solved⟩ :=
    exists_run (BoundedSearch.create true) .standard
      [.input, .input, .gate .and ⟨1⟩ ⟨-2⟩, .assert ⟨3⟩, .assume ⟨1⟩]
      (fun entries session => entries.map Entry.reply = [.ok (.signal ⟨1⟩), .ok (.signal ⟨2⟩),
        .ok (.signal ⟨3⟩), .ok .done, .ok .done] ∧
        session.solve.result.toOption.any fun solved => solved.1 = .satisfiable ∧
          (solved.2.replay [.gate .or ⟨2⟩ ⟨-3⟩, .retract ⟨1⟩]).toOption.any fun later =>
            later.1.map Entry.reply = [.ok (.signal ⟨4⟩), .ok .done] ∧
            later.2.circuit.numbering.numCircuit ≤ maxVar ∧
            [⟨1⟩, ⟨2⟩, ⟨3⟩, ⟨4⟩].map later.2.value = [.ok true, .ok false, .ok true, .ok false])
      (by decide +kernel)
  obtain ⟨⟨_, next⟩, returned, rfl, later⟩ := Outcome.exists_returns solved
  obtain ⟨⟨more, last⟩, replayed, granted, small, values⟩ := exists_ok_of_any later
  obtain ⟨path, requests⟩ := replay_eq_ok_iff.mp replayed
  have quiet : ∀ entry ∈ more, entry.operation ≠ .solve :=
    Entry.forall_of_operations requests (· ≠ .solve) (by decide)
  exact ⟨entries, session, _, next, more, last, run, operations, replies, returned, path, requests,
    granted, small, values,
    values_sound (BoundedSearch.truthful true) run returned path quiet small⟩

end Session

end CircuitSat
