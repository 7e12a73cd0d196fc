import CircuitSat.Proofs.Session.Solution

/-! # Blockers

A blocker is the disjunction of signals that are all false now. In every consistent assignment it is
true exactly if the given signals do not all have their present values, and once it has an image, so
have these signals. How many variables it takes is known beforehand.
-/

namespace CircuitSat

theorem Connective.eval_comm (connective : Connective) (left right : Bool) :
    connective.eval left right = connective.eval right left := by
  cases connective <;> cases left <;> cases right <;> rfl

namespace Signature

variable (left : Signal) (connective : Connective) (right : Signal)

/-- The order of the operands does not matter. -/
theorem eval_of (assignment : Nat → Bool) : (of left connective right).eval assignment =
    connective.eval (left.eval assignment) (right.eval assignment) := by
  unfold of
  split
  · rfl
  · exact connective.eval_comm _ _

theorem operands_of : (of left connective right).left = left ∧
      (of left connective right).right = right ∨
    (of left connective right).left = right ∧ (of left connective right).right = left := by
  unfold of
  split
  · exact .inl ⟨rfl, rfl⟩
  · exact .inr ⟨rfl, rfl⟩

/-- What holds of both operands holds of both inputs of the request. -/
theorem both_operands_iff (property : Signal → Prop) :
    property (of left connective right).left ∧ property (of left connective right).right ↔
      property left ∧ property right := by
  rcases operands_of left connective right with ⟨first, second⟩ | ⟨first, second⟩
  · rw [first, second]
  · rw [first, second, and_comm]

end Signature

namespace Circuit

/-- Below a gate whose output has an image both operands have one. -/
theorem WellFormed.mapped_operands {circuit : Circuit} (valid : circuit.WellFormed)
    (closed : circuit.Closed []) {gate : Gate} (member : gate ∈ circuit.netlist.gates)
    (found : (circuit.numbering.image? gate.output.var).isSome) :
    (circuit.numbering.image? gate.left.var).isSome ∧
      (circuit.numbering.image? gate.right.var).isSome := by
  obtain ⟨image, mapped⟩ := Option.isSome_iff_exists.mp found
  obtain waiting | ⟨literals, encoded⟩ := closed gate member image mapped
  · contradiction
  · have carries := valid.carried member encoded
    exact ⟨Option.isSome_of_eq_some carries.left.1, Option.isSome_of_eq_some carries.right.1⟩

/-- The output is the disjunction of the signals. It cannot have an image without them, and it is
entailed with them. -/
structure Disjoins (circuit : Circuit) (signals : List Signal) (output : Signal) : Prop where
  contained : circuit.numbering.contains output = true
  eval {assignment : Nat → Bool} (consistent : circuit.Consistent assignment) :
    output.eval assignment = signals.any (·.eval assignment)
  mapped {later : Circuit} (grows : circuit.Grows later) (valid : later.WellFormed)
    (closed : later.Closed []) (found : (later.numbering.image? output.var).isSome) :
    ∀ signal ∈ signals, (later.numbering.image? signal.var).isSome
  entailed {later : Circuit} (grows : circuit.Grows later) {known : Nat → Option Bool}
    (all : ∀ signal ∈ signals, later.netlist.Entailed known signal.var) :
    later.netlist.Entailed known output.var

namespace Disjoins

variable {circuit later : Circuit} {signals : List Signal} {output : Signal}

theorem one (contained : circuit.numbering.contains output = true) :
    circuit.Disjoins [output] output where
  contained := contained
  eval _ := by rw [List.any_cons, List.any_nil, Bool.or_false]
  mapped _ _ _ found := List.forall_mem_singleton.mpr found
  entailed _ _ all := all output List.mem_cons_self

theorem mono (disjoins : circuit.Disjoins signals output) (grows : circuit.Grows later) :
    later.Disjoins signals output where
  contained := grows.contains disjoins.contained
  eval consistent := disjoins.eval (grows.consistent consistent)
  mapped further valid closed found := disjoins.mapped (grows.trans further) valid closed found
  entailed further _ all := disjoins.entailed (grows.trans further) all

/-- A gate more makes a disjunction of one signal more. -/
theorem or (disjoins : circuit.Disjoins signals output) (valid : circuit.WellFormed) {gate : Gate}
    (member : gate ∈ circuit.netlist.gates) {next : Signal}
    (same : gate.signature = .of output .or next) :
    circuit.Disjoins (signals ++ [next]) gate.output where
  contained := (valid.wired member).contains_output
  eval consistent := by
    have called : gate.output.eval _ = gate.signature.eval _ := consistent gate member
    rw [called, same, Signature.eval_of, disjoins.eval consistent, List.any_append, List.any_cons,
      List.any_nil, Bool.or_false, Connective.eval]
  mapped {later} grows sound closed found := by
    obtain ⟨after, present, alike⟩ := grows.gate member
    have inputs := Signature.both_operands_iff output .or next fun signal =>
      (later.numbering.image? signal.var).isSome = true
    rw [← same, ← alike.1] at inputs
    obtain ⟨first, second⟩ :=
      inputs.mp (sound.mapped_operands closed present (by rwa [alike.2]))
    refine List.forall_mem_append.mpr ⟨disjoins.mapped grows sound closed first, ?_⟩
    exact List.forall_mem_singleton.mpr second
  entailed {later} grows known all := by
    obtain ⟨after, present, alike⟩ := grows.gate member
    have inputs := Signature.both_operands_iff output .or next fun signal =>
      later.netlist.Entailed known signal.var
    rw [← same, ← alike.1] at inputs
    obtain ⟨before, last⟩ := List.forall_mem_append.mp all
    obtain ⟨first, second⟩ :=
      inputs.mpr ⟨disjoins.entailed grows before, last next List.mem_cons_self⟩
    exact alike.2 ▸ .output present first second

end Disjoins

end Circuit

namespace Session

variable {ε : Type}

/-! ## How many variables are taken at most -/

/-- A disjunction takes at most a variable for each further signal. -/
theorem disjoinDemand_le (session : Session ε) (signal : Signal) (rest : List Signal) :
    session.disjoinDemand signal rest ≤ rest.length := by
  induction rest generalizing session signal with
  | nil => exact Nat.le_refl _
  | cons head rest ih =>
    have one : session.gateDemand .or signal head ≤ 1 := by
      unfold gateDemand
      split <;> omega
    rw [disjoinDemand, List.length_cons]
    split
    · next output grown _ =>
      have others := ih grown output
      omega
    · omega

/-- Each signal is taken in one of its polarities. -/
theorem differing_vars {session : Session ε} {signals opposed : List Signal}
    (found : session.differing signals = .ok (.ok opposed)) :
    opposed.map Signal.var = signals.map Signal.var := by
  induction signals generalizing opposed with
  | nil =>
    cases found
    rfl
  | cons signal rest ih =>
    have longer {opponent : Signal} {later : Except SessionError (List Signal)}
        (alike : opponent.var = signal.var) (others : session.differing rest = .ok later)
        (same : later.map (opponent :: ·) = .ok opposed) :
        opposed.map Signal.var = (signal :: rest).map Signal.var := by
      cases later with
      | error error => cases same
      | ok later =>
        cases same
        rw [List.map_cons, List.map_cons, ih others, alike]
    rw [differing] at found
    split at found
    · cases found
    · split at found <;> simp only [bind_eq_ok_iff, pure_eq_ok_iff] at found
      · obtain ⟨opponent, flipped, later, others, same⟩ := found
        exact longer (Signal.negate?_spec (Signal.negate_eq_ok_iff.mp flipped)).1 others same
      · obtain ⟨_, rfl, later, others, same⟩ := found
        exact longer rfl others same

/-- A blocker takes at most a variable for each signal but the first. -/
theorem blockDemand_le (session : Session ε) (signals : List Signal) :
    session.blockDemand signals ≤ signals.length - 1 := by
  unfold blockDemand
  split
  · next first rest found =>
    have length := congrArg List.length (differing_vars found)
    have within := session.disjoinDemand_le first rest
    rw [List.length_map, List.length_map, List.length_cons] at length
    omega
  · exact Nat.zero_le _

/-! ## Blockers are built -/

/-- The values of some signals now, and for each of them the polarity that is false now: one of
these is true exactly if the signals do not all have these values. -/
structure Opposes (session : Session ε) (signals : List Signal) (values : List Bool)
    (opposed : List Signal) : Prop where
  read : signals.mapM session.value = .ok values
  differing : session.differing signals = .ok (.ok opposed)
  vars : opposed.map Signal.var = signals.map Signal.var
  blocks (assignment : Nat → Bool) : opposed.any (·.eval assignment) = true ↔
    signals.map (·.eval assignment) ≠ values
  respects {assignment : Nat → Bool} (same : ∀ signal value, session.value signal = .ok value →
    signal.eval assignment = value) : signals.map (·.eval assignment) = values

/-- Every opponent is of the variable of a signal. -/
theorem Opposes.exists_signal {session : Session ε} {signals opposed : List Signal}
    {values : List Bool} (opposes : session.Opposes signals values opposed) {opponent : Signal}
    (member : opponent ∈ opposed) : ∃ signal ∈ signals, signal.var = opponent.var :=
  List.mem_map.mp (opposes.vars ▸ List.mem_map_of_mem member)

/-- A disjunction of the opponents is true exactly where the signals do not all have their
values. -/
theorem Opposes.eval_iff {session : Session ε} {signals opposed : List Signal} {values : List Bool}
    (opposes : session.Opposes signals values opposed) {circuit : Circuit} {output : Signal}
    (disjoins : circuit.Disjoins opposed output) {assignment : Nat → Bool}
    (consistent : circuit.Consistent assignment) :
    output.eval assignment = true ↔ signals.map (·.eval assignment) ≠ values := by
  rw [disjoins.eval consistent, opposes.blocks]

/-- A signal with a value has an opponent, the one of its polarities that is false now. -/
theorem exists_opponent {session : Session ε} {signal : Signal} {value : Bool}
    (found : session.value signal = .ok value) (nonzero : signal.var ≠ 0)
    (small : signal.var ≤ maxVar) : ∃ opponent, opponent.var = signal.var ∧
      (∀ assignment, opponent.eval assignment = (signal.eval assignment != value)) ∧
      ∀ rest, session.differing (signal :: rest) = (do
        let later ← session.differing rest
        return later.map (opponent :: ·)) := by
  simp only [Session.differing, found]
  cases value with
  | false => exact ⟨signal, rfl, fun _ => (Bool.bne_false _).symm, fun _ => rfl⟩
  | true =>
    obtain ⟨negation, negated⟩ := Signal.exists_negate? small
    refine ⟨negation, (Signal.negate?_spec negated).1, fun assignment => ?_, fun rest => ?_⟩
    · rw [Signal.eval_negate? negated nonzero, Bool.bne_true]
    · rw [if_pos rfl, Signal.negate_eq_ok_iff.mpr negated]
      rfl

/-- Signals with values have opposites. -/
theorem Solved.exists_opposes {session : Session ε} {numbering : Numbering} {model : Array Bool}
    (solved : session.Solved numbering model)
    (small : session.circuit.numbering.numCircuit ≤ maxVar) {signals : List Signal}
    (valued : ∀ signal ∈ signals, ∃ value, session.value signal = .ok value) :
    ∃ values opposed, session.Opposes signals values opposed := by
  induction signals with
  | nil => exact ⟨[], [], rfl, rfl, rfl, fun _ => by simp, fun _ => rfl⟩
  | cons signal rest ih =>
    obtain ⟨⟨value, found⟩, others⟩ := List.forall_mem_cons.mp valued
    obtain ⟨values, opposed, opposes⟩ := ih others
    have contained := (solved.value_eq_ok_iff.mp found).1
    have range := Numbering.contains_iff.mp contained
    obtain ⟨opponent, same, differs, opposing⟩ :=
      exists_opponent found (by omega) (Nat.le_trans range.2 small)
    have differing : session.differing (signal :: rest) = .ok (.ok (opponent :: opposed)) := by
      rw [opposing, opposes.differing]
      rfl
    refine ⟨value :: values, opponent :: opposed, ?_, differing, ?_, fun assignment => ?_,
      fun {assignment} agrees => ?_⟩
    · rw [List.mapM_cons, found, opposes.read]
      rfl
    · rw [List.map_cons, List.map_cons, same, opposes.vars]
    · rw [List.any_cons, Bool.or_eq_true, opposes.blocks, differs, bne_iff_ne, List.map_cons, Ne,
        Ne, Ne, List.cons.injEq, not_and_or]
    · rw [List.map_cons, opposes.respects agrees, agrees signal value found]

variable [Engine ε]

namespace Sound

variable {start : ε} {calls : List Call} {facts : Facts} {session : Session ε}

/-- A disjunction is built gate by gate. -/
theorem disjoin (sound : session.Sound start calls facts) {before rest : List Signal}
    {signal : Signal} (disjoins : session.circuit.Disjoins before signal)
    (contained : ∀ other ∈ rest, session.circuit.numbering.contains other = true)
    (room : session.circuit.numbering.numCircuit + session.disjoinDemand signal rest ≤ maxVar) :
    ∃ trace output next, (session.disjoin signal rest).Returns trace (.ok output, next) ∧
      callsOf trace = [] ∧ next.Sound start calls facts ∧
      session.circuit.Grows next.circuit ∧ next.circuit.Disjoins (before ++ rest) output := by
  induction rest generalizing session before signal with
  | nil =>
    refine ⟨[], signal, session, Outcome.returns_pure.mpr ⟨rfl, rfl⟩, rfl, sound, .refl _, ?_⟩
    rw [List.append_nil]
    exact disjoins
  | cons head rest ih =>
    obtain ⟨here, others⟩ := List.forall_mem_cons.mp contained
    rw [disjoinDemand] at room
    obtain ⟨first, output, middle, added, gate, member, same, rfl⟩ :=
      exists_addGate sound.circuit .or ⟨disjoins.contained, here⟩ (by omega)
    have result : (session.addGate .or signal head).result = .ok (.ok gate.output, middle) := by
      rw [added]
    have taken := addGate_numCircuit added
    simp only [result] at room
    have step : Step session ⟨.gate .or signal head, .ok (.signal gate.output), first⟩ middle :=
      (returns_reply _).mpr ⟨_, added, rfl⟩
    obtain ⟨between, grows⟩ := sound.step rfl (by omega) step
    have silent := addGate_silent added
    rw [silent, List.append_nil] at between
    obtain ⟨second, output, next, built, quiet, done, more, whole⟩ :=
      ih between ((disjoins.mono grows).or between.circuit member same)
        (fun other among => grows.contains (others other among)) (by omega)
    refine ⟨first ++ second, output, next, ?_, by simp [silent, quiet], done, grows.trans more, ?_⟩
    · exact andThen_returns_iff.mpr (.inr ⟨first, _, middle, second, added, built, rfl⟩)
    · rwa [List.append_assoc] at whole

/-- After a satisfiable solve a blocker of valued signals is built if there is room for it. -/
theorem blocker (sound : session.Sound start calls facts) {numbering : Numbering}
    {model : Array Bool} (solved : session.Solved numbering model) {signals : List Signal}
    (nonempty : signals ≠ [])
    (valued : ∀ signal ∈ signals, ∃ value, session.value signal = .ok value)
    (room : session.circuit.numbering.numCircuit + session.blockDemand signals ≤ maxVar) :
    ∃ values opposed trace output next, session.Opposes signals values opposed ∧
      (session.blocker signals).Returns trace (.ok output, next) ∧ callsOf trace = [] ∧
      next.Sound start calls facts ∧ session.circuit.Grows next.circuit ∧
      next.circuit.Disjoins opposed output := by
  obtain ⟨values, opposed, opposes⟩ := solved.exists_opposes sound.circuit.small valued
  have inside : ∀ opponent ∈ opposed, session.circuit.numbering.contains opponent = true := by
    intro opponent member
    obtain ⟨signal, given, same⟩ := opposes.exists_signal member
    obtain ⟨value, found⟩ := valued signal given
    rw [Numbering.contains_iff, ← same, ← Numbering.contains_iff]
    exact (solved.value_eq_ok_iff.mp found).1
  cases opposed with
  | nil =>
    have length := congrArg List.length opposes.vars
    rw [List.length_map, List.length_map, List.length_nil] at length
    exact absurd (List.length_eq_zero_iff.mp length.symm) nonempty
  | cons head rest =>
    obtain ⟨here, others⟩ := List.forall_mem_cons.mp inside
    simp only [blockDemand, opposes.differing] at room
    obtain ⟨trace, output, next, built, silent, done, grows, disjoins⟩ :=
      sound.disjoin (.one here) others room
    refine ⟨values, head :: rest, trace, output, next, opposes, ?_, silent, done, grows, disjoins⟩
    simp only [Session.blocker, Outcome.returns_bind, Outcome.returns_lift]
    exact ⟨[], _, trace, ⟨rfl, opposes.differing⟩, built, rfl⟩

end Sound

end Session

end CircuitSat
