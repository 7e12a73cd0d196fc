import CircuitSat.Proofs.Session.Requests

/-! # Every request is made of plain ones

An assertion of several signals comes to the same session as single assertions, and a blocker to the
same as the gates of a disjunction, with the same calls and the same facts. Variables are only ever
added, and by gates and inputs alone.
-/

namespace CircuitSat

namespace Session

variable {ε : Type} {session next : Session ε} {trace : List Event}

/-! ## The number of variables -/

theorem insertGate_numCircuit {signature : Signature} {output : Signal}
    (returned : (session.insertGate signature).Returns trace (output, next)) :
    next.circuit.numbering.numCircuit = session.circuit.numbering.numCircuit + 1 := by
  obtain ⟨_, allotted, _, circuit, allocated, inserted, rfl⟩ := insertGate_returns_iff.mp returned
  obtain ⟨_, rfl⟩ := Circuit.allocate_eq_ok allocated
  change circuit.numbering.numCircuit = _
  rw [Circuit.insert_numbering inserted, Circuit.numCircuit_allot]

theorem addGate_numCircuit {connective : Connective} {left right : Signal}
    {reply : Except SessionError Signal}
    (returned : (session.addGate connective left right).Returns trace (reply, next)) :
    next.circuit.numbering.numCircuit =
      session.circuit.numbering.numCircuit + session.gateDemand connective left right := by
  by_cases contained : session.circuit.numbering.contains left = true ∧
      session.circuit.numbering.contains right = true
  · cases found : session.gateOf? (.of left connective right) with
    | some gate =>
      obtain ⟨_, _, rfl⟩ := (addGate_returns_of_some contained found).mp returned
      rw [gateDemand, if_neg (by simp [found]), Nat.add_zero]
    | none =>
      obtain ⟨_, _, _, inserted⟩ := (addGate_returns_of_none contained found).mp returned
      rw [gateDemand, if_pos ⟨contained, found⟩]
      exact insertGate_numCircuit inserted
  · obtain ⟨error, refused⟩ := addGate_of_invalid connective contained
    rw [refused] at returned
    obtain ⟨_, same⟩ := Outcome.returns_pure.mp returned
    cases same
    rw [gateDemand, if_neg fun both => contained both.1, Nat.add_zero]

/-- How many variables a disjunction takes. -/
def disjoinDemand (session : Session ε) (signal : Signal) : List Signal → Nat
  | [] => 0
  | next :: rest => session.gateDemand .or signal next +
      match (session.addGate .or signal next).result with
      | .ok (.ok output, grown) => grown.disjoinDemand output rest
      | _ => 0

/-- How many variables a blocker takes. -/
def blockDemand (session : Session ε) (signals : List Signal) : Nat :=
  match session.differing signals with
  | .ok (.ok (first :: rest)) => session.disjoinDemand first rest
  | _ => 0

theorem disjoin_numCircuit {signal : Signal} {rest : List Signal}
    {reply : Except SessionError Signal}
    (returned : (session.disjoin signal rest).Returns trace (reply, next)) :
    next.circuit.numbering.numCircuit =
      session.circuit.numbering.numCircuit + session.disjoinDemand signal rest := by
  induction rest generalizing session signal trace with
  | nil =>
    obtain ⟨_, same⟩ := Outcome.returns_pure.mp returned
    cases same
    rfl
  | cons head rest ih =>
    rcases andThen_returns_iff.mp returned with ⟨error, refused, _⟩ |
      ⟨before, output, middle, after, first, later, _⟩
    · have result : (session.addGate .or signal head).result = .ok (.error error, next) := by
        rw [refused]
      rw [disjoinDemand, result, Nat.add_zero]
      exact addGate_numCircuit refused
    · have result : (session.addGate .or signal head).result = .ok (.ok output, middle) := by
        rw [first]
      rw [disjoinDemand, result, ih later, addGate_numCircuit first, Nat.add_assoc]

/-- A blocker takes just as many variables as said. -/
theorem blocker_numCircuit {signals : List Signal} {reply : Except SessionError Signal}
    (returned : (session.blocker signals).Returns trace (reply, next)) :
    next.circuit.numbering.numCircuit =
      session.circuit.numbering.numCircuit + session.blockDemand signals := by
  simp only [blocker, Outcome.returns_bind, Outcome.returns_lift] at returned
  obtain ⟨_, opposed, _, ⟨_, found⟩, rest, _⟩ := returned
  rw [blockDemand, found]
  rcases opposed with error | _ | ⟨first, others⟩
  · obtain ⟨_, same⟩ := Outcome.returns_pure.mp rest
    cases same
    rfl
  · obtain ⟨_, same⟩ := Outcome.returns_pure.mp rest
    cases same
    rfl
  · exact disjoin_numCircuit rest

theorem retract_numCircuit {signal : Signal} {reply : Except SessionError Unit}
    (returned : (session.retract signal).Returns trace (reply, next)) :
    next.circuit.numbering.numCircuit = session.circuit.numbering.numCircuit := by
  obtain ⟨_, ⟨_, _, rfl⟩ | ⟨_, _, _, _, rfl⟩⟩ := retract_returns returned <;> rfl

/-- How many variables a request takes. -/
def demand (session : Session ε) : Operation → Nat
  | .input => 1
  | .gate connective left right => session.gateDemand connective left right
  | .block signals => session.blockDemand signals
  | _ => 0

variable [Engine ε]

theorem mentions_numCircuit {encoding last : Encoding ε} {signal : Signal} {literal : Literal}
    (mentions : encoding.Mentions signal literal trace last) :
    last.circuit.numbering.numCircuit = encoding.circuit.numbering.numCircuit := by
  obtain ⟨circuit, count, found, covered⟩ := mentions
  exact (Encoding.cover_numCircuit covered).trans (Circuit.literalOf_numCircuit found)

theorem assert_numCircuit {signal : Signal} {reply : Except SessionError Unit}
    (returned : (session.assert signal).Returns trace (reply, next)) :
    next.circuit.numbering.numCircuit = session.circuit.numbering.numCircuit := by
  rcases assert_returns returned with ⟨_, _, rfl, _⟩ | ⟨_, _, _, _, _, mentions, _, rfl⟩
  · rfl
  · exact mentions_numCircuit mentions

theorem assume_numCircuit {signal : Signal} {reply : Except SessionError Unit}
    (returned : (session.assume signal).Returns trace (reply, next)) :
    next.circuit.numbering.numCircuit = session.circuit.numbering.numCircuit := by
  rcases assume_returns returned with ⟨_, _, rfl, _⟩ | ⟨_, _, _, _, _, mentions, _, rfl⟩
  · rfl
  · exact mentions_numCircuit mentions

theorem coverAssumption_numCircuit {literal : Literal}
    (returned : (session.coverAssumption literal).Returns trace next) :
    next.circuit.numbering.numCircuit = session.circuit.numbering.numCircuit := by
  unfold coverAssumption at returned
  split at returned
  · exact absurd returned Outcome.returns_fault
  · obtain ⟨_, encoding, covered, rfl⟩ := cover_returns returned
    exact Encoding.cover_numCircuit covered

theorem conclude_circuit {answer : Except Failure Bool}
    (returned : (session.conclude answer).Returns trace next) :
    next.encoding = session.encoding := by
  rcases conclude_returns returned with ⟨_, _, _, _, _, _, _, _, rfl⟩ | ⟨_, _, rfl⟩ |
    ⟨_, _, _, rfl⟩ <;> rfl

theorem solve_numCircuit {verdict : Verdict}
    (returned : session.solve.Returns trace (verdict, next)) :
    next.circuit.numbering.numCircuit = session.circuit.numbering.numCircuit := by
  obtain ⟨_, encoding, _, covered, _, _, _, _, submitted, walked, _, concluded, _⟩ :=
    solve_returns returned
  have walk : covered.circuit.numbering.numCircuit = encoding.circuit.numbering.numCircuit :=
    Outcome.foldlM_keeps (·.circuit.numbering.numCircuit) coverAssumption_numCircuit walked
  rw [circuit, conclude_circuit concluded]
  exact walk.trans (by rw [(Encoding.submitAll_returns submitted).2.2.1]; rfl)

theorem assertEach_numCircuit {signals : List Signal} {reply : Except SessionError Unit}
    (returned : (session.assertEach signals).Returns trace (reply, next)) :
    next.circuit.numbering.numCircuit = session.circuit.numbering.numCircuit := by
  induction signals generalizing session trace with
  | nil =>
    obtain ⟨_, same⟩ := Outcome.returns_pure.mp returned
    cases same
    rfl
  | cons signal rest ih =>
    rcases andThen_returns_iff.mp returned with ⟨_, refused, _⟩ | ⟨_, _, _, _, first, later, _⟩
    · exact assert_numCircuit refused
    · exact (ih later).trans (assert_numCircuit first)

theorem assertAll_numCircuit {signals : List Signal} {reply : Except SessionError Unit}
    (returned : (session.assertAll signals).Returns trace (reply, next)) :
    next.circuit.numbering.numCircuit = session.circuit.numbering.numCircuit := by
  unfold assertAll at returned
  split at returned
  · obtain ⟨_, same⟩ := Outcome.returns_pure.mp returned
    cases same
    rfl
  · exact assertEach_numCircuit returned

/-- A request takes just as many variables as said. -/
theorem Step.numCircuit {entry : Entry} (step : Step session entry next) :
    next.circuit.numbering.numCircuit =
      session.circuit.numbering.numCircuit + session.demand entry.operation := by
  obtain ⟨operation, reply, trace⟩ := entry
  cases operation with
  | input =>
    obtain ⟨_, added, _⟩ := step_input.mp step
    obtain ⟨_, _, rfl⟩ := addInput_returns added
    exact Circuit.numCircuit_allot _
  | gate connective left right =>
    obtain ⟨_, added, _⟩ := (returns_reply _).mp step
    exact addGate_numCircuit added
  | assert signal =>
    obtain ⟨_, returned, _⟩ := (returns_reply _).mp step
    exact assert_numCircuit returned
  | assertAll signals =>
    obtain ⟨_, returned, _⟩ := (returns_reply _).mp step
    exact assertAll_numCircuit returned
  | assume signal =>
    obtain ⟨_, returned, _⟩ := (returns_reply _).mp step
    exact assume_numCircuit returned
  | retract signal =>
    obtain ⟨_, returned, _⟩ := (returns_reply _).mp step
    exact retract_numCircuit returned
  | block signals =>
    obtain ⟨_, returned, _⟩ := (returns_reply _).mp step
    exact blocker_numCircuit returned
  | solve =>
    obtain ⟨_, solved, _⟩ := step_solve.mp step
    exact solve_numCircuit solved
  | maxTime bound =>
    obtain ⟨_, _, _, rfl⟩ := setMaxTime_returns (returns_done.mp step).1
    rfl
  | maxConflicts bound =>
    obtain ⟨_, _, _, rfl⟩ := setMaxConflicts_returns (returns_done.mp step).1
    rfl

/-- No request takes variables away. -/
theorem Path.numCircuit_le {first last : Session ε} {entries : List Entry}
    (path : Path first entries last) :
    first.circuit.numbering.numCircuit ≤ last.circuit.numbering.numCircuit := by
  induction path with
  | nil => exact Nat.le_refl _
  | cons step _ ih => exact Nat.le_trans (step.numCircuit ▸ Nat.le_add_right _ _) ih

/-! ## Plain paths -/

/-- Plain requests that come to the same as others: the same calls, facts, verdicts, inputs and
gates. -/
structure Details (entries details : List Entry) : Prop where
  plain : ∀ detail ∈ details, detail.operation.isPlain = true
  calls : callsOfEntries details = callsOfEntries entries
  facts (facts : Facts) : details.foldl Facts.after facts = entries.foldl Facts.after facts
  asserts : everAsserted details = everAsserted entries
  assumes : everAssumed details = everAssumed entries
  quiet (other : ∀ entry ∈ entries, entry.operation ≠ .solve) :
    ∀ detail ∈ details, detail.operation ≠ .solve
  verdicts : details.filterMap Entry.verdict? = entries.filterMap Entry.verdict?
  inputs : inputCount details = inputCount entries
  grants : grantsOf details = grantsOf entries
  built (unblocked : ∀ entry ∈ entries, ∀ signals, entry.operation ≠ .block signals) :
    constructions details = constructions entries

namespace Details

theorem itself {entry : Entry} (plain : entry.operation.isPlain = true) :
    Details [entry] [entry] where
  plain := List.forall_mem_singleton.mpr plain
  calls := rfl
  facts _ := rfl
  asserts := rfl
  assumes := rfl
  quiet other := other
  verdicts := rfl
  inputs := rfl
  grants := rfl
  built _ := rfl

theorem append {entries details more others : List Entry} (front : Details entries details)
    (back : Details more others) : Details (entries ++ more) (details ++ others) where
  plain := List.forall_mem_append.mpr ⟨front.plain, back.plain⟩
  calls := by rw [callsOfEntries_append, callsOfEntries_append, front.calls, back.calls]
  facts facts := by rw [List.foldl_append, List.foldl_append, front.facts, back.facts]
  asserts := by
    rw [everAsserted, everAsserted, List.flatMap_append, List.flatMap_append]
    exact congrArg₂ _ front.asserts back.asserts
  assumes := by
    rw [everAssumed, everAssumed, List.flatMap_append, List.flatMap_append]
    exact congrArg₂ _ front.assumes back.assumes
  quiet other := by
    obtain ⟨head, tail⟩ := List.forall_mem_append.mp other
    exact List.forall_mem_append.mpr ⟨front.quiet head, back.quiet tail⟩
  verdicts := by
    rw [List.filterMap_append, List.filterMap_append, front.verdicts, back.verdicts]
  inputs := by rw [inputCount_append, inputCount_append, front.inputs, back.inputs]
  grants := by rw [grantsOf_append, grantsOf_append, front.grants, back.grants]
  built unblocked := by
    obtain ⟨head, tail⟩ := List.forall_mem_append.mp unblocked
    rw [constructions, constructions, List.map_append, List.map_append, List.filter_append,
      List.filter_append]
    exact congrArg₂ _ (front.built head) (back.built tail)

/-- Nothing comes of a request that is turned down, unless it is a solve. -/
theorem refused {operation : Operation} {error : SessionError}
    (built : operation.builds = false) :
    Details [⟨operation, .error error, []⟩] [] where
  plain := List.forall_mem_nil _
  calls := rfl
  facts _ := rfl
  asserts := rfl
  assumes := rfl
  quiet _ := List.forall_mem_nil _
  verdicts := by cases operation <;> rfl
  inputs := by cases operation <;> first | rfl | contradiction
  grants := by cases operation <;> rfl
  built _ := by simp [constructions, built]

end Details

/-- Assertions of valid signals one after the other. -/
theorem exists_path_assertEach {signals : List Signal} {reply : Except SessionError Unit}
    (valid : ∀ signal ∈ signals, session.circuit.numbering.contains signal = true)
    (returned : (session.assertEach signals).Returns trace (reply, next)) :
    reply = .ok () ∧ ∃ entries, Path session entries next ∧
      (∀ detail ∈ entries, ∃ signal, detail.operation = .assert signal) ∧
      callsOfEntries entries = callsOf trace ∧ everAsserted entries = signals ∧
      ∀ facts : Facts, entries.foldl Facts.after facts =
        { facts with asserted := signals.foldl noted facts.asserted } := by
  induction signals generalizing session trace with
  | nil =>
    obtain ⟨rfl, same⟩ := Outcome.returns_pure.mp returned
    cases same
    exact ⟨rfl, [], .nil _, by simp, rfl, rfl, fun _ => rfl⟩
  | cons signal rest ih =>
    obtain ⟨head, others⟩ := List.forall_mem_cons.mp valid
    rcases andThen_returns_iff.mp returned with ⟨error, refused, _⟩ |
      ⟨before, _, middle, after, first, later, rfl⟩
    · rcases assert_returns refused with ⟨invalid, _⟩ | ⟨_, same, _⟩
      · rw [head] at invalid
        contradiction
      · contradiction
    · have same := assert_numCircuit first
      obtain ⟨rfl, entries, path, asserts, calls, asserted, facts⟩ := ih
        (fun other member => (Numbering.contains_congr same).trans (others other member)) later
      refine ⟨rfl, ⟨.assert signal, .ok .done, before⟩ :: entries, .cons ?_ path, ?_, ?_, ?_, ?_⟩
      · exact (returns_reply _).mpr ⟨_, first, rfl⟩
      · exact List.forall_mem_cons.mpr ⟨⟨signal, rfl⟩, asserts⟩
      · simp [calls]
      · exact congrArg (signal :: ·) asserted
      · intro known
        exact facts _

/-- Gates one after the other. -/
theorem exists_path_disjoin {signal : Signal} {rest : List Signal}
    {reply : Except SessionError Signal}
    (returned : (session.disjoin signal rest).Returns trace (reply, next)) :
    ∃ entries, Path session entries next ∧
      (∀ detail ∈ entries, ∃ left right, detail.operation = .gate .or left right) ∧
      callsOfEntries entries = callsOf trace ∧
      grantsOf entries = trace.filterMap Event.grant? := by
  induction rest generalizing session signal trace with
  | nil =>
    obtain ⟨rfl, same⟩ := Outcome.returns_pure.mp returned
    cases same
    exact ⟨[], .nil _, by simp, rfl, rfl⟩
  | cons head rest ih =>
    rcases andThen_returns_iff.mp returned with ⟨error, refused, _⟩ |
      ⟨before, output, middle, after, first, later, rfl⟩
    · refine ⟨[⟨.gate .or signal head, _, trace⟩], .one ((returns_reply _).mpr ⟨_, refused, rfl⟩),
        ?_, by simp, ?_⟩
      · exact List.forall_mem_singleton.mpr ⟨signal, head, rfl⟩
      · exact (List.append_nil _).trans (addGate_grants refused)
    · obtain ⟨entries, path, gates, calls, grants⟩ := ih later
      refine ⟨⟨.gate .or signal head, _, before⟩ :: entries,
        .cons ((returns_reply _).mpr ⟨_, first, rfl⟩) path, ?_, by simp [calls], ?_⟩
      · exact List.forall_mem_cons.mpr ⟨⟨signal, head, rfl⟩, gates⟩
      · rw [List.filterMap_append, ← addGate_grants first, ← grants]
        rfl

/-- A blocker is turned down before the first gate, or it is a disjunction. -/
theorem exists_path_blocker {signals : List Signal} {reply : Except SessionError Signal}
    (returned : (session.blocker signals).Returns trace (reply, next)) :
    ∃ entries, Path session entries next ∧
      (∀ detail ∈ entries, ∃ left right, detail.operation = .gate .or left right) ∧
      callsOfEntries entries = callsOf trace ∧
      grantsOf entries = trace.filterMap Event.grant? := by
  simp only [blocker, Outcome.returns_bind, Outcome.returns_lift] at returned
  obtain ⟨_, opposed, _, ⟨rfl, _⟩, rest, rfl⟩ := returned
  split at rest
  · obtain ⟨rfl, same⟩ := Outcome.returns_pure.mp rest
    cases same
    exact ⟨[], .nil _, List.forall_mem_nil _, rfl, rfl⟩
  · obtain ⟨rfl, same⟩ := Outcome.returns_pure.mp rest
    cases same
    exact ⟨[], .nil _, List.forall_mem_nil _, rfl, rfl⟩
  · exact exists_path_disjoin rest

omit [Engine ε] in
theorem assertAll_checks {signals : List Signal} :
    signals.forM session.check = .ok () ↔
      ∀ signal ∈ signals, session.circuit.numbering.contains signal = true := by
  induction signals with
  | nil => exact iff_of_true rfl (List.forall_mem_nil _)
  | cons signal rest ih =>
    change (do session.check signal; rest.forM session.check) = .ok () ↔ _
    rw [bind_eq_ok_iff, List.forall_mem_cons, ← ih, ← check_eq_ok_iff]
    exact ⟨fun ⟨_, first, later⟩ => ⟨first, later⟩, fun ⟨first, later⟩ => ⟨(), first, later⟩⟩

omit [Engine ε] in
theorem Facts.foldl_after_gates {entries : List Entry} (facts : Facts)
    (gates : ∀ detail ∈ entries, ∃ left right, detail.operation = .gate .or left right) :
    entries.foldl Facts.after facts = facts := by
  induction entries generalizing facts with
  | nil => rfl
  | cons entry rest ih =>
    obtain ⟨⟨left, right, gate⟩, others⟩ := List.forall_mem_cons.mp gates
    obtain ⟨operation, reply, trace⟩ := entry
    obtain rfl : operation = _ := gate
    rw [List.foldl_cons, ih _ others]
    cases reply <;> rfl

omit [Engine ε] in
theorem inputCount_of_none {entries : List Entry}
    (none : ∀ entry ∈ entries, entry.operation ≠ .input) : inputCount entries = 0 :=
  List.count_eq_zero.mpr fun member => by
    obtain ⟨entry, among, same⟩ := List.mem_map.mp member
    exact none entry among same

omit [Engine ε] in
/-- Requests other than solves give no verdict. -/
theorem Entry.verdict?_of_quiet {entry : Entry} (quiet : entry.operation ≠ .solve) :
    entry.verdict? = none := by
  obtain ⟨operation, reply, trace⟩ := entry
  cases operation with
  | solve => exact absurd rfl quiet
  | _ => rfl

omit [Engine ε] in
theorem verdicts_of_quiet {entries : List Entry}
    (quiet : ∀ entry ∈ entries, entry.operation ≠ .solve) :
    entries.filterMap Entry.verdict? = [] :=
  List.filterMap_eq_nil_iff.mpr fun entry member => Entry.verdict?_of_quiet (quiet entry member)

theorem Details.of_asserts {signals : List Signal} {entries : List Entry} {trace : List Event}
    {answer : Answer} (asserts : ∀ detail ∈ entries, ∃ signal, detail.operation = .assert signal)
    (calls : callsOfEntries entries = callsOf trace) (asserted : everAsserted entries = signals)
    (facts : ∀ facts : Facts, entries.foldl Facts.after facts =
      { facts with asserted := signals.foldl noted facts.asserted }) :
    Details [⟨.assertAll signals, .ok answer, trace⟩] entries where
  plain detail member := by
    obtain ⟨_, same⟩ := asserts detail member
    rw [same]
    rfl
  calls := by simp [calls]
  facts := facts
  asserts := asserted.trans (List.append_nil signals).symm
  assumes := List.flatMap_eq_nil_iff.mpr fun detail member => by
    obtain ⟨operation, reply, _⟩ := detail
    obtain ⟨_, rfl⟩ : ∃ signal, operation = .assert signal := asserts _ member
    cases reply <;> rfl
  quiet _ detail member := by
    obtain ⟨_, same⟩ := asserts detail member
    simp [same]
  verdicts := verdicts_of_quiet fun detail member => by
    obtain ⟨_, same⟩ := asserts detail member
    simp [same]
  inputs := inputCount_of_none fun detail member => by
    obtain ⟨_, same⟩ := asserts detail member
    simp [same]
  grants := List.flatMap_eq_nil_iff.mpr fun detail member => by
    obtain ⟨operation, reply, _⟩ := detail
    obtain ⟨_, rfl⟩ : ∃ signal, operation = .assert signal := asserts _ member
    rfl
  built _ := by
    refine List.filter_eq_nil_iff.mpr (List.forall_mem_map.mpr fun detail member => ?_)
    obtain ⟨_, same⟩ := asserts detail member
    simp [same, Operation.builds]

omit [Engine ε] in
theorem Entry.idle_of_gate {entry : Entry} {connective : Connective} {left right : Signal}
    (gate : entry.operation = .gate connective left right) :
    entry.asserts = [] ∧ entry.assumes = [] := by
  obtain ⟨operation, reply, _⟩ := entry
  obtain rfl : operation = _ := gate
  cases reply <;> exact ⟨rfl, rfl⟩

theorem Details.of_gates {signals : List Signal} {entries : List Entry} {trace : List Event}
    {reply : Except SessionError Answer}
    (gates : ∀ detail ∈ entries, ∃ left right, detail.operation = .gate .or left right)
    (calls : callsOfEntries entries = callsOf trace)
    (grants : grantsOf entries = trace.filterMap Event.grant?) :
    Details [⟨.block signals, reply, trace⟩] entries where
  plain detail member := by
    obtain ⟨_, _, same⟩ := gates detail member
    rw [same]
    rfl
  calls := by simp [calls]
  facts facts := by
    rw [Facts.foldl_after_gates facts gates]
    cases reply <;> rfl
  asserts := by
    have none : everAsserted entries = [] := List.flatMap_eq_nil_iff.mpr fun detail member => by
      obtain ⟨_, _, gate⟩ := gates detail member
      exact (Entry.idle_of_gate gate).1
    rw [none]
    cases reply <;> rfl
  assumes := by
    have none : everAssumed entries = [] := List.flatMap_eq_nil_iff.mpr fun detail member => by
      obtain ⟨_, _, gate⟩ := gates detail member
      exact (Entry.idle_of_gate gate).2
    rw [none]
    cases reply <;> rfl
  quiet _ detail member := by
    obtain ⟨_, _, same⟩ := gates detail member
    simp [same]
  verdicts := verdicts_of_quiet fun detail member => by
    obtain ⟨_, _, same⟩ := gates detail member
    simp [same]
  inputs := inputCount_of_none fun detail member => by
    obtain ⟨_, _, same⟩ := gates detail member
    simp [same]
  grants := grants.trans (List.append_nil _).symm
  built unblocked := absurd rfl (unblocked _ List.mem_cons_self signals)

/-- A request that is not plain is a path of plain ones. -/
theorem Step.refine {entry : Entry} (step : Step session entry next) :
    ∃ details, Path session details next ∧ Details [entry] details := by
  cases plain : entry.operation.isPlain with
  | true => exact ⟨[entry], .one step, .itself plain⟩
  | false =>
    obtain ⟨operation, reply, trace⟩ := entry
    cases operation with
    | assertAll signals =>
      obtain ⟨result, returned, rfl⟩ := (returns_reply _).mp step
      unfold assertAll at returned
      split at returned
      · obtain ⟨rfl, same⟩ := Outcome.returns_pure.mp returned
        cases same
        exact ⟨[], .nil _, .refused rfl⟩
      · next valid =>
        obtain ⟨rfl, entries, path, asserts, calls, asserted, facts⟩ :=
          exists_path_assertEach (assertAll_checks.mp valid) returned
        exact ⟨entries, path, .of_asserts asserts calls asserted facts⟩
    | block signals =>
      obtain ⟨result, returned, rfl⟩ := (returns_reply _).mp step
      obtain ⟨entries, path, gates, calls, grants⟩ := exists_path_blocker returned
      exact ⟨entries, path, .of_gates gates calls grants⟩
    | _ => contradiction

/-- A path of requests is a path of plain ones that comes to the same. -/
theorem Path.refine {first last : Session ε} {entries : List Entry}
    (path : Path first entries last) :
    ∃ details, Path first details last ∧ Details entries details := by
  induction path with
  | nil session =>
    exact ⟨[], .nil session, by simp, rfl, fun _ => rfl, rfl, rfl, fun other => other, rfl, rfl,
      rfl, fun _ => rfl⟩
  | cons step _ ih =>
    obtain ⟨some, front, details⟩ := step.refine
    obtain ⟨others, back, more⟩ := ih
    exact ⟨some ++ others, front.append back, details.append more⟩

end Session

end CircuitSat
