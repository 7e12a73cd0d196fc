import CircuitSat.Engine.Scripted
import CircuitSat.Proofs.Circuit.Blueprint
import CircuitSat.Proofs.Session.Blocking

/-! # Equal requests share a gate

A circuit has just the gates that were granted, those of blockers included, and otherwise inputs.
Two grants are of one gate exactly if they are for the same connective and the same operands, in
either order. So nothing is built twice, and no two functions are merged.
-/

namespace CircuitSat

namespace Signature

theorem connective_of (left : Signal) (connective : Connective) (right : Signal) :
    (of left connective right).connective = connective := by
  unfold of
  split <;> rfl

theorem of_comm (left : Signal) (connective : Connective) (right : Signal) :
    of left connective right = of right connective left := by
  unfold of
  by_cases ascending : left ≤ right
  · by_cases descending : right ≤ left
    · have same : left = right := congrArg Signal.mk (Int32.le_antisymm ascending descending)
      rw [same]
    · rw [if_pos ascending, if_neg descending]
  · have descending : right ≤ left :=
      (Int32.le_total left.code right.code).resolve_left ascending
    rw [if_neg ascending, if_pos descending]

/-- A signature tells the connective, and the operands up to their order. -/
theorem of_eq_of_iff {left right left' right' : Signal} {connective connective' : Connective} :
    of left connective right = of left' connective' right' ↔ connective = connective' ∧
      (left = left' ∧ right = right' ∨ left = right' ∧ right = left') := by
  constructor
  · intro same
    refine ⟨?_, ?_⟩
    · rw [← connective_of left connective right, same, connective_of]
    · have first := operands_of left connective right
      rw [same] at first
      rcases first with ⟨rfl, rfl⟩ | ⟨rfl, rfl⟩
      · exact (operands_of left' connective' right').imp id id
      · exact (operands_of left' connective' right').symm.imp And.symm And.symm
  · rintro ⟨rfl, ⟨rfl, rfl⟩ | ⟨rfl, rfl⟩⟩
    · rfl
    · exact of_comm _ _ _

end Signature

namespace Blueprint

/-- The gates are those that were granted, and all other variables are inputs. -/
structure Supplies (plan : Blueprint) (inputs : Nat) (grants : List Grant) : Prop where
  granted {grant : Grant} (member : grant ∈ grants) :
    ⟨grant.signature, grant.output, none⟩ ∈ plan.gates
  requested {gate : Gate} (member : gate ∈ plan.gates) :
    gate.signature ∈ grants.map Grant.signature
  numCircuit : plan.numCircuit = inputs + plan.gates.size

namespace Supplies

variable {plan : Blueprint} {inputs : Nat} {grants : List Grant}

theorem empty : Blueprint.empty.Supplies 0 [] where
  granted member := absurd member List.not_mem_nil
  requested member := absurd member (Array.not_mem_empty _)
  numCircuit := rfl

theorem addInput (supplies : plan.Supplies inputs grants) :
    plan.addInput.Supplies (inputs + 1) grants where
  granted := supplies.granted
  requested := supplies.requested
  numCircuit := by
    have before := supplies.numCircuit
    simp only [Blueprint.addInput]
    omega

/-- A gate that was granted before is granted again. -/
theorem again (supplies : plan.Supplies inputs grants) (grant : Grant)
    (built : ⟨grant.signature, grant.output, none⟩ ∈ plan.gates) :
    plan.Supplies inputs (grants ++ [grant]) where
  granted member := by
    rcases List.mem_append.mp member with before | last
    · exact supplies.granted before
    · obtain rfl := List.mem_singleton.mp last
      exact built
  requested member := by
    rw [List.map_append]
    exact List.mem_append_left _ (supplies.requested member)
  numCircuit := supplies.numCircuit

theorem push (supplies : plan.Supplies inputs grants) (grant : Grant) :
    Supplies ⟨plan.numCircuit + 1, plan.gates.push ⟨grant.signature, grant.output, none⟩⟩ inputs
      (grants ++ [grant]) where
  granted member := by
    rcases List.mem_append.mp member with before | last
    · exact Array.mem_push.mpr (.inl (supplies.granted before))
    · obtain rfl := List.mem_singleton.mp last
      exact Array.mem_push.mpr (.inr rfl)
  requested member := by
    rw [List.map_append, List.mem_append]
    rcases Array.mem_push.mp member with before | rfl
    · exact .inl (supplies.requested before)
    · exact .inr (List.mem_singleton.mpr rfl)
  numCircuit := by
    have before := supplies.numCircuit
    rw [Array.size_push]
    dsimp only
    omega

end Supplies

end Blueprint

namespace Circuit

variable {circuit : Circuit} {inputs : Nat} {grants : List Grant}

theorem exists_granted (supplies : circuit.blueprint.Supplies inputs grants) {grant : Grant}
    (member : grant ∈ grants) : ∃ gate ∈ circuit.netlist.gates,
      gate.signature = grant.signature ∧ gate.output = grant.output := by
  obtain ⟨gate, present, same⟩ := Array.mem_map.mp (supplies.granted member)
  injection same with signature output
  exact ⟨gate, present, signature, output⟩

/-- Grants are of one gate exactly if they have one signature. -/
theorem WellFormed.output_eq_iff (valid : circuit.WellFormed)
    (supplies : circuit.blueprint.Supplies inputs grants) {first second : Grant}
    (left : first ∈ grants) (right : second ∈ grants) :
    first.output = second.output ↔ first.signature = second.signature := by
  obtain ⟨gate, present, signature, output⟩ := exists_granted supplies left
  obtain ⟨other, among, signature', output'⟩ := exists_granted supplies right
  rw [← signature, ← signature', ← output, ← output']
  constructor
  · intro same
    rw [valid.indexed.eq_of_output present among (congrArg Signal.var same)]
  · intro same
    obtain ⟨index, found⟩ := Array.mem_iff_getElem?.mp present
    obtain ⟨position, located⟩ := Array.mem_iff_getElem?.mp among
    obtain rfl := valid.indexed.distinct found located same
    rw [Option.some.inj (found.symm.trans located)]

/-- There are as many gates as signatures were granted. -/
theorem WellFormed.size_of_supplies (valid : circuit.WellFormed)
    (supplies : circuit.blueprint.Supplies inputs grants) :
    circuit.netlist.size = (grants.map Grant.signature).eraseDups.length := by
  have distinct : (circuit.netlist.gates.toList.map Gate.signature).Nodup := by
    rw [List.nodup_iff_pairwise_ne, List.pairwise_map, List.pairwise_iff_getElem]
    intro left right first second ascending same
    have equal := valid.indexed.distinct (Array.getElem?_eq_getElem first)
      (Array.getElem?_eq_getElem second) same
    omega
  -- No signature is repeated on either side, so it is enough that both have the same members.
  have same : (circuit.netlist.gates.toList.map Gate.signature).Perm
      (grants.map Grant.signature).eraseDups := by
    rw [List.perm_ext_iff_of_nodup distinct (nodup_eraseDups _)]
    intro signature
    rw [List.mem_eraseDups, List.mem_map]
    constructor
    · rintro ⟨gate, member, rfl⟩
      have built : gate.withLiterals none ∈ circuit.blueprint.gates :=
        Array.mem_map_of_mem (Array.mem_toList_iff.mp member)
      have asked := supplies.requested built
      exact asked
    · intro member
      obtain ⟨grant, among, rfl⟩ := List.mem_map.mp member
      obtain ⟨gate, present, same, _⟩ := exists_granted supplies among
      exact ⟨gate, Array.mem_toList_iff.mpr present, same⟩
  rw [← same.length_eq, List.length_map, Array.length_toList]
  rfl

end Circuit

namespace Session

variable {ε : Type}

/-! ## Grants of a run -/

/-- A chain of disjunctions: each takes the output of the one before and the next signal. -/
structure Chains (signal : Signal) (rest : List Signal) (grants : List Grant) (output : Signal) :
    Prop where
  connective : ∀ grant ∈ grants, grant.connective = .or
  right : grants.map Grant.right = rest
  left : signal :: grants.map Grant.output = grants.map Grant.left ++ [output]

theorem disjoin_chains {session next : Session ε} {signal output : Signal} {rest : List Signal}
    {trace : List Event}
    (returned : (session.disjoin signal rest).Returns trace (.ok output, next)) :
    Chains signal rest (trace.filterMap Event.grant?) output := by
  induction rest generalizing session signal trace with
  | nil =>
    obtain ⟨rfl, same⟩ := Outcome.returns_pure.mp returned
    cases same
    exact ⟨List.forall_mem_nil _, rfl, rfl⟩
  | cons head rest ih =>
    rcases andThen_returns_iff.mp returned with ⟨_, _, failed⟩ |
      ⟨before, middle, _, after, first, later, rfl⟩
    · contradiction
    · have chains := ih later
      have grants : before.filterMap Event.grant? = [⟨.or, signal, head, middle⟩] :=
        (addGate_grants first).symm
      rw [List.filterMap_append, grants]
      refine ⟨List.forall_mem_cons.mpr ⟨rfl, chains.connective⟩, ?_, ?_⟩
      · exact congrArg (head :: ·) chains.right
      · exact congrArg (signal :: ·) chains.left

/-- A blocker is granted the disjunction of the signals, each in one of its polarities. -/
theorem blocker_chains {session next : Session ε} {signals : List Signal} {output : Signal}
    {trace : List Event} (returned : (session.blocker signals).Returns trace (.ok output, next)) :
    ∃ first rest, (first :: rest).map Signal.var = signals.map Signal.var ∧
      Chains first rest (trace.filterMap Event.grant?) output := by
  simp only [blocker, Outcome.returns_bind, Outcome.returns_lift] at returned
  obtain ⟨_, opposed, _, ⟨rfl, found⟩, rest, rfl⟩ := returned
  rcases opposed with error | _ | ⟨first, others⟩
  · cases (Outcome.returns_pure.mp rest).2
  · cases (Outcome.returns_pure.mp rest).2
  · exact ⟨first, others, differing_vars found, disjoin_chains rest⟩

variable [Engine ε]

/-- No plain request adds a gate that it is not granted, and none gets another gate's output. -/
theorem Sound.supplies_step {start : ε} {calls : List Call} {facts : Facts}
    {session next : Session ε} (sound : session.Sound start calls facts) {entry : Entry}
    (plain : entry.operation.isPlain = true)
    (small : next.circuit.numbering.numCircuit ≤ maxVar) (step : Step session entry next)
    {inputs : Nat} {grants : List Grant}
    (supplies : session.circuit.blueprint.Supplies inputs grants) :
    next.circuit.blueprint.Supplies (inputs + inputCount [entry]) (grants ++ grantsOf [entry]) := by
  have idle {circuit : Circuit} (same : circuit.blueprint = session.circuit.blueprint) :
      circuit.blueprint.Supplies (inputs + 0) (grants ++ []) := by
    rwa [List.append_nil, same]
  cases step.effect sound.circuit plain small with
  | input =>
    have grown := supplies.addInput
    rw [← Circuit.blueprint_allot, ← List.append_nil grants] at grown
    exact grown
  | @refused operation _ invalid =>
    cases operation with
    | input => exact absurd (List.forall_mem_nil _) invalid
    | block => contradiction
    | _ => exact idle rfl
  | @found connective left right gate _ _ member same =>
    refine supplies.again ⟨connective, left, right, gate.output⟩ ?_
    exact Array.mem_map.mpr ⟨gate, member, congrArg (Gate.mk · gate.output none) same⟩
  | @built connective left right output circuit _ _ _ _ adds =>
    have grown : circuit.blueprint.Supplies inputs
        (grants ++ [⟨connective, left, right, output⟩]) := by
      rw [adds.blueprint_push]
      exact supplies.push ⟨connective, left, right, output⟩
    exact grown
  | asserted contained mentions | assumed contained mentions =>
    exact idle (sound.withEncoding contained mentions).2.1.blueprint
  | solved returned => exact idle (sound.solve returned).2.blueprint
  | retracted | maxTime | maxConflicts => exact idle rfl

/-- The gates of a session are shared among the grants of its run: two of them gave one output
exactly if they were for the same connective and operands, in either order, and whatever was granted
is granted again, without any change. There are as many gates as different signatures, the other
variables are inputs, and a blocker is granted as a chain of disjunctions. -/
structure Shares (session : Session ε) (entries : List Entry) : Prop where
  output_eq_iff {first second : Grant} (before : first ∈ grantsOf entries)
    (after : second ∈ grantsOf entries) : first.output = second.output ↔
      first.connective = second.connective ∧
        (first.left = second.left ∧ first.right = second.right ∨
          first.left = second.right ∧ first.right = second.left)
  granted_again {grant : Grant} (member : grant ∈ grantsOf entries) {connective : Connective}
    {left right : Signal} (same : Signature.of left connective right = grant.signature) :
    (session.addGate connective left right).Returns
      [.log (.gateBuilt connective left right grant.output true)] (.ok grant.output, session)
  gates : session.statistics.gates = ((grantsOf entries).map Grant.signature).eraseDups.length
  circuitVars : session.statistics.circuitVars = inputCount entries + session.statistics.gates
  blocked {entry : Entry} (member : entry ∈ entries) {signals : List Signal} {output : Signal}
    (operation : entry.operation = .block signals) (reply : entry.reply = .ok (.signal output)) :
    ∃ first rest, (first :: rest).map Signal.var = signals.map Signal.var ∧
      Chains first rest entry.grants output

omit [Engine ε] in
/-- A request for a signature that has a gate is answered with its output. -/
theorem addGate_of_built {session : Session ε} (valid : session.circuit.WellFormed) {gate : Gate}
    (built : gate ∈ session.circuit.netlist.gates) {connective : Connective} {left right : Signal}
    (same : gate.signature = .of left connective right) :
    (session.addGate connective left right).Returns
      [.log (.gateBuilt connective left right gate.output true)] (.ok gate.output, session) := by
  have found := (gateOf?_eq_some_iff valid).mpr ⟨built, same⟩
  have wired := valid.wired built
  have first := wired.contains_left
  have second := wired.contains_right
  rw [Gate.left, same] at first
  rw [Gate.right, same] at second
  refine (addGate_returns_of_some ?_ found).mpr ⟨rfl, rfl, rfl⟩
  rcases Signature.operands_of left connective right with ⟨atLeft, atRight⟩ | ⟨atLeft, atRight⟩
  · exact ⟨atLeft ▸ first, atRight ▸ second⟩
  · exact ⟨atRight ▸ second, atLeft ▸ first⟩

theorem Run.supplies {engine : ε} {settings : Settings} {entries : List Entry}
    {session : Session ε} (run : Run engine settings entries session)
    (small : session.circuit.numbering.numCircuit ≤ maxVar) :
    session.circuit.blueprint.Supplies (inputCount entries) (grantsOf entries) := by
  obtain ⟨details, same, supplies⟩ := run.plain_induction small
    (motive := fun front session =>
      session.circuit.blueprint.Supplies (inputCount front) (grantsOf front))
    (fun started => by
      obtain ⟨_, _, _, rfl⟩ := start_returns started
      exact Circuit.blueprint_empty ▸ .empty)
    fun sound plain small step supplies => by
      rw [inputCount_append, grantsOf_append]
      exact sound.supplies_step plain small step supplies
  rwa [same.inputs, same.grants] at supplies

/-- In every state of a run, whatever came between the requests for gates, these share their gates
just as far as they are for the same. -/
theorem sharing_exact {engine : ε} {settings : Settings} {entries : List Entry}
    {session : Session ε} (run : Run engine settings entries session)
    (small : session.circuit.numbering.numCircuit ≤ maxVar) : session.Shares entries := by
  obtain ⟨calls, sound⟩ := run.sound small
  have supplies := run.supplies small
  have gates := sound.circuit.size_of_supplies supplies
  refine ⟨fun before after => ?_, fun member _ _ _ same => ?_, gates, ?_,
    fun {entry} member signals output block granted => ?_⟩
  · rw [sound.circuit.output_eq_iff supplies before after]
    exact Signature.of_eq_of_iff
  · obtain ⟨gate, built, signature, output⟩ := Circuit.exists_granted supplies member
    rw [← output]
    exact addGate_of_built sound.circuit built (signature.trans same.symm)
  · have counted := supplies.numCircuit
    simp only [Circuit.blueprint, Array.size_map] at counted
    exact counted
  · obtain ⟨_, path⟩ := run
    obtain ⟨before, after, step⟩ := path.exists_step member
    obtain ⟨_, _, trace⟩ := entry
    obtain rfl : _ = Operation.block signals := block
    obtain rfl : _ = Except.ok (Answer.signal output) := granted
    obtain ⟨answer, returned, same⟩ := (returns_reply _).mp step
    cases answer <;> cases same
    exact blocker_chains returned

/-- A conjunction asked for in both orders around a solve, and a disjunction asked for after a
blocker built it. -/
theorem sharing_exact_of_blocker : ∃ entries session,
    Run (Scripted.create [.claim [true, true, true]]) .standard entries session ∧
    entries.map Entry.operation = [.input, .input, .gate .and ⟨1⟩ ⟨2⟩, .assert ⟨3⟩, .solve,
      .block [⟨1⟩, ⟨2⟩, ⟨3⟩], .gate .and ⟨2⟩ ⟨1⟩, .gate .or ⟨-2⟩ ⟨-1⟩, .gate .or ⟨1⟩ ⟨2⟩,
      .gate .xor ⟨2⟩ ⟨-2⟩, .gate .nor ⟨0⟩ ⟨1⟩] ∧
    (session.circuit.numbering.numCircuit ≤ maxVar ∧
      grantsOf entries = [⟨.and, ⟨1⟩, ⟨2⟩, ⟨3⟩⟩, ⟨.or, ⟨-1⟩, ⟨-2⟩, ⟨4⟩⟩, ⟨.or, ⟨4⟩, ⟨-3⟩, ⟨5⟩⟩,
        ⟨.and, ⟨2⟩, ⟨1⟩, ⟨3⟩⟩, ⟨.or, ⟨-2⟩, ⟨-1⟩, ⟨4⟩⟩, ⟨.or, ⟨1⟩, ⟨2⟩, ⟨6⟩⟩,
        ⟨.xor, ⟨2⟩, ⟨-2⟩, ⟨7⟩⟩]) ∧
    session.Shares entries := by
  refine exists_run_of (by decide +kernel) fun entries session run _ found => ?_
  exact sharing_exact run found.1

end Session

end CircuitSat
