import CircuitSat.Proofs.Entailment
import CircuitSat.Proofs.Session.Run

/-! # What each request does

A request that returned was turned down, and then it left the session as it was, or it did what is
said here. Nothing is assumed of the session or of the engine.
-/

namespace CircuitSat

namespace Session

variable {ε : Type} {session next : Session ε} {trace : List Event}

/-! ## Building -/

theorem addInput_returns {signal : Signal}
    (returned : session.addInput.Returns trace (signal, next)) :
    trace = [] ∧ signal = .ofVar (session.circuit.numbering.numCircuit + 1) ∧
      next = { session with encoding.circuit := session.circuit.allot } := by
  simp only [addInput, Outcome.returns_bind, Outcome.returns_lift, Outcome.returns_pure,
    Prod.mk.injEq] at returned
  obtain ⟨_, ⟨_, circuit⟩, _, ⟨rfl, allocated⟩, ⟨rfl, rfl, rfl⟩, rfl⟩ := returned
  obtain ⟨rfl, rfl⟩ := Circuit.allocate_eq_ok allocated
  exact ⟨rfl, rfl, rfl⟩

theorem exists_addInput (room : session.circuit.numbering.numCircuit < maxVar) :
    ∃ signal next, session.addInput.Returns [] (signal, next) := by
  simp only [addInput, Outcome.returns_bind, Outcome.returns_lift, Outcome.returns_pure]
  exact ⟨_, _, [], _, [], ⟨rfl, Circuit.allocate_of_room room⟩, ⟨rfl, rfl⟩, rfl⟩

theorem insertGate_returns_iff {signature : Signature} {output : Signal} :
    (session.insertGate signature).Returns trace (output, next) ↔
      trace = [] ∧ ∃ allotted index circuit, session.circuit.allocate = .ok (output, allotted) ∧
        allotted.insert signature output = .ok (index, circuit) ∧
        next = { session with
          encoding.circuit := circuit
          valuation := session.valuation.withGate ⟨signature, output, none⟩ } := by
  simp only [insertGate, Outcome.returns_bind, Outcome.returns_lift, Outcome.returns_pure,
    Prod.mk.injEq]
  constructor
  · rintro ⟨_, ⟨_, allotted⟩, _, ⟨rfl, allocated⟩, ⟨_, ⟨index, circuit⟩, _, ⟨rfl, inserted⟩,
      ⟨rfl, rfl, rfl⟩, rfl⟩, rfl⟩
    exact ⟨rfl, allotted, index, circuit, allocated, inserted, rfl⟩
  · rintro ⟨rfl, allotted, index, circuit, allocated, inserted, rfl⟩
    exact ⟨[], (output, allotted), [], ⟨rfl, allocated⟩, ⟨[], (index, circuit), [],
      ⟨rfl, inserted⟩, ⟨rfl, rfl, rfl⟩, rfl⟩, rfl⟩

/-- The gate of a signature, by the index of users. -/
def gateOf? (session : Session ε) (signature : Signature) : Option Gate :=
  session.circuit.netlist.find? signature >>= (session.circuit.netlist.gates[·]?)

/-- How many variables a request for a gate takes. -/
def gateDemand (session : Session ε) (connective : Connective) (left right : Signal) : Nat :=
  if (session.circuit.numbering.contains left = true ∧
      session.circuit.numbering.contains right = true) ∧
      session.gateOf? (.of left connective right) = none then 1 else 0

section Gate

variable {connective : Connective} {left right : Signal}

theorem checks_eq_ok_iff :
    (do session.check left; session.check right : Except SessionError Unit) = .ok () ↔
      session.circuit.numbering.contains left = true ∧
        session.circuit.numbering.contains right = true := by
  simp only [bind_eq_ok_iff, check_eq_ok_iff]
  constructor
  · rintro ⟨_, first, second⟩
    exact ⟨check_eq_ok_iff.mp first, second⟩
  · rintro ⟨first, second⟩
    exact ⟨(), check_eq_ok_iff.mpr first, second⟩

/-- A gate that is there is given again. -/
theorem addGate_returns_of_some {gate : Gate} {reply : Except SessionError Signal}
    (contained : session.circuit.numbering.contains left = true ∧
      session.circuit.numbering.contains right = true)
    (found : session.gateOf? (.of left connective right) = some gate) :
    (session.addGate connective left right).Returns trace (reply, next) ↔
      trace = [.log (.gateBuilt connective left right gate.output true)] ∧
        reply = .ok gate.output ∧ next = session := by
  simp only [addGate, checks_eq_ok_iff.mpr contained]
  rw [← gateOf?, found]
  simp only [Outcome.returns_bind, Outcome.returns_emit, Outcome.returns_pure, Prod.mk.injEq]
  constructor
  · rintro ⟨_, _, _, rfl, ⟨rfl, rfl, rfl⟩, rfl⟩
    exact ⟨rfl, rfl, rfl⟩
  · rintro ⟨rfl, rfl, rfl⟩
    exact ⟨_, (), [], rfl, ⟨rfl, rfl, rfl⟩, rfl⟩

/-- A gate that is not there is built. -/
theorem addGate_returns_of_none {reply : Except SessionError Signal}
    (contained : session.circuit.numbering.contains left = true ∧
      session.circuit.numbering.contains right = true)
    (missing : session.gateOf? (.of left connective right) = none) :
    (session.addGate connective left right).Returns trace (reply, next) ↔
      ∃ output, trace = [.log (.gateBuilt connective left right output false)] ∧
        reply = .ok output ∧
        (session.insertGate (.of left connective right)).Returns [] (output, next) := by
  simp only [addGate, checks_eq_ok_iff.mpr contained]
  rw [← gateOf?, missing]
  simp only [Outcome.returns_bind, Outcome.returns_emit, Outcome.returns_pure, Prod.mk.injEq]
  constructor
  · rintro ⟨_, ⟨output, built⟩, _, inserted, ⟨_, _, _, rfl, ⟨rfl, rfl, rfl⟩, rfl⟩, rfl⟩
    obtain rfl := (insertGate_returns_iff.mp inserted).1
    exact ⟨output, rfl, rfl, inserted⟩
  · rintro ⟨output, rfl, rfl, inserted⟩
    exact ⟨[], (output, next), _, inserted, ⟨_, (), [], rfl, ⟨rfl, rfl, rfl⟩, rfl⟩, rfl⟩

/-- A request over signals that are not valid is turned down. -/
theorem addGate_of_invalid (connective : Connective)
    (invalid : ¬(session.circuit.numbering.contains left = true ∧
      session.circuit.numbering.contains right = true)) :
    ∃ error, session.addGate connective left right = pure (.error error, session) := by
  unfold addGate
  split
  · next error _ => exact ⟨error, rfl⟩
  · next valid => exact absurd (checks_eq_ok_iff.mp valid) invalid

theorem gateOf?_eq_some_iff (valid : session.circuit.WellFormed) {signature : Signature}
    {gate : Gate} : session.gateOf? signature = some gate ↔
      gate ∈ session.circuit.netlist.gates ∧ gate.signature = signature := by
  simp only [gateOf?, bind, Option.bind_eq_some_iff, valid.indexed.find?_eq_some_iff,
    Array.mem_iff_getElem?]
  constructor
  · rintro ⟨index, ⟨other, present, same⟩, found⟩
    obtain rfl := Option.some.inj (present.symm.trans found)
    exact ⟨⟨index, found⟩, same⟩
  · rintro ⟨⟨index, present⟩, same⟩
    exact ⟨index, ⟨gate, present, same⟩, present⟩

theorem find?_of_gateOf? (valid : session.circuit.WellFormed) {signature : Signature}
    (missing : session.gateOf? signature = none) :
    session.circuit.netlist.find? signature = none := by
  rw [valid.indexed.find?_eq_none_iff]
  intro gate member same
  rw [(gateOf?_eq_some_iff valid).mpr ⟨member, same⟩] at missing
  contradiction

theorem contains_signature (connective : Connective)
    (contained : session.circuit.numbering.contains left = true ∧
      session.circuit.numbering.contains right = true) :
    session.circuit.numbering.contains (Signature.of left connective right).left = true ∧
      session.circuit.numbering.contains (Signature.of left connective right).right = true := by
  unfold Signature.of
  split
  · exact contained
  · exact contained.symm

/-- A request for a gate asks nothing of the engine. -/
theorem addGate_silent {reply : Except SessionError Signal}
    (returned : (session.addGate connective left right).Returns trace (reply, next)) :
    callsOf trace = [] := by
  by_cases contained : session.circuit.numbering.contains left = true ∧
      session.circuit.numbering.contains right = true
  · cases found : session.gateOf? (.of left connective right) with
    | some gate =>
      obtain ⟨rfl, _⟩ := (addGate_returns_of_some contained found).mp returned
      rfl
    | none =>
      obtain ⟨_, rfl, _⟩ := (addGate_returns_of_none contained found).mp returned
      rfl
  · obtain ⟨error, refused⟩ := addGate_of_invalid connective contained
    rw [refused] at returned
    obtain ⟨rfl, _⟩ := Outcome.returns_pure.mp returned
    rfl

/-- A request for a gate logs just the gate that it is granted. -/
theorem addGate_grants {reply : Except SessionError Signal}
    (returned : (session.addGate connective left right).Returns trace (reply, next)) :
    (⟨.gate connective left right, reply.map .signal, trace⟩ : Entry).grants =
      trace.filterMap Event.grant? := by
  by_cases contained : session.circuit.numbering.contains left = true ∧
      session.circuit.numbering.contains right = true
  · cases found : session.gateOf? (.of left connective right) with
    | some gate =>
      obtain ⟨rfl, rfl, _⟩ := (addGate_returns_of_some contained found).mp returned
      rfl
    | none =>
      obtain ⟨_, rfl, rfl, _⟩ := (addGate_returns_of_none contained found).mp returned
      rfl
  · obtain ⟨error, refused⟩ := addGate_of_invalid connective contained
    rw [refused] at returned
    obtain ⟨rfl, same⟩ := Outcome.returns_pure.mp returned
    cases same
    rfl

/-- No gate is built on a variable too large for a positive signal. -/
theorem insertGate_room {signature : Signature} {output : Signal}
    (small : session.circuit.numbering.numCircuit ≤ maxVar)
    (inserted : (session.insertGate signature).Returns trace (output, next)) :
    session.circuit.numbering.numCircuit < maxVar := by
  obtain ⟨_, allotted, index, circuit, allocated, done, rfl⟩ := insertGate_returns_iff.mp inserted
  obtain ⟨rfl, rfl⟩ := Circuit.allocate_eq_ok allocated
  simp only [Circuit.insert, bind_eq_ok_iff, pure_eq_ok_iff, Prod.exists] at done
  obtain ⟨_, _, placed, _⟩ := done
  obtain ⟨_, positive, _⟩ := Netlist.insert_eq_ok_iff placed
  rcases Nat.lt_or_eq_of_le small with less | full
  · exact less
  · rw [full] at positive
    exact absurd positive (by decide)

/-- In a well-formed circuit a gate that is not there is added on the newest variable. -/
theorem insertGate_adds (valid : session.circuit.WellFormed)
    (small : next.circuit.numbering.numCircuit ≤ maxVar) {output : Signal}
    (contained : session.circuit.numbering.contains left = true ∧
      session.circuit.numbering.contains right = true)
    (missing : session.gateOf? (.of left connective right) = none)
    (inserted : (session.insertGate (.of left connective right)).Returns trace (output, next)) :
    ∃ circuit, session.circuit.Adds (.of left connective right) output circuit ∧
      next = { session with
        encoding.circuit := circuit
        valuation := session.valuation.withGate ⟨.of left connective right, output, none⟩ } := by
  obtain ⟨_, allotted, index, circuit, allocated, done, rfl⟩ := insertGate_returns_iff.mp inserted
  obtain ⟨rfl, rfl⟩ := Circuit.allocate_eq_ok allocated
  have room : session.circuit.numbering.numCircuit < maxVar := by
    have size : circuit.numbering.numCircuit = session.circuit.numbering.numCircuit + 1 := by
      rw [Circuit.insert_numbering done, Circuit.numCircuit_allot]
    change circuit.numbering.numCircuit ≤ maxVar at small
    omega
  obtain ⟨leftContained, rightContained⟩ := contains_signature connective contained
  obtain ⟨_, other, again, adds⟩ := valid.exists_adds room leftContained rightContained
    (find?_of_gateOf? valid missing)
  rw [again] at done
  cases done
  exact ⟨circuit, adds, rfl⟩

/-- A request for a gate over allocated operands is granted as long as there are variables. -/
theorem exists_addGate (valid : session.circuit.WellFormed) (connective : Connective)
    (contained : session.circuit.numbering.contains left = true ∧
      session.circuit.numbering.contains right = true)
    (room : session.circuit.numbering.numCircuit + session.gateDemand connective left right ≤
      maxVar) :
    ∃ trace output next, (session.addGate connective left right).Returns trace (.ok output, next) ∧
      ∃ gate ∈ next.circuit.netlist.gates,
        gate.signature = .of left connective right ∧ gate.output = output := by
  cases found : session.gateOf? (.of left connective right) with
  | some gate =>
    obtain ⟨member, same⟩ := (gateOf?_eq_some_iff valid).mp found
    exact ⟨_, gate.output, session,
      (addGate_returns_of_some contained found).mpr ⟨rfl, rfl, rfl⟩, gate, member, same, rfl⟩
  | none =>
    rw [gateDemand, if_pos ⟨contained, found⟩] at room
    obtain ⟨leftContained, rightContained⟩ := contains_signature connective contained
    have space : session.circuit.numbering.numCircuit < maxVar := by omega
    obtain ⟨index, circuit, inserted, adds⟩ := valid.exists_adds space leftContained
      rightContained (find?_of_gateOf? valid found)
    refine ⟨_, _, _, (addGate_returns_of_none contained found).mpr ⟨_, rfl, rfl,
      insertGate_returns_iff.mpr ⟨rfl, _, index, circuit, Circuit.allocate_of_room space, inserted,
        rfl⟩⟩, ⟨.of left connective right, _, none⟩, ?_, rfl, rfl⟩
    exact adds.mem_iff.mpr (.inr rfl)

end Gate

/-! ## Asking for literals -/

section Literals

variable {signal : Signal} {literal : Literal}

theorem literal?_of_contained (contained : session.circuit.numbering.contains signal = true) :
    session.literal? signal = .ok <$> session.circuit.numbering.lookup signal := by
  rw [literal?, check_eq_ok_iff.mpr contained]

/-- The literal of a signal is given exactly if it has one. -/
theorem exists_literal? (valid : session.circuit.WellFormed)
    (contained : session.circuit.numbering.contains signal = true) :
    ∃ found, session.literal? signal = .ok (.ok found) ∧ (found.isSome = true ↔
      ∃ image, session.circuit.numbering.image? signal.var = some image) := by
  obtain ⟨found, looked, denoted, unmapped⟩ :=
    Numbering.lookup_spec valid.numbering valid.small signal
  refine ⟨found, by rw [literal?_of_contained contained, looked]; rfl, ?_⟩
  cases found with
  | none => simp [unmapped rfl]
  | some literal =>
    have mapped := ((denoted literal).mp rfl).1
    exact iff_of_true rfl ⟨_, mapped⟩

theorem literal?_of_denotes (valid : session.circuit.WellFormed)
    (denotes : session.circuit.numbering.Denotes literal signal) :
    session.literal? signal = .ok (.ok (some literal)) := by
  obtain ⟨found, looked, denoted, _⟩ := Numbering.lookup_spec valid.numbering valid.small signal
  obtain rfl := (denoted literal).mpr denotes
  rw [literal?_of_contained denotes.contained, looked]
  rfl

end Literals

/-! ## Asserting and assuming -/

section Facts

variable {signal : Signal} {reply : Except SessionError Unit}

/-- The literals on other variables than that of a literal, if there is one. -/
def without (literals : List Literal) : Option Literal → List Literal
  | none => literals
  | some literal => literals.filter (·.var ≠ literal.var)

theorem retract_returns (returned : (session.retract signal).Returns trace (reply, next)) :
    trace = [] ∧ (session.circuit.numbering.contains signal = false ∧
        (∃ error, reply = .error error) ∧ next = session ∨
      session.circuit.numbering.contains signal = true ∧ reply = .ok () ∧
        ∃ found, session.circuit.numbering.lookup signal = .ok found ∧
          next = { session with assumptions := without session.assumptions found }) := by
  unfold retract at returned
  split at returned
  · next error failed =>
    obtain ⟨rfl, same⟩ := Outcome.returns_pure.mp returned
    cases same
    exact ⟨rfl, .inl ⟨invalid_of_check failed, ⟨error, rfl⟩, rfl⟩⟩
  · next valid =>
    rw [Outcome.returns_bind] at returned
    obtain ⟨_, found, _, lifted, rest, rfl⟩ := returned
    obtain ⟨rfl, looked⟩ := Outcome.returns_lift.mp lifted
    clear lifted
    have contained := check_eq_ok_iff.mp valid
    cases found <;> obtain ⟨rfl, same⟩ := Outcome.returns_pure.mp rest <;> cases same <;>
      exact ⟨rfl, .inr ⟨contained, rfl, _, looked, rfl⟩⟩

/-- A signal is retracted if it is valid, whether it was assumed or not. -/
theorem exists_retract (valid : session.circuit.WellFormed)
    (contained : session.circuit.numbering.contains signal = true) :
    ∃ next, (session.retract signal).Returns [] (.ok (), next) := by
  obtain ⟨found, looked, _⟩ := Numbering.lookup_spec valid.numbering valid.small signal
  simp only [retract, check_eq_ok_iff.mpr contained, looked]
  cases found <;> exact ⟨_, rfl⟩

variable [Engine ε]

theorem cover_returns (returned : (session.cover signal).Returns trace next) :
    ∃ count encoding, (session.encoding.cover signal).Returns trace (count, encoding) ∧
      next = { session with encoding } := by
  simp only [cover, Outcome.returns_bind, Outcome.returns_pure] at returned
  obtain ⟨_, ⟨count, encoding⟩, _, covered, ⟨rfl, rfl⟩, rfl⟩ := returned
  exact ⟨count, encoding, by rwa [List.append_nil], rfl⟩

/-- Covering comes last in any case; a fact that is new is logged and added before. -/
private theorem noted_returns {known : Prop} [Decidable known] {entry : LogEntry}
    {kept added : Session ε}
    (returned : (if known then (do return (.ok (), ← kept.cover signal))
      else (do
        Outcome.emit (.log entry)
        return (.ok (), ← added.cover signal)) : Outcome Event (Reply ε Unit)).Returns
      trace (reply, next)) (alike : added.encoding = kept.encoding) :
    reply = .ok () ∧ ∃ covered count encoding,
      (kept.encoding.cover signal).Returns covered (count, encoding) ∧
      callsOf trace = callsOf covered ∧
      next = if known then { kept with encoding } else { added with encoding } := by
  by_cases holds : known
  · rw [if_pos holds] at returned
    simp only [Outcome.returns_bind, Outcome.returns_pure, Prod.mk.injEq] at returned
    obtain ⟨covered, _, _, done, ⟨rfl, rfl, rfl⟩, rfl⟩ := returned
    obtain ⟨count, encoding, walked, rfl⟩ := cover_returns done
    exact ⟨rfl, covered, count, encoding, walked, by simp, (if_pos holds).symm⟩
  · rw [if_neg holds] at returned
    simp only [Outcome.returns_bind, Outcome.returns_emit, Outcome.returns_pure,
      Prod.mk.injEq] at returned
    obtain ⟨_, _, _, rfl, ⟨covered, _, _, done, ⟨rfl, rfl, rfl⟩, rfl⟩, rfl⟩ := returned
    obtain ⟨count, encoding, walked, rfl⟩ := cover_returns done
    exact ⟨rfl, covered, count, encoding, alike ▸ walked, by simp, (if_neg holds).symm⟩

theorem assert_returns (returned : (session.assert signal).Returns trace (reply, next)) :
    (session.circuit.numbering.contains signal = false ∧
      (∃ error, reply = .error error) ∧ next = session ∧ trace = []) ∨
    session.circuit.numbering.contains signal = true ∧ reply = .ok () ∧
      ∃ literal covered encoding, session.encoding.Mentions signal literal covered encoding ∧
        callsOf trace = callsOf covered ∧
        next = { session with
          encoding
          pending := if literal ∈ session.asserted then session.pending
            else session.pending ++ [literal] } := by
  unfold assert at returned
  split at returned
  · next error failed =>
    obtain ⟨rfl, same⟩ := Outcome.returns_pure.mp returned
    cases same
    exact .inl ⟨invalid_of_check failed, ⟨error, rfl⟩, rfl, rfl⟩
  · next valid =>
    simp only [Outcome.returns_bind, Outcome.returns_lift] at returned
    obtain ⟨_, ⟨literal, circuit⟩, rest, ⟨rfl, found⟩, after, rfl⟩ := returned
    obtain ⟨rfl, covered, count, encoding, walked, calls, same⟩ := noted_returns after rfl
    refine .inr ⟨check_eq_ok_iff.mp valid, rfl, literal, covered, encoding,
      ⟨circuit, count, found, walked⟩, calls, ?_⟩
    split at same
    · next known => rw [same, if_pos (show literal ∈ session.asserted from known)]
    · next fresh => rw [same, if_neg (show literal ∉ session.asserted from fresh)]

private theorem exists_noted (known : Prop) [Decidable known] (entry : LogEntry)
    {kept added : Session ε} (covered : ∃ trace next, (kept.cover signal).Returns trace next)
    (also : ∃ trace next, (added.cover signal).Returns trace next) :
    ∃ trace next, (if known then (do return (.ok (), ← kept.cover signal))
      else (do
        Outcome.emit (.log entry)
        return (.ok (), ← added.cover signal)) : Outcome Event (Reply ε Unit)).Returns
      trace (.ok (), next) := by
  by_cases holds : known
  · obtain ⟨trace, next, done⟩ := covered
    rw [if_pos holds]
    exact ⟨_, next, done.bind (Outcome.returns_pure.mpr ⟨rfl, rfl⟩)⟩
  · obtain ⟨trace, next, done⟩ := also
    rw [if_neg holds]
    exact ⟨_, next, (Outcome.returns_emit_self (Event.log entry)).bind
      (done.bind (Outcome.returns_pure.mpr ⟨rfl, rfl⟩))⟩

/-- A session can be covered whatever its lists of facts are. -/
private theorem exists_cover_of_mentions {literal : Literal} {encoding : Encoding ε}
    (mentions : session.encoding.Mentions signal literal trace encoding) :
    ∃ circuit, session.circuit.literalOf signal = .ok (literal, circuit) ∧
      ∀ kept : Session ε, kept.encoding = { session.encoding with circuit } →
        ∃ trace next, (kept.cover signal).Returns trace next := by
  obtain ⟨circuit, count, found, walked⟩ := mentions
  refine ⟨circuit, found, fun kept same => ?_⟩
  have covered : (kept.encoding.cover signal).Returns trace (count, encoding) := same ▸ walked
  exact ⟨_, { kept with encoding }, covered.bind (Outcome.returns_pure.mpr ⟨rfl, rfl⟩)⟩

/-- A valid signal is asserted as soon as it can be covered. -/
theorem exists_assert_of_mentions (contained : session.circuit.numbering.contains signal = true)
    {literal : Literal} {encoding : Encoding ε}
    (mentions : session.encoding.Mentions signal literal trace encoding) :
    ∃ made next, (session.assert signal).Returns made (.ok (), next) := by
  obtain ⟨circuit, found, covers⟩ := exists_cover_of_mentions mentions
  obtain ⟨made, next, done⟩ := exists_noted
    (literal ∈ ({ session with encoding.circuit := circuit } : Session ε).asserted)
    (.asserted signal literal)
    (covers { session with encoding.circuit := circuit } rfl)
    (covers { session with
      encoding.circuit := circuit, pending := session.pending ++ [literal] } rfl)
  unfold assert
  rw [check_eq_ok_iff.mpr contained]
  exact ⟨_, next, Outcome.Returns.bind (Outcome.returns_lift.mpr ⟨rfl, found⟩) done⟩

/-- A valid signal is assumed as soon as it can be covered. -/
theorem exists_assume_of_mentions (contained : session.circuit.numbering.contains signal = true)
    {literal : Literal} {encoding : Encoding ε}
    (mentions : session.encoding.Mentions signal literal trace encoding) :
    ∃ made next, (session.assume signal).Returns made (.ok (), next) := by
  obtain ⟨circuit, found, covers⟩ := exists_cover_of_mentions mentions
  obtain ⟨made, next, done⟩ := exists_noted
    (literal ∈ ({ session with encoding.circuit := circuit } : Session ε).assumptions)
    (.assumed signal literal)
    (covers { session with encoding.circuit := circuit } rfl)
    (covers { session with
      encoding.circuit := circuit, assumptions := session.assumptions ++ [literal] } rfl)
  unfold assume
  rw [check_eq_ok_iff.mpr contained]
  exact ⟨_, next, Outcome.Returns.bind (Outcome.returns_lift.mpr ⟨rfl, found⟩) done⟩

theorem assume_returns (returned : (session.assume signal).Returns trace (reply, next)) :
    (session.circuit.numbering.contains signal = false ∧
      (∃ error, reply = .error error) ∧ next = session ∧ trace = []) ∨
    session.circuit.numbering.contains signal = true ∧ reply = .ok () ∧
      ∃ literal covered encoding, session.encoding.Mentions signal literal covered encoding ∧
        callsOf trace = callsOf covered ∧
        next = { session with
          encoding
          assumptions := if literal ∈ session.assumptions then session.assumptions
            else session.assumptions ++ [literal] } := by
  unfold assume at returned
  split at returned
  · next error failed =>
    obtain ⟨rfl, same⟩ := Outcome.returns_pure.mp returned
    cases same
    exact .inl ⟨invalid_of_check failed, ⟨error, rfl⟩, rfl, rfl⟩
  · next valid =>
    simp only [Outcome.returns_bind, Outcome.returns_lift] at returned
    obtain ⟨_, ⟨literal, circuit⟩, rest, ⟨rfl, found⟩, after, rfl⟩ := returned
    obtain ⟨rfl, covered, count, encoding, walked, calls, same⟩ := noted_returns after rfl
    refine .inr ⟨check_eq_ok_iff.mp valid, rfl, literal, covered, encoding,
      ⟨circuit, count, found, walked⟩, calls, ?_⟩
    split at same
    · next known => rw [same, if_pos (show literal ∈ session.assumptions from known)]
    · next fresh => rw [same, if_neg (show literal ∉ session.assumptions from fresh)]

end Facts

/-! ## Solving -/

section Solving

variable [Engine ε]

/-- A new session is empty, and its engine was told the settings. -/
theorem start_returns {engine : ε} {settings : Settings} {opening : List Event}
    (started : (Session.start engine settings).Returns opening next) :
    ∃ ready, Engine.After engine (callsOf opening) ready ∧
      callsOf opening = [.threads settings.threads, .maxTime settings.maxTime,
        .maxConflicts settings.maxConflicts] ∧
      next = {
        encoding := .start ready
        settings
        submitted := []
        pending := []
        assumptions := []
        valuation := .empty
        verdict := .unknown
        cause := none } := by
  simp only [Session.start, Outcome.returns_bind, Call.returns_record, Outcome.returns_pure]
    at started
  obtain ⟨_, first, _, ⟨_, threads, rfl⟩, ⟨_, second, _, ⟨_, time, rfl⟩, ⟨_, third, _,
    ⟨_, conflicts, rfl⟩, ⟨rfl, rfl⟩, rfl⟩, rfl⟩, rfl⟩ := started
  have after := ((Engine.Takes.threads threads).after.one (.maxTime time)).one
    (.maxConflicts conflicts)
  exact ⟨third, by simpa using after, by simp, rfl⟩

theorem setMaxTime_returns {bound : Seconds}
    (returned : (session.setMaxTime bound).Returns trace next) :
    ∃ engine, callsOf trace = [.maxTime (some bound)] ∧
      Engine.Takes session.encoding.engine (.maxTime (some bound)) engine ∧
      next = { session with encoding.engine := engine, settings.maxTime := some bound } := by
  simp only [setMaxTime, Outcome.returns_bind, Call.returns_record, Outcome.returns_pure]
    at returned
  obtain ⟨_, engine, _, ⟨_, reply, rfl⟩, ⟨rfl, rfl⟩, rfl⟩ := returned
  exact ⟨engine, by simp, .maxTime reply, rfl⟩

theorem setMaxConflicts_returns {bound : Nat}
    (returned : (session.setMaxConflicts bound).Returns trace next) :
    ∃ engine, callsOf trace = [.maxConflicts (some bound)] ∧
      Engine.Takes session.encoding.engine (.maxConflicts (some bound)) engine ∧
      next = { session with encoding.engine := engine, settings.maxConflicts := some bound } := by
  simp only [setMaxConflicts, Outcome.returns_bind, Call.returns_record, Outcome.returns_pure]
    at returned
  obtain ⟨_, engine, _, ⟨_, reply, rfl⟩, ⟨rfl, rfl⟩, rfl⟩ := returned
  exact ⟨engine, by simp, .maxConflicts reply, rfl⟩

theorem submitPending_returns (returned : session.submitPending.Returns trace next) :
    ∃ encoding, (session.encoding.submitAll (session.pending.map ([·]))).Returns trace encoding ∧
      next = { session with encoding, submitted := session.asserted, pending := [] } := by
  simp only [submitPending, Outcome.returns_bind, Outcome.returns_pure] at returned
  obtain ⟨_, encoding, _, submitted, ⟨rfl, rfl⟩, rfl⟩ := returned
  refine ⟨encoding, ?_, rfl⟩
  rwa [Encoding.submitAll, List.foldlM_map, List.append_nil]

theorem returns_submitPending {encoding : Encoding ε}
    (submitted : (session.encoding.submitAll (session.pending.map ([·]))).Returns trace encoding) :
    session.submitPending.Returns trace
      { session with encoding, submitted := session.asserted, pending := [] } := by
  simp only [submitPending, Outcome.returns_bind, Outcome.returns_pure]
  refine ⟨trace, encoding, [], ?_, ⟨rfl, rfl⟩, by rw [List.append_nil]⟩
  rwa [Encoding.submitAll, List.foldlM_map] at submitted

/-- The verdict that an answer is reported as. -/
def verdictOf : Except Failure Bool → Verdict
  | .ok true => .satisfiable
  | .ok false => .unsatisfiable
  | .error _ => .unknown

/-- The failure that an answer is, if it is one. -/
def causeOf : Except Failure Bool → Option Failure
  | .ok _ => none
  | .error failure => some failure

/-- The calls for which an answer gives occasion. -/
def callsAfter : Except Failure Bool → List Call
  | .ok true => [.model]
  | _ => []

theorem eq_model_of_mem_callsAfter {answer : Except Failure Bool} {call : Call}
    (member : call ∈ callsAfter answer) : call = .model := by
  rcases answer with failure | _ | _
  · contradiction
  · contradiction
  · exact List.mem_singleton.mp member

theorem solvesOf_callsAfter (answer : Except Failure Bool) : solvesOf (callsAfter answer) = 0 := by
  rcases answer with failure | _ | _ <;> rfl

/-- Only a model changes the values; every answer sets the verdict and the cause. -/
theorem conclude_returns {answer : Except Failure Bool}
    (returned : (session.conclude answer).Returns trace next) :
    (answer = .ok true ∧ callsOf trace = [.model] ∧
      ∃ shown model log valuation,
        (Engine.model session.encoding.engine).Returns shown model ∧
        (Valuation.ofModel session.circuit model).Returns log valuation ∧
        next = { session with valuation, verdict := .satisfiable, cause := none }) ∨
    (answer = .ok false ∧ callsOf trace = [] ∧
      next = { session with verdict := .unsatisfiable, cause := none }) ∨
    ∃ failure, answer = .error failure ∧ callsOf trace = [] ∧
      next = { session with verdict := .unknown, cause := some failure } := by
  cases answer with
  | error failure =>
    simp only [conclude, Outcome.returns_bind, Outcome.returns_emit, Outcome.returns_pure]
      at returned
    obtain ⟨_, _, _, rfl, ⟨rfl, rfl⟩, rfl⟩ := returned
    exact .inr (.inr ⟨failure, rfl, rfl, rfl⟩)
  | ok satisfiable =>
    cases satisfiable with
    | false =>
      obtain ⟨rfl, rfl⟩ := Outcome.returns_pure.mp returned
      exact .inr (.inl ⟨rfl, rfl, rfl⟩)
    | true =>
      simp only [conclude, Outcome.returns_bind, Call.returns_record, Outcome.returns_pure]
        at returned
      obtain ⟨_, model, _, ⟨shown, reply, rfl⟩, ⟨log, valuation, _, spread, ⟨rfl, rfl⟩, rfl⟩,
        rfl⟩ := returned
      have silent := (Valuation.ofModel_returns_iff.mp spread).2.2
      exact .inl ⟨rfl, by simp [silent], shown, model, log, valuation, reply, spread, rfl⟩

/-- Everything that a conclusion does, for each of the three kinds of answers. -/
theorem conclude_keeps {answer : Except Failure Bool}
    (returned : (session.conclude answer).Returns trace next) :
    callsOf trace = callsAfter answer ∧
      Engine.After session.encoding.engine (callsOf trace) next.encoding.engine ∧
      next = { session with
        valuation := next.valuation, verdict := verdictOf answer, cause := causeOf answer } ∧
      (answer ≠ .ok true → next.valuation = session.valuation) := by
  rcases conclude_returns returned with ⟨rfl, made, _, _, _, _, reply, _, rfl⟩ |
    ⟨rfl, made, rfl⟩ | ⟨failure, rfl, made, rfl⟩
  · rw [made]
    exact ⟨rfl, (Engine.Takes.model reply).after, rfl, fun other => absurd rfl other⟩
  · rw [made]
    exact ⟨rfl, .none, rfl, fun _ => rfl⟩
  · rw [made]
    exact ⟨rfl, .none, rfl, fun _ => rfl⟩

theorem solve_returns {verdict : Verdict}
    (returned : session.solve.Returns trace (verdict, next)) :
    ∃ first encoding second covered entries answer engine third,
      (session.encoding.submitAll (session.pending.map ([·]))).Returns first encoding ∧
      (session.assumptions.foldlM coverAssumption
        { session with encoding, submitted := session.asserted, pending := [] }).Returns
        second covered ∧
      (Engine.solve covered.encoding.engine covered.assumptions).Returns
        entries (answer, engine) ∧
      (({ covered with encoding.engine := engine } : Session ε).conclude answer).Returns
        third next ∧
      verdict = next.verdict ∧
      callsOf trace =
        callsOf first ++ callsOf second ++ .solve covered.assumptions :: callsOf third := by
  simp only [solve, Outcome.returns_bind, Outcome.returns_emit, Outcome.returns_pure,
    Call.returns_record, Prod.mk.injEq] at returned
  obtain ⟨first, _, _, submitted, ⟨second, covered, _, walked, ⟨_, ⟨answer, engine⟩, _,
    ⟨entries, solved, rfl⟩, ⟨third, _, _, concluded, ⟨_, _, _, rfl, ⟨rfl, rfl, rfl⟩, rfl⟩, rfl⟩,
    rfl⟩, rfl⟩, rfl⟩ := returned
  obtain ⟨encoding, handed, rfl⟩ := submitPending_returns submitted
  exact ⟨first, encoding, second, covered, entries, answer, engine, third, handed, walked, solved,
    concluded, rfl, by simp⟩

end Solving

end Session

end CircuitSat
