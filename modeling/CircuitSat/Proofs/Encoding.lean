import CircuitSat.Encoding
import CircuitSat.Proofs.Circuit.Walk
import CircuitSat.Proofs.Engine.Contract
import CircuitSat.Proofs.Tseitin

/-! # The engine has the clauses of all gates in clauses

Whatever the engine answers, the clauses that it was given are those of the gates in clauses, each
gate once, and the unit clauses that were handed over. A counting engine knows every clause variable
by the time a literal of it comes up, so that a willing engine takes all of these calls.
-/

namespace CircuitSat

/-- The clauses of some gates, one gate after the other. -/
def clausesOfCodes (codes : List (Connective × Triple)) : List Clause :=
  codes.flatMap fun (connective, literals) => Tseitin.clausesFor connective literals

/-- No clause of a gate is a unit clause. -/
theorem filter_clausesOfCodes (codes : List (Connective × Triple)) :
    (clausesOfCodes codes).filter (·.length = 1) = [] := by
  refine List.filter_eq_nil_iff.mpr fun clause member => ?_
  obtain ⟨⟨connective, literals⟩, _, among⟩ := List.mem_flatMap.mp member
  have long := Tseitin.one_lt_length_of_mem_clausesFor among
  simp only [decide_eq_true_eq]
  omega

/-- All clauses that the gates in clauses call for. -/
def Netlist.clauses (netlist : Netlist) : List Clause := clausesOfCodes netlist.codes

namespace Circuit.WellFormed

variable {circuit : Circuit}

theorem proper_of_carries (valid : circuit.WellFormed) {literals : Triple} {gate : Gate}
    (carries : circuit.numbering.Carries literals gate) : literals.Proper :=
  ⟨(carries.left.proper valid.numbering valid.small).1,
    (carries.right.proper valid.numbering valid.small).1,
    (carries.output.proper valid.numbering valid.small).1⟩

/-- A gate in clauses carries the literals that it is in clauses with. -/
theorem exists_of_mem_codes (valid : circuit.WellFormed) {connective : Connective}
    {literals : Triple} (member : (connective, literals) ∈ circuit.netlist.codes) :
    ∃ gate ∈ circuit.netlist.gates, gate.connective = connective ∧
      gate.literals = some literals ∧ circuit.numbering.Carries literals gate := by
  obtain ⟨gate, among, same⟩ := List.mem_filterMap.mp member
  obtain ⟨stored, encoded, same⟩ := Option.map_eq_some_iff.mp same
  cases same
  have present := Array.mem_toList_iff.mp among
  exact ⟨gate, present, rfl, encoded, valid.carried present encoded⟩

theorem proper_of_mem_codes (valid : circuit.WellFormed) {connective : Connective}
    {literals : Triple} (member : (connective, literals) ∈ circuit.netlist.codes) :
    literals.Proper := by
  obtain ⟨_, _, _, _, carries⟩ := valid.exists_of_mem_codes member
  exact valid.proper_of_carries carries

/-- Only clause variables that were minted occur in the clauses of gates. -/
theorem proper_of_mem_clauses (valid : circuit.WellFormed) {clause : Clause}
    (member : clause ∈ circuit.netlist.clauses) {literal : Literal} (among : literal ∈ clause) :
    literal.proper = true ∧ literal.var ≤ circuit.numbering.numCnf := by
  obtain ⟨⟨connective, literals⟩, code, inside⟩ := List.mem_flatMap.mp member
  obtain ⟨gate, _, _, _, carries⟩ := valid.exists_of_mem_codes code
  have within : ∀ literal ∈ literals.toList, literal.proper = true ∧
      literal.var ≤ circuit.numbering.numCnf := by
    simp only [Triple.toList, List.forall_mem_cons]
    exact ⟨carries.left.proper valid.numbering valid.small,
      carries.right.proper valid.numbering valid.small,
      carries.output.proper valid.numbering valid.small, by simp⟩
  exact Tseitin.proper_of_mem_clausesFor (· ≤ circuit.numbering.numCnf) within inside among

end Circuit.WellFormed

namespace Encoding

variable {ε : Type} [Engine ε]

/-- Hands clauses to the engine one by one. -/
def submitAll (encoding : Encoding ε) (clauses : List Clause) : Outcome Event (Encoding ε) :=
  clauses.foldlM submit encoding

@[simp] theorem submitAll_nil (encoding : Encoding ε) : encoding.submitAll [] = pure encoding := rfl

@[simp] theorem submitAll_cons (encoding : Encoding ε) (clause : Clause) (rest : List Clause) :
    encoding.submitAll (clause :: rest) = (do (← encoding.submit clause).submitAll rest) := rfl

theorem submitAll_append (encoding : Encoding ε) (clauses more : List Clause) :
    encoding.submitAll (clauses ++ more) = (do (← encoding.submitAll clauses).submitAll more) :=
  List.foldlM_append

/-- On proper literals no template faults. -/
theorem submitGate_eq (encoding : Encoding ε) (connective : Connective) {literals : Triple}
    (proper : literals.Proper) : encoding.submitGate connective literals =
      encoding.submitAll (Tseitin.clausesFor connective literals) := by
  simp only [submitGate, submitAll, Tseitin.clausesFor, List.foldlM_map,
    Tseitin.instantiate_eq_ok proper]
  rfl

theorem submitGates_eq (encoding : Encoding ε) {codes : List (Connective × Triple)}
    (proper : ∀ connective literals, (connective, literals) ∈ codes → literals.Proper) :
    codes.foldlM (fun encoding (connective, literals) => encoding.submitGate connective literals)
      encoding = encoding.submitAll (clausesOfCodes codes) := by
  induction codes generalizing encoding with
  | nil => rfl
  | cons code rest ih =>
    obtain ⟨connective, literals⟩ := code
    simp only [List.foldlM_cons, clausesOfCodes, List.flatMap_cons, submitAll_append,
      submitGate_eq encoding connective (proper _ _ List.mem_cons_self)]
    congr 1
    funext next
    exact ih next fun _ _ member => proper _ _ (List.mem_cons_of_mem _ member)

/-! ## Clauses on their way to the engine -/

theorem returns_submit {encoding : Encoding ε} {clause : Clause} {entries : List LogEntry}
    {engine : ε} (reply : (Engine.addClause encoding.engine clause).Returns entries engine) :
    (encoding.submit clause).Returns (.call (.clause clause) :: entries.map .log)
      { encoding with engine, numClauses := encoding.numClauses + 1 } := by
  simp only [submit, Outcome.returns_bind, Call.returns_record, Outcome.returns_pure]
  exact ⟨_, engine, [], ⟨entries, reply, rfl⟩, ⟨rfl, rfl⟩, by simp⟩

theorem submit_returns {encoding next : Encoding ε} {clause : Clause} {trace : List Event}
    (returned : (encoding.submit clause).Returns trace next) :
    callsOf trace = [.clause clause] ∧
      Engine.Takes encoding.engine (.clause clause) next.engine ∧
      next.circuit = encoding.circuit ∧ next.numClauses = encoding.numClauses + 1 := by
  simp only [submit, Outcome.returns_bind, Call.returns_record, Outcome.returns_pure] at returned
  obtain ⟨_, engine, _, ⟨entries, reply, rfl⟩, ⟨rfl, rfl⟩, rfl⟩ := returned
  exact ⟨by simp, .clause reply, rfl, rfl⟩

theorem submitAll_returns {encoding next : Encoding ε} {clauses : List Clause} {trace : List Event}
    (returned : (encoding.submitAll clauses).Returns trace next) :
    callsOf trace = clauses.map .clause ∧
      Engine.After encoding.engine (clauses.map .clause) next.engine ∧
      next.circuit = encoding.circuit ∧
      next.numClauses = encoding.numClauses + clauses.length := by
  induction clauses generalizing encoding trace with
  | nil =>
    simp only [submitAll_nil, Outcome.returns_pure] at returned
    obtain ⟨rfl, rfl⟩ := returned
    exact ⟨rfl, .none, rfl, rfl⟩
  | cons clause rest ih =>
    simp only [submitAll_cons, Outcome.returns_bind] at returned
    obtain ⟨_, middle, _, first, later, rfl⟩ := returned
    obtain ⟨call, takes, circuit, count⟩ := submit_returns first
    obtain ⟨calls, after, same, total⟩ := ih later
    refine ⟨by simp [call, calls], takes.after.append after, same.trans circuit, ?_⟩
    rw [total, count, List.length_cons]
    omega

/-- Clauses can be handed over that the engine would take whatever it took of them before. -/
theorem exists_submitAll {encoding : Encoding ε} {clauses : List Clause}
    (taken : ∀ (before : List Clause) (engine : ε),
      Engine.After encoding.engine (before.map .clause) engine →
      ∀ clause ∈ clauses, ∃ next, Engine.Takes engine (.clause clause) next) :
    ∃ trace next, (encoding.submitAll clauses).Returns trace next := by
  induction clauses generalizing encoding with
  | nil => exact ⟨[], encoding, by simp⟩
  | cons clause rest ih =>
    obtain ⟨engine, takes⟩ := taken [] encoding.engine .none clause List.mem_cons_self
    let submitted : Encoding ε := { encoding with engine, numClauses := encoding.numClauses + 1 }
    have further (before : List Clause) (later : ε)
        (after : Engine.After submitted.engine (before.map .clause) later)
        (other : Clause) (member : other ∈ rest) :
        ∃ next, Engine.Takes later (.clause other) next :=
      taken (clause :: before) later (takes.after.append after) other
        (List.mem_cons_of_mem _ member)
    obtain ⟨trace, next, later⟩ := ih further
    cases takes with
    | clause reply => exact ⟨_, next, (returns_submit reply).bind later⟩

/-- A willing engine takes clauses over declared variables. -/
theorem exists_submitAll_of_willing {start : ε} (willing : Engine.Willing start)
    {calls : List Call} {encoding : Encoding ε} {clauses : List Clause}
    (after : Engine.After start calls encoding.engine)
    (few : Engine.numVars encoding.engine ≤ maxVar)
    (declared : ∀ clause ∈ clauses, Engine.Declares encoding.engine clause) :
    ∃ trace next, (encoding.submitAll clauses).Returns trace next := by
  refine exists_submitAll fun before engine further clause member => ?_
  have same := willing.numVars_eq after further (by simp)
  refine willing.taken (after.append further) (fun literal among => ?_) (same ▸ few)
  rw [same]
  exact declared clause member literal among

/-! ## What is kept up between the circuit and the engine -/

/-- The engine was given the clauses of all gates in clauses, the unit clauses of some literals in
their order, and no other clause, and it knows of every clause variable. -/
structure Faithful (start : ε) (calls : List Call) (units : List Literal)
    (encoding : Encoding ε) : Prop where
  after : Engine.After start calls encoding.engine
  clauses : (clausesOf calls).Perm (encoding.circuit.netlist.clauses ++ units.map ([·]))
  ordered : (clausesOf calls).filter (·.length = 1) = units.map ([·])
  count : encoding.numClauses = (clausesOf calls).length
  counted (counting : Engine.Counting start) :
    Engine.numVars encoding.engine = encoding.circuit.numbering.numCnf

namespace Faithful

variable {start : ε} {calls : List Call} {units : List Literal} {encoding : Encoding ε}

theorem initial (engine : ε) : (Encoding.start engine).Faithful engine [] [] where
  after := .none
  clauses := .refl _
  ordered := rfl
  count := rfl
  counted counting := counting.zero

/-- Calls that bring no clause and declare nothing. -/
theorem idle (faithful : encoding.Faithful start calls units) {more : List Call} {engine : ε}
    (after : Engine.After encoding.engine more engine) (silent : clausesOf more = [])
    (other : ∀ call ∈ more, ∀ count, call ≠ .newVars count) :
    ({ encoding with engine } : Encoding ε).Faithful start (calls ++ more) units where
  after := faithful.after.append after
  clauses := by
    rw [clausesOf_append, silent, List.append_nil]
    exact faithful.clauses
  ordered := by
    rw [clausesOf_append, silent, List.append_nil]
    exact faithful.ordered
  count := by
    rw [clausesOf_append, silent, List.append_nil]
    exact faithful.count
  counted counting := by
    rw [counting.numVars_eq faithful.after after other]
    exact faithful.counted counting

/-- The same engine with the same gates in clauses. -/
theorem withCircuit (faithful : encoding.Faithful start calls units) {circuit : Circuit}
    (codes : circuit.netlist.codes = encoding.circuit.netlist.codes)
    (numCnf : circuit.numbering.numCnf = encoding.circuit.numbering.numCnf) :
    ({ encoding with circuit } : Encoding ε).Faithful start calls units where
  after := faithful.after
  clauses := by
    rw [Netlist.clauses, codes]
    exact faithful.clauses
  ordered := faithful.ordered
  count := faithful.count
  counted counting := (faithful.counted counting).trans numCnf.symm

/-- Further unit clauses are handed over. -/
theorem submitUnits (faithful : encoding.Faithful start calls units) {next : Encoding ε}
    {more : List Literal} {trace : List Event}
    (returned : (encoding.submitAll (more.map ([·]))).Returns trace next) :
    next.Faithful start (calls ++ callsOf trace) (units ++ more) := by
  obtain ⟨made, after, circuit, count⟩ := submitAll_returns returned
  rw [made]
  refine ⟨faithful.after.append after, ?_, ?_, ?_, fun counting => ?_⟩
  · rw [clausesOf_append, clausesOf_map_clause, circuit, List.map_append, ← List.append_assoc]
    exact faithful.clauses.append_right _
  · have singles : (more.map ([·])).filter (·.length = 1) = more.map ([·]) :=
      List.filter_eq_self.mpr (by simp)
    rw [clausesOf_append, clausesOf_map_clause, List.filter_append, faithful.ordered, singles,
      List.map_append]
  · rw [count, faithful.count, clausesOf_append, clausesOf_map_clause, List.length_append]
  · rw [counting.numVars_eq faithful.after after (by simp), circuit]
    exact faithful.counted counting

/-- Every clause is over declared variables. -/
theorem declares (faithful : encoding.Faithful start calls units) (counting : Engine.Counting start)
    (valid : encoding.circuit.WellFormed)
    (denoted : ∀ literal ∈ units, ∃ signal, encoding.circuit.numbering.Denotes literal signal) :
    ∀ clause ∈ clausesOf calls, Engine.Declares encoding.engine clause := by
  intro clause member literal among
  rw [faithful.counted counting]
  rcases List.mem_append.mp (faithful.clauses.mem_iff.mp member) with gate | unit
  · exact valid.proper_of_mem_clauses gate among
  · obtain ⟨single, present, rfl⟩ := List.mem_map.mp unit
    obtain rfl := List.mem_singleton.mp among
    obtain ⟨signal, denotes⟩ := denoted literal present
    exact denotes.proper valid.numbering valid.small

end Faithful

/-! ## Covering a signal -/

theorem declareMinted_returns {encoding next : Encoding ε} {trace : List Event}
    (returned : encoding.declareMinted.Returns trace next) :
    Engine.After encoding.engine (callsOf trace) next.engine ∧ clausesOf (callsOf trace) = [] ∧
      next = { encoding with engine := next.engine } ∧
      ∀ {start : ε} {calls : List Call}, Engine.Counting start →
        Engine.After start calls encoding.engine →
        Engine.numVars encoding.engine ≤ encoding.circuit.numbering.numCnf →
        Engine.numVars next.engine = encoding.circuit.numbering.numCnf := by
  unfold declareMinted at returned
  dsimp only at returned
  split at returned
  · next fewer =>
    simp only [declare, Outcome.returns_bind, Call.returns_record, Outcome.returns_pure] at returned
    obtain ⟨_, engine, _, ⟨entries, reply, rfl⟩, ⟨rfl, rfl⟩, rfl⟩ := returned
    have takes := Engine.Takes.newVars reply
    refine ⟨by simpa using takes.after, by simp [clausesOf, Call.clause?], rfl,
      fun counting after _ => ?_⟩
    rw [counting.declared after takes]
    omega
  · next enough =>
    simp only [Outcome.returns_pure] at returned
    obtain ⟨rfl, rfl⟩ := returned
    exact ⟨.none, rfl, rfl, fun _ _ known => by omega⟩

theorem declareMinted_calls {encoding next : Encoding ε} {trace : List Event}
    (returned : encoding.declareMinted.Returns trace next) : callsOf trace =
      if Engine.numVars encoding.engine < encoding.circuit.numbering.numCnf then
        [.newVars (encoding.circuit.numbering.numCnf - Engine.numVars encoding.engine)]
      else [] := by
  unfold declareMinted at returned
  dsimp only at returned
  split at returned
  · next fewer =>
    simp only [declare, Outcome.returns_bind, Call.returns_record, Outcome.returns_pure] at returned
    obtain ⟨_, _, _, ⟨_, _, rfl⟩, ⟨rfl, _⟩, rfl⟩ := returned
    simp [fewer]
  · next enough =>
    obtain ⟨rfl, _⟩ := Outcome.returns_pure.mp returned
    rw [if_neg enough]
    rfl

/-- Variables are declared if the engine takes the one call that may be needed. -/
theorem exists_declareMinted {encoding : Encoding ε}
    (taken : Engine.numVars encoding.engine < encoding.circuit.numbering.numCnf → ∃ next,
      Engine.Takes encoding.engine (.newVars (encoding.circuit.numbering.numCnf -
        Engine.numVars encoding.engine)) next) :
    ∃ trace next, encoding.declareMinted.Returns trace next := by
  unfold declareMinted
  dsimp only
  split
  · next fewer =>
    obtain ⟨engine, takes⟩ := taken fewer
    cases takes with
    | newVars reply =>
      exact ⟨_, { encoding with engine }, Outcome.returns_bind.mpr
        ⟨_, engine, [], Call.returns_record.mpr ⟨_, reply, rfl⟩, by simp, rfl⟩⟩
  · exact ⟨[], encoding, Outcome.returns_pure.mpr ⟨rfl, rfl⟩⟩

/-- A willing engine takes the declaration as long as there are words for the variables. -/
theorem exists_declareMinted_of_willing {start : ε} (willing : Engine.Willing start)
    {calls : List Call} {encoding : Encoding ε}
    (after : Engine.After start calls encoding.engine)
    (small : encoding.circuit.numbering.numCnf ≤ maxVar) :
    ∃ trace next, encoding.declareMinted.Returns trace next := by
  refine exists_declareMinted fun fewer => willing.taken after ?_ ?_
  · simp only [Engine.Accepts, maxVar, UInt64.size] at small ⊢
    omega
  · simp only [Call.declared]
    omega

end Encoding

/-- What covering a signal makes of a circuit. The fresh gates are those that come to be in clauses.
-/
structure Circuit.Covers (old : Circuit) (origin : Signal) (fresh : List (Connective × Triple))
    (last : Circuit) : Prop where
  wellFormed : last.WellFormed
  closed : last.Closed []
  encodes : old.Encodes last
  denoted : ∃ literal middle, old.literalOf origin = .ok (literal, middle) ∧
    last.numbering.Denotes literal origin
  codes : last.netlist.codes.Perm (fresh ++ old.netlist.codes)

theorem Circuit.Covers.proper {old last : Circuit} {origin : Signal}
    {fresh : List (Connective × Triple)} (covers : old.Covers origin fresh last)
    (connective : Connective) (literals : Triple) (member : (connective, literals) ∈ fresh) :
    literals.Proper :=
  covers.wellFormed.proper_of_mem_codes
    (covers.codes.mem_iff.mpr (List.mem_append_left _ member))

/-- Only clause variables that are numbered by then occur in the clauses of the fresh gates. -/
theorem Circuit.Covers.proper_of_mem_fresh {old last : Circuit} {origin : Signal}
    {fresh : List (Connective × Triple)} (covers : old.Covers origin fresh last) {clause : Clause}
    (member : clause ∈ clausesOfCodes fresh) {literal : Literal} (among : literal ∈ clause) :
    literal.proper = true ∧ literal.var ≤ last.numbering.numCnf := by
  refine covers.wellFormed.proper_of_mem_clauses ?_ among
  rw [Netlist.clauses, clausesOfCodes, (covers.codes.flatMap_right _).mem_iff, List.flatMap_append]
  exact List.mem_append_left _ member

namespace Encoding

variable {ε : Type} [Engine ε]

/-- The walk comes first, then the declaration of what it minted, and the clauses come last. -/
theorem cover_returns_iff {encoding : Encoding ε} {origin : Signal} {literal : Literal}
    {middle last : Circuit} {log : List Event} {fresh : List (Connective × Triple)}
    (found : encoding.circuit.literalOf origin = .ok (literal, middle))
    (walked : (middle.reach [origin.var]).Returns log (fresh, last))
    (proper : ∀ connective literals, (connective, literals) ∈ fresh → literals.Proper)
    {trace : List Event} {count : Nat} {next : Encoding ε} :
    (encoding.cover origin).Returns trace (count, next) ↔
      ∃ first declared second,
        ({ encoding with circuit := last } : Encoding ε).declareMinted.Returns first declared ∧
        (declared.submitAll (clausesOfCodes fresh)).Returns second next ∧ count = fresh.length ∧
        trace = log ++ (first ++ (second ++
          [.log (.covered origin fresh.length last.numbering.numCnf)])) := by
  have gatewise (declared : Encoding ε) := submitGates_eq declared proper
  simp only [cover, found, Outcome.returns_bind, Outcome.returns_lift, Except.ok.injEq,
    Outcome.returns_emit, Outcome.returns_pure, Prod.mk.injEq]
  constructor
  · rintro ⟨_, _, _, ⟨rfl, rfl⟩, ⟨_, ⟨other, ending⟩, _, again, ⟨first, declared, _, former,
      ⟨second, _, _, latter, ⟨_, _, _, rfl, ⟨rfl, rfl, rfl⟩, rfl⟩, rfl⟩, rfl⟩, rfl⟩, rfl⟩
    obtain ⟨rfl, same⟩ := again.unique walked
    cases same
    rw [gatewise] at latter
    exact ⟨first, declared, second, former, latter, rfl, by simp⟩
  · rintro ⟨first, declared, second, former, latter, rfl, rfl⟩
    rw [← gatewise] at latter
    exact ⟨[], (literal, middle), _, ⟨rfl, rfl⟩, ⟨log, (fresh, last), _, walked,
      ⟨first, declared, _, former, ⟨second, next, _, latter,
        ⟨_, (), [], rfl, ⟨rfl, rfl, rfl⟩, rfl⟩, rfl⟩, rfl⟩, rfl⟩, rfl⟩

/-- In a well-formed circuit nothing stands in the way of the walk. -/
theorem exists_covers (encoding : Encoding ε) {origin : Signal}
    (valid : encoding.circuit.WellFormed) (closed : encoding.circuit.Closed [origin.var])
    (contained : encoding.circuit.numbering.contains origin = true) :
    ∃ log fresh last, callsOf log = [] ∧ encoding.circuit.Covers origin fresh last ∧
      ∀ trace count next, (encoding.cover origin).Returns trace (count, next) ↔
        ∃ first declared second,
          ({ encoding with circuit := last } : Encoding ε).declareMinted.Returns first declared ∧
          (declared.submitAll (clausesOfCodes fresh)).Returns second next ∧ count = fresh.length ∧
          trace = log ++ (first ++ (second ++
            [.log (.covered origin fresh.length last.numbering.numCnf)])) := by
  obtain ⟨literal, middle, found, wellFormed, encodes, gates, denotes, closes⟩ :=
    valid.literalOf_spec contained
  obtain ⟨log, fresh, last, walked, silent, final, empty, more, codes⟩ :=
    wellFormed.reach_spec ((closes _ closed).mono (by simp) : middle.Closed [origin.var])
  have covers : encoding.circuit.Covers origin fresh last :=
    ⟨final, empty, encodes.trans more, ⟨literal, middle, found, more.numbering.denotes denotes⟩,
      gates ▸ codes⟩
  exact ⟨log, fresh, last, silent, covers, fun _ _ _ =>
    cover_returns_iff found walked covers.proper⟩

/-- First the minted variables are declared, and then the clauses of the fresh gates handed over. -/
theorem cover_phases {encoding next : Encoding ε} {origin : Signal}
    (valid : encoding.circuit.WellFormed) (closed : encoding.circuit.Closed [origin.var])
    (contained : encoding.circuit.numbering.contains origin = true) {trace : List Event}
    {count : Nat} (returned : (encoding.cover origin).Returns trace (count, next)) :
    ∃ fresh first declared second, encoding.circuit.Covers origin fresh next.circuit ∧
      count = fresh.length ∧
      ({ encoding with circuit := next.circuit } : Encoding ε).declareMinted.Returns
        first declared ∧
      (declared.submitAll (clausesOfCodes fresh)).Returns second next ∧
      callsOf trace = callsOf first ++ (clausesOfCodes fresh).map .clause := by
  obtain ⟨log, fresh, last, silent, covers, iff⟩ := exists_covers encoding valid closed contained
  obtain ⟨first, declared, second, former, latter, rfl, rfl⟩ := (iff _ _ _).mp returned
  obtain ⟨made, _, circuit, _⟩ := submitAll_returns latter
  obtain rfl : next.circuit = last := by rw [circuit, (declareMinted_returns former).2.2.1]
  exact ⟨fresh, first, declared, second, covers, rfl, former, latter, by simp [silent, made]⟩

/-- Covering hands over the clauses of the fresh gates and leaves the engine faithful. -/
theorem Faithful.cover {start : ε} {calls : List Call} {units : List Literal}
    {encoding next : Encoding ε} (faithful : encoding.Faithful start calls units) {origin : Signal}
    (valid : encoding.circuit.WellFormed) (closed : encoding.circuit.Closed [origin.var])
    (contained : encoding.circuit.numbering.contains origin = true) {trace : List Event}
    {count : Nat} (returned : (encoding.cover origin).Returns trace (count, next)) :
    ∃ fresh, encoding.circuit.Covers origin fresh next.circuit ∧ count = fresh.length ∧
      next.Faithful start (calls ++ callsOf trace) units := by
  obtain ⟨fresh, first, declared, second, covers, rfl, former, latter, made⟩ :=
    cover_phases valid closed contained returned
  obtain ⟨known, quiet, same, counted⟩ := declareMinted_returns former
  obtain ⟨_, after, _, total⟩ := submitAll_returns latter
  have clauses : clausesOf (calls ++ (callsOf first ++ (clausesOfCodes fresh).map .clause)) =
      clausesOf calls ++ clausesOfCodes fresh := by simp [quiet]
  have growth : next.circuit.netlist.clauses.Perm
      (clausesOfCodes fresh ++ encoding.circuit.netlist.clauses) :=
    (covers.codes.flatMap_right _).trans (List.Perm.of_eq List.flatMap_append)
  refine ⟨fresh, covers, rfl, ?_⟩
  rw [made]
  refine ⟨faithful.after.append (known.append after), ?_, ?_, ?_, fun counting => ?_⟩
  · rw [clauses]
    refine List.perm_append_comm.trans ((faithful.clauses.append_left _).trans ?_)
    rw [← List.append_assoc]
    exact growth.symm.append_right _
  · rw [clauses, List.filter_append, faithful.ordered, filter_clausesOfCodes, List.append_nil]
  · rw [clauses, total, same, List.length_append, ← faithful.count]
  · have within := covers.encodes.numbering.numCnf_le valid.numbering covers.wellFormed.numbering
    have before := faithful.counted counting
    rw [counting.numVars_eq (faithful.after.append known) after (by simp)]
    exact counted counting faithful.after (by simpa [before] using within)

/-- Covering asks for no verdict. -/
theorem cover_solves {encoding next : Encoding ε} {origin : Signal}
    (valid : encoding.circuit.WellFormed) (closed : encoding.circuit.Closed [origin.var])
    (contained : encoding.circuit.numbering.contains origin = true) {trace : List Event}
    {count : Nat} (returned : (encoding.cover origin).Returns trace (count, next)) :
    solvesOf (callsOf trace) = 0 := by
  obtain ⟨fresh, first, _, _, _, _, former, _, made⟩ := cover_phases valid closed contained returned
  have declares : solvesOf (callsOf first) = 0 := by
    rw [declareMinted_calls former]
    split <;> rfl
  rw [made, solvesOf_append, declares, solvesOf_map_clause]

/-- Covering declares the variables of a clause before the clause is handed over. -/
theorem Faithful.declaredFirst_cover {start : ε} {calls : List Call} {units : List Literal}
    {encoding next : Encoding ε} (faithful : encoding.Faithful start calls units)
    (counting : Engine.Counting start) {origin : Signal} (valid : encoding.circuit.WellFormed)
    (closed : encoding.circuit.Closed [origin.var])
    (contained : encoding.circuit.numbering.contains origin = true) {trace : List Event}
    {count : Nat} (returned : (encoding.cover origin).Returns trace (count, next)) :
    DeclaredFirst encoding.circuit.numbering.numCnf (callsOf trace) := by
  obtain ⟨fresh, first, _, _, covers, _, former, _, made⟩ :=
    cover_phases valid closed contained returned
  have within := covers.encodes.numbering.numCnf_le valid.numbering covers.wellFormed.numbering
  have before := faithful.counted counting
  have asked := declareMinted_calls former
  have known : encoding.circuit.numbering.numCnf + declaredBy (callsOf first) =
      next.circuit.numbering.numCnf := by
    rw [asked]
    dsimp only
    split
    · simp only [declaredBy_cons, Call.declared, declaredBy_nil]
      omega
    · rw [declaredBy_nil]
      omega
  rw [made, DeclaredFirst.append_iff, known]
  refine ⟨.of_known ?_, .of_known ?_⟩
  · rw [asked]
    split <;> simp [Call.literals]
  · intro call member
    obtain ⟨clause, among, rfl⟩ := List.mem_map.mp member
    exact fun _ => covers.proper_of_mem_fresh among

/-- Covering a signal that has a literal does nothing, if the engine knows all clause variables. -/
theorem cover_of_denotes {encoding : Encoding ε} (valid : encoding.circuit.WellFormed)
    (closed : encoding.circuit.Closed []) {literal : Literal} {signal : Signal}
    (denotes : encoding.circuit.numbering.Denotes literal signal)
    (known : Engine.numVars encoding.engine = encoding.circuit.numbering.numCnf) :
    (encoding.cover signal).Returns
      [.log (.covered signal 0 encoding.circuit.numbering.numCnf)] (0, encoding) := by
  have nothing : encoding.declareMinted = pure encoding := if_neg (by omega)
  simp only [cover, Outcome.returns_bind, Outcome.returns_lift, Outcome.returns_emit,
    Outcome.returns_pure, Prod.mk.injEq]
  refine ⟨[], (literal, encoding.circuit), _, ⟨rfl, valid.literalOf_of_denotes denotes⟩,
    ⟨[], ([], encoding.circuit), _, ?_, ⟨[], encoding, _, ?_, ⟨[], encoding, _, ?_,
      ⟨_, (), [], rfl, ⟨rfl, rfl, rfl⟩, rfl⟩, rfl⟩, rfl⟩, rfl⟩, rfl⟩
  · rw [valid.reach_of_mapped closed denotes.1]
    exact Outcome.returns_pure.mpr ⟨rfl, rfl⟩
  · change encoding.declareMinted.Returns [] encoding
    rw [nothing]
    exact Outcome.returns_pure.mpr ⟨rfl, rfl⟩
  · exact Outcome.returns_pure.mpr ⟨rfl, rfl⟩

/-- A willing engine never stands in the way of covering. -/
theorem Faithful.exists_cover {start : ε} (willing : Engine.Willing start) {calls : List Call}
    {units : List Literal} {encoding : Encoding ε} (faithful : encoding.Faithful start calls units)
    {origin : Signal} (valid : encoding.circuit.WellFormed)
    (closed : encoding.circuit.Closed [origin.var])
    (contained : encoding.circuit.numbering.contains origin = true) :
    ∃ trace count next, (encoding.cover origin).Returns trace (count, next) := by
  obtain ⟨log, fresh, last, silent, covers, iff⟩ := exists_covers encoding valid closed contained
  have within := covers.encodes.numbering.numCnf_le valid.numbering covers.wellFormed.numbering
  have few := covers.wellFormed.numbering.numCnf_le
  have small := covers.wellFormed.small
  have before := faithful.counted willing.toCounting
  let walked : Encoding ε := { encoding with circuit := last }
  have after : Engine.After start calls walked.engine := faithful.after
  have bound : walked.circuit.numbering.numCnf ≤ maxVar := Nat.le_trans few small
  obtain ⟨first, declared, former⟩ := exists_declareMinted_of_willing willing after bound
  obtain ⟨known, _, same, counted⟩ := declareMinted_returns former
  have numVars : Engine.numVars declared.engine = last.numbering.numCnf :=
    counted willing.toCounting after (Nat.le_trans (Nat.le_of_eq before) within)
  have declares : ∀ clause ∈ clausesOfCodes fresh, Engine.Declares declared.engine clause := by
    intro clause member literal among
    rw [numVars]
    exact covers.proper_of_mem_fresh member among
  obtain ⟨second, next, latter⟩ :=
    exists_submitAll_of_willing willing (faithful.after.append known) (numVars ▸ bound) declares
  exact ⟨_, _, next, (iff _ _ _).mpr ⟨first, declared, second, former, latter, rfl, rfl⟩⟩

/-- A signal is given its literal and is covered. -/
def Mentions (encoding : Encoding ε) (signal : Signal) (literal : Literal) (trace : List Event)
    (next : Encoding ε) : Prop :=
  ∃ circuit count, encoding.circuit.literalOf signal = .ok (literal, circuit) ∧
    (({ encoding with circuit } : Encoding ε).cover signal).Returns trace (count, next)

/-- The walk finds the literal that was given before. -/
theorem cover_literalOf {encoding : Encoding ε} (valid : encoding.circuit.WellFormed)
    {signal : Signal} (contained : encoding.circuit.numbering.contains signal = true)
    {literal : Literal} {middle : Circuit}
    (found : encoding.circuit.literalOf signal = .ok (literal, middle)) :
    ({ encoding with circuit := middle } : Encoding ε).cover signal = encoding.cover signal := by
  obtain ⟨_, _, done, wellFormed, _, _, denotes, _⟩ := valid.literalOf_spec contained
  rw [found] at done
  cases done
  have again := wellFormed.literalOf_of_denotes denotes
  simp only [cover, found, again]

/-- A new fact leaves the engine faithful and nothing to be walked through. -/
theorem Faithful.mentions {start : ε} {calls : List Call} {units : List Literal}
    {encoding next : Encoding ε} (faithful : encoding.Faithful start calls units)
    (valid : encoding.circuit.WellFormed) (closed : encoding.circuit.Closed []) {signal : Signal}
    (contained : encoding.circuit.numbering.contains signal = true) {literal : Literal}
    {trace : List Event} (mentions : encoding.Mentions signal literal trace next) :
    next.circuit.WellFormed ∧ next.circuit.Closed [] ∧ encoding.circuit.Encodes next.circuit ∧
      next.circuit.numbering.Denotes literal signal ∧
      next.Faithful start (calls ++ callsOf trace) units := by
  obtain ⟨circuit, count, found, covered⟩ := mentions
  rw [cover_literalOf valid contained found] at covered
  obtain ⟨_, covers, _, after⟩ := faithful.cover valid (closed.mono (by simp)) contained covered
  obtain ⟨_, _, same, denotes⟩ := covers.denoted
  rw [found] at same
  cases same
  exact ⟨covers.wellFormed, covers.closed, covers.encodes, denotes, after⟩

/-- A new fact asks for no verdict. -/
theorem Mentions.solves {encoding next : Encoding ε} (valid : encoding.circuit.WellFormed)
    (closed : encoding.circuit.Closed []) {signal : Signal}
    (contained : encoding.circuit.numbering.contains signal = true) {literal : Literal}
    {trace : List Event} (mentions : encoding.Mentions signal literal trace next) :
    solvesOf (callsOf trace) = 0 := by
  obtain ⟨circuit, count, found, covered⟩ := mentions
  rw [cover_literalOf valid contained found] at covered
  exact cover_solves valid (closed.mono (by simp)) contained covered

/-- A new fact declares before it uses. -/
theorem Faithful.declaredFirst_mentions {start : ε} {calls : List Call} {units : List Literal}
    {encoding next : Encoding ε} (faithful : encoding.Faithful start calls units)
    (counting : Engine.Counting start) (valid : encoding.circuit.WellFormed)
    (closed : encoding.circuit.Closed []) {signal : Signal}
    (contained : encoding.circuit.numbering.contains signal = true) {literal : Literal}
    {trace : List Event} (mentions : encoding.Mentions signal literal trace next) :
    DeclaredFirst encoding.circuit.numbering.numCnf (callsOf trace) := by
  obtain ⟨circuit, count, found, covered⟩ := mentions
  rw [cover_literalOf valid contained found] at covered
  exact faithful.declaredFirst_cover counting valid (closed.mono (by simp)) contained covered

/-- A willing engine never stands in the way of a new fact. -/
theorem Faithful.exists_mentions {start : ε} (willing : Engine.Willing start) {calls : List Call}
    {units : List Literal} {encoding : Encoding ε} (faithful : encoding.Faithful start calls units)
    (valid : encoding.circuit.WellFormed) (closed : encoding.circuit.Closed []) {signal : Signal}
    (contained : encoding.circuit.numbering.contains signal = true) :
    ∃ literal trace next, encoding.Mentions signal literal trace next := by
  obtain ⟨literal, middle, found, _⟩ := valid.literalOf_spec contained
  obtain ⟨trace, count, next, covered⟩ :=
    faithful.exists_cover willing valid (closed.mono (by simp)) contained
  refine ⟨literal, trace, next, middle, count, found, ?_⟩
  rwa [cover_literalOf valid contained found]

/-! ## No variable is handed out -/

theorem submitGate_circuit {encoding next : Encoding ε} {connective : Connective}
    {literals : Triple} {trace : List Event}
    (returned : (encoding.submitGate connective literals).Returns trace next) :
    next.circuit = encoding.circuit := by
  refine Outcome.foldlM_keeps circuit (fun {_ _ template _} step => ?_) returned
  rw [Outcome.returns_bind] at step
  obtain ⟨_, clause, _, _, submitted, _⟩ := step
  exact (submit_returns submitted).2.2.1

/-- Of the circuit nothing changes after the walk. -/
theorem cover_walks {encoding next : Encoding ε} {origin : Signal} {trace : List Event}
    {count : Nat} (returned : (encoding.cover origin).Returns trace (count, next)) :
    ∃ literal middle log fresh, encoding.circuit.literalOf origin = .ok (literal, middle) ∧
      (middle.reach [origin.var]).Returns log (fresh, next.circuit) := by
  simp only [cover, Outcome.returns_bind, Outcome.returns_lift, Outcome.returns_pure,
    Prod.mk.injEq] at returned
  obtain ⟨_, ⟨literal, middle⟩, _, ⟨_, found⟩, ⟨log, ⟨fresh, last⟩, _, walked, ⟨_, declared, _,
    former, ⟨_, _, _, latter, ⟨_, _, _, _, ⟨_, _, rfl⟩, _⟩, _⟩, _⟩, _⟩, _⟩ := returned
  have same : declared.circuit = last := by rw [(declareMinted_returns former).2.2.1]
  have gates : next.circuit = declared.circuit :=
    Outcome.foldlM_keeps circuit submitGate_circuit latter
  rw [gates, same]
  exact ⟨literal, middle, log, fresh, found, walked⟩

theorem cover_numCircuit {encoding next : Encoding ε} {origin : Signal} {trace : List Event}
    {count : Nat} (returned : (encoding.cover origin).Returns trace (count, next)) :
    next.circuit.numbering.numCircuit = encoding.circuit.numbering.numCircuit := by
  obtain ⟨_, _, _, _, found, walked⟩ := cover_walks returned
  rw [Circuit.reach_numCircuit walked, Circuit.literalOf_numCircuit found]

/-- Covering a signal that has a literal leaves the circuit as it is, whatever the engine knows. -/
theorem cover_circuit_of_denotes {encoding next : Encoding ε}
    (valid : encoding.circuit.WellFormed) (closed : encoding.circuit.Closed []) {literal : Literal}
    {signal : Signal} (denotes : encoding.circuit.numbering.Denotes literal signal)
    {trace : List Event} {count : Nat}
    (returned : (encoding.cover signal).Returns trace (count, next)) :
    next.circuit = encoding.circuit := by
  obtain ⟨_, middle, _, _, found, walked⟩ := cover_walks returned
  rw [valid.literalOf_of_denotes denotes] at found
  cases found
  rw [valid.reach_of_mapped closed denotes.1] at walked
  obtain ⟨_, same⟩ := Outcome.returns_pure.mp walked
  exact congrArg Prod.snd same

end Encoding

end CircuitSat
