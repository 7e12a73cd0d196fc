import CircuitSat.Proofs.Session.Refinement

/-! # What every run keeps up

The circuit is well formed and closed, the engine has the clauses of what is in clauses, and the
literals of a session are those of the signals that were asserted and assumed. So the engine can
satisfy what it was given exactly if the circuit has a consistent assignment for these facts.
-/

namespace CircuitSat

open List (Forall₂)

theorem exists_of_forall₂ {α β : Type} {relation : α → β → Prop} {left : List α} {right : List β}
    (both : Forall₂ relation left right) {item : α} (member : item ∈ left) :
    ∃ other ∈ right, relation item other := by
  induction both with
  | nil => contradiction
  | cons head _ ih =>
    rcases List.mem_cons.mp member with rfl | later
    · exact ⟨_, List.mem_cons_self, head⟩
    · obtain ⟨other, among, related⟩ := ih later
      exact ⟨other, List.mem_cons_of_mem _ among, related⟩

namespace Numbering

variable {numbering : Numbering} {literals : List Literal} {signals : List Signal}
  {literal : Literal} {signal : Signal}

/-- The literals of a list are among others exactly if the signals are. -/
theorem mem_iff_of_denotes (valid : numbering.WellFormed)
    (both : Forall₂ numbering.Denotes literals signals)
    (denotes : numbering.Denotes literal signal) :
    literal ∈ literals ↔ signal ∈ signals :=
  List.rel_mem (R := numbering.Denotes) ⟨fun _ _ _ left right => left.unique right,
    fun _ _ _ left right => valid.denotes_injective left right⟩ denotes both

theorem forall₂_noted (valid : numbering.WellFormed)
    (both : Forall₂ numbering.Denotes literals signals)
    (denotes : numbering.Denotes literal signal) :
    Forall₂ numbering.Denotes (if literal ∈ literals then literals else literals ++ [literal])
      (noted signals signal) := by
  rw [noted]
  by_cases known : literal ∈ literals
  · rwa [if_pos known, if_pos ((mem_iff_of_denotes valid both denotes).mp known)]
  · rw [if_neg known, if_neg fun member =>
      known ((mem_iff_of_denotes valid both denotes).mpr member)]
    exact List.rel_append both (.cons denotes .nil)

/-- Dropping a variable on one side drops it on the other. -/
theorem forall₂_filter (valid : numbering.WellFormed)
    (both : Forall₂ numbering.Denotes literals signals)
    (denotes : numbering.Denotes literal signal) :
    Forall₂ numbering.Denotes (literals.filter (·.var ≠ literal.var))
      (signals.filter (·.var ≠ signal.var)) := by
  refine List.rel_filter (fun first other head => ?_) both
  simp only [decide_eq_true_eq, ne_eq, not_iff_not]
  constructor
  · intro same
    exact valid.image_injective (same ▸ head.1) denotes.1
  · intro same
    exact Option.some.inj ((same ▸ head.1).symm.trans denotes.1)

/-- A variable without a literal is none of these. -/
theorem filter_of_unmapped (both : Forall₂ numbering.Denotes literals signals)
    (unmapped : numbering.image? signal.var = none) :
    signals.filter (·.var ≠ signal.var) = signals := by
  rw [List.filter_eq_self]
  intro other member
  rw [decide_eq_true_eq]
  intro same
  obtain ⟨literal, _, denotes⟩ := exists_of_forall₂ both.flip member
  rw [← same, denotes.1] at unmapped
  contradiction

theorem forall₂_mono {old new : Numbering}
    (image : ∀ {var image : Nat}, old.image? var = some image → new.image? var = some image)
    (both : Forall₂ old.Denotes literals signals) : Forall₂ new.Denotes literals signals :=
  both.imp fun _ _ denotes => ⟨image denotes.1, denotes.2⟩

end Numbering

namespace Session

variable {ε : Type} [Engine ε]

/-- The invariant of a session on an engine that took some calls, with the facts of its run. -/
structure Sound (start : ε) (calls : List Call) (facts : Facts) (session : Session ε) : Prop where
  circuit : session.circuit.WellFormed
  closed : session.circuit.Closed []
  faithful : session.encoding.Faithful start calls session.submitted
  asserted : Forall₂ session.circuit.numbering.Denotes session.asserted facts.asserted
  assumed : Forall₂ session.circuit.numbering.Denotes session.assumptions facts.assumed

namespace Sound

variable {start : ε} {calls : List Call} {facts : Facts} {session next : Session ε}

/-- A new session. -/
theorem initial {engine : ε} {settings : Settings} {opening : List Event}
    (started : (Session.start engine settings).Returns opening session) :
    session.Sound engine (callsOf opening) Facts.none := by
  obtain ⟨ready, after, made, rfl⟩ := start_returns started
  have faithful := (Encoding.Faithful.initial engine).idle after (by rw [made]; rfl)
    (by rw [made]; simp)
  refine ⟨⟨Numbering.wellFormed_empty, Nat.zero_le _, Netlist.indexed_empty, ?_, ?_⟩, ?_, ?_, .nil,
    .nil⟩
  · exact fun member => absurd member (Array.not_mem_empty _)
  · exact fun member => absurd member (Array.not_mem_empty _)
  · exact fun gate member => absurd member (Array.not_mem_empty _)
  · exact faithful

/-- The circuit grew, but of what is in clauses nothing changed. -/
theorem withCircuit (sound : session.Sound start calls facts) {circuit : Circuit}
    (valid : circuit.WellFormed) (closed : circuit.Closed [])
    (grows : session.circuit.Grows circuit)
    (codes : circuit.netlist.codes = session.circuit.netlist.codes)
    (numCnf : circuit.numbering.numCnf = session.circuit.numbering.numCnf)
    (valuation : Valuation) :
    Sound start calls facts { session with encoding.circuit := circuit, valuation } where
  circuit := valid
  closed := closed
  faithful := sound.faithful.withCircuit codes numCnf
  asserted := Numbering.forall₂_mono grows.image sound.asserted
  assumed := Numbering.forall₂_mono grows.image sound.assumed

/-- A signal is given its literal and covered, and the lists of facts are what they should be. -/
theorem withEncoding (sound : session.Sound start calls facts) {signal : Signal}
    {literal : Literal} {trace : List Event} {encoding : Encoding ε}
    (contained : session.circuit.numbering.contains signal = true)
    (mentions : session.encoding.Mentions signal literal trace encoding) :
    ({ session with encoding } : Session ε).Sound start (calls ++ callsOf trace) facts ∧
      session.circuit.Encodes encoding.circuit ∧
      encoding.circuit.numbering.Denotes literal signal := by
  obtain ⟨valid, closed, encodes, denotes, faithful⟩ :=
    sound.faithful.mentions sound.circuit sound.closed contained mentions
  have image {var image : Nat} (mapped : session.circuit.numbering.image? var = some image) :
      encoding.circuit.numbering.image? var = some image := encodes.numbering.image mapped
  exact ⟨⟨valid, closed, faithful, Numbering.forall₂_mono image sound.asserted,
    Numbering.forall₂_mono image sound.assumed⟩, encodes, denotes⟩

/-- The unit clause of a new assertion waits. -/
theorem assert (sound : session.Sound start calls facts) {signal : Signal} {literal : Literal}
    {trace : List Event} {encoding : Encoding ε}
    (contained : session.circuit.numbering.contains signal = true)
    (mentions : session.encoding.Mentions signal literal trace encoding) :
    ({ session with
      encoding
      pending := if literal ∈ session.asserted then session.pending
        else session.pending ++ [literal] } : Session ε).Sound start (calls ++ callsOf trace)
      { facts with asserted := noted facts.asserted signal } := by
  obtain ⟨after, _, denotes⟩ := sound.withEncoding contained mentions
  refine ⟨after.circuit, after.closed, after.faithful, ?_, after.assumed⟩
  have both := Numbering.forall₂_noted after.circuit.numbering after.asserted denotes
  change Forall₂ _ (session.submitted ++ if literal ∈ session.asserted then session.pending
    else session.pending ++ [literal]) (noted facts.asserted signal)
  change Forall₂ _ (if literal ∈ session.asserted then session.asserted
    else session.asserted ++ [literal]) _ at both
  split at both
  · next known => rwa [if_pos known]
  · next fresh => rwa [if_neg fresh, ← List.append_assoc]

theorem assume (sound : session.Sound start calls facts) {signal : Signal} {literal : Literal}
    {trace : List Event} {encoding : Encoding ε}
    (contained : session.circuit.numbering.contains signal = true)
    (mentions : session.encoding.Mentions signal literal trace encoding) :
    ({ session with
      encoding
      assumptions := if literal ∈ session.assumptions then session.assumptions
        else session.assumptions ++ [literal] } : Session ε).Sound start (calls ++ callsOf trace)
      { facts with assumed := noted facts.assumed signal } := by
  obtain ⟨after, _, denotes⟩ := sound.withEncoding contained mentions
  exact ⟨after.circuit, after.closed, after.faithful, after.asserted,
    Numbering.forall₂_noted after.circuit.numbering after.assumed denotes⟩

omit [Engine ε] in
/-- The assumptions left are those on other variables. -/
theorem assumed_retract {literals : List Literal} {signals : List Signal} {numbering : Numbering}
    (valid : numbering.WellFormed) (small : numbering.numCircuit ≤ maxVar)
    (both : Forall₂ numbering.Denotes literals signals) {signal : Signal} {found : Option Literal}
    (looked : numbering.lookup signal = .ok found) :
    Forall₂ numbering.Denotes (without literals found)
      (signals.filter (·.var ≠ signal.var)) := by
  obtain ⟨other, again, denoted, unmapped⟩ := Numbering.lookup_spec valid small signal
  rw [looked] at again
  cases again
  cases found with
  | none =>
    rw [Numbering.filter_of_unmapped both (unmapped rfl)]
    exact both
  | some literal => exact Numbering.forall₂_filter valid both ((denoted literal).mp rfl)

theorem retract (sound : session.Sound start calls facts) {signal : Signal}
    {found : Option Literal} (looked : session.circuit.numbering.lookup signal = .ok found) :
    ({ session with assumptions := without session.assumptions found } : Session ε).Sound start
      calls { facts with assumed := facts.assumed.filter (·.var ≠ signal.var) } where
  circuit := sound.circuit
  closed := sound.closed
  faithful := sound.faithful
  asserted := sound.asserted
  assumed :=
    assumed_retract sound.circuit.numbering sound.circuit.small sound.assumed looked

end Sound

end Session

end CircuitSat
