import CircuitSat.Proofs.Circuit.Growth
import CircuitSat.Proofs.Encoding

/-! # Exactly the cone is numbered

The cone of some signals holds their variables and all that these are computed from. Covering a
signal numbers nothing outside of the cones of what was covered. Conversely nothing of these cones
is left out: in a closed circuit the gate of a numbered variable is in clauses, and with it its
operands are numbered.
-/

namespace CircuitSat

/-- The variables of the roots and, with the output of a gate, those of its operands. -/
inductive Netlist.InCone (netlist : Netlist) (roots : List Signal) : Nat → Prop
  | root {signal : Signal} (member : signal ∈ roots) : InCone netlist roots signal.var
  | operand {gate : Gate} {signal : Signal} (member : gate ∈ netlist.gates)
      (output : InCone netlist roots gate.output.var) (input : signal ∈ gate.inputs) :
      InCone netlist roots signal.var

/-- Literals of gates do not matter, and further roots and gates take nothing away. -/
theorem Netlist.InCone.mono {netlist next : Netlist} {roots more : List Signal}
    (gates : ∀ gate ∈ netlist.gates, ∃ after ∈ next.gates, after.Alike gate)
    (kept : ∀ signal ∈ roots, signal ∈ more) {var : Nat} (inside : netlist.InCone roots var) :
    next.InCone more var := by
  induction inside with
  | root member => exact .root (kept _ member)
  | @operand gate signal member _ input ih =>
    obtain ⟨after, present, alike⟩ := gates gate member
    obtain ⟨left, right, _⟩ := alike.inputs
    refine .operand present (alike.2 ▸ ih) ?_
    rwa [Gate.inputs, left, right]

namespace Circuit

/-- No variable outside of the cone is numbered. -/
def Within (circuit : Circuit) (roots : List Signal) : Prop :=
  ∀ var image, circuit.numbering.image? var = some image → circuit.netlist.InCone roots var

/-- All roots are numbered, and nothing outside of their cone is. -/
structure Spans (circuit : Circuit) (roots : List Signal) : Prop where
  rooted (signal : Signal) (member : signal ∈ roots) :
    ∃ image, circuit.numbering.image? signal.var = some image
  within : circuit.Within roots

variable {old new circuit : Circuit} {roots more : List Signal}

theorem Within.grows (within : old.Within roots) (grows : old.Grows new)
    (same : ∀ var, new.numbering.image? var = old.numbering.image? var) : new.Within roots := by
  intro var image mapped
  rw [same] at mapped
  exact (within var image mapped).mono (fun _ => grows.gate) fun _ member => member

namespace Spans

theorem empty : Circuit.empty.Spans [] where
  rooted _ member := absurd member List.not_mem_nil
  within var image mapped := by
    cases var <;> simp [Circuit.empty, Numbering.empty, Numbering.image?] at mapped

/-- Nothing is numbered while inputs and gates are added. -/
theorem grows (spans : old.Spans roots) (grows : old.Grows new)
    (same : ∀ var, new.numbering.image? var = old.numbering.image? var) : new.Spans roots where
  rooted signal member := by
    rw [same]
    exact spans.rooted signal member
  within := spans.within.grows grows same

/-- Only the set of roots counts. -/
theorem congr (spans : circuit.Spans roots) (same : ∀ signal, signal ∈ roots ↔ signal ∈ more) :
    circuit.Spans more where
  rooted signal member := spans.rooted signal ((same signal).mpr member)
  within var image mapped :=
    (spans.within var image mapped).mono (fun gate member => ⟨gate, member, .refl gate⟩)
      fun signal => (same signal).mp

end Spans

/-! ## The walk stays in the cone -/

theorem Encodes.inCone (encodes : old.Encodes new) {var : Nat}
    (inside : old.netlist.InCone roots var) : new.netlist.InCone roots var :=
  inside.mono (fun _ => encodes.exists_new) fun _ member => member

/-- A gate of the cone is put into clauses without numbering anything outside of the cone. -/
theorem encode_within {gate : Gate} {index : Nat} {literals : Triple}
    (encodes : old.Encodes new) (done : old.encode index gate = .ok (literals, new))
    (member : gate ∈ old.netlist.gates) (inside : old.netlist.InCone roots gate.output.var)
    (within : old.Within roots) : new.Within roots := by
  intro var image mapped
  -- An image that is new belongs to one of the three wires of the gate.
  by_cases isLeft : var = gate.left.var
  · exact isLeft ▸ encodes.inCone (.operand member inside (by simp [Gate.inputs]))
  by_cases isRight : var = gate.right.var
  · exact isRight ▸ encodes.inCone (.operand member inside (by simp [Gate.inputs]))
  by_cases isOutput : var = gate.output.var
  · exact isOutput ▸ encodes.inCone inside
  rw [encode_other done isLeft isRight isOutput] at mapped
  exact encodes.inCone (within var image mapped)

namespace WellFormed

/-- Nothing but a gate that was met and its operands is numbered on the way. -/
theorem reach_within (valid : circuit.WellFormed) {queue : List Nat} {trace : List Event}
    {fresh : List (Connective × Triple)} {last : Circuit}
    (returned : (circuit.reach queue).Returns trace (fresh, last))
    (waiting : ∀ var ∈ queue, circuit.netlist.InCone roots var) (within : circuit.Within roots) :
    last.Within roots := by
  fun_induction Circuit.reach circuit queue generalizing trace fresh with
  | case1 circuit =>
    obtain ⟨_, same⟩ := Outcome.returns_pure.mp returned
    cases same
    exact within
  | case2 _ _ _ _ ih | case3 _ _ _ _ _ _ ih | case4 _ _ _ _ _ _ _ _ ih =>
    exact ih valid returned (List.forall_mem_cons.mp waiting).2 within
  | case5 => simp at returned
  | case6 circuit var rest index defined gate present plain literals next done ih =>
    simp only [Outcome.returns_bind, Outcome.returns_pure, Prod.mk.injEq] at returned
    obtain ⟨_, _, _, _, ⟨_, ⟨later, ending⟩, _, walked, ⟨_, rfl, rfl⟩, _⟩, _⟩ := returned
    have bare : gate.literals = none := by simpa [Gate.isEncoded] using plain
    obtain ⟨_, _, again, wellFormed, encodes, _⟩ := valid.encode_spec present bare
    rw [done] at again
    cases again
    obtain rfl := valid.indexed.output_of_definer defined present
    obtain ⟨head, others⟩ := List.forall_mem_cons.mp waiting
    have member := Netlist.mem_of_getElem? present
    refine ih wellFormed walked ?_ (encode_within encodes done member head within)
    have met : ∀ other ∈ rest ++ gate.inputs.map Signal.var,
        circuit.netlist.InCone roots other :=
      List.forall_mem_append.mpr ⟨others,
        List.forall_mem_map.mpr fun _ input => .operand member head input⟩
    exact fun other among => encodes.inCone (met other among)

end WellFormed

end Circuit

namespace Encoding

variable {ε : Type} [Engine ε] {encoding next : Encoding ε} {roots : List Signal} {signal : Signal}
  {trace : List Event}

/-- Covering a signal of the cone numbers nothing outside of the cone. -/
theorem cover_within (valid : encoding.circuit.WellFormed)
    (contained : encoding.circuit.numbering.contains signal = true) {count : Nat}
    (returned : (encoding.cover signal).Returns trace (count, next))
    (inside : encoding.circuit.netlist.InCone roots signal.var)
    (within : encoding.circuit.Within roots) : next.circuit.Within roots := by
  obtain ⟨_, middle, _, _, found, walked⟩ := cover_walks returned
  obtain ⟨_, _, again, wellFormed, encodes, gates, _⟩ := valid.literalOf_spec contained
  rw [found] at again
  cases again
  have kept {var : Nat} (inside : encoding.circuit.netlist.InCone roots var) :
      middle.netlist.InCone roots var := gates ▸ inside
  apply wellFormed.reach_within walked
  · intro var member
    obtain rfl := List.mem_singleton.mp member
    exact kept inside
  · intro var image mapped
    by_cases itself : var = signal.var
    · exact itself ▸ kept inside
    · rw [Circuit.literalOf_other found itself] at mapped
      exact kept (within var image mapped)

/-- A new fact is one root more. -/
theorem Mentions.spans (valid : encoding.circuit.WellFormed)
    (contained : encoding.circuit.numbering.contains signal = true) {literal : Literal}
    (mentions : encoding.Mentions signal literal trace next)
    (encodes : encoding.circuit.Encodes next.circuit)
    (denotes : next.circuit.numbering.Denotes literal signal)
    (spans : encoding.circuit.Spans roots) : next.circuit.Spans (roots ++ [signal]) := by
  obtain ⟨_, count, found, covered⟩ := mentions
  rw [cover_literalOf valid contained found] at covered
  constructor
  · intro other member
    rcases List.mem_append.mp member with before | itself
    · obtain ⟨image, mapped⟩ := spans.rooted other before
      exact ⟨image, encodes.numbering.image mapped⟩
    · obtain rfl := List.mem_singleton.mp itself
      exact ⟨literal.var, denotes.1⟩
  · apply cover_within valid contained covered
    · exact .root (List.mem_append_right _ List.mem_cons_self)
    · intro var image mapped
      exact (spans.within var image mapped).mono (fun gate member => ⟨gate, member, .refl gate⟩)
        fun _ => List.mem_append_left _

end Encoding

/-! ## The whole cone is numbered -/

namespace Circuit.Spans

variable {circuit : Circuit} {roots : List Signal}

/-- Exactly the variables of the cone are numbered. -/
theorem mapped_iff (spans : circuit.Spans roots) (valid : circuit.WellFormed)
    (closed : circuit.Closed []) {var : Nat} :
    (∃ image, circuit.numbering.image? var = some image) ↔ circuit.netlist.InCone roots var := by
  constructor
  · rintro ⟨image, mapped⟩
    exact spans.within var image mapped
  · intro inside
    induction inside with
    | root member => exact spans.rooted _ member
    | @operand gate signal member _ input ih =>
      obtain ⟨image, mapped⟩ := ih
      obtain waiting | ⟨literals, encoded⟩ := closed gate member image mapped
      · contradiction
      · have carries := valid.carried member encoded
        simp only [Gate.inputs, List.mem_cons, List.not_mem_nil, or_false] at input
        rcases input with rfl | rfl
        · exact ⟨_, carries.left.1⟩
        · exact ⟨_, carries.right.1⟩

/-- Exactly the gates whose output lies in the cone are in clauses. -/
theorem encoded_iff (spans : circuit.Spans roots) (valid : circuit.WellFormed)
    (closed : circuit.Closed []) {gate : Gate} (member : gate ∈ circuit.netlist.gates) :
    gate.isEncoded = true ↔ circuit.netlist.InCone roots gate.output.var := by
  rw [← spans.mapped_iff valid closed, Gate.isEncoded, Option.isSome_iff_exists]
  constructor
  · rintro ⟨literals, encoded⟩
    exact ⟨_, (valid.carried member encoded).output.1⟩
  · rintro ⟨image, mapped⟩
    exact (closed gate member image mapped).resolve_left List.not_mem_nil

end Circuit.Spans

end CircuitSat
