import CircuitSat.Proofs.Correspondence
import CircuitSat.Proofs.Encoding
import CircuitSat.Proofs.Engine.Scripted

/-! # The walk on any netlist

Gates may use each other in a circle, some may be in clauses already, and operands may be any
signals. The walk still ends. It meets the gates that are not in clauses and that it can come to
through such gates only, each of them once, and faults exactly if one of them has an operand that
was never allocated.
-/

namespace CircuitSat

/-- The gates that are not in clauses and that a walk backward from the roots comes to through such
gates only. -/
inductive Netlist.Meets (netlist : Netlist) (roots : List Nat) : Gate → Prop
  | root {gate : Gate} (member : gate ∈ netlist.gates) (plain : gate.literals = none)
      (here : gate.output.var ∈ roots) : Meets netlist roots gate
  | operand {gate below : Gate} {signal : Signal} (above : Meets netlist roots gate)
      (input : signal ∈ gate.inputs) (member : below ∈ netlist.gates)
      (plain : below.literals = none) (output : below.output.var = signal.var) :
      Meets netlist roots below

namespace Netlist

variable {netlist : Netlist} {roots rest : List Nat} {gate other : Gate}

theorem Meets.member (met : netlist.Meets roots gate) :
    gate ∈ netlist.gates ∧ gate.literals = none := by
  cases met with
  | root member plain | operand _ _ member plain => exact ⟨member, plain⟩

theorem not_meets_nil : ¬netlist.Meets [] gate := by
  intro met
  induction met with
  | root _ _ here => exact List.not_mem_nil here
  | operand _ _ _ _ _ ih => exact ih

/-- A root is done with once its gate, if there is one, is in clauses. -/
theorem meets_cons_iff_of_done {var : Nat}
    (done : ∀ gate ∈ netlist.gates, gate.output.var = var → gate.literals ≠ none) :
    netlist.Meets (var :: rest) gate ↔ netlist.Meets rest gate := by
  constructor
  · intro met
    induction met with
    | root member plain here =>
      rcases List.mem_cons.mp here with same | later
      · exact absurd plain (done _ member same)
      · exact .root member plain later
    | operand _ input member plain output ih => exact .operand ih input member plain output
  · intro met
    induction met with
    | root member plain here => exact .root member plain (List.mem_cons_of_mem _ here)
    | operand _ input member plain output ih => exact .operand ih input member plain output

namespace Indexed

variable {index : Nat}

theorem not_mem_store (indexed : netlist.Indexed) (present : netlist.gates[index]? = some gate)
    (plain : gate.literals = none) (literals : Triple) :
    gate ∉ (netlist.store index gate (some literals)).gates := by
  intro member
  obtain ⟨position, found⟩ := Array.mem_iff_getElem?.mp member
  rw [getElem?_store present] at found
  split at found
  · have same := congrArg Gate.literals (Option.some.inj found)
    rw [plain] at same
    contradiction
  · next apart => exact apart (indexed.distinct present found rfl)

/-- Once a gate has literals, the others are left that have none. -/
theorem mem_store_iff_of_plain (indexed : netlist.Indexed)
    (present : netlist.gates[index]? = some gate) (plain : gate.literals = none)
    (literals : Triple) (bare : other.literals = none) :
    other ∈ (netlist.store index gate (some literals)).gates ↔
      other ∈ netlist.gates ∧ other ≠ gate := by
  constructor
  · intro member
    rcases mem_store present member with rfl | before
    · contradiction
    · refine ⟨before, ?_⟩
      rintro rfl
      exact indexed.not_mem_store present plain literals member
  · rintro ⟨member, apart⟩
    obtain ⟨position, found⟩ := Array.mem_iff_getElem?.mp member
    exact mem_of_getElem? (getElem?_store_of_ne present _ found apart)

/-- To meet the gate of the first root and then what can be met from its operands and from the other
roots is to meet what can be met from all roots. -/
theorem meets_store_iff (indexed : netlist.Indexed)
    (present : netlist.gates[index]? = some gate) (plain : gate.literals = none)
    (literals : Triple) : netlist.Meets (gate.output.var :: rest) other ↔ other = gate ∨
      (netlist.store index gate (some literals)).Meets (rest ++ gate.inputs.map Signal.var)
        other := by
  have here := mem_of_getElem? present
  constructor
  · intro met
    -- The first gate is met through nothing; whatever is met through it is the operand of a root.
    induction met with
    | @root other member bare isRoot =>
      by_cases itself : other = gate
      · exact .inl itself
      refine .inr (.root ?_ bare (List.mem_append_left _ ?_))
      · exact (indexed.mem_store_iff_of_plain present plain literals bare).mpr ⟨member, itself⟩
      · refine (List.mem_cons.mp isRoot).resolve_left fun same => ?_
        exact itself (indexed.eq_of_output member here same)
    | @operand above below signal _ input member bare output ih =>
      by_cases itself : below = gate
      · exact .inl itself
      have stays := (indexed.mem_store_iff_of_plain present plain literals bare).mpr
        ⟨member, itself⟩
      rcases ih with rfl | met
      · exact .inr (.root stays bare
          (List.mem_append_right _ (output ▸ List.mem_map_of_mem input)))
      · exact .inr (.operand met input stays bare output)
  · have first : netlist.Meets (gate.output.var :: rest) gate :=
      .root here plain List.mem_cons_self
    rintro (rfl | met)
    · exact first
    · induction met with
      | root member bare isRoot =>
        have before := (indexed.mem_store_iff_of_plain present plain literals bare).mp member
        rcases List.mem_append.mp isRoot with later | operand
        · exact .root before.1 bare (List.mem_cons_of_mem _ later)
        · obtain ⟨signal, input, same⟩ := List.mem_map.mp operand
          exact .operand first input before.1 bare same.symm
      | operand _ input member bare output ih =>
        have before := (indexed.mem_store_iff_of_plain present plain literals bare).mp member
        exact .operand ih input before.1 bare output

end Indexed

end Netlist

/-- Gates with their literals, each as its connective with its literals. -/
def codesOf (met : List (Gate × Triple)) : List (Connective × Triple) :=
  met.map fun entry => (entry.1.connective, entry.2)

namespace Circuit

/-- What a walk from the queue makes of a circuit, with the gates that it met in their order and the
literals that it gave them. -/
structure Explores (old : Circuit) (queue : List Nat) (met : List (Gate × Triple))
    (new : Circuit) : Prop where
  once : (met.map Prod.fst).Nodup
  met_iff (gate : Gate) : gate ∈ met.map Prod.fst ↔ old.netlist.Meets queue gate
  wellFormed : new.numbering.WellFormed
  extension : Numbering.Extends old.numbering new.numbering
  carries {gate : Gate} {literals : Triple} (member : (gate, literals) ∈ met) :
    new.numbering.Carries literals gate
  encoded {index : Nat} {gate : Gate} {literals : Triple}
    (present : old.netlist.gates[index]? = some gate) (member : (gate, literals) ∈ met) :
    new.netlist.gates[index]? = some (gate.withLiterals (some literals))
  other {index : Nat} {gate : Gate} (present : old.netlist.gates[index]? = some gate)
    (apart : gate ∉ met.map Prod.fst) : new.netlist.gates[index]? = some gate
  size : new.netlist.size = old.netlist.size
  mapped {var image : Nat} (mapped : new.numbering.image? var = some image) :
    old.numbering.image? var = some image ∨ ∃ gate ∈ met.map Prod.fst,
      var = gate.left.var ∨ var = gate.right.var ∨ var = gate.output.var

namespace Explores

variable {old middle new : Circuit} {rest : List Nat} {met : List (Gate × Triple)}

theorem nothing (valid : old.numbering.WellFormed) : old.Explores [] [] old where
  once := .nil
  met_iff _ := iff_of_false List.not_mem_nil Netlist.not_meets_nil
  wellFormed := valid
  extension := .refl _
  carries member := absurd member List.not_mem_nil
  encoded _ member := absurd member List.not_mem_nil
  other present _ := present
  size := rfl
  mapped := .inl

/-- The walk takes no notice of a variable whose gate, if there is one, is in clauses. -/
theorem skip {var : Nat}
    (done : ∀ gate ∈ old.netlist.gates, gate.output.var = var → gate.literals ≠ none)
    (later : old.Explores rest met new) : old.Explores (var :: rest) met new :=
  { later with
    met_iff := fun gate => (later.met_iff gate).trans (Netlist.meets_cons_iff_of_done done).symm }

/-- A gate is given its literals, and the walk goes on with its operands at the end of the queue. -/
theorem step {index : Nat} {gate : Gate} {literals : Triple} (indexed : old.netlist.Indexed)
    (present : old.netlist.gates[index]? = some gate) (plain : gate.literals = none)
    (stored : middle.netlist = old.netlist.store index gate (some literals))
    (extension : Numbering.Extends old.numbering middle.numbering)
    (carries : middle.numbering.Carries literals gate)
    (others : ∀ var, var ≠ gate.left.var → var ≠ gate.right.var → var ≠ gate.output.var →
      middle.numbering.image? var = old.numbering.image? var)
    (later : middle.Explores (rest ++ gate.inputs.map Signal.var) met new) :
    old.Explores (gate.output.var :: rest) ((gate, literals) :: met) new := by
  -- The gate itself is not met again, since it has literals from now on.
  have apart : gate ∉ met.map Prod.fst := by
    intro member
    have again := ((later.met_iff gate).mp member).member.1
    rw [stored] at again
    exact indexed.not_mem_store present plain literals again
  have kept {position : Nat} {other : Gate} (found : old.netlist.gates[position]? = some other)
      (differ : other ≠ gate) : middle.netlist.gates[position]? = some other :=
    stored ▸ Netlist.getElem?_store_of_ne present _ found differ
  refine ⟨List.nodup_cons.mpr ⟨apart, later.once⟩, fun other => ?_, later.wellFormed,
    extension.trans later.extension, fun {other given} member => ?_,
    fun {position other given} found member => ?_, fun {position other} found absent => ?_,
    later.size.trans ?_, fun {var image} mapped => ?_⟩
  · rw [indexed.meets_store_iff present plain literals, ← stored, ← later.met_iff, List.map_cons,
      List.mem_cons]
  · rcases List.mem_cons.mp member with same | member
    · cases same
      exact later.extension.carries carries
    · exact later.carries member
  · rcases List.mem_cons.mp member with same | among
    · cases same
      obtain rfl := indexed.distinct found present rfl
      refine later.other ?_ fun again => ?_
      · rw [stored, Netlist.getElem?_store present, if_pos rfl]
      · have bare : some literals = none := ((later.met_iff _).mp again).member.2
        contradiction
    · refine later.encoded (kept found ?_) among
      rintro rfl
      exact apart (List.mem_map_of_mem among)
  · rw [List.map_cons, List.mem_cons, not_or] at absent
    exact later.other (kept found absent.1) absent.2
  · rw [stored, Netlist.size, Netlist.size, Netlist.store, Array.size_setIfInBounds]
  · rcases later.mapped mapped with before | ⟨other, member, wire⟩
    · by_cases wire : var = gate.left.var ∨ var = gate.right.var ∨ var = gate.output.var
      · exact .inr ⟨gate, List.mem_cons_self, wire⟩
      · rw [not_or, not_or] at wire
        exact .inl ((others var wire.1 wire.2.1 wire.2.2).symm.trans before)
    · exact .inr ⟨other, List.mem_cons_of_mem _ member, wire⟩

end Explores

variable {circuit : Circuit}

/-- The gate of the first variable in the queue can be given its literals. -/
theorem exists_encode_of_allocated {index : Nat} {gate : Gate} {rest : List Nat}
    (valid : circuit.numbering.WellFormed) (small : circuit.numbering.numCircuit ≤ maxVar)
    (present : circuit.netlist.gates[index]? = some gate) (plain : gate.literals = none)
    (queued : ∀ var ∈ gate.output.var :: rest, 0 < var ∧ var ≤ circuit.numbering.numCircuit)
    (allocated : ∀ other, circuit.netlist.Meets (gate.output.var :: rest) other →
      ∀ signal ∈ other.inputs, circuit.numbering.contains signal = true) :
    ∃ literals numbering, circuit.encode index gate =
        .ok (literals, ⟨numbering, circuit.netlist.store index gate (some literals)⟩) ∧
      numbering.WellFormed ∧ Numbering.Extends circuit.numbering numbering ∧
      numbering.Carries literals gate ∧
      ∀ var, var ≠ gate.left.var → var ≠ gate.right.var → var ≠ gate.output.var →
        numbering.image? var = circuit.numbering.image? var := by
  have inputs := allocated gate (.root (Netlist.mem_of_getElem? present) plain List.mem_cons_self)
  have output := Numbering.contains_iff.mpr (queued gate.output.var List.mem_cons_self)
  exact exists_encode valid small present plain (inputs _ (by simp [Gate.inputs]))
    (inputs _ (by simp [Gate.inputs])) output

/-- With all operands allocated the walk returns, and it meets what there is to be met. -/
theorem exists_explores {queue : List Nat} (valid : circuit.numbering.WellFormed)
    (small : circuit.numbering.numCircuit ≤ maxVar) (indexed : circuit.netlist.Indexed)
    (queued : ∀ var ∈ queue, 0 < var ∧ var ≤ circuit.numbering.numCircuit)
    (allocated : ∀ gate, circuit.netlist.Meets queue gate →
      ∀ signal ∈ gate.inputs, circuit.numbering.contains signal = true) :
    ∃ log met last, (circuit.reach queue).Returns log (codesOf met, last) ∧ callsOf log = [] ∧
      circuit.Explores queue met last := by
  fun_induction Circuit.reach circuit queue with
  | case1 circuit => exact ⟨[], [], circuit, by simp [codesOf], rfl, .nothing valid⟩
  | case2 circuit var rest undefined ih =>
    have done (gate : Gate) (member : gate ∈ circuit.netlist.gates)
        (output : gate.output.var = var) : gate.literals ≠ none :=
      indexed.literals_of_undefined undefined member output
    obtain ⟨log, met, last, returned, silent, explores⟩ := ih valid small indexed
      (List.forall_mem_cons.mp queued).2
      fun gate met => allocated gate ((Netlist.meets_cons_iff_of_done done).mpr met)
    exact ⟨log, met, last, returned, silent, explores.skip done⟩
  | case3 circuit var rest index defined absent ih =>
    obtain ⟨gate, present, _⟩ := (indexed.definer var index).mp defined
    simp [present] at absent
  | case4 circuit var rest index defined gate present encoded ih =>
    have done (other : Gate) (member : other ∈ circuit.netlist.gates)
        (output : other.output.var = var) : other.literals ≠ none :=
      indexed.literals_of_encoded defined present encoded member output
    obtain ⟨log, met, last, returned, silent, explores⟩ := ih valid small indexed
      (List.forall_mem_cons.mp queued).2
      fun gate met => allocated gate ((Netlist.meets_cons_iff_of_done done).mpr met)
    exact ⟨log, met, last, returned, silent, explores.skip done⟩
  | case5 circuit var rest index defined gate present plain fault failed =>
    have output := indexed.output_of_definer defined present
    have bare : gate.literals = none := by simpa [Gate.isEncoded] using plain
    obtain ⟨_, _, done, _⟩ := exists_encode_of_allocated valid small present bare
      (output ▸ queued) (output ▸ allocated)
    simp [done] at failed
  | case6 circuit var rest index defined gate present plain literals next done ih =>
    obtain rfl := indexed.output_of_definer defined present
    have bare : gate.literals = none := by simpa [Gate.isEncoded] using plain
    obtain ⟨given, numbering, again, wellFormed, extension, carries, others⟩ :=
      exists_encode_of_allocated valid small present bare queued allocated
    rw [done] at again
    cases again
    have inputs := allocated gate (.root (Netlist.mem_of_getElem? present) bare
      List.mem_cons_self)
    obtain ⟨log, met, last, returned, silent, explores⟩ := ih wellFormed
      (extension.numCircuit ▸ small) (indexed.store present _)
      (extension.numCircuit ▸ List.forall_mem_append.mpr ⟨(List.forall_mem_cons.mp queued).2,
        List.forall_mem_map.mpr fun signal input =>
          Numbering.contains_iff.mp (inputs signal input)⟩)
      fun other met signal input => extension.contains ▸
        allocated other ((indexed.meets_store_iff present bare _).mpr (.inr met)) signal input
    refine ⟨_, (gate, literals) :: met, last, (Outcome.returns_emit_self _).bind
      (returned.bind (Outcome.returns_pure.mpr ⟨rfl, rfl⟩)), ?_,
      explores.step indexed present bare rfl extension carries others⟩
    simpa using silent

/-- A gate that was given literals has allocated operands. -/
theorem contains_of_encode {next : Circuit} {index : Nat} {gate : Gate} {literals : Triple}
    (done : circuit.encode index gate = .ok (literals, next)) {signal : Signal}
    (input : signal ∈ gate.inputs) : circuit.numbering.contains signal = true := by
  simp only [encode, bind_eq_ok_iff, pure_eq_ok_iff, Prod.mk.injEq] at done
  obtain ⟨⟨_, first⟩, left, ⟨_, second⟩, right, _⟩ := done
  simp only [Gate.inputs, List.mem_cons, List.not_mem_nil, or_false] at input
  rcases input with rfl | rfl
  · exact Numbering.contains_of_literalOf left
  · rw [← Numbering.contains_congr (Numbering.literalOf_numCircuit left)]
    exact Numbering.contains_of_literalOf right

theorem encode_netlist {next : Circuit} {index : Nat} {gate : Gate} {literals : Triple}
    (present : circuit.netlist.gates[index]? = some gate) (plain : gate.literals = none)
    (done : circuit.encode index gate = .ok (literals, next)) :
    next.netlist = circuit.netlist.store index gate (some literals) := by
  simp only [encode, bind_eq_ok_iff, pure_eq_ok_iff, Prod.mk.injEq,
    Netlist.setLiterals_eq_ok present plain, Except.ok.injEq] at done
  obtain ⟨_, _, _, _, _, _, _, rfl, rfl, rfl⟩ := done
  rfl

/-- Whatever the walk met before it returned has allocated operands. -/
theorem contains_of_reach {queue : List Nat} {log : List Event}
    {fresh : List (Connective × Triple)} {last : Circuit} (indexed : circuit.netlist.Indexed)
    (returned : (circuit.reach queue).Returns log (fresh, last)) {gate : Gate}
    (met : circuit.netlist.Meets queue gate) {signal : Signal} (input : signal ∈ gate.inputs) :
    circuit.numbering.contains signal = true := by
  fun_induction Circuit.reach circuit queue generalizing log fresh with
  | case1 circuit => exact absurd met Netlist.not_meets_nil
  | case2 circuit var rest undefined ih =>
    exact ih indexed returned ((Netlist.meets_cons_iff_of_done fun other member output =>
      indexed.literals_of_undefined undefined member output).mp met)
  | case3 circuit var rest index defined absent ih =>
    obtain ⟨gate, present, _⟩ := (indexed.definer var index).mp defined
    simp [present] at absent
  | case4 circuit var rest index defined other present encoded ih =>
    exact ih indexed returned ((Netlist.meets_cons_iff_of_done fun other member output =>
      indexed.literals_of_encoded defined present encoded member output).mp met)
  | case5 circuit var rest index defined gate present plain fault failed => simp at returned
  | case6 circuit var rest index defined first present plain literals next done ih =>
    simp only [Outcome.returns_bind, Outcome.returns_pure, Prod.mk.injEq] at returned
    obtain ⟨_, _, _, _, ⟨_, ⟨later, ending⟩, _, walked, ⟨_, rfl, rfl⟩, _⟩, _⟩ := returned
    obtain rfl := indexed.output_of_definer defined present
    have bare : first.literals = none := by simpa [Gate.isEncoded] using plain
    have stored := encode_netlist present bare done
    rcases (indexed.meets_store_iff present bare literals).mp met with rfl | below
    · exact contains_of_encode done input
    · rw [← Numbering.contains_congr (encode_numCircuit done)]
      exact ih (stored ▸ indexed.store present _) walked (stored ▸ below)

/-! ## Covering -/

/-- The origin is allocated, and so is every operand that the walk from it comes to. -/
structure Allocated (circuit : Circuit) (origin : Signal) : Prop where
  itself : circuit.numbering.contains origin = true
  operand {gate : Gate} (met : circuit.netlist.Meets [origin.var] gate) {signal : Signal}
    (input : signal ∈ gate.inputs) : circuit.numbering.contains signal = true

/-- What covering a signal makes of a circuit, with the gates that came to be in clauses and the
literals that each was given. -/
structure Explored (old : Circuit) (origin : Signal) (met : List (Gate × Triple))
    (new : Circuit) : Prop where
  once : (met.map Prod.fst).Nodup
  met_iff (gate : Gate) : gate ∈ met.map Prod.fst ↔ old.netlist.Meets [origin.var] gate
  encoded {index : Nat} {gate : Gate} {literals : Triple}
    (present : old.netlist.gates[index]? = some gate) (member : (gate, literals) ∈ met) :
    new.netlist.gates[index]? = some (gate.withLiterals (some literals))
  literals {gate : Gate} {literals : Triple} (member : (gate, literals) ∈ met) :
    new.numbering.lookup gate.left = .ok (some literals.left) ∧
      new.numbering.lookup gate.right = .ok (some literals.right) ∧
      new.numbering.lookup gate.output = .ok (some literals.output)
  /-- Gates that were not met are as they were, and those in clauses never are. -/
  other {index : Nat} {gate : Gate} (present : old.netlist.gates[index]? = some gate)
    (apart : ¬old.netlist.Meets [origin.var] gate) : new.netlist.gates[index]? = some gate
  size : new.netlist.size = old.netlist.size
  numCircuit : new.numbering.numCircuit = old.numbering.numCircuit
  kept {signal : Signal} {literal : Literal}
    (looked : old.numbering.lookup signal = .ok (some literal)) :
    new.numbering.lookup signal = .ok (some literal)
  /-- Exactly the variables of the origin and of the gates that were met come to be numbered. -/
  named (signal : Signal) : (∃ literal, new.numbering.lookup signal = .ok (some literal)) ↔
    (∃ literal, old.numbering.lookup signal = .ok (some literal)) ∨ signal.var = origin.var ∨
      ∃ gate, old.netlist.Meets [origin.var] gate ∧ (signal.var = gate.left.var ∨
        signal.var = gate.right.var ∨ signal.var = gate.output.var)

theorem exists_lookup_iff {numbering : Numbering} (valid : numbering.WellFormed)
    (small : numbering.numCircuit ≤ maxVar) (signal : Signal) :
    (∃ literal, numbering.lookup signal = .ok (some literal)) ↔
      ∃ image, numbering.image? signal.var = some image := by
  obtain ⟨found, looked, denoted, missing⟩ := Numbering.lookup_spec valid small signal
  constructor
  · rintro ⟨literal, same⟩
    exact ⟨_, ((Numbering.lookup_eq_some_iff valid small).mp same).1⟩
  · rintro ⟨image, mapped⟩
    cases found with
    | none => rw [missing rfl] at mapped; contradiction
    | some literal => exact ⟨literal, looked⟩

/-- The origin gets a literal before the walk. -/
theorem Explores.explored {middle last : Circuit} {origin : Signal} {literal : Literal}
    {met : List (Gate × Triple)} (valid : circuit.numbering.WellFormed)
    (small : circuit.numbering.numCircuit ≤ maxVar)
    (found : circuit.literalOf origin = .ok (literal, middle))
    (explores : middle.Explores [origin.var] met last) : circuit.Explored origin met last := by
  obtain ⟨numbered, same⟩ := literalOf_eq_ok found
  obtain ⟨_, _, again, _, first, denotes, _⟩ :=
    Numbering.literalOf_spec valid small (Numbering.contains_of_literalOf numbered)
  rw [numbered] at again
  cases again
  have extension := first.trans explores.extension
  have fits : last.numbering.numCircuit ≤ maxVar := extension.numCircuit ▸ small
  have looked {signal : Signal} {literal : Literal}
      (denotes : last.numbering.Denotes literal signal) :=
    (Numbering.lookup_eq_some_iff explores.wellFormed fits).mpr denotes
  have metIff := explores.met_iff
  rw [same] at metIff
  refine ⟨explores.once, metIff, fun {index gate literals} present member => ?_,
    fun {gate literals} member => ?_, fun {index gate} present apart => ?_,
    explores.size.trans (congrArg Netlist.size same), extension.numCircuit,
    fun {signal literal} before => ?_, fun signal => ?_⟩
  · exact explores.encoded (same ▸ present) member
  · have carries := explores.carries member
    exact ⟨looked carries.left, looked carries.right, looked carries.output⟩
  · exact explores.other (same ▸ present) fun member => apart ((metIff gate).mp member)
  · exact looked (extension.denotes ((Numbering.lookup_eq_some_iff valid small).mp before))
  · rw [exists_lookup_iff explores.wellFormed fits, exists_lookup_iff valid small]
    constructor
    · rintro ⟨image, mapped⟩
      rcases explores.mapped mapped with before | ⟨gate, member, wire⟩
      · by_cases itself : signal.var = origin.var
        · exact .inr (.inl itself)
        · exact .inl ⟨image, (literalOf_other found itself).symm.trans before⟩
      · exact .inr (.inr ⟨gate, (metIff gate).mp member, wire⟩)
    · rintro (⟨image, before⟩ | itself | ⟨gate, met, wire⟩)
      · exact ⟨image, extension.image before⟩
      · exact ⟨_, itself ▸ explores.extension.image denotes.1⟩
      · obtain ⟨entry, member, rfl⟩ := List.mem_map.mp ((metIff gate).mpr met)
        have carries := explores.carries member
        rcases wire with left | right | output
        · exact ⟨_, left ▸ carries.left.1⟩
        · exact ⟨_, right ▸ carries.right.1⟩
        · exact ⟨_, output ▸ carries.output.1⟩

/-- The walk from an origin with everything allocated. -/
theorem Allocated.exists_explored {origin : Signal} (allocated : circuit.Allocated origin)
    (valid : circuit.numbering.WellFormed) (small : circuit.numbering.numCircuit ≤ maxVar)
    (indexed : circuit.netlist.Indexed) :
    ∃ literal middle log met last, circuit.literalOf origin = .ok (literal, middle) ∧
      (middle.reach [origin.var]).Returns log (codesOf met, last) ∧ callsOf log = [] ∧
      circuit.Explored origin met last ∧ last.numbering.WellFormed ∧
      ∀ connective literals, (connective, literals) ∈ codesOf met → literals.Proper := by
  obtain ⟨literal, numbering, done, wellFormed, extension, _⟩ :=
    Numbering.literalOf_spec valid small allocated.itself
  have found : circuit.literalOf origin = .ok (literal, { circuit with numbering }) := by
    simp only [literalOf, done]
    rfl
  have range := Numbering.contains_iff.mp allocated.itself
  rw [← extension.numCircuit] at range small
  let numbered : Circuit := { circuit with numbering }
  have numberedValid : numbered.numbering.WellFormed := wellFormed
  obtain ⟨log, met, last, walked, silent, explores⟩ :=
    exists_explores numberedValid small indexed (List.forall_mem_singleton.mpr range)
      fun gate met signal input => extension.contains ▸ allocated.operand met input
  refine ⟨literal, _, log, met, last, found, walked, silent,
    explores.explored valid (extension.numCircuit ▸ small) found, explores.wellFormed, ?_⟩
  intro connective literals member
  obtain ⟨entry, among, same⟩ := List.mem_map.mp member
  cases same
  have carries := explores.carries among
  have fits : last.numbering.numCircuit ≤ maxVar := explores.extension.numCircuit ▸ small
  exact ⟨(carries.left.proper explores.wellFormed fits).1,
    (carries.right.proper explores.wellFormed fits).1,
    (carries.output.proper explores.wellFormed fits).1⟩

end Circuit

namespace Encoding

variable {ε : Type} [Engine ε]

/-- Covering does not return unless everything that the walk comes to is allocated. -/
theorem allocated_of_cover {encoding next : Encoding ε} {origin : Signal} {trace : List Event}
    {count : Nat} (indexed : encoding.circuit.netlist.Indexed)
    (returned : (encoding.cover origin).Returns trace (count, next)) :
    encoding.circuit.Allocated origin := by
  obtain ⟨literal, middle, log, fresh, found, walked⟩ := cover_walks returned
  obtain ⟨numbered, same⟩ := Circuit.literalOf_eq_ok found
  refine ⟨Numbering.contains_of_literalOf numbered, fun {gate} met {signal} input => ?_⟩
  rw [← same] at indexed met
  rw [← Numbering.contains_congr (Numbering.literalOf_numCircuit numbered)]
  exact Circuit.contains_of_reach indexed walked met input

/-- The one declaration, if any, that an engine lacks to have so many variables. -/
def declaration (encoding : Encoding ε) (needed : Nat) : List Call :=
  if Engine.numVars encoding.engine < needed then
    [.newVars (needed - Engine.numVars encoding.engine)] else []

/-- What an engine hears when gates come to be in clauses: of the variables that it lacks, and then
the clauses of the gates. -/
structure Informs (old : Encoding ε) (met : List (Gate × Triple)) (calls : List Call)
    (new : Encoding ε) : Prop where
  calls : calls = old.declaration new.circuit.numbering.numCnf ++
    (clausesOfCodes (codesOf met)).map .clause
  engine : ∃ declared, Engine.After old.engine (old.declaration new.circuit.numbering.numCnf)
      declared ∧
    Engine.numVars declared = max (Engine.numVars old.engine) new.circuit.numbering.numCnf ∧
    Engine.After declared ((clausesOfCodes (codesOf met)).map .clause) new.engine
  numClauses : new.numClauses = old.numClauses + (clausesOfCodes (codesOf met)).length

/-- An obliging engine is told of the minted variables. -/
theorem exists_declared {encoding : Encoding ε} (obliging : Engine.Obliging encoding.engine)
    (small : encoding.circuit.numbering.numCnf < UInt64.size) :
    ∃ trace declared, encoding.declareMinted.Returns trace declared ∧
      callsOf trace = encoding.declaration encoding.circuit.numbering.numCnf ∧
      declared.circuit = encoding.circuit ∧ declared.numClauses = encoding.numClauses ∧
      Engine.After encoding.engine (encoding.declaration encoding.circuit.numbering.numCnf)
        declared.engine ∧
      Engine.numVars declared.engine =
        max (Engine.numVars encoding.engine) encoding.circuit.numbering.numCnf := by
  obtain ⟨trace, declared, returned⟩ : ∃ trace declared,
      encoding.declareMinted.Returns trace declared :=
    exists_declareMinted fun fewer => obliging.declares .none (by omega)
  have made : callsOf trace = encoding.declaration encoding.circuit.numbering.numCnf :=
    declareMinted_calls returned
  obtain ⟨after, _, same, _⟩ := declareMinted_returns returned
  rw [made] at after
  refine ⟨trace, declared, returned, made, by rw [same], by rw [same], after, ?_⟩
  unfold declaration at after
  split at after
  · next fewer =>
    rw [← List.nil_append [_], Engine.After.concat_iff] at after
    obtain ⟨last, before, takes⟩ := after
    obtain rfl := Engine.After.nil_iff.mp before
    rw [obliging.counts .none takes]
    omega
  · next enough =>
    rw [Engine.After.nil_iff.mp after]
    omega

/-- With all that the walk comes to allocated, covering returns. -/
theorem exists_cover_of_allocated {encoding : Encoding ε} {origin : Signal}
    (allocated : encoding.circuit.Allocated origin) (valid : encoding.circuit.numbering.WellFormed)
    (small : encoding.circuit.numbering.numCircuit ≤ maxVar)
    (indexed : encoding.circuit.netlist.Indexed) (obliging : Engine.Obliging encoding.engine) :
    ∃ trace met next, (encoding.cover origin).Returns trace (met.length, next) ∧
      encoding.circuit.Explored origin met next.circuit ∧
      encoding.Informs met (callsOf trace) next := by
  obtain ⟨literal, middle, log, met, last, found, walked, silent, explored, wellFormed, proper⟩ :=
    allocated.exists_explored valid small indexed
  let walking : Encoding ε := { encoding with circuit := last }
  have few : walking.circuit.numbering.numCnf < UInt64.size := by
    have fewer := wellFormed.numCnf_le
    have same := explored.numCircuit
    change last.numbering.numCnf < UInt64.size
    simp only [maxVar, UInt64.size] at small ⊢
    omega
  obtain ⟨first, declared, former, made, circuit, count, after, numVars⟩ :=
    exists_declared (show Engine.Obliging walking.engine from obliging) few
  obtain ⟨second, next, latter⟩ : ∃ second next,
      (declared.submitAll (clausesOfCodes (codesOf met))).Returns second next :=
    exists_submitAll fun before engine further clause _ =>
      obliging.submits (after.append further) clause
  obtain ⟨handed, informed, same, total⟩ := submitAll_returns latter
  obtain rfl : next.circuit = last := same.trans circuit
  refine ⟨_, met, next, (cover_returns_iff found walked proper).mpr
    ⟨first, declared, second, former, latter, by simp [codesOf], rfl⟩, explored, ?_, ?_, ?_⟩
  · simp [silent, made, handed]
    rfl
  · exact ⟨declared.engine, after, numVars, informed⟩
  · rw [total, count]

/-- Covering any signal over any netlist: it faults exactly if the signal or an operand that the
walk comes to was never allocated. Otherwise it puts exactly the gates that the walk meets into
clauses, and the engine hears of just these. -/
theorem cover_exact {encoding : Encoding ε} {origin : Signal}
    (leads : Numbering.Leads .empty encoding.circuit.numbering)
    (small : encoding.circuit.numbering.numCircuit ≤ maxVar)
    (built : encoding.circuit.netlist.Built) (obliging : Engine.Obliging encoding.engine) :
    ((∃ fault, (encoding.cover origin).result = .error fault) ↔
        ¬encoding.circuit.Allocated origin) ∧
      (encoding.circuit.Allocated origin → ∃ trace met next,
        (encoding.cover origin).Returns trace (met.length, next) ∧
        encoding.circuit.Explored origin met next.circuit ∧
        encoding.Informs met (callsOf trace) next) := by
  obtain ⟨valid, _⟩ := leads.keeps Numbering.wellFormed_empty small
  have returns (allocated : encoding.circuit.Allocated origin) :=
    exists_cover_of_allocated allocated valid small built.indexed obliging
  refine ⟨⟨?_, fun missing => ?_⟩, returns⟩
  · rintro ⟨fault, failed⟩ allocated
    obtain ⟨trace, met, next, returned, _⟩ := returns allocated
    rw [returned] at failed
    contradiction
  · cases ended : (encoding.cover origin).result with
    | error fault => exact ⟨fault, rfl⟩
    | ok done =>
      exact absurd (allocated_of_cover built.indexed (Outcome.returns_of_result ended)) missing

/-- Two gates use each other, one of them is met with a negated operand, one is in clauses already,
and one has an operand that was never allocated. -/
theorem cover_exact_of_circle : ∃ netlist : Netlist,
    let encoding : Encoding Scripted :=
      ⟨⟨⟨#[none, some 1, none, none, none], #[2]⟩, netlist⟩, 7, ⟨[], 3, #[], #[false]⟩⟩
    netlist.gates = #[⟨⟨⟨-4⟩, .and, ⟨1⟩⟩, ⟨3⟩, none⟩, ⟨⟨⟨2⟩, .xor, ⟨3⟩⟩, ⟨4⟩, none⟩,
      ⟨⟨⟨1⟩, .or, ⟨1⟩⟩, ⟨2⟩, some ⟨⟨3⟩, ⟨3⟩, ⟨1⟩⟩⟩, ⟨⟨⟨-9⟩, .nor, ⟨5⟩⟩, ⟨5⟩, none⟩] ∧
    Numbering.Leads .empty encoding.circuit.numbering ∧
    encoding.circuit.numbering.numCircuit ≤ maxVar ∧ netlist.Built ∧
    Engine.Obliging encoding.engine ∧
    (∃ fault, (encoding.cover ⟨5⟩).result = .error fault) ∧
    ∃ trace met next, (encoding.cover ⟨-3⟩).Returns trace (met.length, next) ∧
      encoding.circuit.Explored ⟨-3⟩ met next.circuit ∧
      encoding.Informs met (callsOf trace) next := by
  obtain ⟨first, builtFirst, gatesFirst⟩ :=
    Netlist.Built.empty.exists_insert ⟨⟨-4⟩, .and, ⟨1⟩⟩ ⟨3⟩ rfl (by decide)
  obtain ⟨second, builtSecond, gatesSecond⟩ :=
    builtFirst.exists_insert ⟨⟨2⟩, .xor, ⟨3⟩⟩ ⟨4⟩ rfl (by rw [gatesFirst]; decide)
  rw [gatesFirst] at gatesSecond
  obtain ⟨third, builtThird, gatesThird⟩ :=
    builtSecond.exists_insert ⟨⟨1⟩, .or, ⟨1⟩⟩ ⟨2⟩ rfl (by rw [gatesSecond]; decide)
  rw [gatesSecond] at gatesThird
  obtain ⟨fourth, builtFourth, gatesFourth⟩ :=
    builtThird.exists_setLiterals 2 (by rw [gatesThird]; rfl) rfl ⟨⟨3⟩, ⟨3⟩, ⟨1⟩⟩
  rw [gatesThird] at gatesFourth
  obtain ⟨netlist, built, gates⟩ :=
    builtFourth.exists_insert ⟨⟨-9⟩, .nor, ⟨5⟩⟩ ⟨5⟩ rfl (by rw [gatesFourth]; decide)
  rw [gatesFourth] at gates
  have allocations : Numbering.Leads .empty ⟨#[none, none, none, none, none], #[]⟩ :=
    ((((Numbering.Leads.refl.allocate rfl).allocate rfl).allocate rfl).allocate rfl).allocate rfl
  have asked : Numbering.literalOf ⟨#[none, none, none, none, none], #[]⟩ ⟨2⟩ =
      .ok (⟨1⟩, ⟨#[none, some 1, none, none, none], #[2]⟩) := rfl
  have leads := allocations.literalOf asked
  have small : Numbering.numCircuit ⟨#[none, some 1, none, none, none], #[2]⟩ ≤ maxVar := by decide
  have obliging := Scripted.obliging ⟨[], 3, #[], #[false]⟩
  refine ⟨netlist, gates, leads, small, built, obliging, ?_, ?_⟩
  · refine (cover_exact leads small built obliging).1.mpr fun allocated => ?_
    have last : netlist.gates[3]? = some ⟨⟨⟨-9⟩, .nor, ⟨5⟩⟩, ⟨5⟩, none⟩ := by rw [gates]; rfl
    have met : netlist.Meets [5] ⟨⟨⟨-9⟩, .nor, ⟨5⟩⟩, ⟨5⟩, none⟩ :=
      .root (Netlist.mem_of_getElem? last) rfl (by decide)
    have contained := allocated.operand met List.mem_cons_self
    contradiction
  · refine (cover_exact leads small built obliging).2 ⟨rfl, fun {gate} met => ?_⟩
    -- No walk from the third variable comes to the fifth.
    have inner : ∀ gate ∈ netlist.gates, gate.output.var ≠ 5 → ∀ signal ∈ gate.inputs,
        signal.var ≠ 5 ∧ (⟨#[none, some 1, none, none, none], #[2]⟩ : Numbering).contains
          signal = true := by
      rw [gates]
      decide
    have apart : gate.output.var ≠ 5 := by
      induction met with
      | root _ _ here => rw [List.mem_singleton.mp here]; decide
      | operand above input _ _ output ih =>
        exact output ▸ (inner _ above.member.1 ih _ input).1
    exact fun {signal} input => (inner gate met.member.1 apart signal input).2

end Encoding

end CircuitSat
