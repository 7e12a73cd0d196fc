import CircuitSat.Proofs.Netlist
import CircuitSat.Proofs.Numbering
import CircuitSat.Proofs.Outcome
import CircuitSat.Valuation.Propagation

/-! # Values spread to a least fixed point

Whatever the gates are like, spreading ends with the values that were there and those of the outputs
that chains of gates reach, each worth what its gate calls for. The queue is what carries this: a
gate that could pass a value on has a visit waiting as long as it did not.
-/

namespace CircuitSat

namespace Valuation

variable {valuation : Valuation}

theorem value?_eq_some_iff {signal : Signal} {value : Bool} :
    valuation.value? signal = some value ↔
      valuation.get? signal.var = some (value != signal.negated) := by
  rw [value?, Option.map_eq_some_iff]
  constructor
  · rintro ⟨found, valued, rfl⟩
    rw [valued]
    cases found <;> cases signal.negated <;> rfl
  · intro valued
    exact ⟨_, valued, by cases value <;> cases signal.negated <;> rfl⟩

theorem infer?_eq_some_iff {gate : Gate} {value : Bool} :
    valuation.infer? gate = some value ↔
      ∃ left right, valuation.get? gate.left.var = some left ∧
        valuation.get? gate.right.var = some right ∧
        value = gate.connective.eval (left != gate.left.negated) (right != gate.right.negated) := by
  simp only [infer?, value?, bind, Option.bind_eq_some_iff, Option.map_eq_some_iff, pure,
    Option.some.injEq]
  constructor
  · rintro ⟨_, ⟨left, atLeft, rfl⟩, _, ⟨right, atRight, rfl⟩, rfl⟩
    exact ⟨left, right, atLeft, atRight, rfl⟩
  · rintro ⟨left, right, atLeft, atRight, rfl⟩
    exact ⟨_, ⟨left, atLeft, rfl⟩, _, ⟨right, atRight, rfl⟩, rfl⟩

theorem infer?_isSome_iff {gate : Gate} : (valuation.infer? gate).isSome ↔
    (valuation.get? gate.left.var).isSome ∧ (valuation.get? gate.right.var).isSome := by
  simp only [Option.isSome_iff_exists, infer?_eq_some_iff]
  constructor
  · rintro ⟨_, left, right, atLeft, atRight, _⟩
    exact ⟨⟨left, atLeft⟩, ⟨right, atRight⟩⟩
  · rintro ⟨⟨left, atLeft⟩, ⟨right, atRight⟩⟩
    exact ⟨_, left, right, atLeft, atRight, rfl⟩

/-- A gate calls for the same value as long as the values of its operands are the same. -/
theorem infer?_congr {other : Valuation} {gate : Gate}
    (left : valuation.get? gate.left.var = other.get? gate.left.var)
    (right : valuation.get? gate.right.var = other.get? gate.right.var) :
    valuation.infer? gate = other.infer? gate := by
  rw [infer?, infer?, value?, value?, value?, value?, left, right]

theorem infer?_alike {gate other : Gate} (alike : gate.Alike other) :
    valuation.infer? gate = valuation.infer? other := by
  obtain ⟨left, right, connective⟩ := alike.inputs
  rw [infer?, infer?, left, right, connective]

/-- A new value changes none that are there. -/
theorem get?_assign_of_isSome {output var : Nat} (waiting : valuation.get? output = none)
    (value : Bool) (valued : (valuation.get? var).isSome) :
    (valuation.assign output value).get? var = valuation.get? var := by
  rw [get?_assign, if_neg]
  rintro rfl
  rw [waiting] at valued
  contradiction

/-- Nor does it change what was read off from values. -/
theorem infer?_assign_of_isSome {output : Nat} (waiting : valuation.get? output = none)
    (value : Bool) {other : Gate} (ready : (valuation.infer? other).isSome) :
    (valuation.assign output value).infer? other = valuation.infer? other := by
  obtain ⟨left, right⟩ := infer?_isSome_iff.mp ready
  exact infer?_congr (get?_assign_of_isSome waiting value left)
    (get?_assign_of_isSome waiting value right)

/-- A valued output stays out of the way, and else a visit gives the value that is called for. -/
theorem derive?_spec (valuation : Valuation) {operand : Nat} {gate : Gate}
    (used : gate.uses operand = true) :
    ∃ result, valuation.derive? operand gate = .ok result ∧
      (result = none → valuation.get? gate.output.var = none → valuation.infer? gate = none) ∧
      ∀ value, result = some value →
        valuation.get? gate.output.var = none ∧ valuation.infer? gate = some value := by
  unfold derive?
  split
  · next valued =>
    refine ⟨none, rfl, fun _ waiting => ?_, fun _ same => by contradiction⟩
    rw [waiting] at valued
    contradiction
  next unvalued =>
  have waiting : valuation.get? gate.output.var = none := by simpa using unvalued
  obtain ⟨other, found, among⟩ : ∃ other, gate.other operand = .ok other ∧
      (other = gate.left ∨ other = gate.right) := by
    unfold Gate.other Gate.other?
    rcases Gate.uses_iff.mp used with left | right
    · exact ⟨gate.right, by rw [if_pos left]; rfl, .inr rfl⟩
    · by_cases left : gate.left.var = operand
      · exact ⟨gate.right, by rw [if_pos left]; rfl, .inr rfl⟩
      · exact ⟨gate.left, by rw [if_neg left, if_pos right]; rfl, .inl rfl⟩
  rw [found]
  change ∃ result, (if (valuation.value? other).isNone then Except.ok none
    else Except.ok (valuation.infer? gate)) = Except.ok result ∧ _
  split
  · next missing =>
    refine ⟨none, rfl, fun _ _ => ?_, fun _ same => by contradiction⟩
    rw [Option.isNone_iff_eq_none] at missing
    unfold infer?
    rcases among with rfl | rfl
    · rw [missing]; rfl
    · rw [missing]
      cases valuation.value? gate.left <;> rfl
  · exact ⟨_, rfl, fun same _ => same, fun value same => ⟨waiting, same⟩⟩

/-- The variables that have a value in the end, and whether a gate gave it. A gate does so once both
operands have values and one of them is new: on the frontier, or valued by a gate itself. -/
inductive Valued (netlist : Netlist) (base : Valuation) (frontier : Nat → Prop) :
    Bool → Nat → Prop
  | base {var : Nat} (valued : (base.get? var).isSome) : Valued netlist base frontier false var
  | output {gate : Gate} {left right : Bool} (member : gate ∈ netlist.gates)
      (unvalued : base.get? gate.output.var = none)
      (atLeft : Valued netlist base frontier left gate.left.var)
      (atRight : Valued netlist base frontier right gate.right.var)
      (new : left = true ∨ right = true ∨ frontier gate.left.var ∨ frontier gate.right.var) :
      Valued netlist base frontier true gate.output.var

variable {netlist : Netlist} {base : Valuation} {frontier : Nat → Prop}

theorem Valued.unvalued {var : Nat} (valued : Valued netlist base frontier true var) :
    base.get? var = none := by
  cases valued with
  | output _ unvalued _ _ _ => exact unvalued

/-- The variable is on the frontier, or it got its value since. -/
def New (base : Valuation) (frontier : Nat → Prop) (valuation : Valuation) (var : Nat) : Prop :=
  frontier var ∨ base.get? var = none ∧ (valuation.get? var).isSome

/-- What holds while values spread, of the values so far and the visits that wait. -/
structure Spreading (netlist : Netlist) (base : Valuation) (frontier : Nat → Prop)
    (valuation : Valuation) (queue : List Visit) : Prop where
  kept {var : Nat} {value : Bool} (before : base.get? var = some value) :
    valuation.get? var = some value
  sound {var : Nat} (before : base.get? var = none) (after : (valuation.get? var).isSome) :
    Valued netlist base frontier true var
  inferred {gate : Gate} (member : gate ∈ netlist.gates)
    (before : base.get? gate.output.var = none)
    (after : (valuation.get? gate.output.var).isSome) :
    valuation.get? gate.output.var = valuation.infer? gate
  proper {next : Visit} (member : next ∈ queue) :
    next.user ∈ netlist.dependents next.operand ∧ New base frontier valuation next.operand
  queued {index : Nat} {gate : Gate} (present : netlist.gates[index]? = some gate)
    (before : valuation.get? gate.output.var = none) (ready : (valuation.infer? gate).isSome)
    {var : Nat} (used : gate.uses var = true) (new : New base frontier valuation var) :
    ∃ next ∈ queue, next.user = index

namespace Spreading

theorem exists_visit (indexed : netlist.Indexed) {var index : Nat} {gate : Gate}
    (present : netlist.gates[index]? = some gate) (used : gate.uses var = true) :
    ∃ next ∈ netlist.visits var, next.user = index := by
  have waits := indexed.mem_dependents_iff.mpr ⟨gate, present, used⟩
  exact ⟨⟨var, index⟩, List.mem_map.mpr ⟨index, waits, rfl⟩, rfl⟩

theorem of_mem_visits {var : Nat} {next : Visit} (member : next ∈ netlist.visits var) :
    next.operand = var ∧ next.user ∈ netlist.dependents var := by
  obtain ⟨index, among, rfl⟩ := List.mem_map.mp member
  exact ⟨rfl, among⟩

/-- At first the users of the frontier wait. -/
theorem start (indexed : netlist.Indexed) (base : Valuation) (frontier : List Nat) :
    Spreading netlist base (· ∈ frontier) base (frontier.flatMap netlist.visits) where
  kept before := before
  sound before after := by rw [before] at after; contradiction
  inferred _ before after := by rw [before] at after; contradiction
  proper member := by
    obtain ⟨var, front, among⟩ := List.mem_flatMap.mp member
    obtain ⟨rfl, user⟩ := of_mem_visits among
    exact ⟨user, .inl front⟩
  queued {_ _} present _ _ {_} used new := by
    rcases new with front | ⟨before, after⟩
    · obtain ⟨next, member, user⟩ := exists_visit indexed present used
      exact ⟨next, List.mem_flatMap.mpr ⟨_, front, member⟩, user⟩
    · rw [before] at after
      contradiction

variable {next : Visit} {rest queue : List Visit} {gate : Gate}

theorem uses (spreading : Spreading netlist base frontier valuation (next :: rest))
    (indexed : netlist.Indexed) (present : netlist.gates[next.user]? = some gate) :
    gate.uses next.operand = true := by
  obtain ⟨other, found, used⟩ :=
    indexed.mem_dependents_iff.mp (spreading.proper List.mem_cons_self).1
  obtain rfl := Option.some.inj (found.symm.trans present)
  exact used

/-- A visit that passes no value on is done with. -/
theorem skip (spreading : Spreading netlist base frontier valuation (next :: rest))
    (present : netlist.gates[next.user]? = some gate)
    (idle : valuation.get? gate.output.var = none → valuation.infer? gate = none) :
    Spreading netlist base frontier valuation rest where
  kept := spreading.kept
  sound := spreading.sound
  inferred := spreading.inferred
  proper member := spreading.proper (List.mem_cons_of_mem _ member)
  queued {index other} found before ready {_} used new := by
    obtain ⟨waiting, member, user⟩ := spreading.queued found before ready used new
    rcases List.mem_cons.mp member with rfl | later
    · rw [user, found] at present
      obtain rfl := Option.some.inj present
      rw [idle before] at ready
      contradiction
    · exact ⟨waiting, later, user⟩

/-- Whatever has a value so far has one in the end. -/
theorem exists_valued (spreading : Spreading netlist base frontier valuation queue) {var : Nat}
    (valued : (valuation.get? var).isSome) :
    ∃ derived, Valued netlist base frontier derived var ∧
      (derived = true ∨ (base.get? var).isSome) := by
  cases before : base.get? var with
  | none => exact ⟨true, spreading.sound before valued, .inl rfl⟩
  | some value => exact ⟨false, .base (Option.isSome_of_eq_some before), .inr rfl⟩

/-- A gate that passes a value on is a link of a chain from the frontier. -/
theorem valued_output (spreading : Spreading netlist base frontier valuation (next :: rest))
    (indexed : netlist.Indexed) (present : netlist.gates[next.user]? = some gate)
    (before : base.get? gate.output.var = none) (ready : (valuation.infer? gate).isSome) :
    Valued netlist base frontier true gate.output.var := by
  obtain ⟨atLeft, atRight⟩ := infer?_isSome_iff.mp ready
  obtain ⟨left, leftValued, leftNew⟩ := spreading.exists_valued atLeft
  obtain ⟨right, rightValued, rightNew⟩ := spreading.exists_valued atRight
  refine .output (Netlist.mem_of_getElem? present) before leftValued rightValued ?_
  have new := (spreading.proper List.mem_cons_self).2
  rcases Gate.uses_iff.mp (spreading.uses indexed present) with here | here
  · rcases here ▸ new with front | ⟨unvalued, _⟩
    · exact .inr (.inr (.inl front))
    · exact .inl (leftNew.resolve_right (by simp [unvalued]))
  · rcases here ▸ new with front | ⟨unvalued, _⟩
    · exact .inr (.inr (.inr front))
    · exact .inr (.inl (rightNew.resolve_right (by simp [unvalued])))

/-- A gate that waits after a visit uses the new value, or was waiting for another visit. -/
theorem queued_assign (spreading : Spreading netlist base frontier valuation (next :: rest))
    (indexed : netlist.Indexed) (present : netlist.gates[next.user]? = some gate) {value : Bool}
    {index : Nat} {other : Gate} (found : netlist.gates[index]? = some other)
    (unset : (valuation.assign gate.output.var value).get? other.output.var = none)
    (ready : ((valuation.assign gate.output.var value).infer? other).isSome) {var : Nat}
    (used : other.uses var = true)
    (new : New base frontier (valuation.assign gate.output.var value) var) :
    ∃ next ∈ rest ++ netlist.visits gate.output.var, next.user = index := by
  by_cases uses : other.uses gate.output.var = true
  · obtain ⟨visit, member, user⟩ := exists_visit indexed found uses
    exact ⟨visit, List.mem_append_right _ member, user⟩
  -- Of a gate that does not use the new value nothing changed, so that it was waiting before.
  · have same {var : Nat} (apart : gate.output.var ≠ var) :
        (valuation.assign gate.output.var value).get? var = valuation.get? var := by
      rw [get?_assign, if_neg apart]
    have output : gate.output.var ≠ other.output.var := by
      intro output
      rw [get?_assign, if_pos output] at unset
      contradiction
    have apart : gate.output.var ≠ var := by
      rintro rfl
      exact uses used
    rw [Gate.uses_iff, not_or] at uses
    rw [same output] at unset
    rw [infer?_congr (same (Ne.symm uses.1)) (same (Ne.symm uses.2))] at ready
    rw [New, same apart] at new
    obtain ⟨visit, member, user⟩ := spreading.queued found unset ready used new
    rcases List.mem_cons.mp member with rfl | later
    · rw [user, found] at present
      exact absurd (congrArg (·.output.var) (Option.some.inj present)).symm output
    · exact ⟨visit, List.mem_append_left _ later, user⟩

/-- A visit that values an output makes the users of that output wait. -/
theorem pass (spreading : Spreading netlist base frontier valuation (next :: rest))
    (indexed : netlist.Indexed) (present : netlist.gates[next.user]? = some gate) {value : Bool}
    (waiting : valuation.get? gate.output.var = none)
    (called : valuation.infer? gate = some value) :
    Spreading netlist base frontier (valuation.assign gate.output.var value)
      (rest ++ netlist.visits gate.output.var) := by
  have member := Netlist.mem_of_getElem? present
  have before : base.get? gate.output.var = none := by
    cases found : base.get? gate.output.var with
    | none => rfl
    | some known => rw [spreading.kept found] at waiting; contradiction
  have same {var : Nat} (differs : gate.output.var ≠ var) :
      (valuation.assign gate.output.var value).get? var = valuation.get? var := by
    rw [get?_assign, if_neg differs]
  have here : (valuation.assign gate.output.var value).get? gate.output.var = some value := by
    rw [get?_assign, if_pos rfl]
  refine ⟨fun {var found} known => ?_, fun {var} unvalued valued => ?_,
    fun {other} among unvalued valued => ?_, fun {visit} among => ?_,
    spreading.queued_assign indexed present⟩
  · rw [get?_assign_of_isSome waiting _ (Option.isSome_of_eq_some (spreading.kept known))]
    exact spreading.kept known
  · by_cases output : gate.output.var = var
    · exact output ▸ spreading.valued_output indexed present before
        (Option.isSome_of_eq_some called)
    · rw [same output] at valued
      exact spreading.sound unvalued valued
  · by_cases output : gate.output.var = other.output.var
    · obtain rfl := indexed.eq_of_output member among output
      rw [here, infer?_assign_of_isSome waiting _ (Option.isSome_of_eq_some called), called]
    · rw [same output] at valued ⊢
      have old := spreading.inferred among unvalued valued
      rw [infer?_assign_of_isSome waiting _ (old ▸ valued), old]
  · rcases List.mem_append.mp among with old | added
    · obtain ⟨user, front | ⟨unvalued, valued⟩⟩ := spreading.proper (List.mem_cons_of_mem _ old)
      · exact ⟨user, .inl front⟩
      · exact ⟨user, .inr ⟨unvalued, by rwa [get?_assign_of_isSome waiting _ valued]⟩⟩
    · obtain ⟨operand, user⟩ := of_mem_visits added
      rw [operand]
      exact ⟨user, .inr ⟨before, by rw [here]; rfl⟩⟩

/-- No visit faults, and in the end none is waiting. -/
theorem visit (indexed : netlist.Indexed)
    (spreading : Spreading netlist base frontier valuation queue) :
    ∃ last, valuation.visit netlist queue = .ok last ∧
      Spreading netlist base frontier last [] := by
  fun_induction Valuation.visit valuation netlist queue with
  | case1 valuation => exact ⟨valuation, rfl, spreading⟩
  | case2 valuation next rest absent ih =>
    obtain ⟨gate, present, _⟩ :=
      indexed.mem_dependents_iff.mp (spreading.proper List.mem_cons_self).1
    rw [present] at absent
    contradiction
  | case3 valuation next rest gate present fault failed =>
    obtain ⟨_, done, _⟩ := derive?_spec valuation (spreading.uses indexed present)
    rw [failed] at done
    contradiction
  | case4 valuation next rest gate present derived ih =>
    obtain ⟨_, done, idle, _⟩ :=
      derive?_spec valuation (spreading.uses indexed present)
    rw [derived] at done
    cases done
    exact ih (spreading.skip present (idle rfl))
  | case5 valuation next rest gate present value derived output ih =>
    obtain ⟨_, done, _, gives⟩ :=
      derive?_spec valuation (spreading.uses indexed present)
    rw [derived] at done
    cases done
    obtain ⟨waiting, called⟩ := gives value rfl
    exact ih (spreading.pass indexed present waiting called)

/-- In the end exactly the variables that chains of gates reach have values. -/
theorem isSome_iff (done : Spreading netlist base frontier valuation []) {var : Nat} :
    (valuation.get? var).isSome ↔ ∃ derived, Valued netlist base frontier derived var := by
  constructor
  · intro valued
    obtain ⟨derived, chain, _⟩ := done.exists_valued valued
    exact ⟨derived, chain⟩
  · rintro ⟨derived, chain⟩
    induction chain with
    | base valued =>
      obtain ⟨value, known⟩ := Option.isSome_iff_exists.mp valued
      exact Option.isSome_of_eq_some (done.kept known)
    | @output gate left right member unvalued atLeft atRight new leftValued rightValued =>
      cases found : valuation.get? gate.output.var with
      | some value => rfl
      | none =>
        obtain ⟨index, present⟩ := Array.mem_iff_getElem?.mp member
        have ready := infer?_isSome_iff.mpr ⟨leftValued, rightValued⟩
        obtain ⟨var, used, fresh⟩ :
            ∃ var, gate.uses var = true ∧ New base frontier valuation var := by
          rcases new with rfl | rfl | front | front
          · exact ⟨_, Gate.uses_iff.mpr (.inl rfl), .inr ⟨atLeft.unvalued, leftValued⟩⟩
          · exact ⟨_, Gate.uses_iff.mpr (.inr rfl), .inr ⟨atRight.unvalued, rightValued⟩⟩
          · exact ⟨_, Gate.uses_iff.mpr (.inl rfl), .inl front⟩
          · exact ⟨_, Gate.uses_iff.mpr (.inr rfl), .inl front⟩
        obtain ⟨_, waiting, _⟩ := done.queued present found ready used fresh
        contradiction

/-- A gate with two valued operands has a valued output, if the frontier did not leave out the left
one although it was valued from the beginning. -/
theorem output_isSome (done : Spreading netlist base frontier valuation []) {gate : Gate}
    (member : gate ∈ netlist.gates)
    (all : (base.get? gate.left.var).isSome → frontier gate.left.var)
    (left : (valuation.get? gate.left.var).isSome)
    (right : (valuation.get? gate.right.var).isSome) :
    (valuation.get? gate.output.var).isSome := by
  cases unvalued : base.get? gate.output.var with
  | some value => exact Option.isSome_of_eq_some (done.kept unvalued)
  | none =>
    obtain ⟨_, atLeft, origin⟩ := done.exists_valued left
    obtain ⟨_, atRight, _⟩ := done.exists_valued right
    exact done.isSome_iff.mpr ⟨true, .output member unvalued atLeft atRight
      (origin.imp_right fun valued => .inr (.inl (all valued)))⟩

end Spreading

/-- Spreading from a frontier ends, keeps the values that were there, and adds exactly those of the
outputs that chains of gates reach from the frontier. -/
theorem propagate_spec (indexed : netlist.Indexed) (base : Valuation) (frontier : List Nat) :
    ∃ last, base.propagate netlist frontier = .ok last ∧
      Spreading netlist base (· ∈ frontier) last [] :=
  (Spreading.start indexed base frontier).visit indexed

end Valuation

end CircuitSat
