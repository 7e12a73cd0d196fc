import CircuitSat.Netlist.Basic

/-! # The indices of a netlist are exact

Insertion and the storing of literals keep both indices in step with the gates: a variable has the
one definer whose output it is, and its users are all gates with it as an operand, each once and
oldest first. So the search through one of the two lists of users finds whatever a scan of all gates
would find.
-/

namespace CircuitSat

namespace Gate

/-- The gate with other literals or with none. -/
def withLiterals (gate : Gate) (literals : Option Triple) : Gate := { gate with literals }

/-- The same gate up to its literals. -/
def Alike (gate other : Gate) : Prop :=
  gate.signature = other.signature ∧ gate.output = other.output

theorem Alike.refl (gate : Gate) : gate.Alike gate := ⟨rfl, rfl⟩

theorem Alike.symm {gate other : Gate} (alike : gate.Alike other) : other.Alike gate :=
  ⟨alike.1.symm, alike.2.symm⟩

theorem Alike.trans {gate other third : Gate} (left : gate.Alike other)
    (right : other.Alike third) : gate.Alike third :=
  ⟨left.1.trans right.1, left.2.trans right.2⟩

theorem Alike.inputs {gate other : Gate} (alike : gate.Alike other) :
    gate.left = other.left ∧ gate.right = other.right ∧ gate.connective = other.connective := by
  simp only [left, right, connective, alike.1, and_self]

theorem uses_iff {gate : Gate} {var : Nat} :
    gate.uses var = true ↔ gate.left.var = var ∨ gate.right.var = var := by
  simp only [uses, Bool.or_eq_true, decide_eq_true_eq]

end Gate

namespace Netlist

/-- Both indices are exact, and no two gates have one signature. -/
structure Indexed (netlist : Netlist) : Prop where
  definer (var index : Nat) : netlist.definer? var = some index ↔
    ∃ gate, netlist.gates[index]? = some gate ∧ gate.output.var = var
  users (var : Nat) : netlist.dependents var = (List.range netlist.size).filter fun index =>
    (netlist.gates[index]?).any (·.uses var)
  distinct {left right : Nat} {gate other : Gate} (first : netlist.gates[left]? = some gate)
    (second : netlist.gates[right]? = some other) (same : gate.signature = other.signature) :
    left = right

variable {netlist : Netlist}

theorem hasSignature_iff {signature : Signature} {index : Nat} :
    netlist.hasSignature signature index = true ↔
      ∃ gate, netlist.gates[index]? = some gate ∧ gate.signature = signature := by
  simp only [hasSignature, Option.any_eq_true, decide_eq_true_eq]

theorem size_of_getElem? {index : Nat} {gate : Gate} (present : netlist.gates[index]? = some gate) :
    index < netlist.size := (Array.getElem?_eq_some_iff.mp present).1

theorem mem_of_getElem? {index : Nat} {gate : Gate} (present : netlist.gates[index]? = some gate) :
    gate ∈ netlist.gates := Array.mem_of_getElem? present

theorem indexed_empty : empty.Indexed := by
  refine ⟨fun var index => ?_, fun var => ?_, fun first => ?_⟩
  · simp [definer?, empty]
  · simp [dependents, empty, size]
  · simp [empty] at first

namespace Indexed

theorem mem_dependents_iff (indexed : netlist.Indexed) {var index : Nat} :
    index ∈ netlist.dependents var ↔
      ∃ gate, netlist.gates[index]? = some gate ∧ gate.uses var = true := by
  rw [indexed.users, List.mem_filter, List.mem_range, Option.any_eq_true]
  constructor
  · exact And.right
  · rintro ⟨gate, present, used⟩
    exact ⟨size_of_getElem? present, gate, present, used⟩

/-- The gate of a signature is among the users of either operand. -/
theorem mem_dependents_of_signature (indexed : netlist.Indexed) {index : Nat} {gate : Gate}
    (present : netlist.gates[index]? = some gate) :
    index ∈ netlist.dependents gate.left.var ∧ index ∈ netlist.dependents gate.right.var :=
  ⟨indexed.mem_dependents_iff.mpr ⟨gate, present, Gate.uses_iff.mpr (.inl rfl)⟩,
    indexed.mem_dependents_iff.mpr ⟨gate, present, Gate.uses_iff.mpr (.inr rfl)⟩⟩

/-- Looking through the users of either operand finds the gate of a signature wherever it is. -/
theorem find?_dependents_eq_some_iff (indexed : netlist.Indexed) {signature : Signature}
    {operand : Signal} (among : operand = signature.left ∨ operand = signature.right)
    {index : Nat} :
    (netlist.dependents operand.var).find? (netlist.hasSignature signature) = some index ↔
      ∃ gate, netlist.gates[index]? = some gate ∧ gate.signature = signature := by
  constructor
  · intro found
    exact hasSignature_iff.mp (List.find?_some found)
  · rintro ⟨gate, present, rfl⟩
    have listed : index ∈ netlist.dependents operand.var := by
      obtain ⟨left, right⟩ := indexed.mem_dependents_of_signature present
      rcases among with rfl | rfl
      · exact left
      · exact right
    have holds := hasSignature_iff.mpr ⟨gate, present, rfl⟩
    obtain ⟨other, found⟩ :=
      Option.isSome_iff_exists.mp (List.find?_isSome.mpr ⟨index, listed, holds⟩)
    obtain ⟨twin, elsewhere, same⟩ := hasSignature_iff.mp (List.find?_some found)
    rw [found, indexed.distinct elsewhere present same]

/-- Looking through the shorter list of users is enough. -/
theorem find?_eq_some_iff (indexed : netlist.Indexed) {signature : Signature} {index : Nat} :
    netlist.find? signature = some index ↔
      ∃ gate, netlist.gates[index]? = some gate ∧ gate.signature = signature := by
  simp only [find?]
  split
  · exact indexed.find?_dependents_eq_some_iff (.inl rfl)
  · exact indexed.find?_dependents_eq_some_iff (.inr rfl)

theorem find?_eq_none_iff (indexed : netlist.Indexed) {signature : Signature} :
    netlist.find? signature = none ↔ ∀ gate ∈ netlist.gates, gate.signature ≠ signature := by
  rw [Option.eq_none_iff_forall_ne_some]
  simp only [ne_eq, indexed.find?_eq_some_iff, Array.mem_iff_getElem?]
  constructor
  · rintro missing gate ⟨index, present⟩ same
    exact missing index ⟨gate, present, same⟩
  · rintro missing index ⟨gate, present, same⟩
    exact missing gate ⟨index, present⟩ same

theorem definition?_eq_some_iff (indexed : netlist.Indexed) {var : Nat} {gate : Gate} :
    netlist.definition? var = some gate ↔ gate ∈ netlist.gates ∧ gate.output.var = var := by
  simp only [definition?, Option.bind_eq_some_iff, indexed.definer, Array.mem_iff_getElem?]
  constructor
  · rintro ⟨index, ⟨other, present, output⟩, found⟩
    obtain rfl := Option.some.inj (present.symm.trans found)
    exact ⟨⟨index, found⟩, output⟩
  · rintro ⟨⟨index, present⟩, output⟩
    exact ⟨index, ⟨gate, present, output⟩, present⟩

/-- The gate that is indexed at a variable has it as its output. -/
theorem output_of_definer (indexed : netlist.Indexed) {var index : Nat} {gate : Gate}
    (defined : netlist.definer? var = some index)
    (present : netlist.gates[index]? = some gate) : gate.output.var = var := by
  obtain ⟨other, found, output⟩ := (indexed.definer var index).mp defined
  exact Option.some.inj (present.symm.trans found) ▸ output

/-- Where no gate is indexed there is none without literals. -/
theorem literals_of_undefined (indexed : netlist.Indexed) {var : Nat} {gate : Gate}
    (undefined : netlist.definer? var = none) (member : gate ∈ netlist.gates)
    (output : gate.output.var = var) : gate.literals ≠ none := by
  have found := indexed.definition?_eq_some_iff.mpr ⟨member, output⟩
  simp [definition?, undefined] at found

/-- Where the indexed gate has literals there is none without. -/
theorem literals_of_encoded (indexed : netlist.Indexed) {var index : Nat} {gate other : Gate}
    (defined : netlist.definer? var = some index) (present : netlist.gates[index]? = some gate)
    (encoded : gate.isEncoded = true) (member : other ∈ netlist.gates)
    (output : other.output.var = var) : other.literals ≠ none := by
  have found := indexed.definition?_eq_some_iff.mpr ⟨member, output⟩
  simp only [definition?, defined, Option.bind_some, present, Option.some.injEq] at found
  exact found ▸ Option.isSome_iff_ne_none.mp encoded

/-- A variable is the output of one gate at most. -/
theorem eq_of_output (indexed : netlist.Indexed) {left right : Gate} (first : left ∈ netlist.gates)
    (second : right ∈ netlist.gates) (same : left.output.var = right.output.var) :
    left = right := by
  have found := indexed.definition?_eq_some_iff.mpr ⟨first, rfl⟩
  have again := indexed.definition?_eq_some_iff.mpr ⟨second, rfl⟩
  rw [same] at found
  exact Option.some.inj (found.symm.trans again)

end Indexed

/-! ## Insertion -/

theorem getD_addUser (users : Std.TreeMap Nat (List Nat)) (var index other : Nat) :
    (addUser users var index).getD other [] =
      users.getD other [] ++ if var = other then [index] else [] := by
  simp only [addUser, Std.TreeMap.getD_insert, Std.LawfulEqCmp.compare_eq_iff_eq]
  split
  · next same => rw [same]
  · rw [List.append_nil]

/-- Insertion asks for a new signature and for a positive output that no gate has. -/
theorem insert_eq_ok_iff {signature : Signature} {output : Signal} {index : Nat} {next : Netlist}
    (inserted : netlist.insert signature output = .ok (index, next)) :
    netlist.find? signature = none ∧ output.negated = false ∧
      netlist.definer? output.var = none ∧ index = netlist.size ∧
      next.gates = netlist.gates.push ⟨signature, output, none⟩ ∧
      next.definers = netlist.definers.insert output.var netlist.size ∧
      ∀ var, next.dependents var = netlist.dependents var ++
        if (⟨signature, output, none⟩ : Gate).uses var then [netlist.size] else [] := by
  unfold insert at inserted
  split at inserted
  · contradiction
  next missing =>
  split at inserted
  · contradiction
  next positive =>
  split at inserted
  · contradiction
  next undefined =>
  cases inserted
  refine ⟨by simpa using missing, by simpa using positive, by simpa [definer?] using undefined,
    rfl, rfl, rfl, fun var => ?_⟩
  have used : (⟨signature, output, none⟩ : Gate).uses var = true ↔
      signature.left.var = var ∨ signature.right.var = var := Gate.uses_iff
  simp only [dependents, used]
  split
  · next same => simp only [getD_addUser, same, or_self]
  · next differ =>
    simp only [getD_addUser, List.append_assoc]
    by_cases left : signature.left.var = var
    · have other : signature.right.var ≠ var := fun right => differ (right.trans left.symm)
      simp only [left, other, if_true, if_false, or_false, List.append_nil]
    · simp only [left, if_false, false_or, List.nil_append]

theorem insert_eq_ok {signature : Signature} {output : Signal}
    (missing : netlist.find? signature = none) (positive : output.negated = false)
    (undefined : netlist.definer? output.var = none) :
    ∃ next, netlist.insert signature output = .ok (netlist.size, next) := by
  have absent : ¬output.var ∈ netlist.definers := by simpa [definer?] using undefined
  simp [insert, missing, positive, absent]

/-- After an insertion there are the gates from before and the new one at the end. -/
theorem getElem?_of_push {next : Netlist} {new : Gate} (gates : next.gates = netlist.gates.push new)
    {position : Nat} {gate : Gate} : next.gates[position]? = some gate ↔
      netlist.gates[position]? = some gate ∨ position = netlist.size ∧ gate = new := by
  rw [gates, Array.getElem?_push]
  split
  · next last =>
    have beyond : netlist.gates[position]? = none :=
      Array.getElem?_eq_none (Nat.le_of_eq last.symm)
    rw [beyond, Option.some.injEq, and_iff_right (show position = netlist.size from last)]
    simp [eq_comm]
  · next before =>
    have apart : position ≠ netlist.size := before
    simp [apart]

/-- The new gate is the only one on its variable; of the others nothing changed. -/
theorem Indexed.definer_insert (indexed : netlist.Indexed) {next : Netlist} {new : Gate}
    (gates : next.gates = netlist.gates.push new)
    (definers : next.definers = netlist.definers.insert new.output.var netlist.size)
    (undefined : netlist.definer? new.output.var = none) (var position : Nat) :
    next.definer? var = some position ↔
      ∃ gate, next.gates[position]? = some gate ∧ gate.output.var = var := by
  simp only [definer?, definers, Std.TreeMap.getElem?_insert, Std.LawfulEqCmp.compare_eq_iff_eq,
    getElem?_of_push gates]
  split
  · next here =>
    constructor
    · intro same
      exact ⟨new, .inr ⟨(Option.some.inj same).symm, rfl⟩, here⟩
    · rintro ⟨gate, before | ⟨last, _⟩, driven⟩
      · have found := (indexed.definer var position).mpr ⟨gate, before, driven⟩
        rw [← here, undefined] at found
        contradiction
      · rw [last]
  · next elsewhere =>
    rw [← definer?, indexed.definer]
    constructor
    · rintro ⟨gate, present, driven⟩
      exact ⟨gate, .inl present, driven⟩
    · rintro ⟨gate, before | ⟨_, rfl⟩, driven⟩
      · exact ⟨gate, before, driven⟩
      · exact absurd driven elsewhere

theorem Indexed.insert (indexed : netlist.Indexed) {signature : Signature} {output : Signal}
    {index : Nat} {next : Netlist}
    (inserted : netlist.insert signature output = .ok (index, next)) : next.Indexed := by
  obtain ⟨missing, _, undefined, _, gates, definers, dependents⟩ := insert_eq_ok_iff inserted
  have size : next.size = netlist.size + 1 := by simp [Netlist.size, gates]
  have last := (getElem?_of_push gates).mpr (.inr ⟨rfl, rfl⟩)
  refine ⟨indexed.definer_insert gates definers undefined, fun var => ?_,
    fun {left right gate other} first second same => ?_⟩
  · rw [dependents, size, List.range_succ, List.filter_append, indexed.users]
    congr 1
    · apply List.filter_congr
      intro position member
      have bound := List.mem_range.mp member
      rw [gates, Array.getElem?_push, if_neg (by simp only [Netlist.size] at bound; omega)]
    · simp only [List.filter_cons, last, Option.any_some, List.filter_nil]
  · have fresh := indexed.find?_eq_none_iff.mp missing
    rcases (getElem?_of_push gates).mp first with first | ⟨rfl, rfl⟩ <;>
      rcases (getElem?_of_push gates).mp second with second | ⟨rfl, rfl⟩
    · exact indexed.distinct first second same
    · exact absurd same (fresh gate (mem_of_getElem? first))
    · exact absurd same.symm (fresh other (mem_of_getElem? second))
    · rfl

/-! ## Storing literals -/

/-- The netlist with other literals for the gate at a position. -/
def store (netlist : Netlist) (index : Nat) (gate : Gate) (literals : Option Triple) : Netlist :=
  { netlist with gates := netlist.gates.setIfInBounds index (gate.withLiterals literals) }

/-- A gate without literals can be given some. -/
theorem setLiterals_eq_ok {index : Nat} {gate : Gate}
    (present : netlist.gates[index]? = some gate) (plain : gate.literals = none)
    (literals : Triple) :
    netlist.setLiterals index literals = .ok (netlist.store index gate (some literals)) := by
  simp only [setLiterals, present, Gate.isEncoded, plain, Option.isSome_none, Bool.false_eq_true,
    if_false, store, Gate.withLiterals]

theorem getElem?_store {index : Nat} {gate : Gate} (present : netlist.gates[index]? = some gate)
    (literals : Option Triple) (position : Nat) :
    (netlist.store index gate literals).gates[position]? =
      if index = position then some (gate.withLiterals literals)
      else netlist.gates[position]? := by
  rw [store, Array.getElem?_setIfInBounds]
  split
  · next here =>
    have bound : index < netlist.gates.size := size_of_getElem? present
    rw [if_pos (here ▸ bound)]
  · rfl

/-- Storing literals of a gate leaves all other gates where they are. -/
theorem getElem?_store_of_ne {index position : Nat} {gate other : Gate}
    (present : netlist.gates[index]? = some gate) (literals : Option Triple)
    (found : netlist.gates[position]? = some other) (apart : other ≠ gate) :
    (netlist.store index gate literals).gates[position]? = some other := by
  rw [getElem?_store present, if_neg, found]
  rintro rfl
  exact apart (Option.some.inj (found.symm.trans present))

/-- Nothing but its literals tells a gate from the one that was there before. -/
theorem exists_of_getElem?_store {index position : Nat} {gate after : Gate}
    {literals : Option Triple} (present : netlist.gates[index]? = some gate)
    (found : (netlist.store index gate literals).gates[position]? = some after) :
    ∃ before, netlist.gates[position]? = some before ∧
      after = before.withLiterals after.literals := by
  rw [getElem?_store present] at found
  split at found
  · next here =>
    cases found
    exact ⟨gate, here ▸ present, rfl⟩
  · exact ⟨after, found, rfl⟩

theorem exists_getElem?_store {index position : Nat} {gate before : Gate}
    (literals : Option Triple) (present : netlist.gates[index]? = some gate)
    (found : netlist.gates[position]? = some before) :
    ∃ stored, (netlist.store index gate literals).gates[position]? =
      some (before.withLiterals stored) := by
  rw [getElem?_store present]
  split
  · next here =>
    subst here
    obtain rfl := Option.some.inj (present.symm.trans found)
    exact ⟨literals, rfl⟩
  · exact ⟨before.literals, found⟩

theorem mem_store {index : Nat} {gate other : Gate} {literals : Option Triple}
    (present : netlist.gates[index]? = some gate)
    (member : other ∈ (netlist.store index gate literals).gates) :
    other = gate.withLiterals literals ∨ other ∈ netlist.gates := by
  obtain ⟨position, found⟩ := Array.mem_iff_getElem?.mp member
  rw [getElem?_store present] at found
  split at found
  · exact .inl (Option.some.inj found).symm
  · exact .inr (mem_of_getElem? found)

theorem Indexed.store (indexed : netlist.Indexed) {index : Nat} {gate : Gate}
    (present : netlist.gates[index]? = some gate) (literals : Option Triple) :
    (netlist.store index gate literals).Indexed := by
  refine ⟨fun var position => ?_, fun var => ?_,
    fun {left right first second} former latter same => ?_⟩
  · change netlist.definer? var = some position ↔ _
    rw [indexed.definer]
    constructor
    · rintro ⟨before, found, driven⟩
      obtain ⟨stored, after⟩ := exists_getElem?_store literals present found
      exact ⟨_, after, driven⟩
    · rintro ⟨after, stays, driven⟩
      obtain ⟨before, found, same⟩ := exists_of_getElem?_store present stays
      rw [same] at driven
      exact ⟨before, found, driven⟩
  · change netlist.dependents var = _
    rw [indexed.users]
    simp only [Netlist.size, Netlist.store, Array.size_setIfInBounds]
    apply List.filter_congr
    intro position member
    have found := Array.getElem?_eq_getElem (List.mem_range.mp member)
    obtain ⟨stored, after⟩ := exists_getElem?_store literals present found
    rw [Netlist.store] at after
    rw [after, found]
    rfl
  · obtain ⟨before, found, alike⟩ := exists_of_getElem?_store present former
    obtain ⟨after, seen, similar⟩ := exists_of_getElem?_store present latter
    rw [alike, similar] at same
    exact indexed.distinct found seen same

/-! ## Netlists that can come up -/

/-- What insertions and stored literals make of the empty netlist, in any order. Operands are any
signals at all, and gates may use each other in a circle. -/
inductive Built : Netlist → Prop
  | empty : Built .empty
  | insert {last next : Netlist} {signature : Signature} {output : Signal} {index : Nat}
      (before : Built last) (inserted : last.insert signature output = .ok (index, next)) :
      Built next
  | setLiterals {last next : Netlist} {index : Nat} {literals : Triple} (before : Built last)
      (stored : last.setLiterals index literals = .ok next) : Built next

/-- Storing literals changes nothing but a gate that had none. -/
theorem eq_of_setLiterals {next : Netlist} {index : Nat} {literals : Triple}
    (stored : netlist.setLiterals index literals = .ok next) : next = netlist ∨
      ∃ gate, netlist.gates[index]? = some gate ∧ next = netlist.store index gate literals := by
  unfold setLiterals at stored
  split at stored
  · cases stored
    exact .inl rfl
  · next gate present =>
    split at stored
    · contradiction
    · cases stored
      exact .inr ⟨gate, present, rfl⟩

namespace Built

theorem indexed (built : netlist.Built) : netlist.Indexed := by
  induction built with
  | empty => exact indexed_empty
  | insert _ inserted ih => exact ih.insert inserted
  | setLiterals _ stored ih =>
    rcases eq_of_setLiterals stored with rfl | ⟨gate, present, rfl⟩
    · exact ih
    · exact ih.store present _

theorem positive (built : netlist.Built) {gate : Gate} (member : gate ∈ netlist.gates) :
    gate.output.negated = false := by
  induction built generalizing gate with
  | empty => exact absurd member (Array.not_mem_empty gate)
  | insert _ inserted ih =>
    obtain ⟨_, positive, _, _, gates, _⟩ := insert_eq_ok_iff inserted
    rw [gates, Array.mem_push] at member
    rcases member with before | rfl
    · exact ih before
    · exact positive
  | setLiterals _ stored ih =>
    rcases eq_of_setLiterals stored with rfl | ⟨other, present, rfl⟩
    · exact ih member
    · rcases mem_store present member with rfl | before
      · exact (ih (mem_of_getElem? present) : other.output.negated = false)
      · exact ih before

/-- Any gate can be added that is new in its signature and in its output. -/
theorem exists_insert (built : netlist.Built) (signature : Signature) (output : Signal)
    (positive : output.negated = false)
    (fresh : ∀ gate ∈ netlist.gates, gate.signature ≠ signature ∧ gate.output.var ≠ output.var) :
    ∃ next : Netlist, next.Built ∧ next.gates = netlist.gates.push ⟨signature, output, none⟩ := by
  have missing := built.indexed.find?_eq_none_iff.mpr fun gate member => (fresh gate member).1
  have undefined : netlist.definer? output.var = none := by
    refine Option.eq_none_iff_forall_ne_some.mpr fun index defined => ?_
    obtain ⟨gate, present, same⟩ := (built.indexed.definer _ _).mp defined
    exact (fresh gate (mem_of_getElem? present)).2 same
  obtain ⟨next, inserted⟩ := insert_eq_ok missing positive undefined
  obtain ⟨_, _, _, _, gates, _⟩ := insert_eq_ok_iff inserted
  exact ⟨next, built.insert inserted, gates⟩

/-- Any gate without literals can be given any. -/
theorem exists_setLiterals (built : netlist.Built) (index : Nat) {gate : Gate}
    (present : netlist.gates[index]? = some gate) (plain : gate.literals = none)
    (literals : Triple) : ∃ next : Netlist, next.Built ∧
      next.gates = netlist.gates.setIfInBounds index (gate.withLiterals (some literals)) :=
  ⟨_, built.setLiterals (setLiterals_eq_ok present plain literals), rfl⟩

end Built

end Netlist

end CircuitSat
