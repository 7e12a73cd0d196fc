import CircuitSat.Proofs.Netlist
import CircuitSat.Proofs.Outcome
import Mathlib.Data.List.Nodup

/-! # Look-ups agree with scans

The indices of a netlist only save time. Whatever insertions and stored literals it comes from, its
gates stand in the order of their insertion, and each look-up gives what a scan of all gates would
give: the users of a variable, the gate that defines it, and the gate of a signature. It does not
matter which operand's users are looked through, nor whether the operands are in order.
-/

namespace CircuitSat

/-- A change to a netlist. -/
inductive Edit where
  | insert (signature : Signature) (output : Signal)
  | setLiterals (index : Nat) (literals : Triple)
deriving DecidableEq, Repr

/-- The signature and the output of the gate that an edit adds. -/
def Edit.added? : Edit → Option (Signature × Signal)
  | insert signature output => some (signature, output)
  | setLiterals _ _ => none

namespace Netlist

/-- Carries out an edit. -/
def edit (netlist : Netlist) : Edit → Except Fault Netlist
  | .insert signature output => do
    let (_, next) ← netlist.insert signature output
    return next
  | .setLiterals index literals => netlist.setLiterals index literals

/-- What edits one after the other make of the empty netlist. -/
def ofEdits (edits : List Edit) : Except Fault Netlist := edits.foldlM edit empty

/-- The signatures and outputs of the gates, in order. -/
def entries (netlist : Netlist) : List (Signature × Signal) :=
  netlist.gates.toList.map fun gate => (gate.signature, gate.output)

variable {netlist next : Netlist}

/-! ## Edits one after the other -/

theorem insert_of_edit {signature : Signature} {output : Signal}
    (done : netlist.edit (.insert signature output) = .ok next) :
    ∃ index, netlist.insert signature output = .ok (index, next) := by
  simp only [edit, bind_eq_ok_iff, pure_eq_ok_iff, Prod.exists] at done
  obtain ⟨index, _, inserted, rfl⟩ := done
  exact ⟨index, inserted⟩

theorem entries_store {index : Nat} {gate : Gate} (present : netlist.gates[index]? = some gate)
    (literals : Option Triple) : (netlist.store index gate literals).entries = netlist.entries := by
  apply List.ext_getElem?
  intro position
  simp only [entries, List.getElem?_map, Array.getElem?_toList, getElem?_store present]
  split
  · next here =>
    subst here
    rw [present]
    rfl
  · rfl

/-- An insertion adds its gate at the end, and storing literals changes none of the entries. -/
theorem entries_edit {change : Edit} (done : netlist.edit change = .ok next) :
    next.entries = netlist.entries ++ change.added?.toList := by
  cases change with
  | insert signature output =>
    obtain ⟨_, inserted⟩ := insert_of_edit done
    obtain ⟨_, _, _, _, gates, _⟩ := insert_eq_ok_iff inserted
    simp [entries, gates, Edit.added?]
  | setLiterals index literals =>
    rw [Edit.added?, Option.toList_none, List.append_nil]
    rcases eq_of_setLiterals done with rfl | ⟨gate, present, rfl⟩
    · rfl
    · exact entries_store present _

theorem Built.edit (built : netlist.Built) {change : Edit} (done : netlist.edit change = .ok next) :
    next.Built := by
  cases change with
  | insert signature output =>
    obtain ⟨_, inserted⟩ := insert_of_edit done
    exact built.insert inserted
  | setLiterals index literals => exact built.setLiterals done

/-- Edits lead from netlists that can come up to such netlists, and the gates they add come after
those that were there. -/
theorem Built.edits (built : netlist.Built) {edits : List Edit}
    (done : edits.foldlM Netlist.edit netlist = .ok next) :
    next.Built ∧ next.entries = netlist.entries ++ edits.filterMap Edit.added? := by
  induction edits generalizing netlist with
  | nil =>
    obtain rfl := pure_eq_ok_iff.mp done
    exact ⟨built, (List.append_nil _).symm⟩
  | cons change rest ih =>
    rw [List.foldlM_cons, bind_eq_ok_iff] at done
    obtain ⟨middle, first, later⟩ := done
    obtain ⟨last, entries⟩ := ih (built.edit first) later
    refine ⟨last, ?_⟩
    rw [entries, entries_edit first, List.append_assoc]
    cases added : change.added? with
    | none => rw [List.filterMap_cons_none added]; rfl
    | some entry => rw [List.filterMap_cons_some added]; rfl

/-! ## Scans -/

/-- If one entry at most has a property, a scan for it ends where the entry is. -/
theorem findIdx?_eq_some_iff_of_unique {α : Type} {items : Array α} {holds : α → Bool}
    (unique : ∀ {left right : Nat} {item other : α}, items[left]? = some item →
      items[right]? = some other → holds item = true → holds other = true → left = right)
    {index : Nat} : items.findIdx? holds = some index ↔
      ∃ item, items[index]? = some item ∧ holds item = true := by
  rw [Array.findIdx?_eq_some_iff_getElem]
  constructor
  · rintro ⟨bound, here, _⟩
    exact ⟨_, Array.getElem?_eq_getElem bound, here⟩
  · rintro ⟨item, present, here⟩
    obtain ⟨bound, rfl⟩ := Array.getElem?_eq_some_iff.mp present
    refine ⟨bound, here, fun position before also => ?_⟩
    have inside : position < items.size := Nat.lt_trans before bound
    have same := unique (Array.getElem?_eq_getElem inside) present also here
    omega

/-- Entries of an array with different images have no image twice. -/
theorem nodup_map_of_unique {α β : Type} {items : Array α} {view : α → β}
    (unique : ∀ {left right : Nat} {item other : α}, items[left]? = some item →
      items[right]? = some other → view item = view other → left = right) :
    (items.toList.map view).Nodup := by
  rw [List.nodup_iff_getElem?_ne_getElem?]
  intro left right before bound same
  rw [List.length_map, Array.length_toList] at bound
  have inside : left < items.size := Nat.lt_trans before bound
  simp only [List.getElem?_map, Array.getElem?_toList, Array.getElem?_eq_getElem inside,
    Array.getElem?_eq_getElem bound, Option.map_some, Option.some.injEq] at same
  have equal :=
    unique (Array.getElem?_eq_getElem inside) (Array.getElem?_eq_getElem bound) same
  omega

/-- Every index answers as a scan of the gates does, and the scans leave no choice. -/
structure Exact (netlist : Netlist) : Prop where
  /-- The users of a variable are the gates with it as an operand, in either polarity. -/
  listed {var index : Nat} : index ∈ netlist.dependents var ↔
    ∃ gate, netlist.gates[index]? = some gate ∧ (gate.left.var = var ∨ gate.right.var = var)
  /-- No user is listed twice, and older ones come first. -/
  ordered (var : Nat) : (netlist.dependents var).Pairwise (· < ·)
  definer (var : Nat) : netlist.definer? var = netlist.gates.findIdx? (·.output.var = var)
  outputs : (netlist.gates.toList.map (·.output.var)).Nodup
  signatures : (netlist.gates.toList.map Gate.signature).Nodup
  found (signature : Signature) :
    netlist.find? signature = netlist.gates.findIdx? (·.signature = signature)
  /-- The users of either operand would do. -/
  either (signature : Signature) {operand : Signal}
    (among : operand = signature.left ∨ operand = signature.right) :
    (netlist.dependents operand.var).find? (netlist.hasSignature signature) =
      netlist.gates.findIdx? (·.signature = signature)

namespace Indexed

theorem output_unique (indexed : netlist.Indexed) {left right : Nat} {gate other : Gate}
    (first : netlist.gates[left]? = some gate) (second : netlist.gates[right]? = some other)
    (same : gate.output.var = other.output.var) : left = right := by
  have here := (indexed.definer other.output.var left).mpr ⟨gate, first, same⟩
  have there := (indexed.definer other.output.var right).mpr ⟨other, second, rfl⟩
  exact Option.some.inj (here.symm.trans there)

theorem findIdx?_output_eq_some_iff (indexed : netlist.Indexed) {var index : Nat} :
    netlist.gates.findIdx? (·.output.var = var) = some index ↔
      ∃ gate, netlist.gates[index]? = some gate ∧ gate.output.var = var := by
  rw [findIdx?_eq_some_iff_of_unique]
  · simp only [decide_eq_true_eq]
  · intro left right gate other first second here there
    rw [decide_eq_true_eq] at here there
    exact indexed.output_unique first second (here.trans there.symm)

theorem findIdx?_signature_eq_some_iff (indexed : netlist.Indexed) {signature : Signature}
    {index : Nat} : netlist.gates.findIdx? (·.signature = signature) = some index ↔
      ∃ gate, netlist.gates[index]? = some gate ∧ gate.signature = signature := by
  rw [findIdx?_eq_some_iff_of_unique]
  · simp only [decide_eq_true_eq]
  · intro left right gate other first second here there
    rw [decide_eq_true_eq] at here there
    exact indexed.distinct first second (here.trans there.symm)

theorem exact (indexed : netlist.Indexed) : netlist.Exact where
  listed {var index} := by
    simp only [indexed.mem_dependents_iff, Gate.uses_iff]
  ordered var := by
    rw [indexed.users]
    exact List.pairwise_lt_range.filter _
  definer var := by
    apply Option.ext
    intro index
    rw [indexed.definer, indexed.findIdx?_output_eq_some_iff]
  outputs := nodup_map_of_unique indexed.output_unique
  signatures := nodup_map_of_unique indexed.distinct
  found signature := by
    apply Option.ext
    intro index
    rw [indexed.find?_eq_some_iff, indexed.findIdx?_signature_eq_some_iff]
  either signature operand among := by
    apply Option.ext
    intro index
    rw [indexed.find?_dependents_eq_some_iff among, indexed.findIdx?_signature_eq_some_iff]

end Indexed

/-- Edits that end without a fault leave the gates in the order of their insertion, and indices that
answer as scans do. -/
theorem lookups_exact {edits : List Edit} (done : ofEdits edits = .ok netlist) :
    netlist.entries = edits.filterMap Edit.added? ∧ netlist.Exact := by
  obtain ⟨built, entries⟩ := Built.empty.edits done
  exact ⟨entries, built.indexed.exact⟩

/-- Operands on one variable and out of order, a gate on its own output, and literals stored between
the insertions. -/
theorem lookups_exact_of_overlap : ∃ netlist,
    ofEdits [.insert ⟨⟨1⟩, .xor, ⟨-1⟩⟩ ⟨2⟩, .insert ⟨⟨-2⟩, .and, ⟨1⟩⟩ ⟨5⟩,
      .setLiterals 0 ⟨⟨1⟩, ⟨-1⟩, ⟨2⟩⟩, .insert ⟨⟨3⟩, .or, ⟨3⟩⟩ ⟨3⟩,
      .insert ⟨⟨-2⟩, .nand, ⟨1⟩⟩ ⟨0⟩] = .ok netlist ∧
    netlist.dependents 1 = [0, 1, 3] ∧ netlist.dependents 2 = [1, 3] ∧
    netlist.dependents 3 = [2] ∧ netlist.definer? 5 = some 1 ∧ netlist.definer? 1 = none ∧
    netlist.find? ⟨⟨-2⟩, .nand, ⟨1⟩⟩ = some 3 ∧ netlist.find? ⟨⟨1⟩, .nand, ⟨-2⟩⟩ = none ∧
    netlist.entries = [(⟨⟨1⟩, .xor, ⟨-1⟩⟩, ⟨2⟩), (⟨⟨-2⟩, .and, ⟨1⟩⟩, ⟨5⟩),
      (⟨⟨3⟩, .or, ⟨3⟩⟩, ⟨3⟩), (⟨⟨-2⟩, .nand, ⟨1⟩⟩, ⟨0⟩)] ∧ netlist.Exact := by
  have executed : ∃ netlist,
      ofEdits [.insert ⟨⟨1⟩, .xor, ⟨-1⟩⟩ ⟨2⟩, .insert ⟨⟨-2⟩, .and, ⟨1⟩⟩ ⟨5⟩,
        .setLiterals 0 ⟨⟨1⟩, ⟨-1⟩, ⟨2⟩⟩, .insert ⟨⟨3⟩, .or, ⟨3⟩⟩ ⟨3⟩,
        .insert ⟨⟨-2⟩, .nand, ⟨1⟩⟩ ⟨0⟩] = .ok netlist ∧
      netlist.dependents 1 = [0, 1, 3] ∧ netlist.dependents 2 = [1, 3] ∧
      netlist.dependents 3 = [2] ∧ netlist.definer? 5 = some 1 ∧ netlist.definer? 1 = none ∧
      netlist.find? ⟨⟨-2⟩, .nand, ⟨1⟩⟩ = some 3 ∧ netlist.find? ⟨⟨1⟩, .nand, ⟨-2⟩⟩ = none :=
    ⟨_, rfl, rfl, rfl, rfl, rfl, rfl, rfl, rfl⟩
  obtain ⟨netlist, done, first, second, third, defined, undefined, found, missing⟩ := executed
  obtain ⟨entries, exact⟩ := lookups_exact done
  exact ⟨netlist, done, first, second, third, defined, undefined, found, missing, entries, exact⟩

end Netlist

end CircuitSat
