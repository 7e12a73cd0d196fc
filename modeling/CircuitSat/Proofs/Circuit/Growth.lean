import CircuitSat.Proofs.Circuit.Walk

/-! # Circuits grow at the end

Every request leaves the gates and the images that are there, and a new gate is on a new variable.
So the consistent assignments of a grown circuit are, on the old variables, the same as before.
-/

namespace CircuitSat

theorem Signal.eval_congr {signal : Signal} {assignment other : Nat → Bool}
    (same : assignment signal.var = other signal.var) :
    signal.eval assignment = signal.eval other := by
  rw [eval, eval, same]

namespace Circuit

/-- No gate and no image is lost, and every new gate is on a new variable. -/
structure Grows (old new : Circuit) : Prop where
  numCircuit : old.numbering.numCircuit ≤ new.numbering.numCircuit
  image {var image : Nat} (mapped : old.numbering.image? var = some image) :
    new.numbering.image? var = some image
  gate {gate : Gate} (member : gate ∈ old.netlist.gates) :
    ∃ after ∈ new.netlist.gates, after.Alike gate
  fresh {gate : Gate} (member : gate ∈ new.netlist.gates) :
    (∃ before ∈ old.netlist.gates, before.Alike gate) ∨
      old.numbering.numCircuit < gate.output.var

namespace Grows

variable {old middle new : Circuit}

theorem refl (circuit : Circuit) : Grows circuit circuit :=
  ⟨Nat.le_refl _, id, fun member => ⟨_, member, .refl _⟩, fun member => .inl ⟨_, member, .refl _⟩⟩

theorem trans (left : Grows old middle) (right : Grows middle new) : Grows old new where
  numCircuit := Nat.le_trans left.numCircuit right.numCircuit
  image mapped := right.image (left.image mapped)
  gate member := by
    obtain ⟨between, present, alike⟩ := left.gate member
    obtain ⟨after, found, same⟩ := right.gate present
    exact ⟨after, found, same.trans alike⟩
  fresh member := by
    rcases right.fresh member with ⟨between, present, alike⟩ | beyond
    · rcases left.fresh present with ⟨before, found, same⟩ | beyond
      · exact .inl ⟨before, found, same.trans alike⟩
      · exact .inr (alike.2 ▸ beyond)
    · exact .inr (Nat.lt_of_le_of_lt left.numCircuit beyond)

theorem denotes (grows : Grows old new) {literal : Literal} {signal : Signal}
    (denotes : old.numbering.Denotes literal signal) : new.numbering.Denotes literal signal :=
  ⟨grows.image denotes.1, denotes.2⟩

theorem carries (grows : Grows old new) {literals : Triple} {gate : Gate}
    (carries : old.numbering.Carries literals gate) : new.numbering.Carries literals gate :=
  ⟨grows.denotes carries.left, grows.denotes carries.right, grows.denotes carries.output⟩

theorem contains (grows : Grows old new) {signal : Signal}
    (contained : old.numbering.contains signal = true) :
    new.numbering.contains signal = true := by
  rw [Numbering.contains_iff] at contained ⊢
  exact ⟨contained.1, Nat.le_trans contained.2 grows.numCircuit⟩

/-- What is consistent with the grown circuit was so before. -/
theorem consistent (grows : Grows old new) {assignment : Nat → Bool}
    (consistent : new.Consistent assignment) : old.Consistent assignment := by
  intro gate member
  obtain ⟨after, present, alike⟩ := grows.gate member
  exact alike.consistent (consistent after present)

/-- What was consistent before is so with the grown circuit after a change on new variables. -/
theorem exists_consistent (grows : Grows old new) (valid : new.WellFormed)
    {assignment : Nat → Bool} (consistent : old.Consistent assignment) :
    ∃ extended, new.Consistent extended ∧
      ∀ var ≤ old.numbering.numCircuit, extended var = assignment var := by
  obtain ⟨extended, holds, same⟩ := valid.exists_consistent
    (fun var => if var ≤ old.numbering.numCircuit then some (assignment var) else none)
    fun gate member => by
      rcases grows.fresh member with ⟨before, present, alike⟩ | beyond
      · exact Gate.supported_of_consistent (valid.wired member)
          (alike.consistent (consistent before present)) _
      · intro value known
        simp only [if_neg (Nat.not_le.mpr beyond), reduceCtorEq] at known
  exact ⟨extended, holds, fun var bound => same var _ (if_pos bound)⟩

end Grows

theorem Encodes.grows {old new : Circuit} (encodes : Encodes old new) : Grows old new where
  numCircuit := Nat.le_of_eq encodes.numbering.numCircuit.symm
  image := encodes.numbering.image
  gate := encodes.exists_new
  fresh member := .inl (encodes.exists_old member)

/-! ## New variables and new gates -/

/-- One variable more, without an image, which no gate defines. -/
def allot (circuit : Circuit) : Circuit :=
  { circuit with
    numbering := { circuit.numbering with images := circuit.numbering.images.push none } }

theorem allocate_eq_ok {circuit next : Circuit} {output : Signal}
    (allocated : circuit.allocate = .ok (output, next)) :
    output = .ofVar (circuit.numbering.numCircuit + 1) ∧ next = circuit.allot := by
  simp only [allocate, bind_eq_ok_iff, pure_eq_ok_iff, Prod.mk.injEq] at allocated
  obtain ⟨⟨signal, numbering⟩, done, rfl, rfl⟩ := allocated
  obtain ⟨rfl, rfl⟩ := Numbering.allocate_eq_ok done
  exact ⟨rfl, rfl⟩

theorem allocate_of_room {circuit : Circuit} (room : circuit.numbering.numCircuit < maxVar) :
    circuit.allocate = .ok (.ofVar (circuit.numbering.numCircuit + 1), circuit.allot) := by
  have within : circuit.numbering.numCircuit < Numbering.maxCircuit := by
    simp only [maxVar, Numbering.maxCircuit, UInt32.size] at room ⊢
    omega
  simp only [allocate, Numbering.allocate, if_pos within]
  rfl

theorem insert_numbering {circuit next : Circuit} {signature : Signature} {output : Signal}
    {index : Nat} (inserted : circuit.insert signature output = .ok (index, next)) :
    next.numbering = circuit.numbering := by
  simp only [insert, bind_eq_ok_iff, pure_eq_ok_iff, Prod.mk.injEq] at inserted
  obtain ⟨_, _, _, rfl⟩ := inserted
  rfl

@[simp] theorem numCircuit_allot (circuit : Circuit) :
    circuit.allot.numbering.numCircuit = circuit.numbering.numCircuit + 1 := Array.size_push _

@[simp] theorem image?_allot (circuit : Circuit) (var : Nat) :
    circuit.allot.numbering.image? var = circuit.numbering.image? var :=
  Numbering.image?_push _ _

theorem grows_allot (circuit : Circuit) : Grows circuit circuit.allot where
  numCircuit := by rw [numCircuit_allot]; omega
  image mapped := (circuit.image?_allot _).trans mapped
  gate member := ⟨_, member, .refl _⟩
  fresh member := .inl ⟨_, member, .refl _⟩

theorem Closed.allot {circuit : Circuit} {pending : List Nat} (closed : circuit.Closed pending) :
    circuit.allot.Closed pending := fun gate member image mapped =>
  closed gate member image ((circuit.image?_allot _).symm.trans mapped)

theorem WellFormed.allot {circuit : Circuit} (valid : circuit.WellFormed)
    (room : circuit.numbering.numCircuit < maxVar) : circuit.allot.WellFormed where
  numbering := valid.numbering.push
  small := by rw [numCircuit_allot]; omega
  indexed := valid.indexed
  wired member := by
    obtain ⟨left, right, output, positive⟩ := valid.wired member
    rw [numCircuit_allot]
    exact ⟨left, right, by omega, positive⟩
  carried member encoded := (grows_allot circuit).carries (valid.carried member encoded)

/-- A gate more, on the newest variable, of which nothing is in clauses. -/
structure Adds (old : Circuit) (signature : Signature) (output : Signal) (new : Circuit) :
    Prop where
  wellFormed : new.WellFormed
  newest : output = .ofVar (old.numbering.numCircuit + 1)
  gates : new.netlist.gates = old.netlist.gates.push ⟨signature, output, none⟩
  numbering : new.numbering = old.allot.numbering

namespace Adds

variable {old new : Circuit} {signature : Signature} {output : Signal}

theorem numCircuit (adds : old.Adds signature output new) :
    new.numbering.numCircuit = old.numbering.numCircuit + 1 := by
  rw [adds.numbering, numCircuit_allot]

theorem image? (adds : old.Adds signature output new) (var : Nat) :
    new.numbering.image? var = old.numbering.image? var := by
  rw [adds.numbering, image?_allot]

theorem numCnf (adds : old.Adds signature output new) :
    new.numbering.numCnf = old.numbering.numCnf := by
  rw [adds.numbering]
  rfl

theorem var_output (adds : old.Adds signature output new) :
    output.var = old.numbering.numCircuit + 1 := by
  have small := adds.wellFormed.small
  rw [adds.numCircuit] at small
  rw [adds.newest, Signal.var_ofVar small]

theorem mem_iff (adds : old.Adds signature output new) {gate : Gate} :
    gate ∈ new.netlist.gates ↔ gate ∈ old.netlist.gates ∨ gate = ⟨signature, output, none⟩ := by
  rw [adds.gates, Array.mem_push]

theorem codes (adds : old.Adds signature output new) :
    new.netlist.codes = old.netlist.codes := by
  simp [Netlist.codes, adds.gates]

theorem grows (adds : old.Adds signature output new) : Grows old new where
  numCircuit := by rw [adds.numCircuit]; omega
  image mapped := (adds.image? _).trans mapped
  gate member := ⟨_, adds.mem_iff.mpr (.inl member), .refl _⟩
  fresh member := by
    rcases adds.mem_iff.mp member with before | rfl
    · exact .inl ⟨_, before, .refl _⟩
    · exact .inr (by rw [adds.var_output]; omega)

/-- The new variable has no image, so that its gate need not be in clauses. -/
theorem closed (adds : old.Adds signature output new) {pending : List Nat}
    (closed : old.Closed pending) : new.Closed pending := by
  intro gate member image mapped
  rw [adds.image?] at mapped
  rcases adds.mem_iff.mp member with before | rfl
  · exact closed gate before image mapped
  · have bound := (Numbering.bound_of_image? mapped).2
    simp only [adds.var_output] at bound
    omega

end Adds

/-- A new signature over allocated operands gets a gate as long as there are variables. -/
theorem WellFormed.exists_adds {circuit : Circuit} (valid : circuit.WellFormed)
    (room : circuit.numbering.numCircuit < maxVar) {signature : Signature}
    (left : circuit.numbering.contains signature.left = true)
    (right : circuit.numbering.contains signature.right = true)
    (missing : circuit.netlist.find? signature = none) :
    ∃ index next,
      circuit.allot.insert signature (.ofVar (circuit.numbering.numCircuit + 1)) =
        .ok (index, next) ∧
      circuit.Adds signature (.ofVar (circuit.numbering.numCircuit + 1)) next := by
  have var : (Signal.ofVar (circuit.numbering.numCircuit + 1)).var =
    circuit.numbering.numCircuit + 1 := Signal.var_ofVar room
  have positive : (Signal.ofVar (circuit.numbering.numCircuit + 1)).negated = false :=
    Signal.negated_ofVar room
  have undefined : circuit.netlist.definer?
      (Signal.ofVar (circuit.numbering.numCircuit + 1)).var = none := by
    rw [var, Option.eq_none_iff_forall_ne_some]
    intro index defined
    obtain ⟨gate, present, output⟩ := (valid.indexed.definer _ index).mp defined
    have bound := (valid.wired (Netlist.mem_of_getElem? present)).output
    omega
  obtain ⟨netlist, inserted⟩ := Netlist.insert_eq_ok missing positive undefined
  obtain ⟨_, _, _, _, gates, _, _⟩ := Netlist.insert_eq_ok_iff inserted
  have done : circuit.allot.netlist.insert signature (.ofVar (circuit.numbering.numCircuit + 1)) =
      .ok (circuit.netlist.size, netlist) := inserted
  refine ⟨circuit.netlist.size, ⟨circuit.allot.numbering, netlist⟩, ?_, ?_, rfl, gates, rfl⟩
  · simp only [insert, done]
    rfl
  · have before := valid.allot room
    rw [Numbering.contains_iff] at left right
    refine ⟨before.numbering, before.small, valid.indexed.insert inserted, fun member => ?_,
      fun member encoded => ?_⟩
    · rw [gates, Array.mem_push] at member
      rcases member with old | rfl
      · exact before.wired old
      · dsimp only
        rw [numCircuit_allot]
        refine ⟨⟨left.1, ?_⟩, ⟨right.1, ?_⟩, ?_, positive⟩ <;>
          simp only [Gate.left, Gate.right, var] <;> omega
    · rw [gates, Array.mem_push] at member
      rcases member with old | rfl
      · exact before.carried old encoded
      · contradiction

end Circuit

end CircuitSat
