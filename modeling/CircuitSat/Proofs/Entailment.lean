import CircuitSat.Proofs.Circuit.Growth
import CircuitSat.Proofs.Spreading

/-! # Values that a model entails

A model values the variables with images, and gates pass these values on. What results is determined
by the values known at first and the gates alone, not by the order in which gates came in: a gate on
a new variable, valued at once, leaves it as if the gate had been there from the beginning.
-/

namespace CircuitSat

/-- The least set with the known variables and the outputs of gates whose operands are in it. -/
inductive Netlist.Entailed (netlist : Netlist) (known : Nat → Option Bool) : Nat → Prop
  | known {var : Nat} (found : (known var).isSome) : Entailed netlist known var
  | output {gate : Gate} (member : gate ∈ netlist.gates)
      (left : Entailed netlist known gate.left.var)
      (right : Entailed netlist known gate.right.var) : Entailed netlist known gate.output.var

/-- Literals of gates do not matter, and more gates entail no less. -/
theorem Netlist.Entailed.mono {netlist next : Netlist} {known : Nat → Option Bool}
    (new : ∀ gate ∈ netlist.gates, ∃ after ∈ next.gates, after.Alike gate) {var : Nat}
    (entailed : netlist.Entailed known var) : next.Entailed known var := by
  induction entailed with
  | known found => exact .known found
  | output member _ _ left right =>
    obtain ⟨after, present, alike⟩ := new _ member
    obtain ⟨sameLeft, sameRight, _⟩ := alike.inputs
    exact alike.2 ▸ .output present (sameLeft ▸ left) (sameRight ▸ right)

/-- What is entailed without being known is called for by a gate. -/
theorem Netlist.Entailed.exists_gate {netlist : Netlist} {known : Nat → Option Bool} {var : Nat}
    (entailed : netlist.Entailed known var) (unknown : known var = none) :
    ∃ gate ∈ netlist.gates, gate.output.var = var ∧ netlist.Entailed known gate.left.var ∧
      netlist.Entailed known gate.right.var := by
  cases entailed with
  | known found =>
    rw [unknown] at found
    contradiction
  | output member left right => exact ⟨_, member, rfl, left, right⟩

theorem Circuit.WellFormed.entailed_bound {circuit : Circuit} (valid : circuit.WellFormed)
    {known : Nat → Option Bool}
    (bounded : ∀ var, (known var).isSome → var ≤ circuit.numbering.numCircuit) {var : Nat}
    (entailed : circuit.netlist.Entailed known var) : var ≤ circuit.numbering.numCircuit := by
  cases entailed with
  | known found => exact bounded var found
  | output member _ _ => exact (valid.wired member).output

namespace Valuation

/-- The values together with that of a gate, if its operands have one. -/
def withGate (valuation : Valuation) (gate : Gate) : Valuation :=
  match valuation.infer? gate with
  | some value => valuation.assign gate.output.var value
  | none => valuation

theorem get?_withGate_of_ne (valuation : Valuation) {gate : Gate} {var : Nat}
    (other : gate.output.var ≠ var) :
    (valuation.withGate gate).get? var = valuation.get? var := by
  unfold withGate
  split
  · rw [get?_assign, if_neg other]
  · rfl

theorem get?_withGate_output {valuation : Valuation} {gate : Gate}
    (unvalued : valuation.get? gate.output.var = none) :
    (valuation.withGate gate).get? gate.output.var = valuation.infer? gate := by
  unfold withGate
  split
  · next value called => rw [get?_assign, if_pos rfl, called]
  · next called => rw [unvalued, called]

/-- The known values are there, every other output has the value that its gate calls for, and
nothing else has one. -/
structure Completes (netlist : Netlist) (known : Nat → Option Bool) (valuation : Valuation) :
    Prop where
  kept {var : Nat} {value : Bool} (found : known var = some value) :
    valuation.get? var = some value
  inferred {gate : Gate} (member : gate ∈ netlist.gates) (unknown : known gate.output.var = none) :
    valuation.get? gate.output.var = valuation.infer? gate
  least {var : Nat} (valued : (valuation.get? var).isSome) : netlist.Entailed known var

namespace Completes

variable {netlist : Netlist} {known : Nat → Option Bool} {valuation : Valuation}

theorem isSome_iff (completes : Completes netlist known valuation) {var : Nat} :
    (valuation.get? var).isSome ↔ netlist.Entailed known var := by
  refine ⟨completes.least, fun entailed => ?_⟩
  induction entailed with
  | known found =>
    obtain ⟨value, known⟩ := Option.isSome_iff_exists.mp found
    exact Option.isSome_of_eq_some (completes.kept known)
  | @output gate member left right leftValued rightValued =>
    cases unknown : known gate.output.var with
    | some value => exact Option.isSome_of_eq_some (completes.kept unknown)
    | none =>
      rw [completes.inferred member unknown]
      exact infer?_isSome_iff.mpr ⟨leftValued, rightValued⟩

/-- With more gates the values that there are stay the same. -/
theorem get?_eq {next : Netlist} {other : Valuation} (left : Completes netlist known valuation)
    (right : Completes next known other)
    (new : ∀ gate ∈ netlist.gates, ∃ after ∈ next.gates, after.Alike gate) {var : Nat}
    (entailed : netlist.Entailed known var) : valuation.get? var = other.get? var := by
  induction entailed with
  | known found =>
    obtain ⟨value, known⟩ := Option.isSome_iff_exists.mp found
    rw [left.kept known, right.kept known]
  | @output gate member _ _ leftSame rightSame =>
    cases unknown : known gate.output.var with
    | some value => rw [left.kept unknown, right.kept unknown]
    | none =>
      obtain ⟨after, present, alike⟩ := new gate member
      have inferred := right.inferred present (alike.2 ▸ unknown)
      rw [alike.2, infer?_alike alike] at inferred
      rw [left.inferred member unknown, inferred]
      exact infer?_congr leftSame rightSame

/-- Nothing is left open by what is known and the gates. -/
theorem unique {other : Valuation} (left : Completes netlist known valuation)
    (right : Completes netlist known other) (var : Nat) : valuation.get? var = other.get? var := by
  by_cases entailed : netlist.Entailed known var
  · exact left.get?_eq right (fun gate member => ⟨gate, member, .refl gate⟩) entailed
  · have unvalued {some : Valuation} (completes : Completes netlist known some) :
        some.get? var = none := by
      rw [← Option.not_isSome_iff_eq_none, completes.isSome_iff]
      exact entailed
    rw [unvalued left, unvalued right]

/-- Literals of gates do not matter. -/
theorem congr {next : Netlist} (completes : Completes netlist known valuation)
    (new : ∀ gate ∈ netlist.gates, ∃ after ∈ next.gates, after.Alike gate)
    (old : ∀ gate ∈ next.gates, ∃ before ∈ netlist.gates, before.Alike gate) :
    Completes next known valuation where
  kept := completes.kept
  inferred member unknown := by
    obtain ⟨before, present, alike⟩ := old _ member
    rw [← alike.2] at unknown ⊢
    rw [completes.inferred present unknown, infer?_alike alike]
  least valued := (completes.least valued).mono new

theorem encodes {old new : Circuit} (completes : Completes old.netlist known valuation)
    (encodes : old.Encodes new) : Completes new.netlist known valuation :=
  completes.congr (fun _ => encodes.exists_new) fun _ => encodes.exists_old

/-- A gate on a new variable is valued as it would have been all along. -/
theorem withGate {old new : Circuit} {signature : Signature} {output : Signal}
    (completes : Completes old.netlist known valuation) (valid : old.WellFormed)
    (bounded : ∀ var, (known var).isSome → var ≤ old.numbering.numCircuit)
    (adds : old.Adds signature output new) :
    Completes new.netlist known (valuation.withGate ⟨signature, output, none⟩) := by
  have newest := adds.var_output
  have member := adds.mem_iff.mpr (.inr rfl)
  have wired := adds.wellFormed.wired member
  have same (var : Nat) (older : var ≤ old.numbering.numCircuit) :
      (valuation.withGate ⟨signature, output, none⟩).get? var = valuation.get? var :=
    get?_withGate_of_ne valuation (show output.var ≠ var by omega)
  have unvalued : valuation.get? output.var = none := by
    rw [← Option.not_isSome_iff_eq_none]
    intro valued
    have bound := valid.entailed_bound bounded (completes.least valued)
    omega
  have here : (valuation.withGate ⟨signature, output, none⟩).get? output.var =
      valuation.infer? ⟨signature, output, none⟩ := get?_withGate_output unvalued
  have stable {gate : Gate} (older : gate.Wired (old.numbering.numCircuit + 1)) :
      (valuation.withGate ⟨signature, output, none⟩).infer? gate = valuation.infer? gate := by
    have left := older.left
    have right := older.right
    have bound := older.output
    exact infer?_congr (same _ (by omega)) (same _ (by omega))
  refine ⟨fun {var value} found => ?_, fun {gate} among unknown => ?_, fun {var} valued => ?_⟩
  · rw [same var (bounded var (Option.isSome_of_eq_some found)), completes.kept found]
  · rw [stable (adds.numCircuit ▸ adds.wellFormed.wired among)]
    rcases adds.mem_iff.mp among with before | rfl
    · rw [same _ (valid.wired before).output]
      exact completes.inferred before unknown
    · exact here
  · by_cases newer : var = output.var
    · subst newer
      rw [here, infer?_isSome_iff, completes.isSome_iff, completes.isSome_iff] at valued
      exact .output member (valued.1.mono fun _ => adds.grows.gate)
        (valued.2.mono fun _ => adds.grows.gate)
    · rw [get?_withGate_of_ne valuation (show output.var ≠ var from Ne.symm newer)] at valued
      exact (completes.least valued).mono fun _ => adds.grows.gate

/-- Known values that respect the gates among them are completed to such values. -/
theorem supported {old new : Circuit} (completes : Completes new.netlist known valuation)
    (grows : old.Grows new)
    (bounded : ∀ var, (known var).isSome → var ≤ old.numbering.numCircuit)
    (respected : ∀ gate ∈ old.netlist.gates, gate.Supported known) :
    ∀ gate ∈ new.netlist.gates, gate.Supported valuation.get? := by
  intro gate member value valued
  cases found : known gate.output.var with
  | none =>
    rw [completes.inferred member found] at valued
    exact infer?_eq_some_iff.mp valued
  | some other =>
    obtain rfl := Option.some.inj ((completes.kept found).symm.trans valued)
    have older := bounded _ (Option.isSome_of_eq_some found)
    rcases grows.fresh member with ⟨before, present, alike⟩ | beyond
    · obtain ⟨sameLeft, sameRight, sameConnective⟩ := alike.inputs
      obtain ⟨left, right, atLeft, atRight, called⟩ :=
        respected before present other (alike.2 ▸ found)
      rw [sameLeft] at atLeft
      rw [sameRight] at atRight
      rw [sameLeft, sameRight, sameConnective] at called
      exact ⟨left, right, completes.kept atLeft, completes.kept atRight, called⟩
    · omega

end Completes

/-! ## The values of a model -/

/-- The values that a model gives to the variables with images. -/
def known (numbering : Numbering) (model : Array Bool) (var : Nat) : Option Bool :=
  (numbering.image? var).map (model.getD · false)

theorem get?_foldl_assign (entries : List (Nat × Signal)) (value : Nat → Bool)
    (valuation : Valuation) (result : Bool) {var : Nat}
    (same : ∀ entry ∈ entries, entry.2.var = var → value entry.1 = result) :
    (entries.foldl (fun valuation (image, origin) =>
      valuation.assign origin.var (value image)) valuation).get? var =
      if entries.any (·.2.var = var) then some result else valuation.get? var := by
  induction entries generalizing valuation with
  | nil => simp
  | cons entry rest ih =>
    rw [List.foldl_cons, ih _ fun other member => same other (List.mem_cons_of_mem _ member),
      get?_assign, List.any_cons]
    by_cases here : entry.2.var = var
    · rw [if_pos here, decide_eq_true here, same entry List.mem_cons_self here]
      simp
    · rw [if_neg here, decide_eq_false here, Bool.false_or]

theorem get?_seed {numbering : Numbering} (valid : numbering.WellFormed)
    (small : numbering.numCircuit ≤ maxVar) (model : Array Bool) (var : Nat) :
    (seed numbering model).get? var = known numbering model var := by
  unfold seed known
  have image {entry : Nat × Signal} (member : entry ∈ numbering.mapped)
      (same : entry.2.var = var) : numbering.image? var = some entry.1 :=
    same ▸ ((Numbering.mem_mapped_iff valid small).mp member).1
  refine (get?_foldl_assign numbering.mapped (model.getD · false) empty
    (((numbering.image? var).map (model.getD · false)).getD false)
    fun entry member same => by rw [image member same]; rfl).trans ?_
  cases mapped : numbering.image? var with
  | none =>
    refine if_neg fun found => ?_
    obtain ⟨entry, member, same⟩ := List.any_eq_true.mp found
    rw [image member (of_decide_eq_true same)] at mapped
    contradiction
  | some found =>
    have inside := Nat.le_trans (Numbering.bound_of_image? mapped).2 small
    have positive := Signal.negated_ofVar inside
    have same := Signal.var_ofVar inside
    refine if_pos (List.any_eq_true.mpr ⟨(found, .ofVar var), ?_, decide_eq_true same⟩)
    exact (Numbering.mem_mapped_iff valid small).mpr ⟨by rw [same, mapped], positive⟩

/-- With all valued variables on the frontier, what spreading ends with is what is entailed. -/
theorem Spreading.completes {netlist : Netlist} {base valuation : Valuation}
    {frontier : Nat → Prop} {known : Nat → Option Bool}
    (done : Spreading netlist base frontier valuation []) (same : ∀ var, base.get? var = known var)
    (all : ∀ var, (base.get? var).isSome → frontier var) : Completes netlist known valuation where
  kept found := done.kept ((same _).trans found)
  inferred {gate} member unknown := by
    rw [← same] at unknown
    cases found : valuation.get? gate.output.var with
    | some value => rw [← done.inferred member unknown (Option.isSome_of_eq_some found), found]
    | none =>
      by_contra differs
      have ready := Option.isSome_iff_ne_none.mpr (Ne.symm differs)
      obtain ⟨left, right⟩ := infer?_isSome_iff.mp ready
      have valued := done.output_isSome member (all _) left right
      rw [found] at valued
      contradiction
  least valued := by
    obtain ⟨_, chain⟩ := done.isSome_iff.mp valued
    clear valued
    induction chain with
    | base valued => exact .known (same _ ▸ valued)
    | output member _ _ _ _ left right => exact .output member left right

theorem ofModel_returns_iff {circuit : Circuit} {model : Array Bool} {log : List Event}
    {valuation : Valuation} : (ofModel circuit model).Returns log valuation ↔
      circuit.numbering.numCnf < model.size ∧
      (seed circuit.numbering model).propagate circuit.netlist
        (circuit.numbering.mapped.map (·.2.var)) = .ok valuation ∧
      log = [.log (.extended (seed circuit.numbering model).size
        (valuation.size - (seed circuit.numbering model).size))] := by
  obtain ⟨numbering, netlist⟩ := circuit
  unfold ofModel
  dsimp only
  split
  · next short => simp [Nat.not_lt.mpr short]
  · next long =>
    simp only [Outcome.returns_bind, Outcome.returns_lift, Outcome.returns_emit,
      Outcome.returns_pure, Nat.lt_of_not_le long, true_and]
    constructor
    · rintro ⟨_, _, _, ⟨rfl, spread⟩, ⟨_, _, _, rfl, ⟨rfl, rfl⟩, rfl⟩, rfl⟩
      exact ⟨spread, rfl⟩
    · rintro ⟨spread, rfl⟩
      exact ⟨[], valuation, _, ⟨rfl, spread⟩, ⟨_, (), [], rfl, ⟨rfl, rfl⟩, rfl⟩, rfl⟩

/-- A model that is long enough is completed along the gates. -/
theorem ofModel_spec {numbering : Numbering} {netlist : Netlist} (valid : numbering.WellFormed)
    (small : numbering.numCircuit ≤ maxVar) (indexed : netlist.Indexed) {model : Array Bool}
    (long : numbering.numCnf < model.size) :
    ∃ log valuation, (ofModel ⟨numbering, netlist⟩ model).Returns log valuation ∧
      Completes netlist (known numbering model) valuation := by
  obtain ⟨valuation, done, spreading⟩ := propagate_spec indexed
    (seed numbering model) (numbering.mapped.map (·.2.var))
  have same := get?_seed valid small model
  refine ⟨_, valuation, ofModel_returns_iff.mpr ⟨long, done, rfl⟩,
    spreading.completes same fun var valued => ?_⟩
  rw [same, known, Option.isSome_map] at valued
  obtain ⟨image, mapped⟩ := Option.isSome_iff_exists.mp valued
  have inside := Nat.le_trans (Numbering.bound_of_image? mapped).2 small
  have var := Signal.var_ofVar inside
  exact List.mem_map.mpr ⟨(image, .ofVar _), (Numbering.mem_mapped_iff valid small).mpr
    ⟨by rw [var, mapped], Signal.negated_ofVar inside⟩, var⟩

end Valuation

end CircuitSat
