import CircuitSat.Proofs.Netlist
import CircuitSat.Proofs.Numbering
import CircuitSat.Proofs.Tseitin
import Mathlib.Data.Set.Card
import Mathlib.Order.Interval.Finset.Nat

/-! # Clause variables under other names

Two numberings of the same circuit variables differ by a bijection between their clause variables.
Literals keep their signs under it, and the clauses of a gate on renamed literals are the clauses of
the gate, renamed.
-/

namespace CircuitSat

/-- The literal on the renamed variable, with the same sign. -/
def Literal.rename (names : Nat → Nat) (literal : Literal) : Literal :=
  if literal.negative then (ofVar (names literal.var)).opposite else ofVar (names literal.var)

def Clause.rename (names : Nat → Nat) (clause : Clause) : Clause := clause.map (·.rename names)

def Triple.rename (names : Nat → Nat) (literals : Triple) : Triple :=
  ⟨literals.left.rename names, literals.right.rename names, literals.output.rename names⟩

/-- The same gate with its literals renamed, if it has any. -/
def Gate.rename (names : Nat → Nat) (gate : Gate) : Gate :=
  gate.withLiterals (gate.literals.map (·.rename names))

variable {names : Nat → Nat}

namespace Literal

variable {literal : Literal}

theorem var_rename (positive : 0 < names literal.var) (small : names literal.var ≤ maxVar) :
    (literal.rename names).var = names literal.var := by
  have same := var_ofVar small
  unfold rename
  split
  · exact (var_opposite (proper_of_var (by omega) (by omega))).trans same
  · exact same

theorem negative_rename (positive : 0 < names literal.var) (small : names literal.var ≤ maxVar) :
    (literal.rename names).negative = literal.negative := by
  have same := var_ofVar small
  have plain := negative_ofVar small
  unfold rename
  split
  · next negative =>
    rw [negative_opposite (proper_of_var (by omega) (by omega)), plain, negative, Bool.not_false]
  · next positive => rw [plain, Bool.eq_false_iff.mpr positive]

theorem opposite_opposite (literal : Literal) : literal.opposite.opposite = literal :=
  congrArg mk Int32.neg_neg

theorem rename_opposite (proper : literal.proper = true) :
    literal.opposite.rename names = (literal.rename names).opposite := by
  rw [rename, rename, negative_opposite proper, var_opposite proper]
  cases literal.negative
  · rfl
  · exact (opposite_opposite _).symm

end Literal

namespace Tseitin

theorem on_rename {literals : Triple} (proper : literals.Proper) (pin : Pin) :
    pin.on (literals.rename names) = (pin.on literals).rename names := by
  have wires : literalOn (literals.rename names) pin.wire =
      (literalOn literals pin.wire).rename names := by cases pin.wire <;> rfl
  rw [Pin.on, Pin.on, wires]
  split
  · exact (Literal.rename_opposite (literalOn_proper proper pin.wire)).symm
  · rfl

/-- The clauses of a gate on renamed literals are its clauses, renamed. -/
theorem clausesFor_rename {literals : Triple} (proper : literals.Proper) (connective : Connective) :
    clausesFor connective (literals.rename names) =
      (clausesFor connective literals).map (·.rename names) := by
  simp only [clausesFor, List.map_map]
  refine List.map_congr_left fun template _ => ?_
  rw [Function.comp, Clause.rename, List.map_map]
  exact List.map_congr_left fun pin _ => on_rename proper pin

end Tseitin

namespace Numbering

variable {left right : Numbering}

/-- The same circuit variables have images, and these are renamed. -/
def Renames (names : Nat → Nat) (left right : Numbering) : Prop :=
  ∀ var, right.image? var = (left.image? var).map names

/-- Where the same variables have images, one numbering renames the other. -/
theorem WellFormed.exists_renames (valid : left.WellFormed)
    (same : ∀ var, (left.image? var).isSome = (right.image? var).isSome) :
    ∃ names, Renames names left right := by
  refine ⟨fun image => ((left.origins[image - 1]?).bind right.image?).getD image, fun var => ?_⟩
  have known := same var
  cases mapped : left.image? var with
  | none =>
    rw [mapped] at known
    exact Option.isNone_iff_eq_none.mp (by simpa using known.symm)
  | some image =>
    rw [mapped] at known
    obtain ⟨other, found⟩ := Option.isSome_iff_exists.mp known.symm
    obtain ⟨index, rfl⟩ : ∃ index, image = index + 1 :=
      ⟨image - 1, by have := (valid.image_bound mapped).1; omega⟩
    have origin := (valid.inverse var index).mp mapped
    simp only [Option.map_some, Nat.add_sub_cancel, origin, Option.bind_some, found,
      Option.getD_some]

namespace Renames

/-- The new names are those of the other numbering, each for one variable. -/
theorem bijOn (renames : Renames names left right) (first : left.WellFormed)
    (second : right.WellFormed) :
    Set.BijOn names (Set.Icc 1 left.numCnf) (Set.Icc 1 right.numCnf) := by
  refine ⟨?_, ?_, ?_⟩
  · rintro image ⟨positive, bound⟩
    obtain ⟨var, mapped⟩ := first.exists_origin positive bound
    exact second.image_bound (by rw [renames, mapped, Option.map_some] : right.image? var = _)
  · rintro image ⟨positive, bound⟩ other ⟨more, within⟩ same
    obtain ⟨var, mapped⟩ := first.exists_origin positive bound
    obtain ⟨next, found⟩ := first.exists_origin more within
    have here : right.image? var = some (names image) := by rw [renames, mapped, Option.map_some]
    have there : right.image? next = some (names image) := by
      rw [renames, found, Option.map_some, same]
    rw [second.image_injective here there, found] at mapped
    exact (Option.some.inj mapped).symm
  · rintro image ⟨positive, bound⟩
    obtain ⟨var, mapped⟩ := second.exists_origin positive bound
    rw [renames, Option.map_eq_some_iff] at mapped
    obtain ⟨old, before, rfl⟩ := mapped
    exact ⟨old, first.image_bound before, rfl⟩

theorem numCnf (renames : Renames names left right) (first : left.WellFormed)
    (second : right.WellFormed) : right.numCnf = left.numCnf := by
  have bijective := renames.bijOn first second
  have size := bijective.injOn.ncard_image
  rw [bijective.image_eq] at size
  simpa [Set.ncard_eq_toFinset_card'] using size

/-- The literal of a signal is renamed. -/
theorem denotes (renames : Renames names left right) (valid : right.WellFormed)
    (small : right.numCircuit ≤ maxVar) {literal : Literal} {signal : Signal}
    (denotes : left.Denotes literal signal) : right.Denotes (literal.rename names) signal := by
  have mapped : right.image? signal.var = some (names literal.var) := by
    rw [renames, denotes.1, Option.map_some]
  obtain ⟨positive, bound⟩ := valid.image_bound mapped
  have inside := Nat.le_trans bound (Nat.le_trans valid.numCnf_le small)
  exact ⟨by rw [mapped, Literal.var_rename positive inside],
    (Literal.negative_rename positive inside).trans denotes.2⟩

end Renames

end Numbering

end CircuitSat
