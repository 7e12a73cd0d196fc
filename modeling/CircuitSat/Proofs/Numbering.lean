import CircuitSat.Numbering
import CircuitSat.Proofs.Outcome
import CircuitSat.Proofs.Polarity
import Mathlib.Data.List.Perm.Subperm

/-! # The two numberings are inverse to each other

Images and origins stay inverse to each other under every allocation and every minting, an image is
never taken back, and so a literal stands for one signal and a signal has one literal at most.
-/

namespace CircuitSat

namespace Numbering

/-- Images and origins are inverse to each other, and no clause variable is zero. -/
structure WellFormed (numbering : Numbering) : Prop where
  positive (var : Nat) : numbering.image? var ≠ some 0
  inverse (var index : Nat) :
    numbering.image? var = some (index + 1) ↔ numbering.origins[index]? = some var

/-- The literal stands for the signal: its variable is the image of the signal's, with its sign. -/
def Denotes (numbering : Numbering) (literal : Literal) (signal : Signal) : Prop :=
  numbering.image? signal.var = some literal.var ∧ literal.negative = signal.negated

/-- Which signals are allocated depends on the number of circuit variables only. -/
theorem contains_congr {old new : Numbering} {signal : Signal}
    (same : new.numCircuit = old.numCircuit) : new.contains signal = old.contains signal := by
  rw [contains, contains, same]

/-- The same circuit variables, and no image is lost. -/
structure Extends (old new : Numbering) : Prop where
  numCircuit : new.numCircuit = old.numCircuit
  image {var image : Nat} (mapped : old.image? var = some image) : new.image? var = some image

namespace Extends

variable {old middle new : Numbering}

theorem refl (numbering : Numbering) : Extends numbering numbering := ⟨rfl, id⟩

theorem trans (left : Extends old middle) (right : Extends middle new) : Extends old new :=
  ⟨right.numCircuit.trans left.numCircuit, right.image ∘ left.image⟩

theorem denotes (extension : Extends old new) {literal : Literal} {signal : Signal}
    (denotes : old.Denotes literal signal) : new.Denotes literal signal :=
  ⟨extension.image denotes.1, denotes.2⟩

theorem contains (extension : Extends old new) {signal : Signal} :
    new.contains signal = old.contains signal :=
  contains_congr extension.numCircuit

end Extends

variable {numbering : Numbering}

theorem bound_of_image? {var image : Nat} (mapped : numbering.image? var = some image) :
    0 < var ∧ var ≤ numbering.numCircuit := by
  cases var with
  | zero => simp [image?] at mapped
  | succ index =>
    simp only [image?, Option.join_eq_some_iff] at mapped
    have bound := (Array.getElem?_eq_some_iff.mp mapped).1
    simp only [numCircuit]
    omega

theorem contains_iff {signal : Signal} :
    numbering.contains signal = true ↔ 0 < signal.var ∧ signal.var ≤ numbering.numCircuit := by
  simp only [contains, Bool.and_eq_true, Bool.not_eq_true', decide_eq_true_eq,
    Bool.eq_false_iff, ne_eq, Signal.isZero_iff, Nat.pos_iff_ne_zero]

theorem wellFormed_empty : empty.WellFormed := by
  refine ⟨fun var => ?_, fun var index => ?_⟩ <;> cases var <;> simp [image?, empty]

namespace WellFormed

theorem image_bound (valid : numbering.WellFormed) {var image : Nat}
    (mapped : numbering.image? var = some image) : 0 < image ∧ image ≤ numbering.numCnf := by
  cases image with
  | zero => exact absurd mapped (valid.positive var)
  | succ index =>
    have bound := (Array.getElem?_eq_some_iff.mp ((valid.inverse var index).mp mapped)).1
    simp only [numCnf]
    omega

theorem image_injective (valid : numbering.WellFormed) {var other image : Nat}
    (left : numbering.image? var = some image) (right : numbering.image? other = some image) :
    var = other := by
  cases image with
  | zero => exact absurd left (valid.positive var)
  | succ index =>
    rw [valid.inverse] at left right
    exact Option.some.inj (left.symm.trans right)

/-- Every clause variable is the image of a circuit variable. -/
theorem exists_origin (valid : numbering.WellFormed) {image : Nat} (positive : 0 < image)
    (bound : image ≤ numbering.numCnf) : ∃ var, numbering.image? var = some image := by
  obtain ⟨index, rfl⟩ : ∃ index, image = index + 1 := ⟨image - 1, by omega⟩
  exact ⟨_, (valid.inverse _ _).mpr (Array.getElem?_eq_getElem bound)⟩

/-- There are at most as many clause variables as circuit variables. -/
theorem numCnf_le (valid : numbering.WellFormed) : numbering.numCnf ≤ numbering.numCircuit := by
  have distinct : numbering.origins.toList.Nodup := by
    rw [List.nodup_iff_pairwise_ne, List.pairwise_iff_getElem]
    intro left right leftBound rightBound ordered same
    rw [Array.getElem_toList, Array.getElem_toList] at same
    have first := (valid.inverse _ _).mpr (Array.getElem?_eq_getElem leftBound)
    have second := (valid.inverse _ _).mpr (Array.getElem?_eq_getElem rightBound)
    rw [same, second, Option.some.injEq] at first
    omega
  have within : numbering.origins.toList ⊆ List.range' 1 numbering.numCircuit := by
    intro var member
    obtain ⟨index, present⟩ := List.mem_iff_getElem?.mp member
    rw [Array.getElem?_toList] at present
    have bound := bound_of_image? ((valid.inverse _ _).mpr present)
    rw [List.mem_range'_1]
    omega
  simpa [numCnf] using (distinct.subperm within).length_le

theorem denotes_injective (valid : numbering.WellFormed) {literal : Literal} {left right : Signal}
    (first : numbering.Denotes literal left) (second : numbering.Denotes literal right) :
    left = right :=
  Signal.ext_of_var (valid.image_injective first.1 second.1) (first.2.symm.trans second.2)

end WellFormed

theorem Denotes.unique {left right : Literal} {signal : Signal}
    (first : numbering.Denotes left signal) (second : numbering.Denotes right signal) :
    left = right :=
  Literal.ext_of_var (Option.some.inj (first.1.symm.trans second.1))
    (first.2.trans second.2.symm)

theorem Denotes.contained {literal : Literal} {signal : Signal}
    (denotes : numbering.Denotes literal signal) : numbering.contains signal = true :=
  contains_iff.mpr (bound_of_image? denotes.1)

/-- Corresponding values make a literal worth what its signal is worth. -/
theorem Denotes.eval {literal : Literal} {signal : Signal}
    (denotes : numbering.Denotes literal signal) {values assignment : Nat → Bool}
    (same : values literal.var = assignment signal.var) :
    literal.eval values = signal.eval assignment := by
  rw [Literal.eval, Signal.eval, same, denotes.2]

theorem Denotes.proper {literal : Literal} {signal : Signal} (valid : numbering.WellFormed)
    (small : numbering.numCircuit ≤ maxVar) (denotes : numbering.Denotes literal signal) :
    literal.proper = true ∧ literal.var ≤ numbering.numCnf := by
  have bound := valid.image_bound denotes.1
  have fewer := valid.numCnf_le
  exact ⟨Literal.proper_of_var bound.1 (by omega), bound.2⟩

/-- No clause variable is lost. -/
theorem Extends.numCnf_le {old new : Numbering} (extension : Extends old new)
    (before : old.WellFormed) (after : new.WellFormed) : old.numCnf ≤ new.numCnf := by
  rcases Nat.eq_zero_or_pos old.numCnf with none | some
  · omega
  · obtain ⟨var, mapped⟩ := before.exists_origin some (Nat.le_refl _)
    exact (after.image_bound (extension.image mapped)).2

/-! ## Allocation -/

theorem allocate_eq_ok {signal : Signal} {next : Numbering}
    (allocated : numbering.allocate = .ok (signal, next)) :
    signal = .ofVar (numbering.numCircuit + 1) ∧
      next = { numbering with images := numbering.images.push none } := by
  unfold allocate at allocated
  split at allocated
  · cases allocated
    exact ⟨rfl, rfl⟩
  · contradiction

theorem image?_push (numbering : Numbering) (var : Nat) :
    ({ numbering with images := numbering.images.push none } : Numbering).image? var =
      numbering.image? var := by
  cases var with
  | zero => rfl
  | succ index =>
    simp only [image?, Array.getElem?_push]
    split
    · next fresh => simp [fresh]
    · rfl

theorem WellFormed.push (valid : numbering.WellFormed) :
    ({ numbering with images := numbering.images.push none } : Numbering).WellFormed := by
  refine ⟨fun var => ?_, fun var index => ?_⟩
  · rw [image?_push]
    exact valid.positive var
  · rw [image?_push]
    exact valid.inverse var index

/-! ## Minting -/

theorem image?_setIfInBounds (images : Array (Option Nat)) (origins : Array Nat) {var : Nat}
    (positive : 0 < var) (bound : var ≤ images.size) (image other : Nat) :
    (⟨images.setIfInBounds (var - 1) (some image), origins⟩ : Numbering).image? other =
      if other = var then some image else (⟨images, origins⟩ : Numbering).image? other := by
  cases other with
  | zero => rw [if_neg (by omega)]; rfl
  | succ index =>
    simp only [image?, Array.getElem?_setIfInBounds]
    by_cases same : index + 1 = var
    · subst same
      simp only [Nat.add_sub_cancel, if_true, if_pos (Nat.lt_of_succ_le bound), Option.join_some]
    · rw [if_neg (by omega), if_neg same]

/-- The numbering once a variable without an image was given the next one. -/
def minted (numbering : Numbering) (var : Nat) : Numbering :=
  ⟨numbering.images.setIfInBounds (var - 1) (some (numbering.numCnf + 1)),
    numbering.origins.push var⟩

theorem image?_minted {var : Nat} (positive : 0 < var) (bound : var ≤ numbering.numCircuit)
    (other : Nat) : (numbering.minted var).image? other =
      if other = var then some (numbering.numCnf + 1) else numbering.image? other := by
  have old : (⟨numbering.images, numbering.origins.push var⟩ : Numbering).image? other =
      numbering.image? other := rfl
  rw [minted, image?_setIfInBounds _ _ positive bound, old]

theorem WellFormed.minted (valid : numbering.WellFormed) {var : Nat} (positive : 0 < var)
    (bound : var ≤ numbering.numCircuit) (unmapped : numbering.image? var = none) :
    (numbering.minted var).WellFormed := by
  refine ⟨fun other => ?_, fun other index => ?_⟩
  · rw [image?_minted positive bound]
    split
    · simp
    · exact valid.positive other
  · rw [image?_minted positive bound, Numbering.minted, Array.getElem?_push]
    by_cases last : index = numbering.origins.size
    · subst last
      simp only [numCnf, if_true, Option.some.injEq]
      split
      · next same => simp [same]
      · next distinct =>
        rw [valid.inverse, Array.getElem?_eq_none (Nat.le_refl _)]
        simp [Ne.symm distinct]
    · rw [if_neg last]
      split
      · next same =>
        subst same
        rw [← valid.inverse, unmapped]
        simp only [numCnf, Option.some.injEq, reduceCtorEq, iff_false]
        omega
      · exact valid.inverse other index

/-- A minted image extends the numbering and concerns one variable only. -/
theorem mint_spec (valid : numbering.WellFormed) {var : Nat} (positive : 0 < var)
    (bound : var ≤ numbering.numCircuit) {image : Nat} {next : Numbering}
    (minted : numbering.mint var = (image, next)) :
    next.WellFormed ∧ Extends numbering next ∧ next.image? var = some image ∧
      ∀ other, other ≠ var → next.image? other = numbering.image? other := by
  unfold mint at minted
  split at minted
  · next mapped =>
    cases minted
    exact ⟨valid, .refl _, mapped, fun _ _ => rfl⟩
  · next unmapped =>
    cases minted
    have view := image?_minted positive bound
    refine ⟨valid.minted positive bound unmapped, ⟨?_, fun {other image} mapped => ?_⟩, ?_,
      fun other distinct => ?_⟩
    · simp [numCircuit]
    · rw [← mapped]
      refine (view other).trans (if_neg ?_)
      rintro rfl
      rw [unmapped] at mapped
      contradiction
    · exact (view var).trans (if_pos rfl)
    · exact (view other).trans (if_neg distinct)

/-- Minting hands out no circuit variable. -/
theorem literalOf_numCircuit {signal : Signal} {literal : Literal} {next : Numbering}
    (done : numbering.literalOf signal = .ok (literal, next)) :
    next.numCircuit = numbering.numCircuit := by
  unfold literalOf at done
  split at done
  · simp only [bind_eq_ok_iff, pure_eq_ok_iff, Prod.mk.injEq] at done
    obtain ⟨_, _, _, rfl⟩ := done
    unfold mint
    split
    · rfl
    · exact Array.size_setIfInBounds
  · contradiction

/-- Minting concerns no variable but that of the signal. -/
theorem literalOf_other {signal : Signal} {literal : Literal} {next : Numbering}
    (done : numbering.literalOf signal = .ok (literal, next)) {var : Nat}
    (other : var ≠ signal.var) : next.image? var = numbering.image? var := by
  unfold literalOf at done
  split at done
  · next contained =>
    obtain ⟨positive, bound⟩ := contains_iff.mp contained
    simp only [bind_eq_ok_iff, pure_eq_ok_iff, Prod.mk.injEq] at done
    obtain ⟨_, _, _, rfl⟩ := done
    unfold mint
    split
    · rfl
    · exact (image?_minted positive bound var).trans (if_neg other)
  · contradiction

/-- Only allocated signals are given literals. -/
theorem contains_of_literalOf {signal : Signal} {literal : Literal} {next : Numbering}
    (done : numbering.literalOf signal = .ok (literal, next)) :
    numbering.contains signal = true := by
  unfold literalOf at done
  split at done
  · next contained => exact contained
  · contradiction

/-- An allocated signal has a literal, minted if it had none; no other variable is concerned. -/
theorem literalOf_spec (valid : numbering.WellFormed) (small : numbering.numCircuit ≤ maxVar)
    {signal : Signal} (contained : numbering.contains signal = true) :
    ∃ literal next, numbering.literalOf signal = .ok (literal, next) ∧ next.WellFormed ∧
      Extends numbering next ∧ next.Denotes literal signal ∧
      ∀ other, other ≠ signal.var → next.image? other = numbering.image? other := by
  have bound := contains_iff.mp contained
  obtain ⟨⟨image, next⟩, minted⟩ : ∃ result, numbering.mint signal.var = result := ⟨_, rfl⟩
  obtain ⟨after, extension, mapped, others⟩ := mint_spec valid bound.1 bound.2 minted
  have inRange := after.image_bound mapped
  have fewer := after.numCnf_le
  have same := extension.numCircuit
  obtain ⟨literal, signed, var, polarity⟩ :=
    Literal.exists_withSign inRange.1 (by omega : image ≤ maxVar) signal.negated
  refine ⟨literal, next, ?_, after, extension, ⟨by rw [mapped, var], polarity⟩, others⟩
  simp only [literalOf, contained, if_true, minted, signed]
  rfl

/-- A signal whose variable has an image keeps the numbering as it is. -/
theorem literalOf_of_denotes (valid : numbering.WellFormed) (small : numbering.numCircuit ≤ maxVar)
    {literal : Literal} {signal : Signal} (denotes : numbering.Denotes literal signal) :
    numbering.literalOf signal = .ok (literal, numbering) := by
  have contained := denotes.contained
  obtain ⟨other, next, done, _, extension, after, _⟩ := literalOf_spec valid small contained
  obtain rfl := after.unique (extension.denotes denotes)
  have same : next = numbering := by
    simp only [literalOf, contained, if_true, mint, denotes.1, bind_eq_ok_iff, pure_eq_ok_iff,
      Prod.mk.injEq] at done
    obtain ⟨_, _, _, rfl⟩ := done
    rfl
  rw [done, same]

/-- A literal can be looked up exactly for the signals that have one. -/
theorem lookup_spec (valid : numbering.WellFormed) (small : numbering.numCircuit ≤ maxVar)
    (signal : Signal) : ∃ found, numbering.lookup signal = .ok found ∧
      (∀ literal, found = some literal ↔ numbering.Denotes literal signal) ∧
      (found = none → numbering.image? signal.var = none) := by
  unfold lookup
  cases mapped : numbering.image? signal.var with
  | none =>
    refine ⟨none, rfl, fun literal => ?_, fun _ => rfl⟩
    simp [Denotes, mapped]
  | some image =>
    have bound := valid.image_bound mapped
    have fewer := valid.numCnf_le
    obtain ⟨literal, signed, var, polarity⟩ :=
      Literal.exists_withSign bound.1 (by omega : image ≤ maxVar) signal.negated
    have denotes : numbering.Denotes literal signal := ⟨by rw [mapped, var], polarity⟩
    refine ⟨some literal, by simp only [signed]; rfl, fun other => ?_, fun same => by contradiction⟩
    simp only [Option.some.injEq]
    exact ⟨fun same => same ▸ denotes, fun second => denotes.unique second⟩

theorem lookup_eq_some_iff (valid : numbering.WellFormed) (small : numbering.numCircuit ≤ maxVar)
    {signal : Signal} {literal : Literal} :
    numbering.lookup signal = .ok (some literal) ↔ numbering.Denotes literal signal := by
  obtain ⟨found, looked, denoted, _⟩ := lookup_spec valid small signal
  rw [looked, ← denoted, Except.ok.injEq]

theorem lookup_eq_none_iff {signal : Signal} :
    numbering.lookup signal = .ok none ↔ numbering.image? signal.var = none := by
  unfold lookup
  cases numbering.image? signal.var with
  | none => exact iff_of_true rfl rfl
  | some image =>
    refine iff_of_false (fun looked => ?_) (by simp)
    change some <$> (Literal.ofVar image).withSign signal.negated = .ok none at looked
    cases signed : (Literal.ofVar image).withSign signal.negated <;> rw [signed] at looked <;>
      cases looked

/-- What is looked up depends on the image of the signal's variable only. -/
theorem lookup_congr {left right : Numbering} {signal : Signal}
    (same : left.image? signal.var = right.image? signal.var) :
    left.lookup signal = right.lookup signal := by
  rw [lookup, lookup, same]

/-! ## Back to signals -/

/-- A clause variable is traced back to the variable that it was minted for. -/
theorem originOf?_of_denotes (valid : numbering.WellFormed) {literal : Literal} {signal : Signal}
    (denotes : numbering.Denotes literal signal) :
    numbering.originOf? literal.var = some (.ofVar signal.var) := by
  have positive := (valid.image_bound denotes.1).1
  obtain ⟨index, same⟩ : ∃ index, literal.var = index + 1 := ⟨literal.var - 1, by omega⟩
  have origin := (valid.inverse _ _).mp (same ▸ denotes.1)
  rw [same, originOf?, origin, Option.map_some]

/-- Origins are traced for just the clause variables that were minted. -/
theorem originOf?_eq_some_iff (valid : numbering.WellFormed) {image : Nat} {origin : Signal} :
    numbering.originOf? image = some origin ↔
      ∃ var, numbering.image? var = some image ∧ origin = .ofVar var := by
  cases image with
  | zero => simp [originOf?, valid.positive]
  | succ index =>
    simp only [originOf?, Option.map_eq_some_iff, valid.inverse, eq_comm (a := origin)]

/-- Just the variables with images are listed. -/
theorem mem_mapped_iff (valid : numbering.WellFormed)
    (small : numbering.numCircuit ≤ maxVar) {entry : Nat × Signal} :
    entry ∈ numbering.mapped ↔
      numbering.image? entry.2.var = some entry.1 ∧ entry.2.negated = false := by
  have range {var image : Nat} (mapped : numbering.image? var = some image) : var ≤ maxVar :=
    Nat.le_trans (bound_of_image? mapped).2 small
  simp only [mapped, List.mem_map, Prod.exists, List.mk_mem_zipIdx_iff_getElem?,
    Array.getElem?_toList, ← valid.inverse]
  constructor
  · rintro ⟨var, index, mapped, rfl⟩
    rw [Signal.var_ofVar (range mapped)]
    exact ⟨mapped, Signal.negated_ofVar (range mapped)⟩
  · obtain ⟨image, origin⟩ := entry
    rintro ⟨mapped, positive⟩
    obtain ⟨index, rfl⟩ : ∃ index, image = index + 1 :=
      ⟨image - 1, by have := valid.image_bound mapped; omega⟩
    refine ⟨origin.var, index, mapped, Prod.ext rfl (Signal.ext_of_var ?_ ?_)⟩
    · exact Signal.var_ofVar (range mapped)
    · rw [Signal.negated_ofVar (range mapped), positive]

/-- The signal of a literal is the one that the literal was given to. -/
theorem signalOf_of_denotes (valid : numbering.WellFormed) (small : numbering.numCircuit ≤ maxVar)
    {literal : Literal} {signal : Signal} (denotes : numbering.Denotes literal signal) :
    numbering.signalOf literal = .ok (some signal) := by
  have range := bound_of_image? denotes.1
  have var : (Signal.ofVar signal.var).var = signal.var := Signal.var_ofVar (by omega)
  have positive : (Signal.ofVar signal.var).negated = false := Signal.negated_ofVar (by omega)
  have sign := denotes.2
  rw [signalOf, originOf?_of_denotes valid denotes]
  cases negative : literal.negative with
  | false =>
    rw [negative] at sign
    rw [Signal.ext_of_var var (positive.trans sign)]
    rfl
  | true =>
    rw [negative] at sign
    obtain ⟨opposite, negated⟩ : ∃ opposite, (Signal.ofVar signal.var).negate? = some opposite :=
      Signal.exists_negate? (by omega)
    obtain ⟨same, polarity⟩ := Signal.negate?_spec negated
    rw [positive] at polarity
    have equal : opposite = signal :=
      Signal.ext_of_var (same.trans var) ((polarity (by omega)).trans sign)
    simp only [if_true, Signal.negate_eq_ok_iff.mpr negated, equal]
    rfl

theorem mapM_signalOf (valid : numbering.WellFormed) (small : numbering.numCircuit ≤ maxVar)
    {literals : List Literal} {signals : List Signal}
    (both : List.Forall₂ numbering.Denotes literals signals) :
    literals.mapM numbering.signalOf = .ok (signals.map some) := by
  induction both with
  | nil => rfl
  | cons head _ ih =>
    rw [List.mapM_cons, signalOf_of_denotes valid small head, ih]
    rfl

end Numbering

end CircuitSat
