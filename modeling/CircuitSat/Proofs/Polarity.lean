import CircuitSat.Fault

/-! # Variables and polarities of words

Signals and literals are signed words. As long as the variable fits into 31 bits, such a word is
nothing but a variable with a polarity: the positive word of a variable reads back, the opposite
word keeps the variable and turns the polarity, and values turn with it.
-/

namespace CircuitSat

/-- The largest variable with a positive word, and so with an opposite one. -/
def maxVar : Nat := 0x7FFFFFFF

namespace Word

theorem toInt_ofNat {var : Nat} (small : var ≤ maxVar) : (Int32.ofNat var).toInt = var :=
  Int32.toInt_ofNat_of_lt (by simp only [maxVar] at small; omega)

theorem toInt_neg {word : Int32} (proper : word ≠ Int32.minValue) :
    (-word).toInt = -word.toInt := by
  have least : word.toInt ≠ -2 ^ 31 := fun same =>
    proper (Int32.toInt_inj.mp (same.trans Int32.toInt_minValue.symm))
  have lower := Int32.le_toInt word
  have upper := Int32.toInt_lt word
  rw [Int32.toInt_neg, Int.bmod_eq_of_le (by omega) (by omega)]

theorem ne_minValue {word : Int32} (small : word.toInt.natAbs ≤ maxVar) :
    word ≠ Int32.minValue := by
  rintro rfl
  simp only [Int32.toInt_minValue, maxVar] at small
  omega

theorem lt_zero_iff {word : Int32} : word < 0 ↔ word.toInt < 0 := by
  rw [Int32.lt_iff_toInt_lt, Int32.toInt_zero]

theorem eq_zero_iff {word : Int32} : word = 0 ↔ word.toInt = 0 := by
  rw [← Int32.toInt_inj, Int32.toInt_zero]

/-- A word is given by its magnitude and its sign. -/
theorem eq_of_natAbs {left right : Int32} (magnitude : left.toInt.natAbs = right.toInt.natAbs)
    (sign : left < 0 ↔ right < 0) : left = right := by
  rw [lt_zero_iff, lt_zero_iff] at sign
  apply Int32.toInt_inj.mp
  omega

end Word

namespace Signal

theorem ext_of_var {left right : Signal} (var : left.var = right.var)
    (polarity : left.negated = right.negated) : left = right := by
  obtain ⟨left⟩ := left
  obtain ⟨right⟩ := right
  simp only [negated, decide_eq_decide] at polarity
  exact congrArg mk (Word.eq_of_natAbs var polarity)

theorem var_ofVar {var : Nat} (small : var ≤ maxVar) : (ofVar var).var = var := by
  simp only [Signal.var, ofVar, Word.toInt_ofNat small, Int.natAbs_natCast]

theorem negated_ofVar {var : Nat} (small : var ≤ maxVar) : (ofVar var).negated = false := by
  simp only [negated, ofVar, Word.lt_zero_iff, Word.toInt_ofNat small, decide_eq_false_iff_not]
  omega

theorem isZero_iff {signal : Signal} : signal.isZero = true ↔ signal.var = 0 := by
  simp only [isZero, decide_eq_true_eq, Word.eq_zero_iff, var, Int.natAbs_eq_zero]

theorem negate_eq_ok_iff {signal opposite : Signal} :
    signal.negate = .ok opposite ↔ signal.negate? = some opposite := by
  rw [negate]
  cases signal.negate? <;> simp [Fault.require]

/-- The opposite of a signal that names a variable. -/
theorem negate?_spec {signal opposite : Signal} (negated : signal.negate? = some opposite) :
    opposite.var = signal.var ∧ (signal.var ≠ 0 → opposite.negated = !signal.negated) := by
  unfold negate? at negated
  split at negated
  · contradiction
  · next proper =>
    cases negated
    have value := Word.toInt_neg proper
    refine ⟨by simp only [var, value, Int.natAbs_neg], fun nonzero => ?_⟩
    simp only [var] at nonzero
    simp only [Signal.negated, Word.lt_zero_iff, value, ← decide_not, decide_eq_decide]
    omega

/-- Signals on one variable are the same or opposites. -/
theorem var_eq_iff {signal other : Signal} :
    other.var = signal.var ↔ other = signal ∨ signal.negate? = some other := by
  constructor
  · intro same
    rcases Int.natAbs_eq_natAbs_iff.mp same with equal | opposite
    · exact .inl (congrArg mk (Int32.toInt_inj.mp equal))
    · right
      have proper : signal.code ≠ Int32.minValue := by
        intro least
        have upper := Int32.toInt_lt other.code
        rw [opposite, least, Int32.toInt_minValue] at upper
        omega
      rw [negate?, if_neg proper]
      rw [← Word.toInt_neg proper] at opposite
      exact congrArg (some ∘ mk) (Int32.toInt_inj.mp opposite).symm
  · rintro (rfl | opposite)
    · rfl
    · exact (negate?_spec opposite).1

theorem exists_negate? {signal : Signal} (small : signal.var ≤ maxVar) :
    ∃ opposite, signal.negate? = some opposite := by
  unfold negate?
  rw [if_neg (Word.ne_minValue small)]
  exact ⟨_, rfl⟩

theorem abs_eq_ok {signal : Signal} (small : signal.var ≤ maxVar) :
    signal.abs = .ok (.ofVar signal.var) := by
  have var := var_ofVar small
  have positive := negated_ofVar small
  unfold abs abs?
  split
  · next negative =>
    obtain ⟨opposite, negated⟩ := exists_negate? small
    obtain ⟨same, polarity⟩ := negate?_spec negated
    have nonzero : signal.var ≠ 0 := by
      simp only [Signal.negated, Word.lt_zero_iff, decide_eq_true_eq, Signal.var] at negative ⊢
      omega
    have equal : opposite = .ofVar signal.var := by
      refine ext_of_var (same.trans var.symm) ?_
      rw [polarity nonzero, negative, positive]
      rfl
    rw [negated, equal]
    rfl
  · next negative =>
    have equal : signal = .ofVar signal.var :=
      ext_of_var var.symm (by rw [positive, Bool.eq_false_iff.mpr negative])
    rw [← equal]
    rfl

theorem eval_negate? {signal opposite : Signal} (negated : signal.negate? = some opposite)
    (nonzero : signal.var ≠ 0) (assignment : Nat → Bool) :
    opposite.eval assignment = !signal.eval assignment := by
  obtain ⟨var, polarity⟩ := negate?_spec negated
  simp only [eval, var, polarity nonzero]
  cases assignment signal.var <;> cases signal.negated <;> rfl

end Signal

namespace Literal

theorem ext_of_var {left right : Literal} (var : left.var = right.var)
    (polarity : left.negative = right.negative) : left = right := by
  obtain ⟨left⟩ := left
  obtain ⟨right⟩ := right
  simp only [negative, decide_eq_decide] at polarity
  exact congrArg mk (Word.eq_of_natAbs var polarity)

theorem proper_of_var {literal : Literal} (positive : 0 < literal.var)
    (small : literal.var ≤ maxVar) : literal.proper = true := by
  simp only [proper, Bool.and_eq_true, decide_eq_true_eq]
  refine ⟨fun zero => ?_, Word.ne_minValue small⟩
  rw [Word.eq_zero_iff] at zero
  simp only [var, zero, Int.natAbs_zero, Nat.lt_irrefl] at positive

/-- The opposite word, whatever the literal; the least word is its own. -/
def opposite (literal : Literal) : Literal := ⟨-literal.code⟩

theorem negate?_of_proper {literal : Literal} (proper : literal.proper = true) :
    literal.negate? = some literal.opposite := by
  simp only [Literal.proper, Bool.and_eq_true, decide_eq_true_eq] at proper
  exact if_neg proper.2

theorem withSign_of_proper {literal : Literal} (proper : literal.proper = true) (negate : Bool) :
    literal.withSign negate = .ok (if negate then literal.opposite else literal) := by
  cases negate <;> simp [withSign, withSign?, Fault.require, negate?_of_proper proper]

theorem var_opposite {literal : Literal} (proper : literal.proper = true) :
    literal.opposite.var = literal.var := by
  simp only [Literal.proper, Bool.and_eq_true, decide_eq_true_eq] at proper
  simp only [var, opposite, Word.toInt_neg proper.2, Int.natAbs_neg]

theorem negative_opposite {literal : Literal} (proper : literal.proper = true) :
    literal.opposite.negative = !literal.negative := by
  simp only [Literal.proper, Bool.and_eq_true, decide_eq_true_eq, ne_eq, Word.eq_zero_iff] at proper
  simp only [negative, opposite, Word.lt_zero_iff, Word.toInt_neg proper.2, ← decide_not,
    decide_eq_decide]
  omega

theorem proper_opposite {literal : Literal} (proper : literal.proper = true) :
    literal.opposite.proper = true := by
  simp only [Literal.proper, Bool.and_eq_true, decide_eq_true_eq, ne_eq] at proper ⊢
  have value : literal.opposite.code.toInt = -literal.code.toInt := Word.toInt_neg proper.2
  have upper := Int32.toInt_lt literal.code
  constructor
  · intro zero
    rw [Word.eq_zero_iff, value] at zero
    exact proper.1 (Word.eq_zero_iff.mpr (by omega))
  · intro least
    rw [least, Int32.toInt_minValue] at value
    omega

theorem eval_opposite {literal : Literal} (proper : literal.proper = true)
    (assignment : Nat → Bool) : literal.opposite.eval assignment = !literal.eval assignment := by
  simp only [eval, var_opposite proper, negative_opposite proper]
  cases assignment literal.var <;> cases literal.negative <;> rfl

theorem var_ofVar {var : Nat} (small : var ≤ maxVar) : (ofVar var).var = var := by
  simp only [Literal.var, ofVar, Word.toInt_ofNat small, Int.natAbs_natCast]

theorem negative_ofVar {var : Nat} (small : var ≤ maxVar) : (ofVar var).negative = false := by
  simp only [negative, ofVar, Word.lt_zero_iff, Word.toInt_ofNat small, decide_eq_false_iff_not]
  omega

/-- A variable in range has a literal of either polarity. -/
theorem exists_withSign {var : Nat} (positive : 0 < var) (small : var ≤ maxVar) (negate : Bool) :
    ∃ literal, (ofVar var).withSign negate = .ok literal ∧ literal.var = var ∧
      literal.negative = negate := by
  have same := var_ofVar small
  have proper : (ofVar var).proper = true := proper_of_var (by omega) (by omega)
  refine ⟨_, withSign_of_proper proper negate, ?_, ?_⟩
  · cases negate
    · exact same
    · exact (var_opposite proper).trans same
  · cases negate
    · exact negative_ofVar small
    · exact (negative_opposite proper).trans (by rw [negative_ofVar small]; rfl)

end Literal

end CircuitSat
