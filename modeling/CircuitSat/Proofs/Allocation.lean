import CircuitSat.Proofs.Numbering

/-! # Allocation and the range of signals

Circuit variables are counted in 32 bits, one bit more than a signal has for its variable. Up to the
largest variable with a positive word every allocation is fresh. The words after that count up from
the least one, so they are those of negated signals, of ever smaller variables.
-/

namespace CircuitSat

namespace Signal

variable {var : Nat}

/-- The word of a variable beyond the positive ones wraps around. -/
theorem toInt_ofVar_beyond (beyond : maxVar < var) (fits : var < UInt32.size) :
    (ofVar var).code.toInt = (var : Int) - UInt32.size := by
  simp only [maxVar] at beyond
  simp only [UInt32.size] at fits ⊢
  rw [ofVar, Int32.toInt_ofNat', Int32.size, Int.bmod_def]
  split <;> omega

theorem var_ofVar_beyond (beyond : maxVar < var) (fits : var < UInt32.size) :
    (ofVar var).var = UInt32.size - var := by
  rw [Signal.var, toInt_ofVar_beyond beyond fits]
  simp only [UInt32.size] at fits ⊢
  omega

theorem negated_ofVar_beyond (beyond : maxVar < var) (fits : var < UInt32.size) :
    (ofVar var).negated = true := by
  rw [negated, decide_eq_true_eq, Word.lt_zero_iff, toInt_ofVar_beyond beyond fits]
  simp only [UInt32.size] at fits ⊢
  omega

/-- Beyond the variable of the least word, the variables before it are named once more. -/
theorem var_ofVar_mirror {distance : Nat} (small : distance ≤ maxVar) :
    (ofVar (maxVar + 1 + distance)).var = maxVar + 1 - distance := by
  simp only [maxVar] at small ⊢
  rw [var_ofVar_beyond (by simp only [maxVar]; omega) (by simp only [UInt32.size]; omega)]
  simp only [UInt32.size]
  omega

theorem var_ofVar_le (positive : 0 < var) (fits : var < UInt32.size) :
    0 < (ofVar var).var ∧ (ofVar var).var ≤ var := by
  rcases Nat.lt_or_ge maxVar var with beyond | small
  · rw [var_ofVar_beyond beyond fits]
    simp only [maxVar] at beyond
    simp only [UInt32.size] at fits ⊢
    omega
  · rw [var_ofVar small]
    exact ⟨positive, Nat.le_refl var⟩

/-- The words of variables are unnegated exactly up to the largest variable with a positive word. -/
theorem negated_ofVar_eq_false_iff (fits : var < UInt32.size) :
    (ofVar var).negated = false ↔ var ≤ maxVar := by
  rcases Nat.lt_or_ge maxVar var with beyond | small
  · simp [negated_ofVar_beyond beyond fits, beyond]
  · simp [negated_ofVar small, small]

end Signal

namespace Numbering

/-- Hands out some circuit variables, one after another. -/
def allocateMany (numbering : Numbering) : Nat → Except Fault (List Signal × Numbering)
  | 0 => .ok ([], numbering)
  | count + 1 => do
    let (signals, middle) ← numbering.allocateMany count
    let (signal, last) ← middle.allocate
    return (signals ++ [signal], last)

/-- The words of the first variables, in order. -/
def firstSignals (count : Nat) : List Signal :=
  (List.range count).map fun index => .ofVar (index + 1)

theorem length_firstSignals (count : Nat) : (firstSignals count).length = count := by
  rw [firstSignals, List.length_map, List.length_range]

theorem getElem?_firstSignals {count index : Nat} (within : index < count) :
    (firstSignals count)[index]? = some (.ofVar (index + 1)) := by
  rw [firstSignals, List.getElem?_map, List.getElem?_range within, Option.map_some]

theorem mem_firstSignals {count : Nat} {signal : Signal} :
    signal ∈ firstSignals count ↔ ∃ index < count, .ofVar (index + 1) = signal := by
  simp [firstSignals]

/-- Allocations from scratch end in a fault or hand out the words of the first variables. -/
theorem allocateMany_eq_ok {count : Nat} {signals : List Signal} {last : Numbering}
    (allocated : empty.allocateMany count = .ok (signals, last)) :
    count ≤ maxCircuit ∧ signals = firstSignals count ∧ last.numCircuit = count := by
  induction count generalizing signals last with
  | zero =>
    cases allocated
    exact ⟨Nat.zero_le _, rfl, rfl⟩
  | succ count ih =>
    simp only [allocateMany, bind_eq_ok_iff, Prod.exists, pure_eq_ok_iff, Prod.mk.injEq]
      at allocated
    obtain ⟨front, middle, before, signal, next, one, rfl, rfl⟩ := allocated
    obtain ⟨_, rfl, counted⟩ := ih before
    have room : middle.numCircuit < maxCircuit := by
      by_contra full
      rw [allocate, if_neg full] at one
      contradiction
    obtain ⟨rfl, rfl⟩ := allocate_eq_ok one
    refine ⟨by omega, ?_, ?_⟩
    · rw [firstSignals, firstSignals, List.range_succ, List.map_append, counted]
      rfl
    · rw [numCircuit, Array.size_push, ← counted]
      rfl

/-- Up to the limit of the counter no allocation fails. -/
theorem exists_allocateMany {count : Nat} (room : count ≤ maxCircuit) :
    ∃ last, empty.allocateMany count = .ok (firstSignals count, last) := by
  induction count with
  | zero => exact ⟨empty, rfl⟩
  | succ count ih =>
    obtain ⟨middle, before⟩ := ih (Nat.le_of_succ_le room)
    obtain ⟨_, _, counted⟩ := allocateMany_eq_ok before
    have one : middle.allocate =
        .ok (.ofVar (count + 1), { middle with images := middle.images.push none }) := by
      rw [allocate, counted, if_pos (Nat.lt_of_succ_le room)]
    refine ⟨{ middle with images := middle.images.push none }, ?_⟩
    rw [allocateMany, before]
    simp only [bind, Except.bind, one]
    rw [firstSignals, firstSignals, List.range_succ, List.map_append]
    rfl

/-- The least word is negated, but no other word names its variable. -/
theorem map_var_firstSignals {count : Nat} (few : count ≤ maxVar + 1) :
    (firstSignals count).map Signal.var = List.range' 1 count := by
  rw [firstSignals, List.map_map, List.range'_eq_map_range]
  refine List.map_congr_left fun index member => ?_
  have within := List.mem_range.mp member
  rcases Nat.lt_or_ge maxVar (index + 1) with beyond | small
  · obtain rfl : index = maxVar := by omega
    exact (Signal.var_ofVar_mirror (Nat.zero_le _)).trans (Nat.add_comm _ _)
  · exact (Signal.var_ofVar small).trans (Nat.add_comm _ _)

/-- The word after the least one names the largest unnegated variable for the second time. -/
theorem nodup_firstSignals_iff {count : Nat} :
    ((firstSignals count).map Signal.var).Nodup ↔ count ≤ maxVar + 1 := by
  constructor
  · intro distinct
    by_contra many
    have positive : 0 < maxVar := by decide
    have early : ((firstSignals count).map Signal.var)[maxVar - 1]? = some maxVar := by
      rw [List.getElem?_map, getElem?_firstSignals (by omega), Option.map_some,
        Nat.sub_add_cancel positive, Signal.var_ofVar (Nat.le_refl _)]
    have late : ((firstSignals count).map Signal.var)[maxVar + 1]? = some maxVar := by
      rw [List.getElem?_map, getElem?_firstSignals (by omega), Option.map_some,
        Signal.var_ofVar_mirror positive, Nat.add_sub_cancel]
    have within : maxVar - 1 < ((firstSignals count).map Signal.var).length := by
      rw [List.length_map, length_firstSignals]
      omega
    have same : maxVar - 1 = maxVar + 1 :=
      (List.getElem?_inj within distinct).mp (early.trans late.symm)
    omega
  · intro few
    rw [map_var_firstSignals few]
    exact List.nodup_range'

theorem unnegated_firstSignals_iff {count : Nat} (room : count ≤ maxCircuit) :
    (∀ signal ∈ firstSignals count, signal.negated = false) ↔ count ≤ maxVar := by
  simp only [mem_firstSignals, forall_exists_index, and_imp]
  have fits {index : Nat} (within : index < count) : index + 1 < UInt32.size := by
    simp only [maxCircuit, UInt32.size] at room ⊢
    omega
  constructor
  · intro unnegated
    cases count with
    | zero => exact Nat.zero_le _
    | succ index =>
      have final := unnegated _ index (Nat.lt_succ_self index) rfl
      exact (Signal.negated_ofVar_eq_false_iff (fits (Nat.lt_succ_self index))).mp final
  · rintro few _ index within rfl
    exact Signal.negated_ofVar (Nat.le_trans within few)

/-- The signals are what allocations may promise: unnegated, handed out, and on different variables.
-/
structure Fresh (signals : List Signal) (numbering : Numbering) : Prop where
  unnegated : ∀ signal ∈ signals, signal.negated = false
  contained : ∀ signal ∈ signals, numbering.contains signal = true
  distinct : (signals.map Signal.var).Nodup

/-- Allocations from scratch never hand out a signal that is not contained afterwards. Their signals
are distinct in their variables as long as there are no more than words with a sign, and fresh as
long as there are no more than positive words. -/
theorem allocation_exact {count : Nat} {signals : List Signal} {last : Numbering}
    (allocated : empty.allocateMany count = .ok (signals, last)) :
    signals.length = count ∧ (∀ signal ∈ signals, last.contains signal = true) ∧
      ((signals.map Signal.var).Nodup ↔ count ≤ maxVar + 1) ∧
      (Fresh signals last ↔ count ≤ maxVar) := by
  obtain ⟨room, rfl, counted⟩ := allocateMany_eq_ok allocated
  have contained : ∀ signal ∈ firstSignals count, last.contains signal = true := by
    intro signal member
    obtain ⟨index, within, rfl⟩ := mem_firstSignals.mp member
    have bounds : 0 < (Signal.ofVar (index + 1)).var ∧ (Signal.ofVar (index + 1)).var ≤ index + 1 :=
      Signal.var_ofVar_le (Nat.succ_pos index) (by
        simp only [maxCircuit, UInt32.size] at room ⊢
        omega)
    rw [contains_iff, counted]
    omega
  refine ⟨length_firstSignals count, contained, nodup_firstSignals_iff, ?_⟩
  constructor
  · intro fresh
    exact (unnegated_firstSignals_iff room).mp fresh.unnegated
  · intro few
    exact ⟨(unnegated_firstSignals_iff room).mpr few, contained,
      nodup_firstSignals_iff.mpr (Nat.le_succ_of_le few)⟩

theorem allocation_exact_of_three : ∃ last,
    empty.allocateMany 3 = .ok ([⟨1⟩, ⟨2⟩, ⟨3⟩], last) ∧ Fresh [⟨1⟩, ⟨2⟩, ⟨3⟩] last := by
  have allocated : empty.allocateMany 3 =
      .ok ([⟨1⟩, ⟨2⟩, ⟨3⟩], ⟨#[none, none, none], #[]⟩) := rfl
  exact ⟨_, allocated, (allocation_exact allocated).2.2.2.mpr (by decide)⟩

/-- Two allocations beyond the largest positive word complete, but the first of them hands out a
negated signal and the second one the opposite of a signal that was handed out before. -/
theorem allocation_not_fresh : ∃ signals last,
    empty.allocateMany 2147483649 = .ok (signals, last) ∧
    signals[2147483646]? = some ⟨2147483647⟩ ∧
    signals[2147483647]? = some ⟨-2147483648⟩ ∧
    signals[2147483648]? = some ⟨-2147483647⟩ ∧
    ¬Fresh signals last := by
  obtain ⟨last, allocated⟩ := exists_allocateMany
    (show 2147483649 ≤ maxCircuit by decide)
  refine ⟨_, last, allocated, getElem?_firstSignals (by decide), getElem?_firstSignals (by decide),
    getElem?_firstSignals (by decide), fun fresh => ?_⟩
  have few := (unnegated_firstSignals_iff (by decide)).mp fresh.unnegated
  exact absurd few (by decide)

end Numbering

end CircuitSat
