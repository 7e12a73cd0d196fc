import CircuitSat.Proofs.Polarity
import CircuitSat.Search

/-! # The search is sound and complete

Passes over the clauses keep exactly the assignments that met the clauses before, and so do the two
values of a decision taken together. Hence a search that is never stopped gives values under which
all clauses hold, or there are none.
-/

namespace CircuitSat

/-- A literal of a variable holds exactly if the variable has the polarity of the literal. -/
theorem Literal.eval_eq_true_iff {literal : Literal} (nonzero : literal.var ≠ 0)
    {assignment : Nat → Bool} :
    literal.eval assignment = true ↔ assignment literal.var = literal.positive := by
  have opposed : literal.negative = !literal.positive := by
    simp only [negative, positive, var, ne_eq, Int.natAbs_eq_zero] at nonzero ⊢
    rw [← decide_not, decide_eq_decide, Word.lt_zero_iff, Int32.lt_iff_toInt_lt, Int32.toInt_zero]
    omega
  rw [eval, opposed]
  cases assignment literal.var <;> cases literal.positive <;> simp

namespace Search

/-- The assignment gives each variable the value that it has so far, if any. -/
def Agrees (values : Values) (assignment : Nat → Bool) : Prop :=
  ∀ var value, values[var]? = some value → assignment var = value

theorem agrees_insert {values : Values} {var : Nat} {value : Bool} {assignment : Nat → Bool}
    (unvalued : values[var]? = none) : Agrees (values.insert var value) assignment ↔
      Agrees values assignment ∧ assignment var = value := by
  simp only [Agrees, Std.TreeMap.getElem?_insert, Std.LawfulEqCmp.compare_eq_iff_eq]
  constructor
  · intro agrees
    refine ⟨fun other found valued => agrees other found ?_, agrees var value (if_pos rfl)⟩
    rw [if_neg, valued]
    rintro rfl
    rw [unvalued] at valued
    contradiction
  · rintro ⟨agrees, here⟩ other found valued
    split at valued
    · next same => rw [← same, here, Option.some.inj valued]
    · exact agrees other found valued

/-- All literals of the clauses name variables. -/
def Nonzero (clauses : List Clause) : Prop :=
  ∀ clause ∈ clauses, ∀ literal ∈ clause, literal.var ≠ 0

theorem nonzero_cons {clause : Clause} {rest : List Clause} :
    Nonzero (clause :: rest) ↔ (∀ literal ∈ clause, literal.var ≠ 0) ∧ Nonzero rest :=
  List.forall_mem_cons

/-! ## Clauses under values -/

theorem mem_of_under? {values : Values} {clause left : Clause}
    (under : under? values clause = some left) {literal : Literal} (member : literal ∈ left) :
    literal ∈ clause ∧ values[literal.var]? = none := by
  fun_induction under? values clause generalizing left with
  | case1 => cases under; contradiction
  | case2 first rest unvalued ih =>
    obtain ⟨short, found, rfl⟩ := Option.map_eq_some_iff.mp under
    rcases List.mem_cons.mp member with rfl | later
    · exact ⟨List.mem_cons_self, unvalued⟩
    · exact (ih found later).imp (List.mem_cons_of_mem _) id
  | case3 => contradiction
  | case4 first rest value valued differs ih =>
    exact (ih under member).imp (List.mem_cons_of_mem _) id

/-- What is left of a clause is worth what the clause is worth; if nothing is, the clause holds. -/
theorem eval_under? {values : Values} {clause : Clause}
    (nonzero : ∀ literal ∈ clause, literal.var ≠ 0) {assignment : Nat → Bool}
    (agrees : Agrees values assignment) :
    clause.eval assignment = ((under? values clause).map (·.eval assignment)).getD true := by
  fun_induction under? values clause with
  | case1 => rfl
  | case2 first rest unvalued ih =>
    have tail := ih fun literal member => nonzero literal (List.mem_cons_of_mem _ member)
    simp only [Clause.eval] at tail ⊢
    rw [List.any_cons, tail]
    cases under? values rest <;> simp
  | case3 first rest valued =>
    have holds := (Literal.eval_eq_true_iff (nonzero first List.mem_cons_self)).mpr
      (agrees _ _ valued)
    simp [Clause.eval, holds]
  | case4 first rest value valued differs ih =>
    have tail := ih fun literal member => nonzero literal (List.mem_cons_of_mem _ member)
    have fails : first.eval assignment = false := by
      rw [Bool.eq_false_iff, ne_eq, Literal.eval_eq_true_iff (nonzero first List.mem_cons_self),
        agrees _ _ valued]
      exact differs
    rw [← tail]
    simp [Clause.eval, fails]

namespace Residue

/-- The assignment agrees with the values and meets the clauses. -/
def Holds (residue : Residue) (assignment : Nat → Bool) : Prop :=
  Agrees residue.values assignment ∧ ∀ clause ∈ residue.clauses, clause.eval assignment = true

/-- Each clause has literals left, and only of variables without a value. -/
def Settled (residue : Residue) : Prop :=
  ∀ clause ∈ residue.clauses, clause ≠ [] ∧
    ∀ literal ∈ clause, literal.var ≠ 0 ∧ residue.values[literal.var]? = none

variable {residue : Residue} {assignment : Nat → Bool}

/-- Taking in a clause keeps the assignments that meet it. -/
theorem look_holds {clause : Clause} (nonzero : ∀ literal ∈ clause, literal.var ≠ 0) :
    (∃ next, residue.look clause = some next ∧ next.Holds assignment) ↔
      residue.Holds assignment ∧ clause.eval assignment = true := by
  by_cases agrees : Agrees residue.values assignment
  · rw [eval_under? nonzero agrees]
    unfold look
    split
    · next under => simp [under]
    · next under => simp [under, Clause.eval]
    · next literal under =>
      obtain ⟨among, unvalued⟩ := mem_of_under? under List.mem_cons_self
      have single : Clause.eval [literal] assignment = literal.eval assignment := by
        simp [Clause.eval]
      simp only [Option.some.injEq, exists_eq_left', Holds, agrees_insert unvalued, under,
        Option.map_some, Option.getD_some, single, Literal.eval_eq_true_iff (nonzero literal among)]
      exact and_right_comm
    · next left _ _ under =>
      simp only [Option.some.injEq, exists_eq_left', Holds, List.forall_mem_cons, under,
        Option.map_some, Option.getD_some]
      exact ⟨fun ⟨values, left, rest⟩ => ⟨⟨values, rest⟩, left⟩,
        fun ⟨⟨values, rest⟩, left⟩ => ⟨values, left, rest⟩⟩
  · refine iff_of_false ?_ fun holds => agrees holds.1.1
    rintro ⟨next, looked, holds⟩
    apply agrees
    unfold look at looked
    split at looked
    · cases looked; exact holds.1
    · contradiction
    · next literal under =>
      cases looked
      exact ((agrees_insert (mem_of_under? under List.mem_cons_self).2).mp holds.1).1
    · cases looked; exact holds.1

theorem nonzero_look {clause : Clause} (nonzero : ∀ literal ∈ clause, literal.var ≠ 0)
    (others : Nonzero residue.clauses) {next : Residue} (looked : residue.look clause = some next) :
    Nonzero next.clauses := by
  unfold look at looked
  split at looked
  · cases looked; exact others
  · contradiction
  · cases looked; exact others
  · next left _ _ under =>
    cases looked
    exact nonzero_cons.mpr ⟨fun literal member => nonzero literal (mem_of_under? under member).1,
      others⟩

/-- Each clause taken in is settled or kept, and as long as none is settled nothing is valued. -/
theorem settled_look {clause : Clause} (nonzero : ∀ literal ∈ clause, literal.var ≠ 0)
    {next : Residue} (looked : residue.look clause = some next) :
    next.clauses.length ≤ residue.clauses.length + 1 ∧
      (next.clauses.length = residue.clauses.length + 1 → residue.Settled → next.Settled) := by
  unfold look at looked
  split at looked
  · cases looked; exact ⟨by omega, fun same => by omega⟩
  · contradiction
  · cases looked; exact ⟨by simp, fun same => by simp at same⟩
  · next left some _ under =>
    cases looked
    refine ⟨by simp, fun _ settled => List.forall_mem_cons.mpr ⟨⟨some, fun literal member => ?_⟩,
      settled⟩⟩
    obtain ⟨among, unvalued⟩ := mem_of_under? under member
    exact ⟨nonzero literal among, unvalued⟩

/-! ## Passes -/

theorem pass_holds {clauses : List Clause} (nonzero : Nonzero clauses) :
    (∃ left, clauses.foldlM look residue = some left ∧ left.Holds assignment) ↔
      residue.Holds assignment ∧ ∀ clause ∈ clauses, clause.eval assignment = true := by
  induction clauses generalizing residue with
  | nil => simp
  | cons clause rest ih =>
    obtain ⟨head, tail⟩ := nonzero_cons.mp nonzero
    rw [List.forall_mem_cons, ← and_assoc, ← look_holds head, List.foldlM_cons]
    constructor
    · rintro ⟨left, passed, holds⟩
      obtain ⟨next, looked, later⟩ := Option.bind_eq_some_iff.mp passed
      obtain ⟨before, others⟩ := (ih tail).mp ⟨left, later, holds⟩
      exact ⟨⟨next, looked, before⟩, others⟩
    · rintro ⟨⟨next, looked, before⟩, others⟩
      obtain ⟨left, later, holds⟩ := (ih tail).mpr ⟨before, others⟩
      exact ⟨left, Option.bind_eq_some_iff.mpr ⟨next, looked, later⟩, holds⟩

theorem nonzero_pass {clauses : List Clause} (nonzero : Nonzero clauses)
    (others : Nonzero residue.clauses) {left : Residue}
    (passed : clauses.foldlM look residue = some left) : Nonzero left.clauses := by
  induction clauses generalizing residue with
  | nil => cases passed; exact others
  | cons clause rest ih =>
    obtain ⟨head, tail⟩ := nonzero_cons.mp nonzero
    rw [List.foldlM_cons] at passed
    obtain ⟨next, looked, later⟩ := Option.bind_eq_some_iff.mp passed
    exact ih tail (nonzero_look head others looked) later

theorem nonzero_sweep (nonzero : Nonzero residue.clauses) {left : Residue}
    (swept : residue.sweep = some left) : Nonzero left.clauses :=
  @nonzero_pass ⟨residue.values, []⟩ _ nonzero (List.forall_mem_nil _) _ swept

theorem settled_pass {clauses : List Clause} (nonzero : Nonzero clauses) {left : Residue}
    (passed : clauses.foldlM look residue = some left) :
    left.clauses.length ≤ residue.clauses.length + clauses.length ∧
      (left.clauses.length = residue.clauses.length + clauses.length →
        residue.Settled → left.Settled) := by
  induction clauses generalizing residue with
  | nil => cases passed; exact ⟨Nat.le_refl _, fun _ settled => settled⟩
  | cons clause rest ih =>
    obtain ⟨head, tail⟩ := nonzero_cons.mp nonzero
    rw [List.foldlM_cons] at passed
    obtain ⟨next, looked, later⟩ := Option.bind_eq_some_iff.mp passed
    obtain ⟨one, settlesOne⟩ := settled_look head looked
    obtain ⟨more, settlesMore⟩ := ih tail later
    rw [List.length_cons]
    exact ⟨by omega, fun same settled => settlesMore (by omega) (settlesOne (by omega) settled)⟩

/-- Passes lose no assignment and gain none. -/
theorem propagate_holds (nonzero : Nonzero residue.clauses) :
    (∃ left, residue.propagate = some left ∧ left.Holds assignment) ↔
      residue.Holds assignment := by
  have pass (residue : Residue) (nonzero : Nonzero residue.clauses) :
      (∃ left, residue.sweep = some left ∧ left.Holds assignment) ↔ residue.Holds assignment := by
    rw [sweep, pass_holds nonzero]
    simp [Holds]
  fun_induction propagate residue with
  | case1 residue failed => simpa [failed] using pass residue nonzero
  | case2 residue left swept _ ih =>
    refine (ih (nonzero_sweep nonzero swept)).trans ?_
    rw [← pass residue nonzero]
    simp [swept]
  | case3 residue left swept _ => simpa [swept] using pass residue nonzero

theorem settled_propagate (nonzero : Nonzero residue.clauses) {left : Residue}
    (propagated : residue.propagate = some left) : left.Settled := by
  fun_induction propagate residue with
  | case1 => contradiction
  | case2 residue next swept _ ih =>
    exact ih (nonzero_sweep nonzero swept) propagated
  | case3 residue next swept stays =>
    cases propagated
    obtain ⟨most, settles⟩ := settled_pass nonzero swept
    simp only [List.length_nil, Nat.zero_add] at most settles
    exact settles (by omega) (List.forall_mem_nil _)

/-! ## Decisions -/

theorem least?_eq_some (settled : residue.Settled) {var : Nat} (least : residue.least? = some var) :
    var ≠ 0 ∧ residue.values[var]? = none := by
  obtain ⟨literal, member, rfl⟩ := List.mem_map.mp (List.min?_mem least)
  obtain ⟨clause, present, among⟩ := List.mem_flatten.mp member
  exact (settled clause present).2 literal among

theorem clauses_eq_nil (settled : residue.Settled) (none : residue.least? = none) :
    residue.clauses = [] := by
  rw [least?, List.min?_eq_none_iff, List.map_eq_nil_iff, List.flatten_eq_nil_iff] at none
  exact List.eq_nil_iff_forall_not_mem.mpr fun clause member =>
    (settled clause member).1 (none clause member)

/-- A decision keeps the assignments with the value that was chosen. -/
theorem assign_holds (settled : residue.Settled) {var : Nat} (least : residue.least? = some var)
    (value : Bool) : (residue.assign var value).Holds assignment ↔
      residue.Holds assignment ∧ assignment var = value := by
  obtain ⟨_, unvalued⟩ := least?_eq_some settled least
  simp only [Holds, assign, agrees_insert unvalued, List.mem_filterMap]
  refine Iff.trans (and_congr_right fun both => ?_) and_right_comm
  have agrees := (agrees_insert unvalued).mpr both
  constructor
  · intro rest clause member
    rw [eval_under? (fun literal among => ((settled clause member).2 literal among).1) agrees]
    cases under : under? (residue.values.insert var value) clause with
    | none => rfl
    | some left => exact rest left ⟨clause, member, under⟩
  · rintro holds left ⟨clause, member, under⟩
    have worth := eval_under? (fun literal among => ((settled clause member).2 literal among).1)
      agrees
    rw [under, holds clause member] at worth
    exact worth.symm

theorem nonzero_assign (settled : residue.Settled) (var : Nat) (value : Bool) :
    Nonzero (residue.assign var value).clauses := by
  intro left member literal among
  obtain ⟨clause, present, under⟩ := List.mem_filterMap.mp member
  exact ((settled clause present).2 literal (mem_of_under? under among).1).1

end Residue

/-- The result is right: the values meet the clauses whatever the other variables are, or nothing
meets them. -/
def Result.Right (residue : Residue) : Result → Prop
  | .model values => ∀ assignment, Agrees values assignment → residue.Holds assignment
  | .refuted => ∀ assignment, ¬residue.Holds assignment
  | .stopped => False

open Residue in
/-- A result for one value of a decision is right if a refutation speaks for the other value too. -/
theorem Result.Right.of_assign {residue : Residue} {var : Nat} {value : Bool} {result : Result}
    (right : result.Right (residue.assign var value)) (settled : residue.Settled)
    (least : residue.least? = some var)
    (other : result = .refuted → ∀ assignment, residue.Holds assignment → assignment var = value) :
    result.Right residue := by
  cases result with
  | model values =>
    exact fun assignment agrees => ((assign_holds settled least value).mp (right _ agrees)).1
  | refuted =>
    exact fun assignment holds =>
      right assignment ((assign_holds settled least value).mpr ⟨holds, other rfl _ holds⟩)
  | stopped => exact right

open Residue in
/-- Whatever may stop a search, what it comes to without being stopped is right. -/
theorem search_right_of_ne_stopped {stop : Meter → Bool} {preferred : Bool} {residue : Residue}
    {meter : Meter} (nonzero : Nonzero residue.clauses)
    (answered : (search stop preferred residue meter).1 ≠ .stopped) :
    (search stop preferred residue meter).1.Right residue := by
  have through {residue left : Residue} (nonzero : Nonzero residue.clauses)
      (propagated : residue.propagate = some left) {result : Result} (right : result.Right left) :
      result.Right residue := by
    have same (assignment : Nat → Bool) : left.Holds assignment ↔ residue.Holds assignment := by
      rw [← propagate_holds nonzero]
      simp [propagated]
    cases result with
    | model values => exact fun assignment agrees => (same _).mp (right _ agrees)
    | refuted => exact fun assignment holds => right _ ((same _).mpr holds)
    | stopped => exact right
  fun_induction search stop preferred residue meter with
  | case1 residue meter failed =>
    intro assignment holds
    simpa [failed] using (propagate_holds nonzero).mpr holds
  | case2 residue meter left propagated none =>
    refine through nonzero propagated fun assignment agrees => ⟨agrees, ?_⟩
    simp [clauses_eq_nil (settled_propagate nonzero propagated) none]
  | case3 => exact absurd rfl answered
  | case4 residue meter left propagated var least _ first refuted ih later =>
    have settled := settled_propagate nonzero propagated
    have impossible : first.1.Right (left.assign var preferred) :=
      ih (nonzero_assign settled var preferred) (refuted ▸ Result.noConfusion)
    rw [refuted] at impossible
    refine through nonzero propagated ((later (nonzero_assign settled var _) answered).of_assign
      settled least fun _ assignment holds => Bool.eq_not.mpr fun same => ?_)
    exact impossible assignment ((assign_holds settled least preferred).mpr ⟨holds, same⟩)
  | case5 residue meter left propagated var least _ first other ih =>
    have settled := settled_propagate nonzero propagated
    have right := ih (nonzero_assign settled var preferred) answered
    exact through nonzero propagated (right.of_assign settled least fun refuted =>
      absurd refuted other)

theorem search_ne_stopped {preferred : Bool} {residue : Residue} {meter : Meter} :
    (search (fun _ => false) preferred residue meter).1 ≠ .stopped := by
  fun_induction search (fun _ => false) preferred residue meter with
  | case1 => exact Result.noConfusion
  | case2 => exact Result.noConfusion
  | case3 => contradiction
  | case4 _ _ _ _ _ _ _ _ _ _ ih => exact ih
  | case5 _ _ _ _ _ _ _ _ _ ih => exact ih

/-- An answer of a search from scratch is right. -/
theorem run_right_of_ne_stopped {stop : Meter → Bool} {preferred : Bool} {clauses : List Clause}
    (nonzero : Nonzero clauses) (answered : (run stop preferred clauses).1 ≠ .stopped) :
    (run stop preferred clauses).1.Right ⟨∅, clauses⟩ :=
  search_right_of_ne_stopped nonzero answered

/-- A search from scratch that is never stopped finds values for the clauses if there are any. -/
theorem run_right (preferred : Bool) {clauses : List Clause} (nonzero : Nonzero clauses) :
    (run (fun _ => false) preferred clauses).1.Right ⟨∅, clauses⟩ :=
  run_right_of_ne_stopped nonzero search_ne_stopped

end Search

end CircuitSat
