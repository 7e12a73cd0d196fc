import CircuitSat.Literal
import Std.Data.TreeMap

/-! # Satisfiability search

A clause with one literal left forces the value of its variable; passes over the clauses go on
until nothing more is forced. Then the least variable left is tried with the preferred value first
and with the other one after. Forced values lose no model, so the model found is the first one in
the order that looks at the least variable first and at the preferred value before the other.
-/

namespace CircuitSat

namespace Search

/-- Values of the clause variables that have one so far. -/
abbrev Values : Type := Std.TreeMap Nat Bool

/-- What is left of a clause once some variables have values; nothing if the clause holds. -/
def under? (values : Values) : Clause → Option Clause
  | [] => some []
  | literal :: rest =>
    match values[literal.var]? with
    | none => (under? values rest).map (literal :: ·)
    | some value => if value = literal.positive then none else under? values rest

/-- Values and the clauses still to be met by the other variables. -/
structure Residue where
  values : Values
  clauses : List Clause

namespace Residue

/-- Gives a variable a value. -/
def assign (residue : Residue) (var : Nat) (value : Bool) : Residue :=
  let values := residue.values.insert var value
  ⟨values, residue.clauses.filterMap (under? values)⟩

/-- Takes in one more clause. If one literal of it is left, it is made true; if more are, they are
kept for later; if none is, the clause fails and there is nothing. -/
def look (residue : Residue) (clause : Clause) : Option Residue :=
  match under? residue.values clause with
  | none => some residue
  | some [] => none
  | some [literal] =>
    some { residue with values := residue.values.insert literal.var literal.positive }
  | some left => some { residue with clauses := left :: residue.clauses }

/-- One pass over the clauses. It turns their order round, so that a chain of forced values against
the order is followed by the next pass. -/
def sweep (residue : Residue) : Option Residue :=
  residue.clauses.foldlM look ⟨residue.values, []⟩

/-- Passes over the clauses as long as one of them is settled, and so until nothing is forced any
more. There is nothing if a clause fails. -/
def propagate (residue : Residue) : Option Residue :=
  match residue.sweep with
  | none => none
  | some left =>
    if left.clauses.length < residue.clauses.length then left.propagate else some left
termination_by residue.clauses.length

/-- The least variable of the clauses. -/
def least? (residue : Residue) : Option Nat := (residue.clauses.flatten.map Literal.var).min?

end Residue

/-- Number of clauses and literals. -/
def weight : List Clause → Nat
  | [] => 0
  | clause :: rest => clause.length + 1 + weight rest

theorem length_under? {values : Values} {clause left : Clause}
    (under : under? values clause = some left) : left.length ≤ clause.length := by
  fun_induction under? values clause generalizing left with
  | case1 => cases under; exact Nat.le_refl _
  | case2 _ _ _ ih =>
    obtain ⟨short, found, rfl⟩ := Option.map_eq_some_iff.mp under
    exact Nat.succ_le_succ (ih found)
  | case3 => cases under
  | case4 _ _ _ _ _ ih => exact Nat.le_succ_of_le (ih under)

theorem length_under?_lt {values : Values} {clause left : Clause} {literal : Literal}
    (under : under? values clause = some left) (member : literal ∈ clause)
    (valued : literal.var ∈ values) : left.length < clause.length := by
  fun_induction under? values clause generalizing left with
  | case1 => cases member
  | case2 _ _ unvalued ih =>
    obtain ⟨short, found, rfl⟩ := Option.map_eq_some_iff.mp under
    rcases List.mem_cons.mp member with rfl | later
    · simp [valued] at unvalued
    · exact Nat.succ_lt_succ (ih found later)
  | case3 => cases under
  | case4 => exact Nat.lt_succ_of_le (length_under? under)

theorem weight_under?_le (values : Values) (clauses : List Clause) :
    weight (clauses.filterMap (under? values)) ≤ weight clauses := by
  induction clauses with
  | nil => exact Nat.le_refl _
  | cons clause rest ih =>
    simp only [List.filterMap_cons]
    split
    · simp only [weight]; omega
    · rename_i left under
      have shorter := length_under? under
      simp only [weight]
      omega

/-- A value for a variable that occurs leaves less to do. -/
theorem weight_under?_lt {values : Values} {clauses : List Clause} {literal : Literal}
    (member : literal ∈ clauses.flatten) (valued : literal.var ∈ values) :
    weight (clauses.filterMap (under? values)) < weight clauses := by
  induction clauses with
  | nil => cases member
  | cons clause rest ih =>
    have tail := weight_under?_le values rest
    simp only [List.filterMap_cons]
    rw [List.flatten_cons, List.mem_append] at member
    split
    · simp only [weight]; omega
    · rename_i left under
      have shorter := length_under? under
      rcases member with here | later
      · have strict := length_under?_lt under here valued
        simp only [weight]
        omega
      · have strict := ih later
        simp only [weight]
        omega

theorem weight_look_le {residue next : Residue} {clause : Clause}
    (looked : residue.look clause = some next) :
    weight next.clauses ≤ weight (clause :: residue.clauses) := by
  unfold Residue.look at looked
  split at looked
  · cases looked; simp only [weight]; omega
  · cases looked
  · cases looked; simp only [weight]; omega
  · rename_i under
    cases looked
    have shorter := length_under? under
    simp only [weight]
    omega

theorem weight_foldlM_look_le {clauses : List Clause} {residue left : Residue}
    (looked : clauses.foldlM Residue.look residue = some left) :
    weight left.clauses ≤ weight clauses + weight residue.clauses := by
  induction clauses generalizing residue with
  | nil => cases looked; simp [weight]
  | cons clause rest ih =>
    rw [List.foldlM_cons] at looked
    obtain ⟨next, first, later⟩ := Option.bind_eq_some_iff.mp looked
    have head := weight_look_le first
    have tail := ih later
    simp only [weight] at head ⊢
    omega

theorem weight_sweep_le {residue left : Residue} (swept : residue.sweep = some left) :
    weight left.clauses ≤ weight residue.clauses := by
  simpa [weight] using weight_foldlM_look_le swept

theorem weight_propagate_le {residue left : Residue} (propagated : residue.propagate = some left) :
    weight left.clauses ≤ weight residue.clauses := by
  fun_induction Residue.propagate residue with
  | case1 => cases propagated
  | case2 _ _ swept _ ih => exact Nat.le_trans (ih propagated) (weight_sweep_le swept)
  | case3 _ _ swept => cases propagated; exact weight_sweep_le swept

theorem weight_assign_lt {residue : Residue} {var : Nat} (least : residue.least? = some var)
    (value : Bool) : weight (residue.assign var value).clauses < weight residue.clauses := by
  obtain ⟨literal, member, rfl⟩ := List.mem_map.mp (List.min?_mem least)
  exact weight_under?_lt member (by simp)

/-- How much a search has done so far. -/
structure Meter where
  decisions : Nat
  conflicts : Nat
deriving DecidableEq, Repr

/-- What a search comes to. -/
inductive Result where
  /-- All clauses hold under these values, whatever the other variables are. -/
  | model (values : Values)
  | refuted
  | stopped

/-- Searches for a model of the clauses, and stops before a decision if told to. -/
def search (stop : Meter → Bool) (preferred : Bool) (residue : Residue) (meter : Meter) :
    Result × Meter :=
  match _ : residue.propagate with
  | none => (.refuted, { meter with conflicts := meter.conflicts + 1 })
  | some left =>
    match _ : left.least? with
    | none => (.model left.values, meter)
    | some var =>
      if stop meter then (.stopped, meter)
      else
        let first := search stop preferred (left.assign var preferred)
          { meter with decisions := meter.decisions + 1 }
        match first.1 with
        | .refuted => search stop preferred (left.assign var !preferred) first.2
        | _ => first
termination_by weight residue.clauses
decreasing_by
  all_goals
    have lighter := weight_propagate_le (by assumption : residue.propagate = some left)
    exact Nat.lt_of_lt_of_le (weight_assign_lt (by assumption) _) lighter

/-- Searches from scratch. -/
def run (stop : Meter → Bool) (preferred : Bool) (clauses : List Clause) : Result × Meter :=
  search stop preferred ⟨∅, clauses⟩ ⟨0, 0⟩

end Search

end CircuitSat
