import CircuitSat.Proofs.Correspondence
import CircuitSat.Proofs.Entailment
import CircuitSat.Proofs.Lookup

/-! # The order of spreading is immaterial

On any netlist, with gates in circles and whatever the frontier repeats or has too much, spreading
ends with one least fixed point. It depends on the set of the variables on the frontier only, and
nothing is left open if the frontier has all variables that some gate could use.
-/

namespace CircuitSat

namespace Valuation

variable {netlist : Netlist} {base : Valuation} {frontier : Nat → Prop}

/-- A valuation is given by the values that it has. -/
theorem toList_congr {left right : Valuation} (same : ∀ var, left.get? var = right.get? var) :
    left.toList = right.toList := by
  have distinct (valuation : Valuation) : valuation.toList.Nodup :=
    valuation.values.distinct_keys_toList.imp fun apart equal =>
      apart (Std.LawfulEqCmp.compare_eq_iff_eq.mpr (congrArg Prod.fst equal))
  have members (entry : Nat × Bool) : entry ∈ left.toList ↔ entry ∈ right.toList := by
    obtain ⟨var, value⟩ := entry
    rw [toList, toList, Std.TreeMap.mem_toList_iff_getElem?_eq_some,
      Std.TreeMap.mem_toList_iff_getElem?_eq_some]
    exact iff_of_eq (congrArg (· = some value) (same var))
  refine List.Perm.eq_of_pairwise (fun first second _ _ before after => ?_)
    left.values.ordered_keys_toList right.values.ordered_keys_toList
    ((List.perm_ext_iff_of_nodup (distinct left) (distinct right)).mpr members)
  rw [Nat.compare_eq_lt] at before after
  omega

/-- What is spread from one frontier is one valuation, in whatever order gates were visited. -/
theorem Spreading.unique {left right : Valuation}
    (first : Spreading netlist base frontier left [])
    (second : Spreading netlist base frontier right []) (var : Nat) :
    left.get? var = right.get? var := by
  by_cases reached : ∃ derived, Valued netlist base frontier derived var
  · obtain ⟨derived, chain⟩ := reached
    induction chain with
    | base valued =>
      obtain ⟨value, known⟩ := Option.isSome_iff_exists.mp valued
      rw [first.kept known, second.kept known]
    | output member unvalued atLeft atRight new leftSame rightSame =>
      have chain := Valued.output member unvalued atLeft atRight new
      rw [first.inferred member unvalued (first.isSome_iff.mpr ⟨_, chain⟩),
        second.inferred member unvalued (second.isSome_iff.mpr ⟨_, chain⟩)]
      exact infer?_congr leftSame rightSame
  · have missing {last : Valuation} (done : Spreading netlist base frontier last []) :
        last.get? var = none := by
      rw [← Option.not_isSome_iff_eq_none, done.isSome_iff]
      exact reached
    rw [missing first, missing second]

/-- The least valuation that keeps the values from before and passes on whatever is new. -/
structure Closure (netlist : Netlist) (base : Valuation) (frontier : Nat → Prop)
    (last : Valuation) : Prop where
  kept {var : Nat} {value : Bool} (before : base.get? var = some value) :
    last.get? var = some value
  added {var : Nat} (before : base.get? var = none) :
    (last.get? var).isSome ↔ Valued netlist base frontier true var
  /-- Each added value is that of the gate on the values of its two operands. -/
  called {gate : Gate} (member : gate ∈ netlist.gates)
    (before : base.get? gate.output.var = none) (after : (last.get? gate.output.var).isSome) :
    ∃ left right, last.value? gate.left = some left ∧ last.value? gate.right = some right ∧
      last.value? gate.output = some (gate.connective.eval left right)
  complete (all : ∀ var, (base.get? var).isSome → netlist.dependents var ≠ [] → frontier var)
    {gate : Gate} (member : gate ∈ netlist.gates) (left : (last.value? gate.left).isSome)
    (right : (last.value? gate.right).isSome) : (last.value? gate.output).isSome

theorem value?_isSome {valuation : Valuation} {signal : Signal} :
    (valuation.value? signal).isSome = (valuation.get? signal.var).isSome :=
  Option.isSome_map

theorem Spreading.closure {last : Valuation} (built : netlist.Built)
    (done : Spreading netlist base frontier last []) : Closure netlist base frontier last where
  kept := done.kept
  added before := by
    rw [done.isSome_iff]
    constructor
    · rintro ⟨derived, chain⟩
      cases chain with
      | base valued =>
        rw [before] at valued
        contradiction
      | output member unvalued atLeft atRight new =>
        exact .output member unvalued atLeft atRight new
    · exact fun chain => ⟨true, chain⟩
  called {gate} member before after := by
    have inferred := done.inferred member before after
    obtain ⟨value, found⟩ := Option.isSome_iff_exists.mp after
    rw [found] at inferred
    obtain ⟨left, right, atLeft, atRight, rfl⟩ := infer?_eq_some_iff.mp inferred.symm
    refine ⟨_, _, congrArg (Option.map _) atLeft, congrArg (Option.map _) atRight, ?_⟩
    rw [value?, found, built.positive member, Option.map_some, Bool.bne_false]
  complete all {gate} member left right := by
    rw [value?_isSome] at left right ⊢
    refine done.output_isSome member (fun valued => all _ valued fun nobody => ?_) left right
    obtain ⟨index, present⟩ := Array.mem_iff_getElem?.mp member
    have user := (built.indexed.mem_dependents_of_signature present).1
    rw [nobody] at user
    exact List.not_mem_nil user

/-- Spreading ends in the one least fixed point of what is on the frontier. A model that is long
enough is spread from a frontier that leaves nothing open. -/
theorem propagate_exact (built : netlist.Built) (base : Valuation) (frontier : List Nat) :
    (∃ last, base.propagate netlist frontier = .ok last ∧
      Closure netlist base (· ∈ frontier) last ∧
      ∀ other : List Nat, (∀ var, var ∈ other ↔ var ∈ frontier) →
        ∃ same, base.propagate netlist other = .ok same ∧ same.toList = last.toList) ∧
    ∀ numbering model, Numbering.Leads .empty numbering → numbering.numCircuit ≤ maxVar →
      numbering.numCnf < model.size →
      ∃ log valuation, (ofModel ⟨numbering, netlist⟩ model).Returns log valuation ∧
        ∀ gate ∈ netlist.gates, (valuation.value? gate.left).isSome →
          (valuation.value? gate.right).isSome → (valuation.value? gate.output).isSome := by
  constructor
  · obtain ⟨last, done, spreading⟩ := propagate_spec built.indexed base frontier
    refine ⟨last, done, spreading.closure built, fun other members => ?_⟩
    obtain ⟨same, again, spread⟩ := propagate_spec built.indexed base other
    have equal : (· ∈ other) = (· ∈ frontier) := funext fun var => propext (members var)
    rw [equal] at spread
    exact ⟨same, again, toList_congr (spread.unique spreading)⟩
  · intro numbering model leads small long
    obtain ⟨valid, _⟩ := leads.keeps Numbering.wellFormed_empty small
    obtain ⟨log, valuation, returned, completes⟩ := ofModel_spec valid small built.indexed long
    refine ⟨log, valuation, returned, fun gate member left right => ?_⟩
    rw [value?_isSome, completes.isSome_iff] at left right ⊢
    exact .output member left right

/-- Of two gates one uses itself and stays open. The frontier repeats a variable and has others that
have no value or that no gate uses. The model has the same two inputs. -/
theorem propagate_exact_of_loop :
    let base := ofList [(1, true), (9, false)]
    let numbering : Numbering :=
      ⟨#[some 1, none, none, none, none, none, none, none, some 2], #[1, 9]⟩
    ∃ netlist last, netlist.Built ∧ netlist.gates =
      #[⟨⟨⟨-9⟩, .and, ⟨1⟩⟩, ⟨2⟩, none⟩, ⟨⟨⟨-2⟩, .or, ⟨3⟩⟩, ⟨3⟩, none⟩] ∧
    base.propagate netlist [7, 1, 3, 1] = .ok last ∧ last.value? ⟨-2⟩ = some false ∧
    last.value? ⟨3⟩ = none ∧ Closure netlist base (· ∈ [7, 1, 3, 1]) last ∧
    (∃ same, base.propagate netlist [3, 7, 1] = .ok same ∧ same.toList = last.toList) ∧
    Numbering.Leads .empty numbering ∧
    ∃ log valuation,
      (ofModel ⟨numbering, netlist⟩ #[false, true, false]).Returns log valuation ∧
      valuation.toList = [(1, true), (2, true), (9, false)] ∧
      ∀ gate ∈ netlist.gates, (valuation.value? gate.left).isSome →
        (valuation.value? gate.right).isSome → (valuation.value? gate.output).isSome := by
  intro base numbering
  have executed : ∃ netlist,
      Netlist.ofEdits [.insert ⟨⟨-9⟩, .and, ⟨1⟩⟩ ⟨2⟩, .insert ⟨⟨-2⟩, .or, ⟨3⟩⟩ ⟨3⟩] = .ok netlist ∧
      netlist.gates =
        #[⟨⟨⟨-9⟩, .and, ⟨1⟩⟩, ⟨2⟩, none⟩, ⟨⟨⟨-2⟩, .or, ⟨3⟩⟩, ⟨3⟩, none⟩] ∧
      ((base.propagate netlist [7, 1, 3, 1]).toOption.any fun last =>
        last.value? ⟨-2⟩ = some false ∧ last.value? ⟨3⟩ = none) = true ∧
      ((ofModel ⟨numbering, netlist⟩ #[false, true, false]).result.toOption.any fun valuation =>
        valuation.toList = [(1, true), (2, true), (9, false)]) = true :=
    exists_ok_of_any (by decide +kernel)
  obtain ⟨netlist, inserted, gates, spread, entailed⟩ := executed
  have built : netlist.Built := (Netlist.Built.empty.edits inserted).1
  obtain ⟨last, done, output, loop⟩ := exists_ok_of_any spread
  obtain ⟨valuation, returned, values⟩ := Outcome.exists_returns entailed
  obtain ⟨spreading, extending⟩ := propagate_exact built base [7, 1, 3, 1]
  obtain ⟨_, again, closure, immaterial⟩ := spreading
  obtain rfl := Except.ok.inj (again.symm.trans done)
  have nine : Numbering.Leads .empty ⟨Array.replicate 9 none, #[]⟩ :=
    Numbering.leads_replicate (by decide)
  have first : Numbering.literalOf ⟨Array.replicate 9 none, #[]⟩ ⟨1⟩ =
      .ok (⟨1⟩, ⟨#[some 1, none, none, none, none, none, none, none, none], #[1]⟩) := rfl
  have ninth : Numbering.literalOf
      ⟨#[some 1, none, none, none, none, none, none, none, none], #[1]⟩ ⟨9⟩ =
      .ok (⟨2⟩, numbering) := rfl
  have leads : Numbering.Leads .empty numbering := (nine.literalOf first).literalOf ninth
  obtain ⟨_, _, extended, completes⟩ :=
    extending numbering #[false, true, false] leads (by decide) (by decide)
  obtain ⟨rfl, rfl⟩ := extended.unique returned
  exact ⟨netlist, _, built, gates, done, output, loop, closure,
    immaterial [3, 7, 1] (by simp; omega), leads, _, _, returned, values, completes⟩

end Valuation

end CircuitSat
