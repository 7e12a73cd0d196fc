import CircuitSat.Proofs.Numbering
import Mathlib.Data.List.Nodup

/-! # Signals and literals correspond

Circuit variables are handed out and literals asked for in any order. Whatever the order, the clause
variables are those from one up to their number, each stands for one circuit variable, literals
carry the signs of their signals, and a literal once given is never taken back.
-/

namespace CircuitSat

namespace Numbering

/-- What a numbering comes to while variables are handed out and literals are asked for. -/
inductive Leads (numbering : Numbering) : Numbering → Prop
  | refl : Leads numbering numbering
  | allocate {last next : Numbering} {signal : Signal} (before : Leads numbering last)
      (done : last.allocate = .ok (signal, next)) : Leads numbering next
  | literalOf {last next : Numbering} {signal : Signal} {literal : Literal}
      (before : Leads numbering last) (done : last.literalOf signal = .ok (literal, next)) :
      Leads numbering next

namespace Leads

variable {numbering later : Numbering}

theorem numCircuit_le (leads : Leads numbering later) :
    numbering.numCircuit ≤ later.numCircuit := by
  induction leads with
  | refl => exact Nat.le_refl _
  | allocate _ done ih =>
    obtain ⟨_, rfl⟩ := allocate_eq_ok done
    simp only [numCircuit, Array.size_push] at ih ⊢
    omega
  | literalOf _ done ih => exact Nat.le_trans ih (Nat.le_of_eq (literalOf_numCircuit done).symm)

/-- Images and origins stay inverse to each other, and no image is lost. -/
theorem keeps (leads : Leads numbering later) (valid : numbering.WellFormed)
    (small : later.numCircuit ≤ maxVar) : later.WellFormed ∧
      ∀ var image, numbering.image? var = some image → later.image? var = some image := by
  induction leads with
  | refl => exact ⟨valid, fun _ _ mapped => mapped⟩
  | @allocate last next _ before done ih =>
    have fewer := (allocate refl done).numCircuit_le
    obtain ⟨sound, kept⟩ := ih (Nat.le_trans fewer small)
    obtain ⟨_, rfl⟩ := allocate_eq_ok done
    exact ⟨sound.push, fun var image mapped => (image?_push _ _).trans (kept var image mapped)⟩
  | @literalOf last next signal literal before done ih =>
    have same := literalOf_numCircuit done
    obtain ⟨sound, kept⟩ := ih (same ▸ small)
    obtain ⟨_, _, again, after, extension, _⟩ :=
      literalOf_spec sound (same ▸ small) (contains_of_literalOf done)
    rw [done] at again
    cases again
    exact ⟨after, fun var image mapped => extension.image (kept var image mapped)⟩

end Leads

/-! ## What stands for what -/

/-- Clause variables and circuit variables stand for each other, and signs are carried over. -/
structure Corresponds (numbering : Numbering) : Prop where
  fewer : numbering.numCnf ≤ numbering.numCircuit
  /-- The clause variables in use are those from one up to their number. -/
  used (image : Nat) :
    (∃ signal literal, numbering.lookup signal = .ok (some literal) ∧ literal.var = image) ↔
      0 < image ∧ image ≤ numbering.numCnf
  listed : numbering.mapped.map Prod.fst = List.range' 1 numbering.numCnf
  positive (entry : Nat × Signal) (member : entry ∈ numbering.mapped) :
    entry.2.negated = false ∧ numbering.contains entry.2 = true
  distinct : (numbering.mapped.map (·.2.var)).Nodup
  /-- Each listed pair is what either direction gives for the other. -/
  inverse (entry : Nat × Signal) (member : entry ∈ numbering.mapped) :
    numbering.originOf entry.1 = .ok (some entry.2) ∧
      numbering.lookup entry.2 = .ok (some (.ofVar entry.1))
  answered {signal : Signal} (contained : numbering.contains signal = true) :
    ∃ found, numbering.lookup signal = .ok found
  /-- A literal is traced back to its signal, and the opposites have each other. -/
  signed {signal : Signal} {literal : Literal}
    (looked : numbering.lookup signal = .ok (some literal)) :
    (∃ origin, signal.abs = .ok origin ∧ numbering.originOf literal.var = .ok (some origin)) ∧
      literal.negative = signal.negated ∧
      ∃ negation opposite, signal.negate = .ok negation ∧ literal.negate = .ok opposite ∧
        numbering.lookup negation = .ok (some opposite)

/-- What asking for the literal of a signal gives and what it changes. -/
structure Assigns (numbering : Numbering) (signal : Signal) : Prop where
  again {literal : Literal} (looked : numbering.lookup signal = .ok (some literal)) :
    numbering.literalOf signal = .ok (literal, numbering)
  /-- The first request mints the next clause variable, for the variable of the signal only. -/
  first (unnamed : numbering.lookup signal = .ok none) :
    ∃ literal next, numbering.literalOf signal = .ok (literal, next) ∧
      next.lookup signal = .ok (some literal) ∧ literal.var = numbering.numCnf + 1 ∧
      literal.negative = signal.negated ∧
      next.numCnf = numbering.numCnf + 1 ∧ next.numCircuit = numbering.numCircuit ∧
      next.mapped = numbering.mapped ++ [(numbering.numCnf + 1, .ofVar signal.var)] ∧
      ∀ other : Signal, other.var ≠ signal.var → next.lookup other = numbering.lookup other

variable {numbering : Numbering}

/-- A clause variable without a sign denotes its origin without a sign. -/
theorem denotes_ofVar (valid : numbering.WellFormed) (small : numbering.numCircuit ≤ maxVar)
    {var image : Nat} (mapped : numbering.image? var = some image) :
    numbering.Denotes (.ofVar image) (.ofVar var) := by
  have here := bound_of_image? mapped
  have there := valid.image_bound mapped
  have fewer := valid.numCnf_le
  refine ⟨?_, ?_⟩
  · rw [Signal.var_ofVar (by omega), Literal.var_ofVar (by omega), mapped]
  · rw [Signal.negated_ofVar (by omega), Literal.negative_ofVar (by omega)]

/-- The opposite literal denotes the opposite signal. -/
theorem Denotes.opposite (valid : numbering.WellFormed) (small : numbering.numCircuit ≤ maxVar)
    {literal : Literal} {signal : Signal} (denotes : numbering.Denotes literal signal) :
    ∃ negation opposite, signal.negate = .ok negation ∧ literal.negate = .ok opposite ∧
      numbering.Denotes opposite negation := by
  have range := bound_of_image? denotes.1
  have proper := (denotes.proper valid small).1
  have fits : signal.var ≤ maxVar := by omega
  obtain ⟨negation, negated⟩ := Signal.exists_negate? fits
  obtain ⟨var, polarity⟩ := Signal.negate?_spec negated
  refine ⟨negation, literal.opposite, Signal.negate_eq_ok_iff.mpr negated, ?_, ?_, ?_⟩
  · rw [Literal.negate, Literal.negate?_of_proper proper]
    rfl
  · rw [var, Literal.var_opposite proper, denotes.1]
  · rw [Literal.negative_opposite proper, polarity (by omega), denotes.2]

theorem map_fst_mapped (numbering : Numbering) :
    numbering.mapped.map Prod.fst = List.range' 1 numbering.numCnf := by
  have positions : numbering.origins.toList.zipIdx.map Prod.snd =
      List.range' 0 numbering.origins.toList.length := List.zipIdx_map_snd 0 _
  rw [mapped, List.map_map]
  calc numbering.origins.toList.zipIdx.map (Prod.fst ∘ _)
      = (numbering.origins.toList.zipIdx.map Prod.snd).map (1 + ·) := by
        rw [List.map_map]
        exact List.map_congr_left fun entry _ => Nat.add_comm _ _
    _ = List.range' 1 numbering.numCnf := by
        rw [positions, List.map_add_range', Array.length_toList, numCnf]

/-- A listed circuit variable is listed once. -/
theorem nodup_mapped (valid : numbering.WellFormed) (small : numbering.numCircuit ≤ maxVar) :
    (numbering.mapped.map (·.2.var)).Nodup := by
  have once : numbering.mapped.Nodup := by
    apply List.Nodup.of_map Prod.fst
    rw [map_fst_mapped]
    exact List.nodup_range'
  refine once.map_on fun left member right among same => ?_
  obtain ⟨first, plain⟩ := (mem_mapped_iff valid small).mp member
  obtain ⟨second, bare⟩ := (mem_mapped_iff valid small).mp among
  rw [same, second] at first
  exact Prod.ext (Option.some.inj first).symm (Signal.ext_of_var same (plain.trans bare.symm))

namespace WellFormed

theorem corresponds (valid : numbering.WellFormed) (small : numbering.numCircuit ≤ maxVar) :
    numbering.Corresponds where
  fewer := valid.numCnf_le
  used image := by
    simp only [lookup_eq_some_iff valid small]
    constructor
    · rintro ⟨signal, literal, denotes, rfl⟩
      exact valid.image_bound denotes.1
    · rintro ⟨positive, bound⟩
      obtain ⟨var, mapped⟩ := valid.exists_origin positive bound
      have fewer := valid.numCnf_le
      exact ⟨_, _, denotes_ofVar valid small mapped, Literal.var_ofVar (by omega)⟩
  listed := numbering.map_fst_mapped
  positive entry member := by
    obtain ⟨mapped, positive⟩ := (mem_mapped_iff valid small).mp member
    exact ⟨positive, contains_iff.mpr (bound_of_image? mapped)⟩
  distinct := nodup_mapped valid small
  inverse entry member := by
    obtain ⟨mapped, positive⟩ := (mem_mapped_iff valid small).mp member
    have range := bound_of_image? mapped
    have itself : entry.2 = .ofVar entry.2.var :=
      Signal.ext_of_var (Signal.var_ofVar (by omega)).symm
        (positive.trans (Signal.negated_ofVar (by omega)).symm)
    have denotes := denotes_ofVar valid small mapped
    rw [← itself] at denotes
    refine ⟨?_, (lookup_eq_some_iff valid small).mpr denotes⟩
    have nonzero := (valid.image_bound mapped).1
    rw [originOf, if_neg (by omega), (originOf?_eq_some_iff valid).mpr ⟨_, mapped, itself⟩]
  answered {signal} _ := by
    obtain ⟨found, looked, _⟩ := lookup_spec valid small signal
    exact ⟨found, looked⟩
  signed {signal literal} looked := by
    have denotes := (lookup_eq_some_iff valid small).mp looked
    have range := bound_of_image? denotes.1
    have nonzero := (valid.image_bound denotes.1).1
    refine ⟨⟨_, Signal.abs_eq_ok (by omega), ?_⟩, denotes.2, ?_⟩
    · rw [originOf, if_neg (by omega), originOf?_of_denotes valid denotes]
    · obtain ⟨negation, opposite, turned, changed, opposed⟩ := denotes.opposite valid small
      exact ⟨negation, opposite, turned, changed, (lookup_eq_some_iff valid small).mpr opposed⟩

theorem assigns (valid : numbering.WellFormed) (small : numbering.numCircuit ≤ maxVar)
    {signal : Signal} (contained : numbering.contains signal = true) :
    numbering.Assigns signal where
  again looked := literalOf_of_denotes valid small ((lookup_eq_some_iff valid small).mp looked)
  first unnamed := by
    have unmapped := lookup_eq_none_iff.mp unnamed
    obtain ⟨literal, next, done, wellFormed, extension, denotes, _⟩ :=
      literalOf_spec valid small contained
    obtain rfl : next = numbering.minted signal.var := by
      simp only [literalOf, contained, if_true, mint, unmapped, bind_eq_ok_iff, pure_eq_ok_iff,
        Prod.mk.injEq] at done
      obtain ⟨_, _, _, rfl⟩ := done
      rfl
    have range := contains_iff.mp contained
    have image := denotes.1
    rw [image?_minted range.1 range.2, if_pos rfl, Option.some.injEq] at image
    refine ⟨literal, _, done, ?_, image.symm, denotes.2, Array.size_push .., extension.numCircuit,
      ?_, fun other apart => lookup_congr (literalOf_other done apart)⟩
    · exact (lookup_eq_some_iff wellFormed (extension.numCircuit ▸ small)).mpr denotes
    · rw [mapped, Numbering.minted, Array.toList_push, List.zipIdx_append, List.map_append,
        ← mapped]
      simp [numCnf]

end WellFormed

/-- As many variables can be handed out as the counter has room for, none of them with a literal. -/
theorem leads_replicate {count : Nat} (room : count ≤ maxCircuit) :
    Leads .empty ⟨Array.replicate count none, #[]⟩ := by
  induction count with
  | zero => exact .refl
  | succ count ih =>
    rw [Array.replicate_succ]
    refine (ih (Nat.le_of_succ_le room)).allocate (if_pos ?_)
    rw [numCircuit, Array.size_replicate]
    exact room

/-- However variables were handed out and literals asked for, clause variables and circuit variables
stand for each other, each request is answered from what was minted or mints the next variable, and
what was minted stays. -/
theorem correspondence_exact (leads : Leads .empty numbering)
    (small : numbering.numCircuit ≤ maxVar) :
    numbering.Corresponds ∧
      (∀ signal, numbering.contains signal = true → numbering.Assigns signal) ∧
      ∀ later signal literal, Leads numbering later → later.numCircuit ≤ maxVar →
        numbering.lookup signal = .ok (some literal) →
        later.lookup signal = .ok (some literal) := by
  obtain ⟨valid, _⟩ := leads.keeps wellFormed_empty small
  refine ⟨valid.corresponds small, fun signal contained => valid.assigns small contained,
    fun later signal literal further fits looked => ?_⟩
  obtain ⟨wellFormed, kept⟩ := further.keeps valid fits
  have denotes := (lookup_eq_some_iff valid small).mp looked
  exact (lookup_eq_some_iff wellFormed fits).mpr ⟨kept _ _ denotes.1, denotes.2⟩

/-- Of three variables the third is asked for first, under a negation, and then the first. -/
theorem correspondence_exact_of_negation :
    let numbering : Numbering := ⟨#[some 2, none, some 1], #[3, 1]⟩
    Leads .empty numbering ∧ numbering.numCircuit ≤ maxVar ∧
      numbering.mapped = [(1, ⟨3⟩), (2, ⟨1⟩)] ∧ numbering.lookup ⟨-3⟩ = .ok (some ⟨-1⟩) ∧
      numbering.lookup ⟨2⟩ = .ok none ∧ numbering.Corresponds ∧
      (∀ signal, numbering.contains signal = true → numbering.Assigns signal) ∧
      ∀ later signal literal, Leads numbering later → later.numCircuit ≤ maxVar →
        numbering.lookup signal = .ok (some literal) →
        later.lookup signal = .ok (some literal) := by
  intro numbering
  have three : Leads .empty ⟨Array.replicate 3 none, #[]⟩ := leads_replicate (by decide)
  have third : Numbering.literalOf ⟨Array.replicate 3 none, #[]⟩ ⟨-3⟩ =
      .ok (⟨-1⟩, ⟨#[none, none, some 1], #[3]⟩) := rfl
  have first : Numbering.literalOf ⟨#[none, none, some 1], #[3]⟩ ⟨1⟩ = .ok (⟨2⟩, numbering) := rfl
  have leads : Leads .empty numbering := (three.literalOf third).literalOf first
  have small : numbering.numCircuit ≤ maxVar := by decide
  exact ⟨leads, small, rfl, rfl, rfl, correspondence_exact leads small⟩

end Numbering

end CircuitSat
