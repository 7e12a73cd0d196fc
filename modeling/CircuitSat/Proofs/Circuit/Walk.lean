import CircuitSat.Proofs.Circuit.Consistency

/-! # The walk backward gives literals to whole cones

Wherever the walk is, a gate whose output has an image is in clauses or waits in the queue. So once
the queue is empty nothing below such a variable is left out, although the walk goes no further than
the first gate that is in clauses already.
-/

namespace CircuitSat

/-- The gates in clauses, each as its connective with its literals. -/
def Netlist.codes (netlist : Netlist) : List (Connective × Triple) :=
  netlist.gates.toList.filterMap fun gate => gate.literals.map (gate.connective, ·)

private theorem filterMap_set_perm {α β : Type} {items : List α} {view : α → Option β} {index : Nat}
    {old new : α} {value : β} (present : items[index]? = some old) (before : view old = none)
    (after : view new = some value) :
    ((items.set index new).filterMap view).Perm (value :: items.filterMap view) := by
  induction items generalizing index with
  | nil => simp at present
  | cons head rest ih =>
    cases index with
    | zero =>
      obtain rfl := Option.some.inj present
      simp only [List.set_cons_zero, List.filterMap_cons, before, after, List.Perm.refl]
    | succ index =>
      have tail := @ih index present
      simp only [List.set_cons_succ, List.filterMap_cons]
      split
      · exact tail
      · exact (tail.cons _).trans (.swap _ _ _)

/-- A gate over allocated variables gets all its literals; no other variable is concerned. -/
theorem Numbering.WellFormed.exists_carries {numbering : Numbering} (valid : numbering.WellFormed)
    (small : numbering.numCircuit ≤ maxVar) {gate : Gate}
    (containsLeft : numbering.contains gate.left = true)
    (containsRight : numbering.contains gate.right = true)
    (containsOutput : numbering.contains gate.output = true) :
    ∃ left first right second output last,
      numbering.literalOf gate.left = .ok (left, first) ∧
      first.literalOf gate.right = .ok (right, second) ∧
      second.literalOf gate.output = .ok (output, last) ∧ last.WellFormed ∧
      Extends numbering last ∧ last.Carries ⟨left, right, output⟩ gate ∧
      ∀ var, var ≠ gate.left.var → var ≠ gate.right.var → var ≠ gate.output.var →
        last.image? var = numbering.image? var := by
  obtain ⟨left, first, atLeft, validFirst, toFirst, denotesLeft, othersFirst⟩ :=
    literalOf_spec valid small containsLeft
  obtain ⟨right, second, atRight, validSecond, toSecond, denotesRight, othersSecond⟩ :=
    literalOf_spec validFirst (toFirst.numCircuit ▸ small) (toFirst.contains ▸ containsRight)
  have both := toFirst.trans toSecond
  obtain ⟨output, last, atOutput, validLast, toLast, denotesOutput, othersLast⟩ :=
    literalOf_spec validSecond (both.numCircuit ▸ small) (both.contains ▸ containsOutput)
  refine ⟨left, first, right, second, output, last, atLeft, atRight, atOutput, validLast,
    both.trans toLast,
    ⟨(toSecond.trans toLast).denotes denotesLeft, toLast.denotes denotesRight, denotesOutput⟩, ?_⟩
  intro var notLeft notRight notOutput
  rw [othersLast var notOutput, othersSecond var notRight, othersFirst var notLeft]

namespace Circuit

/-- The same circuit, of which no less is in clauses. -/
structure Encodes (old new : Circuit) : Prop where
  numbering : Numbering.Extends old.numbering new.numbering
  gates (index : Nat) : (new.netlist.gates[index]?).map (·.withLiterals none) =
    (old.netlist.gates[index]?).map (·.withLiterals none)
  kept {index : Nat} {gate : Gate} {literals : Triple}
    (present : old.netlist.gates[index]? = some gate) (encoded : gate.literals = some literals) :
    new.netlist.gates[index]? = some gate

theorem Closed.mono {circuit : Circuit} {pending more : List Nat} (closed : circuit.Closed pending)
    (within : ∀ var ∈ pending, var ∈ more) : circuit.Closed more := fun gate member image mapped =>
  (closed gate member image mapped).imp (within _) id

namespace Encodes

variable {old middle new : Circuit}

theorem refl (circuit : Circuit) : Encodes circuit circuit :=
  ⟨.refl _, fun _ => rfl, fun present _ => present⟩

theorem trans (left : Encodes old middle) (right : Encodes middle new) : Encodes old new :=
  ⟨left.numbering.trans right.numbering, fun index => (right.gates index).trans (left.gates index),
    fun present encoded => right.kept (left.kept present encoded) encoded⟩

/-- Every gate is one of the earlier circuit, up to its literals. -/
theorem exists_old (encodes : Encodes old new) {gate : Gate} (member : gate ∈ new.netlist.gates) :
    ∃ before ∈ old.netlist.gates, before.Alike gate := by
  obtain ⟨index, present⟩ := Array.mem_iff_getElem?.mp member
  have view := encodes.gates index
  rw [present, Option.map_some, eq_comm, Option.map_eq_some_iff] at view
  obtain ⟨before, found, same⟩ := view
  injection same with signature output
  exact ⟨before, Array.mem_of_getElem? found, signature, output⟩

/-- Every gate of the earlier circuit is still there, up to its literals. -/
theorem exists_new (encodes : Encodes old new) {gate : Gate} (member : gate ∈ old.netlist.gates) :
    ∃ after ∈ new.netlist.gates, after.Alike gate := by
  obtain ⟨index, present⟩ := Array.mem_iff_getElem?.mp member
  have view := encodes.gates index
  rw [present, Option.map_some, Option.map_eq_some_iff] at view
  obtain ⟨after, found, same⟩ := view
  injection same with signature output
  exact ⟨after, Array.mem_of_getElem? found, signature, output⟩

end Encodes

/-! ## No variable is handed out -/

/-- The gates have no part in it. -/
theorem literalOf_eq_ok {circuit next : Circuit} {signal : Signal} {literal : Literal}
    (done : circuit.literalOf signal = .ok (literal, next)) :
    circuit.numbering.literalOf signal = .ok (literal, next.numbering) ∧
      next.netlist = circuit.netlist := by
  simp only [literalOf, bind_eq_ok_iff, pure_eq_ok_iff, Prod.mk.injEq] at done
  obtain ⟨⟨_, numbering⟩, found, rfl, rfl⟩ := done
  exact ⟨found, rfl⟩

theorem literalOf_numCircuit {circuit next : Circuit} {signal : Signal} {literal : Literal}
    (done : circuit.literalOf signal = .ok (literal, next)) :
    next.numbering.numCircuit = circuit.numbering.numCircuit :=
  Numbering.literalOf_numCircuit (literalOf_eq_ok done).1

theorem literalOf_other {circuit next : Circuit} {signal : Signal} {literal : Literal}
    (done : circuit.literalOf signal = .ok (literal, next)) {var : Nat}
    (other : var ≠ signal.var) : next.numbering.image? var = circuit.numbering.image? var :=
  Numbering.literalOf_other (literalOf_eq_ok done).1 other

theorem encode_numCircuit {circuit next : Circuit} {index : Nat} {gate : Gate} {literals : Triple}
    (done : circuit.encode index gate = .ok (literals, next)) :
    next.numbering.numCircuit = circuit.numbering.numCircuit := by
  simp only [encode, bind_eq_ok_iff, pure_eq_ok_iff, Prod.mk.injEq] at done
  obtain ⟨⟨_, first⟩, left, ⟨_, second⟩, right, ⟨_, third⟩, output, _, _, rfl, rfl⟩ := done
  rw [Numbering.literalOf_numCircuit output, Numbering.literalOf_numCircuit right,
    Numbering.literalOf_numCircuit left]

/-- Putting a gate into clauses concerns no variable but its three. -/
theorem encode_other {circuit next : Circuit} {index : Nat} {gate : Gate} {literals : Triple}
    (done : circuit.encode index gate = .ok (literals, next)) {var : Nat}
    (left : var ≠ gate.left.var) (right : var ≠ gate.right.var) (output : var ≠ gate.output.var) :
    next.numbering.image? var = circuit.numbering.image? var := by
  simp only [encode, bind_eq_ok_iff, pure_eq_ok_iff, Prod.mk.injEq] at done
  obtain ⟨⟨_, first⟩, atLeft, ⟨_, second⟩, atRight, ⟨_, third⟩, atOutput, _, _, rfl, rfl⟩ := done
  rw [Numbering.literalOf_other atOutput output, Numbering.literalOf_other atRight right,
    Numbering.literalOf_other atLeft left]

/-- A gate without literals over allocated variables is given literals, whatever the other gates. -/
theorem exists_encode {circuit : Circuit} (valid : circuit.numbering.WellFormed)
    (small : circuit.numbering.numCircuit ≤ maxVar) {index : Nat} {gate : Gate}
    (present : circuit.netlist.gates[index]? = some gate) (plain : gate.literals = none)
    (left : circuit.numbering.contains gate.left = true)
    (right : circuit.numbering.contains gate.right = true)
    (output : circuit.numbering.contains gate.output = true) :
    ∃ literals numbering, circuit.encode index gate =
        .ok (literals, ⟨numbering, circuit.netlist.store index gate (some literals)⟩) ∧
      numbering.WellFormed ∧ Numbering.Extends circuit.numbering numbering ∧
      numbering.Carries literals gate ∧
      ∀ var, var ≠ gate.left.var → var ≠ gate.right.var → var ≠ gate.output.var →
        numbering.image? var = circuit.numbering.image? var := by
  obtain ⟨leftLiteral, first, rightLiteral, second, outputLiteral, last, atLeft, atRight, atOutput,
    wellFormed, extension, carries, others⟩ := valid.exists_carries small left right output
  refine ⟨⟨leftLiteral, rightLiteral, outputLiteral⟩, last, ?_, wellFormed, extension, carries,
    others⟩
  have stored := Netlist.setLiterals_eq_ok present plain ⟨leftLiteral, rightLiteral, outputLiteral⟩
  simp only [encode, atLeft, atRight, atOutput, stored, bind, Except.bind]
  rfl

theorem reach_numCircuit {circuit last : Circuit} {queue : List Nat} {trace : List Event}
    {fresh : List (Connective × Triple)}
    (returned : (circuit.reach queue).Returns trace (fresh, last)) :
    last.numbering.numCircuit = circuit.numbering.numCircuit := by
  fun_induction Circuit.reach circuit queue generalizing trace fresh with
  | case1 =>
    obtain ⟨_, same⟩ := Outcome.returns_pure.mp returned
    cases same
    rfl
  | case2 _ _ _ _ ih | case3 _ _ _ _ _ _ ih | case4 _ _ _ _ _ _ _ _ ih => exact ih returned
  | case5 => simp at returned
  | case6 circuit var rest index defined gate present plain literals next done ih =>
    simp only [Outcome.returns_bind, Outcome.returns_pure, Prod.mk.injEq] at returned
    obtain ⟨_, _, _, _, ⟨_, ⟨later, ending⟩, _, walked, ⟨_, rfl, rfl⟩, _⟩, _⟩ := returned
    exact (ih walked).trans (encode_numCircuit done)

namespace WellFormed

variable {circuit : Circuit}

/-- A larger numbering for the same gates. -/
theorem withNumbering (valid : circuit.WellFormed) {numbering : Numbering}
    (wellFormed : numbering.WellFormed)
    (extension : Numbering.Extends circuit.numbering numbering) :
    ({ circuit with numbering } : Circuit).WellFormed where
  numbering := wellFormed
  small := by rw [extension.numCircuit]; exact valid.small
  indexed := valid.indexed
  wired member := by rw [extension.numCircuit]; exact valid.wired member
  carried member encoded := extension.carries (valid.carried member encoded)

/-- The literal of an allocated signal, which may have to be minted. -/
theorem literalOf_spec (valid : circuit.WellFormed) {signal : Signal}
    (contained : circuit.numbering.contains signal = true) :
    ∃ literal next, circuit.literalOf signal = .ok (literal, next) ∧ next.WellFormed ∧
      circuit.Encodes next ∧ next.netlist = circuit.netlist ∧
      next.numbering.Denotes literal signal ∧
      ∀ pending, circuit.Closed pending → next.Closed (signal.var :: pending) := by
  obtain ⟨literal, numbering, done, wellFormed, extension, denotes, others⟩ :=
    Numbering.literalOf_spec valid.numbering valid.small contained
  refine ⟨literal, { circuit with numbering }, ?_, valid.withNumbering wellFormed extension,
    ⟨extension, fun _ => rfl, fun present _ => present⟩, rfl, denotes, ?_⟩
  · simp only [literalOf, done]
    rfl
  · intro pending closed gate member image mapped
    by_cases same : gate.output.var = signal.var
    · exact .inl (same ▸ List.mem_cons_self)
    · dsimp only at mapped
      rw [others _ same] at mapped
      exact (closed gate member image mapped).imp (List.mem_cons_of_mem _) id

/-- Nothing is minted for a signal that has a literal. -/
theorem literalOf_of_denotes (valid : circuit.WellFormed) {literal : Literal} {signal : Signal}
    (denotes : circuit.numbering.Denotes literal signal) :
    circuit.literalOf signal = .ok (literal, circuit) := by
  simp only [literalOf, Numbering.literalOf_of_denotes valid.numbering valid.small denotes]
  rfl

/-- The circuit once a gate has literals that its numbering carries. -/
theorem stored (valid : circuit.WellFormed) {index : Nat} {gate : Gate}
    (present : circuit.netlist.gates[index]? = some gate) {numbering : Numbering}
    (wellFormed : numbering.WellFormed) (extension : Numbering.Extends circuit.numbering numbering)
    {literals : Triple} (carries : numbering.Carries literals gate) :
    (⟨numbering, circuit.netlist.store index gate (some literals)⟩ : Circuit).WellFormed where
  numbering := wellFormed
  small := by rw [extension.numCircuit]; exact valid.small
  indexed := valid.indexed.store present _
  wired member := by
    rw [extension.numCircuit]
    rcases Netlist.mem_store present member with rfl | before
    · obtain ⟨left, right, output, positive⟩ := valid.wired (Netlist.mem_of_getElem? present)
      exact ⟨left, right, output, positive⟩
    · exact valid.wired before
  carried member encoded := by
    rcases Netlist.mem_store present member with rfl | before
    · obtain rfl := Option.some.inj encoded
      exact ⟨carries.left, carries.right, carries.output⟩
    · exact extension.carries (valid.carried before encoded)

theorem encodes_stored (_ : circuit.WellFormed) {index : Nat} {gate : Gate}
    (present : circuit.netlist.gates[index]? = some gate) (plain : gate.literals = none)
    {numbering : Numbering} (extension : Numbering.Extends circuit.numbering numbering)
    (literals : Triple) :
    circuit.Encodes ⟨numbering, circuit.netlist.store index gate (some literals)⟩ where
  numbering := extension
  gates position := by
    rw [Netlist.getElem?_store present]
    split
    · next here => rw [← here, present]; rfl
    · rfl
  kept {position other _} found encoded := by
    refine Netlist.getElem?_store_of_ne present _ found ?_
    rintro rfl
    rw [encoded] at plain
    contradiction

/-- Of the gates whose outputs come to have images, this one is in clauses, and those that define an
operand join the queue. -/
theorem closed_stored (valid : circuit.WellFormed) {index : Nat} {gate : Gate}
    (present : circuit.netlist.gates[index]? = some gate) {numbering : Numbering}
    (others : ∀ var, var ≠ gate.left.var → var ≠ gate.right.var → var ≠ gate.output.var →
      numbering.image? var = circuit.numbering.image? var)
    (literals : Triple) {pending : List Nat}
    (closed : circuit.Closed (gate.output.var :: pending)) :
    (⟨numbering, circuit.netlist.store index gate (some literals)⟩ : Circuit).Closed
      (pending ++ gate.inputs.map Signal.var) := by
  intro other member image mapped
  have indexed := valid.indexed.store present (some literals)
  have itself := Netlist.mem_of_getElem?
    ((Netlist.getElem?_store present (some literals) index).trans (if_pos rfl))
  by_cases isOutput : other.output.var = gate.output.var
  · exact .inr ⟨literals, congrArg Gate.literals (indexed.eq_of_output member itself isOutput)⟩
  by_cases isLeft : other.output.var = gate.left.var
  · exact .inl (List.mem_append_right _ (by simp [Gate.inputs, isLeft]))
  by_cases isRight : other.output.var = gate.right.var
  · exact .inl (List.mem_append_right _ (by simp [Gate.inputs, isRight]))
  rcases Netlist.mem_store present member with rfl | before
  · exact absurd rfl isOutput
  dsimp only at mapped
  rw [others _ isLeft isRight isOutput] at mapped
  rcases closed other before image mapped with waiting | encoded
  · exact .inl (List.mem_append_left _ ((List.mem_cons.mp waiting).resolve_left isOutput))
  · exact .inr encoded

/-- A gate without literals is given those of its operands and of its output. -/
theorem encode_spec (valid : circuit.WellFormed) {index : Nat} {gate : Gate}
    (present : circuit.netlist.gates[index]? = some gate) (plain : gate.literals = none) :
    ∃ literals next, circuit.encode index gate = .ok (literals, next) ∧ next.WellFormed ∧
      circuit.Encodes next ∧
      next.netlist.codes.Perm ((gate.connective, literals) :: circuit.netlist.codes) ∧
      ∀ pending, circuit.Closed (gate.output.var :: pending) →
        next.Closed (pending ++ gate.inputs.map Signal.var) := by
  have wired := valid.wired (Netlist.mem_of_getElem? present)
  obtain ⟨literals, numbering, done, wellFormed, extension, carries, others⟩ :=
    exists_encode valid.numbering valid.small present plain wired.contains_left
      wired.contains_right wired.contains_output
  refine ⟨literals, _, done, valid.stored present wellFormed extension carries,
    valid.encodes_stored present plain extension _, ?_,
    fun pending closed => valid.closed_stored present others _ closed⟩
  simp only [Netlist.codes, Netlist.store, Array.toList_setIfInBounds]
  have among : circuit.netlist.gates.toList[index]? = some gate := by
    rwa [Array.getElem?_toList]
  exact filterMap_set_perm among (by rw [plain]; rfl) rfl

theorem closed_of_cons {var : Nat} {pending : List Nat} (closed : circuit.Closed (var :: pending))
    (done : ∀ gate ∈ circuit.netlist.gates, gate.output.var = var → gate.literals ≠ none) :
    circuit.Closed pending := by
  intro gate member image mapped
  rcases closed gate member image mapped with waiting | encoded
  · rcases List.mem_cons.mp waiting with here | later
    · exact .inr (Option.ne_none_iff_exists'.mp (done gate member here))
    · exact .inl later
  · exact .inr encoded

/-- The walk ends with nothing left to do, and it reports exactly the gates that it encoded. -/
theorem reach_spec (valid : circuit.WellFormed) {queue : List Nat} (closed : circuit.Closed queue) :
    ∃ trace fresh last, (circuit.reach queue).Returns trace (fresh, last) ∧ callsOf trace = [] ∧
      last.WellFormed ∧ last.Closed [] ∧ circuit.Encodes last ∧
      last.netlist.codes.Perm (fresh ++ circuit.netlist.codes) := by
  fun_induction Circuit.reach circuit queue with
  | case1 circuit => exact ⟨[], [], circuit, by simp, rfl, valid, closed, .refl _, .refl _⟩
  | case2 circuit var rest undefined ih =>
    exact ih valid (closed_of_cons closed fun gate member output =>
      valid.indexed.literals_of_undefined undefined member output)
  | case3 circuit var rest index defined absent ih =>
    obtain ⟨gate, present, _⟩ := (valid.indexed.definer var index).mp defined
    simp [present] at absent
  | case4 circuit var rest index defined gate present encoded ih =>
    exact ih valid (closed_of_cons closed fun other member output =>
      valid.indexed.literals_of_encoded defined present encoded member output)
  | case5 circuit var rest index defined gate present plain fault failed =>
    have bare : gate.literals = none := by simpa [Gate.isEncoded] using plain
    obtain ⟨literals, next, done, _⟩ := valid.encode_spec present bare
    simp [done] at failed
  | case6 circuit var rest index defined gate present plain literals next done ih =>
    have bare : gate.literals = none := by simpa [Gate.isEncoded] using plain
    obtain ⟨stored, after, same, wellFormed, encodes, codes, closes⟩ :=
      valid.encode_spec present bare
    simp only [done, Except.ok.injEq, Prod.mk.injEq] at same
    obtain ⟨rfl, rfl⟩ := same
    obtain rfl := valid.indexed.output_of_definer defined present
    obtain ⟨trace, fresh, last, returned, calls, final, empty, more, rest⟩ :=
      ih wellFormed (closes rest closed)
    refine ⟨_, (gate.connective, literals) :: fresh, last,
      (Outcome.returns_emit_self _).bind (returned.bind (Outcome.returns_pure.mpr ⟨rfl, rfl⟩)),
      ?_, final, empty, encodes.trans more, ?_⟩
    · simpa using calls
    · exact rest.trans ((codes.append_left fresh).trans List.perm_middle)

/-- Nothing is to be done below a variable that has an image already. -/
theorem reach_of_mapped (valid : circuit.WellFormed) (closed : circuit.Closed []) {var image : Nat}
    (mapped : circuit.numbering.image? var = some image) :
    circuit.reach [var] = pure ([], circuit) := by
  have nothing : circuit.reach [] = pure ([], circuit) := by rw [reach]
  rw [reach]
  split
  · exact nothing
  · next index defined =>
    obtain ⟨gate, present, output⟩ := (valid.indexed.definer var index).mp defined
    obtain waiting | ⟨literals, encoded⟩ :=
      closed gate (Netlist.mem_of_getElem? present) image (output ▸ mapped)
    · contradiction
    · split
      · exact nothing
      · next other found =>
        obtain rfl := Option.some.inj (present.symm.trans found)
        rw [if_pos (by rw [Gate.isEncoded, encoded]; rfl)]
        exact nothing

end WellFormed

end Circuit

end CircuitSat
