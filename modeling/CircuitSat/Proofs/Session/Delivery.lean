import CircuitSat.Engine.Scripted
import CircuitSat.Proofs.Session.Solving
import Mathlib.Data.List.DropRight

/-! # Every clause is handed over once

The clauses of a gate go out when the gate is put into clauses, and the unit clause of an assertion
with the next solve. Whatever is asserted, assumed or solved again sends none of them again.
-/

namespace CircuitSat

open List (Forall₂)

/-- Exclusive disjunctions take four clauses, all others three. -/
theorem Netlist.length_clauses (netlist : Netlist) : netlist.clauses.length =
    (3 * netlist.gates.countP fun gate => gate.isEncoded && gate.connective != .xor) +
      4 * netlist.gates.countP fun gate => gate.isEncoded && gate.connective == .xor := by
  obtain ⟨⟨gates⟩, _, _⟩ := netlist
  simp only [clauses, codes, clausesOfCodes, List.countP_toArray]
  induction gates with
  | nil => rfl
  | cons gate rest ih =>
    rw [List.countP_cons, List.countP_cons]
    cases encoded : gate.literals with
    | none => simpa [encoded, Gate.isEncoded] using ih
    | some literals =>
      simp only [List.filterMap_cons, encoded, Option.map_some, List.flatMap_cons,
        List.length_append, ih, Tseitin.length_clausesFor, Gate.isEncoded, Option.isSome_some,
        Bool.true_and]
      by_cases exclusive : gate.connective = .xor
      · simp only [exclusive, if_true, bne_self_eq_false, BEq.rfl, if_false, Bool.false_eq_true]
        omega
      · simp only [exclusive, if_false, bne_iff_ne, beq_iff_eq, ne_eq, not_false_eq_true, if_true]
        omega

/-- The requests up to the last solve. -/
def upToSolve (entries : List Entry) : List Entry := entries.rdropWhile (·.operation ≠ .solve)

/-- The requests after the last solve. -/
def sinceSolve (entries : List Entry) : List Entry := entries.rtakeWhile (·.operation ≠ .solve)

theorem upToSolve_append_sinceSolve (entries : List Entry) :
    upToSolve entries ++ sinceSolve entries = entries := List.rdropWhile_append_rtakeWhile

theorem not_solve_of_mem_sinceSolve {entries : List Entry} {entry : Entry}
    (member : entry ∈ sinceSolve entries) : entry.operation ≠ .solve := by
  simpa using List.mem_rtakeWhile_imp member

theorem upToSolve_append_solve (entries : List Entry) {entry : Entry}
    (solves : entry.operation = .solve) : upToSolve (entries ++ [entry]) = entries ++ [entry] :=
  List.rdropWhile_concat_neg _ _ _ (by simpa using solves)

/-- The last of these requests is a solve. -/
theorem upToSolve_cases (entries : List Entry) : upToSolve entries = [] ∨
    ∃ front entry, upToSolve entries = front ++ [entry] ∧ entry.operation = .solve := by
  induction entries using List.reverseRecOn with
  | nil => exact .inl rfl
  | append_singleton front entry ih =>
    by_cases solves : entry.operation = .solve
    · exact .inr ⟨front, entry, upToSolve_append_solve front solves, solves⟩
    · have dropped : upToSolve (front ++ [entry]) = upToSolve front :=
        List.rdropWhile_concat_pos _ _ _ (by simpa using solves)
      rwa [dropped]

namespace Session

variable {ε : Type} [Engine ε] {start : ε} {calls : List Call} {facts : Facts}
  {session next first last : Session ε} {entries : List Entry}

/-- Unit clauses are handed over by solves alone. -/
theorem Sound.submitted_step (sound : session.Sound start calls facts) {entry : Entry}
    (plain : entry.operation.isPlain = true)
    (small : next.circuit.numbering.numCircuit ≤ maxVar) (step : Step session entry next)
    (other : entry.operation ≠ .solve) : next.submitted = session.submitted := by
  cases step.effect sound.circuit plain small with
  | solved => contradiction
  | _ => rfl

/-- After a solve nothing waits. -/
theorem Sound.pending_solve (sound : session.Sound start calls facts) {verdict : Verdict}
    {trace : List Event} (returned : session.solve.Returns trace (verdict, next)) :
    next.pending = [] := by
  obtain ⟨_, covered, _, _, _, _, _, _, same, _, concluded, _⟩ := sound.solve_asks returned
  have idle : covered.pending = [] := by rw [same]
  rcases conclude_returns concluded with ⟨_, _, _, _, _, _, _, _, rfl⟩ | ⟨_, _, rfl⟩ |
    ⟨_, _, _, rfl⟩ <;> exact idle

/-- Without a solve no unit clause is handed over. -/
theorem Path.submitted_of_quiet (path : Path first entries last)
    (small : last.circuit.numbering.numCircuit ≤ maxVar) (sound : first.Sound start calls facts)
    (quiet : ∀ entry ∈ entries, entry.operation ≠ .solve) : last.submitted = first.submitted := by
  obtain ⟨_, _, kept⟩ := path.quiet_induction small sound quiet
    (motive := fun _ session => session.submitted = first.submitted) rfl
    fun sound plain other small step kept =>
      (sound.submitted_step plain small step other).trans kept
  exact kept

/-- Nothing waits after the requests up to a solve. -/
theorem Path.pending_of_upToSolve (path : Path first (upToSolve entries) last)
    (small : last.circuit.numbering.numCircuit ≤ maxVar) (sound : first.Sound start calls facts)
    (idle : first.pending = []) : last.pending = [] := by
  rcases upToSolve_cases entries with none | ⟨front, entry, parts, solves⟩
  · rw [none] at path
    cases path
    exact idle
  · rw [parts] at path
    obtain ⟨session, before, ending⟩ := append_iff.mp path
    obtain ⟨operation, reply, trace⟩ := entry
    obtain rfl : operation = .solve := solves
    obtain ⟨_, solved, _⟩ := step_solve.mp (one_iff.mp ending)
    have fewer := Nat.le_trans ending.numCircuit_le small
    exact (before.sound fewer sound).1.pending_solve solved

/-- What was handed over are the literals of what was asserted before the last solve. -/
theorem Transcript.submitted {engine : ε} {settings : Settings}
    (transcript : Transcript engine settings entries calls last)
    (small : last.circuit.numbering.numCircuit ≤ maxVar) :
    Forall₂ last.circuit.numbering.Denotes last.submitted
      (everAsserted (upToSolve entries)).eraseDups := by
  obtain ⟨started, path⟩ := transcript
  have sound := Sound.initial started
  rw [← upToSolve_append_sinceSolve entries] at path
  obtain ⟨middle, front, back⟩ := Path.append_iff.mp path
  have fewer := Nat.le_trans back.numCircuit_le small
  obtain ⟨handed, _⟩ := front.sound fewer sound
  obtain ⟨_, _, _, rfl⟩ := start_returns started
  have idle := front.pending_of_upToSolve fewer sound rfl
  have settled := handed.asserted
  rw [asserted, idle, List.append_nil] at settled
  rw [back.submitted_of_quiet small handed fun _ => not_solve_of_mem_sinceSolve,
    ← Facts.asserted_of]
  exact Numbering.forall₂_mono (back.sound small handed).2.image settled

/-- The engine received the clauses of every gate in clauses once, a unit clause for every signal
that was asserted before the last solve, in the order of first assertion, and nothing else. -/
theorem delivery_exact {engine : ε} {settings : Settings}
    (transcript : Transcript engine settings entries calls last)
    (small : last.circuit.numbering.numCircuit ≤ maxVar) :
    ∃ units, Forall₂ (fun signal literal => last.literal? signal = .ok (.ok (some literal)))
        (everAsserted (upToSolve entries)).eraseDups units ∧
      (clausesOf calls).Perm (last.circuit.netlist.clauses ++ units.map ([·])) ∧
      (clausesOf calls).filter (·.length = 1) = units.map ([·]) ∧
      last.statistics.cnfClauses = (clausesOf calls).length ∧
      (clausesOf calls).length =
        (3 * last.circuit.netlist.gates.countP
          fun gate => gate.isEncoded && gate.connective != .xor) +
        (4 * last.circuit.netlist.gates.countP
          fun gate => gate.isEncoded && gate.connective == .xor) +
        (everAsserted (upToSolve entries)).eraseDups.length := by
  have sound := transcript.sound small
  have submitted := transcript.submitted small
  refine ⟨last.submitted, ?_, sound.faithful.clauses, sound.faithful.ordered, sound.faithful.count,
    ?_⟩
  · exact submitted.flip.imp fun _ _ denotes => literal?_of_denotes sound.circuit denotes
  · have total := sound.faithful.clauses.length_eq
    rw [List.length_append, List.length_map, submitted.length_eq] at total
    rw [total, ← Netlist.length_clauses]
    rfl

/-- Repeated facts and solves; the last assertion comes after the last solve. -/
theorem delivery_exact_of_repetition : ∃ entries calls last,
    Transcript (Scripted.create [.refute, .refute]) .standard entries calls last ∧
    entries.map Entry.operation = [.input, .input, .gate .and ⟨1⟩ ⟨2⟩, .assert ⟨3⟩,
      .gate .xor ⟨-3⟩ ⟨2⟩, .solve, .assume ⟨4⟩, .assertAll [⟨1⟩, ⟨3⟩, ⟨1⟩], .solve,
      .assert ⟨-2⟩] ∧
    (last.circuit.numbering.numCircuit ≤ maxVar ∧
      clausesOf calls = [[⟨-2⟩, ⟨-3⟩, ⟨1⟩], [⟨2⟩, ⟨-1⟩], [⟨3⟩, ⟨-1⟩], [⟨1⟩], [⟨1⟩, ⟨-3⟩, ⟨-4⟩],
        [⟨-1⟩, ⟨3⟩, ⟨-4⟩], [⟨-1⟩, ⟨-3⟩, ⟨4⟩], [⟨1⟩, ⟨3⟩, ⟨4⟩], [⟨2⟩]]) ∧
    ∃ units, Forall₂ (fun signal literal => last.literal? signal = .ok (.ok (some literal)))
        (everAsserted (upToSolve entries)).eraseDups units ∧
      (clausesOf calls).Perm (last.circuit.netlist.clauses ++ units.map ([·])) ∧
      (clausesOf calls).filter (·.length = 1) = units.map ([·]) ∧
      last.statistics.cnfClauses = (clausesOf calls).length ∧
      (clausesOf calls).length =
        (3 * last.circuit.netlist.gates.countP
          fun gate => gate.isEncoded && gate.connective != .xor) +
        (4 * last.circuit.netlist.gates.countP
          fun gate => gate.isEncoded && gate.connective == .xor) +
        (everAsserted (upToSolve entries)).eraseDups.length := by
  refine exists_transcript_of (by decide +kernel) fun entries calls last transcript _ found => ?_
  exact delivery_exact transcript found.1

end Session

end CircuitSat
