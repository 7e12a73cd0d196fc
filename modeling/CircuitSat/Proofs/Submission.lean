import CircuitSat.Proofs.Encoding
import CircuitSat.Proofs.Engine.Scripted

/-! # What a recording engine is told

Clauses and gates are handed over in any order, on literals that may share variables, be opposites
or coincide. The record has the clauses of each of them, one after the other and nothing else, and
it holds exactly if the clauses hold and the gates do. Whether the clauses go through a scratch
buffer on their way makes no difference.
-/

namespace CircuitSat

/-- A clause as it is, or a gate on its literals. -/
inductive Submission where
  | clause (literals : Clause)
  | gate (connective : Connective) (literals : Triple)
deriving DecidableEq, Repr

namespace Submission

/-- The clauses that it comes to. -/
def clauses : Submission → List Clause
  | .clause literals => [literals]
  | .gate connective literals => Tseitin.clausesFor connective literals

/-- What it says of the clause variables. -/
def Holds (values : Nat → Bool) : Submission → Prop
  | .clause literals => literals.eval values = true
  | .gate connective literals => literals.output.eval values =
      connective.eval (literals.left.eval values) (literals.right.eval values)

/-- The literals that it is on. -/
def literals : Submission → List Literal
  | .clause literals => literals
  | .gate _ literals => literals.toList

/-- None of its literals is zero or the least word. -/
def Proper (submission : Submission) : Prop :=
  ∀ literal ∈ submission.literals, literal.proper = true

/-- Its clauses are over no other variables than it is on itself. -/
theorem within_of_mem_clauses {submission : Submission} (allowed : Nat → Prop)
    (within : ∀ literal ∈ submission.literals, literal.proper = true ∧ allowed literal.var)
    {clause : Clause} (member : clause ∈ submission.clauses) {literal : Literal}
    (among : literal ∈ clause) : literal.proper = true ∧ allowed literal.var := by
  cases submission with
  | clause literals =>
    obtain rfl := List.mem_singleton.mp member
    exact within literal among
  | gate connective literals => exact Tseitin.proper_of_mem_clausesFor allowed within member among

theorem clauses_hold_iff {submission : Submission} (proper : submission.Proper)
    (values : Nat → Bool) :
    (∀ clause ∈ submission.clauses, clause.eval values = true) ↔ submission.Holds values := by
  cases submission with
  | clause literals => exact List.forall_mem_singleton
  | gate connective literals =>
    exact Tseitin.clausesFor_hold_iff (.of_toList proper) connective values

/-- The clauses of some submissions hold exactly if each submission does. -/
theorem flatMap_clauses_hold_iff {submissions : List Submission}
    (proper : ∀ submission ∈ submissions, submission.Proper) (values : Nat → Bool) :
    (∀ clause ∈ submissions.flatMap clauses, clause.eval values = true) ↔
      ∀ submission ∈ submissions, submission.Holds values := by
  constructor
  · intro hold submission member
    apply (clauses_hold_iff (proper submission member) values).mp
    intro clause among
    exact hold clause (List.mem_flatMap_of_mem member among)
  · intro hold clause among
    obtain ⟨submission, member, inside⟩ := List.mem_flatMap.mp among
    exact (clauses_hold_iff (proper submission member) values).mpr (hold submission member) clause
      inside

end Submission

namespace Encoding

variable {ε : Type} [Engine ε]

/-- Hands one submission to the engine. -/
def take (encoding : Encoding ε) : Submission → Outcome Event (Encoding ε)
  | .clause literals => encoding.submit literals
  | .gate connective literals => encoding.submitGate connective literals

/-- Hands submissions to the engine one by one. -/
def takeAll (encoding : Encoding ε) (submissions : List Submission) :
    Outcome Event (Encoding ε) := submissions.foldlM take encoding

theorem take_eq (encoding : Encoding ε) {submission : Submission} (proper : submission.Proper) :
    encoding.take submission = encoding.submitAll submission.clauses := by
  cases submission with
  | clause literals =>
    change encoding.submit literals = (encoding.submit literals >>= pure)
    rw [bind_pure]
  | gate connective literals => exact encoding.submitGate_eq connective (.of_toList proper)

theorem takeAll_eq (encoding : Encoding ε) {submissions : List Submission}
    (proper : ∀ submission ∈ submissions, submission.Proper) :
    encoding.takeAll submissions = encoding.submitAll (submissions.flatMap (·.clauses)) := by
  induction submissions generalizing encoding with
  | nil => rfl
  | cons submission rest ih =>
    obtain ⟨first, others⟩ := List.forall_mem_cons.mp proper
    rw [List.flatMap_cons, submitAll_append, ← encoding.take_eq first]
    change (encoding.take submission >>= fun next => next.takeAll rest) = _
    congr 1
    funext next
    exact ih next others

end Encoding

/-! ## Through a scratch buffer -/

/-- An encoding whose clauses go through one buffer. -/
structure Buffered (ε : Type) where
  buffer : Array Literal
  encoding : Encoding ε

namespace Buffered

variable {ε : Type} [Engine ε]

/-- Empties the buffer, fills it literal by literal and hands over what it holds. -/
def submit (writer : Buffered ε) (clause : Clause) : Outcome Event (Buffered ε) := do
  let buffer := clause.foldl Array.push (writer.buffer.shrink 0)
  let encoding ← writer.encoding.submit buffer.toList
  return ⟨buffer, encoding⟩

def submitGate (writer : Buffered ε) (connective : Connective) (literals : Triple) :
    Outcome Event (Buffered ε) :=
  (Tseitin.templates connective).foldlM (fun writer template => do
    writer.submit (← Tseitin.instantiate literals template)) writer

def take (writer : Buffered ε) : Submission → Outcome Event (Buffered ε)
  | .clause literals => writer.submit literals
  | .gate connective literals => writer.submitGate connective literals

def takeAll (writer : Buffered ε) (submissions : List Submission) : Outcome Event (Buffered ε) :=
  submissions.foldlM take writer

/-- The buffer holds the clause and nothing of the one before. -/
theorem toList_refill (buffer : Array Literal) (clause : Clause) :
    (clause.foldl Array.push (buffer.shrink 0)).toList = clause := by
  have empty : buffer.shrink 0 = #[] := by simp
  rw [empty, List.foldl_push_eq_append]
  simp

theorem map_submit (writer : Buffered ε) (clause : Clause) :
    encoding <$> writer.submit clause = writer.encoding.submit clause := by
  rw [submit, toList_refill, map_bind]
  simp only [map_pure, bind_pure]

theorem map_submitGate (writer : Buffered ε) (connective : Connective) (literals : Triple) :
    encoding <$> writer.submitGate connective literals =
      writer.encoding.submitGate connective literals := by
  apply Outcome.map_foldlM
  intro writer template
  rw [map_bind]
  simp only [map_submit]

theorem map_take (writer : Buffered ε) (submission : Submission) :
    encoding <$> writer.take submission = writer.encoding.take submission := by
  cases submission with
  | clause literals => exact writer.map_submit literals
  | gate connective literals => exact writer.map_submitGate connective literals

/-- Nothing shows of the buffer, whatever it held before. -/
theorem map_takeAll (writer : Buffered ε) (submissions : List Submission) :
    encoding <$> writer.takeAll submissions = writer.encoding.takeAll submissions :=
  Outcome.map_foldlM encoding map_take submissions writer

/-- Whatever the buffer holds, the submissions go through as they would without one. -/
theorem takeAll_returns (buffer : Array Literal) {encoding next : Encoding ε}
    {submissions : List Submission} {trace : List Event}
    (returned : (encoding.takeAll submissions).Returns trace next) :
    ∃ left, ((⟨buffer, encoding⟩ : Buffered ε).takeAll submissions).Returns trace ⟨left, next⟩ := by
  have same := (⟨buffer, encoding⟩ : Buffered ε).map_takeAll submissions
  rw [Outcome.Returns, ← same] at returned
  obtain ⟨⟨left, last⟩, ended, rfl⟩ := Outcome.returns_map.mp returned
  exact ⟨left, ended⟩

end Buffered

/-! ## The record -/

/-- A recording engine takes the clauses of all submissions. -/
theorem Encoding.exists_takeAll {ε : Type} [Engine ε] {engine : ε} {allowed : Nat → Prop}
    {received : ε → List Clause} (recording : Engine.Recording engine allowed received)
    {submissions : List Submission} (within : ∀ submission ∈ submissions,
      ∀ literal ∈ submission.literals, literal.proper = true ∧ allowed literal.var) :
    ∃ trace next, ((start engine).takeAll submissions).Returns trace next ∧
      callsOf trace = (submissions.flatMap (·.clauses)).map .clause ∧
      Engine.After engine (callsOf trace) next.engine ∧
      next.numClauses = (submissions.flatMap (·.clauses)).length := by
  have taken (before : List Clause) (last : ε)
      (after : Engine.After engine (before.map .clause) last) (clause : Clause)
      (member : clause ∈ submissions.flatMap (·.clauses)) :
      ∃ next, Engine.Takes last (.clause clause) next := by
    obtain ⟨submission, among, inside⟩ := List.mem_flatMap.mp member
    apply recording.taken after
    intro literal present
    exact Submission.within_of_mem_clauses allowed (within submission among) inside present
  have handed : ∃ trace next,
      ((start engine).submitAll (submissions.flatMap (·.clauses))).Returns trace next :=
    exists_submitAll taken
  obtain ⟨trace, next, returned⟩ := handed
  obtain ⟨calls, after, _, count⟩ := submitAll_returns returned
  rw [← takeAll_eq _ fun submission member literal among =>
    (within submission member literal among).1] at returned
  refine ⟨trace, next, returned, calls, ?_, ?_⟩
  · rw [calls]
    exact after
  · rw [count, start, Nat.zero_add]

/-- An engine that records clauses gets the clauses of each submission in order, and they are
counted. Together they hold under exactly the assignments that give each gate's output literal the
connective of its operand literals and make each clause true. A writer with a buffer, whatever is
left in it, makes the same calls. -/
theorem Encoding.submissions_exact {ε : Type} [Engine ε] {engine : ε} {allowed : Nat → Prop}
    {received : ε → List Clause} (recording : Engine.Recording engine allowed received)
    {submissions : List Submission} (within : ∀ submission ∈ submissions,
      ∀ literal ∈ submission.literals, literal.proper = true ∧ allowed literal.var) :
    ∃ trace next, ((start engine).takeAll submissions).Returns trace next ∧
      received next.engine = submissions.flatMap (·.clauses) ∧
      callsOf trace = (received next.engine).map .clause ∧
      next.numClauses = (received next.engine).length ∧
      (∀ values, (∀ clause ∈ received next.engine, clause.eval values = true) ↔
        ∀ submission ∈ submissions, submission.Holds values) ∧
      ∀ buffer, ∃ left, ((⟨buffer, start engine⟩ : Buffered ε).takeAll submissions).Returns trace
        ⟨left, next⟩ := by
  have proper : ∀ submission ∈ submissions, submission.Proper := by
    intro submission member literal among
    exact (within submission member literal among).1
  obtain ⟨trace, next, returned, calls, after, count⟩ := exists_takeAll recording within
  have record : received next.engine = submissions.flatMap (·.clauses) := by
    rw [calls] at after
    exact recording.received_after after
  refine ⟨trace, next, returned, record, ?_, ?_, ?_, ?_⟩
  · rw [record, calls]
  · rw [record, count]
  · intro values
    rw [record]
    exact Submission.flatMap_clauses_hold_iff proper values
  · intro buffer
    exact Buffered.takeAll_returns buffer returned

/-- A gate on opposite operands, a clause, and a gate whose output is the opposite of both of its
operands. The first makes its output true, so that the clause does the same for its other variable;
the last says nothing. -/
theorem Encoding.submissions_exact_of_knot :
    (∀ submission ∈ [Submission.gate .xor ⟨⟨1⟩, ⟨-1⟩, ⟨2⟩⟩, .clause [⟨-2⟩, ⟨3⟩],
      .gate .nor ⟨⟨3⟩, ⟨3⟩, ⟨-3⟩⟩], ∀ literal ∈ submission.literals,
        literal.proper = true ∧ True) ∧
    ∃ trace next, ((start (Scripted.create [])).takeAll [.gate .xor ⟨⟨1⟩, ⟨-1⟩, ⟨2⟩⟩,
        .clause [⟨-2⟩, ⟨3⟩], .gate .nor ⟨⟨3⟩, ⟨3⟩, ⟨-3⟩⟩]).Returns trace next ∧
      next.engine.clauses.toList = [[⟨-1⟩, ⟨1⟩, ⟨-2⟩], [⟨1⟩, ⟨-1⟩, ⟨-2⟩], [⟨1⟩, ⟨1⟩, ⟨2⟩],
        [⟨-1⟩, ⟨-1⟩, ⟨2⟩], [⟨-2⟩, ⟨3⟩], [⟨3⟩, ⟨3⟩, ⟨-3⟩], [⟨-3⟩, ⟨3⟩], [⟨-3⟩, ⟨3⟩]] ∧
      next.numClauses = 8 ∧
      ∀ values : Nat → Bool, (∀ clause ∈ next.engine.clauses.toList, clause.eval values = true) ↔
        values 2 = true ∧ values 3 = true := by
  have within : ∀ submission ∈ [Submission.gate .xor ⟨⟨1⟩, ⟨-1⟩, ⟨2⟩⟩, .clause [⟨-2⟩, ⟨3⟩],
      .gate .nor ⟨⟨3⟩, ⟨3⟩, ⟨-3⟩⟩], ∀ literal ∈ submission.literals,
        literal.proper = true ∧ True := by decide
  obtain ⟨trace, next, returned, record, _, count, hold, _⟩ :=
    submissions_exact (Scripted.recording []) within
  refine ⟨within, trace, next, returned, record, ?_, ?_⟩
  · rw [count, record]
    rfl
  · intro values
    rw [hold]
    cases first : values 1 <;> cases second : values 2 <;> cases third : values 3 <;>
      simp [Submission.Holds, Clause.eval, Literal.eval, Literal.var, Literal.negative,
        Connective.eval, first, second, third]

end CircuitSat
