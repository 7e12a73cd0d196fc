import CircuitSat.Proofs.Outcome
import CircuitSat.Proofs.Polarity
import Mathlib.Algebra.GroupWithZero.Nat
import Mathlib.Data.List.Induction

/-! # What may be expected of an engine

An engine is known by the calls that it took. The laws below are about every state that calls can
lead to, and they speak of the clauses among these calls only. Counting engines number their
variables as asked; recording ones show the clauses that they took; truthful ones never show a wrong
model; correct ones never give a wrong answer; willing ones take every proper call; honest ones
answer each proper question, and rightly. An engine owes nothing for literals that were not
declared, and no more variables than there are words for.
-/

namespace CircuitSat

/-- The clause that a call adds. -/
def Call.clause? : Call → Option Clause
  | .clause literals => some literals
  | _ => none

/-- The number of variables that a call declares. -/
def Call.declared : Call → Nat
  | .newVars count => count
  | _ => 0

/-- The clauses among some calls, in order. -/
def clausesOf (calls : List Call) : List Clause := calls.filterMap Call.clause?

@[simp] theorem clausesOf_nil : clausesOf [] = [] := rfl

@[simp] theorem clausesOf_append (before after : List Call) :
    clausesOf (before ++ after) = clausesOf before ++ clausesOf after := List.filterMap_append

@[simp] theorem clausesOf_map_clause (clauses : List Clause) :
    clausesOf (clauses.map .clause) = clauses := by
  induction clauses with
  | nil => rfl
  | cons clause rest ih => exact congrArg (clause :: ·) ih

/-- Whether the call asks for a verdict. -/
def Call.isSolve : Call → Bool
  | .solve _ => true
  | _ => false

/-- The number of solves among some calls. -/
def solvesOf (calls : List Call) : Nat := calls.countP Call.isSolve

@[simp] theorem solvesOf_nil : solvesOf [] = 0 := rfl

@[simp] theorem solvesOf_append (before after : List Call) :
    solvesOf (before ++ after) = solvesOf before + solvesOf after := List.countP_append

@[simp] theorem solvesOf_map_clause (clauses : List Clause) :
    solvesOf (clauses.map .clause) = 0 := by
  rw [solvesOf, List.countP_map]
  exact List.countP_eq_zero.mpr fun _ _ => Bool.false_ne_true

/-- The literals under which a call asks for a verdict. -/
def Call.question? : Call → Option (List Literal)
  | .solve assumptions => some assumptions
  | _ => none

/-- The questions among some calls, in order. -/
def questionsOf (calls : List Call) : List (List Literal) := calls.filterMap Call.question?

theorem questionsOf_append (before after : List Call) :
    questionsOf (before ++ after) = questionsOf before ++ questionsOf after :=
  List.filterMap_append

theorem questionsOf_eq_nil_iff {calls : List Call} :
    questionsOf calls = [] ↔ solvesOf calls = 0 := by
  rw [questionsOf, List.filterMap_eq_nil_iff, solvesOf, List.countP_eq_zero]
  apply forall₂_congr
  intro call _
  cases call <;> simp [Call.question?, Call.isSolve]

/-- The literals that a call uses. -/
def Call.literals : Call → List Literal
  | .clause literals | .solve literals => literals
  | _ => []

/-- The number of variables that some calls declare together. -/
def declaredBy (calls : List Call) : Nat := (calls.map Call.declared).sum

@[simp] theorem declaredBy_nil : declaredBy [] = 0 := rfl

@[simp] theorem declaredBy_cons (call : Call) (rest : List Call) :
    declaredBy (call :: rest) = call.declared + declaredBy rest := List.sum_cons

@[simp] theorem declaredBy_append (before after : List Call) :
    declaredBy (before ++ after) = declaredBy before + declaredBy after := by
  rw [declaredBy, List.map_append, List.sum_append]
  rfl

/-- Every call uses proper literals of variables that are known by then. -/
def DeclaredFirst (known : Nat) : List Call → Prop
  | [] => True
  | call :: rest =>
    (∀ literal ∈ call.literals, literal.proper = true ∧ literal.var ≤ known) ∧
      DeclaredFirst (known + call.declared) rest

namespace DeclaredFirst

variable {known : Nat} {calls more : List Call}

theorem append_iff : DeclaredFirst known (calls ++ more) ↔
    DeclaredFirst known calls ∧ DeclaredFirst (known + declaredBy calls) more := by
  induction calls generalizing known with
  | nil => exact (iff_of_eq (true_and _)).symm
  | cons call rest ih =>
    rw [List.cons_append, DeclaredFirst, DeclaredFirst, ih, and_assoc, declaredBy_cons,
      Nat.add_assoc]

/-- Calls over variables that were known before. -/
theorem of_known (within : ∀ call ∈ calls, ∀ literal ∈ call.literals,
    literal.proper = true ∧ literal.var ≤ known) : DeclaredFirst known calls := by
  induction calls generalizing known with
  | nil => trivial
  | cons call rest ih =>
    obtain ⟨head, others⟩ := List.forall_mem_cons.mp within
    refine ⟨head, ih fun other member literal among => ?_⟩
    obtain ⟨proper, bound⟩ := others other member literal among
    exact ⟨proper, Nat.le_add_right_of_le bound⟩

end DeclaredFirst

namespace Engine

variable {ε : Type} [Engine ε]

/-- The engine takes a call and is in another state after it. -/
inductive Takes (engine : ε) : Call → ε → Prop
  | newVars {count : Nat} {entries : List LogEntry} {next : ε}
      (reply : (Engine.newVars engine count).Returns entries next) :
      Takes engine (.newVars count) next
  | clause {literals : Clause} {entries : List LogEntry} {next : ε}
      (reply : (Engine.addClause engine literals).Returns entries next) :
      Takes engine (.clause literals) next
  | solve {assumptions : List Literal} {entries : List LogEntry} {answer : Except Failure Bool}
      {next : ε} (reply : (Engine.solve engine assumptions).Returns entries (answer, next)) :
      Takes engine (.solve assumptions) next
  | model {entries : List LogEntry} {values : Array Bool}
      (reply : (Engine.model engine).Returns entries values) : Takes engine .model engine
  | maxTime {bound : Option Seconds} {entries : List LogEntry} {next : ε}
      (reply : (Engine.setMaxTime engine bound).Returns entries next) :
      Takes engine (.maxTime bound) next
  | maxConflicts {bound : Option Nat} {entries : List LogEntry} {next : ε}
      (reply : (Engine.setMaxConflicts engine bound).Returns entries next) :
      Takes engine (.maxConflicts bound) next
  | threads {count : Nat} {entries : List LogEntry} {next : ε}
      (reply : (Engine.setThreads engine count).Returns entries next) :
      Takes engine (.threads count) next

/-- The states that an engine is in after some calls. -/
inductive After (engine : ε) : List Call → ε → Prop
  | none : After engine [] engine
  | one {calls : List Call} {call : Call} {last next : ε} :
      After engine calls last → Takes last call next → After engine (calls ++ [call]) next

theorem After.nil_iff {engine last : ε} : After engine [] last ↔ last = engine := by
  constructor
  · intro after
    generalize empty : ([] : List Call) = calls at after
    cases after with
    | none => rfl
    | one => simp at empty
  · rintro rfl
    exact .none

theorem After.append {engine last next : ε} {calls more : List Call}
    (left : After engine calls last) (right : After last more next) :
    After engine (calls ++ more) next := by
  induction right with
  | none => rwa [List.append_nil]
  | one _ takes ih => rw [← List.append_assoc]; exact ih.one takes

theorem After.concat_iff {engine next : ε} {calls : List Call} {call : Call} :
    After engine (calls ++ [call]) next ↔
      ∃ last, After engine calls last ∧ Takes last call next := by
  constructor
  · intro after
    generalize parts : calls ++ [call] = all at after
    cases after with
    | none => simp at parts
    | one before takes =>
      obtain ⟨rfl, same⟩ := List.append_inj' parts rfl
      cases same
      exact ⟨_, before, takes⟩
  · rintro ⟨_, before, takes⟩
    exact before.one takes

/-- Between any two calls the engine was in some state. -/
theorem After.append_iff {engine last : ε} {calls more : List Call} :
    After engine (calls ++ more) last ↔
      ∃ moment, After engine calls moment ∧ After moment more last := by
  constructor
  · intro after
    induction more using List.reverseRecOn generalizing last with
    | nil => exact ⟨last, by rwa [List.append_nil] at after, .none⟩
    | append_singleton front call ih =>
      rw [← List.append_assoc] at after
      obtain ⟨earlier, before, takes⟩ := concat_iff.mp after
      obtain ⟨moment, left, right⟩ := ih before
      exact ⟨moment, left, right.one takes⟩
  · rintro ⟨_, left, right⟩
    exact left.append right

theorem Takes.after {engine next : ε} {call : Call} (takes : Takes engine call next) :
    After engine [call] next := After.none.one takes

/-- Makes a call, whatever it is answered with. -/
def make (engine : ε) : Call → Outcome LogEntry ε
  | .newVars count => newVars engine count
  | .clause literals => addClause engine literals
  | .solve assumptions => Prod.snd <$> solve engine assumptions
  | .model => (fun _ => engine) <$> model engine
  | .maxTime bound => setMaxTime engine bound
  | .maxConflicts bound => setMaxConflicts engine bound
  | .threads count => setThreads engine count

theorem takes_of_make {engine next : ε} {call : Call} {entries : List LogEntry}
    (made : (make engine call).Returns entries next) : Takes engine call next := by
  cases call with
  | newVars count => exact .newVars made
  | clause literals => exact .clause made
  | solve assumptions =>
    obtain ⟨⟨_, _⟩, reply, rfl⟩ := Outcome.returns_map.mp made
    exact .solve reply
  | model =>
    obtain ⟨_, reply, rfl⟩ := Outcome.returns_map.mp made
    exact .model reply
  | maxTime bound => exact .maxTime made
  | maxConflicts bound => exact .maxConflicts made
  | threads count => exact .threads made

theorem after_of_makes {engine last : ε} {calls : List Call} {entries : List LogEntry}
    (made : (calls.foldlM make engine).Returns entries last) : After engine calls last := by
  induction calls generalizing engine entries with
  | nil =>
    obtain ⟨_, rfl⟩ := Outcome.returns_pure.mp made
    exact .none
  | cons call rest ih =>
    rw [List.foldlM_cons] at made
    obtain ⟨_, next, _, first, later, _⟩ := Outcome.returns_bind.mp made
    exact (takes_of_make first).after.append (ih later)

/-- Calls that can be made lead to a state, with what was decided about it. -/
theorem exists_after (engine : ε) (calls : List Call) (found : ε → Prop) [DecidablePred found]
    (computed : ((calls.foldlM make engine).result.toOption.any fun last => found last) = true) :
    ∃ last, After engine calls last ∧ found last := by
  obtain ⟨last, made, holds⟩ := Outcome.exists_returns computed
  exact ⟨last, after_of_makes made, holds⟩

/-- All literals are proper ones of declared variables. -/
def Declares (engine : ε) (literals : List Literal) : Prop :=
  ∀ literal ∈ literals, literal.proper = true ∧ literal.var ≤ numVars engine

/-- All clauses and assumptions hold. -/
def Satisfies (values : Nat → Bool) (clauses : List Clause) (assumptions : List Literal) : Prop :=
  (∀ clause ∈ clauses, clause.eval values = true) ∧
    ∀ literal ∈ assumptions, literal.eval values = true

/-- The assignment that a model stands for. -/
def reading (model : Array Bool) (var : Nat) : Bool := model.getD var false

/-- There are no variables at first, and declarations alone add to them. -/
structure Counting (engine : ε) : Prop where
  zero : numVars engine = 0
  declared {calls : List Call} {count : Nat} {last next : ε} (after : After engine calls last)
    (takes : Takes last (.newVars count) next) : numVars next = numVars last + count
  kept {calls : List Call} {call : Call} {last next : ε} (after : After engine calls last)
    (takes : Takes last call next) (other : ∀ count, call ≠ .newVars count) :
    numVars next = numVars last

/-- A positive answer comes with a model of all clauses and assumptions. -/
structure Truthful (engine : ε) : Prop extends Counting engine where
  shown {calls : List Call} {assumptions : List Literal} {entries shown : List LogEntry}
    {last next : ε} {model : Array Bool} (after : After engine calls last)
    (clauses : ∀ clause ∈ clausesOf calls, Declares last clause)
    (assumed : Declares last assumptions)
    (solved : (solve last assumptions).Returns entries (.ok true, next))
    (reply : (Engine.model next).Returns shown model) :
    model.size = numVars next + 1 ∧ Satisfies (reading model) (clausesOf calls) assumptions

/-- What an engine has to take without a fault. Its variables are counted in 64 bits. -/
def Accepts (engine : ε) : Call → Prop
  | .newVars count => numVars engine + count < UInt64.size
  | .clause literals => Declares engine literals
  | .solve assumptions => Declares engine assumptions
  | .model => False
  | .maxTime _ | .maxConflicts _ | .threads _ => True

/-- Every answer that is given is right. -/
structure Correct (engine : ε) : Prop extends Counting engine where
  answered {calls : List Call} {assumptions : List Literal} {entries : List LogEntry}
    {satisfiable : Bool} {last next : ε} (after : After engine calls last)
    (clauses : ∀ clause ∈ clausesOf calls, Declares last clause)
    (assumed : Declares last assumptions)
    (solved : (solve last assumptions).Returns entries (.ok satisfiable, next)) :
    satisfiable = true ↔ ∃ values, Satisfies values (clausesOf calls) assumptions

/-- Proper calls are taken, and after a positive answer there is a model that is long enough, as
long as every declared variable has a word. -/
structure Willing (engine : ε) : Prop extends Counting engine where
  taken {calls : List Call} {call : Call} {last : ε} (after : After engine calls last)
    (accepted : Accepts last call) (few : numVars last + call.declared ≤ maxVar) :
    ∃ next, Takes last call next
  modelled {calls : List Call} {assumptions : List Literal} {entries : List LogEntry}
    {last next : ε} (after : After engine calls last)
    (clauses : ∀ clause ∈ clausesOf calls, Declares last clause)
    (assumed : Declares last assumptions) (few : numVars last ≤ maxVar)
    (solved : (solve last assumptions).Returns entries (.ok true, next)) :
    ∃ shown model, (Engine.model next).Returns shown model ∧ numVars next < model.size

/-- Proper calls are taken, and every solve has the right verdict, a positive one with a model. -/
structure Honest (engine : ε) : Prop extends Truthful engine, Correct engine, Willing engine where
  decided {calls : List Call} {assumptions : List Literal} {entries : List LogEntry}
    {answer : Except Failure Bool} {last next : ε} (after : After engine calls last)
    (clauses : ∀ clause ∈ clausesOf calls, Declares last clause)
    (assumed : Declares last assumptions)
    (solved : (solve last assumptions).Returns entries (answer, next)) :
    ∃ satisfiable, answer = .ok satisfiable

/-- At any time as many variables are added as asked for and every clause is taken, whatever the
engine makes of them and however many variables it started with. -/
structure Obliging (engine : ε) : Prop where
  counts {calls : List Call} {count : Nat} {last next : ε} (after : After engine calls last)
    (takes : Takes last (.newVars count) next) : numVars next = numVars last + count
  declares {calls : List Call} {count : Nat} {last : ε} (after : After engine calls last)
    (fits : numVars last + count < UInt64.size) : ∃ next, Takes last (.newVars count) next
  submits {calls : List Call} {last : ε} (after : After engine calls last) (clause : Clause) :
    ∃ next, Takes last (.clause clause) next

/-- There are no clauses at first, and from then on clauses over allowed variables are taken and put
on record. -/
structure Recording (engine : ε) (allowed : Nat → Prop) (received : ε → List Clause) : Prop where
  nothing : received engine = []
  taken {calls : List Call} {last : ε} (after : After engine calls last) {clause : Clause}
    (within : ∀ literal ∈ clause, literal.proper = true ∧ allowed literal.var) :
    ∃ next, Takes last (.clause clause) next
  recorded {calls : List Call} {clause : Clause} {last next : ε} (after : After engine calls last)
    (takes : Takes last (.clause clause) next) : received next = received last ++ [clause]

theorem countVars_of_ok {declared count total : Nat}
    (counted : countVars declared count = .ok total) : total = declared + count := by
  unfold countVars at counted
  split at counted
  · cases counted
    rfl
  · contradiction

/-- An engine counts if each call adds the variables that it declares. -/
theorem Counting.of_takes {engine : ε} (zero : numVars engine = 0)
    (adds : ∀ {last next : ε} {call : Call}, Takes last call next →
      numVars next = numVars last + call.declared) : Counting engine where
  zero := zero
  declared _ takes := adds takes
  kept {_ call last next} _ takes other := by
    have same : numVars next = numVars last + call.declared := adds takes
    cases call with
    | newVars count => exact absurd rfl (other count)
    | _ => exact same

/-- After some clauses these are on record. -/
theorem Recording.received_after {engine last : ε} {allowed : Nat → Prop}
    {received : ε → List Clause} (recording : Recording engine allowed received)
    {clauses : List Clause} (after : After engine (clauses.map .clause) last) :
    received last = clauses := by
  induction clauses using List.reverseRecOn generalizing last with
  | nil =>
    obtain rfl := After.nil_iff.mp after
    exact recording.nothing
  | append_singleton front clause ih =>
    rw [List.map_append] at after
    obtain ⟨middle, before, takes⟩ := After.concat_iff.mp after
    rw [recording.recorded before takes, ih before]

/-- Nothing but declarations changes the number of variables. -/
theorem Counting.numVars_eq {engine last next : ε} (counting : Counting engine)
    {calls more : List Call} (after : After engine calls last) (further : After last more next)
    (other : ∀ call ∈ more, ∀ count, call ≠ .newVars count) : numVars next = numVars last := by
  induction further with
  | none => rfl
  | one before takes ih =>
    rw [counting.kept (after.append before) takes (other _ (by simp))]
    exact ih fun call member => other call (List.mem_append_left _ member)

/-- A counting engine has the variables that it was asked for. -/
theorem Counting.numVars_after {engine last : ε} (counting : Counting engine) {calls : List Call}
    (after : After engine calls last) : numVars last = declaredBy calls := by
  induction after with
  | none => exact counting.zero
  | @one calls call _ _ before takes ih =>
    rw [declaredBy_append, ← ih]
    cases call with
    | newVars count => exact counting.declared before takes
    | _ => exact counting.kept before takes (by simp)

/-- What a call uses is declared at the moment of the call. -/
theorem Counting.exists_moment {engine last : ε} (counting : Counting engine)
    {before later : List Call} {call : Call}
    (after : After engine (before ++ call :: later) last)
    (declared : DeclaredFirst 0 (before ++ call :: later)) :
    ∃ moment, After engine before moment ∧ After moment (call :: later) last ∧
      Declares moment call.literals := by
  obtain ⟨moment, earlier, rest⟩ := After.append_iff.mp after
  refine ⟨moment, earlier, rest, ?_⟩
  have here := (DeclaredFirst.append_iff.mp declared).2.1
  rwa [Nat.zero_add, ← counting.numVars_after earlier] at here

end Engine

end CircuitSat
