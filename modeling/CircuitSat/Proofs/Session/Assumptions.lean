import CircuitSat.Engine.Scripted
import CircuitSat.Proofs.Session.Safety

/-! # Assumptions as a list of signals

A session keeps literals and compares these. All the same its assumptions are what the requests make
of a list of signals, which know of no literals, and at each solve the engine is asked under the
literals of the signals that are in the list by then.
-/

namespace CircuitSat

open List (Forall₂)

/-- The assumptions after a request. One that is turned down changes nothing, an assumption is put
at the end unless the same signal is there, and a retraction takes the signal and its opposite away
wherever they are. -/
def Entry.assumedAfter (assumed : List Signal) (entry : Entry) : List Signal :=
  match entry.reply, entry.operation with
  | .ok _, .assume signal => if signal ∈ assumed then assumed else assumed ++ [signal]
  | .ok _, .retract signal =>
    assumed.filter fun other => other ≠ signal ∧ signal.negate? ≠ some other
  | _, _ => assumed

/-- The assumptions after some requests to a new session. -/
def assumptionsOf (entries : List Entry) : List Signal := entries.foldl Entry.assumedAfter []

theorem Facts.assumed_after (facts : Facts) (entry : Entry) :
    (facts.after entry).assumed = entry.assumedAfter facts.assumed := by
  obtain ⟨operation, reply, _⟩ := entry
  cases reply with
  | error => rfl
  | ok answer =>
    cases operation with
    | retract signal =>
      apply List.filter_congr
      intro other _
      rw [decide_eq_decide, ne_eq, Signal.var_eq_iff, not_or]
    | _ => rfl

theorem Facts.assumed_foldl_after (facts : Facts) (entries : List Entry) :
    (entries.foldl after facts).assumed = entries.foldl Entry.assumedAfter facts.assumed := by
  induction entries generalizing facts with
  | nil => rfl
  | cons entry rest ih => rw [List.foldl_cons, List.foldl_cons, ih, assumed_after]

/-- What is assumed by now is what the list of signals has come to. -/
theorem Facts.assumed_of (entries : List Entry) :
    (Facts.of entries).assumed = assumptionsOf entries := assumed_foldl_after none entries

/-! ## Questions -/

/-- What was requested before each of the solves among some requests, where other requests were made
before them all. -/
def beforeSolves (front : List Entry) : List Entry → List (List Entry)
  | [] => []
  | entry :: rest =>
    (if entry.operation = .solve then [front] else []) ++ beforeSolves (front ++ [entry]) rest

namespace Session

variable {ε : Type} [Engine ε] {start : ε} {calls : List Call} {facts : Facts}
  {session next first last : Session ε} {entries : List Entry} {trace : List Event}

namespace Sound

/-- A solve asks once, under the literals of the assumptions. -/
theorem solve_question (sound : session.Sound start calls facts) {verdict : Verdict}
    (returned : session.solve.Returns trace (verdict, next)) :
    questionsOf (callsOf trace) = [session.assumptions] := by
  obtain ⟨first, encoding, second, covered, _, _, _, third, submitted, walked, _, concluded, _,
    made⟩ := solve_returns returned
  obtain ⟨handed, _⟩ := sound.submitPending submitted
  have denoted (literal : Literal) (member : literal ∈ session.assumptions) :=
    (handed.exists_assumed member).imp fun _ found => found.2
  obtain ⟨_, _, same, silent⟩ := handed.coverAssumptions denoted walked
  have kept : covered.assumptions = session.assumptions := by rw [same]
  have units : questionsOf (callsOf first) = [] := by
    rw [questionsOf_eq_nil_iff, (Encoding.submitAll_returns submitted).1]
    exact solvesOf_map_clause _
  have walk : questionsOf (callsOf second) = [] := questionsOf_eq_nil_iff.mpr silent
  have conclusion : questionsOf (callsOf third) = [] := by
    rcases conclude_returns concluded with ⟨_, shown, _⟩ | ⟨_, shown, _⟩ | ⟨_, _, shown, _⟩ <;>
      rw [shown] <;> rfl
  rw [made, questionsOf_append, questionsOf_append, units, walk, kept]
  exact congrArg (session.assumptions :: ·) conclusion

/-- Other plain requests ask for no verdict. -/
theorem unasked_step (sound : session.Sound start calls facts) {entry : Entry}
    (plain : entry.operation.isPlain = true)
    (small : next.circuit.numbering.numCircuit ≤ maxVar) (step : Step session entry next)
    (other : entry.operation ≠ .solve) : questionsOf (callsOf entry.trace) = [] := by
  cases step.effect sound.circuit plain small with
  | input | refused | retracted => rfl
  | found silent | built silent => rw [silent]; rfl
  | asserted contained mentions made | assumed contained mentions made =>
    rw [made]
    exact questionsOf_eq_nil_iff.mpr (mentions.solves sound.circuit sound.closed contained)
  | solved => contradiction
  | maxTime made | maxConflicts made => rw [made]; rfl

end Sound

/-- Without a solve nothing is asked. -/
theorem Path.unasked (path : Path first entries last)
    (small : last.circuit.numbering.numCircuit ≤ maxVar) (sound : first.Sound start calls facts)
    (quiet : ∀ entry ∈ entries, entry.operation ≠ .solve) :
    questionsOf (callsOfEntries entries) = [] := by
  obtain ⟨_, same, none⟩ := path.quiet_induction small sound quiet
    (motive := fun front _ => questionsOf (callsOfEntries front) = []) rfl
    fun sound plain other small step none => by
      rw [callsOfEntries_append, questionsOf_append, none, callsOfEntries_cons,
        callsOfEntries_nil, List.append_nil, sound.unasked_step plain small step other]
      rfl
  rwa [← same.calls]

/-- A request is a question if it is a solve. -/
theorem Sound.question_step (sound : session.Sound start calls facts) {entry : Entry}
    (small : next.circuit.numbering.numCircuit ≤ maxVar) (step : Step session entry next) :
    questionsOf (callsOf entry.trace) =
      if entry.operation = .solve then [session.assumptions] else [] := by
  split
  · next solves =>
    obtain ⟨operation, reply, trace⟩ := entry
    obtain rfl : operation = .solve := solves
    obtain ⟨_, returned, _⟩ := step_solve.mp step
    exact sound.solve_question returned
  · next other =>
    have none := (Path.one step).unasked small sound (List.forall_mem_singleton.mpr other)
    rwa [callsOfEntries_cons, callsOfEntries_nil, List.append_nil] at none

/-- After the requests in front the run was in a session whose assumptions have these literals, then
and ever after. -/
def Assumes (engine : ε) (settings : Settings) (last : Session ε) (front : List Entry)
    (question : List Literal) : Prop :=
  ∃ moment, Run engine settings front moment ∧
    Forall₂ (fun signal literal => moment.literal? signal = .ok (.ok (some literal)) ∧
      last.literal? signal = .ok (.ok (some literal))) (assumptionsOf front) question

theorem Run.assumes {engine : ε} {settings : Settings} {front : List Entry}
    (run : Run engine settings front session)
    (small : session.circuit.numbering.numCircuit ≤ maxVar) (valid : last.circuit.WellFormed)
    (grows : session.circuit.Grows last.circuit) :
    Assumes engine settings last front session.assumptions := by
  obtain ⟨_, sound⟩ := run.sound small
  refine ⟨session, run, ?_⟩
  rw [← Facts.assumed_of]
  refine sound.assumed.flip.imp fun _ _ denotes => ⟨?_, ?_⟩
  · exact literal?_of_denotes sound.circuit denotes
  · exact literal?_of_denotes valid ⟨grows.image denotes.1, denotes.2⟩

/-- On a path of a run the engine is asked for every solve in turn, under the assumptions that there
are by then. -/
theorem Path.questions {engine : ε} {settings : Settings} (path : Path session entries last)
    (small : last.circuit.numbering.numCircuit ≤ maxVar) {front : List Entry}
    (run : Run engine settings front session) :
    Forall₂ (Assumes engine settings last) (beforeSolves front entries)
      (questionsOf (callsOfEntries entries)) := by
  induction path generalizing front with
  | nil => exact .nil
  | @cons session middle last entry rest step path ih =>
    have whole : Path session (entry :: rest) last := .cons step path
    obtain ⟨_, sound⟩ := run.sound (Nat.le_trans whole.numCircuit_le small)
    obtain ⟨final, grows⟩ := whole.sound small sound
    have further : Run engine settings (front ++ [entry]) middle := by
      obtain ⟨started, earlier⟩ := run
      exact ⟨started, earlier.append (.one step)⟩
    rw [beforeSolves, callsOfEntries_cons, questionsOf_append,
      sound.question_step (Nat.le_trans path.numCircuit_le small) step]
    refine List.rel_append ?_ (ih small further)
    split
    · exact .cons (run.assumes sound.circuit.small final.circuit grows) .nil
    · exact .nil

/-- The assumptions read back are the list that successful requests make when nothing but signals is
looked at. The run asks exactly once for each solve, in turn, under the literals of that list as it
was by then, one for one. -/
theorem assumptions_refine {engine : ε} {settings : Settings}
    (transcript : Transcript engine settings entries calls last)
    (small : last.circuit.numbering.numCircuit ≤ maxVar) :
    last.assumedSignals = .ok (assumptionsOf entries) ∧
      Forall₂ (Assumes engine settings last) (beforeSolves [] entries) (questionsOf calls) := by
  have sound := transcript.sound small
  constructor
  · rw [sound.assumedSignals_eq, Facts.assumed_of]
  · obtain @⟨opening, first, _, started, path⟩ := transcript
    have unasked : questionsOf (callsOf opening) = [] := by
      obtain ⟨_, _, made, _⟩ := start_returns started
      rw [made]
      rfl
    rw [questionsOf_append, unasked]
    exact path.questions small ⟨started, .nil first⟩

/-- Both polarities are assumed, repeated, retracted together and assumed again, in between solves
and gates; one signal is not there at all. -/
theorem assumptions_refine_of_polarities : ∃ entries calls last,
    Transcript (Scripted.create [.refute, .refute, .refute]) .standard entries calls last ∧
    entries.map Entry.operation = [.input, .input, .gate .and ⟨1⟩ ⟨-2⟩, .assume ⟨3⟩, .assume ⟨-1⟩,
      .assume ⟨3⟩, .solve, .assume ⟨1⟩, .retract ⟨1⟩, .gate .or ⟨3⟩ ⟨-1⟩, .assume ⟨-4⟩,
      .assume ⟨-3⟩, .solve, .retract ⟨-3⟩, .assume ⟨9⟩, .assume ⟨1⟩, .solve] ∧
    (last.circuit.numbering.numCircuit ≤ maxVar ∧ assumptionsOf entries = [⟨-4⟩, ⟨1⟩] ∧
      (beforeSolves [] entries).map assumptionsOf =
        [[⟨3⟩, ⟨-1⟩], [⟨3⟩, ⟨-4⟩, ⟨-3⟩], [⟨-4⟩, ⟨1⟩]] ∧
      questionsOf calls = [[⟨1⟩, ⟨-3⟩], [⟨1⟩, ⟨-4⟩, ⟨-1⟩], [⟨-4⟩, ⟨3⟩]]) ∧
    last.assumedSignals = .ok (assumptionsOf entries) ∧
    Forall₂ (Assumes (Scripted.create [.refute, .refute, .refute]) .standard last)
      (beforeSolves [] entries) (questionsOf calls) := by
  refine exists_transcript_of (by decide +kernel) fun entries calls last transcript _ found => ?_
  exact assumptions_refine transcript found.1

end Session

end CircuitSat
