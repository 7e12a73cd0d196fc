import CircuitSat.Proofs.Encoding
import CircuitSat.Session.Enumeration
import Mathlib.Data.List.Nodup

/-! # Runs of a session

A run is a new session and the requests that it returned from, each with its reply and its trace. An
assertion of several signals is a run of single assertions, and a blocker is a run of gates. So
whatever the other requests keep up is kept up by all.
-/

namespace CircuitSat

/-- A request that may change a session. -/
inductive Operation where
  | input
  | gate (connective : Connective) (left right : Signal)
  | assert (signal : Signal)
  | assertAll (signals : List Signal)
  | assume (signal : Signal)
  | retract (signal : Signal)
  | block (signals : List Signal)
  | solve
  | maxTime (bound : Seconds)
  | maxConflicts (bound : Nat)
deriving DecidableEq, Repr

/-- What a request is answered with. -/
inductive Answer where
  | done
  | signal (signal : Signal)
  | verdict (verdict : Verdict)
deriving DecidableEq, Repr

namespace Operation

variable {ε : Type} [Engine ε]

/-- Carries out a request. -/
def run (session : Session ε) : Operation → Outcome Event (Reply ε Answer)
  | input => do
    let (signal, next) ← session.addInput
    return (.ok (.signal signal), next)
  | gate connective left right => do
    let (reply, next) ← session.addGate connective left right
    return (reply.map .signal, next)
  | assert signal => do
    let (reply, next) ← session.assert signal
    return (reply.map fun () => .done, next)
  | assertAll signals => do
    let (reply, next) ← session.assertAll signals
    return (reply.map fun () => .done, next)
  | assume signal => do
    let (reply, next) ← session.assume signal
    return (reply.map fun () => .done, next)
  | retract signal => do
    let (reply, next) ← session.retract signal
    return (reply.map fun () => .done, next)
  | block signals => do
    let (reply, next) ← session.blocker signals
    return (reply.map .signal, next)
  | solve => do
    let (verdict, next) ← session.solve
    return (.ok (.verdict verdict), next)
  | maxTime bound => return (.ok .done, ← session.setMaxTime bound)
  | maxConflicts bound => return (.ok .done, ← session.setMaxConflicts bound)

/-- The requests that are not made of others. -/
def isPlain : Operation → Bool
  | assertAll _ | block _ => false
  | _ => true

end Operation

/-- A request that a session returned from. -/
structure Entry where
  operation : Operation
  reply : Except SessionError Answer
  trace : List Event

/-- What is true of some requests is true of the entries that they lead to. -/
theorem Entry.forall_of_operations {entries : List Entry} {requests : List Operation}
    (operations : entries.map operation = requests) (property : Operation → Prop)
    (all : ∀ request ∈ requests, property request) :
    ∀ entry ∈ entries, property entry.operation := by
  subst operations
  exact fun entry member => all entry.operation (List.mem_map_of_mem member)

namespace Session

variable {ε : Type} [Engine ε]

/-- The session returns from the request of the entry, with its reply and trace. -/
def Step (session : Session ε) (entry : Entry) (next : Session ε) : Prop :=
  (entry.operation.run session).Returns entry.trace (entry.reply, next)

/-- Requests one after the other. -/
inductive Path : Session ε → List Entry → Session ε → Prop
  | nil (session : Session ε) : Path session [] session
  | cons {session middle last : Session ε} {entry : Entry} {entries : List Entry} :
      Step session entry middle → Path middle entries last → Path session (entry :: entries) last

/-- What a new session on the engine comes to after some requests. -/
inductive Run (engine : ε) (settings : Settings) (entries : List Entry) (last : Session ε) : Prop
  | intro {opening : List Event} {first : Session ε}
      (started : (start engine settings).Returns opening first) (path : Path first entries last) :
      Run engine settings entries last

namespace Path

variable {first middle last : Session ε} {entries more : List Entry}

theorem append (left : Path first entries middle) (right : Path middle more last) :
    Path first (entries ++ more) last := by
  induction left with
  | nil => exact right
  | cons step _ ih => exact .cons step (ih right)

theorem append_iff : Path first (entries ++ more) last ↔
    ∃ middle, Path first entries middle ∧ Path middle more last := by
  constructor
  · intro path
    induction entries generalizing first with
    | nil => exact ⟨first, .nil first, path⟩
    | cons entry rest ih =>
      cases path with
      | cons step path =>
        obtain ⟨middle, front, back⟩ := ih path
        exact ⟨middle, .cons step front, back⟩
  · rintro ⟨middle, front, back⟩
    exact front.append back

theorem one {entry : Entry} (step : Step first entry last) : Path first [entry] last :=
  .cons step (.nil last)

theorem one_iff {entry : Entry} : Path first [entry] last ↔ Step first entry last := by
  constructor
  · intro path
    cases path with
    | cons step rest =>
      cases rest
      exact step
  · exact one

/-- Every request of a path was made in some session. -/
theorem exists_step (path : Path first entries last) {entry : Entry} (member : entry ∈ entries) :
    ∃ session next : Session ε, Step session entry next := by
  induction path with
  | nil => contradiction
  | cons step _ ih =>
    rcases List.mem_cons.mp member with rfl | later
    · exact ⟨_, _, step⟩
    · exact ih later

end Path

/-- Carries out requests one by one and keeps each with its reply and its trace. -/
def replay (session : Session ε) : List Operation → Except Fault (List Entry × Session ε)
  | [] => .ok ([], session)
  | operation :: rest => do
    let outcome := operation.run session
    let (reply, next) ← outcome.result
    let (entries, last) ← next.replay rest
    return (⟨operation, reply, outcome.trace⟩ :: entries, last)

/-- A path is what its requests lead to. -/
theorem replay_eq_ok_iff {session last : Session ε} {operations : List Operation}
    {entries : List Entry} : session.replay operations = .ok (entries, last) ↔
      Path session entries last ∧ entries.map Entry.operation = operations := by
  induction operations generalizing session entries with
  | nil =>
    simp only [replay, Except.ok.injEq, Prod.mk.injEq, List.map_eq_nil_iff]
    constructor
    · rintro ⟨rfl, rfl⟩
      exact ⟨.nil _, rfl⟩
    · rintro ⟨path, rfl⟩
      cases path
      exact ⟨rfl, rfl⟩
  | cons operation rest ih =>
    simp only [replay, bind_eq_ok_iff, pure_eq_ok_iff, Prod.mk.injEq, Prod.exists]
    constructor
    · rintro ⟨reply, next, done, later, _, continued, rfl, rfl⟩
      obtain ⟨path, rfl⟩ := ih.mp continued
      exact ⟨.cons (Outcome.returns_of_result done) path, rfl⟩
    · rintro ⟨path, same⟩
      cases path with
      | nil => contradiction
      | @cons _ next _ entry later step path =>
        obtain ⟨rfl, others⟩ := List.cons.inj same
        have returned : entry.operation.run session = ⟨entry.trace, .ok (entry.reply, next)⟩ := step
        refine ⟨entry.reply, next, by rw [returned], later, last, ih.mpr ⟨path, others⟩, ?_, rfl⟩
        rw [returned]

/-- Carries out requests to a new session. -/
def execute (engine : ε) (settings : Settings) (operations : List Operation) :
    Except Fault (List Entry × Session ε) := do
  let first ← (start engine settings).result
  first.replay operations

/-- A run is what its requests lead to. -/
theorem execute_eq_ok_iff {engine : ε} {settings : Settings} {operations : List Operation}
    {entries : List Entry} {last : Session ε} :
    execute engine settings operations = .ok (entries, last) ↔
      Run engine settings entries last ∧ entries.map Entry.operation = operations := by
  simp only [execute, bind_eq_ok_iff, replay_eq_ok_iff]
  constructor
  · rintro ⟨first, started, path, same⟩
    exact ⟨.intro (Outcome.returns_of_result started) path, same⟩
  · rintro ⟨⟨started, path⟩, same⟩
    exact ⟨_, congrArg Outcome.result started, path, same⟩

end Session

/-! ## What a run has asserted and assumed -/

/-- The signals asserted so far, in the order of their first assertion, and those assumed now. -/
structure Facts where
  asserted : List Signal
  assumed : List Signal
deriving DecidableEq, Repr

/-- The list with the signal at its end, unless it is there already. -/
def noted (signals : List Signal) (signal : Signal) : List Signal :=
  if signal ∈ signals then signals else signals ++ [signal]

theorem mem_noted {signals : List Signal} {signal other : Signal} :
    other ∈ noted signals signal ↔ other ∈ signals ∨ other = signal := by
  unfold noted
  split
  · next known =>
    refine ⟨.inl, ?_⟩
    rintro (before | rfl)
    · exact before
    · exact known
  · rw [List.mem_append, List.mem_singleton]

/-- Noting signals one by one keeps the first occurrence of each. -/
theorem noted_eraseDups (signals : List Signal) (signal : Signal) :
    noted signals.eraseDups signal = (signals ++ [signal]).eraseDups := by
  rw [List.eraseDups_append, noted, List.removeAll]
  by_cases known : signal ∈ signals
  · rw [if_pos (List.mem_eraseDups.mpr known)]
    simp [known]
  · rw [if_neg (mt List.mem_eraseDups.mp known)]
    simp [known, List.eraseDups_cons]

theorem foldl_noted_eraseDups (signals known : List Signal) :
    signals.foldl noted known.eraseDups = (known ++ signals).eraseDups := by
  induction signals generalizing known with
  | nil => rw [List.foldl_nil, List.append_nil]
  | cons signal rest ih =>
    rw [List.foldl_cons, noted_eraseDups, ih, List.append_assoc, List.singleton_append]

theorem nodup_eraseDups {α : Type} [DecidableEq α] (items : List α) : items.eraseDups.Nodup := by
  induction items using List.reverseRecOn with
  | nil => exact List.nodup_nil
  | append_singleton front item ih =>
    rw [List.eraseDups_append, List.removeAll]
    by_cases known : item ∈ front
    · simpa [known] using ih
    · have last : ([item].filter fun other => !front.elem other).eraseDups = [item] := by
        simp [known, List.eraseDups_cons]
      rw [last, ← List.concat_eq_append]
      exact List.Nodup.concat (mt List.mem_eraseDups.mp known) ih

namespace Facts

def none : Facts := ⟨[], []⟩

/-- The facts after a request; one that was turned down changes nothing. -/
def after (facts : Facts) (entry : Entry) : Facts :=
  match entry.reply, entry.operation with
  | .ok _, .assert signal => { facts with asserted := noted facts.asserted signal }
  | .ok _, .assertAll signals => { facts with asserted := signals.foldl noted facts.asserted }
  | .ok _, .assume signal => { facts with assumed := noted facts.assumed signal }
  | .ok _, .retract signal =>
    { facts with assumed := facts.assumed.filter (·.var ≠ signal.var) }
  | _, _ => facts

/-- The facts after some requests to a new session. -/
def of (entries : List Entry) : Facts := entries.foldl after none

/-- All asserted and all assumed signals are true. -/
def Holds (facts : Facts) (assignment : Nat → Bool) : Prop :=
  (∀ signal ∈ facts.asserted, signal.eval assignment = true) ∧
    ∀ signal ∈ facts.assumed, signal.eval assignment = true

end Facts

namespace Entry

/-- The signals that a request asserts; one that was turned down asserts none. -/
def asserts (entry : Entry) : List Signal :=
  match entry.reply, entry.operation with
  | .ok _, .assert signal => [signal]
  | .ok _, .assertAll signals => signals
  | _, _ => []

/-- The signals that a request assumes; one that was turned down assumes none. -/
def assumes (entry : Entry) : List Signal :=
  match entry.reply, entry.operation with
  | .ok _, .assume signal => [signal]
  | _, _ => []

end Entry

/-- All signals asserted by some requests, as often as they were. -/
def everAsserted (entries : List Entry) : List Signal := entries.flatMap Entry.asserts

/-- All signals assumed by some requests, even those that were retracted later. -/
def everAssumed (entries : List Entry) : List Signal := entries.flatMap Entry.assumes

/-- All signals that were ever asserted or assumed. -/
def stated (entries : List Entry) : List Signal := everAsserted entries ++ everAssumed entries

/-- Whether the request is for an input or for a gate. -/
def Operation.builds : Operation → Bool
  | input | gate _ _ _ => true
  | _ => false

/-- The requests for inputs and gates, in order. -/
def constructions (entries : List Entry) : List Operation :=
  (entries.map Entry.operation).filter Operation.builds

/-- The verdict that a solve gave. -/
def Entry.verdict? (entry : Entry) : Option Verdict :=
  match entry.operation, entry.reply with
  | .solve, .ok (.verdict verdict) => some verdict
  | _, _ => none

/-- What the last solve came to, if there was one. -/
def lastVerdict (entries : List Entry) : Verdict :=
  (entries.filterMap Entry.verdict?).getLastD .unknown

/-- How many of the requests were for inputs. -/
def inputCount (entries : List Entry) : Nat := (entries.map Entry.operation).count .input

/-- A gate that was asked for, with its operands in the order of the request, and its output. -/
structure Grant where
  connective : Connective
  left : Signal
  right : Signal
  output : Signal
deriving DecidableEq, Repr

def Grant.signature (grant : Grant) : Signature := .of grant.left grant.connective grant.right

/-- The gate that a log entry tells of. -/
def Event.grant? : Event → Option Grant
  | .log (.gateBuilt connective left right output _) => some ⟨connective, left, right, output⟩
  | _ => none

/-- The gates that a request was granted: the one that it asked for, or those of a blocker. -/
def Entry.grants (entry : Entry) : List Grant :=
  match entry.operation, entry.reply with
  | .gate connective left right, .ok (.signal output) => [⟨connective, left, right, output⟩]
  | .block _, _ => entry.trace.filterMap Event.grant?
  | _, _ => []

/-- All gates that some requests were granted, in order. -/
def grantsOf (entries : List Entry) : List Grant := entries.flatMap Entry.grants

theorem inputCount_append (entries more : List Entry) :
    inputCount (entries ++ more) = inputCount entries + inputCount more := by
  rw [inputCount, List.map_append, List.count_append]
  rfl

theorem grantsOf_append (entries more : List Entry) :
    grantsOf (entries ++ more) = grantsOf entries ++ grantsOf more := List.flatMap_append

theorem Facts.asserted_after (facts : Facts) (entry : Entry) :
    (facts.after entry).asserted = entry.asserts.foldl noted facts.asserted := by
  obtain ⟨operation, reply, _⟩ := entry
  cases reply <;> cases operation <;> rfl

theorem Facts.asserted_foldl_after (facts : Facts) (entries : List Entry) :
    (entries.foldl after facts).asserted = (everAsserted entries).foldl noted facts.asserted := by
  induction entries generalizing facts with
  | nil => rfl
  | cons entry rest ih =>
    rw [List.foldl_cons, ih, asserted_after, ← List.foldl_append]
    rfl

/-- What is asserted by now is what was ever asserted, each signal at its first occurrence. -/
theorem Facts.asserted_of (entries : List Entry) :
    (Facts.of entries).asserted = (everAsserted entries).eraseDups :=
  (asserted_foldl_after none entries).trans (foldl_noted_eraseDups (everAsserted entries) [])

/-- The engine calls of some requests, in order. -/
def callsOfEntries (entries : List Entry) : List Call := entries.flatMap (callsOf ·.trace)

@[simp] theorem callsOfEntries_nil : callsOfEntries [] = [] := rfl

@[simp] theorem callsOfEntries_cons (entry : Entry) (rest : List Entry) :
    callsOfEntries (entry :: rest) = callsOf entry.trace ++ callsOfEntries rest := rfl

@[simp] theorem callsOfEntries_append (entries more : List Entry) :
    callsOfEntries (entries ++ more) = callsOfEntries entries ++ callsOfEntries more :=
  List.flatMap_append

namespace Session

section Transcripts

variable {ε : Type} [Engine ε]

/-- A run together with all calls that it made to the engine, in order. -/
inductive Transcript (engine : ε) (settings : Settings) (entries : List Entry) :
    List Call → Session ε → Prop
  | intro {opening : List Event} {first last : Session ε}
      (started : (start engine settings).Returns opening first) (path : Path first entries last) :
      Transcript engine settings entries (callsOf opening ++ callsOfEntries entries) last

variable {engine : ε} {settings : Settings} {entries : List Entry} {calls : List Call}
  {last : Session ε}

theorem Transcript.run (transcript : Transcript engine settings entries calls last) :
    Run engine settings entries last := by
  obtain ⟨started, path⟩ := transcript
  exact ⟨started, path⟩

theorem run_iff_transcript :
    Run engine settings entries last ↔ ∃ calls, Transcript engine settings entries calls last :=
  ⟨fun ⟨started, path⟩ => ⟨_, .intro started path⟩, fun ⟨_, transcript⟩ => transcript.run⟩

/-- Carries out requests to a new session and keeps all calls to the engine. -/
def transcribe (engine : ε) (settings : Settings) (operations : List Operation) :
    Except Fault (List Entry × List Call × Session ε) := do
  let outcome := start engine settings
  let first ← outcome.result
  let (entries, last) ← first.replay operations
  return (entries, callsOf outcome.trace ++ callsOfEntries entries, last)

/-- A transcript is what its requests lead to. -/
theorem transcribe_eq_ok_iff {operations : List Operation} :
    transcribe engine settings operations = .ok (entries, calls, last) ↔
      Transcript engine settings entries calls last ∧
        entries.map Entry.operation = operations := by
  simp only [transcribe, bind_eq_ok_iff, pure_eq_ok_iff, Prod.mk.injEq, Prod.exists,
    replay_eq_ok_iff]
  constructor
  · rintro ⟨first, started, _, _, ⟨path, same⟩, rfl, rfl, rfl⟩
    exact ⟨.intro (Outcome.returns_of_result started) path, same⟩
  · rintro ⟨⟨started, path⟩, same⟩
    have returned : start engine settings = ⟨_, .ok _⟩ := started
    exact ⟨_, congrArg Outcome.result returned, entries, last, ⟨path, same⟩, rfl,
      by rw [returned], rfl⟩

/-! ## Runs that are computed -/

/-- Requests that can be carried out are a run, with what was decided about it. -/
theorem exists_run (engine : ε) (settings : Settings) (requests : List Operation)
    (found : List Entry → Session ε → Prop) [∀ entries session, Decidable (found entries session)]
    (computed : ((execute engine settings requests).toOption.any fun ran =>
      found ran.1 ran.2) = true) :
    ∃ entries session, Run engine settings entries session ∧
      entries.map Entry.operation = requests ∧ found entries session := by
  obtain ⟨⟨entries, session⟩, done, holds⟩ := exists_ok_of_any computed
  obtain ⟨run, operations⟩ := execute_eq_ok_iff.mp done
  exact ⟨entries, session, run, operations, holds⟩

/-- What follows for a run that can be carried out. -/
theorem exists_run_of {requests : List Operation} {found claimed : List Entry → Session ε → Prop}
    [∀ entries session, Decidable (found entries session)]
    (computed : ((execute engine settings requests).toOption.any fun ran =>
      found ran.1 ran.2) = true)
    (follows : ∀ entries session, Run engine settings entries session →
      entries.map Entry.operation = requests → found entries session → claimed entries session) :
    ∃ entries session, Run engine settings entries session ∧
      entries.map Entry.operation = requests ∧ found entries session ∧
      claimed entries session := by
  obtain ⟨entries, session, run, operations, holds⟩ :=
    exists_run engine settings requests found computed
  exact ⟨entries, session, run, operations, holds,
    follows entries session run operations holds⟩

/-- Requests that can be carried out are a transcript, with what was decided about it. -/
theorem exists_transcript (engine : ε) (settings : Settings) (requests : List Operation)
    (found : List Entry → List Call → Session ε → Prop)
    [∀ entries calls last, Decidable (found entries calls last)]
    (computed : ((transcribe engine settings requests).toOption.any fun ran =>
      found ran.1 ran.2.1 ran.2.2) = true) :
    ∃ entries calls last, Transcript engine settings entries calls last ∧
      entries.map Entry.operation = requests ∧ found entries calls last := by
  obtain ⟨⟨entries, calls, last⟩, done, holds⟩ := exists_ok_of_any computed
  obtain ⟨transcript, operations⟩ := transcribe_eq_ok_iff.mp done
  exact ⟨entries, calls, last, transcript, operations, holds⟩

/-- What follows for a transcript that can be carried out. -/
theorem exists_transcript_of {requests : List Operation}
    {found claimed : List Entry → List Call → Session ε → Prop}
    [∀ entries calls last, Decidable (found entries calls last)]
    (computed : ((transcribe engine settings requests).toOption.any fun ran =>
      found ran.1 ran.2.1 ran.2.2) = true)
    (follows : ∀ entries calls last, Transcript engine settings entries calls last →
      entries.map Entry.operation = requests → found entries calls last →
      claimed entries calls last) :
    ∃ entries calls last, Transcript engine settings entries calls last ∧
      entries.map Entry.operation = requests ∧ found entries calls last ∧
      claimed entries calls last := by
  obtain ⟨entries, calls, last, transcript, operations, holds⟩ :=
    exists_transcript engine settings requests found computed
  exact ⟨entries, calls, last, transcript, operations, holds,
    follows entries calls last transcript operations holds⟩

end Transcripts

end Session

namespace Session

variable {ε : Type}

theorem check_eq_ok_iff {session : Session ε} {signal : Signal} :
    session.check signal = .ok () ↔ session.circuit.numbering.contains signal = true := by
  simp only [check, Circuit.check]
  split
  · next zero => simp [Numbering.contains, zero]
  · split
    · next contained => simp [contained]
    · next missing => simp [missing]

theorem invalid_of_check {session : Session ε} {signal : Signal} {error : SessionError}
    (failed : session.check signal = .error error) :
    session.circuit.numbering.contains signal = false := by
  rw [Bool.eq_false_iff, ne_eq, ← check_eq_ok_iff, failed]
  exact fun same => by contradiction

theorem andThen_returns_iff {α β : Type} {first : Outcome Event (Reply ε α)}
    {second : α → Session ε → Outcome Event (Reply ε β)} {trace : List Event}
    {reply : Except SessionError β} {last : Session ε} :
    (andThen first second).Returns trace (reply, last) ↔
      (∃ error, first.Returns trace (.error error, last) ∧ reply = .error error) ∨
      ∃ before value middle after, first.Returns before (.ok value, middle) ∧
        (second value middle).Returns after (reply, last) ∧ trace = before ++ after := by
  simp only [andThen, Outcome.returns_bind]
  constructor
  · rintro ⟨before, ⟨_ | value, middle⟩, after, head, tail, rfl⟩
    · obtain ⟨rfl, same⟩ := Outcome.returns_pure.mp tail
      cases same
      exact .inl ⟨_, by rwa [List.append_nil], rfl⟩
    · exact .inr ⟨before, value, middle, after, head, tail, rfl⟩
  · rintro (⟨error, head, rfl⟩ | ⟨before, value, middle, after, head, tail, rfl⟩)
    · exact ⟨trace, _, [], head, by simp, by simp⟩
    · exact ⟨before, _, after, head, tail, rfl⟩

/-! ## Replies in another form -/

section Replies

variable {trace : List Event} {session next : Session ε}

theorem returns_reply {α β : Type} {request : Outcome Event (α × Session ε)} (view : α → β)
    {reply : β} :
    (do
      let (value, session) ← request
      return (view value, session) : Outcome Event (β × Session ε)).Returns trace (reply, next) ↔
      ∃ value, request.Returns trace (value, next) ∧ reply = view value := by
  simp only [Outcome.returns_bind, Outcome.returns_pure, Prod.mk.injEq]
  constructor
  · rintro ⟨_, ⟨value, _⟩, _, returned, ⟨rfl, rfl, rfl⟩, rfl⟩
    exact ⟨value, by rwa [List.append_nil], rfl⟩
  · rintro ⟨value, returned, rfl⟩
    exact ⟨trace, (value, next), [], returned, ⟨rfl, rfl, rfl⟩, by rw [List.append_nil]⟩

theorem returns_done {request : Outcome Event (Session ε)} {reply : Except SessionError Answer} :
    (do return (.ok .done, ← request) : Outcome Event (Reply ε Answer)).Returns
      trace (reply, next) ↔ request.Returns trace next ∧ reply = .ok .done := by
  simp only [Outcome.returns_bind, Outcome.returns_pure, Prod.mk.injEq]
  constructor
  · rintro ⟨_, _, _, returned, ⟨rfl, rfl, rfl⟩, rfl⟩
    exact ⟨by rwa [List.append_nil], rfl⟩
  · rintro ⟨returned, rfl⟩
    exact ⟨trace, next, [], returned, ⟨rfl, rfl, rfl⟩, by rw [List.append_nil]⟩

variable [Engine ε] {reply : Except SessionError Answer}

theorem step_input : Step session ⟨.input, reply, trace⟩ next ↔
    ∃ signal, session.addInput.Returns trace (signal, next) ∧ reply = .ok (.signal signal) :=
  returns_reply fun signal => (.ok (.signal signal) : Except SessionError Answer)

theorem step_solve : Step session ⟨.solve, reply, trace⟩ next ↔
    ∃ verdict, session.solve.Returns trace (verdict, next) ∧ reply = .ok (.verdict verdict) :=
  returns_reply fun verdict => (.ok (.verdict verdict) : Except SessionError Answer)

end Replies

end Session

end CircuitSat
