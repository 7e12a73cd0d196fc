import CircuitSat.Engine

/-! # Operations that return

An operation returns a value after a trace if no fault ended it. Statements of this form are taken
apart along the operation, and the calls to an engine are read off the trace.
-/

namespace CircuitSat

variable {α β γ δ : Type}

namespace Outcome

/-- The operation ends without a fault, with this trace and this value. -/
def Returns (outcome : Outcome β α) (trace : List β) (value : α) : Prop :=
  outcome = ⟨trace, .ok value⟩

theorem returns_of_result {outcome : Outcome β α} {value : α}
    (ended : outcome.result = .ok value) : outcome.Returns outcome.trace value := by
  rw [Returns, ← ended]

theorem Returns.unique {outcome : Outcome β α} {trace other : List β} {value another : α}
    (left : outcome.Returns trace value) (right : outcome.Returns other another) :
    trace = other ∧ value = another := by
  have same := left.symm.trans right
  simp only [Outcome.mk.injEq, Except.ok.injEq] at same
  exact same

@[simp] theorem returns_pure {value result : α} {trace : List β} :
    (pure value : Outcome β α).Returns trace result ↔ trace = [] ∧ result = value := by
  change (⟨[], .ok value⟩ : Outcome β α) = ⟨trace, .ok result⟩ ↔ _
  simp only [Outcome.mk.injEq, Except.ok.injEq]
  constructor <;> rintro ⟨rfl, rfl⟩ <;> exact ⟨rfl, rfl⟩

@[simp] theorem returns_bind {first : Outcome β α} {second : α → Outcome β γ} {trace : List β}
    {result : γ} :
    (first >>= second).Returns trace result ↔
      ∃ before value after, first.Returns before value ∧ (second value).Returns after result ∧
        trace = before ++ after := by
  change first.andThen second = ⟨trace, .ok result⟩ ↔ _
  obtain ⟨before, outcome⟩ := first
  constructor
  · intro returned
    cases outcome with
    | error fault => simp [andThen] at returned
    | ok value =>
      simp only [andThen, Outcome.mk.injEq] at returned
      refine ⟨before, value, (second value).trace, rfl, ?_, returned.1.symm⟩
      rw [Returns, ← returned.2]
  · rintro ⟨_, value, after, head, tail, rfl⟩
    simp only [Returns, Outcome.mk.injEq] at head
    obtain ⟨rfl, rfl⟩ := head
    simp only [Returns] at tail
    simp only [andThen, tail]

theorem Returns.bind {first : Outcome β α} {second : α → Outcome β γ} {before after : List β}
    {value : α} {result : γ} (head : first.Returns before value)
    (tail : (second value).Returns after result) :
    (first >>= second).Returns (before ++ after) result :=
  returns_bind.mpr ⟨before, value, after, head, tail, rfl⟩

@[simp] theorem returns_emit {event : β} {trace : List β} {result : Unit} :
    (emit event).Returns trace result ↔ trace = [event] := by
  simp only [Returns, emit, Outcome.mk.injEq, eq_comm (a := [event]), and_true]

theorem returns_emit_self (event : β) : (emit event).Returns [event] () := rfl

@[simp] theorem returns_fault {fault : Fault} {trace : List β} {result : α} :
    ¬(Outcome.fault fault : Outcome β α).Returns trace result := by
  simp [Returns, Outcome.fault]

@[simp] theorem returns_lift {attempt : Except Fault α} {trace : List β} {result : α} :
    (liftM attempt : Outcome β α).Returns trace result ↔ trace = [] ∧ attempt = .ok result := by
  change (⟨[], attempt⟩ : Outcome β α) = ⟨trace, .ok result⟩ ↔ _
  simp only [Outcome.mk.injEq, eq_comm (a := ([] : List β))]

@[simp] theorem returns_mapTrace {outcome : Outcome β α} {view : β → γ} {trace : List γ}
    {result : α} :
    (outcome.mapTrace view).Returns trace result ↔
      ∃ before, outcome.Returns before result ∧ trace = before.map view := by
  obtain ⟨before, outcome⟩ := outcome
  simp only [Returns, mapTrace, Outcome.mk.injEq, and_assoc, eq_comm (a := trace)]
  constructor
  · rintro ⟨same, rfl⟩
    exact ⟨_, rfl, rfl, same⟩
  · rintro ⟨_, rfl, rfl, same⟩
    exact ⟨same, rfl⟩

/-- What no step changes is the same after all of them. -/
theorem foldlM_keeps {ι κ : Type} {step : α → ι → Outcome β α} (view : α → κ)
    (keeps : ∀ {state next : α} {item : ι} {trace : List β},
      (step state item).Returns trace next → view next = view state)
    {items : List ι} {state next : α} {trace : List β}
    (returned : (items.foldlM step state).Returns trace next) : view next = view state := by
  induction items generalizing state trace with
  | nil =>
    rw [List.foldlM_nil, returns_pure] at returned
    rw [returned.2]
  | cons item rest ih =>
    rw [List.foldlM_cons, returns_bind] at returned
    obtain ⟨_, middle, _, first, later, _⟩ := returned
    exact (ih later).trans (keeps first)

theorem andThen_assoc (first : Outcome β α) (second : α → Outcome β γ) (third : γ → Outcome β δ) :
    (first.andThen second).andThen third =
      first.andThen fun value => (second value).andThen third := by
  obtain ⟨trace, result⟩ := first
  cases result with
  | error fault => rfl
  | ok value =>
    simp only [andThen]
    cases (second value).result with
    | error fault => rfl
    | ok next => simp only [List.append_assoc]

theorem andThen_value (first : Outcome β α) : first.andThen value = first := by
  obtain ⟨trace, result⟩ := first
  cases result with
  | error fault => rfl
  | ok value => simp only [andThen, Outcome.value, List.append_nil]

theorem value_andThen (result : α) (second : α → Outcome β γ) :
    (value result).andThen second = second result := rfl

instance : LawfulMonad (Outcome β) :=
  LawfulMonad.mk' _ andThen_value value_andThen andThen_assoc

theorem returns_map {outcome : Outcome β α} {view : α → γ} {trace : List β} {result : γ} :
    (view <$> outcome).Returns trace result ↔
      ∃ value, outcome.Returns trace value ∧ view value = result := by
  rw [map_eq_pure_bind]
  simp only [returns_bind, returns_pure]
  constructor
  · rintro ⟨before, value, _, returned, ⟨rfl, rfl⟩, rfl⟩
    rw [List.append_nil]
    exact ⟨value, returned, rfl⟩
  · rintro ⟨value, returned, rfl⟩
    exact ⟨trace, value, [], returned, ⟨rfl, rfl⟩, (List.append_nil trace).symm⟩

/-- What commutes with every step commutes with all of them. -/
theorem map_foldlM {ι : Type} {step : α → ι → Outcome β α} {image : γ → ι → Outcome β γ}
    (view : α → γ) (commutes : ∀ state item, view <$> step state item = image (view state) item)
    (items : List ι) (state : α) :
    view <$> items.foldlM step state = items.foldlM image (view state) := by
  induction items generalizing state with
  | nil => rw [List.foldlM_nil, List.foldlM_nil, map_pure]
  | cons item rest ih =>
    rw [List.foldlM_cons, List.foldlM_cons, map_bind, ← commutes, map_eq_pure_bind, bind_assoc]
    simp only [ih, pure_bind]

end Outcome

@[simp] theorem bind_eq_ok_iff {first : Except β α} {second : α → Except β γ} {result : γ} :
    (first >>= second) = .ok result ↔ ∃ value, first = .ok value ∧ second value = .ok result := by
  cases first with
  | error fault => simp [bind, Except.bind]
  | ok value => simp [bind, Except.bind]

@[simp] theorem pure_eq_ok_iff {value result : α} :
    (pure value : Except β α) = .ok result ↔ value = result := by
  simp [pure, Except.pure]

/-- What was computed is there, with what was decided about it. -/
theorem exists_ok_of_any {result : Except β α} {found : α → Prop} [DecidablePred found]
    (computed : (result.toOption.any fun value => found value) = true) :
    ∃ value, result = .ok value ∧ found value := by
  cases result with
  | error fault => contradiction
  | ok value => exact ⟨value, rfl, of_decide_eq_true computed⟩

/-- An operation that can be computed returns. -/
theorem Outcome.exists_returns {outcome : Outcome β α} {found : α → Prop} [DecidablePred found]
    (computed : (outcome.result.toOption.any fun value => found value) = true) :
    ∃ value, outcome.Returns outcome.trace value ∧ found value := by
  obtain ⟨value, ended, holds⟩ := exists_ok_of_any computed
  exact ⟨value, returns_of_result ended, holds⟩

/-- The engine calls of a trace, in order. -/
def callsOf (trace : List Event) : List Call := trace.filterMap Event.call?

@[simp] theorem callsOf_nil : callsOf [] = [] := rfl

@[simp] theorem callsOf_append (before after : List Event) :
    callsOf (before ++ after) = callsOf before ++ callsOf after := List.filterMap_append

@[simp] theorem callsOf_log (entry : LogEntry) (rest : List Event) :
    callsOf (.log entry :: rest) = callsOf rest := rfl

@[simp] theorem callsOf_call (call : Call) (rest : List Event) :
    callsOf (.call call :: rest) = call :: callsOf rest := rfl

@[simp] theorem callsOf_map_log (entries : List LogEntry) :
    callsOf (entries.map Event.log) = [] := by
  induction entries with
  | nil => rfl
  | cons entry rest ih => exact ih

namespace Call

@[simp] theorem returns_record {call : Call} {reply : Outcome LogEntry α} {trace : List Event}
    {result : α} :
    (call.record reply).Returns trace result ↔
      ∃ entries, reply.Returns entries result ∧ trace = .call call :: entries.map .log := by
  simp only [record, Outcome.returns_bind, Outcome.returns_emit, Outcome.returns_mapTrace]
  constructor
  · rintro ⟨_, _, _, rfl, ⟨entries, returned, rfl⟩, rfl⟩
    exact ⟨entries, returned, rfl⟩
  · rintro ⟨entries, returned, rfl⟩
    exact ⟨_, (), _, rfl, ⟨entries, returned, rfl⟩, rfl⟩

end Call

end CircuitSat
