import CircuitSat.Drawing
import CircuitSat.Engine.Scripted
import CircuitSat.Proofs.Circuit.Cone
import CircuitSat.Proofs.Session.Solving

/-! # A drawing shows exactly the cone

The search that a drawing starts from sees the cone of its roots and nothing else, each variable
once. So each variable of the cone has one node, and whatever an edge leads to has a node. The text
is put together anew here, from the inputs and the gates of the cone and from the roots that are
valid, and the text that is drawn turns out to be this one.
-/

namespace CircuitSat

namespace Netlist

variable {netlist : Netlist} {roots : List Signal} {seen : Std.TreeSet Nat} {var : Nat}
  {queue rest : List Nat}

/-- A search that is on its way. What it has seen and what waits lies in the cone of the roots, and
the roots are among it, and so are the operands of each gate whose output was seen. -/
structure Searches (netlist : Netlist) (roots : List Signal) (seen : Std.TreeSet Nat)
    (queue : List Nat) : Prop where
  inside {var : Nat} (met : var ∈ seen ∨ var ∈ queue) : netlist.InCone roots var
  rooted {signal : Signal} (member : signal ∈ roots) : signal.var ∈ seen ∨ signal.var ∈ queue
  closed {gate : Gate} {signal : Signal} (member : gate ∈ netlist.gates)
    (passed : gate.output.var ∈ seen) (input : signal ∈ gate.inputs) :
    signal.var ∈ seen ∨ signal.var ∈ queue

namespace Searches

theorem start (netlist : Netlist) (roots : List Signal) :
    netlist.Searches roots ∅ (roots.map Signal.var) where
  inside met := by
    obtain ⟨signal, member, rfl⟩ := List.mem_map.mp (met.resolve_left Std.TreeSet.not_mem_emptyc)
    exact .root member
  rooted member := .inr (List.mem_map_of_mem member)
  closed _ passed := absurd passed Std.TreeSet.not_mem_emptyc

/-- A variable that waits in vain, since it was seen before. -/
theorem skip (searches : netlist.Searches roots seen (var :: rest)) (known : var ∈ seen) :
    netlist.Searches roots seen rest := by
  have kept {other : Nat} (met : other ∈ seen ∨ other ∈ var :: rest) :
      other ∈ seen ∨ other ∈ rest := by
    rcases met with before | waiting
    · exact .inl before
    · rcases List.mem_cons.mp waiting with rfl | later
      · exact .inl known
      · exact .inr later
  exact ⟨fun met => searches.inside (met.imp_right (List.mem_cons_of_mem _)),
    fun member => kept (searches.rooted member),
    fun member passed input => kept (searches.closed member passed input)⟩

/-- A variable is seen, and the operands of its gate wait from now on. -/
theorem pass (searches : netlist.Searches roots seen (var :: rest)) {more : List Nat}
    (inside : ∀ other ∈ more, netlist.InCone roots other)
    (operands : ∀ gate ∈ netlist.gates, gate.output.var = var →
      ∀ signal ∈ gate.inputs, signal.var ∈ more) :
    netlist.Searches roots (seen.insert var) (more ++ rest) := by
  have kept {other : Nat} (met : other ∈ seen ∨ other ∈ var :: rest) :
      other ∈ seen.insert var ∨ other ∈ more ++ rest := by
    rw [Std.TreeSet.mem_insert, Std.LawfulEqCmp.compare_eq_iff_eq, List.mem_append]
    rcases met with before | waiting
    · exact .inl (.inr before)
    · rcases List.mem_cons.mp waiting with rfl | later
      · exact .inl (.inl rfl)
      · exact .inr (.inr later)
  refine ⟨fun {other} met => ?_, fun member => kept (searches.rooted member),
    fun {gate signal} member passed input => ?_⟩
  · rw [Std.TreeSet.mem_insert, Std.LawfulEqCmp.compare_eq_iff_eq, List.mem_append] at met
    rcases met with (rfl | before) | new | later
    · exact searches.inside (.inr List.mem_cons_self)
    · exact searches.inside (.inl before)
    · exact inside other new
    · exact searches.inside (.inr (List.mem_cons_of_mem _ later))
  · rw [Std.TreeSet.mem_insert, Std.LawfulEqCmp.compare_eq_iff_eq] at passed
    rcases passed with here | before
    · exact .inr (List.mem_append_left _ (operands gate member here.symm signal input))
    · exact kept (searches.closed member before input)

/-- A search that is over has seen the cone. -/
theorem mem_iff (searches : netlist.Searches roots seen []) :
    var ∈ seen ↔ netlist.InCone roots var := by
  constructor
  · exact fun passed => searches.inside (.inl passed)
  · intro inside
    induction inside with
    | root member => exact (searches.rooted member).resolve_right List.not_mem_nil
    | operand member _ input ih =>
      exact (searches.closed member ih input).resolve_right List.not_mem_nil

theorem mem_below_iff (searches : netlist.Searches roots seen queue) (indexed : netlist.Indexed) :
    var ∈ netlist.below seen queue ↔ netlist.InCone roots var := by
  fun_induction below netlist seen queue with
  | case1 => exact searches.mem_iff
  | case2 seen next rest known ih =>
    exact ih (searches.skip (Std.TreeSet.mem_iff_contains.mpr known))
  | case3 seen next rest _ undefined ih =>
    refine ih (searches.pass (List.forall_mem_nil _) fun gate member here => ?_)
    have found := indexed.definition?_eq_some_iff.mpr ⟨member, here⟩
    rw [undefined] at found
    contradiction
  | case4 seen next rest _ gate defined ih =>
    obtain ⟨member, rfl⟩ := indexed.definition?_eq_some_iff.mp defined
    have here := searches.inside (.inr List.mem_cons_self)
    refine ih (searches.pass ?_ fun other among same => ?_)
    · exact List.forall_mem_map.mpr fun signal input => .operand member here input
    · obtain rfl := indexed.eq_of_output among member same
      exact fun signal input => List.mem_map_of_mem input

end Searches

/-- The search finds the cone. -/
theorem Indexed.mem_cone_iff (indexed : netlist.Indexed) :
    var ∈ netlist.cone roots ↔ netlist.InCone roots var := by
  rw [cone, Std.TreeSet.mem_toList]
  exact (Searches.start netlist roots).mem_below_iff indexed

theorem Indexed.definition?_eq_none_iff (indexed : netlist.Indexed) :
    netlist.definition? var = none ↔ ∀ gate ∈ netlist.gates, gate.output.var ≠ var := by
  simp only [Option.eq_none_iff_forall_ne_some, ne_eq, indexed.definition?_eq_some_iff, not_and]

theorem cone_ascending (netlist : Netlist) (roots : List Signal) :
    (netlist.cone roots).Pairwise (· < ·) :=
  Std.TreeSet.ordered_toList.imp fun before => Nat.compare_eq_lt.mp before

end Netlist

/-- Nothing but variables that were handed out is in the cone of such. -/
theorem Circuit.WellFormed.inCone_bound {circuit : Circuit} (valid : circuit.WellFormed)
    {roots : List Signal} (handedOut : ∀ root ∈ roots, root.var ≤ circuit.numbering.numCircuit)
    {var : Nat} (inside : circuit.netlist.InCone roots var) :
    var ≤ circuit.numbering.numCircuit := by
  induction inside with
  | root member => exact handedOut _ member
  | @operand gate signal member _ input ih =>
    have wired := valid.wired member
    simp only [Gate.inputs, List.mem_cons, List.not_mem_nil, or_false] at input
    rcases input with rfl | rfl
    · exact Nat.le_trans (Nat.le_of_lt wired.left.2) wired.output
    · exact Nat.le_trans (Nat.le_of_lt wired.right.2) wired.output

/-! ## Pictures -/

namespace Drawing

/-- The nodes of a drawing and what is known about them. -/
structure Picture where
  inputs : List Nat
  gates : List Gate
  roots : List Signal
  /-- The value shown beside a variable. -/
  value : Nat → Option Bool

namespace Picture

/-- The variables that have a node, in the order of the nodes. -/
def nodes (picture : Picture) : List Nat :=
  picture.inputs ++ picture.gates.map (·.output.var)

/-- The variables that edges lead to, in the order of the edges. -/
def targets (picture : Picture) : List Nat :=
  picture.gates.flatMap (·.inputs.map Signal.var) ++ picture.roots.map Signal.var

/-- The name of a variable, with its value if one is shown. -/
def labelText (picture : Picture) (var : Nat) : String :=
  "v" ++ toString var ++
    (picture.value var).elim "" fun value => " = " ++ if value then "1" else "0"

def inputText (picture : Picture) (style : Style) (var : Nat) : String :=
  toString var ++ " [shape=" ++ style.inputShape ++ ", label=\"" ++ picture.labelText var ++
    "\"];\n"

/-- The edge to an operand, in the style of negated ones if it is negated. -/
def wireText (style : Style) (var : Nat) (operand : Signal) : String :=
  toString var ++ " -> " ++ toString operand.var ++
    (if operand.negated then " [style=" ++ style.negatedEdge ++ ", arrowhead=odot]" else "") ++
    ";\n"

/-- The node of a gate, and right after it the edges to its left and to its right operand. -/
def gateText (picture : Picture) (style : Style) (gate : Gate) : String :=
  toString gate.output.var ++ " [shape=" ++ style.gateShape ++ ", label=\"" ++
    picture.labelText gate.output.var ++ "\\n" ++ gate.connective.name ++ "\"];\n" ++
    wireText style gate.output.var gate.left ++ wireText style gate.output.var gate.right

def rootText (style : Style) (index : Nat) (root : Signal) : String :=
  "r" ++ toString index ++ " [shape=" ++ style.rootShape ++ ", label=\"" ++
    (if root.negated then "~" else "") ++ "v" ++ toString root.var ++ "\"];\n"

/-- The edge from a root to its variable, marked if the root is negated. -/
def targetText (index : Nat) (root : Signal) : String :=
  "r" ++ toString index ++ " -> " ++ toString root.var ++
    (if root.negated then " [arrowhead=odot]" else "") ++ ";\n"

/-- Inputs in a block of their own, then gates, then roots in a block and the edges from them. -/
def text (picture : Picture) (style : Style) : String :=
  "digraph \x7b\n\x7b rank=sink\n" ++ String.join (picture.inputs.map (picture.inputText style)) ++
    "\x7d\n" ++ String.join (picture.gates.map (picture.gateText style)) ++
    "\x7b rank=source\n" ++ String.join (picture.roots.mapIdx (rootText style)) ++ "\x7d\n" ++
    String.join (picture.roots.mapIdx targetText) ++ "\x7d\n"

/-- The picture shows the cone of the valid ones among the roots: each variable of it in one node
and no others, and values where they are asked for and known. -/
structure Shows {ε : Type} (picture : Picture) (session : Session ε) (roots : List Signal)
    (style : Style) : Prop where
  roots : picture.roots =
    roots.filter fun root => 0 < root.var ∧ root.var ≤ session.circuit.numbering.numCircuit
  inputs (var : Nat) : var ∈ picture.inputs ↔
    session.circuit.netlist.InCone picture.roots var ∧
      ∀ gate ∈ session.circuit.netlist.gates, gate.output.var ≠ var
  gates (gate : Gate) : gate ∈ picture.gates ↔
    gate ∈ session.circuit.netlist.gates ∧
      session.circuit.netlist.InCone picture.roots gate.output.var
  inputsAscend : picture.inputs.Pairwise (· < ·)
  gatesAscend : picture.gates.Pairwise (·.output.var < ·.output.var)
  node {var : Nat} (inside : session.circuit.netlist.InCone picture.roots var) :
    picture.nodes.count var = 1
  noOther {var : Nat} (outside : ¬session.circuit.netlist.InCone picture.roots var) :
    picture.nodes.count var = 0
  reaches {var : Nat} (target : var ∈ picture.targets) : picture.nodes.count var = 1
  valued {var : Nat} {value : Bool} : picture.value var = some value ↔
    style.showValues = true ∧ session.value (.ofVar var) = .ok value

end Picture

/-! ## From lines to text -/

/-- Some lines one after the other. -/
def written (style : Style) (lines : List Line) : String :=
  String.join (lines.map fun line => line.text style ++ "\n")

variable {style : Style}

theorem written_append (lines more : List Line) :
    written style (lines ++ more) = written style lines ++ written style more := by
  rw [written, List.map_append, String.join_append]
  rfl

theorem written_cons (line : Line) (rest : List Line) :
    written style (line :: rest) = line.text style ++ "\n" ++ written style rest :=
  String.join_cons

theorem written_one (line : Line) : written style [line] = line.text style ++ "\n" := by
  rw [written_cons]
  exact String.append_empty

theorem written_flatMap {α : Type} (lines : α → List Line) (items : List α) :
    written style (items.flatMap lines) =
      String.join (items.map fun item => written style (lines item)) := by
  induction items with
  | nil => rfl
  | cons item rest ih =>
    rw [List.flatMap_cons, written_append, ih, List.map_cons, String.join_cons]

theorem written_mapIdx {α : Type} (line : Nat → α → Line) (items : List α) :
    written style (items.mapIdx line) =
      String.join (items.mapIdx fun index item => written style [line index item]) := by
  simp only [written_one]
  rw [written]
  congr 1
  ext1 index
  rw [List.getElem?_map, List.getElem?_mapIdx, List.getElem?_mapIdx, Option.map_map]
  rfl

namespace Picture

/-- The node of a gate and its two edges. -/
def gateLines (picture : Picture) (gate : Gate) : List Line :=
  [.gate gate.output.var (picture.value gate.output.var) gate.connective,
    .wire gate.output.var gate.left, .wire gate.output.var gate.right]

def lines (picture : Picture) : List Line :=
  [.openGraph, .openSink] ++ picture.inputs.flatMap (fun var => [.input var (picture.value var)]) ++
    [.close] ++ picture.gates.flatMap picture.gateLines ++ [.openSource] ++
    picture.roots.mapIdx .root ++ [.close] ++ picture.roots.mapIdx .target ++ [.close]

variable {picture : Picture}

theorem label_eq (var : Nat) : label var (picture.value var) = picture.labelText var := by
  unfold label labelText
  cases picture.value var with
  | none => rfl
  | some value => cases value <;> rfl

theorem written_input (var : Nat) :
    written style [.input var (picture.value var)] = picture.inputText style var := by
  rw [written_one, Line.text, node, label_eq, inputText]
  simp only [String.append_assoc]
  rfl

theorem written_wire (var : Nat) (operand : Signal) :
    written style [.wire var operand] = wireText style var operand := by
  rw [written_one, Line.text, edge, wireText]
  simp only [String.append_assoc]
  rfl

theorem written_gateLines (gate : Gate) :
    written style (picture.gateLines gate) = picture.gateText style gate := by
  rw [gateLines, written_cons, ← List.singleton_append, written_append, written_wire, written_wire,
    Line.text, node, label_eq, gateText]
  simp only [String.append_assoc]
  rfl

theorem written_root (index : Nat) (root : Signal) :
    written style [.root index root] = rootText style index root := by
  rw [written_one, Line.text, node, rootText, Signal.text]
  cases root.negated <;> simp only [String.append_assoc] <;> rfl

theorem written_target (index : Nat) (root : Signal) :
    written style [.target index root] = targetText index root := by
  rw [written_one, Line.text, edge, targetText]
  simp only [String.append_assoc]
  rfl

/-- The text of a picture is that of its lines. -/
theorem written_lines (picture : Picture) (style : Style) :
    written style picture.lines = picture.text style := by
  have opening : written style [.openGraph, .openSink] = "digraph \x7b\n\x7b rank=sink\n" := rfl
  have ending : written style [.close] = "\x7d\n" := rfl
  have source : written style [.openSource] = "\x7b rank=source\n" := rfl
  simp only [lines, written_append, written_flatMap, written_mapIdx, opening, ending, source,
    written_input, written_gateLines, written_root, written_target]
  rfl

end Picture

end Drawing

/-! ## The drawing of a session -/

namespace Session

open Drawing

variable {ε : Type} {session : Session ε} {style : Style} {roots : List Signal}

/-- The picture of the cone of the roots that are valid. -/
def picture (session : Session ε) (roots : List Signal) (style : Style) : Picture :=
  let valid := roots.filter fun root => (session.check root).isOk
  let cone := session.circuit.netlist.cone valid
  { inputs := cone.filter fun var => (session.circuit.netlist.definition? var).isNone
    gates := cone.filterMap session.circuit.netlist.definition?
    roots := valid
    value := session.shownValue style }

theorem check_isOk_iff {signal : Signal} : (session.check signal).isOk = true ↔
    0 < signal.var ∧ signal.var ≤ session.circuit.numbering.numCircuit := by
  rw [← Numbering.contains_iff, ← check_eq_ok_iff]
  cases session.check signal with
  | error => simp [Except.isOk, Except.toBool]
  | ok => simp [Except.isOk, Except.toBool]

theorem shownValue_eq_some_iff {var : Nat} {value : Bool} :
    session.shownValue style var = some value ↔
      style.showValues = true ∧ session.value (.ofVar var) = .ok value := by
  rw [shownValue]
  cases style.showValues with
  | false => simp
  | true => cases session.value (.ofVar var) <;> simp [Except.toOption]

/-- A variable that fits has the gate that the netlist defines it by. -/
theorem gate?_ofVar {var : Nat} (small : var ≤ maxVar) :
    session.gate? (.ofVar var) = session.circuit.netlist.definition? var := by
  rw [gate?, Circuit.gate?, Signal.var_ofVar small]

theorem flatMap_inputLines {vars : List Nat} (small : ∀ var ∈ vars, var ≤ maxVar) :
    vars.flatMap (session.inputLines style) =
      (vars.filter fun var => (session.circuit.netlist.definition? var).isNone).flatMap fun var =>
        [.input var (session.shownValue style var)] := by
  induction vars with
  | nil => rfl
  | cons var rest ih =>
    obtain ⟨head, others⟩ := List.forall_mem_cons.mp small
    rw [List.flatMap_cons, ih others, inputLines, gate?_ofVar head, List.filter_cons]
    cases session.circuit.netlist.definition? var with
    | none => rfl
    | some gate => rfl

theorem flatMap_gateLines (roots : List Signal) (indexed : session.circuit.netlist.Indexed)
    {vars : List Nat} (small : ∀ var ∈ vars, var ≤ maxVar) :
    vars.flatMap (session.gateLines style) =
      (vars.filterMap session.circuit.netlist.definition?).flatMap
        (session.picture roots style).gateLines := by
  induction vars with
  | nil => rfl
  | cons var rest ih =>
    obtain ⟨head, others⟩ := List.forall_mem_cons.mp small
    rw [List.flatMap_cons, ih others, gateLines, gate?_ofVar head, List.filterMap_cons]
    cases defined : session.circuit.netlist.definition? var with
    | none => rfl
    | some gate =>
      obtain ⟨_, rfl⟩ := indexed.definition?_eq_some_iff.mp defined
      rfl

theorem drawing_eq_lines (indexed : session.circuit.netlist.Indexed)
    (small : ∀ var ∈ session.circuit.netlist.cone (session.picture roots style).roots,
      var ≤ maxVar) :
    session.drawing roots style = (session.picture roots style).lines := by
  simp only [picture] at small
  rw [drawing]
  simp only [flatMap_inputLines small, flatMap_gateLines roots indexed small]
  rfl

theorem picture_valid {root : Signal} (member : root ∈ (session.picture roots style).roots) :
    root.var ≤ session.circuit.numbering.numCircuit :=
  (check_isOk_iff.mp (List.mem_filter.mp member).2).2

theorem mem_picture_inputs_iff (indexed : session.circuit.netlist.Indexed) {var : Nat} :
    var ∈ (session.picture roots style).inputs ↔
      session.circuit.netlist.InCone (session.picture roots style).roots var ∧
        ∀ gate ∈ session.circuit.netlist.gates, gate.output.var ≠ var := by
  rw [← indexed.mem_cone_iff, ← indexed.definition?_eq_none_iff, ← Option.isNone_iff_eq_none]
  exact List.mem_filter

theorem mem_picture_gates_iff (indexed : session.circuit.netlist.Indexed) {gate : Gate} :
    gate ∈ (session.picture roots style).gates ↔ gate ∈ session.circuit.netlist.gates ∧
      session.circuit.netlist.InCone (session.picture roots style).roots gate.output.var := by
  refine List.mem_filterMap.trans ?_
  simp only [indexed.definition?_eq_some_iff]
  constructor
  · rintro ⟨_, inside, member, rfl⟩
    exact ⟨member, indexed.mem_cone_iff.mp inside⟩
  · rintro ⟨member, inside⟩
    exact ⟨_, indexed.mem_cone_iff.mpr inside, member, rfl⟩

theorem picture_inputs_ascend (session : Session ε) (roots : List Signal) (style : Style) :
    (session.picture roots style).inputs.Pairwise (· < ·) :=
  (session.circuit.netlist.cone_ascending _).filter _

theorem picture_gates_ascend (indexed : session.circuit.netlist.Indexed) (roots : List Signal)
    (style : Style) :
    (session.picture roots style).gates.Pairwise (·.output.var < ·.output.var) := by
  refine (session.circuit.netlist.cone_ascending _).filterMap _ fun var other before gate defined
    next following => ?_
  obtain ⟨_, rfl⟩ := indexed.definition?_eq_some_iff.mp defined
  obtain ⟨_, rfl⟩ := indexed.definition?_eq_some_iff.mp following
  exact before

/-- The variables of the cone have a node each, an input or the output of a gate. -/
theorem mem_picture_nodes_iff (indexed : session.circuit.netlist.Indexed) {var : Nat} :
    var ∈ (session.picture roots style).nodes ↔
      session.circuit.netlist.InCone (session.picture roots style).roots var := by
  simp only [Picture.nodes, List.mem_append, List.mem_map, mem_picture_inputs_iff indexed,
    mem_picture_gates_iff indexed]
  constructor
  · rintro (⟨inside, _⟩ | ⟨gate, ⟨_, inside⟩, rfl⟩)
    · exact inside
    · exact inside
  · intro inside
    by_cases defined : ∃ gate ∈ session.circuit.netlist.gates, gate.output.var = var
    · obtain ⟨gate, member, rfl⟩ := defined
      exact .inr ⟨gate, ⟨member, inside⟩, rfl⟩
    · exact .inl ⟨inside, fun gate member here => defined ⟨gate, member, here⟩⟩

theorem nodup_picture_nodes (indexed : session.circuit.netlist.Indexed) (roots : List Signal)
    (style : Style) : (session.picture roots style).nodes.Nodup := by
  refine List.nodup_append.mpr ⟨?_, ?_, fun var input other output same => ?_⟩
  · exact (session.picture_inputs_ascend roots style).imp Nat.ne_of_lt
  · refine List.pairwise_map.mpr ?_
    exact (picture_gates_ascend indexed roots style).imp Nat.ne_of_lt
  · obtain ⟨gate, member, rfl⟩ := List.mem_map.mp output
    obtain ⟨present, _⟩ := (mem_picture_gates_iff indexed).mp member
    exact ((mem_picture_inputs_iff indexed).mp input).2 gate present same.symm

/-- Edges lead into the cone. -/
theorem inCone_of_mem_targets (indexed : session.circuit.netlist.Indexed) {var : Nat}
    (target : var ∈ (session.picture roots style).targets) :
    session.circuit.netlist.InCone (session.picture roots style).roots var := by
  rcases List.mem_append.mp target with wire | marker
  · obtain ⟨gate, member, among⟩ := List.mem_flatMap.mp wire
    obtain ⟨signal, input, rfl⟩ := List.mem_map.mp among
    obtain ⟨present, inside⟩ := (mem_picture_gates_iff indexed).mp member
    exact .operand present inside input
  · obtain ⟨root, member, rfl⟩ := List.mem_map.mp marker
    exact .root member

theorem picture_shows (indexed : session.circuit.netlist.Indexed) (roots : List Signal)
    (style : Style) : (session.picture roots style).Shows session roots style where
  roots := List.filter_congr fun root _ => by
    rw [Bool.eq_iff_iff, check_isOk_iff, decide_eq_true_eq]
  inputs _ := mem_picture_inputs_iff indexed
  gates _ := mem_picture_gates_iff indexed
  inputsAscend := session.picture_inputs_ascend roots style
  gatesAscend := picture_gates_ascend indexed roots style
  node inside :=
    List.count_eq_one_of_mem (nodup_picture_nodes indexed roots style)
      ((mem_picture_nodes_iff indexed).mpr inside)
  noOther outside := List.count_eq_zero.mpr fun member =>
    outside ((mem_picture_nodes_iff indexed).mp member)
  reaches target :=
    List.count_eq_one_of_mem (nodup_picture_nodes indexed roots style)
      ((mem_picture_nodes_iff indexed).mpr (inCone_of_mem_targets indexed target))
  valued := shownValue_eq_some_iff

/-- In every state of a run, whatever signals are given for roots, the text that is drawn is that of
a picture of the cone of the valid ones among them: its inputs and its gates in ascending order,
each gate with the edges to its operands, and the valid roots counted from zero. -/
theorem drawing_exact [Engine ε] {engine : ε} {settings : Settings} {entries : List Entry}
    (run : Run engine settings entries session)
    (small : session.circuit.numbering.numCircuit ≤ maxVar) (roots : List Signal) (style : Style) :
    ∃ picture : Picture,
      session.drawn roots style = picture.text style ∧ picture.Shows session roots style := by
  obtain ⟨calls, sound⟩ := run.sound small
  have indexed := sound.circuit.indexed
  refine ⟨session.picture roots style, ?_, picture_shows indexed roots style⟩
  have bounded : ∀ var ∈ session.circuit.netlist.cone (session.picture roots style).roots,
      var ≤ maxVar := by
    intro var inside
    have handedOut := sound.circuit.inCone_bound (fun _ => picture_valid)
      (indexed.mem_cone_iff.mp inside)
    exact Nat.le_trans handedOut small
  rw [← Picture.written_lines, ← drawing_eq_lines indexed bounded]
  rfl

/-- Two of three inputs and two gates with values, below two roots of which one is negated; the
signals between them name no variable. -/
theorem drawing_exact_of_diamond : ∃ entries session,
    Run (Scripted.create [.claim [false, true, true]]) .standard entries session ∧
    entries.map Entry.operation = [.input, .input, .input, .gate .and ⟨1⟩ ⟨-2⟩, .assert ⟨-4⟩,
      .solve, .gate .or ⟨-4⟩ ⟨1⟩] ∧
    (session.circuit.numbering.numCircuit ≤ maxVar ∧
      session.drawn [⟨-5⟩, ⟨0⟩, ⟨9⟩, ⟨4⟩] .standard =
        "digraph \x7b\n\x7b rank=sink\n" ++
          "1 [shape=box, label=\"v1 = 1\"];\n2 [shape=box, label=\"v2 = 1\"];\n\x7d\n" ++
          "4 [shape=ellipse, label=\"v4 = 0\\nand\"];\n" ++
          "4 -> 2 [style=dotted, arrowhead=odot];\n4 -> 1;\n" ++
          "5 [shape=ellipse, label=\"v5 = 1\\nor\"];\n" ++
          "5 -> 4 [style=dotted, arrowhead=odot];\n5 -> 1;\n\x7b rank=source\n" ++
          "r0 [shape=rect, label=\"~v5\"];\nr1 [shape=rect, label=\"v4\"];\n\x7d\n" ++
          "r0 -> 5 [arrowhead=odot];\nr1 -> 4;\n\x7d\n") ∧
    ∃ picture : Picture,
      session.drawn [⟨-5⟩, ⟨0⟩, ⟨9⟩, ⟨4⟩] .standard = picture.text .standard ∧
      picture.Shows session [⟨-5⟩, ⟨0⟩, ⟨9⟩, ⟨4⟩] .standard := by
  refine exists_run_of (by decide +kernel) fun entries session run _ found => ?_
  exact drawing_exact run found.1 [⟨-5⟩, ⟨0⟩, ⟨9⟩, ⟨4⟩] .standard

end Session

end CircuitSat
