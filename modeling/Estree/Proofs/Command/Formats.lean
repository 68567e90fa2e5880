import Estree.Proofs.Command
import Estree.Proofs.Trace.Depth
import Estree.Proofs.Walk.Turns

/-!
The two formats of a trace.

A trace is written as data or shown as a table, and each has its own way from the events to
the rows.  Both tell the same of each call that the walk makes, row by row: `formats_agree`.
-/

namespace Estree

namespace Trace

open Walk

section Tree

variable {g : Grammar} {flags : Flags} {tree : Value} {ls : List Line}
  (h : ofTree g flags tree = .ok ls)

include h

theorem calls_record : calls g tree (record g flags) empty = ls.map Line.event := by
  obtain ⟨-, hls⟩ := ofTree_eq_ok.mp h
  have hwalk : (Walk.walk g tree (record g flags) empty).2 = none :=
    congrArg Prod.snd (walk_eq_none_iff.mpr ⟨ls, h, rfl⟩)
  rw [(calls_of_walk_eq_none hwalk).1, events_of_linesOf hls]

theorem exists_depth {l : Line} (hl : l ∈ ls) : ∃ n : Nat, l.depth = n := by
  obtain ⟨hf, hls⟩ := ofTree_eq_ok.mp h
  have hdepth := depth_of_linesOf (levelled_describeTree hf) hls l hl
  rw [hdepth, levelIn]
  split
  · exact ⟨scopesAbove g tree l.event.occurrence.path + 1, rfl⟩
  · exact ⟨scopesAbove g tree l.event.occurrence.path, Int.add_zero _⟩

theorem exists_type {l : Line} (hl : l ∈ ls) : ∃ type, l.node.type? = some type := by
  obtain ⟨hf, hls⟩ := ofTree_eq_ok.mp h
  have hmem : l.event ∈ (describeTree g tree).events :=
    events_of_linesOf hls ▸ List.mem_map_of_mem hl
  have hvisited := occurrence_mem_visited hf hmem
  rw [signalled_describeTree hf, visitedTree_eq_filter hf, List.mem_filter] at hvisited
  obtain ⟨r, rule⟩ := Option.isSome_iff_exists.mp hvisited.2
  exact Option.isSome_iff_exists.mp (isNode_of_ruleOf rule)

end Tree

end Trace

namespace Command

open Walk (Event)

/-! ### One call in both formats -/

/-- What a table shows of a line: nothing if it is missing or zero. -/
def lineText : Value → Text
  | .null => ""
  | .bool false => ""
  | .int i => if i = 0 then "" else (Value.int i).plain
  | line => line.plain

/-- The type of a node, two spaces further in for each open scope. -/
def indented (depth : Nat) (type : Text) : Text := Text.replicate (2 * depth) ' ' ++ type

/-- How a call is told, under some flags, by the data of a row and by the cells of one.  The
opening and the closing of a scope are marked in colour and have no contribution in either. -/
inductive Told (flags : Flags) : Event → Value → List Text → Prop where
  | opening {o : Walk.Occurrence} {type : Text} (depth : Nat) (typed : o.node.type? = some type) :
      Told flags ⟨.enter, o⟩
        (.mapping [("event", .text "create_scope"), ("depth", .int depth), ("type", .text type)])
        ["[cyan]+scope[/cyan]", indented depth type, "", "", "", "", ""]
  | closing {o : Walk.Occurrence} {type : Text} (depth : Nat) (typed : o.node.type? = some type) :
      Told flags ⟨.leave, o⟩
        (.mapping [("event", .text "pop_scope"), ("depth", .int depth), ("type", .text type)])
        ["[cyan]-scope[/cyan]", indented depth type, "", "", "", "", ""]
  | node {o : Walk.Occurrence} {type : Text} {c : Contribution} {operators operands : List Text}
      (depth : Nat) (typed : o.node.type? = some type)
      (contributed : Contribution.of .standard flags o.node = .ok c)
      (operatorsOf : c.operators.map Value.plain = operators)
      (operandsOf : c.operands.map Value.plain = operands) :
      Told flags ⟨.visit, o⟩
        (.mapping [("event", .text "process_node"), ("depth", .int depth), ("type", .text type),
          ("line", c.line), ("lloc", c.lloc), ("cyclomatic", c.cyclomatic),
          ("operators", .list (operators.map .text)), ("operands", .list (operands.map .text))])
        ["node", indented depth type, lineText c.line, c.lloc.plain, c.cyclomatic.plain,
          Text.intercalate " " operators, Text.intercalate " " operands]

/-- Calls told in order, one row of data and one row of a table for each. -/
structure Rows (flags : Flags) (calls : List Event) (data : List Value) (table : List (List Text)) :
    Prop where
  data_length : data.length = calls.length
  table_length : table.length = calls.length
  told : ∀ (i : Nat) (e : Event), calls[i]? = some e →
    ∃ row cells, data[i]? = some row ∧ table[i]? = some cells ∧ Told flags e row cells

theorem line_cases (node : Value) :
    node.line = .null ∨ (∃ b, node.line = .bool b) ∨ ∃ i, node.line = .int i := by
  rw [Value.line]
  split
  · rename_i hint
    cases hline : node.follow ["loc", "start", "line"] with
    | bool b => exact .inr (.inl ⟨b, rfl⟩)
    | int i => exact .inr (.inr ⟨i, rfl⟩)
    | _ =>
      rw [hline] at hint
      cases hint
  · exact .inl rfl

theorem lineText_line (node : Value) :
    (if node.line.truthy then node.line.plain else "") = lineText node.line := by
  rcases line_cases node with hline | ⟨b, hline⟩ | ⟨i, hline⟩
  · rw [hline]
    rfl
  · rw [hline]
    cases b <;> rfl
  · rw [hline, lineText]
    by_cases hi : i = 0
    · subst hi
      rfl
    · have htruthy : (Value.int i).truthy = true := bne_iff_ne.mpr hi
      rw [if_pos htruthy, if_neg hi]

section Lines

variable {flags : Flags} {tree : Value} {ls : List Trace.Line}

theorem told_line (h : Trace.ofTree .standard flags tree = .ok ls) {l : Trace.Line} (hl : l ∈ ls) :
    Told flags l.event (Output.lineData l) (Output.lineCells l) := by
  obtain ⟨depth, hdepth⟩ := Trace.exists_depth h hl
  obtain ⟨type, htype⟩ := Trace.exists_type h hl
  obtain ⟨n, hof⟩ := Trace.line_of_mem (Trace.ofTree_eq_ok.mp h).2 hl
  have htypeValue : Output.typeValue l.node = .text type := by
    rw [Output.typeValue, htype]
    rfl
  have hlabel : Output.label l = indented depth type := by
    rw [Output.label, hdepth, htypeValue]
    rfl
  rw [Output.lineData, Output.lineCells, hlabel, htypeValue, hdepth]
  -- The event fixes the contribution, which the data go by, and the signal, which the cells
  -- go by.
  obtain ⟨signal, o, n, contribution⟩ := l
  cases signal with
  | enter =>
    cases hof
    exact .opening depth htype
  | visit =>
    obtain ⟨c, hc, heq⟩ := Trace.Line.of_visit_eq_ok.mp hof
    cases heq
    have hcell := lineText_line o.node
    rw [← Contribution.line_of hc] at hcell
    have htold : Told flags ⟨.visit, o⟩ _ _ := .node depth htype hc rfl rfl
    rw [← hcell, List.map_map, List.map_map] at htold
    exact htold
  | leave =>
    cases hof
    exact .closing depth htype

theorem rows_lines (h : Trace.ofTree .standard flags tree = .ok ls) :
    Rows flags (ls.map Trace.Line.event) (ls.map Output.lineData) (ls.map Output.lineCells) where
  data_length := by rw [List.length_map, List.length_map]
  table_length := by rw [List.length_map, List.length_map]
  told := by
    intro i e he
    rw [List.getElem?_map] at he
    obtain ⟨l, hl, rfl⟩ := Option.map_eq_some_iff.mp he
    refine ⟨Output.lineData l, Output.lineCells l, ?_, ?_, told_line h (List.mem_of_getElem? hl)⟩
    · rw [List.getElem?_map, hl, Option.map_some]
    · rw [List.getElem?_map, hl, Option.map_some]

end Lines

/-! ### Outcomes of a trace -/

def tracePut (path format : Text) (ls : List Trace.Line) : List Shown × String :=
  if format = "json" then ([], Output.traceData ls)
  else ([.table (Output.traceTable path ls)], "")

theorem ends_showTrace (path format : Text) (ls : List Trace.Line) :
    ∃ notes, (showTrace path format ls).Ends (.ok (tracePut path format ls)) notes := by
  unfold showTrace tracePut
  split
  · exact ⟨_, (Logged.ends_note _).bind (Logged.ends_pure _)⟩
  · exact ⟨_, (Logged.ends_note _).bind (Logged.ends_pure _)⟩

theorem collect_showTrace (path format : Text) (ls : List Trace.Line) :
    (showTrace path format ls).collect.1 = .ok (tracePut path format ls) := by
  obtain ⟨_, hends⟩ := ends_showTrace path format ls
  rw [hends.collect]

theorem tracePut_nonempty (path format : Text) (ls : List Trace.Line) :
    (tracePut path format ls).1 ≠ [] ∨ (tracePut path format ls).2 ≠ "" := by
  obtain ⟨out, _, hends, hout⟩ := shows_showTrace path format ls
  have hcollect := collect_showTrace path format ls
  rw [hends.collect] at hcollect
  cases hcollect
  exact hout

section Trace

variable (src : Sources) (path : Text) (config : Option Text) (options : List Text)

/-- The lines of a trace are the same for every format, or there are none for any. -/
theorem collect_trace :
    (∃ stop, ∀ format, (trace src path config options format).collect.1 = .error stop) ∨
      ∃ s tree ls, (settings src config options).collect.1 = .ok s ∧
        (Document.load src.files path).collect.1 = .ok tree ∧
        Trace.ofTree .standard s.toFlags tree = .ok ls ∧
        ∀ format, (trace src path config options format).collect.1 =
          .ok (tracePut path format ls) := by
  simp only [trace_eq, collect_onTree (shows_showTrace path _), collect_showTrace,
    (settled_settings src config options).2, (Document.settled_load src.files path).2]
  cases hs : settingsAt src config options with
  | error stop => exact .inl ⟨stop, fun _ => rfl⟩
  | ok s =>
    cases ht : Document.treeAt src.files path with
    | error stop => exact .inl ⟨stop, fun _ => rfl⟩
    | ok tree =>
      cases hls : Trace.ofTree .standard s.toFlags tree with
      | error fault =>
        refine .inl ⟨.fault fault, fun _ => ?_⟩
        simp only [Except.bind, hls, Except.mapError]
      | ok ls =>
        refine .inr ⟨s, tree, ls, rfl, rfl, hls, fun _ => ?_⟩
        simp only [Except.bind, hls, Except.mapError]

/-- What a trace leaves behind that is handed to a console. -/
def traced (console : Console) (verbose : Bool) (format : Text) : Outcome :=
  (Outcome.ofRun verbose (trace src path config options format)).on console

/-- A command that is ended finishes on no console. -/
theorem not_finishes_traced {format : Text} {stop : Stop}
    (h : (trace src path config options format).collect.1 = .error stop) (console : Console)
    (verbose : Bool) : ¬(traced src path config options console verbose format).Finishes := by
  rintro ⟨hexit, -⟩
  have hsaid : (Outcome.ofRun verbose (trace src path config options format)).exit = 1 :=
    Outcome.exit_ofRun_of_error verbose h
  rw [traced] at hexit
  rcases Outcome.on_cases console (.ofRun verbose (trace src path config options format)) with
    ⟨taken, r, -, hon⟩ | ⟨-, hon⟩
  · rw [hon] at hexit
    cases hexit
  · rw [hon, hsaid] at hexit
    cases hexit

/-- What a trace puts out is taken whole, and then it finishes, or it does not finish. -/
theorem finishes_traced_iff {format : Text} {ls : List Trace.Line}
    (h : (trace src path config options format).collect.1 = .ok (tracePut path format ls))
    (console : Console) (verbose : Bool) :
    let o := traced src path config options console verbose format
    let put := tracePut path format ls
    (o.Finishes ↔ ∀ taken r, ¬console.Refuses put.1 put.2 taken r) ∧
      (o.Finishes → o.shown = put.1 ∧ o.written = put.2) := by
  intro o put
  obtain ⟨notes, hrun⟩ := Outcome.ofRun_of_ok verbose h
  have ho : o = Outcome.on console ⟨0, put.1, put.2, notes, none⟩ :=
    congrArg (Outcome.on console) hrun
  rcases Outcome.on_cases console ⟨0, put.1, put.2, notes, none⟩ with
    ⟨taken, r, hrefuses, hon⟩ | ⟨hnone, hon⟩
  · rw [ho, hon]
    have hexit : ¬Outcome.Finishes ⟨1, taken, "", notes, some (.refusal r)⟩ := by
      rintro ⟨hexit, -⟩
      cases hexit
    exact ⟨⟨fun hf => absurd hf hexit, fun hnone => absurd hrefuses (hnone taken r)⟩,
      fun hf => absurd hf hexit⟩
  · rw [ho, hon]
    exact ⟨⟨fun _ => hnone, fun _ => ⟨rfl, rfl, tracePut_nonempty path format ls⟩⟩,
      fun _ => ⟨rfl, rfl⟩⟩

/-- Whatever the settings and the document are, either there are no lines and a trace finishes
in no format and on no console, or the lines are the same in every format.  Then it is for
the console to take what is put out: the data, or else the table, and a trace finishes
exactly if it does.  The rows of the data are as many as those of the table, one for each
call of the walk in order, and they tell the same of it. -/
theorem formats_agree (verbose : Bool) :
    (∀ (console : Console) (format : Text),
      ¬(traced src path config options console verbose format).Finishes) ∨
      ∃ s tree ls, (settings src config options).collect.1 = .ok s ∧
        (Document.load src.files path).collect.1 = .ok tree ∧
        Trace.ofTree .standard s.toFlags tree = .ok ls ∧
        (∀ console : Console,
          ((traced src path config options console verbose "json").Finishes ↔
            console.writes (Json.write (.list (ls.map Output.lineData)) ++ "\n") = none) ∧
          ((traced src path config options console verbose "json").Finishes →
            (traced src path config options console verbose "json").shown = [] ∧
              (traced src path config options console verbose "json").written =
                Json.write (.list (ls.map Output.lineData)) ++ "\n")) ∧
        (∀ (console : Console) (format : Text), format ≠ "json" →
          ((traced src path config options console verbose format).Finishes ↔
            console.shows [] (.table ⟨path,
              ["Event", "Node", "Line", "LLOC", "CC", "Operators", "Operands"],
              ls.map Output.lineCells⟩) = none) ∧
          ((traced src path config options console verbose format).Finishes →
            (traced src path config options console verbose format).shown = [.table ⟨path,
              ["Event", "Node", "Line", "LLOC", "CC", "Operators", "Operands"],
              ls.map Output.lineCells⟩] ∧
            (traced src path config options console verbose format).written = "")) ∧
        Rows s.toFlags (Walk.calls .standard tree (Trace.record .standard s.toFlags) .empty)
          (ls.map Output.lineData) (ls.map Output.lineCells) := by
  rcases collect_trace src path config options with ⟨stop, hstop⟩ | ⟨s, tree, ls, hs, ht, hls, hput⟩
  · exact .inl fun console format =>
      not_finishes_traced src path config options (hstop format) console verbose
  · refine .inr ⟨s, tree, ls, hs, ht, hls, fun console => ?_, fun console format htable => ?_,
      Trace.calls_record hls ▸ rows_lines hls⟩
    · have hfinishes := finishes_traced_iff src path config options (hput "json") console verbose
      rw [tracePut, if_pos rfl] at hfinishes
      refine ⟨hfinishes.1.trans ?_, hfinishes.2⟩
      exact Console.not_refuses_text_iff (by simp [Output.traceData])
    · have hfinishes := finishes_traced_iff src path config options (hput format) console verbose
      rw [tracePut, if_neg htable] at hfinishes
      refine ⟨hfinishes.1.trans ?_, hfinishes.2⟩
      exact Console.not_refuses_item_iff

end Trace

end Command

end Estree
