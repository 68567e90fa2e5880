import Estree.Walk
import Estree.Contribution

/-!
Consumers of a walk: the trace of its events, and the dependencies met on the
way.
-/

namespace Estree

open Walk (Signal Event Occurrence Consumer Outcome)

namespace Trace

/-- One event of a trace. -/
structure Line where
  signal : Signal
  occurrence : Occurrence
  /-- The number of scopes open around the event. -/
  depth : Int
  /-- What the node contributes, for a visit. -/
  contribution : Option Contribution

def Line.node (l : Line) : Value := l.occurrence.node

end Trace

/-- The events seen so far and the number of scopes open, which is below zero if
more were closed than opened. -/
structure Trace where
  depth : Int
  lines : Array Trace.Line

namespace Trace

def empty : Trace := ⟨0, #[]⟩

/-- The trace with one more event.  A visit whose contribution fails adds
nothing. -/
def record (g : Grammar) (flags : Flags) : Consumer Trace := fun t e =>
  match e.signal with
  | .enter => (⟨t.depth + 1, t.lines.push ⟨.enter, e.occurrence, t.depth, none⟩⟩, none)
  | .leave => (⟨t.depth - 1, t.lines.push ⟨.leave, e.occurrence, t.depth - 1, none⟩⟩, none)
  | .visit =>
    match Contribution.under (some g) flags e.node with
    | .ok c => (⟨t.depth, t.lines.push ⟨.visit, e.occurrence, t.depth, some c⟩⟩, none)
    | .error fault => (t, some fault)

/-- The nodes visited, in order. -/
def visited (t : Trace) : List Value :=
  (t.lines.toList.filter fun l => l.signal == .visit).map Line.node

/-- The trace with a walk of a tree added. -/
def walk (g : Grammar) (flags : Flags) (tree : Value) (t : Trace) : Outcome Trace :=
  Walk.walk g tree (record g flags) t

/-- The trace of a tree by a grammar. -/
def ofTree (g : Grammar) (flags : Flags) (tree : Value) : Except Fault (List Line) :=
  match walk g flags tree empty with
  | (t, none) => .ok t.lines.toList
  | (_, some fault) => .error fault

/-- A trace in the making, with the settings and the grammar that it goes by. -/
structure Recorder where
  flags : Flags
  grammar : Grammar
  trace : Trace

namespace Recorder

def new (flags : Flags) (given : Option Grammar) : Recorder := ⟨flags, .chosen given, .empty⟩

def record : Consumer Recorder := fun r e =>
  let (trace, fault) := Trace.record r.grammar r.flags r.trace e
  ({ r with trace := trace }, fault)

end Recorder

/-- The trace of a tree by the grammar that is given, or else by the standard one.  The
recorder and the walk are each told what is given, and each choose by themselves. -/
def under (given : Option Grammar) (flags : Flags) (tree : Value) : Except Fault (List Line) :=
  match Walk.under given tree Recorder.record (.new flags given) with
  | (r, none) => .ok r.trace.lines.toList
  | (_, some fault) => .error fault

end Trace

/-- The dependency records met so far, in order. -/
structure Dependencies where
  records : Array Value

namespace Dependencies

def empty : Dependencies := ⟨#[]⟩

/-- The records with that of a visited node, if it has one. -/
def collect (g : Grammar) : Consumer Dependencies := fun d e =>
  match e.signal with
  | .visit =>
    match (g.lookup e.node.type?).dependencyFor e.node with
    | .ok .null => (d, none)
    | .ok record => (⟨d.records.push record⟩, none)
    | .error fault => (d, some fault)
  | _ => (d, none)

def walk (g : Grammar) (tree : Value) (d : Dependencies) : Outcome Dependencies :=
  Walk.walk g tree (collect g) d

/-- The dependency records of a tree by a grammar. -/
def ofTree (g : Grammar) (tree : Value) : Except Fault (List Value) :=
  match walk g tree empty with
  | (d, none) => .ok d.records.toList
  | (_, some fault) => .error fault

/-- A collection of records with the grammar that it goes by. -/
structure Collector where
  grammar : Grammar
  dependencies : Dependencies

namespace Collector

def new (given : Option Grammar) : Collector := ⟨.chosen given, .empty⟩

def collect : Consumer Collector := fun c e =>
  let (dependencies, fault) := Dependencies.collect c.grammar c.dependencies e
  ({ c with dependencies := dependencies }, fault)

end Collector

/-- The dependency records of a tree by the grammar that is given, or else by the standard
one.  No record depends on the settings. -/
def under (given : Option Grammar) (_flags : Flags) (tree : Value) : Except Fault (List Value) :=
  match Walk.under given tree Collector.collect (.new given) with
  | (c, none) => .ok c.dependencies.records.toList
  | (_, some fault) => .error fault

end Dependencies

end Estree
