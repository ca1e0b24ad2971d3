import ExactCover.Solve

/-!
# The log of a search

What a search reports while it runs, as a list of events in the order in which they
happen: its start, each solution, its end, and whether the cap ended it. Every event has
a level, and a reader asks for the events of a level and of all graver ones.
-/

namespace ExactCover

/-- How grave an event is, the gravest first. -/
inductive Level where
  | error
  | warn
  | info
  | debug
  | trace
deriving DecidableEq, Repr

namespace Level

/-- The place of a level among all levels. -/
def rank : Level → Nat
  | .error => 0
  | .warn => 1
  | .info => 2
  | .debug => 3
  | .trace => 4

/-- The name that a line of the log begins with. -/
def name : Level → String
  | .error => "ERROR"
  | .warn => "WARN"
  | .info => "INFO"
  | .debug => "DEBUG"
  | .trace => "TRACE"

end Level

/-- What happens in a search. -/
inductive Event where
  /-- The search of a matrix begins. -/
  | started (height width ones : Nat)
  /-- An exact cover with `rows` rows is found, the `index`th one, counted from 1. -/
  | found (index rows : Nat)
  /-- The search has ended. -/
  | finished (solutions updates : Nat)
  /-- The search ended at the cap. -/
  | stopped (solutions : Nat)
deriving DecidableEq, Repr

namespace Event

/-- Single solutions are of less interest than the search as a whole. -/
def level : Event → Level
  | .found .. => .trace
  | _ => .debug

/-- The wording of an event. -/
def message : Event → String
  | .started height width ones =>
    s!"solving exact cover of {height} rows, {width} columns and {ones} nonzero entries"
  | .found index rows => s!"found solution #{index} with {rows} rows"
  | .finished solutions updates => s!"found {solutions} solutions with {updates} updates"
  | .stopped solutions => s!"stopped the search at the cap of {solutions} solutions"

end Event

namespace Report

/-- All events of the search that a report is about. -/
def events (report : Report) : List Event :=
  let count := report.solutions.length
  [.started report.height report.width report.ones]
    ++ report.solutions.zipIdx.map (fun (rows, i) => .found (i + 1) rows.length)
    ++ [.finished count report.updates]
    ++ if report.stopped then [.stopped count] else []

/-- The events of the given level and of all graver ones; none if no level is asked
    for. -/
def eventsUpTo (report : Report) (level? : Option Level) : List Event :=
  report.events.filter fun event => level?.any (event.level.rank ≤ ·.rank)

end Report

end ExactCover
