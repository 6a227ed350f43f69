import JourneyMachine.Form
import JourneyMachine.Journey
import JourneyMachine.Scroll

namespace JourneyMachine

/-- A journey every scroll offers; each takes the scroll as its first argument. -/
inductive ScrollMethod where
  | write
  | read
  | readAll
  | seek
  | tell
  | close
deriving DecidableEq, Repr

/-- A host journey with which an embedder looks at the machine from inside a program. -/
inductive Probe where
  /-- Returns the first positional argument, or ni. -/
  | first
  /-- Collects, then does as `first`. -/
  | collect
  /-- Returns the number of installed handlers. -/
  | handlers
  | frames
  | live
  /-- Returns 100 per positional argument and 10 per keyword, and 1 for no argument at all. -/
  | count
  | fail
deriving DecidableEq, Repr

inductive Routine where
  | scroll (method : ScrollMethod)
  | probe (probe : Probe)
deriving DecidableEq, Repr

/-- A journey the host implements; without an arity it takes any number of arguments. -/
structure HostJourney where
  name : String
  arity : Option Nat
  routine : Routine
deriving DecidableEq, Repr

/-- The objects of genus `Other`: host journeys, pattern helpers and scrolls. -/
inductive Other where
  | host (journey : HostJourney)
  | both (lhs rhs : Value)
  | either (lhs rhs : Value)
  | opposite (inner : Value)
  | scroll (scroll : Scroll)
deriving DecidableEq, Repr

namespace Other

def describe : Other → String
  | host journey => journey.name
  | both .. => "pattern-and"
  | either .. => "pattern-or"
  | opposite _ => "pattern-not"
  | scroll s => s.filename

def values : Other → List Value
  | host _ | scroll _ => []
  | both lhs rhs | either lhs rhs => [lhs, rhs]
  | opposite inner => [inner]

end Other

inductive Object where
  | text (content : String)
  | book (pages : Array Value)
  | codex (entries : List (Value × Value))
  | form (form : Form)
  | imitation (imitation : Imitation)
  | journey (journey : Journey)
  | other (other : Other)
deriving DecidableEq, Repr

namespace Object

def genus : Object → Genus
  | text _ => .text
  | book _ => .book
  | codex _ => .codex
  | form _ => .form
  | imitation _ => .imitation
  | journey _ => .journey
  | other _ => .other

def children : Object → List Handle
  | text _ => []
  | book pages => pages.toList.filterMap Value.handle?
  | codex entries => entries.flatMap fun (k, v) => k.handle?.toList ++ v.handle?.toList
  | form f => f.children
  | imitation i => i.form :: i.matter.toList.filterMap Value.handle?
  | journey j => j.patterns.flatMap fun p => p.block.constants.toList.filterMap Value.handle?
  | other o => o.values.filterMap Value.handle?

def text? : Object → Option String
  | text content => some content
  | _ => none

def book? : Object → Option (Array Value)
  | book pages => some pages
  | _ => none

def codex? : Object → Option (List (Value × Value))
  | codex entries => some entries
  | _ => none

def form? : Object → Option Form
  | form f => some f
  | _ => none

def imitation? : Object → Option Imitation
  | imitation i => some i
  | _ => none

def journey? : Object → Option Journey
  | journey j => some j
  | _ => none

def other? : Object → Option Other
  | other o => some o
  | _ => none

end Object

end JourneyMachine
