import Singletons.Answer
import Singletons.Cache
import Singletons.Disposables
import Singletons.Flags
import Singletons.Graph
import Singletons.Note
/-!
# The registry

A registry binds names to shared objects, creates them on demand, and destroys them in the order
of their dependencies. An operation that has to run a callback is left waiting: its advance tells
which callback to run and what to go on with afterwards.
-/

namespace Singletons

structure Registry where
  config : Config := {}
  flags : Flags := {}
  cache : Cache := {}
  graph : Graph := {}
  disposables : Disposables := {}
  /-- Failures of release handles that nobody has asked for yet, oldest first. -/
  releaseFaults : List Fault := []
  /-- Faults suppressed during the outermost creation; there are none without a creation. -/
  suppressed : Option (List Fault) := none
  /-- Whether all names are being destroyed. -/
  destroying : Bool := false

/-- One thing to do in a teardown. -/
inductive Agenda.Item where
  /-- Start over at a name, with no name visited. -/
  | root (n : Name)
  /-- Withdraw a name, and destroy its dependents before it. -/
  | visit (n : Name)
  | release (n : Name) (handle : Handle)
  /-- Go on with what the name contained. -/
  | inside (n : Name)
  /-- Strike the name from the graph. -/
  | forget (n : Name)
  /-- Empty what is left and end the destruction of all names. -/
  | finish
  deriving DecidableEq, Repr

/-- What is left to do of a teardown. -/
structure Agenda where
  items : List Agenda.Item
  visited : NameSet := ∅

/-- What an operation waits for while a callback runs. -/
inductive Waiting where
  /-- The factory of a name. The outermost creation collects the suppressed faults; a bare one tells
  nothing but the object of a success. -/
  | creating (n : Name) (outermost bare : Bool)
  /-- The staged factory of a name in creation. -/
  | promoting (n : Name) (factory : CallbackId)
  /-- The release handle of a name. -/
  | releasing (n : Name) (rest : Agenda)

inductive Progress where
  | answered (reply : Reply)
  | calling (callback : CallbackId) (waiting : Waiting)
  | tearing (agenda : Agenda)

/-- How far an operation came: the registry it leaves, what happens next, and its notes. -/
structure Advance where
  registry : Registry
  progress : Progress
  notes : List Note := []

/-- Makes the answer of a creation bare, now or after its factory has run. -/
def Progress.bare : Progress → Progress
  | answered reply => answered (reply.map Answer.bare)
  | calling callback (.creating n outermost _) => calling callback (.creating n outermost true)
  | p => p

def Advance.bare (a : Advance) : Advance := { a with progress := a.progress.bare }

namespace Registry

def ofConfig (config : Config) (canonical : Name → Name) : Registry where
  config
  flags := { excluded := .ofList config.exclusions }
  graph := { canonical }

/-- Answers an operation on the registry as it stands. -/
def answer (r : Registry) (a : Answer) : Advance := { registry := r, progress := .answered (.ok a) }

def refuse (r : Registry) (fault : Fault) (notes : List Note) : Advance where
  registry := r
  progress := .answered (.ok (.creation (.report fault.code (some fault))))
  notes

end Registry

end Singletons
