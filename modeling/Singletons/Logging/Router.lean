import Singletons.Logging.Problem
import Singletons.Logging.Sink
/-!
# Routing messages by tag

Each tag has a logger, made when it is registered or with its first message. A logger keeps the
sinks that its tag and the global tag have at that moment, and a threshold of its own.
-/

namespace Singletons.Logging

/-- The tag whose sinks and threshold hold for every other one. -/
def globalTag : String := "*"

structure Logger where
  sinks : List Sink
  threshold : Severity
  deriving DecidableEq, Repr

structure Router where
  running : Bool := false
  disabled : NameSet := ∅
  sinks : NameMap (List Sink) := ∅
  loggers : NameMap Logger := ∅
  threshold : Severity := .info

namespace Router

def start (r : Router) : Router := { r with running := true }

/-- Stopping drops loggers and sinks; the global threshold and the disabled tags stay. -/
def stop (r : Router) : Router := { r with running := false, sinks := ∅, loggers := ∅ }

/-- The sinks of a logger that is made now: those of its tag, then the global ones, and the
console if there is none. -/
def sinksFor (r : Router) (tag : String) : List Sink :=
  let sinks := r.sinks.getD tag [] ++ r.sinks.getD globalTag []
  if sinks.isEmpty then [.console] else sinks

def create (r : Router) (tag : String) : Router :=
  { r with loggers := r.loggers.insert tag ⟨r.sinksFor tag, r.threshold⟩ }

def register (r : Router) (tag : String) : Plain × Router :=
  if !r.running then (Problem.routerNotRunning.report, r)
  else if r.loggers.contains tag then (.report .duplicateIgnored none, r)
  else (.done (), r.create tag)

/-- Sets the threshold of a logger, or under the global tag that of all, present and to come. -/
def setThreshold (r : Router) (tag : String) (s : Severity) : Plain × Router :=
  if tag = globalTag then
    (.done (), { r with
      threshold := s
      loggers := r.loggers.map fun _ logger => { logger with threshold := s } })
  else
    match r.loggers[tag]? with
    | some logger =>
      (.done (), { r with loggers := r.loggers.insert tag { logger with threshold := s } })
    | none => ((Problem.unknownLogger tag).report, r)

/-- What keeps a sink from being added, given what was said if its file could not be opened. -/
def problem? (obstacle? : Option String) : Sink → Option Problem
  | .file path => obstacle?.map (.file path)
  | .rotating path _ _ => obstacle?.map (.rotatingFile path)
  | _ => none

/-- Adds a sink for loggers to come. -/
def addSink (r : Router) (tag : String) (sink : Sink) (obstacle? : Option String) :
    Plain × Router :=
  match problem? obstacle? sink with
  | some p => (p.report, r)
  | none => (.done (), { r with sinks := r.sinks.insert tag (r.sinks.getD tag [] ++ [sink]) })

def enable (r : Router) (tag : String) : Router := { r with disabled := r.disabled.erase tag }

def disable (r : Router) (tag : String) : Router := { r with disabled := r.disabled.insert tag }

/-- Routes a message to the sinks of its logger, which is made if need be. -/
def log (r : Router) (tag : String) (severity : Severity) (text : String) :
    List Delivery × Router :=
  if !r.running || r.disabled.contains tag then ([], r)
  else
    let r := if r.loggers.contains tag then r else r.create tag
    match r.loggers[tag]? with
    | some logger =>
      (if severity.reaches logger.threshold then
        logger.sinks.map fun sink => ⟨sink, tag, severity, text⟩
      else [], r)
    | none => ([], r)

end Router

end Singletons.Logging
