import Singletons.Json.Text
import Singletons.Logging.Severity
/-!
# Sinks

A sink passes messages on: to the console, to a file, to the system log, or to a server that
collects streams of lines. For all but the last the library of loggers has sinks of its own. A
stream sink posts a body of its own making, which says when the message was written.
-/

namespace Singletons.Logging

inductive Sink where
  | console
  | file (path : String)
  | rotating (path : String) (size count : Nat)
  | syslog (ident : String)
  | loki (url job label : String)
  deriving DecidableEq, Repr

/-- A message that a logger writes to one of its sinks. -/
structure Delivery where
  sink : Sink
  logger : String
  severity : Severity
  text : String
  deriving DecidableEq, Repr

/-- What the clock shows when a message is written. -/
structure Moment where
  /-- The date and the time of day, to the millisecond. -/
  date : String
  /-- The time that has passed since the epoch. -/
  nanoseconds : Int

/-- What comes of a push. None is made where the transport has no handle for it. -/
inductive Transfer where
  | unavailable
  | done
  | failed (reason : String)

/-- What is seen of a delivery. -/
inductive Effect where
  /-- A sink of the library has the message. -/
  | handed (d : Delivery)
  /-- A push was made, whatever came of it. -/
  | posted (url body : String)
  /-- A text was written to the standard error stream. -/
  | complained (text : String)
  deriving DecidableEq, Repr

def formatted (date logger : String) (severity : Severity) (text : String) : String :=
  s!"[{date}] [{logger}] [{severity.name}] {text}\n"

/-- One stream with one line. Only the line is escaped: labels are taken as they are. -/
def streamBody (job label : String) (severity : Severity) (nanoseconds : Int) (line : String) :
    String :=
  "\x7b\"streams\":[\x7b\"stream\":\x7b\"job\":\"" ++ job ++ "\",\"tag\":\"" ++ label ++
    "\",\"level\":\"" ++ severity.label ++ "\"\x7d,\"values\":[[\"" ++ toString nanoseconds ++
    "\",\"" ++ Json.escape line ++ "\"]]\x7d]\x7d"

/-- A text up to its first NUL, where the transport takes it to end. -/
def untilNul (s : String) : String := String.ofList (s.toList.takeWhile (· ≠ '\x00'))

/-- What a delivery leads to at a moment, given what comes of the push that it may need. A push
that fails is not made again: there is only a complaint. -/
def Delivery.effects (d : Delivery) (now : Moment) (transfer : Transfer) : List Effect :=
  match d.sink with
  | .loki url job label =>
    let body := streamBody job label d.severity now.nanoseconds
      (formatted now.date d.logger d.severity d.text)
    match transfer with
    | .unavailable => []
    | .done => [.posted (untilNul url) body]
    | .failed reason =>
      [.posted (untilNul url) body, .complained s!"[loki] push to {url} failed: {reason}\n"]
  | _ => [.handed d]

end Singletons.Logging
