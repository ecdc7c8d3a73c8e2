/-!
# Severities

Six severities for messages and one above them all, which as a threshold lets no ordinary message
pass. Callers give them by number, configurations by word, and sinks print them under a third name.
-/

namespace Singletons.Logging

inductive Severity where
  | trace
  | debug
  | info
  | warning
  | error
  | critical
  | off
  deriving DecidableEq, Repr

namespace Severity

def rank : Severity → Nat
  | trace => 0
  | debug => 1
  | info => 2
  | warning => 3
  | error => 4
  | critical => 5
  | off => 6

/-- The severity with a number; a number that is none's counts as `off`. -/
def ofNumber : Int → Severity
  | 0 => trace
  | 1 => debug
  | 2 => info
  | 3 => warning
  | 4 => error
  | 5 => critical
  | _ => off

/-- The severity a configuration names; any other word switches messages off. -/
def ofWord : String → Severity
  | "trace" => trace
  | "debug" => debug
  | "info" => info
  | "warn" => warning
  | "error" => error
  | "fatal" => critical
  | _ => off

/-- The name in a formatted line. -/
def name : Severity → String
  | trace => "trace"
  | debug => "debug"
  | info => "info"
  | warning => "warning"
  | error => "error"
  | critical => "critical"
  | off => "off"

/-- The name in a stream label, which shortens one of them. -/
def label : Severity → String
  | warning => "warn"
  | s => s.name

/-- Whether a message of this severity reaches a threshold. -/
def reaches (s threshold : Severity) : Bool := threshold.rank ≤ s.rank

end Severity

end Singletons.Logging
