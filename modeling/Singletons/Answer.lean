import Singletons.Config
import Singletons.Logging.Severity
/-!
# Answers

What an operation gives back, by the kind of value it delivers.
-/

namespace Singletons

inductive Answer where
  | nothing
  | flag (b : Bool)
  | number (n : Nat)
  | names (names : List Name)
  | object (o : Option Object)
  | status (r : Result Fault Unit)
  | creation (r : Result Fault Object)
  | faults (faults : List Fault)
  | plain (r : Plain)
  | config (c : Config)
  | loaded (r : Result String Config)
  | severity (s : Logging.Severity)

namespace Answer

/-- The object that an answer brings, if it brings one. -/
def object? : Answer → Option Object
  | object o => o
  | creation r => r.value?
  | _ => none

/-- The fault that an answer reports if the operation was refused. -/
def failure? : Answer → Option (Option Fault)
  | status r => if r.isOk then none else some r.detail
  | creation r => if r.isOk then none else some r.detail
  | _ => none

/-- A creation that succeeded answers with nothing but its object. -/
def bare : Answer → Answer
  | creation r => creation r.bare
  | a => a

end Answer

/-- An operation is answered, or something is thrown out of it. -/
abbrev Reply := Except Thrown Answer

end Singletons
