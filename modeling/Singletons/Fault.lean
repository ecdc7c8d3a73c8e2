import Singletons.Code
import Singletons.Names
/-!
# Faults

A fault tells which name an operation failed for and why. Faults that were suppressed on the way
to a failure are attached to it as related causes.
-/

namespace Singletons

structure Fault where
  code : Code
  name : Name
  message : String
  related : List Fault := []
  deriving Inhabited

namespace Fault

/-- A one-line description; of the related causes it gives only the number. -/
def text (f : Fault) : String :=
  "[" ++ f.code.name ++ "] '" ++ f.name ++ "': " ++ f.message ++
    if f.related.isEmpty then "" else s!" (+{f.related.length} related)"

/-- Fills in a name that the fault leaves open. -/
def named (f : Fault) (n : Name) : Fault := if f.name = "" then { f with name := n } else f

/-- Fills in a message that the fault leaves open. -/
def described (f : Fault) (message : String) : Fault :=
  if f.message = "" then { f with message } else f

/-- Puts a failure's code in place of one that would report success. -/
def failing (f : Fault) (code : Code) : Fault := if f.code.isSuccess then { f with code } else f

/-- Attaches causes as long as fewer than `limit` are attached. -/
def attach (f : Fault) (limit : Nat) (causes : List Fault) : Fault :=
  { f with related := f.related ++ causes.take (limit - f.related.length) }

end Fault

end Singletons
