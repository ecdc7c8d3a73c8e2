import Singletons.Logging.Request
import Singletons.Registry.Part
import Singletons.Registry.Request
/-!
# Programs

The body of a callback is a program: it performs operations, learns how each was answered, and ends
by handing something back or throwing. Nothing else limits what a callback may do.
-/

namespace Singletons

inductive Operation where
  | registry (r : Request)
  | part (r : PartRequest)
  | log (r : Logging.Request)
  | router (r : Logging.RouterRequest)

inductive Program where
  | finish (ended : Except Thrown Returned)
  | perform (op : Operation) (next : Reply → Program)
  /-- Runs `body` as one step. What it hands back does not matter; what it throws goes on. -/
  | block (body : Program) (next : Reply → Program)

/-- What surrounds the registry: the body of each call of each callback, and what others answer. -/
structure Environment where
  body : CallbackId → Nat → Program
  host : Logging.Host

end Singletons
