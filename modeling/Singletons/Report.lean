import Singletons.Script
/-!
# Reports

The events of a run form a tree: an operation contains the calls it made, and a call the operations
its program performed. What was delivered belongs to the innermost operation at that time.
-/

namespace Singletons

inductive Report where
  | operation (reply : Reply) (calls : List Report) (deliveries : List Logging.Delivery)
  | block (reply : Reply) (steps : List Report)
  | call (id : CallbackId) (number : Nat) (steps : List Report)

namespace Report

/-- A part of the tree that is still open, with what it contains so far. -/
structure Branch where
  inside : List Report := []
  deliveries : List Logging.Delivery := []

/-- The innermost open part, and those around it. -/
structure Open where
  top : Branch := {}
  outer : List Branch := []

namespace Open

def push (o : Open) : Open := { top := {}, outer := o.top :: o.outer }

/-- Closes the innermost part, which becomes a report in the one around it. -/
def pop (o : Open) (close : Branch → Report) : Open :=
  match o.outer with
  | [] => o
  | b :: outer => { top := { b with inside := b.inside ++ [close o.top] }, outer }

def next (o : Open) : Event → Open
  | .began _ => o.push
  | .answered reply => o.pop fun b => .operation reply b.inside b.deliveries
  | .opened => o.push
  | .closed reply => o.pop fun b => .block reply b.inside
  | .entered _ _ _ => o.push
  | .left id number _ => o.pop fun b => .call id number b.inside
  | .delivered d => { o with top := { o.top with deliveries := o.top.deliveries ++ [d] } }
  | .released _ _ => o

end Open

/-- The reports of a run, given its events from the oldest on. -/
def ofEvents (events : List Event) : List Report := (events.foldl Open.next {}).top.inside

end Report

/-- Performs one step for the owner of a world. There is a report only if the fuel suffices. -/
def World.runStep (env : Environment) (fuel : Nat) (w : World) (step : Step) :
    Option (Report × World) := do
  let s ← (Session.start w (step.program fun _ => .finish (.ok .nothing))).run env fuel
  let report ← (Report.ofEvents s.history.reverse).head?
  return (report, s.world)

end Singletons
