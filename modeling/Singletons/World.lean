import Singletons.Program
/-!
# The state that operations share

A registry, the log service of the process, a router that stands alone, and how often each callback
was called. Messages that the registry leaves in its notes go to the log service.
-/

namespace Singletons

open Logging

structure World where
  registry : Registry := {}
  log : Service := {}
  router : Router := {}
  calls : NameMap Nat := ∅

/-- What happens in a run, step by step. -/
inductive Event where
  | began (op : Operation)
  | answered (reply : Reply)
  /-- A block began. -/
  | opened
  | closed (reply : Reply)
  /-- The program of a callback began, for an operation that waits. -/
  | entered (callback : CallbackId) (number : Nat) (waiting : Waiting)
  | left (callback : CallbackId) (number : Nat) (result : Except Thrown Returned)
  | released (n : Name) (handle : Handle)
  | delivered (d : Delivery)

/-- How far an operation came in the world. -/
structure Turn where
  world : World
  progress : Progress
  events : List Event

namespace World

def note (w : World) : Note → World × List Event
  | .message tag severity text =>
    let (deliveries, log) := w.log.log tag severity text
    ({ w with log }, deliveries.map .delivered)
  | .released n handle => (w, [.released n handle])

def notes (w : World) : List Note → World × List Event
  | [] => (w, [])
  | n :: rest =>
    let (w, first) := w.note n
    let (w, events) := w.notes rest
    (w, first ++ events)

/-- Takes over what an operation on the registry came to. -/
def advance (w : World) (a : Advance) : Turn :=
  let (world, events) := { w with registry := a.registry }.notes a.notes
  { world, progress := a.progress, events }

/-- Starts an operation. Only the registry calls back or tears down. -/
def perform (w : World) (host : Host) : Operation → Turn
  | .registry r => w.advance (w.registry.request r)
  | .part r => w.advance (w.registry.partRequest r)
  | .log r =>
    let served := w.log.serve host r
    { world := { w with log := served.state }
      progress := .answered served.reply
      events := served.deliveries.map .delivered }
  | .router r =>
    let served := w.router.serve r
    { world := { w with router := served.state }
      progress := .answered served.reply
      events := served.deliveries.map .delivered }

/-- Counts a call; the answer is how many there were before. -/
def count (w : World) (id : CallbackId) : Nat × World :=
  let n := w.calls.getD id 0
  (n, { w with calls := w.calls.insert id (n + 1) })

end World

end Singletons
