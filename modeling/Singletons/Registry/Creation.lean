import Singletons.Registry.Basic
import Singletons.Registry.Refusal
/-!
# Creation on demand

A bound name is answered with its object. Otherwise its factory runs while the name is marked as
in creation, so that a request for the same name meanwhile is refused. The outermost creation
collects the faults that are suppressed until it ends, and reports them with its own failure.
-/

namespace Singletons.Registry

private def creationTag : String := "CreationCoordinator"

private def creating (n : Name) : Note :=
  .message creationTag .debug s!"Creating shared instance of singleton '{n}'"

private def circular (n : Name) : Note :=
  .message creationTag .warning (s!"Requested singleton '{n}' is currently in creation: " ++
    "is there an unresolvable circular reference?")

private def appeared (n : Name) : Note :=
  .message creationTag .debug
    s!"Singleton '{n}' appeared while it was being created, using the bound object"

private def creationFailed (n : Name) (fault : Fault) : Note :=
  .message creationTag .debug s!"Creation of singleton '{n}' failed: {fault.text}"

private def notInCreation (n : Name) : Note :=
  .message creationTag .error s!"Singleton '{n}' isn't currently in creation"

/-- Marks a name as in creation, unless its creation is under way. -/
def mark (r : Registry) (n : Name) : Option Registry :=
  let (allowed, flags) := r.flags.mark n
  if allowed then some { r with flags } else none

/-- Unmarks a name after its creation. -/
def unmark (r : Registry) (n : Name) : Registry × List Note :=
  let (found, flags) := r.flags.unmark n
  ({ r with flags }, if found then [] else [notInCreation n])

/-- Asks for leave to create a name, as every creation does first. -/
def before (r : Registry) (n : Name) : Advance :=
  match r.mark n with
  | some r => r.answer (.status (.done ()))
  | none =>
    { registry := r
      progress := .answered (.ok (.status (Refusal.inCreation.report n)))
      notes := [circular n] }

def getOrCreate (r : Registry) (n : Name) (factory : Option CallbackId) : Advance :=
  match factory with
  | none => r.refuse (Refusal.emptyFactory.fault n) []
  | some f =>
    match r.cache.find? n with
    | some o => r.answer (.creation (.done o))
    | none =>
      if r.destroying then
        let fault := Refusal.inDestruction.fault n
        r.refuse fault [creationFailed n fault]
      else
        match r.mark n with
        | none => r.refuse (Refusal.inCreation.fault n) [creating n, circular n]
        | some r =>
          { registry := { r with suppressed := some (r.suppressed.getD []) }
            progress := .calling f (.creating n r.suppressed.isNone false)
            notes := [creating n] }

/-- Ends a creation: the outermost one gives up the suppressed faults. -/
def endCreation (r : Registry) (n : Name) (outermost : Bool) : Registry × List Note :=
  ({ r with suppressed := if outermost then none else r.suppressed }).unmark n

/-- Ends a creation with a failure; the outermost one attaches the suppressed faults. -/
def failCreation (r : Registry) (n : Name) (outermost : Bool) (fault : Fault) : Advance :=
  let fault := if outermost then fault.attach r.config.limit (r.suppressed.getD []) else fault
  let (r, notes) := r.endCreation n outermost
  r.refuse fault (creationFailed n fault :: notes)

/-- Goes on after the factory of a name has ended. -/
def created (r : Registry) (n : Name) (outermost : Bool) : Except Thrown Returned → Advance
  | .error thrown =>
    match thrown.text? with
    | some what => r.failCreation n outermost ((Refusal.factoryThrew what).fault n)
    | none =>
      let (r, notes) := r.endCreation n outermost
      { registry := r, progress := .answered (.error thrown), notes }
  | .ok returned =>
    match returned.asOutcome with
    | .created none => r.failCreation n outermost (Refusal.nullObject.fault n)
    | .created (some o) =>
      let (r, notes) := r.endCreation n outermost
      { registry := { r with cache := r.cache.bind n (some o) }
        progress := .answered (.ok (.creation (.done o)))
        notes }
    | .alreadyPresent fault? =>
      match r.cache.find? n with
      | some o =>
        let (r, notes) := r.endCreation n outermost
        { registry := r
          progress := .answered (.ok (.creation (.done o)))
          notes := appeared n :: notes }
      | none =>
        let (r, notes) := r.endCreation n outermost
        let fault := fault?.getD (Refusal.notBound.fault n)
        r.refuse ((fault.named n).described Refusal.notBound.message) notes
    | .failed fault? =>
      let fault := fault?.getD (Refusal.factoryFailed.fault n)
      r.failCreation n outermost ((fault.named n).failing Refusal.factoryFailed.code)

/-- Keeps a fault that is not reported now for the failure of the outermost creation. -/
def suppress (r : Registry) (fault : Fault) : Registry :=
  match r.suppressed with
  | some faults =>
    if faults.length < r.config.limit then { r with suppressed := some (faults ++ [fault]) } else r
  | none => r

end Singletons.Registry
