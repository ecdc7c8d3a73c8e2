import Singletons.Registry.Basic
import Singletons.Registry.Refusal
/-!
# Binding and looking up

An object can be bound to a name from outside, and a factory staged that makes an early reference
to the object of a name whose creation is under way.
-/

namespace Singletons.Registry

private def cacheTag : String := "InstanceCache"

private def conflict (n : Name) : Note :=
  .message cacheTag .warning
    s!"Could not register object under name '{n}': there is already an object bound"

private def promoted (n : Name) : Note :=
  .message cacheTag .trace s!"Promoted staged factory of '{n}' to an early reference"

private def reject (r : Registry) (n : Name) (why : Refusal) (notes : List Note) : Advance where
  registry := r
  progress := .answered (.ok (.status (why.report n)))
  notes

/-- Binds an object to a name. Binding the same object again is no conflict. -/
def register (r : Registry) (n : Name) (object : Option Object) : Advance :=
  match object with
  | none => r.reject n .nullSingleton []
  | some o =>
    match r.cache.bound[n]? with
    | none => { r with cache := r.cache.bind n (some o) }.answer (.status (.done ()))
    | some present =>
      if present = some o then r.answer (.status (.done ())) else
        r.reject n .conflict [conflict n]

/-- Stages a factory for early references, unless the name is bound. -/
def stage (r : Registry) (n : Name) (factory : Option CallbackId) : Advance :=
  match factory with
  | none => r.reject n .emptyEarlyFactory []
  | some f =>
    if (r.cache.find? n).isSome then r.answer (.status (.report .duplicateIgnored none))
    else { r with cache := r.cache.stage n f }.answer (.status (.done ()))

def lookup (r : Registry) (n : Name) (early : Bool) : Advance :=
  match r.cache.lookup n early (r.flags.isInCreation n) with
  | .object o => r.answer (.object o)
  | .promote f =>
    { registry := { r with cache := r.cache.unstage n }
      progress := .calling f (.promoting n f) }

/-- Goes on after a staged factory has ended. One that throws is not staged again. -/
def madeEarly (r : Registry) (n : Name) (f : CallbackId) : Except Thrown Returned → Advance
  | .error thrown => { registry := r, progress := .answered (.error thrown) }
  | .ok returned =>
    let settled := r.cache.settle n f returned.asObject
    { registry := { r with cache := settled.cache }
      progress := .answered (.ok (.object settled.object))
      notes := if settled.promoted then [promoted n] else [] }

end Singletons.Registry
