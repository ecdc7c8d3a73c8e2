import Singletons.Fault
import Singletons.Result
/-!
# Why the registry refuses

Each cause for which the registry itself refuses or fails an operation, with its code and wording.
-/

namespace Singletons

inductive Refusal where
  | nullSingleton
  | conflict
  | emptyEarlyFactory
  | emptyFactory
  | inCreation
  | inDestruction
  /-- A factory threw an error with this description. -/
  | factoryThrew (what : String)
  | nullObject
  /-- A factory failed without a fault. -/
  | factoryFailed
  /-- A factory left an object to a binding that is not there. -/
  | notBound
  /-- A release handle failed for this reason. -/
  | release (reason : String)
  deriving DecidableEq, Repr

namespace Refusal

def code : Refusal → Code
  | nullSingleton => .invalidArgument
  | conflict => .singletonConflict
  | emptyEarlyFactory => .invalidArgument
  | emptyFactory => .invalidArgument
  | inCreation => .currentlyInCreation
  | inDestruction => .creationNotAllowed
  | factoryThrew _ => .creationFailed
  | nullObject => .creationFailed
  | factoryFailed => .creationFailed
  | notBound => .alreadyExists
  | release _ => .destructionFailed

def message : Refusal → String
  | nullSingleton => "singleton object must not be null"
  | conflict => "could not register object: there is already an object bound to this name"
  | emptyEarlyFactory => "singleton factory must not be empty"
  | emptyFactory => "object factory must not be empty"
  | inCreation =>
    "requested singleton is currently in creation: is there an unresolvable circular reference?"
  | inDestruction =>
    "singleton creation not allowed while singletons of this registry are in destruction " ++
      "(do not request an object from a release callback)"
  | factoryThrew what => what
  | nullObject => "factory returned a null object"
  | factoryFailed => "factory failed"
  | notBound => "factory reported an already present object that is not bound"
  | release reason => reason

/-- The fault that reports the refusal for a name. -/
def fault (r : Refusal) (n : Name) : Fault where
  code := r.code
  name := n
  message := r.message

def report {α : Type} (r : Refusal) (n : Name) : Result Fault α :=
  .report r.code (some (r.fault n))

end Refusal

end Singletons
