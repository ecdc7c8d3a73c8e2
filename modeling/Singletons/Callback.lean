import Singletons.Result
import Singletons.Fault
/-!
# Callbacks

Object factories, early factories and release handles come from outside and are known by an
identifier. What a callback hands back is read by the operation that called it: a factory by its
outcome, an early factory by its object, a release handle by its result.
-/

namespace Singletons

/-- An object is known by its label: equal labels, one object. -/
abbrev Object := String

abbrev CallbackId := String

/-- What leaves a callback or an operation without a return. -/
inductive Thrown where
  /-- An error with a description. -/
  | error (what : String)
  /-- Something that describes nothing. -/
  | foreign (value : Int)
  /-- A document that does not have the asked-for shape. -/
  | malformed
  deriving Repr

/-- How the reader of documents describes every error of its own. -/
def malformedText : String := "<yaml>"

/-- The description of what was thrown, if it has one. -/
def Thrown.text? : Thrown → Option String
  | error what => some what
  | foreign _ => none
  | malformed => some malformedText

/-- How an object factory says that it ended. -/
inductive Outcome where
  | created (object : Option Object)
  | alreadyPresent (fault : Option Fault)
  | failed (fault : Option Fault)

namespace Outcome

/-- An object that the factory found bound, with its reason for not making another. -/
def present (reason : String) : Outcome := alreadyPresent (some ⟨.alreadyExists, "", reason, []⟩)

/-- A failure of which only a text is known; the name is filled in by the creation. -/
def failure (message : String) : Outcome := failed (some ⟨.creationFailed, "", message, []⟩)

def object? : Outcome → Option Object
  | created object => object
  | alreadyPresent _ => none
  | failed _ => none

def fault? : Outcome → Option Fault
  | created _ => none
  | alreadyPresent fault => fault
  | failed fault => fault

end Outcome

/-- What a callback hands back. -/
inductive Returned where
  | outcome (o : Outcome)
  | released (r : Plain)

namespace Returned

/-- Neither an object nor a refusal. -/
def nothing : Returned := outcome (.created none)

def asOutcome : Returned → Outcome
  | outcome o => o
  | released _ => .created none

def asObject (r : Returned) : Option Object := r.asOutcome.object?

def asResult : Returned → Plain
  | outcome _ => .done ()
  | released r => r

end Returned

/-- What is called to release a name: nothing, a handle without effect, or a callback. -/
inductive Handle where
  | null
  | idle
  | callback (id : CallbackId)
  deriving DecidableEq, Repr

end Singletons
