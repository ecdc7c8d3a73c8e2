/-!
# Status codes

A refused operation answers with a code. Thirteen codes have a name; a caller may hand in any
other 32-bit number, which counts as a failure without a name.
-/

namespace Singletons

/-- A status code, kept as the number it is reported by. -/
structure Code where
  number : Int32
  deriving DecidableEq, Repr, Inhabited

namespace Code

def ok : Code := ⟨0⟩
def fail : Code := ⟨1⟩
def invalidArgument : Code := ⟨100⟩
def alreadyExists : Code := ⟨101⟩
def duplicateIgnored : Code := ⟨102⟩
def notFound : Code := ⟨103⟩
def invalidState : Code := ⟨204⟩
def notSupported : Code := ⟨301⟩
def singletonConflict : Code := ⟨500⟩
def currentlyInCreation : Code := ⟨501⟩
def creationNotAllowed : Code := ⟨502⟩
def creationFailed : Code := ⟨503⟩
def destructionFailed : Code := ⟨504⟩

/-- The codes that have a name, in ascending order. -/
def names : List (Code × String) :=
  [(ok, "OK"), (fail, "Fail"), (invalidArgument, "InvalidArgument"),
    (alreadyExists, "AlreadyExists"), (duplicateIgnored, "DuplicateIgnored"),
    (notFound, "NotFound"), (invalidState, "InvalidState"), (notSupported, "NotSupported"),
    (singletonConflict, "SingletonConflict"), (currentlyInCreation, "CurrentlyInCreation"),
    (creationNotAllowed, "CreationNotAllowed"), (creationFailed, "CreationFailed"),
    (destructionFailed, "DestructionFailed")]

def name (c : Code) : String := (names.lookup c).getD "Unknown"

/-- A duplicate that may be ignored counts as success; every other named condition is a failure. -/
def isSuccess (c : Code) : Bool := c = ok || c = duplicateIgnored

end Code

end Singletons
