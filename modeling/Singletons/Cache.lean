import Singletons.Callback
/-!
# The cache of objects

A name may have a bound object, and while it is being created an early reference to the object or
a factory staged to make one. The cache remembers in which order names were registered.
-/

namespace Singletons

/-- What stands for a name that is not bound yet. -/
inductive Provisional where
  | early (object : Object)
  | staged (factory : CallbackId)
  deriving DecidableEq, Repr

structure Cache where
  bound : NameMap (Option Object) := ∅
  provisional : NameMap Provisional := ∅
  registered : List Name := []

/-- What looking for a name comes to: an answer, or a factory that has to run first. -/
inductive Found where
  | object (o : Option Object)
  | promote (factory : CallbackId)

/-- What became of an object that a staged factory made. -/
structure Settled where
  object : Option Object
  cache : Cache
  promoted : Bool := false

namespace Cache

def find? (c : Cache) (n : Name) : Option Object := (c.bound[n]?).join

def contains (c : Cache) (n : Name) : Bool := c.bound.contains n

def isRegistered (c : Cache) (n : Name) : Bool := c.registered.contains n

def enlist (c : Cache) (n : Name) : Cache :=
  if c.isRegistered n then c else { c with registered := c.registered ++ [n] }

/-- Binds a name, whatever was there before. -/
def bind (c : Cache) (n : Name) (object : Option Object) : Cache :=
  { c with
    bound := c.bound.insert n object
    provisional := c.provisional.erase n }.enlist n

def provide (c : Cache) (n : Name) (p : Provisional) : Cache :=
  { c with provisional := c.provisional.insert n p }

/-- Stages an early factory in place of an early reference or another factory. -/
def stage (c : Cache) (n : Name) (factory : CallbackId) : Cache :=
  (c.provide n (.staged factory)).enlist n

/-- Provisional entries are consulted only for a name in creation, and only if `early` allows. -/
def lookup (c : Cache) (n : Name) (early inCreation : Bool) : Found :=
  match c.find? n with
  | some o => .object (some o)
  | none =>
    if early && inCreation then
      match c.provisional[n]? with
      | some (.early o) => .object (some o)
      | some (.staged f) => .promote f
      | none => .object none
    else .object none

/-- Takes a staged factory out while it runs. -/
def unstage (c : Cache) (n : Name) : Cache := { c with provisional := c.provisional.erase n }

/-- Settles what a staged factory made. What the factory itself did to the name goes first: an
object bound or promoted meanwhile is the answer, a factory staged meanwhile stays staged unless
an object was made, and a name removed meanwhile stays removed. -/
def settle (c : Cache) (n : Name) (factory : CallbackId) (made : Option Object) : Settled :=
  match c.find? n with
  | some o => { object := some o, cache := c }
  | none =>
    match c.provisional[n]?, made with
    | some (.early o), _ => { object := some o, cache := c }
    | some (.staged _), none => { object := none, cache := c }
    | none, none =>
      { object := none, cache := if c.isRegistered n then c.provide n (.staged factory) else c }
    | _, some o =>
      if c.isRegistered n then
        { object := some o, cache := c.provide n (.early o), promoted := true }
      else { object := some o, cache := c }

def remove (c : Cache) (n : Name) : Cache :=
  { bound := c.bound.erase n
    provisional := c.provisional.erase n
    registered := c.registered.filter (· != n) }

def clear (_ : Cache) : Cache := {}

theorem registered_enlist (c : Cache) (n : Name) :
    (c.enlist n).registered =
      if n ∈ c.registered then c.registered else c.registered ++ [n] := by
  simp only [enlist, isRegistered, List.contains_iff_mem]
  split <;> rfl

theorem find?_enlist (c : Cache) (n m : Name) : (c.enlist n).find? m = c.find? m := by
  unfold enlist
  split <;> rfl

theorem provisional_enlist (c : Cache) (n : Name) : (c.enlist n).provisional = c.provisional := by
  unfold enlist
  split <;> rfl

theorem find?_bind (c : Cache) (n m : Name) (o : Option Object) :
    (c.bind n o).find? m = if n = m then o else c.find? m := by
  rw [bind, find?_enlist]
  simp only [find?, NameMap.getElem?_insert]
  split <;> rfl

theorem provisional_bind (c : Cache) (n m : Name) (o : Option Object) :
    (c.bind n o).provisional[m]? = if n = m then none else c.provisional[m]? := by
  rw [bind, provisional_enlist, NameMap.getElem?_erase]

theorem find?_stage (c : Cache) (n m : Name) (f : CallbackId) :
    (c.stage n f).find? m = c.find? m := by
  rw [stage, find?_enlist]
  rfl

theorem provisional_stage (c : Cache) (n m : Name) (f : CallbackId) :
    (c.stage n f).provisional[m]? =
      if n = m then some (.staged f) else c.provisional[m]? := by
  rw [stage, provisional_enlist, provide, NameMap.getElem?_insert]

theorem find?_remove (c : Cache) (n m : Name) :
    (c.remove n).find? m = if n = m then none else c.find? m := by
  simp only [remove, find?, NameMap.getElem?_erase]
  split <;> rfl

theorem provisional_remove (c : Cache) (n m : Name) :
    (c.remove n).provisional[m]? = if n = m then none else c.provisional[m]? := by
  simp only [remove, NameMap.getElem?_erase]

end Cache

end Singletons
