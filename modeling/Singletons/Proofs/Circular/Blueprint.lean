import Mathlib.Data.List.Forall2
import Mathlib.Logic.Relation
import Singletons.Proofs.Registry.Effects
import Singletons.Proofs.Session.Execution
/-!
# Factories that need one another

Every factory of a blueprint stages an early reference to its own object, asks for each name that it
needs, and hands its object back. The names may need one another in any shape.
-/

namespace Singletons

namespace Report

mutual

/-- The steps of every call of a callback. -/
def callsOf (id : CallbackId) : Report → List (List Report)
  | operation _ calls _ => callsOfAll id calls
  | block _ steps => callsOfAll id steps
  | call called _ steps => (if called = id then [steps] else []) ++ callsOfAll id steps

def callsOfAll (id : CallbackId) : List Report → List (List Report)
  | [] => []
  | report :: reports => callsOf id report ++ callsOfAll id reports

end

theorem callsOfAll_append (id : CallbackId) (first rest : List Report) :
    callsOfAll id (first ++ rest) = callsOfAll id first ++ callsOfAll id rest := by
  induction first with
  | nil => rfl
  | cons report reports ih => simp only [List.cons_append, callsOfAll, ih, List.append_assoc]

def object? : Report → Option Object
  | operation (.ok answer) _ _ => answer.object?
  | _ => none

end Report

/-- What the factory of each name needs, the object that it makes, and the callbacks for it. -/
structure Blueprint where
  needs : NameMap (List Name)
  object : Name → Object
  factory : Name → CallbackId
  early : Name → CallbackId

namespace Blueprint

variable (b : Blueprint)

def deps (n : Name) : List Name := b.needs.getD n []

/-- The names that a creation comes to. -/
def Reachable : Name → Name → Prop := Relation.ReflTransGen fun n d => d ∈ b.deps n

def stage (n : Name) : Operation := .registry (.stage n (some (b.early n)))

def look (d : Name) : Operation := .registry (.lookup d true)

def create (d : Name) : Operation := .registry (.getOrCreate d (some (b.factory d)))

def made (n : Name) : Returned := .outcome (.created (some (b.object n)))

def requests (d : Name) : List Step := [.perform (look d), .perform (b.create d)]

def script (n : Name) : Script where
  steps := .perform (b.stage n) :: (b.deps n).flatMap b.requests
  ending := .returns (b.made n)

structure Realized (env : Environment) : Prop where
  factory : ∀ n k, env.body (b.factory n) k = (b.script n).program
  early : ∀ n k, env.body (b.early n) k = .finish (.ok (b.made n))

/-- Of the two requests for a name at least one gives an object, and none gives another one. -/
def Resolves (d : Name) (answers : Report × Report) : Prop :=
  (answers.1.object?.isSome ∨ answers.2.object?.isSome) ∧
    ∀ o, answers.1.object? = some o ∨ answers.2.object? = some o → o = b.object d

def flat (pairs : List (Report × Report)) : List Report := pairs.flatMap fun p => [p.1, p.2]

/-- A call of the factory of a name resolves every name that it needs. -/
def Served (n : Name) (steps : List Report) : Prop :=
  ∃ staged pairs, steps = staged :: flat pairs ∧ List.Forall₂ b.Resolves (b.deps n) pairs

variable {b} {env : Environment}

theorem Realized.factory_injective (h : b.Realized env) {n m : Name}
    (same : b.factory n = b.factory m) : n = m := by
  have program := (h.factory n 0).symm.trans (same ▸ h.factory m 0)
  simp only [Script.program, script, Step.sequence, Step.program, stage] at program
  injection program with op
  injection op with q
  injection q

theorem Realized.early_ne (h : b.Realized env) (n m : Name) : b.early n ≠ b.factory m := by
  intro same
  have program := (h.early n 0).symm.trans (same ▸ h.factory m 0)
  simp only [Script.program, script, Step.sequence, Step.program] at program
  cases program

/-- A blueprint whose callbacks are known by the name behind a letter. -/
def lettered (needs : NameMap (List Name)) (object : Name → Object) : Blueprint where
  needs
  object
  factory n := "f" ++ n
  early n := "e" ++ n

def callbacks (b : Blueprint) : Environment where
  body id _ :=
    match id.toList with
    | 'f' :: n => (b.script (String.ofList n)).program
    | 'e' :: n => .finish (.ok (b.made (String.ofList n)))
    | _ => .finish (.ok .nothing)
  host := default

theorem realized_lettered (needs : NameMap (List Name)) (object : Name → Object) :
    (lettered needs object).Realized (lettered needs object).callbacks where
  factory n k := by
    have letters : ("f" ++ n).toList = 'f' :: n.toList := by simp [String.toList_append]
    simp only [callbacks, lettered, letters, String.ofList_toList]
  early n k := by
    have letters : ("e" ++ n).toList = 'e' :: n.toList := by simp [String.toList_append]
    simp only [callbacks, lettered, letters, String.ofList_toList]

end Blueprint

end Singletons
