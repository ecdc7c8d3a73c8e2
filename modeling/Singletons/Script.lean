import Singletons.Session
/-!
# Scripts

A script is a program without choices: it performs its steps in order and then ends. A step that
throws ends the script there.
-/

namespace Singletons

inductive Step where
  | perform (op : Operation)
  | block (steps : List Step)

inductive Ending where
  | returns (r : Returned)
  | throws (thrown : Thrown)
  /-- Passes on what a step brought, counted from 0. -/
  | passes (step : Nat)

structure Script where
  steps : List Step
  ending : Ending

/-- The outcome that passes an answer on: its fault if it was refused, else its object. -/
def Answer.passedOn (a : Answer) : Outcome :=
  match a.failure? with
  | some fault => .failed fault
  | none => .created a.object?

def Ending.result (answers : List Answer) : Ending → Except Thrown Returned
  | returns r => .ok r
  | throws thrown => .error thrown
  | passes k => .ok (.outcome ((answers[k]?.map Answer.passedOn).getD (.created none)))

mutual

def Step.program (next : Reply → Program) : Step → Program
  | .perform op => .perform op next
  | .block steps => .block (Step.sequence (.returns .nothing) [] steps) next

/-- Performs steps one after another, keeping their answers for the ending. -/
def Step.sequence (ending : Ending) (answers : List Answer) : List Step → Program
  | [] => .finish (ending.result answers)
  | step :: rest =>
    step.program fun
      | .ok answer => Step.sequence ending (answers ++ [answer]) rest
      | .error thrown => .finish (.error thrown)

end

def Script.program (s : Script) : Program := Step.sequence s.ending [] s.steps

/-- The program of a call by number: the last script serves for all calls beyond the list. -/
def Script.ofCall (scripts : List Script) (n : Nat) : Program :=
  match scripts[n]?.or scripts.getLast? with
  | some script => script.program
  | none => .finish (.ok .nothing)

end Singletons
