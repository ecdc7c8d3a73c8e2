import Singletons.Proofs.Registry.Effects
import Singletons.Session
/-!
# What waits at a point of a run

Every callback that runs serves an operation that waits for it. A step moves the registry by a
request, by a teardown or by the operation that goes on after its callback; any other step passes
the registry and the waiting operations by.
-/

namespace Singletons

/-- The operation that waits for a program that runs for this cause, if one does. -/
def Cause.waiting : Cause → List Waiting
  | owner => []
  | call _ _ waiting => [waiting]
  | block => []

def Control.waiting : Control → List Waiting
  | perform _ => []
  | teardown _ => []
  | ended cause _ => cause.waiting
  | answered _ => []

/-- The teardown that the next step goes on with. -/
def Control.agenda? : Control → Option Agenda
  | perform _ => none
  | teardown agenda => some agenda
  | ended _ _ => none
  | answered _ => none

def Progress.agenda? : Progress → Option Agenda
  | answered _ => none
  | calling _ _ => none
  | tearing agenda => some agenda

/-- Whether the next step passes the registry by. -/
def Control.passes : Control → Bool
  | perform (.registry _) => false
  | perform (.part _) => false
  | perform (.log _) => true
  | perform (.router _) => true
  | teardown _ => false
  | ended .owner _ => true
  | ended .block _ => true
  | ended (.call _ _ _) _ => false
  | answered _ => true

namespace World

theorem registry_note (w : World) (n : Note) : (w.note n).1.registry = w.registry := by
  cases n <;> rfl

theorem registry_notes (w : World) (ns : List Note) : (w.notes ns).1.registry = w.registry := by
  induction ns generalizing w with
  | nil => rfl
  | cons n ns ih =>
    rw [notes]
    exact (ih _).trans (registry_note w n)

theorem registry_advance (w : World) (a : Advance) : (w.advance a).world.registry = a.registry :=
  registry_notes _ a.notes

end World

namespace Session

/-- The operations that wait for a callback, the innermost first. -/
def waiting (s : Session) : List Waiting :=
  s.control.waiting ++ s.stack.flatMap (·.cause.waiting)

/-- The names whose factories are on the call stack, the innermost first. -/
def creating (s : Session) : List Name := s.waiting.flatMap (·.creates)

def object? (s : Session) (n : Name) : Option Object := s.world.registry.cache.find? n

theorem world_enter (w : World) (cause : Cause) (stack : List Frame) (history : List Event)
    (p : Program) : (enter w cause stack history p).world = w := by
  induction p generalizing cause stack history with
  | finish ended => rfl
  | perform op next => rfl
  | block body next ih _ => exact ih _ _ _

/-- A block inside a program waits for nothing of its own. -/
theorem waiting_enter (w : World) (cause : Cause) (stack : List Frame) (history : List Event)
    (p : Program) :
    (enter w cause stack history p).waiting =
      cause.waiting ++ stack.flatMap (·.cause.waiting) := by
  induction p generalizing cause stack history with
  | finish ended => rfl
  | perform op next => rfl
  | block body next ih _ => exact ih _ _ _

theorem registry_turn (s : Session) (env : Environment) (t : Turn) :
    (s.turn env t).world.registry = t.world.registry := by
  obtain ⟨w, progress, events⟩ := t
  cases progress with
  | answered reply => rfl
  | calling id waiting =>
    show (enter _ _ _ _ _).world.registry = w.registry
    rw [world_enter]
    rfl
  | tearing agenda => rfl

theorem waiting_turn (s : Session) (env : Environment) (t : Turn) :
    (s.turn env t).waiting =
      t.progress.waiting ++ s.stack.flatMap (·.cause.waiting) := by
  obtain ⟨w, progress, events⟩ := t
  cases progress with
  | answered reply => rfl
  | calling id waiting => exact waiting_enter _ _ _ _ _
  | tearing agenda => rfl

/-- A program never begins in the middle of a teardown. -/
theorem agenda?_enter (w : World) (cause : Cause) (stack : List Frame) (history : List Event)
    (p : Program) : (enter w cause stack history p).control.agenda? = none := by
  induction p generalizing cause stack history with
  | finish ended => rfl
  | perform op next => rfl
  | block body next ih _ => exact ih _ _ _

theorem agenda?_turn (s : Session) (env : Environment) (t : Turn) :
    (s.turn env t).control.agenda? = t.progress.agenda? := by
  obtain ⟨w, progress, events⟩ := t
  cases progress with
  | answered reply => rfl
  | calling id waiting => exact agenda?_enter _ _ _ _ _
  | tearing agenda => rfl

private theorem control_enter_ne (w : World) (cause : Cause) (stack : List Frame)
    (history : List Event) (p : Program) (reply : Reply) :
    (enter w cause stack history p).control ≠ .answered reply := by
  induction p generalizing cause stack history with
  | finish ended => exact fun h => by cases h
  | perform op next => exact fun h => by cases h
  | block body next ih _ => exact ih _ _ _

theorem progress_of_control_turn {s : Session} {env : Environment} {t : Turn} {reply : Reply}
    (h : (s.turn env t).control = .answered reply) : t.progress = .answered reply := by
  obtain ⟨w, progress, events⟩ := t
  cases progress with
  | answered given => rw [Control.answered.inj h]
  | calling id waiting => exact absurd h (control_enter_ne _ _ _ _ _ _)
  | tearing agenda => cases h

theorem registry_of_request {s t : Session} {env : Environment} {q : Request}
    (hc : s.control = .perform (.registry q)) (hs : s.step env = some t) :
    t.world.registry = (s.world.registry.request q).registry := by
  obtain ⟨w, control, stack, history⟩ := s
  obtain rfl : control = .perform (.registry q) := hc
  obtain rfl := Option.some.inj hs
  exact (registry_turn _ _ _).trans (World.registry_advance w _)

theorem registry_of_ended {s t : Session} {env : Environment} {id : CallbackId} {n : Nat}
    {waiting : Waiting} {result : Except Thrown Returned}
    (hc : s.control = .ended (.call id n waiting) result) (hs : s.step env = some t) :
    t.world.registry = (s.world.registry.resume result waiting).registry := by
  obtain ⟨w, control, stack, history⟩ := s
  obtain rfl : control = .ended (.call id n waiting) result := hc
  obtain rfl := Option.some.inj hs
  exact (registry_turn _ _ _).trans (World.registry_advance w _)

/-- How the next step moves the registry, and what waits besides what the move has to wait for. -/
inductive Move (s : Session) : Advance → List Waiting → Prop where
  | pass (h : s.control.passes) : Move s (s.world.registry.answer .nothing) s.waiting
  | request {q : Request} (h : s.control = .perform (.registry q)) :
    Move s (s.world.registry.request q) s.waiting
  | part {q : PartRequest} (h : s.control = .perform (.part q)) :
    Move s (s.world.registry.partRequest q) s.waiting
  | teardown {agenda : Agenda} (h : s.control = .teardown agenda) :
    Move s (s.world.registry.teardown agenda) s.waiting
  | resume {id : CallbackId} {n : Nat} {w : Waiting} {result : Except Thrown Returned}
    {rest : List Waiting} (h : s.control = .ended (.call id n w) result)
    (hw : s.waiting = w :: rest) : Move s (s.world.registry.resume result w) rest

/-- All that a step can do to the registry, to the operations that wait and to a teardown. -/
theorem step_moves {env : Environment} {s t : Session} (h : s.step env = some t) :
    ∃ a rest, s.Move a rest ∧ t.world.registry = a.registry ∧
      t.waiting = a.progress.waiting ++ rest ∧ t.control.agenda? = a.progress.agenda? := by
  obtain ⟨w, control, stack, history⟩ := s
  cases control with
  | perform op =>
    obtain rfl := Option.some.inj h
    cases op with
    | registry q =>
      refine ⟨_, _, .request rfl, ?_, waiting_turn _ _ _, agenda?_turn _ _ _⟩
      exact (registry_turn _ _ _).trans (World.registry_advance w _)
    | part q =>
      refine ⟨_, _, .part rfl, ?_, waiting_turn _ _ _, agenda?_turn _ _ _⟩
      exact (registry_turn _ _ _).trans (World.registry_advance w _)
    | log q => exact ⟨_, _, .pass rfl, rfl, rfl, rfl⟩
    | router q => exact ⟨_, _, .pass rfl, rfl, rfl, rfl⟩
  | teardown agenda =>
    obtain rfl := Option.some.inj h
    refine ⟨_, _, .teardown rfl, ?_, waiting_turn _ _ _, agenda?_turn _ _ _⟩
    exact (registry_turn _ _ _).trans (World.registry_advance w _)
  | ended cause result =>
    cases cause with
    | owner => simp [step] at h
    | block =>
      obtain rfl := Option.some.inj h
      exact ⟨_, _, .pass rfl, rfl, rfl, rfl⟩
    | call id n waiting =>
      obtain rfl := Option.some.inj h
      refine ⟨_, _, .resume rfl rfl, ?_, waiting_turn _ _ _, agenda?_turn _ _ _⟩
      exact (registry_turn _ _ _).trans (World.registry_advance w _)
  | answered reply =>
    cases stack with
    | nil => simp [step] at h
    | cons frame rest =>
      obtain rfl := Option.some.inj h
      exact ⟨_, _, .pass rfl, by rw [world_enter]; rfl, waiting_enter _ _ _ _ _,
        agenda?_enter _ _ _ _ _⟩

theorem step_cases {env : Environment} {s t : Session} (h : s.step env = some t) :
    ∃ a rest, s.Move a rest ∧ t.world.registry = a.registry ∧
      t.waiting = a.progress.waiting ++ rest := by
  obtain ⟨a, rest, move, hr, hw, -⟩ := step_moves h
  exact ⟨a, rest, move, hr, hw⟩

theorem creating_of_waiting {t : Session} {a : Advance} {rest : List Waiting}
    (h : t.waiting = a.progress.waiting ++ rest) :
    t.creating = a.creates ++ rest.flatMap (·.creates) := by
  rw [creating, h, List.flatMap_append]
  rfl

end Session

end Singletons
