import Singletons.World
/-!
# Sessions

A session is a point of a run, inside callbacks too. The owner's program and those of callbacks wait
on a stack while the operation that each of them performs goes on.
-/

namespace Singletons

/-- Why a program runs: for the owner of the registry, as a callback of an operation that waits,
or as a block. -/
inductive Cause where
  | owner
  | call (callback : CallbackId) (number : Nat) (waiting : Waiting)
  | block

/-- A program that waits for the answer of its current operation. -/
structure Frame where
  next : Reply → Program
  cause : Cause

/-- What happens next. -/
inductive Control where
  | perform (op : Operation)
  | teardown (agenda : Agenda)
  /-- A program has ended. -/
  | ended (cause : Cause) (result : Except Thrown Returned)
  /-- An operation of the innermost waiting program has been answered. -/
  | answered (reply : Reply)

structure Session where
  world : World
  control : Control
  /-- The innermost program first. -/
  stack : List Frame := []
  /-- The newest event first. -/
  history : List Event := []

namespace Session

def record (s : Session) (events : List Event) : Session :=
  { s with history := events.reverse ++ s.history }

/-- Runs a program up to its first operation. -/
def enter (world : World) (cause : Cause) (stack : List Frame) (history : List Event) :
    Program → Session
  | .finish result => { world, control := .ended cause result, stack, history }
  | .perform op next => { world, control := .perform op, stack := ⟨next, cause⟩ :: stack, history }
  | .block body next => enter world .block (⟨next, cause⟩ :: stack) (.opened :: history) body

/-- Where the owner's program begins. -/
def start (world : World) (program : Program) : Session := enter world .owner [] [] program

/-- Takes over how far an operation came. -/
def turn (s : Session) (env : Environment) (t : Turn) : Session :=
  let s := { s with world := t.world }.record t.events
  match t.progress with
  | .answered reply => { s with control := .answered reply }.record [.answered reply]
  | .tearing agenda => { s with control := .teardown agenda }
  | .calling id waiting =>
    let (n, world) := s.world.count id
    enter world (.call id n waiting) s.stack (.entered id n waiting :: s.history) (env.body id n)

/-- The next point of a run; there is none once the owner's program has ended. -/
def step (env : Environment) (s : Session) : Option Session :=
  match s.control with
  | .perform op => some ((s.record [.began op]).turn env (s.world.perform env.host op))
  | .teardown agenda => some (s.turn env (s.world.advance (s.world.registry.teardown agenda)))
  | .ended .owner _ => none
  | .ended .block result =>
    let reply := result.map fun _ => .nothing
    some ({ s with control := .answered reply }.record [.closed reply])
  | .ended (.call id n waiting) result =>
    some ((s.record [.left id n result]).turn env
      (s.world.advance (s.world.registry.resume result waiting)))
  | .answered reply =>
    match s.stack with
    | [] => none
    | frame :: rest => some (enter s.world frame.cause rest s.history (frame.next reply))

/-- Runs at most `fuel` steps; the answer is a point from which there is no next one. -/
def run (env : Environment) : (fuel : Nat) → Session → Option Session
  | 0, s => if (s.step env).isNone then some s else none
  | fuel + 1, s =>
    match s.step env with
    | none => some s
    | some s => s.run env fuel

/-- The points of a run from `s` on. -/
inductive Reaches (env : Environment) (s : Session) : Session → Prop where
  | refl : Reaches env s s
  | next {t u : Session} : Reaches env s t → t.step env = some u → Reaches env s u

theorem Reaches.trans {env : Environment} {s t u : Session} (h : Reaches env s t)
    (k : Reaches env t u) : Reaches env s u := by
  induction k with
  | refl => exact h
  | next _ hs ih => exact .next ih hs

/-- A run that answers has come to a point without a next one. -/
theorem reaches_of_run {env : Environment} {fuel : Nat} {s t : Session}
    (h : s.run env fuel = some t) : Reaches env s t ∧ t.step env = none := by
  induction fuel generalizing s with
  | zero =>
    simp only [run] at h
    split at h
    · obtain rfl := Option.some.inj h
      exact ⟨.refl, Option.isNone_iff_eq_none.mp ‹_›⟩
    · simp at h
  | succ fuel ih =>
    simp only [run] at h
    split at h
    · obtain rfl := Option.some.inj h
      exact ⟨.refl, ‹_›⟩
    · rename_i u hu
      obtain ⟨hr, hn⟩ := ih h
      exact ⟨(Reaches.refl.next hu).trans hr, hn⟩

/-- More fuel does not change an answer. -/
theorem run_succ {env : Environment} {fuel : Nat} {s t : Session}
    (h : s.run env fuel = some t) : s.run env (fuel + 1) = some t := by
  induction fuel generalizing s with
  | zero =>
    simp only [run] at h ⊢
    cases hs : s.step env with
    | none => simpa [hs] using h
    | some u => simp [hs] at h
  | succ fuel ih =>
    rw [run] at h ⊢
    cases hs : s.step env with
    | none => simpa [hs] using h
    | some u => exact ih (by simpa [hs] using h)

/-- The answers of runs are the last points that can be reached. -/
theorem exists_run_eq_some_iff {env : Environment} {s t : Session} :
    (∃ fuel, s.run env fuel = some t) ↔ Reaches env s t ∧ t.step env = none := by
  refine ⟨fun ⟨_, h⟩ => reaches_of_run h, fun ⟨h, hn⟩ => ?_⟩
  have back : ∀ u, Reaches env s u → (∃ fuel, u.run env fuel = some t) →
      ∃ fuel, s.run env fuel = some t := by
    intro u hu
    induction hu with
    | refl => exact id
    | next _ hs ih =>
      rintro ⟨fuel, hf⟩
      exact ih ⟨fuel + 1, by rw [run, hs]; exact hf⟩
  exact back t h ⟨0, by simp [run, hn]⟩

end Session

end Singletons
