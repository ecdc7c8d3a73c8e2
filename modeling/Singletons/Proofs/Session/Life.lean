import Singletons.Proofs.Session.Waiting
/-!
# The life of a registry

A registry lives from its construction on through the program of its owner and those of all
callbacks. None of them reaches for the parts of the registry past its checks.
-/

namespace Singletons

/-- Whether an operation leaves the parts of the registry alone. -/
def Operation.isPublic : Operation → Bool
  | registry _ => true
  | part _ => false
  | log _ => true
  | router _ => true

/-- Every operation that a program may perform has a property. -/
def Program.Only (p : Operation → Prop) : Program → Prop
  | finish _ => True
  | perform op next => p op ∧ ∀ reply, (next reply).Only p
  | block body next => body.Only p ∧ ∀ reply, (next reply).Only p

structure Session.Only (p : Operation → Prop) (s : Session) : Prop where
  operation : ∀ op, s.control = .perform op → p op
  stack : ∀ frame ∈ s.stack, ∀ reply, (frame.next reply).Only p

abbrev Program.Public (program : Program) : Prop := program.Only (·.isPublic)

abbrev Session.Public (s : Session) : Prop := s.Only (·.isPublic)

structure Life where
  environment : Environment
  world : World
  program : Program
  config : Config
  canonical : Name → Name
  fresh : world.registry = .ofConfig config canonical
  program_public : program.Public
  body_public : ∀ id n, (environment.body id n).Public

namespace Session

section Only

variable {p : Operation → Prop} {env : Environment}

theorem Only.enter {w : World} {cause : Cause} {stack : List Frame} {history : List Event}
    {program : Program} (hp : program.Only p)
    (hs : ∀ frame ∈ stack, ∀ reply, (frame.next reply).Only p) :
    (enter w cause stack history program).Only p := by
  induction program generalizing cause stack history with
  | finish ended => exact ⟨fun op h => (by cases h), hs⟩
  | perform op next =>
    refine ⟨fun op' h => ?_, fun frame hf => ?_⟩
    · obtain rfl := Control.perform.inj h
      exact hp.1
    · rcases List.mem_cons.mp hf with rfl | hf
      · exact hp.2
      · exact hs frame hf
  | block body next ih _ =>
    -- The body begins at once, on top of the frame that waits for it.
    refine ih hp.1 fun frame hf => ?_
    rcases List.mem_cons.mp hf with rfl | hf
    · exact hp.2
    · exact hs frame hf

theorem Only.turn (hb : ∀ id n, (env.body id n).Only p) {s : Session}
    (hs : ∀ frame ∈ s.stack, ∀ reply, (frame.next reply).Only p) (t : Turn) :
    (s.turn env t).Only p := by
  obtain ⟨w, progress, events⟩ := t
  cases progress with
  | answered reply => exact ⟨fun op h => (by cases h), hs⟩
  | calling id waiting => exact .enter (hb _ _) hs
  | tearing agenda => exact ⟨fun op h => (by cases h), hs⟩

theorem Only.step (hb : ∀ id n, (env.body id n).Only p) {s t : Session} (hs : s.Only p)
    (h : s.step env = some t) : t.Only p := by
  obtain ⟨w, control, stack, history⟩ := s
  cases control with
  | perform op =>
    obtain rfl := Option.some.inj h
    refine .turn hb ?_ _
    exact hs.stack
  | teardown agenda =>
    obtain rfl := Option.some.inj h
    refine .turn hb ?_ _
    exact hs.stack
  | ended cause result =>
    cases cause with
    | owner => simp [Session.step] at h
    | block =>
      obtain rfl := Option.some.inj h
      exact ⟨fun op h => (by cases h), hs.stack⟩
    | call id n waiting =>
      obtain rfl := Option.some.inj h
      refine .turn hb ?_ _
      exact hs.stack
  | answered reply =>
    cases stack with
    | nil => simp [Session.step] at h
    | cons frame rest =>
      obtain rfl := Option.some.inj h
      refine .enter (hs.stack frame List.mem_cons_self reply) fun f hf => ?_
      exact hs.stack f (List.mem_cons_of_mem _ hf)

end Only

theorem Public.settings_step {env : Environment} {s t : Session} (hp : s.Public)
    (hs : s.step env = some t) : t.world.registry.settings = s.world.registry.settings := by
  obtain ⟨a, rest, move, hr, -⟩ := step_cases hs
  rw [hr]
  cases move with
  | pass hc => rfl
  | @request q hc => exact (s.world.registry.request_keeps q).1
  | part hc => exact absurd (hp.operation _ hc) (by simp [Operation.isPublic])
  | @teardown agenda hc => exact s.world.registry.settings_teardown agenda
  | @resume _ _ w ended _ _ _ => exact (s.world.registry.resume_keeps ended w).1

end Session

namespace Life

def start (l : Life) : Session := .start l.world l.program

def Reaches (l : Life) (s : Session) : Prop := Session.Reaches l.environment l.start s

/-- The point after so many steps, or the last one. -/
def after (l : Life) : Nat → Session
  | 0 => l.start
  | k + 1 => ((l.after k).step l.environment).getD (l.after k)

theorem step_after {l : Life} {k : Nat} (h : ((l.after k).step l.environment).isSome) :
    (l.after k).step l.environment = some (l.after (k + 1)) := by
  obtain ⟨t, ht⟩ := Option.isSome_iff_exists.mp h
  rw [after, ht]
  rfl

theorem reaches_after (l : Life) (k : Nat) : l.Reaches (l.after k) := by
  induction k with
  | zero => exact .refl
  | succ k ih =>
    rw [after]
    cases h : (l.after k).step l.environment with
    | none => exact ih
    | some t => exact .next ih h

theorem registry_start (l : Life) : l.start.world.registry = .ofConfig l.config l.canonical := by
  rw [start, Session.start, Session.world_enter, l.fresh]

theorem waiting_start (l : Life) : l.start.waiting = [] := by
  rw [start, Session.start, Session.waiting_enter]
  rfl

/-- What only such operations can do that have a property, they do at every point. -/
theorem Reaches.only {l : Life} {p : Operation → Prop} {s : Session} (h : l.Reaches s)
    (hp : l.program.Only p) (hb : ∀ id n, (l.environment.body id n).Only p) : s.Only p := by
  induction h with
  | refl => exact .enter hp (fun _ h => by cases h)
  | next _ hs ih => exact ih.step hb hs

theorem Reaches.isPublic {l : Life} {s : Session} (h : l.Reaches s) : s.Public :=
  h.only l.program_public l.body_public

theorem Reaches.settings {l : Life} {s : Session} (h : l.Reaches s) :
    s.world.registry.settings = (l.config, l.canonical) := by
  induction h with
  | refl =>
    rw [registry_start]
    rfl
  | next ht hs ih => exact ((Reaches.isPublic ht).settings_step hs).trans ih

theorem config_after (l : Life) (k : Nat) : (l.after k).world.registry.config = l.config :=
  congrArg Prod.fst (l.reaches_after k).settings

theorem canonical_after (l : Life) (k : Nat) :
    (l.after k).world.registry.graph.canonical = l.canonical :=
  congrArg Prod.snd (l.reaches_after k).settings

/-- A single request for an object is one that a registry can be asked. -/
theorem request_public (name : Name) (factory : CallbackId) :
    (Program.perform (.registry (.getOrCreate name (some factory))) fun _ =>
      .finish (.ok .nothing)).Public :=
  ⟨rfl, fun _ => trivial⟩

/-- The life of a registry that is asked once for a name, with the same body for every call. -/
def creation (body : Program) (h : body.Public) : Life where
  environment := { body := fun _ _ => body, host := default }
  world := { registry := .ofConfig {} id }
  program := .perform (.registry (.getOrCreate "a" (some "f"))) fun _ => .finish (.ok .nothing)
  config := {}
  canonical := id
  fresh := rfl
  program_public := request_public "a" "f"
  body_public := fun _ _ => h

/-- The life of a fresh registry, with one body for all calls of a callback. -/
def plain (program : Program) (body : CallbackId → Program) (hp : program.Public)
    (hb : ∀ id, (body id).Public) : Life where
  environment := { body := fun id _ => body id, host := default }
  world := { registry := .ofConfig {} id }
  program
  config := {}
  canonical := id
  fresh := rfl
  program_public := hp
  body_public := fun id _ => hb id

/-- The life of a fresh registry with this configuration, with a body for each call. -/
def ofConfig (config : Config) (program : Program) (body : CallbackId → Nat → Program)
    (hp : program.Public) (hb : ∀ id n, (body id n).Public) : Life where
  environment := { body, host := default }
  world := { registry := .ofConfig config id }
  program
  config
  canonical := id
  fresh := rfl
  program_public := hp
  body_public := hb

end Life

end Singletons
