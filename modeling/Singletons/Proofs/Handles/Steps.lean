import Singletons.Proofs.Handles.Dealing
import Singletons.Proofs.Session.Trace
/-!
# What a step does with release handles

Each step of a session deals with the handles that are bound, with those that the teardowns on the
call stack have taken, and with the record of those that were called.
-/

namespace Singletons

namespace Session

variable {env : Environment} {s t : Session}

/-- The handles that the teardowns on the call stack have taken and are still to call, the next one
first. -/
def pending (s : Session) : List (Name × Handle) := s.agendas.flatMap (·.pending)

theorem exists_history_enter (w : World) (cause : Cause) (stack : List Frame)
    (history : List Event) (p : Program) :
    ∃ opened, (enter w cause stack history p).history = opened ++ history ∧
      Event.Releases opened [] := by
  induction p generalizing cause stack history with
  | finish result => exact ⟨[], rfl, rfl, rfl⟩
  | perform op next => exact ⟨[], rfl, rfl, rfl⟩
  | block body next ih _ =>
    obtain ⟨opened, h, silent⟩ := ih .block (⟨next, cause⟩ :: stack) (.opened :: history)
    refine ⟨opened ++ [.opened], ?_, silent.append ⟨rfl, rfl⟩⟩
    rw [List.append_assoc]
    exact h

theorem exists_history_turn (s : Session) (env : Environment) (t : Turn) :
    ∃ added, (s.turn env t).history = added ++ (t.events.reverse ++ s.history) ∧
      added.filterMap Event.release? = [] ∧
      added.filterMap Event.call? = t.progress.call?.toList := by
  obtain ⟨w, progress, events⟩ := t
  cases progress with
  | answered reply => exact ⟨[.answered reply], rfl, rfl, rfl⟩
  | calling id waiting =>
    obtain ⟨opened, h, silent⟩ := exists_history_enter (w.count id).2
      (.call id (w.count id).1 waiting) s.stack
      (.entered id (w.count id).1 waiting :: (events.reverse ++ s.history))
      (env.body id (w.count id).1)
    refine ⟨opened ++ [.entered id (w.count id).1 waiting], ?_, ?_, ?_⟩
    · rw [List.append_assoc]
      exact h
    · rw [List.filterMap_append, silent.1]
      rfl
    · rw [List.filterMap_append, silent.2]
      cases waiting <;> rfl
  | tearing agenda => exact ⟨[], rfl, rfl, rfl⟩

/-- What an operation calls is recorded, and so is the callback that it goes on with. -/
theorem exists_history_advance (s : Session) (env : Environment) (w : World) (a : Advance) :
    ∃ events, (s.turn env (w.advance a)).history = events ++ s.history ∧
      events.filterMap Event.release? = (a.notes.filterMap Note.release?).reverse ∧
      events.filterMap Event.call? = a.progress.call?.toList := by
  obtain ⟨added, h, silent, calls⟩ := s.exists_history_turn env (w.advance a)
  obtain ⟨releases, noCall⟩ := w.advance_events a
  refine ⟨added ++ (w.advance a).events.reverse, ?_, ?_, ?_⟩
  · rw [List.append_assoc]
    exact h
  · rw [List.filterMap_append, silent, List.filterMap_reverse, releases]
    rfl
  · rw [List.filterMap_append, calls, List.filterMap_reverse, noCall, List.reverse_nil,
      List.append_nil]
    rfl

/-- That a program begins an operation, or has ended, is recorded before what comes of it. -/
theorem exists_history_recorded (s : Session) (env : Environment) {e : Event}
    (unreleased : e.release? = none) (uncalled : e.call? = none) (w : World) (a : Advance) :
    ∃ events, ((s.record [e]).turn env (w.advance a)).history = events ++ s.history ∧
      events.filterMap Event.release? = (a.notes.filterMap Note.release?).reverse ∧
      events.filterMap Event.call? = a.progress.call?.toList := by
  obtain ⟨events, h, releases, calls⟩ := (s.record [e]).exists_history_advance env w a
  refine ⟨events ++ [e], ?_, ?_, ?_⟩
  · rw [h, List.append_assoc]
    rfl
  · rw [List.filterMap_append, releases, List.filterMap_cons_none unreleased]
    exact List.append_nil _
  · rw [List.filterMap_append, calls, List.filterMap_cons_none uncalled]
    exact List.append_nil _

/-- An operation beside the registry calls nothing. -/
theorem exists_history_aside (s : Session) (env : Environment) {op : Operation} (h : op.isAside) :
    ∃ events, ((s.record [.began op]).turn env (s.world.perform env.host op)).history =
      events ++ s.history ∧ Event.Releases events [] := by
  obtain ⟨ds, delivered⟩ : ∃ ds : List Logging.Delivery,
      (s.world.perform env.host op).events = ds.map Event.delivered := by
    cases op with
    | log q => exact ⟨_, rfl⟩
    | router q => exact ⟨_, rfl⟩
    | _ => cases h
  have answered : (s.world.perform env.host op).progress.call? = none := by
    cases op with
    | log q => rfl
    | router q => rfl
    | _ => cases h
  obtain ⟨added, grown, silent, calls⟩ :=
    (s.record [.began op]).exists_history_turn env (s.world.perform env.host op)
  rw [answered] at calls
  rw [delivered] at grown
  obtain ⟨releases, noCall⟩ := Event.releases_delivered ds
  refine ⟨added ++ ((ds.map .delivered).reverse ++ [.began op]), ?_, ?_⟩
  · rw [grown, List.append_assoc, List.append_assoc]
    rfl
  · have bare : Event.Releases ((ds.map Event.delivered).reverse ++ [.began op]) [] := by
      refine ⟨?_, ?_⟩
      · rw [List.filterMap_append, List.filterMap_reverse, releases]
        rfl
      · rw [List.filterMap_append, List.filterMap_reverse, noCall]
        rfl
    exact Event.Releases.append ⟨silent, calls⟩ bare

/-- The history grows by the releases that an operation notes and the call that it goes on with. -/
theorem Move.exists_history {a : Advance} {rest : List Waiting} (move : s.Move a rest)
    (hs : s.step env = some t) :
    ∃ events, t.history = events ++ s.history ∧
      events.filterMap Event.release? = (a.notes.filterMap Note.release?).reverse ∧
      events.filterMap Event.call? = a.progress.call?.toList := by
  obtain ⟨w, control, stack, history⟩ := s
  cases move with
  | pass hc =>
    cases control with
    | perform op =>
      have aside : op.isAside := by cases op <;> first | rfl | cases hc
      obtain rfl := Option.some.inj hs
      exact exists_history_aside _ env aside
    | teardown agenda => cases hc
    | ended cause result =>
      cases cause with
      | owner => simp [Session.step] at hs
      | block =>
        obtain rfl := Option.some.inj hs
        exact ⟨[.closed (result.map fun _ => .nothing)], rfl, rfl, rfl⟩
      | call id n waiting => cases hc
    | answered reply =>
      cases stack with
      | nil => simp [Session.step] at hs
      | cons frame rest =>
        obtain rfl := Option.some.inj hs
        obtain ⟨opened, h, silent⟩ :=
          exists_history_enter w frame.cause rest history (frame.next reply)
        exact ⟨opened, h, silent.1, silent.2⟩
  | @request q hc =>
    obtain rfl : control = .perform (.registry q) := hc
    obtain rfl := Option.some.inj hs
    exact exists_history_recorded _ env rfl rfl w _
  | @part q hc =>
    obtain rfl : control = .perform (.part q) := hc
    obtain rfl := Option.some.inj hs
    exact exists_history_recorded _ env rfl rfl w _
  | @teardown agenda hc =>
    obtain rfl : control = .teardown agenda := hc
    obtain rfl := Option.some.inj hs
    exact exists_history_advance _ env w _
  | @resume id n waiting result rest hc _ =>
    obtain rfl : control = .ended (.call id n waiting) result := hc
    obtain rfl := Option.some.inj hs
    exact exists_history_recorded _ env rfl rfl w _

/-- No step but a teardown deals with what the teardowns on the call stack have taken. -/
theorem Move.deals {a : Advance} {rest : List Waiting} (move : s.Move a rest) (hp : s.Public) :
    ∃ before, a.Deals s.world.registry before s.control.dealing ∧
      s.pending = before ++ (rest.flatMap (·.agendas)).flatMap (·.pending) := by
  cases move with
  | pass hc =>
    have idle : s.control.agenda? = none := Control.agenda?_of_passes hc
    refine ⟨[], ?_, ?_⟩
    · rw [Control.dealing_of_passes hc]
      exact Registry.deals_of_idle rfl rfl rfl rfl
    · rw [pending, agendas, idle]
      rfl
  | @request q hc =>
    refine ⟨[], ?_, ?_⟩
    · rw [hc]
      exact s.world.registry.request_deals q
    · rw [pending, agendas, hc]
      rfl
  | part hc => exact absurd (hp.operation _ hc) (by simp [Operation.isPublic])
  | @teardown agenda hc =>
    refine ⟨agenda.pending, ?_, ?_⟩
    · rw [hc]
      exact s.world.registry.teardown_deals agenda
    · rw [pending, agendas, hc]
      rfl
  | @resume id n w result rest hc waits =>
    -- What a release callback keeps waiting has been taken before, and is pending all along.
    refine ⟨w.agendas.flatMap (·.pending), ?_, ?_⟩
    · rw [hc]
      exact s.world.registry.resume_deals result w
    · rw [pending, agendas, hc, waits, List.flatMap_cons, ← List.flatMap_append]
      rfl

/-- A step deals with the handles that are bound, with those that were taken and with the record
of those that were called. -/
structure Deals (s t : Session) (d : Dealing) : Prop where
  bound : t.world.registry.disposables = d.bind s.world.registry.disposables
  pending : d.called ++ t.pending = d.taken s.world.registry.disposables ++ s.pending
  called : ∀ released, Event.Releases s.history released →
    Event.Releases t.history (d.called ++ released)

theorem deals_step (hp : s.Public) (hs : s.step env = some t) : s.Deals t s.control.dealing := by
  obtain ⟨a, rest, move, hr, hw, ha⟩ := step_moves hs
  obtain ⟨before, deals, split⟩ := move.deals hp
  obtain ⟨events, grown, releases, calls⟩ := move.exists_history hs
  have left : t.pending = a.progress.pending ++ (rest.flatMap (·.agendas)).flatMap (·.pending) := by
    rw [pending, agendas_of_moves hw ha, List.flatMap_append]
    rfl
  refine ⟨hr ▸ deals.bound, ?_, fun released h => ?_⟩
  · rw [left, split, ← List.append_assoc, deals.pending, List.append_assoc]
  · rw [grown]
    refine Event.Releases.append ⟨?_, ?_⟩ h
    · rw [releases, deals.released, Dealing.reverse_called]
    · rw [calls, deals.called]

end Session

namespace Life

variable {l : Life} {k : Nat}

/-- How the step that follows a point deals with handles. -/
def dealing (l : Life) (k : Nat) : Dealing := (l.after k).control.dealing

theorem deals (l : Life) (k : Nat) : (l.after k).Deals (l.after (k + 1)) (l.dealing k) := by
  cases hs : (l.after k).step l.environment with
  | none =>
    rw [after_halted hs, dealing, Control.dealing_of_passes (Session.passes_of_halted hs)]
    exact ⟨rfl, rfl, fun _ h => h⟩
  | some t =>
    rw [after_succ hs]
    exact Session.deals_step (l.reaches_after k).isPublic hs

end Life

end Singletons
