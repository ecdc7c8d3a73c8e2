import Singletons.Proofs.Session.Waiting
import Singletons.Report
/-!
# Finished operations and programs

What an operation comes to does not depend on what waits below it, and it leaves one report. A
program that ends leaves the reports of its operations in their order.
-/

namespace Singletons

namespace Report.Open

def add (o : Open) (reports : List Report) : Open :=
  { o with top := { o.top with inside := o.top.inside ++ reports } }

def deliver (o : Open) (deliveries : List Logging.Delivery) : Open :=
  { o with top := { o.top with deliveries := o.top.deliveries ++ deliveries } }

theorem deliver_nil (o : Open) : o.deliver [] = o := by
  rw [deliver, List.append_nil]

theorem foldl_delivered (ds : List Logging.Delivery) (o : Open) :
    (ds.map Event.delivered).foldl next o = o.deliver ds := by
  induction ds generalizing o with
  | nil => exact o.deliver_nil.symm
  | cons d ds ih =>
    rw [List.map_cons, List.foldl_cons, ih]
    simp only [deliver, next, List.append_assoc, List.singleton_append]

end Report.Open

open Report (Open)

namespace World

/-- The notes of an operation open and close nothing in its report. -/
theorem foldl_notes (w : World) (ns : List Note) :
    ∃ ds, ∀ o : Open, (w.notes ns).2.foldl Open.next o = o.deliver ds := by
  induction ns generalizing w with
  | nil => exact ⟨[], fun o => o.deliver_nil.symm⟩
  | cons n ns ih =>
    obtain ⟨rest, hr⟩ := ih (w.note n).1
    cases n with
    | message tag severity text =>
      refine ⟨(w.log.log tag severity text).1 ++ rest, fun o => ?_⟩
      have first := Open.foldl_delivered (w.log.log tag severity text).1 o
      show List.foldl Open.next o (_ ++ _) = _
      rw [List.foldl_append]
      refine (congrArg (List.foldl Open.next · _) first).trans ((hr _).trans ?_)
      simp only [Open.deliver, List.append_assoc]
    | released n handle => exact ⟨rest, hr⟩

theorem foldl_advance (w : World) (a : Advance) :
    ∃ ds, ∀ o : Open, (w.advance a).events.foldl Open.next o = o.deliver ds :=
  foldl_notes _ a.notes

theorem calls_notes (w : World) (ns : List Note) : (w.notes ns).1.calls = w.calls := by
  induction ns generalizing w with
  | nil => rfl
  | cons n ns ih =>
    rw [notes]
    refine (ih _).trans ?_
    cases n <;> rfl

theorem calls_advance (w : World) (a : Advance) : (w.advance a).world.calls = w.calls :=
  calls_notes _ a.notes

end World

/-- The name that the next step requests to create, and the factory for it. -/
def Control.creation? : Control → Option (Name × Option CallbackId)
  | perform (.registry q) => q.creation?
  | _ => none

theorem Control.exists_request {c : Control} {creation : Name × Option CallbackId}
    (h : c.creation? = some creation) :
    ∃ q, c = .perform (.registry q) ∧ q.creation? = some creation := by
  cases c with
  | perform op =>
    cases op with
    | registry q => exact ⟨q, rfl, h⟩
    | _ => cases h
  | _ => cases h

namespace Session

variable {env : Environment}

theorem run_le {i j : Nat} {s t : Session} (hij : i ≤ j) (h : s.run env i = some t) :
    s.run env j = some t := by
  induction hij with
  | refl => exact h
  | step _ ih => exact run_succ ih

/-- A run comes to one last point only. -/
theorem Reaches.last_unique {s t u : Session} (h : Reaches env s t) (k : Reaches env s u)
    (ht : t.step env = none) (hu : u.step env = none) : t = u := by
  obtain ⟨i, hi⟩ := exists_run_eq_some_iff.mpr ⟨h, ht⟩
  obtain ⟨j, hj⟩ := exists_run_eq_some_iff.mpr ⟨k, hu⟩
  have first := run_le (Nat.le_max_left i j) hi
  have second := run_le (Nat.le_max_right i j) hj
  exact Option.some.inj (first.symm.trans second)

theorem turn_answered (s : Session) {t : Turn} {reply : Reply} (h : t.progress = .answered reply) :
    s.turn env t =
      { world := t.world, control := .answered reply, stack := s.stack
        history := .answered reply :: (t.events.reverse ++ s.history) } := by
  obtain ⟨w, progress, events⟩ := t
  obtain rfl : progress = .answered reply := h
  rfl

theorem turn_calling (s : Session) {t : Turn} {id : CallbackId} {waiting : Waiting}
    (h : t.progress = .calling id waiting) :
    s.turn env t =
      enter (t.world.count id).2 (.call id (t.world.count id).1 waiting) s.stack
        (.entered id (t.world.count id).1 waiting :: (t.events.reverse ++ s.history))
        (env.body id (t.world.count id).1) := by
  obtain ⟨w, progress, events⟩ := t
  obtain rfl : progress = .calling id waiting := h
  rfl

theorem turn_tearing (s : Session) {t : Turn} {agenda : Agenda} (h : t.progress = .tearing agenda) :
    s.turn env t =
      { world := t.world, control := .teardown agenda, stack := s.stack
        history := t.events.reverse ++ s.history } := by
  obtain ⟨w, progress, events⟩ := t
  obtain rfl : progress = .tearing agenda := h
  rfl

theorem step_request_answered (env : Environment) {s : Session} {q : Request} {reply : Reply}
    (hc : s.control = .perform (.registry q))
    (h : (s.world.registry.request q).progress = .answered reply) :
    ∃ t, s.step env = some t ∧ t.control = .answered reply ∧ t.stack = s.stack ∧
      t.world.registry = (s.world.registry.request q).registry ∧
      t.world.calls = s.world.calls := by
  obtain ⟨w, control, stack, history⟩ := s
  obtain rfl : control = .perform (.registry q) := hc
  refine ⟨_, congrArg some (turn_answered _ h), rfl, rfl, ?_, ?_⟩
  · exact w.registry_advance _
  · exact w.calls_advance _

theorem progress_of_answered {s t : Session} {q : Request} {reply : Reply}
    (hs : s.step env = some t) (hc : s.control = .perform (.registry q))
    (ha : t.control = .answered reply) :
    (s.world.registry.request q).progress = .answered reply := by
  obtain ⟨w, control, stack, history⟩ := s
  obtain rfl : control = .perform (.registry q) := hc
  obtain rfl := Option.some.inj hs
  exact progress_of_control_turn ha

/-- Performing the operation comes to a world, a reply and a report. -/
def Performs (env : Environment) (w : World) (op : Operation) (w' : World) (reply : Reply)
    (report : Report) : Prop :=
  ∃ events : List Event,
    (∀ stack history, Reaches env { world := w, control := .perform op, stack, history }
      { world := w', control := .answered reply, stack, history := events.reverse ++ history }) ∧
    ∀ o : Open, events.foldl Open.next o = o.add [report]

/-- The program comes to a world, an end and the reports of its operations. -/
def Runs (env : Environment) (w : World) (p : Program) (w' : World)
    (ended : Except Thrown Returned) (reports : List Report) : Prop :=
  ∃ events : List Event,
    (∀ cause stack history, Reaches env (enter w cause stack history p)
      { world := w', control := .ended cause ended, stack
        history := events.reverse ++ history }) ∧
    ∀ o : Open, events.foldl Open.next o = o.add reports

theorem Runs.finish (w : World) (ended : Except Thrown Returned) :
    Runs env w (.finish ended) w ended [] := by
  refine ⟨[], fun cause stack history => .refl, fun o => ?_⟩
  rw [List.foldl_nil, Open.add, List.append_nil]

theorem Runs.perform {w w₁ w₂ : World} {op : Operation} {next : Reply → Program} {reply : Reply}
    {ended : Except Thrown Returned} {report : Report} {reports : List Report}
    (first : Performs env w op w₁ reply report) (rest : Runs env w₁ (next reply) w₂ ended reports) :
    Runs env w (.perform op next) w₂ ended (report :: reports) := by
  obtain ⟨es, he, hes⟩ := first
  obtain ⟨fs, hf, hfs⟩ := rest
  refine ⟨es ++ fs, fun cause stack history => ?_, fun o => ?_⟩
  · have := ((he (⟨next, cause⟩ :: stack) history).next rfl).trans (hf cause stack _)
    rw [List.reverse_append, List.append_assoc]
    exact this
  · rw [List.foldl_append, hes, hfs]
    simp only [Open.add, List.append_assoc, List.singleton_append]

theorem performs_answered {w : World} {q : Request} {reply : Reply}
    (h : (w.registry.request q).progress = .answered reply) :
    ∃ ds, Performs env w (.registry q) (w.advance (w.registry.request q)).world reply
      (.operation reply [] ds) := by
  obtain ⟨ds, hd⟩ := w.foldl_advance (w.registry.request q)
  refine ⟨ds, .began (.registry q) :: ((w.advance (w.registry.request q)).events ++
    [.answered reply]), fun stack history => ?_, fun o => ?_⟩
  · refine .next .refl ((congrArg some (turn_answered _ h)).trans ?_)
    rw [List.reverse_cons, List.reverse_append, List.append_assoc, List.append_assoc]
    rfl
  · rw [List.foldl_cons, List.foldl_append, hd]
    rfl

private theorem reaches_entered (env : Environment) {w : World} {q : Request}
    {id : CallbackId} {waiting : Waiting}
    (h : (w.registry.request q).progress = .calling id waiting) (stack : List Frame)
    (history : List Event) :
    Reaches env { world := w, control := .perform (.registry q), stack, history }
      (enter ((w.advance (w.registry.request q)).world.count id).2
        (.call id ((w.advance (w.registry.request q)).world.count id).1 waiting) stack
        (.entered id ((w.advance (w.registry.request q)).world.count id).1 waiting ::
          ((w.advance (w.registry.request q)).events.reverse ++ .began (.registry q) :: history))
        (env.body id ((w.advance (w.registry.request q)).world.count id).1)) :=
  .next .refl (congrArg some (turn_calling _ h))

private theorem reaches_resumed (env : Environment) (id : CallbackId) (n : Nat) {w : World}
    {waiting : Waiting} {ended : Except Thrown Returned} {reply : Reply}
    (h : (w.registry.resume ended waiting).progress = .answered reply) (stack : List Frame)
    (history : List Event) :
    Reaches env { world := w, control := .ended (.call id n waiting) ended, stack, history }
      { world := (w.advance (w.registry.resume ended waiting)).world, control := .answered reply
        stack, history := .answered reply ::
          ((w.advance (w.registry.resume ended waiting)).events.reverse ++
            .left id n ended :: history) } :=
  .next .refl (congrArg some (turn_answered _ h))

/-- A request that needs a callback comes to what it makes of the end of the callback. -/
theorem performs_called {w w₂ : World} {q : Request} {id : CallbackId} {waiting : Waiting}
    {ended : Except Thrown Returned} {steps : List Report} {reply : Reply}
    (h : (w.registry.request q).progress = .calling id waiting)
    (body : Runs env ((w.advance (w.registry.request q)).world.count id).2
      (env.body id ((w.advance (w.registry.request q)).world.count id).1) w₂ ended steps)
    (hr : (w₂.registry.resume ended waiting).progress = .answered reply) :
    ∃ n ds, Performs env w (.registry q) (w₂.advance (w₂.registry.resume ended waiting)).world
      reply (.operation reply [.call id n steps] ds) := by
  obtain ⟨es, he, hes⟩ := body
  obtain ⟨ds, hd⟩ := w.foldl_advance (w.registry.request q)
  obtain ⟨fs, hf⟩ := w₂.foldl_advance (w₂.registry.resume ended waiting)
  have before := reaches_entered env h
  generalize ((w.advance (w.registry.request q)).world.count id).1 = n at he before
  refine ⟨n, ds ++ fs, .began (.registry q) :: ((w.advance (w.registry.request q)).events ++
    .entered id n waiting :: (es ++ .left id n ended ::
      ((w₂.advance (w₂.registry.resume ended waiting)).events ++ [.answered reply]))),
    fun stack history => ?_, fun o => ?_⟩
  · have inside := he (.call id n waiting) stack (.entered id n waiting ::
      ((w.advance (w.registry.request q)).events.reverse ++ .began (.registry q) :: history))
    have after := reaches_resumed env id n hr stack (es.reverse ++
      .entered id n waiting ::
        ((w.advance (w.registry.request q)).events.reverse ++ .began (.registry q) :: history))
    have path := ((before stack history).trans inside).trans after
    simpa only [List.reverse_cons, List.reverse_append, List.reverse_nil, List.append_assoc,
      List.cons_append, List.nil_append] using path
  · simp only [List.foldl_cons, List.foldl_append, List.foldl_nil, hd, hes, hf]
    rfl

theorem performs_answer (env : Environment) {w : World} {q : Request} {r : Registry}
    {reply : Reply} {notes : List Note}
    (h : w.registry.request q = { registry := r, progress := .answered reply, notes }) :
    ∃ w' ds, Performs env w (.registry q) w' reply (.operation reply [] ds) ∧
      w'.registry = r := by
  have answered : (w.registry.request q).progress = .answered reply := by rw [h]
  obtain ⟨ds, performs⟩ : ∃ ds, Performs env w (.registry q) _ reply (.operation reply [] ds) :=
    performs_answered answered
  refine ⟨_, ds, performs, ?_⟩
  rw [World.registry_advance, h]

/-- What a request that needs a callback comes to, for a callback that runs on its registry. -/
theorem performs_callback (env : Environment) {w : World} {q : Request} {r : Registry}
    {id : CallbackId} {waiting : Waiting} {notes : List Note} {reply : Reply}
    (ended : Except Thrown Returned) (result : Registry → List Report → Prop)
    (h : w.registry.request q = { registry := r, progress := .calling id waiting, notes })
    (body : ∀ w₁ k, w₁.registry = r → ∃ w₂ steps r' notes',
      Runs env w₁ (env.body id k) w₂ ended steps ∧
      w₂.registry.resume ended waiting =
        { registry := r', progress := .answered reply, notes := notes' } ∧ result r' steps) :
    ∃ w' k steps ds, Performs env w (.registry q) w' reply
        (.operation reply [.call id k steps] ds) ∧ result w'.registry steps := by
  have calling : (w.registry.request q).progress = .calling id waiting := by rw [h]
  have entered : ((w.advance (w.registry.request q)).world.count id).2.registry = r := by
    show (w.advance (w.registry.request q)).world.registry = r
    rw [World.registry_advance, h]
  obtain ⟨w₂, steps, r', notes', runs, resumed, holds⟩ := body _ _ entered
  have answered : (w₂.registry.resume ended waiting).progress = .answered reply := by
    rw [resumed]
  obtain ⟨k, ds, performs⟩ := performs_called calling runs answered
  refine ⟨_, k, steps, ds, performs, ?_⟩
  rw [World.registry_advance, resumed]
  exact holds

theorem Runs.sequence {w w₁ w₂ : World} {op : Operation} {answer : Answer} {ending : Ending}
    {answers : List Answer} {steps : List Step} {ended : Except Thrown Returned}
    {report : Report} {reports : List Report}
    (first : Performs env w op w₁ (.ok answer) report)
    (rest : Runs env w₁ (Step.sequence ending (answers ++ [answer]) steps) w₂ ended reports) :
    Runs env w (Step.sequence ending answers (.perform op :: steps)) w₂ ended
      (report :: reports) := by
  rw [Step.sequence, Step.program]
  exact Runs.perform first rest

/-- An operation that the owner performs as one step ends with its report. -/
theorem runStep_of_performs {w w' : World} {op : Operation} {reply : Reply} {report : Report}
    (h : Performs env w op w' reply report) :
    ∃ fuel, w.runStep env fuel (.perform op) = some (report, w') := by
  obtain ⟨events, reaches, reported⟩ := h
  let next : Reply → Program := fun _ => .finish (.ok .nothing)
  let last : Session :=
    { world := w', control := .ended .owner (.ok .nothing), stack := []
      history := events.reverse }
  have path : Reaches env (start w (.perform op next)) last := by
    have answered := reaches [⟨next, .owner⟩] []
    rw [List.append_nil] at answered
    exact .next answered rfl
  obtain ⟨fuel, run⟩ := exists_run_eq_some_iff.mpr ⟨path, rfl⟩
  refine ⟨fuel, ?_⟩
  have reports : Report.ofEvents last.history.reverse = [report] := by
    show (events.reverse.reverse.foldl Open.next {}).top.inside = [report]
    rw [List.reverse_reverse, reported]
    rfl
  have started : (start w (Step.program next (.perform op))).run env fuel = some last := by
    rw [Step.program]
    exact run
  show (((start w (Step.program next (.perform op))).run env fuel).bind fun s =>
    (Report.ofEvents s.history.reverse).head?.bind fun report => some (report, s.world)) = _
  rw [started, Option.bind_some, reports]
  rfl

end Session

end Singletons
